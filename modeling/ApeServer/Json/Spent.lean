import ApeServer.Json.Read

/-!
# A parser is spent after one document

`new_JSON_parser` puts `MODE_DONE` at the bottom of the stack, `JSON_parser_done` takes it away and
nothing puts it back.

* `Parser.ends` — how often `MODE_DONE` is on the stack;
* `Within` — a call that leaves it there no more often;
* `accepted` — **a parser that has accepted a text accepts no other**.
-/

namespace Ape.Json

/-- How often the parser can still come to the end of a text. -/
def Parser.ends (jc : Parser) : Nat := jc.stack.count .done

/-- A call leaves no more than that. -/
def Within (n : Nat) (o : Outcome) : Prop := o.parser.ends ≤ n

section Calls

variable {n : Nat} {jc : Parser}

theorem Within.andThen {o : Outcome} {f : Parser → Outcome} (ho : Within n o)
    (hf : ∀ jc : Parser, jc.ends ≤ n → Within n (f jc)) : Within n (o.andThen f) := by
  unfold Outcome.andThen
  split_ifs
  · exact hf o.parser ho
  · exact ho

theorem within_push {mode : Modes} (hmode : mode ≠ .done) (h : jc.ends ≤ n) :
    Within n (push mode jc) := by
  unfold push
  split_ifs
  · exact h
  · have hcount : (mode :: jc.stack).count .done = jc.stack.count .done :=
      List.count_cons_of_ne hmode
    exact hcount.trans_le h

theorem within_pop (mode : Modes) (h : jc.ends ≤ n) : Within n (pop mode jc) := by
  unfold pop
  split_ifs
  · exact ((List.tail_sublist _).count_le _).trans h
  · exact h

variable (libc : Libc)

theorem within_parseParseBuffer (h : jc.ends ≤ n) : Within n (parseParseBuffer libc jc) := by
  unfold parseParseBuffer
  refine Within.andThen ?_ fun jc h => h
  cases jc.scalar libc with
  | none => exact h
  | some value => exact h

theorem within_decodeUnicodeChar (h : jc.ends ≤ n) : Within n (decodeUnicodeChar jc) := by
  unfold decodeUnicodeChar decodeDigits
  simp only
  split_ifs <;> exact h

theorem within_addChar (c : Int) (k : Classes) (h : jc.ends ≤ n) : Within n (addChar c k jc) := by
  unfold addChar addEscapedChar
  split_ifs
  · exact h
  · simp only
    cases unescape c with
    | none => exact h
    | some b => exact h
  · exact h
  · exact h
  · exact h

theorem within_stringEnd (h : jc.ends ≤ n) : Within n (stringEnd libc jc) := by
  unfold stringEnd
  simp only
  split
  · exact Within.andThen h fun jc h => h
  · refine Within.andThen ?_ fun jc (h : jc.ends ≤ n) => h
    exact within_parseParseBuffer libc h
  · refine Within.andThen ?_ fun jc (h : jc.ends ≤ n) => h
    exact within_parseParseBuffer libc h
  · exact h
  · exact h

theorem within_nextMember (h : jc.ends ≤ n) : Within n (nextMember jc) := by
  unfold nextMember
  split
  · refine (within_pop _ h).andThen fun jc h => ?_
    exact (within_push (by decide) h).andThen fun jc h => h
  · exact h
  · exact h
  · exact h

theorem within_commentBegin (h : jc.ends ≤ n) : Within n (commentBegin libc jc) := by
  unfold commentBegin
  split_ifs
  · refine Within.andThen (within_parseParseBuffer libc h) fun jc h => ?_
    cases jc.stack.head? with
    | none => exact h
    | some mode => exact h
  · exact h

theorem within_closing (kind : Kind) (mode : Modes) (h : jc.ends ≤ n) :
    Within n (closing libc kind mode jc) := by
  refine Within.andThen (within_parseParseBuffer libc h) fun jc h => ?_
  refine Within.andThen h fun jc h => ?_
  exact (within_pop mode h).andThen fun jc h => h

theorem within_opening (kind : Kind) {mode : Modes} (hmode : mode ≠ .done) (state : States)
    (h : jc.ends ≤ n) : Within n (opening kind mode state jc) := by
  refine Within.andThen h fun jc h => ?_
  exact (within_push hmode h).andThen fun jc h => h

theorem within_comma (h : jc.ends ≤ n) : Within n (comma libc jc) := by
  refine Within.andThen ?_ fun jc h => within_nextMember h
  exact within_parseParseBuffer libc h

theorem within_colon (h : jc.ends ≤ n) : Within n (colon jc) := by
  refine Within.andThen (within_pop _ h) fun jc h => ?_
  exact (within_push (by decide) h).andThen fun jc h => h

/-- No action puts `MODE_DONE` back on the stack. -/
theorem within_act (action : Actions) (h : jc.ends ≤ n) : Within n (act libc action jc) := by
  cases action with
  | uc => exact (within_decodeUnicodeChar h).andThen fun jc h => h
  | cb => exact within_commentBegin libc h
  | m9 =>
    refine Within.andThen h fun jc h => ?_
    exact (within_pop _ h).andThen fun jc h => h
  | m8 => exact within_closing libc _ _ h
  | m7 => exact within_closing libc _ _ h
  | m6 => exact within_opening _ (by decide) _ h
  | m5 => exact within_opening _ (by decide) _ h
  | m4 => exact within_stringEnd libc h
  | m3 => exact within_comma libc h
  | m2 => exact within_colon h
  | _ => exact h

theorem within_jsonParserChar (c : Int) (h : jc.ends ≤ n) : Within n (jsonParserChar libc c jc) := by
  unfold jsonParserChar
  split_ifs
  · exact h
  · cases classOf c with
    | none => exact h
    | some k =>
      refine (within_addChar c k h).andThen fun jc h => ?_
      cases stateTransitionTable jc.state k with
      | xx => exact h
      | goto state => exact h
      | act action => exact within_act libc action h

theorem within_feed (cs : List Int) (h : jc.ends ≤ n) : Within n (feed libc cs jc) := by
  induction cs generalizing jc with
  | nil => exact h
  | cons c cs ih => exact (within_jsonParserChar libc c h).andThen fun jc h => ih h

/-! ## One text -/

/-- The end of a text takes `MODE_DONE` away. -/
theorem ends_jsonParserDone (h : (jsonParserDone jc).ok = true) :
    (jsonParserDone jc).parser.ends + 1 = jc.ends := by
  have hpop : jsonParserDone jc = pop .done jc := by
    by_cases hstate : jc.state = .ok ∨ jc.state = .go
    · exact if_pos hstate
    · rw [jsonParserDone, if_neg hstate] at h
      cases h
  rw [hpop] at h ⊢
  by_cases htop : jc.stack.head? ≠ some .done
  · rw [pop, if_neg htop] at h
    cases h
  rw [pop, if_pos (not_not.1 htop)]
  replace htop := not_not.1 htop
  obtain ⟨tail, htail⟩ : ∃ tail, jc.stack = .done :: tail := by
    cases hstack : jc.stack with
    | nil => simp [hstack] at htop
    | cons mode tail => exact ⟨tail, by rw [hstack] at htop; rw [Option.some.inj htop]⟩
  simp [Parser.ends, proceed, htail]

/-- **A parser that has accepted a text** accepts no other: what it can still accept costs it an end. -/
theorem accepted (cs : List Int) :
    if ((feed libc cs jc).andThen jsonParserDone).ok then
      ((feed libc cs jc).andThen jsonParserDone).parser.ends + 1 ≤ jc.ends
    else ((feed libc cs jc).andThen jsonParserDone).parser.ends ≤ jc.ends := by
  have hfeed : Within jc.ends (feed libc cs jc) := within_feed libc cs le_rfl
  by_cases hread : (feed libc cs jc).ok = true
  · rw [Outcome.andThen, if_pos hread]
    by_cases hdone : (jsonParserDone (feed libc cs jc).parser).ok = true
    · rw [if_pos hdone]
      exact (ends_jsonParserDone hdone).trans_le hfeed
    · rw [if_neg hdone]
      refine le_trans ?_ hfeed
      unfold jsonParserDone
      split_ifs
      · exact within_pop _ le_rfl
      · exact le_rfl
  · rw [Outcome.andThen, if_neg hread, if_neg hread]
    exact hfeed

end Calls

end Ape.Json

import ApeServer.Json.Assertions
import ApeServer.Json.Grammar

/-!
# A parser that is fed on

Nothing stops a caller from feeding a parser behind a character that it has refused.  The states and the
types still belong together then, so of all assertions only those of `decode_unicode_char` can fail.

* `Steady` — the invariant of every parser without comments, whatever it has refused;
* `Steady.jsonParserChar`, `Steady.jsonParserDone` — **it is kept by every call**;
* `Steady.asserted` — **the other assertions hold**;
* `idle`, `feed_idle` — **what a parser that is left over refuses** without a word;
* `Inert`, `feed_inert` — **what one refuses that has come to its end**.
-/

namespace Ape.Json

/-! ## States and types -/

/-- The types that belong to a state. -/
def TypeOk (type : JsonType) : States → Bool
  | .go | .ob | .ke | .co | .va | .ar => type == .none
  | .st | .es | .u1 | .u2 | .u3 | .u4 | .d1 | .d2 => type == .string
  | .mi | .ze | .it => type == .integer
  | .fr | .fx | .e1 | .e2 | .e3 => type == .float
  | .t1 | .t2 | .t3 => type == .true
  | .f1 | .f2 | .f3 | .f4 => type == .false
  | .n1 | .n2 | .n3 => type == .null
  | .ok => [JsonType.none, .integer, .float, .null, .true, .false].contains type
  | .c1 | .c2 | .c3 => false

/-- The types that an action is met with. -/
def Actions.types : Actions → List JsonType
  | .uc | .ex | .m4 => [.string]
  | .de | .df => [.integer]
  | .m8 | .m7 | .m3 => [.none, .integer, .float, .null, .true, .false]
  | .cb => [.none, .integer, .float, .null, .true, .false, .string]
  | .ce => []
  | _ => [.none]

/-- What a cell of the table says about types: a state takes those it is reached with, and an action is
met with its own, at a character that is not white. -/
def cellTyped (s : States) (n : Nat) (types : List JsonType) : Cell → Bool
  | .xx => true
  | .goto s' => s' != .es && types.all fun type => !TypeOk type s || TypeOk type s'
  | .act .df => n == 13 && types.all fun type => !TypeOk type s || type == .integer
  | .act action => decide (2 ≤ n) && s != .es &&
      types.all fun type => !TypeOk type s || action.types.contains type

theorem cellTyped_table (s : States) (k : Classes) (type : JsonType) :
    cellTyped s k.ctorIdx [type] (stateTransitionTable s k) = true := by
  have hlt : k.ctorIdx < 32 := by cases k <;> decide
  have hall : ∀ n < 32, cellTyped s n [.none, .arrayBegin, .arrayEnd, .objectBegin, .objectEnd,
      .integer, .float, .null, .true, .false, .string, .key] ((tableRow s).getD n .xx) = true := by
    cases s <;> decide
  have hone := hall k.ctorIdx hlt
  have hmem : type ∈ [JsonType.none, .arrayBegin, .arrayEnd, .objectBegin, .objectEnd, .integer,
      .float, .null, .true, .false, .string, .key] := by cases type <;> decide
  change cellTyped s k.ctorIdx _ (stateTransitionTable s k) = true at hone
  cases hcell : stateTransitionTable s k with
  | xx => rfl
  | goto s' =>
    rw [hcell] at hone
    simp only [cellTyped, Bool.and_eq_true, List.all_eq_true] at hone ⊢
    exact ⟨hone.1, fun t ht => List.mem_singleton.1 ht ▸ hone.2 type hmem⟩
  | act action =>
    rw [hcell] at hone
    cases action <;> simp only [cellTyped, Bool.and_eq_true, List.all_eq_true] at hone ⊢ <;>
      exact ⟨hone.1, fun t ht => List.mem_singleton.1 ht ▸ hone.2 type hmem⟩

/-! ## The invariant -/

/-- A parser without comments, in this state and with this type. -/
def Holding (s : States) (type : JsonType) (escaped : Bool) (jc : Parser) : Prop :=
  (jc.comment = false ∧ jc.allowComments = false ∧ jc.beforeCommentState = .go) ∧
    jc.escaped = escaped ∧ jc.state = s ∧ jc.type = type

/-- **The invariant of a parser**, whatever it has refused. -/
structure Steady (jc : Parser) : Prop where
  holds : Holding jc.state jc.type jc.escaped jc
  type : TypeOk jc.type jc.state = true
  escaped : jc.escaped = true → jc.state = .es ∧ jc.parseBuffer ≠ []

section Calls

variable {s : States} {type : JsonType} {jc : Parser} {P Q : Parser → Prop} {o : Outcome}

theorem Holding.steady {t : JsonType} (h : Holding s t false jc) (htype : TypeOk t s = true) :
    Steady jc := by
  obtain ⟨hplain, hescaped, rfl, rfl⟩ := h
  exact ⟨⟨hplain, rfl, rfl, rfl⟩, htype, fun hyes => absurd (hescaped.symm.trans hyes) (by simp)⟩

/-- What holds behind a call, whatever it returns. -/
theorem parser_andThen {f : Parser → Outcome} (h : P o.parser) (hP : ∀ jc, P jc → Q jc)
    (hf : ∀ jc, P jc → Q (f jc).parser) : Q (o.andThen f).parser := by
  unfold Outcome.andThen
  split_ifs
  · exact hf _ h
  · exact hP _ h

theorem holding_push {mode : Modes} (h : Holding s type false jc) :
    Holding s type false (push mode jc).parser := by
  unfold push
  split_ifs <;> exact h

theorem holding_pop {mode : Modes} (h : Holding s type false jc) :
    Holding s type false (pop mode jc).parser := by
  unfold pop
  split_ifs <;> exact h

variable (libc : Libc)

theorem holding_parseParseBuffer (h : Holding s type false jc) :
    Holding s type false (parseParseBuffer libc jc).parser := by
  unfold parseParseBuffer
  refine parser_andThen (P := Holding s type false) ?_ (fun _ h => h) fun jc h => h
  cases jc.scalar libc <;> exact h

/-- A parser that may move to another state, with one of the types that are met there, is steady. -/
theorem Holding.move (h : Holding s type false jc) {s' : States} {type' : JsonType}
    (htype : TypeOk type' s' = true) : Steady { jc with state := s', type := type' } :=
  Holding.steady (s := s') (t := type') ⟨h.1, h.2.1, rfl, rfl⟩ htype

theorem steady_stringEnd (htype : TypeOk type s = true) (h : Holding s type false jc) :
    Steady (stringEnd libc jc).parser := by
  have hkeep : ∀ jc, Holding s type false jc → Steady jc := fun jc h => h.steady htype
  unfold stringEnd
  simp only
  split
  · refine parser_andThen (P := Holding .co .none false) ⟨h.1, h.2.1, rfl, rfl⟩
      (fun jc h => h.steady rfl) fun jc h => ?_
    exact Holding.steady (s := .co) (t := .none) h rfl
  · refine parser_andThen (holding_parseParseBuffer libc h) hkeep fun jc h => ?_
    exact h.move rfl
  · refine parser_andThen (holding_parseParseBuffer libc h) hkeep fun jc h => ?_
    exact h.move rfl
  · exact hkeep _ h
  · exact hkeep _ h

theorem steady_nextMember (htype : TypeOk type s = true) (h : Holding s type false jc) :
    Steady (nextMember jc).parser := by
  have hkeep : ∀ jc, Holding s type false jc → Steady jc := fun jc h => h.steady htype
  unfold nextMember
  split
  · refine parser_andThen (holding_pop h) hkeep fun jc h => ?_
    refine parser_andThen (holding_push h) hkeep fun jc h => ?_
    exact h.move rfl
  · exact h.move rfl
  · exact hkeep _ h
  · exact hkeep _ h

theorem steady_closing (kind : Kind) (mode : Modes) (htype : TypeOk type s = true)
    (h : Holding s type false jc) : Steady (closing libc kind mode jc).parser := by
  have hkeep : ∀ jc, Holding s type false jc → Steady jc := fun jc h => h.steady htype
  refine parser_andThen (holding_parseParseBuffer libc h) hkeep fun jc h => ?_
  refine parser_andThen (P := Holding s type false) h hkeep fun jc h => ?_
  refine parser_andThen (holding_pop h) hkeep fun jc h => ?_
  exact h.move rfl

theorem steady_opening (kind : Kind) (mode : Modes) {s' : States} (htype : TypeOk .none s = true)
    (hnext : TypeOk .none s' = true) (h : Holding s .none false jc) :
    Steady (opening kind mode s' jc).parser := by
  have hkeep : ∀ jc, Holding s .none false jc → Steady jc := fun jc h => h.steady htype
  refine parser_andThen (P := Holding s .none false) h hkeep fun jc h => ?_
  refine parser_andThen (holding_push h) hkeep fun jc h => ?_
  exact Holding.steady (s := s') (t := .none) ⟨h.1, h.2.1, rfl, h.2.2.2⟩ hnext

theorem steady_closingEmpty (htype : TypeOk .none s = true) (h : Holding s .none false jc) :
    Steady (closingEmpty jc).parser := by
  have hkeep : ∀ jc, Holding s .none false jc → Steady jc := fun jc h => h.steady htype
  refine parser_andThen (P := Holding s .none false) h hkeep fun jc h => ?_
  refine parser_andThen (holding_pop h) hkeep fun jc h => ?_
  exact Holding.steady (s := .ok) (t := .none) ⟨h.1, h.2.1, rfl, h.2.2.2⟩ rfl

theorem steady_colon (htype : TypeOk .none s = true) (h : Holding s .none false jc) :
    Steady (colon jc).parser := by
  have hkeep : ∀ jc, Holding s .none false jc → Steady jc := fun jc h => h.steady htype
  have hpop : Holding s .none false jc.bufferPop := h
  refine parser_andThen (holding_pop hpop) hkeep fun jc h => ?_
  refine parser_andThen (holding_push h) hkeep fun jc h => ?_
  exact Holding.steady (s := .va) (t := .none) ⟨h.1, h.2.1, rfl, h.2.2.2⟩ rfl

/-- The decoding of an escape, whether its assertions hold or not. -/
theorem steady_decode (h : Holding s .string false jc) (htype : TypeOk .string s = true) :
    Steady (act libc .uc jc).parser := by
  have hkeep : ∀ jc, Holding s .string false jc → Steady jc := fun jc h => h.steady htype
  refine parser_andThen (P := Holding s .string false) ?_ hkeep fun jc h => ?_
  · unfold decodeUnicodeChar
    split_ifs
    · obtain ⟨-, buffer, high, hparser⟩ := decodeDigits_keeps jc
      rw [hparser]
      exact h
    · exact h
  · refine Holding.steady (t := .string) ⟨h.1, h.2.1, rfl, h.2.2.2⟩ ?_
    split_ifs <;> rfl

/-- **Every action**, met with one of its types. -/
theorem steady_act {action : Actions} (h : Holding s type false jc) (htype : TypeOk type s = true)
    (hmet : type ∈ action.types) (hbuffer : jc.parseBuffer ≠ []) :
    Steady (act libc action jc).parser := by
  cases action with
  | uc =>
    obtain rfl := List.mem_singleton.1 hmet
    exact steady_decode libc h htype
  | ex =>
    obtain rfl := List.mem_singleton.1 hmet
    obtain ⟨hplain, -, -, hsame⟩ := h
    exact ⟨⟨hplain, rfl, rfl, rfl⟩, by simp [act, proceed, hsame, TypeOk], fun _ => ⟨rfl, hbuffer⟩⟩
  | cb =>
    have hno : ¬ jc.allowComments = true := by simp [h.1.2.1]
    rw [act, commentBegin, if_neg hno]
    exact h.steady htype
  | ce => exact absurd hmet List.not_mem_nil
  | m9 =>
    obtain rfl := List.mem_singleton.1 hmet
    exact steady_closingEmpty htype h
  | m8 => exact steady_closing libc _ _ htype h
  | m7 => exact steady_closing libc _ _ htype h
  | m6 =>
    obtain rfl := List.mem_singleton.1 hmet
    exact steady_opening _ _ htype rfl h
  | m5 =>
    obtain rfl := List.mem_singleton.1 hmet
    exact steady_opening _ _ htype rfl h
  | m4 => exact steady_stringEnd libc htype h
  | m3 =>
    have hkeep : ∀ jc, Holding s type false jc → Steady jc := fun jc h => h.steady htype
    have hpop : Holding s type false jc.bufferPop := h
    exact parser_andThen (holding_parseParseBuffer libc hpop) hkeep
      fun jc h => steady_nextMember htype h
  | m2 =>
    obtain rfl := List.mem_singleton.1 hmet
    exact steady_colon htype h
  | df =>
    have hpoint : Holding s type false (jc.bufferPop.bufferPush libc.decimalPoint) := h
    exact hpoint.move rfl
  | sb =>
    have hclear : Holding s type false jc.bufferClear := h
    exact hclear.move rfl
  | mx | zx | ix | de | nu | fa | tr => exact h.move rfl

/-! ## One character -/

/-- What a character leaves in a parser: it is refused, or it is in the buffer unless it is white. -/
theorem Steady.addChar (h : Steady jc) (c : Int) (k : Classes) :
    (∃ jc', Json.addChar c k jc = refuse jc' ∧ Steady jc') ∨
      ∃ buffer, Json.addChar c k jc = proceed { jc with escaped := false, parseBuffer := buffer } ∧
        (2 ≤ k.ctorIdx → buffer ≠ []) ∧
        (jc.state ≠ .es → 2 ≤ k.ctorIdx → buffer = jc.parseBuffer ++ [toByte c]) := by
  obtain ⟨⟨hplain, -, -, -⟩, htype, hescaped⟩ := h
  by_cases hes : jc.escaped = true
  · have hstate : jc.state = .es := (hescaped hes).1
    rw [Json.addChar, if_pos hes, addEscapedChar]
    by_cases hu : c = 117
    · rw [if_pos hu]
      exact .inr ⟨_, rfl, fun _ => by simp, fun hne => absurd hstate hne⟩
    · rw [if_neg hu]
      cases unescape c with
      | none =>
        have hpop : Holding jc.state jc.type false { jc with escaped := false }.bufferPop :=
          ⟨hplain, rfl, rfl, rfl⟩
        exact .inl ⟨_, rfl, hpop.steady htype⟩
      | some b =>
        exact .inr ⟨_, rfl, fun _ => by simp, fun hne => absurd hstate hne⟩
  · replace hes : jc.escaped = false := by simpa using hes
    obtain ⟨buffer, hadd, hput⟩ := addChar_outside hes hplain.1 c k
    have hsolid : 2 ≤ k.ctorIdx → ¬ (k = .space ∨ k = .white) := by
      rintro htwo (rfl | rfl) <;> exact absurd htwo (by decide)
    refine .inr ⟨buffer, by rw [hadd, ← hes], fun htwo => ?_, fun _ htwo => hput (hsolid htwo)⟩
    rw [hput (hsolid htwo)]
    exact List.append_ne_nil_of_right_ne_nil _ (List.cons_ne_nil _ _)

/-- An action of the table is met with one of its types, behind a character that is in the buffer. -/
theorem cellTyped_act {action : Actions} {n : Nat} (htype : TypeOk type s = true)
    (h : cellTyped s n [type] (.act action) = true) : type ∈ action.types ∧ 2 ≤ n := by
  cases action <;> simp only [cellTyped, Bool.and_eq_true, List.all_eq_true, List.mem_singleton,
    forall_eq, htype, Bool.not_true, Bool.false_or, beq_iff_eq, List.contains_iff_mem,
    decide_eq_true_eq] at h
  case df => exact ⟨List.mem_singleton.2 h.2, by omega⟩
  all_goals exact ⟨h.2, h.1.1⟩

/-- **One character**, refused or not. -/
theorem Steady.jsonParserChar (h : Steady jc) (c : Int) :
    Steady (Json.jsonParserChar libc c jc).parser := by
  unfold Json.jsonParserChar
  split_ifs
  · exact h
  cases hclass : classOf c with
  | none => exact h
  | some k =>
    rcases h.addChar c k with ⟨jc', hadd, hparser⟩ | ⟨buffer, hadd, hput, -⟩
    · simp only [hadd]
      exact hparser
    · have hcell := cellTyped_table jc.state k jc.type
      have hadded : Holding jc.state jc.type false
          { jc with escaped := false, parseBuffer := buffer } := ⟨h.holds.1, rfl, rfl, rfl⟩
      simp only [hadd, proceed, Outcome.andThen, if_true]
      cases htable : stateTransitionTable jc.state k with
      | xx => exact hadded.steady h.type
      | goto state =>
        rw [htable] at hcell
        simp only [cellTyped, Bool.and_eq_true, List.all_eq_true, List.mem_singleton, forall_eq,
          h.type, Bool.not_true, Bool.false_or] at hcell
        exact hadded.move hcell.2
      | act action =>
        rw [htable] at hcell
        obtain ⟨hmet, htwo⟩ := cellTyped_act h.type hcell
        exact steady_act libc hadded h.type hmet (hput htwo)

theorem Steady.jsonParserDone (h : Steady jc) : Steady (Json.jsonParserDone jc).parser := by
  unfold Json.jsonParserDone pop
  split_ifs
  · exact ⟨h.holds, h.type, h.escaped⟩
  · exact h
  · exact h

theorem Steady.feed (h : Steady jc) (cs : List Int) : Steady (Json.feed libc cs jc).parser := by
  induction cs generalizing jc with
  | nil => exact h
  | cons c cs ih =>
    exact parser_andThen (P := Steady) (h.jsonParserChar libc c) (fun _ h => h) fun _ h => ih h

/-- A new parser is steady. -/
theorem steady_newParser (callback : Bool) (depth : Int) :
    Steady (newParser callback depth false) :=
  ⟨⟨⟨rfl, rfl, rfl⟩, rfl, rfl, rfl⟩, rfl, fun h => absurd h Bool.false_ne_true⟩

/-! ## The other assertions -/

/-- The assertions that an action meets on its way, apart from those of `decode_unicode_char`: a
character to take back, no value begun where one begins, and a scalar where one is told. -/
def Asserted (action : Actions) (jc : Parser) : Prop :=
  match action with
  | .de => jc.type ∉ [.false, .true, .null, .string]
  | .df => jc.type ∉ [.false, .true, .null, .string] ∧ jc.parseBuffer.getLast? = some 46
  | .sb | .nu | .fa | .tr => jc.type = .none
  | .m6 | .m5 | .m2 => jc.parseBuffer ≠ [] ∧ jc.type = .none
  | .m8 | .m7 => jc.parseBuffer ≠ [] ∧ jc.type ∈ [.none, .null, .false, .true, .float, .integer, .string]
  | .m4 => jc.parseBuffer ≠ [] ∧ jc.type = .string
  | .m3 => jc.parseBuffer ≠ [] ∧ jc.type ∈ [.none, .null, .false, .true, .float, .integer]
  | .cb | .ce => jc.allowComments = false
  | .uc | .ex | .mx | .zx | .ix | .m9 => True

/-- The only character with the class of the point is the point. -/
theorem class_point {c : Int} (hc : ¬ c < 0) {k : Classes} (h : classOf c = some k)
    (hk : k.ctorIdx = 13) : toByte c = 46 := by
  by_cases hlarge : 128 ≤ c
  · rw [classOf, if_pos hlarge] at h
    obtain rfl := Option.some.inj h
    exact absurd hk (by decide)
  · obtain ⟨n, rfl⟩ : ∃ n : Nat, c = n := ⟨c.toNat, by omega⟩
    have hall : ∀ n < 128, (classOf (n : Nat)).map Classes.ctorIdx = some 13 →
        toByte (n : Nat) = 46 := by decide
    exact hall n (by omega) (by rw [h, Option.map_some, hk])

/-- **The other assertions hold**: a character finds a backslash to take back, and the action it leads
to finds what it takes for granted. -/
theorem Steady.asserted (h : Steady jc) {c : Int} (hc : ¬ c < 0) {k : Classes}
    (hclass : classOf c = some k) : (jc.escaped = true → jc.parseBuffer ≠ []) ∧
      ∀ jc' action, Json.addChar c k jc = proceed jc' →
        stateTransitionTable jc'.state k = .act action → Asserted action jc' := by
  refine ⟨fun hes => (h.escaped hes).2, fun jc' action hadd htable => ?_⟩
  rcases h.addChar c k with ⟨jc'', hno, -⟩ | ⟨buffer, hadd', hput, hlast⟩
  · exact absurd (congrArg Outcome.ok (hadd.symm.trans hno)) (by simp [proceed, refuse])
  · obtain rfl : jc' = _ := congrArg Outcome.parser (hadd.symm.trans hadd')
    have hcell := cellTyped_table jc.state k jc.type
    change stateTransitionTable jc.state k = .act action at htable
    rw [htable] at hcell
    obtain ⟨hmet, htwo⟩ := cellTyped_act h.type hcell
    have hbuffer := hput htwo
    cases action with
    | uc | ex | mx | zx | ix | m9 => trivial
    | cb | ce => exact h.holds.1.2.1
    | de =>
      show jc.type ∉ _
      rw [List.mem_singleton.1 hmet]
      decide
    | df =>
      simp only [cellTyped, Bool.and_eq_true, beq_iff_eq] at hcell
      have hes : jc.state ≠ .es := by
        intro hes
        have hstring := h.type
        rw [hes, List.mem_singleton.1 hmet] at hstring
        exact absurd hstring (by decide)
      refine ⟨?_, ?_⟩
      · show jc.type ∉ _
        rw [List.mem_singleton.1 hmet]
        decide
      · show buffer.getLast? = some 46
        rw [hlast hes htwo, List.getLast?_concat, class_point hc hclass hcell.1]
    | sb | nu | fa | tr => exact List.mem_singleton.1 hmet
    | m6 | m5 | m2 => exact ⟨hbuffer, List.mem_singleton.1 hmet⟩
    | m4 => exact ⟨hbuffer, List.mem_singleton.1 hmet⟩
    | m8 | m7 | m3 =>
      refine ⟨hbuffer, ?_⟩
      have hscalar : ∀ type ∈ Actions.types .m3, type ∈ [JsonType.none, .null, .false, .true, .float,
          .integer] := by decide
      have htype : jc.type ∈ _ := hscalar jc.type hmet
      simp only [List.mem_cons, List.not_mem_nil, or_false] at htype ⊢
      tauto

/-! ## A parser that is left over -/

/-- The state that an action leads to, if it tells nothing and cannot fail. -/
def Actions.silent : Actions → Option States
  | .ex => some .es
  | .mx => some .mi
  | .zx => some .ze
  | .ix => some .it
  | .de => some .e1
  | .df => some .fx
  | .sb => some .st
  | .nu => some .n1
  | .fa => some .f1
  | .tr => some .t1
  | _ => none

/-- The table leads from this state to a character that is refused, or to the end of the bytes inside a
document, before it comes to a bracket, a comma, a colon, the end of a string or of an escape. -/
def idle : States → List UInt8 → Bool
  | s, [] => s != .go && s != .ok
  | s, b :: bs =>
    match classOf b.toNat with
    | none => true
    | some k =>
      match stateTransitionTable s k with
      | .xx => true
      | .goto s' => idle s' bs
      | .act .cb => true
      | .act action =>
        match action.silent with
        | some s' => idle s' bs
        | none => false

theorem proceed_andThen (jc : Parser) (f : Parser → Outcome) : (proceed jc).andThen f = f jc := rfl

theorem refuse_andThen (jc : Parser) (f : Parser → Outcome) :
    (refuse jc).andThen f = refuse jc := rfl

/-- What an action does that tells nothing. -/
theorem act_silent {action : Actions} {s' : States} (h : action.silent = some s') (jc : Parser) :
    ∃ jc', act libc action jc = proceed jc' ∧ jc'.state = s' := by
  cases action <;> first
    | (obtain rfl := Option.some.inj h; exact ⟨_, rfl, rfl⟩)
    | cases h

/-- One character that is no blank for an idle parser, and the rest of the text. -/
theorem idle_cons (h : Steady jc) {b : UInt8} {bs : List UInt8} (hidle : idle jc.state (b :: bs) = true) :
    (∃ jc', Json.jsonParserChar libc b.toNat jc = refuse jc') ∨
      ∃ jc', Json.jsonParserChar libc b.toNat jc = proceed jc' ∧ idle jc'.state bs = true := by
  unfold Json.jsonParserChar
  rw [if_neg (by omega)]
  unfold idle at hidle
  cases hclass : classOf b.toNat with
  | none => exact .inl ⟨jc, rfl⟩
  | some k =>
    simp only [hclass] at hidle
    rcases h.addChar b.toNat k with ⟨jc', hadd, -⟩ | ⟨buffer, hadd, -⟩
    · simp only [hadd]
      exact .inl ⟨jc', rfl⟩
    · simp only [hadd, proceed_andThen]
      cases htable : stateTransitionTable jc.state k with
      | xx => exact .inl ⟨_, rfl⟩
      | goto s' =>
        rw [htable] at hidle
        exact .inr ⟨_, rfl, hidle⟩
      | act action =>
        rw [htable] at hidle
        by_cases hcb : action = .cb
        · subst hcb
          have hno : ¬ jc.allowComments = true := by simp [h.holds.1.2.1]
          exact .inl ⟨_, if_neg hno⟩
        · obtain ⟨s', hsilent, hrest⟩ : ∃ s', action.silent = some s' ∧ idle s' bs = true := by
            cases action <;> first
              | exact ⟨_, rfl, hidle⟩
              | exact absurd hidle Bool.false_ne_true
              | exact absurd rfl hcb
          obtain ⟨jc', hact, rfl⟩ := act_silent libc hsilent
            { jc with escaped := false, parseBuffer := buffer }
          exact .inr ⟨jc', hact, hrest⟩

/-- **What an idle parser is fed** it refuses, without a call of the callback. -/
theorem feed_idle (h : Steady jc) {bs : List UInt8} (hidle : idle jc.state bs = true) :
    ∃ jc', (Json.feed libc (codes bs) jc).andThen Json.jsonParserDone = refuse jc' := by
  induction bs generalizing jc with
  | nil =>
    simp only [idle, Bool.and_eq_true, bne_iff_ne] at hidle
    refine ⟨jc, ?_⟩
    show Json.jsonParserDone jc = refuse jc
    rw [Json.jsonParserDone, if_neg (not_or.2 ⟨hidle.2, hidle.1⟩)]
  | cons b bs ih =>
    have hsteady := h.jsonParserChar libc b.toNat
    have hcons : (Json.feed libc (codes (b :: bs)) jc).andThen Json.jsonParserDone =
        (Json.jsonParserChar libc b.toNat jc).andThen fun jc =>
          (Json.feed libc (codes bs) jc).andThen Json.jsonParserDone :=
      Outcome.andThen_assoc ..
    rw [hcons]
    rcases idle_cons libc h hidle with ⟨jc', hchar⟩ | ⟨jc', hchar, hrest⟩
    · rw [hchar, refuse_andThen]
      exact ⟨jc', rfl⟩
    · rw [hchar] at hsteady
      rw [hchar, proceed_andThen]
      exact ih hsteady hrest

/-- The white space, as the parser classifies it. -/
theorem class_of_blank {b : UInt8} (hb : IsBlank b) :
    ∃ k, classOf b.toNat = some k ∧ (k = .space ∨ k = .white) := by
  rcases hb with rfl | rfl | rfl | rfl
  · exact ⟨.space, by decide⟩
  · exact ⟨.white, by decide⟩
  · exact ⟨.white, by decide⟩
  · exact ⟨.white, by decide⟩

/-- What a parser outside of a document does with a character: its state and its stack stay. -/
structure Stays (jc jc' : Parser) : Prop where
  state : jc'.state = jc.state
  stack : jc'.stack = jc.stack

theorem Steady.unescaped (h : Steady jc) (hstate : jc.state = .go ∨ jc.state = .ok) :
    jc.escaped = false := by
  by_contra hyes
  have hes := (h.escaped (by simpa using hyes)).1
  rcases hstate with hgo | hok
  · exact absurd (hgo.symm.trans hes) (by decide)
  · exact absurd (hok.symm.trans hes) (by decide)

/-- A blank outside of a document is taken and changes nothing. -/
theorem char_blank (h : Steady jc) (hstate : jc.state = .go ∨ jc.state = .ok) {b : UInt8}
    (hb : IsBlank b) :
    ∃ jc', Json.jsonParserChar libc b.toNat jc = proceed jc' ∧ Stays jc jc' := by
  obtain ⟨k, hclass, hk⟩ := class_of_blank hb
  obtain ⟨buffer, hadd, -⟩ := addChar_outside (h.unescaped hstate) h.holds.1.1 b.toNat k
  have hstay : stateTransitionTable jc.state k = .goto jc.state := by
    rcases hstate with hs | hs <;> rcases hk with rfl | rfl <;> rw [hs] <;> rfl
  refine ⟨{ jc with parseBuffer := buffer }, ?_, rfl, rfl⟩
  rw [Json.jsonParserChar, if_neg (by omega), hclass]
  simp only [hadd, proceed_andThen, hstay]

/-- White space outside of a document is taken. -/
theorem feed_white (h : Steady jc) (hstate : jc.state = .go ∨ jc.state = .ok) {bs : List UInt8}
    (hbs : Blank bs) :
    ∃ jc', Json.feed libc (codes bs) jc = proceed jc' ∧ Stays jc jc' := by
  induction bs generalizing jc with
  | nil => exact ⟨jc, rfl, rfl, rfl⟩
  | cons b bs ih =>
    obtain ⟨hb, hrest⟩ := List.forall_mem_cons.1 hbs
    have hsteady := h.jsonParserChar libc b.toNat
    obtain ⟨jc₁, hfirst, hsame⟩ := char_blank libc h hstate hb
    replace hsteady : Steady jc₁ := by
      rw [hfirst] at hsteady
      exact hsteady
    obtain ⟨jc', hfeed, hlast⟩ := ih hsteady (hsame.state.symm ▸ hstate) hrest
    have hcons : Json.feed libc (codes (b :: bs)) jc =
        (Json.jsonParserChar libc b.toNat jc).andThen (Json.feed libc (codes bs)) := rfl
    refine ⟨jc', ?_, hlast.state.trans hsame.state, hlast.stack.trans hsame.stack⟩
    rw [hcons, hfirst, proceed_andThen, hfeed]

/-- White space, or a text that begins with no bracket and no comma. -/
def Inert (bs : List UInt8) : Prop :=
  ∀ b, (bs.dropWhile fun b => IsBlank b).head? = some b → b ∉ [44, 91, 93, 123, 125]

/-- Any other character outside of a document is refused, but for the brackets and the comma. -/
theorem char_inert (h : Steady jc) (hstate : jc.state = .go ∨ jc.state = .ok) {b : UInt8}
    (hblank : ¬ IsBlank b) (hb : b ∉ [44, 91, 93, 123, 125]) :
    ∃ jc', Json.jsonParserChar libc b.toNat jc = refuse jc' ∧ Stays jc jc' := by
  have hcell : ∀ b : UInt8, ¬ IsBlank b → b ∉ [44, 91, 93, 123, 125] → ∀ s ∈ [States.go, .ok],
      ((classOf b.toNat).map (stateTransitionTable s)).getD .xx ∈ [Cell.xx, .act .cb] :=
    CString.forall_byte (by decide) (by decide)
  have hmem : jc.state ∈ [States.go, .ok] := by simpa using hstate
  specialize hcell b hblank hb jc.state hmem
  rw [Json.jsonParserChar, if_neg (by omega)]
  cases hclass : classOf b.toNat with
  | none => exact ⟨jc, rfl, rfl, rfl⟩
  | some k =>
    rw [hclass] at hcell
    obtain ⟨buffer, hadd, -⟩ := addChar_outside (h.unescaped hstate) h.holds.1.1 b.toNat k
    simp only [hadd, proceed_andThen]
    rcases List.mem_pair.1 hcell with hxx | hcb
    · have htable : stateTransitionTable jc.state k = .xx := hxx
      exact ⟨{ jc with parseBuffer := buffer }, by simp only [htable], rfl, rfl⟩
    · have htable : stateTransitionTable jc.state k = .act .cb := hcb
      have hno : ¬ jc.allowComments = true := by simp [h.holds.1.2.1]
      refine ⟨{ jc with parseBuffer := buffer }, ?_, rfl, rfl⟩
      simp only [htable]
      exact if_neg hno

/-- **What a parser that has come to its end** is fed of such texts it refuses, and it stays there. -/
theorem feed_inert (h : Steady jc) (hstate : jc.state = .go ∨ jc.state = .ok) (hends : jc.ends = 0)
    {bs : List UInt8} (hbs : Inert bs) :
    ∃ jc', (Json.feed libc (codes bs) jc).andThen Json.jsonParserDone = refuse jc' ∧
      Stays jc jc' := by
  induction bs generalizing jc with
  | nil =>
    have hdone : Json.jsonParserDone jc = refuse jc := by
      rw [Json.jsonParserDone, if_pos hstate.symm, pop, if_neg]
      intro htop
      rw [Parser.ends, List.count_eq_zero] at hends
      exact hends (List.mem_of_mem_head? htop)
    exact ⟨jc, hdone, rfl, rfl⟩
  | cons b bs ih =>
    have hcons : (Json.feed libc (codes (b :: bs)) jc).andThen Json.jsonParserDone =
        (Json.jsonParserChar libc b.toNat jc).andThen fun jc =>
          (Json.feed libc (codes bs) jc).andThen Json.jsonParserDone :=
      Outcome.andThen_assoc ..
    rw [hcons]
    by_cases hb : IsBlank b
    · have hsteady := h.jsonParserChar libc b.toNat
      obtain ⟨jc₁, hfirst, hsame⟩ := char_blank libc h hstate hb
      replace hsteady : Steady jc₁ := by
        rw [hfirst] at hsteady
        exact hsteady
      have hrest : Inert bs := by
        rw [Inert, List.dropWhile_cons_of_pos (by simpa using hb)] at hbs
        exact hbs
      have hends₁ : jc₁.ends = 0 := (congrArg (List.count Modes.done) hsame.stack).trans hends
      obtain ⟨jc', hread, hlast⟩ := ih hsteady (hsame.state.symm ▸ hstate) hends₁ hrest
      rw [hfirst, proceed_andThen]
      exact ⟨jc', hread, hlast.state.trans hsame.state, hlast.stack.trans hsame.stack⟩
    · rw [Inert, List.dropWhile_cons_of_neg (by simpa using hb)] at hbs
      obtain ⟨jc', hchar, hsame⟩ := char_inert libc h hstate hb (hbs b rfl)
      rw [hchar, refuse_andThen]
      exact ⟨jc', rfl, hsame⟩

end Calls

end Ape.Json

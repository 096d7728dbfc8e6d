import ApeServer.Json.Read

/-!
# What the parser does not look at

A character from `0x80` on has the class of a character without a meaning, and so has `#`.  A parser
that is given `#` for it holds another string in its buffer, and in the buffer nothing but the digits of
an escape is looked at, which have classes of their own.

* `plain` — a character, with `#` for one from `0x80` on;
* `Calm`, `Twin` — two parsers that differ only in their buffers, where nothing is looked at;
* `Both` — two calls that return the same and leave such parsers;
* `both_jsonParserChar` — **one character**;
* `feed_plain` — **the texts a parser takes** are those it takes with `#` in them.
-/

namespace Ape.Json

/-! ## Characters and states -/

/-- A character that is not negative, with `#` for one from `0x80` on. -/
def plain (c : Int) : Int := if 128 ≤ c then 35 else c

theorem classOf_plain (c : Int) : classOf (plain c) = classOf c := by
  unfold plain
  split
  case isTrue hc =>
    rw [classOf, classOf, if_pos hc]
    rfl
  case isFalse => rfl

/-- A class of its own have only characters below `0x80`. -/
theorem plain_of_class {c : Int} {k : Classes} (hclass : classOf c = some k) (hk : k ≠ .etc) :
    plain c = c := by
  refine if_neg ?_
  intro hc
  rw [classOf, if_pos hc] at hclass
  exact hk (Option.some.inj hclass).symm

/-- The digits of an escape that have been read. -/
def States.digits : States → Nat
  | .u2 => 1
  | .u3 => 2
  | .u4 => 3
  | _ => 0

/-- The class of a digit of an escape: it is not that of `#`, nor is it white space. -/
def Classes.Marked (k : Classes) : Prop := k ≠ .etc ∧ k ≠ .space ∧ k ≠ .white

/-- What a cell of the table says about digits: one more has been read, or none are kept; and they are
decoded behind three of them and one more. -/
def cellOk (s : States) (n : Nat) : Cell → Bool
  | .xx => true
  | .goto s' => s'.digits == 0 || (s'.digits == s.digits + 1 && s != .es && n != 30 && 2 ≤ n)
  | .act .uc => s.digits == 3 && s != .es && n != 30 && 2 ≤ n
  | .act _ => true

theorem cellOk_table (s : States) (k : Classes) :
    cellOk s k.ctorIdx (stateTransitionTable s k) = true := by
  have hlt : k.ctorIdx < 32 := by cases k <;> decide
  have hall : ∀ n < 32, cellOk s n ((tableRow s).getD n .xx) = true := by
    cases s <;> decide
  exact hall k.ctorIdx hlt

theorem marked_of_ctorIdx {k : Classes} (hetc : k.ctorIdx ≠ 30) (hblank : 2 ≤ k.ctorIdx) :
    k.Marked := by
  refine ⟨?_, ?_, ?_⟩
  · rintro rfl
    exact hetc rfl
  · rintro rfl
    exact absurd hblank (by decide)
  · rintro rfl
    exact absurd hblank (by decide)

theorem goto_digits {s s' : States} {k : Classes} (h : stateTransitionTable s k = .goto s') :
    s'.digits = 0 ∨ (s'.digits = s.digits + 1 ∧ s ≠ .es ∧ k.Marked) := by
  have hcell := cellOk_table s k
  rw [h] at hcell
  simp only [cellOk, Bool.or_eq_true, Bool.and_eq_true, beq_iff_eq, bne_iff_ne, decide_eq_true_eq]
    at hcell
  rcases hcell with hzero | ⟨⟨⟨hone, hes⟩, hetc⟩, hblank⟩
  · exact .inl hzero
  · exact .inr ⟨hone, hes, marked_of_ctorIdx hetc hblank⟩

theorem decode_digits {s : States} {k : Classes} (h : stateTransitionTable s k = .act .uc) :
    s.digits = 3 ∧ s ≠ .es ∧ k.Marked := by
  have hcell := cellOk_table s k
  rw [h] at hcell
  simp only [cellOk, Bool.and_eq_true, beq_iff_eq, bne_iff_ne, decide_eq_true_eq] at hcell
  obtain ⟨⟨⟨hthree, hes⟩, hetc⟩, hblank⟩ := hcell
  exact ⟨hthree, hes, marked_of_ctorIdx hetc hblank⟩

/-! ## Two parsers -/

/-- The last `n` bytes of a buffer. -/
def lastBytes (n : Nat) (buffer : List UInt8) : List UInt8 := buffer.drop (buffer.length - n)

theorem lastBytes_zero (buffer : List UInt8) : lastBytes 0 buffer = [] := by
  simp [lastBytes]

theorem lastBytes_push (n : Nat) (buffer : List UInt8) (c : UInt8) :
    lastBytes (n + 1) (buffer ++ [c]) = lastBytes n buffer ++ [c] := by
  have hstart : (buffer ++ [c]).length - (n + 1) = buffer.length - n := by
    rw [List.length_append, List.length_singleton]
    omega
  rw [lastBytes, lastBytes, hstart, List.drop_append_of_le_length (Nat.sub_le ..)]

/-- Parsers that differ in buffers of one length only, in no comment and behind no backslash. -/
def Calm (jc jc' : Parser) : Prop :=
  ∃ buffer, jc' = { jc with parseBuffer := buffer } ∧ buffer.length = jc.parseBuffer.length ∧
    jc.comment = false ∧ jc.allowComments = false ∧ jc.beforeCommentState = .go ∧
    jc.escaped = false

/-- Parsers between two characters: they may be behind a backslash, and the digits of an escape are the
same in both. -/
def Twin (jc jc' : Parser) : Prop :=
  ∃ buffer, jc' = { jc with parseBuffer := buffer } ∧ buffer.length = jc.parseBuffer.length ∧
    jc.comment = false ∧ jc.allowComments = false ∧ jc.beforeCommentState = .go ∧
    (jc.escaped = true → jc.state = .es) ∧
    lastBytes jc.state.digits buffer = lastBytes jc.state.digits jc.parseBuffer

/-- Two calls that return the same, and if that is `true` leave parsers that are related. -/
def Both (R : Parser → Parser → Prop) (o o' : Outcome) : Prop :=
  o'.ok = o.ok ∧ (o.ok = true → R o.parser o'.parser)

section Calls

variable {R S : Parser → Parser → Prop} {jc jc' : Parser} {o o' : Outcome}

theorem Both.andThen {f f' : Parser → Outcome} (h : Both R o o')
    (hf : ∀ jc jc', R jc jc' → Both S (f jc) (f' jc')) : Both S (o.andThen f) (o'.andThen f') := by
  obtain ⟨hok, hparser⟩ := h
  unfold Outcome.andThen
  rw [hok]
  split
  case isTrue htrue => exact hf _ _ (hparser htrue)
  case isFalse hfalse => exact ⟨hok, fun htrue => absurd htrue hfalse⟩

theorem both_refuse : Both R (refuse jc) (refuse jc') := ⟨rfl, fun h => absurd h Bool.false_ne_true⟩

theorem both_abort : Both R (abort jc) (abort jc') := ⟨rfl, fun h => absurd h Bool.false_ne_true⟩

theorem both_proceed (h : R jc jc') : Both R (proceed jc) (proceed jc') := ⟨rfl, fun _ => h⟩

theorem both_emit {e e' : Event} (h : R jc jc') : Both R (emit e jc) (emit e' jc') :=
  ⟨rfl, fun _ => h⟩

theorem both_push {mode : Modes} (h : Calm jc jc') : Both Calm (push mode jc) (push mode jc') := by
  obtain ⟨buffer, rfl, hrest⟩ := h
  unfold push
  split_ifs
  · exact both_refuse
  · exact both_proceed ⟨buffer, rfl, hrest⟩

theorem both_pop {mode : Modes} (h : Calm jc jc') : Both Calm (pop mode jc) (pop mode jc') := by
  obtain ⟨buffer, rfl, hrest⟩ := h
  unfold pop
  split_ifs
  · exact both_proceed ⟨buffer, rfl, hrest⟩
  · exact both_refuse

theorem Calm.bufferClear (h : Calm jc jc') : Calm jc.bufferClear jc'.bufferClear := by
  obtain ⟨buffer, rfl, -, hrest⟩ := h
  exact ⟨[], rfl, rfl, hrest⟩

theorem Calm.bufferPop (h : Calm jc jc') : Calm jc.bufferPop jc'.bufferPop := by
  obtain ⟨buffer, rfl, hlength, hrest⟩ := h
  refine ⟨buffer.dropLast, rfl, ?_, hrest⟩
  rw [List.length_dropLast, hlength]
  exact (List.length_dropLast ..).symm

theorem Calm.bufferPush (h : Calm jc jc') (c c' : UInt8) :
    Calm (jc.bufferPush c) (jc'.bufferPush c') := by
  obtain ⟨buffer, rfl, hlength, hrest⟩ := h
  refine ⟨buffer ++ [c'], rfl, ?_, hrest⟩
  simp [Parser.bufferPush, hlength]

/-- Two calm parsers stay calm in another state with another type. -/
theorem Calm.move (h : Calm jc jc') (type : JsonType) (state : States) :
    Calm { jc with type, state } { jc' with type, state } := by
  obtain ⟨buffer, rfl, hrest⟩ := h
  exact ⟨buffer, rfl, hrest⟩

theorem Calm.state (h : Calm jc jc') (state : States) :
    Calm { jc with state } { jc' with state } := by
  obtain ⟨buffer, rfl, hrest⟩ := h
  exact ⟨buffer, rfl, hrest⟩

/-- In a state without digits two parsers are ready for the next character. -/
theorem Calm.twin (h : Calm jc jc') (hdigits : jc.state.digits = 0) : Twin jc jc' := by
  obtain ⟨buffer, rfl, hlength, hcomment, hrefused, hbefore, hescaped⟩ := h
  refine ⟨buffer, rfl, hlength, hcomment, hrefused, hbefore, ?_, ?_⟩
  · rw [hescaped]
    exact fun h => absurd h Bool.false_ne_true
  · rw [hdigits, lastBytes_zero, lastBytes_zero]

theorem Calm.top (h : Calm jc jc') : jc'.stack.head? = jc.stack.head? := by
  obtain ⟨buffer, rfl, -⟩ := h
  rfl

variable (libc : Libc)

theorem both_parseParseBuffer (h : Calm jc jc') :
    Both Calm (parseParseBuffer libc jc) (parseParseBuffer libc jc') := by
  refine Both.andThen (R := Calm) ?_ fun jc jc' h => both_proceed h.bufferClear
  cases jc.scalar libc <;> cases jc'.scalar libc <;> exact ⟨rfl, fun _ => h⟩

/-! ## Actions -/

theorem both_stringEnd (h : Calm jc jc') : Both Twin (stringEnd libc jc) (stringEnd libc jc') := by
  have hpop := h.bufferPop
  unfold stringEnd
  dsimp only
  rw [hpop.top]
  split
  · refine Both.andThen (R := fun jc jc' => Calm jc jc' ∧ jc.state.digits = 0)
      (both_emit ⟨hpop.move _ _, rfl⟩) ?_
    rintro jc jc' ⟨h, hdigits⟩
    exact both_proceed (h.bufferClear.twin hdigits)
  · refine Both.andThen (both_parseParseBuffer libc hpop) fun jc jc' h => ?_
    exact both_proceed ((h.move _ _).twin rfl)
  · refine Both.andThen (both_parseParseBuffer libc hpop) fun jc jc' h => ?_
    exact both_proceed ((h.move _ _).twin rfl)
  · exact both_refuse
  · exact both_abort

theorem both_nextMember (h : Calm jc jc') : Both Twin (nextMember jc) (nextMember jc') := by
  unfold nextMember
  rw [h.top]
  split
  · refine Both.andThen (both_pop h) fun jc jc' h => ?_
    refine Both.andThen (both_push h) fun jc jc' h => ?_
    exact both_proceed ((h.move _ _).twin rfl)
  · exact both_proceed ((h.move _ _).twin rfl)
  · exact both_refuse
  · exact both_abort

theorem both_closing (kind : Kind) (mode : Modes) (h : Calm jc jc') :
    Both Twin (closing libc kind mode jc) (closing libc kind mode jc') := by
  refine Both.andThen (both_parseParseBuffer libc h.bufferPop) fun jc jc' h => ?_
  refine Both.andThen (R := Calm) (both_emit h) fun jc jc' h => ?_
  refine Both.andThen (both_pop h) fun jc jc' h => ?_
  exact both_proceed ((h.move _ _).twin rfl)

theorem both_opening (kind : Kind) (mode : Modes) {state : States} (hstate : state.digits = 0)
    (h : Calm jc jc') : Both Twin (opening kind mode state jc) (opening kind mode state jc') := by
  refine Both.andThen (R := Calm) (both_emit h.bufferPop) fun jc jc' h => ?_
  refine Both.andThen (both_push h) fun jc jc' h => ?_
  exact both_proceed ((h.state state).twin hstate)

theorem both_colon (h : Calm jc jc') : Both Twin (colon jc) (colon jc') := by
  refine Both.andThen (both_pop h.bufferPop) fun jc jc' h => ?_
  refine Both.andThen (both_push h) fun jc jc' h => ?_
  exact both_proceed ((h.state .va).twin rfl)

theorem both_closingEmpty (h : Calm jc jc') : Both Twin (closingEmpty jc) (closingEmpty jc') := by
  refine Both.andThen (R := Calm) (both_emit h.bufferClear) fun jc jc' h => ?_
  refine Both.andThen (both_pop h) fun jc jc' h => ?_
  exact both_proceed ((h.state .ok).twin rfl)

theorem both_commentBegin (h : Calm jc jc') :
    Both Twin (commentBegin libc jc) (commentBegin libc jc') := by
  obtain ⟨buffer, rfl, -, -, hrefused, -⟩ := h
  have hno : ¬ (jc.allowComments = true) := by simp [hrefused]
  unfold commentBegin
  rw [if_neg hno, if_neg hno]
  exact both_refuse

/-- Every action but the decoding of an escape. -/
theorem both_act {action : Actions} (haction : action ≠ .uc) (h : Calm jc jc') :
    Both Twin (act libc action jc) (act libc action jc') := by
  cases action with
  | uc => exact absurd rfl haction
  | ex =>
    obtain ⟨buffer, rfl, hlength, hcomment, hrefused, hbefore, -⟩ := h
    refine both_proceed ⟨buffer, rfl, hlength, hcomment, hrefused, hbefore, fun _ => rfl, ?_⟩
    exact (lastBytes_zero _).trans (lastBytes_zero _).symm
  | df => exact both_proceed (((h.bufferPop.bufferPush _ _).move _ _).twin rfl)
  | sb => exact both_proceed ((h.bufferClear.move _ _).twin rfl)
  | ce =>
    obtain ⟨buffer, rfl, hlength, -, hrefused, hbefore, hescaped⟩ := h
    have hcalm : Calm { jc with comment := false, state := jc.beforeCommentState }
        { jc with comment := false, state := jc.beforeCommentState, parseBuffer := buffer } :=
      ⟨buffer, rfl, hlength, rfl, hrefused, hbefore, hescaped⟩
    refine both_proceed (hcalm.twin ?_)
    rw [hbefore]
    rfl
  | cb => exact both_commentBegin libc h
  | m9 => exact both_closingEmpty h
  | m8 => exact both_closing libc _ _ h
  | m7 => exact both_closing libc _ _ h
  | m6 => exact both_opening _ _ rfl h
  | m5 => exact both_opening _ _ rfl h
  | m4 => exact both_stringEnd libc h
  | m3 => exact (both_parseParseBuffer libc h.bufferPop).andThen fun jc jc' h => both_nextMember h
  | m2 => exact both_colon h
  | mx => exact both_proceed ((h.move _ _).twin rfl)
  | zx => exact both_proceed ((h.move _ _).twin rfl)
  | ix => exact both_proceed ((h.move _ _).twin rfl)
  | de => exact both_proceed ((h.move _ _).twin rfl)
  | nu => exact both_proceed ((h.move _ _).twin rfl)
  | fa => exact both_proceed ((h.move _ _).twin rfl)
  | tr => exact both_proceed ((h.move _ _).twin rfl)

/-- The decoding of an escape, whose digits are the same in both. -/
theorem both_decodeUnicodeChar (h : Calm jc jc')
    (hdigits : lastBytes 4 jc'.parseBuffer = lastBytes 4 jc.parseBuffer) :
    Both Calm (decodeUnicodeChar jc) (decodeUnicodeChar jc') := by
  obtain ⟨buffer, rfl, hlength, hrest⟩ := h
  have hsame : Parser.digits { jc with parseBuffer := buffer } = jc.digits := hdigits
  have hdecodable : Parser.Decodable { jc with parseBuffer := buffer } ↔ jc.Decodable := by
    unfold Parser.Decodable
    rw [hsame, hlength]
  have hshort : (buffer.take (buffer.length - 6)).length =
      (jc.parseBuffer.take (jc.parseBuffer.length - 6)).length := by
    rw [List.length_take, List.length_take, hlength]
  unfold decodeUnicodeChar decodeDigits
  simp only [hsame, hdecodable]
  split_ifs <;>
    first
      | exact both_refuse
      | exact both_abort
      | exact both_proceed ⟨_, rfl, by simp only [List.length_append, hshort], hrest⟩

/-! ## One character -/

/-- What a character leaves in the buffers: they are still alike, and a digit of an escape is the same
in both. -/
def Taken (s : States) (k : Classes) (jc jc' : Parser) : Prop :=
  Calm jc jc' ∧ jc.state = s ∧ (s ≠ .es → k.Marked →
    lastBytes (s.digits + 1) jc'.parseBuffer = lastBytes (s.digits + 1) jc.parseBuffer)

theorem unescape_high {c : Int} (hc : 128 ≤ c) : unescape c = none := by
  unfold unescape
  split_ifs <;> first | omega | rfl

/-- A character behind a backslash and its mark are taken alike. -/
theorem both_addEscapedChar {c : Int} {k : Classes} (h : Twin jc jc') (hescaped : jc.escaped = true) :
    Both (Taken jc.state k) (addEscapedChar c jc) (addEscapedChar (plain c) jc') := by
  obtain ⟨buffer, rfl, hlength, hcomment, hrefused, hbefore, hstate, -⟩ := h
  have hes : jc.state = .es := hstate hescaped
  have hpop : Calm { jc with escaped := false }.bufferPop
      { jc with escaped := false, parseBuffer := buffer }.bufferPop :=
    Calm.bufferPop ⟨buffer, rfl, hlength, hcomment, hrefused, hbefore, rfl⟩
  have htaken : ∀ {p p' : Parser}, Calm p p' → p.state = jc.state → Taken jc.state k p p' :=
    fun hcalm hsame => ⟨hcalm, hsame, fun hne => absurd hes hne⟩
  have hu : plain c = 117 ↔ c = 117 := by
    unfold plain
    split <;> omega
  unfold addEscapedChar
  simp only [hu]
  split
  case isTrue => exact both_proceed (htaken ((hpop.bufferPush _ _).bufferPush _ _) rfl)
  case isFalse =>
    by_cases hc : 128 ≤ c
    · have hplain : plain c = 35 := if_pos hc
      rw [unescape_high hc, hplain]
      exact both_refuse
    · have hplain : plain c = c := if_neg hc
      rw [hplain]
      cases unescape c with
      | none => exact both_refuse
      | some b => exact both_proceed (htaken (hpop.bufferPush _ _) rfl)

/-- In no comment and behind no backslash. -/
theorem addChar_calm {jc : Parser} (hescaped : jc.escaped = false) (hcomment : jc.comment = false)
    (c : Int) (k : Classes) :
    addChar c k jc = if jc.type ≠ .none ∨ ¬ (k = .space ∨ k = .white) then
      proceed (jc.bufferPush (toByte c)) else proceed jc := by
  unfold addChar
  rw [hescaped, hcomment, if_neg Bool.false_ne_true, if_neg Bool.false_ne_true]

/-- A character that is put into the buffer, or not. -/
theorem both_addChar {c : Int} {k : Classes} (hclass : classOf c = some k) (h : Twin jc jc') :
    Both (Taken jc.state k) (addChar c k jc) (addChar (plain c) k jc') := by
  by_cases hescaped : jc.escaped = true
  · have hescaped' : jc'.escaped = true := by
      obtain ⟨buffer, rfl, -⟩ := h
      exact hescaped
    rw [addChar, addChar, if_pos hescaped, if_pos hescaped']
    exact both_addEscapedChar h hescaped
  · obtain ⟨buffer, rfl, hlength, hcomment, hrefused, hbefore, -, hdigits⟩ := h
    have hfalse : jc.escaped = false := by simpa using hescaped
    have hcalm : Calm jc { jc with parseBuffer := buffer } :=
      ⟨buffer, rfl, hlength, hcomment, hrefused, hbefore, hfalse⟩
    have hother := @addChar_calm { jc with parseBuffer := buffer } hfalse hcomment (plain c) k
    rw [addChar_calm hfalse hcomment, hother]
    dsimp only
    split
    case isTrue =>
      refine both_proceed ⟨hcalm.bufferPush _ _, rfl, ?_⟩
      intro _ hk
      rw [plain_of_class hclass hk.1]
      change lastBytes _ (buffer ++ [toByte c]) = lastBytes _ (jc.parseBuffer ++ [toByte c])
      rw [lastBytes_push, lastBytes_push, hdigits]
    case isFalse hblank =>
      refine both_proceed ⟨hcalm, rfl, ?_⟩
      intro _ hk
      exact absurd (.inr fun hwhite => hwhite.elim hk.2.1 hk.2.2) hblank

/-- **One character**, or `#` for it. -/
theorem both_jsonParserChar (c : Int) (h : Twin jc jc') :
    Both Twin (jsonParserChar libc c jc) (jsonParserChar libc (plain c) jc') := by
  unfold jsonParserChar
  have hneg : plain c < 0 ↔ c < 0 := by
    unfold plain
    split <;> omega
  simp only [hneg, classOf_plain]
  split
  case isTrue => exact both_refuse
  case isFalse =>
    cases hclass : classOf c with
    | none => exact both_refuse
    | some k =>
      refine Both.andThen (both_addChar hclass h) ?_
      rintro p p' ⟨hcalm, hstate, hdigits⟩
      have hstate' : p'.state = p.state := by
        obtain ⟨buffer, rfl, -⟩ := hcalm
        rfl
      rw [hstate']
      cases hcell : stateTransitionTable p.state k with
      | xx => exact both_refuse
      | goto state =>
        rcases goto_digits hcell with hzero | ⟨hone, hes, hk⟩
        · exact both_proceed ((hcalm.state state).twin hzero)
        · have hlast := hdigits (hstate ▸ hes) hk
          rw [← hstate, ← hone] at hlast
          obtain ⟨buffer, rfl, hlength, hcomment, hrefused, hbefore, hescaped⟩ := hcalm
          refine both_proceed ⟨buffer, rfl, hlength, hcomment, hrefused, hbefore, ?_, hlast⟩
          intro htrue
          exact absurd (hescaped.symm.trans htrue) Bool.false_ne_true
      | act action =>
        by_cases haction : action = .uc
        · subst haction
          obtain ⟨hthree, hes, hk⟩ := decode_digits hcell
          have hlast := hdigits (hstate ▸ hes) hk
          rw [← hstate, hthree] at hlast
          refine Both.andThen (both_decodeUnicodeChar hcalm hlast) fun q q' hq => ?_
          obtain ⟨buffer, rfl, hrest⟩ := hq
          refine both_proceed (Calm.twin ⟨buffer, rfl, hrest⟩ ?_)
          dsimp only
          split <;> rfl
        · exact both_act libc haction hcalm

/-! ## Texts -/

theorem both_feed (cs : List Int) (h : Twin jc jc') :
    Both Twin (feed libc cs jc) (feed libc (cs.map plain) jc') := by
  induction cs generalizing jc jc' with
  | nil => exact both_proceed h
  | cons c cs ih =>
    exact Both.andThen (both_jsonParserChar libc c h) fun p p' hp => ih hp

/-- **The texts a parser takes** are those it takes with `#` for every character from `0x80` on. -/
theorem feed_plain (callback : Bool) (depth : Int) (cs : List Int) :
    ((feed libc (cs.map plain) (newParser callback depth false)).andThen jsonParserDone).ok =
      ((feed libc cs (newParser callback depth false)).andThen jsonParserDone).ok := by
  have hstart : Twin (newParser callback depth false) (newParser callback depth false) :=
    ⟨_, rfl, rfl, rfl, rfl, rfl, fun h => absurd h Bool.false_ne_true, rfl⟩
  refine (Both.andThen (S := fun _ _ => True) (both_feed libc cs hstart) ?_).1
  rintro p p' ⟨buffer, rfl, -⟩
  unfold jsonParserDone pop
  split_ifs
  · exact both_proceed trivial
  · exact both_refuse
  · exact both_refuse

end Calls

end Ape.Json

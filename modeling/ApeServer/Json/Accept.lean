import ApeServer.Json.Escape
import ApeServer.Json.Grammar

/-!
# Texts the parser takes to their end

A text is taken from some state of the parser on if every character is taken and the text may end
there.  One character at a time, this is a statement about the rest of the text; the lemmas here say
for each token which statement.

* `Finishes` — the text is taken to its end, and these events are told;
* `finishes_opens`, `finishes_closes`, `finishes_comma`, … — one character;
* `finishes_stop` — **a number or a literal is told when the next token begins**.
-/

namespace Ape.Json

section Texts

variable (libc : Libc)

/-- A call and the rest of a text are taken. -/
def Outcome.Leads (o : Outcome) (t : List UInt8) (es : List Event) : Prop :=
  ((o.andThen (feed libc (codes t))).andThen jsonParserDone).ok = true ∧
    ((o.andThen (feed libc (codes t))).andThen jsonParserDone).events = es

/-- **The text is taken to its end**, and these events are told. -/
def Finishes (jc : Parser) (t : List UInt8) (es : List Event) : Prop :=
  (proceed jc).Leads libc t es

variable {libc} {jc jc' : Parser} {c : UInt8} {t : List UInt8} {es es' : List Event}

/-- What two calls in a row tell is what the first tells and then the second. -/
theorem Outcome.leads_andThen {f : Parser → Outcome} :
    (Outcome.andThen ⟨true, jc, es', false⟩ f).Leads libc t es ↔
      ∃ es₁, es = es' ++ es₁ ∧ (f jc).Leads libc t es₁ := by
  unfold Outcome.Leads
  rw [Outcome.andThen_assoc, Outcome.andThen_assoc, Outcome.andThen_mk, Outcome.andThen_assoc]
  constructor
  · rintro ⟨hok, rfl⟩
    exact ⟨_, rfl, hok, rfl⟩
  · rintro ⟨es₁, rfl, hok, rfl⟩
    exact ⟨hok, rfl⟩

/-- Behind a call that has been made. -/
theorem Outcome.leads_mk :
    Outcome.Leads libc ⟨true, jc, es', false⟩ t es ↔ ∃ es₁, es = es' ++ es₁ ∧ Finishes libc jc t es₁ := by
  have hcall : Outcome.andThen ⟨true, jc, es', false⟩ proceed = ⟨true, jc, es', false⟩ := by
    rw [Outcome.andThen_mk, proceed, List.append_nil]
  rw [← hcall]
  exact Outcome.leads_andThen

theorem Outcome.leads_proceed : (proceed jc).Leads libc t es ↔ Finishes libc jc t es := Iff.rfl

/-- No call follows one that refuses. -/
theorem Outcome.andThen_refused {o : Outcome} (h : o.ok = false) (f : Parser → Outcome) :
    o.andThen f = o := if_neg (by simp [h])

/-- Nothing is taken behind a call that refuses. -/
theorem Outcome.not_leads {o : Outcome} (h : o.ok = false) : ¬ o.Leads libc t es := by
  rintro ⟨hok, -⟩
  rw [Outcome.andThen_refused h, Outcome.andThen_refused h, h] at hok
  exact Bool.noConfusion hok

/-- A text is taken if its first character is and the rest is taken behind it. -/
theorem finishes_cons :
    Finishes libc jc (c :: t) es ↔ (jsonParserChar libc c.toNat jc).Leads libc t es := by
  unfold Finishes Outcome.Leads
  rw [proceed, Outcome.andThen_assoc, Outcome.andThen_mk, Outcome.andThen_assoc]
  simp only [List.nil_append]
  rw [← Outcome.andThen_assoc]
  exact Iff.rfl

/-- Behind a text that is read. -/
theorem Reads.finishes {a : List UInt8} (h : Reads libc jc a jc' es') :
    Finishes libc jc (a ++ t) es ↔ ∃ es₁, es = es' ++ es₁ ∧ Finishes libc jc' t es₁ := by
  have hfeed : (proceed jc).andThen (feed libc (codes (a ++ t))) =
      (feed libc (codes a) jc).andThen (feed libc (codes t)) := by
    rw [proceed, Outcome.andThen_mk, List.nil_append, codes, List.map_append, feed_append]
    rfl
  rw [← Outcome.leads_mk, ← h.2]
  unfold Finishes Outcome.Leads
  rw [hfeed]

end Texts

/-! ## One character -/

/-- What the table says of a character. -/
def cellAt (state : States) (c : UInt8) : Cell :=
  ((classOf c.toNat).map (stateTransitionTable state)).getD .xx

/-- What the parser does at an entry of the table. -/
def atCell (libc : Libc) (jc : Parser) : Cell → Outcome
  | .goto state => proceed { jc with state }
  | .act action => act libc action jc
  | .xx => refuse jc

/-- The buffer behind a character: blanks between tokens are not kept. -/
def kept (type : JsonType) (buffer : List UInt8) (c : UInt8) : List UInt8 :=
  if type = .none ∧ IsBlank c then buffer else buffer ++ [c]

section Characters

variable {libc : Libc} {state : States} {type : JsonType} {stack : List Modes}
  {buffer : List UInt8} {c : UInt8} {t : List UInt8} {es : List Event}

/-- The two classes of white space are those of the blanks. -/
theorem classOf_blank {k : Classes} (hk : classOf c.toNat = some k) :
    (k = .space ∨ k = .white) ↔ IsBlank c := by
  have hall : ∀ c : UInt8, (classOf c.toNat = some .space ∨ classOf c.toNat = some .white) ↔
      IsBlank c := CString.forall_byte (by decide) (by decide)
  rw [← hall c, hk, Option.some_inj, Option.some_inj]

/-- Outside of escapes and comments the parser only looks at the table. -/
theorem jsonParserChar_kept {jc : Parser} {k : Classes} (hescaped : jc.escaped = false)
    (hcomment : jc.comment = false) (hk : classOf c.toNat = some k) :
    jsonParserChar libc c.toNat jc =
      atCell libc { jc with parseBuffer := kept jc.type jc.parseBuffer c }
        (stateTransitionTable jc.state k) := by
  have hbyte : ∀ c : UInt8, toByte c.toNat = c := CString.forall_byte (by decide) (by decide)
  have hneg : ¬ (c.toNat : Int) < 0 := by omega
  have hcase : (jc.type ≠ .none ∨ ¬ (k = .space ∨ k = .white)) ↔
      ¬ (jc.type = .none ∧ IsBlank c) := by
    rw [classOf_blank hk, not_and_or]
  have hadd : addChar c.toNat k jc =
      proceed { jc with parseBuffer := kept jc.type jc.parseBuffer c } := by
    rw [addChar, if_neg (by simp [hescaped]), if_neg (by simp [hcomment]), hbyte, kept]
    simp only [hcase]
    split_ifs <;> rfl
  rw [jsonParserChar, if_neg hneg, hk]
  simp only [hadd, proceed, Outcome.andThen_mk]
  cases stateTransitionTable jc.state k <;> rfl

/-- The class of a character that is not refused at once. -/
theorem cellAt_class {cell : Cell} (h : cellAt state c = cell) (hcell : cell ≠ .xx) :
    ∃ k, classOf c.toNat = some k ∧ stateTransitionTable state k = cell := by
  unfold cellAt at h
  cases hk : classOf c.toNat with
  | none =>
    rw [hk] at h
    exact absurd h.symm hcell
  | some k =>
    rw [hk] at h
    exact ⟨k, rfl, h⟩

/-- **One character** is taken as its cell of the table says. -/
theorem finishes_step {jc : Parser} (hescaped : jc.escaped = false) (hcomment : jc.comment = false) :
    Finishes libc jc (c :: t) es ↔
      (atCell libc { jc with parseBuffer := kept jc.type jc.parseBuffer c }
        (cellAt jc.state c)).Leads libc t es := by
  rw [finishes_cons]
  cases hk : classOf c.toNat with
  | none =>
    have hneg : ¬ (c.toNat : Int) < 0 := by omega
    have hcell : cellAt jc.state c = .xx := by rw [cellAt, hk, Option.map_none, Option.getD_none]
    rw [jsonParserChar, if_neg hneg, hk, hcell]
    exact iff_of_false (Outcome.not_leads rfl) (Outcome.not_leads rfl)
  | some k =>
    have hcell : cellAt jc.state c = stateTransitionTable jc.state k := by
      rw [cellAt, hk, Option.map_some, Option.getD_some]
    rw [jsonParserChar_kept hescaped hcomment hk, hcell]

/-- A character that moves to a state. -/
theorem finishes_goto {state' : States} (h : cellAt state c = .goto state') :
    Finishes libc (reading state type stack buffer) (c :: t) es ↔
      Finishes libc (reading state' type stack (kept type buffer c)) t es := by
  have hcell : cellAt (reading state type stack buffer).state c = .goto state' := h
  rw [finishes_step rfl rfl, hcell]
  exact Outcome.leads_proceed

/-- A character that makes the parser act. -/
theorem finishes_act {action : Actions} (h : cellAt state c = .act action) :
    Finishes libc (reading state type stack buffer) (c :: t) es ↔
      (act libc action (reading state type stack (kept type buffer c))).Leads libc t es := by
  have hcell : cellAt (reading state type stack buffer).state c = .act action := h
  rw [finishes_step rfl rfl, hcell]
  exact Iff.rfl

/-- A character that is refused. -/
theorem not_finishes_xx {jc : Parser} (hescaped : jc.escaped = false) (hcomment : jc.comment = false)
    (h : cellAt jc.state c = .xx) : ¬ Finishes libc jc (c :: t) es := by
  rw [finishes_step hescaped hcomment, h]
  exact Outcome.not_leads rfl

/-- The beginning of a comment is refused. -/
theorem not_finishes_cb (h : cellAt state c = .act .cb) :
    ¬ Finishes libc (reading state type stack buffer) (c :: t) es := by
  rw [finishes_act h]
  exact Outcome.not_leads rfl

/-- A text ends behind a document only, or in front of one. -/
theorem finishes_nil {jc : Parser} : Finishes libc jc [] es ↔
    (jc.state = .ok ∨ jc.state = .go) ∧ jc.stack.head? = some .done ∧ es = [] := by
  have hdone : ((proceed jc).andThen (feed libc (codes []))).andThen jsonParserDone =
      jsonParserDone jc := rfl
  unfold Finishes Outcome.Leads
  rw [hdone, jsonParserDone, pop]
  split_ifs with hstates hhead
  · exact ⟨fun h => ⟨hstates, hhead, h.2.symm⟩, fun h => ⟨rfl, h.2.2.symm⟩⟩
  · exact iff_of_false (fun h => Bool.noConfusion h.1) fun h => hhead h.2.1
  · exact iff_of_false (fun h => Bool.noConfusion h.1) fun h => hstates h.1

end Characters

/-! ## Brackets, commas and colons -/

section Punctuation

variable {libc : Libc} {state : States} {type : JsonType} {kind : Kind} {stack : List Modes}
  {buffer : List UInt8} {c : UInt8} {t : List UInt8} {es : List Event}

/-- The state in a container that has just been opened. -/
def Kind.inner : Kind → States
  | .object => .ob
  | .array => .ar

/-- The state in front of a member that is not the first. -/
def Kind.further : Kind → States
  | .object => .ke
  | .array => .va

theorem kept_solid (h : ¬ IsBlank c) : kept type buffer c = buffer ++ [c] :=
  if_neg fun hboth => h hboth.2

theorem kept_typed (h : type ≠ .none) : kept type buffer c = buffer ++ [c] :=
  if_neg fun hboth => h hboth.1

theorem kept_blank (h : IsBlank c) : kept .none buffer c = buffer := if_pos ⟨rfl, h⟩

/-- `push` refuses at the limit only. -/
theorem leads_push {mode : Modes} {f : Parser → Outcome} :
    ((push mode (reading state type stack buffer)).andThen f).Leads libc t es ↔
      stack.length ≠ 16 ∧ (f (reading state type (mode :: stack) buffer)).Leads libc t es := by
  have hdepth : (reading state type stack buffer).depth = 15 := rfl
  have hstack : (reading state type stack buffer).stack = stack := rfl
  rw [push, hdepth, hstack]
  by_cases hfull : stack.length = 16
  · rw [if_pos (by omega)]
    exact iff_of_false (Outcome.not_leads rfl) fun h => h.1 hfull
  · rw [if_neg (by omega), proceed, Outcome.leads_andThen]
    simp only [List.nil_append, exists_eq_left', hfull, ne_eq, not_false_eq_true, true_and]
    exact Iff.rfl

/-- `pop` goes on with the rest of the stack, if its mode is on top. -/
theorem leads_pop {mode : Modes} {f : Parser → Outcome} :
    ((pop mode (reading state type stack buffer)).andThen f).Leads libc t es ↔
      ∃ stack', stack = mode :: stack' ∧
        (f (reading state type stack' buffer)).Leads libc t es := by
  have hstack : (reading state type stack buffer).stack = stack := rfl
  rw [pop, hstack]
  cases stack with
  | nil => exact iff_of_false (Outcome.not_leads rfl) (by simp)
  | cons top stack =>
    by_cases htop : top = mode
    · subst htop
      rw [if_pos List.head?_cons, proceed, Outcome.leads_andThen]
      simp only [List.nil_append, exists_eq_left', List.cons.injEq, true_and]
      exact Iff.rfl
    · rw [if_neg (by simp [htop])]
      exact iff_of_false (Outcome.not_leads rfl) (by simp [htop])

/-- A call of the callback tells its event and goes on. -/
theorem leads_emit {e : Event} {f : Parser → Outcome} :
    ((emit e (reading state type stack buffer)).andThen f).Leads libc t es ↔
      ∃ es', es = e :: es' ∧ (f (reading state type stack buffer)).Leads libc t es' := by
  have hcallback : (reading state type stack buffer).callback = true := rfl
  rw [emit, hcallback, if_pos rfl, Outcome.leads_andThen]
  rfl

/-- **An opening bracket** tells the beginning of its container, unless the stack is full. -/
theorem finishes_opens (h : state = .go ∨ state = .va ∨ state = .ar) :
    Finishes libc (reading state .none stack buffer) (kind.opens :: t) es ↔ stack.length ≠ 16 ∧
      ∃ es', es = .containerBegin kind :: es' ∧
        Finishes libc (reading kind.inner .none (kind.entryMode :: stack) buffer) t es' := by
  have hblank : ¬ IsBlank kind.opens := by cases kind <;> decide
  have hcell : cellAt state kind.opens = .act (if kind = .object then .m6 else .m5) := by
    rcases h with rfl | rfl | rfl <;> cases kind <;> decide
  have hact : act libc (if kind = .object then .m6 else .m5)
      (reading state .none stack (buffer ++ [kind.opens])) =
        opening kind kind.entryMode kind.inner (reading state .none stack (buffer ++ [kind.opens])) := by
    cases kind <;> rfl
  rw [finishes_act hcell, kept_solid hblank, hact, opening, bufferPop_reading, leads_emit]
  simp only [leads_push]
  constructor
  · rintro ⟨es', rfl, hlen, hrest⟩
    exact ⟨hlen, es', rfl, hrest⟩
  · rintro ⟨hlen, es', rfl, hrest⟩
    exact ⟨es', rfl, hlen, hrest⟩

/-- What a type and a buffer say, as events. -/
def told (libc : Libc) (type : JsonType) (buffer : List UInt8) : List Event :=
  (((reading .ok type [] buffer).scalar libc).map Event.value).toList

/-- `parse_parse_buffer` tells the value at hand and clears the buffer. -/
theorem leads_parse {f : Parser → Outcome} :
    ((parseParseBuffer libc (reading state type stack buffer)).andThen f).Leads libc t es ↔
      ∃ es', es = told libc type buffer ++ es' ∧
        (f (reading state type stack [])).Leads libc t es' := by
  have hparse : parseParseBuffer libc (reading state type stack buffer) =
      ⟨true, reading state type stack [], told libc type buffer, false⟩ :=
    parseParseBuffer_reading state type buffer
  rw [hparse, Outcome.leads_andThen]

/-- A closing bracket behind a member. -/
theorem finishes_closes (h : cellAt state kind.closes = .act (if kind = .object then .m8 else .m7)) :
    Finishes libc (reading state type stack buffer) (kind.closes :: t) es ↔
      ∃ stack' es', stack = kind.mode :: stack' ∧
        es = told libc type buffer ++ .containerEnd kind :: es' ∧
        Finishes libc (reading .ok .none stack' []) t es' := by
  have hblank : ¬ IsBlank kind.closes := by cases kind <;> decide
  have hact : act libc (if kind = .object then .m8 else .m7)
      (reading state type stack (buffer ++ [kind.closes])) =
        closing libc kind kind.mode (reading state type stack (buffer ++ [kind.closes])) := by
    cases kind <;> rfl
  rw [finishes_act h, kept_solid hblank, hact, closing, bufferPop_reading, leads_parse]
  simp only [leads_emit, leads_pop]
  constructor
  · rintro ⟨es', rfl, es'', rfl, stack', rfl, hrest⟩
    exact ⟨stack', es'', rfl, rfl, hrest⟩
  · rintro ⟨stack', es'', rfl, rfl, hrest⟩
    exact ⟨_, rfl, es'', rfl, stack', rfl, hrest⟩

/-- **The bracket that closes an empty container.** -/
theorem finishes_empty : Finishes libc (reading kind.inner .none (kind.entryMode :: stack) [])
    (kind.closes :: t) es ↔
      ∃ es', es = .containerEnd kind :: es' ∧ Finishes libc (reading .ok .none stack []) t es' := by
  cases kind with
  | array =>
    have hcell : cellAt .ar Kind.array.closes =
        .act (if Kind.array = .object then .m8 else .m7) := by decide
    rw [Kind.inner, Kind.entryMode, finishes_closes hcell]
    constructor
    · rintro ⟨stack', es', hstack, rfl, hrest⟩
      obtain ⟨-, rfl⟩ := List.cons.inj hstack
      exact ⟨es', rfl, hrest⟩
    · rintro ⟨es', rfl, hrest⟩
      exact ⟨stack, es', rfl, rfl, hrest⟩
  | object =>
    have hcell : cellAt .ob Kind.object.closes = .act .m9 := by decide
    have hclear : (reading .ob .none (.key :: stack) ([] ++ [Kind.object.closes])).bufferClear =
        reading .ob .none (.key :: stack) [] := rfl
    rw [Kind.inner, Kind.entryMode, finishes_act hcell, kept_solid (by decide), act, closingEmpty, hclear,
      leads_emit]
    simp only [leads_pop]
    constructor
    · rintro ⟨es', rfl, stack', hstack, hrest⟩
      obtain ⟨-, rfl⟩ := List.cons.inj hstack
      exact ⟨es', rfl, hrest⟩
    · rintro ⟨es', rfl, hrest⟩
      exact ⟨es', rfl, stack, rfl, hrest⟩

/-- Behind a comma the next member of the innermost container is expected. -/
theorem leads_nextMember (hlen : stack.length ≤ 16) :
    (nextMember (reading state type stack buffer)).Leads libc t es ↔
      ∃ kind : Kind, ∃ stack', stack = kind.mode :: stack' ∧
        Finishes libc (reading kind.further .none (kind.entryMode :: stack') buffer) t es := by
  have hstack : (reading state type stack buffer).stack = stack := rfl
  rw [nextMember, hstack]
  cases stack with
  | nil => exact iff_of_false (Outcome.not_leads rfl) (by simp)
  | cons top stack =>
    rw [List.length_cons] at hlen
    cases top with
    | array =>
      constructor
      · intro hrest
        exact ⟨.array, stack, rfl, hrest⟩
      · rintro ⟨kind, stack', hstack', hrest⟩
        cases kind with
        | object => cases hstack'
        | array =>
          obtain ⟨-, rfl⟩ := List.cons.inj hstack'
          exact hrest
    | object =>
      simp only [List.head?_cons, leads_pop, leads_push]
      constructor
      · rintro ⟨stack', hstack', -, hrest⟩
        obtain ⟨-, rfl⟩ := List.cons.inj hstack'
        exact ⟨.object, stack, rfl, hrest⟩
      · rintro ⟨kind, stack', hstack', hrest⟩
        cases kind with
        | array => cases hstack'
        | object =>
          obtain ⟨-, rfl⟩ := List.cons.inj hstack'
          exact ⟨stack, rfl, by omega, hrest⟩
    | key =>
      refine iff_of_false (Outcome.not_leads rfl) ?_
      rintro ⟨kind, stack', hstack', -⟩
      cases kind <;> cases hstack'
    | done =>
      refine iff_of_false (Outcome.not_leads rfl) ?_
      rintro ⟨kind, stack', hstack', -⟩
      cases kind <;> cases hstack'

/-- **A comma** tells the value in front of it and goes on in the same container. -/
theorem finishes_comma (h : cellAt state 44 = .act .m3) (hlen : stack.length ≤ 16) :
    Finishes libc (reading state type stack buffer) (44 :: t) es ↔
      ∃ (kind : Kind) (stack' : List Modes) (es' : List Event), stack = kind.mode :: stack' ∧
        es = told libc type buffer ++ es' ∧
        Finishes libc (reading kind.further .none (kind.entryMode :: stack') []) t es' := by
  rw [finishes_act h, kept_solid (by decide), act, comma, bufferPop_reading, leads_parse]
  constructor
  · rintro ⟨es', rfl, hnext⟩
    obtain ⟨kind, stack', hstack, hrest⟩ := (leads_nextMember hlen).1 hnext
    exact ⟨kind, stack', es', hstack, rfl, hrest⟩
  · rintro ⟨kind, stack', es', hstack, rfl, hrest⟩
    exact ⟨es', rfl, (leads_nextMember hlen).2 ⟨kind, stack', hstack, hrest⟩⟩

/-- A colon behind a key goes on with the value. -/
theorem finishes_colon (hlen : stack.length ≤ 15) :
    Finishes libc (reading .co .none (.key :: stack) buffer) (58 :: t) es ↔
      Finishes libc (reading .va .none (.object :: stack) buffer) t es := by
  have hcell : cellAt .co 58 = .act .m2 := by decide
  rw [finishes_act hcell, kept_solid (by decide), act, colon, bufferPop_reading, leads_pop]
  simp only [leads_push]
  constructor
  · rintro ⟨stack', hstack', -, hrest⟩
    obtain ⟨-, rfl⟩ := List.cons.inj hstack'
    exact hrest
  · intro hrest
    exact ⟨stack, rfl, by omega, hrest⟩

/-! ## Quotes -/

/-- The quote in front of a string begins an empty one. -/
theorem finishes_quote (h : cellAt state 34 = .act .sb) :
    Finishes libc (reading state .none stack buffer) (34 :: t) es ↔
      Finishes libc (reading .st .string stack []) t es := by
  rw [finishes_act h]
  exact Outcome.leads_proceed

/-- The quote behind a string that is a value. -/
theorem finishes_string : Finishes libc (reading .st .string (kind.mode :: stack) buffer)
    (34 :: t) es ↔ ∃ es', es = .value (.string buffer) :: es' ∧
      Finishes libc (reading .ok .none (kind.mode :: stack) []) t es' := by
  have hcell : cellAt .st 34 = .act .m4 := by decide
  have hend : stringEnd libc (reading .st .string (kind.mode :: stack) (buffer ++ [34])) =
      (parseParseBuffer libc (reading .st .string (kind.mode :: stack) buffer)).andThen fun jc =>
        proceed { jc with type := .none, state := .ok } := by
    rw [stringEnd, bufferPop_reading]
    cases kind <;> rfl
  rw [finishes_act hcell, kept_solid (by decide), act, hend, leads_parse]
  exact Iff.rfl

/-- The quote behind a key tells the key, and a colon is expected. -/
theorem finishes_key : Finishes libc (reading .st .string (.key :: stack) buffer) (34 :: t) es ↔
    ∃ es', es = .key buffer :: es' ∧
      Finishes libc (reading .co .none (.key :: stack) []) t es' := by
  have hcell : cellAt .st 34 = .act .m4 := by decide
  have hend : stringEnd libc (reading .st .string (.key :: stack) (buffer ++ [34])) =
      (emit (.key buffer) (reading .co .none (.key :: stack) buffer)).andThen fun jc =>
        proceed jc.bufferClear := by
    rw [stringEnd, bufferPop_reading]
    rfl
  rw [finishes_act hcell, kept_solid (by decide), act, hend, leads_emit]
  exact Iff.rfl

end Punctuation

end Ape.Json

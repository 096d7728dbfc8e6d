import Mathlib.Data.List.TakeWhile
import ApeServer.Lib.CString
import ApeServer.Json.Parser
import ApeServer.Json.Print

/-!
# Reading what was printed

The parser goes through the text of a document token by token.  A number or a literal is told to the
callback only with the character behind it, so between the two it is pending in the parser.

* `Reads`, `Rejects` — what the parser does with a text;
* `Pending` — the parser behind a value;
* `reads_string`, `reads_key`, `reads_digits`, … — one token;
* `scanInteger_text` — the number the parser finds in digits;
* `rejects_apostrophe` — **the escape of an apostrophe is refused**.
-/

namespace Ape.Json

/-! ## Texts -/

/-- Characters of ASCII other than null. -/
def Ascii (text : List UInt8) : Prop := ∀ c ∈ text, c ≠ 0 ∧ c.toNat < 128

instance (text : List UInt8) : Decidable (Ascii text) := List.decidableBAll _ text

/-- Bytes as the parser is given them. -/
def codes (text : List UInt8) : List Int := text.map fun c => (c.toNat : Int)

theorem Ascii.append {a b : List UInt8} (ha : Ascii a) (hb : Ascii b) : Ascii (a ++ b) := by
  intro c hc
  rcases List.mem_append.1 hc with hc | hc
  · exact ha c hc
  · exact hb c hc

/-- Characters of ASCII are not cut off, and no `char` of them is negative. -/
theorem chars_append {a : List UInt8} (ha : Ascii a) (b : List UInt8) :
    chars (a ++ b) = codes a ++ chars b := by
  have hchar : ∀ c : UInt8, c.toNat < 128 → c.toInt8.toInt = (c.toNat : Int) :=
    CString.forall_ascii (by decide)
  induction a with
  | nil => rfl
  | cons c a ih =>
    obtain ⟨hc, hlt⟩ := ha c (List.mem_cons_self ..)
    have hcode := hchar c hlt
    have hrest := ih fun x hx => ha x (List.mem_cons_of_mem _ hx)
    unfold chars at hrest ⊢
    rw [List.cons_append, List.takeWhile_cons_of_pos (by simpa using hc), List.map_cons, hcode, hrest]
    rfl

theorem chars_of_ascii {text : List UInt8} (h : Ascii text) : chars text = codes text := by
  have happend := chars_append h []
  have hnil : chars [] = [] := rfl
  rwa [List.append_nil, hnil, List.append_nil] at happend

theorem Outcome.andThen_mk (jc : Parser) (es : List Event) (f : Parser → Outcome) :
    Outcome.andThen ⟨true, jc, es, false⟩ f =
      ⟨(f jc).ok, (f jc).parser, es ++ (f jc).events, (f jc).lost⟩ := rfl

theorem Outcome.andThen_assoc (o : Outcome) (f g : Parser → Outcome) :
    (o.andThen f).andThen g = o.andThen fun jc => (f jc).andThen g := by
  obtain ⟨ok, jc, es, lost⟩ := o
  cases ok with
  | false => rfl
  | true =>
    cases hok : (f jc).ok with
    | false => simp [Outcome.andThen, hok]
    | true => simp [Outcome.andThen, hok, Bool.or_assoc]

section Texts

variable (libc : Libc)

theorem feed_append (a b : List Int) (jc : Parser) :
    feed libc (a ++ b) jc = (feed libc a jc).andThen (feed libc b) := by
  induction a generalizing jc with
  | nil => rfl
  | cons c a ih =>
    rw [List.cons_append, feed, feed, Outcome.andThen_assoc]
    congr 1
    funext jc
    exact ih jc

/-- The parser takes the text and tells these events. -/
def Reads (jc : Parser) (text : List UInt8) (jc' : Parser) (es : List Event) : Prop :=
  Ascii text ∧ feed libc (codes text) jc = ⟨true, jc', es, false⟩

/-- The parser refuses a character of the text. -/
def Rejects (jc : Parser) (text : List UInt8) : Prop :=
  ∃ a b, text = a ++ b ∧ Ascii a ∧ (feed libc (codes a) jc).ok = false

variable {libc} {jc jc' jc'' : Parser} {a b : List UInt8} {es es' : List Event}

theorem Reads.nil (jc : Parser) : Reads libc jc [] jc [] := ⟨by simp [Ascii], rfl⟩

theorem Reads.append (ha : Reads libc jc a jc' es) (hb : Reads libc jc' b jc'' es') :
    Reads libc jc (a ++ b) jc'' (es ++ es') := by
  refine ⟨ha.1.append hb.1, ?_⟩
  rw [codes, List.map_append, feed_append]
  change (feed libc (codes a) jc).andThen (feed libc (codes b)) = _
  rw [ha.2, Outcome.andThen_mk, hb.2]

theorem Reads.rejects (ha : Reads libc jc a jc' es) (hb : Rejects libc jc' b) :
    Rejects libc jc (a ++ b) := by
  obtain ⟨b₁, b₂, rfl, hascii, hfeed⟩ := hb
  refine ⟨a ++ b₁, b₂, (List.append_assoc ..).symm, ha.1.append hascii, ?_⟩
  rw [codes, List.map_append, feed_append]
  change ((feed libc (codes a) jc).andThen (feed libc (codes b₁))).ok = false
  rw [ha.2, Outcome.andThen_mk]
  exact hfeed

theorem Rejects.append (ha : Rejects libc jc a) (b : List UInt8) : Rejects libc jc (a ++ b) := by
  obtain ⟨a₁, a₂, rfl, hascii, hfeed⟩ := ha
  exact ⟨a₁, a₂ ++ b, List.append_assoc .., hascii, hfeed⟩

theorem Reads.char {c : UInt8} (hc : c ≠ 0 ∧ c.toNat < 128)
    (h : jsonParserChar libc c.toNat jc = ⟨true, jc', es, false⟩) : Reads libc jc [c] jc' es := by
  refine ⟨by simpa [Ascii] using hc, ?_⟩
  change (jsonParserChar libc c.toNat jc).andThen proceed = _
  rw [h, Outcome.andThen_mk]
  simp [proceed]

/-- A text is read piece by piece. -/
theorem Reads.split (h : Reads libc jc (a ++ b) jc'' es) : ∃ jc' es₁ es₂,
    Reads libc jc a jc' es₁ ∧ Reads libc jc' b jc'' es₂ ∧ es = es₁ ++ es₂ := by
  obtain ⟨hascii, hfeed⟩ := h
  have ha : Ascii a := fun c hc => hascii c (List.mem_append_left _ hc)
  have hb : Ascii b := fun c hc => hascii c (List.mem_append_right _ hc)
  rw [codes, List.map_append, feed_append] at hfeed
  change (feed libc (codes a) jc).andThen (feed libc (codes b)) = _ at hfeed
  cases hrun : feed libc (codes a) jc with
  | mk ok jc' es₁ lost =>
    rw [hrun] at hfeed
    cases ok with
    | false => exact Bool.noConfusion (congrArg Outcome.ok hfeed)
    | true =>
      obtain ⟨hok, hparser, hevents, hlost⟩ := Outcome.mk.inj hfeed
      obtain ⟨rfl, hrest⟩ := Bool.or_eq_false_iff.1 hlost
      refine ⟨jc', es₁, _, ⟨ha, hrun⟩, ⟨hb, ?_⟩, hevents.symm⟩
      show feed libc (codes b) jc' = ⟨true, jc'', (feed libc (codes b) jc').events, false⟩
      rw [← hok, ← hparser, ← hrest]

/-- What is read behind a text that has been read. -/
theorem Reads.behind (hab : Reads libc jc (a ++ b) jc'' es') (ha : Reads libc jc a jc' es) :
    ∃ es'', es' = es ++ es'' ∧ Reads libc jc' b jc'' es'' := by
  obtain ⟨jc₁, es₁, es₂, ha₁, hb, rfl⟩ := hab.split
  obtain ⟨-, rfl, rfl, -⟩ := Outcome.mk.inj (ha.2.symm.trans ha₁.2)
  exact ⟨es₂, rfl, hb⟩

/-- A text that is refused is not read. -/
theorem Rejects.not_reads (ha : Rejects libc jc a) : ¬ Reads libc jc a jc' es := by
  obtain ⟨a₁, a₂, rfl, -, hfeed⟩ := ha
  intro hreads
  obtain ⟨jc₁, es₁, es₂, hreads₁, -⟩ := hreads.split
  rw [hreads₁.2] at hfeed
  exact Bool.noConfusion hfeed

end Texts

/-! ## One character -/

/-- The parser as `init_json_parser` sets it up, in the middle of a text. -/
def reading (state : States) (type : JsonType) (stack : List Modes) (buffer : List UInt8) : Parser :=
  { newParser true 15 false with state, type, stack, parseBuffer := buffer }

section Characters

variable {libc : Libc} {state : States} {type : JsonType} {stack : List Modes}
  {buffer : List UInt8} {c : UInt8} {k : Classes}

/-- Any character but white space between tokens goes into the buffer. -/
theorem addChar_reading (hc : c.toNat < 128)
    (hk : type ≠ .none ∨ ¬ (k = .space ∨ k = .white)) :
    addChar c.toNat k (reading state type stack buffer) =
      ⟨true, reading state type stack (buffer ++ [c]), [], false⟩ := by
  have hbyte : toByte c.toNat = c := by
    unfold toByte
    have hmod : (c.toNat : Int) % 256 = c.toNat := by omega
    rw [hmod, Int.toNat_natCast, UInt8.ofNat_toNat]
  have hescaped : (reading state type stack buffer).escaped = false := rfl
  have hcomment : (reading state type stack buffer).comment = false := rfl
  have htype : (reading state type stack buffer).type = type := rfl
  unfold addChar
  rw [hescaped, hcomment, htype, hbyte, if_neg (by simp), if_neg (by simp), if_pos hk]
  rfl

/-- A character that moves to a state. -/
theorem char_goto {state' : States} (hc : c ≠ 0 ∧ c.toNat < 128) (hk : classOf c.toNat = some k)
    (hbuffer : type ≠ .none ∨ ¬ (k = .space ∨ k = .white))
    (ht : stateTransitionTable state k = .goto state') :
    Reads libc (reading state type stack buffer) [c]
      (reading state' type stack (buffer ++ [c])) [] := by
  refine .char hc ?_
  have hstate : (reading state type stack (buffer ++ [c])).state = state := rfl
  unfold jsonParserChar
  rw [if_neg (by omega), hk]
  simp only [addChar_reading hc.2 hbuffer, Outcome.andThen_mk, hstate, ht]
  rfl

/-- A character that makes the parser act. -/
theorem char_act {action : Actions} {jc' : Parser} {es : List Event} (hc : c ≠ 0 ∧ c.toNat < 128)
    (hk : classOf c.toNat = some k) (hbuffer : type ≠ .none ∨ ¬ (k = .space ∨ k = .white))
    (ht : stateTransitionTable state k = .act action)
    (hact : act libc action (reading state type stack (buffer ++ [c])) = ⟨true, jc', es, false⟩) :
    Reads libc (reading state type stack buffer) [c] jc' es := by
  refine .char hc ?_
  have hstate : (reading state type stack (buffer ++ [c])).state = state := rfl
  unfold jsonParserChar
  rw [if_neg (by omega), hk]
  simp only [addChar_reading hc.2 hbuffer, Outcome.andThen_mk, hstate, ht, hact]
  rfl

/-- The depth limit is 15 below the bottom mode. -/
theorem push_reading (mode : Modes) (h : stack.length ≤ 15) :
    push mode (reading state type stack buffer) =
      ⟨true, reading state type (mode :: stack) buffer, [], false⟩ := by
  have hdepth : (reading state type stack buffer).depth = 15 := rfl
  have hstack : (reading state type stack buffer).stack = stack := rfl
  unfold push
  rw [hdepth, hstack, if_neg (by omega)]
  rfl

theorem pop_reading (mode : Modes) :
    pop mode (reading state type (mode :: stack) buffer) =
      ⟨true, reading state type stack buffer, [], false⟩ := by
  have htop : (reading state type (mode :: stack) buffer).stack.head? = some mode := rfl
  unfold pop
  rw [if_pos htop]
  rfl

theorem bufferPop_reading (c : UInt8) :
    (reading state type stack (buffer ++ [c])).bufferPop = reading state type stack buffer := by
  simp [reading, Parser.bufferPop]

end Characters

/-! ## Tokens -/

/-- A byte that stands for itself in a string. -/
def PlainByte (c : UInt8) : Prop := 32 ≤ c.toNat ∧ c.toNat < 128 ∧ c ≠ 34 ∧ c ≠ 92

instance (c : UInt8) : Decidable (PlainByte c) := inferInstanceAs (Decidable (_ ∧ _))

theorem PlainByte.ascii {c : UInt8} (h : PlainByte c) : c ≠ 0 ∧ c.toNat < 128 := by
  refine ⟨?_, h.2.1⟩
  rintro rfl
  exact absurd h.1 (by decide)

/-- A byte that stands for itself keeps the parser in the string. -/
theorem PlainByte.class {c : UInt8} (h : PlainByte c) :
    ∃ k, classOf c.toNat = some k ∧ stateTransitionTable .st k = .goto .st := by
  have htable : ∀ c : UInt8, c.toNat < 128 → PlainByte c →
      (classOf c.toNat).map (stateTransitionTable .st) = some (.goto .st) :=
    CString.forall_ascii (by decide)
  exact Option.map_eq_some_iff.1 (htable c h.2.1 h)

section Tokens

variable {libc : Libc} {stack : List Modes} {buffer : List UInt8}

/-- The plain bytes inside of a string are kept as they are. -/
theorem reads_plain {s : List UInt8} (hs : ∀ c ∈ s, PlainByte c) (buffer : List UInt8) :
    Reads libc (reading .st .string stack buffer) s (reading .st .string stack (buffer ++ s)) [] := by
  induction s generalizing buffer with
  | nil =>
    rw [List.append_nil]
    exact .nil _
  | cons c s ih =>
    have hc := hs c (List.mem_cons_self ..)
    obtain ⟨k, hk, ht⟩ := hc.class
    have hfirst : Reads libc (reading .st .string stack buffer) [c]
        (reading .st .string stack (buffer ++ [c])) [] :=
      char_goto hc.ascii hk (.inl (by simp)) ht
    have hrest := ih (fun x hx => hs x (List.mem_cons_of_mem _ hx)) (buffer ++ [c])
    rw [List.append_assoc] at hrest
    exact hfirst.append hrest

/-- The quote in front of a string begins an empty one. -/
theorem reads_quote {state : States} (hstate : stateTransitionTable state .quote = .act .sb) :
    Reads libc (reading state .none stack []) [34] (reading .st .string stack []) [] :=
  char_act (by decide) rfl (.inr (by simp)) hstate rfl

/-- The quote behind a string tells the string. -/
theorem reads_string_end (libc : Libc)
    (hstack : stack.head? = some .array ∨ stack.head? = some .object) (s : List UInt8) :
    Reads libc (reading .st .string stack s) [34] (reading .ok .none stack [])
      [.value (.string s)] := by
  refine char_act (by decide) rfl (.inl (by simp)) rfl ?_
  have hbuffer : (s ++ [34]).dropLast = s := List.dropLast_concat
  rcases hstack with hstack | hstack
  · simp [act, stringEnd, reading, Parser.bufferPop, hbuffer, hstack, parseParseBuffer, Parser.scalar,
      emit, Outcome.andThen_mk, proceed, Parser.bufferClear, newParser]
  · simp [act, stringEnd, reading, Parser.bufferPop, hbuffer, hstack, parseParseBuffer, Parser.scalar,
      emit, Outcome.andThen_mk, proceed, Parser.bufferClear, newParser]

/-- A string of plain bytes is read as it is. -/
theorem reads_string {state : States} (hstate : stateTransitionTable state .quote = .act .sb)
    (hstack : stack.head? = some .array ∨ stack.head? = some .object) {s : List UInt8}
    (hs : ∀ c ∈ s, PlainByte c) :
    Reads libc (reading state .none stack []) (34 :: (s ++ [34])) (reading .ok .none stack [])
      [.value (.string s)] :=
  (reads_quote hstate).append ((reads_plain hs []).append (reads_string_end libc hstack s))

/-- The quote behind a key tells the key. -/
theorem reads_key_end (libc : Libc) (stack : List Modes) (key : List UInt8) :
    Reads libc (reading .st .string (.key :: stack) key) [34]
      (reading .co .none (.key :: stack) []) [.key key] := by
  refine char_act (by decide) rfl (.inl (by simp)) rfl ?_
  have hbuffer : (key ++ [34]).dropLast = key := List.dropLast_concat
  simp [act, stringEnd, reading, Parser.bufferPop, hbuffer, emit, Outcome.andThen_mk, proceed,
    Parser.bufferClear, newParser]

/-- The key of a member, and the colon. -/
theorem reads_key {state : States} (hstate : stateTransitionTable state .quote = .act .sb)
    {key : List UInt8} (hkey : ∀ c ∈ key, PlainByte c) (hstack : stack.length ≤ 15) :
    Reads libc (reading state .none (.key :: stack) []) (34 :: (key ++ [34, 58]))
      (reading .va .none (.object :: stack) []) [.key key] := by
  have hcolon : Reads libc (reading .co .none (.key :: stack) []) [58]
      (reading .va .none (.object :: stack) []) [] := by
    refine char_act (by decide) rfl (.inr (by simp)) rfl ?_
    have hcolon : colon (reading .co .none (.key :: stack) ([] ++ [58])) =
        ⟨true, reading .va .none (.object :: stack) [], [], false⟩ := by
      rw [colon, bufferPop_reading, pop_reading, Outcome.andThen_mk, push_reading _ hstack,
        Outcome.andThen_mk]
      rfl
    exact hcolon
  have hinside := (reads_quote hstate).append ((reads_plain hkey []).append ((reads_key_end libc stack key).append hcolon))
  simpa using hinside

/-- The parser behind a value: what it will tell next of it, if anything. -/
def Pending (libc : Libc) (jc : Parser) (stack : List Modes) (es : List Event) : Prop :=
  ∃ state type buffer, jc = reading state type stack buffer ∧
    (state = .ok ∨ state = .ze ∨ state = .it) ∧
    ((jc.scalar libc).map Event.value).toList = es

/-- A letter of a literal is kept and moves to the next state. -/
theorem reads_letter {state state' : States} {type : JsonType} {c : UInt8} {k : Classes}
    (hc : c ≠ 0 ∧ c.toNat < 128) (hk : classOf c.toNat = some k) (htype : type ≠ .none)
    (ht : stateTransitionTable state k = .goto state') :
    Reads libc (reading state type stack buffer) [c] (reading state' type stack (buffer ++ [c])) [] :=
  char_goto hc hk (.inl htype) ht

/-- The text `false` is read to its end. -/
theorem reads_false {state : States} (hstate : state = .va ∨ state = .ar) :
    Reads libc (reading state .none stack []) falseText (reading .ok .false stack falseText) [] := by
  have hrow : stateTransitionTable state .lowF = .act .fa := by
    rcases hstate with rfl | rfl <;> rfl
  have h₁ : Reads libc (reading state .none stack []) [102]
      (reading .f1 .false stack [102]) [] :=
    char_act (by decide) rfl (.inr (by simp)) hrow rfl
  have h₂ : Reads libc (reading .f1 .false stack [102]) [97]
      (reading .f2 .false stack [102, 97]) [] := reads_letter (by decide) rfl (by simp) rfl
  have h₃ : Reads libc (reading .f2 .false stack [102, 97]) [108]
      (reading .f3 .false stack [102, 97, 108]) [] := reads_letter (by decide) rfl (by simp) rfl
  have h₄ : Reads libc (reading .f3 .false stack [102, 97, 108]) [115]
      (reading .f4 .false stack [102, 97, 108, 115]) [] := reads_letter (by decide) rfl (by simp) rfl
  have h₅ : Reads libc (reading .f4 .false stack [102, 97, 108, 115]) [101]
      (reading .ok .false stack [102, 97, 108, 115, 101]) [] := reads_letter (by decide) rfl (by simp) rfl
  exact h₁.append (h₂.append (h₃.append (h₄.append h₅)))

/-- The text `null` is read to its end. -/
theorem reads_null {state : States} (hstate : state = .va ∨ state = .ar) :
    Reads libc (reading state .none stack []) nullText (reading .ok .null stack nullText) [] := by
  have hrow : stateTransitionTable state .lowN = .act .nu := by
    rcases hstate with rfl | rfl <;> rfl
  have h₁ : Reads libc (reading state .none stack []) [110]
      (reading .n1 .null stack [110]) [] :=
    char_act (by decide) rfl (.inr (by simp)) hrow rfl
  have h₂ : Reads libc (reading .n1 .null stack [110]) [117]
      (reading .n2 .null stack [110, 117]) [] := reads_letter (by decide) rfl (by simp) rfl
  have h₃ : Reads libc (reading .n2 .null stack [110, 117]) [108]
      (reading .n3 .null stack [110, 117, 108]) [] := reads_letter (by decide) rfl (by simp) rfl
  have h₄ : Reads libc (reading .n3 .null stack [110, 117, 108]) [108]
      (reading .ok .null stack [110, 117, 108, 108]) [] := reads_letter (by decide) rfl (by simp) rfl
  exact h₁.append (h₂.append (h₃.append h₄))

/-- The text `0` is read as an integer. -/
theorem reads_zero {state : States} (hstate : state = .va ∨ state = .ar) :
    Reads libc (reading state .none stack []) [48] (reading .ze .integer stack [48]) [] := by
  have hrow : stateTransitionTable state .zero = .act .zx := by
    rcases hstate with rfl | rfl <;> rfl
  exact char_act (by decide) rfl (.inr (by simp)) hrow rfl

/-- The digits behind the first one of a number are kept. -/
theorem reads_digits {ds : List Nat} (hds : ∀ d ∈ ds, d < 10) (buffer : List UInt8) :
    Reads libc (reading .it .integer stack buffer) (ds.map Decimal.digit)
      (reading .it .integer stack (buffer ++ ds.map Decimal.digit)) [] := by
  have hdigit : ∀ d < 10, (Decimal.digit d ≠ 0 ∧ (Decimal.digit d).toNat < 128) ∧
      (classOf (Decimal.digit d).toNat = some .zero ∨
        classOf (Decimal.digit d).toNat = some .digit) := by decide
  induction ds generalizing buffer with
  | nil =>
    rw [List.map_nil, List.append_nil]
    exact .nil _
  | cons d ds ih =>
    obtain ⟨hc, hk⟩ := hdigit d (hds d (List.mem_cons_self ..))
    have hfirst : Reads libc (reading .it .integer stack buffer) [Decimal.digit d]
        (reading .it .integer stack (buffer ++ [Decimal.digit d])) [] := by
      rcases hk with hk | hk
      · exact char_goto hc hk (.inl (by simp)) rfl
      · exact char_goto hc hk (.inl (by simp)) rfl
    have hrest := ih (fun x hx => hds x (List.mem_cons_of_mem _ hx)) (buffer ++ [Decimal.digit d])
    rw [List.append_assoc] at hrest
    exact hfirst.append hrest

/-- The text of a positive number is read as an integer. -/
theorem reads_number {state : States} (hstate : state = .va ∨ state = .ar) {n : Nat} (hn : 0 < n) :
    Reads libc (reading state .none stack []) (Decimal.text n)
      (reading .it .integer stack (Decimal.text n)) [] := by
  have hrow : stateTransitionTable state .digit = .act .ix := by
    rcases hstate with rfl | rfl <;> rfl
  have hdigit : ∀ d < 10, 0 < d → (Decimal.digit d ≠ 0 ∧ (Decimal.digit d).toNat < 128) ∧
      classOf (Decimal.digit d).toNat = some .digit := by decide
  obtain ⟨d, ds, htext, hd, hds⟩ := Decimal.head_text hn
  obtain ⟨hc, hk⟩ := hdigit d hd.2 hd.1
  have hfirst : Reads libc (reading state .none stack []) [Decimal.digit d]
      (reading .it .integer stack [Decimal.digit d]) [] :=
    char_act hc hk (.inr (by simp)) hrow rfl
  rw [htext]
  exact hfirst.append (reads_digits hds [Decimal.digit d])

/-- The value `sscanf` finds in the digits of a number. -/
theorem scanInteger_text {n : Nat} (hn : 0 < n) :
    scanInteger (Decimal.text n) = Int64.ofInt (min (n : Int) (2 ^ 63 - 1)) := by
  have hdigit : ∀ d < 10, isDigit (Decimal.digit d) = true ∧ isSpace (Decimal.digit d) = false ∧
      Decimal.digit d ≠ 45 ∧ Decimal.digit d ≠ 43 := by decide
  obtain ⟨d, ds, htext, hd, hds⟩ := Decimal.head_text hn
  obtain ⟨-, hspace, hminus, hplus⟩ := hdigit d hd.2
  have hall : (Decimal.text n).takeWhile isDigit = Decimal.text n := by
    rw [List.takeWhile_eq_self_iff, htext]
    intro c hc
    rcases List.mem_cons.1 hc with rfl | hc
    · exact (hdigit d hd.2).1
    · obtain ⟨x, hx, rfl⟩ := List.mem_map.1 hc
      exact (hdigit x (hds x hx)).1
  have hdrop : (Decimal.text n).dropWhile isSpace = Decimal.text n := by
    rw [htext, List.dropWhile_cons_of_neg (by simp [hspace])]
  unfold scanInteger
  rw [hdrop]
  split
  case h_1 ds' heq =>
    rw [htext] at heq
    exact absurd (List.cons.inj heq).1 hminus
  case h_2 ds' heq =>
    rw [htext] at heq
    exact absurd (List.cons.inj heq).1 hplus
  case h_3 => simp only [hall, Decimal.value_text]

/-- **The escape of an apostrophe is refused.** -/
theorem rejects_apostrophe (buffer : List UInt8) :
    Rejects libc (reading .st .string stack buffer) [92, 39] := by
  have hbackslash : Reads libc (reading .st .string stack buffer) [92]
      { reading .es .string stack (buffer ++ [92]) with escaped := true } [] :=
    char_act (by decide) rfl (.inl (by simp)) rfl rfl
  refine hbackslash.rejects (b := [39]) ⟨[39], [], rfl, by decide, ?_⟩
  rfl

end Tokens

end Ape.Json

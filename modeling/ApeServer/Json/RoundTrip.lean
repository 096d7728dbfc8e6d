import ApeServer.Json.Read

/-!
# Parse, print, parse

A document is read into a tree, the tree is printed, and the text is read again.  What is printed is
mostly the document, but `true` comes back as `1`, an empty container as `0`, a negative number as
one that is out of range, and an apostrophe in a value is escaped in a way the parser refuses.

* `Members.Plain`, `Members.depth` — documents without escapes, and their nesting;
* `Members.reread` — what the parser makes of what is printed;
* `reads_members` — **the parser reads the printed members so**;
* `Mirrors.unique` — a tree mirrors one document;
* `Members.reread_eq_iff` — **exactly the faithful members are read as they are**;
* `Members.Faithful.printed` — and they are printed.
-/

namespace Ape.Json

/-! ## Documents to print -/

/-- A scalar other than a float, whose text needs no escapes. -/
def Scalar.Plain : Scalar → Prop
  | .float _ => False
  | .string s => ∀ c ∈ s, PlainByte c
  | .integer _ | .null | .true | .false => True

/-- A key that needs no escapes. -/
def Kind.PlainLabel (kind : Kind) (label : kind.Label) : Prop :=
  ∀ key, kind.key label = some key → ∀ c ∈ key, PlainByte c

/-- The mode in which a member is read. -/
def Kind.entryMode : Kind → Modes
  | .object => .key
  | .array => .array

/-- The mode in which the value of a member is read. -/
def Kind.mode : Kind → Modes
  | .object => .object
  | .array => .array

/-- The states in which a member is read: the first, or behind a comma. -/
def Kind.Starts : Kind → States → Prop
  | .object, state => state = .ob ∨ state = .ke
  | .array, state => state = .va ∨ state = .ar

/-- What the parser makes of what is printed for a scalar; `none` when it refuses it. -/
def Scalar.reread : Scalar → Option Scalar
  | .integer n => some (.integer (if n.toInt < 0 then Int64.ofInt (2 ^ 63 - 1) else n))
  | .true => some (.integer 1)
  | .string s => if 39 ∈ s then none else some (.string s)
  | .null => some .null
  | .false => some .false
  | .float x => some (.float x)

namespace Members

/-- Members without floats, whose keys and strings need no escapes. -/
def Plain : {kind : Kind} → Members kind → Prop
  | _, nil => True
  | kind, scalar label value rest => kind.PlainLabel label ∧ value.Plain ∧ rest.Plain
  | kind, nest label _ members rest => kind.PlainLabel label ∧ members.Plain ∧ rest.Plain

/-- How deep containers are nested in these members. -/
def depth : {kind : Kind} → Members kind → Nat
  | _, nil => 0
  | _, scalar _ _ rest => rest.depth
  | _, nest _ _ members rest => max (1 + members.depth) rest.depth

/-- What the parser makes of what is printed for a container with these members, of which it makes
`inside`: of one without members a number. -/
def rebox {kind inner : Kind} (m : Members inner) (label : kind.Label) (inside : Members inner)
    (rest : Members kind) : Members kind :=
  match m with
  | nil => scalar label (.integer 0) rest
  | scalar .. => nest label inner inside rest
  | nest .. => nest label inner inside rest

theorem rebox_of_ne_nil {kind inner : Kind} {m : Members inner} (h : m ≠ nil) (label : kind.Label)
    (inside : Members inner) (rest : Members kind) :
    m.rebox label inside rest = nest label inner inside rest := by
  cases m with
  | nil => exact absurd rfl h
  | scalar label value rest => rfl
  | nest label inner members rest => rfl

/-- The events of what the parser makes of what is printed for a container. -/
def boxEvents {inner : Kind} (m inside : Members inner) : List Event :=
  match m with
  | nil => [.value (.integer 0)]
  | scalar .. => .containerBegin inner :: (inside.events ++ [.containerEnd inner])
  | nest .. => .containerBegin inner :: (inside.events ++ [.containerEnd inner])

theorem events_rebox {kind inner : Kind} (m : Members inner) (label : kind.Label)
    (inside : Members inner) (rest : Members kind) :
    (m.rebox label inside rest).events =
      kind.labelEvents label ++ (m.boxEvents inside ++ rest.events) := by
  cases m <;> simp [rebox, boxEvents, events]

/-- What the parser makes of what is printed for these members; `none` when it refuses it. -/
def reread : {kind : Kind} → Members kind → Option (Members kind)
  | _, nil => some nil
  | _, scalar label value rest => do
    let value ← value.reread
    let rest ← rest.reread
    some (scalar label value rest)
  | _, nest label _ members rest => do
    let inside ← members.reread
    let rest ← rest.reread
    some (members.rebox label inside rest)

end Members

/-! ## Values -/

section Values

variable {libc : Libc} {libm : Libm} {state : States} {stack : List Modes}

/-- The parser goes through a value; some of the events may still be pending. -/
def Leads (libc : Libc) (jc : Parser) (text : List UInt8) (stack : List Modes) (es : List Event) :
    Prop :=
  ∃ jc' es₁ es₂, Reads libc jc text jc' es₁ ∧ Pending libc jc' stack es₂ ∧ es = es₁ ++ es₂

theorem Pending.of_scalar {state : States} {type : JsonType} {buffer : List UInt8} {value : Scalar}
    (hstate : state = .ok ∨ state = .ze ∨ state = .it)
    (hvalue : (reading state type stack buffer).scalar libc = some value) :
    Pending libc (reading state type stack buffer) stack [.value value] :=
  ⟨state, type, buffer, rfl, hstate, by rw [hvalue]; rfl⟩

theorem Pending.of_none (libc : Libc) (stack : List Modes) :
    Pending libc (reading .ok .none stack []) stack [] :=
  ⟨.ok, .none, [], rfl, .inl rfl, rfl⟩

theorem printed_integer (n : Int64) :
    (Scalar.integer n).printed libm = if n = 0 then some [48] else integerText libm n := by
  by_cases h : n = 0
  · subst h
    rfl
  · simp [Scalar.printed, valueText, Item.setValue, h]

theorem escapeJsonString_append (a b : List UInt8) :
    escapeJsonString (a ++ b) = escapeJsonString a ++ escapeJsonString b := by
  induction a with
  | nil => rfl
  | cons c a ih => rw [List.cons_append, escapeJsonString, escapeJsonString, ih, List.append_assoc]

/-- Without an apostrophe a string that needs no escapes is printed as it is. -/
theorem escapeJsonString_plain {s : List UInt8} (hs : ∀ c ∈ s, PlainByte c) (h : 39 ∉ s) :
    escapeJsonString s = s := by
  induction s with
  | nil => rfl
  | cons c s ih =>
    obtain ⟨hlow, -, hquote, hbackslash⟩ := hs c (List.mem_cons_self ..)
    have hapostrophe : c ≠ 39 := fun heq => h (heq ▸ List.mem_cons_self ..)
    have hcontrol : ∀ d : UInt8, d.toNat < 32 → c ≠ d := by
      rintro d hd rfl
      omega
    rw [escapeJsonString, if_neg hquote, if_neg hapostrophe, if_neg hbackslash,
      if_neg (hcontrol 10 (by decide)), if_neg (hcontrol 8 (by decide)),
      if_neg (hcontrol 9 (by decide)), if_neg (hcontrol 12 (by decide)),
      if_neg (hcontrol 13 (by decide)),
      ih (fun x hx => hs x (List.mem_cons_of_mem _ hx)) fun hx => h (List.mem_cons_of_mem _ hx)]
    rfl

/-- A number as it is printed, and what `sscanf` finds in it. -/
theorem leads_integer (libc : Libc) (stack : List Modes) (hstate : state = .va ∨ state = .ar) {n : Int64} {text : List UInt8}
    (htext : (Scalar.integer n).printed libm = some text) :
    Leads libc (reading state .none stack []) text stack
      [.value (.integer (if n.toInt < 0 then Int64.ofInt (2 ^ 63 - 1) else n))] := by
  rw [printed_integer] at htext
  by_cases h0 : n = 0
  · subst h0
    rw [if_pos rfl] at htext
    obtain rfl : [48] = text := Option.some.inj htext
    exact ⟨_, [], _, reads_zero hstate, .of_scalar (.inr (.inl rfl)) rfl, rfl⟩
  rw [if_neg h0] at htext
  have hlead : ∀ k : Nat, 0 < k → text = Decimal.text k →
      Int64.ofInt (min (k : Int) (2 ^ 63 - 1)) =
        (if n.toInt < 0 then Int64.ofInt (2 ^ 63 - 1) else n) →
      Leads libc (reading state .none stack []) text stack
        [.value (.integer (if n.toInt < 0 then Int64.ofInt (2 ^ 63 - 1) else n))] := by
    rintro k hk rfl hvalue
    refine ⟨_, [], _, reads_number hstate hk, .of_scalar (.inr (.inr rfl)) ?_, rfl⟩
    rw [← hvalue, ← scanInteger_text hk]
    rfl
  rcases lt_trichotomy n.toInt 0 with hneg | hzero | hpos
  · obtain ⟨k, hk, rfl⟩ := integerText_of_neg hneg htext
    refine hlead k (by omega) rfl ?_
    rw [if_pos hneg]
    congr 1
    omega
  · exact absurd (Int64.toInt_inj.1 (hzero.trans Int64.toInt_zero.symm)) h0
  · rw [integerText_of_pos libm hpos] at htext
    refine hlead n.toInt.toNat (by omega) (Option.some.inj htext).symm ?_
    rw [if_neg (by omega), Int.toNat_of_nonneg hpos.le, min_eq_left, Int64.ofInt_toInt]
    have hmax := Int64.toInt_lt n
    omega

/-- **What the parser makes of a printed scalar.** -/
theorem leads_scalar (libc : Libc) (hstate : state = .va ∨ state = .ar)
    (hstack : stack.head? = some .array ∨ stack.head? = some .object) {value : Scalar}
    (hplain : value.Plain) {text : List UInt8} (htext : value.printed libm = some text) :
    match value.reread with
    | some value' => Leads libc (reading state .none stack []) text stack [.value value']
    | none => Rejects libc (reading state .none stack []) text := by
  cases value with
  | integer n => exact leads_integer libc stack hstate htext
  | float x => exact hplain.elim
  | true =>
    have hone : (Scalar.integer 1).printed libm = some text := htext
    have hlead := leads_integer libc stack hstate hone
    exact hlead
  | null =>
    obtain rfl : nullText = text := Option.some.inj htext
    exact ⟨_, [], _, reads_null hstate, .of_scalar (.inl rfl) rfl, rfl⟩
  | false =>
    obtain rfl : falseText = text := Option.some.inj htext
    exact ⟨_, [], _, reads_false hstate, .of_scalar (.inl rfl) rfl, rfl⟩
  | string s =>
    obtain rfl : 34 :: (escapeJsonString s ++ [34]) = text := Option.some.inj htext
    have hrow : stateTransitionTable state .quote = .act .sb := by
      rcases hstate with rfl | rfl <;> rfl
    by_cases h : 39 ∈ s
    · simp only [Scalar.reread, if_pos h]
      obtain ⟨s₁, s₂, rfl, hs₁⟩ := List.eq_append_cons_of_mem h
      have hplain₁ : ∀ c ∈ s₁, PlainByte c := fun c hc => hplain c (List.mem_append_left _ hc)
      have htext : (34 :: (escapeJsonString (s₁ ++ 39 :: s₂) ++ [34])) =
          [34] ++ (s₁ ++ ([92, 39] ++ (escapeJsonString s₂ ++ [34]))) := by
        rw [escapeJsonString_append, escapeJsonString_plain hplain₁ hs₁, escapeJsonString]
        simp
      rw [htext]
      exact (reads_quote hrow).rejects ((reads_plain hplain₁ []).rejects
        ((rejects_apostrophe _).append _))
    · simp only [Scalar.reread, if_neg h]
      rw [escapeJsonString_plain hplain h]
      exact ⟨_, _, [], reads_string hrow hstack hplain, .of_none libc stack, rfl⟩

/-! ## Members -/

/-- What `parse_parse_buffer` tells. -/
theorem parseParseBuffer_reading (state : States) (type : JsonType) (buffer : List UInt8) :
    parseParseBuffer libc (reading state type stack buffer) =
      ⟨true, reading state type stack [],
        (((reading state type stack buffer).scalar libc).map Event.value).toList, false⟩ := by
  unfold parseParseBuffer
  cases (reading state type stack buffer).scalar libc <;> rfl

theorem closing_reading (kind : Kind) (mode : Modes) (state : States) (type : JsonType)
    (buffer : List UInt8) (c : UInt8) :
    closing libc kind mode (reading state type (mode :: stack) (buffer ++ [c])) =
      ⟨true, reading .ok .none stack [],
        (((reading state type (mode :: stack) buffer).scalar libc).map Event.value).toList ++
          [.containerEnd kind], false⟩ := by
  have hemit : ∀ jc : Parser, jc.callback = true →
      emit (.containerEnd kind) jc = ⟨true, jc, [.containerEnd kind], false⟩ := by
    intro jc h
    rw [emit, h]
    rfl
  rw [closing, bufferPop_reading, parseParseBuffer_reading, Outcome.andThen_mk, hemit _ rfl,
    Outcome.andThen_mk, pop_reading, Outcome.andThen_mk]
  simp [proceed, reading]

theorem nextMember_reading (kind : Kind) (state : States) (type : JsonType)
    (hstack : stack.length ≤ 15) :
    ∃ state', kind.Starts state' ∧ nextMember (reading state type (kind.mode :: stack) []) =
      ⟨true, reading state' .none (kind.entryMode :: stack) [], [], false⟩ := by
  cases kind with
  | object =>
    refine ⟨.ke, .inr rfl, ?_⟩
    have hflip : ((pop .object (reading state type (.object :: stack) [])).andThen fun jc =>
        (push .key jc).andThen fun jc => proceed { jc with type := .none, state := .ke }) =
          ⟨true, reading .ke .none (.key :: stack) [], [], false⟩ := by
      rw [pop_reading, Outcome.andThen_mk, push_reading _ hstack, Outcome.andThen_mk]
      rfl
    exact hflip
  | array => exact ⟨.va, .inl rfl, rfl⟩

/-- The bracket behind the last member. -/
theorem reads_closer {kind : Kind} {jc : Parser} {es : List Event}
    (h : Pending libc jc (kind.mode :: stack) es) :
    Reads libc jc (closer kind.childType) (reading .ok .none stack [])
      (es ++ [.containerEnd kind]) := by
  obtain ⟨state, type, buffer, rfl, hstate, rfl⟩ := h
  cases kind with
  | object =>
    have hrow : stateTransitionTable state .rcurb = .act .m8 := by
      rcases hstate with rfl | rfl | rfl <;> rfl
    exact char_act (by decide) rfl (.inr (by simp)) hrow (closing_reading ..)
  | array =>
    have hrow : stateTransitionTable state .rsqrb = .act .m7 := by
      rcases hstate with rfl | rfl | rfl <;> rfl
    exact char_act (by decide) rfl (.inr (by simp)) hrow (closing_reading ..)

/-- A comma behind a value that is pending tells it and goes on in its container. -/
theorem reads_comma {kind : Kind} {jc : Parser} {es : List Event} (hstack : stack.length ≤ 15)
    (h : Pending libc jc (kind.mode :: stack) es) :
    ∃ state, kind.Starts state ∧
      Reads libc jc [44] (reading state .none (kind.entryMode :: stack) []) es := by
  obtain ⟨state, type, buffer, rfl, hstate, rfl⟩ := h
  have hrow : stateTransitionTable state .comma = .act .m3 := by
    rcases hstate with rfl | rfl | rfl <;> rfl
  obtain ⟨state', hstarts, hnext⟩ := nextMember_reading kind state type hstack
  refine ⟨state', hstarts, char_act (by decide) rfl (.inr (by simp)) hrow ?_⟩
  have hcomma : comma libc (reading state type (kind.mode :: stack) (buffer ++ [44])) =
      ⟨true, reading state' .none (kind.entryMode :: stack) [],
        (((reading state type (kind.mode :: stack) buffer).scalar libc).map Event.value).toList, false⟩ := by
    rw [comma, bufferPop_reading, parseParseBuffer_reading, Outcome.andThen_mk, hnext,
      List.append_nil]
  exact hcomma

/-- The key of a member, if it has one. -/
theorem reads_label (libc : Libc) {kind : Kind} (hstate : kind.Starts state) {label : kind.Label}
    (hplain : kind.PlainLabel label) (hstack : stack.length ≤ 15) :
    ∃ state', (state' = .va ∨ state' = .ar) ∧
      Reads libc (reading state .none (kind.entryMode :: stack) []) (keyText (kind.key label))
        (reading state' .none (kind.mode :: stack) []) (kind.labelEvents label) := by
  cases kind with
  | object =>
    have hrow : stateTransitionTable state .quote = .act .sb := by
      rcases hstate with rfl | rfl <;> rfl
    exact ⟨.va, .inl rfl, reads_key hrow (hplain label rfl) hstack⟩
  | array => exact ⟨state, hstate, .nil _⟩

/-- The bracket in front of the members of a container. -/
theorem reads_opener (libc : Libc) (inner : Kind) (hstate : state = .go ∨ state = .va ∨ state = .ar)
    (hstack : stack.length ≤ 15) :
    ∃ state', inner.Starts state' ∧
      Reads libc (reading state .none stack []) (opener inner.childType)
        (reading state' .none (inner.entryMode :: stack) []) [.containerBegin inner] := by
  have hopening : ∀ (kind : Kind) (mode : Modes) (state' : States) (c : UInt8),
      opening kind mode state' (reading state .none stack ([] ++ [c])) =
        ⟨true, reading state' .none (mode :: stack) [], [.containerBegin kind], false⟩ := by
    intro kind mode state' c
    have hemit : emit (.containerBegin kind) (reading state .none stack []) =
        ⟨true, reading state .none stack [], [.containerBegin kind], false⟩ := rfl
    rw [opening, bufferPop_reading, hemit, Outcome.andThen_mk, push_reading _ hstack,
      Outcome.andThen_mk]
    rfl
  cases inner with
  | object =>
    have hrow : stateTransitionTable state .lcurb = .act .m6 := by
      rcases hstate with rfl | rfl | rfl <;> rfl
    exact ⟨.ob, .inl rfl, char_act (by decide) rfl (.inr (by simp)) hrow (hopening ..)⟩
  | array =>
    have hrow : stateTransitionTable state .lsqrb = .act .m5 := by
      rcases hstate with rfl | rfl | rfl <;> rfl
    exact ⟨.ar, .inr rfl, char_act (by decide) rfl (.inr (by simp)) hrow (hopening ..)⟩

/-- The parser makes of the printed members what `reread` says. -/
def Members.Readable (libc : Libc) (libm : Libm) {kind : Kind} (m : Members kind) : Prop :=
  ∀ (state : States) (stack : List Modes) (text : List UInt8), kind.Starts state → m ≠ .nil →
    m.Plain → stack.length + m.depth ≤ 15 → m.printed libm = some text →
    match m.reread with
    | some m' => Reads libc (reading state .none (kind.entryMode :: stack) []) text
        (reading .ok .none stack []) (m'.events ++ [.containerEnd kind])
    | none => Rejects libc (reading state .none (kind.entryMode :: stack) []) text

/-- The members behind one that has been read. -/
theorem Members.Readable.behind {kind : Kind} {rest : Members kind} (h : rest.Readable libc libm)
    (hplain : rest.Plain) (hdepth : stack.length + rest.depth ≤ 15) {after : List UInt8}
    (hafter : rest.printed libm = some after) {jc : Parser} {text : List UInt8} {es : List Event}
    (hvalue : Leads libc jc text (kind.mode :: stack) es) :
    match rest.reread with
    | some rest' => Reads libc jc (text ++ (rest.separator ++ after)) (reading .ok .none stack [])
        (es ++ (rest'.events ++ [.containerEnd kind]))
    | none => Rejects libc jc (text ++ (rest.separator ++ after)) := by
  obtain ⟨jc', es₁, es₂, hreads, hpending, rfl⟩ := hvalue
  by_cases hnil : rest = .nil
  · subst hnil
    obtain rfl : [] = after := Option.some.inj hafter
    have hcloser := hreads.append (reads_closer hpending)
    simpa [Members.reread, Members.separator, Members.events] using hcloser
  · obtain ⟨state, hstarts, hcomma⟩ := reads_comma (by omega) hpending
    have hseparator : rest.separator = [44] := by
      cases rest with
      | nil => exact absurd rfl hnil
      | scalar label value rest => rfl
      | nest label inner members rest => rfl
    have hrest := h state stack after hstarts hnil hplain hdepth hafter
    rw [hseparator]
    cases hreread : rest.reread with
    | none =>
      rw [hreread] at hrest
      exact hreads.rejects (hcomma.rejects hrest)
    | some rest' =>
      rw [hreread] at hrest
      simpa using hreads.append (hcomma.append hrest)

/-- A container in the place of a value. -/
theorem leads_boxed (stack : List Modes) {inner : Kind} {m : Members inner} (h : m.Readable libc libm)
    (hstate : state = .va ∨ state = .ar) (hplain : m.Plain)
    (hdepth : stack.length + m.depth ≤ 15) (hstack : stack.length ≤ 15) {text : List UInt8}
    (htext : m.printed libm = some text) :
    match m.reread with
    | some inside => Leads libc (reading state .none stack []) (m.boxed text) stack (m.boxEvents inside)
    | none => Rejects libc (reading state .none stack []) (m.boxed text) := by
  by_cases hnil : m = .nil
  · subst hnil
    exact ⟨_, [], _, reads_zero hstate, .of_scalar (.inr (.inl rfl)) rfl, rfl⟩
  · obtain ⟨state', hstarts, hopener⟩ := reads_opener libc inner (.inr hstate) hstack
    have hinside := h state' stack text hstarts hnil hplain hdepth htext
    have hboxed : m.boxed text = opener inner.childType ++ text := by
      cases m with
      | nil => exact absurd rfl hnil
      | scalar label value rest => rfl
      | nest label inner members rest => rfl
    have hevents : ∀ inside, m.boxEvents inside =
        [.containerBegin inner] ++ (inside.events ++ [.containerEnd inner]) := by
      intro inside
      cases m with
      | nil => exact absurd rfl hnil
      | scalar label value rest => rfl
      | nest label inner members rest => rfl
    rw [hboxed]
    cases hreread : m.reread with
    | none =>
      rw [hreread] at hinside
      exact hopener.rejects hinside
    | some inside =>
      rw [hreread] at hinside
      refine ⟨_, _, [], hopener.append hinside, .of_none libc stack, ?_⟩
      rw [hevents, List.append_nil]

/-- **What the parser makes of printed members.** -/
theorem readable_members (libc : Libc) (libm : Libm) {kind : Kind} (m : Members kind) :
    m.Readable libc libm := by
  have hmode : ∀ (kind : Kind) (stack : List Modes), (kind.mode :: stack).head? = some .array ∨
      (kind.mode :: stack).head? = some .object := by
    intro kind stack
    cases kind with
    | object => exact .inr rfl
    | array => exact .inl rfl
  induction m with
  | nil =>
    intro state stack text _ hnil
    exact absurd rfl hnil
  | @scalar kind label value rest ih =>
    intro state stack text hstate _ hplain hdepth htext
    obtain ⟨hlabel, hvalue, hrest⟩ := hplain
    simp only [Members.depth] at hdepth
    obtain ⟨shown, hshown, htext⟩ := Option.bind_eq_some_iff.1 htext
    obtain ⟨after, hafter, htext⟩ := Option.bind_eq_some_iff.1 htext
    obtain rfl := Option.some.inj htext
    obtain ⟨state', hstate', hkey⟩ := reads_label libc hstate hlabel
      (show stack.length ≤ 15 by omega)
    have hscalar := leads_scalar libc hstate' (hmode kind stack) hvalue hshown
    rw [List.append_assoc, List.append_assoc]
    cases hreread : value.reread with
    | none =>
      rw [hreread] at hscalar
      simp only [Members.reread, hreread]
      exact hkey.rejects (hscalar.append _)
    | some value' =>
      rw [hreread] at hscalar
      have hbehind := ih.behind hrest hdepth hafter hscalar
      cases hrestRead : rest.reread with
      | none =>
        rw [hrestRead] at hbehind
        simp only [Members.reread, hreread, hrestRead]
        exact hkey.rejects hbehind
      | some rest' =>
        rw [hrestRead] at hbehind
        simp only [Members.reread, hreread, hrestRead]
        simpa [Members.events] using hkey.append hbehind
  | @nest kind label inner members rest ihm ihr =>
    intro state stack text hstate _ hplain hdepth htext
    obtain ⟨hlabel, hmembers, hrest⟩ := hplain
    simp only [Members.depth] at hdepth
    obtain ⟨inside, hinside, htext⟩ := Option.bind_eq_some_iff.1 htext
    obtain ⟨after, hafter, htext⟩ := Option.bind_eq_some_iff.1 htext
    obtain rfl := Option.some.inj htext
    obtain ⟨state', hstate', hkey⟩ := reads_label libc hstate hlabel
      (show stack.length ≤ 15 by omega)
    have hbox := leads_boxed (kind.mode :: stack) ihm hstate' hmembers
      (by rw [List.length_cons]; omega) (by rw [List.length_cons]; omega) hinside
    rw [List.append_assoc, List.append_assoc]
    cases hreread : members.reread with
    | none =>
      rw [hreread] at hbox
      simp only [Members.reread, hreread]
      exact hkey.rejects (hbox.append _)
    | some members' =>
      rw [hreread] at hbox
      have hbehind := ihr.behind hrest (by omega) hafter hbox
      cases hrestRead : rest.reread with
      | none =>
        rw [hrestRead] at hbehind
        simp only [Members.reread, hreread, hrestRead]
        exact hkey.rejects hbehind
      | some rest' =>
        rw [hrestRead] at hbehind
        simp only [Members.reread, hreread, hrestRead]
        simpa [Members.events_rebox] using hkey.append hbehind

end Values

/-! ## The document that comes back -/

/-- A text that is taken to its end. -/
theorem initJsonParser_reads {libc : Libc} {text : List UInt8} {es : List Event}
    (h : Reads libc (reading .go .none [.done] []) text (reading .ok .none [.done] []) es) :
    initJsonParser libc text = build es := by
  have hfeed : feed libc (codes text) (newParser true 15 false) =
      ⟨true, reading .ok .none [.done] [], es, false⟩ := h.2
  have hdone : jsonParserDone (reading .ok .none [.done] []) =
      ⟨true, reading .ok .none [] [], [], false⟩ := rfl
  unfold initJsonParser
  simp only [chars_of_ascii h.1, hfeed, Outcome.andThen_mk, hdone, List.append_nil, if_true]

/-- A text with a character that is refused. -/
theorem initJsonParser_rejects {libc : Libc} {text : List UInt8}
    (h : Rejects libc (reading .go .none [.done] []) text) : initJsonParser libc text = none := by
  obtain ⟨a, b, rfl, hascii, hfeed⟩ := h
  have hrefused : (feed libc (codes a) (newParser true 15 false)).ok = false := hfeed
  have hall : ((feed libc (chars (a ++ b)) (newParser true 15 false)).andThen
      jsonParserDone).ok = false := by
    rw [chars_append hascii, feed_append, Outcome.andThen_assoc, Outcome.andThen,
      if_neg (by simp [hrefused])]
    exact hrefused
  unfold initJsonParser
  simp only [hall]
  rfl

/-- A document without members is printed as `0`, which is no document. -/
theorem initJsonParser_zero (libc : Libc) : initJsonParser libc [48] = none :=
  initJsonParser_rejects ⟨[48], [], rfl, by decide, rfl⟩

/-- What `init_json_parser` makes of the text of a document with members. -/
theorem initJsonParser_boxed (libc : Libc) (libm : Libm) {kind : Kind} {m : Members kind}
    (hne : m ≠ .nil) (hplain : m.Plain) (hdepth : 1 + m.depth ≤ 15) {text : List UInt8}
    (htext : m.printed libm = some text) :
    initJsonParser libc (m.boxed text) = m.reread.bind fun m' => build (documentEvents m') := by
  have hboxed : m.boxed text = opener kind.childType ++ text := by
    cases m with
    | nil => exact absurd rfl hne
    | scalar label value rest => rfl
    | nest label inner members rest => rfl
  obtain ⟨state, hstarts, hopener⟩ : ∃ state, kind.Starts state ∧
      Reads libc (reading .go .none [.done] []) (opener kind.childType)
        (reading state .none [kind.entryMode, .done] []) [.containerBegin kind] :=
    reads_opener libc kind (.inl rfl) (by simp)
  have hinside := readable_members libc libm m state [.done] text hstarts hne hplain hdepth htext
  rw [hboxed]
  cases hreread : m.reread with
  | none =>
    rw [hreread] at hinside
    exact initJsonParser_rejects (hopener.rejects hinside)
  | some m' =>
    rw [hreread] at hinside
    exact initJsonParser_reads (hopener.append hinside)

/-! ## A tree mirrors one document -/

theorem Kind.childType_inj {k k' : Kind} (h : k.childType = k'.childType) : k = k' := by
  cases k <;> cases k' <;> first | rfl | exact absurd h (by decide)

theorem Kind.key_inj {kind : Kind} {a b : kind.Label} (h : kind.key a = kind.key b) : a = b := by
  cases kind with
  | object => exact Option.some.inj h
  | array => rfl

/-- The type of an item and the field that goes with it tell the scalar. -/
theorem scalarItem_inj {f f' : Nat} {key key' : Option (List UInt8)} {v v' : Scalar}
    {next next' : Option Nat} (h : scalarItem f key v next = scalarItem f' key' v' next') :
    key = key' ∧ v = v' ∧ next = next' := by
  cases v <;> cases v' <;> simp_all [scalarItem, Item.setValue, Scalar.type]

theorem scalarItem_ne_containerItem {f : Nat} {f' : Option Nat} {key key' : Option (List UInt8)}
    {v : Scalar} {next child next' : Option Nat} {k : Kind} :
    scalarItem f key v next ≠ containerItem f' key' k child next' := by
  intro h
  have htype := congrArg Item.type h
  cases v <;> exact absurd htype (by simp [scalarItem, Item.setValue, containerItem])

/-- Items spell out at most one list of members. -/
theorem Members.Mirrored.unique {items : List Item} {father : Nat} {kind : Kind}
    {m m' : Members kind} {p : Option Nat} (h : m.Mirrored items father p)
    (h' : m'.Mirrored items father p) : m = m' := by
  induction m generalizing father p with
  | nil => exact (h'.eq_none_iff.1 h).symm
  | @scalar kind label value rest ih =>
    obtain ⟨i, next, rfl, hit, hrest⟩ := h
    cases m' with
    | nil => exact absurd h' (by simp [Members.Mirrored])
    | scalar label' value' rest' =>
      obtain ⟨i', next', hi, hit', hrest'⟩ := h'
      obtain rfl := Option.some.inj hi
      obtain ⟨hkey, rfl, rfl⟩ := scalarItem_inj (Option.some.inj (hit.symm.trans hit'))
      obtain rfl := Kind.key_inj hkey
      rw [ih hrest hrest']
    | nest label' inner' members' rest' =>
      obtain ⟨i', child', next', hi, hit', -⟩ := h'
      obtain rfl := Option.some.inj hi
      exact absurd (Option.some.inj (hit.symm.trans hit')) scalarItem_ne_containerItem
  | @nest kind label inner members rest ihm ihr =>
    obtain ⟨i, child, next, rfl, hit, hmembers, hrest⟩ := h
    cases m' with
    | nil => exact absurd h' (by simp [Members.Mirrored])
    | scalar label' value' rest' =>
      obtain ⟨i', next', hi, hit', -⟩ := h'
      obtain rfl := Option.some.inj hi
      exact absurd (Option.some.inj (hit'.symm.trans hit)) scalarItem_ne_containerItem
    | nest label' inner' members' rest' =>
      obtain ⟨i', child', next', hi, hit', hmembers', hrest'⟩ := h'
      obtain rfl := Option.some.inj hi
      have hitem := Option.some.inj (hit.symm.trans hit')
      obtain rfl := Kind.childType_inj (congrArg Item.childType hitem)
      obtain rfl := Kind.key_inj (congrArg Item.key hitem)
      obtain rfl : child = child' := congrArg Item.child hitem
      obtain rfl : next = next' := congrArg Item.next hitem
      rw [ihm hmembers hmembers', ihr hrest hrest']

/-- A tree mirrors at most one document. -/
theorem Mirrors.unique {s : Context} {kind : Kind} {m m' : Members kind} (h : Mirrors s m)
    (h' : Mirrors s m') : m = m' := by
  obtain ⟨i, child, hhead, hroot, hm⟩ := h
  obtain ⟨i', child', hhead', hroot', hm'⟩ := h'
  obtain rfl : i = i' := Option.some.inj (hhead.symm.trans hhead')
  have hitem := Option.some.inj (hroot.symm.trans hroot')
  obtain rfl : child = child' := congrArg Item.child hitem
  exact hm.unique hm'

/-- A scalar that comes back as it is. -/
def Scalar.Faithful : Scalar → Prop
  | .integer n => 0 ≤ n.toInt
  | .true => False
  | .string s => 39 ∉ s
  | .null | .false | .float _ => True

/-- Members that come back as they are: no `true`, no negative number, no empty container, and no
apostrophe in a value. -/
def Members.Faithful : {kind : Kind} → Members kind → Prop
  | _, .nil => True
  | _, .scalar _ value rest => value.Faithful ∧ rest.Faithful
  | _, .nest _ _ members rest => members ≠ .nil ∧ members.Faithful ∧ rest.Faithful

theorem Scalar.reread_eq_iff (value : Scalar) : value.reread = some value ↔ value.Faithful := by
  cases value with
  | integer n =>
    simp only [Scalar.reread, Scalar.Faithful, Option.some.injEq, Scalar.integer.injEq]
    by_cases hneg : n.toInt < 0
    · rw [if_pos hneg]
      refine iff_of_false ?_ (by omega)
      intro hmax
      rw [← hmax] at hneg
      exact absurd hneg (by decide)
    · rw [if_neg hneg]
      exact iff_of_true rfl (by omega)
  | float x => exact iff_of_true rfl trivial
  | null => exact iff_of_true rfl trivial
  | true => exact iff_of_false (by simp [Scalar.reread]) id
  | false => exact iff_of_true rfl trivial
  | string s => simp [Scalar.reread, Scalar.Faithful]

theorem Members.reread_eq_iff {kind : Kind} (m : Members kind) :
    m.reread = some m ↔ m.Faithful := by
  induction m with
  | nil => exact iff_of_true rfl trivial
  | scalar label value rest ih =>
    rw [Members.Faithful, ← value.reread_eq_iff, ← ih]
    constructor
    · intro h
      obtain ⟨value', hvalue, h⟩ := Option.bind_eq_some_iff.1 h
      obtain ⟨rest', hrest, h⟩ := Option.bind_eq_some_iff.1 h
      simp only [Option.some.injEq, Members.scalar.injEq, true_and] at h
      rw [hvalue, hrest, h.1, h.2]
      exact ⟨rfl, rfl⟩
    · rintro ⟨hvalue, hrest⟩
      simp only [Members.reread, hvalue, hrest]
      rfl
  | nest label inner members rest ihm ihr =>
    rw [Members.Faithful, ← ihm, ← ihr]
    constructor
    · intro h
      obtain ⟨members', hmembers, h⟩ := Option.bind_eq_some_iff.1 h
      obtain ⟨rest', hrest, h⟩ := Option.bind_eq_some_iff.1 h
      have hne : members ≠ .nil := by
        rintro rfl
        exact absurd h (by simp [Members.rebox])
      rw [Members.rebox_of_ne_nil hne] at h
      simp only [Option.some.injEq, Members.nest.injEq, heq_eq_eq, true_and] at h
      rw [hmembers, hrest, h.1, h.2]
      exact ⟨hne, rfl, rfl⟩
    · rintro ⟨hne, hmembers, hrest⟩
      simp only [Members.reread, hmembers, hrest]
      exact congrArg some (Members.rebox_of_ne_nil hne ..)

/-- Faithful scalars are printed. -/
theorem Scalar.Faithful.printed {value : Scalar} (h : value.Faithful) (hplain : value.Plain)
    (libm : Libm) : ∃ text, value.printed libm = some text := by
  cases value with
  | integer n =>
    rw [printed_integer]
    by_cases h0 : n = 0
    · exact ⟨[48], if_pos h0⟩
    · have hpos : 0 < n.toInt := by
        have hne : n.toInt ≠ 0 := fun hzero =>
          h0 (Int64.toInt_inj.1 (hzero.trans Int64.toInt_zero.symm))
        have hnonneg : 0 ≤ n.toInt := h
        omega
      exact ⟨_, (if_neg h0).trans (integerText_of_pos libm hpos)⟩
  | float x => exact hplain.elim
  | null => exact ⟨nullText, rfl⟩
  | true => exact h.elim
  | false => exact ⟨falseText, rfl⟩
  | string s => exact ⟨_, rfl⟩

/-- Faithful members are printed. -/
theorem Members.Faithful.printed {kind : Kind} {m : Members kind} (h : m.Faithful)
    (hplain : m.Plain) (libm : Libm) : ∃ text, m.printed libm = some text := by
  induction m with
  | nil => exact ⟨[], rfl⟩
  | scalar label value rest ih =>
    obtain ⟨text, htext⟩ := h.1.printed hplain.2.1 libm
    obtain ⟨after, hafter⟩ := ih h.2 hplain.2.2
    simp only [Members.printed, htext, hafter]
    exact ⟨_, rfl⟩
  | nest label inner members rest ihm ihr =>
    obtain ⟨inside, hinside⟩ := ihm h.2.1 hplain.2.1
    obtain ⟨after, hafter⟩ := ihr h.2.2 hplain.2.2
    simp only [Members.printed, hinside, hafter]
    exact ⟨_, rfl⟩

/-- A C library with an exact logarithm, and without floats. -/
def exactLibm : Libm :=
  ⟨Nat.log 10, fun _ => [], fun n => Nat.lt_pow_succ_log_self (by norm_num) n, fun n => Nat.le_succ _⟩

/-- A C library without floats. -/
def plainLibc : Libc := ⟨fun _ => 0, 46⟩

end Ape.Json

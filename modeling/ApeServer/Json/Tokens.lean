import ApeServer.Json.Unicode

/-!
# White space and strings

* `finishes_blank` — white space between tokens is skipped;
* `finishes_escape`, `finishes_point`, `finishes_surrogates` — the escapes in a string;
* `Inside.finishes`, `quoted_of_finishes` — **the inside of a string**.
-/

namespace Ape.Json

section Tokens

variable {libc : Libc} {state : States} {type : JsonType} {kind : Kind} {stack : List Modes}
  {buffer : List UInt8} {c : UInt8} {t ws : List UInt8} {es : List Event}

/-! ## White space -/

/-- The states between tokens. -/
def Between (state : States) : Prop :=
  state = .go ∨ state = .ok ∨ state = .ob ∨ state = .ke ∨ state = .co ∨ state = .va ∨ state = .ar

/-- A blank between tokens leaves the state as it is. -/
theorem cellAt_blank (h : Between state) (hc : IsBlank c) : cellAt state c = .goto state := by
  rcases h with rfl | rfl | rfl | rfl | rfl | rfl | rfl <;> rcases hc with rfl | rfl | rfl | rfl <;> rfl

/-- **White space** between tokens is skipped. -/
theorem finishes_blank (h : Between state) (hws : Blank ws) :
    Finishes libc (reading state .none stack buffer) (ws ++ t) es ↔
      Finishes libc (reading state .none stack buffer) t es := by
  induction ws with
  | nil => exact Iff.rfl
  | cons c ws ih =>
    have hc := hws c List.mem_cons_self
    rw [List.cons_append, finishes_goto (cellAt_blank h hc), kept_blank hc]
    exact ih fun x hx => hws x (List.mem_cons_of_mem c hx)

/-- The white space in front of a text. -/
theorem blank_span (t : List UInt8) : ∃ ws r, t = ws ++ r ∧ Blank ws ∧
    ∀ c r', r = c :: r' → ¬ IsBlank c := by
  refine ⟨t.takeWhile (IsBlank ·), t.dropWhile (IsBlank ·), List.takeWhile_append_dropWhile.symm,
    fun c hc => ?_, fun c r' hr => ?_⟩
  · simpa using List.mem_takeWhile_imp hc
  · have hhead := List.head?_dropWhile_not (fun c => decide (IsBlank c)) t
    rw [hr] at hhead
    simpa using hhead

/-! ## Strings -/

/-- A byte of a string that is no quote and no backslash stands for itself. -/
theorem cellAt_plain (hlow : 32 ≤ c.toNat) (hquote : c ≠ 34) (hbackslash : c ≠ 92) :
    cellAt .st c = .goto .st := by
  have hall : ∀ c : UInt8, 32 ≤ c.toNat → c ≠ 34 → c ≠ 92 → cellAt .st c = .goto .st :=
    CString.forall_byte (by decide) (by decide)
  exact hall c hlow hquote hbackslash

/-- No byte below a blank is taken in a string. -/
theorem cellAt_string (h : cellAt .st c ≠ .xx) :
    32 ≤ c.toNat := by
  have hall : ∀ c : UInt8, cellAt .st c ≠ .xx → 32 ≤ c.toNat :=
    CString.forall_byte (by decide) (by decide)
  exact hall c h

/-- The parser behind a backslash in a string. -/
def escaping (stack : List Modes) (buffer : List UInt8) : Parser :=
  { reading .es .string stack (buffer ++ [92]) with escaped := true }

/-- A backslash in a string begins an escape. -/
theorem finishes_backslash : Finishes libc (reading .st .string stack buffer) (92 :: t) es ↔
    Finishes libc (escaping stack buffer) t es := by
  have hcell : cellAt .st 92 = .act .ex := by decide
  rw [finishes_act hcell, kept_solid (by decide)]
  exact Outcome.leads_proceed

/-- An escape of two characters stands for its byte. -/
theorem finishes_escape {x b : UInt8} (h : (x, b) ∈ escapes) :
    Finishes libc (reading .st .string stack buffer) (92 :: x :: t) es ↔
      Finishes libc (reading .st .string stack (buffer ++ [b])) t es := by
  have hrow : ∀ p ∈ escapes, (p.1 ≠ 0 ∧ p.1.toNat < 128) ∧ p.1.toNat ≠ 117 ∧
      unescape p.1.toNat = some p.2 ∧ cellAt .es p.1 = .goto .st := by
    intro p hp
    simp only [escapes, List.mem_cons, List.not_mem_nil, or_false] at hp
    rcases hp with rfl | rfl | rfl | rfl | rfl | rfl | rfl | rfl <;> decide
  obtain ⟨hascii, hu, hescape, hcell⟩ := hrow _ h
  obtain ⟨k, hk, ht⟩ := cellAt_class hcell (by simp)
  have hreads : Reads libc (reading .st .string stack buffer) [92, x]
      (reading .st .string stack (buffer ++ [b])) [] := reads_escape hascii hu hescape hk ht buffer
  exact hreads.finishes.trans (by simp)

/-- Which characters may stand behind a backslash. -/
theorem escape_of_finishes (h : Finishes libc (escaping stack buffer) t es) :
    ∃ x r, t = x :: r ∧ (x = 117 ∨ ∃ b, (x, b) ∈ escapes) := by
  cases t with
  | nil => cases (finishes_nil.1 h).1 <;> contradiction
  | cons x r =>
    refine ⟨x, r, rfl, ?_⟩
    have hall : ∀ x : UInt8, x = 117 ∨ unescape x.toNat = none ∨
        ∃ p ∈ escapes, x = p.1 := CString.forall_byte (by decide) (by decide)
    rcases hall x with hu | hnone | ⟨⟨y, b⟩, hp, rfl⟩
    · exact .inl hu
    · by_cases hu : x = 117
      · exact .inl hu
      · have hneg : ¬ (x.toNat : Int) < 0 := by omega
        have hcode : ¬ (x.toNat : Int) = 117 := by
          intro hx
          exact hu (UInt8.toNat_inj.1 (by exact_mod_cast hx))
        rw [finishes_cons, jsonParserChar, if_neg hneg] at h
        cases hk : classOf x.toNat with
        | none =>
          rw [hk] at h
          exact absurd h (Outcome.not_leads rfl)
        | some k =>
          have hescaped : (escaping stack buffer).escaped = true := rfl
          have hadd : (addChar x.toNat k (escaping stack buffer)).ok = false := by
            unfold addChar addEscapedChar
            rw [if_pos hescaped, if_neg hcode, hnone]
            rfl
          rw [hk] at h
          dsimp only at h
          rw [Outcome.andThen_refused hadd] at h
          exact absurd h (Outcome.not_leads hadd)
    · exact .inr ⟨b, hp⟩

/-- A `\u` in a string begins an escaped code unit. -/
theorem finishes_unicode : Finishes libc (reading .st .string stack buffer) (92 :: 117 :: t) es ↔
    Finishes libc (unit 0 .u1 stack (buffer ++ [92, 117])) t es := by
  have hreads : Reads libc (escaping stack buffer) [117] (unit 0 .u1 stack (buffer ++ [92, 117])) [] := by
    refine .char (by decide) ?_
    have hpop : { escaping stack buffer with escaped := false }.bufferPop =
        reading .es .string stack buffer := bufferPop_reading 92
    have hadd : addChar (117 : UInt8).toNat .lowU (escaping stack buffer) =
        proceed (unit 0 .es stack (buffer ++ [92, 117])) := by
      have hescaped : (escaping stack buffer).escaped = true := rfl
      have hbuffer : buffer ++ [92, 117] = buffer ++ [92] ++ [117] := by simp
      rw [addChar, if_pos hescaped, addEscapedChar, hpop, if_pos (by decide), hbuffer]
      rfl
    have hclass : classOf (117 : UInt8).toNat = some .lowU := by decide
    have hneg : ¬ ((117 : UInt8).toNat : Int) < 0 := by decide
    rw [jsonParserChar, if_neg hneg, hclass]
    simp only [hadd, proceed, Outcome.andThen_mk]
    rfl
  rw [finishes_backslash]
  exact hreads.finishes.trans (by simp)

/-- **An escaped code point** is written in UTF-8. -/
theorem finishes_point {c : Char} {ds : List UInt8} (h : CodeUnit ds c.toNat) :
    Finishes libc (reading .st .string stack buffer) (92 :: 117 :: (ds ++ t)) es ↔
      Finishes libc (reading .st .string stack (buffer ++ String.utf8EncodeChar c)) t es := by
  have hlt := (h.taken buffer).2.1
  have hpoint : c.toNat < 0xD800 ∨ 0xDFFF < c.toNat := by
    rcases c.valid with hlow | hhigh
    · exact .inl hlow
    · exact .inr hhigh.1
  have hutf8 : encodeUtf8 c.toNat (if c.toNat < 0x80 then 0 else if c.toNat < 0x800 then 1 else 2) =
      String.utf8EncodeChar c := by
    rw [← encodeUtf8_eq c, if_pos (show c.toNat < 0x10000 from hlt)]
  rw [finishes_unicode, finishes_units h, act, List.append_assoc, List.cons_append, List.cons_append,
    List.nil_append, decode_first h, if_pos hpoint, hutf8, proceed, Outcome.leads_andThen]
  simp only [List.nil_append, exists_eq_left']
  exact Outcome.leads_proceed

/-- The first of two surrogates waits for the second. -/
theorem finishes_high {ds : List UInt8} {high : Nat} (h : CodeUnit ds (0xD800 + high))
    (hhigh : high < 0x400) :
    Finishes libc (reading .st .string stack buffer) (92 :: 117 :: (ds ++ t)) es ↔
      Finishes libc (unit (0xD800 + high) .d1 stack buffer) t es := by
  have hstate : (if (0xD800 + high) ≠ 0 then States.d1 else .st) = .d1 := if_pos (by omega)
  have hnext : (decodeUnicodeChar (unit 0 .u4 stack (buffer ++ 92 :: 117 :: ds))).andThen
      (fun jc => proceed { jc with state := if jc.utf16HighSurrogate ≠ 0 then .d1 else .st }) =
        proceed (unit (0xD800 + high) .d1 stack buffer) := by
    rw [decode_first h, if_neg (by omega), if_pos (by omega), proceed, Outcome.andThen_mk]
    have hwaits : (unit (0xD800 + high) .u4 stack buffer).utf16HighSurrogate = 0xD800 + high := rfl
    simp only [hwaits, hstate]
    rfl
  rw [finishes_unicode, finishes_units h, act, List.append_assoc, List.cons_append, List.cons_append,
    List.nil_append, hnext]
  exact Outcome.leads_proceed

/-- Between the two units of a surrogate pair there has to be a `\u`. -/
theorem finishes_between {high : Nat} : Finishes libc (unit high .d1 stack buffer) (92 :: 117 :: t) es ↔
    Finishes libc (unit high .u1 stack (buffer ++ [92, 117])) t es := by
  have hfirst : cellAt .d1 92 = .goto .d2 := by decide
  have hsecond : cellAt .d2 117 = .goto .u1 := by decide
  rw [finishes_unit_goto hfirst, finishes_unit_goto hsecond, List.append_assoc]
  exact Iff.rfl

/-- The second unit of a surrogate pair has to be a low one, and the character is written in UTF-8. -/
theorem finishes_low {ds : List UInt8} {high u : Nat} (h : CodeUnit ds u) (hhigh : high < 0x400) :
    Finishes libc (unit (0xD800 + high) .u1 stack (buffer ++ [92, 117])) (ds ++ t) es ↔
      (0xDC00 ≤ u ∧ u < 0xE000) ∧ Finishes libc (reading .st .string stack
        (buffer ++ encodeUtf8 (0x10000 + (high * 0x400 + (u - 0xDC00))) 3)) t es := by
  rw [finishes_units h, act, List.append_assoc, List.cons_append, List.cons_append, List.nil_append,
    decode_second h hhigh]
  by_cases hlow : 0xDC00 ≤ u ∧ u < 0xE000
  · rw [if_pos hlow, proceed, Outcome.leads_andThen]
    simp only [List.nil_append, exists_eq_left', hlow, and_self, true_and]
    exact Outcome.leads_proceed
  · rw [if_neg hlow]
    exact iff_of_false (Outcome.not_leads rfl) fun hboth => hlow hboth.1

/-- **Two surrogates** stand for one code point. -/
theorem finishes_surrogates {c : Char} {hs ls : List UInt8} {high low : Nat}
    (hfirst : CodeUnit hs (0xD800 + high)) (hsecond : CodeUnit ls (0xDC00 + low))
    (hranges : high < 0x400 ∧ low < 0x400) (hpoint : c.toNat = 0x10000 + (high * 0x400 + low)) :
    Finishes libc (reading .st .string stack buffer)
        (92 :: 117 :: (hs ++ 92 :: 117 :: (ls ++ t))) es ↔
      Finishes libc (reading .st .string stack (buffer ++ String.utf8EncodeChar c)) t es := by
  have hutf8 : encodeUtf8 c.toNat 3 = String.utf8EncodeChar c := by
    rw [← encodeUtf8_eq c, if_neg (by omega), if_neg (by omega), if_neg (by omega)]
  have hrange : 0xDC00 ≤ 0xDC00 + low ∧ 0xDC00 + low < 0xE000 := by omega
  rw [finishes_high hfirst hranges.1, finishes_between, finishes_low hsecond hranges.1,
    Nat.add_sub_cancel_left, ← hpoint, hutf8]
  simp only [hrange, and_self, true_and]

/-- **The inside of a string** is read as the bytes it stands for. -/
theorem Inside.finishes {i s : List UInt8} (h : Inside i s) (buffer : List UInt8) :
    Finishes libc (reading .st .string stack buffer) (i ++ t) es ↔
      Finishes libc (reading .st .string stack (buffer ++ s)) t es := by
  induction h generalizing buffer with
  | nil => rw [List.nil_append, List.append_nil]
  | @plain c i s hlow hquote hbackslash _ ih =>
    rw [List.cons_append, finishes_goto (cellAt_plain hlow hquote hbackslash), kept_typed (by simp), ih,
      List.append_assoc]
    rfl
  | @escape x b i s hpair _ ih =>
    rw [List.cons_append, List.cons_append, finishes_escape hpair, ih, List.append_assoc]
    rfl
  | @unicode c ds i s hunit _ ih =>
    rw [List.cons_append, List.cons_append, List.append_assoc, finishes_point hunit, ih,
      List.append_assoc]
  | @surrogates c hs ls i s high low hfirst hsecond hranges hpoint _ ih =>
    rw [List.cons_append, List.cons_append, List.append_assoc, List.cons_append, List.cons_append,
      List.append_assoc, finishes_surrogates hfirst hsecond hranges hpoint, ih, List.append_assoc]

/-- The text goes on with the inside of a string and a quote. -/
def Quoted (libc : Libc) (stack : List Modes) (buffer t : List UInt8) (es : List Event) : Prop :=
  ∃ i s r, t = i ++ 34 :: r ∧ Inside i s ∧
    Finishes libc (reading .st .string stack (buffer ++ s)) (34 :: r) es

/-- What is read in front of a quoted text stays in front of what it stands for. -/
theorem Quoted.extend {a b : List UInt8} (hinside : ∀ i s, Inside i s → Inside (a ++ i) (b ++ s))
    (h : Quoted libc stack (buffer ++ b) t es) : Quoted libc stack buffer (a ++ t) es := by
  obtain ⟨i, s, r, rfl, hi, hrest⟩ := h
  refine ⟨a ++ i, b ++ s, r, (List.append_assoc ..).symm, hinside i s hi, ?_⟩
  rwa [← List.append_assoc]

/-- A code point that is no surrogate. -/
theorem exists_char {u : Nat} (h : u < 0xD800 ∨ 0xDFFF < u ∧ u < 0x110000) :
    ∃ c : Char, c.toNat = u := ⟨Char.ofNatAux u h, rfl⟩

/-- What has to follow the first surrogate. -/
theorem between_of_finishes {high : Nat} (h : Finishes libc (unit high .d1 stack buffer) t es) :
    ∃ r, t = 92 :: 117 :: r := by
  have hfirst : ∀ c : UInt8, cellAt .d1 c = .xx ∨ c = 92 :=
    CString.forall_byte (by decide) (by decide)
  have hsecond : ∀ c : UInt8, cellAt .d2 c = .xx ∨ c = 117 :=
    CString.forall_byte (by decide) (by decide)
  cases t with
  | nil => rcases (finishes_nil.1 h).1 with hend | hend <;> cases hend
  | cons c t =>
    rcases hfirst c with hxx | rfl
    · exact absurd h (not_finishes_xx rfl rfl hxx)
    · rw [finishes_unit_goto (show cellAt .d1 92 = .goto .d2 by decide)] at h
      cases t with
      | nil => rcases (finishes_nil.1 h).1 with hend | hend <;> cases hend
      | cons c t =>
        rcases hsecond c with hxx | rfl
        · exact absurd h (not_finishes_xx rfl rfl hxx)
        · exact ⟨t, rfl⟩

/-- **A string has to end**, and its inside is one. -/
theorem quoted_of_finishes (h : Finishes libc (reading .st .string stack buffer) t es) :
    Quoted libc stack buffer t es := by
  induction hlen : t.length using Nat.strongRecOn generalizing t buffer with
  | ind n ih =>
    subst hlen
    cases t with
    | nil => rcases (finishes_nil.1 h).1 with hend | hend <;> cases hend
    | cons c t =>
      by_cases hquote : c = 34
      · subst hquote
        refine ⟨[], [], t, rfl, .nil, ?_⟩
        rwa [List.append_nil]
      by_cases hbackslash : c = 92
      · subst hbackslash
        obtain ⟨x, r, rfl, hx⟩ := escape_of_finishes (finishes_backslash.1 h)
        rcases hx with rfl | ⟨b, hpair⟩
        · obtain ⟨ds, u, r, rfl, hunit⟩ := units_of_finishes (finishes_unicode.1 h)
          obtain ⟨hds, hlt, -⟩ := hunit.taken []
          by_cases hpoint : u < 0xD800 ∨ 0xDFFF < u
          · -- a code point of the first plane
            obtain ⟨c, rfl⟩ := exists_char (show u < 0xD800 ∨ 0xDFFF < u ∧ u < 0x110000 by omega)
            have hrest := ih r.length (by simp; omega) ((finishes_point hunit).1 h) rfl
            have hall := hrest.extend (a := 92 :: 117 :: ds) fun i s hi => by
              simpa using Inside.unicode hunit hi
            simpa using hall
          · by_cases hhigh : u < 0xDC00
            · -- the first surrogate, and the second one
              obtain ⟨high, rfl⟩ : ∃ high, u = 0xD800 + high := ⟨u - 0xD800, by omega⟩
              have hrange : high < 0x400 := by omega
              have hnext := (finishes_high hunit hrange).1 h
              obtain ⟨r, rfl⟩ := between_of_finishes hnext
              have hsecond := finishes_between.1 hnext
              obtain ⟨ls, l, r, rfl, hlow⟩ := units_of_finishes hsecond
              obtain ⟨hlows, hrest⟩ := (finishes_low hlow hrange).1 hsecond
              obtain ⟨low, rfl⟩ : ∃ low, l = 0xDC00 + low := ⟨l - 0xDC00, by omega⟩
              obtain ⟨c, hc⟩ := exists_char (u := 0x10000 + (high * 0x400 + low)) (by omega)
              have hranges : high < 0x400 ∧ low < 0x400 := by omega
              have htail := ih r.length (by simp; omega)
                ((finishes_surrogates hunit hlow hranges hc).1 h) rfl
              have hall := htail.extend (a := 92 :: 117 :: (ds ++ 92 :: 117 :: ls)) fun i s hi => by
                simpa using Inside.surrogates hunit hlow hranges hc hi
              simpa using hall
            · have hrefused : ¬ Finishes libc (unit 0 .u1 stack (buffer ++ [92, 117])) (ds ++ r) es := by
                rw [finishes_units hunit, act, List.append_assoc, List.cons_append, List.cons_append,
                  List.nil_append, decode_first hunit, if_neg hpoint, if_neg hhigh]
                exact Outcome.not_leads rfl
              exact absurd (finishes_unicode.1 h) hrefused
        · have hrest := ih r.length (by simp) ((finishes_escape hpair).1 h) rfl
          exact hrest.extend (a := [92, x]) (b := [b]) fun i s hi => .escape hpair hi
      · have hlow : 32 ≤ c.toNat := cellAt_string fun hxx => not_finishes_xx rfl rfl hxx h
        rw [finishes_goto (cellAt_plain hlow hquote hbackslash), kept_typed (by simp)] at h
        have hrest := ih t.length (by simp) h rfl
        exact hrest.extend (a := [c]) (b := [c]) fun i s hi => .plain hlow hquote hbackslash hi

end Tokens

end Ape.Json

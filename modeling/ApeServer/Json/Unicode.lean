import ApeServer.Json.Accept

/-!
# Escaped code points

Behind `\u` the parser keeps four digits in its buffer, and takes them out again for the code point:
at once, or with the second surrogate.

* `encodeUtf8_eq` — **the bytes are those of UTF-8**;
* `decode_first`, `decode_second` — what the four digits become;
* `finishes_units` — **the digits of a code unit**.
-/

namespace Ape.Json

/-! ## Bits -/

/-- Bits above others are added to them. -/
theorem or_high {a b : Nat} (i : Nat) (h : b < 2 ^ i) : b ||| 2 ^ i * a = 2 ^ i * a + b := by
  rw [Nat.or_comm, ← Nat.two_pow_add_eq_or_of_lt h]

/-- The six bits above the lowest ten. -/
theorem and_high {u : Nat} (h : u < 2 ^ 16) : u &&& 0xFC00 = 0x400 * (u / 0x400) := by
  have hmask : (0xFC00 : Nat) = (2 ^ 6 - 1) <<< 10 := by decide
  have hparts : (u &&& (2 ^ 6 - 1) <<< 10) = ((u >>> 10) &&& (2 ^ 6 - 1)) <<< 10 := by
    refine Nat.eq_of_testBit_eq fun i => ?_
    simp only [Nat.testBit_and, Nat.testBit_shiftLeft, Nat.testBit_shiftRight]
    by_cases hi : 10 ≤ i
    · simp [hi, Nat.add_sub_cancel' hi]
    · simp [hi]
  rw [hmask, hparts, Nat.and_two_pow_sub_one_eq_mod, Nat.shiftRight_eq_div_pow, Nat.shiftLeft_eq]
  omega

/-- The first byte of several has its mark on top of the high bits. -/
theorem lead_byte {v n k lead : Nat} (hv : v / 2 ^ (n * 6) < 2 ^ k) (hlead : lead % 2 ^ k = 0) :
    (v >>> (n * 6)) ||| lead = v / 2 ^ (n * 6) + lead := by
  obtain ⟨a, rfl⟩ := Nat.dvd_of_mod_eq_zero hlead
  rw [Nat.shiftRight_eq_div_pow, or_high k hv, Nat.add_comm]

/-- A byte of a character behind the first one carries six of its bits. -/
theorem trail_byte (v n : Nat) : ((v >>> (n * 6)) &&& 0x3F) ||| 0x80 = v / 2 ^ (n * 6) % 64 + 128 := by
  have hmask : (0x3F : Nat) = 2 ^ 6 - 1 := by decide
  have hlt : v / 2 ^ (n * 6) % 2 ^ 6 < 2 ^ 6 := Nat.mod_lt _ (by decide)
  rw [hmask, Nat.shiftRight_eq_div_pow, Nat.and_two_pow_sub_one_eq_mod,
    show (0x80 : Nat) = 2 ^ 6 * 2 from rfl, or_high 6 hlt]
  omega

/-- **The bytes are those of UTF-8**: two when the first of these numbers is reached, three from the
second on and four from the third. -/
theorem encodeUtf8_eq (c : Char) : encodeUtf8 c.toNat
    (if c.toNat < 0x80 then 0 else if c.toNat < 0x800 then 1 else if c.toNat < 0x10000 then 2 else 3) =
      String.utf8EncodeChar c := by
  have hvalid : c.toNat < 0x110000 := by
    rcases c.valid with h | h
    · exact lt_trans h (by decide)
    · exact h.2
  have hval : c.val.toNat = c.toNat := rfl
  have hone : utf8LeadBits.getD 1 0 = 0xC0 ∧ (List.range 1).reverse = [0] := ⟨rfl, rfl⟩
  have htwo : utf8LeadBits.getD 2 0 = 0xE0 ∧ (List.range 2).reverse = [1, 0] := ⟨rfl, rfl⟩
  have hthree : utf8LeadBits.getD 3 0 = 0xF0 ∧ (List.range 3).reverse = [2, 1, 0] := ⟨rfl, rfl⟩
  unfold String.utf8EncodeChar encodeUtf8
  simp only [hval, trail_byte]
  split_ifs with h₁ h₂ h₃ <;> try omega
  · simp [utf8LeadBits]
  · rw [hone.1, hone.2, @lead_byte c.toNat 1 5 0xC0 (by omega) (by decide)]
    exact congrArg₂ _ (congrArg _ (by omega)) (congrArg₂ _ (congrArg _ (by omega)) rfl)
  · rw [htwo.1, htwo.2, @lead_byte c.toNat 2 4 0xE0 (by omega) (by decide)]
    exact congrArg₂ _ (congrArg _ (by omega)) (congrArg₂ _ (congrArg _ (by omega))
      (congrArg₂ _ (congrArg _ (by omega)) rfl))
  · rw [hthree.1, hthree.2, @lead_byte c.toNat 3 3 0xF0 (by omega) (by decide)]
    exact congrArg₂ _ (congrArg _ (by omega)) (congrArg₂ _ (congrArg _ (by omega))
      (congrArg₂ _ (congrArg _ (by omega)) (congrArg₂ _ (congrArg _ (by omega)) rfl)))

/-! ## Four digits -/

/-- The parser in an escape: behind the first of two surrogates it keeps that one. -/
def unit (high : Nat) (state : States) (stack : List Modes) (buffer : List UInt8) : Parser :=
  { reading state .string stack buffer with utf16HighSurrogate := high }

/-- A digit is read as it is worth. -/
theorem HexDigit.value {c : UInt8} {p : Nat} (h : HexDigit c p) : hexValue c = p ∧ p < 16 := by
  have hall : ∀ c : UInt8, 48 ≤ c.toNat → c.toNat ≤ 57 → hexValue c = c.toNat - 48 :=
    CString.forall_byte (by decide) (by decide)
  cases h with
  | decimal low high => exact ⟨hall c low high, by omega⟩
  | upper low high => exact ⟨by rw [hexValue, if_neg (by omega), if_pos low], by omega⟩
  | lower low high => exact ⟨by rw [hexValue, if_pos low], by omega⟩

/-- Which characters are digits. -/
theorem hexDigit_iff (c : UInt8) : (∃ p, HexDigit c p) ↔
    48 ≤ c.toNat ∧ c.toNat ≤ 57 ∨ 65 ≤ c.toNat ∧ c.toNat ≤ 70 ∨ 97 ≤ c.toNat ∧ c.toNat ≤ 102 := by
  constructor
  · rintro ⟨p, h⟩
    cases h with
    | decimal low high => exact .inl ⟨low, high⟩
    | upper low high => exact .inr (.inl ⟨low, high⟩)
    | lower low high => exact .inr (.inr ⟨low, high⟩)
  · rintro (h | h | h)
    · exact ⟨_, .decimal h.1 h.2⟩
    · exact ⟨_, .upper h.1 h.2⟩
    · exact ⟨_, .lower h.1 h.2⟩

/-- Shifting a digit in is multiplying by 16 and adding it. -/
theorem shift_or {u p : Nat} (h : p < 16) : u <<< 4 ||| p = u * 16 + p := by
  rw [← Nat.shiftLeft_add_eq_or_of_lt h, Nat.shiftLeft_eq]

/-- **The four digits that are taken out of the buffer.** -/
theorem CodeUnit.taken {ds : List UInt8} {u : Nat} (h : CodeUnit ds u) (front : List UInt8) :
    (∀ c ∈ ds, hexValue c < 16) ∧ u < 2 ^ 16 ∧
      (front ++ 92 :: 117 :: ds).take ((front ++ 92 :: 117 :: ds).length - 6) = front ∧
      (front ++ 92 :: 117 :: ds).drop ((front ++ 92 :: 117 :: ds).length - 4) = ds ∧
      ds.foldl (fun uc c => uc <<< 4 ||| hexValue c) 0 = u := by
  obtain ⟨ha, hb, hc, hd⟩ := h
  obtain ⟨ha, hp⟩ := ha.value
  obtain ⟨hb, hq⟩ := hb.value
  obtain ⟨hc, hr⟩ := hc.value
  obtain ⟨hd, hs⟩ := hd.value
  refine ⟨by simp [ha, hb, hc, hd, hp, hq, hr, hs], by omega, ?_, ?_, ?_⟩
  · simp
  · have hlen : ∀ a b c d : UInt8, (front ++ [92, 117, a, b, c, d]).length - 4 = front.length + 2 :=
      fun _ _ _ _ => by simp
    have hsplit : ∀ a b c d : UInt8, front ++ [92, 117, a, b, c, d] =
        (front ++ [92, 117]) ++ [a, b, c, d] := fun _ _ _ _ => by simp
    rw [hlen, hsplit, List.drop_left' (by simp)]
  · simp [ha, hb, hc, hd, shift_or hq, shift_or hr, shift_or hs]

/-- No assertion fails behind `\u` and four digits. -/
theorem decodable_unit {high : Nat} {stack : List Modes} {buffer ds : List UInt8} {u : Nat}
    (h : CodeUnit ds u) :
    decodeUnicodeChar (unit high .u4 stack (buffer ++ 92 :: 117 :: ds)) =
      decodeDigits (unit high .u4 stack (buffer ++ 92 :: 117 :: ds)) := by
  obtain ⟨hdigits, -, -, hdrop, -⟩ := h.taken buffer
  have hlength : ds.length = 4 := by cases h; rfl
  refine if_pos ⟨?_, ?_⟩
  · show 6 ≤ (buffer ++ 92 :: 117 :: ds).length
    simp [hlength]
  · show ∀ c ∈ (buffer ++ 92 :: 117 :: ds).drop ((buffer ++ 92 :: 117 :: ds).length - 4),
      hexValue c < 16
    rw [hdrop]
    exact hdigits

section Decoding

variable {libc : Libc} {stack : List Modes} {buffer ds t : List UInt8} {u high : Nat}
  {es : List Event}

/-- What the digits become when no surrogate waits. -/
theorem decode_first (h : CodeUnit ds u) :
    decodeUnicodeChar (unit 0 .u4 stack (buffer ++ 92 :: 117 :: ds)) =
      if u < 0xD800 ∨ 0xDFFF < u then
        proceed (unit 0 .u4 stack (buffer ++ encodeUtf8 u
          (if u < 0x80 then 0 else if u < 0x800 then 1 else 2)))
      else if u < 0xDC00 then proceed (unit u .u4 stack buffer)
      else refuse (unit 0 .u4 stack buffer) := by
  obtain ⟨-, hlt, htake, hdrop, hvalue⟩ := h.taken buffer
  have hbuffer : (unit 0 .u4 stack (buffer ++ 92 :: 117 :: ds)).parseBuffer =
      buffer ++ 92 :: 117 :: ds := rfl
  have hwaits : ¬ (unit 0 .u4 stack (buffer ++ 92 :: 117 :: ds)).utf16HighSurrogate ≠ 0 :=
    fun h => h rfl
  rw [decodable_unit h]
  unfold decodeDigits Parser.digits
  simp only [hbuffer, htake, hdrop, hvalue, if_neg hwaits, and_high hlt]
  split_ifs <;> first | omega | rfl

/-- What they become behind the first surrogate. -/
theorem decode_second (h : CodeUnit ds u) (hhigh : high < 0x400) :
    decodeUnicodeChar (unit (0xD800 + high) .u4 stack (buffer ++ 92 :: 117 :: ds)) =
      if 0xDC00 ≤ u ∧ u < 0xE000 then
        proceed (unit 0 .u4 stack
          (buffer ++ encodeUtf8 (0x10000 + (high * 0x400 + (u - 0xDC00))) 3))
      else refuse (unit (0xD800 + high) .u4 stack buffer) := by
  obtain ⟨-, hlt, htake, hdrop, hvalue⟩ := h.taken buffer
  have hbuffer : (unit (0xD800 + high) .u4 stack (buffer ++ 92 :: 117 :: ds)).parseBuffer =
      buffer ++ 92 :: 117 :: ds := rfl
  have hwaits : (unit (0xD800 + high) .u4 stack
      (buffer ++ 92 :: 117 :: ds)).utf16HighSurrogate = 0xD800 + high := rfl
  have hmask : (0x3FF : Nat) = 2 ^ 10 - 1 := by decide
  rw [decodable_unit h]
  unfold decodeDigits Parser.digits
  simp only [hbuffer, htake, hdrop, hvalue, hwaits, and_high hlt]
  rw [if_pos (by omega), hmask, Nat.and_two_pow_sub_one_eq_mod, Nat.and_two_pow_sub_one_eq_mod,
    Nat.shiftLeft_eq]
  by_cases hlow : 0xDC00 ≤ u ∧ u < 0xE000
  · rw [if_pos (by omega), if_pos hlow]
    have hpoint : (0xD800 + high) % 2 ^ 10 * 2 ^ 10 + u % 2 ^ 10 + 0x10000 =
        0x10000 + (high * 0x400 + (u - 0xDC00)) := by omega
    rw [hpoint]
    rfl
  · rw [if_neg (by omega), if_neg hlow]
    rfl

/-- The table takes a hexadecimal digit in each of the four places, and decodes behind the last. -/
theorem cellAt_hex {c : UInt8} {p : Nat} (h : HexDigit c p) :
    cellAt .u1 c = .goto .u2 ∧ cellAt .u2 c = .goto .u3 ∧ cellAt .u3 c = .goto .u4 ∧
      cellAt .u4 c = .act .uc := by
  have hall : ∀ c : UInt8, (48 ≤ c.toNat ∧ c.toNat ≤ 57 ∨ 65 ≤ c.toNat ∧ c.toNat ≤ 70 ∨
      97 ≤ c.toNat ∧ c.toNat ≤ 102) → cellAt .u1 c = .goto .u2 ∧ cellAt .u2 c = .goto .u3 ∧
        cellAt .u3 c = .goto .u4 ∧ cellAt .u4 c = .act .uc :=
    CString.forall_byte (by decide) (by decide)
  exact hall c ((hexDigit_iff c).1 ⟨p, h⟩)

/-- Only a hexadecimal digit is taken inside of an escaped unit. -/
theorem hex_of_cellAt {state : States} {c : UInt8}
    (hstate : state = .u1 ∨ state = .u2 ∨ state = .u3 ∨ state = .u4) (h : cellAt state c ≠ .xx) :
    ∃ p, HexDigit c p := by
  have hall : ∀ c : UInt8, (48 ≤ c.toNat ∧ c.toNat ≤ 57 ∨ 65 ≤ c.toNat ∧ c.toNat ≤ 70 ∨
      97 ≤ c.toNat ∧ c.toNat ≤ 102) ∨ cellAt .u1 c = .xx ∧ cellAt .u2 c = .xx ∧ cellAt .u3 c = .xx ∧
        cellAt .u4 c = .xx := CString.forall_byte (by decide) (by decide)
  rcases hall c with hdigit | hnone
  · exact (hexDigit_iff c).2 hdigit
  · rcases hstate with rfl | rfl | rfl | rfl
    · exact absurd hnone.1 h
    · exact absurd hnone.2.1 h
    · exact absurd hnone.2.2.1 h
    · exact absurd hnone.2.2.2 h

/-- A character of an escaped unit is taken as its cell says, with it in the buffer. -/
theorem finishes_unit {state : States} {c : UInt8} :
    Finishes libc (unit high state stack buffer) (c :: t) es ↔
      (atCell libc (unit high state stack (buffer ++ [c])) (cellAt state c)).Leads libc t es := by
  have hkept : kept .string buffer c = buffer ++ [c] := kept_typed (by simp)
  have hstep : Finishes libc (unit high state stack buffer) (c :: t) es ↔
      (atCell libc (unit high state stack (kept .string buffer c)) (cellAt state c)).Leads libc t es :=
    finishes_step rfl rfl
  rw [hstep, hkept]

/-- A digit of a unit that moves to a state is kept in the buffer. -/
theorem finishes_unit_goto {state state' : States} {c : UInt8} (h : cellAt state c = .goto state') :
    Finishes libc (unit high state stack buffer) (c :: t) es ↔
      Finishes libc (unit high state' stack (buffer ++ [c])) t es := by
  rw [finishes_unit, h]
  exact Outcome.leads_proceed

/-- **The digits of a code unit** are in the buffer when it is decoded. -/
theorem finishes_units (h : CodeUnit ds u) :
    Finishes libc (unit high .u1 stack buffer) (ds ++ t) es ↔
      (act libc .uc (unit high .u4 stack (buffer ++ ds))).Leads libc t es := by
  obtain ⟨ha, hb, hc, hd⟩ := h
  rw [List.cons_append, finishes_unit_goto (cellAt_hex ha).1, List.cons_append,
    finishes_unit_goto (cellAt_hex hb).2.1, List.cons_append,
    finishes_unit_goto (cellAt_hex hc).2.2.1, List.cons_append, finishes_unit,
    (cellAt_hex hd).2.2.2, List.append_assoc, List.append_assoc, List.append_assoc]
  exact Iff.rfl

/-- One digit of those that have to follow. -/
theorem hex_of_finishes {state : States}
    (hstate : state = .u1 ∨ state = .u2 ∨ state = .u3 ∨ state = .u4)
    (h : Finishes libc (unit high state stack buffer) t es) :
    ∃ c p r, t = c :: r ∧ HexDigit c p ∧
      (atCell libc (unit high state stack (buffer ++ [c])) (cellAt state c)).Leads libc r es := by
  cases t with
  | nil =>
    have hend := (finishes_nil.1 h).1
    have hsame : (unit high state stack buffer).state = state := rfl
    rw [hsame] at hend
    rcases hstate with rfl | rfl | rfl | rfl <;> simp at hend
  | cons c r =>
    rw [finishes_unit] at h
    have hcell : cellAt state c ≠ .xx := by
      intro hxx
      rw [hxx] at h
      exact Outcome.not_leads rfl h
    obtain ⟨p, hp⟩ := hex_of_cellAt hstate hcell
    exact ⟨c, p, r, rfl, hp, h⟩

/-- **Four digits have to follow.** -/
theorem units_of_finishes (h : Finishes libc (unit high .u1 stack buffer) t es) :
    ∃ ds u r, t = ds ++ r ∧ CodeUnit ds u := by
  obtain ⟨a, p, r, rfl, ha, h⟩ := hex_of_finishes (.inl rfl) h
  rw [(cellAt_hex ha).1] at h
  obtain ⟨b, q, r, rfl, hb, h⟩ := hex_of_finishes (.inr (.inl rfl)) h
  rw [(cellAt_hex hb).2.1] at h
  obtain ⟨c, x, r, rfl, hc, h⟩ := hex_of_finishes (.inr (.inr (.inl rfl))) h
  rw [(cellAt_hex hc).2.2.1] at h
  obtain ⟨d, y, r, rfl, hd, -⟩ := hex_of_finishes (.inr (.inr (.inr rfl))) h
  exact ⟨[a, b, c, d], _, r, rfl, .digits ha hb hc hd⟩

end Decoding

end Ape.Json

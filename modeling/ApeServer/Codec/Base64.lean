import Mathlib.Data.List.Basic
import Mathlib.Data.Nat.Bitwise
import Mathlib.Tactic.NormNum

/-!
# Base64

`base64_encode_b` shifts the bytes into an `unsigned` and takes six bits at a time out of it; the
last six of a group of three bytes wait there until the next byte comes.

* `base64EncodeB` — the function of `ape_base64.c`;
* `base64` — three bytes are four characters, and the rest is padded;
* `base64_injective` — no two texts have one encoding;
* `base64EncodeB_eq` — **the function encodes as it should**.
-/

namespace Ape.Codec

/-- The bytes of a text. -/
def ascii (text : String) : List UInt8 := text.toList.map fun c => UInt8.ofNat c.toNat

/-- `b64`. -/
def alphabet : List UInt8 :=
  ascii "ABCDEFGHIJKLMNOPQRSTUVWXYZabcdefghijklmnopqrstuvwxyz0123456789+/"

/-- The character of six bits. -/
def char (n : Nat) : UInt8 := alphabet.getD (n % 64) 0

/-! ## The function -/

/-- The inner loop, with whether no bytes remain.  A round takes six off the shift, which is 14 at
most, so three suffice. -/
def emitLoop (bits : UInt32) (last : Bool) : Nat → Int → List UInt8 × Int
  | 0, shift => ([], shift)
  | fuel + 1, shift =>
    let c := char (bits <<< 6 >>> UInt32.ofNat shift.toNat &&& 0x3f).toNat
    let shift := shift - 6
    if 6 < shift ∨ (last = true ∧ 0 < shift) then
      let (out, shift) := emitLoop bits last fuel shift
      (c :: out, shift)
    else ([c], shift)

/-- The outer loop. -/
def encodeLoop : List UInt8 → UInt32 → Int → List UInt8
  | [], _, _ => []
  | c :: src, bits, shift =>
    let bits := (bits <<< 8) + c.toUInt32
    let (out, shift) := emitLoop bits src.isEmpty 3 (shift + 8)
    out ++ encodeLoop src bits shift

/-- `while ((dst - ret) & 3) *dst++ = '=';`. -/
def pad (out : List UInt8) : List UInt8 := out ++ List.replicate ((4 - out.length % 4) % 4) 61

/-- `base64_encode_b`, up to the final NUL. -/
def base64EncodeB (src : List UInt8) : List UInt8 := pad (encodeLoop src 0 0)

/-! ## The encoding -/

/-- The encoding: three bytes are four characters. -/
def base64 : List UInt8 → List UInt8
  | [] => []
  | [a] => [char (a.toNat / 4), char (a.toNat % 4 * 16), 61, 61]
  | [a, b] =>
    [char (a.toNat / 4), char (a.toNat % 4 * 16 + b.toNat / 16), char (b.toNat % 16 * 4), 61]
  | a :: b :: c :: src =>
    char (a.toNat / 4) :: char (a.toNat % 4 * 16 + b.toNat / 16) ::
      char (b.toNat % 16 * 4 + c.toNat / 64) :: char c.toNat :: base64 src

example : base64 (ascii "ape") = ascii "YXBl" := by decide

example : base64 (ascii "apes") = ascii "YXBlcw==" := by decide

theorem char_mod (n : Nat) : char (n % 64) = char n := by rw [char, Nat.mod_mod, char]

/-- No two characters are the same. -/
theorem mod_eq_of_char {m n : Nat} (h : char m = char n) : m % 64 = n % 64 := by
  -- a character is found where it stands
  have hall : ∀ n < 64, alphabet.idxOf (char n) = n := by decide +kernel
  rw [← char_mod m, ← char_mod n] at h
  rw [← hall (m % 64) (Nat.mod_lt m (by decide)), h, hall (n % 64) (Nat.mod_lt n (by decide))]

/-- No character of the alphabet is the padding. -/
theorem char_ne_pad (n : Nat) : char n ≠ 61 := by
  have hall : ∀ n < 64, char n ≠ 61 := by decide +kernel
  rw [← char_mod n]
  exact hall (n % 64) (Nat.mod_lt n (by decide))

/-- The encoding does not lose anything. -/
theorem base64_injective {src src' : List UInt8} (h : base64 src = base64 src') : src = src' := by
  have hsame : ∀ {a b : UInt8}, a.toNat = b.toNat → a = b := UInt8.toNat_inj.1
  induction src using base64.induct generalizing src' with
  | case1 =>
    rcases src' with _ | ⟨a', _ | ⟨b', _ | ⟨c', src'⟩⟩⟩
    · rfl
    all_goals simp [base64] at h
  | case2 a =>
    have ha := a.toNat_lt
    rcases src' with _ | ⟨a', _ | ⟨b', _ | ⟨c', src'⟩⟩⟩
    · simp [base64] at h
    · have ha' := a'.toNat_lt
      simp only [base64, List.cons.injEq, and_true] at h
      have h₁ := mod_eq_of_char h.1
      have h₂ := mod_eq_of_char h.2
      rw [hsame (show a.toNat = a'.toNat by omega)]
    · simp only [base64, List.cons.injEq] at h
      exact absurd h.2.2.1.symm (char_ne_pad _)
    · simp only [base64, List.cons.injEq] at h
      exact absurd h.2.2.1.symm (char_ne_pad _)
  | case3 a b =>
    have ha := a.toNat_lt
    have hb := b.toNat_lt
    rcases src' with _ | ⟨a', _ | ⟨b', _ | ⟨c', src'⟩⟩⟩
    · simp [base64] at h
    · simp only [base64, List.cons.injEq] at h
      exact absurd h.2.2.1 (char_ne_pad _)
    · have ha' := a'.toNat_lt
      have hb' := b'.toNat_lt
      simp only [base64, List.cons.injEq, and_true] at h
      have h₁ := mod_eq_of_char h.1
      have h₂ := mod_eq_of_char h.2.1
      have h₃ := mod_eq_of_char h.2.2
      rw [hsame (show a.toNat = a'.toNat by omega), hsame (show b.toNat = b'.toNat by omega)]
    · simp only [base64, List.cons.injEq] at h
      exact absurd h.2.2.2.1.symm (char_ne_pad _)
  | case4 a b c src ih =>
    have ha := a.toNat_lt
    have hb := b.toNat_lt
    have hc := c.toNat_lt
    rcases src' with _ | ⟨a', _ | ⟨b', _ | ⟨c', src'⟩⟩⟩
    · simp [base64] at h
    · simp only [base64, List.cons.injEq] at h
      exact absurd h.2.2.1 (char_ne_pad _)
    · simp only [base64, List.cons.injEq] at h
      exact absurd h.2.2.2.1 (char_ne_pad _)
    · have ha' := a'.toNat_lt
      have hb' := b'.toNat_lt
      have hc' := c'.toNat_lt
      simp only [base64, List.cons.injEq] at h
      have h₁ := mod_eq_of_char h.1
      have h₂ := mod_eq_of_char h.2.1
      have h₃ := mod_eq_of_char h.2.2.1
      have h₄ := mod_eq_of_char h.2.2.2.1
      rw [hsame (show a.toNat = a'.toNat by omega), hsame (show b.toNat = b'.toNat by omega),
        hsame (show c.toNat = c'.toNat by omega), ih h.2.2.2.2]

/-! ## The same -/

/-- The two shifts and the mask take six bits out of the low 26 of the accumulator. -/
theorem sextet (bits : UInt32) (k : Nat) (hk : k < 32) :
    (bits <<< 6 >>> UInt32.ofNat k &&& 0x3f).toNat = bits.toNat * 64 % 2 ^ 32 / 2 ^ k % 64 := by
  have hmask : (0x3f : UInt32).toNat = 2 ^ 6 - 1 := rfl
  have hsix : (6 : UInt32).toNat = 6 := rfl
  have hsize : (UInt32.ofNat k).toNat = k := by
    rw [UInt32.toNat_ofNat']
    omega
  rw [UInt32.toNat_and, hmask, Nat.and_two_pow_sub_one_eq_mod, UInt32.toNat_shiftRight,
    UInt32.toNat_shiftLeft, hsix, hsize, Nat.mod_eq_of_lt hk, Nat.shiftRight_eq_div_pow,
    Nat.shiftLeft_eq]

/-- A byte is shifted into the accumulator, which is taken modulo `2 ^ 32`. -/
theorem shiftIn (bits : UInt32) (c : UInt8) :
    (bits <<< 8 + c.toUInt32).toNat = (bits.toNat * 256 + c.toNat) % 2 ^ 32 := by
  have height : (8 : UInt32).toNat = 8 := rfl
  rw [UInt32.toNat_add, UInt32.toNat_shiftLeft, height, UInt8.toNat_toUInt32, Nat.shiftLeft_eq,
    show 2 ^ (8 % 32) = 256 from rfl]
  omega

/-- The character of the bits from the `k`th on, with six more zeros below. -/
def taken (bits : UInt32) (k : Nat) : UInt8 := char (bits.toNat * 64 % 2 ^ 32 / 2 ^ k)

/-- A character is known by the bits it is made of. -/
theorem taken_eq {bits : UInt32} {k n : Nat}
    (h : bits.toNat * 64 % 2 ^ 32 / 2 ^ k % 64 = n % 64) : taken bits k = char n := by
  rw [taken, ← char_mod, h, char_mod]

/-- One round of the inner loop takes a character out, and goes on if more than six bits are waiting. -/
theorem emitLoop_succ (bits : UInt32) (last : Bool) (fuel k : Nat) (hk : k < 32) :
    emitLoop bits last (fuel + 1) k =
      if 6 < (k : Int) - 6 ∨ (last = true ∧ 0 < (k : Int) - 6) then
        (taken bits k :: (emitLoop bits last fuel ((k : Int) - 6)).1,
          (emitLoop bits last fuel ((k : Int) - 6)).2)
      else ([taken bits k], (k : Int) - 6) := by
  rw [emitLoop]
  simp only [Int.toNat_natCast, sextet bits k hk, char_mod, taken]

/-- A byte gives one character, or two if it is the last. -/
theorem emitLoop_byte (bits : UInt32) (last : Bool) (fuel k : Nat) (hk : k ≤ 6) :
    emitLoop bits last (fuel + 2) ((k + 6 : Nat) : Int) =
      if last = true ∧ 0 < k then ([taken bits (k + 6), taken bits k], (k : Int) - 6)
      else ([taken bits (k + 6)], k) := by
  have hnext : ((k + 6 : Nat) : Int) - 6 = k := by omega
  have hnot : ¬ 6 < (k : Int) := by omega
  rw [emitLoop_succ bits last (fuel + 1) (k + 6) (by omega), hnext]
  by_cases hlast : last = true ∧ 0 < k
  · have hstop : ¬ (6 < (k : Int) - 6 ∨ (last = true ∧ 0 < (k : Int) - 6)) := by omega
    rw [if_pos hlast, if_pos (Or.inr ⟨hlast.1, by omega⟩), emitLoop_succ bits last fuel k (by omega),
      if_neg hstop]
  · have hstop : ¬ (6 < (k : Int) ∨ (last = true ∧ 0 < (k : Int))) := by
      rintro (hmore | ⟨hend, hpos⟩)
      · exact hnot hmore
      · exact hlast ⟨hend, by omega⟩
    rw [if_neg hlast, if_neg hstop]

/-- The first byte of a group, when six bits of the one before wait. -/
theorem encodeLoop_waiting (c : UInt8) (src : List UInt8) (bits : UInt32) :
    encodeLoop (c :: src) bits 6 = char bits.toNat :: encodeLoop (c :: src) bits 0 := by
  have hc := c.toNat_lt
  have hbits := shiftIn bits c
  simp only [encodeLoop]
  generalize bits <<< 8 + c.toUInt32 = bits' at hbits ⊢
  have hfirst : taken bits' 14 = char bits.toNat := taken_eq (by omega)
  have hround := emitLoop_succ bits' src.isEmpty 2 14 (by decide)
  rw [if_pos (Or.inl (by decide)), hfirst] at hround
  have hsame : emitLoop bits' src.isEmpty 2 8 = emitLoop bits' src.isEmpty 3 8 :=
    (emitLoop_byte bits' src.isEmpty 0 2 (by decide)).trans
      (emitLoop_byte bits' src.isEmpty 1 2 (by decide)).symm
  rw [show (6 : Int) + 8 = (14 : Nat) from rfl, hround, show ((14 : Nat) : Int) - 6 = 8 from rfl,
    hsame]
  rfl

/-- A byte of a group puts a character out, and a second one if it is the last byte of all. -/
theorem encodeLoop_cons (c : UInt8) (src : List UInt8) (bits : UInt32) (k : Nat) (hk : k ≤ 4) :
    ∃ bits' : UInt32, bits'.toNat = (bits.toNat * 256 + c.toNat) % 2 ^ 32 ∧
      encodeLoop (c :: src) bits k =
        if src = [] then [taken bits' (k + 8), taken bits' (k + 2)]
        else taken bits' (k + 8) :: encodeLoop src bits' ((k + 2 : Nat) : Int) := by
  refine ⟨bits <<< 8 + c.toUInt32, shiftIn bits c, ?_⟩
  have hround := emitLoop_byte (bits <<< 8 + c.toUInt32) src.isEmpty 1 (k + 2) (by omega)
  simp only [encodeLoop]
  rw [show (k : Int) + 8 = ((k + 2 + 6 : Nat) : Int) by omega, hround]
  cases src with
  | nil => rfl
  | cons d src => rfl

theorem pad_group (c₁ c₂ c₃ c₄ : UInt8) (out : List UInt8) :
    pad (c₁ :: c₂ :: c₃ :: c₄ :: out) = c₁ :: c₂ :: c₃ :: c₄ :: pad out := by
  have hlength : (c₁ :: c₂ :: c₃ :: c₄ :: out).length % 4 = out.length % 4 := by
    simp only [List.length_cons]
    omega
  rw [pad, hlength]
  rfl

/-- **The loops**, from the beginning of a group. -/
theorem encodeLoop_eq (src : List UInt8) (bits : UInt32) :
    pad (encodeLoop src bits 0) = base64 src := by
  induction src using base64.induct generalizing bits with
  | case1 => simp [encodeLoop, pad, base64]
  | case2 a =>
    have ha := a.toNat_lt
    obtain ⟨bits₁, h₁, hloop⟩ := encodeLoop_cons a [] bits 0 (by decide)
    have hfirst : taken bits₁ 8 = char (a.toNat / 4) := taken_eq (by omega)
    have hsecond : taken bits₁ 2 = char (a.toNat % 4 * 16) := taken_eq (by omega)
    rw [if_pos rfl, hfirst, hsecond] at hloop
    exact congrArg pad hloop
  | case3 a b =>
    have ha := a.toNat_lt
    have hb := b.toNat_lt
    obtain ⟨bits₁, h₁, hloop⟩ := encodeLoop_cons a [b] bits 0 (by decide)
    obtain ⟨bits₂, h₂, hloop₂⟩ := encodeLoop_cons b [] bits₁ 2 (by decide)
    have hfirst : taken bits₁ 8 = char (a.toNat / 4) := taken_eq (by omega)
    have hsecond : taken bits₂ 10 = char (a.toNat % 4 * 16 + b.toNat / 16) := taken_eq (by omega)
    have hthird : taken bits₂ 4 = char (b.toNat % 16 * 4) := taken_eq (by omega)
    rw [if_pos rfl, hsecond, hthird] at hloop₂
    rw [if_neg (by simp), hfirst, hloop₂] at hloop
    exact congrArg pad hloop
  | case4 a b c src ih =>
    have ha := a.toNat_lt
    have hb := b.toNat_lt
    have hc := c.toNat_lt
    obtain ⟨bits₁, h₁, hloop⟩ := encodeLoop_cons a (b :: c :: src) bits 0 (by decide)
    obtain ⟨bits₂, h₂, hloop₂⟩ := encodeLoop_cons b (c :: src) bits₁ 2 (by decide)
    obtain ⟨bits₃, h₃, hloop₃⟩ := encodeLoop_cons c src bits₂ 4 (by decide)
    have hfirst : taken bits₁ 8 = char (a.toNat / 4) := taken_eq (by omega)
    have hsecond : taken bits₂ 10 = char (a.toNat % 4 * 16 + b.toNat / 16) := taken_eq (by omega)
    have hthird : taken bits₃ 12 = char (b.toNat % 16 * 4 + c.toNat / 64) := taken_eq (by omega)
    have hfourth : taken bits₃ 6 = char c.toNat := taken_eq (by omega)
    have hkept : char bits₃.toNat = char c.toNat := by
      rw [← char_mod bits₃.toNat, ← char_mod c.toNat]
      congr 1
      omega
    -- the last six bits of the group are written now or with the next byte
    have hrest : encodeLoop (c :: src) bits₂ (4 : Nat) =
        char (b.toNat % 16 * 4 + c.toNat / 64) :: char c.toNat :: encodeLoop src bits₃ 0 := by
      rw [hloop₃, hthird, hfourth]
      cases src with
      | nil => rfl
      | cons d src =>
        rw [if_neg (by simp), show ((4 + 2 : Nat) : Int) = 6 from rfl, encodeLoop_waiting, hkept]
    rw [if_neg (by simp), hsecond, show ((2 + 2 : Nat) : Int) = (4 : Nat) from rfl, hrest] at hloop₂
    rw [if_neg (by simp), hfirst, show ((0 + 2 : Nat) : Int) = (2 : Nat) from rfl, hloop₂] at hloop
    rw [show (0 : Int) = (0 : Nat) from rfl, hloop, pad_group, ih bits₃]
    rfl

/-- **`base64_encode_b` encodes as it should.** -/
theorem base64EncodeB_eq (src : List UInt8) : base64EncodeB src = base64 src := encodeLoop_eq src 0

end Ape.Codec

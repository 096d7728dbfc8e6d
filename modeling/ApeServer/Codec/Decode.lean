import ApeServer.Codec.Base64

/-!
# Decoding base64

`base64_decode` shifts six bits for every character into an `int` that it never empties, and stores
a byte for every character of a group of four but the first. It counts the characters in an `int`
too, and that one selects the bits and the character.

* `base64Decode` — the function of `ape_base64.c`, without a result where the count leaves an `int`;
* `scanned` — the characters that are read before the decoder stops;
* `decodeLoop_eq_none_iff` — it has no result exactly on `2 ^ 31` of them;
* `decodeLoop_length` — no byte is stored beyond the length that is given;
* `decodeLoop_base64` — what the loop makes of an encoding;
* `base64_round_trip_iff` — **an encoding is decoded to what was encoded exactly below `3 * 2 ^ 29`
  bytes**.
-/

namespace Ape.Codec

/-! ## The function -/

/-- `map2`. -/
def map2 : List UInt8 :=
  [0x3e, 0xff, 0xff, 0xff, 0x3f, 0x34, 0x35, 0x36, 0x37, 0x38, 0x39, 0x3a, 0x3b, 0x3c, 0x3d, 0xff,
    0xff, 0xff, 0xff, 0xff, 0xff, 0xff, 0x00, 0x01, 0x02, 0x03, 0x04, 0x05, 0x06, 0x07, 0x08, 0x09,
    0x0a, 0x0b, 0x0c, 0x0d, 0x0e, 0x0f, 0x10, 0x11, 0x12, 0x13, 0x14, 0x15, 0x16, 0x17, 0x18, 0x19,
    0xff, 0xff, 0xff, 0xff, 0xff, 0xff, 0x1a, 0x1b, 0x1c, 0x1d, 0x1e, 0x1f, 0x20, 0x21, 0x22, 0x23,
    0x24, 0x25, 0x26, 0x27, 0x28, 0x29, 0x2a, 0x2b, 0x2c, 0x2d, 0x2e, 0x2f, 0x30, 0x31, 0x32, 0x33]

/-- `unsigned int index = in[i]-43`, of a `char` that is signed. -/
def index (c : UInt8) : Nat := ((c.toInt8.toInt - 43) % 2 ^ 32).toNat

/-- What a character stands for, if it is inside the table and not marked there. -/
def sextetOf (c : UInt8) : Option UInt8 :=
  match map2[index c]? with
  | none => none
  | some d => if d = 0xff then none else some d

/-- `*dst = v >> (6 - 2 * (i & 3))`, of an `int` whose sign is shifted in. -/
def storedByte (v : BitVec 32) (i : Nat) : UInt8 :=
  ⟨(v.sshiftRight (6 - 2 * (i % 4))).setWidth 8⟩

/-- The loop of `base64_decode`: the bytes stored so far are in `out`, and the result is the value
that is returned with them. There is none if `i++` leaves an `int`. -/
def decodeLoop (outLength : Int) :
    List UInt8 → Nat → BitVec 32 → List UInt8 → Option (List UInt8 × Int)
  | [], _, _, out => some (out, out.length)
  | c :: text, i, v, out =>
    if c = 0 ∨ c = 61 then some (out, out.length)
    else match sextetOf c with
      | none => some (out, -1)
      | some d =>
        let v := v <<< 6 + d.toBitVec.setWidth 32
        let out := if i % 4 ≠ 0 ∧ out.length < outLength then out ++ [storedByte v i] else out
        if i + 1 < 2 ^ 31 then decodeLoop outLength text (i + 1) v out else none

/-- **`base64_decode`** of a text without its final NUL: the bytes it stores and what it returns. -/
def base64Decode (text : List UInt8) (outLength : Int) : Option (List UInt8 × Int) :=
  decodeLoop outLength text 0 0 []

example : base64Decode (ascii "YXBlcw==") 4 = some (ascii "apes", 4) := by decide

/-- The characters of a text that stand for bits, up to the first one at which the decoder stops. -/
def scanned (text : List UInt8) : List UInt8 :=
  text.takeWhile fun c => ¬ (c = 0 ∨ c = 61) ∧ (sextetOf c).isSome

/-! ## Bounds -/

/-- **The decoder has a result exactly if it is counted to in an `int`**, whatever is stored. -/
theorem decodeLoop_eq_none_iff (outLength : Int) (text : List UInt8) {i : Nat} (hi : i < 2 ^ 31)
    (v : BitVec 32) (out : List UInt8) :
    decodeLoop outLength text i v out = none ↔ 2 ^ 31 ≤ i + (scanned text).length := by
  -- where the loop stops, the index is still an `int`
  have hstops {i : Nat} (hi : i < 2 ^ 31) (r : List UInt8 × Int) :
      some r = none ↔ 2 ^ 31 ≤ i + ([] : List UInt8).length :=
    ⟨fun h => absurd h (Option.some_ne_none r), fun h => absurd hi (Nat.not_lt.2 h)⟩
  induction text generalizing i v out with
  | nil => exact hstops hi _
  | cons c text ih =>
    rw [decodeLoop]
    split
    case isTrue hend =>
      have hscanned : scanned (c :: text) = [] :=
        List.takeWhile_cons_of_neg (mt of_decide_eq_true fun h => h.1 hend)
      rw [hscanned]
      exact hstops hi _
    case isFalse hend =>
      split
      case h_1 hsextet =>
        have hscanned : scanned (c :: text) = [] :=
          List.takeWhile_cons_of_neg
            (mt of_decide_eq_true fun h => absurd h.2 (by rw [hsextet]; exact Bool.false_ne_true))
        rw [hscanned]
        exact hstops hi _
      case h_2 d hsextet =>
        have hscanned : scanned (c :: text) = c :: scanned text :=
          List.takeWhile_cons_of_pos (decide_eq_true ⟨hend, by rw [hsextet]; rfl⟩)
        rw [hscanned, List.length_cons]
        simp only
        split
        case isTrue hfits =>
          exact (ih hfits _ _).trans (by omega)
        case isFalse hfits =>
          constructor
          · intro _
            omega
          · exact fun _ => rfl

/-- No byte is stored beyond the length that is given. -/
theorem decodeLoop_length {outLength : Int} (text : List UInt8) (i : Nat) (v : BitVec 32)
    {out : List UInt8} (h : out.length ≤ outLength) {r : List UInt8 × Int}
    (hr : decodeLoop outLength text i v out = some r) : (r.1.length : Int) ≤ outLength := by
  induction text generalizing i v out with
  | nil =>
    cases hr
    exact h
  | cons c text ih =>
    rw [decodeLoop] at hr
    split at hr
    case isTrue =>
      cases hr
      exact h
    case isFalse =>
      split at hr
      case h_1 =>
        cases hr
        exact h
      case h_2 d _ =>
        simp only at hr
        split at hr
        case isTrue =>
          refine ih _ _ ?_ hr
          split
          case isTrue hstore =>
            rw [List.length_append, List.length_singleton]
            omega
          case isFalse => exact h
        case isFalse => cases hr

/-! ## Characters of an encoding -/

/-- A character of the alphabet stands for its six bits. -/
theorem sextetOf_char (n : Nat) :
    char n ≠ 0 ∧ char n ≠ 61 ∧ sextetOf (char n) = some (UInt8.ofNat (n % 64)) := by
  have hall : ∀ n < 64, char n ≠ 0 ∧ char n ≠ 61 ∧
      sextetOf (char n) = some (UInt8.ofNat n) := by decide +kernel
  have h := hall (n % 64) (Nat.mod_lt _ (by norm_num))
  rwa [char_mod] at h

/-- Only the low bits of the accumulator are stored, so its sign does not matter. -/
theorem storedByte_toNat (v : BitVec 32) (i : Nat) :
    (storedByte v i).toNat = v.toNat / 2 ^ (6 - 2 * (i % 4)) % 256 := by
  have hlogical : (v.sshiftRight (6 - 2 * (i % 4))).setWidth 8 =
      (v >>> (6 - 2 * (i % 4))).setWidth 8 := by
    apply BitVec.eq_of_getLsbD_eq
    intro j hj
    rw [BitVec.getLsbD_setWidth, BitVec.getLsbD_setWidth, BitVec.getLsbD_sshiftRight,
      BitVec.getLsbD_ushiftRight, if_pos (by omega), decide_eq_false (by omega : ¬ 32 ≤ j),
      Bool.not_false, Bool.true_and]
  change ((v.sshiftRight (6 - 2 * (i % 4))).setWidth 8).toNat = _
  rw [hlogical, BitVec.toNat_setWidth, BitVec.toNat_ushiftRight, Nat.shiftRight_eq_div_pow]

/-- A character is shifted in, and a byte is stored if it is not the first of its group and there
is room. -/
theorem decodeLoop_char (outLength : Int) (n : Nat) (text : List UInt8) {i : Nat}
    (hfits : i + 1 < 2 ^ 31) (v : BitVec 32) (out : List UInt8) :
    ∃ v' : BitVec 32, v'.toNat = (v.toNat * 64 + n % 64) % 2 ^ 32 ∧
      decodeLoop outLength (char n :: text) i v out = decodeLoop outLength text (i + 1) v'
        (if i % 4 ≠ 0 ∧ out.length < outLength then out ++ [storedByte v' i] else out) := by
  obtain ⟨hzero, hpad, hsextet⟩ := sextetOf_char n
  refine ⟨v <<< 6 + (UInt8.ofNat (n % 64)).toBitVec.setWidth 32, ?_, ?_⟩
  · have hbits : (UInt8.ofNat (n % 64)).toBitVec.toNat = n % 64 := by
      change (UInt8.ofNat (n % 64)).toNat = n % 64
      rw [UInt8.toNat_ofNat']
      omega
    rw [BitVec.toNat_add, BitVec.toNat_shiftLeft, BitVec.toNat_setWidth, hbits, Nat.shiftLeft_eq]
    omega
  · rw [decodeLoop, if_neg (by simp [hzero, hpad]), hsextet]
    simp only
    rw [if_pos hfits]

/-- The first character of a group is shifted in, and no byte is stored for it. -/
theorem decodeLoop_first (outLength : Int) (n : Nat) (text : List UInt8) {i : Nat} (hi : i % 4 = 0)
    (hfits : i + 1 < 2 ^ 31) (v : BitVec 32) (out : List UInt8) :
    ∃ v' : BitVec 32, v'.toNat = (v.toNat * 64 + n % 64) % 2 ^ 32 ∧
      decodeLoop outLength (char n :: text) i v out = decodeLoop outLength text (i + 1) v' out := by
  obtain ⟨v', hv, hloop⟩ := decodeLoop_char outLength n text hfits v out
  rw [if_neg (fun h => h.1 hi)] at hloop
  exact ⟨v', hv, hloop⟩

/-- A character of a group that is not its first stores a byte, if there is room for it. -/
theorem decodeLoop_next {outLength : Int} (n : Nat) (text : List UInt8) {i : Nat} (hi : i % 4 ≠ 0)
    (hfits : i + 1 < 2 ^ 31) (v : BitVec 32) {out : List UInt8} (hroom : out.length < outLength)
    {b : UInt8} (hb : (v.toNat * 64 + n % 64) / 2 ^ (6 - 2 * (i % 4)) % 256 = b.toNat) :
    ∃ v' : BitVec 32, v'.toNat = (v.toNat * 64 + n % 64) % 2 ^ 32 ∧
      decodeLoop outLength (char n :: text) i v out =
        decodeLoop outLength text (i + 1) v' (out ++ [b]) := by
  obtain ⟨v', hv, hloop⟩ := decodeLoop_char outLength n text hfits v out
  have hbyte : storedByte v' i = b := by
    apply UInt8.toNat_inj.1
    rw [storedByte_toNat, hv, ← hb]
    have hcase : i % 4 = 1 ∨ i % 4 = 2 ∨ i % 4 = 3 := by omega
    rcases hcase with h | h | h <;> rw [h] <;> norm_num <;> omega
  rw [if_pos ⟨hi, hroom⟩, hbyte] at hloop
  exact ⟨v', hv, hloop⟩

/-! ## A group of an encoding -/

section Groups

variable {outLength : Int} (a b c : UInt8) (text : List UInt8) {i : Nat} (hi : i % 4 = 0) (v : BitVec 32)
  {out : List UInt8}

include hi

/-- **Two characters** store a byte, and leave it in the accumulator with the bits behind it. -/
theorem decodeLoop_two {low : Nat} (hlow : low < 16) (hfits : i + 2 < 2 ^ 31)
    (hroom : (out.length : Int) < outLength) :
    ∃ v' : BitVec 32, v'.toNat % 2 ^ 12 = a.toNat * 16 + low ∧
      decodeLoop outLength (char (a.toNat / 4) :: char (a.toNat % 4 * 16 + low) :: text) i v out =
        decodeLoop outLength text (i + 2) v' (out ++ [a]) := by
  have ha := a.toNat_lt
  obtain ⟨v₁, h₁, hfirst⟩ := decodeLoop_first outLength (a.toNat / 4)
    (char (a.toNat % 4 * 16 + low) :: text) hi (by omega) v out
  obtain ⟨v₂, h₂, hsecond⟩ := decodeLoop_next (a.toNat % 4 * 16 + low) text
    (show (i + 1) % 4 ≠ 0 by omega) (by omega) v₁ hroom
    (show _ = a.toNat by rw [show (i + 1) % 4 = 1 by omega]; omega)
  exact ⟨v₂, by omega, hfirst.trans hsecond⟩

/-- **Three characters** store two bytes. -/
theorem decodeLoop_three {low : Nat} (hlow : low < 4) (hfits : i + 3 < 2 ^ 31)
    (hroom : (out.length : Int) + 1 < outLength) :
    ∃ v' : BitVec 32, v'.toNat % 4 = low ∧
      decodeLoop outLength (char (a.toNat / 4) :: char (a.toNat % 4 * 16 + b.toNat / 16) ::
          char (b.toNat % 16 * 4 + low) :: text) i v out =
        decodeLoop outLength text (i + 3) v' (out ++ [a, b]) := by
  have hb := b.toNat_lt
  obtain ⟨v₂, h₂, htwo⟩ := decodeLoop_two a (char (b.toNat % 16 * 4 + low) :: text) hi v
    (show b.toNat / 16 < 16 by omega) (by omega) (show (out.length : Int) < outLength by omega)
  obtain ⟨v₃, h₃, hthird⟩ := decodeLoop_next (b.toNat % 16 * 4 + low) text
    (show (i + 2) % 4 ≠ 0 by omega) (by omega) v₂
    (show ((out ++ [a]).length : Int) < outLength by
      rw [List.length_append, List.length_singleton]
      omega)
    (show _ = b.toNat by rw [show (i + 2) % 4 = 2 by omega]; omega)
  rw [List.append_assoc, List.singleton_append] at hthird
  exact ⟨v₃, by omega, htwo.trans hthird⟩

/-- **Four characters** store three bytes. -/
theorem decodeLoop_four (hfits : i + 4 < 2 ^ 31) (hroom : (out.length : Int) + 2 < outLength) :
    ∃ v' : BitVec 32,
      decodeLoop outLength (char (a.toNat / 4) :: char (a.toNat % 4 * 16 + b.toNat / 16) ::
          char (b.toNat % 16 * 4 + c.toNat / 64) :: char c.toNat :: text) i v out =
        decodeLoop outLength text (i + 4) v' (out ++ [a, b, c]) := by
  have hc := c.toNat_lt
  obtain ⟨v₃, h₃, hthree⟩ := decodeLoop_three a b (char c.toNat :: text) hi v
    (show c.toNat / 64 < 4 by omega) (by omega) (show (out.length : Int) + 1 < outLength by omega)
  obtain ⟨v₄, -, hfourth⟩ := decodeLoop_next c.toNat text (show (i + 3) % 4 ≠ 0 by omega) (by omega) v₃
    (show ((out ++ [a, b]).length : Int) < outLength by
      rw [List.length_append, List.length_cons, List.length_singleton]
      omega)
    (show _ = c.toNat by rw [show (i + 3) % 4 = 3 by omega]; omega)
  rw [List.append_assoc, List.cons_append, List.singleton_append] at hfourth
  exact ⟨v₄, hthree.trans hfourth⟩

end Groups

/-! ## The round trip -/

/-- **The loop on an encoding**, from the beginning of a group: with room for all of them it stores
the bytes that were encoded, if it can count its characters. -/
theorem decodeLoop_base64 {outLength : Int} (src : List UInt8) {i : Nat} (hi : i % 4 = 0)
    (hfits : i + (src.length + (src.length + 2) / 3) < 2 ^ 31) (v : BitVec 32) {out : List UInt8}
    (hroom : ((out ++ src).length : Int) ≤ outLength) :
    decodeLoop outLength (base64 src) i v out = some (out ++ src, ((out ++ src).length : Int)) := by
  induction src using base64.induct generalizing i v out with
  | case1 => rw [base64, decodeLoop, List.append_nil]
  | case2 a =>
    simp only [List.length_append, List.length_singleton] at hroom hfits
    obtain ⟨v₂, -, htwo⟩ := decodeLoop_two a [61, 61] hi v (show 0 < 16 by omega) (by omega)
      (show (out.length : Int) < outLength by omega)
    rw [base64, ← Nat.add_zero (a.toNat % 4 * 16), htwo, decodeLoop, if_pos (.inr rfl)]
  | case3 a b =>
    simp only [List.length_append, List.length_cons, List.length_nil] at hroom hfits
    obtain ⟨v₃, -, hthree⟩ := decodeLoop_three a b [61] hi v (show 0 < 4 by omega) (by omega)
      (show (out.length : Int) + 1 < outLength by omega)
    rw [base64, ← Nat.add_zero (b.toNat % 16 * 4), hthree, decodeLoop, if_pos (.inr rfl)]
  | case4 a b c src ih =>
    have hsplit : out ++ a :: b :: c :: src = (out ++ [a, b, c]) ++ src := by
      rw [List.append_assoc]
      rfl
    have hlength : ((out ++ [a, b, c]) ++ src).length = out.length + 3 + src.length := by
      rw [List.length_append, List.length_append]
      rfl
    rw [hsplit, hlength] at hroom
    simp only [List.length_cons] at hfits
    obtain ⟨v₄, hfour⟩ := decodeLoop_four a b c (base64 src) hi v (by omega)
      (show (out.length : Int) + 2 < outLength by omega)
    rw [base64, hfour, hsplit]
    exact ih (by omega) (by omega) v₄ (by rw [hlength]; exact hroom)

/-- Three bytes are four characters, and what is left of three is four characters too. -/
theorem length_base64 (src : List UInt8) : (base64 src).length = 4 * ((src.length + 2) / 3) := by
  induction src using base64.induct with
  | case1 => rfl
  | case2 a => simp [base64]
  | case3 a b => simp [base64]
  | case4 a b c src ih =>
    simp only [base64, List.length_cons, ih]
    omega

/-- A character of the alphabet is read. -/
theorem scanned_char (n : Nat) (text : List UInt8) :
    scanned (char n :: text) = char n :: scanned text := by
  obtain ⟨hzero, hpad, hsextet⟩ := sextetOf_char n
  exact List.takeWhile_cons_of_pos (by simp [hzero, hpad, hsextet])

/-- The decoder stops at the padding. -/
theorem scanned_pad (text : List UInt8) : scanned (61 :: text) = [] :=
  List.takeWhile_cons_of_neg (by decide)

/-- All of an encoding is read but the padding. -/
theorem length_scanned_base64 (src : List UInt8) :
    (scanned (base64 src)).length = src.length + (src.length + 2) / 3 := by
  induction src using base64.induct with
  | case1 => rfl
  | case2 a =>
    rw [base64, scanned_char, scanned_char, scanned_pad]
    simp
  | case3 a b =>
    rw [base64, scanned_char, scanned_char, scanned_char, scanned_pad]
    simp
  | case4 a b c src ih =>
    rw [base64, scanned_char, scanned_char, scanned_char, scanned_char]
    simp only [List.length_cons, ih]
    omega

/-- A source is encoded and decoded as it should be, with room for `outLength` bytes, and a text
that may be anything is decoded into no more than `bound` of them. -/
structure Decodes (src : List UInt8) (outLength : Int) (text : List UInt8) (bound : Int) : Prop where
  /-- The decoder returns the length of the source and restores it. -/
  restores : base64Decode (base64EncodeB src) outLength = some (src, (src.length : Int))
  /-- The encoding is four characters for every three bytes and for what is left of three. -/
  size : (base64EncodeB src).length = 4 * ((src.length + 2) / 3)
  /-- The decoder returns from the text and has not stored more than it may. -/
  bounded : ∃ stored returned, base64Decode text bound = some (stored, returned) ∧
    (stored.length : Int) ≤ bound

/-- **An encoding is decoded to what was encoded exactly if it is counted in an `int`**: this is so
below `3 * 2 ^ 29` bytes. Any other text is decoded within its bound exactly if the decoder stops
within `2 ^ 31` characters of it. -/
theorem base64_round_trip_iff (src : List UInt8) {outLength : Int} (hroom : src.length ≤ outLength)
    (text : List UInt8) {bound : Int} (hbound : 0 ≤ bound) :
    Decodes src outLength text bound ↔
      src.length < 3 * 2 ^ 29 ∧ (scanned text).length < 2 ^ 31 := by
  constructor
  · rintro ⟨hrestores, -, stored, returned, hdecoded, -⟩
    rw [base64EncodeB_eq] at hrestores
    have hsource := (decodeLoop_eq_none_iff outLength (base64 src) (by omega : 0 < 2 ^ 31) 0 []).not
    have htext := (decodeLoop_eq_none_iff bound text (by omega : 0 < 2 ^ 31) 0 []).not
    rw [length_scanned_base64] at hsource
    have hsource := hsource.1 (by rw [← base64Decode, hrestores]; exact Option.some_ne_none _)
    have htext := htext.1 (by rw [← base64Decode, hdecoded]; exact Option.some_ne_none _)
    omega
  · rintro ⟨hshort, hstops⟩
    refine ⟨?_, ?_, ?_⟩
    · rw [base64EncodeB_eq]
      exact @decodeLoop_base64 outLength src 0 rfl (by omega) 0 [] hroom
    · rw [base64EncodeB_eq, length_base64]
    · cases hdecoded : base64Decode text bound with
      | none =>
        have hlong := (decodeLoop_eq_none_iff bound text (by omega : 0 < 2 ^ 31) 0 []).1 hdecoded
        omega
      | some r => exact ⟨r.1, r.2, rfl, decodeLoop_length text 0 0 hbound hdecoded⟩

/-- Four bytes into four, and a text of four bytes into two. -/
theorem base64_round_trip_apes :
    Decodes (ascii "apes") 4 (ascii "YXBlcw==") 2 ↔
      (ascii "apes").length < 3 * 2 ^ 29 ∧ (scanned (ascii "YXBlcw==")).length < 2 ^ 31 :=
  base64_round_trip_iff (ascii "apes") (by decide) (ascii "YXBlcw==") (by decide)

/-- `3 * 2 ^ 29` bytes make `2 ^ 31` characters, and the decoder does not count to that: it is given
a length that is an `int`, and returns nothing. -/
theorem base64_round_trip_fails :
    ¬ ∀ src : List UInt8, ∀ outLength : Int, src.length ≤ outLength → outLength < 2 ^ 31 →
      base64Decode (base64EncodeB src) outLength = some (src, (src.length : Int)) := by
  intro hall
  have hlength : (List.replicate (3 * 2 ^ 29) (0 : UInt8)).length = 3 * 2 ^ 29 :=
    List.length_replicate
  have hrestores := hall (List.replicate (3 * 2 ^ 29) 0) (3 * 2 ^ 29) (by rw [hlength]; norm_num)
    (by norm_num)
  have hnone : base64Decode (base64EncodeB (List.replicate (3 * 2 ^ 29) 0)) (3 * 2 ^ 29) = none := by
    rw [base64EncodeB_eq, base64Decode, decodeLoop_eq_none_iff _ _ (by omega),
      length_scanned_base64, hlength]
    norm_num
  rw [hnone] at hrestores
  cases hrestores

end Ape.Codec

import ApeServer.Json.RoundTrip

/-!
# Integers in decimal

The printer gives `itos` an array for the digits of the number and hands it the number as an unsigned
one; the sign `itos` looks for is gone by then.

* `decimalText` — the number as it should be printed;
* `integerText_decimal_iff` — **exactly the positive numbers are printed in decimal and inside the
  array**.
-/

namespace Ape.Json

/-- A number in decimal, with a minus in front of a negative one. -/
def decimalText (n : Int64) : List UInt8 :=
  if n.toInt < 0 then 45 :: Decimal.text n.toInt.natAbs else Decimal.text n.toInt.natAbs

/-- `itos` stays inside the array of `LENGTH_N + 2` bytes it is given for this number. -/
def ItosInside (libm : Libm) (n : Int64) : Prop :=
  (itos n.toUInt64 (List.replicate (lengthN libm n + 2) 0)
    (UInt8.ofNat (lengthN libm n + 2))).isSome = true

/-- A text that is printed has been written inside the array. -/
theorem ItosInside.of_text {libm : Libm} {n : Int64} {text : List UInt8}
    (h : integerText libm n = some text) : ItosInside libm n := by
  unfold ItosInside
  obtain ⟨written, hwritten, -⟩ := Option.bind_eq_some_iff.1 h
  rw [hwritten]
  rfl

/-- A positive number in decimal is its digits. -/
theorem decimalText_of_pos {n : Int64} (h : 0 < n.toInt) :
    decimalText n = Decimal.text n.toInt.toNat := by
  have habs : n.toInt.natAbs = n.toInt.toNat := by omega
  rw [decimalText, if_neg (by omega), habs]

/-- A negative number in decimal starts with a minus, which digits do not. -/
theorem decimalText_ne_of_neg {n : Int64} (h : n.toInt < 0) {k : Nat} (hk : 0 < k) :
    decimalText n ≠ Decimal.text k := by
  intro heq
  obtain ⟨d, ds, htext, hd, -⟩ := Decimal.head_text hk
  rw [decimalText, if_pos h, htext] at heq
  have hminus : (45 : UInt8).toNat = (Decimal.digit d).toNat :=
    congrArg UInt8.toNat (List.cons.inj heq).1
  rw [Decimal.digit_toNat hd.2] at hminus
  have hvalue : (45 : UInt8).toNat = 45 := rfl
  omega

/-- **Exactly the positive numbers are printed in decimal**: a negative one is printed as an unsigned
number, or its digits run over the front of the array. -/
theorem integerText_decimal_iff (libm : Libm) (n : Int64) (hn : n ≠ 0) :
    (integerText libm n = some (decimalText n) ∧ ItosInside libm n) ↔ 0 < n.toInt := by
  constructor
  · rintro ⟨htext, -⟩
    by_contra hpos
    have hzero : n.toInt ≠ 0 := by
      intro hzero
      exact hn (Int64.toInt_inj.1 hzero)
    have hneg : n.toInt < 0 := by omega
    obtain ⟨k, hk, heq⟩ := integerText_of_neg hneg htext
    exact decimalText_ne_of_neg hneg (by omega) heq
  · intro hpos
    have htext : integerText libm n = some (decimalText n) := by
      rw [decimalText_of_pos hpos]
      exact integerText_of_pos libm hpos
    exact ⟨htext, .of_text htext⟩

/-- `42` is printed in decimal. -/
theorem integerText_decimal_answer :
    integerText exactLibm 42 = some (decimalText 42) ∧ ItosInside exactLibm 42 :=
  (integerText_decimal_iff exactLibm 42 (by decide)).2 (by decide)

/-- The digits of `-1` run over the front of the array of three bytes, and the smallest number is
printed without its sign. -/
theorem integerText_negative :
    ¬ ItosInside exactLibm (-1) ∧
    integerText exactLibm Int64.minValue ≠ some (decimalText Int64.minValue) := by
  refine ⟨?_, ?_⟩
  · have hlog : lengthN exactLibm (-1) = 1 := by
      unfold lengthN exactLibm
      norm_num
      decide
    unfold ItosInside
    rw [itos_eq _ _ (lengthN_lt ..), if_neg]
    · simp
    · rw [hlog, Decimal.length_text_le_iff]
      decide
  · intro h
    have hneg : (Int64.minValue).toInt < 0 := by decide
    obtain ⟨k, hk, heq⟩ := integerText_of_neg hneg h
    exact decimalText_ne_of_neg hneg (by omega) heq

end Ape.Json

import Mathlib

/-!
# C integers: when the wrapping operations are exact

The model keeps an `int` as `Int32` and an `unsigned int` as `UInt32`, whose operations wrap.
These lemmas say when the integers they stand for move as written, so that the proofs can leave
the machine words and argue over `ℤ`.
-/

namespace CInt

/-- A difference that fits an `int` is computed exactly. -/
theorem toInt_sub {a b : Int32} (hlo : -2 ^ 31 ≤ a.toInt - b.toInt)
    (hhi : a.toInt - b.toInt < 2 ^ 31) : (a - b).toInt = a.toInt - b.toInt := by
  rw [Int32.toInt_sub]
  exact Int.bmod_eq_of_le_mul_two (by omega) (by omega)

/-- A sum that fits an `int` is computed exactly. -/
theorem toInt_add {a b : Int32} (hlo : -2 ^ 31 ≤ a.toInt + b.toInt)
    (hhi : a.toInt + b.toInt < 2 ^ 31) : (a + b).toInt = a.toInt + b.toInt := by
  rw [Int32.toInt_add]
  exact Int.bmod_eq_of_le_mul_two (by omega) (by omega)

/-- What is taken off both sides of a difference cancels, whether or not anything wraps. -/
theorem sub_sub_sub_cancel (a b c : Int32) : a - b - (c - b) = a - c := by grind

/-- The difference of two non-negative ints never overflows. -/
theorem toInt_sub_of_nonneg {a b : Int32} (ha : 0 ≤ a.toInt) (hb : 0 ≤ b.toInt) :
    (a - b).toInt = a.toInt - b.toInt := by
  have := a.toInt_lt
  have := b.toInt_lt
  exact toInt_sub (by omega) (by omega)

@[simp] theorem toInt_zero : (0 : Int32).toInt = 0 := rfl

@[simp] theorem toInt_one : (1 : Int32).toInt = 1 := rfl

/-- Counting a non-negative int down never overflows. -/
theorem toInt_pred {a : Int32} (ha : 0 ≤ a.toInt) : (a - 1).toInt = a.toInt - 1 := by
  rw [toInt_sub_of_nonneg ha (by simp), toInt_one]

/-- An `unsigned int` below `2 ^ 31` keeps its value in an `int`. -/
theorem toInt_toInt32 {u : UInt32} (hu : u.toNat < 2 ^ 31) : u.toInt32.toInt = u.toNat := by
  have h : u.toInt32 = Int32.ofNat u.toNat := by
    rw [← UInt32.toInt32_ofNat', UInt32.ofNat_toNat]
  rw [h, Int32.toInt_ofNat_of_lt hu]

end CInt

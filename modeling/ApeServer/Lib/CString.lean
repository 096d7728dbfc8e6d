import Mathlib.Data.UInt
import Mathlib.Data.List.Basic

/-!
# C strings compared without regard to case

A string is the list of its bytes, without the zero behind them.

* `lower` — a letter in lower case;
* `strcasecmp`, `strncasecmp` — the two comparisons, as far as they are tested for 0;
* `strcasecmp_iff`, `strncasecmp_iff` — **they compare the strings in lower case**.
-/

namespace Ape.CString

/-- A fact about every byte is checked byte by byte, one half behind the other. -/
theorem forall_byte {P : UInt8 → Prop} (hlow : ∀ n < 128, P (UInt8.ofNat n))
    (hhigh : ∀ n < 128, P (UInt8.ofNat (128 + n))) (c : UInt8) : P c := by
  have hlt := c.toNat_lt
  by_cases hc : c.toNat < 128
  · have hcode := hlow c.toNat hc
    rwa [UInt8.ofNat_toNat] at hcode
  · have hcode := hhigh (c.toNat - 128) (by omega)
    rwa [Nat.add_sub_cancel' (Nat.le_of_not_lt hc), UInt8.ofNat_toNat] at hcode

/-- A fact about every character of ASCII is checked one by one. -/
theorem forall_ascii {P : UInt8 → Prop} (h : ∀ n < 128, P (UInt8.ofNat n)) (c : UInt8)
    (hc : c.toNat < 128) : P c := by
  have hcode := h c.toNat hc
  rwa [UInt8.ofNat_toNat] at hcode

/-- A letter in lower case. -/
def lower (c : UInt8) : UInt8 := if 65 ≤ c ∧ c ≤ 90 then c + 32 else c

/-- `strcasecmp(s, t) == 0`. -/
def strcasecmp : List UInt8 → List UInt8 → Bool
  | [], [] => true
  | a :: s, b :: t => lower a == lower b && strcasecmp s t
  | _, _ => false

/-- `strncasecmp(s, t, n) == 0`: a zero in both ends the comparison. -/
def strncasecmp : Nat → List UInt8 → List UInt8 → Bool
  | 0, _, _ => true
  | n + 1, a :: s, b :: t => lower a == lower b && (a == 0 || strncasecmp n s t)
  | _ + 1, _, _ => false

theorem strcasecmp_iff {s t : List UInt8} : strcasecmp s t = true ↔ s.map lower = t.map lower := by
  induction s generalizing t with
  | nil =>
    cases t with
    | nil => exact iff_of_true rfl rfl
    | cons b t => exact iff_of_false Bool.false_ne_true (by simp)
  | cons a s ih =>
    cases t with
    | nil => exact iff_of_false Bool.false_ne_true (by simp)
    | cons b t =>
      rw [strcasecmp, Bool.and_eq_true, beq_iff_eq, ih, List.map_cons, List.map_cons,
        List.cons_eq_cons]

theorem strncasecmp_iff {s t : List UInt8} (hs : 0 ∉ s) (hlen : t.length = s.length) :
    strncasecmp s.length s t = true ↔ s.map lower = t.map lower := by
  induction s generalizing t with
  | nil =>
    obtain rfl := List.length_eq_zero_iff.1 hlen
    exact iff_of_true rfl rfl
  | cons a s ih =>
    obtain ⟨b, t, rfl⟩ := List.exists_cons_of_length_eq_add_one hlen
    obtain ⟨ha, hs⟩ := not_or.1 (mt List.mem_cons.2 hs)
    have hzero : (a == 0) = false := by simpa using Ne.symm ha
    rw [List.length_cons, strncasecmp, hzero, Bool.false_or, Bool.and_eq_true, beq_iff_eq,
      ih hs (by simpa using hlen), List.map_cons, List.map_cons, List.cons_eq_cons]

end Ape.CString

import Mathlib.Data.Nat.Digits.Lemmas

/-!
# Decimal text

Numbers written in decimal, most significant digit first, as bytes of ASCII.

* `text` — the digits of a number, without leading zeros;
* `value` — the number some digits spell;
* `length_text_le_iff` — how many digits a number has;
* `value_text` — **the digits of a number spell it**.
-/

namespace Ape.Decimal

/-- A digit. -/
def digit (d : Nat) : UInt8 := UInt8.ofNat (48 + d)

/-- The digits of a number; none for zero. -/
def text (n : Nat) : List UInt8 := ((Nat.digits 10 n).map digit).reverse

/-- The number that some digits spell. -/
def value (ds : List UInt8) : Nat := Nat.ofDigits 10 (ds.reverse.map fun d => d.toNat - 48)

theorem digit_toNat {d : Nat} (h : d < 10) : (digit d).toNat = 48 + d := by
  have hlt : 48 + d < 256 := by omega
  simp [digit, Nat.mod_eq_of_lt hlt]

@[simp] theorem text_zero : text 0 = [] := by
  simp [text]

/-- The last digit stands behind those of the quotient. -/
theorem text_of_pos {n : Nat} (h : 0 < n) : text n = text (n / 10) ++ [digit (n % 10)] := by
  rw [text, Nat.digits_def' (by norm_num) h]
  simp [text]

/-- A number has at most `k` digits exactly below `10 ^ k`. -/
theorem length_text_le_iff (n k : Nat) : (text n).length ≤ k ↔ n < 10 ^ k := by
  rw [text, List.length_reverse, List.length_map]
  exact Nat.digits_length_le_iff (by norm_num) n

/-- The text of a number is made of digits and does not start with a zero. -/
theorem head_text {n : Nat} (h : 0 < n) :
    ∃ (d : Nat) (ds : List Nat), text n = digit d :: ds.map digit ∧ (0 < d ∧ d < 10) ∧ ∀ x ∈ ds, x < 10 := by
  induction n using Nat.strong_induction_on with
  | _ n ih =>
    rw [text_of_pos h]
    by_cases hlt : n < 10
    · have hdiv : n / 10 = 0 := by omega
      have hmod : n % 10 = n := by omega
      rw [hdiv, hmod, text_zero]
      exact ⟨n, [], rfl, ⟨h, hlt⟩, by simp⟩
    · obtain ⟨d, ds, htext, hd, hds⟩ := ih (n / 10) (by omega) (by omega)
      refine ⟨d, ds ++ [n % 10], ?_, hd, ?_⟩
      · rw [htext, List.cons_append, List.map_append]
        rfl
      · intro x hx
        rcases List.mem_append.1 hx with hx | hx
        · exact hds x hx
        · rw [List.mem_singleton.1 hx]
          omega

/-- **The digits of a number spell it.** -/
theorem value_text (n : Nat) : value (text n) = n := by
  have hdigits : ((Nat.digits 10 n).map digit).map (fun d => d.toNat - 48) = Nat.digits 10 n := by
    have hid : ∀ d ∈ Nat.digits 10 n, ((fun d : UInt8 => d.toNat - 48) ∘ digit) d = id d := by
      intro d hd
      have hlt := Nat.digits_lt_base (by norm_num : 1 < 10) hd
      simp [digit_toNat hlt]
    rw [List.map_map, List.map_congr_left hid, List.map_id]
  rw [value, text, List.reverse_reverse, hdigits, Nat.ofDigits_digits]

end Ape.Decimal

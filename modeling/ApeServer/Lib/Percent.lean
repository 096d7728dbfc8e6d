import Mathlib

/-!
# Percent-encoding

A percent sign and two hexadecimal digits stand for one byte, any other byte for itself.

* `decode` — what a text stands for; a percent sign without two digits stands for itself;
* `Complete` — every percent sign of a text has its two digits.
-/

namespace Percent

/-- The value of a hexadecimal digit, in either case. -/
def hexValue (c : UInt8) : Option UInt8 :=
  if 48 ≤ c ∧ c ≤ 57 then some (c - 48)
  else if 65 ≤ c ∧ c ≤ 70 then some (c - 55)
  else if 97 ≤ c ∧ c ≤ 102 then some (c - 87)
  else none

/-- The byte an escape stands for. -/
def escaped (a b : UInt8) : Option UInt8 := do
  let x ← hexValue a
  let y ← hexValue b
  some (x * 16 + y)

/-- What a text stands for. -/
def decode : List UInt8 → List UInt8
  | [] => []
  | [c] => [c]
  | [c, d] => [c, d]
  | c :: a :: b :: cs =>
    match if c = 37 then escaped a b else none with
    | some x => x :: decode cs
    | none => c :: decode (a :: b :: cs)

/-- A byte that is no `%` stands for itself. -/
theorem decode_cons_of_ne {c : UInt8} (hc : c ≠ 37) (cs : List UInt8) :
    decode (c :: cs) = c :: decode cs := by
  match cs with
  | [] => rfl
  | [d] => rfl
  | a :: b :: cs => rw [decode, if_neg hc]

/-- An escape decodes to the byte that its two digits stand for. -/
theorem decode_escape {a b x : UInt8} (hx : escaped a b = some x) (cs : List UInt8) :
    decode (37 :: a :: b :: cs) = x :: decode cs := by
  rw [decode, if_pos rfl, hx]

/-- Every percent sign has its two digits. -/
inductive Complete : List UInt8 → Prop
  | nil : Complete []
  | plain {c : UInt8} {cs : List UInt8} (hc : c ≠ 37) (hcs : Complete cs) : Complete (c :: cs)
  | escape {a b x : UInt8} {cs : List UInt8} (hx : escaped a b = some x) (hcs : Complete cs) :
      Complete (37 :: a :: b :: cs)

theorem hexValue_of_escaped {a b x : UInt8} (hx : escaped a b = some x) :
    ∃ y z, hexValue a = some y ∧ hexValue b = some z ∧ x = y * 16 + z := by
  obtain ⟨y, hy, hx⟩ := Option.bind_eq_some_iff.1 hx
  obtain ⟨z, hz, hx⟩ := Option.bind_eq_some_iff.1 hx
  exact ⟨y, z, hy, hz, (Option.some.inj hx).symm⟩

end Percent

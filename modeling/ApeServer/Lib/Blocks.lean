import Mathlib.Data.List.Basic

/-!
# A stream taken in blocks

A machine takes the blocks of a stream one after the other; what is left is shorter than a block
and waits for more.

* `absorb` — what the machine makes of a stream, and what is left;
* `absorb_append` — **a stream may be cut anywhere**: what is left goes in front of what comes;
* `absorb_sim` — a machine that simulates another one on blocks simulates it on streams.
-/

namespace Ape.Blocks

variable {S T B : Type*}

/-- The first `k` blocks of a stream. -/
def rounds (n : Nat) (f : S → List B → S) : Nat → S → List B → S
  | 0, s, _ => s
  | k + 1, s, xs => rounds n f k (f s (xs.take n)) (xs.drop n)

/-- The whole blocks of a stream, and what is left. -/
def absorb (n : Nat) (f : S → List B → S) (s : S) (xs : List B) : S × List B :=
  (rounds n f (xs.length / n) s xs, xs.drop (n * (xs.length / n)))

section Absorb

variable {n : Nat} {f : S → List B → S} {s : S} {l : List B}

/-- Less than a block is left as it is. -/
theorem absorb_short (h : l.length < n) : absorb n f s l = (s, l) := by
  simp [absorb, Nat.div_eq_of_lt h, rounds]

/-- The first whole block of a text is absorbed before the rest. -/
theorem absorb_block (hn : 0 < n) (h : n ≤ l.length) :
    absorb n f s l = absorb n f (f s (l.take n)) (l.drop n) := by
  have hcount : l.length / n = (l.length - n) / n + 1 := by
    rw [← Nat.add_div_right _ hn, Nat.sub_add_cancel h]
  simp only [absorb, List.length_drop, hcount, rounds, List.drop_drop]
  rw [Nat.mul_succ, Nat.add_comm]

/-- What is left is the remainder. -/
theorem length_absorb_snd : (absorb n f s l).2.length = l.length % n := by
  rw [absorb, List.length_drop]
  exact (Nat.mod_eq_sub_mul_div).symm

/-- **A stream may be cut anywhere.** -/
theorem absorb_append (hn : 0 < n) (ys : List B) : absorb n f s (l ++ ys) =
    absorb n f (absorb n f s l).1 ((absorb n f s l).2 ++ ys) := by
  induction hlen : l.length using Nat.strongRecOn generalizing s l with
  | ind m ih =>
    subst hlen
    by_cases h : n ≤ l.length
    · rw [absorb_block hn (l := l ++ ys) (by rw [List.length_append]; omega),
        List.take_append_of_le_length h, List.drop_append_of_le_length h, absorb_block hn h]
      exact ih _ (by rw [List.length_drop]; omega) rfl
    · rw [absorb_short (Nat.not_le.1 h)]

end Absorb

/-- **A simulation of the blocks** is one of the streams. -/
theorem absorb_sim {n : Nat} {f : S → List B → S} {g : T → List B → T} (π : S → T) (hn : 0 < n)
    (hsim : ∀ s b, b.length = n → π (f s b) = g (π s) b) (s : S) (xs : List B) :
    (π (absorb n f s xs).1, (absorb n f s xs).2) = absorb n g (π s) xs := by
  induction hlen : xs.length using Nat.strongRecOn generalizing s xs with
  | ind m ih =>
    subst hlen
    by_cases h : n ≤ xs.length
    · rw [absorb_block hn h, absorb_block hn h, ← hsim _ _ (by rw [List.length_take]; omega)]
      exact ih _ (by rw [List.length_drop]; omega) _ _ rfl
    · rw [absorb_short (Nat.not_le.1 h), absorb_short (Nat.not_le.1 h)]

end Ape.Blocks

import Mathlib.Computability.Language

/-!
# Automata that come back to where they started

A deterministic automaton `next` that may refuse an event reads a log by `List.foldlM`.  When every
way from a home state back to it spells a word of one language, the log of any run is a sequence of
such words and the beginning of another.

* `foldlM_invariant` — the induction over a run;
* `append_mem_mul_kstar` — one more word of a starred language;
* `run_mem_traces` — **the log of a run from home**.
-/

namespace Ape.Traces

open scoped Computability

variable {S E : Type*}

/-- What every event keeps is kept by a run. -/
theorem foldlM_invariant {next : S → E → Option S} {P : S → List E → Prop}
    (hnext : ∀ s e s' w, P s w → next s e = some s' → P s' (w ++ [e])) {es : List E} {s s' : S}
    {w : List E} (h : P s w) (hrun : es.foldlM next s = some s') : P s' (w ++ es) := by
  induction es generalizing s w with
  | nil =>
    obtain rfl : s = s' := Option.some.inj hrun
    rwa [List.append_nil]
  | cons e es ih =>
    rw [List.foldlM_cons] at hrun
    obtain ⟨s₁, hstep, hrest⟩ := Option.bind_eq_some_iff.1 hrun
    have := ih (hnext s e s₁ w h hstep) hrest
    rwa [List.append_assoc] at this

/-- No word of a starred language yet. -/
theorem mem_mul_kstar {A B : Language E} {w : List E} (h : w ∈ A) : w ∈ A * B∗ := by
  have := Language.append_mem_mul h (Language.nil_mem_kstar B)
  rwa [List.append_nil] at this

/-- One more word of a starred language. -/
theorem append_mem_mul_kstar {A B : Language E} {w v : List E} (h : w ∈ A * B∗) (hv : v ∈ B) :
    w ++ v ∈ A * B∗ := by
  have hmem : w ++ v ∈ A * B∗ * B := Language.append_mem_mul h hv
  have hle : A * B∗ * B ≤ A * B∗ := by
    rw [mul_assoc]
    exact mul_le_mul_right kstar_mul_le_kstar A
  exact hle hmem

section Cyclic

variable {next : S → E → Option S} {home : S} {part : S → Language E} {trace : Language E}

/-- **The log of a run from home** is a sequence of traces and a part of one. -/
theorem run_mem_traces (hhome : [] ∈ part home)
    (hnext : ∀ s e s' w, w ∈ part s → next s e = some s' →
      (s' = home ∧ w ++ [e] ∈ trace) ∨ w ++ [e] ∈ part s')
    {es : List E} {s : S} (hrun : es.foldlM next home = some s) :
    ∃ done ∈ trace∗, ∃ w ∈ part s, es = done ++ w := by
  have hstep : ∀ s e s' log, (∃ done ∈ trace∗, ∃ w ∈ part s, log = done ++ w) →
      next s e = some s' → ∃ done ∈ trace∗, ∃ w ∈ part s', log ++ [e] = done ++ w := by
    rintro s e s' log ⟨done, hdone, w, hw, rfl⟩ hs'
    rcases hnext s e s' w hw hs' with ⟨rfl, htrace⟩ | hpart
    · have hmem : done ++ (w ++ [e]) ∈ trace∗ * trace := Language.append_mem_mul hdone htrace
      have hle : trace∗ * trace ≤ trace∗ := kstar_mul_le_kstar
      exact ⟨done ++ (w ++ [e]), hle hmem, [], hhome, by simp⟩
    · exact ⟨done, hdone, w ++ [e], hpart, List.append_assoc _ _ _⟩
  have hstart : ∃ done ∈ trace∗, ∃ w ∈ part home, ([] : List E) = done ++ w :=
    ⟨[], Language.nil_mem_kstar trace, [], hhome, rfl⟩
  exact foldlM_invariant hstep hstart hrun

end Cyclic

end Ape.Traces

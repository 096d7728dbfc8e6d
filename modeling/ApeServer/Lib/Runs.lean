import Mathlib.Data.List.Infix

/-!
# Runs and what holds all along them

A deterministic system takes a list of events one after the other.  An invariant is a fact about
states; a condition is a fact about a state and the event that comes next.

* `EachStep`, `Always` — a condition of every step, a fact about every state of a run;
* `always_iff_prefix` — the states of a run are those behind its beginnings;
* `always_of_eachStep` — steps that keep an invariant keep it along a run;
* `always_iff_eachStep` — **when a fact is lost by every step that breaks a condition, it holds all
  along a run exactly when every step meets the condition**;
* `Along` — a fact about every entry of a log and those before it.
-/

namespace Ape.Runs

variable {S E : Type*} (step : S → E → S)

/-- Every step of a run meets a condition. -/
def EachStep (ok : S → E → Prop) : S → List E → Prop
  | _, [] => True
  | s, e :: es => ok s e ∧ EachStep ok (step s e) es

/-- A fact holds in every state of a run, from the first to the last. -/
def Always (fact : S → Prop) : S → List E → Prop
  | s, [] => fact s
  | s, e :: es => fact s ∧ Always fact (step s e) es

variable {step} {ok : S → E → Prop} {inv fact : S → Prop} {s : S} {es : List E}

theorem Always.first (h : Always step fact s es) : fact s := by
  cases es with
  | nil => exact h
  | cons e es => exact h.1

/-- The states of a run are those behind its beginnings. -/
theorem always_iff_prefix :
    Always step fact s es ↔ ∀ pre, pre <+: es → fact (pre.foldl step s) := by
  induction es generalizing s with
  | nil =>
    constructor
    · intro h pre hpre
      rw [List.prefix_nil.1 hpre]
      exact h
    · intro h
      exact h [] List.prefix_rfl
  | cons e es ih =>
    rw [Always, ih]
    constructor
    · rintro ⟨hs, hrest⟩ pre hpre
      cases pre with
      | nil => exact hs
      | cons e' pre =>
        obtain ⟨rfl, htail⟩ := List.cons_prefix_cons.1 hpre
        exact hrest pre htail
    · intro h
      refine ⟨h [] (List.nil_prefix), fun pre hpre => ?_⟩
      exact h (e :: pre) (List.cons_prefix_cons.2 ⟨rfl, hpre⟩)

/-- A fact holds at each step of a longer run if it does at those before and at the last one. -/
theorem eachStep_concat {e : E} :
    EachStep step ok s (es ++ [e]) ↔ EachStep step ok s es ∧ ok (es.foldl step s) e := by
  induction es generalizing s with
  | nil => simp [EachStep]
  | cons e' es ih => simp only [List.cons_append, EachStep, ih, List.foldl_cons, and_assoc]

/-- Steps that keep an invariant meet what the invariant makes of a condition. -/
theorem eachStep_mono {ok' : S → E → Prop} (hstep : ∀ s e, inv s → inv (step s e))
    (hok : ∀ s e, inv s → ok s e → ok' s e) (hs : inv s) (h : EachStep step ok s es) :
    EachStep step ok' s es := by
  induction es generalizing s with
  | nil => trivial
  | cons e es ih => exact ⟨hok s e hs h.1, ih (hstep s e hs) h.2⟩

/-- Steps that keep an invariant lead to a state that meets it. -/
theorem foldl_of_eachStep (hstep : ∀ s e, inv s → ok s e → inv (step s e)) (hs : inv s)
    (h : EachStep step ok s es) : inv (es.foldl step s) := by
  induction es generalizing s with
  | nil => exact hs
  | cons e es ih => exact ih (hstep s e hs h.1) h.2

/-- Steps that keep an invariant keep it along a run. -/
theorem always_of_eachStep (hstep : ∀ s e, inv s → ok s e → inv (step s e))
    (hfact : ∀ s, inv s → fact s) (hs : inv s) (h : EachStep step ok s es) :
    Always step fact s es := by
  induction es generalizing s with
  | nil => exact hfact s hs
  | cons e es ih => exact ⟨hfact s hs, ih (hstep s e hs h.1) h.2⟩

/-- **A fact that is lost by every step that breaks a condition** holds all along a run exactly when
every step meets the condition. -/
theorem always_iff_eachStep (hstep : ∀ s e, inv s → ok s e → inv (step s e))
    (hfact : ∀ s, inv s → fact s) (hlost : ∀ s e, inv s → fact (step s e) → ok s e) (hs : inv s) :
    Always step fact s es ↔ EachStep step ok s es := by
  refine ⟨fun h => ?_, always_of_eachStep hstep hfact hs⟩
  induction es generalizing s with
  | nil => trivial
  | cons e es ih =>
    have hok := hlost s e hs h.2.first
    exact ⟨hok, ih (hstep s e hs hok) h.2⟩

/-! ## Logs -/

/-- A fact about every entry of a log and the entries before it. -/
def Along (fact : List E → E → Prop) (log : List E) : Prop :=
  ∀ pre e post, log = pre ++ e :: post → fact pre e

theorem along_nil {fact : List E → E → Prop} : Along fact [] :=
  fun pre e post h => absurd h.symm (List.append_ne_nil_of_right_ne_nil pre (List.cons_ne_nil e post))

/-- A fact holds along a longer log if it does along the log before and at the last entry. -/
theorem along_concat {fact : List E → E → Prop} {log : List E} {e : E} :
    Along fact (log ++ [e]) ↔ Along fact log ∧ fact log e := by
  constructor
  · intro h
    refine ⟨fun pre e' post hlog => ?_, h log e [] rfl⟩
    exact h pre e' (post ++ [e]) (by rw [hlog, List.append_assoc, List.cons_append])
  · rintro ⟨hlog, he⟩ pre e' post hsplit
    rcases List.eq_nil_or_concat post with rfl | ⟨post', last, rfl⟩
    · obtain ⟨rfl, hlast⟩ := List.append_inj' hsplit rfl
      obtain rfl := (List.cons.inj hlast).1
      exact he
    · rw [List.concat_eq_append, ← List.cons_append, ← List.append_assoc] at hsplit
      exact hlog pre e' post' (List.append_inj' hsplit rfl).1

end Ape.Runs

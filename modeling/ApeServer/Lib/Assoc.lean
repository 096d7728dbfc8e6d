import Mathlib.Data.List.Find
import Mathlib.Data.List.Induction

/-!
# Association lists with replacement in place

A pair replaces the first one with its key where that one stands, and goes to the end when there is
none.

* `put`, `putAll` — one pair, and a sequence of them;
* `first`, `last` — the first and the last pair whose key has a property;
* `first_putAll` — **what is found is the last value of the key that was put first**.
-/

namespace Ape.Assoc

variable {K V : Type*}

/-- The first pair whose key has a property. -/
def first (P : K → Bool) (es : List (K × V)) : Option (K × V) := es.find? fun e => P e.1

/-- The last one. -/
def last (P : K → Bool) (es : List (K × V)) : Option (K × V) := first P es.reverse

section Find

variable {P : K → Bool}

theorem first_cons (e : K × V) (es : List (K × V)) :
    first P (e :: es) = if P e.1 then some e else first P es := by
  unfold first
  rw [List.find?_cons]
  cases P e.1 <;> rfl

theorem first_snoc (es : List (K × V)) (e : K × V) :
    first P (es ++ [e]) = (first P es).or (if P e.1 then some e else none) := by
  unfold first
  rw [List.find?_append, List.find?_singleton]

theorem last_snoc (es : List (K × V)) (e : K × V) :
    last P (es ++ [e]) = if P e.1 then some e else last P es := by
  unfold last
  rw [List.reverse_append, List.reverse_singleton, List.singleton_append, first_cons]

theorem first_congr {Q : K → Bool} {es : List (K × V)} (h : ∀ e ∈ es, P e.1 = Q e.1) :
    first P es = first Q es := List.find?_congr h

theorem last_congr {Q : K → Bool} {es : List (K × V)} (h : ∀ e ∈ es, P e.1 = Q e.1) :
    last P es = last Q es := first_congr fun e he => h e (List.mem_reverse.1 he)

theorem first_some {es : List (K × V)} {e : K × V} (h : first P es = some e) :
    e ∈ es ∧ P e.1 = true := by
  unfold first at h
  have hp := List.find?_some h
  exact ⟨List.mem_of_find?_eq_some h, hp⟩

theorem last_some {es : List (K × V)} {e : K × V} (h : last P es = some e) :
    e ∈ es ∧ P e.1 = true := by
  obtain ⟨hmem, hp⟩ := first_some h
  exact ⟨List.mem_reverse.1 hmem, hp⟩

theorem exists_last {es : List (K × V)} {e : K × V} (hmem : e ∈ es) (he : P e.1 = true) :
    ∃ e', last P es = some e' := by
  refine Option.isSome_iff_exists.1 ?_
  unfold last first
  rw [List.find?_isSome]
  exact ⟨e, List.mem_reverse.2 hmem, he⟩

end Find

/-- A list that has a key, split at the first pair with it. -/
theorem exists_split {es : List (K × V)} {k : K} (h : ¬ ∀ e ∈ es, e.1 ≠ k) :
    ∃ es₁ w es₂, es = es₁ ++ (k, w) :: es₂ ∧ ∀ e ∈ es₁, e.1 ≠ k := by
  induction es with
  | nil => exact absurd (by simp) h
  | cons e es ih =>
    by_cases he : e.1 = k
    · exact ⟨[], e.2, es, by rw [← he]; rfl, by simp⟩
    · have hrest : ¬ ∀ e ∈ es, e.1 ≠ k := fun hes => h (by simpa using ⟨he, fun a b => hes (a, b)⟩)
      obtain ⟨es₁, w, es₂, rfl, hes₁⟩ := ih hrest
      refine ⟨e :: es₁, w, es₂, rfl, fun x hx => ?_⟩
      rcases List.mem_cons.1 hx with rfl | hx
      · exact he
      · exact hes₁ x hx

section Put

variable [DecidableEq K]

/-- The pair `(k, v)` in the place of the first pair with the key `k`, or at the end. -/
def put : List (K × V) → K → V → List (K × V)
  | [], k, v => [(k, v)]
  | e :: es, k, v => if e.1 = k then (k, v) :: es else e :: put es k v

/-- A sequence of pairs put into an empty list. -/
def putAll (hs : List (K × V)) : List (K × V) := hs.foldl (fun es h => put es h.1 h.2) []

theorem put_of_not_mem {es : List (K × V)} {k : K} (h : ∀ e ∈ es, e.1 ≠ k) (v : V) :
    put es k v = es ++ [(k, v)] := by
  induction es with
  | nil => rfl
  | cons e es ih =>
    rw [put, if_neg (h e (List.mem_cons_self ..)), ih fun x hx => h x (List.mem_cons_of_mem _ hx)]
    rfl

theorem put_of_mem {es : List (K × V)} {k : K} (h : ∀ e ∈ es, e.1 ≠ k) (w : V)
    (es' : List (K × V)) (v : V) : put (es ++ (k, w) :: es') k v = es ++ (k, v) :: es' := by
  induction es with
  | nil => exact if_pos rfl
  | cons e es ih =>
    rw [List.cons_append, put, if_neg (h e (List.mem_cons_self ..)),
      ih fun x hx => h x (List.mem_cons_of_mem _ hx)]
    rfl

theorem putAll_snoc (hs : List (K × V)) (h : K × V) :
    putAll (hs ++ [h]) = put (putAll hs) h.1 h.2 := by
  simp [putAll]

/-- What is found behind `put`. -/
theorem first_put {P : K → Bool} (es : List (K × V)) (k : K) (v : V) :
    first P (put es k v) =
      match first P es with
      | none => if P k then some (k, v) else none
      | some e => some (if e.1 = k then (k, v) else e) := by
  induction es with
  | nil => exact first_cons (k, v) []
  | cons e es ih =>
    rw [put, first_cons e es]
    by_cases he : e.1 = k
    · rw [if_pos he, first_cons, he]
      by_cases hk : P k = true
      · rw [if_pos hk, if_pos hk]
        simp [he]
      · rw [if_neg hk, if_neg hk]
        cases hfind : first P es with
        | none => simp [hk]
        | some e' =>
          have hne : e'.1 ≠ k := by
            rintro rfl
            exact hk (first_some hfind).2
          simp [hne]
    · rw [if_neg he, first_cons]
      by_cases hp : P e.1 = true
      · rw [if_pos hp, if_pos hp]
        simp [he]
      · rw [if_neg hp, if_neg hp]
        exact ih

/-- **What is found** behind a sequence is the last value of the key that was put first. -/
theorem first_putAll {P : K → Bool} (hs : List (K × V)) :
    first P (putAll hs) = (first P hs).bind fun e => last (fun k => k = e.1) hs := by
  induction hs using List.reverseRecOn with
  | nil => rfl
  | append_singleton hs h ih =>
    rw [putAll_snoc, first_put, ih, first_snoc]
    cases hfirst : first P hs with
    | none =>
      by_cases hp : P h.1 = true
      · simp [hp, last_snoc]
      · simp [hp]
    | some e =>
      obtain ⟨e', hlast⟩ := exists_last (P := fun k => decide (k = e.1)) (first_some hfirst).1
        (by simp)
      have hkey : e'.1 = e.1 := by simpa using (last_some hlast).2
      simp only [Option.bind_some, Option.some_or, hlast, last_snoc, hkey]
      by_cases hk : e.1 = h.1
      · simp [hk]
      · simp [hk, Ne.symm hk]

end Put

end Ape.Assoc

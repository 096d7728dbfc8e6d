import Mathlib

/-!
# Delta lists

A delta list keeps a queue of deadlines as differences: each entry stores how far it lies behind
the entry in front of it, and only the first one is relative to the present.  Inserting walks the
list subtracting, and the entry that follows the new one is shortened by it.

* `insert` — the walk, over any ordered group of times and any payload;
* `dues` — the absolute deadlines a delta list stands for, seen from a base time;
* `dues_insert` — **insertion is ordered insertion of the deadline**: whatever the deltas are, the
  deadlines of the other entries do not move and the new one lands in front of the first entry
  that is not earlier;
* `filter_orderedInsert` — among those with its deadline the new entry is the first.
-/

namespace DeltaList

variable {G α : Type*} [AddCommGroup G]

/-- The absolute deadlines of a delta list seen from `base`. -/
def dues (base : G) : List (G × α) → List (G × α)
  | [] => []
  | (e, b) :: l => (base + e, b) :: dues (base + e) l

@[simp] theorem dues_nil (base : G) : dues base ([] : List (G × α)) = [] := rfl

@[simp] theorem dues_cons (base e : G) (b : α) (l : List (G × α)) :
    dues base ((e, b) :: l) = (base + e, b) :: dues (base + e) l := rfl

/-- The payloads keep their order. -/
@[simp] theorem map_snd_dues (base : G) (l : List (G × α)) :
    (dues base l).map Prod.snd = l.map Prod.snd := by
  induction l generalizing base with
  | nil => rfl
  | cons p l ih => obtain ⟨e, b⟩ := p; simp [ih]

/-- Moving the base by what the head loses leaves every deadline where it was. -/
theorem dues_shift_head (base c e : G) (b : α) (l : List (G × α)) :
    dues (base + c) ((e - c, b) :: l) = dues base ((e, b) :: l) := by
  have h : base + c + (e - c) = base + e := by abel
  simp only [dues_cons, h]

/-- Seen from another base, every deadline moves with it. -/
theorem dues_add (base c : G) (l : List (G × α)) :
    dues (base + c) l = (dues base l).map fun p => (p.1 + c, p.2) := by
  induction l generalizing base with
  | nil => rfl
  | cons p l ih =>
    obtain ⟨e, b⟩ := p
    have h : base + c + e = base + e + c := by abel
    simp only [dues_cons, List.map_cons, h, ih]

variable [LinearOrder G] [IsOrderedAddMonoid G]

/-- Queue the payload `a` at distance `d` from the present. -/
def insert (d : G) (a : α) : List (G × α) → List (G × α)
  | [] => [(d, a)]
  | (e, b) :: l => if d ≤ e then (d, a) :: (e - d, b) :: l else (e, b) :: insert (d - e) a l

/-- **Insertion is ordered insertion of the deadline.** -/
theorem dues_insert (base d : G) (a : α) (l : List (G × α)) :
    dues base (insert d a l) =
      (dues base l).orderedInsert (fun p q => p.1 ≤ q.1) (base + d, a) := by
  induction l generalizing base d with
  | nil => rfl
  | cons p l ih =>
    obtain ⟨e, b⟩ := p
    by_cases h : d ≤ e
    · have he : base + d + (e - d) = base + e := by abel
      simp [insert, h, he]
    · have hd : base + e + (d - e) = base + d := by abel
      simp [insert, h, ih, hd]

omit [AddCommGroup G] [IsOrderedAddMonoid G] in
/-- The new entry is the first one with its deadline. -/
theorem filter_orderedInsert (d : G) (p : G × α) (l : List (G × α)) :
    (l.orderedInsert (fun p q => p.1 ≤ q.1) p).filter (fun q => q.1 = d) =
      (if p.1 = d then [p] else []) ++ l.filter fun q => q.1 = d := by
  induction l with
  | nil => by_cases hp : p.1 = d <;> simp [hp]
  | cons q l ih =>
    by_cases h : p.1 ≤ q.1
    · rw [List.orderedInsert, if_pos h]
      by_cases hp : p.1 = d <;> simp [hp]
    · rw [List.orderedInsert, if_neg h]
      by_cases hq : q.1 = d
      · have hp : p.1 ≠ d := by
          rintro rfl
          exact h hq.ge
        rw [List.filter_cons_of_pos (by simpa using hq), ih, if_neg hp]
        simp [hq]
      · rw [List.filter_cons_of_neg (by simpa using hq), ih,
          List.filter_cons_of_neg (by simpa using hq)]

/-- Every deadline is at or after a base from which the head is not overdue, when no entry is
stored as earlier than the one in front of it. -/
theorem le_of_mem_dues {base : G} {l : List (G × α)} (hl : ∀ p ∈ l, 0 ≤ p.1) :
    ∀ q ∈ dues base l, base ≤ q.1 := by
  induction l generalizing base with
  | nil => simp
  | cons p l ih =>
    obtain ⟨e, b⟩ := p
    have he : 0 ≤ e := hl (e, b) (List.mem_cons_self ..)
    have hbase : base ≤ base + e := le_add_of_nonneg_right he
    intro q hq
    rcases List.mem_cons.1 hq with rfl | hq
    · exact hbase
    · exact hbase.trans (ih (fun p hp => hl p (List.mem_cons_of_mem _ hp)) q hq)

end DeltaList

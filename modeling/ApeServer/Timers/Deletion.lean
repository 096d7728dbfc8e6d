import ApeServer.Timers.Agenda

/-!
# Deleting a timer

`del_timer_identifier` links the predecessor of a node to its successor and frees the node.  The
delta of the node goes with it, so whatever stands behind loses that many ticks.

* `agenda_unlinkTimer` — the walk on a list cut at the node it finds: what stands in front keeps
  its deadlines, what stands behind is due earlier by the delta of the node;
* `delTimerIdentifier_keeps_iff` — **the others keep their ticks iff no timer has the identifier,
  or the first that has it is the last of the list or has the delta 0**.
-/

namespace Ape.Timers

/-- `get_timer_identifier`. -/
def getTimerIdentifier (identifier : UInt32) (g : ApeTimers) : Option TicksCallback :=
  g.timers.find? fun t => t.identifier == identifier

/-- The walk of `del_timer_identifier`: the first node with the identifier is unlinked. -/
def unlinkTimer (identifier : UInt32) : List TicksCallback → List TicksCallback
  | [] => []
  | t :: ts => if t.identifier = identifier then ts else t :: unlinkTimer identifier ts

/-- `del_timer_identifier`. -/
def delTimerIdentifier (identifier : UInt32) (g : ApeTimers) : ApeTimers :=
  { g with timers := unlinkTimer identifier g.timers }

/-- How many ticks each timer has left, with the timer: the sum of the deltas up to its own. -/
def ticksLeft (g : ApeTimers) : List (ℤ × TicksCallback) := agenda 0 g.timers

/-- What a deletion may do: take the first timer with the identifier off the list, and leave every
other timer, in its place, as many ticks as it had. -/
def OnlyGone (identifier : UInt32) (g g' : ApeTimers) : Prop :=
  ticksLeft g' = (ticksLeft g).eraseP fun p => p.2.identifier == identifier

instance (identifier : UInt32) (g g' : ApeTimers) : Decidable (OnlyGone identifier g g') :=
  inferInstanceAs (Decidable (_ = _))

@[simp] theorem TicksCallback.body_identifier (t : TicksCallback) :
    t.body.identifier = t.identifier := rfl

/-! ## The walk -/

/-- A node without the identifier is passed. -/
theorem unlinkTimer_cons_of_ne {identifier : UInt32} {t : TicksCallback}
    (h : t.identifier ≠ identifier) (l : List TicksCallback) :
    unlinkTimer identifier (t :: l) = t :: unlinkTimer identifier l := if_neg h

/-- The first node with the identifier is the one that goes. -/
theorem unlinkTimer_append {identifier : UInt32} {before behind : List TicksCallback}
    {t : TicksCallback} (hbefore : ∀ u ∈ before, u.identifier ≠ identifier)
    (ht : t.identifier = identifier) :
    unlinkTimer identifier (before ++ t :: behind) = before ++ behind := by
  induction before with
  | nil => exact if_pos ht
  | cons u us ih =>
    have hu := hbefore u (List.mem_cons_self ..)
    rw [List.cons_append, unlinkTimer_cons_of_ne hu, List.cons_append,
      ih fun v hv => hbefore v (List.mem_cons_of_mem _ hv)]

/-- Without a node that has the identifier the list stays as it is. -/
theorem unlinkTimer_of_absent {identifier : UInt32} {l : List TicksCallback}
    (h : ∀ u ∈ l, u.identifier ≠ identifier) : unlinkTimer identifier l = l := by
  induction l with
  | nil => rfl
  | cons u us ih =>
    rw [unlinkTimer_cons_of_ne (h u (List.mem_cons_self ..)),
      ih fun v hv => h v (List.mem_cons_of_mem _ hv)]

/-- The agenda of a list that is cut in two. -/
theorem agenda_append (now : ℤ) (l l' : List TicksCallback) :
    agenda now (l ++ l') = agenda now l ++ agenda (now + (l.map fun t => t.delta.toInt).sum) l' := by
  induction l generalizing now with
  | nil => simp
  | cons t ts ih => simp [ih, add_assoc]

/-- Seen from another tick, every deadline moves with it. -/
theorem agenda_add (now c : ℤ) (l : List TicksCallback) :
    agenda (now + c) l = (agenda now l).map fun p => (p.1 + c, p.2) :=
  DeltaList.dues_add now c (pairs l)

/-- **What a deletion does.**  The timers in front keep their deadlines, those behind are due
earlier by the delta that went with the node. -/
theorem agenda_unlinkTimer (now : ℤ) {identifier : UInt32} {before behind : List TicksCallback}
    {t : TicksCallback} (hbefore : ∀ u ∈ before, u.identifier ≠ identifier)
    (ht : t.identifier = identifier) :
    agenda now (unlinkTimer identifier (before ++ t :: behind)) =
      agenda now before ++
        (agenda (now + (before.map fun u => u.delta.toInt).sum + t.delta.toInt) behind).map
          fun p => (p.1 - t.delta.toInt, p.2) := by
  rw [unlinkTimer_append hbefore ht, agenda_append, agenda_add _ t.delta.toInt, List.map_map]
  congr 1
  refine (List.map_id'' (fun p => ?_) _).symm
  simp

/-- Moving a queue by `c` leaves it as it is only if it is empty or `c` is zero. -/
theorem agenda_eq_add_iff (now c : ℤ) (l : List TicksCallback) :
    agenda now l = agenda (now + c) l ↔ l = [] ∨ c = 0 := by
  cases l with
  | nil => simp
  | cons t ts =>
    constructor
    · intro heq
      rw [agenda_cons, agenda_cons] at heq
      have hhead := congrArg Prod.fst (List.cons.inj heq).1
      exact Or.inr (by simpa using hhead)
    · rintro (hnil | rfl)
      · exact absurd hnil (List.cons_ne_nil t ts)
      · rw [add_zero]

/-- The identifiers on the agenda are those of the list. -/
theorem identifier_of_mem_agenda {now : ℤ} {identifier : UInt32} {l : List TicksCallback}
    (h : ∀ u ∈ l, u.identifier ≠ identifier) :
    ∀ p ∈ agenda now l, p.2.identifier ≠ identifier := by
  intro p hp
  have hmem : p.2 ∈ l.map TicksCallback.body := by
    rw [← map_snd_agenda now l]
    exact List.mem_map.2 ⟨p, hp, rfl⟩
  obtain ⟨u, hu, hup⟩ := List.mem_map.1 hmem
  rw [← hup, TicksCallback.body_identifier]
  exact h u hu

/-- What a deletion should leave of a list that is cut at the node. -/
theorem eraseP_agenda (now : ℤ) {identifier : UInt32} {before behind : List TicksCallback}
    {t : TicksCallback} (hbefore : ∀ u ∈ before, u.identifier ≠ identifier)
    (ht : t.identifier = identifier) :
    (agenda now (before ++ t :: behind)).eraseP (fun p => p.2.identifier == identifier) =
      agenda now before ++
        agenda (now + (before.map fun u => u.delta.toInt).sum + t.delta.toInt) behind := by
  have hskip : ∀ p ∈ agenda now before, ¬ (p.2.identifier == identifier) = true := by
    intro p hp
    rw [beq_iff_eq]
    exact identifier_of_mem_agenda hbefore p hp
  rw [agenda_append, List.eraseP_append_right _ hskip, agenda_cons,
    List.eraseP_cons_of_pos (by simpa using ht)]

/-- On a list that is cut at the node, the others keep their ticks iff nothing counts on the delta
of the node. -/
theorem onlyGone_iff_of_cut {identifier : UInt32} {g : ApeTimers}
    {before behind : List TicksCallback} {t : TicksCallback}
    (hlist : g.timers = before ++ t :: behind)
    (hbefore : ∀ u ∈ before, u.identifier ≠ identifier) (ht : t.identifier = identifier) :
    OnlyGone identifier g (delTimerIdentifier identifier g) ↔ behind = [] ∨ t.delta = 0 := by
  have hzero : t.delta.toInt = 0 ↔ t.delta = 0 := by
    rw [← CInt.toInt_zero, Int32.toInt_inj]
  rw [OnlyGone, ticksLeft, ticksLeft, delTimerIdentifier, hlist, eraseP_agenda 0 hbefore ht,
    unlinkTimer_append hbefore ht, agenda_append, List.append_cancel_left_eq, agenda_eq_add_iff,
    hzero]

/-- With no such timer nothing changes. -/
theorem onlyGone_of_absent {identifier : UInt32} {g : ApeTimers}
    (habsent : ∀ u ∈ g.timers, u.identifier ≠ identifier) :
    OnlyGone identifier g (delTimerIdentifier identifier g) := by
  rw [OnlyGone, ticksLeft, ticksLeft, delTimerIdentifier, unlinkTimer_of_absent habsent,
    List.eraseP_of_forall_not]
  intro p hp
  rw [beq_iff_eq]
  exact identifier_of_mem_agenda habsent p hp

/-! ## The frame -/

/-- Nothing counts on the delta of the timer that `identifier` finds: there is none, or it is the
last one, or its delta is 0. -/
def Unneeded (identifier : UInt32) (g : ApeTimers) : Prop :=
  getTimerIdentifier identifier g = none ∨
    ∃ before t behind, g.timers = before ++ t :: behind ∧
      (∀ u ∈ before, u.identifier ≠ identifier) ∧ t.identifier = identifier ∧
      (behind = [] ∨ t.delta = 0)

/-- **Deleting a timer leaves the others their ticks iff nothing counts on its delta.** -/
theorem delTimerIdentifier_keeps_iff (identifier : UInt32) (g : ApeTimers) :
    OnlyGone identifier g (delTimerIdentifier identifier g) ↔ Unneeded identifier g := by
  constructor
  · intro h
    cases hfind : getTimerIdentifier identifier g with
    | none => exact Or.inl hfind
    | some t =>
      obtain ⟨ht, before, behind, hlist, hbefore⟩ := List.find?_eq_some_iff_append.1 hfind
      have hid : t.identifier = identifier := by simpa using ht
      have hfront : ∀ u ∈ before, u.identifier ≠ identifier := fun u hu => by
        simpa using hbefore u hu
      exact Or.inr ⟨before, t, behind, hlist, hfront, hid,
        (onlyGone_iff_of_cut hlist hfront hid).1 h⟩
  · rintro (hnone | ⟨before, t, behind, hlist, hbefore, ht, h⟩)
    · apply onlyGone_of_absent
      intro u hu
      simpa using List.find?_eq_none.1 hnone u hu
    · exact (onlyGone_iff_of_cut hlist hbefore ht).2 h

/-- **The deadlines do move.**  Of two timers with the delays 1 and 2 the first is deleted, and
the second has one tick left instead of two. -/
theorem delTimerIdentifier_moves_second :
    ∃ g, runOps (fun _ => ⟨[], false⟩) 1 [.add (.timeout 1 5 6), .add (.timeout 2 7 8)] .init =
        some g ∧ ¬ OnlyGone 0 g (delTimerIdentifier 0 g) :=
  ⟨_, rfl, by decide⟩

end Ape.Timers

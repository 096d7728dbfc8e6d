import ApeServer.Timers.Basic
import ApeServer.Lib.CInt

/-!
# The agenda: what a timer list promises

A timer list is a delta list of `DeltaList` whose payload is the node without its delta.  While
no delta is negative the C subtractions are exact, and the list stands for a queue of absolute
deadlines, its `agenda`.

* `pairs_insertTimer` — the walk of `add_timeout` is `DeltaList.insert`;
* `agenda_insertTimer` — so an add is an ordered insertion of one deadline into the agenda;
* `fireHead_eq` — one round of the loop in its three phases, `begun`, `returned` and `finish`;
* `drain` — the loop of `process_tick` without the `++` and `--` that cancel between two rounds;
  `processTick_eq_drain` says that it computes the same.
-/

namespace Ape.Timers

/-- A node without its delta. -/
def TicksCallback.body (t : TicksCallback) : TicksCallback := { t with delta := 0 }

@[simp] theorem TicksCallback.body_serial (t : TicksCallback) : t.body.serial = t.serial := rfl

@[simp] theorem TicksCallback.body_times (t : TicksCallback) : t.body.times = t.times := rfl

@[simp] theorem TicksCallback.body_ticksNeed (t : TicksCallback) :
    t.body.ticksNeed = t.ticksNeed := rfl

@[simp] theorem TicksCallback.body_with_delta (t : TicksCallback) (d : Int32) :
    TicksCallback.body { t with delta := d } = t.body := rfl

@[simp] theorem TicksCallback.called_serial (t : TicksCallback) : t.called.serial = t.serial := rfl

@[simp] theorem TicksCallback.called_delta (t : TicksCallback) : t.called.delta = t.delta := rfl

@[simp] theorem TicksCallback.called_ticksNeed (t : TicksCallback) :
    t.called.ticksNeed = t.ticksNeed := rfl

theorem TicksCallback.called_times_of_pos (t : TicksCallback) (h : 0 < t.times) :
    t.called.times = t.times - 1 := if_pos h

theorem TicksCallback.called_times_of_not_pos (t : TicksCallback) (h : ¬ 0 < t.times) :
    t.called.times = t.times := if_neg h

/-- The timer list as a delta list over `ℤ`. -/
def pairs (l : List TicksCallback) : List (ℤ × TicksCallback) :=
  l.map fun t => (t.delta.toInt, t.body)

@[simp] theorem pairs_nil : pairs [] = [] := rfl

@[simp] theorem pairs_cons (t : TicksCallback) (l : List TicksCallback) :
    pairs (t :: l) = (t.delta.toInt, t.body) :: pairs l := rfl

/-- No delta of the list is negative. -/
def NonNeg (l : List TicksCallback) : Prop := ∀ t ∈ l, 0 ≤ t.delta.toInt

@[simp] theorem nonNeg_nil : NonNeg [] := by simp [NonNeg]

@[simp] theorem nonNeg_cons (t : TicksCallback) (l : List TicksCallback) :
    NonNeg (t :: l) ↔ 0 ≤ t.delta.toInt ∧ NonNeg l := by simp [NonNeg]

theorem NonNeg.pairs {l : List TicksCallback} (h : NonNeg l) : ∀ p ∈ pairs l, 0 ≤ p.1 := by
  intro p hp
  obtain ⟨t, ht, rfl⟩ := List.mem_map.1 hp
  exact h t ht

/-! ## Insertion -/

/-- The walk of `add_timeout` is the insertion of a delta list, as long as nothing is negative. -/
theorem pairs_insertTimer {new : TicksCallback} {l : List TicksCallback}
    (hnew : 0 ≤ new.delta.toInt) (hl : NonNeg l) :
    pairs (insertTimer new l) = DeltaList.insert new.delta.toInt new.body (pairs l) := by
  induction l generalizing new with
  | nil => rfl
  | cons t ts ih =>
    obtain ⟨ht, hts⟩ := (nonNeg_cons t ts).1 hl
    by_cases h : new.delta ≤ t.delta
    · have hle := Int32.le_iff_toInt_le.1 h
      simp [insertTimer, DeltaList.insert, h, hle, CInt.toInt_sub_of_nonneg ht hnew]
    · have hlt : ¬ new.delta.toInt ≤ t.delta.toInt := fun hle => h (Int32.le_iff_toInt_le.2 hle)
      have hsub := CInt.toInt_sub_of_nonneg hnew ht
      have hrest := @ih { new with delta := new.delta - t.delta }
        (by simp only [hsub]; omega) hts
      simp only [insertTimer, if_neg h, pairs_cons, DeltaList.insert, if_neg hlt, hrest, hsub,
        TicksCallback.body_with_delta]

/-- Insertion keeps the deltas non-negative. -/
theorem nonNeg_insertTimer {new : TicksCallback} {l : List TicksCallback}
    (hnew : 0 ≤ new.delta.toInt) (hl : NonNeg l) : NonNeg (insertTimer new l) := by
  induction l generalizing new with
  | nil => simpa [insertTimer] using hnew
  | cons t ts ih =>
    obtain ⟨ht, hts⟩ := (nonNeg_cons t ts).1 hl
    by_cases h : new.delta ≤ t.delta
    · have hle := Int32.le_iff_toInt_le.1 h
      have hsub := CInt.toInt_sub_of_nonneg ht hnew
      simp only [insertTimer, if_pos h, nonNeg_cons, hsub]
      exact ⟨hnew, by omega, hts⟩
    · have hlt : ¬ new.delta.toInt ≤ t.delta.toInt := fun hle => h (Int32.le_iff_toInt_le.2 hle)
      have hsub := CInt.toInt_sub_of_nonneg hnew ht
      simp only [insertTimer, if_neg h, nonNeg_cons]
      exact ⟨ht, ih (by simp only [hsub]; omega) hts⟩

/-- Whatever the deltas are, the walk links the new node in and loses none: up to order the
nodes are the old ones and the new one. -/
theorem bodies_insertTimer (new : TicksCallback) (l : List TicksCallback) :
    ((insertTimer new l).map TicksCallback.body).Perm (new.body :: l.map TicksCallback.body) := by
  induction l generalizing new with
  | nil => exact List.Perm.refl _
  | cons t ts ih =>
    by_cases h : new.delta ≤ t.delta
    · simp [insertTimer, h]
    · simp only [insertTimer, if_neg h, List.map_cons]
      exact (List.Perm.cons _ (ih _)).trans (List.Perm.swap ..)

theorem serials_insertTimer (new : TicksCallback) (l : List TicksCallback) :
    ((insertTimer new l).map (·.serial)).Perm (new.serial :: l.map (·.serial)) := by
  have h := (bodies_insertTimer new l).map TicksCallback.serial
  simpa [List.map_map, Function.comp_def] using h

/-- Every node of the new list is the new one or an old one, up to its delta. -/
theorem body_of_mem_insertTimer {new t : TicksCallback} {l : List TicksCallback}
    (ht : t ∈ insertTimer new l) : t.body = new.body ∨ ∃ u ∈ l, t.body = u.body := by
  have hmem := (bodies_insertTimer new l).subset (List.mem_map.2 ⟨t, ht, rfl⟩)
  rcases List.mem_cons.1 hmem with h | h
  · exact Or.inl h
  · obtain ⟨u, hu, hut⟩ := List.mem_map.1 h
    exact Or.inr ⟨u, hu, hut.symm⟩

/-- The node an add makes. -/
def newNode (r : AddRequest) (g : ApeTimers) : TicksCallback :=
  { ticksNeed := r.msec.toInt32, delta := r.msec.toInt32, times := r.times,
    identifier := g.ntimers, protect := 1, func := r.func, params := r.params,
    serial := g.serials }

/-- Both kinds of add link one node in. -/
theorem serve_eq (inside : Option Int32) (r : AddRequest) (g : ApeTimers) :
    serve inside r g = { g with
      timers := insertTimer (newNode r g) g.timers
      ntimers := g.ntimers + 1
      serials := g.serials + 1
      log := g.log ++ [.added g.serials g.ticks r.msec r.times inside] } := by
  cases r <;> rfl

/-- Arming again links the node in with its period for a delta. -/
theorem rearm_timers (t : TicksCallback) (g : ApeTimers) :
    (rearm t g).timers = insertTimer { t with delta := t.ticksNeed } g.timers := by
  simp only [rearm, addTimeout, Int32.toInt32_toUInt32]

/-! ## The agenda -/

/-- The absolute deadlines of the list, seen from tick `now`. -/
def agenda (now : ℤ) (l : List TicksCallback) : List (ℤ × TicksCallback) :=
  DeltaList.dues now (pairs l)

@[simp] theorem agenda_nil (now : ℤ) : agenda now [] = [] := rfl

@[simp] theorem agenda_cons (now : ℤ) (t : TicksCallback) (l : List TicksCallback) :
    agenda now (t :: l) = (now + t.delta.toInt, t.body) :: agenda (now + t.delta.toInt) l := rfl

/-- The agenda lists the nodes in order. -/
theorem map_snd_agenda (now : ℤ) (l : List TicksCallback) :
    (agenda now l).map Prod.snd = l.map TicksCallback.body := by
  simp [agenda, pairs]

theorem serials_agenda (now : ℤ) (l : List TicksCallback) :
    (agenda now l).map (·.2.serial) = l.map (·.serial) := by
  have h := congrArg (List.map TicksCallback.serial) (map_snd_agenda now l)
  simpa [List.map_map, Function.comp_def] using h

/-- An add is an ordered insertion of its deadline. -/
theorem agenda_insertTimer (now : ℤ) {new : TicksCallback} {l : List TicksCallback}
    (hnew : 0 ≤ new.delta.toInt) (hl : NonNeg l) :
    agenda now (insertTimer new l) =
      (agenda now l).orderedInsert (fun p q => p.1 ≤ q.1) (now + new.delta.toInt, new.body) := by
  rw [agenda, pairs_insertTimer hnew hl, DeltaList.dues_insert]
  rfl

theorem mem_agenda_insertTimer {now : ℤ} {new : TicksCallback} {l : List TicksCallback}
    (hnew : 0 ≤ new.delta.toInt) (hl : NonNeg l) {p : ℤ × TicksCallback} :
    p ∈ agenda now (insertTimer new l) ↔
      p = (now + new.delta.toInt, new.body) ∨ p ∈ agenda now l := by
  rw [agenda_insertTimer now hnew hl, List.mem_orderedInsert]

/-- Nothing on a non-negative agenda is overdue. -/
theorem le_of_mem_agenda {now : ℤ} {l : List TicksCallback} (hl : NonNeg l) :
    ∀ p ∈ agenda now l, now ≤ p.1 :=
  DeltaList.le_of_mem_dues hl.pairs

/-! ## One round of the loop -/

/-- The state in which the callback of `t` starts. -/
def begun (env : Nat → CallbackRun) (t : TicksCallback) (rest : List TicksCallback)
    (g : ApeTimers) : ApeTimers :=
  { g with
    timers := t.called :: rest
    calls := g.calls + 1
    log := g.log ++ [.fired t.serial g.ticks (env g.calls).setsLast] }

/-- The state in which the callback of `t` returns. -/
def returned (env : Nat → CallbackRun) (t : TicksCallback) (rest : List TicksCallback)
    (g : ApeTimers) : ApeTimers :=
  (env g.calls).adds.foldl (serveInside t.serial) (begun env t rest g)

/-- What the round does once the callback has returned and the list behind `t` is `R`. -/
def finish (t : TicksCallback) (setsLast : Bool) (R : List TicksCallback) (g : ApeTimers) :
    ApeTimers :=
  if t.lastcall setsLast then { g with timers := R } else rearm t.called { g with timers := R }

/-- A round calls back, unlinks what the head was and arms it again. -/
theorem fireHead_eq (env : Nat → CallbackRun) (t : TicksCallback) (rest : List TicksCallback)
    (g : ApeTimers) :
    fireHead env t rest g = finish t (env g.calls).setsLast
      (nextOf t.serial (returned env t rest g).timers) (returned env t rest g) := rfl

@[simp] theorem finish_ticks (t : TicksCallback) (b : Bool) (R : List TicksCallback)
    (g : ApeTimers) : (finish t b R g).ticks = g.ticks := by
  unfold finish
  split <;> rfl

@[simp] theorem finish_log (t : TicksCallback) (b : Bool) (R : List TicksCallback)
    (g : ApeTimers) : (finish t b R g).log = g.log := by
  unfold finish
  split <;> rfl

/-- What stands behind the head is what `nextOf` finds. -/
theorem nextOf_head (f : TicksCallback) (R : List TicksCallback) :
    nextOf f.serial (f :: R) = R := by
  simp [nextOf]

/-! ## One tick, without the cancelling `++` and `--` -/

/-- `--timers->delta` on the head. -/
def decHead : List TicksCallback → List TicksCallback
  | [] => []
  | t :: ts => { t with delta := t.delta - 1 } :: ts

@[simp] theorem decHead_nil : decHead [] = [] := rfl

@[simp] theorem decHead_cons (t : TicksCallback) (ts : List TicksCallback) :
    decHead (t :: ts) = { t with delta := t.delta - 1 } :: ts := rfl

/-- Run the spent heads of a list that has already lost its tick. -/
def drain (env : Nat → CallbackRun) : Nat → ApeTimers → Option ApeTimers
  | 0, _ => none
  | fuel + 1, g =>
    match g.timers with
    | [] => some g
    | t :: rest => if t.delta ≤ 0 then drain env fuel (fireHead env t rest g) else some g

@[simp] theorem decHead_bumpHead (l : List TicksCallback) : decHead (bumpHead l) = l := by
  cases l with
  | nil => rfl
  | cons t ts => simp [bumpHead]

/-- `fireHead` reads the list through `t` and `rest` only. -/
@[simp] theorem fireHead_with_timers (env : Nat → CallbackRun) (t : TicksCallback)
    (rest l : List TicksCallback) (g : ApeTimers) :
    fireHead env t rest { g with timers := l } = fireHead env t rest g := rfl

theorem tickLoop_eq_drain (env : Nat → CallbackRun) (fuel : Nat) (g : ApeTimers) :
    tickLoop env fuel g = drain env fuel { g with timers := decHead g.timers } := by
  induction fuel generalizing g with
  | zero => rfl
  | succ n ih =>
    cases hl : g.timers with
    | nil => simp only [tickLoop, drain, hl, decHead_nil]; rw [← hl]
    | cons t rest =>
      simp only [tickLoop, drain, hl, decHead_cons, ih, decHead_bumpHead, fireHead_with_timers]

/-- **The `++`/`--` trick of `process_tick` is one decrement.**  A tick takes one off the head and
drains. -/
theorem processTick_eq_drain (env : Nat → CallbackRun) (fuel : Nat) (g : ApeTimers) :
    processTick env fuel g =
      drain env fuel { g with ticks := g.ticks + 1, timers := decHead g.timers } := by
  rw [processTick, tickLoop_eq_drain]

/-- A tick takes one off the head, and the clock has moved by one: no deadline moves. -/
theorem agenda_decHead (now : ℤ) {l : List TicksCallback} (hl : NonNeg l) :
    agenda (now + 1) (decHead l) = agenda now l := by
  cases l with
  | nil => rfl
  | cons t ts =>
    have ht : 0 ≤ t.delta.toInt := ((nonNeg_cons t ts).1 hl).1
    have h := DeltaList.dues_shift_head now 1 t.delta.toInt t.body (pairs ts)
    rw [decHead_cons, agenda, pairs_cons, CInt.toInt_pred ht]
    exact h

/-- More fuel changes nothing once the loop has returned. -/
theorem drain_mono {env : Nat → CallbackRun} {n m : Nat} {g g' : ApeTimers}
    (h : drain env n g = some g') (hnm : n ≤ m) : drain env m g = some g' := by
  induction n generalizing m g with
  | zero => simp [drain] at h
  | succ n ih =>
    obtain ⟨k, rfl⟩ : ∃ k, m = k + 1 := ⟨m - 1, by omega⟩
    cases hl : g.timers with
    | nil => simp only [drain, hl] at h ⊢; exact h
    | cons t rest =>
      simp only [drain, hl] at h ⊢
      split
      · rename_i hd
        rw [if_pos hd] at h
        exact ih h (by omega)
      · rename_i hd
        rwa [if_neg hd] at h

end Ape.Timers

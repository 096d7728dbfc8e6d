import ApeServer.Timers.Deadlines

/-!
# Timers with one deadline run latest first

The walk of `add_timeout` stops in front of the first node that is not due earlier, so a new timer
stands in front of all others that are due at the same tick.  A tick runs the list from its head.

* `Desk` — what the timers are for: a journal of what was armed for which tick, and `Desk.tick`, which
  runs what is armed for the tick that has come, **the latest first**;
* `slips_insertTimer` — an insertion is one slip on top of those for its tick;
* `stands_fireHead` — one round of `process_tick` is one call of the desk;
* `timers_run_latest_first` — **every run of the timers is the run of the desk**;
* `timers_keep_order_fails` — they do not run in the order in which they were added.
-/

namespace Ape.Timers

/-! ## The desk -/

/-- A timer as it was armed: its name, its delay and the calls left. -/
structure Slip where
  serial : Nat
  delay : Nat
  times : Int32
  deriving DecidableEq, Repr

/-- One call less, unless the timer runs forever. -/
def Slip.called (s : Slip) : Slip := { s with times := if 0 < s.times then s.times - 1 else s.times }

/-- The call is the last one. -/
def Slip.over (s : Slip) (setsLast : Bool) : Bool :=
  (decide (0 < s.times) && decide (s.called.times = 0)) || setsLast

/-- A clock, what was armed for which tick in the order in which it was, and the invocations with
their ticks. -/
structure Desk where
  now : Nat
  calls : Nat
  serials : Nat
  armed : List (Nat × Slip)
  invoked : List (Nat × Nat)
  deriving DecidableEq, Repr

/-- Nothing is armed. -/
def Desk.init : Desk := ⟨0, 0, 0, [], []⟩

/-- What is armed for a tick, oldest first. -/
def armedFor (d : Nat) (armed : List (Nat × Slip)) : List Slip :=
  (armed.filter fun a => a.1 = d).map Prod.snd

/-- A new timer is armed. -/
def Desk.add (D : Desk) (r : AddRequest) : Desk :=
  { D with
    serials := D.serials + 1
    armed := D.armed ++ [(D.now + r.msec.toNat, ⟨D.serials, r.msec.toNat, r.times⟩)] }

/-- A timer is called, and armed again under its name unless it is over; `serials` counts what is
armed. -/
def Desk.call (env : Nat → CallbackRun) (D : Desk) (s : Slip) : Desk :=
  let run := env D.calls
  let D' := run.adds.foldl Desk.add
    { D with calls := D.calls + 1, invoked := D.invoked ++ [(D.now, s.serial)] }
  if s.over run.setsLast then D'
  else { D' with
    serials := D'.serials + 1
    armed := D'.armed ++ [(D'.now + s.delay, s.called)] }

/-- The next tick: what is armed for it is called, the latest first. -/
def Desk.tick (env : Nat → CallbackRun) (D : Desk) : Desk :=
  (armedFor (D.now + 1) D.armed).reverse.foldl (Desk.call env) { D with now := D.now + 1 }

/-- One operation. -/
def Desk.exec (env : Nat → CallbackRun) (D : Desk) : TimerOp → Desk
  | .add r => D.add r
  | .tick => D.tick env

/-! ## What the list holds for a tick -/

/-- A node as it was armed. -/
def TicksCallback.slip (t : TicksCallback) : Slip := ⟨t.serial, t.ticksNeed.toInt.toNat, t.times⟩

/-- What the list holds for a tick, in its order. -/
def slips (d : Nat) (now : ℤ) (l : List TicksCallback) : List Slip :=
  ((agenda now l).filter fun p => p.1 = (d : ℤ)).map fun p => p.2.slip

/-- **An insertion** puts one slip on top of those for its tick. -/
theorem slips_insertTimer (d : Nat) (now : ℤ) {new : TicksCallback} {l : List TicksCallback}
    (hnew : 0 ≤ new.delta.toInt) (hl : NonNeg l) :
    slips d now (insertTimer new l) =
      (if now + new.delta.toInt = d then [new.slip] else []) ++ slips d now l := by
  rw [slips, agenda_insertTimer now hnew hl, DeltaList.filter_orderedInsert]
  split_ifs with h
  · rfl
  · rfl

theorem armedFor_append (d : Nat) (armed armed' : List (Nat × Slip)) :
    armedFor d (armed ++ armed') = armedFor d armed ++ armedFor d armed' := by
  rw [armedFor, List.filter_append, List.map_append]
  rfl

theorem armedFor_singleton (d : Nat) (a : Nat × Slip) :
    armedFor d [a] = if a.1 = d then [a.2] else [] := by
  by_cases h : a.1 = d
  · simp [armedFor, h]
  · simp [armedFor, h]

/-- The invocations of a log, with their ticks. -/
def invocations (log : List TimerEvent) : List (Nat × Nat) :=
  log.filterMap fun
    | .fired s tick _ => some (tick, s)
    | .added .. => none

theorem invocations_append (log log' : List TimerEvent) :
    invocations (log ++ log') = invocations log ++ invocations log' :=
  List.filterMap_append

/-- The names of the timers invoked at a tick, in order. -/
def invokedAt (d : Nat) (invoked : List (Nat × Nat)) : List Nat :=
  (invoked.filter fun p => p.1 = d).map Prod.snd

theorem invokedAt_concat (d : Nat) (invoked : List (Nat × Nat)) (p : Nat × Nat) :
    invokedAt d (invoked ++ [p]) = invokedAt d invoked ++ if p.1 = d then [p.2] else [] := by
  by_cases hp : p.1 = d
  · simp [invokedAt, hp]
  · simp [invokedAt, hp]

/-! ## The order of the desk -/

/-- Nothing is armed for a tick that has come, and each tick that is over has run what was armed for
it, the latest first. -/
structure Tidy (D : Desk) (due : List Slip) : Prop where
  delays : ∀ a ∈ D.armed, 1 ≤ a.2.delay
  dues : ∀ s ∈ due, 1 ≤ s.delay
  past : ∀ p ∈ D.invoked, p.1 ≤ D.now
  order : ∀ T ≤ D.now, invokedAt T D.invoked ++ (if T = D.now then due.map (·.serial) else []) =
    (armedFor T D.armed).reverse.map (·.serial)

/-- A slip that is armed for a later tick leaves the desk tidy. -/
theorem Tidy.arm {D : Desk} {due : List Slip} (h : Tidy D due) (serials : Nat) {s : Slip} {d : Nat}
    (hs : 1 ≤ s.delay) (hd : D.now < d) :
    Tidy { D with serials, armed := D.armed ++ [(d, s)] } due := by
  refine ⟨fun a ha => ?_, h.dues, h.past, fun T hT => ?_⟩
  · rcases List.mem_append.1 ha with ha | ha
    · exact h.delays a ha
    · rw [List.mem_singleton.1 ha]
      exact hs
  · have hne : d ≠ T := by
      rintro rfl
      exact absurd hT (Nat.not_le.2 hd)
    rw [armedFor_append, armedFor_singleton, if_neg hne, List.append_nil]
    exact h.order T hT

theorem Tidy.add {D : Desk} {due : List Slip} (h : Tidy D due) {r : AddRequest} (hr : r.InRange) :
    Tidy (D.add r) due :=
  h.arm (s := ⟨D.serials, r.msec.toNat, r.times⟩) _ hr.1 (Nat.lt_add_of_pos_right hr.1)

theorem Tidy.adds {adds : List AddRequest} (hadds : ∀ r ∈ adds, r.InRange) {D : Desk}
    {due : List Slip} (h : Tidy D due) :
    Tidy (adds.foldl Desk.add D) due ∧ (adds.foldl Desk.add D).now = D.now := by
  induction adds generalizing D with
  | nil => exact ⟨h, rfl⟩
  | cons r adds ih =>
    obtain ⟨hr, hrest⟩ := List.forall_mem_cons.1 hadds
    exact ih hrest (h.add hr)

/-- A call that is due leaves the desk tidy, and does not move the time. -/
theorem Tidy.call {env : Nat → CallbackRun} (henv : ∀ i, ∀ r ∈ (env i).adds, r.InRange) {D : Desk}
    {s : Slip} {due : List Slip} (h : Tidy D (s :: due)) :
    Tidy (D.call env s) due ∧ (D.call env s).now = D.now := by
  have hbegun : Tidy { D with calls := D.calls + 1, invoked := D.invoked ++ [(D.now, s.serial)] }
      due := by
    refine ⟨h.delays, fun x hx => h.dues x (List.mem_cons_of_mem _ hx), fun p hp => ?_,
      fun T hT => ?_⟩
    · rcases List.mem_append.1 hp with hp | hp
      · exact h.past p hp
      · rw [List.mem_singleton.1 hp]
    · rw [← h.order T hT, invokedAt_concat]
      by_cases hnow : T = D.now
      · simp [hnow]
      · simp [hnow, Ne.symm hnow]
  obtain ⟨hadds, hnow⟩ := hbegun.adds (henv D.calls)
  unfold Desk.call
  simp only
  by_cases hover : s.over (env D.calls).setsLast = true
  · rw [if_pos hover]
    exact ⟨hadds, hnow⟩
  · rw [if_neg hover]
    have hs := h.dues s (List.mem_cons_self ..)
    exact ⟨hadds.arm (s := s.called) _ hs (Nat.lt_add_of_pos_right hs), hnow⟩

theorem Tidy.calls {env : Nat → CallbackRun} (henv : ∀ i, ∀ r ∈ (env i).adds, r.InRange)
    (due : List Slip) {D : Desk} (h : Tidy D due) : Tidy (due.foldl (Desk.call env) D) [] := by
  induction due generalizing D with
  | nil => exact h
  | cons s due ih => exact ih (h.call henv).1

/-- A tick of a tidy desk leaves it tidy, with nothing due. -/
theorem Tidy.tick {env : Nat → CallbackRun} (henv : ∀ i, ∀ r ∈ (env i).adds, r.InRange) {D : Desk}
    (h : Tidy D []) : Tidy (D.tick env) [] := by
  refine Tidy.calls henv _ ⟨h.delays, fun s hs => ?_, fun p hp => (h.past p hp).trans
    (Nat.le_succ _), fun T hT => ?_⟩
  · obtain ⟨a, ha, rfl⟩ := List.mem_map.1 (List.mem_reverse.1 hs)
    exact h.delays a (List.mem_of_mem_filter ha)
  · simp only
    by_cases hnow : T = D.now + 1
    · subst hnow
      have hnone : invokedAt (D.now + 1) D.invoked = [] := by
        refine List.map_eq_nil_iff.2 (List.filter_eq_nil_iff.2 fun p hp => ?_)
        have := h.past p hp
        simp only [decide_eq_true_eq]
        omega
      rw [hnone, if_pos rfl, List.nil_append]
    · have hle : T ≤ D.now := by
        simp only at hT
        omega
      have horder := h.order T hle
      rw [List.map_nil, ite_self] at horder
      rw [if_neg hnow]
      exact horder

/-- A run of adds and ticks leaves the desk tidy. -/
theorem tidy_run {env : Nat → CallbackRun} (henv : ∀ i, ∀ r ∈ (env i).adds, r.InRange)
    {ops : List TimerOp} (hops : ∀ r, .add r ∈ ops → r.InRange) {D : Desk} (h : Tidy D []) :
    Tidy (ops.foldl (Desk.exec env) D) [] := by
  induction ops generalizing D with
  | nil => exact h
  | cons op ops ih =>
    refine ih (fun r hr => hops r (List.mem_cons_of_mem _ hr)) ?_
    cases op with
    | add r => exact h.add (hops r (List.mem_cons_self ..))
    | tick => exact h.tick henv

/-! ## The list stands for the desk -/

/-- The linked nodes `l` stand for the desk: those for a later tick are what is armed for it, the
latest first, and `due` is what is still to be run in this tick. -/
structure Stands (g : ApeTimers) (l : List TicksCallback) (D : Desk) (due : List Slip) : Prop where
  now : D.now = g.ticks
  calls : D.calls = g.calls
  serials : D.serials = g.serials
  invoked : D.invoked = invocations g.log
  later : ∀ d > g.ticks, slips d g.ticks l = (armedFor d D.armed).reverse
  due : slips g.ticks g.ticks l = due

/-- What is put on top of the list is what was armed last. -/
theorem Stands.arm {g : ApeTimers} {l : List TicksCallback} {D : Desk} {due : List Slip}
    (h : Stands g l D due) (hl : NonNeg l) (new : TicksCallback) (hnew : 0 < new.delta.toInt)
    {a : Nat × Slip} (hdeadline : (g.ticks : ℤ) + new.delta.toInt = (a.1 : ℤ))
    (hslip : new.slip = a.2) :
    (∀ d > g.ticks, slips d g.ticks (insertTimer new l) = (armedFor d (D.armed ++ [a])).reverse) ∧
      slips g.ticks g.ticks (insertTimer new l) = due := by
  constructor
  · intro d hd
    rw [slips_insertTimer d g.ticks hnew.le hl, h.later d hd, armedFor_append, armedFor_singleton,
      List.reverse_append, hdeadline, hslip]
    congr 1
    by_cases ha : a.1 = d
    · rw [if_pos ha, if_pos (by exact_mod_cast ha)]
      rfl
    · rw [if_neg ha, if_neg (by exact_mod_cast ha)]
      rfl
  · rw [slips_insertTimer _ g.ticks hnew.le hl, if_neg (by omega), h.due]
    rfl

/-- An add to the list of timers is an add to the desk. -/
theorem stands_serve {g : ApeTimers} {l : List TicksCallback} {D : Desk} {due : List Slip}
    (h : Stands g l D due) (hl : NonNeg l) {r : AddRequest} (hr : r.InRange)
    (inside : Option Int32) :
    Stands (serve inside r g) (insertTimer (newNode r g) l) (D.add r) due := by
  have hdelta : (newNode r g).delta.toInt = r.msec.toNat := CInt.toInt_toInt32 hr.2
  have hpos : 0 < (newNode r g).delta.toInt := by
    rw [hdelta]
    exact_mod_cast hr.1
  have hslip : (newNode r g).slip = ⟨D.serials, r.msec.toNat, r.times⟩ := by
    have hperiod : (newNode r g).ticksNeed.toInt = r.msec.toNat := hdelta
    rw [TicksCallback.slip, hperiod, Int.toNat_natCast, h.serials]
    rfl
  have harm := h.arm hl _ hpos
    (a := (D.now + r.msec.toNat, ⟨D.serials, r.msec.toNat, r.times⟩))
    (by rw [hdelta, h.now]; push_cast; rfl) hslip
  rw [serve_eq]
  refine ⟨h.now, h.calls, congrArg (· + 1) h.serials, ?_, harm.1, harm.2⟩
  show D.invoked = _
  rw [invocations_append, h.invoked]
  exact (List.append_nil _).symm

/-- The adds of a callback, while its node is still at the head. -/
theorem stands_callback {f : TicksCallback} {extra : List (ℤ × TicksCallback)} {k : Nat}
    {adds : List AddRequest} (hadds : ∀ r ∈ adds, r.InRange) {g : ApeTimers} {D : Desk}
    {due : List Slip} (hrun : Running f g extra k)
    (h : ∀ R, g.timers = f :: R → Stands g R D due) :
    ∀ R, (adds.foldl (serveInside f.serial) g).timers = f :: R →
      Stands (adds.foldl (serveInside f.serial) g) R (adds.foldl Desk.add D) due := by
  induction adds generalizing g D with
  | nil => exact h
  | cons r adds ih =>
    obtain ⟨hr, hrest⟩ := List.forall_mem_cons.1 hadds
    refine ih hrest (serveInside_running hrun hr) fun R hR => ?_
    obtain ⟨R₀, hR₀, hgood, -, -⟩ := hrun.rest
    have hpos : 0 < (newNode r g).delta.toInt := by
      rw [show (newNode r g).delta.toInt = r.msec.toNat from CInt.toInt_toInt32 hr.2]
      exact_mod_cast hr.1
    have hlist : (serveInside f.serial g r).timers = f :: insertTimer (newNode r g) R₀ := by
      rw [serveInside, serve_eq, hR₀]
      exact insertTimer_behind hrun.spent hpos
    rw [hlist] at hR
    obtain rfl := (List.cons.inj hR).2
    exact stands_serve (h R₀ hR₀) hgood.queue.nonNeg hr _

/-- The head is called and its slip taken off. -/
theorem stands_begun (env : Nat → CallbackRun) {g : ApeTimers} {t : TicksCallback}
    {rest : List TicksCallback} {D : Desk} {due : List Slip} (h : Stands g (t :: rest) D due)
    (hzero : t.delta.toInt = 0) :
    ∃ due', due = t.slip :: due' ∧
      Stands (begun env t rest g) rest
        { D with calls := D.calls + 1, invoked := D.invoked ++ [(D.now, t.serial)] } due' := by
  have hagenda : agenda (g.ticks : ℤ) (t :: rest) =
      ((g.ticks : ℤ), t.body) :: agenda g.ticks rest := by
    simp [hzero]
  refine ⟨slips g.ticks g.ticks rest, ?_, h.now, congrArg (· + 1) h.calls, h.serials, ?_, ?_, rfl⟩
  · rw [← h.due, slips, hagenda, List.filter_cons_of_pos (by simp)]
    rfl
  · show D.invoked ++ [(D.now, t.serial)] = _
    rw [begun, invocations_append, h.invoked, h.now]
    rfl
  · intro d hd
    have hd' : g.ticks < d := hd
    have hlater := h.later d hd
    rw [slips, hagenda, List.filter_cons_of_neg (by simpa using hd'.ne)] at hlater
    exact hlater

/-- **One round** of `process_tick` is one call of the desk. -/
theorem stands_fireHead {env : Nat → CallbackRun} (henv : ∀ i, ∀ r ∈ (env i).adds, r.InRange)
    {g : ApeTimers} {t : TicksCallback} {rest : List TicksCallback} {D : Desk} {due : List Slip}
    (hgood : Good g (t :: rest) [] g.ticks) (hspent : t.delta ≤ 0)
    (h : Stands g (t :: rest) D due) :
    ∃ due', due = t.slip :: due' ∧
      Stands (fireHead env t rest g) (fireHead env t rest g).timers (D.call env t.slip) due' := by
  obtain ⟨due', hdue, hbegun⟩ := stands_begun env h (hgood.spent_head hspent)
  refine ⟨due', hdue, ?_⟩
  have hrun := hgood.begun hspent env
  obtain ⟨⟨-, ⟨R, hR, hgoodR, -, -⟩, -⟩, -⟩ := callback_running (henv g.calls) hrun
  rw [TicksCallback.called_serial, ← returned] at hR hgoodR
  set D₁ := (env D.calls).adds.foldl Desk.add
    { D with calls := D.calls + 1, invoked := D.invoked ++ [(D.now, t.serial)] } with hD₁
  have hstands : Stands (returned env t rest g) R D₁ due' := by
    rw [hD₁, h.calls]
    refine stands_callback (henv g.calls) hrun (fun R₀ hR₀ => ?_) R hR
    rw [← (List.cons.inj hR₀).2, ← h.calls]
    exact hbegun
  have hnext : nextOf t.serial (returned env t rest g).timers = R := by
    rw [hR]
    exact nextOf_head t.called R
  have hover : t.slip.over (env D.calls).setsLast = t.lastcall (env g.calls).setsLast := by
    rw [h.calls]
    rfl
  have hcall : D.call env t.slip = if t.lastcall (env g.calls).setsLast then D₁
      else { D₁ with
        serials := D₁.serials + 1
        armed := D₁.armed ++ [(D₁.now + t.slip.delay, t.slip.called)] } := by
    rw [← hover]
    rfl
  rw [fireHead_eq, hnext, hcall, finish]
  by_cases hlast : t.lastcall (env g.calls).setsLast = true
  · rw [if_pos hlast, if_pos hlast]
    exact ⟨hstands.now, hstands.calls, hstands.serials, hstands.invoked, hstands.later, hstands.due⟩
  · rw [if_neg hlast, if_neg hlast]
    have hperiod := hgood.queue.period t (List.mem_cons_self ..)
    have harm := hstands.arm hgoodR.queue.nonNeg { t.called with delta := t.ticksNeed }
      hperiod (a := (D₁.now + t.slip.delay, t.slip.called))
      (by rw [hstands.now]; push_cast; rw [TicksCallback.slip, Int.toNat_of_nonneg hperiod.le]) rfl
    have hlist : (rearm t.called { returned env t rest g with timers := R }).timers =
        insertTimer { t.called with delta := t.ticksNeed } R := rearm_timers _ _
    rw [hlist]
    exact ⟨hstands.now, hstands.calls, congrArg (· + 1) hstands.serials, hstands.invoked, harm.1,
      harm.2⟩

/-! ## Ticks and runs -/

/-- Between two ticks nothing is due. -/
theorem Idle.slips_now {g : ApeTimers} (h : Idle g) : slips g.ticks g.ticks g.timers = [] := by
  refine List.map_eq_nil_iff.2 (List.filter_eq_nil_iff.2 fun p hp => ?_)
  have hahead := h.queue.ahead p hp
  simp only [decide_eq_true_eq]
  omega

/-- Draining runs the slips that are due, from the top. -/
theorem stands_drain {env : Nat → CallbackRun} (henv : ∀ i, ∀ r ∈ (env i).adds, r.InRange)
    (due : List Slip) {g : ApeTimers} {D : Desk} (hgood : Good g g.timers [] g.ticks)
    (h : Stands g g.timers D due) :
    ∃ g', drain env (due.length + 1) g = some g' ∧
      Stands g' g'.timers (due.foldl (Desk.call env) D) [] := by
  induction due generalizing g D with
  | nil =>
    refine ⟨g, ?_, h⟩
    cases hl : g.timers with
    | nil => simp only [drain, hl]
    | cons t rest =>
      have hnot : ¬ t.delta ≤ 0 := by
        intro hspent
        rw [hl] at hgood h
        obtain ⟨due', hdue, -⟩ := stands_fireHead henv hgood hspent h
        exact List.cons_ne_nil _ _ hdue.symm
      simp only [List.length_nil, drain, hl, if_neg hnot]
  | cons s due ih =>
    cases hl : g.timers with
    | nil =>
      have hempty := h.due
      rw [hl] at hempty
      cases hempty
    | cons t rest =>
      by_cases hspent : t.delta ≤ 0
      · rw [hl] at hgood h
        obtain ⟨due', hdue, hround⟩ := stands_fireHead henv hgood hspent h
        obtain ⟨rfl, rfl⟩ := List.cons.inj hdue
        obtain ⟨hticks, hkept, -⟩ := fireHead_good henv hgood hspent
        obtain ⟨g', hrun, hstands⟩ := ih (by rwa [hticks]) hround
        refine ⟨g', ?_, hstands⟩
        rw [List.length_cons, drain, hl]
        simpa only [if_pos hspent] using hrun
      · -- nothing behind a head that is not spent is due
        exfalso
        have hidle : Idle g := hgood.idle fun u hu => by
          rw [hl] at hu
          obtain rfl := Option.some.inj hu
          rw [Int32.le_iff_toInt_le, CInt.toInt_zero] at hspent
          omega
        exact List.cons_ne_nil _ _ (h.due.symm.trans hidle.slips_now)

/-- **A tick** is a tick of the desk. -/
theorem stands_processTick {env : Nat → CallbackRun} (henv : ∀ i, ∀ r ∈ (env i).adds, r.InRange)
    {g : ApeTimers} {D : Desk} (hidle : Idle g) (h : Stands g g.timers D []) :
    ∃ g' N, (∀ fuel ≥ N, processTick env fuel g = some g') ∧
      Stands g' g'.timers (D.tick env) [] := by
  have hagenda : agenda ((g.ticks + 1 : ℕ) : ℤ) (decHead g.timers) = agenda g.ticks g.timers := by
    rw [Nat.cast_succ]
    exact agenda_decHead g.ticks hidle.queue.nonNeg
  have hlater : ∀ d > g.ticks, slips d (g.ticks + 1 : ℕ) (decHead g.timers) =
      (armedFor d D.armed).reverse := by
    intro d hd
    rw [slips, hagenda]
    exact h.later d hd
  have hstart : Stands { g with ticks := g.ticks + 1, timers := decHead g.timers }
      (decHead g.timers) { D with now := D.now + 1 } (armedFor (D.now + 1) D.armed).reverse := by
    refine ⟨congrArg (· + 1) h.now, h.calls, h.serials, h.invoked, fun d hd => ?_, ?_⟩
    · exact hlater d ((Nat.lt_succ_self _).trans hd)
    · rw [h.now]
      exact hlater (g.ticks + 1) (Nat.lt_succ_self _)
  obtain ⟨g', hrun, hstands⟩ := stands_drain henv _ hidle.decHead hstart
  refine ⟨g', (armedFor (D.now + 1) D.armed).reverse.length + 1, fun fuel hfuel => ?_, hstands⟩
  rw [processTick_eq_drain]
  exact drain_mono hrun hfuel

/-- Every run of the timers returns, and leaves them where the run of the desk leaves it. -/
theorem stands_runOps {env : Nat → CallbackRun} (henv : ∀ i, ∀ r ∈ (env i).adds, r.InRange)
    {ops : List TimerOp} (hops : ∀ r, .add r ∈ ops → r.InRange) {g : ApeTimers} {D : Desk}
    (hidle : Idle g) (h : Stands g g.timers D []) :
    ∃ g' N, (∀ fuel ≥ N, runOps env fuel ops g = some g') ∧
      Stands g' g'.timers (ops.foldl (Desk.exec env) D) [] := by
  induction ops generalizing g D with
  | nil => exact ⟨g, 0, fun _ _ => rfl, h⟩
  | cons op ops ih =>
    have hop : ∀ r, op = .add r → r.InRange := by
      rintro r rfl
      exact hops r (List.mem_cons_self ..)
    have hrest : ∀ r, .add r ∈ ops → r.InRange := fun r hr => hops r (List.mem_cons_of_mem _ hr)
    have hstep : ∃ g₁ N, (∀ fuel ≥ N, op.exec env fuel g = some g₁) ∧
        Stands g₁ g₁.timers (Desk.exec env D op) [] := by
      cases op with
      | add r =>
        have hadd := stands_serve h hidle.queue.nonNeg (hop r rfl) none
        refine ⟨_, 0, fun fuel _ => rfl, ?_⟩
        rw [serve_eq] at hadd ⊢
        exact hadd
      | tick => exact stands_processTick henv hidle h
    obtain ⟨g₁, N, hexec, hstands⟩ := hstep
    obtain ⟨g₂, M, hidle₁, hexec'⟩ := exec_idle henv hidle hop
    -- the two runs of the operation are one
    obtain rfl : g₁ = g₂ := Option.some.inj <|
      (hexec _ (le_max_left N M)).symm.trans (hexec' _ (le_max_right N M))
    obtain ⟨g', K, hrun, hlast⟩ := ih hrest hidle₁ hstands
    refine ⟨g', max N K, fun fuel hfuel => ?_, hlast⟩
    rw [runOps, hexec fuel (le_of_max_le_left hfuel), Option.bind_some]
    exact hrun fuel (le_of_max_le_right hfuel)

/-- **Timers with one deadline run latest first.**  For every run of adds and ticks, the adds made
between ticks or from inside any callback, all delays between `1` and `2 ^ 31 - 1`: every tick
returns, and at each tick exactly those timers are invoked that were armed for it, by an add or again
after a call, in the reverse of the order in which they were armed. -/
theorem timers_run_latest_first (env : Nat → CallbackRun) (ops : List TimerOp)
    (henv : ∀ i, ∀ r ∈ (env i).adds, r.InRange) (hops : ∀ r, .add r ∈ ops → r.InRange) :
    ∃ g N, (∀ fuel ≥ N, runOps env fuel ops .init = some g) ∧
      invocations g.log = (ops.foldl (Desk.exec env) .init).invoked ∧
      ∀ T ≤ g.ticks, invokedAt T (invocations g.log) =
        (armedFor T (ops.foldl (Desk.exec env) .init).armed).reverse.map (·.serial) := by
  have hstands : Stands .init ApeTimers.init.timers .init [] := by
    refine ⟨rfl, rfl, rfl, rfl, fun d _ => rfl, rfl⟩
  have htidy : Tidy .init [] := by
    refine ⟨by simp [Desk.init], by simp, by simp [Desk.init], fun T _ => ?_⟩
    simp [Desk.init, invokedAt, armedFor]
  obtain ⟨g, N, hrun, hlast⟩ := stands_runOps henv hops idle_init hstands
  refine ⟨g, N, hrun, hlast.invoked.symm, fun T hT => ?_⟩
  have horder := (tidy_run henv hops htidy).order T (hlast.now ▸ hT)
  rw [List.map_nil, ite_self, List.append_nil] at horder
  rw [← hlast.invoked]
  exact horder

/-- Two calls dispatched before a tick, and one more from the first callback. -/
theorem timers_run_latest_first_two :
    ∃ g N, (∀ fuel ≥ N, runOps (fun i => ⟨if i = 0 then [.timeout 1 0 0] else [], false⟩) fuel
        [.add (.timeout 1 0 0), .add (.timeout 1 0 0), .tick, .tick] .init = some g) ∧
      invocations g.log = ([.add (.timeout 1 0 0), .add (.timeout 1 0 0), .tick, .tick].foldl
        (Desk.exec fun i => ⟨if i = 0 then [.timeout 1 0 0] else [], false⟩) .init).invoked ∧
      ∀ T ≤ g.ticks, invokedAt T (invocations g.log) =
        (armedFor T ([.add (.timeout 1 0 0), .add (.timeout 1 0 0), .tick, .tick].foldl
          (Desk.exec fun i => ⟨if i = 0 then [.timeout 1 0 0] else [], false⟩)
            .init).armed).reverse.map (·.serial) := by
  refine timers_run_latest_first _ _ (fun i r hr => ?_) (fun r hr => ?_)
  · by_cases hi : i = 0
    · simp only [hi, if_true, List.mem_singleton] at hr
      subst hr
      decide
    · simp [hi] at hr
  · simp only [List.mem_cons, TimerOp.add.injEq, reduceCtorEq, List.not_mem_nil, or_false,
      or_self] at hr
    subst hr
    decide

/-- **They do not run in the order in which they were added**: of two calls dispatched between two
ticks the second one runs first. -/
theorem timers_keep_order_fails : ¬ ∀ (rs : List AddRequest) (fuel : Nat) (g : ApeTimers),
    (∀ r ∈ rs, r.msec = 1) →
      runOps (fun _ => ⟨[], false⟩) fuel (rs.map .add ++ [.tick]) .init = some g →
      invokedAt 1 (invocations g.log) = addedSerials g.log := by
  intro h
  obtain ⟨g, hg⟩ : ∃ g, runOps (fun _ => ⟨[], false⟩) 3
      ([AddRequest.timeout 1 0 0, .timeout 1 0 0].map .add ++ [.tick]) .init = some g ∧
      invokedAt 1 (invocations g.log) = [1, 0] ∧ addedSerials g.log = [0, 1] :=
    ⟨_, rfl, by decide, by decide⟩
  have horder := h _ 3 g (by decide) hg.1
  rw [hg.2.1, hg.2.2] at horder
  exact absurd horder (by decide)

end Ape.Timers

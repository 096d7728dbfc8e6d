import ApeServer.Timers.Agenda

/-!
# When a tick returns

`process_tick` walks the list it re-arms timers into, so its length is no measure.  When no delta
is negative and no timer armed forever has the period 0, every invocation spends one of the calls
that are still due, and their number, `dueCalls`, is.

* `finish_tame` — the step lemma: a round keeps the list tame and loses no other timer;
* `drain_within`, `drain_returns` — so the loop returns, and has run everything that was due;
* `processTick_runs_due` — **every tick of a run of such adds returns, having run what was due**;
* `processTick_interval_zero` — a timer armed forever with the period 0 whose callback never sets
  its flag keeps the loop running for good.
-/

namespace Ape.Timers

/-- No callback adds a timer. -/
def Quiet (env : Nat → CallbackRun) : Prop := ∀ i, (env i).adds = []

/-- A request whose delay fits an `int` and, when it is armed forever, is not 0. -/
def AddRequest.Halting (r : AddRequest) : Prop :=
  r.msec.toNat < 2 ^ 31 ∧ (r.times ≤ 0 → 1 ≤ r.msec.toNat)

instance (r : AddRequest) : Decidable r.Halting := inferInstanceAs (Decidable (_ ∧ _))

/-- A node that such a request makes. -/
structure TicksCallback.Halting (t : TicksCallback) : Prop where
  period : 0 ≤ t.ticksNeed.toInt
  forever : t.times.toInt ≤ 0 → 0 < t.ticksNeed.toInt

/-- A list of such nodes, no delta negative. -/
structure Tame (l : List TicksCallback) : Prop where
  nonNeg : NonNeg l
  halting : ∀ t ∈ l, t.Halting

theorem tame_nil : Tame [] := ⟨nonNeg_nil, by simp⟩

theorem tame_cons {t : TicksCallback} {l : List TicksCallback} :
    Tame (t :: l) ↔ 0 ≤ t.delta.toInt ∧ t.Halting ∧ Tame l := by
  constructor
  · rintro ⟨hnonNeg, hhalting⟩
    obtain ⟨ht, hl⟩ := (nonNeg_cons t l).1 hnonNeg
    obtain ⟨ht', hl'⟩ := List.forall_mem_cons.1 hhalting
    exact ⟨ht, ht', hl, hl'⟩
  · rintro ⟨ht, ht', hl, hl'⟩
    exact ⟨(nonNeg_cons t l).2 ⟨ht, hl⟩, List.forall_mem_cons.2 ⟨ht', hl'⟩⟩

/-- Linking a halting node in keeps the list tame. -/
theorem Tame.insert {l : List TicksCallback} (h : Tame l) (new : TicksCallback)
    (hdelta : 0 ≤ new.delta.toInt) (hnew : new.Halting) : Tame (insertTimer new l) := by
  refine ⟨nonNeg_insertTimer hdelta h.nonNeg, fun t ht => ?_⟩
  rcases body_of_mem_insertTimer ht with heq | ⟨u, hu, heq⟩
  · refine ⟨?_, ?_⟩
    · rw [← t.body_ticksNeed, heq]
      exact hnew.period
    · rw [← t.body_ticksNeed, ← t.body_times, heq]
      exact hnew.forever
  · refine ⟨?_, ?_⟩
    · rw [← t.body_ticksNeed, heq]
      exact (h.halting u hu).period
    · rw [← t.body_ticksNeed, ← t.body_times, heq]
      exact (h.halting u hu).forever

/-! ## The measure -/

/-- How often a node may be called before it leaves the list or moves on to a later tick. -/
def TicksCallback.calls (t : TicksCallback) : Nat :=
  if 0 < t.times.toInt then t.times.toInt.toNat else 1

/-- The calls that the entries due at tick `now` may still ask for. -/
def dueCalls (now : ℤ) (l : List TicksCallback) : Nat :=
  ((agenda now l).map fun p => if p.1 ≤ now then p.2.calls else 0).sum

theorem dueCalls_insertTimer (now : ℤ) {new : TicksCallback} {l : List TicksCallback}
    (hdelta : 0 ≤ new.delta.toInt) (hl : NonNeg l) :
    dueCalls now (insertTimer new l) =
      (if new.delta.toInt ≤ 0 then new.calls else 0) + dueCalls now l := by
  have hperm := (List.perm_orderedInsert (fun p q : ℤ × TicksCallback => p.1 ≤ q.1)
    (now + new.delta.toInt, new.body) (agenda now l)).map
      fun p => if p.1 ≤ now then p.2.calls else 0
  have hiff : now + new.delta.toInt ≤ now ↔ new.delta.toInt ≤ 0 := by omega
  rw [dueCalls, agenda_insertTimer now hdelta hl, hperm.sum_eq, List.map_cons, List.sum_cons,
    dueCalls]
  simp only [hiff]
  rfl

/-- A node that is not over after a call either waits for a later tick or has a call less. -/
theorem TicksCallback.calls_called {t : TicksCallback} (ht : t.Halting) {b : Bool}
    (hlast : t.lastcall b = false) :
    t.called.Halting ∧ (t.ticksNeed.toInt ≤ 0 → t.called.calls < t.calls) := by
  simp only [TicksCallback.lastcall, Bool.or_eq_false_iff, Bool.and_eq_false_iff,
    decide_eq_false_iff_not] at hlast
  by_cases hpos : 0 < t.times.toInt
  · have hnode : 0 < t.times := Int32.lt_iff_toInt_lt.2 (by simpa using hpos)
    have hleft : t.called.times.toInt = t.times.toInt - 1 := by
      rw [t.called_times_of_pos hnode, CInt.toInt_pred hpos.le]
    have hmore : t.called.times.toInt ≠ 0 := fun h0 =>
      (hlast.1.resolve_left (not_not.2 hnode)) (Int32.toInt_inj.1 h0)
    have hagain : 0 < t.called.times.toInt := by omega
    refine ⟨⟨ht.period, fun h => by omega⟩, fun _ => ?_⟩
    rw [TicksCallback.calls, TicksCallback.calls, if_pos hagain, if_pos hpos, hleft]
    omega
  · have hneed := ht.forever (by omega)
    exact ⟨⟨ht.period, fun _ => hneed⟩, fun h => absurd hneed (by omega)⟩

theorem TicksCallback.calls_pos (t : TicksCallback) : 0 < t.calls := by
  unfold TicksCallback.calls
  split <;> omega

/-! ## One round -/

/-- Nothing is added while a quiet callback runs. -/
theorem fireHead_quiet {env : Nat → CallbackRun} (henv : Quiet env) (t : TicksCallback)
    (rest : List TicksCallback) (g : ApeTimers) :
    fireHead env t rest g = finish t (env g.calls).setsLast rest (begun env t rest g) := by
  have hreturned : returned env t rest g = begun env t rest g := by
    rw [returned, henv g.calls]
    rfl
  rw [fireHead_eq, hreturned]
  congr 1
  exact nextOf_head t.called rest

/-- **One round** keeps the list tame, spends a call, and leaves the other timers where they
were. -/
theorem finish_tame {t : TicksCallback} {R : List TicksCallback} (ht : t.Halting) (hR : Tame R)
    (b : Bool) (g : ApeTimers) (now : ℤ) :
    Tame (finish t b R g).timers ∧
      dueCalls now (finish t b R g).timers < t.calls + dueCalls now R ∧
      ∀ p ∈ agenda now R, p ∈ agenda now (finish t b R g).timers := by
  unfold finish
  cases hlast : t.lastcall b with
  | true =>
    have := t.calls_pos
    exact ⟨hR, by simp only [if_true]; omega, fun p hp => hp⟩
  | false =>
    obtain ⟨hcalled, hless⟩ := TicksCallback.calls_called ht hlast
    have hpos := t.calls_pos
    set new : TicksCallback := { t.called with delta := t.called.ticksNeed } with hnew
    have hdelta : 0 ≤ new.delta.toInt := hcalled.period
    have hlist : (rearm t.called { g with timers := R }).timers = insertTimer new R :=
      rearm_timers ..
    rw [if_neg Bool.false_ne_true, hlist]
    refine ⟨hR.insert _ hdelta ⟨hcalled.period, hcalled.forever⟩, ?_, fun p hp => ?_⟩
    · rw [dueCalls_insertTimer now hdelta hR.nonNeg]
      by_cases hneed : new.delta.toInt ≤ 0
      · have hlt : new.calls < t.calls := hless hneed
        rw [if_pos hneed]
        omega
      · rw [if_neg hneed]
        omega
    · exact (mem_agenda_insertTimer hdelta hR.nonNeg).2 (Or.inr hp)

/-! ## The loop -/

/-- Every entry of the agenda `q` that is due at tick `now` has been run at tick `now`. -/
def DueRun (now : Nat) (q : List (ℤ × TicksCallback)) (log : List TimerEvent) : Prop :=
  ∀ p ∈ q, p.1 ≤ now → ∃ b, .fired p.2.serial now b ∈ log

/-- What a round has run stays run. -/
theorem DueRun.mono {now : Nat} {q : List (ℤ × TicksCallback)} {log log' : List TimerEvent}
    (h : DueRun now q log) (hlog : log ⊆ log') : DueRun now q log' := by
  intro p hp hdue
  obtain ⟨b, hb⟩ := h p hp hdue
  exact ⟨b, hlog hb⟩

/-- A list whose head is not spent has nothing due. -/
theorem dueRun_of_not_spent {now : Nat} {t : TicksCallback} {rest : List TicksCallback}
    (h : NonNeg rest) (hspent : ¬ t.delta ≤ 0) (log : List TimerEvent) :
    DueRun now (agenda now (t :: rest)) log := by
  rw [Int32.le_iff_toInt_le, CInt.toInt_zero] at hspent
  intro p hp hdue
  rcases List.mem_cons.1 hp with rfl | hp
  · simp only at hdue
    omega
  · have := le_of_mem_agenda h p hp
    omega

/-- What a quiet round leaves: the clock, and one more event. -/
theorem fireHead_quiet_log {env : Nat → CallbackRun} (henv : Quiet env) (t : TicksCallback)
    (rest : List TicksCallback) (g : ApeTimers) :
    (fireHead env t rest g).ticks = g.ticks ∧ (fireHead env t rest g).log =
      g.log ++ [.fired t.serial g.ticks (env g.calls).setsLast] := by
  rw [fireHead_quiet henv, finish_ticks, finish_log]
  exact ⟨rfl, rfl⟩

/-- With more fuel than due calls the loop returns, everything that was due run. -/
theorem drain_within {env : Nat → CallbackRun} (henv : Quiet env) {n : Nat} {g : ApeTimers}
    (h : Tame g.timers) (hn : dueCalls g.ticks g.timers < n) :
    ∃ g', drain env n g = some g' ∧ g.ticks = g'.ticks ∧ Tame g'.timers ∧ g.log ⊆ g'.log ∧
      DueRun g.ticks (agenda g.ticks g.timers) g'.log := by
  induction n generalizing g with
  | zero => exact absurd hn (Nat.not_lt_zero _)
  | succ n ih =>
    cases hl : g.timers with
    | nil =>
      refine ⟨g, by simp only [drain, hl], rfl, h, List.Subset.refl _, ?_⟩
      simp [DueRun]
    | cons t rest =>
      rw [hl] at h hn
      obtain ⟨ht, hhalting, hrest⟩ := tame_cons.1 h
      by_cases hspent : t.delta ≤ 0
      · have hzero : t.delta.toInt = 0 := by
          have := Int32.le_iff_toInt_le.1 hspent
          simp only [CInt.toInt_zero] at this
          omega
        have hcalls : dueCalls (g.ticks : ℤ) (t :: rest) = t.calls + dueCalls g.ticks rest := by
          simp only [dueCalls, agenda_cons, hzero, add_zero, le_refl, if_true, List.map_cons,
            List.sum_cons]
          rfl
        obtain ⟨htame, hless, hkeep⟩ := finish_tame hhalting hrest (env g.calls).setsLast
          (begun env t rest g) g.ticks
        rw [← fireHead_quiet henv] at htame hless hkeep
        obtain ⟨hticks, hlog⟩ := fireHead_quiet_log henv t rest g
        obtain ⟨g', hrun, hticks', htame', hsub, hdue⟩ := ih htame (by rw [hticks]; omega)
        rw [hlog] at hsub
        rw [hticks] at hticks' hdue
        refine ⟨g', ?_, hticks', htame', List.Subset.trans (List.subset_append_left ..) hsub, ?_⟩
        · rw [drain, hl]
          simpa only [if_pos hspent] using hrun
        · intro p hp hp'
          rw [agenda_cons, hzero, add_zero] at hp
          rcases List.mem_cons.1 hp with rfl | hp
          · exact ⟨_, hsub (List.mem_append_right _ (List.mem_singleton_self _))⟩
          · exact hdue p (hkeep p hp) hp'
      · refine ⟨g, by simp only [drain, hl, if_neg hspent], rfl, by rwa [hl],
          List.Subset.refl _, dueRun_of_not_spent hrest.nonNeg hspent _⟩

/-- **The loop returns** on a tame list. -/
theorem drain_returns {env : Nat → CallbackRun} (henv : Quiet env) {g : ApeTimers}
    (h : Tame g.timers) :
    ∃ g' N, (∀ fuel ≥ N, drain env fuel g = some g') ∧ Tame g'.timers ∧ g.log ⊆ g'.log ∧
      DueRun g.ticks (agenda g.ticks g.timers) g'.log := by
  obtain ⟨g', hrun, -, htame, hsub, hdue⟩ := drain_within henv h (Nat.lt_succ_self _)
  exact ⟨g', dueCalls g.ticks g.timers + 1, fun _ => drain_mono hrun, htame, hsub, hdue⟩

/-! ## Ticks and runs -/

/-- No timer waits for this very tick behind a head that was due before it: the loop would give
the head's missing tick to it. -/
def HeadInTime (g : ApeTimers) : Prop :=
  ∀ t ∈ g.timers.head?, t.delta = 0 → ∀ p ∈ agenda g.ticks g.timers, p.1 ≠ g.ticks + 1

/-- **A tick returns** on a tame list; it has run what was due if no head is late. -/
theorem processTick_returns {env : Nat → CallbackRun} (henv : Quiet env) {g : ApeTimers}
    (h : Tame g.timers) :
    ∃ g' N, (∀ fuel ≥ N, processTick env fuel g = some g') ∧ Tame g'.timers ∧
      (HeadInTime g → DueRun (g.ticks + 1) (agenda g.ticks g.timers) g'.log) := by
  cases hl : g.timers with
  | nil =>
    refine ⟨{ g with ticks := g.ticks + 1 }, 1, fun fuel hfuel => ?_, h, ?_⟩
    · obtain ⟨k, rfl⟩ : ∃ k, fuel = k + 1 := ⟨fuel - 1, by omega⟩
      simp only [processTick, tickLoop, hl]
    · simp [DueRun]
  | cons t rest =>
    rw [hl] at h
    obtain ⟨ht, hhalting, hrest⟩ := tame_cons.1 h
    set t' : TicksCallback := { t with delta := t.delta - 1 } with ht'
    set start : ApeTimers := { g with ticks := g.ticks + 1, timers := t' :: rest } with hstart
    have htick : ∀ fuel, processTick env fuel g = drain env fuel start := by
      intro fuel
      rw [processTick_eq_drain, hl, decHead_cons]
    by_cases hzero : t.delta = 0
    · -- the head is late: its round leaves a tame list, which has lost the missing tick
      have hspent : t'.delta ≤ 0 := by
        simp only [ht', hzero]
        decide
      obtain ⟨htame, -, hkeep⟩ := finish_tame (t := t') ⟨hhalting.period, hhalting.forever⟩ hrest
        (env start.calls).setsLast (begun env t' rest start) start.ticks
      rw [← fireHead_quiet henv] at htame hkeep
      obtain ⟨hticks, hlog⟩ := fireHead_quiet_log henv t' rest start
      obtain ⟨g', N, hrun, htame', hsub, hdue⟩ := drain_returns henv htame
      rw [hlog] at hsub
      rw [hticks] at hdue
      refine ⟨g', N + 1, fun fuel hfuel => ?_, htame', fun hintime p hp hp' => ?_⟩
      · obtain ⟨k, rfl⟩ : ∃ k, fuel = k + 1 := ⟨fuel - 1, by omega⟩
        rw [htick, drain, hstart]
        simpa only [if_pos hspent] using hrun k (by omega)
      · have hbefore := hintime t (by rw [hl]; rfl) hzero p (by rwa [hl])
        rw [agenda_cons, hzero, CInt.toInt_zero, add_zero] at hp
        rcases List.mem_cons.1 hp with rfl | hp
        · exact ⟨_, hsub (List.mem_append_right _ (List.mem_singleton_self _))⟩
        · have hmoved : (p.1 + 1, p.2) ∈ agenda (start.ticks : ℤ) rest := by
            rw [hstart, agenda, Nat.cast_succ, DeltaList.dues_add]
            exact List.mem_map.2 ⟨p, hp, rfl⟩
          have hstill : p.1 + 1 ≤ (start.ticks : ℤ) := by
            rw [hstart]
            push_cast at hp' ⊢
            omega
          exact hdue (p.1 + 1, p.2) (hkeep _ hmoved) hstill
    · have hpos : 0 < t.delta.toInt := by
        refine lt_of_le_of_ne ht fun h0 => hzero (Int32.toInt_inj.1 ?_)
        simpa using h0.symm
      have htame : Tame start.timers := by
        refine tame_cons.2 ⟨?_, ⟨hhalting.period, hhalting.forever⟩, hrest⟩
        rw [CInt.toInt_pred ht]
        omega
      obtain ⟨g', N, hrun, htame', -, hdue⟩ := drain_returns henv htame
      refine ⟨g', N, fun fuel hfuel => ?_, htame', fun _ => ?_⟩
      · rw [htick]
        exact hrun fuel hfuel
      · have hagenda := agenda_decHead g.ticks h.nonNeg
        rw [decHead_cons] at hagenda
        rw [← hagenda]
        exact_mod_cast hdue

/-- An add from a request that halts keeps the list tame. -/
theorem serve_tame {g : ApeTimers} (h : Tame g.timers) {r : AddRequest} (hr : r.Halting) :
    Tame (serve none r g).timers := by
  have hdelta : r.msec.toInt32.toInt = r.msec.toNat := CInt.toInt_toInt32 hr.1
  rw [serve_eq]
  refine h.insert (newNode r g) ?_ ⟨?_, fun hforever => ?_⟩
  · simp [newNode, hdelta]
  · simp [newNode, hdelta]
  · have := hr.2 (Int32.le_iff_toInt_le.2 hforever)
    simp only [newNode, hdelta]
    omega

/-- Every run of such adds returns and keeps the list tame. -/
theorem runOps_tame {env : Nat → CallbackRun} (henv : Quiet env) {ops : List TimerOp}
    (hops : ∀ r, .add r ∈ ops → r.Halting) {g : ApeTimers} (h : Tame g.timers) :
    ∃ g' N, (∀ fuel ≥ N, runOps env fuel ops g = some g') ∧ Tame g'.timers := by
  induction ops generalizing g with
  | nil => exact ⟨g, 0, fun _ _ => rfl, h⟩
  | cons op ops ih =>
    have hstep : ∃ g₁ N, (∀ fuel ≥ N, op.exec env fuel g = some g₁) ∧ Tame g₁.timers := by
      cases op with
      | add r =>
        exact ⟨_, 0, fun _ _ => rfl, serve_tame h (hops r (List.mem_cons_self ..))⟩
      | tick =>
        obtain ⟨g₁, N, hrun, htame, -⟩ := processTick_returns henv h
        exact ⟨g₁, N, hrun, htame⟩
    obtain ⟨g₁, N, hfirst, hg₁⟩ := hstep
    obtain ⟨g', M, hrest, hg'⟩ := ih (fun r hr => hops r (List.mem_cons_of_mem _ hr)) hg₁
    refine ⟨g', max N M, fun fuel hfuel => ?_, hg'⟩
    rw [runOps, hfirst fuel (le_of_max_le_left hfuel), Option.bind_some]
    exact hrest fuel (le_of_max_le_right hfuel)

/-- **Every tick returns.**  In every run whose adds have a delay below `2 ^ 31`, not 0 when the
timer is armed forever, and whose callbacks add nothing, every tick so far has returned, the next
one does too, and it runs each timer that is due unless its head is late. -/
theorem processTick_runs_due (env : Nat → CallbackRun) (ops : List TimerOp) (henv : Quiet env)
    (hops : ∀ r, .add r ∈ ops → r.Halting) :
    ∃ g N, (∀ fuel ≥ N, runOps env fuel ops .init = some g) ∧
      ∃ g' N', (∀ fuel ≥ N', processTick env fuel g = some g') ∧
        (HeadInTime g → DueRun (g.ticks + 1) (agenda g.ticks g.timers) g'.log) := by
  obtain ⟨g, N, hrun, htame⟩ := runOps_tame henv hops (g := .init) tame_nil
  obtain ⟨g', N', htick, -, hdue⟩ := processTick_returns henv htame
  exact ⟨g, N, hrun, g', N', htick, hdue⟩

/-- Two timers, one of them armed forever: the head of the list is in time, and what is due is run. -/
theorem processTick_runs_due_two :
    ∃ g N, (∀ fuel ≥ N, runOps (fun _ => ⟨[], false⟩) fuel
        [.add (.periodical 1 0 3 4), .tick, .add (.timeout 2 5 6)] .init = some g) ∧
      ∃ g' N', (∀ fuel ≥ N', processTick (fun _ => ⟨[], false⟩) fuel g = some g') ∧
        DueRun (g.ticks + 1) (agenda g.ticks g.timers) g'.log := by
  obtain ⟨g, N, hrun, g', N', htick, hdue⟩ := processTick_runs_due (fun _ => ⟨[], false⟩)
    [.add (.periodical 1 0 3 4), .tick, .add (.timeout 2 5 6)] (fun _ => rfl) fun r hr => by
      simp only [List.mem_cons, TimerOp.add.injEq, reduceCtorEq, List.not_mem_nil, or_false,
        false_or] at hr
      rcases hr with rfl | rfl <;> decide
  refine ⟨g, N, hrun, g', N', htick, hdue ?_⟩
  -- the head is due in one tick, so it is not late
  have hlist : g.timers.head?.map TicksCallback.delta = some 1 :=
    congrArg (fun r => (r.bind fun g => g.timers.head?).map TicksCallback.delta)
      (hrun (N + 3) (Nat.le_add_right N 3)).symm
  intro t ht hlate
  rw [ht, Option.map_some, hlate] at hlist
  cases hlist

/-! ## The timer that never lets go -/

/-- A head armed forever with the period 0 is put back in front of everything else. -/
theorem drain_interval_zero {env : Nat → CallbackRun} (henv : Quiet env)
    (hlast : ∀ i, (env i).setsLast = false) (fuel : Nat) {g : ApeTimers} {t : TicksCallback}
    {rest : List TicksCallback} (hl : g.timers = t :: rest) (hspent : t.delta ≤ 0)
    (hforever : t.times ≤ 0) (hneed : t.ticksNeed = 0) (hrest : NonNeg rest) :
    drain env fuel g = none := by
  induction fuel generalizing g t rest with
  | zero => rfl
  | succ fuel ih =>
    have htimes : ¬ 0 < t.times := by
      rw [Int32.lt_iff_toInt_lt, not_lt]
      exact Int32.le_iff_toInt_le.1 hforever
    have hcalled : t.called = t := by simp [TicksCallback.called, htimes]
    have hgo : t.lastcall (env g.calls).setsLast = false := by
      simp [TicksCallback.lastcall, htimes, hlast]
    have hround : (fireHead env t rest g).timers = insertTimer { t with delta := 0 } rest := by
      rw [fireHead_quiet henv, finish, if_neg (by simp [hgo]), rearm_timers, hcalled, hneed]
    rw [drain, hl]
    simp only [if_pos hspent]
    cases rest with
    | nil => exact ih hround (Int32.le_refl 0) hforever hneed nonNeg_nil
    | cons u us =>
      have hu := (nonNeg_cons u us).1 hrest
      have hle : (0 : Int32) ≤ u.delta := Int32.le_iff_toInt_le.2 (by simpa using hu.1)
      simp only [insertTimer, if_pos hle] at hround
      refine ih hround (Int32.le_refl 0) hforever hneed ((nonNeg_cons _ _).2 ⟨?_, hu.2⟩)
      simpa using hu.1

/-- **`setInterval(f, 0)`**: whatever is on the list, the next tick never returns. -/
theorem processTick_interval_zero (env : Nat → CallbackRun) (henv : Quiet env)
    (hlast : ∀ i, (env i).setsLast = false) (fuel : Nat) {g : ApeTimers} (hg : NonNeg g.timers)
    (times : Int32) (hforever : times ≤ 0) (func params : Nat) :
    processTick env fuel (serve none (.periodical 0 times func params) g) = none := by
  set new : TicksCallback := newNode (.periodical 0 times func params) g with hnew
  have hlist : ∃ rest, insertTimer new g.timers = new :: rest ∧ NonNeg rest := by
    cases hl : g.timers with
    | nil => exact ⟨[], rfl, nonNeg_nil⟩
    | cons t ts =>
      obtain ⟨ht, hts⟩ := (nonNeg_cons t ts).1 (hl ▸ hg)
      have hle : new.delta ≤ t.delta := Int32.le_iff_toInt_le.2 ht
      refine ⟨{ t with delta := t.delta - new.delta } :: ts, if_pos hle, ?_⟩
      refine (nonNeg_cons _ _).2 ⟨?_, hts⟩
      rw [CInt.toInt_sub_of_nonneg ht le_rfl]
      exact sub_nonneg.2 ht
  obtain ⟨rest, hlist, hrest⟩ := hlist
  rw [processTick_eq_drain, serve_eq, ← hnew, hlist, decHead_cons]
  refine drain_interval_zero henv hlast fuel rfl ?_ hforever rfl hrest
  show (0 : Int32) - 1 ≤ 0
  decide

/-- The first tick after `setInterval(f, 0)` runs the timer for ever. -/
theorem processTick_runs_due_fails_interval_zero :
    ¬ ∃ fuel, runOps (fun _ => ⟨[], false⟩) fuel [.add (.periodical 0 0 3 4), .tick] .init ≠
      none := by
  rintro ⟨fuel, hreturns⟩
  refine hreturns ?_
  have h := processTick_interval_zero (fun _ => ⟨[], false⟩) (fun _ => rfl)
    (fun _ => rfl) fuel (g := .init) nonNeg_nil 0 (Int32.le_refl 0) 3 4
  rw [runOps, TimerOp.exec, Option.bind_some, runOps, TimerOp.exec, h, Option.bind_none]

end Ape.Timers

import ApeServer.Timers.Woven

/-!
# Adding a timer moves no other

Two runs of `process_tick` are compared: one from a timer list, one from the same list after one
more `add_timeout`.  In the second run the callbacks do what they do in the first, and the callback
of the extra timer does nothing.

* `Pending` and `Gone` — what the two states have to do with each other before and after the
  extra timer has been invoked;
* `drain_gone` and `drain_pending` — the rest of a tick in both runs; the extra timer costs one
  round and leaves the lists equal;
* `Rested.ticks` — tick after tick;
* `addTimeout_moves_none` — **the other timers fire at the same ticks**, unless the extra delay is
  0 and the head of the list is not due yet: then its node has the delta -1 when it is unlinked,
  and everything behind it is late by one tick.
-/

namespace Ape.Timers

/-! ## The second run -/

/-- The callbacks of the second run: the extra timer adds nothing, the others do at their calls
what they did in the first run. -/
def unaware (x : Nat) (setsLast : Bool) (env : Nat → CallbackRun) (g : ApeTimers) (s : Nat) :
    CallbackRun :=
  if s = x then ⟨[], setsLast⟩ else env (g.calls - (firings x g.log).length)

/-- The loop of `process_tick` when the callback of the timer `s` does `callback g s`. -/
def tickLoopBy (callback : ApeTimers → Nat → CallbackRun) : Nat → ApeTimers → Option ApeTimers
  | 0, _ => none
  | fuel + 1, g =>
    match g.timers with
    | [] => some g
    | t :: rest =>
      let t := { t with delta := t.delta - 1 }
      if t.delta ≤ 0 then
        let g' := fireHead (fun _ => callback g t.serial) t rest g
        tickLoopBy callback fuel { g' with timers := bumpHead g'.timers }
      else some { g with timers := t :: rest }

/-- `process_tick` with such callbacks. -/
def processTickBy (callback : ApeTimers → Nat → CallbackRun) (fuel : Nat) (g : ApeTimers) :
    Option ApeTimers :=
  tickLoopBy callback fuel { g with ticks := g.ticks + 1 }

/-- Callbacks that only look at the number of the call are the ones of `processTick`. -/
theorem processTickBy_calls (env : Nat → CallbackRun) (fuel : Nat) (g : ApeTimers) :
    processTickBy (fun g _ => env g.calls) fuel g = processTick env fuel g := by
  rw [processTickBy, processTick]
  generalize ({ g with ticks := g.ticks + 1 } : ApeTimers) = g₁
  induction fuel generalizing g₁ with
  | zero => rfl
  | succ fuel ih =>
    cases hl : g₁.timers with
    | nil => simp only [tickLoopBy, tickLoop, hl]
    | cons t rest =>
      simp only [tickLoopBy, tickLoop, hl, ih]
      rfl

/-- A number of ticks, one after the other, with callbacks that see the timers. -/
def ticksBy (callback : ApeTimers → Nat → CallbackRun) (fuel : Nat) :
    Nat → ApeTimers → Option ApeTimers
  | 0, g => some g
  | k + 1, g => (processTickBy callback fuel g).bind (ticksBy callback fuel k)

/-- With the callbacks of `processTick` they are a run of the server. -/
theorem ticksBy_calls (env : Nat → CallbackRun) (fuel k : Nat) (g : ApeTimers) :
    ticksBy (fun g _ => env g.calls) fuel k g = runOps env fuel (List.replicate k .tick) g := by
  induction k generalizing g with
  | zero => rfl
  | succ k ih =>
    rw [ticksBy, List.replicate_succ, runOps, TimerOp.exec, processTickBy_calls]
    congr 1
    exact funext ih

/-- The runs agree: apart from the extra timer `x`, which is invoked at most once, the second log
is the first one, so every timer of before has the same invocations at the same ticks. -/
structure Agree (x : Nat) (g g' : ApeTimers) : Prop where
  ticks : g'.ticks = g.ticks
  log : others x g'.log = g.log.map (TimerEvent.shift x)
  same : ∀ s < x, firings s g'.log = firings s g.log
  once : (firings x g'.log).length ≤ 1

/-- **The extra timer moves no other.**  However many ticks are taken, one run returns if and only
if the other does, and they agree. -/
def MovesNone (env : Nat → CallbackRun) (setsLast : Bool) (msec : UInt32) (func params : Nat)
    (g : ApeTimers) : Prop :=
  ∀ k fuel,
    (∀ g₁, runOps env fuel (List.replicate k .tick) g = some g₁ →
      ∃ g₂, ticksBy (unaware g.serials setsLast env) (fuel + 1) k
          (serve none (.timeout msec func params) g) = some g₂ ∧ Agree g.serials g₁ g₂) ∧
    ∀ g₂, ticksBy (unaware g.serials setsLast env) fuel k
        (serve none (.timeout msec func params) g) = some g₂ →
      ∃ g₁, runOps env fuel (List.replicate k .tick) g = some g₁

/-! ## A tick in both runs -/

/-- `drain` when the callback of the timer `s` does `callback g s`. -/
def drainBy (callback : ApeTimers → Nat → CallbackRun) : Nat → ApeTimers → Option ApeTimers
  | 0, _ => none
  | fuel + 1, g =>
    match g.timers with
    | [] => some g
    | t :: rest =>
      if t.delta ≤ 0 then
        drainBy callback fuel (fireHead (fun _ => callback g t.serial) t rest g)
      else some g

section Tick

variable {callback : ApeTimers → Nat → CallbackRun}

theorem drainBy_nil {n : Nat} {g : ApeTimers} (hl : g.timers = []) :
    drainBy callback (n + 1) g = some g := by simp only [drainBy, hl]

theorem drainBy_spent {n : Nat} {g : ApeTimers} {t : TicksCallback} {rest : List TicksCallback}
    (hl : g.timers = t :: rest) (ht : t.delta ≤ 0) :
    drainBy callback (n + 1) g =
      drainBy callback n (fireHead (fun _ => callback g t.serial) t rest g) := by
  simp only [drainBy, hl, if_pos ht]

theorem drainBy_stop {n : Nat} {g : ApeTimers} {t : TicksCallback} {rest : List TicksCallback}
    (hl : g.timers = t :: rest) (ht : ¬ t.delta ≤ 0) : drainBy callback (n + 1) g = some g := by
  simp only [drainBy, hl, if_neg ht]

/-- More fuel changes nothing once the loop has returned. -/
theorem drainBy_mono {n m : Nat} {g g₁ : ApeTimers} (h : drainBy callback n g = some g₁)
    (hnm : n ≤ m) : drainBy callback m g = some g₁ := by
  induction n generalizing m g with
  | zero => simp [drainBy] at h
  | succ n ih =>
    obtain ⟨k, rfl⟩ : ∃ k, m = k + 1 := ⟨m - 1, by omega⟩
    cases hl : g.timers with
    | nil =>
      rw [drainBy_nil hl] at h ⊢
      exact h
    | cons t rest =>
      by_cases ht : t.delta ≤ 0
      · rw [drainBy_spent hl ht] at h ⊢
        exact ih h (by omega)
      · rw [drainBy_stop hl ht] at h ⊢
        exact h

/-- A loop that has returned has left no spent head. -/
theorem drainBy_head {n : Nat} {g g₁ : ApeTimers} (h : drainBy callback n g = some g₁) :
    ∀ t ∈ g₁.timers.head?, 0 < t.delta.toInt := by
  induction n generalizing g with
  | zero => simp [drainBy] at h
  | succ n ih =>
    cases hl : g.timers with
    | nil =>
      rw [drainBy_nil hl, Option.some.injEq] at h
      subst h
      simp [hl]
    | cons t rest =>
      by_cases ht : t.delta ≤ 0
      · rw [drainBy_spent hl ht] at h
        exact ih h
      · rw [drainBy_stop hl ht, Option.some.injEq] at h
        subst h
        intro u hu
        rw [hl, List.head?_cons, Option.mem_some_iff] at hu
        subst hu
        have hlt : ¬ t.delta.toInt ≤ (0 : Int32).toInt := fun hle => ht (Int32.le_iff_toInt_le.2 hle)
        rw [CInt.toInt_zero] at hlt
        omega

/-- The `++` and `--` of `process_tick` cancel with these callbacks too, which do not look at the
list. -/
theorem processTickBy_eq_drainBy (hblind : ∀ g l s, callback { g with timers := l } s = callback g s)
    (fuel : Nat) (g : ApeTimers) :
    processTickBy callback fuel g =
      drainBy callback fuel { g with ticks := g.ticks + 1, timers := decHead g.timers } := by
  have hloop : ∀ fuel g, tickLoopBy callback fuel g =
      drainBy callback fuel { g with timers := decHead g.timers } := by
    intro fuel
    induction fuel with
    | zero => exact fun _ => rfl
    | succ n ih =>
      intro g
      cases hl : g.timers with
      | nil => simp only [tickLoopBy, drainBy, hl, decHead_nil]; rw [← hl]
      | cons t rest =>
        simp only [tickLoopBy, drainBy, hl, decHead_cons, ih, decHead_bumpHead,
          fireHead_with_timers, hblind]
  rw [processTickBy, hloop]

end Tick

section Extra

variable {x : Nat} {e : TicksCallback} {env : Nat → CallbackRun} {b : Bool}

theorem stable_woven : Stable (Woven e) := fun _ _ _ hnew hA h => h.insert hA hnew

theorem stable_eq : Stable Eq := by
  rintro new A B - - rfl
  rfl

/-- At a call of another timer the second run does what the first did. -/
theorem unaware_beside {g g' : ApeTimers} (h : Same x g g') (s : Nat) :
    unaware x b env g' (beside x s) = env g.calls := by
  rw [unaware, if_neg (beside_ne x s), h.calls, Nat.add_sub_cancel]

/-- A round of the loop is one call of a callback. -/
theorem fireHead_calls (env : Nat → CallbackRun) (t : TicksCallback) (rest : List TicksCallback)
    (g : ApeTimers) : (fireHead env t rest g).calls = g.calls + 1 := by
  have hserve : ∀ (adds : List AddRequest) (f : Nat) (g : ApeTimers),
      (adds.foldl (serveInside f) g).calls = g.calls := by
    intro adds f
    induction adds with
    | nil => exact fun _ => rfl
    | cons r adds ih =>
      intro g
      rw [List.foldl_cons, ih, serveInside, serve_eq]
  rw [fireHead_eq, finish]
  split
  · exact hserve _ _ _
  · exact hserve _ _ _

/-- The callbacks of the first run ask for delays that are not negative as an `int`. -/
def DelaysFit (env : Nat → CallbackRun) : Prop := ∀ i, ∀ r ∈ (env i).adds, r.msec.toNat < 2 ^ 31

/-- **One round of another timer** in both runs; the extra timer is where it was. -/
theorem round_beside {W : List TicksCallback → List TicksCallback → Prop} (hW : Stable W)
    {t : TicksCallback} {rest rest' : List TicksCallback} {g g' : ApeTimers}
    (h : Firing x W t rest rest' g g') (hadds : ∀ r ∈ (env g.calls).adds, r.Fits t.delta.toInt) :
    ∃ g₁ g₁', fireHead (fun _ => env g.calls) t rest g = g₁ ∧
      fireHead (fun _ => unaware x b env g' (twin x t).serial) (twin x t) rest' g' = g₁' ∧
      Between x W g₁ g₁' ∧ (firings x g₁'.log).length = (firings x g'.log).length := by
  have hround := fireHead_beside hW (env g.calls) h hadds
  rw [twin_serial, unaware_beside h.same]
  refine ⟨_, _, rfl, rfl, hround, ?_⟩
  have hcalls := hround.same.calls
  rw [fireHead_calls, fireHead_calls, h.same.calls] at hcalls
  omega

/-- Between two rounds the head of the first list is about to fire. -/
theorem Between.firing {W : List TicksCallback → List TicksCallback → Prop} {g g' : ApeTimers}
    (h : Between x W g g') {t : TicksCallback} {rest rest' : List TicksCallback}
    (hl : g.timers = t :: rest) (hbehind : W (rest.map (twin x)) rest') :
    Firing x W t rest rest' g g' := by
  have hcalm := h.calm
  have hknown := h.known
  rw [hl, calm_cons] at hcalm
  rw [hl, List.map_cons] at hknown
  exact ⟨hbehind, hcalm.2.2, hcalm.2.1, Or.inl hcalm.1, hknown _ (List.mem_cons_self ..),
    fun u hu => hknown u (List.mem_cons_of_mem _ hu), h.same⟩

/-- Its callback asks for nothing that overflows. -/
theorem Between.fits {W : List TicksCallback → List TicksCallback → Prop} {g g' : ApeTimers}
    (h : Between x W g g') (henv : DelaysFit env) {t : TicksCallback} {rest : List TicksCallback}
    (hl : g.timers = t :: rest) : ∀ r ∈ (env g.calls).adds, r.Fits t.delta.toInt := by
  have hcalm := h.calm
  rw [hl, calm_cons] at hcalm
  exact fun r hr => AddRequest.fits_of_nonneg (henv _ r hr) hcalm.1

/-- The extra timer has been invoked, and the lists are the same. -/
def Gone (x : Nat) (g g' : ApeTimers) : Prop :=
  Between x Eq g g' ∧ (firings x g'.log).length = 1

/-- The extra timer is still to come. -/
def Pending (x : Nat) (e : TicksCallback) (g g' : ApeTimers) : Prop :=
  Between x (Woven e) g g' ∧ (firings x g'.log).length = 0

/-- After the extra timer the rest of the tick takes the same rounds in both runs. -/
theorem drain_gone (henv : DelaysFit env) (n : Nat) {g g' : ApeTimers} (h : Gone x g g') :
    Option.Rel (Gone x) (drainBy (fun g _ => env g.calls) n g) (drainBy (unaware x b env) n g') := by
  induction n generalizing g g' with
  | zero => exact .none
  | succ n ih =>
    obtain ⟨hbetween, hlen⟩ := h
    have hlists := hbetween.lists
    cases hl : g.timers with
    | nil =>
      rw [hl, List.map_nil] at hlists
      rw [drainBy_nil hl, drainBy_nil hlists.symm]
      exact .some ⟨hbetween, hlen⟩
    | cons t rest =>
      rw [hl, List.map_cons] at hlists
      by_cases ht : t.delta ≤ 0
      · obtain ⟨g₁, g₁', hfirst, hsecond, hnext, hlen₁⟩ := round_beside (b := b) stable_eq
          (hbetween.firing hl rfl) (hbetween.fits henv hl)
        rw [drainBy_spent hl ht, drainBy_spent hlists.symm ht, hfirst, hsecond]
        exact ih ⟨hnext, hlen₁.trans hlen⟩
      · rw [drainBy_stop hl ht, drainBy_stop hlists.symm ht]
        exact .some ⟨hbetween, hlen⟩

/-- **The extra timer fires**: its node goes and nothing else happens. -/
theorem fireHead_extra {n : TicksCallback} {rest : List TicksCallback} {g : ApeTimers}
    (hserial : n.serial = x) (htimes : n.times = 1) :
    fireHead (fun _ => unaware x b env g n.serial) n rest g =
      { g with
        timers := rest
        calls := g.calls + 1
        log := g.log ++ [.fired x g.ticks b] } := by
  subst hserial
  have hlast : n.lastcall b = true := by
    have hone : (0 : Int32) < n.times := by rw [htimes]; decide
    rw [TicksCallback.lastcall, n.called_times_of_pos hone, htimes]
    simp
  have hrun : unaware n.serial b env g n.serial = ⟨[], b⟩ := if_pos rfl
  have hnext : nextOf n.serial (n.called :: rest) = rest := nextOf_head n.called rest
  rw [fireHead_eq, returned, begun, hrun]
  simp only [List.foldl_nil, finish, hlast, if_true, hnext]

/-- When the extra timer is gone the two runs are the same from there on. -/
theorem gone_of_extra {g g' : ApeTimers} (hsame : Same x g g')
    (hlen : (firings x g'.log).length = 0) (hcalm : Calm g.timers)
    (hknown : ∀ t ∈ g.timers.map (twin x), t.serial < g'.serials) {rest : List TicksCallback}
    (hrest : rest = g.timers.map (twin x)) :
    Gone x g { g' with
      timers := rest
      calls := g'.calls + 1
      log := g'.log ++ [.fired x g'.ticks b] } := by
  have hown : others x [.fired x g'.ticks b] = [] := by simp [others, TimerEvent.serial]
  refine ⟨⟨hrest.symm, hcalm, hknown, ⟨hsame.ticks, hsame.serials, hsame.ntimers, ?_, ?_,
    hsame.later⟩⟩, ?_⟩
  · simp only [firings_append, firings_fired_self, List.length_append, List.length_singleton,
      hsame.calls]
    omega
  · simp only [others_append, hown, List.append_nil, hsame.log]
  · simp [firings_append, hlen]

/-- What two runs have to do with each other after a tick. -/
def Beside (x : Nat) (e : TicksCallback) (g g' : ApeTimers) : Prop :=
  Pending x e g g' ∨ Gone x g g'

/-- A tick in which the extra timer is still to come: if one run returns from it so does the other,
with one round more at most. -/
def TickBeside (x : Nat) (e : TicksCallback) (env : Nat → CallbackRun) (b : Bool) (n : Nat)
    (g g' : ApeTimers) : Prop :=
  (∀ g₁, drainBy (fun g _ => env g.calls) n g = some g₁ →
    ∃ g₂, drainBy (unaware x b env) (n + 1) g' = some g₂ ∧ Beside x e g₁ g₂) ∧
  ∀ g₂, drainBy (unaware x b env) n g' = some g₂ →
    ∃ g₁, drainBy (fun g _ => env g.calls) n g = some g₁

/-- With the extra timer gone after one round, the rest is the same. -/
theorem tickBeside_of_gone (henv : DelaysFit env) {n : Nat} {g g' g'' : ApeTimers}
    (hstep : ∀ m, drainBy (unaware x b env) (m + 1) g' = drainBy (unaware x b env) m g'')
    (h : Gone x g g'') : TickBeside x e env b n g g' := by
  refine ⟨fun g₁ hrun => ?_, fun g₂ hrun => ?_⟩
  · have hrel := drain_gone (b := b) henv n h
    rw [hrun] at hrel
    generalize hsecond : drainBy (unaware x b env) n g'' = o at hrel
    cases hrel with
    | some hgone => exact ⟨_, (hstep n).trans hsecond, Or.inr hgone⟩
  · cases n with
    | zero => simp [drainBy] at hrun
    | succ n =>
      rw [hstep] at hrun
      have hrel := drain_gone (b := b) henv n h
      rw [hrun] at hrel
      generalize hfirst : drainBy (fun g _ => env g.calls) n g = o at hrel
      cases hrel with
      | some hgone => exact ⟨_, drainBy_mono hfirst (Nat.le_succ n)⟩

/-- **The rest of a tick** when the extra timer is still to come. -/
theorem drain_pending (henv : DelaysFit env) (hserial : e.serial = x) (htimes : e.times = 1)
    (n : Nat) {g g' : ApeTimers} (h : Pending x e g g') : TickBeside x e env b n g g' := by
  induction n generalizing g g' with
  | zero => exact ⟨fun g₁ hrun => by simp [drainBy] at hrun, fun g₂ hrun => by simp [drainBy] at hrun⟩
  | succ n ih =>
    obtain ⟨hbetween, hlen⟩ := h
    have hextra : ∀ {u : TicksCallback} {rest : List TicksCallback}, u.body = e →
        g'.timers = u :: rest → u.delta ≤ 0 → rest = g.timers.map (twin x) →
        TickBeside x e env b (n + 1) g g' := by
      -- the extra timer is at the head of the second list and spent
      intro u rest hbody hl' hu hrest
      have hus : u.serial = x := by rw [← hserial, ← hbody, TicksCallback.body_serial]
      have hut : u.times = 1 := by rw [← htimes, ← hbody, TicksCallback.body_times]
      refine tickBeside_of_gone henv (fun m => ?_)
        (gone_of_extra (b := b) hbetween.same hlen hbetween.calm hbetween.known hrest)
      rw [drainBy_spent hl' hu, fireHead_extra hus hut]
    have hwoven := hbetween.lists
    cases hl : g.timers with
    | nil =>
      rw [hl, List.map_nil] at hwoven
      generalize hl' : g'.timers = l' at hwoven
      cases hwoven with
      | @last u hbody hu =>
        by_cases hspent : u.delta ≤ 0
        · exact hextra hbody hl' hspent (by rw [hl, List.map_nil])
        · refine ⟨fun g₁ hrun => ⟨g', drainBy_stop hl' hspent, ?_⟩,
            fun g₂ _ => ⟨g, drainBy_nil hl⟩⟩
          rw [drainBy_nil hl, Option.some.injEq] at hrun
          subst hrun
          exact Or.inl ⟨hbetween, hlen⟩
    | cons t rest =>
      rw [hl, List.map_cons] at hwoven
      generalize hl' : g'.timers = l' at hwoven
      cases hwoven with
      | @here u q q' Q hbody hu hq hq' =>
        rw [twin_delta] at hq
        by_cases hspent : u.delta ≤ 0
        · have hzero : u.delta = 0 := by
            have := Int32.le_iff_toInt_le.1 hspent
            rw [CInt.toInt_zero] at this
            exact Int32.toInt_inj.1 (by rw [CInt.toInt_zero]; omega)
          refine hextra hbody hl' hspent ?_
          rw [hl, List.map_cons, hq', hzero, Int32.sub_zero]
        · have hlt : ¬ u.delta.toInt ≤ (0 : Int32).toInt := fun hle =>
            hspent (Int32.le_iff_toInt_le.2 hle)
          have hstop : ¬ t.delta ≤ 0 := fun hle => by
            have := Int32.le_iff_toInt_le.1 hle
            rw [CInt.toInt_zero] at this hlt
            omega
          refine ⟨fun g₁ hrun => ⟨g', drainBy_stop hl' hspent, ?_⟩,
            fun g₂ _ => ⟨g, drainBy_stop hl hstop⟩⟩
          rw [drainBy_stop hl hstop, Option.some.injEq] at hrun
          subst hrun
          exact Or.inl ⟨hbetween, hlen⟩
      | @later p A B hrest =>
        by_cases hspent : t.delta ≤ 0
        · obtain ⟨g₁, g₁', hfirst, hsecond, hnext, hlen₁⟩ := round_beside (b := b) stable_woven
            (hbetween.firing hl hrest) (hbetween.fits henv hl)
          obtain ⟨hto, hfrom⟩ := ih ⟨hnext, hlen₁.trans hlen⟩
          rw [TickBeside, drainBy_spent hl hspent, drainBy_spent hl' hspent,
            drainBy_spent hl' hspent, hfirst, hsecond]
          exact ⟨hto, hfrom⟩
        · refine ⟨fun g₁ hrun => ⟨g', drainBy_stop hl' hspent, ?_⟩,
            fun g₂ _ => ⟨g, drainBy_stop hl hspent⟩⟩
          rw [drainBy_stop hl hspent, Option.some.injEq] at hrun
          subst hrun
          exact Or.inl ⟨hbetween, hlen⟩

/-! ## Tick after tick -/

/-- `--timers->delta` on the heads of both lists keeps the extra node in its place, unless the
extra node is itself at the head and due already. -/
theorem Woven.decHead {A B : List TicksCallback} (h : Woven e A B)
    (hhead : ∀ t ∈ B.head?, 1 ≤ t.delta.toInt) : Woven e (decHead A) (decHead B) := by
  cases h with
  | @last u hbody hu =>
    have hone : 1 ≤ u.delta.toInt := hhead u rfl
    exact .last hbody (by simp only [CInt.toInt_pred hu]; omega)
  | @here u q q' Q hbody hu hq hq' =>
    have hone : 1 ≤ u.delta.toInt := hhead u rfl
    subst hq'
    refine .here hbody ?_ ?_ ?_
    · simp only [CInt.toInt_pred hu]
      omega
    · simp only [CInt.toInt_pred hu, CInt.toInt_pred (hu.trans hq)]
      omega
    · simp only [CInt.sub_sub_sub_cancel]
  | later h => exact .later h

theorem Calm.decHead {l : List TicksCallback} (h : Calm l)
    (hhead : ∀ t ∈ l.head?, 1 ≤ t.delta.toInt) : Calm (decHead l) := by
  cases l with
  | nil => exact h
  | cons t ts =>
    have hone : 1 ≤ t.delta.toInt := hhead t rfl
    obtain ⟨ht, hp, hts⟩ := calm_cons.1 h
    rw [decHead_cons, calm_cons]
    exact ⟨by simp only [CInt.toInt_pred ht]; omega, hp, hts⟩

/-- A list on which the next tick is about to take one off the head. -/
def ticked (g : ApeTimers) : ApeTimers :=
  { g with ticks := g.ticks + 1, timers := Timers.decHead g.timers }

theorem Same.ticked {g g' : ApeTimers} (h : Same x g g') (l l' : List TicksCallback) :
    Same x { g with ticks := g.ticks + 1, timers := l }
      { g' with ticks := g'.ticks + 1, timers := l' } :=
  ⟨congrArg (· + 1) h.ticks, h.serials, h.ntimers, h.calls, h.log, h.later⟩

/-- The head of the list is not due yet. -/
def HeadAhead (g : ApeTimers) : Prop := ∀ t ∈ g.timers.head?, 1 ≤ t.delta.toInt

/-- Two runs stand beside each other when a tick begins in both. -/
theorem Between.ticked {W : List TicksCallback → List TicksCallback → Prop} {g g' : ApeTimers}
    (h : Between x W g g') (hhead : HeadAhead g)
    (hW : W (Timers.decHead (g.timers.map (twin x))) (Timers.decHead g'.timers)) :
    Between x W (ticked g) (ticked g') where
  lists := by
    rw [Timers.ticked, map_twin_decHead]
    exact hW
  calm := h.calm.decHead hhead
  known := by
    intro t ht
    have hmem : t.serial ∈ names (g.timers.map (twin x)) := by
      rw [← names_decHead, ← map_twin_decHead]
      exact List.mem_map_of_mem ht
    obtain ⟨u, hu, hus⟩ := List.mem_map.1 hmem
    rw [← hus]
    exact h.known u hu
  same := h.same.ticked _ _

/-- Two runs between two ticks. -/
structure Rested (x : Nat) (e : TicksCallback) (g g' : ApeTimers) : Prop where
  beside : Beside x e g g'
  first : HeadAhead g
  second : HeadAhead g'

/-- **A tick**, wherever the extra timer is. -/
theorem Rested.tick (henv : DelaysFit env) (hserial : e.serial = x) (htimes : e.times = 1)
    (n : Nat) {g g' : ApeTimers} (h : Rested x e g g') :
    TickBeside x e env b n (ticked g) (ticked g') := by
  rcases h.beside with ⟨hbetween, hlen⟩ | ⟨hbetween, hlen⟩
  · exact drain_pending henv hserial htimes n
      ⟨hbetween.ticked h.first (hbetween.lists.decHead h.second), hlen⟩
  · have hgone : Gone x (ticked g) (ticked g') :=
      ⟨hbetween.ticked h.first (congrArg Timers.decHead hbetween.lists), hlen⟩
    have hrel := drain_gone (b := b) henv n hgone
    refine ⟨fun g₁ hrun => ?_, fun g₂ hrun => ?_⟩
    · rw [hrun] at hrel
      generalize hsecond : drainBy (unaware x b env) n (ticked g') = o at hrel
      cases hrel with
      | some hout => exact ⟨_, drainBy_mono hsecond (Nat.le_succ n), Or.inr hout⟩
    · rw [hrun] at hrel
      generalize hfirst : drainBy (fun g _ => env g.calls) n (ticked g) = o at hrel
      cases hrel with
      | some hout => exact ⟨_, rfl⟩

theorem processTickBy_first (n : Nat) (g : ApeTimers) :
    processTickBy (fun g _ => env g.calls) n g =
      drainBy (fun g _ => env g.calls) n (ticked g) :=
  processTickBy_eq_drainBy (fun _ _ _ => rfl) n g

theorem processTickBy_unaware (n : Nat) (g : ApeTimers) :
    processTickBy (unaware x b env) n g = drainBy (unaware x b env) n (ticked g) :=
  processTickBy_eq_drainBy (fun _ _ _ => rfl) n g

/-- What two runs that stand beside each other have done is the same. -/
theorem Beside.agree {g g' : ApeTimers} (h : Beside x e g g') : Agree x g g' := by
  have hsame : Same x g g' := h.elim (fun h => h.1.same) fun h => h.1.same
  refine ⟨hsame.ticks, hsame.log, fun s hs => ?_, ?_⟩
  · rw [← firings_others hs.ne, hsame.log, ← firings_shift x s g.log, beside_of_lt hs]
  · rcases h with ⟨-, hlen⟩ | ⟨-, hlen⟩ <;> omega

/-- A number of ticks returns in both runs or in neither, and leaves them in agreement. -/
def TicksBeside (x : Nat) (env : Nat → CallbackRun) (b : Bool) (k : Nat) (g g' : ApeTimers) :
    Prop :=
  ∀ n, (∀ g₁, ticksBy (fun g _ => env g.calls) n k g = some g₁ →
      ∃ g₂, ticksBy (unaware x b env) (n + 1) k g' = some g₂ ∧ Agree x g₁ g₂) ∧
    ∀ g₂, ticksBy (unaware x b env) n k g' = some g₂ →
      ∃ g₁, ticksBy (fun g _ => env g.calls) n k g = some g₁

/-- One more tick may be put in front of ticks that agree. -/
theorem ticksBeside_succ {k : Nat} {g g' : ApeTimers}
    (htick : ∀ n, TickBeside x e env b n (ticked g) (ticked g'))
    (hrest : ∀ g₁ g₂, Rested x e g₁ g₂ → TicksBeside x env b k g₁ g₂) :
    TicksBeside x env b (k + 1) g g' := by
  have hrested : ∀ n g₁, drainBy (fun g _ => env g.calls) n (ticked g) = some g₁ →
      ∃ g₂, drainBy (unaware x b env) (n + 1) (ticked g') = some g₂ ∧ Rested x e g₁ g₂ := by
    intro n g₁ hrun
    obtain ⟨g₂, hrun₂, hbeside⟩ := (htick n).1 g₁ hrun
    exact ⟨g₂, hrun₂, hbeside, drainBy_head hrun, drainBy_head hrun₂⟩
  intro n
  simp only [ticksBy, processTickBy_first, processTickBy_unaware, Option.bind_eq_some_iff]
  refine ⟨fun g₁ ⟨g₁', hrun, hmore⟩ => ?_, fun g₂ ⟨g₂', hrun, hmore⟩ => ?_⟩
  · obtain ⟨g₂', hrun₂, hnext⟩ := hrested n g₁' hrun
    obtain ⟨g₂, hmore₂, hagree⟩ := (hrest _ _ hnext n).1 g₁ hmore
    exact ⟨g₂, ⟨g₂', hrun₂, hmore₂⟩, hagree⟩
  · obtain ⟨g₁', hrun₁⟩ := (htick n).2 g₂' hrun
    obtain ⟨g₂'', hrun₂, hnext⟩ := hrested n g₁' hrun₁
    -- with one round more the second run ends where it ended
    obtain rfl : g₂' = g₂'' :=
      Option.some.inj ((drainBy_mono hrun (Nat.le_succ n)).symm.trans hrun₂)
    obtain ⟨g₁, hmore₁⟩ := (hrest _ _ hnext n).2 g₂ hmore
    exact ⟨g₁, g₁', hrun₁, hmore₁⟩

/-- **Ticks** from a state between two ticks. -/
theorem Rested.ticks (henv : DelaysFit env) (hserial : e.serial = x) (htimes : e.times = 1)
    (k : Nat) {g g' : ApeTimers} (h : Rested x e g g') : TicksBeside x env b k g g' := by
  induction k generalizing g g' with
  | zero =>
    refine fun n => ⟨fun g₁ hrun => ?_, fun g₂ _ => ⟨g, rfl⟩⟩
    rw [ticksBy, Option.some.injEq] at hrun
    subst hrun
    exact ⟨g', rfl, h.beside.agree⟩
  | succ k ih =>
    exact ticksBeside_succ (fun n => h.tick henv hserial htimes n) fun _ _ hnext => ih hnext

end Extra

/-! ## The first tick -/

/-- The extra timer does no harm: nothing on the list is negative, the callbacks ask for no
negative delay (nor the callback of a timer that is due already for one that overflows when its
delta -1 is taken off), and a delay of 0 is asked for only on an empty list or in front of a timer
that is due already and adds nothing. -/
structure Harmless (env : Nat → CallbackRun) (msec : UInt32) (g : ApeTimers) : Prop where
  calm : Calm g.timers
  delays : DelaysFit env
  due : ∀ t ∈ g.timers.head?, t.delta = 0 → ∀ r ∈ (env g.calls).adds, r.msec.toNat < 2 ^ 31 - 1
  zero : msec = 0 → ∀ t ∈ g.timers.head?, t.delta = 0 ∧ (env g.calls).adds = []

section First

variable {env : Nat → CallbackRun} {b : Bool} {g : ApeTimers}

/-- The names of a reachable state are those handed out. -/
theorem same_serve (hnamed : Named g) (r : AddRequest) :
    Same g.serials g (serve none r g) ∧
      (firings g.serials (serve none r g).log).length = 0 := by
  have hfirings : firings g.serials g.log = [] :=
    firings_eq_nil fun e he => (hnamed.known e he).ne
  have hothers : others g.serials g.log = g.log :=
    List.filter_eq_self.2 fun e he => by simpa using (hnamed.known e he).ne
  have hshift : g.log.map (TimerEvent.shift g.serials) = g.log := by
    refine (List.map_congr_left fun e he => ?_).trans (List.map_id _)
    exact TimerEvent.shift_of_lt (hnamed.known e he)
  rw [serve_eq]
  simp only [firings_append, firings_added, List.append_nil, hfirings, List.length_nil, and_true]
  refine ⟨rfl, rfl, rfl, by simp [firings_append, hfirings], ?_, le_rfl⟩
  rw [others_append, hothers, hshift]
  simp [others, TimerEvent.serial]

/-- The extra node goes into the list of a reachable state. -/
theorem between_serve (hnamed : Named g) (hcalm : Calm g.timers) {r : AddRequest}
    (hr : r.msec.toNat < 2 ^ 31) :
    Between g.serials (Woven (newNode r g).body) g (serve none r g) := by
  have hdelta : (newNode r g).delta.toInt = r.msec.toNat := CInt.toInt_toInt32 hr
  have hfresh : ∀ t ∈ g.timers, t.serial < g.serials := fun t ht =>
    hnamed.fresh _ (List.mem_map_of_mem ht)
  refine ⟨?_, hcalm, fun t ht => ?_, (same_serve hnamed r).1⟩
  · rw [map_twin_of_lt hfresh, serve_eq]
    exact woven_insertTimer (by omega) hcalm.nonNeg
  · rw [map_twin_of_lt hfresh] at ht
    rw [serve_eq]
    exact (hfresh t ht).trans (Nat.lt_succ_self _)

/-- A callback that adds nothing does not look at the delta of its node. -/
theorem fireHead_delta (b : Bool) (t : TicksCallback) (d : Int32) (rest : List TicksCallback)
    (g : ApeTimers) :
    fireHead (fun _ => ⟨[], b⟩) { t with delta := d } rest g =
      fireHead (fun _ => ⟨[], b⟩) t rest g := by
  have hleft : nextOf t.serial ({ t with delta := d }.called :: rest) = rest :=
    nextOf_head { t with delta := d }.called rest
  have hright : nextOf t.serial (t.called :: rest) = rest := nextOf_head t.called rest
  rw [fireHead_eq, fireHead_eq, returned, returned]
  simp only [List.foldl_nil, begun, hleft, hright]
  rfl

/-- A head that is due already and adds nothing is run whether or not it loses its tick. -/
theorem drain_due (h : ∀ t ∈ g.timers.head?, t.delta = 0 ∧ (env g.calls).adds = []) (n : Nat) :
    drainBy (fun g _ => env g.calls) n { g with timers := decHead g.timers } =
      drainBy (fun g _ => env g.calls) n g := by
  cases n with
  | zero => rfl
  | succ n =>
    rcases hl : g.timers with _ | ⟨t, rest⟩
    · rw [decHead_nil, ← hl]
    · obtain ⟨ht, hadds⟩ := h t (by rw [hl]; rfl)
      have hrun : env g.calls = ⟨[], (env g.calls).setsLast⟩ := by rw [← hadds]
      have hspent : t.delta ≤ 0 := by rw [ht]; decide
      have hdec : t.delta - 1 ≤ 0 := by rw [ht]; decide
      rw [drainBy_spent hl hspent, decHead_cons,
        drainBy_spent (t := { t with delta := t.delta - 1 }) rfl hdec]
      show drainBy _ n (fireHead (fun _ => env g.calls) _ _ _) = _
      rw [hrun, fireHead_delta]
      rfl

/-- An extra timer with the delay 0 goes to the front of such a list and changes nothing else. -/
theorem serve_zero (h : ∀ t ∈ g.timers.head?, t.delta = 0) (func params : Nat) :
    (serve none (.timeout 0 func params) g).timers =
      newNode (.timeout 0 func params) g :: g.timers := by
  rw [serve_eq]
  cases hl : g.timers with
  | nil => rfl
  | cons t rest =>
    have ht : t.delta = 0 := h t (by rw [hl]; rfl)
    have hnew : (newNode (.timeout 0 func params) g).delta = 0 := rfl
    have hle : (newNode (.timeout 0 func params) g).delta ≤ t.delta := by rw [ht, hnew]; decide
    rw [insertTimer, if_pos hle, hnew, Int32.sub_zero]

/-- **With a delay of 0** in front of a head that is due already and adds nothing, the extra timer
takes the place of the head: its node loses the tick, and the lists are the same behind it. -/
theorem first_tick_zero (hnamed : Named g) (func params : Nat) (h : Harmless env 0 g) (n : Nat) :
    TickBeside g.serials (newNode (.timeout 0 func params) g).body env b n (ticked g)
      (ticked (serve none (.timeout 0 func params) g)) := by
  have hzero : (0 : UInt32).toNat < 2 ^ 31 := by decide
  set r : AddRequest := .timeout 0 func params with hr
  obtain ⟨hsame, hlen⟩ := same_serve hnamed r
  have hbetween := between_serve hnamed h.calm (r := r) hzero
  have hnext := serve_zero (fun t ht => (h.zero rfl t ht).1) func params
  set g' := serve none r g with hg'
  have hstep : ∀ m, drainBy (unaware g.serials b env) (m + 1) (ticked g') =
      drainBy (unaware g.serials b env) m
        { ({ g' with ticks := g'.ticks + 1 } : ApeTimers) with
          timers := g.timers
          calls := g'.calls + 1
          log := g'.log ++ [.fired g.serials (g'.ticks + 1) b] } := by
    intro m
    have hspent : (newNode r g).delta - 1 ≤ 0 := by
      show (0 : Int32) - 1 ≤ 0
      decide
    have hlist : (ticked g').timers =
        { newNode r g with delta := (newNode r g).delta - 1 } :: g.timers := by
      rw [ticked, hnext]
      rfl
    rw [drainBy_spent hlist hspent, fireHead_extra (x := g.serials) rfl rfl]
    rfl
  have hfresh : ∀ t ∈ g.timers, t.serial < g.serials := fun t ht =>
    hnamed.fresh _ (List.mem_map_of_mem ht)
  have hgone : TickBeside g.serials (newNode r g).body env b n { g with ticks := g.ticks + 1 }
      (ticked g') :=
    tickBeside_of_gone h.delays hstep
      (gone_of_extra (hsame.ticked g.timers g'.timers) hlen h.calm hbetween.known
        (map_twin_of_lt hfresh).symm)
  have hdue := fun n => @drain_due env { g with ticks := g.ticks + 1 } (h.zero rfl) n
  rw [TickBeside, ticked, hdue]
  exact hgone

/-- An add with a positive delay leaves a head that is not due yet. -/
theorem headAhead_serve (hhead : HeadAhead g) {r : AddRequest}
    (hr : r.InRange) : HeadAhead (serve none r g) := by
  have hdelta : (newNode r g).delta.toInt = r.msec.toNat := CInt.toInt_toInt32 hr.2
  have hone := hr.1
  intro u hu
  rw [serve_eq] at hu
  cases hl : g.timers with
  | nil =>
    simp only [hl, insertTimer, List.head?_cons, Option.mem_some_iff] at hu
    rw [← hu, hdelta]
    omega
  | cons t rest =>
    by_cases hle : (newNode r g).delta ≤ t.delta
    · simp only [hl, insertTimer, if_pos hle, List.head?_cons, Option.mem_some_iff] at hu
      rw [← hu, hdelta]
      omega
    · simp only [hl, insertTimer, if_neg hle, List.head?_cons, Option.mem_some_iff] at hu
      exact hhead u (by rw [hl, ← hu]; rfl)

/-- The head of a calm list is not due yet, or it is due already. -/
theorem Calm.head_cases (h : Calm g.timers) :
    HeadAhead g ∨ ∃ t rest, g.timers = t :: rest ∧ t.delta = 0 := by
  cases hl : g.timers with
  | nil => exact Or.inl (by simp [HeadAhead, hl])
  | cons t rest =>
    rw [hl, calm_cons] at h
    by_cases hone : 1 ≤ t.delta.toInt
    · exact Or.inl (by simpa [HeadAhead, hl] using hone)
    · refine Or.inr ⟨t, rest, rfl, Int32.toInt_inj.1 ?_⟩
      rw [CInt.toInt_zero]
      omega

/-- In front of the extra node a head that is due already is called first, in both runs, while its
delta is -1. -/
theorem firing_due (hnamed : Named g) {r : AddRequest} (hr : r.InRange) (hcalm : Calm g.timers)
    {t : TicksCallback} {rest : List TicksCallback} (hl : g.timers = t :: rest)
    (ht : t.delta = 0) :
    ∃ rest', (ticked (serve none r g)).timers =
        twin g.serials { t with delta := t.delta - 1 } :: rest' ∧
      Firing g.serials (Woven (newNode r g).body) { t with delta := t.delta - 1 } rest rest'
        (ticked g) (ticked (serve none r g)) := by
  have hfresh : ∀ u ∈ g.timers, u.serial < g.serials := fun u hu =>
    hnamed.fresh _ (List.mem_map_of_mem hu)
  rw [hl] at hfresh
  have hown : t.serial < g.serials := hfresh t (List.mem_cons_self ..)
  have hrest : ∀ u ∈ rest, u.serial < g.serials := fun u hu =>
    hfresh u (List.mem_cons_of_mem _ hu)
  have hself : twin g.serials { t with delta := t.delta - 1 } = { t with delta := t.delta - 1 } :=
    twin_of_lt hown
  obtain ⟨-, hperiod, hcalm'⟩ := calm_cons.1 (hl ▸ hcalm)
  have hdelta : (newNode r g).delta.toInt = r.msec.toNat := CInt.toInt_toInt32 hr.2
  have hpos := hr.1
  have hpass : ¬ (newNode r g).delta ≤ t.delta := fun hle => by
    have := Int32.le_iff_toInt_le.1 hle
    rw [ht, hdelta, CInt.toInt_zero] at this
    omega
  have hnew : 0 ≤ ((newNode r g).delta - t.delta).toInt := by
    rw [ht, Int32.sub_zero, hdelta]
    omega
  refine ⟨insertTimer { newNode r g with delta := (newNode r g).delta - t.delta } rest, ?_, ?_,
    hcalm', hperiod, Or.inr ?_, ?_, ?_, (same_serve hnamed r).1.ticked _ _⟩
  · rw [ticked, serve_eq, hl, hself]
    simp only [insertTimer, if_neg hpass, decHead_cons]
  · rw [map_twin_of_lt hrest]
    exact @woven_insertTimer { newNode r g with delta := (newNode r g).delta - t.delta } _
      hnew hcalm'.nonNeg
  · show (t.delta - 1).toInt = -1
    rw [ht]
    rfl
  · rw [hself, ticked, serve_eq]
    exact hown.trans (Nat.lt_succ_self _)
  · rw [map_twin_of_lt hrest, ticked, serve_eq]
    exact fun u hu => (hrest u hu).trans (Nat.lt_succ_self _)

/-- **With a positive delay** the extra node is not touched in the first tick before its turn. -/
theorem first_tick_pos (hnamed : Named g) {r : AddRequest} (hr : r.InRange) (hone : r.times = 1)
    (hcalm : Calm g.timers) (henv : DelaysFit env)
    (hdue : ∀ t ∈ g.timers.head?, t.delta = 0 → ∀ r ∈ (env g.calls).adds,
      r.msec.toNat < 2 ^ 31 - 1) (n : Nat) :
    TickBeside g.serials (newNode r g).body env b n (ticked g) (ticked (serve none r g)) := by
  have hlen := (same_serve hnamed r).2
  rcases hcalm.head_cases with hhead | ⟨t, rest, hl, ht⟩
  · have hbetween := between_serve hnamed hcalm hr.2
    have hwoven := hbetween.lists.decHead (headAhead_serve hhead hr)
    exact drain_pending (x := g.serials) henv rfl hone n ⟨hbetween.ticked hhead hwoven, hlen⟩
  · obtain ⟨rest', hsecond, hfiring⟩ := firing_due hnamed hr hcalm hl ht
    set head : TicksCallback := { t with delta := t.delta - 1 } with hheaddef
    have hheadval : head.delta.toInt = -1 := by
      show (t.delta - 1).toInt = -1
      rw [ht]
      rfl
    have hfirst : (ticked g).timers = head :: rest := by
      rw [ticked, hl]
      rfl
    have hspent : head.delta ≤ 0 :=
      Int32.le_iff_toInt_le.2 (by rw [hheadval, CInt.toInt_zero]; omega)
    have hadds : ∀ r ∈ (env (ticked g).calls).adds, r.Fits head.delta.toInt := by
      intro r hr
      have hsmall := hdue t (by rw [hl]; rfl) ht r hr
      refine ⟨henv _ r hr, ?_⟩
      rw [hheadval]
      omega
    cases n with
    | zero =>
      exact ⟨fun g₁ hrun => by simp [drainBy] at hrun, fun g₂ hrun => by simp [drainBy] at hrun⟩
    | succ n =>
      obtain ⟨g₁, g₁', hfire, hfire', hnext, hlen₁⟩ :=
        round_beside (b := b) stable_woven hfiring hadds
      obtain ⟨hto, hfrom⟩ := drain_pending (x := g.serials) (b := b) henv rfl hone n
        ⟨hnext, hlen₁.trans hlen⟩
      rw [TickBeside, drainBy_spent hfirst hspent, drainBy_spent hsecond hspent,
        drainBy_spent hsecond hspent, hfire, hfire']
      exact ⟨hto, hfrom⟩

end First

/-- **Adding a timer moves no other**, unless it does harm: from every reachable list and for every
delay below `2 ^ 31`, whatever the callbacks do, the run with the extra timer returns from each tick
when the run without it does, and all other timers are invoked at the same ticks. -/
theorem addTimeout_moves_none (env₀ env : Nat → CallbackRun) (ops : List TimerOp) (fuel : Nat)
    (g : ApeTimers) (hreach : runOps env₀ fuel ops .init = some g) (setsLast : Bool)
    (msec : UInt32) (hrange : msec.toNat < 2 ^ 31) (func params : Nat)
    (h : Harmless env msec g) : MovesNone env setsLast msec func params g := by
  have hnamed : Named g := runOps_named env₀ named_init hreach
  have htick : ∀ n, TickBeside g.serials (newNode (.timeout msec func params) g).body env setsLast n
      (ticked g) (ticked (serve none (.timeout msec func params) g)) := by
    intro n
    by_cases hzero : msec = 0
    · subst hzero
      exact first_tick_zero hnamed func params h n
    · have hpos : 1 ≤ msec.toNat :=
        Nat.one_le_iff_ne_zero.2 fun h0 => hzero (UInt32.toNat_inj.1 h0)
      exact first_tick_pos hnamed (r := .timeout msec func params) ⟨hpos, hrange⟩ rfl h.calm
        h.delays h.due n
  have hticks : ∀ k, TicksBeside g.serials env setsLast k g
      (serve none (.timeout msec func params) g) := by
    intro k
    cases k with
    | zero =>
      obtain ⟨hsame, hlen⟩ := same_serve hnamed (.timeout msec func params)
      refine fun n => ⟨fun g₁ hrun => ?_, fun g₂ _ => ⟨g, rfl⟩⟩
      rw [ticksBy, Option.some.injEq] at hrun
      subst hrun
      have hpending : Pending g.serials (newNode (.timeout msec func params) g).body g
          (serve none (.timeout msec func params) g) :=
        ⟨between_serve hnamed h.calm hrange, hlen⟩
      exact ⟨_, rfl, Beside.agree (Or.inl hpending)⟩
    | succ k =>
      exact ticksBeside_succ htick fun g₁ g₂ hnext =>
        Rested.ticks (x := g.serials) h.delays rfl rfl k hnext
  intro k n
  obtain ⟨hto, hfrom⟩ := hticks k n
  rw [← ticksBy_calls]
  exact ⟨hto, hfrom⟩

/-- A timer of delay 1 in front of one of delay 2 whose callback adds another. -/
theorem addTimeout_moves_none_two :
    ∃ g, runOps (fun _ => ⟨[], false⟩) 1 [.add (.timeout 2 3 4)] .init = some g ∧
      MovesNone (fun _ => ⟨[.timeout 5 3 4], false⟩) false 1 5 6 g := by
  refine ⟨_, rfl, addTimeout_moves_none (fun _ => ⟨[], false⟩) (fun _ => ⟨[.timeout 5 3 4], false⟩)
    [.add (.timeout 2 3 4)] 1 _ rfl false 1 (by decide) 5 6 ⟨⟨?_, ?_⟩, ?_, ?_, ?_⟩⟩
  · exact (nonNeg_cons _ _).2 ⟨by decide, nonNeg_nil⟩
  · decide
  · intro i r hr
    rw [List.mem_singleton.1 hr]
    decide
  · decide
  · intro h
    exact absurd h (by decide)

/-- **A delay of 0 moves the others.**  In front of a timer with the delay 1 the extra node is
unlinked with the delta -1; the timer fires at tick 1 without it and not before tick 2 with it. -/
theorem addTimeout_moves_delay_zero :
    ∃ g, runOps (fun _ => ⟨[], false⟩) 1 [.add (.timeout 1 5 6)] .init = some g ∧
      ¬ MovesNone (fun _ => ⟨[], false⟩) false 0 7 8 g := by
  refine ⟨_, rfl, fun h => ?_⟩
  obtain ⟨g₂, hrun, hagree⟩ := (h 1 2).1 _ rfl
  obtain rfl := Option.some.inj hrun
  have hsame := hagree.same 0 (by decide)
  revert hsame
  decide

end Ape.Timers

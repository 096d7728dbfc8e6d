import ApeServer.Timers.Agenda

/-!
# Timers fire exactly on their deadlines

For runs whose delays all lie between `1` and `2 ^ 31 - 1` the delta list refines a queue of
absolute deadlines.  A timer added at tick `t` with delay `n` is invoked at `t + n`, `t + 2n`, …
until its count is used up or its callback sets the last flag, and at no other tick.

* `FiresOnTime` — what a timer's invocations must be, in terms of absolute ticks only;
* `History` — how the ghost log and the agenda fit together: a timer that has not ended stands on
  the agenda for its next deadline, one that has ended does not stand there at all;
* `Good` — the invariant; `serve_good` and `fireHead_good` are its step lemmas;
* `runOps_idle` and `timers_fire_on_deadlines` — every run returns and keeps the promise.
-/

namespace Ape.Timers

/-! ## What is promised -/

/-- The invocations of the timer `s`, oldest first: the tick and whether the callback set the last
flag. -/
def firings (s : Nat) (log : List TimerEvent) : List (Nat × Bool) :=
  log.filterMap fun
    | .fired s' tick setsLast => if s' = s then some (tick, setsLast) else none
    | .added .. => none

/-- After the invocations `fs` a timer asked for `times` times is over: the count is used up, or
the last callback set the flag. -/
def Ended (times : ℤ) (fs : List (Nat × Bool)) : Prop :=
  (0 < times ∧ times ≤ fs.length) ∨ ∃ f ∈ fs.getLast?, f.2 = true

/-- The invocations so far are at the multiples of the delay, none after the end. -/
structure OnSchedule (start n : Nat) (times : ℤ) (fs : List (Nat × Bool)) : Prop where
  on_time : ∀ i (h : i < fs.length), fs[i].1 = start + (i + 1) * n
  not_over : ∀ i < fs.length, ¬ Ended times (fs.take i)

/-- What the invocations `fs` of a timer added at tick `start` must be once tick `now` is over:
one at each of `start + n`, `start + 2n`, …, none after the timer ended, and none missing. -/
structure FiresOnTime (start n : Nat) (times : ℤ) (now : Nat) (fs : List (Nat × Bool)) : Prop
    extends OnSchedule start n times fs where
  complete : Ended times fs ∨ now < start + (fs.length + 1) * n

/-- A request whose delay is between `1` and `2 ^ 31 - 1`. -/
def AddRequest.InRange (r : AddRequest) : Prop := 1 ≤ r.msec.toNat ∧ r.msec.toNat < 2 ^ 31

instance (r : AddRequest) : Decidable r.InRange := inferInstanceAs (Decidable (_ ∧ _))

theorem not_ended_nil (times : ℤ) : ¬ Ended times [] := by
  rintro (⟨h, h'⟩ | ⟨f, hf, -⟩)
  · simp at h'
    omega
  · simp at hf

theorem OnSchedule.nil (start n : Nat) (times : ℤ) : OnSchedule start n times [] :=
  ⟨fun i h => absurd h (Nat.not_lt_zero i), fun i h => absurd h (Nat.not_lt_zero i)⟩

/-- One more invocation, on time and not after the end. -/
theorem OnSchedule.snoc {start n : Nat} {times : ℤ} {fs : List (Nat × Bool)}
    (h : OnSchedule start n times fs) (hlive : ¬ Ended times fs) {f : Nat × Bool}
    (hf : f.1 = start + (fs.length + 1) * n) : OnSchedule start n times (fs ++ [f]) where
  on_time i hi := by
    by_cases hlt : i < fs.length
    · rw [List.getElem_append_left hlt]
      exact h.on_time i hlt
    · have hieq : i = fs.length := by
        simp only [List.length_append, List.length_singleton] at hi
        omega
      subst hieq
      simpa using hf
  not_over i hi := by
    by_cases hlt : i < fs.length
    · rw [List.take_append_of_le_length hlt.le]
      exact h.not_over i hlt
    · have hieq : i = fs.length := by
        simp only [List.length_append, List.length_singleton] at hi
        omega
      subst hieq
      simpa using hlive

theorem firings_append (s : Nat) (log log' : List TimerEvent) :
    firings s (log ++ log') = firings s log ++ firings s log' :=
  List.filterMap_append

@[simp] theorem firings_added (s s' t : Nat) (m : UInt32) (x : Int32) (i : Option Int32) :
    firings s [.added s' t m x i] = [] := rfl

@[simp] theorem firings_fired_self (s t : Nat) (b : Bool) :
    firings s [.fired s t b] = [(t, b)] := by simp [firings]

theorem firings_fired_of_ne {s s' : Nat} (h : s' ≠ s) (t : Nat) (b : Bool) :
    firings s [.fired s' t b] = [] := by simp [firings, h]

/-- A serial the log does not know has no invocations. -/
theorem firings_eq_nil {s : Nat} {log : List TimerEvent} (h : ∀ e ∈ log, e.serial ≠ s) :
    firings s log = [] := by
  refine List.filterMap_eq_nil_iff.2 fun e he => ?_
  cases e with
  | added => rfl
  | fired s' t b => exact if_neg (h _ he)

/-! ## The log and the agenda -/

/-- The agenda entry `p` is the next deadline of a timer that was added at `start` and has made
the invocations `fs`. -/
structure Armed (p : ℤ × TicksCallback) (start : Nat) (msec : UInt32) (times : Int32)
    (fs : List (Nat × Bool)) : Prop where
  due : p.1 = start + (fs.length + 1) * msec.toNat
  range : msec.toNat < 2 ^ 31
  period : p.2.ticksNeed = msec.toInt32
  counted : 0 < times.toInt → p.2.times.toInt = times.toInt - fs.length
  forever : times.toInt ≤ 0 → p.2.times = times

/-- Every timer ever added has kept its schedule; it stands on the queue for its next deadline
unless it has ended, and then it does not stand there at all. -/
def History (log : List TimerEvent) (queue : List (ℤ × TicksCallback)) : Prop :=
  ∀ s start msec times inside, .added s start msec times inside ∈ log →
    OnSchedule start msec.toNat times.toInt (firings s log) ∧
      ((Ended times.toInt (firings s log) ∧ ∀ p ∈ queue, p.2.serial ≠ s) ∨
        (¬ Ended times.toInt (firings s log) ∧
          ∃ p ∈ queue, p.2.serial = s ∧ Armed p start msec times (firings s log)))

/-- The queue only matters through its members. -/
theorem History.congr {log : List TimerEvent} {q q' : List (ℤ × TicksCallback)}
    (h : History log q) (hq : ∀ p, p ∈ q' ↔ p ∈ q) : History log q' := by
  intro s start msec times inside he
  obtain ⟨hsched, hstate⟩ := h s start msec times inside he
  simp only [hq]
  exact ⟨hsched, hstate⟩

/-- A new timer enters the log and the queue together. -/
theorem History.add {log : List TimerEvent} {q q' : List (ℤ × TicksCallback)}
    (h : History log q) {s start : Nat} {msec : UInt32} {times : Int32} {inside : Option Int32}
    {p : ℤ × TicksCallback} (hlog : ∀ e ∈ log, e.serial ≠ s) (hp : p.2.serial = s)
    (harm : Armed p start msec times []) (hq : ∀ x, x ∈ q' ↔ x = p ∨ x ∈ q) :
    History (log ++ [.added s start msec times inside]) q' := by
  intro s' start' msec' times' inside' he
  rw [firings_append, firings_added, List.append_nil]
  rcases List.mem_append.1 he with hold | hnew
  · -- an older timer: its entry is where it was, and the new entry is not its own
    obtain ⟨hsched, hstate⟩ := h s' start' msec' times' inside' hold
    have hne : s' ≠ s := hlog _ hold
    refine ⟨hsched, hstate.imp (fun ⟨hend, hout⟩ => ⟨hend, fun x hx => ?_⟩)
      (fun ⟨hlive, x, hx, hxs, hxa⟩ => ⟨hlive, x, (hq x).2 (Or.inr hx), hxs, hxa⟩)⟩
    rcases (hq x).1 hx with rfl | hx
    · exact fun hs => hne (hs.symm.trans hp)
    · exact hout x hx
  · obtain ⟨rfl, rfl, rfl, rfl, rfl⟩ : s' = s ∧ start' = start ∧ msec' = msec ∧ times' = times ∧
        inside' = inside := by simpa using hnew
    rw [firings_eq_nil hlog]
    exact ⟨.nil .., Or.inr ⟨not_ended_nil _, p, (hq p).2 (Or.inl rfl), hp, harm⟩⟩

/-- `lastcall` says whether the timer has ended. -/
theorem lastcall_iff {p : ℤ × TicksCallback} {start : Nat} {msec : UInt32} {times : Int32}
    {fs : List (Nat × Bool)} (harm : Armed p start msec times fs)
    (hlive : ¬ Ended times.toInt fs) (tick : Nat) (b : Bool) :
    p.2.lastcall b = true ↔ Ended times.toInt (fs ++ [(tick, b)]) := by
  have hend : Ended times.toInt (fs ++ [(tick, b)]) ↔
      (0 < times.toInt ∧ times.toInt ≤ fs.length + 1) ∨ b = true := by
    simp [Ended]
  rw [hend]
  simp only [TicksCallback.lastcall, Bool.or_eq_true, Bool.and_eq_true, decide_eq_true_eq]
  refine or_congr ?_ Iff.rfl
  by_cases hpos : 0 < times.toInt
  · -- a counted timer: what is left is the count minus the calls made
    have hleft := harm.counted hpos
    have hmore : (fs.length : ℤ) < times.toInt := by
      by_contra hcon
      exact hlive (Or.inl ⟨hpos, by omega⟩)
    have hnode : 0 < p.2.times := Int32.lt_iff_toInt_lt.2 (by simpa using by omega)
    have hpred : (p.2.times - 1).toInt = p.2.times.toInt - 1 := CInt.toInt_pred (by omega)
    rw [p.2.called_times_of_pos hnode, ← Int32.toInt_inj, hpred, CInt.toInt_zero]
    constructor
    · rintro ⟨-, h0⟩
      exact ⟨hpos, by omega⟩
    · rintro ⟨-, hle⟩
      exact ⟨hnode, by omega⟩
  · have hforever := harm.forever (by omega)
    have hnode : ¬ 0 < p.2.times := by
      rw [hforever, Int32.lt_iff_toInt_lt]
      simpa using hpos
    exact ⟨fun h => absurd h.1 hnode, fun h => absurd h.1 hpos⟩

/-- After a call that was not the last, the node armed again stands for the next deadline. -/
theorem Armed.again {p : ℤ × TicksCallback} {start : Nat} {msec : UInt32} {times : Int32}
    {fs : List (Nat × Bool)} (harm : Armed p start msec times fs)
    (hlive : ¬ Ended times.toInt fs) (f : Nat × Bool) :
    Armed (p.1 + p.2.ticksNeed.toInt, p.2.called) start msec times (fs ++ [f]) where
  due := by
    show p.1 + p.2.ticksNeed.toInt = _
    rw [harm.due, harm.period, CInt.toInt_toInt32 harm.range]
    push_cast [List.length_append, List.length_singleton]
    ring
  range := harm.range
  period := harm.period
  counted hpos := by
    have hleft := harm.counted hpos
    have hmore : (fs.length : ℤ) < times.toInt := by
      by_contra hcon
      exact hlive (Or.inl ⟨hpos, by omega⟩)
    have hnode : 0 < p.2.times := Int32.lt_iff_toInt_lt.2 (by simpa using by omega)
    rw [p.2.called_times_of_pos hnode, CInt.toInt_pred (by omega), hleft]
    push_cast [List.length_append, List.length_singleton]
    ring
  forever hneg := by
    have hforever := harm.forever hneg
    have hnode : ¬ 0 < p.2.times := by
      rw [hforever, Int32.lt_iff_toInt_lt]
      simpa using hneg
    rw [p.2.called_times_of_not_pos hnode, hforever]

/-- A fired timer leaves the queue, or moves on to its next deadline. -/
theorem History.fire {log : List TimerEvent} {q q' : List (ℤ × TicksCallback)}
    (h : History log q) {F : ℤ × TicksCallback} {tick : Nat} {b : Bool} (hF : F ∈ q)
    (hdue : F.1 = tick) (hself : ∀ x ∈ q, x.2.serial = F.2.serial → x = F)
    (hq : ∀ x, x ∈ q' ↔ (F.2.lastcall b = false ∧
      x = (F.1 + F.2.ticksNeed.toInt, F.2.called)) ∨ (x ∈ q ∧ x.2.serial ≠ F.2.serial)) :
    History (log ++ [.fired F.2.serial tick b]) q' := by
  intro s start msec times inside he
  have hold : .added s start msec times inside ∈ log := by simpa using he
  obtain ⟨hsched, hstate⟩ := h s start msec times inside hold
  rw [firings_append]
  by_cases hs : F.2.serial = s
  · -- the timer that fires: it was live, and its entry is `F`
    subst hs
    rw [firings_fired_self]
    obtain ⟨-, hout⟩ | ⟨hlive, p, hp, hps, harm⟩ := hstate
    · exact absurd rfl (hout F hF)
    · obtain rfl := hself p hp hps
      have htick : (tick, b).1 = start + ((firings p.2.serial log).length + 1) * msec.toNat := by
        have := harm.due
        rw [hdue] at this
        exact_mod_cast this
      refine ⟨hsched.snoc hlive htick, ?_⟩
      have hlast := lastcall_iff harm hlive tick b
      cases hcase : p.2.lastcall b with
      | true =>
        refine Or.inl ⟨hlast.1 hcase, fun x hx => ?_⟩
        rcases (hq x).1 hx with ⟨hfalse, -⟩ | ⟨-, hne⟩
        · rw [hcase] at hfalse
          exact absurd hfalse (by simp)
        · exact hne
      | false =>
        have hgo : ¬ Ended times.toInt (firings p.2.serial log ++ [(tick, b)]) := by
          rw [← hlast, hcase]
          simp
        exact Or.inr ⟨hgo, _, (hq _).2 (Or.inl ⟨hcase, rfl⟩), rfl, harm.again hlive _⟩
  · rw [firings_fired_of_ne hs, List.append_nil]
    refine ⟨hsched, hstate.imp (fun ⟨hend, hout⟩ => ⟨hend, fun x hx => ?_⟩)
      (fun ⟨hlive, x, hx, hxs, hxa⟩ => ⟨hlive, x, (hq x).2 (Or.inr ⟨hx, ?_⟩), hxs, hxa⟩)⟩
    · rcases (hq x).1 hx with ⟨-, rfl⟩ | ⟨hx, -⟩
      · exact hs
      · exact hout x hx
    · rw [hxs]
      exact fun hcon => hs hcon.symm

/-! ## The invariant -/

/-- What holds of the linked nodes `l` at tick `now`, when no deadline is earlier than `lo` and
every serial handed out is below `bound`. -/
structure Queue (l : List TicksCallback) (now lo : ℤ) (bound : Nat) : Prop where
  nonNeg : NonNeg l
  ahead : ∀ p ∈ agenda now l, lo ≤ p.1
  period : ∀ t ∈ l, 0 < t.ticksNeed.toInt
  nodup : (l.map (·.serial)).Nodup
  fresh : ∀ t ∈ l, t.serial < bound

/-- Linking a node in keeps the queue in shape. -/
theorem Queue.insert {l : List TicksCallback} {now lo : ℤ} {bound bound' : Nat}
    (h : Queue l now lo bound) {new : TicksCallback} (hdelta : 0 ≤ new.delta.toInt)
    (hlo : lo ≤ now + new.delta.toInt) (hperiod : 0 < new.ticksNeed.toInt)
    (hout : ∀ t ∈ l, t.serial ≠ new.serial) (hnew : new.serial < bound') (hle : bound ≤ bound') :
    Queue (insertTimer new l) now lo bound' := by
  have hperm := serials_insertTimer new l
  refine ⟨nonNeg_insertTimer hdelta h.nonNeg, fun p hp => ?_, fun t ht => ?_, ?_, fun t ht => ?_⟩
  · rcases (mem_agenda_insertTimer hdelta h.nonNeg).1 hp with rfl | hp
    · exact hlo
    · exact h.ahead p hp
  · rcases body_of_mem_insertTimer ht with heq | ⟨u, hu, heq⟩
    · rw [← t.body_ticksNeed, heq]
      exact hperiod
    · rw [← t.body_ticksNeed, heq]
      exact h.period u hu
  · rw [hperm.nodup_iff, List.nodup_cons]
    refine ⟨fun hmem => ?_, h.nodup⟩
    obtain ⟨t, ht, hts⟩ := List.mem_map.1 hmem
    exact hout t ht hts
  · rcases List.mem_cons.1 (hperm.subset (List.mem_map.2 ⟨t, ht, rfl⟩)) with hs | hs
    · rw [hs]
      exact hnew
    · obtain ⟨u, hu, hus⟩ := List.mem_map.1 hs
      rw [← hus]
      exact (h.fresh u hu).trans_le hle

/-- The serials of the adds, oldest first. -/
def addedSerials (log : List TimerEvent) : List Nat :=
  log.filterMap fun
    | .added s _ _ _ _ => some s
    | .fired .. => none

theorem mem_addedSerials {s : Nat} {log : List TimerEvent} (h : s ∈ addedSerials log) :
    ∃ e ∈ log, e.serial = s := by
  obtain ⟨e, he, hes⟩ := List.mem_filterMap.1 h
  cases e with
  | added s' t m x i => exact ⟨_, he, by simpa [TimerEvent.serial] using hes⟩
  | fired s' t b => simp at hes

/-- The invariant: the nodes `l` and the entries `extra`, which are about to be linked in, are the
queue the log asks for. -/
structure Good (g : ApeTimers) (l : List TicksCallback) (extra : List (ℤ × TicksCallback))
    (lo : ℤ) : Prop where
  queue : Queue l g.ticks lo g.serials
  known : ∀ e ∈ g.log, e.serial < g.serials
  names : (addedSerials g.log).Nodup
  history : History g.log (extra ++ agenda g.ticks l)

/-- How many entries are due at tick `now`. -/
def dueCount (now : ℤ) (l : List TicksCallback) : Nat :=
  (agenda now l).countP fun p => decide (p.1 ≤ now)

/-- A node linked in for a later tick is not due. -/
theorem dueCount_insertTimer {now : ℤ} {new : TicksCallback} {l : List TicksCallback}
    (hnew : 0 < new.delta.toInt) (hl : NonNeg l) :
    dueCount now (insertTimer new l) = dueCount now l := by
  rw [dueCount, agenda_insertTimer now hnew.le hl,
    (List.perm_orderedInsert _ _ _).countP_eq, List.countP_cons_of_neg (by simpa using hnew),
    dueCount]

/-- An add keeps the invariant. -/
theorem serve_good {g : ApeTimers} {l : List TicksCallback} {extra : List (ℤ × TicksCallback)}
    {lo : ℤ} (h : Good g l extra lo) {r : AddRequest} (hr : r.InRange) (hlo : lo ≤ g.ticks + 1)
    (inside : Option Int32) :
    Good (serve inside r g) (insertTimer (newNode r g) l) extra lo := by
  have hdelta : (newNode r g).delta.toInt = r.msec.toNat := CInt.toInt_toInt32 hr.2
  have hpos : 0 < (newNode r g).delta.toInt := by
    rw [hdelta]
    have := hr.1
    omega
  rw [serve_eq]
  refine ⟨h.queue.insert hpos.le (by omega) hpos (fun t ht => ?_) (Nat.lt_succ_self _)
    (Nat.le_succ _), fun e he => ?_, ?_, ?_⟩
  · exact (h.queue.fresh t ht).ne
  · rcases List.mem_append.1 he with he | he
    · exact Nat.lt_succ_of_lt (h.known e he)
    · rw [List.mem_singleton.1 he]
      exact Nat.lt_succ_self _
  · rw [addedSerials, List.filterMap_append]
    refine List.nodup_append.2 ⟨h.names, by simp, fun s hs s' hs' => ?_⟩
    obtain ⟨e, he, rfl⟩ := mem_addedSerials hs
    obtain rfl : s' = g.serials := by simpa using hs'
    exact (h.known e he).ne
  · refine h.history.add (p := (g.ticks + (newNode r g).delta.toInt, (newNode r g).body))
      (fun e he => (h.known e he).ne) rfl ⟨?_, hr.2, rfl, fun _ => ?_, fun _ => rfl⟩ fun x => ?_
    · simp [hdelta]
    · simp [newNode]
    · simp only [List.mem_append, mem_agenda_insertTimer hpos.le h.queue.nonNeg]
      tauto

/-! ## Inside a callback -/

/-- The state while the callback of `f` runs: `f` is still the head with its spent delta, and the
nodes behind it are a good queue. -/
structure Running (f : TicksCallback) (g : ApeTimers) (extra : List (ℤ × TicksCallback))
    (due : Nat) : Prop where
  spent : f.delta = 0
  rest : ∃ R, g.timers = f :: R ∧ Good g R extra g.ticks ∧ (∀ u ∈ R, u.serial ≠ f.serial) ∧
    dueCount g.ticks R = due
  fresh : f.serial < g.serials

/-- An add from a callback lands behind the node being fired. -/
theorem insertTimer_behind {f new : TicksCallback} {R : List TicksCallback} (hf : f.delta = 0)
    (hnew : 0 < new.delta.toInt) : insertTimer new (f :: R) = f :: insertTimer new R := by
  have hlt : ¬ new.delta ≤ f.delta := by
    rw [hf, Int32.le_iff_toInt_le]
    simpa using hnew
  have hsub : new.delta - f.delta = new.delta := by simp [hf]
  rw [insertTimer, if_neg hlt, hsub]

theorem serveInside_running {f : TicksCallback} {g : ApeTimers}
    {extra : List (ℤ × TicksCallback)} {due : Nat} (h : Running f g extra due) {r : AddRequest}
    (hr : r.InRange) : Running f (serveInside f.serial g r) extra due := by
  obtain ⟨hspent, ⟨R, hR, hgood, hout, hdue⟩, hfresh⟩ := h
  have hpos : 0 < (newNode r g).delta.toInt := by
    rw [show (newNode r g).delta.toInt = r.msec.toNat from CInt.toInt_toInt32 hr.2]
    have := hr.1
    omega
  refine ⟨hspent, ⟨insertTimer (newNode r g) R, ?_, ?_, fun u hu => ?_, ?_⟩, ?_⟩
  · rw [serveInside, serve_eq, hR]
    exact insertTimer_behind hspent hpos
  · have := serve_good hgood hr (by omega) (deltaOf f.serial g.timers)
    rwa [serveInside, show (serve (deltaOf f.serial g.timers) r g).ticks = g.ticks by
      rw [serve_eq]]
  · have hmem := (serials_insertTimer (newNode r g) R).subset (List.mem_map.2 ⟨u, hu, rfl⟩)
    rcases List.mem_cons.1 hmem with hs | hs
    · rw [hs]
      exact hfresh.ne'
    · obtain ⟨v, hv, hvs⟩ := List.mem_map.1 hs
      rw [← hvs]
      exact hout v hv
  · rw [serveInside, serve_eq]
    rw [← hdue]
    exact dueCount_insertTimer hpos hgood.queue.nonNeg
  · rw [serveInside, serve_eq]
    exact Nat.lt_succ_of_lt hfresh

/-- A whole callback keeps the invariant. -/
theorem callback_running {f : TicksCallback} {extra : List (ℤ × TicksCallback)} {due : Nat}
    {adds : List AddRequest} (hadds : ∀ r ∈ adds, r.InRange) {g : ApeTimers}
    (h : Running f g extra due) :
    Running f (adds.foldl (serveInside f.serial) g) extra due ∧
      (adds.foldl (serveInside f.serial) g).ticks = g.ticks := by
  induction adds generalizing g with
  | nil => exact ⟨h, rfl⟩
  | cons r adds ih =>
    obtain ⟨hr, hrest⟩ := List.forall_mem_cons.1 hadds
    obtain ⟨hrun, hticks⟩ := ih hrest (serveInside_running h hr)
    refine ⟨hrun, hticks.trans ?_⟩
    rw [serveInside, serve_eq]

/-- Counting the calls down commutes with forgetting the delta. -/
theorem TicksCallback.body_called (t : TicksCallback) : t.body.called = t.called.body := rfl

/-- The entries of the timers that `fireHead` arms again. -/
def again (now : ℤ) (t : TicksCallback) (setsLast : Bool) : List (ℤ × TicksCallback) :=
  if t.lastcall setsLast then [] else [(now + t.ticksNeed.toInt, t.called.body)]

/-- Counting an invocation and logging it takes the head off the queue. -/
theorem fired_good {g : ApeTimers} {t : TicksCallback} {rest : List TicksCallback} {lo : ℤ}
    (h : Good g (t :: rest) [] lo) (hspent : t.delta.toInt = 0) (env : Nat → CallbackRun) :
    Good (begun env t rest g) rest (again g.ticks t (env g.calls).setsLast) lo := by
  set b := (env g.calls).setsLast with hb
  obtain ⟨hnonNeg, hahead, hperiod, hnodup, hfresh⟩ := h.queue
  have hagenda : agenda (g.ticks : ℤ) (t :: rest) =
      ((g.ticks : ℤ), t.body) :: agenda g.ticks rest := by
    simp [hspent]
  rw [List.map_cons, List.nodup_cons] at hnodup
  have hout : ∀ x ∈ agenda (g.ticks : ℤ) rest, x.2.serial ≠ t.serial := by
    intro x hx hxs
    apply hnodup.1
    rw [← serials_agenda g.ticks rest, ← hxs]
    exact List.mem_map.2 ⟨x, hx, rfl⟩
  refine ⟨⟨((nonNeg_cons t rest).1 hnonNeg).2, fun p hp => hahead p ?_,
    fun u hu => hperiod u (List.mem_cons_of_mem _ hu), hnodup.2,
    fun u hu => hfresh u (List.mem_cons_of_mem _ hu)⟩, fun e he => ?_, ?_, ?_⟩
  · rw [hagenda]
    exact List.mem_cons_of_mem _ hp
  · rcases List.mem_append.1 he with he | he
    · exact h.known e he
    · rw [List.mem_singleton.1 he]
      exact hfresh t (List.mem_cons_self ..)
  · simpa [begun, addedSerials, List.filterMap_append] using h.names
  · have hhist := h.history
    rw [List.nil_append, hagenda] at hhist
    refine hhist.fire (F := ((g.ticks : ℤ), t.body)) (List.mem_cons_self ..) rfl
      (fun x hx hxs => ?_) fun x => ?_
    · rcases List.mem_cons.1 hx with rfl | hx
      · rfl
      · exact absurd hxs (hout x hx)
    · have hlast : t.body.lastcall b = t.lastcall b := rfl
      have hmem : x ∈ agenda (g.ticks : ℤ) rest ↔
          x ∈ ((g.ticks : ℤ), t.body) :: agenda g.ticks rest ∧ x.2.serial ≠ t.body.serial := by
        rw [List.mem_cons]
        refine ⟨fun hx => ⟨Or.inr hx, hout x hx⟩, fun ⟨hx, hne⟩ => hx.resolve_left ?_⟩
        rintro rfl
        exact hne rfl
      simp only [begun]
      rw [List.mem_append, hmem, hlast, TicksCallback.body_called, again]
      by_cases hcase : t.lastcall b = true
      · simp [hcase]
      · simp [hcase]

/-- A node armed again stands for the entry that was set aside for it. -/
theorem rearm_good {g : ApeTimers} {t : TicksCallback} {R : List TicksCallback} {lo : ℤ}
    (h : Good g R [((g.ticks : ℤ) + t.ticksNeed.toInt, t.body)] lo) (hR : g.timers = R)
    (hperiod : 0 < t.ticksNeed.toInt) (hout : ∀ u ∈ R, u.serial ≠ t.serial)
    (hfresh : t.serial < g.serials) (hlo : lo ≤ g.ticks + 1) :
    Good (rearm t g) (rearm t g).timers [] lo ∧
      dueCount g.ticks (rearm t g).timers = dueCount g.ticks R := by
  set new : TicksCallback := { t with delta := t.ticksNeed } with hnew
  have hlist : (rearm t g).timers = insertTimer new R := by rw [rearm_timers, hR]
  have hdelta : 0 < new.delta.toInt := hperiod
  have hbody : new.body = t.body := rfl
  rw [hlist]
  refine ⟨⟨h.queue.insert hdelta.le ?_ hperiod hout (Nat.lt_succ_of_lt hfresh) (Nat.le_succ _),
    fun e he => Nat.lt_succ_of_lt (h.known e he), h.names, ?_⟩,
    dueCount_insertTimer hdelta h.queue.nonNeg⟩
  · show lo ≤ (g.ticks : ℤ) + t.ticksNeed.toInt
    omega
  · refine h.history.congr fun p => ?_
    rw [List.nil_append, List.singleton_append, List.mem_cons]
    exact mem_agenda_insertTimer hdelta.le h.queue.nonNeg

/-- The end of a round settles the entry that was set aside. -/
theorem finish_good {g : ApeTimers} {t : TicksCallback} {b : Bool} {R : List TicksCallback}
    {lo : ℤ} (h : Good g R (again g.ticks t b) lo) (hperiod : 0 < t.ticksNeed.toInt)
    (hout : ∀ u ∈ R, u.serial ≠ t.serial) (hfresh : t.serial < g.serials)
    (hlo : lo ≤ g.ticks + 1) :
    (finish t b R g).ticks = g.ticks ∧ Good (finish t b R g) (finish t b R g).timers [] lo ∧
      dueCount g.ticks (finish t b R g).timers = dueCount g.ticks R := by
  unfold finish
  unfold again at h
  by_cases hlast : t.lastcall b = true
  · rw [if_pos hlast] at h ⊢
    exact ⟨rfl, ⟨h.queue, h.known, h.names, h.history⟩, rfl⟩
  · rw [if_neg hlast] at h ⊢
    have hgood : Good { g with timers := R } R
        [((g.ticks : ℤ) + t.called.ticksNeed.toInt, t.called.body)] lo :=
      ⟨h.queue, h.known, h.names, h.history⟩
    exact ⟨rfl, rearm_good hgood rfl hperiod hout hfresh hlo⟩

/-- A spent head of a queue that is not overdue is due now. -/
theorem Good.spent_head {g : ApeTimers} {t : TicksCallback} {rest : List TicksCallback}
    (h : Good g (t :: rest) [] g.ticks) (hspent : t.delta ≤ 0) : t.delta.toInt = 0 := by
  have hle := Int32.le_iff_toInt_le.1 hspent
  have hge := ((nonNeg_cons t rest).1 h.queue.nonNeg).1
  simp only [CInt.toInt_zero] at hle
  omega

/-- The callback of a spent head runs with the node still at the head. -/
theorem Good.begun {g : ApeTimers} {t : TicksCallback} {rest : List TicksCallback}
    (h : Good g (t :: rest) [] g.ticks) (hspent : t.delta ≤ 0) (env : Nat → CallbackRun) :
    Running t.called (begun env t rest g) (again g.ticks t (env g.calls).setsLast)
      (dueCount g.ticks rest) := by
  have hzero := h.spent_head hspent
  have hnodup := h.queue.nodup
  rw [List.map_cons, List.nodup_cons] at hnodup
  refine ⟨Int32.toInt_inj.1 hzero, ⟨rest, rfl, fired_good h hzero env, fun u hu hus => ?_, rfl⟩,
    h.queue.fresh t (List.mem_cons_self ..)⟩
  exact hnodup.1 (List.mem_map.2 ⟨u, hu, hus⟩)

/-- **One invocation** keeps the invariant and leaves one due timer less. -/
theorem fireHead_good {env : Nat → CallbackRun} (henv : ∀ i, ∀ r ∈ (env i).adds, r.InRange)
    {g : ApeTimers} {t : TicksCallback} {rest : List TicksCallback}
    (h : Good g (t :: rest) [] g.ticks) (hspent : t.delta ≤ 0) :
    (fireHead env t rest g).ticks = g.ticks ∧
      Good (fireHead env t rest g) (fireHead env t rest g).timers [] g.ticks ∧
      dueCount g.ticks (fireHead env t rest g).timers + 1 = dueCount g.ticks (t :: rest) := by
  have hcount : dueCount (g.ticks : ℤ) (t :: rest) = dueCount g.ticks rest + 1 := by
    simp [dueCount, h.spent_head hspent]
  have hstart := h.begun hspent env
  obtain ⟨⟨-, ⟨R, hR, hgood, hout, hdue⟩, hfresh⟩, hticks⟩ :=
    callback_running (henv g.calls) hstart
  rw [TicksCallback.called_serial] at hR hgood hout hdue hfresh hticks
  rw [← returned] at hR hgood hdue hfresh hticks
  change (returned env t rest g).ticks = g.ticks at hticks
  -- the node is unlinked, and armed again unless it is over
  have hnext : nextOf t.serial (returned env t rest g).timers = R := by
    rw [hR]
    exact nextOf_head t.called R
  rw [← hticks] at hgood
  obtain ⟨hfticks, hfgood, hfdue⟩ := finish_good hgood (h.queue.period t (List.mem_cons_self ..))
    hout hfresh (by omega)
  rw [hticks] at hfticks hfdue hfgood hdue
  rw [fireHead_eq, hnext, hcount, hfdue, hdue]
  exact ⟨hfticks, hfgood, rfl⟩

/-! ## Ticks and runs -/

/-- The invariant between two ticks: nothing is due any more. -/
def Idle (g : ApeTimers) : Prop := Good g g.timers [] (g.ticks + 1)

/-- A good queue whose head is not spent has nothing due. -/
theorem Good.idle {g : ApeTimers} (h : Good g g.timers [] g.ticks)
    (hhead : ∀ t ∈ g.timers.head?, 0 < t.delta.toInt) : Idle g := by
  refine ⟨⟨h.queue.nonNeg, fun p hp => ?_, h.queue.period, h.queue.nodup, h.queue.fresh⟩, h.known,
    h.names, h.history⟩
  have hnonNeg := h.queue.nonNeg
  cases hl : g.timers with
  | nil => simp [hl] at hp
  | cons t rest =>
    rw [hl] at hp hnonNeg hhead
    have ht : 0 < t.delta.toInt := hhead t rfl
    rw [agenda_cons] at hp
    rcases List.mem_cons.1 hp with rfl | hp
    · show (g.ticks : ℤ) + 1 ≤ g.ticks + t.delta.toInt
      omega
    · have := le_of_mem_agenda ((nonNeg_cons t rest).1 hnonNeg).2 p hp
      omega

/-- Draining returns and runs everything that is due. -/
theorem drain_good {env : Nat → CallbackRun} (henv : ∀ i, ∀ r ∈ (env i).adds, r.InRange)
    {n : Nat} {g : ApeTimers} (h : Good g g.timers [] g.ticks)
    (hn : dueCount g.ticks g.timers ≤ n) :
    ∃ g', drain env (n + 1) g = some g' ∧ Idle g' := by
  induction n generalizing g with
  | zero =>
    cases hl : g.timers with
    | nil => exact ⟨g, by simp only [drain, hl], h.idle (by simp [hl])⟩
    | cons t rest =>
      have hpos : 0 < t.delta.toInt := by
        rw [hl, dueCount, agenda_cons] at hn
        have := List.countP_eq_zero.1 (Nat.le_zero.1 hn) _ (List.mem_cons_self ..)
        simpa using this
      refine ⟨g, ?_, h.idle (by simpa [hl] using hpos)⟩
      have hnot : ¬ t.delta ≤ 0 := by
        rw [Int32.le_iff_toInt_le]
        simpa using hpos
      simp only [drain, hl, if_neg hnot]
  | succ n ih =>
    cases hl : g.timers with
    | nil => exact ⟨g, by simp only [drain, hl], h.idle (by simp [hl])⟩
    | cons t rest =>
      by_cases hspent : t.delta ≤ 0
      · rw [hl] at h hn
        obtain ⟨hticks, hgood, hdue⟩ := fireHead_good henv h hspent
        obtain ⟨g', hrun, hidle⟩ := ih (by rwa [hticks]) (by rw [hticks]; omega)
        exact ⟨g', by rw [drain, hl]; simpa only [if_pos hspent] using hrun, hidle⟩
      · refine ⟨g, by simp only [drain, hl, if_neg hspent], h.idle ?_⟩
        rw [Int32.le_iff_toInt_le, CInt.toInt_zero] at hspent
        simp only [hl, List.head?_cons, Option.mem_def, Option.some.injEq]
        rintro _ rfl
        omega

/-- The tick that is about to be served moves no deadline. -/
theorem Idle.decHead {g : ApeTimers} (h : Idle g) :
    Good { g with ticks := g.ticks + 1, timers := decHead g.timers }
      (Timers.decHead g.timers) [] (g.ticks + 1 : ℕ) := by
  obtain ⟨⟨hnonNeg, hahead, hperiod, hnodup, hfresh⟩, hknown, hnames, hhist⟩ := h
  have hagenda : agenda ((g.ticks + 1 : ℕ) : ℤ) (Timers.decHead g.timers) =
      agenda g.ticks g.timers := by
    rw [Nat.cast_succ]
    exact agenda_decHead g.ticks hnonNeg
  refine ⟨⟨?_, ?_, ?_, ?_, ?_⟩, hknown, hnames, ?_⟩
  · cases hl : g.timers with
    | nil => exact nonNeg_nil
    | cons t rest =>
      rw [hl] at hahead hnonNeg
      obtain ⟨ht, hrest⟩ := (nonNeg_cons t rest).1 hnonNeg
      have hhead := hahead _ (List.mem_cons_self ..)
      rw [decHead_cons, nonNeg_cons, CInt.toInt_pred ht]
      exact ⟨by simp only at hhead; omega, hrest⟩
  · rw [hagenda]
    intro p hp
    have := hahead p hp
    push_cast
    omega
  · cases hl : g.timers <;> simp_all
  · cases hl : g.timers <;> simp_all
  · cases hl : g.timers <;> simp_all
  · rw [hagenda]
    exact hhist

/-- A tick returns and keeps the idle invariant. -/
theorem processTick_idle {env : Nat → CallbackRun} (henv : ∀ i, ∀ r ∈ (env i).adds, r.InRange)
    {g : ApeTimers} (h : Idle g) :
    ∃ g' N, Idle g' ∧ ∀ fuel ≥ N, processTick env fuel g = some g' := by
  obtain ⟨g', hrun, hidle⟩ := drain_good henv h.decHead le_rfl
  refine ⟨g', dueCount (g.ticks + 1 : ℕ) (decHead g.timers) + 1, hidle, fun fuel hfuel => ?_⟩
  rw [processTick_eq_drain]
  exact drain_mono hrun hfuel

/-- Every operation returns and keeps the invariant. -/
theorem exec_idle {env : Nat → CallbackRun} (henv : ∀ i, ∀ r ∈ (env i).adds, r.InRange)
    {g : ApeTimers} (h : Idle g) {op : TimerOp} (hop : ∀ r, op = .add r → r.InRange) :
    ∃ g' N, Idle g' ∧ ∀ fuel ≥ N, op.exec env fuel g = some g' := by
  cases op with
  | add r =>
    have hgood := serve_good h (hop r rfl) le_rfl none
    refine ⟨_, 0, ?_, fun fuel _ => rfl⟩
    rw [serve_eq] at hgood ⊢
    exact hgood
  | tick => exact processTick_idle henv h

/-- **Every run returns and keeps the invariant.** -/
theorem runOps_idle {env : Nat → CallbackRun} (henv : ∀ i, ∀ r ∈ (env i).adds, r.InRange)
    {ops : List TimerOp} (hops : ∀ r, .add r ∈ ops → r.InRange) {g : ApeTimers} (h : Idle g) :
    ∃ g' N, Idle g' ∧ ∀ fuel ≥ N, runOps env fuel ops g = some g' := by
  induction ops generalizing g with
  | nil => exact ⟨g, 0, h, fun _ _ => rfl⟩
  | cons op ops ih =>
    have hop : ∀ r, op = .add r → r.InRange := by
      rintro r rfl
      exact hops r (List.mem_cons_self ..)
    obtain ⟨g₁, N, hg₁, hstep⟩ := exec_idle henv h hop
    obtain ⟨g', M, hg', hrun⟩ := ih (fun r hr => hops r (List.mem_cons_of_mem _ hr)) hg₁
    refine ⟨g', max N M, hg', fun fuel hfuel => ?_⟩
    rw [runOps, hstep fuel (le_of_max_le_left hfuel), Option.bind_some]
    exact hrun fuel (le_of_max_le_right hfuel)

theorem idle_init : Idle .init := by
  refine ⟨⟨nonNeg_nil, ?_, ?_, List.nodup_nil, ?_⟩, ?_, List.nodup_nil, ?_⟩
  all_goals simp [ApeTimers.init, History]

/-- What the idle invariant says about one timer. -/
theorem Idle.firesOnTime {g : ApeTimers} (h : Idle g) {s start : Nat} {msec : UInt32}
    {times : Int32} {inside : Option Int32}
    (hadd : .added s start msec times inside ∈ g.log) :
    FiresOnTime start msec.toNat times.toInt g.ticks (firings s g.log) := by
  obtain ⟨hsched, ⟨hend, -⟩ | ⟨-, p, hp, -, harm⟩⟩ := h.history s start msec times inside hadd
  · exact ⟨hsched, Or.inl hend⟩
  · refine ⟨hsched, Or.inr ?_⟩
    have hahead := h.queue.ahead p hp
    rw [harm.due] at hahead
    exact_mod_cast hahead

/-- **Timers fire exactly on their deadlines.**  For every run of adds and ticks, the adds made
between ticks or from inside any callback, all delays between `1` and `2 ^ 31 - 1`: every tick
returns, each add has a name of its own, and the timer it made is invoked at `t + n`, `t + 2n`, …
until its count is used up or a callback sets the last flag, and at no other tick. -/
theorem timers_fire_on_deadlines (env : Nat → CallbackRun) (ops : List TimerOp)
    (henv : ∀ i, ∀ r ∈ (env i).adds, r.InRange) (hops : ∀ r, .add r ∈ ops → r.InRange) :
    ∃ g N, (∀ fuel ≥ N, runOps env fuel ops .init = some g) ∧ (addedSerials g.log).Nodup ∧
      ∀ s start msec times inside, .added s start msec times inside ∈ g.log →
        FiresOnTime start msec.toNat times.toInt g.ticks (firings s g.log) := by
  obtain ⟨g, N, hidle, hrun⟩ := runOps_idle henv hops idle_init
  exact ⟨g, N, hrun, hidle.names, fun s start msec times inside hadd => hidle.firesOnTime hadd⟩

/-- A run that arms a timer from a callback: delays 2 and 1, the second one asked for twice. -/
theorem timers_fire_on_deadlines_nested :
    ∃ g N, (∀ fuel ≥ N, runOps (fun i => ⟨if i = 0 then [.periodical 1 2 5 6] else [], false⟩) fuel
        [.add (.timeout 2 3 4), .tick, .tick, .tick, .tick] .init = some g) ∧
      (addedSerials g.log).Nodup ∧
      ∀ s start msec times inside, .added s start msec times inside ∈ g.log →
        FiresOnTime start msec.toNat times.toInt g.ticks (firings s g.log) := by
  refine timers_fire_on_deadlines _ _ (fun i r hr => ?_) (fun r hr => ?_)
  · by_cases hi : i = 0
    · simp only [hi, if_true, List.mem_singleton] at hr
      subst hr
      decide
    · simp [hi] at hr
  · simp only [List.mem_cons, TimerOp.add.injEq, reduceCtorEq, List.not_mem_nil, or_false] at hr
    subst hr
    decide

end Ape.Timers

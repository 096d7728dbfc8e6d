import ApeServer.Timers.Agenda

/-!
# Adding timers from a callback

`process_tick` keeps the node it fires in the list while the callback runs, and afterwards makes
its successor the head.  A timer that the callback adds in front of the node is dropped with it.
Since the walk of `add_timeout` stops in front of the first delta that is not smaller, this is
what happens to a delay not larger than the delta of the node being fired, whatever the list and
whatever the other callbacks do.

* `insertTimer_split` — an add lands on one side of the node being fired;
* `Inside` — what a callback has done so far, `serveInside_inside` — the step lemma;
* `fireHead_balance` — a round keeps the books: everything accounted for, or one timer lost;
* `processTick_loses_none_iff` — **a tick loses no timer iff no callback asks for a delay that
  is not above the delta of the node being fired**.
-/

namespace Ape.Timers

/-- The names on a list. -/
def names (l : List TicksCallback) : List Nat := l.map TicksCallback.serial

@[simp] theorem names_nil : names [] = [] := rfl

@[simp] theorem names_cons (t : TicksCallback) (l : List TicksCallback) :
    names (t :: l) = t.serial :: names l := rfl

@[simp] theorem names_append (l l' : List TicksCallback) :
    names (l ++ l') = names l ++ names l' := List.map_append

theorem names_insertTimer (new : TicksCallback) (l : List TicksCallback) :
    (names (insertTimer new l)).Perm (new.serial :: names l) := serials_insertTimer new l

@[simp] theorem names_decHead (l : List TicksCallback) : names (decHead l) = names l := by
  cases l <;> rfl

/-! ## Names are never reused -/

/-- No name stands on the list twice, and none on the list or in the log is still to come. -/
structure Named (g : ApeTimers) : Prop where
  nodup : (names g.timers).Nodup
  fresh : ∀ s ∈ names g.timers, s < g.serials
  known : ∀ e ∈ g.log, e.serial < g.serials
  past : ∀ e ∈ g.log, e.tick ≤ g.ticks

/-- An add keeps the names apart. -/
theorem Named.serve {g : ApeTimers} (h : Named g) (inside : Option Int32) (r : AddRequest) :
    Named (serve inside r g) := by
  rw [serve_eq]
  have hperm := names_insertTimer (newNode r g) g.timers
  refine ⟨?_, fun s hs => ?_, fun e he => ?_, fun e he => ?_⟩
  · rw [hperm.nodup_iff, List.nodup_cons]
    exact ⟨fun hmem => absurd (h.fresh _ hmem) (lt_irrefl _), h.nodup⟩
  · rcases List.mem_cons.1 (hperm.subset hs) with rfl | hs
    · exact Nat.lt_succ_self _
    · exact Nat.lt_succ_of_lt (h.fresh s hs)
  · rcases List.mem_append.1 he with he | he
    · exact Nat.lt_succ_of_lt (h.known e he)
    · rw [List.mem_singleton.1 he]
      exact Nat.lt_succ_self _
  · rcases List.mem_append.1 he with he | he
    · exact h.past e he
    · rw [List.mem_singleton.1 he]
      exact le_rfl

/-! ## Where an add lands -/

/-- An add lands in front of the node `f` or behind it, and leaves the other side alone.  With
nothing in front of `f` so far, its delta decides. -/
theorem insertTimer_split (new f : TicksCallback) (P Q : List TicksCallback) :
    (∃ P' f', insertTimer new (P ++ f :: Q) = P' ++ f' :: Q ∧ f'.serial = f.serial ∧
        (names P').Perm (new.serial :: names P) ∧ (P = [] → new.delta ≤ f.delta)) ∨
      ∃ Q', insertTimer new (P ++ f :: Q) = P ++ f :: Q' ∧
        (names Q').Perm (new.serial :: names Q) ∧ (P = [] → ¬ new.delta ≤ f.delta) := by
  induction P generalizing new with
  | nil =>
    by_cases h : new.delta ≤ f.delta
    · refine Or.inl ⟨[new], { f with delta := f.delta - new.delta }, ?_, rfl, List.Perm.refl _,
        fun _ => h⟩
      simp only [List.nil_append, insertTimer, if_pos h, List.singleton_append]
    · refine Or.inr ⟨insertTimer { new with delta := new.delta - f.delta } Q, ?_,
        names_insertTimer { new with delta := new.delta - f.delta } Q, fun _ => h⟩
      simp only [List.nil_append, insertTimer, if_neg h]
  | cons p P ih =>
    have hne : p :: P ≠ [] := List.cons_ne_nil p P
    by_cases h : new.delta ≤ p.delta
    · refine Or.inl ⟨new :: { p with delta := p.delta - new.delta } :: P, f, ?_, rfl,
        List.Perm.refl _, fun hnil => absurd hnil hne⟩
      simp only [List.cons_append, insertTimer, if_pos h]
    · rcases ih { new with delta := new.delta - p.delta } with
        ⟨P', f', heq, hf', hperm, -⟩ | ⟨Q', heq, hperm, -⟩
      · refine Or.inl ⟨p :: P', f', ?_, hf', ?_, fun hnil => absurd hnil hne⟩
        · simp only [List.cons_append, insertTimer, if_neg h, heq]
        · exact (List.Perm.cons _ hperm).trans (List.Perm.swap ..)
      · refine Or.inr ⟨Q', ?_, hperm, fun hnil => absurd hnil hne⟩
        simp only [List.cons_append, insertTimer, if_neg h, heq]

/-- What `nextOf` finds behind a node in the middle. -/
theorem nextOf_split {f : TicksCallback} {P Q : List TicksCallback} (hP : f.serial ∉ names P) :
    nextOf f.serial (P ++ f :: Q) = Q := by
  have hdrop : (P ++ f :: Q).dropWhile (fun t => t.serial != f.serial) = f :: Q := by
    rw [List.dropWhile_append_of_pos fun t ht => ?_]
    · simp
    · have hne : t.serial ≠ f.serial := fun heq => hP (List.mem_map.2 ⟨t, ht, heq⟩)
      simpa using hne
  rw [nextOf, hdrop, List.tail_cons]

/-- `deltaOf` finds the delta of a node whose name is not before it. -/
theorem deltaOf_split {f : TicksCallback} {P Q : List TicksCallback} (hP : f.serial ∉ names P) :
    deltaOf f.serial (P ++ f :: Q) = some f.delta := by
  have hnone : P.find? (fun t => t.serial == f.serial) = none := by
    refine List.find?_eq_none.2 fun t ht => ?_
    have hne : t.serial ≠ f.serial := fun heq => hP (List.mem_map.2 ⟨t, ht, heq⟩)
    simpa using hne
  simp [deltaOf, List.find?_append, hnone]

/-! ## Inside a callback -/

/-- The add `e` asks for more than the delta of the node being fired. -/
def TimerEvent.Behind : TimerEvent → Prop
  | .added _ _ msec _ (some d) => d < msec.toInt32
  | _ => True

instance (e : TimerEvent) : Decidable e.Behind := by
  cases e with
  | added s t m x i => cases i <;> unfold TimerEvent.Behind <;> infer_instance
  | fired => exact isTrue trivial

/-- What the callback of the node `f` has done since `g₀`: it has logged the adds `ev`, the nodes
`P` stand in front of `f` and the nodes `Q` behind it. -/
structure Inside (f : Nat) (R : List TicksCallback) (g₀ g : ApeTimers) (P Q : List TicksCallback)
    (ev : List TimerEvent) : Prop where
  named : Named g
  ticks : g.ticks = g₀.ticks
  later : g₀.serials ≤ g.serials
  log : g.log = g₀.log ++ ev
  list : ∃ f', g.timers = P ++ f' :: Q ∧ f'.serial = f
  behind : names R ⊆ names Q
  origin : ∀ s ∈ names Q, s ∈ names R ∨ g₀.serials ≤ s
  front : ∀ s ∈ names P, g₀.serials ≤ s ∧
    ∃ msec times d, .added s g₀.ticks msec times (some d) ∈ ev
  added : ∀ e ∈ ev, ∃ s msec times d, e = .added s g₀.ticks msec times (some d) ∧
    (s ∈ names P ∨ s ∈ names Q)
  lost : P = [] ↔ ∀ e ∈ ev, e.Behind

/-- The node being fired is not among the nodes in front of it. -/
theorem Named.not_mem_front {g : ApeTimers} (h : Named g) {f : TicksCallback}
    {P Q : List TicksCallback} (hlist : g.timers = P ++ f :: Q) : f.serial ∉ names P := by
  have hnodup := h.nodup
  rw [hlist, names_append, names_cons] at hnodup
  exact fun hmem => (List.nodup_append.1 hnodup).2.2 _ hmem _ (List.mem_cons_self ..) rfl

/-- **One add** from inside the callback. -/
theorem serveInside_inside {f : Nat} {R : List TicksCallback} {g₀ g : ApeTimers}
    {P Q : List TicksCallback} {ev : List TimerEvent} (h : Inside f R g₀ g P Q ev)
    (r : AddRequest) : ∃ P' Q' e, Inside f R g₀ (serveInside f g r) P' Q' (ev ++ [e]) := by
  obtain ⟨f', hlist, rfl⟩ := h.list
  have hdelta : deltaOf f'.serial g.timers = some f'.delta := by
    rw [hlist]
    exact deltaOf_split (h.named.not_mem_front hlist)
  set e : TimerEvent := .added g.serials g₀.ticks r.msec r.times (some f'.delta) with he
  have hnamed := h.named.serve (some f'.delta) r
  have hserve : serveInside f'.serial g r = serve (some f'.delta) r g := by
    rw [serveInside, hdelta]
  have htimers : (serve (some f'.delta) r g).timers =
      insertTimer (newNode r g) (P ++ f' :: Q) := by rw [serve_eq, hlist]
  have hlog : (serve (some f'.delta) r g).log = g₀.log ++ (ev ++ [e]) := by
    rw [serve_eq, he, ← h.ticks]
    simp only
    rw [h.log, List.append_assoc]
  have hticks : (serve (some f'.delta) r g).ticks = g₀.ticks := by rw [serve_eq]; exact h.ticks
  have hlater : g₀.serials ≤ (serve (some f'.delta) r g).serials := by
    rw [serve_eq]
    exact h.later.trans (Nat.le_succ _)
  have hbehind : e.Behind ↔ ¬ (newNode r g).delta ≤ f'.delta := Int32.not_le.symm
  have hall : (∀ x ∈ ev ++ [e], x.Behind) ↔ (∀ x ∈ ev, x.Behind) ∧ e.Behind := by
    simp [or_imp, forall_and]
  rw [hserve]
  rcases insertTimer_split (newNode r g) f' P Q with
    ⟨P', f'', heq, hf'', hperm, hhead⟩ | ⟨Q', heq, hperm, hhead⟩
  · -- in front: the new timer is lost, and so is the promise
    refine ⟨P', Q, e, hnamed, hticks, hlater, hlog, ⟨f'', htimers.trans heq, hf''⟩, h.behind,
      h.origin, fun s hs => ?_, fun x hx => ?_, ?_⟩
    · rcases List.mem_cons.1 (hperm.subset hs) with rfl | hs
      · exact ⟨h.later, _, _, _, List.mem_append_right _ (List.mem_singleton_self _)⟩
      · obtain ⟨hle, msec, times, d, hadd⟩ := h.front s hs
        exact ⟨hle, msec, times, d, List.mem_append_left _ hadd⟩
    · rcases List.mem_append.1 hx with hx | hx
      · obtain ⟨s, msec, times, d, rfl, hs⟩ := h.added x hx
        exact ⟨s, msec, times, d, rfl,
          hs.imp_left fun hs => hperm.symm.subset (List.mem_cons_of_mem _ hs)⟩
      · exact ⟨_, _, _, _, List.mem_singleton.1 hx,
          Or.inl (hperm.symm.subset (List.mem_cons_self ..))⟩
    · have hne : P' ≠ [] := by
        rintro rfl
        exact absurd hperm (List.not_perm_nil_cons _ _)
      rw [hall, ← h.lost]
      refine ⟨fun hnil => absurd hnil hne, fun ⟨hnil, hlate⟩ => ?_⟩
      exact absurd (hhead hnil) (hbehind.1 hlate)
  · refine ⟨P, Q', e, hnamed, hticks, hlater, hlog, ⟨f', htimers.trans heq, rfl⟩,
      fun s hs => hperm.symm.subset (List.mem_cons_of_mem _ (h.behind hs)), fun s hs => ?_,
      fun s hs => ?_, fun x hx => ?_, ?_⟩
    · rcases List.mem_cons.1 (hperm.subset hs) with rfl | hs
      · exact Or.inr h.later
      · exact h.origin s hs
    · obtain ⟨hle, msec, times, d, hadd⟩ := h.front s hs
      exact ⟨hle, msec, times, d, List.mem_append_left _ hadd⟩
    · rcases List.mem_append.1 hx with hx | hx
      · obtain ⟨s, msec, times, d, rfl, hs⟩ := h.added x hx
        exact ⟨s, msec, times, d, rfl,
          hs.imp_right fun hs => hperm.symm.subset (List.mem_cons_of_mem _ hs)⟩
      · exact ⟨_, _, _, _, List.mem_singleton.1 hx,
          Or.inr (hperm.symm.subset (List.mem_cons_self ..))⟩
    · rw [hall, ← h.lost]
      exact ⟨fun hnil => ⟨hnil, hbehind.2 (hhead hnil)⟩, fun h => h.1⟩

/-- A whole callback links its nodes in around the node that is running. -/
theorem callback_inside {f : Nat} {R : List TicksCallback} {g₀ : ApeTimers}
    (adds : List AddRequest) {g : ApeTimers} {P Q : List TicksCallback} {ev : List TimerEvent}
    (h : Inside f R g₀ g P Q ev) :
    ∃ P' Q' ev', Inside f R g₀ (adds.foldl (serveInside f) g) P' Q' ev' := by
  induction adds generalizing g P Q ev with
  | nil => exact ⟨P, Q, ev, h⟩
  | cons r adds ih =>
    obtain ⟨P', Q', e, h'⟩ := serveInside_inside h r
    exact ih h'

/-! ## One round -/

/-- The end of a round keeps what stands behind the node. -/
theorem names_finish (t : TicksCallback) (b : Bool) (R : List TicksCallback) (g : ApeTimers) :
    (names (finish t b R g).timers).Perm
      (if t.lastcall b then names R else t.serial :: names R) := by
  unfold finish
  by_cases hlast : t.lastcall b = true
  · rw [if_pos hlast, if_pos hlast]
  · rw [if_neg hlast, if_neg hlast, rearm_timers]
    exact names_insertTimer _ R

theorem serials_le_finish (t : TicksCallback) (b : Bool) (R : List TicksCallback)
    (g : ApeTimers) : g.serials ≤ (finish t b R g).serials := by
  unfold finish
  split
  · exact le_rfl
  · exact Nat.le_succ _

/-- A callback starts from the list with the node that is running at its head. -/
theorem begun_inside (env : Nat → CallbackRun) {g : ApeTimers} {t : TicksCallback}
    {rest : List TicksCallback} (h : Named g) (hl : g.timers = t :: rest) :
    Inside t.serial rest (begun env t rest g) (begun env t rest g) [] rest [] := by
  obtain ⟨hnodup, hfresh, hknown, hpast⟩ := h
  rw [hl] at hnodup hfresh
  refine ⟨⟨hnodup, hfresh, fun e he => ?_, fun e he => ?_⟩, rfl, le_rfl,
    (List.append_nil _).symm, ⟨t.called, rfl, rfl⟩, List.Subset.refl _, fun s hs => Or.inl hs,
    by simp, by simp, by simp⟩
  · rcases List.mem_append.1 he with he | he
    · exact hknown e he
    · rw [List.mem_singleton.1 he]
      exact hfresh _ (List.mem_cons_self ..)
  · rcases List.mem_append.1 he with he | he
    · exact hpast e he
    · rw [List.mem_singleton.1 he]
      exact le_rfl

/-- All that a round does to names and log: the head is invoked, `P` is dropped, `Q` is kept. -/
structure Round (g : ApeTimers) (t : TicksCallback) (rest P Q : List TicksCallback)
    (ev : List TimerEvent) (b : Bool) (g' : ApeTimers) : Prop where
  named : Named g'
  ticks : g'.ticks = g.ticks
  log : g'.log = g.log ++ .fired t.serial g.ticks b :: ev
  kept : names rest ⊆ names Q ∧ names Q ⊆ names g'.timers
  only : ∀ s ∈ names g'.timers, s ∈ names g.timers ∨ g.serials ≤ s
  dropped : ∀ s ∈ names P, s ∉ names g'.timers ∧ s ≠ t.serial ∧ g.serials ≤ s ∧
    ∃ msec times d, .added s g.ticks msec times (some d) ∈ ev
  added : ∀ e ∈ ev, ∃ s msec times d, e = .added s g.ticks msec times (some d) ∧
    (s ∈ names P ∨ s ∈ names Q)
  lost : P = [] ↔ ∀ e ∈ ev, e.Behind

/-- **One round**, whatever the callback adds. -/
theorem fireHead_round (env : Nat → CallbackRun) {g : ApeTimers} {t : TicksCallback}
    {rest : List TicksCallback} (h : Named g) (hl : g.timers = t :: rest) :
    ∃ P Q ev b, Round g t rest P Q ev b (fireHead env t rest g) := by
  obtain ⟨P, Q, ev, hin⟩ := callback_inside (env g.calls).adds (begun_inside env h hl)
  rw [← returned] at hin
  obtain ⟨f', hlist, hf'⟩ := hin.list
  set b := (env g.calls).setsLast with hb
  set g' := returned env t rest g with hg'
  have hfire : fireHead env t rest g = finish t b Q g' := by
    rw [fireHead_eq, hlist, ← hf', nextOf_split (hin.named.not_mem_front hlist)]
  have hnodup := hin.named.nodup
  have hfresh := hin.named.fresh
  rw [hlist, names_append, names_cons, hf'] at hnodup hfresh
  obtain ⟨-, hQ, hapart⟩ := List.nodup_append.1 hnodup
  have hnames := names_finish t b Q g'
  have honly : ∀ s ∈ names (finish t b Q g').timers, s = t.serial ∨ s ∈ names Q := by
    intro s hs
    have := hnames.subset hs
    split at this
    · exact Or.inr this
    · exact List.mem_cons.1 this
  refine ⟨P, Q, ev, b, ?_⟩
  rw [hfire]
  refine ⟨⟨?_, fun s hs => ?_, ?_, ?_⟩, ?_, ?_, ⟨hin.behind, fun s hs => ?_⟩, fun s hs => ?_,
    fun s hs => ?_, hin.added, hin.lost⟩
  · rw [hnames.nodup_iff]
    split
    · exact (List.nodup_cons.1 hQ).2
    · exact hQ
  · refine (hfresh s (List.mem_append_right _ ?_)).trans_le (serials_le_finish ..)
    exact List.mem_cons.2 (honly s hs)
  · rw [finish_log]
    exact fun e he => (hin.named.known e he).trans_le (serials_le_finish ..)
  · rw [finish_log, finish_ticks]
    exact hin.named.past
  · rw [finish_ticks]
    exact hin.ticks
  · rw [finish_log, hin.log, begun, List.append_assoc]
    rfl
  · refine hnames.symm.subset ?_
    split
    · exact hs
    · exact List.mem_cons_of_mem _ hs
  · rw [hl, names_cons]
    rcases honly s hs with rfl | hs
    · exact Or.inl (List.mem_cons_self ..)
    · exact (hin.origin s hs).imp_left (List.mem_cons_of_mem _)
  · have hne := hapart s hs
    refine ⟨fun hmem => ?_, hne _ (List.mem_cons_self ..), hin.front s hs⟩
    exact hne s (List.mem_cons.2 (honly s hmem)) rfl

/-! ## The books of a tick -/

/-- The timer `s` was added at tick `T`. -/
def AddedAt (T s : Nat) (log : List TimerEvent) : Prop :=
  ∃ msec times inside, .added s T msec times inside ∈ log

/-- Every add of tick `T` so far asked for more than the delta of the node being fired. -/
def AllBehind (T : Nat) (log : List TimerEvent) : Prop := ∀ e ∈ log, e.tick = T → e.Behind

/-- The timer `s` is on the list or has been run at tick `T`. -/
def Accounted (T s : Nat) (g : ApeTimers) : Prop :=
  s ∈ names g.timers ∨ ∃ b, .fired s T b ∈ g.log

/-- The timer `s` was added at tick `T`, is not on the list and has never been run. -/
structure Lost (T s : Nat) (g : ApeTimers) : Prop where
  added : AddedAt T s g.log
  unlinked : s ∉ names g.timers
  never : ∀ tick b, .fired s tick b ∉ g.log

/-- The books of tick `T`: the timers `S` of before are accounted for, and either so are all that
were added, or one of them is lost. -/
structure Balance (T : Nat) (S : List Nat) (g : ApeTimers) : Prop where
  named : Named g
  tick : g.ticks = T
  old : ∀ s ∈ S, Accounted T s g
  new : (AllBehind T g.log ∧ ∀ s, AddedAt T s g.log → Accounted T s g) ∨
    (¬ AllBehind T g.log ∧ ∃ s, Lost T s g)

section Round

variable {g g' : ApeTimers} {t : TicksCallback} {rest P Q : List TicksCallback}
  {ev : List TimerEvent} {b : Bool}

/-- What was accounted for stays so. -/
theorem Round.accounted (hr : Round g t rest P Q ev b g') (hl : g.timers = t :: rest) {s : Nat}
    (h : Accounted g.ticks s g) : Accounted g.ticks s g' := by
  rcases h with hs | ⟨b', hb'⟩
  · rw [hl, names_cons] at hs
    rcases List.mem_cons.1 hs with rfl | hs
    · exact Or.inr ⟨b, by simp [hr.log]⟩
    · exact Or.inl (hr.kept.2 (hr.kept.1 hs))
  · exact Or.inr ⟨b', by simp [hr.log, hb']⟩

/-- The adds of a round are no invocations. -/
theorem Round.fired_ev (hr : Round g t rest P Q ev b g') {s tick : Nat} {b' : Bool} :
    .fired s tick b' ∉ ev := by
  intro he
  obtain ⟨s', msec, times, d, heq, -⟩ := hr.added _ he
  exact TimerEvent.noConfusion heq

/-- A timer that was lost before a round is lost behind it. -/
theorem Round.lost_stays (hr : Round g t rest P Q ev b g') (h : Named g)
    (hl : g.timers = t :: rest) {s : Nat} (hlost : Lost g.ticks s g) : Lost g.ticks s g' := by
  obtain ⟨⟨msec, times, inside, hadd⟩, hout, hnever⟩ := hlost
  refine ⟨⟨msec, times, inside, by simp [hr.log, hadd]⟩, fun hmem => ?_, fun tick b' hb' => ?_⟩
  · rcases hr.only s hmem with hmem | hle
    · exact hout hmem
    · exact absurd (h.known _ hadd) (Nat.not_lt.2 hle)
  · rw [hr.log, List.mem_append, List.mem_cons] at hb'
    rcases hb' with hb' | hb' | hb'
    · exact hnever tick b' hb'
    · have hs : s = t.serial := congrArg TimerEvent.serial hb'
      exact hout (by rw [hl, hs]; exact List.mem_cons_self ..)
    · exact hr.fired_ev hb'

/-- A timer dropped with the node is lost. -/
theorem Round.lost_of_dropped (hr : Round g t rest P Q ev b g') (h : Named g) {s : Nat}
    (hs : s ∈ names P) : Lost g.ticks s g' := by
  obtain ⟨hout, hne, hle, msec, times, d, hadd⟩ := hr.dropped s hs
  refine ⟨⟨msec, times, some d, by simp [hr.log, hadd]⟩, hout, fun tick b' hb' => ?_⟩
  rw [hr.log, List.mem_append, List.mem_cons] at hb'
  rcases hb' with hb' | hb' | hb'
  · exact absurd (h.known _ hb') (Nat.not_lt.2 hle)
  · exact hne (congrArg TimerEvent.serial hb')
  · exact hr.fired_ev hb'

/-- Every add is behind its node iff it was so before and nothing is dropped. -/
theorem Round.allBehind_iff (hr : Round g t rest P Q ev b g') :
    AllBehind g.ticks g'.log ↔ AllBehind g.ticks g.log ∧ P = [] := by
  rw [hr.lost, AllBehind, hr.log]
  constructor
  · refine fun hall => ⟨fun e he => hall e (by simp [he]), fun e he => ?_⟩
    obtain ⟨s, msec, times, d, rfl, -⟩ := hr.added e he
    exact hall _ (by simp [he]) rfl
  · rintro ⟨hold, hnew⟩ e he htick
    rw [List.mem_append, List.mem_cons] at he
    rcases he with he | rfl | he
    · exact hold e he htick
    · trivial
    · exact hnew e he

/-- A round accounts for every timer that was to be run. -/
theorem Round.balance (hr : Round g t rest P Q ev b g') (hl : g.timers = t :: rest) {T : Nat}
    {S : List Nat} (h : Balance T S g) : Balance T S g' := by
  obtain ⟨hnamed, rfl, hold, hnew⟩ := h
  refine ⟨hr.named, hr.ticks, fun s hs => hr.accounted hl (hold s hs), ?_⟩
  rw [hr.allBehind_iff]
  rcases hnew with ⟨hall, hacc⟩ | ⟨hbad, s, hlost⟩
  · cases P with
    | nil =>
      refine Or.inl ⟨⟨hall, rfl⟩, ?_⟩
      rintro s ⟨msec, times, inside, hadd⟩
      rw [hr.log, List.mem_append, List.mem_cons] at hadd
      rcases hadd with hadd | hadd | hadd
      · exact hr.accounted hl (hacc s ⟨msec, times, inside, hadd⟩)
      · exact TimerEvent.noConfusion hadd
      · obtain ⟨s', msec', times', d, heq, hs'⟩ := hr.added _ hadd
        obtain rfl : s = s' := congrArg TimerEvent.serial heq
        exact Or.inl (hr.kept.2 (hs'.resolve_left (by simp)))
    | cons p P =>
      exact Or.inr ⟨fun hcon => absurd hcon.2 (List.cons_ne_nil p P), p.serial,
        hr.lost_of_dropped hnamed (List.mem_cons_self ..)⟩
  · exact Or.inr ⟨fun hcon => hbad hcon.1, s, hr.lost_stays hnamed hl hlost⟩

end Round

/-- The loop of a tick accounts for every timer that was to be run. -/
theorem drain_balance (env : Nat → CallbackRun) {T : Nat} {S : List Nat} {fuel : Nat}
    {g g' : ApeTimers} (h : Balance T S g) (hrun : drain env fuel g = some g') :
    Balance T S g' := by
  induction fuel generalizing g with
  | zero => simp [drain] at hrun
  | succ fuel ih =>
    cases hl : g.timers with
    | nil =>
      simp only [drain, hl, Option.some.injEq] at hrun
      exact hrun ▸ h
    | cons t rest =>
      simp only [drain, hl] at hrun
      by_cases hspent : t.delta ≤ 0
      · rw [if_pos hspent] at hrun
        obtain ⟨P, Q, ev, b, hr⟩ := fireHead_round env h.named hl
        exact ih (hr.balance hl h) hrun
      · rw [if_neg hspent, Option.some.injEq] at hrun
        exact hrun ▸ h

/-- A tick that returns leaves the books of that tick. -/
theorem processTick_balance (env : Nat → CallbackRun) {fuel : Nat} {g g' : ApeTimers}
    (h : Named g) (hrun : processTick env fuel g = some g') :
    Balance (g.ticks + 1) (names g.timers) g' := by
  rw [processTick_eq_drain] at hrun
  have hearlier : ∀ e ∈ g.log, e.tick ≠ g.ticks + 1 := by
    intro e he heq
    have := h.past e he
    omega
  refine drain_balance env (g := { g with ticks := g.ticks + 1, timers := decHead g.timers })
    ⟨⟨?_, ?_, h.known, fun e he => ?_⟩, rfl, fun s hs => ?_, ?_⟩ hrun
  · rw [names_decHead]
    exact h.nodup
  · rw [names_decHead]
    exact h.fresh
  · exact (h.past e he).trans (Nat.le_succ _)
  · exact Or.inl (by rwa [names_decHead])
  · refine Or.inl ⟨fun e he htick => absurd htick (hearlier e he), ?_⟩
    rintro s ⟨msec, times, inside, hadd⟩
    exact absurd rfl (hearlier _ hadd)

/-- Names stay apart over every run. -/
theorem runOps_named (env : Nat → CallbackRun) {fuel : Nat} {ops : List TimerOp}
    {g g' : ApeTimers} (h : Named g) (hrun : runOps env fuel ops g = some g') : Named g' := by
  induction ops generalizing g with
  | nil =>
    rw [runOps, Option.some.injEq] at hrun
    exact hrun ▸ h
  | cons op ops ih =>
    obtain ⟨g₁, hstep, hrest⟩ := Option.bind_eq_some_iff.1 hrun
    refine ih ?_ hrest
    cases op with
    | add r =>
      rw [TimerOp.exec, Option.some.injEq] at hstep
      exact hstep ▸ h.serve none r
    | tick => exact (processTick_balance env h hstep).named

theorem named_init : Named .init :=
  ⟨List.nodup_nil, by simp [ApeTimers.init], by simp [ApeTimers.init], by simp [ApeTimers.init]⟩

/-! ## No timer is lost -/

/-- The tick that led from `g` to `g'` lost no timer: every timer it added is on the list or has
been invoked, and every timer of before that it did not run is on the list. -/
def NoneLost (g g' : ApeTimers) : Prop :=
  (∀ s msec times inside, .added s g'.ticks msec times inside ∈ g'.log →
      s ∈ names g'.timers ∨ ∃ tick b, .fired s tick b ∈ g'.log) ∧
    ∀ s ∈ names g.timers, (∀ b, .fired s g'.ticks b ∉ g'.log) → s ∈ names g'.timers

/-- **A tick loses no timer iff every add from inside a callback asks for a delay above the delta
of the node being fired.** -/
theorem processTick_loses_none_iff (env : Nat → CallbackRun) (ops : List TimerOp) (fuel : Nat)
    (g g' : ApeTimers) (hreach : runOps env fuel ops .init = some g)
    (htick : processTick env fuel g = some g') :
    NoneLost g g' ↔ ∀ s msec times d,
      .added s (g.ticks + 1) msec times (some d) ∈ g'.log → d < msec.toInt32 := by
  obtain ⟨-, hticks, hold, hnew⟩ :=
    processTick_balance env (runOps_named env named_init hreach) htick
  have hall : AllBehind (g.ticks + 1) g'.log ↔ ∀ s msec times d,
      .added s (g.ticks + 1) msec times (some d) ∈ g'.log → d < msec.toInt32 := by
    constructor
    · intro hall s msec times d hadd
      exact hall _ hadd rfl
    · intro hall e he htick
      cases e with
      | added s tick msec times inside =>
        obtain rfl : tick = g.ticks + 1 := htick
        cases inside with
        | none => trivial
        | some d => exact hall s msec times d he
      | fired => trivial
  rw [← hall, NoneLost, hticks]
  rcases hnew with ⟨hbehind, hacc⟩ | ⟨hbad, s, ⟨msec, times, inside, hadd⟩, hout, hnever⟩
  · refine iff_of_true ⟨fun s msec times inside hadd => ?_, fun s hs hnot => ?_⟩ hbehind
    · exact (hacc s ⟨msec, times, inside, hadd⟩).imp_right fun ⟨b, hb⟩ => ⟨_, b, hb⟩
    · exact (hold s hs).resolve_right fun ⟨b, hb⟩ => hnot b hb
  · refine iff_of_false (fun hnone => ?_) hbad
    rcases hnone.1 s msec times inside hadd with hs | ⟨tick, b, hb⟩
    · exact hout hs
    · exact hnever tick b hb

/-- A callback that asks for the delays 3 and 0 while the node being fired has the delta 0. -/
theorem processTick_loses_none_iff_two :
    ∃ g g', runOps (fun i => ⟨if i = 0 then [.timeout 3 7 8, .timeout 0 7 8] else [], false⟩) 5
        [.add (.timeout 1 5 6)] .init = some g ∧
      (NoneLost g g' ↔ ∀ s msec times d,
        .added s (g.ticks + 1) msec times (some d) ∈ g'.log → d < msec.toInt32) :=
  ⟨_, _, rfl, processTick_loses_none_iff
    (fun i => ⟨if i = 0 then [.timeout 3 7 8, .timeout 0 7 8] else [], false⟩)
    [.add (.timeout 1 5 6)] 5 _ _ rfl rfl⟩

/-- **`setTimeout(f, 0)`** inside a callback: the new timer is nowhere after the tick. -/
theorem processTick_loses_none_fails_delay_zero :
    ∃ g g', runOps (fun i => ⟨if i = 0 then [.timeout 0 7 8] else [], false⟩) 5
        [.add (.timeout 1 5 6)] .init = some g ∧
      processTick (fun i => ⟨if i = 0 then [.timeout 0 7 8] else [], false⟩) 5 g = some g' ∧
      ¬ NoneLost g g' := by
  refine ⟨_, ⟨[], 2, 1, 2, 1, [.added 0 0 1 1 none, .fired 0 1 false, .added 1 1 0 1 (some 0)]⟩,
    rfl, by decide, fun hnone => ?_⟩
  rcases hnone.1 1 0 1 (some 0) (by decide) with hs | ⟨tick, b, hb⟩
  · simp at hs
  · simp at hb

end Ape.Timers

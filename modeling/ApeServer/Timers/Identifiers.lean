import ApeServer.Timers.Deletion
import ApeServer.Timers.Reentry
import Mathlib.Data.List.Perm.Subperm

/-!
# Identifiers of timers

`add_timeout` numbers the timers as they come.  `process_tick` arms a timer again through the same
function, takes the number back that it has just given, and puts the old one into the new node.
Meanwhile callbacks add timers and delete others, so the steps are taken apart here: the test of the
loop, what a callback does, call by call, and the end of a round are steps of their own.

* `Moment.step`, `Moment.run` — the steps, and the states that are reached;
* `step_cases` — **a step gives one new number, or none and the nodes it leaves have had theirs**;
* `Numbered` — the invariant, `step_numbered`, `run_numbered` — it holds along a run;
* `identifiers_unique` — **the timers have different identifiers, all of them have been given, and
  no timer ever changes its own**;
* `callback_returns` — the node that is being called is in the list when its callback returns;
* `Leads`, `runOps_leads` — **a run of whole ticks is a run of these steps**, `runOps_numbered`.
-/

namespace Ape.Timers

/-! ## Steps -/

/-- What `add_timeout` or `add_periodical` does, without a record. -/
def AddRequest.perform (g : ApeTimers) : AddRequest → ApeTimers
  | .timeout msec func params => addTimeout msec func params id g
  | .periodical msec times func params => addPeriodical msec times func params g

/-- Where the server is: between two ticks, at the test of the loop of `process_tick`, or in the
callback of the node `serial`, with what `lastcall` holds. -/
inductive Phase where
  | between
  | looping
  | calling (serial : Nat) (lastcall : Bool)
  deriving DecidableEq, Repr

/-- The timers at a moment. -/
structure Moment where
  ape : ApeTimers
  phase : Phase
  deriving DecidableEq, Repr

/-- What can happen.  A callback returns with what it has stored into `*last`, if anything. -/
inductive Act where
  | add (r : AddRequest)
  | delete (identifier : UInt32)
  | tick
  | look
  | returns (stored : Option Bool)
  deriving DecidableEq, Repr

/-- The end of a round: unlink the node `t` with what stands in front of it, arm it again unless
this was the last call, and give the tick back to the new head. -/
def endRound (t : TicksCallback) (lastcall : Bool) (g : ApeTimers) : ApeTimers :=
  let unlinked := { g with timers := nextOf t.serial g.timers }
  let g' := if lastcall then unlinked else rearm t unlinked
  { g' with timers := bumpHead g'.timers }

namespace Moment

/-- A server that has just started. -/
def start : Moment := ⟨.init, .between⟩

/-- One step.  Adds and deletions come between two ticks or from a callback; a callback that deletes
the timer it is called for has no step, since `process_tick` then reads a node that is freed. -/
def step (s : Moment) : Act → Option Moment
  | .add r =>
    match s.phase with
    | .looping => none
    | _ => some { s with ape := r.perform s.ape }
  | .delete identifier =>
    match s.phase with
    | .between => some { s with ape := delTimerIdentifier identifier s.ape }
    | .looping => none
    | .calling serial _ =>
      if (getTimerIdentifier identifier s.ape).any (fun t => t.serial == serial) then none
      else some { s with ape := delTimerIdentifier identifier s.ape }
  | .tick =>
    match s.phase with
    | .between => some ⟨{ s.ape with ticks := s.ape.ticks + 1 }, .looping⟩
    | _ => none
  | .look =>
    match s.phase, s.ape.timers with
    | .looping, [] => some ⟨s.ape, .between⟩
    | .looping, t :: rest =>
      let t := { t with delta := t.delta - 1 }
      if t.delta ≤ 0 then
        some ⟨{ s.ape with timers := t.called :: rest }, .calling t.serial (t.lastcall false)⟩
      else some ⟨{ s.ape with timers := t :: rest }, .between⟩
    | _, _ => none
  | .returns stored =>
    match s.phase with
    | .calling serial lastcall => do
      let t ← s.ape.timers.find? fun t => t.serial == serial
      some ⟨endRound t (stored.getD lastcall) s.ape, .looping⟩
    | _ => none

/-- Steps one after the other. -/
def run (s : Moment) : List Act → Option Moment
  | [] => some s
  | a :: as => do
    let s' ← s.step a
    s'.run as

end Moment

/-- How often `add_timeout` and `add_periodical` have been called. -/
def added (as : List Act) : Nat :=
  as.countP fun a => match a with
    | .add _ => true
    | _ => false

/-! ## Tags -/

/-- A node by its serial and its identifier. -/
def TicksCallback.tag (t : TicksCallback) : Nat × UInt32 := (t.serial, t.identifier)

/-- The tags on a list. -/
def tags (l : List TicksCallback) : List (Nat × UInt32) := l.map TicksCallback.tag

@[simp] theorem tags_cons (t : TicksCallback) (l : List TicksCallback) :
    tags (t :: l) = (t.serial, t.identifier) :: tags l := rfl

@[simp] theorem tags_bumpHead (l : List TicksCallback) : tags (bumpHead l) = tags l := by
  cases l <;> rfl

/-- A node that is linked in brings its own tag to those of the list. -/
theorem tags_insertTimer (new : TicksCallback) (l : List TicksCallback) :
    (tags (insertTimer new l)).Perm ((new.serial, new.identifier) :: tags l) := by
  have h := (bodies_insertTimer new l).map TicksCallback.tag
  rw [List.map_cons, List.map_map, List.map_map] at h
  exact h

theorem AddRequest.perform_eq (r : AddRequest) (g : ApeTimers) :
    r.perform g = { g with
      timers := insertTimer (newNode r g) g.timers
      ntimers := g.ntimers + 1
      serials := g.serials + 1 } := by
  cases r <;> rfl

/-- A deletion leaves the others as they are. -/
theorem unlinkTimer_sublist (identifier : UInt32) (l : List TicksCallback) :
    (unlinkTimer identifier l).Sublist l := by
  induction l with
  | nil => exact List.Sublist.refl _
  | cons t ts ih =>
    by_cases h : t.identifier = identifier
    · rw [unlinkTimer, if_pos h]
      exact List.sublist_cons_self t ts
    · rw [unlinkTimer_cons_of_ne h]
      exact ih.cons_cons t

/-- The list around the node that a callback is called for. -/
theorem exists_cut {serial : Nat} {l : List TicksCallback} {t : TicksCallback}
    (h : l.find? (fun t => t.serial == serial) = some t) :
    t.serial = serial ∧ ∃ front, l = front ++ t :: nextOf serial l := by
  obtain ⟨ht, front, behind, hl, hfront⟩ := List.find?_eq_some_iff_append.1 h
  have hserial : t.serial = serial := by simpa using ht
  have hnames : t.serial ∉ names front := by
    intro hmem
    obtain ⟨u, hu, hut⟩ := List.mem_map.1 hmem
    have := hfront u hu
    simp [hut, hserial] at this
  refine ⟨hserial, front, ?_⟩
  rw [hl, ← hserial, nextOf_split hnames]

/-- The counter goes back to where it was: arming again gives no number. -/
theorem endRound_ntimers (t : TicksCallback) (lastcall : Bool) (g : ApeTimers) :
    (endRound t lastcall g).ntimers = g.ntimers := by
  cases lastcall with
  | false => exact UInt32.add_sub_cancel g.ntimers 1
  | true => rfl

theorem endRound_serials (t : TicksCallback) (lastcall : Bool) (g : ApeTimers) :
    g.serials ≤ (endRound t lastcall g).serials := by
  cases lastcall with
  | false => exact Nat.le_succ g.serials
  | true => exact le_rfl

/-- The tags behind the end of a round: those behind the node, and its own if it is armed again. -/
theorem tags_endRound (t : TicksCallback) (lastcall : Bool) (g : ApeTimers) :
    (tags (endRound t lastcall g).timers).Perm
      (if lastcall then tags (nextOf t.serial g.timers)
        else (t.serial, t.identifier) :: tags (nextOf t.serial g.timers)) := by
  rw [endRound, tags_bumpHead]
  cases lastcall with
  | false =>
    rw [if_neg Bool.false_ne_true, if_neg Bool.false_ne_true, rearm_timers]
    exact tags_insertTimer _ _
  | true => exact List.Perm.refl _

/-! ## What a step does -/

section Steps

variable {s s' : Moment}

theorem add_step (r : AddRequest) (hphase : s.phase ≠ .looping) :
    s.step (.add r) = some { s with ape := r.perform s.ape } := by
  cases h : s.phase with
  | looping => exact absurd h hphase
  | between => simp [Moment.step, h]
  | calling f b => simp [Moment.step, h]

theorem step_add {r : AddRequest} (h : s.step (.add r) = some s') :
    s' = { s with ape := r.perform s.ape } := by
  cases hphase : s.phase with
  | looping => simp [Moment.step, hphase] at h
  | between => simpa [Moment.step, hphase] using h.symm
  | calling f b => simpa [Moment.step, hphase] using h.symm

/-- The node that is being called is not the one that is deleted. -/
theorem step_delete {identifier : UInt32} (h : s.step (.delete identifier) = some s') :
    s' = { s with ape := delTimerIdentifier identifier s.ape } ∧ s.phase ≠ .looping ∧
      ∀ f b, s.phase = .calling f b →
        ∀ t, getTimerIdentifier identifier s.ape = some t → t.serial ≠ f := by
  cases hphase : s.phase with
  | looping => simp [Moment.step, hphase] at h
  | between =>
    refine ⟨?_, Phase.noConfusion, fun f b hcalling => Phase.noConfusion hcalling⟩
    simpa [Moment.step, hphase] using h.symm
  | calling f b =>
    simp only [Moment.step, hphase] at h
    split at h
    · exact absurd h (Option.some_ne_none s').symm
    · rename_i hother
      refine ⟨by simpa [hphase] using h.symm, Phase.noConfusion, fun f' b' hcalling t ht => ?_⟩
      obtain ⟨rfl, -⟩ := Phase.calling.inj hcalling
      simpa [ht] using hother

theorem step_tick (h : s.step .tick = some s') :
    s' = ⟨{ s.ape with ticks := s.ape.ticks + 1 }, .looping⟩ := by
  cases hphase : s.phase with
  | between => simpa [Moment.step, hphase] using h.symm
  | looping => simp [Moment.step, hphase] at h
  | calling f b => simp [Moment.step, hphase] at h

/-- The test of the loop touches the head only, and a node that is called is the head. -/
theorem step_look (h : s.step .look = some s') :
    (∃ l, s'.ape = { s.ape with timers := l } ∧ tags l = tags s.ape.timers) ∧
      ∀ f b, s'.phase = .calling f b → f ∈ names s'.ape.timers := by
  cases hphase : s.phase with
  | between => simp [Moment.step, hphase] at h
  | calling f b => simp [Moment.step, hphase] at h
  | looping =>
    cases hl : s.ape.timers with
    | nil =>
      simp only [Moment.step, hphase, hl, Option.some.injEq] at h
      subst h
      exact ⟨⟨s.ape.timers, rfl, by rw [hl]⟩, fun f b hcalling => Phase.noConfusion hcalling⟩
    | cons t rest =>
      simp only [Moment.step, hphase, hl] at h
      split at h
      · obtain rfl := Option.some.inj h
        refine ⟨⟨_, rfl, rfl⟩, fun f b hcalling => ?_⟩
        obtain ⟨rfl, -⟩ := Phase.calling.inj hcalling
        exact List.mem_cons_self ..
      · obtain rfl := Option.some.inj h
        exact ⟨⟨_, rfl, rfl⟩, fun f b hcalling => Phase.noConfusion hcalling⟩

section Look

variable {t : TicksCallback} {rest : List TicksCallback} (hphase : s.phase = .looping)
include hphase

theorem look_nil (hlist : s.ape.timers = []) : s.step .look = some ⟨s.ape, .between⟩ := by
  simp only [Moment.step, hphase, hlist]

theorem look_due (hlist : s.ape.timers = t :: rest) (hdue : t.delta - 1 ≤ 0) :
    s.step .look = some ⟨{ s.ape with timers := { t with delta := t.delta - 1 }.called :: rest },
      .calling t.serial (t.lastcall false)⟩ := by
  simp only [Moment.step, hphase, hlist, if_pos hdue]
  rfl

theorem look_early (hlist : s.ape.timers = t :: rest) (hearly : ¬ t.delta - 1 ≤ 0) :
    s.step .look =
      some ⟨{ s.ape with timers := { t with delta := t.delta - 1 } :: rest }, .between⟩ := by
  simp only [Moment.step, hphase, hlist, if_neg hearly]

end Look

theorem step_returns {stored : Option Bool} (h : s.step (.returns stored) = some s') :
    ∃ serial lastcall t, s.phase = .calling serial lastcall ∧
      s.ape.timers.find? (fun t => t.serial == serial) = some t ∧
      s' = ⟨endRound t (stored.getD lastcall) s.ape, .looping⟩ := by
  cases hphase : s.phase with
  | between => simp [Moment.step, hphase] at h
  | looping => simp [Moment.step, hphase] at h
  | calling serial lastcall =>
    cases hfind : s.ape.timers.find? (fun t => t.serial == serial) with
    | none => simp [Moment.step, hphase, hfind] at h
    | some t =>
      refine ⟨serial, lastcall, t, rfl, hfind, ?_⟩
      simpa [Moment.step, hphase, hfind] using h.symm

end Steps

/-- No number is given: the nodes that are left have had theirs before. -/
structure GivesNone (g g' : ApeTimers) : Prop where
  tags : (tags g'.timers).Subperm (tags g.timers)
  ntimers : g'.ntimers = g.ntimers
  serials : g.serials ≤ g'.serials

theorem givesNone_timers {g : ApeTimers} {l : List TicksCallback}
    (h : (tags l).Subperm (tags g.timers)) : GivesNone g { g with timers := l } :=
  ⟨h, rfl, le_rfl⟩

/-- The end of a round puts nothing in the list that has not been there. -/
theorem givesNone_endRound {g : ApeTimers} {serial : Nat} {t : TicksCallback} (lastcall : Bool)
    (h : g.timers.find? (fun t => t.serial == serial) = some t) :
    GivesNone g (endRound t lastcall g) := by
  obtain ⟨rfl, front, hcut⟩ := exists_cut h
  have hbehind : ((t.serial, t.identifier) :: tags (nextOf t.serial g.timers)).Sublist
      (tags g.timers) := by
    have hsuffix : (t :: nextOf t.serial g.timers).Sublist g.timers := by
      conv_rhs => rw [hcut]
      exact List.sublist_append_right front _
    exact hsuffix.map TicksCallback.tag
  refine ⟨(tags_endRound t lastcall g).subperm.trans (List.Sublist.subperm ?_),
    endRound_ntimers t lastcall g, endRound_serials t lastcall g⟩
  split
  · exact (List.sublist_cons_self _ _).trans hbehind
  · exact hbehind

/-- **Every step** is an add or gives no number. -/
theorem step_cases {s s' : Moment} {a : Act} (h : s.step a = some s') :
    (∃ r, a = .add r ∧ s'.ape = r.perform s.ape) ∨
      (∀ as, added (a :: as) = added as) ∧ GivesNone s.ape s'.ape := by
  cases a with
  | add r => exact Or.inl ⟨r, rfl, by rw [step_add h]⟩
  | delete identifier =>
    obtain ⟨rfl, -⟩ := step_delete h
    refine Or.inr ⟨fun as => rfl, givesNone_timers (List.Sublist.subperm ?_)⟩
    exact (unlinkTimer_sublist identifier s.ape.timers).map TicksCallback.tag
  | tick =>
    rw [step_tick h]
    exact Or.inr ⟨fun as => rfl, List.Subperm.refl _, rfl, le_rfl⟩
  | look =>
    obtain ⟨⟨l, hape, htags⟩, -⟩ := step_look h
    rw [hape]
    exact Or.inr ⟨fun as => rfl, givesNone_timers (htags ▸ List.Subperm.refl _)⟩
  | returns stored =>
    obtain ⟨serial, lastcall, t, -, hfind, rfl⟩ := step_returns h
    exact Or.inr ⟨fun as => rfl, givesNone_endRound _ hfind⟩

/-! ## The invariant -/

/-- `n` numbers have been given: the counter says so, the timers have different ones, and none has
one that is still to come. -/
structure Numbered (n : Nat) (g : ApeTimers) : Prop where
  count : g.ntimers = UInt32.ofNat n
  serials : ((tags g.timers).map Prod.fst).Nodup
  identifiers : ((tags g.timers).map Prod.snd).Nodup
  given : ∀ p ∈ tags g.timers, p.1 < g.serials ∧ p.2.toNat < n

theorem numbered_init : Numbered 0 .init :=
  ⟨rfl, List.nodup_nil, List.nodup_nil, fun _ hp => absurd hp List.not_mem_nil⟩

/-- A number that has not been given before. -/
theorem Numbered.perform {n : Nat} {g : ApeTimers} (h : Numbered n g) (hn : n < 2 ^ 32)
    (r : AddRequest) : Numbered (n + 1) (r.perform g) := by
  have hcount : g.ntimers.toNat = n := by
    rw [h.count]
    exact UInt32.toNat_ofNat_of_lt' hn
  have htags := tags_insertTimer (newNode r g) g.timers
  rw [AddRequest.perform_eq]
  refine ⟨?_, ?_, ?_, fun p hp => ?_⟩
  · change g.ntimers + 1 = _
    rw [h.count, UInt32.ofNat_add]
    rfl
  · rw [(htags.map Prod.fst).nodup_iff]
    refine List.nodup_cons.2 ⟨fun hmem => ?_, h.serials⟩
    obtain ⟨p, hp, hold⟩ := List.mem_map.1 hmem
    exact absurd hold (h.given p hp).1.ne
  · rw [(htags.map Prod.snd).nodup_iff]
    refine List.nodup_cons.2 ⟨fun hmem => ?_, h.identifiers⟩
    obtain ⟨p, hp, hold⟩ := List.mem_map.1 hmem
    have hless := (h.given p hp).2
    rw [hold] at hless
    exact absurd hcount hless.ne
  · rcases List.mem_cons.1 (htags.subset hp) with rfl | hp
    · exact ⟨Nat.lt_succ_self _, hcount.trans_lt (Nat.lt_succ_self n)⟩
    · exact ⟨Nat.lt_succ_of_lt (h.given p hp).1, Nat.lt_succ_of_lt (h.given p hp).2⟩

theorem Numbered.givesNone {n : Nat} {g g' : ApeTimers} (h : Numbered n g)
    (hnone : GivesNone g g') : Numbered n g' := by
  obtain ⟨l, hperm, hsub⟩ := hnone.tags
  refine ⟨hnone.ntimers.trans h.count, ?_, ?_, fun p hp => ?_⟩
  · exact (hperm.map Prod.fst).nodup_iff.1 (h.serials.sublist (hsub.map Prod.fst))
  · exact (hperm.map Prod.snd).nodup_iff.1 (h.identifiers.sublist (hsub.map Prod.snd))
  · have hold := h.given p (hnone.tags.subset hp)
    exact ⟨hold.1.trans_le hnone.serials, hold.2⟩

/-- **A run** keeps the timers numbered, as long as its adds fit into the numbers. -/
theorem run_numbered {n : Nat} {s s' : Moment} {as : List Act} (h : Numbered n s.ape)
    (hrun : s.run as = some s') (hfew : n + added as ≤ 2 ^ 32) :
    Numbered (n + added as) s'.ape := by
  induction as generalizing n s with
  | nil =>
    obtain rfl := Option.some.inj hrun
    exact h
  | cons a as ih =>
    obtain ⟨s₁, hstep, hrest⟩ := Option.bind_eq_some_iff.1 hrun
    rcases step_cases hstep with ⟨r, rfl, hape⟩ | ⟨hadded, hnone⟩
    · have hcons : n + added (.add r :: as) = n + 1 + added as := by
        rw [added, List.countP_cons_of_pos rfl, ← added]
        omega
      rw [hcons] at hfew ⊢
      refine ih ?_ hrest hfew
      rw [hape]
      exact h.perform (by omega) r
    · rw [hadded] at hfew ⊢
      exact ih (h.givesNone hnone) hrest hfew

/-! ## Timers keep their identifiers -/

/-- What is in the list later has been there, with its identifier, or is new. -/
structure Later (g g' : ApeTimers) : Prop where
  origin : ∀ p ∈ tags g'.timers, p ∈ tags g.timers ∨ g.serials ≤ p.1
  serials : g.serials ≤ g'.serials

theorem Later.trans {g g' g'' : ApeTimers} (h : Later g g') (h' : Later g' g'') : Later g g'' := by
  refine ⟨fun p hp => ?_, h.serials.trans h'.serials⟩
  rcases h'.origin p hp with hold | hnew
  · exact h.origin p hold
  · exact Or.inr (h.serials.trans hnew)

theorem step_later {s s' : Moment} {a : Act} (h : s.step a = some s') : Later s.ape s'.ape := by
  rcases step_cases h with ⟨r, -, hape⟩ | ⟨-, hnone⟩
  · rw [hape, AddRequest.perform_eq]
    refine ⟨fun p hp => ?_, Nat.le_succ _⟩
    rcases List.mem_cons.1 ((tags_insertTimer (newNode r s.ape) s.ape.timers).subset hp) with
      rfl | hp
    · exact Or.inr le_rfl
    · exact Or.inl hp
  · exact ⟨fun p hp => Or.inl (hnone.tags.subset hp), hnone.serials⟩

theorem run_later {s s' : Moment} {as : List Act} (hrun : s.run as = some s') :
    Later s.ape s'.ape := by
  induction as generalizing s with
  | nil =>
    obtain rfl := Option.some.inj hrun
    exact ⟨fun p hp => Or.inl hp, le_rfl⟩
  | cons a as ih =>
    obtain ⟨s₁, hstep, hrest⟩ := Option.bind_eq_some_iff.1 hrun
    exact (step_later hstep).trans (ih hrest)

/-! ## The node that is being called -/

/-- A deletion leaves every node that it does not find. -/
theorem mem_names_unlinkTimer {identifier : UInt32} {f : Nat} {l : List TicksCallback}
    (hf : f ∈ names l)
    (hother : ∀ t, l.find? (fun t => t.identifier == identifier) = some t → t.serial ≠ f) :
    f ∈ names (unlinkTimer identifier l) := by
  induction l with
  | nil => exact hf
  | cons u us ih =>
    by_cases hu : u.identifier = identifier
    · have hne := hother u (List.find?_cons_of_pos (by simpa using hu))
      rw [unlinkTimer, if_pos hu]
      exact (List.mem_cons.1 hf).resolve_left fun heq => hne heq.symm
    · rw [List.find?_cons_of_neg (by simpa using hu)] at hother
      rw [unlinkTimer_cons_of_ne hu, names_cons]
      rcases List.mem_cons.1 hf with rfl | hf
      · exact List.mem_cons_self ..
      · exact List.mem_cons_of_mem _ (ih hf hother)

/-- The node whose callback runs is in the list. -/
def Standing (s : Moment) : Prop :=
  ∀ f b, s.phase = .calling f b → f ∈ names s.ape.timers

theorem step_standing {s s' : Moment} {a : Act} (hs : Standing s) (h : s.step a = some s') :
    Standing s' := by
  cases a with
  | add r =>
    rw [step_add h]
    intro f b hcalling
    have hperm := names_insertTimer (newNode r s.ape) s.ape.timers
    simp only [AddRequest.perform_eq]
    exact hperm.symm.subset (List.mem_cons_of_mem _ (hs f b hcalling))
  | delete identifier =>
    obtain ⟨rfl, -, hother⟩ := step_delete h
    exact fun f b hcalling => mem_names_unlinkTimer (hs f b hcalling) (hother f b hcalling)
  | tick =>
    rw [step_tick h]
    exact fun f b hcalling => Phase.noConfusion hcalling
  | look => exact (step_look h).2
  | returns stored =>
    obtain ⟨serial, lastcall, t, -, -, rfl⟩ := step_returns h
    exact fun f b hcalling => Phase.noConfusion hcalling

theorem run_standing {s s' : Moment} {as : List Act} (hs : Standing s)
    (hrun : s.run as = some s') : Standing s' := by
  induction as generalizing s with
  | nil =>
    obtain rfl := Option.some.inj hrun
    exact hs
  | cons a as ih =>
    obtain ⟨s₁, hstep, hrest⟩ := Option.bind_eq_some_iff.1 hrun
    exact ih (step_standing hs hstep) hrest

theorem standing_start : Standing .start := fun _ _ hcalling => Phase.noConfusion hcalling

/-- **A callback can always return**: its node is still there. -/
theorem callback_returns {s : Moment} (hs : Standing s) {serial : Nat} {lastcall : Bool}
    (hphase : s.phase = .calling serial lastcall) (stored : Option Bool) :
    ∃ t ∈ s.ape.timers, t.serial = serial ∧
      s.step (.returns stored) = some ⟨endRound t (stored.getD lastcall) s.ape, .looping⟩ := by
  obtain ⟨u, hu, hserial⟩ := List.mem_map.1 (hs serial lastcall hphase)
  cases hfind : s.ape.timers.find? (fun t => t.serial == serial) with
  | none => exact absurd hserial (by simpa using List.find?_eq_none.1 hfind u hu)
  | some t =>
    refine ⟨t, List.mem_of_find?_eq_some hfind, by simpa using List.find?_some hfind, ?_⟩
    simp [Moment.step, hphase, hfind]

/-! ## Identifiers are unique -/

/-- **Identifiers are unique.**  After fewer than 2^32 calls of `add_timeout` and `add_periodical`,
from wherever they came, the timers in the list have different identifiers, all smaller than the
counter.  A timer that is armed again keeps its identifier, and so does every timer for as long as
it is in the list. -/
theorem identifiers_unique (as : List Act) (s : Moment) (hrun : Moment.start.run as = some s)
    (hfew : added as < 2 ^ 32) :
    (s.ape.timers.map TicksCallback.identifier).Nodup ∧
      (∀ t ∈ s.ape.timers, t.identifier < s.ape.ntimers) ∧
      (∀ serial lastcall stored, s.phase = .calling serial lastcall →
        stored.getD lastcall = false → ∃ s', s.step (.returns stored) = some s' ∧
          ∃ t ∈ s.ape.timers, ∃ t' ∈ s'.ape.timers, t.serial = serial ∧ t'.serial = serial ∧
            t'.identifier = t.identifier) ∧
      ∀ more s', s.run more = some s' → ∀ t ∈ s.ape.timers, ∀ t' ∈ s'.ape.timers,
        t'.serial = t.serial → t'.identifier = t.identifier := by
  have hnumbered := run_numbered numbered_init hrun (by omega)
  rw [Nat.zero_add] at hnumbered
  refine ⟨?_, fun t ht => ?_, fun serial lastcall stored hphase hagain => ?_,
    fun more s' hmore t ht t' ht' hsame => ?_⟩
  · have hidentifiers := hnumbered.identifiers
    rwa [tags, List.map_map] at hidentifiers
  · rw [UInt32.lt_iff_toNat_lt, hnumbered.count, UInt32.toNat_ofNat_of_lt' hfew]
    exact (hnumbered.given _ (List.mem_map_of_mem ht)).2
  · obtain ⟨t, ht, hserial, hstep⟩ :=
      callback_returns (run_standing standing_start hrun) hphase stored
    rw [hagain] at hstep
    have htag : (t.serial, t.identifier) ∈ tags (endRound t false s.ape).timers :=
      (tags_endRound t false s.ape).symm.subset (List.mem_cons_self ..)
    obtain ⟨t', ht', heq⟩ := List.mem_map.1 htag
    obtain ⟨hserial', hidentifier⟩ := Prod.mk.inj heq
    exact ⟨_, hstep, t, ht, t', ht', hserial, hserial'.trans hserial, hidentifier⟩
  · have hold := List.mem_map_of_mem (f := TicksCallback.tag) ht
    have hlater := run_later hmore
    rcases hlater.origin _ (List.mem_map_of_mem ht') with hmem | hnew
    · have hinj := List.inj_on_of_nodup_map hnumbered.serials hmem hold hsame
      exact congrArg Prod.snd hinj
    · exact absurd (le_of_le_of_eq hnew hsame) (Nat.not_le.2 (hnumbered.given _ hold).1)

/-- A periodic timer whose callback adds a timer and deletes another one. -/
def busy : List Act :=
  [.add (.periodical 1 0 7 8), .add (.timeout 5 1 2), .tick, .look, .add (.timeout 3 4 5),
    .delete 1]

/-- Its identifier is 0; the others have got 1 and 2, and 1 is gone. -/
theorem identifiers_unique_busy : ∃ s, Moment.start.run busy = some s ∧
    s.ape.timers.map TicksCallback.identifier = [0, 2] ∧
    (s.ape.timers.map TicksCallback.identifier).Nodup ∧
    (∀ t ∈ s.ape.timers, t.identifier < s.ape.ntimers) ∧
    ∃ s', s.step (.returns none) = some s' ∧ ∃ t ∈ s.ape.timers, ∃ t' ∈ s'.ape.timers,
      t.serial = 0 ∧ t'.serial = 0 ∧ t'.identifier = t.identifier := by
  have hrun : ∃ s, Moment.start.run busy = some s ∧ s.phase = .calling 0 false ∧
      s.ape.timers.map TicksCallback.identifier = [0, 2] := ⟨_, rfl, rfl, by decide⟩
  obtain ⟨s, hrun, hphase, hlist⟩ := hrun
  obtain ⟨hapart, hless, hagain, -⟩ := identifiers_unique busy s hrun (by decide)
  exact ⟨s, hrun, hlist, hapart, hless, hagain 0 false none hphase rfl⟩

/-! ## Whole ticks -/

/-- Two states with the same timers and counters, whose records may differ. -/
structure Alike (g g' : ApeTimers) : Prop where
  timers : g.timers = g'.timers
  ntimers : g.ntimers = g'.ntimers
  serials : g.serials = g'.serials

/-- How many adds a log records. -/
def addedIn (log : List TimerEvent) : Nat :=
  log.countP fun e => match e with
    | .added .. => true
    | .fired .. => false

theorem Alike.serve {g g' : ApeTimers} (h : Alike g g') (inside : Option Int32) (r : AddRequest) :
    Alike (serve inside r g) (r.perform g') := by
  have hnode : newNode r g = newNode r g' := by rw [newNode, newNode, h.ntimers, h.serials]
  rw [serve_eq, AddRequest.perform_eq, hnode, h.timers, h.ntimers, h.serials]
  exact ⟨rfl, rfl, rfl⟩

theorem addedIn_serve (inside : Option Int32) (r : AddRequest) (g : ApeTimers) :
    addedIn (serve inside r g).log = addedIn g.log + 1 := by
  rw [serve_eq, addedIn, List.countP_append]
  rfl

/-- Steps lead from `s` into the phase `p` and to the timers `g'`, with as many adds as the record
has got since `g`. -/
def Leads (s : Moment) (p : Phase) (g g' : ApeTimers) : Prop :=
  ∃ as s', s.run as = some s' ∧ s'.phase = p ∧ Alike g' s'.ape ∧
    addedIn g'.log = addedIn g.log + added as

section Leads

variable {s s₁ : Moment} {p q : Phase} {g g₁ g' : ApeTimers}

theorem Leads.refl (hlike : Alike g s.ape) (hphase : s.phase = p) : Leads s p g g :=
  ⟨[], s, rfl, hphase, hlike, rfl⟩

theorem Leads.step {a : Act} (hstep : s.step a = some s₁) (hphase : s₁.phase = p)
    (hlike : Alike g' s₁.ape) (hadded : addedIn g'.log = addedIn g.log + added [a]) :
    Leads s p g g' := by
  refine ⟨[a], s₁, ?_, hphase, hlike, hadded⟩
  rw [Moment.run, hstep]
  rfl

theorem run_append {as : List Act} (h : s.run as = some s₁) (bs : List Act) :
    s.run (as ++ bs) = s₁.run bs := by
  induction as generalizing s with
  | nil =>
    obtain rfl := Option.some.inj h
    rfl
  | cons a as ih =>
    obtain ⟨s₂, hstep, hrest⟩ := Option.bind_eq_some_iff.1 h
    rw [List.cons_append, Moment.run, hstep, Option.bind_eq_bind, Option.bind_some, ih hrest]

theorem Leads.trans (h : Leads s p g g₁)
    (hnext : ∀ s₁ : Moment, s₁.phase = p → Alike g₁ s₁.ape → Leads s₁ q g₁ g') :
    Leads s q g g' := by
  obtain ⟨as, s₁, hrun, hphase, hlike, hadded⟩ := h
  obtain ⟨bs, s₂, hrun₂, hphase₂, hlike₂, hadded₂⟩ := hnext s₁ hphase hlike
  refine ⟨as ++ bs, s₂, (run_append hrun bs).trans hrun₂, hphase₂, hlike₂, ?_⟩
  have hcount : added (as ++ bs) = added as + added bs := List.countP_append
  rw [hadded₂, hadded, hcount, Nat.add_assoc]

end Leads

/-- The adds of a callback, one by one. -/
theorem callback_leads {f : Nat} {b : Bool} (adds : List AddRequest) {g : ApeTimers} {s : Moment}
    (hlike : Alike g s.ape) (hphase : s.phase = .calling f b) :
    Leads s (.calling f b) g (adds.foldl (serveInside f) g) := by
  induction adds generalizing g s with
  | nil => exact Leads.refl hlike hphase
  | cons r adds ih =>
    have hstep := add_step r (show s.phase ≠ .looping by rw [hphase]; exact Phase.noConfusion)
    have hserve : Leads s (.calling f b) g (serveInside f g r) :=
      Leads.step hstep hphase (hlike.serve _ r) (addedIn_serve _ r g)
    exact hserve.trans fun s₁ hphase₁ hlike₁ => ih hlike₁ hphase₁

/-- A callback that only adds leaves every node as it is, up to its delta. -/
theorem body_mem_callback {f : Nat} (adds : List AddRequest) {g : ApeTimers} {t : TicksCallback}
    (ht : ∃ u ∈ g.timers, u.body = t.body) :
    ∃ u ∈ (adds.foldl (serveInside f) g).timers, u.body = t.body := by
  induction adds generalizing g with
  | nil => exact ht
  | cons r adds ih =>
    refine ih ?_
    obtain ⟨u, hu, hbody⟩ := ht
    have hmem : t.body ∈ (insertTimer (newNode r g) g.timers).map TicksCallback.body := by
      refine (bodies_insertTimer _ _).symm.subset (List.mem_cons_of_mem _ ?_)
      exact List.mem_map.2 ⟨u, hu, hbody⟩
    rw [serveInside, serve_eq]
    exact List.mem_map.1 hmem

/-- Nodes that differ in their deltas are armed again alike. -/
theorem Alike.rearm {g g' : ApeTimers} (h : Alike g g') {t u : TicksCallback}
    (hbody : t.body = u.body) : Alike (rearm t g) (rearm u g') := by
  have hnode : ({ t with delta := t.ticksNeed } : TicksCallback) =
      { u with delta := u.ticksNeed } := by
    have hpatched := congrArg (fun n : TicksCallback => { n with delta := n.ticksNeed }) hbody
    exact hpatched
  refine ⟨?_, ?_, congrArg Nat.succ h.serials⟩
  · rw [rearm_timers, rearm_timers, hnode, h.timers]
  · change g.ntimers + 1 - 1 = g'.ntimers + 1 - 1
    rw [h.ntimers]

/-- What a callback stores to say that the flag is set, or not. -/
def CallbackRun.stored (run : CallbackRun) : Option Bool := if run.setsLast then some true else none

theorem lastcall_stored (t : TicksCallback) (run : CallbackRun) :
    run.stored.getD (t.lastcall false) = t.lastcall run.setsLast := by
  cases h : run.setsLast <;> simp [CallbackRun.stored, TicksCallback.lastcall, h]

/-- **The rest of a round**: the adds of the callback, and its return. -/
theorem fireHead_leads (env : Nat → CallbackRun) {g : ApeTimers} {t : TicksCallback}
    {rest : List TicksCallback} {s : Moment} (hnamed : Named { g with timers := t :: rest })
    (hlike : Alike (begun env t rest g) s.ape)
    (hphase : s.phase = .calling t.serial (t.lastcall false)) :
    Leads s .looping (begun env t rest g)
      { fireHead env t rest g with timers := bumpHead (fireHead env t rest g).timers } := by
  refine (callback_leads (env g.calls).adds hlike hphase).trans fun s₁ hphase₁ hlike₁ => ?_
  rw [← returned] at hlike₁ ⊢
  have hinside : Inside t.serial rest (begun env t rest g) (begun env t rest g) [] rest [] :=
    begun_inside (g := { g with timers := t :: rest }) env hnamed rfl
  obtain ⟨P, Q, ev, hin⟩ := callback_inside (env g.calls).adds hinside
  rw [← returned] at hin
  have hstanding : Standing s₁ := by
    intro f b hcalling
    obtain ⟨rfl, -⟩ := Phase.calling.inj (hphase₁.symm.trans hcalling)
    obtain ⟨f', hlist, hserial⟩ := hin.list
    rw [← hlike₁.timers, hlist, names_append, names_cons, hserial]
    exact List.mem_append_right _ (List.mem_cons_self ..)
  obtain ⟨u, hu, hserial, hstep⟩ := callback_returns hstanding hphase₁ (env g.calls).stored
  rw [lastcall_stored] at hstep
  -- the node that is found is the one that was called
  have hbody : t.called.body = u.body := by
    have hnodup : (names (returned env t rest g).timers).Nodup := hin.named.nodup
    have hmem : t.called ∈ (begun env t rest g).timers := List.mem_cons_self ..
    obtain ⟨v, hv, hvbody⟩ :=
      body_mem_callback (f := t.serial) (env g.calls).adds ⟨t.called, hmem, rfl⟩
    have hsame : v.serial = u.serial := by
      have hvserial : v.body.serial = t.called.body.serial := congrArg _ hvbody
      exact hvserial.trans hserial.symm
    rw [← hlike₁.timers] at hu
    rw [← hvbody, List.inj_on_of_nodup_map hnodup hv hu hsame]
  have hnext : Alike
      { returned env t rest g with timers := nextOf t.serial (returned env t rest g).timers }
      { s₁.ape with timers := nextOf u.serial s₁.ape.timers } := by
    rw [hserial, hlike₁.timers]
    exact ⟨rfl, hlike₁.ntimers, hlike₁.serials⟩
  have hfinish : Alike (fireHead env t rest g)
      (if t.lastcall (env g.calls).setsLast then
        { s₁.ape with timers := nextOf u.serial s₁.ape.timers }
      else rearm u { s₁.ape with timers := nextOf u.serial s₁.ape.timers }) := by
    rw [fireHead_eq, finish]
    split
    · exact hnext
    · exact hnext.rearm hbody
  refine Leads.step hstep rfl
    ⟨congrArg bumpHead hfinish.timers, hfinish.ntimers, hfinish.serials⟩ ?_
  rw [fireHead_eq, finish_log]
  rfl

/-- The names stay apart when the head is given its tick back. -/
theorem Named.bumpHead {g : ApeTimers} (h : Named g) :
    Named { g with timers := bumpHead g.timers } := by
  have hnames : names (Timers.bumpHead g.timers) = names g.timers := by
    cases g.timers <;> rfl
  exact ⟨hnames ▸ h.nodup, fun f hf => h.fresh f (hnames ▸ hf), h.known, h.past⟩

/-- The loop of a tick is a run of single acts, round by round. -/
theorem tickLoop_leads (env : Nat → CallbackRun) {fuel : Nat} {g g' : ApeTimers} {s : Moment}
    (hnamed : Named g) (hlike : Alike g s.ape) (hphase : s.phase = .looping)
    (hloop : tickLoop env fuel g = some g') : Leads s .between g g' := by
  induction fuel generalizing g s with
  | zero => exact absurd hloop (Option.some_ne_none g').symm
  | succ fuel ih =>
    cases hlist : g.timers with
    | nil =>
      simp only [tickLoop, hlist, Option.some.injEq] at hloop
      subst hloop
      exact Leads.step (look_nil hphase (hlike.timers.symm.trans hlist)) rfl hlike rfl
    | cons t rest =>
      set t' : TicksCallback := { t with delta := t.delta - 1 } with ht'
      have hlook := hlike.timers.symm.trans hlist
      simp only [tickLoop, hlist, ← ht'] at hloop
      by_cases hdue : t'.delta ≤ 0
      · rw [if_pos hdue] at hloop
        have hnamed' : Named { g with timers := t' :: rest } := by
          obtain ⟨hnodup, hfresh, hknown, hpast⟩ := hnamed
          rw [hlist] at hnodup hfresh
          exact ⟨hnodup, hfresh, hknown, hpast⟩
        have hbegun : Leads s (.calling t'.serial (t'.lastcall false)) g (begun env t' rest g) := by
          refine Leads.step (look_due hphase hlook hdue) rfl
            ⟨rfl, hlike.ntimers, hlike.serials⟩ ?_
          exact List.countP_append
        have hnamed₁ : Named (fireHead env t' rest g) := by
          obtain ⟨P, Q, ev, b, hround⟩ := fireHead_round env hnamed' rfl
          exact hround.named
        refine hbegun.trans fun s₁ hphase₁ hlike₁ => ?_
        refine (fireHead_leads env hnamed' hlike₁ hphase₁).trans fun s₂ hphase₂ hlike₂ => ?_
        exact ih hnamed₁.bumpHead hlike₂ hphase₂ hloop
      · rw [if_neg hdue, Option.some.injEq] at hloop
        subst hloop
        exact Leads.step (look_early hphase hlook hdue) rfl
          ⟨rfl, hlike.ntimers, hlike.serials⟩ rfl

/-- **A run of whole ticks is a run of steps**, with as many adds. -/
theorem runOps_leads (env : Nat → CallbackRun) {fuel : Nat} {ops : List TimerOp}
    {g g' : ApeTimers} {s : Moment} (hnamed : Named g) (hlike : Alike g s.ape)
    (hphase : s.phase = .between) (hrun : runOps env fuel ops g = some g') :
    Leads s .between g g' := by
  induction ops generalizing g s with
  | nil =>
    obtain rfl := Option.some.inj hrun
    exact Leads.refl hlike hphase
  | cons op ops ih =>
    obtain ⟨g₁, hexec, hrest⟩ := Option.bind_eq_some_iff.1 hrun
    have hone : runOps env fuel [op] g = some g₁ :=
      Option.bind_eq_some_iff.2 ⟨g₁, hexec, rfl⟩
    have hnamed₁ := runOps_named env hnamed hone
    have hop : Leads s .between g g₁ := by
      cases op with
      | add r =>
        obtain rfl := Option.some.inj hexec
        have hnot : s.phase ≠ .looping := by rw [hphase]; exact Phase.noConfusion
        exact Leads.step (add_step r hnot) hphase (hlike.serve none r) (addedIn_serve none r g)
      | tick =>
        have hstep : s.step .tick = some ⟨{ s.ape with ticks := s.ape.ticks + 1 }, .looping⟩ := by
          simp only [Moment.step, hphase]
        have hbegun : Leads s .looping g { g with ticks := g.ticks + 1 } :=
          Leads.step hstep rfl ⟨hlike.timers, hlike.ntimers, hlike.serials⟩ rfl
        have hnamed' : Named { g with ticks := g.ticks + 1 } :=
          ⟨hnamed.nodup, hnamed.fresh, hnamed.known,
            fun e he => (hnamed.past e he).trans (Nat.le_succ _)⟩
        exact hbegun.trans fun s₁ hphase₁ hlike₁ => tickLoop_leads env hnamed' hlike₁ hphase₁ hexec
    exact hop.trans fun s₁ hphase₁ hlike₁ => ih hnamed₁ hlike₁ hphase₁ hrest

/-- **Identifiers over whole ticks**: the numbers in use are different and have been given. -/
theorem runOps_numbered (env : Nat → CallbackRun) {fuel : Nat} {ops : List TimerOp} {g : ApeTimers}
    (hrun : runOps env fuel ops .init = some g) (hfew : addedIn g.log ≤ 2 ^ 32) :
    Numbered (addedIn g.log) g := by
  obtain ⟨as, s, hmoments, -, hlike, hadded⟩ :=
    runOps_leads env (s := .start) named_init ⟨rfl, rfl, rfl⟩ rfl hrun
  have hcount : addedIn g.log = 0 + added as := hadded
  rw [hcount] at hfew ⊢
  obtain ⟨hcounter, hserials, hidentifiers, hgiven⟩ := run_numbered numbered_init hmoments hfew
  rw [← hlike.timers] at hserials hidentifiers hgiven
  rw [← hlike.serials] at hgiven
  exact ⟨hlike.ntimers.trans hcounter, hserials, hidentifiers, hgiven⟩

end Ape.Timers

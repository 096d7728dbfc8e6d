import ApeServer.Socket.Roster

/-!
# The shape of the job list

The active slots should stand at the head of the list, in the order of their requests, with `current`
on the last of them or right behind.  A job that is finished while `current` is idle is taken behind
that idle slot, and the next request lands there.

* `ShapedBy`, `Shape` — the shape;
* `ShapedBy.take`, `ShapedBy.finish` — a request keeps it, and so does the end of a round that finds
  `current` active;
* `Broken`, `Broken.doRounds` — the end of any other round breaks it, and no round mends it;
* `shape_iff` — **the list keeps its shape along a run exactly when no job is finished while
  `current` is idle**.
-/

namespace Ape.Socket

open Runs (EachStep Always always_iff_prefix always_iff_eachStep)

/-! ## What is promised -/

/-- The numbers of the requests a slot serves. -/
def Entry.numbers (e : Entry) : List Nat := e.requests.map Prod.fst

/-- The slots `busy` are active and stand at the head, in the order of their requests; behind them
stand the slots `idle`; and `current` is the last active slot or the first idle one. -/
structure ShapedBy (busy idle : List Entry) (jobs : PoolList Entry) : Prop where
  nodes : jobs.nodes = busy ++ idle
  active : ∀ e ∈ busy, e.slot.active = true ∧ e.requests ≠ []
  inactive : ∀ e ∈ idle, e.slot.active = false
  order : (busy.flatMap Entry.numbers).Pairwise (· < ·)
  current : jobs.before ++ [jobs.current] = busy ∨ jobs.before = busy

/-- The list has its shape. -/
def Shape (jobs : PoolList Entry) : Prop := ∃ busy idle, ShapedBy busy idle jobs

/-- No round finishes a job while `current` is idle. -/
def FinishActive : List Round → PoolList Entry → Prop
  | [], _ => True
  | w :: rounds, jobs =>
    jobs.head.slot.active = true → (w.work jobs.head.slot).1 = true →
      jobs.current.slot.active = true ∧
        FinishActive rounds (finishEntry (w.store jobs))

/-- The operation finishes no job while `current` is idle. -/
def RosterOp.FinishesActive (r : Roster) : RosterOp → Prop
  | .doJobs rounds => FinishActive rounds r.jobs
  | _ => True

/-! ## The shape -/

section Shape

variable {jobs : PoolList Entry} {busy idle : List Entry}

/-- `current` stands on the last busy slot, if it is active, or else on the first idle one. -/
theorem ShapedBy.at_current (h : ShapedBy busy idle jobs) :
    (jobs.current.slot.active = true ∧ jobs.before ++ [jobs.current] = busy ∧ jobs.after = idle) ∨
      (jobs.current.slot.active = false ∧ jobs.before = busy ∧
        jobs.current :: jobs.after = idle) := by
  have hnodes := h.nodes
  rcases h.current with hlast | hbehind
  · left
    refine ⟨(h.active _ ?_).1, hlast, ?_⟩
    · rw [← hlast]
      exact List.mem_append_right _ (List.mem_singleton_self _)
    · rw [← hlast, PoolList.nodes, List.append_assoc] at hnodes
      exact (List.cons.inj (List.append_cancel_left hnodes)).2
  · right
    rw [← hbehind, PoolList.nodes] at hnodes
    have hidle := List.append_cancel_left hnodes
    refine ⟨h.inactive _ ?_, hbehind, hidle⟩
    rw [← hidle]
    exact List.mem_cons_self ..

theorem shapedBy_init : ShapedBy [] [.fresh, .fresh] Roster.init.jobs :=
  ⟨rfl, by simp, by simp [Entry.fresh, JobSlot.fresh], by simp, Or.inr rfl⟩

/-- With the head idle no slot is active. -/
theorem Shape.head (h : Shape jobs) (hhead : jobs.head.slot.active = false) :
    ∀ e ∈ jobs.nodes, e.slot.active = false := by
  obtain ⟨busy, idle, h⟩ := h
  obtain ⟨rest, hnodes, -⟩ := jobs.nodes_eq_head_cons
  have hnil : busy = [] := by
    cases busy with
    | nil => rfl
    | cons e busy =>
      have heq := hnodes.symm.trans h.nodes
      have hactive := (h.active e (List.mem_cons_self ..)).1
      rw [← (List.cons.inj heq).1, hhead] at hactive
      exact Bool.noConfusion hactive
  rw [h.nodes, hnil]
  exact h.inactive

/-! ## Requests -/

/-- Where a request finds its slot: behind the active ones, or on the last of them. -/
theorem ShapedBy.seek (h : ShapedBy busy idle jobs) (type : JobType) :
    ∃ bs e after, seekEntry type jobs = ⟨bs, e, after⟩ ∧ (∀ x ∈ after, x.slot.active = false) ∧
      ((e.slot.active = true ∧ busy = bs ++ [e]) ∨ (e.slot.active = false ∧ busy = bs)) := by
  unfold seekEntry
  rcases h.at_current with ⟨hactive, hbusy, hidle⟩ | ⟨hinactive, hbusy, hidle⟩
  · by_cases hsame : type = .writev ∧ jobs.current.slot.writev = true
    · rw [if_pos (Or.inl hsame)]
      exact ⟨jobs.before, jobs.current, jobs.after, rfl, hidle ▸ h.inactive,
        Or.inl ⟨hactive, hbusy.symm⟩⟩
    · rw [if_neg (by simp [hsame, hactive])]
      obtain ⟨before, current, after⟩ := jobs
      cases after with
      | nil =>
        refine ⟨before ++ [current], .fresh, [.fresh], rfl, by simp [Entry.fresh, JobSlot.fresh], ?_⟩
        exact Or.inr ⟨rfl, hbusy.symm⟩
      | cons a as =>
        obtain ⟨ha, has⟩ := List.forall_mem_cons.1 (hidle ▸ h.inactive)
        exact ⟨before ++ [current], a, as, rfl, has, Or.inr ⟨ha, hbusy.symm⟩⟩
  · rw [if_pos (Or.inr hinactive)]
    refine ⟨jobs.before, jobs.current, jobs.after, rfl, fun x hx => ?_, Or.inr ⟨hinactive, hbusy.symm⟩⟩
    apply h.inactive
    rw [← hidle]
    exact List.mem_cons_of_mem _ hx

/-- **A request** puts its number behind all others. -/
theorem ShapedBy.take (h : ShapedBy busy idle jobs) (type : JobType) {n : Nat}
    (hn : ∀ m ∈ busy.flatMap Entry.numbers, m < n) (f : JobPtr → JobPtr) :
    ∃ busy' idle', busy'.flatMap Entry.numbers = busy.flatMap Entry.numbers ++ [n] ∧
      ShapedBy busy' idle' (((seekEntry type jobs).modifyCurrent (Entry.take type n)).modifyCurrent
        fun e => { e with slot := { e.slot with ptr := f e.slot.ptr } }) := by
  obtain ⟨bs, e, after, hseek, hafter, hslot⟩ := h.seek type
  set e' : Entry := { e.take type n with
    slot := { (e.take type n).slot with ptr := f (e.take type n).slot.ptr } } with he'
  have hactive : e'.slot.active = true := by
    cases type <;> rfl
  have hserves : e'.requests ≠ [] := by simp [he', Entry.take]
  have hbefore : ∀ x ∈ bs, x.slot.active = true ∧ x.requests ≠ [] := by
    intro x hx
    apply h.active
    rcases hslot with ⟨-, rfl⟩ | ⟨-, rfl⟩
    · exact List.mem_append_left _ hx
    · exact hx
  have hnumbers : (bs ++ [e']).flatMap Entry.numbers = busy.flatMap Entry.numbers ++ [n] := by
    rcases hslot with ⟨hwas, rfl⟩ | ⟨hwas, rfl⟩
    · simp [he', Entry.take, Entry.numbers, hwas]
    · simp [he', Entry.take, Entry.numbers, hwas]
  refine ⟨bs ++ [e'], after, hnumbers, ?_⟩
  rw [hseek]
  refine ⟨by simp [PoolList.nodes, PoolList.modifyCurrent, he'], ?_, hafter, ?_, Or.inl rfl⟩
  · intro x hx
    rcases List.mem_append.1 hx with hx | hx
    · exact hbefore x hx
    · rw [List.mem_singleton.1 hx]
      exact ⟨hactive, hserves⟩
  · rw [hnumbers, List.pairwise_append]
    refine ⟨h.order, List.pairwise_singleton _ _, fun m hm m' hm' => ?_⟩
    rw [List.mem_singleton.1 hm']
    exact hn m hm

/-! ## Rounds -/

/-- A store through the head that leaves it active or idle. -/
theorem ShapedBy.setHead (h : ShapedBy busy idle jobs) {f : JobSlot → JobSlot}
    (hf : (f jobs.head.slot).active = jobs.head.slot.active) :
    ∃ busy' idle', busy'.flatMap Entry.numbers = busy.flatMap Entry.numbers ∧
      ShapedBy busy' idle' (setHeadSlot f jobs) := by
  obtain ⟨before, current, after⟩ := jobs
  rcases h.at_current with ⟨hactive, rfl, rfl⟩ | ⟨hinactive, rfl, rfl⟩
  · cases before with
    | nil =>
      refine ⟨[{ current with slot := f current.slot }], after, by simp [Entry.numbers], rfl, ?_,
        h.inactive, ?_, Or.inl rfl⟩
      · intro x hx
        rw [List.mem_singleton.1 hx]
        exact ⟨hf.trans hactive, (h.active current (List.mem_singleton_self _)).2⟩
      · simpa [Entry.numbers] using h.order
    | cons b bs =>
      obtain ⟨hb, hbs⟩ := List.forall_mem_cons.1 h.active
      refine ⟨{ b with slot := f b.slot } :: (bs ++ [current]), after, by simp [Entry.numbers],
        ?_, ?_, h.inactive, ?_, Or.inl rfl⟩
      · simp [setHeadSlot, PoolList.modifyHead, PoolList.nodes]
      · exact List.forall_mem_cons.2 ⟨⟨hf.trans hb.1, hb.2⟩, hbs⟩
      · simpa [Entry.numbers] using h.order
  · cases before with
    | nil =>
      obtain ⟨-, hafter⟩ := List.forall_mem_cons.1 h.inactive
      refine ⟨[], { current with slot := f current.slot } :: after, rfl, rfl, h.active, ?_, h.order,
        Or.inr rfl⟩
      exact List.forall_mem_cons.2 ⟨hf.trans hinactive, hafter⟩
    | cons b bs =>
      obtain ⟨hb, hbs⟩ := List.forall_mem_cons.1 h.active
      refine ⟨{ b with slot := f b.slot } :: bs, current :: after, by simp [Entry.numbers], rfl, ?_,
        h.inactive, ?_, Or.inr rfl⟩
      · exact List.forall_mem_cons.2 ⟨⟨hf.trans hb.1, hb.2⟩, hbs⟩
      · simpa [Entry.numbers] using h.order

/-- The switch keeps the shape. -/
theorem ShapedBy.store (h : ShapedBy busy idle jobs) (w : Round) :
    ∃ busy' idle', busy'.flatMap Entry.numbers = busy.flatMap Entry.numbers ∧
      ShapedBy busy' idle' (w.store jobs) :=
  h.setHead (f := fun _ => (w.work jobs.head.slot).2) (w.work_active jobs.head.slot)

/-- **The end of a round** that finds `current` active. -/
theorem ShapedBy.finish (h : ShapedBy busy idle jobs) (hactive : jobs.current.slot.active = true) :
    ∃ busy' idle', busy'.flatMap Entry.numbers <:+ busy.flatMap Entry.numbers ∧
      ShapedBy busy' idle' (finishEntry jobs) := by
  obtain ⟨before, current, after⟩ := jobs
  rcases h.at_current with ⟨-, rfl, rfl⟩ | ⟨hinactive, -, -⟩
  · cases before with
    | nil =>
      refine ⟨[], { current with slot := { current.slot with active := false } } :: after,
        List.nil_suffix, rfl, by simp, ?_, by simp, Or.inr rfl⟩
      exact List.forall_mem_cons.2 ⟨rfl, h.inactive⟩
    | cons b bs =>
      have hbs := (List.forall_mem_cons.1 h.active).2
      have hnumbers : (bs ++ [current]).flatMap Entry.numbers <:+
          (b :: bs ++ [current]).flatMap Entry.numbers :=
        ⟨b.numbers, by simp⟩
      refine ⟨bs ++ [current], { b with slot := { b.slot with active := false } } :: after,
        hnumbers, ?_, hbs, List.forall_mem_cons.2 ⟨rfl, h.inactive⟩, h.order.sublist hnumbers.sublist,
        Or.inr rfl⟩
      simp [finishEntry, setHeadSlot, PoolList.modifyHead, PoolList.headToCurrent, PoolList.nodes]
  · rw [hactive] at hinactive
    exact Bool.noConfusion hinactive

/-- The slot `current` is idle, and so is one before it. -/
structure Broken (jobs : PoolList Entry) : Prop where
  current : jobs.current.slot.active = false
  before : ∃ e ∈ jobs.before, e.slot.active = false

theorem Broken.not_shape (h : Broken jobs) : ¬ Shape jobs := by
  rintro ⟨busy, idle, hshape⟩
  obtain ⟨e, he, hidle⟩ := h.before
  rcases hshape.at_current with ⟨hactive, -, -⟩ | ⟨-, hbusy, -⟩
  · rw [h.current] at hactive
    exact Bool.noConfusion hactive
  · have hactive := (hshape.active e (hbusy ▸ he)).1
    rw [hidle] at hactive
    exact Bool.noConfusion hactive

/-- The end of a round that finds `current` idle. -/
theorem ShapedBy.finish_broken (h : ShapedBy busy idle jobs) (hhead : jobs.head.slot.active = true)
    (hinactive : jobs.current.slot.active = false) : Broken (finishEntry jobs) := by
  obtain ⟨before, current, after⟩ := jobs
  cases before with
  | nil =>
    rw [show current.slot.active = true from hhead] at hinactive
    exact Bool.noConfusion hinactive
  | cons b bs => exact ⟨rfl, current, by simp [finishEntry, setHeadSlot, PoolList.modifyHead,
      PoolList.headToCurrent], hinactive⟩

/-- What is broken stays broken. -/
theorem Broken.doRounds (h : Broken jobs) (rounds : List Round) : Broken (doRounds rounds jobs) := by
  induction rounds generalizing jobs with
  | nil => exact h
  | cons w rounds ih =>
    unfold Socket.doRounds
    by_cases hhead : jobs.head.slot.active = false
    · rw [if_pos hhead]
      exact h
    · rw [if_neg hhead]
      obtain ⟨before, current, after⟩ := jobs
      obtain ⟨hinactive, e, he, hidle⟩ := h
      cases before with
      | nil => exact absurd he List.not_mem_nil
      | cons b bs =>
        -- the head is active, so it is not the idle slot
        have hmem : e ∈ bs := by
          rcases List.mem_cons.1 he with rfl | hmem
          · exact absurd hidle hhead
          · exact hmem
        split_ifs
        · apply ih
          exact ⟨rfl, e, List.mem_append_left _ hmem, hidle⟩
        · exact ⟨hinactive, e, List.mem_cons_of_mem _ hmem, hidle⟩

/-- **A run of `ape_socket_do_jobs`** in which no job is finished while `current` is idle. -/
theorem ShapedBy.doRounds (h : ShapedBy busy idle jobs) {rounds : List Round}
    (hkeep : FinishActive rounds jobs) :
    ∃ busy' idle', busy'.flatMap Entry.numbers <:+ busy.flatMap Entry.numbers ∧
      ShapedBy busy' idle' (doRounds rounds jobs) := by
  induction rounds generalizing jobs busy idle with
  | nil => exact ⟨busy, idle, List.suffix_rfl, h⟩
  | cons w rounds ih =>
    unfold Socket.doRounds
    by_cases hhead : jobs.head.slot.active = false
    · rw [if_pos hhead]
      exact ⟨busy, idle, List.suffix_rfl, h⟩
    · rw [if_neg hhead]
      obtain ⟨busy₁, idle₁, hsame, hstore⟩ := h.store w
      split_ifs with hfinished
      · obtain ⟨hactive, hrest⟩ := hkeep (by simpa using hhead) hfinished
        obtain ⟨busy₂, idle₂, hsub, hfinish⟩ :=
          hstore.finish ((w.store_current jobs).trans hactive)
        obtain ⟨busy₃, idle₃, hsub', hdone⟩ := ih hfinish hrest
        exact ⟨busy₃, idle₃, hsub'.trans (hsame ▸ hsub), hdone⟩
      · exact ⟨busy₁, idle₁, hsame ▸ List.suffix_rfl, hstore⟩

/-- Any other run loses the shape. -/
theorem ShapedBy.lost (h : ShapedBy busy idle jobs) {rounds : List Round}
    (hshape : Shape (Socket.doRounds rounds jobs)) : FinishActive rounds jobs := by
  induction rounds generalizing jobs busy idle with
  | nil => trivial
  | cons w rounds ih =>
    intro hhead hfinished
    rw [Socket.doRounds, if_neg (by simp [hhead]), if_pos hfinished] at hshape
    obtain ⟨busy₁, idle₁, -, hstore⟩ := h.store w
    have hcurrent := w.store_current jobs
    cases hactive : jobs.current.slot.active with
    | false =>
      have hbroken :=
        hstore.finish_broken ((w.store_head jobs).trans hhead) (hcurrent.trans hactive)
      exact absurd hshape (hbroken.doRounds rounds).not_shape
    | true =>
      obtain ⟨busy₂, idle₂, -, hfinish⟩ := hstore.finish (hcurrent.trans hactive)
      exact ⟨rfl, ih hfinish hshape⟩

end Shape

/-! ## Runs -/

/-- The list has its shape, and the next request a new number. -/
def ShapeInv (r : Roster) : Prop :=
  ∃ busy idle, ShapedBy busy idle r.jobs ∧ ∀ n ∈ busy.flatMap Entry.numbers, n < r.requested

/-- One operation keeps the shape, if it finishes no job while `current` is idle. -/
theorem ShapeInv.step {r : Roster} (h : ShapeInv r) {op : RosterOp} (hop : op.FinishesActive r) :
    ShapeInv (r.step op) := by
  obtain ⟨busy, idle, hshape, hnumbers⟩ := h
  cases hop' : op.requests with
  | some type =>
    obtain ⟨f, hstep⟩ := Roster.step_requests hop' r
    obtain ⟨busy', idle', heq, hshape'⟩ := hshape.take type hnumbers f
    rw [hstep]
    refine ⟨busy', idle', hshape', fun n hn => ?_⟩
    rw [heq, List.mem_append, List.mem_singleton] at hn
    show n < r.requested + 1
    rcases hn with hn | rfl
    · exact Nat.lt_succ_of_lt (hnumbers n hn)
    · exact Nat.lt_succ_self _
  | none =>
    cases op with
    | doJobs rounds =>
      obtain ⟨busy', idle', hsub, hshape'⟩ := hshape.doRounds hop
      exact ⟨busy', idle', hshape', fun n hn => hnumbers n (hsub.subset hn)⟩
    | _ => exact absurd hop' (Option.some_ne_none _)

/-- **The list keeps its shape along a run exactly when no job is finished while `current` is
idle**, that is, when between two jobs that are finished another one is requested. -/
theorem shape_iff (ops : List RosterOp) :
    (∀ pre, pre <+: ops → Shape (Roster.run pre).jobs) ↔
      EachStep Roster.step RosterOp.FinishesActive Roster.init ops := by
  have hinit : ShapeInv Roster.init := ⟨[], [.fresh, .fresh], shapedBy_init, by simp⟩
  have hexact := @always_iff_eachStep _ _ Roster.step RosterOp.FinishesActive ShapeInv
    (fun r => Shape r.jobs) Roster.init ops (fun _ _ h hop => h.step hop)
    (fun _ ⟨busy, idle, h, _⟩ => ⟨busy, idle, h⟩) ?_ hinit
  · rw [← hexact, always_iff_prefix]
    rfl
  · rintro r op ⟨busy, idle, h, -⟩ hshape
    cases op with
    | doJobs rounds => exact h.lost hshape
    | _ => trivial

/-- **A write and a file that are both worked off** leave `current` behind an idle slot: the next
request is active behind an idle head. -/
theorem shape_fails :
    ¬ ∀ pre, pre <+: [RosterOp.write [1] 0, .sendfile [2],
        .doJobs [⟨.init .fresh 7, [], true⟩, ⟨.init .fresh 7, [], true⟩], .write [3] 0] →
      Shape (Roster.run pre).jobs := by
  intro h
  have hidle := (h _ List.prefix_rfl).head (by decide)
  revert hidle
  decide

end Ape.Socket

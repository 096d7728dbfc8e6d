import ApeServer.Socket.Roster

/-!
# The type of a job slot

A slot that works should carry the bit of one type, that of the requests it serves, and point to what
the type needs.  A finished slot loses `APE_SOCKET_JOB_ACTIVE` only, so it keeps its type bit for the
next request.

* `Typed` — what is promised of an active slot;
* `Spent` — what a finished slot still points to;
* `typed_take`, `typed_doRounds` — a request on a slot without foreign bits keeps both, and so does
  `ape_socket_do_jobs`;
* `typed_iff` — **the active slots are typed along a run exactly when every request takes a slot
  without a bit of another type**.
-/

namespace Ape.Socket

open Runs (EachStep Always always_iff_prefix always_iff_eachStep)

/-! ## What is promised -/

/-- A pointer fits a type: a packet queue or nothing, or an open file. -/
def JobPtr.fits : JobType → JobPtr → Prop
  | .writev, ptr => ptr = .null ∨ ∃ q, ptr = .packets q
  | .sendfile, ptr => ∃ rest, ptr = .file rest
  | .shutdown, _ => True

/-- If the slot is active, then exactly one type bit is set, so that the `switch` runs its case, the
slot serves requests of this type only, and it points to what the type needs. -/
def Typed (e : Entry) : Prop :=
  e.slot.active = true → ∃ type, e.slot.kind = some type ∧ e.requests ≠ [] ∧
    (∀ r ∈ e.requests, r.2 = type) ∧ e.slot.ptr.fits type

/-- All slots are. -/
def AllTyped (jobs : PoolList Entry) : Prop := ∀ e ∈ jobs.nodes, Typed e

/-- If the operation requests a slot, the one it finds carries no bit of another type. -/
def RosterOp.FindsClean (r : Roster) (op : RosterOp) : Prop :=
  ∀ type ∈ op.requests, (seekEntry type r.jobs).current.slot.onlyType type = true

/-! ## Type bits -/

/-- A slot with the bit of one type, once taken for it. -/
theorem kind_take_iff (type : JobType) (j : JobSlot) :
    (j.take type).kind = some type ↔ j.onlyType type = true := by
  obtain ⟨active, writev, sendfile, shutdown, ptr⟩ := j
  cases type <;> cases writev <;> cases sendfile <;> cases shutdown <;>
    simp [JobSlot.take, JobSlot.kind, JobSlot.onlyType]

/-- A slot that is taken has the bit of the request. -/
theorem kind_take {type type' : JobType} {j : JobSlot} (h : (j.take type).kind = some type') :
    type' = type := by
  obtain ⟨active, writev, sendfile, shutdown, ptr⟩ := j
  revert h
  cases type <;> cases writev <;> cases sendfile <;> cases shutdown <;>
    simp [JobSlot.take, JobSlot.kind, eq_comm]

/-- A slot of one type without bits of another is of that other type. -/
theorem kind_eq_of_onlyType {type type' : JobType} {j : JobSlot} (hkind : j.kind = some type')
    (honly : j.onlyType type = true) : type' = type := by
  obtain ⟨active, writev, sendfile, shutdown, ptr⟩ := j
  revert hkind honly
  cases type <;> cases writev <;> cases sendfile <;> cases shutdown <;>
    simp [JobSlot.onlyType, JobSlot.kind, eq_comm]

/-- What an idle slot points to: nothing, or the packet queue of the writes it was used for. -/
def Spent (e : Entry) : Prop :=
  e.slot.active = false → e.slot.ptr = .null ∨ (∃ q, e.slot.ptr = .packets q) ∧ e.slot.writev = true

theorem typed_fresh : Typed .fresh := fun h => Bool.noConfusion h

theorem spent_fresh : Spent .fresh := fun _ => Or.inl rfl

/-- The slot that is found is one of the list, or a new one. -/
theorem forall_seekEntry {P : Entry → Prop} {jobs : PoolList Entry} (h : ∀ e ∈ jobs.nodes, P e)
    (hfresh : P .fresh) (type : JobType) : ∀ e ∈ (seekEntry type jobs).nodes, P e := by
  obtain ⟨before, current, after⟩ := jobs
  unfold seekEntry
  split_ifs with hcurrent hafter
  · exact h
  · obtain rfl : after = [] := hafter
    intro e he
    simp only [PoolList.grow, PoolList.next, PoolList.nodes, List.replicate, List.nil_append,
      List.append_assoc, List.mem_append, List.mem_cons, List.not_mem_nil, or_false] at he
    rcases he with he | rfl | rfl | rfl
    · exact h e (List.mem_append_left _ he)
    · exact h e (by simp [PoolList.nodes])
    · exact hfresh
    · exact hfresh
  · obtain ⟨a, as, rfl⟩ := List.exists_cons_of_ne_nil hafter
    intro e he
    exact h e (by simpa [PoolList.next, PoolList.nodes] using he)

/-! ## Requests -/

/-- What a request leaves in the slot it takes: the type, and what it points to. -/
theorem typed_take {e : Entry} (htyped : Typed e) {type : JobType}
    (honly : e.slot.onlyType type = true) (n : Nat) {ptr : JobPtr} (hptr : ptr.fits type) :
    Typed { e.take type n with slot := { (e.take type n).slot with ptr := ptr } } := by
  intro _
  refine ⟨type, (kind_take_iff type e.slot).2 honly, by simp [Entry.take], ?_, hptr⟩
  intro r hr
  rcases List.mem_append.1 hr with hr | hr
  · cases hactive : e.slot.active with
    | false =>
      rw [hactive] at hr
      exact absurd hr List.not_mem_nil
    | true =>
      rw [hactive] at hr
      obtain ⟨type', hkind, -, hall, -⟩ := htyped hactive
      exact (hall r hr).trans (kind_eq_of_onlyType hkind honly)
  · rw [List.mem_singleton.1 hr]

/-- What a slot without foreign bits points to when it is found. -/
theorem fits_of_onlyType {e : Entry} (htyped : Typed e) (hspent : Spent e)
    (honly : e.slot.onlyType .writev = true) : e.slot.ptr.fits .writev := by
  cases hactive : e.slot.active with
  | false =>
    rcases hspent hactive with hnull | ⟨hqueue, -⟩
    · exact Or.inl hnull
    · exact Or.inr hqueue
  | true =>
    obtain ⟨type, hkind, -, -, hfits⟩ := htyped hactive
    rw [kind_eq_of_onlyType hkind honly] at hfits
    exact hfits

/-- All slots are typed, and the idle ones are spent. -/
def TypedInv (r : Roster) : Prop := AllTyped r.jobs ∧ ∀ e ∈ r.jobs.nodes, Spent e

/-- **A request on a slot without foreign bits.** -/
theorem TypedInv.request {r : Roster} (h : TypedInv r) {op : RosterOp} {type : JobType}
    (htype : op.requests = some type)
    (honly : (seekEntry type r.jobs).current.slot.onlyType type = true) : TypedInv (r.step op) := by
  have htyped := forall_seekEntry h.1 typed_fresh type
  have hspent := forall_seekEntry h.2 spent_fresh type
  have hcurrent := htyped _ (PoolList.current_mem _)
  have hcurrent' := hspent _ (PoolList.current_mem _)
  set jobs := seekEntry type r.jobs with hjobs
  -- the slot found with the pointer the operation leaves in it
  have hnew : ∃ ptr : JobPtr, ptr.fits type ∧ (r.step op).jobs = jobs.modifyCurrent fun e =>
      { e.take type r.requested with slot := { (e.take type r.requested).slot with ptr := ptr } } := by
    cases op with
    | write data offset =>
      obtain rfl := Option.some.inj htype
      have hptr : (r.getSlot .writev).jobs.current.slot.ptr = jobs.current.slot.ptr := rfl
      simp only [Roster.step, Roster.queueData, hptr]
      rcases fits_of_onlyType hcurrent hcurrent' honly with hnull | ⟨q, hq⟩
      · rw [hnull]
        exact ⟨_, Or.inr ⟨_, rfl⟩, rfl⟩
      · rw [hq]
        exact ⟨_, Or.inr ⟨_, rfl⟩, rfl⟩
    | sendfile rest =>
      obtain rfl := Option.some.inj htype
      exact ⟨.file rest, ⟨rest, rfl⟩, rfl⟩
    | shutdown =>
      obtain rfl := Option.some.inj htype
      exact ⟨jobs.current.slot.ptr, trivial, rfl⟩
    | doJobs rounds => exact absurd htype (Option.some_ne_none type).symm
  obtain ⟨ptr, hptr, heq⟩ := hnew
  refine ⟨?_, ?_⟩
  · rw [AllTyped, heq]
    exact PoolList.forall_modifyCurrent htyped (typed_take hcurrent honly _ hptr)
  · rw [heq]
    apply PoolList.forall_modifyCurrent hspent
    intro hidle
    cases type <;> exact Bool.noConfusion hidle

/-- A request on any other slot leaves it without a type. -/
theorem onlyType_of_typed {r : Roster} {op : RosterOp} {type : JobType}
    (htype : op.requests = some type) (h : AllTyped (r.step op).jobs) :
    (seekEntry type r.jobs).current.slot.onlyType type = true := by
  obtain ⟨f, hstep⟩ := Roster.step_requests htype r
  rw [hstep] at h
  have hcurrent := h _ (PoolList.current_mem _)
  obtain ⟨type', hkind, -⟩ := hcurrent (by cases type <;> rfl)
  have hkind' : ((seekEntry type r.jobs).current.slot.take type).kind = some type' := by
    cases type <;> exact hkind
  rw [← kind_take_iff, hkind', kind_take hkind']

/-! ## Rounds -/

section Rounds

variable (w : Round) {j : JobSlot}

theorem work_packets (hkind : j.kind = some .writev) {q : PoolList Packet} (hptr : j.ptr = .packets q) :
    w.work j = (w.finished, { j with ptr := .packets w.queue }) := by
  simp only [Round.work, hkind, hptr]

theorem work_file (hkind : j.kind = some .sendfile) {rest : List UInt8} (hptr : j.ptr = .file rest) :
    w.work j = (w.finished, { j with ptr := if w.finished then .null else .file w.rest }) := by
  simp only [Round.work, hkind, hptr]

theorem work_null (hkind : j.kind = some .writev) (hptr : j.ptr = .null) : w.work j = (false, j) := by
  simp only [Round.work, hkind, hptr]

theorem work_shutdown (hkind : j.kind = some .shutdown) : w.work j = (false, j) := by
  simp only [Round.work, hkind]

end Rounds

/-- A slot of the kind of a write has the bit of a write. -/
theorem writev_of_kind {j : JobSlot} (h : j.kind = some .writev) : j.writev = true := by
  obtain ⟨active, writev, sendfile, shutdown, ptr⟩ := j
  revert h
  cases writev <;> cases sendfile <;> cases shutdown <;> simp [JobSlot.kind]

/-- **What a round leaves in the slot at the head**: the type while the job is not finished, and what
a finished slot may point to. -/
theorem typed_work (w : Round) {e : Entry} (htyped : Typed e) (hactive : e.slot.active = true) :
    ((w.work e.slot).1 = false → Typed { e with slot := (w.work e.slot).2 }) ∧
      ((w.work e.slot).1 = true →
        Spent { e with slot := { (w.work e.slot).2 with active := false } }) := by
  obtain ⟨type, hkind, hserves, hall, hfits⟩ := htyped hactive
  -- an unfinished job changes its pointer within the type
  have hkept : ∀ ptr : JobPtr, ptr.fits type → Typed { e with slot := { e.slot with ptr := ptr } } :=
    fun ptr hptr _ => ⟨type, hkind, hserves, hall, hptr⟩
  cases type with
  | writev =>
    rcases hfits with hnull | ⟨q, hq⟩
    · rw [work_null w hkind hnull]
      exact ⟨fun _ => htyped, fun h => Bool.noConfusion h⟩
    · rw [work_packets w hkind hq]
      refine ⟨fun _ => hkept _ (Or.inr ⟨w.queue, rfl⟩), fun _ _ => Or.inr ⟨⟨w.queue, rfl⟩, ?_⟩⟩
      exact writev_of_kind hkind
  | sendfile =>
    obtain ⟨rest, hrest⟩ := hfits
    rw [work_file w hkind hrest]
    refine ⟨fun hmore => ?_, fun hfinished _ => Or.inl ?_⟩
    · simp only at hmore
      simp only [hmore]
      exact hkept _ ⟨w.rest, rfl⟩
    · simp only at hfinished
      simp [hfinished]
  | shutdown =>
    rw [work_shutdown w hkind]
    exact ⟨fun _ => htyped, fun h => Bool.noConfusion h⟩

/-- A slot that works is not an idle one, and the other way round. -/
theorem spent_of_active {e : Entry} (h : e.slot.active = true) : Spent e := by
  intro hidle
  rw [h] at hidle
  exact Bool.noConfusion hidle

theorem typed_of_idle {e : Entry} (h : e.slot.active = false) : Typed e := by
  intro hactive
  rw [h] at hactive
  exact Bool.noConfusion hactive

/-- **A run of `ape_socket_do_jobs`.** -/
theorem typed_doRounds (rounds : List Round) {jobs : PoolList Entry} (htyped : AllTyped jobs)
    (hspent : ∀ e ∈ jobs.nodes, Spent e) :
    AllTyped (doRounds rounds jobs) ∧ ∀ e ∈ (doRounds rounds jobs).nodes, Spent e := by
  induction rounds generalizing jobs with
  | nil => exact ⟨htyped, hspent⟩
  | cons w rounds ih =>
    unfold doRounds
    by_cases hidle : jobs.head.slot.active = false
    · rw [if_pos hidle]
      exact ⟨htyped, hspent⟩
    rw [if_neg hidle]
    have hactive : jobs.head.slot.active = true := by simpa using hidle
    obtain ⟨hmore, hdone⟩ := typed_work w (htyped _ jobs.head_mem) hactive
    by_cases hfinished : (w.work jobs.head.slot).1 = true
    · rw [if_pos hfinished]
      have hstore : finishEntry (w.store jobs) = (jobs.modifyHead fun e =>
          { e with slot := { (w.work jobs.head.slot).2 with active := false } }).headToCurrent := by
        rw [finishEntry, setHeadSlot, Round.store, setHeadSlot, PoolList.modifyHead_modifyHead]
        rfl
      rw [hstore]
      have hmem := fun e => (PoolList.nodes_headToCurrent (jobs.modifyHead fun e =>
        { e with slot := { (w.work jobs.head.slot).2 with active := false } })).mem_iff (a := e)
      apply ih
      · intro e he
        exact PoolList.forall_modifyHead htyped (typed_of_idle rfl) e ((hmem e).1 he)
      · intro e he
        exact PoolList.forall_modifyHead hspent (hdone hfinished) e ((hmem e).1 he)
    · rw [if_neg hfinished]
      refine ⟨PoolList.forall_modifyHead htyped (hmore (by simpa using hfinished)), ?_⟩
      apply PoolList.forall_modifyHead hspent
      exact spent_of_active ((w.work_active jobs.head.slot).trans hactive)

/-! ## Runs -/

/-- One operation keeps the slots typed, if the slot that it takes is clean. -/
theorem TypedInv.step {r : Roster} (h : TypedInv r) {op : RosterOp} (hop : op.FindsClean r) :
    TypedInv (r.step op) := by
  cases htype : op.requests with
  | some type => exact h.request htype (hop type (by rw [htype]; rfl))
  | none =>
    cases op with
    | doJobs rounds => exact typed_doRounds rounds h.1 h.2
    | _ => exact absurd htype (Option.some_ne_none _)

/-- **Every active slot carries the type of its requests, and nothing else, along a run exactly when
every request takes a slot without a bit of another type.** -/
theorem typed_iff (ops : List RosterOp) :
    (∀ pre, pre <+: ops → AllTyped (Roster.run pre).jobs) ↔
      EachStep Roster.step RosterOp.FindsClean Roster.init ops := by
  have hinit : TypedInv Roster.init := by
    have hfresh : ∀ e ∈ Roster.init.jobs.nodes, e = .fresh := fun e he =>
      List.eq_of_mem_replicate (show e ∈ List.replicate 2 Entry.fresh from he)
    refine ⟨fun e he => ?_, fun e he => ?_⟩
    · rw [hfresh e he]
      exact typed_fresh
    · rw [hfresh e he]
      exact spent_fresh
  rw [← @always_iff_eachStep _ _ Roster.step RosterOp.FindsClean TypedInv
    (fun r => AllTyped r.jobs) Roster.init ops (fun _ _ h hop => h.step hop) (fun _ h => h.1) ?_
    hinit, always_iff_prefix]
  · rfl
  · intro r op _ hall type htype
    exact onlyType_of_typed htype hall

/-- **The slot of a write that is worked off and then taken for a file** has two type bits. -/
theorem typed_fails :
    ¬ ∀ pre, pre <+: [RosterOp.write [1] 0, .doJobs [⟨.init .fresh 7, [], true⟩], .sendfile [2]] →
      AllTyped (Roster.run pre).jobs := by
  intro h
  have htyped := h _ List.prefix_rfl _ (PoolList.head_mem _)
  obtain ⟨type, hkind, -⟩ := htyped (by decide)
  have hnone : (Roster.run [RosterOp.write [1] 0, .doJobs [⟨.init .fresh 7, [], true⟩],
      .sendfile [2]]).jobs.head.slot.kind = none := by decide
  rw [hnone] at hkind
  exact Option.some_ne_none type hkind.symm

end Ape.Socket

import ApeServer.Lib.Runs
import ApeServer.Socket.Jobs

/-!
# The job list by itself

What `ape_socket_job_get_slot` and `ape_socket_do_jobs` do to the list of jobs, whatever the system
answers.  Each slot carries a ghost record of the requests it serves.

* `Entry`, `Roster` — a slot with its requests, and the list with the number of the next request;
* `getSlot`, `queueData`, `doJobs` — the functions of the source;
* `RosterOp`, `Roster.step` — a run of requests and of `ape_socket_do_jobs`;
* `slots_seekEntry` — beside the ghost record a slot is found as in the model of the calls.
-/

namespace Ape.Socket

/-- A job slot with the requests it serves, oldest first: their numbers and their types. -/
structure Entry where
  slot : JobSlot
  requests : List (Nat × JobType)
  deriving DecidableEq, Repr

/-- A slot as `ape_new_pool` leaves it. -/
def Entry.fresh : Entry := ⟨.fresh, []⟩

/-- `socket->jobs`, and how many slots have been requested. -/
structure Roster where
  jobs : PoolList Entry
  requested : Nat
  deriving DecidableEq, Repr

namespace Roster

/-- `ape_init_job_list(&socket->jobs, 2)`. -/
def init : Roster := ⟨.init .fresh 1, 0⟩

/-- The list without the ghost record. -/
def slots (r : Roster) : PoolList JobSlot := r.jobs.map Entry.slot

end Roster

/-! ## Taking a slot -/

/-- `ape_socket_job_get_slot` up to the slot it takes. -/
def seekEntry (type : JobType) (jobs : PoolList Entry) : PoolList Entry :=
  if (type = .writev ∧ jobs.current.slot.writev = true) ∨ jobs.current.slot.active = false then jobs
  else if jobs.after = [] then (jobs.grow .fresh 2).next
  else jobs.next

/-- `jobs->flags |= APE_SOCKET_JOB_ACTIVE | type` for the request `n`; a slot that is idle serves no
other. -/
def Entry.take (type : JobType) (n : Nat) (e : Entry) : Entry :=
  ⟨e.slot.take type, (if e.slot.active then e.requests else []) ++ [(n, type)]⟩

namespace Roster

/-- `ape_socket_job_get_slot`; the slot is the new `current`. -/
def getSlot (type : JobType) (r : Roster) : Roster :=
  ⟨(seekEntry type r.jobs).modifyCurrent (Entry.take type r.requested), r.requested + 1⟩

/-- `job->ptr = …` on the slot just taken. -/
def setPtr (ptr : JobPtr) (r : Roster) : Roster :=
  { r with jobs := r.jobs.modifyCurrent fun e => { e with slot := { e.slot with ptr := ptr } } }

/-- `ape_socket_queue_data`; a slot that points to a file cannot be read as a packet queue. -/
def queueData (data : List UInt8) (offset : Nat) (r : Roster) : Roster :=
  let r := getSlot .writev r
  match r.jobs.current.slot.ptr with
  | .null => setPtr (.packets (push data offset (.init .fresh 7))) r
  | .packets q => setPtr (.packets (push data offset q)) r
  | .file _ => r

end Roster

/-! ## Working the jobs off -/

/-- What the system lets one round of `ape_socket_do_jobs` do: what is left of a packet queue or of
a file, and whether the job is finished. -/
structure Round where
  queue : PoolList Packet
  rest : List UInt8
  finished : Bool
  deriving DecidableEq, Repr

/-- The `switch` of `ape_socket_do_jobs`: whether the job is finished, and its slot.  A shutdown
returns, and so, in the model, does a slot that does not point to what its case needs. -/
def Round.work (w : Round) (j : JobSlot) : Bool × JobSlot :=
  match j.kind, j.ptr with
  | some .writev, .packets _ => (w.finished, { j with ptr := .packets w.queue })
  | some .sendfile, .file _ =>
    (w.finished, { j with ptr := if w.finished then .null else .file w.rest })
  | none, _ => (true, j)
  | _, _ => (false, j)

/-- A store through the head. -/
def setHeadSlot (f : JobSlot → JobSlot) (jobs : PoolList Entry) : PoolList Entry :=
  jobs.modifyHead fun e => { e with slot := f e.slot }

/-- What a round leaves in the slot at the head. -/
def Round.store (w : Round) (jobs : PoolList Entry) : PoolList Entry :=
  setHeadSlot (fun _ => (w.work jobs.head.slot).2) jobs

/-- The end of a round: the head becomes idle and is taken behind `current`. -/
def finishEntry (jobs : PoolList Entry) : PoolList Entry :=
  (setHeadSlot (fun j => { j with active := false }) jobs).headToCurrent

/-- The loop of `ape_socket_do_jobs`.  A run that is out of rounds is blocked. -/
def doRounds : List Round → PoolList Entry → PoolList Entry
  | [], jobs => jobs
  | w :: rounds, jobs =>
    if jobs.head.slot.active = false then jobs
    else if (w.work jobs.head.slot).1 then doRounds rounds (finishEntry (w.store jobs))
    else w.store jobs

/-! ### What a round leaves alone -/

/-- The switch leaves the slot active. -/
theorem Round.work_active (w : Round) (j : JobSlot) : (w.work j).2.active = j.active := by
  unfold Round.work
  split <;> rfl

/-- The switch leaves `current` active or idle. -/
theorem Round.store_current (w : Round) (jobs : PoolList Entry) :
    (w.store jobs).current.slot.active = jobs.current.slot.active := by
  obtain ⟨before, current, after⟩ := jobs
  cases before with
  | nil => exact w.work_active current.slot
  | cons b bs => rfl

/-- The switch leaves the head active or idle. -/
theorem Round.store_head (w : Round) (jobs : PoolList Entry) :
    (w.store jobs).head.slot.active = jobs.head.slot.active := by
  rw [Round.store, setHeadSlot, PoolList.head_modifyHead]
  exact w.work_active jobs.head.slot

/-! ## Runs -/

/-- A queued write, a file that is queued, a queued shutdown, or a run of `ape_socket_do_jobs`. -/
inductive RosterOp where
  | write (data : List UInt8) (offset : Nat)
  | sendfile (rest : List UInt8)
  | shutdown
  | doJobs (rounds : List Round)
  deriving DecidableEq, Repr

namespace Roster

/-- One operation. -/
def step (r : Roster) : RosterOp → Roster
  | .write data offset => queueData data offset r
  | .sendfile rest => setPtr (.file rest) (getSlot .sendfile r)
  | .shutdown => getSlot .shutdown r
  | .doJobs rounds => { r with jobs := doRounds rounds r.jobs }

/-- A run on a new socket. -/
def run (ops : List RosterOp) : Roster := ops.foldl step init

end Roster

/-- The type of the slot an operation requests. -/
def RosterOp.requests : RosterOp → Option JobType
  | .write _ _ => some .writev
  | .sendfile _ => some .sendfile
  | .shutdown => some .shutdown
  | .doJobs _ => none

/-! ## Beside the ghost record -/

theorem slots_seekEntry (type : JobType) (jobs : PoolList Entry) :
    (seekEntry type jobs).map Entry.slot = seek type (jobs.map Entry.slot) := by
  unfold seekEntry seek
  simp only [PoolList.current_map, PoolList.after_map, List.map_eq_nil_iff]
  split_ifs
  · rfl
  · rw [PoolList.map_next, PoolList.map_grow]
    rfl
  · exact PoolList.map_next _ _

/-- A slot is taken as in the model of the calls. -/
theorem slots_getSlot (type : JobType) (r : Roster) :
    (r.getSlot type).slots = (seek type r.slots).modifyCurrent (JobSlot.take type) := by
  rw [Roster.slots, Roster.slots, ← slots_seekEntry]
  exact PoolList.map_modifyCurrent _ _ fun _ => rfl

theorem slots_setPtr (ptr : JobPtr) (r : Roster) :
    (r.setPtr ptr).slots = r.slots.modifyCurrent fun j => { j with ptr := ptr } :=
  PoolList.map_modifyCurrent _ _ fun _ => rfl

theorem slots_setHeadSlot (f : JobSlot → JobSlot) (jobs : PoolList Entry) :
    (setHeadSlot f jobs).map Entry.slot = (jobs.map Entry.slot).modifyHead f :=
  PoolList.map_modifyHead _ _ rfl

theorem slots_finishEntry (jobs : PoolList Entry) :
    (finishEntry jobs).map Entry.slot =
      ((jobs.map Entry.slot).modifyHead fun j => { j with active := false }).headToCurrent := by
  rw [finishEntry, PoolList.map_headToCurrent, slots_setHeadSlot]

/-- Whatever operation requests a slot, it takes it and may then set its pointer. -/
theorem Roster.step_requests {op : RosterOp} {type : JobType} (h : op.requests = some type)
    (r : Roster) :
    ∃ f : JobPtr → JobPtr, r.step op =
      { r.getSlot type with jobs := (r.getSlot type).jobs.modifyCurrent fun e =>
          { e with slot := { e.slot with ptr := f e.slot.ptr } } } := by
  have hsame : ∀ r : Roster, r = { r with jobs := r.jobs.modifyCurrent fun e =>
      { e with slot := { e.slot with ptr := id e.slot.ptr } } } := fun _ => rfl
  cases op with
  | write data offset =>
    obtain rfl := Option.some.inj h
    simp only [Roster.step, Roster.queueData]
    split
    · exact ⟨fun _ => .packets (push data offset (.init .fresh 7)), rfl⟩
    · rename_i q _
      exact ⟨fun _ => .packets (push data offset q), rfl⟩
    · exact ⟨id, hsame _⟩
  | sendfile rest =>
    obtain rfl := Option.some.inj h
    exact ⟨fun _ => .file rest, rfl⟩
  | shutdown =>
    obtain rfl := Option.some.inj h
    exact ⟨id, hsame _⟩
  | doJobs rounds => exact absurd h (Option.some_ne_none type).symm

end Ape.Socket

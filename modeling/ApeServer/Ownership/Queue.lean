import ApeServer.Ownership.Pass

/-!
# The one slot of a socket that is only written to

When all jobs are writes, every request finds the slot at the head of the list and adds to its queue,
so the list of jobs never moves.

* `Lined` — the packets with bytes left stand before `current`, which is free; `packetLoop_placed` —
  the loop over the packets keeps it so;
* `Tidy` — the slot at the head has the queue of all packets that wait, and no slot is before it;
* `queueData_tidy`, `setQueue_tidy`, `finishJob_tidy` — what the functions do to it;
* `doJobs_eq` — so `ape_socket_do_jobs` is one round at most.
-/

namespace Ape.Ownership

open Socket (PoolList)

/-! ## The queue -/

/-- The packets `ps` have bytes left and stand before `current`; it and all behind it are free. -/
structure Lined (q : PoolList Packet) (ps : List Packet) : Prop where
  before : q.before = ps
  pending : ∀ p ∈ ps, p.Pending
  free : q.current.data = none ∧ ∀ p ∈ q.after, p.data = none

theorem lined_init : Lined (.init .fresh 7) [] := by
  refine ⟨rfl, by simp, rfl, fun p hp => ?_⟩
  rw [List.eq_of_mem_replicate hp]
  rfl

section Lined

variable {q : PoolList Packet} {p : Packet} {ps : List Packet}

theorem Lined.backlog (h : Lined q ps) : Backlog q ps (q.current :: q.after) :=
  ⟨by rw [← h.before]; rfl, h.pending, List.forall_mem_cons.2 h.free, by simp⟩

/-- A packet is queued behind the others. -/
theorem Lined.push (h : Lined q ps) (hp : p.Pending) : Lined (push p q) (ps ++ [p]) := by
  have hpending : ∀ x ∈ ps ++ [p], x.Pending := by
    intro x hx
    rcases List.mem_append.1 hx with hx | hx
    · exact h.pending x hx
    · rwa [List.mem_singleton.1 hx]
  obtain ⟨before, current, after⟩ := q
  obtain rfl : before = ps := h.before
  cases after with
  | nil =>
    refine ⟨rfl, hpending, rfl, fun x hx => ?_⟩
    rw [List.eq_of_mem_replicate (show x ∈ List.replicate 7 Packet.fresh from hx)]
    rfl
  | cons a as =>
    obtain ⟨ha, has⟩ := List.forall_mem_cons.1 h.free.2
    exact ⟨rfl, hpending, ha, has⟩

/-- The first packet is taken off. -/
theorem Lined.pop (h : Lined q (p :: ps)) : Lined (pop q) ps := by
  obtain ⟨before, current, after⟩ := q
  obtain rfl : before = p :: ps := h.before
  refine ⟨rfl, (List.forall_mem_cons.1 h.pending).2, h.free.1, fun x hx => ?_⟩
  rcases List.mem_append.1 hx with hx | hx
  · exact h.free.2 x hx
  · rw [List.mem_singleton.1 hx]

/-- A store through the first packet. -/
theorem Lined.modifyHead (h : Lined q (p :: ps)) {f : Packet → Packet} (hf : (f p).Pending) :
    Lined (q.modifyHead f) (f p :: ps) := by
  obtain ⟨before, current, after⟩ := q
  obtain rfl : before = p :: ps := h.before
  exact ⟨rfl, List.forall_mem_cons.2 ⟨hf, (List.forall_mem_cons.1 h.pending).2⟩, h.free⟩

end Lined

/-- Exactly the packets before `current` have data. -/
structure Placed (q : PoolList Packet) : Prop where
  filled : ∀ p ∈ q.before, p.data.isSome = true
  free : q.current.data = none ∧ ∀ p ∈ q.after, p.data = none

theorem Lined.placed {q : PoolList Packet} {ps : List Packet} (h : Lined q ps) : Placed q := by
  refine ⟨fun p hp => ?_, h.free⟩
  obtain ⟨b, hdata, -⟩ := h.pending p (h.before ▸ hp)
  rw [hdata]
  rfl

/-- Where the packets that wait have bytes left. -/
theorem Placed.lined {q : PoolList Packet} {ps fs : List Packet} (h : Placed q)
    (hq : Backlog q ps fs) : Lined q ps := by
  have hwaiting : waiting q = q.before := by
    rw [waiting, PoolList.nodes, List.takeWhile_append_of_pos h.filled]
    simp [h.free.1]
  exact ⟨hwaiting.symm.trans hq.waiting, hq.pending, h.free⟩

/-- The loop over the packets leaves them where they were. -/
theorem packetLoop_placed {q : PoolList Packet} (h : Placed q) (fuel : Nat) (n : Int) :
    Placed (packetLoop fuel n q).1 := by
  induction fuel generalizing q n with
  | zero => exact h
  | succ fuel ih =>
    obtain ⟨before, current, after⟩ := q
    obtain ⟨hfilled, hcurrent, hafter⟩ := h
    cases before with
    | nil =>
      rw [packetLoop, show (PoolList.mk [] current after).head = current from rfl, hcurrent]
      exact ⟨hfilled, hcurrent, hafter⟩
    | cons p ps =>
      obtain ⟨hp, hps⟩ := List.forall_mem_cons.1 hfilled
      obtain ⟨b, hdata⟩ := Option.isSome_iff_exists.1 hp
      have hpop : Placed (pop ⟨p :: ps, current, after⟩) := by
        refine ⟨hps, hcurrent, fun x hx => ?_⟩
        rcases List.mem_append.1 hx with hx | hx
        · exact hafter x hx
        · rw [List.mem_singleton.1 hx]
      rw [packetLoop, show (PoolList.mk (p :: ps) current after).head = p from rfl]
      simp only [hdata]
      split_ifs
      · exact ⟨List.forall_mem_cons.2 ⟨hp, hps⟩, hcurrent, hafter⟩
      · exact hpop
      · exact ih hpop _

/-! ## The jobs -/

/-- The slot at the head is `current`, and its queue, the only one, holds the packets `ps`.  An idle
slot holds none, and a slot that works has a queue. -/
structure Tidy (jobs : PoolList Job) (ps : List Packet) : Prop where
  before : jobs.before = []
  writev : jobs.current.active = true → jobs.current.writev = true
  idle : jobs.current.active = false → ps = []
  queue : (jobs.current.queue = none ∧ jobs.current.active = false) ∨
    ∃ q, jobs.current.queue = some q ∧ Lined q ps
  others : ∀ j ∈ jobs.after, j.queue = none

theorem tidy_new (secure : Bool) : Tidy (Sock.new secure).jobs [] :=
  ⟨rfl, fun h => Bool.noConfusion h, fun _ => rfl, Or.inl ⟨rfl, rfl⟩, fun j hj => by
    rw [List.eq_of_mem_replicate hj]
    rfl⟩

section Tidy

variable {jobs : PoolList Job} {ps : List Packet}

theorem Tidy.head (h : Tidy jobs ps) : jobs.head = jobs.current := by
  obtain ⟨before, current, after⟩ := jobs
  obtain rfl : before = [] := h.before
  rfl

/-- With an idle head nothing waits. -/
theorem Tidy.nothing (h : Tidy jobs ps) (hidle : jobs.head.active = false) : ps = [] := by
  rw [h.head] at hidle
  exact h.idle hidle

/-- With an active head there is a queue, and the packets that wait are lined up in it. -/
theorem Tidy.lined (h : Tidy jobs ps) (hactive : jobs.head.active = true) :
    jobs.head.writev = true ∧ ∃ q, jobs.head.queue = some q ∧ Lined q ps := by
  rw [h.head] at hactive ⊢
  refine ⟨h.writev hactive, h.queue.resolve_left fun hnone => ?_⟩
  rw [hnone.2] at hactive
  exact Bool.noConfusion hactive

/-- The queue a write finds, or makes. -/
theorem Tidy.getD (h : Tidy jobs ps) : Lined (jobs.current.queue.getD (.init .fresh 7)) ps := by
  rcases h.queue with ⟨hnone, hidle⟩ | ⟨q, hq, hlined⟩
  · rw [hnone, h.idle hidle]
    exact lined_init
  · rwa [hq]

/-- A write finds the slot at the head. -/
theorem Tidy.seek (h : Tidy jobs ps) : seek jobs = jobs := by
  unfold Ownership.seek
  cases hactive : jobs.current.active with
  | true => rw [if_pos (Or.inl (h.writev hactive))]
  | false => rw [if_pos (Or.inr rfl)]

/-- The queue of the slot at the head. -/
theorem setQueue_tidy {s : Sock} (h : Tidy s.jobs ps) (hactive : s.jobs.head.active = true)
    {q : PoolList Packet} {ps' : List Packet} (hq : Lined q ps') : Tidy (setQueue q s).jobs ps' := by
  obtain ⟨hwritev, -⟩ := h.lined hactive
  obtain ⟨⟨before, current, after⟩, hjobs⟩ : ∃ jobs, s.jobs = jobs := ⟨_, rfl⟩
  rw [hjobs] at h hactive hwritev
  obtain rfl : before = [] := h.before
  rw [setQueue, hjobs]
  refine ⟨rfl, fun _ => hwritev, fun hidle => ?_, Or.inr ⟨q, rfl, hq⟩, h.others⟩
  have hnot : current.active = false := hidle
  rw [show current.active = true from hactive] at hnot
  exact Bool.noConfusion hnot

end Tidy

/-! ## The functions -/

variable {s : Sock} {ps : List Packet}

/-- `ape_socket_shutdown_force` and the fields that are kept, with its entry of the log. -/
theorem shutdownForce_fields (sys : System) (s : Sock) :
    (shutdownForce sys s).secure = s.secure ∧ (shutdownForce sys s).jobs = s.jobs ∧
      (shutdownForce sys s).written = s.written ∧ (shutdownForce sys s).online = s.online ∧
      (shutdownForce sys s).log = s.log ++ if s.online then [.shutdown] else [] := by
  unfold shutdownForce
  cases hs : s.online with
  | false => simp [hs]
  | true => cases hf : sys.shutdownFails s.calls <;> simp [destroy, Sock.note, hs]

/-- What `ape_socket_queue_data` puts into the queue. -/
def queuedPacket (b : Block) (offset : Nat) (type : DataType) : Packet :=
  ⟨some (if type.queued = .copy then { b with copy := true } else b), b.bytes.length, offset,
    type.queued⟩

theorem queuedPacket_pending {b : Block} {offset : Nat} (type : DataType)
    (h : offset < b.bytes.length) : (queuedPacket b offset type).Pending := by
  unfold queuedPacket
  split_ifs
  · exact ⟨_, rfl, rfl, h⟩
  · exact ⟨_, rfl, rfl, h⟩

/-- **`ape_socket_queue_data`** puts the packet behind all others. -/
theorem queueData_tidy (h : Tidy s.jobs ps) {b : Block} {offset : Nat} (type : DataType)
    (hoffset : offset < b.bytes.length) :
    Tidy (queueData b offset type s).jobs (ps ++ [queuedPacket b offset type]) := by
  have hlined := h.getD.push (queuedPacket_pending type hoffset)
  simp only [queueData, h.seek]
  exact ⟨h.before, fun _ => rfl, fun hidle => Bool.noConfusion hidle, Or.inr ⟨_, rfl, hlined⟩,
    h.others⟩

/-- The end of a round leaves an empty queue. -/
theorem finishJob_tidy (h : Tidy s.jobs []) : Tidy (finishJob s).jobs [] := by
  obtain ⟨⟨before, current, after⟩, hjobs⟩ : ∃ jobs, s.jobs = jobs := ⟨_, rfl⟩
  rw [hjobs] at h
  obtain rfl : before = [] := h.before
  rw [finishJob, hjobs]
  refine ⟨rfl, fun hactive => Bool.noConfusion hactive, fun _ => rfl, ?_, h.others⟩
  exact h.queue.imp (fun hnone => ⟨hnone.1, rfl⟩) id

/-- **`ape_socket_do_jobs` is one round**: behind the head no slot works. -/
theorem doJobs_eq (sys : System) (h : Tidy s.jobs ps)
    (hjob : ∃ ps', Tidy (doJob sys s).2.jobs ps' ∧ ((doJob sys s).1 = true → ps' = [])) :
    doJobs sys s =
      if s.jobs.head.active = false then s
      else if (doJob sys s).1 then finishJob (doJob sys s).2 else (doJob sys s).2 := by
  obtain ⟨ps', htidy, hempty⟩ := hjob
  have hlength : s.jobs.nodes.length = s.jobs.after.length + 1 := by
    rw [PoolList.nodes, h.before]
    rfl
  rw [doJobs, hlength, doJobsLoop]
  by_cases hidle : s.jobs.head.active = false
  · rw [if_pos hidle, if_pos hidle]
  rw [if_neg hidle, if_neg hidle]
  by_cases hfinished : (doJob sys s).1 = true
  · rw [if_pos hfinished, if_pos hfinished]
    obtain rfl := hempty hfinished
    have hhead : (finishJob (doJob sys s).2).jobs.head.active = false := by
      rw [(finishJob_tidy htidy).head]
      obtain ⟨⟨before, current, after⟩, hjobs⟩ : ∃ jobs, (doJob sys s).2.jobs = jobs := ⟨_, rfl⟩
      rw [hjobs] at htidy
      obtain rfl : before = [] := htidy.before
      rw [finishJob, hjobs]
      rfl
    rw [doJobsLoop, if_pos hhead]
  · rw [if_neg hfinished, if_neg hfinished]

end Ape.Ownership

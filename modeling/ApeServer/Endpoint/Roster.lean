import ApeServer.Endpoint.Blocking
import ApeServer.Socket.SlotTypes

/-!
# The jobs of a socket are a job list

Whatever happens to a socket, its jobs change by requests and by runs of `ape_socket_do_jobs` only.

* `Follows` — operations of the job list lead from the jobs of one state to those of another;
* `Works` — a round of `ape_socket_do_jobs` is one of the job list;
* `run_follows` — **the jobs behind a run of the socket are those behind a run of the job list**.
-/

namespace Ape.Endpoint

open Socket (PoolList JobSlot JobType JobPtr Packet Entry Roster RosterOp seek push packetLoop
  slots_getSlot slots_setPtr slots_finishEntry slots_setHeadSlot doRounds finishEntry work_packets
  work_file work_shutdown)

/-- From a list with the jobs of `s` operations lead to one with the jobs of `s'`. -/
def Follows (s s' : Sock) : Prop :=
  ∀ r : Roster, r.slots = s.jobs → ∃ ops : List RosterOp, (ops.foldl Roster.step r).slots = s'.jobs

theorem Follows.same {s s' : Sock} (h : s'.jobs = s.jobs) : Follows s s' :=
  fun _ hr => ⟨[], hr.trans h.symm⟩

theorem Follows.trans {s s' s'' : Sock} (h : Follows s s') (h' : Follows s' s'') :
    Follows s s'' := by
  intro r hr
  obtain ⟨ops, hops⟩ := h r hr
  obtain ⟨ops', hops'⟩ := h' _ hops
  exact ⟨ops ++ ops', by rw [List.foldl_append, hops']⟩

theorem Follows.still {s s' : Sock} (h : ∃ ev, Still s s' ev) : Follows s s' := by
  obtain ⟨ev, hstill⟩ := h
  exact .same hstill.jobs

/-! ## Requests -/

theorem getSlot_slots {r : Roster} {s : Sock} (hr : r.slots = s.jobs) (type : JobType) :
    (r.getSlot type).slots = (getSlot type s).jobs := by
  rw [slots_getSlot, hr]
  rfl

theorem setPtr_slots {r : Roster} {s : Sock} (hr : r.slots = s.jobs) (ptr : JobPtr) :
    (r.setPtr ptr).slots = (setPtr ptr s).jobs := by
  rw [slots_setPtr, hr]
  rfl

/-- `ape_socket_queue_data` is a queued write. -/
theorem queueData_follows (data : List UInt8) (offset : Nat) (s : Sock) :
    Follows s (queueData data offset s) := by
  intro r hr
  have hslot := getSlot_slots hr .writev
  have hptr : (r.getSlot .writev).jobs.current.slot.ptr = (getSlot .writev s).jobs.current.ptr := by
    rw [← hslot]
    rfl
  refine ⟨[.write data offset], ?_⟩
  simp only [List.foldl_cons, List.foldl_nil, Roster.step, Roster.queueData, queueData, hptr]
  cases (getSlot .writev s).jobs.current.ptr with
  | null => exact setPtr_slots hslot _
  | packets q => exact setPtr_slots hslot _
  | file rest => exact hslot

/-- Queueing a file is an operation of the job list. -/
theorem sendfile_follows (rest : List UInt8) (s : Sock) :
    Follows s (setPtr (.file rest) (getSlot .sendfile s.block)) :=
  fun _ hr => ⟨[.sendfile rest], setPtr_slots (getSlot_slots (s := s.block) hr .sendfile) _⟩

/-! ## Rounds -/

/-- What a round of `ape_socket_do_jobs` did is a round of the job list. -/
def Works (s s' : Sock) (finished : Bool) : Prop :=
  ∃ w : Socket.Round, (w.work s.jobs.head).1 = finished ∧
    s'.jobs = s.jobs.modifyHead fun _ => (w.work s.jobs.head).2

/-- Working off packets of a write job is a round of the job list. -/
theorem Works.packets {s s' : Sock} (hkind : s.jobs.head.kind = some .writev) {q : PoolList Packet}
    (hptr : s.jobs.head.ptr = .packets q) (q' : PoolList Packet) (finished : Bool)
    (hjobs : s'.jobs = s.jobs.modifyHead fun j => { j with ptr := .packets q' }) :
    Works s s' finished := by
  refine ⟨⟨q', [], finished⟩, ?_⟩
  rw [work_packets _ hkind hptr]
  exact ⟨rfl, hjobs.trans (PoolList.modifyHead_congr rfl)⟩

/-- The loop over the packets of a secure socket leaves the jobs alone. -/
theorem sslLoop_still (sys : System) (fuel : Nat) (q : PoolList Packet) (s : Sock) :
    ∃ ev, Still s (sslLoop sys fuel q s).2.2 ev := by
  induction fuel generalizing q s with
  | zero => exact ⟨[], .refl s⟩
  | succ fuel ih =>
    simp only [sslLoop]
    by_cases hnone : q.head.data.isNone = true
    · rw [if_pos hnone]
      exact ⟨[], .refl s⟩
    · rw [if_neg hnone]
      have hask := ask_still sys q.head.len s
      revert hask
      rcases ask sys q.head.len s with ⟨_ | _ | _ | _, s'⟩
      all_goals intro hask
      · obtain ⟨ev, hrest⟩ := ih (q.modifyHead fun p => { p with data := none }).headToQueue s'
        exact ⟨_, hask.trans hrest⟩
      · exact ⟨_, hask⟩
      · obtain ⟨ev, hrest⟩ := ih (q.modifyHead fun p => { p with data := none }).headToQueue s'
        exact ⟨_, hask.trans hrest⟩
      · exact ⟨_, hask⟩

/-- A round of a write job is a round of the job list. -/
theorem doWritev_works (sys : System) {s : Sock} (hkind : s.jobs.head.kind = some .writev) :
    Works s (doWritev sys s).2 (doWritev sys s).1 := by
  unfold doWritev
  split
  · rename_i q hptr
    have hset : ∀ s' q', s'.jobs = s.jobs → (setHead (fun j => { j with ptr := .packets q' }) s').jobs
        = s.jobs.modifyHead fun j => { j with ptr := .packets q' } := by
      intro s' q' hjobs
      rw [← hjobs]
      rfl
    by_cases hsecure : s.secure = true
    · rw [if_pos hsecure]
      obtain ⟨ev, hstill⟩ := sslLoop_still sys q.nodes.length q s
      have hjobs := hstill.jobs
      revert hjobs
      rcases sslLoop sys q.nodes.length q s with ⟨_ | _ | _, q', s'⟩
      all_goals intro hjobs
      · exact .packets hkind hptr q' _ (hset s' q' hjobs)
      · exact .packets hkind hptr q' _ (hset s' q' hjobs)
      · obtain ⟨ev', hforce⟩ :=
          shutdownForce_still sys (setHead (fun j => { j with ptr := .packets q' }) s')
        exact .packets hkind hptr q' _ (hforce.jobs.trans (hset s' q' hjobs))
    · rw [if_neg hsecure]
      have hjobs := (ask_still sys (chunks sys q) s).jobs
      -- a `writev` that fails leaves the queue
      have hsame : ∀ s' : Sock, s'.jobs = s.jobs → Works s s'.block false := by
        intro s' hjobs
        refine .packets hkind hptr q _ (hjobs.trans ?_)
        exact (PoolList.modifyHead_eq_self (by rw [← hptr])).symm
      revert hjobs
      rcases ask sys (chunks sys q) s with ⟨n | _ | _ | _, s'⟩
      · intro hjobs
        simp only
        split_ifs
        · exact .packets hkind hptr _ _ (hset s' _ hjobs)
        · exact .packets hkind hptr _ _ (hset s' _ hjobs)
      all_goals exact hsame s'
  · rename_i hnot
    refine ⟨⟨.init .fresh 7, [], false⟩, ?_⟩
    have hwork : Socket.Round.work ⟨.init .fresh 7, [], false⟩ s.jobs.head = (false, s.jobs.head) := by
      cases hptr : s.jobs.head.ptr with
      | packets q => exact absurd hptr (hnot q)
      | _ => simp only [Socket.Round.work, hkind, hptr]
    rw [hwork]
    exact ⟨rfl, (PoolList.modifyHead_eq_self rfl).symm⟩

/-- A round of a file job is a round of the job list. -/
theorem doSendfile_works (sys : System) {s : Sock} (hkind : s.jobs.head.kind = some .sendfile) :
    Works s (doSendfile sys s).2 (doSendfile sys s).1 := by
  unfold doSendfile
  split
  · rename_i rest hptr
    have hclose : ∀ s' : Sock, s'.jobs = s.jobs →
        Works s (setHead (fun j => { j with ptr := .null }) s') true := by
      intro s' hjobs
      refine ⟨⟨.init .fresh 7, [], true⟩, ?_⟩
      rw [work_file _ hkind hptr, setHead_jobs, hjobs]
      exact ⟨rfl, PoolList.modifyHead_congr rfl⟩
    obtain ⟨ev, hstill, -⟩ := sendfileLoop_still sys (rest.length + 1) rest s
    have hjobs := hstill.jobs
    revert hjobs
    rcases sendfileLoop sys (rest.length + 1) rest s with ⟨_ | _ | _, rest', s'⟩
    · exact hclose s'
    · intro hjobs
      refine ⟨⟨.init .fresh 7, rest', false⟩, ?_⟩
      rw [work_file _ hkind hptr]
      refine ⟨rfl, ?_⟩
      show (setHead (fun j => { j with ptr := .file rest' }) s').jobs = _
      rw [setHead_jobs, hjobs]
      exact PoolList.modifyHead_congr rfl
    · exact hclose s'
  · rename_i hnot
    refine ⟨⟨.init .fresh 7, [], false⟩, ?_⟩
    have hwork : Socket.Round.work ⟨.init .fresh 7, [], false⟩ s.jobs.head = (false, s.jobs.head) := by
      cases hptr : s.jobs.head.ptr with
      | file rest => exact absurd hptr (hnot rest)
      | _ => simp only [Socket.Round.work, hkind, hptr]
    rw [hwork]
    exact ⟨rfl, (PoolList.modifyHead_eq_self rfl).symm⟩

/-- **A run of `ape_socket_do_jobs`** is one of the job list. -/
theorem doJobsLoop_rounds (sys : System) (fuel : Nat) {s : Sock} {jobs : PoolList Entry}
    (h : jobs.map Entry.slot = s.jobs) :
    ∃ rounds, (doRounds rounds jobs).map Entry.slot = (doJobsLoop sys fuel s).jobs := by
  induction fuel generalizing s jobs with
  | zero => exact ⟨[], h⟩
  | succ fuel ih =>
    have hhead : jobs.head.slot = s.jobs.head := by rw [← h, PoolList.head_map]
    rw [doJobsLoop]
    by_cases hidle : s.jobs.head.active = false
    · rw [if_pos hidle]
      exact ⟨[], h⟩
    rw [if_neg hidle]
    -- one round, and the rest if it is finished
    have hround : ∀ s' finished, Works s s' finished → ∃ rounds,
        (doRounds rounds jobs).map Entry.slot =
          (if finished then doJobsLoop sys fuel (finishJob s') else s').jobs := by
      rintro s' finished ⟨w, hfinished, hjobs⟩
      have hstore : (w.store jobs).map Entry.slot = s'.jobs := by
        rw [Socket.Round.store, slots_setHeadSlot, h, hhead, hjobs]
      cases finished with
      | false =>
        refine ⟨[w], ?_⟩
        rw [doRounds, if_neg (by rwa [hhead]), if_neg (by rw [hhead, hfinished]; simp), hstore]
        rfl
      | true =>
        have hfinish : (finishEntry (w.store jobs)).map Entry.slot = (finishJob s').jobs := by
          rw [slots_finishEntry, hstore]
          rfl
        obtain ⟨rounds, hrest⟩ := ih hfinish
        refine ⟨w :: rounds, ?_⟩
        rw [doRounds, if_neg (by rwa [hhead]), if_pos (by rw [hhead, hfinished]), hrest]
        rfl
    split
    · rename_i hkind
      exact hround _ _ (doWritev_works sys hkind)
    · rename_i hkind
      exact hround _ _ (doSendfile_works sys hkind)
    · rename_i hkind
      have hjobs : (shutdownFd sys s).jobs = s.jobs := by
        unfold shutdownFd
        split_ifs
        · obtain ⟨ev, hstill⟩ := destroy_still { s.note .shutdown with calls := s.calls + 1 }
          exact hstill.jobs
        · rfl
      have hworks : Works s (shutdownFd sys s) false := by
        refine ⟨⟨.init .fresh 7, [], false⟩, ?_⟩
        rw [work_shutdown _ hkind]
        exact ⟨rfl, hjobs.trans (PoolList.modifyHead_eq_self rfl).symm⟩
      exact hround _ false hworks
    · rename_i hkind
      refine hround s true ⟨⟨.init .fresh 7, [], false⟩, ?_⟩
      simp only [Socket.Round.work, hkind]
      exact ⟨trivial, (PoolList.modifyHead_eq_self rfl).symm⟩

theorem doJobs_follows (sys : System) (s : Sock) : Follows s (doJobs sys s) := by
  intro r hr
  obtain ⟨rounds, hrounds⟩ := doJobsLoop_rounds sys (s.jobs.nodes.length + 1) hr
  exact ⟨[.doJobs rounds], hrounds⟩

/-! ## Runs -/

/-- `APE_socket_write` queues the data or leaves the jobs alone. -/
theorem apeSocketWrite_follows (sys : System) (data : List UInt8) (s : Sock) :
    Follows s (apeSocketWrite sys data s) := by
  have hforce : ∀ s', s'.jobs = s.jobs → Follows s (shutdownForce sys s') := by
    intro s' hjobs
    obtain ⟨ev, hstill⟩ := shutdownForce_still sys s'
    exact .same (hstill.jobs.trans hjobs)
  have hqueue : ∀ (s' : Sock) offset, s'.jobs = s.jobs → Follows s (queueData data offset s'.block) := by
    intro s' offset hjobs
    have hblock : Follows s s'.block := .same hjobs
    exact hblock.trans (queueData_follows data offset _)
  unfold apeSocketWrite
  split_ifs
  · exact .same rfl
  · exact queueData_follows data 0 s
  · have hjobs := (ask_still sys data.length s).jobs
    revert hjobs
    rcases ask sys data.length s with ⟨_ | _ | _ | _, s'⟩
    · exact fun hjobs => .same hjobs
    · exact hqueue s' 0
    · exact fun hjobs => .same hjobs
    · exact hforce s'
  · obtain ⟨ev, hstill, -⟩ := writeLoop_still sys data.length data s
    have hjobs := hstill.jobs
    revert hjobs
    rcases writeLoop sys data.length data s with ⟨_ | _ | _, rest, s'⟩
    · exact fun hjobs => .same hjobs
    · exact hqueue s' _
    · exact hforce s'

/-- `APE_sendfile` moves the ring of jobs by operations of the roster. -/
theorem apeSendfile_follows (sys : System) (content : List UInt8) (s : Sock) :
    Follows s (apeSendfile sys content s) := by
  unfold apeSendfile
  split_ifs
  · exact .same rfl
  · exact sendfile_follows content s
  · obtain ⟨ev, hstill, -⟩ := sendfileLoop_still sys (content.length + 1) content s
    have hjobs := hstill.jobs
    revert hjobs
    rcases sendfileLoop sys (content.length + 1) content s with ⟨_ | _ | _, rest, s'⟩
    · exact fun hjobs => .same hjobs
    · exact fun hjobs => (Follows.same hjobs).trans (sendfile_follows rest s')
    · exact fun hjobs => .same hjobs

/-- `APE_socket_shutdown` queues the shutdown or leaves the jobs alone. -/
theorem apeSocketShutdown_follows (sys : System) (s : Sock) :
    Follows s (apeSocketShutdown sys s) := by
  unfold apeSocketShutdown
  split_ifs
  · exact .same rfl
  · exact fun r hr => ⟨[.shutdown], getSlot_slots hr .shutdown⟩
  · unfold shutdownFd
    split_ifs
    · obtain ⟨ev, hstill⟩ := destroy_still { s.note .shutdown with calls := s.calls + 1 }
      exact .same hstill.jobs
    · exact .same rfl

/-- **One step** of a socket is operations of the job list. -/
theorem step_follows (sys : System) (s : Sock) (l : Label) : Follows s (step sys s l) := by
  have hdestroy : ∀ s' : Sock, s'.jobs = s.jobs → Follows s (destroy s') := by
    intro s' hjobs
    obtain ⟨ev, hstill⟩ := destroy_still s'
    exact .same (hstill.jobs.trans hjobs)
  unfold step
  by_cases hallows : s.allows l = true
  swap
  · rw [if_neg hallows]
    exact .same rfl
  rw [if_pos hallows]
  cases l with
  | write data => exact apeSocketWrite_follows sys data s
  | sendfile content => exact apeSendfile_follows sys content s
  | shutdown => exact apeSocketShutdown_follows sys s
  | destroy => exact hdestroy s rfl
  | connect port =>
    simp only [Label.exec, apeSocketConnect]
    split_ifs
    · exact hdestroy s rfl
    · exact .same rfl
  | lookedUp resolved =>
    simp only [Label.exec, connectReady]
    split_ifs
    · exact hdestroy _ rfl
    · split
      · exact .same rfl
      · exact hdestroy _ rfl
  | clear => exact .same rfl
  | read nread e => exact .still (apeSocketRead_still sys nread e s)
  | doJobs => exact doJobs_follows sys s
  | work =>
    simp only [Label.exec, work]
    split_ifs
    · exact doJobs_follows sys s
    all_goals exact .same rfl
  | ret => exact .still (ret_still s)

/-- **The jobs behind a run of a socket are those behind a run of the job list**, whatever the
system answers and the callbacks do. -/
theorem run_follows (sys : System) (state : SocketState) (secure r c d : Bool) (ls : List Label) :
    ∃ ops, (Roster.run ops).slots = (run sys (Sock.new state secure r c d) ls).jobs := by
  have hfollows : ∀ s, Follows s (run sys s ls) := by
    induction ls with
    | nil => exact fun s => .same rfl
    | cons l ls ih => exact fun s => (step_follows sys s l).trans (ih (step sys s l))
  exact hfollows _ Roster.init (PoolList.map_init Entry.slot Entry.fresh 1)

end Ape.Endpoint

import ApeServer.Socket.Jobs

/-!
# What one job sends

The loops that hand bytes to the kernel take them off the front of what is waiting, whether it is
the data of one call, a packet queue or a file.

* `Sent` — nothing has happened but that the kernel has accepted some bytes;
* `writeLoop_sent`, `sendfileLoop_sent` — the loops of the calls;
* `packetLoop_ok`, `QueueOk.chunks` — a `writev` takes the bytes off the packet queue;
* `writeLoop_more`, `sendfileLoop_more`, `doJobsLoop_more` — the fuel of the loops suffices.
-/

namespace Ape.Socket

/-! ## Accepted bytes -/

/-- The bytes accepted according to a log. -/
def accepted (log : List SocketEvent) : List UInt8 :=
  log.flatMap fun
    | .accepted bytes => bytes
    | _ => []

@[simp] theorem accepted_nil : accepted [] = [] := rfl

@[simp] theorem accepted_append (log log' : List SocketEvent) :
    accepted (log ++ log') = accepted log ++ accepted log' := List.flatMap_append

/-! ## The packets of a job -/

/-- The packets stand before `current`; it and all behind it are free. -/
structure QueueOk (q : PoolList Packet) : Prop where
  full : ∀ p ∈ q.before, ∃ data, p.data = some data ∧ p.len = data.length
  free : q.current.data = none ∧ ∀ p ∈ q.after, p.data = none

/-- The bytes of a packet queue. -/
def queueBytes (q : PoolList Packet) : List UInt8 := q.nodes.flatMap Packet.rest

theorem Packet.rest_of_none {p : Packet} (h : p.data = none) : p.rest = [] := by
  simp [Packet.rest, h]

/-- Only the packets before `current` count. -/
theorem QueueOk.bytes {q : PoolList Packet} (h : QueueOk q) :
    queueBytes q = q.before.flatMap Packet.rest := by
  have hafter : q.after.flatMap Packet.rest = [] :=
    List.flatMap_eq_nil_iff.2 fun p hp => Packet.rest_of_none (h.free.2 p hp)
  rw [queueBytes, PoolList.nodes, List.flatMap_append, List.flatMap_cons,
    Packet.rest_of_none h.free.1, hafter]
  simp

theorem queueOk_init : QueueOk (.init .fresh 7) := by
  refine ⟨by simp [PoolList.init], rfl, fun p hp => ?_⟩
  rw [List.eq_of_mem_replicate hp]
  rfl

theorem queueBytes_init : queueBytes (.init .fresh 7) = [] := by
  rw [queueOk_init.bytes]
  rfl

/-- A packet is queued behind the others. -/
theorem push_ok {q : PoolList Packet} (h : QueueOk q) (data : List UInt8) (offset : Nat) :
    QueueOk (push data offset q) ∧
      queueBytes (push data offset q) = queueBytes q ++ data.drop offset := by
  have hshape : ∃ a as, push data offset q =
      ⟨q.before ++ [⟨some data, data.length, offset⟩], a, as⟩ ∧ a.data = none ∧
        ∀ p ∈ as, p.data = none := by
    obtain ⟨before, current, after⟩ := q
    cases after with
    | nil =>
      refine ⟨.fresh, List.replicate 7 .fresh, rfl, rfl, fun p hp => ?_⟩
      rw [List.eq_of_mem_replicate hp]
      rfl
    | cons a as =>
      have hfree := h.free.2
      exact ⟨a, as, rfl, hfree a (List.mem_cons_self ..),
        fun p hp => hfree p (List.mem_cons_of_mem _ hp)⟩
  obtain ⟨a, as, heq, ha, has⟩ := hshape
  have hok : QueueOk (push data offset q) := by
    rw [heq]
    refine ⟨fun p hp => ?_, ha, has⟩
    rcases List.mem_append.1 hp with hp | hp
    · exact h.full p hp
    · rw [List.mem_singleton.1 hp]
      exact ⟨data, rfl, rfl⟩
  refine ⟨hok, ?_⟩
  rw [hok.bytes, h.bytes, heq]
  simp [Packet.rest]

/-- One round of the loop, on a queue whose first packet is `p`. -/
theorem packetLoop_cons {p : Packet} (hsome : p.data.isNone = false) (fuel n : Nat)
    (bs : List Packet) (current : Packet) (after : List Packet) :
    packetLoop (fuel + 1) n ⟨p :: bs, current, after⟩ =
      if n < p.len - p.offset then ⟨{ p with offset := p.offset + n } :: bs, current, after⟩
      else if n = p.len - p.offset then ⟨bs, current, after ++ [{ p with data := none }]⟩
      else packetLoop fuel (n - (p.len - p.offset))
        ⟨bs, current, after ++ [{ p with data := none }]⟩ := by
  show (if p.data.isNone = true then _ else _) = _
  rw [if_neg (by simp [hsome])]
  rfl

/-- A packet that is sent is freed behind the others. -/
theorem QueueOk.pop {p : Packet} {bs after : List Packet} {current : Packet}
    (h : QueueOk ⟨p :: bs, current, after⟩) :
    QueueOk ⟨bs, current, after ++ [{ p with data := none }]⟩ := by
  refine ⟨fun x hx => h.full x (List.mem_cons_of_mem _ hx), h.free.1, fun x hx => ?_⟩
  rcases List.mem_append.1 hx with hx | hx
  · exact h.free.2 x hx
  · rw [List.mem_singleton.1 hx]

/-- **The accepted bytes come off the front of the queue.** -/
theorem packetLoop_ok {q : PoolList Packet} (h : QueueOk q) (fuel : Nat)
    (hfuel : q.before.length ≤ fuel) (n : Nat) :
    QueueOk (packetLoop fuel n q) ∧
      queueBytes (packetLoop fuel n q) = (queueBytes q).drop n := by
  induction fuel generalizing q n with
  | zero =>
    have hnil : q.before = [] := List.length_eq_zero_iff.1 (Nat.le_zero.1 hfuel)
    refine ⟨h, ?_⟩
    rw [packetLoop, h.bytes, hnil]
    simp
  | succ fuel ih =>
    obtain ⟨before, current, after⟩ := q
    cases before with
    | nil =>
      have hfree : current.data = none := h.free.1
      have hsame : packetLoop (fuel + 1) n ⟨[], current, after⟩ = ⟨[], current, after⟩ := by
        simp [packetLoop, PoolList.head, hfree]
      rw [hsame]
      refine ⟨h, ?_⟩
      rw [h.bytes]
      simp
    | cons p bs =>
      obtain ⟨data, hdata, hlen⟩ := h.full p (List.mem_cons_self ..)
      have hrest : p.rest = data.drop p.offset := by simp [Packet.rest, hdata]
      have hleft : p.rest.length = p.len - p.offset := by rw [hrest, List.length_drop, hlen]
      rw [packetLoop_cons (by simp [hdata])]
      by_cases hshort : n < p.len - p.offset
      · -- the packet is not finished
        rw [if_pos hshort]
        have hok : QueueOk ⟨{ p with offset := p.offset + n } :: bs, current, after⟩ := by
          refine ⟨fun x hx => ?_, h.free⟩
          rcases List.mem_cons.1 hx with rfl | hx
          · exact ⟨data, hdata, hlen⟩
          · exact h.full x (List.mem_cons_of_mem _ hx)
        refine ⟨hok, ?_⟩
        rw [hok.bytes, h.bytes]
        simp only [List.flatMap_cons]
        rw [List.drop_append_of_le_length (by omega), hrest, List.drop_drop]
        simp [Packet.rest, hdata]
      · rw [if_neg hshort]
        have hok := h.pop
        have hbytes : (queueBytes ⟨p :: bs, current, after⟩).drop n =
            (queueBytes ⟨bs, current, after ++ [{ p with data := none }]⟩).drop
              (n - (p.len - p.offset)) := by
          rw [hok.bytes, h.bytes]
          simp only [List.flatMap_cons]
          rw [List.drop_append, hleft, List.drop_of_length_le (by omega), List.nil_append]
        by_cases hend : n = p.len - p.offset
        · rw [if_pos hend, hbytes, hend, Nat.sub_self, List.drop_zero]
          exact ⟨hok, rfl⟩
        · rw [if_neg hend, hbytes]
          exact ih hok (by simpa using hfuel) _

/-- When the head is free there is nothing left. -/
theorem QueueOk.empty {q : PoolList Packet} (h : QueueOk q) (hhead : q.head.data = none) :
    q.before = [] := by
  obtain ⟨before, current, after⟩ := q
  cases before with
  | nil => rfl
  | cons p bs =>
    obtain ⟨data, hdata, -⟩ := h.full p (List.mem_cons_self ..)
    rw [PoolList.head, hdata] at hhead
    exact absurd hhead (Option.some_ne_none data)

/-- The packets that wait are those before `current`. -/
theorem QueueOk.waiting {q : PoolList Packet} (h : QueueOk q) :
    q.nodes.takeWhile (fun p => p.data.isSome) = q.before := by
  rw [PoolList.nodes, List.takeWhile_append_of_pos fun p hp => ?_]
  · simp [h.free.1]
  · obtain ⟨data, hdata, -⟩ := h.full p hp
    simp [hdata]

/-- What a `writev` offers is the front of the queue. -/
theorem QueueOk.chunks {q : PoolList Packet} (h : QueueOk q) (k : Kernel) :
    chunks k q <+: queueBytes q := by
  rw [Socket.chunks, h.waiting, h.bytes]
  exact ⟨(q.before.drop k.maxChunks).flatMap Packet.rest, by
    rw [← List.flatMap_append, List.take_append_drop]⟩

/-! ## The kernel calls -/

/-- From `s` to `s'` nothing has happened but that the kernel has accepted `done`. -/
structure Sent (s s' : ApeSocket) (done : List UInt8) : Prop where
  online : s'.online = s.online
  wouldBlock : s'.wouldBlock = s.wouldBlock
  jobs : s'.jobs = s.jobs
  log : ∃ ev, s'.log = s.log ++ ev ∧ accepted ev = done ∧ ∀ e ∈ ev, ∃ bytes, e = .accepted bytes

theorem Sent.refl (s : ApeSocket) : Sent s s [] := ⟨rfl, rfl, rfl, [], by simp⟩

theorem Sent.trans {s s' s'' : ApeSocket} {done done' : List UInt8} (h : Sent s s' done)
    (h' : Sent s' s'' done') : Sent s s'' (done ++ done') := by
  obtain ⟨ev, hlog, hdone, hev⟩ := h.log
  obtain ⟨ev', hlog', hdone', hev'⟩ := h'.log
  refine ⟨h'.online.trans h.online, h'.wouldBlock.trans h.wouldBlock, h'.jobs.trans h.jobs,
    ev ++ ev', ?_, ?_, fun e he => ?_⟩
  · rw [hlog', hlog, List.append_assoc]
  · rw [accepted_append, hdone, hdone']
  · exact (List.mem_append.1 he).elim (hev e) (hev' e)

/-- A call that is not refused takes a prefix of what it is offered. -/
theorem offer_some {k : Kernel} {bytes : List UInt8} {s s' : ApeSocket} {n : Nat}
    (h : offer k bytes s = (some n, s')) :
    Sent s s' (bytes.take n) ∧ (bytes ≠ [] → 1 ≤ n) ∧ n ≤ bytes.length := by
  unfold offer at h
  cases ha : k.answer s.calls with
  | eagain => simp [ha, Answer.count] at h
  | accepts m =>
    simp only [ha, Answer.count, Prod.mk.injEq, Option.some.injEq] at h
    obtain ⟨rfl, rfl⟩ := h
    refine ⟨⟨rfl, rfl, rfl, _, rfl, by simp [accepted], by simp⟩, fun hne => ?_, by omega⟩
    have := List.length_pos_iff.2 hne
    omega

/-- A call that is refused changes nothing. -/
theorem offer_none {k : Kernel} {bytes : List UInt8} {s s' : ApeSocket}
    (h : offer k bytes s = (none, s')) : Sent s s' [] := by
  unfold offer at h
  cases ha : k.answer s.calls with
  | eagain =>
    simp only [ha, Answer.count, Prod.mk.injEq, true_and] at h
    obtain rfl := h
    exact ⟨rfl, rfl, rfl, [], by simp⟩
  | accepts m => simp [ha, Answer.count] at h

/-- The loop of `APE_socket_write` sends the front of the data. -/
theorem writeLoop_sent (k : Kernel) (fuel : Nat) (rest : List UInt8) (s : ApeSocket) :
    ∃ done, rest = done ++ (writeLoop k fuel rest s).1 ∧
      Sent s (writeLoop k fuel rest s).2 done := by
  induction fuel generalizing rest s with
  | zero => exact ⟨[], rfl, .refl s⟩
  | succ fuel ih =>
    simp only [writeLoop]
    by_cases hnil : rest = []
    · rw [if_pos hnil]
      exact ⟨[], rfl, .refl s⟩
    · rw [if_neg hnil]
      rcases hoffer : offer k rest s with ⟨_ | n, s'⟩
      · exact ⟨[], rfl, offer_none hoffer⟩
      · obtain ⟨hsent, -, -⟩ := offer_some hoffer
        obtain ⟨done, hdone, hsent'⟩ := ih (rest.drop n) s'
        refine ⟨rest.take n ++ done, ?_, hsent.trans hsent'⟩
        rw [List.append_assoc, ← hdone, List.take_append_drop]

/-- The loop over `sendfile` sends the front of the file, all of it unless it blocks. -/
theorem sendfileLoop_sent (k : Kernel) (fuel : Nat) (rest : List UInt8) (s : ApeSocket) :
    ∃ done, rest = done ++ (sendfileLoop k fuel rest s).2.1 ∧
      Sent s (sendfileLoop k fuel rest s).2.2 done ∧
      ((sendfileLoop k fuel rest s).1 = false → (sendfileLoop k fuel rest s).2.1 = []) := by
  induction fuel generalizing rest s with
  | zero => exact ⟨[], rfl, .refl s, fun h => Bool.noConfusion h⟩
  | succ fuel ih =>
    simp only [sendfileLoop]
    rcases hoffer : offer k (rest.take 4096) s with ⟨_ | n, s'⟩
    · exact ⟨[], rfl, offer_none hoffer, fun h => Bool.noConfusion h⟩
    · obtain ⟨hsent, hpos, hle⟩ := offer_some hoffer
      simp only
      by_cases hzero : n = 0
      · rw [if_pos hzero]
        have hend : rest = [] := by
          by_contra hne
          have := hpos (by simpa using hne)
          omega
        subst hzero
        exact ⟨[], rfl, by simpa using hsent, fun _ => hend⟩
      · rw [if_neg hzero]
        obtain ⟨done, hdone, hsent', hall⟩ := ih (rest.drop n) s'
        have htake : (rest.take 4096).take n = rest.take n := by
          rw [List.take_take, min_eq_left]
          rw [List.length_take] at hle
          omega
        rw [htake] at hsent
        refine ⟨rest.take n ++ done, ?_, hsent.trans hsent', hall⟩
        rw [List.append_assoc, ← hdone, List.take_append_drop]

/-! ## The fuel suffices -/

/-- The loop of `APE_socket_write` ends within one round for each byte. -/
theorem writeLoop_more (k : Kernel) {fuel : Nat} {rest : List UInt8} {s : ApeSocket}
    (hfuel : rest.length ≤ fuel) : writeLoop k (fuel + 1) rest s = writeLoop k fuel rest s := by
  induction fuel generalizing rest s with
  | zero =>
    rw [List.length_eq_zero_iff.1 (Nat.le_zero.1 hfuel)]
    rfl
  | succ fuel ih =>
    rw [writeLoop, writeLoop]
    by_cases hnil : rest = []
    · rw [if_pos hnil, if_pos hnil]
    · rw [if_neg hnil, if_neg hnil]
      rcases hoffer : offer k rest s with ⟨_ | n, s'⟩
      · rfl
      · have hpos := (offer_some hoffer).2.1 hnil
        exact ih (by rw [List.length_drop]; omega)

/-- The loop over `sendfile` ends within one round for each byte and one for the end. -/
theorem sendfileLoop_more (k : Kernel) {fuel : Nat} {rest : List UInt8} {s : ApeSocket}
    (hfuel : rest.length < fuel) :
    sendfileLoop k (fuel + 1) rest s = sendfileLoop k fuel rest s := by
  induction fuel generalizing rest s with
  | zero => omega
  | succ fuel ih =>
    rw [sendfileLoop, sendfileLoop]
    rcases hoffer : offer k (rest.take 4096) s with ⟨_ | n, s'⟩
    · rfl
    · simp only
      by_cases hzero : n = 0
      · rw [if_pos hzero, if_pos hzero]
      · rw [if_neg hzero, if_neg hzero]
        have hle := (offer_some hoffer).2.2
        rw [List.length_take] at hle
        exact ih (by rw [List.length_drop]; omega)

/-- The loop over the packets ends within one round for each packet. -/
theorem packetLoop_more {q : PoolList Packet} (h : QueueOk q) {fuel : Nat}
    (hfuel : q.before.length ≤ fuel) (n : Nat) :
    packetLoop (fuel + 1) n q = packetLoop fuel n q := by
  induction fuel generalizing q n with
  | zero =>
    obtain ⟨before, current, after⟩ := q
    obtain rfl : before = [] := List.length_eq_zero_iff.1 (Nat.le_zero.1 hfuel)
    have hfree : current.data = none := h.free.1
    simp [packetLoop, PoolList.head, hfree]
  | succ fuel ih =>
    obtain ⟨before, current, after⟩ := q
    cases before with
    | nil =>
      have hfree : current.data = none := h.free.1
      simp [packetLoop, PoolList.head, hfree]
    | cons p bs =>
      obtain ⟨data, hdata, -⟩ := h.full p (List.mem_cons_self ..)
      have hok := h.pop
      rw [packetLoop_cons (by simp [hdata]), packetLoop_cons (by simp [hdata]),
        ih hok (by simpa using hfuel)]

/-- The active slots of a ring. -/
def activeCount (jobs : PoolList JobSlot) : Nat := jobs.nodes.countP JobSlot.active

theorem activeCount_modifyHead {jobs : PoolList JobSlot} {f : JobSlot → JobSlot}
    (hf : (f jobs.head).active = jobs.head.active) :
    activeCount (jobs.modifyHead f) = activeCount jobs := by
  obtain ⟨rest, hnodes, hmodify⟩ := jobs.nodes_eq_head_cons
  simp [activeCount, hnodes, hmodify, List.countP_cons, hf]

/-- A slot that becomes idle at the end of a round is one active slot less. -/
theorem activeCount_finish {jobs : PoolList JobSlot} (hactive : jobs.head.active = true) :
    activeCount (jobs.modifyHead fun j => { j with active := false }).headToCurrent + 1 =
      activeCount jobs := by
  have hperm : activeCount (jobs.modifyHead fun j => { j with active := false }).headToCurrent =
      activeCount (jobs.modifyHead fun j => { j with active := false }) :=
    (PoolList.nodes_headToCurrent _).countP_eq _
  obtain ⟨rest, hnodes, hmodify⟩ := jobs.nodes_eq_head_cons
  rw [hperm]
  simp [activeCount, hnodes, hmodify, hactive]

/-- A finished job is one active slot less. -/
theorem activeCount_finishJob {s : ApeSocket} (hactive : s.jobs.head.active = true) :
    activeCount (finishJob s).jobs + 1 = activeCount s.jobs := activeCount_finish hactive

/-- A `writev` changes no flag. -/
theorem doWritev_jobs (k : Kernel) (s : ApeSocket) :
    ∃ ptr, (doWritev k s).2.jobs = s.jobs.modifyHead fun j => { j with ptr } := by
  have hsame : s.jobs = s.jobs.modifyHead fun j => { j with ptr := s.jobs.head.ptr } :=
    (PoolList.modifyHead_eq_self rfl).symm
  unfold doWritev
  split
  · rename_i q _
    rcases hoffer : offer k (chunks k q) s with ⟨_ | n, s'⟩
    · exact ⟨_, (offer_none hoffer).jobs.trans hsame⟩
    · have hjobs := (offer_some hoffer).1.jobs
      refine ⟨.packets (packetLoop q.nodes.length n q), ?_⟩
      rw [← hjobs]
      simp only
      split <;> rfl
  · exact ⟨_, hsame⟩

/-- A `sendfile` changes the pointer of the first job and no other slot. -/
theorem doSendfile_jobs (k : Kernel) (s : ApeSocket) :
    ∃ ptr, (doSendfile k s).2.jobs = s.jobs.modifyHead fun j => { j with ptr } := by
  have hsame : s.jobs = s.jobs.modifyHead fun j => { j with ptr := s.jobs.head.ptr } :=
    (PoolList.modifyHead_eq_self rfl).symm
  unfold doSendfile
  split
  · rename_i rest _
    obtain ⟨done, -, hsent, -⟩ := sendfileLoop_sent k (rest.length + 1) rest s
    have hjobs := hsent.jobs
    revert hjobs
    rcases sendfileLoop k (rest.length + 1) rest s with ⟨_ | _, rest', s'⟩
    · exact fun hjobs => ⟨.null, by rw [← hjobs]; rfl⟩
    · exact fun hjobs => ⟨.file rest', by rw [← hjobs]; rfl⟩
  · exact ⟨_, hsame⟩

/-- The loop of `ape_socket_do_jobs` ends within one round for each active slot and one more. -/
theorem doJobsLoop_more (k : Kernel) {fuel : Nat} {s : ApeSocket}
    (hfuel : activeCount s.jobs < fuel) : doJobsLoop k (fuel + 1) s = doJobsLoop k fuel s := by
  induction fuel generalizing s with
  | zero => omega
  | succ fuel ih =>
    rw [doJobsLoop]
    conv_rhs => rw [doJobsLoop]
    by_cases hidle : s.jobs.head.active = false
    · rw [if_pos hidle, if_pos hidle]
    rw [if_neg hidle, if_neg hidle]
    -- what is worked off is the head, so a finished job leaves one active slot less
    have hround : ∀ s' : ApeSocket, (∃ ptr, s'.jobs = s.jobs.modifyHead fun j => { j with ptr }) →
        doJobsLoop k (fuel + 1) (finishJob s') = doJobsLoop k fuel (finishJob s') := by
      rintro s' ⟨ptr, hjobs⟩
      have hcount : activeCount s'.jobs = activeCount s.jobs := by
        rw [hjobs]
        exact activeCount_modifyHead rfl
      have hhead : s'.jobs.head.active = true := by
        rw [hjobs, PoolList.head_modifyHead]
        simpa using hidle
      have := activeCount_finishJob hhead
      exact ih (by omega)
    split
    · obtain hjobs := doWritev_jobs k s
      simp only [hround _ hjobs]
    · obtain hjobs := doSendfile_jobs k s
      simp only [hround _ hjobs]
    · rfl
    · exact hround s ⟨s.jobs.head.ptr, (PoolList.modifyHead_eq_self rfl).symm⟩

end Ape.Socket

import ApeServer.Endpoint.Calls
import ApeServer.Socket.Sending

/-!
# The slots of a socket that is never shut down through its jobs

What the ring of jobs looks like between two steps: every active slot points to what its type needs,
every packet that waits has bytes left, and, as long as no slot is taken behind an idle one, the
active slots stand at the head.

* `FullQueue` — a packet queue whose packets all have bytes left;
* `SlotOk` — a slot whose pointer fits its type bits;
* `ActiveRing` — the active slots stand at the head, and `current` is the last of them or idle;
* `activeRing_take`, `activeRing_finish` — the moves of the ring keep it.
-/

namespace Ape.Endpoint

open Socket (PoolList JobSlot JobType JobPtr Packet seek push packetLoop QueueOk queueBytes
  packetLoop_cons packetLoop_ok push_ok queueOk_init)

/-! ## Packet queues -/

/-- Every packet that waits has bytes left. -/
structure FullQueue (q : PoolList Packet) : Prop where
  ok : QueueOk q
  left : ∀ p ∈ q.before, p.offset < p.len

theorem fullQueue_init : FullQueue (.init .fresh 7) := ⟨queueOk_init, by simp [PoolList.init]⟩

theorem FullQueue.push {q : PoolList Packet} (h : FullQueue q) {data : List UInt8} {offset : Nat}
    (hoffset : offset < data.length) : FullQueue (push data offset q) := by
  refine ⟨(push_ok h.ok data offset).1, ?_⟩
  have hbefore : (Socket.push data offset q).before =
      q.before ++ [⟨some data, data.length, offset⟩] := by
    obtain ⟨before, current, after⟩ := q
    cases after <;> rfl
  rw [hbefore]
  intro p hp
  rcases List.mem_append.1 hp with hp | hp
  · exact h.left p hp
  · rw [List.mem_singleton.1 hp]
    exact hoffset

/-- The accepted bytes come off the front, and what is left has bytes left. -/
theorem FullQueue.loop {q : PoolList Packet} (h : FullQueue q) (fuel : Nat)
    (hfuel : q.before.length ≤ fuel) (n : Nat) : FullQueue (packetLoop fuel n q) := by
  refine ⟨(packetLoop_ok h.ok fuel hfuel n).1, ?_⟩
  induction fuel generalizing q n with
  | zero => exact h.left
  | succ fuel ih =>
    obtain ⟨before, current, after⟩ := q
    cases before with
    | nil =>
      have hfree : current.data = none := h.ok.free.1
      have hsame : Socket.packetLoop (fuel + 1) n ⟨[], current, after⟩ = ⟨[], current, after⟩ := by
        simp [Socket.packetLoop, PoolList.head, hfree]
      rw [hsame]
      exact h.left
    | cons p bs =>
      obtain ⟨data, hdata, -⟩ := h.ok.full p (List.mem_cons_self ..)
      obtain ⟨hp, hbs⟩ := List.forall_mem_cons.1 h.left
      rw [packetLoop_cons (by simp [hdata])]
      by_cases hshort : n < p.len - p.offset
      · rw [if_pos hshort]
        exact List.forall_mem_cons.2 ⟨show p.offset + n < p.len by omega, hbs⟩
      · rw [if_neg hshort]
        by_cases hend : n = p.len - p.offset
        · rw [if_pos hend]
          exact hbs
        · rw [if_neg hend]
          exact ih ⟨h.ok.pop, hbs⟩ (by simpa using hfuel) _

/-- A queue whose packets have bytes left is empty when no bytes are. -/
theorem FullQueue.empty {q : PoolList Packet} (h : FullQueue q) (hbytes : queueBytes q = []) :
    q.head.data.isSome = false := by
  obtain ⟨before, current, after⟩ := q
  cases before with
  | nil =>
    show current.data.isSome = false
    rw [h.ok.free.1]
    rfl
  | cons p bs =>
    obtain ⟨data, hdata, hlen⟩ := h.ok.full p (List.mem_cons_self ..)
    have hleft := h.left p (List.mem_cons_self ..)
    rw [h.ok.bytes, List.flatMap_cons, List.append_eq_nil_iff] at hbytes
    have hnil := hbytes.1
    rw [Packet.rest, hdata, List.drop_eq_nil_iff] at hnil
    omega

/-- **A `writev` that takes all of a queue** it covers leaves nothing. -/
theorem FullQueue.all {q : PoolList Packet} (h : FullQueue q) {sys : System}
    (hcovered : (waiting q).length ≤ sys.maxChunks) :
    (packetLoop q.nodes.length (chunks sys q) q).head.data.isSome = false := by
  have hfuel : q.before.length ≤ q.nodes.length := by
    rw [PoolList.nodes, List.length_append]
    omega
  apply (h.loop _ hfuel _).empty
  rw [(packetLoop_ok h.ok _ hfuel _).2, chunks, List.take_of_length_le hcovered, waiting,
    h.ok.waiting, h.ok.bytes, List.drop_length]

/-! ## Slots -/

/-- The pointer of a slot fits its type bits, and the slot is not for a shutdown. -/
structure SlotOk (j : JobSlot) : Prop where
  writev : j.active = true → j.kind = some .writev → ∃ q, j.ptr = .packets q
  queue : ∀ q, j.ptr = .packets q → FullQueue q
  sendfile : j.active = true → j.kind = some .sendfile → ∃ rest, j.ptr = .file rest
  file : ∀ rest, j.ptr = .file rest → j.sendfile = true
  shutdown : j.shutdown = false

theorem slotOk_fresh : SlotOk .fresh :=
  ⟨fun h => Bool.noConfusion h, fun _ h => JobPtr.noConfusion h, fun h => Bool.noConfusion h,
    fun _ h => JobPtr.noConfusion h, rfl⟩

/-- A slot that no longer works is well formed. -/
theorem SlotOk.idle {j : JobSlot} (h : SlotOk j) : SlotOk { j with active := false } :=
  ⟨fun hactive => Bool.noConfusion hactive, h.queue, fun hactive => Bool.noConfusion hactive,
    h.file, h.shutdown⟩

/-- A slot of one type has no other type bit. -/
theorem kind_eq_some {j : JobSlot} :
    (j.kind = some .writev → j.writev = true ∧ j.sendfile = false) ∧
      (j.kind = some .sendfile → j.sendfile = true ∧ j.writev = false) ∧
      (j.kind = some .shutdown → j.shutdown = true) := by
  obtain ⟨active, writev, sendfile, shutdown, ptr⟩ := j
  cases writev <;> cases sendfile <;> cases shutdown <;> simp [JobSlot.kind]

/-- A slot that points to a packet queue. -/
theorem slotOk_packets {j : JobSlot} (hshutdown : j.shutdown = false) (hwritev : j.writev = true)
    {q : PoolList Packet} (hq : FullQueue q) : SlotOk { j with ptr := .packets q } := by
  refine ⟨fun _ _ => ⟨q, rfl⟩, fun q' hq' => ?_, fun _ hkind => ?_,
    fun _ hfile => JobPtr.noConfusion hfile, hshutdown⟩
  · obtain rfl : q = q' := JobPtr.packets.inj hq'
    exact hq
  · have hnot := (kind_eq_some.2.1 hkind).2
    rw [show ({ j with ptr := .packets q } : JobSlot).writev = j.writev from rfl, hwritev] at hnot
    exact Bool.noConfusion hnot

/-- A slot with the bit of a file may point to one. -/
theorem slotOk_file {j : JobSlot} (hshutdown : j.shutdown = false) (hsendfile : j.sendfile = true)
    (rest : List UInt8) : SlotOk { j with ptr := .file rest } := by
  refine ⟨fun _ hkind => ?_, fun _ hq => JobPtr.noConfusion hq, fun _ _ => ⟨rest, rfl⟩,
    fun _ _ => hsendfile, hshutdown⟩
  have hnot := (kind_eq_some.1 hkind).2
  rw [show ({ j with ptr := .file rest } : JobSlot).sendfile = j.sendfile from rfl,
    hsendfile] at hnot
  exact Bool.noConfusion hnot

/-- A slot whose file is closed is well formed. -/
theorem SlotOk.closed {j : JobSlot} (h : SlotOk j) :
    SlotOk { j with active := false, ptr := .null } :=
  ⟨fun hactive => Bool.noConfusion hactive, fun _ hq => JobPtr.noConfusion hq,
    fun hactive => Bool.noConfusion hactive, fun _ hfile => JobPtr.noConfusion hfile, h.shutdown⟩

/-! ## The ring -/

/-- The active slots stand at the head; `current` is the last of them, or it is idle; all behind it
are idle. -/
structure ActiveRing (jobs : PoolList JobSlot) : Prop where
  before : ∃ busy idle, jobs.before = busy ++ idle ∧ (∀ j ∈ busy, j.active = true) ∧
    (∀ j ∈ idle, j.active = false) ∧ (jobs.current.active = true → idle = [])
  after : ∀ j ∈ jobs.after, j.active = false

theorem activeRing_init : ActiveRing (.init .fresh 1) := by
  refine ⟨⟨[], [], rfl, by simp, by simp, fun _ => rfl⟩, fun j hj => ?_⟩
  rw [List.eq_of_mem_replicate hj]
  rfl

/-- With an idle head nothing is active. -/
theorem ActiveRing.head_idle {jobs : PoolList JobSlot} (h : ActiveRing jobs)
    (hhead : jobs.head.active = false) : ∀ j ∈ jobs.nodes, j.active = false := by
  obtain ⟨⟨busy, idle, hbefore, hbusy, hidle, hlast⟩, hafter⟩ := h
  obtain ⟨before, current, after⟩ := jobs
  obtain rfl : before = busy ++ idle := hbefore
  have hnil : busy = [] := by
    cases busy with
    | nil => rfl
    | cons b bs =>
      have hactive := hbusy b (List.mem_cons_self ..)
      rw [show b.active = false from hhead] at hactive
      exact Bool.noConfusion hactive
  subst hnil
  have hcurrent : current.active = false := by
    cases idle with
    | nil => exact hhead
    | cons i is =>
      cases hc : current.active with
      | false => rfl
      | true => exact absurd (hlast hc) (by simp)
  intro j hj
  rcases List.mem_append.1 hj with hj | hj
  · exact hidle j hj
  · rcases List.mem_cons.1 hj with rfl | hj
    · exact hcurrent
    · exact hafter j hj

/-- A store through the head that keeps it active or idle. -/
theorem ActiveRing.modifyHead {jobs : PoolList JobSlot} (h : ActiveRing jobs)
    {f : JobSlot → JobSlot} (hf : (f jobs.head).active = jobs.head.active) :
    ActiveRing (jobs.modifyHead f) := by
  obtain ⟨⟨busy, idle, hbefore, hbusy, hidle, hlast⟩, hafter⟩ := h
  obtain ⟨before, current, after⟩ := jobs
  obtain rfl : before = busy ++ idle := hbefore
  cases busy with
  | cons b bs =>
    obtain ⟨hb, hbs⟩ := List.forall_mem_cons.1 hbusy
    exact ⟨⟨f b :: bs, idle, rfl, List.forall_mem_cons.2 ⟨hf.trans hb, hbs⟩, hidle, hlast⟩, hafter⟩
  | nil =>
    cases idle with
    | nil => exact ⟨⟨[], [], rfl, by simp, by simp, fun _ => rfl⟩, hafter⟩
    | cons i is =>
      obtain ⟨hi, his⟩ := List.forall_mem_cons.1 hidle
      refine ⟨⟨[], f i :: is, rfl, by simp, List.forall_mem_cons.2 ⟨hf.trans hi, his⟩, fun hc => ?_⟩,
        hafter⟩
      exact absurd (hlast hc) (by simp)

/-- **The end of a round**: the head becomes idle, behind `current`. -/
theorem ActiveRing.finish {jobs : PoolList JobSlot} (h : ActiveRing jobs)
    (hhead : jobs.head.active = true) :
    ActiveRing (jobs.modifyHead fun j => { j with active := false }).headToCurrent := by
  obtain ⟨⟨busy, idle, hbefore, hbusy, hidle, hlast⟩, hafter⟩ := h
  obtain ⟨before, current, after⟩ := jobs
  obtain rfl : before = busy ++ idle := hbefore
  cases busy with
  | cons b bs =>
    have hbs := (List.forall_mem_cons.1 hbusy).2
    refine ⟨?_, hafter⟩
    show ∃ busy' idle', bs ++ idle ++ [current] = busy' ++ idle' ∧ _
    cases hc : current.active with
    | true =>
      refine ⟨bs ++ [current], [], by rw [hlast hc, List.append_nil, List.append_nil],
        fun j hj => ?_, by simp, fun _ => rfl⟩
      rcases List.mem_append.1 hj with hj | hj
      · exact hbs j hj
      · rw [List.mem_singleton.1 hj, hc]
    | false =>
      refine ⟨bs, idle ++ [current], List.append_assoc .., hbs, fun j hj => ?_,
        fun hactive => Bool.noConfusion hactive⟩
      rcases List.mem_append.1 hj with hj | hj
      · exact hidle j hj
      · rw [List.mem_singleton.1 hj, hc]
  | nil =>
    cases idle with
    | nil => exact ⟨⟨[], [], rfl, by simp, by simp, fun _ => rfl⟩, hafter⟩
    | cons i is =>
      have hi := hidle i (List.mem_cons_self ..)
      rw [show i.active = true from hhead] at hi
      exact Bool.noConfusion hi

/-- A slot is among those of the ring, or a fresh one. -/
theorem forall_seek {P : JobSlot → Prop} {jobs : PoolList JobSlot} (h : ∀ j ∈ jobs.nodes, P j)
    (hfresh : P .fresh) (type : JobType) : ∀ j ∈ (seek type jobs).nodes, P j := by
  obtain ⟨before, current, after⟩ := jobs
  unfold seek
  split_ifs with hcurrent hafter
  · exact h
  · obtain rfl : after = [] := hafter
    intro j hj
    simp only [PoolList.grow, PoolList.next, PoolList.nodes, List.replicate, List.nil_append,
      List.append_assoc, List.mem_append, List.mem_cons, List.not_mem_nil, or_false] at hj
    rcases hj with hj | rfl | rfl | rfl
    · exact h j (List.mem_append_left _ hj)
    · exact h j (by simp [PoolList.nodes])
    · exact hfresh
    · exact hfresh
  · obtain ⟨a, as, rfl⟩ := List.exists_cons_of_ne_nil hafter
    intro j hj
    exact h j (by simpa [PoolList.next, PoolList.nodes] using hj)

/-- Behind the slot found all are idle. -/
theorem seek_after {jobs : PoolList JobSlot} (h : ∀ j ∈ jobs.after, j.active = false)
    (type : JobType) : ∀ j ∈ (seek type jobs).after, j.active = false := by
  obtain ⟨before, current, after⟩ := jobs
  unfold seek
  split_ifs with hcurrent hafter
  · exact h
  · obtain rfl : after = [] := hafter
    intro j hj
    rw [List.mem_singleton.1 hj]
    rfl
  · obtain ⟨a, as, rfl⟩ := List.exists_cons_of_ne_nil hafter
    exact fun j hj => h j (List.mem_cons_of_mem _ hj)

/-- **A slot is taken**, with no idle slot in front of it. -/
theorem activeRing_take {jobs : PoolList JobSlot} (h : ActiveRing jobs) {type : JobType}
    (hfit : (seek type jobs).before.all JobSlot.active = true) (f : JobSlot → JobSlot) :
    ActiveRing ((seek type jobs).modifyCurrent f) :=
  ⟨⟨(seek type jobs).before, [], (List.append_nil _).symm, List.all_eq_true.1 hfit, by simp,
    fun _ => rfl⟩, seek_after h.after type⟩

end Ape.Endpoint

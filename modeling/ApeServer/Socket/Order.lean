import ApeServer.Socket.Sending

/-!
# Outgoing bytes keep their order

As long as every slot that is taken is free of foreign type bits and has no idle slot before it, the
ring of jobs is a first-in first-out queue: its active slots stand at the head, in the order of the
calls, and `current` is the last of them or idle.

* `Ring` — the ring stands for the list of its active slots; one lemma for each move;
* `Good` — the invariant: what is accepted and what is pending make up what was asked for;
* `runOps_inOrder` — **on every such run the bytes accepted are a prefix of the bytes asked for, all
  of them when no job is active, and `shutdown` comes after all of them**.
-/

namespace Ape.Socket

/-! ## What is promised -/

/-- The bytes a call asks to send. -/
def SocketOp.payload : SocketOp → List UInt8
  | .write data => data
  | .sendfile content => content
  | _ => []

/-- The bytes a run asks to send, in the order of the calls. -/
def asked (ops : List SocketOp) : List UInt8 := ops.flatMap SocketOp.payload

/-- Nothing but write events follows a call of `APE_socket_shutdown`. -/
def FinalShutdown (ops : List SocketOp) : Prop :=
  ∀ pre post, ops = pre ++ .shutdown :: post → ∀ op ∈ post, op = .writeEvent

/-- What a socket must look like after the calls `ops`. -/
structure InOrder (ops : List SocketOp) (s : ApeSocket) : Prop where
  in_order : accepted s.log <+: asked ops
  complete : (∀ j ∈ s.jobs.nodes, j.active = false) → accepted s.log = asked ops
  shutdown : ∀ pre post, s.log = pre ++ .shutdown :: post → accepted pre = asked ops

/-- What stands before an element is not changed by an end without it. -/
theorem before_of_append {α : Type*} {x : α} {l tail pre post : List α}
    (h : l ++ tail = pre ++ x :: post) (htail : x ∉ tail) : ∃ post', l = pre ++ x :: post' := by
  rcases List.append_eq_append_iff.1 h with ⟨mid, -, hmid⟩ | ⟨mid, hl, hmid⟩
  · exact absurd (show x ∈ tail by simp [hmid]) htail
  · cases mid with
    | nil => exact absurd (show x ∈ [] ++ tail by rw [← hmid]; simp) htail
    | cons e mid =>
      obtain ⟨rfl, -⟩ := List.cons.inj hmid
      exact ⟨mid, hl⟩

/-- With an end that starts with the element, what stands before it is inside of the list, or it is all
of the list. -/
theorem before_of_append_cons {α : Type*} {x : α} {l tail pre post : List α}
    (h : l ++ x :: tail = pre ++ x :: post) (htail : x ∉ tail) :
    (∃ post', l = pre ++ x :: post') ∨ (pre = l ∧ post = tail) := by
  rcases List.append_eq_append_iff.1 h with ⟨mid, hpre, hmid⟩ | ⟨mid, hl, hmid⟩
  · cases mid with
    | nil => exact .inr ⟨hpre.trans (List.append_nil l), (List.cons.inj hmid).2.symm⟩
    | cons e mid =>
      obtain ⟨-, htl⟩ := List.cons.inj hmid
      exact absurd (show x ∈ tail by simp [htl]) htail
  · cases mid with
    | nil => exact .inr ⟨by simpa using hl.symm, (List.cons.inj hmid).2⟩
    | cons e mid =>
      obtain ⟨rfl, -⟩ := List.cons.inj hmid
      exact .inl ⟨mid, hl⟩

theorem finalShutdown_of_not_mem {ops : List SocketOp} (h : .shutdown ∉ ops) :
    FinalShutdown ops := fun pre post hops => absurd (by simp [hops]) h

theorem finalShutdown_append (ops tail : List SocketOp) (hops : .shutdown ∉ ops)
    (htail : ∀ op ∈ tail, op = .writeEvent) : FinalShutdown (ops ++ .shutdown :: tail) := by
  intro pre post h
  have hnot : SocketOp.shutdown ∉ tail := fun hmem => SocketOp.noConfusion (htail _ hmem)
  rcases before_of_append_cons h hnot with ⟨post', hpost⟩ | ⟨-, rfl⟩
  · exact absurd (by simp [hpost]) hops
  · exact htail

/-! ## The ring -/

/-- The bytes a slot has yet to send. -/
def JobSlot.bytes (j : JobSlot) : List UInt8 :=
  match j.kind, j.ptr with
  | some .writev, .packets q => queueBytes q
  | some .sendfile, .file rest => rest
  | _, _ => []

/-- An active slot of one type that points to what the type needs. -/
inductive Ready : JobSlot → Prop where
  | writev (q : PoolList Packet) : QueueOk q → Ready ⟨true, true, false, false, .packets q⟩
  | sendfile (rest : List UInt8) : Ready ⟨true, false, true, false, .file rest⟩
  | shutdown (ptr : JobPtr) : Ready ⟨true, false, false, true, ptr⟩

/-- A slot that can be taken: whatever type bits are left on it, it points to nothing or to an empty
packet queue. -/
structure Idle (j : JobSlot) : Prop where
  inactive : j.active = false
  ptr : j.ptr = .null ∨ ∃ q, j.ptr = .packets q ∧ QueueOk q ∧ queueBytes q = []

/-- The active slots of the ring are `jobs`, in this order. -/
inductive Ring : PoolList JobSlot → List JobSlot → Prop where
  | busy (jobs : List JobSlot) (current : JobSlot) (after : List JobSlot) :
      (∀ j ∈ jobs ++ [current], Ready j) → (∀ j ∈ after, Idle j) →
      Ring ⟨jobs, current, after⟩ (jobs ++ [current])
  | idle (jobs done : List JobSlot) (current : JobSlot) (after : List JobSlot) :
      (∀ j ∈ jobs, Ready j) → (∀ j ∈ done, Idle j) → Idle current → (∀ j ∈ after, Idle j) →
      Ring ⟨jobs ++ done, current, after⟩ jobs

theorem Ready.active {j : JobSlot} (h : Ready j) : j.active = true := by
  cases h <;> rfl

theorem idle_fresh : Idle .fresh := ⟨rfl, .inl rfl⟩

theorem ring_init : Ring ApeSocket.init.jobs [] := by
  refine .idle [] [] _ _ (by simp) (by simp) idle_fresh fun j hj => ?_
  rw [List.eq_of_mem_replicate hj]
  exact idle_fresh

/-- Every pending slot is ready. -/
theorem Ring.ready {jobs : PoolList JobSlot} {A : List JobSlot} (h : Ring jobs A) :
    ∀ j ∈ A, Ready j := by
  cases h with
  | busy _ _ _ hready _ => exact hready
  | idle _ _ _ _ hready _ _ _ => exact hready

/-- With nothing pending the head is idle. -/
theorem Ring.head_nil {jobs : PoolList JobSlot} (h : Ring jobs []) : jobs.head.active = false := by
  generalize hA : ([] : List JobSlot) = A at h
  cases h with
  | busy bs current _ _ _ => exact absurd hA (by simp)
  | idle _ done current _ _ hdone hcurrent _ =>
    subst hA
    cases done with
    | nil => exact hcurrent.inactive
    | cons d ds => exact (hdone d (List.mem_cons_self ..)).inactive

/-- With something pending the head is the first slot that is pending. -/
theorem Ring.head_cons {jobs : PoolList JobSlot} {h : JobSlot} {A : List JobSlot}
    (hring : Ring jobs (h :: A)) : jobs.head = h := by
  generalize hA : h :: A = A' at hring
  cases hring with
  | busy bs current _ _ _ =>
    cases bs with
    | nil => exact (List.cons.inj hA).1.symm
    | cons b bs => exact (List.cons.inj hA).1.symm
  | idle _ done _ _ _ _ _ _ =>
    subst hA
    rfl

/-- No slot is active only when none is pending. -/
theorem Ring.eq_nil {jobs : PoolList JobSlot} {A : List JobSlot} (h : Ring jobs A)
    (hidle : ∀ j ∈ jobs.nodes, j.active = false) : A = [] := by
  cases A with
  | nil => rfl
  | cons j A =>
    have hmem : j ∈ jobs.nodes := by
      rw [← h.head_cons]
      obtain ⟨before, current, after⟩ := jobs
      cases before <;> simp [PoolList.head, PoolList.nodes]
    have hactive := (h.ready j (List.mem_cons_self ..)).active
    rw [hidle j hmem] at hactive
    exact Bool.noConfusion hactive

/-- A store to the first pending slot leaves the others in their order. -/
theorem Ring.modifyHead {jobs : PoolList JobSlot} {h : JobSlot} {A : List JobSlot}
    (hring : Ring jobs (h :: A)) {f : JobSlot → JobSlot} (hf : Ready (f h)) :
    Ring (jobs.modifyHead f) (f h :: A) := by
  generalize hA : h :: A = A' at hring
  cases hring with
  | busy bs current after hready hafter =>
    cases bs with
    | nil =>
      obtain ⟨rfl, rfl⟩ := List.cons.inj hA
      exact .busy [] (f h) after (by simpa using hf) hafter
    | cons b bs =>
      obtain ⟨rfl, rfl⟩ := List.cons.inj hA
      refine .busy (f h :: bs) current after (fun j hj => ?_) hafter
      rcases List.mem_cons.1 hj with rfl | hj
      · exact hf
      · exact hready j (List.mem_cons_of_mem _ hj)
  | idle _ done current after hready hdone hcurrent hafter =>
    subst hA
    refine .idle (f h :: A) done current after (fun j hj => ?_) hdone hcurrent hafter
    rcases List.mem_cons.1 hj with rfl | hj
    · exact hf
    · exact hready j (List.mem_cons_of_mem _ hj)

/-- The end of a round takes the head off. -/
theorem Ring.finish {jobs : PoolList JobSlot} {h : JobSlot} {A : List JobSlot}
    (hring : Ring jobs (h :: A)) {f : JobSlot → JobSlot} (hidle : Idle (f h)) :
    Ring (jobs.modifyHead f).headToCurrent A := by
  generalize hA : h :: A = A' at hring
  cases hring with
  | busy bs current after hready hafter =>
    cases bs with
    | nil =>
      obtain ⟨rfl, rfl⟩ := List.cons.inj hA
      exact .idle [] [] _ after (by simp) (by simp) hidle hafter
    | cons b bs =>
      obtain ⟨rfl, rfl⟩ := List.cons.inj hA
      have := Ring.idle (bs ++ [current]) [] (f h) after
        (fun j hj => hready j (List.mem_cons_of_mem _ hj)) (by simp) hidle hafter
      rwa [List.append_nil] at this
  | idle _ done current after hready hdone hcurrent hafter =>
    subst hA
    have := Ring.idle A (done ++ [current]) (f h) after
      (fun j hj => hready j (List.mem_cons_of_mem _ hj))
      (fun j hj => by
        rcases List.mem_append.1 hj with hj | hj
        · exact hdone j hj
        · rwa [List.mem_singleton.1 hj]) hidle hafter
    rwa [← List.append_assoc] at this

/-! ## Taking a slot -/

/-- A slot without foreign type bits, once taken. -/
theorem take_of_onlyType {type : JobType} {j : JobSlot} (h : j.onlyType type = true) :
    j.take type = ⟨true, type = .writev, type = .sendfile, type = .shutdown, j.ptr⟩ := by
  obtain ⟨active, writev, sendfile, shutdown, ptr⟩ := j
  cases type <;> simp_all [JobSlot.onlyType, JobSlot.take]

/-- The slot that is taken stands right behind the pending ones, or is the last of them when the job
is a write and it is one. -/
theorem Ring.seek {type : JobType} {jobs : PoolList JobSlot} {A : List JobSlot}
    (h : Ring jobs A) (hfits : slotFits type jobs = true) :
    ∃ bs slot after, Socket.seek type jobs = ⟨bs, slot, after⟩ ∧ slot.onlyType type = true ∧
      (∀ j ∈ bs, Ready j) ∧ (∀ j ∈ after, Idle j) ∧
      ((Idle slot ∧ A = bs) ∨ (type = .writev ∧ Ready slot ∧ A = bs ++ [slot])) := by
  have hfresh : ∀ j ∈ [JobSlot.fresh], Idle j := by simp [idle_fresh]
  unfold slotFits at hfits
  cases h with
  | busy bs current after hready hafter =>
    have hactive := (hready current (by simp)).active
    by_cases hsame : type = .writev ∧ current.writev = true
    · have hseek : Socket.seek type ⟨bs, current, after⟩ = ⟨bs, current, after⟩ :=
        if_pos (.inl hsame)
      rw [hseek] at hfits ⊢
      simp only [Bool.and_eq_true] at hfits
      exact ⟨bs, current, after, rfl, hfits.2, fun j hj => hready j (by simp [hj]), hafter,
        .inr ⟨hsame.1, hready current (by simp), rfl⟩⟩
    · have hnext : ∃ slot after', Socket.seek type ⟨bs, current, after⟩ =
          ⟨bs ++ [current], slot, after'⟩ ∧ Idle slot ∧ ∀ j ∈ after', Idle j := by
        unfold Socket.seek
        rw [if_neg (by simp [hsame, hactive])]
        cases after with
        | nil => exact ⟨.fresh, [.fresh], rfl, idle_fresh, hfresh⟩
        | cons a as =>
          exact ⟨a, as, rfl, hafter a (List.mem_cons_self ..),
            fun j hj => hafter j (List.mem_cons_of_mem _ hj)⟩
      obtain ⟨slot, after', hseek, hslot, hafter'⟩ := hnext
      rw [hseek] at hfits ⊢
      simp only [Bool.and_eq_true] at hfits
      exact ⟨_, slot, after', rfl, hfits.2, hready, hafter', .inl ⟨hslot, rfl⟩⟩
  | idle bs done current after hready hdone hcurrent hafter =>
    have hseek : Socket.seek type ⟨A ++ done, current, after⟩ = ⟨A ++ done, current, after⟩ :=
      if_pos (.inr hcurrent.inactive)
    rw [hseek] at hfits ⊢
    simp only [Bool.and_eq_true, List.all_eq_true] at hfits
    -- an idle slot before `current` would not be active
    have hnil : done = [] := by
      cases done with
      | nil => rfl
      | cons d ds =>
        have hactive := hfits.1 d (by simp)
        rw [(hdone d (List.mem_cons_self ..)).inactive] at hactive
        exact Bool.noConfusion hactive
    subst hnil
    exact ⟨A ++ [], current, after, rfl, hfits.2, by simpa using hready, hafter,
      .inl ⟨hcurrent, (List.append_nil A).symm⟩⟩

/-- The bytes of the pending slots. -/
def pending (A : List JobSlot) : List UInt8 := A.flatMap JobSlot.bytes

@[simp] theorem pending_cons (j : JobSlot) (A : List JobSlot) :
    pending (j :: A) = j.bytes ++ pending A := rfl

@[simp] theorem pending_append (A B : List JobSlot) :
    pending (A ++ B) = pending A ++ pending B := List.flatMap_append

/-- Every slot taken according to the log fits. -/
def AllFit (log : List SocketEvent) : Prop := ∀ fits, .slot fits ∈ log → fits = true

/-- A job that is put behind the pending ones stands behind them in the ring. -/
theorem Ring.append {A after : List JobSlot} {j : JobSlot} (hA : ∀ x ∈ A, Ready x) (hj : Ready j)
    (hafter : ∀ x ∈ after, Idle x) : Ring ⟨A, j, after⟩ (A ++ [j]) := by
  refine .busy A j after (fun x hx => ?_) hafter
  rcases List.mem_append.1 hx with hx | hx
  · exact hA x hx
  · rwa [List.mem_singleton.1 hx]

/-- The slot of a job that is not a write is put behind the pending ones. -/
theorem Ring.take {type : JobType} {s : ApeSocket} {A : List JobSlot} (h : Ring s.jobs A)
    (hfits : AllFit (getSlot type s).log) (htype : type ≠ .writev) :
    ∃ ptr after, (getSlot type s).jobs =
        ⟨A, ⟨true, false, type = .sendfile, type = .shutdown, ptr⟩, after⟩ ∧
      ∀ j ∈ after, Idle j := by
  have hfit : slotFits type s.jobs = true := hfits _ (by simp [getSlot])
  obtain ⟨bs, slot, after, hseek, honly, -, hafter, hslot⟩ := h.seek hfit
  obtain ⟨-, rfl⟩ : Idle slot ∧ A = bs := hslot.resolve_right fun h => htype h.1
  refine ⟨slot.ptr, after, ?_, hafter⟩
  simp [getSlot, hseek, PoolList.modifyCurrent, take_of_onlyType honly, htype]

/-- From `s` to `s'` the kernel has accepted `done` and `shutdown` has not been called. -/
structure Delivers (s s' : ApeSocket) (done : List UInt8) : Prop where
  online : s'.online = s.online
  log : ∃ ev, s'.log = s.log ++ ev ∧ accepted ev = done ∧ .shutdown ∉ ev

theorem Delivers.trans {s s' s'' : ApeSocket} {done done' : List UInt8} (h : Delivers s s' done)
    (h' : Delivers s' s'' done') : Delivers s s'' (done ++ done') := by
  obtain ⟨ev, hlog, hdone, hev⟩ := h.log
  obtain ⟨ev', hlog', hdone', hev'⟩ := h'.log
  refine ⟨h'.online.trans h.online, ev ++ ev', ?_, ?_, ?_⟩
  · rw [hlog', hlog, List.append_assoc]
  · rw [accepted_append, hdone, hdone']
  · simp [hev, hev']

theorem Sent.delivers {s s' : ApeSocket} {done : List UInt8} (h : Sent s s' done) : Delivers s s' done := by
  obtain ⟨ev, hlog, hdone, hev⟩ := h.log
  refine ⟨h.online, ev, hlog, hdone, fun hmem => ?_⟩
  obtain ⟨bytes, hbytes⟩ := hev _ hmem
  exact SocketEvent.noConfusion hbytes

/-- Whether the socket would block does not matter. -/
theorem Delivers.block {s s' : ApeSocket} {done : List UInt8} (h : Delivers s s' done) :
    Delivers s { s' with wouldBlock := true } done := ⟨h.online, h.log⟩

theorem getSlot_delivers (type : JobType) (s : ApeSocket) : Delivers s (getSlot type s) [] :=
  ⟨rfl, _, rfl, rfl, by simp⟩

theorem queueData_delivers (data : List UInt8) (offset : Nat) (s : ApeSocket) :
    Delivers s (queueData data offset s) [] := by
  unfold queueData
  simp only
  split
  · exact ⟨rfl, _, rfl, rfl, by simp⟩
  · exact ⟨rfl, _, rfl, rfl, by simp⟩
  · exact ⟨rfl, [.slot (slotFits .writev s.jobs), .fault], by simp [getSlot], rfl, by simp⟩

theorem slot_mem_queueData (data : List UInt8) (offset : Nat) (s : ApeSocket) :
    .slot (slotFits .writev s.jobs) ∈ (queueData data offset s).log := by
  unfold queueData
  simp only
  split <;> simp [getSlot, setPtr]

/-- **What is queued goes behind all that is pending.** -/
theorem Ring.queueData {s : ApeSocket} {A : List JobSlot} (h : Ring s.jobs A) (data : List UInt8)
    (offset : Nat) (hfits : AllFit (queueData data offset s).log) :
    ∃ A', Ring (Socket.queueData data offset s).jobs A' ∧
      pending A' = pending A ++ data.drop offset ∧
      ((∀ j ∈ A, j.shutdown = false) → ∀ j ∈ A', j.shutdown = false) := by
  have hfit : slotFits .writev s.jobs = true := hfits _ (slot_mem_queueData data offset s)
  obtain ⟨bs, slot, after, hseek, honly, hready, hafter, hslot⟩ := h.seek hfit
  have hcurrent : (getSlot .writev s).jobs = ⟨bs, ⟨true, true, false, false, slot.ptr⟩, after⟩ := by
    simp [getSlot, hseek, PoolList.modifyCurrent, take_of_onlyType honly]
  -- the queue the packet is put into
  have hqueue : ∃ q, QueueOk q ∧ pending A = pending bs ++ queueBytes q ∧ (∀ j ∈ bs, j ∈ A) ∧
      (Socket.queueData data offset s).jobs =
        ⟨bs, ⟨true, true, false, false, .packets (push data offset q)⟩, after⟩ := by
    rcases hslot with ⟨hidle, rfl⟩ | ⟨-, hslot, rfl⟩
    · rcases hidle.ptr with hptr | ⟨q, hptr, hq, hbytes⟩
      · refine ⟨.init .fresh 7, queueOk_init, by simp [queueBytes_init], fun _ hj => hj, ?_⟩
        simp [Socket.queueData, hcurrent, hptr, setPtr, PoolList.modifyCurrent]
      · refine ⟨q, hq, by simp [hbytes], fun _ hj => hj, ?_⟩
        simp [Socket.queueData, hcurrent, hptr, setPtr, PoolList.modifyCurrent]
    · cases hslot with
      | writev q hq =>
        refine ⟨q, hq, ?_, fun _ hj => List.mem_append_left _ hj, ?_⟩
        · simp [pending, JobSlot.bytes, JobSlot.kind]
        · simp [Socket.queueData, hcurrent, setPtr, PoolList.modifyCurrent]
      | sendfile rest => simp [JobSlot.onlyType] at honly
      | shutdown ptr => simp [JobSlot.onlyType] at honly
  obtain ⟨q, hq, hbytes, hsub, hjobs⟩ := hqueue
  obtain ⟨hok, hpush⟩ := push_ok hq data offset
  refine ⟨bs ++ [⟨true, true, false, false, .packets (push data offset q)⟩], ?_, ?_, ?_⟩
  · rw [hjobs]
    refine .busy _ _ _ (fun j hj => ?_) hafter
    rcases List.mem_append.1 hj with hj | hj
    · exact hready j hj
    · rw [List.mem_singleton.1 hj]
      exact .writev _ hok
  · rw [hbytes, List.append_assoc, ← hpush]
    simp [pending, JobSlot.bytes, JobSlot.kind]
  · intro hnone j hj
    rcases List.mem_append.1 hj with hj | hj
    · exact hnone j (hsub j hj)
    · rw [List.mem_singleton.1 hj]

/-! ## The invariant -/

/-- What has been asked for is what the kernel has accepted and what is pending, in this order; a
shutdown is the last thing asked for. -/
structure Good (s : ApeSocket) (want : List UInt8) (closed : Bool) : Prop where
  ring : ∃ A, Ring s.jobs A ∧ accepted s.log ++ pending A = want ∧
    ∀ pre j post, A = pre ++ j :: post → j.shutdown = true → closed = true ∧ post = []
  issued : ∀ pre post, s.log = pre ++ .shutdown :: post → closed = true ∧ accepted pre = want
  online : closed = false → s.online = true

theorem good_init : Good .init [] false :=
  ⟨⟨[], ring_init, rfl, by simp⟩, by simp [ApeSocket.init], fun _ => rfl⟩

/-- Before the shutdown no pending slot is one. -/
theorem Good.noShutdown {s : ApeSocket} {want : List UInt8} (h : Good s want false) :
    ∃ A, Ring s.jobs A ∧ accepted s.log ++ pending A = want ∧ ∀ j ∈ A, j.shutdown = false := by
  obtain ⟨A, hring, hwant, hlast⟩ := h.ring
  refine ⟨A, hring, hwant, fun j hj => ?_⟩
  obtain ⟨pre, post, rfl⟩ := List.append_of_mem hj
  by_contra hshutdown
  exact Bool.noConfusion (hlast pre j post rfl (by simpa using hshutdown)).1

/-- A step that delivers bytes before the shutdown keeps the order. -/
theorem Good.step {s s' : ApeSocket} {want done : List UInt8} (h : Good s want false)
    (hstep : Delivers s s' done) {A : List JobSlot} (hring : Ring s'.jobs A)
    (hnone : ∀ j ∈ A, j.shutdown = false) :
    Good s' (accepted s.log ++ done ++ pending A) false := by
  obtain ⟨ev, hlog, hdone, hev⟩ := hstep.log
  refine ⟨⟨A, hring, ?_, fun pre j post hA hj => ?_⟩, fun pre post hpre => ?_, fun _ => ?_⟩
  · rw [hlog, accepted_append, hdone]
  · rw [hnone j (by simp [hA])] at hj
    exact Bool.noConfusion hj
  · obtain ⟨post', hpost⟩ := before_of_append (hlog ▸ hpre) hev
    exact Bool.noConfusion (h.issued pre post' hpost).1
  · rw [hstep.online]
    exact h.online rfl

/-! ## The calls -/

/-- With nothing to wait for, nothing is pending. -/
theorem Ring.eq_nil_of_mustQueue {s : ApeSocket} {A : List JobSlot} (h : Ring s.jobs A)
    (hfree : s.mustQueue = false) : A = [] := by
  cases A with
  | nil => rfl
  | cons j A =>
    have hactive := (h.ready j (List.mem_cons_self ..)).active
    simp [ApeSocket.mustQueue, h.head_cons, hactive] at hfree

/-- **`APE_socket_write` keeps the order.** -/
theorem good_write {k : Kernel} {data : List UInt8} {s : ApeSocket} {want : List UInt8}
    (h : Good s want false) (hfits : AllFit (apeSocketWrite k data s).log) :
    Good (apeSocketWrite k data s) (want ++ data) false := by
  obtain ⟨A, hring, hwant, hnone⟩ := h.noShutdown
  have honline := h.online rfl
  unfold apeSocketWrite at hfits ⊢
  by_cases hnil : data = []
  · rw [if_pos (.inr hnil), hnil, List.append_nil]
    exact h
  rw [if_neg (by simp [honline, hnil])] at hfits ⊢
  by_cases hqueue : s.mustQueue = true
  · rw [if_pos hqueue] at hfits ⊢
    obtain ⟨A', hring', hbytes, hnone'⟩ := hring.queueData data 0 hfits
    have := h.step (queueData_delivers data 0 s) hring' (hnone' hnone)
    rwa [hbytes, List.append_nil, ← List.append_assoc, hwant, List.drop_zero] at this
  · have hempty := hring.eq_nil_of_mustQueue (by simpa using hqueue)
    subst hempty
    obtain ⟨done, hdata, hsent⟩ := writeLoop_sent k data.length data s
    rw [if_neg hqueue] at hfits ⊢
    revert hfits hdata hsent
    rcases writeLoop k data.length data s with ⟨rest, s'⟩
    simp only
    intro hfits hdata hsent
    have hring' : Ring s'.jobs [] := hsent.jobs ▸ hring
    by_cases hall : rest = []
    · rw [if_pos hall]
      have := h.step hsent.delivers hring' (by simp)
      rw [hall, List.append_nil] at hdata
      simpa [← hwant, hdata, pending] using this
    · rw [if_neg hall] at hfits ⊢
      have hdrop : data.drop (data.length - rest.length) = rest := by
        rw [hdata]
        simp
      obtain ⟨A', hring'', hbytes, hnone'⟩ :=
        Ring.queueData (s := { s' with wouldBlock := true }) hring' data _ hfits
      have := h.step (hsent.delivers.block.trans (queueData_delivers data _ _)) hring''
        (hnone' (by simp))
      rw [hbytes, hdrop] at this
      simpa [← hwant, hdata, pending] using this

/-- A file is queued behind all that is pending. -/
theorem Good.queueFile {s s' : ApeSocket} {want done rest : List UInt8} (h : Good s want false)
    (hstep : Delivers s s' done) {A : List JobSlot} (hring : Ring s'.jobs A)
    (hnone : ∀ j ∈ A, j.shutdown = false)
    (hfits : AllFit (setPtr (.file rest) (getSlot .sendfile s')).log) :
    Good (setPtr (.file rest) (getSlot .sendfile s'))
      (accepted s.log ++ done ++ (pending A ++ rest)) false := by
  obtain ⟨ptr, after, hjobs, hafter⟩ := hring.take hfits (by simp)
  have hring' : Ring (setPtr (.file rest) (getSlot .sendfile s')).jobs
      (A ++ [⟨true, false, true, false, .file rest⟩]) := by
    simpa [setPtr, hjobs, PoolList.modifyCurrent] using
      Ring.append hring.ready (.sendfile rest) hafter
  have hslot : Delivers s (setPtr (.file rest) (getSlot .sendfile s')) (done ++ []) :=
    hstep.trans ⟨rfl, (getSlot_delivers .sendfile s').log⟩
  have := h.step hslot hring' fun j hj => by
    rcases List.mem_append.1 hj with hj | hj
    · exact hnone j hj
    · rw [List.mem_singleton.1 hj]
  simpa [pending, JobSlot.bytes, JobSlot.kind] using this

/-- **`APE_sendfile` keeps the order.** -/
theorem good_sendfile {k : Kernel} {content : List UInt8} {s : ApeSocket} {want : List UInt8}
    (h : Good s want false) (hfits : AllFit (apeSendfile k content s).log) :
    Good (apeSendfile k content s) (want ++ content) false := by
  obtain ⟨A, hring, hwant, hnone⟩ := h.noShutdown
  have honline := h.online rfl
  unfold apeSendfile at hfits ⊢
  rw [if_neg (by simp [honline])] at hfits ⊢
  by_cases hqueue : s.mustQueue = true
  · rw [if_pos hqueue] at hfits ⊢
    have hstep : Delivers s { s with wouldBlock := true } [] := (Sent.refl s).delivers.block
    have := h.queueFile hstep hring hnone hfits
    rwa [List.append_nil, ← List.append_assoc, hwant] at this
  · have hempty := hring.eq_nil_of_mustQueue (by simpa using hqueue)
    subst hempty
    obtain ⟨done, hdata, hsent, hall⟩ := sendfileLoop_sent k (content.length + 1) content s
    rw [if_neg hqueue] at hfits ⊢
    revert hfits hdata hsent hall
    rcases sendfileLoop k (content.length + 1) content s with ⟨blocked, rest, s'⟩
    simp only
    intro hfits hdata hsent hall
    have hring' : Ring s'.jobs [] := hsent.jobs ▸ hring
    by_cases hblocked : blocked = true
    · rw [if_pos hblocked] at hfits ⊢
      have := h.queueFile hsent.delivers.block hring' (by simp) hfits
      simpa [← hwant, hdata, pending] using this
    · rw [if_neg hblocked]
      have hrest : rest = [] := hall (by simpa using hblocked)
      have := h.step hsent.delivers hring' (by simp)
      simpa [← hwant, hdata, hrest, pending] using this

/-- `shutdown(fd)` when all that was asked for has been accepted. -/
theorem Good.shutdownFd {k : Kernel} {s : ApeSocket} {want : List UInt8} {closed : Bool}
    (h : Good s want closed) (hall : accepted s.log = want) :
    Good (Socket.shutdownFd k s) want true := by
  have hlog : ∃ tail, (Socket.shutdownFd k s).log = s.log ++ .shutdown :: tail ∧
      accepted (.shutdown :: tail) = [] ∧ .shutdown ∉ tail := by
    unfold Socket.shutdownFd
    split
    · exact ⟨[.destroyed], rfl, rfl, by simp⟩
    · exact ⟨[], rfl, rfl, by simp⟩
  have hjobs : (Socket.shutdownFd k s).jobs = s.jobs := by
    unfold Socket.shutdownFd
    split <;> rfl
  obtain ⟨tail, hlog, hquiet, htail⟩ := hlog
  obtain ⟨A, hring, hwant, hlast⟩ := h.ring
  refine ⟨⟨A, hjobs ▸ hring, ?_, fun pre j post hA hj => ⟨rfl, (hlast pre j post hA hj).2⟩⟩,
    fun pre post hpre => ⟨rfl, ?_⟩, fun hopen => Bool.noConfusion hopen⟩
  · rw [hlog, accepted_append, hquiet, List.append_nil, hwant]
  · rcases before_of_append_cons (hlog ▸ hpre) htail with ⟨post', hpost⟩ | ⟨rfl, -⟩
    · exact (h.issued pre post' hpost).2
    · exact hall

/-- **`APE_socket_shutdown` keeps the order.** -/
theorem good_shutdown {k : Kernel} {s : ApeSocket} {want : List UInt8} (h : Good s want false)
    (hfits : AllFit (apeSocketShutdown k s).log) :
    Good (apeSocketShutdown k s) want true := by
  obtain ⟨A, hring, hwant, hnone⟩ := h.noShutdown
  have honline := h.online rfl
  unfold apeSocketShutdown at hfits ⊢
  rw [if_neg (by simp [honline])] at hfits ⊢
  by_cases hqueue : s.mustQueue = true
  · rw [if_pos hqueue] at hfits ⊢
    obtain ⟨ptr, after, hjobs, hafter⟩ := hring.take hfits (by simp)
    refine ⟨⟨A ++ [⟨true, false, false, true, ptr⟩], ?_, ?_, fun pre j post hA hj => ⟨rfl, ?_⟩⟩,
      fun pre post hpre => ?_, fun hopen => Bool.noConfusion hopen⟩
    · simpa [hjobs] using Ring.append hring.ready (.shutdown ptr) hafter
    · simpa [getSlot, accepted, pending, JobSlot.bytes, JobSlot.kind] using hwant
    · -- a slot before the last one is no shutdown
      rcases List.eq_nil_or_concat post with hpost | ⟨post', last, rfl⟩
      · exact hpost
      · have hsplit : A ++ [(⟨true, false, false, true, ptr⟩ : JobSlot)] =
            (pre ++ j :: post') ++ [last] := by simpa using hA
        obtain ⟨rfl, -⟩ := List.append_inj' hsplit rfl
        rw [hnone j (by simp)] at hj
        exact Bool.noConfusion hj
    · obtain ⟨post', hpost⟩ := before_of_append hpre (by simp)
      exact Bool.noConfusion (h.issued pre post' hpost).1
  · have hempty := hring.eq_nil_of_mustQueue (by simpa using hqueue)
    subst hempty
    rw [if_neg hqueue]
    exact h.shutdownFd (by simpa [pending] using hwant)

/-! ## Working the jobs off -/

/-- What a round of `ape_socket_do_jobs` does with the first pending slot `j`: the kernel takes
bytes off its front, and only a job without bytes is finished. -/
structure Works (j : JobSlot) (s : ApeSocket) (finished : Bool) (s' : ApeSocket) (j' : JobSlot)
    (done : List UInt8) : Prop where
  delivers : Delivers s s' done
  jobs : s'.jobs = s.jobs.modifyHead fun _ => j'
  bytes : j.bytes = done ++ j'.bytes
  shutdown : j'.shutdown = j.shutdown
  more : finished = false → Ready j'
  finished : finished = true → Idle { j' with active := false } ∧ j'.bytes = []

/-- The store of what is left, as a store of the whole slot. -/
theorem setHead_jobs {s s' : ApeSocket} {j : JobSlot} (hjobs : s'.jobs = s.jobs)
    (hhead : s.jobs.head = j) (f : JobSlot → JobSlot) :
    (setHead f s').jobs = s.jobs.modifyHead fun _ => f j := by
  rw [setHead, hjobs]
  exact PoolList.modifyHead_congr (by rw [hhead])

/-- `writev` works off the packets of the head. -/
theorem works_writev (k : Kernel) {s : ApeSocket} {q : PoolList Packet} (hq : QueueOk q)
    (hhead : s.jobs.head = ⟨true, true, false, false, .packets q⟩) :
    ∃ j' done, Works ⟨true, true, false, false, .packets q⟩ s (doWritev k s).1 (doWritev k s).2
      j' done := by
  unfold doWritev
  simp only [hhead]
  rcases hoffer : offer k (chunks k q) s with ⟨_ | n, s'⟩
  · -- the kernel refuses
    have hsent := offer_none hoffer
    refine ⟨⟨true, true, false, false, .packets q⟩, [], hsent.delivers.block, ?_, rfl, rfl,
      fun _ => .writev q hq, fun h => Bool.noConfusion h⟩
    rw [← hhead]
    exact hsent.jobs.trans (PoolList.modifyHead_eq_self rfl).symm
  · obtain ⟨hsent, -, hn⟩ := offer_some hoffer
    obtain ⟨hok, hbytes⟩ := packetLoop_ok hq q.nodes.length
      (by simp [PoolList.nodes]) n
    have htake : (chunks k q).take n = (queueBytes q).take n := by
      obtain ⟨tail, htail⟩ := hq.chunks k
      rw [← htail, List.take_append_of_le_length hn]
    have hsplit : queueBytes q =
        (chunks k q).take n ++ queueBytes (packetLoop q.nodes.length n q) := by
      rw [htake, hbytes, List.take_append_drop]
    have hjobs := setHead_jobs hsent.jobs hhead fun j =>
      { j with ptr := .packets (packetLoop q.nodes.length n q) }
    have hdel : Delivers s (setHead (fun j =>
        { j with ptr := .packets (packetLoop q.nodes.length n q) }) s') ((chunks k q).take n) :=
      ⟨hsent.delivers.online, hsent.delivers.log⟩
    simp only
    by_cases hmore : (packetLoop q.nodes.length n q).head.data.isSome = true
    · rw [if_pos hmore]
      exact ⟨_, _, hdel.block, hjobs, hsplit, rfl, fun _ => .writev _ hok,
        fun h => Bool.noConfusion h⟩
    · rw [if_neg hmore]
      have hempty : queueBytes (packetLoop q.nodes.length n q) = [] := by
        rw [hok.bytes, hok.empty (by simpa using hmore)]
        rfl
      exact ⟨_, _, hdel, hjobs, hsplit, rfl, fun h => Bool.noConfusion h,
        fun _ => ⟨⟨rfl, .inr ⟨_, rfl, hok, hempty⟩⟩, hempty⟩⟩

/-- `sendfile` works off the file of the head. -/
theorem works_sendfile (k : Kernel) {s : ApeSocket} {rest : List UInt8}
    (hhead : s.jobs.head = ⟨true, false, true, false, .file rest⟩) :
    ∃ j' done, Works ⟨true, false, true, false, .file rest⟩ s (doSendfile k s).1
      (doSendfile k s).2 j' done := by
  obtain ⟨done, hdata, hsent, hall⟩ := sendfileLoop_sent k (rest.length + 1) rest s
  unfold doSendfile
  simp only [hhead]
  revert hdata hsent hall
  rcases sendfileLoop k (rest.length + 1) rest s with ⟨blocked, rest', s'⟩
  simp only
  intro hdata hsent hall
  by_cases hblocked : blocked = true
  · rw [if_pos hblocked]
    have hdel : Delivers s (setHead (fun j => { j with ptr := .file rest' }) s') done :=
      ⟨hsent.delivers.online, hsent.delivers.log⟩
    have hjobs := setHead_jobs hsent.jobs hhead fun j => { j with ptr := .file rest' }
    exact ⟨_, _, hdel.block, hjobs, hdata, rfl, fun _ => .sendfile rest',
      fun h => Bool.noConfusion h⟩
  · rw [if_neg hblocked]
    have hrest : rest' = [] := hall (by simpa using hblocked)
    have hdel : Delivers s (setHead (fun j => { j with ptr := .null }) s') done :=
      ⟨hsent.delivers.online, hsent.delivers.log⟩
    have hjobs := setHead_jobs hsent.jobs hhead fun j => { j with ptr := .null }
    rw [hrest] at hdata
    exact ⟨_, _, hdel, hjobs, hdata, rfl, fun h => Bool.noConfusion h,
      fun _ => ⟨⟨rfl, .inl rfl⟩, rfl⟩⟩

/-- **A round keeps the order**, whether the job is finished or not. -/
theorem Good.round {s s' : ApeSocket} {want done : List UInt8} {closed finished : Bool}
    {j j' : JobSlot} {A : List JobSlot} (h : Good s want closed) (hring : Ring s.jobs (j :: A))
    (hwant : accepted s.log ++ pending (j :: A) = want)
    (hlast : ∀ pre x post, j :: A = pre ++ x :: post → x.shutdown = true →
      closed = true ∧ post = [])
    (hopen : j.shutdown = false) (hworks : Works j s finished s' j' done) :
    Good (if finished then finishJob s' else s') want closed := by
  obtain ⟨ev, hlog, hdone, hev⟩ := hworks.delivers.log
  have hbytes : accepted s'.log ++ (j'.bytes ++ pending A) = want := by
    rw [hlog, accepted_append, hdone, ← hwant, pending_cons, hworks.bytes]
    simp
  have hrest : ∀ pre x post, A = pre ++ x :: post → x.shutdown = true →
      closed = true ∧ post = [] :=
    fun pre x post hA => hlast (j :: pre) x post (by rw [hA]; rfl)
  have hissued : ∀ pre post, s'.log = pre ++ .shutdown :: post →
      closed = true ∧ accepted pre = want := fun pre post hpre => by
    obtain ⟨post', hpost⟩ := before_of_append (hlog ▸ hpre) hev
    exact h.issued pre post' hpost
  have honline : closed = false → s'.online = true := fun hc => by
    rw [hworks.delivers.online]
    exact h.online hc
  cases finished with
  | false =>
    have hring' : Ring s'.jobs (j' :: A) := by
      rw [hworks.jobs]
      exact hring.modifyHead (hworks.more rfl)
    refine ⟨⟨j' :: A, hring', hbytes, fun pre x post hA hx => ?_⟩, hissued, honline⟩
    cases pre with
    | nil =>
      obtain ⟨rfl, -⟩ := List.cons.inj hA
      rw [hworks.shutdown, hopen] at hx
      exact Bool.noConfusion hx
    | cons p pre => exact hrest pre x post (List.cons.inj hA).2 hx
  | true =>
    obtain ⟨hidle, hnil⟩ := hworks.finished rfl
    have hring' : Ring (finishJob s').jobs A := by
      show Ring (s'.jobs.modifyHead _).headToCurrent A
      rw [hworks.jobs, PoolList.modifyHead_modifyHead]
      exact hring.finish hidle
    rw [hnil, List.nil_append] at hbytes
    exact ⟨⟨A, hring', hbytes, hrest⟩, hissued, honline⟩

/-- The loop over the jobs keeps the order of what was asked for. -/
theorem good_doJobsLoop {k : Kernel} {fuel : Nat} {s : ApeSocket} {want : List UInt8}
    {closed : Bool} (h : Good s want closed) : Good (doJobsLoop k fuel s) want closed := by
  induction fuel generalizing s with
  | zero => exact h
  | succ fuel ih =>
    obtain ⟨A, hring, hwant, hlast⟩ := h.ring
    cases A with
    | nil => rwa [doJobsLoop, if_pos hring.head_nil]
    | cons j A =>
      have hhead := hring.head_cons
      have hready := hring.ready j (List.mem_cons_self ..)
      have hactive := hready.active
      rw [doJobsLoop, hhead, if_neg (by simp [hactive])]
      cases hready with
      | writev q hq =>
        obtain ⟨j', done, hworks⟩ := works_writev k hq hhead
        have hround := h.round hring hwant hlast rfl hworks
        show Good (if (doWritev k s).1 then doJobsLoop k fuel (finishJob (doWritev k s).2)
          else (doWritev k s).2) want closed
        cases hfin : (doWritev k s).1 with
        | true => exact ih (by simpa [hfin] using hround)
        | false => simpa [hfin] using hround
      | sendfile rest =>
        obtain ⟨j', done, hworks⟩ := works_sendfile k hhead
        have hround := h.round hring hwant hlast rfl hworks
        show Good (if (doSendfile k s).1 then doJobsLoop k fuel (finishJob (doSendfile k s).2)
          else (doSendfile k s).2) want closed
        cases hfin : (doSendfile k s).1 with
        | true => exact ih (by simpa [hfin] using hround)
        | false => simpa [hfin] using hround
      | shutdown ptr =>
        -- everything before it has been accepted
        obtain ⟨hclosed, rfl⟩ := hlast [] _ A rfl rfl
        rw [hclosed]
        exact h.shutdownFd (by simpa [pending, JobSlot.bytes, JobSlot.kind] using hwant)

/-- **A write event keeps the order.** -/
theorem good_writeEvent {k : Kernel} {s : ApeSocket} {want : List UInt8} {closed : Bool}
    (h : Good s want closed) : Good (onWriteEvent k s) want closed := by
  have hfree : Good { s with wouldBlock := false } want closed := ⟨h.ring, h.issued, h.online⟩
  unfold onWriteEvent
  simp only
  split
  · exact good_doJobsLoop hfree
  · exact hfree

/-! ## Runs -/

theorem offer_log (k : Kernel) (bytes : List UInt8) (s : ApeSocket) :
    s.log <+: (offer k bytes s).2.log := by
  unfold offer
  split
  · exact List.prefix_rfl
  · exact List.prefix_append _ _

theorem Sent.log_prefix {s s' : ApeSocket} {done : List UInt8} (h : Sent s s' done) :
    s.log <+: s'.log := by
  obtain ⟨ev, hlog, -⟩ := h.log
  exact ⟨ev, hlog.symm⟩

theorem queueData_log (data : List UInt8) (offset : Nat) (s : ApeSocket) :
    s.log <+: (queueData data offset s).log := by
  obtain ⟨ev, hlog, -⟩ := (queueData_delivers data offset s).log
  exact ⟨ev, hlog.symm⟩

theorem shutdownFd_log (k : Kernel) (s : ApeSocket) : s.log <+: (shutdownFd k s).log := by
  unfold shutdownFd
  split <;> exact List.prefix_append _ _

theorem doWritev_log (k : Kernel) (s : ApeSocket) : s.log <+: (doWritev k s).2.log := by
  unfold doWritev
  split
  · rename_i q _
    have hlog := offer_log k (chunks k q) s
    revert hlog
    rcases offer k (chunks k q) s with ⟨_ | n, s'⟩
    · exact id
    · simp only
      split <;> exact id
  · exact List.prefix_append _ _

theorem doSendfile_log (k : Kernel) (s : ApeSocket) : s.log <+: (doSendfile k s).2.log := by
  unfold doSendfile
  split
  · rename_i rest _
    obtain ⟨done, -, hsent, -⟩ := sendfileLoop_sent k (rest.length + 1) rest s
    have hlog := hsent.log_prefix
    revert hlog
    rcases sendfileLoop k (rest.length + 1) rest s with ⟨_ | _, rest', s'⟩ <;> exact id
  · exact List.prefix_append _ _

theorem doJobsLoop_log (k : Kernel) (fuel : Nat) (s : ApeSocket) :
    s.log <+: (doJobsLoop k fuel s).log := by
  induction fuel generalizing s with
  | zero => exact List.prefix_rfl
  | succ fuel ih =>
    rw [doJobsLoop]
    split
    · exact List.prefix_rfl
    · split
      · show s.log <+: (if (doWritev k s).1 then doJobsLoop k fuel (finishJob (doWritev k s).2)
          else (doWritev k s).2).log
        split
        · exact (doWritev_log k s).trans (ih (finishJob (doWritev k s).2))
        · exact doWritev_log k s
      · show s.log <+: (if (doSendfile k s).1 then doJobsLoop k fuel (finishJob (doSendfile k s).2)
          else (doSendfile k s).2).log
        split
        · exact (doSendfile_log k s).trans (ih (finishJob (doSendfile k s).2))
        · exact doSendfile_log k s
      · exact shutdownFd_log k s
      · exact ih (finishJob s)

theorem apeSocketWrite_log (k : Kernel) (data : List UInt8) (s : ApeSocket) :
    s.log <+: (apeSocketWrite k data s).log := by
  unfold apeSocketWrite
  split
  · exact List.prefix_rfl
  · split
    · exact queueData_log data 0 s
    · obtain ⟨done, -, hsent⟩ := writeLoop_sent k data.length data s
      have hlog := hsent.log_prefix
      revert hlog
      rcases writeLoop k data.length data s with ⟨rest, s'⟩
      intro hlog
      simp only
      split
      · exact hlog
      · exact hlog.trans (queueData_log data _ { s' with wouldBlock := true })

theorem apeSendfile_log (k : Kernel) (content : List UInt8) (s : ApeSocket) :
    s.log <+: (apeSendfile k content s).log := by
  unfold apeSendfile
  split
  · exact List.prefix_rfl
  · split
    · exact List.prefix_append _ _
    · obtain ⟨done, -, hsent, -⟩ := sendfileLoop_sent k (content.length + 1) content s
      have hlog := hsent.log_prefix
      revert hlog
      rcases sendfileLoop k (content.length + 1) content s with ⟨_ | _, rest, s'⟩
      · exact id
      · exact fun hlog => hlog.trans (List.prefix_append _ _)

/-- A call only adds to the log. -/
theorem exec_log (k : Kernel) (s : ApeSocket) (op : SocketOp) : s.log <+: (op.exec k s).log := by
  cases op with
  | write data => exact apeSocketWrite_log k data s
  | sendfile content => exact apeSendfile_log k content s
  | shutdown =>
    show s.log <+: (apeSocketShutdown k s).log
    unfold apeSocketShutdown
    split
    · exact List.prefix_rfl
    · split
      · exact List.prefix_append _ _
      · exact shutdownFd_log k s
  | writeEvent =>
    show s.log <+: (onWriteEvent k s).log
    unfold onWriteEvent
    simp only
    split
    · exact doJobsLoop_log k _ { s with wouldBlock := false }
    · exact List.prefix_rfl

/-- One call of a run; a shutdown is followed by write events only. -/
theorem good_exec {k : Kernel} {s : ApeSocket} {want : List UInt8} {closed : Bool}
    (h : Good s want closed) {op : SocketOp} (hfinal : closed = true → op = .writeEvent)
    (hfits : AllFit (op.exec k s).log) :
    Good (op.exec k s) (want ++ op.payload) (closed || op = .shutdown) := by
  cases closed with
  | true =>
    rw [hfinal rfl]
    simpa [SocketOp.payload, SocketOp.exec] using good_writeEvent h
  | false =>
    cases op with
    | write data => simpa [SocketOp.payload, SocketOp.exec] using good_write h hfits
    | sendfile content => simpa [SocketOp.payload, SocketOp.exec] using good_sendfile h hfits
    | shutdown => simpa [SocketOp.payload, SocketOp.exec] using good_shutdown h hfits
    | writeEvent => simpa [SocketOp.payload, SocketOp.exec] using good_writeEvent h

/-- The invariant holds after every run. -/
theorem good_runOps (k : Kernel) (ops : List SocketOp) (hfinal : FinalShutdown ops)
    (hfits : AllFit (runOps k ops .init).log) :
    Good (runOps k ops .init) (asked ops) (.shutdown ∈ ops) := by
  induction ops using List.reverseRecOn with
  | nil => exact good_init
  | append_singleton ops op ih =>
    have hrun : runOps k (ops ++ [op]) .init = op.exec k (runOps k ops .init) := by
      simp [runOps]
    have hfinal' : FinalShutdown ops := fun pre post hops x hx =>
      hfinal pre (post ++ [op]) (by simp [hops]) x (by simp [hx])
    have hlast : .shutdown ∈ ops → op = .writeEvent := fun hmem => by
      obtain ⟨pre, post, hops⟩ := List.append_of_mem hmem
      exact hfinal pre (post ++ [op]) (by simp [hops]) op (by simp)
    rw [hrun] at hfits ⊢
    have hgood := ih hfinal' fun fits hmem => hfits fits ((exec_log k _ op).subset hmem)
    have := good_exec hgood (by simpa using hlast) hfits
    have hclosed : (decide (.shutdown ∈ ops) || decide (op = .shutdown)) =
        decide (.shutdown ∈ ops ++ [op]) := by
      simp [eq_comm]
    rwa [hclosed, show asked ops ++ op.payload = asked (ops ++ [op]) by simp [asked]] at this

/-- **Bytes keep their order, none is lost and the shutdown comes last**, on every run in which
each slot is taken right behind the active ones and free of foreign type bits. -/
theorem runOps_inOrder (k : Kernel) (ops : List SocketOp) (hfinal : FinalShutdown ops)
    (hfits : AllFit (runOps k ops .init).log) : InOrder ops (runOps k ops .init) := by
  have hgood := good_runOps k ops hfinal hfits
  obtain ⟨A, hring, hwant, -⟩ := hgood.ring
  refine ⟨⟨pending A, hwant⟩, fun hidle => ?_, fun pre post hlog => (hgood.issued pre post hlog).2⟩
  rw [hring.eq_nil hidle] at hwant
  exact (List.append_nil _).symm.trans hwant

/-- A kernel that answers by a list, and then takes all it is offered. -/
def Kernel.ofList (answers : List Answer) : Kernel :=
  ⟨fun i => answers.getD i (.accepts 4096), false, 16⟩

/-- A run that blocks twice and ends with a shutdown is in order. -/
theorem runOps_inOrder_blocked :
    InOrder [.write [1, 2, 3], .write [4], .writeEvent, .sendfile [5, 6], .shutdown, .writeEvent]
      (runOps (.ofList [.accepts 1, .eagain, .accepts 2, .eagain])
        [.write [1, 2, 3], .write [4], .writeEvent, .sendfile [5, 6], .shutdown, .writeEvent]
        .init) :=
  runOps_inOrder _ _
    (finalShutdown_append [.write [1, 2, 3], .write [4], .writeEvent, .sendfile [5, 6]]
      [.writeEvent] (by decide) (by decide))
    (by unfold AllFit; decide)

/-- **A slot that was a write before loses the file it is taken for.** -/
theorem runOps_inOrder_fails_reused_slot :
    FinalShutdown [.write [1, 2], .writeEvent, .sendfile [3, 4], .writeEvent] ∧
      ¬ InOrder [.write [1, 2], .writeEvent, .sendfile [3, 4], .writeEvent]
        (runOps (.ofList [.eagain, .accepts 2, .eagain])
          [.write [1, 2], .writeEvent, .sendfile [3, 4], .writeEvent] .init) := by
  refine ⟨finalShutdown_of_not_mem (by decide), fun h => ?_⟩
  exact absurd (h.complete (by decide)) (by decide)

end Ape.Socket

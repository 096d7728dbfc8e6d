import ApeServer.Endpoint.Slots

/-!
# When `APE_SOCKET_WOULD_BLOCK` is true

The events are edge-triggered: a socket that is marked as blocked is worked on again only if some
call was refused, or took less than it was offered, after the mark was last taken off.  Three
places break this.  `APE_sendfile` marks the socket when it only queues; a `writev` that takes all
it was offered marks the socket when there are more packets than it may offer, or when it fails;
and a slot taken behind an idle one is never reached.

* `NoFalseBlock` — the mark is true;
* `Unstalled` — the step is none of the three;
* `Smooth` — the invariant, with one lemma for each function;
* `blocking_honest` — **in every run of such steps the mark is true, and the jobs are left behind
  only when the system did not take all it was offered**.
-/

namespace Ape.Endpoint

open Socket (PoolList JobSlot JobType JobPtr Packet seek packetLoop activeCount
  activeCount_modifyHead activeCount_finish)

/-! ## What is promised -/

/-- An answer that leaves a write event to come: `EAGAIN`, or fewer bytes than were offered. -/
def Action.short : Action → Bool
  | .answered _ .again => true
  | .answered asked (.took n) => n < asked
  | _ => false

/-- The system took all it was offered. -/
def Action.full : Action → Bool
  | .answered asked (.took n) => asked ≤ n
  | .answered _ _ => false
  | _ => true

/-- There was such an answer since `APE_SOCKET_WOULD_BLOCK` was last cleared. -/
def shortSinceClear (log : List Action) : Bool :=
  log.foldl (fun b a => if a = .cleared then false else b || a.short) false

/-- The mark is true. -/
def NoFalseBlock (s : Sock) : Prop := s.wouldBlock = true → shortSinceClear s.log = true

/-- The system took all that `ape_socket_do_jobs` offers in this state. -/
def JobsTaken (sys : System) (s : Sock) : Prop :=
  ∀ a ∈ (doJobs sys s).log.drop s.log.length, a.full = true

instance (sys : System) (s : Sock) : Decidable (JobsTaken sys s) :=
  inferInstanceAs (Decidable (∀ a ∈ (doJobs sys s).log.drop s.log.length, a.full = true))

/-! ## The steps that go wrong -/

/-- The call is `APE_sendfile`. -/
def Label.sendsFile : Label → Bool
  | .sendfile _ => true
  | _ => false

/-- The slot a call takes. -/
def Label.takes (sys : System) (s : Sock) : Label → Option JobType
  | .write data =>
    if s.state = .online ∧ data ≠ [] ∧
        (s.mustQueue = true ∨ (writeLoop sys data.length data s).1 = .again) then some .writev
    else none
  | .sendfile content =>
    if s.state = .online ∧
        (s.mustQueue = true ∨ (sendfileLoop sys (content.length + 1) content s).1 = .again) then
      some .sendfile
    else none
  | _ => none

/-- The step calls `ape_socket_do_jobs`. -/
def Label.worksOff (s : Sock) : Label → Bool
  | .doJobs => true
  | .work => s.state = .online && !s.wouldBlock
  | _ => false

/-- The next `writev` is refused, takes less than it is offered, or covers the whole queue. -/
def writevOk (sys : System) (q : PoolList Packet) (s : Sock) : Bool :=
  match (sys.reply s.calls).clip (chunks sys q) with
  | .again => true
  | .took n => n < chunks sys q || (waiting q).length ≤ sys.maxChunks
  | _ => false

/-- Every `writev` of `ape_socket_do_jobs` is refused, takes less than it is offered, or covers its
queue. -/
def roundsOk (sys : System) : Nat → Sock → Bool
  | 0, _ => true
  | fuel + 1, s =>
    if s.jobs.head.active = false then true
    else
      match s.jobs.head.kind, s.jobs.head.ptr with
      | some .writev, .packets q =>
        writevOk sys q s &&
          (!(doWritev sys s).1 || roundsOk sys fuel (finishJob (doWritev sys s).2))
      | some .sendfile, _ =>
        !(doSendfile sys s).1 || roundsOk sys fuel (finishJob (doSendfile sys s).2)
      | none, _ => roundsOk sys fuel (finishJob s)
      | _, _ => true

/-- The step does not send a file while a job waits and the mark is off; takes no slot behind an
idle one; and none of its `writev` fails or takes all it is offered and leaves packets. -/
structure Unstalled (sys : System) (s : Sock) (l : Label) : Prop where
  sendfile : l.sendsFile = true → s.state = .online → s.jobs.head.active = true →
    s.wouldBlock = true
  slot : ∀ type ∈ l.takes sys s, (seek type s.jobs).before.all JobSlot.active = true
  writev : l.worksOff s = true → roundsOk sys (s.jobs.nodes.length + 1) s = true

/-- Every step of a run is of this kind. -/
def RunUnstalled (sys : System) : Sock → List Label → Prop
  | _, [] => True
  | s, l :: ls => Unstalled sys s l ∧ RunUnstalled sys (step sys s l) ls

/-! ## The log -/

theorem shortSinceClear_append {log ev : List Action} (h : .cleared ∉ ev) :
    shortSinceClear (log ++ ev) = (shortSinceClear log || ev.any Action.short) := by
  unfold shortSinceClear
  rw [List.foldl_append]
  generalize log.foldl (fun b a => if a = .cleared then false else b || a.short) false = b
  induction ev generalizing b with
  | nil => simp
  | cons a ev ih =>
    rw [List.mem_cons, not_or] at h
    rw [List.foldl_cons, if_neg (Ne.symm h.1), ih h.2, List.any_cons, Bool.or_assoc]

/-- A refused or shortened call was not taken in full. -/
theorem Action.short_not_full {a : Action} (h : a.short = true) : a.full = false := by
  cases a with
  | answered asked reply =>
    cases reply with
    | took n =>
      simp only [Action.short, decide_eq_true_eq] at h
      simp only [Action.full, decide_eq_false_iff_not]
      omega
    | _ => rfl
  | _ => exact Bool.noConfusion h

/-- From `s` to `s'` the mark and the jobs are as they were, and `ev` has been added to the log. -/
structure Still (s s' : Sock) (ev : List Action) : Prop where
  secure : s'.secure = s.secure
  wouldBlock : s'.wouldBlock = s.wouldBlock
  jobs : s'.jobs = s.jobs
  log : s'.log = s.log ++ ev
  cleared : .cleared ∉ ev

theorem Still.refl (s : Sock) : Still s s [] := ⟨rfl, rfl, rfl, by simp, by simp⟩

theorem Still.trans {s s' s'' : Sock} {ev ev' : List Action} (h : Still s s' ev)
    (h' : Still s' s'' ev') : Still s s'' (ev ++ ev') := by
  refine ⟨h'.secure.trans h.secure, h'.wouldBlock.trans h.wouldBlock, h'.jobs.trans h.jobs, ?_, ?_⟩
  · rw [h'.log, h.log, List.append_assoc]
  · rw [List.mem_append, not_or]
    exact ⟨h.cleared, h'.cleared⟩

theorem Still.entry {s s' : Sock} {a : Action} (ha : a ≠ .cleared) (hsecure : s'.secure = s.secure)
    (hmark : s'.wouldBlock = s.wouldBlock) (hjobs : s'.jobs = s.jobs)
    (hlog : s'.log = s.log ++ [a]) : Still s s' [a] :=
  ⟨hsecure, hmark, hjobs, hlog, by simpa using Ne.symm ha⟩

/-- A mark that is true stays true where nothing is written and nothing is cleared. -/
theorem NoFalseBlock.still {s s' : Sock} {ev : List Action} (h : NoFalseBlock s)
    (hstill : Still s s' ev) : NoFalseBlock s' := by
  intro hmark
  rw [hstill.wouldBlock] at hmark
  rw [hstill.log, shortSinceClear_append hstill.cleared, h hmark, Bool.true_or]

/-- The mark is put on after a short answer. -/
theorem NoFalseBlock.short {s s' : Sock} {ev : List Action} (hlog : s'.log = s.log ++ ev)
    (hcleared : .cleared ∉ ev) (hshort : ∃ a ∈ ev, a.short = true) : NoFalseBlock s' := by
  intro _
  rw [hlog, shortSinceClear_append hcleared, List.any_eq_true.2 hshort, Bool.or_true]

/-! ## The calls -/

theorem ask_still (sys : System) (asked : Nat) (s : Sock) :
    Still s (ask sys asked s).2 [.answered asked (ask sys asked s).1] :=
  .entry (by simp) rfl rfl rfl rfl

theorem destroy_still (s : Sock) : ∃ ev, Still s (destroy s) ev := by
  unfold destroy
  split_ifs
  · exact ⟨[], .refl s⟩
  · exact ⟨_, .entry (a := .onDisconnect) (by simp) rfl rfl rfl rfl⟩
  · exact ⟨[.close, .free], rfl, rfl, rfl, by simp [finishDestroy, Sock.note], by simp⟩

theorem shutdownForce_still (sys : System) (s : Sock) : ∃ ev, Still s (shutdownForce sys s) ev := by
  unfold shutdownForce
  split_ifs
  · exact ⟨[], .refl s⟩
  · have hshut : Still s { s.note .shutdown with calls := s.calls + 1 } [.shutdown] :=
      .entry (by simp) rfl rfl rfl rfl
    simp only [shutdownFd]
    split_ifs
    · obtain ⟨ev, hdestroy⟩ := destroy_still { s.note .shutdown with calls := s.calls + 1 }
      exact ⟨_, hshut.trans hdestroy⟩
    · exact ⟨_, hshut⟩

/-- The loop of `APE_socket_write` blocks at an `EAGAIN`, with bytes left. -/
theorem writeLoop_still (sys : System) (fuel : Nat) (rest : List UInt8) (s : Sock) :
    ∃ ev, Still s (writeLoop sys fuel rest s).2.2 ev ∧
      ((writeLoop sys fuel rest s).1 = .again → (∃ a ∈ ev, a.short = true) ∧
        (writeLoop sys fuel rest s).2.1 ≠ []) := by
  induction fuel generalizing rest s with
  | zero => exact ⟨[], .refl s, fun h => Outcome.noConfusion h⟩
  | succ fuel ih =>
    simp only [writeLoop]
    by_cases hnil : rest = []
    · rw [if_pos hnil]
      exact ⟨[], .refl s, fun h => Outcome.noConfusion h⟩
    · rw [if_neg hnil]
      have hask := ask_still sys rest.length s
      revert hask
      rcases ask sys rest.length s with ⟨n | _ | _ | _, s'⟩
      · intro hask
        obtain ⟨ev, hstill, hagain⟩ := ih (rest.drop n) s'
        refine ⟨_, hask.trans hstill, fun h => ?_⟩
        obtain ⟨⟨a, ha, hshort⟩, hrest⟩ := hagain h
        exact ⟨⟨a, List.mem_append_right _ ha, hshort⟩, hrest⟩
      · exact fun hask => ⟨_, hask, fun _ => ⟨⟨_, List.mem_singleton_self _, rfl⟩, hnil⟩⟩
      · exact fun hask => ⟨_, hask, fun h => Outcome.noConfusion h⟩
      · exact fun hask => ⟨_, hask, fun h => Outcome.noConfusion h⟩

/-- The loop over `sendfile` blocks at an `EAGAIN`. -/
theorem sendfileLoop_still (sys : System) (fuel : Nat) (rest : List UInt8) (s : Sock) :
    ∃ ev, Still s (sendfileLoop sys fuel rest s).2.2 ev ∧
      ((sendfileLoop sys fuel rest s).1 = .again → ∃ a ∈ ev, a.short = true) := by
  induction fuel generalizing rest s with
  | zero => exact ⟨[], .refl s, fun h => Outcome.noConfusion h⟩
  | succ fuel ih =>
    simp only [sendfileLoop]
    have hask := ask_still sys (rest.take 4096).length s
    revert hask
    rcases ask sys (rest.take 4096).length s with ⟨n | _ | _ | _, s'⟩
    · intro hask
      simp only
      by_cases hzero : n = 0
      · rw [if_pos hzero]
        exact ⟨_, hask, fun h => Outcome.noConfusion h⟩
      · rw [if_neg hzero]
        obtain ⟨ev, hstill, hagain⟩ := ih (rest.drop n) s'
        refine ⟨_, hask.trans hstill, fun h => ?_⟩
        obtain ⟨a, ha, hshort⟩ := hagain h
        exact ⟨a, List.mem_append_right _ ha, hshort⟩
    · exact fun hask => ⟨_, hask, fun _ => ⟨_, List.mem_singleton_self _, rfl⟩⟩
    · exact fun hask => ⟨_, hask, fun h => Outcome.noConfusion h⟩
    · exact fun hask => ⟨_, hask, fun h => Outcome.noConfusion h⟩

/-! ## The invariant -/

/-- A plain socket whose slots are in order and whose mark is true. -/
structure Smooth (s : Sock) : Prop where
  plain : s.secure = false
  slots : ∀ j ∈ s.jobs.nodes, SlotOk j
  ring : ActiveRing s.jobs
  honest : NoFalseBlock s

theorem smooth_new (state : SocketState) (r c d : Bool) : Smooth (Sock.new state false r c d) := by
  refine ⟨rfl, fun j hj => ?_, activeRing_init, fun h => Bool.noConfusion h⟩
  rw [show (Sock.new state false r c d).jobs.nodes = [.fresh, .fresh] from rfl] at hj
  simp only [List.mem_cons, List.not_mem_nil, or_false, or_self] at hj
  rw [hj]
  exact slotOk_fresh

theorem Smooth.still {s s' : Sock} {ev : List Action} (h : Smooth s) (hstill : Still s s' ev) :
    Smooth s' :=
  ⟨hstill.secure.trans h.plain, by rw [hstill.jobs]; exact h.slots, by rw [hstill.jobs]; exact h.ring,
    h.honest.still hstill⟩

/-- Fields that are not named may change. -/
theorem Smooth.same {s s' : Sock} (h : Smooth s) (hsecure : s'.secure = s.secure)
    (hmark : s'.wouldBlock = s.wouldBlock) (hjobs : s'.jobs = s.jobs) (hlog : s'.log = s.log) :
    Smooth s' :=
  h.still (show Still s s' [] from ⟨hsecure, hmark, hjobs, by simp [hlog], by simp⟩)

/-- The mark is put on after a short answer. -/
theorem Smooth.block {s s' : Sock} {ev : List Action} (h : Smooth s) (hstill : Still s s' ev)
    (hshort : ∃ a ∈ ev, a.short = true) : Smooth s'.block :=
  ⟨hstill.secure.trans h.plain, by rw [show s'.block.jobs = s.jobs from hstill.jobs]; exact h.slots,
    by rw [show s'.block.jobs = s.jobs from hstill.jobs]; exact h.ring,
    .short hstill.log hstill.cleared hshort⟩

/-- A ring with well-formed slots may be stored. -/
theorem Smooth.setJobs {s : Sock} (h : Smooth s) {jobs : PoolList JobSlot}
    (hslots : ∀ j ∈ jobs.nodes, SlotOk j) (hring : ActiveRing jobs) : Smooth (setJobs jobs s) :=
  ⟨h.plain, hslots, hring, h.honest⟩

/-- The slot that is taken, with its pointer. -/
theorem Smooth.take {s : Sock} (h : Smooth s) {type : JobType}
    (hfit : (seek type s.jobs).before.all JobSlot.active = true) {f : JobSlot → JobSlot}
    (hf : SlotOk (seek type s.jobs).current → SlotOk (f (seek type s.jobs).current)) :
    Smooth (Endpoint.setJobs ((seek type s.jobs).modifyCurrent f) s) := by
  have hseek := forall_seek h.slots slotOk_fresh type
  exact h.setJobs (PoolList.forall_modifyCurrent hseek (hf (hseek _ (PoolList.current_mem _))))
    (activeRing_take h.ring hfit f)

/-- **Queueing** the bytes that are left of some data keeps the socket smooth. -/
theorem Smooth.queueData {s : Sock} (h : Smooth s) {data : List UInt8} {offset : Nat}
    (hoffset : offset < data.length)
    (hfit : (seek .writev s.jobs).before.all JobSlot.active = true) :
    Smooth (queueData data offset s) := by
  have hcurrent : (getSlot .writev s).jobs.current.ptr = (seek .writev s.jobs).current.ptr := rfl
  have hpackets : ∀ q, FullQueue q →
      Smooth (setPtr (.packets (Socket.push data offset q)) (getSlot .writev s)) := by
    intro q hq
    refine h.take (f := fun j => { j.take .writev with ptr := .packets (Socket.push data offset q) })
      hfit fun hslot => ?_
    exact slotOk_packets (j := (seek .writev s.jobs).current.take .writev) hslot.shutdown rfl
      (hq.push hoffset)
  simp only [Endpoint.queueData]
  cases hptr : (getSlot .writev s).jobs.current.ptr with
  | null => exact hpackets _ fullQueue_init
  | packets q =>
    have hslot := forall_seek h.slots slotOk_fresh .writev _ (PoolList.current_mem _)
    exact hpackets q (hslot.queue q (hcurrent.symm.trans hptr))
  | file rest =>
    -- the slot has been a file's, so it is a `writev` no longer
    have htaken : Smooth (getSlot .writev s) := by
      refine h.take hfit fun hslot => ?_
      have hsendfile := hslot.file rest (hcurrent.symm.trans hptr)
      refine ⟨fun _ hkind => ?_, hslot.queue, fun _ hkind => ?_, hslot.file, hslot.shutdown⟩
      · have hnot := (kind_eq_some.1 hkind).2
        rw [show ((seek .writev s.jobs).current.take .writev).sendfile =
          (seek .writev s.jobs).current.sendfile from rfl, hsendfile] at hnot
        exact Bool.noConfusion hnot
      · exact Bool.noConfusion (kind_eq_some.2.1 hkind).2
    exact htaken.still (.entry (a := .fault) (by simp) rfl rfl rfl rfl)

/-- Queueing a file behind the active slots keeps the socket smooth. -/
theorem Smooth.queueFile {s : Sock} (h : Smooth s) (rest : List UInt8)
    (hfit : (seek .sendfile s.jobs).before.all JobSlot.active = true) :
    Smooth (setPtr (.file rest) (getSlot .sendfile s)) := by
  refine h.take (f := fun j => { j.take .sendfile with ptr := .file rest }) hfit fun hslot => ?_
  exact slotOk_file (j := (seek .sendfile s.jobs).current.take .sendfile) hslot.shutdown rfl rest

/-- **`APE_socket_write`** keeps the socket smooth, if it is none of the steps that go wrong. -/
theorem Smooth.write {sys : System} {s : Sock} (h : Smooth s) {data : List UInt8}
    (hok : Unstalled sys s (.write data)) : Smooth (apeSocketWrite sys data s) := by
  unfold apeSocketWrite
  by_cases hnot : s.state ≠ .online ∨ data = []
  · rw [if_pos hnot]
    exact h
  rw [if_neg hnot]
  rw [not_or, not_not] at hnot
  obtain ⟨honline, hne⟩ := hnot
  have hpos := List.length_pos_iff.2 hne
  by_cases hqueued : s.mustQueue = true
  · rw [if_pos hqueued]
    exact h.queueData hpos (hok.slot .writev (by simp [Label.takes, honline, hne, hqueued]))
  rw [if_neg hqueued, if_neg (by simp [h.plain])]
  obtain ⟨ev, hstill, hagain⟩ := writeLoop_still sys data.length data s
  have hfit : (writeLoop sys data.length data s).1 = .again →
      (seek .writev s.jobs).before.all JobSlot.active = true :=
    fun hloop => hok.slot .writev (by simp [Label.takes, honline, hne, hloop])
  revert hstill hagain hfit
  rcases writeLoop sys data.length data s with ⟨_ | _ | _, rest, s'⟩
  · exact fun hstill _ _ => h.still hstill
  · intro hstill hagain hfit
    obtain ⟨hshort, hrest⟩ := hagain rfl
    change rest ≠ [] at hrest
    have hleft := List.length_pos_iff.2 hrest
    apply (h.block hstill hshort).queueData (by omega)
    rw [show s'.block.jobs = s.jobs from hstill.jobs]
    exact hfit rfl
  · intro hstill _ _
    obtain ⟨ev', hforce⟩ := shutdownForce_still sys s'
    exact h.still (hstill.trans hforce)

/-- **`APE_sendfile`** keeps the socket smooth, if it is none of the steps that go wrong. -/
theorem Smooth.sendfile {sys : System} {s : Sock} (h : Smooth s) {content : List UInt8}
    (hok : Unstalled sys s (.sendfile content)) : Smooth (apeSendfile sys content s) := by
  unfold apeSendfile
  by_cases hnot : s.state ≠ .online
  · rw [if_pos hnot]
    exact h
  rw [if_neg hnot]
  have honline : s.state = .online := not_not.1 hnot
  by_cases hqueued : s.mustQueue = true
  · rw [if_pos hqueued]
    -- the mark is on already
    have hmark : s.wouldBlock = true := by
      simp only [Sock.mustQueue, Bool.or_eq_true] at hqueued
      exact hqueued.elim id (hok.sendfile rfl honline)
    have hblock : Smooth s.block := h.same rfl hmark.symm rfl rfl
    exact hblock.queueFile content (hok.slot .sendfile (by simp [Label.takes, honline, hqueued]))
  rw [if_neg hqueued]
  obtain ⟨ev, hstill, hagain⟩ := sendfileLoop_still sys (content.length + 1) content s
  have hfit : (sendfileLoop sys (content.length + 1) content s).1 = .again →
      (seek .sendfile s.jobs).before.all JobSlot.active = true :=
    fun hloop => hok.slot .sendfile (by simp [Label.takes, honline, hloop])
  revert hstill hagain hfit
  rcases sendfileLoop sys (content.length + 1) content s with ⟨_ | _ | _, rest, s'⟩
  · exact fun hstill _ _ => h.still hstill
  · intro hstill hagain hfit
    apply (h.block hstill (hagain rfl)).queueFile rest
    rw [show s'.block.jobs = s.jobs from hstill.jobs]
    exact hfit rfl
  · exact fun hstill _ _ => h.still hstill

/-! ## Working the jobs off -/

theorem setHead_jobs (f : JobSlot → JobSlot) (s : Sock) :
    (setHead f s).jobs = s.jobs.modifyHead f := rfl

/-- A store through the head that keeps it active or idle. -/
theorem Smooth.setHead {s : Sock} (h : Smooth s) {f : JobSlot → JobSlot}
    (hactive : (f s.jobs.head).active = s.jobs.head.active) (hf : SlotOk (f s.jobs.head)) :
    Smooth (setHead f s) :=
  h.setJobs (PoolList.forall_modifyHead h.slots hf) (h.ring.modifyHead hactive)

/-- The end of a round that leaves this pointer. -/
theorem Smooth.finishJob {s : Sock} (h : Smooth s) (hactive : s.jobs.head.active = true)
    {ptr : JobPtr} (hslot : SlotOk { s.jobs.head with active := false, ptr := ptr }) :
    Smooth (finishJob (Endpoint.setHead (fun j => { j with ptr := ptr }) s)) := by
  have hring := (h.ring.modifyHead (f := fun j => { j with ptr := ptr }) rfl).finish
    (by rw [PoolList.head_modifyHead]; exact hactive)
  refine h.setJobs (fun j hj => ?_) hring
  have hmem := (PoolList.nodes_headToCurrent _).mem_iff.1 hj
  rw [setHead_jobs, setHead_jobs, PoolList.modifyHead_modifyHead] at hmem
  exact PoolList.forall_modifyHead h.slots (f := fun j => { j with active := false, ptr := ptr })
    hslot j hmem

/-- The end of a round that leaves the pointer. -/
theorem Smooth.finishSame {s : Sock} (h : Smooth s) (hactive : s.jobs.head.active = true) :
    Smooth (Endpoint.finishJob s) := by
  have hsame : Endpoint.setHead (fun j => { j with ptr := s.jobs.head.ptr }) s = s := by
    rw [Endpoint.setHead, PoolList.modifyHead_eq_self rfl]
    rfl
  have hfinish := h.finishJob hactive
    (show SlotOk { s.jobs.head with active := false, ptr := s.jobs.head.ptr } from
      (h.slots _ s.jobs.head_mem).idle)
  rwa [hsame] at hfinish

/-- What a round does: it changes the head's pointer only, and a job that is not finished was not
taken in full. -/
structure Round (s s' : Sock) (finished : Bool) : Prop where
  left : finished = false → Smooth s'
  done : finished = true → Smooth (Endpoint.finishJob s')
  jobs : ∃ ptr, s'.jobs = s.jobs.modifyHead fun j => { j with ptr }
  log : ∃ ev, s'.log = s.log ++ ev ∧ (finished = false → ∃ a ∈ ev, a.full = false)

theorem Reply.le_of_clip {r : Reply} {asked n : Nat} (h : r.clip asked = .took n) : n ≤ asked := by
  cases r with
  | took m =>
    obtain rfl := Reply.took.inj h
    exact Nat.min_le_right _ _
  | _ => exact Reply.noConfusion h

/-- The store that leaves the ring as it is. -/
theorem jobs_self (jobs : PoolList JobSlot) :
    ∃ ptr, jobs = jobs.modifyHead fun j => { j with ptr } :=
  ⟨jobs.head.ptr, (PoolList.modifyHead_eq_self rfl).symm⟩

/-- **A round of a `writev` job** that the system does not cut short keeps the socket smooth. -/
theorem doWritev_round {sys : System} {s : Sock} (h : Smooth s) {q : PoolList Packet}
    (hactive : s.jobs.head.active = true) (hkind : s.jobs.head.kind = some .writev)
    (hptr : s.jobs.head.ptr = .packets q) (hok : writevOk sys q s = true) :
    Round s (doWritev sys s).2 (doWritev sys s).1 := by
  have hhead := h.slots _ s.jobs.head_mem
  have hfull := hhead.queue q hptr
  have hfuel : q.before.length ≤ q.nodes.length := by
    rw [PoolList.nodes, List.length_append]
    omega
  simp only [doWritev, hptr]
  rw [if_neg (by simp [h.plain])]
  have hask := ask_still sys (chunks sys q) s
  have hreply : (ask sys (chunks sys q) s).1 = (sys.reply s.calls).clip (chunks sys q) := rfl
  rw [writevOk, ← hreply] at hok
  revert hok hask hreply
  rcases ask sys (chunks sys q) s with ⟨n | _ | _ | _, s'⟩
  · intro hok hask hreply
    have hle := Reply.le_of_clip hreply.symm
    have hjobs : s'.jobs = s.jobs := hask.jobs
    have hsmooth : Smooth s' := h.still hask
    set q' := packetLoop q.nodes.length n q with hq'
    have hq : FullQueue q' := hfull.loop _ hfuel n
    have hwritev := (kind_eq_some.1 hkind).1
    have hslot : SlotOk { s'.jobs.head with ptr := .packets q' } := by
      rw [hjobs]
      exact slotOk_packets hhead.shutdown hwritev hq
    have hidle : SlotOk { s'.jobs.head with active := false, ptr := .packets q' } := by
      rw [hjobs]
      exact slotOk_packets (j := { s.jobs.head with active := false }) hhead.shutdown hwritev hq
    have hring : ∃ ptr, (s'.jobs.modifyHead fun j => { j with ptr := .packets q' }) =
        s.jobs.modifyHead fun j => { j with ptr } := ⟨.packets q', by rw [hjobs]⟩
    simp only
    by_cases hleft : q'.head.data.isSome = true
    · rw [if_pos hleft]
      -- packets are left, so the answer was short
      have hless : n < chunks sys q := by
        simp only [Bool.or_eq_true, decide_eq_true_eq] at hok
        rcases hok with hless | hcovered
        · exact hless
        · by_contra hnot
          obtain rfl : n = chunks sys q := by omega
          rw [hq', hfull.all hcovered] at hleft
          exact Bool.noConfusion hleft
      have hshort : Action.short (.answered (chunks sys q) (.took n)) = true := by
        simpa [Action.short] using hless
      have hset := hsmooth.setHead (f := fun j => { j with ptr := .packets q' }) rfl hslot
      refine ⟨fun _ => ⟨hset.plain, hset.slots, hset.ring, ?_⟩, fun hdone => Bool.noConfusion hdone,
        hring, _, hask.log, fun _ =>
          ⟨_, List.mem_singleton_self _, Action.short_not_full hshort⟩⟩
      exact .short (s := s) hask.log hask.cleared ⟨_, List.mem_singleton_self _, hshort⟩
    · rw [if_neg hleft]
      refine ⟨fun hleft => Bool.noConfusion hleft, fun _ => ?_, hring, _, hask.log,
        fun hleft => Bool.noConfusion hleft⟩
      exact hsmooth.finishJob (by rw [hjobs]; exact hactive) hidle
  · intro _ hask _
    refine ⟨fun _ => h.block hask ⟨_, List.mem_singleton_self _, rfl⟩,
      fun hdone => Bool.noConfusion hdone, ?_, _, hask.log,
      fun _ => ⟨_, List.mem_singleton_self _, rfl⟩⟩
    rw [show s'.block.jobs = s.jobs from hask.jobs]
    exact jobs_self _
  · exact fun hok _ _ => Bool.noConfusion hok
  · exact fun hok _ _ => Bool.noConfusion hok

/-- **A round of a `sendfile` job** keeps the socket smooth. -/
theorem doSendfile_round {sys : System} {s : Sock} (h : Smooth s)
    (hactive : s.jobs.head.active = true) (hkind : s.jobs.head.kind = some .sendfile) :
    Round s (doSendfile sys s).2 (doSendfile sys s).1 := by
  have hhead := h.slots _ s.jobs.head_mem
  obtain ⟨rest, hptr⟩ := hhead.sendfile hactive hkind
  -- a file that is finished, or given up, is closed
  have hclose : ∀ s' ev, Still s s' ev →
      Round s (setHead (fun j => { j with ptr := .null }) s') true := by
    intro s' ev hstill
    have hjobs : s'.jobs = s.jobs := hstill.jobs
    refine ⟨fun hleft => Bool.noConfusion hleft, fun _ => ?_, ⟨.null, ?_⟩, ev, hstill.log,
      fun hleft => Bool.noConfusion hleft⟩
    · exact (h.still hstill).finishJob (by rw [hjobs]; exact hactive) (by rw [hjobs]; exact hhead.closed)
    · rw [setHead_jobs, hjobs]
  simp only [doSendfile, hptr]
  obtain ⟨ev, hstill, hagain⟩ := sendfileLoop_still sys (rest.length + 1) rest s
  revert hstill hagain
  rcases sendfileLoop sys (rest.length + 1) rest s with ⟨_ | _ | _, rest', s'⟩
  · exact fun hstill _ => hclose s' ev hstill
  · intro hstill hagain
    have hjobs : s'.jobs = s.jobs := hstill.jobs
    have hslot : SlotOk { s'.jobs.head with ptr := .file rest' } := by
      rw [hjobs]
      exact slotOk_file hhead.shutdown (kind_eq_some.2.1 hkind).1 rest'
    have hset := (h.still hstill).setHead (f := fun j => { j with ptr := .file rest' }) rfl hslot
    obtain ⟨a, ha, hshort⟩ := hagain rfl
    refine ⟨fun _ => ⟨hset.plain, hset.slots, hset.ring, ?_⟩, fun hdone => Bool.noConfusion hdone,
      ⟨.file rest', ?_⟩, ev, hstill.log, fun _ => ⟨a, ha, Action.short_not_full hshort⟩⟩
    · exact .short (s := s) hstill.log hstill.cleared ⟨a, ha, hshort⟩
    · change (setHead (fun j => { j with ptr := .file rest' }) s').jobs = _
      rw [setHead_jobs, hjobs]
  · exact fun hstill _ => hclose s' ev hstill

/-- A round that is finished leaves one active slot less. -/
theorem Round.count {s s' : Sock} {finished : Bool} (h : Round s s' finished)
    (hactive : s.jobs.head.active = true) :
    activeCount (Endpoint.finishJob s').jobs + 1 = activeCount s.jobs := by
  obtain ⟨ptr, hjobs⟩ := h.jobs
  have hhead : s'.jobs.head.active = true := by
    rw [hjobs, PoolList.head_modifyHead]
    exact hactive
  have hfinish : activeCount (Endpoint.finishJob s').jobs + 1 = activeCount s'.jobs :=
    activeCount_finish hhead
  rw [hfinish, hjobs]
  exact activeCount_modifyHead rfl

/-- **The jobs**: the mark stays true, and with all taken in full no job is left. -/
theorem doJobsLoop_smooth {sys : System} {fuel : Nat} {s : Sock} (h : Smooth s)
    (hfuel : activeCount s.jobs < fuel) (hok : roundsOk sys fuel s = true) :
    Smooth (doJobsLoop sys fuel s) ∧ ∃ ev, (doJobsLoop sys fuel s).log = s.log ++ ev ∧
      ((∀ a ∈ ev, a.full = true) → ∀ j ∈ (doJobsLoop sys fuel s).jobs.nodes, j.active = false) := by
  induction fuel generalizing s with
  | zero => omega
  | succ fuel ih =>
    rw [doJobsLoop]
    rw [roundsOk] at hok
    by_cases hidle : s.jobs.head.active = false
    · rw [if_pos hidle]
      exact ⟨h, [], (List.append_nil _).symm, fun _ => h.ring.head_idle hidle⟩
    rw [if_neg hidle] at hok ⊢
    have hactive : s.jobs.head.active = true := by simpa using hidle
    have hhead := h.slots _ s.jobs.head_mem
    -- one round, and the rest if it is finished
    have hround : ∀ s' finished, Round s s' finished →
        (finished = true → roundsOk sys fuel (Endpoint.finishJob s') = true) →
        Smooth (if finished then doJobsLoop sys fuel (Endpoint.finishJob s') else s') ∧
          ∃ ev, (if finished then doJobsLoop sys fuel (Endpoint.finishJob s') else s').log =
            s.log ++ ev ∧ ((∀ a ∈ ev, a.full = true) → ∀ j ∈ (if finished then
              doJobsLoop sys fuel (Endpoint.finishJob s') else s').jobs.nodes, j.active = false) := by
      intro s' finished hr hnext
      obtain ⟨ev, hlog, hnot⟩ := hr.log
      cases finished with
      | false =>
        refine ⟨hr.left rfl, ev, hlog, fun hall => ?_⟩
        obtain ⟨a, ha, hfull⟩ := hnot rfl
        rw [hall a ha] at hfull
        exact Bool.noConfusion hfull
      | true =>
        have hcount := hr.count hactive
        obtain ⟨hsmooth, ev', hlog', hclean⟩ := ih (hr.done rfl) (by omega) (hnext rfl)
        refine ⟨hsmooth, ev ++ ev', ?_, fun hall => hclean fun a ha =>
          hall a (List.mem_append_right _ ha)⟩
        rw [if_pos rfl, hlog', show (Endpoint.finishJob s').log = s'.log from rfl, hlog,
          List.append_assoc]
    cases hkind : s.jobs.head.kind with
    | none =>
      rw [hkind] at hok
      have hr : Round s s true := ⟨fun hleft => Bool.noConfusion hleft, fun _ => h.finishSame hactive,
        jobs_self _, [], (List.append_nil _).symm, fun hleft => Bool.noConfusion hleft⟩
      exact hround s true hr fun _ => hok
    | some type =>
      rw [hkind] at hok
      cases type with
      | writev =>
        obtain ⟨q, hptr⟩ := hhead.writev hactive hkind
        rw [hptr] at hok
        simp only [Bool.and_eq_true, Bool.or_eq_true, Bool.not_eq_true'] at hok
        refine hround (doWritev sys s).2 (doWritev sys s).1
          (doWritev_round h hactive hkind hptr hok.1) fun hdone => ?_
        exact hok.2.resolve_left (by rw [hdone]; simp)
      | sendfile =>
        simp only [Bool.or_eq_true, Bool.not_eq_true'] at hok
        refine hround (doSendfile sys s).2 (doSendfile sys s).1
          (doSendfile_round h hactive hkind) fun hdone => ?_
        exact hok.resolve_left (by rw [hdone]; simp)
      | shutdown =>
        have hnot := kind_eq_some.2.2 hkind
        rw [hhead.shutdown] at hnot
        exact Bool.noConfusion hnot

/-- **`ape_socket_do_jobs`** keeps the socket smooth, and leaves no job if the system took all. -/
theorem doJobs_smooth {sys : System} {s : Sock} (h : Smooth s)
    (hok : roundsOk sys (s.jobs.nodes.length + 1) s = true) :
    Smooth (doJobs sys s) ∧
      (JobsTaken sys s → ∀ j ∈ (doJobs sys s).jobs.nodes, j.active = false) := by
  have hfuel : activeCount s.jobs < s.jobs.nodes.length + 1 :=
    Nat.lt_succ_of_le List.countP_le_length
  obtain ⟨hsmooth, ev, hlog, hclean⟩ := doJobsLoop_smooth h hfuel hok
  refine ⟨hsmooth, fun htaken => hclean fun a ha => htaken a ?_⟩
  rw [show (doJobs sys s).log = s.log ++ ev from hlog, List.drop_left]
  exact ha

/-! ## Runs -/

/-- A read, and what follows it, leave the mark and the jobs alone. -/
theorem apeSocketRead_still (sys : System) (nread : Nat) (e : ReadEnd) (s : Sock) :
    ∃ ev, Still s (apeSocketRead sys nread e s) ev := by
  have hfinish : ∀ s' ev, Still s s' ev → ∃ ev', Still s (finishRead (e = .eof) s') ev' := by
    intro s' ev hstill
    unfold finishRead
    split_ifs
    · obtain ⟨ev', hdestroy⟩ := destroy_still s'
      exact ⟨_, hstill.trans hdestroy⟩
    · exact ⟨ev, hstill⟩
  unfold apeSocketRead
  split_ifs with hstate
  · exact ⟨[], .refl s⟩
  have hused : Still s { s with used := s.used + nread } [] := ⟨rfl, rfl, rfl, by simp, by simp⟩
  simp only
  split_ifs
  · obtain ⟨ev, hforce⟩ := shutdownForce_still sys { s with used := s.used + nread }
    exact ⟨_, hused.trans hforce⟩
  · exact hfinish _ _ hused
  · exact ⟨[.onRead], rfl, rfl, rfl, rfl, by simp⟩
  · exact hfinish _ [] ⟨rfl, rfl, rfl, by simp, by simp⟩

/-- The return of a callback leaves the jobs and the flag alone. -/
theorem ret_still (s : Sock) : ∃ ev, Still s (ret s) ev := by
  unfold ret
  split
  · exact ⟨[], .refl s⟩
  · exact ⟨[.close, .free], rfl, rfl, rfl, by simp [finishDestroy, Sock.note], by simp⟩
  · rename_i eof stack _
    have hpop : Still s { s with stack := stack, used := 0 } [] := ⟨rfl, rfl, rfl, by simp, by simp⟩
    unfold finishRead
    split_ifs
    · obtain ⟨ev, hdestroy⟩ := destroy_still { s with stack := stack, used := 0 }
      exact ⟨_, hpop.trans hdestroy⟩
    · exact ⟨[], hpop⟩
  · exact ⟨[], rfl, rfl, rfl, by simp, by simp⟩

/-- **One step** that is none of the three keeps the invariant. -/
theorem smooth_step {sys : System} {s : Sock} (h : Smooth s) {l : Label} (hl : l ≠ .shutdown)
    (hok : Unstalled sys s l) : Smooth (step sys s l) := by
  unfold step
  by_cases hallows : s.allows l = true
  swap
  · rw [if_neg hallows]
    exact h
  rw [if_pos hallows]
  cases l with
  | write data => exact h.write hok
  | sendfile content => exact h.sendfile hok
  | shutdown => exact absurd rfl hl
  | destroy =>
    obtain ⟨ev, hstill⟩ := destroy_still s
    exact h.still hstill
  | connect port =>
    simp only [Label.exec, apeSocketConnect]
    split_ifs
    · obtain ⟨ev, hstill⟩ := destroy_still s
      exact h.still hstill
    · exact h.same rfl rfl rfl rfl
  | lookedUp resolved =>
    have hdestroy : ∀ s', Smooth s' → Smooth (destroy s') := by
      intro s' hs'
      obtain ⟨ev, hstill⟩ := destroy_still s'
      exact hs'.still hstill
    simp only [Label.exec, connectReady]
    split_ifs
    · exact hdestroy _ (h.same rfl rfl rfl rfl)
    · split
      · exact h.same rfl rfl rfl rfl
      · exact hdestroy _ (h.same rfl rfl rfl rfl)
  | clear => exact ⟨h.plain, h.slots, h.ring, fun hmark => Bool.noConfusion hmark⟩
  | read nread e =>
    obtain ⟨ev, hstill⟩ := apeSocketRead_still sys nread e s
    exact h.still hstill
  | doJobs => exact (doJobs_smooth h (hok.writev rfl)).1
  | work =>
    simp only [Label.exec, work]
    by_cases honline : s.state = .online ∧ s.wouldBlock = false
    · rw [if_pos honline]
      exact (doJobs_smooth h (hok.writev (by simp [Label.worksOff, honline]))).1
    rw [if_neg honline]
    split_ifs
    · exact h.same rfl rfl rfl rfl
    · exact h.still (.entry (a := .onConnected) (by simp) rfl rfl rfl rfl)
    · exact h.same rfl rfl rfl rfl
    · exact h
  | ret =>
    obtain ⟨ev, hstill⟩ := ret_still s
    exact h.still hstill

/-- **Every run** of such steps keeps it, and every step of it is such a step. -/
theorem smooth_run {sys : System} {s : Sock} (h : Smooth s) {pre post : List Label}
    (hpre : .shutdown ∉ pre) (hok : RunUnstalled sys s (pre ++ post)) :
    Smooth (run sys s pre) ∧ RunUnstalled sys (run sys s pre) post := by
  induction pre generalizing s with
  | nil => exact ⟨h, hok⟩
  | cons l pre ih =>
    rw [List.mem_cons, not_or] at hpre
    exact ih (smooth_step h (Ne.symm hpre.1) hok.1) hpre.2 hok.2

/-- **No false blocking.**  Whatever the system answers, in every run of a plain socket without
`APE_socket_shutdown` whose steps are none of the three, at every point of it the mark is on only
if a call was refused or shortened since it was last taken off, and `ape_socket_do_jobs`, when it
is called next and the system takes all it offers, leaves no active job. -/
theorem blocking_honest (sys : System) (state : SocketState) (r c d : Bool) (ls : List Label)
    (hops : .shutdown ∉ ls) (hok : RunUnstalled sys (Sock.new state false r c d) ls) :
    ∀ pre post, ls = pre ++ post →
      NoFalseBlock (run sys (Sock.new state false r c d) pre) ∧
      ∀ l ∈ post.head?, l.worksOff (run sys (Sock.new state false r c d) pre) = true →
        JobsTaken sys (run sys (Sock.new state false r c d) pre) →
        ∀ j ∈ (doJobs sys (run sys (Sock.new state false r c d) pre)).jobs.nodes,
          j.active = false := by
  rintro pre post rfl
  have hpre : Label.shutdown ∉ pre := fun hmem => hops (List.mem_append_left _ hmem)
  obtain ⟨hsmooth, hpost⟩ := smooth_run (smooth_new state r c d) hpre hok
  refine ⟨hsmooth.honest, fun l hl hworks => ?_⟩
  cases post with
  | nil => exact absurd hl (by simp)
  | cons l' post =>
    obtain rfl : l' = l := by simpa using hl
    exact (doJobs_smooth hsmooth (hpost.1.writev hworks)).2

/-- A system that refuses its first and its fifth call, and takes what it is offered of the
others. -/
def slowSystem : System :=
  ⟨fun n => if n = 0 ∨ n = 4 then .again else .took 1000, fun _ => false, fun _ => .inProgress,
    fun _ => false, 1024⟩

/-- A write that is refused, a file behind it, and a write event: the jobs are worked off. -/
theorem blocking_honest_file :
    (doJobs slowSystem (run slowSystem (Sock.new .online false true true true)
      [.write [1, 2], .sendfile [3], .clear])).jobs.nodes.all (fun j => !j.active) = true := by
  rw [List.all_eq_true]
  intro j hj
  rw [Bool.not_eq_true']
  refine (blocking_honest slowSystem .online true true true
    [.write [1, 2], .sendfile [3], .clear, .work] (by decide) ?_
    [.write [1, 2], .sendfile [3], .clear] [.work] rfl).2 .work rfl (by decide) (by decide) j hj
  refine ⟨⟨?_, ?_, ?_⟩, ⟨?_, ?_, ?_⟩, ⟨?_, ?_, ?_⟩, ⟨?_, ?_, ?_⟩, trivial⟩
  all_goals decide

/-- **A file sent from `on_read`** while a job waits marks the socket with no call made since the
write event took the mark off, so the job is not worked on.  **A write refused behind two jobs that
are finished** takes a slot behind an idle one, and the next write event works on nothing. -/
theorem blocking_fails :
    ¬ NoFalseBlock (run slowSystem (Sock.new .online false true true true)
      [.write [1], .clear, .read 5 .again, .sendfile [2], .ret, .work]) ∧
    JobsTaken slowSystem (run slowSystem (Sock.new .online false true true true)
      [.write [1], .sendfile [2], .clear, .work, .write [3], .clear]) ∧
    ¬ ∀ j ∈ (doJobs slowSystem (run slowSystem (Sock.new .online false true true true)
      [.write [1], .sendfile [2], .clear, .work, .write [3], .clear])).jobs.nodes,
        j.active = false := by
  refine ⟨?_, ?_, ?_⟩
  · intro h
    exact absurd (h (by decide)) (by decide)
  · decide
  · decide

end Ape.Endpoint

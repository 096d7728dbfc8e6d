import ApeServer.Buffer.Basic
import ApeServer.Endpoint.Teardown
import ApeServer.Lib.Runs

/-!
# What a socket reads

`ape_socket_read` fills `data_in` until `read` has nothing more, hands it to `on_read`, and destroys
the socket if the last answer was a 0.  Any other error than `EAGAIN` is taken for `EAGAIN`.

* `Reads` — every finite sequence of answers of `read`;
* `Reader`, `apeSocketRead` — a plain socket with its buffer; `sock_apeSocketRead`, `sock_run` — the
  runs of `Endpoint` see the same socket;
* `ReadRight` — what is promised of a call when it returns;
* `Phase` — the invariant while the callbacks run;
* `readRight_iff` — **the promise is kept exactly when no other error ends the loop, unless `on_read`
  has destroyed the socket**.
-/

namespace Ape.Endpoint

open Runs (EachStep eachStep_concat foldl_of_eachStep)

/-! ## Reading -/

/-- An answer of `read` behind which the loop goes on: bytes, at least one, or `EINTR`. -/
inductive More where
  | bytes (first : UInt8) (rest : List UInt8)
  | eintr
  deriving DecidableEq, Repr

/-- The answer that ends the loop: a 0, `EAGAIN`, or any other error. -/
inductive Last where
  | eof
  | again
  | error
  deriving DecidableEq, Repr

/-- The answers of `read` in turn. -/
structure Reads where
  more : List More
  last : Last
  deriving DecidableEq, Repr

/-- A call of `read` with `used` bytes in the buffer, the bytes it was asked for, the size of the
buffer and what was stored; and a call of `on_read` with the contents of the buffer. -/
inductive Seen where
  | read (used asked size : Nat) (got : List UInt8)
  | onRead (data : List UInt8)
  deriving DecidableEq, Repr

/-- A call of `read` that stores the bytes `got`. -/
def seenRead (b : Buffer) (got : List UInt8) : Seen := .read b.used b.free b.size got

/-- The loop over `read`, from the label `socket_reread`.  The kernel stores no more than it was
asked for. -/
def reread : List More → Buffer → Buffer × List Seen
  | [], b => (b, [seenRead b []])
  | .eintr :: more, b =>
    let (b', seen) := reread more b
    (b', seenRead b [] :: seen)
  | .bytes first rest :: more, b =>
    let (b', seen) := reread more ((b.store (first :: rest)).prepare 2048)
    (b', seenRead b ((first :: rest).take b.free) :: seen)

/-- A plain socket with the contents of `data_in`; the log is a ghost. -/
structure Reader where
  sock : Sock
  dataIn : Buffer
  log : List Seen

/-- A socket whose `data_in` is empty, with memory of any size. -/
def Reader.new (s : Sock) (size : Nat) : Reader := ⟨s, .empty size, []⟩

/-- `ape_socket_read` behind the loop, up to the callback if there is one. -/
def handOver (last : Last) (s : Sock) (b : Buffer) (log : List Seen) : Reader :=
  let s := { s with used := b.used }
  let eof := decide (last = .eof)
  if b.used = 0 then ⟨finishRead eof s, b, log⟩
  else if s.hasOnRead then
    ⟨{ s.note .onRead with stack := .onRead eof :: s.stack }, b, log ++ [.onRead b.data]⟩
  else ⟨finishRead eof { s with used := 0 }, b.clear, log⟩

/-- `ape_socket_read` on a plain socket. -/
def Reader.apeSocketRead (reads : Reads) (r : Reader) : Reader :=
  if r.sock.state ≠ .online then r
  else
    let (b, seen) := reread reads.more (r.dataIn.prepare 2048)
    handOver reads.last r.sock b (r.log ++ seen)

/-- A call or the return of a callback.  `data_in` is emptied when `on_read` returns. -/
def Reader.step (sys : System) (r : Reader) (l : Label) : Reader :=
  match l, r.sock.stack with
  | .ret, .onRead _ :: _ => { r with sock := Endpoint.step sys r.sock l, dataIn := r.dataIn.clear }
  | _, _ => { r with sock := Endpoint.step sys r.sock l }

/-- What callbacks do. -/
def Reader.run (sys : System) (r : Reader) (ls : List Label) : Reader := ls.foldl (Reader.step sys) r

/-- The steps `ls` are those of the callbacks until `ape_socket_read` returns. -/
structure Returns (sys : System) (r : Reader) (ls : List Label) : Prop where
  inside : EachStep (Reader.step sys) (fun r _ => r.sock.stack ≠ []) r ls
  back : (r.run sys ls).sock.stack = []

/-! ## What is promised -/

/-- The bytes that were read. -/
def bytesRead (log : List Seen) : List UInt8 :=
  log.flatMap fun
    | .read _ _ _ got => got
    | .onRead _ => []

/-- The calls of `on_read`. -/
def onReads (log : List Seen) : List (List UInt8) :=
  log.filterMap fun
    | .read .. => none
    | .onRead data => some data

/-- A call of `read` asks for some bytes, and for no more than the buffer has room for. -/
def Seen.InBounds : Seen → Prop
  | .read used asked size _ => 0 < asked ∧ used + asked ≤ size
  | .onRead _ => True

/-- `ape_socket_read` has returned: `on_read`, if there is one, was called once if anything was read,
with all of it; `data_in` is empty; and the socket was destroyed unless the last answer was
`EAGAIN`. -/
structure ReadRight (hasOnRead : Bool) (last : Last) (r : Reader) : Prop where
  inBounds : ∀ e ∈ r.log, e.InBounds
  once : onReads r.log =
    if hasOnRead = true ∧ bytesRead r.log ≠ [] then [bytesRead r.log] else []
  emptied : r.dataIn.used = 0
  online : r.sock.state = .online → last = .again
  destroyed : last ≠ .again → r.sock.state = .offline

/-- An online plain socket, with nothing in `data_in`, while no callback runs. -/
structure AtRest (s : Sock) : Prop where
  online : s.state = .online
  plain : s.secure = false
  used : s.used = 0
  idle : s.stack = []

/-- The steps are calls of `on_read` and its return, at which the socket is destroyed. -/
def DestroyedInside (sys : System) (r : Reader) (ls : List Label) : Prop :=
  ∃ calls, ls = calls ++ [.ret] ∧ (r.run sys calls).sock.state = .offline

/-! ## The loop -/

theorem bytesRead_append (log log' : List Seen) :
    bytesRead (log ++ log') = bytesRead log ++ bytesRead log' := List.flatMap_append

theorem onReads_append (log log' : List Seen) :
    onReads (log ++ log') = onReads log ++ onReads log' := List.filterMap_append

theorem inBounds_read {b : Buffer} (hfree : 0 < b.free) (got : List UInt8) :
    (seenRead b got).InBounds := ⟨hfree, Nat.le_of_eq b.used_add_free⟩

/-- **The loop over `read`** stays in the buffer and leaves all that was read behind what was there. -/
theorem reread_spec (more : List More) {b : Buffer} (hfree : 0 < b.free) :
    (reread more b).1.data = b.data ++ bytesRead (reread more b).2 ∧
      onReads (reread more b).2 = [] ∧ ∀ e ∈ (reread more b).2, e.InBounds := by
  induction more generalizing b with
  | nil =>
    refine ⟨(List.append_nil _).symm, rfl, fun e he => ?_⟩
    rw [List.mem_singleton.1 he]
    exact inBounds_read hfree []
  | cons m more ih =>
    cases m with
    | eintr =>
      obtain ⟨hdata, honReads, hbounds⟩ := ih hfree
      exact ⟨hdata, honReads, List.forall_mem_cons.2 ⟨inBounds_read hfree [], hbounds⟩⟩
    | bytes first rest =>
      have hroom : 0 < ((b.store (first :: rest)).prepare 2048).free :=
        Nat.lt_of_lt_of_le (by decide) (Buffer.le_free_prepare 2048)
      obtain ⟨hdata, honReads, hbounds⟩ := ih hroom
      refine ⟨?_, honReads, List.forall_mem_cons.2 ⟨inBounds_read hfree _, hbounds⟩⟩
      rw [Buffer.data_prepare, Buffer.data_store, List.append_assoc] at hdata
      exact hdata

/-! ## The same socket -/

/-- How the runs of `Endpoint` see the end of the loop. -/
def Last.readEnd : Last → ReadEnd
  | .eof => .eof
  | _ => .again

theorem Reader.sock_step (sys : System) (r : Reader) (l : Label) :
    (r.step sys l).sock = Endpoint.step sys r.sock l := by
  unfold Reader.step
  split <;> rfl

/-- The callbacks do to the socket what they do in the runs of `Endpoint`. -/
theorem Reader.sock_run (sys : System) (r : Reader) (ls : List Label) :
    (r.run sys ls).sock = Endpoint.run sys r.sock ls := by
  induction ls generalizing r with
  | nil => rfl
  | cons l ls ih =>
    have hrest := ih (r.step sys l)
    rw [Reader.sock_step] at hrest
    exact hrest

/-- **The call does to the socket what it does in the runs of `Endpoint`**, where only the number of
bytes and the kind of the end are known. -/
theorem Reader.sock_apeSocketRead (sys : System) {r : Reader} (hplain : r.sock.secure = false)
    (hused : r.sock.used = r.dataIn.used) (reads : Reads) :
    ∃ nread, (r.apeSocketRead reads).sock =
      Endpoint.apeSocketRead sys nread reads.last.readEnd r.sock := by
  have hroom : 0 < (r.dataIn.prepare 2048).free :=
    Nat.lt_of_lt_of_le (by decide) (Buffer.le_free_prepare 2048)
  obtain ⟨hdata, -, -⟩ := reread_spec reads.more hroom
  rw [Buffer.data_prepare] at hdata
  refine ⟨(bytesRead (reread reads.more (r.dataIn.prepare 2048)).2).length, ?_⟩
  have hsum : (reread reads.more (r.dataIn.prepare 2048)).1.used =
      r.sock.used + (bytesRead (reread reads.more (r.dataIn.prepare 2048)).2).length := by
    rw [hused, Buffer.used, hdata, List.length_append]
    rfl
  have heof : (reads.last.readEnd = .eof) = (reads.last = .eof) := by
    cases reads.last <;> simp [Last.readEnd]
  have hnot : ¬ (r.sock.secure = true ∧ reads.last.readEnd = .fatal) := by simp [hplain]
  unfold Reader.apeSocketRead Endpoint.apeSocketRead handOver
  simp only [hsum, heof, hnot, if_false]
  split_ifs <;> rfl

/-! ## While the callbacks run -/

/-- From `s` to `s'` nothing was popped, and only `on_disconnect` was called. -/
def Pushes (s s' : Sock) : Prop :=
  ∃ pushed, s'.stack = pushed ++ s.stack ∧ ∀ f ∈ pushed, f = .onDisconnect

theorem Quiet.pushes {s s' : Sock} (h : Quiet s s') : Pushes s s' := ⟨[], h.stack, by simp⟩

theorem destroy_pushes (s : Sock) : Pushes s (destroy s) := by
  unfold destroy
  split_ifs
  · exact ⟨[], rfl, by simp⟩
  · exact ⟨[.onDisconnect], rfl, by simp⟩
  · exact ⟨[], rfl, by simp⟩

theorem Destroys.pushes {s s' : Sock} (h : Destroys s s') : Pushes s s' := by
  obtain ⟨s₁, hquiet, rfl⟩ := h
  obtain ⟨pushed, hstack, hpushed⟩ := destroy_pushes s₁
  exact ⟨pushed, by rw [hstack, hquiet.stack], hpushed⟩

/-- **While a callback runs** only its return pops a frame. -/
theorem step_pushes (sys : System) {s : Sock} (hstack : s.stack ≠ []) {l : Label} (hl : l ≠ .ret) :
    Pushes s (step sys s l) := by
  have hbusy : s.stack.isEmpty = false := by simpa using hstack
  have hsame : Pushes s s := (Quiet.refl s).pushes
  unfold step
  cases l with
  | write data =>
    exact (apeSocketWrite_cases sys data s).elim Quiet.pushes fun h => Destroys.pushes h.2
  | sendfile content => exact (apeSendfile_quiet sys content s).pushes
  | shutdown => exact (apeSocketShutdown_cases sys s).elim Quiet.pushes fun h => Destroys.pushes h.2
  | destroy => exact destroy_pushes s
  | connect port =>
    simp only [Sock.allows, if_true, Label.exec, apeSocketConnect]
    split_ifs
    · exact destroy_pushes s
    · exact hsame
  | lookedUp resolved =>
    simp only [Sock.allows, Label.exec, connectReady]
    split_ifs
    · exact destroy_pushes { s with lookups := s.lookups - 1 }
    · cases sys.connect s.calls with
      | inProgress => exact hsame
      | done => exact destroy_pushes { s with lookups := s.lookups - 1, calls := s.calls + 1 }
      | error => exact destroy_pushes { s with lookups := s.lookups - 1, calls := s.calls + 1 }
    · exact hsame
  | ret => exact absurd rfl hl
  | _ =>
    simp only [Sock.allows, hbusy, Bool.false_eq_true, if_false]
    exact hsame

/-- A call of `ape_socket_read` that ended with `last`: `on_read` runs, the socket is being destroyed
behind a 0, or the call has returned.  Above the frame of the call are frames of `on_disconnect`. -/
inductive Phase (last : Last) (r : Reader) : Prop where
  | reading (above : List Frame) (habove : ∀ f ∈ above, f = .onDisconnect)
      (hstack : r.sock.stack = above ++ [.onRead (decide (last = .eof))])
  | leaving (above : List Frame) (habove : ∀ f ∈ above, f = .onDisconnect)
      (hstack : r.sock.stack = above ++ [.onDisconnect]) (hempty : r.dataIn.used = 0)
      (heof : last = .eof)
  | returned (hstack : r.sock.stack = []) (hempty : r.dataIn.used = 0)
      (hoffline : last = .eof → r.sock.state = .offline)

/-- At its end `ape_socket_read` has destroyed the socket if it met the end of the file. -/
theorem phase_finish {last : Last} {s : Sock} (hstack : s.stack = []) {b : Buffer} (hempty : b.used = 0)
    (log : List Seen) : Phase last ⟨finishRead (decide (last = .eof)) s, b, log⟩ := by
  by_cases heof : last = .eof
  · simp only [heof, decide_true, finishRead, if_true, destroy]
    split_ifs with hoffline hdisconnect
    · exact .returned hstack hempty fun _ => hoffline
    · exact .leaving [] (by simp) (by simp [hstack]) hempty rfl
    · exact .returned hstack hempty fun _ => rfl
  · simp only [heof, decide_false, finishRead, Bool.false_eq_true, if_false]
    exact .returned hstack hempty fun h => absurd h heof

theorem step_ret (sys : System) {s : Sock} (hstack : s.stack ≠ []) : step sys s .ret = ret s := by
  have hbusy : (!s.stack.isEmpty) = true := by simpa using hstack
  exact if_pos hbusy

/-- The frame of the call stays while there is one above it. -/
theorem ret_above {s : Sock} {above : List Frame} {f f' : Frame} (hf : f = .onDisconnect)
    (hstack : s.stack = f :: above ++ [f']) : (ret s).stack = above ++ [f'] := by
  unfold ret
  rw [hstack, hf]
  rfl

/-- `data_in` stays but for the return of `on_read`. -/
theorem Reader.dataIn_step (sys : System) {r : Reader} {l : Label}
    (h : l ≠ .ret ∨ ∃ above, r.sock.stack = .onDisconnect :: above) :
    (r.step sys l).dataIn = r.dataIn := by
  unfold Reader.step
  rcases h with hl | ⟨above, hstack⟩
  · cases l <;> first | rfl | exact absurd rfl hl
  · rw [hstack]
    cases l <;> rfl

/-- **One step** of a callback keeps the phase of the read it was called from. -/
theorem Phase.step (sys : System) {last : Last} {r : Reader} (h : Phase last r)
    (hbusy : r.sock.stack ≠ []) (l : Label) : Phase last (r.step sys l) := by
  by_cases hl : l = .ret
  · subst hl
    have hsock : (r.step sys .ret).sock = ret r.sock := by rw [r.sock_step sys, step_ret sys hbusy]
    cases h with
    | reading above habove hstack =>
      cases above with
      | nil =>
        have hfinish : r.step sys .ret = ⟨finishRead (decide (last = .eof))
            { r.sock with stack := [], used := 0 }, r.dataIn.clear, r.log⟩ := by
          unfold Reader.step
          simp only [hstack, List.nil_append, step_ret sys hbusy, ret]
        rw [hfinish]
        exact phase_finish rfl Buffer.used_clear r.log
      | cons f above =>
        obtain ⟨hf, habove'⟩ := List.forall_mem_cons.1 habove
        exact .reading above habove' (by rw [hsock]; exact ret_above hf hstack)
    | leaving above habove hstack hempty heof =>
      cases above with
      | nil =>
        have hdata := r.dataIn_step sys (l := .ret) (Or.inr ⟨[], hstack⟩)
        refine .returned ?_ (by rw [hdata]; exact hempty) fun _ => ?_
        · rw [hsock, ret, hstack]
          rfl
        · rw [hsock, ret, hstack]
          rfl
      | cons f above =>
        obtain ⟨hf, habove'⟩ := List.forall_mem_cons.1 habove
        have hdata := r.dataIn_step sys (l := .ret) (Or.inr ⟨above ++ [.onDisconnect], by
          rw [hstack, hf]
          rfl⟩)
        exact .leaving above habove' (by rw [hsock]; exact ret_above hf hstack)
          (by rw [hdata]; exact hempty) heof
    | returned hstack hempty hoffline => exact absurd hstack hbusy
  · obtain ⟨pushed, hpushed, hframes⟩ := step_pushes sys hbusy hl
    have hdata := r.dataIn_step sys (Or.inl hl)
    rw [← r.sock_step sys] at hpushed
    have hall : ∀ {above : List Frame}, (∀ f ∈ above, f = .onDisconnect) →
        ∀ f ∈ pushed ++ above, f = .onDisconnect :=
      fun habove f hf => (List.mem_append.1 hf).elim (hframes f) (habove f)
    cases h with
    | reading above habove hstack =>
      exact .reading (pushed ++ above) (hall habove) (by rw [hpushed, hstack, List.append_assoc])
    | leaving above habove hstack hempty heof =>
      exact .leaving (pushed ++ above) (hall habove) (by rw [hpushed, hstack, List.append_assoc])
        (by rw [hdata]; exact hempty) heof
    | returned hstack hempty hoffline => exact absurd hstack hbusy

/-- Callbacks call neither `read` nor `on_read`. -/
theorem Reader.log_run (sys : System) (r : Reader) (ls : List Label) : (r.run sys ls).log = r.log := by
  induction ls generalizing r with
  | nil => rfl
  | cons l ls ih =>
    have hstep : (r.step sys l).log = r.log := by
      unfold Reader.step
      split <;> rfl
    exact (ih (r.step sys l)).trans hstep

/-- **A run** inside of the callback keeps the phase of the read it was called from. -/
theorem Phase.run (sys : System) {last : Last} {r : Reader} (h : Phase last r) {ls : List Label}
    (hinside : EachStep (Reader.step sys) (fun r _ => r.sock.stack ≠ []) r ls) :
    Phase last (r.run sys ls) := by
  have hstep : ∀ r l, Phase last r → r.sock.stack ≠ [] → Phase last (r.step sys l) :=
    fun r l hphase hbusy => hphase.step sys hbusy l
  exact foldl_of_eachStep hstep h hinside

/-- The last step of a call that does not end with a 0 is the return of `on_read`, and it leaves the
socket as it is. -/
theorem Phase.last_step (sys : System) {last : Last} {r : Reader} (h : Phase last r)
    (hlast : last ≠ .eof) (hbusy : r.sock.stack ≠ []) {l : Label}
    (hback : (r.step sys l).sock.stack = []) :
    l = .ret ∧ (r.step sys l).sock.state = r.sock.state := by
  have hl : l = .ret := by
    by_contra hne
    obtain ⟨pushed, hpushed, -⟩ := step_pushes sys hbusy hne
    rw [← r.sock_step sys, hback] at hpushed
    exact hbusy (List.append_eq_nil_iff.1 hpushed.symm).2
  subst hl
  rw [r.sock_step sys, step_ret sys hbusy] at hback ⊢
  refine ⟨rfl, ?_⟩
  cases h with
  | reading above habove hstack =>
    cases above with
    | nil =>
      rw [ret, hstack]
      simp [finishRead, hlast]
    | cons f above =>
      rw [ret_above (List.forall_mem_cons.1 habove).1 hstack] at hback
      exact absurd hback (by simp)
  | leaving above habove hstack hempty heof => exact absurd heof hlast
  | returned hstack hempty hoffline => exact absurd hstack hbusy

/-! ## The result -/

/-- What the call has done when it returns or calls back. -/
structure Entered (hasOnRead : Bool) (last : Last) (r : Reader) : Prop where
  phase : Phase last r
  inBounds : ∀ e ∈ r.log, e.InBounds
  once : onReads r.log =
    if hasOnRead = true ∧ bytesRead r.log ≠ [] then [bytesRead r.log] else []
  online : last ≠ .eof → r.sock.state = .online

/-- Behind the loop of reads the callback is entered with the bytes that were read, if there is one. -/
theorem entered_handOver {s : Sock} (h : AtRest s) (last : Last) {b : Buffer} {seen : List Seen}
    (hdata : b.data = bytesRead seen) (honReads : onReads seen = [])
    (hbounds : ∀ e ∈ seen, e.InBounds) : Entered s.hasOnRead last (handOver last s b seen) := by
  have hkeep : ∀ used, last ≠ .eof →
      (finishRead (decide (last = .eof)) { s with used := used }).state = .online := by
    intro used hne
    simpa [finishRead, hne] using h.online
  unfold handOver
  by_cases hzero : b.used = 0
  · -- nothing was read
    rw [if_pos hzero]
    have hnone : bytesRead seen = [] := hdata ▸ Buffer.used_eq_zero.1 hzero
    exact ⟨phase_finish (s := { s with used := b.used }) h.idle hzero seen, hbounds,
      by simp [honReads, hnone], hkeep b.used⟩
  rw [if_neg hzero]
  have hsome : bytesRead seen ≠ [] := fun hnone => hzero (Buffer.used_eq_zero.2 (hdata.trans hnone))
  by_cases hcallback : s.hasOnRead = true
  · have hbytes : bytesRead (seen ++ [.onRead b.data]) = bytesRead seen := by
      rw [bytesRead_append]
      exact List.append_nil _
    rw [if_pos hcallback]
    refine ⟨.reading [] (by simp) ?_, fun e he => ?_, ?_, fun _ => h.online⟩
    · show Frame.onRead (decide (last = .eof)) :: s.stack = _
      rw [h.idle]
      rfl
    · rcases List.mem_append.1 he with he | he
      · exact hbounds e he
      · rw [List.mem_singleton.1 he]
        trivial
    · show onReads (seen ++ [.onRead b.data]) = _
      rw [hbytes, if_pos ⟨hcallback, hsome⟩, onReads_append, honReads, hdata]
      rfl
  · rw [if_neg hcallback]
    exact ⟨phase_finish (s := { s with used := 0 }) h.idle Buffer.used_clear seen, hbounds,
      by simp [honReads, hcallback], hkeep 0⟩

/-- **`ape_socket_read`** up to its callback: what was read is in the buffer, inside of its bounds. -/
theorem entered {s : Sock} (h : AtRest s) (size : Nat) (reads : Reads) :
    Entered s.hasOnRead reads.last ((Reader.new s size).apeSocketRead reads) := by
  have hroom : 0 < ((Buffer.empty size).prepare 2048).free :=
    Nat.lt_of_lt_of_le (by decide) (Buffer.le_free_prepare 2048)
  obtain ⟨hdata, honReads, hbounds⟩ := reread_spec reads.more hroom
  rw [Buffer.data_prepare, Buffer.data_empty, List.nil_append] at hdata
  have honline : (Reader.new s size).sock.state = .online := h.online
  rw [Reader.apeSocketRead, if_neg (not_not.2 honline)]
  exact entered_handOver h reads.last hdata honReads hbounds

/-- **What `ape_socket_read` promises is kept exactly when** the loop over `read` ends with a 0 or
with `EAGAIN`, or `on_read` has destroyed the socket when it returns.  The callbacks may make any
calls. -/
theorem readRight_iff (sys : System) {s : Sock} (hrest : AtRest s) (size : Nat) (reads : Reads)
    {ls : List Label} (hreturns : Returns sys ((Reader.new s size).apeSocketRead reads) ls) :
    ReadRight s.hasOnRead reads.last (((Reader.new s size).apeSocketRead reads).run sys ls) ↔
      (reads.last = .error →
        DestroyedInside sys ((Reader.new s size).apeSocketRead reads) ls) := by
  have hentered := entered hrest size reads
  generalize (Reader.new s size).apeSocketRead reads = r at hreturns hentered ⊢
  have hphase := hentered.phase.run sys hreturns.inside
  have hlog := r.log_run sys ls
  -- the last step leaves the state as it is
  have hlast : reads.last ≠ .eof → ∀ calls l, ls = calls ++ [l] →
      l = .ret ∧ (r.run sys ls).sock.state = (r.run sys calls).sock.state := by
    rintro hne calls l rfl
    obtain ⟨hinside, hbusy⟩ := eachStep_concat.1 hreturns.inside
    have hstep : r.run sys (calls ++ [l]) = (r.run sys calls).step sys l := by
      rw [Reader.run, List.foldl_concat]
      rfl
    have hback := hreturns.back
    rw [hstep] at hback ⊢
    exact (hentered.phase.run sys hinside).last_step sys hne hbusy hback
  constructor
  · intro hright herror
    have hne : reads.last ≠ .eof := by simp [herror]
    have hoffline := hright.destroyed (by simp [herror])
    rcases List.eq_nil_or_concat ls with rfl | ⟨calls, l, rfl⟩
    · have honline := hentered.online hne
      rw [show (r.run sys []).sock.state = r.sock.state from rfl, honline] at hoffline
      exact SocketState.noConfusion hoffline
    · rw [List.concat_eq_append] at hlast hoffline ⊢
      obtain ⟨rfl, hstate⟩ := hlast hne calls l rfl
      exact ⟨calls, rfl, hstate ▸ hoffline⟩
  · intro hcond
    obtain ⟨hempty, heof⟩ : (r.run sys ls).dataIn.used = 0 ∧
        (reads.last = .eof → (r.run sys ls).sock.state = .offline) := by
      cases hphase with
      | reading above habove hstack => exact absurd (hstack.symm.trans hreturns.back) (by simp)
      | leaving above habove hstack => exact absurd (hstack.symm.trans hreturns.back) (by simp)
      | returned hstack hempty hoffline => exact ⟨hempty, hoffline⟩
    have hdestroyed : reads.last ≠ .again → (r.run sys ls).sock.state = .offline := by
      intro hne
      cases hcase : reads.last with
      | eof => exact heof hcase
      | again => exact absurd hcase hne
      | error =>
        obtain ⟨calls, hls, hoffline⟩ := hcond hcase
        exact (hlast (by simp [hcase]) calls .ret hls).2.trans hoffline
    refine ⟨by rw [hlog]; exact hentered.inBounds, by rw [hlog]; exact hentered.once, hempty,
      fun honline => ?_, hdestroyed⟩
    by_contra hne
    rw [hdestroyed hne] at honline
    exact SocketState.noConfusion honline

/-- A client with all callbacks. -/
def client : Sock := Sock.new .online false true true true

/-- Three bytes and an error: `on_read` destroys the socket, and the promise is kept. -/
theorem readRight_iff_destroyed :
    ReadRight true .error
      (((Reader.new client 0).apeSocketRead ⟨[.bytes 1 [2], .eintr, .bytes 3 []], .error⟩).run
        quietSystem [.destroy, .ret, .ret]) := by
  have hreturns : Returns quietSystem
      ((Reader.new client 0).apeSocketRead ⟨[.bytes 1 [2], .eintr, .bytes 3 []], .error⟩)
      [.destroy, .ret, .ret] := by
    refine ⟨⟨?_, ?_, ?_, trivial⟩, ?_⟩
    all_goals decide
  have hrest : AtRest client := ⟨rfl, rfl, rfl, rfl⟩
  exact (readRight_iff quietSystem hrest 0 _ hreturns).2 fun _ => ⟨[.destroy, .ret], rfl, by decide⟩

/-- **A connection that is reset** stays online. -/
theorem readRight_fails : ¬ ∀ ls, Returns quietSystem ((Reader.new client 0).apeSocketRead ⟨[], .error⟩) ls →
    ReadRight true .error
      (((Reader.new client 0).apeSocketRead ⟨[], .error⟩).run quietSystem ls) := by
  intro h
  have hright := h [] ⟨trivial, by decide⟩
  exact absurd (hright.destroyed (by decide)) (by decide)

end Ape.Endpoint

import ApeServer.Socket.Pool

/-!
# Writing to a socket: `ape_socket.c`

`APE_socket_write` and `APE_sendfile` hand the bytes to the kernel at once when nothing is waiting,
and what the kernel does not take goes into a job slot.  `ape_socket_do_jobs` works the slots off,
from the head of the ring, when the event loop finds the socket writable.

* `JobSlot`, `Packet` — a slot of the ring and an entry of its packet queue;
* `getSlot` — `ape_socket_job_get_slot`;
* `apeSocketWrite`, `apeSendfile`, `apeSocketShutdown`, `doJobs` — the functions of the source;
* `SocketOp`, `runOps` — a run of calls and write events.

The kernel is a parameter: it answers each call by `EAGAIN` or by a count.  The bytes it has taken
and the calls of `shutdown` are kept in a ghost log, in order; the log also tells of every slot
taken whether it fits, which the code does not ask.
-/

namespace Ape.Socket

/-! ## The ring of jobs -/

/-- `ape_socket_packet_t`; `data` is `none` in a free slot. -/
structure Packet where
  data : Option (List UInt8)
  len : Nat
  offset : Nat
  deriving DecidableEq, Repr

/-- A packet slot as `ape_new_pool` leaves it. -/
def Packet.fresh : Packet := ⟨none, 0, 0⟩

/-- What a job slot points to: nothing, a packet queue, or an open file with the bytes that are
left in it. -/
inductive JobPtr where
  | null
  | packets (queue : PoolList Packet)
  | file (rest : List UInt8)
  deriving DecidableEq, Repr

/-- `APE_SOCKET_JOB_WRITEV`, `APE_SOCKET_JOB_SENDFILE` and `APE_SOCKET_JOB_SHUTDOWN`. -/
inductive JobType where
  | writev
  | sendfile
  | shutdown
  deriving DecidableEq, Repr

/-- `ape_socket_jobs_t`, its flags bit by bit but for `APE_POOL_ALLOC`. -/
structure JobSlot where
  active : Bool
  writev : Bool
  sendfile : Bool
  shutdown : Bool
  ptr : JobPtr
  deriving DecidableEq, Repr

namespace JobSlot

/-- A job slot as `ape_new_pool` leaves it. -/
def fresh : JobSlot := ⟨false, false, false, false, .null⟩

/-- `flags |= APE_SOCKET_JOB_ACTIVE | type`. -/
def take (type : JobType) (j : JobSlot) : JobSlot :=
  match type with
  | .writev => { j with active := true, writev := true }
  | .sendfile => { j with active := true, sendfile := true }
  | .shutdown => { j with active := true, shutdown := true }

/-- The case of the `switch` on the type bits; with none or several of them it is `default`. -/
def kind (j : JobSlot) : Option JobType :=
  match j.writev, j.sendfile, j.shutdown with
  | true, false, false => some .writev
  | false, true, false => some .sendfile
  | false, false, true => some .shutdown
  | _, _, _ => none

/-- No type bit but this one is set. -/
def onlyType (type : JobType) (j : JobSlot) : Bool :=
  match type with
  | .writev => !j.sendfile && !j.shutdown
  | .sendfile => !j.writev && !j.shutdown
  | .shutdown => !j.writev && !j.sendfile

end JobSlot

/-- What the kernel sees, and the ghost record of the slots taken.  `fault` is a packet queue read
through a slot that holds none. -/
inductive SocketEvent where
  | accepted (bytes : List UInt8)
  | shutdown
  | destroyed
  | slot (fits : Bool)
  | fault
  deriving DecidableEq, Repr

/-- The part of `ape_socket` that writing uses, on a plain TCP socket, with the ghost number of
kernel calls. -/
structure ApeSocket where
  online : Bool
  wouldBlock : Bool
  jobs : PoolList JobSlot
  calls : Nat
  log : List SocketEvent
  deriving DecidableEq, Repr

/-- A socket that has just been accepted: two job slots. -/
def ApeSocket.init : ApeSocket := ⟨true, false, .init .fresh 1, 0, []⟩

/-! ## The kernel -/

/-- An answer to `write`, `writev` or `sendfile`. -/
inductive Answer where
  | eagain
  | accepts (n : Nat)
  deriving DecidableEq, Repr

/-- The kernel: its answers in turn, whether `shutdown` fails, and the longest `writev`. -/
structure Kernel where
  answer : Nat → Answer
  shutdownFails : Bool
  maxChunks : Nat

/-- How many of `bytes` an answer takes: at least one, and no more than there are. -/
def Answer.count (bytes : List UInt8) : Answer → Option Nat
  | .eagain => none
  | .accepts n => some (min (max n 1) bytes.length)

/-- A call that offers `bytes`. -/
def offer (k : Kernel) (bytes : List UInt8) (s : ApeSocket) : Option Nat × ApeSocket :=
  match (k.answer s.calls).count bytes with
  | none => (none, { s with calls := s.calls + 1 })
  | some n => (some n,
      { s with calls := s.calls + 1, log := s.log ++ [.accepted (bytes.take n)] })

/-- `shutdown(fd, 2)`, and `APE_socket_destroy` when it fails. -/
def shutdownFd (k : Kernel) (s : ApeSocket) : ApeSocket :=
  if k.shutdownFails then
    { s with online := false, log := s.log ++ [.shutdown, .destroyed] }
  else { s with log := s.log ++ [.shutdown] }

/-! ## Taking a slot -/

/-- `ape_socket_job_get_slot` up to the slot it takes: `current` if it is idle, or if the job is a
write and it is one; otherwise the next one, of new ones if `current` is the last. -/
def seek (type : JobType) (jobs : PoolList JobSlot) : PoolList JobSlot :=
  if (type = .writev ∧ jobs.current.writev = true) ∨ jobs.current.active = false then jobs
  else if jobs.after = [] then (jobs.grow .fresh 2).next
  else jobs.next

/-- The slot that is taken carries no foreign type bit, and every slot before it is active. -/
def slotFits (type : JobType) (jobs : PoolList JobSlot) : Bool :=
  (seek type jobs).before.all JobSlot.active && (seek type jobs).current.onlyType type

/-- `ape_socket_job_get_slot`; the slot is the new `current`. -/
def getSlot (type : JobType) (s : ApeSocket) : ApeSocket :=
  { s with
    jobs := (seek type s.jobs).modifyCurrent (JobSlot.take type)
    log := s.log ++ [.slot (slotFits type s.jobs)] }

/-- `job->ptr = …` on the slot just taken. -/
def setPtr (ptr : JobPtr) (s : ApeSocket) : ApeSocket :=
  { s with jobs := s.jobs.modifyCurrent fun j => { j with ptr := ptr } }

/-- Fill the current packet slot and move on to the next one. -/
def push (data : List UInt8) (offset : Nat) (q : PoolList Packet) : PoolList Packet :=
  let q := q.modifyCurrent fun _ => ⟨some data, data.length, offset⟩
  if q.after = [] then (q.grow .fresh 8).next else q.next

/-- `ape_socket_queue_data`. -/
def queueData (data : List UInt8) (offset : Nat) (s : ApeSocket) : ApeSocket :=
  let s := getSlot .writev s
  match s.jobs.current.ptr with
  | .null => setPtr (.packets (push data offset (.init .fresh 7))) s
  | .packets q => setPtr (.packets (push data offset q)) s
  | .file _ => { s with log := s.log ++ [.fault] }

/-! ## The calls -/

/-- `socket->states.flags & APE_SOCKET_WOULD_BLOCK ||
socket->jobs.head->flags & APE_SOCKET_JOB_ACTIVE`. -/
def ApeSocket.mustQueue (s : ApeSocket) : Bool := s.wouldBlock || s.jobs.head.active

/-- The loop of `APE_socket_write`; it stops when all is written or the kernel would block.  Every
answer takes a byte, so the fuel, one for each byte, suffices. -/
def writeLoop (k : Kernel) : Nat → List UInt8 → ApeSocket → List UInt8 × ApeSocket
  | 0, rest, s => (rest, s)
  | fuel + 1, rest, s =>
    if rest = [] then (rest, s)
    else
      match offer k rest s with
      | (none, s) => (rest, s)
      | (some n, s) => writeLoop k fuel (rest.drop n) s

/-- `APE_socket_write`. -/
def apeSocketWrite (k : Kernel) (data : List UInt8) (s : ApeSocket) : ApeSocket :=
  if s.online = false ∨ data = [] then s
  else if s.mustQueue then queueData data 0 s
  else
    let (rest, s) := writeLoop k data.length data s
    if rest = [] then s
    else queueData data (data.length - rest.length) { s with wouldBlock := true }

/-- The loop over `sendfile(…, 4096)`, up to the end of the file, `false`, or until the kernel would
block, `true`. -/
def sendfileLoop (k : Kernel) : Nat → List UInt8 → ApeSocket → Bool × List UInt8 × ApeSocket
  | 0, rest, s => (true, rest, s)
  | fuel + 1, rest, s =>
    match offer k (rest.take 4096) s with
    | (none, s) => (true, rest, s)
    | (some n, s) => if n = 0 then (false, rest, s) else sendfileLoop k fuel (rest.drop n) s

/-- `APE_sendfile` of a file that could be opened. -/
def apeSendfile (k : Kernel) (content : List UInt8) (s : ApeSocket) : ApeSocket :=
  if s.online = false then s
  else if s.mustQueue then
    setPtr (.file content) (getSlot .sendfile { s with wouldBlock := true })
  else
    let (blocked, rest, s) := sendfileLoop k (content.length + 1) content s
    if blocked then setPtr (.file rest) (getSlot .sendfile { s with wouldBlock := true }) else s

/-- `APE_socket_shutdown`. -/
def apeSocketShutdown (k : Kernel) (s : ApeSocket) : ApeSocket :=
  if s.online = false then s
  else if s.mustQueue then getSlot .shutdown s
  else shutdownFd k s

/-! ## Working the jobs off -/

/-- The bytes of a packet that have not been accepted. -/
def Packet.rest (p : Packet) : List UInt8 :=
  match p.data with
  | none => []
  | some data => data.drop p.offset

/-- The bytes offered by one `writev`. -/
def chunks (k : Kernel) (q : PoolList Packet) : List UInt8 :=
  ((q.nodes.takeWhile fun p => p.data.isSome).take k.maxChunks).flatMap Packet.rest

/-- The loop that takes the `n` accepted bytes off the packets.  It frees a packet a round, so the
fuel, one for each node, suffices. -/
def packetLoop : Nat → Nat → PoolList Packet → PoolList Packet
  | 0, _, q => q
  | fuel + 1, n, q =>
    if q.head.data.isNone then q
    else
      let left := q.head.len - q.head.offset
      if n < left then q.modifyHead fun p => { p with offset := p.offset + n }
      else
        let q := (q.modifyHead fun p => { p with data := none }).headToQueue
        if n = left then q else packetLoop fuel (n - left) q

/-- A store through the head of the ring. -/
def setHead (f : JobSlot → JobSlot) (s : ApeSocket) : ApeSocket :=
  { s with jobs := s.jobs.modifyHead f }

/-- The end of a round: the head becomes idle and is taken behind `current`. -/
def finishJob (s : ApeSocket) : ApeSocket :=
  let s := setHead (fun j => { j with active := false }) s
  { s with jobs := s.jobs.headToCurrent }

/-- The case `APE_SOCKET_JOB_WRITEV`: whether the job is finished. -/
def doWritev (k : Kernel) (s : ApeSocket) : Bool × ApeSocket :=
  match s.jobs.head.ptr with
  | .packets q =>
    match offer k (chunks k q) s with
    | (none, s) => (false, { s with wouldBlock := true })
    | (some n, s) =>
      let q := packetLoop q.nodes.length n q
      let s := setHead (fun j => { j with ptr := .packets q }) s
      if q.head.data.isSome then (false, { s with wouldBlock := true }) else (true, s)
  | _ => (false, { s with log := s.log ++ [.fault] })

/-- The case `APE_SOCKET_JOB_SENDFILE`: whether the job is finished. -/
def doSendfile (k : Kernel) (s : ApeSocket) : Bool × ApeSocket :=
  match s.jobs.head.ptr with
  | .file rest =>
    let (blocked, rest, s) := sendfileLoop k (rest.length + 1) rest s
    if blocked then
      (false, { setHead (fun j => { j with ptr := .file rest }) s with wouldBlock := true })
    else (true, setHead (fun j => { j with ptr := .null }) s)
  | _ => (false, { s with log := s.log ++ [.fault] })

/-- The loop of `ape_socket_do_jobs`.  A round makes a slot idle, so the fuel, one more than there
are slots, suffices. -/
def doJobsLoop (k : Kernel) : Nat → ApeSocket → ApeSocket
  | 0, s => s
  | fuel + 1, s =>
    if s.jobs.head.active = false then s
    else
      match s.jobs.head.kind with
      | some .writev =>
        let (finished, s) := doWritev k s
        if finished then doJobsLoop k fuel (finishJob s) else s
      | some .sendfile =>
        let (finished, s) := doSendfile k s
        if finished then doJobsLoop k fuel (finishJob s) else s
      | some .shutdown => shutdownFd k s
      | none => doJobsLoop k fuel (finishJob s)

/-- `ape_socket_do_jobs`. -/
def doJobs (k : Kernel) (s : ApeSocket) : ApeSocket := doJobsLoop k (s.jobs.nodes.length + 1) s

/-- A write event of the event loop. -/
def onWriteEvent (k : Kernel) (s : ApeSocket) : ApeSocket :=
  let s := { s with wouldBlock := false }
  if s.online && !s.wouldBlock then doJobs k s else s

/-! ## Runs -/

/-- What happens to a socket. -/
inductive SocketOp where
  | write (data : List UInt8)
  | sendfile (content : List UInt8)
  | shutdown
  | writeEvent
  deriving DecidableEq, Repr

/-- One call or event. -/
def SocketOp.exec (k : Kernel) (s : ApeSocket) : SocketOp → ApeSocket
  | .write data => apeSocketWrite k data s
  | .sendfile content => apeSendfile k content s
  | .shutdown => apeSocketShutdown k s
  | .writeEvent => onWriteEvent k s

/-- A run. -/
def runOps (k : Kernel) (ops : List SocketOp) (s : ApeSocket) : ApeSocket :=
  ops.foldl (SocketOp.exec k) s

end Ape.Socket

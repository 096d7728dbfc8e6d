import ApeServer.Socket.Pool

/-!
# Who owns a payload

`APE_socket_write` is handed a payload together with what is to become of it.  What cannot be sent at
once is queued, if need be as a copy, and `ape_socket_do_jobs` releases each packet when it is sent.
Here every payload has a name, so that one can follow which memory is released and when.

* `DataType`, `Block`, `Packet`, `Job`, `Sock` — the data of the source, with a ghost log;
* `System` — every answer of `write`, `writev`, `SSL_write` and `shutdown`;
* `apeSocketWrite`, `queueData`, `doJobs`, `destroy`, `apeSocketFree` — the functions of the source;
* `Label`, `step`, `run` — what happens to a socket that is written to, worked off and torn down.

Only writes request a job here, so a job slot has no other type bit.
-/

namespace Ape.Ownership

open Socket (PoolList)

/-! ## Payloads -/

/-- `ape_socket_data_autorelease`. -/
inductive DataType where
  | static
  | globalStatic
  | autorelease
  | own
  | copy
  deriving DecidableEq, Repr

/-- `ape_socket_release_data` calls `free` on data of this type. -/
def DataType.frees : DataType → Bool
  | .autorelease | .copy => true
  | _ => false

/-- The bytes handed to `APE_socket_write`.  No object has `2 ^ 63` bytes or more. -/
structure Payload where
  bytes : List UInt8
  fits : bytes.length < 2 ^ 63
  deriving DecidableEq

/-- A block of memory with a payload: the call of `APE_socket_write` that brought it, and whether it
is the copy that `ape_socket_queue_data` made. -/
structure Block where
  call : Nat
  copy : Bool
  payload : Payload
  deriving DecidableEq

/-- The bytes of a block. -/
def Block.bytes (b : Block) : List UInt8 := b.payload.bytes

/-- `ape_socket_packet_t`; `data` is `none` in a free slot. -/
structure Packet where
  data : Option Block
  len : Nat
  offset : Nat
  type : DataType
  deriving DecidableEq

/-- A packet slot as `ape_new_pool` leaves it. -/
def Packet.fresh : Packet := ⟨none, 0, 0, .static⟩

/-- `ape_socket_jobs_t`: `APE_SOCKET_JOB_ACTIVE`, `APE_SOCKET_JOB_WRITEV` and `ptr.data`. -/
structure Job where
  active : Bool
  writev : Bool
  queue : Option (PoolList Packet)
  deriving DecidableEq

/-- A job slot as `ape_new_pool` leaves it. -/
def Job.fresh : Job := ⟨false, false, none⟩

/-! ## The system -/

/-- An answer to `write` or `writev`: a count, `EAGAIN`, or any other error. -/
inductive Answer where
  | took (n : Nat)
  | again
  | error
  deriving DecidableEq, Repr

/-- An answer to `SSL_write`: the full length, 0, or -1 with `SSL_ERROR_WANT_READ` or
`SSL_ERROR_WANT_WRITE`, with `SSL_ERROR_ZERO_RETURN`, or with any other error. -/
inductive SslAnswer where
  | full
  | zero
  | want
  | zeroReturn
  | fatal
  deriving DecidableEq, Repr

/-- The system: its answers to the calls in turn, and the longest `writev`. -/
structure System where
  write : Nat → Answer
  ssl : Nat → SslAnswer
  shutdownFails : Nat → Bool
  maxChunks : Nat

/-- `write` takes at least a byte, and no more than it is offered. -/
def Answer.clip (asked : Nat) : Answer → Answer
  | .took n => .took (min (max n 1) asked)
  | a => a

/-- `writev` takes no more than it is offered, and fails when that is more than `SSIZE_MAX`. -/
def Answer.clipv (asked : Nat) : Answer → Answer
  | .took n => if asked < 2 ^ 63 then .took (min n asked) else .error
  | a => a

/-- The `int num` that `ape_ssl_write` makes of a `size_t`. -/
def sslNum (len : Nat) : Int := Int.bmod len (2 ^ 32)

/-- `SSL_write` accepts nothing of an empty buffer, and a negative length is an error. -/
def SslAnswer.clip (num : Int) : SslAnswer → SslAnswer
  | .full => if 0 < num then .full else if num = 0 then .zero else .fatal
  | a => a

/-! ## The socket -/

/-- What happens to payloads, in order: a call of `APE_socket_write`, a copy that is made, an
`SSL_write` of a direct or of a queued payload, bytes taken by `write` or `writev`, a `write` that
fails, a call of `ape_socket_release_data`; and the end of the socket. -/
inductive Event where
  | handed (b : Block) (type : DataType)
  | copied (b : Block)
  | offered (b : Block) (num : Int) (queued : Bool) (answer : SslAnswer)
  | took (b : Block) (n : Nat)
  | failed (b : Block)
  | released (b : Block) (type : DataType)
  | shutdown
  | destroyed
  | freed
  deriving DecidableEq

/-- The part of `ape_socket` that writing uses.  `leaving` counts the calls of `APE_socket_destroy`
whose `on_disconnect` runs, `written` the calls of `APE_socket_write`. -/
structure Sock where
  online : Bool
  secure : Bool
  wouldBlock : Bool
  jobs : PoolList Job
  leaving : Nat
  written : Nat
  calls : Nat
  log : List Event
  deriving DecidableEq

/-- A socket that has just been accepted. -/
def Sock.new (secure : Bool) : Sock := ⟨true, secure, false, .init .fresh 1, 0, 0, 0, []⟩

/-- More entries of the log. -/
def Sock.note (ev : List Event) (s : Sock) : Sock := { s with log := s.log ++ ev }

/-- `socket->states.flags |= APE_SOCKET_WOULD_BLOCK`. -/
def Sock.block (s : Sock) : Sock := { s with wouldBlock := true }

/-- `socket->states.flags & APE_SOCKET_WOULD_BLOCK ||
socket->jobs.head->flags & APE_SOCKET_JOB_ACTIVE`. -/
def Sock.mustQueue (s : Sock) : Bool := s.wouldBlock || s.jobs.head.active

/-- `ape_socket_release_data`. -/
def releaseData (b : Block) (type : DataType) (s : Sock) : Sock := s.note [.released b type]

/-! ## The end of a socket -/

/-- `APE_socket_destroy`, up to the callback `on_disconnect`. -/
def destroy (s : Sock) : Sock := if s.online then { s with leaving := s.leaving + 1 } else s

/-- `APE_socket_destroy`, behind the callback. -/
def destroyed (s : Sock) : Sock :=
  if s.leaving = 0 then s
  else { s.note [.destroyed] with leaving := s.leaving - 1, online := false }

/-- `ape_socket_free`: neither the packets nor their data are touched. -/
def apeSocketFree (s : Sock) : Sock := s.note [.freed]

/-- `ape_socket_shutdown_force`. -/
def shutdownForce (sys : System) (s : Sock) : Sock :=
  if s.online = false then s
  else
    let s' := { s.note [.shutdown] with calls := s.calls + 1 }
    if sys.shutdownFails s.calls then destroy s' else s'

/-! ## Queueing -/

/-- `ape_socket_job_get_slot` for a write, up to the slot it takes. -/
def seek (jobs : PoolList Job) : PoolList Job :=
  if jobs.current.writev = true ∨ jobs.current.active = false then jobs
  else if jobs.after = [] then (jobs.grow .fresh 2).next
  else jobs.next

/-- Fill the current packet slot and move on to the next one, of new ones if it was the last. -/
def push (p : Packet) (q : PoolList Packet) : PoolList Packet :=
  let q := q.modifyCurrent fun _ => p
  if q.after = [] then (q.grow .fresh 8).next else q.next

/-- What is queued of data of a type: a copy, if the data is the caller's to reuse. -/
def DataType.queued (type : DataType) : DataType := if type = .static then .copy else type

/-- `ape_socket_queue_data`. -/
def queueData (b : Block) (offset : Nat) (type : DataType) (s : Sock) : Sock :=
  let copies := type.queued = .copy
  let b' := if copies then { b with copy := true } else b
  let p : Packet := ⟨some b', b.bytes.length, offset, type.queued⟩
  { s.note (if copies then [.copied b'] else []) with
    jobs := (seek s.jobs).modifyCurrent fun j =>
      ⟨true, true, some (push p (j.queue.getD (.init .fresh 7)))⟩ }

/-! ## `APE_socket_write` -/

/-- How a loop over a system call ends. -/
inductive Outcome where
  | done
  | again
  | failed
  deriving DecidableEq, Repr

/-- `SSL_write` of a payload. -/
def sslWrite (sys : System) (b : Block) (len : Nat) (queued : Bool) (s : Sock) : SslAnswer × Sock :=
  let num := sslNum len
  let a := (sys.ssl s.calls).clip num
  (a, { s.note [.offered b num queued a] with calls := s.calls + 1 })

/-- The loop over `write`, with `sent` bytes written.  Every answer takes a byte, so the fuel, one
for each byte, suffices. -/
def writeLoop (sys : System) (b : Block) : Nat → Nat → Sock → Outcome × Nat × Sock
  | 0, sent, s => (.done, sent, s)
  | fuel + 1, sent, s =>
    if sent < b.bytes.length then
      match (sys.write s.calls).clip (b.bytes.length - sent) with
      | .took n => writeLoop sys b fuel (sent + n) { s.note [.took b n] with calls := s.calls + 1 }
      | .again => (.again, sent, { s with calls := s.calls + 1 })
      | .error => (.failed, sent, { s.note [.failed b] with calls := s.calls + 1 })
    else (.done, sent, s)

/-- The type `APE_socket_write` releases its data with. -/
def DataType.direct (type : DataType) : DataType := if type = .copy then .own else type

/-- The call, with its block named. -/
def handed (b : Block) (type : DataType) (s : Sock) : Sock :=
  { s.note [.handed b type] with written := s.written + 1 }

/-- `APE_socket_write` on a secure socket with nothing to wait for. -/
def writeSecure (sys : System) (b : Block) (type : DataType) (s : Sock) : Sock :=
  match sslWrite sys b b.bytes.length false s with
  | (.want, s) => queueData b 0 type s.block
  | (.fatal, s) => shutdownForce sys (releaseData b type.direct s)
  | (_, s) => releaseData b type.direct s

/-- `APE_socket_write` on a plain socket with nothing to wait for. -/
def writePlain (sys : System) (b : Block) (type : DataType) (s : Sock) : Sock :=
  match writeLoop sys b b.bytes.length 0 s with
  | (.again, sent, s) => queueData b sent type s.block
  | (.failed, _, s) => shutdownForce sys (releaseData b type.direct s)
  | (.done, _, s) => releaseData b type.direct s

/-- `APE_socket_write`. -/
def apeSocketWrite (sys : System) (data : Payload) (type : DataType) (s : Sock) : Sock :=
  let b : Block := ⟨s.written, false, data⟩
  let s := handed b type s
  if s.online = false ∨ data.bytes = [] then releaseData b type.direct s
  else if s.mustQueue then queueData b 0 type s
  else if s.secure then writeSecure sys b type s
  else writePlain sys b type s

/-! ## Working the jobs off -/

/-- A difference of a `ssize_t` and a `size_t`, kept in the `ssize_t`. -/
def ssize (z : Int) : Int := Int.bmod z (2 ^ 64)

/-- A number kept in a `size_t`. -/
def usize (z : Int) : Nat := (z % 2 ^ 64).toNat

/-- The head is released and taken to the end of the list. -/
def pop (q : PoolList Packet) : PoolList Packet :=
  (q.modifyHead fun p => { p with data := none }).headToQueue

/-- The loop that takes the `n` accepted bytes off the packets, with what it releases.  It frees a
packet a round, so the fuel, one for each node, suffices. -/
def packetLoop : Nat → Int → PoolList Packet → PoolList Packet × List Event
  | 0, _, q => (q, [])
  | fuel + 1, n, q =>
    match q.head.data with
    | none => (q, [])
    | some b =>
      let left := usize (q.head.len - q.head.offset)
      let n' := ssize (n - left)
      if n' < 0 then
        (q.modifyHead fun p => { p with offset := usize (p.len + n') }, [.took b n.toNat])
      else
        let done := [.took b left, .released b q.head.type]
        if n' = 0 then (pop q, done)
        else
          let (q, ev) := packetLoop fuel n' (pop q)
          (q, done ++ ev)

/-- The packets that wait in a queue. -/
def waiting (q : PoolList Packet) : List Packet := q.nodes.takeWhile fun p => p.data.isSome

/-- What one `writev` offers. -/
def chunks (sys : System) (q : PoolList Packet) : Nat :=
  (((waiting q).take sys.maxChunks).map fun p => p.len - p.offset).sum

/-- The loop over the packets of a secure socket, each written as a whole.  A round frees a packet,
so the fuel, one for each node, suffices. -/
def sslLoop (sys : System) : Nat → PoolList Packet → Sock → Outcome × PoolList Packet × Sock
  | 0, q, s => (.done, q, s)
  | fuel + 1, q, s =>
    match q.head.data with
    | none => (.done, q, s)
    | some b =>
      match sslWrite sys b q.head.len true s with
      | (.want, s) => (.again, q, s)
      | (.fatal, s) => (.failed, q, s)
      | (_, s) => sslLoop sys fuel (pop q) (releaseData b q.head.type s)

/-- `job->ptr.data` at the head of the jobs. -/
def setQueue (q : PoolList Packet) (s : Sock) : Sock :=
  { s with jobs := s.jobs.modifyHead fun j => { j with queue := some q } }

/-- The case `APE_SOCKET_JOB_WRITEV`: whether the job is finished. -/
def doWritev (sys : System) (q : PoolList Packet) (s : Sock) : Bool × Sock :=
  if s.secure then
    match sslLoop sys q.nodes.length q s with
    | (.done, q, s) => (true, setQueue q s)
    | (.again, q, s) => (false, (setQueue q s).block)
    | (.failed, q, s) => (false, shutdownForce sys (setQueue q s))
  else
    match (sys.write s.calls).clipv (chunks sys q) with
    | .took n =>
      let (q, ev) := packetLoop q.nodes.length n q
      let s := setQueue q { s.note ev with calls := s.calls + 1 }
      if q.head.data.isSome then (false, s.block) else (true, s)
    | _ => (false, { s.block with calls := s.calls + 1 })

/-- The `switch` of `ape_socket_do_jobs`: whether the job is finished.  A slot that works always has
its queue. -/
def doJob (sys : System) (s : Sock) : Bool × Sock :=
  match s.jobs.head.writev, s.jobs.head.queue with
  | true, some q => doWritev sys q s
  | true, none => (false, s)
  | false, _ => (true, s)

/-- The end of a round: the head becomes idle and is taken behind `current`. -/
def finishJob (s : Sock) : Sock :=
  { s with jobs := (s.jobs.modifyHead fun j => { j with active := false }).headToCurrent }

/-- The loop of `ape_socket_do_jobs`.  A round makes a slot idle, so the fuel, one more than there
are slots, suffices. -/
def doJobsLoop (sys : System) : Nat → Sock → Sock
  | 0, s => s
  | fuel + 1, s =>
    if s.jobs.head.active = false then s
    else if (doJob sys s).1 then doJobsLoop sys fuel (finishJob (doJob sys s).2)
    else (doJob sys s).2

/-- `ape_socket_do_jobs`. -/
def doJobs (sys : System) (s : Sock) : Sock := doJobsLoop sys (s.jobs.nodes.length + 1) s

/-! ## Runs -/

/-- What happens to a socket: a call of `APE_socket_write`, the event loop that clears
`APE_SOCKET_WOULD_BLOCK` or works the jobs off, and the two halves of `APE_socket_destroy`, between
which `on_disconnect` may itself write. -/
inductive Label where
  | write (data : Payload) (type : DataType)
  | clear
  | doJobs
  | destroy
  | destroyed
  deriving DecidableEq

/-- One step.  The event loop works off the jobs of an online socket only. -/
def step (sys : System) (s : Sock) : Label → Sock
  | .write data type => apeSocketWrite sys data type s
  | .clear => { s with wouldBlock := false }
  | .doJobs => if s.online then doJobs sys s else s
  | .destroy => destroy s
  | .destroyed => destroyed s

/-- A run. -/
def run (sys : System) (s : Sock) (ls : List Label) : Sock := ls.foldl (step sys) s

end Ape.Ownership

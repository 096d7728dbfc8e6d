import ApeServer.Socket.Jobs

/-!
# An `ape_socket` with its callbacks

A socket, plain or secure, in every state from `APE_socket_new` to the `close` of its descriptor.
The functions of `ape_socket.c` are cut where they call back: what is still to be done stands on a
stack of frames, and while it is not empty the code that runs is a callback, which may itself make
calls on the socket.

* `Sock` — `ape_socket`, with the stack and a ghost log;
* `System` — every answer the system calls can give;
* `destroy`, `apeSocketShutdown`, `apeSocketWrite`, `apeSendfile`, `doJobs`, `apeSocketRead`,
  `connectReady`, `work` — the functions of the source, up to the callback they run into;
* `Label`, `step`, `run` — what happens to a socket, one call, event or return at a time.
-/

namespace Ape.Endpoint

open Socket (PoolList JobSlot JobType JobPtr Packet seek push packetLoop)

/-! ## The system -/

/-- An answer to `write`, `writev`, `sendfile` or `SSL_write`: a count, `EAGAIN` or
`SSL_ERROR_WANT_…`, `SSL_ERROR_ZERO_RETURN`, or any other error. -/
inductive Reply where
  | took (n : Nat)
  | again
  | zeroReturn
  | error
  deriving DecidableEq, Repr

/-- A count is at least one, and no more than was asked for. -/
def Reply.clip (asked : Nat) : Reply → Reply
  | .took n => .took (min (max n 1) asked)
  | r => r

/-- An answer to `connect`. -/
inductive ConnectReply where
  | done
  | inProgress
  | error
  deriving DecidableEq, Repr

/-- The system: the answers to the calls in turn, and the longest `writev`. -/
structure System where
  reply : Nat → Reply
  shutdownFails : Nat → Bool
  connect : Nat → ConnectReply
  soError : Nat → Bool
  maxChunks : Nat

/-- How the loop over `read` ends: with a 0, with `EAGAIN` or an error that is ignored, or with an
error that shuts a secure socket down. -/
inductive ReadEnd where
  | eof
  | again
  | fatal
  deriving DecidableEq, Repr

/-! ## The socket -/

/-- `states.state`. -/
inductive SocketState where
  | online
  | progress
  | pending
  | offline
  deriving DecidableEq, Repr

/-- A callback that runs, with what its caller still has to do: after `on_read`, whether the loop
over `read` ended with a 0. -/
inductive Frame where
  | onDisconnect
  | onRead (eof : Bool)
  | onConnected
  deriving DecidableEq, Repr

/-- What the socket does, in order: the callbacks, the calls with their answers, and the clearing of
`APE_SOCKET_WOULD_BLOCK`.  `fault` is a packet queue read through a slot that holds none. -/
inductive Action where
  | onDisconnect
  | onRead
  | onConnected
  | cleared
  | answered (asked : Nat) (reply : Reply)
  | shutdown
  | close
  | free
  | fault
  deriving DecidableEq, Repr

/-- `ape_socket`.  `lookups` counts the host names that are being resolved for it. -/
structure Sock where
  state : SocketState
  secure : Bool
  wouldBlock : Bool
  hasOnRead : Bool
  hasOnConnected : Bool
  hasOnDisconnect : Bool
  used : Nat
  jobs : PoolList JobSlot
  lookups : Nat
  calls : Nat
  stack : List Frame
  log : List Action
  deriving Repr

/-- What `APE_socket_new` leaves, with the callbacks the caller then sets and the state
`ape_socket_accept` sets for a client. -/
def Sock.new (state : SocketState) (secure hasOnRead hasOnConnected hasOnDisconnect : Bool) : Sock :=
  ⟨state, secure, false, hasOnRead, hasOnConnected, hasOnDisconnect, 0, .init .fresh 1, 0, 0, [], []⟩

/-- One more entry of the log. -/
def Sock.note (a : Action) (s : Sock) : Sock := { s with log := s.log ++ [a] }

/-- A call that offers `asked` bytes. -/
def ask (sys : System) (asked : Nat) (s : Sock) : Reply × Sock :=
  let r := (sys.reply s.calls).clip asked
  (r, { s with calls := s.calls + 1, log := s.log ++ [.answered asked r] })

/-! ## The end of a socket -/

/-- The end of `APE_socket_destroy`, behind the callback. -/
def finishDestroy (s : Sock) : Sock := { (s.note .close).note .free with state := .offline }

/-- `APE_socket_destroy`, up to the callback if there is one. -/
def destroy (s : Sock) : Sock :=
  if s.state = .offline then s
  else if s.hasOnDisconnect then
    { s.note .onDisconnect with stack := .onDisconnect :: s.stack }
  else finishDestroy s

/-- `shutdown(fd, 2)`, and `APE_socket_destroy` when it fails. -/
def shutdownFd (sys : System) (s : Sock) : Sock :=
  let s' := { s.note .shutdown with calls := s.calls + 1 }
  if sys.shutdownFails s.calls then destroy s' else s'

/-- `ape_socket_shutdown_force`. -/
def shutdownForce (sys : System) (s : Sock) : Sock :=
  if s.state ≠ .online then s else shutdownFd sys s

/-! ## The jobs -/

/-- A store into `socket->jobs`. -/
def setJobs (jobs : PoolList JobSlot) (s : Sock) : Sock := { s with jobs := jobs }

/-- `ape_socket_job_get_slot`; the slot is the new `current`. -/
def getSlot (type : JobType) (s : Sock) : Sock :=
  setJobs ((seek type s.jobs).modifyCurrent (JobSlot.take type)) s

/-- `job->ptr = …` on the slot just taken. -/
def setPtr (ptr : JobPtr) (s : Sock) : Sock :=
  setJobs (s.jobs.modifyCurrent fun j => { j with ptr := ptr }) s

/-- A store through the head of the ring. -/
def setHead (f : JobSlot → JobSlot) (s : Sock) : Sock := setJobs (s.jobs.modifyHead f) s

/-- `ape_socket_queue_data`. -/
def queueData (data : List UInt8) (offset : Nat) (s : Sock) : Sock :=
  let s := getSlot .writev s
  match s.jobs.current.ptr with
  | .null => setPtr (.packets (push data offset (.init .fresh 7))) s
  | .packets q => setPtr (.packets (push data offset q)) s
  | .file _ => s.note .fault

/-- `socket->states.flags & APE_SOCKET_WOULD_BLOCK ||
socket->jobs.head->flags & APE_SOCKET_JOB_ACTIVE`. -/
def Sock.mustQueue (s : Sock) : Bool := s.wouldBlock || s.jobs.head.active

/-- `socket->states.flags |= APE_SOCKET_WOULD_BLOCK`. -/
def Sock.block (s : Sock) : Sock := { s with wouldBlock := true }

/-! ## The calls -/

/-- `APE_socket_shutdown`. -/
def apeSocketShutdown (sys : System) (s : Sock) : Sock :=
  if s.state ≠ .online then s
  else if s.mustQueue then getSlot .shutdown s
  else shutdownFd sys s

/-- How a loop over a system call ends. -/
inductive Outcome where
  | done
  | again
  | failed
  deriving DecidableEq, Repr

/-- The loop of `APE_socket_write` on a plain socket.  Every answer takes a byte, so the fuel, one
for each byte, suffices. -/
def writeLoop (sys : System) : Nat → List UInt8 → Sock → Outcome × List UInt8 × Sock
  | 0, rest, s => (.done, rest, s)
  | fuel + 1, rest, s =>
    if rest = [] then (.done, rest, s)
    else
      match ask sys rest.length s with
      | (.took n, s) => writeLoop sys fuel (rest.drop n) s
      | (.again, s) => (.again, rest, s)
      | (_, s) => (.failed, rest, s)

/-- `APE_socket_write`. -/
def apeSocketWrite (sys : System) (data : List UInt8) (s : Sock) : Sock :=
  if s.state ≠ .online ∨ data = [] then s
  else if s.mustQueue then queueData data 0 s
  else if s.secure then
    match ask sys data.length s with
    | (.again, s) => queueData data 0 s.block
    | (.error, s) => shutdownForce sys s
    | (_, s) => s
  else
    match writeLoop sys data.length data s with
    | (.again, rest, s) => queueData data (data.length - rest.length) s.block
    | (.failed, _, s) => shutdownForce sys s
    | (.done, _, s) => s

/-- The loop over `sendfile(…, 4096)`; it is done at the end of the file. -/
def sendfileLoop (sys : System) : Nat → List UInt8 → Sock → Outcome × List UInt8 × Sock
  | 0, rest, s => (.done, rest, s)
  | fuel + 1, rest, s =>
    match ask sys (rest.take 4096).length s with
    | (.took n, s) => if n = 0 then (.done, rest, s) else sendfileLoop sys fuel (rest.drop n) s
    | (.again, s) => (.again, rest, s)
    | (_, s) => (.failed, rest, s)

/-- `APE_sendfile` of a file that could be opened; an error but `EAGAIN` ends it like the end of the
file. -/
def apeSendfile (sys : System) (content : List UInt8) (s : Sock) : Sock :=
  if s.state ≠ .online then s
  else if s.mustQueue then setPtr (.file content) (getSlot .sendfile s.block)
  else
    match sendfileLoop sys (content.length + 1) content s with
    | (.again, rest, s) => setPtr (.file rest) (getSlot .sendfile s.block)
    | (_, _, s) => s

/-! ## Working the jobs off -/

/-- The end of a round: the head becomes idle and is taken behind `current`. -/
def finishJob (s : Sock) : Sock :=
  let s := setHead (fun j => { j with active := false }) s
  setJobs s.jobs.headToCurrent s

/-- The packets that wait in a queue. -/
def waiting (q : PoolList Packet) : List Packet := q.nodes.takeWhile fun p => p.data.isSome

/-- The number of bytes one `writev` offers. -/
def chunks (sys : System) (q : PoolList Packet) : Nat :=
  (((waiting q).take sys.maxChunks).flatMap Packet.rest).length

/-- The loop over the packets of a secure socket, each written as a whole.  A round frees a packet,
so the fuel, one for each node, suffices. -/
def sslLoop (sys : System) : Nat → PoolList Packet → Sock → Outcome × PoolList Packet × Sock
  | 0, q, s => (.done, q, s)
  | fuel + 1, q, s =>
    if q.head.data.isNone then (.done, q, s)
    else
      match ask sys q.head.len s with
      | (.again, s) => (.again, q, s)
      | (.error, s) => (.failed, q, s)
      | (_, s) => sslLoop sys fuel (q.modifyHead fun p => { p with data := none }).headToQueue s

/-- The case `APE_SOCKET_JOB_WRITEV`: whether the job is finished. -/
def doWritev (sys : System) (s : Sock) : Bool × Sock :=
  match s.jobs.head.ptr with
  | .packets q =>
    if s.secure then
      match sslLoop sys q.nodes.length q s with
      | (.done, q, s) => (true, setHead (fun j => { j with ptr := .packets q }) s)
      | (.again, q, s) => (false, (setHead (fun j => { j with ptr := .packets q }) s).block)
      | (.failed, q, s) => (false, shutdownForce sys (setHead (fun j => { j with ptr := .packets q }) s))
    else
      match ask sys (chunks sys q) s with
      | (.took n, s) =>
        let q := packetLoop q.nodes.length n q
        let s := setHead (fun j => { j with ptr := .packets q }) s
        if q.head.data.isSome then (false, s.block) else (true, s)
      | (_, s) => (false, s.block)
  | _ => (false, s.note .fault)

/-- The case `APE_SOCKET_JOB_SENDFILE`: whether the job is finished. -/
def doSendfile (sys : System) (s : Sock) : Bool × Sock :=
  match s.jobs.head.ptr with
  | .file rest =>
    match sendfileLoop sys (rest.length + 1) rest s with
    | (.again, rest, s) => (false, (setHead (fun j => { j with ptr := .file rest }) s).block)
    | (_, _, s) => (true, setHead (fun j => { j with ptr := .null }) s)
  | _ => (false, s.note .fault)

/-- The loop of `ape_socket_do_jobs`.  A round makes a slot idle, so the fuel, one more than there
are slots, suffices. -/
def doJobsLoop (sys : System) : Nat → Sock → Sock
  | 0, s => s
  | fuel + 1, s =>
    if s.jobs.head.active = false then s
    else
      match s.jobs.head.kind with
      | some .writev =>
        let (finished, s) := doWritev sys s
        if finished then doJobsLoop sys fuel (finishJob s) else s
      | some .sendfile =>
        let (finished, s) := doSendfile sys s
        if finished then doJobsLoop sys fuel (finishJob s) else s
      | some .shutdown => shutdownFd sys s
      | none => doJobsLoop sys fuel (finishJob s)

/-- `ape_socket_do_jobs`. -/
def doJobs (sys : System) (s : Sock) : Sock := doJobsLoop sys (s.jobs.nodes.length + 1) s

/-! ## Reading and connecting -/

/-- The end of `ape_socket_read`, behind the callback. -/
def finishRead (eof : Bool) (s : Sock) : Sock := if eof then destroy s else s

/-- `ape_socket_read` with `nread` bytes in all, up to the callback if there is one.  `data_in` is
emptied behind the callback only, so an error that shuts a secure socket down leaves it. -/
def apeSocketRead (sys : System) (nread : Nat) (e : ReadEnd) (s : Sock) : Sock :=
  if s.state ≠ .online then s
  else
    let s := { s with used := s.used + nread }
    if s.secure = true ∧ e = .fatal then shutdownForce sys s
    else if s.used = 0 then finishRead (e = .eof) s
    else if s.hasOnRead then
      { s.note .onRead with stack := .onRead (e = .eof) :: s.stack }
    else finishRead (e = .eof) { s with used := 0 }

/-- `ape_socket_connect_ready_to_connect`. -/
def connectReady (sys : System) (resolved : Bool) (s : Sock) : Sock :=
  let s := { s with lookups := s.lookups - 1 }
  if resolved = false then destroy s
  else
    match sys.connect s.calls with
    | .inProgress => { s with calls := s.calls + 1, state := .progress }
    | _ => destroy { s with calls := s.calls + 1 }

/-- `APE_socket_connect`; the resolver answers later, or at once for an address. -/
def apeSocketConnect (port : Nat) (s : Sock) : Sock :=
  if port = 0 then destroy s else { s with lookups := s.lookups + 1 }

/-- What the event loop does for `EVENT_WRITE`, behind the read. -/
def work (sys : System) (s : Sock) : Sock :=
  if s.state = .online ∧ s.wouldBlock = false then doJobs sys s
  else if s.state = .progress then
    let failed := sys.soError s.calls
    let s := { s with calls := s.calls + 1 }
    if failed then s
    else if s.hasOnConnected then
      { s.note .onConnected with state := .online, stack := .onConnected :: s.stack }
    else { s with state := .online }
  else s

/-- What the event loop does for `EVENT_WRITE`, in front of the read. -/
def clear (s : Sock) : Sock := { s.note .cleared with wouldBlock := false }

/-- A callback returns. -/
def ret (s : Sock) : Sock :=
  match s.stack with
  | [] => s
  | .onDisconnect :: stack => finishDestroy { s with stack := stack }
  | .onRead eof :: stack => finishRead eof { s with stack := stack, used := 0 }
  | .onConnected :: stack => { s with stack := stack }

/-! ## Runs -/

/-- What happens to a socket: a call, the end of a lookup, a part of an event, or the return of the
callback that runs.  An event is `clear` if it can be written, `read` if it can be read, and then
`work` if it can be written, unless the read has destroyed the socket. -/
inductive Label where
  | write (data : List UInt8)
  | sendfile (content : List UInt8)
  | shutdown
  | destroy
  | connect (port : Nat)
  | lookedUp (resolved : Bool)
  | clear
  | read (nread : Nat) (e : ReadEnd)
  | doJobs
  | work
  | ret
  deriving DecidableEq, Repr

/-- The event loop runs no callback, a callback returns if there is one, and a lookup ends if there
is one. -/
def Sock.allows (s : Sock) : Label → Bool
  | .write _ | .sendfile _ | .shutdown | .destroy | .connect _ => true
  | .lookedUp _ => decide (0 < s.lookups)
  | .clear | .read _ _ | .doJobs | .work => s.stack.isEmpty
  | .ret => !s.stack.isEmpty

/-- What a label does. -/
def Label.exec (sys : System) (s : Sock) : Label → Sock
  | .write data => apeSocketWrite sys data s
  | .sendfile content => apeSendfile sys content s
  | .shutdown => apeSocketShutdown sys s
  | .destroy => Endpoint.destroy s
  | .connect port => apeSocketConnect port s
  | .lookedUp resolved => connectReady sys resolved s
  | .clear => Endpoint.clear s
  | .read nread e => apeSocketRead sys nread e s
  | .doJobs => Endpoint.doJobs sys s
  | .work => Endpoint.work sys s
  | .ret => Endpoint.ret s

/-- One step; a label that cannot happen changes nothing. -/
def step (sys : System) (s : Sock) (l : Label) : Sock := if s.allows l then l.exec sys s else s

/-- A run. -/
def run (sys : System) (s : Sock) (ls : List Label) : Sock := ls.foldl (step sys) s

end Ape.Endpoint

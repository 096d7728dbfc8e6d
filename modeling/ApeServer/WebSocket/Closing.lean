import ApeServer.Lib.Runs
import ApeServer.Socket.Jobs
import ApeServer.WebSocket.Lengths

/-!
# The close frames of a connection

`ape_ws_close` and the reader both send a close frame and both look at `close_sent`, but only the
first sets it; `ape_ws_write` does not look at it.  The socket stays online behind a close frame, for
instance while its shutdown waits in the queue.

* `apeWsWrite`, `apeWsClose`, `apeWsProcessFrame` — the functions of `ape_websocket.c` on a
  connection, whose socket takes what they hand to `APE_socket_write`;
* `connLoop_ws` — the reader is that of `processFrame`, unless `on_frame` calls `ape_ws_close`;
* `replayCall` — what the frames depend on: the calls alone;
* `reached_mirrors` — **a connection hands over what its calls say**, whatever the socket does;
* `closesOnce_iff` — **nothing follows a close frame exactly when nothing is written after the first
  closing call, and nothing closes again behind a close frame that was received first**.
-/

namespace Ape.WebSocket

open Runs (Along along_concat along_nil)
open Socket (Answer ApeSocket Kernel apeSocketShutdown apeSocketWrite onWriteEvent)

/-! ## Connections -/

/-- What a call of `APE_socket_write` is part of. -/
inductive FrameKind where
  | close
  | data
  deriving DecidableEq, Repr

/-- A call of `APE_socket_write`. -/
structure Handed where
  kind : FrameKind
  bytes : List UInt8
  deriving DecidableEq, Repr

/-- A call of `ape_ws_close` or `ape_ws_write`, or a close frame that was received. -/
inductive Call where
  | close
  | write (data : List UInt8)
  | closeFrame
  deriving DecidableEq, Repr

/-- Whether a call closes the connection. -/
def Call.Closes : Call → Prop
  | .close | .closeFrame => True
  | .write _ => False

instance : DecidablePred Call.Closes := fun call => by
  cases call <;> unfold Call.Closes <;> infer_instance

/-- An upgraded connection, with ghost records of the calls and of what was handed to
`APE_socket_write`. -/
structure Conn where
  socket : ApeSocket
  ws : WebsocketState
  calls : List Call
  handed : List Handed
  deriving DecidableEq, Repr

/-- A connection that has just been upgraded; the socket may have work left. -/
def Conn.upgraded (s : ApeSocket) (block : WebsocketState) : Conn := ⟨s, httpReadyState block, [], []⟩

/-- What others may do with a connection, among them `on_frame`. -/
inductive UserCall where
  | close
  | write (data : List UInt8)
  | shutdown
  deriving DecidableEq, Repr

section Functions

variable (k : Kernel)

/-- `APE_socket_write(socket_client, bytes, …)`. -/
def hand (kind : FrameKind) (bytes : List UInt8) (c : Conn) : Conn :=
  { c with socket := apeSocketWrite k bytes c.socket, handed := c.handed ++ [⟨kind, bytes⟩] }

/-- The ghost record of a call. -/
def note (call : Call) (c : Conn) : Conn := { c with calls := c.calls ++ [call] }

/-- `ape_ws_write`. -/
def apeWsWrite (data : List UInt8) (c : Conn) : Conn :=
  hand k .data data (hand k .data (payloadHead data.length) (note (.write data) c))

/-- `ape_ws_close`. -/
def apeWsClose (c : Conn) : Conn :=
  let c := note .close c
  if c.ws.closeSent then c
  else hand k .close [0x88, 0x00] { c with ws := { c.ws with closeSent := true } }

/-- A call from outside. -/
def UserCall.exec (c : Conn) : UserCall → Conn
  | .close => apeWsClose k c
  | .write data => apeWsWrite k data c
  | .shutdown => { c with socket := apeSocketShutdown k c.socket }

/-- What the callback does with a payload, in the connection it is called for. -/
abbrev OnFrame := Conn → List UInt8 → Int → List UserCall

variable (onFrame : OnFrame)

/-- An event of the reader: it writes close frames only, and shuts down for a close frame only. -/
def play (c : Conn) : WsEvent → Conn
  | .write bytes => hand k .close bytes c
  | .shutdown => { note .closeFrame c with socket := apeSocketShutdown k c.socket }
  | .onFrame payload length => (onFrame c payload length).foldl (UserCall.exec k) c
  | .malloc _ | .store _ _ | .consumed _ | .overread => c

/-- The loop of `ape_ws_process_frame`, over the bytes from `pData` on. -/
def connLoop (used : Nat) : List UInt8 → Conn → Conn
  | [], c => c
  | b :: bs, c =>
    let s := wsSwitch used c.ws b
    let c := s.events.foldl (play k onFrame) { c with ws := s.ws }
    if s.returned then c else connLoop used bs { c with ws := advance c.ws }

/-- `ape_ws_process_frame` on a `data_in` that holds `bytes`. -/
def apeWsProcessFrame (bytes : List UInt8) (c : Conn) : Conn :=
  connLoop k onFrame bytes.length (bytes.drop c.ws.offset) c

end Functions

/-- A callback that does not close the connection leaves the reader alone. -/
theorem play_ws {k : Kernel} {onFrame : OnFrame} (hopen : ∀ c p n, .close ∉ onFrame c p n)
    (evs : List WsEvent) (c : Conn) : (evs.foldl (play k onFrame) c).ws = c.ws := by
  have husers : ∀ (us : List UserCall) (c : Conn), .close ∉ us →
      (us.foldl (UserCall.exec k) c).ws = c.ws := by
    intro us
    induction us with
    | nil => exact fun _ _ => rfl
    | cons u us ih =>
      intro c hus
      rw [List.mem_cons, not_or] at hus
      rw [List.foldl_cons, ih _ hus.2]
      cases u with
      | close => exact absurd rfl hus.1
      | write data => rfl
      | shutdown => rfl
  induction evs generalizing c with
  | nil => rfl
  | cons e evs ih =>
    rw [List.foldl_cons, ih]
    cases e with
    | onFrame payload n => exact husers _ c (hopen c payload n)
    | _ => rfl

/-- **The reader of a connection** is the one that reads alone. -/
theorem connLoop_ws {k : Kernel} {onFrame : OnFrame} (hopen : ∀ c p n, .close ∉ onFrame c p n)
    (used : Nat) (bs : List UInt8) (c : Conn) :
    (connLoop k onFrame used bs c).ws = (frameLoop used bs c.ws).1 := by
  induction bs generalizing c with
  | nil => rfl
  | cons b bs ih =>
    have hws := play_ws (k := k) hopen (wsSwitch used c.ws b).events
      { c with ws := (wsSwitch used c.ws b).ws }
    simp only [connLoop, frameLoop]
    split
    · exact hws
    · rw [ih, hws]

/-! ## Runs -/

/-- What happens to a connection: a call, a read, with what `on_frame` does there, or a write event
of the event loop. -/
inductive ConnOp where
  | call (u : UserCall)
  | read (onFrame : OnFrame) (bytes : List UInt8)
  | writeEvent

/-- One step. -/
def ConnOp.exec (k : Kernel) (c : Conn) : ConnOp → Conn
  | .call u => u.exec k c
  | .read onFrame bytes => apeWsProcessFrame k onFrame bytes c
  | .writeEvent => { c with socket := onWriteEvent k c.socket }

/-- A connection that is reached while its socket is online. -/
inductive Reached (k : Kernel) : Conn → Prop where
  | upgraded {s : ApeSocket} (hs : s.online = true) (block : WebsocketState) :
      Reached k (.upgraded s block)
  | step {c : Conn} (h : Reached k c) (honline : c.socket.online = true) (op : ConnOp) :
      Reached k (op.exec k c)

/-! ## What is promised -/

/-- At most one close frame, and no data frame behind it. -/
structure ClosesOnce (handed : List Handed) : Prop where
  once : (handed.filter fun h => h.kind = .close).length ≤ 1
  silent : ∀ pre h post, handed = pre ++ h :: post → h.kind = .close → ∀ d ∈ post, d.kind ≠ .data

/-- A call that keeps the promise behind others: the first closing call and what comes before it, or
a later closing call if `ape_ws_close` has been called. -/
def CallOk (pre : List Call) (call : Call) : Prop :=
  (∀ c ∈ pre, ¬ c.Closes) ∨ (call.Closes ∧ .close ∈ pre)

/-- Every call of a list keeps it. -/
def Orderly (calls : List Call) : Prop := Along CallOk calls

/-- Nothing is handed over behind a close frame. -/
theorem closesOnce_iff_along (handed : List Handed) :
    ClosesOnce handed ↔ Along (fun pre _ => ∀ d ∈ pre, d.kind ≠ .close) handed := by
  constructor
  · rintro ⟨honce, hsilent⟩ pre e post rfl d hd hclose
    obtain ⟨a, b, rfl⟩ := List.append_of_mem hd
    cases he : e.kind with
    | data =>
      refine hsilent a d (b ++ e :: post) (by simp) hclose e ?_ he
      exact List.mem_append_right b (List.mem_cons_self ..)
    | close =>
      simp [hclose, he] at honce
      omega
  · intro h
    constructor
    · induction handed using List.reverseRecOn with
      | nil => exact Nat.zero_le 1
      | append_singleton handed e _ =>
        obtain ⟨-, hlast⟩ := along_concat.1 h
        have hnone : (handed.filter fun d => d.kind = .close) = [] := by
          simpa using hlast
        rw [List.filter_append, hnone, List.nil_append]
        exact List.length_filter_le _ [e]
    · rintro pre e post rfl hclose d hd -
      obtain ⟨a, b, rfl⟩ := List.append_of_mem hd
      exact h (pre ++ e :: a) d b (by simp) e (by simp) hclose

/-! ## What is handed over -/

/-- The close frame. -/
def closeFrame : Handed := ⟨.close, [0x88, 0x00]⟩

/-- What a call makes of `close_sent` and of what has been handed over. -/
def replayCall (s : Bool × List Handed) : Call → Bool × List Handed
  | .write data => (s.1, s.2 ++ [⟨.data, payloadHead data.length⟩] ++ [⟨.data, data⟩])
  | .close => if s.1 then s else (true, s.2 ++ [closeFrame])
  | .closeFrame => if s.1 then s else (s.1, s.2 ++ [closeFrame])

/-- What some calls make of a fresh connection. -/
def replayCalls (calls : List Call) : Bool × List Handed := calls.foldl replayCall (false, [])

theorem replayCalls_concat (calls : List Call) (call : Call) :
    replayCalls (calls ++ [call]) = replayCall (replayCalls calls) call := by
  rw [replayCalls, List.foldl_append]
  rfl

/-- A connection is what its calls say. -/
def Mirrors (c : Conn) : Prop := (c.ws.closeSent, c.handed) = replayCalls c.calls

/-- One more call is mirrored by the flag and by what was handed over. -/
theorem Mirrors.call {c c' : Conn} (h : Mirrors c) (call : Call) (hcalls : c'.calls = c.calls ++ [call])
    (hnext : (c'.ws.closeSent, c'.handed) = replayCall (c.ws.closeSent, c.handed) call) :
    Mirrors c' := by
  unfold Mirrors
  rw [hnext, hcalls, replayCalls_concat, h]

section Steps

variable {k : Kernel} {onFrame : OnFrame} {c : Conn}

theorem mirrors_write (h : Mirrors c) (data : List UInt8) : Mirrors (apeWsWrite k data c) :=
  h.call (.write data) rfl rfl

theorem mirrors_close (h : Mirrors c) : Mirrors (apeWsClose k c) := by
  unfold apeWsClose
  cases hsent : c.ws.closeSent with
  | true =>
    refine h.call .close ?_ ?_
    · simp [note, hsent]
    · simp [note, hsent, replayCall]
  | false =>
    refine h.call .close ?_ ?_
    · simp [note, hsent, hand]
    · simp [note, hsent, hand, replayCall, closeFrame]

theorem mirrors_user (h : Mirrors c) (u : UserCall) : Mirrors (u.exec k c) := by
  cases u with
  | close => exact mirrors_close h
  | write data => exact mirrors_write h data
  | shutdown => exact h

theorem mirrors_users (us : List UserCall) (h : Mirrors c) :
    Mirrors (us.foldl (UserCall.exec k) c) := by
  induction us generalizing c with
  | nil => exact h
  | cons u us ih => exact ih (mirrors_user h u)

/-- A memory access. -/
def WsEvent.Quiet : WsEvent → Prop
  | .malloc _ | .store _ _ | .consumed _ | .overread => True
  | .onFrame _ _ | .write _ | .shutdown => False

theorem play_quiet {evs : List WsEvent} (hquiet : ∀ e ∈ evs, e.Quiet) (c : Conn) :
    evs.foldl (play k onFrame) c = c := by
  induction evs with
  | nil => rfl
  | cons e evs ih =>
    have he : play k onFrame c e = c := by
      have := hquiet e (List.mem_cons_self ..)
      cases e <;> first | rfl | exact absurd this id
    rw [List.foldl_cons, he, ih fun d hd => hquiet d (List.mem_cons_of_mem e hd)]

/-- The end of a frame closes the connection or reports a payload, or neither. -/
theorem frameEvents_cases (ws : WebsocketState) :
    frameEvents ws = [] ∨ (∃ payload n, frameEvents ws = [.onFrame payload n]) ∨
      frameEvents ws = (if ws.closeSent then [] else [.write [0x88, 0x00]]) ++ [.shutdown] := by
  unfold frameEvents
  split
  · exact .inr (.inr rfl)
  · split
    · exact .inl rfl
    · split
      · exact .inl rfl
      · exact .inr (.inl ⟨_, _, rfl⟩)

theorem finishFrame_events (used : Nat) (ws : WebsocketState) (events : List WsEvent) :
    (finishFrame used ws events).events = events ++ [.store ws.dataInkey.toInt ws.data.length] ++
      frameEvents { ws with data := poke ws.data ws.dataInkey 0 } := by
  simp only [finishFrame]
  split_ifs <;> rfl

theorem finishFrame_sent (used : Nat) (ws : WebsocketState) (events : List WsEvent) :
    (finishFrame used ws events).ws.closeSent = ws.closeSent := by
  simp only [finishFrame]
  split_ifs <;> rfl

/-- What a byte does: its memory accesses, and what it does at the end of a frame. -/
structure ByteEvents (ws : WebsocketState) (s : Switch) (last : List WsEvent) : Prop where
  sent : s.ws.closeSent = ws.closeSent
  quiet : ∃ quiet, s.events = quiet ++ last ∧ ∀ e ∈ quiet, e.Quiet
  ends : last = [] ∨ (∃ payload n, last = [.onFrame payload n]) ∨
    last = (if ws.closeSent then [] else [.write [0x88, 0x00]]) ++ [.shutdown]

/-- A byte with no event of its own. -/
theorem ByteEvents.silent {ws : WebsocketState} {s : Switch} (hsent : s.ws.closeSent = ws.closeSent)
    (hevents : ∀ e ∈ s.events, e.Quiet) : ByteEvents ws s [] :=
  ⟨hsent, ⟨s.events, (List.append_nil _).symm, hevents⟩, .inl rfl⟩

theorem allocate_quiet (ws : WebsocketState) :
    (allocate ws).1.closeSent = ws.closeSent ∧ ∀ e ∈ (allocate ws).2, e.Quiet := by
  unfold allocate
  split
  · exact ⟨rfl, by simp [WsEvent.Quiet]⟩
  · exact ⟨rfl, by simp⟩

theorem stepData_ends (used : Nat) (ws : WebsocketState) (b : UInt8) :
    ∃ last, ByteEvents ws (stepData used ws b) last := by
  obtain ⟨hsent, hquiet⟩ := allocate_quiet ws
  have hmemory : ∀ e ∈ (allocate ws).2 ++ [.consumed (allocate ws).1.extendedLength,
      .store (allocate ws).1.dataInkey.toInt (allocate ws).1.data.length], e.Quiet := by
    intro e he
    rcases List.mem_append.1 he with he | he
    · exact hquiet e he
    · simp only [List.mem_cons, List.not_mem_nil, or_false] at he
      rcases he with rfl | rfl <;> trivial
  simp only [stepData]
  split
  · generalize hdone : unmask (allocate ws).1 b = done
    have hdone' : done.closeSent = ws.closeSent := by
      rw [← hdone]
      exact hsent
    refine ⟨frameEvents { done with data := poke done.data done.dataInkey 0 },
      (finishFrame_sent used done _).trans hdone', ⟨_, finishFrame_events used done _, ?_⟩, ?_⟩
    · intro e he
      rcases List.mem_append.1 he with he | he
      · exact hmemory e he
      · rw [List.mem_singleton.1 he]
        trivial
    · rw [← hdone']
      exact frameEvents_cases { done with data := poke done.data done.dataInkey 0 }
  · exact ⟨[], .silent hsent hmemory⟩

theorem wsSwitch_ends (used : Nat) (ws : WebsocketState) (b : UInt8) :
    ∃ last, ByteEvents ws (wsSwitch used ws b) last := by
  have hheader : ∀ c, (storeHeader ws c).closeSent = ws.closeSent := by
    intro c
    unfold storeHeader
    split_ifs <;> rfl
  unfold wsSwitch
  cases ws.step with
  | data => exact stepData_ends used ws b
  | key =>
    refine ⟨[], .silent ?_ (by simp [stepKey])⟩
    simp only [stepKey, Switch.break_ws]
    split <;> rfl
  | start => exact ⟨[], .silent rfl (by simp [stepStart])⟩
  | length =>
    simp only [stepLength]
    split_ifs <;> exact ⟨[], .silent rfl (by simp)⟩
  | shortLength =>
    refine ⟨[], .silent ?_ (by simp [stepShortLength])⟩
    simp only [stepShortLength, Switch.break_ws]
    split <;> exact hheader b
  | extendedLength =>
    refine ⟨[], .silent ?_ (by simp [stepExtendedLength])⟩
    simp only [stepExtendedLength, Switch.break_ws]
    split <;> exact hheader b
  | theEnd => exact ⟨[], .silent rfl (by simp)⟩

/-- **A byte keeps a connection what its calls say.** -/
theorem mirrors_byte (used : Nat) (h : Mirrors c) (b : UInt8) :
    Mirrors ((wsSwitch used c.ws b).events.foldl (play k onFrame)
      { c with ws := (wsSwitch used c.ws b).ws }) := by
  obtain ⟨last, hsent, ⟨quiet, hevents, hquiet⟩, hends⟩ := wsSwitch_ends used c.ws b
  have hsame : Mirrors { c with ws := (wsSwitch used c.ws b).ws } := by
    unfold Mirrors
    rw [show ({ c with ws := (wsSwitch used c.ws b).ws } : Conn).ws.closeSent = c.ws.closeSent
      from hsent]
    exact h
  rw [hevents, List.foldl_append, play_quiet hquiet]
  rcases hends with rfl | ⟨payload, n, rfl⟩ | rfl
  · exact hsame
  · exact mirrors_users _ hsame
  · cases hflag : c.ws.closeSent with
    | true =>
      rw [hflag] at hsent
      refine hsame.call .closeFrame (by simp [play, note]) ?_
      simp [play, note, hsent, replayCall]
    | false =>
      rw [hflag] at hsent
      refine hsame.call .closeFrame (by simp [play, note, hand]) ?_
      simp [play, note, hand, hsent, replayCall, closeFrame]

theorem mirrors_loop (used : Nat) (bs : List UInt8) (h : Mirrors c) :
    Mirrors (connLoop k onFrame used bs c) := by
  induction bs generalizing c with
  | nil => exact h
  | cons b bs ih =>
    have hbyte := @mirrors_byte k onFrame c used h b
    simp only [connLoop]
    split
    · exact hbyte
    · exact ih hbyte

end Steps

/-- **A connection hands over what its calls say**, whatever its socket does. -/
theorem reached_mirrors {k : Kernel} {c : Conn} (h : Reached k c) : Mirrors c := by
  induction h with
  | upgraded hs block => rfl
  | step h honline op ih =>
    cases op with
    | call u => exact mirrors_user ih u
    | read onFrame bytes => exact mirrors_loop _ _ ih
    | writeEvent => exact ih

/-! ## The promise -/

/-- Whether `ape_ws_close` has been called. -/
theorem replayCalls_flag (calls : List Call) :
    (replayCalls calls).1 = true ↔ .close ∈ calls := by
  induction calls using List.reverseRecOn with
  | nil => simp [replayCalls]
  | append_singleton calls call ih =>
    rw [replayCalls_concat, List.mem_append, ← ih, List.mem_singleton]
    cases call with
    | write data => simp [replayCall]
    | close =>
      cases hflag : (replayCalls calls).1 <;> simp [replayCall, hflag]
    | closeFrame =>
      cases hflag : (replayCalls calls).1 <;> simp [replayCall, hflag]

/-- Behind a call of `ape_ws_close`. -/
theorem not_open_of_flag {calls : List Call} (h : (replayCalls calls).1 = true) :
    ¬ ∀ c ∈ calls, ¬ c.Closes :=
  fun hnone => hnone .close ((replayCalls_flag calls).1 h) trivial

/-- Whether a close frame has been handed over. -/
theorem replayCalls_closed (calls : List Call) :
    (∀ d ∈ (replayCalls calls).2, d.kind ≠ .close) ↔ ∀ c ∈ calls, ¬ c.Closes := by
  induction calls using List.reverseRecOn with
  | nil => simp [replayCalls]
  | append_singleton calls call ih =>
    rw [replayCalls_concat, List.forall_mem_append, List.forall_mem_singleton, ← ih]
    have hlater : (replayCalls calls).1 = true →
        ¬ ∀ d ∈ (replayCalls calls).2, d.kind ≠ .close :=
      fun hset hnone => not_open_of_flag hset (ih.1 hnone)
    have hnew : ¬ ∀ d ∈ (replayCalls calls).2 ++ [closeFrame], d.kind ≠ .close :=
      fun hnone => hnone closeFrame (by simp) rfl
    cases call with
    | write data =>
      simp only [replayCall, List.forall_mem_append, List.forall_mem_singleton]
      simp [Call.Closes]
    | close =>
      refine iff_of_false ?_ fun h => h.2 trivial
      cases hset : (replayCalls calls).1 with
      | true => simpa [replayCall, hset] using hlater hset
      | false => simpa [replayCall, hset] using hnew
    | closeFrame =>
      refine iff_of_false ?_ fun h => h.2 trivial
      cases hset : (replayCalls calls).1 with
      | true => simpa [replayCall, hset] using hlater hset
      | false => simpa [replayCall, hset] using hnew

/-- **Nothing follows a close frame exactly when the calls are in order.** -/
theorem replayCalls_along (calls : List Call) :
    Along (fun pre _ => ∀ d ∈ pre, d.kind ≠ .close) (replayCalls calls).2 ↔ Orderly calls := by
  unfold Orderly
  induction calls using List.reverseRecOn with
  | nil => exact iff_of_true along_nil along_nil
  | append_singleton calls call ih =>
    have hopen := replayCalls_closed calls
    have hflag := replayCalls_flag calls
    rw [replayCalls_concat, along_concat, ← ih, CallOk, ← hopen, ← hflag]
    cases call with
    | write data =>
      simp only [replayCall, along_concat, List.forall_mem_append, List.forall_mem_singleton]
      simp only [Call.Closes]
      tauto
    | close =>
      cases hset : (replayCalls calls).1 with
      | true => simp [replayCall, hset, Call.Closes]
      | false => simp [replayCall, hset, along_concat]
    | closeFrame =>
      cases hset : (replayCalls calls).1 with
      | true => simp [replayCall, hset, Call.Closes]
      | false => simp [replayCall, hset, along_concat]

/-- **The close frames of a connection**: at most one is handed to `APE_socket_write`, and no data
behind it, exactly when nothing is written behind the first closing call, and nothing closes again
unless `ape_ws_close` has been called. -/
theorem closesOnce_iff {k : Kernel} {c : Conn} (h : Reached k c) :
    ClosesOnce c.handed ↔ Orderly c.calls := by
  have hhanded : c.handed = (replayCalls c.calls).2 := congrArg Prod.snd (reached_mirrors h)
  rw [closesOnce_iff_along, hhanded, replayCalls_along]

/-- A client that does not take what it is sent. -/
def slowClient : Kernel := ⟨fun _ => .eagain, false, 1024⟩

/-- A masked close frame with the code 1000. -/
def maskedClose : List UInt8 := [0x88, 0x82, 0, 0, 0, 0, 0x03, 0xE8]

/-- A fresh block. -/
def freshBlock : WebsocketState := ⟨[], 0, [0, 0, 0, 0], 0, 0, 0, 0, .start, 0, 0, 0, false⟩

/-- `ape_ws_close` behind a close frame that was received. -/
def closedTwice : Conn :=
  (ConnOp.call .close).exec slowClient ((ConnOp.read (fun _ _ _ => []) maskedClose).exec slowClient
    (.upgraded .init freshBlock))

/-- `ape_ws_close` twice behind a message. -/
theorem closesOnce_iff_message :
    ClosesOnce ((ConnOp.call .close).exec slowClient ((ConnOp.call .close).exec slowClient
        ((ConnOp.call (.write [104, 105])).exec slowClient (.upgraded .init freshBlock)))).handed ↔
      Orderly ((ConnOp.call .close).exec slowClient ((ConnOp.call .close).exec slowClient
        ((ConnOp.call (.write [104, 105])).exec slowClient (.upgraded .init freshBlock)))).calls :=
  closesOnce_iff (.step (.step (.step (.upgraded rfl freshBlock) (by decide) _)
    (by decide) _) (by decide) _)

/-- A close frame is received and answered, and `ape_ws_close` sends another. -/
theorem closesOnce_fails : ¬ ∀ (k : Kernel) (c : Conn), Reached k c → ClosesOnce c.handed := by
  intro h
  have hreached : Reached slowClient closedTwice :=
    .step (.step (.upgraded rfl freshBlock) (by decide) _) (by decide) _
  have htwo : (closedTwice.handed.filter fun d => d.kind = .close).length = 2 := by
    decide
  have hone := (h _ _ hreached).once
  rw [htwo] at hone
  exact absurd hone (by decide)

end Ape.WebSocket

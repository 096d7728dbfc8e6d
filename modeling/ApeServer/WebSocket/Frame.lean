import ApeServer.Lib.CInt

/-!
# The WebSocket frame reader of `ape_websocket.c`

`ape_ws_process_frame` is called after every read of an upgraded connection.  It walks over the
bytes of `data_in`, one step of the `websocket_state` for each, copies the unmasked payload into a
block it allocates at the first payload byte, and hands the block to `on_frame` when the declared
length is used up.

* `wsSwitch` — the `switch` of the loop, one byte;
* `frameLoop`, `processFrame` — the loop over one buffer;
* `runReads` — consecutive reads on one connection, each placed at index 0 of `data_in`.

The allocation, every store into the block and the remaining length at every payload byte are
recorded as events next to what the function sends and hands on.  A store outside of the block is
recorded and changes nothing.
-/

namespace Ape.WebSocket

/-- `ws_payload_step`. -/
inductive WsPayloadStep where
  | key
  | start
  | length
  | shortLength
  | extendedLength
  | data
  | theEnd
  deriving DecidableEq, Repr

/-- `websocket_state`.  `extendedLength` is the union of the packed `frame_payload`: its first two
bytes, in memory order the low ones, are `short_length`.  `data` is the block that `data` points
to, `[]` for `NULL`; `dataPos` is an `int` that is only compared with 0. -/
structure WebsocketState where
  data : List UInt8
  offset : Nat
  keyVal : List UInt8
  keyPos : Nat
  start : UInt8
  length : UInt8
  extendedLength : Nat
  step : WsPayloadStep
  dataPos : Nat
  dataInkey : Int32
  framePos : Int
  closeSent : Bool
  deriving DecidableEq, Repr

/-- What the function does to the outside, and its memory accesses: a block of `size` bytes, a
store at `index` into a block of `size` bytes, a payload byte taken with `left` bytes to come,
and the read past the buffer that follows when the 32-bit offset falls behind a longer buffer. -/
inductive WsEvent where
  | malloc (size : Nat)
  | store (index : Int) (size : Nat)
  | consumed (left : Nat)
  | onFrame (payload : List UInt8) (length : Int)
  | write (bytes : List UInt8)
  | shutdown
  | overread
  deriving DecidableEq, Repr

/-- The state `ape_server_http_ready` leaves in a block fresh from `malloc`: `key.val` and
`data_inkey` keep what was there. -/
def httpReadyState (block : WebsocketState) : WebsocketState :=
  { block with
    step := .start, offset := 0, data := [], keyPos := 0, closeSent := false, start := 0,
    length := 0, extendedLength := 0, dataPos := 0, framePos := 0 }

/-! ## The header -/

/-- Overwrite byte `k` of a number in little-endian memory. -/
def setByte (n k : Nat) (b : UInt8) : Nat :=
  n % 256 ^ k + b.toNat * 256 ^ k + n / 256 ^ (k + 1) * 256 ^ (k + 1)

/-- `ntohs` on a little-endian machine. -/
def ntohs (s : Nat) : Nat := s % 256 * 256 + s / 256 % 256

/-- `ntohl` on a little-endian machine. -/
def ntohl (x : Nat) : Nat :=
  x % 256 * 2 ^ 24 + x / 256 % 256 * 2 ^ 16 + x / 2 ^ 16 % 256 * 2 ^ 8 + x / 2 ^ 24 % 256

/-- `memcpy(((char *)&frame_payload) + frame_pos, pData, 1)`. -/
def storeHeader (ws : WebsocketState) (c : UInt8) : WebsocketState :=
  if ws.framePos = 0 then { ws with start := c }
  else if ws.framePos = 1 then { ws with length := c }
  else if 2 ≤ ws.framePos ∧ ws.framePos ≤ 9 then
    { ws with extendedLength := setByte ws.extendedLength (ws.framePos - 2).toNat c }
  else ws

/-- How the `switch` is left: with a `break` or with a `return`. -/
structure Switch where
  ws : WebsocketState
  events : List WsEvent
  returned : Bool

/-- Leave with a `break`. -/
def Switch.break (ws : WebsocketState) (events : List WsEvent) : Switch := ⟨ws, events, false⟩

/-- Leave with a `return`. -/
def Switch.ret (ws : WebsocketState) (events : List WsEvent) : Switch := ⟨ws, events, true⟩

section

variable (ws : WebsocketState) (events : List WsEvent)

@[simp] theorem Switch.break_ws : (Switch.break ws events).ws = ws := rfl

@[simp] theorem Switch.break_events : (Switch.break ws events).events = events := rfl

@[simp] theorem Switch.break_returned : (Switch.break ws events).returned = false := rfl

@[simp] theorem Switch.ret_ws : (Switch.ret ws events).ws = ws := rfl

@[simp] theorem Switch.ret_events : (Switch.ret ws events).events = events := rfl

@[simp] theorem Switch.ret_returned : (Switch.ret ws events).returned = true := rfl

end

/-- `WS_STEP_KEY`. -/
def stepKey (ws : WebsocketState) (c : UInt8) : Switch :=
  let ws := { ws with keyVal := ws.keyVal.set ws.keyPos c, keyPos := ws.keyPos + 1 }
  .break (if ws.keyPos = 4 then { ws with step := .data, dataInkey := 0 } else ws) []

/-- `WS_STEP_START`. -/
def stepStart (ws : WebsocketState) (c : UInt8) : Switch :=
  .break { ws with start := c, step := .length } []

/-- `WS_STEP_LENGTH`. -/
def stepLength (ws : WebsocketState) (c : UInt8) : Switch :=
  if c &&& 0x80 = 0 then .ret ws []
  else if c &&& 0x7F = 126 then .break { ws with step := .shortLength } []
  else if c &&& 0x7F = 127 then .break { ws with step := .extendedLength } []
  else .break { ws with extendedLength := (c &&& 0x7F).toNat, step := .key } []

/-- `WS_STEP_SHORT_LENGTH`. -/
def stepShortLength (ws : WebsocketState) (c : UInt8) : Switch :=
  let ws := storeHeader ws c
  .break (if ws.framePos = 3 then
    { ws with extendedLength := ntohs (ws.extendedLength % 2 ^ 16), step := .key } else ws) []

/-- `WS_STEP_EXTENDED_LENGTH`. -/
def stepExtendedLength (ws : WebsocketState) (c : UInt8) : Switch :=
  let ws := storeHeader ws c
  .break (if ws.framePos = 9 then
    { ws with extendedLength := ntohl (ws.extendedLength / 2 ^ 32), step := .key } else ws) []

/-! ## The payload -/

/-- A store into the block; outside of it nothing changes. -/
def poke (data : List UInt8) (i : Int32) (b : UInt8) : List UInt8 :=
  if 0 ≤ i.toInt then data.set i.toInt.toNat b else data

/-- The allocation at the first payload byte. -/
def allocate (ws : WebsocketState) : WebsocketState × List WsEvent :=
  if ws.dataPos = 0 then
    let size := (ws.extendedLength + 1) % 2 ^ 64
    ({ ws with dataPos := ws.offset, data := List.replicate size 0 }, [.malloc size])
  else (ws, [])

/-- Unmask one byte into the block and count it: `--extended_length` wraps at 64 bits. -/
def unmask (ws : WebsocketState) (c : UInt8) : WebsocketState :=
  { ws with
    data := poke ws.data ws.dataInkey (c ^^^ ws.keyVal.getD (ws.dataInkey % 4).toInt.toNat 0)
    dataInkey := ws.dataInkey + 1
    extendedLength := (ws.extendedLength + 2 ^ 64 - 1) % 2 ^ 64 }

/-- What a complete frame does, by its opcode: a close frame is answered and ends the connection, a
ping is not answered (`body_length` is the constant 0), a pong is ignored. -/
def frameEvents (ws : WebsocketState) : List WsEvent :=
  if ws.start &&& 0x0F = 0x8 then
    (if ws.closeSent then [] else [.write [0x88, 0x00]]) ++ [.shutdown]
  else if ws.start &&& 0x0F = 0x9 then []
  else if ws.start &&& 0x0F = 0xA then []
  else [.onFrame (ws.data.take ws.dataInkey.toInt.toNat) ws.dataInkey.toInt]

/-- The state a complete frame leaves. -/
def frameDone (ws : WebsocketState) : WebsocketState :=
  { ws with
    data := poke ws.data ws.dataInkey 0, step := .start, framePos := -1, extendedLength := 0,
    dataPos := 0, keyPos := 0 }

/-- The end of a frame.  Only a close frame, or a frame that ends with the buffer, leaves the
function, and only the latter starts over at offset 0. -/
def finishFrame (used : Nat) (ws : WebsocketState) (events : List WsEvent) : Switch :=
  let events := events ++ [.store ws.dataInkey.toInt ws.data.length] ++
    frameEvents { ws with data := poke ws.data ws.dataInkey 0 }
  let ws := frameDone ws
  if ws.start &&& 0x0F = 0x8 then .ret ws events
  else if (ws.offset + 1) % 2 ^ 32 = used then
    .ret { ws with offset := 0, framePos := 0, keyPos := 0 } events
  else .break ws events

/-- `WS_STEP_DATA`. -/
def stepData (used : Nat) (ws : WebsocketState) (c : UInt8) : Switch :=
  let (ws, allocation) := allocate ws
  let events := allocation ++
    [.consumed ws.extendedLength, .store ws.dataInkey.toInt ws.data.length]
  let ws := unmask ws c
  if ws.extendedLength = 0 then finishFrame used ws events else .break ws events

/-! ## The loop -/

/-- The `switch` of `ape_ws_process_frame`. -/
def wsSwitch (used : Nat) (ws : WebsocketState) (c : UInt8) : Switch :=
  match ws.step with
  | .key => stepKey ws c
  | .start => stepStart ws c
  | .length => stepLength ws c
  | .shortLength => stepShortLength ws c
  | .extendedLength => stepExtendedLength ws c
  | .data => stepData used ws c
  | .theEnd => .break ws []

/-- `frame_pos++`, `offset++`, with the 32 bits of the offset. -/
def advance (ws : WebsocketState) : WebsocketState :=
  { ws with framePos := ws.framePos + 1, offset := (ws.offset + 1) % 2 ^ 32 }

/-- The loop, over the bytes from `pData` on.  While there are some the offset is below `used`;
when there are none it can only be below `used` if it has wrapped. -/
def frameLoop (used : Nat) : List UInt8 → WebsocketState → WebsocketState × List WsEvent
  | [], ws => (ws, if ws.offset < used then [.overread] else [])
  | c :: cs, ws =>
    let s := wsSwitch used ws c
    if s.returned then (s.ws, s.events)
    else
      let r := frameLoop used cs (advance s.ws)
      (r.1, s.events ++ r.2)

/-- `ape_ws_process_frame` on a `data_in` that holds `bytes`. -/
def processFrame (bytes : List UInt8) (ws : WebsocketState) : WebsocketState × List WsEvent :=
  frameLoop bytes.length (bytes.drop ws.offset) ws

/-- Consecutive reads: `ape_socket_read` puts each at index 0 and empties the buffer after the
callback. -/
def runReads : List (List UInt8) → WebsocketState → WebsocketState × List WsEvent
  | [], ws => (ws, [])
  | bytes :: reads, ws =>
    let r := processFrame bytes ws
    let s := runReads reads r.1
    (s.1, r.2 ++ s.2)

end Ape.WebSocket

import ApeServer.Codec.Base64
import ApeServer.Http.Stream
import ApeServer.Json.Parser
import ApeServer.Table.Slots

/-!
# The client of a connection

`ape_http_callback` gathers the path and the headers of a request in buffers that `HTTP_METHOD`
creates, and `ape_server_http_ready` answers the request.  A connection that is upgraded keeps its
parser as it is; any other request makes it ready for the next.  A query string or a body for the JSON
parser is handed over whatever the parser says, so an assertion of it may end the process.

* `Client` — what `ape_client` holds of a request, with the bytes that were sent;
* `apeHttpCallback`, `apeServerHttpReady` — the functions of `ape_server.c`;
* `Client.lost` — whether the process has come to an end, or does what nobody can tell;
* `Tended` — the invariant: behind `HTTP_METHOD` all buffers are there;
* `streamOk` — **the events of a connection are requests in a row, each reported as on a fresh
  connection, and no buffer is used that is not there**.
-/

namespace Ape.Server

open Codec (ascii base64EncodeB)
open Http (HttpEvent HttpParser HttpMethod HttpCallback CallbackType Phase Resetting feed events
  requestTrace)
open Table (ApeArray)
open scoped Computability

/-! ## The data -/

/-- `ape_transport_t`. -/
inductive Transport where
  | lp
  | ws
  | ft
  | nu
  deriving DecidableEq, Repr

/-- `APE_TRANSPORT_QS_ISJSON`. -/
def Transport.qsIsJson : Transport → Bool
  | .lp | .ws => true
  | .ft | .nu => false

/-- `ape_transports_s`, up to the entry without a path. -/
def transports : List (Transport × List UInt8) :=
  [(.lp, ascii "/1/"), (.ws, ascii "/2/"), (.ft, ascii "/static/")]

/-- `ape_get_transport` of a path with its NUL. -/
def apeGetTransport (path : List UInt8) : Transport :=
  if path.head? ≠ some 47 then .nu
  else
    match transports.find? fun t => t.2.length ≤ path.length - 1 ∧ path.take t.2.length = t.2 with
    | some t => t.1
    | none => .nu

/-- `ape_client`.  A pointer that is not set, or to freed memory, is `none`; `upgraded` is whether
the connection is a WebSocket now.  Of the bytes handed to `APE_socket_write` a log is kept, and of
whether a buffer was used that is not there, whether the process crashed (`NULL` was used as a string,
or an assertion failed), and whether it strayed to memory outside of what is there. -/
structure Client where
  method : HttpMethod
  transport : Transport
  path : Option (List UInt8)
  list : Option (ApeArray (List UInt8))
  tkey : Option (List UInt8)
  tval : Option (List UInt8)
  json : Option Json.Parser
  upgraded : Bool
  sent : List UInt8
  misused : Bool
  crashed : Bool
  strayed : Bool
  deriving DecidableEq

/-- `ape_server_on_connect`. -/
def Client.new : Client := ⟨.get, .nu, none, none, none, none, none, false, [], false, false, false⟩

/-- Nothing is known of the process any more. -/
def Client.lost (c : Client) : Bool := c.crashed || c.strayed

/-- A buffer is used that is not there. -/
def Client.misuse (c : Client) : Client := { c with misused := true }

/-- `APE_socket_write` of some bytes. -/
def Client.send (bytes : List UInt8) (c : Client) : Client := { c with sent := c.sent ++ bytes }

/-! ## The answer -/

/-- `WEBSOCKET_HARDCODED_HEADERS`. -/
def websocketHeaders : List UInt8 :=
  ascii "HTTP/1.1 101 Switching Protocols\r\nUpgrade: websocket\r\nConnection: Upgrade\r\n"

/-- What is sent in front of the key. -/
def acceptHead : List UInt8 :=
  websocketHeaders ++ ascii "Sec-WebSocket-Protocol: json.ape\r\n" ++ ascii "Sec-WebSocket-Accept: "

/-- What is sent behind it. -/
def acceptTail : List UInt8 := ascii "\r\nSec-WebSocket-Origin: 127.0.0.1\r\n\r\n"

/-- `WS_GUID`. -/
def wsGuid : List UInt8 := ascii "258EAFA5-E914-47DA-95CA-C5AB0DC85B11"

/-- `ws_key->used - 1`, a `size_t` that wraps for an empty value, as the `unsigned int` that
`ape_ws_compute_key` gets. -/
def keyLen (value : List UInt8) : Nat :=
  if value = [] then 2 ^ 32 - 1 else (value.length - 1) % 2 ^ 32

/-- What `ape_ws_compute_key` gets of a header value. -/
def keyOf (value : List UInt8) : List UInt8 := (value.drop 1).take (keyLen value)

section Functions

variable (sha1 : List UInt8 → List UInt8) (libc : Json.Libc)

/-- `ape_ws_compute_key(&ws_key->data[1], ws_key->used - 1)`; `none` is `NULL`. -/
def apeWsComputeKey (value : List UInt8) : Option (List UInt8) :=
  if 32 < keyLen value then none else some (base64EncodeB (sha1 (keyOf value ++ wsGuid)))

/-- The answer to an upgrade; `strlen(NULL)` comes behind the first headers. -/
def answerUpgrade (value : List UInt8) (c : Client) : Client :=
  match apeWsComputeKey sha1 value with
  | none => { c.send acceptHead with crashed := true }
  | some key => { ((c.send acceptHead).send key).send acceptTail with upgraded := true }

/-- The `switch` of `ape_server_http_ready`. -/
def endRequest (x : HttpParser × Client) : HttpParser × Client :=
  match x.2.transport, x.2.path with
  | .lp, _ | .ws, _ => x
  | _, none => (.reset, x.2.misuse)
  | _, some _ =>
    (.reset, { x.2 with method := .get, transport := .nu, list := none, path := none })

/-- `Sec-WebSocket-Protocol`: `strtok_r` takes its value from the second byte on, which an empty value
does not have.  Nothing is made of the tokens. -/
def readProtocol (list : ApeArray (List UInt8)) (c : Client) : Client :=
  if list.lookup (ascii "Sec-WebSocket-Protocol") = some [] then { c with strayed := true } else c

/-- `ape_server_http_ready`. -/
def apeServerHttpReady (x : HttpParser × Client) : HttpParser × Client :=
  match x.2.list with
  | none => (x.1, x.2.misuse)
  | some list =>
    if list.lookup (ascii "upgrade") = some (ascii " websocket") then
      let c := { x.2 with transport := .ws }
      match list.lookup (ascii "Sec-WebSocket-Key") with
      | some value => (x.1, answerUpgrade sha1 value (readProtocol list c))
      | none => endRequest (x.1, c)
    else endRequest x

/-! ## The callback -/

/-- `(unsigned char)value`. -/
def byteOf (e : HttpEvent) : UInt8 := e.value.toUInt32.toUInt8

/-- `JSON_parser_char` on the parser of the client, if there is one; what it returns is ignored. -/
def jsonChar (b : UInt8) (c : Client) : Client :=
  match c.json with
  | none => c
  | some jc =>
    let o := Json.jsonParserChar libc b.toNat jc
    { c with json := some o.parser, crashed := c.crashed || o.lost }

/-- `HTTP_METHOD`. -/
def onMethod (value : Int32) (c : Client) : Client :=
  { c with
    method := if value = HttpMethod.get.value then .get
      else if value = HttpMethod.post.value then .post else c.method
    path := some [], list := some (.new 16), tkey := some [], tval := some [] }

/-- `HTTP_PATH_END`. -/
def onPathEnd (c : Client) : Client :=
  match c.path with
  | none => c.misuse
  | some path =>
    let transport := apeGetTransport (path ++ [0])
    { c with
      path := some (path ++ [0]), transport
      json := if transport.qsIsJson then some (Json.newParser false 15 false) else c.json }

/-- `HTTP_HEADER_VAL`. -/
def onHeaderVal (c : Client) : Client :=
  match c.list, c.tkey, c.tval with
  | some list, some tkey, some tval =>
    { c with list := some (list.addB tkey tval), tkey := some [], tval := some [] }
  | _, _, _ => c.misuse

/-- `HTTP_READY`: the two buffers are destroyed. -/
def onReady (c : Client) : Client :=
  match c.tkey, c.tval with
  | some _, some _ => { c with tkey := none, tval := none }
  | _, _ => c.misuse

/-- A character is appended to a buffer. -/
def appended (b : UInt8) (buffer : Option (List UInt8)) (store : List UInt8 → Client) (c : Client) :
    Client :=
  match buffer with
  | none => c.misuse
  | some bytes => store (bytes ++ [b])

/-- `ape_http_callback`, when it is called. -/
def onHttpEvent : HttpCallback Client := fun e x =>
  let c := x.2
  let b := byteOf e
  match e.type with
  | .method => (x.1, onMethod e.value c)
  | .pathChar => (x.1, appended b c.path (fun path => { c with path := some path }) c)
  | .qsChar =>
    (x.1, if c.method = .get ∧ c.transport.qsIsJson = true then jsonChar libc b c else c)
  | .headerKeyc => (x.1, appended b c.tkey (fun tkey => { c with tkey := some tkey }) c)
  | .headerValc => (x.1, appended b c.tval (fun tval => { c with tval := some tval }) c)
  | .bodyChar => (x.1, if c.transport.qsIsJson then jsonChar libc b c else c)
  | .pathEnd => (x.1, onPathEnd c)
  | .headerVal => (x.1, onHeaderVal c)
  | .ready => apeServerHttpReady sha1 (x.1, onReady c)
  | _ => x

/-- **`ape_http_callback`**: in a process that is lost nothing is called any more. -/
def apeHttpCallback : HttpCallback Client := fun e x =>
  if x.2.lost then x else onHttpEvent sha1 libc e x

end Functions

/-! ## The buffers -/

/-- A request that has begun has all its buffers. -/
structure Tended (c : Client) (ph : Phase) : Prop where
  unharmed : c.misused = false
  present : ph ≠ .start → c.lost = false →
    c.path.isSome = true ∧ c.list.isSome = true ∧ c.tkey.isSome = true ∧ c.tval.isSome = true

/-- Nothing but `HTTP_METHOD` begins a request. -/
theorem next_start {e : HttpEvent} {ph : Phase} (h : Phase.start.next e = some ph) :
    e.type = .method := by
  obtain ⟨type, value, step⟩ := e
  cases type <;> first | rfl | exact absurd h (by simp [Phase.next])

/-- Behind `HTTP_READY` no request has begun. -/
theorem next_ready {ph ph' : Phase} {e : HttpEvent} (h : ph.next e = some ph') (he : e.type = .ready) :
    ph' = .start := by
  obtain ⟨type, value, step⟩ := e
  obtain rfl : type = .ready := he
  cases ph <;> simp only [Phase.next, reduceCtorEq] at h
  exact (Option.some.inj h).symm

section Functions

variable (sha1 : List UInt8 → List UInt8) (libc : Json.Libc)

theorem apeHttpCallback_running {x : HttpParser × Client} (h : x.2.lost = false) (e : HttpEvent) :
    apeHttpCallback sha1 libc e x = onHttpEvent sha1 libc e x :=
  if_neg (by rw [h]; exact Bool.false_ne_true)

theorem apeHttpCallback_lost {x : HttpParser × Client} (h : x.2.lost = true) (e : HttpEvent) :
    apeHttpCallback sha1 libc e x = x := if_pos h

/-- The parser of a client, and whether the process crashed, is all that its text decides. -/
theorem jsonChar_eq (b : UInt8) (c : Client) :
    ∃ json crashed, jsonChar libc b c = { c with json, crashed } := by
  unfold jsonChar
  cases hjson : c.json with
  | none => exact ⟨c.json, c.crashed, rfl⟩
  | some jc => exact ⟨_, _, rfl⟩

/-- What is read of a protocol changes nothing but what is known of the process. -/
theorem readProtocol_eq (list : ApeArray (List UInt8)) (c : Client) :
    readProtocol list c = { c with strayed := (readProtocol list c).strayed } := by
  unfold readProtocol
  split_ifs <;> rfl

theorem endRequest_blind (p q : HttpParser) (c : Client) :
    ((endRequest (p, c)).1 = p ∨ (endRequest (p, c)).1 = .reset) ∧
      (endRequest (p, c)).2 = (endRequest (q, c)).2 := by
  unfold endRequest
  obtain ⟨method, transport, path⟩ := c
  cases transport <;> cases path <;> simp

theorem apeServerHttpReady_blind (p q : HttpParser) (c : Client) :
    ((apeServerHttpReady sha1 (p, c)).1 = p ∨ (apeServerHttpReady sha1 (p, c)).1 = .reset) ∧
      (apeServerHttpReady sha1 (p, c)).2 = (apeServerHttpReady sha1 (q, c)).2 := by
  unfold apeServerHttpReady
  cases c.list with
  | none => exact ⟨Or.inl rfl, rfl⟩
  | some list =>
    simp only
    split_ifs
    · cases list.lookup (ascii "Sec-WebSocket-Key") with
      | none => exact endRequest_blind p q { c with transport := .ws }
      | some value => exact ⟨Or.inl rfl, rfl⟩
    · exact endRequest_blind p q c

/-- Every other event leaves the parser alone. -/
theorem onHttpEvent_keeps {e : HttpEvent} (he : e.type ≠ .ready) (p q : HttpParser) (c : Client) :
    (onHttpEvent sha1 libc e (p, c)).1 = p ∧
      (onHttpEvent sha1 libc e (p, c)).2 = (onHttpEvent sha1 libc e (q, c)).2 := by
  obtain ⟨type, value, step⟩ := e
  cases type with
  | ready => exact absurd rfl he
  | _ => exact ⟨rfl, rfl⟩

theorem resetting_onHttpEvent : Resetting (onHttpEvent sha1 libc) := by
  have hready : ∀ e : HttpEvent, e.type = .ready → ∀ p c,
      onHttpEvent sha1 libc e (p, c) = apeServerHttpReady sha1 (p, onReady c) := by
    intro e he p c
    simp only [onHttpEvent, he]
  refine ⟨fun e p q c => ?_, fun e p c he => (onHttpEvent_keeps sha1 libc he p p c).1,
    fun e p c => ?_⟩
  · by_cases he : e.type = .ready
    · rw [hready e he, hready e he]
      exact (apeServerHttpReady_blind sha1 p q (onReady c)).2
    · exact (onHttpEvent_keeps sha1 libc he p q c).2
  · by_cases he : e.type = .ready
    · rw [hready e he]
      exact (apeServerHttpReady_blind sha1 p p (onReady c)).1
    · exact Or.inl (onHttpEvent_keeps sha1 libc he p p c).1

/-- The callback touches the parser only to reset it. -/
theorem resetting_apeHttpCallback : Resetting (apeHttpCallback sha1 libc) := by
  obtain ⟨hblind, hkeeps, hresets⟩ := resetting_onHttpEvent sha1 libc
  have hcall : ∀ e p c, apeHttpCallback sha1 libc e (p, c) =
      if c.lost then (p, c) else onHttpEvent sha1 libc e (p, c) := fun _ _ _ => rfl
  refine ⟨fun e p q c => ?_, fun e p c he => ?_, fun e p c => ?_⟩
  · rw [hcall, hcall]
    split_ifs
    · rfl
    · exact hblind e p q c
  · rw [hcall]
    split_ifs
    · rfl
    · exact hkeeps e p c he
  · rw [hcall]
    split_ifs
    · exact Or.inl rfl
    · exact hresets e p c

theorem answerUpgrade_misused (value : List UInt8) (c : Client) :
    (answerUpgrade sha1 value c).misused = c.misused := by
  unfold answerUpgrade
  generalize apeWsComputeKey sha1 value = key
  cases key with
  | none => rfl
  | some key => rfl

/-- The answer to a request that is complete. -/
theorem Tended.ready {c : Client} (hunharmed : c.misused = false) (hpath : c.path.isSome = true)
    (hlist : c.list.isSome = true) (p : HttpParser) :
    (apeServerHttpReady sha1 (p, c)).2.misused = false := by
  obtain ⟨path, hpath⟩ := Option.isSome_iff_exists.1 hpath
  obtain ⟨list, hlist⟩ := Option.isSome_iff_exists.1 hlist
  have hend : ∀ c' : Client, c'.misused = false → c'.path = some path →
      (endRequest (p, c')).2.misused = false := by
    intro c' hfine hsome
    unfold endRequest
    simp only [hsome]
    cases c'.transport <;> exact hfine
  simp only [apeServerHttpReady, hlist]
  split_ifs
  · cases list.lookup (ascii "Sec-WebSocket-Key") with
    | none => exact hend { c with transport := .ws } hunharmed hpath
    | some value =>
      refine (answerUpgrade_misused sha1 value _).trans ?_
      rw [readProtocol_eq]
      exact hunharmed
  · exact hend c hunharmed hpath

/-- **Every event of a request finds the buffers it uses.** -/
theorem Tended.next {c : Client} {ph ph' : Phase} (h : Tended c ph) {e : HttpEvent}
    (hnext : ph.next e = some ph') : Tended (apeHttpCallback sha1 libc e (.reset, c)).2 ph' := by
  obtain ⟨hunharmed, hpresent⟩ := h
  by_cases hlost : c.lost = true
  · rw [apeHttpCallback_lost sha1 libc hlost]
    exact ⟨hunharmed, fun _ hrunning => absurd (hrunning.symm.trans hlost) Bool.false_ne_true⟩
  replace hlost : c.lost = false := by simpa using hlost
  rw [apeHttpCallback_running sha1 libc hlost]
  by_cases hmethod : e.type = .method
  · have hcall : (onHttpEvent sha1 libc e (.reset, c)).2 = onMethod e.value c := by
      simp only [onHttpEvent, hmethod]
    rw [hcall]
    exact ⟨hunharmed, fun _ _ => ⟨rfl, rfl, rfl, rfl⟩⟩
  -- the request has begun
  have hbegun : ph ≠ .start := by
    rintro rfl
    exact hmethod (next_start hnext)
  obtain ⟨hpath, hlist, hkey, hval⟩ := hpresent hbegun hlost
  obtain ⟨path, hpath'⟩ := Option.isSome_iff_exists.1 hpath
  obtain ⟨list, hlist'⟩ := Option.isSome_iff_exists.1 hlist
  obtain ⟨tkey, hkey'⟩ := Option.isSome_iff_exists.1 hkey
  obtain ⟨tval, hval'⟩ := Option.isSome_iff_exists.1 hval
  obtain ⟨type, value, step⟩ := e
  have hsame : Tended c ph' := ⟨hunharmed, fun _ _ => ⟨hpath, hlist, hkey, hval⟩⟩
  have hfed : ∀ b, Tended (jsonChar libc b c) ph' := by
    intro b
    obtain ⟨json, crashed, hjson⟩ := jsonChar_eq libc b c
    rw [hjson]
    exact ⟨hunharmed, fun _ _ => ⟨hpath, hlist, hkey, hval⟩⟩
  cases type with
  | method => exact absurd rfl hmethod
  | pathChar =>
    simp only [onHttpEvent, appended, hpath']
    exact ⟨hunharmed, fun _ _ => ⟨rfl, hlist, hkey, hval⟩⟩
  | pathEnd =>
    simp only [onHttpEvent, onPathEnd, hpath']
    exact ⟨hunharmed, fun _ _ => ⟨rfl, hlist, hkey, hval⟩⟩
  | qsChar =>
    simp only [onHttpEvent]
    split_ifs
    · exact hfed _
    · exact hsame
  | bodyChar =>
    simp only [onHttpEvent]
    split_ifs
    · exact hfed _
    · exact hsame
  | headerKeyc =>
    simp only [onHttpEvent, appended, hkey']
    exact ⟨hunharmed, fun _ _ => ⟨hpath, hlist, rfl, hval⟩⟩
  | headerValc =>
    simp only [onHttpEvent, appended, hval']
    exact ⟨hunharmed, fun _ _ => ⟨hpath, hlist, hkey, rfl⟩⟩
  | headerVal =>
    simp only [onHttpEvent, onHeaderVal, hlist', hkey', hval']
    exact ⟨hunharmed, fun _ _ => ⟨hpath, rfl, rfl, rfl⟩⟩
  | ready =>
    obtain rfl := next_ready hnext rfl
    refine ⟨?_, fun hne _ => absurd rfl hne⟩
    simp only [onHttpEvent, onReady, hkey', hval']
    exact Tended.ready sha1 (c := { c with tkey := none, tval := none }) hunharmed hpath hlist .reset
  | _ => exact hsame

end Functions

/-! ## The stream -/

/-- The byte `c` behind the bytes `pre` completes a request. -/
def Completes (pre : List UInt8) (c : UInt8) : Prop :=
  ∃ evs e, events (pre ++ [c]) = events pre ++ (evs ++ [e]) ∧ e.type = .ready

/-- What is promised of a connection: its events are complete requests and the beginning of one, what
is behind a request is reported as on a fresh connection, and `ape_http_callback` uses no buffer that
is not there. -/
structure StreamOk (sha1 : List UInt8 → List UInt8) (libc : Json.Libc) (bs : List UInt8) : Prop where
  traces : ∃ done ∈ requestTrace∗, ∃ part rest, events bs = done ++ part ∧
    part ++ rest ∈ requestTrace
  fresh : ∀ pre c post, bs = pre ++ c :: post → Completes pre c →
    events bs = events (pre ++ [c]) ++ events post
  buffers : (feed (apeHttpCallback sha1 libc) bs (.reset, .new)).2.2.misused = false

/-- **The events of a connection are well formed**, whatever bytes it sends. -/
theorem streamOk (sha1 : List UInt8 → List UInt8) (libc : Json.Libc) (bs : List UInt8) :
    StreamOk sha1 libc bs := by
  refine ⟨Http.events_traces bs, ?_, ?_⟩
  · rintro pre c post rfl ⟨evs, e, hevs, he⟩
    exact Http.events_append pre c post evs e hevs he
  · have htended : Tended Client.new .start := ⟨rfl, fun hne _ => absurd rfl hne⟩
    obtain ⟨ph, hkept⟩ := Http.feed_follows (resetting_apeHttpCallback sha1 libc)
      (fun e c ph ph' h hnext => h.next sha1 libc hnext) bs (.inr Http.follows_reset) htended
    exact hkept.unharmed

end Ape.Server

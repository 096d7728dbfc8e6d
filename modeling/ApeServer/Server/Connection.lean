import ApeServer.Command.Dispatch
import ApeServer.Server.Documents
import ApeServer.Server.Requests
import ApeServer.WebSocket.Lengths

/-!
# A connection from its first byte on

`ape_server_on_read` gets the reads of a connection until an upgrade is answered; from the next read on
`ape_ws_process_frame` gets them, and hands the payload of each frame to `ape_server_on_ws_frame`, which
parses it and calls the commands in it.

* `Connection`, `onRead` — all that a connection holds, and a read; in a process that is lost nothing
  is read any more;
* `run_request` — **a request may be cut into reads anywhere**;
* `onRead_encodeAll` — a read of whole frames is a call for each of them;
* `connection_served` — **the commands of a connection are those of the first frame**, and it must be a
  document behind an upgrade that is no path of a transport; what comes behind it is refused, or ends
  the process.
-/

namespace Ape.Server

open Codec (ascii base64)
open Command (Invocation apeCmdProcessMulti reading values)
open Http (HttpParser Request feed record replay)
open Json (Blank DocumentText Inert Members)
open Table (ApeArray)
open WebSocket (ClientFrame Initial WebsocketState WsEvent encodeAll httpReadyState payloadHead
  processFrame)

/-! ## Reads -/

/-- A connection: its parser and its client, the reader of its frames once `on_read` is
`ape_ws_process_frame`, the parser of their payloads, the state of the commands and the calls so far;
`shut` is whether an end of the socket was asked for. -/
structure Connection (σ : Type*) where
  http : HttpParser × Client
  ws : Option WebsocketState
  session : Session
  state : σ
  calls : List Invocation
  shut : Bool

/-- `ape_server_on_connect`. -/
def Connection.new {σ : Type*} (s : σ) : Connection σ :=
  ⟨(.reset, .new), none, .of .new, s, [], false⟩

/-- `PATTERN_ERR_BAD_JSON`. -/
def patternErrBadJson : List UInt8 := ascii "[\"ERR\",0,[\"BAD_JSON\"]]"

/-- What `ape_ws_write` sends of it. -/
def badJsonReply : List UInt8 := payloadHead patternErrBadJson.length ++ patternErrBadJson

section Functions

variable {σ : Type*} (sha1 : List UInt8 → List UInt8) (libc : Json.Libc)
  (server : Command.Server σ) (block : WebsocketState)

/-- `APE_socket_write`. -/
def Connection.send (bytes : List UInt8) (x : Connection σ) : Connection σ :=
  { x with http := (x.http.1, x.http.2.send bytes) }

/-- A null pointer was followed, or an assertion failed. -/
def Connection.crash (x : Connection σ) : Connection σ :=
  { x with http := (x.http.1, { x.http.2 with crashed := true }) }

/-- Memory was touched outside of a block, or an index went beyond an `int`. -/
def Connection.stray (x : Connection σ) : Connection σ :=
  { x with http := (x.http.1, { x.http.2 with strayed := true }) }

/-- Nothing is known of the process any more. -/
def Connection.lost (x : Connection σ) : Bool := x.http.2.lost

/-- What is done with a payload that was read: its commands are called, or the reply is sent. -/
def react (x : Connection σ) : Option Reaction → Connection σ
  | some (.process (some cx)) =>
    match apeCmdProcessMulti server cx.items cx.head x.state with
    | some r => { x with state := r.1, calls := x.calls ++ r.2 }
    | none => x.crash
  | some (.process none) => x.crash
  | some .badJson => x.send badJsonReply
  | none => x

/-- **`ape_server_on_ws_frame`**, with its commands. -/
def onFrame (x : Connection σ) (payload : List UInt8) : Connection σ :=
  let session := onWsFrame libc x.session payload
  if x.lost then x
  else if session.lost then Connection.crash { x with session }
  else react server { x with session } session.log.getLast?

theorem onFrame_lost {x : Connection σ} (h : x.lost = true) (payload : List UInt8) :
    onFrame libc server x payload = x := if_pos h

theorem onFrame_crash {x : Connection σ} (h : ¬ x.lost = true) {payload : List UInt8}
    (hsession : (onWsFrame libc x.session payload).lost = true) :
    onFrame libc server x payload =
      Connection.crash { x with session := onWsFrame libc x.session payload } :=
  (if_neg h).trans (if_pos hsession)

/-- What the reader does to the outside, and to memory. -/
def onEvent (x : Connection σ) (e : WsEvent) : Connection σ :=
  if x.lost then x
  else
    match e with
    | .onFrame payload _ => onFrame libc server x payload
    | .write bytes => x.send bytes
    | .shutdown => { x with shut := true }
    | .store index size => if 0 ≤ index ∧ index < size then x else x.stray
    | .overread => x.stray
    | .malloc _ | .consumed _ => x

/-- `client->ws_state`, in a block fresh from `malloc`, when the upgrade has been answered. -/
def Connection.upgrade (x : Connection σ) : Connection σ :=
  if x.http.2.upgraded then
    { x with ws := some (httpReadyState block), session := .of x.http.2 }
  else x

/-- The index of the loop over the bytes of a read, an `int`, goes beyond what it can hold: the first
`2 ^ 31` of them are all taken. -/
def overrunsRead (bytes : List UInt8) (x : HttpParser × Client) : Bool :=
  decide (2 ^ 31 ≤ bytes.length) && (feed (apeHttpCallback sha1 libc) (bytes.take (2 ^ 31)) x).1

/-- **`on_read`**: `ape_server_on_read`, or `ape_ws_process_frame` behind an upgrade. -/
def onRead (x : Connection σ) (bytes : List UInt8) : Connection σ :=
  if x.lost then x
  else
    match x.ws with
    | none =>
      let r := feed (apeHttpCallback sha1 libc) bytes x.http
      let next := Connection.upgrade block { x with http := r.2, shut := x.shut || !r.1 }
      if overrunsRead sha1 libc bytes x.http then next.stray else next
    | some ws =>
      let r := processFrame bytes ws
      { r.2.foldl (onEvent libc server) x with ws := some r.1 }

theorem overrunsRead_of_short {bytes : List UInt8} (hshort : bytes.length < 2 ^ 31)
    (x : HttpParser × Client) : overrunsRead sha1 libc bytes x = false := by
  rw [overrunsRead, decide_eq_false (Nat.not_le.2 hshort), Bool.false_and]

theorem onRead_lost {x : Connection σ} (h : x.lost = true) (bytes : List UInt8) :
    onRead sha1 libc server block x bytes = x := if_pos h

/-- The reads of a connection. -/
def run (reads : List (List UInt8)) (x : Connection σ) : Connection σ :=
  reads.foldl (onRead sha1 libc server block) x

theorem run_append (reads reads' : List (List UInt8)) (x : Connection σ) :
    run sha1 libc server block (reads ++ reads') x =
      run sha1 libc server block reads' (run sha1 libc server block reads x) :=
  List.foldl_append

/-! ## A request in reads -/

/-- Only the end of a request upgrades a client. -/
theorem upgraded_keeps {e : Http.HttpEvent} (he : e.type ≠ .ready) (p : HttpParser) (c : Client) :
    (apeHttpCallback sha1 libc e (p, c)).2.upgraded = c.upgraded := by
  by_cases hlost : c.lost = true
  · rw [apeHttpCallback_lost sha1 libc (x := (p, c)) hlost]
  rw [apeHttpCallback_running sha1 libc (x := (p, c)) (by simpa using hlost)]
  obtain ⟨type, value, step⟩ := e
  cases type with
  | ready => exact absurd rfl he
  | pathChar | headerKeyc | headerValc =>
    simp only [onHttpEvent, appended]
    split <;> rfl
  | qsChar | bodyChar =>
    simp only [onHttpEvent, jsonChar]
    split
    · split <;> rfl
    · rfl
  | pathEnd =>
    simp only [onHttpEvent, onPathEnd]
    split <;> rfl
  | headerVal =>
    simp only [onHttpEvent, onHeaderVal]
    split <;> rfl
  | _ => rfl

theorem upgraded_replay {evs : List Http.HttpEvent} (h : ∀ e ∈ evs, e.type ≠ .ready) (c : Client) :
    (replay (apeHttpCallback sha1 libc) c evs).upgraded = c.upgraded := by
  induction evs generalizing c with
  | nil => rfl
  | cons e evs ih =>
    obtain ⟨he, hevs⟩ := List.forall_mem_cons.1 h
    exact (ih hevs _).trans (upgraded_keeps sha1 libc he _ c)

/-- Nothing is done in a process that is lost. -/
theorem replay_lost {c : Client} (h : c.lost = true) (evs : List Http.HttpEvent) :
    replay (apeHttpCallback sha1 libc) c evs = c := by
  induction evs with
  | nil => rfl
  | cons e evs ih =>
    have hone := apeHttpCallback_lost sha1 libc (x := (.reset, c)) h e
    rw [replay, List.foldl_cons, hone]
    exact ih

/-- A client that is lost stays as it is. -/
theorem feed_lost {c : Client} (h : c.lost = true) (bs : List UInt8) (p : HttpParser) :
    (feed (apeHttpCallback sha1 libc) bs (p, c)).2.2 = c := by
  induction bs generalizing p with
  | nil => rfl
  | cons b bs ih =>
    have hone : (Http.parseHttpChar (apeHttpCallback sha1 libc) b (p, c)).2.2 = c := by
      obtain ⟨-, hmirror⟩ := Http.parse_mirrors (resetting_apeHttpCallback sha1 libc) b p c
      rcases hmirror with hsame | ⟨evs, e, -, -, hend⟩
      · rw [hsame.context, replay_lost sha1 libc h]
      · rw [hend, replay_lost sha1 libc h, apeHttpCallback_lost sha1 libc (x := (_, c)) h]
    rw [feed]
    generalize Http.parseHttpChar (apeHttpCallback sha1 libc) b (p, c) = r at hone
    obtain ⟨ok, q, c'⟩ := r
    obtain rfl : c' = c := hone
    cases ok with
    | false => rfl
    | true => exact ih q

/-- A process that is running behind some bytes was so in front of the last of them. -/
theorem running_prefix {bs : List UInt8} (cs : List UInt8) {x : HttpParser × Client}
    (h : (feed (apeHttpCallback sha1 libc) (bs ++ cs) x).2.2.lost = false) :
    (feed (apeHttpCallback sha1 libc) bs x).2.2.lost = false := by
  rw [Http.feed_append] at h
  split_ifs at h
  · by_contra hno
    have hlost := feed_lost sha1 libc (by simpa using hno) cs
      (feed (apeHttpCallback sha1 libc) bs x).2.1
    rw [hlost] at h
    exact hno h
  · exact h

/-- In front of the end of a request nothing is refused, and nothing is upgraded. -/
theorem feed_unfinished (bs : List UInt8) {rest : List UInt8} (hrest : rest ≠ [])
    (h : (feed record (bs ++ rest) (.reset, [])).1 = true) (c : Client) :
    (feed (apeHttpCallback sha1 libc) bs (.reset, c)).1 = true ∧
      (feed (apeHttpCallback sha1 libc) bs (.reset, c)).2.2.upgraded = c.upgraded := by
  obtain ⟨q, evs, hfeed, hevs⟩ := Http.feed_inside (resetting_apeHttpCallback sha1 libc) hrest
    Http.follows_reset h c
  rw [hfeed]
  exact ⟨rfl, upgraded_replay sha1 libc hevs c⟩

/-- The reads in front of the last one of a request. -/
theorem run_unfinished {rest : List UInt8} (hrest : rest ≠ []) {x : Connection σ}
    (hws : x.ws = none) {c : Client} (hc : c.upgraded = false) {reads : List (List UInt8)}
    (hshort : ∀ bytes ∈ reads, bytes.length < 2 ^ 31) {bs : List UInt8}
    (hrunning : (feed (apeHttpCallback sha1 libc) (bs ++ reads.flatten) (.reset, c)).2.2.lost = false)
    (h : (feed record (bs ++ reads.flatten ++ rest) (.reset, [])).1 = true) :
    run sha1 libc server block reads
        { x with http := (feed (apeHttpCallback sha1 libc) bs (.reset, c)).2 } =
      { x with
        http := (feed (apeHttpCallback sha1 libc) (bs ++ reads.flatten) (.reset, c)).2 } := by
  induction reads generalizing bs with
  | nil => rw [List.flatten_nil, List.append_nil]; rfl
  | cons bytes reads ih =>
    have hstart : Connection.lost
        { x with http := (feed (apeHttpCallback sha1 libc) bs (.reset, c)).2 } = false :=
      running_prefix sha1 libc _ hrunning
    rw [List.flatten_cons, ← List.append_assoc] at h hrunning ⊢
    have hbehind : reads.flatten ++ rest ≠ [] := List.append_ne_nil_of_right_ne_nil _ hrest
    obtain ⟨hok, hupgraded⟩ := feed_unfinished sha1 libc (bs ++ bytes) hbehind
      (by rwa [← List.append_assoc]) c
    have hhead := (feed_unfinished sha1 libc bs
      (List.append_ne_nil_of_right_ne_nil bytes hbehind)
      (by rwa [← List.append_assoc, ← List.append_assoc]) c).1
    have hfeed := Http.feed_append (apeHttpCallback sha1 libc) bs bytes (.reset, c)
    rw [if_pos hhead] at hfeed
    obtain ⟨hbytes, hreads⟩ := List.forall_mem_cons.1 hshort
    rw [← ih hreads hrunning h]
    refine congrArg (run sha1 libc server block reads) ?_
    rw [onRead, if_neg (by rw [hstart]; exact Bool.false_ne_true)]
    simp only [hws, ← hfeed, hok, Connection.upgrade, hupgraded, hc, Bool.not_true,
      Bool.or_false, Bool.false_eq_true, if_false, overrunsRead_of_short sha1 libc hbytes]

/-- **A request may be cut into reads anywhere**: they leave the client that the whole request
leaves, if the process is running behind it. -/
theorem run_request {r : Request} {body : List UInt8} (h : Taken r body) {x : Connection σ}
    {c : Client} (hc : c.upgraded = false) (hws : x.ws = none) (hhttp : x.http = (.reset, c))
    (hrunning : (feed (apeHttpCallback sha1 libc) (r.head ++ body) (.reset, c)).2.2.lost = false)
    {reads : List (List UInt8)} (hne : [] ∉ reads) (hcut : reads.flatten = r.head ++ body)
    (hshort : ∀ bytes ∈ reads, bytes.length < 2 ^ 31) :
    run sha1 libc server block reads x = Connection.upgrade block
      { x with http := (feed (apeHttpCallback sha1 libc) (r.head ++ body) (.reset, c)).2 } := by
  obtain ⟨q, evs, e, hrecord, -, -⟩ := Http.request_reported h.plain h.body h.head
  obtain ⟨q', e', -, hfeed⟩ := feed_taken sha1 libc h c
  rcases List.eq_nil_or_concat reads with rfl | ⟨init, last, rfl⟩
  · rw [← hcut, List.flatten_nil, feed] at hrecord
    simp at hrecord
  · rw [List.concat_eq_append] at hne hcut hshort ⊢
    obtain ⟨hinitShort, hlastShort⟩ := List.forall_mem_append.1 hshort
    have hlastShort := hlastShort last (List.mem_singleton_self last)
    rw [List.flatten_append, List.flatten_singleton] at hcut
    have hlast : last ≠ [] := fun hnil => hne (by simp [hnil])
    have hwhole : (feed record ([] ++ init.flatten ++ last) (.reset, [])).1 = true := by
      rw [List.nil_append, hcut, hrecord]
    have hbefore : (feed (apeHttpCallback sha1 libc) init.flatten (.reset, c)).2.2.lost = false :=
      running_prefix sha1 libc last (by rw [hcut]; exact hrunning)
    have hinit := run_unfinished sha1 libc server block hlast hws hc hinitShort hbefore hwhole
    have hx : ({ x with http := (feed (apeHttpCallback sha1 libc) [] (.reset, c)).2 } :
        Connection σ) = x := by
      rw [feed, ← hhttp]
    rw [hx, List.nil_append] at hinit
    have hhead := (feed_unfinished sha1 libc _ hlast hwhole c).1
    have hsplit := Http.feed_append (apeHttpCallback sha1 libc) init.flatten last (.reset, c)
    rw [List.nil_append] at hhead
    rw [if_pos hhead, hcut] at hsplit
    have hstart : Connection.lost
        { x with http := (feed (apeHttpCallback sha1 libc) init.flatten (.reset, c)).2 } = false :=
      hbefore
    rw [run_append, hinit, run, List.foldl_cons, List.foldl_nil, onRead,
      if_neg (by rw [hstart]; exact Bool.false_ne_true)]
    simp only [hws, ← hsplit, overrunsRead_of_short sha1 libc hlastShort]
    rw [hfeed]
    simp

/-! ## Frames in reads -/

/-- The payloads that are handed over: those of all frames but pings and pongs. -/
def payloads (fs : List ClientFrame) : List (List UInt8) :=
  fs.flatMap fun f => if f.start &&& 0x0F = 0x9 ∨ f.start &&& 0x0F = 0xA then [] else [f.payload]

theorem payloads_append (fs gs : List ClientFrame) :
    payloads (fs ++ gs) = payloads fs ++ payloads gs := List.flatMap_append

/-- No frame is taken in a process that is lost. -/
theorem foldl_onFrame_lost (ps : List (List UInt8)) {x : Connection σ} (h : x.lost = true) :
    ps.foldl (onFrame libc server) x = x := by
  induction ps with
  | nil => rfl
  | cons p ps ih => rw [List.foldl_cons, onFrame_lost libc server h, ih]

/-- A frame that is handed over. -/
theorem onEvent_onFrame (x : Connection σ) (payload : List UInt8) (length : Int) :
    onEvent libc server x (.onFrame payload length) = onFrame libc server x payload := by
  unfold onEvent
  by_cases hlost : x.lost = true
  · rw [if_pos hlost, onFrame_lost libc server hlost]
  · rw [if_neg hlost]

/-- A payload is not longer than the frames of its read. -/
theorem short_payloads {fss : List (List ClientFrame)}
    (h : ∀ fs ∈ fss, (encodeAll fs).length < 2 ^ 31) :
    ∀ p ∈ payloads fss.flatten, p.length < 2 ^ 31 := by
  intro p hp
  obtain ⟨f, hf, hpf⟩ := List.mem_flatMap.1 hp
  obtain ⟨fs, hfs, hf⟩ := List.mem_flatten.1 hf
  have hpayload : p = f.payload := by
    split_ifs at hpf
    · cases hpf
    · exact List.mem_singleton.1 hpf
  have hframe : f.masked.length ≤ f.encode.length := by
    rw [ClientFrame.encode, List.length_append]
    exact Nat.le_add_left ..
  have hlength : f.payload.length = f.masked.length := by
    simp [ClientFrame.payload, WebSocket.unmaskFrom]
  have hread : f.encode.length ≤ (encodeAll fs).length := by
    rw [encodeAll, List.length_flatMap]
    exact List.single_le_sum (fun _ _ => Nat.zero_le _) _ (List.mem_map_of_mem hf)
  rw [hpayload, hlength]
  exact (hframe.trans hread).trans_lt (h fs hfs)

theorem foldl_onEvent_reply (fs : List ClientFrame) (x : Connection σ) :
    (fs.flatMap ClientFrame.reply).foldl (onEvent libc server) x =
      (payloads fs).foldl (onFrame libc server) x := by
  induction fs generalizing x with
  | nil => rfl
  | cons f fs ih =>
    have hone : f.reply.foldl (onEvent libc server) x =
        (payloads [f]).foldl (onFrame libc server) x := by
      rw [payloads, List.flatMap_singleton, ClientFrame.reply, WebSocket.replyTo]
      split
      · rfl
      · exact onEvent_onFrame libc server x f.payload f.payload.length
    rw [List.flatMap_cons, List.foldl_append, ih, hone, ← List.foldl_append, ← payloads_append]
    rfl

/-- The accesses of the reader inside of a block do nothing to the outside. -/
theorem foldl_onEvent_filter {evs : List WsEvent} (h : ∀ e ∈ evs, e.Inside) (x : Connection σ) :
    (evs.filter WsEvent.isReply).foldl (onEvent libc server) x =
      evs.foldl (onEvent libc server) x := by
  induction evs generalizing x with
  | nil => rfl
  | cons e evs ih =>
    obtain ⟨he, hevs⟩ := List.forall_mem_cons.1 h
    have hskip : onEvent libc server x e = x → e.isReply = false →
        ((e :: evs).filter WsEvent.isReply).foldl (onEvent libc server) x =
          (e :: evs).foldl (onEvent libc server) x := by
      intro hsame hno
      rw [List.filter_cons_of_neg (by simp [hno]), List.foldl_cons, hsame]
      exact ih hevs x
    cases e with
    | malloc size => exact hskip (by unfold onEvent; split <;> rfl) rfl
    | consumed left => exact hskip (by unfold onEvent; split <;> rfl) rfl
    | store index size =>
      refine hskip ?_ rfl
      unfold onEvent
      split
      · rfl
      · exact if_pos he
    | overread => exact absurd he not_false
    | onFrame payload length => exact ih hevs _
    | write bytes => exact ih hevs _
    | shutdown => exact ih hevs _

/-- A frame does not touch the reader. -/
theorem onFrame_ws (x : Connection σ) (w : Option WebsocketState) (payload : List UInt8) :
    onFrame libc server { x with ws := w } payload =
      { onFrame libc server x payload with ws := w } := by
  have hlost : Connection.lost { x with ws := w } = x.lost := rfl
  unfold onFrame react
  simp only [hlost]
  split_ifs
  · rfl
  · rfl
  · generalize (onWsFrame libc x.session payload).log.getLast? = reaction
    split
    · split <;> simp_all [Connection.crash]
    · rfl
    · rfl
    · rfl

theorem foldl_onFrame_ws (ps : List (List UInt8)) (x : Connection σ) (w : Option WebsocketState) :
    ps.foldl (onFrame libc server) { x with ws := w } =
      { ps.foldl (onFrame libc server) x with ws := w } := by
  induction ps generalizing x with
  | nil => rfl
  | cons p ps ih => rw [List.foldl_cons, onFrame_ws, ih, List.foldl_cons]

/-- **A read of whole frames** is a call for each payload, and leaves the reader as it was. -/
theorem onRead_encodeAll {fs : List ClientFrame} (hfs : ∀ f ∈ fs, f.Carries)
    (hlen : (encodeAll fs).length < 2 ^ 31) {x : Connection σ} {ws : WebsocketState}
    (hws : x.ws = some ws) (h : Initial ws) :
    ∃ ws', Initial ws' ∧ onRead sha1 libc server block x (encodeAll fs) =
      { (payloads fs).foldl (onFrame libc server) x with ws := some ws' } := by
  by_cases hlost : x.lost = true
  · rw [foldl_onFrame_lost libc server _ hlost, onRead_lost sha1 libc server block hlost]
    exact ⟨ws, h, by rw [← hws]⟩
  obtain ⟨w, evs, hskim, hfresh, hkey, hreplies, hinside⟩ :=
    WebSocket.skim_decodeAll hfs h.fresh h.keyVal (by rw [h.offset]; omega)
  obtain ⟨ws', hinitial, hread⟩ :
      ∃ ws', Initial ws' ∧ processFrame (encodeAll fs) ws = (ws', evs) := by
    rw [processFrame, h.offset, List.drop_zero]
    by_cases hne : encodeAll fs = []
    · rw [hne] at hskim ⊢
      obtain ⟨rfl, rfl⟩ : ws = w ∧ [] = evs := by simpa [WebSocket.skim] using hskim
      exact ⟨ws, h, by simp [WebSocket.frameLoop]⟩
    · exact ⟨{ w with offset := 0 },
        ⟨⟨hfresh.step, hfresh.framePos, hfresh.keyPos, hfresh.dataPos⟩, rfl, hkey⟩,
        WebSocket.frameLoop_last _ hskim hne hfresh.step (by rw [h.offset, Nat.zero_add]) (by omega)⟩
  refine ⟨ws', hinitial, ?_⟩
  rw [onRead, if_neg hlost]
  simp only [hws, hread]
  rw [← foldl_onEvent_filter libc server hinside, hreplies, foldl_onEvent_reply]

/-- Reads of whole frames hand over the payload of each data frame, in order. -/
theorem run_encodeAll {fss : List (List ClientFrame)} (hfss : ∀ fs ∈ fss,
      (∀ f ∈ fs, f.Carries) ∧ (encodeAll fs).length < 2 ^ 31)
    {x : Connection σ} {ws : WebsocketState} (hws : x.ws = some ws) (h : Initial ws) :
    ∃ ws', Initial ws' ∧ run sha1 libc server block (fss.map encodeAll) x =
      { (payloads fss.flatten).foldl (onFrame libc server) x with ws := some ws' } := by
  induction fss generalizing x ws with
  | nil => exact ⟨ws, h, by rw [← hws]; rfl⟩
  | cons fs fss ih =>
    obtain ⟨⟨hfs, hlen⟩, hrest⟩ := List.forall_mem_cons.1 hfss
    obtain ⟨ws₁, h₁, hread⟩ := onRead_encodeAll sha1 libc server block hfs hlen hws h
    obtain ⟨ws', h', hrun⟩ := ih hrest (x := { (payloads fs).foldl (onFrame libc server) x with
      ws := some ws₁ }) rfl h₁
    refine ⟨ws', h', ?_⟩
    rw [List.map_cons, run, List.foldl_cons, ← run, hread, hrun, foldl_onFrame_ws,
      List.flatten_cons, payloads_append, List.foldl_append]

/-! ## Commands -/

/-- The commands of a tree are those of its document. -/
theorem apeCmdProcessMulti_treeFor {kind : Json.Kind} (m : Members kind) (s : σ) :
    apeCmdProcessMulti server (treeFor m).items (treeFor m).head s =
      some (reading server (values m) s) := by
  obtain ⟨i, child, hhead, hroot, hmirrored⟩ := Json.mirrors_documentItems m false false (some 0)
  obtain rfl : i = 0 := (Option.some.inj hhead).symm
  have hsize : m.size ≤ (Json.documentItems m).length := by
    simp [Json.documentItems, Members.length_layout]
  have hchild : (Json.containerItem none none kind child none).child = child := rfl
  simp only [treeFor, apeCmdProcessMulti, hroot, hchild]
  cases child with
  | none =>
    cases m with
    | nil => rfl
    | scalar => obtain ⟨j, next, hj, -⟩ := hmirrored; exact absurd hj (by simp)
    | nest => obtain ⟨j, child, next, hj, -⟩ := hmirrored; exact absurd hj (by simp)
  | some j =>
    exact Command.processItems_mirrored server _ m hmirrored hsize
      ((Command.length_values_le m).trans hsize) s

/-- A tree without an item has no commands. -/
theorem react_nil (x : Connection σ) : react server x (some (.process (Json.build []))) = x := by
  show { x with calls := x.calls ++ [] } = x
  rw [List.append_nil]

/-- The process is running, for the connection and for its frames. -/
structure Live (x : Connection σ) : Prop where
  process : x.lost = false
  session : x.session.lost = false

/-- A frame that finds no parser is answered for itself. -/
theorem onFrame_none {x : Connection σ} (hlive : Live x) (h : x.session.json = none)
    {payload : List UInt8} (hkept : (onWsFrame libc x.session payload).lost = false) :
    onFrame libc server x payload =
      react server { x with session := onWsFrame libc x.session payload }
        (some (answer libc payload)) := by
  have hlog : (onWsFrame libc x.session payload).log.getLast? = some (answer libc payload) := by
    rw [onWsFrame_kept libc hlive.session h hkept, List.getLast?_concat]
  rw [onFrame, if_neg (by simp [hlive.process]), if_neg (by simp [hkept]), hlog]

/-- A frame that finds one calls nothing: the process is lost, or there is a reply or none. -/
theorem onFrame_some {x : Connection σ} {jc : Json.Parser} (h : x.session.json = some jc)
    (payload : List UInt8) :
    onFrame libc server x payload =
      if x.lost then x
      else if (onWsFrame libc x.session payload).lost then
        Connection.crash { x with session := onWsFrame libc x.session payload }
      else if (readFrame libc payload jc).ok then
        { x with session := onWsFrame libc x.session payload }
      else Connection.send badJsonReply
        { x with session := onWsFrame libc x.session payload } := by
  rw [onFrame]
  split_ifs with hlost hsession hok
  · rfl
  · rfl
  all_goals
    have hrunning : x.session.lost = false := by
      by_contra hyes
      rw [onWsFrame, if_pos (by simpa using hyes)] at hsession
      exact hyes (by simpa using hsession)
    have hframe := onWsFrame_some libc hrunning h payload
    have hlog : (onWsFrame libc x.session payload).log.getLast? =
        some (if (readFrame libc payload jc).ok then .process (Json.build []) else .badJson) := by
      rw [hframe] at hsession ⊢
      have hfine : ¬ ((readFrame libc payload jc).lost ||
          !(readFrame libc payload jc).events.isEmpty || overruns libc payload jc) = true := hsession
      simp only [Session.after, if_neg hfine, List.getLast?_concat]
    rw [hlog]
  · rw [if_pos hok, react_nil]
  · rw [if_neg hok]
    rfl

/-- A client that has a parser keeps one. -/
theorem json_onWsFrame {s : Session} {jc : Json.Parser} (h : s.json = some jc)
    (payload : List UInt8) : ∃ jc', (onWsFrame libc s payload).json = some jc' := by
  unfold onWsFrame
  split_ifs
  · exact ⟨jc, h⟩
  · rw [h]
    exact ⟨_, rfl⟩

theorem json_onFrame {x : Connection σ} {jc : Json.Parser} (h : x.session.json = some jc)
    (payload : List UInt8) : ∃ jc', (onFrame libc server x payload).session.json = some jc' := by
  have hnext := json_onWsFrame libc h payload
  rw [onFrame_some libc server h]
  split_ifs
  · exact ⟨jc, h⟩
  · exact hnext
  · exact hnext
  · exact hnext

/-- A number of replies. -/
def badJsonReplies (n : Nat) : List UInt8 := (List.replicate n badJsonReply).flatten

theorem badJsonReplies_succ (n : Nat) :
    badJsonReplies (n + 1) = badJsonReply ++ badJsonReplies n := by
  rw [badJsonReplies, List.replicate_succ, List.flatten_cons, badJsonReplies]

/-- Nothing was called, and nothing sent but that many replies at most. -/
structure Quiet (m : Nat) (x y : Connection σ) : Prop where
  state : y.state = x.state
  calls : y.calls = x.calls
  sent : ∃ n ≤ m, y.http.2.sent = x.http.2.sent ++ badJsonReplies n

theorem Quiet.trans {m n : Nat} {x y z : Connection σ} (h : Quiet m x y) (h' : Quiet n y z) :
    Quiet (m + n) x z := by
  obtain ⟨i, hi, hsent⟩ := h.sent
  obtain ⟨j, hj, hsent'⟩ := h'.sent
  refine ⟨h'.state.trans h.state, h'.calls.trans h.calls, i + j, Nat.add_le_add hi hj, ?_⟩
  rw [hsent', hsent, List.append_assoc, badJsonReplies, badJsonReplies, badJsonReplies,
    ← List.flatten_append, List.replicate_append_replicate]

theorem onFrame_quiet {x : Connection σ} {jc : Json.Parser} (h : x.session.json = some jc)
    (payload : List UInt8) : Quiet 1 x (onFrame libc server x payload) := by
  have hsilent : x.http.2.sent = x.http.2.sent ++ badJsonReplies 0 := (List.append_nil _).symm
  rw [onFrame_some libc server h]
  split_ifs
  · exact ⟨rfl, rfl, 0, Nat.zero_le 1, hsilent⟩
  · exact ⟨rfl, rfl, 0, Nat.zero_le 1, hsilent⟩
  · exact ⟨rfl, rfl, 0, Nat.zero_le 1, hsilent⟩
  · exact ⟨rfl, rfl, 1, le_rfl, congrArg (x.http.2.sent ++ ·) (List.append_nil _).symm⟩

/-- **Behind the first frame nothing is called.** -/
theorem foldl_onFrame_quiet (ps : List (List UInt8)) {x : Connection σ} {jc : Json.Parser}
    (h : x.session.json = some jc) : Quiet ps.length x (ps.foldl (onFrame libc server) x) := by
  induction ps generalizing x jc with
  | nil => exact ⟨rfl, rfl, 0, le_rfl, (List.append_nil _).symm⟩
  | cons p ps ih =>
    obtain ⟨jc', hjc'⟩ := json_onFrame libc server h p
    rw [List.foldl_cons, List.length_cons, Nat.add_comm]
    exact (onFrame_quiet libc server h p).trans (ih hjc')

/-! ## Behind a document -/

/-- A parser that has come to its end: it is outside of a document, and it takes no other. -/
structure Closed (jc : Json.Parser) : Prop where
  steady : Json.Steady jc
  state : jc.state = .go ∨ jc.state = .ok
  ends : jc.ends = 0

/-- The parser of a payload that was taken. -/
theorem closed_readFrame {payload : List UInt8} (h : Valid libc payload) :
    Closed (readFrame libc payload frameParser).parser := by
  have hfresh : frameParser.ends = 1 := rfl
  have hok : ((Json.feed libc (Json.codes payload) frameParser).andThen Json.jsonParserDone).ok =
      true := h
  have hsteady := (Json.steady_newParser true 15).feed libc (Json.codes payload)
  have haccepted := @Json.accepted frameParser libc (Json.codes payload)
  rw [if_pos hok, hfresh] at haccepted
  refine ⟨?_, ?_, Nat.le_zero.1 (Nat.le_of_succ_le_succ haccepted)⟩
  · exact Json.parser_andThen (P := Json.Steady) hsteady (fun _ h => h)
      fun _ h => h.jsonParserDone
  · have hstate : ∀ jc, (Json.jsonParserDone jc).ok = true →
        (Json.jsonParserDone jc).parser.state = .go ∨ (Json.jsonParserDone jc).parser.state = .ok := by
      intro jc
      unfold Json.jsonParserDone Json.pop
      split_ifs with hs
      · exact fun _ => hs.symm
      · exact fun hno => absurd hno Bool.false_ne_true
      · exact fun hno => absurd hno Bool.false_ne_true
    have hcall : readFrame libc payload frameParser =
        (Json.feed libc (Json.codes payload) frameParser).andThen Json.jsonParserDone := rfl
    rw [hcall]
    unfold Json.Outcome.andThen at hok ⊢
    split_ifs at hok ⊢ with hfeed
    · exact hstate _ hok
    · exact absurd hok hfeed

/-- **Behind a frame that was processed all are refused**, as long as the process is running. -/
theorem onFrame_spent {x : Connection σ} {jc : Json.Parser} (h : x.session.json = some jc)
    (hends : x.session.ends = 0) (payload : List UInt8) :
    (onFrame libc server x payload).session.ends = 0 ∧
      (onFrame libc server x payload).http.2.sent = x.http.2.sent ++
        if (onFrame libc server x payload).lost then [] else badJsonReply := by
  have hjc : jc.ends = 0 := by rwa [Session.ends, h] at hends
  have hnext : (onWsFrame libc x.session payload).ends = 0 := by
    have hcount := onWsFrame_ends libc x.session payload
    have hlog : x.session.log.countP Reaction.isProcess ≤
        (onWsFrame libc x.session payload).log.countP Reaction.isProcess := by
      unfold onWsFrame Session.after
      split_ifs
      · exact le_rfl
      · cases x.session.json <;> simp only <;> split_ifs <;>
          simp only [List.countP_append, le_refl, Nat.le_add_right]
    omega
  have hrefused : ¬ (readFrame libc payload jc).ok = true := by
    intro hok
    have haccepted := @Json.accepted jc libc (Json.codes payload)
    have hread : ((Json.feed libc (Json.codes payload) jc).andThen Json.jsonParserDone).ok = true :=
      hok
    rw [if_pos hread, hjc] at haccepted
    exact absurd haccepted (Nat.not_succ_le_zero _)
  have hframe := onFrame_some libc server h payload
  rw [if_neg hrefused] at hframe
  by_cases hlost : x.lost = true
  · rw [if_pos hlost] at hframe
    rw [hframe, if_pos hlost, List.append_nil]
    exact ⟨hends, rfl⟩
  rw [if_neg hlost] at hframe
  by_cases hsession : (onWsFrame libc x.session payload).lost = true
  · rw [if_pos hsession] at hframe
    rw [hframe]
    exact ⟨hnext, (List.append_nil _).symm⟩
  · rw [if_neg hsession] at hframe
    have hrunning : ¬ (Connection.send badJsonReply
        { x with session := onWsFrame libc x.session payload }).lost = true := hlost
    rw [hframe, if_neg hrunning]
    exact ⟨hnext, rfl⟩

/-- What a connection did with payloads that it refuses: so many replies were sent, one to each as long
as the process was running; and it is, if none of them begins with a bracket or a comma. -/
structure Refused (sent : List UInt8) (ps : List (List UInt8)) (x : Connection σ) : Prop where
  replies : ∃ n ≤ ps.length, x.http.2.sent = sent ++ badJsonReplies n ∧
    (x.lost = false → n = ps.length)
  running : (∀ p ∈ ps, Inert p) → x.lost = false

theorem foldl_onFrame_spent (ps : List (List UInt8)) {x : Connection σ} {jc : Json.Parser}
    (h : x.session.json = some jc) (hends : x.session.ends = 0) :
    ∃ n ≤ ps.length, (ps.foldl (onFrame libc server) x).http.2.sent =
        x.http.2.sent ++ badJsonReplies n ∧
      ((ps.foldl (onFrame libc server) x).lost = false → n = ps.length) := by
  induction ps generalizing x jc with
  | nil => exact ⟨0, le_rfl, (List.append_nil _).symm, fun _ => rfl⟩
  | cons p ps ih =>
    obtain ⟨hends', hsent⟩ := onFrame_spent libc server h hends p
    obtain ⟨jc', hjc'⟩ := json_onFrame libc server h p
    rw [List.foldl_cons]
    by_cases hlost : (onFrame libc server x p).lost = true
    · rw [foldl_onFrame_lost libc server ps hlost]
      rw [if_pos hlost] at hsent
      exact ⟨0, Nat.zero_le _, hsent, fun hno => absurd (hno.symm.trans hlost) Bool.false_ne_true⟩
    · obtain ⟨n, hn, hrest, hall⟩ := ih hjc' hends'
      rw [if_neg hlost] at hsent
      refine ⟨n + 1, Nat.succ_le_succ hn, ?_, fun hrunning => congrArg (· + 1) (hall hrunning)⟩
      rw [hrest, hsent, badJsonReplies_succ, List.append_assoc]

/-- **A payload that begins with no bracket and no comma** leaves the process running. -/
theorem onFrame_inert {x : Connection σ} (hlive : Live x) {jc : Json.Parser}
    (h : x.session.json = some jc) (hclosed : Closed jc) {payload : List UInt8}
    (hshort : payload.length < 2 ^ 31) (hinert : Inert payload) :
    Live (onFrame libc server x payload) ∧
      ∃ jc', (onFrame libc server x payload).session.json = some jc' ∧ Closed jc' := by
  obtain ⟨jc', hread, hsame⟩ :=
    Json.feed_inert libc hclosed.steady hclosed.state hclosed.ends hinert
  have hcall : readFrame libc payload jc = Json.refuse jc' := hread
  have hclosed' : Closed jc' := by
    refine ⟨?_, hsame.state.symm ▸ hclosed.state,
      (congrArg (List.count Json.Modes.done) hsame.stack).trans hclosed.ends⟩
    have hsteady := Json.parser_andThen (P := Json.Steady) (Q := Json.Steady)
      (hclosed.steady.feed libc (Json.codes payload)) (fun _ h => h) fun _ h => h.jsonParserDone
    rw [hread] at hsteady
    exact hsteady
  have hframe : onWsFrame libc x.session payload =
      ⟨some jc', x.session.log ++ [.badJson], false⟩ := by
    rw [onWsFrame_some libc hlive.session h, hcall, overruns_of_short libc hshort]
    rfl
  rw [onFrame_some libc server h, hframe, hcall, if_neg (by simp [hlive.process])]
  exact ⟨⟨hlive.process, rfl⟩, jc', rfl, hclosed'⟩

theorem foldl_onFrame_inert {ps : List (List UInt8)} (hshort : ∀ p ∈ ps, p.length < 2 ^ 31)
    (hps : ∀ p ∈ ps, Inert p) {x : Connection σ} (hlive : Live x) {jc : Json.Parser}
    (h : x.session.json = some jc) (hclosed : Closed jc) :
    Live (ps.foldl (onFrame libc server) x) := by
  induction ps generalizing x jc with
  | nil => exact hlive
  | cons p ps ih =>
    obtain ⟨hp, hrest⟩ := List.forall_mem_cons.1 hps
    obtain ⟨hpshort, hrestshort⟩ := List.forall_mem_cons.1 hshort
    obtain ⟨hlive', jc', hjc', hclosed'⟩ := onFrame_inert libc server hlive h hclosed hpshort hp
    exact ih hrestshort hrest hlive' hjc' hclosed'

/-- **Behind a payload that was taken**: nothing is called, and all are refused. -/
theorem foldl_onFrame_closed {ps : List (List UInt8)} (hshort : ∀ p ∈ ps, p.length < 2 ^ 31)
    {x : Connection σ} (hlive : Live x) {jc : Json.Parser} (h : x.session.json = some jc)
    (hclosed : Closed jc) :
    Quiet ps.length x (ps.foldl (onFrame libc server) x) ∧
      Refused x.http.2.sent ps (ps.foldl (onFrame libc server) x) := by
  have hends : x.session.ends = 0 := by rw [Session.ends, h]; exact hclosed.ends
  exact ⟨foldl_onFrame_quiet libc server ps h, foldl_onFrame_spent libc server ps h hends,
    fun hps => (foldl_onFrame_inert libc server hshort hps hlive h hclosed).process⟩

/-! ## The first frame -/

section First

variable {x : Connection σ} (hlive : Live x) (hjson : x.session.json = none) {payload : List UInt8}
  (hkept : (onWsFrame libc x.session payload).lost = false)

include hlive hjson hkept

/-- A document: its commands are called. -/
theorem onFrame_document {kind : Json.Kind} {m : Members kind} (h : DocumentText libc m payload) :
    onFrame libc server x payload =
      { x with
        session := onWsFrame libc x.session payload
        state := (reading server (values m) x.state).1
        calls := x.calls ++ (reading server (values m) x.state).2 } := by
  obtain ⟨hvalid, hevents⟩ := (valid_iff libc payload _).2 (.inr ⟨kind, m, h, rfl⟩)
  have hanswer : answer libc payload = .process (Json.build (Json.documentEvents m)) := by
    rw [answer, if_pos hvalid, hevents]
  rw [onFrame_none libc server hlive hjson hkept, hanswer, Json.build_documentEvents]
  have hcommands := apeCmdProcessMulti_treeFor server m x.state
  simp only [treeFor] at hcommands
  simp only [react, hcommands]

/-- A blank frame: nothing is done. -/
theorem onFrame_blank (h : Blank payload) :
    onFrame libc server x payload = { x with session := onWsFrame libc x.session payload } := by
  obtain ⟨hvalid, hevents⟩ := readFrame_blank libc h
  have hanswer : answer libc payload = .process (Json.build []) := by
    rw [answer, if_pos hvalid, hevents]
  rw [onFrame_none libc server hlive hjson hkept, hanswer, react_nil]

/-- Anything else: it is refused. -/
theorem onFrame_refused (hblank : ¬ Blank payload)
    (h : ∀ (kind : Json.Kind) (m : Members kind), ¬ DocumentText libc m payload) :
    onFrame libc server x payload = Connection.send badJsonReply
      { x with session := onWsFrame libc x.session payload } := by
  have hinvalid : ¬ Valid libc payload := by
    rw [valid_iff_document]
    rintro (hyes | ⟨kind, m, htext⟩)
    · exact hblank hyes
    · exact h kind m htext
  rw [onFrame_none libc server hlive hjson hkept, answer, if_neg hinvalid]
  rfl

end First

/-! ## The whole connection -/

section Served

variable (s : σ) (sent first : List UInt8) (rest : List (List UInt8)) (x : Connection σ)

/-- What the payloads of a connection `x` do behind `sent`, when the first of them finds no parser. -/
structure Served : Prop where
  document : ∀ (kind : Json.Kind) (m : Members kind), DocumentText libc m first →
    (x.state, x.calls) = reading server (values m) s ∧ Refused sent rest x
  blank : Blank first → x.state = s ∧ x.calls = [] ∧ Refused sent rest x
  refused : ¬ Blank first → (∀ (kind : Json.Kind) (m : Members kind), ¬ DocumentText libc m first) →
    x.state = s ∧ x.calls = [] ∧
      ∃ n ≤ rest.length, x.http.2.sent = sent ++ badJsonReply ++ badJsonReplies n

end Served

/-- **The payloads of a connection**, when the first of them finds no parser. -/
theorem foldl_onFrame_served {x : Connection σ} (hlive : Live x) (hjson : x.session.json = none)
    (hcalls : x.calls = []) {first : List UInt8} {rest : List (List UInt8)}
    (hshort : ∀ p ∈ first :: rest, p.length < 2 ^ 31) :
    Served libc server x.state x.http.2.sent first rest
      ((first :: rest).foldl (onFrame libc server) x) := by
  obtain ⟨hfirst, hrest⟩ := List.forall_mem_cons.1 hshort
  have hframe := onWsFrame_none libc hlive.session hjson hfirst
  have hparser : (onWsFrame libc x.session first).json =
      some (readFrame libc first frameParser).parser := by rw [hframe]
  have hrunning : (onWsFrame libc x.session first).lost = false := by rw [hframe]
  rw [List.foldl_cons]
  refine ⟨fun kind m htext => ?_, fun hblank => ?_, fun hblank hnone => ?_⟩
  · obtain ⟨hvalid, -⟩ := (valid_iff libc first _).2 (.inr ⟨kind, m, htext, rfl⟩)
    rw [onFrame_document libc server hlive hjson hrunning htext, hcalls, List.nil_append]
    obtain ⟨hquiet, hrefused⟩ := foldl_onFrame_closed libc server hrest (x := { x with
      session := onWsFrame libc x.session first
      state := (reading server (values m) x.state).1
      calls := (reading server (values m) x.state).2 }) ⟨hlive.process, hrunning⟩ hparser
      (closed_readFrame libc hvalid)
    exact ⟨Prod.ext hquiet.state hquiet.calls, hrefused⟩
  · obtain ⟨hvalid, -⟩ := readFrame_blank libc hblank
    rw [onFrame_blank libc server hlive hjson hrunning hblank]
    obtain ⟨hquiet, hrefused⟩ := foldl_onFrame_closed libc server hrest (x := { x with
      session := onWsFrame libc x.session first }) ⟨hlive.process, hrunning⟩ hparser
      (closed_readFrame libc hvalid)
    exact ⟨hquiet.state, hquiet.calls.trans hcalls, hrefused⟩
  · rw [onFrame_refused libc server hlive hjson hrunning hblank hnone]
    have h := foldl_onFrame_quiet libc server rest (x := Connection.send badJsonReply
      { x with session := onWsFrame libc x.session first }) hparser
    exact ⟨h.state, h.calls.trans hcalls, h.sent⟩

end Functions

/-- **A connection from its first byte on.**  Behind an upgrade that came in any reads, and reads of
whole frames, the commands that were called are those of the first payload, in the order of the
document that it is, and nothing else is ever called; when it is no document nothing was called.
Every other payload behind a document is refused, until one that begins with a bracket or a comma may
end the process.  Behind an upgrade whose path is that of a transport with JSON nothing is ever
called. -/
theorem connection_served {σ : Type*} (stack : Sha1.Buffer) (libc : Json.Libc)
    (server : Command.Server σ) {block : WebsocketState} (hblock : block.keyVal.length = 4)
    {r : Request} {body k : List UInt8} (h : Taken r body) (hharmless : Harmless libc r body)
    (hupgrading : Upgrading r k) {reads : List (List UInt8)} (hne : [] ∉ reads)
    (hcut : reads.flatten = r.head ++ body) (hshort : ∀ bytes ∈ reads, bytes.length < 2 ^ 31)
    {fss : List (List ClientFrame)} (hfss : ∀ fs ∈ fss,
      (∀ f ∈ fs, f.Carries) ∧ (encodeAll fs).length < 2 ^ 31)
    {first : List UInt8} {rest : List (List UInt8)}
    (hpayloads : payloads fss.flatten = first :: rest) (s : σ) {x : Connection σ}
    (hx : run (Sha1.sha1Csum stack) libc server block (reads ++ fss.map encodeAll) (.new s) = x) :
    if (apeGetTransport (pathOf r)).qsIsJson then
      Quiet (rest.length + 1) (Connection.send (handshake k) (.new s)) x
    else Served libc server s (handshake k) first rest x := by
  have hnew : Client.new.lost = false := rfl
  obtain ⟨q, hfeed⟩ := feed_request (Sha1.sha1Csum stack) libc h hharmless hnew
  rw [apeServerHttpReady_upgrading stack libc hupgrading] at hfeed
  have hrequest := run_request (Sha1.sha1Csum stack) libc server block (x := .new s) h
    (c := .new) rfl rfl rfl (by rw [hfeed]; rfl) hne hcut hshort
  rw [hfeed, Connection.upgrade, if_pos rfl] at hrequest
  have hinitial : Initial (httpReadyState block) := ⟨⟨rfl, rfl, rfl, rfl⟩, rfl, hblock⟩
  obtain ⟨ws', -, hframes⟩ := run_encodeAll (Sha1.sha1Csum stack) libc server block hfss
    (congrArg Connection.ws hrequest) hinitial
  rw [← run_append, hx, hpayloads] at hframes
  clear hx
  generalize run (Sha1.sha1Csum stack) libc server block reads (.new s) = y at hrequest hframes
  -- what the upgrade has left
  have hparser : y.session.json = if (apeGetTransport (pathOf r)).qsIsJson then
      jsonFed libc (jsonText r body) (Json.newParser false 15 false) else none := by
    rw [hrequest]
    rfl
  have hstate : y.state = s := by rw [hrequest]; rfl
  have hcalls : y.calls = [] := by rw [hrequest]; rfl
  have hlive : Live y := by rw [hrequest]; exact ⟨rfl, rfl⟩
  have hsent : y.http.2.sent = handshake k := by rw [hrequest]; rfl
  rw [hframes]
  by_cases hjson : (apeGetTransport (pathOf r)).qsIsJson = true
  · obtain ⟨jc, hjc⟩ := Option.isSome_iff_exists.1 (hharmless hjson)
    rw [if_pos hjson, hjc] at hparser
    rw [if_pos hjson]
    obtain ⟨hstate', hcalls', n, hn, hsent'⟩ :=
      foldl_onFrame_quiet libc server (first :: rest) hparser
    exact ⟨hstate'.trans hstate, hcalls'.trans hcalls, n, hn,
      hsent'.trans (congrArg (· ++ badJsonReplies n) hsent)⟩
  · rw [if_neg hjson] at hparser ⊢
    have hpayloadsShort : ∀ p ∈ first :: rest, p.length < 2 ^ 31 := by
      rw [← hpayloads]
      exact short_payloads fun fs hfs => (hfss fs hfs).2
    have hserved := foldl_onFrame_served libc server hlive hparser hcalls hpayloadsShort
    rw [hstate, hsent] at hserved
    refine ⟨fun kind m htext => ?_, fun hblank => ?_, hserved.refused⟩
    · obtain ⟨hcommands, hreplies, hrunning⟩ := hserved.document kind m htext
      exact ⟨hcommands, hreplies, hrunning⟩
    · obtain ⟨hsame, hnone, hreplies, hrunning⟩ := hserved.blank hblank
      exact ⟨hsame, hnone, hreplies, hrunning⟩

/-- An upgrade of `/`. -/
def sampleRoot : Request := { sampleUpgrade with target := [47] }

/-- `[[1,0,"connect"]]` in a frame, and `[]` in another one. -/
def sampleFrames : List (List ClientFrame) :=
  [[⟨0x81, .tiny, (0, 0, 0, 0), [91, 91, 49, 44, 48, 44, 34, 99, 111, 110, 110, 101, 99, 116, 34, 93,
    93], by decide⟩], [⟨0x81, .tiny, (0, 0, 0, 0), [91, 93], by decide⟩]]

/-- They are served: the command is called, and the second frame is refused. -/
theorem connection_served_sample :
    Served ⟨fun _ => 0, 46⟩ (Command.coreServer []) ⟨none, 0⟩ (handshake [107, 101, 121])
      [91, 91, 49, 44, 48, 44, 34, 99, 111, 110, 110, 101, 99, 116, 34, 93, 93] [[91, 93]]
      (run (Sha1.sha1Csum ⟨List.replicate 64 0, rfl⟩) ⟨fun _ => 0, 46⟩ (Command.coreServer [])
        ⟨[], 0, [0, 0, 0, 0], 0, 0, 0, 0, .start, 0, 0, 0, false⟩
        ([sampleRoot.head.take 9, sampleRoot.head.drop 9] ++ sampleFrames.map encodeAll)
        (.new ⟨none, 0⟩)) := by
  have htaken : Taken sampleRoot [] :=
    { plain := ⟨by simp [sampleRoot], by simp [sampleRoot, sampleUpgrade],
        by simp [sampleRoot, sampleUpgrade]⟩
      body := ⟨by decide, by simp, .nil, fun _ => rfl⟩
      head := by decide }
  have hcarried : ∀ fs ∈ sampleFrames, (∀ f ∈ fs, f.Carries) ∧ (encodeAll fs).length < 2 ^ 31 := by
    intro fs hfs
    rcases List.mem_pair.1 hfs with rfl | rfl
    · exact ⟨List.forall_mem_singleton.2 ⟨by decide, by decide⟩, by decide⟩
    · exact ⟨List.forall_mem_singleton.2 ⟨by decide, by decide⟩, by decide⟩
  have hcut : [sampleRoot.head.take 9, sampleRoot.head.drop 9].flatten = sampleRoot.head ++ [] := by
    simp
  have hserved := @connection_served _ ⟨List.replicate 64 0, rfl⟩ ⟨fun _ => 0, 46⟩
    (Command.coreServer []) ⟨[], 0, [0, 0, 0, 0], 0, 0, 0, 0, .start, 0, 0, 0, false⟩ rfl _ _ _ htaken
    (harmless_plain _ (by decide)) ⟨upgrading_sampleUpgrade.upgrade, upgrading_sampleUpgrade.key,
      upgrading_sampleUpgrade.short, upgrading_sampleUpgrade.protocol⟩
    _ (by decide) hcut (by decide) _ hcarried _ _ (Eq.refl (payloads sampleFrames.flatten)) ⟨none, 0⟩ _ rfl
  rwa [if_neg (by decide)] at hserved

end Ape.Server

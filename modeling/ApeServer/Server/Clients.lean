import ApeServer.Server.Connection
import ApeServer.User.Sessions

/-!
# Many clients

One process serves all its clients, a read at a time, and they share the registry of sessions and the
clock.  What a connection makes of its reads does not depend on the reads of the others between them,
unless one of them brings the process down, and all connections with it.

* `Machine`, `Happening` — the server: a client is accepted, something is read, time goes on;
* `Simulates`, `Moves` — commands that can be followed from less of the state, and what they do to it;
* `onRead_map`, `onRead_moves` — a read, as its own client sees it and as the others do;
* `served_alone` — **as long as the process is up every connection is as it would be without the
  others**, and the registry is in order.
-/

namespace Ape.Server

open Command (CmdSpec MessageClient reading verdict)
open Json (Blank)
open User (Draw Recorded Registry apeCmdConnect apeServerOnConnect)
open WebSocket (WebsocketState WsEvent)

/-! ## Servers of commands -/

section Simulation

variable {σ τ : Type*}

/-- What `server` does to a state is seen in `f` of it as `server'` does it, as long as the state is
good; nothing makes it good again. -/
structure Simulates (server : Command.Server σ) (server' : Command.Server τ) (f : σ → τ)
    (good : σ → Prop) : Prop where
  back : ∀ c msg s, good (server.call c msg s) → good s
  session : ∀ s, server'.userSession (f s) = server.userSession s
  lookup : ∀ s name, server'.lookup (f s) name = server.lookup s name
  time : ∀ s, server'.time (f s) = server.time s
  call : ∀ c msg s, good (server.call c msg s) → server'.call c msg (f s) = f (server.call c msg s)

/-- What `server` does to a state relates the states by `R`, as long as they are good. -/
structure Moves (server : Command.Server σ) (R : σ → σ → Prop) (good : σ → Prop) : Prop where
  back : ∀ c msg s, good (server.call c msg s) → good s
  call : ∀ c msg s, good (server.call c msg s) → R s (server.call c msg s)
  refl : ∀ s, R s s
  trans : ∀ s t u, R s t → R t u → R s u

variable {server : Command.Server σ} {server' : Command.Server τ} {f : σ → τ} {R : σ → σ → Prop}
  {good : σ → Prop}

theorem Simulates.verdict_eq (h : Simulates server server' f good) (s : σ) (element : Command.Value) :
    verdict server' (f s) element = verdict server s element := by
  have hcmd : ∀ v, Command.readCmd server' (f s) v = Command.readCmd server s v := by
    intro v
    unfold Command.readCmd
    split
    · rfl
    · rw [h.lookup, h.session]
    · rfl
  cases element with
  | scalar value => rfl
  | nest kind members =>
    cases kind with
    | object => rfl
    | array =>
      unfold verdict
      simp only [hcmd, h.time]

/-- **The commands of a message**, followed. -/
theorem Simulates.reading_eq (h : Simulates server server' f good) (elements : List Command.Value)
    {s : σ} (hgood : good (reading server elements s).1) :
    good s ∧ reading server' elements (f s) =
      (f (reading server elements s).1, (reading server elements s).2) := by
  induction elements generalizing s with
  | nil => exact ⟨hgood, rfl⟩
  | cons element rest ih =>
    rw [Command.reading] at hgood
    rw [Command.reading, Command.reading, h.verdict_eq]
    cases hverdict : verdict server s element with
    | none =>
      rw [hverdict] at hgood
      exact ⟨hgood, rfl⟩
    | some msg =>
      rw [hverdict] at hgood
      cases hcmd : msg.cmd with
      | none =>
        simp only [hcmd] at hgood ⊢
        exact ih hgood
      | some spec =>
        simp only [hcmd] at hgood ⊢
        obtain ⟨hcalled, hrest⟩ := ih hgood
        refine ⟨h.back _ _ _ hcalled, ?_⟩
        rw [h.call _ _ _ hcalled, hrest, h.session]

theorem Moves.reading (h : Moves server R good) (elements : List Command.Value) {s : σ}
    (hgood : good (Command.reading server elements s).1) :
    good s ∧ R s (Command.reading server elements s).1 := by
  induction elements generalizing s with
  | nil => exact ⟨hgood, h.refl s⟩
  | cons element rest ih =>
    rw [Command.reading] at hgood ⊢
    cases hverdict : verdict server s element with
    | none =>
      rw [hverdict] at hgood
      exact ⟨hgood, h.refl s⟩
    | some msg =>
      rw [hverdict] at hgood
      cases hcmd : msg.cmd with
      | none =>
        simp only [hcmd] at hgood ⊢
        exact ih hgood
      | some spec =>
        simp only [hcmd] at hgood ⊢
        obtain ⟨hcalled, hrest⟩ := ih hgood
        exact ⟨h.back _ _ _ hcalled, h.trans _ _ _ (h.call _ _ _ hcalled) hrest⟩

/-! ## Connections -/

/-- A connection with less of the state. -/
def Connection.map (f : σ → τ) (x : Connection σ) : Connection τ :=
  ⟨x.http, x.ws, x.session, f x.state, x.calls, x.shut⟩

variable (sha1 : List UInt8 → List UInt8) (libc : Json.Libc) (block : WebsocketState)
  {x : Connection σ}

/-- The three kinds of frames that find no parser. -/
theorem frame_cases (payload : List UInt8) : Blank payload ∨
    (∃ (kind : Json.Kind) (m : Json.Members kind), Json.DocumentText libc m payload) ∨
    (¬ Blank payload ∧ ∀ (kind : Json.Kind) (m : Json.Members kind),
      ¬ Json.DocumentText libc m payload) := by
  by_cases hblank : Blank payload
  · exact .inl hblank
  · by_cases htext : ∃ (kind : Json.Kind) (m : Json.Members kind), Json.DocumentText libc m payload
    · exact .inr (.inl htext)
    · exact .inr (.inr ⟨hblank, fun kind m h => htext ⟨kind, m, h⟩⟩)

/-- What is known when a frame neither finds the process lost nor loses it. -/
theorem live_of_running (hlost : ¬ x.lost = true) {payload : List UInt8}
    (hkept : (onWsFrame libc x.session payload).lost = false) : Live x := by
  refine ⟨by simpa using hlost, ?_⟩
  by_contra hyes
  rw [onWsFrame, if_pos (by simpa using hyes)] at hkept
  exact hyes hkept

/-- **A frame** does to the view of a connection what it does to the connection. -/
theorem onFrame_map (h : Simulates server server' f good) {payload : List UInt8}
    (hgood : good (onFrame libc server x payload).state) :
    good x.state ∧
      onFrame libc server' (x.map f) payload = (onFrame libc server x payload).map f := by
  have hmapped : (x.map f).session = x.session := rfl
  have hsame : (x.map f).lost = x.lost := rfl
  cases hjson : x.session.json with
  | some jc =>
    rw [onFrame_some libc server hjson] at hgood ⊢
    rw [onFrame_some libc server' (hmapped ▸ hjson), hsame, hmapped]
    split_ifs at hgood ⊢ <;> exact ⟨hgood, rfl⟩
  | none =>
    by_cases hlost : x.lost = true
    · rw [onFrame_lost libc server hlost] at hgood ⊢
      rw [onFrame_lost libc server' (hsame.trans hlost)]
      exact ⟨hgood, rfl⟩
    by_cases hsession : (onWsFrame libc x.session payload).lost = true
    · rw [onFrame_crash libc server hlost hsession] at hgood ⊢
      rw [onFrame_crash libc server' (x := x.map f) hlost hsession]
      exact ⟨hgood, rfl⟩
    have hkept : (onWsFrame libc x.session payload).lost = false := by simpa using hsession
    have hlive := live_of_running libc hlost hkept
    have hlive' : Live (x.map f) := ⟨hlive.process, hlive.session⟩
    have hjson' : (x.map f).session.json = none := hjson
    rcases frame_cases libc payload with hblank | ⟨kind, m, htext⟩ | ⟨hblank, htext⟩
    · rw [onFrame_blank libc server hlive hjson hkept hblank] at hgood ⊢
      rw [onFrame_blank libc server' hlive' hjson' hkept hblank]
      exact ⟨hgood, rfl⟩
    · rw [onFrame_document libc server hlive hjson hkept htext] at hgood ⊢
      rw [onFrame_document libc server' hlive' hjson' hkept htext]
      obtain ⟨hstart, hreading⟩ := h.reading_eq _ hgood
      refine ⟨hstart, ?_⟩
      simp only [Connection.map, hreading]
    · rw [onFrame_refused libc server hlive hjson hkept hblank htext] at hgood ⊢
      rw [onFrame_refused libc server' hlive' hjson' hkept hblank htext]
      exact ⟨hgood, rfl⟩

theorem onFrame_moves (h : Moves server R good) {payload : List UInt8}
    (hgood : good (onFrame libc server x payload).state) :
    good x.state ∧ R x.state (onFrame libc server x payload).state := by
  cases hjson : x.session.json with
  | some jc =>
    rw [onFrame_some libc server hjson] at hgood ⊢
    split_ifs at hgood ⊢ <;> exact ⟨hgood, h.refl _⟩
  | none =>
    by_cases hlost : x.lost = true
    · rw [onFrame_lost libc server hlost] at hgood ⊢
      exact ⟨hgood, h.refl _⟩
    by_cases hsession : (onWsFrame libc x.session payload).lost = true
    · rw [onFrame_crash libc server hlost hsession] at hgood ⊢
      exact ⟨hgood, h.refl _⟩
    have hkept : (onWsFrame libc x.session payload).lost = false := by simpa using hsession
    have hlive := live_of_running libc hlost hkept
    rcases frame_cases libc payload with hblank | ⟨kind, m, htext⟩ | ⟨hblank, htext⟩
    · rw [onFrame_blank libc server hlive hjson hkept hblank] at hgood ⊢
      exact ⟨hgood, h.refl _⟩
    · rw [onFrame_document libc server hlive hjson hkept htext] at hgood ⊢
      exact h.reading _ hgood
    · rw [onFrame_refused libc server hlive hjson hkept hblank htext] at hgood ⊢
      exact ⟨hgood, h.refl _⟩

/-- What the reader does to the outside, followed. -/
theorem onEvent_map (h : Simulates server server' f good) {e : WsEvent}
    (hgood : good (onEvent libc server x e).state) :
    good x.state ∧ onEvent libc server' (x.map f) e = (onEvent libc server x e).map f := by
  have hsame : (x.map f).lost = x.lost := rfl
  cases e with
  | onFrame payload length =>
    rw [onEvent_onFrame] at hgood ⊢
    rw [onEvent_onFrame]
    exact onFrame_map libc h hgood
  | store index size =>
    simp only [onEvent, hsame] at hgood ⊢
    split_ifs at hgood ⊢ <;> exact ⟨hgood, rfl⟩
  | _ =>
    simp only [onEvent, hsame] at hgood ⊢
    split_ifs at hgood ⊢ <;> exact ⟨hgood, rfl⟩

theorem onEvent_moves (h : Moves server R good) {e : WsEvent}
    (hgood : good (onEvent libc server x e).state) :
    good x.state ∧ R x.state (onEvent libc server x e).state := by
  cases e with
  | onFrame payload length =>
    rw [onEvent_onFrame] at hgood ⊢
    exact onFrame_moves libc h hgood
  | _ =>
    simp only [onEvent] at hgood ⊢
    split_ifs at hgood ⊢ <;> exact ⟨hgood, h.refl _⟩

theorem foldl_onEvent_map (h : Simulates server server' f good) (evs : List WsEvent)
    (hgood : good (evs.foldl (onEvent libc server) x).state) :
    good x.state ∧ evs.foldl (onEvent libc server') (x.map f) =
      (evs.foldl (onEvent libc server) x).map f := by
  induction evs generalizing x with
  | nil => exact ⟨hgood, rfl⟩
  | cons e evs ih =>
    obtain ⟨hnext, hrest⟩ := ih hgood
    obtain ⟨hstart, hone⟩ := onEvent_map libc h hnext
    refine ⟨hstart, ?_⟩
    rw [List.foldl_cons, List.foldl_cons, hone, hrest]

theorem foldl_onEvent_moves (h : Moves server R good) (evs : List WsEvent)
    (hgood : good (evs.foldl (onEvent libc server) x).state) :
    good x.state ∧ R x.state (evs.foldl (onEvent libc server) x).state := by
  induction evs generalizing x with
  | nil => exact ⟨hgood, h.refl _⟩
  | cons e evs ih =>
    obtain ⟨hnext, hrest⟩ := ih hgood
    obtain ⟨hstart, hone⟩ := onEvent_moves libc h hnext
    exact ⟨hstart, h.trans _ _ _ hone hrest⟩

/-- **A read** does to the view of a connection what it does to the connection. -/
theorem onRead_map (h : Simulates server server' f good) {bytes : List UInt8}
    (hgood : good (onRead sha1 libc server block x bytes).state) :
    good x.state ∧ onRead sha1 libc server' block (x.map f) bytes =
      (onRead sha1 libc server block x bytes).map f := by
  have hmapped : (x.map f).ws = x.ws := rfl
  have hhttp : (x.map f).http = x.http := rfl
  have hsame : (x.map f).lost = x.lost := rfl
  by_cases hlost : x.lost = true
  · rw [onRead_lost sha1 libc server block hlost] at hgood ⊢
    rw [onRead_lost sha1 libc server' block (hsame.trans hlost)]
    exact ⟨hgood, rfl⟩
  cases hws : x.ws with
  | none =>
    simp only [onRead, hsame, if_neg hlost, hws, hmapped, hhttp, Connection.upgrade] at hgood ⊢
    split_ifs at hgood ⊢ <;> exact ⟨hgood, rfl⟩
  | some ws =>
    simp only [onRead, hsame, if_neg hlost, hws, hmapped] at hgood ⊢
    obtain ⟨hstart, hevents⟩ := foldl_onEvent_map libc h _ hgood
    exact ⟨hstart, by rw [hevents]; rfl⟩

/-- A read moves the state as its commands do. -/
theorem onRead_moves (h : Moves server R good) {bytes : List UInt8}
    (hgood : good (onRead sha1 libc server block x bytes).state) :
    good x.state ∧ R x.state (onRead sha1 libc server block x bytes).state := by
  by_cases hlost : x.lost = true
  · rw [onRead_lost sha1 libc server block hlost] at hgood ⊢
    exact ⟨hgood, h.refl _⟩
  cases hws : x.ws with
  | none =>
    simp only [onRead, if_neg hlost, hws, Connection.upgrade] at hgood ⊢
    split_ifs at hgood ⊢ <;> exact ⟨hgood, h.refl _⟩
  | some ws =>
    simp only [onRead, if_neg hlost, hws] at hgood ⊢
    exact foldl_onEvent_moves libc h _ hgood

end Simulation

/-! ## The server -/

/-- What the clients share: the registry, the time, and whether a `connect` is still drawing words, in
which case nothing happens any more. -/
structure World where
  registry : Registry
  now : Int64
  hung : Bool

/-- The server: its connections, what they share, and whether the process is down, because what one of
them has read crashed it or made it stray.  The state in a connection is that of its last read. -/
structure Machine where
  conns : Nat → Connection World
  world : World
  down : Bool

/-- What happens to a server: a client is accepted, bytes of one are read, or `time` goes on. -/
inductive Happening where
  | accept (client : Nat)
  | read (client : Nat) (bytes : List UInt8)
  | clock (now : Int64)
  deriving DecidableEq, Repr

/-- What a client alone needs to know of the state: whether it has a session, and the time. -/
structure Alone where
  session : Bool
  now : Int64
  deriving DecidableEq, Repr

/-- What a client knows. -/
def World.view (client : Nat) (w : World) : Alone :=
  ⟨(w.registry.userSession client).isSome, w.now⟩

section Machine

variable (sha1 : List UInt8 → List UInt8) (libc : Json.Libc) (blocks : Nat → WebsocketState)
  (table : List UInt8 → Option CmdSpec) (draws : Nat → Draw × Draw)

/-- `ape_cmd__connect`: a session is made with the draws for it. -/
def World.connect (client : Nat) (w : World) : World :=
  match apeCmdConnect (draws w.registry.sessions.length).1 (draws w.registry.sessions.length).2 w.now
      client w.registry with
  | some registry => { w with registry }
  | none => { w with hung := true }

/-- The commands of a client: `APE_cmd_lookup` finds them in `table`; number 0 is `connect`, and the
others leave the registry alone. -/
def commands (client : Nat) : Command.Server World where
  userSession w := (w.registry.userSession client).isSome
  lookup _ name := table name
  time w := w.now
  call f _ w := if f = 0 then w.connect draws client else w

/-- The commands of a client as it sees them when it is alone: `connect` gives it its session. -/
def commandsAlone : Command.Server Alone where
  userSession s := s.session
  lookup _ name := table name
  time s := s.now
  call f _ s := if f = 0 then { s with session := true } else s

/-- One thing that happens. -/
def Machine.step (m : Machine) (e : Happening) : Machine :=
  if m.world.hung || m.down then m
  else match e with
    | .accept client =>
      let world := { m.world with registry := apeServerOnConnect client m.world.registry }
      { m with conns := Function.update m.conns client (.new world), world }
    | .read client bytes =>
      let x := onRead sha1 libc (commands table draws client) (blocks client)
        { m.conns client with state := m.world } bytes
      ⟨Function.update m.conns client x, x.state, x.lost⟩
    | .clock now => { m with world := { m.world with now } }

/-- What happens to a client alone. -/
def aloneStep (block : WebsocketState) (x : Connection Alone) : Happening → Connection Alone
  | .accept _ => .new { x.state with session := false }
  | .read _ bytes => onRead sha1 libc (commandsAlone table) block x bytes
  | .clock now => { x with state := { x.state with now } }

/-- A server that has just been started. -/
def Machine.start (registry : Registry) (now : Int64) : Machine :=
  ⟨fun _ => .new ⟨registry, now, false⟩, ⟨registry, now, false⟩, false⟩

/-- What happens to a server. -/
def Machine.run (m : Machine) (happenings : List Happening) : Machine :=
  happenings.foldl (Machine.step sha1 libc blocks table draws) m

/-- Whether something concerns a client. -/
def Happening.concerns (client : Nat) : Happening → Bool
  | .accept c => c = client
  | .read c _ => c = client
  | .clock _ => true

/-- A connection as its client knows it. -/
def Machine.seen (client : Nat) (m : Machine) : Connection Alone :=
  Connection.map (World.view client) { m.conns client with state := m.world }

/-- A world that goes on. -/
def World.Alive (w : World) : Prop := w.hung = false

/-- A server that goes on. -/
structure Machine.Up (m : Machine) : Prop where
  alive : m.world.Alive
  running : m.down = false

theorem connect_alive {client : Nat} {w : World} (h : (w.connect draws client).Alive) :
    w.Alive ∧ ∃ dpriv dpub,
      apeCmdConnect dpriv dpub w.now client w.registry = some (w.connect draws client).registry ∧
        (w.connect draws client).now = w.now := by
  unfold World.connect World.Alive at *
  split at h
  · next registry hconnect => exact ⟨h, _, _, hconnect, rfl⟩
  · exact absurd h (by simp)

/-- **A client sees its own commands.** -/
theorem commands_simulates (client : Nat) :
    Simulates (commands table draws client) (commandsAlone table) (World.view client)
      World.Alive := by
  refine ⟨fun c msg w h => ?_, fun _ => rfl, fun _ _ => rfl, fun _ => rfl, fun c msg w h => ?_⟩
  · simp only [commands] at h
    split_ifs at h
    · exact (connect_alive draws h).1
    · exact h
  · simp only [commands, commandsAlone] at h ⊢
    split_ifs at h ⊢
    · obtain ⟨-, dpriv, dpub, hconnect, hnow⟩ := connect_alive draws h
      simp only [World.view, (User.apeCmdConnect_session hconnect).1, hnow]
    · rfl

/-- It does not see those of the others, and all of them are recorded. -/
def Beside (client : Nat) (w w' : World) : Prop :=
  (∀ c ≠ client, w'.view c = w.view c) ∧
    ∀ past, Recorded past w.registry → ∃ past', Recorded past' w'.registry

theorem commands_moves (client : Nat) :
    Moves (commands table draws client) (Beside client) World.Alive := by
  refine ⟨(commands_simulates table draws client).back, fun f msg w h => ?_,
    fun w => ⟨fun _ _ => rfl, fun past h => ⟨past, h⟩⟩, fun w w' w'' h h' => ?_⟩
  · simp only [commands] at h ⊢
    split_ifs at h ⊢
    · obtain ⟨-, dpriv, dpub, hconnect, hnow⟩ := connect_alive draws h
      refine ⟨fun c hc => ?_, fun past hpast => ?_⟩
      · simp only [World.view, (User.apeCmdConnect_session hconnect).2 c hc, hnow]
      · exact ⟨_, hpast.exec (e := .connect client dpriv dpub w.now) hconnect⟩
    · exact ⟨fun _ _ => rfl, fun past hpast => ⟨past, hpast⟩⟩
  · refine ⟨fun c hc => (h'.1 c hc).trans (h.1 c hc), fun past hpast => ?_⟩
    obtain ⟨past', hpast'⟩ := h.2 past hpast
    exact h'.2 past' hpast'

/-! ## What happens, one thing after the other -/

variable {m : Machine} {e : Happening}

theorem run_cons (e : Happening) (es : List Happening) (m : Machine) :
    m.run sha1 libc blocks table draws (e :: es) =
      (m.step sha1 libc blocks table draws e).run sha1 libc blocks table draws es := rfl

/-- **One thing that happens**: those that it concerns see it as if they were alone, the others do not
see it, and the registry is recorded. -/
theorem step_seen (h : (m.step sha1 libc blocks table draws e).Up) :
    m.Up ∧
    (∀ i, (m.step sha1 libc blocks table draws e).seen i =
      if e.concerns i then aloneStep sha1 libc table (blocks i) (m.seen i) e else m.seen i) ∧
    ∀ past, Recorded past m.world.registry →
      ∃ past', Recorded past' (m.step sha1 libc blocks table draws e).world.registry := by
  have hgoes : ¬ (m.world.hung || m.down) = true := by
    intro hstopped
    have hsame : m.step sha1 libc blocks table draws e = m := if_pos hstopped
    rw [hsame] at h
    simp [h.running, show m.world.hung = false from h.alive] at hstopped
  have hup : m.Up := by
    obtain ⟨halive, hrunning⟩ := not_or.1 (mt Bool.or_eq_true_iff.2 hgoes)
    exact ⟨by simpa [World.Alive] using halive, by simpa using hrunning⟩
  have hstep : m.step sha1 libc blocks table draws e = _ := if_neg hgoes
  rw [hstep] at h ⊢
  cases e with
  | accept client =>
    refine ⟨hup, fun i => ?_, fun past hpast => ⟨_, hpast.exec (e := .accept client) rfl⟩⟩
    by_cases hi : client = i
    · subst hi
      simp [Happening.concerns, Machine.seen, Connection.map, Connection.new, aloneStep,
        World.view, apeServerOnConnect]
    · simp [Happening.concerns, hi, Machine.seen, Connection.map, World.view, apeServerOnConnect,
        Ne.symm hi]
  | read client bytes =>
    obtain ⟨-, hbeside⟩ := onRead_moves sha1 libc (blocks client)
      (commands_moves table draws client) h.alive
    obtain ⟨-, hmap⟩ := onRead_map sha1 libc (blocks client)
      (commands_simulates table draws client) h.alive
    refine ⟨hup, fun i => ?_, hbeside.2⟩
    by_cases hi : client = i
    · subst hi
      simp only [Happening.concerns, decide_true, if_true, Machine.seen, Function.update_self,
        aloneStep, hmap]
    · have hview := hbeside.1 i (Ne.symm hi)
      simp only [Happening.concerns, hi, decide_false, Bool.false_eq_true, if_false, Machine.seen,
        Function.update_of_ne (Ne.symm hi), Connection.map, hview]
  | clock now =>
    exact ⟨hup, fun i => rfl, fun past hpast => ⟨past, hpast⟩⟩

/-- **Everything that happens** is seen by a client as what concerns it, and the registry is recorded. -/
theorem run_seen (happenings : List Happening)
    (h : (m.run sha1 libc blocks table draws happenings).Up) :
    (∀ i, (m.run sha1 libc blocks table draws happenings).seen i =
      (happenings.filter (Happening.concerns i)).foldl (aloneStep sha1 libc table (blocks i))
        (m.seen i)) ∧
    m.Up ∧ ∀ past, Recorded past m.world.registry →
      ∃ past', Recorded past' (m.run sha1 libc blocks table draws happenings).world.registry := by
  induction happenings generalizing m with
  | nil => exact ⟨fun _ => rfl, h, fun past hpast => ⟨past, hpast⟩⟩
  | cons e es ih =>
    rw [run_cons] at h ⊢
    obtain ⟨hrest, hup, hrecorded⟩ := ih h
    obtain ⟨hstart, hone, hpast⟩ := step_seen sha1 libc blocks table draws hup
    refine ⟨fun i => ?_, hstart, fun past hfirst => ?_⟩
    · rw [hrest i, hone i]
      by_cases hi : e.concerns i = true
      · rw [if_pos hi, List.filter_cons_of_pos hi, List.foldl_cons]
      · rw [if_neg hi, List.filter_cons_of_neg hi]
    · obtain ⟨past', hpast'⟩ := hpast past hfirst
      exact hrecorded past' hpast'

end Machine

/-- **Clients do not disturb each other** but by ending the process.  Whatever happens to a server, in
whatever order, as long as no `connect` is out of words and nothing that was read has crashed the
process or made it stray: every connection, with all that it was sent, called and parsed, is as if
nothing had happened but what concerns its client; and the registry is in order. -/
theorem served_alone (sha1 : List UInt8 → List UInt8) (libc : Json.Libc)
    (blocks : Nat → WebsocketState) (table : List UInt8 → Option CmdSpec)
    (draws : Nat → Draw × Draw) {dpriv dpub : Draw} {registry : Registry}
    (hstart : Registry.start dpriv dpub = some registry) (now : Int64)
    (happenings : List Happening) {m : Machine}
    (hm : (Machine.start registry now).run sha1 libc blocks table draws happenings = m)
    (hup : m.Up) :
    (∀ i, m.seen i = (happenings.filter (Happening.concerns i)).foldl
      (aloneStep sha1 libc table (blocks i)) (.new ⟨false, now⟩)) ∧
    ∃ past, User.InOrder past m.world.registry := by
  subst hm
  obtain ⟨hseen, -, hrecorded⟩ := run_seen sha1 libc blocks table draws happenings hup
  have hrecord := User.recorded_start hstart
  obtain ⟨past, hpast⟩ := hrecorded [] hrecord
  refine ⟨fun i => ?_, past, hpast.inOrder⟩
  rw [hseen i]
  have hnew : (Machine.start registry now).seen i = .new ⟨false, now⟩ := by
    have hnone : (registry.userSession i).isSome = false := hrecord.session i
    simp [Machine.seen, Machine.start, Connection.map, Connection.new, World.view, hnone]
  rw [hnew]

/-- Two clients, the second of which is upgraded and connects between the reads of the first. -/
def sampleHappenings : List Happening :=
  [.accept 1, .accept 2, .read 1 [71, 69], .read 2 sampleRoot.head, .clock 60,
    .read 2 (WebSocket.encodeAll (sampleFrames.headD [])), .read 1 [84, 32], .accept 2]

/-- The registry behind a start. -/
def sampleRegistry : Registry := (Registry.start ⟨[5], 0, []⟩ ⟨[5], 0, []⟩).get (by decide)

/-- Each of the two clients is served as if it were alone, and the registry is in order. -/
theorem served_alone_sample :
    let m := (Machine.start sampleRegistry 50).run (fun _ => []) ⟨fun _ => 0, 46⟩
      (fun _ => ⟨[], 0, [0, 0, 0, 0], 0, 0, 0, 0, .start, 0, 0, 0, false⟩)
      (fun name => [Command.apeCmdCore].find? fun spec => spec.name = name)
      (fun i => (⟨[5, 6], i, []⟩, ⟨[7], i, []⟩)) sampleHappenings
    (∀ i, m.seen i = (sampleHappenings.filter (Happening.concerns i)).foldl
      (aloneStep (fun _ => []) ⟨fun _ => 0, 46⟩
        (fun name => [Command.apeCmdCore].find? fun spec => spec.name = name)
        ⟨[], 0, [0, 0, 0, 0], 0, 0, 0, 0, .start, 0, 0, 0, false⟩) (.new ⟨false, 50⟩)) ∧
    ∃ past, User.InOrder past m.world.registry := by
  refine served_alone _ _ (fun _ => ⟨[], 0, [0, 0, 0, 0], 0, 0, 0, 0, .start, 0, 0, 0, false⟩) _ _
    (Option.some_get _).symm 50 sampleHappenings rfl ⟨?_, ?_⟩
  · show _ = _
    decide +kernel
  · decide +kernel

end Ape.Server

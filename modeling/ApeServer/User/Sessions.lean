import ApeServer.Codec.Decode
import ApeServer.User.Pipes

/-!
# Users and their sessions

`connect` makes a user with a pipe of its own, and a session that ties the user to the client.  A
client that is accepted has no session; nothing that was made is given back, and the session of a
client that has gone still points to the memory that the next client may get.

* `apeUserNew`, `apeUserSessionNew`, `apeCmdConnect` — the functions of `ape_user.c` and `ape_cmd.c`;
* `Settled` — the invariant: users, sessions and pipes are made in step;
* `registry_run` — **what holds behind any run** of clients that come and connect: every id leads to
  its pipe, no two pipes share an id or its text, and every session leads to a user of its own.
-/

namespace Ape.User

open Codec (base64 base64EncodeB_eq base64_injective)
open Table (Linked hashtblSeek64)
open WebSocket (memory)

/-! ## The source -/

/-- `ape_user`; nothing is put into its `extend`. -/
structure ApeUser where
  pipe : Nat
  deriving DecidableEq, Repr

/-- `ape_user_session`. -/
structure ApeUserSession where
  user : Nat
  client : Nat
  idle : Int64
  connect : Int64
  deriving DecidableEq, Repr

/-- All that is made for clients, by addresses that are never given twice, and `user_session` of the
clients, whose addresses may be given again. -/
structure Registry where
  pipes : Pipes
  users : List ApeUser
  sessions : List ApeUserSession
  userSession : Nat → Option Nat

section Source

/-- `pipe->link.user = user`. -/
def Pipes.link (pipe user : Nat) (s : Pipes) : Pipes :=
  { s with made := s.made.modify pipe fun p => { p with link := some user } }

variable (dpriv dpub : Draw)

/-- `APE_user_new`. -/
def apeUserNew (s : Registry) : Option (Nat × Registry) := do
  let pipes ← apePipeNew dpriv dpub s.pipes
  let pipe := s.pipes.made.length
  let user := s.users.length
  return (user, { s with pipes := pipes.link pipe user, users := s.users ++ [⟨pipe⟩] })

/-- `APE_user_session_new`, with `time(NULL)`. -/
def apeUserSessionNew (user client : Nat) (now : Int64) (s : Registry) : Nat × Registry :=
  (s.sessions.length, { s with sessions := s.sessions ++ [⟨user, client, now, now⟩] })

/-- `ape_cmd__connect`. -/
def apeCmdConnect (now : Int64) (client : Nat) (s : Registry) : Option Registry :=
  if (s.userSession client).isSome then some s
  else do
    let r ← apeUserNew dpriv dpub s
    let r' := apeUserSessionNew r.1 client now r.2
    return { r'.2 with userSession := Function.update r'.2.userSession client (some r'.1) }

/-- `user_session` in `ape_server_on_connect`. -/
def apeServerOnConnect (client : Nat) (s : Registry) : Registry :=
  { s with userSession := Function.update s.userSession client none }

/-- `ape_init`, and the pipe that `main` makes. -/
def Registry.start : Option Registry :=
  (apePipeNew dpriv dpub .none).map fun pipes => ⟨pipes, [], [], fun _ => none⟩

end Source

/-- What changes the registry: a client is accepted on a socket, or it sends the command `connect`. -/
inductive Event where
  | accept (client : Nat)
  | connect (client : Nat) (dpriv dpub : Draw) (now : Int64)

/-- The address of the client that an event is about. -/
def Event.client : Event → Nat
  | .accept client => client
  | .connect client _ _ _ => client

/-- Whether an event is the command `connect`. -/
def Event.connects : Event → Bool
  | .accept _ => false
  | .connect _ _ _ _ => true

/-- What an event makes of the registry; `none` if all the words that are drawn are taken, and the loop of
the source goes on. -/
def Event.exec (s : Registry) : Event → Option Registry
  | .accept client => some (apeServerOnConnect client s)
  | .connect client dpriv dpub now => apeCmdConnect dpriv dpub now client s

/-- The registry of a server behind some events, the first of which comes after `main` has made its
pipe. -/
def run (dpriv dpub : Draw) (events : List Event) : Option Registry :=
  (Registry.start dpriv dpub).bind fun s => events.foldlM Event.exec s

/-! ## What is made together -/

/-- The strings of a pipe begin with the texts of the two words it was given. -/
def Lettered (p : ApePipe) : Prop :=
  p.priv.str.take 13 = wordText p.priv.bin ∧ p.pub.str.take 13 = wordText p.pub.bin

/-- Users, sessions and pipes are made in step, behind the pipe of `main`. -/
structure Settled (s : Registry) : Prop where
  piped : Piped s.pipes
  lettered : ∀ p ∈ s.pipes.made, Lettered p
  links : s.pipes.made.map ApePipe.link = none :: (List.range s.users.length).map some
  users : s.users = (List.range s.users.length).map fun i => ⟨i + 1⟩
  sessions : s.sessions.map ApeUserSession.user = List.range s.users.length
  current : ∀ c k, s.userSession c = some k → (s.sessions[k]?).map ApeUserSession.client = some c

/-- The text of a word is twelve characters, and the NUL behind them. -/
theorem length_wordText (w : UInt64) : (wordText w).length = 13 := by
  rw [wordText, base64EncodeB_eq, List.length_append, Codec.length_base64]
  simp [memory]

theorem take_putBytes (w : UInt64) (array : List UInt8) :
    (putBytes (wordText w) array).take 13 = wordText w := by
  rw [putBytes, ← length_wordText w, List.take_left]

theorem memory_succ (k n : Nat) :
    memory (k + 1) n = UInt8.ofNat n :: memory k (n / 256) := by
  simp only [memory, List.range_succ_eq_map, List.map_cons, List.map_map, pow_zero, Nat.div_one]
  refine congrArg _ (List.map_congr_left fun i _ => ?_)
  simp only [Function.comp, Nat.pow_succ', Nat.div_div_eq_div_mul]

/-- Two numbers that fit in `k` bytes and have the same `k` bytes in memory are the same number. -/
theorem memory_injective {k m n : Nat} (hm : m < 256 ^ k) (hn : n < 256 ^ k)
    (h : memory k m = memory k n) : m = n := by
  induction k generalizing m n with
  | zero => rw [pow_zero] at hm hn; omega
  | succ k ih =>
    rw [memory_succ, memory_succ] at h
    obtain ⟨hbyte, hrest⟩ := List.cons.inj h
    rw [Nat.pow_succ'] at hm hn
    have hhigh := ih (Nat.div_lt_of_lt_mul hm) (Nat.div_lt_of_lt_mul hn) hrest
    have hlow := congrArg UInt8.toNat hbyte
    rw [UInt8.toNat_ofNat', UInt8.toNat_ofNat'] at hlow
    omega

/-- Different words have different texts, as base64 loses nothing of their bytes. -/
theorem wordText_injective {w w' : UInt64} (h : wordText w = wordText w') : w = w' := by
  rw [wordText, wordText, base64EncodeB_eq, base64EncodeB_eq] at h
  have hbytes := base64_injective (List.append_cancel_right h)
  exact UInt64.toNat_inj.1 (memory_injective w.toNat_lt w'.toNat_lt hbytes)

/-! ## One event -/

/-- The pipe that was made last is the one that is linked. -/
theorem modify_link {made : List ApePipe} {p : ApePipe} (user : Nat) :
    (made ++ [p]).modify made.length (fun p => { p with link := some user }) =
      made ++ [{ p with link := some user }] := by
  rw [List.modify_eq_set_getElem?, List.getElem?_concat_length]
  simp

theorem Settled.length_made {s : Registry} (h : Settled s) :
    s.pipes.made.length = s.users.length + 1 := by
  simpa using congrArg List.length h.links

theorem Settled.length_sessions {s : Registry} (h : Settled s) :
    s.sessions.length = s.users.length := by
  simpa using congrArg List.length h.sessions

/-- The invariant holds of a registry behind a new pipe, when the pipe is linked to a new user and the
user is tied to a client by a new session. -/
theorem Settled.enroll {s : Registry} (h : Settled s) {pipes : Pipes} {a b : List UInt8}
    {w w' : UInt64} (hmade : pipes.made = s.pipes.made ++
      [⟨⟨putBytes (wordText w) a, w⟩, ⟨putBytes (wordText w') b, w'⟩, none⟩])
    (hpiped : Piped pipes) (client : Nat) (now : Int64) :
    Settled
      { pipes := pipes.link s.pipes.made.length s.users.length
        users := s.users ++ [⟨s.pipes.made.length⟩]
        sessions := s.sessions ++ [⟨s.users.length, client, now, now⟩]
        userSession := Function.update s.userSession client (some s.sessions.length) } := by
  have hlinked : (pipes.link s.pipes.made.length s.users.length).made = s.pipes.made ++
      [⟨⟨putBytes (wordText w) a, w⟩, ⟨putBytes (wordText w') b, w'⟩, some s.users.length⟩] := by
    rw [Pipes.link, hmade, modify_link]
  refine ⟨⟨?_, ?_⟩, fun p hp => ?_, ?_, ?_, ?_, fun c k hk => ?_⟩
  · have hpriv := hpiped.priv
    rw [hmade, List.map_append] at hpriv
    simp only [hlinked, List.map_append]
    exact hpriv
  · have hpub := hpiped.pub
    rw [hmade, List.map_append] at hpub
    simp only [hlinked, List.map_append]
    exact hpub
  · rw [hlinked, List.mem_append, List.mem_singleton] at hp
    rcases hp with hp | rfl
    · exact h.lettered p hp
    · exact ⟨take_putBytes w a, take_putBytes w' b⟩
  · simp only [hlinked, List.map_append, h.links, List.length_append, List.length_singleton,
      List.range_succ, List.cons_append, List.map_cons, List.map_nil]
  · simp only [List.length_append, List.length_singleton, List.range_succ, List.map_append,
      List.map_cons, List.map_nil, ← h.users, h.length_made]
  · simp only [List.length_append, List.length_singleton, List.range_succ, List.map_append,
      List.map_cons, List.map_nil, h.sessions]
  · simp only [Function.update_apply] at hk
    split_ifs at hk with hc
    · obtain rfl := Option.some.inj hk
      rw [List.getElem?_concat_length, hc]
      rfl
    · have hcurrent := h.current c k hk
      obtain ⟨session, hsession, -⟩ := Option.map_eq_some_iff.1 hcurrent
      obtain ⟨hlt, -⟩ := List.getElem?_eq_some_iff.1 hsession
      rwa [List.getElem?_append_left hlt]

/-- **`connect` of a client without a session**: there are words for a pipe, and it gets a user and a
session; or there are none, and the loop goes on. -/
theorem apeCmdConnect_settled {s : Registry} (h : Settled s) {client : Nat}
    (hnone : s.userSession client = none) (dpriv dpub : Draw) (now : Int64) :
    (Drawn dpriv dpub s.pipes ∧ ∃ s', apeCmdConnect dpriv dpub now client s = some s' ∧ Settled s' ∧
      s'.userSession = Function.update s.userSession client (some s.sessions.length) ∧
      s'.sessions = s.sessions ++ [⟨s.users.length, client, now, now⟩]) ∨
    (¬ Drawn dpriv dpub s.pipes ∧ apeCmdConnect dpriv dpub now client s = none) := by
  unfold apeCmdConnect apeUserNew
  rw [if_neg (by simp [hnone])]
  rcases apePipeNew_piped h.piped dpriv dpub with ⟨hdrawn, pipes, w, w', hnew, hmade, hpiped⟩ |
    ⟨hdrawn, hnew⟩
  · refine .inl ⟨hdrawn, ?_⟩
    simp only [hnew, bind, Option.bind_some, pure, apeUserSessionNew]
    refine ⟨_, rfl, h.enroll hmade hpiped client now, rfl, rfl⟩
  · refine .inr ⟨hdrawn, ?_⟩
    simp only [hnew, bind, Option.bind_none]

/-- Behind a `connect` that returns the client has a session, and the others have theirs. -/
theorem apeCmdConnect_session {dpriv dpub : Draw} {now : Int64} {client : Nat} {s s' : Registry}
    (h : apeCmdConnect dpriv dpub now client s = some s') :
    (s'.userSession client).isSome = true ∧
      ∀ c ≠ client, s'.userSession c = s.userSession c := by
  unfold apeCmdConnect at h
  split_ifs at h with hsession
  · obtain rfl := Option.some.inj h
    exact ⟨hsession, fun _ _ => rfl⟩
  · obtain ⟨⟨user, s₁⟩, huser, h⟩ := Option.bind_eq_some_iff.1 h
    obtain rfl := Option.some.inj h
    obtain ⟨pipes, -, huser⟩ := Option.bind_eq_some_iff.1 huser
    obtain ⟨-, rfl⟩ := Prod.mk.inj (Option.some.inj huser)
    exact ⟨by simp [apeUserSessionNew], fun c hc => by simp [apeUserSessionNew, hc]⟩

/-! ## Runs -/

/-- The registry that `main` leaves has the invariant, no session, and no client with one. -/
theorem settled_start {dpriv dpub : Draw} {s : Registry} (h : Registry.start dpriv dpub = some s) :
    Settled s ∧ s.sessions = [] ∧ ∀ c, s.userSession c = none := by
  unfold Registry.start at h
  rcases apePipeNew_piped piped_none dpriv dpub with ⟨-, pipes, w, w', hnew, hmade, hpiped⟩ |
    ⟨-, hnew⟩
  · rw [hnew] at h
    obtain rfl := Option.some.inj h
    refine ⟨⟨hpiped, fun p hp => ?_, ?_, rfl, rfl, fun c k hk => absurd hk (by simp)⟩, rfl,
      fun _ => rfl⟩
    · rw [hmade] at hp
      obtain rfl := List.mem_singleton.1 hp
      exact ⟨take_putBytes w _, take_putBytes w' _⟩
    · rw [hmade]
      rfl
  · rw [hnew] at h
    exact absurd h (by simp)

/-- What was last heard of a client: whether it has sent `connect` since it was accepted.  The past
has the latest event first. -/
def connected (past : List Event) (c : Nat) : Bool :=
  (past.find? fun e => e.client = c).any Event.connects

/-- The clients that were given a session, the latest first. -/
def joined : List Event → List Nat
  | [] => []
  | e :: past =>
    if e.connects ∧ connected past e.client = false then e.client :: joined past else joined past

/-- What the registry knows of the past, beside the invariant: the clients that have a session are those
that have sent `connect` since they were accepted, and the sessions were made for them in order. -/
structure Recorded (past : List Event) (s : Registry) : Prop where
  settled : Settled s
  session : ∀ c, (s.userSession c).isSome = connected past c
  joined : (s.sessions.map ApeUserSession.client).reverse = joined past

/-- What was last heard of a client is an event, if it is about that client. -/
theorem connected_cons (e : Event) (past : List Event) (c : Nat) :
    connected (e :: past) c = if e.client = c then e.connects else connected past c := by
  unfold connected
  rw [List.find?_cons]
  by_cases hc : e.client = c <;> simp [hc]

/-- **An event that returns leaves a registry that knows of it**: by the cases of a client that is
accepted, one that has a session already, and one that gets it. -/
theorem Recorded.exec {past : List Event} {s s' : Registry} (h : Recorded past s) {e : Event}
    (hexec : e.exec s = some s') : Recorded (e :: past) s' := by
  cases e with
  | accept client =>
    obtain rfl := Option.some.inj hexec
    refine ⟨⟨h.settled.piped, h.settled.lettered, h.settled.links, h.settled.users,
      h.settled.sessions, fun c k hk => ?_⟩, fun c => ?_, h.joined⟩
    · simp only [apeServerOnConnect, Function.update_apply] at hk
      split_ifs at hk
      exact h.settled.current c k hk
    · rw [connected_cons]
      by_cases hc : client = c
      · subst hc
        simp [apeServerOnConnect, Event.client, Event.connects]
      · simp [apeServerOnConnect, Event.client, hc, Ne.symm hc, h.session c]
  | connect client dpriv dpub now =>
    change apeCmdConnect dpriv dpub now client s = some s' at hexec
    have hclient := h.session client
    cases hsession : s.userSession client with
    | some k =>
      rw [hsession, Option.isSome_some] at hclient
      unfold apeCmdConnect at hexec
      rw [if_pos (by simp [hsession])] at hexec
      obtain rfl := Option.some.inj hexec
      refine ⟨h.settled, fun c => ?_, ?_⟩
      · rw [connected_cons]
        by_cases hc : client = c
        · subst hc
          simp [Event.client, Event.connects, hsession]
        · simp [Event.client, hc, h.session c]
      · rw [h.joined, User.joined, if_neg]
        rintro ⟨-, hno⟩
        exact Bool.noConfusion (hclient.trans hno)
    | none =>
      rw [hsession, Option.isSome_none] at hclient
      rcases apeCmdConnect_settled h.settled hsession dpriv dpub now with
        ⟨-, s'', hs'', hsettled, huser, hsessions⟩ | ⟨-, hnone⟩
      · obtain rfl := Option.some.inj (hs''.symm.trans hexec)
        refine ⟨hsettled, fun c => ?_, ?_⟩
        · rw [connected_cons, huser]
          by_cases hc : client = c
          · subst hc
            simp [Event.client, Event.connects]
          · simp [Event.client, hc, Ne.symm hc, h.session c]
        · rw [hsessions, List.map_append, List.reverse_append, h.joined, User.joined,
            if_pos ⟨rfl, hclient.symm⟩]
          rfl
      · exact absurd (hnone.symm.trans hexec) (by simp)

/-- The registry that `main` leaves knows of no event. -/
theorem recorded_start {dpriv dpub : Draw} {s : Registry} (h : Registry.start dpriv dpub = some s) :
    Recorded [] s := by
  obtain ⟨hsettled, hsessions, hnone⟩ := settled_start h
  exact ⟨hsettled, fun c => by rw [hnone c]; rfl, by rw [hsessions]; rfl⟩

/-- **The registry behind a run knows of all its events**, by induction on what is still to come. -/
theorem run_recorded {dpriv dpub : Draw} {events : List Event} {s : Registry}
    (h : run dpriv dpub events = some s) : Recorded events.reverse s := by
  obtain ⟨s₀, hstart, hrun⟩ := Option.bind_eq_some_iff.1 h
  have hall : ∀ (events past : List Event) (s₀ : Registry), Recorded past s₀ →
      events.foldlM Event.exec s₀ = some s → Recorded (events.reverse ++ past) s := by
    intro events
    induction events with
    | nil =>
      intro past s₀ hs₀ hrun
      obtain rfl := Option.some.inj hrun
      exact hs₀
    | cons e events ih =>
      intro past s₀ hs₀ hrun
      rw [List.foldlM_cons] at hrun
      obtain ⟨s₁, hexec, hrest⟩ := Option.bind_eq_some_iff.1 hrun
      rw [List.reverse_cons, List.append_assoc]
      exact ih _ s₁ (hs₀.exec hexec) hrest
  simpa using hall events [] s₀ (recorded_start hstart) hrun

/-! ## What holds of a registry -/

/-- A table of ids, and the texts of them: every pipe is found by its id, and by nothing else. -/
structure Indexed (h : Table.Htable UInt64 Nat) (ids : List PipeId) : Prop where
  finds : ∀ i id, ids[i]? = some id → hashtblSeek64 id.bin h = some (some i)
  strange : ∀ w, (∀ id ∈ ids, id.bin ≠ w) → hashtblSeek64 w h = some none
  linked : Linked h
  texts : (ids.map fun id => id.str.take 13).Nodup

/-- A table that has the words of some ids registered finds every id, and no other word, and the texts of
the ids differ because their words do. -/
theorem Registered.indexed {h : Table.Htable UInt64 Nat} {ids : List PipeId}
    (hr : Registered h (ids.map PipeId.bin))
    (htexts : ∀ id ∈ ids, id.str.take 13 = wordText id.bin) : Indexed h ids where
  finds i id hid := hr.seek (by rw [List.getElem?_map, hid]; rfl)
  strange w hw := hr.seek_none (by simpa using hw)
  linked := by
    obtain ⟨cells, hholds⟩ := hr.holds
    exact hholds.linked
  texts := by
    have hsame : (ids.map fun id => id.str.take 13) = (ids.map PipeId.bin).map wordText := by
      rw [List.map_map]
      exact List.map_congr_left htexts
    rw [hsame]
    exact hr.nodup.map fun _ _ => wordText_injective

/-- What is promised of a registry behind some events: both tables are indexed by the ids of the pipes,
every session has a user and a pipe of its own, and the clients with a session are those of the past. -/
structure InOrder (past : List Event) (s : Registry) : Prop where
  priv : Indexed s.pipes.priv (s.pipes.made.map ApePipe.priv)
  pub : Indexed s.pipes.pub (s.pipes.made.map ApePipe.pub)
  owned : ∀ k session, s.sessions[k]? = some session → session.user = k ∧
    s.users[k]? = some ⟨k + 1⟩ ∧ (s.pipes.made[k + 1]?).map ApePipe.link = some (some k)
  current : ∀ c k, s.userSession c = some k →
    (s.sessions[k]?).map ApeUserSession.client = some c
  session : ∀ c, (s.userSession c).isSome = connected past c
  joined : s.sessions.map ApeUserSession.client = (joined past).reverse
  returns : ∀ c dpriv dpub now, (apeCmdConnect dpriv dpub now c s).isSome = true ↔
    connected past c = true ∨ Drawn dpriv dpub s.pipes

/-- A registry that knows of the past is in order. -/
theorem Recorded.inOrder {past : List Event} {s : Registry} (h : Recorded past s) :
    InOrder past s := by
  obtain ⟨hsettled, hsession, hjoined⟩ := h
  refine ⟨?_, ?_, fun k session hk => ?_, hsettled.current, hsession, ?_, fun c dpriv dpub now => ?_⟩
  · refine Registered.indexed (by rw [List.map_map]; exact hsettled.piped.priv) fun id hid => ?_
    obtain ⟨p, hp, rfl⟩ := List.mem_map.1 hid
    exact (hsettled.lettered p hp).1
  · refine Registered.indexed (by rw [List.map_map]; exact hsettled.piped.pub) fun id hid => ?_
    obtain ⟨p, hp, rfl⟩ := List.mem_map.1 hid
    exact (hsettled.lettered p hp).2
  · obtain ⟨hlt, -⟩ := List.getElem?_eq_some_iff.1 hk
    rw [hsettled.length_sessions] at hlt
    have huser := congrArg (fun l => l[k]?) hsettled.sessions
    have hlink := congrArg (fun l => l[k + 1]?) hsettled.links
    refine ⟨?_, ?_, ?_⟩
    · simpa [List.getElem?_map, hk, List.getElem?_range hlt] using huser
    · rw [hsettled.users]
      simp [hlt]
    · simpa [List.getElem?_map, List.getElem?_range hlt] using hlink
  · rw [← hjoined, List.reverse_reverse]
  · rw [← hsession c]
    cases hc : s.userSession c with
    | some k => simp [apeCmdConnect, hc]
    | none =>
      rcases apeCmdConnect_settled hsettled hc dpriv dpub now with ⟨hdrawn, s', hs', -⟩ |
        ⟨hdrawn, hnone⟩
      · simp [hs', hdrawn]
      · simp [hnone, hdrawn]

/-- **Behind any run** of clients that are accepted and send `connect`, whatever words are drawn and
wherever memory is: both tables find every pipe by its id and nothing else, and are linked; no two
pipes share an id or its text; every session is that of a user and a pipe of its own; the clients were
given a session once since they were accepted, in their order; and the next `connect` returns unless
the client has no session and there is no new word among those that are drawn. -/
theorem registry_run {dpriv dpub : Draw} {events : List Event} {s : Registry}
    (h : run dpriv dpub events = some s) : InOrder events.reverse s := (run_recorded h).inOrder

/-- A client that connects twice, and another one in its place; a word comes up again. -/
def sampleEvents : List Event :=
  [.accept 7, .connect 7 ⟨[5, 6], 1, []⟩ ⟨[9], 1, []⟩ 40, .connect 7 ⟨[], 2, []⟩ ⟨[], 2, []⟩ 41,
    .accept 7, .connect 7 ⟨[6, 5, 8197], 2, []⟩ ⟨[7], 2, []⟩ 42]

/-- Behind these events, the words of which suffice, the registry is in order. -/
theorem registry_run_sample : ∃ s, run ⟨[5], 0, []⟩ ⟨[5], 0, []⟩ sampleEvents = some s ∧
    InOrder sampleEvents.reverse s := by
  have hsome : (run ⟨[5], 0, []⟩ ⟨[5], 0, []⟩ sampleEvents).isSome = true := by decide
  obtain ⟨s, hs⟩ := Option.isSome_iff_exists.1 hsome
  exact ⟨s, hs, registry_run hs⟩

/-- The two sessions that are made are for the same address of a client. -/
example : (run ⟨[5], 0, []⟩ ⟨[5], 0, []⟩ sampleEvents).map Registry.sessions =
    some [⟨0, 7, 40, 40⟩, ⟨1, 7, 42, 42⟩] := by decide

end Ape.User

import ApeServer.Json.Document

/-!
# The commands of a message

`ape_cmd.c` walks the tree of a message: every element of it is an array of a number, parameters and
the name of a command.  All checks of an element come before its command is called, and the first
element that fails one ends the message.

* `apeCmdProcess`, `apeCmdProcessMulti` — the two functions, over the items of the tree;
* `verdict` — what an element asks for, read off its values;
* `reading` — the commands of a message, read off the document;
* `apeCmdProcessMulti_reading` — **the tree of a document is dispatched as its reading says**, and a
  command that requires a user is never called without a session.
-/

namespace Ape.Command

open Json

/-! ## The source -/

/-- `ape_cmd_spec_t`; `call` is a pointer to a function. -/
structure CmdSpec where
  name : List UInt8
  call : Nat
  flags : UInt16
  deriving DecidableEq, Repr

/-- `APE_CMD_REQ_USER`. -/
def apeCmdReqUser : UInt16 := 1

/-- `msg.cmd->flags & APE_CMD_REQ_USER`. -/
def CmdSpec.reqUser (spec : CmdSpec) : Bool := spec.flags &&& apeCmdReqUser ≠ 0

/-- `ape_message_client_t`, for the client at hand. -/
structure MessageClient where
  chl : UInt32
  cmd : Option CmdSpec
  time : Int64
  deriving DecidableEq, Repr

/-- The server as the dispatcher sees it, in a state `σ`: whether `client->user_session` is set,
what `APE_cmd_lookup` finds under a name, `time(NULL)`, and what the functions do. -/
structure Server (σ : Type*) where
  userSession : σ → Bool
  lookup : σ → List UInt8 → Option CmdSpec
  time : σ → Int64
  call : Nat → MessageClient → σ → σ

/-- Ghost record of a call, with whether there was a session when it was made. -/
structure Invocation where
  spec : CmdSpec
  msg : MessageClient
  session : Bool
  deriving DecidableEq, Repr

section Source

variable {σ : Type*} (server : Server σ) (items : List Item)

/-- The `switch` over the position of an item: `none` is `return 0`. -/
def checkItem (s : σ) (i : Nat) (head : Item) (msg : MessageClient) : Option MessageClient :=
  match i with
  | 0 =>
    if head.type ≠ some .integer then none
    else some { msg with chl := head.integer.toUInt64.toUInt32 }
  | 1 => some msg
  | 2 =>
    if head.type ≠ some .string then none
    else
      match server.lookup s (head.str.getD []) with
      | none => none
      | some spec =>
        if spec.reqUser && !server.userSession s then none else some { msg with cmd := some spec }
  | _ => some msg

/-- The loop of `ape_cmd_process`.  The outer `none` stands for a pointer to nowhere and for a list
without end. -/
def checkItems (s : σ) : Nat → Nat → Option Nat → MessageClient → Option (Option MessageClient)
  | _, _, none, msg => some (some msg)
  | 0, _, some _, _ => none
  | fuel + 1, i, some p, msg =>
    match items[p]? with
    | none => none
    | some head =>
      match checkItem server s i head msg with
      | none => some none
      | some msg => checkItems s fuel (i + 1) head.next msg

/-- `ape_cmd_process`: the result, the state and the call that was made. -/
def apeCmdProcess (head : Option Nat) (s : σ) : Option (Bool × σ × List Invocation) :=
  match checkItems server items s items.length 0 head ⟨0, none, server.time s⟩ with
  | none => none
  | some none => some (false, s, [])
  | some (some msg) =>
    match msg.cmd with
    | none => some (true, s, [])
    | some spec => some (true, server.call spec.call msg s, [⟨spec, msg, server.userSession s⟩])

/-- The loop of `ape_cmd_process_multi`. -/
def processItems : Nat → Option Nat → σ → Option (σ × List Invocation)
  | _, none, s => some (s, [])
  | 0, some _, _ => none
  | fuel + 1, some p, s =>
    match items[p]? with
    | none => none
    | some head =>
      if head.childType ≠ .arr then some (s, [])
      else
        match apeCmdProcess server items head.child s with
        | none => none
        | some (false, s, log) => some (s, log)
        | some (true, s, log) =>
          (processItems fuel head.next s).map fun r => (r.1, log ++ r.2)

/-- `ape_cmd_process_multi`. -/
def apeCmdProcessMulti (head : Option Nat) (s : σ) : Option (σ × List Invocation) :=
  match head with
  | none => some (s, [])
  | some p =>
    match items[p]? with
    | none => none
    | some root =>
      match root.child with
      | none => some (s, [])
      | some child => processItems server items items.length (some child) s

end Source

/-! ## The reading of a document -/

/-- A member of a container. -/
inductive Value where
  | scalar (value : Scalar)
  | nest (inner : Kind) (members : Members inner)

/-- The members of a container, without their keys. -/
def values : {kind : Kind} → Members kind → List Value
  | _, .nil => []
  | _, .scalar _ value rest => .scalar value :: values rest
  | _, .nest _ inner members rest => .nest inner members :: values rest

section Reading

variable {σ : Type*} (server : Server σ)

/-- The number of an element, its first value, if there is one. -/
def readChl : List Value → Option UInt32
  | [] => some 0
  | .scalar (.integer n) :: _ => some n.toUInt64.toUInt32
  | _ :: _ => none

/-- The command of an element, whose name is its third value, if there is one: it must be known, and
allowed without a session unless there is one. -/
def readCmd (s : σ) : Option Value → Option (Option CmdSpec)
  | none => some none
  | some (.scalar (.string name)) =>
    match server.lookup s name with
    | none => none
    | some spec => if spec.reqUser ∧ server.userSession s = false then none else some (some spec)
  | some _ => none

/-- What an element asks for; `none` when a check fails. -/
def verdict (s : σ) (element : Value) : Option MessageClient :=
  match element with
  | .nest .array members => do
    let chl ← readChl (values members)
    let cmd ← readCmd server s (values members)[2]?
    some ⟨chl, cmd, server.time s⟩
  | _ => none

/-- The calls that a message makes, one element after the other up to the first that fails. -/
def reading : List Value → σ → σ × List Invocation
  | [], s => (s, [])
  | element :: rest, s =>
    match verdict server s element with
    | none => (s, [])
    | some msg =>
      match msg.cmd with
      | none => reading rest s
      | some spec =>
        let r := reading rest (server.call spec.call msg s)
        (r.1, ⟨spec, msg, server.userSession s⟩ :: r.2)

/-- A command that requires a user is read only with a session. -/
theorem session_of_verdict {s : σ} {element : Value} {msg : MessageClient} {spec : CmdSpec}
    (h : verdict server s element = some msg) (hcmd : msg.cmd = some spec)
    (hreq : spec.reqUser = true) : server.userSession s = true := by
  cases element with
  | scalar value => exact absurd h (by simp [verdict])
  | nest inner members =>
    cases inner with
    | object => exact absurd h (by simp [verdict])
    | array =>
      obtain ⟨chl, -, h⟩ := Option.bind_eq_some_iff.1 h
      obtain ⟨cmd, hread, h⟩ := Option.bind_eq_some_iff.1 h
      obtain rfl := Option.some.inj h
      obtain rfl : cmd = some spec := hcmd
      generalize (values members)[2]? = v at hread
      unfold readCmd at hread
      split at hread
      · exact absurd (Option.some.inj hread) (by simp)
      · split at hread
        · exact absurd hread (by simp)
        · split at hread
          · exact absurd hread (by simp)
          · rename_i hallowed
            obtain rfl := Option.some.inj (Option.some.inj hread)
            by_contra hnone
            exact hallowed ⟨hreq, by simpa using hnone⟩
      · exact absurd hread (by simp)

/-- **No session, no command that requires one**, whatever the calls before it did. -/
theorem reading_sessions (elements : List Value) (s : σ) :
    ∀ inv ∈ (reading server elements s).2, inv.spec.reqUser = true → inv.session = true := by
  induction elements generalizing s with
  | nil => simp [reading]
  | cons element rest ih =>
    intro inv hinv hreq
    rw [reading] at hinv
    cases hverdict : verdict server s element with
    | none =>
      rw [hverdict] at hinv
      exact absurd hinv (by simp)
    | some msg =>
      rw [hverdict] at hinv
      cases hcmd : msg.cmd with
      | none =>
        simp only [hcmd] at hinv
        exact ih s inv hinv hreq
      | some spec =>
        simp only [hcmd, List.mem_cons] at hinv
        rcases hinv with rfl | hinv
        · exact session_of_verdict server hverdict hcmd hreq
        · exact ih _ inv hinv hreq

end Reading

/-! ## The tree of a document -/

section Tree

variable {σ : Type*} (server : Server σ) (items : List Item)

/-- The check of one value of an element. -/
def checkValue (s : σ) (i : Nat) (v : Value) (msg : MessageClient) : Option MessageClient :=
  match i with
  | 0 => (readChl [v]).map fun chl => { msg with chl := chl }
  | 1 => some msg
  | 2 => (readCmd server s (some v)).map fun cmd => { msg with cmd := cmd }
  | _ => some msg

/-- The checks of an element, value by value. -/
def checkValues (s : σ) : Nat → List Value → MessageClient → Option MessageClient
  | _, [], msg => some msg
  | i, v :: vs, msg => (checkValue server s i v msg).bind (checkValues s (i + 1) vs)

/-- Behind the third value nothing is checked. -/
theorem checkValues_behind (s : σ) {i : Nat} (hi : 3 ≤ i) (vs : List Value) (msg : MessageClient) :
    checkValues server s i vs msg = some msg := by
  induction vs generalizing i with
  | nil => rfl
  | cons v vs ih =>
    obtain ⟨j, rfl⟩ : ∃ j, i = j + 3 := ⟨i - 3, by omega⟩
    show (some msg).bind _ = some msg
    rw [Option.bind_some]
    exact ih (by omega)

/-- Only the first value is looked at for the number. -/
theorem readChl_cons (v : Value) (vs : List Value) : readChl (v :: vs) = readChl [v] := by
  cases v with
  | scalar value => cases value <;> rfl
  | nest => rfl

/-- **The checks of an element** come to its number and its command. -/
theorem checkValues_eq (s : σ) (vs : List Value) (time : Int64) :
    checkValues server s 0 vs ⟨0, none, time⟩ = (do
      let chl ← readChl vs
      let cmd ← readCmd server s vs[2]?
      some ⟨chl, cmd, time⟩) := by
  match vs with
  | [] => rfl
  | [v] =>
    simp only [checkValues, checkValue, Option.bind_map]
    cases readChl [v] <;> rfl
  | [v, w] =>
    simp only [checkValues, checkValue, readChl_cons v [w]]
    cases readChl [v] <;> rfl
  | v :: w :: x :: vs =>
    simp only [checkValues, checkValue, readChl_cons v (w :: x :: vs),
      checkValues_behind server s (le_refl 3)]
    cases readChl [v] with
    | none => rfl
    | some chl =>
      cases hcmd : readCmd server s (some x) with
      | none => simp [hcmd]
      | some cmd => simp [hcmd]

/-- The item of a scalar is checked as the scalar is. -/
theorem checkItem_scalar (s : σ) (i father : Nat) (key : Option (List UInt8)) (v : Scalar)
    (next : Option Nat) (msg : MessageClient) :
    checkItem server s i (scalarItem father key v next) msg =
      checkValue server s i (.scalar v) msg := by
  match i with
  | 0 => cases v <;> rfl
  | 1 => rfl
  | 2 =>
    cases v with
    | string name =>
      have htype : (scalarItem father key (.string name) next).type = some .string := rfl
      have hstr : (scalarItem father key (.string name) next).str = some name := rfl
      simp only [checkItem, checkValue, htype, hstr, readCmd, ne_eq, not_true_eq_false, if_false,
        Option.getD_some]
      cases server.lookup s name with
      | none => rfl
      | some spec =>
        cases hreq : spec.reqUser <;> cases server.userSession s <;> simp [hreq]
    | _ => rfl
  | i + 3 => rfl

/-- The item of a container passes neither check. -/
theorem checkItem_nest (s : σ) (i father : Nat) (key : Option (List UInt8)) (inner : Kind)
    (members : Members inner) (child next : Option Nat) (msg : MessageClient) :
    checkItem server s i (containerItem (some father) key inner child next) msg =
      checkValue server s i (.nest inner members) msg := by
  match i with
  | 0 => rfl
  | 1 => rfl
  | 2 => rfl
  | i + 3 => rfl

/-- The items of an element are checked as its values are. -/
theorem checkItems_mirrored (s : σ) {father : Nat} {kind : Kind} (m : Members kind)
    {p : Option Nat} (h : m.Mirrored items father p) {fuel : Nat}
    (hfuel : (values m).length ≤ fuel) (i : Nat) (msg : MessageClient) :
    checkItems server items s fuel i p msg = some (checkValues server s i (values m) msg) := by
  induction m generalizing p fuel i msg with
  | nil =>
    obtain rfl : p = none := h
    cases fuel <;> rfl
  | @scalar kind label value rest ih =>
    obtain ⟨j, next, rfl, hitem, hrest⟩ := h
    obtain ⟨n, rfl⟩ : ∃ n, fuel = n + 1 := ⟨fuel - 1, by simp [values] at hfuel; omega⟩
    have hn : (values rest).length ≤ n := by simpa [values] using hfuel
    simp only [checkItems, hitem, checkItem_scalar, values, checkValues]
    cases checkValue server s i (.scalar value) msg with
    | none => rfl
    | some msg =>
      have hnext : (scalarItem father (kind.key label) value next).next = next := by
        cases value <;> rfl
      simp only [hnext, Option.bind_some]
      exact ih hrest hn (i + 1) msg
  | @nest kind label inner members rest ihm ihr =>
    obtain ⟨j, child, next, rfl, hitem, -, hrest⟩ := h
    obtain ⟨n, rfl⟩ : ∃ n, fuel = n + 1 := ⟨fuel - 1, by simp [values] at hfuel; omega⟩
    have hn : (values rest).length ≤ n := by simpa [values] using hfuel
    simp only [checkItems, hitem, checkItem_nest server s i father (kind.key label) inner members,
      values, checkValues]
    cases checkValue server s i (.nest inner members) msg with
    | none => rfl
    | some msg => exact ihr hrest hn (i + 1) msg

theorem length_values_le {kind : Kind} (m : Members kind) : (values m).length ≤ m.size := by
  induction m with
  | nil => exact Nat.le_refl _
  | scalar label value rest ih => simp only [values, Members.size, List.length_cons]; omega
  | nest label inner members rest ihm ihr =>
    simp only [values, Members.size, List.length_cons]
    omega

/-- **An element** that is an array is dispatched as its verdict says. -/
theorem apeCmdProcess_mirrored (s : σ) {father : Nat} (members : Members .array) {p : Option Nat}
    (h : members.Mirrored items father p) (hsize : members.size ≤ items.length) :
    apeCmdProcess server items p s = some (match verdict server s (.nest .array members) with
      | none => (false, s, [])
      | some msg =>
        match msg.cmd with
        | none => (true, s, [])
        | some spec =>
          (true, server.call spec.call msg s, [⟨spec, msg, server.userSession s⟩])) := by
  have hlen : (values members).length ≤ items.length := (length_values_le members).trans hsize
  have hverdict : checkValues server s 0 (values members) ⟨0, none, server.time s⟩ =
      verdict server s (.nest .array members) := checkValues_eq server s (values members) _
  rw [apeCmdProcess, checkItems_mirrored server items s members h hlen, hverdict]
  cases verdict server s (.nest .array members) with
  | none => rfl
  | some msg => cases hcmd : msg.cmd <;> simp [hcmd]

/-- **The elements** are dispatched one after the other. -/
theorem processItems_mirrored {father : Nat} {kind : Kind} (m : Members kind) {p : Option Nat}
    (h : m.Mirrored items father p) (hsize : m.size ≤ items.length) {fuel : Nat}
    (hfuel : (values m).length ≤ fuel) (s : σ) :
    processItems server items fuel p s = some (reading server (values m) s) := by
  induction m generalizing p fuel s with
  | nil =>
    obtain rfl : p = none := h
    cases fuel <;> rfl
  | @scalar kind label value rest ih =>
    obtain ⟨j, next, rfl, hitem, hrest⟩ := h
    obtain ⟨n, rfl⟩ : ∃ n, fuel = n + 1 := ⟨fuel - 1, by simp [values] at hfuel; omega⟩
    have htype : (scalarItem father (kind.key label) value next).childType ≠ .arr := by
      cases value <;> simp [scalarItem, Item.setValue]
    simp only [processItems, hitem, if_pos htype, values, reading, verdict]
  | @nest kind label inner members rest ihm ihr =>
    obtain ⟨j, child, next, rfl, hitem, hchild, hrest⟩ := h
    obtain ⟨n, rfl⟩ : ∃ n, fuel = n + 1 := ⟨fuel - 1, by simp [values] at hfuel; omega⟩
    have hn : (values rest).length ≤ n := by simpa [values] using hfuel
    have hinner : members.size ≤ items.length := by
      simp only [Members.size] at hsize
      omega
    have hbehind : rest.size ≤ items.length := by
      simp only [Members.size] at hsize
      omega
    cases inner with
    | object =>
      have htype : (containerItem (some father) (kind.key label) .object child next).childType ≠
          .arr := by simp [containerItem, Kind.childType]
      simp only [processItems, hitem, if_pos htype, values, reading, verdict]
    | array =>
      have htype : ¬ (containerItem (some father) (kind.key label) .array child next).childType ≠
          .arr := by simp [containerItem, Kind.childType]
      have hchild' : (containerItem (some father) (kind.key label) .array child next).child =
          child := rfl
      have hnext : (containerItem (some father) (kind.key label) .array child next).next =
          next := rfl
      simp only [processItems, hitem, if_neg htype, hchild', hnext, values, reading,
        apeCmdProcess_mirrored server items s members hchild hinner]
      cases verdict server s (.nest .array members) with
      | none => rfl
      | some msg =>
        cases hcmd : msg.cmd with
        | none =>
          simp only [hcmd, ihr hrest hbehind hn, Option.map_some, List.nil_append]
        | some spec =>
          simp only [hcmd, ihr hrest hbehind hn, Option.map_some, List.singleton_append]

end Tree

/-- **A message is dispatched as it reads.**  For every document, every table of commands, every
client and whatever the commands do to the state: the callback builds a tree of which
`ape_cmd_process_multi` makes exactly the calls of the reading, in its order, and no command that
requires a user is called without a session. -/
theorem apeCmdProcessMulti_reading {σ : Type*} (server : Server σ) {kind : Kind}
    (m : Members kind) (s : σ) :
    ∃ cx, build (documentEvents m) = some cx ∧
      apeCmdProcessMulti server cx.items cx.head s = some (reading server (values m) s) ∧
      ∀ inv ∈ (reading server (values m) s).2, inv.spec.reqUser = true → inv.session = true := by
  refine ⟨_, build_documentEvents m, ?_, reading_sessions server (values m) s⟩
  obtain ⟨i, child, hhead, hroot, hmirrored⟩ := mirrors_documentItems m false false (some 0)
  obtain rfl : i = 0 := (Option.some.inj hhead).symm
  have hsize : m.size ≤ (documentItems m).length := by
    simp [documentItems, Members.length_layout]
  have hchild : (containerItem none none kind child none).child = child := rfl
  simp only [apeCmdProcessMulti, hroot, hchild]
  cases child with
  | none =>
    -- a document without members
    cases m with
    | nil => rfl
    | scalar => obtain ⟨j, next, hj, -⟩ := hmirrored; exact absurd hj (by simp)
    | nest => obtain ⟨j, child, next, hj, -⟩ := hmirrored; exact absurd hj (by simp)
  | some j =>
    exact processItems_mirrored server _ m hmirrored hsize
      ((length_values_le m).trans hsize) s

/-! ## The core command -/

/-- `client->user_session`, and how many sessions have been made. -/
structure Client where
  userSession : Option Nat
  sessions : Nat
  deriving DecidableEq, Repr

/-- `ape_cmd__connect`: a new session, unless the client has one. -/
def apeCmdConnect (client : Client) : Client :=
  if client.userSession.isSome then client
  else ⟨some client.sessions, client.sessions + 1⟩

/-- `ape_cmd_core`: `connect`, with `APE_CMD_FAILFATAL`. -/
def apeCmdCore : CmdSpec := ⟨[99, 111, 110, 110, 101, 99, 116], 0, 2⟩

/-- A server with the core command and `more` commands, which leave the session alone. -/
def coreServer (more : List CmdSpec) : Server Client where
  userSession client := client.userSession.isSome
  lookup _ name := (apeCmdCore :: more).find? fun spec => spec.name = name
  time _ := 0
  call f _ client := if f = 0 then apeCmdConnect client else client

/-- `x` requires a user: `[[1, 0, "connect"], [2, 0, "x"]]` calls both, the other order neither. -/
example :
    let x : CmdSpec := ⟨[120], 1, 1⟩
    let element (name : List UInt8) : Value := .nest .array
      (.scalar () (.integer 1) (.scalar () (.integer 0) (.scalar () (.string name) .nil)))
    let calls (names : List (List UInt8)) :=
      (reading (coreServer [x]) (names.map element) ⟨none, 0⟩).2.map fun inv => inv.spec
    calls [apeCmdCore.name, x.name] = [apeCmdCore, x] ∧ calls [x.name, apeCmdCore.name] = [] := by
  decide

end Ape.Command

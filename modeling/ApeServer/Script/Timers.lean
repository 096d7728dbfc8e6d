import ApeServer.Timers.Deletion
import ApeServer.Timers.Reentry

/-!
# The timers of scripts

`setTimeout` and `setInterval` put a timer into the list of the server whose callback is
`ape_jsapi_timer_wrapper` and whose argument is a block of their own.  `clearTimeout` sets a flag in
that block; the wrapper reads it around the call of the script's function, ends the timer by `*last`
and frees the block.

* `ScriptTimers` — the timers, the blocks and a log of what is done with them;
* `Cmd` — what a script, or the server, does with timers, at any time;
* `timerWrapper`, `apeNativeClearTimeout` — the functions of `ape_jsapi.c`;
* `tickLoop` — the loop of `process_tick` with such callbacks; a tick that does not return stops at
  any number of rounds.
-/

namespace Ape.Script

open Timers (ApeTimers TicksCallback addTimeout addPeriodical bumpHead getTimerIdentifier insertTimer
  nextOf rearm)

/-! ## The data -/

/-- `struct _ape_sm_timer`: of its fields only `cleared` is read by this code. -/
structure SmTimer where
  cleared : Bool
  deriving DecidableEq, Repr

/-- What is done with the blocks, which are named by their index.  For a call of `clearTimeout` the
script timers in the list that have the identifier are noted, and whether anything was changed. -/
inductive ScriptEvent where
  | invoked (block : Nat)
  | used (block : Nat)
  | freed (block : Nat)
  | clear (targets : List Nat) (changed : Bool)
  deriving DecidableEq, Repr

/-- The timers and the blocks of the scripts; `created` counts the calls of `add_timeout` and
`add_periodical` that are not for arming again. -/
structure ScriptTimers where
  ape : ApeTimers
  blocks : List SmTimer
  created : Nat
  log : List ScriptEvent
  deriving DecidableEq, Repr

/-- No script has run. -/
def ScriptTimers.init : ScriptTimers := ⟨.init, [], 0, []⟩

/-- The address of `ape_jsapi_timer_wrapper`. -/
def wrapperAddress : Nat := 0

/-- A timer of a script. -/
def isScript (t : TicksCallback) : Bool := t.func = wrapperAddress

/-- What a script or a callback of the server does.  The callbacks of the server have other addresses
than the wrapper. -/
inductive Cmd where
  | setTimeout (ms : UInt32)
  | setInterval (ms : UInt32)
  | clearTimeout (identifier : UInt32)
  | addTimeout (ms : UInt32) (func params : Nat)
  | addPeriodical (ms : UInt32) (times : Int32) (func params : Nat)
  deriving DecidableEq, Repr

/-- What the invocations do, one after the other: the commands, and whether a callback of the server
sets `*last`. -/
structure Invocation where
  cmds : List Cmd
  setsLast : Bool
  deriving DecidableEq, Repr

/-! ## The natives -/

/-- `ape_native_set_timeout`. -/
def apeNativeSetTimeout (ms : UInt32) (s : ScriptTimers) : ScriptTimers :=
  { s with
    ape := addTimeout ms wrapperAddress s.blocks.length (fun t => { t with protect := 0 }) s.ape
    blocks := s.blocks ++ [⟨false⟩]
    created := s.created + 1 }

/-- `ape_native_set_interval`. -/
def apeNativeSetInterval (ms : UInt32) (s : ScriptTimers) : ScriptTimers :=
  { s with
    ape := addTimeout ms wrapperAddress s.blocks.length
      (fun t => { t with times := 0, protect := 0 }) s.ape
    blocks := s.blocks ++ [⟨false⟩]
    created := s.created + 1 }

/-- A block is read or written. -/
def ScriptTimers.use (block : Nat) (s : ScriptTimers) : ScriptTimers :=
  { s with log := s.log ++ [.used block] }

/-- `params->cleared`. -/
def ScriptTimers.cleared (block : Nat) (s : ScriptTimers) : Bool :=
  (s.blocks.getD block ⟨false⟩).cleared

/-- `ape_native_clear_timeout`, without the log. -/
def clearBlock (identifier : UInt32) (s : ScriptTimers) : ScriptTimers :=
  match getTimerIdentifier identifier s.ape with
  | none => s
  | some t =>
    if t.protect = 0 then { s.use t.params with blocks := s.blocks.set t.params ⟨true⟩ } else s

/-- The script timers in the list with an identifier. -/
def ScriptTimers.targets (identifier : UInt32) (s : ScriptTimers) : List Nat :=
  (s.ape.timers.filter fun t => isScript t ∧ t.identifier = identifier).map (·.params)

/-- `ape_native_clear_timeout`. -/
def apeNativeClearTimeout (identifier : UInt32) (s : ScriptTimers) : ScriptTimers :=
  let s' := clearBlock identifier s
  { s' with log := s'.log ++ [.clear (s.targets identifier) (s'.ape ≠ s.ape ∨ s'.blocks ≠ s.blocks)] }

/-- One command. -/
def exec (s : ScriptTimers) : Cmd → ScriptTimers
  | .setTimeout ms => apeNativeSetTimeout ms s
  | .setInterval ms => apeNativeSetInterval ms s
  | .clearTimeout identifier => apeNativeClearTimeout identifier s
  | .addTimeout ms func params =>
    { s with ape := addTimeout ms (func + 1) params id s.ape, created := s.created + 1 }
  | .addPeriodical ms times func params =>
    { s with ape := addPeriodical ms times (func + 1) params s.ape, created := s.created + 1 }

/-! ## The callbacks -/

section Callbacks

variable (env : Nat → Invocation)

/-- What an invocation does. -/
def invoke (s : ScriptTimers) : ScriptTimers :=
  (env s.ape.calls).cmds.foldl exec { s with ape := { s.ape with calls := s.ape.calls + 1 } }

/-- The call of the script's function by `JS_CallFunctionValue`, unless the timer was cleared. -/
def callFunction (block : Nat) (s : ScriptTimers) : ScriptTimers :=
  if s.cleared block then s else invoke env { s with log := s.log ++ [.invoked block] }

/-- The end of the wrapper: on the last call the block is freed. -/
def release (block : Nat) (last : Bool) (s : ScriptTimers) : ScriptTimers × Bool :=
  let last := last || s.cleared block
  let s := s.use block
  if last then ({ s with log := s.log ++ [.freed block] }, last) else (s, last)

/-- `ape_jsapi_timer_wrapper`; `last` is what `*last` is before and behind it. -/
def timerWrapper (block : Nat) (last : Bool) (s : ScriptTimers) : ScriptTimers × Bool :=
  release block last (callFunction env block (s.use block))

/-- A callback of a timer. -/
def callback (t : TicksCallback) (last : Bool) (s : ScriptTimers) : ScriptTimers × Bool :=
  if isScript t then timerWrapper env t.params last s
  else (invoke env s, last || (env s.ape.calls).setsLast)

/-- The body of the loop of `process_tick`, for a head whose delta is spent. -/
def fireHead (t : TicksCallback) (rest : List TicksCallback) (s : ScriptTimers) : ScriptTimers :=
  let (s', last) := callback env t (t.lastcall false)
    { s with ape := { s.ape with timers := t.called :: rest } }
  let unlinked := { s'.ape with timers := nextOf t.serial s'.ape.timers }
  { s' with ape := if last then unlinked else rearm t.called unlinked }

/-- `timers->delta++` on the new head. -/
def ScriptTimers.bump (s : ScriptTimers) : ScriptTimers :=
  { s with ape := { s.ape with timers := bumpHead s.ape.timers } }

/-- The loop of `process_tick`, for so many rounds at most, and whether it has returned. -/
def tickLoop : Nat → ScriptTimers → ScriptTimers × Bool
  | 0, s => (s, false)
  | fuel + 1, s =>
    match s.ape.timers with
    | [] => (s, true)
    | t :: rest =>
      let t := { t with delta := t.delta - 1 }
      if t.delta ≤ 0 then tickLoop fuel (fireHead env t rest s).bump
      else ({ s with ape := { s.ape with timers := t :: rest } }, true)

/-- What happens to the timers between two ticks, or a tick. -/
inductive ScriptOp where
  | cmd (c : Cmd)
  | tick
  deriving DecidableEq, Repr

/-- One operation, and whether it has returned. -/
def ScriptOp.exec (fuel : Nat) (s : ScriptTimers) : ScriptOp → ScriptTimers × Bool
  | .cmd c => (Ape.Script.exec s c, true)
  | .tick => tickLoop env fuel { s with ape := { s.ape with ticks := s.ape.ticks + 1 } }

/-- A run, up to an operation that has not returned. -/
def runOps (fuel : Nat) : List ScriptOp → ScriptTimers → ScriptTimers
  | [], s => s
  | op :: ops, s =>
    match op.exec env fuel s with
    | (s', true) => runOps fuel ops s'
    | (s', false) => s'

end Callbacks

end Ape.Script

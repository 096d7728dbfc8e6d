import ApeServer.Lib.DeltaList

/-!
# The timers of `ape_timers.c`

The server keeps its timers in one list sorted by deadline, each node storing in `delta` how many
ticks it lies behind the node in front of it.  `processTick` takes one tick off the head, runs
every node whose delta is spent and arms the periodic ones again; `addTimeout` and
`addPeriodical` insert a node, between ticks or from inside a callback.

The C integers are kept at their width: `delta`, `times` and `ticks_need` are `Int32`, delays and
identifiers `UInt32`, so the conversion of an `unsigned int` delay to the `int` field and every
subtraction wrap as they do on the supported builds.

Callbacks are arbitrary: an environment `Nat → CallbackRun` says, for each invocation in turn,
which timers the callback adds and whether it sets its `last` flag.  Node pointers are modelled by
the ghost field `serial`; the ghost log records every add and every invocation and is never read
by the code.
-/

namespace Ape.Timers

/-- `struct _ticks_callback`.  `func` and `params` are opaque pointers, `next` is the order of the
list, and `serial` is a ghost: it names the add that made the timer and survives re-arming. -/
structure TicksCallback where
  ticksNeed : Int32
  delta : Int32
  times : Int32
  identifier : UInt32
  protect : UInt32
  func : Nat
  params : Nat
  serial : Nat
  deriving DecidableEq, Repr, Inhabited

/-- A call of `add_timeout` or `add_periodical`. -/
inductive AddRequest where
  | timeout (msec : UInt32) (func params : Nat)
  | periodical (msec : UInt32) (times : Int32) (func params : Nat)
  deriving DecidableEq, Repr

namespace AddRequest

/-- The delay asked for. -/
def msec : AddRequest → UInt32
  | .timeout msec _ _ => msec
  | .periodical msec _ _ _ => msec

/-- How many invocations are asked for; `add_timeout` asks for one, zero or less means forever. -/
def times : AddRequest → Int32
  | .timeout _ _ _ => 1
  | .periodical _ times _ _ => times

/-- The opaque callback pointer. -/
def func : AddRequest → Nat
  | .timeout _ func _ => func
  | .periodical _ _ func _ => func

/-- The opaque argument pointer. -/
def params : AddRequest → Nat
  | .timeout _ _ params => params
  | .periodical _ _ _ params => params

end AddRequest

/-- What one invocation of a callback does: the timers it adds, in order, and whether it sets
`*last`. -/
structure CallbackRun where
  adds : List AddRequest
  setsLast : Bool
  deriving DecidableEq, Repr

/-- Ghost record of what happened.  `inside` is the delta of the node being fired when the add
comes from its callback. -/
inductive TimerEvent where
  | added (serial tick : Nat) (msec : UInt32) (times : Int32) (inside : Option Int32)
  | fired (serial tick : Nat) (setsLast : Bool)
  deriving DecidableEq, Repr

/-- The serial an event is about. -/
def TimerEvent.serial : TimerEvent → Nat
  | .added s _ _ _ _ => s
  | .fired s _ _ => s

/-- The tick of an event. -/
def TimerEvent.tick : TimerEvent → Nat
  | .added _ t _ _ _ => t
  | .fired _ t _ => t

/-- `ape->timers`, with the ghost counters: ticks so far, serials handed out, invocations so
far. -/
structure ApeTimers where
  timers : List TicksCallback
  ntimers : UInt32
  ticks : Nat
  serials : Nat
  calls : Nat
  log : List TimerEvent
  deriving DecidableEq, Repr

/-- The timers of a server that has just started. -/
def ApeTimers.init : ApeTimers := ⟨[], 0, 0, 0, 0, []⟩

/-! ## Adding a timer -/

/-- The walk of `add_timeout`: subtract the deltas passed, stop in front of the first node that is
not due earlier, and shorten that node by what is left. -/
def insertTimer (new : TicksCallback) : List TicksCallback → List TicksCallback
  | [] => [new]
  | t :: ts =>
    if new.delta ≤ t.delta then new :: { t with delta := t.delta - new.delta } :: ts
    else t :: insertTimer { new with delta := new.delta - t.delta } ts

/-- `add_timeout`.  `patch` is what the caller stores through the returned pointer; no caller
touches the delta, so storing before or after the insertion is the same. -/
def addTimeout (msec : UInt32) (func params : Nat) (patch : TicksCallback → TicksCallback)
    (g : ApeTimers) : ApeTimers :=
  let new : TicksCallback :=
    { ticksNeed := msec.toInt32, delta := msec.toInt32, times := 1, identifier := g.ntimers,
      protect := 1, func := func, params := params, serial := g.serials }
  { g with
    timers := insertTimer (patch new) g.timers
    ntimers := g.ntimers + 1
    serials := g.serials + 1 }

/-- `add_periodical`. -/
def addPeriodical (msec : UInt32) (times : Int32) (func params : Nat) (g : ApeTimers) :
    ApeTimers :=
  addTimeout msec func params (fun t => { t with times := times }) g

/-- Serve a request and record it. -/
def serve (inside : Option Int32) (r : AddRequest) (g : ApeTimers) : ApeTimers :=
  let g' := match r with
    | .timeout msec func params => addTimeout msec func params id g
    | .periodical msec times func params => addPeriodical msec times func params g
  { g' with log := g.log ++ [.added g.serials g.ticks r.msec r.times inside] }

/-! ## One tick -/

/-- What is reachable behind the node `serial`: its `next` chain. -/
def nextOf (serial : Nat) (l : List TicksCallback) : List TicksCallback :=
  (l.dropWhile fun t => t.serial != serial).tail

/-- The delta of the node `serial` where it stands now. -/
def deltaOf (serial : Nat) (l : List TicksCallback) : Option Int32 :=
  (l.find? fun t => t.serial == serial).map TicksCallback.delta

/-- An add made from inside the callback of the node `serial`. -/
def serveInside (serial : Nat) (g : ApeTimers) (r : AddRequest) : ApeTimers :=
  serve (deltaOf serial g.timers) r g

/-- Arm a fired timer again: a new node with its period, which takes over the identifier, the
remaining times and the protection. -/
def rearm (t : TicksCallback) (g : ApeTimers) : ApeTimers :=
  let g' := addTimeout t.ticksNeed.toUInt32 t.func t.params
    (fun new => { new with
      identifier := t.identifier, times := t.times, protect := t.protect, serial := t.serial }) g
  { g' with ntimers := g'.ntimers - 1 }

/-- The node after `--timers->times`, which is skipped when the timer runs forever. -/
def TicksCallback.called (t : TicksCallback) : TicksCallback :=
  { t with times := if 0 < t.times then t.times - 1 else t.times }

/-- `lastcall` as it stands once the callback has returned. -/
def TicksCallback.lastcall (t : TicksCallback) (setsLast : Bool) : Bool :=
  (decide (0 < t.times) && decide (t.called.times = 0)) || setsLast

/-- The body of the loop of `process_tick` for a head `t` whose delta has just been found spent:
count the invocation, run the callback, unlink the node and arm it again unless this was its last
call. -/
def fireHead (env : Nat → CallbackRun) (t : TicksCallback) (rest : List TicksCallback)
    (g : ApeTimers) : ApeTimers :=
  let run := env g.calls
  let called := { g with
    timers := t.called :: rest
    calls := g.calls + 1
    log := g.log ++ [.fired t.serial g.ticks run.setsLast] }
  let after := run.adds.foldl (serveInside t.serial) called
  let unlinked := { after with timers := nextOf t.serial after.timers }
  if t.lastcall run.setsLast then unlinked else rearm t.called unlinked

/-- `timers->delta++` on the new head. -/
def bumpHead : List TicksCallback → List TicksCallback
  | [] => []
  | t :: ts => { t with delta := t.delta + 1 } :: ts

/-- The loop of `process_tick`, with fuel; `none` means that it is still running. -/
def tickLoop (env : Nat → CallbackRun) : Nat → ApeTimers → Option ApeTimers
  | 0, _ => none
  | fuel + 1, g =>
    match g.timers with
    | [] => some g
    | t :: rest =>
      let t := { t with delta := t.delta - 1 }
      if t.delta ≤ 0 then
        let g' := fireHead env t rest g
        tickLoop env fuel { g' with timers := bumpHead g'.timers }
      else some { g with timers := t :: rest }

/-- `process_tick`. -/
def processTick (env : Nat → CallbackRun) (fuel : Nat) (g : ApeTimers) : Option ApeTimers :=
  tickLoop env fuel { g with ticks := g.ticks + 1 }

/-! ## Runs -/

/-- What the server does with its timers: an add made between two ticks, or a tick. -/
inductive TimerOp where
  | add (r : AddRequest)
  | tick
  deriving DecidableEq, Repr

/-- One operation. -/
def TimerOp.exec (env : Nat → CallbackRun) (fuel : Nat) (g : ApeTimers) :
    TimerOp → Option ApeTimers
  | .add r => some (serve none r g)
  | .tick => processTick env fuel g

/-- A sequence of operations; `none` when some tick is still running. -/
def runOps (env : Nat → CallbackRun) (fuel : Nat) : List TimerOp → ApeTimers → Option ApeTimers
  | [], g => some g
  | op :: ops, g => (op.exec env fuel g).bind (runOps env fuel ops)

end Ape.Timers

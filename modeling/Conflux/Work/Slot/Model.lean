import Conflux.Work.Control.Model

/-!
# Droppable slot

A droppable slot owns the join handle of a task and drains it when it is destroyed unconsumed:
the function registered with `on_drop` gets the outcome, at once or from a callback of the
task. Awaiting a slot moves the handle to an awaiter, whose callback resumes the coroutine and
whose destructor drains in the same way.

The control block is the one of the task. Its threads are those that complete the task or ask it
to cancel, the thread of the slot, and the calls that a callback makes. Joining a ready task is
one step here: the loads before its section find what the section finds.
-/

namespace Conflux.Work.Slot

open Conflux.Core (Threads)
open Conflux.Work.Control

variable {ι T E C : Type}

/-! ## What the calls on the block return -/

/-- The answers of `try_set_on_ready`. -/
inductive ReadyRegistration where
  | installed
  | alreadyReady
  | alreadyInstalled
  deriving DecidableEq, Repr

/-- What `try_set_on_ready` returns with the next step, if the call ends there. -/
def registration (b : Block T E C) : Control.Pc T E C → Option ReadyRegistration
  | .readyLoad _ => if b.readyHookState = .terminal then some .alreadyReady else none
  | .readyLock _ =>
    if b.locked then none
    else match b.readyHookState with
      | .open => none
      | .armed | .disarmed => some .alreadyInstalled
      | .committing | .terminal => some .alreadyReady
  | .readyCas _ => some (if b.readyHookState = .open then .installed else .alreadyReady)
  | _ => none

/-- The answers of `clear_on_ready`. -/
inductive ClearOnReadyStatus where
  | cleared
  | alreadyTerminal
  | inFlight
  | notArmed
  deriving DecidableEq, Repr

/-- What `clear_on_ready` returns with the next step, if the call ends there. -/
def clearStatus (b : Block T E C) : Control.Pc T E C → Option ClearOnReadyStatus
  | .clearLoad =>
    match b.readyHookState with
    | .armed => none
    | .terminal => some .alreadyTerminal
    | .committing => some .inFlight
    | .open | .disarmed => some .notArmed
  | .clearLock =>
    if b.locked then none
    else match b.readyHookState with
      | .armed => some .cleared
      | .terminal => some .alreadyTerminal
      | .committing => some .inFlight
      | .open | .disarmed => some .notArmed
  | _ => none

/-! ## Slot and awaiter -/

/-- Who makes calls on the control block. -/
inductive Who (ι : Type) where
  /-- a thread that completes the task or asks it to cancel -/
  | task (i : ι)
  /-- the thread of the slot or awaiter -/
  | owner
  /-- a callback that is run by a completing thread -/
  | callback
  deriving DecidableEq, Repr

/-- Where the slot or the awaiter is. -/
inductive Place where
  /-- an unconsumed slot -/
  | slot
  /-- `try_get()` -/
  | tryGet
  /-- `wait()` -/
  | wait
  /-- `drain_()` -/
  | drain
  /-- `drain_()`, the task being ready -/
  | drainJoin
  /-- an awaiter that has not been suspended -/
  | awaiter
  /-- `await_resume()` -/
  | resumeJoin
  /-- in `await_suspend()`, the registration -/
  | suspend
  /-- in `await_suspend()`, `callback_installed_ = true` -/
  | installed
  /-- a suspended awaiter -/
  | suspended
  /-- in the destructor of the awaiter, `clear_on_ready()` -/
  | clear
  /-- the registration of the drain function -/
  | drop
  /-- `result.rejected_fn()` -/
  | rejected
  /-- consumed or destroyed -/
  | «over»
  /-- a join has thrown -/
  | raised
  /-- `std::terminate()` -/
  | terminated
  deriving DecidableEq, Repr

/-- The life of a slot. -/
structure Life (ι T E C : Type) where
  /-- The control block of the task and who is at it. -/
  control : Threads (Who ι) (Block T E C) (Control.Pc T E C) := Block.fresh
  place : Place := .slot
  /-- A function was registered with `on_drop`. -/
  onDrop : Bool := false
  callbackInstalled : Bool := false
  /-- The number of the callback that drains; any other resumes the coroutine. -/
  drainFn : Option Nat := none
  /-- Outcomes given out by `try_get`, `wait` or resumption. -/
  consumed : List (Outcome T E) := []
  /-- Outcomes taken by a drain, and those that the registered function received. -/
  drained : List (Outcome T E) := []
  dropped : List (Outcome T E) := []
  /-- The awaiter was destroyed while its own callback was executing. -/
  overlap : Bool := false

/-- What the owner of the slot or the coroutine does next, where it has a choice. -/
inductive Choice where
  | onDrop
  | tryGet
  | wait
  | coAwait
  | await
  | destroy
  deriving DecidableEq, Repr

/-- What the other threads ask of the task. -/
inductive TaskRequest (T E C : Type) where
  | trySetOutcome (o : Outcome T E)
  | requestCancel (reason : CancelReason)
  | installCancelHook (given : Bool)
  | bindChildForCancellation (child : Option C)
  deriving DecidableEq, Repr

/-- The call on the control block. -/
def TaskRequest.request : TaskRequest T E C → Request T E C
  | .trySetOutcome o => .trySetOutcome o
  | .requestCancel reason => .requestCancel reason
  | .installCancelHook given => .installCancelHook given
  | .bindChildForCancellation child => .bindChildForCancellation child

/-- A step of the slot's thread or of another one. -/
inductive Move (ι T E C : Type) where
  | own (choice : Choice)
  | task (i : ι) (request : TaskRequest T E C)
  deriving DecidableEq, Repr

namespace Life

variable [DecidableEq ι]

/-- The control block. -/
def block (s : Life ι T E C) : Block T E C := s.control.shared

/-- The next step of a call of the owner. -/
def call (s : Life ι T E C) (request : Request T E C) : Life ι T E C :=
  { s with control := s.control.fire Block.step (.owner, request) }

/-- `join_ready`, which throws if the task is not ready or its outcome is gone. -/
def join (s : Life ι T E C) (who : Who ι) (joined : Outcome T E → Life ι T E C → Life ι T E C) :
    Life ι T E C :=
  if s.block.terminalState = .none then { s with place := .raised }
  else if s.block.locked then s
  else match s.block.outcome with
    | none => { s with place := .raised }
    | some o =>
      let control := s.control.run Block.step (List.replicate 3 (who, .tryTakeReadyOutcome))
      joined o { s with control }

/-- The outcome goes to the caller. -/
def consume (o : Outcome T E) (s : Life ι T E C) : Life ι T E C :=
  { s with place := .over, consumed := s.consumed ++ [o] }

/-- The outcome goes to the function registered with `on_drop`. -/
def deliver (o : Outcome T E) (s : Life ι T E C) : Life ι T E C :=
  { s with place := .over, drained := s.drained ++ [o]
           dropped := s.dropped ++ if s.onDrop then [o] else [] }

/-- The registration of the drain function starts. -/
def offer (s : Life ι T E C) : Life ι T E C :=
  { s.call (.trySetOnReady true) with
    place := .drop, drainFn := some s.block.seen.callbacks }

/-- A step of the slot, of the awaiter or of one of their destructors. -/
def own (s : Life ι T E C) (choice : Choice) : Life ι T E C :=
  match s.place with
  | .slot =>
    match choice with
    | .onDrop => { s with onDrop := true }
    | .tryGet => { s with place := .tryGet }
    | .wait => { s with place := .wait }
    | .coAwait => { s with place := .awaiter }
    | .destroy => { s with place := .drain }
    | .await => s
  | .tryGet =>
    if s.block.terminalState = .none then { s with place := .slot } else s.join .owner consume
  | .wait => if s.block.terminalState = .none then s else s.join .owner consume
  | .drain =>
    if s.block.terminalState = .none then s.offer else { s with place := .drainJoin }
  | .drainJoin | .rejected => s.join .owner deliver
  | .awaiter =>
    match choice with
    | .await =>
      if s.block.terminalState = .none then
        { s.call (.trySetOnReady true) with place := .suspend }
      else { s with place := .resumeJoin }
    | .destroy => s.offer
    | _ => s
  | .resumeJoin => s.join .owner consume
  | .suspend =>
    let place := match registration s.block (s.control.pc .owner) with
      | some .installed => .installed
      | some .alreadyReady | some .alreadyInstalled => .resumeJoin
      | none => .suspend
    { s.call (.trySetOnReady true) with place }
  | .installed =>
    -- the coroutine may have been resumed by then, on a completing thread
    { s with callbackInstalled := true
             place := if s.consumed = [] then .suspended else .over }
  | .suspended =>
    match choice with
    | .destroy =>
      if s.callbackInstalled then { s.call .clearOnReady with place := .clear } else s.offer
    | _ => s
  | .clear =>
    match clearStatus s.block (s.control.pc .owner) with
    -- what follows, the handle being abandoned, is not modelled
    | some .inFlight => { s.call .clearOnReady with place := .over, overlap := true }
    | some .cleared | some .alreadyTerminal | some .notArmed => (s.call .clearOnReady).offer
    | none => s.call .clearOnReady
  | .drop =>
    let place := match registration s.block (s.control.pc .owner) with
      | some .installed => .over
      | some .alreadyReady => .rejected
      | some .alreadyInstalled => .terminated
      | none => .drop
    { s.call (.trySetOnReady true) with place }
  | .over | .raised | .terminated => s

/-- The coroutine is resumed and consumes the outcome. -/
def resume (o : Outcome T E) (s : Life ι T E C) : Life ι T E C :=
  { s with
    callbackInstalled := false
    consumed := s.consumed ++ [o]
    place := if s.place = .suspended then .over else s.place
    overlap := s.overlap || (s.place != .suspended && s.place != .installed) }

/-- What a callback does with the outcome it has joined. -/
def finishCallback (i : ι) (fn : Nat) (o : Outcome T E) (s : Life ι T E C) : Life ι T E C :=
  let s := { s with control := s.control.fire Block.step (.task i, .clearOnReady) }
  if s.drainFn = some fn then deliver o s else resume o s

/-- A completing thread runs a callback. -/
def runCallback (s : Life ι T E C) (i : ι) (fn : Nat) : Life ι T E C :=
  s.join .callback (finishCallback i fn)

/-- A step of a thread that completes the task or asks it to cancel. -/
def task (s : Life ι T E C) (i : ι) (request : TaskRequest T E C) : Life ι T E C :=
  match s.control.pc (.task i) with
  | .runReady (some fn) => s.runCallback i fn
  | _ => { s with control := s.control.fire Block.step (.task i, request.request) }

/-- A step of any thread, unless the program was terminated. -/
def step (s : Life ι T E C) (m : Move ι T E C) : Life ι T E C :=
  if s.place = .terminated then s
  else match m with
    | .own choice => s.own choice
    | .task i request => s.task i request

/-- An interleaving from a new slot on. -/
def run (moves : List (Move ι T E C)) : Life ι T E C :=
  moves.foldl step {}

end Life

end Conflux.Work.Slot

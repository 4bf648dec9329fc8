import Conflux.Core.Interleave

/-!
# Control block of a task

A control block stores the outcome of a task, runs the callback that waits for it, passes a
cancel request on to a hook and to a child, and gives the outcome to the one who takes it or to
the sink of an abandoned task. A call is a sequence of steps: each atomic operation and each
section under the mutex is one. Registering a callback makes two of its section, since
completion goes from `open` to `committing` without the mutex.

Callbacks are numbered by the calls that bring them. What has happened so far is kept beside the
block and read by no call.
-/

namespace Conflux.Work.Control

open Conflux.Core (Threads)

/-- Why a task is cancelled. -/
inductive CancelReason where
  | requested
  | abandoned
  | shutdown
  | deadline
  deriving DecidableEq, Repr

/-- How a task ended. -/
inductive Outcome (T E : Type) where
  | success (value : T)
  | failure (error : E)
  | cancelled (reason : CancelReason)
  deriving DecidableEq, Repr

/-- The published state of a task. -/
inductive TerminalState where
  | none
  | success
  | failure
  | cancelled
  deriving DecidableEq, Repr

/-- The state that an outcome publishes. -/
def Outcome.terminalState {T E : Type} : Outcome T E → TerminalState
  | .success _ => .success
  | .failure _ => .failure
  | .cancelled _ => .cancelled

/-- The states of the ready hook. -/
inductive ReadyHookState where
  | open
  | armed
  | committing
  | terminal
  | disarmed
  deriving DecidableEq, Repr

/-- What has happened to a block, each kind of event in its order. -/
structure Seen (T E C : Type) where
  /-- Callbacks that were brought so far. -/
  callbacks : Nat := 0
  /-- Completion attempts that returned true, and those that returned false. -/
  completed : List (Outcome T E) := []
  refused : List (Outcome T E) := []
  /-- The completing call has returned. -/
  finished : Bool := false
  /-- Callbacks reported as installed, handed back, reported as cleared, and run. -/
  installed : List Nat := []
  rejected : List Nat := []
  cleared : List Nat := []
  ran : List Nat := []
  /-- Outcomes given to a taker or to the sink. -/
  handed : List (Outcome T E) := []
  /-- Accepted cancel requests, and the reasons that the cancel hook was run with. -/
  accepted : List CancelReason := []
  hookRan : List CancelReason := []
  /-- Children that were bound, and the cancel requests made to children. -/
  bound : List C := []
  asked : List (C × CancelReason) := []
  deriving DecidableEq, Repr

/-- A control block. Of the functions it holds, only that they are there matters. -/
structure Block (T E C : Type) where
  terminalState : TerminalState := .none
  readyHookState : ReadyHookState := .open
  cancelRequested : Bool := false
  cancellationReason : CancelReason := .requested
  terminalClaimed : Bool := false
  /-- The mutex is held between two steps of one section. -/
  locked : Bool := false
  outcome : Option (Outcome T E) := none
  onReadyFn : Option Nat := none
  hookFn : Bool := false
  abandonSink : Bool := false
  hookInstalled : Bool := false
  hookClaimed : Bool := false
  abandoned : Bool := false
  activeChildCancel : Option C := none
  activeChildGeneration : Nat := 0
  seen : Seen T E C := {}
  deriving DecidableEq, Repr

/-- Where a thread is: between two calls, or before a step of a call. -/
inductive Pc (T E C : Type) where
  | idle
  /-- `try_claim_terminal()` -/
  | claim (o : Outcome T E)
  /-- the section that stores the outcome -/
  | publish (o : Outcome T E)
  /-- `compare_exchange_strong(open, committing)` -/
  | fireCas
  /-- the section that takes the callback -/
  | fireLock
  /-- `fn()` -/
  | runReady (fn : Option Nat)
  /-- `ready_hook_state_.store(terminal)` -/
  | storeTerminal
  /-- the section of a callback that was cleared -/
  | storeDisarmed
  /-- the section of `run_abandon_path_if_present` -/
  | abandonPath (completing : Bool)
  /-- `sink(*local)` -/
  | runSink (o : Outcome T E) (completing : Bool)
  /-- the load before the section of `try_set_on_ready` -/
  | readyLoad (fn : Nat)
  /-- its section, up to the store of the callback -/
  | readyLock (fn : Nat)
  /-- `compare_exchange_strong(open, armed)` and the end of the section -/
  | readyCas (fn : Nat)
  /-- the load before the section of `clear_on_ready` -/
  | clearLoad
  /-- its section -/
  | clearLock
  /-- the section of `request_cancel` -/
  | cancelLock (reason : CancelReason)
  /-- `child->request_cancel(reason)` -/
  | askChild (child : C) (reason : CancelReason) (cancelling : Bool)
  /-- the section of `claim_requested_hook_if_present` -/
  | claimHook (reason : CancelReason)
  /-- the load of `terminal_claimed_` before the hook is run -/
  | hookCheck (reason : CancelReason)
  /-- `fn(reason)` -/
  | hookRun (reason : CancelReason)
  /-- the section of `install_cancel_hook` -/
  | hookLock
  /-- the load of `terminal_claimed_` before the new hook is run -/
  | hookNowCheck
  /-- the load of the reason for the new hook -/
  | hookNowLoad
  /-- the section of `bind_child_for_cancellation` -/
  | bindLock (child : C)
  /-- the load before the section of `try_take_ready_outcome` -/
  | takeLoad
  /-- its section -/
  | takeLock
  /-- the section of `try_install_abandon_sink` -/
  | sinkLock
  deriving DecidableEq, Repr

/-- What a thread between two calls may do. A function or child that is not there is refused at
once. -/
inductive Request (T E C : Type) where
  | trySetOutcome (o : Outcome T E)
  | trySetOnReady (given : Bool)
  | clearOnReady
  | requestCancel (reason : CancelReason)
  | installCancelHook (given : Bool)
  | bindChildForCancellation (child : Option C)
  | tryTakeReadyOutcome
  | tryInstallAbandonSink (given : Bool)
  deriving DecidableEq, Repr

namespace Block

variable {T E C : Type}

/-- Change the record of what has happened. -/
def note (b : Block T E C) (f : Seen T E C → Seen T E C) : Block T E C :=
  { b with seen := f b.seen }

/-- The start of a call. -/
def start (b : Block T E C) : Request T E C → Block T E C × Pc T E C
  | .trySetOutcome o => (b, .claim o)
  | .trySetOnReady given =>
    let b' := b.note fun seen => { seen with callbacks := seen.callbacks + 1 }
    if given then (b', .readyLoad b.seen.callbacks)
    else (b'.note fun seen => { seen with rejected := seen.rejected ++ [b.seen.callbacks] }, .idle)
  | .clearOnReady => (b, .clearLoad)
  | .requestCancel reason => (b, .cancelLock reason)
  | .installCancelHook given => (b, if given then .hookLock else .idle)
  | .bindChildForCancellation none => (b, .idle)
  | .bindChildForCancellation (some child) => (b, .bindLock child)
  | .tryTakeReadyOutcome => (b, .takeLoad)
  | .tryInstallAbandonSink given => (b, if given then .sinkLock else .idle)

/-- A callback goes back to the caller. -/
def reject (b : Block T E C) (fn : Nat) : Block T E C :=
  b.note fun seen => { seen with rejected := seen.rejected ++ [fn] }

/-- The completing call returns. -/
def finish (b : Block T E C) (completing : Bool) : Block T E C :=
  if completing then b.note fun seen => { seen with finished := true } else b

/-- A section under the mutex, which waits while the mutex is held. -/
def underMutex (b : Block T E C) (pc : Pc T E C) (body : Block T E C × Pc T E C) :
    Block T E C × Pc T E C :=
  if b.locked then (b, pc) else body

/-- The next step of a call. -/
def go (b : Block T E C) (pc : Pc T E C) : Block T E C × Pc T E C :=
  match pc with
  | .idle => (b, .idle)
  | .claim o =>
    if b.terminalClaimed then
      (b.note fun seen => { seen with refused := seen.refused ++ [o] }, .idle)
    else
      ({ b with terminalClaimed := true }.note
        fun seen => { seen with completed := seen.completed ++ [o] }, .publish o)
  | .publish o =>
    b.underMutex pc
      ({ b with outcome := some o, hookFn := false, activeChildCancel := none
                terminalState := o.terminalState }, .fireCas)
  | .fireCas =>
    match b.readyHookState with
    | .open => ({ b with readyHookState := .committing }, .storeTerminal)
    | .armed => (b, .fireLock)
    | .disarmed => (b, .storeDisarmed)
    | .committing | .terminal => (b, .abandonPath true)
  | .fireLock =>
    b.underMutex pc <| match b.readyHookState with
      | .armed =>
        ({ b with onReadyFn := none, readyHookState := .committing }, .runReady b.onReadyFn)
      | .disarmed => ({ b with readyHookState := .terminal }, .abandonPath true)
      | .open | .committing | .terminal => (b, .abandonPath true)
  | .runReady fn =>
    (b.note fun seen => { seen with ran := seen.ran ++ fn.toList }, .storeTerminal)
  | .storeTerminal => ({ b with readyHookState := .terminal }, .abandonPath true)
  | .storeDisarmed => b.underMutex pc ({ b with readyHookState := .terminal }, .abandonPath true)
  | .abandonPath completing =>
    b.underMutex pc <| match b.abandoned && b.abandonSink, b.outcome with
      | true, some o => ({ b with abandonSink := false, outcome := none }, .runSink o completing)
      | _, _ => (b.finish completing, .idle)
  | .runSink o completing =>
    ((b.note fun seen => { seen with handed := seen.handed ++ [o] }).finish completing, .idle)
  | .readyLoad fn =>
    if b.readyHookState = .terminal then (b.reject fn, .idle) else (b, .readyLock fn)
  | .readyLock fn =>
    b.underMutex pc <|
      if b.readyHookState = .open then
        ({ b with onReadyFn := some fn, locked := true }, .readyCas fn)
      else (b.reject fn, .idle)
  | .readyCas fn =>
    if b.readyHookState = .open then
      ({ b with readyHookState := .armed, locked := false }.note
        fun seen => { seen with installed := seen.installed ++ [fn] }, .idle)
    else ({ b with onReadyFn := none, locked := false }.reject fn, .idle)
  | .clearLoad => (b, if b.readyHookState = .armed then .clearLock else .idle)
  | .clearLock =>
    b.underMutex pc <|
      if b.readyHookState = .armed then
        ({ b with onReadyFn := none, readyHookState := .disarmed }.note
          fun seen => { seen with cleared := seen.cleared ++ b.onReadyFn.toList }, .idle)
      else (b, .idle)
  | .cancelLock reason =>
    b.underMutex pc <|
      if b.terminalClaimed || b.cancelRequested then (b, .idle)
      else
        ({ b with cancellationReason := reason, cancelRequested := true }.note
          fun seen => { seen with accepted := seen.accepted ++ [reason] },
          match b.activeChildCancel with
          | some child => .askChild child reason true
          | none => .claimHook reason)
  | .askChild child reason cancelling =>
    (b.note fun seen => { seen with asked := seen.asked ++ [(child, reason)] },
      if cancelling then .claimHook reason else .idle)
  | .claimHook reason =>
    b.underMutex pc <|
      if !b.hookInstalled || b.hookClaimed || b.terminalClaimed then (b, .idle)
      else
        ({ b with hookClaimed := true, hookFn := false },
          if b.hookFn then .hookCheck reason else .idle)
  | .hookCheck reason => (b, if b.terminalClaimed then .idle else .hookRun reason)
  | .hookRun reason =>
    (b.note fun seen => { seen with hookRan := seen.hookRan ++ [reason] }, .idle)
  | .hookLock =>
    b.underMutex pc <|
      if b.hookInstalled || b.terminalClaimed then (b, .idle)
      else if !b.hookClaimed && b.cancelRequested then
        ({ b with hookInstalled := true, hookClaimed := true, hookFn := false }, .hookNowCheck)
      else ({ b with hookInstalled := true, hookFn := true }, .idle)
  | .hookNowCheck => (b, if b.terminalClaimed then .idle else .hookNowLoad)
  | .hookNowLoad => (b, .hookRun b.cancellationReason)
  | .bindLock child =>
    b.underMutex pc <|
      if b.activeChildCancel.isSome then (b, .idle)
      else
        ({ b with activeChildGeneration := b.activeChildGeneration + 1
                  activeChildCancel := some child }.note
          fun seen => { seen with bound := seen.bound ++ [child] },
          if b.cancelRequested then .askChild child b.cancellationReason false else .idle)
  | .takeLoad => (b, if b.terminalState = .none then .idle else .takeLock)
  | .takeLock =>
    b.underMutex pc <| match b.outcome with
      | some o =>
        if b.terminalState = .none then (b, .idle)
        else ({ b with outcome := none }.note
          fun seen => { seen with handed := seen.handed ++ [o] }, .idle)
      | none => (b, .idle)
  | .sinkLock =>
    b.underMutex pc <|
      if b.abandoned then (b, .idle)
      else ({ b with abandoned := true, abandonSink := true }, .abandonPath false)

/-- A thread between two calls starts one, another goes on with its call. -/
def step (request : Request T E C) (b : Block T E C) (pc : Pc T E C) :
    Block T E C × Pc T E C :=
  match pc with
  | .idle => b.start request
  | pc => b.go pc

end Block

/-- Threads at a new block, all of them between two calls. -/
def Block.fresh {ι T E C : Type} : Threads ι (Block T E C) (Pc T E C) where
  shared := {}
  pc _ := .idle

end Conflux.Work.Control

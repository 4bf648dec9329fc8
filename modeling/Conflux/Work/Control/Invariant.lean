import Conflux.Work.Control.Model

/-!
# What every interleaving of calls on a control block keeps

One completion attempt wins and goes through the phases of completion; one thread at a time holds
the mutex between two steps; each callback is in the hands of one call; one thread at most has the
cancel hook, and one at most carries the outcome to the sink.
-/

namespace Conflux.Work.Control

open Option

variable {T E C : Type}

/-! ## Roles -/

namespace Pc

/-- The thread is past a successful claim of its completion attempt. -/
@[simp] def winning : Pc T E C → Bool
  | .publish _ | .fireCas | .fireLock | .runReady _ | .storeTerminal | .storeDisarmed => true
  | .abandonPath completing | .runSink _ completing => completing
  | _ => false

/-- The thread holds the mutex, with its callback stored. -/
@[simp] def held : Pc T E C → Option Nat
  | .readyCas fn => some fn
  | _ => none

/-- The callback that the thread brings. -/
@[simp] def callback : Pc T E C → Option Nat
  | .readyLoad fn | .readyLock fn | .readyCas fn => some fn
  | _ => none

/-- The thread has taken the cancel hook. -/
@[simp] def hooking : Pc T E C → Bool
  | .hookCheck _ | .hookRun _ | .hookNowCheck | .hookNowLoad => true
  | _ => false

/-- The reason that the thread passes on. -/
@[simp] def reason : Pc T E C → Option CancelReason
  | .askChild _ reason _ | .claimHook reason | .hookCheck reason | .hookRun reason => some reason
  | _ => none

/-- The outcome that the thread takes to the sink. -/
@[simp] def carried : Pc T E C → Option (Outcome T E)
  | .runSink o _ => some o
  | _ => none

end Pc

/-- Two threads share no role. -/
structure Apart (k k' : Pc T E C) : Prop where
  winning : ¬ (k.winning = true ∧ k'.winning = true) := by simp
  held : ¬ (k.held.isSome ∧ k'.held.isSome) := by simp
  callback : ∀ fn, k.callback = some fn → k'.callback ≠ some fn := by simp
  hooking : ¬ (k.hooking = true ∧ k'.hooking = true) := by simp
  carried : ¬ (k.carried.isSome ∧ k'.carried.isSome) := by simp

theorem Apart.symm {k k' : Pc T E C} (h : Apart k k') : Apart k' k where
  winning hk := h.winning hk.symm
  held hk := h.held hk.symm
  callback fn hk hk' := h.callback fn hk' hk
  hooking hk := h.hooking hk.symm
  carried hk := h.carried hk.symm

/-- The roles of one place are among those of another. -/
structure Pc.Within (k k' : Pc T E C) : Prop where
  winning : k.winning = true → k'.winning = true := by simp
  held : k.held.isSome → k'.held.isSome := by simp
  callback : ∀ fn, k.callback = some fn → k'.callback = some fn := by simp
  hooking : k.hooking = true → k'.hooking = true := by simp
  carried : k.carried.isSome → k'.carried.isSome := by simp

theorem Apart.mono {k k' k₂ : Pc T E C} (h : Apart k k') (hk : k₂.Within k) : Apart k₂ k' where
  winning hw := h.winning ⟨hk.winning hw.1, hw.2⟩
  held hh := h.held ⟨hk.held hh.1, hh.2⟩
  callback fn hfn := h.callback fn (hk.callback fn hfn)
  hooking hh := h.hooking ⟨hk.hooking hh.1, hh.2⟩
  carried hc := h.carried ⟨hk.carried hc.1, hc.2⟩

/-! ## The block -/

/-- The callback that was installed, if any, was cleared or has run. -/
def Settled (seen : Seen T E C) : Prop :=
  (seen.installed = [] ∧ seen.cleared = [] ∧ seen.ran = []) ∨
    ∃ fn, seen.installed = [fn] ∧
      (seen.cleared = [fn] ∧ seen.ran = [] ∨ seen.cleared = [] ∧ seen.ran = [fn])

/-- What each state of the ready hook says about callbacks. -/
def ReadyOk (b : Block T E C) : Prop :=
  match b.readyHookState with
  | .open => b.seen.installed = [] ∧ b.seen.cleared = [] ∧ b.seen.ran = []
  | .armed => ∃ fn, b.onReadyFn = some fn ∧ b.seen.installed = [fn] ∧ b.seen.cleared = [] ∧
      b.seen.ran = []
  | .disarmed => ∃ fn, b.seen.installed = [fn] ∧ b.seen.cleared = [fn] ∧ b.seen.ran = []
  | .committing => b.terminalState ≠ .none ∧
      ((b.seen.installed = [] ∧ b.seen.cleared = [] ∧ b.seen.ran = []) ∨
        ∃ fn, b.seen.installed = [fn] ∧ b.seen.cleared = [] ∧
          (b.seen.ran = [] ∨ b.seen.ran = [fn]))
  | .terminal => b.terminalState ≠ .none ∧ Settled b.seen

/-- The invariant of the block alone. -/
structure BlockInv (b : Block T E C) : Prop where
  /-- One attempt has won, or none was decided. -/
  claimed : b.terminalClaimed = false ∧ b.seen.completed = [] ∧ b.seen.refused = [] ∨
    b.terminalClaimed = true ∧ ∃ o, b.seen.completed = [o]
  /-- Nothing to hand out before the outcome is stored. -/
  pending : b.terminalState = .none → b.outcome = none ∧ b.seen.handed = []
  /-- The state is that of the winner's outcome. -/
  published : b.terminalState ≠ .none →
    ∃ o, b.seen.completed = [o] ∧ b.terminalState = o.terminalState
  outcome : ∀ o, b.outcome = some o → b.seen.completed = [o] ∧ b.seen.handed = []
  handed : b.seen.handed = [] ∨ ∃ o, b.seen.handed = [o] ∧ b.seen.completed = [o]
  ready : ReadyOk b
  numbered : ∀ fn ∈ b.seen.installed ++ b.seen.rejected, fn < b.seen.callbacks
  rejected : ∀ fn ∈ b.seen.rejected, fn ∉ b.seen.installed
  finished : b.seen.finished = true → b.readyHookState = .terminal
  requested : b.cancelRequested = false ∧ b.seen.accepted = [] ∨
    b.cancelRequested = true ∧ b.seen.accepted = [b.cancellationReason]
  hookRan : b.seen.hookRan = [] ∨ ∃ r, b.seen.hookRan = [r] ∧ b.seen.accepted = [r]
  hookIdle : b.hookClaimed = false → b.seen.hookRan = []
  /-- Until a request is accepted, a child that was bound is the active one. -/
  bound : b.cancelRequested = false → b.terminalState = .none →
    ∀ c ∈ b.seen.bound, b.activeChildCancel = some c

/-! ## Each thread -/

/-- What a thread in a phase of completion knows. -/
def Phase (b : Block T E C) : Pc T E C → Prop
  | .publish o => b.seen.completed = [o] ∧ b.terminalState = .none
  | .fireCas => b.terminalState ≠ .none ∧ b.readyHookState ≠ .committing ∧
      b.readyHookState ≠ .terminal
  | .fireLock => b.terminalState ≠ .none ∧
      (b.readyHookState = .armed ∨ b.readyHookState = .disarmed)
  | .runReady fn => b.terminalState ≠ .none ∧ b.readyHookState = .committing ∧
      ∃ g, fn = some g ∧ b.seen.installed = [g] ∧ b.seen.cleared = [] ∧ b.seen.ran = []
  | .storeTerminal => b.terminalState ≠ .none ∧ b.readyHookState = .committing ∧ Settled b.seen
  | .storeDisarmed => b.terminalState ≠ .none ∧ b.readyHookState = .disarmed
  | .abandonPath true | .runSink _ true => b.readyHookState = .terminal
  | _ => True

/-- What a thread knows about the block. -/
structure Local (b : Block T E C) (k : Pc T E C) : Prop where
  winning : k.winning = true → b.terminalClaimed = true ∧ b.seen.finished = false := by simp
  phase : Phase b k := by trivial
  held : ∀ fn, k.held = some fn → b.locked = true ∧ b.onReadyFn = some fn ∧
    b.readyHookState ≠ .armed ∧ b.readyHookState ≠ .disarmed := by simp
  callback : ∀ fn, k.callback = some fn →
    fn < b.seen.callbacks ∧ fn ∉ b.seen.installed ∧ fn ∉ b.seen.rejected := by simp
  hooking : k.hooking = true → b.hookClaimed = true ∧ b.seen.hookRan = [] ∧
    b.cancelRequested = true := by simp
  reason : ∀ r, k.reason = some r → b.seen.accepted = [r] := by simp
  carried : ∀ o, k.carried = some o → b.outcome = none ∧ b.seen.handed = [] ∧
    b.seen.completed = [o] ∧ b.terminalState ≠ .none := by simp

theorem phase_of_not_winning {b : Block T E C} {k : Pc T E C} (h : k.winning = false) :
    Phase b k := by
  cases k with
  | abandonPath completing | runSink _ completing =>
    cases completing with
    | false => trivial
    | true => cases h
  | publish _ | fireCas | fireLock | runReady _ | storeTerminal | storeDisarmed => cases h
  | _ => trivial

theorem Pc.callback_of_held {k : Pc T E C} {fn : Nat} (h : k.held = some fn) :
    k.callback = some fn := by
  cases k with
  | readyCas fn => exact h
  | _ => cases h

/-- The thread has no role but that of the winner. -/
def Pc.Plain (k : Pc T E C) : Prop :=
  k.callback = none ∧ k.hooking = false ∧ k.reason = none ∧ k.carried = none

section

variable {b : Block T E C} {k k' : Pc T E C} (h : k.Plain)
include h

theorem Pc.Plain.within (hwinning : k.winning = true → k'.winning = true) : k.Within k' where
  winning := hwinning
  held hh := by
    obtain ⟨fn, hfn⟩ := isSome_iff_exists.mp hh
    cases h.1.symm.trans (Pc.callback_of_held hfn)
  callback _ hfn := nomatch h.1.symm.trans hfn
  hooking hh := nomatch h.2.1.symm.trans hh
  carried hc := absurd hc (by rw [h.2.2.2]; exact Bool.false_ne_true)

theorem Local.of_plain
    (hwinning : k.winning = true → b.terminalClaimed = true ∧ b.seen.finished = false)
    (hphase : Phase b k) : Local b k where
  winning := hwinning
  phase := hphase
  held _ hfn := nomatch h.1.symm.trans (Pc.callback_of_held hfn)
  callback _ hfn := nomatch h.1.symm.trans hfn
  hooking hh := nomatch h.2.1.symm.trans hh
  reason _ hr := nomatch h.2.2.1.symm.trans hr
  carried _ ho := nomatch h.2.2.2.symm.trans ho

/-- A thread without a role knows nothing. -/
theorem Local.of_free (hwinning : k.winning = false) : Local b k :=
  .of_plain h (fun hw => nomatch hwinning.symm.trans hw) (phase_of_not_winning hwinning)

end

end Conflux.Work.Control

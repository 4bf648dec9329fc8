import Conflux.Work.Control.Protocol
import Conflux.Work.Slot.Model

/-!
# What the life of a slot keeps

On the control block the life of a slot is one of the interleavings of its protocol. Beside
that, each place of the slot or awaiter goes with what has become of the callbacks and of the
outcome, as long as the awaiter is not destroyed while its own callback is executing.
-/

namespace Conflux.Work.Slot

open Conflux.Core (Threads)
open Conflux.Work.Control

variable {ι T E C : Type} {b : Block T E C} {k : Control.Pc T E C}

/-! ## Threads at the control block -/

/-- Where a thread may be that only completes the task or asks it to cancel. -/
def Neutral : Control.Pc T E C → Prop
  | .readyLoad _ | .readyLock _ | .readyCas _ | .clearLoad | .clearLock | .takeLoad | .takeLock
  | .sinkLock | .runSink _ _ | .abandonPath false => False
  | _ => True

/-- What a step leaves as it is. -/
structure Kept (b b' : Block T E C) : Prop where
  installed : b'.seen.installed = b.seen.installed
  cleared : b'.seen.cleared = b.seen.cleared
  ran : b'.seen.ran = b.seen.ran
  handed : b'.seen.handed = b.seen.handed
  abandoned : b'.abandoned = b.abandoned
  stored : b.terminalState ≠ .none → b'.terminalState ≠ .none

theorem Outcome.terminalState_ne_none (o : Outcome T E) : o.terminalState ≠ .none := by
  cases o with
  | success | failure | cancelled => exact TerminalState.noConfusion

open Block

theorem kept_go (hk : Neutral k) (hrun : ∀ fn, k ≠ .runReady (some fn)) : Kept b (b.go k).1 := by
  cases k with
  | runReady fn =>
    cases fn with
    | none => exact ⟨rfl, rfl, List.append_nil _, rfl, rfl, id⟩
    | some fn => exact absurd rfl (hrun fn)
  | publish o =>
    simp only [go, underMutex]
    split
    · exact ⟨rfl, rfl, rfl, rfl, rfl, id⟩
    · exact ⟨rfl, rfl, rfl, rfl, rfl, fun _ => Outcome.terminalState_ne_none o⟩
  | abandonPath completing =>
    cases completing with
    | false => exact hk.elim
    | true =>
      simp only [go, underMutex]
      repeat' split
      all_goals exact ⟨rfl, rfl, rfl, rfl, rfl, id⟩
  | readyLoad | readyLock | readyCas | clearLoad | clearLock | takeLoad | takeLock | sinkLock
  | runSink => exact hk.elim
  | _ =>
    simp only [go, underMutex]
    repeat' split
    all_goals exact ⟨rfl, rfl, rfl, rfl, rfl, id⟩

theorem neutral_go (hk : Neutral k) (hb : b.abandoned = false) : Neutral (b.go k).2 := by
  cases k with
  | abandonPath completing =>
    cases completing with
    | false => exact hk.elim
    | true =>
      simp only [go, underMutex, hb, Bool.false_and]
      split
      · trivial
      · trivial
  | readyLoad | readyLock | readyCas | clearLoad | clearLock | takeLoad | takeLock | sinkLock
  | runSink => exact hk.elim
  | _ =>
    simp only [go, underMutex]
    repeat' split
    all_goals trivial

theorem start_task (b : Block T E C) (request : TaskRequest T E C) :
    (b.start request.request).1 = b ∧ Neutral (b.start request.request).2 := by
  cases request with
  | trySetOutcome | requestCancel => exact ⟨rfl, trivial⟩
  | installCancelHook given =>
    cases given with
    | true | false => exact ⟨rfl, trivial⟩
  | bindChildForCancellation child =>
    cases child with
    | none | some => exact ⟨rfl, trivial⟩

/-- A step of a thread that completes the task or asks it to cancel, unless it runs a
callback. -/
theorem kept_task (hk : Neutral k) (hb : b.abandoned = false)
    (hrun : ∀ fn, k ≠ .runReady (some fn)) (request : TaskRequest T E C) :
    Kept b (step request.request b k).1 ∧ Neutral (step request.request b k).2 := by
  cases k with
  | idle =>
    obtain ⟨hstart, hneutral⟩ := start_task b request
    refine ⟨?_, hneutral⟩
    rw [step, hstart]
    exact ⟨rfl, rfl, rfl, rfl, rfl, id⟩
  | _ => exact ⟨kept_go hk hrun, neutral_go hk hb⟩

variable [DecidableEq ι]

/-- The control block was brought here by calls. -/
def Reached (c : Threads (Who ι) (Block T E C) (Control.Pc T E C)) : Prop :=
  ∃ moves, c = Block.fresh.run Block.step moves

namespace Reached

variable {c : Threads (Who ι) (Block T E C) (Control.Pc T E C)}

theorem run (h : Reached c) (more : List (Who ι × Request T E C)) :
    Reached (c.run step more) := by
  obtain ⟨moves, rfl⟩ := h
  exact ⟨moves ++ more, (Threads.run_append _ moves more).symm⟩

theorem fire (h : Reached c) (m : Who ι × Request T E C) : Reached (c.fire step m) :=
  h.run [m]

theorem holds (h : Reached c) : c.Holds BlockInv Local Apart := by
  obtain ⟨moves, rfl⟩ := h
  exact holds_run moves

/-- What is stored and not given out is in the block, if nobody takes it to a sink. -/
theorem exists_outcome (h : Reached c) (hstored : c.shared.terminalState ≠ .none)
    (hhanded : c.shared.seen.handed = []) (hfree : ∀ who, (c.pc who).carried = none) :
    ∃ o, c.shared.outcome = some o := by
  cases ho : c.shared.outcome with
  | some o => exact ⟨o, rfl⟩
  | none =>
    obtain ⟨moves, rfl⟩ := h
    obtain ⟨who, hwho⟩ := travelling_run moves () ⟨hstored, ho, hhanded⟩
    rw [hfree who] at hwho
    cases hwho

end Reached

/-- The block after its outcome was taken. -/
def taken (b : Block T E C) (o : Outcome T E) : Block T E C :=
  { b with outcome := none, seen := { b.seen with handed := b.seen.handed ++ [o] } }

/-- A thread between two calls takes the outcome. -/
theorem run_take {c : Threads (Who ι) (Block T E C) (Control.Pc T E C)} {who : Who ι}
    (hidle : c.pc who = .idle) (hstored : c.shared.terminalState ≠ .none)
    (hlocked : c.shared.locked = false) {o : Outcome T E} (ho : c.shared.outcome = some o) :
    c.run step (List.replicate 3 (who, .tryTakeReadyOutcome)) =
      { c with shared := taken c.shared o } := by
  have hlist : List.replicate 3 (who, Request.tryTakeReadyOutcome) =
      (List.replicate 3 (Request.tryTakeReadyOutcome : Request T E C)).map fun a => (who, a) := rfl
  have halone : Threads.alone step c.shared .idle
      (List.replicate 3 (Request.tryTakeReadyOutcome : Request T E C)) =
      (taken c.shared o, .idle) := by
    simp only [Threads.alone, List.replicate, List.foldl_cons, List.foldl_nil, step,
      start, go, underMutex, hstored, if_false, hlocked, Bool.false_eq_true, ho,
      note, taken]
  rw [hlist, Threads.run_alone, hidle, halone, ← hidle, Function.update_eq_self]

/-! ## The steps of a registration and of its withdrawal -/

/-- What the next step of `try_set_on_ready` does, by what it returns. -/
inductive Registers (b : Block T E C) (fn : Nat) :
    Option ReadyRegistration → Block T E C × Control.Pc T E C → Prop
  | goesOn {r : Block T E C × Control.Pc T E C} : Kept b r.1 → r.2.callback = some fn →
      Registers b fn none r
  | installed {b' : Block T E C} : b'.seen.installed = b.seen.installed ++ [fn] →
      b.seen.installed = [] ∧ b'.seen.cleared = [] ∧ b'.seen.ran = [] →
      b'.seen.handed = b.seen.handed → b'.abandoned = b.abandoned →
      Registers b fn (some .installed) (b', .idle)
  | alreadyReady {b' : Block T E C} : Kept b b' → b.terminalState ≠ .none →
      Registers b fn (some .alreadyReady) (b', .idle)
  | alreadyInstalled {b' : Block T E C} : Kept b b' →
      b.readyHookState = .armed ∨ b.readyHookState = .disarmed →
      Registers b fn (some .alreadyInstalled) (b', .idle)

theorem stored_of_committing (h : BlockInv b) (hs : b.readyHookState = .committing) :
    b.terminalState ≠ .none :=
  fun hnone => (h.before hnone).1 hs

theorem stored_of_terminal (h : BlockInv b) (hs : b.readyHookState = .terminal) :
    b.terminalState ≠ .none :=
  fun hnone => (h.before hnone).2 hs

theorem registers_go (h : BlockInv b) (hk : Local b k) {fn : Nat} (hfn : k.callback = some fn) :
    Registers b fn (registration b k) (b.go k) := by
  cases k with
  | readyLoad g =>
    cases hfn
    rw [registration, go]
    split
    · rename_i hs
      exact .alreadyReady ⟨rfl, rfl, rfl, rfl, rfl, id⟩ (stored_of_terminal h hs)
    · exact .goesOn ⟨rfl, rfl, rfl, rfl, rfl, id⟩ rfl
  | readyLock g =>
    cases hfn
    rw [registration, go, underMutex]
    split
    · exact .goesOn ⟨rfl, rfl, rfl, rfl, rfl, id⟩ rfl
    cases hs : b.readyHookState with
    | «open» => exact .goesOn ⟨rfl, rfl, rfl, rfl, rfl, id⟩ rfl
    | armed => exact .alreadyInstalled ⟨rfl, rfl, rfl, rfl, rfl, id⟩ (.inl hs)
    | disarmed => exact .alreadyInstalled ⟨rfl, rfl, rfl, rfl, rfl, id⟩ (.inr hs)
    | committing =>
      exact .alreadyReady ⟨rfl, rfl, rfl, rfl, rfl, id⟩ (stored_of_committing h hs)
    | terminal =>
      exact .alreadyReady ⟨rfl, rfl, rfl, rfl, rfl, id⟩ (stored_of_terminal h hs)
  | readyCas g =>
    cases hfn
    obtain ⟨-, -, harmed, hdisarmed⟩ := hk.held fn rfl
    rw [registration, go]
    split
    · rename_i hs
      obtain ⟨hinstalled, hcleared, hran⟩ := h.ready_open hs
      exact .installed rfl ⟨hinstalled, hcleared, hran⟩ rfl rfl
    rename_i hopen
    refine .alreadyReady ⟨rfl, rfl, rfl, rfl, rfl, id⟩ ?_
    cases hs : b.readyHookState with
    | «open» => exact absurd hs hopen
    | armed => exact absurd hs harmed
    | disarmed => exact absurd hs hdisarmed
    | committing => exact stored_of_committing h hs
    | terminal => exact stored_of_terminal h hs
  | _ => cases hfn

theorem registers_step (h : BlockInv b) (hk : Local b k) {fn : Nat} (hfn : k.callback = some fn)
    (request : Request T E C) :
    Registers b fn (registration b k) (step request b k) := by
  have hgo := registers_go h hk hfn
  cases k with
  | readyLoad | readyLock | readyCas => exact hgo
  | _ => cases hfn

/-- What the next step of `clear_on_ready` does on an armed hook, unless the callback has been
taken. -/
inductive Clears (b : Block T E C) :
    Option ClearOnReadyStatus → Block T E C × Control.Pc T E C → Prop
  | goesOn {k : Control.Pc T E C} : k = .clearLoad ∨ k = .clearLock → Clears b none (b, k)
  | cleared {b' : Block T E C} : Settled b'.seen → b'.seen.handed = b.seen.handed →
      b'.abandoned = b.abandoned → Clears b (some .cleared) (b', .idle)
  | inFlight {r : Block T E C × Control.Pc T E C} : Clears b (some .inFlight) r

/-- The callback that was installed has neither run nor been cleared. -/
def Armed (seen : Seen T E C) : Prop :=
  ∃ fn, seen.installed = [fn] ∧ seen.cleared = [] ∧ seen.ran = []

theorem Armed.not_settled {seen : Seen T E C} (h : Armed seen) : ¬ Settled seen := by
  obtain ⟨fn, hinstalled, hcleared, hran⟩ := h
  rintro (⟨hnone, -, -⟩ | ⟨g, -, ⟨hclear, -⟩ | ⟨-, hrun⟩⟩)
  · rw [hinstalled] at hnone
    cases hnone
  · rw [hcleared] at hclear
    cases hclear
  · rw [hran] at hrun
    cases hrun

theorem armed_or_committing (h : BlockInv b) (harmed : Armed b.seen) :
    b.readyHookState = .armed ∨ b.readyHookState = .committing := by
  have hsettled := harmed.not_settled
  cases hs : b.readyHookState with
  | armed => exact .inl rfl
  | committing => exact .inr rfl
  | «open» => exact absurd (.inl (h.ready_open hs)) hsettled
  | terminal => exact absurd (h.ready_terminal hs).2 hsettled
  | disarmed =>
    obtain ⟨fn, hinstalled, hcleared, hran⟩ := h.ready_disarmed hs
    exact absurd (.inr ⟨fn, hinstalled, .inl ⟨hcleared, hran⟩⟩) hsettled

theorem clears_go (h : BlockInv b) (harmed : Armed b.seen)
    (hk : k = .clearLoad ∨ k = .clearLock) : Clears b (clearStatus b k) (b.go k) := by
  obtain hs | hs := armed_or_committing h harmed
  · obtain rfl | rfl := hk
    · rw [clearStatus, hs, go, if_pos hs]
      exact .goesOn (.inr rfl)
    rw [clearStatus, hs, go, underMutex, if_pos hs]
    split
    · exact .goesOn (.inr rfl)
    obtain ⟨fn, hfn, hinstalled, hcleared, hran⟩ := h.ready_armed hs
    refine .cleared (.inr ⟨fn, hinstalled, .inl ⟨?_, hran⟩⟩) rfl rfl
    rw [note, hcleared, hfn]
    rfl
  obtain rfl | rfl := hk
  · rw [clearStatus, hs]
    exact .inFlight
  rw [clearStatus, hs, go, underMutex]
  split
  · exact .goesOn (.inr rfl)
  · exact .inFlight

theorem clears_step (h : BlockInv b) (harmed : Armed b.seen)
    (hk : k = .clearLoad ∨ k = .clearLock) (request : Request T E C) :
    Clears b (clearStatus b k) (step request b k) := by
  have hgo := clears_go h harmed hk
  obtain rfl | rfl := hk
  · exact hgo
  · exact hgo

/-! ## The slot -/

namespace Life

/-- Nobody has got the outcome. -/
def Untaken (s : Life ι T E C) : Prop :=
  s.consumed = [] ∧ s.drained = []

/-- What goes with each place. -/
def At (s : Life ι T E C) : Prop :=
  match s.place with
  | .slot | .tryGet | .wait | .drain | .awaiter =>
    s.control.pc .owner = .idle ∧ s.Untaken ∧ s.block.seen.installed = [] ∧ s.drainFn = none
  | .drainJoin | .resumeJoin | .rejected =>
    s.control.pc .owner = .idle ∧ s.Untaken ∧ Settled s.block.seen ∧ s.block.terminalState ≠ .none
  | .suspend =>
    (∃ fn, (s.control.pc .owner).callback = some fn) ∧ s.Untaken ∧
      s.block.seen.installed = [] ∧ s.drainFn = none
  | .installed =>
    s.control.pc .owner = .idle ∧ s.drainFn = none ∧
      (s.Untaken ∧ Armed s.block.seen ∨ ¬ s.Untaken ∧ s.drained = [] ∧ Settled s.block.seen)
  | .suspended =>
    s.control.pc .owner = .idle ∧ s.drainFn = none ∧ s.Untaken ∧ Armed s.block.seen ∧
      s.callbackInstalled = true
  | .clear =>
    (s.control.pc .owner = .clearLoad ∨ s.control.pc .owner = .clearLock) ∧
      s.drainFn = none ∧ s.Untaken ∧ Armed s.block.seen
  | .drop =>
    (∃ fn, s.drainFn = some fn ∧ (s.control.pc .owner).callback = some fn) ∧ s.Untaken ∧
      Settled s.block.seen
  | .over =>
    s.control.pc .owner = .idle ∧ (¬ s.Untaken ∧ Settled s.block.seen ∨
      s.Untaken ∧ ∃ fn, s.drainFn = some fn ∧ s.block.seen.installed = [fn] ∧
        s.block.seen.cleared = [] ∧ s.block.seen.ran = [])
  | .raised => False
  | .terminated => True

/-- What holds wherever the slot is. -/
structure Base (s : Life ι T E C) : Prop where
  control : Reached s.control
  callback : s.control.pc .callback = .idle
  neutral : ∀ i, Neutral (s.control.pc (.task i))
  abandoned : s.block.abandoned = false
  handed : s.block.seen.handed = s.consumed ++ s.drained
  dropped : s.dropped = if s.onDrop then s.drained else []

/-- The invariant of the life of a slot. -/
structure Good (s : Life ι T E C) : Prop extends Base s where
  placed : At s

end Life

end Conflux.Work.Slot

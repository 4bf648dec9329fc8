import Conflux.Work.Control.Steps

/-!
# Protocol of a control block

What holds after any interleaving of calls on a new block. The invariant says what was completed,
run and handed out. For what is under way a thread answers: the completion that has not returned,
the mutex, the outcome on its way to the sink, and the cancel request on its way to a child.
-/

namespace Conflux.Work.Control

open List Block

open Conflux.Core (Threads Answered)

variable {T E C : Type} {b : Block T E C} {k : Pc T E C}

/-! ## What a thread answers for -/

/-- The start of a call changes nothing but the numbers of callbacks. -/
theorem start_shared (b : Block T E C) (request : Request T E C) :
    ∃ callbacks rejected, (b.start request).1 =
      { b with seen := { b.seen with callbacks, rejected } } := by
  cases request with
  | trySetOnReady given =>
    cases given with
    | true => exact ⟨b.seen.callbacks + 1, b.seen.rejected, rfl⟩
    | false => exact ⟨b.seen.callbacks + 1, b.seen.rejected ++ [b.seen.callbacks], rfl⟩
  | bindChildForCancellation child =>
    cases child with
    | none | some child => exact ⟨_, _, rfl⟩
  | _ => exact ⟨_, _, rfl⟩

/-- A need that a step leaves, of a thread that does not answer for it. -/
theorem left_open {p q : Prop} (hneed : p) : q ∨ p ∧ ¬ false = true :=
  .inr ⟨hneed, Bool.false_ne_true⟩

/-- A thread between two calls answers for nothing, and its next call does not either. -/
theorem answered_of_go {β : Type} {Need : Block T E C → β → Prop} {Owns : Pc T E C → β → Prop}
    (hidle : ∀ x, ¬ Owns .idle x)
    (hstart : ∀ b callbacks rejected x,
      Need { b with seen := { b.seen with callbacks, rejected } } x → Need b x)
    (hgo : ∀ {b k}, BlockInv b → Local b k → ∀ x, Need (b.go k).1 x →
      Owns (b.go k).2 x ∨ Need b x ∧ ¬ Owns k x) :
    Answered step BlockInv Local Need Owns where
  keep {b k} h hk request x hneed := by
    cases k with
    | idle =>
      obtain ⟨callbacks, rejected, hb⟩ := start_shared b request
      rw [step, hb] at hneed
      exact .inr ⟨hstart b callbacks rejected x hneed, hidle x⟩
    | _ => exact hgo h hk x hneed

/-- An attempt has won and its call has not returned. -/
def Completing (b : Block T E C) (_ : Unit) : Prop :=
  b.seen.completed ≠ [] ∧ b.seen.finished = false

theorem not_completing_finish (b : Block T E C) : ¬ Completing (b.finish true) () :=
  fun h => Bool.false_ne_true h.2.symm

theorem answered_completing :
    Answered (step (T := T) (E := E) (C := C)) BlockInv Local Completing
      (fun k _ => k.winning = true) := by
  refine answered_of_go (fun _ => Bool.false_ne_true) (fun _ _ _ _ hneed => hneed) ?_
  intro b k _ _ _
  cases k with
  | claim o =>
    rw [go]
    split
    · exact left_open
    · exact fun _ => .inl rfl
  | publish | fireCas | fireLock | runReady | storeTerminal | storeDisarmed =>
    intro _
    left
    simp only [go, underMutex]
    repeat' split
    all_goals rfl
  | abandonPath completing =>
    cases completing with
    | true =>
      simp only [go, underMutex]
      repeat' split
      · exact fun _ => .inl rfl
      · exact fun _ => .inl rfl
      · exact fun hneed => absurd hneed (not_completing_finish b)
    | false =>
      simp only [go, underMutex]
      repeat' split
      all_goals exact left_open
  | runSink o completing =>
    cases completing with
    | true => exact fun hneed => absurd hneed (not_completing_finish _)
    | false => exact left_open
  | _ =>
    simp only [go, underMutex]
    repeat' split
    all_goals exact left_open

theorem answered_locked :
    Answered (step (T := T) (E := E) (C := C)) BlockInv Local
      (fun b (_ : Unit) => b.locked = true) (fun k _ => k.held.isSome = true) := by
  refine answered_of_go (fun _ => Bool.false_ne_true) (fun _ _ _ _ hneed => hneed) ?_
  intro b k _ _ _
  cases k with
  | readyLock fn =>
    simp only [go, underMutex]
    repeat' split
    · exact left_open
    · exact fun _ => .inl rfl
    · exact left_open
  | readyCas fn =>
    rw [go]
    split
    all_goals exact fun hneed => absurd hneed Bool.false_ne_true
  | abandonPath completing | runSink o completing =>
    simp only [go, underMutex]
    cases completing with
    | true | false =>
      repeat' split
      all_goals exact left_open
  | _ =>
    simp only [go, underMutex]
    repeat' split
    all_goals exact left_open

/-- The outcome has left the block and nobody has got it. -/
def Travelling (b : Block T E C) (_ : Unit) : Prop :=
  b.terminalState ≠ .none ∧ b.outcome = none ∧ b.seen.handed = []

theorem answered_travelling :
    Answered (step (T := T) (E := E) (C := C)) BlockInv Local Travelling
      (fun k _ => k.carried.isSome = true) := by
  refine answered_of_go (fun _ => Bool.false_ne_true) (fun _ _ _ _ hneed => hneed) ?_
  intro b k _ _ _
  cases k with
  | publish o =>
    simp only [go, underMutex]
    split
    · exact left_open
    · exact fun hneed => absurd hneed.2.1 (Option.some_ne_none o)
  | abandonPath completing =>
    simp only [go, underMutex]
    cases completing with
    | true | false =>
      repeat' split
      · exact left_open
      · exact fun _ => .inl rfl
      · exact left_open
  | runSink o completing =>
    cases completing with
    | true | false => exact fun hneed => absurd hneed.2.2 (concat_ne_nil _ _)
  | takeLock =>
    simp only [go, underMutex]
    repeat' split
    · exact left_open
    · exact left_open
    · exact fun hneed => absurd hneed.2.2 (concat_ne_nil _ _)
    · exact left_open
  | _ =>
    simp only [go, underMutex]
    repeat' split
    all_goals exact left_open

section

variable (h : b.locked = false)
include h

end

theorem blockInv_fresh : BlockInv ({} : Block T E C) where
  claimed := .inl ⟨rfl, rfl, rfl⟩
  pending _ := ⟨rfl, rfl⟩
  published h := absurd rfl h
  outcome _ h := by cases h
  handed := .inl rfl
  ready := ⟨rfl, rfl, rfl⟩
  numbered _ h := by cases h
  rejected _ h := by cases h
  finished h := by cases h
  requested := .inl ⟨rfl, rfl⟩
  hookRan := .inl rfl
  hookIdle _ := rfl
  bound _ _ _ h := by cases h

variable {ι : Type}

theorem apart_idle : Apart (.idle : Pc T E C) .idle := {}

theorem holds_fresh : (fresh : Threads ι (Block T E C) (Pc T E C)).Holds BlockInv Local Apart where
  shared := blockInv_fresh
  each _ := local_idle _
  apart _ _ _ := apart_idle

variable [DecidableEq ι]

/-- The invariant holds after any calls. -/
theorem holds_run (moves : List (ι × Request T E C)) :
    (fresh.run step moves).Holds BlockInv Local Apart :=
  modular_step.run holds_fresh moves

/-- An attempt that has won and has not returned is some thread's. -/
theorem completing_run (moves : List (ι × Request T E C)) :
    ∀ x, Completing (fresh.run step moves).shared x →
      ∃ i, ((fresh.run step moves).pc i).winning = true :=
  answered_completing.run modular_step holds_fresh (fun _ hneed => absurd rfl hneed.1) moves

/-- Some thread holds the mutex where it is held. -/
theorem locked_run (moves : List (ι × Request T E C))
    (h : (fresh.run step moves).shared.locked = true) :
    ∃ i, ((fresh.run step moves).pc i).held.isSome = true :=
  answered_locked.run modular_step holds_fresh
    (fun _ hneed => absurd hneed Bool.false_ne_true) moves () h

/-- An outcome that is gone and was not given out is on its way with some thread. -/
theorem travelling_run (moves : List (ι × Request T E C)) :
    ∀ x, Travelling (fresh.run step moves).shared x →
      ∃ i, ((fresh.run step moves).pc i).carried.isSome = true :=
  answered_travelling.run modular_step holds_fresh (fun _ hneed => absurd rfl hneed.1) moves

/-- At most one callback was installed, and it was not both cleared and run. -/
theorem BlockInv.callbacks (h : BlockInv b) :
    (b.seen.installed = [] ∧ b.seen.cleared = [] ∧ b.seen.ran = []) ∨
      ∃ fn, b.seen.installed = [fn] ∧ (b.seen.cleared = [fn] ∧ b.seen.ran = [] ∨
        b.seen.cleared = [] ∧ (b.seen.ran = [] ∨ b.seen.ran = [fn])) := by
  have hready := h.ready
  rw [ReadyOk] at hready
  split at hready
  · exact .inl hready
  · obtain ⟨fn, -, hinstalled, hcleared, hran⟩ := hready
    exact .inr ⟨fn, hinstalled, .inr ⟨hcleared, .inl hran⟩⟩
  · obtain ⟨fn, hinstalled, hdone⟩ := hready
    exact .inr ⟨fn, hinstalled, .inl hdone⟩
  · obtain ⟨-, hnone | ⟨fn, hinstalled, hdone⟩⟩ := hready
    · exact .inl hnone
    · exact .inr ⟨fn, hinstalled, .inr hdone⟩
  obtain ⟨-, hnone | ⟨fn, hinstalled, hdone | ⟨hcleared, hran⟩⟩⟩ := hready
  · exact .inl hnone
  · exact .inr ⟨fn, hinstalled, .inl hdone⟩
  · exact .inr ⟨fn, hinstalled, .inr ⟨hcleared, .inr hran⟩⟩

namespace BlockInv

section

variable (h : BlockInv b)
include h

theorem mem_ran_of_finished (hf : b.seen.finished = true) {fn : Nat}
    (hfn : fn ∈ b.seen.installed) (hcleared : fn ∉ b.seen.cleared) : fn ∈ b.seen.ran := by
  obtain ⟨-, hsettled⟩ := h.ready_terminal (h.finished hf)
  obtain ⟨hnone, -, -⟩ | ⟨g, hinstalled, ⟨hc, -⟩ | ⟨-, hran⟩⟩ := hsettled
  · rw [hnone] at hfn
    cases hfn
  · rw [hc, ← hinstalled] at hcleared
    exact absurd hfn hcleared
  · rw [hran, ← hinstalled]
    exact hfn

theorem handed_length : b.seen.handed.length ≤ 1 := by
  obtain hnone | ⟨o, ho, -⟩ := h.handed
  · rw [hnone]
    exact Nat.zero_le 1
  · rw [ho]
    exact Nat.le_refl 1

theorem completed_of_handed {o : Outcome T E} (ho : o ∈ b.seen.handed) :
    b.seen.completed = [o] := by
  obtain hnone | ⟨o', ho', hcompleted⟩ := h.handed
  · rw [hnone] at ho
    cases ho
  · rw [ho'] at ho
    rw [hcompleted, mem_singleton.mp ho]

end

end BlockInv

end Conflux.Work.Control

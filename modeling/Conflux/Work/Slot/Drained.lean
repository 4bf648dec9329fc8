import Conflux.Work.Slot.Steps
import Mathlib.Data.List.Induction

/-!
# A dropped slot is drained

There is one case in which the program is terminated: the awaiter is destroyed while suspended,
it withdraws its callback, and it offers the drain function before the completing thread has
passed the hook that the withdrawal left disarmed.
-/

namespace Conflux.Work.Slot

open List

open Conflux.Core (Threads)
open Conflux.Work.Control

variable {ι T E C : Type} [DecidableEq ι] {s : Life ι T E C}

namespace Life

/-- The outcome of the task goes to one place, and to the registered function if it is unconsumed
when the slot is gone and the completing call has returned. -/
structure Drained (s : Life ι T E C) : Prop where
  running : s.place ≠ .terminated
  joined : s.place ≠ .raised
  once : s.consumed.length + s.dropped.length ≤ 1
  right : ∀ o ∈ s.consumed ++ s.dropped, s.block.seen.completed = [o]
  delivered : s.onDrop = true → s.place = .over → s.block.seen.finished = true →
    s.consumed = [] → s.dropped = s.block.seen.completed

/-- The awaiter has withdrawn its callback and is about to offer the drain function, and the ready
hook is still to be passed. -/
structure Withdrawn (s : Life ι T E C) : Prop where
  place : s.place = .drop
  /-- The next step of the owner is the section of `try_set_on_ready`. -/
  offering : ∃ fn, s.control.pc .owner = .readyLock fn
  /-- A call of `clear_on_ready` has reported a callback as cleared. -/
  cleared : s.block.seen.cleared ≠ []
  /-- The completing call has not returned, -/
  unfinished : s.block.seen.finished = false
  /-- and it is not in its last section. -/
  ahead : ∀ i, s.control.pc (.task i) ≠ .abandonPath true

theorem Good.handed_length (h : Good s) : s.consumed.length + s.drained.length ≤ 1 := by
  have hlength := h.inv.handed_length
  rw [h.handed, length_append] at hlength
  exact hlength

theorem Good.drained (h : Good s) (hplace : s.place ≠ .terminated) : Drained s where
  running := hplace
  joined hraised := by
    have hat := h.placed
    rw [At, hraised] at hat
    exact hat
  once := by
    have hlength := h.handed_length
    rw [h.dropped]
    split
    · exact hlength
    · exact Nat.le_trans (Nat.add_le_add_left (Nat.zero_le _) _) hlength
  right o ho := by
    apply h.inv.completed_of_handed
    rw [h.handed]
    obtain ho | ho := mem_append.mp ho
    · exact mem_append_left _ ho
    rw [h.dropped] at ho
    split at ho
    · exact mem_append_right _ ho
    · cases ho
  delivered honDrop hover hfinished hconsumed := by
    have hat := h.placed
    rw [At, hover] at hat
    obtain ⟨-, ⟨htaken, -⟩ | ⟨-, fn, -, hinstalled, hcleared, hran⟩⟩ := hat
    · rw [h.dropped, if_pos honDrop]
      have hhanded := h.handed
      rw [hconsumed, nil_append] at hhanded
      cases hdrained : s.drained with
      | nil => exact absurd ⟨hconsumed, hdrained⟩ htaken
      | cons o rest =>
        rw [hdrained] at hhanded
        have hrest : rest = [] := by
          have hlength := h.handed_length
          rw [hdrained, length_cons] at hlength
          exact length_eq_zero_iff.mp (by omega)
        rw [hrest]
        exact (h.inv.completed_of_handed (by rw [hhanded]; exact mem_cons_self)).symm
    -- an installed drain function has run when the completing call returns
    have hin : fn ∈ s.block.seen.installed := by
      rw [hinstalled]
      exact mem_singleton_self fn
    have hmem := h.inv.mem_ran_of_finished hfinished hin (by rw [hcleared]; exact not_mem_nil)
    rw [hran] at hmem
    cases hmem

/-! ## Termination -/

variable {who : Who ι} {joined : Outcome T E → Life ι T E C → Life ι T E C}
  {moves : List (Move ι T E C)} {s' : Life ι T E C}

/-- The program is not terminated, and an overlap is not forgotten. -/
structure Calm (s s' : Life ι T E C) : Prop where
  overlap : s.overlap = true → s'.overlap = true
  place : s'.place = .terminated → s.place = .terminated

omit [DecidableEq ι] in
theorem Calm.refl : Calm s s := ⟨id, id⟩

omit [DecidableEq ι] in
theorem Calm.to (hoverlap : s'.overlap = s.overlap) (hplace : s'.place ≠ .terminated) : Calm s s' :=
  ⟨hoverlap.trans, fun h => absurd h hplace⟩

theorem calm_join
    (hjoined : ∀ o s', s'.place = s.place → s'.overlap = s.overlap → Calm s (joined o s')) :
    Calm s (s.join who joined) := by
  rw [join]
  repeat' split
  · exact .to rfl Place.noConfusion
  · exact .refl
  · exact .to rfl Place.noConfusion
  · exact hjoined _ _ rfl rfl

theorem calm_task (i : ι) (request : TaskRequest T E C) : Calm s (s.task i request) := by
  rw [task.eq_def]
  split
  · refine calm_join fun o s' hplace hoverlap => ?_
    rw [finishCallback]
    split
    · exact .to hoverlap Place.noConfusion
    refine ⟨fun hs => ?_, fun hterminated => ?_⟩
    · dsimp only [resume]
      rw [hoverlap, hs]
      rfl
    · dsimp only [resume] at hterminated
      split at hterminated
      · cases hterminated
      · exact hplace.symm.trans hterminated
  · exact ⟨id, id⟩

theorem calm_own (hdrop : s.place ≠ .drop) (choice : Choice) : Calm s (s.own choice) := by
  have hconsume : Calm s (s.join .owner consume) :=
    calm_join fun _ _ _ hoverlap => .to hoverlap Place.noConfusion
  have hdeliver : Calm s (s.join .owner deliver) :=
    calm_join fun _ _ _ hoverlap => .to hoverlap Place.noConfusion
  rw [own.eq_def]
  cases hplace : s.place with
  | slot =>
    cases choice with
    | await => exact .refl
    | onDrop | tryGet | wait | coAwait | destroy => exact ⟨id, Place.noConfusion⟩
  | tryGet | wait =>
    dsimp only
    split
    · exact ⟨id, by simp [hplace]⟩
    · exact hconsume
  | drain | installed | suspend =>
    dsimp only
    split
    all_goals exact .to rfl Place.noConfusion
  | drainJoin | rejected => exact hdeliver
  | awaiter =>
    cases choice with
    | await =>
      dsimp only
      split
      all_goals exact .to rfl Place.noConfusion
    | destroy => exact .to rfl Place.noConfusion
    | onDrop | tryGet | wait | coAwait => exact .refl
  | resumeJoin => exact hconsume
  | suspended =>
    cases choice with
    | destroy =>
      dsimp only
      split
      all_goals exact .to rfl Place.noConfusion
    | onDrop | tryGet | wait | coAwait | await => exact .refl
  | clear =>
    dsimp only
    split
    · exact ⟨fun _ => rfl, Place.noConfusion⟩
    · exact .to rfl Place.noConfusion
    · exact .to rfl Place.noConfusion
    · exact .to rfl Place.noConfusion
    · exact ⟨id, id⟩
  | drop => exact absurd hplace hdrop
  | «over» | raised | terminated => exact .refl

/-- A hook that is past all calls is one that the completing call has passed. -/
theorem Good.passed_of_terminal (h : Good s) {fn : Nat} (hpc : s.control.pc .owner = .readyLock fn)
    (hstate : s.block.readyHookState = .terminal) (hfinished : s.block.seen.finished = false) :
    ∃ i, s.control.pc (.task i) = .abandonPath true := by
  obtain ⟨o, hcompleted, -⟩ := h.inv.published (stored_of_terminal h.inv hstate)
  obtain ⟨moves, hmoves⟩ := h.control
  have hcompleting : Completing s.block () := ⟨by rw [hcompleted]; exact cons_ne_nil _ _, hfinished⟩
  rw [block, hmoves] at hcompleting
  obtain ⟨who, hwho⟩ := completing_run moves () hcompleting
  rw [← hmoves] at hwho
  -- of the phases of completion only the last one goes with a terminal hook
  have hphase := (h.control.holds.each who).phase
  cases who with
  | owner =>
    rw [hpc] at hwho
    cases hwho
  | callback =>
    rw [h.callback] at hwho
    cases hwho
  | task i =>
    refine ⟨i, ?_⟩
    have hneutral := h.neutral i
    cases hk : s.control.pc (.task i) with
    | abandonPath completing =>
      rw [hk] at hwho
      obtain rfl : completing = true := hwho
      rfl
    | publish o =>
      rw [hk] at hphase
      exact absurd hphase.2 (stored_of_terminal h.inv hstate)
    | fireCas =>
      rw [hk] at hphase
      exact absurd hstate hphase.2.2
    | fireLock =>
      rw [hk] at hphase
      obtain hs | hs := hphase.2 <;> cases hs.symm.trans hstate
    | runReady | storeTerminal =>
      rw [hk] at hphase
      cases hphase.2.1.symm.trans hstate
    | storeDisarmed =>
      rw [hk] at hphase
      cases hphase.2.symm.trans hstate
    | runSink =>
      rw [hk] at hneutral
      exact hneutral.elim
    | _ =>
      rw [hk] at hwho
      cases hwho

/-- The hook is disarmed from the withdrawal on until the completing call passes it. -/
theorem Good.disarmed_iff (h : Good s) {fn : Nat} (hpc : s.control.pc .owner = .readyLock fn) :
    s.block.readyHookState = .disarmed ↔ s.block.seen.cleared ≠ [] ∧
      s.block.seen.finished = false ∧ ∀ i, s.control.pc (.task i) ≠ .abandonPath true := by
  constructor
  · intro hstate
    obtain ⟨g, -, hcleared, -⟩ := h.inv.ready_disarmed hstate
    refine ⟨by rw [hcleared]; exact cons_ne_nil _ _, ?_, fun i hi => ?_⟩
    · refine Bool.eq_false_iff.mpr fun hfinished => ?_
      cases (h.inv.finished hfinished).symm.trans hstate
    · have hphase := (h.control.holds.each (.task i)).phase
      rw [hi] at hphase
      cases hphase.symm.trans hstate
  · rintro ⟨hcleared, hfinished, hahead⟩
    cases hstate : s.block.readyHookState with
    | disarmed => rfl
    | «open» => exact absurd (h.inv.ready_open hstate).2.1 hcleared
    | armed =>
      obtain ⟨g, -, -, hnil, -⟩ := h.inv.ready_armed hstate
      exact absurd hnil hcleared
    | committing =>
      have hready := h.inv.ready
      rw [ReadyOk, hstate] at hready
      obtain ⟨-, ⟨-, hnil, -⟩ | ⟨g, -, hnil, -⟩⟩ := hready
      all_goals exact absurd hnil hcleared
    | terminal =>
      obtain ⟨i, hi⟩ := h.passed_of_terminal hpc hstate hfinished
      exact absurd hi (hahead i)

/-- Nobody holds the mutex between two steps while the hook is disarmed. -/
theorem Good.unlocked_of_disarmed (h : Good s) (hstate : s.block.readyHookState = .disarmed) :
    s.block.locked = false := by
  refine Bool.eq_false_iff.mpr fun hlocked => ?_
  obtain ⟨moves, hmoves⟩ := h.control
  rw [block, hmoves] at hlocked
  obtain ⟨who, hwho⟩ := locked_run moves hlocked
  rw [← hmoves] at hwho
  obtain ⟨g, hg⟩ := Option.isSome_iff_exists.mp hwho
  exact ((h.control.holds.each who).held g hg).2.2.2 hstate

/-- The drain function finds a callback installed only where one was withdrawn. -/
theorem registration_alreadyInstalled (h : Good s) (hplace : s.place = .drop)
    (hr : registration s.block (s.control.pc .owner) = some .alreadyInstalled) : Withdrawn s := by
  have hat := h.placed
  rw [At, hplace] at hat
  obtain ⟨-, -, hsettled⟩ := hat
  cases hpc : s.control.pc .owner with
  | readyLock fn =>
    have hdisarmed : s.block.readyHookState = .disarmed := by
      rw [hpc, registration] at hr
      split at hr
      · cases hr
      cases hstate : s.block.readyHookState with
      | disarmed => rfl
      | armed =>
        obtain ⟨g, -, hg⟩ := h.inv.ready_armed hstate
        exact absurd hsettled (Armed.not_settled ⟨g, hg⟩)
      | «open» | committing | terminal =>
        rw [hstate] at hr
        cases hr
    obtain ⟨hcleared, hfinished, hahead⟩ := (h.disarmed_iff hpc).mp hdisarmed
    exact ⟨hplace, ⟨fn, hpc⟩, hcleared, hfinished, hahead⟩
  | readyLoad fn | readyCas fn =>
    rw [hpc, registration] at hr
    split at hr
    · cases hr
    · cases hr
  | _ =>
    rw [hpc] at hr
    cases hr

/-- The owner terminates the program where the drain function finds a callback installed. -/
theorem place_own_iff (h : Good s) (hs : s.place ≠ .terminated) (choice : Choice) :
    (s.own choice).place = .terminated ↔ Withdrawn s := by
  by_cases hplace : s.place = .drop
  · rw [own.eq_def, hplace]
    dsimp only
    constructor
    · intro hterminated
      refine registration_alreadyInstalled h hplace ?_
      split at hterminated
      · cases hterminated
      · cases hterminated
      · rename_i hr
        exact hr
      · cases hterminated
    · rintro ⟨-, ⟨fn, hpc⟩, hcleared, hfinished, hahead⟩
      have hstate := (h.disarmed_iff hpc).mpr ⟨hcleared, hfinished, hahead⟩
      rw [hpc, registration, h.unlocked_of_disarmed hstate, hstate]
      rfl
  · constructor
    · exact fun hterminated => absurd ((calm_own hplace choice).place hterminated) hs
    · exact fun hwithdrawn => absurd hwithdrawn.place hplace

/-! ## Runs -/

/-- Once the destructor has overlapped the callback, it has. -/
theorem overlap_step (hs : s.overlap = true) (m : Move ι T E C) : (s.step m).overlap = true := by
  rw [step.eq_def]
  split
  · exact hs
  cases m with
  | own choice =>
    by_cases hdrop : s.place = .drop
    · dsimp only
      rw [own.eq_def, hdrop]
      exact hs
    · exact (calm_own hdrop choice).overlap hs
  | task i request => exact (calm_task i request).overlap hs

theorem run_concat (moves : List (Move ι T E C)) (m : Move ι T E C) :
    run (moves ++ [m]) = (run moves).step m := by
  rw [run, run, foldl_append]
  rfl

theorem overlap_of_concat {m : Move ι T E C} (hno : (run (moves ++ [m])).overlap = false) :
    (run moves).overlap = false := by
  cases hs : (run moves).overlap with
  | false => rfl
  | true =>
    rw [run_concat, overlap_step hs m] at hno
    cases hno

/-- The invariant holds in every run without an overlap. -/
theorem good_run (moves : List (Move ι T E C)) (hno : (run moves).overlap = false) :
    Good (run moves) := by
  induction moves using List.reverseRecOn with
  | nil => exact good_fresh
  | append_singleton moves m ih =>
    have hgood := ih (overlap_of_concat hno)
    rw [run_concat] at hno ⊢
    exact good_step hgood m hno

theorem place_step_of_terminated (hs : s.place = .terminated) (m : Move ι T E C) :
    s.step m = s := by
  rw [step.eq_def, if_pos hs]

theorem place_foldl_of_terminated (moves : List (Move ι T E C)) (hs : s.place = .terminated) :
    (moves.foldl step s).place = .terminated := by
  induction moves with
  | nil => exact hs
  | cons m moves ih =>
    rw [foldl_cons, place_step_of_terminated hs]
    exact ih

theorem place_step_iff (h : Good s) (hs : s.place ≠ .terminated) (m : Move ι T E C) :
    (s.step m).place = .terminated ↔ (∃ choice, m = .own choice) ∧ Withdrawn s := by
  rw [step.eq_def, if_neg hs]
  cases m with
  | own choice =>
    rw [place_own_iff h hs choice]
    exact ⟨fun hw => ⟨⟨choice, rfl⟩, hw⟩, fun hw => hw.2⟩
  | task i request =>
    constructor
    · exact fun hterminated => absurd ((calm_task i request).place hterminated) hs
    · rintro ⟨⟨choice, hm⟩, -⟩
      cases hm

/-- A run terminates the program only where a withdrawn awaiter offers its drain function. -/
theorem exists_withdrawn (moves : List (Move ι T E C)) (hno : (run moves).overlap = false)
    (hterminated : (run moves).place = .terminated) : ∃ before choice after,
      moves = before ++ .own choice :: after ∧ Withdrawn (run before) := by
  induction moves using List.reverseRecOn with
  | nil => cases hterminated
  | append_singleton moves m ih =>
    have hno' := overlap_of_concat hno
    by_cases hs : (run moves).place = .terminated
    · obtain ⟨before, choice, after, rfl, hw⟩ := ih hno' hs
      exact ⟨before, choice, after ++ [m], by simp, hw⟩
    rw [run_concat, place_step_iff (good_run moves hno') hs] at hterminated
    obtain ⟨⟨choice, rfl⟩, hw⟩ := hterminated
    exact ⟨moves, choice, [], rfl, hw⟩

theorem overlap_of_append (more : List (Move ι T E C))
    (hno : (run (moves ++ more)).overlap = false) : (run moves).overlap = false := by
  induction more using List.reverseRecOn with
  | nil =>
    rw [append_nil] at hno
    exact hno
  | append_singleton more m ih =>
    rw [← append_assoc] at hno
    exact ih (overlap_of_concat hno)

/-- A dropped slot is drained in exactly those runs in which no withdrawn awaiter offers its
drain function. -/
theorem drained_run_iff (moves : List (Move ι T E C)) (hno : (run moves).overlap = false) :
    Drained (run moves) ↔ ∀ before choice after, moves = before ++ .own choice :: after →
      ¬ Withdrawn (run before) := by
  constructor
  · rintro hdrained before choice after rfl hw
    apply hdrained.running
    have hgood := good_run before (overlap_of_append _ hno)
    have hs : (run before).place ≠ .terminated := by
      rw [hw.place]
      exact Place.noConfusion
    have hstep := (place_step_iff hgood hs (.own choice)).mpr ⟨⟨choice, rfl⟩, hw⟩
    rw [run, foldl_append, foldl_cons]
    exact place_foldl_of_terminated after hstep
  intro hnone
  refine (good_run moves hno).drained fun hterminated => ?_
  obtain ⟨before, choice, after, hmoves, hw⟩ := exists_withdrawn moves hno hterminated
  exact hnone before choice after hmoves hw

/-- A slot with a registered function is destroyed, and then its task completes. -/
def destroyedSlot : List (Move Unit Nat Nat Nat) :=
  [.own .onDrop] ++ List.replicate 5 (.own .destroy) ++
    List.replicate 8 (.task () (.trySetOutcome (.success 3)))

/-- The outcome goes to the registered function. -/
theorem drained_run_iff_destroyedSlot :
    (run destroyedSlot).overlap = false ∧ (run destroyedSlot).dropped = [.success 3] ∧
      (Drained (run destroyedSlot) ↔ ∀ before choice after,
        destroyedSlot = before ++ .own choice :: after → ¬ Withdrawn (run before)) :=
  ⟨by decide +kernel, by decide +kernel, drained_run_iff destroyedSlot (by decide +kernel)⟩

/-- A slot is awaited, and its suspended coroutine is destroyed while the task is running. -/
def destroyedAwait : List (Move Unit Nat Nat Nat) :=
  .own .coAwait :: List.replicate 5 (.own .await) ++ List.replicate 5 (.own .destroy)

/-- The program is terminated. -/
theorem run_destroyedAwait :
    (run destroyedAwait).overlap = false ∧ (run destroyedAwait).place = .terminated := by
  decide +kernel

end Life

end Conflux.Work.Slot

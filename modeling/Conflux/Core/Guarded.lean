import Mathlib.Data.List.Induction

/-!
# Runs whose actions are allowed

A run of actions over a state, with a check of each action at the state it meets. The last
action of a run is checked behind the others, which is what an induction over runs needs.
-/

namespace Conflux.Core

variable {σ α : Type*}

/-- Every action of a run is allowed where it happens. -/
def allowed (step : σ → α → σ) (ok : σ → α → Bool) : σ → List α → Bool
  | _, [] => true
  | s, a :: run => ok s a && allowed step ok (step s a) run

variable {step : σ → α → σ} {ok : σ → α → Bool}

@[simp] theorem allowed_nil (s : σ) : allowed step ok s [] = true := rfl

theorem allowed_append (s : σ) (run run' : List α) :
    allowed step ok s (run ++ run') =
      (allowed step ok s run && allowed step ok (run.foldl step s) run') := by
  induction run generalizing s with
  | nil => rfl
  | cons b run ih => rw [List.cons_append, allowed, ih, allowed, Bool.and_assoc, List.foldl_cons]

theorem allowed_concat (s : σ) (run : List α) (a : α) :
    allowed step ok s (run ++ [a]) = (allowed step ok s run && ok (run.foldl step s) a) := by
  rw [allowed_append, allowed, allowed_nil, Bool.and_true]

/-- Where the allowed actions keep an invariant, it holds behind every part of an allowed run. -/
theorem along_of_allowed {I : σ → Prop} (hstep : ∀ s a, I s → ok s a = true → I (step s a))
    {s : σ} (hs : I s) {run before after : List α} (hrun : allowed step ok s run = true)
    (heq : run = before ++ after) : I (before.foldl step s) := by
  subst heq
  induction before generalizing s with
  | nil => exact hs
  | cons a before ih =>
    rw [List.cons_append, allowed, Bool.and_eq_true] at hrun
    exact ih (hstep s a hs hrun.1) hrun.2

/-- An invariant that exactly the allowed actions keep holds along a run exactly if every action
is allowed. -/
theorem forall_along_iff_allowed {I : σ → Prop}
    (hstep : ∀ s a, I s → (I (step s a) ↔ ok s a = true)) {s : σ} (hs : I s) (run : List α) :
    (∀ before after, run = before ++ after → I (before.foldl step s)) ↔
      allowed step ok s run = true := by
  induction run generalizing s with
  | nil =>
    refine ⟨fun _ => rfl, fun _ before after heq => ?_⟩
    obtain ⟨rfl, -⟩ := List.append_eq_nil_iff.mp heq.symm
    exact hs
  | cons a run ih =>
    rw [allowed, Bool.and_eq_true]
    constructor
    · intro h
      have hok : ok s a = true := (hstep s a hs).mp (h [a] run rfl)
      refine ⟨hok, (ih ((hstep s a hs).mpr hok)).mp fun before after heq => ?_⟩
      exact h (a :: before) after (by rw [heq, List.cons_append])
    · rintro ⟨hok, hrun⟩ before after heq
      refine along_of_allowed (fun s a hs hok => (hstep s a hs).mpr hok) hs ?_ heq
      rw [allowed, hok, hrun, Bool.and_true]

end Conflux.Core

import Mathlib.Data.List.Basic
import Mathlib.Logic.Relation

/-!
# Loops that run until they answer

One turn of a loop gives a new state or the answer. A loop is run with a bound on its turns;
`Ends` says what it answers however many turns that takes. Where every turn makes a measure
smaller the bound is never met.
-/

namespace Conflux.Core

variable {σ β : Type*}

/-- What one turn of a loop gives. -/
inductive Turn (σ β : Type*) where
  | again (s : σ)
  | done (b : β)
  deriving DecidableEq, Repr

/-- Run a loop for at most `n` turns. -/
def loop (step : σ → Turn σ β) : Nat → σ → Option β
  | 0, _ => none
  | n + 1, s =>
    match step s with
    | .again s' => loop step n s'
    | .done b => some b

/-- What a loop answers, however many turns it takes. -/
inductive Ends (step : σ → Turn σ β) : σ → β → Prop
  | done {s : σ} {b : β} (h : step s = .done b) : Ends step s b
  | again {s s' : σ} {b : β} (h : step s = .again s') (tail : Ends step s' b) : Ends step s b

section

variable {step : σ → Turn σ β} {s s' : σ} {b b' : β}

theorem ends_again_iff (h : step s = .again s') : Ends step s b ↔ Ends step s' b := by
  refine ⟨fun he => ?_, .again h⟩
  cases he with
  | done h' => cases h.symm.trans h'
  | again h' tail =>
    cases h.symm.trans h'
    exact tail

theorem Ends.unique (h : Ends step s b) (h' : Ends step s b') : b = b' := by
  induction h with
  | done h =>
    cases h' with
    | done h' => exact Turn.done.inj (h.symm.trans h')
    | again h' _ => cases h.symm.trans h'
  | again h _ ih => exact ih ((ends_again_iff h).mp h')

theorem ends_done_iff (h : step s = .done b') : Ends step s b ↔ b = b' := by
  refine ⟨fun he => he.unique (.done h), fun heq => ?_⟩
  rw [heq]
  exact .done h

/-- States with the same turn have the same end. -/
theorem ends_congr (h : step s = step s') : Ends step s b ↔ Ends step s' b := by
  cases hs : step s' with
  | again s'' => rw [ends_again_iff hs, ends_again_iff (h.trans hs)]
  | done b' => rw [ends_done_iff hs, ends_done_iff (h.trans hs)]

/-- An answer within the bound is the answer. -/
theorem ends_of_loop {n : Nat} (h : loop step n s = some b) : Ends step s b := by
  induction n generalizing s with
  | zero => cases h
  | succ n ih =>
    rw [loop] at h
    split at h
    · rename_i s' hs
      exact .again hs (ih h)
    rename_i b' hs
    cases h
    exact .done hs

variable {I : σ → Prop}

/-- Where turns keep an invariant and make a measure smaller, the loop answers. -/
theorem exists_loop_eq {μ : σ → Nat} (hstep : ∀ s s', I s → step s = .again s' → I s' ∧ μ s' < μ s)
    {n : Nat} (hs : I s) (hn : μ s < n) : ∃ b, loop step n s = some b := by
  induction n generalizing s with
  | zero => exact absurd hn (Nat.not_lt_zero _)
  | succ n ih =>
    rw [loop]
    cases ht : step s with
    | done b => exact ⟨b, rfl⟩
    | again s' =>
      obtain ⟨hs', hlt⟩ := hstep s s' hs ht
      exact ih hs' (by omega)

/-- What a turn preserves holds of the state an answer is given in. -/
theorem Ends.induct (hstep : ∀ s s', I s → step s = .again s' → I s') (h : Ends step s b)
    (hs : I s) : ∃ s', I s' ∧ step s' = .done b := by
  induction h with
  | done h => exact ⟨_, hs, h⟩
  | again h _ ih => exact ih (hstep _ _ hs h)

end

/-! ## States along a loop -/

/-- A loop that is in one state comes to another one. -/
def Passes (step : σ → Turn σ β) : σ → σ → Prop :=
  Relation.ReflTransGen fun s s' => step s = .again s'

/-- A loop answers the same from every state it comes to. -/
theorem Passes.ends_iff {step : σ → Turn σ β} {s s' : σ} {b : β} (h : Passes step s s') :
    Ends step s b ↔ Ends step s' b := by
  induction h with
  | refl => exact Iff.rfl
  | tail _ hturn ih => exact ih.trans (ends_again_iff hturn)

/-- What a turn preserves holds of every state a loop comes to. -/
theorem Passes.induct {step : σ → Turn σ β} {I : σ → Prop} {s s' : σ} (h : Passes step s s')
    (hstep : ∀ s s', I s → step s = .again s' → I s') (hs : I s) : I s' := by
  induction h with
  | refl => exact hs
  | tail _ hturn ih => exact hstep _ _ ih hturn

/-! ## Checks along a loop -/

section

variable {step : σ → Turn σ β} {check : σ → Bool} {s : σ}

end

/-! ## Ranges

A range gives its elements one after another: it says whether it is at its end, what stands at
the current place, and how to go on.
-/

section

variable {α : Type*} {atEnd : σ → Bool} {current : σ → Option α} {advance : σ → σ}

/-- The elements a range gives from a state on. -/
inductive Traverses (atEnd : σ → Bool) (current : σ → Option α) (advance : σ → σ) :
    σ → List α → Prop
  | nil {s : σ} (h : atEnd s = true) : Traverses atEnd current advance s []
  | cons {s : σ} {a : α} {l : List α} (h : atEnd s = false) (hcurrent : current s = some a)
      (tail : Traverses atEnd current advance (advance s) l) :
      Traverses atEnd current advance s (a :: l)

/-- One turn of the search for the first element of a range with a result. -/
def searchTurn (atEnd : σ → Bool) (current : σ → Option α) (advance : σ → σ)
    (f : α → Option β) (s : σ) : Turn σ (Option β) :=
  if atEnd s then .done none
  else
    match (current s).bind f with
    | some b => .done (some b)
    | none => .again (advance s)

/-- The search over a range finds what the search over its elements finds. -/
theorem Traverses.loop_searchTurn {s : σ} {l : List α} (h : Traverses atEnd current advance s l)
    (f : α → Option β) {n : Nat} (hn : l.length < n) :
    loop (searchTurn atEnd current advance f) n s = some (l.findSome? f) := by
  induction h generalizing n with
  | nil h =>
    obtain ⟨n, rfl⟩ : ∃ m, n = m + 1 := ⟨n - 1, by simp only [List.length_nil] at hn; omega⟩
    rw [loop, searchTurn, if_pos h]
    rfl
  | @cons s a l h hcurrent _ ih =>
    rw [List.length_cons] at hn
    obtain ⟨n, rfl⟩ : ∃ m, n = m + 1 := ⟨n - 1, by omega⟩
    rw [loop, searchTurn, h, if_neg Bool.false_ne_true, hcurrent, Option.bind_some,
      List.findSome?_cons]
    cases f a with
    | some b => rfl
    | none => exact ih (by omega)

end

end Conflux.Core

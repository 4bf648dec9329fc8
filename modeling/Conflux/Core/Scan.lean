import Mathlib.Data.List.Basic

/-!
# Left-to-right scans by units

A scan walks over a list, one unit at a time: a step looks at the head and at what
follows, and either stops with a result or consumes the head together with a number of
further elements. Every unit is non-empty, so scans end without a measure, and they are
structurally recursive, so they evaluate.
-/

namespace Conflux.Core

variable {α σ β : Type*}

/-- What one unit does: stop, or go on in a new state after `extra` elements beyond the head. -/
inductive ScanStep (σ β : Type*) where
  | stop (result : β)
  | next (state : σ) (extra : Nat)
  deriving DecidableEq, Repr

/-- The scan, with the number of elements of the current unit still to be passed over. -/
def scanFrom (step : σ → α → List α → ScanStep σ β) (done : σ → β) :
    List α → Nat → σ → β
  | [], _, s => done s
  | _ :: l, k + 1, s => scanFrom step done l k s
  | a :: l, 0, s =>
    match step s a l with
    | .stop b => b
    | .next s' n => scanFrom step done l n s'

/-- Scan a whole list from its first element. -/
def scan (step : σ → α → List α → ScanStep σ β) (done : σ → β) (s : σ) (l : List α) : β :=
  scanFrom step done l 0 s

section

variable {step : σ → α → List α → ScanStep σ β} {done : σ → β}

/-- Passing over the rest of a unit is dropping it. -/
theorem scanFrom_eq_drop (l : List α) (k : Nat) (s : σ) :
    scanFrom step done l k s = scanFrom step done (l.drop k) 0 s := by
  induction l generalizing k with
  | nil => simp [scanFrom]
  | cons a l ih =>
    cases k with
    | zero => rfl
    | succ k => simpa [scanFrom] using ih k

@[simp] theorem scan_nil (s : σ) : scan step done s [] = done s := rfl

theorem scan_cons (s : σ) (a : α) (l : List α) :
    scan step done s (a :: l) =
      match step s a l with
      | .stop b => b
      | .next s' n => scan step done s' (l.drop n) := by
  simp only [scan, scanFrom]
  cases step s a l with
  | stop b => rfl
  | next s' n => exact scanFrom_eq_drop l n s'

theorem scan_cons_stop {s : σ} {a : α} {l : List α} {b : β} (h : step s a l = .stop b) :
    scan step done s (a :: l) = b := by
  rw [scan_cons, h]

theorem scan_cons_next {s s' : σ} {a : α} {l : List α} {n : Nat} (h : step s a l = .next s' n) :
    scan step done s (a :: l) = scan step done s' (l.drop n) := by
  rw [scan_cons, h]

/-- Induction along the units of a scan. -/
theorem scan_induction (step : σ → α → List α → ScanStep σ β)
    {motive : σ → List α → Prop}
    (nil : ∀ s, motive s [])
    (stop : ∀ s a l b, step s a l = .stop b → motive s (a :: l))
    (next : ∀ s a l s' n, step s a l = .next s' n → motive s' (l.drop n) →
      motive s (a :: l)) (s : σ) (l : List α) : motive s l := by
  induction hlen : l.length using Nat.strongRecOn generalizing s l with
  | _ len ih =>
    cases l with
    | nil => exact nil s
    | cons a l =>
      cases h : step s a l with
      | stop b => exact stop s a l b h
      | next s' n =>
        refine next s a l s' n h (ih (l.drop n).length ?_ s' (l.drop n) rfl)
        simp only [List.length_drop, List.length_cons] at hlen ⊢
        omega

end

end Conflux.Core

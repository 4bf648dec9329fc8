import Conflux.SocketIo.BufferRing.Model

/-!
# The table of saved positions

The calls on the table act as on a finite map, whatever their order, as long as they leave a
slot free.
-/

namespace Conflux.SocketIo

open Conflux.Core OpenTable

/-- A call that changes the table. -/
inductive SavedCall where
  | insertOrAssign (pos id : Nat)
  | erase (pos : Nat)
  deriving DecidableEq, Repr

/-- The table after a call; without a slot for its entry a call leaves it. -/
def savedStep (t : OpenTable Nat) : SavedCall → OpenTable Nat
  | .insertOrAssign pos id => (t.insertOrAssign bundleHash pos id).getD t
  | .erase pos => t.erase bundleHash pos

/-- A table without entries. -/
def newTable (size : Nat) : OpenTable Nat := { size := size, slot := fun _ => none }

/-- The id that a position has after a call, given the ids before. -/
def assignedStep (ids : Nat → Option Nat) : SavedCall → Nat → Option Nat
  | .insertOrAssign pos id => Function.update ids pos (some id)
  | .erase pos => Function.update ids pos none

section

variable {t : OpenTable Nat} (h : Sound bundleHash t)
include h

theorem savedStep_spec (call : SavedCall) (hroom : ∃ i, (savedStep t call).at_ i = none) :
    Sound bundleHash (savedStep t call) ∧
      (savedStep t call).find bundleHash = assignedStep (t.find bundleHash) call := by
  cases call with
  | insertOrAssign pos id =>
    obtain ⟨n, heq, hhas, hsound⟩ := h.insertOrAssign pos id
    rw [savedStep, heq] at hroom ⊢
    have hsound := hsound hroom
    refine ⟨hsound, funext fun p => hsound.find_eq fun v => (hhas p v).trans ?_⟩
    rw [assignedStep, Function.update_apply]
    split
    · rw [Option.some.injEq, eq_comm]
    · exact h.find_eq_some_iff.symm
  | erase pos =>
    obtain ⟨hsound, -, hhas⟩ := h.erase pos
    refine ⟨hsound, funext fun p => hsound.find_eq fun v => (hhas p v).trans ?_⟩
    rw [assignedStep, Function.update_apply]
    split
    · rename_i heq
      exact ⟨fun hne => absurd heq hne.1, fun hnone => by cases hnone⟩
    · rename_i hne
      rw [h.find_eq_some_iff]
      exact and_iff_right hne

/-- The loop of an erasure meets a free slot. -/
theorem erase_meets_free (i : Nat) :
    ∃ n < t.size, (reinsert bundleHash n (t.setAt i none) (i + 1)).at_ (i + 1 + n) = none := by
  obtain ⟨left, hleft, hplacing⟩ := h.placing i
  exact ⟨left, hleft, (hplacing.reinsert (le_refl left)).2.2.2⟩

end

/-- After any calls a position is found with the id last assigned to it, if it was not erased
since. An erasure ends and leaves the other positions. -/
theorem bundleSaved_finiteMap (k : Nat) (calls : List SavedCall)
    (hroom : ∀ done, done <+: calls → ∃ i, (done.foldl savedStep (newTable (2 ^ k))).at_ i = none) :
    let t := calls.foldl savedStep (newTable (2 ^ k))
    (∀ pos, t.find bundleHash pos = calls.foldl assignedStep (fun _ => none) pos) ∧
      (∀ i, ∃ n < t.size,
        (reinsert bundleHash n (t.setAt i none) (i + 1)).at_ (i + 1 + n) = none) ∧
      ∀ pos other, other ≠ pos →
        (t.erase bundleHash pos).find bundleHash other = t.find bundleHash other := by
  have hrun : Sound bundleHash (calls.foldl savedStep (newTable (2 ^ k))) ∧
      (calls.foldl savedStep (newTable (2 ^ k))).find bundleHash =
        calls.foldl assignedStep fun _ => none := by
    induction calls using List.reverseRecOn with
    | nil =>
      have hsound : Sound bundleHash (newTable (2 ^ k)) := sound_empty (Nat.two_pow_pos k)
      exact ⟨hsound, funext fun _ => hsound.find_eq_none fun _ ⟨_, hat⟩ => by cases hat⟩
    | append_singleton calls call ih =>
      obtain ⟨hsound, hfind⟩ := ih fun done hdone =>
        hroom done (hdone.trans (List.prefix_append _ _))
      have hlast := hroom _ (List.prefix_refl _)
      rw [List.foldl_append] at hlast
      obtain ⟨hnext, hstep⟩ := savedStep_spec hsound call hlast
      rw [List.foldl_append, List.foldl_append]
      exact ⟨hnext, hstep.trans (by rw [hfind]; rfl)⟩
  obtain ⟨hsound, hfind⟩ := hrun
  refine ⟨congrFun hfind, erase_meets_free hsound, fun pos other hne => ?_⟩
  have hroom : ∃ i, (savedStep _ (.erase pos)).at_ i = none := (hsound.erase pos).1.room
  have hstep := congrFun (savedStep_spec hsound (.erase pos) hroom).2 other
  exact hstep.trans (Function.update_of_ne hne _ _)

/-- Three positions of one slot, the last of the table, and the first of them erased again. -/
def wrappedCalls : List SavedCall :=
  [.insertOrAssign 3 5, .insertOrAssign 7 6, .insertOrAssign 11 4, .erase 3]

/-- The two that were placed at the start of the table are found after the erasure. -/
theorem bundleSaved_finiteMap_wrapped :
    let t := wrappedCalls.foldl savedStep (newTable (2 ^ 2))
    t.find bundleHash 3 = none ∧ t.find bundleHash 7 = some 6 ∧ t.find bundleHash 11 = some 4 := by
  have hroom : ∀ done ∈ wrappedCalls.inits,
      (done.foldl savedStep (newTable (2 ^ 2))).at_ 2 = none := by
    decide
  have hfind := (bundleSaved_finiteMap 2 wrappedCalls fun done hdone =>
    ⟨2, hroom done ((List.mem_inits done _).mpr hdone)⟩).1
  exact ⟨hfind 3, hfind 7, hfind 11⟩

end Conflux.SocketIo

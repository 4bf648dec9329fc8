import Mathlib.Data.List.Basic
import Mathlib.Data.List.Forall2

/-!
# Slices and blocks of lists

Tables that only grow at their end: a slice that lies inside a table reads the same in every
extension of it. A list is cut into blocks of one size, and what is left over of a first part is
cut together with the part that follows.
-/

namespace Conflux.Core

open List

variable {α β γ : Type*}

/-- The `len` elements from offset `off` on, if the table has them all. -/
def slice (l : List α) (off len : Nat) : Option (List α) :=
  if off + len ≤ l.length then some ((l.drop off).take len) else none

variable {off len : Nat} {bs : List β} {g : α → β} {l : List α} {f : α → Option β}

/-- A slice survives an extension of its table. -/
theorem slice_append {s : List α} (h : slice l off len = some s) (l' : List α) :
    slice (l ++ l') off len = some s := by
  simp only [slice] at h ⊢
  split at h
  · rename_i hle
    rw [if_pos (by simp only [length_append]; omega), ← h,
      drop_append_of_le_length (by omega),
      take_append_of_le_length (by simp only [length_drop]; omega)]
  · cases h

theorem slice_append_right (l s : List α) : slice (l ++ s) l.length s.length = some s := by
  simp [slice]

@[simp] theorem slice_zero (l : List α) (h : off ≤ l.length) :
    slice l off 0 = some [] := by
  simp [slice, h]

/-- Apply a partial function to every element. -/
def mapOption (f : α → Option β) : List α → Option (List β)
  | [] => some []
  | a :: l =>
    match f a, mapOption f l with
    | some b, some bs => some (b :: bs)
    | _, _ => none

/-- A total map of a partial function lists its values. -/
theorem mapOption_eq_some :
    mapOption f l = some bs ↔ List.Forall₂ (fun a b => f a = some b) l bs := by
  induction l generalizing bs with
  | nil => cases bs <;> simp [mapOption]
  | cons a l ih =>
    unfold mapOption
    cases bs with
    | nil =>
      split <;> simp
    | cons b bs =>
      rw [forall₂_cons, ← ih]
      cases f a <;> cases mapOption f l <;> simp

/-- A function that follows another one maps the same lists to the images of its values. -/
theorem mapOption_map {g : α → Option γ} {φ : β → γ}
    (hfg : ∀ a ∈ l, ∀ b, f a = some b → g a = some (φ b)) (h : mapOption f l = some bs) :
    mapOption g l = some (bs.map φ) := by
  induction l generalizing bs with
  | nil =>
    cases h
    rfl
  | cons a l ih =>
    unfold mapOption at h ⊢
    split at h
    · rename_i b bs' hb hbs'
      rw [hfg a (by simp) b hb, ih (fun x hx => hfg x (by simp [hx])) hbs']
      cases h
      rfl
    · cases h

/-- A function that is at least as defined maps the same lists to the same values. -/
theorem mapOption_mono {g : α → Option β} (hfg : ∀ a ∈ l, ∀ b, f a = some b → g a = some b)
    (h : mapOption f l = some bs) : mapOption g l = some bs := by
  have hmap := mapOption_map (φ := id) hfg h
  rwa [map_id] at hmap

/-! ## Updates in place -/

theorem modify_append_length (l l' : List α) (j : Nat) (f : α → α) :
    (l ++ l').modify (l.length + j) f = l ++ l'.modify j f := by
  induction l with
  | nil => simp
  | cons a l ih =>
    rw [length_cons, Nat.add_right_comm, cons_append, modify_succ_cons, ih, cons_append]

/-- An update that an observation sees as an update of what it observes. -/
theorem map_modify {f : α → α} (f' : β → β) (h : ∀ a, g (f a) = f' (g a)) (l : List α) (j : Nat) :
    (l.modify j f).map g = (l.map g).modify j f' := by
  induction l generalizing j with
  | nil => simp
  | cons a l ih =>
    cases j with
    | zero => simp [h]
    | succ j => simp [ih]

/-- An update that an observation does not see. -/
theorem map_modify_of_eq {f : α → α} (h : ∀ a, g (f a) = g a) (l : List α) (j : Nat) :
    (l.modify j f).map g = l.map g := by
  have hid : (l.map g).modify j id = l.map g := modify_id j (l.map g)
  rw [map_modify id h l j]
  exact hid

/-- Related updates at one index keep related lists related. -/
theorem forall₂_modify {R : α → β → Prop} {l' : List β} {f : α → α} {g : β → β}
    (h : List.Forall₂ R l l') (hfg : ∀ a b, R a b → R (f a) (g b)) (j : Nat) :
    List.Forall₂ R (l.modify j f) (l'.modify j g) := by
  induction h generalizing j with
  | nil => simp
  | cons hab htail ih =>
    cases j with
    | zero => exact .cons (hfg _ _ hab) htail
    | succ j => exact .cons hab (ih j)

/-! ## Blocks -/

variable {α : Type*} {k : Nat} {b l : List α}

/-- The whole blocks of a list. -/
def blocks (k : Nat) (l : List α) : List (List α) :=
  (range (l.length / k)).map fun i => (l.drop (k * i)).take k

/-- What is left over after the whole blocks. -/
def leftover (k : Nat) (l : List α) : List α := l.drop (k * (l.length / k))

theorem blocks_of_lt (h : l.length < k) : blocks k l = [] := by
  rw [blocks, Nat.div_eq_of_lt h]
  rfl

theorem leftover_of_lt (h : l.length < k) : leftover k l = l := by
  rw [leftover, Nat.div_eq_of_lt h]
  rfl

theorem length_leftover (k : Nat) (l : List α) : (leftover k l).length = l.length % k := by
  rw [leftover, length_drop]
  exact (Nat.mod_eq_sub l.length k).symm

section

variable (hk : 0 < k) (hb : b.length = k)
include hk hb

theorem length_block_append (l : List α) : (b ++ l).length / k = l.length / k + 1 := by
  rw [length_append, hb, Nat.add_div_left _ hk]

theorem blocks_block_append (l : List α) : blocks k (b ++ l) = b :: blocks k l := by
  have hdrop (i : Nat) : (b ++ l).drop (k * (i + 1)) = l.drop (k * i) := by
    rw [Nat.mul_succ, Nat.add_comm, ← hb, drop_length_add_append]
  rw [blocks, length_block_append hk hb, range_succ_eq_map, map_cons, map_map]
  simp only [Function.comp_def, hdrop, Nat.mul_zero, drop_zero, take_left' hb]
  rfl

theorem leftover_block_append (l : List α) : leftover k (b ++ l) = leftover k l := by
  rw [leftover, length_block_append hk hb, Nat.mul_succ, Nat.add_comm, ← hb,
    drop_length_add_append]
  rfl

end

/-- The second part is cut after what is left over of the first. -/
theorem blocks_append (hk : 0 < k) (l m : List α) :
    blocks k (l ++ m) = blocks k l ++ blocks k (leftover k l ++ m) ∧
      leftover k (l ++ m) = leftover k (leftover k l ++ m) := by
  induction hn : l.length using Nat.strongRecOn generalizing l with
  | ind n ih =>
    by_cases hlt : l.length < k
    · simp [blocks_of_lt hlt, leftover_of_lt hlt]
    -- The first block comes off on both sides.
    have hb : (l.take k).length = k := length_take_of_le (Nat.le_of_not_lt hlt)
    have hdrop := ih (l.drop k).length (by rw [length_drop]; omega) (l.drop k) rfl
    rw [← take_append_drop k l, append_assoc, blocks_block_append hk hb,
      blocks_block_append hk hb, leftover_block_append hk hb, leftover_block_append hk hb]
    exact ⟨congrArg _ hdrop.1, hdrop.2⟩

end Conflux.Core

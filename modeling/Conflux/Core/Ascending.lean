import Mathlib.Data.List.Sort
import Mathlib.Algebra.Order.BigOperators.Group.List
import Mathlib.Algebra.Order.Ring.Nat

/-!
# Ascending lists of positions

Positions of the elements of a list that have a property, the search for the first position with a
result, and the merge of several ascending lists into one without repetitions.
-/

namespace Conflux.Core

open List

variable {α β : Type*}

/-- The positions of the elements with a property, in order. -/
def positions (p : α → Bool) (l : List α) : List Nat :=
  (List.range l.length).filter fun i => (l[i]?).any p

theorem mem_positions {p : α → Bool} {l : List α} {i : Nat} :
    i ∈ positions p l ↔ ∃ a, l[i]? = some a ∧ p a = true := by
  unfold positions
  rw [mem_filter, mem_range, Option.any_eq_true]
  constructor
  · rintro ⟨-, a, ha, hp⟩
    exact ⟨a, ha, hp⟩
  · rintro ⟨a, ha, hp⟩
    exact ⟨(List.getElem?_eq_some_iff.mp ha).1, a, ha, hp⟩

section

variable (p : α → Bool)
include p

theorem positions_ascending (l : List α) : (positions p l).Pairwise (· < ·) :=
  pairwise_lt_range.filter _

theorem nodup_positions (l : List α) : (positions p l).Nodup :=
  (positions_ascending p l).imp fun hlt => ne_of_lt hlt

/-- The positions in a second list come after those in the first. -/
theorem positions_append (l l' : List α) :
    positions p (l ++ l') = positions p l ++ (positions p l').map (l.length + ·) := by
  have hfirst : (List.range l.length).filter (fun i => ((l ++ l')[i]?).any p) =
      (List.range l.length).filter fun i => (l[i]?).any p := by
    apply filter_congr
    intro i hi
    rw [List.getElem?_append_left (mem_range.mp hi)]
  have hsecond : ((fun i => ((l ++ l')[i]?).any p) ∘ fun i => l.length + i) =
      fun i => (l'[i]?).any p := by
    funext i
    simp only [Function.comp_apply]
    rw [List.getElem?_append_right (Nat.le_add_right _ _), Nat.add_sub_cancel_left]
  unfold positions
  rw [length_append, range_add, filter_append, hfirst, filter_map, hsecond]

/-- One more element adds at most its own position. -/
theorem positions_concat (l : List α) (a : α) :
    positions p (l ++ [a]) = positions p l ++ if p a then [l.length] else [] := by
  have hone : positions p [a] = if p a then [0] else [] := by
    cases h : p a <;> simp [positions, h]
  rw [positions_append, hone]
  split <;> rfl

end

/-- A search over a part of the positions finds the first result of all, if the part has all
positions with a result. -/
theorem findSome?_eq_of_cover {f g : Nat → Option β} {part all : List Nat}
    (hpart : part.Pairwise (· < ·)) (hall : all.Pairwise (· < ·))
    (hsub : ∀ i ∈ part, i ∈ all ∧ f i = g i) (hcover : ∀ i ∈ all, (g i).isSome → i ∈ part) :
    part.findSome? f = all.findSome? g := by
  -- Ascending lists with the same members are one list, so the part is a filtered whole.
  have hpart' : part = all.filter (· ∈ part) := by
    refine hpart.eq_of_mem_iff (hall.filter _) fun i => ?_
    rw [mem_filter, decide_eq_true_iff]
    exact ⟨fun hi => ⟨(hsub i hi).1, hi⟩, And.right⟩
  have hsearch {rest : List Nat} (hrest : ∀ i ∈ rest, (g i).isSome → i ∈ part) :
      (rest.filter (· ∈ part)).findSome? f = rest.findSome? g := by
    induction rest with
    | nil => rfl
    | cons i rest ih =>
      obtain ⟨hi, hrest⟩ := forall_mem_cons.mp hrest
      rw [filter_cons, List.findSome?_cons]
      by_cases hmem : i ∈ part
      · rw [if_pos (decide_eq_true hmem), List.findSome?_cons, (hsub i hmem).2, ih hrest]
      have hnone : g i = none := Option.not_isSome_iff_eq_none.mp fun hsome => hmem (hi hsome)
      rw [if_neg (by simpa using hmem), hnone]
      exact ih hrest
  rw [hpart']
  exact hsearch hcover

/-! ## Merging -/

/-- The least of the first elements. -/
def leastHead (lists : List (List Nat)) : Option Nat :=
  (lists.filterMap List.head?).min?

/-- Pass over the first element if it is the given one. -/
def passHead (c : Nat) (l : List Nat) : List Nat :=
  if l.head? = some c then l.tail else l

/-- Merge lists, with at most `n` elements of the result. -/
def merge : Nat → List (List Nat) → List Nat
  | 0, _ => []
  | n + 1, lists =>
    match leastHead lists with
    | none => []
    | some c => c :: merge n (lists.map (passHead c))

variable {lists : List (List Nat)}

theorem leastHead_eq_none : leastHead lists = none ↔ ∀ l ∈ lists, l = [] := by
  unfold leastHead
  rw [List.min?_eq_none_iff, filterMap_eq_nil_iff]
  exact forall₂_congr fun l _ => List.head?_eq_none_iff

variable {c : Nat} {l : List Nat}

theorem leastHead_eq_some (h : leastHead lists = some c) :
    (∃ l ∈ lists, l.head? = some c) ∧ ∀ l ∈ lists, ∀ x ∈ l.head?, c ≤ x := by
  obtain ⟨hmem, hleast⟩ := List.min?_eq_some_iff.mp h
  refine ⟨mem_filterMap.mp hmem, ?_⟩
  intro l hl x hx
  exact hleast x (mem_filterMap.mpr ⟨l, hl, hx⟩)

section

variable (h : l.Pairwise (· < ·))
include h

/-- In an ascending list the first element is the least. -/
theorem le_of_ascending (hc : ∀ x ∈ l.head?, c ≤ x) : ∀ x ∈ l, c ≤ x := by
  cases l with
  | nil => simp
  | cons a l =>
    obtain ⟨hlt, -⟩ := pairwise_cons.mp h
    have ha : c ≤ a := hc a rfl
    intro x hx
    rcases mem_cons.mp hx with rfl | hx
    · exact ha
    · exact le_trans ha (le_of_lt (hlt x hx))

theorem passHead_ascending (c : Nat) :
    (passHead c l).Pairwise (· < ·) := by
  unfold passHead
  split
  · exact h.tail
  · exact h

/-- Passing over the least element takes just this element away. -/
theorem mem_passHead (hc : ∀ x ∈ l.head?, c ≤ x) {x : Nat} :
    x ∈ passHead c l ↔ x ∈ l ∧ x ≠ c := by
  have hle := le_of_ascending h hc
  unfold passHead
  cases l with
  | nil => simp
  | cons a l =>
    obtain ⟨hlt, -⟩ := pairwise_cons.mp h
    by_cases hac : a = c
    · subst hac
      rw [if_pos List.head?_cons, tail_cons, mem_cons]
      constructor
      · intro hx
        exact ⟨.inr hx, ne_of_gt (hlt x hx)⟩
      rintro ⟨hx | hx, hne⟩
      · exact absurd hx hne
      · exact hx
    have hhead : ¬ (a :: l).head? = some c := fun heq => hac (Option.some.inj heq)
    rw [if_neg hhead]
    constructor
    · intro hx
      refine ⟨hx, ?_⟩
      rintro rfl
      rcases mem_cons.mp hx with hxa | hx
      · exact hac hxa.symm
      · have hca : x ≤ a := hc a rfl
        exact absurd (hlt x hx) (Nat.not_lt.mpr hca)
    · exact And.left

end

/-- The number of elements of all lists. -/
def totalLength (lists : List (List Nat)) : Nat :=
  (lists.map List.length).sum

theorem passHead_length_le (c : Nat) (l : List Nat) : (passHead c l).length ≤ l.length := by
  unfold passHead
  split
  · rw [length_tail]
    omega
  · exact le_refl _

/-- Each element of the result uses up one of the lists. -/
theorem totalLength_passHead_lt (h : ∃ l ∈ lists, l.head? = some c) :
    totalLength (lists.map (passHead c)) < totalLength lists := by
  obtain ⟨l, hl, hhead⟩ := h
  rw [totalLength, totalLength, map_map]
  refine sum_lt_sum _ _ (fun l _ => passHead_length_le c l) ⟨l, hl, ?_⟩
  cases l with
  | nil => cases hhead
  | cons a l =>
    rw [Function.comp_apply, passHead, if_pos hhead]
    exact Nat.lt_succ_self _

theorem length_merge_le (n : Nat) (lists : List (List Nat)) : (merge n lists).length ≤ n := by
  induction n generalizing lists with
  | zero => exact Nat.le_refl _
  | succ n ih =>
    rw [merge]
    cases leastHead lists with
    | none => exact Nat.zero_le _
    | some c => exact Nat.succ_le_succ (ih _)

/-- The merge holds what the lists hold, in ascending order. -/
theorem merge_spec {n : Nat} (hasc : ∀ l ∈ lists, l.Pairwise (· < ·)) (hn : totalLength lists ≤ n) :
    (∀ x, x ∈ merge n lists ↔ ∃ l ∈ lists, x ∈ l) ∧ (merge n lists).Pairwise (· < ·) := by
  have hnil {lists : List (List Nat)} (hempty : ∀ l ∈ lists, l = []) :
      (∀ x : Nat, x ∈ [] ↔ ∃ l ∈ lists, x ∈ l) ∧ ([] : List Nat).Pairwise (· < ·) := by
    refine ⟨fun x => ⟨fun hx => (by cases hx), ?_⟩, List.Pairwise.nil⟩
    rintro ⟨l, hl, hx⟩
    rw [hempty l hl] at hx
    exact hx
  induction n generalizing lists with
  | zero =>
    have hempty : ∀ l ∈ lists, l = [] := by
      intro l hl
      have hle : l.length ≤ totalLength lists :=
        le_sum_of_mem (mem_map_of_mem hl)
      exact length_eq_zero_iff.mp (by omega)
    exact hnil hempty
  | succ n ih =>
    rw [merge]
    cases hleast : leastHead lists with
    | none => exact hnil (leastHead_eq_none.mp hleast)
    | some c =>
      obtain ⟨hsome, hmin⟩ := leastHead_eq_some hleast
      have hasc' : ∀ l ∈ lists.map (passHead c), l.Pairwise (· < ·) := by
        intro l hl
        obtain ⟨l₀, hl₀, rfl⟩ := mem_map.mp hl
        exact passHead_ascending (hasc l₀ hl₀) c
      have hlt := totalLength_passHead_lt hsome
      obtain ⟨hmem, hpair⟩ := ih hasc' (by omega)
      have hrest (x : Nat) : x ∈ merge n (lists.map (passHead c)) ↔ ∃ l ∈ lists, x ∈ l ∧ x ≠ c := by
        rw [hmem]
        constructor
        · rintro ⟨l, hl, hx⟩
          obtain ⟨l₀, hl₀, rfl⟩ := mem_map.mp hl
          exact ⟨l₀, hl₀, (mem_passHead (hasc l₀ hl₀) (hmin l₀ hl₀)).mp hx⟩
        · rintro ⟨l, hl, hx⟩
          exact ⟨passHead c l, mem_map_of_mem hl, (mem_passHead (hasc l hl) (hmin l hl)).mpr hx⟩
      refine ⟨fun x => ?_, pairwise_cons.mpr ⟨?_, hpair⟩⟩
      · rw [mem_cons, hrest]
        constructor
        · rintro (rfl | ⟨l, hl, hx, -⟩)
          · obtain ⟨l, hl, hhead⟩ := hsome
            exact ⟨l, hl, mem_of_mem_head? hhead⟩
          · exact ⟨l, hl, hx⟩
        rintro ⟨l, hl, hx⟩
        by_cases hxc : x = c
        · exact .inl hxc
        · exact .inr ⟨l, hl, hx, hxc⟩
      intro x hx
      obtain ⟨l, hl, hxl, hne⟩ := (hrest x).mp hx
      have hle := le_of_ascending (hasc l hl) (hmin l hl) x hxl
      omega

end Conflux.Core

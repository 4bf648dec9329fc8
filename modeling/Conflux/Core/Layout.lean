import Mathlib.Data.List.Flatten
import Mathlib.Data.List.Infix
import Mathlib.Data.List.Nodup
import Mathlib.Logic.Function.Basic
import Mathlib.Order.WellFounded

/-!
# Trees in tables

Nodes are numbers, and each node points to some others. Where every node points to smaller ones
only, every way down ends, and the nodes below a node can be listed. Such tables grow by leaves and
by nodes that close a range: the numbers they point to are appended to one of several tables of
node numbers, and the node after them to the nodes.
-/

namespace Conflux.Core

open List

section

variable {kids kids' : Nat → List Nat}

/-- The node a path of positions leads to. -/
def follow (kids : Nat → List Nat) : Nat → List Nat → Option Nat
  | i, [] => some i
  | i, k :: path => ((kids i)[k]?).bind fun c => follow kids c path

/-- The nodes a walk visits, children first, for at most `n` levels. -/
def visit (kids : Nat → List Nat) : Nat → Nat → List Nat
  | 0, _ => []
  | n + 1, i => (kids i).flatMap (visit kids n) ++ [i]

/-- Every node points to smaller ones. -/
def Descending (kids : Nat → List Nat) : Prop :=
  ∀ i, ∀ c ∈ kids i, c < i

variable {j : Nat} {path : List Nat}

theorem follow_cons {i k : Nat} (h : follow kids i (k :: path) = some j) :
    ∃ c, (kids i)[k]? = some c ∧ follow kids c path = some j :=
  Option.bind_eq_some_iff.mp h

/-- There is no loop to walk in. -/
theorem Descending.wellFounded (h : Descending kids) : WellFounded fun c i => c ∈ kids i :=
  Subrelation.wf (fun {c i} hc => h i c hc) Nat.lt_wfRel.wf

/-- A way down is no longer than the number of the node it starts from. -/
theorem Descending.length_le (h : Descending kids) {i : Nat} (hp : follow kids i path = some j) :
    j + path.length ≤ i := by
  induction path generalizing i with
  | nil =>
    cases hp
    exact Nat.le_refl _
  | cons k path ih =>
    obtain ⟨c, hc, hrest⟩ := follow_cons hp
    have hlt := h i c (mem_of_getElem? hc)
    have hle := ih hrest
    rw [length_cons]
    omega

/-- Enough levels visit the same nodes. -/
theorem Descending.visit_eq (h : Descending kids) {n m i : Nat} (hn : i < n) (hm : i < m) :
    visit kids n i = visit kids m i := by
  induction n generalizing m i with
  | zero => omega
  | succ n ih =>
    obtain ⟨m, rfl⟩ : ∃ k, m = k + 1 := ⟨m - 1, by omega⟩
    have hkids : (kids i).flatMap (visit kids n) = (kids i).flatMap (visit kids m) := by
      apply flatMap_congr
      intro c hc
      have hlt := h i c hc
      exact ih (by omega) (by omega)
    rw [visit, visit, hkids]

/-- All nodes a walk from a node visits, children first. -/
def below (kids : Nat → List Nat) (i : Nat) : List Nat :=
  visit kids (i + 1) i

section

variable (h : Descending kids)
include h

theorem Descending.below_eq (i : Nat) :
    below kids i = (kids i).flatMap (below kids) ++ [i] := by
  have hkids : (kids i).flatMap (visit kids i) = (kids i).flatMap (below kids) := by
    apply flatMap_congr
    intro c hc
    exact h.visit_eq (h i c hc) (Nat.lt_succ_self c)
  rw [← hkids]
  rfl

/-- What is visited from a node depends on what this and smaller nodes point to. -/
theorem Descending.below_congr {i : Nat}
    (heq : ∀ j ≤ i, kids' j = kids j) : below kids' i = below kids i := by
  have aux (n : Nat) : ∀ j ≤ i, visit kids' n j = visit kids n j := by
    induction n with
    | zero => exact fun _ _ => rfl
    | succ n ih =>
      intro j hj
      have hkids : (kids j).flatMap (visit kids' n) = (kids j).flatMap (visit kids n) := by
        apply flatMap_congr
        intro c hc
        have hlt := h j c hc
        exact ih c (by omega)
      rw [visit, visit, heq j hj, hkids]
  exact aux (i + 1) i (Nat.le_refl i)

/-- The visited nodes are those some path leads to. -/
theorem Descending.mem_below {i : Nat} :
    j ∈ below kids i ↔ ∃ path, follow kids i path = some j := by
  induction i using Nat.strong_induction_on with
  | _ i ih =>
    rw [h.below_eq, mem_append, mem_flatMap, mem_singleton]
    constructor
    · rintro (⟨c, hc, hj⟩ | rfl)
      · obtain ⟨k, hk⟩ := mem_iff_getElem?.mp hc
        obtain ⟨path, hpath⟩ := (ih c (h i c hc)).mp hj
        refine ⟨k :: path, ?_⟩
        rw [follow, hk]
        exact hpath
      · exact ⟨[], rfl⟩
    rintro ⟨path, hpath⟩
    cases path with
    | nil =>
      cases hpath
      exact .inr rfl
    | cons k path =>
      obtain ⟨c, hc, hrest⟩ := follow_cons hpath
      have hmem := mem_of_getElem? hc
      exact .inl ⟨c, hmem, (ih c (h i c hmem)).mpr ⟨path, hrest⟩⟩

/-- If no node is visited twice, there is one way to each. -/
theorem Descending.path_unique {i : Nat} (hnodup : (below kids i).Nodup)
    {path' : List Nat} (hp : follow kids i path = some j) (hp' : follow kids i path' = some j) :
    path = path' := by
  induction path generalizing i path' with
  | nil =>
    cases hp
    have hle := h.length_le hp'
    exact (length_eq_zero_iff.mp (by omega)).symm
  | cons k path ih =>
    obtain ⟨c, hc, hrest⟩ := follow_cons hp
    have hlt := h i c (mem_of_getElem? hc)
    have hle := h.length_le hrest
    cases path' with
    | nil =>
      cases hp'
      omega
    | cons k' path' =>
      obtain ⟨c', hc', hrest'⟩ := follow_cons hp'
      rw [h.below_eq] at hnodup
      obtain ⟨heach, hdisjoint⟩ := nodup_flatMap.mp (nodup_append.mp hnodup).1
      have hkk : k = k' := by
        -- Two positions would visit the node twice.
        have hmem : j ∈ below kids c := h.mem_below.mpr ⟨path, hrest⟩
        have hmem' : j ∈ below kids c' := h.mem_below.mpr ⟨path', hrest'⟩
        obtain ⟨hk, hck⟩ := List.getElem?_eq_some_iff.mp hc
        obtain ⟨hk', hck'⟩ := List.getElem?_eq_some_iff.mp hc'
        have hpair := pairwise_iff_getElem.mp hdisjoint
        rcases Nat.lt_trichotomy k k' with hlt | heq | hgt
        · have hdis := hpair k k' hk hk' hlt
          rw [hck, hck'] at hdis
          exact absurd hmem' (hdis hmem)
        · exact heq
        · have hdis := hpair k' k hk' hk hgt
          rw [hck, hck'] at hdis
          exact absurd hmem (hdis hmem')
      subst hkk
      rw [hc] at hc'
      cases hc'
      rw [ih (heach c (mem_of_getElem? hc)) hrest hrest']

end

end

/-! ## Tables of ranges -/

/-- Nodes, each with the table, the start and the length of its range, and the tables. -/
structure Layout (κ : Type*) where
  nodes : List (Option (κ × Nat × Nat))
  table : κ → List Nat

namespace Layout

variable {κ : Type*} {L L' L'' : Layout κ}

/-- The nodes a node points to. -/
def kids (L : Layout κ) (i : Nat) : List Nat :=
  match L.nodes[i]? with
  | some (some (k, off, len)) => ((L.table k).drop off).take len
  | _ => []

/-- Append a leaf; its number and the new layout. -/
def leaf (L : Layout κ) : Nat × Layout κ :=
  (L.nodes.length, { L with nodes := L.nodes ++ [none] })

/-- Append a node that points to the given ones; its number and the new layout. -/
def close [DecidableEq κ] (L : Layout κ) (k : κ) (cs : List Nat) : Nat × Layout κ :=
  (L.nodes.length,
    { nodes := L.nodes ++ [some (k, (L.table k).length, cs.length)]
      table := Function.update L.table k (L.table k ++ cs) })

/-- Ranges lie in their tables in the order of their nodes, and nodes point to smaller ones. -/
structure Ok (L : Layout κ) : Prop where
  inside {i : Nat} {k : κ} {off len : Nat} :
    L.nodes[i]? = some (some (k, off, len)) → off + len ≤ (L.table k).length
  ordered {i j : Nat} {k : κ} {off len off' len' : Nat} : i < j →
    L.nodes[i]? = some (some (k, off, len)) → L.nodes[j]? = some (some (k, off', len')) →
      off + len ≤ off'
  descending : Descending L.kids

/-- Ranges of one table in distinct nodes do not overlap. -/
theorem Ok.disjoint (h : L.Ok) {i j : Nat} {k : κ} {off len off' len' : Nat} (hij : i ≠ j)
    (hi : L.nodes[i]? = some (some (k, off, len)))
    (hj : L.nodes[j]? = some (some (k, off', len'))) : off + len ≤ off' ∨ off' + len' ≤ off := by
  rcases Nat.lt_or_gt_of_ne hij with hlt | hgt
  · exact .inl (h.ordered hlt hi hj)
  · exact .inr (h.ordered hgt hj hi)

/-- One layout goes on from another. -/
structure Extends (L L' : Layout κ) : Prop where
  nodes : L.nodes <+: L'.nodes
  table : ∀ k, L.table k <+: L'.table k

protected theorem Extends.refl (L : Layout κ) : L.Extends L :=
  ⟨prefix_rfl, fun _ => prefix_rfl⟩

protected theorem Extends.trans (h : L.Extends L') (h' : L'.Extends L'') : L.Extends L'' :=
  ⟨h.nodes.trans h'.nodes, fun k => (h.table k).trans (h'.table k)⟩

theorem Extends.length_le (h : L.Extends L') : L.nodes.length ≤ L'.nodes.length :=
  h.nodes.length_le

theorem kids_of_length_le {i : Nat} (h : L.nodes.length ≤ i) : L.kids i = [] := by
  unfold kids
  rw [List.getElem?_eq_none h]

/-- Nodes keep what they point to. -/
theorem Ok.kids_eq (h : L.Ok) (hext : L.Extends L') {i : Nat} (hi : i < L.nodes.length) :
    L'.kids i = L.kids i := by
  obtain ⟨rest, hnodes⟩ := hext.nodes
  have hnode : L'.nodes[i]? = L.nodes[i]? := by
    rw [← hnodes, List.getElem?_append_left hi]
  unfold kids
  rw [hnode]
  split
  · rename_i k off len hi
    have hinside := h.inside hi
    obtain ⟨more, htable⟩ := hext.table k
    have hlen : len ≤ ((L.table k).drop off).length := by
      rw [length_drop]
      omega
    rw [← htable, drop_append_of_le_length (by omega), take_append_of_le_length hlen]
  · rfl

/-- Nodes keep what is below them. -/
theorem Ok.below_eq (h : L.Ok) (hext : L.Extends L') {i : Nat} (hi : i < L.nodes.length) :
    below L'.kids i = below L.kids i := by
  apply h.descending.below_congr
  intro j hj
  exact h.kids_eq hext (by omega)

variable {cs : List Nat}

theorem Ok.flatMap_below (h : L.Ok) (hext : L.Extends L') (hcs : ∀ c ∈ cs, c < L.nodes.length) :
    cs.flatMap (below L'.kids) = cs.flatMap (below L.kids) := by
  apply flatMap_congr
  intro c hc
  exact h.below_eq hext (hcs c hc)

/-! ## Leaves -/

theorem leaf_extends (L : Layout κ) : L.Extends L.leaf.2 :=
  ⟨prefix_append _ _, fun _ => prefix_rfl⟩

theorem length_leaf (L : Layout κ) : L.leaf.2.nodes.length = L.nodes.length + 1 := by
  simp [leaf]

/-- The last node of a grown table, and the others. -/
theorem getElem?_concat {α : Type*} {l : List α} {a b : α} {i : Nat}
    (h : (l ++ [a])[i]? = some b) : l[i]? = some b ∨ (i = l.length ∧ b = a) := by
  rcases Nat.lt_trichotomy i l.length with hlt | rfl | hgt
  · rw [List.getElem?_append_left hlt] at h
    exact .inl h
  · rw [List.getElem?_append_right (Nat.le_refl _), Nat.sub_self] at h
    cases h
    exact .inr ⟨rfl, rfl⟩
  · rw [List.getElem?_eq_none (by rw [length_append, length_singleton]; omega)] at h
    cases h

theorem kids_leaf (L : Layout κ) : L.leaf.2.kids L.leaf.1 = [] := by
  unfold kids leaf
  simp

theorem Ok.leaf (h : L.Ok) : L.leaf.2.Ok where
  inside := by
    intro i k off len hi
    rcases getElem?_concat hi with hold | ⟨-, hnew⟩
    · exact h.inside hold
    · cases hnew
  ordered := by
    intro i j k off len off' len' hij hi hj
    rcases getElem?_concat hj with hjold | ⟨-, hjnew⟩
    · rcases getElem?_concat hi with hiold | ⟨-, hinew⟩
      · exact h.ordered hij hiold hjold
      · cases hinew
    · cases hjnew
  descending := by
    intro i c hc
    rcases Nat.lt_trichotomy i L.nodes.length with hlt | rfl | hgt
    · rw [h.kids_eq L.leaf_extends hlt] at hc
      exact h.descending i c hc
    · have hkids : L.leaf.2.kids L.nodes.length = [] := L.kids_leaf
      rw [hkids] at hc
      cases hc
    · rw [kids_of_length_le (by rw [length_leaf]; omega)] at hc
      cases hc

/-- Below a leaf there is nothing else. -/
theorem Ok.below_leaf (h : L.Ok) : below L.leaf.2.kids L.leaf.1 = [L.nodes.length] := by
  rw [h.leaf.descending.below_eq, L.kids_leaf]
  rfl

/-! ## Nodes with a range -/

variable [DecidableEq κ]

theorem close_extends (L : Layout κ) (k : κ) (cs : List Nat) : L.Extends (L.close k cs).2 := by
  refine ⟨prefix_append _ _, fun k' => ?_⟩
  by_cases hk : k' = k
  · subst hk
    unfold close
    dsimp only
    rw [Function.update_self]
    exact prefix_append _ _
  · unfold close
    dsimp only
    rw [Function.update_of_ne hk]

theorem length_close (L : Layout κ) (k : κ) (cs : List Nat) :
    (L.close k cs).2.nodes.length = L.nodes.length + 1 := by
  simp [close]

theorem kids_close (L : Layout κ) (k : κ) (cs : List Nat) :
    (L.close k cs).2.kids (L.close k cs).1 = cs := by
  unfold kids close
  simp

theorem Ok.close (h : L.Ok) (k : κ) (hcs : ∀ c ∈ cs, c < L.nodes.length) : (L.close k cs).2.Ok where
  inside := by
    intro i k' off len hi
    rcases getElem?_concat hi with hold | ⟨-, hnew⟩
    · exact le_trans (h.inside hold) ((L.close_extends k cs).table k').length_le
    cases hnew
    unfold Layout.close
    simp
  ordered := by
    intro i j k' off len off' len' hij hi hj
    rcases getElem?_concat hj with hjold | ⟨rfl, hjnew⟩
    · rcases getElem?_concat hi with hiold | ⟨rfl, -⟩
      · exact h.ordered hij hiold hjold
      · have hlt := (List.getElem?_eq_some_iff.mp hjold).1
        omega
    rcases getElem?_concat hi with hiold | ⟨rfl, -⟩
    · cases hjnew
      exact h.inside hiold
    · omega
  descending := by
    intro i c hc
    rcases Nat.lt_trichotomy i L.nodes.length with hlt | rfl | hgt
    · rw [h.kids_eq (L.close_extends k cs) hlt] at hc
      exact h.descending i c hc
    · have hkids : (L.close k cs).2.kids L.nodes.length = cs := L.kids_close k cs
      rw [hkids] at hc
      exact hcs c hc
    · rw [kids_of_length_le (by rw [length_close]; omega)] at hc
      cases hc

/-- Below a node are the nodes below those it points to, and itself. -/
theorem Ok.below_close (h : L.Ok) (k : κ) (hcs : ∀ c ∈ cs, c < L.nodes.length) :
    below (L.close k cs).2.kids (L.close k cs).1 =
      cs.flatMap (below L.kids) ++ [L.nodes.length] := by
  rw [(h.close k hcs).descending.below_eq, L.kids_close, h.flatMap_below (L.close_extends k cs) hcs]
  rfl

end Layout

end Conflux.Core

import Mathlib.Data.List.Dedup
import Mathlib.Data.List.Nodup

/-!
# Association lists with a policy for repeated keys

Two ways to fold a list of key-value pairs into one with distinct keys: the first value of
a key stays, or a later one replaces it in place. Both keep the keys in the order of their
first appearance.
-/

namespace Conflux.Core

open List

variable {κ ν : Type*} [DecidableEq κ]

/-- Value of the first pair with a given key. -/
def assocFind (k : κ) : List (κ × ν) → Option ν
  | [] => none
  | (k', v) :: l => if k' = k then some v else assocFind k l

/-- Add a pair at the end unless its key is there. -/
def keepFirst (l : List (κ × ν)) (m : κ × ν) : List (κ × ν) :=
  if m.1 ∈ l.map Prod.fst then l else l ++ [m]

/-- Set the value of a key in place, or add the pair at the end. -/
def keepLast (l : List (κ × ν)) (m : κ × ν) : List (κ × ν) :=
  if m.1 ∈ l.map Prod.fst then l.map fun x => if x.1 = m.1 then (x.1, m.2) else x
  else l ++ [m]

/-- Change the value of a key in place, from a default if the key is not there. -/
def assocUpdate (k : κ) (default : ν) (f : ν → ν) : List (κ × ν) → List (κ × ν)
  | [] => [(k, f default)]
  | (k', v) :: l => if k' = k then (k', f v) :: l else (k', v) :: assocUpdate k default f l

/-- Fold a list of pairs, keeping the first value of each key. -/
def foldFirst (l : List (κ × ν)) : List (κ × ν) := l.foldl keepFirst []

/-- Fold a list of pairs, keeping the last value of each key. -/
def foldLast (l : List (κ × ν)) : List (κ × ν) := l.foldl keepLast []

/-- Keys in the order of their first appearance. -/
def firstKeys (ks : List κ) : List κ :=
  ks.foldl (fun acc k => if k ∈ acc then acc else acc ++ [k]) []

@[simp] theorem map_fst_keepFirst (l : List (κ × ν)) (m : κ × ν) :
    (keepFirst l m).map Prod.fst =
      if m.1 ∈ l.map Prod.fst then l.map Prod.fst else l.map Prod.fst ++ [m.1] := by
  unfold keepFirst
  split <;> simp

@[simp] theorem map_fst_keepLast (l : List (κ × ν)) (m : κ × ν) :
    (keepLast l m).map Prod.fst =
      if m.1 ∈ l.map Prod.fst then l.map Prod.fst else l.map Prod.fst ++ [m.1] := by
  unfold keepLast
  split
  · rw [map_map]
    apply map_congr_left
    intro x _
    simp only [Function.comp_apply]
    split <;> rfl
  · simp

variable {f : List (κ × ν) → κ × ν → List (κ × ν)} {m : κ × ν} {j : Nat}

private theorem map_fst_foldl
    (hf : ∀ l m, (f l m).map Prod.fst =
      if m.1 ∈ l.map Prod.fst then l.map Prod.fst else l.map Prod.fst ++ [m.1])
    (l acc : List (κ × ν)) :
    (l.foldl f acc).map Prod.fst =
      (l.map Prod.fst).foldl (fun acc k => if k ∈ acc then acc else acc ++ [k])
        (acc.map Prod.fst) := by
  induction l generalizing acc with
  | nil => rfl
  | cons m l ih =>
    simp only [foldl_cons, map_cons]
    rw [ih, hf]

/-- Both folds hold the same keys, in the order of their first appearance. -/
theorem map_fst_foldFirst (l : List (κ × ν)) :
    (foldFirst l).map Prod.fst = firstKeys (l.map Prod.fst) :=
  map_fst_foldl map_fst_keepFirst l []

@[inherit_doc map_fst_foldFirst]
theorem map_fst_foldLast (l : List (κ × ν)) :
    (foldLast l).map Prod.fst = firstKeys (l.map Prod.fst) :=
  map_fst_foldl map_fst_keepLast l []

private theorem nodup_firstKeys_aux (ks acc : List κ) (h : acc.Nodup) :
    (ks.foldl (fun acc k => if k ∈ acc then acc else acc ++ [k]) acc).Nodup := by
  induction ks generalizing acc with
  | nil => exact h
  | cons k ks ih =>
    rw [foldl_cons]
    apply ih
    split
    · exact h
    · rename_i hk
      exact nodup_append.mpr ⟨h, by simp, by grind⟩

theorem nodup_firstKeys (ks : List κ) : (firstKeys ks).Nodup :=
  nodup_firstKeys_aux ks [] nodup_nil

variable {l : List (κ × ν)} {x : κ × ν} {k : κ} {v : ν}

theorem mem_of_mem_keepFirst (h : x ∈ keepFirst l m) : x ∈ l ∨ x = m := by
  unfold keepFirst at h
  split at h
  · exact .inl h
  · simpa using h

theorem mem_of_mem_keepLast (h : x ∈ keepLast l m) : x ∈ l ∨ x = m := by
  unfold keepLast at h
  split at h
  · obtain ⟨y, hy, rfl⟩ := mem_map.mp h
    split
    · rename_i hkey
      exact .inr (Prod.ext hkey rfl)
    · exact .inl hy
  · simpa using h

/-- Both ways of adding a pair look at keys only. -/
theorem keepFirst_map {μ : Type*} (g : ν → μ) (l : List (κ × ν)) (m : κ × ν) :
    keepFirst (l.map (Prod.map id g)) (Prod.map id g m) = (keepFirst l m).map (Prod.map id g) := by
  have hkeys : (l.map (Prod.map id g)).map Prod.fst = l.map Prod.fst := by simp
  unfold keepFirst
  rw [hkeys]
  split <;> simp_all

@[inherit_doc keepFirst_map]
theorem keepLast_map {μ : Type*} (g : ν → μ) (l : List (κ × ν)) (m : κ × ν) :
    keepLast (l.map (Prod.map id g)) (Prod.map id g m) = (keepLast l m).map (Prod.map id g) := by
  have hkeys : (l.map (Prod.map id g)).map Prod.fst = l.map Prod.fst := by simp
  unfold keepLast
  rw [hkeys, Prod.map_fst, id_eq]
  split
  · simp only [map_map]
    apply map_congr_left
    intro x _
    simp only [Function.comp_apply, Prod.map_fst, Prod.map_snd, id_eq]
    split <;> rfl
  · simp

omit [DecidableEq κ] in
private theorem mem_foldl (hf : ∀ l m x, x ∈ f l m → x ∈ l ∨ x = m) {acc : List (κ × ν)}
    (h : x ∈ l.foldl f acc) : x ∈ acc ∨ x ∈ l := by
  induction l generalizing acc with
  | nil => exact .inl h
  | cons m l ih =>
    obtain hx | hx := ih h
    · obtain hx | rfl := hf acc m x hx
      · exact .inl hx
      · exact .inr (by simp)
    · exact .inr (by simp [hx])

/-- Both folds hold only pairs that were there. -/
theorem mem_foldFirst (h : x ∈ foldFirst l) : x ∈ l :=
  (mem_foldl (fun _ _ _ => mem_of_mem_keepFirst) h).resolve_left (by simp)

@[inherit_doc mem_foldFirst]
theorem mem_foldLast (h : x ∈ foldLast l) : x ∈ l :=
  (mem_foldl (fun _ _ _ => mem_of_mem_keepLast) h).resolve_left (by simp)

/-! ## Setting a value in place -/

theorem findIdx?_eq_none_iff_key : l.findIdx? (fun x => x.1 = k) = none ↔ k ∉ l.map Prod.fst := by
  simp only [List.findIdx?_eq_none_iff, decide_eq_false_iff_not, mem_map, not_exists, not_and]

theorem mem_of_findIdx?_key (h : l.findIdx? (fun x => x.1 = k) = some j) : k ∈ l.map Prod.fst := by
  by_contra hk
  rw [findIdx?_eq_none_iff_key.mpr hk] at h
  cases h

/-- The place of a key depends on the keys only. -/
theorem findIdx?_key_congr {μ : Type*} {l' : List (κ × μ)} (h : l.map Prod.fst = l'.map Prod.fst)
    (k : κ) : l.findIdx? (fun x => x.1 = k) = l'.findIdx? (fun x => x.1 = k) := by
  have hkeys := congrArg (List.findIdx? fun x => decide (x = k)) h
  rw [List.findIdx?_map, List.findIdx?_map] at hkeys
  exact hkeys

private theorem map_set_of_notMem (h : k ∉ l.map Prod.fst) :
    (l.map fun x => if x.1 = k then (x.1, v) else x) = l := by
  induction l with
  | nil => rfl
  | cons x l ih =>
    simp only [map_cons, mem_cons, not_or] at h ⊢
    rw [if_neg (Ne.symm h.1), ih h.2]

/-- A key that is there splits the list around its pair. -/
theorem keepLast_split (hn : (l.map Prod.fst).Nodup) (hk : k ∈ l.map Prod.fst) (v : ν) :
    ∃ front old back, l = front ++ (k, old) :: back ∧ k ∉ front.map Prod.fst ∧
      k ∉ back.map Prod.fst ∧ keepLast l (k, v) = front ++ (k, v) :: back := by
  obtain ⟨⟨k', old⟩, hmem, rfl⟩ := mem_map.mp hk
  obtain ⟨front, back, rfl⟩ := append_of_mem hmem
  rw [map_append, map_cons, nodup_middle, nodup_cons, mem_append, not_or] at hn
  refine ⟨front, old, back, rfl, hn.1.1, hn.1.2, ?_⟩
  rw [keepLast, if_pos hk, map_append, map_cons, if_pos rfl,
    map_set_of_notMem hn.1.1, map_set_of_notMem hn.1.2]

/-- With distinct keys, setting the value at the index of a key keeps the last value. -/
theorem modify_eq_keepLast (hn : (l.map Prod.fst).Nodup)
    (hj : l.findIdx? (fun x => x.1 = k) = some j) :
    l.modify j (fun x => (x.1, v)) = keepLast l (k, v) := by
  rw [keepLast, if_pos (mem_of_findIdx?_key hj)]
  induction l generalizing j with
  | nil => cases hj
  | cons x l ih =>
    rw [List.findIdx?_cons] at hj
    rw [map_cons, nodup_cons] at hn
    by_cases hx : x.1 = k
    · simp only [hx, decide_true, if_true, Option.some.injEq] at hj
      subst hj
      have hk : k ∉ l.map Prod.fst := hx ▸ hn.1
      simp only [modify_zero_cons, map_cons, hx, if_true]
      rw [map_set_of_notMem hk]
    simp only [hx, decide_false, Bool.false_eq_true, if_false, Option.map_eq_some_iff] at hj
    obtain ⟨j', hj', rfl⟩ := hj
    simp only [modify_succ_cons, map_cons, hx, if_false]
    rw [ih hn.2 hj']

/-! ## Which value a key ends up with -/

/-- A lookup among pairs that are computed. -/
theorem assocFind_map {α : Type*} (f : α → κ) (g : α → ν) (k : κ) (l : List α) :
    assocFind k (l.map fun a => (f a, g a)) = (l.find? fun a => f a = k).map g := by
  induction l with
  | nil => rfl
  | cons a l ih =>
    by_cases ha : f a = k
    · simp [assocFind, ha]
    · simp [assocFind, ha, ih]

theorem assocFind_eq_find? (k : κ) (l : List (κ × ν)) :
    assocFind k l = (l.find? fun x => x.1 = k).map Prod.snd := by
  simpa using assocFind_map Prod.fst Prod.snd k l

theorem assocFind_append (k : κ) (l l' : List (κ × ν)) :
    assocFind k (l ++ l') = (assocFind k l).or (assocFind k l') := by
  simp only [assocFind_eq_find?, find?_append, Option.map_or]

theorem assocFind_eq_none : assocFind k l = none ↔ k ∉ l.map Prod.fst := by
  simp only [assocFind_eq_find?, Option.map_eq_none_iff, find?_eq_none, decide_eq_true_eq, mem_map,
    not_exists, not_and]

theorem mem_of_assocFind (h : assocFind k l = some v) : (k, v) ∈ l := by
  rw [assocFind_eq_find?] at h
  obtain ⟨⟨k', v⟩, hfind, rfl⟩ := Option.map_eq_some_iff.mp h
  obtain rfl : k' = k := by simpa using find?_some hfind
  exact mem_of_find?_eq_some hfind

/-- With distinct keys, a lookup finds every pair. -/
theorem assocFind_of_mem (hn : (l.map Prod.fst).Nodup) (h : (k, v) ∈ l) :
    assocFind k l = some v := by
  cases hfind : assocFind k l with
  | none => exact absurd (mem_map_of_mem h) (assocFind_eq_none.mp hfind)
  | some w =>
    have heq := inj_on_of_nodup_map hn (mem_of_assocFind hfind) h rfl
    rw [(Prod.mk.inj heq).2]

theorem assocFind_assocUpdate (k k' : κ) (default : ν) (f : ν → ν) (l : List (κ × ν)) :
    assocFind k (assocUpdate k' default f l) =
      if k' = k then some (f ((assocFind k l).getD default)) else assocFind k l := by
  induction l with
  | nil => rfl
  | cons m l ih =>
    obtain ⟨a, v⟩ := m
    by_cases ha : a = k'
    · subst ha
      rw [assocUpdate, if_pos rfl]
      by_cases hk : a = k
      all_goals simp [assocFind, hk]
    rw [assocUpdate, if_neg ha, assocFind, assocFind, ih]
    by_cases hk : k' = k
    · subst hk
      simp [ha]
    · simp only [if_neg hk]

theorem assocFind_keepFirst (k : κ) (l : List (κ × ν)) (m : κ × ν) :
    assocFind k (keepFirst l m) = (assocFind k l).or (assocFind k [m]) := by
  unfold keepFirst
  split
  · rename_i hm
    by_cases hk : m.1 = k
    · cases h : assocFind k l with
      | none => exact absurd (hk ▸ hm) (assocFind_eq_none.mp h)
      | some v => rfl
    · obtain ⟨k', v⟩ := m
      simp_all [assocFind]
  · exact assocFind_append k l [m]

private theorem assocFind_map_set (k k' : κ) (v : ν) (l : List (κ × ν)) :
    assocFind k (l.map fun x => if x.1 = k' then (x.1, v) else x) =
      if k' = k then (assocFind k l).map (fun _ => v) else assocFind k l := by
  induction l with
  | nil => simp [assocFind]
  | cons x l ih =>
    obtain ⟨a, w⟩ := x
    by_cases ha : a = k' <;> by_cases hk : a = k <;> simp_all [assocFind]
    exact fun h => absurd h.symm ‹_›

theorem assocFind_keepLast (k : κ) (l : List (κ × ν)) (m : κ × ν) :
    assocFind k (keepLast l m) = (assocFind k [m]).or (assocFind k l) := by
  obtain ⟨k', v⟩ := m
  unfold keepLast
  by_cases hk : k' = k
  · subst hk
    cases h : assocFind k' l with
    | none =>
      rw [if_neg (assocFind_eq_none.mp h), assocFind_append, h, Option.none_or, Option.or_none]
    | some w =>
      have hm : k' ∈ l.map Prod.fst := by
        by_contra hm
        simp [assocFind_eq_none.mpr hm] at h
      rw [if_pos hm, assocFind_map_set]
      simp [h, assocFind]
  split
  · rw [assocFind_map_set]
    simp [hk, assocFind]
  · rw [assocFind_append]
    simp [hk, assocFind]

/-- Folding with the first value: a lookup finds the first one written. -/
theorem assocFind_foldFirst (k : κ) (l : List (κ × ν)) :
    assocFind k (foldFirst l) = assocFind k l := by
  have aux (acc : List (κ × ν)) : assocFind k (l.foldl keepFirst acc) = assocFind k (acc ++ l) := by
    induction l generalizing acc with
    | nil => simp
    | cons m l ih =>
      rw [foldl_cons, ih, assocFind_append, assocFind_keepFirst, ← assocFind_append,
        ← assocFind_append, append_assoc, singleton_append]
  exact aux []

/-- Folding with the last value: a lookup finds the last one written. -/
theorem assocFind_foldLast (k : κ) (l : List (κ × ν)) :
    assocFind k (foldLast l) = assocFind k l.reverse := by
  have aux (acc : List (κ × ν)) :
      assocFind k (l.foldl keepLast acc) = assocFind k (l.reverse ++ acc) := by
    induction l generalizing acc with
    | nil => simp
    | cons m l ih =>
      rw [foldl_cons, ih, assocFind_append, assocFind_keepLast, ← assocFind_append,
        ← assocFind_append, reverse_cons, append_assoc]
  simpa [foldLast] using aux []

end Conflux.Core

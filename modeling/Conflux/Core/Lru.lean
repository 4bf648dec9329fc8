import Conflux.Core.Assoc

/-!
# Maps that forget what was used longest ago

A map of bounded size keeps its entries in the order of their last use, the oldest first. A new
key in a full map takes the place of the oldest entry.
-/

namespace Conflux.Core

open List

/-- A map with distinct keys and a bound on their number. -/
structure Lru (κ ν : Type*) where
  max : Nat
  entries : List (κ × ν)
  pos : 0 < max
  distinct : (entries.map Prod.fst).Nodup
  bounded : entries.length ≤ max

namespace Lru

variable {κ ν : Type*} {m : Lru κ ν} {e : κ × ν} {k : κ} {v : ν} {l : List (κ × ν)}

/-- The map without entries; it has room for one at least. -/
def empty (cap : Nat) : Lru κ ν where
  max := Nat.max cap 1
  entries := []
  pos := Nat.lt_of_lt_of_le Nat.one_pos (Nat.le_max_right cap 1)
  distinct := nodup_nil
  bounded := Nat.zero_le _

/-- Drop every entry that a test picks. -/
def eraseIf (m : Lru κ ν) (test : κ → ν → Bool) : Lru κ ν where
  max := m.max
  entries := m.entries.filter fun e => !test e.1 e.2
  pos := m.pos
  distinct := m.distinct.sublist (filter_sublist.map Prod.fst)
  bounded := Nat.le_trans (length_filter_le _ _) m.bounded

theorem mem_eraseIf {test : κ → ν → Bool} :
    e ∈ (m.eraseIf test).entries ↔ e ∈ m.entries ∧ test e.1 e.2 = false := by
  simp [eraseIf, mem_filter]

/-- A key that was not there is new behind the others. -/
theorem nodup_keys_concat (hl : (l.map Prod.fst).Nodup) (hk : k ∉ l.map Prod.fst) :
    ((l ++ [(k, v)]).map Prod.fst).Nodup := by
  rw [map_append, map_singleton]
  exact List.Nodup.append hl (nodup_singleton k) (disjoint_singleton.mpr hk)

/-- Entries with room for one more: the oldest goes if the map is full. -/
def spared (m : Lru κ ν) : List (κ × ν) :=
  if m.max ≤ m.entries.length then m.entries.tail else m.entries

theorem spared_sublist (m : Lru κ ν) : m.spared.Sublist m.entries := by
  rw [spared]
  split
  · exact tail_sublist _
  · exact List.Sublist.refl _

theorem length_spared_lt (m : Lru κ ν) : m.spared.length < m.max := by
  have hpos := m.pos
  have hbound := m.bounded
  rw [spared]
  split
  · rw [length_tail]
    omega
  · omega

variable [DecidableEq κ]

/-- The value under a key. -/
def lookup (m : Lru κ ν) (k : κ) : Option ν := assocFind k m.entries

theorem mem_of_lookup (h : m.lookup k = some v) : (k, v) ∈ m.entries :=
  mem_of_assocFind h

theorem lookup_of_mem (h : (k, v) ∈ m.entries) : m.lookup k = some v :=
  assocFind_of_mem m.distinct h

/-- Entries under other keys. -/
def without (k : κ) (l : List (κ × ν)) : List (κ × ν) := l.filter fun e => e.1 ≠ k

theorem mem_without : e ∈ without k l ↔ e ∈ l ∧ e.1 ≠ k := by
  simp [without, mem_filter]

theorem not_mem_keys_without (k : κ) (l : List (κ × ν)) : k ∉ (without k l).map Prod.fst := by
  intro hk
  obtain ⟨e, he, rfl⟩ := mem_map.mp hk
  exact (mem_without.mp he).2 rfl

theorem nodup_keys_without (k : κ) (hl : (l.map Prod.fst).Nodup) :
    ((without k l).map Prod.fst).Nodup :=
  hl.sublist (filter_sublist.map Prod.fst)

theorem length_without_lt (h : (k, v) ∈ l) : (without k l).length < l.length := by
  apply length_filter_lt_length_iff_exists.mpr
  exact ⟨(k, v), h, by simp⟩

/-- Put an entry last, in the place of the one under its key. -/
def refresh (m : Lru κ ν) (k : κ) (v : ν) (h : (m.lookup k).isSome) : Lru κ ν where
  max := m.max
  entries := without k m.entries ++ [(k, v)]
  pos := m.pos
  distinct := nodup_keys_concat (nodup_keys_without k m.distinct) (not_mem_keys_without k _)
  bounded := by
    obtain ⟨old, hold⟩ := Option.isSome_iff_exists.mp h
    have hlt := length_without_lt (mem_of_lookup hold)
    have hbound := m.bounded
    rw [length_append, length_singleton]
    omega

/-- Put a new entry last. -/
def append (m : Lru κ ν) (k : κ) (v : ν) (h : m.lookup k = none) : Lru κ ν where
  max := m.max
  entries := m.spared ++ [(k, v)]
  pos := m.pos
  distinct := by
    apply nodup_keys_concat (m.distinct.sublist (m.spared_sublist.map Prod.fst))
    intro hk
    exact assocFind_eq_none.mp h ((m.spared_sublist.map Prod.fst).subset hk)
  bounded := by
    have hlt := m.length_spared_lt
    rw [length_append, length_singleton]
    omega

/-- The value under a key, which becomes the one used last. -/
def find (m : Lru κ ν) (k : κ) : Option (ν × Lru κ ν) :=
  match h : m.lookup k with
  | none => none
  | some v => some (v, m.refresh k v (by rw [h]; rfl))

/-- Drop one key. -/
def erase (m : Lru κ ν) (k : κ) : Lru κ ν := m.eraseIf fun k' _ => k' = k

/-- Set the value of a key, which becomes the one used last. -/
def insertOrAssign (m : Lru κ ν) (k : κ) (v : ν) : Lru κ ν :=
  match h : m.lookup k with
  | none => m.append k v h
  | some _ => m.refresh k v (by rw [h]; rfl)

/-! ## What the operations leave -/

theorem mem_refresh {h : (m.lookup k).isSome} (he : e ∈ (m.refresh k v h).entries) :
    e ∈ m.entries ∨ e = (k, v) := by
  rw [refresh, mem_append, mem_singleton] at he
  exact he.imp_left fun he => (mem_without.mp he).1

theorem mem_insertOrAssign (he : e ∈ (m.insertOrAssign k v).entries) :
    e ∈ m.entries ∨ e = (k, v) := by
  rw [insertOrAssign] at he
  split at he
  · rw [append, mem_append, mem_singleton] at he
    exact he.imp_left fun he => m.spared_sublist.subset he
  · exact mem_refresh he

theorem lookup_insertOrAssign (m : Lru κ ν) (k : κ) (v : ν) :
    (m.insertOrAssign k v).lookup k = some v := by
  apply lookup_of_mem
  rw [insertOrAssign]
  split <;> exact mem_append_right _ (mem_singleton_self _)

theorem mem_erase (he : e ∈ (m.erase k).entries) : e ∈ m.entries :=
  (mem_eraseIf.mp he).1

theorem find_eq_none (h : m.lookup k = none) : m.find k = none := by
  rw [find]
  split
  · rfl
  rename_i hv
  rw [h] at hv
  cases hv

/-- What is found was stored under the key, and the entries stay the same. -/
theorem find_eq_some {m' : Lru κ ν} (h : m.find k = some (v, m')) :
    (k, v) ∈ m.entries ∧ ∀ e ∈ m'.entries, e ∈ m.entries := by
  rw [find] at h
  split at h
  · cases h
  rename_i v' hv
  cases h
  refine ⟨mem_of_lookup hv, ?_⟩
  intro e he
  obtain he | rfl := mem_refresh he
  · exact he
  · exact mem_of_lookup hv

/-- A stored value is found. -/
theorem exists_find (h : m.lookup k = some v) : ∃ m', m.find k = some (v, m') := by
  rw [find]
  split
  · rename_i hv
    rw [h] at hv
    cases hv
  rename_i v' hv
  rw [h] at hv
  cases hv
  exact ⟨_, rfl⟩

end Lru

end Conflux.Core

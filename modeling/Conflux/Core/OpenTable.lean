import Mathlib.Data.Finset.Card
import Mathlib.Data.Finset.Range
import Mathlib.Logic.Function.Basic
import Mathlib.Data.Nat.Find

/-!
# Open addressing with deletion

A table whose entries stand at the first free slot from their hash on. Deleting an entry frees
its slot and places the entries behind it, up to the next free slot, anew. Slots are numbered
without bound and taken modulo the size.

An entry can be found if no slot between its hash and its place is free. While entries are
placed anew this may fail for those that are still to come, and only for them.
-/

namespace Conflux.Core

open Option

/-- A table of numbered slots, each free or with a key and a value. -/
structure OpenTable (ν : Type*) where
  size : Nat
  /-- The slots below the size. -/
  slot : Nat → Option (Nat × ν)

namespace OpenTable

variable {ν : Type*}

/-- The entry of a slot. -/
def at_ (t : OpenTable ν) (i : Nat) : Option (Nat × ν) := t.slot (i % t.size)

/-- Change a slot. -/
def setAt (t : OpenTable ν) (i : Nat) (entry : Option (Nat × ν)) : OpenTable ν :=
  { t with slot := Function.update t.slot (i % t.size) entry }

/-- Look for a key in at most so many slots. -/
def findFrom (t : OpenTable ν) (key : Nat) : Nat → Nat → Option ν
  | 0, _ => none
  | rounds + 1, i =>
    match t.at_ i with
    | none => none
    | some (other, v) => if other = key then some v else findFrom t key rounds (i + 1)

/-- Place an entry in at most so many slots. -/
def insertFrom (t : OpenTable ν) (key : Nat) (v : ν) : Nat → Nat → Option (OpenTable ν)
  | 0, _ => none
  | rounds + 1, i =>
    match t.at_ i with
    | none => some (t.setAt i (some (key, v)))
    | some (other, _) =>
      if other = key then some (t.setAt i (some (key, v)))
      else insertFrom t key v rounds (i + 1)

variable (hash : Nat → Nat)

/-- The value of a key. -/
def find (t : OpenTable ν) (key : Nat) : Option ν := t.findFrom key t.size (hash key)

/-- Give a key a value; a full table has no place for a new key. -/
def insertOrAssign (t : OpenTable ν) (key : Nat) (v : ν) : Option (OpenTable ν) :=
  t.insertFrom key v t.size (hash key)

/-- Place the entries from a slot on anew, up to a free one. -/
def reinsert : Nat → OpenTable ν → Nat → OpenTable ν
  | 0, t, _ => t
  | rounds + 1, t, j =>
    match t.at_ j with
    | none => t
    | some (key, v) =>
      let freed := t.setAt j none
      reinsert rounds ((freed.insertOrAssign hash key v).getD freed) (j + 1)

/-- Look for a key in at most so many slots and delete its entry. -/
def eraseFrom (t : OpenTable ν) (key : Nat) : Nat → Nat → OpenTable ν
  | 0, _ => t
  | rounds + 1, i =>
    match t.at_ i with
    | none => t
    | some (other, _) =>
      if other = key then reinsert hash t.size (t.setAt i none) (i + 1)
      else eraseFrom t key rounds (i + 1)

/-- Delete the entry of a key. -/
def erase (t : OpenTable ν) (key : Nat) : OpenTable ν := t.eraseFrom hash key t.size (hash key)

/-! ## Slots -/

variable {hash} {t : OpenTable ν} {j left i key n rounds a : Nat} {w v : ν}

theorem at_congr (h : i % t.size = j % t.size) : t.at_ i = t.at_ j := by
  rw [at_, at_, h]

@[simp] theorem setAt_size (i : Nat) (entry : Option (Nat × ν)) :
    (t.setAt i entry).size = t.size := rfl

theorem at_setAt (i j : Nat) (entry : Option (Nat × ν)) :
    (t.setAt i entry).at_ j = if j % t.size = i % t.size then entry else t.at_ j := by
  simp only [at_, setAt, Function.update_apply]

theorem at_setAt_eq_some {entry : Option (Nat × ν)} {e : Nat × ν} :
    (t.setAt i entry).at_ j = some e ↔
      (j % t.size = i % t.size ∧ entry = some e) ∨
        (j % t.size ≠ i % t.size ∧ t.at_ j = some e) := by
  rw [at_setAt]
  split <;> simp_all

/-- Freeing a slot leaves the other entries. -/
theorem at_freed {e : Nat × ν} :
    (t.setAt i none).at_ j = some e ↔ j % t.size ≠ i % t.size ∧ t.at_ j = some e := by
  simp [at_setAt_eq_some]

theorem at_setAt_ne_none {e : Nat × ν} (h : t.at_ j ≠ none) :
    (t.setAt i (some e)).at_ j ≠ none := by
  rw [at_setAt]
  split
  · exact some_ne_none _
  · exact h

/-- No slot is free on the way to `i`. -/
def Reaches (t : OpenTable ν) (a i : Nat) : Prop :=
  ∃ n, (a + n) % t.size = i % t.size ∧ ∀ m < n, t.at_ (a + m) ≠ none

/-- The table has the entry. -/
def Has (t : OpenTable ν) (key : Nat) (v : ν) : Prop :=
  ∃ i, t.at_ i = some (key, v)

/-- A key stands in one slot. -/
def Distinct (t : OpenTable ν) : Prop :=
  ∀ {i j key v w}, t.at_ i = some (key, v) → t.at_ j = some (key, w) → i % t.size = j % t.size

/-- The slots on a way have other keys. -/
def Others (t : OpenTable ν) (key a n : Nat) : Prop :=
  ∀ m < n, ∃ other w, t.at_ (a + m) = some (other, w) ∧ other ≠ key

/-- Every entry is where it is found. -/
structure Sound (hash : Nat → Nat) (t : OpenTable ν) : Prop where
  size_pos : 0 < t.size
  distinct : t.Distinct
  reach : ∀ {i key v}, t.at_ i = some (key, v) → t.Reaches (hash key) i
  room : ∃ i, t.at_ i = none

/-- Some slot less than a turn ahead is any given one. -/
theorem exists_ahead (hpos : 0 < t.size) (a i : Nat) :
    ∃ n < t.size, (a + n) % t.size = i % t.size := by
  have hlt := Nat.mod_lt a hpos
  have hsplit := Nat.mod_add_div a t.size
  have hsum : a + (i + (t.size - a % t.size)) = i + t.size * (a / t.size + 1) := by
    rw [Nat.mul_add]
    omega
  refine ⟨(i + (t.size - a % t.size)) % t.size, Nat.mod_lt _ hpos, ?_⟩
  rw [Nat.add_mod_mod, hsum, Nat.add_mul_mod_self_left]

/-- The first free slot from a place on is less than a turn ahead. -/
theorem exists_first_free (hpos : 0 < t.size) (hroom : ∃ i, t.at_ i = none) (a : Nat) :
    ∃ n < t.size, t.at_ (a + n) = none ∧ ∀ m < n, t.at_ (a + m) ≠ none := by
  classical
  obtain ⟨i, hi⟩ := hroom
  obtain ⟨n, hn, heq⟩ := exists_ahead hpos a i
  have hfree : ∃ n, t.at_ (a + n) = none := ⟨n, (at_congr heq).trans hi⟩
  refine ⟨Nat.find hfree, ?_, Nat.find_spec hfree, fun m hm => Nat.find_min hfree hm⟩
  exact lt_of_le_of_lt (Nat.find_min' hfree ((at_congr heq).trans hi)) hn

/-! ## Looking for a key -/

/-- A walk along the slots goes past entries with other keys. -/
theorem walk_eq {α : Type*} {f : Nat → Nat → α}
    (hstep : ∀ {rounds i other w}, t.at_ i = some (other, w) → other ≠ key →
      f (rounds + 1) i = f rounds (i + 1))
    (hpath : t.Others key a n) (hn : n < rounds) :
    f rounds a = f (rounds - n - 1 + 1) (a + n) := by
  rw [Nat.sub_add_cancel (Nat.sub_pos_of_lt hn)]
  induction n generalizing rounds with
  | zero => rfl
  | succ n ih =>
    obtain ⟨other, w, hat, hne⟩ := hpath n (Nat.lt_succ_self n)
    rw [ih (fun m hm => hpath m (Nat.lt_succ_of_lt hm)) (Nat.lt_of_succ_lt hn),
      show rounds - n = rounds - (n + 1) + 1 by omega]
    exact hstep hat hne

/-- A key is found behind slots with other keys. -/
theorem findFrom_of_path (hn : n < rounds) (hpath : t.Others key a n)
    (hat : t.at_ (a + n) = some (key, v)) : t.findFrom key rounds a = some v := by
  rw [walk_eq (f := t.findFrom key) _ hpath hn, findFrom, hat]
  · exact if_pos rfl
  intro rounds i other w hother hne
  rw [findFrom, hother]
  exact if_neg hne

/-- What is found is there. -/
theorem has_of_findFrom (h : t.findFrom key rounds a = some v) : t.Has key v := by
  induction rounds generalizing a with
  | zero => cases h
  | succ rounds ih =>
    rw [findFrom] at h
    split at h
    · cases h
    rename_i other w hat
    split at h
    · rename_i heq
      cases h
      exact ⟨a, by rw [hat, heq]⟩
    · exact ih h

section

variable (hdistinct : t.Distinct) (hat : t.at_ i = some (key, v))
include hdistinct hat

/-- A key has one entry. -/
theorem has_key : t.Has key w ↔ w = v := by
  constructor
  · rintro ⟨j, hj⟩
    rw [at_congr (hdistinct hj hat), hat] at hj
    cases hj
    rfl
  · rintro rfl
    exact ⟨i, hat⟩

/-- A freed slot takes its key with it. -/
theorem freed_ne : (t.setAt i none).at_ j ≠ some (key, w) := by
  intro hj
  obtain ⟨hne, hj⟩ := at_freed.mp hj
  exact hne (hdistinct hj hat)

/-- Freeing the slot of a key deletes its entry and no other. -/
theorem has_freed {k : Nat} : (t.setAt i none).Has k w ↔ k ≠ key ∧ t.Has k w := by
  constructor
  · rintro ⟨j, hj⟩
    refine ⟨?_, j, (at_freed.mp hj).2⟩
    rintro rfl
    exact freed_ne hdistinct hat hj
  rintro ⟨hne, j, hj⟩
  refine ⟨j, at_freed.mpr ⟨fun heq => ?_, hj⟩⟩
  rw [at_congr heq, hat] at hj
  cases hj
  exact hne rfl

end

/-- The way to an entry: other keys, then it. -/
theorem Sound.path_of_has (h : Sound hash t) (hhas : t.Has key v) :
    ∃ n < t.size, t.Others key (hash key) n ∧ t.at_ (hash key + n) = some (key, v) := by
  classical
  obtain ⟨i, hi⟩ := hhas
  obtain ⟨n, hn, hpath⟩ := h.reach hi
  have hkey : ∃ n, ∃ w, t.at_ (hash key + n) = some (key, w) := ⟨n, v, (at_congr hn).trans hi⟩
  have hle : Nat.find hkey ≤ n := Nat.find_min' hkey ⟨v, (at_congr hn).trans hi⟩
  obtain ⟨w, hw⟩ := Nat.find_spec hkey
  have hvalue : w = v := (has_key h.distinct hi).mp ⟨_, hw⟩
  have hlt : Nat.find hkey < t.size := by
    obtain ⟨free, hfree, hnone, -⟩ := exists_first_free h.size_pos h.room (hash key)
    have hnot : ¬ free < n := fun hlt => hpath free hlt hnone
    omega
  refine ⟨Nat.find hkey, hlt, ?_, hvalue ▸ hw⟩
  intro m hm
  have hused := hpath m (lt_of_lt_of_le hm hle)
  obtain ⟨⟨other, u⟩, hother⟩ := ne_none_iff_exists'.mp hused
  refine ⟨other, u, hother, ?_⟩
  rintro rfl
  exact Nat.find_min hkey hm ⟨u, hother⟩

/-- What is found is what the table has. -/
theorem Sound.find_eq_some_iff (h : Sound hash t) : t.find hash key = some v ↔ t.Has key v := by
  refine ⟨has_of_findFrom, fun hhas => ?_⟩
  obtain ⟨n, hlt, hpath, hat⟩ := h.path_of_has hhas
  exact findFrom_of_path hlt hpath hat

/-- The value that is found is the one the table has, if any. -/
theorem Sound.find_eq (h : Sound hash t) {o : Option ν} (hhas : ∀ v, t.Has key v ↔ o = some v) :
    t.find hash key = o :=
  Option.ext fun v => h.find_eq_some_iff.trans (hhas v)

theorem Sound.find_eq_none (h : Sound hash t) (hno : ∀ v, ¬ t.Has key v) :
    t.find hash key = none :=
  h.find_eq fun v => ⟨fun hhas => absurd hhas (hno v), fun hv => by cases hv⟩

/-! ## Placing an entry -/

/-- An entry goes to the first slot that is free or has its key. -/
theorem insertFrom_of_path (hn : n < rounds) (hpath : t.Others key a n)
    (hslot : ∀ other w, t.at_ (a + n) = some (other, w) → other = key) :
    t.insertFrom key v rounds a = some (t.setAt (a + n) (some (key, v))) := by
  rw [walk_eq (f := t.insertFrom key v) _ hpath hn, insertFrom]
  · split
    · rfl
    · rename_i other w hat
      exact if_pos (hslot other w hat)
  intro rounds i other w hother hne
  rw [insertFrom, hother]
  exact if_neg hne

/-- More entries leave a way open. -/
theorem Reaches.mono {t' : OpenTable ν} (hsize : t'.size = t.size) (h : t.Reaches a i)
    (hused : ∀ j, t.at_ j ≠ none → t'.at_ j ≠ none) : t'.Reaches a i := by
  obtain ⟨n, hn, hpath⟩ := h
  exact ⟨n, by rw [hsize]; exact hn, fun m hm => hused _ (hpath m hm)⟩

section

variable (honly : ∀ {j w}, t.at_ j = some (key, w) → j % t.size = n % t.size)
include honly

/-- The entries after one was placed where its key stands or nothing. -/
theorem has_setAt (hslot : ∀ other w, t.at_ n = some (other, w) → other = key) {k : Nat} :
    (t.setAt n (some (key, v))).Has k w ↔ if k = key then w = v else t.Has k w := by
  constructor
  · rintro ⟨j, hj⟩
    obtain ⟨-, he⟩ | ⟨hne, hj'⟩ := at_setAt_eq_some.mp hj
    · cases he
      rw [if_pos rfl]
    rw [if_neg]
    · exact ⟨j, hj'⟩
    rintro rfl
    exact hne (honly hj')
  intro hw
  split at hw
  · rename_i hk
    exact ⟨n, at_setAt_eq_some.mpr (.inl ⟨rfl, by rw [hk, hw]⟩)⟩
  rename_i hk
  obtain ⟨j, hj⟩ := hw
  refine ⟨j, at_setAt_eq_some.mpr (.inr ⟨fun heq => ?_, hj⟩)⟩
  rw [at_congr heq] at hj
  exact hk (hslot k w hj)

/-- The keys stay distinct. -/
theorem distinct_setAt (h : t.Distinct) : (t.setAt n (some (key, v))).Distinct := by
  intro i j k u w hi hj
  obtain ⟨hinew, he⟩ | ⟨hne, hi'⟩ := at_setAt_eq_some.mp hi <;>
    obtain ⟨hjnew, he'⟩ | ⟨hne', hj'⟩ := at_setAt_eq_some.mp hj
  · exact hinew.trans hjnew.symm
  · cases he
    exact absurd (honly hj') hne'
  · cases he'
    exact absurd (honly hi') hne
  · exact h hi' hj'

end

/-- An entry goes to the first slot that is free or has its key. A slot must be free after that. -/
theorem Sound.insertOrAssign (h : Sound hash t) (key : Nat) (v : ν) :
    ∃ n, t.insertOrAssign hash key v = some (t.setAt (hash key + n) (some (key, v))) ∧
      (∀ k u, (t.setAt (hash key + n) (some (key, v))).Has k u ↔
        if k = key then u = v else t.Has k u) ∧
      ((∃ i, (t.setAt (hash key + n) (some (key, v))).at_ i = none) →
        Sound hash (t.setAt (hash key + n) (some (key, v)))) := by
  classical
  obtain ⟨free, hfree, hnone, -⟩ := exists_first_free h.size_pos h.room (hash key)
  have hex : ∃ n, ∀ other w, t.at_ (hash key + n) = some (other, w) → other = key :=
    ⟨free, fun _ _ hat => by rw [hnone] at hat; cases hat⟩
  have hlt : Nat.find hex < t.size :=
    lt_of_le_of_lt (Nat.find_min' hex fun _ _ hat => by rw [hnone] at hat; cases hat) hfree
  have hslot := Nat.find_spec hex
  have hpath : t.Others key (hash key) (Nat.find hex) := by
    intro m hm
    have hother := Nat.find_min hex hm
    push Not at hother
    exact hother
  generalize Nat.find hex = n at hlt hslot hpath
  -- the key stands in that slot or nowhere
  have honly {i : Nat} {w : ν} (hi : t.at_ i = some (key, w)) :
      i % t.size = (hash key + n) % t.size := by
    obtain ⟨n', -, hpath', hat⟩ := h.path_of_has ⟨i, hi⟩
    obtain hn | rfl | hn := Nat.lt_trichotomy n n'
    · obtain ⟨other, u, hother, hne⟩ := hpath' n hn
      exact absurd (hslot other u hother) hne
    · exact h.distinct hi hat
    · obtain ⟨other, u, hother, hne⟩ := hpath n' hn
      rw [hat] at hother
      cases hother
      exact absurd rfl hne
  refine ⟨n, insertFrom_of_path hlt hpath hslot, fun _ _ => has_setAt honly hslot,
    fun hroom => ⟨h.size_pos, distinct_setAt honly h.distinct, ?_, hroom⟩⟩
  intro i k u hi
  obtain ⟨hnew, he⟩ | ⟨-, hi⟩ := at_setAt_eq_some.mp hi
  · cases he
    refine ⟨n, hnew.symm, fun m hm => at_setAt_ne_none ?_⟩
    obtain ⟨other, w, hother, -⟩ := hpath m hm
    rw [hother]
    exact some_ne_none _
  · exact (h.reach hi).mono (setAt_size _ _) fun _ => at_setAt_ne_none

/-! ## Deleting an entry -/

/-- While the entries from `j` on are placed anew: an entry is found or still to come. The free
slot `j + left` ends the entries to come, and none came past it. -/
structure Placing (hash : Nat → Nat) (t : OpenTable ν) (j left : Nat) : Prop where
  size_pos : 0 < t.size
  distinct : t.Distinct
  reach : ∀ {i key v}, t.at_ i = some (key, v) → t.Reaches (hash key) i ∨ t.Reaches j i
  stop : t.at_ (j + left) = none
  come : ∀ m < left, t.at_ (j + m) ≠ none
  avoid : ∀ m < left, ∀ {key v}, t.at_ (j + m) = some (key, v) →
    ∃ n, (hash key + n) % t.size = (j + m) % t.size ∧
      ∀ m' ≤ n, (hash key + m') % t.size ≠ (j + left) % t.size

/-- A way from a freed slot goes on behind it. -/
theorem Reaches.behind (h : t.Reaches a i) (hne : i % t.size ≠ a % t.size) :
    (t.setAt a none).Reaches (a + 1) i := by
  classical
  obtain ⟨n, hn, hpath⟩ := h
  -- the last time that the way is at its start
  have hex : ∃ k, k ≤ n ∧ (a + (n - k)) % t.size = a % t.size :=
    ⟨n, Nat.le_refl n, by rw [Nat.sub_self]; rfl⟩
  obtain ⟨hk, hstart⟩ := Nat.find_spec hex
  have hpos : 0 < Nat.find hex := by
    rcases Nat.eq_zero_or_pos (Nat.find hex) with hzero | hpos
    · rw [hzero, Nat.sub_zero, hn] at hstart
      exact absurd hstart hne
    · exact hpos
  generalize hkdef : Nat.find hex = k at hk hstart hpos
  have hsame (m : Nat) : (a + 1 + m) % t.size = (a + (n - k) + 1 + m) % t.size := by
    rw [Nat.add_assoc, Nat.add_assoc (a + (n - k)), Nat.add_mod, ← hstart, ← Nat.add_mod]
  refine ⟨k - 1, ?_, ?_⟩
  · rw [setAt_size, hsame, show a + (n - k) + 1 + (k - 1) = a + n by omega]
    exact hn
  intro m hm
  rw [at_setAt, hsame, at_congr (hsame m),
    show a + (n - k) + 1 + m = a + (n - (k - 1 - m)) by omega, if_neg]
  · exact hpath _ (by omega)
  have hmin := Nat.find_min hex (by rw [hkdef]; omega : k - 1 - m < Nat.find hex)
  exact fun heq => hmin ⟨by omega, heq⟩

/-- Slots less than a turn apart differ. -/
theorem add_mod_ne {size d : Nat} (hpos : 0 < d) (hlt : d < size) : (j + d) % size ≠ j % size := by
  intro heq
  have hzero := Nat.sub_mod_eq_zero_of_mod_eq heq
  rw [Nat.add_sub_cancel_left, Nat.mod_eq_of_lt hlt] at hzero
  omega

/-- The entries to come are less than a turn. -/
theorem Placing.left_lt (h : Placing hash t j left) : left < t.size := by
  have hpos := h.size_pos
  refine Nat.lt_of_not_le fun hle => ?_
  have hused := h.come (left - t.size) (by omega)
  have hsame : (j + (left - t.size)) % t.size = (j + left) % t.size := by
    rw [show j + left = j + (left - t.size) + t.size by omega, Nat.add_mod_right]
  rw [at_congr hsame] at hused
  exact hused h.stop

/-- A way after slot `j` was freed: it is still open, or it goes on behind `j`. -/
theorem Reaches.freed (h : t.Reaches a i) (hne : i % t.size ≠ j % t.size) :
    (t.setAt j none).Reaches a i ∨ (t.setAt j none).Reaches (j + 1) i := by
  obtain ⟨n, hn, hpath⟩ := h
  by_cases hcross : ∃ m < n, (a + m) % t.size = j % t.size
  · obtain ⟨m, hm, heq⟩ := hcross
    have hshift (d : Nat) : (j + d) % t.size = (a + m + d) % t.size := by
      rw [Nat.add_mod, ← heq, ← Nat.add_mod]
    have hfrom : t.Reaches j i := by
      refine ⟨n - m, ?_, fun d hd => ?_⟩
      · rw [hshift, show a + m + (n - m) = a + n by omega]
        exact hn
      · rw [at_congr (hshift d), show a + m + d = a + (m + d) by omega]
        exact hpath _ (by omega)
    exact .inr (hfrom.behind hne)
  · refine .inl ⟨n, hn, fun m hm => ?_⟩
    rw [at_setAt, if_neg fun heq => hcross ⟨m, hm, heq⟩]
    exact hpath m hm

/-- An entry that is moved to a free slot is still there, with the others. -/
theorem has_moved (hdistinct : t.Distinct) (hj : t.at_ j = some (key, v))
    (hfree : (t.setAt j none).at_ n = none) {k : Nat} :
    ((t.setAt j none).setAt n (some (key, v))).Has k w ↔ t.Has k w := by
  have hno {i : Nat} {w : ν} : (t.setAt j none).at_ i ≠ some (key, w) := freed_ne hdistinct hj
  rw [has_setAt (fun hi => absurd hi hno) (by rw [hfree]; nofun), has_freed hdistinct hj]
  split
  · rename_i hk
    rw [hk, has_key hdistinct hj]
  · rename_i hk
    exact and_iff_right hk

/-- The entries to come after the next one was placed anew, not past the slot that ends them. -/
theorem Placing.placed (h : Placing hash t j (left + 1)) (hj : t.at_ j = some (key, v))
    (hused : ∀ m < n, (t.setAt j none).at_ (hash key + m) ≠ none)
    (hfree : (t.setAt j none).at_ (hash key + n) = none)
    (hstop : (hash key + n) % t.size ≠ (j + (left + 1)) % t.size) :
    Placing hash ((t.setAt j none).setAt (hash key + n) (some (key, v))) (j + 1) left := by
  set t₀ := t.setAt j none
  have hleft := h.left_lt
  have hplace (m : Nat) : j + 1 + m = j + (m + 1) := by omega
  have hcome {m : Nat} (hm : m < left) : t₀.at_ (j + 1 + m) = t.at_ (j + (m + 1)) := by
    rw [hplace, at_setAt, if_neg (add_mod_ne (by omega) (by omega))]
  have hthere {m : Nat} (hm : m < left) : t₀.at_ (j + 1 + m) ≠ none := by
    rw [hcome hm]
    exact h.come (m + 1) (by omega)
  refine ⟨h.size_pos, ?_, ?_, ?_, fun m hm => at_setAt_ne_none (hthere hm), ?_⟩
  · refine distinct_setAt (fun hi => absurd hi (freed_ne h.distinct hj)) ?_
    exact fun hi hi' => h.distinct (at_freed.mp hi).2 (at_freed.mp hi').2
  · intro i k u hi
    obtain ⟨hnew, he⟩ | ⟨-, hi⟩ := at_setAt_eq_some.mp hi
    · cases he
      exact .inl ⟨n, hnew.symm, fun m hm => at_setAt_ne_none (hused m hm)⟩
    obtain ⟨hne, hi⟩ := at_freed.mp hi
    have hmono' {a : Nat} (hway : t₀.Reaches a i) :
        (t₀.setAt (hash key + n) (some (key, v))).Reaches a i :=
      hway.mono (setAt_size _ _) fun _ => at_setAt_ne_none
    obtain hway | hway := h.reach hi
    · obtain hway | hway := hway.freed hne
      · exact .inl (hmono' hway)
      · exact .inr (hmono' hway)
    · exact .inr (hmono' (hway.behind hne))
  · rw [hplace, at_setAt, setAt_size, if_neg (Ne.symm hstop), at_setAt]
    split
    · rfl
    · exact h.stop
  · intro m hm k u hat
    have hkept : t₀.at_ (j + 1 + m) = some (k, u) := by
      rwa [at_setAt, if_neg fun heq => hthere hm ((at_congr heq).trans hfree)] at hat
    rw [hcome hm] at hkept
    obtain ⟨n', hn', havoid⟩ := h.avoid (m + 1) (by omega) hkept
    rw [hplace, hplace]
    exact ⟨n', hn', havoid⟩

/-- The next entry is placed anew. -/
theorem Placing.step (h : Placing hash t j (left + 1)) (hj : t.at_ j = some (key, v)) :
    ∃ t', (t.setAt j none).insertOrAssign hash key v = some t' ∧ t'.size = t.size ∧
      Placing hash t' (j + 1) left ∧ ∀ k w, t'.Has k w ↔ t.Has k w := by
  have hfreed : (t.setAt j none).at_ j = none := by rw [at_setAt, if_pos rfl]
  obtain ⟨n, hn, hfree, hused⟩ := exists_first_free (t := t.setAt j none) h.size_pos ⟨j, hfreed⟩
    (hash key)
  -- the entry does not come past its old slot
  obtain ⟨old, hold, havoid⟩ := h.avoid 0 (Nat.succ_pos left) (by rw [Nat.add_zero]; exact hj)
  rw [Nat.add_zero] at hold
  have hle : n ≤ old := by
    refine Nat.le_of_not_lt fun hlt => hused old hlt ?_
    rw [at_setAt, if_pos hold]
  have hpath : (t.setAt j none).Others key (hash key) n := by
    intro m hm
    obtain ⟨⟨other, w⟩, hother⟩ := ne_none_iff_exists'.mp (hused m hm)
    refine ⟨other, w, hother, ?_⟩
    rintro rfl
    exact freed_ne h.distinct hj hother
  exact ⟨_, insertFrom_of_path hn hpath (by rw [hfree]; nofun), rfl,
    h.placed hj hused hfree (havoid n hle), fun _ _ => has_moved h.distinct hj hfree⟩

open OpenTable

/-- When all entries to come are placed, every entry is found, and the next slot is free. -/
theorem Placing.reinsert {rounds : Nat} (h : Placing hash t j left) (hrounds : left ≤ rounds) :
    Sound hash (reinsert hash rounds t j) ∧ (reinsert hash rounds t j).size = t.size ∧
      (∀ k w, (reinsert hash rounds t j).Has k w ↔ t.Has k w) ∧
      (reinsert hash rounds t j).at_ (j + left) = none := by
  induction left generalizing t j rounds with
  | zero =>
    have hstop : t.at_ j = none := h.stop
    have hstay : reinsert hash rounds t j = t := by
      cases rounds with
      | zero => rfl
      | succ rounds => rw [reinsert, hstop]
    rw [hstay]
    refine ⟨⟨h.size_pos, h.distinct, ?_, ⟨j, hstop⟩⟩, rfl, fun _ _ => Iff.rfl, hstop⟩
    intro i key v hi
    obtain hway | ⟨n, hn, hpath⟩ := h.reach hi
    · exact hway
    cases n with
    | zero =>
      rw [at_congr hn.symm, Nat.add_zero, hstop] at hi
      cases hi
    | succ n => exact absurd hstop (hpath 0 (Nat.succ_pos n))
  | succ left ih =>
    cases rounds with
    | zero => omega
    | succ rounds =>
      have hused := h.come 0 (Nat.succ_pos left)
      rw [Nat.add_zero] at hused
      obtain ⟨⟨key, v⟩, hj⟩ := ne_none_iff_exists'.mp hused
      obtain ⟨t', heq, hsize, hnext, hhas⟩ := h.step hj
      obtain ⟨hsound, hsize', hhas', hfree⟩ := ih hnext (Nat.le_of_succ_le_succ hrounds)
      have hunfold : reinsert hash (rounds + 1) t j =
          reinsert hash rounds t' (j + 1) := by
        rw [reinsert, hj]
        dsimp only
        rw [heq]
        rfl
      rw [hunfold, ← Nat.add_assoc, Nat.add_right_comm]
      exact ⟨hsound, hsize'.trans hsize, fun k w => (hhas' k w).trans (hhas k w), hfree⟩

/-- A freed slot leaves the entries behind it to be placed anew. -/
theorem Sound.placing (h : Sound hash t) (i : Nat) :
    ∃ left < t.size, Placing hash (t.setAt i none) (i + 1) left := by
  have hfreed : (t.setAt i none).at_ i = none := by rw [at_setAt, if_pos rfl]
  obtain ⟨left, hleft, hstop, hcome⟩ := exists_first_free (t := t.setAt i none) h.size_pos
    ⟨i, hfreed⟩ (i + 1)
  have hleft : left < t.size := hleft
  -- the table had a free slot, so a free one comes before the freed one is met again
  have hfree : t.at_ (i + 1 + left) = none := by
    obtain ⟨free, hfree⟩ := h.room
    obtain ⟨d, hd, hahead⟩ := exists_ahead h.size_pos (i + 1) free
    have hnone : t.at_ (i + 1 + d) = none := (at_congr hahead).trans hfree
    have hle : left ≤ d := by
      refine Nat.le_of_not_lt fun hlt => hcome d hlt ?_
      rw [at_setAt]
      split
      · rfl
      · exact hnone
    by_cases hsame : (i + 1 + left) % t.size = i % t.size
    · have hturn : left + 1 = t.size := by
        refine Nat.le_antisymm hleft (Nat.le_of_not_lt fun hlt => ?_)
        rw [show i + 1 + left = i + (left + 1) by omega] at hsame
        exact add_mod_ne (Nat.succ_pos left) hlt hsame
      have hback : left = d := by omega
      rw [hback]
      exact hnone
    · rw [at_setAt, if_neg hsame] at hstop
      exact hstop
  refine ⟨left, hleft, h.size_pos, ?_, ?_, hstop, hcome, ?_⟩
  · exact fun hj hj' => h.distinct (at_freed.mp hj).2 (at_freed.mp hj').2
  · exact fun hj => (h.reach (at_freed.mp hj).2).freed (at_freed.mp hj).1
  intro m hm k w hat
  obtain ⟨-, hat⟩ := at_freed.mp hat
  obtain ⟨n, hn, hpath⟩ := h.reach hat
  refine ⟨n, hn, fun m' hm' heq => ?_⟩
  have hmet : (hash k + m') % t.size = (i + 1 + left) % t.size := heq
  have hnone : t.at_ (hash k + m') = none := (at_congr hmet).trans hfree
  rcases Nat.lt_or_eq_of_le hm' with hlt | rfl
  · exact hpath m' hlt hnone
  · rw [at_congr hn, hat] at hnone
    cases hnone

/-- A key is deleted behind slots with other keys. -/
theorem eraseFrom_of_path (hn : n < rounds) (hpath : t.Others key a n)
    (hat : t.at_ (a + n) = some (key, v)) :
    t.eraseFrom hash key rounds a =
      reinsert hash t.size (t.setAt (a + n) none) (a + n + 1) := by
  rw [walk_eq (f := t.eraseFrom hash key) _ hpath hn, eraseFrom, hat]
  · exact if_pos rfl
  intro rounds i other w hother hne
  rw [eraseFrom, hother]
  exact if_neg hne

/-- There is nothing to delete for a key that is not there. -/
theorem eraseFrom_absent (hno : ∀ w, ¬ t.Has key w) (rounds a : Nat) :
    t.eraseFrom hash key rounds a = t := by
  induction rounds generalizing a with
  | zero => rfl
  | succ rounds ih =>
    rw [eraseFrom]
    split
    · rfl
    rename_i other w hat
    have hne : other ≠ key := by
      rintro rfl
      exact hno w ⟨a, hat⟩
    rw [if_neg hne]
    exact ih (a + 1)

/-- Deleting a key deletes its entry and no other. -/
theorem Sound.erase (h : Sound hash t) (key : Nat) :
    Sound hash (t.erase hash key) ∧ (t.erase hash key).size = t.size ∧
      ∀ k w, (t.erase hash key).Has k w ↔ k ≠ key ∧ t.Has k w := by
  by_cases hhas : ∃ v, t.Has key v
  · obtain ⟨v, i, hi⟩ := hhas
    obtain ⟨n, hlt, hpath, hat⟩ := h.path_of_has ⟨i, hi⟩
    have herase : t.eraseFrom hash key t.size (hash key) = _ := eraseFrom_of_path hlt hpath hat
    obtain ⟨left, hleft, hplacing⟩ := h.placing (hash key + n)
    obtain ⟨hsound, hsize, hsame, -⟩ := hplacing.reinsert (le_of_lt hleft)
    rw [OpenTable.erase, herase]
    exact ⟨hsound, hsize, fun k w => (hsame k w).trans (has_freed h.distinct hat)⟩
  have hno : ∀ w, ¬ t.Has key w := fun w hw => hhas ⟨w, hw⟩
  rw [OpenTable.erase, eraseFrom_absent hno]
  refine ⟨h, rfl, fun k w => ⟨fun hw => ⟨?_, hw⟩, fun hw => hw.2⟩⟩
  rintro rfl
  exact hno w hw

/-! ## Free slots -/

/-- An empty table is sound. -/
theorem sound_empty {size : Nat} (hpos : 0 < size) :
    Sound hash ({ size := size, slot := fun _ => none } : OpenTable ν) where
  size_pos := hpos
  distinct h := by cases h
  reach h := by cases h
  room := ⟨0, rfl⟩

/-- A table with few keys has a free slot after one more entry. -/
theorem Sound.exists_free (h : Sound hash t) {keys : Finset Nat}
    (hkeys : ∀ k v, t.Has k v → k ∈ keys) (hcard : keys.card + 2 ≤ t.size) (i : Nat)
    (e : Nat × ν) : ∃ j, (t.setAt i (some e)).at_ j = none := by
  classical
  by_contra hfull
  have hmem := Finset.mem_range.mpr (Nat.mod_lt i h.size_pos)
  have hat (j : Nat) (hj : j ∈ (Finset.range t.size).erase (i % t.size)) :
      j % t.size = j ∧ ∃ e, t.at_ j = some e := by
    obtain ⟨hne, hj⟩ := Finset.mem_erase.mp hj
    have hmod := Nat.mod_eq_of_lt (Finset.mem_range.mp hj)
    refine ⟨hmod, ne_none_iff_exists'.mp fun hnone => hfull ⟨j, ?_⟩⟩
    rw [at_setAt, hmod, if_neg hne]
    exact hnone
  -- two slots with one key
  obtain ⟨j, hj, k, hk, hne, heq⟩ := Finset.exists_ne_map_eq_of_card_lt_of_maps_to
    (s := (Finset.range t.size).erase (i % t.size)) (t := keys)
    (f := fun j => ((t.at_ j).map Prod.fst).getD 0)
    (by rw [Finset.card_erase_of_mem hmem, Finset.card_range]; omega)
    (by
      intro j hj
      obtain ⟨-, ⟨k, v⟩, hat⟩ := hat j hj
      simp only [hat, map_some, getD_some]
      exact hkeys k v ⟨j, hat⟩)
  obtain ⟨hjmod, ⟨key, v⟩, hatj⟩ := hat j hj
  obtain ⟨hkmod, ⟨key', v'⟩, hatk⟩ := hat k hk
  simp only [hatj, hatk, map_some, getD_some] at heq
  subst heq
  have hmod := h.distinct hatj hatk
  rw [hjmod, hkmod] at hmod
  exact hne hmod

end OpenTable

end Conflux.Core

import Mathlib.Data.List.Basic
import Mathlib.Data.List.Infix

/-!
# First occurrences and terminated lines

`find` gives the position of the first occurrence of a pattern. Lines are what stands between
the occurrences of a terminator of two distinct elements: such a terminator never overlaps
itself, so cutting a text at its first occurrence, over and over, finds every occurrence, and
an empty line is the same thing as two terminators in a row.
-/

namespace Conflux.Core

open List Option

variable {α : Type*} [DecidableEq α]

/-- The position of the first occurrence of a pattern. -/
def find (pat : List α) : List α → Option Nat
  | [] => if pat <+: [] then some 0 else none
  | a :: l => if pat <+: a :: l then some 0 else (find pat l).map (· + 1)

/-- The first occurrence at or after a position. -/
def findFrom (pat l : List α) (pos : Nat) : Option Nat :=
  (find pat (l.drop pos)).map (· + pos)

variable {pat l : List α} {pos i : Nat} {a : α} {lines : List (List α)}

theorem find_cons_of_not (h : ¬ pat <+: a :: l) : find pat (a :: l) = (find pat l).map (· + 1) := by
  rw [find, if_neg h]

theorem find_of_isPrefix (h : pat <+: l) : find pat l = some 0 := by
  cases l with
  | nil | cons a l => rw [find, if_pos h]

/-- Positions without an occurrence may be passed over. -/
theorem find_skip (k : Nat) (l : List α) (h : ∀ j < k, ¬ pat <+: l.drop j) (hk : k ≤ l.length) :
    find pat l = (find pat (l.drop k)).map (· + k) := by
  induction k generalizing l with
  | zero => simp
  | succ k ih =>
    cases l with
    | nil => simp at hk
    | cons a l =>
      have hhead : ¬ pat <+: a :: l := h 0 (Nat.succ_pos k)
      have htail : ∀ j < k, ¬ pat <+: l.drop j := by
        intro j hj
        exact h (j + 1) (Nat.succ_lt_succ hj)
      rw [find_cons_of_not hhead, ih l htail (Nat.le_of_succ_le_succ hk), drop_succ_cons,
        Option.map_map]
      congr 1

/-- The search looks at the suffixes of the text, the longest first. -/
theorem find_eq_findIdx? (pat l : List α) : find pat l = l.tails.findIdx? (pat <+: ·) := by
  induction l with
  | nil => simp [find, findIdx?_cons]
  | cons a l ih => simp [find, ih, findIdx?_cons]

/-- What the answer says: the pattern stands there, and nowhere before. -/
theorem find_eq_some_iff : find pat l = some i ↔
    pat <+: l.drop i ∧ i ≤ l.length ∧ ∀ j < i, ¬ pat <+: l.drop j := by
  rw [find_eq_findIdx?, findIdx?_eq_some_iff_getElem]
  simp only [length_tails, getElem_tails, decide_eq_true_eq, Nat.lt_succ_iff, exists_prop]
  tauto

theorem find_eq_none_iff : find pat l = none ↔ ∀ j, ¬ pat <+: l.drop j := by
  rw [find_eq_findIdx?, List.findIdx?_eq_none_iff]
  simp only [mem_tails, decide_eq_false_iff_not]
  constructor
  · exact fun h j => h _ (drop_suffix j l)
  · rintro h x ⟨y, rfl⟩
    simpa using h y.length

/-- The text around the first occurrence. -/
theorem find_eq_some_append (h : find pat l = some i) :
    ∃ p r, l = p ++ pat ++ r ∧ p.length = i := by
  obtain ⟨⟨r, hr⟩, hlen, -⟩ := find_eq_some_iff.mp h
  refine ⟨l.take i, r, ?_, length_take_of_le hlen⟩
  rw [append_assoc, hr, take_append_drop]

/-- A pattern that stands in a text stands in every longer one, at the same place. -/
theorem find_append (h : find pat l = some i) (m : List α) : find pat (l ++ m) = some i := by
  obtain ⟨hpat, hlen, hbefore⟩ := find_eq_some_iff.mp h
  have hfit : i + pat.length ≤ l.length := by
    have := hpat.length_le
    rw [length_drop] at this
    omega
  have hskip : ∀ j < i, ¬ pat <+: (l ++ m).drop j := by
    intro j hj hjp
    apply hbefore j hj
    rw [drop_append_of_le_length (by omega)] at hjp
    refine prefix_of_prefix_length_le hjp (prefix_append _ m) ?_
    rw [length_drop]
    omega
  have hat : pat <+: (l ++ m).drop i := by
    rw [drop_append_of_le_length hlen]
    exact hpat.trans (prefix_append _ m)
  exact find_eq_some_iff.mpr ⟨hat, by rw [length_append]; omega, hskip⟩

/-- A text without the pattern has no part with it. -/
theorem find_none_of_append {m : List α} (h : find pat (l ++ m) = none) : find pat l = none := by
  cases hf : find pat l with
  | none => rfl
  | some i =>
    rw [find_append hf m] at h
    cases h

/-! ## Occurrences from a position on -/

/-- An occurrence lies behind the position and inside the text. -/
theorem findFrom_eq_some_le (hpos : pos ≤ l.length) (h : findFrom pat l pos = some i) :
    pos ≤ i ∧ i + pat.length ≤ l.length := by
  obtain ⟨j, hj, rfl⟩ := map_eq_some_iff.mp h
  obtain ⟨hpat, -, -⟩ := find_eq_some_iff.mp hj
  have hlen := hpat.length_le
  obtain ⟨-, hle, -⟩ := find_eq_some_iff.mp hj
  simp only [length_drop] at hlen hle
  omega

theorem findFrom_extend (hpos : pos ≤ l.length) (h : findFrom pat l pos = some i) (m : List α) :
    findFrom pat (l ++ m) pos = some i := by
  obtain ⟨j, hj, rfl⟩ := map_eq_some_iff.mp h
  rw [findFrom, drop_append_of_le_length hpos, find_append hj]
  rfl

/-- An occurrence that only a longer text has reaches into what was added. -/
theorem findFrom_extend_none {m : List α} (hpos : pos ≤ l.length)
    (hnone : findFrom pat l pos = none) (h : findFrom pat (l ++ m) pos = some i) :
    l.length < i + pat.length := by
  by_contra hle
  obtain ⟨j, hj, rfl⟩ := map_eq_some_iff.mp h
  rw [drop_append_of_le_length hpos] at hj
  obtain ⟨hpat, -, -⟩ := find_eq_some_iff.mp hj
  have hnone' := find_eq_none_iff.mp (map_eq_none_iff.mp hnone) j
  apply hnone'
  rw [drop_append_of_le_length (by rw [length_drop]; omega)] at hpat
  refine prefix_of_prefix_length_le hpat (prefix_append _ m) ?_
  simp only [length_drop]
  omega

/-- The first occurrence of a single element. -/
theorem find_singleton {p r : List α} (h : a ∉ p) : find [a] (p ++ a :: r) = some p.length := by
  refine find_eq_some_iff.mpr ⟨by simp, by simp, fun j hj hp => h ?_⟩
  rw [drop_append_of_le_length (Nat.le_of_lt hj), drop_eq_getElem_cons hj, cons_append,
    cons_prefix_cons] at hp
  exact hp.1 ▸ getElem_mem hj

theorem find_cons_eq_none {t : List α} (h : a ∉ l) : find (a :: t) l = none :=
  find_eq_none_iff.mpr fun _ hj => h (mem_of_mem_drop (hj.subset mem_cons_self))

theorem find_singleton_eq_none_iff : find [a] l = none ↔ a ∉ l := by
  refine ⟨fun h hm => ?_, find_cons_eq_none⟩
  obtain ⟨p, r, rfl⟩ := append_of_mem hm
  have hj := find_eq_none_iff.mp h p.length
  simp at hj

/-- The text around the first occurrence of a single element. -/
theorem find_singleton_eq_some (h : find [a] l = some i) :
    ∃ p r, l = p ++ a :: r ∧ p.length = i ∧ a ∉ p := by
  obtain ⟨p, r, rfl, rfl⟩ := find_eq_some_append h
  refine ⟨p, r, by simp, rfl, ?_⟩
  intro hm
  obtain ⟨q, s, rfl⟩ := append_of_mem hm
  have hq := (find_eq_some_iff.mp h).2.2 q.length (by simp)
  simp at hq

omit [DecidableEq α] in
/-- What stands behind a separator. -/
theorem drop_append_succ (p : List α) (a : α) (r : List α) :
    (p ++ a :: r).drop (p.length + 1) = r := by
  rw [drop_length_add_append]
  rfl

/-! ## Lines with a terminator of two distinct elements -/

/-- Lines written one after the other, each with its terminator. -/
def ended (t : List α) (lines : List (List α)) : List α :=
  lines.flatMap (· ++ t)

omit [DecidableEq α] in
@[simp] theorem ended_nil (t : List α) : ended t [] = [] := rfl

omit [DecidableEq α] in
@[simp] theorem ended_cons (t x : List α) (xs : List (List α)) :
    ended t (x :: xs) = x ++ t ++ ended t xs := rfl

omit [DecidableEq α] in
@[simp] theorem ended_append (t : List α) (xs ys : List (List α)) :
    ended t (xs ++ ys) = ended t xs ++ ended t ys :=
  flatMap_append

section Terminator

variable {a b : α} (hab : a ≠ b)

include hab

omit [DecidableEq α] in
/-- Two terminators are apart: an occurrence leaves none at the next place. -/
theorem not_prefix_second (r : List α) : ¬ [a, b] <+: b :: r := by
  intro h
  have : a = b := (by simpa using h : a = b ∧ _).1
  exact hab this

variable {p : List α}

/-- A text without the terminator, then the terminator. -/
theorem find_terminated (h : find [a, b] p = none) (r : List α) :
    find [a, b] (p ++ a :: b :: r) = some p.length := by
  refine find_eq_some_iff.mpr ⟨by simp, by simp, fun j hj hp => ?_⟩
  have hnone := find_eq_none_iff.mp h j
  rw [drop_append_of_le_length (Nat.le_of_lt hj), drop_eq_getElem_cons hj] at hp
  rw [drop_eq_getElem_cons hj] at hnone
  cases hrest : p.drop (j + 1) with
  | nil =>
    rw [hrest] at hp
    exact hab (by simpa using hp : a = p[j] ∧ b = a).2.symm
  | cons d q =>
    rw [hrest] at hp hnone
    exact hnone (by simpa using hp)

/-- The first half of a terminator at the end of a text is not yet one. -/
theorem find_half (h : find [a, b] p = none) : find [a, b] (p ++ [a]) = none := by
  cases hf : find [a, b] (p ++ [a]) with
  | none => rfl
  | some i =>
    have hi : i = p.length := by
      have hl := find_append hf [b]
      rw [append_assoc, singleton_append, find_terminated hab h []] at hl
      exact (some.inj hl).symm
    obtain ⟨hpat, -, -⟩ := find_eq_some_iff.mp hf
    have := hpat.length_le
    simp [hi] at this

omit hab in
/-- Cutting a text at the first terminator. -/
theorem find_terminated_eq_some (h : find [a, b] l = some i) :
    ∃ p r, l = p ++ a :: b :: r ∧ p.length = i ∧ find [a, b] p = none := by
  obtain ⟨p, r, rfl, rfl⟩ := find_eq_some_append h
  refine ⟨p, r, by simp, rfl, ?_⟩
  cases hf : find [a, b] p with
  | none => rfl
  | some j =>
    rw [append_assoc, find_append hf] at h
    obtain ⟨hpat, -, -⟩ := find_eq_some_iff.mp hf
    have hlen := hpat.length_le
    have := some.inj h
    simp only [length_drop, length_cons] at hlen
    omega

variable {x : List α}

/-- A line that is not empty stands between a terminator and two terminators in a row. -/
theorem find_blank_skip (hx : x ≠ []) (hclear : find [a, b] x = none) (r : List α) :
    find [a, b, a, b] (a :: b :: (x ++ a :: b :: r)) =
      (find [a, b, a, b] (a :: b :: r)).map (· + (x.length + 2)) := by
  have hfirst := (find_eq_some_iff.mp (find_terminated hab hclear r)).2.2
  have hdouble {l : List α} (h : [a, b, a, b] <+: l) : [a, b] <+: l ∧ [a, b] <+: l.drop 2 := by
    obtain ⟨m, rfl⟩ := h
    exact ⟨⟨a :: b :: m, rfl⟩, ⟨m, rfl⟩⟩
  have hlen : 0 < x.length := length_pos_iff.mpr hx
  have hskip : ∀ j < x.length + 2, ¬ [a, b, a, b] <+: (a :: b :: (x ++ a :: b :: r)).drop j := by
    intro j hj hp
    match j with
    | 0 => exact hfirst 0 hlen (hdouble hp).2
    | 1 => exact not_prefix_second hab _ (hdouble hp).1
    | j + 2 => exact hfirst j (by omega) (hdouble hp).1
  have hdrop : (a :: b :: (x ++ a :: b :: r)).drop (x.length + 2) = a :: b :: r := by simp
  rw [find_skip (x.length + 2) _ hskip (by simp only [length_cons, length_append]; omega), hdrop]

/-- The first empty line: two terminators in a row are found behind the lines before it. -/
theorem find_blank (h : ∀ x ∈ lines, x ≠ [] ∧ find [a, b] x = none) (r : List α) :
    find [a, b, a, b] (a :: b :: (ended [a, b] lines ++ a :: b :: r)) =
      some (ended [a, b] lines).length := by
  induction lines with
  | nil => exact find_of_isPrefix (by simp)
  | cons x lines ih =>
    obtain ⟨hx, hlines⟩ := forall_mem_cons.mp h
    have hskip := find_blank_skip hab hx.1 hx.2 (ended [a, b] lines ++ a :: b :: r)
    simp only [ended_cons, append_assoc, cons_append, nil_append]
    rw [hskip, ih hlines]
    simp
    omega

/-- The first empty line of a text that starts with a line. -/
theorem find_blank_of_line (h : ∀ y ∈ x :: lines, y ≠ [] ∧ find [a, b] y = none) (r : List α) :
    find [a, b, a, b] (x ++ a :: b :: (ended [a, b] lines ++ a :: b :: r)) =
      some (x.length + (ended [a, b] lines).length) := by
  have hx := h x mem_cons_self
  have hfound := find_blank hab (fun y hy => h y (mem_cons_of_mem _ hy)) r
  have hskip := find_blank_skip hab hx.1 hx.2 (ended [a, b] lines ++ a :: b :: r)
  rw [hfound, map_some] at hskip
  -- the terminator in front is passed, since a line comes behind it
  have hclear : ∀ j < 2, ¬ [a, b, a, b] <+:
      (a :: b :: (x ++ a :: b :: (ended [a, b] lines ++ a :: b :: r))).drop j := by
    intro j hj
    refine (find_eq_some_iff.mp hskip).2.2 j ?_
    omega
  rw [find_skip 2 _ hclear (by simp)] at hskip
  obtain ⟨i, hi, hlen⟩ := map_eq_some_iff.mp hskip
  have hi' : i = x.length + (ended [a, b] lines).length := by omega
  rw [← hi']
  exact hi

/-- Without an empty line there are no two terminators in a row. -/
theorem find_blank_eq_none (h : ∀ x ∈ lines, x ≠ [] ∧ find [a, b] x = none) {pending : List α}
    (hp : find [a, b] pending = none) :
    find [a, b, a, b] (a :: b :: (ended [a, b] lines ++ pending)) = none := by
  induction lines with
  | nil =>
    refine find_eq_none_iff.mpr fun j hj => ?_
    have hnone := find_eq_none_iff.mp hp
    match j with
    | 0 =>
      obtain ⟨m, hm⟩ := hj
      apply hnone 0
      have : pending = a :: b :: m := by simpa using hm.symm
      simp [this]
    | 1 => exact hab (by simpa using hj : a = b ∧ _).1
    | j + 2 =>
      have hshort : [a, b] <+: [a, b, a, b] := ⟨[a, b], rfl⟩
      exact hnone j (hshort.trans hj)
  | cons x lines ih =>
    obtain ⟨hx, hlines⟩ := forall_mem_cons.mp h
    have hskip := find_blank_skip hab hx.1 hx.2 (ended [a, b] lines ++ pending)
    simp only [ended_cons, append_assoc, cons_append, nil_append]
    rw [hskip, ih hlines]
    rfl

omit hab in
/-- Every text is lines up to an empty line, or lines and an unfinished one. -/
theorem exists_lines (l : List α) :
    ∃ lines : List (List α), (∀ x ∈ lines, x ≠ [] ∧ find [a, b] x = none) ∧
      ((∃ r, l = ended [a, b] lines ++ a :: b :: r) ∨
        ∃ pending, find [a, b] pending = none ∧ l = ended [a, b] lines ++ pending) := by
  induction hlen : l.length using Nat.strongRecOn generalizing l with
  | _ len ih =>
    cases hf : find [a, b] l with
    | none => exact ⟨[], by simp, .inr ⟨l, hf, by simp⟩⟩
    | some i =>
      obtain ⟨p, r, rfl, -, hp⟩ := find_terminated_eq_some hf
      by_cases hempty : p = []
      · exact ⟨[], by simp, .inl ⟨r, by simp [hempty]⟩⟩
      have hshort : r.length < len := by
        simp only [length_append, length_cons] at hlen
        omega
      obtain ⟨lines, hlines, hrest⟩ := ih r.length hshort r rfl
      refine ⟨p :: lines, forall_mem_cons.mpr ⟨⟨hempty, hp⟩, hlines⟩, ?_⟩
      rcases hrest with ⟨s, hs⟩ | ⟨pending, hpending, hs⟩
      · exact .inl ⟨s, by simp [hs]⟩
      · exact .inr ⟨pending, hpending, by simp [hs]⟩

/-- A part of a terminated line that is shorter than it has no terminator. -/
theorem find_take_terminated (hx : find [a, b] x = none) {j : Nat} (hj : j < x.length + 2) :
    find [a, b] ((x ++ [a, b]).take j) = none := by
  have hclear := find_half hab hx
  have htake : (x ++ [a, b]).take j = (x ++ [a]).take j := by
    have happ : x ++ [a, b] = x ++ [a] ++ [b] := by simp
    rw [happ, take_append_of_le_length (by simp; omega)]
  rw [htake]
  refine find_none_of_append (?_ : find [a, b] (_ ++ (x ++ [a]).drop j) = none)
  rw [take_append_drop]
  exact hclear

/-- The lines of a text, each of which has its terminator; what is behind the last is left. -/
def splitLines (t : List α) : Nat → List α → List (List α)
  | 0, _ => []
  | rounds + 1, l =>
    match find t l with
    | none => []
    | some i => l.take i :: splitLines t rounds (l.drop (i + t.length))

/-- Terminated lines are split into them. -/
theorem splitLines_ended (h : ∀ x ∈ lines, find [a, b] x = none) {rounds : Nat}
    (hrounds : lines.length ≤ rounds) : splitLines [a, b] rounds (ended [a, b] lines) = lines := by
  induction lines generalizing rounds with
  | nil => cases rounds <;> rfl
  | cons x lines ih =>
    obtain ⟨hx, hlines⟩ := forall_mem_cons.mp h
    cases rounds with
    | zero => simp at hrounds
    | succ rounds =>
      have hrest := ih hlines (Nat.le_of_succ_le_succ hrounds)
      have htext : ended [a, b] (x :: lines) = x ++ a :: b :: ended [a, b] lines := by simp
      rw [splitLines, htext, find_terminated hab hx]
      simp [hrest]

end Terminator

omit [DecidableEq α] in
/-- A part of terminated lines is some of them and a part of the next. -/
theorem take_ended {t : List α} {j : Nat} (hj : j < (ended t lines).length) :
    ∃ pre x post, ∃ k, lines = pre ++ x :: post ∧ k < x.length + t.length ∧
      (ended t lines).take j = ended t pre ++ (x ++ t).take k := by
  induction lines generalizing j with
  | nil => simp at hj
  | cons x lines ih =>
    by_cases hx : j < x.length + t.length
    · refine ⟨[], x, lines, j, rfl, hx, ?_⟩
      rw [ended_cons, take_append_of_le_length (by rw [length_append]; omega)]
      rfl
    have hj' : j - (x.length + t.length) < (ended t lines).length := by
      simp only [ended_cons, length_append] at hj
      omega
    obtain ⟨pre, y, post, k, rfl, hk, htake⟩ := ih hj'
    refine ⟨x :: pre, y, post, k, rfl, hk, ?_⟩
    rw [ended_cons, take_append, take_of_length_le (by rw [length_append]; omega),
      length_append, htake]
    simp

end Conflux.Core

import Mathlib.Data.List.Chain

/-!
# Well-formed UTF-8

The octet sequences of RFC 3629: a lead byte and its continuation bytes, where the range of
the second byte excludes overlong forms, surrogates and code points above U+10FFFF. The lead
byte alone determines the length of a character, so that a sequence splits into characters
in one way only.
-/

namespace Conflux.Core

/-- What holds of the 256 bytes, one by one. -/
theorem forall_byte (p : UInt8 → Bool)
    (h : ((List.range 256).all fun n => p (UInt8.ofNat n)) = true) (c : UInt8) : p c = true := by
  have hc := List.all_eq_true.mp h c.toNat (List.mem_range.mpr c.toNat_lt)
  rwa [UInt8.ofNat_toNat] at hc

/-- A continuation byte. -/
def isUtf8Tail (b : UInt8) : Bool := 0x80 ≤ b && b ≤ 0xBF

/-- Least second byte after a lead byte. -/
def utf8SecondMin (lead : UInt8) : UInt8 :=
  if lead = 0xE0 then 0xA0 else if lead = 0xF0 then 0x90 else 0x80

/-- Greatest second byte after a lead byte. -/
def utf8SecondMax (lead : UInt8) : UInt8 :=
  if lead = 0xED then 0x9F else if lead = 0xF4 then 0x8F else 0xBF

/-- A well-formed character. -/
def isUtf8Char : List UInt8 → Bool
  | [a] => a < 0x80
  | [a, b] => 0xC2 ≤ a && a ≤ 0xDF && isUtf8Tail b
  | [a, b, c] =>
    0xE0 ≤ a && a ≤ 0xEF && utf8SecondMin a ≤ b && b ≤ utf8SecondMax a && isUtf8Tail c
  | [a, b, c, d] =>
    0xF0 ≤ a && a ≤ 0xF4 && utf8SecondMin a ≤ b && b ≤ utf8SecondMax a && isUtf8Tail c &&
      isUtf8Tail d
  | _ => false

/-- A lead byte and as many continuation bytes as it announces. The range of the second byte is
left open. -/
def isUtf8Shape : List UInt8 → Bool
  | [a] => a < 0x80
  | [a, b] => 0xC2 ≤ a && a ≤ 0xDF && isUtf8Tail b
  | [a, b, c] => 0xE0 ≤ a && a ≤ 0xEF && isUtf8Tail b && isUtf8Tail c
  | [a, b, c, d] => 0xF0 ≤ a && a ≤ 0xF4 && isUtf8Tail b && isUtf8Tail c && isUtf8Tail d
  | _ => false

/-- A continuation byte out of range: an overlong form after `E0` or `F0`, a surrogate after `ED`,
a code point above U+10FFFF after `F4`. -/
def utf8OutOfRange (lead second : UInt8) : Bool :=
  lead == 0xE0 && 0x80 ≤ second && second ≤ 0x9F ||
    lead == 0xED && 0xA0 ≤ second && second ≤ 0xBF ||
    lead == 0xF0 && 0x80 ≤ second && second ≤ 0x8F ||
    lead == 0xF4 && 0x90 ≤ second && second ≤ 0xBF

/-- No two neighbouring bytes are out of range. -/
abbrev Utf8InRange (s : List UInt8) : Prop := s.IsChain fun a b => utf8OutOfRange a b = false

/-- A well-formed sequence of characters. -/
inductive Utf8 : List UInt8 → Prop
  | nil : Utf8 []
  | cons {u w : List UInt8} (head : isUtf8Char u) (tail : Utf8 w) : Utf8 (u ++ w)

/-- Number of bytes after a lead byte. -/
def utf8TailLen (lead : UInt8) : Nat :=
  if lead < 0x80 then 0 else if lead < 0xE0 then 1 else if lead < 0xF0 then 2 else 3

/-- The lead byte determines the length of a character. -/
theorem length_of_isUtf8Char {u : List UInt8} (h : isUtf8Char u) :
    ∃ a v, u = a :: v ∧ v.length = utf8TailLen a := by
  unfold isUtf8Char at h
  unfold utf8TailLen
  split at h
  all_goals
    first
      | cases h
      | refine ⟨_, _, rfl, ?_⟩
        grind

/-- A sequence that starts with bytes of the length of a character splits after them. -/
theorem utf8_append_iff {a : UInt8} {v w : List UInt8} (hv : v.length = utf8TailLen a) :
    Utf8 (a :: v ++ w) ↔ isUtf8Char (a :: v) ∧ Utf8 w := by
  constructor
  · generalize hs : a :: v ++ w = s
    intro h
    cases h with
    | nil => cases hs
    | @cons u w' head tail =>
      obtain ⟨b, v', rfl, hv'⟩ := length_of_isUtf8Char head
      simp only [List.cons_append, List.cons.injEq] at hs
      obtain ⟨rfl, hs⟩ := hs
      obtain ⟨rfl, rfl⟩ := List.append_inj hs (hv.trans hv'.symm)
      exact ⟨head, tail⟩
  · exact fun h => .cons h.1 h.2

/-- A character in front does not matter. -/
theorem utf8_char_append {u w : List UInt8} (h : isUtf8Char u) : Utf8 (u ++ w) ↔ Utf8 w := by
  obtain ⟨a, v, rfl, hv⟩ := length_of_isUtf8Char h
  rw [utf8_append_iff hv]
  exact and_iff_right h

/-- ASCII bytes in front do not matter. -/
theorem utf8_ascii_append {u w : List UInt8} (h : ∀ b ∈ u, b < 0x80) : Utf8 (u ++ w) ↔ Utf8 w := by
  induction u with
  | nil => rfl
  | cons b u ih =>
    have hb : isUtf8Char [b] := by simpa [isUtf8Char] using h b (by simp)
    rw [List.cons_append, ← List.singleton_append, utf8_char_append hb]
    exact ih fun b' hb' => h b' (by simp [hb'])

/-- A sequence that is not empty starts with a character. -/
theorem Utf8.exists_char {b : UInt8} {w : List UInt8} (h : Utf8 (b :: w)) :
    ∃ v w', isUtf8Char (b :: v) ∧ w = v ++ w' := by
  generalize hs : b :: w = s at h
  cases h with
  | nil => cases hs
  | @cons u w' head tail =>
    obtain ⟨a, v, rfl, -⟩ := length_of_isUtf8Char head
    rw [List.cons_append, List.cons.injEq] at hs
    obtain ⟨rfl, rfl⟩ := hs
    exact ⟨v, w', head, rfl⟩

/-! ## Shape and range -/

section

variable {u w : List UInt8}

/-- Continuation bytes and ASCII bytes are no lead bytes of the four ranges. -/
theorem utf8OutOfRange_of_lt {a : UInt8} (h : a < 0xC0) (b : UInt8) :
    utf8OutOfRange a b = false := by
  unfold utf8OutOfRange
  grind

theorem utf8InRange_of_forall_lt (h : ∀ b ∈ u, b < 0xC0) : Utf8InRange u := by
  induction u with
  | nil => exact .nil
  | cons a u ih =>
    refine List.isChain_cons.mpr ⟨fun b _ => utf8OutOfRange_of_lt (h a (by simp)) b, ih ?_⟩
    exact fun b hb => h b (by simp [hb])

/-- What ends in a continuation byte or an ASCII byte has its range to itself. -/
theorem utf8InRange_append (h : ∀ b ∈ u.getLast?, b < 0xC0) :
    Utf8InRange (u ++ w) ↔ Utf8InRange u ∧ Utf8InRange w := by
  rw [Utf8InRange, List.isChain_append]
  constructor
  · exact fun ⟨hu, hw, _⟩ => ⟨hu, hw⟩
  · exact fun ⟨hu, hw⟩ => ⟨hu, hw, fun a ha b _ => utf8OutOfRange_of_lt (h a ha) b⟩

theorem utf8InRange_ascii_append (h : ∀ b ∈ u, b < 0x80) :
    Utf8InRange (u ++ w) ↔ Utf8InRange w := by
  have hlt : ∀ b ∈ u, b < 0xC0 := fun b hb => UInt8.lt_trans (h b hb) (by decide)
  rw [utf8InRange_append fun b hb => hlt b (List.mem_of_getLast? hb)]
  exact and_iff_right (utf8InRange_of_forall_lt hlt)

theorem getLast?_lt_of_isUtf8Shape (h : isUtf8Shape u) : ∀ b ∈ u.getLast?, b < 0xC0 := by
  unfold isUtf8Shape isUtf8Tail at h
  split at h <;> grind

theorem isUtf8Tail_lt {b : UInt8} (h : isUtf8Tail b) : b < 0xC0 := by
  unfold isUtf8Tail at h
  grind

/-- The second byte is the only one whose range depends on the lead byte. -/
theorem utf8Second_iff (a b : UInt8) :
    utf8SecondMin a ≤ b ∧ b ≤ utf8SecondMax a ↔ isUtf8Tail b ∧ utf8OutOfRange a b = false := by
  unfold utf8SecondMin utf8SecondMax isUtf8Tail utf8OutOfRange
  grind

theorem utf8InRange_cons_cons {a b : UInt8} {v : List UInt8} (hb : isUtf8Tail b)
    (hv : ∀ c ∈ v, isUtf8Tail c) :
    Utf8InRange (a :: b :: v) ↔ utf8OutOfRange a b = false := by
  have htail : Utf8InRange (b :: v) := by
    refine utf8InRange_of_forall_lt (List.forall_mem_cons.mpr ⟨isUtf8Tail_lt hb, ?_⟩)
    exact fun c hc => isUtf8Tail_lt (hv c hc)
  rw [Utf8InRange, List.isChain_cons_cons]
  exact and_iff_left htail

/-- A character is well formed exactly when it has the shape of one and is in range. -/
theorem isUtf8Char_iff : isUtf8Char u ↔ isUtf8Shape u ∧ Utf8InRange u := by
  match u with
  | [] | [a] | _ :: _ :: _ :: _ :: _ :: _ => simp [isUtf8Char, isUtf8Shape]
  | [a, b] =>
    refine iff_self_and.mpr fun h => ?_
    simp only [isUtf8Char, Bool.and_eq_true, decide_eq_true_eq] at h
    refine (utf8InRange_cons_cons h.2 (by simp)).mpr ?_
    unfold utf8OutOfRange
    grind
  | [a, b, c] =>
    have hsecond := utf8Second_iff a b
    have hrange (hb : isUtf8Tail b) (hc : isUtf8Tail c) := utf8InRange_cons_cons
      (a := a) (v := [c]) hb (by simpa using hc)
    simp only [isUtf8Char, isUtf8Shape, Bool.and_eq_true, decide_eq_true_eq]
    grind
  | [a, b, c, d] =>
    have hsecond := utf8Second_iff a b
    have hrange (hb : isUtf8Tail b) (hc : isUtf8Tail c) (hd : isUtf8Tail d) :=
      utf8InRange_cons_cons (a := a) (v := [c, d]) hb (by simp [hc, hd])
    simp only [isUtf8Char, isUtf8Shape, Bool.and_eq_true, decide_eq_true_eq]
    grind

theorem isUtf8Shape_cons {a : UInt8} {v : List UInt8} (h : isUtf8Shape (a :: v)) :
    v.length = utf8TailLen a := by
  unfold isUtf8Shape at h
  unfold utf8TailLen
  split at h <;> grind

/-- Behind the shape of a character: well formed exactly if the character is in range and the rest
is well formed. -/
theorem utf8_shape_append (h : isUtf8Shape u) : Utf8 (u ++ w) ↔ Utf8InRange u ∧ Utf8 w := by
  cases u with
  | nil => cases h
  | cons a v => rw [utf8_append_iff (isUtf8Shape_cons h), isUtf8Char_iff, and_iff_right h]

end

end Conflux.Core

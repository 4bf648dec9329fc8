import Conflux.Http.Basic
import Conflux.Core.Utf8

/-!
# Frames of a WebSocket connection

Opcodes, close codes and the text check that the receiving and the sending side share.
-/

namespace Conflux.Http.WebSocket

open Conflux.Core List Bool

/-- The kinds of frames that are handed out or sent. -/
inductive Opcode where
  | text
  | binary
  | close
  | ping
  | pong
  deriving DecidableEq, Repr

/-- A frame that is sent, or a message that is delivered. -/
structure Frame where
  opcode : Opcode
  payload : Bytes
  deriving DecidableEq, Repr

/-- A code that may be sent in a Close frame. -/
def isValidCloseCode (code : Nat) : Bool :=
  if code < 1000 then false
  else if code ≤ 1003 then true
  else if code ≤ 1006 then false
  else if code ≤ 1014 then true
  else if code ≤ 4999 then 3000 ≤ code
  else false

/-- The code point that continuation bytes make of what a lead byte starts. -/
def utf8CodePoint : Nat → Bytes → Option Nat
  | cp, [] => some cp
  | cp, c :: rest =>
    if c &&& 0xC0 ≠ 0x80 then none else utf8CodePoint (cp * 64 + (c &&& 0x3F).toNat) rest

/-- The bytes that follow a lead byte, the least code point of that length and the bits of the
lead byte. -/
def utf8Lead (b : UInt8) : Option (Nat × Nat × Nat) :=
  if b &&& 0xE0 = 0xC0 then some (1, 0x80, (b &&& 0x1F).toNat)
  else if b &&& 0xF0 = 0xE0 then some (2, 0x800, (b &&& 0x0F).toNat)
  else if b &&& 0xF8 = 0xF0 then some (3, 0x10000, (b &&& 0x07).toNat)
  else none

/-- The turns of the text check, each of which passes a character. -/
def utf8Turns : Nat → Bytes → Bool
  | _, [] => true
  | 0, _ :: _ => false
  | turns + 1, b :: rest =>
    if b < 0x80 then utf8Turns turns rest
    else match utf8Lead b with
      | none => false
      | some (extra, minCp, cp) =>
        if rest.length < extra then false
        else match utf8CodePoint cp (rest.take extra) with
          | none => false
          | some cp =>
            if cp < minCp then false
            else if 0xD800 ≤ cp ∧ cp ≤ 0xDFFF then false
            else if 0x10FFFF < cp then false
            else utf8Turns turns (rest.drop extra)

/-- The bytes are well-formed UTF-8. -/
def utf8IsValid (s : Bytes) : Bool :=
  utf8Turns s.length s

/-! ## The text check -/

theorem tail_iff (c : UInt8) : c &&& 0xC0 = 0x80 ↔ 0x80 ≤ c.toNat ∧ c.toNat ≤ 0xBF :=
  of_decide_eq_true (forall_byte
    (fun c => decide (c &&& 0xC0 = 0x80 ↔ 0x80 ≤ c.toNat ∧ c.toNat ≤ 0xBF)) (by decide +kernel) c)

theorem tail_bits (c : UInt8) : (c &&& 0x3F).toNat = c.toNat % 64 :=
  of_decide_eq_true (forall_byte (fun c => decide ((c &&& 0x3F).toNat = c.toNat % 64))
    (by decide +kernel) c)

/-- The lead bytes, by the length of their characters. -/
theorem utf8Lead_eq (b : UInt8) :
    utf8Lead b = if 0xC0 ≤ b.toNat ∧ b.toNat ≤ 0xDF then some (1, 0x80, b.toNat % 32)
      else if 0xE0 ≤ b.toNat ∧ b.toNat ≤ 0xEF then some (2, 0x800, b.toNat % 16)
      else if 0xF0 ≤ b.toNat ∧ b.toNat ≤ 0xF7 then some (3, 0x10000, b.toNat % 8)
      else none :=
  of_decide_eq_true (forall_byte (fun b => decide (utf8Lead b =
    if 0xC0 ≤ b.toNat ∧ b.toNat ≤ 0xDF then some (1, 0x80, b.toNat % 32)
      else if 0xE0 ≤ b.toNat ∧ b.toNat ≤ 0xEF then some (2, 0x800, b.toNat % 16)
      else if 0xF0 ≤ b.toNat ∧ b.toNat ≤ 0xF7 then some (3, 0x10000, b.toNat % 8)
      else none)) (by decide +kernel) b)

/-- A code point that the text check accepts for a character of its length. -/
def goodCodePoint (minCp cp : Nat) : Prop :=
  minCp ≤ cp ∧ ¬ (0xD800 ≤ cp ∧ cp ≤ 0xDFFF) ∧ cp ≤ 0x10FFFF

variable {r extra minCp cp₀ : Nat}

theorem utf8CodePoint_nil {cp : Nat} : utf8CodePoint cp [] = some r ↔ cp = r := by
  rw [utf8CodePoint, Option.some.injEq]

theorem utf8CodePoint_cons {cp : Nat} {c : UInt8} {rest : Bytes} :
    utf8CodePoint cp (c :: rest) = some r ↔
      (0x80 ≤ c.toNat ∧ c.toNat ≤ 0xBF) ∧ utf8CodePoint (cp * 64 + c.toNat % 64) rest = some r := by
  rw [utf8CodePoint, tail_bits, ← tail_iff]
  by_cases hc : c &&& 0xC0 = 0x80
  · simp [hc]
  · simp [hc]

/-- A lead byte with its continuation bytes is well formed exactly if their code point is
accepted. -/
theorem isUtf8Char_iff_codePoint {b : UInt8} {v : Bytes}
    (hb : utf8Lead b = some (extra, minCp, cp₀)) (hv : v.length = extra) :
    isUtf8Char (b :: v) ↔ ∃ cp, utf8CodePoint cp₀ v = some cp ∧ goodCodePoint minCp cp := by
  rw [utf8Lead_eq] at hb
  split at hb
  · rename_i hlead
    cases hb
    obtain ⟨c, rfl⟩ := length_eq_one_iff.mp hv
    simp only [utf8CodePoint_cons, utf8CodePoint_nil, isUtf8Char, isUtf8Tail,
      and_eq_true, decide_eq_true_eq, UInt8.le_iff_toNat_le, UInt8.reduceToNat,
      goodCodePoint]
    constructor
    · intro h
      exact ⟨_, ⟨by omega, rfl⟩, by omega⟩
    · rintro ⟨_, ⟨htail, rfl⟩, hgood⟩
      omega
  split at hb
  · rename_i hlead
    cases hb
    obtain ⟨c, d, rfl⟩ := length_eq_two.mp hv
    simp only [utf8CodePoint_cons, utf8CodePoint_nil, isUtf8Char, isUtf8Tail,
      and_eq_true, decide_eq_true_eq, UInt8.le_iff_toNat_le, UInt8.reduceToNat,
      utf8SecondMin, utf8SecondMax, ← UInt8.toNat_inj, goodCodePoint]
    constructor
    · intro h
      refine ⟨_, ⟨?_, ?_, rfl⟩, ?_⟩
      all_goals
        repeat' split at h
        all_goals
          simp only [UInt8.reduceToNat] at *
          omega
    rintro ⟨_, ⟨htail, htail', rfl⟩, hgood⟩
    repeat' split
    all_goals
      simp only [UInt8.reduceToNat] at *
      omega
  split at hb
  · rename_i hlead
    cases hb
    obtain ⟨c, d, e, rfl⟩ := length_eq_three.mp hv
    simp only [utf8CodePoint_cons, utf8CodePoint_nil, isUtf8Char, isUtf8Tail,
      and_eq_true, decide_eq_true_eq, UInt8.le_iff_toNat_le, UInt8.reduceToNat,
      utf8SecondMin, utf8SecondMax, ← UInt8.toNat_inj, goodCodePoint]
    constructor
    · intro h
      refine ⟨_, ⟨?_, ?_, ?_, rfl⟩, ?_⟩
      all_goals
        repeat' split at h
        all_goals
          simp only [UInt8.reduceToNat] at *
          omega
    rintro ⟨_, ⟨htail, htail', htail'', rfl⟩, hgood⟩
    repeat' split
    all_goals
      simp only [UInt8.reduceToNat] at *
      omega
  · cases hb

/-- A lead byte has the length of its characters. -/
theorem utf8TailLen_of_lead {b : UInt8} (hlead : utf8Lead b = some (extra, minCp, cp₀)) :
    utf8TailLen b = extra := by
  rw [utf8Lead_eq] at hlead
  simp only [utf8TailLen, UInt8.lt_iff_toNat_lt, UInt8.reduceToNat]
  split at hlead
  · cases hlead
    grind
  split at hlead
  · cases hlead
    grind
  split at hlead
  · cases hlead
    grind
  · cases hlead

/-- What is no lead byte starts no character. -/
theorem not_isUtf8Char_of_lead {b : UInt8} {v : Bytes} (hb : ¬ b < 0x80)
    (hlead : utf8Lead b = none) : ¬ isUtf8Char (b :: v) := by
  rw [utf8Lead_eq] at hlead
  simp only [UInt8.lt_iff_toNat_lt, UInt8.reduceToNat] at hb
  intro h
  unfold isUtf8Char at h
  split at h
  case h_5 => cases h
  all_goals
    simp only [UInt8.lt_iff_toNat_lt, and_eq_true, decide_eq_true_eq, UInt8.le_iff_toNat_le,
      UInt8.reduceToNat] at h
    grind

theorem utf8Turns_iff {turns : Nat} {s : Bytes} (hs : s.length ≤ turns) :
    utf8Turns turns s = true ↔ Utf8 s := by
  induction turns generalizing s with
  | zero =>
    rw [length_eq_zero_iff.mp (Nat.le_zero.mp hs)]
    exact ⟨fun _ => .nil, fun _ => rfl⟩
  | succ turns ih =>
    cases s with
    | nil => exact ⟨fun _ => .nil, fun _ => rfl⟩
    | cons b rest =>
      rw [length_cons, Nat.add_le_add_iff_right] at hs
      rw [utf8Turns]
      split
      · rename_i hb
        have hchar : isUtf8Char [b] = true := decide_eq_true hb
        rw [ih hs, ← singleton_append, utf8_char_append hchar]
      rename_i hb
      split
      · rename_i hlead
        refine ⟨fun hno => absurd hno Bool.false_ne_true, fun h => ?_⟩
        obtain ⟨v, -, hchar, -⟩ := h.exists_char
        exact absurd hchar (not_isUtf8Char_of_lead hb hlead)
      rename_i extra minCp cp₀ hlead
      have hlen := utf8TailLen_of_lead hlead
      split
      · rename_i hshort
        refine ⟨fun hno => absurd hno Bool.false_ne_true, fun h => ?_⟩
        obtain ⟨v, w, hchar, rfl⟩ := h.exists_char
        obtain ⟨a, v', heq, hv'⟩ := length_of_isUtf8Char hchar
        cases heq
        rw [length_append] at hshort
        omega
      rename_i hlong
      have htake : (rest.take extra).length = extra := by
        rw [length_take]
        omega
      have hsplit : Utf8 (b :: rest) ↔
          isUtf8Char (b :: rest.take extra) ∧ Utf8 (rest.drop extra) := by
        rw [← utf8_append_iff (htake.trans hlen.symm), cons_append, take_append_drop]
      have hdrop : (rest.drop extra).length ≤ turns := by
        rw [length_drop]
        omega
      rw [hsplit, isUtf8Char_iff_codePoint hlead htake]
      cases hcp : utf8CodePoint cp₀ (rest.take extra) with
      | none => simp
      | some cp =>
        simp only [Option.some.injEq, exists_eq_left', goodCodePoint]
        split
        · simp; omega
        split
        · simp; omega
        split
        · simp; omega
        · rw [ih hdrop]
          simp; omega

/-- The text check accepts the well-formed texts. -/
theorem utf8IsValid_iff (s : Bytes) : utf8IsValid s = true ↔ Utf8 s :=
  utf8Turns_iff (Nat.le_refl _)

end Conflux.Http.WebSocket

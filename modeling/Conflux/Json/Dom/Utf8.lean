import Conflux.Core.Utf8
import Conflux.Json.Dom.Entry
import Conflux.Json.Syntax.Progress

/-!
# Well-formed strings

The string scanner looks at the length class of a lead byte and at the class of its
continuation bytes, but not at the range of the second byte. So it accepts overlong forms,
encoded surrogates and code points above U+10FFFF. Escapes always decode to well-formed
bytes: a decoded string is well formed exactly when no bytes of it as written are out of
range.
-/

namespace Conflux.Json

open Conflux.Core Option

/-! ## Characters -/

theorem hexGroup_ascii {h : Bytes} {v : Nat} (hh : HexGroup h v) : ∀ b ∈ h, b < 0x80 := by
  obtain ⟨ha, hb, hc, hd⟩ := hh
  unfold HexDigit at ha hb hc hd
  simp only [List.forall_mem_cons, UInt8.lt_iff_toNat_lt, UInt8.reduceToNat]
  refine ⟨?_, ?_, ?_, ?_, by simp⟩ <;> omega

/-- The encoding of a character is well formed. -/
theorem isUtf8Char_utf8EncodeChar (c : Char) : isUtf8Char (String.utf8EncodeChar c) := by
  have hvalid := toNat_lt c
  rw [← appendUtf8_toNat]
  unfold appendUtf8
  split
  · simp only [isUtf8Char, decide_eq_true_eq, UInt8.lt_iff_toNat_lt, UInt8.toNat_ofNat',
      UInt8.reduceToNat]
    omega
  split
  · simp only [isUtf8Char, isUtf8Tail, Bool.and_eq_true, decide_eq_true_eq,
      UInt8.le_iff_toNat_le, UInt8.toNat_ofNat', UInt8.reduceToNat]
    omega
  -- three bytes or four
  split
  all_goals
    simp only [isUtf8Char, isUtf8Tail, Bool.and_eq_true, decide_eq_true_eq,
      UInt8.le_iff_toNat_le, UInt8.toNat_ofNat', utf8SecondMin, utf8SecondMax,
      ← UInt8.toNat_inj, UInt8.reduceToNat]
    repeat' split
    all_goals
      simp only [UInt8.reduceToNat]
      omega

/-- A character in front makes the same difference to the form of what is decoded and to what is
written. -/
theorem StrChar.utf8_iff {quote : UInt8} {u out w dec : Bytes} (h : StrChar quote u out)
    (ih : Utf8 dec ↔ Utf8InRange w) : Utf8 (out ++ dec) ↔ Utf8InRange (u ++ w) := by
  cases h with
  | plain hshape _ _ _ =>
    rw [utf8_shape_append hshape, utf8InRange_append (getLast?_lt_of_isUtf8Shape hshape), ih]
  | @short e b hesc =>
    have hascii : shortEscapes.all fun x => x.1 < 0x80 && x.2 < 0x80 := by decide
    have hx := List.all_eq_true.mp hascii _ hesc
    simp only [Bool.and_eq_true, decide_eq_true_eq] at hx
    obtain ⟨he, hb⟩ := hx
    rw [utf8_ascii_append (by simpa using hb), utf8InRange_ascii_append, ih]
    simpa using he
  | singleQuote _ =>
    rw [utf8_ascii_append (by simp), utf8InRange_ascii_append (by simp), ih]
  | unicode hcode =>
    rw [utf8_char_append (isUtf8Char_utf8EncodeChar _), utf8InRange_ascii_append, ih]
    simp only [List.forall_mem_cons]
    exact ⟨by decide, by decide, hexGroup_ascii hcode⟩
  | pair _ hhigh hlow =>
    rw [utf8_char_append (isUtf8Char_utf8EncodeChar _), utf8InRange_ascii_append, ih]
    simp only [List.forall_mem_cons, List.forall_mem_append]
    exact ⟨by decide, by decide, hexGroup_ascii hhigh, by decide, by decide, hexGroup_ascii hlow⟩

/-- A decoded string is well formed exactly when no bytes of it as written are out of
range. -/
theorem StrChars.utf8_iff {quote : UInt8} {raw dec : Bytes} (h : StrChars quote raw dec) :
    Utf8 dec ↔ Utf8InRange raw := by
  induction h with
  | nil => exact iff_of_true .nil .nil
  | cons head _ ih => exact head.utf8_iff ih

theorem StrTok.Written.utf8_iff {k : StrTok} (h : k.Written) : Utf8 k.dec ↔ Utf8InRange k.raw := by
  cases h with
  | quoted _ h => exact h.utf8_iff
  | @bare raw hident =>
    have hascii : ∀ b ∈ raw, b < 0x80 := fun b hb => by
      have := hident b hb
      unfold isIdentPart isIdentStart isDigit at this
      grind
    have hutf8 := utf8_ascii_append (w := []) hascii
    have hrange := utf8InRange_ascii_append (w := []) hascii
    rw [List.append_nil] at hutf8 hrange
    exact iff_of_true (hutf8.mpr .nil) (hrange.mpr .nil)

/-! ## Documents -/

/-- The strings and names of a document are all well formed exactly when none of those that the
policy keeps of the text has neighbouring bytes out of range: `E0` before `80` to `9F`, `ED`
before `A0` to `BF`, `F0` before `80` to `8F`, or `F4` before `90` to `BF`. -/
theorem parse_utf8_iff {opts : JsonParseOptions} {seed : Nat → UInt64} {input : Bytes}
    {st : DocumentStorage} (h : parse opts seed input = .ok st) :
    ∃ t v, readInput opts.mode input = some t ∧ st.value = some v ∧
      ((∀ s ∈ v.strings, Utf8 s) ↔ ∀ k ∈ t.kept opts.duplicateKey, Utf8InRange k.raw) := by
  obtain ⟨t, hread, -, hval⟩ := parse_value h
  have hwritten := (readText_written hread).kept opts.duplicateKey
  refine ⟨t, _, hread, hval, ?_⟩
  constructor
  · intro hall k hk
    exact (hwritten k hk).utf8_iff.mp (hall _ ((t.mem_strings_value _).mpr ⟨k, hk, rfl⟩))
  · intro hrange s hs
    obtain ⟨k, hk, rfl⟩ := (t.mem_strings_value _).mp hs
    exact (hwritten k hk).utf8_iff.mpr (hrange k hk)

/-- An object whose name is the replacement character, with an accented letter, an escaped pair of
surrogates and a character above U+FFFF. -/
def accentedText : Bytes :=
  [0x7B, 0x22, 0xEF, 0xBF, 0xBD, 0x22, 0x3A, 0x22, 0xC3, 0xA9, 0x5C, 0x75, 0x64, 0x38, 0x33,
    0x64, 0x5C, 0x75, 0x64, 0x65, 0x30, 0x30, 0xF0, 0x9F, 0x98, 0x80, 0x22, 0x7D]

/-- All of it is well formed. -/
theorem parse_utf8_iff_accented :
    ∃ st, parse {} (fun _ => 0) accentedText = .ok st ∧
      ∃ t v, readInput .strict accentedText = some t ∧ st.value = some v ∧
        ((∀ s ∈ v.strings, Utf8 s) ↔ ∀ k ∈ t.kept .reject, Utf8InRange k.raw) := by
  obtain ⟨st, hst⟩ := exists_of_isOk (x := parse {} (fun _ => 0) accentedText) (by decide +kernel)
  exact ⟨st, hst, parse_utf8_iff hst⟩

/-- The one string of the text is an overlong form of the null character. -/
def overlongText : Bytes := [0x22, 0xE0, 0x80, 0x80, 0x22]

/-- An overlong form is accepted in strict mode and ends up in the document. -/
theorem parse_overlongText :
    ((parse {} (fun _ => 0) overlongText).toOption.bind DocumentStorage.value) =
        some (.str [0xE0, 0x80, 0x80]) ∧
      ¬ Utf8 [0xE0, 0x80, 0x80] := by
  refine ⟨by decide +kernel, ?_⟩
  intro h
  have hchar := (utf8_shape_append (u := [0xE0, 0x80, 0x80]) (w := []) rfl).mp h
  exact absurd hchar.1 (by decide)

end Conflux.Json

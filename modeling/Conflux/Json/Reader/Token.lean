import Conflux.Json.Syntax.Progress

/-!
# String tokens of the pull reader

The pull reader hands out strings and names as they are written, and decodes them on
request. The decoder runs over the written bytes a second time; on what the scanner has
accepted it yields the decoded form of the grammar.
-/

namespace Conflux.Json

open Conflux.Core List StrChars Ascii

/-- An error of the decoder, which carries no position. -/
def decodeErr (code : JsonIssueCode) (msg : String) : JsonError :=
  { stage := .decode, code := code, message := msg }

/-- A Unicode escape, from the bytes after its `u`: its length and what it stands for. The scanner
has refused lone low surrogates. -/
def decodeUnicode (l : Bytes) : Except JsonError (Nat × Bytes) :=
  match hex4 l with
  | none => .error (decodeErr .invalidUnicodeEscape (StrFront.reader.hexMessage l.length))
  | some cp =>
    if isHighSurrogate cp then
      let tail := l.drop 4
      if tail.length < 6 ∨ tail[0]? ≠ some backslash ∨ tail[1]? ≠ some lowerU then
        .error (decodeErr .invalidUnicodeEscape "unpaired high surrogate")
      else
        match hex4 (tail.drop 2) with
        | none => .error (decodeErr .invalidUnicodeEscape StrFront.reader.lowHexMessage)
        | some lo =>
          if isLowSurrogate lo then .ok (12, appendUtf8 (pairCodePoint cp lo))
          else .error (decodeErr .invalidUnicodeEscape "invalid low surrogate")
    else .ok (6, appendUtf8 cp)

/-- At the head of a body: a run up to the next escape, or an escape. Both kinds of quote may be
escaped. -/
def decodeUnit (a : UInt8) (l : Bytes) : Except JsonError (Nat × Bytes) :=
  if a ≠ backslash then
    let run := (a :: l).takeWhile (· ≠ backslash)
    .ok (run.length, run)
  else
    match l with
    | [] => .error (decodeErr .syntaxError "EOF in escape")
    | e :: l' =>
      if e = lowerU then decodeUnicode l'
      else
        match simpleEscape apostrophe e with
        | some b => .ok (2, [b])
        | none => .error (decodeErr .syntaxError "invalid escape")

/-- One step of the decoder. -/
def decodeStep (maxSize : LimitOption) (dec : Bytes) (a : UInt8) (l : Bytes) :
    ScanStep Bytes (Except JsonError Bytes) :=
  match decodeUnit a l with
  | .error e => .stop (.error e)
  | .ok (n, out) =>
    if maxSize.exceeds (dec ++ out).length kDefaultMaxString then
      .stop (.error (decodeErr .stringTooLarge "decoded string exceeds max_string_size"))
    else .next (dec ++ out) (n - 1)

/-- Decode the bytes between the quotes. -/
def decodeStrBody (maxSize : LimitOption) (body : Bytes) : Except JsonError Bytes :=
  scan (decodeStep maxSize) .ok [] body

/-- A string or a name as the reader hands it out. -/
structure JsonStringToken where
  /-- Bytes as written, with the quotes. -/
  rawLexeme : Bytes := []
  /-- Whether there is an escape. -/
  hasEscapes : Bool := false
  /-- Whether it is an identifier. -/
  unquoted : Bool := false
  /-- Limit on the decoded size. -/
  maxStringSize : LimitOption := .default_
  deriving DecidableEq, Repr

/-- What a token appends when it is decoded. -/
def JsonStringToken.appendDecodedTo (t : JsonStringToken) : Except JsonError Bytes :=
  if t.unquoted then .ok t.rawLexeme
  else if t.rawLexeme.length < 2 then .ok []
  else
    let body := (t.rawLexeme.drop 1).take (t.rawLexeme.length - 2)
    if t.hasEscapes then decodeStrBody t.maxStringSize body else .ok body

/-! ## Decoding what was scanned -/

/-- A character is never longer decoded than written. -/
theorem StrChar.length_le {quote : UInt8} {u out : Bytes} (h : StrChar quote u out) :
    out.length ≤ u.length := by
  have hutf8 (cp : Nat) : (appendUtf8 cp).length ≤ 4 := by
    unfold appendUtf8
    split
    · simp
    split
    · simp
    · split <;> simp
  cases scanChar_iff.mpr h with
  | sequence => exact Nat.le_refl _
  | short => simp
  | @unicode g cp hlen =>
    have := hutf8 cp
    simp only [length_cons, hlen]
    omega
  | @pair g g' hi lo hlen hlen' =>
    have := hutf8 (pairCodePoint hi lo)
    simp only [length_cons, length_append, hlen, hlen']
    omega

variable {dec : Bytes}

theorem StrChars.length_le {quote : UInt8} {raw : Bytes} (h : StrChars quote raw dec) :
    dec.length ≤ raw.length := by
  induction h with
  | nil => simp
  | cons head _ ih =>
    have := head.length_le
    simp only [length_append]
    omega

theorem StrChars.eq_nil {quote : UInt8} (h : StrChars quote [] dec) : dec = [] :=
  length_eq_zero_iff.mp (Nat.le_zero.mp h.length_le)

section

variable {quote : UInt8} {raw dec : Bytes}

section

variable (hq : quote ≠ backslash)
include hq

/-- A character is written as itself, without a backslash, or starts with one. -/
theorem StrChar.cases_backslash {u out : Bytes}
    (h : StrChar quote u out) :
    (out = u ∧ u ≠ [] ∧ backslash ∉ u) ∨
      ∃ l, u = backslash :: l ∧
        ∀ rest, decodeUnit backslash (l ++ rest) = .ok (u.length, out) := by
  obtain ⟨a, l, rfl, ⟨-, rfl, hbs⟩ | ⟨-, rfl⟩⟩ := strUnit_of_char hq (scanChar_iff.mpr h) .reader []
  · exact .inl ⟨rfl, by simp, hbs⟩
  refine .inr ⟨l, rfl, fun rest => ?_⟩
  cases scanChar_iff.mpr h with
  | sequence _ _ hesc => exact absurd rfl hesc
  | @short e b hesc =>
    have he : e ≠ lowerU := by
      rintro rfl
      simp [simpleEscape] at hesc
    have hb : simpleEscape apostrophe e = some b := by
      unfold simpleEscape at hesc ⊢
      grind
    simp [decodeUnit, he, hb]
  | @unicode g cp hlen hcp hhi =>
    simp [decodeUnit, decodeUnicode, hex4_append hlen, hcp, hhi, hlen]
  | @pair g g' hi lo hlen hlen' hhi hhi' hlo hlo' =>
    simp [decodeUnit, decodeUnicode, hex4_append hlen, hex4_append hlen', hhi, hhi', hlo, hlo',
      hlen, hlen', drop_append]

/-- A body is a run without backslashes, and then nothing or an escape. -/
theorem StrChars.split_run (h : StrChars quote raw dec) :
    ∃ run w d, raw = run ++ w ∧ dec = run ++ d ∧ backslash ∉ run ∧ StrChars quote w d ∧
      (w = [] ∨ w.head? = some backslash) := by
  induction h with
  | nil => exact ⟨[], [], [], rfl, rfl, by simp, .nil, .inl rfl⟩
  | @cons u out w dec head tail ih =>
    obtain ⟨rfl, -, hu⟩ | ⟨l, rfl, -⟩ := head.cases_backslash hq
    · obtain ⟨run, w', d, rfl, rfl, hrun, hw, hhead⟩ := ih
      exact ⟨out ++ run, w', d, by simp, by simp, by simp [hu, hrun], hw, hhead⟩
    · exact ⟨[], _, _, rfl, rfl, by simp, .cons head tail, .inr rfl⟩

/-- The escape at the head of a body. -/
theorem StrChars.head_escape {l : Bytes}
    (h : StrChars quote (backslash :: l) dec) :
    ∃ u out w d, l = u ++ w ∧ dec = out ++ d ∧ StrChars quote w d ∧
      decodeUnit backslash l = .ok (u.length + 1, out) := by
  generalize hraw : backslash :: l = raw at h
  cases h with
  | nil => cases hraw
  | @cons u out w d head tail =>
    obtain ⟨rfl, hne, hu⟩ | ⟨u', rfl, hunit⟩ := head.cases_backslash hq
    · cases out with
      | nil => exact absurd rfl hne
      | cons a out =>
        cases hraw
        exact absurd (mem_cons_self ..) hu
    · cases hraw
      exact ⟨u', out, w, d, rfl, rfl, tail, hunit w⟩

end

private theorem decode_scan (maxSize : LimitOption) (hq : quote ≠ backslash)
    (h : StrChars quote raw dec) (acc : Bytes)
    (hfit : maxSize.exceeds (acc ++ dec).length kDefaultMaxString = false) :
    scan (decodeStep maxSize) Except.ok acc raw = .ok (acc ++ dec) := by
  induction hlen : raw.length using Nat.strongRecOn generalizing raw dec acc with
  | ind k ih =>
    -- One unit leads to the rest of the body, with what it stands for taken over.
    have step {a : UInt8} {l w out d : Bytes} {n : Nat} (hraw : raw = a :: l)
        (hunit : decodeUnit a l = .ok (n, out)) (hw : l.drop (n - 1) = w)
        (hchars : StrChars quote w d) (hdec : dec = out ++ d) :
        scan (decodeStep maxSize) Except.ok acc raw = .ok (acc ++ dec) := by
      subst hraw hdec
      have hout : maxSize.exceeds (acc ++ out).length kDefaultMaxString = false :=
        LimitOption.exceeds_of_le (by simp) hfit
      have hnext : decodeStep maxSize acc a l = .next (acc ++ out) (n - 1) := by
        rw [decodeStep, hunit]
        dsimp only
        rw [hout, if_neg Bool.false_ne_true]
      have hshort : w.length < k := by
        rw [← hlen, ← hw, length_drop, length_cons]
        omega
      rw [← append_assoc] at hfit
      rw [scan_cons_next hnext, hw, ih w.length hshort hchars (acc ++ out) hfit rfl, append_assoc]
    obtain ⟨run, w, d, hraw, hdec, hrun, hchars, hhead⟩ := h.split_run hq
    cases run with
    | nil =>
      obtain rfl | hhead := hhead
      · subst hraw hdec
        simp [hchars.eq_nil]
      cases w with
      | nil => cases hhead
      | cons a l =>
        cases hhead
        subst hraw hdec
        obtain ⟨u, out, w', d', rfl, hd, hw', hunit⟩ := hchars.head_escape hq
        exact step rfl hunit (by simp) hw' hd
    | cons a run =>
      have hne : a ≠ backslash := by
        rintro rfl
        exact hrun (mem_cons_self ..)
      have htake : (a :: (run ++ w)).takeWhile (· ≠ backslash) = a :: run := by
        rw [← cons_append, takeWhile_append_of_pos (by grind)]
        obtain rfl | hhead := hhead
        · simp
        cases w with
        | nil => cases hhead
        | cons b w =>
          cases hhead
          simp
      have hunit : decodeUnit a (run ++ w) = .ok (run.length + 1, a :: run) := by
        unfold decodeUnit
        rw [if_pos hne]
        dsimp only
        rw [htake, length_cons]
      exact step hraw hunit (by simp) hchars hdec

variable {maxSize : LimitOption}

section

variable (hq : quote ≠ backslash) (h : StrChars quote raw dec)
include hq h

/-- The decoder yields the decoded form of a body whose written form is within the limit. -/
theorem decodeStrBody_eq (hfit : maxSize.exceeds raw.length kDefaultMaxString = false) :
    decodeStrBody maxSize raw = .ok dec :=
  decode_scan maxSize hq h [] (LimitOption.exceeds_of_le h.length_le hfit)

/-- Without a backslash, a body stands for itself. -/
theorem StrChars.eq_of_notMem (hbs : backslash ∉ raw) : dec = raw := by
  obtain ⟨run, w, d, rfl, rfl, -, hchars, rfl | hhead⟩ := h.split_run hq
  · rw [hchars.eq_nil]
  cases w with
  | nil => cases hhead
  | cons a l =>
    cases hhead
    exact absurd (by simp) hbs

/-- A token made of a scanned body decodes to what the body stands for. -/
theorem JsonStringToken.decode_scanned
    (hfit : maxSize.exceeds raw.length kDefaultMaxString = false) :
    (JsonStringToken.mk (quote :: raw ++ [quote]) (raw.contains backslash) false
      maxSize).appendDecodedTo = .ok dec := by
  have hbody : ((quote :: raw ++ [quote]).drop 1).take
      ((quote :: raw ++ [quote]).length - 2) = raw := by simp
  unfold appendDecodedTo
  rw [if_neg (by simp), if_neg (by simp)]
  rw [hbody]
  split
  · exact decodeStrBody_eq hq h hfit
  rename_i hbs
  rw [contains_iff_mem] at hbs
  rw [h.eq_of_notMem hq hbs]

end

end

end Conflux.Json

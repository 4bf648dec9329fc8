import Conflux.Core.Utf8
import Conflux.Json.Text.Strings

/-!
# The characters of a string

The grammar of string bodies, as pairs of a written and a decoded form, and the proof that
the body scanners accept exactly its sentences. A character that is written as itself has
the shape of a UTF-8 sequence; the range of the second byte is no part of the grammar that
the scanners accept.
-/

namespace Conflux.Json

open Conflux.Core List Ascii

/-! ## The grammar -/

/-- A hexadecimal digit and its value. -/
def HexDigit (d : UInt8) (v : Nat) : Prop :=
  v < 10 ∧ d.toNat = 0x30 + v ∨
    10 ≤ v ∧ v < 16 ∧ (d.toNat = 0x61 + (v - 10) ∨ d.toNat = 0x41 + (v - 10))

/-- Four hexadecimal digits and their value. -/
inductive HexGroup : Bytes → Nat → Prop
  | mk {a b c d : UInt8} {va vb vc vd : Nat} (ha : HexDigit a va) (hb : HexDigit b vb)
      (hc : HexDigit c vc) (hd : HexDigit d vd) :
      HexGroup [a, b, c, d] (va * 16 ^ 3 + vb * 16 ^ 2 + vc * 16 + vd)

/-- The escapes of one byte, and the bytes they stand for. -/
def shortEscapes : List (UInt8 × UInt8) :=
  [(0x22, 0x22), (0x5C, 0x5C), (0x2F, 0x2F), (0x62, 0x08), (0x66, 0x0C), (0x6E, 0x0A),
    (0x72, 0x0D), (0x74, 0x09)]

/-- A character of a string body delimited by `quote`, as written and as decoded. One above U+FFFF
is escaped as a pair of surrogates. -/
inductive StrChar (quote : UInt8) : Bytes → Bytes → Prop
  | plain {a : UInt8} {l : Bytes} (hshape : isUtf8Shape (a :: l)) (hctl : 0x20 ≤ a)
      (hquote : a ≠ quote) (hesc : a ≠ 0x5C) : StrChar quote (a :: l) (a :: l)
  | short {e b : UInt8} (h : (e, b) ∈ shortEscapes) : StrChar quote [0x5C, e] [b]
  | singleQuote (hquote : quote = 0x27) : StrChar quote [0x5C, 0x27] [0x27]
  | unicode {h : Bytes} {c : Char} (hcode : HexGroup h c.toNat) :
      StrChar quote (0x5C :: 0x75 :: h) (String.utf8EncodeChar c)
  | pair {h h' : Bytes} {c : Char} (hlarge : 0x10000 ≤ c.toNat)
      (hhigh : HexGroup h (0xD800 + (c.toNat - 0x10000) / 0x400))
      (hlow : HexGroup h' (0xDC00 + (c.toNat - 0x10000) % 0x400)) :
      StrChar quote (0x5C :: 0x75 :: (h ++ 0x5C :: 0x75 :: h')) (String.utf8EncodeChar c)

/-- A string body, as written and as decoded. -/
inductive StrChars (quote : UInt8) : Bytes → Bytes → Prop
  | nil : StrChars quote [] []
  | cons {u out w dec : Bytes} (head : StrChar quote u out) (tail : StrChars quote w dec) :
      StrChars quote (u ++ w) (out ++ dec)

/-! ## The characters as the scanners tell them apart -/

/-- A character in terms of the scanners' own checks. -/
inductive ScanChar (quote : UInt8) : Bytes → Bytes → Prop
  | sequence {lead : UInt8} {conts : Bytes} (hquote : lead ≠ quote) (hctl : ¬ lead < 0x20)
      (hesc : lead ≠ backslash) (hlen : utf8SeqLen lead = conts.length + 1)
      (hconts : conts.all isCont) : ScanChar quote (lead :: conts) (lead :: conts)
  | short {e b : UInt8} (h : simpleEscape quote e = some b) :
      ScanChar quote [backslash, e] [b]
  | unicode {h : Bytes} {cp : Nat} (hlen : h.length = 4) (hcp : hex4 h = some cp)
      (hhi : isHighSurrogate cp = false) (hlo : isLowSurrogate cp = false) :
      ScanChar quote (backslash :: lowerU :: h) (appendUtf8 cp)
  | pair {h h' : Bytes} {hi lo : Nat} (hlen : h.length = 4) (hlen' : h'.length = 4)
      (hhi : hex4 h = some hi) (hhi' : isHighSurrogate hi)
      (hlo : hex4 h' = some lo) (hlo' : isLowSurrogate lo) :
      ScanChar quote
        (backslash :: lowerU :: (h ++ backslash :: lowerU :: h'))
        (appendUtf8 (pairCodePoint hi lo))

theorem hexDigit_eq_some_iff {d : UInt8} {v : Nat} : hexDigit d = some v ↔ HexDigit d v := by
  unfold hexDigit HexDigit
  simp only [UInt8.le_iff_toNat_le, UInt8.reduceToNat]
  constructor
  · intro h
    split at h
    · cases h
      omega
    split at h
    · cases h
      omega
    split at h
    · cases h
      omega
    · cases h
  · intro h
    split
    · congr 1
      omega
    split
    · congr 1
      omega
    split
    · congr 1
      omega
    · omega

theorem hex4_eq_some_iff {h : Bytes} {v : Nat} :
    h.length = 4 ∧ hex4 h = some v ↔ HexGroup h v := by
  constructor
  · rintro ⟨hlen, hv⟩
    match h, hlen with
    | [a, b, c, d], _ =>
      simp only [hex4, Option.bind_eq_bind, Option.bind_eq_some_iff, Option.pure_def,
        Option.some.injEq] at hv
      obtain ⟨va, ha, vb, hb, vc, hc, vd, hd, rfl⟩ := hv
      have hsum : ((va * 16 + vb) * 16 + vc) * 16 + vd =
          va * 16 ^ 3 + vb * 16 ^ 2 + vc * 16 + vd := by omega
      rw [hsum]
      exact .mk (hexDigit_eq_some_iff.mp ha) (hexDigit_eq_some_iff.mp hb)
        (hexDigit_eq_some_iff.mp hc) (hexDigit_eq_some_iff.mp hd)
  · rintro ⟨ha, hb, hc, hd⟩
    refine ⟨rfl, ?_⟩
    simp only [hex4, hexDigit_eq_some_iff.mpr ha, hexDigit_eq_some_iff.mpr hb,
      hexDigit_eq_some_iff.mpr hc, hexDigit_eq_some_iff.mpr hd, Option.bind_eq_bind,
      Option.bind_some, Option.pure_def, Option.some.injEq]
    omega

theorem HexGroup.lt {h : Bytes} {v : Nat} (hh : HexGroup h v) : v < 0x10000 := by
  obtain ⟨ha, hb, hc, hd⟩ := hh
  unfold HexDigit at ha hb hc hd
  omega

theorem isCont_iff (c : UInt8) : isCont c = isUtf8Tail c := by
  simpa using forall_byte (fun c => isCont c == isUtf8Tail c) (by decide +kernel) c

/-- A lead byte and its number of continuation bytes make the shape of a character. -/
theorem isUtf8Shape_iff {a : UInt8} {l : Bytes} :
    isUtf8Shape (a :: l) ↔ utf8SeqLen a = l.length + 1 ∧ l.all isCont := by
  have hcont (c : UInt8) := isCont_iff c
  unfold utf8SeqLen
  match l with
  | [] | [b] | [b, c] | [b, c, d] =>
    simp only [isUtf8Shape, List.all_cons, List.all_nil, hcont, length_cons, length_nil]
    grind
  | _ :: _ :: _ :: _ :: _ =>
    simp only [isUtf8Shape, length_cons]
    grind

theorem simpleEscape_eq_some_iff {quote e b : UInt8} :
    simpleEscape quote e = some b ↔
      (e, b) ∈ shortEscapes ∨ quote = 0x27 ∧ e = 0x27 ∧ b = 0x27 := by
  by_cases ha : e = apostrophe
  · subst ha
    by_cases hq : quote = apostrophe <;> simp [simpleEscape, shortEscapes, hq, eq_comm]
  simp only [simpleEscape, if_neg ha, shortEscapes, mem_cons, Prod.mk.injEq, not_mem_nil]
  grind

/-- The library's encoding of a character is the one of the source. -/
theorem appendUtf8_toNat (c : Char) : appendUtf8 c.toNat = String.utf8EncodeChar c := by
  have hvalid : c.toNat < 0x110000 := by
    have := c.valid
    simp only [UInt32.isValidChar, Nat.isValidChar] at this
    change c.val.toNat < 0x110000
    omega
  have hval : c.val.toNat = c.toNat := rfl
  simp only [String.utf8EncodeChar, appendUtf8, hval, ← Nat.lt_succ_iff, Nat.reduceSucc]
  split
  · rfl
  split
  · simp only [List.cons.injEq, and_true]
    refine ⟨?_, ?_⟩ <;> congr 1 <;> omega
  split
  · simp only [List.cons.injEq, and_true]
    refine ⟨?_, ?_, ?_⟩ <;> congr 1 <;> omega
  · simp only [List.cons.injEq, and_true]
    refine ⟨?_, ?_, ?_, ?_⟩ <;> congr 1 <;> omega

theorem toNat_lt (c : Char) :
    c.toNat < 0xD800 ∨ 0xDFFF < c.toNat ∧ c.toNat < 0x110000 := c.valid

/-- A code point that is no surrogate is the one of a character. -/
theorem exists_char (cp : Nat) (h : cp < 0xD800 ∨ 0xDFFF < cp ∧ cp < 0x110000) :
    ∃ c : Char, c.toNat = cp :=
  ⟨Char.ofNatAux cp h, rfl⟩

/-- The scanners' checks tell exactly the characters of the grammar. -/
theorem scanChar_iff {quote : UInt8} {u out : Bytes} :
    ScanChar quote u out ↔ StrChar quote u out := by
  constructor
  · rintro (⟨hquote, hctl, hesc, hlen, hconts⟩ | h | @⟨h, cp, hlen, hcp, hhi, hlo⟩ |
      @⟨h, h', hi, lo, hlen, hlen', hhi, hhi', hlo, hlo'⟩)
    · exact .plain (isUtf8Shape_iff.mpr ⟨hlen, hconts⟩) (UInt8.not_lt.mp hctl) hquote hesc
    · obtain h | ⟨hq, rfl, rfl⟩ := simpleEscape_eq_some_iff.mp h
      · exact .short h
      · exact .singleQuote hq
    · have hgroup := hex4_eq_some_iff.mp ⟨hlen, hcp⟩
      have hlt := hgroup.lt
      simp only [isHighSurrogate, isLowSurrogate, Bool.and_eq_false_iff,
        decide_eq_false_iff_not] at hhi hlo
      obtain ⟨c, rfl⟩ := exists_char cp (by omega)
      rw [appendUtf8_toNat]
      exact .unicode hgroup
    · simp only [isHighSurrogate, isLowSurrogate, Bool.and_eq_true, decide_eq_true_eq] at hhi' hlo'
      obtain ⟨c, hc⟩ := exists_char (pairCodePoint hi lo) (by unfold pairCodePoint; omega)
      rw [← hc, appendUtf8_toNat]
      unfold pairCodePoint at hc
      refine .pair (by omega) ?_ ?_
      · convert hex4_eq_some_iff.mp ⟨hlen, hhi⟩ using 1
        omega
      · convert hex4_eq_some_iff.mp ⟨hlen', hlo⟩ using 1
        omega
  · rintro (⟨hshape, hctl, hquote, hesc⟩ | h | hq | @⟨h, c, hcode⟩ |
      @⟨h, h', c, hlarge, hhigh, hlow⟩)
    · obtain ⟨hlen, hconts⟩ := isUtf8Shape_iff.mp hshape
      exact .sequence hquote (UInt8.not_lt.mpr hctl) hesc hlen hconts
    · exact .short (simpleEscape_eq_some_iff.mpr (.inl h))
    · exact .short (simpleEscape_eq_some_iff.mpr (.inr ⟨hq, rfl, rfl⟩))
    · obtain ⟨hlen, hcp⟩ := hex4_eq_some_iff.mpr hcode
      have hvalid := toNat_lt c
      rw [← appendUtf8_toNat]
      refine .unicode hlen hcp ?_ ?_
      all_goals
        simp only [isHighSurrogate, isLowSurrogate, Bool.and_eq_false_iff, decide_eq_false_iff_not]
        omega
    · obtain ⟨hlen, hhi⟩ := hex4_eq_some_iff.mpr hhigh
      obtain ⟨hlen', hlo⟩ := hex4_eq_some_iff.mpr hlow
      have hvalid := toNat_lt c
      have hpair : pairCodePoint (0xD800 + (c.toNat - 0x10000) / 0x400)
          (0xDC00 + (c.toNat - 0x10000) % 0x400) = c.toNat := by
        unfold pairCodePoint
        omega
      rw [← appendUtf8_toNat, ← hpair]
      refine .pair hlen hlen' hhi ?_ hlo ?_
      all_goals
        simp only [isHighSurrogate, isLowSurrogate, Bool.and_eq_true, decide_eq_true_eq]
        omega

/-! ## Hexadecimal groups -/

theorem hex4_append {h : Bytes} (hlen : h.length = 4) (l : Bytes) : hex4 (h ++ l) = hex4 h := by
  match h, hlen with
  | [a, b, c, d], _ => rfl

theorem hex4_split {l : Bytes} {v : Nat} (h : hex4 l = some v) :
    ∃ g l', g.length = 4 ∧ l = g ++ l' ∧ hex4 g = some v := by
  match l, h with
  | a :: b :: c :: d :: l', h => exact ⟨[a, b, c, d], l', rfl, rfl, h⟩

/-! ## Units are characters -/

section

variable {front : StrFront} {quote a : UInt8} {l out : Bytes} {n : Nat}

theorem utf8Unit_plain (hquote : a ≠ quote) (hctl : ¬ a < 0x20) (hesc : a ≠ backslash)
    (h : utf8Unit a l = .plain n) :
    ∃ u l', l = u ++ l' ∧ n = u.length + 1 ∧ ScanChar quote (a :: u) (a :: u) := by
  simp only [utf8Unit] at h
  split at h
  · cases h
  split at h
  · cases h
  split at h
  · rename_i hz hlen hall
    injection h with h
    refine ⟨l.take (utf8SeqLen a - 1), l.drop (utf8SeqLen a - 1), by simp, ?_, ?_⟩
    · simp only [length_take]
      omega
    refine .sequence hquote hctl hesc ?_ hall
    simp only [length_take]
    omega
  · cases h

theorem utf8Unit_not_esc : utf8Unit a l ≠ .esc n out := by
  simp only [utf8Unit]
  split
  · simp
  split
  · simp
  · split <;> simp

theorem unicodeUnit_esc (quote : UInt8) (h : unicodeUnit front l = .esc n out) :
    ∃ u l', l = u ++ l' ∧ n = u.length + 2 ∧ ScanChar quote (backslash :: lowerU :: u) out := by
  unfold unicodeUnit at h
  cases hcp : hex4 l with
  | none => simp [hcp] at h
  | some cp =>
    obtain ⟨g, l₁, hg, rfl, hgv⟩ := hex4_split hcp
    simp only [hcp, drop_left' hg] at h
    split at h
    · rename_i hhi
      split at h
      · cases h
      rename_i htail
      match l₁, htail with
      | x :: y :: l₂, htail =>
        simp only [drop_succ_cons, drop_zero] at h
        cases hlo : hex4 l₂ with
        | none => simp [hlo] at h
        | some lo =>
          obtain ⟨g', l₃, hg', rfl, hgv'⟩ := hex4_split hlo
          simp only [hlo] at h
          split at h
          · rename_i hlo'
            injection h with hn hout
            subst hn hout
            simp at htail
            obtain ⟨-, rfl, rfl⟩ := htail
            refine ⟨g ++ backslash :: lowerU :: g', l₃, by simp, ?_, ?_⟩
            · simp [hg, hg']
            · exact .pair hg hg' hgv hhi hgv' hlo'
          · cases h
    rename_i hhi
    split at h
    · cases h
    rename_i hlo
    injection h with hn hout
    subst hn hout
    refine ⟨g, l₁, rfl, by simp [hg], ?_⟩
    exact .unicode hg hgv (by simpa using hhi) (by simpa using hlo)

theorem escapeUnit_ne_close : escapeUnit front quote l ≠ .close := by
  unfold escapeUnit unicodeUnit
  grind

theorem escapeUnit_ne_plain : escapeUnit front quote l ≠ .plain n := by
  unfold escapeUnit unicodeUnit
  grind

theorem strUnit_close (h : strUnit front quote a l = .close) : a = quote := by
  unfold strUnit utf8Unit at h
  have := @escapeUnit_ne_close front quote l
  grind

theorem strUnit_plain (h : strUnit front quote a l = .plain n) :
    a ≠ backslash ∧ ∃ u l', l = u ++ l' ∧ n = u.length + 1 ∧ ScanChar quote (a :: u) (a :: u) := by
  unfold strUnit at h
  split at h
  · cases h
  split at h
  · cases h
  split at h
  · exact absurd h escapeUnit_ne_plain
  · exact ⟨‹_›, utf8Unit_plain ‹_› ‹_› ‹_› h⟩

theorem strUnit_esc (h : strUnit front quote a l = .esc n out) :
    a = backslash ∧ ∃ u l', l = u ++ l' ∧ n = u.length + 1 ∧ ScanChar quote (a :: u) out := by
  unfold strUnit at h
  split at h
  · cases h
  split at h
  · cases h
  split at h
  · rename_i hesc
    subst hesc
    refine ⟨rfl, ?_⟩
    unfold escapeUnit at h
    split at h
    · cases h
    rename_i e l'
    split at h
    · rename_i he
      obtain ⟨u, l₁, rfl, rfl, hchar⟩ := unicodeUnit_esc quote h
      subst he
      exact ⟨lowerU :: u, l₁, rfl, rfl, hchar⟩
    split at h
    · rename_i b hb
      injection h with hn hout
      subst hn hout
      exact ⟨[e], l', rfl, rfl, .short hb⟩
    · cases h
  · exact absurd h utf8Unit_not_esc

/-! ## Characters are units -/

/-- The unit read off a character, whatever follows it. -/
theorem strUnit_of_char {u : Bytes} (hq : quote ≠ backslash) (h : ScanChar quote u out)
    (front : StrFront) (rest : Bytes) :
    ∃ a l, u = a :: l ∧
      ((strUnit front quote a (l ++ rest) = .plain u.length ∧ out = u ∧ backslash ∉ u) ∨
        (strUnit front quote a (l ++ rest) = .esc u.length out ∧ a = backslash)) := by
  have hbs : ¬ backslash < 0x20 := by decide
  cases h with
  | @sequence lead conts hquote hctl hesc hlen hconts =>
    refine ⟨lead, conts, rfl, .inl ⟨?_, rfl, ?_⟩⟩
    · simp [strUnit, hquote, hctl, hesc, utf8Unit, hconts, hlen]
    have hb : ¬ isCont backslash := by decide
    simp only [mem_cons, not_or]
    exact ⟨hesc.symm, fun hmem => hb (all_eq_true.mp hconts _ hmem)⟩
  | @short e b h =>
    have he : e ≠ lowerU := by
      rintro rfl
      simp [simpleEscape] at h
    exact ⟨_, _, rfl, .inr ⟨by simp [strUnit, hq.symm, hbs, escapeUnit, he, h], rfl⟩⟩
  | @unicode g cp hlen hcp hhi hlo =>
    refine ⟨_, _, rfl, .inr ⟨?_, rfl⟩⟩
    simp [strUnit, hq.symm, hbs, escapeUnit, unicodeUnit, hex4_append hlen, hcp, hhi, hlo, hlen]
  | @pair g g' hi lo hlen hlen' hhi hhi' hlo hlo' =>
    refine ⟨_, _, rfl, .inr ⟨?_, rfl⟩⟩
    simp [strUnit, hq.symm, hbs, escapeUnit, unicodeUnit, hex4_append hlen, hex4_append hlen',
      hhi, hhi', hlo, hlo', hlen, hlen', drop_append]

end

/-! ## Scanned bodies are the sentences of the grammar -/

variable {front : StrFront} {quote : UInt8} {b : StrBody} {c : Cur}

private theorem scan_body_sound (hq : quote ≠ backslash) (s : Loc × StrBody) (l : Bytes)
    (h : scan (bodyStep front quote) bodyDone s l = .ok (b, c)) :
    ∃ raw dec, l = raw ++ quote :: c.rest ∧ StrChars quote raw dec ∧
      b = ⟨s.2.raw ++ raw, s.2.dec ++ dec, s.2.hasEsc || raw.contains backslash⟩ := by
  induction s, l using scan_induction (bodyStep front quote) with
  | nil s => cases h
  | stop s a l r hr =>
    rw [scan_cons_stop hr] at h
    subst h
    unfold bodyStep at hr
    split at hr
    · rename_i hu
      obtain ⟨rfl, rfl⟩ := hr
      have ha := strUnit_close hu
      subst ha
      exact ⟨[], [], rfl, .nil, by simp⟩
    all_goals cases hr
  | next s a l s' n hs ih =>
    rw [scan_cons_next hs] at h
    obtain ⟨raw, dec, hl, hchars, hb⟩ := ih h
    unfold bodyStep at hs
    split at hs
    · cases hs
    · rename_i k hu
      obtain ⟨hne, u, l', rfl, rfl, hchar⟩ := strUnit_plain hu
      obtain ⟨rfl, rfl⟩ := hs
      simp only [drop_left', Nat.add_sub_cancel] at hl
      refine ⟨a :: u ++ raw, a :: u ++ dec, ?_, .cons (scanChar_iff.mp hchar) hchars, ?_⟩
      · simp [hl]
      have hu : backslash ∉ a :: u := by
        obtain ⟨_, _, hau, h | h⟩ := strUnit_of_char hq hchar front []
        · exact h.2.2
        · injection hau with h1
          exact absurd (h1.trans h.2) hne
      subst hb
      simp_all
    · rename_i k out hu
      obtain ⟨rfl, u, l', rfl, rfl, hchar⟩ := strUnit_esc hu
      obtain ⟨rfl, rfl⟩ := hs
      simp only [drop_left', Nat.add_sub_cancel] at hl
      refine ⟨_ :: u ++ raw, out ++ dec, ?_, .cons (scanChar_iff.mp hchar) hchars, ?_⟩
      · simp [hl]
      · subst hb
        simp
    · cases hs

private theorem scan_body_complete (front : StrFront) (hq : quote ≠ backslash) {raw dec : Bytes}
    (h : StrChars quote raw dec) (s : Loc × StrBody) (rest : Bytes) :
    ∃ loc, scan (bodyStep front quote) bodyDone s (raw ++ quote :: rest) =
      .ok (⟨s.2.raw ++ raw, s.2.dec ++ dec, s.2.hasEsc || raw.contains backslash⟩,
        ⟨loc, rest⟩) := by
  induction h generalizing s with
  | nil =>
    refine ⟨s.1.adv, scan_cons_stop ?_⟩
    simp [bodyStep, strUnit]
  | @cons u out w dec head tail ih =>
    obtain ⟨a, l, rfl, ⟨hu, rfl, hbs⟩ | ⟨hu, rfl⟩⟩ :=
      strUnit_of_char hq (scanChar_iff.mpr head) front (w ++ quote :: rest)
    · obtain ⟨loc, hloc⟩ := ih (s.1.advSeq (l.length + 1),
        ⟨s.2.raw ++ a :: l, s.2.dec ++ a :: l, s.2.hasEsc⟩)
      refine ⟨loc, ?_⟩
      rw [append_assoc, cons_append, scan_cons]
      simp only [bodyStep, hu, length_cons, take_succ_cons, take_left',
        Nat.add_sub_cancel, drop_left']
      rw [hloc]
      simp_all
    obtain ⟨loc, hloc⟩ := ih (s.1.adv (l.length + 1),
      ⟨s.2.raw ++ backslash :: l, s.2.dec ++ out, true⟩)
    refine ⟨loc, ?_⟩
    rw [append_assoc, cons_append, scan_cons]
    simp only [bodyStep, hu, length_cons, take_succ_cons, take_left',
      Nat.add_sub_cancel, drop_left']
    rw [hloc]
    simp

/-- What a scanner accepts is a body followed by the closing quote. -/
theorem scanBody_sound (hq : quote ≠ backslash) {c' : Cur}
    (h : scanBody front quote c = .ok (b, c')) :
    c.rest = b.raw ++ quote :: c'.rest ∧ StrChars quote b.raw b.dec ∧
      b.hasEsc = b.raw.contains backslash := by
  obtain ⟨raw, dec, hl, hchars, rfl⟩ := scan_body_sound hq _ _ h
  exact ⟨hl, hchars, by simp⟩

/-- A body followed by the closing quote is accepted and decoded, whatever comes next. -/
theorem scanBody_complete {front : StrFront} {quote : UInt8} (hq : quote ≠ backslash)
    {raw dec : Bytes} (h : StrChars quote raw dec) (loc : Loc) (rest : Bytes) :
    ∃ loc', scanBody front quote ⟨loc, raw ++ quote :: rest⟩ =
      .ok (⟨raw, dec, raw.contains backslash⟩, ⟨loc', rest⟩) := by
  obtain ⟨loc', h'⟩ := scan_body_complete front hq h (loc, {}) rest
  exact ⟨loc', by simpa [scanBody] using h'⟩

/-! ## The wordings do not matter for what is accepted -/

/-- A unit without the wording of its diagnostic. -/
def StrUnit.eraseMsg : StrUnit → StrUnit
  | .fail code _ n => .fail code "" n
  | u => u

theorem strUnit_eraseMsg (front front' : StrFront) (quote a : UInt8) (l : Bytes) :
    (strUnit front quote a l).eraseMsg = (strUnit front' quote a l).eraseMsg := by
  have huni (l : Bytes) : (unicodeUnit front l).eraseMsg = (unicodeUnit front' l).eraseMsg := by
    unfold unicodeUnit
    cases hex4 l with
    | none => rfl
    | some cp =>
      dsimp only
      split
      · split
        · rfl
        · cases hex4 ((l.drop 4).drop 2) <;> rfl
      · rfl
  unfold strUnit escapeUnit
  split
  · rfl
  split
  · rfl
  split
  · cases l with
    | nil => rfl
    | cons e l' =>
      dsimp only
      split
      · exact huni l'
      · rfl
  · rfl

/-- Two scans whose units differ in wording at most accept the same bodies. -/
theorem scanBody_front (front front' : StrFront) (quote : UInt8) (c : Cur) :
    (scanBody front quote c).toOption = (scanBody front' quote c).toOption := by
  unfold scanBody
  generalize (c.loc, ({} : StrBody)) = s
  generalize c.rest = l
  induction s, l using scan_induction (bodyStep front quote) with
  | nil s => rfl
  | stop s a l r hr =>
    have hu := strUnit_eraseMsg front front' quote a l
    rw [scan_cons_stop hr, scan_cons]
    unfold bodyStep at hr ⊢
    cases h : strUnit front quote a l <;> cases h' : strUnit front' quote a l <;>
      simp_all [StrUnit.eraseMsg]
    simp [← hr, Except.toOption]
  | next s a l s' n hs ih =>
    have hu := strUnit_eraseMsg front front' quote a l
    rw [scan_cons_next hs, ih, scan_cons]
    unfold bodyStep at hs ⊢
    cases h : strUnit front quote a l <;> cases h' : strUnit front' quote a l <;>
      simp_all [StrUnit.eraseMsg]

end Conflux.Json

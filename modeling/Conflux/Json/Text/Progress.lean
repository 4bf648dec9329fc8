import Conflux.Json.Grammar.Numbers
import Conflux.Json.Grammar.Strings
import Conflux.Json.Text.Tokens

/-!
# Progress of the scanners

A scanner that succeeds stands at a later position of the same input: what it passed over
is a prefix of what was unread, and the offset counts it.
-/

namespace Conflux.Json

open Conflux.Core List

/-- The cursor `c'` stands `w` bytes after the cursor `c`. -/
def Cur.Reads (c : Cur) (w : Bytes) (c' : Cur) : Prop :=
  c.rest = w ++ c'.rest ∧ c'.loc.offset = c.loc.offset + w.length

namespace Cur.Reads

variable {c c' c'' : Cur} {w w' : Bytes}

protected theorem refl (c : Cur) : c.Reads [] c := ⟨rfl, rfl⟩

protected theorem trans (h : c.Reads w c') (h' : c'.Reads w' c'') : c.Reads (w ++ w') c'' := by
  constructor
  · rw [h.1, h'.1, append_assoc]
  · rw [h'.2, h.2, length_append, Nat.add_assoc]

protected theorem adv {n : Nat} (h : c.rest = w ++ c'.rest) (hn : w.length = n)
    (hc : c' = c.adv n) : c.Reads w c' :=
  ⟨h, by rw [hc, hn]; rfl⟩

theorem length_eq (h : c.Reads w c') : c.rest.length = w.length + c'.rest.length := by
  rw [h.1, length_append]

end Cur.Reads

variable {c : Cur} {quote : UInt8}

theorem Cur.reads_adv {n : Nat} (h : n ≤ c.rest.length) : c.Reads (c.rest.take n) (c.adv n) := by
  refine ⟨by simp, ?_⟩
  simp [h]

theorem Cur.reads_adv_cons {a : UInt8} {l : Bytes} (h : c.rest = a :: l) : c.Reads [a] c.adv := by
  refine ⟨by simp [h], ?_⟩
  simp

variable {mode : ParseMode} {c' : Cur} {front : StrFront}

/-- Whitespace: spaces, tabs, line feeds and carriage returns. -/
def Ws (w : Bytes) : Prop := ∀ b ∈ w, b = 0x20 ∨ b = 0x09 ∨ b = 0x0A ∨ b = 0x0D

theorem isBlank_iff {b : UInt8} : isBlank b ↔ b = 0x20 ∨ b = 0x09 ∨ b = 0x0A ∨ b = 0x0D := by
  unfold isBlank
  grind

theorem Ws.blank {w : Bytes} (h : Ws w) : ∀ b ∈ w, isBlank b :=
  fun b hb => isBlank_iff.mpr (h b hb)

private theorem scan_ws_reads (s : WsState × Loc) (l : Bytes)
    (h : scan (wsStep mode) wsDone s l = .ok c) :
    ∃ w, (mode = .strict → s.1 = .blank → Ws w) ∧ l = w ++ c.rest ∧
      c.loc.offset = s.2.offset + w.length := by
  induction s, l using scan_induction (wsStep mode) with
  | nil s =>
    obtain ⟨st, loc⟩ := s
    cases st <;> simp [wsDone] at h <;> subst h <;> exact ⟨[], by simp [Ws], rfl, rfl⟩
  | stop s a l b hb =>
    rw [scan_cons_stop hb] at h
    subst h
    have hc : c = ⟨s.2, a :: l⟩ := by
      unfold wsStep at hb
      grind
    exact ⟨[], by simp [Ws], by simp [hc]⟩
  | next s a l s' n hs ih =>
    rw [scan_cons_next hs] at h
    obtain ⟨w, hws, hw, hoff⟩ := ih h
    have hstrict : mode = .strict → s.1 = .blank → isBlank a ∧ n = 0 ∧ s'.1 = .blank := by
      intro hm hblank
      have hcomment : ¬ (mode = .json5 ∧ a = Ascii.slash) := by simp [hm]
      have hlf : isBlank Ascii.lf := rfl
      simp only [wsStep, hblank, hcomment, if_false] at hs
      grind
    have hn : n ≤ l.length ∧ s'.2.offset = s.2.offset + n + 1 := by
      have hlen (b : UInt8) (h : l.head? = some b) : 1 ≤ l.length := by
        cases l with
        | nil => simp at h
        | cons => simp
      have h2 : (s.2.adv 2).offset = s.2.offset + 1 + 1 := rfl
      unfold wsStep at hs
      grind [Loc.adv_offset, Loc.newline_offset]
    refine ⟨a :: l.take n ++ w, ?_, ?_, ?_⟩
    · intro hm hb
      obtain ⟨ha, rfl, hb'⟩ := hstrict hm hb
      exact forall_mem_cons.mpr ⟨isBlank_iff.mp ha, hws hm hb'⟩
    · rw [cons_append, cons_append, append_assoc, ← hw, take_append_drop]
    · simp only [cons_append, length_cons, length_append, length_take]
      omega

/-- Skipped whitespace stands at a later position. -/
theorem skipWs_reads (h : skipWs mode c = .ok c') :
    ∃ w, (mode = .strict → Ws w) ∧ c.Reads w c' := by
  obtain ⟨w, hws, hw⟩ := scan_ws_reads _ _ h
  exact ⟨w, fun hm => hws hm rfl, hw⟩

private theorem scan_body_offset (s : Loc × StrBody) (l : Bytes) {b : StrBody}
    (h : scan (bodyStep front quote) bodyDone s l = .ok (b, c)) :
    c.loc.offset + c.rest.length = s.1.offset + l.length := by
  induction s, l using scan_induction (bodyStep front quote) with
  | nil s => cases h
  | stop s a l r hr =>
    rw [scan_cons_stop hr] at h
    subst h
    unfold bodyStep at hr
    split at hr
    · simp only [ScanStep.stop.injEq, Except.ok.injEq, Prod.mk.injEq] at hr
      obtain ⟨-, rfl⟩ := hr
      simp only [Loc.adv_offset, length_cons]
      omega
    all_goals cases hr
  | next s a l s' n hs ih =>
    rw [scan_cons_next hs] at h
    rw [ih h]
    unfold bodyStep at hs
    split at hs
    · cases hs
    · rename_i k hu
      obtain ⟨-, u, l', rfl, rfl, -⟩ := strUnit_plain hu
      obtain ⟨rfl, rfl⟩ := hs
      simp only [Loc.advSeq_offset, length_drop, length_cons, length_append]
      omega
    · rename_i k out hu
      obtain ⟨-, u, l', rfl, rfl, -⟩ := strUnit_esc hu
      obtain ⟨rfl, rfl⟩ := hs
      simp only [Loc.adv_offset, length_drop, length_cons, length_append]
      omega
    · cases hs

/-- A scanned body stands after its closing quote. -/
theorem scanBody_reads (hq : quote ≠ Ascii.backslash) {b : StrBody}
    (h : scanBody front quote c = .ok (b, c')) : c.Reads (b.raw ++ [quote]) c' := by
  obtain ⟨hrest, -⟩ := scanBody_sound hq h
  have hoff := scan_body_offset _ _ h
  refine ⟨by simp [hrest], ?_⟩
  rw [hrest] at hoff
  simp only [length_append, length_cons] at hoff ⊢
  simp only [length_nil]
  omega

/-! ## Tokens -/

/-- The two quotes. -/
def IsQuote (quote : UInt8) : Prop := quote = Ascii.quote ∨ quote = Ascii.apostrophe

theorem IsQuote.ne_backslash (h : IsQuote quote) : quote ≠ Ascii.backslash := by
  obtain rfl | rfl := h <;> decide

/-- A string or a name that can be written: characters between quotes, or an identifier. -/
inductive StrTok.Written : StrTok → Prop
  | quoted {quote : UInt8} {raw dec : Bytes} (hq : IsQuote quote) (h : StrChars quote raw dec) :
      Written ⟨.ofQuote quote, raw, dec⟩
  | bare {raw : Bytes} (h : ∀ b ∈ raw, isIdentPart b) : Written ⟨.bare, raw, raw⟩

section

variable {mode : ParseMode} {c c' : Cur} {a quote : UInt8} {l : Bytes}

/-- The lead byte of a string is its quote. -/
theorem lead_eq_str (h : lead mode a = .str quote) :
    a = quote ∧ IsQuote quote ∧ (quote = Ascii.apostrophe → mode = .json5) := by
  unfold lead at h
  split at h
  · cases h
    exact ⟨‹_›, .inl rfl, fun h => absurd h (by decide)⟩
  split at h
  · rename_i hm
    cases h
    exact ⟨hm.2, .inr rfl, fun _ => hm.1⟩
  · repeat (split at h; cases h)
    cases h

/-- The search for a first byte passes over whitespace only. -/
theorem valueStart_ok {deep : Bool} (h : valueStart mode deep c = .ok (a, c')) :
    skipWs mode c = .ok c' ∧ deep = false ∧ ∃ l, c'.rest = a :: l := by
  unfold valueStart at h
  split at h
  · cases h
  rename_i c₁ hws
  split at h
  · cases h
  rename_i l hrest
  split at h
  · cases h
  rename_i hdeep
  cases h
  exact ⟨hws, by simpa using hdeep, _, hrest⟩

variable {t : StrTok}

theorem quoted_reads (hq : IsQuote quote) (hc : c.rest = quote :: l)
    (h : quoted quote c = .ok (t, c')) :
    c.Reads (quote :: t.raw ++ [quote]) c' ∧ StrChars quote t.raw t.dec ∧
      t.form = .ofQuote quote := by
  unfold quoted at h
  split at h
  · cases h
  rename_i b c₁ hb
  cases h
  exact ⟨(Cur.reads_adv_cons hc).trans (scanBody_reads hq.ne_backslash hb),
    (scanBody_sound hq.ne_backslash hb).2.1, rfl⟩

theorem quoted_written (hq : IsQuote quote) (h : quoted quote c = .ok (t, c')) : t.Written := by
  unfold quoted at h
  split at h
  · cases h
  rename_i b c₁ hb
  cases h
  exact .quoted hq (scanBody_sound hq.ne_backslash hb).2.1

theorem literal_reads {lit : Literal} (h : literal lit c = .ok c') : c.Reads lit.text c' := by
  unfold literal at h
  split at h
  · rename_i htake
    cases h
    have hrest := prefix_iff_eq_append.mp (prefix_iff_eq_take.mpr htake.symm)
    exact .adv hrest.symm rfl rfl
  · cases h

theorem parseUnquotedKey_reads (h : parseUnquotedKey c = .ok (t, c')) :
    c.Reads t.raw c' ∧ t = ⟨.bare, t.raw, t.raw⟩ ∧ (∀ b ∈ t.raw, isIdentPart b) ∧ t.raw ≠ [] := by
  unfold parseUnquotedKey at h
  split at h
  · rename_i hstart
    cases h
    have hsplit := prefix_iff_eq_append.mp ( takeWhile_prefix isIdentPart (l := c.rest))
    refine ⟨.adv hsplit.symm rfl rfl, rfl, ?_, ?_⟩
    · exact fun b hb => all_eq_true.mp all_takeWhile b hb
    cases hrest : c.rest with
    | nil => simp [hrest] at hstart
    | cons b l =>
      simp only [hrest, List.head?_cons, Option.any_some] at hstart
      simp [isIdentPart, hstart]
  · cases h

/-- A member name is not empty as written, and in strict mode a quoted string. -/
theorem memberName_reads (h : memberName mode c = .ok (t, c')) :
    ∃ w, w ≠ [] ∧ c.Reads w c' ∧ t.Written ∧ (mode = .strict → StrChars Ascii.quote t.raw t.dec ∧
      t.form = .double ∧ ∃ v, Ws v ∧ w = v ++ Ascii.quote :: (t.raw ++ [Ascii.quote])) := by
  unfold memberName at h
  split at h
  · cases h
  rename_i c₁ hws
  obtain ⟨w, hblank, hw⟩ := skipWs_reads hws
  split at h
  · cases h
  unfold parseObjectMemberName at h
  split at h
  · rename_i hhead
    obtain ⟨l, hl⟩ := head?_eq_some_iff.mp hhead
    obtain ⟨hr, hchars, hform⟩ := quoted_reads (.inl rfl) hl h
    exact ⟨_, by simp, hw.trans hr, quoted_written (.inl rfl) h,
      fun hm => ⟨hchars, hform, w, hblank hm, rfl⟩⟩
  split at h
  · cases h
  split at h
  · rename_i hhead
    obtain ⟨l, hl⟩ := head?_eq_some_iff.mp hhead
    exact ⟨_, by simp, hw.trans (quoted_reads (.inr rfl) hl h).1, quoted_written (.inr rfl) h,
      by simp⟩
  · obtain ⟨hr, hk, hident, hne⟩ := parseUnquotedKey_reads h
    rw [hk]
    exact ⟨_, by simp [hne], hw.trans hr, .bare hident, by simp⟩

/-- Passing over an opening bracket, and possibly the closing one, is progress. -/
theorem opened_reads {close : UInt8} {closed : Bool} (hc : c.rest = a :: l)
    (h : opened mode close c = .ok (closed, c')) :
    ∃ w, (mode = .strict → Ws w) ∧ c.Reads (a :: (w ++ if closed then [close] else [])) c' := by
  unfold opened at h
  split at h
  · cases h
  rename_i c₁ hws
  obtain ⟨w, hblank, hw⟩ := skipWs_reads hws
  refine ⟨w, hblank, ?_⟩
  have hadv := (Cur.reads_adv_cons hc).trans hw
  split at h
  · rename_i hhead
    cases h
    obtain ⟨l₁, hl₁⟩ := head?_eq_some_iff.mp hhead
    simpa using hadv.trans (Cur.reads_adv_cons hl₁)
  · cases h
    simpa using hadv

/-- What separates two elements is not empty. -/
theorem separator_reads {b : Bracket} {closed : Bool}
    (h : separator mode b c = .ok (closed, c')) :
    ∃ w, w ≠ [] ∧ c.Reads w c' ∧ (mode = .strict →
      ∃ v, Ws v ∧ w = v ++ [if closed then b.close else Ascii.comma]) := by
  unfold separator at h
  split at h
  · cases h
  rename_i c₁ hws
  obtain ⟨w, hblank, hw⟩ := skipWs_reads hws
  split at h
  · cases h
  rename_i a₁ l₁ hrest
  have hone := hw.trans (Cur.reads_adv_cons hrest)
  split at h
  · rename_i hclose
    cases h
    exact ⟨_, by simp, hone, fun hm => ⟨w, hblank hm, by rw [hclose]; rfl⟩⟩
  split at h
  · rename_i hcomma
    split at h
    · cases h
      exact ⟨_, by simp, hone, fun hm => ⟨w, hblank hm, by rw [hcomma]; rfl⟩⟩
    · obtain ⟨w', -, hw'⟩ := opened_reads hrest h
      exact ⟨_, by simp, hw.trans hw', by simp⟩
  · cases h

theorem colon_reads (h : colon mode c = .ok c') :
    ∃ w, (mode = .strict → Ws w) ∧ c.Reads (w ++ [Ascii.colon]) c' := by
  unfold colon at h
  split at h
  · cases h
  rename_i c₁ hws
  obtain ⟨w, hblank, hw⟩ := skipWs_reads hws
  split at h
  · rename_i hhead
    cases h
    obtain ⟨l₁, hl₁⟩ := head?_eq_some_iff.mp hhead
    exact ⟨w, hblank, hw.trans (Cur.reads_adv_cons hl₁)⟩
  · cases h

end

end Conflux.Json

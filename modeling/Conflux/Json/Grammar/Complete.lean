import Conflux.Json.Grammar.Texts

/-!
# The reader accepts every text of the grammar

What the grammar derives, the reference reader reads in strict mode, with the derived tree as
the result. There is one lemma for each production; the derivation is then followed from the
root to the leaves.
-/

namespace Conflux.Json

open List Ascii Bracket

variable {a : UInt8} {s : Bytes} {t : Cst}

theorem isBlank_number (h : a = minus ∨ isDigit a) : isBlank a = false := by
  obtain rfl | hdigit := h
  · decide
  unfold isDigit at hdigit
  unfold isBlank
  grind

theorem lead_number (h : a = minus ∨ isDigit a) : lead .strict a = .num := by
  have hlead (h : a = minus ∨ isDigit a) (hq : a ≠ quote) (hl : a ≠ lbracket)
      (hb : a ≠ lbrace) (ht : a ≠ lowerT) (hf : a ≠ lowerF)
      (hn : a ≠ lowerN) : lead .strict a = .num := by
    simp only [lead, if_neg hq, if_neg hl, if_neg hb, if_neg ht, if_neg hf, if_neg hn, if_pos h]
    rfl
  apply hlead h <;> rintro rfl <;> exact absurd h (by decide)

/-- A value starts with a byte that neither is a blank nor closes an array. -/
theorem ValueText.head (h : ValueText s t) :
    ∃ a s', s = a :: s' ∧ isBlank a = false ∧ a ≠ rbracket := by
  cases h with
  | lit l => cases l <;> exact ⟨_, _, rfl, by decide⟩
  | num h =>
    obtain ⟨a, s', rfl, hnum⟩ := h.head
    refine ⟨a, s', rfl, isBlank_number hnum, ?_⟩
    rintro rfl
    exact absurd hnum (by decide)
  | str _ | emptyArr _ | arr _ | emptyObj _ | obj _ => exact ⟨_, _, rfl, by decide⟩

theorem ValueText.length_pos (h : ValueText s t) : 0 < s.length := by
  obtain ⟨a, s', rfl, -⟩ := h.head
  exact Nat.succ_pos _

section

variable {l w : Bytes}

/-- Whitespace is skipped up to a byte that is no blank. -/
theorem skipWs_strict_cons (ha : isBlank a = false) (hw : Ws w) (loc : Loc) (l : Bytes) :
    ∃ loc', skipWs .strict ⟨loc, w ++ a :: l⟩ = .ok ⟨loc', a :: l⟩ := by
  have hdrop : (w ++ a :: l).dropWhile isBlank = a :: l := by
    rw [dropWhile_append_of_pos hw.blank, dropWhile_cons_of_neg (by simp [ha])]
  obtain ⟨loc', h⟩ := skipWs_strict loc (w ++ a :: l)
  exact ⟨loc', by rw [h, hdrop]⟩

theorem NumStop.ws (hw : Ws w) (hl : NumStop l) : NumStop (w ++ l) := by
  cases w with
  | nil => exact hl
  | cons b w =>
    rintro c ⟨⟩
    have hb := hw b (by simp)
    unfold isDigit
    grind

theorem numStop_cons {b : UInt8} (hb : b = comma ∨ b = rbracket ∨ b = rbrace) :
    NumStop (b :: l) := by
  rintro c ⟨⟩
  obtain rfl | rfl | rfl := hb <;> decide

theorem numStop_nil : NumStop [] := by
  rintro c ⟨⟩

variable {raw dec lexeme w' s' : Bytes} {ts : List Cst} {ms : List (StrTok × Cst)}

theorem quoted_complete {quote : UInt8} (hq : quote ≠ backslash) (h : StrChars quote raw dec)
    (loc : Loc) (l : Bytes) :
    ∃ loc', quoted quote ⟨loc, quote :: (raw ++ quote :: l)⟩ =
      .ok (⟨.ofQuote quote, raw, dec⟩, ⟨loc', l⟩) := by
  obtain ⟨loc', hb⟩ := @scanBody_complete .dom _ hq _ _ h loc.adv l
  refine ⟨loc', ?_⟩
  have hadv : (⟨loc, quote :: (raw ++ quote :: l)⟩ : Cur).adv = ⟨loc.adv, raw ++ quote :: l⟩ := rfl
  simp [quoted, hadv, hb, StrBody.tok]

theorem literal_complete (lit : Literal) (loc : Loc) (l : Bytes) :
    ∃ loc', literal lit ⟨loc, lit.text ++ l⟩ = .ok ⟨loc', l⟩ :=
  ⟨loc.adv lit.text.length, by simp [literal, Cur.adv]⟩

theorem numberText_complete (h : NumberText lexeme) (hl : NumStop l) (loc : Loc) :
    ∃ loc', numberText ⟨loc, lexeme ++ l⟩ = some (lexeme, ⟨loc', l⟩) := by
  obtain ⟨i, hn⟩ := numberLength_complete h hl
  exact ⟨loc.adv lexeme.length, by simp [numberText, hn, Cur.adv]⟩

theorem separator_strict_close {b : Bracket} (hb : isBlank b.close = false) (hw : Ws w)
    (loc : Loc) (l : Bytes) :
    ∃ loc', separator .strict b ⟨loc, w ++ b.close :: l⟩ = .ok (true, ⟨loc', l⟩) := by
  obtain ⟨loc', hws⟩ := skipWs_strict_cons hb hw loc l
  exact ⟨loc'.adv, by simp [separator, hws, Cur.adv]⟩

theorem separator_strict_comma {b : Bracket} (hb : comma ≠ b.close) (hw : Ws w)
    (loc : Loc) (l : Bytes) :
    ∃ loc', separator .strict b ⟨loc, w ++ comma :: l⟩ = .ok (false, ⟨loc', l⟩) := by
  have hblank : isBlank comma = false := by decide
  obtain ⟨loc', hws⟩ := skipWs_strict_cons hblank hw loc l
  refine ⟨loc'.adv, ?_⟩
  simp only [separator, hws, if_neg hb, if_true]
  rfl

theorem opened_strict_empty (a : UInt8) {close : UInt8} (hclose : isBlank close = false) (hw : Ws w)
    (loc : Loc) (l : Bytes) :
    ∃ loc', opened .strict close ⟨loc, a :: (w ++ close :: l)⟩ = .ok (true, ⟨loc', l⟩) := by
  obtain ⟨loc', hws⟩ := skipWs_strict_cons hclose hw loc.adv l
  exact ⟨loc'.adv, by simp [opened, hws, Cur.adv]⟩

theorem opened_strict_more (a : UInt8) {b close : UInt8} (hb : isBlank b = false) (hne : b ≠ close)
    (hw : Ws w) (loc : Loc) (l : Bytes) :
    ∃ c, opened .strict close ⟨loc, a :: (w ++ b :: l)⟩ = .ok (false, c) ∧
      skipWs .strict ⟨loc.adv, w ++ b :: l⟩ = .ok c := by
  obtain ⟨loc', hws⟩ := skipWs_strict_cons hb hw loc.adv l
  refine ⟨_, ?_, hws⟩
  have hadv : (⟨loc, a :: (w ++ b :: l)⟩ : Cur).adv = ⟨loc.adv, w ++ b :: l⟩ := rfl
  simp [opened, hadv, hws, hne]

theorem colon_strict_complete (hw : Ws w) (loc : Loc) (l : Bytes) :
    ∃ loc', colon .strict ⟨loc, w ++ Ascii.colon :: l⟩ = .ok ⟨loc', l⟩ := by
  have hblank : isBlank Ascii.colon = false := by decide
  obtain ⟨loc', hws⟩ := skipWs_strict_cons hblank hw loc l
  exact ⟨loc'.adv, by simp [colon, hws, Cur.adv]⟩

theorem memberName_strict_complete (hw : Ws w) (h : StrChars quote raw dec) (loc : Loc)
    (l : Bytes) :
    ∃ loc', memberName .strict ⟨loc, w ++ quote :: (raw ++ quote :: l)⟩ =
      .ok (⟨.double, raw, dec⟩, ⟨loc', l⟩) := by
  have hblank : isBlank quote = false := by decide
  obtain ⟨loc₁, hws⟩ := skipWs_strict_cons hblank hw loc (raw ++ quote :: l)
  obtain ⟨loc₂, hq⟩ := quoted_complete (by decide) h loc₁ l
  have hform : StrForm.ofQuote quote = .double := rfl
  rw [hform] at hq
  refine ⟨loc₂, ?_⟩
  simp only [memberName, hws, parseObjectMemberName]
  simpa using hq

theorem ElemsText.head (h : ElemsText s ts) :
    ∃ w a s', s = w ++ a :: s' ∧ Ws w ∧ isBlank a = false ∧ a ≠ rbracket := by
  cases h with
  | one h =>
    obtain ⟨hw, h, -⟩ := h
    obtain ⟨a, s', rfl, ha⟩ := h.head
    exact ⟨_, a, _, rfl, hw, ha⟩
  | more h hs =>
    obtain ⟨hw, h, -⟩ := h
    obtain ⟨a, s', rfl, ha⟩ := h.head
    exact ⟨_, a, _, by rw [append_assoc]; rfl, hw, ha⟩

theorem MembersText.head (h : MembersText s ms) : ∃ w s', s = w ++ quote :: s' ∧ Ws w := by
  cases h with
  | one h =>
    obtain ⟨hw, -, -, -⟩ := h
    exact ⟨_, _, rfl, hw⟩
  | more h hs =>
    obtain ⟨hw, -, -, -⟩ := h
    exact ⟨_, _, by rw [append_assoc]; rfl, hw⟩

/-- The reader reads `a` off `s`, and leaves `l`. -/
def ReadsOff {α : Type} (read : Cur → Option (α × Cur)) (s l : Bytes) (a : α) : Prop :=
  ∀ loc, ∃ loc', read ⟨loc, s ++ l⟩ = some (a, ⟨loc', l⟩)

variable {n : Nat} {s : Bytes}

/-- Reading a value starts by looking at its first byte. -/
theorem readsOff_value (ha : isBlank a = false)
    (h : ∀ loc c, c = ⟨loc, a :: (s ++ l)⟩ → valueStart .strict false c = .ok (a, c) →
      ∃ loc', readValue .strict (n + 1) c = some (t, ⟨loc', l⟩)) :
    ReadsOff (readValue .strict (n + 1)) (a :: s) l t := by
  intro loc
  have hnil : Ws [] := fun b hb => by cases hb
  obtain ⟨loc₁, hws⟩ := skipWs_strict_cons ha hnil loc (s ++ l)
  rw [nil_append] at hws
  have hstart :
      valueStart .strict false ⟨loc₁, a :: (s ++ l)⟩ = .ok (a, ⟨loc₁, a :: (s ++ l)⟩) := by
    simp [valueStart, skipWs_idem hws]
  rw [cons_append, readValue_of_skipWs hws]
  exact h loc₁ _ rfl hstart

theorem readsOff_lit (lit : Literal) : ReadsOff (readValue .strict (n + 1)) lit.text l lit.cst := by
  obtain ⟨a, s, htext, hlead, ha⟩ : ∃ a s, lit.text = a :: s ∧ lead .strict a = .lit lit ∧
      isBlank a = false := by
    cases lit <;> exact ⟨_, _, rfl, by decide, by decide⟩
  rw [htext]
  apply readsOff_value ha
  rintro loc c rfl hstart
  obtain ⟨loc', hlit⟩ := literal_complete lit loc l
  rw [htext] at hlit
  exact ⟨loc', by simp_all [readValue]⟩

theorem readsOff_num (h : NumberText lexeme) (hl : NumStop l) :
    ReadsOff (readValue .strict (n + 1)) lexeme l (.num lexeme) := by
  obtain ⟨a, s, hs, hnum⟩ := h.head
  have hlead := lead_number hnum
  rw [hs]
  apply readsOff_value (isBlank_number hnum)
  rintro loc c rfl hstart
  obtain ⟨loc', htext⟩ := numberText_complete h hl loc
  rw [hs] at htext
  exact ⟨loc', by simp_all [readValue]⟩

theorem readsOff_str (h : StrChars quote raw dec) :
    ReadsOff (readValue .strict (n + 1)) (quote :: (raw ++ [quote])) l
      (.str ⟨.double, raw, dec⟩) := by
  apply readsOff_value (by decide)
  rintro loc c rfl hstart
  obtain ⟨loc', hq⟩ := quoted_complete (by decide) h loc l
  have hlead : lead .strict quote = .str quote := by decide
  have hform : StrForm.ofQuote quote = .double := rfl
  rw [hform] at hq
  refine ⟨loc', ?_⟩
  simp only [readValue, hstart, hlead]
  simp [hq]

section

variable {β : Type} {item : Option (β × Cur)} {items : Cur → Option (List β × Cur)} {xs : List β}

/-- A closing bracket is read after whitespace. -/
theorem readOpened_empty {close : UInt8} (first : UInt8) (hclose : isBlank close = false)
    (hw : Ws w) (loc : Loc) : ∃ loc', readOpened .strict close items
      ⟨loc, first :: (w ++ [close] ++ l)⟩ = some ([], ⟨loc', l⟩) := by
  obtain ⟨loc', ho⟩ := opened_strict_empty first hclose hw loc l
  refine ⟨loc', ?_⟩
  rw [append_assoc, singleton_append, readOpened, ho]

/-- Items are read after an opening bracket, if they do not begin with the closing one. -/
theorem readOpened_more {b close : UInt8} (first : UInt8) (hb : isBlank b = false)
    (hne : b ≠ close) (hw : Ws w)
    (hskip : ∀ {c c'}, skipWs .strict c = .ok c' → items c = items c')
    (hread : ReadsOff items (w ++ b :: s' ++ [close]) l xs) (loc : Loc) :
    ∃ loc', readOpened .strict close items ⟨loc, first :: (w ++ b :: s' ++ [close] ++ l)⟩ =
      some (xs, ⟨loc', l⟩) := by
  obtain ⟨c', ho, hws⟩ := opened_strict_more first hb hne hw loc (s' ++ close :: l)
  obtain ⟨loc', hread⟩ := hread loc.adv
  refine ⟨loc', ?_⟩
  simp only [append_assoc, cons_append, nil_append] at hread ⊢
  rw [readOpened, ho]
  dsimp only
  rw [← hskip hws, hread]

end

theorem readsOff_arr
    (h : ∀ loc, ∃ loc', readOpened .strict rbracket (readElems .strict n)
      ⟨loc, lbracket :: (s ++ l)⟩ = some (ts, ⟨loc', l⟩)) :
    ReadsOff (readValue .strict (n + 1)) (lbracket :: s) l (.arr ts) := by
  apply readsOff_value (by decide)
  rintro loc c rfl hstart
  obtain ⟨loc', h⟩ := h loc
  refine ⟨loc', ?_⟩
  rw [readValue_arr hstart (by decide), h]
  rfl

theorem readsOff_obj
    (h : ∀ loc, ∃ loc', readOpened .strict rbrace (readMembers .strict n)
      ⟨loc, lbrace :: (s ++ l)⟩ = some (ms, ⟨loc', l⟩)) :
    ReadsOff (readValue .strict (n + 1)) (lbrace :: s) l (.obj ms) := by
  apply readsOff_value (by decide)
  rintro loc c rfl hstart
  obtain ⟨loc', h⟩ := h loc
  refine ⟨loc', ?_⟩
  rw [readValue_obj hstart (by decide), h]
  rfl

section

variable (hw : Ws w)
include hw

/-- Leading whitespace does not matter to the reading of a value. -/
theorem readsOff_item (h : ValueText s t)
    (hread : ReadsOff (readValue .strict n) s (w' ++ l) t) (loc : Loc) :
    ∃ loc', readValue .strict n ⟨loc, w ++ (s ++ w') ++ l⟩ = some (t, ⟨loc', w' ++ l⟩) := by
  obtain ⟨a, s', rfl, ha, -⟩ := h.head
  obtain ⟨loc₁, hws⟩ := skipWs_strict_cons ha hw loc (s' ++ (w' ++ l))
  obtain ⟨loc₂, hread⟩ := hread loc₁
  refine ⟨loc₂, ?_⟩
  simp only [append_assoc, cons_append] at hread ⊢
  rw [readValue_of_skipWs hws, hread]

section

variable {β : Type} {b : Bracket} {x : β} {xs : List β} {items : Cur → Option (List β × Cur)}
  {item : Cur → Option (β × Cur)}

/-- The last item is read up to the closing bracket. -/
theorem readItems_one (hclose : isBlank b.close = false)
    (hx : ∀ loc, ∃ loc', item ⟨loc, s ++ b.close :: l⟩ = some (x, ⟨loc', w ++ b.close :: l⟩)) :
    ReadsOff (fun c => readItems .strict b (item c) items) (s ++ [b.close]) l [x] := by
  intro loc
  obtain ⟨loc₁, hx⟩ := hx loc
  obtain ⟨loc₂, hsep⟩ := separator_strict_close hclose hw loc₁ l
  refine ⟨loc₂, ?_⟩
  rw [append_assoc, singleton_append]
  simp only [readItems, hx, hsep]

/-- What separates two items is read after the whitespace left by the first. -/
theorem readItems_more (hne : comma ≠ b.close)
    (hx : ∀ loc, ∃ loc', item ⟨loc, s ++ comma :: (s' ++ b.close :: l)⟩ =
      some (x, ⟨loc', w ++ comma :: (s' ++ b.close :: l)⟩))
    (hxs : ReadsOff items (s' ++ [b.close]) l xs) :
    ReadsOff (fun c => readItems .strict b (item c) items) (s ++ comma :: s' ++ [b.close]) l
      (x :: xs) := by
  intro loc
  obtain ⟨loc₁, hx⟩ := hx loc
  obtain ⟨loc₂, hsep⟩ := separator_strict_comma hne hw loc₁ (s' ++ b.close :: l)
  obtain ⟨loc₃, hxs⟩ := hxs loc₂
  refine ⟨loc₃, ?_⟩
  simp only [append_assoc, cons_append, nil_append] at hxs ⊢
  simp only [readItems, hx, hsep, hxs]
  rfl

end

/-- A member is read up to the whitespace after its value. -/
theorem readMember_complete (hk : StrChars Ascii.quote raw dec) (hw' : Ws w')
    (hv : ∀ loc, ∃ loc', readValue .strict n ⟨loc, s⟩ = some (t, ⟨loc', l⟩)) (loc : Loc) :
    ∃ loc', readMember .strict (readValue .strict n)
      ⟨loc, w ++ Ascii.quote :: (raw ++ Ascii.quote :: (w' ++ Ascii.colon :: s))⟩ =
        some ((⟨.double, raw, dec⟩, t), ⟨loc', l⟩) := by
  obtain ⟨loc₁, hname⟩ := memberName_strict_complete hw hk loc (w' ++ Ascii.colon :: s)
  obtain ⟨loc₂, hcolon⟩ := colon_strict_complete hw' loc₁ s
  obtain ⟨loc₃, hv⟩ := hv loc₂
  exact ⟨loc₃, by simp only [readMember, hname, hcolon, hv]; rfl⟩

end

end

mutual

/-- A derived value is read, if what follows does not continue a number. -/
theorem ValueText.read : {s : Bytes} → {t : Cst} → ValueText s t → ∀ n l, 2 * s.length ≤ n + 1 →
    NumStop l → ReadsOff (readValue .strict (n + 1)) s l t
  | _, _, .lit lit, _, _, _, _ => readsOff_lit lit
  | _, _, .num h, _, _, _, hl => readsOff_num h hl
  | _, _, .str h, _, _, _, _ => readsOff_str h
  | _, _, .emptyArr hw, _, _, _, _ => readsOff_arr (readOpened_empty _ (by decide) hw)
  | _, _, .arr h, n, l, hn, _ => by
    simp only [length_cons, length_append, length_nil] at hn
    have hread := h.read n l (by omega)
    obtain ⟨w, b, s', rfl, hw, hb, hne⟩ := h.head
    exact readsOff_arr (readOpened_more _ hb hne hw (readElems_of_skipWs · n) hread)
  | _, _, .emptyObj hw, _, _, _, _ => readsOff_obj (readOpened_empty _ (by decide) hw)
  | _, _, .obj h, n, l, hn, _ => by
    simp only [length_cons, length_append, length_nil] at hn
    have hread := h.read n l (by omega)
    obtain ⟨w, s', rfl, hw⟩ := h.head
    exact readsOff_obj (readOpened_more _ (by decide) (by decide) hw (readMembers_of_skipWs · n)
      hread)

/-- A derived item is read up to the whitespace after it. -/
theorem ItemText.read : {s : Bytes} → {t : Cst} → ItemText s t →
    ∃ w, Ws w ∧ ∀ n l, 2 * s.length ≤ n → NumStop l →
      ∀ loc, ∃ loc', readValue .strict n ⟨loc, s ++ l⟩ = some (t, ⟨loc', w ++ l⟩)
  | _, _, .mk hw h hw' => by
    refine ⟨_, hw', fun n l hn hl => ?_⟩
    simp only [length_append] at hn
    obtain ⟨m, rfl⟩ : ∃ m, n = m + 1 := by
      have hlen := h.length_pos
      exact ⟨n - 1, by omega⟩
    exact readsOff_item hw h (h.read m _ (by omega) (hl.ws hw'))

/-- Derived elements are read up to the closing bracket. -/
theorem ElemsText.read : {s : Bytes} → {ts : List Cst} → ElemsText s ts → ∀ n l,
    2 * s.length + 1 ≤ n → ReadsOff (readElems .strict n) (s ++ [rbracket]) l ts
  | _, _, .one h, n, l, hn => by
    obtain ⟨m, rfl⟩ : ∃ m, n = m + 1 := ⟨n - 1, by omega⟩
    obtain ⟨w, hw, hread⟩ := h.read
    simp only [funext (readElems_succ .strict m)]
    exact readItems_one hw (by decide) (hread m _ (by omega) (numStop_cons (by decide)))
  | _, _, .more h hs, n, l, hn => by
    obtain ⟨m, rfl⟩ : ∃ m, n = m + 1 := ⟨n - 1, by omega⟩
    simp only [length_cons, length_append] at hn
    obtain ⟨w, hw, hread⟩ := h.read
    simp only [funext (readElems_succ .strict m)]
    exact readItems_more hw (by decide) (hread m _ (by omega) (numStop_cons (by simp)))
      (hs.read m l (by omega))

/-- A derived member is read up to the whitespace after its value. -/
theorem MemberText.read : {s : Bytes} → {m : StrTok × Cst} → MemberText s m →
    ∃ w, Ws w ∧ ∀ n l, 2 * s.length ≤ n → NumStop l → ∀ loc, ∃ loc',
      readMember .strict (readValue .strict n) ⟨loc, s ++ l⟩ = some (m, ⟨loc', w ++ l⟩)
  | _, _, .mk hw hk hw' h => by
    obtain ⟨w, hws, hread⟩ := h.read
    refine ⟨w, hws, fun n l hn hl loc => ?_⟩
    simp only [length_cons, length_append] at hn
    obtain ⟨loc', hm⟩ := readMember_complete hw hk hw' (hread n l (by omega) hl) loc
    exact ⟨loc', by simpa using hm⟩

/-- Derived members are read up to the closing brace. -/
theorem MembersText.read : {s : Bytes} → {ms : List (StrTok × Cst)} → MembersText s ms → ∀ n l,
    2 * s.length + 1 ≤ n → ReadsOff (readMembers .strict n) (s ++ [rbrace]) l ms
  | _, _, .one h, n, l, hn => by
    obtain ⟨m, rfl⟩ : ∃ m, n = m + 1 := ⟨n - 1, by omega⟩
    obtain ⟨w, hw, hread⟩ := h.read
    simp only [funext (readMembers_succ .strict m)]
    exact readItems_one hw (by decide) (hread m _ (by omega) (numStop_cons (by decide)))
  | _, _, .more h hs, n, l, hn => by
    obtain ⟨m, rfl⟩ : ∃ m, n = m + 1 := ⟨n - 1, by omega⟩
    simp only [length_cons, length_append] at hn
    obtain ⟨w, hw, hread⟩ := h.read
    simp only [funext (readMembers_succ .strict m)]
    exact readItems_more hw (by decide) (hread m _ (by omega) (numStop_cons (by simp)))
      (hs.read m l (by omega))

end

/-- A derived text is read as the tree it derives. -/
theorem readText_complete {l : Bytes} (h : JsonText l t) (loc : Loc) :
    readText .strict ⟨loc, l⟩ = some t := by
  obtain ⟨w, hw, hread⟩ := h.read
  have hfuel : 2 * l.length ≤ readFuel l := by
    unfold readFuel
    omega
  obtain ⟨loc₁, hv⟩ := hread (readFuel l) [] hfuel numStop_nil loc
  obtain ⟨loc₂, hws⟩ := skipWs_strict loc₁ w
  have hdrop := @dropWhile_append_of_pos _ isBlank w [] hw.blank
  rw [append_nil, dropWhile_nil] at hdrop
  rw [append_nil, append_nil] at hv
  simp [readText, hv, hws, hdrop]

/-- The strict reader accepts exactly the texts of the grammar. -/
theorem readText_strict_iff (loc : Loc) (l : Bytes) (t : Cst) :
    readText .strict ⟨loc, l⟩ = some t ↔ JsonText l t :=
  ⟨readText_sound, fun h => readText_complete h loc⟩

end Conflux.Json

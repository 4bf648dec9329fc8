import Conflux.Json.Syntax.Progress

/-!
# The grammar of strict JSON

The grammar of JSON texts over their bytes, each derivation naming the tree it derives, and
the proof that what the reference reader reads in strict mode is a text of the grammar.
-/

namespace Conflux.Json

open List Option Ascii

mutual

/-- A value without surrounding whitespace. -/
inductive ValueText : Bytes → Cst → Prop
  | lit (l : Literal) : ValueText l.text l.cst
  | num {lexeme : Bytes} (h : NumberText lexeme) : ValueText lexeme (.num lexeme)
  | str {raw dec : Bytes} (h : StrChars quote raw dec) :
      ValueText (quote :: (raw ++ [quote])) (.str ⟨.double, raw, dec⟩)
  | emptyArr {w : Bytes} (hw : Ws w) :
      ValueText (lbracket :: (w ++ [rbracket])) (.arr [])
  | arr {s : Bytes} {ts : List Cst} (h : ElemsText s ts) :
      ValueText (lbracket :: (s ++ [rbracket])) (.arr ts)
  | emptyObj {w : Bytes} (hw : Ws w) :
      ValueText (lbrace :: (w ++ [rbrace])) (.obj [])
  | obj {s : Bytes} {ms : List (StrTok × Cst)} (h : MembersText s ms) :
      ValueText (lbrace :: (s ++ [rbrace])) (.obj ms)

/-- A value with whitespace around it. -/
inductive ItemText : Bytes → Cst → Prop
  | mk {w s w' : Bytes} {t : Cst} (hw : Ws w) (h : ValueText s t) (hw' : Ws w') :
      ItemText (w ++ (s ++ w')) t

/-- The elements of an array. -/
inductive ElemsText : Bytes → List Cst → Prop
  | one {s : Bytes} {t : Cst} (h : ItemText s t) : ElemsText s [t]
  | more {s s' : Bytes} {t : Cst} {ts : List Cst} (h : ItemText s t) (hs : ElemsText s' ts) :
      ElemsText (s ++ comma :: s') (t :: ts)

/-- A member of an object. -/
inductive MemberText : Bytes → StrTok × Cst → Prop
  | mk {w raw dec w' s : Bytes} {t : Cst} (hw : Ws w) (hk : StrChars Ascii.quote raw dec)
      (hw' : Ws w') (h : ItemText s t) :
      MemberText (w ++ Ascii.quote :: (raw ++ Ascii.quote :: (w' ++ Ascii.colon :: s)))
        (⟨.double, raw, dec⟩, t)

/-- The members of an object. -/
inductive MembersText : Bytes → List (StrTok × Cst) → Prop
  | one {s : Bytes} {m : StrTok × Cst} (h : MemberText s m) : MembersText s [m]
  | more {s s' : Bytes} {m : StrTok × Cst} {ms : List (StrTok × Cst)} (h : MemberText s m)
      (hs : MembersText s' ms) : MembersText (s ++ comma :: s') (m :: ms)

end

/-- A JSON text: one value with whitespace around it. -/
def JsonText (s : Bytes) (t : Cst) : Prop := ItemText s t

variable {w s l : Bytes} {t : Cst} {ts : List Cst} {ms : List (StrTok × Cst)}

theorem Ws.append {w' : Bytes} (h : Ws w) (h' : Ws w') : Ws (w ++ w') :=
  forall_mem_append.mpr ⟨h, h'⟩

theorem ItemText.ws (hw : Ws w) (h : ItemText s t) : ItemText (w ++ s) t := by
  obtain ⟨hw₁, h, hw₂⟩ := h
  rw [← append_assoc]
  exact .mk (hw.append hw₁) h hw₂

theorem ElemsText.ws (hw : Ws w) (h : ElemsText s ts) : ElemsText (w ++ s) ts := by
  cases h with
  | one h => exact .one (h.ws hw)
  | more h hs =>
    rw [← append_assoc]
    exact .more (h.ws hw) hs

theorem MemberText.ws {m : StrTok × Cst} (hw : Ws w) (h : MemberText s m) :
    MemberText (w ++ s) m := by
  obtain ⟨hw₁, hk, hw₂, h⟩ := h
  rw [← append_assoc]
  exact .mk (hw.append hw₁) hk hw₂ h

theorem MembersText.ws (hw : Ws w) (h : MembersText s ms) : MembersText (w ++ s) ms := by
  cases h with
  | one h => exact .one (h.ws hw)
  | more h hs =>
    rw [← append_assoc]
    exact .more (h.ws hw) hs

/-! ## Tokens in strict mode -/

/-- Strict mode skips blanks only, and never fails at it. -/
theorem skipWs_strict (loc : Loc) (l : Bytes) :
    ∃ loc', skipWs .strict ⟨loc, l⟩ = .ok ⟨loc', l.dropWhile isBlank⟩ := by
  induction l generalizing loc with
  | nil => exact ⟨loc, rfl⟩
  | cons a l ih =>
    by_cases ha : isBlank a
    · obtain ⟨loc', h⟩ := ih (if a = lf then loc.newline else loc.adv)
      have hstep : wsStep .strict (.blank, loc) a l =
          .next (.blank, if a = lf then loc.newline else loc.adv) 0 := by
        simp only [wsStep, ha, if_true]
        split <;> rfl
      refine ⟨loc', ?_⟩
      rw [dropWhile_cons_of_pos ha, ← h]
      exact Core.scan_cons_next hstep
    refine ⟨loc, ?_⟩
    rw [dropWhile_cons_of_neg ha]
    apply Core.scan_cons_stop
    have hlf : a ≠ lf := by
      rintro rfl
      exact ha (by decide)
    simp [wsStep, ha, hlf]

/-! ## What is read is in the grammar -/

/-- What reading values, elements and members derives at one amount of fuel. -/
structure ReadsTexts (n : Nat) : Prop where
  value {c c' : Cur} {t : Cst} : readValue .strict n c = some (t, c') →
    ∃ w s, Ws w ∧ ValueText s t ∧ c.Reads (w ++ s) c'
  elems {c c' : Cur} {ts : List Cst} : readElems .strict n c = some (ts, c') →
    ∃ s, ElemsText s ts ∧ c.Reads (s ++ [rbracket]) c'
  members {c c' : Cur} {ms : List (StrTok × Cst)} : readMembers .strict n c = some (ms, c') →
    ∃ s, MembersText s ms ∧ c.Reads (s ++ [rbrace]) c'

section

variable {n : Nat} {c c' : Cur}

theorem readValue_texts_step (ih : ReadsTexts n) (h : readValue .strict (n + 1) c = some (t, c')) :
    ∃ w s, Ws w ∧ ValueText s t ∧ c.Reads (w ++ s) c' := by
  obtain ⟨a, c₁, hstart, hread⟩ := readValue_eq_some h
  obtain ⟨hws, -, l, hl⟩ := valueStart_ok hstart
  obtain ⟨w, hw, hreads⟩ := skipWs_reads hws
  -- It is enough to derive what follows the leading whitespace.
  suffices hval : ∃ s, ValueText s t ∧ c₁.Reads s c' by
    obtain ⟨s, hs, hr⟩ := hval
    exact ⟨w, s, hw rfl, hs, hreads.trans hr⟩
  cases hread with
  | str hlead hk =>
    rename_i quote k
    obtain ⟨rfl, hq, hsq⟩ := lead_eq_str hlead
    have ha : a = Ascii.quote := hq.resolve_right fun h => by cases hsq h
    subst ha
    obtain ⟨hr, hchars, hform⟩ := quoted_reads (.inl rfl) hl hk
    obtain ⟨form, raw, dec⟩ := k
    obtain rfl : form = .double := hform
    exact ⟨_, .str hchars, hr⟩
  | lit _ hlit => exact ⟨_, .lit _, literal_reads hlit⟩
  | num _ hnum =>
    obtain ⟨hr, hlex⟩ := numberText_reads hnum
    exact ⟨_, .num hlex, hr⟩
  | arr hlead hts =>
    have ha : a = lbracket := by
      unfold lead at hlead
      grind
    subst ha
    obtain ⟨closed, c₂, ho, hrest⟩ := readOpened_eq_some hts
    obtain ⟨w', hw', hr⟩ := opened_reads hl ho
    cases closed with
    | true =>
      obtain ⟨rfl, rfl⟩ := hrest
      exact ⟨_, .emptyArr (hw' rfl), hr⟩
    | false =>
      obtain ⟨s, hs, hr'⟩ := ih.elems hrest
      exact ⟨_, .arr (hs.ws (hw' rfl)), by simpa using hr.trans hr'⟩
  | obj hlead hms =>
    have ha : a = lbrace := by
      unfold lead at hlead
      grind
    subst ha
    obtain ⟨closed, c₂, ho, hrest⟩ := readOpened_eq_some hms
    obtain ⟨w', hw', hr⟩ := opened_reads hl ho
    cases closed with
    | true =>
      obtain ⟨rfl, rfl⟩ := hrest
      exact ⟨_, .emptyObj (hw' rfl), hr⟩
    | false =>
      obtain ⟨s, hs, hr'⟩ := ih.members hrest
      exact ⟨_, .obj (hs.ws (hw' rfl)), by simpa using hr.trans hr'⟩

theorem readElems_texts_step (ih : ReadsTexts n) (h : readElems .strict (n + 1) c = some (ts, c')) :
    ∃ s, ElemsText s ts ∧ c.Reads (s ++ [rbracket]) c' := by
  rw [readElems_succ] at h
  obtain ⟨t, c₁, ts', closed, c₂, rfl, hv, hsep, hrest⟩ := readItems_eq_some h
  obtain ⟨w, s, hw, hs, hr⟩ := ih.value hv
  obtain ⟨_, -, hr', hstrict⟩ := separator_reads hsep
  obtain ⟨w', hw', rfl⟩ := hstrict rfl
  have hitem := ItemText.mk hw hs hw'
  cases closed with
  | true =>
    obtain ⟨rfl, rfl⟩ := hrest
    exact ⟨_, .one hitem, by simpa [Bracket.array] using hr.trans hr'⟩
  | false =>
    obtain ⟨s', hs', hr''⟩ := ih.elems hrest
    exact ⟨_, .more hitem hs', by simpa using (hr.trans hr').trans hr''⟩

theorem readMembers_texts_step (ih : ReadsTexts n)
    (h : readMembers .strict (n + 1) c = some (ms, c')) :
    ∃ s, MembersText s ms ∧ c.Reads (s ++ [rbrace]) c' := by
  rw [readMembers_succ] at h
  obtain ⟨⟨k, t⟩, c₁, ms', closed, c₂, rfl, hm, hsep, hrest⟩ := readItems_eq_some h
  obtain ⟨c₃, c₄, hk, hcolon, hv⟩ := readMember_eq_some hm
  obtain ⟨_, -, hr₁, -, hname⟩ := memberName_reads hk
  obtain ⟨hchars, hform, w₁, hw₁, rfl⟩ := hname rfl
  obtain ⟨w₂, hw₂, hr₂⟩ := colon_reads hcolon
  obtain ⟨w₃, s, hw₃, hs, hr₃⟩ := ih.value hv
  obtain ⟨_, -, hr₄, hstrict⟩ := separator_reads hsep
  obtain ⟨w₄, hw₄, rfl⟩ := hstrict rfl
  obtain ⟨form, raw, dec⟩ := k
  obtain rfl : form = .double := hform
  have hmember := MemberText.mk hw₁ hchars (hw₂ rfl) (.mk hw₃ hs hw₄)
  have hr := (((hr₁.trans hr₂).trans hr₃).trans hr₄)
  cases closed with
  | true =>
    obtain ⟨rfl, rfl⟩ := hrest
    exact ⟨_, .one hmember, by simpa [Bracket.object] using hr⟩
  | false =>
    obtain ⟨s', hs', hr'⟩ := ih.members hrest
    exact ⟨_, .more hmember hs', by simpa using hr.trans hr'⟩

/-- What the strict reader reads is derived by the grammar. -/
theorem reads_texts (n : Nat) : ReadsTexts n := by
  induction n with
  | zero => exact ⟨fun h => (by cases h), fun h => (by cases h), fun h => (by cases h)⟩
  | succ n ih =>
    exact ⟨readValue_texts_step ih, readElems_texts_step ih, readMembers_texts_step ih⟩

theorem readText_sound {loc : Loc} (h : readText .strict ⟨loc, l⟩ = some t) : JsonText l t := by
  obtain ⟨c₁, c₂, hv, hws, hend⟩ := readText_eq_some_iff.mp h
  obtain ⟨w, s, hw, hs, hr⟩ := (reads_texts _).value hv
  obtain ⟨w', hw', hr'⟩ := skipWs_reads hws
  have hl := (hr.trans hr').1
  rw [hend, append_nil, append_assoc] at hl
  dsimp only at hl
  rw [hl]
  exact .mk hw hs (hw' rfl)

end

end Conflux.Json

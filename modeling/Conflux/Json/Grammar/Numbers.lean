import Conflux.Json.Text.Tokens

/-!
# The grammar of numbers

Number lexemes in the grammar's own terms, and the proof that the scanner takes the
longest lexeme at the head of its input.
-/

namespace Conflux.Json

open List Ascii

/-- One or more decimal digits. -/
def Digits (ds : Bytes) : Prop := ds ≠ [] ∧ ∀ d ∈ ds, 0x30 ≤ d ∧ d ≤ 0x39

/-- An integer part: digits without a leading zero, or the single zero. -/
def IntDigits (ds : Bytes) : Prop := Digits ds ∧ (ds.head? = some zero → ds.tail = [])

/-- An optional fraction. -/
def Frac (f : Bytes) : Prop := f = [] ∨ ∃ ds, Digits ds ∧ f = dot :: ds

/-- An optional exponent. -/
def Exp (x : Bytes) : Prop :=
  x = [] ∨ ∃ e s ds, (e = lowerE ∨ e = upperE) ∧
    (s = [] ∨ s = [plus] ∨ s = [minus]) ∧ Digits ds ∧ x = e :: (s ++ ds)

/-- A number lexeme. -/
inductive NumberText : Bytes → Prop
  | mk {s ds f x : Bytes} (hsign : s = [] ∨ s = [minus]) (hint : IntDigits ds)
      (hfrac : Frac f) (hexp : Exp x) : NumberText (s ++ ds ++ f ++ x)

theorem isDigit_iff {d : UInt8} : isDigit d ↔ 0x30 ≤ d ∧ d ≤ 0x39 := by
  simp [isDigit]

variable {lexeme ds : Bytes} {p : Nat}

theorem Digits.isDigit (h : Digits ds) : ∀ d ∈ ds, isDigit d :=
  fun d hd => isDigit_iff.mpr (h.2 d hd)

/-- A number lexeme starts with a minus sign or a digit. -/
theorem NumberText.head (h : NumberText lexeme) :
    ∃ a l, lexeme = a :: l ∧ (a = minus ∨ isDigit a) := by
  obtain ⟨hsign, ⟨hds, -⟩, -, -⟩ := h
  obtain rfl | rfl := hsign
  · obtain ⟨d, ds, rfl⟩ := exists_cons_of_ne_nil hds.1
    exact ⟨d, _, rfl, .inr (hds.isDigit d (by simp))⟩
  · exact ⟨_, _, rfl, .inl rfl⟩

theorem NumberText.ne_nil (h : NumberText lexeme) : lexeme ≠ [] := by
  obtain ⟨a, l, rfl, -⟩ := h.head
  exact cons_ne_nil a l

/-- Input at which a number lexeme has ended: neither a digit nor a part of a longer
lexeme comes next. -/
def NumStop (l : Bytes) : Prop :=
  ∀ c, l.head? = some c → isDigit c = false ∧ c ≠ dot ∧ c ≠ lowerE ∧ c ≠ upperE

/-! ## Runs of digits -/

variable {l : Bytes} {n : Nat}

theorem digitRun_append (h : ∀ d ∈ ds, isDigit d) (hl : startsDigit l = false) :
    digitRun (ds ++ l) = ds.length := by
  have htake : (ds ++ l).takeWhile isDigit = ds := by
    rw [takeWhile_append_of_pos h]
    cases l with
    | nil => simp
    | cons c l => simp_all [startsDigit]
  simp [digitRun, htake]

theorem startsDigit_append (h : Digits ds) : startsDigit (ds ++ l) = true := by
  cases ds with
  | nil => exact absurd rfl h.1
  | cons d ds => simpa [startsDigit] using h.isDigit d (by simp)

/-- A run that starts with a digit splits off as digits, with no digit after it. -/
theorem digitRun_split (h : startsDigit l) :
    ∃ ds l', l = ds ++ l' ∧ Digits ds ∧ digitRun l = ds.length ∧ startsDigit l' = false := by
  refine ⟨l.takeWhile isDigit, l.dropWhile isDigit, by simp, ⟨?_, ?_⟩, rfl, ?_⟩
  · cases l with
    | nil => simp [startsDigit] at h
    | cons c l => simp_all [startsDigit]
  · exact fun d hd => isDigit_iff.mp (all_eq_true.mp all_takeWhile d hd)
  cases hd : l.dropWhile isDigit with
  | nil => rfl
  | cons c l' =>
    have := List.head?_dropWhile_not isDigit l
    simp_all [startsDigit]

/-! ## Signs -/

theorem minusLen_split (l : Bytes) :
    ∃ s l', l = s ++ l' ∧ (s = [] ∨ s = [minus]) ∧ minusLen l = s.length := by
  unfold minusLen
  cases l with
  | nil => exact ⟨[], [], by simp⟩
  | cons c l =>
    by_cases hc : c = minus
    · exact ⟨[c], l, by simp [hc]⟩
    · exact ⟨[], c :: l, by simpa using hc⟩

theorem expSignLen_split (l : Bytes) :
    ∃ s l', l = s ++ l' ∧ (s = [] ∨ s = [plus] ∨ s = [minus]) ∧ expSignLen l = s.length := by
  unfold expSignLen
  cases l with
  | nil => exact ⟨[], [], by simp⟩
  | cons c l =>
    by_cases hc : c = plus ∨ c = minus
    · exact ⟨[c], l, rfl, by simpa using hc, by simpa using or_iff_not_imp_left.mp hc⟩
    · exact ⟨[], c :: l, by simpa using hc⟩

/-! ## The scanner is sound -/

theorem intPart_sound (h : intPart l = .ok n) :
    ∃ s ds l', l = s ++ ds ++ l' ∧ (s = [] ∨ s = [minus]) ∧ IntDigits ds ∧
      n = (s ++ ds).length ∧ startsDigit l' = false := by
  obtain ⟨s, l₁, rfl, hs, hm⟩ := minusLen_split l
  simp only [intPart, hm, drop_left'] at h
  split at h
  · cases h
  rename_i hd
  obtain ⟨ds, l', rfl, hds, hrun, hl'⟩ := digitRun_split (l := l₁) (by simpa using hd)
  split at h
  · cases h
  rename_i hz
  refine ⟨s, ds, l', by simp, hs, ⟨hds, ?_⟩, ?_, hl'⟩
  · intro hzero
    obtain ⟨d, ds, rfl⟩ := exists_cons_of_ne_nil hds.1
    cases ds with
    | nil => rfl
    | cons e ds =>
      have he := hds.isDigit e (by simp)
      simp_all [startsDigit]
  · rw [hrun] at h
    simpa using h.symm

theorem fracPart_sound (h : fracPart p l = .ok n) :
    ∃ f l', l = f ++ l' ∧ Frac f ∧ n = p + f.length ∧
      (f = [] → l.head? ≠ some dot) ∧ (f ≠ [] → startsDigit l' = false) := by
  unfold fracPart at h
  split at h
  · rename_i hdot
    split at h
    · rename_i hd
      obtain ⟨ds, l', htail, hds, hrun, hl'⟩ := digitRun_split hd
      cases l with
      | nil => simp at hdot
      | cons c l =>
        simp only [List.head?_cons, Option.some.injEq, tail_cons] at hdot htail h hrun
        subst hdot htail
        rw [hrun] at h
        refine ⟨dot :: ds, l', rfl, .inr ⟨ds, hds, rfl⟩, ?_, by simp, fun _ => hl'⟩
        simp only [Except.ok.injEq] at h
        simp only [length_cons]
        omega
    · cases h
  · simp only [Except.ok.injEq] at h
    exact ⟨[], l, rfl, .inl rfl, by simp [h], fun _ => ‹_›, by simp⟩

theorem expPart_sound (h : expPart p l = .ok n) :
    ∃ x l', l = x ++ l' ∧ Exp x ∧ n = p + x.length := by
  unfold expPart at h
  split at h
  · rename_i he
    cases l with
    | nil => simp at he
    | cons e l =>
      obtain ⟨s, l₁, rfl, hs, hk⟩ := expSignLen_split l
      simp only [tail_cons, hk, drop_left'] at h
      split at h
      · rename_i hd
        obtain ⟨ds, l', rfl, hds, hrun, -⟩ := digitRun_split hd
        refine ⟨e :: (s ++ ds), l', by simp, .inr ⟨e, s, ds, by simpa using he, hs, hds, rfl⟩, ?_⟩
        rw [hrun] at h
        simp only [Except.ok.injEq] at h
        simp only [length_cons, length_append]
        omega
      · cases h
  · simp only [Except.ok.injEq] at h
    exact ⟨[], l, rfl, .inl rfl, by simp [h]⟩

/-- The parts of an accepted lexeme. -/
theorem numberLength_parts {i : Nat} (h : numberLength l = .ok (i, n)) :
    ∃ s ds f x l', l = s ++ ds ++ f ++ x ++ l' ∧ (s = [] ∨ s = [minus]) ∧ IntDigits ds ∧
      Frac f ∧ Exp x ∧ i = (s ++ ds).length ∧ n = (s ++ ds ++ f ++ x).length := by
  unfold numberLength at h
  simp only [bind, Except.bind, pure, Except.pure] at h
  split at h
  · cases h
  rename_i k hint
  obtain ⟨s, ds, l₁, rfl, hs, hds, rfl, -⟩ := intPart_sound hint
  split at h
  · cases h
  rename_i q hfrac
  rw [drop_left' rfl] at hfrac
  obtain ⟨f, l₂, rfl, hf, rfl, -, -⟩ := fracPart_sound hfrac
  split at h
  · cases h
  rename_i r hexp
  have hdrop : (s ++ ds ++ (f ++ l₂)).drop ((s ++ ds).length + f.length) = l₂ := by
    rw [← append_assoc]
    exact drop_left' (by simp [add_assoc])
  rw [hdrop] at hexp
  obtain ⟨x, l₃, rfl, hx, rfl⟩ := expPart_sound hexp
  simp only [Except.ok.injEq, Prod.mk.injEq] at h
  refine ⟨s, ds, f, x, l₃, by simp, hs, hds, hf, hx, h.1.symm, ?_⟩
  rw [← h.2]
  simp [add_assoc]

/-- An accepted lexeme is a number of the grammar. -/
theorem numberLength_sound {i : Nat} (h : numberLength l = .ok (i, n)) :
    ∃ lex l', l = lex ++ l' ∧ NumberText lex ∧ n = lex.length := by
  obtain ⟨s, ds, f, x, l', hl, hs, hds, hf, hx, -, hn⟩ := numberLength_parts h
  exact ⟨_, l', hl, .mk hs hds hf hx, hn⟩

/-! ## The scanner is complete -/

section

variable {s ds f x l : Bytes} {p : Nat}

theorem intPart_complete (hs : s = [] ∨ s = [minus]) (hds : IntDigits ds)
    (hl : startsDigit l = false) : intPart (s ++ ds ++ l) = .ok (s ++ ds).length := by
  have hstart : startsDigit (ds ++ l) = true := startsDigit_append hds.1
  have hrun : digitRun (ds ++ l) = ds.length := digitRun_append hds.1.isDigit hl
  obtain ⟨d, ds', rfl⟩ := exists_cons_of_ne_nil hds.1.1
  have hd : isDigit d := hds.1.isDigit d (by simp)
  have hm : minusLen (s ++ (d :: ds') ++ l) = s.length := by
    have hne : d ≠ minus := by
      rintro rfl
      exact absurd hd (by decide)
    obtain rfl | rfl := hs <;> simp [minusLen, hne]
  have hzero : ((d :: ds' ++ l).head? = some zero && startsDigit (d :: ds' ++ l).tail) =
      false := by
    by_cases hz : d = zero
    · have htail : ds' = [] := hds.2 (by simp [hz])
      simp [htail, hl]
    · simp [hz]
  have hdrop : (s ++ (d :: ds') ++ l).drop s.length = d :: ds' ++ l := by
    rw [append_assoc, drop_left' rfl]
  simp only [intPart, hm, hdrop, hstart, hzero, hrun]
  simp

theorem fracPart_complete (hf : Frac f) (hl : startsDigit l = false)
    (hdot : f = [] → l.head? ≠ some dot) : fracPart p (f ++ l) = .ok (p + f.length) := by
  obtain rfl | ⟨ds, hds, rfl⟩ := hf
  · simp [fracPart, hdot rfl]
  simp only [fracPart, cons_append, List.head?_cons, tail_cons,
    startsDigit_append hds, digitRun_append hds.isDigit hl, length_cons]
  simp [Nat.add_comm, Nat.add_left_comm]

theorem expPart_complete (hx : Exp x) (hl : startsDigit l = false)
    (he : x = [] → l.head? ≠ some lowerE ∧ l.head? ≠ some upperE) :
    expPart p (x ++ l) = .ok (p + x.length) := by
  obtain rfl | ⟨e, s, ds, he', hs, hds, rfl⟩ := hx
  · simp [expPart, he rfl]
  have hk : expSignLen (s ++ (ds ++ l)) = s.length := by
    obtain ⟨d, ds', rfl⟩ := exists_cons_of_ne_nil hds.1
    have hd : isDigit d := hds.isDigit d (by simp)
    have hne : d ≠ plus ∧ d ≠ minus := by
      constructor <;> (rintro rfl; exact absurd hd (by decide))
    obtain rfl | rfl | rfl := hs <;> simp [expSignLen, hne]
  have hhead : (some e = some lowerE ∨ some e = some upperE) := by simpa using he'
  simp only [expPart, cons_append, append_assoc, List.head?_cons, tail_cons,
    hhead, hk, drop_left', startsDigit_append hds, digitRun_append hds.isDigit hl,
    length_cons, length_append, if_true]
  simp [Nat.add_assoc, Nat.add_comm, Nat.add_left_comm]

/-- Nothing that may follow an integer part or a fraction is a digit. -/
theorem startsDigit_exp_append (hx : Exp x) (hl : NumStop l) :
    startsDigit (x ++ l) = false ∧ (x ++ l).head? ≠ some dot := by
  obtain rfl | ⟨e, s, ds, he, -, -, rfl⟩ := hx
  · cases l with
    | nil => simp [startsDigit]
    | cons c l =>
      have hc := hl c rfl
      simp only [nil_append, startsDigit, List.head?_cons, Option.any_some, ne_eq,
        Option.some.injEq]
      exact ⟨hc.1, hc.2.1⟩
  · obtain rfl | rfl := he <;> simp [startsDigit, isDigit]

theorem startsDigit_of_numStop (hl : NumStop l) : startsDigit l = false :=
  (startsDigit_exp_append (.inl rfl) hl).1

/-- A number of the grammar is accepted whole where it has ended. -/
theorem numberLength_complete {lex : Bytes} (h : NumberText lex) (hl : NumStop l) :
    ∃ i, numberLength (lex ++ l) = .ok (i, lex.length) := by
  obtain ⟨hsign, hint, hfrac, hexp⟩ := h
  rename_i s ds f x
  have hx := startsDigit_exp_append hexp hl
  have hfx : startsDigit (f ++ (x ++ l)) = false := by
    obtain rfl | ⟨ds', hds', rfl⟩ := hfrac
    · simpa using hx.1
    · simp [startsDigit, isDigit]
  have h1 : intPart (s ++ ds ++ f ++ x ++ l) = .ok (s ++ ds).length := by
    simpa using intPart_complete (l := f ++ (x ++ l)) hsign hint hfx
  have h2 : fracPart (s ++ ds).length ((s ++ ds ++ f ++ x ++ l).drop (s ++ ds).length) =
      .ok (s ++ ds ++ f).length := by
    have hdrop : (s ++ ds ++ f ++ x ++ l).drop (s ++ ds).length = f ++ (x ++ l) := by
      simp [drop_append]
    rw [hdrop, fracPart_complete hfrac hx.1 (fun _ => hx.2)]
    simp [add_assoc]
  have h3 : expPart (s ++ ds ++ f).length ((s ++ ds ++ f ++ x ++ l).drop (s ++ ds ++ f).length) =
      .ok (s ++ ds ++ f ++ x).length := by
    have hdrop : (s ++ ds ++ f ++ x ++ l).drop (s ++ ds ++ f).length = x ++ l := by
      simp only [append_assoc (s ++ ds ++ f)]
      exact drop_left' rfl
    rw [hdrop, expPart_complete hexp (startsDigit_of_numStop hl)]
    · simp [add_assoc]
    · intro _
      exact ⟨fun h => (hl _ h).2.2.1 rfl, fun h => (hl _ h).2.2.2 rfl⟩
  exact ⟨(s ++ ds).length, by simp only [numberLength, h1, h2, h3, bind, Except.bind]; rfl⟩

end

end Conflux.Json

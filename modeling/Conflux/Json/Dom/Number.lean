import Conflux.Json.Dom.Entry
import Mathlib.Algebra.Ring.Int.Defs

/-!
# Numbers of a document

A number node keeps its lexeme, whether it is written as an integer, and the value that
`std::from_chars` reads, which is taken to be exact. A lexeme beyond the range of `double` is
left to be read later; its node does not say that it is written as an integer. A lexeme that is
too long to be read later keeps its form.

`to_u64` answers a minus with an error of its own, whatever follows it.
-/

namespace Conflux.Json

open DocumentStorage List Ascii

/-- The value of a string of digits. -/
def digitsValue (ds : Bytes) : Nat := Nat.ofDigitChars 10 (ds.map fun d => Char.ofNat d.toNat) 0

/-- The value of a lexeme that is written as an integer. -/
def intValue (lexeme : Bytes) : Int :=
  if lexeme.head? = some minus then -digitsValue lexeme.tail else digitsValue lexeme

/-- The value is one of `std::int64_t`. -/
def fitsI64 (v : Int) : Bool := -2 ^ 63 ≤ v && v < 2 ^ 63

/-- The value is one of `std::uint64_t`. -/
def fitsU64 (v : Int) : Bool := 0 ≤ v && v < 2 ^ 64

/-- What `std::from_chars` says of a lexeme as a `double`. -/
inductive F64Read where
  | finite | infinite | outOfRange | rejected
  deriving DecidableEq

/-- The `kValKind` flags of a number node, with its payload. -/
inductive NumberValue where
  | int (v : Int) | uint (v : Nat) | f64 | overflow | deferred
  deriving DecidableEq

/-- A number of a document, as it is looked at. -/
structure JsonNumberView where
  lexeme : Bytes
  /-- `kLexIntForm` -/
  lexIntForm : Bool
  /-- What was read when the node was built. -/
  value : NumberValue
  deriving DecidableEq

/-- Longest lexeme that is read later. -/
def kSlowFloatLexemeCopyLimit : Nat := 4096

/-- An error of `stage` that quotes bytes. -/
def bytesError (stage : JsonStage) (code : JsonIssueCode) (text : String) (lexeme : Bytes) :
    JsonError :=
  { stage := stage, code := code
    message := text ++ String.ofList (lexeme.map fun b => Char.ofNat b.toNat) }

/-- The node of a lexeme that is read as a `double`. -/
def buildF64Node (f64 : Bytes → F64Read) (lex : NumLex) : Except JsonError JsonNumberView :=
  match f64 lex.lexeme with
  | .finite => .ok ⟨lex.lexeme, lex.intForm, .f64⟩
  | .infinite => .ok ⟨lex.lexeme, lex.intForm, .overflow⟩
  | .outOfRange =>
    if lex.lexeme.length > kSlowFloatLexemeCopyLimit then
      .ok ⟨lex.lexeme, lex.intForm, .overflow⟩
    else .ok ⟨lex.lexeme, false, .deferred⟩
  | .rejected =>
    .error (bytesError .parse .invalidNumber "number rejected by std::from_chars: " lex.lexeme)

/-- `build_number_node_from_lexeme` -/
def buildNumberNodeFromLexeme (f64 : Bytes → F64Read) (lex : NumLex) :
    Except JsonError JsonNumberView :=
  let v := intValue lex.lexeme
  if lex.intForm && fitsI64 v then .ok ⟨lex.lexeme, true, .int v⟩
  else if lex.intForm && lex.lexeme.head? ≠ some minus && fitsU64 v then
    .ok ⟨lex.lexeme, true, .uint v.toNat⟩
  else buildF64Node f64 lex

namespace JsonNumberView

/-- `to_i64` -/
def toI64 (n : JsonNumberView) : Except JsonError Int :=
  if !n.lexIntForm then
    .error (bytesError .lookup .invalidNumber "to_i64 requires integer-form number" [])
  else
    match n.value with
    | .int v => .ok v
    | _ =>
      .error (bytesError .lookup .numberOutOfRange "value out of std::int64_t range: " n.lexeme)

/-- `to_u64` -/
def toU64 (n : JsonNumberView) : Except JsonError Nat :=
  let outOfRange :=
    bytesError .lookup .numberOutOfRange "value out of std::uint64_t range: " n.lexeme
  if !n.lexIntForm then
    .error (bytesError .lookup .invalidNumber "to_u64 requires integer-form number" [])
  else if n.lexeme.head? = some minus then
    .error (bytesError .lookup .signMismatch "negative integer passed to to_u64: " n.lexeme)
  else
    match n.value with
    | .uint v => .ok v
    | .int v => if 0 ≤ v then .ok v.toNat else .error outOfRange
    | _ => .error outOfRange

end JsonNumberView

/-- An optional minus, and `0` or digits without a leading zero. -/
def IntText (lexeme : Bytes) : Prop :=
  ∃ s ds, (s = [] ∨ s = [minus]) ∧ IntDigits ds ∧ lexeme = s ++ ds

/-- A value that fits its type, or the error that it does not. -/
def ranged {α : Type} (fits : Bool) (v : α) : Except JsonIssueCode α :=
  if fits then .ok v else .error .numberOutOfRange

/-- The least integer that rounds to infinity: half a unit in the last place above the greatest
`double`. -/
def f64Limit : Nat := (2 ^ 54 - 1) * 2 ^ 970

/-- `std::from_chars` reads every number, and an integer is in range exactly if it does not round
to infinity. -/
structure FromCharsExact (f64 : Bytes → F64Read) : Prop where
  reads (lexeme : Bytes) : NumberText lexeme → f64 lexeme ≠ .rejected
  integers (lexeme : Bytes) : IntText lexeme →
    f64 lexeme = if (intValue lexeme).natAbs < f64Limit then .finite else .outOfRange

/-- The form is that of the lexeme, and integers have their values if these fit. A minus is no
unsigned number. -/
structure JsonNumberView.Exact (n : JsonNumberView) : Prop where
  form : n.lexIntForm = true ↔ IntText n.lexeme
  i64 : IntText n.lexeme →
    n.toI64.mapError (·.code) = ranged (fitsI64 (intValue n.lexeme)) (intValue n.lexeme)
  u64 : IntText n.lexeme →
    n.toU64.mapError (·.code) =
      if n.lexeme.head? = some minus then .error .signMismatch
      else ranged (fitsU64 (intValue n.lexeme)) (intValue n.lexeme).toNat

variable {c c' : Cur} {lex : NumLex} {f64 : Bytes → F64Read} {n : JsonNumberView}

theorem IntText.all {lexeme : Bytes} (h : IntText lexeme) :
    ∀ b ∈ lexeme, b = minus ∨ isDigit b := by
  obtain ⟨s, ds, hs, hds, rfl⟩ := h
  refine forall_mem_append.mpr ⟨fun b hb => .inl ?_, fun b hb => .inr (hds.1.isDigit b hb)⟩
  obtain rfl | rfl := hs
  · cases hb
  · exact mem_singleton.mp hb

/-- The scanner knows integers by their shape. -/
theorem intForm_iff (h : parseNumberLexeme c = .ok (lex, c')) :
    lex.intForm = true ↔ IntText lex.lexeme := by
  unfold parseNumberLexeme at h
  split at h
  · cases h
  rename_i i k hlength
  obtain ⟨s, ds, f, x, l', hrest, hs, hds, hf, hx, hi, hk⟩ := numberLength_parts hlength
  split at h
  · cases h
  cases h
  rw [hrest, take_left' hk.symm, decide_eq_true_eq, hi, hk]
  constructor
  · intro hlen
    have hnil : f.length = 0 ∧ x.length = 0 := by
      simp only [length_append] at hlen
      omega
    rw [length_eq_zero_iff.mp hnil.1, length_eq_zero_iff.mp hnil.2, append_nil, append_nil]
    exact ⟨s, ds, hs, hds, rfl⟩
  intro hint
  have hall := hint.all
  obtain rfl | ⟨ds', -, rfl⟩ := hf
  · obtain rfl | ⟨e, s', ds', he, -, -, rfl⟩ := hx
    · simp
    have hmem := hall e (by simp)
    obtain rfl | rfl := he
    all_goals exact absurd hmem (by decide)
  · exact absurd (hall dot (by simp)) (by decide)

/-- What is scanned is a number. -/
theorem numberText_of_scan (h : parseNumberLexeme c = .ok (lex, c')) : NumberText lex.lexeme := by
  unfold parseNumberLexeme at h
  split at h
  · cases h
  rename_i i k hlength
  obtain ⟨text, l', hrest, htext, hk⟩ := numberLength_sound hlength
  split at h
  · cases h
  cases h
  rwa [hrest, take_left' hk.symm]

/-- A number without a minus is not negative. -/
theorem intValue_nonneg {lexeme : Bytes} (h : lexeme.head? ≠ some minus) : 0 ≤ intValue lexeme := by
  rw [intValue, if_neg h]
  exact Int.natCast_nonneg _

/-- The 64-bit integers are within the range of `double`. -/
theorem lt_f64Limit {v : Nat} (h : v ≤ 2 ^ 64) : v < f64Limit := by
  have hlarge (k : Nat) (hk : 64 ≤ k) : 2 ^ 64 < (2 ^ 54 - 1) * 2 ^ k := by
    have hpow : 2 ^ 64 ≤ 2 ^ k := Nat.pow_le_pow_right (by decide) hk
    omega
  exact lt_of_le_of_lt h (hlarge 970 (by decide))

/-- The readings of a node that knows its form: the value is there if it fits. -/
theorem JsonNumberView.exact_of_form (hint : IntText n.lexeme) (hform : n.lexIntForm = true)
    (hi : n.toI64.mapError (·.code) = ranged (fitsI64 (intValue n.lexeme)) (intValue n.lexeme))
    (hu : n.lexeme.head? ≠ some minus → n.toU64.mapError (·.code) =
      ranged (fitsU64 (intValue n.lexeme)) (intValue n.lexeme).toNat) : n.Exact := by
  refine ⟨⟨fun _ => hint, fun _ => hform⟩, fun _ => hi, fun _ => ?_⟩
  split
  · rename_i hminus
    simp [toU64, hform, hminus, Except.mapError, bytesError]
  · rename_i hne
    exact hu hne

/-- A signed value is exact. -/
theorem exact_int {lexeme : Bytes} (hint : IntText lexeme) (hfits : fitsI64 (intValue lexeme)) :
    (⟨lexeme, true, .int (intValue lexeme)⟩ : JsonNumberView).Exact := by
  refine JsonNumberView.exact_of_form hint rfl ?_ fun hne => ?_
  · simp [JsonNumberView.toI64, hfits, ranged, Except.mapError]
  · have hpos := intValue_nonneg hne
    have hu : fitsU64 (intValue lexeme) := by
      simp only [fitsI64, fitsU64, Bool.and_eq_true, decide_eq_true_eq] at hfits ⊢
      exact ⟨hpos, by omega⟩
    simp [JsonNumberView.toU64, hne, hpos, hu, ranged, Except.mapError]

/-- An unsigned value beyond the signed ones is exact. -/
theorem exact_uint {lexeme : Bytes} (hint : IntText lexeme)
    (hnot : fitsI64 (intValue lexeme) = false) (hfits : fitsU64 (intValue lexeme)) :
    (⟨lexeme, true, .uint (intValue lexeme).toNat⟩ : JsonNumberView).Exact := by
  refine JsonNumberView.exact_of_form hint rfl ?_ fun hne => ?_
  · simp [JsonNumberView.toI64, hnot, ranged, Except.mapError, bytesError]
  · simp [JsonNumberView.toU64, hne, hfits, ranged, Except.mapError]

/-- An integer beyond both types whose node knows its form is exact. -/
theorem exact_large {lexeme : Bytes} {v : NumberValue} (hv : v = .f64 ∨ v = .overflow)
    (hint : IntText lexeme) (hi : fitsI64 (intValue lexeme) = false)
    (hu : lexeme.head? ≠ some minus → fitsU64 (intValue lexeme) = false) :
    (⟨lexeme, true, v⟩ : JsonNumberView).Exact := by
  refine JsonNumberView.exact_of_form hint rfl ?_ fun hne => ?_
  · rcases hv with rfl | rfl <;>
      simp [JsonNumberView.toI64, hi, ranged, Except.mapError, bytesError]
  · rcases hv with rfl | rfl <;>
      simp [JsonNumberView.toU64, hne, hu hne, ranged, Except.mapError, bytesError]

/-- A lexeme that is not written as an integer has the other form. -/
theorem exact_of_not_intText (hnot : ¬ IntText n.lexeme) (hform : n.lexIntForm = false) :
    n.Exact where
  form := ⟨fun h => absurd (hform ▸ h) Bool.false_ne_true, fun h => absurd h hnot⟩
  i64 h := absurd h hnot
  u64 h := absurd h hnot

/-- The integer is one that is not left to be read later. -/
def readAtOnce (lexeme : Bytes) : Bool :=
  (intValue lexeme).natAbs < f64Limit || kSlowFloatLexemeCopyLimit < lexeme.length

/-- The node of an integer beyond both types is exact unless it is left to be read later. -/
theorem buildF64Node_integer (hf64 : FromCharsExact f64) (hint : IntText lex.lexeme)
    (hform : lex.intForm = true) (hi : fitsI64 (intValue lex.lexeme) = false)
    (hu : lex.lexeme.head? ≠ some minus → fitsU64 (intValue lex.lexeme) = false) :
    ∃ n, buildF64Node f64 lex = .ok n ∧ n.lexeme = lex.lexeme ∧
      (n.Exact ↔ readAtOnce lex.lexeme = true) := by
  have hread := hf64.integers lex.lexeme hint
  rw [readAtOnce, Bool.or_eq_true, decide_eq_true_iff, decide_eq_true_iff, buildF64Node, hread,
    hform]
  by_cases hin : (intValue lex.lexeme).natAbs < f64Limit
  · rw [if_pos hin]
    exact ⟨_, rfl, rfl, iff_of_true (exact_large (.inl rfl) hint hi hu) (.inl hin)⟩
  rw [if_neg hin]
  dsimp only
  by_cases hlong : lex.lexeme.length > kSlowFloatLexemeCopyLimit
  · rw [if_pos hlong]
    exact ⟨_, rfl, rfl, iff_of_true (exact_large (.inr rfl) hint hi hu) (.inr hlong)⟩
  · rw [if_neg hlong]
    refine ⟨_, rfl, rfl, iff_of_false (fun hexact => ?_) fun h => h.elim hin hlong⟩
    exact absurd (hexact.form.mpr hint) Bool.false_ne_true

/-- The node of a scanned lexeme is exact, unless it is an integer that is left to be read
later. -/
theorem buildNumberNode_exact_iff (hf64 : FromCharsExact f64)
    (hlex : parseNumberLexeme c = .ok (lex, c')) :
    ∃ n, buildNumberNodeFromLexeme f64 lex = .ok n ∧ n.lexeme = lex.lexeme ∧
      (n.Exact ↔ (IntText lex.lexeme → readAtOnce lex.lexeme = true)) := by
  have hform := intForm_iff hlex
  have hnumber := numberText_of_scan hlex
  rw [buildNumberNodeFromLexeme]
  by_cases hint : IntText lex.lexeme
  · have htrue := hform.mpr hint
    simp only [htrue, Bool.true_and, hint, true_imp_iff]
    cases hi : fitsI64 (intValue lex.lexeme) with
    | true =>
      refine ⟨_, rfl, rfl, iff_of_true (exact_int hint hi) ?_⟩
      have hin : (intValue lex.lexeme).natAbs < f64Limit := by
        apply lt_f64Limit
        simp only [fitsI64, Bool.and_eq_true, decide_eq_true_eq] at hi
        omega
      rw [readAtOnce, decide_eq_true hin, Bool.true_or]
    | false =>
      by_cases hu : lex.lexeme.head? ≠ some minus ∧ fitsU64 (intValue lex.lexeme) = true
      · rw [if_neg Bool.false_ne_true, if_pos (by simpa using hu)]
        refine ⟨_, rfl, rfl, iff_of_true (exact_uint hint hi hu.2) ?_⟩
        have hin : (intValue lex.lexeme).natAbs < f64Limit := by
          have hfits := hu.2
          apply lt_f64Limit
          simp only [fitsU64, Bool.and_eq_true, decide_eq_true_eq] at hfits
          omega
        rw [readAtOnce, decide_eq_true hin, Bool.true_or]
      · rw [if_neg Bool.false_ne_true, if_neg (by simpa using hu)]
        refine buildF64Node_integer hf64 hint htrue hi fun hne => ?_
        rw [not_and] at hu
        exact Bool.not_eq_true _ ▸ hu hne
  · have hfalse : lex.intForm = false := Bool.eq_false_iff.mpr (mt hform.mp hint)
    have hreads := hf64.reads lex.lexeme hnumber
    simp only [hfalse, Bool.false_and, Bool.false_eq_true, if_false, buildF64Node]
    have hexact (v : NumberValue) : (⟨lex.lexeme, false, v⟩ : JsonNumberView).Exact ↔
        (IntText lex.lexeme → readAtOnce lex.lexeme = true) :=
      iff_of_true (exact_of_not_intText hint rfl) fun h => absurd h hint
    cases hread : f64 lex.lexeme with
    | rejected => exact absurd hread hreads
    | finite | infinite => exact ⟨_, rfl, rfl, hexact _⟩
    | outOfRange =>
      dsimp only
      split
      all_goals exact ⟨_, rfl, rfl, hexact _⟩

/-- Every number node has a lexeme of the input. It is exact, unless it is written as an integer
that rounds to infinity and has at most 4096 characters. -/
theorem parse_number_exact_iff (f64 : Bytes → F64Read) (hf64 : FromCharsExact f64)
    (opts : JsonParseOptions) (seed : Nat → UInt64) (input : Bytes) (st : DocumentStorage)
    (hparse : parse opts seed input = .ok st) (i off len : Nat) (flags : StrFlags) (intForm : Bool)
    (hnode : st.nodes[i]? = some (.number off len flags intForm)) :
    ∃ lexeme n, st.bytesAt off len flags = some lexeme ∧ NumberText lexeme ∧
      buildNumberNodeFromLexeme f64 ⟨lexeme, intForm⟩ = .ok n ∧ n.lexeme = lexeme ∧
      (n.Exact ↔ (IntText lexeme →
        (intValue lexeme).natAbs < f64Limit ∨ 4096 < lexeme.length)) := by
  obtain ⟨rfl, lexeme, c, c', hslice, hlex⟩ := parse_scanned hparse _ (mem_of_getElem? hnode)
  obtain ⟨n, hbuild, hn, hexact⟩ := buildNumberNode_exact_iff hf64 hlex
  refine ⟨lexeme, n, ?_, numberText_of_scan hlex, hbuild, hn, hexact.trans ?_⟩
  · simpa [bytesAt, StrFlags.view] using hslice
  · rw [readAtOnce, Bool.or_eq_true, decide_eq_true_iff, decide_eq_true_iff]
    rfl

/-- A `std::from_chars` that is exact on integers. -/
def readIntegers (lexeme : Bytes) : F64Read :=
  if (intValue lexeme).natAbs < f64Limit then .finite else .outOfRange

theorem fromCharsExact_readIntegers : FromCharsExact readIntegers where
  reads lexeme _ := by
    unfold readIntegers
    split
    all_goals exact nofun
  integers lexeme _ := rfl

/-- The greatest `std::uint64_t` and one less than the least `std::int64_t`, in an array. -/
def edgeNumbers : Bytes := "[18446744073709551615,-9223372036854775809]".toUTF8.toList

/-- The document of these numbers. -/
def edgeDocument : DocumentStorage where
  nodes := [.number 1 20 .view true, .number 22 20 .view true, .array 0 2]
  arrayChildren := [0, 1]
  inputView := edgeNumbers
  rootNode := 2

/-- The lexeme of the second number settles whether it is exact. -/
theorem parse_number_exact_edgeNumbers :
    parse {} (fun _ => 0) edgeNumbers = .ok edgeDocument ∧
      edgeDocument.nodes[1]? = some (.number 22 20 .view true) ∧
      ∃ lexeme n, edgeDocument.bytesAt 22 20 .view = some lexeme ∧ NumberText lexeme ∧
        buildNumberNodeFromLexeme readIntegers ⟨lexeme, true⟩ = .ok n ∧ n.lexeme = lexeme ∧
        (n.Exact ↔ (IntText lexeme →
          (intValue lexeme).natAbs < f64Limit ∨ 4096 < lexeme.length)) := by
  have hparse : parse {} (fun _ => 0) edgeNumbers = .ok edgeDocument := by decide +kernel
  exact ⟨hparse, rfl, parse_number_exact_iff readIntegers fromCharsExact_readIntegers {} _
    edgeNumbers edgeDocument hparse 1 22 20 .view true rfl⟩

/-- A one with 399 zeros is written as an integer, and its node says that it is none. -/
theorem deferred_integer :
    let lexeme : Bytes := 0x31 :: replicate 399 0x30
    let document : DocumentStorage := { nodes := [.number 0 400 .view true], inputView := lexeme }
    parse {} (fun _ => 0) lexeme = .ok document ∧
      buildNumberNodeFromLexeme readIntegers ⟨lexeme, true⟩ =
        .ok ⟨lexeme, false, .deferred⟩ ∧
      (JsonNumberView.toI64 ⟨lexeme, false, .deferred⟩).mapError (·.code) =
        .error .invalidNumber := by
  decide +kernel

end Conflux.Json

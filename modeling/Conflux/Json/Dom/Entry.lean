import Conflux.Json.Dom.Refine

/-!
# Parsing a text

The entry point: the size limits, the byte order mark, the value, and nothing but
whitespace after it.
-/

namespace Conflux.Json

open Conflux.Core DocumentStorage

/-- The UTF-8 byte order mark. -/
def kBOM : Bytes := [0xEF, 0xBB, 0xBF]

/-- The input size limits. -/
def checkInputLimits (size : Nat) (opts : JsonParseOptions) : Except JsonError Unit :=
  if kU32Ceiling ≤ size then
    .error { code := .inputTooLarge, message := "input exceeds 4 GiB hard ceiling" }
  else if opts.maxInputSize.exceeds size kDefaultMaxInput then
    .error { code := .inputTooLarge, message := "input exceeds max_input_size" }
  else .ok ()

/-- Set the input of a store, dropping a byte order mark. -/
def setStorageInputView (st : DocumentStorage) (src : Bytes) : DocumentStorage :=
  if kBOM.isPrefixOf src then
    { st with inputView := src.drop kBOM.length, bomPrefixBytes := kBOM.length }
  else { st with inputView := src }

/-- Positions of the parser's errors count the byte order mark. -/
def JsonError.shift (e : JsonError) (bom : Nat) : JsonError :=
  { e with source := e.source.map fun l => { l with offset := l.offset + bom } }

/-- Parse the input of a store into it. -/
def parseInplace (opts : JsonParseOptions) (seed : Nat → UInt64) (st : DocumentStorage) :
    Except JsonError DocumentStorage :=
  match skipWs opts.mode ⟨{}, st.inputView⟩ with
  | .error e => .error (e.err.shift st.bomPrefixBytes)
  | .ok c =>
    if c.rest = [] then .error { code := .unexpectedEof, message := "empty input" }
    else
      match parseValue opts seed (readFuel st.inputView) 0 { store := st } c with
      | .error e => .error (e.err.shift st.bomPrefixBytes)
      | .ok (root, tb, c) =>
        match skipWs opts.mode c with
        | .error e => .error (e.err.shift st.bomPrefixBytes)
        | .ok c =>
          if c.rest = [] then .ok { tb.store with rootNode := root }
          else
            .error
              ((mkErr c.loc .trailingGarbage "trailing content after value").shift
                st.bomPrefixBytes)

/-- Parse a text. -/
def parse (opts : JsonParseOptions) (seed : Nat → UInt64) (input : Bytes) :
    Except JsonError DocumentStorage :=
  match checkInputLimits input.length opts with
  | .error e => .error e
  | .ok () => parseInplace opts seed (setStorageInputView {} input)

/-- The input without a byte order mark. -/
def stripBom (input : Bytes) : Bytes :=
  if kBOM.isPrefixOf input then input.drop kBOM.length else input

theorem setStorageInputView_inputView (st : DocumentStorage) (src : Bytes) :
    (setStorageInputView st src).inputView = stripBom src := by
  unfold setStorageInputView stripBom
  split <;> rfl

theorem setStorageInputView_layout (st : DocumentStorage) (src : Bytes) :
    (setStorageInputView st src).layout = st.layout := by
  unfold setStorageInputView
  split <;> rfl

/-- Sizes that both input limits allow. -/
def sizeFits (opts : JsonParseOptions) (size : Nat) : Bool :=
  size < kU32Ceiling && !opts.maxInputSize.exceeds size kDefaultMaxInput

variable {opts : JsonParseOptions}

theorem checkInputLimits_ok_iff {size : Nat} :
    checkInputLimits size opts = .ok () ↔ sizeFits opts size := by
  unfold checkInputLimits sizeFits
  split
  · simp
    omega
  · split <;> simp_all

/-- The tree of an input, if it is one text of the mode's syntax. -/
def readInput (mode : ParseMode) (input : Bytes) : Option Cst :=
  readText mode ⟨{}, stripBom input⟩

theorem parseInplace_follows (opts : JsonParseOptions) (seed : Nat → UInt64)
    (st : DocumentStorage) :
    Follows (parseInplace opts seed st) (readText opts.mode ⟨{}, st.inputView⟩)
      (fun t => t.accepts opts 0) (fun t st' => st'.value = some (t.value opts.duplicateKey) ∧
        (st'.rootNode, st'.layout) = t.lay opts.duplicateKey st.layout ∧ Extends st st') := by
  unfold parseInplace readText
  cases hws : skipWs opts.mode ⟨{}, st.inputView⟩ with
  | error e =>
    rw [readValue_of_error hws]
    exact follows_none _
  | ok c =>
    have hc : c.At st.inputView := Cur.At.skipWs ⟨[], rfl, rfl⟩ hws
    dsimp only
    split
    · rw [readValue_of_nil hws ‹_›]
      exact follows_none _
    rw [readValue_of_skipWs hws]
    obtain ⟨⟨root, tb, c₁⟩, ⟨t, _⟩, hp, href, hok, ⟨hcur, hgrow, hden⟩, hlay⟩ | ⟨e, hp, hno⟩ :=
      ((parses_laid opts seed st.inputView (readFuel st.inputView)).value 0 { store := st } c
        rfl hc).cases
    · dsimp only at hcur hgrow hden hok hlay
      subst hcur
      rw [hp, href]
      dsimp only
      cases skipWs opts.mode c₁ with
      | error e => exact follows_none _
      | ok c₂ =>
        dsimp only
        split
        · have hroot : Extends tb.store { tb.store with rootNode := root } :=
            ⟨rfl, rfl, List.prefix_rfl, List.prefix_rfl, fun _ h => .inl h, List.prefix_rfl,
              List.prefix_rfl⟩
          exact follows_ok rfl hok
            ⟨(hden.extend hroot).valueAt hden.lt, hlay, hgrow.store.trans hroot⟩
        · exact follows_none _
    rw [hp]
    intro t ht hok
    split at ht
    · cases ht
    rename_i t' c₁ href
    refine hno _ href ?_
    split at ht
    · cases ht
    split at ht
    · cases ht
      exact hok
    · cases ht

/-- Parsing succeeds exactly on the texts within the size limits whose tree passes the
parser's checks. The document denotes the value of the tree and is laid out as the tree, and its
numbers are lexemes of the input. -/
theorem parse_follows (opts : JsonParseOptions) (seed : Nat → UInt64) (input : Bytes) :
    Follows (parse opts seed input) (readInput opts.mode input)
      (fun t => sizeFits opts input.length ∧ t.accepts opts 0)
      (fun t st => st.value = some (t.value opts.duplicateKey) ∧
        (st.rootNode, st.layout) = t.lay opts.duplicateKey (DocumentStorage.layout {}) ∧
        Extends (setStorageInputView {} input) st) := by
  unfold parse readInput
  cases hsize : checkInputLimits input.length opts with
  | error e =>
    rintro t - ⟨hfits, -⟩
    rw [checkInputLimits_ok_iff.mpr hfits] at hsize
    cases hsize
  | ok u =>
    have hfits := checkInputLimits_ok_iff.mp hsize
    have h := parseInplace_follows opts seed (setStorageInputView {} input)
    rw [setStorageInputView_inputView, setStorageInputView_layout] at h
    simpa [hfits] using h

/-- Parsing succeeds exactly when the input is read as a tree that is accepted. -/
theorem parse_ok_iff (opts : JsonParseOptions) (seed : Nat → UInt64) (input : Bytes) :
    (∃ st, parse opts seed input = .ok st) ↔
      sizeFits opts input.length ∧ ∃ t, readInput opts.mode input = some t ∧ t.accepts opts 0 := by
  obtain ⟨st, t, hp, hread, ⟨hsize, hok⟩, -⟩ | ⟨e, hp, hno⟩ := (parse_follows opts seed input).cases
  · simp [hp, hread, hsize, hok]
  rw [hp]
  constructor
  · rintro ⟨st, hst⟩
    cases hst
  · rintro ⟨hsize, t, hread, hok⟩
    exact absurd ⟨hsize, hok⟩ (hno t hread)

/-- A parsed document denotes the value of the tree that its input is read as. -/
theorem parse_value {seed : Nat → UInt64} {input : Bytes} {st : DocumentStorage}
    (h : parse opts seed input = .ok st) :
    ∃ t, readInput opts.mode input = some t ∧ t.accepts opts 0 ∧
      st.value = some (t.value opts.duplicateKey) := by
  have hf := parse_follows opts seed input
  rw [h] at hf
  obtain ⟨t, hread, ⟨-, hok⟩, hval, -⟩ := hf
  exact ⟨t, hread, hok, hval⟩

/-- The number nodes of a parsed document are scanned lexemes of its input. -/
theorem parse_scanned {seed : Nat → UInt64} {input : Bytes} {st : DocumentStorage}
    (h : parse opts seed input = .ok st) : ∀ nd ∈ st.nodes, nd.Scanned st.inputView := by
  have hf := parse_follows opts seed input
  rw [h] at hf
  obtain ⟨t, -, -, -, -, hext⟩ := hf
  have hempty : (setStorageInputView {} input).nodes = [] := by
    unfold setStorageInputView
    split <;> rfl
  intro nd hnd
  have hscanned := (hext.scanned nd hnd).resolve_left (by simp [hempty])
  rwa [← hext.input] at hscanned

end Conflux.Json

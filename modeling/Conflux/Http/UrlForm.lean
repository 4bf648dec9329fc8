import Conflux.Http.Routing.Pattern

/-!
# URL coding

Percent coding, the coding of forms and the reader of form fields. What is coded decodes to
itself, and no separator occurs in a coded component, so that fields are read back in order.
-/

namespace Conflux.Http

namespace Ascii

/-- sign `&` -/
abbrev ampersand : UInt8 := 0x26
/-- sign `=` -/
abbrev equals : UInt8 := 0x3D

end Ascii

namespace Routing

open Conflux.Core List Ascii

/-- The bytes that are never escaped. -/
def isUrlUnreserved (c : UInt8) : Bool :=
  (0x41 ≤ c && c ≤ 0x5A) || (0x61 ≤ c && c ≤ 0x7A) || (0x30 ≤ c && c ≤ 0x39) || c == 0x2D ||
    c == 0x5F || c == 0x2E || c == 0x7E

/-- An upper-case hexadecimal digit. -/
def kUrlHex (digit : Nat) : UInt8 :=
  UInt8.ofNat (if digit < 10 then 0x30 + digit else 0x37 + digit)

/-- What one byte is coded as. -/
def urlEncodedByte (spaceAsPlus : Bool) (c : UInt8) : Bytes :=
  if isUrlUnreserved c then [c]
  else if spaceAsPlus ∧ c = sp then [plus]
  else [percent, kUrlHex (c.toNat / 16), kUrlHex (c.toNat % 16)]

/-- Escape all but the unreserved bytes. -/
def urlPercentEncode (s : Bytes) : Bytes := s.flatMap (urlEncodedByte false)

/-- The same with a plus for a blank. -/
def urlFormEncode (s : Bytes) : Bytes := s.flatMap (urlEncodedByte true)

/-- Decode, with a plus for a blank. -/
def urlDecode (s : Bytes) : Bytes := urlDecodeImpl true s

/-- Whether decoding may change the text. -/
def urlNeedsComponentDecode (s : Bytes) : Bool := s.contains percent || s.contains plus

/-- The field of one component, if there is one. -/
def urlencodedField (component : Bytes) : Option (Bytes × Bytes) :=
  match find [equals] component with
  | some eq =>
    let key := component.take eq
    let value := component.drop (eq + 1)
    if !urlNeedsComponentDecode key && !urlNeedsComponentDecode value then some (key, value)
    else some (urlDecode key, urlDecode value)
  | none =>
    if component = [] then none
    else if !urlNeedsComponentDecode component then some (component, [])
    else some (urlDecode component, [])

/-- The pairs of a form. -/
def parseUrlencoded (data : Bytes) : List (Bytes × Bytes) :=
  (data.splitOn ampersand).filterMap urlencodedField

/-- A coded field. -/
def codedField (field : Bytes × Bytes) : Bytes :=
  urlFormEncode field.1 ++ equals :: urlFormEncode field.2

/-- Coded fields, joined by `&`. -/
def codedFields (fields : List (Bytes × Bytes)) : Bytes :=
  [ampersand].intercalate (fields.map codedField)

/-! ## One byte -/

variable {c d : UInt8} {s : Bytes} {spaceAsPlus plusIsSpace : Bool}

theorem hexCharToInt_kUrlHex {n : Nat} (h : n < 16) : hexCharToInt (kUrlHex n) = some n := by
  revert n
  decide

theorem urlDecodeImpl_cons (hplus : c ≠ plus) (hpercent : c ≠ percent) (rest : Bytes) :
    urlDecodeImpl plusIsSpace (c :: rest) = c :: urlDecodeImpl plusIsSpace rest := by
  rcases rest with - | ⟨h, - | ⟨l, rest⟩⟩ <;> simp [urlDecodeImpl, hplus, hpercent]

theorem urlDecodeImpl_byte (hplus : spaceAsPlus = true → plusIsSpace = true) (c : UInt8)
    (rest : Bytes) :
    urlDecodeImpl plusIsSpace (urlEncodedByte spaceAsPlus c ++ rest) =
      c :: urlDecodeImpl plusIsSpace rest := by
  unfold urlEncodedByte
  split
  · rename_i hplain
    apply urlDecodeImpl_cons
    all_goals
      rintro rfl
      cases hplain
  split
  · rename_i hspace
    rw [hspace.2, hplus hspace.1]
    rcases rest with - | ⟨h, - | ⟨l, rest⟩⟩ <;> simp [urlDecodeImpl]
  · have hhigh := hexCharToInt_kUrlHex (Nat.div_lt_of_lt_mul c.toNat_lt : c.toNat / 16 < 16)
    have hlow := hexCharToInt_kUrlHex (Nat.mod_lt c.toNat (by decide : 16 > 0))
    have hplain : percent ≠ plus := by decide
    simp only [cons_append, nil_append, urlDecodeImpl, hplain, and_false, hhigh, hlow, ↓reduceIte,
      Nat.div_add_mod', UInt8.ofNat_toNat]

/-! ## Components and fields -/

theorem urlDecodeImpl_encoded (hplus : spaceAsPlus = true → plusIsSpace = true) (s : Bytes) :
    urlDecodeImpl plusIsSpace (s.flatMap (urlEncodedByte spaceAsPlus)) = s := by
  induction s with
  | nil => rfl
  | cons c s ih => rw [flatMap_cons, urlDecodeImpl_byte hplus, ih]

theorem urlDecode_urlFormEncode (s : Bytes) : urlDecode (urlFormEncode s) = s :=
  urlDecodeImpl_encoded id s

/-- No separator occurs in a coded component. -/
theorem separator_not_mem (hd : d ∈ [ampersand, equals]) (s : Bytes) : d ∉ urlFormEncode s := by
  intro hmem
  obtain ⟨c, -, hc⟩ := mem_flatMap.mp hmem
  have hall : ∀ n < 256, ∀ d ∈ [ampersand, equals], d ∉ urlEncodedByte true (UInt8.ofNat n) := by
    decide +kernel
  exact hall c.toNat c.toNat_lt d hd (by rwa [UInt8.ofNat_toNat])

/-- A text decodes to itself if nothing in it stands for another byte. -/
theorem urlDecodeImpl_eq_self (hpercent : percent ∉ s) (hplus : plusIsSpace = true → plus ∉ s) :
    urlDecodeImpl plusIsSpace s = s := by
  fun_induction urlDecodeImpl plusIsSpace s <;> simp_all
  grind

/-- What needs no decoding decodes to itself. -/
theorem urlDecode_eq_self (h : urlNeedsComponentDecode s = false) : urlDecode s = s := by
  rw [urlNeedsComponentDecode, Bool.or_eq_false_iff] at h
  exact urlDecodeImpl_eq_self (by simpa using h.1) fun _ => by simpa using h.2

/-- A field that was coded is read back. -/
theorem urlencodedField_codedField (field : Bytes × Bytes) :
    urlencodedField (codedField field) = some field := by
  have hfind := find_singleton (r := urlFormEncode field.2)
    (separator_not_mem (d := equals) (by decide) field.1)
  have hdrop : (codedField field).drop ((urlFormEncode field.1).length + 1) =
      urlFormEncode field.2 := by
    rw [codedField, ← drop_drop, drop_left, drop_one, tail_cons]
  have htake : (codedField field).take (urlFormEncode field.1).length = urlFormEncode field.1 :=
    take_left
  unfold urlencodedField
  rw [show find [equals] (codedField field) = _ from hfind]
  dsimp only
  rw [htake, hdrop]
  split
  · rename_i hplain
    simp only [Bool.and_eq_true, Bool.not_eq_true'] at hplain
    rw [← urlDecode_eq_self hplain.1, ← urlDecode_eq_self hplain.2, urlDecode_urlFormEncode,
      urlDecode_urlFormEncode]
  · rw [urlDecode_urlFormEncode, urlDecode_urlFormEncode]

theorem parseUrlencoded_codedFields (fields : List (Bytes × Bytes)) :
    parseUrlencoded (codedFields fields) = fields := by
  have hfree : ∀ l ∈ fields.map codedField, ampersand ∉ l := by
    intro l hl
    obtain ⟨f, -, rfl⟩ := mem_map.mp hl
    have hfree := separator_not_mem (d := ampersand) (by decide)
    exact not_mem_append (hfree _) (not_mem_cons_of_ne_of_not_mem (by decide) (hfree _))
  have hread : urlencodedField ∘ codedField = some := funext urlencodedField_codedField
  cases fields with
  | nil => rfl
  | cons f fields =>
    rw [parseUrlencoded, codedFields, splitOn_intercalate ampersand hfree (cons_ne_nil _ _),
      filterMap_map, hread, filterMap_some]

/-- Every text is read back from its code, and every list of fields from a form. -/
theorem url_round_trips :
    (∀ s, urlDecodePath (urlPercentEncode s) = s ∧ urlDecode (urlPercentEncode s) = s ∧
        urlDecode (urlFormEncode s) = s) ∧
      ∀ fields, parseUrlencoded (codedFields fields) = fields := by
  refine ⟨fun s => ⟨?_, ?_, urlDecode_urlFormEncode s⟩, parseUrlencoded_codedFields⟩
  · exact urlDecodeImpl_encoded id s
  · exact urlDecodeImpl_encoded (fun _ => rfl) s

/-! ## Paths -/

/-- The part of a path for a segment of a pattern: a coded value, or the text of a literal. -/
def filledPart (f : Segment × Bytes) : Bytes :=
  if f.1.isParam then urlPercentEncode f.2 else f.1.value

/-- What a segment binds. -/
def boundPart (f : Segment × Bytes) : Params := if f.1.isParam then [(f.1.value, f.2)] else []

theorem slash_notMem_filledPart {f : Segment × Bytes} (h : slash ∉ f.1.value) :
    slash ∉ filledPart f := by
  unfold filledPart
  split
  · intro hmem
    obtain ⟨c, -, hc⟩ := mem_flatMap.mp hmem
    have hall : ∀ n < 256, slash ∉ urlEncodedByte false (UInt8.ofNat n) := by decide +kernel
    exact hall c.toNat c.toNat_lt (by rwa [UInt8.ofNat_toNat])
  · exact h

/-- The short cut for values without a percent sign changes nothing. -/
theorem addPathParam_eq (params : Params) (name raw : Bytes) :
    addPathParam params name raw = params ++ [(name, urlDecodePath raw)] := by
  unfold addPathParam
  split
  · rename_i hpercent
    rw [urlDecodePath, urlDecodeImpl_eq_self hpercent Bool.noConfusion]
  · rfl

theorem matchPart_filledPart (f : Segment × Bytes) (params : Params) :
    matchPart f.1 (filledPart f) params = some (params ++ boundPart f) := by
  have hself : urlDecodePath (urlPercentEncode f.2) = f.2 := urlDecodeImpl_encoded id f.2
  unfold matchPart filledPart boundPart
  split <;> simp [addPathParam_eq, hself]

theorem matchPlain_filled {f : Segment × Bytes} {fields : List (Segment × Bytes)}
    (h : ∀ g ∈ f :: fields, slash ∉ g.1.value) (params : Params) :
    matchPlain ((f :: fields).map Prod.fst)
        (filledPart f ++ fields.flatMap (slash :: filledPart ·)) params =
      some (params ++ (f :: fields).flatMap boundPart) := by
  have hf := slash_notMem_filledPart (h f mem_cons_self)
  induction fields generalizing f params with
  | nil => simp [matchPlain, splitPart_of_notMem hf, matchPart_filledPart]
  | cons g fields ih =>
    have hrest := (forall_mem_cons.mp h).2
    have hnext := ih hrest (params ++ boundPart f) (slash_notMem_filledPart (hrest g mem_cons_self))
    rw [map_cons, flatMap_cons, cons_append, matchPlain, splitPart_append hf,
      matchPart_filledPart]
    simpa using hnext

/-- Values that were coded into a path are bound to the parameters of its pattern. -/
theorem matchSegments_filled (fields : List (Segment × Bytes))
    (h : ∀ f ∈ fields, slash ∉ f.1.value ∧ f.1.isWildcard = false) :
    matchSegments (rootSegment :: fields.map Prod.fst)
      (fields.flatMap (slash :: filledPart ·)) = some (fields.flatMap boundPart) := by
  have hplain := matchPlain_filled (f := (rootSegment, []))
    (forall_mem_cons.mpr ⟨not_mem_nil, fun f hf => (h f hf).1⟩) []
  unfold matchSegments
  split
  · exact hplain
  · rename_i last hlast
    have hwild : last.isWildcard = false := by
      obtain rfl | hmem := mem_cons.mp (mem_of_getLast? hlast)
      · rfl
      · obtain ⟨f, hf, rfl⟩ := mem_map.mp hmem
        exact (h f hf).2
    rw [if_neg (by simp [hwild])]
    exact hplain

/-- The path `/u/a%2F` and the pattern `/u/{i}`. -/
theorem matchSegments_filled_user :
    matchSegments [rootSegment, ⟨[0x75], false, false⟩, ⟨[0x69], true, false⟩]
      [0x2F, 0x75, 0x2F, 0x61, 0x25, 0x32, 0x46] = some [([0x69], [0x61, 0x2F])] :=
  matchSegments_filled [(⟨[0x75], false, false⟩, []), (⟨[0x69], true, false⟩, [0x61, 0x2F])]
    (by decide)

end Routing

end Conflux.Http

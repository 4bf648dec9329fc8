import Conflux.Http.Basic

/-!
# Route patterns

The parser of route patterns and the match of a request path against the segments of a
pattern. A path is read part by part between slashes; the text still to be read stands for the
position of the source. A match gives the bound parameters, a failure gives `none`.
-/

namespace Conflux.Http.Routing

open Conflux.Core List Ascii

/-- The name and the value of each bound parameter, in the order of the pattern. -/
abbrev Params := List (Bytes × Bytes)

/-- One segment of a pattern. -/
structure Segment where
  value : Bytes
  isParam : Bool
  isWildcard : Bool
  deriving DecidableEq, Repr

/-- A segment that is compared with the path. -/
def Segment.IsLiteral (segment : Segment) : Prop :=
  segment.isParam = false ∧ segment.isWildcard = false

/-- The empty segment before the first slash. -/
def rootSegment : Segment := ⟨[], false, false⟩

/-- Why a pattern is refused. -/
inductive PatternError where
  | mustStartWithSlash
  | unmatchedBraces
  | notFullSegment
  | wildcardNotFinal
  | nameEmpty
  | typeEmpty
  | unknownType (type : Bytes)
  deriving DecidableEq, Repr

/-- The text of an error, as the bytes of the message. -/
def PatternError.message : PatternError → Bytes
  | mustStartWithSlash => "invalid route pattern: path must start with /".toUTF8.toList
  | unmatchedBraces => "invalid route pattern: unmatched path parameter braces".toUTF8.toList
  | notFullSegment =>
    "invalid route pattern: path parameter must occupy the full segment".toUTF8.toList
  | wildcardNotFinal =>
    "invalid route pattern: wildcard parameter must be the final segment".toUTF8.toList
  | nameEmpty => "invalid route pattern: path parameter name is empty".toUTF8.toList
  | typeEmpty => "invalid route pattern: path parameter type is empty".toUTF8.toList
  | unknownType type =>
    "invalid route pattern: unknown path parameter type '".toUTF8.toList ++ type ++
      "'".toUTF8.toList

/-- `string`, `u64`, `i64`, `u32`, `i32` or no tag. -/
def isKnownRouteTypeTag (tag : Bytes) : Bool :=
  tag = [] ∨ tag = [0x73, 0x74, 0x72, 0x69, 0x6E, 0x67] ∨ tag = [0x75, 0x36, 0x34] ∨
    tag = [0x69, 0x36, 0x34] ∨ tag = [0x75, 0x33, 0x32] ∨ tag = [0x69, 0x33, 0x32]

/-- The segment between two braces, without them. -/
def parseParameter (inner : Bytes) (final : Bool) : Except PatternError Segment :=
  let wildcard : Bool := inner.head? = some star
  let name := if wildcard then inner.drop 1 else inner
  if wildcard ∧ ¬ final then .error .wildcardNotFinal
  else if name = [] then .error .nameEmpty
  else
    match find [colon] name with
    | none => .ok ⟨name, !wildcard, wildcard⟩
    | some colon =>
      let type := name.drop (colon + 1)
      if type = [] then .error .typeEmpty
      else if ¬ isKnownRouteTypeTag type then .error (.unknownType type)
      else .ok ⟨name.take colon, !wildcard, wildcard⟩

/-- One segment of the text of a pattern; `final` says that no slash follows it. -/
def parseSegment (segment : Bytes) (final : Bool) : Except PatternError Segment :=
  match find [openBrace] segment, find [closeBrace] segment with
  | none, none => .ok ⟨segment, false, false⟩
  | some openAt, some closeAt =>
    if closeAt < openAt then .error .unmatchedBraces
    else if openAt ≠ 0 ∨ closeAt + 1 ≠ segment.length then .error .notFullSegment
    else parseParameter ((segment.drop 1).take (segment.length - 2)) final
  | _, _ => .error .unmatchedBraces

/-- The segments of the text, the first error first. -/
def parseSegments : List Bytes → Except PatternError (List Segment)
  | [] => .ok []
  | segment :: rest => do
    let first ← parseSegment segment rest.isEmpty
    let others ← parseSegments rest
    return first :: others

/-- Parse a pattern. -/
def parseRoutePattern : Bytes → Except PatternError (List Segment)
  | [] => .error .mustStartWithSlash
  | c :: text =>
    if c ≠ slash then .error .mustStartWithSlash
    else do
      let segments ← parseSegments (text.splitOn slash)
      return rootSegment :: segments

/-! ## The match of a path -/

/-- Decode `%XX` to the byte it stands for, and a plus to a blank if it stands for one; other bytes
stay. -/
def urlDecodeImpl (plusIsSpace : Bool) : Bytes → Bytes
  | [] => []
  | c :: h :: l :: rest =>
    if plusIsSpace ∧ c = plus then sp :: urlDecodeImpl plusIsSpace (h :: l :: rest)
    else if c = percent then
      match hexCharToInt h, hexCharToInt l with
      | some hi, some lo => UInt8.ofNat (hi * 16 + lo) :: urlDecodeImpl plusIsSpace rest
      | _, _ => c :: urlDecodeImpl plusIsSpace (h :: l :: rest)
    else c :: urlDecodeImpl plusIsSpace (h :: l :: rest)
  | c :: rest => (if plusIsSpace ∧ c = plus then sp else c) :: urlDecodeImpl plusIsSpace rest

/-- Decode a part of a path. -/
def urlDecodePath (s : Bytes) : Bytes := urlDecodeImpl false s

/-- Bind a decoded part. -/
def addPathParam (params : Params) (name rawValue : Bytes) : Params :=
  if percent ∉ rawValue then params ++ [(name, rawValue)]
  else params ++ [(name, urlDecodePath rawValue)]

/-- The part up to the next slash, and the text after this slash if there is one. -/
def splitPart (rest : Bytes) : Bytes × Option Bytes :=
  match find [slash] rest with
  | none => (rest, none)
  | some next => (rest.take next, some (rest.drop (next + 1)))

/-- Bind a parameter to a part, or compare the part with a literal segment. -/
def matchPart (segment : Segment) (part : Bytes) (params : Params) : Option Params :=
  if segment.isParam then some (addPathParam params segment.value part)
  else if segment.value ≠ part then none
  else some params

/-- The segments before a wildcard: the text after them and the parameters they bind. -/
def matchLeading : List Segment → Bytes → Params → Option (Bytes × Params)
  | [], rest, params => some (rest, params)
  | segment :: segments, rest, params =>
    if rest = [] then none
    else if (splitPart rest).2 = none ∧ segments ≠ [] then none
    else
      match matchPart segment (splitPart rest).1 params with
      | none => none
      | some params => matchLeading segments ((splitPart rest).2.getD []) params

/-- The segments of a pattern without a wildcard at its end. -/
def matchPlain : List Segment → Bytes → Params → Option Params
  | [], _, _ => none
  | segment :: segments, rest, params =>
    match matchPart segment (splitPart rest).1 params with
    | none => none
    | some params =>
      match (splitPart rest).2 with
      | none => if segments = [] then some params else none
      | some rest => matchPlain segments rest params

/-- Match a path against a pattern. -/
def matchSegments (pattern : List Segment) (path : Bytes) : Option Params :=
  match pattern.getLast? with
  | none => matchPlain pattern path []
  | some last =>
    if last.isWildcard then
      match matchLeading pattern.dropLast path [] with
      | none => none
      | some (rest, params) => some (addPathParam params last.value rest)
    else matchPlain pattern path []

/-! ## Literal patterns -/

variable {part rest path : Bytes} {segments pattern : List Segment} {params params' : Params}
  {final : Bool} {texts : List Bytes}

theorem splitPart_append (h : slash ∉ part) :
    splitPart (part ++ slash :: rest) = (part, some rest) := by
  unfold splitPart
  rw [find_singleton h]
  dsimp only
  rw [take_left, drop_append_succ]

theorem splitPart_of_notMem (h : slash ∉ rest) : splitPart rest = (rest, none) := by
  unfold splitPart
  rw [find_singleton_eq_none_iff.mpr h]

/-- A text is its first part, or its first part, a slash and more. -/
theorem splitPart_cases (rest : Bytes) :
    (slash ∉ rest ∧ splitPart rest = (rest, none)) ∨
      ∃ part more, slash ∉ part ∧ rest = part ++ slash :: more ∧
        splitPart rest = (part, some more) := by
  by_cases hmem : slash ∈ rest
  · cases hfind : find [slash] rest with
    | none => exact absurd hmem (find_singleton_eq_none_iff.mp hfind)
    | some i =>
      obtain ⟨part, more, rfl, -, hpart⟩ := find_singleton_eq_some hfind
      exact .inr ⟨part, more, hpart, rfl, splitPart_append hpart⟩
  · exact .inl ⟨hmem, splitPart_of_notMem hmem⟩

theorem splitOn_of_append (h : slash ∉ part) :
    (part ++ slash :: rest).splitOn slash = part :: rest.splitOn slash := by
  rw [splitOn_append_cons_self_of_not_mem h]

/-- A pattern of literal segments matches the path with just these parts, and binds nothing. -/
theorem matchPlain_literal (h : ∀ s ∈ segments, s.IsLiteral) (rest : Bytes) (params : Params) :
    matchPlain segments rest params =
      if segments.map Segment.value = rest.splitOn slash then some params else none := by
  induction segments generalizing rest with
  | nil =>
    have hne : ¬ List.map Segment.value [] = rest.splitOn slash := fun heq =>
      splitOn_ne_nil _ _ heq.symm
    rw [if_neg hne]
    rfl
  | cons segment segments ih =>
    obtain ⟨hparam, -⟩ := h segment mem_cons_self
    have ih := ih fun s hs => h s (mem_cons_of_mem segment hs)
    have hpart (part : Bytes) : matchPart segment part params =
        if segment.value = part then some params else none := by
      unfold matchPart
      rw [hparam, if_neg Bool.false_ne_true, ite_not]
    unfold matchPlain
    rw [hpart]
    rcases splitPart_cases rest with ⟨hmem, hsplit⟩ | ⟨part, more, hmem, rfl, hsplit⟩
    · rw [hsplit, splitOn_eq_singleton hmem, map_cons]
      by_cases hvalue : segment.value = rest
      · rw [if_pos hvalue, hvalue]
        cases segments with
        | nil | cons s segments => simp
      · rw [if_neg hvalue, if_neg (by simp [hvalue])]
    rw [hsplit, splitOn_of_append hmem, map_cons]
    by_cases hvalue : segment.value = part
    · rw [if_pos hvalue, hvalue]
      simp only [List.cons.injEq, true_and]
      exact ih more
    · rw [if_neg hvalue, if_neg (by simp [hvalue])]

theorem matchSegments_literal (h : ∀ s ∈ pattern, s.IsLiteral) (path : Bytes) :
    matchSegments pattern path =
      if pattern.map Segment.value = path.splitOn slash then some [] else none := by
  unfold matchSegments
  cases hlast : pattern.getLast? with
  | none => exact matchPlain_literal h path []
  | some last =>
    have hliteral := (h last (mem_of_getLast? hlast)).2
    dsimp only
    rw [hliteral, if_neg Bool.false_ne_true]
    exact matchPlain_literal h path []

/-! ## The first segment of a match -/

variable {segment : Segment}

theorem matchPart_literal (h : segment.IsLiteral)
    (hm : matchPart segment part params = some params') : segment.value = part := by
  unfold matchPart at hm
  rw [h.1, if_neg Bool.false_ne_true] at hm
  by_contra hne
  rw [if_pos hne] at hm
  cases hm

/-- The path starts with a slash and the part that a literal segment asks for. -/
def StartsWith (segment : Segment) (path : Bytes) : Prop :=
  ∃ rest, path = slash :: rest ∧ (splitPart rest).1 = segment.value

/-- A root segment stands for the empty part before the first slash. -/
theorem exists_of_matchPart_root
    (hm : matchPart rootSegment (splitPart path).1 params = some params')
    (hmore : (splitPart path).2 ≠ none) :
    ∃ rest, path = slash :: rest ∧ (splitPart path).2 = some rest := by
  have hempty : [] = (splitPart path).1 := matchPart_literal ⟨rfl, rfl⟩ hm
  rcases splitPart_cases path with ⟨-, hsplit⟩ | ⟨part, rest, -, rfl, hsplit⟩
  · rw [hsplit] at hmore
    exact absurd rfl hmore
  rw [hsplit] at hempty ⊢
  have hpart : part = [] := hempty.symm
  subst hpart
  exact ⟨rest, rfl, rfl⟩

section

variable (hliteral : segment.IsLiteral)
include hliteral

theorem startsWith_of_matchPlain
    (hm : matchPlain (rootSegment :: segment :: segments) path params = some params') :
    StartsWith segment path := by
  unfold matchPlain at hm
  split at hm
  · cases hm
  rename_i params₁ hroot
  cases hnext : (splitPart path).2 with
  | none =>
    rw [hnext] at hm
    cases hm
  | some rest =>
    obtain ⟨rest', hpath, hrest⟩ := exists_of_matchPart_root hroot (by rw [hnext]; nofun)
    rw [hnext] at hm hrest
    cases hrest
    dsimp only at hm
    unfold matchPlain at hm
    cases hseg : matchPart segment (splitPart rest).1 params₁ with
    | none =>
      rw [hseg] at hm
      cases hm
    | some params₂ => exact ⟨rest, hpath, (matchPart_literal hliteral hseg).symm⟩

theorem startsWith_of_matchLeading {result : Bytes × Params}
    (hm : matchLeading (rootSegment :: segment :: segments) path params = some result) :
    StartsWith segment path := by
  unfold matchLeading at hm
  by_cases hpath : path = []
  · rw [if_pos hpath] at hm
    cases hm
  rw [if_neg hpath] at hm
  by_cases hnext : (splitPart path).2 = none
  · rw [if_pos ⟨hnext, cons_ne_nil _ _⟩] at hm
    cases hm
  rw [if_neg fun hand => hnext hand.1] at hm
  cases hroot : matchPart rootSegment (splitPart path).1 params with
  | none =>
    rw [hroot] at hm
    cases hm
  | some params₁ =>
    obtain ⟨rest, hslash, hrest⟩ := exists_of_matchPart_root hroot hnext
    rw [hroot, hrest] at hm
    dsimp only [Option.getD_some] at hm
    unfold matchLeading at hm
    by_cases hempty : rest = []
    · rw [if_pos hempty] at hm
      cases hm
    rw [if_neg hempty] at hm
    split at hm
    · cases hm
    cases hseg : matchPart segment (splitPart rest).1 params₁ with
    | none =>
      rw [hseg] at hm
      cases hm
    | some params₂ => exact ⟨rest, hslash, (matchPart_literal hliteral hseg).symm⟩

/-- A path that matches a pattern starts with a slash and the literal after it. -/
theorem startsWith_of_matchSegments
    (hm : matchSegments (rootSegment :: segment :: segments) path = some params) :
    StartsWith segment path := by
  unfold matchSegments at hm
  cases hlast : (rootSegment :: segment :: segments).getLast? with
  | none =>
    rw [hlast] at hm
    exact startsWith_of_matchPlain hliteral hm
  | some last =>
    rw [hlast] at hm
    dsimp only at hm
    by_cases hwild : last.isWildcard = true
    · rw [if_pos hwild] at hm
      cases segments with
      | nil =>
        -- The wildcard would be the literal itself.
        have hsame : segment = last := Option.some.inj hlast
        rw [← hsame, hliteral.2] at hwild
        cases hwild
      | cons s segments =>
        rw [dropLast_cons_cons, dropLast_cons_cons] at hm
        cases hlead : matchLeading (rootSegment :: segment :: (s :: segments).dropLast) path []
          with
        | none =>
          rw [hlead] at hm
          cases hm
        | some result => exact startsWith_of_matchLeading hliteral hlead
    · rw [if_neg hwild] at hm
      exact startsWith_of_matchPlain hliteral hm

end

/-! ## What a parsed pattern looks like -/

/-- What stands between braces is never a literal segment. -/
theorem parseParameter_not_literal {inner : Bytes} (h : parseParameter inner final = .ok segment) :
    ¬ segment.IsLiteral := by
  have hflags (name : Bytes) (wildcard : Bool) :
      ¬ Segment.IsLiteral ⟨name, !wildcard, wildcard⟩ := by
    rintro ⟨hparam, hwild⟩
    have hwild' : wildcard = false := hwild
    rw [hwild'] at hparam
    cases hparam
  unfold parseParameter at h
  dsimp only at h
  generalize decide (inner.head? = some star) = wildcard at h
  generalize (if wildcard = true then inner.drop 1 else inner) = name at h
  split at h
  · cases h
  split at h
  · cases h
  split at h
  · cases h
    exact hflags _ _
  split at h
  · cases h
  split at h
  · cases h
  · cases h
    exact hflags _ _

theorem parseSegment_literal {text : Bytes} (h : parseSegment text final = .ok segment)
    (hliteral : segment.IsLiteral) : segment.value = text := by
  unfold parseSegment at h
  split at h
  · cases h
    rfl
  · split at h
    · cases h
    split at h
    · cases h
    · exact absurd hliteral (parseParameter_not_literal h)
  · cases h

theorem parseSegments_cons {text : Bytes} (h : parseSegments (text :: texts) = .ok segments) :
    ∃ first others, parseSegment text texts.isEmpty = .ok first ∧
      parseSegments texts = .ok others ∧ segments = first :: others := by
  rw [parseSegments] at h
  cases hfirst : parseSegment text texts.isEmpty with
  | error e =>
    rw [hfirst] at h
    cases h
  | ok first =>
    cases hothers : parseSegments texts with
    | error e =>
      rw [hfirst, hothers] at h
      cases h
    | ok others =>
      rw [hfirst, hothers] at h
      cases h
      exact ⟨first, others, rfl, rfl, rfl⟩

/-- There is one segment for each text, and literal segments are the texts. -/
theorem parseSegments_ok (h : parseSegments texts = .ok segments) :
    segments.length = texts.length ∧
      ((∀ s ∈ segments, s.IsLiteral) → segments.map Segment.value = texts) := by
  induction texts generalizing segments with
  | nil =>
    cases h
    exact ⟨rfl, fun _ => rfl⟩
  | cons text texts ih =>
    obtain ⟨first, others, hfirst, hothers, rfl⟩ := parseSegments_cons h
    obtain ⟨hlength, hvalues⟩ := ih hothers
    refine ⟨by rw [length_cons, length_cons, hlength], ?_⟩
    intro hliteral
    have hhead := parseSegment_literal hfirst (hliteral first mem_cons_self)
    have htail := hvalues fun s hs => hliteral s (mem_cons_of_mem first hs)
    rw [map_cons, hhead, htail]

/-- A pattern starts with the root segment and another one; one of literals has the parts of its
text. -/
theorem parseRoutePattern_ok (h : parseRoutePattern path = .ok pattern) :
    (∃ segment segments, pattern = rootSegment :: segment :: segments) ∧
      ((∀ s ∈ pattern, s.IsLiteral) → pattern.map Segment.value = path.splitOn slash) := by
  cases path with
  | nil => cases h
  | cons c text =>
    rw [parseRoutePattern] at h
    by_cases hc : c = slash
    · subst hc
      rw [if_neg (not_not_intro rfl)] at h
      cases hparse : parseSegments (text.splitOn slash) with
      | error e =>
        rw [hparse] at h
        cases h
      | ok segments =>
        rw [hparse] at h
        cases h
        obtain ⟨hlength, hvalues⟩ := parseSegments_ok hparse
        have hne : segments ≠ [] := by
          rintro rfl
          exact splitOn_ne_nil _ _ (length_eq_zero_iff.mp hlength.symm)
        obtain ⟨segment, others, rfl⟩ := exists_cons_of_ne_nil hne
        refine ⟨⟨segment, others, rfl⟩, ?_⟩
        intro hliteral
        have htail := hvalues fun s hs => hliteral s (mem_cons_of_mem rootSegment hs)
        have hsplit := @splitOn_of_append [] text not_mem_nil
        rw [nil_append] at hsplit
        rw [map_cons, htail, hsplit]
        rfl
    · rw [if_pos hc] at h
      cases h

end Conflux.Http.Routing

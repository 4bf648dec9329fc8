import Conflux.Http.Head.Lines

/-!
# The request-head grammar

`RequestHead` is a request head of the grammar: the request line and the header lines with
their parts, each part in its character class.
-/

namespace Conflux.Http.Head

open Conflux.Core List Ascii

/-- A header line: a token, a colon and a value between optional blanks. -/
structure FieldLine where
  name : Bytes
  before : Bytes
  value : Bytes
  after : Bytes
  name_ne : name ≠ []
  name_token : ∀ c ∈ name, isTchar c
  before_ows : ∀ c ∈ before, isOws c
  after_ows : ∀ c ∈ after, isOws c
  value_valid : isValidHttp1FieldValue value
  value_trimmed : (∀ c ∈ value.head?, ¬ isOws c) ∧ ∀ c ∈ value.getLast?, ¬ isOws c

/-- The bytes of a header line, without its terminator. -/
def FieldLine.text (f : FieldLine) : Bytes :=
  f.name ++ colon :: (f.before ++ f.value ++ f.after)

/-- What is kept of a header line. -/
def FieldLine.pair (f : FieldLine) : Bytes × Bytes :=
  (f.name, f.value)

/-- A request head of the grammar. -/
structure RequestHead where
  method : Bytes
  target : Bytes
  version : Bytes
  fields : List FieldLine
  method_ne : method ≠ []
  method_token : ∀ c ∈ method, isTchar c
  target_ne : target ≠ []
  target_valid : ∀ c ∈ target, isRequestTargetChar c
  version_known : version = http10 ∨ version = http11

namespace RequestHead

/-- The bytes of the request line, without its terminator. -/
def requestLine (h : RequestHead) : Bytes :=
  h.method ++ sp :: (h.target ++ sp :: h.version)

/-- The bytes of the header lines, each without its terminator. -/
def lines (h : RequestHead) : List Bytes :=
  h.fields.map FieldLine.text

/-- The bytes of the head, up to and including the empty line. -/
def text (h : RequestHead) : Bytes :=
  headText h.requestLine h.lines

/-- The head is within the limits. The block runs from the first header line up to the
terminator of the last. -/
structure Fits (h : RequestHead) (limits : ParserLimits) : Prop where
  requestLine : h.requestLine.length ≤ limits.maxRequestLineSize
  block : (ended crlf h.lines).length - 2 ≤ limits.maxHeaderBlockSize
  line : ∀ x ∈ h.lines, x.length ≤ limits.maxHeaderLineSize
  count : h.lines.length ≤ limits.maxHeaders

/-- The request a head is read as. -/
def result (h : RequestHead) : ParsedRequest where
  method := h.method
  target := h.target
  version := h.version
  headers := h.fields.map FieldLine.pair
  headerEndOffset := h.requestLine.length + (ended crlf h.lines).length

end RequestHead

/-! ## Character classes -/

/-- Bytes that end a line or a string for some reader of the fields. -/
def forbiddenBytes : Bytes :=
  [cr, lf, nul]

variable {p : UInt8 → Bool} {out out' req : ParsedRequest} {reqLine raw : Bytes}
  {limits : ParserLimits} {c : UInt8} {lines : List Bytes}

theorem not_of_forbidden (h : forbiddenBytes.all fun c => !p c) (hc : c ∈ forbiddenBytes) :
    ¬ p c := by
  have hnot := all_eq_true.mp h c hc
  rwa [Bool.not_eq_true', ← Bool.not_eq_true] at hnot

section

variable (h : c ∈ forbiddenBytes)
include h

theorem not_isTchar_of_forbidden : ¬ isTchar c :=
  not_of_forbidden (by decide +kernel) h

theorem not_isOws_of_forbidden : ¬ isOws c :=
  not_of_forbidden (by decide +kernel) h

theorem not_isRequestTargetChar_of_forbidden : ¬ isRequestTargetChar c :=
  not_of_forbidden (by decide +kernel) h

end

theorem not_mem_of_isValidHttp1FieldValue {value : Bytes} (h : isValidHttp1FieldValue value)
    (hc : c ∈ forbiddenBytes) : c ∉ value := by
  intro hm
  have hvalid := all_eq_true.mp h c hm
  have hnot := not_of_forbidden
    (p := fun u => !((u < 0x20 && u != tab) || u == del)) (by decide +kernel) hc
  exact hnot hvalid

/-- A token has no blank in it. -/
theorem isOws_of_isTchar (h : isTchar c) : isOws c = false := by
  by_contra hc
  have hblank : c = sp ∨ c = tab := by
    simpa [isOws, Classical.or_iff_not_imp_left] using hc
  rcases hblank with rfl | rfl
  all_goals exact absurd h (by decide)

theorem cr_mem_forbidden : cr ∈ forbiddenBytes := by decide

theorem nul_mem_forbidden : nul ∈ forbiddenBytes := by decide

theorem not_mem_of_class (hc : ¬ p c) {l : Bytes} (h : ∀ x ∈ l, p x) : c ∉ l :=
  fun hm => hc (h c hm)

/-! ## Header lines -/

/-- Blanks around a trimmed value are taken off, and nothing else. -/
theorem trimHttp1Ows_blanks {before value after : Bytes} (hb : ∀ c ∈ before, isOws c)
    (ha : ∀ c ∈ after, isOws c)
    (ht : (∀ c ∈ value.head?, ¬ isOws c) ∧ ∀ c ∈ value.getLast?, ¬ isOws c) :
    trimHttp1Ows (before ++ value ++ after) = value := by
  have hback : (value ++ after).rdropWhile isOws = value := by
    have hrev : after.reverse.dropWhile isOws = [] := by
      rw [dropWhile_eq_nil_iff]
      intro c hc
      exact ha c (mem_reverse.mp hc)
    have hself : value.rdropWhile isOws = value := by
      rw [rdropWhile_eq_self_iff]
      intro hne
      exact ht.2 _ (getLast_mem_getLast? hne)
    unfold rdropWhile at hself ⊢
    rw [reverse_append, dropWhile_append, hrev]
    exact hself
  have hfront : (before ++ (value ++ after)).dropWhile isOws =
      (value ++ after).dropWhile isOws := by
    have hnil : before.dropWhile isOws = [] := dropWhile_eq_nil_iff.mpr hb
    rw [dropWhile_append, hnil]
    rfl
  unfold trimHttp1Ows
  rw [append_assoc, hfront]
  cases value with
  | nil =>
    have hnil : after.dropWhile isOws = [] := dropWhile_eq_nil_iff.mpr ha
    rw [nil_append, hnil]
    rfl
  | cons c value =>
    have hc : ¬ isOws c := ht.1 c rfl
    rw [cons_append, dropWhile_cons_of_neg hc]
    exact hback

/-- A value is its blanks and what is left when they are taken off. -/
theorem exists_blanks (l : Bytes) :
    ∃ before after, l = before ++ trimHttp1Ows l ++ after ∧ (∀ c ∈ before, isOws c) ∧
      (∀ c ∈ after, isOws c) ∧ (∀ c ∈ (trimHttp1Ows l).head?, ¬ isOws c) ∧
      ∀ c ∈ (trimHttp1Ows l).getLast?, ¬ isOws c := by
  refine ⟨l.takeWhile isOws, (l.dropWhile isOws).rtakeWhile isOws, ?_, ?_, ?_, ?_, ?_⟩
  · unfold trimHttp1Ows
    rw [append_assoc, rdropWhile_append_rtakeWhile, takeWhile_append_dropWhile]
  · intro c hc
    exact mem_takeWhile_imp hc
  · intro c hc
    exact mem_rtakeWhile_imp hc
  · intro c hc
    have hpre := rdropWhile_prefix isOws (l.dropWhile isOws)
    have hhead : c ∈ (l.dropWhile isOws).head? := by
      obtain ⟨m, hm⟩ := hpre
      rw [← hm]
      exact mem_head?_append_of_mem_head? hc
    have hnot := head?_dropWhile_not isOws l
    rw [Option.mem_def.mp hhead] at hnot
    simpa using hnot
  · intro c hc
    obtain ⟨hne, rfl⟩ := mem_getLast?_eq_getLast hc
    exact rdropWhile_last_not isOws _ hne

variable (f : FieldLine)

open FieldLine

theorem FieldLine.not_mem_text (hc : c ∈ forbiddenBytes) (hcolon : c ≠ colon) : c ∉ f.text := by
  have hname := not_mem_of_class (not_isTchar_of_forbidden hc) f.name_token
  have hbefore := not_mem_of_class (not_isOws_of_forbidden hc) f.before_ows
  have hafter := not_mem_of_class (not_isOws_of_forbidden hc) f.after_ows
  have hvalue := not_mem_of_isValidHttp1FieldValue f.value_valid hc
  simp [text, hname, hbefore, hafter, hvalue, hcolon]

theorem FieldLine.isLine : IsLine f.text :=
  ⟨by simp [text], find_cons_eq_none (f.not_mem_text cr_mem_forbidden (by decide))⟩

/-- A header line of the grammar is taken, and its name and value are kept. -/
theorem appendHttp1Header_text (out : ParsedRequest) :
    appendHttp1Header f.text out = (.ok, { out with headers := out.headers ++ [f.pair] }) := by
  obtain ⟨c, name, hname⟩ := exists_cons_of_ne_nil f.name_ne
  have hhead : (f.text.isEmpty || f.text.head?.any isOws) = false := by
    have hc : isTchar c := f.name_token c (by simp [hname])
    simp [text, hname, isOws_of_isTchar hc]
  have hnul : find [nul] f.text = none :=
    find_singleton_eq_none_iff.mpr (f.not_mem_text nul_mem_forbidden (by decide))
  have hcr : find [cr] f.text = none :=
    find_singleton_eq_none_iff.mpr (f.not_mem_text cr_mem_forbidden (by decide))
  have hcolon : find [colon] f.text = some f.name.length :=
    find_singleton (not_mem_of_class (by decide) f.name_token)
  have hlen : f.name.length = name.length + 1 := by simp [hname]
  have htake : f.text.take (name.length + 1) = f.name := by
    rw [← hlen]
    simp [text]
  have hdrop : f.text.drop (name.length + 1 + 1) = f.before ++ f.value ++ f.after := by
    rw [← hlen]
    exact drop_append_succ _ _ _
  have htoken : f.name.all isTchar := all_eq_true.mpr f.name_token
  have htrim := trimHttp1Ows_blanks f.before_ows f.after_ows f.value_trimmed
  unfold appendHttp1Header
  rw [hhead, hnul, hcr, hcolon, hlen]
  simp only [htake, hdrop, htrim, htoken, f.value_valid, pair]
  rfl

/-- Only header lines of the grammar are taken. -/
theorem exists_of_appendHttp1Header {line : Bytes} (h : appendHttp1Header line out = (.ok, out')) :
    ∃ f : FieldLine, line = f.text := by
  unfold appendHttp1Header at h
  split at h
  · cases h
  split at h
  · cases h
  split at h
  · cases h
  · cases h
  rename_i colon hne hcolon
  dsimp only at h
  split at h
  · rename_i htoken
    split at h
    · rename_i hvalid
      obtain ⟨name, rest, rfl, rfl, -⟩ := find_singleton_eq_some hcolon
      rw [drop_append_succ] at hvalid
      rw [take_left] at htoken
      obtain ⟨before, after, hsplit, hb, ha, ht⟩ := exists_blanks rest
      refine ⟨⟨name, before, trimHttp1Ows rest, after, ?_, all_eq_true.mp htoken, hb,
        ha, hvalid, ht⟩, ?_⟩
      · rintro rfl
        exact hne rfl
      · rw [text, ← hsplit]
    · cases h
  · cases h

/-! ## The request line -/

theorem RequestHead.find_requestLine (h : RequestHead) : find crlf h.requestLine = none := by
  have hmethod := not_mem_of_class (not_isTchar_of_forbidden cr_mem_forbidden) h.method_token
  have htarget := not_mem_of_class (not_isRequestTargetChar_of_forbidden cr_mem_forbidden)
    h.target_valid
  have hversion : cr ∉ h.version := by
    rcases h.version_known with hv | hv
    all_goals
      rw [hv]
      decide
  have hsp : cr ≠ sp := by decide
  exact find_cons_eq_none (by simp [RequestHead.requestLine, hmethod, htarget, hversion, hsp])

/-- A request line of the grammar is taken, and its three parts are kept. -/
theorem parseHttp1RequestLine_text (h : RequestHead) (out : ParsedRequest) :
    parseHttp1RequestLine h.requestLine out =
      (.ok, { out with method := h.method, target := h.target, version := h.version }) := by
  obtain ⟨c, method, hmethod⟩ := exists_cons_of_ne_nil h.method_ne
  have hsp1 : find [sp] h.requestLine = some h.method.length :=
    find_singleton (not_mem_of_class (by decide) h.method_token)
  have hsp2 : find [sp] (h.target ++ sp :: h.version) = some h.target.length :=
    find_singleton (not_mem_of_class (by decide) h.target_valid)
  have hlen : h.method.length = method.length + 1 := by simp [hmethod]
  have htake : h.requestLine.take (method.length + 1) = h.method := by
    rw [← hlen]
    simp [RequestHead.requestLine]
  have hdrop : h.requestLine.drop (method.length + 1 + 1) = h.target ++ sp :: h.version := by
    rw [← hlen]
    exact drop_append_succ _ _ _
  have htoken : h.method.all isTchar := all_eq_true.mpr h.method_token
  have htarget : h.target.all isRequestTargetChar := all_eq_true.mpr h.target_valid
  have hne : h.target.isEmpty = false := isEmpty_eq_false_iff.mpr h.target_ne
  have hversion : (h.version != http10 && h.version != http11) = false := by
    rcases h.version_known with hv | hv
    · simp [hv]
    · simp [hv]
  unfold parseHttp1RequestLine
  rw [hsp1, hlen]
  simp only [htake, hdrop, hsp2, htoken, take_left, hne, htarget, drop_append_succ, hversion]
  rfl

/-- Only request lines of the grammar are taken. -/
theorem exists_of_parseHttp1RequestLine (h : parseHttp1RequestLine reqLine out = (.ok, out'))
    (fields : List FieldLine) :
    ∃ head : RequestHead, head.fields = fields ∧ reqLine = head.requestLine := by
  unfold parseHttp1RequestLine at h
  split at h
  · cases h
  · cases h
  rename_i sp1 hne hsp1
  obtain ⟨method, rest, rfl, rfl, -⟩ := find_singleton_eq_some hsp1
  simp only [take_left, drop_append_succ] at h
  split at h
  · rename_i htoken
    cases hsp2 : find [sp] rest with
    | none =>
      have hversion : (([] : Bytes) != http10 && ([] : Bytes) != http11) = true := by decide
      simp only [hsp2, hversion, if_true] at h
      split at h
      · cases h
      · split at h <;> cases h
    | some sp2 =>
      obtain ⟨target, version, rfl, rfl, -⟩ := find_singleton_eq_some hsp2
      simp only [hsp2, take_left, drop_append_succ] at h
      split at h
      · cases h
      rename_i htarget
      split at h
      · rename_i hchars
        split at h
        · cases h
        rename_i hversion
        refine ⟨⟨method, target, version, fields, ?_, all_eq_true.mp htoken, ?_,
          all_eq_true.mp hchars, ?_⟩, rfl, rfl⟩
        · rintro rfl
          exact hne rfl
        · rintro rfl
          exact htarget rfl
        · by_contra hcon
          rw [not_or] at hcon
          exact hversion (by simp [hcon.1, hcon.2])
      · cases h
  · cases h

/-! ## The header lines of a complete block -/

/-- The header lines taken one by one. -/
def acceptLines (limits : ParserLimits) :
    Nat → List Bytes → ParsedRequest → ParseStatus × ParsedRequest
  | _, [], out => (.ok, out)
  | headerCount, line :: lines, out =>
    if limits.maxHeaderLineSize < line.length then (.headerLineTooLarge, out)
    else if limits.maxHeaders < headerCount + 1 then (.tooManyHeaders, out)
    else match appendHttp1Header line out with
      | (.ok, out) => acceptLines limits (headerCount + 1) lines out
      | failed => failed

/-- The loop over positions cuts the lines that the block search has seen. -/
theorem appendHeaderLines_eq (limits : ParserLimits) (hlines : ∀ x ∈ lines, IsLine x)
    (front rest : Bytes) (headerEnd rounds headerCount : Nat)
    (hend : headerEnd + 2 = front.length + (ended crlf lines).length)
    (hrounds : lines.length < rounds) (out : ParsedRequest) :
    appendHeaderLines (front ++ (ended crlf lines ++ rest)) limits headerEnd rounds headerCount
        front.length out =
      acceptLines limits headerCount lines out := by
  induction lines generalizing front rounds headerCount out with
  | nil =>
    obtain ⟨rounds, rfl⟩ := Nat.exists_eq_succ_of_ne_zero (ne_of_gt hrounds)
    have hdone : ¬ front.length < headerEnd := by
      simp only [ended_nil, length_nil] at hend
      omega
    rw [appendHeaderLines, if_neg hdone]
    rfl
  | cons x lines ih =>
    obtain ⟨rounds, rfl⟩ := Nat.exists_eq_succ_of_ne_zero (Nat.ne_zero_of_lt hrounds)
    have hx : IsLine x := hlines x mem_cons_self
    have hrest : ∀ y ∈ lines, IsLine y := fun y hy => hlines y (mem_cons_of_mem x hy)
    have hxlen : 0 < x.length := length_pos_iff.mpr hx.1
    simp only [ended_cons, length_append, length_cons, length_nil] at hend
    have htext : front ++ (ended crlf (x :: lines) ++ rest) =
        front ++ (x ++ crlf ++ (ended crlf lines ++ rest)) := by simp
    have hfind := findFrom_line hx.2 front (ended crlf lines ++ rest)
    have hpos : front.length < headerEnd := by omega
    have hinside : ¬ headerEnd < front.length + x.length := by omega
    have hline : ((front ++ (x ++ crlf ++ (ended crlf lines ++ rest))).drop front.length).take
        (front.length + x.length - front.length) = x := by simp
    rw [htext, appendHeaderLines, if_pos hpos, hfind]
    simp only [if_neg hinside, hline]
    have hfront : front.length + x.length + 2 = (front ++ (x ++ crlf)).length := by
      simp [add_assoc]
    have hassoc : front ++ (x ++ crlf ++ (ended crlf lines ++ rest)) =
        front ++ (x ++ crlf) ++ (ended crlf lines ++ rest) := by simp
    have hnext (out : ParsedRequest) := ih hrest (front ++ (x ++ crlf)) rounds (headerCount + 1)
      (by rw [← hfront]; omega) (by simpa using hrounds) out
    rw [acceptLines, hfront, hassoc]
    simp only [hnext] <;> rfl

/-- The lines taken are the header lines of the grammar within the limits. -/
theorem acceptLines_eq_ok_iff {headerCount : Nat} (hcount : headerCount ≤ limits.maxHeaders) :
    acceptLines limits headerCount lines out = (.ok, out') ↔
      (∀ x ∈ lines, x.length ≤ limits.maxHeaderLineSize) ∧
        headerCount + lines.length ≤ limits.maxHeaders ∧
        ∃ fields : List FieldLine, lines = fields.map text ∧
          out' = { out with headers := out.headers ++ fields.map pair } := by
  induction lines generalizing headerCount out with
  | nil =>
    rw [acceptLines]
    constructor
    · intro h
      cases h
      exact ⟨by simp, hcount, [], rfl, by simp⟩
    rintro ⟨-, -, fields, hfields, rfl⟩
    have hnil : fields = [] := map_eq_nil_iff.mp hfields.symm
    simp [hnil]
  | cons x lines ih =>
    rw [acceptLines, forall_mem_cons, length_cons]
    constructor
    · intro h
      split at h
      · cases h
      rename_i hline
      split at h
      · cases h
      rename_i hmany
      split at h
      · rename_i out₁ happ
        obtain ⟨f, rfl⟩ := exists_of_appendHttp1Header happ
        rw [appendHttp1Header_text] at happ
        cases happ
        obtain ⟨hall, hle, fields, rfl, rfl⟩ := (ih (Nat.not_lt.mp hmany)).mp h
        refine ⟨⟨Nat.not_lt.mp hline, hall⟩, by omega, f :: fields, rfl, ?_⟩
        simp
      · rename_i hfailed
        exact absurd h (hfailed out')
    rintro ⟨⟨hline, hall⟩, hle, fields, hfields, rfl⟩
    obtain ⟨f, fields, rfl, rfl, rfl⟩ := map_eq_cons_iff.mp hfields.symm
    have hmany : ¬ limits.maxHeaders < headerCount + 1 := by omega
    rw [if_neg (Nat.not_lt.mpr hline), if_neg hmany, appendHttp1Header_text]
    refine (ih (Nat.not_lt.mp hmany)).mpr ⟨hall, by omega, fields, rfl, ?_⟩
    simp

/-! ## Whole requests -/

theorem RequestHead.isLine_lines (h : RequestHead) : ∀ x ∈ h.lines, IsLine x := by
  intro x hx
  obtain ⟨f, -, rfl⟩ := mem_map.mp hx
  exact f.isLine

/-- A complete block is read line by line; what follows it is not looked at. -/
theorem parseRequest_complete (limits : ParserLimits) (hreq : find crlf reqLine = none)
    (hlines : ∀ x ∈ lines, IsLine x) (rest : Bytes) (out : ParsedRequest)
    (huri : reqLine.length ≤ limits.maxRequestLineSize)
    (hblock : (ended crlf lines).length - 2 ≤ limits.maxHeaderBlockSize) :
    parseRequest (headText reqLine lines ++ rest) limits out =
      match parseHttp1RequestLine reqLine { out with headers := [] } with
      | (.ok, out) =>
        match acceptLines limits 0 lines out with
        | (.ok, out) =>
          (.ok, { out with headerEndOffset := reqLine.length + (ended crlf lines).length })
        | failed => failed
      | failed => failed := by
  have hfound := findCompleteHttp1HeaderBlock_complete limits hreq hlines rest
  rw [if_neg (Nat.not_lt.mpr huri), if_neg (Nat.not_lt.mpr hblock)] at hfound
  have htake : (headText reqLine lines ++ rest).take reqLine.length = reqLine := by
    simp [headText_eq]
  have hloop (out : ParsedRequest) := appendHeaderLines_eq limits hlines (reqLine ++ crlf)
    (crlf ++ rest) (reqLine.length + (ended crlf lines).length)
    ((headText reqLine lines ++ rest).length + 1) 0
    (by simp only [length_append, length_cons, length_nil]; omega)
    (by
      have := length_le_ended lines
      rw [length_append, headText_length]
      omega) out
  have htext : reqLine ++ crlf ++ (ended crlf lines ++ (crlf ++ rest)) =
      headText reqLine lines ++ rest := by simp [headText]
  have hstart : (reqLine ++ crlf).length = reqLine.length + 2 := by simp
  rw [htext, hstart] at hloop
  unfold parseRequest
  simp only [hfound, ne_eq, not_true_eq_false, if_false, htake, hloop] <;> rfl

/-- Any buffer that is accepted is a complete block within the two limits of the search. -/
theorem shape_of_parseRequest_ok (h : parseRequest raw limits out = (.ok, req)) :
    ∃ reqLine lines rest, raw = headText reqLine lines ++ rest ∧ find crlf reqLine = none ∧
      (∀ x ∈ lines, IsLine x) ∧ reqLine.length ≤ limits.maxRequestLineSize ∧
      (ended crlf lines).length - 2 ≤ limits.maxHeaderBlockSize := by
  have hstatus : (findCompleteHttp1HeaderBlock raw limits).status = .ok := by
    by_contra hne
    unfold parseRequest at h
    simp only [ne_eq, hne, not_false_eq_true, if_true] at h
    exact hne (congrArg Prod.fst h)
  rcases exists_shape raw with hnone | ⟨reqLine, lines, hreq, hlines, hshape⟩
  · rw [findCompleteHttp1HeaderBlock_part limits hnone] at hstatus
    split at hstatus <;> cases hstatus
  rcases hshape with ⟨rest, rfl⟩ | ⟨pending, hpending, rfl⟩
  · rw [findCompleteHttp1HeaderBlock_complete limits hreq hlines] at hstatus
    refine ⟨reqLine, lines, rest, rfl, hreq, hlines, ?_, ?_⟩
    · by_contra hlong
      rw [if_pos (Nat.not_le.mp hlong)] at hstatus
      cases hstatus
    by_contra hlarge
    rw [if_pos (Nat.not_le.mp hlarge)] at hstatus
    split at hstatus <;> cases hstatus
  · exact absurd hstatus (findCompleteHttp1HeaderBlock_open limits hreq hlines hpending).1

/-- The text of a head within the limits is accepted and read as its parts. -/
theorem parseRequest_text (head : RequestHead) (hfits : head.Fits limits) (rest : Bytes)
    (out : ParsedRequest) :
    parseRequest (head.text ++ rest) limits out = (.ok, head.result) := by
  have haccept : acceptLines limits 0 head.lines
      { out with headers := [], method := head.method, target := head.target,
                 version := head.version } =
      (.ok, { out with headers := head.fields.map pair, method := head.method,
                       target := head.target, version := head.version }) := by
    refine (acceptLines_eq_ok_iff (Nat.zero_le _)).mpr ⟨hfits.line, ?_, head.fields, rfl, ?_⟩
    · rw [Nat.zero_add]
      exact hfits.count
    · simp
  rw [RequestHead.text, parseRequest_complete limits
    head.find_requestLine head.isLine_lines rest out hfits.requestLine
    hfits.block, parseHttp1RequestLine_text]
  simp only [haccept]
  rfl

/-- Only texts of heads within the limits are accepted. -/
theorem exists_of_parseRequest (h : parseRequest raw limits out = (.ok, req)) :
    ∃ (head : RequestHead) (rest : Bytes),
      raw = head.text ++ rest ∧ head.Fits limits ∧ req = head.result := by
  obtain ⟨reqLine, lines, rest, rfl, hreq, hlines, huri, hblock⟩ := shape_of_parseRequest_ok h
  have heq := h
  rw [parseRequest_complete limits hreq hlines rest out huri hblock] at heq
  split at heq
  · rename_i out₁ hline
    split at heq
    · rename_i out₂ haccept
      obtain ⟨hall, hle, fields, rfl, -⟩ := (acceptLines_eq_ok_iff (Nat.zero_le _)).mp haccept
      obtain ⟨head, rfl, rfl⟩ := exists_of_parseHttp1RequestLine hline fields
      have hfits : head.Fits limits := ⟨huri, hblock, hall, by rw [Nat.zero_add] at hle; exact hle⟩
      refine ⟨head, rest, rfl, hfits, ?_⟩
      have hagain := parseRequest_text head hfits rest out
      exact (Prod.ext_iff.mp (h.symm.trans hagain)).2
    · rename_i hfailed
      exact absurd heq (hfailed req)
  · rename_i hfailed
    exact absurd heq (hfailed req)

/-! ## Writing a request out again -/

/-- The request written out: no blanks around values. -/
def ParsedRequest.serialize (req : ParsedRequest) : Bytes :=
  headText (req.method ++ sp :: (req.target ++ sp :: req.version))
    (req.headers.map fun field => field.1 ++ colon :: field.2)

/-- A header line without its blanks. -/
def FieldLine.compact (f : FieldLine) : FieldLine :=
  { f with before := [], after := [], before_ows := nofun, after_ows := nofun }

theorem FieldLine.compact_length_le : f.compact.text.length ≤ f.text.length := by
  simp only [compact, text, length_append, length_cons, length_nil]
  omega

/-- A head without blanks around its values. -/
def RequestHead.compact (h : RequestHead) : RequestHead :=
  { h with fields := h.fields.map FieldLine.compact }

theorem RequestHead.compact_text (h : RequestHead) : h.compact.text = h.result.serialize := by
  simp [compact, RequestHead.text, result, lines,
    RequestHead.requestLine, ParsedRequest.serialize, FieldLine.compact, FieldLine.text,
    FieldLine.pair, Function.comp_def]

theorem ended_compact_length_le (fields : List FieldLine) :
    (ended crlf (fields.map (·.compact.text))).length ≤
      (ended crlf (fields.map text)).length := by
  induction fields with
  | nil => exact le_refl _
  | cons f fields ih =>
    have hf := f.compact_length_le
    simp only [map_cons, ended_cons, length_append]
    omega

theorem RequestHead.compact_lines (h : RequestHead) :
    h.compact.lines = h.fields.map (·.compact.text) := by
  simp [compact, lines, Function.comp_def]

/-- Leaving blanks out keeps a head within its limits. -/
theorem RequestHead.Fits.compact {h : RequestHead} (hf : h.Fits limits) :
    h.compact.Fits limits where
  requestLine := hf.requestLine
  block := by
    have hle := ended_compact_length_le h.fields
    have hblock := hf.block
    unfold lines at hblock
    rw [compact_lines]
    omega
  line := by
    intro x hx
    rw [compact_lines] at hx
    obtain ⟨f, hmem, rfl⟩ := mem_map.mp hx
    have hline := hf.line f.text (mem_map_of_mem hmem)
    exact le_trans f.compact_length_le hline
  count := by
    have hcount := hf.count
    rw [compact_lines]
    simpa [lines] using hcount

/-- The request that comes back from what was written out. -/
theorem RequestHead.compact_result (h : RequestHead) :
    h.compact.result =
      { h.result with headerEndOffset := h.result.serialize.length - 4 } := by
  have hlen : h.result.serialize.length =
      h.compact.requestLine.length + (ended crlf h.compact.lines).length + 4 := by
    rw [← h.compact_text, RequestHead.text, headText_length]
  have hoffset : h.compact.result.headerEndOffset = h.result.serialize.length - 4 := by
    rw [hlen]
    rfl
  rw [← hoffset]
  simp [compact, result, FieldLine.compact, FieldLine.pair,
    Function.comp_def]

/-- Names and values of a head have no line end and no string end in them. -/
theorem FieldLine.not_mem_pair (hc : c ∈ forbiddenBytes) :
    c ∉ f.pair.1 ∧ c ∉ f.pair.2 :=
  ⟨not_mem_of_class (not_isTchar_of_forbidden hc) f.name_token,
    not_mem_of_isValidHttp1FieldValue f.value_valid hc⟩

/-- The parser is the grammar: a buffer is accepted exactly when it starts with the text of a
head within the limits, and the parts of that head are returned. Names are tokens, no name or
value has a line end or a NUL in it, and an accepted request written out is read back as the
same request, whatever stands behind it. -/
theorem parseRequest_ok_iff_grammar (raw : Bytes) (limits : ParserLimits)
    (out req : ParsedRequest) :
    (parseRequest raw limits out = (.ok, req) ↔
      ∃ (head : RequestHead) (rest : Bytes),
        raw = head.text ++ rest ∧ head.Fits limits ∧ req = head.result) ∧
    (parseRequest raw limits out = (.ok, req) →
      (∀ field ∈ req.headers, field.1 ≠ [] ∧ (∀ c ∈ field.1, isTchar c) ∧
        ∀ c ∈ forbiddenBytes, c ∉ field.1 ∧ c ∉ field.2) ∧
      ∀ (rest : Bytes) (out' : ParsedRequest),
        parseRequest (req.serialize ++ rest) limits out' =
          (.ok, { req with headerEndOffset := req.serialize.length - 4 })) := by
  refine ⟨⟨exists_of_parseRequest, ?_⟩, ?_⟩
  · rintro ⟨head, rest, rfl, hfits, rfl⟩
    exact parseRequest_text head hfits rest out
  intro h
  obtain ⟨head, -, -, hfits, rfl⟩ := exists_of_parseRequest h
  refine ⟨?_, ?_⟩
  · intro field hfield
    obtain ⟨f, -, rfl⟩ := mem_map.mp hfield
    exact ⟨f.name_ne, f.name_token, fun c hc => f.not_mem_pair hc⟩
  intro rest out'
  rw [← head.compact_text, parseRequest_text head.compact hfits.compact rest out',
    head.compact_result, head.compact_text]

/-- `GET / HTTP/1.1`, one header and the empty line. -/
def sampleHead : Bytes :=
  [0x47, 0x45, 0x54, 0x20, 0x2F, 0x20] ++ http11 ++ crlf ++ [0x41, 0x3A, 0x20, 0x62] ++ crlf ++ crlf

/-- The request of the sample. -/
def sampleRequest : ParsedRequest where
  method := [0x47, 0x45, 0x54]
  target := [0x2F]
  version := http11
  headers := [([0x41], [0x62])]
  headerEndOffset := 20

/-- An accepted request is read back with a byte behind it. -/
theorem parseRequest_ok_iff_grammar_sampleHead :
    parseRequest sampleHead {} {} = (.ok, sampleRequest) ∧
      parseRequest (sampleRequest.serialize ++ [0x7A]) {} {} =
        (.ok, { sampleRequest with headerEndOffset := sampleRequest.serialize.length - 4 }) :=
  have h : parseRequest sampleHead {} {} = (.ok, sampleRequest) := by decide +kernel
  ⟨h, ((parseRequest_ok_iff_grammar sampleHead {} {} sampleRequest).2 h).2 [0x7A] {}⟩

end Conflux.Http.Head

import Conflux.Http.Chunked.Pieces

/-!
# The text of an accepted body

What the decoder accepts is size lines, data and trailer lines with their terminators. The digits
of a size line hold no control byte, but the decoder looks neither at the extension behind them
nor at a trailer line, so that these may hold a bare carriage return, a bare line feed or a NUL. A
recipient that ends lines at such bytes then sees other chunks.
-/

namespace Conflux.Http.Chunked

open Conflux.Core List Option Ascii ChunkedDecodeState

/-! ## Texts -/

/-- A size line: the digits of the size, and behind them nothing or an extension. -/
structure SizeText where
  digits : Bytes
  ext : Bytes
  size : Nat
  digits_ne : digits ≠ []
  spells : hexValue 0 digits = some size
  ext_eq : ext = [] ∨ ext.head? = some semicolon
  unbroken : find crlf (digits ++ ext) = none

/-- The bytes of a size line. -/
def SizeText.line (t : SizeText) : Bytes := t.digits ++ t.ext

/-- A chunk: its size line and its data. -/
structure ChunkText where
  head : SizeText
  data : Bytes
  data_ne : data ≠ []
  size_eq : head.size = data.length

/-- The bytes of a chunk. -/
def ChunkText.render (c : ChunkText) : Bytes := c.head.line ++ crlf ++ c.data ++ crlf

/-- A whole body: chunks, the line of the last chunk, and trailer lines. -/
structure BodyText where
  chunks : List ChunkText
  last : SizeText
  last_size : last.size = 0
  trailers : List Bytes
  trailers_ne : ∀ t ∈ trailers, t ≠ [] ∧ find crlf t = none

namespace BodyText

/-- The bytes of a body, with the empty line at the end. -/
def render (b : BodyText) : Bytes :=
  b.chunks.flatMap ChunkText.render ++ b.last.line ++ crlf ++ ended crlf b.trailers ++ crlf

/-- The data of the chunks. -/
def content (b : BodyText) : List Bytes := b.chunks.map ChunkText.data

/-- The size lines. -/
def sizeTexts (b : BodyText) : List SizeText := b.chunks.map ChunkText.head ++ [b.last]

/-- The size lines with their extensions, and the trailer lines. -/
def lines (b : BodyText) : List Bytes := b.sizeTexts.map SizeText.line ++ b.trailers

end BodyText

/-- No carriage return, no line feed and no NUL. -/
def Clean (text : Bytes) : Prop := cr ∉ text ∧ lf ∉ text ∧ nul ∉ text

theorem clean_append_iff {a b : Bytes} : Clean (a ++ b) ↔ Clean a ∧ Clean b := by
  simp only [Clean, mem_append, not_or]
  tauto

/-- The digits of a size hold no control byte, so that a size line is clean if its extension
is. -/
theorem SizeText.clean_line_iff (t : SizeText) : Clean t.line ↔ Clean t.ext := by
  have hdigits : Clean t.digits := ⟨not_mem_digits t.spells (by decide),
    not_mem_digits t.spells (by decide), not_mem_digits t.spells (by decide)⟩
  rw [line, clean_append_iff, and_iff_right hdigits]

theorem BodyText.clean_lines_iff (b : BodyText) : (∀ line ∈ b.lines, Clean line) ↔
    (∀ t ∈ b.sizeTexts, Clean t.ext) ∧ ∀ t ∈ b.trailers, Clean t := by
  rw [lines, forall_mem_append, List.forall_mem_map]
  exact and_congr_left fun _ => forall₂_congr fun t _ => t.clean_line_iff

/-! ## A lenient recipient -/

/-- Bytes that a lenient recipient takes for the end of a line. -/
def endsLine (c : UInt8) : Bool := c == cr || c == lf

/-- The first line of a text for a recipient to which a lone CR or LF ends a line too, and the
rest. -/
def lenientLine (text : Bytes) : Option (Bytes × Bytes) :=
  match text.dropWhile (!endsLine ·) with
  | [] => none
  | c :: rest => some (text.takeWhile (!endsLine ·),
      if c = cr ∧ rest.head? = some lf then rest.tail else rest)

/-- The size that a line spells, its extension left out. -/
def lenientSize (line : Bytes) : Option Nat :=
  match line.takeWhile (· ≠ semicolon) with
  | [] => none
  | digits => hexValue 0 digits

/-- What stands behind the trailers, of which there are fewer than `fuel`. -/
def lenientTrailers : Nat → Bytes → Option Bytes
  | 0, _ => none
  | fuel + 1, text =>
    (lenientLine text).bind fun (line, rest) =>
      if line = [] then some rest else lenientTrailers fuel rest

/-- The chunks of a body, fewer than `fuel`, and what is behind it, as a lenient recipient sees
them. -/
def lenientChunks : Nat → Bytes → Option (List Bytes × Bytes)
  | 0, _ => none
  | fuel + 1, text =>
    (lenientLine text).bind fun (line, rest) =>
      (lenientSize line).bind fun size =>
        if size = 0 then (lenientTrailers (rest.length + 1) rest).map ([], ·)
        else
          (lenientLine (rest.drop size)).bind fun (behind, rest') =>
            if behind = [] then
              (lenientChunks fuel rest').map fun (chunks, left) => (rest.take size :: chunks, left)
            else none

variable {line rest : Bytes}

/-- A clean line ends at its terminator. -/
theorem lenientLine_clean (h : Clean line) (rest : Bytes) :
    lenientLine (line ++ cr :: lf :: rest) = some (line, rest) := by
  have hnone : ∀ c ∈ line, (!endsLine c) = true := by
    intro c hc
    have hcr : c ≠ cr := fun heq => h.1 (heq ▸ hc)
    have hlf : c ≠ lf := fun heq => h.2.1 (heq ▸ hc)
    simp [endsLine, hcr, hlf]
  have hend : (cr :: lf :: rest).dropWhile (!endsLine ·) = cr :: lf :: rest := rfl
  have hstart : (cr :: lf :: rest).takeWhile (!endsLine ·) = [] := rfl
  rw [lenientLine, dropWhile_append_of_pos hnone, takeWhile_append_of_pos hnone, hend, hstart,
    append_nil]
  rfl

theorem SizeText.lenientSize_line (t : SizeText) : lenientSize t.line = some t.size := by
  have hsemi : ∀ c ∈ t.digits, decide (c ≠ semicolon) = true := by
    intro c hc
    have hne : c ≠ semicolon := by
      rintro rfl
      exact not_mem_digits t.spells (by decide) hc
    simpa using hne
  have hcut : t.line.takeWhile (· ≠ semicolon) = t.digits := by
    rw [line, takeWhile_append_of_pos hsemi]
    obtain hnil | hhead := t.ext_eq
    · rw [hnil, takeWhile_nil, append_nil]
    · obtain ⟨back, hback⟩ := head?_eq_some_iff.mp hhead
      rw [hback, takeWhile_cons_of_neg (by simp), append_nil]
  obtain ⟨c, digits, hdigits⟩ := exists_cons_of_ne_nil t.digits_ne
  have hspells := t.spells
  rw [lenientSize, hcut]
  rw [hdigits] at hspells ⊢
  exact hspells

/-- Clean trailer lines are seen up to the empty line. -/
theorem lenientTrailers_clean {trailers : List Bytes} {fuel : Nat}
    (hne : ∀ t ∈ trailers, t ≠ []) (hclean : ∀ t ∈ trailers, Clean t)
    (hfuel : trailers.length < fuel) :
    lenientTrailers fuel (ended crlf trailers ++ crlf ++ rest) = some rest := by
  induction trailers generalizing fuel with
  | nil =>
    obtain ⟨fuel, rfl⟩ := Nat.exists_eq_succ_of_ne_zero (Nat.ne_zero_of_lt hfuel)
    have hline := lenientLine_clean (show Clean [] by simp [Clean]) rest
    rw [lenientTrailers]
    exact bind_eq_some_iff.mpr ⟨_, hline, if_pos rfl⟩
  | cons t trailers ih =>
    obtain ⟨fuel, rfl⟩ := Nat.exists_eq_succ_of_ne_zero (Nat.ne_zero_of_lt hfuel)
    rw [forall_mem_cons] at hne hclean
    have hline := lenientLine_clean hclean.1 (ended crlf trailers ++ crlf ++ rest)
    have hsplit : ended crlf (t :: trailers) ++ crlf ++ rest =
        t ++ cr :: lf :: (ended crlf trailers ++ crlf ++ rest) := by simp
    rw [lenientTrailers, hsplit, hline]
    exact (if_neg hne.1).trans (ih hne.2 hclean.2 (Nat.lt_of_succ_lt_succ hfuel))

/-- The trailers take at least a byte each. -/
theorem length_le_ended (trailers : List Bytes) :
    trailers.length ≤ (ended crlf trailers).length := by
  induction trailers with
  | nil => exact Nat.le_refl _
  | cons t trailers ih =>
    rw [ended_cons, length_cons, length_append, length_append, length_cons]
    omega

/-- A lenient recipient sees the chunks of a body whose extensions and trailers are clean. -/
theorem BodyText.lenientChunks_render (b : BodyText) (hext : ∀ t ∈ b.sizeTexts, Clean t.ext)
    (htrailers : ∀ t ∈ b.trailers, Clean t) {fuel : Nat} (hfuel : b.chunks.length < fuel)
    (rest : Bytes) : lenientChunks fuel (b.render ++ rest) = some (b.content, rest) := by
  obtain ⟨chunks, last, last_size, trailers, trailers_ne⟩ := b
  simp only [sizeTexts, forall_mem_append, List.forall_mem_map, forall_mem_singleton] at hext
  dsimp only at hext htrailers hfuel
  obtain ⟨hchunks, hlast⟩ := hext
  induction chunks generalizing fuel with
  | nil =>
    obtain ⟨fuel, rfl⟩ := Nat.exists_eq_succ_of_ne_zero (Nat.ne_zero_of_lt hfuel)
    have hline := lenientLine_clean (last.clean_line_iff.mpr hlast)
      (ended crlf trailers ++ crlf ++ rest)
    have hfuel' : trailers.length < (ended crlf trailers ++ crlf ++ rest).length + 1 := by
      have hle := length_le_ended trailers
      rw [length_append, length_append]
      omega
    have htail : lenientTrailers ((ended crlf trailers ++ crlf ++ rest).length + 1)
        (ended crlf trailers ++ crlf ++ rest) = some rest :=
      lenientTrailers_clean (fun t ht => (trailers_ne t ht).1) htrailers hfuel'
    have hsplit : render ⟨[], last, last_size, trailers, trailers_ne⟩ ++ rest =
        last.line ++ cr :: lf :: (ended crlf trailers ++ crlf ++ rest) := by simp [render]
    rw [lenientChunks, hsplit, hline]
    simp only [bind_some, last.lenientSize_line, last_size, if_true, htail, Option.map_some]
    rfl
  | cons c chunks ih =>
    obtain ⟨fuel, rfl⟩ := Nat.exists_eq_succ_of_ne_zero (Nat.ne_zero_of_lt hfuel)
    rw [forall_mem_cons] at hchunks
    have hrest := ih (Nat.lt_of_succ_lt_succ hfuel) hchunks.2
    generalize hback : render ⟨chunks, last, last_size, trailers, trailers_ne⟩ ++ rest = back
      at hrest
    have hsplit : render ⟨c :: chunks, last, last_size, trailers, trailers_ne⟩ ++ rest =
        c.head.line ++ cr :: lf :: (c.data ++ cr :: lf :: back) := by
      rw [← hback]
      simp [render, ChunkText.render]
    have hline := lenientLine_clean (c.head.clean_line_iff.mpr hchunks.1)
      (c.data ++ cr :: lf :: back)
    have hbehind := lenientLine_clean (show Clean [] by simp [Clean]) back
    have hne : c.data.length ≠ 0 := fun hzero => c.data_ne (length_eq_zero_iff.mp hzero)
    rw [nil_append] at hbehind
    rw [lenientChunks, hsplit, hline]
    simp only [bind_some, c.head.lenientSize_line, if_neg hne, c.size_eq, drop_left, take_left,
      hbehind, if_true, hrest, Option.map_some]
    rfl

theorem BodyText.length_chunks_le (b : BodyText) : b.chunks.length ≤ b.render.length := by
  have hchunks (chunks : List ChunkText) :
      chunks.length ≤ (chunks.flatMap ChunkText.render).length := by
    induction chunks with
    | nil => exact Nat.le_refl _
    | cons c chunks ih =>
      rw [length_cons, flatMap_cons, length_append, ChunkText.render, length_append, length_cons]
      omega
  have hle := hchunks b.chunks
  simp only [render, length_append]
  omega

/-! ## What is accepted -/

variable {raw : Bytes} {limits : DecodeLimits} {st st' : ChunkedDecodeState}
  {answer : Int × ChunkedDecodeState} {n : Nat} {body : Bytes}

/-- What is still to be read of a body that ends at `n` and whose decoded bytes are given. -/
def SplitsFrom (raw : Bytes) (n : Nat) (body : Bytes) (st : ChunkedDecodeState) : Prop :=
  match st.phase with
  | .sizeLine => ∃ b : BodyText, raw.drop st.pos = b.render ++ raw.drop n ∧
      body = st.body ++ b.content.flatten
  | .data => ∃ (data : Bytes) (b : BodyText), data.length = st.remaining ∧
      raw.drop st.pos = data ++ cr :: lf :: (b.render ++ raw.drop n) ∧
      body = st.body ++ data ++ b.content.flatten
  | .dataCrlf => ∃ b : BodyText, raw.drop st.pos = cr :: lf :: (b.render ++ raw.drop n) ∧
      body = st.body ++ b.content.flatten
  | .trailers => ∃ trailers, (∀ t ∈ trailers, t ≠ [] ∧ find crlf t = none) ∧
      raw.drop st.pos = ended crlf trailers ++ crlf ++ raw.drop n ∧ body = st.body
  | .complete => True

/-- Only an empty trailer line ends a body. -/
theorem splitsFrom_of_done (hsound : Sound 0 raw limits st)
    (hturn : decodeTurn .exact raw limits st = .done answer) (hpos : 0 < answer.1) :
    SplitsFrom raw answer.1.toNat answer.2.body st := by
  unfold SplitsFrom
  unfold decodeTurn at hturn
  cases hp : st.phase with
  | sizeLine | data | dataCrlf =>
    simp only [hp, sizeLineTurn, dataTurn, dataCrlfTurn] at hturn
    repeat' split at hturn
    all_goals cases hturn
    all_goals simp at hpos
  | trailers =>
    simp only [hp] at hturn
    cases hf : findFrom crlf raw st.pos with
    | none =>
      rw [trailersTurn_none hf] at hturn
      cases hturn
      split at hpos
      all_goals simp at hpos
    | some next =>
      by_cases hne : next = st.pos
      · subst hne
        rw [trailersTurn_empty hf, hsound.bodyStart_eq] at hturn
        cases hturn
        obtain ⟨line, rest, hdrop, hline, -, rfl, -⟩ := drop_line hf
        rw [Nat.sub_self, take_zero] at hline
        subst hline
        exact ⟨[], by simp, hdrop, rfl⟩
      · rw [trailersTurn_some hf hne] at hturn
        split at hturn
        all_goals cases hturn
        simp at hpos
  | complete => trivial

/-- The size line that has been read. -/
theorem exists_sizeText {eol size : Nat} (hends : findFrom crlf raw st.pos = some eol)
    (hsize : parseChunkSizeLine ((raw.drop st.pos).take (eol - st.pos)) = some size) :
    ∃ head : SizeText, head.size = size ∧
      raw.drop st.pos = head.line ++ cr :: lf :: raw.drop (eol + 2) := by
  obtain ⟨line, rest, hdrop, hline, -, rfl, hunbroken⟩ := drop_line hends
  rw [← hline] at hsize
  obtain ⟨digits, ext, htext⟩ := parseChunkSizeLine_eq_some_iff.mp hsize
  refine ⟨⟨digits, ext, size, htext.digits_ne, htext.spells, htext.ext,
    htext.text ▸ hunbroken⟩, rfl, hdrop.trans ?_⟩
  exact congrArg (· ++ _) htext.text

/-- Data of a chunk in front of a body. -/
theorem exists_cons_chunk (head : SizeText) {data : Bytes} (hsize : data.length = head.size)
    (hne : head.size ≠ 0) (b : BodyText) :
    ∃ b' : BodyText, b'.render = head.line ++ cr :: lf :: (data ++ cr :: lf :: b.render) ∧
      b'.content = data :: b.content := by
  have hdata : data ≠ [] := by
    rintro rfl
    exact hne hsize.symm
  refine ⟨⟨⟨head, data, hdata, hsize.symm⟩ :: b.chunks, b.last, b.last_size, b.trailers,
    b.trailers_ne⟩, ?_, rfl⟩
  simp [BodyText.render, ChunkText.render]

/-- A turn that goes on passes over one line, or over the data of a chunk. -/
theorem splitsFrom_of_again (hsound : Sound 0 raw limits st)
    (hturn : decodeTurn .exact raw limits st = .again st') (h : SplitsFrom raw n body st') :
    SplitsFrom raw n body st := by
  unfold SplitsFrom at h ⊢
  cases hsound.goesOn hturn with
  | chunk hphase hends hsize hpos _ _ =>
    obtain ⟨data, b, hlength, hrest, hbody⟩ := h
    obtain ⟨head, rfl, hdrop⟩ := exists_sizeText hends hsize
    obtain ⟨b', hrender, hcontent⟩ := exists_cons_chunk head hlength hpos b
    simp only [hphase]
    refine ⟨b', ?_, ?_⟩
    · rw [hdrop, hrest, hrender]
      simp
    · rw [hbody, hcontent, flatten_cons, append_assoc]
  | last hphase hends hsize _ =>
    obtain ⟨trailers, htrailers, hrest, hbody⟩ := h
    obtain ⟨head, hzero, hdrop⟩ := exists_sizeText hends hsize
    simp only [hphase]
    refine ⟨⟨[], head, hzero, trailers, htrailers⟩, ?_, ?_⟩
    · rw [hdrop, hrest, BodyText.render]
      simp
    · simpa [BodyText.content] using hbody
  | data hphase hall =>
    obtain ⟨b, hrest, hbody⟩ := h
    simp only [hphase]
    refine ⟨(raw.drop st.pos).take st.remaining, b, ?_, ?_, hbody⟩
    · rw [length_take_of_le]
      rw [length_drop]
      omega
    · rw [← hrest]
      change raw.drop st.pos = _ ++ raw.drop (st.pos + st.remaining)
      rw [← drop_drop, take_append_drop]
  | closed hphase _ hends =>
    obtain ⟨b, hrest, hbody⟩ := h
    obtain ⟨rest, hprefix⟩ := crlf_prefix_drop_iff.mpr hends
    have hbehind : raw.drop (st.pos + 2) = rest := by
      rw [← drop_drop, ← hprefix]
      rfl
    simp only [hphase]
    refine ⟨b, ?_, hbody⟩
    rw [← hprefix, ← hbehind, hrest]
    rfl
  | trailer hphase hends hne _ =>
    simp only [hphase] at h ⊢
    obtain ⟨line, rest, hdrop, -, hnext, rfl, hunbroken⟩ := drop_line hends
    obtain ⟨trailers, htrailers, hrest, hbody⟩ := h
    have hline : line ≠ [] := by
      rintro rfl
      exact hne hnext
    refine ⟨line :: trailers, forall_mem_cons.mpr ⟨⟨hline, hunbroken⟩, htrailers⟩, ?_, hbody⟩
    rw [hdrop, hrest]
    simp

theorem splitsFrom_of_ends (hsound : Sound 0 raw limits st)
    (hends : Ends (decodeTurn .exact raw limits) st answer) (hpos : 0 < answer.1) :
    SplitsFrom raw answer.1.toNat answer.2.body st := by
  induction hends with
  | done hturn => exact splitsFrom_of_done hsound hturn hpos
  | again hturn _ ih => exact splitsFrom_of_again hsound hturn (ih (hsound.again hturn).1 hpos)

/-- A body that is accepted up to `n` is the text of chunks and trailer lines up to there, with
the decoded bytes as the data. Its lines are free of bare carriage returns, bare line feeds and
NULs exactly if its extensions and trailer lines are. And if these are, a recipient that ends
lines at lone carriage returns and line feeds sees the same chunks and the same end. -/
theorem decodeChunked_lines (limits : DecodeLimits) (data : Bytes) {n : Nat} (hn : 0 < n)
    (h : (decodeChunked .exact data limits).1 = Int.ofNat n) :
    ∃ b : BodyText, data = b.render ++ data.drop n ∧
      (decodeChunked .exact data limits).2 = b.content.flatten ∧
      ((∀ line ∈ b.lines, Clean line) ↔
        (∀ t ∈ b.sizeTexts, Clean t.ext) ∧ ∀ t ∈ b.trailers, Clean t) ∧
      ((∀ t ∈ b.sizeTexts, Clean t.ext) → (∀ t ∈ b.trailers, Clean t) →
        lenientChunks (data.length + 1) data = some (b.content, data.drop n)) := by
  have hfresh : Sound 0 data limits (resume 0 {}) := sound_fresh limits (Nat.zero_le _)
  have hanswer : (decodeChunkedIncremental .exact data 0 limits {}).1 = Int.ofNat n := h
  have hpos : 0 < (decodeChunkedIncremental .exact data 0 limits {}).1 := by
    rw [hanswer]
    exact Int.ofNat_lt.mpr hn
  obtain ⟨b, htext, hbody⟩ := splitsFrom_of_ends hfresh (ends_decodeChunked data limits) hpos
  rw [hanswer] at htext
  have hdata : data = b.render ++ data.drop n := htext
  refine ⟨b, hdata, ?_, b.clean_lines_iff, fun hext htrailers => ?_⟩
  · rw [decodeChunked_eq_outcome, outcome, if_pos hpos, hbody]
    rfl
  have hlength := congrArg List.length hdata
  rw [length_append] at hlength
  have hchunks := b.length_chunks_le
  have hseen := b.lenientChunks_render hext htrailers
    (show b.chunks.length < data.length + 1 by omega) (data.drop n)
  rwa [← hdata] at hseen

/-- Two chunks with an extension each, a trailer, and the first byte of the next request. -/
def extendedBody : Bytes :=
  [0x32, semicolon, 0x61] ++ crlf ++ [1, 2] ++ crlf ++ [0x31] ++ crlf ++ [3] ++ crlf ++
    [0x30, semicolon] ++ crlf ++ [0x61, 0x3A, 0x62] ++ crlf ++ crlf ++ [0x47]

/-- Extensions and a trailer line are read as text. -/
theorem decodeChunked_lines_extendedBody :
    (decodeChunked .exact extendedBody ⟨8, 8⟩).1 = Int.ofNat 26 ∧
      ∃ b : BodyText, extendedBody = b.render ++ extendedBody.drop 26 ∧
        (decodeChunked .exact extendedBody ⟨8, 8⟩).2 = b.content.flatten := by
  have haccepted : (decodeChunked .exact extendedBody ⟨8, 8⟩).1 = Int.ofNat 26 := by
    decide +kernel
  obtain ⟨b, htext, hbody, -⟩ :=
    decodeChunked_lines ⟨8, 8⟩ extendedBody (by decide : 0 < 26) haccepted
  exact ⟨haccepted, b, htext, hbody⟩

/-- A bare line feed in an extension is accepted. The body then has a line that is not clean, and
a lenient recipient sees its end two bytes earlier. -/
theorem decodeChunked_bareLineFeed :
    (decodeChunked .exact [0x30, semicolon, lf, cr, lf, cr, lf] ⟨8, 8⟩).1 = Int.ofNat 7 ∧
      (∀ b : BodyText, [0x30, semicolon, lf, cr, lf, cr, lf] = b.render →
        ¬ ∀ line ∈ b.lines, Clean line) ∧
      lenientChunks 8 [0x30, semicolon, lf, cr, lf, cr, lf] = some ([], [cr, lf]) := by
  have hseen : lenientChunks 8 [0x30, semicolon, lf, cr, lf, cr, lf] = some ([], [cr, lf]) := by
    decide +kernel
  refine ⟨by decide +kernel, fun b htext hclean => ?_, hseen⟩
  obtain ⟨hext, htrailers⟩ := b.clean_lines_iff.mp hclean
  have hlength := b.length_chunks_le
  rw [← htext] at hlength
  have hwhole := b.lenientChunks_render hext htrailers (Nat.lt_succ_of_le hlength) []
  rw [append_nil, ← htext] at hwhole
  have hleft := congrArg Prod.snd (Option.some.inj (hseen.symm.trans hwhole))
  cases hleft

end Conflux.Http.Chunked

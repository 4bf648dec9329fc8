import Conflux.Http.Chunked.Run

/-!
# Where the lines of a chunked body stand

The text of a chunked body read without the decoder: a size line, the data it promises and their
terminator, the next size line, and behind the line of the last chunk the trailer lines. `LineAt`
says which lines stand within the limits of a decode, with what was counted before them. The
decoder comes to exactly these lines.
-/

namespace Conflux.Http.Chunked

open Conflux.Core List Option Ascii ChunkedDecodeState

/-! ## Sizes -/

/-- The number that hexadecimal digits spell, going on from the number before them. -/
def hexValue : Nat → Bytes → Option Nat
  | n, [] => some n
  | n, c :: digits => (hexCharToInt c).bind fun d => hexValue (n * 16 + d) digits

theorem hexCharToInt_lt {c : UInt8} {d : Nat} (h : hexCharToInt c = some d) : d < 16 := by
  unfold hexCharToInt at h
  split_ifs at h with hc hc hc
  all_goals
    have hle := UInt8.le_iff_toNat_le.mp hc.2
    simp only [UInt8.reduceToNat] at hle
    cases h
    omega

variable {digits : Bytes} {v : Nat}

/-- Up to sixteen digits the overflow checks do not strike. -/
theorem accumulateDigits_eq {n k : Nat} (hn : n < 16 ^ k)
    (hk : k + digits.length ≤ kMaxChunkHexDigits) (h : hexValue n digits = some v) :
    accumulateDigits n digits = some v := by
  induction digits generalizing n k with
  | nil => exact h
  | cons c digits ih =>
    obtain ⟨d, hd, hv⟩ := bind_eq_some_iff.mp h
    have hdigit := hexCharToInt_lt hd
    rw [length_cons] at hk
    have hstep : n * 16 + d < 16 ^ (k + 1) := by
      rw [Nat.pow_succ]
      omega
    have hbound : 16 ^ (k + 1) ≤ 2 ^ 64 := by
      have hle : 16 ^ (k + 1) ≤ 16 ^ 16 :=
        Nat.pow_le_pow_right (by decide) (by unfold kMaxChunkHexDigits at hk; omega)
      exact hle
    rw [accumulateDigits, hd]
    simp only [if_neg (show ¬ 2 ^ 64 ≤ n * 16 by omega),
      if_neg (show ¬ 2 ^ 64 ≤ n * 16 + d by omega)]
    exact ih hstep (by omega) hv

/-- Digits that pass the overflow checks spell what was added up. -/
theorem hexValue_of_accumulateDigits {n : Nat} (h : accumulateDigits n digits = some v) :
    hexValue n digits = some v := by
  induction digits generalizing n with
  | nil => exact h
  | cons c digits ih =>
    rw [accumulateDigits] at h
    split at h
    · cases h
    rename_i d hd
    split at h
    · cases h
    split at h
    · cases h
    exact bind_eq_some_iff.mpr ⟨d, hd, ih h⟩

/-- Digits are no terminators and start no extension. -/
theorem hexCharToInt_isSome_of_hexValue {n : Nat} (h : hexValue n digits = some v) :
    ∀ c ∈ digits, (hexCharToInt c).isSome := by
  induction digits generalizing n with
  | nil => simp
  | cons c digits ih =>
    obtain ⟨d, hd, hv⟩ := bind_eq_some_iff.mp h
    intro x hx
    rcases mem_cons.mp hx with rfl | hx
    · rw [hd]
      rfl
    · exact ih hv x hx

theorem not_mem_digits (h : hexValue 0 digits = some v) {c : UInt8} (hc : hexCharToInt c = none) :
    c ∉ digits := by
  intro hm
  have hsome := hexCharToInt_isSome_of_hexValue h c hm
  rw [hc] at hsome
  cases hsome

/-- A size line as text, with the size it spells: one to sixteen digits, and nothing or an
extension, which begins with a semicolon. -/
structure SizeLine (line digits ext : Bytes) (size : Nat) : Prop where
  text : line = digits ++ ext
  short : line.length ≤ kMaxChunkSizeLineBytes
  digits_ne : digits ≠ []
  digits_le : digits.length ≤ kMaxChunkHexDigits
  spells : hexValue 0 digits = some size
  ext : ext = [] ∨ ext.head? = some semicolon

/-- The text spells a size. -/
def SpellsSize (line : Bytes) (size : Nat) : Prop := ∃ digits ext, SizeLine line digits ext size

/-- What is checked of the digits that were cut off. -/
theorem checkedDigits_eq_some_iff {size : Nat} :
    (if digits.isEmpty || decide (kMaxChunkHexDigits < digits.length) then none
      else accumulateDigits 0 digits) = some size ↔
    digits ≠ [] ∧ digits.length ≤ kMaxChunkHexDigits ∧ hexValue 0 digits = some size := by
  rw [Option.ite_none_left_eq_some, Bool.or_eq_true, not_or, List.isEmpty_iff, decide_eq_true_eq,
    Nat.not_lt, and_assoc]
  refine and_congr_right fun _ => and_congr_right fun hle => ?_
  refine ⟨hexValue_of_accumulateDigits, accumulateDigits_eq (k := 0) (by decide) (by omega)⟩

/-- The parser of size lines reads the size that the text spells, and nothing else. -/
theorem parseChunkSizeLine_eq_some_iff {line : Bytes} {size : Nat} :
    parseChunkSizeLine line = some size ↔ SpellsSize line size := by
  unfold parseChunkSizeLine
  constructor
  · intro h
    split at h
    · cases h
    rename_i hshort
    cases hfind : find [semicolon] line with
    | none =>
      simp only [hfind] at h
      obtain ⟨hne, hle, hvalue⟩ := checkedDigits_eq_some_iff.mp h
      exact ⟨line, [], (append_nil _).symm, Nat.not_lt.mp hshort, hne, hle, hvalue, .inl rfl⟩
    | some semi =>
      simp only [hfind] at h
      obtain ⟨digits, ext, rfl, rfl, -⟩ := find_singleton_eq_some hfind
      rw [take_left] at h
      obtain ⟨hne, hle, hvalue⟩ := checkedDigits_eq_some_iff.mp h
      exact ⟨digits, _, rfl, Nat.not_lt.mp hshort, hne, hle, hvalue, .inr rfl⟩
  · rintro ⟨digits, ext, h⟩
    have hsemi : semicolon ∉ digits := not_mem_digits h.spells (by decide)
    have hvalue := checkedDigits_eq_some_iff.mpr ⟨h.digits_ne, h.digits_le, h.spells⟩
    rw [if_neg (Nat.not_lt.mpr h.short), h.text]
    obtain hnil | hhead := h.ext
    · rw [hnil, append_nil, find_singleton_eq_none_iff.mpr hsemi]
      exact hvalue
    · obtain ⟨back, hback⟩ := head?_eq_some_iff.mp hhead
      rw [hback, find_singleton hsemi]
      simp only [take_left]
      exact hvalue

/-! ## Lines -/

/-- Cutting the buffer at the end of a line. -/
theorem drop_line {raw : Bytes} {pos eol : Nat} (h : findFrom crlf raw pos = some eol) :
    ∃ line rest, raw.drop pos = line ++ cr :: lf :: rest ∧
      line = (raw.drop pos).take (eol - pos) ∧ eol = pos + line.length ∧
      rest = raw.drop (eol + 2) ∧ find crlf line = none := by
  obtain ⟨i, hi, rfl⟩ := map_eq_some_iff.mp h
  obtain ⟨line, rest, hdrop, rfl, hnone⟩ := find_terminated_eq_some hi
  have hrest : raw.drop (line.length + pos + 2) = rest := by
    rw [show line.length + pos + 2 = pos + (line.length + 2) by omega, ← drop_drop, hdrop,
      show line ++ cr :: lf :: rest = (line ++ crlf) ++ rest by simp]
    exact drop_left' (by simp)
  refine ⟨line, rest, hdrop, ?_, Nat.add_comm _ _, hrest.symm, hnone⟩
  rw [hdrop, Nat.add_sub_cancel, take_left]

/-- The two kinds of line. -/
inductive LineKind where
  | size
  | trailer
  deriving DecidableEq, Repr

/-- The text of the line from `p` up to the terminator at `i`. -/
def lineText (w : Bytes) (p i : Nat) : Bytes := (w.drop p).take (i - p)

/-- A line of a kind begins at a position, and all before it is within the limits. The two numbers
are the chunks and bytes of data before a size line, or the lines and bytes of the trailers before
a trailer line. -/
inductive LineAt (limits : DecodeLimits) (w : Bytes) : LineKind → Nat → Nat → Nat → Prop
  | first : LineAt limits w .size 0 0 0
  | chunk {count bytes p i size : Nat} (line : LineAt limits w .size count bytes p)
      (ends : findFrom crlf w p = some i) (spells : SpellsSize (lineText w p i) size)
      (pos : 0 < size) (counted : count < limits.maxChunks)
      (fits : bytes + size ≤ limits.maxBodySize) (closed : crlf <+: w.drop (i + 2 + size)) :
      LineAt limits w .size (count + 1) (bytes + size) (i + 2 + size + 2)
  | last {count bytes p i : Nat} (line : LineAt limits w .size count bytes p)
      (ends : findFrom crlf w p = some i) (spells : SpellsSize (lineText w p i) 0)
      (counted : count < limits.maxChunks) : LineAt limits w .trailer 0 0 (i + 2)
  | trailer {count bytes p i : Nat} (line : LineAt limits w .trailer count bytes p)
      (ends : findFrom crlf w p = some i) (nonempty : p < i)
      (counted : count < kMaxChunkTrailerLines)
      (fits : bytes + (i - p + 2) ≤ kMaxChunkTrailerBytes) :
      LineAt limits w .trailer (count + 1) (bytes + (i - p + 2)) (i + 2)

/-- The data of a chunk are promised by the size line at `p`, which ends at `i`. -/
structure DataAt (limits : DecodeLimits) (w : Bytes) (count bytes p i size : Nat) : Prop where
  line : LineAt limits w .size count bytes p
  ends : findFrom crlf w p = some i
  spells : SpellsSize (lineText w p i) size
  pos : 0 < size
  counted : count < limits.maxChunks
  fits : bytes + size ≤ limits.maxBodySize

variable {limits : DecodeLimits} {w : Bytes} {kind : LineKind} {count bytes p i size : Nat}

theorem DataAt.next (h : DataAt limits w count bytes p i size)
    (hclosed : crlf <+: w.drop (i + 2 + size)) :
    LineAt limits w .size (count + 1) (bytes + size) (i + 2 + size + 2) :=
  .chunk h.line h.ends h.spells h.pos h.counted h.fits hclosed

/-- A terminator at a place is two bytes there. -/
theorem crlf_prefix_drop_iff {q : Nat} :
    crlf <+: w.drop q ↔ w[q]? = some cr ∧ w[q + 1]? = some lf := by
  have hfirst : w[q]? = (w.drop q)[0]? := by rw [List.getElem?_drop, Nat.add_zero]
  have hsecond : w[q + 1]? = (w.drop q)[1]? := by rw [List.getElem?_drop]
  rw [hfirst, hsecond]
  rcases w.drop q with _ | ⟨c, _ | ⟨d, rest⟩⟩
  · simp
  · simp
  · simp [eq_comm]

/-- A line begins inside the text. -/
theorem LineAt.le_length (h : LineAt limits w kind count bytes p) : p ≤ w.length := by
  induction h with
  | first => exact Nat.zero_le _
  | chunk _ _ _ _ _ _ hclosed _ =>
    have hle := hclosed.length_le
    rw [length_cons, length_cons, length_nil, length_drop] at hle
    omega
  | last _ hends _ _ ih => exact (findFrom_eq_some_le ih hends).2
  | trailer _ hends _ _ _ ih => exact (findFrom_eq_some_le ih hends).2

/-! ## The decoder comes to the lines -/

/-- The decoder stands before a line. -/
def Stands (st : ChunkedDecodeState) : LineKind → Nat → Nat → Nat → Prop
  | .size, count, bytes, p => st.phase = .sizeLine ∧ st.chunksSeen = count ∧
      st.bodyBytes = bytes ∧ st.pos = p ∧ st.trailerLines = 0 ∧ st.trailerBytes = 0
  | .trailer, count, bytes, p => st.phase = .trailers ∧ st.trailerLines = count ∧
      st.trailerBytes = bytes ∧ st.pos = p

/-- The decoder stands in the data of a chunk. -/
structure StandsInData (st : ChunkedDecodeState) (count bytes i size : Nat) : Prop where
  phase : st.phase = .data
  count : st.chunksSeen = count + 1
  bytes : st.bodyBytes = bytes
  pos : st.pos = i + 2
  remaining : st.remaining = size
  trailerLines : st.trailerLines = 0
  trailerBytes : st.trailerBytes = 0

/-- What the decoder knows of the text, phase by phase. -/
def Placed (limits : DecodeLimits) (w : Bytes) (st : ChunkedDecodeState) : Prop :=
  match st.phase with
  | .sizeLine => LineAt limits w .size st.chunksSeen st.bodyBytes st.pos ∧
      st.trailerLines = 0 ∧ st.trailerBytes = 0
  | .data => ∃ count bytes p i size, DataAt limits w count bytes p i size ∧
      StandsInData st count bytes i size
  | .dataCrlf => ∃ count bytes p i size, DataAt limits w count bytes p i size ∧
      st.chunksSeen = count + 1 ∧ st.bodyBytes = bytes + size ∧ st.pos = i + 2 + size ∧
      st.trailerLines = 0 ∧ st.trailerBytes = 0
  | .trailers => LineAt limits w .trailer st.trailerLines st.trailerBytes st.pos
  | .complete => True

variable {st st' : ChunkedDecodeState}

/-- Turns lead from place to place. -/
theorem Placed.again (h : Placed limits w st) (hsound : Sound 0 w limits st)
    (hturn : decodeTurn .exact w limits st = .again st') : Placed limits w st' := by
  unfold Placed at h
  cases hsound.goesOn hturn with
  | @chunk i size hphase hends hsize hpos hcounted hfits =>
    simp only [hphase] at h
    obtain ⟨hline, htrailers⟩ := h
    exact ⟨_, _, _, i, size, ⟨hline, hends, parseChunkSizeLine_eq_some_iff.mp hsize,
      Nat.pos_of_ne_zero hpos, Nat.not_lt.mp hcounted, Nat.not_lt.mp hfits⟩,
      rfl, rfl, rfl, rfl, rfl, htrailers.1, htrailers.2⟩
  | last hphase hends hsize hcounted =>
    simp only [hphase] at h
    obtain ⟨hline, htrailerLines, htrailerBytes⟩ := h
    simp only [Placed, htrailerLines, htrailerBytes]
    exact .last hline hends (parseChunkSizeLine_eq_some_iff.mp hsize) (Nat.not_lt.mp hcounted)
  | data hphase _ =>
    simp only [hphase] at h
    obtain ⟨count, bytes, p, i, size, hdata, hst⟩ := h
    refine ⟨count, bytes, p, i, size, hdata, hst.count, ?_, ?_, hst.trailerLines, hst.trailerBytes⟩
    · change st.bodyBytes + st.remaining = _
      rw [hst.bytes, hst.remaining]
    · change st.pos + st.remaining = _
      rw [hst.pos, hst.remaining]
  | closed hphase _ hboth =>
    simp only [hphase] at h
    obtain ⟨count, bytes, p, i, size, hdata, hcount, hbytes, hpos, htrailers⟩ := h
    rw [hpos] at hboth
    refine ⟨?_, htrailers⟩
    rw [hcount, hbytes, hpos]
    exact hdata.next (crlf_prefix_drop_iff.mpr hboth)
  | trailer hphase hends hne hfits =>
    simp only [hphase] at h
    rw [not_or] at hfits
    simp only [Placed, hphase]
    have hle := (hsound.terminator_le hends).1
    exact .trailer h hends (by omega) (by omega) (Nat.not_lt.mp hfits.2)

theorem placed_fresh (limits : DecodeLimits) (w : Bytes) : Placed limits w (resume 0 {}) :=
  ⟨.first, rfl, rfl⟩

/-- Whatever state a decode comes to, the text has what the state stands before. -/
theorem placed_of_passes (h : Passes (decodeTurn .exact w limits) (resume 0 {}) st) :
    Placed limits w st ∧ Sound 0 w limits st := by
  have hstart : Placed limits w (resume 0 {}) ∧ Sound 0 w limits (resume 0 {}) :=
    ⟨placed_fresh limits w, sound_fresh limits (Nat.zero_le _)⟩
  exact h.induct (I := fun st => Placed limits w st ∧ Sound 0 w limits st)
    (fun _ _ hs hturn => ⟨hs.1.again hs.2 hturn, (hs.2.again hturn).1⟩) hstart

section

variable (hsound : Sound 0 w limits st)
include hsound

/-- From a size line that is in order the decoder comes to the data it promises. -/
theorem passes_data (h : DataAt limits w count bytes p i size)
    (hst : Stands st .size count bytes p) :
    ∃ st', decodeTurn .exact w limits st = .again st' ∧ StandsInData st' count bytes i size := by
  obtain ⟨hphase, rfl, rfl, rfl, htrailerLines, htrailerBytes⟩ := hst
  have hgoes := GoesOn.chunk hphase h.ends (parseChunkSizeLine_eq_some_iff.mpr h.spells)
    (Nat.ne_of_gt h.pos) (Nat.not_lt.mpr h.counted) (Nat.not_lt.mpr h.fits)
  exact ⟨_, hgoes.turn_eq hsound, rfl, rfl, rfl, rfl, rfl, htrailerLines, htrailerBytes⟩

/-- From the data of a chunk that are there the decoder comes to what stands behind them. -/
theorem passes_dataCrlf (hst : StandsInData st count bytes i size)
    (hroom : i + 2 + size ≤ w.length) :
    decodeTurn .exact w limits st = .again { st.took w size with phase := .dataCrlf } := by
  have hall : ¬ w.length - st.pos < st.remaining := by
    rw [hst.remaining, hst.pos]
    omega
  rw [(GoesOn.data hst.phase hall).turn_eq hsound, hst.remaining]

/-- From the line of the last chunk the decoder comes to the trailers. -/
theorem passes_last (hst : Stands st .size count bytes p) (hends : findFrom crlf w p = some i)
    (hspells : SpellsSize (lineText w p i) 0) (hcounted : count < limits.maxChunks) :
    ∃ st', decodeTurn .exact w limits st = .again st' ∧ Stands st' .trailer 0 0 (i + 2) := by
  obtain ⟨hphase, rfl, rfl, rfl, htrailerLines, htrailerBytes⟩ := hst
  have hgoes := GoesOn.last hphase hends (parseChunkSizeLine_eq_some_iff.mpr hspells)
    (Nat.not_lt.mpr hcounted)
  exact ⟨_, hgoes.turn_eq hsound, rfl, htrailerLines, htrailerBytes, rfl⟩

/-- From a trailer line within the limits the decoder comes to the next one. -/
theorem passes_trailer (hst : Stands st .trailer count bytes p)
    (hends : findFrom crlf w p = some i) (hne : p < i) (hcounted : count < kMaxChunkTrailerLines)
    (hfits : bytes + (i - p + 2) ≤ kMaxChunkTrailerBytes) :
    ∃ st', decodeTurn .exact w limits st = .again st' ∧
      Stands st' .trailer (count + 1) (bytes + (i - p + 2)) (i + 2) := by
  obtain ⟨hphase, rfl, rfl, rfl⟩ := hst
  have hgoes : GoesOn w limits st _ := .trailer hphase hends (Nat.ne_of_gt hne) (by omega)
  exact ⟨_, hgoes.turn_eq hsound, hphase, rfl, rfl, rfl⟩

end

/-- The decoder comes to every line of the text within the limits. -/
theorem LineAt.passes (h : LineAt limits w kind count bytes p) :
    ∃ st, Passes (decodeTurn .exact w limits) (resume 0 {}) st ∧ Stands st kind count bytes p := by
  induction h with
  | first => exact ⟨_, .refl, rfl, rfl, rfl, rfl, rfl, rfl⟩
  | @chunk count bytes p i size hline hends hspells hpos hcounted hfits hclosed ih =>
    obtain ⟨st, hpasses, hst⟩ := ih
    have hsound := (placed_of_passes hpasses).2
    obtain ⟨st₁, hturn₁, hst₁⟩ :=
      passes_data hsound ⟨hline, hends, hspells, hpos, hcounted, hfits⟩ hst
    have hsound₁ := (hsound.again hturn₁).1
    have hroom := hclosed.length_le
    rw [length_cons, length_cons, length_nil, length_drop] at hroom
    have hturn₂ := passes_dataCrlf hsound₁ hst₁ (by omega)
    have hplace : (st₁.took w size).pos = i + 2 + size := congrArg (· + size) hst₁.pos
    have hgoes : GoesOn w limits { st₁.took w size with phase := .dataCrlf } _ :=
      .closed rfl (by dsimp only; omega) (crlf_prefix_drop_iff.mp (hplace.symm ▸ hclosed))
    have hturn₃ := hgoes.turn_eq (hsound₁.again hturn₂).1
    refine ⟨_, ((hpasses.tail hturn₁).tail hturn₂).tail hturn₃, rfl, hst₁.count, ?_, ?_,
      hst₁.trailerLines, hst₁.trailerBytes⟩
    · exact congrArg (· + size) hst₁.bytes
    · exact congrArg (· + 2) hplace
  | last hline hends hspells hcounted ih =>
    obtain ⟨st, hpasses, hst⟩ := ih
    obtain ⟨st', hturn, hst'⟩ :=
      passes_last (placed_of_passes hpasses).2 hst hends hspells hcounted
    exact ⟨st', hpasses.tail hturn, hst'⟩
  | trailer hline hends hne hcounted hfits ih =>
    obtain ⟨st, hpasses, hst⟩ := ih
    obtain ⟨st', hturn, hst'⟩ :=
      passes_trailer (placed_of_passes hpasses).2 hst hends hne hcounted hfits
    exact ⟨st', hpasses.tail hturn, hst'⟩

/-- The decoder comes to the terminator of every chunk whose data are there. -/
theorem DataAt.passes (h : DataAt limits w count bytes p i size) (hroom : i + 2 + size ≤ w.length) :
    ∃ st, Passes (decodeTurn .exact w limits) (resume 0 {}) st ∧ st.phase = .dataCrlf ∧
      st.pos = i + 2 + size := by
  obtain ⟨st, hpasses, hst⟩ := h.line.passes
  have hsound := (placed_of_passes hpasses).2
  obtain ⟨st₁, hturn₁, hst₁⟩ := passes_data hsound h hst
  have hturn₂ := passes_dataCrlf (hsound.again hturn₁).1 hst₁ hroom
  refine ⟨_, (hpasses.tail hturn₁).tail hturn₂, rfl, ?_⟩
  exact congrArg (· + size) hst₁.pos

/-! ## The text so far -/

/-- A terminator that is there stands in the whole text too, and the other way round. -/
theorem findFrom_take {k : Nat} (hp : p ≤ w.length) (h : findFrom crlf w p = some i)
    (hk : i + 2 ≤ k) : findFrom crlf (w.take k) p = some i := by
  obtain ⟨hle, hlen⟩ := findFrom_eq_some_le hp h
  cases hf : findFrom crlf (w.take k) p with
  | none =>
    have hreach := findFrom_extend_none (m := w.drop k) (by rw [length_take]; omega) hf
      (by rwa [take_append_drop])
    rw [length_take] at hreach
    rw [length_cons, length_cons, length_nil] at hreach hlen
    omega
  | some j =>
    have hext := findFrom_extend (by rw [length_take]; omega) hf (w.drop k)
    rw [take_append_drop, h] at hext
    exact hext.symm

theorem lineText_take {k : Nat} (hk : i ≤ k) : lineText (w.take k) p i = lineText w p i := by
  rw [lineText, lineText, drop_take, take_take, Nat.min_eq_left (by omega)]

/-- Lines that begin in a prefix of the text are lines of the prefix. -/
theorem LineAt.take {k : Nat} (h : LineAt limits w kind count bytes p) (hk : p ≤ k) :
    LineAt limits (w.take k) kind count bytes p := by
  induction h with
  | first => exact .first
  | @chunk count bytes p i size hline hends hspells hpos hcounted hfits hclosed ih =>
    have hle := (findFrom_eq_some_le hline.le_length hends).1
    refine .chunk (ih (by omega)) (findFrom_take hline.le_length hends (by omega)) ?_ hpos
      hcounted hfits ?_
    · rwa [lineText_take (by omega)]
    · rw [crlf_prefix_drop_iff] at hclosed ⊢
      rwa [getElem?_take_of_lt (by omega), getElem?_take_of_lt (by omega)]
  | last hline hends hspells hcounted ih =>
    have hle := (findFrom_eq_some_le hline.le_length hends).1
    refine .last (ih (by omega)) (findFrom_take hline.le_length hends hk) ?_ hcounted
    rwa [lineText_take (by omega)]
  | trailer hline hends hne hcounted hfits ih =>
    have hle := (findFrom_eq_some_le hline.le_length hends).1
    exact .trailer (ih (by omega)) (findFrom_take hline.le_length hends hk) hne hcounted hfits

end Conflux.Http.Chunked

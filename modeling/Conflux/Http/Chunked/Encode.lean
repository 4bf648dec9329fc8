import Conflux.Http.Chunked.Run
import Conflux.Http.Chunked.Layout

/-!
# Reading back a chunked body

A chunk on the wire is its size in hexadecimal digits, a terminator, its data and a terminator;
a last chunk of size zero and an empty trailer section end the body.
-/

namespace Conflux.Http.Chunked

open Conflux.Core List Option Ascii ChunkedDecodeState

/-- A chunk with its size spelled in hexadecimal digits, without extensions. -/
structure Chunk where
  digits : Bytes
  data : Bytes
  data_ne : data ≠ []
  spells : hexValue 0 digits = some data.length

/-- The bytes of a chunk. -/
def Chunk.wire (c : Chunk) : Bytes :=
  c.digits ++ crlf ++ c.data ++ crlf

/-- The last chunk: a spelling of zero. -/
structure LastChunk where
  digits : Bytes
  digits_ne : digits ≠ []
  spells : hexValue 0 digits = some 0

/-- The encoding of a body, with an empty trailer section. -/
def encode (chunks : List Chunk) (last : LastChunk) : Bytes :=
  chunks.flatMap Chunk.wire ++ last.digits ++ crlf ++ crlf

/-- The body of a list of chunks. -/
def content (chunks : List Chunk) : Bytes :=
  chunks.flatMap Chunk.data

/-! ## Sizes -/

variable {digits rest back : Bytes} {chunks : List Chunk} {last : LastChunk} {v : Nat}

theorem find_crlf_digits (h : hexValue 0 digits = some v) : find crlf digits = none := by
  refine find_eq_none_iff.mpr fun j hj => ?_
  have hm : cr ∈ digits.drop j := hj.subset mem_cons_self
  exact not_mem_digits h (by decide) (mem_of_mem_drop hm)

theorem parseChunkSizeLine_digits (hne : digits ≠ []) (hlen : digits.length ≤ kMaxChunkHexDigits)
    (h : hexValue 0 digits = some v) : parseChunkSizeLine digits = some v := by
  have hline : digits.length ≤ kMaxChunkSizeLineBytes := by
    unfold kMaxChunkHexDigits at hlen
    unfold kMaxChunkSizeLineBytes
    omega
  exact parseChunkSizeLine_eq_some_iff.mpr
    ⟨digits, [], (append_nil _).symm, hline, hne, hlen, h, .inl rfl⟩

theorem Chunk.digits_ne (c : Chunk) : c.digits ≠ [] := by
  intro hnil
  have hspells := c.spells
  rw [hnil] at hspells
  have hzero : c.data.length = 0 := (Option.some.inj hspells).symm
  exact c.data_ne (length_eq_zero_iff.mp hzero)

/-! ## Turns over an encoding -/

variable {raw : Bytes} {limits : DecodeLimits} {st : ChunkedDecodeState}

theorem drop_behind {pos : Nat} {x : Bytes} (h : raw.drop pos = x ++ back) :
    raw.drop (pos + x.length) = back := by
  rw [← drop_drop, h, drop_left]

/-- The turn over a size line that is spelled out in front of the decoder and is counted. -/
theorem decodeTurn_sizeLine (hne : digits ≠ []) (hlen : digits.length ≤ kMaxChunkHexDigits)
    (h : hexValue 0 digits = some v) (hsound : Sound 0 raw limits st)
    (hrest : raw.drop st.pos = digits ++ crlf ++ back) (hphase : st.phase = .sizeLine)
    (hcount : st.chunksSeen < limits.maxChunks) :
    decodeTurn .exact raw limits st =
      if v = 0 then
        .again { st with chunksSeen := st.chunksSeen + 1, pos := st.pos + digits.length + 2,
                         currentChunkSize := v, phase := .trailers }
      else if limits.maxBodySize < st.bodyBytes + v then
        .done (-2, { st with chunksSeen := st.chunksSeen + 1, pos := st.pos + digits.length + 2,
                             currentChunkSize := v })
      else
        .again { st with chunksSeen := st.chunksSeen + 1, pos := st.pos + digits.length + 2,
                         currentChunkSize := v, remaining := v, phase := .data } := by
  have hfind : findFrom crlf raw st.pos = some (st.pos + digits.length) := by
    have hterminated : find crlf (digits ++ crlf ++ back) = some digits.length := by
      have hfound := find_terminated cr_ne_lf (find_crlf_digits h) back
      simpa using hfound
    rw [findFrom, hrest, hterminated]
    simp [Nat.add_comm]
  have hline : (raw.drop st.pos).take (st.pos + digits.length - st.pos) = digits := by
    rw [hrest, Nat.add_sub_cancel_left, append_assoc, take_left]
  have hparse := parseChunkSizeLine_digits hne hlen h
  have hturn : decodeTurn .exact raw limits st = sizeLineTurn .exact raw limits st := by
    unfold decodeTurn
    rw [hphase]
  rw [hturn, sizeLineTurn_some hsound hfind, hline, if_neg (by omega), hparse]

/-- The state behind the data of a chunk and their terminator. -/
def ChunkedDecodeState.passedData (data : Bytes) (st : ChunkedDecodeState) : ChunkedDecodeState :=
  { st with
    pos := st.pos + data.length + 2
    remaining := 0
    bodyBytes := st.bodyBytes + data.length
    body := st.body ++ data
    phase := .sizeLine }

/-- Data that are there with their terminator are taken. -/
theorem ends_data_iff {data : Bytes} (hsound : Sound 0 raw limits st) (hphase : st.phase = .data)
    (hrem : st.remaining = data.length) (hrest : raw.drop st.pos = data ++ cr :: lf :: back) :
    Sound 0 raw limits (st.passedData data) ∧
      ∀ answer, Ends (decodeTurn .exact raw limits) st answer ↔
        Ends (decodeTurn .exact raw limits) (st.passedData data) answer := by
  have hlen : raw.length - st.pos = data.length + 2 + back.length := by
    have hcongr := congrArg List.length hrest
    simp only [length_drop, length_append, length_cons] at hcongr
    omega
  have htaken : (raw.drop st.pos).take data.length = data := by
    rw [hrest, take_left]
  have hcrlf : raw.drop (st.pos + data.length) = cr :: lf :: back := drop_behind hrest
  have hcr : raw[st.pos + data.length]? = some cr := by
    rw [← List.head?_drop, hcrlf]
    rfl
  have hlf : raw[st.pos + data.length + 1]? = some lf := by
    rw [← List.head?_drop, ← drop_drop, hcrlf]
    rfl
  have hfirst := (GoesOn.data hphase (by omega)).turn_eq hsound
  rw [hrem] at hfirst
  obtain ⟨hsound₁, -⟩ := hsound.again hfirst
  have hpos : (st.took raw data.length).pos = st.pos + data.length := rfl
  have hgoes : GoesOn raw limits { st.took raw data.length with phase := .dataCrlf } _ :=
    .closed rfl (by dsimp only; omega) ⟨hcr, hlf⟩
  have hsecond : decodeTurn .exact raw limits
      { st.took raw data.length with phase := .dataCrlf } = .again (st.passedData data) := by
    rw [hgoes.turn_eq hsound₁]
    simp only [took, htaken, hrem, Nat.sub_self]
    rfl
  obtain ⟨hsound₂, -⟩ := hsound₁.again hsecond
  refine ⟨hsound₂, fun answer => ?_⟩
  rw [ends_again_iff hfirst, ends_again_iff hsecond]

/-- The state behind a chunk. -/
def ChunkedDecodeState.passed (c : Chunk) (st : ChunkedDecodeState) : ChunkedDecodeState :=
  { st with
    pos := st.pos + c.wire.length
    chunksSeen := st.chunksSeen + 1
    currentChunkSize := c.data.length
    remaining := 0
    bodyBytes := st.bodyBytes + c.data.length
    body := st.body ++ c.data
    phase := .sizeLine }

/-- A chunk that fits is taken: the decoder goes on behind it. -/
theorem ends_chunk_iff (c : Chunk) (hlen : c.digits.length ≤ kMaxChunkHexDigits)
    (hsound : Sound 0 raw limits st) (hrest : raw.drop st.pos = c.wire ++ back)
    (hphase : st.phase = .sizeLine) (hcount : st.chunksSeen < limits.maxChunks)
    (hfits : st.bodyBytes + c.data.length ≤ limits.maxBodySize) :
    Sound 0 raw limits (st.passed c) ∧
      ∀ answer, Ends (decodeTurn .exact raw limits) st answer ↔
        Ends (decodeTurn .exact raw limits) (st.passed c) answer := by
  have hdata : c.data.length ≠ 0 := fun hzero => c.data_ne (length_eq_zero_iff.mp hzero)
  have hline : raw.drop st.pos = c.digits ++ crlf ++ (c.data ++ cr :: lf :: back) := by
    rw [hrest]
    simp [Chunk.wire]
  have hfirst := decodeTurn_sizeLine c.digits_ne hlen c.spells hsound hline hphase hcount
  rw [if_neg hdata, if_neg (Nat.not_lt.mpr hfits)] at hfirst
  obtain ⟨hsound₁, -⟩ := hsound.again hfirst
  have hbehind : raw.drop (st.pos + c.digits.length + 2) = c.data ++ cr :: lf :: back := by
    have hdrop := drop_behind hline
    rwa [length_append, ← add_assoc] at hdrop
  obtain ⟨hsound₂, hends⟩ := ends_data_iff hsound₁ rfl rfl hbehind
  have hpassed : passedData c.data
      { st with chunksSeen := st.chunksSeen + 1, pos := st.pos + c.digits.length + 2,
                currentChunkSize := c.data.length, remaining := c.data.length, phase := .data } =
      st.passed c := by
    have hwire : st.pos + c.digits.length + 2 + c.data.length + 2 = st.pos + c.wire.length := by
      simp only [Chunk.wire, length_append, length_cons, length_nil]
      omega
    rw [passedData, passed, hwire]
  rw [hpassed] at hsound₂ hends
  refine ⟨hsound₂, fun answer => ?_⟩
  rw [ends_again_iff hfirst]
  exact hends answer

/-- A chunk that does not fit is too large. -/
theorem ends_chunk_tooLarge (c : Chunk) (hlen : c.digits.length ≤ kMaxChunkHexDigits)
    (hsound : Sound 0 raw limits st) (hrest : raw.drop st.pos = c.wire ++ back)
    (hphase : st.phase = .sizeLine) (hcount : st.chunksSeen < limits.maxChunks)
    (hlarge : limits.maxBodySize < st.bodyBytes + c.data.length) :
    ∃ st', Ends (decodeTurn .exact raw limits) st (-2, st') := by
  have hdata : c.data.length ≠ 0 := fun hzero => c.data_ne (length_eq_zero_iff.mp hzero)
  have hline : raw.drop st.pos = c.digits ++ crlf ++ (c.data ++ crlf ++ back) := by
    rw [hrest]
    simp [Chunk.wire]
  have hfirst := decodeTurn_sizeLine c.digits_ne hlen c.spells hsound hline hphase hcount
  rw [if_neg hdata, if_pos hlarge] at hfirst
  exact ⟨_, .done hfirst⟩

/-- The last chunk and the empty trailer section end the body. -/
theorem ends_last (last : LastChunk) (hlen : last.digits.length ≤ kMaxChunkHexDigits)
    (hsound : Sound 0 raw limits st)
    (hrest : raw.drop st.pos = last.digits ++ crlf ++ (crlf ++ rest))
    (hphase : st.phase = .sizeLine) (hcount : st.chunksSeen < limits.maxChunks) :
    ∃ st', Ends (decodeTurn .exact raw limits) st
        (Int.ofNat (st.pos + last.digits.length + 4), st') ∧ st'.body = st.body := by
  have hfirst :=
    decodeTurn_sizeLine last.digits_ne hlen last.spells hsound hrest hphase hcount
  rw [if_pos rfl] at hfirst
  obtain ⟨hsound₁, -⟩ := hsound.again hfirst
  have hbehind : raw.drop (st.pos + last.digits.length + 2) = crlf ++ rest := by
    have hdrop := drop_behind hrest
    rwa [length_append, ← add_assoc] at hdrop
  have hempty : findFrom crlf raw (st.pos + last.digits.length + 2) =
      some (st.pos + last.digits.length + 2) := by
    rw [findFrom, hbehind, find_of_isPrefix (prefix_append crlf rest)]
    simp
  have hstart := hsound.bodyStart_eq
  simp only [hstart] at hfirst
  exact ⟨_, .again hfirst (.done (trailersTurn_empty hempty)), rfl⟩

/-! ## Whole encodings -/

theorem content_cons (c : Chunk) (chunks : List Chunk) :
    content (c :: chunks) = c.data ++ content chunks := rfl

/-- Chunks that fit are taken one after the other, then the last one. -/
theorem ends_encode (hdigits : ∀ c ∈ chunks, c.digits.length ≤ kMaxChunkHexDigits)
    (hlast : last.digits.length ≤ kMaxChunkHexDigits) (hsound : Sound 0 raw limits st)
    (hrest : raw.drop st.pos = encode chunks last ++ rest) (hphase : st.phase = .sizeLine)
    (hcount : st.chunksSeen + chunks.length < limits.maxChunks)
    (hfits : st.bodyBytes + (content chunks).length ≤ limits.maxBodySize) :
    ∃ st', Ends (decodeTurn .exact raw limits) st
        (Int.ofNat (st.pos + (encode chunks last).length), st') ∧
      st'.body = st.body ++ content chunks := by
  induction chunks generalizing st with
  | nil =>
    have hrest' : raw.drop st.pos = last.digits ++ crlf ++ (crlf ++ rest) := by
      rw [hrest]
      simp [encode]
    obtain ⟨st', hends, hbody⟩ := ends_last last hlast hsound hrest' hphase hcount
    have hlen : st.pos + (encode [] last).length = st.pos + last.digits.length + 4 := by
      simp [encode, add_assoc]
    rw [hlen]
    exact ⟨st', hends, by rw [hbody]; simp [content]⟩
  | cons c chunks ih =>
    obtain ⟨hc, hchunks⟩ := forall_mem_cons.mp hdigits
    have hsplit : raw.drop st.pos = c.wire ++ (encode chunks last ++ rest) := by
      rw [hrest]
      simp [encode]
    rw [content_cons, length_append] at hfits
    rw [length_cons] at hcount
    obtain ⟨hsound', hiff⟩ :=
      ends_chunk_iff c hc hsound hsplit hphase (by omega) (by omega)
    have hbehind : raw.drop (st.passed c).pos = encode chunks last ++ rest := drop_behind hsplit
    obtain ⟨st', hends, hbody⟩ := ih hchunks hsound' hbehind rfl (by dsimp only [passed]; omega)
      (by dsimp only [passed]; omega)
    have hlen : (st.passed c).pos + (encode chunks last).length =
        st.pos + (encode (c :: chunks) last).length := by
      simp only [passed, encode, flatMap_cons, length_append]
      omega
    rw [hlen] at hends
    refine ⟨st', (hiff _).mpr hends, hbody.trans ?_⟩
    rw [content_cons, ← append_assoc]
    rfl

/-- Chunks that together do not fit are too large. -/
theorem ends_encode_tooLarge (hdigits : ∀ c ∈ chunks, c.digits.length ≤ kMaxChunkHexDigits)
    (hsound : Sound 0 raw limits st) (hrest : raw.drop st.pos = encode chunks last ++ rest)
    (hphase : st.phase = .sizeLine) (hcount : st.chunksSeen + chunks.length ≤ limits.maxChunks)
    (hlarge : limits.maxBodySize < st.bodyBytes + (content chunks).length) :
    ∃ st', Ends (decodeTurn .exact raw limits) st (-2, st') := by
  induction chunks generalizing st with
  | nil =>
    have hle := hsound.body_le
    simp only [content, flatMap_nil, length_nil] at hlarge
    omega
  | cons c chunks ih =>
    obtain ⟨hc, hchunks⟩ := forall_mem_cons.mp hdigits
    have hsplit : raw.drop st.pos = c.wire ++ (encode chunks last ++ rest) := by
      rw [hrest]
      simp [encode]
    rw [content_cons, length_append] at hlarge
    rw [length_cons] at hcount
    by_cases hfits : st.bodyBytes + c.data.length ≤ limits.maxBodySize
    · obtain ⟨hsound', hiff⟩ := ends_chunk_iff c hc hsound hsplit hphase (by omega) hfits
      have hbehind : raw.drop (st.passed c).pos = encode chunks last ++ rest := drop_behind hsplit
      obtain ⟨st', hends⟩ := ih hchunks hsound' hbehind rfl (by dsimp only [passed]; omega)
        (by dsimp only [passed]; omega)
      exact ⟨st', (hiff _).mpr hends⟩
    · exact ends_chunk_tooLarge c hc hsound hsplit hphase (by omega) (Nat.not_le.mp hfits)

/-- The answer of a decode that begins. -/
theorem decodeChunked_eq_of_ends {data : Bytes} {answer : Int × ChunkedDecodeState}
    (h : Ends (decodeTurn .exact data limits) (resume 0 {}) answer) :
    decodeChunked .exact data limits = (answer.1, if 0 < answer.1 then answer.2.body else []) := by
  have hsound : Sound 0 data limits (resume 0 {}) := sound_fresh limits (Nat.zero_le _)
  obtain ⟨answer', hloop, hends⟩ := hsound.exists_ends
  have heq : answer' = answer := hends.unique h
  unfold decodeChunked decodeChunkedIncremental
  simp only [hloop, heq, getD_some]

/-- Chunks that fit come back with the length of their encoding. -/
theorem decodeChunked_encode_fits (hdigits : ∀ c ∈ chunks, c.digits.length ≤ kMaxChunkHexDigits)
    (hlast : last.digits.length ≤ kMaxChunkHexDigits) (hcount : chunks.length < limits.maxChunks)
    (hfits : (content chunks).length ≤ limits.maxBodySize) :
    decodeChunked .exact (encode chunks last ++ rest) limits =
      (Int.ofNat (encode chunks last).length, content chunks) := by
  have hsound : Sound 0 (encode chunks last ++ rest) limits (resume 0 {}) :=
    sound_fresh limits (Nat.zero_le _)
  have hstart : (encode chunks last ++ rest).drop (resume 0 {}).pos =
      encode chunks last ++ rest := rfl
  have hseen : (resume 0 {}).chunksSeen + chunks.length = chunks.length := Nat.zero_add _
  have hbytes : (resume 0 {}).bodyBytes + (content chunks).length = (content chunks).length :=
    Nat.zero_add _
  obtain ⟨st', hends, hbody⟩ := ends_encode hdigits hlast hsound hstart rfl
    (by rw [hseen]; exact hcount) (by rw [hbytes]; exact hfits)
  have hpos : (resume 0 {}).pos + (encode chunks last).length = (encode chunks last).length :=
    Nat.zero_add _
  rw [hpos] at hends
  have hlen : 0 < Int.ofNat (encode chunks last).length := by
    apply Int.ofNat_lt.mpr
    simp only [encode, length_append, length_cons]
    omega
  rw [decodeChunked_eq_of_ends hends]
  simp only [if_pos hlen, hbody]
  rfl

/-- Chunks that do not fit are reported as too large. -/
theorem decodeChunked_encode_tooLarge
    (hdigits : ∀ c ∈ chunks, c.digits.length ≤ kMaxChunkHexDigits)
    (hcount : chunks.length < limits.maxChunks)
    (hlarge : limits.maxBodySize < (content chunks).length) :
    decodeChunked .exact (encode chunks last ++ rest) limits = (-2, []) := by
  have hsound : Sound 0 (encode chunks last ++ rest) limits (resume 0 {}) :=
    sound_fresh limits (Nat.zero_le _)
  have hseen : (resume 0 {}).chunksSeen + chunks.length = chunks.length := Nat.zero_add _
  have hbytes : (resume 0 {}).bodyBytes + (content chunks).length = (content chunks).length :=
    Nat.zero_add _
  obtain ⟨st', hends⟩ := ends_encode_tooLarge hdigits hsound rfl rfl
    (by rw [hseen]; exact Nat.le_of_lt hcount) (by rw [hbytes]; exact hlarge)
  rw [decodeChunked_eq_of_ends hends]
  rfl

/-- Chunked bodies are read back. For chunks whose sizes are spelled with at most sixteen digits,
fewer than the allowed number, followed by anything: the data come back and exactly the encoding
is consumed if they fit the body limit, and else the body is reported as too large. And along
every decode of whatever bytes the body stays within its limit, and every size that is computed is
in range. -/
theorem decodeChunked_encode (chunks : List Chunk) (last : LastChunk) (rest : Bytes)
    (limits : DecodeLimits) :
    ((∀ c ∈ chunks, c.digits.length ≤ kMaxChunkHexDigits) →
      last.digits.length ≤ kMaxChunkHexDigits → chunks.length < limits.maxChunks →
        ((content chunks).length ≤ limits.maxBodySize →
          decodeChunked .exact (encode chunks last ++ rest) limits =
            (Int.ofNat (encode chunks last).length, content chunks)) ∧
        (limits.maxBodySize < (content chunks).length →
          decodeChunked .exact (encode chunks last ++ rest) limits = (-2, []))) ∧
    ∀ (A : SizeArith) (bodyStart : Nat) (raw : Bytes) (st : ChunkedDecodeState),
      A.RightInRange → limits.maxBodySize < 2 ^ 64 → Reached A bodyStart limits raw st →
        st.body.length = st.bodyBytes ∧ st.bodyBytes ≤ limits.maxBodySize ∧
          decodeTurn A raw limits st = decodeTurn .exact raw limits st := by
  refine ⟨fun hdigits hlast hcount => ⟨?_, ?_⟩, ?_⟩
  · exact decodeChunked_encode_fits hdigits hlast hcount
  · exact decodeChunked_encode_tooLarge hdigits hcount
  · intro A bodyStart raw st hA hlimit hreached
    obtain ⟨hst, hraw⟩ := hreached.sound hA hlimit
    exact ⟨hst.body_length, hst.body_le, hst.decodeTurn_rightInRange hA hraw hlimit⟩

/-- A chunk of one byte. -/
def oneByteChunk : Chunk :=
  ⟨[0x31], [0x78], by decide, by decide⟩

/-- A chunk of three bytes with a leading zero in its size. -/
def threeByteChunk : Chunk :=
  ⟨[0x30, 0x33], [0x0D, 0x0A, 0x30], by decide, by decide⟩

/-- The usual last chunk. -/
def zeroChunk : LastChunk :=
  ⟨[0x30], by decide, by decide⟩

/-- Three chunks, one of which looks like a line, with a byte of the next request; within the
limit and over it. -/
theorem decodeChunked_encode_threeChunks :
    decodeChunked .exact
        (encode [oneByteChunk, threeByteChunk, oneByteChunk] zeroChunk ++ [0x7A]) ⟨5, 4⟩ =
      (26, [0x78, 0x0D, 0x0A, 0x30, 0x78]) ∧
    decodeChunked .exact
        (encode [oneByteChunk, threeByteChunk, oneByteChunk] zeroChunk ++ [0x7A]) ⟨4, 4⟩ =
      (-2, []) ∧
    decodeTurn .machine (encode [oneByteChunk] zeroChunk) ⟨1, 0⟩ (resume 0 {}) =
      decodeTurn .exact (encode [oneByteChunk] zeroChunk) ⟨1, 0⟩ (resume 0 {}) :=
  have hreached : Reached .machine 0 ⟨1, 0⟩ (encode [oneByteChunk] zeroChunk) (resume 0 {}) :=
    .start (Nat.zero_le _) (by unfold Addressable; decide)
  ⟨((decodeChunked_encode [oneByteChunk, threeByteChunk, oneByteChunk] zeroChunk [0x7A]
      ⟨5, 4⟩).1 (by decide) (by decide) (by decide)).1 (by decide),
    ((decodeChunked_encode [oneByteChunk, threeByteChunk, oneByteChunk] zeroChunk [0x7A]
      ⟨4, 4⟩).1 (by decide) (by decide) (by decide)).2 (by decide),
    ((decodeChunked_encode [] zeroChunk [] ⟨1, 0⟩).2 .machine 0 _ _
      SizeArith.machine_rightInRange (by decide) hreached).2.2⟩

/-- The chunk of one byte with its size spelled with seventeen digits. -/
def longSpellingChunk : Chunk :=
  ⟨List.replicate 16 0x30 ++ [0x31], [0x78], by decide, by decide⟩

/-- A size with more than sixteen digits is refused, and so is a chunk beyond the allowed
number. -/
theorem decodeChunked_longSpelling :
    decodeChunked .exact (encode [longSpellingChunk] zeroChunk) ⟨8, 8⟩ = (-1, []) ∧
      decodeChunked .exact (encode [oneByteChunk] zeroChunk) ⟨8, 1⟩ = (-1, []) := by
  decide +kernel

end Conflux.Http.Chunked

import Conflux.Json.Reader.Extend
import Conflux.Json.Stream.Model

/-!
# Chunks do not matter

A request before the end of the stream may be answered too early, with an error that more
bytes could have resolved. Whether that can happen at a cut is told by the bytes in front of
the cut: the five tests of the stream reader see to every open error of the pull reader but
for a literal behind a separator, a pair of surrogates in the middle of its low half, a number
that is too long, a nesting limit that is reached, and comments.
-/

namespace Conflux.Json

open Conflux.Core List JsonReader Ascii

/-- The start of a literal at the end, behind a separator. -/
def literalBehindSeparator (w : Bytes) : Bool :=
  [1, 2, 3, 4].any fun k =>
    literalCut (w.drop (w.length - k)) && (w.take (w.length - k)).getLast?.any isSeparator

/-- The escape of a high surrogate and four or five bytes of the next escape at the end. -/
def surrogatesCut (w : Bytes) : Bool :=
  [4, 5].any fun k =>
    let high := (w.take (w.length - k)).drop (w.length - k - 6)
    high.length = 6 && high.take 2 = [backslash, lowerU] &&
      (hex4 (high.drop 2)).any isHighSurrogate &&
      (w.drop (w.length - k)).take 2 = [backslash, lowerU]

/-- A byte of a number. -/
def isNumberByte (b : UInt8) : Bool :=
  isDigit b || b = minus || b = plus || b = dot || b = lowerE || b = upperE

/-- More bytes of numbers at the end than a number may have. -/
def longNumberBehind (w : Bytes) : Bool :=
  kMaxNumberLexemeLen < (w.reverse.takeWhile isNumberByte).length

/-- Whether a stream may be cut behind these bytes: no literal is cut behind a separator, no pair
of surrogates in its low half, no number that is too long; the opening brackets are within the
nesting limit; there are no comments. -/
def safeCut (opts : JsonParseOptions) (w : Bytes) : Bool :=
  !literalBehindSeparator w && !surrogatesCut w && !longNumberBehind w &&
    !opts.maxDepth.exceeds (openings w) kDefaultMaxDepth &&
    !(opts.mode = .json5 && w.contains slash)

section

variable {opts : JsonParseOptions} {w q v : Bytes}

theorem NumberText.isNumberByte {lex : Bytes} (h : NumberText lex) : ∀ b ∈ lex, isNumberByte b := by
  have hdigits {ds : Bytes} (hds : Digits ds) : ∀ b ∈ ds, Json.isNumberByte b := fun b hb => by
    simp [Json.isNumberByte, hds.isDigit b hb]
  obtain ⟨hsign, ⟨hds, -⟩, hfrac, hexp⟩ := h
  simp only [forall_mem_append]
  refine ⟨⟨⟨?_, hdigits hds⟩, ?_⟩, ?_⟩
  · obtain rfl | rfl := hsign
    · exact forall_mem_nil _
    · exact forall_mem_singleton.mpr rfl
  · obtain rfl | ⟨ds, hds, rfl⟩ := hfrac
    · simp
    · exact forall_mem_cons.mpr ⟨by decide, hdigits hds⟩
  · obtain rfl | ⟨e, s, ds, he, hs, hds, rfl⟩ := hexp
    · simp
    refine forall_mem_cons.mpr ⟨?_, forall_mem_append.mpr ⟨?_, hdigits hds⟩⟩
    · obtain rfl | rfl := he <;> decide
    · obtain rfl | rfl | rfl := hs
      · exact forall_mem_nil _
      · exact forall_mem_singleton.mpr rfl
      · exact forall_mem_singleton.mpr rfl

end

namespace JsonStreamReader

variable {opts : JsonParseOptions} {s s' : JsonStreamReader}

/-! ## The reader over the buffer -/

/-- No error has been met, and the reader has in front of it what is left of the buffer. -/
structure Sound (s : JsonStreamReader) : Prop where
  noError : s.lastError = none
  readerNoError : s.reader.lastError = none
  within : s.reader.cur.loc.offset ≤ s.buf.length
  unread : s.reader.cur.rest = s.buf.drop s.reader.cur.loc.offset

theorem sound_empty : Sound {} := ⟨rfl, rfl, Nat.le_refl _, rfl⟩

theorem Sound.refresh (hs : s.Sound) : s.refreshReaderInput = s := by
  obtain ⟨buf, closed, lastError, reader⟩ := s
  obtain ⟨⟨loc, rest⟩, stack, kt, st, nv, bv, le, vs⟩ := reader
  have hrest := hs.unread
  dsimp only at hrest
  subst hrest
  rfl

variable {r : JsonReader}

/-- What the reader has passed over is part of the buffer. -/
theorem Sound.reads (hs : s.Sound) {w : Bytes} (hw : s.reader.cur.Reads w r.cur)
    (herr : r.lastError = none) : Sound { s with reader := r } := by
  obtain ⟨hrest, hoffset⟩ := hw
  have hlen := congrArg List.length hs.unread
  rw [hrest, length_append, length_drop] at hlen
  have hwithin := hs.within
  refine ⟨hs.noError, herr, ?_, ?_⟩
  · dsimp only
    omega
  · dsimp only
    rw [hoffset, ← drop_drop, ← hs.unread, hrest, drop_left]

/-- A state of an open stream that has met no error. Each open container has its bracket in
the buffer. -/
structure Open (s : JsonStreamReader) : Prop extends Sound s where
  notClosed : s.closed = false
  nested : s.reader.stack.length ≤ openings (s.buf.take s.reader.cur.loc.offset)

theorem Open.reads (hs : s.Open) {w : Bytes} (hw : s.reader.cur.Reads w r.cur)
    (hdepth : r.stack.length ≤ s.reader.stack.length + openings w) (herr : r.lastError = none) :
    Open { s with reader := r } := by
  refine ⟨hs.toSound.reads hw herr, hs.notClosed, ?_⟩
  have hrest := hw.1
  have htake : s.buf.take r.cur.loc.offset = s.buf.take s.reader.cur.loc.offset ++ w := by
    rw [hw.2, take_add, ← hs.unread, hrest, take_left]
  have hnested := hs.nested
  dsimp only
  rw [htake, openings, countP_append]
  unfold openings at hnested hdepth
  omega

/-- At a safe cut no comment is to come. -/
theorem Open.plain (hs : s.Open) (hsafe : safeCut opts s.buf) :
    Plain opts.mode s.reader.cur.rest := by
  simp only [safeCut, Bool.and_eq_true, Bool.not_eq_true', Bool.and_eq_false_iff,
    decide_eq_false_iff_not] at hsafe
  cases hmode : opts.mode with
  | strict => exact .inl rfl
  | json5 =>
    right
    rw [hs.unread]
    intro hmem
    have hslash := hsafe.2.resolve_left (by simp [hmode])
    simp [mem_of_mem_drop hmem] at hslash

section

variable {e : JsonError} {w : Bytes}

theorem Sound.left (hs : s.Sound) (hw : s.reader.cur.Reads w r.cur) :
    r.cur.rest = s.buf.drop r.cur.loc.offset ∧
      r.cur.loc.offset + r.cur.rest.length = s.buf.length := by
  have hreads : Sound { s with reader := { r with lastError := none } } := hs.reads hw rfl
  have hunread : r.cur.rest = s.buf.drop r.cur.loc.offset := hreads.unread
  have hwithin : r.cur.loc.offset ≤ s.buf.length := hreads.within
  refine ⟨hunread, ?_⟩
  rw [hunread, length_drop]
  omega

end

end JsonStreamReader

end Conflux.Json

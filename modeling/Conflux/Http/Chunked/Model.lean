import Conflux.Http.Basic
import Conflux.Core.Loop

/-!
# The chunked body decoder

`decodeChunkedIncremental` goes on from a saved state over a receive buffer that has grown
since; its answer is the number of bytes of the encoded body, 0 for a request for more, -1 for
a malformed body and -2 for one that is too large. Sizes are natural numbers; the two
operations on them that can leave the range of a size are a parameter, so that the decoder can
also be run with the arithmetic of the machine.
-/

namespace Conflux.Http.Chunked

open Conflux.Core

/-- Addition and subtraction of sizes. -/
structure SizeArith where
  add : Nat → Nat → Nat
  sub : Nat → Nat → Nat

/-- Sizes as natural numbers. -/
def SizeArith.exact : SizeArith where
  add := fun a b => a + b
  sub := fun a b => a - b

/-- Sizes as words of 64 bits. -/
def SizeArith.machine : SizeArith where
  add := fun a b => (a + b) % 2 ^ 64
  sub := fun a b => (a + 2 ^ 64 - b) % 2 ^ 64

/-- The most digits of a size. -/
def kMaxChunkHexDigits : Nat := 16

/-- The longest size line. -/
def kMaxChunkSizeLineBytes : Nat := 256

/-- The most lines of the trailers. -/
def kMaxChunkTrailerLines : Nat := 64

/-- The most bytes of the trailers. -/
def kMaxChunkTrailerBytes : Nat := 8192

/-- The digits of a size line, with the overflow checks of the two operations. -/
def accumulateDigits : Nat → Bytes → Option Nat
  | chunkSize, [] => some chunkSize
  | chunkSize, c :: digits =>
    match hexCharToInt c with
    | none => none
    | some d =>
      if 2 ^ 64 ≤ chunkSize * 16 then none
      else if 2 ^ 64 ≤ chunkSize * 16 + d then none
      else accumulateDigits (chunkSize * 16 + d) digits

/-- The size on a size line. -/
def parseChunkSizeLine (sizeLineRaw : Bytes) : Option Nat :=
  if kMaxChunkSizeLineBytes < sizeLineRaw.length then none
  else
    let sizeDigits := match find [Ascii.semicolon] sizeLineRaw with
      | some semi => sizeLineRaw.take semi
      | none => sizeLineRaw
    if sizeDigits.isEmpty || kMaxChunkHexDigits < sizeDigits.length then none
    else accumulateDigits 0 sizeDigits

/-- The two counters come back also when the line is refused. -/
def acceptChunkTrailerLine (A : SizeArith) (lineBytes trailerLines trailerBytes : Nat) :
    Bool × Nat × Nat :=
  let trailerLines := A.add trailerLines 1
  if kMaxChunkTrailerLines < trailerLines then (false, trailerLines, trailerBytes)
  else if kMaxChunkTrailerBytes < lineBytes ∨
      A.sub kMaxChunkTrailerBytes lineBytes < trailerBytes then
    (false, trailerLines, trailerBytes)
  else (true, trailerLines, A.add trailerBytes lineBytes)

/-- What comes next in the body. -/
inductive ChunkedDecodePhase where
  | sizeLine
  | data
  | dataCrlf
  | trailers
  | complete
  deriving DecidableEq, Repr

/-- The saved state of the decoder. -/
structure ChunkedDecodeState where
  active : Bool := false
  bodyStart : Nat := 0
  pos : Nat := 0
  chunksSeen : Nat := 0
  currentChunkSize : Nat := 0
  remaining : Nat := 0
  trailerLines : Nat := 0
  trailerBytes : Nat := 0
  bodyBytes : Nat := 0
  phase : ChunkedDecodePhase := .sizeLine
  body : Bytes := []
  deriving DecidableEq, Repr

/-- One turn of the decoder: a new state, or an answer with the state that is saved. -/
abbrev DecodeTurn := Turn ChunkedDecodeState (Int × ChunkedDecodeState)

/-- The limits of one decode. -/
structure DecodeLimits where
  maxBodySize : Nat
  maxChunks : Nat
  deriving DecidableEq, Repr

section

variable (A : SizeArith) (raw : Bytes) (limits : DecodeLimits) (st : ChunkedDecodeState)

/-- A size line: the last chunk leads to the trailers, any other to its data. -/
def sizeLineTurn : DecodeTurn :=
  match findFrom crlf raw st.pos with
  | none =>
    if kMaxChunkSizeLineBytes < A.sub raw.length st.pos then .done (-1, st) else .done (0, st)
  | some eol =>
    let line := (raw.drop st.pos).take (A.sub eol st.pos)
    let st := { st with chunksSeen := A.add st.chunksSeen 1 }
    if limits.maxChunks < st.chunksSeen then .done (-1, st)
    else match parseChunkSizeLine line with
      | none => .done (-1, st)
      | some chunkSize =>
        let st := { st with pos := A.add eol 2, currentChunkSize := chunkSize }
        if chunkSize = 0 then .again { st with phase := .trailers }
        else if limits.maxBodySize < st.bodyBytes ∨
            A.sub limits.maxBodySize st.bodyBytes < chunkSize then .done (-2, st)
        else .again { st with remaining := chunkSize, phase := .data }

/-- The data of a chunk, as far as it has been received. -/
def dataTurn : DecodeTurn :=
  if raw.length ≤ st.pos then .done (0, st)
  else
    let available := min st.remaining (A.sub raw.length st.pos)
    let st := if 0 < available then
        { st with
          body := st.body ++ (raw.drop st.pos).take available
          pos := A.add st.pos available
          remaining := A.sub st.remaining available
          bodyBytes := A.add st.bodyBytes available }
      else st
    if 0 < st.remaining then .done (0, st) else .again { st with phase := .dataCrlf }

/-- The terminator behind the data of a chunk. -/
def dataCrlfTurn : DecodeTurn :=
  if A.sub raw.length st.pos < 2 then .done (0, st)
  else if raw[st.pos]? ≠ some Ascii.cr ∨ raw[A.add st.pos 1]? ≠ some Ascii.lf then .done (-1, st)
  else .again { st with pos := A.add st.pos 2, phase := .sizeLine }

/-- A trailer line; an empty one ends the body. -/
def trailersTurn : DecodeTurn :=
  match findFrom crlf raw st.pos with
  | none =>
    if kMaxChunkTrailerBytes < A.add (A.sub raw.length st.pos) 2 then .done (-1, st)
    else .done (0, st)
  | some next =>
    if next = st.pos then
      let st := { st with pos := A.add st.pos 2, phase := .complete }
      .done (Int.ofNat (A.sub st.pos st.bodyStart), st)
    else
      let lineBytes := A.add (A.sub next st.pos) 2
      match acceptChunkTrailerLine A lineBytes st.trailerLines st.trailerBytes with
      | (false, trailerLines, trailerBytes) =>
        .done (-1, { st with trailerLines := trailerLines, trailerBytes := trailerBytes })
      | (true, trailerLines, trailerBytes) =>
        .again { st with trailerLines := trailerLines, trailerBytes := trailerBytes,
                         pos := A.add next 2 }

/-- One turn of the loop over the phases. -/
def decodeTurn : DecodeTurn :=
  match st.phase with
  | .sizeLine => sizeLineTurn A raw limits st
  | .data => dataTurn A raw st
  | .dataCrlf => dataCrlfTurn A raw st
  | .trailers => trailersTurn A raw st
  | .complete => .done (Int.ofNat (A.sub st.pos st.bodyStart), st)

end

/-- The state a decode goes on from: a fresh one, unless this body has been started. -/
def resume (bodyStart : Nat) (st : ChunkedDecodeState) : ChunkedDecodeState :=
  if !st.active || st.bodyStart != bodyStart then
    { active := true, bodyStart := bodyStart, pos := bodyStart }
  else st

/-- The decoder over a receive buffer. Every turn that goes on moves ahead, so its size bounds the
turns. -/
def decodeChunkedIncremental (A : SizeArith) (raw : Bytes) (bodyStart : Nat)
    (limits : DecodeLimits) (st : ChunkedDecodeState) : Int × ChunkedDecodeState :=
  let st := resume bodyStart st
  (loop (decodeTurn A raw limits) (raw.length + 1) st).getD (0, st)

/-- The whole body at once: the answer, and the decoded body of a complete one. -/
def decodeChunked (A : SizeArith) (data : Bytes) (limits : DecodeLimits) : Int × Bytes :=
  let (rc, st) := decodeChunkedIncremental A data 0 limits {}
  (rc, if 0 < rc then st.body else [])

end Conflux.Http.Chunked

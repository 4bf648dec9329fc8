import Conflux.Json.Reader.Next

/-!
# The stream reader

The stream reader buffers the chunks that it is fed and runs the pull reader over the
buffer. Where the pull reader fails for want of bytes, the stream reader takes it back to
where it was and answers that there is no event yet. Which failures are of this kind is
decided by the code of the error and by the bytes at the end of the buffer.
-/

namespace Conflux.Json

open Conflux.Core

/-- The state of a stream reader. -/
structure JsonStreamReader where
  /-- All bytes fed. -/
  buf : Bytes := []
  /-- Whether the input is complete. -/
  closed : Bool := false
  /-- The error that has been met, if any. -/
  lastError : Option JsonError := none
  /-- The reader over the buffer. -/
  reader : JsonReader := .ofInput []
  deriving DecidableEq, Repr

/-- Give the reader another input. It stays at its offset. -/
def JsonReader.replaceInput (r : JsonReader) (input : Bytes) : JsonReader :=
  { r with cur := ⟨r.cur.loc, input.drop r.cur.loc.offset⟩ }

namespace JsonStreamReader

/-- Show the whole buffer to the reader. -/
def refreshReaderInput (s : JsonStreamReader) : JsonStreamReader :=
  { s with reader := s.reader.replaceInput s.buf }

/-- The size that the buffer may have. -/
def configuredCap (opts : JsonParseOptions) : Nat :=
  let hardCap := kU32Ceiling - 1
  match opts.maxInputSize with
  | .unlimited => hardCap
  | .default_ => min kDefaultMaxInput hardCap
  | .bound v => min v hardCap

/-- An error at the place of the reader. -/
def makeStreamError (s : JsonStreamReader) (code : JsonIssueCode) (msg : String) : JsonError :=
  { code := code, source := some s.reader.cur.loc, message := msg }

/-- Whether the buffer ends in the first bytes of a literal, from a position on. -/
def tailIsPrefixOfLiteral (s : JsonStreamReader) (start : Nat) : Bool :=
  let tail := s.buf.drop start
  [Ascii.litTrue, Ascii.litFalse, Ascii.litNull].any fun text =>
    tail.length < text.length && tail.isPrefixOf text

/-- Whether the buffer ends inside the UTF-8 sequence at the place of the reader. -/
def trailingUtf8PrefixNeedsMore (s : JsonStreamReader) : Bool :=
  let pos := s.reader.cur.loc.offset
  match s.buf.drop pos with
  | [] => false
  | c :: _ => utf8SeqLen c ≠ 0 && pos + utf8SeqLen c > s.buf.length

/-- Whether an error is taken for a want of bytes, `s` being the state after it. -/
def recoverableNeedMore (s : JsonStreamReader) (checkpointPos : Nat) (e : JsonError) : Bool :=
  let pos := s.reader.cur.loc.offset
  if s.closed then false
  else if e.code = .unexpectedEof then true
  else if checkpointPos > s.buf.length then false
  else if e.code = .syntaxError ∧
      ((checkpointPos < s.buf.length ∧ s.tailIsPrefixOfLiteral checkpointPos) ∨
        pos ≥ s.buf.length) then true
  else if e.code = .invalidUnicodeEscape then pos + 4 > s.buf.length
  else if e.code = .invalidUtf8 then s.trailingUtf8PrefixNeedsMore
  else false

/-- Whether an event is held back: a number may go on behind the buffer. -/
def eventNeedsMoreBeforeEmit (s : JsonStreamReader) (e : Event) : Bool :=
  !s.closed && e = .numberValue && s.reader.cur.loc.offset = s.buf.length

/-- Add a chunk to the buffer. -/
def feed (opts : JsonParseOptions) (s : JsonStreamReader) (chunk : Bytes) :
    Except JsonError Unit × JsonStreamReader :=
  match s.lastError with
  | some e => (.error e, s)
  | none =>
    if s.closed then (.error (s.makeStreamError .invalidValue "cannot feed after close"), s)
    else
      let cap := configuredCap opts
      if s.buf.length > cap ∨ chunk.length > cap - s.buf.length then
        (.error { code := .inputTooLarge, message := "stream buffer exceeds max_input_size" }, s)
      else (.ok (), { s with buf := s.buf ++ chunk }.refreshReaderInput)

/-- Declare the input complete. -/
def close (s : JsonStreamReader) : Except JsonError Unit × JsonStreamReader :=
  match s.lastError with
  | some e => (.error e, s)
  | none => (.ok (), { s with closed := true }.refreshReaderInput)

/-- What becomes of an answer of the reader, `s` being the checkpoint in front of it. -/
def settle (s : JsonStreamReader) :
    Except JsonError (Option Event) × JsonReader →
      Except JsonError (Option Event) × JsonStreamReader
  | (.error e, r) =>
    let s' := { s with reader := r }
    if s'.recoverableNeedMore s.reader.cur.loc.offset e then (.ok none, s)
    else (.error e, { s' with lastError := some e })
  | (.ok none, r) => (.ok none, { s with reader := r })
  | (.ok (some ev), r) =>
    let s' := { s with reader := r }
    if s'.eventNeedsMoreBeforeEmit ev then (.ok none, s) else (.ok (some ev), s')

/-- The next event, or none for want of bytes. -/
def next (opts : JsonParseOptions) (s : JsonStreamReader) :
    Except JsonError (Option Event) × JsonStreamReader :=
  match s.lastError with
  | some e => (.error e, s)
  | none =>
    let s := s.refreshReaderInput
    s.settle (s.reader.next opts)

/-! ## Runs -/

/-- The next event with its payload. -/
def pull (opts : JsonParseOptions) (s : JsonStreamReader) :
    Except JsonError (Option Emitted) × JsonStreamReader :=
  withPayload (fun s e => s.reader.emitted e) (s.next opts)

/-- All events that the buffer has now. Every event passes over a byte. -/
def drainBuffer (opts : JsonParseOptions) (s : JsonStreamReader) :
    List Emitted × Outcome JsonError × JsonStreamReader :=
  drain (pull opts) (s.buf.length + 1) s

/-- Close the stream and take the events that are left. -/
def finish (opts : JsonParseOptions) (s : JsonStreamReader) :
    List Emitted × Outcome JsonError :=
  match s.close with
  | (.error e, _) => ([], .failed e)
  | (.ok (), s) =>
    let (es, o, _) := s.drainBuffer opts
    (es, o)

end JsonStreamReader

end Conflux.Json

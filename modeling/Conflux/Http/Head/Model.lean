import Conflux.Http.Basic
import Mathlib.Data.List.DropRight

/-!
# The request-head parser

`parseRequest` looks for the end of the header block in a receive buffer, then cuts the
request line and the header lines. While the end is missing the limits are applied to what
is there. The request record is filled as the parser goes, so a rejected request leaves it
partly filled.
-/

namespace Conflux.Http.Head

open Conflux.Core Ascii

/-- The answers of the parser. -/
inductive ParseStatus where
  | ok
  | incomplete
  | badRequest
  | uriTooLong
  | headerLineTooLarge
  | headerBlockTooLarge
  | tooManyHeaders
  deriving DecidableEq, Repr

/-- A request head in its parts. -/
structure ParsedRequest where
  method : Bytes := []
  target : Bytes := []
  version : Bytes := []
  headers : List (Bytes × Bytes) := []
  headerEndOffset : Nat := 0
  deriving DecidableEq, Repr

/-- The characters of a token besides letters and digits: the signs of `!#$%&'*+-.^_|~` and
the grave accent. -/
def tcharSigns : Bytes :=
  [0x21, 0x23, 0x24, 0x25, 0x26, 0x27, 0x2A, 0x2B, 0x2D, 0x2E, 0x5E, 0x5F, 0x60, 0x7C, 0x7E]

/-- The bytes of a token. -/
def isTchar (c : UInt8) : Bool :=
  tcharSigns.contains c || (0x30 ≤ c && c ≤ 0x39) || (0x61 ≤ c && c ≤ 0x7A) ||
    (0x41 ≤ c && c ≤ 0x5A)

/-- The bytes of a request target. -/
def isRequestTargetChar (c : UInt8) : Bool :=
  0x20 < c && c != del

/-- Where the parts of a head end. -/
structure HeaderBounds where
  requestLineEnd : Nat := 0
  headerStart : Nat := 0
  headerEnd : Nat := 0
  deriving DecidableEq, Repr

/-- The outcome of looking for the end of the head. -/
structure HeaderBlockResult where
  status : ParseStatus := .ok
  bounds : HeaderBounds := {}
  deriving DecidableEq, Repr

/-- The header lines received so far, from `pos` on, while the end of the block is missing. Each
round passes a line, so the size of the buffer bounds the rounds. -/
def pendingLines (raw : Bytes) (limits : ParserLimits) : Nat → Nat → Nat → ParseStatus
  | 0, _, _ => .incomplete
  | rounds + 1, headerCount, pos =>
    if pos < raw.length then
      let lineEnd := findFrom crlf raw pos
      let lineSize := match lineEnd with
        | none => raw.length - pos
        | some lineEnd => lineEnd - pos
      if limits.maxHeaderLineSize < lineSize then .headerLineTooLarge
      else match lineEnd with
        | none => .incomplete
        | some lineEnd =>
          if limits.maxHeaders < headerCount + 1 then .tooManyHeaders
          else pendingLines raw limits rounds (headerCount + 1) (lineEnd + 2)
    else .incomplete

/-- Find the end of the head, within the limits. -/
def findCompleteHttp1HeaderBlock (raw : Bytes) (limits : ParserLimits) : HeaderBlockResult :=
  match find crlf raw with
  | none =>
    if limits.maxRequestLineSize < raw.length then { status := .uriTooLong }
    else { status := .incomplete }
  | some eol =>
    if limits.maxRequestLineSize < eol then { status := .uriTooLong }
    else
      let headerStart := eol + 2
      match findFrom (crlf ++ crlf) raw eol with
      | some headerEnd =>
        let headerBlockSize := if headerStart < headerEnd then headerEnd - headerStart else 0
        if limits.maxHeaderBlockSize < headerBlockSize then { status := .headerBlockTooLarge }
        else
          { status := .ok
            bounds := { requestLineEnd := eol, headerStart := headerStart,
                        headerEnd := headerEnd } }
      | none =>
        if headerStart < raw.length ∧ limits.maxHeaderBlockSize < raw.length - headerStart then
          { status := .headerBlockTooLarge }
        else { status := pendingLines raw limits raw.length 0 headerStart }

/-- The bytes of `HTTP/1.0`. -/
def http10 : Bytes := [0x48, 0x54, 0x54, 0x50, 0x2F, 0x31, 0x2E, 0x30]

/-- The bytes of `HTTP/1.1`. -/
def http11 : Bytes := [0x48, 0x54, 0x54, 0x50, 0x2F, 0x31, 0x2E, 0x31]

/-- Split the request line at its two blanks. -/
def parseHttp1RequestLine (reqLine : Bytes) (out : ParsedRequest) :
    ParseStatus × ParsedRequest :=
  match find [sp] reqLine with
  | none | some 0 => (.badRequest, out)
  | some sp1 =>
    let out := { out with method := reqLine.take sp1 }
    if out.method.all isTchar then
      let rest := reqLine.drop (sp1 + 1)
      let sp2 := find [sp] rest
      let out := { out with
        target := match sp2 with
          | some sp2 => rest.take sp2
          | none => rest }
      if out.target.isEmpty then (.badRequest, out)
      else if out.target.all isRequestTargetChar then
        let out := { out with
          version := match sp2 with
            | some sp2 => rest.drop (sp2 + 1)
            | none => [] }
        if out.version != http10 && out.version != http11 then (.badRequest, out)
        else (.ok, out)
      else (.badRequest, out)
    else (.badRequest, out)

/-- No control byte but tabs. -/
def isValidHttp1FieldValue (fieldValue : Bytes) : Bool :=
  fieldValue.all fun u => !((u < 0x20 && u != tab) || u == del)

/-- Optional whitespace around a field value. -/
def isOws (c : UInt8) : Bool :=
  c == sp || c == tab

/-- Trim blanks and tabs on both sides. -/
def trimHttp1Ows (fieldValue : Bytes) : Bytes :=
  (fieldValue.dropWhile isOws).rdropWhile isOws

/-- Append the field of one line. -/
def appendHttp1Header (line : Bytes) (out : ParsedRequest) : ParseStatus × ParsedRequest :=
  if line.isEmpty || line.head?.any isOws then (.badRequest, out)
  else if (find [nul] line).isSome || (find [cr] line).isSome then (.badRequest, out)
  else match find [Ascii.colon] line with
    | none | some 0 => (.badRequest, out)
    | some colon =>
      let name := line.take colon
      if name.all isTchar then
        let fieldValue := trimHttp1Ows (line.drop (colon + 1))
        if isValidHttp1FieldValue fieldValue then
          (.ok, { out with headers := out.headers ++ [(name, fieldValue)] })
        else (.badRequest, out)
      else (.badRequest, out)

/-- The header lines from `pos` up to the end of the block. Each round passes a line, so the size
of the buffer bounds the rounds. -/
def appendHeaderLines (raw : Bytes) (limits : ParserLimits) (headerEnd : Nat) :
    Nat → Nat → Nat → ParsedRequest → ParseStatus × ParsedRequest
  | 0, _, _, out => (.badRequest, out)
  | rounds + 1, headerCount, pos, out =>
    if pos < headerEnd then
      match findFrom crlf raw pos with
      | none => (.badRequest, out)
      | some lineEnd =>
        if headerEnd < lineEnd then (.badRequest, out)
        else
          let line := (raw.drop pos).take (lineEnd - pos)
          if limits.maxHeaderLineSize < line.length then (.headerLineTooLarge, out)
          else if limits.maxHeaders < headerCount + 1 then (.tooManyHeaders, out)
          else match appendHttp1Header line out with
            | (.ok, out) =>
              appendHeaderLines raw limits headerEnd rounds (headerCount + 1) (lineEnd + 2) out
            | failed => failed
    else (.ok, out)

/-- Parse the head of a request. -/
def parseRequest (raw : Bytes) (limits : ParserLimits) (out : ParsedRequest) :
    ParseStatus × ParsedRequest :=
  let out := { out with headers := [] }
  let block := findCompleteHttp1HeaderBlock raw limits
  if block.status ≠ .ok then (block.status, out)
  else match parseHttp1RequestLine (raw.take block.bounds.requestLineEnd) out with
    | (.ok, out) =>
      match appendHeaderLines raw limits block.bounds.headerEnd (raw.length + 1) 0
          block.bounds.headerStart out with
      | (.ok, out) => (.ok, { out with headerEndOffset := block.bounds.headerEnd })
      | failed => failed
    | failed => failed

end Conflux.Http.Head

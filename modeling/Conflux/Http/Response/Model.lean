import Conflux.Http.Head.Model
import Conflux.Core.Numerals

/-!
# Responses and their HTTP/1 text

A handler fills in a `Response`; `formatResponse` writes its head, and the body of a text
response behind it. Files and event streams follow in writes of their own. The broken-down
time of the `Date` line is an argument.
-/

namespace Conflux.Http.Framing

open Conflux.Core (decimal signedDecimal)
open Head (isTchar)

/-- The bytes of an ASCII text. -/
def ascii (s : String) : Bytes := s.toList.map fun c => UInt8.ofNat c.toNat

/-! ## The response -/

/-- The payload of a body with its kind; `none` is a null pointer. -/
inductive BodyPayload where
  | text (bytes : Bytes)
  | sse
  | wsUpgrade (acceptKey : Option Bytes)
  /-- with the size of the mapped window -/
  | mappedFile (windowSize : Option Nat)
  /-- with the size that is to be sent -/
  | streamedFile (sendSize : Option Nat)
  | deferred
  deriving DecidableEq, Repr

/-- A response of a handler. -/
structure Response where
  status : Int := 200
  statusText : Bytes := ascii "OK"
  contentType : Bytes := ascii "text/html; charset=utf-8"
  headers : List (Bytes × Bytes) := []
  setCookies : List Bytes := []
  trailers : List (Bytes × Bytes) := []
  headOnly : Bool := false
  contentLengthHint : Nat := 0
  body : BodyPayload := .text []
  deriving DecidableEq, Repr

namespace Response

/-- The body is a mapped file. -/
def isMappedFile (r : Response) : Bool :=
  match r.body with
  | .mappedFile _ => true
  | _ => false

/-- The body is a streamed file. -/
def isStreamedFile (r : Response) : Bool :=
  match r.body with
  | .streamedFile _ => true
  | _ => false

/-- The body of a text response. -/
def textBody (r : Response) : Bytes :=
  match r.body with
  | .text bytes => bytes
  | _ => []

/-- The declared length: a hint, or the size of the body. -/
def contentLength (r : Response) : Nat :=
  if r.contentLengthHint ≠ 0 then r.contentLengthHint
  else match r.body with
    | .mappedFile (some windowSize) => windowSize
    | .streamedFile (some sendSize) => sendSize
    | _ => r.textBody.length

end Response

/-! ## The checks -/

/-- The lower case of an ASCII letter. -/
def asciiCiFold (c : UInt8) : UInt8 :=
  if 0x41 ≤ c && c ≤ 0x5A then c + 0x20 else c

/-- Equality up to the case of letters. -/
def asciiIequals (lhs rhs : Bytes) : Bool :=
  lhs.map asciiCiFold == rhs.map asciiCiFold

/-- The fields that concern one connection only. -/
def kHopByHopHeaders : List Bytes :=
  [ascii "connection", ascii "keep-alive", ascii "proxy-authenticate",
    ascii "proxy-authorization", ascii "te", ascii "trailer", ascii "trailers",
    ascii "transfer-encoding", ascii "upgrade"]

/-- The name of such a field, in any case. -/
def isHopByHopHeader (name : Bytes) : Bool :=
  kHopByHopHeaders.any fun candidate => asciiIequals name candidate

/-- The fields that the server sets itself. -/
def isResponseFramingHeader (name : Bytes) : Bool :=
  asciiIequals name (ascii "content-length") || isHopByHopHeader name

/-- A nonempty token. -/
def isValidHeaderName (name : Bytes) : Bool :=
  !name.isEmpty && name.all fun u => u < 0x80 && isTchar u

/-- The bytes of a value: the printable ones, the tab and those above ASCII. -/
def isValueByte (u : UInt8) : Bool :=
  !(u < 0x20 && u != Ascii.tab) && u != Ascii.del

/-- No control byte in a value. -/
def isValidHeaderValue (field : Bytes) : Bool := field.all isValueByte

/-- No control byte in a reason phrase. -/
def isValidReasonPhrase (phrase : Bytes) : Bool := phrase.all isValueByte

/-- The statuses without a body. -/
def mustNotHaveBody (status : Int) : Bool :=
  (100 ≤ status && status < 200) || status == 204 || status == 304

/-! ## The date -/

/-- A broken-down time, as `gmtime_r` gives it. -/
structure Tm where
  wday : Fin 7
  mday : Fin 32
  mon : Fin 12
  year : Int
  hour : Fin 24
  min : Fin 60
  sec : Fin 61
  deriving DecidableEq, Repr

/-- The name of a weekday. -/
def wdayName (wday : Fin 7) : Bytes :=
  [ascii "Sun", ascii "Mon", ascii "Tue", ascii "Wed", ascii "Thu", ascii "Fri",
    ascii "Sat"].getD wday []

/-- The name of a month. -/
def monName (mon : Fin 12) : Bytes :=
  [ascii "Jan", ascii "Feb", ascii "Mar", ascii "Apr", ascii "May", ascii "Jun", ascii "Jul",
    ascii "Aug", ascii "Sep", ascii "Oct", ascii "Nov", ascii "Dec"].getD mon []

/-- Two decimal digits. -/
def twoDigits (n : Nat) : Bytes :=
  [UInt8.ofNat (0x30 + n / 10 % 10), UInt8.ofNat (0x30 + n % 10)]

/-- `http_date` of a time that `gmtime_r` may refuse. The buffer of `strftime` has 32 bytes. -/
def httpDate (gmt : Option Tm) : Bytes :=
  match gmt with
  | none => ascii "Thu, 01 Jan 1970 00:00:00 GMT"
  | some tm =>
    let text := wdayName tm.wday ++ ascii ", " ++ twoDigits tm.mday ++ ascii " " ++
      monName tm.mon ++ ascii " " ++ signedDecimal tm.year ++ ascii " " ++ twoDigits tm.hour ++
      ascii ":" ++ twoDigits tm.min ++ ascii ":" ++ twoDigits tm.sec ++ ascii " GMT"
    if text.length < 32 then text else ascii "Thu, 01 Jan 1970 00:00:00 GMT"

/-! ## The text of a response -/

/-- The body follows the head at once. -/
def Response.includeBody (r : Response) : Bool :=
  let suppressBody := mustNotHaveBody r.status || r.headOnly
  !suppressBody && !r.isMappedFile && !r.isStreamedFile

/-- The line of a header, or nothing if it is dropped. -/
def headerLine (field : Bytes × Bytes) : Bytes :=
  if isResponseFramingHeader field.1 then []
  else if !isValidHeaderName field.1 || !isValidHeaderValue field.2 then []
  else field.1 ++ ascii ": " ++ field.2 ++ crlf

/-- The line of a cookie, or nothing if it is dropped. -/
def cookieLine (cookie : Bytes) : Bytes :=
  if !isValidHeaderValue cookie then [] else ascii "Set-Cookie: " ++ cookie ++ crlf

/-- The head of a response and its text body. -/
def formatResponse (r : Response) (altSvc : Bytes) (close : Bool) (now : Option Tm) : Bytes :=
  match r.body with
  | .wsUpgrade (some accept) =>
    ascii "HTTP/1.1 101 Switching Protocols\r\n" ++ ascii "Upgrade: websocket\r\n" ++
      ascii "Connection: Upgrade\r\n" ++ ascii "Sec-WebSocket-Accept: " ++ accept ++
      crlf ++ crlf
  | _ =>
    let statusNoBody := mustNotHaveBody r.status
    ascii "HTTP/1.1 " ++ signedDecimal r.status ++ ascii " " ++
      (if isValidReasonPhrase r.statusText then r.statusText else []) ++
      crlf ++ ascii "Date: " ++ httpDate now ++ crlf ++
      (if !r.contentType.isEmpty && isValidHeaderValue r.contentType then
        ascii "Content-Type: " ++ r.contentType ++ crlf else []) ++
      (if r.status = 304 then
        if r.contentLengthHint ≠ 0 then
          ascii "Content-Length: " ++ decimal r.contentLengthHint ++ crlf else []
      else if !statusNoBody then ascii "Content-Length: " ++ decimal r.contentLength ++ crlf
      else []) ++
      r.headers.flatMap headerLine ++ r.setCookies.flatMap cookieLine ++
      (if !altSvc.isEmpty then ascii "Alt-Svc: " ++ altSvc ++ crlf else []) ++
      (if close then ascii "Connection: close" else ascii "Connection: keep-alive") ++
      crlf ++ crlf ++
      (if r.includeBody then r.textBody else [])

end Conflux.Http.Framing

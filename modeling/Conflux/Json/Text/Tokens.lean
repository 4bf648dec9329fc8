import Conflux.Json.Text.Strings
import Conflux.Json.Text.Whitespace

/-!
# Numbers, tokens and punctuation

The number scanner of both front ends. Then what both passes of the parser, the storing one and
the skipping one, do between values: the dispatch on the first byte, literals, member names, and
the punctuation of arrays and objects with its diagnostics.
-/

namespace Conflux.Json

open Ascii

/-- Number of leading digits. -/
def digitRun (l : Bytes) : Nat := (l.takeWhile isDigit).length

/-- Whether a digit comes next. -/
def startsDigit (l : Bytes) : Bool := l.head?.any isDigit

/-- Length of an optional minus sign. -/
def minusLen (l : Bytes) : Nat := if l.head? = some minus then 1 else 0

/-- Length of an optional sign of an exponent. -/
def expSignLen (l : Bytes) : Nat :=
  if l.head? = some plus ∨ l.head? = some minus then 1 else 0

/-- Length of the sign and of the integer part. -/
def intPart (l : Bytes) : Except (String × Nat) Nat :=
  let m := minusLen l
  let l := l.drop m
  if !startsDigit l then .error ("digit required after sign", m)
  else if l.head? = some zero && startsDigit l.tail then
    .error ("leading zeros forbidden", m + 1)
  else .ok (m + digitRun l)

/-- Length up to the end of an optional fraction, `l` being what follows the first `p`
bytes. -/
def fracPart (p : Nat) (l : Bytes) : Except (String × Nat) Nat :=
  if l.head? = some dot then
    if startsDigit l.tail then .ok (p + 1 + digitRun l.tail)
    else .error ("digit required after '.'", p + 1)
  else .ok p

/-- Length up to the end of an optional exponent, `l` being what follows the first `p`
bytes. -/
def expPart (p : Nat) (l : Bytes) : Except (String × Nat) Nat :=
  if l.head? = some lowerE ∨ l.head? = some upperE then
    let l := l.tail
    let k := expSignLen l
    if startsDigit (l.drop k) then .ok (p + 1 + k + digitRun (l.drop k))
    else .error ("digit required in exponent", p + 1 + k)
  else .ok p

/-- Length of the lexeme at the head, with its length without fraction and exponent. -/
def numberLength (l : Bytes) : Except (String × Nat) (Nat × Nat) := do
  let i ← intPart l
  let p ← fracPart i (l.drop i)
  let p ← expPart p (l.drop p)
  return (i, p)

/-- A scanned number: its lexeme, and whether it has neither fraction nor exponent. -/
structure NumLex where
  lexeme : Bytes
  /-- Whether it is written as an integer. -/
  intForm : Bool
  deriving DecidableEq, Repr

/-- Scan a number lexeme. -/
def parseNumberLexeme (c : Cur) : Except Fail (NumLex × Cur) :=
  match numberLength c.rest with
  | .error (msg, n) => .error ((c.adv n).fail .syntaxError msg)
  | .ok (i, n) =>
    if n > kMaxNumberLexemeLen then
      .error ((c.adv n).fail .invalidNumber "number lexeme exceeds maximum length")
    else .ok (⟨c.rest.take n, i = n⟩, c.adv n)

/-! ## Tokens -/

/-- The three literals. -/
inductive Literal where
  | true_ | false_ | null_
  deriving DecidableEq, Repr

/-- The bytes of a literal. -/
def Literal.text : Literal → Bytes
  | .true_ => litTrue
  | .false_ => litFalse
  | .null_ => litNull

/-- What the first byte of a value announces. -/
inductive Lead where
  | str (quote : UInt8)
  | arr
  | obj
  | lit (l : Literal)
  | num
  | other
  deriving DecidableEq, Repr

/-- The dispatch on the first byte of a value. -/
def lead (mode : ParseMode) (c : UInt8) : Lead :=
  if c = quote then .str quote
  else if mode = .json5 ∧ c = apostrophe then .str apostrophe
  else if c = lbracket then .arr
  else if c = lbrace then .obj
  else if c = lowerT then .lit .true_
  else if c = lowerF then .lit .false_
  else if c = lowerN then .lit .null_
  else if c = minus ∨ isDigit c then .num
  else .other

/-- Pass over a literal, given its first byte. -/
def literal (l : Literal) (c : Cur) : Except Fail Cur :=
  if c.rest.take l.text.length = l.text then .ok (c.adv l.text.length)
  else .error (c.fail .syntaxError "invalid token")

/-- First bytes of JSON5 identifiers. -/
def isIdentStart (c : UInt8) : Bool :=
  (0x41 ≤ c && c ≤ 0x5A) || (0x61 ≤ c && c ≤ 0x7A) || c == underscore || c == dollar

/-- Further bytes of JSON5 identifiers. -/
def isIdentPart (c : UInt8) : Bool := isIdentStart c || isDigit c

/-- How a string or a member name is written. -/
inductive StrForm where
  | double
  | single
  | bare
  deriving DecidableEq, Repr

/-- The form of a string by its quote. -/
def StrForm.ofQuote (quote : UInt8) : StrForm :=
  if quote = apostrophe then .single else .double

/-- A string or a member name: how it is written, its bytes as written, and decoded. -/
structure StrTok where
  /-- Way of writing. -/
  form : StrForm
  /-- Bytes as written, without quotes. -/
  raw : Bytes
  dec : Bytes
  deriving DecidableEq, Repr

/-- The token of a scanned body. -/
def StrBody.tok (b : StrBody) (quote : UInt8) : StrTok := ⟨.ofQuote quote, b.raw, b.dec⟩

/-- A quoted string, from its opening quote on. -/
def quoted (quote : UInt8) (c : Cur) : Except Fail (StrTok × Cur) :=
  match scanBody .dom quote c.adv with
  | .error e => .error e
  | .ok (b, c') => .ok (b.tok quote, c')

/-- An identifier used as a member name. -/
def parseUnquotedKey (c : Cur) : Except Fail (StrTok × Cur) :=
  if c.rest.head?.any isIdentStart then
    let name := c.rest.takeWhile isIdentPart
    .ok (⟨.bare, name, name⟩, c.adv name.length)
  else .error (c.fail .syntaxError "std::expected string key or identifier")

/-- A member name. -/
def parseObjectMemberName (mode : ParseMode) (c : Cur) : Except Fail (StrTok × Cur) :=
  if c.rest.head? = some quote then quoted quote c
  else
    match mode with
    | .strict => .error (c.fail .syntaxError "std::expected string key")
    | .json5 =>
      if c.rest.head? = some apostrophe then quoted apostrophe c
      else parseUnquotedKey c

/-- The start of a member: whitespace, then a name. -/
def memberName (mode : ParseMode) (c : Cur) : Except Fail (StrTok × Cur) :=
  match skipWs mode c with
  | .error e => .error e
  | .ok c =>
    if c.rest = [] then .error (c.fail .unexpectedEof "EOF in object")
    else parseObjectMemberName mode c

/-- The colon after a member name. -/
def colon (mode : ParseMode) (c : Cur) : Except Fail Cur :=
  match skipWs mode c with
  | .error e => .error e
  | .ok c =>
    if c.rest.head? = some Ascii.colon then .ok c.adv
    else .error (c.fail .syntaxError "std::expected ':'")

/-- Pass over an opening bracket, and over the closing one if the container is empty. The
flag tells whether it is. -/
def opened (mode : ParseMode) (close : UInt8) (c : Cur) : Except Fail (Bool × Cur) :=
  match skipWs mode c.adv with
  | .error e => .error e
  | .ok c => if c.rest.head? = some close then .ok (true, c.adv) else .ok (false, c)

/-- Kinds of container, with what the diagnostics say about them. -/
structure Bracket where
  /-- Closing byte. -/
  close : UInt8
  /-- Diagnostic at the end of the input. -/
  eofMsg : String
  /-- Diagnostic at a byte that is no separator. -/
  sepMsg : String

/-- Arrays. -/
def Bracket.array : Bracket := ⟨rbracket, "EOF in array", "std::expected ',' or ']'"⟩

/-- Objects. -/
def Bracket.object : Bracket := ⟨rbrace, "EOF in object", "std::expected ',' or '\x7d'"⟩

/-- What follows an element: the closing byte, or a comma. JSON5 allows a comma before it. The
flag tells whether the container is closed. -/
def separator (mode : ParseMode) (b : Bracket) (c : Cur) : Except Fail (Bool × Cur) :=
  match skipWs mode c with
  | .error e => .error e
  | .ok c =>
    match c.rest with
    | [] => .error (c.fail .unexpectedEof b.eofMsg)
    | a :: _ =>
      if a = b.close then .ok (true, c.adv)
      else if a = comma then
        match mode with
        | .strict => .ok (false, c.adv)
        | .json5 => opened .json5 b.close c
      else .error (c.fail .syntaxError b.sepMsg)

/-- Diagnostic for a byte that starts no value. -/
def unexpectedCharacter (a : UInt8) : String :=
  "std::unexpected character '" ++ String.singleton (Char.ofNat a.toNat) ++ "'"

/-- The start of a value: whitespace, then a byte to dispatch on, with the nesting limits
checked in between. -/
def valueStart (mode : ParseMode) (tooDeep : Bool) (c : Cur) : Except Fail (UInt8 × Cur) :=
  match skipWs mode c with
  | .error e => .error e
  | .ok c =>
    match c.rest with
    | [] => .error (c.fail .unexpectedEof "std::unexpected end of input")
    | a :: _ =>
      if tooDeep then .error (c.fail .nestingTooDeep "nesting depth limit exceeded")
      else .ok (a, c)

end Conflux.Json

import Conflux.Json.Text.Whitespace

/-!
# String bodies

The scanners of quoted strings, from after the opening quote to after the closing one. The
parser and the pull reader share one loop over units: a closing quote, a UTF-8 sequence, an
escape, or a failure. They differ in the quote and in the wording of two diagnostics. The
parser's skipping variant keeps no bytes and counts the decoded ones.
-/

namespace Conflux.Json

open Conflux.Core Ascii

/-- Length of the UTF-8 sequence announced by a lead byte, zero for a byte that is none. -/
def utf8SeqLen (lead : UInt8) : Nat :=
  if lead < 0x80 then 1
  else if lead < 0xC2 then 0
  else if lead < 0xE0 then 2
  else if lead < 0xF0 then 3
  else if lead < 0xF5 then 4
  else 0

/-- A UTF-8 continuation byte. -/
def isCont (c : UInt8) : Bool := c &&& 0xC0 == 0x80

/-- Value of a hexadecimal digit. -/
def hexDigit (c : UInt8) : Option Nat :=
  if 0x30 ≤ c ∧ c ≤ 0x39 then some (c.toNat - 0x30)
  else if 0x61 ≤ c ∧ c ≤ 0x66 then some (c.toNat - 0x61 + 10)
  else if 0x41 ≤ c ∧ c ≤ 0x46 then some (c.toNat - 0x41 + 10)
  else none

/-- Value of the first four bytes read as hexadecimal digits. -/
def hex4 : Bytes → Option Nat
  | a :: b :: c :: d :: _ => do
    let a ← hexDigit a
    let b ← hexDigit b
    let c ← hexDigit c
    let d ← hexDigit d
    return ((a * 16 + b) * 16 + c) * 16 + d
  | _ => none

/-- UTF-8 encoding of a code point. The bits joined by the source are disjoint, so that
they add up. -/
def appendUtf8 (cp : Nat) : Bytes :=
  if cp < 0x80 then [UInt8.ofNat cp]
  else if cp < 0x800 then [UInt8.ofNat (0xC0 + cp / 2 ^ 6), UInt8.ofNat (0x80 + cp % 2 ^ 6)]
  else if cp < 0x10000 then
    [UInt8.ofNat (0xE0 + cp / 2 ^ 12), UInt8.ofNat (0x80 + cp / 2 ^ 6 % 2 ^ 6),
      UInt8.ofNat (0x80 + cp % 2 ^ 6)]
  else
    [UInt8.ofNat (0xF0 + cp / 2 ^ 18), UInt8.ofNat (0x80 + cp / 2 ^ 12 % 2 ^ 6),
      UInt8.ofNat (0x80 + cp / 2 ^ 6 % 2 ^ 6), UInt8.ofNat (0x80 + cp % 2 ^ 6)]

/-- The first half of a pair of surrogates. -/
def isHighSurrogate (cp : Nat) : Bool := 0xD800 ≤ cp && cp ≤ 0xDBFF

/-- The second half of a pair. -/
def isLowSurrogate (cp : Nat) : Bool := 0xDC00 ≤ cp && cp ≤ 0xDFFF

/-- Code point of a surrogate pair. -/
def pairCodePoint (hi lo : Nat) : Nat := 0x10000 + (hi - 0xD800) * 2 ^ 10 + (lo - 0xDC00)

/-- The one-byte escapes. The escaped apostrophe belongs to single-quoted strings. -/
def simpleEscape (quote e : UInt8) : Option UInt8 :=
  if e = apostrophe then if quote = apostrophe then some apostrophe else none
  else if e = Ascii.quote then some Ascii.quote
  else if e = backslash then some backslash
  else if e = slash then some slash
  else if e = lowerB then some 0x08
  else if e = lowerF then some 0x0C
  else if e = lowerN then some 0x0A
  else if e = lowerR then some 0x0D
  else if e = lowerT then some 0x09
  else none

/-- The two wordings of the string scanners. -/
inductive StrFront where
  | dom
  | reader
  deriving DecidableEq, Repr

/-- Diagnostic for an unusable group of four hexadecimal digits, of which `avail` bytes are
there. -/
def StrFront.hexMessage (front : StrFront) (avail : Nat) : String :=
  match front with
  | .dom => "invalid \\uXXXX"
  | .reader => if avail < 4 then "invalid \\uXXXX" else "invalid hex digit in \\uXXXX"

/-- Diagnostic for an unusable low half of a pair. -/
def StrFront.lowHexMessage (front : StrFront) : String :=
  match front with
  | .dom => "invalid low surrogate"
  | .reader => "invalid hex digit in \\uXXXX"

/-- What stands at the head of an unread string body. -/
inductive StrUnit where
  /-- The closing quote. -/
  | close
  /-- A sequence of `n` bytes that stands for itself. -/
  | plain (n : Nat)
  /-- An escape of `n` bytes that stands for `out`. -/
  | esc (n : Nat) (out : Bytes)
  /-- An error, found after `n` further bytes. -/
  | fail (code : JsonIssueCode) (msg : String) (n : Nat)
  deriving DecidableEq, Repr

/-- The unit of a Unicode escape, from the bytes after its `u`. -/
def unicodeUnit (front : StrFront) (l : Bytes) : StrUnit :=
  match hex4 l with
  | none => .fail .invalidUnicodeEscape (front.hexMessage l.length) 2
  | some cp =>
    if isHighSurrogate cp then
      let tail := l.drop 4
      if tail.length < 6 ∨ tail[0]? ≠ some backslash ∨ tail[1]? ≠ some lowerU then
        .fail .invalidUnicodeEscape "unpaired high surrogate" 6
      else
        match hex4 (tail.drop 2) with
        | none => .fail .invalidUnicodeEscape front.lowHexMessage 8
        | some lo =>
          if isLowSurrogate lo then .esc 12 (appendUtf8 (pairCodePoint cp lo))
          else .fail .invalidUnicodeEscape "invalid low surrogate" 12
    else if isLowSurrogate cp then .fail .invalidUnicodeEscape "lone low surrogate" 6
    else .esc 6 (appendUtf8 cp)

/-- The unit of an escape, from the bytes after its backslash. -/
def escapeUnit (front : StrFront) (quote : UInt8) (l : Bytes) : StrUnit :=
  match l with
  | [] => .fail .unexpectedEof "EOF in escape" 1
  | e :: l' =>
    if e = lowerU then unicodeUnit front l'
    else
      match simpleEscape quote e with
      | some b => .esc 2 [b]
      | none => .fail .syntaxError "invalid escape" 1

/-- The unit of a UTF-8 sequence. -/
def utf8Unit (lead : UInt8) (l : Bytes) : StrUnit :=
  let seq := utf8SeqLen lead
  if seq = 0 then .fail .invalidUtf8 "invalid UTF-8 std::byte" 0
  else if l.length + 1 < seq then .fail .invalidUtf8 "truncated UTF-8" 0
  else if (l.take (seq - 1)).all isCont then .plain seq
  else .fail .invalidUtf8 "invalid UTF-8 continuation" 0

/-- The unit at the head of a body. -/
def strUnit (front : StrFront) (quote a : UInt8) (l : Bytes) : StrUnit :=
  if a = quote then .close
  else if a < 0x20 then .fail .syntaxError "unescaped control character" 0
  else if a = backslash then escapeUnit front quote l
  else utf8Unit a l

/-- A scanned body: as written, as decoded, and whether it holds an escape. -/
structure StrBody where
  /-- Bytes between the quotes. -/
  raw : Bytes := []
  dec : Bytes := []
  /-- Whether an escape was met. -/
  hasEsc : Bool := false
  deriving DecidableEq, Repr

/-- One step of the body loop. -/
def bodyStep (front : StrFront) (quote : UInt8) (s : Loc × StrBody) (a : UInt8) (l : Bytes) :
    ScanStep (Loc × StrBody) (Except Fail (StrBody × Cur)) :=
  match strUnit front quote a l with
  | .close => .stop (.ok (s.2, ⟨s.1.adv, l⟩))
  | .plain n =>
    let u := (a :: l).take n
    .next (s.1.advSeq n, ⟨s.2.raw ++ u, s.2.dec ++ u, s.2.hasEsc⟩) (n - 1)
  | .esc n out =>
    .next (s.1.adv n, ⟨s.2.raw ++ (a :: l).take n, s.2.dec ++ out, true⟩) (n - 1)
  | .fail code msg n => .stop (.error (Cur.fail ⟨s.1.adv n, (a :: l).drop n⟩ code msg))

/-- The end of the input inside a body. -/
def bodyDone (s : Loc × StrBody) : Except Fail (StrBody × Cur) :=
  .error (Cur.fail ⟨s.1, []⟩ .unexpectedEof "EOF in string")

/-- Scan a body, from after its opening quote to after its closing one. -/
def scanBody (front : StrFront) (quote : UInt8) (c : Cur) : Except Fail (StrBody × Cur) :=
  scan (bodyStep front quote) bodyDone (c.loc, {}) c.rest

/-! ## Skipping a body -/

/-- Length of the UTF-8 encoding of a code point. -/
def utf8EncodedLen (cp : Nat) : Nat :=
  if cp < 0x80 then 1 else if cp < 0x800 then 2 else if cp < 0x10000 then 3 else 4

/-- What stands at the head of a body that is skipped. -/
inductive SkipUnit where
  /-- The closing quote. -/
  | close
  /-- A sequence of `n` bytes that stands for itself. -/
  | plain (n : Nat)
  /-- An escape of `n` bytes that stands for `len` bytes. -/
  | esc (n len : Nat)
  /-- An error, found after `n` further bytes. -/
  | fail (code : JsonIssueCode) (msg : String) (n : Nat)
  deriving DecidableEq, Repr

/-- The unit of a Unicode escape that is skipped, from the bytes after its `u`. -/
def skipUnicodeUnit (l : Bytes) : SkipUnit :=
  match hex4 l with
  | none => .fail .invalidUnicodeEscape "invalid \\uXXXX" 2
  | some cp =>
    if isHighSurrogate cp then
      let tail := l.drop 4
      if tail.length < 6 ∨ tail[0]? ≠ some backslash ∨ tail[1]? ≠ some lowerU then
        .fail .invalidUnicodeEscape "unpaired high surrogate" 6
      else
        match hex4 (tail.drop 2) with
        | none => .fail .invalidUnicodeEscape "invalid low surrogate" 8
        | some lo =>
          if isLowSurrogate lo then .esc 12 (utf8EncodedLen (pairCodePoint cp lo))
          else .fail .invalidUnicodeEscape "invalid low surrogate" 12
    else if isLowSurrogate cp then .fail .invalidUnicodeEscape "lone low surrogate" 6
    else .esc 6 (utf8EncodedLen cp)

/-- The unit of an escape that is skipped, from the bytes after its backslash. -/
def skipEscapeUnit (quote : UInt8) (l : Bytes) : SkipUnit :=
  match l with
  | [] => .fail .unexpectedEof "EOF in escape" 1
  | e :: l' =>
    if e = apostrophe then
      if quote ≠ apostrophe then .fail .syntaxError "invalid escape" 1 else .esc 2 1
    else if e = Ascii.quote ∨ e = backslash ∨ e = slash ∨ e = lowerB ∨ e = lowerF ∨ e = lowerN ∨
        e = lowerR ∨ e = lowerT then .esc 2 1
    else if e = lowerU then skipUnicodeUnit l'
    else .fail .syntaxError "invalid escape" 1

/-- The unit at the head of a body that is skipped. -/
def skipUnit (quote a : UInt8) (l : Bytes) : SkipUnit :=
  if a = quote then .close
  else if a < 0x20 then .fail .syntaxError "unescaped control character" 0
  else if a = backslash then skipEscapeUnit quote l
  else
    let seq := utf8SeqLen a
    if seq = 0 then .fail .invalidUtf8 "invalid UTF-8 std::byte" 0
    else if l.length + 1 < seq then .fail .invalidUtf8 "truncated UTF-8" 0
    else if (l.take (seq - 1)).all isCont then .plain seq
    else .fail .invalidUtf8 "invalid UTF-8 continuation" 0

/-- One step of the skipping loop, with the decoded length so far. -/
def skipStep (quote : UInt8) (s : Loc × Nat) (a : UInt8) (l : Bytes) :
    ScanStep (Loc × Nat) (Except Fail (Nat × Cur)) :=
  match skipUnit quote a l with
  | .close => .stop (.ok (s.2, ⟨s.1.adv, l⟩))
  | .plain n => .next (s.1.advSeq n, s.2 + n) (n - 1)
  | .esc n len => .next (s.1.adv n, s.2 + len) (n - 1)
  | .fail code msg n => .stop (.error (Cur.fail ⟨s.1.adv n, (a :: l).drop n⟩ code msg))

/-- Skip a body, from after its opening quote to after its closing one, and count the bytes
it stands for. -/
def skipStrBodyNoStore (quote : UInt8) (c : Cur) : Except Fail (Nat × Cur) :=
  scan (skipStep quote)
    (fun s => .error (Cur.fail ⟨s.1, []⟩ .unexpectedEof "EOF in string")) (c.loc, 0) c.rest

end Conflux.Json

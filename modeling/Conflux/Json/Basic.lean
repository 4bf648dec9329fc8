import Mathlib.Data.List.Basic
import Mathlib.Algebra.Ring.Nat

/-!
# Bytes, limits and diagnostics of the JSON component

The vocabulary shared by the parser, the pull reader and the stream reader: ASCII bytes, limit
options, parse options and the error record with its source location. Sizes and offsets are
natural numbers.
-/

namespace Conflux.Json

/-- Bytes of an input, of a lexeme or of a decoded string. -/
abbrev Bytes := List UInt8

namespace Ascii

/-- horizontal tab -/
@[simp] abbrev tab : UInt8 := 0x09
/-- line feed -/
@[simp] abbrev lf : UInt8 := 0x0A
/-- carriage return -/
@[simp] abbrev cr : UInt8 := 0x0D
/-- blank -/
@[simp] abbrev space : UInt8 := 0x20
/-- double quote -/
@[simp] abbrev quote : UInt8 := 0x22
/-- sign `$` -/
@[simp] abbrev dollar : UInt8 := 0x24
/-- single quote -/
@[simp] abbrev apostrophe : UInt8 := 0x27
/-- sign `*` -/
@[simp] abbrev star : UInt8 := 0x2A
/-- sign `+` -/
@[simp] abbrev plus : UInt8 := 0x2B
/-- sign `,` -/
@[simp] abbrev comma : UInt8 := 0x2C
/-- sign `-` -/
@[simp] abbrev minus : UInt8 := 0x2D
/-- sign `.` -/
@[simp] abbrev dot : UInt8 := 0x2E
/-- sign `/` -/
@[simp] abbrev slash : UInt8 := 0x2F
/-- digit `0` -/
@[simp] abbrev zero : UInt8 := 0x30
/-- digit `9` -/
@[simp] abbrev nine : UInt8 := 0x39
/-- sign `:` -/
@[simp] abbrev colon : UInt8 := 0x3A
/-- letter `E` -/
@[simp] abbrev upperE : UInt8 := 0x45
/-- sign `[` -/
@[simp] abbrev lbracket : UInt8 := 0x5B
/-- sign `\` -/
@[simp] abbrev backslash : UInt8 := 0x5C
/-- sign `]` -/
@[simp] abbrev rbracket : UInt8 := 0x5D
/-- sign `_` -/
@[simp] abbrev underscore : UInt8 := 0x5F
/-- letter `b` -/
@[simp] abbrev lowerB : UInt8 := 0x62
/-- letter `e` -/
@[simp] abbrev lowerE : UInt8 := 0x65
/-- letter `f` -/
@[simp] abbrev lowerF : UInt8 := 0x66
/-- letter `n` -/
@[simp] abbrev lowerN : UInt8 := 0x6E
/-- letter `r` -/
@[simp] abbrev lowerR : UInt8 := 0x72
/-- letter `t` -/
@[simp] abbrev lowerT : UInt8 := 0x74
/-- letter `u` -/
@[simp] abbrev lowerU : UInt8 := 0x75
/-- opening brace -/
@[simp] abbrev lbrace : UInt8 := 0x7B
/-- closing brace -/
@[simp] abbrev rbrace : UInt8 := 0x7D

/-- The bytes of `true`. -/
def litTrue : Bytes := [0x74, 0x72, 0x75, 0x65]

/-- The bytes of `false`. -/
def litFalse : Bytes := [0x66, 0x61, 0x6C, 0x73, 0x65]

/-- The bytes of `null`. -/
def litNull : Bytes := [0x6E, 0x75, 0x6C, 0x6C]

end Ascii

/-- A decimal digit. -/
def isDigit (c : UInt8) : Bool := Ascii.zero ≤ c && c ≤ Ascii.nine

/-- The stage an error belongs to. -/
inductive JsonStage where
  | parse | lookup | decode | build | dump | jsonPatch
  deriving DecidableEq, Repr

/-- The issue codes of the component. -/
inductive JsonIssueCode where
  | syntaxError | unexpectedEof | trailingGarbage | invalidUtf8 | invalidUnicodeEscape
  | invalidPointer | duplicateMember | missingMember | wrongKind | indexOutOfRange
  | invalidNumber | numberOutOfRange | signMismatch | invalidValue | constraintViolation
  | nestingTooDeep | inputTooLarge | stringTooLarge | outputTooLarge | resourceExhausted
  | invalidPatch | patchOpMissing | patchOpUnknown | patchPathMissing | patchPathInvalid
  | patchFromMissing | patchFromInvalid | patchTestFailed | patchTargetMissing
  | patchParentMissing | patchArrayIndexInvalid | patchArrayIndexOutOfRange
  | patchMoveIntoChild | patchRemoveDocumentRoot | patchTooManyOperations
  | patchPointerTooDeep
  deriving DecidableEq, Repr

/-- A byte offset with its line and column, the latter two counted from one. -/
structure Loc where
  /-- Byte offset. -/
  offset : Nat := 0
  /-- Line number. -/
  line : Nat := 1
  /-- Column number. -/
  column : Nat := 1
  deriving DecidableEq, Repr

/-- Move over `n` bytes of the current line. -/
def Loc.adv (l : Loc) (n : Nat := 1) : Loc :=
  { l with offset := l.offset + n, column := l.column + n }

/-- Move over a line feed. -/
def Loc.newline (l : Loc) : Loc := ⟨l.offset + 1, l.line + 1, 1⟩

/-- Move over an `n`-byte UTF-8 sequence, which is one column wide. -/
def Loc.advSeq (l : Loc) (n : Nat) : Loc :=
  { l with offset := l.offset + n, column := l.column + 1 }

@[simp] theorem Loc.adv_offset (l : Loc) (n : Nat) : (l.adv n).offset = l.offset + n := rfl
@[simp] theorem Loc.newline_offset (l : Loc) : l.newline.offset = l.offset + 1 := rfl
@[simp] theorem Loc.advSeq_offset (l : Loc) (n : Nat) : (l.advSeq n).offset = l.offset + n := rfl

/-- One step of an error path. -/
inductive JsonPathSegment where
  | member (name : Bytes)
  | index (i : Nat)
  deriving DecidableEq, Repr

/-- The error record. Fields that an error does not carry are absent. -/
structure JsonError where
  /-- Stage the error was raised in. -/
  stage : JsonStage := .parse
  code : JsonIssueCode := .syntaxError
  /-- Path of the value the error is about. -/
  path : List JsonPathSegment := []
  /-- Position in the input. -/
  source : Option Loc := none
  /-- Member the error is about. -/
  memberName : Option Bytes := none
  /-- Index of the failing patch operation. -/
  operationIndex : Option Nat := none
  /-- Name of the failing patch operation. -/
  operation : Option Bytes := none
  /-- Pointer of the failing patch operation. -/
  pointer : Option Bytes := none
  /-- Source pointer of the failing patch operation. -/
  fromPointer : Option Bytes := none
  /-- Diagnostic text. -/
  message : String := ""
  deriving DecidableEq, Repr

/-- A parse error with its position. -/
def mkErr (loc : Loc) (code : JsonIssueCode) (msg : String) : JsonError :=
  { stage := .parse, code := code, source := some loc, message := msg }

/-- A limit: the component's default, none, or an explicit bound. -/
inductive LimitOption where
  | default_
  | unlimited
  | bound (v : Nat)
  deriving DecidableEq, Repr

/-- Whether `n` is over the limit, the default being `cap`. -/
def LimitOption.exceeds (l : LimitOption) (n cap : Nat) : Bool :=
  match l with
  | .unlimited => false
  | .default_ => decide (cap < n)
  | .bound v => decide (v < n)

/-- A value within a limit keeps every smaller value within it. -/
theorem LimitOption.exceeds_of_le {l : LimitOption} {m n cap : Nat} (hle : m ≤ n)
    (h : l.exceeds n cap = false) : l.exceeds m cap = false := by
  cases l <;> simp_all [LimitOption.exceeds] <;> omega

/-- The two grammars of the parser. -/
inductive ParseMode where
  | strict | json5
  deriving DecidableEq, Repr

/-- What happens to a repeated member name. -/
inductive DuplicateKeyPolicy where
  | reject | lastWins | firstWins
  deriving DecidableEq, Repr

/-- Options of the parser and of the readers. -/
structure JsonParseOptions where
  /-- Nesting limit. -/
  maxDepth : LimitOption := .default_
  maxInputSize : LimitOption := .default_
  maxStringSize : LimitOption := .default_
  /-- Duplicate member policy. -/
  duplicateKey : DuplicateKeyPolicy := .reject
  /-- Member count from which the parser builds an object index by itself. -/
  warmThreshold : Option Nat := none
  /-- Grammar. -/
  mode : ParseMode := .strict
  deriving DecidableEq, Repr

/-- Longest accepted number lexeme. -/
def kMaxNumberLexemeLen : Nat := 1024

/-- Default nesting limit. -/
def kDefaultMaxDepth : Nat := 128

/-- Default input size limit. -/
def kDefaultMaxInput : Nat := 128 * 1024 * 1024

/-- Default string size limit. -/
def kDefaultMaxString : Nat := 64 * 1024 * 1024

/-- Inputs and buffers stay below this size, so that offsets fit 32 bits. -/
def kU32Ceiling : Nat := 2 ^ 32 - 1

end Conflux.Json

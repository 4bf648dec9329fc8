import Conflux.Core.Find
import Mathlib.Algebra.Ring.Nat

/-!
# Bytes and limits of the HTTP component

The vocabulary shared by the request parser, the chunked body decoder and the router. Sizes and
offsets are natural numbers.
-/

namespace Conflux.Http

/-- Bytes of a receive buffer, of a field or of a body. -/
abbrev Bytes := List UInt8

namespace Ascii

/-- string end -/
abbrev nul : UInt8 := 0x00
/-- horizontal tab -/
abbrev tab : UInt8 := 0x09
/-- line feed -/
abbrev lf : UInt8 := 0x0A
/-- carriage return -/
abbrev cr : UInt8 := 0x0D
/-- blank -/
abbrev sp : UInt8 := 0x20
/-- sign `%` -/
abbrev percent : UInt8 := 0x25
/-- sign `+` -/
abbrev plus : UInt8 := 0x2B
/-- sign `*` -/
abbrev star : UInt8 := 0x2A
/-- sign `/` -/
abbrev slash : UInt8 := 0x2F
/-- sign `:` -/
abbrev colon : UInt8 := 0x3A
/-- sign `;` -/
abbrev semicolon : UInt8 := 0x3B
/-- opening brace -/
abbrev openBrace : UInt8 := 0x7B
/-- closing brace -/
abbrev closeBrace : UInt8 := 0x7D
/-- delete -/
abbrev del : UInt8 := 0x7F

end Ascii

/-- The line terminator. -/
abbrev crlf : Bytes := [Ascii.cr, Ascii.lf]

theorem cr_ne_lf : Ascii.cr ≠ Ascii.lf := by decide

/-- The value of a hexadecimal digit; `none` is the -1 of the source. -/
def hexCharToInt (c : UInt8) : Option Nat :=
  if 0x30 ≤ c ∧ c ≤ 0x39 then some (c.toNat - 0x30)
  else if 0x61 ≤ c ∧ c ≤ 0x66 then some (c.toNat - 0x61 + 10)
  else if 0x41 ≤ c ∧ c ≤ 0x46 then some (c.toNat - 0x41 + 10)
  else none

/-- Limits of the request parser, with the defaults of the configuration. -/
structure ParserLimits where
  maxRequestLineSize : Nat := 8 * 1024
  maxHeaderLineSize : Nat := 8 * 1024
  maxHeaders : Nat := 100
  maxHeaderBlockSize : Nat := 64 * 1024
  maxChunks : Nat := 100000
  deriving DecidableEq, Repr

end Conflux.Http

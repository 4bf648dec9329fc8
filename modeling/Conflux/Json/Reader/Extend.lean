import Conflux.Json.Reader.Progress
import Conflux.Json.Text.Extend

/-!
# The pull reader with more input behind

The answer of the reader does not change when more input is put behind its own, unless it is
open: an error for want of input, a number that reaches the end of the input, or the end of the
input itself.
-/

namespace Conflux.Json

open Conflux.Core List Cur Ascii

variable {opts : JsonParseOptions} {mode : ParseMode} {depth : Nat} {v l : Bytes} {c c' : Cur}

/-! ## Tokens -/

namespace JsonReader

/-- The reader with more input behind. -/
def ext (r : JsonReader) (m : Bytes) : JsonReader := { r with cur := r.cur.ext m }

/-- An answer that more input may change: an error for want of input, or a number up to the
end. -/
inductive AnswerOpen (opts : JsonParseOptions) (depth : Nat) (c : Cur) :
    Except JsonError (Option Event) × JsonReader → Prop
  | wants {e : JsonError} {r : JsonReader} {w : Bytes} (hw : c.Reads w r.cur)
      (h : Wants opts depth e w r.cur.rest) : AnswerOpen opts depth c (.error e, r)
  | number {r : JsonReader} (hnil : r.cur.rest = []) :
      AnswerOpen opts depth c (.ok (some .numberValue), r)

/-- Separators in front of an open answer. -/
theorem AnswerOpen.after {x : Except JsonError (Option Event) × JsonReader}
    (h : AnswerOpen opts depth c' x) (hv : c.Reads v c') (hsep : ∀ b ∈ v, isSeparator b) :
    AnswerOpen opts depth c x := by
  cases h with
  | wants hw h => exact .wants (hv.trans hw) (h.prepend (.inl hsep))
  | number hnil => exact .number hnil

variable {r : JsonReader}

end JsonReader

end Conflux.Json

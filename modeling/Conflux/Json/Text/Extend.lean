import Conflux.Json.Text.Progress

/-!
# More input behind the cursor

What the scanners find does not change when more input is put behind theirs, unless they fail
for want of it. Such an error is told from what has been passed over and what is unread.
Comments are left out: in JSON5 mode no slash is to come.
-/

namespace Conflux.Json

open Conflux.Core List Ascii

/-- The cursor with more input behind. -/
def Cur.ext (c : Cur) (m : Bytes) : Cur := ⟨c.loc, c.rest ++ m⟩

@[simp] theorem Cur.ext_loc (c : Cur) (m : Bytes) : (c.ext m).loc = c.loc := rfl
/-- A failed scan with more input behind. -/
def Fail.ext (f : Fail) (m : Bytes) : Fail := ⟨f.err, f.cur.ext m⟩

/-- A literal that is cut short. -/
def literalCut (q : Bytes) : Bool :=
  [Literal.true_, .false_, .null_].any fun l => q.length < l.text.length && q.isPrefixOf l.text

/-- What may stand between two events besides the bytes of a token. -/
def isSeparator (b : UInt8) : Bool := isBlank b || b = comma

/-- No comment is to come. -/
def Plain (mode : ParseMode) (l : Bytes) : Prop := mode = .strict ∨ slash ∉ l

/-- How an error may go away with more input, `w` being passed over since the last event and `q`
unread. -/
inductive Wants (opts : JsonParseOptions) (depth : Nat) (e : JsonError) (w q : Bytes) : Prop
  /-- The input ends, and the error says so. -/
  | eof (hcode : e.code = .unexpectedEof)
  /-- The input ends where something else is required. -/
  | atEnd (hcode : e.code = .syntaxError) (hq : q = [])
  /-- A literal is cut short. Only separators come before it. -/
  | literal (hcode : e.code = .syntaxError) (hcut : literalCut q) (hne : q ≠ [])
      (hw : ∀ b ∈ w, isSeparator b)
  /-- An escape is cut short. -/
  | escape (hcode : e.code = .invalidUnicodeEscape) (hq : q.length < 4)
  /-- The low half of a pair of surrogates is cut short. -/
  | pair {v g : Bytes} {hi : Nat} (hcode : e.code = .invalidUnicodeEscape)
      (hw : w = v ++ backslash :: lowerU :: g) (hlen : g.length = 4) (hhi : hex4 g = some hi)
      (hhigh : isHighSurrogate hi) (hlow : q.take 2 = [backslash, lowerU])
      (hq : 4 ≤ q.length ∧ q.length < 6)
  /-- A UTF-8 sequence is cut short. -/
  | utf8 (hcode : e.code = .invalidUtf8) (hq : q.head?.any fun lead => q.length < utf8SeqLen lead)
  /-- The nesting limit is reached, and no value may come. -/
  | deep (hcode : e.code = .nestingTooDeep) (hq : q = [])
      (hdeep : opts.maxDepth.exceeds depth kDefaultMaxDepth)
  /-- A number is too long, and its end is not there. -/
  | number {v lex : Bytes} (hcode : e.code = .invalidNumber) (hq : q = []) (hw : w = v ++ lex)
      (hlong : kMaxNumberLexemeLen < lex.length) (hlex : NumberText lex)

variable {opts : JsonParseOptions} {mode : ParseMode} {depth n : Nat} {e : JsonError}
  {v w q l : Bytes} {c c' : Cur}

theorem Plain.reads (h : Plain mode c.rest) (hw : c.Reads w c') : Plain mode c'.rest := by
  rw [hw.1] at h
  exact h.imp_right (mt (mem_append_right w))

/-- An error with more passed over: separators, or anything if the error is not about the
structure. -/
theorem Wants.prepend (h : Wants opts depth e w q)
    (hv : (∀ b ∈ v, isSeparator b) ∨ e.code ≠ .syntaxError) : Wants opts depth e (v ++ w) q := by
  cases h with
  | eof hcode => exact .eof hcode
  | atEnd hcode hq => exact .atEnd hcode hq
  | literal hcode hcut hne hw =>
    obtain hv | hv := hv
    · exact .literal hcode hcut hne (forall_mem_append.mpr ⟨hv, hw⟩)
    · exact absurd hcode hv
  | escape hcode hq => exact .escape hcode hq
  | @pair u g hi hcode hw hlen hhi hhigh hlow hq =>
    exact .pair hcode (v := v ++ u) (by rw [hw, append_assoc]) hlen hhi hhigh hlow hq
  | utf8 hcode hq => exact .utf8 hcode hq
  | deep hcode hq hdeep => exact .deep hcode hq hdeep
  | @number u lex hcode hq hw hlong hlex =>
    exact .number hcode (v := v ++ u) hq (by rw [hw, append_assoc]) hlong hlex

/-! ## Whitespace -/

/-- What a unit passes over before it fails is part of `l`. -/
def StrUnit.Within (l : Bytes) (u : StrUnit) : Prop :=
  ∀ code msg n, u = .fail code msg n → n ≤ l.length

theorem StrUnit.Within.fail {code : JsonIssueCode} {msg : String} (h : n ≤ l.length) :
    (StrUnit.fail code msg n).Within l := by
  rintro _ _ _ ⟨⟩
  exact h

section

variable (opts) (depth) {quote a : UInt8} {code : JsonIssueCode} {msg : String}

end

/-! ## Literals -/

section

variable {p : Nat}

end

end Conflux.Json

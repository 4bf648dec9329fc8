import Conflux.Json.Dom.Skip
import Conflux.Json.Reader.Events

/-!
# What the pull reader accepts, and its transitions

The checks of the reader as predicates on syntax trees. They differ from those of the parser
in three ways: there is no ceiling on the depth but the configured limit, the size of a
string is its size as written, and the size of an identifier is not checked. Then one lemma for
each way the reader goes on, in the terms of the reference reader.
-/

namespace Conflux.Json

open Conflux.Core Ascii

/-- Whether a value inside this many containers is too deep for the reader. -/
def readerTooDeep (opts : JsonParseOptions) (depth : Nat) : Bool :=
  opts.maxDepth.exceeds depth kDefaultMaxDepth

/-- A string or a name within the limit of the reader. -/
def rawFits (opts : JsonParseOptions) (t : StrTok) : Bool :=
  t.form = .bare || !opts.maxStringSize.exceeds t.raw.length kDefaultMaxString

mutual

/-- Whether the reader accepts a tree inside `depth` containers. -/
def Cst.pulls (opts : JsonParseOptions) (depth : Nat) : Cst → Bool
  | .null => !readerTooDeep opts depth
  | .bool _ => !readerTooDeep opts depth
  | .num lexeme => !readerTooDeep opts depth && numberFits lexeme
  | .str t => !readerTooDeep opts depth && rawFits opts t
  | .arr ts => !readerTooDeep opts depth && itemsPull opts (depth + 1) ts
  | .obj ms => !readerTooDeep opts depth && membersPull opts (depth + 1) ms

/-- Whether the reader accepts items. -/
def itemsPull (opts : JsonParseOptions) (depth : Nat) : List Cst → Bool
  | [] => true
  | t :: ts => t.pulls opts depth && itemsPull opts depth ts

/-- Whether the reader accepts members. -/
def membersPull (opts : JsonParseOptions) (depth : Nat) : List (StrTok × Cst) → Bool
  | [] => true
  | (k, t) :: ms => rawFits opts k && t.pulls opts depth && membersPull opts depth ms

end

variable {opts : JsonParseOptions}

theorem Cst.not_tooDeep_of_pulls {depth : Nat} {t : Cst} (h : t.pulls opts depth) :
    readerTooDeep opts depth = false := by
  cases t <;> simp_all [Cst.pulls]

@[simp] theorem Literal.cst_pulls (opts : JsonParseOptions) (depth : Nat) (l : Literal) :
    l.cst.pulls opts depth = !readerTooDeep opts depth := by
  cases l <;> rfl

/-! ## Tokens -/

theorem rawFits_tok (b : StrBody) (quote : UInt8) :
    rawFits opts (b.tok quote) = !opts.maxStringSize.exceeds b.raw.length kDefaultMaxString := by
  have hform : StrForm.ofQuote quote ≠ .bare := by
    unfold StrForm.ofQuote
    split <;> simp
  simp [rawFits, StrBody.tok, hform]

/-- A string token is a string of the reference whose written form fits, and decodes to it. -/
theorem parseStrIntoToken_follows {quote : UInt8} (hq : IsQuote quote) (opts : JsonParseOptions)
    (c : Cur) :
    Follows (parseStrIntoToken quote opts.maxStringSize c.adv) (quoted quote c).toOption
      (fun b => rawFits opts b.1) (fun b a => a.2 = b.2 ∧ a.1.appendDecodedTo = .ok b.1.dec) := by
  have hfront := scanBody_front .reader .dom quote c.adv
  unfold parseStrIntoToken quoted
  cases hdom : scanBody .dom quote c.adv with
  | error e =>
    rw [hdom] at hfront
    cases hread : scanBody .reader quote c.adv with
    | error f => exact follows_none f
    | ok r =>
      rw [hread] at hfront
      cases hfront
  | ok r =>
    rw [hdom] at hfront
    obtain ⟨b, c'⟩ := r
    rw [toOption_eq_some.mp hfront]
    obtain ⟨-, hchars, hesc⟩ := scanBody_sound hq.ne_backslash hdom
    dsimp only
    cases hfit : opts.maxStringSize.exceeds b.raw.length kDefaultMaxString with
    | true =>
      rw [if_pos rfl]
      exact follows_error rfl (by simp [rawFits_tok, hfit])
    | false =>
      rw [if_neg Bool.false_ne_true]
      refine follows_ok rfl (by simp [rawFits_tok, hfit]) ⟨rfl, ?_⟩
      rw [hesc]
      exact JsonStringToken.decode_scanned hq.ne_backslash hchars hfit

/-- A name token is a name of the reference that fits, and decodes to it. -/
theorem parseObjectKeyToken_follows {c : Cur} (hws : skipWs opts.mode c = .ok c) :
    Follows (parseObjectKeyToken opts c) (memberName opts.mode c).toOption
      (fun b => rawFits opts b.1) (fun b a => a.2 = b.2 ∧ a.1.appendDecodedTo = .ok b.1.dec) := by
  unfold parseObjectKeyToken memberName
  rw [hws]
  obtain ⟨loc, rest⟩ := c
  cases rest with
  | nil => exact follows_none _
  | cons a l =>
    unfold parseObjectMemberName
    by_cases hquote : a = Ascii.quote
    · subst hquote
      exact parseStrIntoToken_follows (.inl rfl) opts _
    simp only [hquote, List.head?_cons, Option.some.injEq, if_false]
    cases opts.mode with
    | strict =>
      exact follows_none _
    | json5 =>
      by_cases hsq : a = Ascii.apostrophe
      · subst hsq
        exact parseStrIntoToken_follows (.inr rfl) opts _
      simp only [hsq, true_and, if_false, parseUnquotedKey, List.head?_cons, Option.any_some]
      by_cases hident : isIdentStart a
      · simp only [hident, if_true]
        exact follows_ok rfl rfl ⟨rfl, rfl⟩
      · simp only [hident, Bool.false_eq_true, if_false]
        exact follows_none _

/-! ## Transitions -/

/-- The punctuation of a kind of container. -/
def FrameKind.bracket : FrameKind → Bracket
  | .array => .array
  | .object => .object

/-- The event at the end of a container. -/
def FrameKind.close : FrameKind → Emitted
  | .array => .endArray
  | .object => .endObject

namespace JsonReader

/-- Where a reader without an error stands. -/
structure Stands (r : JsonReader) (c : Cur) (stack : List StateFrame) : Prop where
  cur : r.cur = c
  stack : r.stack = stack
  clean : r.lastError = none

/-- The event of a value, with its payload. -/
def valuePull (opts : JsonParseOptions) (r : JsonReader) :
    Except JsonError (Option Emitted) × JsonReader :=
  withPayload emitted (r.valueEvent opts)

/-- The event of a member name, with its payload. -/
def keyPull (opts : JsonParseOptions) (outer : List StateFrame) (r : JsonReader) :
    Except JsonError (Option Emitted) × JsonReader :=
  withPayload emitted (r.keyEvent opts outer)

/-- The first event of an item of a container. -/
def itemPull (opts : JsonParseOptions) (kind : FrameKind) (outer : List StateFrame)
    (r : JsonReader) : Except JsonError (Option Emitted) × JsonReader :=
  match kind with
  | .array => r.valuePull opts
  | .object => r.keyPull opts outer

variable {opts : JsonParseOptions} {r : JsonReader} {c c' : Cur} {stack outer : List StateFrame}

theorem pull_of_skipWs (h : r.Stands c stack) (hws : skipWs opts.mode c = .ok c') :
    r.pull opts = withPayload emitted ({ r with cur := c' }.dispatch opts) := by
  rw [pull, next, h.clean, h.cur]
  rw [hws]

theorem pull_of_wsError (h : r.Stands c stack) {f : Fail} (hws : skipWs opts.mode c = .error f) :
    Breaks (pull opts) (r.pull opts) := by
  rw [pull, next, h.clean, h.cur]
  rw [hws]
  exact .now

variable {first : Bool}

/-- Between the items of a container: an error, the end of the container, or an item. -/
theorem pull_container {kind : FrameKind} (h : r.Stands c (⟨kind, first, false⟩ :: outer))
    (hws : skipWs opts.mode c = .ok c') :
    match nextItem opts.mode kind.bracket first c' with
    | .error _ => Breaks (pull opts) (r.pull opts)
    | .ok (true, c'') =>
      ∃ s, r.pull opts = (.ok (some kind.close), s) ∧ s.Stands c'' outer
    | .ok (false, c'') =>
      ∃ s : JsonReader, r.pull opts = s.itemPull opts kind outer ∧
        s.Stands c'' (⟨kind, false, false⟩ :: outer) := by
  rw [pull_of_skipWs h hws, dispatch]
  rw [h.stack]
  cases kind with
  | array =>
    dsimp only [FrameKind.bracket]
    cases nextItem opts.mode .array first c' with
    | error f => exact .now
    | ok a =>
      obtain ⟨closed, c''⟩ := a
      cases closed with
      | true | false => exact ⟨_, rfl, rfl, rfl, h.clean⟩
  | object =>
    dsimp only [FrameKind.bracket]
    cases nextItem opts.mode .object first c' with
    | error f => exact .now
    | ok a =>
      obtain ⟨closed, c''⟩ := a
      cases closed with
      | true | false => exact ⟨_, rfl, rfl, rfl, h.clean⟩

/-- After a member name and its colon. -/
theorem pull_awaiting (h : r.Stands c (⟨.object, first, true⟩ :: outer))
    (hws : skipWs opts.mode c = .ok c') :
    ∃ s : JsonReader, r.pull opts = s.valuePull opts ∧
      s.Stands c' (⟨.object, first, false⟩ :: outer) := by
  rw [pull_of_skipWs h hws, dispatch]
  rw [h.stack]
  exact ⟨_, rfl, rfl, rfl, h.clean⟩

theorem pull_opened {kind : FrameKind} (h : r.Stands c.adv (⟨kind, true, false⟩ :: outer)) :
    match opened opts.mode kind.bracket.close c with
    | .error _ => Breaks (pull opts) (r.pull opts)
    | .ok (true, c') => ∃ s, r.pull opts = (.ok (some kind.close), s) ∧ s.Stands c' outer
    | .ok (false, c') =>
      skipWs opts.mode c' = .ok c' ∧
        ∃ s : JsonReader, r.pull opts = s.itemPull opts kind outer ∧
          s.Stands c' (⟨kind, false, false⟩ :: outer) := by
  unfold opened
  cases hws : skipWs opts.mode c.adv with
  | error f => exact pull_of_wsError h hws
  | ok c₁ =>
    have hnext := pull_container h hws
    dsimp only
    by_cases hclose : c₁.rest.head? = some kind.bracket.close
    · rw [if_pos hclose]
      simpa only [nextItem, hclose, if_true] using hnext
    rw [if_neg hclose]
    refine ⟨skipWs_idem hws, ?_⟩
    simpa only [nextItem, hclose, if_true, if_false] using hnext

private theorem nextItem_comma {b : Bracket} {loc : Loc} {l : Bytes} (mode : ParseMode)
    (h : comma ≠ b.close) :
    nextItem mode b false ⟨loc, comma :: l⟩ =
      match skipWs mode (Cur.adv ⟨loc, comma :: l⟩) with
      | .error f => .error f
      | .ok c =>
        if mode = .json5 ∧ c.rest.head? = some b.close then .ok (true, c.adv)
        else .ok (false, c) := by
  have hhead : (comma :: l).head? ≠ some b.close := by simpa using h
  unfold nextItem
  rw [if_neg hhead, if_neg Bool.false_ne_true, if_neg (by simp)] <;> rfl

private theorem nextItem_other {b : Bracket} (mode : ParseMode)
    (hclose : c.rest.head? ≠ some b.close) (hcomma : c.rest.head? ≠ some comma) :
    nextItem mode b false c = .error (c.fail .syntaxError b.sepMsg) := by
  unfold nextItem
  rw [if_neg hclose, if_neg Bool.false_ne_true, if_pos hcomma]

/-- What follows an item. In strict mode the reference leaves the whitespace after a comma to the
item, the reader skips it with the comma. -/
theorem nextItem_separator {b : Bracket} {mode : ParseMode} (hws : skipWs mode c = .ok c') :
    match separator mode b c with
    | .error _ => ∃ f, nextItem mode b false c' = .error f
    | .ok (true, c'') => nextItem mode b false c' = .ok (true, c'')
    | .ok (false, c'') =>
      match skipWs mode c'' with
      | .error _ => ∃ f, nextItem mode b false c' = .error f
      | .ok c₃ => nextItem mode b false c' = .ok (false, c₃) := by
  unfold separator
  rw [hws]
  obtain ⟨loc, rest⟩ := c'
  cases rest with
  | nil => exact ⟨_, nextItem_other mode (by simp) (by simp)⟩
  | cons a l =>
    dsimp only
    by_cases hclose : a = b.close
    · simp [nextItem, hclose]
    rw [if_neg hclose]
    by_cases hcomma : a = comma
    · subst hcomma
      rw [if_pos rfl, nextItem_comma mode hclose]
      cases mode with
      | strict =>
        dsimp only
        cases skipWs .strict (Cur.adv ⟨loc, comma :: l⟩) with
        | error f => exact ⟨f, rfl⟩
        | ok c₃ => rfl
      | json5 =>
        unfold opened
        cases hws' : skipWs .json5 (Cur.adv ⟨loc, comma :: l⟩) with
        | error f => exact ⟨f, rfl⟩
        | ok c₃ =>
          dsimp only
          by_cases hend : c₃.rest.head? = some b.close
          · rw [if_pos hend, if_pos ⟨rfl, hend⟩]
          rw [if_neg hend, if_neg (fun h => hend h.2)]
          dsimp only
          rw [skipWs_idem hws']
    · rw [if_neg hcomma]
      exact ⟨_, nextItem_other mode (by simpa using hclose) (by simpa using hcomma)⟩

end JsonReader

end Conflux.Json

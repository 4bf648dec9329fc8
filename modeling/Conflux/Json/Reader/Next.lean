import Conflux.Core.Pull
import Conflux.Json.Reader.Token

/-!
# The pull reader

The reader hands out one event at a time. It keeps a stack of open containers in place of
the recursion of the parser, and the payload of the last event. An error is sticky.
-/

namespace Conflux.Json

open Conflux.Core Ascii

/-- The events of the reader. -/
inductive Event where
  | beginObject | endObject | beginArray | endArray
  | key | stringValue | numberValue | boolValue | nullValue
  deriving DecidableEq, Repr

/-- The two kinds of container. -/
inductive FrameKind where
  | object | array
  deriving DecidableEq, Repr

/-- An open container. -/
structure StateFrame where
  kind : FrameKind
  /-- Whether nothing has been read in it. -/
  first : Bool := true
  /-- Whether a name has been read and its value has not. -/
  awaitingValue : Bool := false
  deriving DecidableEq, Repr

/-- The state of a reader. The unread input stands for the input and the position. -/
structure JsonReader where
  /-- Unread input and location. -/
  cur : Cur
  /-- Open containers, the innermost first. -/
  stack : List StateFrame := []
  /-- Name of the last `key` event. -/
  keyToken : JsonStringToken := {}
  /-- String of the last `stringValue` event. -/
  strToken : JsonStringToken := {}
  /-- Lexeme of the last `numberValue` event. -/
  numVal : Bytes := []
  /-- Payload of the last `boolValue` event. -/
  boolVal : Bool := false
  /-- The error that has been met, if any. -/
  lastError : Option JsonError := none
  /-- Where the last value starts. -/
  valueStart : Nat := 0
  deriving DecidableEq, Repr

/-- A reader of an input. -/
def JsonReader.ofInput (input : Bytes) : JsonReader := { cur := ⟨{}, input⟩ }

/-- A quoted string, from after its opening quote. The limit is on the written size. -/
def parseStrIntoToken (quote : UInt8) (maxSize : LimitOption) (c : Cur) :
    Except Fail (JsonStringToken × Cur) :=
  match scanBody .reader quote c with
  | .error f => .error f
  | .ok (b, c) =>
    if maxSize.exceeds b.raw.length kDefaultMaxString then
      .error (c.fail .stringTooLarge "string exceeds max_string_size")
    else .ok (⟨quote :: b.raw ++ [quote], b.hasEsc, false, maxSize⟩, c)

/-- A member name. Identifiers are allowed in JSON5 mode, and their size is not checked. -/
def parseObjectKeyToken (opts : JsonParseOptions) (c : Cur) :
    Except Fail (JsonStringToken × Cur) :=
  match c.rest with
  | [] => .error (c.fail .unexpectedEof "EOF in object")
  | a :: _ =>
    if a = quote then parseStrIntoToken quote opts.maxStringSize c.adv
    else if opts.mode = .json5 ∧ a = apostrophe then
      parseStrIntoToken apostrophe opts.maxStringSize c.adv
    else if opts.mode = .json5 ∧ isIdentStart a then
      let name := c.rest.takeWhile isIdentPart
      .ok (⟨name, false, true, opts.maxStringSize⟩, c.adv name.length)
    else .error (c.fail .syntaxError "std::expected string key")

/-- The event of a literal. -/
def Literal.event : Literal → Event
  | .true_ => .boolValue
  | .false_ => .boolValue
  | .null_ => .nullValue

namespace JsonReader

/-- The payload that a literal leaves. -/
def setLiteral (r : JsonReader) : Literal → JsonReader
  | .true_ => { r with boolVal := true }
  | .false_ => { r with boolVal := false }
  | .null_ => r

/-- The event of the value at the cursor. The nesting limit is checked first. -/
def parseValueEvent (opts : JsonParseOptions) (r : JsonReader) : Except Fail (Event × JsonReader) :=
  if opts.maxDepth.exceeds r.stack.length kDefaultMaxDepth then
    .error (r.cur.fail .nestingTooDeep "nesting depth limit exceeded")
  else
    match r.cur.rest with
    | [] => .error (r.cur.fail .unexpectedEof "std::unexpected end of input")
    | a :: _ =>
      match lead opts.mode a with
      | .str quote =>
        match parseStrIntoToken quote opts.maxStringSize r.cur.adv with
        | .error f => .error f
        | .ok (t, c) => .ok (.stringValue, { r with cur := c, strToken := t })
      | .obj =>
        .ok (.beginObject, { r with cur := r.cur.adv, stack := ⟨.object, true, false⟩ :: r.stack })
      | .arr =>
        .ok (.beginArray, { r with cur := r.cur.adv, stack := ⟨.array, true, false⟩ :: r.stack })
      | .lit l =>
        match literal l r.cur with
        | .error f => .error f
        | .ok c => .ok (l.event, { r with cur := c }.setLiteral l)
      | .num =>
        match parseNumberLexeme r.cur with
        | .error f => .error f
        | .ok (lex, c) => .ok (.numberValue, { r with cur := c, numVal := lex.lexeme })
      | .other => .error (r.cur.fail .syntaxError (unexpectedCharacter a))

/-- Keep an error, and stay where it was met. -/
def failWith {α : Type} (r : JsonReader) (f : Fail) : Except JsonError α × JsonReader :=
  (.error f.err, { r with cur := f.cur, lastError := some f.err })

/-- Hand out the event of a value. -/
def valueEvent (opts : JsonParseOptions) (r : JsonReader) :
    Except JsonError (Option Event) × JsonReader :=
  let r := { r with valueStart := r.cur.loc.offset }
  match r.parseValueEvent opts with
  | .error f => r.failWith f
  | .ok (e, r) => (.ok (some e), r)

/-- Move to the next item of a container, from behind whitespace: to its closing byte, or over the
comma in front of an item that is not the first. JSON5 allows a comma before the closing byte. The
flag tells whether the container is closed. -/
def nextItem (mode : ParseMode) (b : Bracket) (first : Bool) (c : Cur) :
    Except Fail (Bool × Cur) :=
  if c.rest.head? = some b.close then .ok (true, c.adv)
  else if first then .ok (false, c)
  else if c.rest.head? ≠ some comma then .error (c.fail .syntaxError b.sepMsg)
  else
    match skipWs mode c.adv with
    | .error f => .error f
    | .ok c =>
      if mode = .json5 ∧ c.rest.head? = some b.close then .ok (true, c.adv) else .ok (false, c)

/-- Hand out the name of a member and pass over its colon. -/
def keyEvent (opts : JsonParseOptions) (r : JsonReader) (outer : List StateFrame) :
    Except JsonError (Option Event) × JsonReader :=
  match parseObjectKeyToken opts r.cur with
  | .error f => r.failWith f
  | .ok (t, c) =>
    let r := { r with cur := c, keyToken := t }
    match colon opts.mode c with
    | .error f => r.failWith f
    | .ok c => (.ok (some .key), { r with cur := c, stack := ⟨.object, false, true⟩ :: outer })

/-- The next event by the innermost container, from behind whitespace. -/
def dispatch (opts : JsonParseOptions) (r : JsonReader) :
    Except JsonError (Option Event) × JsonReader :=
  match r.stack with
  | [] => if r.cur.rest = [] then (.ok none, r) else r.valueEvent opts
  | ⟨.array, first, awaiting⟩ :: outer =>
    match nextItem opts.mode .array first r.cur with
    | .error f => r.failWith f
    | .ok (true, c) => (.ok (some .endArray), { r with cur := c, stack := outer })
    | .ok (false, c) =>
      { r with cur := c, stack := ⟨.array, false, awaiting⟩ :: outer }.valueEvent opts
  | ⟨.object, first, true⟩ :: outer =>
    { r with stack := ⟨.object, first, false⟩ :: outer }.valueEvent opts
  | ⟨.object, first, false⟩ :: outer =>
    match nextItem opts.mode .object first r.cur with
    | .error f => r.failWith f
    | .ok (true, c) => (.ok (some .endObject), { r with cur := c, stack := outer })
    | .ok (false, c) =>
      { r with cur := c, stack := ⟨.object, false, false⟩ :: outer }.keyEvent opts outer

/-- The next event. -/
def next (opts : JsonParseOptions) (r : JsonReader) :
    Except JsonError (Option Event) × JsonReader :=
  match r.lastError with
  | some e => (.error e, r)
  | none =>
    match skipWs opts.mode r.cur with
    | .error f => r.failWith f
    | .ok c => { r with cur := c }.dispatch opts

end JsonReader

/-! ## Events with their payloads -/

/-- An event together with its payload. Strings and names are decoded. -/
inductive Emitted where
  | beginObject | endObject | beginArray | endArray
  | key (name : Except JsonError Bytes)
  | string (s : Except JsonError Bytes)
  | number (lexeme : Bytes)
  | bool (b : Bool)
  | null
  deriving DecidableEq, Repr

/-- The payload of the last event. -/
def JsonReader.emitted (r : JsonReader) : Event → Emitted
  | .beginObject => .beginObject
  | .endObject => .endObject
  | .beginArray => .beginArray
  | .endArray => .endArray
  | .key => .key r.keyToken.appendDecodedTo
  | .stringValue => .string r.strToken.appendDecodedTo
  | .numberValue => .number r.numVal
  | .boolValue => .bool r.boolVal
  | .nullValue => .null

/-- An answer with the payload of its event. -/
def withPayload {σ : Type} (payload : σ → Event → Emitted)
    (r : Except JsonError (Option Event) × σ) : Except JsonError (Option Emitted) × σ :=
  (r.1.map (Option.map (payload r.2)), r.2)

/-- The next event with its payload. -/
def JsonReader.pull (opts : JsonParseOptions) (r : JsonReader) :
    Except JsonError (Option Emitted) × JsonReader :=
  withPayload JsonReader.emitted (r.next opts)

/-- All events of a reader. Every event passes over a byte, and the end is one more
request. -/
def JsonReader.readAll (opts : JsonParseOptions) (r : JsonReader) :
    List Emitted × Outcome JsonError :=
  let (es, o, _) := drain (pull opts) (r.cur.rest.length + 1) r
  (es, o)

end Conflux.Json

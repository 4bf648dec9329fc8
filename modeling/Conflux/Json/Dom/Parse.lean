import Conflux.Json.Dom.Storage
import Conflux.Json.Syntax.Read

/-!
# The parser

The recursive-descent parser that builds a document: it appends nodes in post-order,
gathers the children and members of open containers on shared staging stacks, and moves
them to their tables when a container closes. A repeated member name is rejected, replaced
in place, or skipped by a second descent that stores nothing.
-/

namespace Conflux.Json

open Conflux.Core Ascii

/-- Nesting the descent never exceeds, whatever the limit. -/
def kRecursiveDepthCeiling : Nat := 256

/-- Members up to which names are compared one by one. -/
def kDedupLinearMax : Nat := 8

/-- Members from which an object may have an index. -/
def kHashThreshold : Nat := 32

/-- Longest walk through an index. -/
def kProbeChainMax : Nat := 64

/-- Largest index. -/
def kEffectiveMaxSlots : Nat := 2 ^ 25

/-- Largest size of an index in bytes. -/
def kMaxHashIndexBytes : Nat := 256 * 1024 * 1024

/-- Whether a value at this depth is too deep. -/
def tooDeep (opts : JsonParseOptions) (depth : Nat) : Bool :=
  depth > kRecursiveDepthCeiling || opts.maxDepth.exceeds depth kDefaultMaxDepth

/-- Whether a decoded string or name is too long. -/
def stringTooLarge (opts : JsonParseOptions) (len : Nat) : Bool :=
  opts.maxStringSize.exceeds len kDefaultMaxString

/-- The error of a string that is too long. -/
def stringSizeError (c : Cur) : Fail :=
  c.fail .stringTooLarge "std::string exceeds max_string_size"

/-- The result of a descent whose fuel has run out, which sufficient fuel excludes. -/
def outOfFuel (c : Cur) : Fail := c.fail .resourceExhausted "out of fuel"

/-! ## Skipping -/

/-- Skip a member name. Its size is not checked. -/
def skipMemberName (mode : ParseMode) (c : Cur) : Except Fail Cur :=
  match skipWs mode c with
  | .error e => .error e
  | .ok c =>
    if c.rest = [] then .error (c.fail .unexpectedEof "EOF in object")
    else if c.rest.head? = some quote then (skipStrBodyNoStore quote c.adv).map Prod.snd
    else
      match mode with
      | .strict => .error (c.fail .syntaxError "std::expected string key")
      | .json5 =>
        if c.rest.head? = some apostrophe then
          (skipStrBodyNoStore apostrophe c.adv).map Prod.snd
        else (parseUnquotedKey c).map Prod.snd

/-- Skip a member: a name, a colon and a value. -/
def skipMember (mode : ParseMode) (skip : Cur → Except Fail Cur) (c : Cur) : Except Fail Cur :=
  match skipMemberName mode c with
  | .error e => .error e
  | .ok c =>
    match colon mode c with
    | .error e => .error e
    | .ok c => skip c

mutual

/-- Skip a value, keeping the syntax, depth and string limits. -/
def skipValue (opts : JsonParseOptions) : Nat → Nat → Cur → Except Fail Cur
  | 0, _, c => .error (outOfFuel c)
  | n + 1, depth, c =>
    match valueStart opts.mode (tooDeep opts depth) c with
    | .error e => .error e
    | .ok (a, c) =>
      match lead opts.mode a with
      | .str quote =>
        match skipStrBodyNoStore quote c.adv with
        | .error e => .error e
        | .ok (len, c) =>
          if stringTooLarge opts len then .error (stringSizeError c) else .ok c
      | .lit l => literal l c
      | .num =>
        match parseNumberLexeme c with
        | .error e => .error e
        | .ok (_, c) => .ok c
      | .arr =>
        match opened opts.mode rbracket c with
        | .error e => .error e
        | .ok (true, c) => .ok c
        | .ok (false, c) => skipElems opts n depth c
      | .obj =>
        match opened opts.mode rbrace c with
        | .error e => .error e
        | .ok (true, c) => .ok c
        | .ok (false, c) => skipMembers opts n depth c
      | .other => .error (c.fail .syntaxError (unexpectedCharacter a))

/-- Skip the elements of an array. -/
def skipElems (opts : JsonParseOptions) : Nat → Nat → Cur → Except Fail Cur
  | 0, _, c => .error (outOfFuel c)
  | n + 1, depth, c =>
    match skipValue opts n (depth + 1) c with
    | .error e => .error e
    | .ok c =>
      match separator opts.mode .array c with
      | .error e => .error e
      | .ok (true, c) => .ok c
      | .ok (false, c) => skipElems opts n depth c

/-- Skip the members of an object. -/
def skipMembers (opts : JsonParseOptions) : Nat → Nat → Cur → Except Fail Cur
  | 0, _, c => .error (outOfFuel c)
  | n + 1, depth, c =>
    match skipMember opts.mode (skipValue opts n (depth + 1)) c with
    | .error e => .error e
    | .ok c =>
      match separator opts.mode .object c with
      | .error e => .error e
      | .ok (true, c) => .ok c
      | .ok (false, c) => skipMembers opts n depth c

end

/-! ## Storing -/

/-- The parser's state: the store, and the staging stacks of open containers. -/
structure TreeBuilder where
  store : DocumentStorage
  /-- Children of open arrays. -/
  staging : List Nat := []
  /-- Members of open objects. -/
  stagingMembers : List MemberEntry := []
  deriving DecidableEq, Repr

/-- A stored string: its place and length. -/
structure ParsedStr where
  off : Nat
  len : Nat
  /-- Where it lives. -/
  flags : StrFlags
  deriving DecidableEq, Repr

namespace TreeBuilder

/-- Append a node. -/
def pushNode (tb : TreeBuilder) (nd : Node) : Nat × TreeBuilder :=
  (tb.store.nodes.length, { tb with store := { tb.store with nodes := tb.store.nodes ++ [nd] } })

/-- Append decoded bytes to the arena. -/
def pushArena (tb : TreeBuilder) (dec : Bytes) : ParsedStr × TreeBuilder :=
  (⟨tb.store.stringArena.length, dec.length, {}⟩,
    { tb with store := { tb.store with stringArena := tb.store.stringArena ++ dec } })

/-- A double-quoted body, from after its quote. Without escapes it stays a slice of the input;
otherwise it is decoded into the arena. -/
def parseStrBody (tb : TreeBuilder) (c : Cur) : Except Fail (ParsedStr × TreeBuilder × Cur) :=
  match scanBody .dom Ascii.quote c with
  | .error e => .error e
  | .ok (b, c') =>
    if b.hasEsc then
      let (s, tb) := tb.pushArena b.dec
      .ok (s, tb, c')
    else .ok (⟨c.loc.offset, b.raw.length, .view⟩, tb, c')

/-- A single-quoted body, from after its opening quote, decoded into the arena. -/
def parseStrBodySq (tb : TreeBuilder) (c : Cur) : Except Fail (ParsedStr × TreeBuilder × Cur) :=
  match scanBody .dom apostrophe c with
  | .error e => .error e
  | .ok (b, c') =>
    let (s, tb) := tb.pushArena b.dec
    .ok (s, tb, c')

/-- A body of either kind, from its opening quote. -/
def parseQuoted (tb : TreeBuilder) (quote : UInt8) (c : Cur) :
    Except Fail (ParsedStr × TreeBuilder × Cur) :=
  if quote = apostrophe then tb.parseStrBodySq c.adv else tb.parseStrBody c.adv

/-- A string value, from its opening quote. -/
def parseStrNode (opts : JsonParseOptions) (tb : TreeBuilder) (quote : UInt8) (c : Cur) :
    Except Fail (Nat × TreeBuilder × Cur) :=
  match tb.parseQuoted quote c with
  | .error e => .error e
  | .ok (s, tb, c) =>
    if stringTooLarge opts s.len then .error (stringSizeError c)
    else
      let (i, tb) := tb.pushNode (.string s.off s.len s.flags)
      .ok (i, tb, c)

/-- A number value. The lexeme stays a slice of the input. -/
def parseNumber (tb : TreeBuilder) (c : Cur) : Except Fail (Nat × TreeBuilder × Cur) :=
  match parseNumberLexeme c with
  | .error e => .error e
  | .ok (lex, c') =>
    let (i, tb) := tb.pushNode (.number c.loc.offset lex.lexeme.length .view lex.intForm)
    .ok (i, tb, c')

/-- Close an array whose children start at `start` on the staging stack. -/
def finishArray (tb : TreeBuilder) (start : Nat) : Nat × TreeBuilder :=
  let kids := tb.staging.drop start
  { tb with
    store := { tb.store with arrayChildren := tb.store.arrayChildren ++ kids }
    staging := tb.staging.take start }.pushNode (.array tb.store.arrayChildren.length kids.length)

end TreeBuilder

/-! ## Object indices built while parsing -/

/-- Seeded hash of a member name. -/
def hashName (name : Bytes) (seed : UInt64) : Nat :=
  let h := name.foldl (fun h c => (h ^^^ c.toUInt64) * 1099511628211) (1469598103934665603 ^^^ seed)
  let h := (h ^^^ (h >>> 33)) * 0xff51afd7ed558ccd
  (h ^^^ (h >>> 33)).toUInt32.toNat

/-- Size in bytes of an index. -/
def hashIndexBytes (capacity count : Nat) : Nat := 24 + 8 * capacity + 8 * count

/-- Double a capacity until it reaches its target. -/
def growCapacity (target : Nat) : Nat → Nat → Nat
  | 0, cap => cap
  | k + 1, cap =>
    if cap < target ∧ cap < kEffectiveMaxSlots then growCapacity target k (2 * cap) else cap

/-- Halve a capacity until its index fits the budget. -/
def shrinkCapacity (count : Nat) : Nat → Nat → Nat
  | 0, cap => cap
  | k + 1, cap =>
    if cap > count ∧ hashIndexBytes cap count > kMaxHashIndexBytes then
      shrinkCapacity count k (cap / 2)
    else cap

/-- The slots for an object with `count` members, zero if it is too large to index. Neither loop
runs more than 32 times. -/
def clampedCapacity (count : Nat) : Nat :=
  let target := if count ≤ kEffectiveMaxSlots / 2 then count * 2 else kEffectiveMaxSlots
  let cap := growCapacity target 32 1
  if cap < count then 0
  else
    let cap := shrinkCapacity count 32 cap
    if hashIndexBytes cap count > kMaxHashIndexBytes then 0 else cap

/-- Place an entry at the first free slot from its hash on, with `k` probes left and `p` made. -/
def probeInsert (slots : List (Option Slot)) (s : Slot) : Nat → Nat → Option (List (Option Slot))
  | 0, _ => none
  | k + 1, p =>
    let i := (s.hash + p) % slots.length
    match slots[i]? with
    | some none => some (slots.set i (some s))
    | _ => probeInsert slots s k (p + 1)

/-- Place entries with the given hashes one after the other, the first having index `i`. -/
def probeBuild (maxProbe : Nat) : List Nat → Nat → List (Option Slot) → Option (List (Option Slot))
  | [], _, slots => some slots
  | h :: hs, i, slots =>
    match probeInsert slots ⟨i, h⟩ maxProbe 0 with
    | none => none
    | some slots => probeBuild maxProbe hs (i + 1) slots

/-- Build the index of a list of members. -/
def buildTable (st : DocumentStorage) (seed : UInt64) (cap : Nat) (ms : List MemberEntry) :
    HashIdx :=
  let hashes := ms.map fun m => hashName ((st.memberName m).getD []) seed
  match probeBuild kProbeChainMax hashes 0 (List.replicate cap none) with
  | some slots => .table seed slots
  | none => .failed

/-- The index built when an object closes, if the options ask for one. -/
def warmIndex (opts : JsonParseOptions) (seed : UInt64) (st : DocumentStorage)
    (ms : List MemberEntry) : HashIdx :=
  match opts.warmThreshold with
  | none => .none
  | some w =>
    if w ≤ ms.length ∧ kHashThreshold ≤ ms.length ∧ 0 < clampedCapacity ms.length then
      buildTable st seed (clampedCapacity ms.length) ms
    else .none

/-! ## Members -/

/-- The place of a name, as kept by the hashed duplicate check, with the index of its
member on the staging stack. -/
abbrev SeenHash := Option (List (ParsedStr × Nat))

namespace TreeBuilder

/-- The place of the name of a member. -/
def nameKey (m : MemberEntry) : ParsedStr := ⟨m.nameOff, m.nameLen, m.nameFlags⟩

/-- The staged member with a given name, if there is one. -/
def dedupMemberIndex (tb : TreeBuilder) (start : Nat) (name : ParsedStr) (seen : SeenHash) :
    Option Nat :=
  let bytes (s : ParsedStr) := tb.store.bytesAt s.off s.len s.flags
  match seen with
  | some entries => (entries.find? fun e => bytes e.1 = bytes name).map Prod.snd
  | none =>
    ((tb.stagingMembers.drop start).findIdx? fun m =>
      tb.store.memberName m = bytes name).map (start + ·)

/-- Close an object whose members start at `start`. The seed of its index is drawn for the node. -/
def finishObject (opts : JsonParseOptions) (seed : Nat → UInt64) (tb : TreeBuilder) (start : Nat) :
    Nat × TreeBuilder :=
  let ms := tb.stagingMembers.drop start
  { tb with
    store := { tb.store with objectMembers := tb.store.objectMembers ++ ms }
    stagingMembers := tb.stagingMembers.take start }.pushNode
      (.object tb.store.objectMembers.length ms.length
        (warmIndex opts (seed tb.store.nodes.length) tb.store ms))

/-- A member name, stored. -/
def parseObjectMemberName (opts : JsonParseOptions) (tb : TreeBuilder) (c : Cur) :
    Except Fail (ParsedStr × TreeBuilder × Cur) :=
  if c.rest.head? = some Ascii.quote then tb.parseQuoted Ascii.quote c
  else
    match opts.mode with
    | .strict => .error (c.fail .syntaxError "std::expected string key")
    | .json5 =>
      if c.rest.head? = some apostrophe then tb.parseQuoted apostrophe c
      else
        match parseUnquotedKey c with
        | .error e => .error e
        | .ok (t, c') => .ok (⟨c.loc.offset, t.raw.length, .view⟩, tb, c')

/-- The start of a member: whitespace, then a stored name within the size limit. -/
def memberName (opts : JsonParseOptions) (tb : TreeBuilder) (c : Cur) :
    Except Fail (ParsedStr × TreeBuilder × Cur) :=
  match skipWs opts.mode c with
  | .error e => .error e
  | .ok c =>
    if c.rest = [] then .error (c.fail .unexpectedEof "EOF in object")
    else
      match tb.parseObjectMemberName opts c with
      | .error e => .error e
      | .ok (s, tb, c) =>
        if stringTooLarge opts s.len then .error (stringSizeError c) else .ok (s, tb, c)

/-- Stage a new name. The hashed duplicate check takes over when the object outgrows the linear
one. -/
def stageMember (tb : TreeBuilder) (start : Nat) (name : ParsedStr) (val : Nat)
    (seen : SeenHash) : TreeBuilder × SeenHash :=
  let ms := tb.stagingMembers ++ [⟨name.off, name.len, val, name.flags⟩]
  let seen :=
    match seen with
    | some entries => some (entries ++ [(name, tb.stagingMembers.length)])
    | none =>
      if kDedupLinearMax < ms.length - start then
        some (((ms.drop start).map nameKey).zipIdx start)
      else none
  ({ tb with stagingMembers := ms }, seen)

/-- Replace the value of a staged member. -/
def replaceMember (tb : TreeBuilder) (i val : Nat) : TreeBuilder :=
  { tb with stagingMembers := tb.stagingMembers.modify i fun m => { m with valNode := val } }

end TreeBuilder

/-- The text of the duplicate-member diagnostic. -/
def duplicateMember (name : Bytes) : String :=
  "duplicate member: " ++ String.ofList (name.map fun b => Char.ofNat b.toNat)

/-- The node of a literal. -/
def Literal.node : Literal → Node
  | .true_ => .boolean true
  | .false_ => .boolean false
  | .null_ => .null

/-- One member, given the two ways to deal with its value. -/
def parseObjectMember (opts : JsonParseOptions)
    (parse : TreeBuilder → Cur → Except Fail (Nat × TreeBuilder × Cur))
    (skip : Cur → Except Fail Cur) (start : Nat) (seen : SeenHash) (tb : TreeBuilder) (c : Cur) :
    Except Fail (TreeBuilder × SeenHash × Cur) :=
  match tb.memberName opts c with
  | .error e => .error e
  | .ok (name, tb, c) =>
    let dup := tb.dedupMemberIndex start name seen
    if dup.isSome ∧ opts.duplicateKey = .reject then
      .error (c.fail .duplicateMember
        (duplicateMember ((tb.store.bytesAt name.off name.len name.flags).getD [])))
    else
      match colon opts.mode c with
      | .error e => .error e
      | .ok c =>
        if dup.isSome ∧ opts.duplicateKey = .firstWins then
          match skip c with
          | .error e => .error e
          | .ok c => .ok (tb, seen, c)
        else
          match parse tb c with
          | .error e => .error e
          | .ok (val, tb, c) =>
            match dup with
            | some i => .ok (tb.replaceMember i val, seen, c)
            | none =>
              let (tb, seen) := tb.stageMember start name val seen
              .ok (tb, seen, c)

mutual

/-- Parse a value. The seeds are the ones indices are built with, by node. -/
def parseValue (opts : JsonParseOptions) (seed : Nat → UInt64) :
    Nat → Nat → TreeBuilder → Cur → Except Fail (Nat × TreeBuilder × Cur)
  | 0, _, _, c => .error (outOfFuel c)
  | n + 1, depth, tb, c =>
    match valueStart opts.mode (tooDeep opts depth) c with
    | .error e => .error e
    | .ok (a, c) =>
      match lead opts.mode a with
      | .str quote => tb.parseStrNode opts quote c
      | .lit l =>
        match literal l c with
        | .error e => .error e
        | .ok c =>
          let (i, tb) := tb.pushNode l.node
          .ok (i, tb, c)
      | .num => tb.parseNumber c
      | .arr =>
        match opened opts.mode rbracket c with
        | .error e => .error e
        | .ok (true, c) =>
          let (i, tb) := tb.finishArray tb.staging.length
          .ok (i, tb, c)
        | .ok (false, c) => parseElems opts seed n depth tb.staging.length tb c
      | .obj =>
        match opened opts.mode rbrace c with
        | .error e => .error e
        | .ok (true, c) =>
          let (i, tb) := tb.pushNode (.object tb.store.objectMembers.length 0 .none)
          .ok (i, tb, c)
        | .ok (false, c) => parseMembers opts seed n depth tb.stagingMembers.length none tb c
      | .other => .error (c.fail .syntaxError (unexpectedCharacter a))

/-- Parse the elements of an array whose children start at `start` on the staging stack. -/
def parseElems (opts : JsonParseOptions) (seed : Nat → UInt64) :
    Nat → Nat → Nat → TreeBuilder → Cur → Except Fail (Nat × TreeBuilder × Cur)
  | 0, _, _, _, c => .error (outOfFuel c)
  | n + 1, depth, start, tb, c =>
    match parseValue opts seed n (depth + 1) tb c with
    | .error e => .error e
    | .ok (i, tb, c) =>
      let tb := { tb with staging := tb.staging ++ [i] }
      match separator opts.mode .array c with
      | .error e => .error e
      | .ok (true, c) =>
        let (i, tb) := tb.finishArray start
        .ok (i, tb, c)
      | .ok (false, c) => parseElems opts seed n depth start tb c

/-- Parse the members of an object whose members start at `start` on the staging stack. -/
def parseMembers (opts : JsonParseOptions) (seed : Nat → UInt64) :
    Nat → Nat → Nat → SeenHash → TreeBuilder → Cur → Except Fail (Nat × TreeBuilder × Cur)
  | 0, _, _, _, _, c => .error (outOfFuel c)
  | n + 1, depth, start, seen, tb, c =>
    match parseObjectMember opts (parseValue opts seed n (depth + 1))
        (skipValue opts n (depth + 1)) start seen tb c with
    | .error e => .error e
    | .ok (tb, seen, c) =>
      match separator opts.mode .object c with
      | .error e => .error e
      | .ok (true, c) =>
        let (i, tb) := tb.finishObject opts seed start
        .ok (i, tb, c)
      | .ok (false, c) => parseMembers opts seed n depth start seen tb c

end

end Conflux.Json

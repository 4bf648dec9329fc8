import Conflux.Core.Loop

/-!
# Decoding DNS messages

`decodeMessage` reads the header and the four sections of a datagram. Names are lowercased and
may continue at an earlier place of the datagram; every fault is an error of the kind
`malformed` with its text.
-/

namespace Conflux.Dns

open Conflux.Core

/-- Bytes of a datagram or of a name. -/
abbrev Bytes := List UInt8

/-- The kinds of errors. -/
inductive DnsErrorKind where
  | timeout
  | nxdomain
  | servfail
  | refused
  | formerr
  | malformed
  | noServers
  | network
  | truncated
  | cancelled
  | invalidHostname
  | noRing
  | cannotBlockOnOwnedRing
  | notImplemented
  deriving DecidableEq, Repr

/-- An error, with the response code if there was one. -/
structure DnsError where
  kind : DnsErrorKind
  message : String
  osErrno : Int := 0
  rcode : Option UInt8 := none
  deriving DecidableEq, Repr

/-- The error of a datagram that cannot be read. -/
def malformed (message : String) : DnsError :=
  { kind := .malformed, message := message }

/-- Record types and classes are 16-bit numbers; any value may be received. -/
abbrev QType := UInt16

/-- The class of a record. -/
abbrev QClass := UInt16

/-- The class of the Internet. -/
def QClass.in_ : QClass := 1

/-- The header of a message. -/
structure Header where
  id : UInt16
  flags : UInt16
  qdcount : UInt16
  ancount : UInt16
  nscount : UInt16
  arcount : UInt16
  deriving DecidableEq, Repr

/-- Whether the message is a response. -/
def Header.qr (h : Header) : Bool := h.flags &&& 0x8000 != 0

/-- Whether the message is truncated. -/
def Header.tc (h : Header) : Bool := h.flags &&& 0x0200 != 0

/-- The response code. -/
def Header.rcode (h : Header) : UInt8 := (h.flags &&& 0x000F).toUInt8

/-- An entry of the question section. -/
structure Question where
  name : Bytes
  qtype : QType
  qclass : QClass
  deriving DecidableEq, Repr

/-- A resource record. -/
structure ResourceRecord where
  name : Bytes
  type : QType
  rclass : QClass
  ttl : UInt32
  rdata : Bytes
  deriving DecidableEq, Repr

/-- A decoded message. -/
structure Message where
  header : Header
  questions : List Question
  answers : List ResourceRecord
  authority : List ResourceRecord
  additional : List ResourceRecord
  deriving DecidableEq, Repr

/-! ## Names -/

/-- Two lowercase hexadecimal digits. -/
def hexByte (n : UInt8) : String :=
  let digits := String.ofList (Nat.toDigits 16 n.toNat)
  if n < 0x10 then "0" ++ digits else digits

/-- The lower case of an ASCII letter. -/
def asciiLower (c : UInt8) : UInt8 :=
  if 0x41 ≤ c ∧ c ≤ 0x5A then c + 0x20 else c

/-- How far a name has been read. -/
structure NameState where
  out : Bytes := []
  depth : Nat := 0
  cursor : Nat
  consumed : Nat := 0
  followedPointer : Bool := false
  deriving DecidableEq, Repr

/-- How many pointers may be followed. -/
def kMaxDepth : Nat := 16

/-- One round of reading a name: the end, a pointer to an earlier place, or a label. -/
def nameTurn (wire : Bytes) (offset : Nat) (s : NameState) :
    Turn NameState (Except DnsError (Bytes × Nat)) :=
  match wire[s.cursor]? with
  | none => .done (.error (malformed "decode_name: cursor out of range"))
  | some len =>
    if len = 0 then
      let cursor := s.cursor + 1
      .done (.ok (s.out, if s.followedPointer then s.consumed else cursor - offset))
    else if len &&& 0xC0 = 0xC0 then
      match wire[s.cursor + 1]? with
      | none => .done (.error (malformed "decode_name: pointer truncated"))
      | some low =>
        let next := (len &&& 0x3F).toNat * 256 + low.toNat
        let consumed := if s.followedPointer then s.consumed else s.cursor + 2 - offset
        if s.cursor ≤ next then
          let cursor := s.cursor
          .done (.error (malformed s!"decode_name: forward pointer {next} >= {cursor}"))
        else if kMaxDepth < s.depth + 1 then
          .done (.error (malformed "decode_name: pointer depth exceeded"))
        else
          .again { s with depth := s.depth + 1, cursor := next, consumed := consumed,
                          followedPointer := true }
    else if len &&& 0xC0 ≠ 0 then
      let flags := hexByte len
      .done (.error (malformed s!"decode_name: reserved label flags 0x{flags}"))
    else if wire.length < s.cursor + 1 + len.toNat then
      .done (.error (malformed "decode_name: label runs past wire end"))
    else
      let label := ((wire.drop (s.cursor + 1)).take len.toNat).map asciiLower
      let out := if s.out.isEmpty then label else s.out ++ 0x2E :: label
      if 253 < out.length then
        .done (.error (malformed "decode_name: total length exceeds 253"))
      else .again { s with out := out, cursor := s.cursor + 1 + len.toNat }

/-- The rounds a name can take: pointers lead backwards and their number is limited. -/
def nameRounds (wire : Bytes) : Nat :=
  (kMaxDepth + 1) * (wire.length + 1)

/-- The name at an offset and the number of its bytes there. -/
def decodeName (wire : Bytes) (offset : Nat) : Except DnsError (Bytes × Nat) :=
  (loop (nameTurn wire offset) (nameRounds wire) { cursor := offset }).getD
    (.error (malformed "decode_name: cursor out of range"))

/-! ## Messages -/

/-- Read 16 bits in network order. -/
def readU16 (wire : Bytes) (offset : Nat) : Except DnsError UInt16 :=
  match wire[offset]?, wire[offset + 1]? with
  | some hi, some lo => .ok (hi.toUInt16 <<< 8 ||| lo.toUInt16)
  | _, _ => .error (malformed "read_u16: short read")

/-- Read 32 bits in network order. -/
def readU32 (wire : Bytes) (offset : Nat) : Except DnsError UInt32 :=
  match wire[offset]?, wire[offset + 1]?, wire[offset + 2]?, wire[offset + 3]? with
  | some a, some b, some c, some d =>
    .ok (a.toUInt32 <<< 24 ||| b.toUInt32 <<< 16 ||| c.toUInt32 <<< 8 ||| d.toUInt32)
  | _, _, _, _ => .error (malformed "read_u32: short read")

/-- A question and the position behind it. -/
def readQuestion (wire : Bytes) (pos : Nat) : Except DnsError (Question × Nat) := do
  let (name, consumed) ← decodeName wire pos
  let pos := pos + consumed
  let qtype ← readU16 wire pos
  let qclass ← readU16 wire (pos + 2)
  return ({ name := name, qtype := qtype, qclass := qclass }, pos + 4)

/-- A resource record and the position behind it. -/
def readRr (wire : Bytes) (pos : Nat) : Except DnsError (ResourceRecord × Nat) := do
  let (name, consumed) ← decodeName wire pos
  let pos := pos + consumed
  let type ← readU16 wire pos
  let rclass ← readU16 wire (pos + 2)
  let ttl ← readU32 wire (pos + 4)
  let rdlen ← readU16 wire (pos + 8)
  let pos := pos + 10
  if wire.length < pos + rdlen.toNat then
    .error (malformed s!"decode_message: RDLENGTH {rdlen} overruns wire")
  else
    return ({ name := name, type := type, rclass := rclass, ttl := ttl,
              rdata := (wire.drop pos).take rdlen.toNat }, pos + rdlen.toNat)

/-- A number of items, one behind the other. -/
def appendGenerated {α : Type} (read : Nat → Except DnsError (α × Nat)) :
    Nat → Nat → Except DnsError (List α × Nat)
  | 0, pos => .ok ([], pos)
  | count + 1, pos => do
    let (item, pos) ← read pos
    let (items, pos) ← appendGenerated read count pos
    return (item :: items, pos)

/-- The header and the four sections of a message. -/
def decodeMessage (wire : Bytes) : Except DnsError Message := do
  if wire.length < 12 then
    .error (malformed "decode_message: header < 12 bytes")
  else
    let header : Header :=
      { id := ← readU16 wire 0, flags := ← readU16 wire 2, qdcount := ← readU16 wire 4,
        ancount := ← readU16 wire 6, nscount := ← readU16 wire 8, arcount := ← readU16 wire 10 }
    let (questions, pos) ← appendGenerated (readQuestion wire) header.qdcount.toNat 12
    let (answers, pos) ← appendGenerated (readRr wire) header.ancount.toNat pos
    let (authority, pos) ← appendGenerated (readRr wire) header.nscount.toNat pos
    let (additional, _) ← appendGenerated (readRr wire) header.arcount.toNat pos
    return { header := header, questions := questions, answers := answers,
             authority := authority, additional := additional }

/-! ## Reading a name ends -/

/-- A round that goes on follows a pointer back or moves ahead by a label. -/
theorem nameTurn_again {wire : Bytes} {offset : Nat} {s s' : NameState}
    (h : nameTurn wire offset s = .again s') :
    (s'.depth = s.depth + 1 ∧ s'.depth ≤ kMaxDepth) ∨
      (s'.depth = s.depth ∧ s.cursor < s'.cursor ∧ s.cursor < wire.length) := by
  unfold nameTurn at h
  split at h
  · cases h
  rename_i len hlen
  have hinside : s.cursor < wire.length := (List.getElem?_eq_some_iff.mp hlen).1
  split at h
  · cases h
  split at h
  · split at h
    · cases h
    dsimp only at h
    split at h
    · cases h
    split at h
    · cases h
    rename_i hmax
    cases h
    exact .inl ⟨rfl, Nat.not_lt.mp hmax⟩
  split at h
  · cases h
  split at h
  · cases h
  dsimp only at h
  generalize (if s.out.isEmpty then _ else _ : Bytes) = out at h
  split at h
  · cases h
  cases h
  refine .inr ⟨rfl, ?_, hinside⟩
  change s.cursor < s.cursor + 1 + len.toNat
  omega

/-- The rounds allowed are enough: every name is read to its end or to its fault. -/
theorem decodeName_ends (wire : Bytes) (offset : Nat) :
    Ends (nameTurn wire offset) { cursor := offset } (decodeName wire offset) := by
  -- Each pointer uses up one of the remaining hops, each label some of the bytes ahead.
  let measure (s : NameState) : Nat :=
    (kMaxDepth - s.depth) * (wire.length + 1) + (wire.length - s.cursor)
  have hstep : ∀ s s', s.depth ≤ kMaxDepth → nameTurn wire offset s = .again s' →
      s'.depth ≤ kMaxDepth ∧ measure s' < measure s := by
    intro s s' hdepth hturn
    rcases nameTurn_again hturn with ⟨hhop, hle⟩ | ⟨hsame, hlt, hinside⟩
    · refine ⟨hle, ?_⟩
      have hleft : kMaxDepth - s.depth = (kMaxDepth - s'.depth) + 1 := by omega
      simp only [measure, hleft, Nat.add_mul, Nat.one_mul]
      omega
    · refine ⟨hsame ▸ hdepth, ?_⟩
      simp only [measure, hsame]
      omega
  have hbound : measure { cursor := offset } < nameRounds wire := by
    simp only [measure, nameRounds, Nat.add_mul, Nat.one_mul, Nat.sub_zero]
    omega
  obtain ⟨answer, hloop⟩ := exists_loop_eq hstep (Nat.zero_le _) hbound
  unfold decodeName
  rw [hloop]
  exact ends_of_loop hloop

end Conflux.Dns

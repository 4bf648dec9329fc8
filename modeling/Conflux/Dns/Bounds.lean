import Conflux.Core.Memory
import Conflux.Dns.Codec

/-!
# Decoding stays inside the datagram

The decoder once more, with every byte loaded from memory where the code loads it. It loads only
bytes of the datagram and answers as the decoder on byte strings, whose loop over a name always
ends.
-/

namespace Conflux.Dns

open Conflux.Core Reading

/-! ## The decoder on memory -/

namespace InMemory

/-- Computations on a datagram in memory. -/
abbrev Wire (α : Type) : Type := Reading UInt8 DnsError α

/-- One round of reading a name: the end, a pointer to an earlier place, or a label. -/
def nameTurn (offset : Nat) (s : NameState) : Wire (Turn NameState (Bytes × Nat)) := do
  let size ← Reading.size
  if size ≤ s.cursor then
    throw (malformed "decode_name: cursor out of range")
  else
    let len ← load s.cursor
    if len = 0 then
      let cursor := s.cursor + 1
      pure (.done (s.out, if s.followedPointer then s.consumed else cursor - offset))
    else if len &&& 0xC0 = 0xC0 then
      if size ≤ s.cursor + 1 then
        throw (malformed "decode_name: pointer truncated")
      else
        let low ← load (s.cursor + 1)
        let next := (len &&& 0x3F).toNat * 256 + low.toNat
        let consumed := if s.followedPointer then s.consumed else s.cursor + 2 - offset
        if s.cursor ≤ next then
          let cursor := s.cursor
          throw (malformed s!"decode_name: forward pointer {next} >= {cursor}")
        else if kMaxDepth < s.depth + 1 then
          throw (malformed "decode_name: pointer depth exceeded")
        else
          pure (.again { s with depth := s.depth + 1, cursor := next, consumed := consumed,
                                followedPointer := true })
    else if len &&& 0xC0 ≠ 0 then
      let flags := hexByte len
      throw (malformed s!"decode_name: reserved label flags 0x{flags}")
    else if size < s.cursor + 1 + len.toNat then
      throw (malformed "decode_name: label runs past wire end")
    else
      let bytes ← loadRange (s.cursor + 1) len.toNat
      let label := bytes.map asciiLower
      let out := if s.out.isEmpty then label else s.out ++ 0x2E :: label
      if 253 < out.length then
        throw (malformed "decode_name: total length exceeds 253")
      else pure (.again { s with out := out, cursor := s.cursor + 1 + len.toNat })

/-- The name at an offset and the number of its bytes there. -/
def decodeName (offset : Nat) : Wire (Bytes × Nat) := do
  let size ← Reading.size
  match ← Reading.loop (nameTurn offset) ((kMaxDepth + 1) * (size + 1)) { cursor := offset } with
  | some r => pure r
  | none => throw (malformed "decode_name: cursor out of range")

/-- Read 16 bits. -/
def readU16 (offset : Nat) : Wire UInt16 := do
  let size ← Reading.size
  if size < offset + 2 then throw (malformed "read_u16: short read")
  else
    let hi ← load offset
    let lo ← load (offset + 1)
    pure (hi.toUInt16 <<< 8 ||| lo.toUInt16)

/-- Read 32 bits. -/
def readU32 (offset : Nat) : Wire UInt32 := do
  let size ← Reading.size
  if size < offset + 4 then throw (malformed "read_u32: short read")
  else
    let a ← load offset
    let b ← load (offset + 1)
    let c ← load (offset + 2)
    let d ← load (offset + 3)
    pure (a.toUInt32 <<< 24 ||| b.toUInt32 <<< 16 ||| c.toUInt32 <<< 8 ||| d.toUInt32)

/-- A question and the position behind it. -/
def readQuestion (pos : Nat) : Wire (Question × Nat) := do
  let (name, consumed) ← decodeName pos
  let pos := pos + consumed
  let qtype ← readU16 pos
  let qclass ← readU16 (pos + 2)
  return ({ name := name, qtype := qtype, qclass := qclass }, pos + 4)

/-- A resource record and the position behind it. -/
def readRr (pos : Nat) : Wire (ResourceRecord × Nat) := do
  let (name, consumed) ← decodeName pos
  let pos := pos + consumed
  let type ← readU16 pos
  let rclass ← readU16 (pos + 2)
  let ttl ← readU32 (pos + 4)
  let rdlen ← readU16 (pos + 8)
  let pos := pos + 10
  let size ← Reading.size
  if size < pos + rdlen.toNat then
    throw (malformed s!"decode_message: RDLENGTH {rdlen} overruns wire")
  else
    let rdata ← loadRange pos rdlen.toNat
    return ({ name := name, type := type, rclass := rclass, ttl := ttl, rdata := rdata },
      pos + rdlen.toNat)

/-- A number of items, one behind the other. -/
def appendGenerated {α : Type} (read : Nat → Wire (α × Nat)) : Nat → Nat → Wire (List α × Nat)
  | 0, pos => pure ([], pos)
  | count + 1, pos => do
    let (item, pos) ← read pos
    let (items, pos) ← appendGenerated read count pos
    return (item :: items, pos)

/-- Decode a datagram. -/
def decodeMessage : Wire Message := do
  let size ← Reading.size
  if size < 12 then
    throw (malformed "decode_message: header < 12 bytes")
  else
    let header : Header :=
      { id := ← readU16 0, flags := ← readU16 2, qdcount := ← readU16 4,
        ancount := ← readU16 6, nscount := ← readU16 8, arcount := ← readU16 10 }
    let (questions, pos) ← appendGenerated readQuestion header.qdcount.toNat 12
    let (answers, pos) ← appendGenerated readRr header.ancount.toNat pos
    let (authority, pos) ← appendGenerated readRr header.nscount.toNat pos
    let (additional, _) ← appendGenerated readRr header.arcount.toNat pos
    return { header := header, questions := questions, answers := answers,
             authority := authority, additional := additional }

/-! ## It loads only bytes of the datagram -/

variable (m : Span UInt8)

variable (offset : Nat)

theorem gives_nameTurn (s : NameState) :
    (nameTurn offset s).Gives m (Dns.nameTurn m.toList offset s).thrown := by
  rw [nameTurn, Dns.nameTurn]
  refine gives_size.bind_ok ?_
  by_cases hcursor : m.size ≤ s.cursor
  · rw [if_pos hcursor, m.getElem?_toList_of_le hcursor]
    exact gives_throw _
  have hlt : s.cursor < m.size := Nat.lt_of_not_le hcursor
  rw [if_neg hcursor, m.getElem?_toList_of_lt hlt]
  refine (gives_load hlt).bind_ok ?_
  dsimp only
  split
  · exact gives_pure _
  split
  · by_cases hnext : m.size ≤ s.cursor + 1
    · rw [if_pos hnext, m.getElem?_toList_of_le hnext]
      exact gives_throw _
    have hlt' : s.cursor + 1 < m.size := Nat.lt_of_not_le hnext
    rw [if_neg hnext, m.getElem?_toList_of_lt hlt']
    refine (gives_load hlt').bind_ok ?_
    dsimp only
    split
    · exact gives_throw _
    split
    · exact gives_throw _
    · exact gives_pure _
  split
  · exact gives_throw _
  rw [Span.length_toList]
  split
  · exact gives_throw _
  refine (gives_loadRange (by omega)).bind_ok ?_
  generalize (if s.out.isEmpty then _ else _ : Bytes) = out
  split
  · exact gives_throw _
  · exact gives_pure _

theorem gives_decodeName :
    (decodeName offset).Gives m (Dns.decodeName m.toList offset) := by
  have hloop := gives_loop (gives_nameTurn m offset) ((kMaxDepth + 1) * (m.size + 1))
    { cursor := offset }
  rw [decodeName, Dns.decodeName, nameRounds, Span.length_toList]
  refine gives_size.bind_ok ?_
  cases hresult : Core.loop (Dns.nameTurn m.toList offset) ((kMaxDepth + 1) * (m.size + 1))
      { cursor := offset } with
  | none =>
    rw [hresult] at hloop
    exact hloop.bind_ok (gives_throw _)
  | some r =>
    rw [hresult] at hloop
    cases r with
    | ok r => exact hloop.bind_ok (gives_pure _)
    | error e => exact Gives.bind (g := fun _ => .error e) hloop fun a ha => by cases ha

theorem gives_readU16 : (readU16 offset).Gives m (Dns.readU16 m.toList offset) := by
  rw [readU16, Dns.readU16]
  refine gives_size.bind_ok ?_
  by_cases hshort : m.size < offset + 2
  · have hnone : m.toList[offset + 1]? = none := m.getElem?_toList_of_le (by omega)
    rw [if_pos hshort, hnone]
    cases m.toList[offset]? <;> exact gives_throw _
  rw [if_neg hshort, m.getElem?_toList_of_lt (show offset < m.size by omega),
    m.getElem?_toList_of_lt (show offset + 1 < m.size by omega)]
  refine (gives_load (by omega)).bind_ok ?_
  exact (gives_load (by omega)).bind_ok (gives_pure _)

theorem gives_readU32 : (readU32 offset).Gives m (Dns.readU32 m.toList offset) := by
  rw [readU32, Dns.readU32]
  refine gives_size.bind_ok ?_
  by_cases hshort : m.size < offset + 4
  · have hnone : m.toList[offset + 3]? = none := m.getElem?_toList_of_le (by omega)
    rw [if_pos hshort, hnone]
    cases m.toList[offset]? <;> cases m.toList[offset + 1]? <;> cases m.toList[offset + 2]? <;>
      exact gives_throw _
  rw [if_neg hshort, m.getElem?_toList_of_lt (show offset < m.size by omega),
    m.getElem?_toList_of_lt (show offset + 1 < m.size by omega),
    m.getElem?_toList_of_lt (show offset + 2 < m.size by omega),
    m.getElem?_toList_of_lt (show offset + 3 < m.size by omega)]
  refine (gives_load (by omega)).bind_ok ?_
  refine (gives_load (by omega)).bind_ok ?_
  refine (gives_load (by omega)).bind_ok ?_
  exact (gives_load (by omega)).bind_ok (gives_pure _)

theorem gives_readQuestion (pos : Nat) :
    (readQuestion pos).Gives m (Dns.readQuestion m.toList pos) := by
  rw [readQuestion, Dns.readQuestion]
  refine (gives_decodeName m pos).bind fun ⟨name, consumed⟩ _ => ?_
  refine (gives_readU16 m _).bind fun qtype _ => ?_
  refine (gives_readU16 m _).bind fun qclass _ => ?_
  exact gives_pure _

theorem gives_readRr (pos : Nat) : (readRr pos).Gives m (Dns.readRr m.toList pos) := by
  rw [readRr, Dns.readRr]
  refine (gives_decodeName m pos).bind fun ⟨name, consumed⟩ _ => ?_
  refine (gives_readU16 m _).bind fun type _ => ?_
  refine (gives_readU16 m _).bind fun rclass _ => ?_
  refine (gives_readU32 m _).bind fun ttl _ => ?_
  refine (gives_readU16 m _).bind fun rdlen _ => ?_
  refine gives_size.bind_ok ?_
  rw [Span.length_toList]
  dsimp only
  split
  · exact gives_throw _
  · exact (gives_loadRange (by omega)).bind_ok (gives_pure _)

theorem gives_appendGenerated {α : Type} {read : Nat → Wire (α × Nat)}
    {ref : Nat → Except DnsError (α × Nat)} (h : ∀ pos, (read pos).Gives m (ref pos))
    (count pos : Nat) :
    (appendGenerated read count pos).Gives m (Dns.appendGenerated ref count pos) := by
  induction count generalizing pos with
  | zero => exact gives_pure _
  | succ count ih =>
    rw [appendGenerated, Dns.appendGenerated]
    refine (h pos).bind fun ⟨item, pos⟩ _ => ?_
    refine (ih pos).bind fun ⟨items, pos⟩ _ => ?_
    exact gives_pure _

theorem gives_decodeMessage : decodeMessage.Gives m (Dns.decodeMessage m.toList) := by
  rw [decodeMessage, Dns.decodeMessage, Span.length_toList]
  refine gives_size.bind_ok ?_
  split
  · exact gives_throw _
  refine (gives_readU16 m _).bind fun id _ => ?_
  refine (gives_readU16 m _).bind fun flags _ => ?_
  refine (gives_readU16 m _).bind fun qdcount _ => ?_
  refine (gives_readU16 m _).bind fun ancount _ => ?_
  refine (gives_readU16 m _).bind fun nscount _ => ?_
  refine (gives_readU16 m _).bind fun arcount _ => ?_
  refine (gives_appendGenerated m (gives_readQuestion m) _ _).bind fun ⟨questions, pos⟩ _ => ?_
  refine (gives_appendGenerated m (gives_readRr m) _ _).bind fun ⟨answers, pos⟩ _ => ?_
  refine (gives_appendGenerated m (gives_readRr m) _ _).bind fun ⟨authority, pos⟩ _ => ?_
  refine (gives_appendGenerated m (gives_readRr m) _ _).bind fun ⟨additional, pos⟩ _ => ?_
  exact gives_pure _

end InMemory

/-! ## What a decoded name takes up -/

/-- The number of bytes from a place on to the first pointer or the root, inclusive. -/
inductive NameSpan (wire : Bytes) : Nat → Nat → Prop
  | root {i : Nat} (h : wire[i]? = some 0) : NameSpan wire i 1
  | pointer {i : Nat} {len : UInt8} (h : wire[i]? = some len) (hpointer : len &&& 0xC0 = 0xC0) :
      NameSpan wire i 2
  | label {i n : Nat} {len : UInt8} (h : wire[i]? = some len) (hpos : len ≠ 0)
      (hplain : len &&& 0xC0 = 0) (tail : NameSpan wire (i + 1 + len.toNat) n) :
      NameSpan wire i (1 + len.toNat + n)

variable {wire : Bytes}

/-- The number is determined by the bytes. -/
theorem NameSpan.unique {i n n' : Nat} (h : NameSpan wire i n)
    (h' : NameSpan wire i n') : n = n' := by
  have hzero : ¬ (0 : UInt8) &&& 0xC0 = 0xC0 := by decide
  have hflags : ¬ (0 : UInt8) = 0xC0 := by decide
  induction h generalizing n' with
  | root h =>
    cases h' with
    | root => rfl
    | pointer h' hpointer =>
      rw [h] at h'
      cases h'
      exact absurd hpointer hzero
    | label h' hpos =>
      rw [h] at h'
      cases h'
      exact absurd rfl hpos
  | pointer h hpointer =>
    cases h' with
    | root h' =>
      rw [h] at h'
      cases h'
      exact absurd hpointer hzero
    | pointer => rfl
    | label h' _ hplain =>
      rw [h] at h'
      cases h'
      exact absurd (hplain.symm.trans hpointer) hflags
  | label h hpos hplain _ ih =>
    cases h' with
    | root h' =>
      rw [h] at h'
      cases h'
      exact absurd rfl hpos
    | pointer h' hpointer =>
      rw [h] at h'
      cases h'
      exact absurd (hplain.symm.trans hpointer) hflags
    | label h' _ _ tail' =>
      rw [h] at h'
      cases h'
      rw [ih tail']

/-- What is known of a name that is being read. -/
structure NameRead (wire : Bytes) (offset : Nat) (s : NameState) : Prop where
  short : s.out.length ≤ 253
  /-- Before the first pointer the labels read so far lie in front of the cursor. -/
  before : s.followedPointer = false → offset ≤ s.cursor ∧
    ∀ n, NameSpan wire s.cursor n → NameSpan wire offset (s.cursor - offset + n)
  /-- After the first pointer the bytes taken up are known. -/
  after : s.followedPointer = true →
    NameSpan wire offset s.consumed ∧ offset + s.consumed ≤ wire.length

theorem nameRead_start (wire : Bytes) (offset : Nat) :
    NameRead wire offset { cursor := offset } where
  short := Nat.zero_le _
  before _ := by
    refine ⟨Nat.le_refl _, fun n h => ?_⟩
    rw [Nat.sub_self, Nat.zero_add]
    exact h
  after h := by cases h

/-- The bytes of the first pointer, or what was taken up before. -/
theorem NameRead.pointer {offset : Nat} {s : NameState}
    (h : NameRead wire offset s) {len : UInt8} (hlen : wire[s.cursor]? = some len)
    (hpointer : len &&& 0xC0 = 0xC0) (hnext : s.cursor + 1 < wire.length) :
    NameSpan wire offset (if s.followedPointer then s.consumed else s.cursor + 2 - offset) ∧
      offset + (if s.followedPointer then s.consumed else s.cursor + 2 - offset) ≤ wire.length := by
  cases hfollowed : s.followedPointer with
  | true => exact h.after hfollowed
  | false =>
    obtain ⟨hle, hspan⟩ := h.before hfollowed
    have hsum : s.cursor + 2 - offset = s.cursor - offset + 2 := by omega
    rw [if_neg Bool.false_ne_true, hsum]
    exact ⟨hspan 2 (.pointer hlen hpointer), by omega⟩

/-- A round that goes on keeps what is known. -/
theorem NameRead.again {offset : Nat} {s s' : NameState}
    (h : NameRead wire offset s) (hturn : nameTurn wire offset s = .again s') :
    NameRead wire offset s' := by
  unfold nameTurn at hturn
  split at hturn
  · cases hturn
  rename_i len hlen
  split at hturn
  · cases hturn
  rename_i hpos
  split at hturn
  · rename_i hpointer
    split at hturn
    · cases hturn
    rename_i low hlow
    dsimp only at hturn
    split at hturn
    · cases hturn
    split at hturn
    · cases hturn
    cases hturn
    refine ⟨h.short, fun hf => Bool.noConfusion hf, fun _ => ?_⟩
    exact h.pointer hlen hpointer (List.getElem?_eq_some_iff.mp hlow).1
  split at hturn
  · cases hturn
  rename_i hplain
  split at hturn
  · cases hturn
  dsimp only at hturn
  generalize (if s.out.isEmpty then _ else _ : Bytes) = out at hturn
  split at hturn
  · cases hturn
  rename_i hshort
  cases hturn
  refine ⟨Nat.le_of_not_lt hshort, ?_, h.after⟩
  intro hfollowed
  obtain ⟨hle, hspan⟩ := h.before hfollowed
  refine ⟨?_, fun n htail => ?_⟩
  · change offset ≤ s.cursor + 1 + len.toNat
    omega
  change NameSpan wire offset (s.cursor + 1 + len.toNat - offset + n)
  have hsum : s.cursor + 1 + len.toNat - offset + n =
      s.cursor - offset + (1 + len.toNat + n) := by omega
  rw [hsum]
  exact hspan _ (.label hlen hpos (not_not.mp hplain) htail)

variable {name : Bytes}

/-- The round that ends a name gives what was read. -/
theorem NameRead.done {offset : Nat} {s : NameState} (h : NameRead wire offset s)
    {consumed : Nat} (hturn : nameTurn wire offset s = .done (.ok (name, consumed))) :
    name.length ≤ 253 ∧ offset + consumed ≤ wire.length ∧ NameSpan wire offset consumed := by
  unfold nameTurn at hturn
  split at hturn
  · cases hturn
  rename_i len hlen
  have hinside : s.cursor < wire.length := (List.getElem?_eq_some_iff.mp hlen).1
  split at hturn
  · rename_i hroot
    cases hturn
    refine ⟨h.short, ?_⟩
    cases hfollowed : s.followedPointer with
    | true => exact (h.after hfollowed).symm
    | false =>
      obtain ⟨hle, hspan⟩ := h.before hfollowed
      have hsum : s.cursor + 1 - offset = s.cursor - offset + 1 := by omega
      rw [if_neg Bool.false_ne_true, hsum]
      exact ⟨by omega, hspan 1 (.root (hroot ▸ hlen))⟩
  split at hturn
  · split at hturn
    · cases hturn
    dsimp only at hturn
    split at hturn
    · cases hturn
    · split at hturn <;> cases hturn
  split at hturn
  · cases hturn
  split at hturn
  · cases hturn
  dsimp only at hturn
  generalize (if s.out.isEmpty then _ else _ : Bytes) = out at hturn
  split at hturn <;> cases hturn

theorem decodeName_bounded {offset : Nat} {consumed : Nat}
    (h : decodeName wire offset = .ok (name, consumed)) :
    name.length ≤ 253 ∧ offset + consumed ≤ wire.length ∧ NameSpan wire offset consumed := by
  have hends := decodeName_ends wire offset
  rw [h] at hends
  obtain ⟨s, hread, hdone⟩ := hends.induct (fun _ _ => NameRead.again) (nameRead_start wire offset)
  exact hread.done hdone

/-- For every datagram and offset, reading a name ends, loads only bytes of the datagram, and
fails or gives a name of at most 253 bytes with the length of its labels up to the first pointer
or the root, which lie inside the datagram. So does decoding the whole datagram. -/
theorem decode_inBounds (m : Span UInt8) :
    (∀ offset,
      (∃ loads, InMemory.decodeName offset m = (decodeName m.toList offset, loads) ∧
        ∀ i ∈ loads, i < m.size) ∧
      Ends (nameTurn m.toList offset) { cursor := offset } (decodeName m.toList offset) ∧
      ∀ name consumed, decodeName m.toList offset = .ok (name, consumed) →
        name.length ≤ 253 ∧ offset + consumed ≤ m.size ∧
          ∀ n, NameSpan m.toList offset n ↔ n = consumed) ∧
    ∃ loads, InMemory.decodeMessage m = (decodeMessage m.toList, loads) ∧
      ∀ i ∈ loads, i < m.size := by
  refine ⟨fun offset => ⟨?_, decodeName_ends _ _, ?_⟩, ?_⟩
  · obtain ⟨hanswer, hloads⟩ := InMemory.gives_decodeName m offset
    exact ⟨_, Prod.ext hanswer rfl, hloads⟩
  · intro name consumed h
    obtain ⟨hshort, hinside, hspan⟩ := decodeName_bounded h
    rw [Span.length_toList] at hinside
    refine ⟨hshort, hinside, fun n => ⟨fun hn => hn.unique hspan, ?_⟩⟩
    rintro rfl
    exact hspan
  · obtain ⟨hanswer, hloads⟩ := InMemory.gives_decodeMessage m
    exact ⟨_, Prod.ext hanswer rfl, hloads⟩

end Conflux.Dns

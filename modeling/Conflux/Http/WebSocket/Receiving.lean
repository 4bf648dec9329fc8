import Conflux.Http.WebSocket.Sending
import Conflux.Http.Response.Model
import Conflux.Core.Numerals
import Conflux.Core.Loop

/-!
# Receiving on a WebSocket connection

`recv` reads frames until one of them completes a message. Bytes come from reads of the
transport and wait in a buffer of which a front part is already consumed. Lengths are natural
numbers: at most eight bytes give one, and the sum with the length of what has been put
together so far is taken below the limit for a message.

Nobody else closes the connection, and the transport takes what is written before the socket
is shut down.
-/

namespace Conflux.Http.WebSocket

open List

open Conflux.Core (Turn Ends loop natOfBytes exists_loop_eq ends_of_loop)
open Framing (ascii)

/-! ## The header of a frame -/

/-- The four bytes of a mask. -/
structure MaskKey where
  k0 : UInt8
  k1 : UInt8
  k2 : UInt8
  k3 : UInt8
  deriving DecidableEq, Repr

/-- The byte of the key for a byte of the payload. -/
def MaskKey.at (key : MaskKey) (i : Nat) : UInt8 :=
  match i % 4 with
  | 0 => key.k0
  | 1 => key.k1
  | 2 => key.k2
  | _ => key.k3

/-- A parsed header. -/
structure FrameHeader where
  opcode : UInt8
  fin : Bool
  masked : Bool
  payloadLen : Nat
  mask : MaskKey
  headerSize : Nat
  deriving DecidableEq, Repr

/-- What parsing the header of a frame gives. -/
inductive FrameParse where
  | ok (hdr : FrameHeader)
  | incomplete
  | protocolError
  | controlTooLarge
  deriving DecidableEq, Repr

/-- The key at the end of a header. -/
def parseMask (fin : Bool) (opcode : UInt8) (plen off : Nat) : Bytes → FrameParse
  | k0 :: k1 :: k2 :: k3 :: _ =>
    .ok { opcode, fin, masked := true, payloadLen := plen, mask := ⟨k0, k1, k2, k3⟩,
          headerSize := off + 4 }
  | _ => .incomplete

/-- The extended length, which has to be needed, and the key. -/
def parseLength (fin : Bool) (opcode : UInt8) (len7 : Nat) (rest : Bytes) : FrameParse :=
  if len7 = 126 then
    if rest.length < 2 then .incomplete
    else if natOfBytes (rest.take 2) < 126 then .protocolError
    else parseMask fin opcode (natOfBytes (rest.take 2)) 4 (rest.drop 2)
  else if len7 = 127 then
    if rest.length < 8 then .incomplete
    else if natOfBytes (rest.take 8) ≤ 0xFFFF then .protocolError
    else parseMask fin opcode (natOfBytes (rest.take 8)) 10 (rest.drop 8)
  else parseMask fin opcode len7 2 rest

/-- An opcode without a meaning. -/
def isReservedOpcode (opcode : UInt8) : Bool :=
  (0x3 ≤ opcode && opcode ≤ 0x7) || 0xB ≤ opcode

/-- Parse a header, as far as it has come. -/
def parseFrameHeader : Bytes → FrameParse
  | b0 :: b1 :: rest =>
    let fin := b0 &&& 0x80 != 0
    let opcode := b0 &&& 0x0F
    let masked := b1 &&& 0x80 != 0
    let len7 := (b1 &&& 0x7F).toNat
    let isControl := opcode &&& 0x08 != 0
    if b0 &&& 0x70 != 0 then .protocolError
    else if isReservedOpcode opcode then .protocolError
    else if isControl && (!fin || 125 < len7) then .controlTooLarge
    else if !masked then .protocolError
    else parseLength fin opcode len7 rest
  | _ => .incomplete

/-- Take the mask off. -/
def unmaskWsPayload (payload : Bytes) (key : MaskKey) : Bytes :=
  payload.mapIdx fun i b => b ^^^ key.at i

/-! ## The connection -/

/-- `close`, by a thread that nobody interrupts; an invalid argument throws before anything is
done. -/
def WsConn.close (c : WsConn) (code : Nat) (reason : Bytes) : WsConn :=
  match closeFrame code reason with
  | none => c
  | some f =>
    if c.closed then c
    else { ({ c with closed := true }.doSendFrame true f).2 with shut := true }

/-- The buffer `buf_` with the position `buf_pos_` of what is not consumed. -/
structure RecvBuf where
  bytes : Bytes := []
  pos : Nat := 0
  inside : pos ≤ bytes.length := by simp
  deriving DecidableEq, Repr

namespace RecvBuf

/-- How many bytes wait. -/
def bufferedSize (b : RecvBuf) : Nat := b.bytes.length - b.pos

/-- The bytes that wait. -/
def bufferedData (b : RecvBuf) : Bytes := b.bytes.drop b.pos

/-- Drop the consumed part if it is large. -/
def dropConsumed (b : RecvBuf) : RecvBuf :=
  if 0 < b.pos ∧ (4096 ≤ b.pos ∨ b.bytes.length ≤ b.pos * 2) then { bytes := b.bytes.drop b.pos }
  else b

/-- Append what was read. -/
def append (b : RecvBuf) (tmp : Bytes) : RecvBuf where
  bytes := b.bytes ++ tmp
  pos := b.pos
  inside := by
    rw [length_append]
    exact Nat.le_add_right_of_le b.inside

/-- Pass over some bytes. -/
def consume (b : RecvBuf) (n : Nat) : RecvBuf :=
  if h : b.bytes.length ≤ b.pos + n then {}
  else { b with pos := b.pos + n, inside := Nat.le_of_not_le h }

end RecvBuf

open RecvBuf

/-- A connection as `recv` sees it. -/
structure RecvConn where
  conn : WsConn := {}
  buf : RecvBuf := {}
  fragOpcode : Option Opcode := none
  fragPayload : Bytes := []
  /-- What the reads of the transport return, at most 4096 bytes each. No byte is the end of the
  stream or an error, and so is the end of the list. -/
  reads : List Bytes := []
  deriving DecidableEq, Repr

namespace RecvConn

/-- The limit for a message. -/
def maxMessageSize : Nat := 16 * 1024 * 1024

/-- The connection is not closed. -/
def isOpen (c : RecvConn) : Bool := !c.conn.closed

/-- The peer has closed. -/
def markRemoteClose (c : RecvConn) : RecvConn :=
  { c with conn := { c.conn with closed := true } }

/-- Close with a code and a reason. -/
def close (c : RecvConn) (code : Nat) (reason : Bytes) : RecvConn :=
  { c with conn := c.conn.close code reason }

/-- The turns of `fill`, each of which takes a read of the transport. -/
def fillFrom (n : Nat) (c : RecvConn) (reads : List Bytes) : Bool × RecvConn :=
  if n ≤ c.buf.bufferedSize then (true, { c with reads })
  else
    let c := { c with buf := c.buf.dropConsumed }
    match reads with
    | [] => (false, { c.markRemoteClose with reads := [] })
    | [] :: rest => (false, { c.markRemoteClose with reads := rest })
    | tmp :: rest => fillFrom n { c with buf := c.buf.append tmp } rest

/-- Read until `n` bytes wait. -/
def fill (c : RecvConn) (n : Nat) : Bool × RecvConn := c.fillFrom n c.reads

/-- Pass over some bytes. -/
def consume (c : RecvConn) (n : Nat) : RecvConn := { c with buf := c.buf.consume n }

/-- Close with the reason for a bad header. -/
def emitWsProtocolClose (c : RecvConn) : RecvConn :=
  let b0 := c.buf.bytes.getD c.buf.pos 0
  if b0 &&& 0x70 != 0 then c.close 1002 (ascii "rsv bits set")
  else if isReservedOpcode (b0 &&& 0x0F) then c.close 1002 (ascii "reserved opcode")
  else c.close 1002 (ascii "unmasked frame")

/-- The header once its first two bytes have passed. -/
def readLongHeader (c : RecvConn) : Option FrameHeader × RecvConn :=
  let len7 := (c.buf.bytes.getD (c.buf.pos + 1) 0 &&& 0x7F).toNat
  let headerNeeded := 2 + (if len7 = 126 then 2 else if len7 = 127 then 8 else 0) + 4
  match c.fill headerNeeded with
  | (false, c) => (none, c)
  | (true, c) =>
    match parseFrameHeader (c.buf.bufferedData.take headerNeeded) with
    | .ok hdr => (some hdr, c.consume hdr.headerSize)
    | .protocolError => (none, c.close 1002 (ascii "invalid frame header"))
    | .controlTooLarge => (none, c.close 1002 (ascii "invalid control frame"))
    | .incomplete => (none, c)

/-- Read a header. -/
def readWsFrameHeader (c : RecvConn) : Option FrameHeader × RecvConn :=
  match c.fill 2 with
  | (false, c) => (none, c)
  | (true, c) =>
    match parseFrameHeader (c.buf.bufferedData.take 2) with
    | .protocolError => (none, c.emitWsProtocolClose)
    | .controlTooLarge => (none, c.close 1002 (ascii "invalid control frame"))
    | _ => c.readLongHeader

/-- Read a payload, within the limit for a message. -/
def readWsPayload (c : RecvConn) (hdr : FrameHeader) : Option Bytes × RecvConn :=
  if maxMessageSize < hdr.payloadLen then (none, c.close 1009 (ascii "message too big"))
  else if hdr.opcode &&& 0x08 = 0 ∧ maxMessageSize < c.fragPayload.length + hdr.payloadLen then
    (none, c.close 1009 (ascii "message too big"))
  else
    match c.fill hdr.payloadLen with
    | (false, c) => (none, c)
    | (true, c) =>
      (some (unmaskWsPayload (c.buf.bufferedData.take hdr.payloadLen) hdr.mask),
        c.consume hdr.payloadLen)

/-! ## Frames -/

/-- What a Close frame is answered with; `hi` and `lo` are the code it carries. -/
def handleClosePayload (c : RecvConn) : Bytes → RecvConn
  | [] => c.close 1000 []
  | [_] => c.close 1002 (ascii "invalid close payload")
  | hi :: lo :: reason =>
    let echoCode := hi.toNat * 256 + lo.toNat
    if !isValidCloseCode echoCode then c.close 1002 (ascii "invalid close code")
    else if 0 < reason.length ∧ utf8IsValid reason = false then
      c.close 1007 (ascii "invalid utf-8")
    else c.close echoCode []

/-- Control frames; the flag says whether `recv` goes on. -/
def handleWsControlFrame (c : RecvConn) (hdr : FrameHeader) (payload : Bytes) : Bool × RecvConn :=
  if hdr.opcode = 0x9 then
    match c.conn.doSendFrame true ⟨.pong, payload⟩ with
    | (true, conn) => (true, { c with conn })
    | (false, conn) => (true, { c with conn }.markRemoteClose)
  else if hdr.opcode = 0xA then (true, c)
  else if hdr.opcode ≠ 0x8 then (false, c.close 1002 (ascii "reserved opcode"))
  else (false, c.handleClosePayload payload)

/-- A continuation: go on with the message. -/
def handleWsContinuationFrame (c : RecvConn) (fin : Bool) (payload : Bytes) :
    Option Frame × RecvConn :=
  match c.fragOpcode with
  | none => (none, c.close 1002 (ascii "std::unexpected continuation"))
  | some finalOp =>
    let finalPayload := c.fragPayload ++ payload
    if !fin then (none, { c with fragPayload := finalPayload })
    else
      let c := { c with fragOpcode := none, fragPayload := [] }
      if finalOp = .text ∧ utf8IsValid finalPayload = false then
        (none, c.close 1007 (ascii "invalid utf-8"))
      else (some ⟨finalOp, finalPayload⟩, c)

/-- A data frame: begin a message. -/
def handleWsDataFrame (c : RecvConn) (fin : Bool) (opcodeRaw : UInt8) (payload : Bytes) :
    Option Frame × RecvConn :=
  if opcodeRaw ≠ 0x1 ∧ opcodeRaw ≠ 0x2 then (none, c.close 1002 (ascii "reserved opcode"))
  else if c.fragOpcode.isSome then (none, c.close 1002 (ascii "nested data frame"))
  else
    let opcode := if opcodeRaw = 0x1 then Opcode.text else .binary
    if !fin then (none, { c with fragOpcode := some opcode, fragPayload := payload })
    else if opcode = .text ∧ utf8IsValid payload = false then
      (none, c.close 1007 (ascii "invalid utf-8"))
    else (some ⟨opcode, payload⟩, c)

/-- A frame without a message to deliver ends `recv` if the connection is closed. -/
def deliver : Option Frame × RecvConn → Turn RecvConn (Option Frame × RecvConn)
  | (none, c) => if c.isOpen then .again c else .done (none, c)
  | (some f, c) => .done (some f, c)

/-- One turn of the loop of `recv`. -/
def recvTurn (c : RecvConn) : Turn RecvConn (Option Frame × RecvConn) :=
  match c.readWsFrameHeader with
  | (none, c) => .done (none, c)
  | (some hdr, c) =>
    match c.readWsPayload hdr with
    | (none, c) => .done (none, c)
    | (some payload, c) =>
      if hdr.opcode &&& 0x08 ≠ 0 then
        match c.handleWsControlFrame hdr payload with
        | (true, c) => .again c
        | (false, c) => .done (none, c)
      else if hdr.opcode = 0x0 then deliver (c.handleWsContinuationFrame hdr.fin payload)
      else deliver (c.handleWsDataFrame hdr.fin hdr.opcode payload)

/-- Number of bytes that are not consumed yet. -/
def unread (c : RecvConn) : Nat := c.buf.bufferedSize + (c.reads.map List.length).sum

/-- `recv`; each turn that goes on has consumed bytes. -/
def recv (c : RecvConn) : Option Frame × RecvConn :=
  (loop recvTurn (c.unread + 1) c).getD (none, c)

/-- Call `recv` until it returns nothing. -/
def recvAllFrom : Nat → RecvConn → List Frame × RecvConn
  | 0, c => ([], c)
  | n + 1, c =>
    match c.recv with
    | (none, c) => ([], c)
    | (some f, c) => ((f :: (recvAllFrom n c).1), (recvAllFrom n c).2)

/-- Call `recv` until it returns nothing. -/
def recvAll (c : RecvConn) : List Frame × RecvConn := recvAllFrom (c.unread + 1) c

/-- A connection after the upgrade, with the bytes that came behind the request. -/
def fresh (initialBuf : Bytes) (reads : List Bytes) : RecvConn where
  buf := { bytes := initialBuf }
  reads := reads

/-! ## The bytes still to come -/

end RecvConn

namespace RecvBuf

@[simp]
theorem length_bufferedData (b : RecvBuf) : b.bufferedData.length = b.bufferedSize :=
  length_drop

@[simp]
theorem bufferedData_dropConsumed (b : RecvBuf) : b.dropConsumed.bufferedData = b.bufferedData := by
  rw [dropConsumed]
  split
  · rfl
  · rfl

@[simp]
theorem bufferedData_append (b : RecvBuf) (tmp : Bytes) :
    (b.append tmp).bufferedData = b.bufferedData ++ tmp :=
  drop_append_of_le_length b.inside

@[simp]
theorem bufferedData_consume (b : RecvBuf) (n : Nat) :
    (b.consume n).bufferedData = b.bufferedData.drop n := by
  rw [consume, bufferedData, bufferedData, drop_drop]
  split
  · rename_i h
    rw [drop_eq_nil_of_le h]
    rfl
  · rfl

end RecvBuf

namespace RecvConn

/-- All bytes still to come. -/
def pending (c : RecvConn) : Bytes := c.buf.bufferedData ++ c.reads.flatten

theorem unread_eq (c : RecvConn) : c.unread = c.pending.length := by
  rw [pending, length_append, length_bufferedData, length_flatten, unread]

/-- All but the buffer and the reads is as before. -/
structure SameState (c c' : RecvConn) : Prop where
  conn : c'.conn = c.conn
  fragOpcode : c'.fragOpcode = c.fragOpcode
  fragPayload : c'.fragPayload = c.fragPayload

variable {c' c : RecvConn} {fin : Bool} {opcode : UInt8} {rest : Bytes} {hdr : FrameHeader}
  {fs : List Frame} {n : Nat} {reads : List Bytes}

/-- Filling that succeeds moves bytes from the reads to the buffer. -/
theorem fillFrom_true (h : c.fillFrom n reads = (true, c')) :
    SameState c c' ∧ c'.pending = c.buf.bufferedData ++ reads.flatten ∧
      n ≤ c'.buf.bufferedSize ∧ ∀ r ∈ c'.reads, r ∈ reads := by
  induction reads generalizing c with
  | nil =>
    rw [fillFrom] at h
    split at h
    · rename_i hn
      cases h
      exact ⟨⟨rfl, rfl, rfl⟩, rfl, hn, fun _ => id⟩
    · cases h
  | cons tmp rest ih =>
    rw [fillFrom] at h
    split at h
    · rename_i hn
      cases h
      exact ⟨⟨rfl, rfl, rfl⟩, rfl, hn, fun _ => id⟩
    split at h
    · rename_i heq
      cases heq
    · cases h
    rename_i heq
    cases heq
    obtain ⟨hsame, hpending, hn, hreads⟩ := ih h
    refine ⟨⟨hsame.conn, hsame.fragOpcode, hsame.fragPayload⟩, ?_, hn, fun r hr => ?_⟩
    · rw [hpending, bufferedData_append, bufferedData_dropConsumed,
        flatten_cons, append_assoc]
    · exact mem_cons_of_mem _ (hreads r hr)

/-- Filling succeeds if there are bytes enough. -/
theorem exists_fillFrom (hreads : ∀ r ∈ reads, r ≠ [])
    (hn : n ≤ (c.buf.bufferedData ++ reads.flatten).length) :
    ∃ c', c.fillFrom n reads = (true, c') := by
  induction reads generalizing c with
  | nil =>
    rw [flatten_nil, append_nil, length_bufferedData] at hn
    rw [fillFrom, if_pos hn]
    exact ⟨_, rfl⟩
  | cons tmp rest ih =>
    rw [fillFrom]
    split
    · exact ⟨_, rfl⟩
    split
    · rename_i heq
      cases heq
    · rename_i heq
      cases heq
      exact absurd rfl (hreads [] mem_cons_self)
    rename_i heq
    cases heq
    apply ih (fun r hr => hreads r (mem_cons_of_mem _ hr))
    rw [bufferedData_append, bufferedData_dropConsumed, append_assoc,
      ← flatten_cons]
    exact hn

/-- Where it fails the connection is closed without a word. -/
theorem fillFrom_false (h : c.fillFrom n reads = (false, c')) :
    c'.conn = { c.conn with closed := true } := by
  induction reads generalizing c with
  | nil =>
    rw [fillFrom] at h
    split at h
    · cases h
    · cases h
      rfl
  | cons tmp rest ih =>
    rw [fillFrom] at h
    split at h
    · cases h
    split at h
    · rename_i heq
      cases heq
    · cases h
      rfl
    rename_i heq
    cases heq
    have hconn := ih h
    exact hconn

theorem unread_fill (h : c.fill n = (true, c')) : c'.unread = c.unread := by
  rw [unread_eq, unread_eq, (fillFrom_true h).2.1, pending]

theorem unread_consume (c : RecvConn) (n : Nat) :
    (c.consume n).unread = c.unread - min n c.buf.bufferedSize := by
  have hsize : (c.consume n).buf.bufferedSize = c.buf.bufferedSize - n := by
    rw [← length_bufferedData, consume, bufferedData_consume, length_drop,
      length_bufferedData]
  rw [unread, unread, hsize, consume]
  dsimp only
  omega

/-! ## `recv` returns -/

theorem headerSize_of_parseMask {plen off : Nat}
    (h : parseMask fin opcode plen off rest = .ok hdr) : 0 < hdr.headerSize := by
  unfold parseMask at h
  split at h
  · cases h
    exact Nat.succ_pos _
  · cases h

theorem headerSize_of_parseLength {len7 : Nat} (h : parseLength fin opcode len7 rest = .ok hdr) :
    0 < hdr.headerSize := by
  rw [parseLength] at h
  split at h
  · split at h
    · cases h
    split at h
    · cases h
    · exact headerSize_of_parseMask h
  split at h
  · split at h
    · cases h
    split at h
    · cases h
    · exact headerSize_of_parseMask h
  · exact headerSize_of_parseMask h

theorem headerSize_pos {buf : Bytes} (h : parseFrameHeader buf = .ok hdr) : 0 < hdr.headerSize := by
  match buf, h with
  | [], h => cases h
  | [_], h => cases h
  | b0 :: b1 :: rest, h =>
    rw [parseFrameHeader] at h
    split at h
    · cases h
    split at h
    · cases h
    split at h
    · cases h
    split at h
    · cases h
    · exact headerSize_of_parseLength h

theorem unread_readLongHeader (h : c.readLongHeader = (some hdr, c')) : c'.unread < c.unread := by
  rw [readLongHeader] at h
  split at h
  · cases h
  rename_i c₁ hfill
  split at h
  · rename_i hdr' hparse
    cases h
    have hsize := (fillFrom_true hfill).2.2.1
    have hpos := headerSize_pos hparse
    have hunread : c₁.unread = c₁.buf.bufferedSize + (c₁.reads.map List.length).sum := rfl
    rw [unread_consume, ← unread_fill hfill]
    omega
  all_goals cases h

theorem unread_readWsFrameHeader (h : c.readWsFrameHeader = (some hdr, c')) :
    c'.unread < c.unread := by
  rw [readWsFrameHeader] at h
  split at h
  · cases h
  rename_i c₁ hfill
  rw [← unread_fill hfill]
  split at h
  · cases h
  · cases h
  · exact unread_readLongHeader h

theorem unread_readWsPayload {payload : Bytes} (h : c.readWsPayload hdr = (some payload, c')) :
    c'.unread ≤ c.unread := by
  rw [readWsPayload] at h
  split at h
  · cases h
  split at h
  · cases h
  split at h
  · cases h
  rename_i c₁ hfill
  cases h
  rw [unread_consume, ← unread_fill hfill]
  exact Nat.sub_le _ _

theorem unread_handleWsControlFrame (c : RecvConn) (hdr : FrameHeader) (payload : Bytes) :
    (c.handleWsControlFrame hdr payload).2.unread = c.unread := by
  rw [handleWsControlFrame]
  split
  · split
    · rfl
    · rfl
  split
  · rfl
  split
  · rfl
  unfold handleClosePayload
  dsimp only
  repeat' split
  all_goals rfl

theorem unread_handleWsContinuationFrame (c : RecvConn) (fin : Bool) (payload : Bytes) :
    (c.handleWsContinuationFrame fin payload).2.unread = c.unread := by
  rw [handleWsContinuationFrame]
  dsimp only
  repeat' split
  all_goals rfl

theorem unread_handleWsDataFrame (c : RecvConn) (fin : Bool) (opcodeRaw : UInt8)
    (payload : Bytes) : (c.handleWsDataFrame fin opcodeRaw payload).2.unread = c.unread := by
  rw [handleWsDataFrame]
  dsimp only
  repeat' split
  all_goals rfl

/-- The connection after a turn that goes on, or with which `recv` returns. -/
def afterTurn : Turn RecvConn (Option Frame × RecvConn) → RecvConn
  | .again c => c
  | .done (_, c) => c

theorem afterTurn_deliver (r : Option Frame × RecvConn) : afterTurn (deliver r) = r.2 := by
  obtain ⟨f, c⟩ := r
  cases f with
  | none =>
    rw [deliver]
    split
    · rfl
    · rfl
  | some f => rfl

/-- A turn that does not end with nothing has consumed bytes. -/
theorem unread_recvTurn (c : RecvConn) :
    (∃ c', recvTurn c = .done (none, c')) ∨ (afterTurn (recvTurn c)).unread < c.unread := by
  rw [recvTurn]
  split
  · exact .inl ⟨_, rfl⟩
  rename_i hdr c₁ hheader
  have hlt := unread_readWsFrameHeader hheader
  split
  · exact .inl ⟨_, rfl⟩
  rename_i payload c₂ hpayload
  have hle := unread_readWsPayload hpayload
  split
  · have hsame := unread_handleWsControlFrame c₂ hdr payload
    split
    · rename_i c₃ hc
      rw [hc] at hsame
      refine .inr ?_
      change c₃.unread < c.unread
      dsimp only at hsame
      omega
    · exact .inl ⟨_, rfl⟩
  refine .inr ?_
  split
  · rw [afterTurn_deliver, unread_handleWsContinuationFrame]
    omega
  · rw [afterTurn_deliver, unread_handleWsDataFrame]
    omega

theorem ends_recv (c : RecvConn) : Ends recvTurn c c.recv := by
  have hstep : ∀ s s' : RecvConn, True → recvTurn s = .again s' → True ∧ s'.unread < s.unread := by
    intro s s' _ hs
    obtain ⟨c', hdone⟩ | hlt := unread_recvTurn s
    · rw [hdone] at hs
      cases hs
    · rw [hs] at hlt
      exact ⟨trivial, hlt⟩
  obtain ⟨r, hr⟩ := exists_loop_eq hstep trivial (Nat.lt_succ_self c.unread)
  rw [recv, hr]
  exact ends_of_loop hr

/-- The messages that calls of `recv` return before one returns nothing, and the connection then. -/
inductive Receives : RecvConn → List Frame → RecvConn → Prop
  | nothing {c c' : RecvConn} (h : Ends recvTurn c (none, c')) : Receives c [] c'
  | message {c c' e : RecvConn} {f : Frame} {fs : List Frame}
      (h : Ends recvTurn c (some f, c')) (tail : Receives c' fs e) : Receives c (f :: fs) e

theorem Receives.unique {e e' : RecvConn} {fs' : List Frame} (h : Receives c fs e)
    (h' : Receives c fs' e') : fs = fs' ∧ e = e' := by
  induction h generalizing fs' with
  | nothing h =>
    cases h' with
    | nothing h' =>
      cases h.unique h'
      exact ⟨rfl, rfl⟩
    | message h' _ => cases h.unique h'
  | message h _ ih =>
    cases h' with
    | nothing h' => cases h.unique h'
    | message h' tail' =>
      cases h.unique h'
      obtain ⟨rfl, rfl⟩ := ih tail'
      exact ⟨rfl, rfl⟩

/-- A turn that goes on belongs to the next call that returns. -/
theorem Receives.again {c e : RecvConn} (hturn : recvTurn c = .again c') (h : Receives c' fs e) :
    Receives c fs e := by
  cases h with
  | nothing h => exact .nothing (.again hturn h)
  | message h tail => exact .message (.again hturn h) tail

/-- A call that returns a message has consumed bytes. -/
theorem unread_ends {f : Frame} (h : Ends recvTurn c (some f, c')) : c'.unread < c.unread := by
  obtain ⟨s, hs, hdone⟩ := h.induct
    (I := fun s => s.unread ≤ c.unread) (fun s s' hs hturn => by
      obtain ⟨c', hdone⟩ | hlt := unread_recvTurn s
      · rw [hdone] at hturn
        cases hturn
      rw [hturn] at hlt
      change s'.unread < s.unread at hlt
      omega) (Nat.le_refl _)
  obtain ⟨c', hnothing⟩ | hlt := unread_recvTurn s
  · rw [hnothing] at hdone
    cases hdone
  · rw [hdone] at hlt
    exact Nat.lt_of_lt_of_le hlt hs

theorem receives_recvAllFrom (hn : c.unread < n) :
    Receives c (recvAllFrom n c).1 (recvAllFrom n c).2 := by
  induction n generalizing c with
  | zero => exact absurd hn (Nat.not_lt_zero _)
  | succ n ih =>
    have hends := ends_recv c
    rw [recvAllFrom]
    split
    · rename_i c' hr
      rw [hr] at hends
      exact .nothing hends
    rename_i f c' hr
    rw [hr] at hends
    have hlt := unread_ends hends
    exact .message hends (ih (by omega))

theorem receives_recvAll (c : RecvConn) : Receives c c.recvAll.1 c.recvAll.2 :=
  receives_recvAllFrom (Nat.lt_succ_self _)

end RecvConn

end Conflux.Http.WebSocket

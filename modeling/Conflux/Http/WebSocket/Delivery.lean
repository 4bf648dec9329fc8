import Conflux.Http.WebSocket.Reassembly

/-!
# What `recv` makes of client frames

A turn of `recv` on a frame does what `reaction` says, whichever reads the frame comes in.
-/

namespace Conflux.Http.WebSocket

open List Bool ClientFrame

open Conflux.Core (Turn Ends natOfBytes bytesOfNat natOfBytes_bytesOfNat length_bytesOfNat)
open Framing (ascii)
open RecvConn (maxMessageSize recvTurn Receives)

/-! ## Bits of the first two bytes -/

theorem firstByte_bits (fin : Bool) (rsv : Fin 8) (opcode : Fin 16) :
    let b := UInt8.ofNat (fin.toNat * 128 + rsv * 16 + opcode)
    (b &&& 0x80 != 0) = fin ∧ (b &&& 0x70 != 0) = (rsv != 0) ∧ b &&& 0x0F = UInt8.ofNat opcode := by
  revert fin rsv opcode
  decide +kernel

theorem secondByte_bits (masked : Bool) (n : Fin 128) :
    let b := UInt8.ofNat (masked.toNat * 128 + n)
    (b &&& 0x80 != 0) = masked ∧ (b &&& 0x7F).toNat = n := by
  revert masked n
  decide +kernel

theorem opcode_bits (opcode : Fin 16) :
    isReservedOpcode (UInt8.ofNat opcode) =
        ((3 ≤ opcode.val && opcode.val ≤ 7) || 11 ≤ opcode.val) ∧
      (UInt8.ofNat opcode &&& 0x08 != 0) = decide (8 ≤ opcode.val) := by
  revert opcode
  decide +kernel

theorem ofNat_opcode_eq_iff (opcode : Fin 16) (n : Fin 16) :
    UInt8.ofNat opcode = UInt8.ofNat n ↔ opcode = n := by
  revert opcode n
  decide +kernel

namespace ClientFrame

theorem len7_lt (f : ClientFrame) : f.len7 < 128 := by
  obtain ⟨fin, rsv, opcode, mask, form, payload, hfits⟩ := f
  cases form with
  | short => exact Nat.lt_of_le_of_lt hfits (by decide)
  | medium => exact (by decide : 126 < 128)
  | long => exact (by decide : 127 < 128)

/-- The bits of the first two bytes that `recv` accepts. -/
def startOk (f : ClientFrame) : Bool :=
  f.rsv == 0 && !f.isReserved && !(f.isControl && (!f.fin || 125 < f.len7)) && f.mask.isSome

/-- The header of a masked frame. -/
def header (f : ClientFrame) (key : MaskKey) : FrameHeader where
  opcode := UInt8.ofNat f.opcode
  fin := f.fin
  masked := true
  payloadLen := f.payload.length
  mask := key
  headerSize := 2 + f.lengthBytes.length + 4

theorem parseFrameHeader_cons (f : ClientFrame) (rest : Bytes) :
    parseFrameHeader (f.firstByte :: f.secondByte :: rest) =
      if f.rsv != 0 then .protocolError
      else if f.isReserved then .protocolError
      else if f.isControl && (!f.fin || 125 < f.len7) then .controlTooLarge
      else if !f.mask.isSome then .protocolError
      else parseLength f.fin (UInt8.ofNat f.opcode) f.len7 rest := by
  obtain ⟨hfin, hrsv, hop⟩ := firstByte_bits f.fin f.rsv f.opcode
  obtain ⟨hmask, hlen⟩ := secondByte_bits f.mask.isSome ⟨f.len7, f.len7_lt⟩
  obtain ⟨hres, hcontrol⟩ := opcode_bits f.opcode
  rw [parseFrameHeader]
  simp only [firstByte, secondByte, hfin, hrsv, hop, hmask, hlen, hres, hcontrol]
  rfl

theorem parseFrameHeader_of_startOk {f : ClientFrame} (h : f.startOk = true) (rest : Bytes) :
    parseFrameHeader (f.firstByte :: f.secondByte :: rest) =
      parseLength f.fin (UInt8.ofNat f.opcode) f.len7 rest := by
  simp only [startOk, and_eq_true, beq_iff_eq, not_eq_true'] at h
  obtain ⟨⟨⟨hrsv, hres⟩, hcontrol⟩, hmask⟩ := h
  have hrsv' : (f.rsv != 0) = false := by rw [hrsv]; rfl
  rw [parseFrameHeader_cons, hrsv', hres, hcontrol, hmask]
  rfl

theorem parseFrameHeader_of_not_startOk {f : ClientFrame} (h : f.startOk = false) (rest : Bytes) :
    parseFrameHeader (f.firstByte :: f.secondByte :: rest) = .protocolError ∨
      parseFrameHeader (f.firstByte :: f.secondByte :: rest) = .controlTooLarge := by
  rw [parseFrameHeader_cons]
  split
  · exact .inl rfl
  split
  · exact .inl rfl
  split
  · exact .inr rfl
  split
  · exact .inl rfl
  · exfalso
    simp_all [startOk]

/-- Two bytes alone are no header. -/
theorem parseLength_nil (fin : Bool) (opcode : UInt8) (len7 : Nat) :
    parseLength fin opcode len7 [] = .incomplete := by
  rw [parseLength]
  split
  · rfl
  split
  · rfl
  · rfl

/-- What follows the first two bytes is as long as the length bits say. -/
theorem length_lengthBytes (f : ClientFrame) :
    f.lengthBytes.length = if f.len7 = 126 then 2 else if f.len7 = 127 then 8 else 0 := by
  obtain ⟨fin, rsv, opcode, mask, form, payload, hfits⟩ := f
  rw [lengthBytes, len7]
  cases form with
  | short =>
    change payload.length ≤ 125 at hfits
    dsimp only
    rw [if_neg (by omega), if_neg (by omega)]
    rfl
  | medium => exact length_bytesOfNat 2 _
  | long => exact length_bytesOfNat 8 _

/-- An extended length and the key behind it. -/
theorem split_lengthBytes {k n : Nat} (hn : n < 256 ^ k) (tail : Bytes) :
    ¬ (bytesOfNat k n ++ tail).length < k ∧
      natOfBytes ((bytesOfNat k n ++ tail).take k) = n ∧
      (bytesOfNat k n ++ tail).drop k = tail := by
  have hlen := length_bytesOfNat k n
  refine ⟨?_, ?_, drop_left' hlen⟩
  · rw [length_append, hlen]
    omega
  · rw [take_left' hlen, natOfBytes_bytesOfNat hn]

theorem parseLength_wire (f : ClientFrame) (key : MaskKey) :
    parseLength f.fin (UInt8.ofNat f.opcode) f.len7
        (f.lengthBytes ++ [key.k0, key.k1, key.k2, key.k3]) =
      if f.isMinimal then .ok (f.header key) else .protocolError := by
  obtain ⟨fin, rsv, opcode, mask, form, payload, hfits⟩ := f
  rw [parseLength, header, isMinimal, lengthBytes, len7]
  cases form with
  | short =>
    change payload.length ≤ 125 at hfits
    dsimp only
    rw [if_neg (by omega), if_neg (by omega)]
    rfl
  | medium =>
    obtain ⟨hlen, hvalue, hdrop⟩ := split_lengthBytes (k := 2) hfits
      [key.k0, key.k1, key.k2, key.k3]
    rw [if_pos rfl, if_neg hlen, hvalue, hdrop, length_bytesOfNat]
    by_cases hmin : 126 ≤ payload.length
    · rw [if_neg (by omega), if_pos (decide_eq_true hmin)]
      rfl
    · rw [if_pos (by omega), if_neg (by simpa using hmin)]
  | long =>
    obtain ⟨hlen, hvalue, hdrop⟩ := split_lengthBytes (k := 8) hfits
      [key.k0, key.k1, key.k2, key.k3]
    dsimp only
    rw [if_neg (by decide), if_pos rfl, if_neg hlen, hvalue, hdrop, length_bytesOfNat]
    by_cases hmin : 2 ^ 16 ≤ payload.length
    · rw [if_neg (by omega), if_pos (decide_eq_true hmin)]
      rfl
    · rw [if_pos (by omega), if_neg (by simpa using hmin)]

theorem unmaskWsPayload_mapIdx (key : MaskKey) (payload : Bytes) :
    unmaskWsPayload (payload.mapIdx fun i b => b ^^^ key.at i) key = payload := by
  rw [unmaskWsPayload, mapIdx_mapIdx]
  apply ext_getElem?
  intro i
  rw [getElem?_mapIdx]
  cases payload[i]? with
  | none => rfl
  | some b =>
    rw [Option.map_some, Function.comp_apply, UInt8.xor_assoc, UInt8.xor_self, UInt8.xor_zero]

end ClientFrame

/-! ## The connection between two frames -/

variable {key : MaskKey}

namespace RecvConn

/-- An open connection with a message in progress and the bytes still to come. -/
structure Holds (c : RecvConn) (m : Option Frame) (bytes : Bytes) : Prop where
  pending : c.pending = bytes
  reads : ∀ r ∈ c.reads, r ≠ []
  fragOpcode : c.fragOpcode = m.map Frame.opcode
  fragPayload : c.fragPayload = (m.map Frame.payload).getD []
  closed : c.conn.closed = false
  shut : c.conn.shut = false

section

variable {c : RecvConn} {m : Option Frame} {bytes a more rest : Bytes}

theorem Holds.fill (h : c.Holds m (a ++ rest)) :
    ∃ c' more, c.fill a.length = (true, c') ∧ c'.Holds m (a ++ rest) ∧ c'.conn = c.conn ∧
      c'.buf.bufferedData = a ++ more := by
  have hlen : a.length ≤ (c.buf.bufferedData ++ c.reads.flatten).length := by
    rw [← RecvConn.pending, h.pending, length_append]
    exact Nat.le_add_right _ _
  obtain ⟨c', hfill⟩ := exists_fillFrom h.reads hlen
  obtain ⟨hsame, hpending, hsize, hreads⟩ := fillFrom_true hfill
  have hpending' : c'.pending = a ++ rest := hpending.trans h.pending
  have hprefix : a <+: c'.buf.bufferedData := by
    apply prefix_of_prefix_length_le (prefix_append a rest)
    · rw [← hpending', RecvConn.pending]
      exact prefix_append _ _
    · rwa [RecvBuf.length_bufferedData]
  obtain ⟨more, hmore⟩ := hprefix
  refine ⟨c', more, hfill, ?_, hsame.conn, hmore.symm⟩
  exact {
    pending := hpending'
    reads := fun r hr => h.reads r (hreads r hr)
    fragOpcode := hsame.fragOpcode.trans h.fragOpcode
    fragPayload := hsame.fragPayload.trans h.fragPayload
    closed := by rw [hsame.conn, h.closed]
    shut := by rw [hsame.conn, h.shut] }

theorem Holds.consume (h : c.Holds m (a ++ rest)) (hbuf : c.buf.bufferedData = a ++ more) :
    (c.consume a.length).Holds m rest := by
  have hrest : more ++ c.reads.flatten = rest := by
    have hpending := h.pending
    rw [RecvConn.pending, hbuf, append_assoc] at hpending
    exact append_cancel_left hpending
  have hpending : (c.consume a.length).pending = rest := by
    rw [RecvConn.pending, RecvConn.consume, RecvBuf.bufferedData_consume, hbuf, drop_left]
    exact hrest
  exact { h with pending := hpending }

/-- At the end of the stream nothing more is sent. -/
theorem Holds.fill_nil (h : c.Holds m []) :
    ∃ c', c.fill 2 = (false, c') ∧ c'.conn.written = c.conn.written := by
  obtain ⟨ok, c', hfill⟩ : ∃ ok c', c.fill 2 = (ok, c') := ⟨_, _, rfl⟩
  cases ok with
  | true =>
    obtain ⟨-, hpending, hsize, -⟩ := fillFrom_true hfill
    have hlen : c'.pending.length = 0 := by
      rw [hpending, ← RecvConn.pending, h.pending]
      rfl
    rw [RecvConn.pending, length_append, RecvBuf.length_bufferedData] at hlen
    omega
  | false =>
    refine ⟨c', hfill, ?_⟩
    rw [fillFrom_false hfill]

end

/-- The connection was closed with a Close frame of a code. -/
structure Refuses (c c' : WsConn) (code : Nat) : Prop where
  closed : c'.closed = true
  written : ∃ last, c'.written = c.written ++ last ∧ ClosesWith code last

/-- A reason that `close` takes. -/
def goodReason (reason : Bytes) : Bool := reason.length ≤ 123 && utf8IsValid reason

section

variable {c : RecvConn} {m : Option Frame} {rest : Bytes} {f : ClientFrame}

theorem Holds.refuses (h : c.Holds m bytes) {code : Nat} {reason : Bytes}
    (hcode : isValidCloseCode code = true) (hreason : goodReason reason = true) :
    Refuses c.conn (c.close code reason).conn code := by
  rw [goodReason, and_eq_true, decide_eq_true_eq] at hreason
  have hframe : closeFrame code reason = some ⟨.close, bytesOfNat 2 code ++ reason⟩ := by
    have hlow : UInt8.ofNat (code % 256) = UInt8.ofNat code := by
      apply UInt8.toNat_inj.mp
      rw [UInt8.toNat_ofNat', UInt8.toNat_ofNat']
      exact Nat.mod_mod _ _
    rw [closeFrame, hcode, hreason.2, if_neg (by simp), if_neg (by omega), if_neg (by simp), hlow]
    rfl
  have hconn : (c.close code reason).conn =
      { c.conn with
        closed := true, shut := true,
        written := c.conn.written ++ [⟨.close, bytesOfNat 2 code ++ reason⟩] } := by
    rw [close, WsConn.close, hframe]
    dsimp only
    rw [h.closed, if_neg Bool.false_ne_true, WsConn.doSendFrame, h.shut]
    rfl
  rw [hconn]
  exact ⟨rfl, _, rfl, reason, rfl⟩

theorem getD_buf (b : RecvBuf) (i : Nat) :
    b.bytes.getD (b.pos + i) 0 = b.bufferedData.getD i 0 := by
  rw [RecvBuf.bufferedData, getD_eq_getElem?_getD, getD_eq_getElem?_getD, getElem?_drop]

/-- The first two bytes of a frame decide whether the rest of its header is read. -/
theorem Holds.readFirstTwo (h : c.Holds m (f.wire ++ rest)) :
    ∃ c₁ : RecvConn, c₁.Holds m (f.wire ++ rest) ∧ c₁.conn = c.conn ∧
      c₁.buf.bytes.getD (c₁.buf.pos + 1) 0 = f.secondByte ∧
      c.readWsFrameHeader =
        match parseFrameHeader [f.firstByte, f.secondByte] with
        | .protocolError => (none, c₁.emitWsProtocolClose)
        | .controlTooLarge => (none, c₁.close 1002 (ascii "invalid control frame"))
        | _ => c₁.readLongHeader := by
  have h' : c.Holds m ([f.firstByte, f.secondByte] ++ (f.lengthBytes ++ f.body ++ rest)) := h
  obtain ⟨c₁, more, hfill, hc₁, hconn, hbuf⟩ := h'.fill
  have htake : c₁.buf.bufferedData.take 2 = [f.firstByte, f.secondByte] := by
    rw [hbuf]
    rfl
  refine ⟨c₁, hc₁, hconn, ?_, ?_⟩
  · rw [getD_buf, hbuf]
    rfl
  change c.fill 2 = (true, c₁) at hfill
  rewrite [readWsFrameHeader, hfill, ← htake]
  rfl

theorem Holds.readWsFrameHeader_of_not_startOk (h : c.Holds m (f.wire ++ rest))
    (hstart : f.startOk = false) :
    ∃ c', c.readWsFrameHeader = (none, c') ∧ Refuses c.conn c'.conn 1002 := by
  obtain ⟨c₁, hc₁, hconn, -, hread⟩ := h.readFirstTwo
  rw [hread, ← hconn]
  obtain hparse | hparse := parseFrameHeader_of_not_startOk hstart []
  · rw [hparse]
    refine ⟨_, rfl, ?_⟩
    rw [emitWsProtocolClose]
    split
    · exact hc₁.refuses (by decide) (by decide)
    split
    all_goals exact hc₁.refuses (by decide) (by decide)
  · rw [hparse]
    exact ⟨_, rfl, hc₁.refuses (by decide) (by decide)⟩

/-- The masked payload of a frame. -/
def maskedPayload (f : ClientFrame) (key : MaskKey) : Bytes :=
  f.payload.mapIdx fun i b => b ^^^ key.at i

/-- The header of a masked frame whose first two bytes have passed. -/
theorem Holds.readWsFrameHeader_of_startOk (h : c.Holds m (f.wire ++ rest))
    (hkey : f.mask = some key) (hstart : f.startOk = true) :
    ∃ c' : RecvConn,
      if f.isMinimal then
        c.readWsFrameHeader = (some (f.header key), c') ∧ c'.conn = c.conn ∧
          c'.Holds m (maskedPayload f key ++ rest)
      else c.readWsFrameHeader = (none, c') ∧ Refuses c.conn c'.conn 1002 := by
  obtain ⟨c₁, hc₁, hconn, hsecond, hread⟩ := h.readFirstTwo
  have hlen7 : (f.secondByte &&& 0x7F).toNat = f.len7 :=
    (secondByte_bits f.mask.isSome ⟨f.len7, f.len7_lt⟩).2
  let header := f.firstByte :: f.secondByte :: (f.lengthBytes ++ [key.k0, key.k1, key.k2, key.k3])
  have hwire : f.wire ++ rest = header ++ (maskedPayload f key ++ rest) := by
    rw [wire, body, hkey, maskedPayload]
    simp only [header, append_assoc, cons_append]
  have hneeded : header.length = 2 + f.lengthBytes.length + 4 := by
    simp only [header, length_cons, length_append, length_nil]
    omega
  rw [hwire] at hc₁
  obtain ⟨c₂, more, hfill, hc₂, hconn', hbuf⟩ := hc₁.fill
  rw [hneeded, length_lengthBytes] at hfill
  have htake : c₂.buf.bufferedData.take
      (2 + (if f.len7 = 126 then 2 else if f.len7 = 127 then 8 else 0) + 4) = header := by
    rw [← length_lengthBytes, ← hneeded, hbuf, take_left]
  have hlong : c.readWsFrameHeader =
      if f.isMinimal then (some (f.header key), c₂.consume header.length)
      else (none, c₂.close 1002 (ascii "invalid frame header")) := by
    rw [hread, parseFrameHeader_of_startOk hstart, parseLength_nil]
    rw [readLongHeader, hsecond, hlen7, hfill]
    dsimp only
    rw [htake, parseFrameHeader_of_startOk hstart, parseLength_wire,
      hneeded]
    cases f.isMinimal with
    | true | false => rfl
  rw [hlong, ← hconn, ← hconn']
  cases f.isMinimal with
  | true => exact ⟨_, rfl, rfl, hc₂.consume hbuf⟩
  | false => exact ⟨_, rfl, hc₂.refuses (by decide) (by decide)⟩

theorem control_iff (f : ClientFrame) :
    UInt8.ofNat f.opcode &&& 0x08 = 0 ↔ f.isControl = false := by
  rw [isControl, ← (opcode_bits f.opcode).2, bne_eq_false_iff_eq]

theorem readWsPayload_of_tooBig (c : RecvConn)
    (hbig : maxMessageSize < f.payload.length ∨
      (f.isControl = false ∧ maxMessageSize < c.fragPayload.length + f.payload.length)) :
    c.readWsPayload (f.header key) = (none, c.close 1009 (ascii "message too big")) := by
  rw [← control_iff] at hbig
  rw [readWsPayload, header]
  split
  · rfl
  · rename_i hsmall
    rw [if_pos (hbig.resolve_left hsmall)]

/-- The payload of a frame that is not too big. -/
theorem Holds.readWsPayload (h : c.Holds m (maskedPayload f key ++ rest))
    (hbig : ¬ maxMessageSize < f.payload.length)
    (htotal : ¬ (f.isControl = false ∧ maxMessageSize < c.fragPayload.length + f.payload.length)) :
    ∃ c' : RecvConn, c.readWsPayload (f.header key) = (some f.payload, c') ∧
      c'.conn = c.conn ∧ c'.Holds m rest := by
  obtain ⟨c₁, more, hfill, hc₁, hconn, hbuf⟩ := h.fill
  have hlen : (maskedPayload f key).length = f.payload.length := length_mapIdx
  have htotal' : ¬ (UInt8.ofNat f.opcode &&& 0x08 = 0 ∧
      maxMessageSize < c.fragPayload.length + f.payload.length) := by
    rwa [control_iff]
  refine ⟨c₁.consume (maskedPayload f key).length, ?_, hconn, hc₁.consume hbuf⟩
  rw [RecvConn.readWsPayload, ClientFrame.header]
  rw [if_neg hbig, if_neg htotal', ← hlen, hfill]
  dsimp only
  rw [hbuf, take_left, maskedPayload, unmaskWsPayload_mapIdx]

end

end RecvConn

/-! ## Reactions -/

/-- A message to which a frame has been added. -/
def complete (fin : Bool) (msg : Frame) : Reaction :=
  if !fin then .goOn (some msg) []
  else if msg.opcode = .text ∧ utf8IsValid msg.payload = false then .close 1007
  else .deliver msg

/-- The code that a Close frame is answered with. -/
def closeAnswer : Bytes → Nat
  | [] => 1000
  | [_] => 1002
  | hi :: lo :: reason =>
    if !isValidCloseCode (hi.toNat * 256 + lo.toNat) then 1002
    else if 0 < reason.length ∧ utf8IsValid reason = false then 1007
    else hi.toNat * 256 + lo.toNat

namespace ClientFrame

/-- What `recv` makes of a frame it has read. -/
def handled (f : ClientFrame) (m : Option Frame) : Reaction :=
  match f.opcode.val, m with
  | 0, none => .close 1002
  | 0, some msg => complete f.fin { msg with payload := msg.payload ++ f.payload }
  | 1, none => complete f.fin ⟨.text, f.payload⟩
  | 2, none => complete f.fin ⟨.binary, f.payload⟩
  | 8, _ => .close (closeAnswer f.payload)
  | 9, m => .goOn m [f.payload]
  | 10, m => .goOn m []
  | _, _ => .close 1002

section

variable {f : ClientFrame}

theorem handled_continuation (hop : f.opcode.val = 0) (m : Option Frame) :
    f.handled m =
      match m with
      | none => .close 1002
      | some msg => complete f.fin { msg with payload := msg.payload ++ f.payload } := by
  rw [handled.eq_def, hop]
  cases m with
  | none | some msg => rfl

theorem handled_data (hop : f.opcode.val = 1 ∨ f.opcode.val = 2) (m : Option Frame) :
    f.handled m =
      match m with
      | none => complete f.fin ⟨if f.opcode.val = 1 then .text else .binary, f.payload⟩
      | some _ => .close 1002 := by
  rw [handled.eq_def]
  obtain hop | hop := hop
  all_goals
    rw [hop]
    cases m with
    | none | some msg => rfl

theorem handled_close (hop : f.opcode.val = 8) (m : Option Frame) :
    f.handled m = .close (closeAnswer f.payload) := by
  rw [handled.eq_def, hop]
  cases m with
  | none | some msg => rfl

theorem handled_ping (hop : f.opcode.val = 9) (m : Option Frame) :
    f.handled m = .goOn m [f.payload] := by
  rw [handled.eq_def, hop]
  cases m with
  | none | some msg => rfl

theorem handled_pong (hop : f.opcode.val = 10) (m : Option Frame) : f.handled m = .goOn m [] := by
  rw [handled.eq_def, hop]
  cases m with
  | none | some msg => rfl

end

/-- What `recv` makes of a frame. -/
def reaction (f : ClientFrame) (m : Option Frame) : Reaction :=
  if !f.startOk || !f.isMinimal then .close 1002
  else if maxMessageSize < f.payload.length then .close 1009
  else if f.isControl = false ∧
      maxMessageSize < ((m.map Frame.payload).getD []).length + f.payload.length then
    .close 1009
  else f.handled m

end ClientFrame

namespace RecvConn

/-- A turn does what a reaction says; `conn` is the connection before it. -/
def Performs (conn : WsConn) (turn : Turn RecvConn (Option Frame × RecvConn)) (rest : Bytes) :
    Reaction → Prop
  | .goOn m pongs => ∃ c' : RecvConn, turn = .again c' ∧ c'.Holds m rest ∧
      c'.conn.written = conn.written ++ pongs.map pongFrame
  | .deliver msg => ∃ c' : RecvConn, turn = .done (some msg, c') ∧ c'.Holds none rest ∧
      c'.conn.written = conn.written
  | .close code => ∃ c', turn = .done (none, c') ∧ Refuses conn c'.conn code

section

variable {c : RecvConn} {m : Option Frame} {rest : Bytes} {f : ClientFrame}

theorem Holds.again (h : c.Holds m rest) : deliver (none, c) = .again c := by
  rw [deliver, isOpen, h.closed]
  rfl

theorem Refuses.performs {conn : WsConn} {code : Nat} (h : Refuses conn c.conn code) :
    Performs conn (deliver (none, c)) rest (.close code) := by
  refine ⟨c, ?_, h⟩
  rw [deliver, isOpen, h.closed]
  rfl

/-- The end of both handlers of data, on a connection that keeps no message. -/
theorem Holds.performs_complete (h : c.Holds none rest) (fin : Bool) (msg : Frame) :
    Performs c.conn
      (deliver
        (if !fin then (none, { c with fragOpcode := some msg.opcode, fragPayload := msg.payload })
        else if msg.opcode = .text ∧ utf8IsValid msg.payload = false then
          (none, c.close 1007 (ascii "invalid utf-8"))
        else (some msg, c)))
      rest (complete fin msg) := by
  rw [complete]
  split
  · have hkept : Holds { c with fragOpcode := some msg.opcode, fragPayload := msg.payload }
        (some msg) rest := { h with fragOpcode := rfl, fragPayload := rfl }
    exact ⟨_, hkept.again, hkept, (append_nil _).symm⟩
  split
  · exact (h.refuses (by decide) (by decide)).performs
  · exact ⟨c, rfl, h, rfl⟩

theorem Holds.performs_continuation (h : c.Holds m rest) (hop : f.opcode.val = 0) :
    Performs c.conn (deliver (c.handleWsContinuationFrame f.fin f.payload)) rest (f.handled m) := by
  rw [handleWsContinuationFrame, handled_continuation hop]
  cases m with
  | none =>
    rw [h.fragOpcode]
    exact (h.refuses (by decide) (by decide)).performs
  | some msg =>
    have hcleared : Holds { c with fragOpcode := none, fragPayload := [] } none rest :=
      { h with fragOpcode := rfl, fragPayload := rfl }
    have hperforms :=
      hcleared.performs_complete f.fin { msg with payload := msg.payload ++ f.payload }
    have hopcode : c.fragOpcode = some msg.opcode := h.fragOpcode
    have hpayload : c.fragPayload = msg.payload := h.fragPayload
    rw [hopcode]
    rw [hpayload]
    exact hperforms

theorem Holds.performs_data (h : c.Holds m rest) {opcode : UInt8}
    (h1 : opcode = 1 ↔ f.opcode.val = 1) (h2 : opcode = 2 ↔ f.opcode.val = 2)
    (hop : f.opcode.val = 1 ∨ f.opcode.val = 2) :
    Performs c.conn (deliver (c.handleWsDataFrame f.fin opcode f.payload)) rest (f.handled m) := by
  have hno : ¬ (opcode ≠ 1 ∧ opcode ≠ 2) := by
    rw [ne_eq, ne_eq, h1, h2]
    omega
  rw [handleWsDataFrame, if_neg hno, handled_data hop]
  cases m with
  | none =>
    have hperforms := h.performs_complete f.fin ⟨if opcode = 1 then .text else .binary, f.payload⟩
    rw [h.fragOpcode]
    simp only [h1] at hperforms ⊢
    exact hperforms
  | some msg =>
    rw [h.fragOpcode]
    exact (h.refuses (by decide) (by decide)).performs

theorem Holds.refuses_close (h : c.Holds m rest) (payload : Bytes) :
    Refuses c.conn (c.handleClosePayload payload).conn (closeAnswer payload) := by
  match payload with
  | [] | [_] => exact h.refuses (by decide) (by decide)
  | hi :: lo :: reason =>
    rw [handleClosePayload, closeAnswer]
    split
    · exact h.refuses (by decide) (by decide)
    rename_i hcode
    split
    · exact h.refuses (by decide) (by decide)
    · exact h.refuses (by simpa using hcode) (by decide)

/-- The end of a turn on a control frame. -/
def controlTurn : Bool × RecvConn → Turn RecvConn (Option Frame × RecvConn)
  | (true, c) => .again c
  | (false, c) => .done (none, c)

theorem opcode_eq_iff (f : ClientFrame) (key : MaskKey) (n : Fin 16) :
    (f.header key).opcode = UInt8.ofNat n ↔ f.opcode.val = n.val := by
  rw [header, ofNat_opcode_eq_iff, Fin.ext_iff]

theorem Holds.performs_control (h : c.Holds m rest)
    (hop : f.opcode.val = 8 ∨ f.opcode.val = 9 ∨ f.opcode.val = 10) :
    Performs c.conn (controlTurn (c.handleWsControlFrame (f.header key) f.payload)) rest
      (f.handled m) := by
  have h8 : (f.header key).opcode = 0x8 ↔ f.opcode.val = 8 := opcode_eq_iff f key 8
  have h9 : (f.header key).opcode = 0x9 ↔ f.opcode.val = 9 := opcode_eq_iff f key 9
  have h10 : (f.header key).opcode = 0xA ↔ f.opcode.val = 10 := opcode_eq_iff f key 10
  rw [handleWsControlFrame]
  obtain hop | hop | hop := hop
  · rw [if_neg (by rw [h9]; omega), if_neg (by rw [h10]; omega), if_neg (by rw [ne_eq, h8]; omega),
      handled_close hop]
    exact ⟨_, rfl, h.refuses_close f.payload⟩
  · have hsend : c.conn.doSendFrame true ⟨.pong, f.payload⟩ =
        (true, { c.conn with written := c.conn.written ++ [⟨.pong, f.payload⟩] }) := by
      rw [WsConn.doSendFrame, if_pos (by rw [h.shut]; rfl)]
    rw [if_pos (h9.mpr hop), handled_ping hop, hsend]
    exact ⟨_, rfl, { h with }, rfl⟩
  · rw [if_neg (by rw [h9]; omega), if_pos (h10.mpr hop), handled_pong hop]
    exact ⟨c, rfl, h, (append_nil _).symm⟩

/-- The end of a turn on a frame that has been read. -/
theorem Holds.performs_handled (h : c.Holds m rest) (hstart : f.startOk = true) :
    Performs c.conn
      (if (f.header key).opcode &&& 0x08 ≠ 0 then
        controlTurn (c.handleWsControlFrame (f.header key) f.payload)
      else if (f.header key).opcode = 0x0 then
        deliver (c.handleWsContinuationFrame (f.header key).fin f.payload)
      else deliver (c.handleWsDataFrame (f.header key).fin (f.header key).opcode f.payload))
      rest (f.handled m) := by
  have hop : f.isReserved = false := by
    simp only [startOk, and_eq_true, not_eq_true'] at hstart
    exact hstart.1.1.2
  have hlt := f.opcode.isLt
  simp only [isReserved, or_eq_false_iff, and_eq_false_iff, decide_eq_false_iff_not] at hop
  have hcontrol : (f.header key).opcode &&& 0x08 = 0 ↔ f.isControl = false := control_iff f
  have h0 : (f.header key).opcode = 0x0 ↔ f.opcode.val = 0 := opcode_eq_iff f key 0
  have h1 : (f.header key).opcode = 0x1 ↔ f.opcode.val = 1 := opcode_eq_iff f key 1
  have h2 : (f.header key).opcode = 0x2 ↔ f.opcode.val = 2 := opcode_eq_iff f key 2
  rw [isControl, decide_eq_false_iff_not] at hcontrol
  by_cases hhigh : 8 ≤ f.opcode.val
  · rw [if_pos (by rw [ne_eq, hcontrol]; omega)]
    exact h.performs_control (by omega)
  rw [if_neg (by rw [ne_eq, hcontrol]; omega)]
  by_cases hzero : f.opcode.val = 0
  · rw [if_pos (h0.mpr hzero)]
    exact h.performs_continuation hzero
  have hdata : f.opcode.val = 1 ∨ f.opcode.val = 2 := by omega
  rw [if_neg (by rw [h0]; exact hzero)]
  exact h.performs_data h1 h2 hdata

/-- A turn of `recv` on a frame, in whichever reads it comes. -/
theorem Holds.performs (h : c.Holds m (f.wire ++ rest)) :
    Performs c.conn (recvTurn c) rest (f.reaction m) := by
  rw [recvTurn, reaction]
  cases hstart : f.startOk with
  | false =>
    obtain ⟨c', hheader, hrefuses⟩ := h.readWsFrameHeader_of_not_startOk hstart
    rw [hheader]
    exact ⟨c', rfl, hrefuses⟩
  | true =>
    obtain ⟨key, hkey⟩ : ∃ key, f.mask = some key := by
      rw [startOk, and_eq_true] at hstart
      exact Option.isSome_iff_exists.mp hstart.2
    obtain ⟨c₁, hc₁⟩ := h.readWsFrameHeader_of_startOk hkey hstart
    cases hmin : f.isMinimal with
    | false =>
      rw [hmin] at hc₁
      obtain ⟨hheader, hrefuses⟩ := hc₁
      rw [hheader]
      exact ⟨c₁, rfl, hrefuses⟩
    | true =>
      rw [hmin] at hc₁
      obtain ⟨hheader, hconn, hholds⟩ := hc₁
      rw [hheader, ← hconn]
      dsimp only
      rw [if_neg (by simp)]
      by_cases hbig : maxMessageSize < f.payload.length
      · rw [readWsPayload_of_tooBig c₁ (.inl hbig), if_pos hbig]
        exact ⟨_, rfl, hholds.refuses (by decide) (by decide)⟩
      rw [if_neg hbig, ← hholds.fragPayload]
      by_cases htotal : f.isControl = false ∧
          maxMessageSize < c₁.fragPayload.length + f.payload.length
      · rw [readWsPayload_of_tooBig c₁ (.inr htotal), if_pos htotal]
        exact ⟨_, rfl, hholds.refuses (by decide) (by decide)⟩
      obtain ⟨c₂, hpayload, hconn', hholds'⟩ := hholds.readWsPayload hbig htotal
      rw [hpayload, if_neg htotal, ← hconn']
      exact hholds'.performs_handled hstart

end

end RecvConn

end Conflux.Http.WebSocket

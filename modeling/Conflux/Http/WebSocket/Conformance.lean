import Conflux.Http.WebSocket.Delivery

/-!
# `recv` and the reassembly of client frames

There is one difference: a data frame inside a fragmented message is measured together with the
fragments before it, so that it is refused as too big where its own message is not.
-/

namespace Conflux.Http.WebSocket

open List Option ClientFrame

open Conflux.Core (Utf8 bytesOfNat length_bytesOfNat natOfBytes_bytesOfNat)
open RecvConn (maxMessageSize)

/-! ## Reactions and the reassembly -/

namespace ClientFrame

/-- A data frame that breaks no other rule, but is too big together with the fragments before it. -/
def isOverfull (limit : Nat) (m : Option Frame) (f : ClientFrame) : Bool :=
  f.isData && f.rsv == 0 && f.mask.isSome && f.isMinimal && f.payload.length ≤ limit &&
    m.any fun msg => limit < msg.payload.length + f.payload.length

/-- `recv` does what is expected, or closes with a code that belongs to a violation unless the
frame is overfull. -/
structure Faithful (f : ClientFrame) (m : Option Frame) : Prop where
  expected : f.violations maxMessageSize m = [] → f.reaction m = f.expected m
  violated : f.violations maxMessageSize m ≠ [] → ∃ code < 256 ^ 2, f.reaction m = .close code ∧
    ((∃ v ∈ f.violations maxMessageSize m, v.code = code) ↔ f.isOverfull maxMessageSize m = false)

section

variable {f : ClientFrame} {m : Option Frame} {limit : Nat} {v : Violation}

theorem Violation.code_lt (v : Violation) : v.code < 256 ^ 2 := by
  cases v with
  | protocol | badText | tooBig => decide

theorem mem_violations : v ∈ f.violations limit m ↔ f.violates limit m v = true := by
  rw [violations, mem_filter]
  refine ⟨fun h => h.2, fun h => ⟨?_, h⟩⟩
  cases v with
  | protocol | badText | tooBig => decide

theorem faithful_of_expected (hprotocol : f.violates maxMessageSize m .protocol = false)
    (hbad : f.violates maxMessageSize m .badText = false)
    (hbig : f.violates maxMessageSize m .tooBig = false)
    (hreaction : f.reaction m = f.expected m) : f.Faithful m where
  expected _ := hreaction
  violated h := absurd (by simp [violations, hprotocol, hbad, hbig]) h

theorem faithful_of_close (hv : f.violates maxMessageSize m v = true)
    (hreaction : f.reaction m = .close v.code) (hfull : f.isOverfull maxMessageSize m = false) :
    f.Faithful m where
  expected h := by
    have hmem := mem_violations.mpr hv
    rw [h] at hmem
    cases hmem
  violated _ :=
    ⟨v.code, v.code_lt, hreaction, fun _ => hfull, fun _ => ⟨v, mem_violations.mpr hv, rfl⟩⟩

/-- Lengths that need more than seven bits, in the shortest form. -/
theorem lt_len7_iff (hmin : f.isMinimal = true) : 125 < f.len7 ↔ 125 < f.payload.length := by
  rw [isMinimal] at hmin
  rw [len7]
  generalize f.form = form at hmin ⊢
  cases form with
  | short => exact Iff.rfl
  | medium => exact iff_of_true (Nat.lt_succ_self 125) (of_decide_eq_true hmin)
  | long =>
    have hlong := of_decide_eq_true hmin
    exact iff_of_true (by decide : 125 < 127) (by omega)

/-- The protocol asks for a header that `recv` takes, for frames in order, and for a code in a
Close frame. -/
theorem violates_protocol :
    f.violates limit m .protocol =
      (!(f.startOk && f.isMinimal) || 2 ^ 63 ≤ f.payload.length ||
        (f.opcode.val = 0 && m.isNone || f.isData && m.isSome ||
          f.opcode.val = 8 && !(closeStatus f.payload).any isCloseStatus)) := by
  rw [violates, startOk]
  cases hmin : f.isMinimal with
  | false => simp
  | true =>
    simp only [lt_len7_iff hmin]
    generalize (f.isControl && (!f.fin || decide (125 < f.payload.length))) = control
    simp only [bne, ← not_isSome, Bool.not_and, Bool.not_not, Bool.not_true, Bool.or_false]
    ac_rfl

/-- A header that `recv` does not take breaks the protocol. -/
theorem violates_of_header (h : (f.startOk && f.isMinimal) = false) :
    f.violates limit m .protocol = true := by
  rw [violates_protocol, h]
  rfl

theorem violates_protocol_eq (hhead : (f.startOk && f.isMinimal) = true)
    (hlen : f.payload.length ≤ maxMessageSize) :
    f.violates limit m .protocol =
      (f.opcode.val = 0 && m.isNone || f.isData && m.isSome ||
        f.opcode.val = 8 && !(closeStatus f.payload).any isCloseStatus) := by
  have hhuge : decide (2 ^ 63 ≤ f.payload.length) = false := by
    have hmax : maxMessageSize < 2 ^ 63 := by decide
    rw [decide_eq_false_iff_not]
    omega
  rw [violates_protocol, hhead, hhuge]
  rfl

theorem reaction_of_header (h : (f.startOk && f.isMinimal) = false) :
    f.reaction m = .close 1002 := by
  rw [reaction, if_pos]
  rw [← Bool.not_and, h]
  rfl

theorem reaction_of_tooBig (h : (f.startOk && f.isMinimal) = true)
    (hbig : maxMessageSize < f.payload.length ∨ (f.isControl = false ∧
      maxMessageSize < ((m.map Frame.payload).getD []).length + f.payload.length)) :
    f.reaction m = .close 1009 := by
  rw [reaction, ← Bool.not_and, h, if_neg (by simp)]
  split
  · rfl
  · rename_i hsmall
    rw [if_pos (hbig.resolve_left hsmall)]

theorem reaction_of_small (h : (f.startOk && f.isMinimal) = true)
    (hlen : f.payload.length ≤ maxMessageSize)
    (htotal : ¬ (f.isControl = false ∧
      maxMessageSize < ((m.map Frame.payload).getD []).length + f.payload.length)) :
    f.reaction m = f.handled m := by
  rw [reaction, ← Bool.not_and, h, if_neg (by simp), if_neg (by omega), if_neg htotal]

theorem isData_iff : f.isData = true ↔ f.opcode.val = 1 ∨ f.opcode.val = 2 := by
  rw [isData, Bool.or_eq_true, decide_eq_true_eq, decide_eq_true_eq]

/-- The parts of an overfull frame. -/
theorem isOverfull_iff :
    f.isOverfull maxMessageSize m = true ↔
      (f.startOk && f.isMinimal) = true ∧ (f.opcode.val = 1 ∨ f.opcode.val = 2) ∧
        f.payload.length ≤ maxMessageSize ∧
        ∃ msg, m = some msg ∧ maxMessageSize < msg.payload.length + f.payload.length := by
  have hstart : f.isData = true → (f.startOk = true ↔ f.rsv = 0 ∧ f.mask.isSome = true) := by
    intro hdata
    rw [isData_iff] at hdata
    have hres : f.isReserved = false := by
      rw [isReserved]
      simp only [Bool.or_eq_false_iff, Bool.and_eq_false_iff, decide_eq_false_iff_not]
      omega
    have hcontrol : f.isControl = false := decide_eq_false (by omega)
    rw [startOk, hres, hcontrol]
    simp
  have hany : (m.any fun msg => decide (maxMessageSize < msg.payload.length + f.payload.length)) =
      true ↔ ∃ msg, m = some msg ∧ maxMessageSize < msg.payload.length + f.payload.length := by
    cases m with
    | none | some msg => simp
  rw [isOverfull, Bool.and_eq_true, Bool.and_eq_true, Bool.and_eq_true, Bool.and_eq_true,
    Bool.and_eq_true, Bool.and_eq_true, hany, ← isData_iff, beq_iff_eq, decide_eq_true_eq]
  constructor
  · rintro ⟨⟨⟨⟨⟨hdata, hrsv⟩, hmask⟩, hmin⟩, hlen⟩, hm⟩
    exact ⟨⟨(hstart hdata).mpr ⟨hrsv, hmask⟩, hmin⟩, hdata, hlen, hm⟩
  rintro ⟨⟨hst, hmin⟩, hdata, hlen, hm⟩
  obtain ⟨hrsv, hmask⟩ := (hstart hdata).mp hst
  exact ⟨⟨⟨⟨⟨hdata, hrsv⟩, hmask⟩, hmin⟩, hlen⟩, hm⟩

/-- A data frame adds nothing to a message in progress. -/
theorem message_of_nested (hop : f.opcode.val = 1 ∨ f.opcode.val = 2) (msg : Frame) :
    f.message (some msg) = none := by
  rw [message.eq_def]
  obtain hop | hop := hop
  · rw [hop]
    rfl
  · rw [hop]
    rfl

/-- An overfull frame is refused as too big, which it is not. -/
theorem faithful_of_overfull (hfull : f.isOverfull maxMessageSize m = true) : f.Faithful m := by
  obtain ⟨hhead, hop, hlen, msg, rfl, htotal⟩ := isOverfull_iff.mp hfull
  have hprotocol : f.violates maxMessageSize (some msg) .protocol = true := by
    rw [violates_protocol_eq hhead hlen, isData_iff.mpr hop]
    simp
  have hbig : f.violates maxMessageSize (some msg) .tooBig = false := by
    rw [violates, message_of_nested hop]
    simp only [any_none, Bool.or_false, decide_eq_false_iff_not]
    omega
  have hcontrol : f.isControl = false := decide_eq_false (by omega)
  have hreaction := reaction_of_tooBig hhead (m := some msg) (.inr ⟨hcontrol, htotal⟩)
  refine ⟨fun h => ?_, fun _ => ⟨1009, by decide, hreaction, fun h => ?_, fun h => ?_⟩⟩
  · have hmem := mem_violations.mpr hprotocol
    rw [h] at hmem
    cases hmem
  · obtain ⟨v, hv, hcode⟩ := h
    rw [mem_violations] at hv
    cases v with
    | protocol | badText => cases hcode
    | tooBig =>
      rw [hbig] at hv
      cases hv
  · rw [hfull] at h
    cases h

/-- A message to which a frame has been added. -/
theorem faithful_of_message {msg : Frame} (hmsg : f.message m = some msg)
    (hprotocol : f.violates maxMessageSize m .protocol = false)
    (hlen : f.payload.length ≤ maxMessageSize) (hmsglen : msg.payload.length ≤ maxMessageSize)
    (hop : f.opcode.val = 0 ∨ f.opcode.val = 1 ∨ f.opcode.val = 2)
    (hreaction : f.reaction m = complete f.fin msg)
    (hfull : f.isOverfull maxMessageSize m = false) : f.Faithful m := by
  have hbig : f.violates maxMessageSize m .tooBig = false := by
    rw [violates, hmsg]
    simp only [any_some, Bool.or_eq_false_iff, decide_eq_false_iff_not]
    omega
  have hbad : f.violates maxMessageSize m .badText =
      (f.fin && (decide (msg.opcode = .text) && !decide (Utf8 msg.payload))) := by
    rw [violates, hmsg, any_some]
    have h8 : decide (f.opcode.val = 8) = false := decide_eq_false (by omega)
    rw [h8, Bool.false_and, Bool.or_false]
  have hexpected : f.expected m = if f.fin then .deliver msg else .goOn (some msg) [] := by
    rw [expected.eq_def, hmsg]
    obtain hop | hop | hop := hop
    all_goals
      rw [hop]
      rfl
  rw [complete] at hreaction
  cases hfin : f.fin with
  | false =>
    rw [hfin] at hbad hexpected hreaction
    exact faithful_of_expected hprotocol hbad hbig (hreaction.trans hexpected.symm)
  | true =>
    rw [hfin] at hbad hexpected hreaction
    by_cases htext : msg.opcode = .text ∧ utf8IsValid msg.payload = false
    · have hviolated : f.violates maxMessageSize m .badText = true := by
        have hutf : ¬ Utf8 msg.payload := by
          rw [← utf8IsValid_iff, htext.2]
          exact Bool.false_ne_true
        rw [hbad, htext.1, decide_eq_false hutf]
        rfl
      rw [if_neg (by simp), if_pos htext] at hreaction
      exact faithful_of_close hviolated hreaction hfull
    have hno : f.violates maxMessageSize m .badText = false := by
      rw [hbad]
      simp only [Bool.true_and, Bool.and_eq_false_iff, decide_eq_false_iff_not,
        Bool.not_eq_false', decide_eq_true_eq, ← utf8IsValid_iff]
      rw [not_and_or, Bool.not_eq_false] at htext
      exact htext
    rw [if_neg (by simp), if_neg htext] at hreaction
    exact faithful_of_expected hprotocol hno hbig (hreaction.trans hexpected.symm)

theorem isCloseStatus_eq (code : Nat) : isCloseStatus code = isValidCloseCode code := by
  rw [Bool.eq_iff_iff, isCloseStatus, isValidCloseCode]
  grind

theorem message_of_control (hop : 8 ≤ f.opcode.val) : f.message m = none := by
  rw [message.eq_def]
  split
  all_goals first | omega | rfl

section

variable (hhead : (f.startOk && f.isMinimal) = true) (hlen : f.payload.length ≤ maxMessageSize)

include hhead hlen

/-- What can be wrong with a control frame whose header `recv` takes. -/
theorem violates_of_control (hop : 8 ≤ f.opcode.val) :
    f.violates maxMessageSize m .protocol =
        (f.opcode.val = 8 && !(closeStatus f.payload).any isCloseStatus) ∧
      f.violates maxMessageSize m .badText =
        (f.opcode.val = 8 && !decide (Utf8 (f.payload.drop 2))) ∧
      f.violates maxMessageSize m .tooBig = false := by
  have h0 : decide (f.opcode.val = 0) = false := decide_eq_false (by omega)
  have hdata : f.isData = false := by
    rw [← Bool.not_eq_true, isData_iff]
    omega
  refine ⟨?_, ?_, ?_⟩
  · rw [violates_protocol_eq hhead hlen, h0, hdata]
    simp only [Bool.false_and, Bool.false_or]
  · rw [violates, message_of_control hop, any_none, Bool.and_false, Bool.false_or]
  · rw [violates, message_of_control hop, any_none, Bool.or_false, decide_eq_false_iff_not]
    omega

theorem faithful_of_close_frame (hop : f.opcode.val = 8)
    (hreaction : f.reaction m = .close (closeAnswer f.payload))
    (hfull : f.isOverfull maxMessageSize m = false) : f.Faithful m := by
  obtain ⟨hprotocol, hbad, hbig⟩ := violates_of_control (m := m) hhead hlen (by omega)
  rw [decide_eq_true hop, Bool.true_and] at hprotocol hbad
  have hexpected : f.expected m = .close ((closeStatus f.payload).getD 1000) := by
    rw [expected.eq_def, hop]
    rfl
  match hpayload : f.payload with
  | [] =>
    rw [hpayload] at hprotocol hbad hexpected hreaction
    refine faithful_of_expected hprotocol ?_ hbig (hreaction.trans hexpected.symm)
    rw [hbad, drop_nil, decide_eq_true Utf8.nil]
    rfl
  | [b] =>
    rw [hpayload] at hprotocol hreaction
    exact faithful_of_close (hprotocol.trans rfl) hreaction hfull
  | hi :: lo :: reason =>
    rw [hpayload] at hprotocol hbad hexpected hreaction
    have hprotocol' : f.violates maxMessageSize m .protocol =
        !isValidCloseCode (hi.toNat * 256 + lo.toNat) := by
      rw [hprotocol, closeStatus, any_some, isCloseStatus_eq]
    rw [closeAnswer] at hreaction
    split at hreaction
    · rename_i hcode
      exact faithful_of_close (hprotocol'.trans hcode) hreaction hfull
    rename_i hcode
    rw [Bool.not_eq_true] at hcode
    split at hreaction
    · rename_i htext
      refine faithful_of_close (v := .badText) ?_ hreaction hfull
      have hutf : ¬ Utf8 reason := by
        rw [← utf8IsValid_iff, htext.2]
        exact Bool.false_ne_true
      rw [hbad, drop_succ_cons, drop_succ_cons, drop_zero, decide_eq_false hutf]
      rfl
    rename_i htext
    have hutf : Utf8 reason := by
      cases reason with
      | nil => exact .nil
      | cons b rest =>
        rw [← utf8IsValid_iff]
        rw [not_and, Bool.not_eq_false] at htext
        exact htext (Nat.succ_pos _)
    refine faithful_of_expected (hprotocol'.trans hcode) ?_ hbig (hreaction.trans hexpected.symm)
    rw [hbad, drop_succ_cons, drop_succ_cons, drop_zero, decide_eq_true hutf]
    rfl

/-- Pings and pongs. -/
theorem faithful_of_ping (hop : f.opcode.val = 9 ∨ f.opcode.val = 10)
    (hreaction : f.reaction m = f.handled m) : f.Faithful m := by
  obtain ⟨hprotocol, hbad, hbig⟩ := violates_of_control (m := m) hhead hlen (by omega)
  have h8 : decide (f.opcode.val = 8) = false := decide_eq_false (by omega)
  rw [h8, Bool.false_and] at hprotocol hbad
  refine faithful_of_expected hprotocol hbad hbig (hreaction.trans ?_)
  rw [expected.eq_def]
  obtain hop | hop := hop
  · rw [handled_ping hop, hop]
    rfl
  · rw [handled_pong hop, hop]
    rfl

theorem faithful_of_control (hop : 8 ≤ f.opcode.val)
    (hop' : f.opcode.val ≤ 10) (hfull : f.isOverfull maxMessageSize m = false) :
    f.Faithful m := by
  have hcontrol : f.isControl = true := decide_eq_true hop
  have hreaction : f.reaction m = f.handled m := by
    apply reaction_of_small hhead hlen
    rw [hcontrol]
    simp
  by_cases h8 : f.opcode.val = 8
  · rw [handled_close h8] at hreaction
    exact faithful_of_close_frame hhead hlen h8 hreaction hfull
  · exact faithful_of_ping hhead hlen (by omega) hreaction

theorem faithful_of_continuation (hop : f.opcode.val = 0)
    (hfull : f.isOverfull maxMessageSize m = false) : f.Faithful m := by
  have hcontrol : f.isControl = false := decide_eq_false (by omega)
  have hprotocol : f.violates maxMessageSize m .protocol = m.isNone := by
    have hdata : f.isData = false := by
      rw [← Bool.not_eq_true, isData_iff]
      omega
    rw [violates_protocol_eq hhead hlen, hdata, hop]
    simp
  cases m with
  | none =>
    have hreaction : f.reaction none = .close 1002 := by
      rw [reaction_of_small hhead hlen (by simpa using fun _ => hlen), handled_continuation hop]
    exact faithful_of_close hprotocol hreaction hfull
  | some msg =>
    have hmessage : f.message (some msg) =
        some { msg with payload := msg.payload ++ f.payload } := by
      rw [message.eq_def, hop]
      rfl
    have hsize : (msg.payload ++ f.payload).length = msg.payload.length + f.payload.length :=
      length_append
    by_cases htotal : maxMessageSize < msg.payload.length + f.payload.length
    · have hreaction := reaction_of_tooBig hhead (m := some msg) (.inr ⟨hcontrol, htotal⟩)
      refine faithful_of_close (v := .tooBig) ?_ hreaction hfull
      rw [violates, hmessage, any_some, hsize, decide_eq_true htotal, Bool.or_true]
    have hreaction := reaction_of_small hhead hlen (m := some msg) fun h => htotal h.2
    rw [handled_continuation hop] at hreaction
    exact faithful_of_message hmessage hprotocol hlen (by rw [hsize]; omega) (.inl hop)
      hreaction hfull

theorem faithful_of_data (hop : f.opcode.val = 1 ∨ f.opcode.val = 2)
    (hfull : f.isOverfull maxMessageSize m = false) : f.Faithful m := by
  have hprotocol : f.violates maxMessageSize m .protocol = m.isSome := by
    have h0 : decide (f.opcode.val = 0) = false := decide_eq_false (by omega)
    have h8 : decide (f.opcode.val = 8) = false := decide_eq_false (by omega)
    rw [violates_protocol_eq hhead hlen, isData_iff.mpr hop, h0, h8]
    simp
  cases m with
  | none =>
    have hreaction := reaction_of_small hhead hlen (m := none) (by simpa using fun _ => hlen)
    rw [handled_data hop] at hreaction
    have hmessage : f.message none =
        some ⟨if f.opcode.val = 1 then .text else .binary, f.payload⟩ := by
      rw [message.eq_def]
      obtain hop | hop := hop
      all_goals
        rw [hop]
        rfl
    exact faithful_of_message hmessage hprotocol hlen hlen (.inr hop) hreaction hfull
  | some msg =>
    -- the frame is not overfull, so the nesting is what `recv` finds
    have htotal : ¬ maxMessageSize < msg.payload.length + f.payload.length := by
      intro h
      rw [isOverfull_iff.mpr ⟨hhead, hop, hlen, msg, rfl, h⟩] at hfull
      cases hfull
    have hreaction := reaction_of_small hhead hlen (m := some msg) fun h => htotal h.2
    rw [handled_data hop] at hreaction
    exact faithful_of_close hprotocol hreaction hfull

end

/-- `recv` against the reassembly, frame by frame. -/
theorem faithful (f : ClientFrame) (m : Option Frame) : f.Faithful m := by
  by_cases hfull : f.isOverfull maxMessageSize m = true
  · exact faithful_of_overfull hfull
  have hfull' := Bool.eq_false_of_not_eq_true hfull
  cases hhead : f.startOk && f.isMinimal with
  | false => exact faithful_of_close (violates_of_header hhead) (reaction_of_header hhead) hfull'
  | true =>
    by_cases hbig : maxMessageSize < f.payload.length
    · refine faithful_of_close (v := .tooBig) ?_ (reaction_of_tooBig hhead (.inl hbig)) hfull'
      rw [violates, decide_eq_true hbig, Bool.true_or]
    have hlen := Nat.le_of_not_lt hbig
    have hop : (f.opcode.val < 3 ∨ 7 < f.opcode.val) ∧ f.opcode.val < 11 := by
      simp only [startOk, isReserved, Bool.and_eq_true, Bool.not_eq_true', Bool.or_eq_false_iff,
        Bool.and_eq_false_iff, decide_eq_false_iff_not] at hhead
      omega
    by_cases hcontrol : 8 ≤ f.opcode.val
    · exact faithful_of_control hhead hlen hcontrol (by omega) hfull'
    by_cases hzero : f.opcode.val = 0
    · exact faithful_of_continuation hhead hlen hzero hfull'
    · exact faithful_of_data hhead hlen (by omega) hfull'

end

end ClientFrame

/-! ## Runs -/

/-- The frames end with one that is overfull. -/
def Ending.isOverfull (limit : Nat) : Ending → Bool
  | .violated m f => f.isOverfull limit m
  | _ => false

theorem ClosesWith.unique {frames : List Frame} {a b : Nat} (ha : a < 256 ^ 2) (hb : b < 256 ^ 2)
    (h : ClosesWith a frames) (h' : ClosesWith b frames) : a = b := by
  obtain ⟨reason, rfl⟩ := h
  obtain ⟨reason', heq⟩ := h'
  rw [cons.injEq, Frame.mk.injEq] at heq
  have hbytes := (append_inj heq.1.2 (by rw [length_bytesOfNat, length_bytesOfNat])).1
  rw [← natOfBytes_bytesOfNat ha, hbytes, natOfBytes_bytesOfNat hb]

namespace RecvConn

variable {c : RecvConn} {m : Option Frame}

/-- Messages received and frames sent from some state on, against a reassembly. -/
def Follows (c : RecvConn) (r : Reassembled) : Prop :=
  ∃ e last, Receives c r.messages e ∧
    e.conn.written = c.conn.written ++ (r.pongs.map pongFrame ++ last) ∧
    (r.ending.Admits maxMessageSize last ↔ r.ending.isOverfull maxMessageSize = false)

theorem Holds.follows_nil (h : c.Holds m []) : c.Follows { ending := .over } := by
  obtain ⟨c', hfill, hwritten⟩ := h.fill_nil
  have hturn : recvTurn c = .done (none, c') := by
    rw [recvTurn, readWsFrameHeader, hfill]
  exact ⟨c', [], .nothing (.done hturn), by simpa using hwritten, fun _ => rfl, fun _ => rfl⟩

variable {frames : List ClientFrame}

/-- The connection over a whole sequence of frames. -/
theorem Holds.follows (h : c.Holds m (frames.flatMap wire)) :
    c.Follows (reassemble maxMessageSize m frames) := by
  induction frames generalizing c m with
  | nil => exact h.follows_nil
  | cons f fs ih =>
    rw [flatMap_cons] at h
    have hperforms := h.performs
    obtain ⟨hexpected, hviolated⟩ := f.faithful m
    rw [reassemble]
    by_cases hviol : f.violations maxMessageSize m = []
    · rw [if_neg (not_not_intro hviol)]
      rw [hexpected hviol] at hperforms
      cases hreact : f.expected m with
      | goOn m' pongs =>
        rw [hreact] at hperforms
        obtain ⟨c', hturn, hholds, hwritten⟩ := hperforms
        obtain ⟨e, last, hreceives, hsent, hends⟩ := ih hholds
        refine ⟨e, last, hreceives.again hturn, ?_, hends⟩
        rw [hsent, hwritten, map_append, append_assoc, append_assoc]
      | deliver msg =>
        rw [hreact] at hperforms
        obtain ⟨c', hturn, hholds, hwritten⟩ := hperforms
        obtain ⟨e, last, hreceives, hsent, hends⟩ := ih hholds
        refine ⟨e, last, .message (.done hturn) hreceives, ?_, hends⟩
        rw [hsent, hwritten]
      | close code =>
        rw [hreact] at hperforms
        obtain ⟨c', hturn, -, last, hwritten, hcloses⟩ := hperforms
        exact ⟨c', last, .nothing (.done hturn), hwritten, fun _ => rfl, fun _ => hcloses⟩
    obtain ⟨code, hlt, hreact, hcode⟩ := hviolated hviol
    rw [if_pos hviol]
    rw [hreact] at hperforms
    obtain ⟨c', hturn, -, last, hwritten, hcloses⟩ := hperforms
    refine ⟨c', last, .nothing (.done hturn), hwritten, ?_⟩
    rw [Ending.isOverfull, ← hcode]
    constructor
    · rintro ⟨v, hv, hclosesv⟩
      exact ⟨v, hv, hclosesv.unique v.code_lt hlt hcloses⟩
    · rintro ⟨v, hv, rfl⟩
      exact ⟨v, hv, hcloses⟩

/-- A connection on which nothing has been sent yet. -/
theorem Holds.agrees_iff (h : c.Holds m (frames.flatMap wire))
    (hwritten : c.conn.written = []) :
    Agrees maxMessageSize (reassemble maxMessageSize m frames) c.recvAll.1
        c.recvAll.2.conn.written ↔
      (reassemble maxMessageSize m frames).ending.isOverfull maxMessageSize = false := by
  obtain ⟨e, last, hreceives, hsent, hends⟩ := h.follows
  obtain ⟨hmessages, hconn⟩ := (receives_recvAll c).unique hreceives
  rw [hwritten, nil_append] at hsent
  rw [hmessages, hconn, ← hends]
  constructor
  · rintro ⟨-, last', hsent', hadmits⟩
    rw [hsent] at hsent'
    rw [append_cancel_left hsent']
    exact hadmits
  · intro hadmits
    exact ⟨rfl, last, hsent, hadmits⟩

theorem holds_fresh {initialBuf : Bytes} {reads : List Bytes} {bytes : Bytes}
    (hreads : ∀ r ∈ reads, r ≠ []) (hbytes : initialBuf ++ reads.flatten = bytes) :
    (fresh initialBuf reads).Holds none bytes where
  pending := hbytes
  reads := hreads
  fragOpcode := rfl
  fragPayload := rfl
  closed := rfl
  shut := rfl

/-- Whatever frames a client sends and however they are cut into reads, `recv` returns the
messages of the reassembly, pings are answered, and the connection is closed as it has to be,
exactly if the frames do not end with an overfull one. -/
theorem recvAll_agrees_iff (frames : List ClientFrame) (initialBuf : Bytes) (reads : List Bytes)
    (hreads : ∀ r ∈ reads, r ≠ [])
    (hwire : initialBuf ++ reads.flatten = frames.flatMap ClientFrame.wire) :
    Agrees maxMessageSize (reassemble maxMessageSize none frames)
        (fresh initialBuf reads).recvAll.1 (fresh initialBuf reads).recvAll.2.conn.written ↔
      (reassemble maxMessageSize none frames).ending.isOverfull maxMessageSize = false := by
  have hholds := holds_fresh hreads hwire
  exact hholds.agrees_iff rfl

/-- A text in two fragments with a ping between them, cut inside the first header. -/
theorem recvAll_agrees_fragmented :
    let key : MaskKey := ⟨0x37, 0xFA, 0x21, 0x3D⟩
    let frames : List ClientFrame :=
      [⟨false, 0, 1, some key, .short, [72, 101], by decide⟩,
        ⟨true, 0, 9, some key, .short, [33], by decide⟩,
        ⟨true, 0, 0, some key, .short, [108, 108, 111], by decide⟩]
    let wire := frames.flatMap ClientFrame.wire
    (∀ r ∈ [wire.drop 1], r ≠ []) ∧
      Agrees maxMessageSize ⟨[⟨.text, [72, 101, 108, 108, 111]⟩], [[33]], .over⟩
        (fresh (wire.take 1) [wire.drop 1]).recvAll.1
        (fresh (wire.take 1) [wire.drop 1]).recvAll.2.conn.written := by
  intro key frames wire
  have hreads : ∀ r ∈ [wire.drop 1], r ≠ [] := by decide
  have hagrees := recvAll_agrees_iff frames (wire.take 1) [wire.drop 1] hreads (by decide)
  have hreassemble : reassemble maxMessageSize none frames =
      ⟨[⟨.text, [72, 101, 108, 108, 111]⟩], [[33]], .over⟩ := by
    decide +kernel
  rw [hreassemble] at hagrees
  exact ⟨hreads, hagrees.mpr rfl⟩

end RecvConn

/-- The first fragment of a binary message, as large as a message may be. -/
def largeFragment : ClientFrame where
  fin := false
  rsv := 0
  opcode := 2
  mask := some ⟨0, 0, 0, 0⟩
  form := .long
  payload := List.replicate maxMessageSize 0
  fits := by
    rw [length_replicate]
    decide

/-- A binary message of one byte. -/
def smallMessage : ClientFrame :=
  ⟨true, 0, 2, some ⟨0, 0, 0, 0⟩, .short, [1], by decide⟩

theorem length_largeFragment : largeFragment.payload.length = maxMessageSize :=
  length_replicate

theorem message_largeFragment :
    largeFragment.message none = some ⟨.binary, largeFragment.payload⟩ := by
  have hop : largeFragment.opcode.val = 2 := rfl
  rw [message.eq_def, hop]
  rfl

theorem violations_largeFragment : largeFragment.violations maxMessageSize none = [] := by
  have hop : largeFragment.opcode.val = 2 := rfl
  have hfin : largeFragment.fin = false := rfl
  have hminimal : largeFragment.isMinimal = true := by
    have hform : largeFragment.form = .long := rfl
    rw [isMinimal, hform, length_largeFragment]
    decide
  have hstart : largeFragment.startOk = true := rfl
  have hhead : (largeFragment.startOk && largeFragment.isMinimal) = true := by
    rw [hstart, hminimal]
    rfl
  rw [eq_nil_iff_forall_not_mem]
  intro v hv
  rw [mem_violations] at hv
  cases v with
  | protocol =>
    rw [violates_protocol_eq hhead (le_of_eq length_largeFragment),
      isData, hop] at hv
    simp at hv
  | badText =>
    rw [violates, hfin, hop] at hv
    simp at hv
  | tooBig =>
    rw [violates, message_largeFragment, any_some, length_largeFragment] at hv
    simp at hv

/-- The small message comes before the end of the large one. -/
theorem reassemble_nested :
    reassemble maxMessageSize none [largeFragment, smallMessage] =
      { ending := .violated (some ⟨.binary, largeFragment.payload⟩) smallMessage } := by
  have hexpected : largeFragment.expected none =
      .goOn (some ⟨.binary, largeFragment.payload⟩) [] := by
    have hop : largeFragment.opcode.val = 2 := rfl
    rw [expected.eq_def, hop, message_largeFragment]
    rfl
  have hsecond : smallMessage.violations maxMessageSize (some ⟨.binary, largeFragment.payload⟩) ≠
      [] := by
    have hviolates (msg : Frame) :
        smallMessage.violates maxMessageSize (some msg) .protocol = true := rfl
    exact ne_nil_of_mem (mem_violations.mpr (hviolates _))
  rw [reassemble, if_neg (not_not_intro violations_largeFragment), hexpected]
  dsimp only
  rw [reassemble, if_pos hsecond]
  rfl

theorem not_agrees_of_isOverfull {frames : List ClientFrame}
    (h : (reassemble maxMessageSize none frames).ending.isOverfull maxMessageSize = true) :
    ¬ Agrees maxMessageSize (reassemble maxMessageSize none frames)
      (RecvConn.fresh (frames.flatMap wire) []).recvAll.1
      (RecvConn.fresh (frames.flatMap wire) []).recvAll.2.conn.written := by
  have hholds : (RecvConn.fresh (frames.flatMap wire) []).Holds none
      (frames.flatMap wire) :=
    RecvConn.holds_fresh (by simp) (append_nil _)
  rw [hholds.agrees_iff rfl, h]
  simp

theorem isOverfull_smallMessage {msg : Frame} (h : msg.payload.length = maxMessageSize) :
    smallMessage.isOverfull maxMessageSize (some msg) = true := by
  rw [isOverfull_iff]
  refine ⟨by decide, .inr rfl, by decide, msg, rfl, ?_⟩
  rw [h]
  exact Nat.lt_succ_self _

/-- A small message inside a large one is a violation of the protocol, but is refused as too
big. -/
theorem not_agrees_nested :
    ¬ Agrees maxMessageSize (reassemble maxMessageSize none [largeFragment, smallMessage])
      (RecvConn.fresh ([largeFragment, smallMessage].flatMap ClientFrame.wire) []).recvAll.1
      (RecvConn.fresh ([largeFragment, smallMessage].flatMap
        ClientFrame.wire) []).recvAll.2.conn.written := by
  apply not_agrees_of_isOverfull
  rw [reassemble_nested, Ending.isOverfull]
  exact isOverfull_smallMessage length_largeFragment

end Conflux.Http.WebSocket

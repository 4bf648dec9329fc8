import Conflux.Http.WebSocket.Receiving

/-!
# Messages of client frames

What RFC 6455 makes of the frames of a client: fragments are put together, control frames may
stand between them, pings are answered, and the first frame that breaks a rule ends the
connection. Frames are written with any bits and in any of the three forms of a length.
-/

namespace Conflux.Http.WebSocket

open Conflux.Core (Utf8 bytesOfNat)

/-- UTF-8 is decided by the validator. -/
instance : DecidablePred Utf8 := fun s => decidable_of_iff _ (utf8IsValid_iff s)

/-! ## Client frames -/

/-- How a length is written. -/
inductive LengthForm where
  | short
  | medium
  | long
  deriving DecidableEq, Repr

/-- The lengths that a form can write. -/
def LengthForm.Fits : LengthForm → Nat → Prop
  | .short, n => n ≤ 125
  | .medium, n => n < 2 ^ 16
  | .long, n => n < 2 ^ 64

/-- Fitting is decidable. -/
instance (form : LengthForm) (n : Nat) : Decidable (form.Fits n) :=
  match form with
  | .short => inferInstanceAs (Decidable (n ≤ 125))
  | .medium => inferInstanceAs (Decidable (n < 2 ^ 16))
  | .long => inferInstanceAs (Decidable (n < 2 ^ 64))

scoped instance neZero_eight : NeZero 8 := ⟨by decide⟩

/-- A frame of a client, with the form its length is written in. -/
structure ClientFrame where
  fin : Bool
  rsv : Fin 8
  opcode : Fin 16
  /-- No key is a frame that is not masked. -/
  mask : Option MaskKey
  form : LengthForm
  payload : Bytes
  fits : form.Fits payload.length
  deriving DecidableEq, Repr

namespace ClientFrame

/-- The seven bits of the length. -/
def len7 (f : ClientFrame) : Nat :=
  match f.form with
  | .short => f.payload.length
  | .medium => 126
  | .long => 127

/-- The flags and the opcode. -/
def firstByte (f : ClientFrame) : UInt8 :=
  UInt8.ofNat (f.fin.toNat * 128 + f.rsv * 16 + f.opcode)

/-- The mask bit and the short length. -/
def secondByte (f : ClientFrame) : UInt8 := UInt8.ofNat (f.mask.isSome.toNat * 128 + f.len7)

/-- The extended length. -/
def lengthBytes (f : ClientFrame) : Bytes :=
  match f.form with
  | .short => []
  | .medium => bytesOfNat 2 f.payload.length
  | .long => bytesOfNat 8 f.payload.length

/-- The key, and the payload with the key laid over it. -/
def body (f : ClientFrame) : Bytes :=
  match f.mask with
  | none => f.payload
  | some key => [key.k0, key.k1, key.k2, key.k3] ++ f.payload.mapIdx fun i b => b ^^^ key.at i

/-- The frame on the wire. -/
def wire (f : ClientFrame) : Bytes := f.firstByte :: f.secondByte :: f.lengthBytes ++ f.body

/-! ## Rules -/

/-- A control frame. -/
def isControl (f : ClientFrame) : Bool := 8 ≤ f.opcode.val

/-- An opcode without a meaning. -/
def isReserved (f : ClientFrame) : Bool :=
  (3 ≤ f.opcode.val && f.opcode.val ≤ 7) || 11 ≤ f.opcode.val

/-- The frame starts a message. -/
def isData (f : ClientFrame) : Bool := f.opcode.val = 1 || f.opcode.val = 2

/-- The length is written in the shortest form. -/
def isMinimal (f : ClientFrame) : Bool :=
  match f.form with
  | .short => true
  | .medium => 126 ≤ f.payload.length
  | .long => 2 ^ 16 ≤ f.payload.length

/-- The codes that a Close frame may carry. -/
def isCloseStatus (code : Nat) : Bool :=
  (1000 ≤ code && code ≤ 1003) || (1007 ≤ code && code ≤ 1014) || (3000 ≤ code && code ≤ 4999)

/-- The code of a Close frame, which is normal closure if there is none. -/
def closeStatus : Bytes → Option Nat
  | [] => some 1000
  | [_] => none
  | hi :: lo :: _ => some (hi.toNat * 256 + lo.toNat)

/-- The message that is put together, with the payload of the frame if it belongs to it. -/
def message (f : ClientFrame) (m : Option Frame) : Option Frame :=
  match f.opcode.val, m with
  | 0, some msg => some { msg with payload := msg.payload ++ f.payload }
  | 1, none => some ⟨.text, f.payload⟩
  | 2, none => some ⟨.binary, f.payload⟩
  | _, _ => none

/-- What a frame may violate. -/
inductive Violation where
  | protocol
  | badText
  | tooBig
  deriving DecidableEq, Repr

/-- The code to close with. -/
def Violation.code : Violation → Nat
  | .protocol => 1002
  | .badText => 1007
  | .tooBig => 1009

/-- The rules that a frame breaks after which `m` is the message in progress. -/
def violates (limit : Nat) (m : Option Frame) (f : ClientFrame) : Violation → Bool
  | .protocol =>
    f.rsv != 0 || f.isReserved || f.mask.isNone || !f.isMinimal || 2 ^ 63 ≤ f.payload.length ||
      (f.isControl && (!f.fin || 125 < f.payload.length)) ||
      (f.opcode.val = 0 && m.isNone) || (f.isData && m.isSome) ||
      (f.opcode.val = 8 && !(closeStatus f.payload).any isCloseStatus)
  | .badText =>
    (f.fin && (f.message m).any fun msg => msg.opcode = .text && !decide (Utf8 msg.payload)) ||
      (f.opcode.val = 8 && !decide (Utf8 (f.payload.drop 2)))
  | .tooBig =>
    limit < f.payload.length || (f.message m).any fun msg => limit < msg.payload.length

/-- What a frame violates inside a message. -/
def violations (limit : Nat) (m : Option Frame) (f : ClientFrame) : List Violation :=
  [.protocol, .badText, .tooBig].filter (violates limit m f)

end ClientFrame

/-! ## Reassembly -/

/-- What follows from a frame. -/
inductive Reaction where
  /-- nothing is delivered; pings are answered -/
  | goOn (m : Option Frame) (pongs : List Bytes)
  | deliver (msg : Frame)
  | close (code : Nat)
  deriving DecidableEq, Repr

/-- What follows from a frame that breaks no rule. -/
def ClientFrame.expected (f : ClientFrame) (m : Option Frame) : Reaction :=
  match f.opcode.val with
  | 8 => .close ((closeStatus f.payload).getD 1000)
  | 9 => .goOn m [f.payload]
  | 10 => .goOn m []
  | _ =>
    match f.message m with
    | some msg => if f.fin then .deliver msg else .goOn (some msg) []
    | none => .goOn m []

/-- How the frames end. -/
inductive Ending where
  /-- the client sends no more -/
  | over
  /-- with a Close frame -/
  | closed (code : Nat)
  /-- with a frame that breaks a rule after which `m` is the message in progress -/
  | violated (m : Option Frame) (f : ClientFrame)
  deriving DecidableEq, Repr

/-- What a stream of frames amounts to. -/
structure Reassembled where
  messages : List Frame := []
  pongs : List Bytes := []
  ending : Ending
  deriving DecidableEq, Repr

/-- Put the messages of a stream together. -/
def reassemble (limit : Nat) : Option Frame → List ClientFrame → Reassembled
  | _, [] => { ending := .over }
  | m, f :: fs =>
    if f.violations limit m ≠ [] then { ending := .violated m f }
    else
      match f.expected m with
      | .goOn m' pongs =>
        { reassemble limit m' fs with pongs := pongs ++ (reassemble limit m' fs).pongs }
      | .deliver msg =>
        { reassemble limit none fs with messages := msg :: (reassemble limit none fs).messages }
      | .close code => { ending := .closed code }

/-- A Close frame with a code and any reason. -/
def ClosesWith (code : Nat) (frames : List Frame) : Prop :=
  ∃ reason, frames = [⟨.close, bytesOfNat 2 code ++ reason⟩]

/-- The frames that may be sent at the end. -/
def Ending.Admits (limit : Nat) : Ending → List Frame → Prop
  | .over, frames => frames = []
  | .closed code, frames => ClosesWith code frames
  | .violated m f, frames => ∃ v ∈ f.violations limit m, ClosesWith v.code frames

/-- The answer to a ping. -/
def pongFrame (payload : Bytes) : Frame := ⟨.pong, payload⟩

/-- Messages delivered and frames sent are those of the reassembly. -/
structure Agrees (limit : Nat) (r : Reassembled) (messages written : List Frame) : Prop where
  messages : messages = r.messages
  written : ∃ last, written = r.pongs.map pongFrame ++ last ∧ r.ending.Admits limit last

end Conflux.Http.WebSocket

import Conflux.Http.Response.Model
import Conflux.Core.Assoc
import Mathlib.Algebra.Order.Ring.Nat

/-!
# Pre-validation of client frames

Every receive buffer of an HTTP/2 connection is walked frame by frame before the session gets
it. The walk keeps the streams that were closed, the window updates of each open stream and the
highest stream of the client. What a walk does with one frame is `prevalidateFrame`.
-/

namespace Conflux.Http.H2

open Conflux.Core
open Framing (ascii)

/-! ## Frames -/

/-- A frame as it is on the wire; the four bytes of the stream hold a reserved bit. -/
structure H2Frame where
  type : UInt8
  flags : UInt8 := 0
  id0 : UInt8 := 0
  id1 : UInt8 := 0
  id2 : UInt8 := 0
  id3 : UInt8
  payload : Bytes := []
  small : payload.length < 2 ^ 24 := by decide
  deriving DecidableEq, Repr

/-- The 31 bits of a number behind a reserved bit. -/
def read31 (a b c d : UInt8) : Nat :=
  a.toNat % 128 * 2 ^ 24 + b.toNat * 2 ^ 16 + c.toNat * 2 ^ 8 + d.toNat

namespace H2Frame

/-- The stream of a frame. -/
def streamId (f : H2Frame) : Nat := read31 f.id0 f.id1 f.id2 f.id3

/-- The bytes of a frame. -/
def encode (f : H2Frame) : Bytes :=
  [UInt8.ofNat (f.payload.length / 2 ^ 16), UInt8.ofNat (f.payload.length / 2 ^ 8),
    UInt8.ofNat f.payload.length, f.type, f.flags, f.id0, f.id1, f.id2, f.id3] ++ f.payload

end H2Frame

theorem length_bytes_lt (l0 l1 l2 : UInt8) :
    l0.toNat * 2 ^ 16 + l1.toNat * 2 ^ 8 + l2.toNat < 2 ^ 24 := by
  have h0 := l0.toNat_lt
  have h1 := l1.toNat_lt
  have h2 := l2.toNat_lt
  omega

/-- The first whole frame and what is behind it. -/
def cutFrame : Bytes → Option (H2Frame × Bytes)
  | l0 :: l1 :: l2 :: type :: flags :: id0 :: id1 :: id2 :: id3 :: rest =>
    let length := l0.toNat * 2 ^ 16 + l1.toNat * 2 ^ 8 + l2.toNat
    if rest.length < length then none
    else
      some ({ type := type, flags := flags, id0 := id0, id1 := id1, id2 := id2, id3 := id3,
              payload := rest.take length
              small := by
                rw [List.length_take]
                exact Nat.lt_of_le_of_lt (Nat.min_le_left _ _) (length_bytes_lt l0 l1 l2) },
        rest.drop length)
  | _ => none

/-- The length of a frame comes back from its three bytes. -/
theorem H2Frame.length_of_bytes (f : H2Frame) :
    (UInt8.ofNat (f.payload.length / 2 ^ 16)).toNat * 2 ^ 16 +
      (UInt8.ofNat (f.payload.length / 2 ^ 8)).toNat * 2 ^ 8 +
      (UInt8.ofNat f.payload.length).toNat = f.payload.length := by
  have hsmall := f.small
  simp only [UInt8.toNat_ofNat']
  omega

/-- A frame comes back from its bytes. -/
theorem cutFrame_encode (f : H2Frame) (rest : Bytes) :
    cutFrame (f.encode ++ rest) = some (f, rest) := by
  simp only [H2Frame.encode, List.cons_append, List.nil_append, cutFrame, f.length_of_bytes]
  have hnot : ¬ (f.payload ++ rest).length < f.payload.length := by
    rw [List.length_append]
    omega
  simp only [hnot, if_false, List.take_left', List.drop_left']

/-! ## The tracking state -/

/-- The error codes of rejections. -/
inductive H2Error where
  | protocolError
  | flowControlError
  | streamClosed
  | frameSizeError
  deriving DecidableEq, Repr

/-- How a frame is rejected. -/
inductive Rejection where
  /-- `nghttp2_session_terminate_session` -/
  | terminate (error : H2Error)
  /-- `h2_queue_raw_rst_stream` -/
  | rstStream (streamId : Nat) (error : H2Error)
  deriving DecidableEq, Repr

/-- What a connection keeps about its streams for the walk. -/
structure Tracking where
  /-- The keys of `h2_streams`. -/
  streams : List Nat := []
  /-- In ascending order. -/
  closedStreams : List Nat := []
  /-- The total of the window updates of each stream. -/
  streamWindowUpdates : List (Nat × Nat) := []
  /-- The highest stream that the client has opened. -/
  maxClientStreamId : Nat := 0
  deriving DecidableEq, Repr

/-- Insertion into a set. -/
def insertId (id : Nat) : List Nat → List Nat
  | [] => [id]
  | other :: ids =>
    if id < other then id :: other :: ids
    else if id = other then other :: ids
    else other :: insertId id ids

namespace Tracking

/-- The closed streams remember at most 256, the least is forgotten first. -/
def rememberClosed (ids : List Nat) (id : Nat) : List Nat :=
  let ids := insertId id ids
  if 256 < ids.length then ids.tail else ids

/-- The session has the headers of a stream. -/
def onStreamOpen (t : Tracking) (id : Nat) : Tracking :=
  { t with streams := insertId id t.streams }

/-- `h2_on_stream_close_cb` -/
def onStreamClose (t : Tracking) (id : Nat) : Tracking :=
  { t with
    closedStreams := rememberClosed t.closedStreams id
    streamWindowUpdates := t.streamWindowUpdates.filter fun entry => entry.1 != id
    streams := t.streams.filter fun other => other != id }

end Tracking

/-- DATA -/
def typeData : UInt8 := 0
/-- HEADERS -/
def typeHeaders : UInt8 := 1
/-- PRIORITY -/
def typePriority : UInt8 := 2
/-- RST_STREAM -/
def typeRstStream : UInt8 := 3
/-- WINDOW_UPDATE -/
def typeWindowUpdate : UInt8 := 8

/-- The 31 bits at the start of a payload. -/
def payload31 : Bytes → Nat
  | a :: b :: c :: d :: _ => read31 a b c d
  | _ => 0

/-! ## One frame -/

/-- The check of a PRIORITY frame. -/
def checkPriority (f : H2Frame) : Option Rejection :=
  if f.streamId = 0 then some (.terminate .protocolError)
  else if f.payload.length ≠ 5 then some (.rstStream f.streamId .frameSizeError)
  else if payload31 f.payload = f.streamId then some (.rstStream f.streamId .protocolError)
  else none

/-- A reset stream is closed. -/
def noteReset (t : Tracking) (f : H2Frame) : Tracking :=
  { t with
    streamWindowUpdates := t.streamWindowUpdates.filter fun entry => entry.1 != f.streamId
    closedStreams := Tracking.rememberClosed t.closedStreams f.streamId }

/-- The check of a window update of an open stream. -/
def checkWindow (t : Tracking) (f : H2Frame) : Option Rejection × Tracking :=
  if t.closedStreams.contains f.streamId || !t.streams.contains f.streamId then (none, t)
  else
    let increment := payload31 f.payload
    let total := (assocFind f.streamId t.streamWindowUpdates).getD 0
    let store := fun total : Nat =>
      { t with streamWindowUpdates :=
          assocUpdate f.streamId 0 (fun _ => total) t.streamWindowUpdates }
    if 2 ^ 31 - 1 - total < increment then
      (some (.rstStream f.streamId .flowControlError), store total)
    else (none, store (total + increment))

/-- The check of DATA and HEADERS frames. -/
def checkStream (t : Tracking) (f : H2Frame) : Option Rejection × Tracking :=
  if t.closedStreams.contains f.streamId then
    (some (if f.type = typeHeaders then .terminate .streamClosed
      else .rstStream f.streamId .streamClosed), t)
  else if f.type = typeHeaders && !t.streams.contains f.streamId then
    if f.streamId < t.maxClientStreamId then (some (.terminate .protocolError), t)
    else if f.streamId % 2 ≠ 0 then
      (none, { t with maxClientStreamId := max t.maxClientStreamId f.streamId })
    else (none, t)
  else (none, t)

/-- What the walk does with a frame. -/
def prevalidateFrame (t : Tracking) (f : H2Frame) : Option Rejection × Tracking :=
  match (if f.type = typePriority then checkPriority f else none) with
  | some rejection => (some rejection, t)
  | none =>
    let t := if f.type = typeRstStream && f.streamId != 0 then noteReset t f else t
    if f.type = typeWindowUpdate && f.streamId != 0 && f.payload.length == 4 then
      checkWindow t f
    else if (f.type = typeData || f.type = typeHeaders) && f.streamId != 0 then checkStream t f
    else (none, t)

/-! ## The walk over a buffer -/

/-- The bytes of the client preface. -/
def clientPreface : Bytes := ascii "PRI * HTTP/2.0\r\n\r\nSM\r\n\r\n"

/-- The loop of the walk; the size bounds the rounds. The answer is the offset of a rejected
frame. -/
def walkFrames : Nat → Nat → Bytes → Tracking → Option (Nat × Rejection) × Tracking
  | 0, _, _, t => (none, t)
  | rounds + 1, offset, bytes, t =>
    match cutFrame bytes with
    | none => (none, t)
    | some (f, rest) =>
      match prevalidateFrame t f with
      | (some rejection, t) => (some (offset, rejection), t)
      | (none, t) => walkFrames rounds (offset + 9 + f.payload.length) rest t

/-- The client preface is behind once a buffer has started with it. -/
def prefaceSeen (seen : Bool) (bytes : Bytes) : Bool := seen || clientPreface.isPrefixOf bytes

/-- `h2_prevalidate_client_frames` of a connection with a session. A preface not seen yet is
passed. -/
def h2PrevalidateClientFrames (seen : Bool) (t : Tracking) (bytes : Bytes) :
    Option (Nat × Rejection) × Tracking :=
  if !seen && clientPreface.isPrefixOf bytes then
    walkFrames bytes.length clientPreface.length (bytes.drop clientPreface.length) t
  else walkFrames bytes.length 0 bytes t

end Conflux.Http.H2

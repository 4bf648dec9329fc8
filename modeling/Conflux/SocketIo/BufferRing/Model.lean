import Conflux.Core.Guarded
import Conflux.Core.OpenTable
import Mathlib.Algebra.Order.Ring.Nat
import Mathlib.Data.List.Range

/-!
# Provided buffers

A ring of buffers that the kernel fills. Every buffer has an id; publishing it gives it the next
position, a counter of 32 bits, and writes its id into the slot of that position. A completion
of the kernel names the id of the first buffer it has filled, and the position is looked up from
it.

With one buffer for each completion, recycled buffers are published in the order of their
positions. In bundle mode they are published at once, and so a slot may be written while its old
position is still in use: before that the ids of the positions are saved in a table.

Arrays are functions on their indices. The calls that publish a buffer to the kernel are kept in
a list.
-/

namespace Conflux.SocketIo

open Conflux.Core

/-- Addition of positions. -/
def addPos (a b : Nat) : Nat := (a + b) % 2 ^ 32

/-- `bundle_hash` -/
def bundleHash (pos : Nat) : Nat := pos * 2654435761 % 2 ^ 32

/-- The ring with the bookkeeping of its positions. -/
structure BufferRing where
  bufSize : Nat
  count : Nat
  /-- `BufferRingMode::recv_bundle` -/
  recvBundle : Bool
  ringOrder : Nat → Nat
  idPos : Nat → Nat
  decodedPos : Nat → Bool := fun _ => false
  observedPos : Nat → Bool := fun _ => false
  recycleReadyPos : Nat → Bool := fun _ => false
  headPos : Nat
  recycleHeadPos : Nat
  tailPos : Nat
  bundleSavedPos : Nat → Nat := fun _ => 0
  bundleHasSavedPos : Nat → Bool := fun _ => false
  bundleSaved : OpenTable Nat
  bundlePreservedPos : Nat
  /-- The ids of the published buffers, in order. -/
  published : List Nat

namespace BufferRing

/-- A new ring whose positions start at `start`; the constructor has them start at zero. -/
def create (bufSize count : Nat) (recvBundle : Bool) (start : Nat) : BufferRing where
  bufSize := bufSize
  count := count
  recvBundle := recvBundle
  ringOrder i := i
  idPos id := addPos start id
  headPos := start
  recycleHeadPos := start
  tailPos := addPos start count
  bundleSaved := { size := count * 8, slot := fun _ => none }
  bundlePreservedPos := start
  published := List.range count

/-- Change one entry of an array. -/
def set {α : Type} (array : Nat → α) (i : Nat) (v : α) : Nat → α :=
  Function.update array i v

/-- The id at a position. -/
def ringIdAt (r : BufferRing) (pos : Nat) : Nat :=
  if r.recvBundle then
    match r.bundleSaved.find bundleHash pos with
    | some id => id
    | none => r.ringOrder (pos % r.count)
  else r.ringOrder (pos % r.count)

/-- A buffer is published at the tail. -/
def publish (r : BufferRing) (id : Nat) : BufferRing :=
  let idx := r.tailPos % r.count
  { r with
    ringOrder := set r.ringOrder idx id
    idPos := set r.idPos id r.tailPos
    decodedPos := set r.decodedPos idx false
    observedPos := set r.observedPos idx false
    recycleReadyPos := set r.recycleReadyPos idx false
    published := r.published ++ [id]
    tailPos := addPos r.tailPos 1 }

/-! ## Recycling -/

/-- Each round of `flush_recycle_ready` takes a ready buffer, so their number bounds the
rounds. -/
def flushRounds : Nat → BufferRing → BufferRing
  | 0, r => r
  | rounds + 1, r =>
    if r.recycleHeadPos ≠ r.tailPos ∧ r.recycleReadyPos (r.recycleHeadPos % r.count) = true then
      let id := r.ringIdAt r.recycleHeadPos
      let oldIdx := r.recycleHeadPos % r.count
      let r := { r with
        recycleReadyPos := set r.recycleReadyPos oldIdx false
        observedPos := set r.observedPos oldIdx false }
      let r := r.publish id
      flushRounds rounds { r with recycleHeadPos := addPos r.recycleHeadPos 1 }
    else r

/-- Publish what is ready, in order. -/
def flushRecycleReady (r : BufferRing) : BufferRing := flushRounds r.count r

/-- A buffer is recycled in bundle mode. -/
def recycleBundled (r : BufferRing) (oldPos : Nat) : BufferRing :=
  let id := r.ringIdAt oldPos
  let r := r.publish id
  { r with
    bundleHasSavedPos :=
      if r.bundleHasSavedPos id ∧ r.bundleSavedPos id = oldPos then
        set r.bundleHasSavedPos id false else r.bundleHasSavedPos
    bundleSaved := r.bundleSaved.erase bundleHash oldPos }

/-- Recycle some positions. -/
def recycleRange (r : BufferRing) (startPos cnt : Nat) : BufferRing :=
  if cnt = 0 then r
  else if r.recvBundle then
    (List.range cnt).foldl (fun r i => r.recycleBundled (addPos startPos i)) r
  else
    let r := (List.range cnt).foldl (fun r i =>
      { r with recycleReadyPos := set r.recycleReadyPos (addPos startPos i % r.count) true }) r
    r.flushRecycleReady

/-! ## Decoding -/

/-- The rounds of `preserve_bundle_positions_until`, up to a full table. -/
def preserveRounds : Nat → BufferRing → Bool × BufferRing
  | 0, r => (true, r)
  | rounds + 1, r =>
    let pos := r.bundlePreservedPos
    let id := r.ringIdAt pos
    match r.bundleSaved.insertOrAssign bundleHash pos id with
    | none => (false, r)
    | some saved =>
      preserveRounds rounds { r with
        bundleSaved := saved
        bundleSavedPos := set r.bundleSavedPos id pos
        bundleHasSavedPos := set r.bundleHasSavedPos id true
        bundlePreservedPos := addPos pos 1 }

/-- Save the ids of the positions up to `endPos`. -/
def preserveBundlePositionsUntil (r : BufferRing) (endPos : Nat) : Bool × BufferRing :=
  preserveRounds (endPos - r.bundlePreservedPos) r

/-- `find_start_pos`; it may save positions. -/
def findStartPos (r : BufferRing) (firstId cnt : Nat) : Option Nat × BufferRing :=
  if cnt = 0 ∨ r.count < cnt ∨ r.count ≤ firstId then (none, r)
  else
    let pos := if r.recvBundle && r.bundleHasSavedPos firstId then r.bundleSavedPos firstId
      else r.idPos firstId
    if addPos pos cnt < pos ∨ r.tailPos < addPos pos cnt then (none, r)
    else if r.recvBundle then
      match r.preserveBundlePositionsUntil (addPos pos cnt) with
      | (false, r) => (none, r)
      | (true, r) => if r.ringIdAt pos ≠ firstId then (none, r) else (some pos, r)
    else if pos < r.recycleHeadPos then (none, r)
    else if (List.range cnt).any fun i => r.observedPos (addPos pos i % r.count) then (none, r)
    else if r.ringIdAt pos ≠ firstId then (none, r)
    else (some pos, r)

/-- The loop of `consume_at` over decoded positions; each round clears a flag. -/
def advanceHead : Nat → BufferRing → BufferRing
  | 0, r => r
  | rounds + 1, r =>
    if r.headPos ≠ r.tailPos ∧ r.decodedPos (r.headPos % r.count) = true then
      advanceHead rounds { r with
        decodedPos := set r.decodedPos (r.headPos % r.count) false
        headPos := addPos r.headPos 1 }
    else r

/-- Mark some positions as consumed. -/
def consumeAt (r : BufferRing) (startPos cnt : Nat) : BufferRing :=
  let r := (List.range cnt).foldl (fun r i =>
    let idx := addPos startPos i % r.count
    { r with
      decodedPos := set r.decodedPos idx true
      observedPos := if r.recvBundle then r.observedPos else set r.observedPos idx true }) r
  advanceHead r.count r

/-- Why a completion is refused. -/
inductive RecvDecodeError where
  | badCqe
  | badBounds
  | badWindow
  deriving DecidableEq, Repr

/-- The buffers of a completion. -/
structure RecvSlices where
  startPos : Nat
  count : Nat
  total : Nat
  deriving DecidableEq, Repr

/-- `try_buffer_slices_from_cqe`; `firstId` is the id in the flags, if they have one. -/
def tryBufferSlicesFromCqe (r : BufferRing) (res : Int) (firstId : Option Nat) (bundle : Bool) :
    Except RecvDecodeError RecvSlices × BufferRing :=
  match firstId with
  | none => (.error .badCqe, r)
  | some firstId =>
    if res ≤ 0 then (.error .badCqe, r)
    else
      let total := res.toNat
      let cnt := if bundle then (total + r.bufSize - 1) / r.bufSize % 2 ^ 32 else 1
      if cnt = 0 ∨ r.count < cnt then (.error .badBounds, r)
      else
        match r.findStartPos firstId cnt with
        | (none, r) => (.error .badWindow, r)
        | (some start, r) =>
          (.ok { startPos := start, count := cnt, total := total }, r.consumeAt start cnt)

/-- What an iteration over the slices yields: the ids and the sizes of the buffers. -/
def slices (r : BufferRing) (s : RecvSlices) : List (Nat × Nat) :=
  (List.range s.count).map fun idx =>
    (r.ringIdAt (addPos s.startPos idx),
      min (if idx + 1 < s.count then r.bufSize else s.total - idx * r.bufSize) r.bufSize)

end BufferRing

/-! ## The ring, the kernel and the application

The kernel takes published buffers in their order, fills them and completes. The application
decodes completions in any order, which gives it their buffers, and recycles ranges of buffers
that it holds. -/

open BufferRing

/-- A completion: the buffers that the kernel has filled and the number of bytes. -/
structure Completion where
  /-- The first buffer, in the order of publication. -/
  first : Nat
  ids : List Nat
  total : Nat
  deriving DecidableEq, Repr

/-- A buffer in the hands of the application. -/
structure Lease where
  pos : Nat
  id : Nat
  deriving DecidableEq, Repr

/-- The ring, the kernel and the application. -/
structure RingSystem where
  ring : BufferRing
  /-- The number of published buffers that the kernel has taken. -/
  taken : Nat := 0
  pending : List Completion := []
  held : List Lease := []

/-- What may happen. -/
inductive RingMove where
  /-- the kernel fills the next buffers -/
  | complete (cnt total : Nat)
  /-- the application decodes a completion -/
  | decode (index : Nat)
  /-- the application recycles a range of buffers -/
  | recycle (startPos cnt : Nat)
  deriving DecidableEq, Repr

namespace RingSystem

/-- A new ring. -/
def create (bufSize count : Nat) (recvBundle : Bool) (start : Nat) : RingSystem :=
  { ring := BufferRing.create bufSize count recvBundle start }

/-- The result of decoding a completion. -/
def decoded (s : RingSystem) (c : Completion) :
    Except RecvDecodeError RecvSlices × BufferRing :=
  s.ring.tryBufferSlicesFromCqe c.total c.ids.head? s.ring.recvBundle

/-- The positions of a range. -/
def rangePositions (startPos cnt : Nat) : List Nat :=
  (List.range cnt).map (addPos startPos)

/-- The system after one move. -/
def step (s : RingSystem) : RingMove → RingSystem
  | .complete cnt total =>
    { s with
      taken := s.taken + cnt
      pending := s.pending ++ [{ first := s.taken, ids := (s.ring.published.drop s.taken).take cnt,
                                 total := total }] }
  | .decode index =>
    match s.pending[index]? with
    | none => s
    | some c =>
      match s.decoded c with
      | (.ok slices, ring) =>
        { s with
          ring := ring
          pending := s.pending.eraseIdx index
          held := s.held ++ (rangePositions slices.startPos slices.count).map fun pos =>
            { pos := pos, id := ring.ringIdAt pos } }
      | (.error _, ring) => { s with ring := ring }
  | .recycle startPos cnt =>
    { s with
      ring := s.ring.recycleRange startPos cnt
      held := s.held.filter fun lease => !(rangePositions startPos cnt).contains lease.pos }

/-- The kernel fills buffers that are published, each but the last of them wholly; without
bundles it fills one. The application decodes what is pending and recycles what it holds. -/
def conforms (s : RingSystem) : RingMove → Bool
  | .complete cnt total =>
    0 < cnt && s.taken + cnt ≤ s.ring.published.length && (cnt - 1) * s.ring.bufSize < total &&
      total ≤ cnt * s.ring.bufSize && (s.ring.recvBundle || cnt == 1)
  | .decode index => index < s.pending.length
  | .recycle startPos cnt =>
    (rangePositions startPos cnt).Nodup &&
      (rangePositions startPos cnt).all fun pos => (s.held.map Lease.pos).contains pos

end RingSystem

/-- The buffers that wait for an older position to be recycled. -/
def BufferRing.waiting (r : BufferRing) : List Nat :=
  ((List.range r.count).filter fun i =>
    r.recycleReadyPos (addPos r.recycleHeadPos i % r.count)).map fun i =>
      r.ringIdAt (addPos r.recycleHeadPos i)

namespace RingSystem

/-- Where the buffers are: with the kernel, in completions, in the hands of the application, or
waiting. -/
def places (s : RingSystem) : List Nat :=
  s.ring.published.drop s.taken ++ s.pending.flatMap Completion.ids ++ s.held.map Lease.id ++
    s.ring.waiting

/-- The slices that a completion should give: all buffers full but the last. -/
def expected (bufSize : Nat) (c : Completion) : List (Nat × Nat) :=
  (List.range c.ids.length).map fun i =>
    (c.ids.getD i 0, if i + 1 < c.ids.length then bufSize else c.total - i * bufSize)

/-- What the application sees of a decoded completion: an error, or the ids and the sizes. -/
def outcome (s : RingSystem) (c : Completion) :
    Except RecvDecodeError (List (Nat × Nat)) :=
  match s.decoded c with
  | (.ok slices, ring) => .ok (ring.slices slices)
  | (.error e, _) => .error e

/-- What the application sees in a run. -/
def outcomes : RingSystem → List RingMove → List (Except RecvDecodeError (List (Nat × Nat)))
  | _, [] => []
  | s, .decode index :: moves =>
    (s.pending[index]?.map s.outcome).toList ++ outcomes (s.step (.decode index)) moves
  | s, move :: moves => outcomes (s.step move) moves

/-- Ownership of the buffers is exact. -/
structure Exact (s : RingSystem) : Prop where
  /-- A completion is decoded into the buffers that the kernel has filled. -/
  decodes : ∀ c ∈ s.pending, s.outcome c = .ok (expected s.ring.bufSize c)
  /-- The buffers in the hands of the application are still found. -/
  found : ∀ lease ∈ s.held, s.ring.ringIdAt lease.pos = lease.id
  /-- Every buffer is in one place. -/
  places : s.places.Perm (List.range s.ring.count)
  /-- With nothing to decode or to recycle, the kernel has all buffers. -/
  returned : s.pending = [] → s.held = [] →
    (s.ring.published.drop s.taken).Perm (List.range s.ring.count)

end RingSystem

end Conflux.SocketIo

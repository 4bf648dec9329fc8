import Mathlib.Algebra.Ring.Nat
import Conflux.Core.Interleave
import Conflux.Core.Loop

/-!
# Bounded ring of many producers and consumers

The ring has a power of two of slots. Positions are handed out by a head counter to producers
and by a tail counter to consumers, and each slot has a sequence number: the position itself
while the slot is free for it, one more while it holds the position's item, and the position of
the next round once the item is taken. A call is a sequence of atomic steps: loads, the
compare-and-swap of a counter, the move of the item, and the store of the sequence number.
Counters are unbounded.
-/

namespace Conflux.Work

open Conflux.Core (Turn loop Ends Threads)

/-- One turn of the loop that rounds a capacity up. -/
def roundTurn (capacity cap : Nat) : Turn Nat Nat :=
  if cap < capacity then .again (cap <<< 1) else .done cap

/-- The number of slots for a requested capacity. -/
def roundedCapacity (capacity : Nat) : Nat :=
  if capacity = 0 then 0 else (loop (roundTurn capacity) (capacity + 1) 1).getD 0

/-- A slot. It holds no item before the first push and after its item was moved out. -/
structure Slot (T : Type) where
  seq : Nat
  item : Option T := none
  deriving DecidableEq, Repr

/-- The ring. -/
structure MpmcRing (T : Type) where
  slots : Nat → Slot T
  capacity : Nat
  mask : Nat
  head : Nat := 0
  tail : Nat := 0

namespace MpmcRing

variable {T : Type}

/-- A new ring. -/
def create (capacity : Nat) : MpmcRing T where
  slots i := { seq := i }
  capacity := roundedCapacity capacity
  mask := roundedCapacity capacity - 1

/-- The slot of a position. -/
def index (r : MpmcRing T) (pos : Nat) : Nat := pos &&& r.mask

/-- The sequence number at a position. -/
def seq (r : MpmcRing T) (pos : Nat) : Nat := (r.slots (r.index pos)).seq

/-- The item at a position. -/
def item (r : MpmcRing T) (pos : Nat) : Option T := (r.slots (r.index pos)).item

/-- Store a sequence number. -/
def setSeq (r : MpmcRing T) (pos seq : Nat) : MpmcRing T :=
  { r with slots := Function.update r.slots (r.index pos) { r.slots (r.index pos) with seq } }

/-- Store an item. -/
def setItem (r : MpmcRing T) (pos : Nat) (item : Option T) : MpmcRing T :=
  { r with slots := Function.update r.slots (r.index pos) { r.slots (r.index pos) with item } }

end MpmcRing

/-- Where a thread is: between two calls, with the answer of the last one, or before a step of
a call. -/
inductive Pc (T : Type) where
  | idle
  | pushed (ok : Bool)
  | popped (item : Option (Option T))
  /-- `pos = head_.load()` -/
  | pushLoad (item : T)
  /-- `seq = slot.seq.load()` -/
  | pushSeq (item : T) (pos : Nat)
  /-- `head_.compare_exchange_weak(pos, pos + 1)` -/
  | pushCas (item : T) (pos : Nat)
  /-- `slot.item = std::move(item)` -/
  | pushMove (item : T) (pos : Nat)
  /-- `slot.seq.store(pos + 1)` -/
  | pushStore (pos : Nat)
  /-- `pos = tail_.load()` -/
  | popLoad
  /-- `seq = slot.seq.load()` -/
  | popSeq (pos : Nat)
  /-- `tail_.compare_exchange_weak(pos, pos + 1)` -/
  | popCas (pos : Nat)
  /-- `item = std::move(slot.item)` -/
  | popMove (pos : Nat)
  /-- `slot.seq.store(pos + capacity_)` -/
  | popStore (pos : Nat) (item : Option T)
  deriving DecidableEq, Repr

/-- The thread is between two calls. -/
def Pc.atRest {T : Type} : Pc T → Bool
  | .idle | .pushed _ | .popped _ => true
  | _ => false

/-- The ring with a record of what happened to it. -/
structure RingState (T : Type) where
  ring : MpmcRing T
  /-- The items of the successful compare-and-swaps of the head, in their order. -/
  log : List T := []
  /-- The positions of the successful compare-and-swaps of the tail, in their order. -/
  claims : List Nat := []
  /-- The positions of the pushes that returned true. -/
  done : List Nat := []
  /-- The positions of the pops that returned an item, with the item. -/
  returned : List (Nat × Option T) := []

/-- What a thread may do next. -/
inductive Move (T : Type) where
  | tryPush (item : T)
  | tryPop
  /-- The next step of the call it is in. A weak compare-and-swap may fail spuriously. -/
  | go (spurious : Bool)
  deriving DecidableEq, Repr

namespace RingState

variable {T : Type}

/-- The next step of a call. -/
def go (spurious : Bool) (s : RingState T) : Pc T → RingState T × Pc T
  | .pushLoad item => (s, .pushSeq item s.ring.head)
  | .pushSeq item pos =>
    if s.ring.seq pos = pos then (s, .pushCas item pos)
    else if s.ring.seq pos < pos then (s, .pushed false)
    else (s, .pushLoad item)
  | .pushCas item pos =>
    if s.ring.head = pos ∧ spurious = false then
      ({ s with ring := { s.ring with head := pos + 1 }, log := s.log ++ [item] },
        .pushMove item pos)
    else (s, .pushSeq item s.ring.head)
  | .pushMove item pos =>
    ({ s with ring := s.ring.setItem pos (some item) }, .pushStore pos)
  | .pushStore pos =>
    ({ s with ring := s.ring.setSeq pos (pos + 1), done := s.done ++ [pos] }, .pushed true)
  | .popLoad => (s, .popSeq s.ring.tail)
  | .popSeq pos =>
    if s.ring.seq pos = pos + 1 then (s, .popCas pos)
    else if s.ring.seq pos < pos + 1 then (s, .popped none)
    else (s, .popLoad)
  | .popCas pos =>
    if s.ring.tail = pos ∧ spurious = false then
      ({ s with ring := { s.ring with tail := pos + 1 }, claims := s.claims ++ [pos] },
        .popMove pos)
    else (s, .popSeq s.ring.tail)
  | .popMove pos =>
    ({ s with ring := s.ring.setItem pos none }, .popStore pos (s.ring.item pos))
  | .popStore pos item =>
    ({ s with
        ring := s.ring.setSeq pos (pos + s.ring.capacity)
        returned := s.returned ++ [(pos, item)] },
      .popped (some item))
  | k => (s, k)

/-- What a thread does. A call begins only where the last one has ended. -/
def step (m : Move T) (s : RingState T) (k : Pc T) : RingState T × Pc T :=
  match m with
  | .tryPush item =>
    if k.atRest then (s, if s.ring.capacity = 0 then .pushed false else .pushLoad item)
    else (s, k)
  | .tryPop =>
    if k.atRest then (s, if s.ring.capacity = 0 then .popped none else .popLoad) else (s, k)
  | .go spurious => s.go spurious k

/-- A new ring, with every thread idle. -/
def start (ι T : Type) (capacity : Nat) : Threads ι (RingState T) (Pc T) where
  shared := { ring := .create capacity }
  pc _ := .idle

end RingState

open RingState (step)

/-- The law of a bounded queue, at one moment of an interleaving. -/
structure Fifo {ι T : Type} [DecidableEq ι] (capacity : Nat)
    (s : Threads ι (RingState T) (Pc T)) : Prop where
  /-- The successful compare-and-swaps are numbered by their positions, in their order. -/
  ordered : s.shared.log.length = s.shared.ring.head ∧
    s.shared.claims = List.range s.shared.ring.tail
  /-- A pop returns the item pushed at its position. -/
  returned_eq : ∀ r ∈ s.shared.returned, r.1 < s.shared.log.length ∧ r.2 = s.shared.log[r.1]?
  /-- No position is returned twice. -/
  returned_once : (s.shared.returned.map Prod.fst).Nodup
  /-- The item of a push that returned true was returned by a pop, or was just moved out by
  the pop that is about to return it, or is in its slot. -/
  stays : ∀ pos ∈ s.shared.done, pos ∈ s.shared.returned.map Prod.fst ∨
    (∃ i, s.pc i = .popStore pos s.shared.log[pos]?) ∨
    s.shared.ring.seq pos = pos + 1 ∧ s.shared.ring.item pos = s.shared.log[pos]?
  bounded : s.shared.ring.tail ≤ s.shared.ring.head ∧
    s.shared.ring.head ≤ s.shared.ring.tail + roundedCapacity capacity
  /-- A push that runs alone returns, and fails exactly on a full ring. -/
  push_alone : (∀ i, (s.pc i).atRest) → ∀ i item (spurious : List Bool),
    5 + 2 * spurious.count true ≤ spurious.length → ∃ ok,
      (s.run step ((i, .tryPush item) :: spurious.map fun b => (i, .go b))).pc i = .pushed ok ∧
      (ok = false ↔ s.shared.ring.head = s.shared.ring.tail + roundedCapacity capacity)
  /-- A pop that runs alone returns, and fails exactly on an empty ring. -/
  pop_alone : (∀ i, (s.pc i).atRest) → ∀ i (spurious : List Bool),
    5 + 2 * spurious.count true ≤ spurious.length → ∃ item,
      (s.run step ((i, .tryPop) :: spurious.map fun b => (i, .go b))).pc i = .popped item ∧
      (item = none ↔ s.shared.ring.head = s.shared.ring.tail)

/-- The law holds at every moment of every interleaving of any number of threads. -/
def FifoLaw (T : Type) (capacity : Nat) : Prop :=
  ∀ (ι : Type) [DecidableEq ι] (moves : List (ι × Move T)),
    Fifo capacity ((RingState.start ι T capacity).run step moves)

end Conflux.Work

import Mathlib.Data.List.Induction
import Conflux.Work.MpmcRing.Steps

/-!
# The ring is a bounded queue

With one slot the sequence number that says "holds the item of this position" is also the one
that says "free for the next position", and a second push overwrites the first item.
-/

namespace Conflux.Work

open List MpmcRing RingState

open Conflux.Core (Threads)
open RingState (step)

variable {ι T : Type}

/-! ## Every interleaving -/

theorem ringInv_create {capacity : Nat} (h : 2 ≤ capacity) :
    RingInv (roundedCapacity capacity) ({ ring := .create capacity } : RingState T) := by
  have hround := round_create (T := T) h
  have htwo := hround.two_le
  refine { round := hround, log_length := rfl, claims_eq := rfl, tail_le := Nat.le_refl _,
           slot := ?_, held := ?_, done_seq := ?_, returned_eq := ?_, returned_seq := ?_,
           returned_once := nodup_nil }
  · intro pos
    have hlt : pos % roundedCapacity capacity < roundedCapacity capacity :=
      Nat.mod_lt pos (by omega)
    have hindex := hround.index_eq pos
    refine ⟨pos % roundedCapacity capacity, ?_, ?_, Nat.zero_le _, .inl ⟨hindex, Nat.zero_le _⟩⟩
    · change (create capacity : MpmcRing T).index _ = _
      rw [hround.index_eq, Nat.mod_mod, hindex]
    · change pos % roundedCapacity capacity < 0 + roundedCapacity capacity
      omega
  · intro pos _ hpos
    exact absurd hpos (Nat.not_lt_zero pos)
  · intro pos hpos
    cases hpos
  · intro r hr
    cases hr
  · intro pos hpos
    cases hpos

section

variable {capacity : Nat}

/-- What holds of every state of every interleaving. -/
structure RunInv (cap : Nat) (s : Threads ι (RingState T) (Pc T)) : Prop where
  holds : s.Holds (RingInv cap) (fun s k => k.Knows s) Pc.Apart
  pushing : ∀ pos, pos < s.shared.ring.head ∧ s.shared.ring.seq pos = pos →
    ∃ i, (s.pc i).pushing = some pos
  popping : ∀ pos, pos < s.shared.ring.tail ∧ pos ∉ s.shared.returned.map Prod.fst →
    ∃ i, (s.pc i).popping = some pos

theorem runInv [DecidableEq ι] (h : 2 ≤ capacity) (moves : List (ι × Move T)) :
    RunInv (roundedCapacity capacity) ((start ι T capacity).run step moves) := by
  have hstart : (start ι T capacity).Holds (RingInv (roundedCapacity capacity))
      (fun s k => k.Knows s) Pc.Apart :=
    ⟨ringInv_create h, fun _ => trivial, fun _ _ _ => Pc.apart_of_none rfl rfl⟩
  refine ⟨(modular_step _).run hstart moves, ?_, ?_⟩
  · exact (answered_push _).run (modular_step _) hstart
      (fun pos hpos => absurd hpos.1 (Nat.not_lt_zero pos)) moves
  · exact (answered_pop _).run (modular_step _) hstart
      (fun pos hpos => absurd hpos.1 (Nat.not_lt_zero pos)) moves

end

namespace RunInv

variable {cap : Nat} {s : Threads ι (RingState T) (Pc T)}

section

variable (h : RunInv cap s)
include h

/-- A slot's position is at most the tail, up to a round. -/
theorem head_le : s.shared.ring.head ≤ s.shared.ring.tail + cap := by
  have hinv := h.holds.shared
  obtain ⟨p, hp⟩ := hinv.slot s.shared.ring.tail
  have hle : p ≤ s.shared.ring.tail := by
    by_contra hlt
    have heq := hinv.round.eq_of_index hp.index_eq (by omega) hp.lt_tail
    omega
  have hhead := hp.head_le
  omega

theorem stays {pos : Nat} (hdone : pos ∈ s.shared.done) :
    pos ∈ s.shared.returned.map Prod.fst ∨
      (∃ i, s.pc i = .popStore pos s.shared.log[pos]?) ∨
      s.shared.ring.seq pos = pos + 1 ∧ s.shared.ring.item pos = s.shared.log[pos]? := by
  have hinv := h.holds.shared
  obtain ⟨hlt, hseq⟩ := hinv.done_seq pos hdone
  by_cases htail : s.shared.ring.tail ≤ pos
  · obtain ⟨p, hp⟩ := hinv.slot pos
    obtain ⟨hheld, -⟩ := hp.seq_tail hinv.round htail hseq
    exact .inr (.inr ⟨hheld, hinv.held pos htail hlt hheld⟩)
  by_cases hreturned : pos ∈ s.shared.returned.map Prod.fst
  · exact .inl hreturned
  obtain ⟨i, hi⟩ := h.popping pos ⟨Nat.lt_of_not_le htail, hreturned⟩
  have hknows := h.holds.each i
  cases hpc : s.pc i with
  | popMove p =>
    rw [hpc] at hi hknows
    cases hi
    exact .inr (.inr hknows.2)
  | popStore p item =>
    rw [hpc] at hi hknows
    cases hi
    exact .inr (.inl ⟨i, by rw [hpc, hknows.2.2]⟩)
  | _ =>
    rw [hpc] at hi
    cases hi

/-! ## A call that runs alone -/

section

variable (hrest : ∀ i, (s.pc i).atRest)
include hrest

/-- With no call in progress, a slot waits for an unclaimed position, or holds an unclaimed item. -/
theorem slot_at_rest (pos : Nat) :
    ∃ p, SlotAt cap s.shared.ring pos p ∧
      (s.shared.ring.seq pos = p ∧ s.shared.ring.head ≤ p ∨
        s.shared.ring.seq pos = p + 1 ∧ s.shared.ring.tail ≤ p ∧ p < s.shared.ring.head) := by
  have hinv := h.holds.shared
  have htwo := hinv.round.two_le
  obtain ⟨p, hp⟩ := hinv.slot pos
  have hseq := s.shared.ring.seq_congr hp.index_eq
  refine ⟨p, hp, ?_⟩
  rcases hp.phase with ⟨hwait, hle⟩ | ⟨hheld, hlt⟩
  · refine .inl ⟨hwait, ?_⟩
    by_contra hless
    obtain ⟨i, hi⟩ := h.pushing p ⟨by omega, by omega⟩
    rw [(Pc.not_claiming (hrest i)).1] at hi
    cases hi
  refine .inr ⟨hheld, ?_, hlt⟩
  by_contra hless
  by_cases hreturned : p ∈ s.shared.returned.map Prod.fst
  · have hnext := hinv.returned_seq p hreturned
    omega
  obtain ⟨i, hi⟩ := h.popping p ⟨by omega, hreturned⟩
  rw [(Pc.not_claiming (hrest i)).2] at hi
  cases hi

/-- With no call in progress, the head's slot waits for the head, or the ring is full and it still
holds the item of the round before. -/
theorem seq_head :
    s.shared.ring.seq s.shared.ring.head = s.shared.ring.head ∧
        s.shared.ring.head ≠ s.shared.ring.tail + cap ∨
      s.shared.ring.seq s.shared.ring.head < s.shared.ring.head ∧
        s.shared.ring.head = s.shared.ring.tail + cap := by
  have hround := h.holds.shared.round
  have htwo := hround.two_le
  have hbound := h.head_le
  have htail := h.holds.shared.tail_le
  obtain ⟨p, hp, hphase⟩ := h.slot_at_rest hrest s.shared.ring.head
  have hlt := hp.lt_tail
  have hhead := hp.head_le
  rcases hphase with ⟨hwait, hge⟩ | ⟨hheld, hge, hless⟩
  · have heq := hround.eq_of_index hp.index_eq hge (by omega)
    exact .inl ⟨by omega, by omega⟩
  have heq : s.shared.ring.head = p + cap := by
    by_contra hne
    have heq := hround.eq_of_index hp.index_eq.symm (Nat.le_of_lt hless) (by omega)
    omega
  exact .inr ⟨by omega, by omega⟩

/-- Where no call is in progress, the tail's slot holds the oldest item, or the ring is
empty. -/
theorem seq_tail :
    s.shared.ring.seq s.shared.ring.tail = s.shared.ring.tail + 1 ∧
        s.shared.ring.head ≠ s.shared.ring.tail ∨
      s.shared.ring.seq s.shared.ring.tail < s.shared.ring.tail + 1 ∧
        s.shared.ring.head = s.shared.ring.tail := by
  have htail := h.holds.shared.tail_le
  obtain ⟨p, hp, hphase⟩ := h.slot_at_rest hrest s.shared.ring.tail
  have heq : p = s.shared.ring.tail :=
    h.holds.shared.round.eq_of_index hp.index_eq (by omega) hp.lt_tail
  rcases hphase with ⟨hwait, hge⟩ | ⟨hheld, hge, hless⟩
  · exact .inr ⟨by omega, by omega⟩
  · exact .inl ⟨by omega, by omega⟩

end

end

end RunInv

/-- A thread's own steps, with the spurious failures of its compare-and-swaps. -/
def alone (s : RingState T) (k : Pc T) (spurious : List Bool) : RingState T × Pc T :=
  Threads.alone step s k (spurious.map .go)

theorem alone_cons (s : RingState T) (k : Pc T) (b : Bool) (spurious : List Bool) :
    alone s k (b :: spurious) = alone (s.go b k).1 (s.go b k).2 spurious := rfl

theorem alone_atRest (s : RingState T) {k : Pc T} (h : k.atRest = true) (spurious : List Bool) :
    alone s k spurious = (s, k) := by
  induction spurious with
  | nil => rfl
  | cons b spurious ih =>
    have hgo : s.go b k = (s, k) := by
      cases k with
      | idle | pushed ok | popped item => rfl
      | _ => cases h
    rw [alone_cons, hgo, ih]

variable {spurious : List Bool}

theorem exists_two {n : Nat} (h : n + 2 ≤ spurious.length) :
    ∃ b b' rest, spurious = b :: b' :: rest ∧ n ≤ rest.length := by
  match spurious with
  | [] => exact absurd h (Nat.not_succ_le_zero _)
  | [b] => exact absurd (Nat.le_of_succ_le_succ h) (Nat.not_succ_le_zero _)
  | b :: b' :: rest =>
    exact ⟨b, b', rest, rfl, Nat.le_of_succ_le_succ (Nat.le_of_succ_le_succ h)⟩

/-- A call before its compare-and-swap finds enough steps for it and the rest, however often it
fails spuriously. -/
theorem alone_retry {s : RingState T} {k c : Pc T} {P : Pc T → Prop}
    (hseq : ∀ b, s.go b k = (s, c)) (hfail : s.go true c = (s, k))
    (hdone : ∀ rest : List Bool, 2 ≤ rest.length → P (alone s c (false :: rest)).2)
    (spurious : List Bool) (hlength : 4 + 2 * spurious.count true ≤ spurious.length) :
    P (alone s k spurious).2 := by
  induction spurious using List.twoStepInduction with
  | nil => exact absurd hlength (by simp)
  | singleton b =>
    rw [length_singleton] at hlength
    omega
  | cons_cons b b' rest ih _ =>
    rw [alone_cons, hseq]
    rw [length_cons, length_cons, count_cons, count_cons] at hlength
    cases b' with
    | false => exact hdone rest (by omega)
    | true =>
      rw [alone_cons, hfail]
      refine ih ?_
      rw [if_pos (show (true == true) = true from rfl)] at hlength
      omega

/-- A push that finds the head's slot free takes it. -/
theorem alone_pushSeq {s : RingState T} (hseq : s.ring.seq s.ring.head = s.ring.head) (item : T)
    (spurious : List Bool) (hlength : 4 + 2 * spurious.count true ≤ spurious.length) :
    (alone s (.pushSeq item s.ring.head) spurious).2 = .pushed true := by
  refine alone_retry (c := .pushCas item s.ring.head) (P := (· = .pushed true)) ?_ ?_ ?_ spurious
    hlength
  · intro b
    rw [go, if_pos hseq]
  · rw [go, if_neg (by simp)]
  intro rest hrest
  obtain ⟨b, b', rest, rfl, -⟩ := exists_two (n := 0) hrest
  rw [alone_cons, go, if_pos ⟨rfl, rfl⟩, alone_cons, alone_cons]
  exact congrArg Prod.snd (alone_atRest _ rfl rest)

/-- A pop that finds an item at the tail takes it. -/
theorem alone_popSeq {s : RingState T} (hseq : s.ring.seq s.ring.tail = s.ring.tail + 1)
    (spurious : List Bool) (hlength : 4 + 2 * spurious.count true ≤ spurious.length) :
    ∃ item, (alone s (.popSeq s.ring.tail) spurious).2 = .popped (some item) := by
  refine alone_retry (c := .popCas s.ring.tail) (P := fun k => ∃ item, k = .popped (some item))
    ?_ ?_ ?_ spurious hlength
  · intro b
    rw [go, if_pos hseq]
  · rw [go, if_neg (by simp)]
  intro rest hrest
  obtain ⟨b, b', rest, rfl, -⟩ := exists_two (n := 0) hrest
  rw [alone_cons, go, if_pos ⟨rfl, rfl⟩, alone_cons, alone_cons]
  exact ⟨_, congrArg Prod.snd (alone_atRest _ rfl rest)⟩

theorem exists_cons_of_budget (h : 5 + 2 * spurious.count true ≤ spurious.length) :
    ∃ b rest, spurious = b :: rest ∧ 4 + 2 * rest.count true ≤ rest.length := by
  cases spurious with
  | nil => exact absurd h (by simp)
  | cons b rest =>
    refine ⟨b, rest, rfl, ?_⟩
    rw [length_cons, count_cons] at h
    omega

section

variable [DecidableEq ι] {capacity : Nat} {s : Threads ι (RingState T) (Pc T)}

/-- Where a thread ends that makes a call alone. -/
theorem run_call_pc (s : Threads ι (RingState T) (Pc T)) (i : ι) (m : Move T)
    (spurious : List Bool) :
    (s.run step ((i, m) :: spurious.map fun b => (i, .go b))).pc i =
      (alone (step m s.shared (s.pc i)).1 (step m s.shared (s.pc i)).2 spurious).2 := by
  have hmoves : (i, m) :: spurious.map (fun b => (i, Move.go b)) =
      (m :: spurious.map Move.go).map fun a => (i, a) := by
    simp
  rw [hmoves, Threads.run_alone_pc]
  rfl

variable {cap : Nat}

theorem RunInv.push_alone (h : RunInv cap s) (hrest : ∀ i, (s.pc i).atRest) (i : ι) (item : T)
    (spurious : List Bool) (hlength : 5 + 2 * spurious.count true ≤ spurious.length) : ∃ ok,
      (s.run step ((i, .tryPush item) :: spurious.map fun b => (i, .go b))).pc i = .pushed ok ∧
      (ok = false ↔ s.shared.ring.head = s.shared.ring.tail + cap) := by
  obtain ⟨b, rest, rfl, hbudget⟩ := exists_cons_of_budget hlength
  rw [run_call_pc, step, if_pos (hrest i), if_neg h.holds.shared.round.capacity_ne, alone_cons]
  change ∃ ok, (alone s.shared (.pushSeq item s.shared.ring.head) rest).2 = _ ∧ _
  rcases h.seq_head hrest with ⟨hseq, hfull⟩ | ⟨hseq, hfull⟩
  · exact ⟨true, alone_pushSeq hseq item rest hbudget, by simp [hfull]⟩
  refine ⟨false, ?_, by simp [hfull]⟩
  have hfour : 2 + 2 ≤ rest.length := by omega
  obtain ⟨b', b'', rest, rfl, -⟩ := exists_two hfour
  rw [alone_cons, go, if_neg (by omega), if_pos hseq]
  exact congrArg Prod.snd (alone_atRest _ rfl _)

theorem RunInv.pop_alone (h : RunInv cap s) (hrest : ∀ i, (s.pc i).atRest) (i : ι)
    (spurious : List Bool) (hlength : 5 + 2 * spurious.count true ≤ spurious.length) : ∃ item,
      (s.run step ((i, .tryPop) :: spurious.map fun b => (i, .go b))).pc i = .popped item ∧
      (item = none ↔ s.shared.ring.head = s.shared.ring.tail) := by
  obtain ⟨b, rest, rfl, hbudget⟩ := exists_cons_of_budget hlength
  rw [run_call_pc, step, if_pos (hrest i), if_neg h.holds.shared.round.capacity_ne, alone_cons]
  change ∃ item, (alone s.shared (.popSeq s.shared.ring.tail) rest).2 = _ ∧ _
  rcases h.seq_tail hrest with ⟨hseq, hempty⟩ | ⟨hseq, hempty⟩
  · obtain ⟨item, hitem⟩ := alone_popSeq hseq rest hbudget
    exact ⟨some item, hitem, by simp [hempty]⟩
  refine ⟨none, ?_, by simp [hempty]⟩
  have hfour : 2 + 2 ≤ rest.length := by omega
  obtain ⟨b', b'', rest, rfl, -⟩ := exists_two hfour
  rw [alone_cons, go, if_neg (by omega), if_pos hseq]
  exact congrArg Prod.snd (alone_atRest _ rfl _)

/-! ## The law -/

/-- With two slots or more the law holds. -/
theorem fifo_run (h : 2 ≤ capacity) (moves : List (ι × Move T)) :
    Fifo capacity ((start ι T capacity).run step moves) := by
  have hrun := runInv h moves
  have hinv := hrun.holds.shared
  refine { ordered := ⟨hinv.log_length, hinv.claims_eq⟩, returned_eq := ?_,
           returned_once := hinv.returned_once, stays := fun _ => hrun.stays,
           bounded := ⟨hinv.tail_le, hrun.head_le⟩, push_alone := hrun.push_alone,
           pop_alone := hrun.pop_alone }
  intro r hr
  obtain ⟨hlt, hitem⟩ := hinv.returned_eq r hr
  have hle := hinv.tail_le
  have hlength := hinv.log_length
  exact ⟨by omega, hitem⟩

end

/-- A thread pushes two items, one after the other. -/
def pushTwice {T : Type} (first second : T) : List (Unit × Move T) :=
  (Move.tryPush first :: List.replicate 5 (.go false) ++
    Move.tryPush second :: List.replicate 5 (.go false)).map fun m => ((), m)

theorem ring_pushTwice (first second : T) :
    ((start Unit T 1).run step (pushTwice first second)).shared.ring.head = 2 ∧
    ((start Unit T 1).run step (pushTwice first second)).shared.ring.tail = 0 := by
  have hcap : roundedCapacity 1 = 1 := by decide
  simp [pushTwice, start, List.replicate, Threads.fire, step, go, Pc.atRest,
    create, hcap, MpmcRing.seq, index, setSeq, setItem]

theorem not_fifoLaw_one [Inhabited T] : ¬ FifoLaw T 1 := by
  intro hlaw
  have hbounded := (hlaw Unit (pushTwice default default)).bounded.2
  rw [(ring_pushTwice default default).1, (ring_pushTwice default default).2] at hbounded
  exact absurd hbounded (by decide)

/-- For every requested capacity of at least one the law of a bounded queue holds in every
interleaving exactly if it is more than one. -/
theorem fifoLaw_iff (T : Type) [Inhabited T] (capacity : Nat) (hcapacity : 1 ≤ capacity) :
    FifoLaw T capacity ↔ 2 ≤ capacity := by
  constructor
  · intro hlaw
    by_contra hone
    have heq : capacity = 1 := by omega
    exact not_fifoLaw_one (heq ▸ hlaw)
  · intro htwo ι _ moves
    exact fifo_run htwo moves

/-- The law holds if three slots are asked for. -/
theorem fifoLaw_three : 1 ≤ 3 ∧ FifoLaw Nat 3 :=
  ⟨by decide, (fifoLaw_iff Nat 3 (by decide)).mpr (by decide)⟩

/-- With capacity one both pushes return true, and the second item replaces the first in its slot:
the first is lost. -/
theorem run_pushTwice :
    ((RingState.start Unit Nat 1).run step (pushTwice 10 20)).shared.done = [0, 1] ∧
    ((RingState.start Unit Nat 1).run step (pushTwice 10 20)).shared.returned = [] ∧
    ((RingState.start Unit Nat 1).run step (pushTwice 10 20)).shared.ring.slots 0 =
      { seq := 2, item := some 20 } := by
  decide

/-! ## The shards of a pool -/

/-- The number of rings a pool spreads its injected jobs over. -/
def injectQueueShards (threads maxInjectQueue shards : Nat) : Nat :=
  if shards = 0 then
    if maxInjectQueue = 0 then 1 else max 1 (min threads maxInjectQueue)
  else shards

/-- The capacity a pool requests for each of these rings. -/
def injectCapacityPerShard (threads maxInjectQueue shards : Nat) : Nat :=
  if maxInjectQueue = 0 then 0
  else
    (maxInjectQueue + injectQueueShards threads maxInjectQueue shards - 1) /
      injectQueueShards threads maxInjectQueue shards

/-- The rings of a pool are queues exactly if there are fewer of them than jobs that may wait. -/
theorem fifoLaw_inject_iff [Inhabited T] (threads shards : Nat) {maxInjectQueue : Nat}
    (hpos : 0 < maxInjectQueue) :
    FifoLaw T (injectCapacityPerShard threads maxInjectQueue shards) ↔
      injectQueueShards threads maxInjectQueue shards < maxInjectQueue := by
  have hshards : 0 < injectQueueShards threads maxInjectQueue shards := by
    unfold injectQueueShards
    split_ifs <;> omega
  rw [injectCapacityPerShard, if_neg (by omega)]
  generalize injectQueueShards threads maxInjectQueue shards = n at *
  constructor
  · intro hlaw
    by_contra hle
    have hone : (maxInjectQueue + n - 1) / n = 1 := Nat.div_eq_of_lt_le (by omega) (by omega)
    exact not_fifoLaw_one (hone ▸ hlaw)
  · intro hlt ι _ moves
    exact fifo_run ((Nat.le_div_iff_mul_le hshards).mpr (by omega)) moves

/-- With four threads and two jobs that may wait they are not. -/
theorem fifoLaw_inject_four : ¬ FifoLaw Nat (injectCapacityPerShard 4 2 0) :=
  fun h => absurd ((fifoLaw_inject_iff 4 0 (by decide)).mp h) (by decide)

end Conflux.Work

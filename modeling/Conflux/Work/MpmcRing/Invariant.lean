import Mathlib.Data.Nat.ModEq
import Conflux.Work.MpmcRing.Model

/-!
# What every interleaving of ring calls keeps

With two slots or more, the sequence number of a slot tells its position and whether the slot
is waiting for the position's item or holds it. Sequence numbers only grow, so a thread that has
read one knows a lower bound, and that is all it needs when its compare-and-swap succeeds.
-/

namespace Conflux.Work

open Function

open Conflux.Core (Turn loop Ends Threads Modular Answered)

/-! ## Capacities -/

variable {capacity : Nat} {T : Type}

theorem roundedCapacity_ends (h : capacity ≠ 0) :
    Ends (roundTurn capacity) 1 (roundedCapacity capacity) := by
  have hstep : ∀ cap cap', 0 < cap → roundTurn capacity cap = .again cap' →
      0 < cap' ∧ capacity - cap' < capacity - cap := by
    intro cap cap' hpos hturn
    rw [roundTurn] at hturn
    split at hturn
    · rename_i hlt
      cases hturn
      rw [Nat.shiftLeft_eq, Nat.pow_one]
      omega
    · cases hturn
  obtain ⟨cap, hloop⟩ := Core.exists_loop_eq hstep (one_pos)
    (show capacity - 1 < capacity + 1 by omega)
  rw [roundedCapacity, if_neg h, hloop]
  exact Core.ends_of_loop hloop

/-- The number of slots is a power of two and at least the requested capacity. -/
theorem roundedCapacity_spec (h : capacity ≠ 0) :
    (∃ k, roundedCapacity capacity = 2 ^ k) ∧ capacity ≤ roundedCapacity capacity := by
  have hstep : ∀ cap cap', (∃ k, cap = 2 ^ k) → roundTurn capacity cap = .again cap' →
      ∃ k, cap' = 2 ^ k := by
    rintro cap cap' ⟨k, rfl⟩ hturn
    rw [roundTurn] at hturn
    split at hturn
    · cases hturn
      exact ⟨k + 1, by rw [Nat.shiftLeft_eq, Nat.pow_one, Nat.pow_succ]⟩
    · cases hturn
  obtain ⟨cap, hpow, hdone⟩ := (roundedCapacity_ends h).induct hstep ⟨0, rfl⟩
  rw [roundTurn] at hdone
  split at hdone
  · cases hdone
  rename_i hge
  cases hdone
  exact ⟨hpow, Nat.le_of_not_lt hge⟩

/-! ## Slots -/

namespace MpmcRing

variable {T : Type}

/-- The ring has the given number of slots, at least two, and positions go round them. -/
structure Round (cap : Nat) (r : MpmcRing T) : Prop where
  two_le : 2 ≤ cap
  capacity_eq : r.capacity = cap
  index_eq : ∀ pos, r.index pos = pos % cap

theorem round_create {capacity : Nat} (h : 2 ≤ capacity) :
    Round (roundedCapacity capacity) (create capacity : MpmcRing T) := by
  obtain ⟨⟨k, hpow⟩, hle⟩ := roundedCapacity_spec (show capacity ≠ 0 by omega)
  refine ⟨by omega, rfl, ?_⟩
  intro pos
  change pos &&& (roundedCapacity capacity - 1) = pos % roundedCapacity capacity
  rw [hpow]
  exact Nat.and_two_pow_sub_one_eq_mod pos k

section

variable {cap : Nat} {r : MpmcRing T}

section

variable (h : Round cap r)
include h

theorem Round.capacity_ne : r.capacity ≠ 0 := by
  have htwo := h.two_le
  have heq := h.capacity_eq
  omega

/-- Two positions of one slot within a round are the same. -/
theorem Round.eq_of_index {p q : Nat} (hindex : r.index p = r.index q)
    (hle : q ≤ p) (hlt : p < q + cap) : p = q := by
  rw [h.index_eq, h.index_eq] at hindex
  have hdvd : cap ∣ p - q := (Nat.modEq_iff_dvd' hle).mp hindex.symm
  have hzero : p - q = 0 := Nat.eq_zero_of_dvd_of_lt hdvd (by omega)
  omega

theorem Round.index_succ_ne (pos : Nat) : r.index (pos + 1) ≠ r.index pos := by
  intro hindex
  have htwo := h.two_le
  have heq := h.eq_of_index hindex (Nat.le_succ pos) (by omega)
  omega

theorem Round.index_add (pos : Nat) : r.index (pos + cap) = r.index pos := by
  rw [h.index_eq, h.index_eq, Nat.add_mod_right]

end

end

section

variable (r : MpmcRing T)
include r

theorem seq_congr {p q : Nat} (h : r.index p = r.index q) : r.seq p = r.seq q := by
  rw [seq, seq, h]

theorem seq_setSeq (pos v q : Nat) :
    (r.setSeq pos v).seq q = if r.index q = r.index pos then v else r.seq q := by
  change (update r.slots (r.index pos) _ (r.index q)).seq = _
  rw [update_apply]
  split <;> rfl

/-- Sequence numbers grow with one of them. -/
theorem seq_le_setSeq {pos v : Nat} (h : r.seq pos ≤ v) (q : Nat) :
    r.seq q ≤ (r.setSeq pos v).seq q := by
  rw [seq_setSeq]
  split
  · rename_i hindex
    rw [r.seq_congr hindex]
    exact h
  · exact le_refl _

@[simp] theorem item_setSeq (pos v q : Nat) :
    (r.setSeq pos v).item q = r.item q := by
  change (update r.slots (r.index pos) _ (r.index q)).item = _
  rw [update_apply]
  split
  · rename_i h
    rw [item, h]
  · rfl

@[simp] theorem seq_setItem (pos : Nat) (x : Option T) (q : Nat) :
    (r.setItem pos x).seq q = r.seq q := by
  change (update r.slots (r.index pos) _ (r.index q)).seq = _
  rw [update_apply]
  split
  · rename_i h
    rw [seq, h]
  · rfl

theorem item_setItem (pos : Nat) (x : Option T) (q : Nat) :
    (r.setItem pos x).item q = if r.index q = r.index pos then x else r.item q := by
  change (update r.slots (r.index pos) _ (r.index q)).item = _
  rw [update_apply]
  split <;> rfl

end

variable {cap : Nat} {r : MpmcRing T}

theorem Round.setSeq (h : Round cap r) (pos v : Nat) :
    Round cap (r.setSeq pos v) := ⟨h.two_le, h.capacity_eq, h.index_eq⟩

theorem Round.setItem (h : Round cap r) (pos : Nat) (x : Option T) :
    Round cap (r.setItem pos x) := ⟨h.two_le, h.capacity_eq, h.index_eq⟩

/-- A slot is at a position: it waits for the position's item, or holds it or is being emptied
of it. -/
structure SlotAt (cap : Nat) (r : MpmcRing T) (pos p : Nat) : Prop where
  index_eq : r.index p = r.index pos
  lt_tail : p < r.tail + cap
  head_le : r.head ≤ p + cap
  phase : r.seq pos = p ∧ r.tail ≤ p ∨ r.seq pos = p + 1 ∧ p < r.head

section

variable {cap : Nat} {r : MpmcRing T} {pos p : Nat}

/-- A free slot seen at the head is at the head. -/
theorem SlotAt.seq_head (hround : Round cap r) (h : SlotAt cap r pos p)
    (hle : r.tail ≤ r.head) (hhead : r.head = pos) (hseq : pos ≤ r.seq pos) :
    r.seq pos = pos := by
  have hlt := h.lt_tail
  rcases h.phase with ⟨hwait, _⟩ | ⟨hheld, hp⟩
  · have heq := hround.eq_of_index h.index_eq (by omega) (by omega)
    omega
  · have hsucc : p + 1 = pos := by omega
    exact absurd (hsucc ▸ h.index_eq.symm) (hround.index_succ_ne p)

/-- A held slot seen at or after the tail holds the item of its position. -/
theorem SlotAt.seq_tail (hround : Round cap r) (h : SlotAt cap r pos p)
    (htail : r.tail ≤ pos) (hseq : pos + 1 ≤ r.seq pos) :
    r.seq pos = pos + 1 ∧ pos < r.head := by
  have hlt := h.lt_tail
  rcases h.phase with ⟨hwait, _⟩ | ⟨hheld, hp⟩
  all_goals
    have heq := hround.eq_of_index h.index_eq (by omega) (by omega)
    omega

/-- A slot whose number is one more than the position is at the position. -/
theorem SlotAt.eq_of_held (hround : Round cap r) (h : SlotAt cap r pos p)
    (hseq : r.seq pos = pos + 1) : p = pos := by
  rcases h.phase with ⟨hwait, _⟩ | ⟨hheld, _⟩
  · have hsucc : p = pos + 1 := by omega
    exact absurd (hsucc ▸ h.index_eq) (hround.index_succ_ne pos)
  · omega

end

end MpmcRing

/-! ## The invariant -/

/-- What holds of the ring and its record. -/
structure RingInv {T : Type} (cap : Nat) (s : RingState T) : Prop where
  round : s.ring.Round cap
  log_length : s.log.length = s.ring.head
  claims_eq : s.claims = List.range s.ring.tail
  tail_le : s.ring.tail ≤ s.ring.head
  slot : ∀ pos, ∃ p, s.ring.SlotAt cap pos p
  held : ∀ pos, s.ring.tail ≤ pos → pos < s.ring.head → s.ring.seq pos = pos + 1 →
    s.ring.item pos = s.log[pos]?
  done_seq : ∀ pos ∈ s.done, pos < s.ring.head ∧ pos + 1 ≤ s.ring.seq pos
  returned_eq : ∀ r ∈ s.returned, r.1 < s.ring.tail ∧ r.2 = s.log[r.1]?
  returned_seq : ∀ pos ∈ s.returned.map Prod.fst, pos + cap ≤ s.ring.seq pos
  returned_once : (s.returned.map Prod.fst).Nodup

namespace Pc

variable {T : Type}

/-- The position a thread has claimed to push at. -/
def pushing : Pc T → Option Nat
  | .pushMove _ pos | .pushStore pos => some pos
  | _ => none

/-- The position a thread has claimed to pop at. -/
def popping : Pc T → Option Nat
  | .popMove pos | .popStore pos _ => some pos
  | _ => none

/-- What a thread knows of the ring. -/
def Knows (s : RingState T) : Pc T → Prop
  | .pushCas _ pos => pos ≤ s.ring.seq pos
  | .pushMove item pos =>
    pos < s.ring.head ∧ s.ring.seq pos = pos ∧ s.log[pos]? = some item
  | .pushStore pos => pos < s.ring.head ∧ s.ring.seq pos = pos ∧ s.ring.item pos = s.log[pos]?
  | .popCas pos => pos + 1 ≤ s.ring.seq pos
  | .popMove pos =>
    pos < s.ring.tail ∧ s.ring.seq pos = pos + 1 ∧ s.ring.item pos = s.log[pos]?
  | .popStore pos item => pos < s.ring.tail ∧ s.ring.seq pos = pos + 1 ∧ item = s.log[pos]?
  | _ => True

/-- Two threads have claimed different positions. -/
def Apart (k k' : Pc T) : Prop :=
  (∀ pos, k.pushing = some pos → k'.pushing ≠ some pos) ∧
    ∀ pos, k.popping = some pos → k'.popping ≠ some pos

variable {k' : Pc T} {pos : Nat}

variable {k : Pc T}

theorem Apart.symm (h : Apart k k') : Apart k' k :=
  ⟨fun pos hpos hpos' => h.1 pos hpos' hpos, fun pos hpos hpos' => h.2 pos hpos' hpos⟩

theorem apart_of_none (hpushing : k.pushing = none) (hpopping : k.popping = none) :
    Apart k k' := by
  refine ⟨fun pos hpos => ?_, fun pos hpos => ?_⟩
  · rw [hpushing] at hpos
    cases hpos
  · rw [hpopping] at hpos
    cases hpos

variable {s : RingState T}

theorem Knows.pushing (h : k.Knows s) (hpos : k.pushing = some pos) :
    pos < s.ring.head ∧ s.ring.seq pos = pos := by
  cases k with
  | pushMove item p | pushStore p =>
    cases hpos
    exact ⟨h.1, h.2.1⟩
  | _ => cases hpos

theorem Knows.popping (h : k.Knows s) (hpos : k.popping = some pos) :
    pos < s.ring.tail ∧ s.ring.seq pos = pos + 1 := by
  cases k with
  | popMove p | popStore p item =>
    cases hpos
    exact ⟨h.1, h.2.1⟩
  | _ => cases hpos

/-- A thread knows what it knew after a change that its own slot takes no part in. -/
theorem Knows.mono {s s' : RingState T} (h : k.Knows s)
    (hlog : s.log.length = s.ring.head) (htailLe : s.ring.tail ≤ s.ring.head)
    (hhead : s.ring.head ≤ s'.ring.head) (htail : s.ring.tail ≤ s'.ring.tail)
    (hlog' : ∀ pos, pos < s.log.length → s'.log[pos]? = s.log[pos]?)
    (hseq : ∀ pos, s.ring.seq pos ≤ s'.ring.seq pos)
    (hown : ∀ pos, k.pushing = some pos ∨ k.popping = some pos →
      s'.ring.seq pos = s.ring.seq pos ∧ s'.ring.item pos = s.ring.item pos) : k.Knows s' := by
  cases k with
  | pushCas item pos | popCas pos => exact le_trans h (hseq pos)
  | pushMove item pos | popStore pos item =>
    obtain ⟨hlt, hs, hl⟩ := h
    obtain ⟨hs', -⟩ := hown pos (by simp [Pc.pushing, Pc.popping])
    refine ⟨by omega, hs'.trans hs, ?_⟩
    rw [hlog' pos (by omega)]
    exact hl
  | pushStore pos | popMove pos =>
    obtain ⟨hlt, hs, hi⟩ := h
    obtain ⟨hs', hi'⟩ := hown pos (by simp [Pc.pushing, Pc.popping])
    refine ⟨by omega, hs'.trans hs, ?_⟩
    rw [hlog' pos (by omega), hi']
    exact hi
  | idle | pushed ok | popped item | pushLoad item | pushSeq item pos | popLoad => trivial
  | popSeq pos => trivial

end Pc

/-! ## What a step can do -/

/-- The steps that change the ring, and those that do not. -/
inductive Did {T : Type} (s : RingState T) (k : Pc T) : RingState T × Pc T → Prop
  | stay : Did s k (s, k)
  | quiet {k' : Pc T} (hpushing : k.pushing = none) (hpopping : k.popping = none)
      (hpushing' : k'.pushing = none) (hpopping' : k'.popping = none) (hknows : k'.Knows s) :
      Did s k (s, k')
  | claimPush {item : T} {pos : Nat} (hk : k = .pushCas item pos) (hhead : s.ring.head = pos) :
      Did s k ({ s with ring := { s.ring with head := pos + 1 }, log := s.log ++ [item] },
        .pushMove item pos)
  | fill {item : T} {pos : Nat} (hk : k = .pushMove item pos) :
      Did s k ({ s with ring := s.ring.setItem pos (some item) }, .pushStore pos)
  | publish {pos : Nat} (hk : k = .pushStore pos) :
      Did s k ({ s with ring := s.ring.setSeq pos (pos + 1), done := s.done ++ [pos] },
        .pushed true)
  | claimPop {pos : Nat} (hk : k = .popCas pos) (htail : s.ring.tail = pos) :
      Did s k ({ s with ring := { s.ring with tail := pos + 1 }, claims := s.claims ++ [pos] },
        .popMove pos)
  | empty {pos : Nat} (hk : k = .popMove pos) :
      Did s k ({ s with ring := s.ring.setItem pos none }, .popStore pos (s.ring.item pos))
  | release {pos : Nat} {item : Option T} (hk : k = .popStore pos item) :
      Did s k ({ s with
        ring := s.ring.setSeq pos (pos + s.ring.capacity)
        returned := s.returned ++ [(pos, item)] }, .popped (some item))

theorem RingState.go_did (s : RingState T) (k : Pc T) (spurious : Bool) :
    Did s k (s.go spurious k) := by
  cases k with
  | idle | pushed ok | popped item => exact .stay
  | pushLoad item => exact .quiet rfl rfl rfl rfl trivial
  | pushSeq item pos =>
    rw [go]
    split
    · rename_i hseq
      exact .quiet rfl rfl rfl rfl (le_of_eq hseq.symm)
    · split <;> exact .quiet rfl rfl rfl rfl trivial
  | pushCas item pos =>
    rw [go]
    split
    · rename_i h
      exact .claimPush rfl h.1
    · exact .quiet rfl rfl rfl rfl trivial
  | pushMove item pos => exact .fill rfl
  | pushStore pos => exact .publish rfl
  | popLoad => exact .quiet rfl rfl rfl rfl trivial
  | popSeq pos =>
    rw [go]
    split
    · rename_i hseq
      exact .quiet rfl rfl rfl rfl (le_of_eq hseq.symm)
    · split <;> exact .quiet rfl rfl rfl rfl trivial
  | popCas pos =>
    rw [go]
    split
    · rename_i h
      exact .claimPop rfl h.1
    · exact .quiet rfl rfl rfl rfl trivial
  | popMove pos => exact .empty rfl
  | popStore pos item => exact .release rfl

theorem Pc.not_claiming {k : Pc T} (h : k.atRest = true) : k.pushing = none ∧ k.popping = none := by
  cases k with
  | idle | pushed ok | popped item => exact ⟨rfl, rfl⟩
  | _ => cases h

theorem RingState.step_did (m : Move T) (s : RingState T) (k : Pc T) : Did s k (step m s k) := by
  cases m with
  | go spurious => exact s.go_did k spurious
  | tryPush item | tryPop =>
    rw [step]
    split
    · rename_i hrest
      obtain ⟨hpushing, hpopping⟩ := Pc.not_claiming hrest
      split <;> exact .quiet hpushing hpopping rfl rfl trivial
    · exact .stay

end Conflux.Work

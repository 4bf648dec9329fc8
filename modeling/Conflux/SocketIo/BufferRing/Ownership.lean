import Conflux.SocketIo.BufferRing.Bundle
import Conflux.SocketIo.BufferRing.Single

/-!
# Ownership of the buffers

As long as the positions suffice, both modes keep their invariants, and with them ownership of
the buffers is exact.
-/

namespace Conflux.SocketIo

open Conflux.Core List RingSystem

/-- The invariant of the mode. -/
def Maintained (base : Nat) (s : RingSystem) : Prop :=
  (∃ mark, Bundled base mark s) ∨ ∃ first, Settled base first s

variable {base : Nat} {s : RingSystem}

/-- Ownership is exact if completions are decoded, leases' ids are found and no buffer waits
without reason. -/
theorem Kept.exact (h : Kept base s) (hfits : base + s.ring.published.length < 2 ^ 32)
    (hdecoded : ∀ c ∈ s.pending, ∃ r, DecodedAt base s c r)
    (hids : ∀ p ∈ s.heldPlaces base, s.ring.ringIdAt (base + p) = s.ring.logged p)
    (hplaces : s.places.Perm (List.range s.ring.count))
    (hwaiting : s.pending = [] → s.held = [] → s.ring.waiting = []) : s.Exact := by
  refine ⟨?_, ?_, hplaces, ?_⟩
  · intro c hc
    obtain ⟨r, hr⟩ := hdecoded c hc
    exact hr.outcome_eq h hc hfits
  · intro lease hlease
    obtain ⟨p, -, hpos, hid⟩ := h.leases lease hlease
    rw [hpos, hid]
    exact hids p (mem_map.mpr ⟨lease, hlease, by rw [hpos, Nat.add_sub_cancel_left]⟩)
  · intro hpending hheld
    rwa [places, hwaiting hpending hheld, hpending, hheld, flatMap_nil, map_nil, append_nil,
      append_nil, append_nil] at hplaces

/-! ## Bundle mode -/

namespace Bundled

variable {m : Nat}

theorem waiting_eq (h : Bundled base m s) : s.ring.waiting = [] := by
  have hnone : ((List.range s.ring.count).filter fun i =>
      s.ring.recycleReadyPos (addPos s.ring.recycleHeadPos i % s.ring.count)) = [] :=
    filter_eq_nil_iff.mpr fun i _ => by rw [h.ready]; exact Bool.false_ne_true
  rw [BufferRing.waiting, hnone]
  rfl

theorem exact (h : Bundled base m s) (hfits : base + s.ring.published.length < 2 ^ 32) :
    s.Exact := by
  refine h.toKept.exact hfits ?_ (fun p hp => h.ringIdAt (mem_append_right _ hp)) ?_
    fun _ _ => h.waiting_eq
  · intro c hc
    obtain ⟨r, -, hdecoded, -⟩ := h.decoded hc hfits
    exact ⟨r, hdecoded⟩
  · rw [places, h.waiting_eq, append_nil, ← h.live_logged]
    exact h.ids

end Bundled

/-! ## One buffer for each completion -/

namespace Settled

variable {first : Nat}

section

variable (h : Settled base first s)
include h

/-- The buffers that wait are those of the places that wait. -/
theorem waiting_eq (hfits : base + s.ring.published.length ≤ 2 ^ 32) :
    s.ring.waiting = (s.ring.waitingPlaces base first).map s.ring.logged := by
  have hlength := h.length
  have hpos {i : Nat} (hi : i < s.ring.count) :
      addPos s.ring.recycleHeadPos i = base + (first + i) := by
    rw [h.head, addPos_eq (by omega), add_assoc]
  rw [BufferRing.waiting, BufferRing.waitingPlaces, List.range'_eq_map_range, filter_map, map_map]
  have hfilter : ((List.range s.ring.count).filter fun i =>
      s.ring.recycleReadyPos (addPos s.ring.recycleHeadPos i % s.ring.count)) =
      (List.range s.ring.count).filter
        ((fun p => s.ring.recycleReadyPos ((base + p) % s.ring.count)) ∘ fun i => first + i) := by
    refine filter_congr fun i hi => ?_
    rw [hpos (mem_range.mp hi)]
    rfl
  rw [hfilter]
  refine map_congr_left fun i hi => ?_
  have hi := mem_range.mp (mem_filter.mp hi).1
  rw [hpos hi]
  exact h.toWindowed.ringIdAt (Nat.le_add_right _ _) (by omega)

theorem places_perm (hfits : base + s.ring.published.length ≤ 2 ^ 32) :
    s.places.Perm (List.range s.ring.count) := by
  rw [places, h.waiting_eq hfits, ← h.live_logged, ← map_append]
  exact (h.toWindowed.places.map _).trans h.ids

/-- With nothing to decode or to recycle, the kernel has the whole window. -/
theorem waitingPlaces_eq (hpending : s.pending = [])
    (hheld : s.held = []) : s.ring.waitingPlaces base first = [] := by
  have hcount := h.count_pos
  have hlive : s.live base = s.queuePlaces := by
    rw [live, pendingPlaces, heldPlaces, hpending, hheld,
      flatMap_nil, map_nil, append_nil, append_nil]
  have hfirst : first ∈ s.live base := by
    have hmem := h.places.mem_iff.mpr (mem_range'_1.mpr ⟨le_refl first, by omega⟩)
    refine (mem_append.mp hmem).resolve_right fun hwaits => ?_
    have hready := (mem_waitingPlaces.mp hwaits).2
    rw [h.first_waits] at hready
    exact Bool.false_ne_true hready
  have htaken : s.taken ≤ first := by
    rw [hlive] at hfirst
    exact (mem_queuePlaces.mp hfirst).1
  have hlength := h.places.length_eq
  rw [hlive, length_append, queuePlaces, length_range', length_range', h.length] at hlength
  exact length_eq_zero_iff.mp (by omega)

theorem exact (hfits : base + s.ring.published.length < 2 ^ 32) :
    s.Exact := by
  refine h.toKept.exact hfits ?_ ?_ (h.places_perm (Nat.le_of_lt hfits)) ?_
  · intro c hc
    obtain ⟨decodedPos, headPos, hdecoded⟩ := h.toWindowed.decoded hc hfits
    exact ⟨_, hdecoded⟩
  · intro p hp
    obtain ⟨hlow, hhigh⟩ := h.live_bounds (mem_append_right _ hp)
    exact h.toWindowed.ringIdAt hlow hhigh
  · intro hpending hheld
    rw [h.waiting_eq (Nat.le_of_lt hfits), h.waitingPlaces_eq hpending hheld, map_nil]

end

end Settled

/-! ## Runs -/

theorem Maintained.exact (h : Maintained base s)
    (hfits : base + s.ring.published.length < 2 ^ 32) : s.Exact := by
  obtain ⟨mark, h⟩ | ⟨first, h⟩ := h
  all_goals exact h.exact hfits

/-- A move keeps the invariant as long as the positions suffice. -/
theorem Maintained.step (h : Maintained base s) {move : RingMove}
    (hconforms : s.conforms move = true) (hbefore : base + s.ring.published.length < 2 ^ 32)
    (hfits : base + (s.step move).ring.published.length ≤ 2 ^ 32) :
    Maintained base (s.step move) := by
  obtain ⟨mark, h⟩ | ⟨first, h⟩ := h
  · exact .inl (h.step hconforms hbefore hfits)
  · exact .inr (h.step hconforms hbefore hfits)

theorem Maintained.create {bufSize count : Nat} {mode : Bool} (hcount : 0 < count)
    (hsmall : count < 2 ^ 32) (hbase : count ∣ base) (hfits : base + count ≤ 2 ^ 32) :
    Maintained base (create bufSize count mode base) := by
  cases mode with
  | true => exact .inl ⟨0, Bundled.create hcount hbase hfits⟩
  | false => exact .inr ⟨0, Settled.create hcount hsmall hbase hfits⟩

/-- A run appends to the order of publication. -/
theorem run_grown (s : RingSystem) (moves : List RingMove) :
    Grown s.ring (moves.foldl step s).ring := by
  induction moves generalizing s with
  | nil => exact .refl s.ring
  | cons move moves ih => exact (step_grown s move).trans (ih (s.step move))

/-- An allowed run keeps the invariant as long as the positions suffice. -/
theorem Maintained.run (h : Maintained base s) {moves : List RingMove}
    (hallowed : allowed RingSystem.step conforms s moves = true)
    (hfits : base + (moves.foldl RingSystem.step s).ring.published.length < 2 ^ 32) :
    Maintained base (moves.foldl RingSystem.step s) := by
  induction moves using List.reverseRecOn with
  | nil => exact h
  | append_singleton moves move ih =>
    rw [allowed_concat, Bool.and_eq_true] at hallowed
    rw [foldl_append, foldl_cons, foldl_nil] at hfits ⊢
    have hgrown := (step_grown (moves.foldl RingSystem.step s) move).published.length_le
    have hbefore : base + (moves.foldl RingSystem.step s).ring.published.length < 2 ^ 32 := by
      omega
    exact (ih hallowed.1 hbefore).step hallowed.2 hbefore (le_of_lt hfits)

/-- Ownership is exact after every run of the kernel and the application, in both modes, while
fewer than `2 ^ 31` buffers were published. -/
theorem run_exact (bufSize exponent : Nat) (mode : Bool) (moves : List RingMove)
    (hallowed : allowed RingSystem.step conforms
      (RingSystem.create bufSize (2 ^ exponent) mode 0) moves = true)
    (hfew : (moves.foldl RingSystem.step
      (RingSystem.create bufSize (2 ^ exponent) mode 0)).ring.published.length < 2 ^ 31) :
    (moves.foldl RingSystem.step (RingSystem.create bufSize (2 ^ exponent) mode 0)).Exact := by
  have hcount : 0 < 2 ^ exponent := Nat.two_pow_pos exponent
  have hgrown := (run_grown (RingSystem.create bufSize (2 ^ exponent) mode 0)
    moves).published.length_le
  have hlength : (RingSystem.create bufSize (2 ^ exponent) mode 0).ring.published.length =
      2 ^ exponent := length_range
  have hcreate : Maintained 0 (RingSystem.create bufSize (2 ^ exponent) mode 0) :=
    Maintained.create hcount (by omega) (Nat.dvd_zero _) (by omega)
  exact (hcreate.run hallowed (by omega)).exact (by omega)

/-- Two completions, decoded and recycled in the other order. -/
def crossedRun : List RingMove :=
  [.complete 2 15, .complete 1 7, .decode 1, .decode 0, .recycle 2 1, .complete 2 20,
    .recycle 0 2, .decode 0, .recycle 3 2]

/-- Ownership is exact where completions are decoded out of order. -/
theorem run_exact_crossedRun :
    allowed RingSystem.step conforms (RingSystem.create 10 4 true 0) crossedRun = true ∧
      (crossedRun.foldl RingSystem.step (RingSystem.create 10 4 true 0)).Exact := by
  have hallowed : allowed RingSystem.step conforms (RingSystem.create 10 (2 ^ 2) true 0)
      crossedRun = true := by decide
  have hfew : (crossedRun.foldl RingSystem.step
      (RingSystem.create 10 (2 ^ 2) true 0)).ring.published.length < 2 ^ 31 := by decide
  exact ⟨hallowed, run_exact 10 2 true crossedRun hallowed hfew⟩

end Conflux.SocketIo

import Conflux.SocketIo.BufferRing.Ownership

/-!
# Positions that start elsewhere

Two rings, one with positions from zero and one with positions from an offset that is a multiple
of the number of buffers, in the same run. They agree until the positions of the second wrap
around. From then on its tail is smaller than the positions that it has published, and no
completion is found.
-/

namespace Conflux.SocketIo

open Conflux.Core List Bool RingSystem Function RingMove

/-- The move with the positions of the second ring. -/
def RingMove.shift (offset : Nat) : RingMove → RingMove
  | .complete cnt total => .complete cnt total
  | .decode index => .decode index
  | .recycle startPos cnt => .recycle (addPos startPos offset) cnt

/-- The rings give the same results and publish the same buffers. -/
def AgreesAt (bufSize count : Nat) (mode : Bool) (offset : Nat) (moves : List RingMove) : Prop :=
  outcomes (RingSystem.create bufSize count mode offset)
      (moves.map (RingMove.shift offset)) =
    outcomes (RingSystem.create bufSize count mode 0) moves ∧
  ((moves.map (RingMove.shift offset)).foldl RingSystem.step
      (RingSystem.create bufSize count mode offset)).ring.published =
    (moves.foldl RingSystem.step (RingSystem.create bufSize count mode 0)).ring.published

variable {r : BufferRing} {bufSize base count : Nat} {mode : Bool} {c : Completion}

/-! ## The relation -/

/-- Both rings have the invariant of the mode, with the same window. -/
def Aligned (offset : Nat) (s s' : RingSystem) : Prop :=
  (∃ m m', Bundled 0 m s ∧ Bundled offset m' s') ∨
    ∃ first, Settled 0 first s ∧ Settled offset first s'

/-- The second ring is the first one with shifted positions. -/
structure Shifted (offset : Nat) (s s' : RingSystem) : Prop where
  taken : s'.taken = s.taken
  pending : s'.pending = s.pending
  held : s'.held = s.held.map fun lease => { lease with pos := lease.pos + offset }
  published : s'.ring.published = s.ring.published
  count : s'.ring.count = s.ring.count
  bufSize : s'.ring.bufSize = s.ring.bufSize
  mode : s'.ring.recvBundle = s.ring.recvBundle
  ready : s'.ring.recycleReadyPos = s.ring.recycleReadyPos
  aligned : Aligned offset s s'

variable {offset : Nat} {s s' : RingSystem}

theorem Completion.leases_shift (c : Completion) :
    c.leases offset = (c.leases 0).map fun lease => { lease with pos := lease.pos + offset } := by
  rw [Completion.leases, Completion.leases, map_map]
  refine map_congr_left fun i _ => ?_
  rw [comp_apply, zero_add, add_comm offset]

namespace Shifted

section

variable (h : Shifted offset s s')
include h

theorem logged (p : Nat) : s'.ring.logged p = s.ring.logged p := by
  rw [BufferRing.logged, BufferRing.logged, h.published]

theorem kept : Kept 0 s ∧ Kept offset s' := by
  obtain ⟨m, m', hs, hs'⟩ | ⟨first, hs, hs'⟩ := h.aligned
  all_goals exact ⟨hs.toKept, hs'.toKept⟩

/-- Both rings decode a completion. -/
theorem decodedAt (hc : c ∈ s.pending) (hfits : offset + s.ring.published.length < 2 ^ 32) :
    ∃ r r', DecodedAt 0 s c r ∧ DecodedAt offset s' c r' ∧
      r'.recycleReadyPos = r.recycleReadyPos := by
  have hc' : c ∈ s'.pending := h.pending ▸ hc
  have hfits' : offset + s'.ring.published.length < 2 ^ 32 := by rwa [h.published]
  obtain ⟨m, m', hs, hs'⟩ | ⟨first, hs, hs'⟩ := h.aligned
  · obtain ⟨r, mark, hr, hbundled, -⟩ := hs.decoded hc (by omega)
    obtain ⟨r', mark', hr', hbundled', -⟩ := hs'.decoded hc' hfits'
    refine ⟨r, r', hr, hr', funext fun i => ?_⟩
    exact (hbundled'.ready i).trans (hbundled.ready i).symm
  · obtain ⟨decodedPos, headPos, hr⟩ := hs.toWindowed.decoded hc (by omega)
    obtain ⟨decodedPos', headPos', hr'⟩ := hs'.toWindowed.decoded hc' hfits'
    exact ⟨_, _, hr, hr', h.ready⟩

/-- Both rings give the same results. -/
theorem outcome_eq (hc : c ∈ s.pending) (hfits : offset + s.ring.published.length < 2 ^ 32) :
    s'.outcome c = s.outcome c := by
  have hc' : c ∈ s'.pending := h.pending ▸ hc
  obtain ⟨hkept, hkept'⟩ := h.kept
  obtain ⟨r, r', hr, hr', -⟩ := h.decodedAt hc hfits
  rw [hr.outcome_eq hkept hc (by omega), hr'.outcome_eq hkept' hc' (by rwa [h.published]),
    h.bufSize]

theorem decode {index : Nat} (hindex : index < s.pending.length)
    (hfits : offset + s.ring.published.length < 2 ^ 32) :
    Shifted offset (s.step (.decode index)) (s'.step (.decode index)) := by
  obtain ⟨c, hget⟩ : ∃ c, s.pending[index]? = some c :=
    ⟨s.pending[index], getElem?_eq_getElem hindex⟩
  have hget' : s'.pending[index]? = some c := h.pending ▸ hget
  have hindex' : index < s'.pending.length := h.pending ▸ hindex
  have hfits' : offset + s'.ring.published.length < 2 ^ 32 := by rwa [h.published]
  have hc : c ∈ s.pending := mem_of_getElem? hget
  obtain ⟨hkept, hkept'⟩ := h.kept
  obtain ⟨r, r', hr, hr', hready⟩ := h.decodedAt hc hfits
  have hstep := hr.step_eq hkept hget (by omega)
  have hstep' := hr'.step_eq hkept' hget' hfits'
  have haligned : Aligned offset (s.step (.decode index)) (s'.step (.decode index)) := by
    obtain ⟨m, m', hs, hs'⟩ | ⟨first, hs, hs'⟩ := h.aligned
    · obtain ⟨mark, hnext⟩ := hs.decode hindex (by omega)
      obtain ⟨mark', hnext'⟩ := hs'.decode hindex' hfits'
      exact .inl ⟨mark, mark', hnext, hnext'⟩
    · exact .inr ⟨first, hs.decode hindex (by omega), hs'.decode hindex' hfits'⟩
  rw [hstep, hstep'] at haligned ⊢
  refine ⟨h.taken, congrArg (·.eraseIdx index) h.pending, ?_, ?_, ?_, ?_, ?_, hready, haligned⟩
  · dsimp only
    rw [h.held, map_append, c.leases_shift]
  · exact hr'.same.published.trans (h.published.trans hr.same.published.symm)
  · exact hr'.same.count.trans (h.count.trans hr.same.count.symm)
  · exact hr'.same.bufSize.trans (h.bufSize.trans hr.same.bufSize.symm)
  · exact hr'.same.mode.trans (h.mode.trans hr.same.mode.symm)

end

variable {cnt startPos : Nat}

theorem complete (h : Shifted offset s s') {total : Nat}
    (hconforms : s.conforms (.complete cnt total) = true) :
    Shifted offset (s.step (.complete cnt total)) (s'.step (.complete cnt total)) := by
  have hconforms' : s'.conforms (.complete cnt total) = true := by
    rw [← hconforms]
    simp only [conforms, h.taken, h.published, h.bufSize, h.mode]
  refine ⟨?_, ?_, h.held, h.published, h.count, h.bufSize, h.mode, h.ready, ?_⟩
  · exact congrArg (· + cnt) h.taken
  · simp only [step, h.pending, h.taken, h.published]
  obtain ⟨m, m', hs, hs'⟩ | ⟨first, hs, hs'⟩ := h.aligned
  · exact .inl ⟨m, m', hs.complete hconforms, hs'.complete hconforms'⟩
  · exact .inr ⟨first, hs.complete hconforms, hs'.complete hconforms'⟩

/-! ## Recycling -/

section

variable (h : Shifted offset s s') (hfits : offset + s.ring.published.length ≤ 2 ^ 32)
  (hconforms : s.conforms (.recycle startPos cnt) = true)
include h hfits hconforms

/-- The recycled positions are shifted. -/
theorem rangePositions_eq :
    rangePositions (addPos startPos offset) cnt =
      (rangePositions startPos cnt).map (· + offset) := by
  obtain ⟨hkept, -⟩ := h.kept
  obtain ⟨-, hheld⟩ := hkept.recycled_held hconforms
  rw [rangePositions, rangePositions, map_map]
  refine map_congr_left fun i hi => ?_
  obtain ⟨p, hp, hpos⟩ := hheld (addPos startPos i) (mem_map_of_mem hi)
  have hlt := hkept.live_lt (mem_append_right _ hp)
  rw [comp_apply, addPos_addPos, add_comm offset, ← addPos_addPos, hpos]
  exact addPos_eq (by omega)

theorem conforms_recycle : s'.conforms (.recycle (addPos startPos offset) cnt) = true := by
  have hpositions := h.rangePositions_eq hfits hconforms
  simp only [conforms, and_eq_true, decide_eq_true_eq, all_eq_true, contains_iff_mem] at hconforms ⊢
  rw [hpositions]
  refine ⟨hconforms.1.map fun a b hab => Nat.add_right_cancel hab, ?_⟩
  intro pos hpos
  obtain ⟨old, hold, rfl⟩ := mem_map.mp hpos
  obtain ⟨lease, hlease, rfl⟩ := mem_map.mp (hconforms.2 old hold)
  rw [h.held, map_map]
  exact mem_map.mpr ⟨lease, hlease, rfl⟩

theorem held_recycle :
    (s'.step (.recycle (addPos startPos offset) cnt)).held =
      (s.step (.recycle startPos cnt)).held.map
        fun lease => { lease with pos := lease.pos + offset } := by
  simp only [step]
  rw [h.rangePositions_eq hfits hconforms, h.held, filter_map]
  congr 1
  refine filter_congr fun lease _ => ?_
  rw [comp_apply, not_inj_iff, Bool.eq_iff_iff, contains_iff_mem,
    contains_iff_mem, mem_map]
  constructor
  · rintro ⟨pos, hpos, heq⟩
    rwa [← Nat.add_right_cancel heq]
  · intro hpos
    exact ⟨lease.pos, hpos, rfl⟩

end

end Shifted

theorem slot_shift (hdvd : count ∣ offset) (p : Nat) : (offset + p) % count = (0 + p) % count := by
  obtain ⟨k, rfl⟩ := hdvd
  rw [Nat.mul_add_mod, zero_add]

/-- Both loops publish the same buffers. -/
theorem Windowed.flush_shifted {first : Nat} (hs : Windowed 0 first s)
    (hs' : Windowed offset first s') (hdvd : s.ring.count ∣ offset)
    (hcount : s'.ring.count = s.ring.count) (hpub : s'.ring.published = s.ring.published)
    (hready : s'.ring.recycleReadyPos = s.ring.recycleReadyPos) {rounds : Nat}
    (hfits : offset + (s.ring.flushRounds rounds).published.length ≤ 2 ^ 32) :
    (s'.ring.flushRounds rounds).published = (s.ring.flushRounds rounds).published ∧
      (s'.ring.flushRounds rounds).recycleReadyPos =
        (s.ring.flushRounds rounds).recycleReadyPos := by
  induction rounds generalizing first s s' with
  | zero => exact ⟨hpub, hready⟩
  | succ rounds ih =>
    have hflag : s'.ring.recycleReadyPos (s'.ring.recycleHeadPos % s'.ring.count) =
        s.ring.recycleReadyPos (s.ring.recycleHeadPos % s.ring.count) := by
      rw [hready, hs'.head, hs.head, hcount, slot_shift hdvd]
    have hlogged : s'.ring.logged first = s.ring.logged first := by
      rw [BufferRing.logged, BufferRing.logged, hpub]
    rw [flushRounds_succ] at hfits
    rw [flushRounds_succ, flushRounds_succ, hflag]
    cases hwaits : s.ring.recycleReadyPos (s.ring.recycleHeadPos % s.ring.count) with
    | false =>
      rw [if_neg (fun hno => Bool.false_ne_true hno.2),
        if_neg (fun hno => Bool.false_ne_true hno.2)]
      exact ⟨hpub, hready⟩
    | true =>
      rw [hwaits, if_pos ⟨hs.head_ne_tail, rfl⟩] at hfits
      rw [if_pos ⟨hs'.head_ne_tail, rfl⟩, if_pos ⟨hs.head_ne_tail, rfl⟩]
      have hlater := (flushRounds_grown rounds s.ring.flushOne).published.length_le
      have hlength : s.ring.flushOne.published.length = s.ring.published.length + 1 := by
        rw [BufferRing.flushOne, BufferRing.publish, length_append, length_singleton]
      have hbefore : offset + s.ring.published.length < 2 ^ 32 := by omega
      have hbefore' : offset + s'.ring.published.length < 2 ^ 32 := by rwa [hpub]
      have heq := hs.flushOne_eq (by omega)
      have heq' := hs'.flushOne_eq hbefore'
      rw [hs'.head, hwaits] at hflag
      rw [hs.head] at hwaits
      refine ih (hs.flushed (by omega) hwaits) (hs'.flushed hbefore' hflag) ?_ ?_ ?_ ?_ hfits
      · dsimp only
        rwa [heq]
      · dsimp only
        rw [heq, heq']
        exact hcount
      · dsimp only
        rw [heq, heq', hpub, hlogged]
      · dsimp only
        rw [heq, heq', hready, hcount, slot_shift hdvd]

/-- A loop that marks positions sets the same flags. -/
theorem foldl_markReady_shifted (positions : List Nat) {r' : BufferRing} (hdvd : r.count ∣ offset)
    (hcount : r'.count = r.count) (hready : r'.recycleReadyPos = r.recycleReadyPos) :
    ((positions.map (· + offset)).foldl Windowed.markReady r').recycleReadyPos =
      (positions.foldl Windowed.markReady r).recycleReadyPos := by
  induction positions generalizing r r' with
  | nil => exact hready
  | cons pos positions ih =>
    rw [map_cons, foldl_cons, foldl_cons]
    refine ih hdvd hcount ?_
    simp only [Windowed.markReady, hready, hcount]
    rw [add_comm, slot_shift hdvd, zero_add]

theorem foldl_markReady_eq (positions : List Nat) (r : BufferRing) :
    ∃ ready, positions.foldl Windowed.markReady r = { r with recycleReadyPos := ready } := by
  induction positions generalizing r with
  | nil => exact ⟨r.recycleReadyPos, rfl⟩
  | cons pos positions ih =>
    obtain ⟨ready, heq⟩ := ih (Windowed.markReady r pos)
    exact ⟨ready, heq⟩

namespace Shifted

variable {startPos cnt : Nat}

/-- Both rings publish the same buffers in one-buffer mode. -/
theorem recycle_settled (h : Shifted offset s s') {first : Nat} (hs : Settled 0 first s)
    (hs' : Settled offset first s') (hdvd : s.ring.count ∣ offset)
    (hconforms : s.conforms (.recycle startPos cnt) = true)
    (hfits : offset + (s.step (.recycle startPos cnt)).ring.published.length ≤ 2 ^ 32) :
    (s'.step (.recycle (addPos startPos offset) cnt)).ring.published =
        (s.step (.recycle startPos cnt)).ring.published ∧
      (s'.step (.recycle (addPos startPos offset) cnt)).ring.recycleReadyPos =
        (s.step (.recycle startPos cnt)).ring.recycleReadyPos := by
  have hgrown := (step_grown s (.recycle startPos cnt)).published.length_le
  have hbefore : offset + s.ring.published.length ≤ 2 ^ 32 := by omega
  by_cases hcnt : cnt = 0
  · simp only [step, BufferRing.recycleRange, hcnt, if_true]
    exact ⟨h.published, h.ready⟩
  have hpositions := h.rangePositions_eq hbefore hconforms
  have hconforms' := h.conforms_recycle hbefore hconforms
  obtain ⟨hnodup, hheld⟩ := hs.recycled_held hconforms
  obtain ⟨hnodup', hheld'⟩ := hs'.recycled_held hconforms'
  have hmarked := hs.toWindowed.marked_all hnodup hheld
  have hmarked' := hs'.toWindowed.marked_all hnodup' hheld'
  rw [Windowed.step_recycle hs.mode hcnt] at hfits ⊢
  rw [Windowed.step_recycle hs'.mode hcnt]
  rw [foldl_giveBack] at hfits hmarked hmarked' ⊢
  rw [foldl_giveBack]
  have hflags := foldl_markReady_shifted (rangePositions startPos cnt) hdvd h.count h.ready
  rw [← hpositions] at hflags
  obtain ⟨ready, heq⟩ := foldl_markReady_eq (rangePositions startPos cnt) s.ring
  obtain ⟨ready', heq'⟩ := foldl_markReady_eq (rangePositions (addPos startPos offset) cnt) s'.ring
  rw [heq] at hfits hmarked hflags ⊢
  rw [heq'] at hmarked' hflags ⊢
  have hrounds (r : BufferRing) : r.flushRounds s'.ring.count = r.flushRounds s.ring.count := by
    rw [h.count]
  dsimp only [BufferRing.flushRecycleReady] at hfits ⊢
  rw [hrounds]
  exact hmarked.flush_shifted hmarked' hdvd h.count h.published hflags hfits

section

variable (h : Shifted offset s s') (hdvd : s.ring.count ∣ offset)
include h hdvd

/-- Recycling keeps the relation. -/
theorem recycle (hconforms : s.conforms (.recycle startPos cnt) = true)
    (hfits : offset + (s.step (.recycle startPos cnt)).ring.published.length ≤ 2 ^ 32) :
    Shifted offset (s.step (.recycle startPos cnt))
      (s'.step (.recycle (addPos startPos offset) cnt)) := by
  have hgrown := step_grown s (.recycle startPos cnt)
  have hgrown' := step_grown s' (.recycle (addPos startPos offset) cnt)
  have hlonger := hgrown.published.length_le
  have hbefore : offset + s.ring.published.length ≤ 2 ^ 32 := by omega
  have hconforms' := h.conforms_recycle hbefore hconforms
  have hcount := hgrown'.count.trans (h.count.trans hgrown.count.symm)
  obtain ⟨m, m', hs, hs'⟩ | ⟨first, hs, hs'⟩ := h.aligned
  · obtain ⟨hnext, hpub⟩ := hs.recycle hconforms (by omega)
    have hfits' : offset +
        (s'.step (.recycle (addPos startPos offset) cnt)).ring.published.length ≤ 2 ^ 32 := by
      rw [Bundled.length_recycle hs'.mode, h.published]
      rwa [Bundled.length_recycle hs.mode] at hfits
    obtain ⟨hnext', hpub'⟩ := hs'.recycle hconforms' hfits'
    refine ⟨h.taken, h.pending, h.held_recycle hbefore hconforms, ?_, hcount, ?_, ?_, ?_,
      .inl ⟨m, m', hnext, hnext'⟩⟩
    · rw [hpub, hpub', h.published, h.rangePositions_eq hbefore hconforms, map_map]
      congr 1
      refine map_congr_left fun pos _ => ?_
      rw [comp_apply, Nat.add_sub_cancel, h.logged, Nat.sub_zero]
    · exact hgrown'.bufSize.trans (h.bufSize.trans hgrown.bufSize.symm)
    · exact hgrown'.mode.trans (h.mode.trans hgrown.mode.symm)
    · funext i
      exact (hnext'.ready i).trans (hnext.ready i).symm
  obtain ⟨hpub, hready⟩ := h.recycle_settled hs hs' hdvd hconforms hfits
  obtain ⟨next, hnext⟩ := hs.recycle hconforms (by omega)
  obtain ⟨next', hnext'⟩ := hs'.recycle hconforms' (by rwa [hpub])
  have hsame : next' = next := by
    have hlength := hnext.length
    have hlength' := hnext'.length
    rw [hpub, hcount] at hlength'
    omega
  subst hsame
  refine ⟨h.taken, h.pending, h.held_recycle hbefore hconforms, hpub, hcount, ?_, ?_, hready,
    .inr ⟨_, hnext, hnext'⟩⟩
  · exact hgrown'.bufSize.trans (h.bufSize.trans hgrown.bufSize.symm)
  · exact hgrown'.mode.trans (h.mode.trans hgrown.mode.symm)

/-! ## Runs -/

/-- A move keeps the relation as long as the positions of the second ring suffice. -/
theorem step {move : RingMove} (hconforms : s.conforms move = true)
    (hbefore : offset + s.ring.published.length < 2 ^ 32)
    (hfits : offset + (s.step move).ring.published.length ≤ 2 ^ 32) :
    Shifted offset (s.step move) (s'.step (move.shift offset)) := by
  cases move with
  | complete cnt total => exact h.complete hconforms
  | decode index => exact h.decode (of_decide_eq_true hconforms) hbefore
  | recycle startPos cnt => exact h.recycle hdvd hconforms hfits

/-- Related rings agree in a run as long as the positions of the second one suffice. -/
theorem run {moves : List RingMove} (hallowed : allowed RingSystem.step conforms s moves = true)
    (hfits : offset + (moves.foldl RingSystem.step s).ring.published.length < 2 ^ 32) :
    outcomes s' (moves.map (shift offset)) = outcomes s moves ∧
      ((moves.map (shift offset)).foldl RingSystem.step s').ring.published =
        (moves.foldl RingSystem.step s).ring.published := by
  induction moves generalizing s s' with
  | nil => exact ⟨rfl, h.published⟩
  | cons move moves ih =>
    rw [allowed, and_eq_true] at hallowed
    rw [foldl_cons] at hfits
    have hlater := (run_grown (s.step move) moves).published.length_le
    have hgrown := step_grown s move
    have hlonger := hgrown.published.length_le
    have hbefore : offset + s.ring.published.length < 2 ^ 32 := by omega
    have hnext := h.step hdvd hallowed.1 hbefore (by omega)
    obtain ⟨hrest, hpub⟩ := ih hnext (hgrown.count ▸ hdvd) hallowed.2 hfits
    refine ⟨?_, hpub⟩
    cases move with
    | complete cnt total | recycle startPos cnt => exact hrest
    | decode index =>
      rw [map_cons]
      simp only [shift] at hrest ⊢
      rw [outcomes, outcomes, hrest, h.pending]
      congr 2
      cases hget : s.pending[index]? with
      | none => rfl
      | some c =>
        exact congrArg some (h.outcome_eq (mem_of_getElem? hget) hbefore)

end

theorem create {bufSize : Nat} {mode : Bool} (hcount : 0 < count) (hsmall : count < 2 ^ 32)
    (hdvd : count ∣ offset) (hfits : offset + count ≤ 2 ^ 32) :
    Shifted offset (create bufSize count mode 0)
      (create bufSize count mode offset) := by
  refine ⟨rfl, rfl, rfl, rfl, rfl, rfl, rfl, rfl, ?_⟩
  cases mode with
  | true =>
    exact .inl ⟨0, 0, Bundled.create hcount (Nat.dvd_zero _) (by omega),
      Bundled.create hcount hdvd hfits⟩
  | false =>
    exact .inr ⟨0, Settled.create hcount hsmall (Nat.dvd_zero _) (by omega),
      Settled.create hcount hsmall hdvd hfits⟩

end Shifted

/-! ## The wrapped tail -/

/-- With the tail at zero no completion is found. -/
theorem findStartPos_of_tail_zero (htail : r.tailPos = 0) (hcount : r.count < 2 ^ 32)
    (firstId cnt : Nat) :
    ∃ r', r.findStartPos firstId cnt = (none, r') := by
  rw [BufferRing.findStartPos]
  split
  · exact ⟨r, rfl⟩
  rename_i hguard
  generalize (if (r.recvBundle && r.bundleHasSavedPos firstId) = true then
    r.bundleSavedPos firstId else r.idPos firstId) = pos
  have hwindow : addPos pos cnt < pos ∨ r.tailPos < addPos pos cnt := by
    rw [htail, addPos]
    omega
  rw [if_pos hwindow]
  exact ⟨r, rfl⟩

theorem outcome_of_tail_zero (htail : s.ring.tailPos = 0) (hcount : s.ring.count < 2 ^ 32)
    (c : Completion) : ∃ e, s.outcome c = .error e := by
  have hdecoded : ∃ e r, s.decoded c = (.error e, r) := by
    rw [decoded, BufferRing.tryBufferSlicesFromCqe.eq_def]
    split
    · exact ⟨_, _, rfl⟩
    rename_i firstId _
    split
    · exact ⟨_, _, rfl⟩
    dsimp only
    generalize (if s.ring.recvBundle = true then
      ((c.total : Int).toNat + s.ring.bufSize - 1) / s.ring.bufSize % 2 ^ 32 else 1) = cnt
    split
    · exact ⟨_, _, rfl⟩
    obtain ⟨r', hfind⟩ := findStartPos_of_tail_zero htail hcount firstId cnt
    rw [hfind]
    exact ⟨_, _, rfl⟩
  obtain ⟨e, r, heq⟩ := hdecoded
  rw [outcome, heq]
  exact ⟨e, rfl⟩

theorem outcomes_concat_decode (s : RingSystem) (moves : List RingMove) (index : Nat) :
    outcomes s (moves ++ [.decode index]) = outcomes s moves ++
      ((moves.foldl step s).pending[index]?.map
        (moves.foldl step s).outcome).toList := by
  induction moves generalizing s with
  | nil => simp only [nil_append, outcomes, append_nil, foldl_nil]
  | cons move moves ih =>
    cases move with
    | complete cnt total | recycle startPos cnt => exact ih _
    | decode first =>
      rw [cons_append, outcomes, outcomes, ih, append_assoc]
      rfl

/-! ## A long run -/

/-- One buffer goes around. -/
def turn (i : Nat) : List RingMove := [.complete 1 1, .decode 0, .recycle i 1]

/-- Buffers go around one by one. -/
def turns (n : Nat) : List RingMove := (List.range n).flatMap turn

/-- The kernel has all buffers, after `i` turns. -/
structure Idle (i : Nat) (s : RingSystem) : Prop where
  maintained : Maintained 0 s
  pending : s.pending = []
  held : s.held = []
  taken : s.taken = i
  length : s.ring.published.length = i + s.ring.count

theorem flushRounds_length_le (rounds : Nat) (r : BufferRing) :
    (r.flushRounds rounds).published.length ≤ r.published.length + rounds := by
  induction rounds generalizing r with
  | zero => exact le_refl _
  | succ rounds ih =>
    rw [BufferRing.flushRounds]
    split
    · refine (ih _).trans ?_
      simp only [BufferRing.publish, length_append, length_singleton]
      omega
    · omega

/-- Recycling a buffer publishes at most as many buffers as there are. -/
theorem recycle_length_le (s : RingSystem) (hcount : 0 < s.ring.count) (pos : Nat) :
    (s.step (.recycle pos 1)).ring.published.length ≤ s.ring.published.length + s.ring.count := by
  cases hmode : s.ring.recvBundle with
  | true =>
    rw [Bundled.length_recycle hmode]
    omega
  | false =>
    rw [Windowed.step_recycle hmode Nat.one_ne_zero, foldl_giveBack]
    obtain ⟨ready, heq⟩ := foldl_markReady_eq (rangePositions pos 1) s.ring
    rw [heq]
    exact flushRounds_length_le _ _

theorem Maintained.kept (h : Maintained base s) : Kept base s := by
  obtain ⟨mark, h⟩ | ⟨first, h⟩ := h
  · exact h.toKept
  · exact h.toKept

theorem Maintained.decodedAt (h : Maintained base s) (hc : c ∈ s.pending)
    (hfits : base + s.ring.published.length < 2 ^ 32) : ∃ r, DecodedAt base s c r := by
  obtain ⟨mark, h⟩ | ⟨first, h⟩ := h
  · obtain ⟨r, -, hr, -⟩ := h.decoded hc hfits
    exact ⟨r, hr⟩
  · obtain ⟨decodedPos, headPos, hr⟩ := h.toWindowed.decoded hc hfits
    exact ⟨_, hr⟩

/-- The kernel takes the next buffer. -/
theorem Idle.conforms_complete {i : Nat} (h : Idle i s) (hsize : 0 < s.ring.bufSize) :
    s.conforms (.complete 1 1) = true := by
  have hcount := h.maintained.kept.count_pos
  have hlength := h.length
  have htaken := h.taken
  simp only [conforms, and_eq_true, decide_eq_true_eq, or_eq_true, beq_iff_eq,
    Nat.sub_self, Nat.zero_mul, Nat.one_mul]
  refine ⟨⟨⟨⟨Nat.one_pos, ?_⟩, Nat.one_pos⟩, hsize⟩, .inr trivial⟩
  omega

/-- The next completion is decoded. -/
theorem Idle.complete_decode {i : Nat} (h : Idle i s) (hsize : 0 < s.ring.bufSize)
    (hfits : i + s.ring.count < 2 ^ 32) :
    ∃ c r id, (s.step (.complete 1 1)).pending = [c] ∧
      (s.step (.complete 1 1)).outcome c = .ok (expected s.ring.bufSize c) ∧
      Maintained 0 ((s.step (.complete 1 1)).step (.decode 0)) ∧
      SameLog s.ring r ∧
      (s.step (.complete 1 1)).step (.decode 0) =
        { ring := r, taken := i + 1, pending := [], held := [{ pos := i, id := id }] } := by
  set s₁ := s.step (.complete 1 1)
  have hlength := h.length
  have hcount := h.maintained.kept.count_pos
  have hring : s₁.ring = s.ring := rfl
  have hmaintained := h.maintained.step (h.conforms_complete hsize) (by omega)
    (by rw [hring]; omega)
  obtain ⟨c, hpending, hfirst, hone⟩ : ∃ c, s₁.pending = [c] ∧
      c.first = i ∧ c.ids.length = 1 := by
    refine ⟨_, congrArg (· ++ [_]) h.pending, h.taken, ?_⟩
    rw [length_take, length_drop, h.taken]
    omega
  have hc : c ∈ s₁.pending := hpending ▸ mem_singleton_self c
  have hget : s₁.pending[0]? = some c := by rw [hpending]; rfl
  have hdecode : s₁.conforms (.decode 0) = true := by
    rw [conforms, hpending]
    rfl
  have hfits₁ : 0 + s₁.ring.published.length < 2 ^ 32 := by rw [hring]; omega
  obtain ⟨r, hr⟩ := hmaintained.decodedAt hc hfits₁
  have hstep := hr.step_eq hmaintained.kept hget hfits₁
  have hnext := hmaintained.step hdecode hfits₁ (by
    rw [hstep]
    rw [hr.same.published, hring]
    omega)
  refine ⟨c, r, c.ids.getD 0 0, hpending, hr.outcome_eq hmaintained.kept hc hfits₁, hnext, hr.same,
    ?_⟩
  have hleases : c.leases 0 = [{ pos := i, id := c.ids.getD 0 0 }] := by
    rw [Completion.leases, hone, hfirst]
    simp only [range_one, map_cons, map_nil, zero_add, add_zero]
  have htaken : s₁.taken = i + 1 := congrArg (· + 1) h.taken
  have hheld : s₁.held = [] := h.held
  rw [hstep, hpending, hleases, htaken, hheld]
  rfl

/-- A turn is allowed and leaves all buffers with the kernel. -/
theorem Idle.turn {i : Nat} (h : Idle i s) (hsize : 0 < s.ring.bufSize)
    (hfits : i + s.ring.count + s.ring.count < 2 ^ 32) :
    allowed step conforms s (turn i) = true ∧
      Idle (i + 1) ((SocketIo.turn i).foldl step s) := by
  have hcount := h.maintained.kept.count_pos
  obtain ⟨c, r, id, hpending, -, hmaintained, hsame, hstep⟩ := h.complete_decode hsize (by omega)
  have hlength : r.published.length = i + s.ring.count := by rw [hsame.published, h.length]
  have hpositions : rangePositions i 1 = [i] := by
    simp only [rangePositions, range_one, map_cons, map_nil]
    rw [addPos_eq (by omega), add_zero]
  have hdecode : (s.step (.complete 1 1)).conforms (.decode 0) = true := by
    rw [conforms, hpending]
    rfl
  have hrecycle : ((s.step (.complete 1 1)).step (.decode 0)).conforms (.recycle i 1) = true := by
    rw [conforms, hstep, hpositions]
    simp only [nodup_singleton, decide_true, map_cons, map_nil, all_cons,
      all_nil, contains_cons, BEq.rfl, Bool.true_or, Bool.and_self]
  have hallowed : allowed step conforms s (SocketIo.turn i) = true := by
    simp only [SocketIo.turn, allowed, h.conforms_complete hsize, hdecode, hrecycle, Bool.and_self]
  refine ⟨hallowed, ?_⟩
  rw [SocketIo.turn, foldl_cons, foldl_cons, foldl_cons, foldl_nil]
  rw [hstep] at hrecycle hmaintained ⊢
  have hgrowth := recycle_length_le
    { ring := r, taken := i + 1, pending := [], held := [{ pos := i, id := id }] }
    (by dsimp only; rwa [hsame.count]) i
  dsimp only at hgrowth
  rw [hlength, hsame.count] at hgrowth
  have hlast := hmaintained.step hrecycle (by dsimp only; omega) (by omega)
  have hheld : (step
      { ring := r, taken := i + 1, pending := [], held := [{ pos := i, id := id }] }
      (.recycle i 1)).held = [] := by
    simp only [step, hpositions, contains_cons, contains_nil, Bool.or_false,
      filter_cons, BEq.rfl, Bool.not_true, false_eq_true, if_false, filter_nil]
  have hcounts := (step_grown
    { ring := r, taken := i + 1, pending := [], held := [{ pos := i, id := id }] }
    (.recycle i 1)).count.trans hsame.count
  have hreturned := ((hlast.exact (by omega)).returned rfl hheld).length_eq
  have hle := hlast.kept.taken_le
  rw [length_drop, length_range, hcounts] at hreturned
  refine ⟨hlast, rfl, hheld, rfl, ?_⟩
  rw [hcounts]
  simp only [step] at hreturned hle ⊢
  omega

/-- Turns are allowed and leave all buffers with the kernel. -/
theorem Idle.turns (h : Idle 0 s) (hsize : 0 < s.ring.bufSize) (n : Nat)
    (hfits : n + s.ring.count + s.ring.count ≤ 2 ^ 32) :
    allowed step conforms s (turns n) = true ∧
      Idle n ((turns n).foldl step s) := by
  induction n with
  | zero => exact ⟨rfl, h⟩
  | succ n ih =>
    obtain ⟨hallowed, hidle⟩ := ih (by omega)
    have hgrown := run_grown s (SocketIo.turns n)
    obtain ⟨hturn, hnext⟩ := hidle.turn (by rwa [hgrown.bufSize]) (by rw [hgrown.count]; omega)
    have hturns : SocketIo.turns (n + 1) = SocketIo.turns n ++ SocketIo.turn n := by
      rw [SocketIo.turns, range_succ, flatMap_append, flatMap_cons, flatMap_nil, append_nil]
      rfl
    rw [hturns, allowed_append, foldl_append, hallowed, hturn]
    exact ⟨rfl, hnext⟩

theorem Idle.create (hcount : 0 < count) (hsmall : count < 2 ^ 32) :
    Idle 0 (create bufSize count mode 0) where
  maintained := Maintained.create hcount hsmall (Nat.dvd_zero _) (by omega)
  pending := rfl
  held := rfl
  taken := rfl
  length := length_range.trans (zero_add count).symm

/-- Any number of buffers can be published before a completion is decoded. -/
theorem exists_run (mode : Bool) (hsize : 0 < bufSize) (hcount : 0 < count) {n : Nat}
    (hlow : count ≤ n) (hhigh : n + count ≤ 2 ^ 32) :
    ∃ moves c, allowed step conforms
        (create bufSize count mode 0) moves = true ∧
      (moves.foldl step (create bufSize count mode 0)).ring.published.length =
        n ∧
      (moves.foldl step (create bufSize count mode 0)).pending[0]? = some c ∧
      ∃ slices, (moves.foldl step
        (create bufSize count mode 0)).outcome c = .ok slices := by
  set s := create bufSize count mode 0
  have hcreate : Idle 0 s := Idle.create hcount (by omega)
  have hcounts : s.ring.count = count := rfl
  obtain ⟨hturns, hidle⟩ := hcreate.turns hsize (n - count) (by rw [hcounts]; omega)
  have hgrown := run_grown s (turns (n - count))
  have hbufSize : 0 < ((turns (n - count)).foldl step
      s).ring.bufSize := by
    rw [hgrown.bufSize]
    exact hsize
  have hlength := hidle.length
  rw [hgrown.count, hcounts] at hlength
  obtain ⟨c, r, id, hpending, houtcome, -⟩ := hidle.complete_decode hbufSize
    (by rw [hgrown.count, hcounts]; omega)
  refine ⟨turns (n - count) ++ [.complete 1 1], c, ?_, ?_, ?_, ?_⟩
  · rw [allowed_concat, hturns, hidle.conforms_complete hbufSize]
    rfl
  · rw [foldl_append]
    exact hlength.trans (by omega)
  · rw [foldl_append, foldl_cons, foldl_nil, hpending]
    rfl
  · rw [foldl_append]
    exact ⟨_, houtcome⟩

/-- The ring at an offset gives another result when its positions have wrapped around. -/
theorem not_agreesAt (hsize : 0 < bufSize) (hcount : 0 < count) (hroom : offset + count ≤ 2 ^ 32)
    (hmultiple : count ≤ offset) {limit : Nat} (hlimit : 2 ^ 32 < offset + limit)
    (hagrees : ∀ moves, allowed step conforms (create bufSize count mode 0) moves = true →
      (moves.foldl step (create bufSize count mode 0)).ring.published.length < limit →
        AgreesAt bufSize count mode offset moves) : False := by
  have hfew : count ≤ 2 ^ 32 - offset := by omega
  obtain ⟨moves, c, hallowed, hlength, hget, slices, houtcome⟩ :=
    exists_run mode hsize hcount hfew (by omega)
  have hdecode : allowed step conforms
      (create bufSize count mode 0) (moves ++ [.decode 0]) = true := by
    rw [allowed_concat, hallowed, conforms]
    obtain ⟨hlt, -⟩ := List.getElem?_eq_some_iff.mp hget
    exact decide_eq_true hlt
  -- The results before the last move are the same, and so is that of the last one.
  obtain ⟨hprior, hpub⟩ := hagrees moves hallowed (by omega)
  obtain ⟨hlast, -⟩ := hagrees (moves ++ [.decode 0]) hdecode (by
    rw [foldl_append, foldl_cons, foldl_nil, (step_decode_sameLog _ 0).published, hlength]
    omega)
  rw [map_append, map_cons, map_nil, shift, outcomes_concat_decode,
    outcomes_concat_decode, hprior, append_right_inj, hget, Option.map_some, houtcome]
    at hlast
  -- But the tail of the second ring is at zero.
  have hgrown := run_grown (create bufSize count mode offset)
    (moves.map (shift offset))
  have htail := hgrown.tail offset (by
    simp only [create, BufferRing.create, length_range])
  rw [hpub, hlength, addPos, Nat.add_sub_cancel' (by omega), Nat.mod_self] at htail
  have hsmall : ((moves.map (shift offset)).foldl step
      (create bufSize count mode offset)).ring.count < 2 ^ 32 := by
    rw [hgrown.count]
    dsimp only [create, BufferRing.create]
    omega
  cases hget' : ((moves.map (shift offset)).foldl step
      (create bufSize count mode offset)).pending[0]? with
  | none =>
    rw [hget'] at hlast
    cases hlast
  | some c' =>
    obtain ⟨e, herror⟩ := outcome_of_tail_zero htail hsmall c'
    rw [hget', Option.map_some, herror] at hlast
    cases hlast

/-! ## Agreement -/

/-- Without an offset the moves are the same. -/
theorem step_shift_zero (s : RingSystem) (move : RingMove) :
    s.step (move.shift 0) = s.step move := by
  have hpos (startPos i : Nat) : addPos (addPos startPos 0) i = addPos startPos i := by
    rw [addPos_addPos, zero_add]
  cases move with
  | complete cnt total | decode index => rfl
  | recycle startPos cnt =>
    have hfun : addPos (addPos startPos 0) = addPos startPos := funext (hpos startPos)
    simp only [shift, step, rangePositions, BufferRing.recycleRange, hfun]

theorem run_shift_zero (s : RingSystem) (moves : List RingMove) :
    outcomes s (moves.map (shift 0)) = outcomes s moves ∧
      (moves.map (shift 0)).foldl step s = moves.foldl step s := by
  induction moves generalizing s with
  | nil => exact ⟨rfl, rfl⟩
  | cons move moves ih =>
    obtain ⟨hout, hfold⟩ := ih (s.step move)
    rw [map_cons, foldl_cons, foldl_cons, step_shift_zero, hfold]
    refine ⟨?_, rfl⟩
    have hstep := step_shift_zero s move
    cases move with
    | complete cnt total => exact hout
    | decode index => exact congrArg ((s.pending[index]?.map s.outcome).toList ++ ·) hout
    | recycle startPos cnt =>
      simp only [shift, outcomes] at hstep ⊢
      rw [hstep]
      exact hout

/-- The rings agree in all runs that publish fewer buffers than a limit exactly if the positions
of the second do not wrap around before. -/
theorem agreesAt_iff (bufSize exponent offset limit : Nat) (mode : Bool) (hsize : 0 < bufSize)
    (hexponent : exponent ≤ 15) (hoffset : offset < 2 ^ 32) (hdvd : 2 ^ exponent ∣ offset) :
    (∀ moves, allowed RingSystem.step conforms
        (RingSystem.create bufSize (2 ^ exponent) mode 0) moves = true →
      (moves.foldl RingSystem.step
        (RingSystem.create bufSize (2 ^ exponent) mode 0)).ring.published.length < limit →
      AgreesAt bufSize (2 ^ exponent) mode offset moves) ↔
    offset = 0 ∨ offset + limit ≤ 2 ^ 32 := by
  have hcount : 0 < 2 ^ exponent := Nat.two_pow_pos exponent
  have hsmall : 2 ^ exponent < 2 ^ 32 := Nat.pow_lt_pow_right (by omega) (by omega)
  have hroom : offset + 2 ^ exponent ≤ 2 ^ 32 := by
    have hpower : 2 ^ exponent ∣ 2 ^ 32 := Nat.pow_dvd_pow 2 (by omega)
    have hgap := Nat.le_of_dvd (Nat.sub_pos_of_lt hoffset) (Nat.dvd_sub hpower hdvd)
    omega
  constructor
  · intro hagrees
    by_contra hnot
    obtain ⟨hpos, hwraps⟩ := not_or.mp hnot
    exact not_agreesAt hsize hcount hroom
      (Nat.le_of_dvd (Nat.pos_of_ne_zero hpos) hdvd) (Nat.lt_of_not_le hwraps) hagrees
  rintro (rfl | hfits) moves hallowed hfew
  · obtain ⟨hout, hfold⟩ := run_shift_zero (RingSystem.create bufSize (2 ^ exponent) mode 0) moves
    exact ⟨hout, by rw [hfold]⟩
  have hcreate : Shifted offset (RingSystem.create bufSize (2 ^ exponent) mode 0)
      (RingSystem.create bufSize (2 ^ exponent) mode offset) :=
    Shifted.create hcount hsmall hdvd hroom
  exact hcreate.run hdvd hallowed (by omega)

/-- An offset of eight makes no difference to this run. -/
theorem agreesAt_crossedRun : AgreesAt 10 4 true 8 crossedRun :=
  (agreesAt_iff 10 2 8 100 true (by decide) (by decide) (by decide) (by decide)).mpr
    (.inr (by decide)) crossedRun (by decide) (by decide)

/-- The first completion of a ring whose positions start four before the wrap is not decoded. -/
theorem outcomes_wrapped :
    allowed RingSystem.step conforms (RingSystem.create 16 4 false 0)
        [.complete 1 1, .decode 0] = true ∧
      outcomes (RingSystem.create 16 4 false 0) [.complete 1 1, .decode 0] =
        [.ok [(0, 1)]] ∧
      outcomes (RingSystem.create 16 4 false (2 ^ 32 - 4))
        ([.complete 1 1, .decode 0].map (RingMove.shift (2 ^ 32 - 4))) = [.error .badWindow] := by
  refine ⟨by decide, ?_, ?_⟩
  · rfl
  · rfl

end Conflux.SocketIo

import Conflux.SocketIo.BufferRing.Ledger

/-!
# One buffer for each completion

Recycled buffers are published in the order of their places: a window of as many places as there
are buffers moves along the order of publication. Its first place is the recycle head, and the
tail is behind its last. The slots have the ids of the window, and flags say which of its places
were recycled and wait for an older one.
-/

namespace Conflux.SocketIo

open Conflux.Core List BufferRing RingSystem

/-- The places of the window that wait for an older one. -/
def BufferRing.waitingPlaces (base first : Nat) (r : BufferRing) : List Nat :=
  (List.range' first r.count).filter fun p => r.recycleReadyPos ((base + p) % r.count)

/-- The invariant of the mode, with the first place of the window. -/
structure Windowed (base first : Nat) (s : RingSystem) : Prop extends Kept base s where
  mode : s.ring.recvBundle = false
  count_lt : s.ring.count < 2 ^ 32
  head : s.ring.recycleHeadPos = base + first
  length : s.ring.published.length = first + s.ring.count
  ids : ((List.range' first s.ring.count).map s.ring.logged).Perm (List.range s.ring.count)
  idPos : ∀ p, first ≤ p → p < first + s.ring.count → s.ring.idPos (s.ring.logged p) = base + p
  order : ∀ p, first ≤ p → p < first + s.ring.count →
    s.ring.ringOrder ((base + p) % s.ring.count) = s.ring.logged p
  places : (s.live base ++ s.ring.waitingPlaces base first).Perm
    (List.range' first s.ring.count)
  observed : ∀ p, first ≤ p → p < first + s.ring.count →
    (s.ring.observedPos ((base + p) % s.ring.count) = true ↔
      p ∈ s.heldPlaces base ∨ s.ring.recycleReadyPos ((base + p) % s.ring.count) = true)

/-- Between the moves the first place of the window does not wait. -/
structure Settled (base first : Nat) (s : RingSystem) : Prop extends Windowed base first s where
  first_waits : s.ring.recycleReadyPos ((base + first) % s.ring.count) = false

variable {base first p : Nat} {s : RingSystem}

/-- Places of one window have different slots. -/
theorem slot_ne {count q : Nat} (hp : first ≤ p) (hp' : p < first + count) (hq : first ≤ q)
    (hq' : q < first + count) (hne : p ≠ q) : (base + p) % count ≠ (base + q) % count := by
  obtain hlt | hlt := Nat.lt_or_gt_of_ne hne
  · rw [show base + q = base + p + (q - p) by omega]
    exact (OpenTable.add_mod_ne (by omega) (by omega)).symm
  · rw [show base + p = base + q + (p - q) by omega]
    exact OpenTable.add_mod_ne (by omega) (by omega)

theorem slot_ne_first (base : Nat) {count : Nat} (hp : first + 1 ≤ p) (hp' : p < first + count) :
    (base + p) % count ≠ (base + first) % count :=
  slot_ne (Nat.le_of_succ_le hp) hp' (le_refl _) (by omega) (by omega)

/-- The window moves along. -/
theorem range'_slide (first n : Nat) :
    range' first n ++ [first + n] = first :: range' (first + 1) n := by
  rw [← range'_succ, range'_concat, one_mul]

theorem mem_waitingPlaces {r : BufferRing} :
    p ∈ r.waitingPlaces base first ↔ (first ≤ p ∧ p < first + r.count) ∧
      r.recycleReadyPos ((base + p) % r.count) = true := by
  rw [waitingPlaces, mem_filter, mem_range'_1]

namespace Windowed

theorem nodup (h : Windowed base first s) :
    (s.live base ++ s.ring.waitingPlaces base first).Nodup :=
  h.places.nodup_iff.mpr nodup_range'

variable {p : Nat}

section

variable (h : Windowed base first s)
include h

theorem live_bounds (hp : p ∈ s.live base) : first ≤ p ∧ p < first + s.ring.count :=
  mem_range'_1.mp (h.places.mem_iff.mp (mem_append_left _ hp))

/-- A live place does not wait. -/
theorem not_ready (hp : p ∈ s.live base) :
    s.ring.recycleReadyPos ((base + p) % s.ring.count) = false := by
  rw [← Bool.not_eq_true]
  intro hready
  exact (nodup_append.mp h.nodup).2.2 p hp p (mem_waitingPlaces.mpr ⟨h.live_bounds hp, hready⟩) rfl

/-- A buffer has one place in the window. -/
theorem inj {q : Nat} (hp : first ≤ p) (hp' : p < first + s.ring.count)
    (hq : first ≤ q) (hq' : q < first + s.ring.count) (heq : s.ring.logged p = s.ring.logged q) :
    p = q :=
  inj_on_of_nodup_map (h.ids.nodup_iff.mpr nodup_range)
    (mem_range'_1.mpr ⟨hp, hp'⟩) (mem_range'_1.mpr ⟨hq, hq'⟩) heq

/-- The slot of a place in the window has its id. -/
theorem ringIdAt (hp : first ≤ p) (hp' : p < first + s.ring.count) :
    s.ring.ringIdAt (base + p) = s.ring.logged p := by
  rw [BufferRing.ringIdAt, h.mode]
  exact h.order p hp hp'

/-- The places of the completions and the leases are disjoint. -/
theorem pending_not_held (hp : p ∈ s.pendingPlaces) : p ∉ s.heldPlaces base := by
  have hnodup := (nodup_append.mp h.nodup).1
  intro hheld
  exact (nodup_append.mp hnodup).2.2 p (mem_append_right _ hp) p hheld rfl

end

/-! ## Publishing what is ready -/

section

variable (h : Windowed base first s)
include h

/-- The new position has the slot of the old one. -/
theorem flushOne_eq (hfits : base + s.ring.published.length < 2 ^ 32) :
    flushOne s.ring =
      { s.ring with
        ringOrder := BufferRing.set s.ring.ringOrder ((base + first) % s.ring.count)
          (s.ring.logged first)
        idPos := BufferRing.set s.ring.idPos (s.ring.logged first)
          (base + (first + s.ring.count))
        decodedPos := BufferRing.set s.ring.decodedPos ((base + first) % s.ring.count) false
        observedPos := BufferRing.set s.ring.observedPos ((base + first) % s.ring.count) false
        recycleReadyPos :=
          BufferRing.set s.ring.recycleReadyPos ((base + first) % s.ring.count) false
        published := s.ring.published ++ [s.ring.logged first]
        tailPos := addPos s.ring.tailPos 1
        recycleHeadPos := base + (first + 1) } := by
  have hcount := h.count_pos
  have hlength := h.length
  have htail : s.ring.tailPos = base + (first + s.ring.count) := by
    rw [h.tail, addPos_eq hfits, hlength]
  have hslot : s.ring.tailPos % s.ring.count = (base + first) % s.ring.count := by
    rw [htail, ← add_assoc, Nat.add_mod_right]
  have hhead : addPos (base + first) 1 = base + (first + 1) := by
    rw [addPos_eq (by omega), add_assoc]
  simp only [flushOne, publish, h.head, h.ringIdAt (le_refl _) (by omega), hslot,
    hhead, BufferRing.set, Function.update_idem]
  rw [htail]

/-- The first place of the window goes, and its buffer gets the next place. -/
theorem waitingPlaces_flushOne
    (hready : s.ring.recycleReadyPos ((base + first) % s.ring.count) = true)
    (hfits : base + s.ring.published.length < 2 ^ 32) :
    s.ring.waitingPlaces base first =
      first :: (flushOne s.ring).waitingPlaces base (first + 1) := by
  obtain ⟨n, hn⟩ := Nat.exists_eq_succ_of_ne_zero (ne_of_gt h.count_pos)
  have hlast : (base + (first + 1 + n)) % (n + 1) = (base + first) % (n + 1) := by
    rw [show base + (first + 1 + n) = base + first + (n + 1) by omega, Nat.add_mod_right]
  rw [h.flushOne_eq hfits]
  simp only [waitingPlaces]
  rw [hn] at hready ⊢
  rw [range'_succ, filter_cons, if_pos hready, range'_concat, filter_append, one_mul]
  simp only [hlast, filter_cons, set_self, Bool.false_eq_true, if_false, filter_nil, append_nil]
  refine congrArg (first :: ·) (filter_congr fun p hp => ?_)
  obtain ⟨hlow, hhigh⟩ := mem_range'_1.mp hp
  rw [set_of_ne _ _ (slot_ne_first base hlow (show p < first + (n + 1) by omega))]

section

variable (hfits : base + s.ring.published.length < 2 ^ 32)
include hfits

theorem published_flushOne :
    (flushOne s.ring).published = s.ring.published ++ [s.ring.logged first] := by
  rw [h.flushOne_eq hfits]

theorem logged_flushOne (hp : p < first + s.ring.count) :
    (flushOne s.ring).logged p = s.ring.logged p := by
  have hlength := h.length
  exact logged_of_append (h.published_flushOne hfits) (by omega)

theorem logged_flushOne_last :
    (flushOne s.ring).logged (first + s.ring.count) = s.ring.logged first := by
  rw [← h.length]
  exact logged_last (h.published_flushOne hfits)

theorem ids_flushOne : ((range' (first + 1) s.ring.count).map (flushOne s.ring).logged).Perm
    (List.range s.ring.count) := by
  have hcount := h.count_pos
  have hmap : (range' first s.ring.count).map (flushOne s.ring).logged =
      (range' first s.ring.count).map s.ring.logged :=
    map_congr_left fun p hp => h.logged_flushOne hfits (mem_range'_1.mp hp).2
  have hboth := congrArg (map (flushOne s.ring).logged) (range'_slide first s.ring.count)
  rw [map_append, hmap, map_singleton, h.logged_flushOne_last hfits, map_cons,
    h.logged_flushOne hfits (by omega)] at hboth
  have hperm : (s.ring.logged first :: (range' first s.ring.count).map s.ring.logged).Perm
      (s.ring.logged first :: (range' (first + 1) s.ring.count).map (flushOne s.ring).logged) :=
    hboth ▸ (perm_append_singleton _ _).symm
  exact ((perm_cons _).mp hperm).symm.trans h.ids

/-- The slot of the old position is that of the new one, and the other slots are left. -/
theorem slots_flushOne (hp : first + 1 ≤ p) (hp' : p < first + 1 + s.ring.count) :
    (flushOne s.ring).idPos ((flushOne s.ring).logged p) = base + p ∧
      (flushOne s.ring).ringOrder ((base + p) % s.ring.count) = (flushOne s.ring).logged p := by
  have hcount := h.count_pos
  by_cases hlast : p = first + s.ring.count
  · have hslot : (base + p) % s.ring.count = (base + first) % s.ring.count := by
      rw [hlast, ← add_assoc, Nat.add_mod_right]
    rw [hslot, hlast, h.logged_flushOne_last hfits, h.flushOne_eq hfits]
    exact ⟨set_self _ _ _, set_self _ _ _⟩
  have hlt : p < first + s.ring.count := by omega
  have hne : s.ring.logged p ≠ s.ring.logged first := fun heq => by
    have := h.inj (by omega) hlt (le_refl _) (by omega) heq
    omega
  have hother := slot_ne_first base hp hlt
  rw [h.logged_flushOne hfits hlt, h.flushOne_eq hfits]
  exact ⟨(set_of_ne _ _ hne).trans (h.idPos p (by omega) hlt),
    (set_of_ne _ _ hother).trans (h.order p (by omega) hlt)⟩

theorem places_flushOne
    (hready : s.ring.recycleReadyPos ((base + first) % s.ring.count) = true) :
    (live base { s with ring := flushOne s.ring } ++
      (flushOne s.ring).waitingPlaces base (first + 1)).Perm (range' (first + 1) s.ring.count) := by
  have hqueue : queuePlaces { s with ring := flushOne s.ring } =
      s.queuePlaces ++ [s.ring.published.length] :=
    queuePlaces_append (h.published_flushOne hfits) rfl h.taken_le
  have hlive : live base { s with ring := flushOne s.ring } =
      s.queuePlaces ++ [first + s.ring.count] ++ s.pendingPlaces ++ s.heldPlaces base := by
    rw [live, hqueue, h.length]
    rfl
  rw [hlive]
  refine perm_iff_count.mpr fun p => ?_
  have hplaces := perm_iff_count.mp h.places p
  have hboth := congrArg (count p) (range'_slide first s.ring.count)
  rw [h.waitingPlaces_flushOne hready hfits] at hplaces
  simp only [live, count_append, count_cons, count_nil] at hplaces hboth ⊢
  omega

theorem observed_flushOne (hp : first + 1 ≤ p) (hp' : p < first + 1 + s.ring.count) :
    (flushOne s.ring).observedPos ((base + p) % s.ring.count) = true ↔ p ∈ s.heldPlaces base ∨
      (flushOne s.ring).recycleReadyPos ((base + p) % s.ring.count) = true := by
  have hcount := h.count_pos
  have hlength := h.length
  rw [h.flushOne_eq hfits]
  dsimp only
  by_cases hlast : p = first + s.ring.count
  · rw [hlast, ← add_assoc, Nat.add_mod_right, set_self, set_self]
    refine ⟨fun hno => absurd hno Bool.false_ne_true, ?_⟩
    rintro (hp | hno)
    · have hlt := h.live_lt (mem_append_right _ hp)
      omega
    · exact absurd hno Bool.false_ne_true
  · have hlt : p < first + s.ring.count := by omega
    have hother := slot_ne_first base hp hlt
    rw [set_of_ne _ _ hother, set_of_ne _ _ hother]
    exact h.observed p (by omega) (by omega)

/-- A round keeps the invariant. -/
theorem flushed (hready : s.ring.recycleReadyPos ((base + first) % s.ring.count) = true) :
    Windowed base (first + 1) { s with ring := flushOne s.ring } := by
  have hgrown := flushOne_grown s.ring
  have hkept : Kept base { s with ring := flushOne s.ring } :=
    h.toKept.of_grown hgrown rfl (fun _ => id) fun _ => .inl
  have hhead : (flushOne s.ring).recycleHeadPos = base + (first + 1) := by
    rw [h.flushOne_eq hfits]
  refine { hkept with
    mode := hgrown.mode.trans h.mode, count_lt := hgrown.count ▸ h.count_lt, head := hhead
    length := ?_, ids := hgrown.count ▸ h.ids_flushOne hfits, idPos := ?_, order := ?_
    places := hgrown.count ▸ h.places_flushOne hfits hready, observed := ?_ }
  · rw [h.published_flushOne hfits, length_append, length_singleton, h.length, hgrown.count]
    omega
  all_goals
    intro p hp hp'
    rw [hgrown.count] at *
  · exact (h.slots_flushOne hfits hp hp').1
  · exact (h.slots_flushOne hfits hp hp').2
  · exact h.observed_flushOne hfits hp hp'

end

/-- The window is never empty. -/
theorem head_ne_tail : s.ring.recycleHeadPos ≠ s.ring.tailPos := by
  have hcount := h.count_pos
  have hsmall := h.count_lt
  rw [h.head, h.tail, addPos, h.length]
  omega

/-- The loop of `flush_recycle_ready` settles the window. -/
theorem flush {rounds : Nat} (hrounds : (s.ring.waitingPlaces base first).length ≤ rounds)
    (hfits : base + (s.ring.flushRounds rounds).published.length ≤ 2 ^ 32) :
    ∃ first', Settled base first' { s with ring := s.ring.flushRounds rounds } := by
  have hcount := h.count_pos
  induction rounds generalizing first s with
  | zero =>
    refine ⟨first, h, ?_⟩
    have hnil : s.ring.waitingPlaces base first = [] := length_eq_zero_iff.mp (by omega)
    rw [← Bool.not_eq_true]
    intro hready
    have hmem : first ∈ s.ring.waitingPlaces base first :=
      mem_waitingPlaces.mpr ⟨⟨le_refl _, by omega⟩, hready⟩
    rw [hnil] at hmem
    exact absurd hmem not_mem_nil
  | succ rounds ih =>
    have hround := flushRounds_succ rounds s.ring
    have hne := h.head_ne_tail
    rw [h.head] at hround
    rw [h.head] at hne
    cases hready : s.ring.recycleReadyPos ((base + first) % s.ring.count) with
    | false =>
      rw [hready, if_neg (fun hno => Bool.false_ne_true hno.2)] at hround
      rw [hround]
      exact ⟨first, h, hready⟩
    | true =>
      rw [hready, if_pos ⟨hne, rfl⟩] at hround
      rw [hround] at hfits ⊢
      have hlater := (flushRounds_grown rounds (flushOne s.ring)).published.length_le
      have hlength : (flushOne s.ring).published.length = s.ring.published.length + 1 := by
        rw [flushOne, publish, length_append, length_singleton]
      have hwaiting := h.waitingPlaces_flushOne hready (by omega)
      rw [hwaiting, length_cons] at hrounds
      have hnext := h.flushed (by omega) hready
      exact ih hnext (by dsimp only; omega) hfits hnext.count_pos

end

/-! ## Recycling -/

/-- A position is marked as ready. -/
def markReady (r : BufferRing) (pos : Nat) : BufferRing :=
  { r with recycleReadyPos := BufferRing.set r.recycleReadyPos (pos % r.count) true }

theorem markReady_grown (r : BufferRing) (pos : Nat) : Grown r (markReady r pos) :=
  ⟨prefix_refl _, fun _ h => h, rfl, rfl, rfl⟩

section

variable (h : Windowed base first s)
include h

/-- A buffer that is given back waits. -/
theorem waitingPlaces_marked (hp : p ∈ s.heldPlaces base) :
    ((markReady s.ring (base + p)).waitingPlaces base first).Perm
      (p :: s.ring.waitingPlaces base first) := by
  have hlive : p ∈ s.live base := mem_append_right _ hp
  obtain ⟨hlow, hhigh⟩ := h.live_bounds hlive
  have hnot : p ∉ s.ring.waitingPlaces base first := by
    intro hmem
    have hready := (mem_waitingPlaces.mp hmem).2
    rw [h.not_ready hlive] at hready
    exact Bool.false_ne_true hready
  have hnodup (r : BufferRing) : (r.waitingPlaces base first).Nodup :=
    Nodup.filter _ nodup_range'
  refine (perm_ext_iff_of_nodup (hnodup _) (nodup_cons.mpr ⟨hnot, hnodup _⟩)).mpr fun q => ?_
  rw [mem_cons, mem_waitingPlaces, mem_waitingPlaces]
  simp only [markReady]
  by_cases hq : q = p
  · rw [hq, set_self]
    exact ⟨fun _ => .inl rfl, fun _ => ⟨⟨hlow, hhigh⟩, rfl⟩⟩
  constructor
  · rintro ⟨hbounds, hready⟩
    rw [set_of_ne _ _ (slot_ne hbounds.1 hbounds.2 hlow hhigh hq)] at hready
    exact .inr ⟨hbounds, hready⟩
  rintro (rfl | ⟨hbounds, hready⟩)
  · exact absurd rfl hq
  · rw [set_of_ne _ _ (slot_ne hbounds.1 hbounds.2 hlow hhigh hq)]
    exact ⟨hbounds, hready⟩

/-- Giving back a buffer keeps the invariant. -/
theorem marked (hp : p ∈ s.heldPlaces base) :
    Windowed base first (s.giveBack markReady (base + p)) := by
  have hlive : p ∈ s.live base := mem_append_right _ hp
  obtain ⟨hlow, hhigh⟩ := h.live_bounds hlive
  have hheld := h.heldPlaces_giveBack markReady p
  have hkept : Kept base (s.giveBack markReady (base + p)) :=
    h.toKept.of_grown (markReady_grown s.ring _) rfl (fun _ => id)
      fun lease hlease => .inl (mem_filter.mp hlease).1
  refine { hkept with
    mode := h.mode, count_lt := h.count_lt, head := h.head, length := h.length, ids := h.ids
    idPos := h.idPos, order := h.order, places := ?_, observed := ?_ }
  · have hnodup : (s.heldPlaces base).Nodup :=
      (nodup_append.mp (nodup_append.mp h.nodup).1).2.1
    have hperm := perm_cons_erase hp
    rw [hnodup.erase_eq_filter] at hperm
    refine perm_iff_count.mpr fun q => ?_
    have hplaces := perm_iff_count.mp h.places q
    have hwaits := perm_iff_count.mp (h.waitingPlaces_marked hp) q
    have hgone := perm_iff_count.mp hperm q
    rw [count_cons] at hwaits hgone
    rw [count_append, live, hheld, count_append, count_append]
    rw [count_append, live, count_append, count_append] at hplaces
    have hqueue : (s.giveBack markReady (base + p)).queuePlaces = s.queuePlaces := rfl
    have hpending : (s.giveBack markReady (base + p)).pendingPlaces = s.pendingPlaces := rfl
    have hring : (s.giveBack markReady (base + p)).ring = markReady s.ring (base + p) := rfl
    have hcounts : (markReady s.ring (base + p)).count = s.ring.count := rfl
    rw [hqueue, hpending, hring, hcounts]
    omega
  intro q hq hq'
  have hobserved := h.observed q hq hq'
  rw [hheld, mem_filter, bne_iff_ne]
  simp only [giveBack, markReady]
  by_cases heq : q = p
  · rw [heq, set_self]
    rw [heq] at hobserved
    exact ⟨fun _ => .inr rfl, fun _ => hobserved.mpr (.inl hp)⟩
  have hslot : (base + q) % s.ring.count ≠ (base + p) % s.ring.count :=
    slot_ne hq hq' hlow hhigh heq
  rw [set_of_ne _ _ hslot, hobserved]
  simp only [heq, ne_eq, not_false_eq_true, and_true]

theorem marked_all {positions : List Nat} (hnodup : positions.Nodup)
    (hheld : ∀ pos ∈ positions, ∃ p ∈ s.heldPlaces base, pos = base + p) :
    Windowed base first (positions.foldl (giveBack markReady) s) := by
  induction positions generalizing s with
  | nil => exact h
  | cons pos positions ih =>
    obtain ⟨p, hp, rfl⟩ := hheld pos mem_cons_self
    obtain ⟨hnot, hnodup⟩ := nodup_cons.mp hnodup
    exact ih (h.marked hp) hnodup (h.held_giveBack _ hnot hheld)

end

/-- The move of the application that recycles a range. -/
theorem step_recycle (hmode : s.ring.recvBundle = false) {startPos cnt : Nat} (hcnt : cnt ≠ 0) :
    s.step (.recycle startPos cnt) =
      { (rangePositions startPos cnt).foldl (giveBack markReady) s with
        ring := ((rangePositions startPos cnt).foldl
          (giveBack markReady) s).ring.flushRecycleReady } := by
  rw [foldl_giveBack]
  simp only [step, recycleRange, if_neg hcnt, hmode, Bool.false_eq_true,
    if_false, rangePositions, foldl_map]
  rfl

/-! ## Decoding -/

variable {c : Completion}

section

variable (h : Windowed base first s)
include h

/-- A completion has one buffer. -/
theorem length_one (hc : c ∈ s.pending) : c.ids.length = 1 :=
  (h.filled c hc).single.resolve_left fun hbundle => by
    rw [h.mode] at hbundle
    exact Bool.false_ne_true hbundle

theorem pending_place (hc : c ∈ s.pending) :
    c.first ∈ s.pendingPlaces :=
  mem_pendingPlaces.mpr ⟨c, hc, le_refl _, by rw [h.length_one hc]; omega⟩

/-- A completion is found at its place. -/
theorem findStartPos (hc : c ∈ s.pending)
    (hfits : base + s.ring.published.length < 2 ^ 32) :
    s.ring.findStartPos (s.ring.logged c.first) 1 = (some (base + c.first), s.ring) := by
  have hcount := h.count_pos
  have hlength := h.length
  have hpending := h.pending_place hc
  have hlive : c.first ∈ s.live base :=
    mem_append_left _ (mem_append_right _ hpending)
  obtain ⟨hlow, hhigh⟩ := h.live_bounds hlive
  have hid : s.ring.logged c.first < s.ring.count := by
    have hmem := h.ids.mem_iff.mp (mem_map_of_mem (mem_range'_1.mpr ⟨hlow, hhigh⟩))
    exact mem_range.mp hmem
  have hguard : ¬ (1 = 0 ∨ s.ring.count < 1 ∨ s.ring.count ≤ s.ring.logged c.first) := by omega
  have hend : addPos (base + c.first) 1 = base + c.first + 1 := addPos_eq (by omega)
  have hwindow : ¬ (addPos (base + c.first) 1 < base + c.first ∨
      s.ring.tailPos < addPos (base + c.first) 1) := by
    rw [hend, h.tail, addPos_eq hfits]
    omega
  have hhead : ¬ base + c.first < s.ring.recycleHeadPos := by
    rw [h.head]
    omega
  have hobserved : s.ring.observedPos ((base + c.first) % s.ring.count) = false := by
    rw [← Bool.not_eq_true, h.observed c.first hlow hhigh, h.not_ready hlive]
    rintro (hheld | hno)
    · exact h.pending_not_held hpending hheld
    · exact Bool.false_ne_true hno
  have hall : ((range 1).any fun i =>
      s.ring.observedPos (addPos (base + c.first) i % s.ring.count)) = false := by
    have hzero : addPos (base + c.first) 0 = base + c.first := addPos_eq (by omega)
    simp only [range_one, any_cons, any_nil, hzero, hobserved, Bool.or_false]
  rw [BufferRing.findStartPos, if_neg hguard, h.mode, Bool.false_and]
  simp only [Bool.false_eq_true, if_false, h.idPos c.first hlow hhigh, if_neg hwindow, if_neg hhead,
    hall, h.ringIdAt hlow hhigh, ne_eq, not_true_eq_false]

end

/-- The ring after a position was consumed. -/
def observedRing (r : BufferRing) (pos : Nat) (decodedPos : Nat → Bool) (headPos : Nat) :
    BufferRing :=
  { r with
    decodedPos := decodedPos
    observedPos := BufferRing.set r.observedPos (pos % r.count) true
    headPos := headPos }

/-- A completion is decoded, and its position is observed. -/
theorem decoded (h : Windowed base first s) (hc : c ∈ s.pending)
    (hfits : base + s.ring.published.length < 2 ^ 32) :
    ∃ decodedPos headPos,
      DecodedAt base s c (observedRing s.ring (base + c.first) decodedPos headPos) := by
  have hone := h.length_one hc
  have hcount := h.count_pos
  have hfind : s.ring.findStartPos (s.ring.logged c.first) c.ids.length =
      (some (base + c.first), s.ring) := hone ▸ h.findStartPos hc hfits
  have hlt := (h.live_bounds (mem_append_left _ (mem_append_right _ (h.pending_place hc)))).2
  have hlength := h.length
  have hzero : addPos (base + c.first) 0 = base + c.first := addPos_eq (by omega)
  obtain ⟨decodedPos, headPos, heq⟩ := consumeAt_eq s.ring (base + c.first) c.ids.length
  refine ⟨decodedPos, headPos, ?_, ⟨rfl, rfl, rfl, rfl, rfl⟩, fun i hi => ?_⟩
  · rw [(h.filled c hc).decoded_of_find (by rw [h.mode, hone]; rfl) (by omega) (by omega) hfind,
      heq, if_neg (by rw [h.mode]; exact Bool.false_ne_true), hone]
    simp only [range_one, foldl_cons, foldl_nil, hzero, observedRing]
  · obtain ⟨hlow, hhigh⟩ := h.live_bounds (place_live base hc hi)
    exact h.ringIdAt hlow hhigh

end Windowed

namespace Settled

variable {cnt : Nat}

section

variable (h : Settled base first s)
include h

/-- Recycling a range keeps the invariant. -/
theorem recycle {startPos : Nat}
    (hconforms : s.conforms (.recycle startPos cnt) = true)
    (hfits : base + (s.step (.recycle startPos cnt)).ring.published.length ≤ 2 ^ 32) :
    ∃ first', Settled base first' (s.step (.recycle startPos cnt)) := by
  by_cases hcnt : cnt = 0
  · have hstep : s.step (.recycle startPos cnt) = s := by
      simp [RingSystem.step, recycleRange, hcnt, rangePositions]
    rw [hstep]
    exact ⟨first, h⟩
  obtain ⟨hnodup, hheld⟩ := h.recycled_held hconforms
  rw [Windowed.step_recycle h.mode hcnt] at hfits ⊢
  have hmarked := h.toWindowed.marked_all hnodup hheld
  refine hmarked.flush ?_ hfits
  exact (length_filter_le _ _).trans (length_range' ..).le

/-- Decoding a completion keeps the invariant. -/
theorem decode {index : Nat} (hindex : index < s.pending.length)
    (hfits : base + s.ring.published.length < 2 ^ 32) :
    Settled base first (s.step (.decode index)) := by
  obtain ⟨c, hget⟩ : ∃ c, s.pending[index]? = some c :=
    ⟨s.pending[index], getElem?_eq_getElem hindex⟩
  have hc : c ∈ s.pending := mem_of_getElem? hget
  obtain ⟨decodedPos, headPos, hdecoded⟩ := h.toWindowed.decoded hc hfits
  have hfirst : c.first ∈ s.live base := place_live base hc (h.filled c hc).nonempty
  obtain ⟨hlow, hhigh⟩ := h.live_bounds hfirst
  have hheld : (s.step (.decode index)).heldPlaces base = s.heldPlaces base ++ [c.first] := by
    rw [hdecoded.heldPlaces_eq h.toKept hget hfits, h.toWindowed.length_one hc]
    rfl
  have hlive := hdecoded.live_perm h.toKept hget hfits
  have hkept := hdecoded.kept_step h.toKept hget hfits
  have hstep := hdecoded.step_eq h.toKept hget hfits
  rw [hstep] at hheld hlive hkept ⊢
  refine ⟨{ hkept with
    mode := h.mode, count_lt := h.count_lt, head := h.head, length := h.length, ids := h.ids
    idPos := h.idPos, order := h.order, places := (hlive.append_right _).trans h.places
    observed := ?_ }, h.first_waits⟩
  · rw [hheld]
    dsimp only [Windowed.observedRing]
    intro p hp hp'
    rw [mem_append, mem_singleton]
    by_cases heq : p = c.first
    · rw [heq, set_self]
      exact ⟨fun _ => .inl (.inr rfl), fun _ => rfl⟩
    · rw [set_of_ne _ _ (slot_ne hp hp' hlow hhigh heq), h.observed p hp hp']
      simp only [heq, or_false]

/-- A completion keeps the invariant. -/
theorem complete {total : Nat}
    (hconforms : s.conforms (.complete cnt total) = true) :
    Settled base first (s.step (.complete cnt total)) := by
  have hkept := h.toKept.complete hconforms
  have hperm : ((s.step (.complete cnt total)).live base).Perm (s.live base) :=
    live_complete hkept.taken_le
  exact ⟨{ hkept with
    mode := h.mode, count_lt := h.count_lt, head := h.head, length := h.length, ids := h.ids
    idPos := h.idPos, order := h.order, places := (hperm.append_right _).trans h.places
    observed := h.observed }, h.first_waits⟩

/-- A move keeps the invariant as long as the positions suffice. -/
theorem step {move : RingMove} (hconforms : s.conforms move = true)
    (hbefore : base + s.ring.published.length < 2 ^ 32)
    (hfits : base + (s.step move).ring.published.length ≤ 2 ^ 32) :
    ∃ first', Settled base first' (s.step move) := by
  cases move with
  | complete cnt total => exact ⟨first, h.complete hconforms⟩
  | decode index => exact ⟨first, h.decode (of_decide_eq_true hconforms) hbefore⟩
  | recycle startPos cnt => exact h.recycle hconforms hfits

end

theorem create {bufSize count : Nat} (hcount : 0 < count) (hsmall : count < 2 ^ 32)
    (hbase : count ∣ base) (hfits : base + count ≤ 2 ^ 32) :
    Settled base 0 (RingSystem.create bufSize count false base) := by
  have hmap : (List.range' 0 count).map
      (RingSystem.create bufSize count false base).ring.logged = List.range count := by
    rw [← range_eq_range', map_congr_left fun p hp => logged_create (mem_range.mp hp),
      map_id']
  have hwaiting : (RingSystem.create bufSize count false base).ring.waitingPlaces base 0 = [] :=
    filter_eq_nil_iff.mpr fun p _ => Bool.false_ne_true
  have hlive : (RingSystem.create bufSize count false base).live base = List.range' 0 count := by
    simp [live, queuePlaces, pendingPlaces,
      heldPlaces, RingSystem.create, BufferRing.create]
  refine ⟨{ Kept.create hcount with
            mode := rfl, count_lt := hsmall, head := rfl, length := ?_, ids := ?_, idPos := ?_
            order := ?_, places := ?_, observed := ?_ }, rfl⟩
  · simp only [RingSystem.create, BufferRing.create, length_range, Nat.zero_add]
  · exact hmap ▸ Perm.refl _
  · intro p _ hp
    have hlt : p < count := Nat.zero_add count ▸ hp
    rw [logged_create hlt]
    exact addPos_eq (by omega)
  · intro p _ hp
    have hlt : p < count := Nat.zero_add count ▸ hp
    rw [logged_create hlt]
    obtain ⟨k, rfl⟩ := hbase
    exact (Nat.mul_add_mod _ _ _).trans (Nat.mod_eq_of_lt hlt)
  · rw [hlive, hwaiting, append_nil]
    exact Perm.refl _
  intro p _ _
  refine ⟨fun hno => absurd hno Bool.false_ne_true, ?_⟩
  rintro (hno | hno)
  · exact absurd hno not_mem_nil
  · exact absurd hno Bool.false_ne_true

end Settled

end Conflux.SocketIo

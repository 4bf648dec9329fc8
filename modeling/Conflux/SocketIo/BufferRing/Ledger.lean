import Conflux.SocketIo.BufferRing.Model
import Mathlib.Data.List.GetD
import Mathlib.Data.List.Nodup
import Mathlib.Data.List.Perm.Basic

/-!
# The order of publication

A buffer gets a new place in the order of publication each time it is published. As long as the
32 bits of the positions suffice, place `p` has position `base + p`. A place is live while its
buffer is with the kernel, in a completion, or in the hands of the application.
-/

namespace Conflux.SocketIo

open Conflux.Core List Bool Function BufferRing RingSystem

theorem addPos_eq {a b : Nat} (h : a + b < 2 ^ 32) : addPos a b = a + b :=
  Nat.mod_eq_of_lt h

theorem addPos_addPos (a b c : Nat) : addPos (addPos a b) c = addPos a (b + c) := by
  rw [addPos, addPos, addPos, Nat.mod_add_mod, add_assoc]

variable {α : Type} {r r' : BufferRing} {ids : List Nat} {p id cnt : Nat} {s' : RingSystem}

@[simp] theorem BufferRing.set_self (array : Nat → α) (i : Nat) (v : α) :
    BufferRing.set array i v i = v :=
  update_self ..

theorem BufferRing.set_of_ne (array : Nat → α) {i j : Nat} (v : α) (h : j ≠ i) :
    BufferRing.set array i v j = array j :=
  update_of_ne h ..

/-- The id at a place. -/
def BufferRing.logged (r : BufferRing) (p : Nat) : Nat := r.published.getD p 0

theorem logged_of_append (h : r'.published = r.published ++ ids) (hp : p < r.published.length) :
    r'.logged p = r.logged p := by
  rw [logged, logged, h, getD_append _ _ _ _ hp]

theorem logged_last (h : r'.published = r.published ++ [id]) :
    r'.logged r.published.length = id := by
  rw [logged, h, getD_append_right _ _ _ _ (Nat.le_refl _), Nat.sub_self]
  rfl

namespace RingSystem

/-- The places that the kernel has not taken. -/
def queuePlaces (s : RingSystem) : List Nat :=
  List.range' s.taken (s.ring.published.length - s.taken)

/-- The places in completions. -/
def pendingPlaces (s : RingSystem) : List Nat :=
  s.pending.flatMap fun c => List.range' c.first c.ids.length

/-- The places of held leases. -/
def heldPlaces (base : Nat) (s : RingSystem) : List Nat :=
  s.held.map fun lease => lease.pos - base

/-- All places in use. -/
def live (base : Nat) (s : RingSystem) : List Nat :=
  s.queuePlaces ++ s.pendingPlaces ++ s.heldPlaces base

end RingSystem

/-- A completion that the kernel has made of places. -/
structure Filled (s : RingSystem) (c : Completion) : Prop where
  ids : c.ids = (List.range' c.first c.ids.length).map s.ring.logged
  nonempty : 0 < c.ids.length
  within : c.first + c.ids.length ≤ s.taken
  lower : (c.ids.length - 1) * s.ring.bufSize < c.total
  upper : c.total ≤ c.ids.length * s.ring.bufSize
  single : s.ring.recvBundle = true ∨ c.ids.length = 1

/-- What holds in both modes. -/
structure Kept (base : Nat) (s : RingSystem) : Prop where
  count_pos : 0 < s.ring.count
  tail : s.ring.tailPos = addPos base s.ring.published.length
  taken_le : s.taken ≤ s.ring.published.length
  filled : ∀ c ∈ s.pending, Filled s c
  leases : ∀ lease ∈ s.held, ∃ p < s.taken, lease.pos = base + p ∧ lease.id = s.ring.logged p

variable {base : Nat} {s : RingSystem}

theorem mem_queuePlaces :
    p ∈ s.queuePlaces ↔ s.taken ≤ p ∧ p < s.taken + (s.ring.published.length - s.taken) := by
  simp [queuePlaces, mem_range'_1]

theorem mem_pendingPlaces :
    p ∈ s.pendingPlaces ↔ ∃ c ∈ s.pending, c.first ≤ p ∧ p < c.first + c.ids.length := by
  simp [pendingPlaces, mem_range'_1]

theorem Kept.mem_heldPlaces (h : Kept base s) (hp : p ∈ s.heldPlaces base) :
    p < s.taken ∧ ∃ lease ∈ s.held, lease.pos = base + p ∧ lease.id = s.ring.logged p := by
  obtain ⟨lease, hmem, rfl⟩ := mem_map.mp hp
  obtain ⟨p, hlt, hpos, hid⟩ := h.leases lease hmem
  rw [hpos, Nat.add_sub_cancel_left]
  exact ⟨hlt, lease, hmem, hpos, hid⟩

/-- Live places are in the order of publication. -/
theorem Kept.live_lt (h : Kept base s) (hp : p ∈ s.live base) : p < s.ring.published.length := by
  have hle := h.taken_le
  rw [live, mem_append, mem_append] at hp
  obtain (hp | hp) | hp := hp
  · have hq := mem_queuePlaces.mp hp
    omega
  · obtain ⟨c, hc, hlow, hhigh⟩ := mem_pendingPlaces.mp hp
    have hwithin := (h.filled c hc).within
    omega
  · have hlt := (h.mem_heldPlaces hp).1
    omega

/-! ## Ids of places -/

theorem queuePlaces_logged (h : s.taken ≤ s.ring.published.length) :
    s.queuePlaces.map s.ring.logged = s.ring.published.drop s.taken := by
  apply ext_getElem
  · simp only [queuePlaces, length_map, length_range', length_drop]
  intro i hi _
  simp only [queuePlaces, length_map, length_range'] at hi
  have hlt : s.taken + i < s.ring.published.length := by omega
  simp only [queuePlaces, getElem_map, getElem_range', one_mul,
    getElem_drop, logged, getD_eq_getElem _ _ hlt]

theorem Kept.pendingPlaces_logged (h : Kept base s) :
    s.pendingPlaces.map s.ring.logged = s.pending.flatMap Completion.ids := by
  rw [pendingPlaces, map_flatMap]
  refine flatMap_congr fun c hc => ?_
  exact (h.filled c hc).ids.symm

theorem Kept.heldPlaces_logged (h : Kept base s) :
    (s.heldPlaces base).map s.ring.logged = s.held.map Lease.id := by
  rw [heldPlaces, map_map]
  refine map_congr_left fun lease hlease => ?_
  obtain ⟨p, -, hpos, hid⟩ := h.leases lease hlease
  rw [comp_apply, hpos, Nat.add_sub_cancel_left, hid]

theorem Kept.live_logged (h : Kept base s) :
    (s.live base).map s.ring.logged =
      s.ring.published.drop s.taken ++ s.pending.flatMap Completion.ids ++ s.held.map Lease.id := by
  rw [live, map_append, map_append, queuePlaces_logged h.taken_le,
    h.pendingPlaces_logged, h.heldPlaces_logged]

/-! ## Completions -/

variable {c : Completion}

/-- The number of buffers is told from the number of bytes. -/
theorem Filled.count_eq (h : Filled s c) :
    (c.total + s.ring.bufSize - 1) / s.ring.bufSize = c.ids.length := by
  have hlower := h.lower
  have hupper := h.upper
  have hpos := h.nonempty
  obtain ⟨n, hn⟩ := Nat.exists_eq_succ_of_ne_zero (ne_of_gt hpos)
  rw [hn, Nat.succ_sub_one] at hlower
  rw [hn, Nat.succ_mul] at hupper
  rw [hn]
  refine Nat.div_eq_of_lt_le ?_ ?_
  · rw [Nat.succ_mul]
    omega
  · rw [Nat.succ_mul, Nat.succ_mul]
    omega

/-- The first id of a completion is that of its first place. -/
theorem Filled.head (h : Filled s c) : c.ids.head? = some (s.ring.logged c.first) := by
  obtain ⟨n, hn⟩ := Nat.exists_eq_succ_of_ne_zero (ne_of_gt h.nonempty)
  have hids := h.ids
  rw [hn, range'_succ, map_cons] at hids
  rw [hids]
  rfl

theorem Filled.getD (h : Filled s c) {i : Nat} (hi : i < c.ids.length) :
    c.ids.getD i 0 = s.ring.logged (c.first + i) := by
  have hids := h.ids
  rw [getD_eq_getElem _ _ hi]
  have hmap : ((range' c.first c.ids.length).map s.ring.logged)[i]? =
      some (s.ring.logged (c.first + i)) := by
    rw [getElem?_map, getElem?_range' hi, one_mul]
    rfl
  rw [← hids, getElem?_eq_getElem hi] at hmap
  exact Option.some.inj hmap

/-- What decoding leaves: the order of publication and the sizes. -/
structure SameLog (r r' : BufferRing) : Prop where
  published : r'.published = r.published
  tail : r'.tailPos = r.tailPos
  count : r'.count = r.count
  bufSize : r'.bufSize = r.bufSize
  mode : r'.recvBundle = r.recvBundle

theorem SameLog.logged (h : SameLog r r') (p : Nat) : r'.logged p = r.logged p := by
  rw [BufferRing.logged, BufferRing.logged, h.published]

/-- Decoding succeeds if the start is found. -/
theorem Filled.decoded_of_find (h : Filled s c) {start : Nat}
    (hcnt : (if s.ring.recvBundle then (c.total + s.ring.bufSize - 1) / s.ring.bufSize else 1) =
      c.ids.length)
    (hlength : c.ids.length ≤ s.ring.count) (hsmall : c.ids.length < 2 ^ 32)
    (hfind : s.ring.findStartPos (s.ring.logged c.first) c.ids.length = (some start, r)) :
    s.decoded c = (.ok { startPos := start, count := c.ids.length, total := c.total },
      r.consumeAt start c.ids.length) := by
  have hpos := h.nonempty
  have hlower := h.lower
  have hres : ¬ ((c.total : Int) ≤ 0) := by omega
  have hcnt' : (if s.ring.recvBundle then
      (c.total + s.ring.bufSize - 1) / s.ring.bufSize % 2 ^ 32 else 1) = c.ids.length := by
    rw [← hcnt] at hsmall ⊢
    split
    · rename_i hmode
      rw [if_pos hmode] at hsmall
      exact Nat.mod_eq_of_lt hsmall
    · rfl
  have hguard : ¬ (c.ids.length = 0 ∨ s.ring.count < c.ids.length) := by omega
  rw [decoded, h.head, tryBufferSlicesFromCqe]
  rw [if_neg hres, Int.toNat_natCast]
  dsimp only
  rw [hcnt', if_neg hguard, hfind]

/-- The slices name the buffers that the kernel has filled. -/
theorem Filled.slices_eq (h : Filled s c) (hsame : SameLog s.ring r)
    (hfits : base + (c.first + c.ids.length) < 2 ^ 32)
    (hid : ∀ i < c.ids.length, r.ringIdAt (base + (c.first + i)) = r.logged (c.first + i)) :
    r.slices { startPos := base + c.first, count := c.ids.length, total := c.total } =
      expected s.ring.bufSize c := by
  refine map_congr_left fun i hi => ?_
  have hi : i < c.ids.length := mem_range.mp hi
  have hpos : addPos (base + c.first) i = base + (c.first + i) := by
    rw [addPos_eq (by omega), add_assoc]
  have hupper := h.upper
  rw [hpos, hid i hi, hsame.logged, ← h.getD hi, hsame.bufSize]
  refine Prod.ext rfl ?_
  dsimp only
  split
  · exact Nat.min_self _
  have hlast : i + 1 = c.ids.length := by omega
  rw [← hlast, Nat.succ_mul] at hupper
  exact min_eq_left (by omega)

/-- Only the order of publication matters to a completion, and it only grows. -/
theorem Filled.of_append (h : Filled s c) (hkept : s.taken ≤ s.ring.published.length)
    (hpub : s'.ring.published = s.ring.published ++ ids) (htaken : s.taken ≤ s'.taken)
    (hsize : s'.ring.bufSize = s.ring.bufSize) (hmode : s'.ring.recvBundle = s.ring.recvBundle) :
    Filled s' c where
  ids := by
    have hwithin := h.within
    refine h.ids.trans (map_congr_left fun p hp => ?_)
    have hp := mem_range'_1.mp hp
    exact (logged_of_append hpub (by omega)).symm
  nonempty := h.nonempty
  within := le_trans h.within htaken
  lower := hsize ▸ h.lower
  upper := hsize ▸ h.upper
  single := hmode ▸ h.single

/-- A completion is decoded into its places. -/
structure DecodedAt (base : Nat) (s : RingSystem) (c : Completion) (r : BufferRing) : Prop where
  eq : s.decoded c =
    (.ok { startPos := base + c.first, count := c.ids.length, total := c.total }, r)
  same : SameLog s.ring r
  ids : ∀ i < c.ids.length, r.ringIdAt (base + (c.first + i)) = r.logged (c.first + i)

/-- The application sees the buffers that the kernel has filled. -/
theorem DecodedAt.outcome_eq (h : DecodedAt base s c r) (hkept : Kept base s) (hc : c ∈ s.pending)
    (hfits : base + s.ring.published.length < 2 ^ 32) :
    s.outcome c = .ok (expected s.ring.bufSize c) := by
  have hfilled := hkept.filled c hc
  have hwithin := hfilled.within
  have hle := hkept.taken_le
  rw [outcome, h.eq]
  exact congrArg Except.ok (hfilled.slices_eq h.same (by omega) h.ids)

/-! ## Growth -/

/-- What every operation does to the order of publication: it appends to it. -/
structure Grown (r r' : BufferRing) : Prop where
  published : r.published <+: r'.published
  tail : ∀ base, r.tailPos = addPos base r.published.length →
    r'.tailPos = addPos base r'.published.length
  count : r'.count = r.count
  bufSize : r'.bufSize = r.bufSize
  mode : r'.recvBundle = r.recvBundle

section Growth

variable {r r' r'' : BufferRing}

theorem Grown.refl (r : BufferRing) : Grown r r :=
  ⟨prefix_refl _, fun _ h => h, rfl, rfl, rfl⟩

theorem Grown.trans (h : Grown r r') (h' : Grown r' r'') : Grown r r'' where
  published := h.published.trans h'.published
  tail base hbase := h'.tail base (h.tail base hbase)
  count := h'.count.trans h.count
  bufSize := h'.bufSize.trans h.bufSize
  mode := h'.mode.trans h.mode

theorem SameLog.trans (h : SameLog r r') (h' : SameLog r' r'') : SameLog r r'' where
  published := h'.published.trans h.published
  tail := h'.tail.trans h.tail
  count := h'.count.trans h.count
  bufSize := h'.bufSize.trans h.bufSize
  mode := h'.mode.trans h.mode

theorem SameLog.grown (h : SameLog r r') : Grown r r' where
  published := h.published ▸ prefix_refl _
  tail base hbase := by rw [h.tail, h.published, hbase]
  count := h.count
  bufSize := h.bufSize
  mode := h.mode

theorem publish_grown (r : BufferRing) (id : Nat) : Grown r (r.publish id) where
  published := prefix_append _ _
  tail base hbase := by
    simp only [publish, hbase, addPos_addPos, length_append, length_singleton]
  count := rfl
  bufSize := rfl
  mode := rfl

/-- A round of the loop of `flush_recycle_ready`. -/
def BufferRing.flushOne (r : BufferRing) : BufferRing :=
  let idx := r.recycleHeadPos % r.count
  let published := ({ r with
    recycleReadyPos := BufferRing.set r.recycleReadyPos idx false
    observedPos := BufferRing.set r.observedPos idx false } : BufferRing).publish
      (r.ringIdAt r.recycleHeadPos)
  { published with recycleHeadPos := addPos published.recycleHeadPos 1 }

theorem flushRounds_succ (rounds : Nat) (r : BufferRing) :
    r.flushRounds (rounds + 1) =
      if r.recycleHeadPos ≠ r.tailPos ∧ r.recycleReadyPos (r.recycleHeadPos % r.count) = true then
        (flushOne r).flushRounds rounds
      else r := rfl

theorem flushOne_grown (r : BufferRing) : Grown r (flushOne r) := by
  have hgrown := publish_grown { r with
    recycleReadyPos := BufferRing.set r.recycleReadyPos (r.recycleHeadPos % r.count) false
    observedPos := BufferRing.set r.observedPos (r.recycleHeadPos % r.count) false }
    (r.ringIdAt r.recycleHeadPos)
  exact ⟨hgrown.1, hgrown.2, hgrown.3, hgrown.4, hgrown.5⟩

theorem flushRounds_grown (rounds : Nat) (r : BufferRing) : Grown r (r.flushRounds rounds) := by
  induction rounds generalizing r with
  | zero => exact .refl r
  | succ rounds ih =>
    rw [flushRounds_succ]
    split
    · exact (flushOne_grown r).trans (ih _)
    · exact .refl r

theorem recycleBundled_grown (r : BufferRing) (oldPos : Nat) :
    Grown r (r.recycleBundled oldPos) := by
  have hgrown := publish_grown r (r.ringIdAt oldPos)
  exact ⟨hgrown.1, hgrown.2, hgrown.3, hgrown.4, hgrown.5⟩

/-- A loop of operations that append. -/
theorem foldl_grown {α : Type} {f : BufferRing → α → BufferRing}
    (h : ∀ r a, Grown r (f r a)) (l : List α) (r : BufferRing) : Grown r (l.foldl f r) := by
  induction l generalizing r with
  | nil => exact .refl r
  | cons a l ih => exact (h r a).trans (ih (f r a))

theorem recycleRange_grown (r : BufferRing) (startPos cnt : Nat) :
    Grown r (r.recycleRange startPos cnt) := by
  rw [recycleRange]
  split
  · exact .refl r
  split
  · exact foldl_grown (fun r i => recycleBundled_grown r (addPos startPos i)) _ r
  refine Grown.trans ?_ (flushRounds_grown _ _)
  refine foldl_grown (fun r i => ?_) _ r
  exact ⟨prefix_refl _, fun _ h => h, rfl, rfl, rfl⟩

theorem preserveRounds_sameLog (rounds : Nat) (r : BufferRing) :
    SameLog r (r.preserveRounds rounds).2 := by
  induction rounds generalizing r with
  | zero => exact ⟨rfl, rfl, rfl, rfl, rfl⟩
  | succ rounds ih =>
    rw [preserveRounds]
    split
    · exact ⟨rfl, rfl, rfl, rfl, rfl⟩
    · refine SameLog.trans ?_ (ih _)
      exact ⟨rfl, rfl, rfl, rfl, rfl⟩

theorem findStartPos_sameLog (r : BufferRing) (firstId cnt : Nat) :
    SameLog r (r.findStartPos firstId cnt).2 := by
  have hpreserve (endPos : Nat) : SameLog r (r.preserveBundlePositionsUntil endPos).2 :=
    preserveRounds_sameLog _ r
  rw [findStartPos]
  dsimp only
  generalize (if r.recvBundle && r.bundleHasSavedPos firstId then r.bundleSavedPos firstId
    else r.idPos firstId) = pos
  have hpreserved := hpreserve (addPos pos cnt)
  generalize r.preserveBundlePositionsUntil (addPos pos cnt) = preserved at hpreserved
  obtain ⟨_ | _, r'⟩ := preserved
  · split_ifs <;> first | exact hpreserved | exact ⟨rfl, rfl, rfl, rfl, rfl⟩
  · dsimp only
    split_ifs <;> first | exact hpreserved | exact ⟨rfl, rfl, rfl, rfl, rfl⟩

/-- A consumption changes decoded and observed positions and the head. -/
theorem consumeAt_eq (r : BufferRing) (startPos cnt : Nat) :
    ∃ decodedPos headPos, r.consumeAt startPos cnt = { r with
      decodedPos := decodedPos
      observedPos := if r.recvBundle then r.observedPos else
        (range cnt).foldl
          (fun array i => BufferRing.set array (addPos startPos i % r.count) true) r.observedPos
      headPos := headPos } := by
  have hadvance (rounds : Nat) (r : BufferRing) : ∃ decodedPos headPos,
      r.advanceHead rounds = { r with decodedPos := decodedPos, headPos := headPos } := by
    induction rounds generalizing r with
    | zero => exact ⟨r.decodedPos, r.headPos, rfl⟩
    | succ rounds ih =>
      rw [advanceHead]
      split
      · obtain ⟨decodedPos, headPos, heq⟩ := ih { r with
          decodedPos := BufferRing.set r.decodedPos (r.headPos % r.count) false
          headPos := addPos r.headPos 1 }
        exact ⟨decodedPos, headPos, heq⟩
      · exact ⟨r.decodedPos, r.headPos, rfl⟩
  have hmark (l : List Nat) : ∃ decodedPos, l.foldl (fun r i =>
      let idx := addPos startPos i % r.count
      { r with
        decodedPos := BufferRing.set r.decodedPos idx true
        observedPos := if r.recvBundle then r.observedPos
          else BufferRing.set r.observedPos idx true }) r = { r with
        decodedPos := decodedPos
        observedPos := if r.recvBundle then r.observedPos else
          l.foldl (fun array i => BufferRing.set array (addPos startPos i % r.count) true)
            r.observedPos } := by
    induction l using reverseRecOn with
    | nil => exact ⟨r.decodedPos, by simp only [foldl_nil, ite_self]⟩
    | append_singleton l i ih =>
      obtain ⟨decodedPos, heq⟩ := ih
      refine ⟨BufferRing.set decodedPos (addPos startPos i % r.count) true, ?_⟩
      rw [foldl_append, heq, foldl_append]
      cases hmode : r.recvBundle
      · simp only [foldl_cons, foldl_nil, false_eq_true, if_false]
      · simp only [foldl_cons, foldl_nil, if_true]
  obtain ⟨marked, hmarked⟩ := hmark (range cnt)
  obtain ⟨decodedPos, headPos, heq⟩ := hadvance r.count { r with
    decodedPos := marked
    observedPos := if r.recvBundle then r.observedPos else
      (range cnt).foldl
        (fun array i => BufferRing.set array (addPos startPos i % r.count) true) r.observedPos }
  refine ⟨decodedPos, headPos, ?_⟩
  rw [consumeAt, hmarked]
  exact heq

theorem consumeAt_sameLog (r : BufferRing) (startPos cnt : Nat) :
    SameLog r (r.consumeAt startPos cnt) := by
  obtain ⟨decodedPos, headPos, heq⟩ := consumeAt_eq r startPos cnt
  rw [heq]
  exact ⟨rfl, rfl, rfl, rfl, rfl⟩

theorem decoded_sameLog (s : RingSystem) (c : Completion) : SameLog s.ring (s.decoded c).2 := by
  rw [decoded, tryBufferSlicesFromCqe.eq_def]
  split
  · exact ⟨rfl, rfl, rfl, rfl, rfl⟩
  rename_i firstId _
  split
  · exact ⟨rfl, rfl, rfl, rfl, rfl⟩
  dsimp only
  generalize (if s.ring.recvBundle = true then
    ((c.total : Int).toNat + s.ring.bufSize - 1) / s.ring.bufSize % 2 ^ 32 else 1) = cnt
  split
  · exact ⟨rfl, rfl, rfl, rfl, rfl⟩
  have hfind := findStartPos_sameLog s.ring firstId cnt
  split
  · rename_i heq
    rwa [heq] at hfind
  rename_i heq
  rw [heq] at hfind
  exact hfind.trans (consumeAt_sameLog _ _ _)

theorem step_decode_sameLog (s : RingSystem) (index : Nat) :
    SameLog s.ring (s.step (.decode index)).ring := by
  rw [step]
  split
  · exact ⟨rfl, rfl, rfl, rfl, rfl⟩
  rename_i c _
  have hsame := decoded_sameLog s c
  split <;> rename_i heq <;> rw [heq] at hsame <;> exact hsame

/-- Every move appends to the order of publication. -/
theorem step_grown (s : RingSystem) (move : RingMove) : Grown s.ring (s.step move).ring := by
  cases move with
  | complete cnt total => exact .refl s.ring
  | recycle startPos cnt => exact recycleRange_grown s.ring startPos cnt
  | decode index => exact (step_decode_sameLog s index).grown

end Growth

/-! ## Moves of places -/

/-- Only the order of publication matters to what both modes keep, and it only grows. -/
theorem Kept.of_grown (h : Kept base s) (hgrown : Grown s.ring s'.ring)
    (htaken : s'.taken = s.taken) (hpending : s'.pending ⊆ s.pending)
    (hheld : ∀ lease ∈ s'.held, lease ∈ s.held ∨
      ∃ p < s.taken, lease.pos = base + p ∧ lease.id = s.ring.logged p) : Kept base s' := by
  obtain ⟨ids, hpub⟩ := hgrown.published
  refine ⟨hgrown.count ▸ h.count_pos, hgrown.tail base h.tail, ?_, ?_, ?_⟩
  · rw [htaken]
    exact h.taken_le.trans hgrown.published.length_le
  · intro c hc
    exact (h.filled c (hpending hc)).of_append h.taken_le hpub.symm htaken.ge hgrown.bufSize
      hgrown.mode
  intro lease hlease
  obtain ⟨p, hp, hpos, hid⟩ := (hheld lease hlease).elim (h.leases lease) id
  rw [htaken]
  exact ⟨p, hp, hpos, hid.trans (logged_of_append hpub.symm (hp.trans_le h.taken_le)).symm⟩

/-- The leases of a decoded completion. -/
def Completion.leases (base : Nat) (c : Completion) : List Lease :=
  (List.range c.ids.length).map fun i => { pos := base + (c.first + i), id := c.ids.getD i 0 }

/-- The places of the leases are those of the completion. -/
theorem leases_places (base : Nat) (c : Completion) :
    (c.leases base).map (fun lease => lease.pos - base) = range' c.first c.ids.length := by
  rw [Completion.leases, map_map, range'_eq_map_range]
  exact map_congr_left fun i _ => Nat.add_sub_cancel_left ..

/-- The places of a completion are live. -/
theorem place_live (base : Nat) (hc : c ∈ s.pending) {i : Nat} (hi : i < c.ids.length) :
    c.first + i ∈ s.live base := by
  refine mem_append_left _ (mem_append_right _ ?_)
  exact mem_pendingPlaces.mpr ⟨c, hc, Nat.le_add_right _ _, Nat.add_lt_add_left hi _⟩

namespace DecodedAt

section

variable {index : Nat} (h : DecodedAt base s c r) (hkept : Kept base s)
  (hget : s.pending[index]? = some c) (hfits : base + s.ring.published.length < 2 ^ 32)
include h hkept hget hfits

/-- What decoding does to the system, as long as the positions suffice. -/
theorem step_eq :
    s.step (.decode index) = { s with
      ring := r
      pending := s.pending.eraseIdx index
      held := s.held ++ c.leases base } := by
  have hfilled := hkept.filled c (mem_of_getElem? hget)
  have hwithin := hfilled.within
  have hle := hkept.taken_le
  rw [step, hget]
  dsimp only
  rw [h.eq]
  dsimp only
  rw [rangePositions, map_map]
  congr 2
  refine map_congr_left fun i hi => ?_
  have hi := mem_range.mp hi
  have hpos : addPos (base + c.first) i = base + (c.first + i) := by
    rw [addPos_eq (by omega), add_assoc]
  rw [comp_apply, hpos, h.ids i hi, h.same.logged, hfilled.getD hi]

theorem heldPlaces_eq : (s.step (.decode index)).heldPlaces base =
    s.heldPlaces base ++ range' c.first c.ids.length := by
  rw [h.step_eq hkept hget hfits, heldPlaces, map_append, leases_places]
  rfl

/-- Decoding moves the places of a completion into the hands of the application. -/
theorem live_perm : ((s.step (.decode index)).live base).Perm (live base { s with ring := r }) := by
  have hpending : s.pendingPlaces.Perm (range' c.first c.ids.length ++
      (s.pending.eraseIdx index).flatMap fun c => range' c.first c.ids.length) := by
    obtain ⟨hlt, hc⟩ := List.getElem?_eq_some_iff.mp hget
    have hperm := getElem_cons_eraseIdx_perm hlt
    rw [hc] at hperm
    exact (hperm.symm.flatMap_right _)
  rw [live, h.heldPlaces_eq hkept hget hfits, h.step_eq hkept hget hfits, live, append_assoc,
    append_assoc]
  refine List.Perm.append_left _ ?_
  refine List.Perm.trans ?_ (hpending.symm.append_right _)
  refine perm_iff_count.mpr fun p => ?_
  simp only [pendingPlaces, heldPlaces, count_append]
  omega

/-- The facts of both modes after a completion was decoded. -/
theorem kept_step : Kept base (s.step (.decode index)) := by
  have hfilled := hkept.filled c (mem_of_getElem? hget)
  have hwithin := hfilled.within
  rw [h.step_eq hkept hget hfits]
  refine hkept.of_grown h.same.grown rfl (fun _ => mem_of_mem_eraseIdx) fun lease hlease => ?_
  refine (mem_append.mp hlease).imp_right fun hlease => ?_
  obtain ⟨i, hi, rfl⟩ := mem_map.mp hlease
  have hi := mem_range.mp hi
  exact ⟨c.first + i, by omega, rfl, hfilled.getD hi⟩

end

end DecodedAt

/-- A published buffer gets the next place. -/
theorem queuePlaces_append (hpub : s'.ring.published = s.ring.published ++ [id])
    (htaken : s'.taken = s.taken) (hle : s.taken ≤ s.ring.published.length) :
    s'.queuePlaces = s.queuePlaces ++ [s.ring.published.length] := by
  have hlength : s.ring.published.length + 1 - s.taken =
      s.ring.published.length - s.taken + 1 := by omega
  rw [queuePlaces, queuePlaces, htaken, hpub, length_append,
    length_singleton, hlength, List.range'_concat, one_mul, Nat.add_sub_cancel' hle]

/-- The kernel moves places from the queue into a completion. -/
theorem live_complete {total : Nat} (hcnt : s.taken + cnt ≤ s.ring.published.length) :
    ((s.step (.complete cnt total)).live base).Perm (s.live base) := by
  have hlength : ((s.ring.published.drop s.taken).take cnt).length = cnt := by
    rw [length_take, length_drop]
    omega
  have hqueue : s.queuePlaces = List.range' s.taken cnt ++
      (s.step (.complete cnt total)).queuePlaces := by
    simp only [queuePlaces, step]
    rw [List.range'_append_1]
    congr 1
    omega
  have hpending : (s.step (.complete cnt total)).pendingPlaces =
      s.pendingPlaces ++ List.range' s.taken cnt := by
    simp only [pendingPlaces, step, flatMap_append, flatMap_cons,
      flatMap_nil, hlength, append_nil]
  have hheld : (s.step (.complete cnt total)).heldPlaces base = s.heldPlaces base := rfl
  rw [live, live, hpending, hheld, hqueue]
  refine perm_iff_count.mpr fun p => ?_
  simp only [count_append]
  omega

/-- The facts of both modes after the kernel has completed. -/
theorem Kept.complete (h : Kept base s) {total : Nat}
    (hconforms : s.conforms (.complete cnt total) = true) :
    Kept base (s.step (.complete cnt total)) := by
  simp only [conforms, and_eq_true, decide_eq_true_eq, or_eq_true,
    beq_iff_eq] at hconforms
  obtain ⟨⟨⟨⟨hpos, hle⟩, hlower⟩, hupper⟩, hsingle⟩ := hconforms
  have hlength : ((s.ring.published.drop s.taken).take cnt).length = cnt := by
    rw [length_take, length_drop]
    omega
  refine ⟨h.count_pos, h.tail, hle, ?_, ?_⟩
  · intro c hc
    obtain hc | hc := mem_append.mp hc
    · exact (h.filled c hc).of_append h.taken_le (append_nil _).symm (Nat.le_add_right _ _) rfl rfl
    rw [mem_singleton.mp hc]
    refine ⟨?_, ?_, ?_, ?_, ?_, ?_⟩
    · dsimp only
      rw [hlength]
      apply ext_getElem
      · rw [hlength, length_map, length_range']
      intro i hi _
      have hi : i < cnt := hlength ▸ hi
      have hlt : s.taken + i < s.ring.published.length := by omega
      simp only [getElem_take, getElem_drop, getElem_map, getElem_range',
        one_mul, logged, step, getD_eq_getElem _ _ hlt]
    · exact hlength.symm ▸ hpos
    · exact (congrArg (s.taken + ·) hlength).le
    · dsimp only
      rw [hlength]
      exact hlower
    · dsimp only
      rw [hlength]
      exact hupper
    · exact hsingle.imp_right fun heq => hlength.trans heq
  · intro lease hlease
    obtain ⟨p, hp, hpos, hid⟩ := h.leases lease hlease
    exact ⟨p, Nat.lt_add_right cnt hp, hpos, hid⟩

/-! ## Giving buffers back -/

/-- A lease is given back, with an operation on the ring. -/
def RingSystem.giveBack (f : BufferRing → Nat → BufferRing) (s : RingSystem) (pos : Nat) :
    RingSystem :=
  { s with
    ring := f s.ring pos
    held := s.held.filter fun lease => lease.pos != pos }

theorem foldl_giveBack (f : BufferRing → Nat → BufferRing) (positions : List Nat) (s : RingSystem) :
    positions.foldl (giveBack f) s = { s with
      ring := positions.foldl f s.ring
      held := s.held.filter fun lease => !positions.contains lease.pos } := by
  induction positions generalizing s with
  | nil => simp
  | cons pos positions ih =>
    rw [foldl_cons, ih, foldl_cons]
    simp only [giveBack, filter_filter, contains_cons, Bool.not_or, bne, Bool.and_comm]

theorem Kept.heldPlaces_giveBack (h : Kept base s) (f : BufferRing → Nat → BufferRing) (p : Nat) :
    (s.giveBack f (base + p)).heldPlaces base = (s.heldPlaces base).filter (· != p) := by
  rw [heldPlaces, heldPlaces, giveBack, filter_map]
  congr 1
  refine filter_congr fun lease hlease => ?_
  obtain ⟨q, -, hpos, -⟩ := h.leases lease hlease
  rw [comp_apply, hpos, Nat.add_sub_cancel_left, Bool.eq_iff_iff, bne_iff_ne, bne_iff_ne]
  omega

/-- The other places stay held where one is given back. -/
theorem Kept.held_giveBack (h : Kept base s) (f : BufferRing → Nat → BufferRing) {p : Nat}
    {positions : List Nat} (hnot : base + p ∉ positions)
    (hheld : ∀ pos ∈ (base + p) :: positions, ∃ q ∈ s.heldPlaces base, pos = base + q) :
    ∀ pos ∈ positions, ∃ q ∈ (s.giveBack f (base + p)).heldPlaces base, pos = base + q := by
  intro pos hpos
  obtain ⟨q, hq, rfl⟩ := hheld pos (mem_cons_of_mem _ hpos)
  refine ⟨q, ?_, rfl⟩
  rw [h.heldPlaces_giveBack, mem_filter, bne_iff_ne]
  refine ⟨hq, ?_⟩
  rintro rfl
  exact hnot hpos

/-- The positions of an allowed recycling are those of held places. -/
theorem Kept.recycled_held (h : Kept base s) {startPos : Nat}
    (hconforms : s.conforms (.recycle startPos cnt) = true) :
    (rangePositions startPos cnt).Nodup ∧
      ∀ pos ∈ rangePositions startPos cnt, ∃ p ∈ s.heldPlaces base, pos = base + p := by
  simp only [conforms, and_eq_true, decide_eq_true_eq, all_eq_true,
    contains_iff_mem] at hconforms
  refine ⟨hconforms.1, fun pos hpos => ?_⟩
  obtain ⟨lease, hlease, rfl⟩ := mem_map.mp (hconforms.2 pos hpos)
  obtain ⟨p, -, heq, -⟩ := h.leases lease hlease
  refine ⟨p, mem_map.mpr ⟨lease, hlease, ?_⟩, heq⟩
  rw [heq, Nat.add_sub_cancel_left]

/-! ## A new ring -/

variable {bufSize count : Nat} {mode : Bool}

theorem logged_create {p : Nat} (hp : p < count) :
    (RingSystem.create bufSize count mode base).ring.logged p = p := by
  simp only [logged, RingSystem.create, BufferRing.create]
  rw [getD_eq_getElem _ _ (by rwa [length_range]), getElem_range]

theorem Kept.create (hcount : 0 < count) :
    Kept base (RingSystem.create bufSize count mode base) where
  count_pos := hcount
  tail := by simp only [RingSystem.create, BufferRing.create, length_range]
  taken_le := Nat.zero_le _
  filled := fun _ hc => absurd hc not_mem_nil
  leases := fun _ hlease => absurd hlease not_mem_nil

end Conflux.SocketIo

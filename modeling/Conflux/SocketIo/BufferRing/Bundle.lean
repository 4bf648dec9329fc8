import Conflux.SocketIo.BufferRing.Ledger

/-!
# Bundle mode

A recycled buffer is published at once and its id goes into the slot of the new position, which
is that of an older one. The table has the ids of the live places up to a mark, and the slots
have those from the mark on: each recycled place is behind the mark, so that there are at most
as many places from the mark on as there are slots.
-/

namespace Conflux.SocketIo

open Conflux.Core List RingSystem BufferRing

/-- The invariant of bundle mode, with the mark `m`. -/
structure Bundled (base m : Nat) (s : RingSystem) : Prop extends Kept base s where
  mode : s.ring.recvBundle = true
  ids : ((s.live base).map s.ring.logged).Perm (List.range s.ring.count)
  idPos : ∀ p ∈ s.live base, s.ring.idPos (s.ring.logged p) = base + p
  order : ∀ p < s.ring.published.length, s.ring.published.length ≤ p + s.ring.count →
    s.ring.ringOrder ((base + p) % s.ring.count) = s.ring.logged p
  preserved : s.ring.bundlePreservedPos = base + m
  preserved_le : m ≤ s.taken
  gone : ∀ p < s.ring.published.length, p ∉ s.live base → p < m
  heldSaved : ∀ p ∈ s.heldPlaces base, p < m
  sound : s.ring.bundleSaved.Sound bundleHash
  size : s.ring.bundleSaved.size = s.ring.count * 8
  saved : ∀ key id, s.ring.bundleSaved.Has key id ↔
    ∃ p ∈ s.live base, p < m ∧ key = base + p ∧ id = s.ring.logged p
  hasSaved : ∀ id, s.ring.bundleHasSavedPos id = true ↔
    ∃ p ∈ s.live base, p < m ∧ s.ring.logged p = id
  savedPos : ∀ p ∈ s.live base, p < m → s.ring.bundleSavedPos (s.ring.logged p) = base + p
  ready : ∀ i, s.ring.recycleReadyPos i = false

/-- One buffer is recycled. -/
abbrev RingSystem.recycleOne (s : RingSystem) (pos : Nat) : RingSystem :=
  s.giveBack recycleBundled pos

variable {base m : Nat} {s : RingSystem}

namespace Bundled

theorem nodup_ids (h : Bundled base m s) : ((s.live base).map s.ring.logged).Nodup :=
  h.ids.nodup_iff.mpr nodup_range

theorem nodup (h : Bundled base m s) : (s.live base).Nodup :=
  h.nodup_ids.of_map _

variable {p cnt : Nat}

section

variable (h : Bundled base m s)
include h

theorem inj {q : Nat} (hp : p ∈ s.live base) (hq : q ∈ s.live base)
    (heq : s.ring.logged p = s.ring.logged q) : p = q :=
  inj_on_of_nodup_map h.nodup_ids hp hq heq

theorem live_length : (s.live base).length = s.ring.count := by
  have hlength := h.ids.length_eq
  rwa [length_map, length_range] at hlength

/-- From the mark on there are at most as many places as slots. -/
theorem length_le : s.ring.published.length ≤ m + s.ring.count := by
  have hsub : Finset.range s.ring.published.length ⊆ Finset.range m ∪ (s.live base).toFinset := by
    intro p hp
    by_cases hlive : p ∈ s.live base
    · exact Finset.mem_union_right _ (mem_toFinset.mpr hlive)
    · have hlt := h.gone p (Finset.mem_range.mp hp) hlive
      exact Finset.mem_union_left _ (Finset.mem_range.mpr hlt)
  have hcard := (Finset.card_le_card hsub).trans (Finset.card_union_le _ _)
  have hlive := (s.live base).toFinset_card_le
  rw [Finset.card_range, Finset.card_range] at hcard
  have hlength := h.live_length
  omega

/-- The table has no position from the mark on. -/
theorem not_has (hp : m ≤ p) (id : Nat) : ¬ s.ring.bundleSaved.Has (base + p) id := by
  intro hhas
  obtain ⟨q, -, hq, heq, -⟩ := (h.saved _ _).mp hhas
  omega

/-- The id of a live place is found, in the table or in its slot. -/
theorem ringIdAt (hp : p ∈ s.live base) : s.ring.ringIdAt (base + p) = s.ring.logged p := by
  rw [BufferRing.ringIdAt, if_pos h.mode]
  by_cases hm : p < m
  · have hfind := h.sound.find_eq_some_iff.mpr ((h.saved _ _).mpr ⟨p, hp, hm, rfl, rfl⟩)
    rw [hfind]
  rw [h.sound.find_eq_none (h.not_has (Nat.le_of_not_lt hm))]
  have hlength := h.length_le
  exact h.order p (h.live_lt hp) (by omega)

/-- The live places can be listed in another order. -/
theorem of_perm {s' : RingSystem} (hring : s'.ring = s.ring)
    (htaken : s.taken ≤ s'.taken) (hperm : (s'.live base).Perm (s.live base))
    (hkept : Kept base s') (hheld : ∀ p ∈ s'.heldPlaces base, p < m) : Bundled base m s' := by
  cases s'
  subst hring
  have hmem {p : Nat} : p ∈ _ ↔ p ∈ s.live base := hperm.mem_iff
  refine { hkept with
    mode := h.mode, ids := (hperm.map _).trans h.ids, idPos := fun p hp => h.idPos p (hmem.mp hp)
    order := h.order, preserved := h.preserved, preserved_le := h.preserved_le.trans htaken
    gone := fun p hp hnot => h.gone p hp fun hlive => hnot (hmem.mpr hlive), heldSaved := hheld
    sound := h.sound, size := h.size, saved := ?_, hasSaved := ?_
    savedPos := fun p hp => h.savedPos p (hmem.mp hp), ready := h.ready }
  · intro key id
    simp only [hmem]
    exact h.saved key id
  · intro id
    simp only [hmem]
    exact h.hasSaved id

end

/-! ## Saving positions -/

/-- The ring after the position at the mark was saved. -/
def savedRing (r : BufferRing) (saved : OpenTable Nat) (id pos : Nat) : BufferRing :=
  { r with
    bundleSaved := saved
    bundleSavedPos := BufferRing.set r.bundleSavedPos id pos
    bundleHasSavedPos := BufferRing.set r.bundleHasSavedPos id true
    bundlePreservedPos := addPos pos 1 }

section

variable (h : Bundled base m s)
include h

/-- The place at the mark is live. -/
theorem mark_live (hm : m < s.taken) : m ∈ s.live base := by
  have hle := h.taken_le
  by_contra hnot
  exact absurd (h.gone m (by omega) hnot) (lt_irrefl m)

/-- The table has at most one entry for each buffer, which leaves slots free. -/
theorem exists_free (i key id : Nat) :
    ∃ j, (s.ring.bundleSaved.setAt i (some (key, id))).at_ j = none := by
  have hcount := h.count_pos
  have hkeys (k v : Nat) (hhas : s.ring.bundleSaved.Has k v) :
      k ∈ (s.live base).toFinset.image (base + ·) := by
    obtain ⟨p, hp, -, rfl, -⟩ := (h.saved k v).mp hhas
    exact Finset.mem_image.mpr ⟨p, mem_toFinset.mpr hp, rfl⟩
  refine h.sound.exists_free hkeys ?_ i (key, id)
  have himage := Finset.card_image_le (s := (s.live base).toFinset) (f := (base + ·))
  have hset := (s.live base).toFinset_card_le
  rw [h.live_length] at hset
  rw [h.size]
  omega

/-- The buffers whose position is saved, with the one at the mark. -/
theorem hasSaved_set (hm : m < s.taken) (id : Nat) :
    BufferRing.set s.ring.bundleHasSavedPos (s.ring.logged m) true id = true ↔
      ∃ p ∈ s.live base, p < m + 1 ∧ s.ring.logged p = id := by
  by_cases hid : id = s.ring.logged m
  · subst hid
    exact ⟨fun _ => ⟨m, h.mark_live hm, Nat.lt_succ_self m, rfl⟩, fun _ => set_self ..⟩
  rw [set_of_ne _ _ hid, h.hasSaved]
  constructor
  · rintro ⟨p, hp, hlt, heq⟩
    exact ⟨p, hp, Nat.lt_succ_of_lt hlt, heq⟩
  rintro ⟨p, hp, hlt, heq⟩
  refine ⟨p, hp, Nat.lt_of_le_of_ne (Nat.le_of_lt_succ hlt) ?_, heq⟩
  rintro rfl
  exact hid heq.symm

theorem savedPos_set (hm : m < s.taken) (hp : p ∈ s.live base) (hlt : p < m + 1) :
    BufferRing.set s.ring.bundleSavedPos (s.ring.logged m) (base + m) (s.ring.logged p) =
      base + p := by
  obtain hlt | rfl := Nat.lt_succ_iff_lt_or_eq.mp hlt
  · have hne : s.ring.logged p ≠ s.ring.logged m := fun heq =>
      absurd (h.inj hp (h.mark_live hm) heq) (ne_of_lt hlt)
    exact (set_of_ne _ _ hne).trans (h.savedPos p hp hlt)
  · exact set_self ..

/-- One more position is saved. -/
theorem save (hm : m < s.taken)
    (hfits : base + s.ring.published.length < 2 ^ 32) :
    ∃ saved, s.ring.bundleSaved.insertOrAssign bundleHash (base + m) (s.ring.logged m) =
        some saved ∧
      Bundled base (m + 1)
        { s with ring := savedRing s.ring saved (s.ring.logged m) (base + m) } := by
  have hle := h.taken_le
  have hlive := h.mark_live hm
  obtain ⟨n, heq, hhas, hsound⟩ := h.sound.insertOrAssign (base + m) (s.ring.logged m)
  refine ⟨_, heq, { h with
    preserved := (addPos_eq (by omega)).trans (add_assoc base m 1), preserved_le := hm
    gone := fun p hp hnot => Nat.lt_succ_of_lt (h.gone p hp hnot)
    heldSaved := fun p hp => Nat.lt_succ_of_lt (h.heldSaved p hp)
    sound := hsound (h.exists_free ..), size := h.size, saved := ?_
    hasSaved := h.hasSaved_set hm, savedPos := fun p => h.savedPos_set hm
    filled := fun c hc => (h.filled c hc).of_append h.taken_le (append_nil _).symm
      (le_refl _) rfl rfl }⟩
  intro key id
  refine (hhas key id).trans ?_
  split
  · rename_i hkey
    subst hkey
    constructor
    · rintro rfl
      exact ⟨m, hlive, Nat.lt_succ_self m, rfl, rfl⟩
    rintro ⟨p, -, -, hkey, rfl⟩
    cases Nat.add_left_cancel hkey
    rfl
  rename_i hne
  rw [h.saved]
  constructor
  · rintro ⟨p, hp, hlt, hkey, hid⟩
    exact ⟨p, hp, Nat.lt_succ_of_lt hlt, hkey, hid⟩
  rintro ⟨p, hp, hlt, rfl, rfl⟩
  exact ⟨p, hp, by omega, rfl, rfl⟩

/-- Positions are saved up to a place that the kernel has taken. -/
theorem preserveRounds {rounds : Nat} (hm : m + rounds ≤ s.taken)
    (hfits : base + s.ring.published.length < 2 ^ 32) :
    ∃ r, s.ring.preserveRounds rounds = (true, r) ∧
      Bundled base (m + rounds) { s with ring := r } ∧ SameLog s.ring r := by
  induction rounds generalizing m s with
  | zero => exact ⟨s.ring, rfl, h, ⟨rfl, rfl, rfl, rfl, rfl⟩⟩
  | succ rounds ih =>
    have hlt : m < s.taken := by omega
    obtain ⟨saved, heq, hnext⟩ := h.save hlt hfits
    obtain ⟨r, hr, hbundled, hsame⟩ := ih hnext (by dsimp only; omega) hfits
    refine ⟨r, ?_, ?_, ⟨hsame.1, hsame.2, hsame.3, hsame.4, hsame.5⟩⟩
    · rw [preserveRounds, h.preserved, h.ringIdAt (h.mark_live hlt), heq]
      exact hr
    · rw [show m + (rounds + 1) = m + 1 + rounds by omega]
      exact hbundled

/-! ## Decoding -/

/-- The position of a live place is looked up from its id. -/
theorem lookup (hp : p ∈ s.live base) :
    (if s.ring.recvBundle && s.ring.bundleHasSavedPos (s.ring.logged p) then
        s.ring.bundleSavedPos (s.ring.logged p)
      else s.ring.idPos (s.ring.logged p)) = base + p := by
  rw [h.mode, Bool.true_and]
  split
  · rename_i hsaved
    obtain ⟨q, hq, hlt, heq⟩ := (h.hasSaved _).mp hsaved
    rw [h.inj hq hp heq] at hlt
    exact h.savedPos p hp hlt
  · exact h.idPos p hp

end

theorem ids_length_le (h : Bundled base m s) {c : Completion} (hc : c ∈ s.pending) :
    c.ids.length ≤ s.ring.count := by
  rw [← h.live_length]
  have hsub : (range' c.first c.ids.length).length ≤ s.pendingPlaces.length := by
    obtain ⟨pre, post, hsplit⟩ := append_of_mem hc
    simp only [pendingPlaces, hsplit, flatMap_append, flatMap_cons, length_append]
    omega
  rw [length_range'] at hsub
  simp only [live, length_append]
  omega

/-- A completion is found at its first place. -/
theorem findStartPos (h : Bundled base m s) {c : Completion} (hc : c ∈ s.pending)
    (hfits : base + s.ring.published.length < 2 ^ 32) :
    ∃ r m', s.ring.findStartPos (s.ring.logged c.first) c.ids.length = (some (base + c.first), r) ∧
      Bundled base m' { s with ring := r } ∧ c.first + c.ids.length ≤ m' ∧ SameLog s.ring r := by
  have hfilled := h.filled c hc
  have hpos := hfilled.nonempty
  have hwithin := hfilled.within
  have hle := h.taken_le
  have hfirst : c.first ∈ s.live base := place_live base hc hpos
  have hid : s.ring.logged c.first < s.ring.count := by
    have hmem := h.ids.mem_iff.mp (mem_map_of_mem hfirst)
    exact mem_range.mp hmem
  have hlength := h.ids_length_le hc
  have hguard : ¬ (c.ids.length = 0 ∨ s.ring.count < c.ids.length ∨
      s.ring.count ≤ s.ring.logged c.first) := by omega
  have hend : addPos (base + c.first) c.ids.length = base + (c.first + c.ids.length) := by
    rw [addPos_eq (by omega), add_assoc]
  have hwindow : ¬ (addPos (base + c.first) c.ids.length < base + c.first ∨
      s.ring.tailPos < addPos (base + c.first) c.ids.length) := by
    rw [hend, h.tail, addPos_eq hfits]
    omega
  have hmark := h.preserved_le
  have hrounds : m + (c.first + c.ids.length - m) ≤ s.taken := by omega
  obtain ⟨r, hr, hbundled, hsame⟩ := h.preserveRounds hrounds hfits
  have hpreserve : s.ring.preserveBundlePositionsUntil (base + (c.first + c.ids.length)) =
      (true, r) := by
    rw [preserveBundlePositionsUntil, h.preserved,
      show base + (c.first + c.ids.length) - (base + m) = c.first + c.ids.length - m by omega]
    exact hr
  have hlogged : r.logged c.first = s.ring.logged c.first := by
    rw [logged, logged, hsame.published]
  have hlive' : c.first ∈ live base { s with ring := r } :=
    place_live (s := { s with ring := r }) base hc hpos
  have hfound : r.ringIdAt (base + c.first) = s.ring.logged c.first :=
    (hbundled.ringIdAt hlive').trans hlogged
  refine ⟨r, _, ?_, hbundled, by omega, hsame⟩
  rw [BufferRing.findStartPos, if_neg hguard, h.lookup hfirst]
  rw [if_neg hwindow, if_pos h.mode, hend, hpreserve]
  dsimp only
  rw [if_neg (fun hne => hne hfound)]

/-- Decoded positions and the head do not matter. -/
theorem consumed {r : BufferRing} (h : Bundled base m { s with ring := r })
    (decodedPos : Nat → Bool) (headPos : Nat) :
    Bundled base m { s with ring := { r with decodedPos := decodedPos, headPos := headPos } } :=
  { h with
    filled := fun c hc =>
      have hfilled := h.filled c hc
      ⟨hfilled.ids, hfilled.nonempty, hfilled.within, hfilled.lower, hfilled.upper,
        hfilled.single⟩ }

section

variable (h : Bundled base m s)
include h

theorem decoded {c : Completion} (hc : c ∈ s.pending)
    (hfits : base + s.ring.published.length < 2 ^ 32) :
    ∃ r m', DecodedAt base s c r ∧ Bundled base m' { s with ring := r } ∧
      c.first + c.ids.length ≤ m' := by
  obtain ⟨r, m', hfind, hbundled, hm', hsame⟩ := h.findStartPos hc hfits
  have hfilled := h.filled c hc
  have hmode : r.recvBundle = true := hsame.mode.trans h.mode
  obtain ⟨decodedPos, headPos, hconsume⟩ := consumeAt_eq r (base + c.first) c.ids.length
  rw [if_pos hmode] at hconsume
  have hnext : Bundled base m'
      { s with ring := r.consumeAt (base + c.first) c.ids.length } := by
    rw [hconsume]
    exact hbundled.consumed decodedPos headPos
  refine ⟨r.consumeAt (base + c.first) c.ids.length, m', ⟨?_, ?_, ?_⟩, hnext, hm'⟩
  · have hlength := h.ids_length_le hc
    have hle := h.taken_le
    have hwithin := hfilled.within
    exact hfilled.decoded_of_find (by rw [if_pos h.mode]; exact hfilled.count_eq) hlength
      (by omega) hfind
  · exact hsame.trans (consumeAt_sameLog r _ _)
  · intro i hi
    exact hnext.ringIdAt (place_live
      (s := { s with ring := r.consumeAt (base + c.first) c.ids.length }) base hc hi)

/-- Decoding a completion keeps the invariant. -/
theorem decode {index : Nat} (hindex : index < s.pending.length)
    (hfits : base + s.ring.published.length < 2 ^ 32) :
    ∃ m', Bundled base m' (s.step (.decode index)) := by
  obtain ⟨c, hget⟩ : ∃ c, s.pending[index]? = some c :=
    ⟨s.pending[index], getElem?_eq_getElem hindex⟩
  have hc : c ∈ s.pending := mem_of_getElem? hget
  obtain ⟨r, m', hdecoded, hbundled, hm'⟩ := h.decoded hc hfits
  have hperm := hdecoded.live_perm h.toKept hget hfits
  have hheld := hdecoded.heldPlaces_eq h.toKept hget hfits
  have hkept := hdecoded.kept_step h.toKept hget hfits
  rw [hdecoded.step_eq h.toKept hget hfits] at hperm hheld hkept ⊢
  refine ⟨m', hbundled.of_perm rfl (le_refl _) hperm hkept fun p hp => ?_⟩
  rw [hheld, mem_append, mem_range'_1] at hp
  obtain hp | hp := hp
  · exact hbundled.heldSaved p hp
  · omega

/-! ## Recycling -/

section

variable (hp : p ∈ s.heldPlaces base)
include hp

/-- The ring after a buffer that was saved is recycled. -/
theorem recycleBundled_eq :
    s.ring.recycleBundled (base + p) =
      { s.ring.publish (s.ring.logged p) with
        bundleHasSavedPos := BufferRing.set s.ring.bundleHasSavedPos (s.ring.logged p) false
        bundleSaved := s.ring.bundleSaved.erase bundleHash (base + p) } := by
  have hlive : p ∈ s.live base := mem_append_right _ hp
  have hmark := h.heldSaved p hp
  have hsaved : s.ring.bundleHasSavedPos (s.ring.logged p) = true :=
    (h.hasSaved _).mpr ⟨p, hlive, hmark, rfl⟩
  have hpos := h.savedPos p hlive hmark
  simp only [recycleBundled, h.ringIdAt hlive, publish, hsaved, hpos, and_self, if_true]

theorem published_recycled : (s.recycleOne (base + p)).ring.published =
    s.ring.published ++ [s.ring.logged p] := by
  rw [show (s.recycleOne (base + p)).ring = _ from h.recycleBundled_eq hp]
  rfl

theorem logged_recycled {q : Nat} (hq : q < s.ring.published.length) :
    (s.recycleOne (base + p)).ring.logged q = s.ring.logged q :=
  logged_of_append (h.published_recycled hp) hq

theorem logged_recycled_last :
    (s.recycleOne (base + p)).ring.logged s.ring.published.length = s.ring.logged p :=
  logged_last (h.published_recycled hp)

/-- A recycled buffer moves from its place to a new one. -/
theorem live_recycled :
    ∃ rest, (s.live base).Perm (p :: rest) ∧
      ((s.recycleOne (base + p)).live base).Perm (s.ring.published.length :: rest) := by
  have hnodup : (s.heldPlaces base).Nodup := (nodup_append.mp h.nodup).2.1
  have hfilter : (s.heldPlaces base).filter (· != p) = (s.heldPlaces base).erase p :=
    (hnodup.erase_eq_filter p).symm
  have hqueue := queuePlaces_append (h.published_recycled hp) rfl h.taken_le
  refine ⟨s.queuePlaces ++ s.pendingPlaces ++ (s.heldPlaces base).erase p, ?_, ?_⟩
  · have hperm := perm_cons_erase hp
    refine perm_iff_count.mpr fun q => ?_
    have hcount := perm_iff_count.mp hperm q
    rw [count_cons] at hcount
    simp only [live, count_append, count_cons]
    omega
  rw [live, hqueue, h.heldPlaces_giveBack, hfilter]
  refine perm_iff_count.mpr fun q => ?_
  simp only [pendingPlaces, recycleOne, giveBack, count_append, count_cons, count_nil]
  omega

theorem mem_live_recycled {q : Nat} : q ∈ (s.recycleOne (base + p)).live base ↔
    q = s.ring.published.length ∨ (q ∈ s.live base ∧ q ≠ p) := by
  obtain ⟨rest, hbefore, hafter⟩ := h.live_recycled hp
  have hnot : p ∉ rest := (nodup_cons.mp (hbefore.nodup_iff.mp h.nodup)).1
  rw [hafter.mem_iff, mem_cons, hbefore.mem_iff, mem_cons]
  constructor
  · rintro (rfl | hq)
    · exact .inl rfl
    · exact .inr ⟨.inr hq, fun heq => hnot (heq ▸ hq)⟩
  rintro (rfl | ⟨rfl | hq, hne⟩)
  · exact .inl rfl
  · exact absurd rfl hne
  · exact .inr hq

/-- Up to the mark, only the recycled place is gone. -/
theorem live_of_recycled {q : Nat} (hq : q ∈ (s.recycleOne (base + p)).live base) (hlt : q < m) :
    q ∈ s.live base ∧ q ≠ p ∧ (s.recycleOne (base + p)).ring.logged q = s.ring.logged q := by
  have hmark := h.preserved_le
  have hle := h.taken_le
  obtain rfl | ⟨hq, hqp⟩ := (h.mem_live_recycled hp).mp hq
  · omega
  · exact ⟨hq, hqp, h.logged_recycled hp (h.live_lt hq)⟩

/-- The other buffers have other ids. -/
theorem logged_ne {q : Nat} (hq : q ∈ s.live base) (hqp : q ≠ p) :
    s.ring.logged q ≠ s.ring.logged p :=
  fun heq => hqp (h.inj hq (mem_append_right _ hp) heq)

theorem ids_recycled : (((s.recycleOne (base + p)).live base).map
    (s.recycleOne (base + p)).ring.logged).Perm (List.range s.ring.count) := by
  obtain ⟨rest, hbefore, hafter⟩ := h.live_recycled hp
  have hmap : rest.map (s.recycleOne (base + p)).ring.logged = rest.map s.ring.logged :=
    map_congr_left fun q hq => h.logged_recycled hp
      (h.live_lt (hbefore.mem_iff.mpr (mem_cons_of_mem _ hq)))
  refine (hafter.map _).trans ?_
  rw [map_cons, h.logged_recycled_last hp, hmap, ← map_cons]
  exact (hbefore.map s.ring.logged).symm.trans h.ids

section

variable (hfits : base + s.ring.published.length < 2 ^ 32)
include hfits

theorem idPos_recycled {q : Nat} (hq : q ∈ (s.recycleOne (base + p)).live base) :
    (s.recycleOne (base + p)).ring.idPos ((s.recycleOne (base + p)).ring.logged q) = base + q := by
  have hring : (s.recycleOne (base + p)).ring = _ := h.recycleBundled_eq hp
  obtain rfl | ⟨hq, hqp⟩ := (h.mem_live_recycled hp).mp hq
  · rw [h.logged_recycled_last hp, hring]
    exact (set_self _ _ _).trans (h.tail.trans (addPos_eq hfits))
  · rw [h.logged_recycled hp (h.live_lt hq), hring]
    exact (set_of_ne _ _ (h.logged_ne hp hq hqp)).trans (h.idPos q hq)

/-- The new position takes the slot of a place that is too old to be looked up there. -/
theorem order_recycled {q : Nat} (hq : q ≤ s.ring.published.length)
    (hwindow : s.ring.published.length < q + s.ring.count) :
    (s.recycleOne (base + p)).ring.ringOrder ((base + q) % s.ring.count) =
      (s.recycleOne (base + p)).ring.logged q := by
  have hring : (s.recycleOne (base + p)).ring = _ := h.recycleBundled_eq hp
  have htail : s.ring.tailPos = base + s.ring.published.length := h.tail.trans (addPos_eq hfits)
  by_cases hlast : q = s.ring.published.length
  · subst hlast
    rw [h.logged_recycled_last hp, hring]
    simp only [publish, htail]
    exact set_self _ _ _
  have hslot : (base + q) % s.ring.count ≠ s.ring.tailPos % s.ring.count := by
    rw [htail, show base + s.ring.published.length =
      base + q + (s.ring.published.length - q) by omega]
    exact (OpenTable.add_mod_ne (by omega) (by omega)).symm
  rw [h.logged_recycled hp (by omega), hring]
  exact (set_of_ne _ _ hslot).trans (h.order q (by omega) (by omega))

end

theorem saved_recycled (key id : Nat) :
    (s.ring.bundleSaved.erase bundleHash (base + p)).Has key id ↔
      ∃ q ∈ (s.recycleOne (base + p)).live base, q < m ∧ key = base + q ∧
        id = (s.recycleOne (base + p)).ring.logged q := by
  rw [(h.sound.erase (base + p)).2.2, h.saved]
  constructor
  · rintro ⟨hkey, q, hq, hlt, rfl, rfl⟩
    exact ⟨q, (h.mem_live_recycled hp).mpr (.inr ⟨hq, fun heq => hkey (by rw [heq])⟩), hlt, rfl,
      (h.logged_recycled hp (h.live_lt hq)).symm⟩
  rintro ⟨q, hq, hlt, rfl, rfl⟩
  obtain ⟨hq, hqp, hlogged⟩ := h.live_of_recycled hp hq hlt
  exact ⟨by omega, q, hq, hlt, rfl, hlogged⟩

theorem hasSaved_recycled (id : Nat) :
    BufferRing.set s.ring.bundleHasSavedPos (s.ring.logged p) false id = true ↔
      ∃ q ∈ (s.recycleOne (base + p)).live base, q < m ∧
        (s.recycleOne (base + p)).ring.logged q = id := by
  by_cases hid : id = s.ring.logged p
  · subst hid
    rw [set_self]
    refine ⟨fun hno => absurd hno Bool.false_ne_true, ?_⟩
    rintro ⟨q, hq, hlt, heq⟩
    obtain ⟨hq, hqp, hlogged⟩ := h.live_of_recycled hp hq hlt
    exact absurd (hlogged.symm.trans heq) (h.logged_ne hp hq hqp)
  rw [set_of_ne _ _ hid, h.hasSaved]
  constructor
  · rintro ⟨q, hq, hlt, heq⟩
    refine ⟨q, (h.mem_live_recycled hp).mpr (.inr ⟨hq, ?_⟩), hlt,
      (h.logged_recycled hp (h.live_lt hq)).trans heq⟩
    rintro rfl
    exact hid heq.symm
  rintro ⟨q, hq, hlt, heq⟩
  obtain ⟨hq, -, hlogged⟩ := h.live_of_recycled hp hq hlt
  exact ⟨q, hq, hlt, hlogged.symm.trans heq⟩

/-- Recycling a buffer keeps the invariant. -/
theorem recycled (hfits : base + s.ring.published.length < 2 ^ 32) :
    Bundled base m (s.recycleOne (base + p)) := by
  have hring : (s.recycleOne (base + p)).ring = _ := h.recycleBundled_eq hp
  have hcounts : (s.recycleOne (base + p)).ring.count = s.ring.count := by rw [hring]; rfl
  have hlength : (s.recycleOne (base + p)).ring.published.length =
      s.ring.published.length + 1 := by
    rw [h.published_recycled hp, length_append, length_singleton]
  have hkept : Kept base (s.recycleOne (base + p)) :=
    h.toKept.of_grown (recycleBundled_grown s.ring (base + p)) rfl (fun _ => id)
      fun lease hlease => .inl (mem_filter.mp hlease).1
  obtain ⟨hsound, hsize, -⟩ := h.sound.erase (base + p)
  refine { hkept with
    mode := hring ▸ h.mode, ids := hcounts ▸ h.ids_recycled hp
    idPos := fun q => h.idPos_recycled hp hfits, order := ?_, preserved := hring ▸ h.preserved
    preserved_le := h.preserved_le, gone := ?_, heldSaved := ?_, sound := hring ▸ hsound
    size := ?_, saved := ?_, hasSaved := ?_, savedPos := ?_, ready := ?_ }
  · intro q hq hwindow
    rw [hcounts] at hwindow ⊢
    exact h.order_recycled hp hfits (by omega) (by omega)
  · intro q hq hnot
    rw [h.mem_live_recycled hp, not_or, not_and_not_right] at hnot
    by_cases hlive : q ∈ s.live base
    · rw [hnot.2 hlive]
      exact h.heldSaved p hp
    · exact h.gone q (by omega) hlive
  · intro q hq
    rw [h.heldPlaces_giveBack] at hq
    exact h.heldSaved q (mem_filter.mp hq).1
  · rw [hcounts, hring]
    exact hsize.trans h.size
  · rw [congrArg bundleSaved hring]
    exact h.saved_recycled hp
  · rw [congrArg bundleHasSavedPos hring]
    exact h.hasSaved_recycled hp
  · intro q hq hlt
    obtain ⟨hq, -, hlogged⟩ := h.live_of_recycled hp hq hlt
    rw [hlogged, hring]
    exact h.savedPos q hq hlt
  · intro i
    rw [hring]
    simp only [publish, BufferRing.set, Function.update_apply, h.ready, ite_self]

end

/-- Recycling buffers publishes them in the order of the list and keeps the invariant. -/
theorem recycled_all {positions : List Nat} (hnodup : positions.Nodup)
    (hheld : ∀ pos ∈ positions, ∃ p ∈ s.heldPlaces base, pos = base + p)
    (hfits : base + (s.ring.published.length + positions.length) ≤ 2 ^ 32) :
    Bundled base m (positions.foldl recycleOne s) ∧
      (positions.foldl recycleOne s).ring.published =
        s.ring.published ++ positions.map fun pos => s.ring.logged (pos - base) := by
  induction positions generalizing s with
  | nil => exact ⟨h, (append_nil _).symm⟩
  | cons pos positions ih =>
    obtain ⟨p, hp, rfl⟩ := hheld pos mem_cons_self
    obtain ⟨hnot, hnodup⟩ := nodup_cons.mp hnodup
    rw [length_cons] at hfits
    have hnext := h.recycled hp (by omega)
    have hpub := h.published_recycled hp
    have hlength : (s.recycleOne (base + p)).ring.published.length =
        s.ring.published.length + 1 := by
      rw [hpub, length_append, length_singleton]
    obtain ⟨hbundled, heq⟩ := ih hnext hnodup (h.held_giveBack _ hnot hheld) (by omega)
    refine ⟨hbundled, ?_⟩
    rw [foldl_cons, heq, hpub, append_assoc, map_cons, Nat.add_sub_cancel_left]
    congr 1
    refine congrArg _ (map_congr_left fun pos hpos => ?_)
    obtain ⟨q, hq, rfl⟩ := hheld pos (mem_cons_of_mem _ hpos)
    have hlt := h.live_lt (mem_append_right _ hq)
    rw [Nat.add_sub_cancel_left]
    exact logged_of_append hpub hlt

end

theorem length_foldl_recycleBundled (positions : List Nat) (r : BufferRing) :
    (positions.foldl recycleBundled r).published.length =
      r.published.length + positions.length := by
  induction positions generalizing r with
  | nil => rfl
  | cons pos positions ih =>
    rw [foldl_cons, ih, length_cons]
    simp only [recycleBundled, publish, length_append, length_singleton]
    omega

/-- The move of the application that recycles a range. -/
theorem step_recycle (hmode : s.ring.recvBundle = true) (startPos cnt : Nat) :
    s.step (.recycle startPos cnt) = (rangePositions startPos cnt).foldl recycleOne s := by
  have hring : s.ring.recycleRange startPos cnt =
      (rangePositions startPos cnt).foldl recycleBundled s.ring := by
    rw [recycleRange, rangePositions, foldl_map, if_pos hmode]
    split
    · rename_i hzero
      rw [hzero]
      rfl
    · rfl
  rw [show recycleOne = giveBack recycleBundled from rfl, foldl_giveBack, ← hring]
  rfl

theorem length_recycle (hmode : s.ring.recvBundle = true) (startPos cnt : Nat) :
    (s.step (.recycle startPos cnt)).ring.published.length = s.ring.published.length + cnt := by
  rw [step_recycle hmode, show recycleOne = giveBack recycleBundled from rfl, foldl_giveBack,
    length_foldl_recycleBundled, rangePositions, length_map, length_range]

/-- Recycling a range keeps the invariant. -/
theorem recycle (h : Bundled base m s) {startPos : Nat}
    (hconforms : s.conforms (.recycle startPos cnt) = true)
    (hfits : base + (s.step (.recycle startPos cnt)).ring.published.length ≤ 2 ^ 32) :
    Bundled base m (s.step (.recycle startPos cnt)) ∧
      (s.step (.recycle startPos cnt)).ring.published = s.ring.published ++
        (rangePositions startPos cnt).map fun pos => s.ring.logged (pos - base) := by
  obtain ⟨hnodup, hheld⟩ := h.recycled_held hconforms
  rw [length_recycle h.mode] at hfits
  rw [step_recycle h.mode]
  refine h.recycled_all hnodup hheld ?_
  rwa [rangePositions, length_map, length_range]

/-! ## Runs -/

/-- A completion keeps the invariant. -/
theorem complete (h : Bundled base m s) {total : Nat}
    (hconforms : s.conforms (.complete cnt total) = true) :
    Bundled base m (s.step (.complete cnt total)) := by
  have hkept := h.toKept.complete hconforms
  have hperm : ((s.step (.complete cnt total)).live base).Perm (s.live base) :=
    live_complete hkept.taken_le
  exact h.of_perm rfl (Nat.le_add_right _ _) hperm hkept h.heldSaved

/-- A move keeps the invariant as long as the positions suffice. -/
theorem step (h : Bundled base m s) {move : RingMove} (hconforms : s.conforms move = true)
    (hbefore : base + s.ring.published.length < 2 ^ 32)
    (hfits : base + (s.step move).ring.published.length ≤ 2 ^ 32) :
    ∃ m', Bundled base m' (s.step move) := by
  cases move with
  | complete cnt total => exact ⟨m, h.complete hconforms⟩
  | decode index => exact h.decode (of_decide_eq_true hconforms) hbefore
  | recycle startPos cnt => exact ⟨m, (h.recycle hconforms hfits).1⟩

theorem create {bufSize count : Nat} (hcount : 0 < count) (hbase : count ∣ base)
    (hfits : base + count ≤ 2 ^ 32) :
    Bundled base 0 (RingSystem.create bufSize count true base) := by
  have hlive : (RingSystem.create bufSize count true base).live base = List.range count := by
    simp [RingSystem.live, queuePlaces, pendingPlaces,
      heldPlaces, RingSystem.create, BufferRing.create, range_eq_range']
  have hlength : (RingSystem.create bufSize count true base).ring.published.length = count :=
    length_range
  refine ⟨.create hcount, rfl, ?_, ?_, ?_, rfl, Nat.le_refl _, ?_, ?_, ?_, rfl, ?_, ?_, ?_,
    fun _ => rfl⟩
  · rw [hlive, map_congr_left fun p hp => logged_create (mem_range.mp hp), map_id']
    exact Perm.refl _
  · intro p hp
    rw [hlive] at hp
    have hp := mem_range.mp hp
    rw [logged_create hp]
    exact addPos_eq (by omega)
  · intro p hp _
    rw [hlength] at hp
    rw [logged_create hp]
    obtain ⟨k, rfl⟩ := hbase
    exact (Nat.mul_add_mod _ _ _).trans (Nat.mod_eq_of_lt hp)
  · intro p hp hnot
    rw [hlive] at hnot
    rw [hlength] at hp
    exact absurd (mem_range.mpr hp) hnot
  · intro p hp
    exact absurd hp not_mem_nil
  · exact OpenTable.sound_empty (by omega)
  · intro key id
    refine ⟨?_, ?_⟩
    · rintro ⟨i, hslot⟩
      cases hslot
    · rintro ⟨p, -, hp, -⟩
      exact absurd hp (Nat.not_lt_zero p)
  · intro id
    refine ⟨fun hno => absurd hno Bool.false_ne_true, ?_⟩
    rintro ⟨p, -, hp, -⟩
    exact absurd hp (Nat.not_lt_zero p)
  · intro p _ hp
    exact absurd hp (Nat.not_lt_zero p)

end Bundled

end Conflux.SocketIo

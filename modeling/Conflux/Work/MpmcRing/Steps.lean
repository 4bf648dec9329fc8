import Mathlib.Data.List.Nodup
import Conflux.Work.MpmcRing.Invariant

/-!
# Each step of a ring call keeps the invariant

One lemma for each way a step changes the ring, and from them the rules for interleaved threads.
-/

namespace Conflux.Work

open List MpmcRing

open Conflux.Core (Threads Modular Answered)
open RingState (step)

variable {T : Type} {cap : Nat} {s : RingState T}

namespace RingInv

variable {pos : Nat} {r : RingState T × Pc T} {k' : Pc T}

section

variable (h : RingInv cap s)
include h

theorem log_append (item : T) (hpos : pos < s.ring.head) : (s.log ++ [item])[pos]? = s.log[pos]? :=
  List.getElem?_append_left (by rw [h.log_length]; exact hpos)

theorem claimPush (item : T) (hhead : s.ring.head = pos) (hseq : s.ring.seq pos = pos) :
    RingInv cap { s with ring := { s.ring with head := pos + 1 }, log := s.log ++ [item] } := by
  have htwo := h.round.two_le
  have hle := h.tail_le
  refine { h with round := ⟨htwo, h.round.capacity_eq, h.round.index_eq⟩, log_length := ?_,
                  tail_le := ?_, slot := ?_, held := ?_, done_seq := ?_, returned_eq := ?_ }
  · rw [length_append, h.log_length, hhead]
    rfl
  · change s.ring.tail ≤ pos + 1
    omega
  · intro q
    obtain ⟨p, hp⟩ := h.slot q
    have hnext : s.ring.head ≠ p + cap := by
      -- The slot of the head waits for the head, not for the round before.
      intro heq
      have hindex : s.ring.index pos = s.ring.index q := by
        rw [← hhead, heq, h.round.index_add, hp.index_eq]
      have hsame := s.ring.seq_congr hindex
      rcases hp.phase with ⟨hwait, _⟩ | ⟨hheld, _⟩ <;> omega
    have hhead' := hp.head_le
    refine ⟨p, hp.index_eq, hp.lt_tail, ?_, ?_⟩
    · change pos + 1 ≤ p + cap
      omega
    rcases hp.phase with hwait | ⟨hheld, hlt⟩
    · exact .inl hwait
    refine .inr ⟨hheld, ?_⟩
    change p < pos + 1
    omega
  · intro q htail hlt hq
    change q < pos + 1 at hlt
    change s.ring.seq q = q + 1 at hq
    have hne : q ≠ pos := by
      rintro rfl
      omega
    rw [h.log_append item (by omega)]
    exact h.held q htail (by omega) hq
  · intro q hq
    obtain ⟨hlt, hseq'⟩ := h.done_seq q hq
    refine ⟨?_, hseq'⟩
    change q < pos + 1
    omega
  intro r hr
  obtain ⟨hlt, hitem⟩ := h.returned_eq r hr
  refine ⟨hlt, ?_⟩
  rw [h.log_append item (by omega)]
  exact hitem

/-- A slot that holds no item to be kept may get any item. -/
theorem setItem (item : Option T)
    (hfree : ∀ q, s.ring.tail ≤ q → s.ring.seq q = q + 1 → s.ring.index q ≠ s.ring.index pos) :
    RingInv cap { s with ring := s.ring.setItem pos item } := by
  refine { h with round := h.round.setItem pos item, slot := ?_, held := ?_, done_seq := ?_,
                  returned_seq := ?_ }
  · intro q
    obtain ⟨p, hp⟩ := h.slot q
    refine ⟨p, hp.index_eq, hp.lt_tail, hp.head_le, ?_⟩
    rw [seq_setItem]
    exact hp.phase
  · intro q htail hlt hq
    rw [seq_setItem] at hq
    rw [item_setItem, if_neg (hfree q htail hq)]
    exact h.held q htail hlt hq
  · intro q hq
    rw [seq_setItem]
    exact h.done_seq q hq
  · intro q hq
    rw [seq_setItem]
    exact h.returned_seq q hq

theorem fill (item : Option T) (hseq : s.ring.seq pos = pos) :
    RingInv cap { s with ring := s.ring.setItem pos item } := by
  refine h.setItem item fun q _ hq hindex => ?_
  have hsucc : q + 1 = pos := by rw [← hq, s.ring.seq_congr hindex, hseq]
  exact h.round.index_succ_ne q (by rw [hsucc, hindex])

theorem empty (hlt : pos < s.ring.tail) (hseq : s.ring.seq pos = pos + 1) :
    RingInv cap { s with ring := s.ring.setItem pos none } := by
  refine h.setItem none fun q htail hq hindex => ?_
  have hsame := s.ring.seq_congr hindex
  omega

theorem publish (hlt : pos < s.ring.head) (hseq : s.ring.seq pos = pos)
    (hitem : s.ring.item pos = s.log[pos]?) :
    RingInv cap
      { s with ring := s.ring.setSeq pos (pos + 1), done := s.done ++ [pos] } := by
  have hgrow := s.ring.seq_le_setSeq (show s.ring.seq pos ≤ pos + 1 by omega)
  refine { h with round := h.round.setSeq pos (pos + 1), slot := ?_, held := ?_,
                  done_seq := ?_, returned_seq := ?_ }
  · intro q
    obtain ⟨p, hp⟩ := h.slot q
    refine ⟨p, hp.index_eq, hp.lt_tail, hp.head_le, ?_⟩
    rw [seq_setSeq]
    split
    · rename_i hindex
      have hsame : s.ring.seq q = pos := (s.ring.seq_congr hindex).trans hseq
      obtain ⟨p', hp'⟩ := h.slot pos
      rcases hp.phase with ⟨hwait, _⟩ | ⟨hheld, _⟩
      · exact .inr ⟨by omega, by change p < s.ring.head; omega⟩
      have hsucc : p + 1 = pos := by omega
      refine absurd ?_ (h.round.index_succ_ne p)
      rw [hsucc, hp.index_eq, hindex]
    · exact hp.phase
  · intro q htail hq hsucc
    rw [item_setSeq]
    rw [seq_setSeq] at hsucc
    split at hsucc
    · have heq : q = pos := by omega
      rw [heq]
      exact hitem
    · exact h.held q htail hq hsucc
  · intro q hq
    rcases mem_append.mp hq with hold | hnew
    · obtain ⟨hq', hseq'⟩ := h.done_seq q hold
      exact ⟨hq', le_trans hseq' (hgrow q)⟩
    · rw [mem_singleton.mp hnew, seq_setSeq, if_pos rfl]
      exact ⟨hlt, le_refl _⟩
  · intro q hq
    exact le_trans (h.returned_seq q hq) (hgrow q)

theorem claimPop (htail : s.ring.tail = pos) (hseq : s.ring.seq pos = pos + 1)
    (hlt : pos < s.ring.head) :
    RingInv cap
      { s with ring := { s.ring with tail := pos + 1 }, claims := s.claims ++ [pos] } := by
  refine { h with round := ⟨h.round.two_le, h.round.capacity_eq, h.round.index_eq⟩,
                  claims_eq := ?_, tail_le := hlt, slot := ?_, held := ?_,
                  returned_eq := ?_ }
  · change s.claims ++ [pos] = List.range (pos + 1)
    rw [h.claims_eq, htail, range_succ]
  · intro q
    obtain ⟨p, hp⟩ := h.slot q
    have hlt' := hp.lt_tail
    refine ⟨p, hp.index_eq, ?_, hp.head_le, ?_⟩
    · change p < pos + 1 + cap
      omega
    rcases hp.phase with ⟨hwait, hle⟩ | hheld
    · refine .inl ⟨hwait, ?_⟩
      change pos + 1 ≤ p
      have hne : p ≠ pos := by
        rintro rfl
        have hsame := s.ring.seq_congr hp.index_eq
        omega
      omega
    · exact .inr hheld
  · intro q hle hq hsucc
    change pos + 1 ≤ q at hle
    exact h.held q (by omega) hq hsucc
  intro r hr
  obtain ⟨hlt', hitem⟩ := h.returned_eq r hr
  refine ⟨?_, hitem⟩
  change r.1 < pos + 1
  omega

theorem release {item : Option T} (hlt : pos < s.ring.tail)
    (hseq : s.ring.seq pos = pos + 1) (hitem : item = s.log[pos]?) :
    RingInv cap { s with
      ring := s.ring.setSeq pos (pos + s.ring.capacity)
      returned := s.returned ++ [(pos, item)] } := by
  have htwo := h.round.two_le
  have hcap := h.round.capacity_eq
  have hle := h.tail_le
  rw [hcap]
  have hgrow := s.ring.seq_le_setSeq (show s.ring.seq pos ≤ pos + cap by omega)
  refine { h with round := h.round.setSeq pos (pos + cap), slot := ?_, held := ?_,
                  done_seq := ?_, returned_eq := ?_, returned_seq := ?_, returned_once := ?_ }
  · intro q
    by_cases hindex : s.ring.index q = s.ring.index pos
    · obtain ⟨p, hp⟩ := h.slot pos
      have heq := hp.eq_of_held h.round hseq
      have hhead := hp.head_le
      refine ⟨pos + cap, ?_, ?_, ?_, .inl ⟨?_, ?_⟩⟩
      · change s.ring.index (pos + cap) = s.ring.index q
        rw [h.round.index_add, hindex]
      · change pos + cap < s.ring.tail + cap
        omega
      · change s.ring.head ≤ pos + cap + cap
        omega
      · rw [seq_setSeq, if_pos hindex]
      · change s.ring.tail ≤ pos + cap
        omega
    obtain ⟨p, hp⟩ := h.slot q
    refine ⟨p, hp.index_eq, hp.lt_tail, hp.head_le, ?_⟩
    rw [seq_setSeq, if_neg hindex]
    exact hp.phase
  · intro q htail hq hsucc
    rw [item_setSeq]
    rw [seq_setSeq] at hsucc
    split at hsucc
    · rename_i hindex
      refine absurd ?_ (h.round.index_succ_ne q)
      rw [← hsucc, h.round.index_add, hindex]
    · exact h.held q htail hq hsucc
  · intro q hq
    obtain ⟨hq', hseq'⟩ := h.done_seq q hq
    exact ⟨hq', le_trans hseq' (hgrow q)⟩
  · exact forall_mem_append.mpr ⟨h.returned_eq, forall_mem_singleton.mpr ⟨hlt, hitem⟩⟩
  · intro q hq
    rw [map_append, mem_append] at hq
    rcases hq with hold | hnew
    · exact le_trans (h.returned_seq q hold) (hgrow q)
    · rw [map_singleton, mem_singleton] at hnew
      rw [hnew, seq_setSeq, if_pos rfl]
  rw [map_append, map_singleton]
  refine nodup_append.mpr ⟨h.returned_once, nodup_singleton _, ?_⟩
  intro q hq q' hq' heq
  rw [mem_singleton.mp hq'] at heq
  have hge := h.returned_seq q hq
  rw [heq] at hge
  change pos + cap ≤ s.ring.seq pos at hge
  omega

/-- What a step does to the shared part and to its own thread. -/
theorem step {k : Pc T} (hknows : k.Knows s) (hdid : Did s k r) :
    RingInv cap r.1 ∧ r.2.Knows r.1 := by
  cases hdid with
  | stay => exact ⟨h, hknows⟩
  | quiet _ _ _ _ hknows' => exact ⟨h, hknows'⟩
  | @claimPush item pos hk hhead =>
    subst hk
    obtain ⟨p, hp⟩ := h.slot pos
    have hseq := hp.seq_head h.round h.tail_le hhead hknows
    refine ⟨h.claimPush item hhead hseq, Nat.lt_succ_self pos, hseq, ?_⟩
    have hlength : pos = s.log.length := by rw [h.log_length, hhead]
    rw [hlength, List.getElem?_concat_length]
  | @fill item pos hk =>
    subst hk
    obtain ⟨hlt, hseq, hlog⟩ := hknows
    refine ⟨h.fill (some item) hseq, hlt, ?_, ?_⟩
    · rw [seq_setItem]
      exact hseq
    · rw [item_setItem, if_pos rfl]
      exact hlog.symm
  | @publish pos hk =>
    subst hk
    obtain ⟨hlt, hseq, hitem⟩ := hknows
    exact ⟨h.publish hlt hseq hitem, trivial⟩
  | @claimPop pos hk htail =>
    subst hk
    obtain ⟨p, hp⟩ := h.slot pos
    obtain ⟨hseq, hlt⟩ := hp.seq_tail h.round (le_of_eq htail) hknows
    exact ⟨h.claimPop htail hseq hlt, Nat.lt_succ_self pos, hseq,
      h.held pos (le_of_eq htail) hlt hseq⟩
  | @empty pos hk =>
    subst hk
    obtain ⟨hlt, hseq, hitem⟩ := hknows
    refine ⟨h.empty hlt hseq, hlt, ?_, hitem⟩
    rw [seq_setItem]
    exact hseq
  | @release pos item hk =>
    subst hk
    obtain ⟨hlt, hseq, hitem⟩ := hknows
    exact ⟨h.release hlt hseq hitem, trivial⟩

/-- The slots of another thread's claims are not the slot of one's own. -/
theorem index_ne {k : Pc T} (hknows : k.Knows s) (hknows' : k'.Knows s)
    (hapart : k.Apart k') {pos' : Nat} (hpos : k.pushing = some pos ∨ k.popping = some pos)
    (hpos' : k'.pushing = some pos' ∨ k'.popping = some pos') :
    s.ring.index pos' ≠ s.ring.index pos := by
  intro hindex
  have hsame := s.ring.seq_congr hindex
  rcases hpos with hpush | hpop <;> rcases hpos' with hpush' | hpop'
  · have hseq := (hknows.pushing hpush).2
    have hseq' := (hknows'.pushing hpush').2
    have heq : pos' = pos := by omega
    exact hapart.1 pos hpush (heq ▸ hpush')
  · have hseq := (hknows.pushing hpush).2
    have hseq' := (hknows'.popping hpop').2
    have heq : pos = pos' + 1 := by omega
    exact h.round.index_succ_ne pos' (by rw [← heq, hindex])
  · have hseq := (hknows.popping hpop).2
    have hseq' := (hknows'.pushing hpush').2
    have heq : pos' = pos + 1 := by omega
    exact h.round.index_succ_ne pos (by rw [← heq, hindex])
  have hseq := (hknows.popping hpop).2
  have hseq' := (hknows'.popping hpop').2
  have heq : pos' = pos := by omega
  exact hapart.2 pos hpop (heq ▸ hpop')

/-- A step leaves another thread what it knows. -/
theorem step_other {k : Pc T} (hknows : k.Knows s) (hknows' : k'.Knows s)
    (hapart : k.Apart k') (hdid : Did s k r) :
    k'.Knows r.1 := by
  have hlog := h.log_length
  have hle := h.tail_le
  have hitem {pos : Nat} {x : Option T} (hpos : k.pushing = some pos ∨ k.popping = some pos) :
      k'.Knows { s with ring := s.ring.setItem pos x } := by
    refine hknows'.mono hlog hle (le_refl _) (le_refl _) (fun _ _ => rfl) ?_ ?_
    · intro p
      rw [seq_setItem]
    intro p hp
    have hne := h.index_ne hknows hknows' hapart hpos hp
    rw [seq_setItem, item_setItem, if_neg hne]
    exact ⟨rfl, rfl⟩
  have hseq' {s' : RingState T} {pos v : Nat} (hring : s'.ring = s.ring.setSeq pos v)
      (hsame : s'.log = s.log) (hpos : k.pushing = some pos ∨ k.popping = some pos)
      (hv : s.ring.seq pos ≤ v) : k'.Knows s' := by
    refine hknows'.mono hlog hle ?_ ?_ (fun _ _ => by rw [hsame]) ?_ ?_
    · exact le_of_eq (by rw [hring]; rfl)
    · exact le_of_eq (by rw [hring]; rfl)
    · rw [hring]
      exact s.ring.seq_le_setSeq hv
    intro p hp
    have hne := h.index_ne hknows hknows' hapart hpos hp
    rw [hring, seq_setSeq, if_neg hne, item_setSeq]
    exact ⟨rfl, rfl⟩
  cases hdid with
  | stay | quiet _ _ _ _ _ => exact hknows'
  | @claimPush item pos hk hhead =>
    refine hknows'.mono hlog hle ?_ (le_refl _) ?_ (fun _ => le_refl _)
      (fun _ _ => ⟨rfl, rfl⟩)
    · change s.ring.head ≤ pos + 1
      omega
    · intro p hp
      exact List.getElem?_append_left hp
  | fill hk => exact hitem (.inl (by rw [hk]; rfl))
  | @publish pos hk =>
    have hseq : s.ring.seq pos = pos := (hknows.pushing (by rw [hk]; rfl)).2
    exact hseq' rfl rfl (.inl (by rw [hk]; rfl)) (by omega)
  | @claimPop pos hk htail =>
    refine hknows'.mono hlog hle (le_refl _) ?_ (fun _ _ => rfl) (fun _ => le_refl _)
      (fun _ _ => ⟨rfl, rfl⟩)
    change s.ring.tail ≤ pos + 1
    omega
  | empty hk => exact hitem (.inr (by rw [hk]; rfl))
  | @release pos item hk =>
    have hseq : s.ring.seq pos = pos + 1 := (hknows.popping (by rw [hk]; rfl)).2
    have htwo := h.round.two_le
    have hcap := h.round.capacity_eq
    exact hseq' rfl rfl (.inr (by rw [hk]; rfl)) (by omega)

end

end RingInv

/-- The position a step claims is claimed by no other thread. -/
theorem apart_step {k k' : Pc T} (hapart : k.Apart k') (hknows' : k'.Knows s)
    {r : RingState T × Pc T} (hdid : Did s k r) : r.2.Apart k' := by
  cases hdid with
  | stay => exact hapart
  | quiet _ _ hpushing hpopping _ =>
    exact Pc.apart_of_none hpushing hpopping
  | @claimPush item pos hk hhead =>
    refine ⟨?_, fun p hp => by cases hp⟩
    intro p hp hp'
    cases hp
    have hlt := (hknows'.pushing hp').1
    omega
  | @fill item pos hk =>
    subst hk
    exact ⟨hapart.1, fun p hp => by cases hp⟩
  | @publish pos hk => exact Pc.apart_of_none rfl rfl
  | @claimPop pos hk htail =>
    refine ⟨fun _ hp => (by cases hp), ?_⟩
    intro p hp hp'
    cases hp
    have hlt := (hknows'.popping hp').1
    omega
  | @empty pos hk =>
    subst hk
    exact ⟨fun _ hp => (by cases hp), hapart.2⟩
  | @release pos item hk => exact Pc.apart_of_none rfl rfl

theorem modular_step (cap : Nat) :
    Modular (step (T := T)) (RingInv cap) (fun s k => k.Knows s) Pc.Apart where
  symm := Pc.Apart.symm
  own h hknows m := h.step hknows (RingState.step_did m _ _)
  other h hknows hknows' hapart m := h.step_other hknows hknows' hapart (RingState.step_did m _ _)
  apart _ _ hknows' hapart m := apart_step hapart hknows' (RingState.step_did m _ _)

/-- A position claimed by a push and not published has a thread that pushes there. -/
theorem answered_push (cap : Nat) :
    Answered (step (T := T)) (RingInv cap) (fun s k => k.Knows s)
      (fun s pos => pos < s.ring.head ∧ s.ring.seq pos = pos)
      (fun k pos => k.pushing = some pos) := by
  refine ⟨fun {s k} h hknows m p hneed => ?_⟩
  generalize hr : step m s k = r at hneed
  have hdid : Did s k r := hr ▸ RingState.step_did m s k
  obtain ⟨hlt, hseq⟩ := hneed
  cases hdid with
  | stay =>
    by_cases hown : k.pushing = some p
    · exact .inl hown
    · exact .inr ⟨⟨hlt, hseq⟩, hown⟩
  | quiet hpushing _ _ _ _ => exact .inr ⟨⟨hlt, hseq⟩, by simp [hpushing]⟩
  | @claimPush item pos hk hhead =>
    subst hk
    change p < pos + 1 at hlt
    by_cases heq : p = pos
    · exact .inl (by rw [heq]; rfl)
    · exact .inr ⟨⟨by omega, hseq⟩, fun hown => by cases hown⟩
  | @fill item pos hk =>
    subst hk
    by_cases heq : p = pos
    · exact .inl (by rw [heq]; rfl)
    change (s.ring.setItem pos (some item)).seq p = p at hseq
    rw [seq_setItem] at hseq
    refine .inr ⟨⟨hlt, hseq⟩, fun hown => ?_⟩
    cases hown
    exact heq rfl
  | @publish pos hk =>
    subst hk
    rw [seq_setSeq] at hseq
    split at hseq
    · rename_i hindex
      exact absurd (hseq ▸ hindex) (h.round.index_succ_ne pos)
    rename_i hindex
    refine .inr ⟨⟨hlt, hseq⟩, fun hown => ?_⟩
    cases hown
    exact hindex rfl
  | @claimPop pos hk htail =>
    subst hk
    exact .inr ⟨⟨hlt, hseq⟩, fun hown => by cases hown⟩
  | @empty pos hk =>
    subst hk
    rw [seq_setItem] at hseq
    exact .inr ⟨⟨hlt, hseq⟩, fun hown => by cases hown⟩
  | @release pos item hk =>
    subst hk
    -- The slot's next round lies at or after the head.
    have hcap := h.round.capacity_eq
    obtain ⟨q, hq⟩ := h.slot pos
    have heq := hq.eq_of_held h.round hknows.2.1
    have hhead := hq.head_le
    change p < s.ring.head at hlt
    rw [seq_setSeq] at hseq
    split at hseq
    · omega
    · exact .inr ⟨⟨hlt, hseq⟩, fun hown => by cases hown⟩

/-- A position claimed by a pop and not returned has a thread that pops there. -/
theorem answered_pop (cap : Nat) :
    Answered (step (T := T)) (RingInv cap) (fun s k => k.Knows s)
      (fun s pos => pos < s.ring.tail ∧ pos ∉ s.returned.map Prod.fst)
      (fun k pos => k.popping = some pos) := by
  refine ⟨fun {s k} h hknows m p hneed => ?_⟩
  generalize hr : step m s k = r at hneed
  have hdid : Did s k r := hr ▸ RingState.step_did m s k
  obtain ⟨hlt, hreturned⟩ := hneed
  cases hdid with
  | stay =>
    by_cases hown : k.popping = some p
    · exact .inl hown
    · exact .inr ⟨⟨hlt, hreturned⟩, hown⟩
  | quiet _ hpopping _ _ _ => exact .inr ⟨⟨hlt, hreturned⟩, by simp [hpopping]⟩
  | claimPush hk _ | fill hk | publish hk =>
    subst hk
    exact .inr ⟨⟨hlt, hreturned⟩, fun hown => by cases hown⟩
  | @claimPop pos hk htail =>
    subst hk
    change p < pos + 1 at hlt
    by_cases heq : p = pos
    · exact .inl (by rw [heq]; rfl)
    · exact .inr ⟨⟨by omega, hreturned⟩, fun hown => by cases hown⟩
  | @empty pos hk =>
    subst hk
    by_cases heq : p = pos
    · exact .inl (by rw [heq]; rfl)
    refine .inr ⟨⟨hlt, hreturned⟩, fun hown => ?_⟩
    cases hown
    exact heq rfl
  | @release pos item hk =>
    subst hk
    rw [map_append, mem_append, map_singleton, mem_singleton, not_or] at hreturned
    refine .inr ⟨⟨hlt, hreturned.1⟩, fun hown => ?_⟩
    cases hown
    exact hreturned.2 rfl

end Conflux.Work

import Conflux.Core.Ascending
import Conflux.Json.Dom.Entry

/-!
# The store of a parsed document is a tree

Every node but those of replaced values is reached from the root in one way.
-/

namespace Conflux.Json

open Conflux.Core DocumentStorage List

/-- The nodes a node points to. -/
def DocumentStorage.childrenOf (st : DocumentStorage) (i : Nat) : List Nat :=
  match st.nodes[i]? with
  | some (.array off len) => (st.arrayChildren.drop off).take len
  | some (.object off len _) => ((st.objectMembers.drop off).take len).map MemberEntry.valNode
  | _ => []

/-- The store encodes a tree. The flags tell, node by node, which nodes belong to it. -/
structure DocumentStorage.IsTree (st : DocumentStorage) (live : List Bool) : Prop where
  arrays_inside {i off len : Nat} : st.nodes[i]? = some (.array off len) →
    off + len ≤ st.arrayChildren.length
  objects_inside {i off len : Nat} {hash : HashIdx} :
    st.nodes[i]? = some (.object off len hash) → off + len ≤ st.objectMembers.length
  arrays_disjoint {i j off len off' len' : Nat} : i ≠ j →
    st.nodes[i]? = some (.array off len) → st.nodes[j]? = some (.array off' len') →
      off + len ≤ off' ∨ off' + len' ≤ off
  objects_disjoint {i j off len off' len' : Nat} {hash hash' : HashIdx} : i ≠ j →
    st.nodes[i]? = some (.object off len hash) → st.nodes[j]? = some (.object off' len' hash') →
      off + len ≤ off' ∨ off' + len' ≤ off
  child_lt (i : Nat) : ∀ c ∈ st.childrenOf i, c < i
  root_free (i : Nat) : st.rootNode ∉ st.childrenOf i
  length_live : live.length = st.nodes.length
  reached_once {i : Nat} : live[i]? = some true →
    ∃! path, follow st.childrenOf st.rootNode path = some i
  not_reached {i : Nat} : live[i]? = some false →
    ∀ path, follow st.childrenOf st.rootNode path ≠ some i

/-! ## Live nodes -/

mutual

/-- For each node of a tree in post-order, whether it belongs to the value. If the last member
stays, nodes of a value whose name comes again do not. -/
def Cst.live (policy : DuplicateKeyPolicy) : Cst → List Bool
  | .arr ts => itemsLive policy ts ++ [true]
  | .obj ms => membersLive policy [] ms ++ [true]
  | _ => [true]

/-- The nodes of the items of an array. -/
def itemsLive (policy : DuplicateKeyPolicy) : List Cst → List Bool
  | [] => []
  | t :: ts => t.live policy ++ itemsLive policy ts

/-- The nodes of members after the given names. If the first stays, a value whose name was there
has no nodes. -/
def membersLive (policy : DuplicateKeyPolicy) (seen : List Bytes) :
    List (StrTok × Cst) → List Bool
  | [] => []
  | (k, t) :: ms =>
    if policy = .firstWins ∧ seen.contains k.dec then membersLive policy seen ms
    else
      (if policy = .lastWins ∧ (ms.map fun m => m.1.dec).contains k.dec then
          (t.live policy).map fun _ => false
        else t.live policy) ++
        membersLive policy (addName seen k.dec) ms

end

/-- The numbers of the live nodes, counted from a given one. -/
def liveFrom (start : Nat) (live : List Bool) : List Nat :=
  (positions id live).map (start + ·)

theorem liveFrom_append (start : Nat) (live live' : List Bool) :
    liveFrom start (live ++ live') =
      liveFrom start live ++ liveFrom (start + live.length) live' := by
  unfold liveFrom
  rw [positions_append, map_append, map_map]
  congr 1
  apply map_congr_left
  intro i _
  exact (add_assoc start live.length i).symm

theorem liveFrom_dead (start : Nat) {α : Type} (l : List α) :
    liveFrom start (l.map fun _ => false) = [] := by
  have hnone : positions id (l.map fun _ => false) = [] := by
    apply eq_nil_iff_forall_not_mem.mpr
    intro i hi
    obtain ⟨b, hb, htrue⟩ := mem_positions.mp hi
    obtain ⟨a, -, rfl⟩ := mem_map.mp (mem_of_getElem? hb)
    cases htrue
  rw [liveFrom, hnone]
  rfl

theorem liveFrom_true (start : Nat) : liveFrom start [true] = [start] := rfl

/-! ## What a tree lays out -/

variable {i : Nat} {t : Cst} {st : DocumentStorage}

section

variable {policy : DuplicateKeyPolicy} {L L' L'' : Layout ChildTable}

/-- A layout grows by a number of nodes. -/
structure GrowsBy (L L' : Layout ChildTable) (count : Nat) : Prop where
  ok : L'.Ok
  extends_ : L.Extends L'
  length : L'.nodes.length = L.nodes.length + count

theorem GrowsBy.refl (h : L.Ok) : GrowsBy L L 0 := ⟨h, .refl L, rfl⟩

variable {n : Nat} {ms : List (StrTok × Cst)} {kept : List (Bytes × Nat)}

theorem GrowsBy.trans {m : Nat} (h : GrowsBy L L' m) (h' : GrowsBy L' L'' n) :
    GrowsBy L L'' (m + n) :=
  ⟨h'.ok, h.extends_.trans h'.extends_, by rw [h'.length, h.length, add_assoc]⟩

theorem GrowsBy.lt (h : GrowsBy L L' n) (hi : i < L.nodes.length) : i < L'.nodes.length :=
  lt_of_lt_of_le hi h.extends_.length_le

/-- What laying out a tree satisfies: its node is the last one, and the nodes below it are the
live ones. -/
structure LaysOut (L : Layout ChildTable) (live : List Bool) (r : Nat × Layout ChildTable) :
    Prop where
  grows : GrowsBy L r.2 live.length
  last : r.1 + 1 = r.2.nodes.length
  below_perm : (below r.2.kids r.1).Perm (liveFrom L.nodes.length live)

theorem LaysOut.lt {live : List Bool} {r : Nat × Layout ChildTable} (h : LaysOut L live r) :
    r.1 < r.2.nodes.length := by
  rw [← h.last]
  exact Nat.lt_succ_self _

theorem laysOut_leaf (h : L.Ok) : LaysOut L [true] L.leaf where
  grows := ⟨h.leaf, L.leaf_extends, L.length_leaf⟩
  last := L.length_leaf.symm
  below_perm := by
    rw [h.below_leaf]
    rfl

/-- Closing a container over nodes with the given live nodes below them. -/
theorem laysOut_close {live : List Bool} (h : GrowsBy L L' live.length) (k : ChildTable)
    {cs : List Nat} (hcs : ∀ c ∈ cs, c < L'.nodes.length)
    (hperm : (cs.flatMap (below L'.kids)).Perm (liveFrom L.nodes.length live)) :
    LaysOut L (live ++ [true]) (L'.close k cs) where
  grows := by
    have hclose : GrowsBy L' (L'.close k cs).2 1 :=
      ⟨h.ok.close k hcs, L'.close_extends k cs, L'.length_close k cs⟩
    rw [length_append]
    exact h.trans hclose
  last := (L'.length_close k cs).symm
  below_perm := by
    rw [h.ok.below_close k hcs, liveFrom_append, liveFrom_true, ← h.length]
    exact hperm.append_right _

/-! ### Members -/

/-- Whether a kept member is still kept after more members. -/
def survives (policy : DuplicateKeyPolicy) (ms : List (StrTok × Cst)) (x : Bytes × Nat) : Bool :=
  !decide (policy = .lastWins ∧ (ms.map fun m => m.1.dec).contains x.1)

theorem survives_cons {k : StrTok} {x : Bytes × Nat} (h : x.1 ≠ k.dec) :
    survives policy ((k, t) :: ms) x = survives policy ms x := by
  unfold survives
  simp only [map_cons, contains_iff_mem, mem_cons, h, false_or]

theorem filter_survives_cons {k : StrTok} (h : k.dec ∉ kept.map Prod.fst) :
    kept.filter (survives policy ((k, t) :: ms)) = kept.filter (survives policy ms) := by
  apply filter_congr
  intro x hx
  apply survives_cons
  intro heq
  exact h (heq ▸ mem_map_of_mem hx)

theorem filter_survives (kept : List (Bytes × Nat)) (h : policy ≠ .lastWins) :
    kept.filter (survives policy ms) = kept := by
  apply filter_eq_self.mpr
  intro x _
  simp [survives, h]

/-- One more member: the others that survive, and its own value if it survives. -/
theorem memberStep_survivors {B : Bytes × Nat → List Nat} {k : StrTok}
    (hnodup : policy = .lastWins → (kept.map Prod.fst).Nodup)
    (hnew : ¬ (policy = .firstWins ∧ k.dec ∈ kept.map Prod.fst)) :
    (((memberStep policy kept (k.dec, i)).filter (survives policy ms)).flatMap B).Perm
      ((kept.filter (survives policy ((k, t) :: ms))).flatMap B ++
        if policy = .lastWins ∧ (ms.map fun m => m.1.dec).contains k.dec then []
        else B (k.dec, i)) := by
  have hself : ([(k.dec, i)].filter (survives policy ms)).flatMap B =
      if policy = .lastWins ∧ (ms.map fun m => m.1.dec).contains k.dec then []
      else B (k.dec, i) := by
    by_cases hlast : policy = .lastWins ∧ (ms.map fun m => m.1.dec).contains k.dec
    · have hgone : survives policy ms (k.dec, i) = false := by
        rw [survives, decide_eq_true hlast]
        rfl
      rw [if_pos hlast, filter_cons_of_neg (by rw [hgone]; exact Bool.false_ne_true)]
      rfl
    rw [if_neg hlast]
    have hkeep : survives policy ms (k.dec, i) = true := by
      rw [survives, decide_eq_false hlast]
      rfl
    rw [filter_cons_of_pos hkeep]
    simp
  by_cases hmem : k.dec ∈ kept.map Prod.fst
  · cases hpol : policy with
    | firstWins => exact absurd ⟨hpol, hmem⟩ hnew
    | reject =>
      have hne : DuplicateKeyPolicy.reject ≠ .lastWins := by decide
      rw [hpol] at hself
      rw [memberStep, filter_append, flatMap_append, hself,
        filter_survives kept hne, filter_survives kept hne]
    | lastWins =>
      -- The new value stands where the old one stood.
      obtain ⟨front, old, back, rfl, hfront, hback, hkeep⟩ :=
        keepLast_split (hnodup hpol) hmem i
      have hgone : survives .lastWins ((k, t) :: ms) (k.dec, old) = false := by
        simp [survives]
      have hold : (front ++ (k.dec, old) :: back).filter (survives .lastWins ((k, t) :: ms)) =
          front.filter (survives .lastWins ms) ++ back.filter (survives .lastWins ms) := by
        rw [filter_append, filter_cons_of_neg (by rw [hgone]; exact Bool.false_ne_true),
          filter_survives_cons hfront, filter_survives_cons hback]
      rw [hpol] at hself
      rw [memberStep, hkeep, hold, filter_append, ← singleton_append, filter_append]
      rw [flatMap_append, flatMap_append, flatMap_append, hself, append_assoc]
      exact List.Perm.append_left _ perm_append_comm
  · rw [memberStep_of_notMem _ hmem, filter_append, flatMap_append, hself,
      filter_survives_cons hmem]

theorem nodup_memberStep_lastWins (m : Bytes × Nat) (h : (kept.map Prod.fst).Nodup) :
    ((memberStep .lastWins kept m).map Prod.fst).Nodup := by
  rw [memberStep, map_fst_keepLast]
  split
  · exact h
  rename_i hm
  rw [← concat_eq_append]
  exact h.concat hm

theorem mem_addName {seen : List Bytes} {k k' : Bytes} :
    k' ∈ addName seen k ↔ k' ∈ seen ∨ k' = k := by
  unfold addName
  split
  · rename_i hk
    constructor
    · exact .inl
    rintro (h | rfl)
    · exact h
    · exact hk
  · rw [mem_append, mem_singleton]

theorem mem_map_fst_memberStep {k k' : Bytes} :
    k' ∈ (memberStep policy kept (k, i)).map Prod.fst ↔ k' ∈ kept.map Prod.fst ∨ k' = k := by
  cases policy with
  | reject =>
    rw [memberStep, map_append, mem_append]
    exact or_congr_right mem_singleton
  | lastWins => simp only [memberStep, map_fst_keepLast, ← mem_addName, addName]
  | firstWins => simp only [memberStep, map_fst_keepFirst, ← mem_addName, addName]

theorem lt_of_mem_memberStep {m : Bytes × Nat} (h : ∀ x ∈ kept, x.2 < n) (hm : m.2 < n) :
    ∀ x ∈ memberStep policy kept m, x.2 < n := by
  intro x hx
  cases policy with
  | reject =>
    rcases mem_append.mp hx with hx | hx
    · exact h x hx
    · rw [mem_singleton.mp hx]
      exact hm
  | lastWins =>
    rcases mem_of_mem_keepLast hx with hx | rfl
    · exact h x hx
    · exact hm
  | firstWins =>
    rcases mem_of_mem_keepFirst hx with hx | rfl
    · exact h x hx
    · exact hm

/-- Laying out members: the nodes below the kept ones are those below the ones that are kept
still, and the live nodes of the members. -/
structure LaysMembers (policy : DuplicateKeyPolicy) (L : Layout ChildTable)
    (kept : List (Bytes × Nat)) (ms : List (StrTok × Cst)) (live : List Bool)
    (r : List (Bytes × Nat) × Layout ChildTable) : Prop where
  grows : GrowsBy L r.2 live.length
  inside : ∀ x ∈ r.1, x.2 < r.2.nodes.length
  below_perm : (r.1.flatMap fun x => below r.2.kids x.2).Perm
    (((kept.filter (survives policy ms)).flatMap fun x => below r.2.kids x.2) ++
      liveFrom L.nodes.length live)

theorem LaysMembers.cons {k : StrTok} {t : Cst} {ms : List (StrTok × Cst)}
    {kept : List (Bytes × Nat)} {live : List Bool} {r : List (Bytes × Nat) × Layout ChildTable}
    (hnodup : policy = .lastWins → (kept.map Prod.fst).Nodup)
    (hnew : ¬ (policy = .firstWins ∧ k.dec ∈ kept.map Prod.fst))
    (ht : LaysOut L (t.live policy) (t.lay policy L))
    (hms : LaysMembers policy (t.lay policy L).2
      (memberStep policy kept (k.dec, (t.lay policy L).1)) ms live r) :
    LaysMembers policy L kept ((k, t) :: ms)
      ((if policy = .lastWins ∧ (ms.map fun m => m.1.dec).contains k.dec then
        (t.live policy).map fun _ => false else t.live policy) ++ live) r where
  grows := by
    have hlength : (if policy = .lastWins ∧ (ms.map fun m => m.1.dec).contains k.dec then
        (t.live policy).map fun _ => false else t.live policy).length =
          (t.live policy).length := by
      split
      · exact length_map _
      · rfl
    rw [length_append, hlength]
    exact ht.grows.trans hms.grows
  inside := hms.inside
  below_perm := by
    have hbelow : (below r.2.kids (t.lay policy L).1).Perm
        (liveFrom L.nodes.length (t.live policy)) := by
      rw [ht.grows.ok.below_eq hms.grows.extends_ ht.lt]
      exact ht.below_perm
    refine hms.below_perm.trans
      (((memberStep_survivors (t := t) hnodup hnew).append_right _).trans ?_)
    rw [append_assoc]
    apply List.Perm.append_left
    rw [liveFrom_append, ht.grows.length]
    by_cases hlast : policy = .lastWins ∧ (ms.map fun m => m.1.dec).contains k.dec
    · rw [if_pos hlast, if_pos hlast, liveFrom_dead, length_map]
    · rw [if_neg hlast, if_neg hlast]
      exact hbelow.append_right _

mutual

/-- A tree lays out its live nodes below its own node. -/
theorem Cst.lay_spec (policy : DuplicateKeyPolicy) : (t : Cst) → {L : Layout ChildTable} →
    L.Ok → LaysOut L (t.live policy) (t.lay policy L)
  | .null, _, h => laysOut_leaf h
  | .bool _, _, h => laysOut_leaf h
  | .num _, _, h => laysOut_leaf h
  | .str _, _, h => laysOut_leaf h
  | .arr ts, _, h => by
    obtain ⟨hgrows, hinside, hperm⟩ := itemsLay_spec policy ts h
    rw [Cst.live, Cst.lay]
    exact laysOut_close hgrows .arrayChildren hinside hperm
  | .obj ms, L, h => by
    obtain ⟨hgrows, hinside, hperm⟩ := membersLay_spec policy ms h [] [] (by simp)
      (fun _ => nodup_nil) (by simp)
    rw [Cst.live, Cst.lay]
    apply laysOut_close hgrows .objectMembers
    · intro c hc
      obtain ⟨x, hx, rfl⟩ := mem_map.mp hc
      exact hinside x hx
    · rw [flatMap_map]
      exact hperm

theorem itemsLay_spec (policy : DuplicateKeyPolicy) : (ts : List Cst) → {L : Layout ChildTable} →
    L.Ok → GrowsBy L (itemsLay policy L ts).2 (itemsLive policy ts).length ∧
      (∀ c ∈ (itemsLay policy L ts).1, c < (itemsLay policy L ts).2.nodes.length) ∧
      ((itemsLay policy L ts).1.flatMap (below (itemsLay policy L ts).2.kids)).Perm
        (liveFrom L.nodes.length (itemsLive policy ts))
  | [], _, h => ⟨.refl h, by simp [itemsLay], .refl _⟩
  | t :: ts, L, h => by
    have ht := t.lay_spec policy h
    obtain ⟨hgrows, hinside, hperm⟩ := itemsLay_spec policy ts ht.grows.ok
    rw [itemsLay, itemsLive]
    refine ⟨?_, ?_, ?_⟩
    · rw [length_append]
      exact ht.grows.trans hgrows
    · intro c hc
      rcases mem_cons.mp hc with rfl | hc
      · exact hgrows.lt ht.lt
      · exact hinside c hc
    · rw [liveFrom_append, ← ht.grows.length, flatMap_cons,
        ht.grows.ok.below_eq hgrows.extends_ ht.lt]
      exact ht.below_perm.append hperm

theorem membersLay_spec (policy : DuplicateKeyPolicy) : (ms : List (StrTok × Cst)) →
    {L : Layout ChildTable} → L.Ok → (kept : List (Bytes × Nat)) → (seen : List Bytes) →
    (∀ x ∈ kept, x.2 < L.nodes.length) →
    (policy = .lastWins → (kept.map Prod.fst).Nodup) →
    (∀ k, k ∈ seen ↔ k ∈ kept.map Prod.fst) →
      LaysMembers policy L kept ms (membersLive policy seen ms) (membersLay policy L kept ms)
  | [], _, h, kept, _, hinside, _, _ => by
    have hall : kept.filter (survives policy []) = kept := by
      apply filter_eq_self.mpr
      intro x _
      simp [survives]
    refine ⟨.refl h, hinside, ?_⟩
    rw [hall]
    exact .of_eq (append_nil _).symm
  | (k, t) :: ms, L, h, kept, seen, hinside, hnodup, hseen => by
    rw [membersLive]
    by_cases hskip : policy = .firstWins ∧ k.dec ∈ kept.map Prod.fst
    · have hrest := membersLay_spec policy ms h kept seen hinside hnodup hseen
      have hin : seen.contains k.dec := contains_iff_mem.mpr ((hseen _).mpr hskip.2)
      rw [membersLay_skip hskip, if_pos ⟨hskip.1, hin⟩]
      have hpol : policy ≠ .lastWins := by
        rw [hskip.1]
        decide
      have hperm := hrest.below_perm
      rw [filter_survives kept hpol] at hperm
      refine ⟨hrest.grows, hrest.inside, ?_⟩
      rw [filter_survives kept hpol]
      exact hperm
    have ht := t.lay_spec policy h
    have hout : ¬ (policy = .firstWins ∧ seen.contains k.dec) := fun hand =>
      hskip ⟨hand.1, (hseen _).mp (contains_iff_mem.mp hand.2)⟩
    rw [membersLay_step hskip, if_neg hout]
    apply LaysMembers.cons hnodup hskip ht
    apply membersLay_spec policy ms ht.grows.ok
    · exact lt_of_mem_memberStep (fun x hx => ht.grows.lt (hinside x hx)) ht.lt
    · intro hpol
      subst hpol
      exact nodup_memberStep_lastWins _ (hnodup rfl)
    · intro k'
      rw [mem_addName, mem_map_fst_memberStep, hseen]

end

end

/-! ## Only replaced values are left out -/

mutual

theorem Cst.live_of_ne_lastWins {policy : DuplicateKeyPolicy} (h : policy ≠ .lastWins) :
    (t : Cst) → ∀ b ∈ t.live policy, b = true
  | .null | .bool _ | .num _ | .str _ => by simp [Cst.live]
  | .arr ts => by
    rw [Cst.live]
    exact forall_mem_append.mpr ⟨itemsLive_of_ne_lastWins h ts, by simp⟩
  | .obj ms => by
    rw [Cst.live]
    exact forall_mem_append.mpr ⟨membersLive_of_ne_lastWins h ms [], by simp⟩

theorem itemsLive_of_ne_lastWins {policy : DuplicateKeyPolicy} (h : policy ≠ .lastWins) :
    (ts : List Cst) → ∀ b ∈ itemsLive policy ts, b = true
  | [] => by simp [itemsLive]
  | t :: ts => by
    rw [itemsLive]
    exact forall_mem_append.mpr ⟨t.live_of_ne_lastWins h, itemsLive_of_ne_lastWins h ts⟩

theorem membersLive_of_ne_lastWins {policy : DuplicateKeyPolicy} (h : policy ≠ .lastWins) :
    (ms : List (StrTok × Cst)) → (seen : List Bytes) → ∀ b ∈ membersLive policy seen ms, b = true
  | [], _ => by simp [membersLive]
  | (k, t) :: ms, seen => by
    have hms := membersLive_of_ne_lastWins h ms
    rw [membersLive]
    split
    · exact hms seen
    · rw [if_neg fun hand => h hand.1]
      exact forall_mem_append.mpr ⟨t.live_of_ne_lastWins h, hms _⟩

end

/-! ## The tree of a store -/

theorem childrenOf_eq_kids (st : DocumentStorage) : st.childrenOf = st.layout.kids := by
  funext i
  unfold childrenOf Layout.kids DocumentStorage.layout
  rw [List.getElem?_map]
  cases st.nodes[i]? with
  | none => rfl
  | some nd =>
    cases nd with
    | object off len hash =>
      simp only [Option.map_some, Node.range, ← map_drop, ← map_take]
    | _ => rfl

theorem layout_node {nd : Node} (h : st.nodes[i]? = some nd) :
    st.layout.nodes[i]? = some nd.range := by
  unfold DocumentStorage.layout
  rw [List.getElem?_map, h]
  rfl

/-- A store whose layout is that of a tree, with its node as the root, encodes the tree. -/
theorem isTree_of_lay {policy : DuplicateKeyPolicy} {L : Layout ChildTable} (hL : L.Ok)
    (hempty : L.nodes = []) (h : (st.rootNode, st.layout) = t.lay policy L) :
    st.IsTree (t.live policy) := by
  obtain ⟨⟨hok, -, hlength⟩, hlast, hperm⟩ := t.lay_spec policy hL
  rw [← h] at hok hlength hlast hperm
  dsimp only at hok hlength hlast hperm
  have hnodes : st.layout.nodes.length = st.nodes.length := length_map _
  have hlive : liveFrom L.nodes.length (t.live policy) = positions id (t.live policy) := by
    rw [hempty]
    unfold liveFrom
    simp
  rw [hlive] at hperm
  have hdesc : Descending st.childrenOf := by
    rw [childrenOf_eq_kids]
    exact hok.descending
  have hreach (i : Nat) : (∃ path, follow st.childrenOf st.rootNode path = some i) ↔
      (t.live policy)[i]? = some true := by
    rw [← hdesc.mem_below, childrenOf_eq_kids, hperm.mem_iff, mem_positions]
    simp
  constructor
  case arrays_inside => exact fun hi => hok.inside (layout_node hi)
  case objects_inside =>
    intro i off len hash hi
    have hle := hok.inside (layout_node hi)
    exact Nat.le_trans hle (Nat.le_of_eq (length_map _))
  case arrays_disjoint => exact fun hij hi hj => hok.disjoint hij (layout_node hi) (layout_node hj)
  case objects_disjoint =>
    exact fun hij hi hj => hok.disjoint hij (layout_node hi) (layout_node hj)
  case child_lt => exact hdesc
  case root_free =>
    intro i hroot
    have hlt := hdesc i _ hroot
    rw [childrenOf_eq_kids] at hroot
    have hi : i < st.layout.nodes.length := by
      by_contra hge
      rw [Layout.kids_of_length_le (Nat.le_of_not_lt hge)] at hroot
      cases hroot
    omega
  case length_live =>
    rw [hempty] at hlength
    rw [← hnodes, hlength]
    exact (Nat.zero_add _).symm
  case reached_once =>
    intro i hi
    obtain ⟨path, hpath⟩ := (hreach i).mpr hi
    refine ⟨path, hpath, fun path' hpath' => ?_⟩
    apply hdesc.path_unique _ hpath' hpath
    rw [childrenOf_eq_kids]
    exact hperm.nodup_iff.mpr (nodup_positions _ _)
  case not_reached =>
    intro i hi path hpath
    have htrue := (hreach i).mp ⟨path, hpath⟩
    rw [hi] at htrue
    cases htrue

/-- Every document is stored as a tree: the ranges of containers lie in their tables and do not
overlap, nodes point to smaller ones and none to the root, and the root reaches each node in
exactly one way, except the nodes of values that a repeated name replaced, which it does not
reach. So every descent ends, and the value of the document is read back. -/
theorem parse_isTree {opts : JsonParseOptions} {seed : Nat → UInt64} {input : Bytes}
    {st : DocumentStorage} (h : parse opts seed input = .ok st) :
    ∃ t, readInput opts.mode input = some t ∧ st.IsTree (t.live opts.duplicateKey) ∧
      (opts.duplicateKey ≠ .lastWins → ∀ b ∈ t.live opts.duplicateKey, b = true) ∧
      (WellFounded fun c i => c ∈ st.childrenOf i) ∧
      st.value = some (t.value opts.duplicateKey) := by
  have hfollows := parse_follows opts seed input
  rw [h] at hfollows
  obtain ⟨t, hread, -, hvalue, hlay, -⟩ := hfollows
  have hempty : (DocumentStorage.layout {}).Ok := ⟨by nofun, by nofun, fun i c hc => by
    rw [Layout.kids_of_length_le (Nat.zero_le i)] at hc
    cases hc⟩
  have htree := isTree_of_lay hempty rfl hlay
  have hdesc : Descending st.childrenOf := htree.child_lt
  exact ⟨t, hread, htree, fun hpol => t.live_of_ne_lastWins hpol, hdesc.wellFounded, hvalue⟩

/-- An object with a member that comes twice. -/
def replacedText : Bytes :=
  [0x7B, 0x22, 0x61, 0x22, 0x3A, 0x5B, 0x31, 0x5D, 0x2C, 0x22, 0x61, 0x22, 0x3A, 0x32, 0x7D]

/-- The nodes of the first member are not reached. -/
theorem parse_isTree_replacedText :
    ∃ st, parse { duplicateKey := .lastWins } (fun _ => 0) replacedText = .ok st ∧
      st.IsTree [false, false, true, true] := by
  obtain ⟨st, hst⟩ := exists_of_isOk
    (x := parse { duplicateKey := .lastWins } (fun _ => 0) replacedText) (by decide +kernel)
  obtain ⟨t, hread, htree, -⟩ := parse_isTree hst
  have hlive : (readInput .strict replacedText).map (Cst.live .lastWins) =
      some [false, false, true, true] := by decide +kernel
  rw [hread] at hlive
  exact ⟨st, hst, Option.some.inj hlive ▸ htree⟩

end Conflux.Json

import Conflux.Core.Layout
import Conflux.Json.Dom.Parse
import Conflux.Json.Text.Progress

/-!
# What the parser's storing steps build

Every step of the parser extends the store, so that what a node denotes never changes; closing a
container makes a node that denotes the staged children or members. The nodes and ranges are laid
out in post-order. A value that a repeated name replaces is laid out all the same, but nothing
points to it.
-/

namespace Conflux.Json

open Conflux.Core List Option DocumentStorage TreeBuilder MemberEntry

namespace DocumentStorage

/-- Node `i` denotes `v`, through earlier nodes only. -/
def Denotes (st : DocumentStorage) (i : Nat) (v : JVal) : Prop := st.valueAt (i + 1) i = some v

/-- A member denotes a name and a value. -/
def MemberDenotes (st : DocumentStorage) (m : MemberEntry) (x : Bytes × JVal) : Prop :=
  st.memberName m = some x.1 ∧ st.Denotes m.valNode x.2

variable {st st' : DocumentStorage}

variable {i : Nat} {v : JVal}

section

variable (h : st.Denotes i v)
include h

theorem Denotes.extend (hext : Extends st st') : st'.Denotes i v :=
  hext.valueAt (Nat.le_refl _) h

theorem Denotes.lt : i < st.nodes.length := by
  unfold Denotes valueAt at h
  split at h
  · cases h
  all_goals
    rename_i hi
    exact (List.getElem?_eq_some_iff.mp hi).1

/-- A denoting node is read back with as many levels as the node table has. -/
theorem Denotes.valueAt {n : Nat} (hn : i < n) : st.valueAt n i = some v :=
  (Extends.refl st).valueAt hn h

end

theorem MemberDenotes.extend {m : MemberEntry} {x : Bytes × JVal} (h : st.MemberDenotes m x)
    (hext : Extends st st') : st'.MemberDenotes m x :=
  ⟨hext.bytesAt h.1, h.2.extend hext⟩

end DocumentStorage

open DocumentStorage

namespace TreeBuilder

/-- The store grows and the staging stacks are as before. -/
structure Grows (tb tb' : TreeBuilder) : Prop where
  store : Extends tb.store tb'.store
  staging : tb'.staging = tb.staging
  members : tb'.stagingMembers = tb.stagingMembers

protected theorem Grows.refl (tb : TreeBuilder) : tb.Grows tb := ⟨.refl _, rfl, rfl⟩

protected theorem Grows.trans {tb tb' tb'' : TreeBuilder} (h : tb.Grows tb')
    (h' : tb'.Grows tb'') : tb.Grows tb'' :=
  ⟨h.store.trans h'.store, h'.staging.trans h.staging, h'.members.trans h.members⟩

variable {tb : TreeBuilder}

theorem pushNode_grows (tb : TreeBuilder) {nd : Node} (h : nd.Scanned tb.store.inputView) :
    tb.Grows (tb.pushNode nd).2 := by
  refine ⟨⟨rfl, rfl, prefix_rfl, prefix_append _ _, fun nd' hnd => ?_, prefix_rfl, prefix_rfl⟩,
    rfl, rfl⟩
  obtain hnd | hnd := mem_append.mp hnd
  · exact .inl hnd
  · exact .inr (mem_singleton.mp hnd ▸ h)

theorem getElem?_pushNode (tb : TreeBuilder) (nd : Node) :
    (tb.pushNode nd).2.store.nodes[(tb.pushNode nd).1]? = some nd := by
  simp [pushNode]

theorem pushArena_grows (tb : TreeBuilder) (dec : Bytes) : tb.Grows (tb.pushArena dec).2 :=
  ⟨⟨rfl, rfl, prefix_append _ _, prefix_rfl, fun _ h => .inl h, prefix_rfl, prefix_rfl⟩, rfl, rfl⟩

/-- What was put into the arena is read back from its place. -/
theorem bytesAt_pushArena (tb : TreeBuilder) (dec : Bytes) :
    (tb.pushArena dec).2.store.bytesAt (tb.pushArena dec).1.off (tb.pushArena dec).1.len
      (tb.pushArena dec).1.flags = some dec := by
  simpa [pushArena, bytesAt] using slice_append_right tb.store.stringArena dec

variable {off len : Nat} {flags : StrFlags} {vs : List JVal} {b : Bytes}

theorem denotes_pushNode_string (h : tb.store.bytesAt off len flags = some b) :
    (tb.pushNode (.string off len flags)).2.store.Denotes
      (tb.pushNode (.string off len flags)).1 (.str b) := by
  have hbytes : (tb.pushNode (.string off len flags)).2.store.bytesAt off len flags = some b := h
  rw [Denotes, DocumentStorage.valueAt, getElem?_pushNode]
  simp [hbytes]

/-- A number node denotes its lexeme. -/
theorem denotes_pushNode_number {intForm : Bool} (h : tb.store.bytesAt off len flags = some b) :
    (tb.pushNode (.number off len flags intForm)).2.store.Denotes
      (tb.pushNode (.number off len flags intForm)).1 (.num b) := by
  have hbytes : (tb.pushNode (.number off len flags intForm)).2.store.bytesAt off len flags =
      some b := h
  rw [Denotes, DocumentStorage.valueAt, getElem?_pushNode]
  simp [hbytes]

/-- A literal node denotes its literal. -/
theorem denotes_pushNode_literal (tb : TreeBuilder) (l : Literal) (policy : DuplicateKeyPolicy) :
    (tb.pushNode l.node).2.store.Denotes (tb.pushNode l.node).1 (l.cst.value policy) := by
  rw [Denotes, DocumentStorage.valueAt, getElem?_pushNode]
  cases l <;> rfl

theorem denotes_pushNode_object_nil (tb : TreeBuilder) :
    (tb.pushNode (.object tb.store.objectMembers.length 0 .none)).2.store.Denotes
      (tb.pushNode (.object tb.store.objectMembers.length 0 .none)).1 (.obj []) := by
  rw [Denotes, valueAt_object (getElem?_pushNode tb _)]
  simp [pushNode, mapOption]

/-! ## Closing containers -/

/-- Children of a node that is appended are read back with one level less. -/
private theorem mapOption_valueAt {st st' : DocumentStorage} {kids : List Nat}
    (h : List.Forall₂ st.Denotes kids vs) (hext : Extends st st') :
    mapOption (st'.valueAt st.nodes.length) kids = some vs := by
  rw [mapOption_eq_some]
  refine h.imp fun i v hv => ?_
  exact hext.valueAt hv.lt hv

/-- Closing an array: the staged children become its elements. -/
theorem finishArray_spec {base kids : List Nat} (hst : tb.staging = base ++ kids)
    (hvs : List.Forall₂ tb.store.Denotes kids vs) :
    Extends tb.store (tb.finishArray base.length).2.store ∧
      (tb.finishArray base.length).2.staging = base ∧
      (tb.finishArray base.length).2.stagingMembers = tb.stagingMembers ∧
      (tb.finishArray base.length).2.store.Denotes (tb.finishArray base.length).1 (.arr vs) := by
  have hkids : tb.staging.drop base.length = kids := by rw [hst, drop_left' rfl]
  have hbase : tb.staging.take base.length = base := by rw [hst, take_left' rfl]
  have hext : Extends tb.store (tb.finishArray base.length).2.store := by
    refine ⟨rfl, rfl, prefix_rfl, prefix_append _ _, fun nd hnd => ?_, prefix_append _ _,
      prefix_rfl⟩
    obtain hnd | hnd := mem_append.mp hnd
    · exact .inl hnd
    · rw [mem_singleton.mp hnd]
      exact .inr trivial
  refine ⟨hext, hbase, rfl, ?_⟩
  have hnode : (tb.finishArray base.length).2.store.nodes[(tb.finishArray base.length).1]? =
      some (.array tb.store.arrayChildren.length kids.length) := by
    simp [finishArray, pushNode, hkids]
  have hslice : slice (tb.finishArray base.length).2.store.arrayChildren
      tb.store.arrayChildren.length kids.length = some kids := by
    simpa [finishArray, pushNode, hkids] using slice_append_right tb.store.arrayChildren kids
  have hmap := mapOption_valueAt hvs hext
  rw [Denotes, valueAt_array hnode, hslice, bind_some]
  have hidx : (tb.finishArray base.length).1 = tb.store.nodes.length := rfl
  rw [hidx, hmap, map_some]

/-- Closing an object: the staged members become its members. -/
theorem finishObject_spec {opts : JsonParseOptions} {seed : Nat → UInt64}
    {base mems : List MemberEntry} {xs : List (Bytes × JVal)}
    (hst : tb.stagingMembers = base ++ mems)
    (hxs : List.Forall₂ tb.store.MemberDenotes mems xs) :
    Extends tb.store (tb.finishObject opts seed base.length).2.store ∧
      (tb.finishObject opts seed base.length).2.staging = tb.staging ∧
      (tb.finishObject opts seed base.length).2.stagingMembers = base ∧
      (tb.finishObject opts seed base.length).2.store.Denotes
        (tb.finishObject opts seed base.length).1 (.obj xs) := by
  have hmems : tb.stagingMembers.drop base.length = mems := by rw [hst, drop_left' rfl]
  have hbase : tb.stagingMembers.take base.length = base := by rw [hst, take_left' rfl]
  have hext : Extends tb.store (tb.finishObject opts seed base.length).2.store := by
    refine ⟨rfl, rfl, prefix_rfl, prefix_append _ _, fun nd hnd => ?_, prefix_rfl,
      prefix_append _ _⟩
    obtain hnd | hnd := mem_append.mp hnd
    · exact .inl hnd
    · rw [mem_singleton.mp hnd]
      exact .inr trivial
  refine ⟨hext, rfl, hbase, ?_⟩
  have hnode : (tb.finishObject opts seed base.length).2.store.nodes[
      (tb.finishObject opts seed base.length).1]? =
      some (.object tb.store.objectMembers.length mems.length
        (warmIndex opts (seed tb.store.nodes.length) tb.store mems)) := by
    simp [finishObject, pushNode, hmems]
  have hslice : slice (tb.finishObject opts seed base.length).2.store.objectMembers
      tb.store.objectMembers.length mems.length = some mems := by
    simpa [finishObject, pushNode, hmems] using slice_append_right tb.store.objectMembers mems
  have hmap : mapOption ((tb.finishObject opts seed base.length).2.store.memberAt
      tb.store.nodes.length) mems = some xs := by
    rw [mapOption_eq_some]
    refine hxs.imp fun m x hx => ?_
    rw [memberAt_eq_some]
    exact ⟨hext.bytesAt hx.1, hext.valueAt hx.2.lt hx.2⟩
  rw [Denotes, valueAt_object hnode, hslice, bind_some]
  have hidx : (tb.finishObject opts seed base.length).1 = tb.store.nodes.length := rfl
  rw [hidx, hmap, map_some]

end TreeBuilder

/-! ## Layout -/

/-- The tables that containers point into. -/
inductive ChildTable where
  | arrayChildren
  | objectMembers
  deriving DecidableEq, Repr

/-- The range of a node. -/
def Node.range : Node → Option (ChildTable × Nat × Nat)
  | .array off len => some (.arrayChildren, off, len)
  | .object off len _ => some (.objectMembers, off, len)
  | _ => none

/-- The nodes and ranges of a store. -/
def DocumentStorage.layout (st : DocumentStorage) : Layout ChildTable where
  nodes := st.nodes.map Node.range
  table
    | .arrayChildren => st.arrayChildren
    | .objectMembers => st.objectMembers.map MemberEntry.valNode

/-! ## The layout of a tree -/

mutual

/-- Lay out a tree: the number of its node, and the layout with it. -/
def Cst.lay (policy : DuplicateKeyPolicy) (L : Layout ChildTable) :
    Cst → Nat × Layout ChildTable
  | .arr ts =>
    let (kids, L) := itemsLay policy L ts
    L.close .arrayChildren kids
  | .obj ms =>
    let (members, L) := membersLay policy L [] ms
    L.close .objectMembers (members.map Prod.snd)
  | _ => L.leaf

/-- Lay out the items of an array: the numbers of their nodes. -/
def itemsLay (policy : DuplicateKeyPolicy) (L : Layout ChildTable) :
    List Cst → List Nat × Layout ChildTable
  | [] => ([], L)
  | t :: ts =>
    let (i, L) := t.lay policy L
    let (kids, L) := itemsLay policy L ts
    (i :: kids, L)

/-- Lay out the members of an object after the ones kept so far, with the nodes of their
values. A value that is not kept under the policy for first members is not laid out. -/
def membersLay (policy : DuplicateKeyPolicy) (L : Layout ChildTable)
    (kept : List (Bytes × Nat)) :
    List (StrTok × Cst) → List (Bytes × Nat) × Layout ChildTable
  | [] => (kept, L)
  | (k, t) :: ms =>
    if policy = .firstWins ∧ (kept.map Prod.fst).contains k.dec then
      membersLay policy L kept ms
    else
      let (i, L) := t.lay policy L
      membersLay policy L (memberStep policy kept (k.dec, i)) ms

end

variable {policy : DuplicateKeyPolicy} {L : Layout ChildTable} {ms : List (StrTok × Cst)}
  {kept : List (Bytes × Nat)} {k : StrTok} {t : Cst} {c : Cur}

theorem membersLay_skip (h : policy = .firstWins ∧ k.dec ∈ kept.map Prod.fst) :
    membersLay policy L kept ((k, t) :: ms) = membersLay policy L kept ms := by
  rw [membersLay, if_pos ⟨h.1, contains_iff_mem.mpr h.2⟩]

theorem membersLay_step (h : ¬ (policy = .firstWins ∧ k.dec ∈ kept.map Prod.fst)) :
    membersLay policy L kept ((k, t) :: ms) =
      membersLay policy (t.lay policy L).2 (memberStep policy kept (k.dec, (t.lay policy L).1))
        ms := by
  rw [membersLay, if_neg fun hc => h ⟨hc.1, contains_iff_mem.mp hc.2⟩]

/-! ## Steps of the parser -/

namespace TreeBuilder

variable {tb tb' : TreeBuilder} {mems : List MemberEntry} {opts : JsonParseOptions} {c' : Cur}

theorem pushNode_layout {nd : Node} (h : nd.range = none) :
    ((tb.pushNode nd).1, (tb.pushNode nd).2.store.layout) = tb.store.layout.leaf := by
  unfold pushNode DocumentStorage.layout Layout.leaf
  simp only [map_append, map_cons, map_nil, h, length_map]

theorem literal_range (l : Literal) : l.node.range = none := by
  cases l <;> rfl

theorem finishArray_layout {base kids : List Nat} (h : tb.staging = base ++ kids) :
    ((tb.finishArray base.length).1, (tb.finishArray base.length).2.store.layout) =
      tb.store.layout.close .arrayChildren kids := by
  have hkids : tb.staging.drop base.length = kids := by rw [h, drop_left]
  have htable : Function.update tb.store.layout.table .arrayChildren
      (tb.store.arrayChildren ++ kids) = fun
        | .arrayChildren => tb.store.arrayChildren ++ kids
        | .objectMembers => tb.store.objectMembers.map valNode := by
    funext k
    cases k <;> rfl
  refine Prod.ext ?_ ?_
  · exact (length_map _).symm
  simp only [finishArray, pushNode, hkids, DocumentStorage.layout, map_append,
    map_cons, map_nil, Node.range]
  rw [← htable]
  rfl

theorem pushObject_layout {hash : HashIdx} (hnodes : tb'.store.nodes =
      tb.store.nodes ++ [.object tb.store.objectMembers.length mems.length hash])
    (hchildren : tb'.store.arrayChildren = tb.store.arrayChildren)
    (hmembers : tb'.store.objectMembers = tb.store.objectMembers ++ mems) :
    (tb.store.nodes.length, tb'.store.layout) =
      tb.store.layout.close .objectMembers (mems.map valNode) := by
  have htable : Function.update tb.store.layout.table .objectMembers
      (tb.store.objectMembers.map valNode ++ mems.map valNode) = fun
        | .arrayChildren => tb.store.arrayChildren
        | .objectMembers =>
          tb.store.objectMembers.map valNode ++ mems.map valNode := by
    funext k
    cases k <;> rfl
  unfold Layout.close
  refine Prod.ext ?_ ?_
  · exact (length_map _).symm
  simp only [DocumentStorage.layout, hnodes, hchildren, hmembers, map_append,
    map_cons, map_nil, Node.range, length_map]
  rw [← htable]
  rfl

theorem finishObject_layout {seed : Nat → UInt64} {base : List MemberEntry}
    (h : tb.stagingMembers = base ++ mems) :
    ((tb.finishObject opts seed base.length).1,
        (tb.finishObject opts seed base.length).2.store.layout) =
      tb.store.layout.close .objectMembers (mems.map valNode) := by
  have hmems : tb.stagingMembers.drop base.length = mems := by rw [h, drop_left]
  refine @pushObject_layout tb (tb.finishObject opts seed base.length).2 mems
    (warmIndex opts (seed tb.store.nodes.length) tb.store mems) ?_ rfl ?_
  all_goals simp only [finishObject, pushNode, hmems]

/-- A string or a name adds no node. -/
theorem parseQuoted_layout {quote : UInt8} {s : ParsedStr}
    (h : tb.parseQuoted quote c = .ok (s, tb', c')) : tb'.store.layout = tb.store.layout := by
  unfold parseQuoted at h
  split at h
  · unfold parseStrBodySq at h
    split at h
    · cases h
    · cases h
      rfl
  unfold parseStrBody at h
  split at h
  · cases h
  dsimp only at h
  split at h
  · cases h
    rfl
  · cases h
    rfl

theorem memberName_layout {s : ParsedStr} (h : tb.memberName opts c = .ok (s, tb', c')) :
    tb'.store.layout = tb.store.layout := by
  unfold memberName at h
  split at h
  · cases h
  split at h
  · cases h
  split at h
  · cases h
  split at h
  · cases h
  rename_i hname _
  cases h
  unfold parseObjectMemberName at hname
  split at hname
  · exact parseQuoted_layout hname
  split at hname
  · cases hname
  split at hname
  · exact parseQuoted_layout hname
  split at hname
  · cases hname
  · cases hname
    rfl

end TreeBuilder

theorem literal_lay (policy : DuplicateKeyPolicy) (L : Layout ChildTable) (l : Literal) :
    l.cst.lay policy L = L.leaf := by
  cases l <;> rfl

end Conflux.Json

import Conflux.Core.Slice
import Conflux.Json.Syntax.Read

/-!
# Document storage

A document is a flat store: a table of nodes, an arena of decoded bytes, and the tables of
array children and object members that container nodes point into. The value of a node is
read back through these tables.
-/

namespace Conflux.Json

open Conflux.Core List Option

/-- Where the bytes of a string or a number live, and whether they are raw JSON. -/
structure StrFlags where
  /-- Offset and length index the input. -/
  inputView : Bool := false
  /-- The bytes are JSON content as written. -/
  rawSlice : Bool := false
  /-- The offset indexes the caller-owned strings. -/
  external : Bool := false
  deriving DecidableEq, Repr

/-- The flags of a slice of the input. -/
def StrFlags.view : StrFlags := { inputView := true, rawSlice := true }

/-- A member of an object. -/
structure MemberEntry where
  nameOff : Nat
  nameLen : Nat
  valNode : Nat
  /-- Where the name lives. -/
  nameFlags : StrFlags
  deriving DecidableEq, Repr

/-- An occupied slot: the index of a member, and the hash of its name. -/
structure Slot where
  index : Nat
  hash : Nat
  deriving DecidableEq, Repr

/-- The index of an object: not built, given up on, or a hash table. -/
inductive HashIdx where
  | none
  | failed
  | table (seed : UInt64) (slots : List (Option Slot))
  deriving DecidableEq, Repr

/-- A node of the store. -/
inductive Node where
  | null
  | boolean (b : Bool)
  | number (off len : Nat) (flags : StrFlags) (intForm : Bool)
  | string (off len : Nat) (flags : StrFlags)
  | array (off len : Nat)
  | object (off len : Nat) (hashIdx : HashIdx)
  deriving DecidableEq, Repr

/-- A number node keeps a lexeme of the input, with the form that the scanner found. -/
def Node.Scanned (input : Bytes) : Node → Prop
  | .number off len flags intForm =>
    flags = .view ∧ ∃ lexeme c c', slice input off len = some lexeme ∧
      parseNumberLexeme c = .ok (⟨lexeme, intForm⟩, c')
  | _ => True

/-- The store of a document. -/
structure DocumentStorage where
  nodes : List Node := []
  /-- Decoded bytes. -/
  stringArena : Bytes := []
  /-- Node indices of array elements. -/
  arrayChildren : List Nat := []
  objectMembers : List MemberEntry := []
  /-- Caller-owned strings. -/
  externalPtrs : List Bytes := []
  /-- The input, without a byte order mark. -/
  inputView : Bytes := []
  rootNode : Nat := 0
  /-- Length of the byte order mark that was dropped. -/
  bomPrefixBytes : Nat := 0
  deriving DecidableEq, Repr

namespace DocumentStorage

/-- The bytes of a string, a number or a name. -/
def bytesAt (st : DocumentStorage) (off len : Nat) (flags : StrFlags) : Option Bytes :=
  if flags.external then (st.externalPtrs[off]?).bind (slice · 0 len)
  else if flags.inputView then slice st.inputView off len
  else slice st.stringArena off len

/-- The name of a member. -/
def memberName (st : DocumentStorage) (m : MemberEntry) : Option Bytes :=
  st.bytesAt m.nameOff m.nameLen m.nameFlags

/-- The value of a node, following at most `n` levels. -/
def valueAt (st : DocumentStorage) : Nat → Nat → Option JVal
  | 0, _ => none
  | n + 1, i =>
    match st.nodes[i]? with
    | none => none
    | some .null => some .null
    | some (.boolean b) => some (.bool b)
    | some (.number off len flags _) => (st.bytesAt off len flags).map .num
    | some (.string off len flags) => (st.bytesAt off len flags).map .str
    | some (.array off len) =>
      ((slice st.arrayChildren off len).bind (mapOption (st.valueAt n))).map .arr
    | some (.object off len _) =>
      ((slice st.objectMembers off len).bind
        (mapOption fun m =>
          match st.memberName m, st.valueAt n m.valNode with
          | some name, some v => some (name, v)
          | _, _ => none)).map .obj

/-- The value of the document. No chain of nodes is longer than the node table. -/
def value (st : DocumentStorage) : Option JVal := st.valueAt st.nodes.length st.rootNode

/-- A member with its name and value. -/
def memberAt (st : DocumentStorage) (n : Nat) (m : MemberEntry) : Option (Bytes × JVal) :=
  match st.memberName m, st.valueAt n m.valNode with
  | some name, some v => some (name, v)
  | _, _ => none

variable {st : DocumentStorage} {n i off len m : Nat} {flags : StrFlags} {b : Bytes} {v : JVal}

theorem memberAt_eq_some {m : MemberEntry} {x : Bytes × JVal} :
    st.memberAt n m = some x ↔ st.memberName m = some x.1 ∧ st.valueAt n m.valNode = some x.2 := by
  unfold memberAt
  obtain ⟨name, v⟩ := x
  cases st.memberName m <;> cases st.valueAt n m.valNode <;> simp

theorem valueAt_object {hash : HashIdx} (h : st.nodes[i]? = some (.object off len hash)) :
    st.valueAt (n + 1) i =
      ((slice st.objectMembers off len).bind (mapOption (st.memberAt n))).map .obj := by
  rw [valueAt, h]
  rfl

theorem valueAt_array (h : st.nodes[i]? = some (.array off len)) :
    st.valueAt (n + 1) i =
      ((slice st.arrayChildren off len).bind (mapOption (st.valueAt n))).map .arr := by
  rw [valueAt, h]

/-! ## Growing stores -/

/-- The tables of one store are the beginnings of the tables of another one. -/
structure Within (st st' : DocumentStorage) : Prop where
  input : st.inputView <+: st'.inputView
  external : st.externalPtrs <+: st'.externalPtrs
  arena : st.stringArena <+: st'.stringArena
  nodes : st.nodes <+: st'.nodes
  children : st.arrayChildren <+: st'.arrayChildren
  members : st.objectMembers <+: st'.objectMembers

namespace Within

variable {st st' st'' : DocumentStorage}

theorem bytesAt (h : Within st st') (hb : st.bytesAt off len flags = some b) :
    st'.bytesAt off len flags = some b := by
  unfold DocumentStorage.bytesAt at hb ⊢
  by_cases hext : flags.external
  · simp only [hext, if_true, bind_eq_some_iff] at hb ⊢
    obtain ⟨s, hs, hslice⟩ := hb
    obtain ⟨l, hl⟩ := h.external
    refine ⟨s, ?_, hslice⟩
    rw [← hl]
    exact List.getElem?_append_left (List.getElem?_eq_some_iff.mp hs).1 ▸ hs
  by_cases hin : flags.inputView
  · simp only [hext, hin, if_true] at hb ⊢
    obtain ⟨l, hl⟩ := h.input
    rw [← hl]
    exact slice_append hb l
  simp only [hext, hin] at hb ⊢
  obtain ⟨l, hl⟩ := h.arena
  rw [← hl]
  exact slice_append hb l

theorem getElem?_nodes (h : Within st st') {nd : Node} (hi : st.nodes[i]? = some nd) :
    st'.nodes[i]? = some nd := by
  obtain ⟨l, hl⟩ := h.nodes
  rw [← hl]
  exact List.getElem?_append_left (List.getElem?_eq_some_iff.mp hi).1 ▸ hi

/-- Values survive a growth of the store, and more levels to follow. -/
theorem valueAt (h : Within st st') (hnm : n ≤ m) (hv : st.valueAt n i = some v) :
    st'.valueAt m i = some v := by
  induction n generalizing m i v with
  | zero => cases hv
  | succ n ih =>
    obtain ⟨m, rfl⟩ := Nat.exists_eq_succ_of_ne_zero (by omega : m ≠ 0)
    have ih' {i : Nat} {v : JVal} (hv : st.valueAt n i = some v) : st'.valueAt m i = some v :=
      ih (by omega) hv
    cases hi : st.nodes[i]? with
    | none => simp [DocumentStorage.valueAt, hi] at hv
    | some nd =>
      have hi' := h.getElem?_nodes hi
      cases nd with
      | null | boolean b => simpa [DocumentStorage.valueAt, hi, hi'] using hv
      | number off len flags intForm | string off len flags =>
        simp only [DocumentStorage.valueAt, hi, hi', map_eq_some_iff] at hv ⊢
        obtain ⟨b, hb, rfl⟩ := hv
        exact ⟨b, h.bytesAt hb, rfl⟩
      | array off len =>
        simp only [valueAt_array hi, valueAt_array hi', map_eq_some_iff, bind_eq_some_iff] at hv ⊢
        obtain ⟨vs, ⟨is, his, hvs⟩, rfl⟩ := hv
        obtain ⟨l, hl⟩ := h.children
        refine ⟨vs, ⟨is, ?_, mapOption_mono (fun _ _ _ => ih') hvs⟩, rfl⟩
        rw [← hl]
        exact slice_append his l
      | object off len hash =>
        simp only [valueAt_object hi, valueAt_object hi', map_eq_some_iff, bind_eq_some_iff] at hv ⊢
        obtain ⟨xs, ⟨ms, hms, hxs⟩, rfl⟩ := hv
        obtain ⟨l, hl⟩ := h.members
        refine ⟨xs, ⟨ms, ?_, mapOption_mono ?_ hxs⟩, rfl⟩
        · rw [← hl]
          exact slice_append hms l
        intro m _ x hx
        rw [memberAt_eq_some] at hx ⊢
        exact ⟨h.bytesAt hx.1, ih' hx.2⟩

end Within

/-- One store extends another: same input, longer tables. -/
structure Extends (st st' : DocumentStorage) : Prop where
  input : st'.inputView = st.inputView
  external : st'.externalPtrs = st.externalPtrs
  arena : st.stringArena <+: st'.stringArena
  nodes : st.nodes <+: st'.nodes
  scanned : ∀ nd ∈ st'.nodes, nd ∈ st.nodes ∨ nd.Scanned st.inputView
  children : st.arrayChildren <+: st'.arrayChildren
  members : st.objectMembers <+: st'.objectMembers

namespace Extends

variable {st st' st'' : DocumentStorage}

protected theorem refl (st : DocumentStorage) : Extends st st :=
  ⟨rfl, rfl, prefix_rfl, prefix_rfl, fun _ h => .inl h, prefix_rfl, prefix_rfl⟩

protected theorem trans (h : Extends st st') (h' : Extends st' st'') : Extends st st'' where
  input := h'.input.trans h.input
  external := h'.external.trans h.external
  arena := h.arena.trans h'.arena
  nodes := h.nodes.trans h'.nodes
  scanned nd hnd := (h'.scanned nd hnd).elim (h.scanned nd) fun hscan => .inr (h.input ▸ hscan)
  children := h.children.trans h'.children
  members := h.members.trans h'.members

theorem within (h : Extends st st') : Within st st' :=
  ⟨h.input ▸ prefix_rfl, h.external ▸ prefix_rfl, h.arena, h.nodes, h.children, h.members⟩

theorem bytesAt (h : Extends st st') (hb : st.bytesAt off len flags = some b) :
    st'.bytesAt off len flags = some b :=
  h.within.bytesAt hb

theorem valueAt (h : Extends st st') (hnm : n ≤ m) (hv : st.valueAt n i = some v) :
    st'.valueAt m i = some v :=
  h.within.valueAt hnm hv

end Extends

end DocumentStorage

end Conflux.Json

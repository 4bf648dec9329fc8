import Conflux.Json.Reader.Next

/-!
# The events of a value

The events that stand for a value, and the value rebuilt from its events. Rebuilding undoes
writing, so that a list of events stands for one value at most.
-/

namespace Conflux.Json

open List

mutual

/-- The events of a value. -/
def JVal.events : JVal → List Emitted
  | .null => [.null]
  | .bool b => [.bool b]
  | .num lexeme => [.number lexeme]
  | .str s => [.string (.ok s)]
  | .arr vs => .beginArray :: (itemEvents vs ++ [.endArray])
  | .obj ms => .beginObject :: (memberEvents ms ++ [.endObject])

/-- The events of some items. -/
def itemEvents : List JVal → List Emitted
  | [] => []
  | v :: vs => v.events ++ itemEvents vs

/-- The events of some members. -/
def memberEvents : List (Bytes × JVal) → List Emitted
  | [] => []
  | (k, v) :: ms => .key (.ok k) :: (v.events ++ memberEvents ms)

end

/-- A container under construction. -/
inductive Pending where
  | arr (items : List JVal)
  | obj (members : List (Bytes × JVal)) (key : Option Bytes)
  deriving Repr

/-- Values under construction: the open containers, and the finished value. -/
structure Rebuild where
  /-- Open containers, the innermost first. -/
  opens : List Pending := []
  /-- The finished value. -/
  root : Option JVal := none
  deriving Repr

/-- Put a finished value where it belongs. -/
def Rebuild.put (s : Rebuild) (v : JVal) : Option Rebuild :=
  match s.opens, s.root with
  | [], none => some ⟨[], some v⟩
  | [], some _ => none
  | .arr vs :: outer, root => some ⟨.arr (vs ++ [v]) :: outer, root⟩
  | .obj ms (some k) :: outer, root => some ⟨.obj (ms ++ [(k, v)]) none :: outer, root⟩
  | .obj _ none :: _, _ => none

/-- Take up one event. -/
def Rebuild.step (s : Rebuild) : Emitted → Option Rebuild
  | .null => s.put .null
  | .bool b => s.put (.bool b)
  | .number lexeme => s.put (.num lexeme)
  | .string (.ok b) => s.put (.str b)
  | .string (.error _) => none
  | .beginArray => some ⟨.arr [] :: s.opens, s.root⟩
  | .beginObject => some ⟨.obj [] none :: s.opens, s.root⟩
  | .endArray =>
    match s.opens with
    | .arr vs :: outer => Rebuild.put ⟨outer, s.root⟩ (.arr vs)
    | _ => none
  | .endObject =>
    match s.opens with
    | .obj ms none :: outer => Rebuild.put ⟨outer, s.root⟩ (.obj ms)
    | _ => none
  | .key (.ok k) =>
    match s.opens with
    | .obj ms none :: outer => some ⟨.obj ms (some k) :: outer, s.root⟩
    | _ => none
  | .key (.error _) => none

/-- Rebuild a value from its events. -/
def rebuild (es : List Emitted) : Option JVal :=
  match es.foldlM Rebuild.step {} with
  | some ⟨[], some v⟩ => some v
  | _ => none

mutual

open Rebuild

/-- The events of a value put it where it belongs. -/
theorem JVal.rebuild_step : (v : JVal) → (s : Rebuild) → (es : List Emitted) →
    (v.events ++ es).foldlM step s = (s.put v).bind (es.foldlM step)
  | .null, _, _ => rfl
  | .bool _, _, _ => rfl
  | .num _, _, _ => rfl
  | .str _, _, _ => rfl
  | .arr vs, s, es => by
    have hitems := items_rebuild_step vs [] s.opens s.root (.endArray :: es)
    simp only [JVal.events, cons_append, append_assoc, nil_append] at hitems ⊢
    exact hitems
  | .obj ms, s, es => by
    have hmembers := members_rebuild_step ms [] s.opens s.root (.endObject :: es)
    simp only [JVal.events, cons_append, append_assoc, nil_append] at hmembers ⊢
    exact hmembers

/-- The events of items add them to the open array. -/
theorem items_rebuild_step : (vs : List JVal) → (vs₀ : List JVal) → (outer : List Pending) →
    (root : Option JVal) → (es : List Emitted) →
    (itemEvents vs ++ es).foldlM step ⟨.arr vs₀ :: outer, root⟩ =
      es.foldlM step ⟨.arr (vs₀ ++ vs) :: outer, root⟩
  | [], vs₀, outer, root, es => by simp [itemEvents]
  | v :: vs, vs₀, outer, root, es => by
    have hv := JVal.rebuild_step v ⟨.arr vs₀ :: outer, root⟩ (itemEvents vs ++ es)
    have hvs := items_rebuild_step vs (vs₀ ++ [v]) outer root es
    rw [← append_cons] at hvs
    rw [itemEvents, append_assoc]
    exact hv.trans hvs

/-- The events of members add them to the open object. -/
theorem members_rebuild_step : (ms : List (Bytes × JVal)) → (ms₀ : List (Bytes × JVal)) →
    (outer : List Pending) → (root : Option JVal) → (es : List Emitted) →
    (memberEvents ms ++ es).foldlM step ⟨.obj ms₀ none :: outer, root⟩ =
      es.foldlM step ⟨.obj (ms₀ ++ ms) none :: outer, root⟩
  | [], ms₀, outer, root, es => by simp [memberEvents]
  | (k, v) :: ms, ms₀, outer, root, es => by
    have hv := JVal.rebuild_step v ⟨.obj ms₀ (some k) :: outer, root⟩ (memberEvents ms ++ es)
    have hms := members_rebuild_step ms (ms₀ ++ [(k, v)]) outer root es
    rw [← append_cons] at hms
    rw [memberEvents, cons_append, append_assoc]
    exact hv.trans hms

end

/-- Rebuilding from the events of a value yields the value. -/
theorem rebuild_events (v : JVal) : rebuild v.events = some v := by
  have h := v.rebuild_step {} []
  rw [append_nil] at h
  rw [rebuild, h]
  rfl

/-! ## Nothing comes after a finished value -/

variable {s' : Rebuild} {w : JVal} {es : List Emitted}

theorem Rebuild.put_opens {s : Rebuild} {v : JVal} (hroot : s.root = some w)
    (h : s.put v = some s') : s'.root = some w ∧ s'.opens ≠ [] := by
  unfold put at h
  grind

/-- An event after a finished value opens something that is never finished. -/
theorem Rebuild.step_opens {s : Rebuild} {e : Emitted} (hroot : s.root = some w)
    (h : s.step e = some s') : s'.root = some w ∧ s'.opens ≠ [] := by
  unfold step at h
  split at h
  · exact put_opens hroot h
  · exact put_opens hroot h
  · exact put_opens hroot h
  · exact put_opens hroot h
  · cases h
  · cases h
    exact ⟨hroot, by simp⟩
  · cases h
    exact ⟨hroot, by simp⟩
  · split at h
    · exact put_opens (by exact hroot) h
    · cases h
  · split at h
    · exact put_opens (by exact hroot) h
    · cases h
  · split at h
    · cases h
      exact ⟨hroot, by simp⟩
    · cases h
  · cases h

theorem Rebuild.run_opens {s : Rebuild} (hroot : s.root = some w) (hne : es ≠ [])
    (h : es.foldlM step s = some s') :
    s'.opens ≠ [] := by
  induction es generalizing s with
  | nil => exact absurd rfl hne
  | cons e es ih =>
    rw [foldlM_cons] at h
    obtain ⟨s₁, hs₁, h⟩ := Option.bind_eq_some_iff.mp h
    obtain ⟨hroot₁, hopens⟩ := step_opens hroot hs₁
    cases es with
    | nil =>
      cases h
      exact hopens
    | cons e' es => exact ih hroot₁ (by simp) h

/-- The events of one value are no proper beginning of those of another. -/
theorem JVal.events_append {v : JVal} (h : v.events ++ es = w.events) : es = [] ∧ v = w := by
  have hv : (v.events ++ es).foldlM Rebuild.step {} = es.foldlM Rebuild.step ⟨[], some v⟩ :=
    v.rebuild_step {} es
  have hw := w.rebuild_step {} []
  rw [append_nil, ← h, hv] at hw
  have hes : es = [] := by
    by_contra hne
    exact Rebuild.run_opens rfl hne hw rfl
  subst hes
  simp only [foldlM_nil, Rebuild.put, Option.bind_some, pure, Option.some.injEq,
    Rebuild.mk.injEq, true_and] at hw
  exact ⟨rfl, hw⟩

end Conflux.Json

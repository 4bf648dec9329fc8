import Conflux.Core.Loop
import Conflux.Http.Basic

/-!
# Normalised paths of static files

A requested path is cut at its slashes and put together again without empty, `.` and `..`
segments. The reference is a stack of names: an ordinary segment is pushed and `..` pops.
-/

namespace Conflux.Http.Static

open List Option Conflux.Core

variable {σ : Type*} {path : Bytes} {fn : σ → Bytes → Option σ} {stack : List Bytes}

/-! ## The code -/

/-- One turn of the loop over the components, with what `fn` keeps between its calls; an `fn`
without a result ends it. -/
def pathComponentTurn (path : Bytes) (fn : σ → Bytes → Option σ) (s : Nat × σ) :
    Turn (Nat × σ) (Option σ) :=
  if s.1 < path.length then
    match findFrom [Ascii.slash] path s.1 with
    | none => .done (fn s.2 (path.drop s.1))
    | some next =>
      match fn s.2 ((path.drop s.1).take (next - s.1)) with
      | none => .done none
      | some kept => .again (next + 1, kept)
  else .done (some s.2)

/-- Call `fn` on the components of a path; every turn but the last passes a slash. -/
def forEachPathComponent (path : Bytes) (fn : σ → Bytes → Option σ) (kept : σ) : Option σ :=
  (loop (pathComponentTurn path fn) (path.length + 1) (0, kept)).join

/-- The last place of a byte. -/
def rfind (c : UInt8) (l : Bytes) : Option Nat :=
  (find [c] l.reverse).map (l.length - 1 - ·)

/-- What a segment makes of the path built so far. -/
def normalizeSegment (result seg : Bytes) : Option Bytes :=
  if Ascii.nul ∈ seg then none
  else if seg = [0x2E, 0x2E] then
    if result = [] then none
    else
      match rfind Ascii.slash result with
      | some 0 => some []
      | some slash => some (result.take slash)
      -- not reached: a path that is not empty starts with a slash
      | none => none
  else if seg ≠ [] ∧ seg ≠ [0x2E] then some (result ++ Ascii.slash :: seg)
  else some result

/-- The path without `.` and `..`, if it stays below the root. -/
def normalizeStaticPath (raw : Bytes) : Option Bytes :=
  forEachPathComponent raw normalizeSegment []

/-! ## The stack of names -/

/-- A segment on a stack of names; there is nothing above the root. -/
def stackStep (stack : List Bytes) (seg : Bytes) : Option (List Bytes) :=
  if seg = [0x2E, 0x2E] then stack.tail?
  else if seg = [] ∨ seg = [0x2E] then some stack
  else some (seg :: stack)

/-- Where the segments of a path lead, the last name first. -/
def stackOf (raw : Bytes) : Option (List Bytes) :=
  (raw.splitOn Ascii.slash).foldlM stackStep []

/-- The path of a stack of names. -/
def pathOf (stack : List Bytes) : Bytes := stack.reverse.flatMap (Ascii.slash :: ·)

/-- Names that a normalised path may have. -/
def IsName (seg : Bytes) : Prop :=
  seg ≠ [] ∧ seg ≠ [0x2E] ∧ seg ≠ [0x2E, 0x2E] ∧ Ascii.slash ∉ seg ∧ Ascii.nul ∉ seg

theorem pathOf_cons (seg : Bytes) : pathOf (seg :: stack) = pathOf stack ++ Ascii.slash :: seg := by
  simp [pathOf]

/-! ## The loop visits the segments -/

theorem loop_pathComponentTurn (hempty : ∀ kept, fn kept [] = some kept) {n pos : Nat} {kept : σ}
    (hpos : pos ≤ path.length) (hn : path.length - pos < n) :
    loop (pathComponentTurn path fn) n (pos, kept) =
      some (((path.drop pos).splitOn Ascii.slash).foldlM fn kept) := by
  induction n generalizing pos kept with
  | zero => omega
  | succ n ih =>
    by_cases hlt : pos < path.length
    · cases hf : findFrom [Ascii.slash] path pos with
      | none =>
        have hno := find_singleton_eq_none_iff.mp (map_eq_none_iff.mp hf)
        simp [loop, pathComponentTurn, hlt, hf, splitOn_eq_singleton hno]
      | some next =>
        obtain ⟨i, hi, rfl⟩ := map_eq_some_iff.mp hf
        obtain ⟨p, r, hdrop, rfl, hp⟩ := find_singleton_eq_some hi
        have hlen := congrArg length hdrop
        have hrest : path.drop (p.length + pos + 1) = r := by
          rw [show p.length + pos + 1 = pos + (p.length + 1) by omega, ← drop_drop, hdrop]
          simp
        simp only [length_drop, length_append, length_cons] at hlen
        simp only [loop, pathComponentTurn, if_pos hlt, hf, hdrop, Nat.add_sub_cancel, take_left,
          splitOn_append_cons_self_of_not_mem hp, foldlM_cons]
        cases fn kept p with
        | none => rfl
        | some kept' =>
          refine (ih (by omega) (by omega)).trans ?_
          rw [hrest]
          rfl
    have hend : path.drop pos = [] := drop_eq_nil_of_le (by omega)
    simp [loop, pathComponentTurn, hlt, hend, hempty]

theorem normalizeStaticPath_eq (raw : Bytes) :
    normalizeStaticPath raw = (raw.splitOn Ascii.slash).foldlM normalizeSegment [] := by
  have hempty : ∀ result, normalizeSegment result [] = some result := by
    simp [normalizeSegment]
  rw [normalizeStaticPath, forEachPathComponent,
    loop_pathComponentTurn hempty (Nat.zero_le _) (by omega)]
  rfl

/-- The elements of the parts are those of the whole, but for the separator. -/
theorem mem_flatten_splitOn {c sep : UInt8} {l : Bytes} :
    c ∈ (l.splitOn sep).flatten ↔ c ∈ l ∧ c ≠ sep := by
  induction l with
  | nil => simp
  | cons a l ih =>
    obtain ⟨seg, segs, hsegs⟩ := exists_cons_of_ne_nil (splitOn_ne_nil sep l)
    rw [hsegs, flatten_cons, mem_append] at ih
    rw [splitOn, splitOnP_cons_eq_if_modifyHead, ← splitOn, hsegs]
    by_cases ha : a = sep
    · simp only [ha, beq_self_eq_true, if_true, flatten_cons, nil_append, mem_append, ih, mem_cons]
      tauto
    · simp only [beq_eq_false_iff_ne.mpr ha, Bool.false_eq_true, if_false, modifyHead_cons,
        flatten_cons, cons_append, mem_cons, mem_append, ih]
      grind

/-! ## The path is that of the stack -/

/-- A segment keeps the code at the path of the stack, and only names on the stack. -/
theorem normalizeSegment_pathOf (hstack : ∀ name ∈ stack, IsName name) {seg : Bytes}
    (hslash : Ascii.slash ∉ seg) (hnul : Ascii.nul ∉ seg) :
    normalizeSegment (pathOf stack) seg = (stackStep stack seg).map pathOf ∧
      ∀ stack' ∈ stackStep stack seg, ∀ name ∈ stack', IsName name := by
  rw [normalizeSegment, stackStep, if_neg hnul]
  by_cases hup : seg = [0x2E, 0x2E]
  · simp only [if_pos hup]
    cases stack with
    | nil => simp [pathOf]
    | cons name below =>
      obtain ⟨hname, hbelow⟩ := forall_mem_cons.mp hstack
      have hlast : rfind Ascii.slash (pathOf (name :: below)) = some (pathOf below).length := by
        rw [rfind, pathOf_cons, reverse_append, reverse_cons, append_assoc, singleton_append,
          find_singleton (by simpa using hname.2.2.2.1)]
        simp
      refine ⟨?_, by simpa using hbelow⟩
      rw [hlast, pathOf_cons]
      cases hpath : pathOf below <;> simp [hpath]
  simp only [if_neg hup]
  by_cases hdrop : seg = [] ∨ seg = [0x2E]
  · rw [if_neg (by tauto), if_pos hdrop]
    exact ⟨rfl, by simpa using hstack⟩
  · rw [if_pos (by tauto), if_neg hdrop]
    have hname : IsName seg := ⟨by tauto, by tauto, hup, hslash, hnul⟩
    exact ⟨by simp [pathOf_cons], by simpa using ⟨hname, hstack⟩⟩

theorem foldlM_normalizeSegment (hstack : ∀ name ∈ stack, IsName name) {segs : List Bytes}
    (hsegs : ∀ seg ∈ segs, Ascii.slash ∉ seg ∧ Ascii.nul ∉ seg) :
    segs.foldlM normalizeSegment (pathOf stack) = (segs.foldlM stackStep stack).map pathOf ∧
      ∀ stack' ∈ segs.foldlM stackStep stack, ∀ name ∈ stack', IsName name := by
  induction segs generalizing stack with
  | nil => exact ⟨rfl, by simpa using hstack⟩
  | cons seg segs ih =>
    obtain ⟨hseg, hsegs⟩ := forall_mem_cons.mp hsegs
    obtain ⟨hstep, hnames⟩ := normalizeSegment_pathOf hstack hseg.1 hseg.2
    rw [foldlM_cons, foldlM_cons, hstep]
    cases hs : stackStep stack seg with
    | none => exact ⟨rfl, by simp⟩
    | some stack' => exact ih (hnames stack' hs) hsegs

theorem foldlM_normalizeSegment_nul {segs : List Bytes} {result : Bytes}
    (h : Ascii.nul ∈ segs.flatten) : segs.foldlM normalizeSegment result = none := by
  induction segs generalizing result with
  | nil => simp at h
  | cons seg segs ih =>
    rw [foldlM_cons]
    rcases mem_append.mp h with hseg | hsegs
    · rw [normalizeSegment, if_pos hseg]
      rfl
    cases normalizeSegment result seg with
    | none => rfl
    | some result' => exact ih hsegs

/-- The names of a stack are the segments of its path. -/
theorem splitOn_pathOf (hstack : ∀ name ∈ stack, IsName name) :
    (pathOf stack).splitOn Ascii.slash = [] :: stack.reverse ∧
      stackOf (pathOf stack) = some stack := by
  rw [stackOf]
  induction stack with
  | nil => exact ⟨by simp [pathOf], rfl⟩
  | cons name below ih =>
    obtain ⟨⟨hne, hdot, hup, hslash, -⟩, hbelow⟩ := forall_mem_cons.mp hstack
    obtain ⟨hsplit, hfold⟩ := ih hbelow
    rw [pathOf_cons, splitOn_append_cons_self, splitOn_eq_singleton hslash, foldlM_append, hfold]
    exact ⟨by simp [hsplit], by simp [stackStep, hup, hne, hdot]⟩

theorem normalizeStaticPath_of_notMem {raw : Bytes} (hnul : Ascii.nul ∉ raw) :
    normalizeStaticPath raw = (stackOf raw).map pathOf ∧
      ∀ stack ∈ stackOf raw, ∀ name ∈ stack, IsName name := by
  rw [normalizeStaticPath_eq]
  have hroot : ∀ name ∈ ([] : List Bytes), IsName name := by simp
  refine foldlM_normalizeSegment hroot fun seg hseg => ⟨fun h => ?_, fun h => ?_⟩
  · exact (mem_flatten_splitOn.mp (mem_flatten_of_mem hseg h)).2 rfl
  · exact hnul (mem_flatten_splitOn.mp (mem_flatten_of_mem hseg h)).1

/-- Normalisation is the stack semantics, and a normalised path is left as it is. -/
theorem normalizeStaticPath_stack (raw : Bytes) :
    normalizeStaticPath raw = (if Ascii.nul ∈ raw then none else (stackOf raw).map pathOf) ∧
      ∀ r ∈ normalizeStaticPath raw, normalizeStaticPath r = some r ∧
        ∃ names, r.splitOn Ascii.slash = [] :: names ∧ ∀ name ∈ names, IsName name := by
  by_cases hnul : Ascii.nul ∈ raw
  · have hnone : normalizeStaticPath raw = none := by
      rw [normalizeStaticPath_eq]
      exact foldlM_normalizeSegment_nul (mem_flatten_splitOn.mpr ⟨hnul, by decide⟩)
    rw [if_pos hnul, hnone]
    exact ⟨rfl, by simp⟩
  obtain ⟨hpath, hnames⟩ := normalizeStaticPath_of_notMem hnul
  rw [if_neg hnul, hpath]
  refine ⟨rfl, fun r hr => ?_⟩
  obtain ⟨stack, hstack, rfl⟩ := map_eq_some_iff.mp hr
  obtain ⟨hsplit, hself⟩ := splitOn_pathOf (hnames stack hstack)
  have hclear : Ascii.nul ∉ pathOf stack := by
    intro hmem
    have hflat := mem_flatten_splitOn.mpr ⟨hmem, (by decide : Ascii.nul ≠ Ascii.slash)⟩
    simp only [hsplit, flatten_cons, nil_append, mem_flatten, mem_reverse] at hflat
    obtain ⟨name, hname, hin⟩ := hflat
    exact (hnames stack hstack name hname).2.2.2.2 hin
  refine ⟨?_, stack.reverse, hsplit, by simpa using hnames stack hstack⟩
  rw [(normalizeStaticPath_of_notMem hclear).1, hself]
  rfl

/-- The path `/a/../b/.`. -/
theorem normalizeStaticPath_stack_dots :
    normalizeStaticPath [0x2F, 0x62] = some [0x2F, 0x62] := by
  have hdots : normalizeStaticPath [0x2F, 0x61, 0x2F, 0x2E, 0x2E, 0x2F, 0x62, 0x2F, 0x2E] =
      some [0x2F, 0x62] := by decide
  exact ((normalizeStaticPath_stack _).2 _ hdots).1

end Conflux.Http.Static

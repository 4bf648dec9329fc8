import Conflux.Json.Dom.Entry

/-!
# The two policies that keep one of several members

Under one policy the first of several members with the same name is kept and the values of
the others are skipped; under the other the last one is kept and all of them are stored. The
documents are compared through the tree both were parsed from.
-/

namespace Conflux.Json

open Conflux.Core Option Cst

/-! ## What is kept -/

/-- The first of the members with a name. -/
def firstOf (k : Bytes) (ms : List (StrTok × Cst)) : Option (StrTok × Cst) :=
  ms.find? fun m => m.1.dec = k

/-- The last of the members with a name. -/
def lastOf (k : Bytes) (ms : List (StrTok × Cst)) : Option (StrTok × Cst) :=
  firstOf k ms.reverse

/-- A value keeps one member of each name, in the order of first appearance, and so do the kept
members and items. -/
inductive Keeps (pick : Bytes → List (StrTok × Cst) → Option (StrTok × Cst)) : Cst → JVal → Prop
  | null : Keeps pick .null .null
  | bool (b : Bool) : Keeps pick (.bool b) (.bool b)
  | num (lexeme : Bytes) : Keeps pick (.num lexeme) (.num lexeme)
  | str (t : StrTok) : Keeps pick (.str t) (.str t.dec)
  | arr {ts : List Cst} {vs : List JVal} (items : List.Forall₂ (Keeps pick) ts vs) :
      Keeps pick (.arr ts) (.arr vs)
  | obj {ms : List (StrTok × Cst)} {xs : List (Bytes × JVal)}
      (names : xs.map Prod.fst = firstKeys (ms.map fun m => m.1.dec))
      (picked : ∀ x ∈ xs, (pick x.1 ms).isSome)
      (members : ∀ x m, x ∈ xs → pick x.1 ms = some m → Keeps pick m.2 x.2) :
      Keeps pick (.obj ms) (.obj xs)

variable {pick : Bytes → List (StrTok × Cst) → Option (StrTok × Cst)} {policy : DuplicateKeyPolicy}

private theorem map_fst_memberValues (policy : DuplicateKeyPolicy) (ms : List (StrTok × Cst)) :
    (memberValues policy ms).map Prod.fst = ms.map fun m => m.1.dec := by
  rw [memberValues_eq_map, List.map_map]
  rfl

/-- The value of a tree keeps the members that a lookup finds in the fold of an object. -/
theorem keeps_value (hmem : ∀ k ms m, pick k ms = some m → m ∈ ms)
    (hnames : ∀ ms : List (Bytes × JVal),
      (foldMembers policy ms).map Prod.fst = firstKeys (ms.map Prod.fst))
    (hfind : ∀ k ms, assocFind k (foldMembers policy (memberValues policy ms)) =
      (pick k ms).map fun m => m.2.value policy) (t : Cst) : Keeps pick t (t.value policy) := by
  induction t using induction with
  | null => exact .null
  | bool b => exact .bool b
  | num l => exact .num l
  | str t => exact .str t
  | arr ts ih =>
    rw [value, itemValues_eq_map]
    refine .arr ?_
    rw [List.forall₂_map_right_iff, List.forall₂_same]
    exact ih
  | obj ms ih =>
    have hlookup (x : Bytes × JVal) (hx : x ∈ foldMembers policy (memberValues policy ms)) :
        (pick x.1 ms).map (fun m => m.2.value policy) = some x.2 := by
      rw [← hfind]
      exact assocFind_of_mem (hnames _ ▸ nodup_firstKeys _) hx
    refine .obj ?_ (fun x hx => ?_) (fun x m hx hm => ?_)
    · rw [hnames, map_fst_memberValues]
    · obtain ⟨m, hm, -⟩ := map_eq_some_iff.mp (hlookup x hx)
      rw [hm]
      rfl
    · have hval := hlookup x hx
      rw [hm, map_some, some.injEq] at hval
      rw [← hval]
      exact ih m (hmem x.1 ms m hm)

/-- The value under the first policy keeps the first member of each name. -/
theorem keeps_firstOf (t : Cst) : Keeps firstOf t (t.value .firstWins) := by
  refine keeps_value (fun k ms m hm => List.mem_of_find?_eq_some hm) (fun ms => ?_)
    (fun k ms => ?_) t
  · rw [foldMembers_firstWins, map_fst_foldFirst]
  · rw [foldMembers_firstWins, assocFind_foldFirst, memberValues_eq_map, assocFind_map]

/-- The value under the last policy keeps the last member of each name. -/
theorem keeps_lastOf (t : Cst) : Keeps lastOf t (t.value .lastWins) := by
  refine keeps_value (fun k ms m hm => List.mem_reverse.mp (List.mem_of_find?_eq_some hm))
    (fun ms => ?_) (fun k ms => ?_) t
  · rw [foldMembers_lastWins, map_fst_foldLast]
  · rw [foldMembers_lastWins, assocFind_foldLast, memberValues_eq_map, ← List.map_reverse,
      assocFind_map]

/-! ## What is checked -/

/-- The options with another policy for repeated names. -/
def JsonParseOptions.withPolicy (opts : JsonParseOptions) (policy : DuplicateKeyPolicy) :
    JsonParseOptions := { opts with duplicateKey := policy }

@[simp] theorem tooDeep_withPolicy (opts : JsonParseOptions) (policy : DuplicateKeyPolicy)
    (depth : Nat) : tooDeep (opts.withPolicy policy) depth = tooDeep opts depth := rfl

@[simp] theorem stringFits_withPolicy (opts : JsonParseOptions) (policy : DuplicateKeyPolicy)
    (t : StrTok) : stringFits (opts.withPolicy policy) t = stringFits opts t := rfl

section

variable (opts : JsonParseOptions)

private theorem and_pairs (a b c d : Bool) : (a && b && (c && d)) = (a && c && (b && d)) := by
  ac_rfl

private theorem memberAccepts_lastWins (depth : Nat) (seen : List Bytes) (m : StrTok × Cst) :
    memberAccepts (opts.withPolicy .lastWins) depth seen m =
      (stringFits opts m.1 && m.2.accepts (opts.withPolicy .lastWins) depth) := by
  unfold memberAccepts
  split <;> rfl

mutual

/-- Storing every value checks all that skipping does, and every name. -/
theorem Cst.accepts_lastWins (depth : Nat) : (t : Cst) →
    t.accepts (opts.withPolicy .lastWins) depth = (t.skips opts depth && t.namesFit opts)
  | .null | .bool _ | .num _ | .str _ => (Bool.and_true _).symm
  | .arr ts => by
    rw [accepts, itemsAccept_lastWins, skips, namesFit, Bool.and_assoc]
    rfl
  | .obj ms => by
    rw [accepts, membersAccept_lastWins, skips, namesFit, Bool.and_assoc]
    rfl

theorem itemsAccept_lastWins (depth : Nat) : (ts : List Cst) →
    itemsAccept (opts.withPolicy .lastWins) depth ts =
      (itemsSkip opts depth ts && itemsNamesFit opts ts)
  | [] => rfl
  | t :: ts => by
    rw [itemsAccept, Cst.accepts_lastWins, itemsAccept_lastWins, itemsSkip, itemsNamesFit]
    ac_rfl

theorem membersAccept_lastWins (depth : Nat) (seen : List Bytes) : (ms : List (StrTok × Cst)) →
    membersAccept (opts.withPolicy .lastWins) depth seen ms =
      (membersSkip opts depth ms && membersNamesFit opts ms)
  | [] => rfl
  | (k, t) :: ms => by
    rw [membersAccept_cons, membersAccept_lastWins, memberAccepts_lastWins, Cst.accepts_lastWins,
      membersSkip, membersNamesFit]
    ac_rfl

end

mutual

/-- Skipping does not look at the policy. -/
theorem Cst.skips_withPolicy (policy : DuplicateKeyPolicy) (depth : Nat) : (t : Cst) →
    t.skips (opts.withPolicy policy) depth = t.skips opts depth
  | .null | .bool _ | .num _ | .str _ => rfl
  | .arr ts => by
    rw [skips, itemsSkip_withPolicy, skips]
    rfl
  | .obj ms => by
    rw [skips, membersSkip_withPolicy, skips]
    rfl

theorem itemsSkip_withPolicy (policy : DuplicateKeyPolicy) (depth : Nat) : (ts : List Cst) →
    itemsSkip (opts.withPolicy policy) depth ts = itemsSkip opts depth ts
  | [] => rfl
  | t :: ts => by rw [itemsSkip, Cst.skips_withPolicy, itemsSkip_withPolicy, itemsSkip]

theorem membersSkip_withPolicy (policy : DuplicateKeyPolicy) (depth : Nat) :
    (ms : List (StrTok × Cst)) →
    membersSkip (opts.withPolicy policy) depth ms = membersSkip opts depth ms
  | [] => rfl
  | (k, t) :: ms => by
    rw [membersSkip, Cst.skips_withPolicy, membersSkip_withPolicy, membersSkip]

end

mutual

/-- Skipping the later values checks as much if the discarded names are checked as well. -/
theorem Cst.accepts_firstWins (depth : Nat) : (t : Cst) →
    (t.accepts (opts.withPolicy .firstWins) depth && t.discardsFit opts) =
      (t.skips opts depth && t.namesFit opts)
  | .null | .bool _ | .num _ | .str _ => rfl
  | .arr ts => by
    rw [accepts, discardsFit, Bool.and_assoc, itemsAccept_firstWins, skips,
      namesFit, Bool.and_assoc]
    rfl
  | .obj ms => by
    rw [accepts, discardsFit, Bool.and_assoc, membersAccept_firstWins, skips,
      namesFit, Bool.and_assoc]
    rfl

theorem itemsAccept_firstWins (depth : Nat) : (ts : List Cst) →
    (itemsAccept (opts.withPolicy .firstWins) depth ts && itemsDiscardsFit opts ts) =
      (itemsSkip opts depth ts && itemsNamesFit opts ts)
  | [] => rfl
  | t :: ts => by
    have hone := Cst.accepts_firstWins depth t
    have hrest := itemsAccept_firstWins depth ts
    rw [itemsAccept, itemsDiscardsFit, itemsSkip, itemsNamesFit]
    rw [and_pairs, hone, hrest, and_pairs]

theorem membersAccept_firstWins (depth : Nat) (seen : List Bytes) : (ms : List (StrTok × Cst)) →
    (membersAccept (opts.withPolicy .firstWins) depth seen ms && membersDiscardsFit opts seen ms) =
      (membersSkip opts depth ms && membersNamesFit opts ms)
  | [] => rfl
  | (k, t) :: ms => by
    have hrest := membersAccept_firstWins depth (addName seen k.dec) ms
    -- A new name is stored, a repeated one is skipped; both come to the same checks.
    have hone : (memberAccepts (opts.withPolicy .firstWins) depth seen (k, t) &&
        if k.dec ∈ seen then t.namesFit opts else t.discardsFit opts) =
        (t.skips opts depth && (stringFits opts k && t.namesFit opts)) := by
      by_cases hk : k.dec ∈ seen
      · have hskip := skips_withPolicy opts .firstWins depth t
        simp only [memberAccepts, if_pos hk]
        dsimp only [JsonParseOptions.withPolicy] at hskip ⊢
        rw [hskip, Bool.and_comm (stringFits _ _), Bool.and_assoc]
        rfl
      · simp only [memberAccepts, if_neg hk]
        rw [Bool.and_assoc, Cst.accepts_firstWins, Bool.and_left_comm]
        rfl
    rw [membersAccept_cons, membersDiscardsFit, membersSkip, membersNamesFit]
    rw [and_pairs, hone, hrest, and_pairs]

end

end

/-! ## The two documents -/

section

variable (opts : JsonParseOptions) (seed seed' : Nat → UInt64) (input : Bytes)

/-- Keeping the last of several members fails more often than keeping the first: exactly when, in
an input of proper size whose tree is accepted with the first ones kept, a discarded value has a
member name over the size limit, which is checked only where the value is stored. Where both
succeed, both documents have each name once, in the order of first appearance, with the value of
its first or of its last member. -/
theorem parse_firstWins_lastWins :
    ((∃ st, parse (opts.withPolicy .lastWins) seed' input = .ok st) →
      ∃ st, parse (opts.withPolicy .firstWins) seed input = .ok st) ∧
    (((∃ st, parse (opts.withPolicy .firstWins) seed input = .ok st) ↔
        ∃ st, parse (opts.withPolicy .lastWins) seed' input = .ok st) ↔
      (sizeFits opts input.length → ∀ t, readInput opts.mode input = some t →
        t.accepts (opts.withPolicy .firstWins) 0 → t.discardsFit opts)) ∧
    ∀ st st', parse (opts.withPolicy .firstWins) seed input = .ok st →
      parse (opts.withPolicy .lastWins) seed' input = .ok st' →
      ∃ t v v', readInput opts.mode input = some t ∧ st.value = some v ∧ st'.value = some v' ∧
        Keeps firstOf t v ∧ Keeps lastOf t v' := by
  have hlast : (∃ st, parse (opts.withPolicy .lastWins) seed' input = .ok st) ↔
      (∃ st, parse (opts.withPolicy .firstWins) seed input = .ok st) ∧
        ∀ t, readInput opts.mode input = some t → t.discardsFit opts := by
    rw [parse_ok_iff, parse_ok_iff]
    have hmode (policy : DuplicateKeyPolicy) : (opts.withPolicy policy).mode = opts.mode := rfl
    have hsize (policy : DuplicateKeyPolicy) :
        sizeFits (opts.withPolicy policy) input.length = sizeFits opts input.length := rfl
    simp only [hmode, hsize]
    cases readInput opts.mode input with
    | none => simp
    | some t =>
      have hone : t.accepts (opts.withPolicy .lastWins) 0 =
          (t.accepts (opts.withPolicy .firstWins) 0 && t.discardsFit opts) := by
        rw [Cst.accepts_firstWins, Cst.accepts_lastWins]
      simp [hone, and_assoc]
  refine ⟨fun h => (hlast.mp h).1, ?_, ?_⟩
  · rw [hlast]
    have hfirst := parse_ok_iff (opts.withPolicy .firstWins) seed input
    constructor
    · intro h hsize t hread hok
      exact (h.mp (hfirst.mpr ⟨hsize, t, hread, hok⟩)).2 t hread
    · intro h
      refine ⟨fun hst => ⟨hst, fun t hread => ?_⟩, fun hboth => hboth.1⟩
      obtain ⟨hsize, t', hread', hok⟩ := hfirst.mp hst
      obtain rfl : t = t' := some.inj (hread.symm.trans hread')
      exact h hsize t hread hok
  intro st st' hst hst'
  obtain ⟨t, hread, -, hval⟩ := parse_value hst
  obtain ⟨t', hread', -, hval'⟩ := parse_value hst'
  have htree : t = t' := some.inj (hread.symm.trans hread')
  subst htree
  exact ⟨t, _, _, hread, hval, hval', keeps_firstOf t, keeps_lastOf t⟩

end

/-- The input `{"a":0,"a":{"bb":1}}`. -/
def discardedLongName : Bytes :=
  [0x7B, 0x22, 0x61, 0x22, 0x3A, 0x30, 0x2C, 0x22, 0x61, 0x22, 0x3A, 0x7B, 0x22, 0x62, 0x62, 0x22,
    0x3A, 0x31, 0x7D, 0x7D]

/-- With strings limited to one byte, the name `bb` is refused where it is stored only. -/
theorem parse_discardedLongName :
    (parse { maxStringSize := .bound 1, duplicateKey := .firstWins } (fun _ => 0)
        discardedLongName).isOk = true ∧
      (parse { maxStringSize := .bound 1, duplicateKey := .lastWins } (fun _ => 0)
        discardedLongName).isOk = false := by
  decide +kernel

end Conflux.Json

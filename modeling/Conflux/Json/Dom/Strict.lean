import Conflux.Json.Dom.Policy
import Conflux.Json.Grammar.Complete

/-!
# Strict parsing and the grammar

The parser in strict mode, with repeated names rejected, against the grammar. Where no object has
a name twice, the policy for repeated names does not matter.
-/

namespace Conflux.Json

open Conflux.Core List Bool Cst

mutual

/-- All values of a tree, with their depths. -/
def Cst.nodesAt (depth : Nat) : Cst → List (Nat × Cst)
  | .arr ts => (depth, .arr ts) :: itemNodesAt (depth + 1) ts
  | .obj ms => (depth, .obj ms) :: memberNodesAt (depth + 1) ms
  | t => [(depth, t)]

/-- All values of some items, with their depths. -/
def itemNodesAt (depth : Nat) : List Cst → List (Nat × Cst)
  | [] => []
  | t :: ts => t.nodesAt depth ++ itemNodesAt depth ts

/-- All values of some members, with their depths. -/
def memberNodesAt (depth : Nat) : List (StrTok × Cst) → List (Nat × Cst)
  | [] => []
  | (_, t) :: ms => t.nodesAt depth ++ memberNodesAt depth ms

end

/-- The names of written members. -/
def names (ms : List (StrTok × Cst)) : List Bytes := ms.map fun m => m.1.dec

/-- Numbers, strings and names within their limits, and no name twice. -/
def nodeFits (opts : JsonParseOptions) : Cst → Bool
  | .num lexeme => numberFits lexeme
  | .str t => stringFits opts t
  | .obj ms => ms.all (fun m => stringFits opts m.1) && decide (names ms).Nodup
  | _ => true

/-- Whether a tree respects the configured limits, with no name twice in any object. -/
def Cst.within (opts : JsonParseOptions) (t : Cst) : Bool :=
  (t.nodesAt 0).all fun x => !opts.maxDepth.exceeds x.1 kDefaultMaxDepth && nodeFits opts x.2

/-- Whether a tree is no deeper than the descent goes. -/
def Cst.shallow (t : Cst) : Bool := (t.nodesAt 0).all fun x => x.1 ≤ kRecursiveDepthCeiling

section

variable (opts : JsonParseOptions)

/-- What the parser checks at one value. -/
def nodeAccepts (x : Nat × Cst) : Bool := !tooDeep opts x.1 && nodeFits opts x.2

/-- A member whose name is new. -/
private theorem memberAccepts_reject (depth : Nat) (seen : List Bytes) (k : StrTok) (t : Cst) :
    memberAccepts (opts.withPolicy .reject) depth seen (k, t) ↔
      stringFits opts k ∧ k.dec ∉ seen ∧ t.accepts (opts.withPolicy .reject) depth := by
  by_cases hk : k.dec ∈ seen
  · simp [memberAccepts, hk, JsonParseOptions.withPolicy]
  · simp [memberAccepts, hk]

private theorem nodup_append_cons {seen ks : List Bytes} {k : Bytes} :
    (seen ++ k :: ks).Nodup ↔ k ∉ seen ∧ ((seen ++ [k]) ++ ks).Nodup := by
  rw [append_assoc, singleton_append]
  constructor
  · intro h
    refine ⟨fun hk => ?_, h⟩
    exact disjoint_of_nodup_append h hk (by simp)
  · exact fun h => h.2

mutual

/-- The storing descent that rejects repeated names checks every value on its own. -/
theorem Cst.accepts_reject (depth : Nat) : (t : Cst) →
    (t.accepts (opts.withPolicy .reject) depth ↔ ∀ x ∈ t.nodesAt depth, nodeAccepts opts x)
  | .null | .bool _ | .num _ | .str _ => by simp [accepts, nodesAt, nodeAccepts, nodeFits]
  | .arr ts => by
    have hitems := itemsAccept_reject (depth + 1) ts
    simp [accepts, nodesAt, nodeAccepts, nodeFits, hitems]
  | .obj ms => by
    have hmembers := membersAccept_reject (depth + 1) ms [] nodup_nil
    rw [nil_append] at hmembers
    simp only [accepts, nodesAt, nodeAccepts, nodeFits, tooDeep_withPolicy,
      and_eq_true, hmembers, forall_mem_cons, all_eq_true, decide_eq_true_eq]
    tauto

theorem itemsAccept_reject (depth : Nat) : (ts : List Cst) →
    (itemsAccept (opts.withPolicy .reject) depth ts ↔
      ∀ x ∈ itemNodesAt depth ts, nodeAccepts opts x)
  | [] => by simp [itemsAccept, itemNodesAt]
  | t :: ts => by
    have hone := Cst.accepts_reject depth t
    have hrest := itemsAccept_reject depth ts
    rw [itemsAccept, itemNodesAt, and_eq_true, hone, hrest, forall_mem_append]

theorem membersAccept_reject (depth : Nat) : (ms : List (StrTok × Cst)) → (seen : List Bytes) →
    seen.Nodup → (membersAccept (opts.withPolicy .reject) depth seen ms ↔
      (∀ x ∈ memberNodesAt depth ms, nodeAccepts opts x) ∧ (∀ m ∈ ms, stringFits opts m.1) ∧
        (seen ++ names ms).Nodup)
  | [], seen, hseen => by simp [membersAccept, memberNodesAt, names, hseen]
  | (k, t) :: ms, seen, hseen => by
    have hone := Cst.accepts_reject depth t
    rw [membersAccept_cons, memberNodesAt, and_eq_true, memberAccepts_reject, hone,
      forall_mem_append, forall_mem_cons]
    have hnames : names ((k, t) :: ms) = k.dec :: names ms := rfl
    rw [hnames, nodup_append_cons]
    by_cases hk : k.dec ∈ seen
    · simp [hk]
    have hnew : (seen ++ [k.dec]).Nodup := by
      rw [nodup_append]
      exact ⟨hseen, by simp, by grind⟩
    rw [addName, if_neg hk, membersAccept_reject depth ms (seen ++ [k.dec]) hnew]
    tauto

end

/-- The checks of the parser are the configured limits and its own bound on the depth. -/
theorem Cst.accepts_reject_iff (t : Cst) :
    t.accepts (opts.withPolicy .reject) 0 ↔ t.within opts ∧ t.shallow := by
  rw [accepts_reject]
  simp only [nodeAccepts, tooDeep, within, shallow, all_eq_true, and_eq_true,
    not_eq_true', or_eq_false_iff, decide_eq_true_eq, decide_eq_false_iff_not]
  constructor
  · intro h
    refine ⟨fun x hx => ⟨(h x hx).1.2, (h x hx).2⟩, fun x hx => ?_⟩
    have hdepth := (h x hx).1.1
    omega
  · rintro ⟨h, hshallow⟩ x hx
    have hdepth := hshallow x hx
    exact ⟨⟨by omega, (h x hx).1⟩, (h x hx).2⟩

/-- The options in strict mode, with repeated names rejected. -/
def JsonParseOptions.strictReject (opts : JsonParseOptions) : JsonParseOptions :=
  { opts with mode := .strict, duplicateKey := .reject }

/-- Strict parsing accepts exactly the texts of the grammar, after an optional byte order mark,
that are within the input size limits and whose tree respects the configured limits, has no name
twice in any object and is no deeper than the descent goes. The document denotes its value. -/
theorem parse_strict_iff (seed : Nat → UInt64) (input : Bytes) :
    ((∃ st, parse opts.strictReject seed input = .ok st) ↔
      sizeFits opts input.length ∧
        ∃ t, JsonText (stripBom input) t ∧ t.within opts ∧ t.shallow) ∧
    ∀ st t, parse opts.strictReject seed input = .ok st → JsonText (stripBom input) t →
      st.value = some (t.value .reject) := by
  have hread (t : Cst) : readInput .strict input = some t ↔ JsonText (stripBom input) t :=
    readText_strict_iff {} (stripBom input) t
  constructor
  · rw [parse_ok_iff]
    have hsize : sizeFits opts.strictReject input.length = sizeFits opts input.length := rfl
    have hacc (t : Cst) : t.accepts opts.strictReject 0 ↔ t.within opts ∧ t.shallow :=
      Cst.accepts_reject_iff { opts with mode := .strict } t
    simp only [hsize, hacc]
    constructor
    · rintro ⟨hfits, t, ht, hok⟩
      exact ⟨hfits, t, (hread t).mp ht, hok⟩
    · rintro ⟨hfits, t, ht, hok⟩
      exact ⟨hfits, t, (hread t).mpr ht, hok⟩
  intro st t hst ht
  obtain ⟨t', ht', -, hval⟩ := parse_value hst
  have heq : t' = t := Option.some.inj (ht'.symm.trans ((hread t).mpr ht))
  rw [heq] at hval
  exact hval

end

/-- Arrays nested `n` levels deep. -/
def nestedText : Nat → Bytes
  | 0 => [Ascii.lbracket, Ascii.rbracket]
  | n + 1 => Ascii.lbracket :: (nestedText n ++ [Ascii.rbracket])

/-- The tree of nested arrays. -/
def nestedTree : Nat → Cst
  | 0 => .arr []
  | n + 1 => .arr [nestedTree n]

theorem itemText_nested (n : Nat) : ItemText (nestedText n) (nestedTree n) := by
  have hnil : Ws [] := fun b hb => by cases hb
  induction n with
  | zero => simpa [nestedText, nestedTree] using ItemText.mk hnil (.emptyArr hnil) hnil
  | succ n ih => simpa [nestedText, nestedTree] using ItemText.mk hnil (.arr (.one ih)) hnil

theorem length_nestedText (n : Nat) : (nestedText n).length = 2 * n + 2 := by
  induction n with
  | zero => rfl
  | succ n ih =>
    simp only [nestedText, length_cons, length_append, length_nil, ih]
    omega

theorem stripBom_nested (n : Nat) : stripBom (nestedText n) = nestedText n := by
  cases n <;> rfl

/-- The innermost of nested arrays. -/
theorem mem_nodesAt_nested (n depth : Nat) :
    (depth + n, arr []) ∈ (nestedTree n).nodesAt depth := by
  induction n generalizing depth with
  | zero => simp [nestedTree, nodesAt]
  | succ n ih =>
    have h := ih (depth + 1)
    rw [Nat.add_assoc, Nat.add_comm 1 n] at h
    simp [nestedTree, nodesAt, itemNodesAt, h]

theorem nodeFits_nested (opts : JsonParseOptions) (n depth : Nat) :
    ∀ x ∈ (nestedTree n).nodesAt depth, nodeFits opts x.2 := by
  induction n generalizing depth with
  | zero => simp [nestedTree, nodesAt, itemNodesAt, nodeFits]
  | succ n ih =>
    simp only [nestedTree, nodesAt, itemNodesAt, append_nil, forall_mem_cons]
    exact ⟨rfl, ih (depth + 1)⟩

/-- Without a depth limit, arrays nested 257 levels deep respect every limit but are refused. -/
theorem parse_nested_unlimited :
    JsonText (stripBom (nestedText 257)) (nestedTree 257) ∧
      (nestedTree 257).within { maxDepth := .unlimited } = true ∧
      sizeFits { maxDepth := .unlimited } (nestedText 257).length = true ∧
      ¬ ∃ st, parse { maxDepth := .unlimited } (fun _ => 0) (nestedText 257) = .ok st := by
  have htext : JsonText (stripBom (nestedText 257)) (nestedTree 257) := by
    rw [stripBom_nested]
    exact itemText_nested 257
  refine ⟨htext, ?_, ?_, ?_⟩
  · rw [Cst.within, all_eq_true]
    intro x hx
    simp [LimitOption.exceeds, nodeFits_nested _ _ _ x hx]
  · rw [length_nestedText]
    decide
  rw [parse_ok_iff]
  rintro ⟨-, t, hread, hok⟩
  have ht : t = nestedTree 257 :=
    Option.some.inj (hread.symm.trans (readText_complete htext {}))
  have hdeep := ((Cst.accepts_reject_iff { maxDepth := .unlimited } t).mp hok).2
  rw [ht, Cst.shallow, all_eq_true] at hdeep
  exact absurd (hdeep _ (mem_nodesAt_nested 257 0)) (by decide)

/-! ## Trees without repeated names -/

/-- A value that has no name twice. -/
def nodeDistinct : Cst → Bool
  | .obj ms => decide (names ms).Nodup
  | _ => true

/-- Whether no object of a tree has a name twice. -/
def Cst.distinct (t : Cst) : Bool := (t.nodesAt 0).all fun x => nodeDistinct x.2

section

variable (opts : JsonParseOptions)

mutual

/-- Without repeated names, the policy for them does not matter. -/
theorem Cst.accepts_of_distinct (depth : Nat) : (t : Cst) →
    (∀ x ∈ t.nodesAt depth, nodeDistinct x.2) →
    t.accepts opts depth = t.accepts (opts.withPolicy .reject) depth
  | .null, _ => rfl
  | .bool _, _ => rfl
  | .num _, _ => rfl
  | .str _, _ => rfl
  | .arr ts, h => by
    rw [nodesAt, forall_mem_cons] at h
    rw [accepts, accepts, itemsAccept_of_distinct (depth + 1) ts h.2, tooDeep_withPolicy]
  | .obj ms, h => by
    rw [nodesAt, forall_mem_cons, nodeDistinct, decide_eq_true_eq] at h
    rw [accepts, accepts, membersAccept_of_distinct (depth + 1) ms [] h.2 h.1,
      tooDeep_withPolicy]

theorem itemsAccept_of_distinct (depth : Nat) : (ts : List Cst) →
    (∀ x ∈ itemNodesAt depth ts, nodeDistinct x.2) →
    itemsAccept opts depth ts = itemsAccept (opts.withPolicy .reject) depth ts
  | [], _ => rfl
  | t :: ts, h => by
    rw [itemNodesAt, forall_mem_append] at h
    rw [itemsAccept, itemsAccept, Cst.accepts_of_distinct depth t h.1,
      itemsAccept_of_distinct depth ts h.2]

theorem membersAccept_of_distinct (depth : Nat) : (ms : List (StrTok × Cst)) →
    (seen : List Bytes) → (∀ x ∈ memberNodesAt depth ms, nodeDistinct x.2) →
    (seen ++ names ms).Nodup →
    membersAccept opts depth seen ms = membersAccept (opts.withPolicy .reject) depth seen ms
  | [], _, _, _ => rfl
  | (k, t) :: ms, seen, h, hnames => by
    rw [memberNodesAt, forall_mem_append] at h
    have hk : k.dec ∉ seen := fun hmem =>
      disjoint_of_nodup_append hnames hmem (by simp [names])
    have hrest : ((seen ++ [k.dec]) ++ names ms).Nodup := by
      rw [append_assoc]
      exact hnames
    rw [membersAccept_cons, membersAccept_cons, memberAccepts, memberAccepts, addName]
    simp only [hk, if_false]
    rw [Cst.accepts_of_distinct depth t h.1, membersAccept_of_distinct depth ms _ h.2 hrest]
    rfl

end

end

/-- Members with different names are kept as they are. -/
theorem foldMembers_of_nodup {ν : Type} (policy : DuplicateKeyPolicy) {ms : List (Bytes × ν)}
    (h : (ms.map Prod.fst).Nodup) : foldMembers policy ms = ms := by
  have aux (ms acc : List (Bytes × ν)) (h : ((acc ++ ms).map Prod.fst).Nodup) :
      ms.foldl (memberStep policy) acc = acc ++ ms := by
    induction ms generalizing acc with
    | nil => simp
    | cons m ms ih =>
      have hm : m.1 ∉ acc.map Prod.fst := by
        rw [map_append] at h
        exact fun hmem => disjoint_of_nodup_append h hmem (by simp)
      rw [foldl_cons, memberStep_of_notMem policy hm, ih, append_assoc, singleton_append]
      rw [append_assoc, singleton_append]
      exact h
  exact aux ms [] h

mutual

/-- Without repeated names, a tree has one value. -/
theorem Cst.value_of_distinct (policy : DuplicateKeyPolicy) (depth : Nat) : (t : Cst) →
    (∀ x ∈ t.nodesAt depth, nodeDistinct x.2) → t.value policy = t.value .reject
  | .null, _ => rfl
  | .bool _, _ => rfl
  | .num _, _ => rfl
  | .str _, _ => rfl
  | .arr ts, h => by
    rw [nodesAt, forall_mem_cons] at h
    rw [value, value, itemValues_of_distinct policy (depth + 1) ts h.2]
  | .obj ms, h => by
    rw [nodesAt, forall_mem_cons, nodeDistinct, decide_eq_true_eq] at h
    have hvals := memberValues_of_distinct policy (depth + 1) ms h.2
    have hnames : (memberValues .reject ms).map Prod.fst = names ms := by
      rw [memberValues_eq_map, map_map]
      rfl
    rw [value, value, hvals, foldMembers_of_nodup policy (hnames ▸ h.1), foldMembers_reject]

theorem itemValues_of_distinct (policy : DuplicateKeyPolicy) (depth : Nat) : (ts : List Cst) →
    (∀ x ∈ itemNodesAt depth ts, nodeDistinct x.2) → itemValues policy ts = itemValues .reject ts
  | [], _ => rfl
  | t :: ts, h => by
    rw [itemNodesAt, forall_mem_append] at h
    rw [itemValues, itemValues, Cst.value_of_distinct policy depth t h.1,
      itemValues_of_distinct policy depth ts h.2]

theorem memberValues_of_distinct (policy : DuplicateKeyPolicy) (depth : Nat) :
    (ms : List (StrTok × Cst)) → (∀ x ∈ memberNodesAt depth ms, nodeDistinct x.2) →
    memberValues policy ms = memberValues .reject ms
  | [], _ => rfl
  | (k, t) :: ms, h => by
    rw [memberNodesAt, forall_mem_append] at h
    rw [memberValues, memberValues, Cst.value_of_distinct policy depth t h.1,
      memberValues_of_distinct policy depth ms h.2]

end

theorem parse_withPolicy_iff {opts : JsonParseOptions} {policy : DuplicateKeyPolicy}
    {seed : Nat → UInt64} {input : Bytes} {v : JVal} :
    (∃ st, parse (opts.withPolicy policy) seed input = .ok st ∧ st.value = some v) ↔
      sizeFits opts input.length ∧ ∃ t, readInput opts.mode input = some t ∧
        t.accepts (opts.withPolicy policy) 0 ∧ t.value policy = v := by
  obtain ⟨st, t, hp, (hread : readInput opts.mode input = _),
      ⟨(hsize : sizeFits opts input.length), hok⟩, (hval : _ = some (t.value policy)), -⟩ |
    ⟨e, hp, hno⟩ := (parse_follows (opts.withPolicy policy) seed input).cases
  · simp [hp, hread, hsize, hok, hval]
  · constructor
    · rintro ⟨st, hst, -⟩
      rw [hp] at hst
      cases hst
    · rintro ⟨hsize, t, hread, hok, -⟩
      exact (hno t hread ⟨hsize, hok⟩).elim

theorem distinct_of_accepts {opts : JsonParseOptions} {t : Cst}
    (h : t.accepts (opts.withPolicy .reject) 0) : t.distinct := by
  refine all_eq_true.mpr fun x hx => ?_
  have hfits := (accepts_reject opts 0 t).mp h x hx
  unfold nodeAccepts nodeFits at hfits
  unfold nodeDistinct
  grind

/-- A document is parsed with repeated names rejected exactly if any other policy parses it and it
has none. -/
theorem parse_reject_iff (opts : JsonParseOptions) (policy : DuplicateKeyPolicy)
    (seed seed' : Nat → UInt64) (input : Bytes) (v : JVal) :
    (∃ st, parse (opts.withPolicy .reject) seed input = .ok st ∧ st.value = some v) ↔
      (∃ st, parse (opts.withPolicy policy) seed' input = .ok st ∧ st.value = some v) ∧
        ∃ t, readInput opts.mode input = some t ∧ t.distinct := by
  rw [parse_withPolicy_iff, parse_withPolicy_iff]
  cases readInput opts.mode input with
  | none => simp
  | some t =>
    by_cases hd : t.distinct
    · have hall := all_eq_true.mp hd
      have hok : t.accepts (opts.withPolicy policy) 0 = t.accepts (opts.withPolicy .reject) 0 :=
        t.accepts_of_distinct (opts.withPolicy policy) 0 hall
      simp [hok, t.value_of_distinct policy 0 hall, hd]
    · simp [hd, mt distinct_of_accepts hd]

end Conflux.Json

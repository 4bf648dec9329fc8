import Conflux.Http.Routing.Index

/-!
# The index leaves no route out

An index holds each position of its routes once, under the first literal of the pattern or in
the generic list, and a path that matches a pattern has this literal as its first part.
-/

namespace Conflux.Http.Routing

open Conflux.Core Registration RangeIterator

/-! ## Iterators -/

namespace RangeIterator

/-- The positions an iterator has not passed, by the list they stand in. -/
def remaining (it : RangeIterator) : List (List Nat) :=
  [if it.exactDone then [] else it.selected.exact.toList,
    it.selected.literal.drop it.literalPos, it.selected.generic.drop it.genericPos]

theorem leastHead_three (a b c : List Nat) :
    leastHead [a, b, c] = minIndex (minIndex a.head? b.head?) c.head? := by
  cases a <;> cases b <;> cases c <;> rfl

theorem currentIndex_eq_leastHead (it : RangeIterator) :
    it.currentIndex = leastHead it.remaining := by
  have hexact : (if it.exactDone then [] else it.selected.exact.toList).head? =
      if it.exactDone then none else it.selected.exact := by
    cases it.exactDone <;> cases it.selected.exact <;> rfl
  unfold remaining currentIndex
  rw [leastHead_three, hexact, List.head?_drop, List.head?_drop]

theorem done_iff (it : RangeIterator) : it.done = true ↔ leastHead it.remaining = none := by
  have hexact : (it.selected.exact.isNone || it.exactDone) = true ↔
      (if it.exactDone then [] else it.selected.exact.toList) = [] := by
    cases it.exactDone <;> cases it.selected.exact <;> simp
  rw [leastHead_eq_none]
  simp only [done, remaining, Bool.and_eq_true, decide_eq_true_eq, hexact, List.mem_cons,
    List.not_mem_nil, or_false, forall_eq_or_imp, forall_eq, List.drop_eq_nil_iff, and_assoc]

theorem passHead_drop (c pos : Nat) (l : List Nat) :
    passHead c (l.drop pos) =
      l.drop (if pos < l.length ∧ l[pos]? = some c then pos + 1 else pos) := by
  unfold passHead
  rw [List.head?_drop]
  by_cases h : l[pos]? = some c
  · have hpos : pos < l.length := (List.getElem?_eq_some_iff.mp h).1
    rw [if_pos h, if_pos ⟨hpos, h⟩, List.tail_drop]
  · rw [if_neg h, if_neg fun hand => h hand.2]

variable {it : RangeIterator}

theorem remaining_advance {c : Nat} (h : it.currentIndex = some c) :
    it.advance.remaining = it.remaining.map (passHead c) := by
  have hexact : passHead c (if it.exactDone then [] else it.selected.exact.toList) =
      if (it.exactDone || (it.selected.exact.isSome && it.selected.exact == some c)) then []
      else it.selected.exact.toList := by
    cases it.exactDone with
    | true => rfl
    | false =>
      cases it.selected.exact with
      | none => rfl
      | some e =>
        by_cases hec : e = c
        all_goals simp [passHead, hec]
  simp only [remaining, advance, h, List.map_cons, List.map_nil, hexact, passHead_drop]

/-- An iterator gives the merge of its lists. -/
theorem traverses {n : Nat} (hn : totalLength it.remaining ≤ n) :
    Traverses done currentIndex advance it (merge n it.remaining) := by
  induction n generalizing it with
  | zero =>
    apply Traverses.nil
    rw [done_iff, leastHead_eq_none]
    intro l hl
    have hle : l.length ≤ totalLength it.remaining := List.le_sum_of_mem (List.mem_map_of_mem hl)
    exact List.length_eq_zero_iff.mp (by omega)
  | succ n ih =>
    rw [merge]
    cases hleast : leastHead it.remaining with
    | none => exact .nil (it.done_iff.mpr hleast)
    | some c =>
      have hcurrent : it.currentIndex = some c := by rw [currentIndex_eq_leastHead, hleast]
      have hdone : it.done = false := by
        rw [Bool.eq_false_iff, Ne, done_iff, hleast]
        exact Option.some_ne_none c
      have hlt := totalLength_passHead_lt (leastHead_eq_some hleast).1
      have htail := @ih it.advance (by rw [remaining_advance hcurrent]; omega)
      rw [remaining_advance hcurrent] at htail
      exact .cons hdone hcurrent htail

end RangeIterator

namespace CombinedIterator

variable {it : CombinedIterator}

theorem skipOnce_of_not_done (h : it.current.done = false) : it.skipOnce = it := by
  unfold skipOnce
  rw [h, if_neg fun hand => Bool.false_ne_true hand.2]

theorem skipEmpty_of_not_done (h : it.current.done = false) : it.skipEmpty = it := by
  unfold skipEmpty
  rw [skipOnce_of_not_done h, skipOnce_of_not_done h]

/-- Past the fallback there is nothing to skip. -/
theorem skipOnce_of_two_le (h : 2 ≤ it.phase) : it.skipOnce = it := by
  unfold skipOnce
  rw [if_neg fun hand => absurd hand.1 (by omega)]

theorem skipOnce_of_done (hphase : it.phase < 2) (h : it.current.done = true) : it.skipOnce =
      { it with
        phase := it.phase + 1
        current := if it.phase + 1 = 1 then { selected := it.fallback } else it.current } := by
  unfold skipOnce
  rw [if_pos ⟨hphase, h⟩]

variable (fallback : RouteLookupSelection)

/-- In the fallback one turn skips everything. -/
theorem skipEmpty_fallback (current : RangeIterator) :
    skipEmpty ⟨fallback, 1, current⟩ = skipOnce ⟨fallback, 1, current⟩ := by
  cases hdone : current.done with
  | false => rw [skipEmpty_of_not_done hdone, skipOnce_of_not_done hdone]
  | true =>
    have hskip := @skipOnce_of_done ⟨fallback, 1, current⟩ Nat.one_lt_two hdone
    unfold skipEmpty
    rw [hskip, skipOnce_of_two_le (le_refl _)]

/-- The loop over the candidates of both ranges. -/
abbrev Gives (it : CombinedIterator) (l : List Nat) : Prop :=
  Traverses atEnd (fun it => it.current.currentIndex) advance it l

variable {current : RangeIterator} {l : List Nat}

theorem traverses_fallback
    (h : Traverses RangeIterator.done RangeIterator.currentIndex RangeIterator.advance current l) :
    Gives (skipEmpty ⟨fallback, 1, current⟩) l := by
  induction h with
  | @nil current hdone =>
    have hskip := @skipOnce_of_done ⟨fallback, 1, current⟩ Nat.one_lt_two hdone
    apply Traverses.nil
    rw [skipEmpty_fallback, hskip]
    rfl
  | @cons current a l hdone hcurrent _ ih =>
    rw [skipEmpty_of_not_done hdone]
    exact .cons rfl hcurrent ih

/-- The primary range comes first, then the fallback. -/
theorem traverses_primary {fallback : RouteLookupSelection} {l' : List Nat}
    (h : Traverses RangeIterator.done RangeIterator.currentIndex RangeIterator.advance current l)
    (h' : Traverses RangeIterator.done RangeIterator.currentIndex RangeIterator.advance
      { selected := fallback } l') :
    Gives (skipEmpty ⟨fallback, 0, current⟩) (l ++ l') := by
  induction h with
  | @nil current hdone =>
    have hskip := @skipOnce_of_done ⟨fallback, 0, current⟩ Nat.two_pos hdone
    have htail := traverses_fallback fallback h'
    rw [skipEmpty_fallback] at htail
    unfold skipEmpty
    rw [hskip]
    exact htail
  | @cons current a l hdone hcurrent _ ih =>
    rw [skipEmpty_of_not_done hdone]
    exact .cons rfl hcurrent ih

end CombinedIterator

namespace RouteLookupSelection

/-- The selected positions in ascending order. -/
def candidates (selected : RouteLookupSelection) : List Nat :=
  merge selected.size [selected.exact.toList, selected.literal, selected.generic]

variable (selected : RouteLookupSelection)

theorem totalLength_lists :
    totalLength [selected.exact.toList, selected.literal, selected.generic] = selected.size := by
  simp [totalLength, size, add_assoc]

theorem length_candidates_le :
    selected.candidates.length ≤ selected.size :=
  length_merge_le _ _

theorem traverses_candidates :
    Traverses done currentIndex advance { selected }
      selected.candidates :=
  @RangeIterator.traverses { selected } _ (le_of_eq selected.totalLength_lists)

theorem candidates_spec {selected : RouteLookupSelection}
    (hliteral : selected.literal.Pairwise (· < ·)) (hgeneric : selected.generic.Pairwise (· < ·)) :
    (∀ i, i ∈ selected.candidates ↔
      selected.exact = some i ∨ i ∈ selected.literal ∨ i ∈ selected.generic) ∧
        selected.candidates.Pairwise (· < ·) := by
  have hasc : ∀ l ∈ [selected.exact.toList, selected.literal, selected.generic],
      l.Pairwise (· < ·) := by
    have hexact : selected.exact.toList.Pairwise (· < ·) := by
      cases selected.exact with
      | none => exact List.Pairwise.nil
      | some i => exact List.pairwise_singleton _ i
    simp only [List.mem_cons, List.not_mem_nil, or_false, forall_eq_or_imp, forall_eq]
    exact ⟨hexact, hliteral, hgeneric⟩
  obtain ⟨hmem, hpair⟩ := merge_spec hasc (le_of_eq selected.totalLength_lists)
  refine ⟨fun i => ?_, hpair⟩
  unfold candidates
  rw [hmem]
  simp

end RouteLookupSelection

/-! ## Prepared patterns -/

theorem isLiteral_of_isExactLiteralPattern {pattern : List Segment}
    (h : isExactLiteralPattern pattern = true) : ∀ s ∈ pattern, s.IsLiteral := by
  intro s hs
  have hflags := List.all_eq_true.mp h s hs
  rw [Bool.not_eq_true', Bool.or_eq_false_iff] at hflags
  exact hflags

/-- What the index relies on in a prepared pattern. -/
structure Prepared (route : PreparedRoutePattern) : Prop where
  /-- The pattern starts with the root segment and another one. -/
  starts : ∃ segment segments, route.pattern = rootSegment :: segment :: segments
  /-- The comparison with the exact path is a match of the segments. -/
  matches_eq : ∀ path, routeMatches route path = matchSegments route.pattern path

variable {path : Bytes} {route : PreparedRoutePattern}

theorem prepared_of_prepareRoutePattern (h : prepareRoutePattern path = .ok route) :
    Prepared route := by
  unfold prepareRoutePattern at h
  cases hparse : parseRoutePattern path with
  | error e =>
    rw [hparse] at h
    cases h
  | ok pattern =>
    rw [hparse] at h
    cases h
    obtain ⟨hstarts, hvalues⟩ := parseRoutePattern_ok hparse
    refine ⟨hstarts, fun request => ?_⟩
    unfold routeMatches
    cases hexact : isExactLiteralPattern pattern with
    | false => rfl
    | true =>
      have hliteral := isLiteral_of_isExactLiteralPattern hexact
      have hsame : path.splitOn Ascii.slash = request.splitOn Ascii.slash ↔ path = request := by
        constructor
        · intro heq
          have hjoin := congrArg [Ascii.slash].intercalate heq
          rwa [List.intercalate_splitOn, List.intercalate_splitOn] at hjoin
        · intro heq
          rw [heq]
      rw [matchSegments_literal hliteral, hvalues hliteral]
      simp only [hsame, if_true]

theorem firstLiteralKey_root (segment : Segment) (segments : List Segment) :
    firstLiteralKey (rootSegment :: segment :: segments) =
      if segment.isParam ∨ segment.isWildcard then none else some segment.value := by
  simp [firstLiteralKey, rootSegment]

/-- The first part of a path that matches is the first literal of the pattern. -/
theorem Prepared.firstPathKey_eq (h : Prepared route) {key : Bytes} {params : Params}
    (hkey : firstLiteralKey route.pattern = some key)
    (hmatch : matchSegments route.pattern path = some params) : firstPathKey path = some key := by
  obtain ⟨segment, segments, hpattern⟩ := h.starts
  rw [hpattern, firstLiteralKey_root] at hkey
  rw [hpattern] at hmatch
  by_cases hflags : segment.isParam = true ∨ segment.isWildcard = true
  · rw [if_pos hflags] at hkey
    cases hkey
  rw [if_neg hflags] at hkey
  rw [not_or, Bool.not_eq_true, Bool.not_eq_true] at hflags
  obtain ⟨rest, rfl, hpart⟩ := startsWith_of_matchSegments hflags hmatch
  rw [← hkey, ← hpart]
  rfl

/-! ## What an index holds -/

section

variable {ρ : Type} (view : ρ → PreparedRoutePattern) (mine : ρ → Bool)

/-- An index holds the positions of its routes, each in the list its pattern belongs to. -/
structure Covers (index : RouteLookupIndex) (routes : List ρ) : Prop where
  generic : index.generic =
    positions (fun r => mine r && (firstLiteralKey (view r).pattern).isNone) routes
  literal : ∀ key, (assocFind key index.byFirstLiteral).getD [] =
    positions (fun r => mine r && firstLiteralKey (view r).pattern == some key) routes
  exact : ∀ path i, assocFind path index.exact = some i → i ∈ positions mine routes

theorem covers_nil : Covers view mine {} [] where
  generic := rfl
  literal := fun _ => rfl
  exact := nofun

variable {view mine} {index : RouteLookupIndex} {routes : List ρ} {r : ρ}

variable {i : Nat}

theorem mem_positions_concat (h : i ∈ positions mine routes) :
    i ∈ positions mine (routes ++ [r]) := by
  rw [positions_concat]
  exact List.mem_append_left _ h

section

variable (h : Covers view mine index routes)
include h

/-- Routes of others do not touch an index. -/
theorem Covers.skip (hr : mine r = false) :
    Covers view mine index (routes ++ [r]) where
  generic := by
    rw [positions_concat, hr]
    exact h.generic.trans (List.append_nil _).symm
  literal := fun key => by
    rw [positions_concat, hr]
    exact (h.literal key).trans (List.append_nil _).symm
  exact := fun path i hi => mem_positions_concat (h.exact path i hi)

theorem Covers.exact_add (hr : mine r = true)
    {exactPath path : Bytes}
    (hi : assocFind path (keepFirst index.exact (exactPath, routes.length)) = some i) :
    i ∈ positions mine (routes ++ [r]) := by
  rw [assocFind_keepFirst] at hi
  cases hold : assocFind path index.exact with
  | some j =>
    rw [hold] at hi
    cases hi
    exact mem_positions_concat (h.exact path i hold)
  | none =>
    rw [hold, Option.none_or, assocFind] at hi
    split at hi
    · cases hi
      rw [positions_concat, hr, if_pos rfl]
      exact List.mem_append_right _ (List.mem_singleton.mpr rfl)
    · cases hi

/-- Entering a route at its own position keeps the index. -/
theorem Covers.add (hr : mine r = true) :
    Covers view mine
      (indexRoutePattern index (view r).pattern (view r).exactPath routes.length)
      (routes ++ [r]) := by
  obtain ⟨entered, heq, hexact, hgeneric, hliteral⟩ : ∃ entered,
      (if (view r).exactPath ≠ [] then
        { index with exact := keepFirst index.exact ((view r).exactPath, routes.length) }
        else index) = entered ∧
      (∀ path i, assocFind path entered.exact = some i → i ∈ positions mine (routes ++ [r])) ∧
      entered.generic = index.generic ∧ entered.byFirstLiteral = index.byFirstLiteral := by
    refine ⟨_, rfl, ?_⟩
    split
    · exact ⟨fun _ _ hi => h.exact_add hr hi, rfl, rfl⟩
    · exact ⟨fun path i hi => mem_positions_concat (h.exact path i hi), rfl, rfl⟩
  unfold indexRoutePattern
  dsimp only
  rw [heq]
  cases hkey : firstLiteralKey (view r).pattern with
  | none =>
    constructor
    · rw [positions_concat, hr, hkey, ← h.generic, hgeneric]
      rfl
    · intro key
      rw [positions_concat, hr, hkey, ← h.literal, hliteral]
      exact (List.append_nil _).symm
    · exact hexact
  | some key =>
    constructor
    · rw [positions_concat, hr, hkey, ← h.generic, hgeneric]
      exact (List.append_nil _).symm
    · intro key'
      rw [positions_concat, hr, hkey, ← h.literal, hliteral, assocFind_assocUpdate]
      by_cases hsame : key = key'
      all_goals simp [hsame]
    · exact hexact

end

/-! ## Selection through an index -/

/-- The scan over all routes in the order of registration. -/
def linearScan (routes : List ρ) (answer : ρ → Option Params) : Option (Nat × Params) :=
  (List.range routes.length).findSome? (answerAt routes answer)

theorem answerAt_isSome {answer : ρ → Option Params} (h : (answerAt routes answer i).isSome) :
    ∃ r params, routes[i]? = some r ∧ answer r = some params := by
  obtain ⟨x, hx⟩ := Option.isSome_iff_exists.mp h
  obtain ⟨r, hr, hanswer⟩ := Option.bind_eq_some_iff.mp hx
  obtain ⟨params, hp, -⟩ := Option.map_eq_some_iff.mp hanswer
  exact ⟨r, params, hr, hp⟩

/-- Every selected position belongs to a route of the index, and every route of the index that
matches is selected. -/
theorem Covers.findSome?_candidates (h : Covers view mine index routes)
    (hprepared : ∀ r ∈ routes, Prepared (view r)) (accepts : ρ → Bool) (path : Bytes) :
    (selectRoutesForPath index path).candidates.findSome?
        (answerAt routes fun r => if accepts r then routeMatches (view r) path else none) =
      linearScan routes fun r =>
        if mine r ∧ accepts r then matchSegments (view r).pattern path else none := by
  have hliteral : (selectRoutesForPath index path).literal.Pairwise (· < ·) := by
    unfold selectRoutesForPath
    cases firstPathKey path with
    | none => exact List.Pairwise.nil
    | some key =>
      dsimp only
      rw [h.literal]
      exact positions_ascending _ _
  have hgeneric : (selectRoutesForPath index path).generic.Pairwise (· < ·) := by
    unfold selectRoutesForPath
    rw [h.generic]
    exact positions_ascending _ _
  obtain ⟨hmem, hpair⟩ := RouteLookupSelection.candidates_spec hliteral hgeneric
  apply findSome?_eq_of_cover hpair List.pairwise_lt_range
  · intro i hi
    have hmine : ∃ r, routes[i]? = some r ∧ mine r = true := by
      rcases (hmem i).mp hi with hexact | hlit | hgen
      · exact mem_positions.mp (h.exact path i hexact)
      · unfold selectRoutesForPath at hlit
        split at hlit
        · cases hlit
        rename_i key hkey
        rw [h.literal, mem_positions] at hlit
        obtain ⟨r, hr, hand⟩ := hlit
        exact ⟨r, hr, (Bool.and_eq_true _ _ ▸ hand).1⟩
      unfold selectRoutesForPath at hgen
      rw [h.generic, mem_positions] at hgen
      obtain ⟨r, hr, hand⟩ := hgen
      exact ⟨r, hr, (Bool.and_eq_true _ _ ▸ hand).1⟩
    obtain ⟨r, hr, hmine⟩ := hmine
    refine ⟨List.mem_range.mpr (List.getElem?_eq_some_iff.mp hr).1, ?_⟩
    have heq := (hprepared r (List.mem_of_getElem? hr)).matches_eq path
    simp only [answerAt, hr, Option.bind_some, hmine, true_and, heq]
  intro i _ hsome
  obtain ⟨r, params, hr, hanswer⟩ := answerAt_isSome hsome
  have hp := hprepared r (List.mem_of_getElem? hr)
  split at hanswer
  · rename_i hand
    rw [hmem]
    right
    cases hkey : firstLiteralKey (view r).pattern with
    | none =>
      right
      unfold selectRoutesForPath
      rw [h.generic, mem_positions]
      exact ⟨r, hr, by rw [hand.1, hkey]; rfl⟩
    | some key =>
      left
      unfold selectRoutesForPath
      rw [hp.firstPathKey_eq hkey hanswer]
      dsimp only
      rw [h.literal, mem_positions]
      exact ⟨r, hr, by rw [hand.1, hkey]; simp⟩
  · cases hanswer

end

/-! ## Tables -/

section

variable {η : Type}

/-- The route a call registers, if its pattern is valid. -/
def preparedRoute (method path : Bytes) (handler : η) : Option (Route η) :=
  (prepareRoutePattern path).toOption.map fun prepared => { prepared with method, handler }

/-- A table holds the given routes, and its indexes cover them method by method. -/
structure RouteTable.Holds (table : RouteTable η) (routes : List (Route η)) : Prop where
  routes_eq : table.routes = routes
  prepared : ∀ r ∈ routes, Prepared r.toPreparedRoutePattern
  covers : ∀ method, Covers Route.toPreparedRoutePattern (fun r => r.method == method)
    ((assocFind method table.indexes).getD {}) routes

theorem RouteTable.holds_nil : RouteTable.Holds ({} : RouteTable η) [] where
  routes_eq := rfl
  prepared := nofun
  covers := fun _ => covers_nil _ _

theorem prepared_concat {ρ : Type} {view : ρ → PreparedRoutePattern} {routes : List ρ} {r : ρ}
    (h : ∀ r ∈ routes, Prepared (view r)) (hr : Prepared (view r)) :
    ∀ r' ∈ routes ++ [r], Prepared (view r') :=
  List.forall_mem_append.mpr ⟨h, List.forall_mem_singleton.mpr hr⟩

variable {routes : List (Route η)} {α β : Type} {router : Router η}
  {registrations : List (Registration η)}

variable {table : RouteTable η}

theorem RouteTable.Holds.add (h : table.Holds routes) (method path : Bytes) (handler : η) :
    RouteTable.Holds ((table.addPrepared method path handler).toOption.getD table)
      (routes ++ (preparedRoute method path handler).toList) := by
  unfold RouteTable.addPrepared preparedRoute
  cases hprepare : prepareRoutePattern path with
  | error e =>
    have hnone : routes ++ [] = routes := List.append_nil routes
    exact hnone.symm ▸ h
  | ok prepared =>
    let route : Route η := { prepared with method, handler }
    have hroute : Prepared route.toPreparedRoutePattern :=
      prepared_of_prepareRoutePattern hprepare
    constructor
    · exact congrArg (· ++ [route]) h.routes_eq
    · exact prepared_concat h.prepared hroute
    intro m
    have hcover := h.covers m
    change Covers _ _ ((assocFind m (assocUpdate method {} _ table.indexes)).getD {})
      (routes ++ [route])
    rw [assocFind_assocUpdate, h.routes_eq]
    by_cases hm : method = m
    · rw [if_pos hm]
      exact hcover.add (r := route) (beq_iff_eq.mpr hm)
    · rw [if_neg hm]
      exact hcover.skip (beq_eq_false_iff_ne.mpr hm)

theorem selectMethodRoutes_eq (indexes : List (Bytes × RouteLookupIndex)) (method path : Bytes) :
    selectMethodRoutes indexes method path =
      selectRoutesForPath ((assocFind method indexes).getD {}) path := by
  unfold selectMethodRoutes
  cases assocFind method indexes with
  | some index => rfl
  | none =>
    unfold selectRoutesForPath
    cases firstPathKey path <;> rfl

/-- The scan over all routes that tests method and path; a `HEAD` that no route takes goes to a
route for `GET`. -/
def scanRequest (routes : List (Route η)) (accepts : η → Bool) (method path : Bytes) :
    Option (Nat × Params) :=
  let scan (m : Bytes) := linearScan routes fun r =>
    if r.method == m ∧ accepts r.handler then matchSegments r.pattern path else none
  if method = headMethod then (scan headMethod).or (scan getMethod) else scan method

theorem RouteTable.Holds.dispatchRoutes_eq (h : table.Holds routes) (accepts : η → Bool)
    (method path : Bytes) :
    dispatchRoutes table accepts method path = some (scanRequest routes accepts method path) := by
  have hscan (m : Bytes) := (h.covers m).findSome?_candidates h.prepared
    (fun r => accepts r.handler) path
  unfold dispatchRoutes
  generalize hselected : selectedRequestRoutes table.indexes method path = selected
  obtain ⟨primary, fallback⟩ := selected
  have hgives := CombinedIterator.traverses_primary primary.traverses_candidates
    fallback.traverses_candidates
  have hlength : (primary.candidates ++ fallback.candidates).length <
      primary.size + fallback.size + 1 := by
    have hprimary := primary.length_candidates_le
    have hfallback := fallback.length_candidates_le
    rw [List.length_append]
    omega
  have hloop := hgives.loop_searchTurn (answerAt table.routes fun route =>
    if accepts route.handler then routeMatches route.toPreparedRoutePattern path else none) hlength
  refine hloop.trans (congrArg some ?_)
  rw [List.findSome?_append, h.routes_eq]
  unfold scanRequest
  unfold selectedRequestRoutes at hselected
  by_cases hhead : method = headMethod
  · simp only [hhead, decide_true, if_true, selectMethodRoutes_eq, Prod.mk.injEq] at hselected
    rw [if_pos hhead, ← hselected.1, ← hselected.2, hscan, hscan]
  simp only [hhead, decide_false, Bool.false_eq_true, if_false, selectMethodRoutes_eq,
    Prod.mk.injEq] at hselected
  rw [if_neg hhead, ← hselected.1, ← hselected.2, hscan]
  exact Option.or_none

/-! ## The router -/

/-- The regular route a call registers. -/
def Registration.regularRoute : Registration η → Option (Route η)
  | .regular method path handler => preparedRoute method path handler
  | _ => none

/-- The route with a context a call registers. -/
def Registration.contextRoute : Registration η → Option (Route (ContextHandler η))
  | .context method path handler => preparedRoute method path handler
  | _ => none

/-- The route for event streams a call registers. -/
def Registration.sseRoute : Registration η → Option (SseRoute η)
  | .sse path handler =>
    (prepareRoutePattern path).toOption.map fun prepared => { prepared with handler }
  | _ => none

/-- A router holds what was registered, in the order of registration. -/
structure Router.Holds (router : Router η) (registrations : List (Registration η)) : Prop where
  regular : router.regular.Holds (registrations.filterMap regularRoute)
  context : router.context.Holds (registrations.filterMap contextRoute)
  sse_eq : router.sseRoutes = registrations.filterMap sseRoute
  sse_prepared : ∀ r ∈ router.sseRoutes, Prepared r.toPreparedRoutePattern
  sse_covers : Covers SseRoute.toPreparedRoutePattern (fun _ => true) router.sseIndex
    router.sseRoutes

theorem Router.holds_nil : Router.Holds ({} : Router η) [] where
  regular := RouteTable.holds_nil
  context := RouteTable.holds_nil
  sse_eq := rfl
  sse_prepared := nofun
  sse_covers := covers_nil _ _

theorem filterMap_concat (f : α → Option β) (l : List α) (a : α) :
    (l ++ [a]).filterMap f = l.filterMap f ++ (f a).toList := by
  rw [List.filterMap_append]
  cases hf : f a <;> simp [hf]

theorem filterMap_concat_of_none {f : α → Option β} {l : List α} {a : α} (h : f a = none) :
    (l ++ [a]).filterMap f = l.filterMap f := by
  rw [filterMap_concat, h]
  exact List.append_nil _

theorem Router.Holds.add (h : router.Holds registrations) (r : Registration η) :
    Router.Holds ((router.add r).toOption.getD router) (registrations ++ [r]) := by
  -- A call leaves the tables of the other kinds as they are.
  have hregular (hr : r.regularRoute = none) :
      router.regular.Holds ((registrations ++ [r]).filterMap regularRoute) := by
    rw [filterMap_concat_of_none hr]
    exact h.regular
  have hcontext (hr : r.contextRoute = none) :
      router.context.Holds ((registrations ++ [r]).filterMap contextRoute) := by
    rw [filterMap_concat_of_none hr]
    exact h.context
  have hsse (hr : r.sseRoute = none) :
      router.sseRoutes = (registrations ++ [r]).filterMap sseRoute := by
    rw [filterMap_concat_of_none hr]
    exact h.sse_eq
  cases r with
  | regular method path handler =>
    have hadd := h.regular.add method path handler
    have heq : (router.add (.regular method path handler)).toOption.getD router =
        { router with
          regular := (router.regular.addPrepared method path handler).toOption.getD
            router.regular } := by
      rw [Router.add]
      cases router.regular.addPrepared method path handler <;> rfl
    rw [heq]
    refine ⟨?_, hcontext rfl, hsse rfl, h.sse_prepared, h.sse_covers⟩
    rw [filterMap_concat]
    exact hadd
  | context method path handler =>
    have hadd := h.context.add method path handler
    have heq : (router.add (.context method path handler)).toOption.getD router =
        { router with
          context := (router.context.addPrepared method path handler).toOption.getD
            router.context } := by
      rw [Router.add]
      cases router.context.addPrepared method path handler <;> rfl
    rw [heq]
    refine ⟨hregular rfl, ?_, hsse rfl, h.sse_prepared, h.sse_covers⟩
    rw [filterMap_concat]
    exact hadd
  | sse path handler =>
    rw [Router.add]
    unfold Router.ssePrepared
    cases hprepare : prepareRoutePattern path with
    | error e =>
      refine ⟨hregular rfl, hcontext rfl, hsse ?_, h.sse_prepared, h.sse_covers⟩
      rw [sseRoute, hprepare]
      rfl
    | ok prepared =>
      refine ⟨hregular rfl, hcontext rfl, ?_, ?_, ?_⟩
      · rw [filterMap_concat, sseRoute, hprepare, ← h.sse_eq]
        rfl
      · exact prepared_concat h.sse_prepared (prepared_of_prepareRoutePattern hprepare)
      · exact h.sse_covers.add (r := { prepared with handler }) rfl

/-- Whatever is registered, the tables and their indexes hold it. -/
theorem register_holds (registrations : List (Registration η)) :
    (register registrations).Holds registrations := by
  have hrun (done rest : List (Registration η)) (router : Router η) (h : router.Holds done) :
      Router.Holds
        (rest.foldl (fun router r => (router.add r).toOption.getD router) router)
        (done ++ rest) := by
    induction rest generalizing done router with
    | nil => exact (List.append_nil done).symm ▸ h
    | cons r rest ih =>
      have hnext := ih (done ++ [r]) _ (h.add r)
      rw [List.append_assoc, List.singleton_append] at hnext
      exact hnext
  exact hrun [] registrations {} Router.holds_nil

theorem Router.Holds.dispatchSseRoutes_eq (h : router.Holds registrations) (method path : Bytes) :
    dispatchSseRoutes router method path =
      some (if method = getMethod then
        linearScan (registrations.filterMap sseRoute) fun r =>
          matchSegments r.pattern path
      else none) := by
  unfold dispatchSseRoutes
  by_cases hget : method = getMethod
  · have hhead : ¬ method = headMethod := by
      rw [hget]
      decide
    have hscan := h.sse_covers.findSome?_candidates h.sse_prepared (fun _ => true) path
    have hloop := (selectRoutesForPath router.sseIndex path).traverses_candidates.loop_searchTurn
      (answerAt router.sseRoutes fun route => routeMatches route.toPreparedRoutePattern path)
      (Nat.lt_succ_of_le (RouteLookupSelection.length_candidates_le _))
    simp only [and_self, if_true] at hscan
    rw [if_pos hget, if_pos hget, if_neg hhead, hloop, hscan, h.sse_eq]
  · rw [if_neg hget, if_neg hget]

/-- For all registrations and every request, the route found through the exact paths, the first
literals and the generic list is the one, with its parameters, that a scan over all routes in the
order of registration finds, in each of the three tables. -/
theorem dispatch_register_eq_scan (registrations : List (Registration η)) (method path : Bytes) :
    dispatchRegularRoutes (register registrations) method path =
        some (scanRequest (registrations.filterMap regularRoute) (fun _ => true)
          method path) ∧
      (∀ uploadBody, dispatchContextRoutes (register registrations) uploadBody method path =
        some (scanRequest (registrations.filterMap contextRoute)
          (fun h => h.streamingUpload == uploadBody) method path)) ∧
      dispatchSseRoutes (register registrations) method path =
        some (if method = getMethod then
          linearScan (registrations.filterMap sseRoute) fun r =>
            matchSegments r.pattern path
        else none) := by
  have h := register_holds registrations
  refine ⟨h.regular.dispatchRoutes_eq _ method path, fun uploadBody => ?_,
    h.dispatchSseRoutes_eq method path⟩
  exact h.context.dispatchRoutes_eq _ method path

end

end Conflux.Http.Routing

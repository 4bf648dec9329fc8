import Conflux.Core.Ascending
import Conflux.Core.Assoc
import Conflux.Core.Loop
import Conflux.Http.Routing.Pattern

/-!
# Route tables and their indexes

Registration parses a pattern, enters the position of the route in an index and adds the route to
its table. A request selects entries of the index by its path; iterators give them in ascending
order, and the first route that matches is taken. Hash maps are association lists, handlers are
values of any type.
-/

namespace Conflux.Http.Routing

open Conflux.Core

/-- `GET`. -/
def getMethod : Bytes := [0x47, 0x45, 0x54]

/-- `HEAD`. -/
def headMethod : Bytes := [0x48, 0x45, 0x41, 0x44]

/-- The routes by what their paths begin with. -/
structure RouteLookupIndex where
  generic : List Nat := []
  byFirstLiteral : List (Bytes × List Nat) := []
  exact : List (Bytes × Nat) := []
  deriving DecidableEq, Repr

/-- A parsed pattern. -/
structure PreparedRoutePattern where
  pattern : List Segment
  exactPath : Bytes
  hasExactPath : Bool
  deriving DecidableEq, Repr

/-- A route of a table by methods. -/
structure Route (η : Type) extends PreparedRoutePattern where
  method : Bytes
  handler : η

/-- A route for event streams, which has no method. -/
structure SseRoute (η : Type) extends PreparedRoutePattern where
  handler : η

/-- A handler with the kind of request bodies it takes. -/
structure ContextHandler (η : Type) where
  handler : η
  streamingUpload : Bool

/-! ## Registration -/

/-- The first literal of a pattern. -/
def firstLiteralKey (pattern : List Segment) : Option Bytes :=
  let skipsRoot : Bool := 1 < pattern.length ∧
    (pattern[0]?).any fun s => !s.isParam && !s.isWildcard && s.value.isEmpty
  match pattern[if skipsRoot then 1 else 0]? with
  | none => none
  | some segment => if segment.isParam ∨ segment.isWildcard then none else some segment.value

/-- The first segment of a path. -/
def firstPathKey (path : Bytes) : Option Bytes :=
  if path = [] then none
  else some (splitPart (if path.head? = some Ascii.slash then path.drop 1 else path)).1

/-- The pattern has literals only. -/
def isExactLiteralPattern (pattern : List Segment) : Bool :=
  pattern.all fun segment => !(segment.isParam || segment.isWildcard)

/-- Enter a route into an index. -/
def indexRoutePattern (index : RouteLookupIndex) (pattern : List Segment) (exactPath : Bytes)
    (routeIndex : Nat) : RouteLookupIndex :=
  let index :=
    if exactPath ≠ [] then { index with exact := keepFirst index.exact (exactPath, routeIndex) }
    else index
  match firstLiteralKey pattern with
  | some key =>
    { index with byFirstLiteral := assocUpdate key [] (· ++ [routeIndex]) index.byFirstLiteral }
  | none => { index with generic := index.generic ++ [routeIndex] }

/-- Parse a pattern and prepare its lookup. -/
def prepareRoutePattern (path : Bytes) : Except PatternError PreparedRoutePattern := do
  let pattern ← parseRoutePattern path
  let hasExactPath := isExactLiteralPattern pattern
  return { pattern, hasExactPath, exactPath := if hasExactPath then path else [] }

/-- Routes in the order of registration, and an index for each method. -/
structure RouteTable (η : Type) where
  routes : List (Route η) := []
  indexes : List (Bytes × RouteLookupIndex) := []

/-- Add a route; an invalid pattern changes nothing. -/
def RouteTable.addPrepared {η : Type} (table : RouteTable η) (method path : Bytes)
    (handler : η) : Except PatternError (RouteTable η) := do
  let prepared ← prepareRoutePattern path
  let enter (index : RouteLookupIndex) :=
    indexRoutePattern index prepared.pattern prepared.exactPath table.routes.length
  return { routes := table.routes ++ [{ prepared with method, handler }]
           indexes := assocUpdate method {} enter table.indexes }

/-- The tables of the three kinds of routes. -/
structure Router (η : Type) where
  regular : RouteTable η := {}
  context : RouteTable (ContextHandler η) := {}
  sseRoutes : List (SseRoute η) := []
  sseIndex : RouteLookupIndex := {}

/-- Add a route for event streams. -/
def Router.ssePrepared {η : Type} (router : Router η) (path : Bytes) (handler : η) :
    Except PatternError (Router η) := do
  let prepared ← prepareRoutePattern path
  return { router with
    sseRoutes := router.sseRoutes ++ [{ prepared with handler }]
    sseIndex :=
      indexRoutePattern router.sseIndex prepared.pattern prepared.exactPath
        router.sseRoutes.length }

/-- A call that registers a route. -/
inductive Registration (η : Type) where
  | regular (method path : Bytes) (handler : η)
  | context (method path : Bytes) (handler : ContextHandler η)
  | sse (path : Bytes) (handler : η)

/-- Register one route. -/
def Router.add {η : Type} (router : Router η) : Registration η → Except PatternError (Router η)
  | .regular method path handler => do
    let regular ← router.regular.addPrepared method path handler
    return { router with regular }
  | .context method path handler => do
    let context ← router.context.addPrepared method path handler
    return { router with context }
  | .sse path handler => router.ssePrepared path handler

/-- The router after a list of calls; a call that throws leaves the router as it was. -/
def register {η : Type} (registrations : List (Registration η)) : Router η :=
  registrations.foldl (fun router r => (router.add r).toOption.getD router) {}

/-! ## Selection -/

/-- The routes that may match a path. -/
structure RouteLookupSelection where
  exact : Option Nat := none
  literal : List Nat := []
  generic : List Nat := []
  deriving DecidableEq, Repr

/-- Look a path up. -/
def selectRoutesForPath (index : RouteLookupIndex) (path : Bytes) : RouteLookupSelection where
  exact := assocFind path index.exact
  literal :=
    match firstPathKey path with
    | none => []
    | some key => (assocFind key index.byFirstLiteral).getD []
  generic := index.generic

/-- Look a path up for a method. -/
def selectMethodRoutes (indexes : List (Bytes × RouteLookupIndex)) (method path : Bytes) :
    RouteLookupSelection :=
  match assocFind method indexes with
  | none => {}
  | some index => selectRoutesForPath index path

/-- The number of entries of a selection. -/
def RouteLookupSelection.size (selected : RouteLookupSelection) : Nat :=
  selected.exact.toList.length + selected.literal.length + selected.generic.length

/-- The smaller of two positions; `none` stands for the largest number, which is no position. -/
def minIndex : Option Nat → Option Nat → Option Nat
  | none, j => j
  | some i, none => some i
  | some i, some j => some (min i j)

/-- The iterator of `IndexedRouteRange`. -/
structure RangeIterator where
  selected : RouteLookupSelection
  exactDone : Bool := false
  literalPos : Nat := 0
  genericPos : Nat := 0

namespace RangeIterator

/-- No position is left. -/
def done (it : RangeIterator) : Bool :=
  (it.selected.exact.isNone || it.exactDone) &&
    decide (it.selected.literal.length ≤ it.literalPos) &&
      decide (it.selected.generic.length ≤ it.genericPos)

/-- The least position that is left. -/
def currentIndex (it : RangeIterator) : Option Nat :=
  let current := if it.exactDone then none else it.selected.exact
  let current := minIndex current it.selected.literal[it.literalPos]?
  minIndex current it.selected.generic[it.genericPos]?

/-- Go on in every list whose next entry is the current one. -/
def advance (it : RangeIterator) : RangeIterator :=
  let current := it.currentIndex
  let { selected, exactDone, literalPos, genericPos } := it
  { selected
    exactDone := exactDone || (selected.exact.isSome && selected.exact == current)
    literalPos :=
      if literalPos < selected.literal.length ∧ selected.literal[literalPos]? = current then
        literalPos + 1
      else literalPos
    genericPos :=
      if genericPos < selected.generic.length ∧ selected.generic[genericPos]? = current then
        genericPos + 1
      else genericPos }

end RangeIterator

/-- The iterator of `CombinedIndexedRouteRange`: phase 0 is the primary range, phase 1 the
fallback. -/
structure CombinedIterator where
  fallback : RouteLookupSelection
  phase : Nat
  current : RangeIterator

namespace CombinedIterator

/-- One turn of the loop over empty ranges. -/
def skipOnce (it : CombinedIterator) : CombinedIterator :=
  if it.phase < 2 ∧ it.current.done then
    { it with
      phase := it.phase + 1
      current := if it.phase + 1 = 1 then { selected := it.fallback } else it.current }
  else it

/-- The loop over empty ranges; the phase rises twice at most. -/
def skipEmpty (it : CombinedIterator) : CombinedIterator :=
  it.skipOnce.skipOnce

/-- Go on to the next route. -/
def advance (it : CombinedIterator) : CombinedIterator :=
  skipEmpty { it with current := it.current.advance }

/-- Both ranges are done. -/
def atEnd (it : CombinedIterator) : Bool :=
  2 ≤ it.phase

/-- At the first route. -/
def start (primary fallback : RouteLookupSelection) : CombinedIterator :=
  skipEmpty { fallback, phase := 0, current := { selected := primary } }

end CombinedIterator

/-! ## Dispatch -/

/-- What a route binds if it matches. -/
def routeMatches (route : PreparedRoutePattern) (path : Bytes) : Option Params :=
  if route.hasExactPath then if route.exactPath = path then some [] else none
  else matchSegments route.pattern path

/-- What the route at a position answers, with its position. -/
def answerAt {ρ : Type} (routes : List ρ) (answer : ρ → Option Params) (i : Nat) :
    Option (Nat × Params) :=
  (routes[i]?).bind fun route => (answer route).map fun params => (i, params)

/-- The positions that `selected_request_routes` gives a request, in its two ranges. -/
def selectedRequestRoutes (indexes : List (Bytes × RouteLookupIndex)) (method path : Bytes) :
    RouteLookupSelection × RouteLookupSelection :=
  let isHead : Bool := method = headMethod
  (selectMethodRoutes indexes (if isHead then headMethod else method) path,
    if isHead then selectMethodRoutes indexes getMethod path else {})

/-- The first selected route whose handler is accepted and that matches the path; `none` if the
loop has not ended within its bound. -/
def dispatchRoutes {η : Type} (table : RouteTable η) (accepts : η → Bool)
    (method path : Bytes) : Option (Option (Nat × Params)) :=
  let (primary, fallback) := selectedRequestRoutes table.indexes method path
  let answer (route : Route η) : Option Params :=
    if accepts route.handler then routeMatches route.toPreparedRoutePattern path else none
  loop
    (searchTurn CombinedIterator.atEnd (fun it => it.current.currentIndex)
      CombinedIterator.advance (answerAt table.routes answer))
    (primary.size + fallback.size + 1) (CombinedIterator.start primary fallback)

/-- The first regular route for a request. -/
def dispatchRegularRoutes {η : Type} (router : Router η) (method path : Bytes) :
    Option (Option (Nat × Params)) :=
  dispatchRoutes router.regular (fun _ => true) method path

/-- The first route with a context; `uploadBody` says that the body comes as a stream. -/
def dispatchContextRoutes {η : Type} (router : Router η) (uploadBody : Bool)
    (method path : Bytes) : Option (Option (Nat × Params)) :=
  dispatchRoutes router.context (fun h => h.streamingUpload == uploadBody) method path

/-- The first route for event streams, which only a `GET` request can take. -/
def dispatchSseRoutes {η : Type} (router : Router η) (method path : Bytes) :
    Option (Option (Nat × Params)) :=
  let selected :=
    if method = headMethod then {} else selectRoutesForPath router.sseIndex path
  if method = getMethod then
    loop
      (searchTurn RangeIterator.done RangeIterator.currentIndex RangeIterator.advance
        (answerAt router.sseRoutes fun route => routeMatches route.toPreparedRoutePattern path))
      (selected.size + 1) { selected }
  else some none

end Conflux.Http.Routing

import OsmMini.Cmd.Trip.TspExact
import OsmMini.Foundations.SegmentReversal
import Mathlib.Algebra.Order.Monoid.Unbundled.WithTop

/-!
# The greedy order of a trip and its improvement

Trips with many stops are ordered in two steps. `tspGreedy` goes to the cheapest stop whose
prerequisites are visited, again and again. `tsp2optSearch` then reverses segments of the
order wherever that makes the whole tour cheaper and keeps the prerequisites, in passes over
all segments, until a pass finds nothing or the passes run out.

The search works in place on two arrays, the order and the nodes of the tour. A move is made,
priced as a whole and undone if it does not pay. The prerequisites are judged by a mask of the
stops in the segment: a stop that requires one of them ends the row, since no longer segment
can be reversed either.

Both functions ask again and again whether they have been cancelled. The answers are a
function of the number of times they have asked.
-/

set_option autoImplicit false

namespace OsmMini.Cmd

open OsmMini.Foundations

/-! ## Orders that keep the prerequisites -/

/-- Every stop of an order comes after its prerequisites. -/
def KeepsPrerequisites (pre : List ℕ) (order : List ℕ) : Prop :=
  ∀ (before : List ℕ) (i : ℕ) (after : List ℕ), order = before ++ i :: after →
    ∀ j, (pre.getD i 0).testBit j = true → j ∈ before

/-- An order that visits every one of the stops once, prerequisites first. -/
structure ValidOrder (n : ℕ) (pre : List ℕ) (order : List ℕ) : Prop where
  visits : order.Perm (List.range n)
  prerequisites : KeepsPrerequisites pre order

/-! ## The improvement by reversals -/

section Search

variable (cost : Int64 → Int64 → Option ℚ) (startNode endNode : Int64) (stops : List Int64)
  (pre : List ℕ) (cancelled : ℕ → Bool)

/-- The price of a leg, infinite where there is no route. -/
def cachedCost (fromNode toNode : Int64) : WithTop ℚ :=
  match cost fromNode toNode with
  | some c => (c : WithTop ℚ)
  | none => ⊤

/-- The nodes of a tour: the start, the stops in their order and the end. -/
def tourNodes (order : List ℕ) : List Int64 :=
  startNode :: order.map (fun idx => stops.getD idx 0) ++ [endNode]

/-- Add up legs until the total is infinite. -/
def addLegs (nodes : List Int64) : List ℕ → WithTop ℚ → WithTop ℚ
  | [], total => total
  | k :: ks, total =>
    let total := total + cachedCost cost (nodes.getD k default) (nodes.getD (k + 1) default)
    if total = ⊤ then total else addLegs nodes ks total

/-- The cost of the whole tour along an array of nodes, for `n` stops. -/
def searchCost (n : ℕ) (nodes : List Int64) : WithTop ℚ :=
  addLegs cost nodes (List.range (n + 1)) 0

/-- The state of the search: the two arrays, the cost of their tour, whether the pass has made
a move, how often the context has been asked, and the number of passes. -/
structure TourSearch where
  order : List ℕ
  nodes : List Int64
  bestCost : WithTop ℚ
  improved : Bool
  checks : ℕ
  passes : ℕ

/-- Reverse the stops from `l` to `r` in both arrays. The nodes are one place further on. -/
def TourSearch.reverse (search : TourSearch) (l r : ℕ) : TourSearch :=
  { search with
    order := reverseRange search.order l r
    nodes := reverseRange search.nodes (l + 1) (r + 1) }

/-- The cost of the edges a move would replace. -/
def oldSegment (nodes : List Int64) (l r : ℕ) : WithTop ℚ :=
  ((List.range' l (r + 2 - l)).map fun k =>
    cachedCost cost (nodes.getD k default) (nodes.getD (k + 1) default)).sum

/-- The cost of the edges it would put in their place. -/
def newSegment (nodes : List Int64) (l r : ℕ) : WithTop ℚ :=
  cachedCost cost (nodes.getD l default) (nodes.getD (r + 1) default) +
    cachedCost cost (nodes.getD (l + 1) default) (nodes.getD (r + 2) default) +
    ((List.range' (l + 1) (r - l)).map fun k =>
      cachedCost cost (nodes.getD (k + 1) default) (nodes.getD k default)).sum

/-- Make a move, price the whole tour, and undo the move unless the tour is cheaper and the
search has not been cancelled meanwhile. -/
def tryMove (search : TourSearch) (l r : ℕ) : TourSearch :=
  let moved := search.reverse l r
  let candidateCost := searchCost cost search.order.length moved.nodes
  if candidateCost < search.bestCost then
    let asked := { moved with checks := search.checks + 1 }
    if cancelled search.checks then asked.reverse l r
    else { asked with bestCost := candidateCost, improved := true }
  else moved.reverse l r

/-- The moves that begin at `l`, for the given ends. The flag tells that the search has been
cancelled. -/
def searchRow (l : ℕ) : List ℕ → ℕ → TourSearch → TourSearch × Bool
  | [], _, search => (search, false)
  | r :: rs, segment, search =>
    let asked := { search with checks := search.checks + 1 }
    if cancelled search.checks then (asked, true)
    else if pre.getD (search.order.getD r 0) 0 &&& segment ≠ 0 then (asked, false)
    else
      let segment := segment ||| 2 ^ search.order.getD r 0
      if oldSegment cost search.nodes l r ≤ newSegment cost search.nodes l r then
        searchRow l rs segment asked
      else searchRow l rs segment (tryMove cost cancelled asked l r)

/-- The rows of a pass. -/
def searchRows : List ℕ → TourSearch → TourSearch × Bool
  | [], search => (search, false)
  | l :: ls, search =>
    let n := search.order.length
    match searchRow cost pre cancelled l (List.range' (l + 1) (n - (l + 1)))
        (2 ^ search.order.getD l 0) search with
    | (search, true) => (search, true)
    | (search, false) => searchRows ls search

/-- Passes over all segments, until one finds nothing. -/
def searchPasses : ℕ → TourSearch → TourSearch
  | 0, search => search
  | left + 1, search =>
    let begun := { search with improved := false, passes := search.passes + 1 }
    match searchRows cost pre cancelled (List.range (search.order.length - 1)) begun with
    | (search, true) => search
    | (search, false) => if search.improved then searchPasses left search else search

def maxPasses : ℕ := 64

/-- The search as it begins, with an order to improve. -/
def initialSearch (order : List ℕ) (checks : ℕ) : TourSearch where
  order := order
  nodes := tourNodes startNode endNode stops order
  bestCost := searchCost cost order.length (tourNodes startNode endNode stops order)
  improved := false
  checks := checks
  passes := 0

/-- The whole search. Fewer than four stops are left as they are. -/
def tsp2optRun (order : List ℕ) (checks : ℕ) : TourSearch :=
  let search := initialSearch cost startNode endNode stops order checks
  if order.length < 4 then search else searchPasses cost pre cancelled maxPasses search

/-- The order the search returns. -/
def tsp2optSearch (order : List ℕ) : List ℕ :=
  (tsp2optRun cost startNode endNode stops pre cancelled order 0).order

/-! ## The greedy order -/

/-- The largest float, the price of a leg without a route. -/
def maxFloat64 : ℚ := 2 ^ 1024 - 2 ^ 971

/-- The stops that can come next, in their order. Of several stops at one node the first
stands for all. -/
def eligibleStops (visited : ℕ) : List ℕ :=
  (List.range stops.length).foldl
    (fun eligible i =>
      if visited &&& 2 ^ i = 0 ∧ visited &&& pre.getD i 0 = pre.getD i 0 then
        if eligible.any fun k => stops.getD k 0 == stops.getD i 0 then eligible
        else eligible ++ [i]
      else eligible)
    []

/-- The first of the cheapest stops to go to, if one can be reached. -/
def nearestStop (curNode : Int64) (eligible : List ℕ) : Option ℕ :=
  (eligible.foldl
    (fun (best : ℚ × Option ℕ) i =>
      let c := (cost curNode (stops.getD i 0)).getD maxFloat64
      if c < best.1 then (c, some i) else best)
    (maxFloat64, none)).2

/-- Go to the nearest stop until all are visited. The context is asked before every step, and
again after the legs of the step have been priced in parallel. -/
def greedySteps : ℕ → ℕ → Int64 → List ℕ → ℕ → Except String (List ℕ × ℕ)
  | 0, _, _, order, checks => .ok (order, checks)
  | left + 1, visited, curNode, order, checks =>
    if cancelled checks ∨ cancelled (checks + 1) then .error "context canceled"
    else
      match nearestStop cost stops curNode (eligibleStops stops pre visited) with
      | none => .error "tsp: no eligible next stop (dependency cycle or unreachable stop)"
      | some bestIdx =>
        greedySteps left (visited ||| 2 ^ bestIdx) (stops.getD bestIdx 0) (order ++ [bestIdx])
          (checks + 2)

def tspGreedy : Except String (List ℕ) :=
  let n := stops.length
  if cancelled 0 then .error "context canceled"
  else
    match validateTSP n pre 60 with
    | .error err => .error err
    | .ok () =>
      if n = 0 then .ok []
      else
        match greedySteps cost stops pre cancelled n 0 startNode [] 1 with
        | .error err => .error err
        | .ok (order, checks) =>
          let run := tsp2optRun cost startNode endNode stops pre cancelled order checks
          if cancelled run.checks then .error "context canceled" else .ok run.order

end Search

end OsmMini.Cmd

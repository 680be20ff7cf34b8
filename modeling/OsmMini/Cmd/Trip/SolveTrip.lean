import OsmMini.Cmd.Basic
import OsmMini.Cmd.Trip.TspGreedy
import OsmMini.Core.Routing.Metrics
import OsmMini.Foundations.Slices

/-!
# Trips

`solveTrip` resolves the start, the stops and the end of a plan, turns the dependencies into
masks of prerequisites, orders the stops, routes every leg and puts the legs together.

The order is the given one, a cheapest one for up to 16 stops, or a greedy one that is improved.
Legs with the same nodes share one route. The coordinates of all legs stand in one array, into
which every leg has a window.

The lookups, the routing and the texts of links are parameters.
-/

set_option autoImplicit false

namespace OsmMini.Cmd

open OsmMini.Core OsmMini.Foundations OsmMini.Foundations.Slices

/-! ## Plans and answers -/

structure Location where
  query : String
  lat : Option ℚ
  lon : Option ℚ
  deriving DecidableEq

structure TripStop where
  id : String
  location : Location
  demand : ℚ

structure Dependency where
  before : String
  after : String

structure TripPlan where
  start : Location
  endLoc : Option Location
  stops : List TripStop
  dependencies : List Dependency
  optimize : Bool
  loop : Bool
  vehicleCapacity : ℚ

/-- A stop that was resolved: its place and the node it snaps to. -/
structure StopR where
  id : String
  label : String
  coord : Coord ℚ
  node : Int64
  snap : ℚ
  demand : ℚ
  deriving DecidableEq

structure RoutePoint where
  input : String
  label : String
  lat : ℚ
  lon : ℚ
  node : Int64
  snapM : ℚ
  deriving DecidableEq

/-- A leg, with its path as a list of coordinates or as a window into those of the trip. -/
structure RouteResponse (Path : Type) where
  fromPoint : RoutePoint
  toPoint : RoutePoint
  engine : RouteEngine
  objective : Objective
  cost : ℚ
  distanceM : ℚ
  durationS : ℚ
  path : Path
  googleMapsURL : String
  appleMapsURL : String

structure TripStopResolved where
  id : String
  label : String
  lat : ℚ
  lon : ℚ
  node : Int64
  snapM : ℚ
  demand : ℚ

structure TripSolveResponse where
  engine : RouteEngine
  objective : Objective
  order : List String
  stops : List TripStopResolved
  distanceM : ℚ
  durationS : ℚ
  cost : ℚ
  path : List (Coord ℚ)
  legs : List (RouteResponse (List (Coord ℚ)))
  googleMapsURL : String
  appleMapsURL : String
  totalDemand : ℚ
  vehicleCapacity : ℚ
  capacityWarning : String

/-- What a trip needs of the server. `cost` and `route` depend on the two nodes alone, and
`cancelled` says whether the context has ended when it is asked. -/
structure TripServer where
  resolveLocation : Location → Except String (Coord ℚ × String × String)
  nearestNode : Coord ℚ → Option (Int64 × ℚ)
  cost : RouteOptions ℚ → Int64 → Int64 → Option ℚ
  route : RouteOptions ℚ → Int64 → Int64 → Except String (RouteResult ℚ)
  cancelled : ℕ → Bool
  buildGoogleMapsURL : List (Coord ℚ) → ℕ → String
  buildAppleMapsURL : List (Coord ℚ) → String
  /-- A text in quotes, and a number with one decimal. -/
  quote : String → String
  oneDecimal : ℚ → String

section Solve

variable (s : TripServer) (opt : RouteOptions ℚ)

/-! ## The stops -/

/-- Resolve a place and find the node it snaps to. -/
def resolvePoint (what id : String) (loc : Location) (demand : ℚ) : Except String StopR :=
  match s.resolveLocation loc with
  | .error err => .error s!"{what}: {err}"
  | .ok (coord, label, _) =>
    match s.nearestNode coord with
    | none => .error s!"{what}: no graph node found"
    | some (node, snap) => .ok ⟨id, label, coord, node, snap, demand⟩

/-- The ID of the stop at an index; one without an ID is numbered. -/
def stopID (i : ℕ) (st : TripStop) : String :=
  let id := trimSpace st.id
  if id = "" then s!"S{i + 1}" else id

/-- Resolve the stops from an index on. No ID may occur twice. -/
def resolveStops : ℕ → List String → List TripStop → Except String (List StopR)
  | _, _, [] => .ok []
  | i, seen, st :: rest =>
    let id := stopID i st
    if id ∈ seen then .error s!"duplicate stop id: {id}"
    else do
      let stop ← resolvePoint s s!"stop {id}" id st.location st.demand
      let stops ← resolveStops (i + 1) (id :: seen) rest
      .ok (stop :: stops)

/-- Add a dependency to the masks of prerequisites. -/
def addDependency (ids : List String) (pre : List ℕ) (d : Dependency) : Except String (List ℕ) :=
  let a := trimSpace d.before
  let b := trimSpace d.after
  match ids.idxOf? a, ids.idxOf? b with
  | some ia, some ib => .ok (pre.set ib (pre.getD ib 0 ||| 2 ^ ia))
  | _, _ =>
    let before := s.quote a
    let after := s.quote b
    .error s!"dependency refers to unknown id: {before} -> {after}"

def prerequisites (ids : List String) (dependencies : List Dependency) :
    Except String (List ℕ) :=
  dependencies.foldlM (addDependency s ids) (List.replicate ids.length 0)

/-- Visit the stops in the given order. -/
def visitGiven (ids : List String) (pre : List ℕ) (mask : ℕ) (id : String) : Except String ℕ :=
  let i := ids.idxOf id
  if mask &&& pre.getD i 0 ≠ pre.getD i 0 then
    .error s!"dependency violated before visiting {id}"
  else .ok (mask ||| 2 ^ i)

/-- The order of the stops, by their indices. -/
def orderStops (optimize : Bool) (startNode endNode : Int64) (stops : List StopR)
    (pre : List ℕ) : Except String (List ℕ) :=
  let n := stops.length
  let ids := stops.map StopR.id
  if n = 0 then .ok []
  else if !optimize then do
    let _ ← ids.foldlM (visitGiven ids pre) 0
    .ok (List.range n)
  else if n ≤ 16 then
    tspExact (s.cost opt) startNode endNode (stops.map StopR.node) pre
  else tspGreedy (s.cost opt) startNode endNode (stops.map StopR.node) pre s.cancelled

/-! ## The legs -/

/-- Find the job of a leg, or add one: the jobs so far, and for every leg the index of its job. -/
def shareJob (state : List (Int64 × Int64) × List ℕ) (key : Int64 × Int64) :
    List (Int64 × Int64) × List ℕ :=
  match state.1.idxOf? key with
  | some index => (state.1, state.2 ++ [index])
  | none => (state.1 ++ [key], state.2 ++ [state.1.length])

/-- The different pairs of nodes in the order in which they occur, and for every leg the index
of its pair. -/
def shareJobs (pairs : List (Int64 × Int64)) : List (Int64 × Int64) × List ℕ :=
  pairs.foldl shareJob ([], [])

/-- The route of a job, without the nodes of its path. -/
def legResult (job : Int64 × Int64) : Except String (RouteResult ℚ) :=
  (s.route opt job.1 job.2).map fun res => { res with path := [] }

/-- Check the route of a leg, and add the coordinates it contributes. -/
def checkLeg (results : List (Except String (RouteResult ℚ))) (pathSize : ℕ)
    (leg : (StopR × StopR) × ℕ) : Except String ℕ :=
  let a := leg.1.1.id
  let b := leg.1.2.id
  match results.getD leg.2 (.error "") with
  | .error err => .error s!"leg {a}->{b}: {err}"
  | .ok res =>
    if res.pathCoords.length = 0 then .error s!"leg {a}->{b}: empty path"
    else .ok (pathSize + (res.pathCoords.length - 1))

def StopR.routePoint (p : StopR) : RoutePoint :=
  ⟨p.id, p.label, p.coord.lat, p.coord.lon, p.node, p.snap⟩

/-- A leg between two points with the values of its route. -/
def legBetween {Path : Type} (a b : StopR) (rr : RouteResult ℚ) (path : Path) :
    RouteResponse Path where
  fromPoint := a.routePoint
  toPoint := b.routePoint
  engine := rr.engine
  objective := rr.objective
  cost := rr.cost
  distanceM := rr.distanceM
  durationS := rr.durationS
  path := path
  googleMapsURL := s.buildGoogleMapsURL [a.coord, b.coord] 0
  appleMapsURL := s.buildAppleMapsURL [a.coord, b.coord]

/-- What is assembled: the array of coordinates with the window of the whole path, the legs and
the sums. -/
structure Assembly where
  memory : Memory (Coord ℚ)
  combined : Slice
  legs : List (RouteResponse Slice)
  totalDist : ℚ
  totalDur : ℚ
  totalCost : ℚ

/-- Add a leg. Its path starts with the last coordinate of the leg before. -/
def addLeg (results : List (Except String (RouteResult ℚ))) (state : Assembly)
    (leg : (StopR × StopR) × ℕ) : Assembly :=
  match results.getD leg.2 (.error "") with
  | .error _ => state
  | .ok rr =>
    let first := state.legs.length = 0
    let start := if first then 0 else state.combined.length - 1
    let added := append state.memory state.combined
      (if first then rr.pathCoords else rr.pathCoords.tail)
    { memory := added.1
      combined := added.2
      legs := state.legs ++
        [legBetween s leg.1.1 leg.1.2 rr (added.2.sub start added.2.length)]
      totalDist := state.totalDist + rr.distanceM
      totalDur := state.totalDur + rr.durationS
      totalCost := state.totalCost + rr.cost }

def assemble (results : List (Except String (RouteResult ℚ))) (pathSize : ℕ)
    (legs : List ((StopR × StopR) × ℕ)) : Assembly :=
  let combined := make [] (⟨0, 0⟩ : Coord ℚ) pathSize
  legs.foldl (addLeg s results) ⟨combined.1, combined.2, [], 0, 0, 0⟩

/-- A leg with the coordinates of its window. -/
def RouteResponse.load (memory : Memory (Coord ℚ)) (leg : RouteResponse Slice) :
    RouteResponse (List (Coord ℚ)) :=
  { leg with path := read memory leg.path }

def StopR.resolved (p : StopR) : TripStopResolved :=
  ⟨p.id, p.label, p.coord.lat, p.coord.lon, p.node, p.snap, p.demand⟩

def capacityWarning (capacity totalDemand : ℚ) : String :=
  if 0 < capacity ∧ capacity < totalDemand then
    let load := s.oneDecimal totalDemand
    let limit := s.oneDecimal capacity
    s!"Ladung ({load}) überschreitet die Fahrzeugkapazität ({limit})"
  else ""

/-- Route the legs between points, put them together, and answer. -/
def solveLegs (plan : TripPlan) (points ordered : List StopR) :
    Except String TripSolveResponse := do
  let pairs := points.zip points.tail
  let (jobs, jobIndex) := shareJobs (pairs.map fun pair => (pair.1.node, pair.2.node))
  let results := jobs.map (legResult s opt)
  let pathSize ← (pairs.zip jobIndex).foldlM (checkLeg results) 1
  let trip := assemble s results pathSize (pairs.zip jobIndex)
  let totalDemand := (ordered.map StopR.demand).foldl (· + ·) 0
  .ok
    { engine := opt.engine
      objective := opt.objective
      order := ordered.map StopR.id
      stops := ordered.map StopR.resolved
      distanceM := trip.totalDist
      durationS := trip.totalDur
      cost := trip.totalCost
      path := read trip.memory trip.combined
      legs := trip.legs.map (RouteResponse.load trip.memory)
      googleMapsURL := s.buildGoogleMapsURL (points.map StopR.coord) 9
      appleMapsURL := s.buildAppleMapsURL (points.map StopR.coord)
      totalDemand := totalDemand
      vehicleCapacity := plan.vehicleCapacity
      capacityWarning := capacityWarning s plan.vehicleCapacity totalDemand }

/-- The place where a trip ends. -/
def TripPlan.finish (plan : TripPlan) : Location :=
  if plan.loop then plan.start else plan.endLoc.getD plan.start

def solveTrip (plan : TripPlan) : Except String TripSolveResponse := do
  let start ← resolvePoint s "start" "START" plan.start 0
  let finish ← resolvePoint s "end" "END" plan.finish 0
  if 60 < plan.stops.length then .error "too many stops (max 60)"
  else
    let stops ← resolveStops s 0 [] plan.stops
    let pre ← prerequisites s (stops.map StopR.id) plan.dependencies
    let orderIdx ← orderStops s opt plan.optimize start.node finish.node stops pre
    let ordered := orderIdx.filterMap fun i => stops[i]?
    solveLegs s opt plan (start :: ordered ++ [finish]) ordered

end Solve

end OsmMini.Cmd

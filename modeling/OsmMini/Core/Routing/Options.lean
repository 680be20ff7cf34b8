import OsmMini.Foundations.Literals
import OsmMini.Core.Types

/-!
# Route options and edge costs

The options of a routing request, the built-in vehicle profiles whose values fill
what a request leaves out, and the evaluator that turns an edge into a cost.
-/

set_option autoImplicit false

namespace OsmMini.Core

/-- The pathfinding engine a request names. -/
inductive RouteEngine where
  | unset
  | astar
  | dijkstra
  | dijkstraNode
  | ch
  | other (name : String)
  deriving DecidableEq, Repr

/-- What a route minimises. -/
inductive Objective where
  | unset
  | distance
  | duration
  | economy
  | other (name : String)
  deriving DecidableEq, Repr

/-- A named travel profile. -/
inductive VehicleProfile where
  | unset
  | car
  | delivery
  | truck
  | travel
  | firefighting
  | emergency
  | thw
  | cycling
  | walking
  | other (name : String)
  deriving DecidableEq, Repr

variable (K : Type*)

/-- The routing values of a travel profile. No allowed highway type means that all
are allowed. -/
structure VehicleProfileDef where
  id : VehicleProfile
  objective : Objective
  maxSpeedKph : K
  allowedHwySet : List String
  speedScale : K
  leftTurn : K
  uTurn : K

/-- Penalties of turns and crossings, and the limits of the vehicle. -/
structure ProWeights where
  leftTurn : K
  rightTurn : K
  uTurn : K
  crossing : K
  maxSpeedKph : K
  vehicleHeightM : K
  vehicleWeightT : K
  noLeftTurn : Bool
  trafficLightPenalty : K

/-- Scales the cost of an edge by the territory its end lies in, relative to a home
territory. `findTerritory` is absent when the policy has no store. -/
structure TerritoryCostPolicy where
  findTerritory : Option (Coord K → Option String)
  neighbors : List String
  homeTerritoryID : String
  sameFactor : K
  neighborFactor : K
  foreignFactor : K

/-- The options of a routing call. -/
structure RouteOptions where
  engine : RouteEngine
  objective : Objective
  profile : VehicleProfile
  weights : ProWeights K
  emergencyMode : Bool
  territoryCost : Option (TerritoryCostPolicy K)

variable {K} [Field K] [LinearOrder K] [IsStrictOrderedRing K]

/-! ## The built-in profiles -/

section Profiles

variable (K)

/-- The profiles available out of the box. -/
def builtinProfiles : List (VehicleProfileDef K) :=
  [ { id := .car, objective := .duration, maxSpeedKph := 130, speedScale := 0, leftTurn := 0,
      uTurn := 0,
      allowedHwySet := ["motorway", "trunk", "primary", "secondary", "tertiary",
        "unclassified", "residential", "living_street", "service", "road",
        "motorway_link", "trunk_link", "primary_link", "secondary_link", "tertiary_link"] },
    { id := .delivery, objective := .duration, maxSpeedKph := 80, speedScale := 0, leftTurn := 3,
      uTurn := 10,
      allowedHwySet := ["primary", "secondary", "tertiary", "unclassified",
        "residential", "living_street", "service", "road",
        "primary_link", "secondary_link", "tertiary_link"] },
    { id := .truck, objective := .duration, maxSpeedKph := 90, speedScale := 0, leftTurn := 0,
      uTurn := 0,
      allowedHwySet := ["motorway", "trunk", "primary", "secondary",
        "motorway_link", "trunk_link", "primary_link"] },
    { id := .travel, objective := .economy, maxSpeedKph := 130, speedScale := 0, leftTurn := 0,
      uTurn := 0,
      allowedHwySet := ["motorway", "trunk", "primary", "secondary", "tertiary",
        "motorway_link", "trunk_link", "primary_link", "secondary_link"] },
    { id := .firefighting, objective := .duration, maxSpeedKph := 130, speedScale := 0,
      leftTurn := 0, uTurn := 0, allowedHwySet := [] },
    { id := .emergency, objective := .duration, maxSpeedKph := 130, speedScale := 0,
      leftTurn := 0, uTurn := 0, allowedHwySet := [] },
    { id := .thw, objective := .duration, maxSpeedKph := 130, speedScale := 0,
      leftTurn := 0, uTurn := 0, allowedHwySet := [] },
    { id := .cycling, objective := .distance, maxSpeedKph := 25, speedScale := 0.25,
      leftTurn := 0, uTurn := 0,
      allowedHwySet := ["primary", "secondary", "tertiary", "unclassified",
        "residential", "living_street", "service", "track", "road",
        "primary_link", "secondary_link", "tertiary_link"] },
    { id := .walking, objective := .distance, maxSpeedKph := 6, speedScale := 0.05,
      leftTurn := 0, uTurn := 0,
      allowedHwySet := ["secondary", "tertiary", "unclassified",
        "residential", "living_street", "service", "track", "road", "path",
        "secondary_link", "tertiary_link"] } ]

/-- The profile of an identifier, or none when it is not built in. -/
def profileDefByID (id : VehicleProfile) : Option (VehicleProfileDef K) :=
  (builtinProfiles K).find? fun profile => profile.id = id

end Profiles

/-! ## Defaults -/

/-- The profile's values where the request leaves its own out. -/
def RouteOptions.withProfile (o : RouteOptions K) (profile : VehicleProfileDef K) :
    RouteOptions K :=
  { o with
    objective := if o.objective = .unset then profile.objective else o.objective
    weights := { o.weights with
      maxSpeedKph := if o.weights.maxSpeedKph ≤ 0 then profile.maxSpeedKph
        else o.weights.maxSpeedKph
      leftTurn := if o.weights.leftTurn = 0 ∧ 0 < profile.leftTurn then profile.leftTurn
        else o.weights.leftTurn
      uTurn := if o.weights.uTurn = 0 ∧ 0 < profile.uTurn then profile.uTurn
        else o.weights.uTurn } }

/-- The engine a search runs with: an engine it does not have is replaced by A*. -/
def RouteEngine.withDefault : RouteEngine → RouteEngine
  | .astar => .astar
  | .dijkstra => .dijkstra
  | .dijkstraNode => .dijkstraNode
  | _ => .astar

/-- The assumed maximum speed: 130 when none is given, and at least 5. -/
def defaultMaxSpeed (speed : K) : K :=
  let given := if speed ≤ 0 then 130 else speed
  if given < 5 then 5 else given

/-- Profile defaults first, then the defaults of an empty request. -/
def RouteOptions.withDefaults (o : RouteOptions K) : RouteOptions K :=
  let o := if o.profile = .unset then o
    else match profileDefByID K o.profile with
      | some profile => o.withProfile profile
      | none => o
  { o with
    engine := o.engine.withDefault
    objective := if o.objective = .unset then .distance else o.objective
    weights := { o.weights with maxSpeedKph := defaultMaxSpeed o.weights.maxSpeedKph } }

omit [IsStrictOrderedRing K] in
theorem five_le_defaultMaxSpeed (speed : K) : 5 ≤ defaultMaxSpeed speed := by
  simp only [defaultMaxSpeed]
  split_ifs with given small small
  · exact le_refl _
  · exact not_lt.mp small
  · exact le_refl _
  · exact not_lt.mp small

omit [IsStrictOrderedRing K] in
/-- **After the defaults the maximum speed is at least 5.** -/
theorem RouteOptions.five_le_maxSpeed (o : RouteOptions K) :
    5 ≤ o.withDefaults.weights.maxSpeedKph :=
  five_le_defaultMaxSpeed _

/-! ## The evaluator -/

/-- The multiplier of the territory at a coordinate; a factor that is not positive
counts as one. -/
def TerritoryCostPolicy.factorFor (p : TerritoryCostPolicy K) (c : Coord K) : K :=
  match p.findTerritory with
  | none => 1
  | some find =>
    match find c with
    | none => 1
    | some id =>
      let factor := if id = p.homeTerritoryID then p.sameFactor
        else if id ∈ p.neighbors then p.neighborFactor else p.foreignFactor
      if factor ≤ 0 then 1 else factor

/-- The profile settings of one query. -/
structure RouteEvaluator (K : Type*) where
  options : RouteOptions K
  /-- None when every highway type is allowed. -/
  allowedHighways : Option (List String)
  speedScale : K
  crossingPenalty : K
  turnDirections : Bool

/-- The lookup set of a profile, which is absent when the profile lists no type. -/
def VehicleProfileDef.allowedSet (profile : VehicleProfileDef K) : Option (List String) :=
  if profile.allowedHwySet = [] then none else some profile.allowedHwySet

def newRouteEvaluator (opt : RouteOptions K) : RouteEvaluator K :=
  let profile := if opt.profile = .unset then none else profileDefByID K opt.profile
  { options := opt
    allowedHighways := profile.bind VehicleProfileDef.allowedSet
    speedScale := match profile with
      | some p => if 0 < p.speedScale ∧ p.speedScale < 1 then p.speedScale else 1
      | none => 1
    crossingPenalty :=
      (if 0 < opt.weights.crossing then opt.weights.crossing else 0) +
        (if 0 < opt.weights.trafficLightPenalty then opt.weights.trafficLightPenalty else 0)
    turnDirections := opt.weights.noLeftTurn || opt.weights.leftTurn ≠ 0 ||
      opt.weights.rightTurn ≠ 0 || opt.weights.uTurn ≠ 0 }

namespace RouteEvaluator

variable (eval : RouteEvaluator K)

/-- The speed assumed on an edge: scaled by the profile, capped by the vehicle, and
at least 3. -/
def effectiveSpeedKph (e : Edge K) : K :=
  let v := if e.speedKph ≤ 0 then 50 else e.speedKph
  let v := if eval.speedScale ≠ 1 then v * eval.speedScale else v
  let maxSpeed := eval.options.weights.maxSpeedKph
  let v := if 0 < maxSpeed ∧ maxSpeed < v then maxSpeed else v
  if v < 3 then 3 else v

def edgeTimeSeconds (e : Edge K) : K :=
  e.distM * 3.6 / eval.effectiveSpeedKph e

/-- Whether the vehicle fits the edge and its profile may use the highway type. -/
def edgeAllowed (e : Edge K) : Bool :=
  let w := eval.options.weights
  if 0 < w.vehicleHeightM ∧ 0 < e.maxHeightM ∧ e.maxHeightM < w.vehicleHeightM then false
  else if 0 < w.vehicleWeightT ∧ 0 < e.maxWeightT ∧ e.maxWeightT < w.vehicleWeightT then false
  else match eval.allowedHighways with
    | none => true
    | some allowed => e.hwyType = "" || allowed.contains e.hwyType

/-- The speed an emergency vehicle is assumed to reach. -/
def emergencySpeedKph (e : Edge K) : K :=
  let v := if e.speedKph ≤ 0 then 60 else e.speedKph
  let v := v * 1.3
  if v < 10 then 10 else v

def baseEdgeCost (e : Edge K) : K :=
  if eval.options.emergencyMode then e.distM * 3.6 / emergencySpeedKph e
  else match eval.options.objective with
    | .duration => eval.edgeTimeSeconds e
    | .economy => e.distM / 1000 * (1 + 0.7 * (eval.effectiveSpeedKph e / 100) ^ 2)
    | _ => e.distM

/-- The base cost, scaled by the territory policy when there is one. -/
def edgeCost (g : Graph K) (e : Edge K) : K :=
  match eval.options.territoryCost with
  | none => eval.baseEdgeCost e
  | some policy =>
    match g.coord e.toID with
    | some c => eval.baseEdgeCost e * policy.factorFor c
    | none => eval.baseEdgeCost e

end RouteEvaluator

end OsmMini.Core

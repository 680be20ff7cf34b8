import OsmMini.Core.Routing.TurnSearch

/-!
# The metrics of a route

An answer to a route request reports the nodes of the route, its cost, and its length and
duration. The search minimises the cost over the edges the vehicle may use. The length and
the duration are summed up afterwards from the nodes: between two consecutive nodes the
shortest of the parallel edges is taken, whether or not the vehicle may use it and whether
or not it is the cheapest one.

On a route where that edge costs what the route paid, the reported metric is the cost; a
distance is understated where a shorter edge is closed to the vehicle
(`metrics_describe_route`).
-/

set_option autoImplicit false
set_option linter.unusedSectionVars false

namespace OsmMini.Core

open Foundations

variable {K : Type*} [Field K] [LinearOrder K] [IsStrictOrderedRing K]

/-- The largest number of a float. -/
def greatestFloat : K := 2 ^ 1024 - 2 ^ 971

/-- The first of the shortest edges between two nodes. -/
def edgeBetween (g : Graph K) (fromID toID : Int64) : Option (Edge K) :=
  (g.edges fromID).foldl
    (fun best e =>
      if e.toID ≠ toID then best
      else if e.distM < best.elim greatestFloat Edge.distM then some e else best)
    none

/-- The length and the duration of a path. -/
def computeMetrics (g : Graph K) (path : List Int64) (opt : RouteOptions K) : K × K :=
  let eval := newRouteEvaluator opt
  (path.zip path.tail).foldl
    (fun sums hop =>
      match edgeBetween g hop.1 hop.2 with
      | none => sums
      | some e => (sums.1 + e.distM, sums.2 + eval.edgeTimeSeconds e))
    (0, 0)

/-- The coordinates of the nodes that have any. -/
def coordsForPath (g : Graph K) (path : List Int64) : List (Coord K) := path.filterMap g.coord

structure RouteResult (K : Type*) where
  path : List Int64
  pathCoords : List (Coord K)
  distanceM : K
  durationS : K
  cost : K
  objective : Objective
  engine : RouteEngine
  deriving DecidableEq

/-- Whether a search has to know where it comes from. -/
def needsTurnState (opt : RouteOptions K) : Bool :=
  let w := opt.weights
  w.noLeftTurn || w.leftTurn ≠ 0 || w.rightTurn ≠ 0 || w.uTurn ≠ 0 || w.crossing ≠ 0 ||
    w.trafficLightPenalty ≠ 0

def routeResult (g : Graph K) (opt : RouteOptions K) (path : List Int64) (cost : K) :
    RouteResult K :=
  let metrics := computeMetrics g path opt
  { path := path
    pathCoords := coordsForPath g path
    distanceM := metrics.1
    durationS := metrics.2
    cost := cost
    objective := opt.objective
    engine := opt.engine }

/-- The answer to a route request. The result is `none` when the rounds were not enough. -/
def routeWithOptions (g : Graph K) (turnKind : Int64 → Int64 → Int64 → TurnKind)
    (heuristic : Int64 → K) (opt : RouteOptions K) (rounds : ℕ) (fromID toID : Int64) :
    Option (Except RouteError (RouteResult K)) :=
  if opt.engine = .ch then some (.error .engineUnsupported)
  else
    let opt := opt.withDefaults
    let found :=
      if opt.engine = .dijkstraNode ∨ needsTurnState opt = false then
        nodeSearch g heuristic opt true rounds fromID toID
      else turnSearch g turnKind heuristic opt true rounds fromID toID
    found.map (Except.map fun answer => routeResult g opt answer.1 answer.2)

/-- The answer to a request stays the same when its search is given more rounds. -/
theorem routeWithOptions_mono {g : Graph K} {turnKind : Int64 → Int64 → Int64 → TurnKind}
    {heuristic : Int64 → K} {opt : RouteOptions K} {rounds more : ℕ} {fromID toID : Int64}
    {answer : Except RouteError (RouteResult K)} (le : rounds ≤ more)
    (found : routeWithOptions g turnKind heuristic opt rounds fromID toID = some answer) :
    routeWithOptions g turnKind heuristic opt more fromID toID = some answer := by
  rw [routeWithOptions] at found ⊢
  by_cases unsupported : opt.engine = .ch
  · rwa [if_pos unsupported] at found ⊢
  rw [if_neg unsupported] at found ⊢
  obtain ⟨result, ended, rfl⟩ := Option.map_eq_some_iff.mp found
  refine Option.map_eq_some_iff.mpr ⟨result, ?_, rfl⟩
  by_cases plain : opt.withDefaults.engine = .dijkstraNode ∨
      needsTurnState opt.withDefaults = false
  · rw [if_pos plain] at ended ⊢
    exact nodeSearch_mono _ _ le ended
  · rw [if_neg plain] at ended ⊢
    exact turnSearch_mono le ended

/-! ## What the metrics sum up -/

/-- What a route of a cost is reported to cost, from a node on. -/
def reportedCost (g : Graph K) (cost : Edge K → K) : Int64 → List (Edge K) → K
  | _, [] => 0
  | u, e :: es => (edgeBetween g u e.toID).elim 0 cost + reportedCost g cost e.toID es

/-- Between any two consecutive nodes the reported edge costs what the route paid. -/
def Reported (g : Graph K) (cost : Edge K → K) : Int64 → List (Edge K) → Prop
  | _, [] => True
  | u, e :: es => (edgeBetween g u e.toID).elim 0 cost = cost e ∧ Reported g cost e.toID es

section Sums

variable (g : Graph K)

theorem foldl_metrics (opt : RouteOptions K) (es : List (Edge K)) :
    ∀ (u : Int64) (sums : K × K),
      ((u :: es.map Edge.toID).zip (es.map Edge.toID)).foldl
        (fun sums hop =>
          match edgeBetween g hop.1 hop.2 with
          | none => sums
          | some e => (sums.1 + e.distM, sums.2 + (newRouteEvaluator opt).edgeTimeSeconds e))
        sums =
      (sums.1 + reportedCost g Edge.distM u es,
        sums.2 + reportedCost g (newRouteEvaluator opt).edgeTimeSeconds u es) := by
  induction es with
  | nil =>
      intro u sums
      simp [reportedCost]
  | cons e es ih =>
      intro u sums
      rw [List.map_cons, List.zip_cons_cons, List.foldl_cons, ih]
      cases found : edgeBetween g u e.toID with
      | none => simp [reportedCost, found]
      | some f => simp [reportedCost, found, add_assoc]

/-- **The metrics of a route are the sums over the reported edges.** -/
theorem computeMetrics_route (opt : RouteOptions K) (u : Int64) (es : List (Edge K)) :
    computeMetrics g (u :: es.map Edge.toID) opt =
      (reportedCost g Edge.distM u es,
        reportedCost g (newRouteEvaluator opt).edgeTimeSeconds u es) := by
  rw [computeMetrics]
  dsimp only [List.tail_cons]
  rw [foldl_metrics, zero_add, zero_add]

variable {g}

theorem reportedCost_eq {cost : Edge K → K} :
    ∀ {es : List (Edge K)} {u : Int64}, Reported g cost u es →
      reportedCost g cost u es = (es.map cost).sum
  | [], _, _ => rfl
  | e :: es, u, ⟨here, rest⟩ => by
      rw [reportedCost, here, reportedCost_eq rest, List.map_cons, List.sum_cons]

/-- Where no two edges are parallel, every route is reported at its cost. -/
theorem reported_of_alone {eval : RouteEvaluator K} {cost : Edge K → K}
    (alone : ∀ u, ∀ e ∈ g.edges u, edgeBetween g u e.toID = some e) :
    ∀ {es : List (Edge K)} {u t : Int64}, AllowedPath g eval u es t → Reported g cost u es
  | [], _, _, _ => trivial
  | e :: es, u, _, .cons edge _ path => by
      refine ⟨?_, reported_of_alone alone path⟩
      rw [alone u e edge]
      rfl

/-- The reported edge is at most as long as any of the parallel edges. -/
theorem foldl_edgeBetween_le (toID : Int64) :
    ∀ (l : List (Edge K)) (best : Option (Edge K)),
      (l.foldl
        (fun best e =>
          if e.toID ≠ toID then best
          else if e.distM < best.elim greatestFloat Edge.distM then some e else best)
        best).elim greatestFloat Edge.distM ≤ best.elim greatestFloat Edge.distM ∧
      ∀ e ∈ l, e.toID = toID → (l.foldl
        (fun best e =>
          if e.toID ≠ toID then best
          else if e.distM < best.elim greatestFloat Edge.distM then some e else best)
        best).elim greatestFloat Edge.distM ≤ e.distM
  | [], best => ⟨le_rfl, nofun⟩
  | f :: l, best => by
      rw [List.foldl_cons]
      obtain ⟨bound, least⟩ := foldl_edgeBetween_le toID l
        (if f.toID ≠ toID then best
          else if f.distM < best.elim greatestFloat Edge.distM then some f else best)
      have shrinks : (if f.toID ≠ toID then best
          else if f.distM < best.elim greatestFloat Edge.distM then some f else best).elim
            greatestFloat Edge.distM ≤ best.elim greatestFloat Edge.distM := by
        split_ifs with other shorter
        · exact le_rfl
        · exact shorter.le
        · exact le_rfl
      have covers : f.toID = toID → (if f.toID ≠ toID then best
          else if f.distM < best.elim greatestFloat Edge.distM then some f else best).elim
            greatestFloat Edge.distM ≤ f.distM := by
        intro same
        rw [if_neg (not_not.mpr same)]
        split_ifs with shorter
        · exact le_rfl
        · exact not_lt.mp shorter
      refine ⟨bound.trans shrinks, fun e member same => ?_⟩
      rcases List.mem_cons.mp member with rfl | later
      · exact bound.trans (covers same)
      · exact least e later same

theorem edgeBetween_le {u : Int64} {e : Edge K} (edge : e ∈ g.edges u) (nonneg : 0 ≤ e.distM) :
    (edgeBetween g u e.toID).elim 0 Edge.distM ≤ e.distM := by
  have least := (foldl_edgeBetween_le e.toID (g.edges u) none).2 e edge rfl
  cases found : edgeBetween g u e.toID with
  | none => exact nonneg
  | some f =>
      rw [edgeBetween] at found
      rw [found] at least
      exact least

/-- A length is never overstated, and it is understated where a hop is. -/
theorem reportedCost_le (lengths : ∀ u, ∀ e ∈ g.edges u, 0 ≤ e.distM) {eval : RouteEvaluator K} :
    ∀ {es : List (Edge K)} {u t : Int64}, AllowedPath g eval u es t →
      reportedCost g Edge.distM u es ≤ (es.map Edge.distM).sum ∧
      (reportedCost g Edge.distM u es = (es.map Edge.distM).sum → Reported g Edge.distM u es)
  | [], _, _, _ => ⟨le_rfl, fun _ => trivial⟩
  | e :: es, u, t, .cons edge _ path => by
      obtain ⟨rest, equal⟩ := reportedCost_le lengths path
      have first := edgeBetween_le edge (lengths u e edge)
      rw [reportedCost, List.map_cons, List.sum_cons]
      refine ⟨add_le_add first rest, fun same => ?_⟩
      obtain ⟨here, there⟩ := (add_eq_add_iff_eq_and_eq first rest).mp same
      exact ⟨here, equal there⟩

end Sums

/-! ## Answers without penalties -/

/-- The request prices edges only, without territories and without an emergency. -/
structure RouteOptions.Plain (opt : RouteOptions K) : Prop where
  territory : opt.territoryCost = none
  emergency : opt.emergencyMode = false
  turns : needsTurnState opt = false

/-- The reported metric of the objective is the cost of the route. -/
def RouteResult.Described (result : RouteResult K) : Prop :=
  (result.objective = .distance → result.distanceM = result.cost) ∧
    (result.objective = .duration → result.durationS = result.cost)

section Plain

variable {opt : RouteOptions K}

theorem effectiveSpeedKph_pos (eval : RouteEvaluator K) (e : Edge K) :
    0 < eval.effectiveSpeedKph e := by
  rw [RouteEvaluator.effectiveSpeedKph]
  split_ifs <;> linarith

theorem edgeCost_plain (plain : opt.Plain) (g : Graph K) (e : Edge K) :
    (newRouteEvaluator opt).edgeCost g e =
      match opt.objective with
      | .duration => (newRouteEvaluator opt).edgeTimeSeconds e
      | .economy =>
        e.distM / 1000 * (1 + 0.7 * ((newRouteEvaluator opt).effectiveSpeedKph e / 100) ^ 2)
      | _ => e.distM := by
  have same : (newRouteEvaluator opt).options = opt := rfl
  rw [RouteEvaluator.edgeCost, same, plain.territory]
  dsimp only
  rw [RouteEvaluator.baseEdgeCost, same, plain.emergency]
  refine (if_neg Bool.false_ne_true).trans ?_
  cases opt.objective <;> rfl

theorem edgeCost_nonneg (plain : opt.Plain) (g : Graph K) {e : Edge K} (length : 0 ≤ e.distM) :
    0 ≤ (newRouteEvaluator opt).edgeCost g e := by
  have speed := effectiveSpeedKph_pos (newRouteEvaluator opt) e
  rw [edgeCost_plain plain]
  split
  · rw [RouteEvaluator.edgeTimeSeconds]
    positivity
  · positivity
  · exact length

/-- What the search without turns answers, if it answers with a route: the nodes of a cheapest
route, which is empty from a node to itself. -/
theorem nodeSearch_route (m : MemoryGraph K) (plain : opt.Plain) {heuristic : Int64 → K}
    {fromID toID : Int64} (lengths : ∀ u, ∀ e ∈ m.toGraph.edges u, 0 ≤ e.distM)
    (admissible : AdmissibleNode m.toGraph (newRouteEvaluator opt) toID heuristic) :
    ∃ enough, ∀ rounds ≥ enough, ∀ path cost,
      nodeSearch m.toGraph heuristic opt true rounds fromID toID = some (.ok (path, cost)) →
      ∃ es, CheapestPath m.toGraph (newRouteEvaluator opt) fromID toID es ∧
        path = fromID :: es.map Edge.toID ∧ cost = pathCost m.toGraph (newRouteEvaluator opt) es := by
  have weights : ∀ u, ∀ e ∈ m.toGraph.edges u, (newRouteEvaluator opt).edgeAllowed e = true →
      0 ≤ (newRouteEvaluator opt).edgeCost m.toGraph e := fun u e edge _ =>
    edgeCost_nonneg plain m.toGraph (lengths u e edge)
  by_cases same : fromID = toID
  · refine ⟨0, fun rounds _ path cost answer => ⟨[], ⟨?_, ?_⟩, ?_⟩⟩
    · rw [same]
      exact .nil toID
    · intro other route
      exact pathCost_nonneg weights route
    · rw [nodeSearch, if_pos same, if_pos rfl] at answer
      obtain ⟨rfl, rfl⟩ := Prod.mk.inj (Except.ok.inj (Option.some.inj answer))
      exact ⟨rfl, rfl⟩
  · by_cases starts : (m.toGraph.coord fromID).isSome ∧ (m.toGraph.coord toID).isSome ∧
        (opt.engine = .dijkstraNode ∨ m.toGraph.degree fromID ≠ 0)
    · obtain ⟨from_exists, to_exists, leaves⟩ := starts
      obtain ⟨enough, answers⟩ := nodeSearch_answers true same from_exists to_exists leaves weights
        admissible (Finset.mem_insert_self ..) (m.searchNodes_closed _ fromID)
      refine ⟨enough, fun rounds long path cost answer => ?_⟩
      rcases answers rounds long with ⟨es, cheapest, found⟩ | ⟨-, failed⟩
      · rw [found, if_pos rfl] at answer
        obtain ⟨rfl, rfl⟩ := Prod.mk.inj (Except.ok.inj (Option.some.inj answer))
        exact ⟨es, cheapest, rfl, rfl⟩
      · rw [failed] at answer
        cases answer
    · refine ⟨0, fun rounds _ path cost answer => absurd answer ?_⟩
      have refused : (m.toGraph.coord fromID).isNone ∨ (m.toGraph.coord toID).isNone ∨
          (opt.engine ≠ .dijkstraNode ∧ m.toGraph.degree fromID = 0) := by
        by_contra usable
        simp only [not_or, Bool.not_eq_true, Option.isNone_eq_false_iff, not_and_or, not_not] at usable
        exact starts usable
      rw [nodeSearch, if_neg same]
      rcases refused with noStart | noTarget | noEdge
      · rw [if_pos noStart]
        simp
      · rw [if_pos noTarget]
        split_ifs <;> simp
      · rw [if_pos noEdge]
        split_ifs <;> simp

end Plain

theorem shortestDistance_plain : shortestDistance.withDefaults.Plain := ⟨rfl, rfl, by decide⟩

theorem metreRoad_alone (u : Int64) (e : Edge ℚ) (edge : e ∈ metreRoad.toGraph.edges u) :
    edgeBetween metreRoad.toGraph u e.toID = some e := by
  simp only [MemoryGraph.toGraph, metreRoad, GoMap.ofList, List.foldl] at edge
  by_cases second : u = 2
  · subst second
    rw [AList.lookup_insert, Option.getD_some, List.mem_singleton] at edge
    rw [edge]
    decide +kernel
  · rw [AList.lookup_insert_ne second] at edge
    by_cases first : u = 1
    · subst first
      rw [AList.lookup_insert, Option.getD_some, List.mem_singleton] at edge
      rw [edge]
      decide +kernel
    · rw [AList.lookup_insert_ne first, AList.lookup_empty] at edge
      exact absurd edge List.not_mem_nil

/-- Two roads to the same node: a short one under a bridge of two metres, and a long one. -/
def lowBridge : MemoryGraph ℚ where
  coords := GoMap.ofList [(1, ⟨0, 0⟩), (2, ⟨0, 0⟩)]
  adj := GoMap.ofList [(1, [{ metreTo 2 with maxHeightM := 2 }, { metreTo 2 with distM := 5 }])]

/-- A request of a vehicle of three metres. -/
def highVehicle : RouteOptions ℚ :=
  { shortestDistance with weights := { shortestDistance.weights with vehicleHeightM := 3 } }

end OsmMini.Core

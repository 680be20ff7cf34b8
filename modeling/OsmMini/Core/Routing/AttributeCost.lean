import OsmMini.Core.Routing.Options
import OsmMini.Core.Store.Safety
import OsmMini.Foundations.CostTable

/-!
# The caches of a query

A search of a compact graph decodes an attribute once and keeps what its edges cost apart from
their length: whether the vehicle may use them, and the speed or the factor that the length is
divided by or multiplied with. A search that prices turns keeps the bearings of directed roads.
Both caches have a fixed number of slots, and a key that finds another one in its slot replaces
it.

Neither cache shows in a cost (`caches_transparent`). The number of an attribute is stored one
higher; an opened graph has fewer attributes than 32 bits can count, so the tag of an attribute
is never the one of an empty slot.
-/

set_option autoImplicit false

namespace OsmMini.Core

open Foundations Foundations.DirectMapped Foundations.LittleEndian

def routeAttributeCacheSize : ℕ := 64

/-- What the edges of an attribute cost, apart from their length. -/
structure RouteAttributeCost (K : Type) where
  /-- The number of the attribute and one. Zero marks an empty slot. -/
  tag : ℕ
  allowed : Bool
  parameter : K

structure CompactRouteCosts (K : Type) where
  evaluator : RouteEvaluator K
  mode : Objective
  slots : Fin routeAttributeCacheSize → RouteAttributeCost K

section Costs

variable {K : Type} [Field K] [LinearOrder K] [IsStrictOrderedRing K]

/-- An emergency vehicle minimises time, whatever the request says. -/
def newCompactRouteCosts (eval : RouteEvaluator K) : CompactRouteCosts K where
  evaluator := eval
  mode := if eval.options.emergencyMode then .duration else eval.options.objective
  slots := fun _ => ⟨0, false, 0⟩

namespace CompactRouteCosts

variable (value : F64 → K) (d : DiskGraph)

/-- Decode an attribute. The target and the length of the edge do not matter. -/
def decode (c : CompactRouteCosts K) (attr : ℕ) : Checked (RouteAttributeCost K) := do
  let edge ← d.compactEdge 0 attr 0
  let edge := edge.map value
  let allowed := c.evaluator.edgeAllowed edge
  return {
    tag := add32 attr 1
    allowed
    parameter :=
      if !allowed then 0
      else if c.evaluator.options.emergencyMode then RouteEvaluator.emergencySpeedKph edge
      else match c.mode with
        | .duration => c.evaluator.effectiveSpeedKph edge
        | .economy => 1 + 0.7 * (c.evaluator.effectiveSpeedKph edge / 100) ^ 2
        | _ => 0 }

/-- The place of an attribute. -/
def placeOf (attr : ℕ) : Fin routeAttributeCacheSize :=
  ⟨attr % routeAttributeCacheSize, Nat.mod_lt _ (by decide)⟩

/-- Decode an attribute unless its slot answers for it. -/
def refresh (c : CompactRouteCosts K) (attr : ℕ) : Checked (CompactRouteCosts K) :=
  if (c.slots (placeOf attr)).tag ≠ add32 attr 1 then
    (c.decode value d attr).map fun slot =>
      { c with slots := Function.update c.slots (placeOf attr) slot }
  else .ok c

/-- What an edge of some length costs, in the order of operations of the base cost. -/
def slotCost (mode : Objective) (slot : RouteAttributeCost K) (distance : K) : K × Bool :=
  if !slot.allowed then (0, false)
  else match mode with
    | .duration => (distance * 3.6 / slot.parameter, true)
    | .economy => (distance / 1000 * slot.parameter, true)
    | _ => (distance, true)

/-- The cost of an edge and whether it is allowed, with the cache after it. -/
def edgeCost (c : CompactRouteCosts K) (attr : ℕ) (distance : K) :
    Checked ((K × Bool) × CompactRouteCosts K) := do
  let c ← c.refresh value d attr
  return (slotCost c.mode (c.slots (placeOf attr)) distance, c)

/-- The cache after some queries. -/
def runAll (c : CompactRouteCosts K) (queries : List (ℕ × K)) : Checked (CompactRouteCosts K) :=
  queries.foldlM (fun c query => do
    let answer ← c.edgeCost value d query.1 query.2
    return answer.2) c

/-! ### What a slot holds -/

variable {value d} {attributes chains vertices : ℕ} {bounds : CoordWindow F64}

/-- What a decoded attribute costs. -/
def shared (c : CompactRouteCosts K) (value : F64 → K) (d : DiskGraph) (attr : ℕ) :
    RouteAttributeCost K :=
  let edge := (d.edgeOf ⟨0, attr, float64frombits 0⟩).map value
  { tag := attr + 1
    allowed := c.evaluator.edgeAllowed edge
    parameter :=
      if !c.evaluator.edgeAllowed edge then 0
      else if c.evaluator.options.emergencyMode then RouteEvaluator.emergencySpeedKph edge
      else match c.mode with
        | .duration => c.evaluator.effectiveSpeedKph edge
        | .economy => 1 + 0.7 * (c.evaluator.effectiveSpeedKph edge / 100) ^ 2
        | _ => 0 }

/-- The caches that answer for an attribute with what its edges cost. -/
def Good (c : CompactRouteCosts K) (value : F64 → K) (d : DiskGraph) (attributes : ℕ) : Prop :=
  Faithful (fun slot attr => attr < attributes ∧ slot.tag = attr + 1)
    (fun attr slot => slot = c.shared value d attr) c.slots

theorem add32_tag {attr : ℕ} (small : attributes < 2 ^ 32) (known : attr < attributes) :
    add32 attr 1 = attr + 1 :=
  Nat.mod_eq_of_lt (by omega)

omit [IsStrictOrderedRing K] in
/-- An attribute of a graph is decoded. -/
theorem decode_eq (valid : d.Valid attributes chains vertices bounds) (nodes : 0 < d.nodes)
    (small : attributes < 2 ^ 32) {attr : ℕ} (known : attr < attributes)
    (c : CompactRouteCosts K) : c.decode value d attr = .ok (c.shared value d attr) := by
  rw [decode, valid.laid.compactEdge nodes known (valid.classes attr known), ok_bind,
    add32_tag small known]
  rfl

omit [IsStrictOrderedRing K] in
/-- **A refreshed cache is good** and holds the attribute that was asked for. -/
theorem Good.refresh {c : CompactRouteCosts K} (good : c.Good value d attributes)
    (valid : d.Valid attributes chains vertices bounds) (nodes : 0 < d.nodes)
    (small : attributes < 2 ^ 32) {attr : ℕ} (known : attr < attributes) :
    ∃ after, c.refresh value d attr = .ok after ∧ after.evaluator = c.evaluator ∧
      after.mode = c.mode ∧ after.Good value d attributes ∧
      after.slots (placeOf attr) = c.shared value d attr := by
  rw [CompactRouteCosts.refresh, add32_tag small known]
  by_cases hit : (c.slots (placeOf attr)).tag = attr + 1
  · rw [if_neg (not_not.mpr hit)]
    exact ⟨c, rfl, rfl, rfl, good, good _ attr ⟨known, hit⟩⟩
  · rw [if_pos hit, decode_eq valid nodes small known]
    refine ⟨_, rfl, rfl, rfl, Faithful.replace good (placeOf attr) ?_, Function.update_self ..⟩
    rintro attr' ⟨-, tag⟩
    obtain rfl : attr = attr' := Nat.succ_injective tag
    rfl

omit [IsStrictOrderedRing K] in
/-- The cost of an edge does not depend on where it leads. -/
theorem slotCost_shared (eval : RouteEvaluator K) {c : CompactRouteCosts K}
    (evaluator : c.evaluator = eval) (mode : c.mode = (newCompactRouteCosts eval).mode)
    (target attr : ℕ) (distance : F64) :
    slotCost c.mode (c.shared value d attr) (value distance) =
      if eval.edgeAllowed ((d.edgeOf ⟨target, attr, distance⟩).map value) then
        (eval.baseEdgeCost ((d.edgeOf ⟨target, attr, distance⟩).map value), true)
      else (0, false) := by
  have same : eval.edgeAllowed ((d.edgeOf ⟨0, attr, float64frombits 0⟩).map value) =
      eval.edgeAllowed ((d.edgeOf ⟨target, attr, distance⟩).map value) := rfl
  unfold slotCost shared RouteEvaluator.baseEdgeCost
  rw [evaluator, mode, newCompactRouteCosts]
  simp only [same]
  cases eval.edgeAllowed ((d.edgeOf ⟨target, attr, distance⟩).map value)
  · rfl
  · cases emergency : eval.options.emergencyMode
    · cases eval.options.objective <;> rfl
    · rfl

omit [IsStrictOrderedRing K] in
/-- **A query of a good cache** answers with the cost of the decoded edge. -/
theorem Good.edgeCost {eval : RouteEvaluator K} {c : CompactRouteCosts K}
    (good : c.Good value d attributes) (evaluator : c.evaluator = eval)
    (mode : c.mode = (newCompactRouteCosts eval).mode)
    (valid : d.Valid attributes chains vertices bounds) (nodes : 0 < d.nodes)
    (small : attributes < 2 ^ 32) {attr : ℕ} (known : attr < attributes) (distance : K) :
    ∃ after, c.edgeCost value d attr distance =
        .ok (slotCost c.mode (c.shared value d attr) distance, after) ∧
      after.evaluator = eval ∧ after.mode = (newCompactRouteCosts eval).mode ∧
      after.Good value d attributes := by
  obtain ⟨after, run, sameEvaluator, sameMode, good', held⟩ :=
    good.refresh valid nodes small known
  refine ⟨after, ?_, sameEvaluator.trans evaluator, sameMode.trans mode, good'⟩
  rw [CompactRouteCosts.edgeCost, run, ok_bind, held, sameMode]
  rfl

omit [IsStrictOrderedRing K] in
/-- The cache is good after any queries. -/
theorem good_runAll (eval : RouteEvaluator K) (valid : d.Valid attributes chains vertices bounds)
    (nodes : 0 < d.nodes) (small : attributes < 2 ^ 32) {queries : List (ℕ × K)}
    (known : ∀ query ∈ queries, query.1 < attributes) :
    ∃ c, (newCompactRouteCosts eval).runAll value d queries = .ok c ∧ c.evaluator = eval ∧
      c.mode = (newCompactRouteCosts eval).mode ∧ c.Good value d attributes := by
  have run : ∀ start : CompactRouteCosts K, start.evaluator = eval →
      start.mode = (newCompactRouteCosts eval).mode → start.Good value d attributes →
      ∃ c, start.runAll value d queries = .ok c ∧ c.evaluator = eval ∧
        c.mode = (newCompactRouteCosts eval).mode ∧ c.Good value d attributes := by
    induction queries with
    | nil => exact fun start evaluator mode good => ⟨start, rfl, evaluator, mode, good⟩
    | cons query queries ih =>
        intro start evaluator mode good
        obtain ⟨here, later⟩ := List.forall_mem_cons.mp known
        obtain ⟨after, step, evaluator', mode', good'⟩ :=
          good.edgeCost evaluator mode valid nodes small here query.2
        obtain ⟨c, rest, result⟩ := ih later after evaluator' mode' good'
        refine ⟨c, ?_, result⟩
        rw [runAll, List.foldlM_cons, step]
        exact rest
  refine run _ rfl rfl (faithful_of_empty fun i attr => ?_)
  rintro ⟨-, tag⟩
  cases tag

end CompactRouteCosts

end Costs

/-! ## Bearings -/

def routeBearingCacheSize : ℕ := 256

/-- The bearing of a directed road. -/
structure RouteBearingEntry (ID K : Type) where
  from' : ID
  to' : ID
  bearing : K
  valid : Bool

structure RouteBearingCache (ID K : Type) where
  slots : Fin routeBearingCacheSize → RouteBearingEntry ID K

namespace RouteBearingCache

variable {ID K : Type} [DecidableEq ID] (uint64 : ID → UInt64)
  (bearingDeg : K → K → K → K → K)

/-- An empty cache. -/
def new (ID K : Type) [OfNat ID 0] [Zero K] : RouteBearingCache ID K where
  slots := fun _ => ⟨0, 0, 0, false⟩

/-- The place of a directed road. -/
def placeOf (from' to' : ID) : Fin routeBearingCacheSize :=
  let key := uint64 from' * 0x9e3779b97f4a7c15 ^^^ uint64 to' * 0xc2b2ae3d27d4eb4f
  let key := key ^^^ (key >>> 32)
  ⟨key.toNat % routeBearingCacheSize, Nat.mod_lt _ (by decide)⟩

/-- The bearing of a road, with the cache after it. -/
def bearing (c : RouteBearingCache ID K) (from' to' : ID) (a b : Coord K) :
    K × RouteBearingCache ID K :=
  let i := placeOf uint64 from' to'
  let slot := c.slots i
  if slot.valid ∧ slot.from' = from' ∧ slot.to' = to' then (slot.bearing, c)
  else
    let value := bearingDeg a.lat a.lon b.lat b.lon
    (value, ⟨Function.update c.slots i ⟨from', to', value, true⟩⟩)

/-- The cache after the roads of some queries, where every node has its coordinate. -/
def runAll (coord : ID → Coord K) (c : RouteBearingCache ID K) (queries : List (ID × ID)) :
    RouteBearingCache ID K :=
  queries.foldl (fun c query =>
    (c.bearing uint64 bearingDeg query.1 query.2 (coord query.1) (coord query.2)).2) c

variable {uint64 bearingDeg}

/-- The caches whose valid slots hold the bearing of their road. -/
def Good (bearingDeg : K → K → K → K → K) (coord : ID → Coord K) (c : RouteBearingCache ID K) :
    Prop :=
  Faithful (fun slot (road : ID × ID) => slot.valid = true ∧ slot.from' = road.1 ∧ slot.to' = road.2)
    (fun road slot => slot.bearing = bearingDeg (coord road.1).lat (coord road.1).lon
      (coord road.2).lat (coord road.2).lon) c.slots

/-- **A good cache answers with the bearing** and stays good. -/
theorem Good.bearing {coord : ID → Coord K} {c : RouteBearingCache ID K}
    (good : c.Good bearingDeg coord) (from' to' : ID) :
    (c.bearing uint64 bearingDeg from' to' (coord from') (coord to')).1 =
        bearingDeg (coord from').lat (coord from').lon (coord to').lat (coord to').lon ∧
      (c.bearing uint64 bearingDeg from' to' (coord from') (coord to')).2.Good bearingDeg coord := by
  rw [RouteBearingCache.bearing]
  split_ifs with hit
  · exact ⟨good _ (from', to') hit, good⟩
  · refine ⟨rfl, Faithful.replace good _ ?_⟩
    rintro ⟨_, _⟩ ⟨-, rfl, rfl⟩
    rfl

/-- The cache is good after any queries. -/
theorem good_runAll {coord : ID → Coord K} {c : RouteBearingCache ID K}
    (good : c.Good bearingDeg coord) (queries : List (ID × ID)) :
    (c.runAll uint64 bearingDeg coord queries).Good bearingDeg coord := by
  induction queries generalizing c with
  | nil => exact good
  | cons query queries ih => exact ih (good.bearing query.1 query.2).2

end RouteBearingCache

/-! ## The caches of an opened graph -/

/-- **The caches do not show.** In a compact graph that was opened, after any queries, an edge
costs what the base cost of the decoded edge says if the vehicle may use it, and is refused
otherwise. After any queries the bearing of a road is the one of its ends. -/
theorem caches_transparent {K ID : Type} [Field K] [LinearOrder K] [IsStrictOrderedRing K]
    [DecidableEq ID] [OfNat ID 0] (unmarshal : List UInt8 → Except String GraphMetadata) (data : List UInt8)
    (r : OpenedRouter) (accepted : openGraph unmarshal data = .ok r)
    (compact : r.store.compact = true) (value : F64 → K) (opt : RouteOptions K)
    (uint64 : ID → UInt64) (bearingDeg : K → K → K → K → K) (coord : ID → Coord K) :
    (∀ before : List (ℕ × K), (∀ query ∈ before, query.1 < peek 8 data 64) →
      ∀ target attr length, target < r.store.nodes → attr < peek 8 data 64 →
        ∃ costs e after,
          (newCompactRouteCosts (newRouteEvaluator opt)).runAll value r.store before = .ok costs ∧
          r.store.compactEdge target attr length = .ok e ∧
          costs.edgeCost value r.store attr (value (float64frombits length)) =
            .ok (if (newRouteEvaluator opt).edgeAllowed (e.map value) then
                ((newRouteEvaluator opt).baseEdgeCost (e.map value), true) else (0, false), after)) ∧
      ∀ (before : List (ID × ID)) (from' to' : ID),
        (((RouteBearingCache.new ID K).runAll uint64 bearingDeg coord before).bearing
          uint64 bearingDeg from' to' (coord from') (coord to')).1 =
            bearingDeg (coord from').lat (coord from').lon (coord to').lat (coord to').lon := by
  constructor
  · rw [compact_of_openGraph accepted] at compact
    obtain ⟨metadata, -, checks, rfl⟩ := (openGraph_ok_iff compact).mp accepted
    have attributes : (headerOf data).attributes = peek 8 data 64 := if_pos compact
    have small : peek 8 data 64 < 2 ^ 32 := by
      have bound := checks.sizes.attributes_small
      rw [attributes] at bound
      omega
    have valid := checks.valid
    rw [attributes] at valid
    intro before known target attr length node shared
    obtain ⟨costs, run, evaluator, mode, good⟩ :=
      CompactRouteCosts.good_runAll (newRouteEvaluator opt) valid (Nat.zero_lt_of_lt node) small
        known
    obtain ⟨after, answer, -⟩ := good.edgeCost evaluator mode valid (Nat.zero_lt_of_lt node) small
      shared (value (float64frombits length))
    rw [CompactRouteCosts.slotCost_shared _ evaluator mode target] at answer
    exact ⟨costs, _, after, run, valid.laid.compactEdge node shared (valid.classes attr shared),
      answer⟩
  · intro before from' to'
    refine (RouteBearingCache.Good.bearing (RouteBearingCache.good_runAll ?_ before) from' to').1
    exact faithful_of_empty fun i road answer => Bool.false_ne_true answer.1

/-- A request for the fastest way by car. -/
def fastest : RouteOptions ℚ where
  engine := .unset
  objective := .duration
  profile := .car
  weights := ⟨0, 0, 0, 0, 0, 0, 0, false, 0⟩
  emergencyMode := false
  territoryCost := none

/-- In the file of one road, after a query of a longer edge. -/
theorem caches_transparent_road : ∃ r, openGraph chainMetadata chainFile = .ok r ∧
    (∃ costs e after,
      (newCompactRouteCosts (newRouteEvaluator fastest)).runAll F64.toRat r.store [(0, 5)] =
        .ok costs ∧
      r.store.compactEdge 1 0 0x3FF0000000000000 = .ok e ∧
      costs.edgeCost F64.toRat r.store 0 (F64.toRat (float64frombits 0x3FF0000000000000)) =
        .ok (if (newRouteEvaluator fastest).edgeAllowed (e.map F64.toRat) then
            ((newRouteEvaluator fastest).baseEdgeCost (e.map F64.toRat), true) else (0, false),
          after)) ∧
    (((RouteBearingCache.new UInt32 ℚ).runAll UInt32.toUInt64 (fun _ a _ b => b - a)
      (fun id => ⟨0, (id.toNat : ℚ)⟩) [(3, 4), (1, 2)]).bearing UInt32.toUInt64
      (fun _ a _ b => b - a) 3 4 ⟨0, 3⟩ ⟨0, 4⟩).1 = 1 := by
  have accepted := chainFile_accepted
  cases run : openGraph chainMetadata chainFile with
  | error fault =>
      rw [run] at accepted
      cases accepted
  | ok r =>
      rw [run] at accepted
      have attributes : peek 8 chainFile 64 = 1 := by decide +kernel
      have nodes : r.store.nodes = 5 := by
        rw [(openGraph_safe chainMetadata chainFile r run accepted).2.1]
        decide +kernel
      obtain ⟨costs, bearings⟩ := caches_transparent chainMetadata chainFile r run accepted
        F64.toRat fastest UInt32.toUInt64 (fun _ a _ b => b - a)
        (fun id => ⟨0, (id.toNat : ℚ)⟩)
      refine ⟨r, rfl, ?_, ?_⟩
      · refine costs [(0, 5)] ?_ 1 0 _ (by rw [nodes]; decide) (by rw [attributes]; decide)
        intro query member
        rw [List.mem_singleton.mp member, attributes]
        decide
      · refine (bearings [(3, 4), (1, 2)] 3 4).trans ?_
        decide +kernel

end OsmMini.Core

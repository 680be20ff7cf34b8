import OsmMini.Cmd.GraphJson.Read
import OsmMini.Core.Routing.Options

/-!
# Exporting a graph as JSON

The export writes the nodes and the edges of a router in whatever order its maps give them.
Its records have a field for everything an edge holds except the highway class, which the
reader of the browser build does know (`EdgeRecord.hwyType`). A reading therefore gives the
graph back with all highway classes empty (`read_exportGraph`), and a vehicle profile may use
every one of its edges. So the graph is given back exactly when no edge had a class and there
is a node at all (`givenBack_iff`).
-/

set_option autoImplicit false

namespace OsmMini.Cmd.GraphJson

open OsmMini.Core OsmMini.Foundations

variable (formatFloat : F64 → String) (parseFloat : String → Option F64)

def formatInt (id : Int64) : String := id.toInt.repr

def nodeJSON (id : Int64) (c : Coord F64) : Json :=
  .object
    [("id", .number (formatInt id)), ("lat", .number (formatFloat c.lat)),
      ("lon", .number (formatFloat c.lon))]

def edgeJSON (fromID : Int64) (e : Edge F64) : Json :=
  .object
    [("from", .number (formatInt fromID)), ("to", .number (formatInt e.toID)),
      ("dist_m", .number (formatFloat e.distM)), ("speed_kph", .number (formatFloat e.speedKph)),
      ("max_height_m", .number (formatFloat e.maxHeightM)),
      ("max_weight_t", .number (formatFloat e.maxWeightT))]

/-- The edges of an adjacency map with their sources, in the order of the map. -/
def sourcedEdges (adj : List (Sigma fun _ : Int64 => List (Edge F64))) :
    List (Int64 × Edge F64) :=
  adj.flatMap fun entry => entry.2.map fun e => (entry.1, e)

/-- The document that is written. The encoder sorts the keys of the outer object; the maps
are gone through in any order. -/
def exportGraph (coords : List (Sigma fun _ : Int64 => Coord F64))
    (adj : List (Sigma fun _ : Int64 => List (Edge F64))) : Json :=
  .object
    [("edges", .array ((sourcedEdges adj).map fun sourced =>
        edgeJSON formatFloat sourced.1 sourced.2)),
      ("nodes", .array (coords.map fun entry => nodeJSON formatFloat entry.1 entry.2))]

/-- What a graph built from OSM data promises: coordinates on the globe, edges without
negative values, and both endpoints of every edge among the nodes. -/
structure Exportable (m : MemoryGraph F64) : Prop where
  coordinates : ∀ id c, m.toGraph.coord id = some c →
    (c.lat.isFinite ∧ c.lon.isFinite) ∧ |c.lat.toRat| ≤ 90 ∧ |c.lon.toRat| ≤ 180
  values : ∀ u, ∀ e ∈ m.toGraph.edges u, ∀ x ∈ [e.distM, e.speedKph, e.maxHeightM, e.maxWeightT],
    x.isFinite ∧ 0 ≤ x.toRat
  closed : Closed m

/-! ## The checks of the reader -/

theorem isNaN_of_isFinite {x : F64} (finite : x.isFinite) : x.isNaN = false := by
  simp only [F64.isFinite, ne_eq, decide_eq_true_eq] at finite
  simp [F64.isNaN, finite]

theorem le_iff_toRat {x y : F64} (xFinite : x.isFinite) (yFinite : y.isFinite) :
    F64.le x y = true ↔ x.toRat ≤ y.toRat := by
  rw [F64.le_iff, F64.ordinal, F64.ordinal, if_pos xFinite, if_pos yFinite]
  simp [isNaN_of_isFinite xFinite, isNaN_of_isFinite yFinite]

theorem toRat_bounds : (F64.ofRat 0).toRat = 0 ∧ (F64.ofRat (-90)).toRat = -90 ∧
    (F64.ofRat 90).toRat = 90 ∧ (F64.ofRat (-180)).toRat = -180 ∧
    (F64.ofRat 180).toRat = 180 := by
  decide +kernel

theorem nonnegative_of {x : F64} (finite : x.isFinite) (sign : 0 ≤ x.toRat) :
    nonnegative x = true := by
  have zero : (F64.ofRat 0).isFinite := by decide +kernel
  rw [nonnegative, finite, Bool.true_and, le_iff_toRat zero finite, toRat_bounds.1]
  exact sign

theorem lt_false_of {x y : F64} (xFinite : x.isFinite) (yFinite : y.isFinite)
    (order : y.toRat ≤ x.toRat) : F64.lt x y = false :=
  F64.lt_eq_false ((le_iff_toRat yFinite xFinite).mpr order)

theorem validCoordinates_of {lat lon : F64} (finite : lat.isFinite ∧ lon.isFinite)
    (latBound : |lat.toRat| ≤ 90) (lonBound : |lon.toRat| ≤ 180) :
    validCoordinates lat lon = true := by
  obtain ⟨-, south, north, west, east⟩ := toRat_bounds
  have constants : (F64.ofRat (-90)).isFinite ∧ (F64.ofRat 90).isFinite ∧
      (F64.ofRat (-180)).isFinite ∧ (F64.ofRat 180).isFinite := by decide +kernel
  obtain ⟨southFinite, northFinite, westFinite, eastFinite⟩ := constants
  rw [abs_le] at latBound lonBound
  simp only [validCoordinates, finite.1, finite.2,
    lt_false_of finite.1 southFinite (south.trans_le latBound.1),
    lt_false_of northFinite finite.1 (latBound.2.trans_eq north.symm),
    lt_false_of finite.2 westFinite (west.trans_le lonBound.1),
    lt_false_of eastFinite finite.2 (lonBound.2.trans_eq east.symm)]
  rfl

/-! ## One record there and back -/

theorem parseInt_formatInt (id : Int64) : parseInt (formatInt id) = some id := by
  rw [parseInt, formatInt, Int.toInt?_repr, Option.bind_some,
    if_pos ⟨Int64.minValue_le_toInt id, Int64.toInt_le id⟩, Int64.ofInt_toInt]

/-- An edge without its highway class, which the export does not write. -/
def forgetHwyType (e : Edge F64) : Edge F64 := { e with hwyType := "" }

variable {formatFloat parseFloat}

section RoundTrip

variable (roundTrip : ∀ x : F64, x.isFinite → parseFloat (formatFloat x) = some x)

include roundTrip

theorem addNode_nodeJSON {coords : GoMap Int64 (Coord F64)} {id : Int64} {c : Coord F64}
    (finite : c.lat.isFinite ∧ c.lon.isFinite) (latBound : |c.lat.toRat| ≤ 90)
    (lonBound : |c.lon.toRat| ≤ 180) (new : coords.lookup id = none) :
    addNode parseFloat coords (nodeJSON formatFloat id c) = .ok (coords.insert id c) := by
  have decoded : unmarshal (NodeRecord.unmarshalField parseFloat) ⟨.unset, F64.nan, F64.nan⟩
      (nodeJSON formatFloat id c) = some ⟨⟨id, true⟩, c.lat, c.lon⟩ := by
    simp +decide [nodeJSON, unmarshal, NodeRecord.unmarshalField, unmarshalID, unmarshalFloat,
      parseInt_formatInt, roundTrip _ finite.1, roundTrip _ finite.2]
  rw [addNode, decoded]
  simp [validCoordinates_of finite latBound lonBound, new]

theorem addEdge_edgeJSON {adj : GoMap Int64 (List (Edge F64))} {u : Int64} {e : Edge F64}
    (values : ∀ x ∈ [e.distM, e.speedKph, e.maxHeightM, e.maxWeightT],
      x.isFinite ∧ 0 ≤ x.toRat) :
    addEdge parseFloat adj (edgeJSON formatFloat u e) =
      .ok (adj.insert u ((adj.lookup u).getD [] ++ [forgetHwyType e])) := by
  simp only [List.forall_mem_cons, List.not_mem_nil, false_imp_iff, implies_true, and_true]
    at values
  obtain ⟨dist, speed, height, weight⟩ := values
  have decoded : unmarshal (EdgeRecord.unmarshalField parseFloat)
      ⟨.unset, .unset, F64.nan, F64.ofRat 0, F64.ofRat 0, F64.ofRat 0, ""⟩
      (edgeJSON formatFloat u e) =
      some ⟨⟨u, true⟩, ⟨e.toID, true⟩, e.distM, e.speedKph, e.maxHeightM, e.maxWeightT, ""⟩ := by
    simp +decide [edgeJSON, unmarshal, EdgeRecord.unmarshalField, unmarshalID, unmarshalFloat,
      parseInt_formatInt, roundTrip _ dist.1, roundTrip _ speed.1, roundTrip _ height.1,
      roundTrip _ weight.1]
  rw [addEdge]
  simp only [decoded]
  simp [nonnegative_of dist.1 dist.2, nonnegative_of speed.1 speed.2,
    nonnegative_of height.1 height.2, nonnegative_of weight.1 weight.2, forgetHwyType]

/-! ## All records -/

/-- The nodes of a map are added one by one. -/
theorem addNodes_nodeJSON : ∀ (nodes : List (Sigma fun _ : Int64 => Coord F64))
    (coords : GoMap Int64 (Coord F64)), nodes.NodupKeys →
    (∀ entry ∈ nodes, coords.lookup entry.1 = none) →
    (∀ entry ∈ nodes, (entry.2.lat.isFinite ∧ entry.2.lon.isFinite) ∧
      |entry.2.lat.toRat| ≤ 90 ∧ |entry.2.lon.toRat| ≤ 180) →
    ∃ all : GoMap Int64 (Coord F64),
      (nodes.map fun entry => nodeJSON formatFloat entry.1 entry.2).foldlM (addNode parseFloat)
        coords = .ok all ∧
      ∀ id, all.lookup id = (nodes.dlookup id).or (coords.lookup id)
  | [], coords, _, _, _ => ⟨coords, rfl, fun _ => rfl⟩
  | ⟨id, c⟩ :: nodes, coords, distinct, new, valid => by
      obtain ⟨fresh, distinct⟩ := List.nodupKeys_cons.mp distinct
      obtain ⟨first, others⟩ := List.forall_mem_cons.mp valid
      obtain ⟨firstNew, othersNew⟩ := List.forall_mem_cons.mp new
      have added := addNode_nodeJSON roundTrip first.1 first.2.1 first.2.2 firstNew
      have stillNew : ∀ entry ∈ nodes, (coords.insert id c).lookup entry.1 = none := by
        intro entry member
        have different : entry.1 ≠ id := by
          rintro rfl
          exact fresh (List.mem_keys_of_mem (s := entry) member)
        rw [AList.lookup_insert_ne different]
        exact othersNew entry member
      obtain ⟨all, run, found⟩ :=
        addNodes_nodeJSON nodes (coords.insert id c) distinct stillNew others
      refine ⟨all, ?_, ?_⟩
      · rw [List.map_cons, List.foldlM_cons, added]
        exact run
      · intro v
        rw [found v]
        by_cases same : v = id
        · subst same
          rw [List.dlookup_cons_eq, AList.lookup_insert, List.dlookup_eq_none.mpr fresh]
          rfl
        · rw [List.dlookup_cons_ne _ _ same, AList.lookup_insert_ne same]

/-- The edges that leave a node, in the order in which they were read. -/
def leaving (sourced : List (Int64 × Edge F64)) (u : Int64) : List (Edge F64) :=
  (sourced.filter fun pair => pair.1 = u).map fun pair => forgetHwyType pair.2

/-- Each edge is added at the end of the list of its source. -/
theorem addEdges_edgeJSON : ∀ (sourced : List (Int64 × Edge F64))
    (adj : GoMap Int64 (List (Edge F64))),
    (∀ pair ∈ sourced, ∀ x ∈ [pair.2.distM, pair.2.speedKph, pair.2.maxHeightM,
      pair.2.maxWeightT], x.isFinite ∧ 0 ≤ x.toRat) →
    ∃ all : GoMap Int64 (List (Edge F64)),
      (sourced.map fun pair => edgeJSON formatFloat pair.1 pair.2).foldlM (addEdge parseFloat)
        adj = .ok all ∧
      ∀ u, all.lookup u = if leaving sourced u = [] then adj.lookup u
        else some ((adj.lookup u).getD [] ++ leaving sourced u)
  | [], adj, _ => ⟨adj, rfl, fun _ => rfl⟩
  | (u, e) :: sourced, adj, values => by
      obtain ⟨first, others⟩ := List.forall_mem_cons.mp values
      have added := @addEdge_edgeJSON formatFloat parseFloat roundTrip adj u e first
      obtain ⟨all, run, found⟩ := addEdges_edgeJSON sourced _ others
      refine ⟨all, ?_, ?_⟩
      · rw [List.map_cons, List.foldlM_cons, added]
        exact run
      · intro v
        rw [found v]
        by_cases same : u = v
        · subst same
          have more : leaving ((u, e) :: sourced) u = forgetHwyType e :: leaving sourced u := by
            simp [leaving]
          rw [more, AList.lookup_insert, if_neg (List.cons_ne_nil _ _)]
          by_cases last : leaving sourced u = []
          · rw [if_pos last, last]
          · rw [if_neg last, Option.getD_some, List.append_assoc, List.singleton_append]
        · have same' : leaving ((u, e) :: sourced) v = leaving sourced v := by
            simp [leaving, same]
          rw [same', AList.lookup_insert_ne (Ne.symm same)]

end RoundTrip

/-- The edges of a map that leave a node are those of its entry. -/
theorem leaving_sourcedEdges (u : Int64) :
    ∀ adj : List (Sigma fun _ : Int64 => List (Edge F64)), adj.NodupKeys →
    leaving (sourcedEdges adj) u = ((adj.dlookup u).getD []).map forgetHwyType
  | [], _ => rfl
  | ⟨v, edges⟩ :: adj, distinct => by
      obtain ⟨fresh, distinct⟩ := List.nodupKeys_cons.mp distinct
      have rest := leaving_sourcedEdges u adj distinct
      have split : leaving (sourcedEdges (⟨v, edges⟩ :: adj)) u =
          leaving (edges.map fun e => (v, e)) u ++ leaving (sourcedEdges adj) u := by
        simp [leaving, sourcedEdges]
      rw [split, rest]
      by_cases same : u = v
      · subst same
        rw [List.dlookup_cons_eq, List.dlookup_eq_none.mpr fresh]
        simp [leaving, List.filter_map, Function.comp_def]
      · rw [List.dlookup_cons_ne _ _ same]
        simp [leaving, List.filter_map, Function.comp_def, Ne.symm same]

/-! ## The whole document -/

theorem toOption_eq_some {α ε : Type*} {result : Except ε α} {a : α} :
    result.toOption = some a ↔ result = .ok a := by
  cases result <;> simp [Except.toOption]

/-- The checks at the end pass for a closed graph with a node. -/
theorem finish_of_closed {s : ReadState} (seen : "nodes" ∈ s.seen ∧ "edges" ∈ s.seen)
    (nonempty : s.coords.entries ≠ [])
    (sources : ∀ u edges, s.adj.lookup u = some edges → (s.coords.lookup u).isSome)
    (destinations : ∀ u edges, s.adj.lookup u = some edges →
      ∀ e ∈ edges, (s.coords.lookup e.toID).isSome) :
    finish s = .ok ⟨s.coords, s.adj⟩ := by
  have none : unknownEndpoint s = none := by
    rw [unknownEndpoint, List.findSome?_eq_none_iff]
    intro entry member
    have found : s.adj.lookup entry.1 = some entry.2 := AList.mem_lookup_iff.mpr member
    rw [if_neg (by simpa [Option.isSome_iff_ne_none] using sources _ _ found),
      Option.map_eq_none_iff, List.find?_eq_none]
    intro e edge
    simpa [Option.isSome_iff_ne_none] using destinations _ _ found e edge
  rw [finish, if_neg (by simp [seen, nonempty]), none]

variable (formatFloat parseFloat)

theorem readMembers_end (s : ReadState) (rest : List JsonToken) :
    readMembers parseFloat s (.endObject :: rest) = .ok (s, .endObject :: rest) := by
  unfold readMembers
  exact if_neg Bool.false_ne_true

/-- The members of the document, as a reading goes through them. -/
theorem read_members (coords : List (Sigma fun _ : Int64 => Coord F64))
    (adj : List (Sigma fun _ : Int64 => List (Edge F64)))
    {allCoords : GoMap Int64 (Coord F64)} {allAdj : GoMap Int64 (List (Edge F64))}
    (nodes : (coords.map fun entry => nodeJSON formatFloat entry.1 entry.2).foldlM
      (addNode parseFloat) ∅ = .ok allCoords)
    (edges : ((sourcedEdges adj).map fun pair => edgeJSON formatFloat pair.1 pair.2).foldlM
      (addEdge parseFloat) ∅ = .ok allAdj) :
    (read parseFloat (exportGraph formatFloat coords adj).tokens).toOption =
      (finish ⟨allCoords, allAdj, {"nodes", "edges"}⟩).toOption := by
  have start : addMember parseFloat .empty
      ("edges", .array ((sourcedEdges adj).map fun pair => edgeJSON formatFloat pair.1 pair.2)) =
      some ⟨∅, allAdj, {"edges"}⟩ := by
    rw [addMember_edges, addElements, ReadState.empty, edges]
    rfl
  have next : addMember parseFloat ⟨∅, allAdj, {"edges"}⟩
      ("nodes", .array (coords.map fun entry => nodeJSON formatFloat entry.1 entry.2)) =
      some ⟨allCoords, allAdj, {"nodes", "edges"}⟩ := by
    rw [addMember_nodes, addElements, nodes, if_neg (by simp)]
    rfl
  rw [exportGraph, Json.tokens, read_eq_readEnd, readEnd_toOption, readMembers_tokens,
    List.foldlM_cons, start]
  simp only [Option.bind_eq_bind, Option.bind_some, List.foldlM_cons, next, List.foldlM_nil,
    pure]
  rw [readMembers_end]
  rfl

variable {formatFloat parseFloat}

/-- **What a reading of the export gives**: nothing for a graph without nodes, and else the
graph without its highway classes. -/
theorem read_exportGraph {m : MemoryGraph F64} (exportable : Exportable m)
    (roundTrip : ∀ x : F64, x.isFinite → parseFloat (formatFloat x) = some x)
    {coords : List (Sigma fun _ : Int64 => Coord F64)}
    {adj : List (Sigma fun _ : Int64 => List (Edge F64))}
    (coordsOrder : coords.Perm m.coords.entries) (adjOrder : adj.Perm m.adj.entries) :
    if m.coords.entries = [] then
      (read parseFloat (exportGraph formatFloat coords adj).tokens).toOption = none
    else ∃ m', read parseFloat (exportGraph formatFloat coords adj).tokens = .ok m' ∧
      (∀ id, m'.toGraph.coord id = m.toGraph.coord id) ∧
      ∀ u, m'.toGraph.edges u = (m.toGraph.edges u).map forgetHwyType := by
  have coordsDistinct : coords.NodupKeys := (List.perm_nodupKeys coordsOrder).mpr m.coords.nodupKeys
  have adjDistinct : adj.NodupKeys := (List.perm_nodupKeys adjOrder).mpr m.adj.nodupKeys
  have coordAt : ∀ id, coords.dlookup id = m.coords.lookup id := fun id =>
    List.perm_dlookup id coordsDistinct coordsOrder
  have edgesAt : ∀ u, adj.dlookup u = m.adj.lookup u := fun u =>
    List.perm_dlookup u adjDistinct adjOrder
  have leavingAt : ∀ u, leaving (sourcedEdges adj) u =
      (m.toGraph.edges u).map forgetHwyType := fun u => by
    rw [leaving_sourcedEdges u adj adjDistinct, edgesAt]
    rfl
  obtain ⟨allCoords, nodesRun, nodesFound⟩ :=
    addNodes_nodeJSON roundTrip coords ∅ coordsDistinct (fun _ _ => rfl) (by
      intro entry member
      have found : m.toGraph.coord entry.1 = some entry.2 :=
        AList.mem_lookup_iff.mpr (coordsOrder.mem_iff.mp member)
      exact exportable.coordinates _ _ found)
  obtain ⟨allAdj, edgesRun, edgesFound⟩ :=
    addEdges_edgeJSON roundTrip (sourcedEdges adj) ∅ (by
      intro pair member
      obtain ⟨entry, inMap, inEntry⟩ := List.mem_flatMap.mp member
      obtain ⟨e, edge, rfl⟩ := List.mem_map.mp inEntry
      have found : m.adj.lookup entry.1 = some entry.2 :=
        AList.mem_lookup_iff.mpr (adjOrder.mem_iff.mp inMap)
      exact exportable.values entry.1 e (by simpa [MemoryGraph.toGraph, found] using edge))
  have whole := read_members formatFloat parseFloat coords adj nodesRun edgesRun
  have sameCoords : ∀ id, allCoords.lookup id = m.coords.lookup id := fun id => by
    rw [nodesFound id, coordAt]
    exact Option.or_none
  have sameEdges : ∀ u, (allAdj.lookup u).getD [] = (m.toGraph.edges u).map forgetHwyType := by
    intro u
    rw [edgesFound u, leavingAt]
    split_ifs with none
    · rw [none]
      rfl
    · rfl
  split_ifs with empty
  · have nothing : allCoords.entries = [] := by
      rw [List.eq_nil_iff_forall_not_mem]
      intro entry member
      have found : allCoords.lookup entry.1 = some entry.2 := AList.mem_lookup_iff.mpr member
      rw [sameCoords] at found
      have inMap := AList.mem_lookup_iff.mp found
      rw [empty] at inMap
      exact List.not_mem_nil inMap
    rw [whole, finish, if_pos (by simp [nothing])]
    rfl
  · have something : allCoords.entries ≠ [] := by
      obtain ⟨entry, rest, shape⟩ := List.exists_cons_of_ne_nil empty
      have found : m.coords.lookup entry.1 = some entry.2 :=
        AList.mem_lookup_iff.mpr (by rw [shape]; exact List.mem_cons_self ..)
      rw [← sameCoords] at found
      exact List.ne_nil_of_mem (AList.mem_lookup_iff.mp found)
    have entries : ∀ u edges, allAdj.lookup u = some edges →
        edges = (m.toGraph.edges u).map forgetHwyType ∧ m.toGraph.edges u ≠ [] := by
      intro u edges found
      have same := sameEdges u
      rw [found, Option.getD_some] at same
      refine ⟨same, ?_⟩
      intro none
      rw [edgesFound u, leavingAt, none, if_pos (by rfl)] at found
      cases found
    have done := finish_of_closed (s := ⟨allCoords, allAdj, {"nodes", "edges"}⟩) (by simp)
      something
      (by
        intro u edges found
        obtain ⟨e, edge⟩ := List.exists_mem_of_ne_nil _ (entries u edges found).2
        rw [sameCoords]
        exact (exportable.closed u e edge).1)
      (by
        intro u edges found e edge
        rw [(entries u edges found).1, List.mem_map] at edge
        obtain ⟨original, member, rfl⟩ := edge
        rw [sameCoords]
        exact (exportable.closed u original member).2)
    rw [done] at whole
    exact ⟨_, toOption_eq_some.mp whole, sameCoords, sameEdges⟩

/-! ## When the graph is given back -/

/-- Two graphs have the same nodes at the same coordinates and, for every node, the same edges
in the same order. Every profile may then use the same edges. -/
structure SameGraph (m m' : MemoryGraph F64) : Prop where
  nodes : ∀ id, m'.toGraph.coord id = m.toGraph.coord id
  edges : ∀ u, m'.toGraph.edges u = m.toGraph.edges u
  allowed : ∀ (opt : RouteOptions ℚ) (u : Int64),
    (m'.toGraph.edges u).map (fun e => (newRouteEvaluator opt).edgeAllowed (e.map F64.toRat)) =
      (m.toGraph.edges u).map fun e => (newRouteEvaluator opt).edgeAllowed (e.map F64.toRat)

/-- Whatever order the maps are written in, the reading gives the graph back. -/
def GivenBack (formatFloat : F64 → String) (parseFloat : String → Option F64)
    (m : MemoryGraph F64) : Prop :=
  ∀ coords adj, coords.Perm m.coords.entries → adj.Perm m.adj.entries →
    ∃ m', read parseFloat (exportGraph formatFloat coords adj).tokens = .ok m' ∧ SameGraph m m'

theorem givenBack_iff_noHwyType {m : MemoryGraph F64} (exportable : Exportable m)
    (roundTrip : ∀ x : F64, x.isFinite → parseFloat (formatFloat x) = some x) :
    GivenBack formatFloat parseFloat m ↔
      m.coords.entries ≠ [] ∧ ∀ u, ∀ e ∈ m.toGraph.edges u, e.hwyType = "" := by
  constructor
  · intro back
    obtain ⟨m', done, same⟩ := back _ _ (List.Perm.refl _) (List.Perm.refl _)
    have given := read_exportGraph exportable roundTrip (List.Perm.refl m.coords.entries)
      (List.Perm.refl m.adj.entries)
    split_ifs at given with empty
    · rw [done] at given
      cases given
    · refine ⟨empty, fun u e edge => ?_⟩
      obtain ⟨read, found, -, edges⟩ := given
      rw [done, Except.ok.injEq] at found
      subst found
      have forgotten : m.toGraph.edges u = (m.toGraph.edges u).map forgetHwyType := by
        rw [← edges u, same.edges u]
      rw [forgotten, List.mem_map] at edge
      obtain ⟨original, -, rfl⟩ := edge
      rfl
  · rintro ⟨nonempty, unclassified⟩ coords adj coordsOrder adjOrder
    have given := read_exportGraph exportable roundTrip coordsOrder adjOrder
    rw [if_neg nonempty] at given
    obtain ⟨m', done, nodes, edges⟩ := given
    have same : ∀ u, m'.toGraph.edges u = m.toGraph.edges u := by
      intro u
      rw [edges u]
      refine (List.map_congr_left fun e edge => ?_).trans (List.map_id _)
      rw [forgetHwyType, ← unclassified u e edge]
      rfl
    exact ⟨m', done, nodes, same, fun opt u => by rw [same u]⟩

/-- **The export is read back exactly when no edge has a highway class** and there is a node.
For every text, the order of the outer members does not matter, and a graph that is read is
closed. -/
theorem givenBack_iff {m : MemoryGraph F64} (exportable : Exportable m)
    (roundTrip : ∀ x : F64, x.isFinite → parseFloat (formatFloat x) = some x) :
    (GivenBack formatFloat parseFloat m ↔
      m.coords.entries ≠ [] ∧ ∀ u, ∀ e ∈ m.toGraph.edges u, e.hwyType = "") ∧
    (∀ (members members' : List (String × Json)) (rest : List JsonToken),
      members.Perm members' →
      (read parseFloat (.beginObject :: (Json.memberTokens members ++ rest))).toOption =
        (read parseFloat (.beginObject :: (Json.memberTokens members' ++ rest))).toOption) ∧
    ∀ stream m', read parseFloat stream = .ok m' → Closed m' :=
  ⟨givenBack_iff_noHwyType exportable roundTrip,
    fun _ _ rest perm => read_perm parseFloat perm rest,
    fun _ _ done => read_closed parseFloat done⟩

/-! ### A road of two nodes -/

def zero : F64 := ⟨0⟩

def one : F64 := ⟨0x3FF0000000000000⟩

/-- Texts for all numbers, among them the usual ones for zero and one. -/
def plainFormat (x : F64) : String := (Equiv.swap 1 one.bits.toNat x.bits.toNat).repr

def plainParse (text : String) : Option F64 :=
  text.toNat?.map fun n => ⟨UInt64.ofNat (Equiv.swap 1 one.bits.toNat n)⟩

example : plainFormat zero = "0" ∧ plainFormat one = "1" := by decide +kernel

theorem plainParse_plainFormat (x : F64) : plainParse (plainFormat x) = some x := by
  rw [plainParse, plainFormat, Nat.toNat?_repr, Option.map_some, Equiv.swap_apply_self,
    UInt64.ofNat_toNat]

/-- An edge of length one. -/
def roadEdge (hwyType : String) : Edge F64 where
  toID := 2
  distM := one
  speedKph := one
  maxHeightM := zero
  maxWeightT := zero
  hwyType := hwyType

def roadCoords : GoMap Int64 (Coord F64) := GoMap.ofList [(1, ⟨zero, zero⟩), (2, ⟨one, zero⟩)]

/-- One edge from node 1 to node 2. -/
def road (hwyType : String) : MemoryGraph F64 where
  coords := roadCoords
  adj := AList.insert 1 [roadEdge hwyType] ∅

theorem roadCoords_entries :
    roadCoords.entries = [⟨2, ⟨one, zero⟩⟩, ⟨1, ⟨zero, zero⟩⟩] := by
  decide +kernel

theorem road_edges (hwyType : String) (u : Int64) :
    (road hwyType).toGraph.edges u = if u = 1 then [roadEdge hwyType] else [] := by
  simp only [MemoryGraph.toGraph, road]
  split_ifs with first
  · rw [first, AList.lookup_insert]
    rfl
  · rw [AList.lookup_insert_ne first]
    rfl

theorem exportable_road (hwyType : String) : Exportable (road hwyType) where
  coordinates := by
    intro id c found
    have member := AList.mem_lookup_iff.mp found
    simp only [road, roadCoords_entries, List.mem_cons, List.not_mem_nil, or_false] at member
    obtain same | same := member
    · cases same
      decide +kernel
    · cases same
      decide +kernel
  values := by
    have numbers : ∀ x ∈ [one, one, zero, zero], x.isFinite ∧ 0 ≤ x.toRat := by decide +kernel
    intro u e edge
    rw [road_edges] at edge
    split_ifs at edge with first
    · obtain rfl := List.mem_singleton.mp edge
      exact numbers
    · cases edge
  closed := by
    have both : (roadCoords.lookup 1).isSome ∧ (roadCoords.lookup 2).isSome := by decide +kernel
    intro u e edge
    rw [road_edges] at edge
    split_ifs at edge with first
    · obtain rfl := List.mem_singleton.mp edge
      subst first
      exact both
    · cases edge

/-- A road without a class comes back. -/
theorem givenBack_unclassified : GivenBack plainFormat plainParse (road "") := by
  refine (givenBack_iff (exportable_road "") fun x _ => plainParse_plainFormat x).1.mpr ⟨?_, ?_⟩
  · rw [road, roadCoords_entries]
    exact List.cons_ne_nil _ _
  · intro u e edge
    rw [road_edges] at edge
    split_ifs at edge
    · rw [List.mem_singleton.mp edge, roadEdge]
    · cases edge

/-- A motorway comes back as a road that everybody may use. -/
theorem not_givenBack_motorway : ¬ GivenBack plainFormat plainParse (road "motorway") := by
  rw [givenBack_iff_noHwyType (exportable_road _) fun x _ => plainParse_plainFormat x]
  rintro ⟨-, unclassified⟩
  have unnamed := unclassified 1 (roadEdge "motorway") (by
    rw [road_edges, if_pos rfl]
    exact List.mem_singleton_self _)
  exact absurd unnamed (by decide)

end OsmMini.Cmd.GraphJson

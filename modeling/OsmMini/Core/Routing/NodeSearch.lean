import OsmMini.Core.Routing.Options
import OsmMini.Foundations.SearchLoop

/-!
# The turn-free search

Without transition costs the incoming edge cannot change the best onward route, so
one distance per node is enough. `nodeSearch` is the search over node IDs: a label
for each node, a heap of candidates, and the predecessors when a path is wanted.

A route is a sequence of edges the vehicle may use. The search returns one of least
cost whenever there is one (`nodeSearch_optimal`), for every heuristic that does not
exceed the remaining cost, whether or not it is consistent.
-/

set_option autoImplicit false
set_option linter.unusedSectionVars false

namespace OsmMini.Core

open Foundations Foundations.BestFirst

/-- Why a route cannot be returned. -/
inductive RouteError where
  | engineUnsupported
  | startUnreachable
  | targetUnreachable
  | noPath
  deriving DecidableEq, Repr

/-! ## Labels and candidates -/

section Labels

variable {ID K : Type*} [DecidableEq ID]

/-- A distance and the node it was reached from. -/
structure NodeLabel (ID K : Type*) where
  distance : K
  previous : ID

/-- The labels of a search. A query for a path keeps both parts of a label in `paths`;
a query for the cost alone keeps `distances` only. -/
structure NodeLabels (ID K : Type*) where
  distances : GoMap ID K
  paths : Option (GoMap ID (NodeLabel ID K))

/-- A queued node, with the distance it was queued at. -/
structure NodeCandidate (ID K : Type*) where
  id : ID
  dist : K
  priority : K

namespace NodeLabels

def new (wantPath : Bool) : NodeLabels ID K :=
  if wantPath then { distances := ∅, paths := some ∅ } else { distances := ∅, paths := none }

def distance (labels : NodeLabels ID K) (node : ID) : Option K :=
  match labels.paths with
  | some paths => (paths.lookup node).map NodeLabel.distance
  | none => labels.distances.lookup node

def set (labels : NodeLabels ID K) (node : ID) (distance : K) (previous : ID) :
    NodeLabels ID K :=
  match labels.paths with
  | some paths => { labels with paths := some (paths.insert node ⟨distance, previous⟩) }
  | none => { labels with distances := labels.distances.insert node distance }

/-- The stored predecessor of a node. -/
def stored (labels : NodeLabels ID K) (node : ID) : Option ID :=
  labels.paths.bind fun paths => (paths.lookup node).map NodeLabel.previous

/-- The predecessor a path is read back from; a missing entry reads as the zero ID. -/
def previous [Inhabited ID] (labels : NodeLabels ID K) (node : ID) : ID :=
  (labels.stored node).getD default

theorem distance_set (labels : NodeLabels ID K) (node : ID) (d : K) (u : ID) :
    (labels.set node d u).distance = Function.update labels.distance node (some d) := by
  funext v
  cases h : labels.paths <;> by_cases same : v = node
  · subst same
    simp [set, distance, h]
  · simp [set, distance, h, AList.lookup_insert_ne same, same]
  · subst same
    simp [set, distance, h]
  · simp [set, distance, h, AList.lookup_insert_ne same, same]

theorem stored_set (labels : NodeLabels ID K) (node : ID) (d : K) (u : ID)
    (tracks : labels.paths.isSome) :
    (labels.set node d u).stored = Function.update labels.stored node (some u) := by
  obtain ⟨paths, h⟩ := Option.isSome_iff_exists.mp tracks
  funext v
  by_cases same : v = node
  · subst same
    simp [set, stored, h]
  · simp [set, stored, h, AList.lookup_insert_ne same, same]

theorem paths_set (labels : NodeLabels ID K) (node : ID) (d : K) (u : ID) :
    labels.paths.isSome → (labels.set node d u).paths.isSome := by
  intro tracks
  obtain ⟨paths, h⟩ := Option.isSome_iff_exists.mp tracks
  simp [set, h]

theorem paths_new (wantPath : Bool) : (new wantPath : NodeLabels ID K).paths.isSome = wantPath := by
  cases wantPath <;> rfl

theorem distance_new (wantPath : Bool) :
    (new wantPath : NodeLabels ID K).distance = fun _ => none := by
  cases wantPath <;> rfl

end NodeLabels

/-- Node labels and candidates as a search engine. A candidate is stale when its
distance is not the label of its node; a missing label reads as zero. -/
def nodeEngine [Zero K] [DecidableEq K] : Engine (NodeLabels ID K) ID K (NodeCandidate ID K) where
  dist := NodeLabels.distance
  set := NodeLabels.set
  prev := NodeLabels.stored
  entry := NodeCandidate.mk
  vertex := NodeCandidate.id
  distance := NodeCandidate.dist
  priority := NodeCandidate.priority
  stale labels current := current.dist ≠ (labels.distance current.id).getD 0

theorem nodeEngine_lawful [AddCommMonoid K] [LinearOrder K] :
    (nodeEngine : Engine (NodeLabels ID K) ID K (NodeCandidate ID K)).Lawful
      fun labels => labels.paths.isSome where
  dist_set := NodeLabels.distance_set
  prev_set := NodeLabels.stored_set
  tracks_set := NodeLabels.paths_set
  vertex_entry _ _ _ := rfl
  distance_entry _ _ _ := rfl
  priority_entry _ _ _ := rfl
  stale_iff labels current d label _ := by
    show decide (current.dist ≠ (labels.distance current.id).getD 0) = true ↔ d ≠ current.dist
    have read : labels.distance current.id = some d := label
    rw [read, Option.getD_some, decide_eq_true_iff]
    exact ne_comm

end Labels

variable {K : Type*} [Field K] [LinearOrder K] [IsStrictOrderedRing K]

/-! ## The search -/

section Search

variable (g : Graph K) (eval : RouteEvaluator K) (heuristic : Int64 → K)

/-- Relax one outgoing edge of the current candidate. -/
def relaxEdge (current : NodeCandidate Int64 K)
    (s : NodeLabels Int64 K × List (NodeCandidate Int64 K)) (edge : Edge K) :
    NodeLabels Int64 K × List (NodeCandidate Int64 K) :=
  if eval.edgeAllowed edge then
    let cost := current.dist + eval.edgeCost g edge
    let improved := (s.1.set edge.toID cost current.id,
      BinaryHeap.push NodeCandidate.priority s.2 ⟨edge.toID, cost, cost + heuristic edge.toID⟩)
    match s.1.distance edge.toID with
    | some old => if cost ≥ old then s else improved
    | none => improved
  else s

/-- One round of the search: the result is the labels, and the candidate of the
target unless the heap ran empty. -/
def nodeSearchRound (toID : Int64) (s : NodeLabels Int64 K × List (NodeCandidate Int64 K)) :
    Loop.Outcome (NodeLabels Int64 K × List (NodeCandidate Int64 K))
      (NodeLabels Int64 K × Option (NodeCandidate Int64 K)) :=
  match BinaryHeap.pop NodeCandidate.priority s.2 with
  | none => .done (s.1, none)
  | some (current, pq) =>
    if current.dist ≠ (s.1.distance current.id).getD 0 then .again (s.1, pq)
    else if current.id = toID then .done (s.1, some current)
    else .again ((g.edges current.id).foldl (relaxEdge g eval heuristic current) (s.1, pq))

/-- The turn-free search over node IDs. `heuristic` estimates the cost from a node to
the target. The result is `none` when the rounds were not enough, and otherwise an
error or the path and its cost; the path is empty unless it is wanted. -/
def nodeSearch (opt : RouteOptions K) (wantPath : Bool) (rounds : ℕ) (fromID toID : Int64) :
    Option (Except RouteError (List Int64 × K)) :=
  if fromID = toID then some (.ok (if wantPath then [fromID] else [], 0))
  else if (g.coord fromID).isNone then some (.error .startUnreachable)
  else if (g.coord toID).isNone then some (.error .targetUnreachable)
  else if opt.engine ≠ .dijkstraNode ∧ g.degree fromID = 0 then some (.error .startUnreachable)
  else
    let labels := (NodeLabels.new wantPath).set fromID 0 0
    let pq := BinaryHeap.push NodeCandidate.priority [] ⟨fromID, 0, heuristic fromID⟩
    match Loop.iterate (nodeSearchRound g (newRouteEvaluator opt) heuristic toID) rounds
        (labels, pq) with
    | none => none
    | some (_, none) => some (.error .noPath)
    | some (labels, some current) =>
      if wantPath then
        (readBack labels.previous fromID rounds toID []).map fun path => .ok (path, current.dist)
      else some (.ok ([], current.dist))

/-- An answer stays the same when the search is given more rounds. -/
theorem nodeSearch_mono {opt : RouteOptions K} {wantPath : Bool} {rounds more : ℕ}
    {fromID toID : Int64} {answer : Except RouteError (List Int64 × K)} (le : rounds ≤ more)
    (found : nodeSearch g heuristic opt wantPath rounds fromID toID = some answer) :
    nodeSearch g heuristic opt wantPath more fromID toID = some answer := by
  rw [nodeSearch] at found ⊢
  by_cases same : fromID = toID
  · rwa [if_pos same] at found ⊢
  rw [if_neg same] at found ⊢
  by_cases noStart : (g.coord fromID).isNone
  · rwa [if_pos noStart] at found ⊢
  rw [if_neg noStart] at found ⊢
  by_cases noTarget : (g.coord toID).isNone
  · rwa [if_pos noTarget] at found ⊢
  rw [if_neg noTarget] at found ⊢
  by_cases deadEnd : opt.engine ≠ .dijkstraNode ∧ g.degree fromID = 0
  · rwa [if_pos deadEnd] at found ⊢
  rw [if_neg deadEnd] at found ⊢
  cases ended : Loop.iterate (nodeSearchRound g (newRouteEvaluator opt) heuristic toID) rounds
      ((NodeLabels.new wantPath).set fromID 0 0,
        BinaryHeap.push NodeCandidate.priority [] ⟨fromID, 0, heuristic fromID⟩) with
  | none => simp [ended] at found
  | some result =>
      simp only [ended] at found
      simp only [Loop.iterate_mono le ended]
      obtain ⟨labels, _ | current⟩ := result
      · exact found
      · cases wantPath with
        | false => exact found
        | true =>
            obtain ⟨path, read, rfl⟩ := Option.map_eq_some_iff.mp found
            exact Option.map_eq_some_iff.mpr ⟨path, readBack_mono le read, rfl⟩

end Search

/-! ## Routes -/

/-- A route along edges the vehicle may use. -/
inductive AllowedPath (g : Graph K) (eval : RouteEvaluator K) :
    Int64 → List (Edge K) → Int64 → Prop where
  | nil (v : Int64) : AllowedPath g eval v [] v
  | cons {u t : Int64} {e : Edge K} {es : List (Edge K)} : e ∈ g.edges u →
      eval.edgeAllowed e = true → AllowedPath g eval e.toID es t → AllowedPath g eval u (e :: es) t

/-- The summed cost of a route. -/
def pathCost (g : Graph K) (eval : RouteEvaluator K) (es : List (Edge K)) : K :=
  (es.map (eval.edgeCost g)).sum

section Arcs

variable (g : Graph K) (eval : RouteEvaluator K) (heuristic : Int64 → K)

/-- The usable edges out of a node as weighted arcs. -/
def nodeArcs (u : Int64) : List (Int64 × K) :=
  ((g.edges u).filter eval.edgeAllowed).map fun e => (e.toID, eval.edgeCost g e)

theorem mem_nodeArcs {u v : Int64} {c : K} : (v, c) ∈ nodeArcs g eval u ↔
    ∃ e ∈ g.edges u, eval.edgeAllowed e = true ∧ e.toID = v ∧ eval.edgeCost g e = c := by
  simp only [nodeArcs, List.mem_map, List.mem_filter, Prod.mk.injEq]
  constructor
  · rintro ⟨e, ⟨edge, allowed⟩, head, cost⟩
    exact ⟨e, edge, allowed, head, cost⟩
  · rintro ⟨e, edge, allowed, head, cost⟩
    exact ⟨e, ⟨edge, allowed⟩, head, cost⟩

variable {g eval}

/-- The walks over the arcs are the routes over usable edges. -/
theorem walk_nodeArcs_iff {u t : Int64} {vs : List Int64} {k : K} :
    Walk (nodeArcs g eval) u vs t k ↔
      ∃ es, AllowedPath g eval u es t ∧ es.map Edge.toID = vs ∧ pathCost g eval es = k := by
  constructor
  · intro walk
    induction walk with
    | nil v => exact ⟨[], .nil v, rfl, rfl⟩
    | cons arc _ ih =>
        obtain ⟨e, edge, allowed, rfl, rfl⟩ := (mem_nodeArcs g eval).mp arc
        obtain ⟨es, path, rfl, rfl⟩ := ih
        exact ⟨e :: es, .cons edge allowed path, rfl, rfl⟩
  · rintro ⟨es, path, rfl, rfl⟩
    induction path with
    | nil v => exact .nil v
    | cons edge allowed _ ih =>
        exact .cons ((mem_nodeArcs g eval).mpr ⟨_, edge, allowed, rfl, rfl⟩) ih

/-- Relaxing the edges one by one relaxes the arcs of the usable ones. -/
theorem foldl_relaxEdge (current : NodeCandidate Int64 K)
    (s : NodeLabels Int64 K × List (NodeCandidate Int64 K)) :
    (g.edges current.id).foldl (relaxEdge g eval heuristic current) s =
      (nodeArcs g eval current.id).foldl
        (nodeEngine.relax heuristic current.id current.dist) s := by
  rw [nodeArcs, List.foldl_map, List.foldl_filter]
  rfl

theorem nodeSearchRound_eq (toID : Int64) :
    nodeSearchRound g eval heuristic toID =
      nodeEngine.round heuristic (nodeArcs g eval) (fun v => v = toID) := by
  funext s
  unfold nodeSearchRound Engine.round Engine.roundWith Engine.relaxAll
  cases popped : BinaryHeap.pop NodeCandidate.priority s.2 with
  | none => simp only [nodeEngine, popped]
  | some out =>
      simp only [foldl_relaxEdge, nodeEngine, popped, decide_eq_true_eq]
      by_cases here : out.1.id = toID <;> simp [here]

end Arcs

/-! ## The search is optimal -/

/-- An estimate of the cost that remains to the target: it exceeds the cost of no
route to the target, and it is not negative at the target itself. -/
structure AdmissibleNode (g : Graph K) (eval : RouteEvaluator K) (toID : Int64)
    (heuristic : Int64 → K) : Prop where
  le_remaining : ∀ v es, AllowedPath g eval v es toID → heuristic v ≤ pathCost g eval es
  target_nonneg : 0 ≤ heuristic toID

theorem pathCost_nonneg {g : Graph K} {eval : RouteEvaluator K} {u t : Int64} {es : List (Edge K)}
    (weights : ∀ u, ∀ e ∈ g.edges u, eval.edgeAllowed e = true → 0 ≤ eval.edgeCost g e)
    (path : AllowedPath g eval u es t) : 0 ≤ pathCost g eval es := by
  induction path with
  | nil => exact le_refl _
  | cons edge allowed _ ih => exact add_nonneg (weights _ _ edge allowed) ih

/-- Estimating nothing is admissible when costs are not negative. -/
theorem AdmissibleNode.zero {g : Graph K} {eval : RouteEvaluator K} (toID : Int64)
    (weights : ∀ u, ∀ e ∈ g.edges u, eval.edgeAllowed e = true → 0 ≤ eval.edgeCost g e) :
    AdmissibleNode g eval toID fun _ => 0 :=
  ⟨fun _ _ path => pathCost_nonneg weights path, le_refl _⟩

/-- The nodes of an in-memory graph that a search from `fromID` can label. -/
def MemoryGraph.searchNodes (m : MemoryGraph K) (fromID : Int64) : Finset Int64 :=
  insert fromID m.endpoints.toFinset

theorem MemoryGraph.searchNodes_closed (m : MemoryGraph K) (eval : RouteEvaluator K)
    (fromID : Int64) : ∀ v ∈ m.searchNodes fromID, ∀ a ∈ nodeArcs m.toGraph eval v,
      a.1 ∈ m.searchNodes fromID := by
  rintro v - ⟨w, c⟩ arc
  obtain ⟨e, edge, -, rfl, -⟩ := (mem_nodeArcs m.toGraph eval).mp arc
  exact Finset.mem_insert_of_mem (List.mem_toFinset.mpr (mem_endpoints edge).2)

section Optimality

variable {g : Graph K} {eval : RouteEvaluator K} {heuristic : Int64 → K} {fromID toID : Int64}

/-- What a finished search says about routes. -/
def NodeSearchFinished (g : Graph K) (eval : RouteEvaluator K) (wantPath : Bool)
    (fromID toID : Int64)
    (result : NodeLabels Int64 K × Option (NodeCandidate Int64 K)) : Prop :=
  match result.2 with
  | some current => (∃ es, AllowedPath g eval fromID es toID ∧ pathCost g eval es = current.dist) ∧
      (∀ es, AllowedPath g eval fromID es toID → current.dist ≤ pathCost g eval es) ∧
      (wantPath = true → ∃ es, AllowedPath g eval fromID es toID ∧
        pathCost g eval es = current.dist ∧ ∀ rounds, es.length < rounds →
        readBack result.1.previous fromID rounds toID [] = some (fromID :: es.map Edge.toID))
  | none => ∀ es, ¬ AllowedPath g eval fromID es toID

/-- **The loop of the search ends, at the cost of a cheapest route or with none.** -/
theorem nodeSearch_loop (wantPath : Bool)
    (weights : ∀ u, ∀ e ∈ g.edges u, eval.edgeAllowed e = true → 0 ≤ eval.edgeCost g e)
    (admissible : AdmissibleNode g eval toID heuristic) {nodes : Finset Int64}
    (first : fromID ∈ nodes) (closed : ∀ v ∈ nodes, ∀ a ∈ nodeArcs g eval v, a.1 ∈ nodes) :
    ∃ rounds result, Loop.iterate (nodeSearchRound g eval heuristic toID) rounds
        ((NodeLabels.new wantPath).set fromID 0 0,
          BinaryHeap.push NodeCandidate.priority [] ⟨fromID, 0, heuristic fromID⟩) = some result ∧
      NodeSearchFinished g eval wantPath fromID toID result := by
  have nonneg : ∀ v, ∀ a ∈ nodeArcs g eval v, 0 ≤ a.2 := by
    rintro v ⟨w, c⟩ arc
    obtain ⟨e, edge, allowed, -, rfl⟩ := (mem_nodeArcs g eval).mp arc
    exact weights v e edge allowed
  have start : nodeEngine.Good heuristic (fun labels => labels.paths.isSome) (wantPath = true)
      (nodeArcs g eval) fromID (some 0) (fun v => decide (v = toID)) (fun _ _ => False)
      ((NodeLabels.new wantPath).set fromID 0 0,
        BinaryHeap.push NodeCandidate.priority [] ⟨fromID, 0, heuristic fromID⟩) := by
    refine Engine.Good.start _ _ rfl rfl rfl (fun v => ?_) fun wanted => ?_
    · show ((NodeLabels.new wantPath).set fromID 0 0).distance v = _
      rw [NodeLabels.distance_set, NodeLabels.distance_new, Function.update_apply]
    · have tracks : (NodeLabels.new wantPath : NodeLabels Int64 K).paths.isSome := by
        rw [NodeLabels.paths_new, wanted]
      refine ⟨NodeLabels.paths_set _ _ _ _ tracks, ?_⟩
      show ((NodeLabels.new wantPath).set fromID 0 0).stored fromID = some 0
      rw [NodeLabels.stored_set _ _ _ _ tracks, Function.update_self]
  have estimate : ∀ v us d, Walk (nodeArcs g eval) fromID us v d → ∀ t vs k,
      decide (t = toID) = true → Walk (nodeArcs g eval) v vs t k → heuristic v ≤ k := by
    intro v us d _ t vs k reached walk
    obtain ⟨es, path, -, rfl⟩ := walk_nodeArcs_iff.mp walk
    exact admissible.le_remaining v es (of_decide_eq_true reached ▸ path)
  have above : ∀ t, decide (t = toID) = true → 0 ≤ heuristic t := fun t reached =>
    of_decide_eq_true reached ▸ admissible.target_nonneg
  obtain ⟨rounds, ⟨labels, found⟩, run, finished⟩ :=
    Engine.search_correct nodeEngine_lawful nonneg first closed estimate above _ start
  have ⟨sound, _, _, ends⟩ := finished
  refine ⟨rounds, (labels, found), (nodeSearchRound_eq heuristic toID).symm ▸ run, ?_⟩
  cases found with
  | none =>
      intro es path
      exact ends.1 toID _ _ (decide_eq_true rfl) (walk_nodeArcs_iff.mpr ⟨es, path, rfl, rfl⟩)
  | some current =>
      obtain ⟨reached, label, least⟩ := ends
      have at_target : current.id = toID := of_decide_eq_true reached
      have cheapest : ∀ es, AllowedPath g eval fromID es toID →
          current.dist ≤ pathCost g eval es := fun es path =>
        least toID _ _ (decide_eq_true rfl) (walk_nodeArcs_iff.mpr ⟨es, path, rfl, rfl⟩)
      refine ⟨?_, cheapest, fun wanted => ?_⟩
      · obtain ⟨vs, walk⟩ := sound _ _ label
        obtain ⟨es, path, -, cost⟩ := walk_nodeArcs_iff.mp walk
        exact ⟨es, at_target ▸ path, cost⟩
      · obtain ⟨vs, branch, walk⟩ := finished.branch wanted rfl
        obtain ⟨es, path, rfl, cost⟩ := walk_nodeArcs_iff.mp walk
        have path' : AllowedPath g eval fromID es toID := at_target ▸ path
        refine ⟨es, path', cost, fun rounds enough => ?_⟩
        have stored : ∀ v u, labels.stored v = some u → labels.previous v = u := by
          intro v u known
          simp only [NodeLabels.previous, known, Option.getD_some]
        have long : (es.map Edge.toID).length < rounds := by simpa using enough
        rw [← at_target]
        exact (readBack_branch stored branch long).trans (by rw [List.append_nil])

/-- A route to the target that costs no more than any other. -/
def CheapestPath (g : Graph K) (eval : RouteEvaluator K) (fromID toID : Int64)
    (es : List (Edge K)) : Prop :=
  AllowedPath g eval fromID es toID ∧
    ∀ other, AllowedPath g eval fromID other toID → pathCost g eval es ≤ pathCost g eval other

theorem CheapestPath.cost_eq {es fs : List (Edge K)} (first : CheapestPath g eval fromID toID es)
    (second : CheapestPath g eval fromID toID fs) : pathCost g eval es = pathCost g eval fs :=
  le_antisymm (first.2 fs second.1) (second.2 es first.1)

/-- What a search between two different nodes of a finite graph answers. -/
theorem nodeSearch_answers {opt : RouteOptions K} (wantPath : Bool) (different : fromID ≠ toID)
    (from_exists : (g.coord fromID).isSome) (to_exists : (g.coord toID).isSome)
    (leaves : opt.engine = .dijkstraNode ∨ g.degree fromID ≠ 0)
    (weights : ∀ u, ∀ e ∈ g.edges u, (newRouteEvaluator opt).edgeAllowed e = true →
      0 ≤ (newRouteEvaluator opt).edgeCost g e)
    (admissible : AdmissibleNode g (newRouteEvaluator opt) toID heuristic) {nodes : Finset Int64}
    (first : fromID ∈ nodes)
    (closed : ∀ v ∈ nodes, ∀ a ∈ nodeArcs g (newRouteEvaluator opt) v, a.1 ∈ nodes) :
    ∃ enough, ∀ rounds ≥ enough,
      (∃ es, CheapestPath g (newRouteEvaluator opt) fromID toID es ∧
        nodeSearch g heuristic opt wantPath rounds fromID toID =
          some (.ok (if wantPath then fromID :: es.map Edge.toID else [],
            pathCost g (newRouteEvaluator opt) es))) ∨
      ((∀ es, ¬ AllowedPath g (newRouteEvaluator opt) fromID es toID) ∧
        nodeSearch g heuristic opt wantPath rounds fromID toID = some (.error .noPath)) := by
  obtain ⟨enough, ⟨labels, found⟩, run, finished⟩ :=
    nodeSearch_loop wantPath weights admissible first closed
  have missing : ¬ (opt.engine ≠ .dijkstraNode ∧ g.degree fromID = 0) := by
    rintro ⟨engine, empty⟩
    exact leaves.elim engine fun positive => positive empty
  have enters : ∀ rounds, nodeSearch g heuristic opt wantPath rounds fromID toID =
      match Loop.iterate (nodeSearchRound g (newRouteEvaluator opt) heuristic toID) rounds
        ((NodeLabels.new wantPath).set fromID 0 0,
          BinaryHeap.push NodeCandidate.priority [] ⟨fromID, 0, heuristic fromID⟩) with
      | none => none
      | some (_, none) => some (.error .noPath)
      | some (labels, some current) =>
        if wantPath then
          (readBack labels.previous fromID rounds toID []).map fun path => .ok (path, current.dist)
        else some (.ok ([], current.dist)) := by
    intro rounds
    unfold nodeSearch
    obtain ⟨a, found_from⟩ := Option.isSome_iff_exists.mp from_exists
    obtain ⟨b, found_to⟩ := Option.isSome_iff_exists.mp to_exists
    rw [if_neg different, found_from, found_to, if_neg missing]
    rfl
  cases found with
  | none =>
      refine ⟨enough, fun rounds long => .inr ⟨finished, ?_⟩⟩
      rw [enters, Loop.iterate_mono long run]
  | some current =>
      obtain ⟨⟨shortest, path, cost⟩, least, back⟩ := finished
      cases wantPath with
      | false =>
          refine ⟨enough, fun rounds long => .inl ⟨shortest, ⟨path, ?_⟩, ?_⟩⟩
          · exact fun other route => cost ▸ least other route
          · rw [enters, Loop.iterate_mono long run, cost]
            rfl
      | true =>
          obtain ⟨es, path, cost, reads⟩ := back rfl
          refine ⟨max enough (es.length + 1), fun rounds long => .inl ⟨es, ⟨path, ?_⟩, ?_⟩⟩
          · exact fun other route => cost ▸ least other route
          · rw [enters, Loop.iterate_mono (le_of_max_le_left long) run]
            simp only [if_true]
            rw [reads rounds (le_of_max_le_right long), Option.map_some, cost]

/-- **Turn-free routing is optimal.** In an in-memory graph whose usable edges have
non-negative costs, between two different nodes with an edge out of the first, the
search ends: it reports that there is no path exactly when there is no route, and
otherwise returns the nodes of a cheapest route and its cost. A query for the cost
alone gives the same cost and the same error. -/
theorem nodeSearch_optimal (m : MemoryGraph K) (opt : RouteOptions K) (heuristic : Int64 → K)
    (fromID toID : Int64) (different : fromID ≠ toID)
    (from_exists : (m.toGraph.coord fromID).isSome) (to_exists : (m.toGraph.coord toID).isSome)
    (leaves : m.toGraph.degree fromID ≠ 0)
    (weights : ∀ u, ∀ e ∈ m.toGraph.edges u, (newRouteEvaluator opt).edgeAllowed e = true →
      0 ≤ (newRouteEvaluator opt).edgeCost m.toGraph e)
    (admissible : AdmissibleNode m.toGraph (newRouteEvaluator opt) toID heuristic) :
    ∃ enough, ∀ rounds ≥ enough,
      (nodeSearch m.toGraph heuristic opt true rounds fromID toID = some (.error .noPath) ↔
        ¬ ∃ es, AllowedPath m.toGraph (newRouteEvaluator opt) fromID es toID) ∧
      ((∃ es, AllowedPath m.toGraph (newRouteEvaluator opt) fromID es toID) →
        ∃ es cost, nodeSearch m.toGraph heuristic opt true rounds fromID toID =
            some (.ok (fromID :: es.map Edge.toID, cost)) ∧
          AllowedPath m.toGraph (newRouteEvaluator opt) fromID es toID ∧
          pathCost m.toGraph (newRouteEvaluator opt) es = cost ∧
          ∀ other, AllowedPath m.toGraph (newRouteEvaluator opt) fromID other toID →
            cost ≤ pathCost m.toGraph (newRouteEvaluator opt) other) ∧
      nodeSearch m.toGraph heuristic opt false rounds fromID toID =
        (nodeSearch m.toGraph heuristic opt true rounds fromID toID).map
          (Except.map fun answer => ([], answer.2)) := by
  have first : fromID ∈ m.searchNodes fromID := Finset.mem_insert_self ..
  have closed := m.searchNodes_closed (newRouteEvaluator opt) fromID
  obtain ⟨many, paths⟩ := nodeSearch_answers true different from_exists to_exists (.inr leaves)
    weights admissible first closed
  obtain ⟨more, costs⟩ := nodeSearch_answers false different from_exists to_exists (.inr leaves)
    weights admissible first closed
  refine ⟨max many more, fun rounds long => ?_⟩
  rcases paths rounds (le_of_max_le_left long) with ⟨es, cheapest, answer⟩ | ⟨none, answer⟩ <;>
    rcases costs rounds (le_of_max_le_right long) with ⟨fs, cheapest', answer'⟩ | ⟨none', answer'⟩
  · refine ⟨?_, fun _ => ⟨es, _, answer, cheapest.1, rfl, cheapest.2⟩, ?_⟩
    · rw [answer]
      exact ⟨fun h => by simp at h, fun h => absurd ⟨es, cheapest.1⟩ h⟩
    · rw [answer, answer', cheapest.cost_eq cheapest']
      rfl
  · exact absurd cheapest.1 (none' es)
  · exact absurd cheapest'.1 (none fs)
  · refine ⟨?_, fun ⟨es, path⟩ => absurd path (none es), ?_⟩
    · rw [answer]
      exact ⟨fun _ ⟨es, path⟩ => none es path, fun _ => rfl⟩
    · rw [answer, answer']
      rfl

end Optimality

/-! ## A road between two nodes -/

/-- A request for the shortest distance with no weights set. -/
def shortestDistance : RouteOptions ℚ where
  engine := .astar
  objective := .distance
  profile := .unset
  weights :=
    { leftTurn := 0, rightTurn := 0, uTurn := 0, crossing := 0, maxSpeedKph := 130,
      vehicleHeightM := 0, vehicleWeightT := 0, noLeftTurn := false, trafficLightPenalty := 0 }
  emergencyMode := false
  territoryCost := none

/-- One metre of road to the given node. -/
def metreTo (toID : Int64) : Edge ℚ :=
  { toID := toID, distM := 1, speedKph := 50, maxHeightM := 0, maxWeightT := 0, hwyType := "" }

/-- Two nodes joined by one metre of road in both directions. -/
def metreRoad : MemoryGraph ℚ where
  coords := GoMap.ofList [(1, ⟨0, 0⟩), (2, ⟨0, 0⟩)]
  adj := GoMap.ofList [(1, [metreTo 2]), (2, [metreTo 1])]

/-- The edges of the road are one metre long and leave one of its two nodes. -/
theorem metreRoad_edges (u : Int64) (e : Edge ℚ) (edge : e ∈ metreRoad.toGraph.edges u) :
    e.distM = 1 ∧ (u = 1 ∨ u = 2) := by
  simp only [MemoryGraph.toGraph, metreRoad, GoMap.ofList, List.foldl] at edge
  by_cases second : u = 2
  · subst second
    rw [AList.lookup_insert, Option.getD_some, List.mem_singleton] at edge
    rw [edge]
    exact ⟨rfl, .inr rfl⟩
  · rw [AList.lookup_insert_ne second] at edge
    by_cases first : u = 1
    · subst first
      rw [AList.lookup_insert, Option.getD_some, List.mem_singleton] at edge
      rw [edge]
      exact ⟨rfl, .inl rfl⟩
    · rw [AList.lookup_insert_ne first, AList.lookup_empty] at edge
      exact absurd edge List.not_mem_nil

theorem metreRoad_nonzero (u : Int64) (e : Edge ℚ) (edge : e ∈ metreRoad.toGraph.edges u) :
    u ≠ 0 := by
  rcases (metreRoad_edges u e edge).2 with rfl | rfl <;> decide

theorem metreRoad_weights (u : Int64) (e : Edge ℚ) (edge : e ∈ metreRoad.toGraph.edges u)
    (_ : (newRouteEvaluator shortestDistance).edgeAllowed e = true) :
    0 ≤ (newRouteEvaluator shortestDistance).edgeCost metreRoad.toGraph e := by
  show 0 ≤ e.distM
  rw [(metreRoad_edges u e edge).1]
  exact zero_le_one

theorem nodeSearch_metreRoad : ∃ (rounds : ℕ) (es : List (Edge ℚ)) (cost : ℚ),
    nodeSearch metreRoad.toGraph (fun _ => 0) shortestDistance true rounds 1 2 =
      some (.ok (1 :: es.map Edge.toID, cost)) ∧ cost ≤ 1 := by
  have path : AllowedPath metreRoad.toGraph (newRouteEvaluator shortestDistance) 1 [metreTo 2] 2 :=
    .cons (by decide) (by decide) (.nil 2)
  obtain ⟨rounds, found⟩ := nodeSearch_optimal metreRoad shortestDistance (fun _ => 0) 1 2
    (by decide) (by decide) (by decide) (by decide) metreRoad_weights
    (.zero 2 metreRoad_weights)
  obtain ⟨es, cost, answer, -, -, least⟩ := (found rounds (le_refl _)).2.1 ⟨_, path⟩
  exact ⟨rounds, es, cost, answer, (least _ path).trans (by decide +kernel)⟩

end OsmMini.Core

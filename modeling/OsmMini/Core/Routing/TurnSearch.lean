import OsmMini.Core.Routing.NodeSearch
import OsmMini.Core.Routing.Transition

/-!
# The turn-aware search

With transition costs the best onward route depends on the edge a node was entered
by, so the search labels pairs of a previous and a current node. The start has no
previous node; the ID zero stands in its place.

A route pays for its edges and for the transition at every node it passes. It may
pass a node more than once, when a detour is cheaper than a turn. `astar` returns the
cost of a cheapest route, and the predecessors it returns lead back along one
(`astar_optimal`).
-/

set_option autoImplicit false
set_option linter.unusedSectionVars false

namespace OsmMini.Core

open Foundations Foundations.BestFirst

/-- A node and the node it was entered from. -/
structure TurnState where
  prev : Int64
  cur : Int64
  deriving DecidableEq, Repr

/-- A queued state, its cost `g`, and its priority `f`. -/
structure PqItem (K : Type*) where
  s : TurnState
  g : K
  f : K

/-- The best cost of each state, and the state it was reached from when a path is
wanted. -/
structure TurnLabels (K : Type*) where
  gScore : GoMap TurnState K
  came : Option (GoMap TurnState TurnState)

section Labels

variable {K : Type*}

namespace TurnLabels

def new (wantPath : Bool) : TurnLabels K :=
  { gScore := ∅, came := if wantPath then some ∅ else none }

/-- The start is labelled without a predecessor. -/
def start (labels : TurnLabels K) (s : TurnState) (cost : K) : TurnLabels K :=
  { labels with gScore := labels.gScore.insert s cost }

def set (labels : TurnLabels K) (s : TurnState) (cost : K) (previous : TurnState) :
    TurnLabels K :=
  { gScore := labels.gScore.insert s cost
    came := labels.came.map fun came => came.insert s previous }

/-- The stored predecessor of a state. -/
def stored (labels : TurnLabels K) (s : TurnState) : Option TurnState :=
  labels.came.bind fun came => came.lookup s

theorem lookup_insert (m : GoMap TurnState K) (s : TurnState) (cost : K) :
    (fun x => (m.insert s cost).lookup x) =
      Function.update (fun x => m.lookup x) s (some cost) := by
  funext x
  by_cases same : x = s
  · subst same
    simp
  · simp [AList.lookup_insert_ne same, same]

theorem stored_set (labels : TurnLabels K) (s : TurnState) (cost : K) (previous : TurnState)
    (tracks : labels.came.isSome) :
    (labels.set s cost previous).stored = Function.update labels.stored s (some previous) := by
  obtain ⟨came, h⟩ := Option.isSome_iff_exists.mp tracks
  funext x
  by_cases same : x = s
  · subst same
    simp [set, stored, h]
  · simp [set, stored, h, AList.lookup_insert_ne same, same]

end TurnLabels

/-- Turn labels and queued states as a search engine. A queued state is stale when
its label is below its cost. -/
def turnEngine [LinearOrder K] : Engine (TurnLabels K) TurnState K (PqItem K) where
  dist labels s := labels.gScore.lookup s
  set := TurnLabels.set
  prev := TurnLabels.stored
  entry := PqItem.mk
  vertex := PqItem.s
  distance := PqItem.g
  priority := PqItem.f
  stale labels current := match labels.gScore.lookup current.s with
    | some best => decide (best < current.g)
    | none => false

theorem turnEngine_lawful [AddCommMonoid K] [LinearOrder K] :
    (turnEngine : Engine (TurnLabels K) TurnState K (PqItem K)).Lawful
      fun labels => labels.came.isSome where
  dist_set labels s cost _ := TurnLabels.lookup_insert labels.gScore s cost
  prev_set := TurnLabels.stored_set
  tracks_set labels s cost previous tracks := by
    simpa [turnEngine, TurnLabels.set] using tracks
  vertex_entry _ _ _ := rfl
  distance_entry _ _ _ := rfl
  priority_entry _ _ _ := rfl
  stale_iff labels current d label le := by
    have read : labels.gScore.lookup current.s = some d := label
    show (match labels.gScore.lookup current.s with
      | some best => decide (best < current.g)
      | none => false) = true ↔ d ≠ current.g
    rw [read]
    exact decide_eq_true_iff.trans (le.lt_iff_ne)

end Labels

variable {K : Type*} [Field K] [LinearOrder K] [IsStrictOrderedRing K]

/-! ## The search -/

section Search

variable (g : Graph K) (eval : RouteEvaluator K) (turnKind : Int64 → Int64 → Int64 → TurnKind)
  (heuristic : Int64 → K)

/-- Relax one outgoing edge of the current state. -/
def relaxTurn (current : PqItem K) (transition : RouteTransition K)
    (s : TurnLabels K × List (PqItem K)) (edge : Edge K) : TurnLabels K × List (PqItem K) :=
  if eval.edgeAllowed edge then
    let tent := current.g + eval.edgeCost g edge + transition.penalty g turnKind edge.toID
    let nextS : TurnState := ⟨current.s.cur, edge.toID⟩
    let improved := (s.1.set nextS tent current.s,
      BinaryHeap.push PqItem.f s.2 ⟨nextS, tent, tent + heuristic edge.toID⟩)
    match s.1.gScore.lookup nextS with
    | some old => if tent ≥ old then s else improved
    | none => improved
  else s

/-- One round of the search: the result is the labels, and the item of the target
unless the heap ran empty. -/
def astarRound (toID : Int64) (s : TurnLabels K × List (PqItem K)) :
    Loop.Outcome (TurnLabels K × List (PqItem K)) (TurnLabels K × Option (PqItem K)) :=
  match BinaryHeap.pop PqItem.f s.2 with
  | none => .done (s.1, none)
  | some (curIt, pq) =>
    let stale := match s.1.gScore.lookup curIt.s with
      | some best => decide (best < curIt.g)
      | none => false
    if stale then .again (s.1, pq)
    else if curIt.s.cur = toID then .done (s.1, some curIt)
    else
      let transition := eval.prepareTransition g curIt.s.prev curIt.s.cur
      .again ((g.edges curIt.s.cur).foldl (relaxTurn g eval turnKind heuristic curIt transition)
        (s.1, pq))

/-- The turn-aware search over node IDs. The result is `none` when the rounds were not
enough, and otherwise an error or the state of the target, its cost and the
predecessors, which are absent unless a path is wanted. -/
def astar (opt : RouteOptions K) (wantPath : Bool) (rounds : ℕ) (fromID toID : Int64) :
    Option (Except RouteError (TurnState × K × Option (GoMap TurnState TurnState))) :=
  if fromID = toID then some (.ok (⟨0, fromID⟩, 0, if wantPath then some ∅ else none))
  else if (g.coord fromID).isNone then some (.error .startUnreachable)
  else if (g.coord toID).isNone then some (.error .targetUnreachable)
  else if g.degree fromID = 0 then some (.error .startUnreachable)
  else
    let start : TurnState := ⟨0, fromID⟩
    let labels := (TurnLabels.new wantPath).start start 0
    let pq := BinaryHeap.push PqItem.f [] ⟨start, 0, heuristic fromID⟩
    match Loop.iterate (astarRound g (newRouteEvaluator opt) turnKind heuristic toID) rounds
        (labels, pq) with
    | none => none
    | some (_, none) => some (.error .noPath)
    | some (labels, some curIt) => some (.ok (curIt.s, curIt.g, labels.came))

end Search

/-- Follow the predecessors from a state to one that has none, and put the nodes in
front of `path`. -/
def reconstructPathTurnState (came : GoMap TurnState TurnState) :
    ℕ → TurnState → List Int64 → Option (List Int64)
  | 0, _, _ => none
  | rounds + 1, s, path =>
    match came.lookup s with
    | none => some (s.cur :: path)
    | some prev => reconstructPathTurnState came rounds prev (s.cur :: path)

/-- The turn-aware search with its path read back. -/
def turnSearch (g : Graph K) (turnKind : Int64 → Int64 → Int64 → TurnKind)
    (heuristic : Int64 → K) (opt : RouteOptions K) (wantPath : Bool) (rounds : ℕ)
    (fromID toID : Int64) : Option (Except RouteError (List Int64 × K)) :=
  match astar g turnKind heuristic opt wantPath rounds fromID toID with
  | none => none
  | some (.error err) => some (.error err)
  | some (.ok (goal, cost, came)) =>
    if wantPath then
      (reconstructPathTurnState (came.getD ∅) rounds goal []).map fun path => .ok (path, cost)
    else some (.ok ([], cost))

/-! ## More rounds -/

section Rounds

variable {g : Graph K} {turnKind : Int64 → Int64 → Int64 → TurnKind} {heuristic : Int64 → K}
  {opt : RouteOptions K} {wantPath : Bool} {rounds more : ℕ} {fromID toID : Int64}

/-- An answer stays the same when the search is given more rounds. -/
theorem astar_mono {answer : Except RouteError (TurnState × K × Option (GoMap TurnState TurnState))}
    (le : rounds ≤ more)
    (found : astar g turnKind heuristic opt wantPath rounds fromID toID = some answer) :
    astar g turnKind heuristic opt wantPath more fromID toID = some answer := by
  rw [astar] at found ⊢
  by_cases same : fromID = toID
  · rwa [if_pos same] at found ⊢
  rw [if_neg same] at found ⊢
  by_cases noStart : (g.coord fromID).isNone
  · rwa [if_pos noStart] at found ⊢
  rw [if_neg noStart] at found ⊢
  by_cases noTarget : (g.coord toID).isNone
  · rwa [if_pos noTarget] at found ⊢
  rw [if_neg noTarget] at found ⊢
  by_cases deadEnd : g.degree fromID = 0
  · rwa [if_pos deadEnd] at found ⊢
  rw [if_neg deadEnd] at found ⊢
  cases ended : Loop.iterate (astarRound g (newRouteEvaluator opt) turnKind heuristic toID) rounds
      ((TurnLabels.new wantPath).start ⟨0, fromID⟩ 0,
        BinaryHeap.push PqItem.f [] ⟨⟨0, fromID⟩, 0, heuristic fromID⟩) with
  | none => simp [ended] at found
  | some result =>
      simp only [ended] at found
      simp only [Loop.iterate_mono le ended]
      exact found

theorem reconstructPathTurnState_mono {came : GoMap TurnState TurnState} {result : List Int64} :
    ∀ {rounds more : ℕ} {s : TurnState} {path : List Int64}, rounds ≤ more →
      reconstructPathTurnState came rounds s path = some result →
      reconstructPathTurnState came more s path = some result
  | 0, _, _, _, _, read => by simp [reconstructPathTurnState] at read
  | rounds + 1, 0, _, _, le, _ => absurd le (by omega)
  | rounds + 1, more + 1, s, path, le, read => by
      rw [reconstructPathTurnState] at read ⊢
      cases before : came.lookup s with
      | none =>
          rw [before] at read
          exact read
      | some prev =>
          rw [before] at read
          exact reconstructPathTurnState_mono (Nat.le_of_succ_le_succ le) read

theorem turnSearch_mono {answer : Except RouteError (List Int64 × K)} (le : rounds ≤ more)
    (found : turnSearch g turnKind heuristic opt wantPath rounds fromID toID = some answer) :
    turnSearch g turnKind heuristic opt wantPath more fromID toID = some answer := by
  rw [turnSearch] at found ⊢
  cases ended : astar g turnKind heuristic opt wantPath rounds fromID toID with
  | none => simp [ended] at found
  | some result =>
      simp only [ended] at found
      simp only [astar_mono le ended]
      obtain err | ⟨goal, cost, came⟩ := result
      · exact found
      · cases wantPath with
        | false => exact found
        | true =>
            obtain ⟨path, read, rfl⟩ := Option.map_eq_some_iff.mp found
            exact Option.map_eq_some_iff.mpr ⟨path, reconstructPathTurnState_mono le read, rfl⟩

end Rounds

/-! ## Routes with transitions -/

section Cost

variable (g : Graph K) (eval : RouteEvaluator K) (turnKind : Int64 → Int64 → Int64 → TurnKind)

/-- The cost of going on from `cur`, which was entered from `prev`: every edge, and the
transition before every edge. -/
def onwardCost : Int64 → Int64 → List (Edge K) → K
  | _, _, [] => 0
  | prev, cur, e :: es => eval.edgeCost g e + transitionPenalty g eval turnKind prev cur e.toID +
      onwardCost cur e.toID es

/-- The cost of a route from its first node: nothing is paid before the first edge. -/
def turnRouteCost (start : Int64) : List (Edge K) → K
  | [] => 0
  | e :: es => eval.edgeCost g e + onwardCost g eval turnKind start e.toID es

/-- The usable edges out of the node of a state as weighted arcs between states. -/
def turnArcs (s : TurnState) : List (TurnState × K) :=
  ((g.edges s.cur).filter eval.edgeAllowed).map fun e =>
    (⟨s.cur, e.toID⟩, eval.edgeCost g e +
      (eval.prepareTransition g s.prev s.cur).penalty g turnKind e.toID)

theorem mem_turnArcs {s t : TurnState} {c : K} : (t, c) ∈ turnArcs g eval turnKind s ↔
    ∃ e ∈ g.edges s.cur, eval.edgeAllowed e = true ∧ t = ⟨s.cur, e.toID⟩ ∧
      c = eval.edgeCost g e +
        (eval.prepareTransition g s.prev s.cur).penalty g turnKind e.toID := by
  simp only [turnArcs, List.mem_map, List.mem_filter, Prod.mk.injEq]
  constructor
  · rintro ⟨e, ⟨edge, allowed⟩, head, cost⟩
    exact ⟨e, edge, allowed, head.symm, cost.symm⟩
  · rintro ⟨e, edge, allowed, head, cost⟩
    exact ⟨e, ⟨edge, allowed⟩, head.symm, cost.symm⟩

variable {g eval turnKind}

/-- The states a route passes after entering `cur`. -/
def statesOf : Int64 → List (Edge K) → List TurnState
  | _, [] => []
  | cur, e :: es => ⟨cur, e.toID⟩ :: statesOf e.toID es

theorem statesOf_length (cur : Int64) (es : List (Edge K)) :
    (statesOf cur es).length = es.length := by
  induction es generalizing cur with
  | nil => rfl
  | cons e es ih => rw [statesOf, List.length_cons, ih, List.length_cons]

theorem statesOf_cur (cur : Int64) (es : List (Edge K)) :
    (statesOf cur es).map TurnState.cur = es.map Edge.toID := by
  induction es generalizing cur with
  | nil => rfl
  | cons e es ih => rw [statesOf, List.map_cons, ih, List.map_cons]

/-- The walks over the arcs from a state entered from a real node are the routes over
usable edges, at their onward cost. -/
theorem walk_turnArcs_iff (nonzero : ∀ u, ∀ e ∈ g.edges u, u ≠ 0) {s : TurnState}
    (entered : s.prev ≠ 0) {target : Int64} {vs : List TurnState} {k : K} :
    (∃ t, t.cur = target ∧ Walk (turnArcs g eval turnKind) s vs t k) ↔
      ∃ es, AllowedPath g eval s.cur es target ∧ statesOf s.cur es = vs ∧
        onwardCost g eval turnKind s.prev s.cur es = k := by
  constructor
  · rintro ⟨t, reached, walk⟩
    induction walk with
    | nil v => exact ⟨[], reached ▸ .nil v.cur, rfl, rfl⟩
    | @cons u v t vs c k arc _ ih =>
        obtain ⟨e, edge, allowed, rfl, rfl⟩ := (mem_turnArcs g eval turnKind).mp arc
        obtain ⟨es, path, rfl, rfl⟩ := ih (nonzero _ e edge) reached
        exact ⟨e :: es, .cons edge allowed path, rfl, by rw [onwardCost, penalty_interior entered]⟩
  · rintro ⟨es, path, rfl, rfl⟩
    obtain ⟨prev, cur⟩ := s
    simp only at path entered ⊢
    induction path generalizing prev with
    | nil v => exact ⟨⟨prev, v⟩, rfl, .nil _⟩
    | @cons u t e es edge allowed _ ih =>
        obtain ⟨last, reached, walk⟩ := ih u (nonzero u e edge)
        refine ⟨last, reached, .cons ((mem_turnArcs g eval turnKind).mpr
          ⟨e, edge, allowed, rfl, ?_⟩) walk⟩
        rw [penalty_interior entered]

/-- The walks from the start of a route are the routes over usable edges. -/
theorem walk_start_iff (nonzero : ∀ u, ∀ e ∈ g.edges u, u ≠ 0) {fromID target : Int64}
    {vs : List TurnState} {k : K} :
    (∃ t, t.cur = target ∧ Walk (turnArcs g eval turnKind) ⟨0, fromID⟩ vs t k) ↔
      ∃ es, AllowedPath g eval fromID es target ∧ statesOf fromID es = vs ∧
        turnRouteCost g eval turnKind fromID es = k := by
  constructor
  · rintro ⟨t, reached, walk⟩
    cases walk with
    | nil => exact ⟨[], reached ▸ .nil _, rfl, rfl⟩
    | cons arc rest =>
        obtain ⟨e, edge, allowed, rfl, rfl⟩ := (mem_turnArcs g eval turnKind).mp arc
        obtain ⟨es, path, rfl, rfl⟩ :=
          (walk_turnArcs_iff nonzero (nonzero _ e edge)).mp ⟨t, reached, rest⟩
        exact ⟨e :: es, .cons edge allowed path, rfl, by
          rw [turnRouteCost, penalty_start, add_zero]⟩
  · rintro ⟨es, path, rfl, rfl⟩
    cases path with
    | nil => exact ⟨_, rfl, .nil _⟩
    | @cons _ _ e es edge allowed path =>
        obtain ⟨t, reached, walk⟩ : ∃ t, t.cur = target ∧ Walk (turnArcs g eval turnKind)
            ⟨fromID, e.toID⟩ (statesOf e.toID es) t (onwardCost g eval turnKind fromID e.toID es) :=
          (walk_turnArcs_iff nonzero (nonzero _ e edge)).mpr ⟨es, path, rfl, rfl⟩
        refine ⟨t, reached, .cons ((mem_turnArcs g eval turnKind).mpr
          ⟨e, edge, allowed, rfl, ?_⟩) walk⟩
        rw [penalty_start, add_zero]

section Rounds

variable (g eval turnKind) (heuristic : Int64 → K)

/-- Relaxing a usable edge relaxes its arc. -/
theorem relaxTurn_eq (current : PqItem K) (s : TurnLabels K × List (PqItem K)) (edge : Edge K) :
    relaxTurn g eval turnKind heuristic current
        (eval.prepareTransition g current.s.prev current.s.cur) s edge =
      if eval.edgeAllowed edge then
        turnEngine.relax (fun t : TurnState => heuristic t.cur) current.s current.g s
          (⟨current.s.cur, edge.toID⟩, eval.edgeCost g edge +
            (eval.prepareTransition g current.s.prev current.s.cur).penalty g turnKind edge.toID)
      else s := by
  unfold relaxTurn
  rw [add_assoc]
  rfl

theorem foldl_relaxTurn (current : PqItem K) (s : TurnLabels K × List (PqItem K)) :
    (g.edges current.s.cur).foldl (relaxTurn g eval turnKind heuristic current
        (eval.prepareTransition g current.s.prev current.s.cur)) s =
      (turnArcs g eval turnKind current.s).foldl
        (turnEngine.relax (fun t : TurnState => heuristic t.cur) current.s current.g) s := by
  rw [turnArcs, List.foldl_map, List.foldl_filter]
  congr 1
  funext s edge
  exact relaxTurn_eq g eval turnKind heuristic current s edge

theorem astarRound_eq (toID : Int64) :
    astarRound g eval turnKind heuristic toID =
      turnEngine.round (fun t : TurnState => heuristic t.cur) (turnArcs g eval turnKind)
        (fun t => t.cur = toID) := by
  funext s
  unfold astarRound Engine.round Engine.roundWith Engine.relaxAll
  cases popped : BinaryHeap.pop PqItem.f s.2 with
  | none => simp only [turnEngine, popped]
  | some out =>
      simp only [foldl_relaxTurn, turnEngine, popped]
      by_cases here : out.1.s.cur = toID <;> simp [here]

end Rounds

end Cost

/-! ## The search is optimal -/

section Optimality

variable {g : Graph K} {eval : RouteEvaluator K} {turnKind : Int64 → Int64 → Int64 → TurnKind}
  {heuristic : Int64 → K} {fromID toID : Int64}

/-- An estimate of the cost that remains to the target: it exceeds the cost of no way
on from the start or from the head of a usable edge, and it is not negative at the
target itself. -/
structure AdmissibleTurn (g : Graph K) (eval : RouteEvaluator K)
    (turnKind : Int64 → Int64 → Int64 → TurnKind) (fromID toID : Int64)
    (heuristic : Int64 → K) : Prop where
  start_le : ∀ es, AllowedPath g eval fromID es toID →
    heuristic fromID ≤ turnRouteCost g eval turnKind fromID es
  le_remaining : ∀ u, ∀ e ∈ g.edges u, eval.edgeAllowed e = true → ∀ es,
    AllowedPath g eval e.toID es toID →
    heuristic e.toID ≤ onwardCost g eval turnKind u e.toID es
  target_nonneg : 0 ≤ heuristic toID

theorem pathCost_le_onwardCost (turns : eval.options.weights.NonnegTurns) (prev cur : Int64)
    (es : List (Edge K)) : pathCost g eval es ≤ onwardCost g eval turnKind prev cur es := by
  induction es generalizing prev cur with
  | nil => exact le_refl _
  | cons e es ih =>
      have split : pathCost g eval (e :: es) = eval.edgeCost g e + pathCost g eval es := by
        simp [pathCost]
      rw [split, onwardCost]
      exact add_le_add (le_add_of_nonneg_right (transitionPenalty_nonneg turns ..)) (ih cur e.toID)

theorem pathCost_le_turnRouteCost (turns : eval.options.weights.NonnegTurns) (start : Int64)
    (es : List (Edge K)) : pathCost g eval es ≤ turnRouteCost g eval turnKind start es := by
  cases es with
  | nil => exact le_refl _
  | cons e es =>
      have split : pathCost g eval (e :: es) = eval.edgeCost g e + pathCost g eval es := by
        simp [pathCost]
      rw [split, turnRouteCost]
      exact add_le_add (le_refl _) (pathCost_le_onwardCost turns ..)

/-- **An estimate that is admissible without transitions is admissible with them.** -/
theorem AdmissibleNode.withTurns (turns : eval.options.weights.NonnegTurns)
    (admissible : AdmissibleNode g eval toID heuristic) :
    AdmissibleTurn g eval turnKind fromID toID heuristic where
  start_le es path := (admissible.le_remaining _ es path).trans (pathCost_le_turnRouteCost turns ..)
  le_remaining _ _ _ _ es path :=
    (admissible.le_remaining _ es path).trans (pathCost_le_onwardCost turns ..)
  target_nonneg := admissible.target_nonneg

/-- The states a search of a graph with the given nodes can label. -/
def turnStates (nodes : Finset Int64) (fromID : Int64) : Finset TurnState :=
  insert ⟨0, fromID⟩ ((nodes ×ˢ nodes).image fun pair => ⟨pair.1, pair.2⟩)

theorem turnStates_closed {nodes : Finset Int64}
    (closed : ∀ u, ∀ e ∈ g.edges u, eval.edgeAllowed e = true → u ∈ nodes ∧ e.toID ∈ nodes) :
    ∀ s ∈ turnStates nodes fromID, ∀ a ∈ turnArcs g eval turnKind s,
      a.1 ∈ turnStates nodes fromID := by
  rintro s - ⟨t, c⟩ arc
  obtain ⟨e, edge, allowed, rfl, -⟩ := (mem_turnArcs g eval turnKind).mp arc
  obtain ⟨tail, head⟩ := closed _ e edge allowed
  exact Finset.mem_insert_of_mem (Finset.mem_image.mpr
    ⟨(s.cur, e.toID), Finset.mem_product.mpr ⟨tail, head⟩, rfl⟩)

/-- Reading predecessors back from the end of a branch ends at the start with the
nodes of the branch. -/
theorem reconstruct_branch {came : GoMap TurnState TurnState} {start : TurnState}
    (root : came.lookup start = none) {s : TurnState} {vs : List TurnState}
    (branch : Branch (fun t => came.lookup t) start vs s) : ∀ {rounds : ℕ} {path : List Int64},
    vs.length < rounds → reconstructPathTurnState came rounds s path =
      some (start.cur :: vs.map TurnState.cur ++ path) := by
  induction branch with
  | root =>
      intro rounds path enough
      obtain ⟨rounds, rfl⟩ := Nat.exists_eq_succ_of_ne_zero (Nat.ne_of_gt enough)
      simp [reconstructPathTurnState, root]
  | @step u v vs away stored _ ih =>
      intro rounds path enough
      obtain ⟨rounds, rfl⟩ :=
        Nat.exists_eq_succ_of_ne_zero (Nat.ne_of_gt (Nat.zero_lt_of_lt enough))
      rw [reconstructPathTurnState, stored]
      simp only
      rw [ih (by simp at enough; omega)]
      simp

/-- What a finished search says about routes. -/
def AstarFinished (g : Graph K) (eval : RouteEvaluator K)
    (turnKind : Int64 → Int64 → Int64 → TurnKind) (wantPath : Bool) (fromID toID : Int64)
    (result : TurnLabels K × Option (PqItem K)) : Prop :=
  match result.2 with
  | some curIt =>
      (∃ es, AllowedPath g eval fromID es toID ∧
        turnRouteCost g eval turnKind fromID es = curIt.g) ∧
      (∀ es, AllowedPath g eval fromID es toID →
        curIt.g ≤ turnRouteCost g eval turnKind fromID es) ∧
      (wantPath = true → ∃ came es, result.1.came = some came ∧
        AllowedPath g eval fromID es toID ∧
        turnRouteCost g eval turnKind fromID es = curIt.g ∧ ∀ rounds, es.length < rounds →
        reconstructPathTurnState came rounds curIt.s [] = some (fromID :: es.map Edge.toID))
  | none => ∀ es, ¬ AllowedPath g eval fromID es toID

/-- **The loop of the search ends, at the cost of a cheapest route or with none.** -/
theorem astar_loop (wantPath : Bool) (nonzero : ∀ u, ∀ e ∈ g.edges u, u ≠ 0)
    (weights : ∀ u, ∀ e ∈ g.edges u, eval.edgeAllowed e = true → 0 ≤ eval.edgeCost g e)
    (turns : eval.options.weights.NonnegTurns)
    (admissible : AdmissibleTurn g eval turnKind fromID toID heuristic) {nodes : Finset Int64}
    (closed : ∀ u, ∀ e ∈ g.edges u, eval.edgeAllowed e = true → u ∈ nodes ∧ e.toID ∈ nodes) :
    ∃ rounds result, Loop.iterate (astarRound g eval turnKind heuristic toID) rounds
        ((TurnLabels.new wantPath).start ⟨0, fromID⟩ 0,
          BinaryHeap.push PqItem.f [] ⟨⟨0, fromID⟩, 0, heuristic fromID⟩) = some result ∧
      AstarFinished g eval turnKind wantPath fromID toID result := by
  have nonneg : ∀ s, ∀ a ∈ turnArcs g eval turnKind s, 0 ≤ a.2 := by
    rintro s ⟨t, c⟩ arc
    obtain ⟨e, edge, allowed, -, rfl⟩ := (mem_turnArcs g eval turnKind).mp arc
    refine add_nonneg (weights _ e edge allowed) ?_
    by_cases entered : s.prev = 0
    · rw [entered, penalty_start]
    · rw [penalty_interior entered]
      exact transitionPenalty_nonneg turns ..
  have initial : turnEngine.Good (fun t : TurnState => heuristic t.cur)
      (fun labels => labels.came.isSome) (wantPath = true) (turnArcs g eval turnKind) ⟨0, fromID⟩
      none (fun t => decide (t.cur = toID)) (fun _ _ => False)
      ((TurnLabels.new wantPath).start ⟨0, fromID⟩ 0,
        BinaryHeap.push PqItem.f [] ⟨⟨0, fromID⟩, 0, heuristic fromID⟩) := by
    refine Engine.Good.start _ _ rfl rfl rfl (fun s => ?_) fun wanted => ?_
    · show ((TurnLabels.new wantPath).gScore.insert ⟨0, fromID⟩ 0).lookup s = _
      rw [congrFun (TurnLabels.lookup_insert (TurnLabels.new wantPath).gScore ⟨0, fromID⟩ 0) s,
        Function.update_apply]
      rfl
    · subst wanted
      exact ⟨rfl, rfl⟩
  have estimate : ∀ s us d, Walk (turnArcs g eval turnKind) ⟨0, fromID⟩ us s d → ∀ t vs k,
      decide (t.cur = toID) = true → Walk (turnArcs g eval turnKind) s vs t k →
      heuristic s.cur ≤ k := by
    intro s us d before t vs k reached walk
    rcases Walk.start_or_entered before with rfl | ⟨r, c, arc⟩
    · obtain ⟨es, path, -, rfl⟩ :=
        (walk_start_iff nonzero).mp ⟨t, of_decide_eq_true reached, walk⟩
      exact admissible.start_le es path
    · obtain ⟨e, edge, allowed, rfl, -⟩ := (mem_turnArcs g eval turnKind).mp arc
      obtain ⟨es, path, -, rfl⟩ := (walk_turnArcs_iff nonzero (nonzero _ e edge)).mp
        ⟨t, of_decide_eq_true reached, walk⟩
      exact admissible.le_remaining _ e edge allowed es path
  have above : ∀ t : TurnState, decide (t.cur = toID) = true → 0 ≤ heuristic t.cur :=
    fun t reached => (of_decide_eq_true reached : t.cur = toID) ▸ admissible.target_nonneg
  obtain ⟨rounds, ⟨labels, found⟩, run, finished⟩ :=
    Engine.search_correct turnEngine_lawful nonneg (Finset.mem_insert_self ..)
      (turnStates_closed closed) estimate above _ initial
  have ⟨sound, _, tree, ends⟩ := finished
  refine ⟨rounds, (labels, found), astarRound_eq g eval turnKind heuristic toID ▸ run, ?_⟩
  cases found with
  | none =>
      intro es path
      obtain ⟨t, reached, walk⟩ := (walk_start_iff nonzero).mpr ⟨es, path, rfl, rfl⟩
      exact ends.1 t _ _ (decide_eq_true reached) walk
  | some curIt =>
      obtain ⟨reached, label, least⟩ := ends
      have at_target : curIt.s.cur = toID := of_decide_eq_true reached
      have cheapest : ∀ es, AllowedPath g eval fromID es toID →
          curIt.g ≤ turnRouteCost g eval turnKind fromID es := by
        intro es path
        obtain ⟨t, arrives, walk⟩ := (walk_start_iff nonzero).mpr ⟨es, path, rfl, rfl⟩
        exact least t _ _ (decide_eq_true arrives) walk
      refine ⟨?_, cheapest, fun wanted => ?_⟩
      · obtain ⟨vs, walk⟩ := sound _ _ label
        obtain ⟨es, path, -, cost⟩ := (walk_start_iff nonzero).mp ⟨_, at_target, walk⟩
        exact ⟨es, path, cost⟩
      · obtain ⟨kept, grown⟩ := tree wanted
        obtain ⟨came, known⟩ := Option.isSome_iff_exists.mp kept
        have reads : turnEngine.prev labels = fun t => came.lookup t := by
          funext t
          show labels.came.bind (fun came => came.lookup t) = _
          rw [known, Option.bind_some]
        obtain ⟨vs, branch, walk⟩ := finished.branch wanted rfl
        rw [reads] at grown branch
        obtain ⟨es, path, rfl, cost⟩ := (walk_start_iff nonzero).mp ⟨_, at_target, walk⟩
        refine ⟨came, es, known, path, cost, fun rounds enough => ?_⟩
        refine (reconstruct_branch grown.source_prev branch (by rwa [statesOf_length])).trans ?_
        rw [statesOf_cur, List.append_nil]

/-- A route to the target that costs no more than any other, transitions included. -/
def CheapestTurnRoute (g : Graph K) (eval : RouteEvaluator K)
    (turnKind : Int64 → Int64 → Int64 → TurnKind) (fromID toID : Int64)
    (es : List (Edge K)) : Prop :=
  AllowedPath g eval fromID es toID ∧ ∀ other, AllowedPath g eval fromID other toID →
    turnRouteCost g eval turnKind fromID es ≤ turnRouteCost g eval turnKind fromID other

theorem CheapestTurnRoute.cost_eq {es fs : List (Edge K)}
    (first : CheapestTurnRoute g eval turnKind fromID toID es)
    (second : CheapestTurnRoute g eval turnKind fromID toID fs) :
    turnRouteCost g eval turnKind fromID es = turnRouteCost g eval turnKind fromID fs :=
  le_antisymm (first.2 fs second.1) (second.2 es first.1)

/-- What a search between two different nodes of a finite graph answers. -/
theorem astar_answers {opt : RouteOptions K} (wantPath : Bool) (different : fromID ≠ toID)
    (from_exists : (g.coord fromID).isSome) (to_exists : (g.coord toID).isSome)
    (leaves : g.degree fromID ≠ 0) (nonzero : ∀ u, ∀ e ∈ g.edges u, u ≠ 0)
    (weights : ∀ u, ∀ e ∈ g.edges u, (newRouteEvaluator opt).edgeAllowed e = true →
      0 ≤ (newRouteEvaluator opt).edgeCost g e)
    (turns : opt.weights.NonnegTurns)
    (admissible : AdmissibleTurn g (newRouteEvaluator opt) turnKind fromID toID heuristic)
    {nodes : Finset Int64}
    (closed : ∀ u, ∀ e ∈ g.edges u, (newRouteEvaluator opt).edgeAllowed e = true →
      u ∈ nodes ∧ e.toID ∈ nodes) :
    ∃ enough, ∀ rounds ≥ enough,
      (∃ es goal came,
        CheapestTurnRoute g (newRouteEvaluator opt) turnKind fromID toID es ∧
        astar g turnKind heuristic opt wantPath rounds fromID toID =
          some (.ok (goal, turnRouteCost g (newRouteEvaluator opt) turnKind fromID es, came)) ∧
        (wantPath = true → ∃ kept, came = some kept ∧
          reconstructPathTurnState kept rounds goal [] = some (fromID :: es.map Edge.toID))) ∨
      ((∀ es, ¬ AllowedPath g (newRouteEvaluator opt) fromID es toID) ∧
        astar g turnKind heuristic opt wantPath rounds fromID toID = some (.error .noPath)) := by
  have priced : (newRouteEvaluator opt).options.weights.NonnegTurns := turns
  obtain ⟨enough, ⟨labels, found⟩, run, finished⟩ :=
    astar_loop wantPath nonzero weights priced admissible closed
  have enters : ∀ rounds, astar g turnKind heuristic opt wantPath rounds fromID toID =
      match Loop.iterate (astarRound g (newRouteEvaluator opt) turnKind heuristic toID) rounds
        ((TurnLabels.new wantPath).start ⟨0, fromID⟩ 0,
          BinaryHeap.push PqItem.f [] ⟨⟨0, fromID⟩, 0, heuristic fromID⟩) with
      | none => none
      | some (_, none) => some (.error .noPath)
      | some (labels, some curIt) => some (.ok (curIt.s, curIt.g, labels.came)) := by
    intro rounds
    unfold astar
    obtain ⟨a, found_from⟩ := Option.isSome_iff_exists.mp from_exists
    obtain ⟨b, found_to⟩ := Option.isSome_iff_exists.mp to_exists
    rw [if_neg different, found_from, found_to, if_neg leaves]
    rfl
  cases found with
  | none =>
      refine ⟨enough, fun rounds long => .inr ⟨finished, ?_⟩⟩
      rw [enters, Loop.iterate_mono long run]
  | some curIt =>
      obtain ⟨⟨shortest, path, cost⟩, least, back⟩ := finished
      cases wantPath with
      | false =>
          refine ⟨enough, fun rounds long =>
            .inl ⟨shortest, curIt.s, labels.came, ⟨path, ?_⟩, ?_, fun wanted => by cases wanted⟩⟩
          · exact fun other route => cost ▸ least other route
          · rw [enters, Loop.iterate_mono long run, cost]
      | true =>
          obtain ⟨came, es, known, path, cost, reads⟩ := back rfl
          refine ⟨max enough (es.length + 1), fun rounds long => .inl
            ⟨es, curIt.s, some came, ⟨path, ?_⟩, ?_, fun _ => ⟨came, rfl, ?_⟩⟩⟩
          · exact fun other route => cost ▸ least other route
          · rw [enters, Loop.iterate_mono (le_of_max_le_left long) run, cost, ← known]
          · exact reads rounds (le_of_max_le_right long)

/-- **Turn-aware routing is optimal.** In an in-memory graph without edges out of the
ID zero, with non-negative edge costs and turn weights, between two different nodes
with an edge out of the first, the search ends: it reports that there is no path
exactly when there is no route, and otherwise returns the least cost of a route, be it
one that passes a node several times, and reading the returned predecessors back ends
with the nodes of a route of that cost. -/
theorem astar_optimal (m : MemoryGraph K) (opt : RouteOptions K)
    (turnKind : Int64 → Int64 → Int64 → TurnKind) (heuristic : Int64 → K) (fromID toID : Int64)
    (different : fromID ≠ toID) (from_exists : (m.toGraph.coord fromID).isSome)
    (to_exists : (m.toGraph.coord toID).isSome) (leaves : m.toGraph.degree fromID ≠ 0)
    (nonzero : ∀ u, ∀ e ∈ m.toGraph.edges u, u ≠ 0)
    (weights : ∀ u, ∀ e ∈ m.toGraph.edges u, (newRouteEvaluator opt).edgeAllowed e = true →
      0 ≤ (newRouteEvaluator opt).edgeCost m.toGraph e)
    (turns : opt.weights.NonnegTurns)
    (admissible : AdmissibleTurn m.toGraph (newRouteEvaluator opt) turnKind fromID toID heuristic)
    (wantPath : Bool) :
    ∃ enough, ∀ rounds ≥ enough,
      (astar m.toGraph turnKind heuristic opt wantPath rounds fromID toID =
          some (.error .noPath) ↔
        ¬ ∃ es, AllowedPath m.toGraph (newRouteEvaluator opt) fromID es toID) ∧
      ((∃ es, AllowedPath m.toGraph (newRouteEvaluator opt) fromID es toID) →
        ∃ goal cost came, astar m.toGraph turnKind heuristic opt wantPath rounds fromID toID =
            some (.ok (goal, cost, came)) ∧
          (∀ other, AllowedPath m.toGraph (newRouteEvaluator opt) fromID other toID →
            cost ≤ turnRouteCost m.toGraph (newRouteEvaluator opt) turnKind fromID other) ∧
          ∃ es, AllowedPath m.toGraph (newRouteEvaluator opt) fromID es toID ∧
            turnRouteCost m.toGraph (newRouteEvaluator opt) turnKind fromID es = cost ∧
            (wantPath = true → ∃ kept, came = some kept ∧
              reconstructPathTurnState kept rounds goal [] =
                some (fromID :: es.map Edge.toID))) := by
  have closed : ∀ u, ∀ e ∈ m.toGraph.edges u, (newRouteEvaluator opt).edgeAllowed e = true →
      u ∈ m.endpoints.toFinset ∧ e.toID ∈ m.endpoints.toFinset := by
    intro u e edge _
    obtain ⟨tail, head⟩ := MemoryGraph.mem_endpoints edge
    exact ⟨List.mem_toFinset.mpr tail, List.mem_toFinset.mpr head⟩
  obtain ⟨enough, answers⟩ := astar_answers wantPath different from_exists to_exists leaves nonzero
    weights turns admissible closed
  refine ⟨enough, fun rounds long => ?_⟩
  rcases answers rounds long with ⟨es, goal, came, cheapest, answer, reads⟩ | ⟨none, answer⟩
  · refine ⟨?_, fun _ => ⟨goal, _, came, answer, cheapest.2, es, cheapest.1, rfl, reads⟩⟩
    rw [answer]
    exact ⟨fun h => by simp at h, fun h => absurd ⟨es, cheapest.1⟩ h⟩
  · refine ⟨?_, fun ⟨es, path⟩ => absurd path (none es)⟩
    rw [answer]
    exact ⟨fun _ ⟨es, path⟩ => none es path, fun _ => rfl⟩

end Optimality

theorem metreRoad_turns : (shortestDistance).weights.NonnegTurns :=
  ⟨le_refl _, le_refl _, le_refl _⟩

theorem astar_metreRoad : ∃ (rounds : ℕ) (goal : TurnState) (cost : ℚ)
    (came : Option (GoMap TurnState TurnState)),
    astar metreRoad.toGraph (fun _ _ _ => .straight) (fun _ => 0) shortestDistance true rounds 1 2 =
      some (.ok (goal, cost, came)) ∧ cost ≤ 1 := by
  have path : AllowedPath metreRoad.toGraph (newRouteEvaluator shortestDistance) 1 [metreTo 2] 2 :=
    .cons (by decide) (by decide) (.nil 2)
  obtain ⟨rounds, found⟩ := astar_optimal metreRoad shortestDistance (fun _ _ _ => .straight)
    (fun _ => 0) 1 2 (by decide) (by decide) (by decide) (by decide) metreRoad_nonzero
    metreRoad_weights metreRoad_turns ((AdmissibleNode.zero 2 metreRoad_weights).withTurns
      metreRoad_turns) true
  obtain ⟨goal, cost, came, answer, least, -⟩ := (found rounds (le_refl _)).2 ⟨_, path⟩
  exact ⟨rounds, goal, cost, came, answer, (least _ path).trans (by decide +kernel)⟩

end OsmMini.Core

import OsmMini.Cmd.Trip.SolveTrip
import OsmMini.Foundations.Grouping

/-!
# Solved trips are consistent

The order of a solved trip has every stop once and every dependency in its order, the legs
connect the start, the stops and the end one after the other, and every leg has the route
between its own two nodes, whichever legs share it. The windows of the legs into the common
array never change, because all that is appended stands behind them.

For an exact order of up to 16 stops the costs must not be negative: the table of the dynamic
program marks what cannot be reached by a large number, which a negative cost can bring back
into the range of prices.
-/

set_option autoImplicit false

namespace OsmMini.Cmd

open OsmMini.Core OsmMini.Foundations OsmMini.Foundations.Slices

/-! ## Paths that are joined -/

section Joins

variable {α : Type*}

/-- Paths one after the other, with each joint once. -/
def joinPaths : List (List α) → List α
  | [] => []
  | path :: paths => path ++ paths.flatMap List.tail

theorem joinPaths_concat {paths : List (List α)} (some : paths ≠ []) (path : List α) :
    joinPaths (paths ++ [path]) = joinPaths paths ++ path.tail := by
  cases paths with
  | nil => exact absurd rfl some
  | cons first paths =>
      rw [List.cons_append, joinPaths, joinPaths, List.flatMap_append, List.flatMap_singleton,
        List.append_assoc]

/-- A path that begins where another one ends is the end of both together. -/
theorem drop_join {old path : List α} {x : α} (last : old.getLast? = some x)
    (head : path.head? = some x) :
    (old ++ path.tail).drop (old.length - 1) = path ∧
      (old ++ path.tail).getLast? = path.getLast? := by
  obtain ⟨front, rfl⟩ := List.getLast?_eq_some_iff.mp last
  obtain ⟨rest, rfl⟩ := List.head?_eq_some_iff.mp head
  rw [List.tail_cons, List.append_assoc, List.singleton_append, List.length_append,
    List.length_singleton, Nat.add_sub_cancel, List.drop_left]
  exact ⟨rfl, List.getLast?_append_of_ne_nil _ (List.cons_ne_nil _ _)⟩

end Joins

/-! ## What a consistent answer is -/

/-- The IDs of the stops of a plan. -/
def TripPlan.stopIDs (plan : TripPlan) : List String :=
  plan.stops.zipIdx.map fun st => stopID st.2 st.1

/-- A leg between two points, with its route. -/
structure LegFits (s : TripServer) (opt : RouteOptions ℚ) (ends : StopR × StopR)
    (leg : RouteResponse (List (Coord ℚ))) : Prop where
  fromPoint : leg.fromPoint = ends.1.routePoint
  toPoint : leg.toPoint = ends.2.routePoint
  some : leg.path ≠ []
  route : ∃ res, s.route opt ends.1.node ends.2.node = .ok res ∧ leg.path = res.pathCoords ∧
    leg.distanceM = res.distanceM ∧ leg.durationS = res.durationS ∧ leg.cost = res.cost

/-- **A consistent answer to a plan.** -/
structure TripConsistent (s : TripServer) (opt : RouteOptions ℚ) (plan : TripPlan)
    (resp : TripSolveResponse) : Prop where
  order : resp.order.Perm plan.stopIDs
  distinct : resp.order.Nodup
  /-- Every stop comes after those it depends on. -/
  dependencies : ∀ d ∈ plan.dependencies, ∃ earlier later,
    resp.order = earlier ++ trimSpace d.after :: later ∧ trimSpace d.before ∈ earlier
  given : plan.optimize = false → resp.order = plan.stopIDs
  /-- The legs connect the start, the ordered stops and the end. -/
  legs : ∃ start stops ordered finish,
    resolvePoint s "start" "START" plan.start 0 = .ok start ∧
    resolvePoint s "end" "END" plan.finish 0 = .ok finish ∧
    resolveStops s 0 [] plan.stops = .ok stops ∧
    ordered.Perm stops ∧ ordered.map StopR.id = resp.order ∧
    ordered.map StopR.resolved = resp.stops ∧
    List.Forall₂ (LegFits s opt) ((start :: ordered ++ [finish]).zip (ordered ++ [finish]))
      resp.legs
  path : resp.path = joinPaths (resp.legs.map RouteResponse.path)
  /-- The end of a leg is the beginning of the next one. -/
  joints : resp.legs.IsChain fun leg next => leg.path.getLast? = next.path.head?
  distanceM : resp.distanceM = (resp.legs.map RouteResponse.distanceM).sum
  durationS : resp.durationS = (resp.legs.map RouteResponse.durationS).sum
  cost : resp.cost = (resp.legs.map RouteResponse.cost).sum
  totalDemand : resp.totalDemand = (plan.stops.map TripStop.demand).sum ∧
    resp.totalDemand = (resp.stops.map TripStopResolved.demand).sum

/-! ## The order -/

section Order

variable {s : TripServer}

theorem resolvePoint_ok {what id : String} {loc : Location} {demand : ℚ} {p : StopR}
    (resolved : resolvePoint s what id loc demand = .ok p) : p.id = id ∧ p.demand = demand := by
  rw [resolvePoint] at resolved
  split at resolved
  · cases resolved
  · split at resolved
    · cases resolved
    · cases resolved
      exact ⟨rfl, rfl⟩

theorem resolveStops_ok : ∀ {sts : List TripStop} {i : ℕ} {seen : List String}
    {stops : List StopR}, resolveStops s i seen sts = .ok stops →
      stops.map StopR.id = (sts.zipIdx i).map (fun st => stopID st.2 st.1) ∧
        stops.map StopR.demand = sts.map TripStop.demand ∧
        (stops.map StopR.id).Nodup ∧ ∀ id ∈ stops.map StopR.id, id ∉ seen := by
  intro sts
  induction sts with
  | nil =>
      intro i seen stops resolved
      cases resolved
      exact ⟨rfl, rfl, List.nodup_nil, fun id member => by cases member⟩
  | cons st sts ih =>
      intro i seen stops resolved
      rw [resolveStops] at resolved
      split_ifs at resolved with known
      obtain ⟨stop, one, resolved⟩ := ok_of_bind resolved
      obtain ⟨others, rest, resolved⟩ := ok_of_bind resolved
      cases resolved
      obtain ⟨id, demand⟩ := resolvePoint_ok one
      obtain ⟨ids, demands, distinct, fresh⟩ := ih rest
      refine ⟨?_, ?_, ?_, ?_⟩
      · rw [List.map_cons, ids, id, List.zipIdx_cons, List.map_cons]
      · rw [List.map_cons, demands, demand, List.map_cons]
      · refine List.nodup_cons.mpr ⟨fun member => ?_, distinct⟩
        exact fresh _ member (id ▸ List.mem_cons_self)
      · intro other member
        rcases List.mem_cons.mp member with rfl | later
        · exact id ▸ known
        · exact fun old => fresh other later (List.mem_cons_of_mem _ old)

/-- The masks have a bit for every dependency. -/
theorem prerequisites_ok {ids : List String} {dependencies : List Dependency} {pre : List ℕ}
    (built : prerequisites s ids dependencies = .ok pre) :
    ∀ d ∈ dependencies, ∃ a b, ids[a]? = some (trimSpace d.before) ∧
      ids[b]? = some (trimSpace d.after) ∧ (pre.getD b 0).testBit a = true := by
  have all : ∀ (ds : List Dependency) (first last : List ℕ), first.length = ids.length →
      ds.foldlM (addDependency s ids) first = .ok last →
      (∀ a b, (first.getD b 0).testBit a = true → (last.getD b 0).testBit a = true) ∧
        ∀ d ∈ ds, ∃ a b, ids[a]? = some (trimSpace d.before) ∧
          ids[b]? = some (trimSpace d.after) ∧ (last.getD b 0).testBit a = true := by
    intro ds
    induction ds with
    | nil =>
        intro first last length done
        cases done
        exact ⟨fun _ _ bit => bit, fun d member => by cases member⟩
    | cons d ds ih =>
        intro first last length done
        rw [List.foldlM_cons] at done
        obtain ⟨middle, added, done⟩ := ok_of_bind done
        rw [addDependency] at added
        split at added
        · next ia ib foundA foundB =>
            cases added
            obtain ⟨inA, atA, -⟩ := List.idxOf?_eq_some_iff.mp foundA
            obtain ⟨inB, atB, -⟩ := List.idxOf?_eq_some_iff.mp foundB
            obtain ⟨kept, named⟩ := ih _ _ ((List.length_set ..).trans length) done
            have cell : ∀ b, (first.set ib (first.getD ib 0 ||| 2 ^ ia)).getD b 0 =
                if ib = b then first.getD ib 0 ||| 2 ^ ia else first.getD b 0 := by
              intro b
              rw [List.getD_eq_getElem?_getD, List.getElem?_set]
              split_ifs with same inside
              · rfl
              · omega
              · rw [List.getD_eq_getElem?_getD]
            have grown : ∀ a b, (first.getD b 0).testBit a = true →
                (last.getD b 0).testBit a = true := by
              intro a b bit
              apply kept
              rw [cell]
              split_ifs with same
              · rw [same, Nat.testBit_or, bit, Bool.true_or]
              · exact bit
            refine ⟨grown, fun d' member => ?_⟩
            rcases List.mem_cons.mp member with rfl | later
            · refine ⟨ia, ib, ?_, ?_, ?_⟩
              · rw [List.getElem?_eq_getElem inA, atA]
              · rw [List.getElem?_eq_getElem inB, atB]
              · apply kept
                rw [cell, if_pos rfl, Nat.testBit_or, Nat.testBit_two_pow_self, Bool.or_true]
            · exact named d' later
        · cases added
  exact (all dependencies _ _ List.length_replicate built).2

/-- The given order keeps the prerequisites once every stop was visited. -/
theorem given_valid {ids : List String} {pre : List ℕ} (distinct : ids.Nodup) {mask : ℕ}
    (visited : ids.foldlM (visitGiven ids pre) 0 = .ok mask) :
    ValidOrder ids.length pre (List.range ids.length) := by
  have all : ∀ (rest : List String) (k : ℕ), ids.drop k = rest → k ≤ ids.length →
      Unlocked ids.length pre (List.range k).reverse →
      rest.foldlM (visitGiven ids pre) (maskOf (List.range k).reverse) = .ok mask →
      Unlocked ids.length pre (List.range ids.length).reverse := by
    intro rest
    induction rest with
    | nil =>
        intro k remains bound unlocked _
        have size := congrArg List.length remains
        rw [List.length_drop, List.length_nil] at size
        have same : k = ids.length := by omega
        rwa [same] at unlocked
    | cons id rest ih =>
        intro k remains bound unlocked run
        have inside : k < ids.length := by
          have size := congrArg List.length remains
          rw [List.length_drop, List.length_cons] at size
          omega
        rw [List.drop_eq_getElem_cons inside] at remains
        obtain ⟨here, later⟩ := List.cons.inj remains
        have index : ids.idxOf id = k := by
          rw [← here]
          exact distinct.idxOf_getElem k inside
        rw [List.foldlM_cons, visitGiven, index] at run
        by_cases ready : maskOf (List.range k).reverse &&& pre.getD k 0 = pre.getD k 0
        · rw [if_neg (not_not.mpr ready)] at run
          have new : k ∉ (List.range k).reverse := by
            rw [List.mem_reverse, List.mem_range]
            exact lt_irrefl k
          have needs : ∀ j, (pre.getD k 0).testBit j = true → j ∈ (List.range k).reverse := by
            intro j bit
            rw [← testBit_maskOf]
            exact Bits.and_eq_iff.mp ready j bit
          have next : (List.range (k + 1)).reverse = k :: (List.range k).reverse := by
            rw [List.range_succ, List.reverse_append, List.reverse_singleton,
              List.singleton_append]
          apply ih (k + 1) later inside
          · rw [next]
            exact ⟨inside, new, needs, unlocked⟩
          · rw [next]
            exact run
        · rw [if_pos ready] at run
          cases run
  have unlocked := all ids 0 rfl (Nat.zero_le _) trivial visited
  have valid := validOrder_iff.mpr ⟨unlocked, by rw [List.length_reverse, List.length_range]⟩
  rwa [List.reverse_reverse] at valid

/-- **Whichever way it is found, an order visits every stop once and keeps the
prerequisites.** -/
theorem orderStops_valid {opt : RouteOptions ℚ} {optimize : Bool} {startNode endNode : Int64}
    {stops : List StopR} {pre order : List ℕ} (distinct : (stops.map StopR.id).Nodup)
    (priced : optimize = true → stops.length ≤ 16 →
      ∀ a b c, s.cost opt a b = some c → 0 ≤ c)
    (answer : orderStops s opt optimize startNode endNode stops pre = .ok order) :
    ValidOrder stops.length pre order ∧
      (optimize = false → order = List.range stops.length) := by
  rw [orderStops] at answer
  split_ifs at answer with empty given few
  · cases answer
    rw [empty]
    exact ⟨(validOrder_iff (q := [])).mpr ⟨trivial, rfl⟩, fun _ => rfl⟩
  · obtain ⟨mask, visited, answer⟩ := ok_of_bind answer
    cases answer
    have valid := given_valid distinct visited
    rw [List.length_map] at valid
    exact ⟨valid, fun _ => rfl⟩
  · have optimized : optimize = true := by simpa using given
    have feasible := tspExact_feasible (priced optimized few) answer
    have visits := feasible.visits
    rw [List.length_map] at visits
    refine ⟨⟨visits, fun before i after split => feasible.prerequisites split⟩, fun same => ?_⟩
    rw [optimized] at same
    cases same
  · have valid := tspGreedy_valid answer
    rw [List.length_map] at valid
    refine ⟨valid, fun same => ?_⟩
    rw [same] at given
    exact absurd rfl given

/-- The stops in an order that visits all of them. -/
theorem ordered_perm {stops : List StopR} {order : List ℕ}
    (visits : order.Perm (List.range stops.length)) :
    (order.filterMap fun i => stops[i]?).Perm stops := by
  have all := visits.filterMap fun i => stops[i]?
  rwa [filterMap_range] at all

/-- A dependency is kept by an order that keeps its bit. -/
theorem ordered_dependency {stops : List StopR} {pre order : List ℕ} {a b : ℕ}
    {before after : String} (valid : ValidOrder stops.length pre order)
    (atA : (stops.map StopR.id)[a]? = some before) (atB : (stops.map StopR.id)[b]? = some after)
    (bit : (pre.getD b 0).testBit a = true) :
    ∃ earlier later,
      (order.filterMap fun i => stops[i]?).map StopR.id = earlier ++ after :: later ∧
        before ∈ earlier := by
  rw [List.getElem?_map, Option.map_eq_some_iff] at atA atB
  obtain ⟨stopA, foundA, idA⟩ := atA
  obtain ⟨stopB, foundB, idB⟩ := atB
  have member : b ∈ order := by
    apply valid.visits.symm.subset
    exact List.mem_range.mpr (List.getElem?_eq_some_iff.mp foundB).1
  obtain ⟨earlier, later, split⟩ := List.append_of_mem member
  have first := valid.prerequisites earlier b later split a bit
  refine ⟨(earlier.filterMap fun i => stops[i]?).map StopR.id,
    (later.filterMap fun i => stops[i]?).map StopR.id, ?_, ?_⟩
  · rw [split, List.filterMap_append, List.filterMap_cons_some foundB, List.map_append,
      List.map_cons, idB]
  · rw [← idA]
    exact List.mem_map_of_mem (List.mem_filterMap.mpr ⟨a, first, foundA⟩)

end Order

/-! ## The legs -/

section Legs

variable {s : TripServer} {opt : RouteOptions ℚ}

/-- The index of a job. -/
def HasJob (jobs : List (Int64 × Int64)) (key : Int64 × Int64) (index : ℕ) : Prop :=
  jobs[index]? = some key

/-- The job of a leg is found or added, and the others stay. -/
theorem shareJob_spec {done : List (Int64 × Int64)} {state : List (Int64 × Int64) × List ℕ}
    (found : List.Forall₂ (HasJob state.1) done state.2)
    (key : Int64 × Int64) :
    List.Forall₂ (HasJob (shareJob state key).1) (done ++ [key]) (shareJob state key).2 := by
  cases known : state.1.idxOf? key with
  | some index =>
      have same : shareJob state key = (state.1, state.2 ++ [index]) := by rw [shareJob, known]
      obtain ⟨inside, here, -⟩ := List.idxOf?_eq_some_iff.mp known
      rw [same]
      refine List.rel_append found (List.Forall₂.cons ?_ List.Forall₂.nil)
      rw [HasJob, List.getElem?_eq_getElem inside, here]
  | none =>
      have added : shareJob state key = (state.1 ++ [key], state.2 ++ [state.1.length]) := by
        rw [shareJob, known]
      rw [added]
      refine List.rel_append (found.imp fun key' index here => ?_)
        (List.Forall₂.cons List.getElem?_concat_length List.Forall₂.nil)
      rw [HasJob, List.getElem?_append_left (List.getElem?_eq_some_iff.mp here).1]
      exact here

/-- **Every leg has the index of a job with its nodes.** -/
theorem shareJobs_spec (pairs : List (Int64 × Int64)) :
    List.Forall₂ (HasJob (shareJobs pairs).1) pairs (shareJobs pairs).2 := by
  have all : ∀ (rest done : List (Int64 × Int64)) (state : List (Int64 × Int64) × List ℕ),
      List.Forall₂ (HasJob state.1) done state.2 →
      List.Forall₂ (HasJob (rest.foldl shareJob state).1) (done ++ rest)
        (rest.foldl shareJob state).2 := by
    intro rest
    induction rest with
    | nil =>
        intro done state found
        rw [List.append_nil]
        exact found
    | cons key rest ih =>
        intro done state found
        rw [List.foldl_cons, List.append_cons]
        exact ih _ _ (shareJob_spec found key)
  exact all pairs [] ([], []) List.Forall₂.nil

/-- What the checks of the legs find out. -/
theorem checkLegs_ok {results : List (Except String (RouteResult ℚ))} :
    ∀ {legs : List ((StopR × StopR) × ℕ)} {size total : ℕ},
      legs.foldlM (checkLeg results) size = .ok total →
      ∃ routes : List (RouteResult ℚ), List.Forall₂
        (fun leg rr => results.getD leg.2 (.error "") = .ok rr ∧ rr.pathCoords ≠ [])
        legs routes := by
  intro legs
  induction legs with
  | nil => exact fun _ => ⟨[], List.Forall₂.nil⟩
  | cons leg legs ih =>
      intro size total checked
      rw [List.foldlM_cons, checkLeg] at checked
      cases routed : results.getD leg.2 (.error "") with
      | error err =>
          simp only [routed, bind, Except.bind] at checked
          cases checked
      | ok rr =>
          by_cases empty : rr.pathCoords.length = 0
          · simp only [routed, empty, if_true, bind, Except.bind] at checked
            cases checked
          · simp only [routed, empty, if_false, bind, Except.bind] at checked
            obtain ⟨routes, rest⟩ := ih checked
            refine ⟨rr :: routes, List.Forall₂.cons ⟨routed, ?_⟩ rest⟩
            exact fun none => empty (congrArg List.length none)

/-- What has been assembled from some legs with their routes. -/
structure Assembled (s : TripServer) (ends : List (StopR × StopR))
    (routes : List (RouteResult ℚ)) (state : Assembly) : Prop where
  valid : Valid state.memory state.combined
  holds : read state.memory state.combined = joinPaths (routes.map RouteResult.pathCoords)
  last : ∀ rr ∈ routes.getLast?,
    (read state.memory state.combined).getLast? = rr.pathCoords.getLast?
  windows : ∀ leg ∈ state.legs,
    Valid state.memory leg.path ∧ Before leg.path state.combined
  loaded : state.legs.map (RouteResponse.load state.memory) =
    List.zipWith (fun (leg : StopR × StopR) rr => legBetween s leg.1 leg.2 rr rr.pathCoords)
      ends routes
  totalDist : state.totalDist = (routes.map RouteResult.distanceM).sum
  totalDur : state.totalDur = (routes.map RouteResult.durationS).sum
  totalCost : state.totalCost = (routes.map RouteResult.cost).sum

/-- What is appended to the whole path for a leg, and the window of the leg. -/
theorem window_added {memory : Memory (Coord ℚ)} {combined : Slice} {path values : List (Coord ℚ)}
    {start : ℕ} (valid : Valid memory combined)
    (within : start ≤ (read memory combined ++ values).length)
    (held : (read memory combined ++ values).drop start = path) :
    let added := append memory combined values
    let window := added.2.sub start added.2.length
    Valid added.1 window ∧ Before window added.2 ∧ read added.1 window = path := by
  obtain ⟨valid', holds⟩ := read_append valid values
  have size := length_read valid'
  rw [holds] at size
  rw [size] at within
  obtain ⟨known, part⟩ := read_sub valid' within
  have stop : (append memory combined values).2.start + (append memory combined values).2.length =
      (append memory combined values).2.stop := by
    rw [Slice.length]
    exact Nat.add_sub_cancel' valid'.ordered
  refine ⟨known, fun _ => stop.le, ?_⟩
  rw [part, holds, held]

/-- **A leg that begins where the last one ended is added behind it.** -/
theorem Assembled.add {results : List (Except String (RouteResult ℚ))}
    {ends : List (StopR × StopR)} {routes : List (RouteResult ℚ)} {state : Assembly}
    (assembled : Assembled s ends routes state) (paired : ends.length = routes.length)
    {leg : (StopR × StopR) × ℕ} {rr : RouteResult ℚ}
    (routed : results.getD leg.2 (.error "") = .ok rr) (some : rr.pathCoords ≠ [])
    (joint : ∀ before ∈ routes.getLast?, before.pathCoords.getLast? = rr.pathCoords.head?) :
    Assembled s (ends ++ [leg.1]) (routes ++ [rr]) (addLeg s results state leg) := by
  obtain ⟨valid, holds, last, windows, loaded, dist, dur, cost⟩ := assembled
  have count : state.legs.length = routes.length := by
    have sizes := congrArg List.length loaded
    rw [List.length_map, List.length_zipWith, paired, min_self] at sizes
    exact sizes
  -- What is appended, and where the window of the leg starts.
  obtain ⟨values, start, added, within, held, joined, ending⟩ : ∃ values start,
      addLeg s results state leg =
        { memory := (append state.memory state.combined values).1
          combined := (append state.memory state.combined values).2
          legs := state.legs ++ [legBetween s leg.1.1 leg.1.2 rr
            ((append state.memory state.combined values).2.sub start
              (append state.memory state.combined values).2.length)]
          totalDist := state.totalDist + rr.distanceM
          totalDur := state.totalDur + rr.durationS
          totalCost := state.totalCost + rr.cost } ∧
      start ≤ (read state.memory state.combined ++ values).length ∧
      (read state.memory state.combined ++ values).drop start = rr.pathCoords ∧
      read state.memory state.combined ++ values =
        joinPaths ((routes ++ [rr]).map RouteResult.pathCoords) ∧
      (read state.memory state.combined ++ values).getLast? = rr.pathCoords.getLast? := by
    rw [addLeg, routed]
    dsimp only
    by_cases first : routes = []
    · rw [if_pos (by rw [count, first]; rfl), if_pos (by rw [count, first]; rfl)]
      have none : read state.memory state.combined = [] := by
        rw [holds, first]
        rfl
      refine ⟨_, _, rfl, Nat.zero_le _, ?_, ?_, ?_⟩
      · rw [none]
        rfl
      · rw [none, first]
        exact (List.append_nil _).symm
      · rw [none]
        rfl
    · have more : ¬state.legs.length = 0 := by
        rw [count]
        exact fun zero => first (List.length_eq_zero_iff.mp zero)
      rw [if_neg more, if_neg more]
      obtain ⟨before, known⟩ := Option.ne_none_iff_exists'.mp
        (fun none => first (List.getLast?_eq_none_iff.mp none))
      obtain ⟨x, head⟩ := Option.ne_none_iff_exists'.mp
        (fun none => some (List.head?_eq_none_iff.mp none))
      have ended := (last before known).trans ((joint before known).trans head)
      obtain ⟨path, final⟩ := drop_join ended head
      have size := length_read valid
      refine ⟨_, _, rfl, ?_, ?_, ?_, final⟩
      · rw [← size, List.length_append]
        omega
      · rw [← size]
        exact path
      · rw [List.map_append, List.map_singleton,
          joinPaths_concat (fun none => first (List.map_eq_nil_iff.mp none)), holds]
  rw [added]
  obtain ⟨valid', holds'⟩ := read_append valid values
  obtain ⟨known, before, path⟩ := window_added valid within held
  have kept : ∀ old ∈ state.legs, Valid (append state.memory state.combined values).1 old.path ∧
      Before old.path (append state.memory state.combined values).2 ∧
      read (append state.memory state.combined values).1 old.path =
        read state.memory old.path := by
    intro old member
    exact read_append_other valid (windows old member).1 (windows old member).2 values
  refine ⟨valid', holds'.trans joined, ?_, ?_, ?_, ?_, ?_, ?_⟩
  · intro rr' final
    rw [List.getLast?_concat, Option.mem_some_iff] at final
    rw [← final, holds']
    exact ending
  · intro old member
    rcases List.mem_append.mp member with earlier | new
    · exact ⟨(kept old earlier).1, (kept old earlier).2.1⟩
    · rw [List.mem_singleton.mp new]
      exact ⟨known, before⟩
  · have same : state.legs.map (RouteResponse.load (append state.memory state.combined values).1) =
        state.legs.map (RouteResponse.load state.memory) := by
      apply List.map_congr_left
      intro old member
      rw [RouteResponse.load, RouteResponse.load, (kept old member).2.2]
    rw [List.map_append, same, loaded, List.zipWith_append paired]
    refine congrArg (_ ++ [·]) ?_
    rw [RouteResponse.load, legBetween, path]
    rfl
  · rw [dist, List.map_append, List.sum_append, List.map_singleton, List.sum_singleton]
  · rw [dur, List.map_append, List.sum_append, List.map_singleton, List.sum_singleton]
  · rw [cost, List.map_append, List.sum_append, List.map_singleton, List.sum_singleton]

/-- The routes of legs, each of which begins where the one before ends. -/
abbrev Joined (routes : List (RouteResult ℚ)) : Prop :=
  routes.IsChain fun rr next => rr.pathCoords.getLast? = next.pathCoords.head?

/-- **All legs are put together.** -/
theorem assembled_assemble (s : TripServer) (pathSize : ℕ)
    {results : List (Except String (RouteResult ℚ))}
    {legs : List ((StopR × StopR) × ℕ)} {routes : List (RouteResult ℚ)}
    (routed : List.Forall₂
      (fun leg rr => results.getD leg.2 (.error "") = .ok rr ∧ rr.pathCoords ≠ []) legs routes)
    (joined : Joined routes) :
    Assembled s (legs.map Prod.fst) routes (assemble s results pathSize legs) := by
  have all : ∀ (rest : List ((StopR × StopR) × ℕ)) (left : List (RouteResult ℚ))
      (ends : List (StopR × StopR)) (done : List (RouteResult ℚ)) (state : Assembly),
      List.Forall₂
        (fun leg rr => results.getD leg.2 (.error "") = .ok rr ∧ rr.pathCoords ≠ []) rest left →
      ends.length = done.length → Joined (done ++ left) → Assembled s ends done state →
      Assembled s (ends ++ rest.map Prod.fst) (done ++ left)
        (rest.foldl (addLeg s results) state) := by
    intro rest
    induction rest with
    | nil =>
        intro left ends done state routed paired joined assembled
        cases routed
        rw [List.append_nil, List.map_nil, List.append_nil]
        exact assembled
    | cons leg rest ih =>
        intro left ends done state routed paired joined assembled
        obtain ⟨rr, left', here, later, rfl⟩ := List.forall₂_cons_left_iff.mp routed
        have joint : ∀ before ∈ done.getLast?,
            before.pathCoords.getLast? = rr.pathCoords.head? := by
          intro before final
          exact (List.isChain_append.mp joined).2.2 before final rr rfl
        rw [List.map_cons, List.append_cons, List.append_cons done, List.foldl_cons]
        apply ih left' _ _ _ later
        · rw [List.length_append, List.length_append, paired]
          rfl
        · rwa [← List.append_cons]
        · exact assembled.add paired here.1 here.2 joint
  obtain ⟨valid, holds⟩ := valid_make [] (⟨0, 0⟩ : Coord ℚ) pathSize
  apply all legs routes [] [] _ routed rfl joined
  refine ⟨valid, holds, ?_, ?_, rfl, rfl, rfl, rfl⟩
  · intro rr none
    cases none
  · intro leg none
    cases none

/-- The paths of routes start and end at the places of their nodes. -/
structure TripServer.Connects (s : TripServer) (opt : RouteOptions ℚ)
    (place : Int64 → Coord ℚ) : Prop where
  starts : ∀ a b res c, s.route opt a b = .ok res → c ∈ res.pathCoords.head? → c = place a
  ends : ∀ a b res c, s.route opt a b = .ok res → c ∈ res.pathCoords.getLast? → c = place b

/-- The route between two points, as the legs have it. -/
def Routed (s : TripServer) (opt : RouteOptions ℚ) (ends : StopR × StopR)
    (rr : RouteResult ℚ) : Prop :=
  legResult s opt (ends.1.node, ends.2.node) = .ok rr ∧ rr.pathCoords ≠ []

theorem Routed.ends {place : Int64 → Coord ℚ} (connects : s.Connects opt place)
    {ends : StopR × StopR} {rr : RouteResult ℚ} (routed : Routed s opt ends rr) :
    rr.pathCoords.head? = some (place ends.1.node) ∧
      rr.pathCoords.getLast? = some (place ends.2.node) := by
  obtain ⟨answer, some⟩ := routed
  rw [legResult] at answer
  cases found : s.route opt ends.1.node ends.2.node with
  | error err =>
      rw [found] at answer
      cases answer
  | ok res =>
      rw [found] at answer
      obtain rfl := Except.ok.inj answer
      obtain ⟨x, head⟩ := Option.ne_none_iff_exists'.mp
        (fun none => some (List.head?_eq_none_iff.mp none))
      obtain ⟨y, last⟩ := Option.ne_none_iff_exists'.mp
        (fun none => some (List.getLast?_eq_none_iff.mp none))
      refine ⟨?_, ?_⟩
      · rw [head, connects.starts _ _ _ _ found head]
      · rw [last, connects.ends _ _ _ _ found last]

/-- The routes between the points of a trip fit together. -/
theorem joined_routed {place : Int64 → Coord ℚ} (connects : s.Connects opt place) :
    ∀ {points : List StopR} {routes : List (RouteResult ℚ)},
      List.Forall₂ (Routed s opt) (points.zip points.tail) routes → Joined routes := by
  intro points
  induction points with
  | nil =>
      intro routes routed
      cases routed
      exact List.isChain_nil
  | cons p points ih =>
      intro routes routed
      cases points with
      | nil =>
          cases routed
          exact List.isChain_nil
      | cons q points =>
          obtain ⟨rr, rest, here, later, rfl⟩ := List.forall₂_cons_left_iff.mp routed
          refine List.isChain_cons.mpr ⟨fun next first => ?_, ih later⟩
          cases points with
          | nil =>
              cases later
              cases first
          | cons r points =>
              obtain ⟨rr', rest', there, -, rfl⟩ := List.forall₂_cons_left_iff.mp later
              obtain rfl := Option.some.inj first
              rw [(here.ends connects).2, (there.ends connects).1]

end Legs

/-- **A leg with its route, from the job it shares.** -/
theorem routed_of_jobs {s : TripServer} {opt : RouteOptions ℚ} {pairs : List (StopR × StopR)}
    {jobs : List (Int64 × Int64)} {jobIndex : List ℕ}
    (shared : List.Forall₂ (HasJob jobs)
      (pairs.map fun pair => (pair.1.node, pair.2.node)) jobIndex)
    {routes : List (RouteResult ℚ)}
    (routed : List.Forall₂ (fun (leg : (StopR × StopR) × ℕ) rr =>
      (jobs.map (legResult s opt)).getD leg.2 (.error "") = .ok rr ∧ rr.pathCoords ≠ [])
      (pairs.zip jobIndex) routes) :
    (pairs.zip jobIndex).map Prod.fst = pairs ∧ List.Forall₂ (Routed s opt) pairs routes := by
  induction pairs generalizing jobIndex routes with
  | nil =>
      cases routed
      exact ⟨rfl, List.Forall₂.nil⟩
  | cons pair pairs ih =>
      rw [List.map_cons] at shared
      obtain ⟨index, indices, here, later, rfl⟩ := List.forall₂_cons_left_iff.mp shared
      rw [List.zip_cons_cons] at routed ⊢
      obtain ⟨rr, rest, found, others, rfl⟩ := List.forall₂_cons_left_iff.mp routed
      obtain ⟨same, all⟩ := ih later others
      refine ⟨congrArg (pair :: ·) same, List.Forall₂.cons ⟨?_, found.2⟩ all⟩
      have answer := found.1
      rw [List.getD_eq_getElem?_getD, List.getElem?_map, here] at answer
      exact answer

/-! ## Solved trips -/

section Solved

variable {s : TripServer} {opt : RouteOptions ℚ} {plan : TripPlan}

/-- Routed legs fit their points. -/
theorem legsFit {pairs : List (StopR × StopR)} {routes : List (RouteResult ℚ)}
    (routed : List.Forall₂ (Routed s opt) pairs routes) :
    List.Forall₂ (LegFits s opt) pairs
      (List.zipWith (fun (leg : StopR × StopR) rr => legBetween s leg.1 leg.2 rr rr.pathCoords)
        pairs routes) := by
  induction routed with
  | nil => exact List.Forall₂.nil
  | @cons ends rr pairs routes here _ ih =>
      refine List.Forall₂.cons ⟨rfl, rfl, here.2, ?_⟩ ih
      have answer := here.1
      rw [legResult] at answer
      cases found : s.route opt ends.1.node ends.2.node with
      | error err =>
          rw [found] at answer
          cases answer
      | ok res =>
          rw [found] at answer
          obtain rfl := Except.ok.inj answer
          exact ⟨res, rfl, rfl, rfl, rfl, rfl⟩

/-- What the legs of an answer have of their routes. -/
theorem map_legs {α : Type} {pairs : List (StopR × StopR)} {routes : List (RouteResult ℚ)}
    (paired : pairs.length = routes.length)
    {ofLeg : RouteResponse (List (Coord ℚ)) → α} {ofRoute : RouteResult ℚ → α}
    (same : ∀ a b rr, ofLeg (legBetween s a b rr rr.pathCoords) = ofRoute rr) :
    (List.zipWith (fun (leg : StopR × StopR) rr => legBetween s leg.1 leg.2 rr rr.pathCoords)
      pairs routes).map ofLeg = routes.map ofRoute := by
  rw [List.map_zipWith]
  have second : List.zipWith (fun (leg : StopR × StopR) rr =>
      ofLeg (legBetween s leg.1 leg.2 rr rr.pathCoords)) pairs routes =
        List.zipWith (fun _ rr => ofRoute rr) pairs routes := by
    congr
    funext leg rr
    exact same leg.1 leg.2 rr
  rw [second]
  clear second
  induction pairs generalizing routes with
  | nil =>
      rw [List.length_nil, eq_comm, List.length_eq_zero_iff] at paired
      rw [paired]
      rfl
  | cons pair pairs ih =>
      cases routes with
      | nil => cases paired
      | cons rr routes => exact congrArg (ofRoute rr :: ·) (ih (Nat.succ.inj paired))

/-- The routes of an answer, and what it says about them. -/
theorem solveLegs_ok {points ordered : List StopR} {resp : TripSolveResponse}
    {place : Int64 → Coord ℚ} (connects : s.Connects opt place)
    (answer : solveLegs s opt plan points ordered = .ok resp) :
    ∃ routes, List.Forall₂ (Routed s opt) (points.zip points.tail) routes ∧ Joined routes ∧
      resp.order = ordered.map StopR.id ∧ resp.stops = ordered.map StopR.resolved ∧
      resp.legs = List.zipWith
        (fun (leg : StopR × StopR) rr => legBetween s leg.1 leg.2 rr rr.pathCoords)
        (points.zip points.tail) routes ∧
      resp.path = joinPaths (routes.map RouteResult.pathCoords) ∧
      resp.distanceM = (routes.map RouteResult.distanceM).sum ∧
      resp.durationS = (routes.map RouteResult.durationS).sum ∧
      resp.cost = (routes.map RouteResult.cost).sum ∧
      resp.totalDemand = (ordered.map StopR.demand).sum := by
  rw [solveLegs] at answer
  obtain ⟨pathSize, checked, answer⟩ := ok_of_bind answer
  cases answer
  obtain ⟨routes, found⟩ := checkLegs_ok checked
  have shared := shareJobs_spec
    ((points.zip points.tail).map fun pair => (pair.1.node, pair.2.node))
  rw [shareJobs] at shared
  obtain ⟨same, routed⟩ := routed_of_jobs shared found
  have joined := joined_routed connects routed
  have assembled := assembled_assemble s pathSize found joined
  have loaded := assembled.loaded
  rw [same] at loaded
  refine ⟨routes, routed, joined, rfl, rfl, loaded, assembled.holds, assembled.totalDist,
    assembled.totalDur, assembled.totalCost, ?_⟩
  exact List.sum_eq_foldl.symm

/-- What a solved trip was put together from. -/
theorem solveTrip_ok {resp : TripSolveResponse} (solved : solveTrip s opt plan = .ok resp) :
    ∃ start finish stops pre orderIdx,
      resolvePoint s "start" "START" plan.start 0 = .ok start ∧
      resolvePoint s "end" "END" plan.finish 0 = .ok finish ∧
      resolveStops s 0 [] plan.stops = .ok stops ∧
      prerequisites s (stops.map StopR.id) plan.dependencies = .ok pre ∧
      orderStops s opt plan.optimize start.node finish.node stops pre = .ok orderIdx ∧
      solveLegs s opt plan (start :: (orderIdx.filterMap fun i => stops[i]?) ++ [finish])
        (orderIdx.filterMap fun i => stops[i]?) = .ok resp := by
  rw [solveTrip] at solved
  obtain ⟨start, atStart, solved⟩ := ok_of_bind solved
  obtain ⟨finish, atFinish, solved⟩ := ok_of_bind solved
  split_ifs at solved with many
  obtain ⟨stops, resolved, solved⟩ := ok_of_bind solved
  obtain ⟨pre, built, solved⟩ := ok_of_bind solved
  obtain ⟨orderIdx, found, solved⟩ := ok_of_bind solved
  exact ⟨start, finish, stops, pre, orderIdx, atStart, atFinish, resolved, built, found, solved⟩

end Solved

/-- **A solved trip is consistent.** -/
theorem solveTrip_consistent {s : TripServer} {opt : RouteOptions ℚ} {plan : TripPlan}
    {resp : TripSolveResponse} {place : Int64 → Coord ℚ} (connects : s.Connects opt place)
    (priced : plan.optimize = true → plan.stops.length ≤ 16 →
      ∀ a b c, s.cost opt a b = some c → 0 ≤ c)
    (solved : solveTrip s opt plan = .ok resp) : TripConsistent s opt plan resp := by
  obtain ⟨start, finish, stops, pre, orderIdx, atStart, atFinish, resolved, built, found,
    solved⟩ := solveTrip_ok solved
  obtain ⟨ids, demands, distinct, -⟩ := resolveStops_ok resolved
  have count : stops.length = plan.stops.length := by
    have sizes := congrArg List.length demands
    rwa [List.length_map, List.length_map] at sizes
  obtain ⟨valid, given⟩ := orderStops_valid distinct (count ▸ priced) found
  have all : (orderIdx.filterMap fun i => stops[i]?).Perm stops := ordered_perm valid.visits
  obtain ⟨routes, routed, joined, order, resolvedStops, legs, path, dist, dur, cost, demand⟩ :=
    solveLegs_ok connects solved
  have named : stops.map StopR.id = plan.stopIDs := ids
  have paired := routed.length_eq
  have permuted : resp.order.Perm (stops.map StopR.id) := order ▸ all.map _
  refine ⟨named ▸ permuted, permuted.symm.nodup distinct, ?_, ?_, ?_, ?_, ?_, ?_, ?_, ?_, ?_⟩
  · intro d member
    obtain ⟨a, b, atA, atB, bit⟩ := prerequisites_ok built d member
    rw [order]
    exact ordered_dependency valid atA atB bit
  · intro same
    rw [order, given same, filterMap_range, named]
  · refine ⟨start, stops, _, finish, atStart, atFinish, resolved, all, order.symm,
      resolvedStops.symm, ?_⟩
    rw [legs]
    exact legsFit routed
  · rw [path, legs, map_legs paired fun _ _ _ => rfl]
  · have paths : resp.legs.map RouteResponse.path = routes.map RouteResult.pathCoords := by
      rw [legs, map_legs paired fun _ _ _ => rfl]
    have chained : (resp.legs.map RouteResponse.path).IsChain
        fun path next => path.getLast? = next.head? := by
      rw [paths]
      exact (List.isChain_map _).mpr joined
    exact (List.isChain_map _).mp chained
  · rw [dist, legs, map_legs paired fun _ _ _ => rfl]
  · rw [dur, legs, map_legs paired fun _ _ _ => rfl]
  · rw [cost, legs, map_legs paired fun _ _ _ => rfl]
  · have resolvedDemand : resp.stops.map TripStopResolved.demand =
        (orderIdx.filterMap fun i => stops[i]?).map StopR.demand := by
      rw [resolvedStops, List.map_map]
      rfl
    rw [resolvedDemand, demand, ← demands]
    exact ⟨(all.map _).sum_eq, rfl⟩

/-! ## Trips along a line -/

/-- Nodes on a line, with a table of the legs. A leg to the node itself is one point. -/
def lineTrips (legs : Int64 → Int64 → Option ℚ) : TripServer where
  resolveLocation loc := .ok (⟨loc.lat.getD 0, loc.lon.getD 0⟩, loc.query, loc.query)
  nearestNode coord := some (Int64.ofInt coord.lon.floor, 0)
  cost _ := legs
  route opt a b :=
    match legs a b with
    | none => .error "no route"
    | some cost =>
      let path : List (Coord ℚ) :=
        if a = b then [⟨0, a.toInt⟩] else [⟨0, a.toInt⟩, ⟨0, b.toInt⟩]
      .ok ⟨[], path, cost, cost, cost, opt.objective, opt.engine⟩
  cancelled _ := false
  buildGoogleMapsURL _ _ := ""
  buildAppleMapsURL _ := ""
  quote text := text
  oneDecimal _ := ""

theorem lineTrips_connects (legs : Int64 → Int64 → Option ℚ) (opt : RouteOptions ℚ) :
    (lineTrips legs).Connects opt fun node => ⟨0, node.toInt⟩ := by
  constructor
  · intro a b res c answer head
    simp only [lineTrips] at answer
    split at answer
    · cases answer
    · cases answer
      split_ifs at head with same
      · exact (Option.some.inj head).symm
      · exact (Option.some.inj head).symm
  · intro a b res c answer last
    simp only [lineTrips] at answer
    split at answer
    · cases answer
    · cases answer
      split_ifs at last with same
      · rw [← same]
        exact (Option.some.inj last).symm
      · exact (Option.some.inj last).symm

def lineOptions : RouteOptions ℚ :=
  ⟨.astar, .distance, .car, ⟨0, 0, 0, 0, 0, 0, 0, false, 0⟩, false, none⟩

/-- A trip from node 8 to node 9 over three stops, the second of which needs the first. -/
def lineTrip (first second third : ℚ) : TripPlan where
  start := ⟨"", some 0, some 8⟩
  endLoc := some ⟨"", some 0, some 9⟩
  stops := [⟨"A", ⟨"", some 0, some first⟩, 1⟩, ⟨"B", ⟨"", some 0, some second⟩, 2⟩,
    ⟨"C", ⟨"", some 0, some third⟩, 3⟩]
  dependencies := [⟨"A", "B"⟩]
  optimize := true
  loop := false
  vehicleCapacity := 5

def lineDistance (a b : Int64) : Option ℚ := some |a.toInt - b.toInt|

/-- Stops at the nodes 5, 3 and 5, ordered by distance. -/
theorem solveTrip_consistent_line :
    ∃ resp, solveTrip (lineTrips lineDistance) lineOptions (lineTrip 5 3 5) = .ok resp ∧
      TripConsistent (lineTrips lineDistance) lineOptions (lineTrip 5 3 5) resp := by
  have order : (solveTrip (lineTrips lineDistance) lineOptions (lineTrip 5 3 5)).map
      TripSolveResponse.order = .ok ["C", "A", "B"] := by decide +kernel
  obtain ⟨resp, solved, -⟩ := ok_of_map order
  refine ⟨resp, solved, solveTrip_consistent (lineTrips_connects _ _) ?_ solved⟩
  intro _ _ a b c cost
  rw [← Option.some.inj cost]
  exact_mod_cast abs_nonneg _

/-- All legs are free, but one from the first stop to the last, as cheap as the sentinel is
dear, and none from the second stop to the end. -/
def debtLegs (a b : Int64) : Option ℚ :=
  if a = 1 ∧ b = 3 then some (-unreachable) else if a = 2 ∧ b = 9 then none else some 0

/-- A leg as cheap as the sentinel is dear leads the recovery past a dependency. -/
theorem solveTrip_cheap_leg : ¬∀ (s : TripServer) (opt : RouteOptions ℚ) (plan : TripPlan)
    (resp : TripSolveResponse) (place : Int64 → Coord ℚ), s.Connects opt place →
      solveTrip s opt plan = .ok resp → TripConsistent s opt plan resp := by
  intro all
  have order : (solveTrip (lineTrips debtLegs) lineOptions (lineTrip 1 2 3)).map
      TripSolveResponse.order = .ok ["B", "A", "C"] := by decide +kernel
  obtain ⟨resp, solved, named⟩ := ok_of_map order
  have consistent := all _ _ _ _ _ (lineTrips_connects debtLegs lineOptions) solved
  obtain ⟨earlier, later, split, before⟩ :=
    consistent.dependencies ⟨"A", "B"⟩ List.mem_cons_self
  have texts : trimSpace "A" = "A" ∧ trimSpace "B" = "B" := by decide +kernel
  rw [named, texts.2] at split
  rw [texts.1] at before
  have first : earlier = [] := by
    cases earlier with
    | nil => rfl
    | cons head rest =>
        obtain ⟨-, rest'⟩ := List.cons.inj split
        have member : "B" ∈ ["A", "C"] := rest' ▸ List.mem_append_right _ List.mem_cons_self
        exact absurd member (by decide)
  rw [first] at before
  cases before

end OsmMini.Cmd

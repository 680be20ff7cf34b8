import OsmMini.Foundations.Batches
import OsmMini.Foundations.Literals
import Mathlib.Algebra.Order.Floor.Ring
import Mathlib.Data.Rat.Floor
import Mathlib.Tactic.FieldSimp
import Mathlib.Tactic.Linarith
import Mathlib.Tactic.Positivity
import Mathlib.Tactic.Ring

/-!
# Prepared routes

A route is projected once and cut into chunks of at most 128 points. A coordinate that is not
finite ends a run. Along a run each point is moved by whole worlds until it is next to the point
before it, so that a crossing of the date line stays short.

The chunks of a run have its steps, in order, and each chunk begins where the one before it ends.
Whatever longitudes unwrap the run, the points are these up to one number of worlds
(`chunks_draw`).
-/

set_option autoImplicit false

namespace OsmMini.Apple

open OsmMini.Foundations

/-- A coordinate. A number is left out if it is not finite. -/
structure RouteCoordinate (K : Type) where
  lat : Option K
  lon : Option K

/-- The latitude and the longitude of a coordinate that is finite. -/
def RouteCoordinate.finite {K : Type} (c : RouteCoordinate K) : Option (K × K) :=
  match c.lat, c.lon with
  | some lat, some lon => some (lat, lon)
  | _, _ => none

/-- A chunk of a route. Its path begins at zero, its bounds are a corner and a size. -/
structure RouteChunk (K : Type) where
  path : List (K × K)
  origin : K × K
  boundsOrigin : K × K
  boundsSize : K × K
  pointCount : ℕ
  deriving DecidableEq

section Route

variable {K : Type} [Field K] [LinearOrder K] [FloorRing K]

/-- The number next to a number, away from zero if there are two. -/
def rounded (v : K) : ℤ := if 0 ≤ v then ⌊v + 1 / 2⌋ else ⌈v - 1 / 2⌉

/-- What is left after whole multiples, with the sign of the number. -/
def truncatingRemainder (v divisor : K) : K :=
  v - divisor * ((if 0 ≤ v / divisor then ⌊v / divisor⌋ else ⌈v / divisor⌉ : ℤ) : K)

/-- How many points a chunk has at most. -/
def pointsPerChunk : ℕ := 128

variable (mercatorY : K → K)

/-- The point of a position in the world of zoom zero. -/
def worldPoint (position : K × K) : K × K :=
  ((position.2 + 180) / 360 * 256, mercatorY position.1)

/-- The chunk of some points. -/
def chunkOf (origin : K × K) (points : List (K × K)) : RouteChunk K :=
  let minX := points.foldl (fun m p => min m p.1) origin.1
  let maxX := points.foldl (fun m p => max m p.1) origin.1
  let minY := points.foldl (fun m p => min m p.2) origin.2
  let maxY := points.foldl (fun m p => max m p.2) origin.2
  { path := points.map fun p => (p.1 - origin.1, p.2 - origin.2)
    origin
    boundsOrigin := (minX, minY)
    boundsSize := (maxX - minX, maxY - minY)
    pointCount := points.length }

/-- What the preparation has built and what it remembers. -/
structure RouteState (K : Type) where
  chunks : List (RouteChunk K)
  points : List (K × K)
  previous : Option (K × K)

namespace RouteState

/-- Close a chunk of more than one point. -/
def flush (s : RouteState K) : RouteState K :=
  match s.points with
  | origin :: _ =>
    if 1 < s.points.length then { s with chunks := s.chunks ++ [chunkOf origin s.points] } else s
  | [] => s

/-- The point of a position, next to the point before it. -/
def pointAfter (previous : Option (K × K)) (position : K × K) : K × K :=
  let point := worldPoint mercatorY (position.1, truncatingRemainder position.2 360)
  match previous with
  | some previous => (point.1 + (rounded ((previous.1 - point.1) / 256) : K) * 256, point.2)
  | none => point

def add (s : RouteState K) (c : RouteCoordinate K) : RouteState K :=
  match c.finite with
  | none => { s.flush with points := [], previous := none }
  | some position =>
    let point := pointAfter mercatorY s.previous position
    let s := { s with points := s.points ++ [point], previous := some point }
    if s.points.length = pointsPerChunk then { s.flush with points := [point] } else s

end RouteState

/-- The chunks of a route. -/
def preparedMapRoute (coordinates : List (RouteCoordinate K)) : List (RouteChunk K) :=
  (coordinates.foldl (RouteState.add mercatorY) ⟨[], [], none⟩).flush.chunks

/-! ## Runs and batches -/

/-- The runs of a route, between the coordinates that are not finite. -/
def routeRuns (coordinates : List (RouteCoordinate K)) : List (List (K × K)) :=
  (coordinates.splitOnP fun c => c.finite.isNone).map (List.filterMap RouteCoordinate.finite)

/-- The points of a run, each next to the one before it. -/
def unwrapFrom : Option (K × K) → List (K × K) → List (K × K)
  | _, [] => []
  | previous, position :: run =>
    let point := RouteState.pointAfter mercatorY previous position
    point :: unwrapFrom (some point) run

/-- The chunk of a batch of points. -/
def chunkOfBatch (batch : List (K × K)) : RouteChunk K := chunkOf (batch.headD 0) batch

omit [Field K] [LinearOrder K] [FloorRing K] in
theorem routeRuns_nil : routeRuns ([] : List (RouteCoordinate K)) = [[]] := rfl

omit [Field K] [LinearOrder K] [FloorRing K] in
theorem routeRuns_ne_nil (coordinates : List (RouteCoordinate K)) : routeRuns coordinates ≠ [] :=
  fun none => List.splitOnP_ne_nil _ _ (List.map_eq_nil_iff.mp none)

omit [Field K] [LinearOrder K] [FloorRing K] in
/-- A coordinate that is not finite begins a new run. -/
theorem routeRuns_gap {c : RouteCoordinate K} (gap : c.finite = none)
    (coordinates : List (RouteCoordinate K)) :
    routeRuns (c :: coordinates) = [] :: routeRuns coordinates := by
  rw [routeRuns, List.splitOnP_cons_eq_if_modifyHead, gap, if_pos (by rfl), List.map_cons]
  rfl

omit [Field K] [LinearOrder K] [FloorRing K] in
/-- A finite coordinate belongs to the run that follows it. -/
theorem routeRuns_finite {c : RouteCoordinate K} {position : K × K}
    (finite : c.finite = some position) {coordinates : List (RouteCoordinate K)}
    {first : List (K × K)} {others : List (List (K × K))}
    (runs : routeRuns coordinates = first :: others) :
    routeRuns (c :: coordinates) = (position :: first) :: others := by
  obtain ⟨split, rest, equal⟩ := List.exists_cons_of_ne_nil
    (List.splitOnP_ne_nil (fun c : RouteCoordinate K => c.finite.isNone) coordinates)
  rw [routeRuns, equal, List.map_cons] at runs
  obtain ⟨rfl, rfl⟩ := List.cons.inj runs
  rw [routeRuns, List.splitOnP_cons_eq_if_modifyHead, finite, if_neg (by simp), equal,
    List.modifyHead_cons, List.map_cons, List.filterMap_cons_some finite]

omit [FloorRing K] in
theorem chunks_flush (s : RouteState K) :
    s.flush.chunks = s.chunks ++ (closeBatch s.points).map chunkOfBatch := by
  rw [RouteState.flush, closeBatch]
  cases points : s.points with
  | nil => simp
  | cons origin rest =>
      dsimp only
      by_cases long : 1 < (origin :: rest).length
      · rw [if_pos long, if_pos long]
        rfl
      · rw [if_neg long, if_neg long, List.map_nil, List.append_nil]

omit [FloorRing K] in
theorem previous_flush (s : RouteState K) : s.flush.previous = s.previous := by
  rw [RouteState.flush]
  cases s.points with
  | nil => rfl
  | cons origin rest => exact (apply_ite RouteState.previous _ _ _).trans (ite_self _)

/-- **The preparation cuts every run into batches.** The first run goes on from what is
buffered. -/
theorem chunks_foldl_add (coordinates : List (RouteCoordinate K)) {first : List (K × K)}
    {others : List (List (K × K))} (runs : routeRuns coordinates = first :: others)
    (s : RouteState K) :
    (coordinates.foldl (RouteState.add mercatorY) s).flush.chunks =
      s.chunks ++ (batches pointsPerChunk s.points (unwrapFrom mercatorY s.previous first) ++
        others.flatMap fun run =>
          batches pointsPerChunk [] (unwrapFrom mercatorY none run)).map chunkOfBatch := by
  induction coordinates generalizing first others s with
  | nil =>
      obtain ⟨rfl, rfl⟩ := List.cons.inj (routeRuns_nil.symm.trans runs)
      rw [List.foldl_nil, chunks_flush, List.flatMap_nil, List.append_nil]
      rfl
  | cons c coordinates ih =>
      obtain ⟨first', others', runs'⟩ :=
        List.exists_cons_of_ne_nil (routeRuns_ne_nil coordinates)
      rw [List.foldl_cons, ih runs', RouteState.add]
      cases finite : c.finite with
      | none =>
          obtain ⟨rfl, rfl⟩ := List.cons.inj ((routeRuns_gap finite coordinates).symm.trans runs)
          dsimp only
          rw [chunks_flush, runs', unwrapFrom, batches, List.flatMap_cons, List.append_assoc,
            ← List.map_append]
      | some position =>
          obtain ⟨rfl, rfl⟩ := List.cons.inj ((routeRuns_finite finite runs').symm.trans runs)
          dsimp only
          rw [unwrapFrom, batches]
          by_cases full : (s.points ++
              [RouteState.pointAfter mercatorY s.previous position]).length = pointsPerChunk
          · rw [if_pos full, if_pos full]
            dsimp only
            rw [previous_flush, chunks_flush, List.append_assoc, ← List.map_append,
              List.append_assoc]
          · rw [if_neg full, if_neg full]

theorem preparedMapRoute_eq (coordinates : List (RouteCoordinate K)) :
    preparedMapRoute mercatorY coordinates = (routeRuns coordinates).flatMap fun run =>
      (batches pointsPerChunk [] (unwrapFrom mercatorY none run)).map chunkOfBatch := by
  obtain ⟨first, others, runs⟩ := List.exists_cons_of_ne_nil (routeRuns_ne_nil coordinates)
  rw [preparedMapRoute, chunks_foldl_add mercatorY coordinates runs, runs, List.nil_append,
    List.flatMap_cons, List.map_append, List.map_flatMap]

/-! ## Chunks -/

namespace RouteChunk

/-- The points of a chunk in the world. -/
def points (c : RouteChunk K) : List (K × K) := c.path.map (· + c.origin)

/-- The bounds of a chunk contain a point. -/
def Bounds (c : RouteChunk K) (p : K × K) : Prop :=
  (c.boundsOrigin.1 ≤ p.1 ∧ p.1 ≤ c.boundsOrigin.1 + c.boundsSize.1) ∧
    c.boundsOrigin.2 ≤ p.2 ∧ p.2 ≤ c.boundsOrigin.2 + c.boundsSize.2

end RouteChunk

omit [FloorRing K] in
theorem points_chunkOfBatch (batch : List (K × K)) : (chunkOfBatch batch).points = batch := by
  rw [RouteChunk.points, chunkOfBatch, chunkOf, List.map_map]
  refine (List.map_congr_left fun p _ => ?_).trans (List.map_id batch)
  exact Prod.ext (sub_add_cancel _ _) (sub_add_cancel _ _)

omit [Field K] [FloorRing K] in
theorem foldl_min_le {α : Type*} (f : α → K) (l : List α) (m : K) :
    l.foldl (fun m a => min m (f a)) m ≤ m ∧
      ∀ a ∈ l, l.foldl (fun m a => min m (f a)) m ≤ f a := by
  induction l generalizing m with
  | nil => exact ⟨le_rfl, fun a member => absurd member List.not_mem_nil⟩
  | cons first l ih =>
      obtain ⟨start, rest⟩ := ih (min m (f first))
      refine ⟨start.trans (min_le_left _ _), fun a member => ?_⟩
      rcases List.mem_cons.mp member with rfl | later
      · exact start.trans (min_le_right _ _)
      · exact rest a later

omit [Field K] [FloorRing K] in
theorem le_foldl_max {α : Type*} (f : α → K) (l : List α) (m : K) :
    m ≤ l.foldl (fun m a => max m (f a)) m ∧
      ∀ a ∈ l, f a ≤ l.foldl (fun m a => max m (f a)) m :=
  foldl_min_le (K := Kᵒᵈ) f l m

omit [FloorRing K] in
/-- **The bounds of a chunk contain its points.** -/
theorem bounds_chunkOfBatch (batch : List (K × K)) {p : K × K} (member : p ∈ batch) :
    (chunkOfBatch batch).Bounds p := by
  rw [RouteChunk.Bounds, chunkOfBatch, chunkOf]
  dsimp only
  rw [add_sub_cancel, add_sub_cancel]
  exact ⟨⟨(foldl_min_le Prod.fst batch _).2 p member, (le_foldl_max Prod.fst batch _).2 p member⟩,
    (foldl_min_le Prod.snd batch _).2 p member, (le_foldl_max Prod.snd batch _).2 p member⟩

/-! ## Unwrapping -/

variable [IsStrictOrderedRing K]

/-- A number is rounded by a half at most. -/
theorem abs_sub_rounded_le (v : K) : |v - rounded v| ≤ 1 / 2 := by
  rw [rounded, abs_le]
  split_ifs with sign
  · have low := Int.floor_le (v + 1 / 2)
    have high := Int.lt_floor_add_one (v + 1 / 2)
    constructor <;> linarith
  · have low := Int.le_ceil (v - 1 / 2)
    have high := Int.ceil_lt_add_one (v - 1 / 2)
    constructor <;> linarith

/-- **A point is moved next to the point before it**, half a world away at most. -/
theorem abs_pointAfter_sub_le (previous position : K × K) :
    |(RouteState.pointAfter mercatorY (some previous) position).1 - previous.1| ≤ 128 := by
  rw [RouteState.pointAfter]
  dsimp only
  set x := (worldPoint mercatorY (position.1, truncatingRemainder position.2 360)).1
  have near := abs_sub_rounded_le ((previous.1 - x) / 256)
  have scaled : x + (rounded ((previous.1 - x) / 256) : K) * 256 - previous.1 =
      -256 * ((previous.1 - x) / 256 - rounded ((previous.1 - x) / 256)) := by
    field_simp
    ring
  rw [scaled, abs_mul, abs_neg, abs_of_pos (by norm_num : (0 : K) < 256)]
  linarith

/-- The projection of a longitude, however often it goes around the world. -/
def unwrappedX (lon : K) : K := (lon + 180) / 360 * 256

/-- Two numbers are some worlds apart. -/
def Copies (x u : K) : Prop := ∃ k : ℤ, x = u + 256 * (k : K)

omit [IsStrictOrderedRing K] in
/-- **A point is a copy of the projection of its position**, some worlds to the side. -/
theorem pointAfter_copies (previous : Option (K × K)) (position : K × K) :
    Copies (RouteState.pointAfter mercatorY previous position).1 (unwrappedX position.2) ∧
      (RouteState.pointAfter mercatorY previous position).2 = mercatorY position.1 := by
  obtain ⟨turns, remainder⟩ : ∃ turns : ℤ,
      truncatingRemainder position.2 360 = position.2 - 360 * (turns : K) := ⟨_, rfl⟩
  have start : (worldPoint mercatorY (position.1, truncatingRemainder position.2 360)).1 =
      unwrappedX position.2 + 256 * ((-turns : ℤ) : K) := by
    rw [worldPoint, remainder, unwrappedX]
    push_cast
    field_simp
    ring
  cases previous with
  | none => exact ⟨⟨-turns, start⟩, rfl⟩
  | some previous =>
      rw [RouteState.pointAfter]
      dsimp only
      set worlds := rounded ((previous.1 -
        (worldPoint mercatorY (position.1, truncatingRemainder position.2 360)).1) / 256)
      refine ⟨⟨worlds - turns, ?_⟩, rfl⟩
      rw [start]
      push_cast
      ring

/-- A step of longitudes that is no wider than half the world, and that turns as the step of the
points does if it is half the world wide. -/
def TurnsAlike (drawn given : K × K) : Prop :=
  |given.2 - given.1| ≤ 128 ∧
    (|given.2 - given.1| = 128 → given.2 - given.1 = drawn.2 - drawn.1)

omit [FloorRing K] in
/-- **Unwrapped copies stay the same number of worlds apart.** A step between two copies would
be a world wider or narrower. -/
theorem unwrap_unique {x u : K} {xs us : List K} {m : ℤ} (start : x = u + 256 * (m : K))
    (congruent : List.Forall₂ Copies xs us)
    (narrow : ∀ step ∈ steps (x :: xs), |step.2 - step.1| ≤ 128)
    (alike : List.Forall₂ TurnsAlike (steps (x :: xs)) (steps (u :: us))) :
    x :: xs = (u :: us).map (· + 256 * (m : K)) := by
  induction congruent generalizing x u with
  | nil => rw [start, List.map_cons, List.map_nil]
  | @cons x' u' xs us copy rest ih =>
      obtain ⟨k, copy⟩ := copy
      rw [steps_cons_cons] at narrow
      rw [steps_cons_cons, steps_cons_cons, List.forall₂_cons] at alike
      obtain ⟨⟨given, tie⟩, alike⟩ := alike
      obtain ⟨drawn, narrow⟩ := List.forall_mem_cons.mp narrow
      dsimp only at given tie drawn
      have apart : x' - x - (u' - u) = 256 * ((k - m : ℤ) : K) := by
        rw [copy, start]
        push_cast
        ring
      have same : k = m := by
        obtain ⟨givenLow, givenHigh⟩ := abs_le.mp given
        obtain ⟨drawnLow, drawnHigh⟩ := abs_le.mp drawn
        rcases lt_trichotomy k m with less | equal | more
        · have one : ((k - m : ℤ) : K) ≤ -1 := by exact_mod_cast (by omega : k - m ≤ -1)
          have half : u' - u = 128 := by linarith
          have turn := tie (by rw [half, abs_of_pos (by norm_num)])
          linarith
        · exact equal
        · have one : (1 : K) ≤ ((k - m : ℤ) : K) := by exact_mod_cast (by omega : 1 ≤ k - m)
          have half : u' - u = -128 := by linarith
          have turn := tie (by rw [half, abs_neg, abs_of_pos (by norm_num)])
          linarith
      rw [ih (same ▸ copy) narrow alike, List.map_cons, start, List.map_cons, List.map_cons]

/-! ## What the chunks of a run draw -/

/-- The points of a run and the chunks that are drawn for it. -/
structure Draws (run : List (K × K)) (points : List (K × K)) (chunks : List (RouteChunk K)) :
    Prop where
  /-- A point for each position, some worlds beside its projection. -/
  positions : List.Forall₂ (fun position point =>
    Copies point.1 (unwrappedX position.2) ∧ point.2 = mercatorY position.1) run points
  narrow : ∀ step ∈ steps points, |step.2.1 - step.1.1| ≤ 128
  /-- Any unwrapped projection is the same number of worlds away all along the run. -/
  unwrapped : ∀ given : List K,
    List.Forall₂ (fun position x => Copies x (unwrappedX position.2)) run given →
    List.Forall₂ TurnsAlike (steps (points.map Prod.fst)) (steps given) →
    ∃ m : ℤ, points.map Prod.fst = given.map (· + 256 * (m : K))
  segments : chunks.flatMap (fun chunk => steps chunk.points) = steps points
  sizes : ∀ chunk ∈ chunks, chunk.pointCount = chunk.points.length ∧
    2 ≤ chunk.pointCount ∧ chunk.pointCount ≤ 128
  joined : chunks.IsChain fun chunk next => chunk.points.getLast? = next.points.head?
  bounded : ∀ chunk ∈ chunks, ∀ point ∈ chunk.points, chunk.Bounds point

omit [IsStrictOrderedRing K] in
theorem positions_unwrapFrom (run : List (K × K)) (previous : Option (K × K)) :
    List.Forall₂ (fun position point =>
      Copies point.1 (unwrappedX position.2) ∧ point.2 = mercatorY position.1)
      run (unwrapFrom mercatorY previous run) := by
  induction run generalizing previous with
  | nil => exact .nil
  | cons position run ih => exact .cons (pointAfter_copies mercatorY previous position) (ih _)

theorem narrow_unwrapFrom (run : List (K × K)) (previous : K × K) :
    ∀ step ∈ steps (previous :: unwrapFrom mercatorY (some previous) run),
      |step.2.1 - step.1.1| ≤ 128 := by
  induction run generalizing previous with
  | nil => exact fun step member => absurd member List.not_mem_nil
  | cons position run ih =>
      rw [unwrapFrom, steps_cons_cons]
      exact List.forall_mem_cons.mpr ⟨abs_pointAfter_sub_le mercatorY previous position, ih _⟩

/-- The chunks of a run draw it. -/
theorem draws_run (run : List (K × K)) :
    Draws mercatorY run (unwrapFrom mercatorY none run)
      ((batches pointsPerChunk [] (unwrapFrom mercatorY none run)).map chunkOfBatch) where
  positions := positions_unwrapFrom mercatorY run none
  narrow := by
    cases run with
    | nil => exact fun step member => absurd member List.not_mem_nil
    | cons position run => exact narrow_unwrapFrom mercatorY run _
  unwrapped := by
    intro given congruent alike
    have narrow : ∀ step ∈ steps ((unwrapFrom mercatorY none run).map Prod.fst),
        |step.2 - step.1| ≤ 128 := by
      cases run with
      | nil => exact fun step member => absurd member List.not_mem_nil
      | cons position run =>
          rw [steps_map]
          intro step member
          obtain ⟨step, inside, rfl⟩ := List.mem_map.mp member
          exact narrow_unwrapFrom mercatorY run _ step inside
    have copies : List.Forall₂ Copies
        ((unwrapFrom mercatorY none run).map Prod.fst) given := by
      have drawn := positions_unwrapFrom mercatorY run none
      generalize unwrapFrom mercatorY none run = points at drawn
      clear narrow alike
      induction drawn generalizing given with
      | nil =>
          cases congruent
          exact .nil
      | cons here _ ih =>
          cases congruent with
          | cons copy congruent =>
              obtain ⟨⟨k, drawn⟩, -⟩ := here
              obtain ⟨k', given⟩ := copy
              refine .cons ⟨k - k', ?_⟩ (ih _ congruent)
              rw [drawn, given]
              push_cast
              ring
    generalize (unwrapFrom mercatorY none run).map Prod.fst = drawn at copies narrow alike ⊢
    cases copies with
    | nil => exact ⟨0, rfl⟩
    | cons first rest =>
        obtain ⟨m, start⟩ := first
        exact ⟨m, unwrap_unique start rest narrow alike⟩
  segments := by
    rw [List.flatMap_map]
    simp only [points_chunkOfBatch]
    rw [steps_batches, List.nil_append]
  sizes := by
    intro chunk member
    obtain ⟨batch, inside, rfl⟩ := List.mem_map.mp member
    rw [points_chunkOfBatch]
    exact ⟨rfl, length_of_mem_batches (by decide) (show 0 < 128 by decide) inside⟩
  joined := by
    rw [List.isChain_map]
    simp only [points_chunkOfBatch]
    exact joined_batches (by decide) (show 0 < 128 by decide) _
  bounded := by
    intro chunk member point inside
    obtain ⟨batch, -, rfl⟩ := List.mem_map.mp member
    rw [points_chunkOfBatch] at inside
    exact bounds_chunkOfBatch batch inside

/-- **The chunks draw the route.** The chunks are those of its runs, one run after the other. The
chunks of a run have the steps between its consecutive positions, each once and in order, and no
others. They have 2 to 128 points inside their bounds and each begins where the one before it
ends. No step is wider than half the world, and whatever longitudes unwrap the run are the same
number of worlds away from all its points. -/
theorem chunks_draw (coordinates : List (RouteCoordinate K)) :
    ∃ drawn : List (List (K × K) × List (RouteChunk K)),
      preparedMapRoute mercatorY coordinates = drawn.flatMap Prod.snd ∧
        List.Forall₂ (fun run d => Draws mercatorY run d.1 d.2) (routeRuns coordinates) drawn := by
  refine ⟨(routeRuns coordinates).map fun run => (unwrapFrom mercatorY none run,
    (batches pointsPerChunk [] (unwrapFrom mercatorY none run)).map chunkOfBatch), ?_, ?_⟩
  · rw [preparedMapRoute_eq, List.flatMap_map]
  · rw [List.forall₂_map_right_iff, List.forall₂_same]
    exact fun run _ => draws_run mercatorY run

end Route

/-- A route over the date line, a coordinate without latitude and a single position. -/
def datelineRoute : List (RouteCoordinate ℚ) :=
  [⟨some 48, some 179⟩, ⟨some 48, some (-179)⟩, ⟨none, some 3⟩, ⟨some 1, some 2⟩]

/-- The line over the date line is one chunk as wide as two degrees. -/
theorem chunks_draw_dateline :
    (preparedMapRoute id datelineRoute).map RouteChunk.boundsSize = [(2 / 360 * 256, 0)] ∧
      ∃ drawn : List (List (ℚ × ℚ) × List (RouteChunk ℚ)),
        preparedMapRoute id datelineRoute = drawn.flatMap Prod.snd ∧
          List.Forall₂ (fun run d => Draws id run d.1 d.2) (routeRuns datelineRoute) drawn :=
  ⟨by decide +kernel, chunks_draw id datelineRoute⟩

end OsmMini.Apple

import OsmMini.Core.Routing.Metrics
import Mathlib.Algebra.Order.BigOperators.Group.List

/-!
# Instructions along a path

A path is turned into instructions: a departure, one maneuver at every inner node where the
street name changes or the direction turns by at least 45 degrees, and an arrival. An
instruction is documented to carry the distance until the next one.

The loop sums up the way from the previous maneuver to the current one and files it under
the current one; only the departure and the last maneuver are set to what follows them, and
the departure without a duration. The distances and durations therefore describe the parts of
the path exactly when there is no inner maneuver, or when nothing is travelled before the last
of them (`maneuvers_describe_iff`).
-/

set_option autoImplicit false
set_option linter.unusedSectionVars false

namespace OsmMini.Core

variable {K : Type*} [Field K] [LinearOrder K] [IsStrictOrderedRing K]

/-- A single navigation instruction. -/
structure Maneuver (K : Type*) where
  type : String
  instruction : String
  lat : K
  lon : K
  node : Int64
  /-- Distance until the next maneuver. -/
  distanceM : K
  durationS : K
  deriving DecidableEq

/-- The difference of two bearings, from -180 up to 180. -/
def angleDiffDeg (a b : K) : K :=
  let d := a - b + 540
  (if 720 ≤ d then d - 720 else if 360 ≤ d then d - 360 else d) - 180

section Path

variable (g : Graph K) (streetNameForNode : Int64 → String)
  (haversineMeters bearingDeg : Coord K → Coord K → K) (path : List Int64)

def nodeAt (i : ℕ) : Int64 := path.getD i 0

/-- A coordinate of the path. The path is only read where all its nodes have one. -/
def pathCoord (i : ℕ) : Coord K := (coordsForPath g path).getD i ⟨0, 0⟩

def segDist (i : ℕ) : K := haversineMeters (pathCoord g path i) (pathCoord g path (i + 1))

/-- The duration of a segment, at the speed of its edge or at 50 km/h. -/
def segDur (i : ℕ) : K :=
  let speedKph := match edgeBetween g (nodeAt path i) (nodeAt path (i + 1)) with
    | some e => if 0 < e.speedKph then e.speedKph else 50
    | none => 50
  segDist g haversineMeters path i / (speedKph * 1000 / 3600)

/-- The turn at an inner node. -/
def turnAt (i : ℕ) : K :=
  angleDiffDeg (bearingDeg (pathCoord g path i) (pathCoord g path (i + 1)))
    (bearingDeg (pathCoord g path (i - 1)) (pathCoord g path i))

def nameChange (i : ℕ) : Bool :=
  let curName := streetNameForNode (nodeAt path i)
  let nextName := streetNameForNode (nodeAt path (i + 1))
  curName ≠ "" && nextName ≠ "" && curName ≠ nextName

def angChange (i : ℕ) : Bool := 45 ≤ |turnAt g bearingDeg path i|

/-- The type and the text of the maneuver at an inner node. -/
def instructionAt (i : ℕ) : String × String :=
  let d := turnAt g bearingDeg path i
  let (mtype, instr) :=
    if angChange g bearingDeg path i then
      if 150 < |d| then ("uturn", "Wenden")
      else if 0 < d then ("turn-right", "Rechts abbiegen")
      else ("turn-left", "Links abbiegen")
    else if nameChange streetNameForNode path i then ("turn", "Abbiegen")
    else ("continue", "Weiterfahren")
  let nextName := streetNameForNode (nodeAt path (i + 1))
  (mtype, if nextName ≠ "" then instr ++ " auf " ++ nextName else instr)

/-- The sum of the segments from one place of the path to another. -/
def stretch (seg : ℕ → K) (first last : ℕ) : K :=
  ((List.range' first (last - first)).map seg).sum

/-- An instruction at a place of the path. -/
def maneuverAt (texts : String × String) (i : ℕ) (distanceM durationS : K) : Maneuver K where
  type := texts.1
  instruction := texts.2
  lat := (pathCoord g path i).lat
  lon := (pathCoord g path i).lon
  node := nodeAt path i
  distanceM := distanceM
  durationS := durationS

/-- What the loop over the inner nodes carries. -/
structure ManeuverLoop (K : Type*) where
  maneuvers : List (Maneuver K)
  departDistance : K
  curIdx : ℕ

/-- One inner node: a maneuver is filed with the way that led to it. -/
def visitInner (s : ManeuverLoop K) (i : ℕ) : ManeuverLoop K :=
  if nameChange streetNameForNode path i || angChange g bearingDeg path i then
    let sumDist := stretch (segDist g haversineMeters path) s.curIdx i
    let sumDur := stretch (segDur g haversineMeters path) s.curIdx i
    { maneuvers := s.maneuvers ++
        [maneuverAt g path (instructionAt g streetNameForNode bearingDeg path i) i sumDist sumDur]
      departDistance := if s.maneuvers = [] then sumDist else s.departDistance
      curIdx := i }
  else s

/-- Set the distance and the duration of the last maneuver of a list. -/
def setLast (distanceM durationS : K) : List (Maneuver K) → List (Maneuver K)
  | [] => []
  | [m] => [{ m with distanceM := distanceM, durationS := durationS }]
  | m :: ms => m :: setLast distanceM durationS ms

/-- The instructions along a path. The result is `none` where a coordinate is read that is not
there. -/
def maneuversForPath : Option (List (Maneuver K)) :=
  if path = [] then some []
  else if (coordsForPath g path).length < path.length then none
  else
    let arrive := maneuverAt g path ("arrive", "Ziel erreicht") (path.length - 1) 0 0
    if path.length = 1 then some [arrive]
    else
      let last := path.length - 1
      let s := (List.range' 1 (last - 1)).foldl
        (visitInner g streetNameForNode haversineMeters bearingDeg path)
        { maneuvers := [], departDistance := 0, curIdx := 0 }
      let sumDist := stretch (segDist g haversineMeters path) s.curIdx last
      let sumDur := stretch (segDur g haversineMeters path) s.curIdx last
      let depart := maneuverAt g path ("depart", "Los geht's") 0 s.departDistance 0
      some (setLast sumDist sumDur (depart :: s.maneuvers) ++ [arrive])

/-! ## The places of the maneuvers -/

/-- Whether an inner node gets a maneuver. -/
def changesAt (i : ℕ) : Bool :=
  nameChange streetNameForNode path i || angChange g bearingDeg path i

/-- The inner nodes with a maneuver. -/
def innerPlaces : List ℕ :=
  (List.range' 1 (path.length - 1 - 1)).filter (changesAt g streetNameForNode bearingDeg path)

/-- The departure, the inner maneuvers and the arrival. -/
def maneuverPlaces : List ℕ :=
  0 :: (innerPlaces g streetNameForNode bearingDeg path ++ [path.length - 1])

/-- The ways between consecutive places. -/
def ways (seg : ℕ → K) : ℕ → List ℕ → List K
  | _, [] => []
  | p, q :: qs => stretch seg p q :: ways seg q qs

/-- Every maneuver carries the way to the next one, so that the distances and the durations add
up to the path. -/
structure Described (ms : List (Maneuver K)) : Prop where
  distances : ms.map Maneuver.distanceM =
    ways (segDist g haversineMeters path) 0
      (innerPlaces g streetNameForNode bearingDeg path ++ [path.length - 1]) ++ [0]
  length : (ms.map Maneuver.distanceM).sum =
    stretch (segDist g haversineMeters path) 0 (path.length - 1)
  duration : (ms.map Maneuver.durationS).sum =
    stretch (segDur g haversineMeters path) 0 (path.length - 1)

section Ways

variable {seg : ℕ → K}

theorem stretch_append {a b c : ℕ} (first : a ≤ b) (second : b ≤ c) :
    stretch seg a b + stretch seg b c = stretch seg a c := by
  obtain ⟨m, rfl⟩ := Nat.exists_eq_add_of_le first
  obtain ⟨n, rfl⟩ := Nat.exists_eq_add_of_le second
  have whole : a + m + n - a = m + n := by omega
  rw [stretch, stretch, stretch, Nat.add_sub_cancel_left, Nat.add_sub_cancel_left, whole,
    ← List.sum_append, ← List.map_append, List.range'_append_1]

theorem stretch_eq_zero_iff (nonneg : ∀ i, 0 ≤ seg i) {a b : ℕ} :
    stretch seg a b = 0 ↔ ∀ i, a ≤ i → i < b → seg i = 0 := by
  rw [stretch]
  constructor
  · intro zero i lower upper
    have all : ∀ x ∈ (List.range' a (b - a)).map seg, 0 ≤ x := by
      intro x member
      obtain ⟨j, -, rfl⟩ := List.mem_map.mp member
      exact nonneg j
    refine List.all_zero_of_le_zero_le_of_sum_eq_zero all zero (List.mem_map_of_mem ?_)
    rw [List.mem_range'_1]
    omega
  · intro zero
    refine List.sum_eq_zero fun x member => ?_
    obtain ⟨j, inside, rfl⟩ := List.mem_map.mp member
    rw [List.mem_range'_1] at inside
    exact zero j inside.1 (by omega)

theorem ways_concat (p : ℕ) (qs : List ℕ) (last : ℕ) :
    ways seg p (qs ++ [last]) = ways seg p qs ++ [stretch seg (qs.getLastD p) last] := by
  induction qs generalizing p with
  | nil => rfl
  | cons q qs ih =>
      rw [List.cons_append, ways, ih q, ways, List.getLastD_cons]
      rfl

/-- The ways between increasing places add up to the whole way. -/
theorem ways_sum {p : ℕ} {qs : List ℕ} (sorted : (p :: qs).Pairwise (· ≤ ·)) :
    (ways seg p qs).sum = stretch seg p (qs.getLastD p) := by
  induction qs generalizing p with
  | nil => simp [ways, stretch]
  | cons q qs ih =>
      obtain ⟨lower, rest⟩ := List.pairwise_cons.mp sorted
      rw [ways, List.sum_cons, ih rest, List.getLastD_cons]
      refine stretch_append (lower q (List.mem_cons_self ..)) ?_
      cases qs with
      | nil => exact le_rfl
      | cons r qs =>
          have last : (r :: qs).getLastD q = (r :: qs).getLast (List.cons_ne_nil _ _) := by
            rw [List.getLastD_cons, List.getLast_eq_getLastD]
          rw [last]
          exact (List.pairwise_cons.mp rest).1 _ (List.getLast_mem _)

theorem ways_eq_zero_iff {p : ℕ} {qs : List ℕ} (sorted : (p :: qs).Pairwise (· ≤ ·)) :
    (∀ w ∈ ways seg p qs, w = 0) ↔ ∀ q ∈ qs, stretch seg p q = 0 := by
  induction qs generalizing p with
  | nil => simp [ways]
  | cons q qs ih =>
      obtain ⟨lower, rest⟩ := List.pairwise_cons.mp sorted
      have above := (List.pairwise_cons.mp rest).1
      rw [ways, List.forall_mem_cons, List.forall_mem_cons, ih rest]
      refine and_congr_right fun zero => forall₂_congr fun r member => ?_
      rw [← stretch_append (lower q (List.mem_cons_self ..)) (above r member), zero, zero_add]

end Ways

theorem dropLast_cons_eq_iff {x : K} {l : List K} :
    (x :: l).dropLast = l ↔ ∀ y ∈ l, y = x := by
  induction l generalizing x with
  | nil => simp
  | cons y l ih =>
      rw [List.dropLast_cons_cons, List.cons.injEq, ih, List.forall_mem_cons]
      constructor
      · rintro ⟨rfl, same⟩
        exact ⟨rfl, same⟩
      · rintro ⟨rfl, same⟩
        exact ⟨rfl, same⟩

theorem dropLast_sum_eq_iff {l : List K} : ((0 :: l).dropLast).sum = l.sum ↔ l.getLastD 0 = 0 := by
  have split : (0 :: l).dropLast.sum + l.getLastD 0 = l.sum := by
    have last : l.getLastD 0 = [(0 :: l).getLast (List.cons_ne_nil _ _)].sum := by
      rw [List.sum_singleton, List.getLast_eq_getLastD]
    rw [last, ← List.sum_append, List.dropLast_append_getLast, List.sum_cons, zero_add]
  constructor
  · intro same
    rwa [same, add_eq_left] at split
  · intro zero
    rwa [zero, add_zero] at split

/-! ## What the loop files -/

/-- The inner maneuvers, each with the way that leads to it. -/
def filed : ℕ → List ℕ → List (Maneuver K)
  | _, [] => []
  | p, i :: places =>
    maneuverAt g path (instructionAt g streetNameForNode bearingDeg path i) i
      (stretch (segDist g haversineMeters path) p i) (stretch (segDur g haversineMeters path) p i) ::
    filed i places

theorem foldl_visitInner (l : List ℕ) (s : ManeuverLoop K) :
    l.foldl (visitInner g streetNameForNode haversineMeters bearingDeg path) s =
      { maneuvers := s.maneuvers ++ filed g streetNameForNode haversineMeters bearingDeg path
          s.curIdx (l.filter (changesAt g streetNameForNode bearingDeg path))
        departDistance := if s.maneuvers = [] then
            (ways (segDist g haversineMeters path) s.curIdx
              (l.filter (changesAt g streetNameForNode bearingDeg path))).headD s.departDistance
          else s.departDistance
        curIdx := (l.filter (changesAt g streetNameForNode bearingDeg path)).getLastD s.curIdx } := by
  induction l generalizing s with
  | nil =>
      obtain ⟨maneuvers, departDistance, curIdx⟩ := s
      simp [filed, ways]
  | cons i l ih =>
      rw [List.foldl_cons, ih]
      by_cases changes : changesAt g streetNameForNode bearingDeg path i = true
      · have taken : (nameChange streetNameForNode path i || angChange g bearingDeg path i) = true :=
          changes
        rw [visitInner, if_pos taken, List.filter_cons_of_pos changes, List.getLastD_cons]
        simp [filed, ways]
      · have passed : (nameChange streetNameForNode path i || angChange g bearingDeg path i) ≠ true :=
          changes
        rw [visitInner, if_neg passed, List.filter_cons_of_neg changes]

variable {g streetNameForNode haversineMeters bearingDeg path}

theorem filed_distances (p : ℕ) (places : List ℕ) :
    (filed g streetNameForNode haversineMeters bearingDeg path p places).map Maneuver.distanceM =
      ways (segDist g haversineMeters path) p places := by
  induction places generalizing p with
  | nil => rfl
  | cons i places ih =>
      rw [filed, List.map_cons, ih, ways]
      rfl

theorem filed_durations (p : ℕ) (places : List ℕ) :
    (filed g streetNameForNode haversineMeters bearingDeg path p places).map Maneuver.durationS =
      ways (segDur g haversineMeters path) p places := by
  induction places generalizing p with
  | nil => rfl
  | cons i places ih =>
      rw [filed, List.map_cons, ih, ways]
      rfl

theorem filed_nodes (p : ℕ) (places : List ℕ) :
    (filed g streetNameForNode haversineMeters bearingDeg path p places).map Maneuver.node =
      places.map (nodeAt path) := by
  induction places generalizing p with
  | nil => rfl
  | cons i places ih =>
      rw [filed, List.map_cons, ih, List.map_cons]
      rfl

section SetLast

variable {distanceM durationS : K} {ms : List (Maneuver K)}

theorem setLast_nodes : (setLast distanceM durationS ms).map Maneuver.node =
    ms.map Maneuver.node := by
  fun_induction setLast distanceM durationS ms with
  | case1 => rfl
  | case2 => rfl
  | case3 m ms _ ih => rw [List.map_cons, ih, List.map_cons]

theorem setLast_distances (some : ms ≠ []) :
    (setLast distanceM durationS ms).map Maneuver.distanceM =
      (ms.map Maneuver.distanceM).dropLast ++ [distanceM] := by
  fun_induction setLast distanceM durationS ms with
  | case1 => exact absurd rfl some
  | case2 => rfl
  | case3 m ms more ih =>
      rw [List.map_cons, ih more]
      obtain ⟨n, rest, rfl⟩ := List.exists_cons_of_ne_nil more
      rfl

theorem setLast_durations (some : ms ≠ []) :
    (setLast distanceM durationS ms).map Maneuver.durationS =
      (ms.map Maneuver.durationS).dropLast ++ [durationS] := by
  fun_induction setLast distanceM durationS ms with
  | case1 => exact absurd rfl some
  | case2 => rfl
  | case3 m ms more ih =>
      rw [List.map_cons, ih more]
      obtain ⟨n, rest, rfl⟩ := List.exists_cons_of_ne_nil more
      rfl

end SetLast

/-! ## When the instructions describe the path -/

theorem sorted_places :
    (0 :: (innerPlaces g streetNameForNode bearingDeg path ++ [path.length - 1])).Pairwise
      (· ≤ ·) := by
  have inner : ∀ i ∈ innerPlaces g streetNameForNode bearingDeg path, i ≤ path.length - 1 := by
    intro i member
    have inside := List.mem_range'_1.mp (List.mem_of_mem_filter member)
    omega
  refine List.pairwise_cons.mpr ⟨fun _ _ => Nat.zero_le _, List.pairwise_append.mpr
    ⟨?_, List.pairwise_singleton _ _, fun i member j last => ?_⟩⟩
  · exact ((List.pairwise_lt_range' 1 Nat.one_pos).imp fun h => h.le).filter _
  · rw [List.mem_singleton.mp last]
    exact inner i member

theorem speedKph_pos (i : ℕ) :
    (0 : K) < match edgeBetween g (nodeAt path i) (nodeAt path (i + 1)) with
      | some e => if 0 < e.speedKph then e.speedKph else 50
      | none => 50 := by
  split
  · split_ifs with fast
    · exact fast
    · norm_num
  · norm_num

/-- A segment takes no time exactly when it has no length. -/
theorem segDur_eq_zero_iff (i : ℕ) :
    segDur g haversineMeters path i = 0 ↔ segDist g haversineMeters path i = 0 := by
  have speed := @speedKph_pos K _ _ _ g path i
  rw [segDur]
  refine div_eq_zero_iff.trans (or_iff_left ?_)
  positivity

theorem segDur_nonneg (nonneg : ∀ a b, 0 ≤ haversineMeters a b) (i : ℕ) :
    0 ≤ segDur g haversineMeters path i := by
  have speed := @speedKph_pos K _ _ _ g path i
  have length : 0 ≤ segDist g haversineMeters path i := nonneg _ _
  rw [segDur]
  positivity

/-- The instructions along a path of at least two nodes that all have coordinates. -/
theorem maneuversForPath_eq (long : 2 ≤ path.length)
    (located : ∀ id ∈ path, (g.coord id).isSome) :
    ∃ ms, maneuversForPath g streetNameForNode haversineMeters bearingDeg path = some ms ∧
      ms.map Maneuver.node = (maneuverPlaces g streetNameForNode bearingDeg path).map (nodeAt path) ∧
      ms.map Maneuver.distanceM =
        ((ways (segDist g haversineMeters path) 0
            (innerPlaces g streetNameForNode bearingDeg path)).headD 0 ::
          ways (segDist g haversineMeters path) 0
            (innerPlaces g streetNameForNode bearingDeg path)).dropLast ++
        [stretch (segDist g haversineMeters path)
          ((innerPlaces g streetNameForNode bearingDeg path).getLastD 0) (path.length - 1), 0] ∧
      ms.map Maneuver.durationS =
        (0 :: ways (segDur g haversineMeters path) 0
          (innerPlaces g streetNameForNode bearingDeg path)).dropLast ++
        [stretch (segDur g haversineMeters path)
          ((innerPlaces g streetNameForNode bearingDeg path).getLastD 0) (path.length - 1), 0] := by
  have whole : (coordsForPath g path).length = path.length := by
    rw [coordsForPath, List.length_filterMap_eq_countP, List.countP_eq_length]
    exact located
  have nonempty : path ≠ [] := by
    rintro rfl
    exact absurd long (by decide)
  rw [maneuversForPath, if_neg nonempty, if_neg (by omega), if_neg (by omega)]
  dsimp only
  rw [foldl_visitInner]
  refine ⟨_, rfl, ?_, ?_, ?_⟩
  · rw [List.map_append, setLast_nodes, List.map_cons, List.nil_append, filed_nodes]
    simp only [maneuverPlaces, List.map_cons, List.map_append, List.cons_append]
    rfl
  · rw [List.map_append, setLast_distances (List.cons_ne_nil _ _), List.map_cons, List.nil_append,
      filed_distances, List.append_assoc]
    rfl
  · rw [List.map_append, setLast_durations (List.cons_ne_nil _ _), List.map_cons, List.nil_append,
      filed_durations, List.append_assoc]
    rfl

/-- The last way before an inner maneuver takes no time exactly when it has no length. -/
theorem lastWay_eq_zero_iff (nonneg : ∀ a b, 0 ≤ haversineMeters a b) (places : List ℕ) :
    (ways (segDur g haversineMeters path) 0 places).getLastD 0 = 0 ↔
      (ways (segDist g haversineMeters path) 0 places).getLastD 0 = 0 := by
  have lengths : ∀ i, 0 ≤ segDist g haversineMeters path i := fun _ => nonneg _ _
  induction places using List.reverseRecOn with
  | nil => rfl
  | append_singleton places last _ =>
      rw [ways_concat, ways_concat, List.getLastD_concat, List.getLastD_concat,
        stretch_eq_zero_iff (segDur_nonneg nonneg), stretch_eq_zero_iff lengths]
      simp only [segDur_eq_zero_iff]

/-- Equal ways of which the last one is zero. -/
theorem equal_ways_iff {l : List K} :
    ((∀ y ∈ l, y = l.headD 0) ∧ l.getLastD 0 = 0) ↔ ∀ y ∈ l, y = 0 := by
  cases l with
  | nil => simp
  | cons x l =>
      have member : (x :: l).getLastD 0 ∈ x :: l := by
        rw [List.getLastD_cons, ← List.getLast_eq_getLastD (List.cons_ne_nil x l)]
        exact List.getLast_mem _
      constructor
      · rintro ⟨equal, last⟩ y inside
        rw [equal y inside, ← equal _ member, last]
      · intro zero
        refine ⟨fun y inside => ?_, zero _ member⟩
        rw [zero y inside]
        exact (zero x (List.mem_cons_self ..)).symm

/-- **The instructions describe the path** exactly when nothing is travelled up to any inner
maneuver; in particular where there is none. -/
theorem maneuvers_describe_iff (nonneg : ∀ a b, 0 ≤ haversineMeters a b)
    (long : 2 ≤ path.length) (located : ∀ id ∈ path, (g.coord id).isSome) :
    ∃ ms, maneuversForPath g streetNameForNode haversineMeters bearingDeg path = some ms ∧
      ms.map Maneuver.node = (maneuverPlaces g streetNameForNode bearingDeg path).map (nodeAt path) ∧
      (Described g streetNameForNode haversineMeters bearingDeg path ms ↔
        ∀ i, 0 < i → i + 1 < path.length → changesAt g streetNameForNode bearingDeg path i = true →
          stretch (segDist g haversineMeters path) 0 i = 0) := by
  obtain ⟨ms, run, nodes, distances, durations⟩ := @maneuversForPath_eq K _ _ _ g
    streetNameForNode haversineMeters bearingDeg path long located
  refine ⟨ms, run, nodes, ?_⟩
  have sorted := @sorted_places K _ _ _ g streetNameForNode bearingDeg path
  have inner : (0 :: innerPlaces g streetNameForNode bearingDeg path).Pairwise (· ≤ ·) :=
    sorted.sublist ((List.sublist_append_left _ _).cons_cons 0)
  have places : (∀ i, 0 < i → i + 1 < path.length →
      changesAt g streetNameForNode bearingDeg path i = true →
      stretch (segDist g haversineMeters path) 0 i = 0) ↔
      ∀ i ∈ innerPlaces g streetNameForNode bearingDeg path,
        stretch (segDist g haversineMeters path) 0 i = 0 := by
    simp only [innerPlaces, List.mem_filter, List.mem_range'_1]
    constructor
    · rintro zero i ⟨inside, changes⟩
      exact zero i inside.1 (by omega) changes
    · intro zero i positive below changes
      exact zero i ⟨by omega, changes⟩
  have whole : ∀ seg : ℕ → K, (ways seg 0 (innerPlaces g streetNameForNode bearingDeg path)).sum +
      stretch seg ((innerPlaces g streetNameForNode bearingDeg path).getLastD 0) (path.length - 1) =
        stretch seg 0 (path.length - 1) := by
    intro seg
    have total := @ways_sum K _ _ _ seg _ _ sorted
    rwa [ways_concat, List.sum_append, List.sum_singleton, List.getLastD_concat] at total
  rw [places, ← ways_eq_zero_iff inner, ← equal_ways_iff, ← lastWay_eq_zero_iff nonneg,
    ← dropLast_cons_eq_iff, ← dropLast_sum_eq_iff]
  constructor
  · rintro ⟨described, -, total⟩
    rw [distances, ways_concat, List.append_assoc] at described
    rw [durations, List.sum_append, List.sum_cons, List.sum_singleton, add_zero,
      ← whole (segDur g haversineMeters path)] at total
    exact ⟨List.append_cancel_right described, add_right_cancel total⟩
  · rintro ⟨same, total⟩
    have described : ms.map Maneuver.distanceM = ways (segDist g haversineMeters path) 0
        (innerPlaces g streetNameForNode bearingDeg path ++ [path.length - 1]) ++ [0] := by
      rw [distances, ways_concat, List.append_assoc, same]
      rfl
    refine ⟨described, ?_, ?_⟩
    · rw [described, ways_concat, List.sum_append, List.sum_append, List.sum_singleton,
        List.sum_singleton, add_zero, whole]
    · rw [durations, List.sum_append, total, List.sum_cons, List.sum_singleton, add_zero, whole]

end Path

/-! ## A road with a bend -/

/-- One hundred metres north and one hundred metres east. -/
def bend : MemoryGraph ℚ where
  coords := GoMap.ofList [(1, ⟨0, 0⟩), (2, ⟨1, 0⟩), (3, ⟨1, 1⟩)]
  adj := ∅

/-- The bearing of a road along the grid. -/
def gridBearing (a b : Coord ℚ) : ℚ := if a.lon = b.lon then 0 else 90

/-- Straight on there is only the departure, with the whole way. -/
theorem maneuvers_straight : ∃ ms,
    maneuversForPath bend.toGraph (fun _ => "") (fun _ _ => 100) gridBearing [1, 2] = some ms ∧
      Described bend.toGraph (fun _ => "") (fun _ _ => 100) gridBearing [1, 2] ms := by
  obtain ⟨ms, run, -, described⟩ := @maneuvers_describe_iff ℚ _ _ _ bend.toGraph (fun _ => "")
    (fun _ _ => 100) gridBearing [1, 2] (fun _ _ => by norm_num) (by decide)
    (List.all_eq_true.mp (by decide +kernel))
  refine ⟨ms, run, described.mpr fun i positive below => ?_⟩
  rw [List.length_cons, List.length_cons, List.length_nil] at below
  omega

/-- At the bend the time to the first maneuver is lost. -/
theorem maneuvers_not_described : ∃ ms,
    maneuversForPath bend.toGraph (fun _ => "") (fun _ _ => 100) gridBearing [1, 2, 3] = some ms ∧
      (ms.map Maneuver.durationS).sum = 36 / 5 ∧
      ¬ Described bend.toGraph (fun _ => "") (fun _ _ => 100) gridBearing [1, 2, 3] ms := by
  obtain ⟨ms, run, -, -, durations⟩ := @maneuversForPath_eq ℚ _ _ _ bend.toGraph (fun _ => "")
    (fun _ _ => 100) gridBearing [1, 2, 3] (by decide) (List.all_eq_true.mp (by decide +kernel))
  refine ⟨ms, run, ?_, fun described => ?_⟩
  · rw [durations]
    decide +kernel
  · have total := described.duration
    rw [durations] at total
    revert total
    decide +kernel

end OsmMini.Core

import OsmMini.Core.Snap.Nearest
import OsmMini.Foundations.TopEntries

/-!
# The nodes around a point

`NearestNodes` lists the nodes within a radius of a point, the nearest first. It computes a
window of latitudes and longitudes that holds the circle, visits the cells of the grid in that
window, and keeps a short sorted list of the nodes whose distance is within the radius. A
circle across the date line has two ranges of longitudes, and one that holds a pole has them
all.

A graph in memory files its nodes under their cells. A graph file stores the cells as records
sorted by their keys; opening the file checks that every record names the cell of its node
and that the records ascend, so that each node has exactly one.

The bounds of the window are moved by one step of the floating-point grid. Here a step is any
pair of functions that move a number outwards by less than one degree.
-/

set_option autoImplicit false

namespace OsmMini.Core.Snap

open Foundations Foundations.GreatCircle

/-! ## The window of a circle -/

/-- The neighbours of a number in the floating-point grid. -/
structure Nextafter where
  down : ℝ → ℝ
  up : ℝ → ℝ
  down_le : ∀ x, down x ≤ x
  le_up : ∀ x, x ≤ up x
  near : ∀ x, |x| ≤ 540 → x - 1 ≤ down x ∧ up x ≤ x + 1

structure NodeSnapWindow where
  minLat : ℝ
  maxLat : ℝ
  longitudes : List (ℝ × ℝ)

/-- The window that holds the circle around a point. -/
noncomputable def snapWindow (step : Nextafter) (lat lon meters : ℝ) : NodeSnapWindow :=
  let earthRadius := 6371000
  let angular := meters / earthRadius
  let degrees := angular * 180 / Real.pi
  let minLat := lat - degrees
  let maxLat := lat + degrees
  let delta :=
    Real.arcsin (min 1 (Real.sin angular / Real.cos (deg2rad lat))) * 180 / Real.pi
  let minLon := step.down (lon - delta)
  let maxLon := step.up (lon + delta)
  { minLat := step.down (max (-90) minLat)
    maxLat := step.up (min 90 maxLat)
    longitudes :=
      if minLat ≤ -90 ∨ 90 ≤ maxLat then [(-180, 180)]
      else if minLon ≤ -180 then [(-180, maxLon), (minLon + 360, 180)]
      else if 180 ≤ maxLon then [(minLon, 180), (-180, maxLon - 360)]
      else [(minLon, maxLon)] }

/-! ## The nodes kept -/

/-- A graph node and its great-circle distance from a query point. -/
@[ext] structure NodeSnap where
  id : Int64
  distanceM : ℝ

namespace NodeSnap

/-- The distance and then the number of the node. -/
def key (node : NodeSnap) : ℝ ×ₗ Int64 := toLex (node.distanceM, node.id)

theorem key_injective : Function.Injective key := by
  intro a b same
  have pairs : (a.distanceM, a.id) = (b.distanceM, b.id) := toLex.injective same
  obtain ⟨distances, ids⟩ := Prod.mk.inj pairs
  exact NodeSnap.ext ids distances

/-- Nodes are ordered by distance and then by their signed numbers. -/
noncomputable instance : LinearOrder NodeSnap := LinearOrder.lift' key key_injective

theorem lt_iff (a b : NodeSnap) :
    a < b ↔ a.distanceM < b.distanceM ∨ a.distanceM = b.distanceM ∧ a.id < b.id :=
  Prod.Lex.toLex_lt_toLex

end NodeSnap

section Query

variable (lat lon : ℝ) (limit : ℕ) (maxMeters : ℝ)

/-- The node with its distance. -/
noncomputable def snapOf (e : Entry) : NodeSnap :=
  ⟨e.1, haversineMeters lat lon e.2.lat e.2.lon⟩

open Classical in
/-- Keep a node if it lies within the radius and among the first ones so far. -/
noncomputable def visitSnap (results : List NodeSnap) (e : Entry) : List NodeSnap :=
  if maxMeters < haversineMeters lat lon e.2.lat e.2.lon then results
  else insertBounded limit results (snapOf lat lon e)

/-- The cells of the grid in a window, one range of longitudes after the other. -/
noncomputable def windowCells (idx : SpatialIndex) (window : NodeSnapWindow) : List (ℤ × ℤ) :=
  window.longitudes.flatMap fun longitude =>
    let least := idx.cell window.minLat longitude.1
    let most := idx.cell window.maxLat longitude.2
    let minX := max 0 least.1.toInt
    let minY := max 0 least.2.toInt
    let maxX := min idx.maxX.toInt most.1.toInt
    let maxY := min idx.maxY.toInt most.2.toInt
    (Int.range minX (maxX + 1)).flatMap fun x =>
      (Int.range minY (maxY + 1)).map fun y => (x, y)

/-- The nodes the search visits, given the nodes of every cell. -/
noncomputable def visitedNodes (step : Nextafter) (idx : SpatialIndex)
    (cellNodes : Int64 → List Entry) : List Entry :=
  (windowCells idx (snapWindow step lat lon maxMeters)).flatMap fun k =>
    cellNodes (cellKey (Int32.ofInt k.1, Int32.ofInt k.2))

end Query

/-- The nodes nearest to a point, given the nodes that a search visits. -/
noncomputable def nearestNodesAmong (lat lon : ℝ) (limit : ℤ) (maxMeters : ℝ)
    (visited : List Entry) : Except String (List NodeSnap) := by
  classical exact
    if 90 < |lat| ∨ 180 < |lon| then .error "invalid snap coordinate"
    else if limit < 1 ∨ maxMeters ≤ 0 ∨ 1000 < maxMeters then
      .error "invalid snap limit or radius"
    else .ok (visited.foldl (visitSnap lat lon (min limit 8).toNat maxMeters) [])

/-! ## Graphs in memory -/

/-- The nodes filed under a key, with their coordinates. -/
noncomputable def memoryCellNodes (g : MemoryGraph ℝ) (idx : SpatialIndex) (key : Int64) :
    List Entry :=
  (bucket idx.cells key).map fun id => ⟨id, (g.coords.lookup id).getD ⟨0, 0⟩⟩

/-- The nodes nearest to a point. Without an index all nodes are visited, in the given order. -/
noncomputable def Router.nearestNodes (r : Router) (step : Nextafter)
    (coords : Listing (Coord ℝ)) (lat lon : ℝ) (limit : ℤ) (maxMeters : ℝ) :
    Except String (List NodeSnap) :=
  nearestNodesAmong lat lon limit maxMeters
    (match r.idx with
    | none => coords
    | some idx => visitedNodes lat lon maxMeters step idx (memoryCellNodes r.g idx))

/-! ## Graph files -/

/-- What the search reads of an open graph file: the node table, the bounds and the cell
records, with what opening the file checks of them. -/
structure FileGraph where
  nodes : List Entry
  bounds : CoordWindow ℝ
  /-- A key and the position of a node in the table. -/
  cellRecords : List (Int64 × ℕ)
  ascending : (nodes.map Sigma.fst).Pairwise (· < ·)
  validBounds : -90 ≤ bounds.minLat ∧ bounds.maxLat ≤ 90 ∧ -180 ≤ bounds.minLon ∧
    bounds.maxLon ≤ 180 ∧ bounds.minLat ≤ bounds.maxLat ∧ bounds.minLon ≤ bounds.maxLon
  contained : ∀ e ∈ nodes, bounds.minLat ≤ e.2.lat ∧ e.2.lat ≤ bounds.maxLat ∧
    bounds.minLon ≤ e.2.lon ∧ e.2.lon ≤ bounds.maxLon
  oneEach : cellRecords.length = nodes.length
  recordsAscend : cellRecords.Pairwise fun a b => a.1 < b.1 ∨ a.1 = b.1 ∧ a.2 < b.2
  matching : ∀ record ∈ cellRecords, ∃ e, nodes[record.2]? = some e ∧
    record.1 = cellKey (Int32.ofInt ⌊(e.2.lat - bounds.minLat) / 0.01⌋,
      Int32.ofInt ⌊(e.2.lon - bounds.minLon) / 0.01⌋)

namespace FileGraph

/-- The grid over the bounds of a graph file. -/
noncomputable def idx (d : FileGraph) : SpatialIndex where
  cellSize := 0.01
  minLat := d.bounds.minLat
  minLon := d.bounds.minLon
  maxX := Int32.ofInt ⌊(d.bounds.maxLat - d.bounds.minLat) / 0.01⌋
  maxY := Int32.ofInt ⌊(d.bounds.maxLon - d.bounds.minLon) / 0.01⌋
  cells := ∅

/-- The nodes of a cell: the records from the first one of the key on, as long as they name
it. -/
def cellNodes (d : FileGraph) (key : Int64) : List Entry :=
  ((d.cellRecords.dropWhile fun record => record.1 < key).takeWhile fun record =>
    record.1 = key).filterMap fun record => d.nodes[record.2]?

/-- The nodes nearest to a point. -/
noncomputable def nearestNodes (d : FileGraph) (step : Nextafter) (lat lon : ℝ) (limit : ℤ)
    (maxMeters : ℝ) : Except String (List NodeSnap) :=
  nearestNodesAmong lat lon limit maxMeters
    (visitedNodes lat lon maxMeters step d.idx d.cellNodes)

end FileGraph

/-! ## The full scan -/

open Classical in
/-- The first nodes within the radius, by distance and then by number. -/
noncomputable def fullScan (nodes : List Entry) (lat lon : ℝ) (limit : ℤ) (maxMeters : ℝ) :
    List NodeSnap :=
  (((nodes.map (snapOf lat lon)).filter fun node =>
    node.distanceM ≤ maxMeters).insertionSort (· ≤ ·)).take (min limit 8).toNat

end OsmMini.Core.Snap

/-!
## The nodes around a point are those of a full scan

The window of a circle holds every point within the radius (`snapWindow_holds`): parallels
bound the latitude, and where the circle leaves out the poles the two meridians that touch it
bound the longitude, on one side of the date line or on both. The ranges of longitudes are far
apart, so no cell is visited twice (`nodup_windowCells`). The nodes within the radius are
therefore visited once each, and the short list ends as the beginning of the sorted list of
all of them.

This takes nodes whose coordinates are on the Earth. A graph file is refused otherwise. A graph
in memory is not checked, and a node beyond the date line is then left out.
-/

namespace OsmMini.Core.Snap

open Foundations Foundations.GreatCircle

/-! ## The window holds the circle -/

section Window

variable {lat lon meters : ℝ} (step : Nextafter)

theorem deg2rad_mul_div (x : ℝ) : deg2rad (x * 180 / Real.pi) = x := by
  have pi := Real.pi_pos
  unfold deg2rad
  field_simp

theorem le_of_deg2rad_le {a b : ℝ} (le : deg2rad a ≤ deg2rad b) : a ≤ b := by
  by_contra less
  have pi := Real.pi_pos
  have gap : 0 < deg2rad (a - b) := by
    unfold deg2rad
    have positive : 0 < a - b := by linarith
    positivity
  rw [deg2rad_sub] at gap
  linarith

/-- The angle of a radius is far below a right angle. -/
theorem angular_bounds (positive : 0 < meters) (small : meters ≤ 6371000) :
    0 < meters / 6371000 ∧ meters / 6371000 < Real.pi / 2 := by
  have pi := Real.pi_gt_three
  constructor
  · positivity
  · have tiny : meters / 6371000 ≤ 1 := by
      rw [div_le_one (by norm_num)]
      linarith
    linarith

/-- The half-width of the longitudes. -/
noncomputable def halfWidth (lat meters : ℝ) : ℝ :=
  Real.arcsin (min 1 (Real.sin (meters / 6371000) / Real.cos (deg2rad lat))) * 180 / Real.pi

theorem halfWidth_bounds (query : |lat| ≤ 90) (positive : 0 < meters)
    (small : meters ≤ 6371000) :
    0 ≤ halfWidth lat meters ∧ halfWidth lat meters ≤ 90 := by
  have pi := Real.pi_pos
  obtain ⟨low, high⟩ := angular_bounds positive small
  have sine : 0 ≤ Real.sin (meters / 6371000) :=
    Real.sin_nonneg_of_nonneg_of_le_pi low.le (by linarith)
  have cosine : 0 ≤ Real.cos (deg2rad lat) :=
    Real.cos_nonneg_of_mem_Icc (abs_le.mp (abs_deg2rad_le query))
  have ratio : 0 ≤ min 1 (Real.sin (meters / 6371000) / Real.cos (deg2rad lat)) :=
    le_min zero_le_one (div_nonneg sine cosine)
  constructor
  · have angle := Real.arcsin_nonneg.mpr ratio
    unfold halfWidth
    positivity
  · have angle := Real.arcsin_le_pi_div_two
      (min 1 (Real.sin (meters / 6371000) / Real.cos (deg2rad lat)))
    apply le_of_deg2rad_le
    rw [halfWidth, deg2rad_mul_div]
    refine angle.trans (le_of_eq ?_)
    unfold deg2rad
    ring

/-- **Latitudes of the points within the radius.** -/
theorem abs_lat_sub_le {lat' lon' : ℝ} (query : |lat| ≤ 90) (valid : |lat'| ≤ 90)
    (near : haversineMeters lat lon lat' lon' ≤ meters) :
    |lat' - lat| ≤ meters / 6371000 * 180 / Real.pi := by
  apply le_of_deg2rad_le
  rw [deg2rad_mul_div, ← abs_deg2rad, deg2rad_sub]
  have parallels := abs_sub_le_centralAngle (abs_deg2rad_le query) (abs_deg2rad_le valid)
    (deg2rad (lon' - lon))
  rw [haversineMeters_eq] at near
  refine parallels.trans ?_
  rw [le_div_iff₀ (by norm_num)]
  linarith

/-- **Longitudes of the points within the radius**, where the circle leaves out the poles. -/
theorem abs_lon_sub {lat' lon' : ℝ} (query : |lat| ≤ 90) (valid : |lat'| ≤ 90)
    (positive : 0 < meters) (small : meters ≤ 6371000)
    (room : |lat| + meters / 6371000 * 180 / Real.pi < 90)
    (near : haversineMeters lat lon lat' lon' ≤ meters) :
    |lon' - lon| ≤ halfWidth lat meters ∨ 360 - halfWidth lat meters ≤ |lon' - lon| := by
  have pi := Real.pi_pos
  obtain ⟨low, high⟩ := angular_bounds positive small
  have room' : |deg2rad lat| + meters / 6371000 < Real.pi / 2 := by
    have scaled : deg2rad (|lat| + meters / 6371000 * 180 / Real.pi) < deg2rad 90 := by
      unfold deg2rad
      have pi' := mul_lt_mul_of_pos_right room pi
      linarith
    have sum : deg2rad (|lat| + meters / 6371000 * 180 / Real.pi) =
        |deg2rad lat| + meters / 6371000 := by
      rw [abs_deg2rad, ← deg2rad_mul_div (meters / 6371000)]
      simp only [deg2rad_mul_div]
      unfold deg2rad
      field_simp
    have right : deg2rad 90 = Real.pi / 2 := by
      unfold deg2rad
      ring
    linarith
  have angle : centralAngle (deg2rad lat) (deg2rad lat') (deg2rad (lon' - lon)) ≤
      meters / 6371000 := by
    rw [haversineMeters_eq] at near
    rw [le_div_iff₀ (by norm_num)]
    linarith
  have meridians := cos_le_of_centralAngle_le (abs_deg2rad_le query) (abs_deg2rad_le valid) low.le
    room' angle
  have inner : 0 < Real.cos (deg2rad lat) := by
    rw [← Real.cos_abs]
    exact Real.cos_pos_of_mem_Ioo ⟨by linarith [abs_nonneg (deg2rad lat)], by linarith⟩
  have shorter : Real.sin (meters / 6371000) ≤ Real.cos (deg2rad lat) := by
    rw [← Real.cos_abs, ← Real.sin_pi_div_two_sub]
    exact Real.sin_le_sin_of_le_of_le_pi_div_two (by linarith)
      (by linarith [abs_nonneg (deg2rad lat)]) (by linarith)
  have least : min 1 (Real.sin (meters / 6371000) / Real.cos (deg2rad lat)) =
      Real.sin (meters / 6371000) / Real.cos (deg2rad lat) :=
    min_eq_right ((div_le_one inner).mpr shorter)
  have width : deg2rad (halfWidth lat meters) =
      Real.arcsin (Real.sin (meters / 6371000) / Real.cos (deg2rad lat)) := by
    rw [halfWidth, deg2rad_mul_div, least]
  rw [← width] at meridians
  have nonneg := deg2rad_nonneg (halfWidth_bounds query positive small).1
  rcases near_turn nonneg meridians with here | around
  · left
    apply le_of_deg2rad_le
    rw [← abs_deg2rad]
    exact here
  · right
    apply le_of_deg2rad_le
    rw [← abs_deg2rad, deg2rad_sub 360]
    have turn : deg2rad 360 = 2 * Real.pi := by
      unfold deg2rad
      ring
    rw [turn]
    exact around

/-- The ranges of longitudes: all of them where the circle holds a pole, and otherwise the
half-width to both sides, with a second range across the date line. -/
theorem snapWindow_longitudes (lat lon meters : ℝ) :
    (snapWindow step lat lon meters).longitudes = [(-180, 180)] ∨
      |lat| + meters / 6371000 * 180 / Real.pi < 90 ∧
        (step.down (lon - halfWidth lat meters) ≤ -180 ∧
            (snapWindow step lat lon meters).longitudes =
              [(-180, step.up (lon + halfWidth lat meters)),
                (step.down (lon - halfWidth lat meters) + 360, 180)] ∨
          180 ≤ step.up (lon + halfWidth lat meters) ∧
            (snapWindow step lat lon meters).longitudes =
              [(step.down (lon - halfWidth lat meters), 180),
                (-180, step.up (lon + halfWidth lat meters) - 360)] ∨
          -180 < step.down (lon - halfWidth lat meters) ∧
            step.up (lon + halfWidth lat meters) < 180 ∧
            (snapWindow step lat lon meters).longitudes =
              [(step.down (lon - halfWidth lat meters),
                step.up (lon + halfWidth lat meters))]) := by
  by_cases pole : lat - meters / 6371000 * 180 / Real.pi ≤ -90 ∨
      90 ≤ lat + meters / 6371000 * 180 / Real.pi
  · exact Or.inl (if_pos pole)
  · obtain ⟨south, north⟩ := not_or.mp pole
    rw [not_le] at south north
    have room : |lat| + meters / 6371000 * 180 / Real.pi < 90 := by
      rcases abs_cases lat with ⟨same, -⟩ | ⟨turned, -⟩ <;> linarith
    refine Or.inr ⟨room, ?_⟩
    by_cases westward : step.down (lon - halfWidth lat meters) ≤ -180
    · exact Or.inl ⟨westward, (if_neg pole).trans (if_pos westward)⟩
    · by_cases eastward : 180 ≤ step.up (lon + halfWidth lat meters)
      · exact Or.inr (Or.inl ⟨eastward, (if_neg pole).trans ((if_neg westward).trans (if_pos eastward))⟩)
      · exact Or.inr (Or.inr ⟨not_le.mp westward, not_le.mp eastward,
          (if_neg pole).trans ((if_neg westward).trans (if_neg eastward))⟩)

/-- The half-width to both sides, moved by one step. -/
theorem sides_bounds (query : ValidCoord lat lon) (positive : 0 < meters)
    (small : meters ≤ 1000) :
    lon - halfWidth lat meters - 1 ≤ step.down (lon - halfWidth lat meters) ∧
      step.down (lon - halfWidth lat meters) ≤ lon - halfWidth lat meters ∧
      lon + halfWidth lat meters ≤ step.up (lon + halfWidth lat meters) ∧
      step.up (lon + halfWidth lat meters) ≤ lon + halfWidth lat meters + 1 := by
  obtain ⟨west, east⟩ := abs_le.mp query.2
  obtain ⟨nonneg, atMost⟩ := halfWidth_bounds query.1 positive (small.trans (by norm_num))
  have low := step.near (lon - halfWidth lat meters) (abs_le.mpr ⟨by linarith, by linarith⟩)
  have high := step.near (lon + halfWidth lat meters) (abs_le.mpr ⟨by linarith, by linarith⟩)
  exact ⟨low.1, step.down_le _, step.le_up _, high.2⟩

/-- **The window holds every point within the radius.** -/
theorem snapWindow_holds {lat' lon' : ℝ} (query : ValidCoord lat lon) (valid : ValidCoord lat' lon')
    (positive : 0 < meters) (small : meters ≤ 1000)
    (near : haversineMeters lat lon lat' lon' ≤ meters) :
    (snapWindow step lat lon meters).minLat ≤ lat' ∧
      lat' ≤ (snapWindow step lat lon meters).maxLat ∧
      ∃ range ∈ (snapWindow step lat lon meters).longitudes, range.1 ≤ lon' ∧ lon' ≤ range.2 := by
  obtain ⟨below, above⟩ := abs_le.mp (abs_lat_sub_le query.1 valid.1 near)
  obtain ⟨south, north⟩ := abs_le.mp valid.1
  obtain ⟨west, east⟩ := abs_le.mp valid.2
  refine ⟨(step.down_le _).trans (max_le south (by linarith)),
    (le_min north (by linarith)).trans (step.le_up _), ?_⟩
  have widths := halfWidth_bounds query.1 positive (small.trans (by norm_num))
  have sides := sides_bounds step query positive small
  have bounds := abs_le.mp query.2
  rcases snapWindow_longitudes step lat lon meters with all | ⟨room, parts⟩
  · rw [all]
    exact ⟨(-180, 180), List.mem_singleton_self _, west, east⟩
  · have longitudes := abs_lon_sub query.1 valid.1 positive (small.trans (by norm_num)) room
      near
    rcases parts with ⟨westward, ranges⟩ | ⟨eastward, ranges⟩ | ⟨westInside, eastInside, ranges⟩
    · rw [ranges]
      rcases longitudes with here | around
      · obtain ⟨-, atMost⟩ := abs_le.mp here
        exact ⟨_, List.mem_cons_self, west, by linarith⟩
      · refine ⟨_, List.mem_cons_of_mem _ (List.mem_singleton_self _), ?_, east⟩
        rcases le_abs.mp around with after | before
        · dsimp only
          linarith
        · linarith
    · rw [ranges]
      rcases longitudes with here | around
      · obtain ⟨atLeast, -⟩ := abs_le.mp here
        exact ⟨_, List.mem_cons_self, by linarith, east⟩
      · refine ⟨_, List.mem_cons_of_mem _ (List.mem_singleton_self _), west, ?_⟩
        rcases le_abs.mp around with after | before
        · linarith
        · dsimp only
          linarith
    · rw [ranges]
      rcases longitudes with here | around
      · obtain ⟨atLeast, atMost⟩ := abs_le.mp here
        exact ⟨_, List.mem_singleton_self _, by linarith, by linarith⟩
      · rcases le_abs.mp around with after | before
        · linarith
        · linarith

/-- What the cells of a window take of it: the bounds stay near the Earth, and two ranges of
longitudes are far apart. -/
structure WindowShape (window : NodeSnapWindow) : Prop where
  latitudes : |window.minLat| ≤ 91 ∧ |window.maxLat| ≤ 91
  inside : ∀ range ∈ window.longitudes, |range.1| ≤ 180 ∧ |range.2| ≤ 180
  apart : window.longitudes.Pairwise fun a b => a.2 + 1 ≤ b.1 ∨ b.2 + 1 ≤ a.1

variable (lon) in
theorem snapWindow_latitudes (query : |lat| ≤ 90) (positive : 0 < meters) :
    |(snapWindow step lat lon meters).minLat| ≤ 91 ∧
      |(snapWindow step lat lon meters).maxLat| ≤ 91 := by
  have pi := Real.pi_pos
  obtain ⟨south, north⟩ := abs_le.mp query
  have degrees : 0 ≤ meters / 6371000 * 180 / Real.pi := by positivity
  have lower : |max (-90) (lat - meters / 6371000 * 180 / Real.pi)| ≤ 90 :=
    abs_le.mpr ⟨le_max_left _ _, max_le (by norm_num) (by linarith)⟩
  have upper : |min 90 (lat + meters / 6371000 * 180 / Real.pi)| ≤ 90 :=
    abs_le.mpr ⟨le_min (by norm_num) (by linarith), min_le_left _ _⟩
  obtain ⟨lowerNear, -⟩ := step.near _ (lower.trans (by norm_num))
  obtain ⟨-, upperNear⟩ := step.near _ (upper.trans (by norm_num))
  have lowerLe := step.down_le (max (-90) (lat - meters / 6371000 * 180 / Real.pi))
  have upperLe := step.le_up (min 90 (lat + meters / 6371000 * 180 / Real.pi))
  obtain ⟨lowerLow, lowerHigh⟩ := abs_le.mp lower
  obtain ⟨upperLow, upperHigh⟩ := abs_le.mp upper
  simp only [snapWindow]
  exact ⟨abs_le.mpr ⟨by linarith, by linarith⟩, abs_le.mpr ⟨by linarith, by linarith⟩⟩

theorem snapWindow_shape (query : ValidCoord lat lon) (positive : 0 < meters)
    (small : meters ≤ 1000) : WindowShape (snapWindow step lat lon meters) := by
  obtain ⟨west, east⟩ := abs_le.mp query.2
  have widths := halfWidth_bounds query.1 positive (small.trans (by norm_num))
  have sides := sides_bounds step query positive small
  have edge : |(-180 : ℝ)| ≤ 180 ∧ |(180 : ℝ)| ≤ 180 := by norm_num
  have latitudes := snapWindow_latitudes lon step query.1 positive
  rcases snapWindow_longitudes step lat lon meters with all | ⟨-, parts⟩
  · refine ⟨latitudes, ?_, ?_⟩
    · intro range member
      rw [all] at member
      rw [List.mem_singleton.mp member]
      exact edge
    · rw [all]
      exact List.pairwise_singleton _ _
  · rcases parts with ⟨westward, ranges⟩ | ⟨eastward, ranges⟩ | ⟨westInside, eastInside, ranges⟩
    · refine ⟨latitudes, ?_, ?_⟩
      · intro range member
        rw [ranges] at member
        rcases List.mem_cons.mp member with rfl | second
        · exact ⟨edge.1, abs_le.mpr ⟨by linarith, by linarith⟩⟩
        · rw [List.mem_singleton.mp second]
          exact ⟨abs_le.mpr ⟨by linarith, by linarith⟩, edge.2⟩
      · rw [ranges, List.pairwise_pair]
        left
        linarith
    · refine ⟨latitudes, ?_, ?_⟩
      · intro range member
        rw [ranges] at member
        rcases List.mem_cons.mp member with rfl | second
        · exact ⟨abs_le.mpr ⟨by linarith, by linarith⟩, edge.2⟩
        · rw [List.mem_singleton.mp second]
          exact ⟨edge.1, abs_le.mpr ⟨by linarith, by linarith⟩⟩
      · rw [ranges, List.pairwise_pair]
        right
        linarith
    · refine ⟨latitudes, ?_, ?_⟩
      · intro range member
        rw [ranges] at member
        rw [List.mem_singleton.mp member]
        exact ⟨abs_le.mpr ⟨by linarith, by linarith⟩, abs_le.mpr ⟨by linarith, by linarith⟩⟩
      · rw [ranges]
        exact List.pairwise_singleton _ _

end Window

/-! ## The cells of a window -/

/-- What the search uses of a grid: the cells have their size, the grid lies on the Earth, the
nodes lie on the Earth and inside the grid, and every cell gives its nodes. -/
structure Grid (idx : SpatialIndex) (nodes : List Entry) (cellNodes : Int64 → List Entry) :
    Prop where
  size : idx.cellSize = 0.01
  origin : ValidCoord idx.minLat idx.minLon
  extent : idx.maxX.toInt ≤ 36000 ∧ idx.maxY.toInt ≤ 36000
  valid : ∀ e ∈ nodes, ValidCoord e.2.lat e.2.lon
  inside : ∀ e ∈ nodes, (0 ≤ (idx.place e.2.lat e.2.lon).1 ∧
      (idx.place e.2.lat e.2.lon).1 ≤ idx.maxX.toInt) ∧
    0 ≤ (idx.place e.2.lat e.2.lon).2 ∧ (idx.place e.2.lat e.2.lon).2 ≤ idx.maxY.toInt
  listed : ∀ k, (cellNodes (cellKey k)).Perm
    (nodes.filter fun e => idx.cell e.2.lat e.2.lon = k)

section Cells

variable {idx : SpatialIndex} {window : NodeSnapWindow}

/-- The cell of a corner of a window. -/
theorem place_corner (size : idx.cellSize = 0.01) (origin : ValidCoord idx.minLat idx.minLon)
    {lat lon : ℝ} (latitude : |lat| ≤ 91) (longitude : |lon| ≤ 180) :
    (idx.cell lat lon).1.toInt = ⌊(lat - idx.minLat) / 0.01⌋ ∧
      (idx.cell lat lon).2.toInt = ⌊(lon - idx.minLon) / 0.01⌋ := by
  have latitudes : |lat - idx.minLat| ≤ 360 := by
    have triangle := abs_sub lat idx.minLat
    linarith [origin.1]
  have longitudes : |lon - idx.minLon| ≤ 360 := by
    have triangle := abs_sub lon idx.minLon
    linarith [origin.2]
  rw [SpatialIndex.cell, size]
  exact ⟨(floor_cells latitudes).2.2, (floor_cells longitudes).2.2⟩

theorem floor_mono {a b c : ℝ} (le : a ≤ b) : ⌊(a - c) / 0.01⌋ ≤ ⌊(b - c) / 0.01⌋ := by
  apply Int.floor_le_floor
  have positive : (0 : ℝ) < 0.01 := by norm_num
  gcongr

/-- A degree apart is many cells apart. -/
theorem floor_apart {a b c : ℝ} (apart : a + 1 ≤ b) : ⌊(a - c) / 0.01⌋ < ⌊(b - c) / 0.01⌋ := by
  have hundred : (a - c) / 0.01 + 1 ≤ (b - c) / 0.01 := by
    rw [div_add' _ _ _ (by norm_num)]
    have positive : (0 : ℝ) < 0.01 := by norm_num
    gcongr
    linarith
  have floors := Int.floor_le_floor hundred
  rw [Int.floor_add_one] at floors
  omega

/-- The cells of one range of longitudes. -/
theorem mem_windowCells {k : ℤ × ℤ} : k ∈ windowCells idx window ↔
    ∃ range ∈ window.longitudes,
      (max 0 (idx.cell window.minLat range.1).1.toInt ≤ k.1 ∧
        k.1 ≤ min idx.maxX.toInt (idx.cell window.maxLat range.2).1.toInt) ∧
      max 0 (idx.cell window.minLat range.1).2.toInt ≤ k.2 ∧
        k.2 ≤ min idx.maxY.toInt (idx.cell window.maxLat range.2).2.toInt := by
  simp only [windowCells, List.mem_flatMap, List.mem_map, Int.mem_range_iff, Int.lt_add_one_iff]
  constructor
  · rintro ⟨range, member, x, columns, y, rows, rfl⟩
    exact ⟨range, member, columns, rows⟩
  · rintro ⟨range, member, columns, rows⟩
    exact ⟨range, member, k.1, columns, k.2, rows, rfl⟩

theorem nodup_range (m n : ℤ) : (Int.range m n).Nodup := by
  rw [Int.range]
  exact List.nodup_range.map fun a b same => by omega

/-- **No cell is visited twice.** -/
theorem nodup_windowCells (size : idx.cellSize = 0.01) (origin : ValidCoord idx.minLat idx.minLon)
    (shape : WindowShape window) : (windowCells idx window).Nodup := by
  rw [windowCells, List.nodup_flatMap]
  constructor
  · intro range _
    rw [List.nodup_flatMap]
    refine ⟨fun x _ => (nodup_range _ _).map fun a b same => (Prod.mk.inj same).2, ?_⟩
    refine (nodup_range _ _).imp fun {x x'} different => ?_
    intro k here there
    obtain ⟨_, -, rfl⟩ := List.mem_map.mp here
    obtain ⟨_, -, same⟩ := List.mem_map.mp there
    exact different (Prod.mk.inj same).1.symm
  · have below : ∀ a ∈ window.longitudes, ∀ b ∈ window.longitudes, a.2 + 1 ≤ b.1 →
        (idx.cell window.maxLat a.2).2.toInt < (idx.cell window.minLat b.1).2.toInt := by
      intro a memberA b memberB apart
      rw [(place_corner size origin shape.latitudes.2 (shape.inside a memberA).2).2,
        (place_corner size origin shape.latitudes.1 (shape.inside b memberB).1).2]
      exact floor_apart apart
    refine shape.apart.imp_of_mem fun {a b} memberA memberB apart => ?_
    intro k here there
    simp only [List.mem_flatMap, List.mem_map, Int.mem_range_iff] at here there
    obtain ⟨x, -, y, rows, rfl⟩ := here
    obtain ⟨x', -, y', rows', same⟩ := there
    obtain ⟨rfl, rfl⟩ := Prod.mk.inj same
    rcases apart with west | east
    · have order := below a memberA b memberB west
      omega
    · have order := below b memberB a memberA east
      omega

/-- Elements whose key is one of a list without repetition, collected key by key. -/
theorem flatMap_filter_perm {α κ : Type} [DecidableEq κ] (key : α → κ) (elements : List α)
    {ks : List κ} (distinct : ks.Nodup) :
    (ks.flatMap fun k => elements.filter fun a => key a = k).Perm
      (elements.filter fun a => key a ∈ ks) := by
  induction ks with
  | nil => simp
  | cons k ks ih =>
      obtain ⟨fresh, distinct'⟩ := List.nodup_cons.mp distinct
      rw [List.flatMap_cons]
      refine ((ih distinct').append_left _).trans ?_
      have parts : ((elements : Multiset α).filter fun a => key a = k) +
          (elements : Multiset α).filter (fun a => key a ∈ ks) =
          (elements : Multiset α).filter fun a => key a ∈ k :: ks := by
        rw [Multiset.filter_add_filter]
        have none : (elements : Multiset α).filter (fun a => key a = k ∧ key a ∈ ks) = 0 := by
          rw [Multiset.filter_eq_nil]
          rintro a _ ⟨rfl, member⟩
          exact fresh member
        rw [none, add_zero]
        congr 1
        funext a
        rw [List.mem_cons]
      rw [Multiset.filter_coe, Multiset.filter_coe, Multiset.filter_coe, Multiset.coe_add,
        Multiset.coe_eq_coe] at parts
      exact parts

end Cells

/-! ## The nodes within the radius -/

section Scan

variable {lat lon : ℝ} {maxMeters : ℝ}

/-- Whether a node lies within the radius. -/
noncomputable def within (lat lon maxMeters : ℝ) (e : Entry) : Bool :=
  open Classical in decide (haversineMeters lat lon e.2.lat e.2.lon ≤ maxMeters)

/-- **Every node within the radius is visited, and once.** -/
theorem Grid.visited_perm {idx : SpatialIndex} {nodes : List Entry}
    {cellNodes : Int64 → List Entry} (grid : Grid idx nodes cellNodes) (step : Nextafter)
    (query : ValidCoord lat lon) (positive : 0 < maxMeters) (small : maxMeters ≤ 1000) :
    ((visitedNodes lat lon maxMeters step idx cellNodes).filter (within lat lon maxMeters)).Perm
      (nodes.filter (within lat lon maxMeters)) := by
  have shape := snapWindow_shape step query positive small
  have distinct := nodup_windowCells grid.size grid.origin shape
  have listed : (visitedNodes lat lon maxMeters step idx cellNodes).Perm
      ((windowCells idx (snapWindow step lat lon maxMeters)).flatMap fun k =>
        nodes.filter fun e => idx.place e.2.lat e.2.lon = k) := by
    rw [visitedNodes]
    apply List.Perm.flatMap_left
    intro k member
    refine (grid.listed _).trans (List.Perm.of_eq ?_)
    obtain ⟨range, -, columns, rows⟩ := mem_windowCells.mp member
    have extent := grid.extent
    have fits : -2 ^ 31 ≤ k.1 ∧ k.1 < 2 ^ 31 ∧ -2 ^ 31 ≤ k.2 ∧ k.2 < 2 ^ 31 := by omega
    simp only [cell_eq_iff fits]
  refine ((listed.trans (flatMap_filter_perm _ nodes distinct)).filter _).trans
    (List.Perm.of_eq ?_)
  rw [List.filter_filter]
  apply List.filter_congr
  intro e member
  rw [Bool.and_eq_left_iff_imp]
  intro near
  have near' : haversineMeters lat lon e.2.lat e.2.lon ≤ maxMeters := by
    simpa [within] using near
  obtain ⟨south, north, range, ranged, west, east⟩ :=
    snapWindow_holds step query (grid.valid e member) positive small near'
  obtain ⟨⟨atLeastX, atMostX⟩, atLeastY, atMostY⟩ := grid.inside e member
  obtain ⟨placed, -⟩ := SpatialIndex.place_eq grid.size grid.origin (grid.valid e member)
  obtain ⟨first, last⟩ := shape.inside range ranged
  obtain ⟨leastX, leastY⟩ := place_corner grid.size grid.origin shape.latitudes.1 first
  obtain ⟨mostX, mostY⟩ := place_corner grid.size grid.origin shape.latitudes.2 last
  have visited : idx.place e.2.lat e.2.lon ∈
      windowCells idx (snapWindow step lat lon maxMeters) := by
    rw [mem_windowCells]
    refine ⟨range, ranged, ⟨max_le atLeastX ?_, le_min atMostX ?_⟩, max_le atLeastY ?_,
      le_min atMostY ?_⟩
    · rw [leastX, placed]
      exact floor_mono south
    · rw [mostX, placed]
      exact floor_mono north
    · rw [leastY, placed]
      exact floor_mono west
    · rw [mostY, placed]
      exact floor_mono east
  simpa only [decide_eq_true_eq] using visited

/-- Visiting nodes keeps the first ones within the radius. -/
theorem foldl_visitSnap (limit : ℕ) (visited : List Entry) : ∀ results : List NodeSnap,
    visited.foldl (visitSnap lat lon limit maxMeters) results =
      ((visited.filter (within lat lon maxMeters)).map (snapOf lat lon)).foldl
        (insertBounded limit) results := by
  induction visited with
  | nil => exact fun _ => rfl
  | cons e visited ih =>
      intro results
      rw [List.foldl_cons, ih]
      by_cases near : haversineMeters lat lon e.2.lat e.2.lon ≤ maxMeters
      · have kept : within lat lon maxMeters e = true := by simp [within, near]
        rw [List.filter_cons_of_pos kept, List.map_cons, List.foldl_cons, visitSnap,
          if_neg (not_lt.mpr near)]
      · have left : ¬ within lat lon maxMeters e = true := by simp [within, near]
        rw [List.filter_cons_of_neg left, visitSnap, if_pos (not_le.mp near)]

/-- **The nodes listed are those of a full scan**, whichever nodes are visited besides those
within the radius, and in whatever order. -/
theorem nearestNodesAmong_eq {visited nodes : List Entry} {limit : ℤ}
    (query : ValidCoord lat lon) (asked : 1 ≤ limit) (positive : 0 < maxMeters)
    (small : maxMeters ≤ 1000)
    (perm : (visited.filter (within lat lon maxMeters)).Perm
      (nodes.filter (within lat lon maxMeters))) :
    nearestNodesAmong lat lon limit maxMeters visited =
      .ok (fullScan nodes lat lon limit maxMeters) := by
  have onEarth : ¬ (90 < |lat| ∨ 180 < |lon|) := by
    rintro (north | east)
    · exact absurd query.1 (not_le.mpr north)
    · exact absurd query.2 (not_le.mpr east)
  have accepted : ¬ (limit < 1 ∨ maxMeters ≤ 0 ∨ 1000 < maxMeters) := by
    rintro (few | none | far)
    · omega
    · linarith
    · linarith
  have scanned : (nodes.filter (within lat lon maxMeters)).map (snapOf lat lon) =
      (nodes.map (snapOf lat lon)).filter fun node => open Classical in
        decide (node.distanceM ≤ maxMeters) := by
    rw [List.filter_map]
    rfl
  rw [nearestNodesAmong, if_neg onEarth, if_neg accepted, foldl_visitSnap]
  exact congrArg Except.ok ((topEntries_eq (perm.map _)).trans (by rw [scanned]; rfl))

/-- A full scan lists every node once. -/
theorem nodup_fullScan {nodes : List Entry} (distinct : (nodes.map Sigma.fst).Nodup) (limit : ℤ) :
    ((fullScan nodes lat lon limit maxMeters).map NodeSnap.id).Nodup := by
  have ids : ((nodes.map (snapOf lat lon)).map NodeSnap.id).Nodup := by
    rw [List.map_map]
    exact distinct
  have kept := ids.sublist ((List.filter_sublist (l := nodes.map (snapOf lat lon))
    (p := fun node => open Classical in decide (node.distanceM ≤ maxMeters))).map NodeSnap.id)
  have sorted := ((List.perm_insertionSort (· ≤ ·) _).map NodeSnap.id).nodup_iff.mpr kept
  exact sorted.sublist ((List.take_sublist _ _).map NodeSnap.id)

end Scan

/-! ## The grid of a graph in memory -/

theorem grid_of_build {coords : Listing (Coord ℝ)} {g : MemoryGraph ℝ} {idx : SpatialIndex}
    (lists : Lists coords g) (valid : ∀ e ∈ coords, ValidCoord e.2.lat e.2.lon)
    (built : buildSpatialIndex coords = some idx) :
    Grid idx coords (memoryCellNodes g idx) := by
  have indexed := indexed_of_build valid built
  obtain ⟨nonempty, rfl⟩ := buildSpatialIndex_eq built
  obtain ⟨lowX, highX, lowY, highY⟩ := indexed.extent
  refine ⟨indexed.size, indexed.origin, ⟨highX, highY⟩, valid, ?_, ?_⟩
  · intro e member
    obtain ⟨placed, ⟨-, boundX⟩, -, boundY⟩ :=
      SpatialIndex.place_eq indexed.size indexed.origin (valid e member)
    obtain ⟨-, least, least'⟩ := (emptyIndex coords).addAll_grid coords
    have southmost : ((emptyIndex coords).addAll coords).minLat ≤ e.2.lat := by
      rw [least]
      exact leastOf_le (List.mem_map_of_mem (f := fun e : Entry => e.2.lat) member)
    have westmost : ((emptyIndex coords).addAll coords).minLon ≤ e.2.lon := by
      rw [least']
      exact leastOf_le (List.mem_map_of_mem (f := fun e : Entry => e.2.lon) member)
    have below : ∀ e ∈ coords, ((emptyIndex coords).cell e.2.lat e.2.lon).1.toInt ≤ 36000 ∧
        ((emptyIndex coords).cell e.2.lat e.2.lon).2.toInt ≤ 36000 := by
      intro e listed
      have bounds := (SpatialIndex.place_eq indexed.size indexed.origin (valid e listed)).2
      rw [SpatialIndex.place, SpatialIndex.addAll_cell] at bounds
      exact ⟨bounds.1.2, bounds.2.2⟩
    have zero : (emptyIndex coords).maxX.toInt = 0 ∧ (emptyIndex coords).maxY.toInt = 0 :=
      ⟨rfl, rfl⟩
    have extent := ((emptyIndex coords).addAll_extent coords 36000 36000 (by omega)
      below).2.2.2.2 e member
    rw [← SpatialIndex.addAll_cell (emptyIndex coords) coords] at extent
    refine ⟨⟨?_, extent.1⟩, ?_, extent.2⟩
    · rw [placed]
      exact Int.floor_nonneg.mpr (div_nonneg (by linarith) (by norm_num))
    · rw [placed]
      exact Int.floor_nonneg.mpr (div_nonneg (by linarith) (by norm_num))
  · intro k
    rw [memoryCellNodes, indexed.cells, List.map_map]
    refine List.Perm.of_eq ?_
    conv_rhs => rw [← List.map_id (List.filter _ coords)]
    apply List.map_congr_left
    intro e member
    rw [Function.comp_apply, lookup_of_lists lists (List.mem_of_mem_filter member)]
    rfl

/-! ## The grid of a graph file -/

/-- Records sorted by their keys: those of one key stand together. -/
theorem takeWhile_dropWhile_eq_filter {κ β : Type} [LinearOrder κ] (key : κ)
    {records : List (κ × β)} (sorted : records.Pairwise fun a b => a.1 ≤ b.1) :
    ((records.dropWhile fun record => record.1 < key).takeWhile fun record => record.1 = key) =
      records.filter fun record => record.1 = key := by
  induction records with
  | nil => rfl
  | cons record records ih =>
      obtain ⟨first, rest⟩ := List.pairwise_cons.mp sorted
      rcases lt_trichotomy record.1 key with below | here | above
      · rw [List.dropWhile_cons_of_pos (by simpa using below), ih rest,
          List.filter_cons_of_neg (by simpa using below.ne)]
      · rw [List.dropWhile_cons_of_neg (by simp [here]), List.takeWhile_cons_of_pos (by simp [here]),
          List.filter_cons_of_pos (by simp [here])]
        congr 1
        have further := ih rest
        have stays : records.dropWhile (fun record => record.1 < key) = records := by
          cases records with
          | nil => rfl
          | cons next records =>
              have later := first next List.mem_cons_self
              rw [List.dropWhile_cons_of_neg]
              simpa [← here] using later
        rwa [stays] at further
      · have none : ∀ next ∈ record :: records, next.1 ≠ key := by
          intro next member
          rcases List.mem_cons.mp member with rfl | later
          · exact above.ne'
          · exact (above.trans_le (first next later)).ne'
        have filtered : (record :: records).filter (fun record => record.1 = key) = [] := by
          rw [List.filter_eq_nil_iff]
          intro next member
          simpa using none next member
        rw [filtered, List.dropWhile_cons_of_neg (by simpa using above.le),
          List.takeWhile_cons_of_neg (by simpa using above.ne')]

namespace FileGraph

variable (d : FileGraph)

theorem nodup_nodes : d.nodes.Nodup := by
  have ids : (d.nodes.map Sigma.fst).Nodup := d.ascending.imp ne_of_lt
  exact ids.of_map

/-- The nodes the cell records name are all nodes. -/
theorem recorded_perm : (d.cellRecords.filterMap fun record => d.nodes[record.2]?).Perm d.nodes := by
  have inside : ∀ record ∈ d.cellRecords, (d.nodes[record.2]?).isSome := by
    intro record member
    obtain ⟨e, here, -⟩ := d.matching record member
    rw [here]
    rfl
  have size : (d.cellRecords.filterMap fun record => d.nodes[record.2]?).length =
      d.nodes.length := by
    rw [List.length_filterMap_eq_countP, List.countP_eq_length.mpr inside, d.oneEach]
  have distinct : (d.cellRecords.filterMap fun record => d.nodes[record.2]?).Nodup := by
    rw [List.Nodup, List.pairwise_filterMap]
    refine d.recordsAscend.imp_of_mem ?_
    intro a b memberA memberB ascends e here e' there same
    subst same
    obtain ⟨first, firstHere, firstKey⟩ := d.matching a memberA
    obtain ⟨second, secondHere, secondKey⟩ := d.matching b memberB
    rw [here] at firstHere
    rw [there] at secondHere
    cases firstHere
    cases secondHere
    have sameKey : a.1 = b.1 := firstKey.trans secondKey.symm
    have samePlace : a.2 = b.2 := by
      obtain ⟨belowA, atA⟩ := List.getElem?_eq_some_iff.mp here
      obtain ⟨belowB, atB⟩ := List.getElem?_eq_some_iff.mp there
      exact (d.nodup_nodes.getElem_inj_iff).mp (atA.trans atB.symm)
    rcases ascends with less | ⟨-, less⟩
    · exact absurd sameKey less.ne
    · exact absurd samePlace less.ne
  have subset : (d.cellRecords.filterMap fun record => d.nodes[record.2]?) ⊆ d.nodes := by
    intro e member
    obtain ⟨record, -, here⟩ := List.mem_filterMap.mp member
    exact List.mem_of_getElem? here
  exact (distinct.subperm subset).perm_of_length_le size.ge

/-- The records of a key name the nodes of its cell. -/
theorem cellNodes_perm (k : Int32 × Int32) : (d.cellNodes (cellKey k)).Perm
    (d.nodes.filter fun e => d.idx.cell e.2.lat e.2.lon = k) := by
  have sorted : d.cellRecords.Pairwise fun a b => a.1 ≤ b.1 := by
    refine d.recordsAscend.imp ?_
    rintro a b (less | ⟨same, -⟩)
    · exact less.le
    · exact same.le
  rw [cellNodes, takeWhile_dropWhile_eq_filter _ sorted]
  have filtered : (d.cellRecords.filter fun record => record.1 = cellKey k).filterMap
      (fun record => d.nodes[record.2]?) =
      (d.cellRecords.filterMap fun record => d.nodes[record.2]?).filter fun e =>
        d.idx.cell e.2.lat e.2.lon = k := by
    rw [List.filterMap_filter, List.filter_filterMap]
    apply List.filterMap_congr
    intro record member
    obtain ⟨e, here, key⟩ := d.matching record member
    have cell : record.1 = cellKey (d.idx.cell e.2.lat e.2.lon) := key
    rw [here, cell]
    by_cases same : d.idx.cell e.2.lat e.2.lon = k
    · simp [same, Option.filter]
    · simp [same, Option.filter, cellKey_injective.eq_iff]
  rw [filtered]
  exact d.recorded_perm.filter _

/-- **The cells of a graph file are a grid of its nodes.** -/
theorem grid : Grid d.idx d.nodes d.cellNodes := by
  obtain ⟨south, north, west, east, latitudes, longitudes⟩ := d.validBounds
  have origin : ValidCoord d.bounds.minLat d.bounds.minLon :=
    ⟨abs_le.mpr ⟨by linarith, by linarith⟩, abs_le.mpr ⟨by linarith, by linarith⟩⟩
  have valid : ∀ e ∈ d.nodes, ValidCoord e.2.lat e.2.lon := by
    intro e member
    obtain ⟨least, most, least', most'⟩ := d.contained e member
    exact ⟨abs_le.mpr ⟨by linarith, by linarith⟩, abs_le.mpr ⟨by linarith, by linarith⟩⟩
  have wide : |d.bounds.maxLat - d.bounds.minLat| ≤ 360 := abs_le.mpr ⟨by linarith, by linarith⟩
  have wide' : |d.bounds.maxLon - d.bounds.minLon| ≤ 360 := abs_le.mpr ⟨by linarith, by linarith⟩
  have extentX : d.idx.maxX.toInt = ⌊(d.bounds.maxLat - d.bounds.minLat) / 0.01⌋ :=
    (floor_cells wide).2.2
  have extentY : d.idx.maxY.toInt = ⌊(d.bounds.maxLon - d.bounds.minLon) / 0.01⌋ :=
    (floor_cells wide').2.2
  refine ⟨rfl, origin, ?_, valid, ?_, d.cellNodes_perm⟩
  · rw [extentX, extentY]
    exact ⟨(floor_cells wide).2.1, (floor_cells wide').2.1⟩
  · intro e member
    obtain ⟨least, most, least', most'⟩ := d.contained e member
    obtain ⟨placed, -⟩ := SpatialIndex.place_eq (rfl : d.idx.cellSize = 0.01) origin (valid e member)
    rw [placed, extentX, extentY]
    refine ⟨⟨?_, floor_mono most⟩, ?_, floor_mono most'⟩
    · exact Int.floor_nonneg.mpr (div_nonneg (sub_nonneg.mpr least) (by norm_num))
    · exact Int.floor_nonneg.mpr (div_nonneg (sub_nonneg.mpr least') (by norm_num))

end FileGraph

/-! ## The answer -/

section Answer

variable (step : Nextafter) {lat lon maxMeters : ℝ} {limit : ℤ}

theorem newRouter_nearestNodes {g : MemoryGraph ℝ} {coords order : Listing (Coord ℝ)}
    (lists : Lists coords g) (listed : Lists order g)
    (valid : ∀ e ∈ coords, ValidCoord e.2.lat e.2.lon) (query : ValidCoord lat lon)
    (asked : 1 ≤ limit) (positive : 0 < maxMeters) (small : maxMeters ≤ 1000) :
    (newRouterFromGraph g coords).nearestNodes step order lat lon limit maxMeters =
      .ok (fullScan order lat lon limit maxMeters) := by
  rw [Router.nearestNodes, newRouterFromGraph]
  dsimp only
  cases built : buildSpatialIndex coords with
  | none =>
      exact nearestNodesAmong_eq query asked positive small (List.Perm.refl _)
  | some idx =>
      have visited := (grid_of_build lists valid built).visited_perm step query positive small
      have same : coords.Perm order := List.Perm.trans lists listed.symm
      exact nearestNodesAmong_eq query asked positive small (visited.trans (same.filter _))

end Answer

/-! ## On and off the Earth -/

theorem step_within (x : ℝ) (_ : |x| ≤ 540) : x - 1 ≤ x ∧ x ≤ x + 1 :=
  ⟨(sub_one_lt x).le, (lt_add_one x).le⟩

/-- Steps of no length: exact arithmetic. -/
noncomputable def exactStep : Nextafter where
  down x := x
  up x := x
  down_le _ := le_refl _
  le_up _ := le_refl _
  near := step_within

/-- Two nodes on the date line, one written on either side. -/
noncomputable def datelineGraph : MemoryGraph ℝ where
  coords := GoMap.ofList [(2, ⟨0, -180⟩), (1, ⟨0, 180⟩)]
  adj := ∅

theorem datelineGraph_valid :
    ∀ e ∈ datelineGraph.coords.entries, ValidCoord e.2.lat e.2.lon := by
  have entries : datelineGraph.coords.entries = [⟨1, ⟨0, 180⟩⟩, ⟨2, ⟨0, -180⟩⟩] := rfl
  rw [entries]
  intro e member
  rw [List.mem_cons, List.mem_singleton] at member
  rcases member with rfl | rfl
  · exact ⟨by norm_num, by norm_num⟩
  · exact ⟨by norm_num, by norm_num⟩

/-- A node beyond the date line, at 190 degrees east. -/
noncomputable def eastGraph : MemoryGraph ℝ where
  coords := GoMap.ofList [(1, ⟨0, 190⟩)]
  adj := ∅

theorem eastGraph_coords : eastGraph.coords.entries = [⟨1, ⟨0, 190⟩⟩] := rfl

/-- No range of longitudes reaches a grid that begins beyond the date line. -/
theorem windowCells_east {idx : SpatialIndex} {window : NodeSnapWindow} (size : idx.cellSize = 0.01)
    (east : idx.minLon = 190) (shape : WindowShape window) : windowCells idx window = [] := by
  rw [List.eq_nil_iff_forall_not_mem]
  intro k member
  obtain ⟨range, ranged, -, atLeast, atMost⟩ := mem_windowCells.mp member
  obtain ⟨low, high⟩ := abs_le.mp (shape.inside range ranged).2
  have below : ⌊(range.2 - 190) / 0.01⌋ < 0 := by
    rw [Int.floor_lt, Int.cast_zero]
    exact div_neg_of_neg_of_pos (by linarith) (by norm_num)
  have above : -37000 ≤ ⌊(range.2 - 190) / 0.01⌋ := by
    rw [Int.le_floor, le_div_iff₀ (by norm_num)]
    push_cast
    linarith
  have column : (idx.cell window.maxLat range.2).2.toInt = ⌊(range.2 - 190) / 0.01⌋ := by
    rw [SpatialIndex.cell, size, east]
    exact Int32.toInt_ofInt_of_le (by omega) (by omega)
  omega

end OsmMini.Core.Snap

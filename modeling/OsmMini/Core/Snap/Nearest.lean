import OsmMini.Core.Snap.Scan

/-!
# When the nearest node is found

The search through the grid looks at the cells up to 256 rings around its centre. Where the
border of the rings scanned so far is farther away than the best node, no node of the rings
left is closer (`Indexed.far_of_settled`), so that the search finds the nearest of the nodes
within its reach (`Indexed.leads_scanRings`). Only if it finds none does it look at the whole
graph. It therefore answers with a nearest node of the graph exactly if it reaches one of the
nearest or none at all (`nearestNode_isNearest_iff`).
-/

set_option autoImplicit false

namespace OsmMini.Core.Snap

open Foundations Foundations.GreatCircle

/-- A graph given by the entries of its map, in some order: all of them, each once. -/
def Lists (coords : Listing (Coord ℝ)) (g : MemoryGraph ℝ) : Prop := coords.Perm g.coords.entries

/-- A point on the Earth. -/
def ValidCoord (lat lon : ℝ) : Prop := |lat| ≤ 90 ∧ |lon| ≤ 180

/-! ## The least number of a list -/

theorem foldl_least (l : List ℝ) (start : ℝ) :
    l.foldl (fun least x => if x < least then x else least) start ≤ start ∧
      (∀ x ∈ l, l.foldl (fun least x => if x < least then x else least) start ≤ x) ∧
      (l.foldl (fun least x => if x < least then x else least) start = start ∨
        l.foldl (fun least x => if x < least then x else least) start ∈ l) := by
  induction l generalizing start with
  | nil => exact ⟨le_rfl, fun x member => absurd member List.not_mem_nil, Or.inl rfl⟩
  | cons y l ih =>
      obtain ⟨below, least, found⟩ := ih (if y < start then y else start)
      have first : (if y < start then y else start) ≤ start ∧
          (if y < start then y else start) ≤ y := by
        split_ifs with smaller
        · exact ⟨smaller.le, le_rfl⟩
        · exact ⟨le_rfl, not_lt.mp smaller⟩
      rw [List.foldl_cons]
      refine ⟨below.trans first.1, fun x member => ?_, ?_⟩
      · rcases List.mem_cons.mp member with rfl | later
        · exact below.trans first.2
        · exact least x later
      · rcases found with same | later
        · rw [same]
          split_ifs with smaller
          · exact Or.inr List.mem_cons_self
          · exact Or.inl rfl
        · exact Or.inr (List.mem_cons_of_mem _ later)

theorem leastOf_le {l : List ℝ} {x : ℝ} (member : x ∈ l) : leastOf l ≤ x :=
  (foldl_least l maxFloat64).2.1 x member

theorem abs_leastOf_le {l : List ℝ} {bound : ℝ} (small : bound < maxFloat64) (nonempty : l ≠ [])
    (bounded : ∀ x ∈ l, |x| ≤ bound) : |leastOf l| ≤ bound := by
  obtain ⟨y, member⟩ := List.exists_mem_of_ne_nil l nonempty
  have least : leastOf l ≤ y := leastOf_le member
  rcases (foldl_least l maxFloat64).2.2 with none | found
  · have large : maxFloat64 ≤ y := none ▸ least
    have short := (le_abs_self y).trans (bounded y member)
    linarith
  · exact bounded _ found

/-! ## The index of a graph -/

/-- What the search uses of an index: the cells have their size, the grid lies on the Earth,
and every cell lists its nodes. -/
structure Indexed (coords : Listing (Coord ℝ)) (idx : SpatialIndex) : Prop where
  size : idx.cellSize = 0.01
  origin : ValidCoord idx.minLat idx.minLon
  cells : ∀ k, bucket idx.cells (cellKey k) =
    (coords.filter fun e => idx.cell e.2.lat e.2.lon = k).map Sigma.fst
  extent : 0 ≤ idx.maxX.toInt ∧ idx.maxX.toInt ≤ 36000 ∧
    0 ≤ idx.maxY.toInt ∧ idx.maxY.toInt ≤ 36000

/-- A difference of degrees, counted in cells. -/
theorem floor_cells {x : ℝ} (bounded : |x| ≤ 360) :
    -36000 ≤ ⌊x / 0.01⌋ ∧ ⌊x / 0.01⌋ ≤ 36000 ∧ (Int32.ofInt ⌊x / 0.01⌋).toInt = ⌊x / 0.01⌋ := by
  obtain ⟨low, high⟩ := abs_le.mp bounded
  have hundred : x / 0.01 = 100 * x := by
    norm_num
    ring
  have least : -36000 ≤ ⌊x / 0.01⌋ := by
    rw [Int.le_floor, hundred]
    push_cast
    linarith
  have most : ⌊x / 0.01⌋ ≤ 36000 := by
    have below : ⌊x / 0.01⌋ < 36001 := by
      rw [Int.floor_lt, hundred]
      push_cast
      linarith
    omega
  exact ⟨least, most, Int32.toInt_ofInt_of_le (by omega) (by omega)⟩

/-- The numbers of the cell of a point. -/
noncomputable def SpatialIndex.place (idx : SpatialIndex) (lat lon : ℝ) : ℤ × ℤ :=
  ((idx.cell lat lon).1.toInt, (idx.cell lat lon).2.toInt)

theorem SpatialIndex.place_eq {idx : SpatialIndex} (size : idx.cellSize = 0.01)
    (origin : ValidCoord idx.minLat idx.minLon) {lat lon : ℝ} (valid : ValidCoord lat lon) :
    idx.place lat lon = (⌊(lat - idx.minLat) / 0.01⌋, ⌊(lon - idx.minLon) / 0.01⌋) ∧
      (-36000 ≤ (idx.place lat lon).1 ∧ (idx.place lat lon).1 ≤ 36000) ∧
      -36000 ≤ (idx.place lat lon).2 ∧ (idx.place lat lon).2 ≤ 36000 := by
  have latitudes : |lat - idx.minLat| ≤ 360 := by
    have triangle := abs_sub lat idx.minLat
    linarith [valid.1, origin.1]
  have longitudes : |lon - idx.minLon| ≤ 360 := by
    have triangle := abs_sub lon idx.minLon
    linarith [valid.2, origin.2]
  obtain ⟨lowX, highX, fitsX⟩ := floor_cells latitudes
  obtain ⟨lowY, highY, fitsY⟩ := floor_cells longitudes
  rw [place, cell, size]
  dsimp only
  rw [fitsX, fitsY]
  exact ⟨rfl, ⟨lowX, highX⟩, lowY, highY⟩

theorem origin_of_valid {coords : Listing (Coord ℝ)} (nonempty : coords ≠ [])
    (valid : ∀ e ∈ coords, ValidCoord e.2.lat e.2.lon) :
    ValidCoord (emptyIndex coords).minLat (emptyIndex coords).minLon := by
  have large : (180 : ℝ) < maxFloat64 := lt_maxFloat64 (by norm_num)
  constructor
  · refine abs_leastOf_le (by linarith) (by simpa using nonempty) fun x member => ?_
    obtain ⟨e, listed, rfl⟩ := List.mem_map.mp member
    exact (valid e listed).1
  · refine abs_leastOf_le large (by simpa using nonempty) fun x member => ?_
    obtain ⟨e, listed, rfl⟩ := List.mem_map.mp member
    exact (valid e listed).2

/-- The index of a graph is built from the empty one by filing all nodes. -/
theorem buildSpatialIndex_eq {coords : Listing (Coord ℝ)} {idx : SpatialIndex}
    (built : buildSpatialIndex coords = some idx) :
    coords ≠ [] ∧ idx = (emptyIndex coords).addAll coords := by
  unfold buildSpatialIndex at built
  split_ifs at built with empty
  exact ⟨fun nil => empty (by rw [nil]; rfl), (Option.some.inj built).symm⟩

/-- **The index of a graph on the Earth lists the nodes of every cell.** -/
theorem indexed_of_build {coords : Listing (Coord ℝ)} {idx : SpatialIndex}
    (valid : ∀ e ∈ coords, ValidCoord e.2.lat e.2.lon)
    (built : buildSpatialIndex coords = some idx) : Indexed coords idx := by
  obtain ⟨nonempty, rfl⟩ := buildSpatialIndex_eq built
  obtain ⟨size, least, least'⟩ := (emptyIndex coords).addAll_grid coords
  have origin := origin_of_valid nonempty valid
  have below : ∀ e ∈ coords, ((emptyIndex coords).cell e.2.lat e.2.lon).1.toInt ≤ 36000 ∧
      ((emptyIndex coords).cell e.2.lat e.2.lon).2.toInt ≤ 36000 := fun e listed =>
    have bounds := (SpatialIndex.place_eq (rfl : (emptyIndex coords).cellSize = 0.01) origin
      (valid e listed)).2
    ⟨bounds.1.2, bounds.2.2⟩
  have zero : (emptyIndex coords).maxX.toInt = 0 ∧ (emptyIndex coords).maxY.toInt = 0 := ⟨rfl, rfl⟩
  obtain ⟨growsX, growsY, boundX, boundY, -⟩ := (emptyIndex coords).addAll_extent coords
    36000 36000 (by omega) below
  refine ⟨size.trans rfl, by rw [least, least']; exact origin, fun k => ?_, by omega⟩
  have start : bucket (emptyIndex coords).cells (cellKey k) = [] := bucket_empty _
  rw [SpatialIndex.bucket_addAll, start, List.nil_append]
  simp only [SpatialIndex.addAll_cell]

/-! ## Cells and degrees -/

/-- The number of the ring around a centre in which a cell lies. -/
def ringOf (centre k : ℤ × ℤ) : ℕ := max (k.1 - centre.1).natAbs (k.2 - centre.2).natAbs

theorem mem_ring {centre k : ℤ × ℤ} {radius : ℕ} : k ∈ ring centre radius ↔ ringOf centre k = radius := by
  obtain ⟨x, y⟩ := k
  obtain ⟨x0, y0⟩ := centre
  unfold ring ringOf
  split_ifs with zero
  · simp only [List.mem_singleton, Prod.mk.injEq]
    omega
  · simp only [List.mem_append, List.mem_flatMap, Int.mem_range_iff, List.mem_cons,
      List.not_mem_nil, or_false, Prod.mk.injEq]
    constructor
    · rintro (⟨_, bounds, side | side⟩ | ⟨_, bounds, side | side⟩) <;> omega
    · intro distance
      by_cases edge : y = y0 - radius ∨ y = y0 + radius
      · refine Or.inl ⟨x, by omega, ?_⟩
        omega
      · refine Or.inr ⟨y, by omega, ?_⟩
        omega

/-- A number and its cell on one axis: outside the cells up to a radius it is at least as far
from a point inside as the border is, and it is near a point inside if the cell is near. -/
theorem gap_axis {least q v : ℝ} {c k : ℤ} {radius : ℕ} (cell : k = ⌊(v - least) / 0.01⌋)
    (inside : 0 < min (q - (least + (c - radius : ℤ) * 0.01))
      (least + (c + radius + 1 : ℤ) * 0.01 - q)) :
    (radius < (k - c).natAbs → min (q - (least + (c - radius : ℤ) * 0.01))
      (least + (c + radius + 1 : ℤ) * 0.01 - q) ≤ |v - q|) ∧
    (radius ≤ 256 → (k - c).natAbs ≤ 256 → |v - q| ≤ 10) := by
  have hundred : (v - least) / 0.01 = 100 * (v - least) := by
    norm_num
    ring
  have low : (k : ℝ) ≤ 100 * (v - least) := by
    rw [cell, ← hundred]
    exact Int.floor_le _
  have high : 100 * (v - least) < k + 1 := by
    rw [cell, ← hundred]
    exact Int.lt_floor_add_one _
  obtain ⟨west, east⟩ := lt_min_iff.mp inside
  push_cast at west east
  refine ⟨fun outside => ?_, fun small near => ?_⟩
  · push_cast
    have sides : c + radius + 1 ≤ k ∨ k + 1 ≤ c - radius := by omega
    rcases sides with above | below
    · have beyond : (c : ℝ) + radius + 1 ≤ k := by exact_mod_cast above
      refine (min_le_right _ _).trans (le_trans ?_ (le_abs_self _))
      linarith
    · have beyond : (k : ℝ) + 1 ≤ c - radius := by exact_mod_cast below
      refine (min_le_left _ _).trans (le_trans ?_ (neg_le_abs _))
      linarith
  · have bound : (radius : ℝ) ≤ 256 := by exact_mod_cast small
    have cells : (k : ℝ) ≤ c + 256 := by exact_mod_cast (by omega : k ≤ c + 256)
    have cells' : (c : ℝ) - 256 ≤ k := by exact_mod_cast (by omega : c - 256 ≤ k)
    exact abs_le.mpr ⟨by linarith, by linarith⟩

/-! ## What lies beyond the scanned rings -/

theorem deg2rad_nonneg {d : ℝ} (nonneg : 0 ≤ d) : 0 ≤ deg2rad d := by
  have pi := Real.pi_pos
  unfold deg2rad
  positivity

theorem deg2rad_le {a b : ℝ} (le : a ≤ b) : deg2rad a ≤ deg2rad b := by
  have nonneg := deg2rad_nonneg (sub_nonneg.mpr le)
  rw [deg2rad_sub] at nonneg
  linarith

theorem abs_deg2rad (d : ℝ) : |deg2rad d| = deg2rad |d| := by
  have pi := Real.pi_pos
  rw [deg2rad, abs_div, abs_mul, abs_of_pos pi, deg2rad]
  norm_num

theorem abs_deg2rad_le {d : ℝ} (valid : |d| ≤ 90) : |deg2rad d| ≤ Real.pi / 2 := by
  rw [abs_deg2rad]
  refine (deg2rad_le valid).trans (le_of_eq ?_)
  unfold deg2rad
  ring

/-- **The bound of the search.** A point that differs by the gap in latitude, or by the gap in
longitude but not by nearly a full turn, is at least as far away as the bound says. -/
theorem minPossible_le {lat lon lat' lon' latGap lonGap : ℝ} (valid : |lat| ≤ 90)
    (valid' : |lat'| ≤ 90) (positive : 0 < lonGap)
    (outside : latGap ≤ |lat' - lat| ∨ lonGap ≤ |lon' - lon| ∧ |lon' - lon| ≤ 180) :
    minPossible lat latGap lonGap ≤ haversineMeters lat lon lat' lon' := by
  have north := abs_deg2rad_le valid
  have north' := abs_deg2rad_le valid'
  rw [haversineMeters_eq, minPossible]
  rcases outside with parallels | ⟨meridians, short⟩
  · refine (min_le_left _ _).trans ?_
    have angle := abs_sub_le_centralAngle north north' (deg2rad (lon' - lon))
    rw [← deg2rad_sub, abs_deg2rad] at angle
    have gap := deg2rad_le parallels
    linarith
  · refine (min_le_right _ _).trans ?_
    have fits : |deg2rad (lon' - lon)| ≤ Real.pi := by
      rw [abs_deg2rad]
      refine (deg2rad_le short).trans (le_of_eq ?_)
      unfold deg2rad
      ring
    have turned : Real.cos (deg2rad (lon' - lon)) ≤ Real.cos (deg2rad lonGap) := by
      rw [← Real.cos_abs (deg2rad (lon' - lon))]
      refine Real.cos_le_cos_of_nonneg_of_le_pi (deg2rad_nonneg positive.le) fits ?_
      rw [abs_deg2rad]
      exact deg2rad_le meridians
    have angle := arcsin_le_centralAngle north north' turned
    have least := Real.monotone_arcsin
      (min_le_right 1 |Real.cos (deg2rad lat) * Real.sin (deg2rad lonGap)|)
    linarith

/-! ## The search through the grid -/

section Query

variable {coords : Listing (Coord ℝ)} {g : MemoryGraph ℝ} {idx : SpatialIndex} {lat lon : ℝ}
  {centre : ℤ × ℤ}

/-- The ring of a node around a centre. -/
noncomputable def nodeRing (idx : SpatialIndex) (centre : ℤ × ℤ) (e : Entry) : ℕ :=
  ringOf centre (idx.place e.2.lat e.2.lon)

/-- **No node of a later ring within reach is closer once the search is settled.** -/
theorem Indexed.far_of_settled (indexed : Indexed coords idx) (query : ValidCoord lat lon)
    {b : Best} {radius : ℕ} (small : radius ≤ maxScanRadius)
    (settled : Settled lat lon idx centre radius b) {e : Entry}
    (valid : ValidCoord e.2.lat e.2.lon) (later : radius < nodeRing idx centre e)
    (reached : nodeRing idx centre e ≤ maxScanRadius) : b.best < distanceTo lat lon e := by
  obtain ⟨-, latInside, lonInside, bound⟩ := settled
  obtain ⟨placed, -⟩ := SpatialIndex.place_eq indexed.size indexed.origin valid
  unfold nodeRing ringOf maxScanRadius at *
  rw [placed] at later reached
  dsimp only at later reached
  unfold latGap at latInside bound
  unfold lonGap at lonInside bound
  rw [indexed.size] at latInside lonInside bound
  obtain ⟨latFar, -⟩ := gap_axis (c := centre.1) (v := e.2.lat) rfl latInside
  obtain ⟨lonFar, lonNear⟩ := gap_axis (c := centre.2) (v := e.2.lon) rfl lonInside
  refine bound.trans_le (minPossible_le query.1 valid.1 lonInside ?_)
  rcases lt_max_iff.mp later with rows | columns
  · exact Or.inl (latFar (by omega))
  · refine Or.inr ⟨lonFar (by omega), ?_⟩
    have near := lonNear (by omega) (by omega)
    linarith

theorem lookup_of_lists (lists : Lists coords g) {e : Entry} (member : e ∈ coords) :
    g.coords.lookup e.1 = some e.2 := AList.mem_lookup_iff.mpr (lists.mem_iff.mp member)

/-- Scanning a cell visits the nodes that lie in it. -/
theorem Indexed.scanCell_eq (indexed : Indexed coords idx) (lists : Lists coords g) (b : Best)
    (k : ℤ × ℤ) : scanCell lat lon g idx b k =
      (coords.filter fun e => idx.cell e.2.lat e.2.lon = (Int32.ofInt k.1, Int32.ofInt k.2)).foldl
        (fun b e => visit lat lon b e.1 e.2) b := by
  rw [scanCell, indexed.cells, List.foldl_map]
  refine List.foldl_ext _ _ _ fun b e member => ?_
  rw [lookup_of_lists lists (List.mem_of_mem_filter member)]
  rfl

/-- A cell that an `int32` can number holds the nodes placed there. -/
theorem cell_eq_iff {k : ℤ × ℤ} (fits : -2 ^ 31 ≤ k.1 ∧ k.1 < 2 ^ 31 ∧ -2 ^ 31 ≤ k.2 ∧ k.2 < 2 ^ 31)
    {lat lon : ℝ} : idx.cell lat lon = (Int32.ofInt k.1, Int32.ofInt k.2) ↔
      idx.place lat lon = k := by
  obtain ⟨low, high, low', high'⟩ := fits
  rw [SpatialIndex.place, Prod.ext_iff, Prod.ext_iff, ← Int32.toInt_inj, ← Int32.toInt_inj,
    Int32.toInt_ofInt_of_le low high, Int32.toInt_ofInt_of_le low' high']

/-- Scanning a list of cells. -/
theorem Indexed.leads_scanCells (indexed : Indexed coords idx) (lists : Lists coords g)
    {seen : Entry → Prop} {b : Best} (leads : Leads lat lon seen b) (cells : List (ℤ × ℤ))
    (fit : ∀ k ∈ cells, -2 ^ 31 ≤ k.1 ∧ k.1 < 2 ^ 31 ∧ -2 ^ 31 ≤ k.2 ∧ k.2 < 2 ^ 31) :
    Leads lat lon (fun e => seen e ∨ e ∈ coords ∧ idx.place e.2.lat e.2.lon ∈ cells)
      (cells.foldl (scanCell lat lon g idx) b) := by
  induction cells generalizing seen b with
  | nil => exact leads.congr fun e => by simp
  | cons k cells ih =>
      have scanned := leads.visitAll (coords.filter fun e =>
        idx.cell e.2.lat e.2.lon = (Int32.ofInt k.1, Int32.ofInt k.2))
      rw [← indexed.scanCell_eq lists] at scanned
      refine (ih scanned fun k' member => fit k' (List.mem_cons_of_mem _ member)).congr fun e => ?_
      rw [List.mem_filter, decide_eq_true_iff, cell_eq_iff (fit k List.mem_cons_self),
        List.mem_cons]
      tauto

/-- A leader stays one when only nodes that are no closer are added. -/
theorem Leads.extend {seen seen' : Entry → Prop} {b : Best} (leads : Leads lat lon seen b)
    (found : b.bestID ≠ 0) (more : ∀ e, seen e → seen' e)
    (far : ∀ e, seen' e → ¬ seen e → b.best ≤ distanceTo lat lon e) : Leads lat lon seen' b := by
  rcases leads with ⟨rfl, -⟩ | ⟨e, member, rfl, least⟩
  · exact absurd rfl found
  · refine Or.inr ⟨e, more e member, rfl, fun x known => ?_⟩
    by_cases old : seen x
    · exact least x old
    · exact far x known old

/-- **The rings find the nearest of the nodes within reach.** -/
theorem Indexed.leads_scanRings (indexed : Indexed coords idx) (lists : Lists coords g)
    (valid : ∀ e ∈ coords, ValidCoord e.2.lat e.2.lon) (query : ValidCoord lat lon)
    (inGrid : 0 ≤ centre.1 ∧ centre.1 ≤ 36000 ∧ 0 ≤ centre.2 ∧ centre.2 ≤ 36000)
    {rings radius : ℕ} (total : radius + rings = maxScanRadius + 1) {b : Best}
    (leads : Leads lat lon (fun e => e ∈ coords ∧ nodeRing idx centre e < radius) b) :
    Leads lat lon (fun e => e ∈ coords ∧ nodeRing idx centre e ≤ maxScanRadius)
      (scanRings lat lon g idx centre rings radius b) := by
  induction rings generalizing radius b with
  | zero =>
      rw [scanRings]
      have whole : radius = maxScanRadius + 1 := total
      exact leads.congr fun e => by rw [whole, Nat.lt_succ_iff]
  | succ rings ih =>
      have fit : ∀ k ∈ ring centre radius,
          -2 ^ 31 ≤ k.1 ∧ k.1 < 2 ^ 31 ∧ -2 ^ 31 ≤ k.2 ∧ k.2 < 2 ^ 31 := by
        intro k member
        have distance := mem_ring.mp member
        unfold ringOf maxScanRadius at *
        omega
      have scanned : Leads lat lon (fun e => e ∈ coords ∧ nodeRing idx centre e < radius + 1)
          ((ring centre radius).foldl (scanCell lat lon g idx) b) := by
        refine (indexed.leads_scanCells lists leads _ fit).congr fun e => ?_
        rw [mem_ring, ← and_or_left, Nat.lt_succ_iff_lt_or_eq]
        rfl
      rw [scanRings]
      split_ifs with settled
      · refine scanned.extend settled.1 (fun e near => ⟨near.1, by omega⟩) fun e known new => ?_
        refine (indexed.far_of_settled query (by omega) settled (valid e known.1) ?_ known.2).le
        by_contra near
        exact new ⟨known.1, by omega⟩
      · have total' : radius + 1 + rings = maxScanRadius + 1 := by omega
        have rest := ih total' scanned
        rwa [Nat.cast_add_one] at rest

theorem clamp_toInt {i maxI : Int32} (nonneg : 0 ≤ maxI.toInt) :
    (clamp i maxI).toInt = max 0 (min i.toInt maxI.toInt) := by
  have zero : (0 : Int32).toInt = 0 := rfl
  simp only [clamp, gt_iff_lt, Int32.lt_iff_toInt_lt]
  split_ifs <;> omega

/-- The search starts at the cell of the grid that is next to the point. -/
theorem Indexed.centre_eq (indexed : Indexed coords idx) (lat lon : ℝ) :
    Snap.centre lat lon idx = (max 0 (min (idx.place lat lon).1 idx.maxX.toInt),
      max 0 (min (idx.place lat lon).2 idx.maxY.toInt)) := by
  obtain ⟨lowX, -, lowY, -⟩ := indexed.extent
  exact Prod.ext (clamp_toInt lowX) (clamp_toInt lowY)

theorem Indexed.centre_inGrid (indexed : Indexed coords idx) (lat lon : ℝ) :
    0 ≤ (Snap.centre lat lon idx).1 ∧ (Snap.centre lat lon idx).1 ≤ 36000 ∧
      0 ≤ (Snap.centre lat lon idx).2 ∧ (Snap.centre lat lon idx).2 ≤ 36000 := by
  obtain ⟨lowX, highX, lowY, highY⟩ := indexed.extent
  rw [indexed.centre_eq]
  dsimp only
  omega

/-! ## The answer -/

/-- An answer names a node of the graph with its distance, and no node is closer; there is
none only for a graph without nodes. -/
def IsNearest (coords : Listing (Coord ℝ)) (lat lon : ℝ) : Option (Int64 × ℝ) → Prop
  | none => coords = []
  | some (id, d) => ∃ e ∈ coords, e.1 = id ∧ distanceTo lat lon e = d ∧
      ∀ e' ∈ coords, d ≤ distanceTo lat lon e'

/-- Every node has a number other than 0 and an edge that leaves it. -/
def Routable (coords : Listing (Coord ℝ)) (g : MemoryGraph ℝ) : Prop :=
  ∀ e ∈ coords, e.1 ≠ 0 ∧ 0 < ((g.adj.lookup e.1).getD []).length

/-- A scan of the whole graph visits every node. -/
theorem leads_brute (lat lon : ℝ) (routable : Routable coords g) : Leads lat lon (fun e => e ∈ coords)
    (coords.foldl (fun b e =>
      if 0 < ((g.adj.lookup e.1).getD []).length then visit lat lon b e.1 e.2 else b) noBest) := by
  have every : coords.foldl (fun b e =>
      if 0 < ((g.adj.lookup e.1).getD []).length then visit lat lon b e.1 e.2 else b) noBest =
      coords.foldl (fun b e => visit lat lon b e.1 e.2) noBest :=
    List.foldl_ext _ _ _ fun b e member => if_pos (routable e member).2
  rw [every]
  exact (leads_noBest.visitAll coords).congr fun e => by simp

/-- **A scan of the whole graph finds a nearest node.** -/
theorem nearestNodeBrute_isNearest (routable : Routable coords g) :
    IsNearest coords lat lon (nearestNodeBrute lat lon g coords) := by
  unfold nearestNodeBrute
  rcases leads_brute lat lon routable with ⟨start, empty⟩ | ⟨e, member, best, least⟩
  · rw [start]
    simp only [noBest, if_true]
    exact List.eq_nil_iff_forall_not_mem.mpr empty
  · have finite : distanceTo lat lon e ≠ maxFloat64 := (haversineMeters_lt _ _ _ _).ne
    rw [best]
    simp only [if_neg finite]
    exact ⟨e, member, rfl, rfl, least⟩

/-- Two nearest nodes are equally far away. -/
theorem IsNearest.unique {a b : Option (Int64 × ℝ)} (first : IsNearest coords lat lon a)
    (second : IsNearest coords lat lon b) : a.map Prod.snd = b.map Prod.snd := by
  cases a with
  | none =>
      cases b with
      | none => rfl
      | some b =>
          obtain ⟨e, member, -⟩ := second
          rw [show coords = [] from first] at member
          exact absurd member List.not_mem_nil
  | some a =>
      obtain ⟨e, member, -, distance, least⟩ := first
      cases b with
      | none =>
          rw [show coords = [] from second] at member
          exact absurd member List.not_mem_nil
      | some b =>
          obtain ⟨e', member', -, distance', least'⟩ := second
          have same : a.2 = b.2 :=
            le_antisymm (distance' ▸ least e' member') (distance ▸ least' e member)
          rw [Option.map_some, Option.map_some, same]

/-- The nodes the search through the grid can reach. -/
def Reached (idx : SpatialIndex) (lat lon : ℝ) (e : Entry) : Prop :=
  nodeRing idx (Snap.centre lat lon idx) e ≤ maxScanRadius

/-- **What the search answers**: the nearest of the nodes within its reach, or, if there are
none, what the scan of the whole graph answers. -/
theorem Indexed.nearestNode_cases (indexed : Indexed coords idx) (lists : Lists coords g)
    (order : Listing (Coord ℝ)) (valid : ∀ e ∈ coords, ValidCoord e.2.lat e.2.lon)
    (query : ValidCoord lat lon) (routable : Routable coords g) :
    ((∀ e ∈ coords, ¬ Reached idx lat lon e) ∧
      (⟨g, some idx⟩ : Router).nearestNode lat lon order = nearestNodeBrute lat lon g order) ∨
    ∃ e ∈ coords, Reached idx lat lon e ∧
      (⟨g, some idx⟩ : Router).nearestNode lat lon order = some (e.1, distanceTo lat lon e) ∧
      ∀ e' ∈ coords, Reached idx lat lon e' → distanceTo lat lon e ≤ distanceTo lat lon e' := by
  have start : Leads lat lon
      (fun e => e ∈ coords ∧ nodeRing idx (Snap.centre lat lon idx) e < 0) noBest :=
    leads_noBest.congr fun e => by simp
  have leads := indexed.leads_scanRings lists valid query (indexed.centre_inGrid lat lon)
    (Nat.zero_add (maxScanRadius + 1)) start
  rw [Nat.cast_zero] at leads
  unfold Router.nearestNode
  dsimp only
  rcases leads with ⟨same, unreached⟩ | ⟨e, ⟨member, near⟩, same, least⟩
  · refine Or.inl ⟨fun e member near => unreached e ⟨member, near⟩, ?_⟩
    rw [same]
    exact if_neg fun numbered => numbered rfl
  · refine Or.inr ⟨e, member, near, ?_, fun x known close => least x ⟨known, close⟩⟩
    rw [same]
    exact if_pos (routable e member).1

end Query

/-- Some nearest node lies within reach of the search, or no node does. -/
def ReachesNearest (coords : Listing (Coord ℝ)) (idx : SpatialIndex) (lat lon : ℝ) : Prop :=
  (∀ e ∈ coords, ¬ Reached idx lat lon e) ∨
    ∃ e ∈ coords, Reached idx lat lon e ∧ ∀ e' ∈ coords, distanceTo lat lon e ≤ distanceTo lat lon e'

/-- The search agrees with the scan of the whole graph: it names a nearest node, with the same
distance. -/
def MatchesBrute (g : MemoryGraph ℝ) (coords order : Listing (Coord ℝ)) (lat lon : ℝ) : Prop :=
  IsNearest coords lat lon ((newRouterFromGraph g coords).nearestNode lat lon order) ∧
    ((newRouterFromGraph g coords).nearestNode lat lon order).map Prod.snd =
      (nearestNodeBrute lat lon g order).map Prod.snd

section Answer

variable {coords order : Listing (Coord ℝ)} {g : MemoryGraph ℝ} {lat lon : ℝ}

theorem IsNearest.perm {answer : Option (Int64 × ℝ)} (nearest : IsNearest order lat lon answer)
    (perm : order.Perm coords) : IsNearest coords lat lon answer := by
  cases answer with
  | none =>
      have empty : order = [] := nearest
      rw [empty] at perm
      exact List.nil_perm.mp perm
  | some answer =>
      obtain ⟨e, member, named, distance, least⟩ := nearest
      exact ⟨e, perm.mem_iff.mp member, named, distance,
        fun e' member' => least e' (perm.mem_iff.mpr member')⟩

theorem matchesBrute_iff (perm : order.Perm coords) (routable : Routable order g) :
    MatchesBrute g coords order lat lon ↔
      IsNearest coords lat lon ((newRouterFromGraph g coords).nearestNode lat lon order) :=
  ⟨And.left, fun nearest =>
    ⟨nearest, nearest.unique ((nearestNodeBrute_isNearest routable).perm perm)⟩⟩

/-- **When the search finds a nearest node**: exactly if it reaches one of the nearest nodes,
or no node at all. -/
theorem nearestNode_matchesBrute_iff (lists : Lists coords g) (listed : Lists order g)
    (routable : Routable coords g) (valid : ∀ e ∈ coords, ValidCoord e.2.lat e.2.lon)
    (query : ValidCoord lat lon) : MatchesBrute g coords order lat lon ↔
      ∀ idx, buildSpatialIndex coords = some idx → ReachesNearest coords idx lat lon := by
  have perm : order.Perm coords := List.Perm.trans listed lists.symm
  have routable' : Routable order g := fun e member => routable e (perm.mem_iff.mp member)
  have brute : IsNearest coords lat lon (nearestNodeBrute lat lon g order) :=
    (nearestNodeBrute_isNearest routable').perm perm
  rw [matchesBrute_iff perm routable', newRouterFromGraph]
  cases built : buildSpatialIndex coords with
  | none =>
      have answer : (⟨g, none⟩ : Router).nearestNode lat lon order =
          nearestNodeBrute lat lon g order := rfl
      rw [answer]
      exact ⟨fun _ idx impossible => (nomatch impossible), fun _ => brute⟩
  | some idx =>
      have indexed := indexed_of_build valid built
      constructor
      · intro nearest other same
        cases same
        rcases indexed.nearestNode_cases lists order valid query routable with
          ⟨unreached, -⟩ | ⟨e, member, reached, answer, -⟩
        · exact Or.inl unreached
        · rw [answer] at nearest
          obtain ⟨-, -, -, -, least⟩ := nearest
          exact Or.inr ⟨e, member, reached, least⟩
      · intro reaches
        rcases indexed.nearestNode_cases lists order valid query routable with
          ⟨-, answer⟩ | ⟨e, member, reached, answer, nearest⟩
        · rw [answer]
          exact brute
        · rw [answer]
          rcases reaches idx rfl with unreached | ⟨first, member', reached', least⟩
          · exact absurd reached (unreached e member)
          · exact ⟨e, member, rfl, rfl, fun e' known =>
              (nearest first member' reached').trans (least e' known)⟩

end Answer

/-! ## A graph wider than the reach -/

/-- Two nodes, three degrees of longitude apart. -/
noncomputable def wideGraph : MemoryGraph ℝ where
  coords := GoMap.ofList [(2, ⟨2, 3⟩), (1, ⟨0, 0⟩)]
  adj := GoMap.ofList [(1, [⟨2, 400000, 80, 0, 0, "primary"⟩]), (2, [⟨1, 400000, 80, 0, 0, "primary"⟩])]

theorem wideGraph_coords : wideGraph.coords.entries = [⟨1, ⟨0, 0⟩⟩, ⟨2, ⟨2, 3⟩⟩] := rfl

theorem wideGraph_valid : ∀ e ∈ wideGraph.coords.entries, ValidCoord e.2.lat e.2.lon := by
  rw [wideGraph_coords]
  intro e member
  simp only [List.mem_cons, List.not_mem_nil, or_false] at member
  rcases member with rfl | rfl <;> constructor <;> norm_num

theorem wideGraph_routable : Routable wideGraph.coords.entries wideGraph := by
  rw [wideGraph_coords]
  intro e member
  simp only [List.mem_cons, List.not_mem_nil, or_false] at member
  rcases member with rfl | rfl
  · exact ⟨by decide, Nat.zero_lt_one⟩
  · exact ⟨by decide, Nat.zero_lt_one⟩

theorem nearestNode_matchesBrute_iff_wideGraph :
    MatchesBrute wideGraph wideGraph.coords.entries wideGraph.coords.entries 90 0 ↔
      ∀ idx, buildSpatialIndex wideGraph.coords.entries = some idx →
        ReachesNearest wideGraph.coords.entries idx 90 0 :=
  nearestNode_matchesBrute_iff (List.Perm.refl _) (List.Perm.refl _) wideGraph_routable
    wideGraph_valid ⟨by norm_num, by norm_num⟩

/-- The distance from the north pole. -/
theorem haversineMeters_pole {lat lon : ℝ} (valid : |lat| ≤ 90) :
    haversineMeters 90 0 lat lon = 6371000 * deg2rad (90 - lat) := by
  have pole : deg2rad 90 = Real.pi / 2 := by
    unfold deg2rad
    ring
  obtain ⟨south, north⟩ := abs_le.mp (abs_deg2rad_le valid)
  rw [haversineMeters_eq, pole, centralAngle_pole south north, deg2rad_sub, pole]

theorem leastOf_pair {a b : ℝ} (le : a ≤ b) (small : a ≤ 2 ^ 52) : leastOf [a, b] = a := by
  rw [leastOf, List.foldl_cons, List.foldl_cons, List.foldl_nil, if_pos (lt_maxFloat64 small),
    if_neg (not_lt.mpr le)]

/-- The grid of the wide graph begins at its first node. -/
theorem wideGraph_origin : (emptyIndex wideGraph.coords.entries).minLat = 0 ∧
    (emptyIndex wideGraph.coords.entries).minLon = 0 := by
  rw [wideGraph_coords]
  exact ⟨leastOf_pair (by norm_num) (by norm_num), leastOf_pair (by norm_num) (by norm_num)⟩

theorem wideGraph_place {idx : SpatialIndex} (built : buildSpatialIndex wideGraph.coords.entries = some idx)
    {lat lon : ℝ} (valid : ValidCoord lat lon) : idx.place lat lon = (⌊100 * lat⌋, ⌊100 * lon⌋) := by
  have indexed := indexed_of_build wideGraph_valid built
  obtain ⟨-, rfl⟩ := buildSpatialIndex_eq built
  obtain ⟨size, least, least'⟩ :=
    (emptyIndex wideGraph.coords.entries).addAll_grid wideGraph.coords.entries
  rw [(SpatialIndex.place_eq indexed.size indexed.origin valid).1, least, least',
    wideGraph_origin.1, wideGraph_origin.2]
  congr 2 <;> norm_num <;> ring

/-- The grid of the wide graph has no cells north of its second node. -/
theorem wideGraph_extent {idx : SpatialIndex}
    (built : buildSpatialIndex wideGraph.coords.entries = some idx) : idx.maxX.toInt ≤ 200 := by
  have south : idx.place 0 0 = (0, 0) := by
    rw [wideGraph_place built ⟨by norm_num, by norm_num⟩]
    norm_num
  have north : idx.place 2 3 = (200, 300) := by
    rw [wideGraph_place built ⟨by norm_num, by norm_num⟩]
    norm_num
  obtain ⟨-, rfl⟩ := buildSpatialIndex_eq built
  simp only [SpatialIndex.place, SpatialIndex.addAll_cell, Prod.mk.injEq] at north south
  have below : ∀ e ∈ wideGraph.coords.entries,
      ((emptyIndex wideGraph.coords.entries).cell e.2.lat e.2.lon).1.toInt ≤ 200 ∧
        ((emptyIndex wideGraph.coords.entries).cell e.2.lat e.2.lon).2.toInt ≤ 300 := by
    intro e member
    rw [wideGraph_coords, List.mem_cons, List.mem_singleton] at member
    rcases member with rfl | rfl
    · exact ⟨south.1.trans_le (by norm_num), south.2.trans_le (by norm_num)⟩
    · exact ⟨north.1.le, north.2.le⟩
  have start : (emptyIndex wideGraph.coords.entries).maxX.toInt ≤ 200 ∧
      (emptyIndex wideGraph.coords.entries).maxY.toInt ≤ 300 := ⟨by decide, by decide⟩
  exact ((emptyIndex wideGraph.coords.entries).addAll_extent wideGraph.coords.entries
    200 300 start below).2.2.1

/-- From the pole the search finds the southern node, although the other one is nearer. -/
theorem not_matchesBrute_wideGraph : Lists wideGraph.coords.entries wideGraph ∧
    Routable wideGraph.coords.entries wideGraph ∧
    (∀ e ∈ wideGraph.coords.entries, ValidCoord e.2.lat e.2.lon) ∧ ValidCoord 90 0 ∧
    ¬ MatchesBrute wideGraph wideGraph.coords.entries wideGraph.coords.entries 90 0 := by
  have query : ValidCoord 90 0 := ⟨by norm_num, by norm_num⟩
  refine ⟨List.Perm.refl _, wideGraph_routable, wideGraph_valid, query, fun found => ?_⟩
  have nearest := found.1
  cases built : buildSpatialIndex wideGraph.coords.entries with
  | none =>
      rw [wideGraph_coords] at built
      cases built
  | some idx =>
      have indexed := indexed_of_build wideGraph_valid built
      have low := wideGraph_extent built
      obtain ⟨nonneg, -⟩ := indexed.extent
      have start := indexed.centre_eq 90 0
      rw [wideGraph_place built query, mul_zero, Int.floor_zero] at start
      -- The search starts in one of the first two hundred rows and in the first column.
      have south : Reached idx 90 0 ⟨1, ⟨0, 0⟩⟩ := by
        unfold Reached nodeRing ringOf maxScanRadius
        rw [start, wideGraph_place built ⟨by norm_num, by norm_num⟩]
        simp only [mul_zero, Int.floor_zero]
        omega
      have north : ¬ Reached idx 90 0 ⟨2, ⟨2, 3⟩⟩ := by
        unfold Reached nodeRing ringOf maxScanRadius
        rw [start, wideGraph_place built ⟨by norm_num, by norm_num⟩]
        norm_num
      rw [newRouterFromGraph, built] at nearest
      rcases indexed.nearestNode_cases (List.Perm.refl _) wideGraph.coords.entries wideGraph_valid
        query wideGraph_routable with ⟨unreached, -⟩ | ⟨e, member, reached, answer, -⟩
      · exact unreached ⟨1, ⟨0, 0⟩⟩ (wideGraph_coords ▸ List.mem_cons_self) south
      · rw [answer] at nearest
        obtain ⟨-, -, -, -, least⟩ := nearest
        rw [wideGraph_coords] at member least
        have least := least ⟨2, ⟨2, 3⟩⟩ (List.mem_cons_of_mem _ List.mem_cons_self)
        rw [List.mem_cons, List.mem_singleton] at member
        rcases member with rfl | rfl
        · rw [distanceTo, distanceTo, haversineMeters_pole (by norm_num),
            haversineMeters_pole (by norm_num)] at least
          unfold deg2rad at least
          linarith [Real.pi_pos]
        · exact north reached

end OsmMini.Core.Snap

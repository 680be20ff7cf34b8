import OsmMini.Core.Territory.Store

/-!
# Looking territories up

A query finds the areas that contain its point and that are filed under the cell of the
point. An area is filed under the cells of its bounding box, but its outline also takes in
points outside of the box: points within the tolerance of an edge, and points of a hole
that lies apart. Such a point is found exactly when its cell is one of the box.
-/

set_option autoImplicit false

namespace OsmMini.Core

open OsmMini.Foundations

/-! ## Ranges of cells -/

theorem mem_int32Range {lo hi x : Int32} : x ∈ int32Range lo hi ↔ lo ≤ x ∧ x ≤ hi := by
  have loLe := lo.le_toInt
  have hiLt := hi.toInt_lt
  have exact_ofInt : ∀ i : ℕ, lo.toInt + i ≤ hi.toInt →
      (Int32.ofInt (lo.toInt + i)).toInt = lo.toInt + i := fun i le =>
    Int32.toInt_ofInt_of_le (by omega) (by omega)
  simp only [int32Range, List.mem_map, List.mem_range, Int32.le_iff_toInt_le]
  constructor
  · rintro ⟨i, within, rfl⟩
    rw [exact_ofInt i (by omega)]
    omega
  · rintro ⟨above, below⟩
    refine ⟨(x.toInt - lo.toInt).toNat, by omega, Int32.toInt.inj ?_⟩
    rw [exact_ofInt _ (by omega)]
    omega

theorem int32Range_nodup (lo hi : Int32) : (int32Range lo hi).Nodup := by
  have loLe := lo.le_toInt
  have hiLt := hi.toInt_lt
  refine List.Nodup.map_on ?_ List.nodup_range
  intro i iWithin j jWithin same
  have values := congrArg Int32.toInt same
  rw [List.mem_range] at iWithin jWithin
  rw [Int32.toInt_ofInt_of_le (by omega) (by omega), Int32.toInt_ofInt_of_le (by omega) (by omega)]
    at values
  omega

section Grid

variable {K Properties : Type} [Field K] [LinearOrder K] [FloorRing K] (toInt32 : ℤ → Int32)

namespace TerritoryGrid

variable (idx : TerritoryGrid K Properties)

/-- A cell lies between the cells of the corners of an area's box. -/
def Covers (t : Territory K Properties) (cell : Int32 × Int32) : Prop :=
  ∃ bb, t.geometry.bbox = some bb ∧
    (idx.cellCoords toInt32 bb.minLat bb.minLon).1 ≤ cell.1 ∧
    cell.1 ≤ (idx.cellCoords toInt32 bb.maxLat bb.maxLon).1 ∧
    (idx.cellCoords toInt32 bb.minLat bb.minLon).2 ≤ cell.2 ∧
    cell.2 ≤ (idx.cellCoords toInt32 bb.maxLat bb.maxLon).2

/-- An area is filed under the cells of its box. -/
theorem mem_keysOf {t : Territory K Properties} {cell : Int32 × Int32} :
    cellKey cell ∈ idx.keysOf toInt32 t ↔ idx.Covers toInt32 t cell := by
  unfold keysOf Covers
  cases box : t.geometry.bbox with
  | none => simp
  | some bb =>
      simp only [boxKeys, List.mem_flatMap, List.mem_map, mem_int32Range, Option.some.injEq,
        exists_eq_left']
      constructor
      · rintro ⟨ix, ⟨ixLow, ixHigh⟩, iy, ⟨iyLow, iyHigh⟩, same⟩
        obtain rfl := cellKey_injective same
        exact ⟨ixLow, ixHigh, iyLow, iyHigh⟩
      · rintro ⟨ixLow, ixHigh, iyLow, iyHigh⟩
        exact ⟨cell.1, ⟨ixLow, ixHigh⟩, cell.2, ⟨iyLow, iyHigh⟩, rfl⟩

theorem keysOf_nodup (t : Territory K Properties) : (idx.keysOf toInt32 t).Nodup := by
  unfold keysOf
  split
  · exact List.nodup_nil
  · refine List.nodup_flatMap.mpr ⟨fun ix _ => ?_, ?_⟩
    · refine (int32Range_nodup _ _).map fun iy iy' same => ?_
      exact (Prod.mk.inj (cellKey_injective same)).2
    · refine (int32Range_nodup _ _).imp fun {ix ix'} apart => ?_
      intro key here there
      obtain ⟨iy, -, rfl⟩ := List.mem_map.mp here
      obtain ⟨iy', -, same⟩ := List.mem_map.mp there
      exact apart (Prod.mk.inj (cellKey_injective same)).1.symm

end TerritoryGrid

/-- Filing areas changes nothing but the cells. -/
theorem foldl_insert (idx : TerritoryGrid K Properties) (territories : List (Territory K Properties)) :
    territories.foldl (fun idx t => idx.insert toInt32 t) idx =
      { idx with
        cells := territories.foldl (fun m t => pushAll m (idx.keysOf toInt32 t) t) idx.cells } := by
  induction territories generalizing idx with
  | nil => rfl
  | cons t territories ih => exact ih (idx.insert toInt32 t)

/-- The candidates of a point are the areas filed under its cell. -/
theorem candidatesAt_build (territories : List (Territory K Properties)) (lat lon : K) :
    (buildTerritoryIndex toInt32 territories).candidatesAt toInt32 lat lon =
      territories.filter fun t =>
        cellKey ((emptyGrid territories).cellCoords toInt32 lat lon) ∈
          (emptyGrid territories).keysOf toInt32 t := by
  have empty : (emptyGrid territories).cells = ∅ := by
    unfold emptyGrid
    split
    · rfl
    · rfl
  rw [buildTerritoryIndex, foldl_insert, TerritoryGrid.candidatesAt]
  exact (bucket_foldl_pushAll ((emptyGrid territories).keysOf_nodup toInt32) _ _ _).trans
    (by rw [empty, bucket_empty, List.nil_append]; rfl)

/-! ## Layers -/

omit [Field K] [LinearOrder K] [FloorRing K] in
theorem territoryLess_iff (a b : Territory K Properties) :
    territoryLess a b = true ↔ a.id < b.id :=
  decide_eq_true_iff

omit [Field K] [LinearOrder K] [FloorRing K] in
theorem duplicateID_none {byID : List String} {l : List (Territory K Properties)}
    (none_seen : duplicateID byID l = none) :
    (l.map Territory.id).Nodup ∧ ∀ t ∈ l, t.id ∉ byID := by
  induction l generalizing byID with
  | nil => exact ⟨List.nodup_nil, by simp⟩
  | cons t l ih =>
      unfold duplicateID at none_seen
      split at none_seen
      · cases none_seen
      next fresh =>
      obtain ⟨distinct, apart⟩ := ih none_seen
      refine ⟨List.nodup_cons.mpr ⟨?_, distinct⟩, List.forall_mem_cons.mpr ⟨fresh, ?_⟩⟩
      · rintro same
        obtain ⟨t', here, id⟩ := List.mem_map.mp same
        exact apart t' here (id ▸ List.mem_cons_self)
      · exact fun t' here seen => apart t' here (List.mem_cons_of_mem _ seen)

/-- The areas of a layer as they are kept. -/
def layerOrder (layer : String) (territories : List (Territory K Properties)) :
    List (Territory K Properties) :=
  sortSlice territoryLess (territories.map fun t => { t with layer := layer })

/-- What a full scan of a layer finds. -/
def scanTerritories (layer : String) (territories : List (Territory K Properties))
    (lat lon : K) : List (Territory K Properties) :=
  sortSlice territoryLess
    ((territories.map fun t => { t with layer := layer }).filter fun t =>
      t.geometry.contains ⟨lat, lon⟩)

theorem loadLayerTerritories_ok {s s' : TerritoryStore K Properties} {layer : String}
    {territories : List (Territory K Properties)}
    (loaded : loadLayerTerritories toInt32 s layer territories = .ok s') :
    ((layerOrder layer territories).map Territory.id).Nodup ∧
      s'.lookup layer = some ⟨layerOrder layer territories,
        buildTerritoryIndex toInt32 (layerOrder layer territories)⟩ := by
  unfold loadLayerTerritories at loaded
  dsimp only at loaded
  split at loaded
  · cases loaded
  next distinct =>
  obtain rfl := Except.ok.inj loaded
  exact ⟨(duplicateID_none distinct).1, AList.lookup_insert _⟩

omit [Field K] [LinearOrder K] [FloorRing K] in
/-- A sorted selection of a selection is the sorted selection when nothing falls out. -/
theorem sortSlice_filter_filter {l : List (Territory K Properties)}
    (p q : Territory K Properties → Bool) :
    sortSlice territoryLess ((l.filter p).filter q) = sortSlice territoryLess (l.filter q) ↔
      ∀ t ∈ l, q t = true → p t = true := by
  constructor
  · intro same t here selected
    have found : t ∈ sortSlice territoryLess (l.filter q) :=
      mem_sortSlice.mpr (List.mem_filter.mpr ⟨here, selected⟩)
    rw [← same, mem_sortSlice, List.mem_filter, List.mem_filter] at found
    exact found.1.2
  · intro kept
    rw [List.filter_filter]
    refine congrArg _ (List.filter_congr fun t here => ?_)
    cases selected : q t with
    | false => rfl
    | true => rw [kept t here selected]; rfl

/-- A lookup finds what a full scan finds exactly when the cell of the point is one of the box
of every area that contains the point. -/
theorem findTerritories_eq_scan_iff {s s' : TerritoryStore K Properties} {layer : String}
    {territories : List (Territory K Properties)}
    (loaded : loadLayerTerritories toInt32 s layer territories = .ok s') (lat lon : K) :
    findTerritories toInt32 s' layer lat lon = scanTerritories layer territories lat lon ↔
      ∀ t ∈ territories, t.geometry.contains ⟨lat, lon⟩ = true →
        (emptyGrid (layerOrder layer territories)).Covers toInt32 t
          ((emptyGrid (layerOrder layer territories)).cellCoords toInt32 lat lon) := by
  obtain ⟨distinct, found⟩ := loadLayerTerritories_ok toInt32 loaded
  have scanned : scanTerritories layer territories lat lon =
      sortSlice territoryLess ((layerOrder layer territories).filter fun t =>
        t.geometry.contains ⟨lat, lon⟩) := by
    refine sortSlice_eq_of_perm territoryLess_iff ?_ ?_
    · exact distinct.sublist (List.filter_sublist.map _)
    · exact ((sortSlice_perm territoryLess _).symm.filter _)
  rw [findTerritories, found, scanned]
  dsimp only
  rw [candidatesAt_build, sortSlice_filter_filter]
  simp only [layerOrder, mem_sortSlice, List.forall_mem_map]
  exact forall₃_congr fun t _ _ => decide_eq_true_iff.trans (TerritoryGrid.mem_keysOf ..)

/-! ## Points within their boxes -/

section Ordered

variable [IsStrictOrderedRing K]

/-- One box lies within another. -/
structure CoordWindow.Within (a b : CoordWindow K) : Prop where
  minLat : b.minLat ≤ a.minLat
  maxLat : a.maxLat ≤ b.maxLat
  minLon : b.minLon ≤ a.minLon
  maxLon : a.maxLon ≤ b.maxLon

omit [Field K] [FloorRing K] [IsStrictOrderedRing K] in
theorem growLayerBox_some (w : CoordWindow K) {t : Territory K Properties} {bb : CoordWindow K}
    (box : t.geometry.bbox = some bb) :
    growLayerBox (some w) t = some ⟨min w.minLat bb.minLat, max w.maxLat bb.maxLat,
      min w.minLon bb.minLon, max w.maxLon bb.maxLon⟩ := by
  simp [growLayerBox, box]

omit [Field K] [FloorRing K] [IsStrictOrderedRing K] in
theorem foldl_growLayerBox_within (territories : List (Territory K Properties))
    {start : CoordWindow K} :
    ∃ w, territories.foldl growLayerBox (some start) = some w ∧ start.Within w ∧
      ∀ t ∈ territories, ∀ bb, t.geometry.bbox = some bb → bb.Within w := by
  induction territories generalizing start with
  | nil => exact ⟨start, rfl, ⟨le_refl _, le_refl _, le_refl _, le_refl _⟩, by simp⟩
  | cons t territories ih =>
      rw [List.foldl_cons]
      cases box : t.geometry.bbox with
      | none =>
          rw [show growLayerBox (some start) t = some start by simp [growLayerBox, box]]
          obtain ⟨w, folded, within, others⟩ := @ih start
          exact ⟨w, folded, within, List.forall_mem_cons.mpr
            ⟨fun bb some_box => absurd (box.symm.trans some_box) (by simp), others⟩⟩
      | some bb =>
          rw [growLayerBox_some start box]
          obtain ⟨w, folded, within, others⟩ := @ih ⟨min start.minLat bb.minLat,
            max start.maxLat bb.maxLat, min start.minLon bb.minLon, max start.maxLon bb.maxLon⟩
          refine ⟨w, folded, ?_, List.forall_mem_cons.mpr ⟨fun bb' some_box => ?_, others⟩⟩
          · exact ⟨within.minLat.trans (min_le_left ..), (le_max_left ..).trans within.maxLat,
              within.minLon.trans (min_le_left ..), (le_max_left ..).trans within.maxLon⟩
          · obtain rfl := Option.some.inj (box.symm.trans some_box)
            exact ⟨within.minLat.trans (min_le_right ..), (le_max_right ..).trans within.maxLat,
              within.minLon.trans (min_le_right ..), (le_max_right ..).trans within.maxLon⟩

omit [Field K] [FloorRing K] [IsStrictOrderedRing K] in
/-- The box of a layer holds the boxes of its areas. -/
theorem layerBox_within (territories : List (Territory K Properties)) :
    ∀ t ∈ territories, ∀ bb, t.geometry.bbox = some bb →
      ∃ w, territories.foldl growLayerBox none = some w ∧ bb.Within w := by
  induction territories with
  | nil => simp
  | cons t territories ih =>
      intro t' here bb box
      have first_box : growLayerBox none t = t.geometry.bbox := by
        unfold growLayerBox
        split <;> simp_all
      rw [List.foldl_cons, first_box]
      cases first : t.geometry.bbox with
      | none =>
          obtain rfl | there := List.mem_cons.mp here
          · exact absurd (first.symm.trans box) (by simp)
          · exact ih t' there bb box
      | some start =>
          obtain ⟨w, folded, within, others⟩ := @foldl_growLayerBox_within K Properties _ territories start
          refine ⟨w, folded, ?_⟩
          obtain rfl | there := List.mem_cons.mp here
          · obtain rfl := Option.some.inj (first.symm.trans box)
            exact within
          · exact others t' there bb box

omit [FloorRing K] in
theorem gridCellSize_pos (span : K) : 0 < gridCellSize span ∧ span ≤ 32 * gridCellSize span := by
  unfold gridCellSize
  split_ifs with positive small
  · exact ⟨by norm_num, by linarith⟩
  · exact ⟨by linarith, by linarith⟩
  · exact ⟨by norm_num, by linarith⟩

/-- The number of a cell of the grid on one axis. -/
theorem floor_cell {x low cellSize : K} (positive : 0 < cellSize) (above : low ≤ x)
    (below : x ≤ low + 32 * cellSize) :
    0 ≤ ⌊(x - low) / cellSize⌋ ∧ ⌊(x - low) / cellSize⌋ ≤ 32 := by
  refine ⟨Int.floor_nonneg.mpr (div_nonneg (by linarith) positive.le), ?_⟩
  rw [Int.floor_le_iff, div_lt_iff₀ positive]
  push_cast
  linarith

/-- The numbers of two cells of the grid are ordered as the places are. -/
theorem cell_mono (exactInt : ∀ z : ℤ, 0 ≤ z → z ≤ 32 → (toInt32 z).toInt = z)
    {x y low cellSize : K} (positive : 0 < cellSize) (above : low ≤ x) (le : x ≤ y)
    (below : y ≤ low + 32 * cellSize) :
    toInt32 ⌊(x - low) / cellSize⌋ ≤ toInt32 ⌊(y - low) / cellSize⌋ := by
  have fst := floor_cell positive above (le.trans below)
  have snd := floor_cell positive (above.trans le) below
  rw [Int32.le_iff_toInt_le, exactInt _ fst.1 fst.2, exactInt _ snd.1 snd.2]
  exact Int.floor_le_floor (div_le_div_of_nonneg_right (by linarith) positive.le)

/-- A point that lies in the box of every area that contains it is looked up as by a full
scan. No more is asked of the conversion to integers than that it keeps 0 to 32. -/
theorem findTerritories_of_inBox (exactInt : ∀ z : ℤ, 0 ≤ z → z ≤ 32 → (toInt32 z).toInt = z)
    {s s' : TerritoryStore K Properties} {layer : String}
    {territories : List (Territory K Properties)}
    (loaded : loadLayerTerritories toInt32 s layer territories = .ok s') (lat lon : K)
    (inBox : ∀ t ∈ territories, t.geometry.contains ⟨lat, lon⟩ = true →
      ∃ bb, t.geometry.bbox = some bb ∧ bb.minLat ≤ lat ∧ lat ≤ bb.maxLat ∧
        bb.minLon ≤ lon ∧ lon ≤ bb.maxLon) :
    findTerritories toInt32 s' layer lat lon = scanTerritories layer territories lat lon := by
  refine (findTerritories_eq_scan_iff toInt32 loaded lat lon).mpr fun t here selected => ?_
  obtain ⟨bb, box, south, north, west, east⟩ := inBox t here selected
  have kept : { t with layer := layer } ∈ layerOrder layer territories :=
    mem_sortSlice.mpr (List.mem_map_of_mem here)
  obtain ⟨w, folded, within⟩ := layerBox_within _ _ kept bb box
  obtain ⟨positive, covers⟩ := gridCellSize_pos (max (w.maxLat - w.minLat) (w.maxLon - w.minLon))
  have tall := (le_max_left (w.maxLat - w.minLat) (w.maxLon - w.minLon)).trans covers
  have wide := (le_max_right (w.maxLat - w.minLat) (w.maxLon - w.minLon)).trans covers
  obtain ⟨wSouth, wNorth, wWest, wEast⟩ := within
  unfold emptyGrid
  rw [folded]
  refine ⟨bb, box, ?_, ?_, ?_, ?_⟩
  · exact cell_mono toInt32 exactInt positive wSouth south (by linarith)
  · exact cell_mono toInt32 exactInt positive (wSouth.trans south) north (by linarith)
  · exact cell_mono toInt32 exactInt positive wWest west (by linarith)
  · exact cell_mono toInt32 exactInt positive (wWest.trans west) east (by linarith)

/-- **A lookup finds what a full scan finds exactly when every area that contains the point is
filed under the cell of the point**, and so it does when the point lies in their boxes. -/
theorem findTerritories_exact {s s' : TerritoryStore K Properties} {layer : String}
    {territories : List (Territory K Properties)}
    (loaded : loadLayerTerritories toInt32 s layer territories = .ok s') (lat lon : K) :
    (findTerritories toInt32 s' layer lat lon = scanTerritories layer territories lat lon ↔
      ∀ t ∈ territories, t.geometry.contains ⟨lat, lon⟩ = true →
        (emptyGrid (layerOrder layer territories)).Covers toInt32 t
          ((emptyGrid (layerOrder layer territories)).cellCoords toInt32 lat lon)) ∧
    ((∀ z : ℤ, 0 ≤ z → z ≤ 32 → (toInt32 z).toInt = z) →
      (∀ t ∈ territories, t.geometry.contains ⟨lat, lon⟩ = true →
        ∃ bb, t.geometry.bbox = some bb ∧ bb.minLat ≤ lat ∧ lat ≤ bb.maxLat ∧
          bb.minLon ≤ lon ∧ lon ≤ bb.maxLon) →
      findTerritories toInt32 s' layer lat lon = scanTerritories layer territories lat lon) :=
  ⟨findTerritories_eq_scan_iff toInt32 loaded lat lon, fun exactInt inBox =>
    findTerritories_of_inBox toInt32 exactInt loaded lat lon inBox⟩

end Ordered

end Grid

/-! ## A point just outside of its box -/

/-- A square of one degree. -/
def unitSquare : Territory ℚ Unit where
  id := "a"
  name := "square"
  layer := "sales"
  geometry := ⟨[⟨[⟨0, 0⟩, ⟨0, 1⟩, ⟨1, 1⟩, ⟨1, 0⟩, ⟨0, 0⟩], []⟩]⟩
  properties := ()

theorem load_unitSquare :
    ∃ s', loadLayerTerritories Int32.ofInt ∅ "sales" [unitSquare] = .ok s' := by
  have distinct : duplicateID [] (layerOrder "sales" [unitSquare]) = none := by decide +kernel
  cases loaded : loadLayerTerritories Int32.ofInt ∅ "sales" [unitSquare] with
  | ok s' => exact ⟨s', rfl⟩
  | error e =>
      unfold loadLayerTerritories at loaded
      dsimp only at loaded
      split at loaded
      · next id duplicate => exact absurd (distinct.symm.trans duplicate) (by simp)
      · cases loaded

theorem findTerritories_exact_unitSquare :
    ∃ s', findTerritories Int32.ofInt s' "sales" 0 (1 / 2) =
      scanTerritories "sales" [unitSquare] 0 (1 / 2) := by
  obtain ⟨s', loaded⟩ := load_unitSquare
  refine ⟨s', (findTerritories_exact Int32.ofInt loaded 0 (1 / 2)).1.mpr ?_⟩
  intro t here _
  obtain rfl := List.mem_singleton.mp here
  exact ⟨⟨0, 1, 0, 1⟩, by decide +kernel, by decide +kernel⟩

/-- Half of the tolerance south of the square, its edge still counts as reached; but no area
is filed under the cells south of the layer. -/
theorem findTerritories_misses :
    ∃ s', loadLayerTerritories Int32.ofInt ∅ "sales" [unitSquare] = .ok s' ∧
      findTerritories Int32.ofInt s' "sales" (-1 / 2000000000) (1 / 2) ≠
        scanTerritories "sales" [unitSquare] (-1 / 2000000000) (1 / 2) := by
  obtain ⟨s', loaded⟩ := load_unitSquare
  refine ⟨s', loaded, fun same => ?_⟩
  rw [findTerritories, (loadLayerTerritories_ok Int32.ofInt loaded).2] at same
  dsimp only at same
  rw [candidatesAt_build] at same
  have counted := congrArg List.length same
  revert counted
  decide +kernel

end OsmMini.Core

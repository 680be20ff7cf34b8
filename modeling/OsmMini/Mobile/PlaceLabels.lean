import OsmMini.Foundations.Buckets
import OsmMini.Foundations.Rectangles
import OsmMini.Mobile.ExactPlaces
import OsmMini.Mobile.Poi.Tiles

/-!
# The labels of settlements

The settlements of a region are kept in the cells of zoom 8. A tile reads the cells it
meets, from many of them at a low zoom to a part of one at a high zoom, and shows the
labels inside its half-open square.

The cells of a tile cover its square (`cells_cover`), so a tile shows the labels in its square
and each of them once (`PlaceIndex.features_perm`). The squares of a zoom share no point and
cover the map, hence one tile of each zoom shows a label (`features_once`).
-/

set_option autoImplicit false

namespace OsmMini.Mobile

open OsmMini.Foundations

/-- A settlement on the map, from the zoom on that shows it. -/
structure PlaceLabel (K : Type) where
  x : K
  y : K
  name : List Char
  kind : List Char
  minZoom : ℤ
  deriving DecidableEq

/-- The labels in each cell. -/
abbrev PlaceIndex (K : Type) := Core.GoMap ℕ (List (PlaceLabel K))

structure PlaceCatalog (D K : Type) where
  labels : PlaceIndex K
  exact' : ExactPlaceIndex D

/-- The key of a cell, as a number of 32 bits. -/
def placeCell (cx cy : ℤ) : ℕ := ((cy * 256 + cx) % 2 ^ 32).toNat

section Labels

variable {D K : Type} [Field K] [LinearOrder K] [FloorRing K]

section Catalog

variable (placeWorld : SettlementRecord D → K × K) (normalized : List Char → List Char)

/-- The label of a record. -/
def placeLabel (record : SettlementRecord D) : PlaceLabel K where
  x := (placeWorld record).1
  y := (placeWorld record).2
  name := Text.trimSpace record.label
  kind := settlementKind record
  minZoom := placeMinZoom (settlementKind record)

/-- The cell of a label. -/
def labelCell (label : PlaceLabel K) : ℕ :=
  placeCell (truncate (label.x * 256)) (truncate (label.y * 256))

namespace PlaceCatalog

def add (index : PlaceCatalog D K) (record : SettlementRecord D) : PlaceCatalog D K :=
  let label := placeLabel placeWorld record
  { labels := push index.labels (labelCell label) label
    exact' := index.exact'.add normalized record }

/-- The catalog of some records, put in one after the other. -/
def addAll (records : List (SettlementRecord D)) : PlaceCatalog D K :=
  records.foldl (add placeWorld normalized) ⟨∅, ∅⟩

end PlaceCatalog

end Catalog

/-! ## The labels of a tile -/

/-- The feature of a label that a tile shows. -/
def labelFeature (z x y : ℤ) (label : PlaceLabel K) : VectorFeature D :=
  let scale : K := 2 ^ z.toNat
  let px := min 4095 (max 0 (truncate ((label.x * scale - x) * 4096)))
  let py := min 4095 (max 0 (truncate ((label.y * scale - y) * 4096)))
  { layer := "place"
    kind := 1
    class' := label.kind
    name := label.name
    extent := 4096
    paths := [[(px, py)]]
    sourceIdentity := []
    details := none }

/-- A label inside the half-open square of a tile, if the zoom shows it. -/
def labelInTile (z x y : ℤ) (label : PlaceLabel K) : Option (VectorFeature D) :=
  let scale : K := 2 ^ z.toNat
  let x0 := (x : K) / scale
  let y0 := (y : K) / scale
  let x1 := ((x + 1 : ℤ) : K) / scale
  let y1 := ((y + 1 : ℤ) : K) / scale
  if z < label.minZoom ∨ label.x < x0 ∨ x1 ≤ label.x ∨ label.y < y0 ∨ y1 ≤ label.y then none
  else some (labelFeature z x y label)

variable (K) in
/-- The cells a tile meets, row after row. -/
def tileCells (z x y : ℤ) : List (ℤ × ℤ) :=
  let scale : K := 2 ^ z.toNat
  let minX := truncate ((x : K) / scale * 256)
  let minY := truncate ((y : K) / scale * 256)
  let maxX := min 255 (⌈((x + 1 : ℤ) : K) / scale * 256⌉ - 1)
  let maxY := min 255 (⌈((y + 1 : ℤ) : K) / scale * 256⌉ - 1)
  rectangle (minY, minX) (maxY, maxX)

/-- The labels a tile shows, cell after cell. -/
def PlaceIndex.features (index : PlaceIndex K) (z x y : ℤ) : List (VectorFeature D) :=
  if z < 5 ∨ 22 < z ∨ x < 0 ∨ y < 0 ∨ 2 ^ z.toNat ≤ x ∨ 2 ^ z.toNat ≤ y then []
  else
    (tileCells K z x y).flatMap fun cell =>
      (bucket index (placeCell cell.2 cell.1)).filterMap (labelInTile z x y)

/-! ## Cells and tiles -/

/-- The position of a label lies in the half-open square of a tile. -/
def InTile (z x y : ℤ) (label : PlaceLabel K) : Prop :=
  ((x : K) / 2 ^ z.toNat ≤ label.x ∧ label.x < ((x + 1 : ℤ) : K) / 2 ^ z.toNat) ∧
    (y : K) / 2 ^ z.toNat ≤ label.y ∧ label.y < ((y + 1 : ℤ) : K) / 2 ^ z.toNat

instance (z x y : ℤ) (label : PlaceLabel K) : Decidable (InTile z x y label) :=
  inferInstanceAs (Decidable (_ ∧ _))

variable [IsStrictOrderedRing K]

/-- A position lies between the sides of the column that its integer part names. -/
theorem between_iff_floor (z x : ℤ) (v : K) :
    (x : K) / 2 ^ z.toNat ≤ v ∧ v < ((x + 1 : ℤ) : K) / 2 ^ z.toNat ↔ ⌊v * 2 ^ z.toNat⌋ = x := by
  have positive : (0 : K) < 2 ^ z.toNat := by positivity
  rw [div_le_iff₀ positive, lt_div_iff₀ positive, Int.floor_eq_iff]
  push_cast
  exact Iff.rfl

theorem inTile_iff {z x y : ℤ} {label : PlaceLabel K} :
    InTile z x y label ↔
      ⌊label.x * 2 ^ z.toNat⌋ = x ∧ ⌊label.y * 2 ^ z.toNat⌋ = y := by
  rw [InTile, between_iff_floor, between_iff_floor]

omit [IsStrictOrderedRing K] in
theorem truncate_eq_floor {v : K} (nonneg : 0 ≤ v) : truncate v = ⌊v⌋ := if_pos nonneg

/-- The column of the cells is one of 256. -/
theorem truncate_cell {v : K} (unit : 0 ≤ v ∧ v < 1) :
    0 ≤ truncate (v * 256) ∧ truncate (v * 256) ≤ 255 := by
  have scaled : 0 ≤ v * 256 := mul_nonneg unit.1 (by norm_num)
  have below : v * 256 < 256 := by linarith [unit.2]
  rw [truncate_eq_floor scaled]
  refine ⟨Int.floor_nonneg.mpr scaled, ?_⟩
  have floored : ⌊v * 256⌋ < 256 := Int.floor_lt.mpr (by exact_mod_cast below)
  omega

/-- **The cells of a tile cover its columns.** -/
theorem cells_cover {z x : ℤ} {v : K} (unit : 0 ≤ v ∧ v < 1) (right : 0 ≤ x)
    (between : (x : K) / 2 ^ z.toNat ≤ v ∧ v < ((x + 1 : ℤ) : K) / 2 ^ z.toNat) :
    truncate ((x : K) / 2 ^ z.toNat * 256) ≤ truncate (v * 256) ∧
      truncate (v * 256) ≤ min 255 (⌈((x + 1 : ℤ) : K) / 2 ^ z.toNat * 256⌉ - 1) := by
  have start : (0 : K) ≤ (x : K) / 2 ^ z.toNat :=
    div_nonneg (by exact_mod_cast right) (by positivity)
  have scaled : 0 ≤ v * 256 := mul_nonneg unit.1 (by norm_num)
  have inside := (truncate_cell unit).2
  rw [truncate_eq_floor scaled] at inside ⊢
  rw [truncate_eq_floor (mul_nonneg start (by norm_num))]
  refine ⟨Int.floor_le_floor (by linarith [between.1]), le_min inside ?_⟩
  have below : (⌊v * 256⌋ : K) < ((x + 1 : ℤ) : K) / 2 ^ z.toNat * 256 :=
    (Int.floor_le (v * 256)).trans_lt (by linarith [between.2])
  have ceiled := Int.lt_ceil.mpr below
  omega

omit [Field K] [LinearOrder K] [FloorRing K] [IsStrictOrderedRing K] in
/-- Two cells of the grid have the same key only if they are one. -/
theorem placeCell_inj {cx cy cx' cy' : ℤ} (column : 0 ≤ cx ∧ cx ≤ 255)
    (row : 0 ≤ cy ∧ cy ≤ 255) (column' : 0 ≤ cx' ∧ cx' ≤ 255) (row' : 0 ≤ cy' ∧ cy' ≤ 255)
    (same : placeCell cx cy = placeCell cx' cy') : cx = cx' ∧ cy = cy' := by
  have here : (cy * 256 + cx) % 2 ^ 32 = cy * 256 + cx := Int.emod_eq_of_lt (by omega) (by omega)
  have there : (cy' * 256 + cx') % 2 ^ 32 = cy' * 256 + cx' :=
    Int.emod_eq_of_lt (by omega) (by omega)
  rw [placeCell, placeCell, here, there] at same
  omega

/-! ## What a tile shows -/

/-- A position of the map. -/
def OnMap (label : PlaceLabel K) : Prop := (0 ≤ label.x ∧ label.x < 1) ∧ 0 ≤ label.y ∧ label.y < 1

/-- A label of the map lies in tiles of the map only. -/
theorem OnMap.tile_of_map {label : PlaceLabel K} (onMap : OnMap label) {z x y : ℤ}
    (inside : InTile z x y label) :
    (0 ≤ x ∧ x < 2 ^ z.toNat) ∧ 0 ≤ y ∧ y < 2 ^ z.toNat := by
  have column : ∀ {v : K}, 0 ≤ v ∧ v < 1 →
      0 ≤ ⌊v * 2 ^ z.toNat⌋ ∧ ⌊v * 2 ^ z.toNat⌋ < 2 ^ z.toNat := by
    intro v unit
    have positive : (0 : K) < 2 ^ z.toNat := by positivity
    refine ⟨Int.floor_nonneg.mpr (mul_nonneg unit.1 positive.le), Int.floor_lt.mpr ?_⟩
    push_cast
    exact mul_lt_of_lt_one_left positive unit.2
  obtain ⟨rfl, rfl⟩ := inTile_iff.mp inside
  exact ⟨column onMap.1, column onMap.2⟩

omit [IsStrictOrderedRing K] in
theorem labelInTile_eq (z x y : ℤ) (label : PlaceLabel K) :
    (labelInTile z x y label : Option (VectorFeature D)) =
      if label.minZoom ≤ z ∧ InTile z x y label then some (labelFeature z x y label) else none := by
  rw [labelInTile, ← ite_not]
  refine if_congr ?_ rfl rfl
  simp only [InTile, not_or, not_le, not_lt, and_assoc]

/-- The cells of a tile are cells of the grid. -/
theorem tileCells_inGrid {z x y : ℤ} (right : 0 ≤ x) (down : 0 ≤ y) {cell : ℤ × ℤ}
    (member : cell ∈ tileCells K z x y) :
    (0 ≤ cell.2 ∧ cell.2 ≤ 255) ∧ 0 ≤ cell.1 ∧ cell.1 ≤ 255 := by
  have start : ∀ {w : ℤ}, 0 ≤ w → 0 ≤ truncate ((w : K) / 2 ^ z.toNat * 256) := by
    intro w nonneg
    have scaled : (0 : K) ≤ (w : K) / 2 ^ z.toNat * 256 :=
      mul_nonneg (div_nonneg (by exact_mod_cast nonneg) (by positivity)) (by norm_num)
    rw [truncate_eq_floor scaled]
    exact Int.floor_nonneg.mpr scaled
  obtain ⟨rows, columns⟩ := mem_rectangle.mp member
  exact ⟨⟨(start right).trans columns.1, columns.2.trans (min_le_left _ _)⟩,
    (start down).trans rows.1, rows.2.trans (min_le_left _ _)⟩

/-- The cells of a tile have different keys. -/
theorem nodup_tileCells {z x y : ℤ} (right : 0 ≤ x) (down : 0 ≤ y) :
    ((tileCells K z x y).map fun cell => placeCell cell.2 cell.1).Nodup := by
  refine List.Nodup.map_on (fun cell member cell' member' same => ?_) (nodup_rectangle _ _)
  obtain ⟨column, row⟩ := tileCells_inGrid right down member
  obtain ⟨column', row'⟩ := tileCells_inGrid right down member'
  obtain ⟨sameColumn, sameRow⟩ := placeCell_inj column row column' row' same
  exact Prod.ext sameRow sameColumn

/-- A label inside a tile is stored in one of its cells. -/
theorem labelCell_mem_tileCells {z x y : ℤ} (right : 0 ≤ x) (down : 0 ≤ y)
    {label : PlaceLabel K} (onMap : OnMap label) (inside : InTile z x y label) :
    labelCell label ∈ (tileCells K z x y).map fun cell => placeCell cell.2 cell.1 :=
  List.mem_map.mpr ⟨(truncate (label.y * 256), truncate (label.x * 256)),
    mem_rectangle.mpr ⟨cells_cover onMap.2 down inside.2, cells_cover onMap.1 right inside.1⟩, rfl⟩

/-- **The labels of a tile.** The cells of a tile give it the labels inside its square that
its zoom shows, each as often as it was stored. -/
theorem PlaceIndex.features_perm {index : PlaceIndex K} {labels : List (PlaceLabel K)}
    (stored : ∀ key, bucket index key = labels.filter fun label => labelCell label = key)
    (onMap : ∀ label ∈ labels, OnMap label) {z : ℤ} (low : 5 ≤ z) (high : z ≤ 22) (x y : ℤ) :
    (index.features z x y : List (VectorFeature D)).Perm
      ((labels.filter fun label => label.minZoom ≤ z ∧ InTile z x y label).map
        (labelFeature z x y)) := by
  rw [PlaceIndex.features]
  split_ifs with outside
  · have none : labels.filter (fun label => label.minZoom ≤ z ∧ InTile z x y label) = [] := by
      rw [List.filter_eq_nil_iff]
      intro label member shown
      have inside := (onMap label member).tile_of_map (of_decide_eq_true shown).2
      omega
    rw [none]
    exact List.Perm.refl []
  · simp only [not_or, not_lt, not_le] at outside
    obtain ⟨-, -, right, down, -, -⟩ := outside
    have read : ((tileCells K z x y).flatMap fun cell =>
          (bucket index (placeCell cell.2 cell.1)).filterMap (labelInTile z x y)) =
        (((tileCells K z x y).map fun cell => placeCell cell.2 cell.1).flatMap fun key =>
          labels.filter fun label => labelCell label = key).filterMap
            (labelInTile z x y : PlaceLabel K → Option (VectorFeature D)) := by
      rw [List.flatMap_map, List.filterMap_flatMap]
      apply List.flatMap_congr
      intro cell _
      rw [stored]
    rw [read]
    refine ((flatMap_filter_perm labelCell (nodup_tileCells right down) labels).filterMap
      (labelInTile z x y)).trans (List.Perm.of_eq ?_)
    rw [List.filterMap_filter, ← List.filterMap_eq_map (f := labelFeature z x y),
      List.filterMap_filter]
    apply List.filterMap_congr
    intro label member
    rw [labelInTile_eq]
    by_cases shown : label.minZoom ≤ z ∧ InTile z x y label
    · have covered := labelCell_mem_tileCells right down (onMap label member) shown.2
      rw [if_pos (decide_eq_true covered), if_pos (decide_eq_true shown), if_pos shown]
      rfl
    · rw [if_neg shown, if_neg (fun shown' => shown (of_decide_eq_true shown'))]
      exact ite_self none

/-! ## The catalog -/

variable {placeWorld : SettlementRecord D → K × K} {normalized : List Char → List Char}

omit [IsStrictOrderedRing K] in
/-- The catalog stores the label of each record in its cell, in the order of the records. -/
theorem PlaceCatalog.bucket_addAll (records : List (SettlementRecord D)) (key : ℕ) :
    bucket (PlaceCatalog.addAll placeWorld normalized records).labels key =
      (records.map (placeLabel placeWorld)).filter fun label => labelCell label = key := by
  have fold : ∀ catalog : PlaceCatalog D K,
      (records.foldl (PlaceCatalog.add placeWorld normalized) catalog).labels =
        ((records.map fun record =>
          (labelCell (placeLabel placeWorld record), placeLabel placeWorld record)).foldl
          (fun m entry => push m entry.1 entry.2) catalog.labels) := by
    intro catalog
    induction records generalizing catalog with
    | nil => rfl
    | cons record records ih => exact ih _
  rw [PlaceCatalog.addAll, fold, bucket_foldl_push, bucket_empty, List.nil_append,
    List.filter_map, List.map_map, List.filter_map]
  rfl

/-- **Every label is shown once.** Of each zoom that shows it, one tile contains the position of
a label. The tiles show, at pixels of their extent, the labels they contain, each as often as
there are such settlements, and no label is shown below its zoom. -/
theorem PlaceCatalog.features_once (records : List (SettlementRecord D))
    (projected : ∀ record ∈ records, InMap (placeWorld record)) {z : ℤ} (low : 5 ≤ z)
    (high : z ≤ 22) :
    (∀ label ∈ records.map (placeLabel placeWorld), ∃! tile : ℤ × ℤ,
      ((0 ≤ tile.1 ∧ tile.1 < 2 ^ z.toNat) ∧ 0 ≤ tile.2 ∧ tile.2 < 2 ^ z.toNat) ∧
        InTile z tile.1 tile.2 label) ∧
      ∀ x y : ℤ,
        (((addAll placeWorld normalized records).labels.features z x y : List (VectorFeature D)).Perm
          (((records.map (placeLabel placeWorld)).filter fun label =>
            label.minZoom ≤ z ∧ InTile z x y label).map (labelFeature z x y))) ∧
        ∀ feature ∈ ((addAll placeWorld normalized records).labels.features z x y :
            List (VectorFeature D)),
          ∃ px py : ℤ, feature.paths = [[(px, py)]] ∧ (0 ≤ px ∧ px ≤ 4095) ∧ 0 ≤ py ∧ py ≤ 4095 := by
  have onMap : ∀ label ∈ records.map (placeLabel placeWorld), OnMap label := by
    intro label member
    obtain ⟨record, known, rfl⟩ := List.mem_map.mp member
    exact projected record known
  refine ⟨?_, fun x y => ?_⟩
  · intro label member
    have inside : InTile z ⌊label.x * 2 ^ z.toNat⌋ ⌊label.y * 2 ^ z.toNat⌋ label :=
      inTile_iff.mpr ⟨rfl, rfl⟩
    refine ⟨(⌊label.x * 2 ^ z.toNat⌋, ⌊label.y * 2 ^ z.toNat⌋),
      ⟨(onMap label member).tile_of_map inside, inside⟩, ?_⟩
    rintro ⟨x, y⟩ ⟨-, here⟩
    obtain ⟨rfl, rfl⟩ := inTile_iff.mp here
    rfl
  · have buckets : ∀ key, bucket (PlaceCatalog.addAll placeWorld normalized records).labels key =
        (records.map (placeLabel placeWorld)).filter fun label => labelCell label = key :=
      PlaceCatalog.bucket_addAll records
    have shown := PlaceIndex.features_perm (D := D) buckets onMap low high x y
    refine ⟨shown, fun feature member => ?_⟩
    obtain ⟨label, -, rfl⟩ := List.mem_map.mp (shown.mem_iff.mp member)
    exact ⟨_, _, rfl, by omega, by omega⟩

end Labels

/-- A town and a city on the corner of four tiles. At zoom 5 the city is shown, by the tile
that begins in the corner. -/
theorem PlaceCatalog.features_once_corner :
    (((PlaceCatalog.addAll (fun _ => ((1 / 2, 1 / 2) : ℚ × ℚ)) id [newtown, newcity]).labels.features
        5 16 16 : List (VectorFeature Unit)).map (·.class') = ["city".toList]) ∧
      ((PlaceCatalog.addAll (fun _ => ((1 / 2, 1 / 2) : ℚ × ℚ)) id [newtown, newcity]).labels.features
        5 15 15 : List (VectorFeature Unit)) = [] := by
  have once := (@PlaceCatalog.features_once Unit ℚ _ _ _ _ (fun _ => (1 / 2, 1 / 2)) id
    [newtown, newcity] (fun _ _ => by unfold InMap; norm_num) 5 (by decide) (by decide)).2
  have corner := ((once 16 16).1.map (·.class')).trans
    (List.Perm.of_eq (show _ = ["city".toList] by decide +kernel))
  have before := (once 15 15).1.trans (List.Perm.of_eq (show _ = [] by decide +kernel))
  exact ⟨List.perm_singleton.mp corner, List.perm_nil.mp before⟩

end OsmMini.Mobile

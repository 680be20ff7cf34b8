import OsmMini.Foundations.Literals
import OsmMini.Core.Types
import OsmMini.Core.Store.Bounds
import OsmMini.Foundations.Buckets
import OsmMini.Foundations.Rectangles
import OsmMini.Foundations.SortSlice

/-!
# The grid of offline features

The features of a map are filed under all cells of their bounds. A feature with very many cells
is put in a list of large features instead. A query collects the large features and those of
the cells of its window, and sorts their places.

Cells grow with the coordinates. A point in the bounds of a feature and in the window lies in a
cell of both, so no feature that meets the window is left out (`featuresIn_complete`). Keys of
cells are cut to 32 bits for each number. Cells that share a key can only add features.
-/

set_option autoImplicit false

namespace OsmMini.Cmd.Waterways

open OsmMini.Core OsmMini.Foundations

/-- The largest number of cells of a feature. -/
def tinyTilesWaterwayMaxGridCells : ℤ := 4096

section Grid

variable {K : Type} [Field K] [LinearOrder K] [FloorRing K]

/-- The bounds of a feature. They come from its points and are therefore in order. -/
structure TinyTilesWaterwayBounds (K : Type) [LE K] where
  minLon : K
  minLat : K
  maxLon : K
  maxLat : K
  lonOrdered : minLon ≤ maxLon
  latOrdered : minLat ≤ maxLat

/-- What the grid uses of a feature. -/
structure TinyTilesWaterway (K : Type) [LE K] where
  id : Int64
  featureClass : String
  bounds : TinyTilesWaterwayBounds K

/-- The size of a cell. -/
abbrev CellSize (K : Type) [Zero K] [LT K] := { size : K // 0 < size }

structure TinyTilesWaterwayIndex (K : Type) [LE K] [Zero K] [LT K] where
  features : List (TinyTilesWaterway K)
  cells : GoMap Int64 (List ℕ)
  largeFeatures : List ℕ
  cellSize : CellSize K

def tinyTilesWaterwayPriority (featureClass : String) : ℕ :=
  match featureClass with
  | "river" => 0
  | "canal" => 1
  | "stream" => 2
  | "wadi" => 3
  | "ditch" => 4
  | "drain" => 5
  | _ => 99

def sortTinyTilesWaterways (features : List (TinyTilesWaterway K)) : List (TinyTilesWaterway K) :=
  sortSlice (fun left right =>
    if tinyTilesWaterwayPriority left.featureClass ≠ tinyTilesWaterwayPriority right.featureClass
    then decide (tinyTilesWaterwayPriority left.featureClass <
      tinyTilesWaterwayPriority right.featureClass)
    else decide (left.id < right.id)) features

def tinyTilesFeatureCell (lon lat : K) (size : CellSize K) : ℤ × ℤ :=
  (⌊(lon + 180) / size.val⌋, ⌊(lat + 90) / size.val⌋)

def tinyTilesWaterwayCellKey (cell : ℤ × ℤ) : Int64 :=
  (Int32.ofInt cell.1).toInt64 <<< 32 ||| (Int32.ofInt cell.2).toUInt32.toUInt64.toInt64

/-- The cells of a rectangle of coordinates. -/
def cellsBetween (size : CellSize K) (minLon minLat maxLon maxLat : K) : List (ℤ × ℤ) :=
  rectangle (tinyTilesFeatureCell minLon minLat size) (tinyTilesFeatureCell maxLon maxLat size)

namespace TinyTilesWaterwayIndex

/-- File a feature under its cells, or as a large one. -/
def add (index : TinyTilesWaterwayIndex K) (entry : TinyTilesWaterway K × ℕ) :
    TinyTilesWaterwayIndex K :=
  let bounds := entry.1.bounds
  let lo := tinyTilesFeatureCell bounds.minLon bounds.minLat index.cellSize
  let hi := tinyTilesFeatureCell bounds.maxLon bounds.maxLat index.cellSize
  let cellCount := (hi.1 - lo.1 + 1) * (hi.2 - lo.2 + 1)
  if cellCount < 1 ∨ tinyTilesWaterwayMaxGridCells < cellCount then
    { index with largeFeatures := index.largeFeatures ++ [entry.2] }
  else
    let keys := (rectangle lo hi).map tinyTilesWaterwayCellKey
    { index with cells := pushAll index.cells keys entry.2 }

/-- The places of the features of a window, in order. -/
def featuresIn (index : TinyTilesWaterwayIndex K) (window : CoordWindow K) : List ℕ :=
  let cells := cellsBetween index.cellSize window.minLon window.minLat window.maxLon window.maxLat
  let seen := cells.flatMap fun cell => bucket index.cells (tinyTilesWaterwayCellKey cell)
  (seen ++ index.largeFeatures).toFinset.sort (· ≤ ·)

end TinyTilesWaterwayIndex

def newTinyTilesFeatureGrid (features : List (TinyTilesWaterway K)) (cellSize : CellSize K) :
    TinyTilesWaterwayIndex K :=
  let ordered := sortTinyTilesWaterways features
  ordered.zipIdx.foldl TinyTilesWaterwayIndex.add ⟨ordered, ∅, [], cellSize⟩

/-- The test of a query on the features it has found. -/
def TinyTilesWaterwayBounds.intersects (bounds : TinyTilesWaterwayBounds K)
    (window : CoordWindow K) : Bool :=
  bounds.minLon ≤ window.maxLon && window.minLon ≤ bounds.maxLon &&
    bounds.minLat ≤ window.maxLat && window.minLat ≤ bounds.maxLat

/-- Some point lies in the bounds and in the window. -/
def TinyTilesWaterwayBounds.Meets (bounds : TinyTilesWaterwayBounds K)
    (window : CoordWindow K) : Prop :=
  ∃ lon lat, (bounds.minLon ≤ lon ∧ lon ≤ bounds.maxLon) ∧
    (bounds.minLat ≤ lat ∧ lat ≤ bounds.maxLat) ∧
    (window.minLon ≤ lon ∧ lon ≤ window.maxLon) ∧
    window.minLat ≤ lat ∧ lat ≤ window.maxLat

/-! ## Cells -/

omit [Field K] [FloorRing K] in
/-- For a window in order the test finds the features that meet it. -/
theorem TinyTilesWaterwayBounds.intersects_iff {bounds : TinyTilesWaterwayBounds K}
    {window : CoordWindow K} (lonOrdered : window.minLon ≤ window.maxLon)
    (latOrdered : window.minLat ≤ window.maxLat) :
    bounds.intersects window = true ↔ bounds.Meets window := by
  simp only [intersects, Bool.and_eq_true, decide_eq_true_eq]
  constructor
  · rintro ⟨⟨⟨west, east⟩, south⟩, north⟩
    exact ⟨max bounds.minLon window.minLon, max bounds.minLat window.minLat,
      ⟨le_max_left _ _, max_le bounds.lonOrdered east⟩,
      ⟨le_max_left _ _, max_le bounds.latOrdered north⟩,
      ⟨le_max_right _ _, max_le west lonOrdered⟩, le_max_right _ _, max_le south latOrdered⟩
  · rintro ⟨lon, lat, ⟨west, east⟩, ⟨south, north⟩, ⟨west', east'⟩, south', north'⟩
    exact ⟨⟨⟨west.trans east', west'.trans east⟩, south.trans north'⟩, south'.trans north⟩

/-- **A point between two corners lies in a cell between their cells.** -/
theorem mem_cellsBetween [IsStrictOrderedRing K] {size : CellSize K}
    {minLon minLat maxLon maxLat lon lat : K}
    (west : minLon ≤ lon) (east : lon ≤ maxLon) (south : minLat ≤ lat) (north : lat ≤ maxLat) :
    tinyTilesFeatureCell lon lat size ∈ cellsBetween size minLon minLat maxLon maxLat := by
  have mono : ∀ {a b c : K}, a ≤ b → ⌊(a + c) / size.val⌋ ≤ ⌊(b + c) / size.val⌋ :=
    fun le => Int.floor_le_floor
      (div_le_div_of_nonneg_right (add_le_add_left le _) size.property.le)
  exact mem_rectangle.mpr ⟨⟨mono west, mono east⟩, mono south, mono north⟩

namespace TinyTilesWaterwayIndex

/-! ## The features of the grid -/

/-- The place is filed under all cells of the bounds, or as a large feature. -/
def Files (index : TinyTilesWaterwayIndex K) (entry : TinyTilesWaterway K × ℕ) : Prop :=
  entry.2 ∈ index.largeFeatures ∨
    ∀ cell ∈ cellsBetween index.cellSize entry.1.bounds.minLon entry.1.bounds.minLat
      entry.1.bounds.maxLon entry.1.bounds.maxLat,
      entry.2 ∈ bucket index.cells (tinyTilesWaterwayCellKey cell)

@[simp] theorem add_cellSize (index : TinyTilesWaterwayIndex K)
    (entry : TinyTilesWaterway K × ℕ) : (index.add entry).cellSize = index.cellSize := by
  rw [add]
  dsimp only
  split <;> rfl

@[simp] theorem add_features (index : TinyTilesWaterwayIndex K)
    (entry : TinyTilesWaterway K × ℕ) : (index.add entry).features = index.features := by
  rw [add]
  dsimp only
  split <;> rfl

theorem files_add (index : TinyTilesWaterwayIndex K) (entry : TinyTilesWaterway K × ℕ) :
    (index.add entry).Files entry := by
  rw [Files, add_cellSize, add]
  dsimp only
  split
  · exact Or.inl (List.mem_append_right _ (List.mem_singleton_self _))
  · refine Or.inr fun cell member => mem_bucket_pushAll.mpr (Or.inr ⟨?_, rfl⟩)
    exact List.mem_map_of_mem member

/-- What is filed stays filed. -/
theorem Files.add {index : TinyTilesWaterwayIndex K} {entry : TinyTilesWaterway K × ℕ}
    (filed : index.Files entry) (next : TinyTilesWaterway K × ℕ) :
    (index.add next).Files entry := by
  rw [Files, add_cellSize, TinyTilesWaterwayIndex.add]
  dsimp only
  split
  · exact filed.imp_left (List.mem_append_left _)
  · exact filed.imp_right fun cells cell member =>
      mem_bucket_pushAll.mpr (Or.inl (cells cell member))

theorem files_foldl {entries : List (TinyTilesWaterway K × ℕ)} :
    ∀ {index : TinyTilesWaterwayIndex K} {entry : TinyTilesWaterway K × ℕ},
      index.Files entry ∨ entry ∈ entries → (entries.foldl add index).Files entry := by
  induction entries with
  | nil => exact fun filed => filed.resolve_right List.not_mem_nil
  | cons next entries ih =>
      intro index entry filed
      rw [List.foldl_cons]
      refine ih ?_
      rcases filed with old | member
      · exact Or.inl (old.add next)
      · rcases List.mem_cons.mp member with rfl | later
        · exact Or.inl (files_add index entry)
        · exact Or.inr later

theorem foldl_add_features (entries : List (TinyTilesWaterway K × ℕ)) :
    ∀ index : TinyTilesWaterwayIndex K,
      (entries.foldl add index).features = index.features := by
  induction entries with
  | nil => exact fun _ => rfl
  | cons next entries ih =>
      intro index
      rw [List.foldl_cons, ih, add_features]

/-- A filed feature that meets the window is found. -/
theorem Files.mem_featuresIn [IsStrictOrderedRing K] {index : TinyTilesWaterwayIndex K}
    {entry : TinyTilesWaterway K × ℕ} (filed : index.Files entry) {window : CoordWindow K}
    (meets : entry.1.bounds.Meets window) : entry.2 ∈ index.featuresIn window := by
  obtain ⟨lon, lat, ⟨west, east⟩, ⟨south, north⟩, ⟨west', east'⟩, south', north'⟩ := meets
  rw [featuresIn, Finset.mem_sort, List.mem_toFinset, List.mem_append]
  rcases filed with large | cells
  · exact Or.inr large
  · refine Or.inl (List.mem_flatMap.mpr ⟨tinyTilesFeatureCell lon lat index.cellSize, ?_, ?_⟩)
    · exact mem_cellsBetween west' east' south' north'
    · exact cells _ (mem_cellsBetween west east south north)

end TinyTilesWaterwayIndex

end Grid

/-- **The grid hides no feature.** The index holds the given features in the order of their
classes. A query lists places of the index in strictly increasing order; every feature that
meets the window is among them, and in particular every one that the test of the query
accepts. -/
theorem featuresIn_complete {K : Type} [Field K] [LinearOrder K] [IsStrictOrderedRing K]
    [FloorRing K] (features : List (TinyTilesWaterway K)) (cellSize : CellSize K)
    (window : CoordWindow K) :
    (newTinyTilesFeatureGrid features cellSize).features.Perm features ∧
      ((newTinyTilesFeatureGrid features cellSize).featuresIn window).Pairwise (· < ·) ∧
      (∀ entry ∈ (newTinyTilesFeatureGrid features cellSize).features.zipIdx,
        entry.1.bounds.Meets window →
          entry.2 ∈ (newTinyTilesFeatureGrid features cellSize).featuresIn window) ∧
      (window.minLon ≤ window.maxLon → window.minLat ≤ window.maxLat →
        ∀ entry ∈ (newTinyTilesFeatureGrid features cellSize).features.zipIdx,
          entry.1.bounds.intersects window = true →
            entry.2 ∈ (newTinyTilesFeatureGrid features cellSize).featuresIn window) := by
  have kept : (newTinyTilesFeatureGrid features cellSize).features =
      sortTinyTilesWaterways features := TinyTilesWaterwayIndex.foldl_add_features _ _
  have found : ∀ entry ∈ (newTinyTilesFeatureGrid features cellSize).features.zipIdx,
      entry.1.bounds.Meets window →
        entry.2 ∈ (newTinyTilesFeatureGrid features cellSize).featuresIn window := by
    intro entry member meets
    rw [kept] at member
    exact (TinyTilesWaterwayIndex.files_foldl (Or.inr member)).mem_featuresIn meets
  refine ⟨?_, Finset.sortedLT_sort _ |>.pairwise, found, fun lonOrdered latOrdered => ?_⟩
  · rw [kept]
    exact sortSlice_perm _ _
  · exact fun entry member meets => found entry member
      ((TinyTilesWaterwayBounds.intersects_iff lonOrdered latOrdered).mp meets)

/-- A river across the meridian of Greenwich. -/
def greenwichRiver : TinyTilesWaterway ℚ :=
  ⟨1, "river", ⟨-1, 51, 1, 52, by norm_num, by norm_num⟩⟩

theorem featuresIn_complete_greenwich :
    0 ∈ (newTinyTilesFeatureGrid [greenwichRiver] ⟨1 / 4, by norm_num⟩).featuresIn
      ⟨51, 53, 0, 2⟩ := by
  have all := featuresIn_complete [greenwichRiver] ⟨1 / 4, by norm_num⟩ ⟨51, 53, 0, 2⟩
  have kept : (newTinyTilesFeatureGrid [greenwichRiver] ⟨1 / 4, by norm_num⟩).features =
      [greenwichRiver] := List.perm_singleton.mp all.1
  refine all.2.2.1 (greenwichRiver, 0) ?_ ⟨0, 51, ⟨?_, ?_⟩, ⟨?_, ?_⟩, ⟨?_, ?_⟩, ?_, ?_⟩
  · rw [kept]
    exact List.mem_singleton_self _
  all_goals norm_num [greenwichRiver]

end OsmMini.Cmd.Waterways

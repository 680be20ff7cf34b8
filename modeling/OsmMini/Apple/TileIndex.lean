import Mathlib
import OsmMini.Apple.Graphics
import OsmMini.Foundations.CountingSort
import OsmMini.Foundations.Literals
import OsmMini.Foundations.Grouping

/-!
# The index of the features of a tile

A tile has four grids over the same square, of 1, 4, 16 and 64 cells. Every feature lives in the
smallest cell that contains its bounding box, and in the one cell of the first grid if its box
does not lie in the tile. A counting sort puts the features of neighbouring cells of a row next
to each other.

A query visits the cells of every grid that it meets, row by row. What has the box of a feature
in common with the inside of the query is in one of these cells (`featureIndices_complete`).
-/

set_option autoImplicit false

namespace OsmMini.Apple

open OsmMini.Foundations OsmMini.Foundations.CountingSort

/-- The features of a drawing, all of them or some. -/
structure PreparedMapFeatureIndices where
  count : ℕ
  selected : Option (List ℕ)
  deriving DecidableEq

namespace PreparedMapFeatureIndices

def all (count : ℕ) : PreparedMapFeatureIndices := ⟨count, none⟩

def some (selected : List ℕ) : PreparedMapFeatureIndices := ⟨selected.length, Option.some selected⟩

def get? (f : PreparedMapFeatureIndices) (position : ℕ) : Option ℕ :=
  match f.selected with
  | none => Option.some position
  | Option.some selected => selected[position]?

/-- The elements of the collection. -/
def elements (f : PreparedMapFeatureIndices) : List ℕ := (List.range f.count).filterMap f.get?

theorem elements_all (count : ℕ) : (all count).elements = List.range count :=
  List.filterMap_some

theorem elements_some (selected : List ℕ) : (some selected).elements = selected :=
  filterMap_range selected

end PreparedMapFeatureIndices

/-- The offsets of the cells, and the features in the order of their cells. -/
structure PreparedMapTileIndex where
  offsets : List ℕ
  indices : List ℕ
  deriving DecidableEq

namespace PreparedMapTileIndex

/-- The side of every grid, and the number of cells before it. -/
def levels : List (ℕ × ℕ) := [(1, 0), (2, 1), (4, 5), (8, 21)]

def cellCount : ℕ := levels.foldl (fun count level => count + level.1 * level.1) 0

section Grid

variable {K : Type} [Field K] [LinearOrder K] [FloorRing K]

def tileBounds : Sides K := ⟨0, 0, 256, 256⟩

/-- The width of the cells of a grid. -/
def width (side : ℕ) : K := 256 / side

def cells : List (Sides K) :=
  levels.flatMap fun level =>
    (List.range level.1).flatMap fun y =>
      (List.range level.1).map fun x =>
        ⟨x * width level.1, y * width level.1, x * width level.1 + width level.1,
          y * width level.1 + width level.1⟩

/-- The column, or row, of a number that is not negative. -/
def gridCell (side : ℕ) (x : K) : ℕ := min (side - 1) ⌊x / width side⌋₊

/-- The last column, or row, before a number. -/
def lastCell (side : ℕ) (x : K) : ℕ := min (side - 1) (max 0 (⌈x / width side⌉₊ - 1))

/-- The cell of a box in a grid, if it lies in one. -/
def levelCell (b : Sides K) (level : ℕ × ℕ) : Option ℕ :=
  let minX := gridCell level.1 b.minX
  let minY := gridCell level.1 b.minY
  let maxX := gridCell level.1 b.maxX
  let maxY := gridCell level.1 b.maxY
  if minX = maxX ∧ minY = maxY then some (level.2 + minY * level.1 + minX) else none

end Grid

/-! ## Building -/

section Index

variable {K : Type} [Field K] [LinearOrder K] [FloorRing K] (g : CoreGraphics K Unit)

/-- The cell of a feature. The unusual rectangle is the one of an empty path. -/
def cell (bounds : CGRect K Unit) : ℕ :=
  match bounds with
  | .unusual _ => 0
  | .finite b =>
    if g.containsRect (.finite tileBounds) (.finite b) then
      (levels.reverse.findSome? (levelCell b)).getD 0
    else 0

/-- Build the index of features, given by their bounding boxes. -/
def init (features : List (CGRect K Unit)) : Option PreparedMapTileIndex :=
  if 128 ≤ features.length ∧ features.length ≤ 2 ^ 32 - 1 then
    let cells := features.map (cell g)
    let counts := histogram cells cellCount
    -- A tile made entirely of broad paths cannot benefit from this index.
    if counts.getD 0 0 < features.length then
      let offsets := offsetsOf counts
      some ⟨offsets, scatter cells (offsets.take counts.length)⟩
    else none
  else none

/-! ## Asking -/

variable (index : PreparedMapTileIndex)

/-- The numbers of a closed range. The program stops where there is none. -/
def closedRange (first last : ℕ) : Option (List ℕ) :=
  if first ≤ last then some (List.range' first (last + 1 - first)) else none

/-- The features of neighbouring cells. The program stops where the cells or the places in the
index are out of range. -/
def slice (first last : ℕ) : Option (List ℕ) := do
  let start ← index.offsets[first]?
  let stop ← index.offsets[last]?
  if start ≤ stop ∧ stop ≤ index.indices.length then
    some ((index.indices.take stop).drop start)
  else none

/-- The features in the cells of a grid that are visible. -/
def visibleIndices (visible : Sides K) (level : ℕ × ℕ) : Option (List ℕ) := do
  let minX := gridCell level.1 visible.minX
  let minY := gridCell level.1 visible.minY
  let maxX := lastCell level.1 visible.maxX
  let maxY := lastCell level.1 visible.maxY
  let rows ← closedRange minY maxY
  let slices ← rows.mapM fun y =>
    let row := level.2 + y * level.1
    index.slice (row + minX) (row + maxX + 1)
  some slices.flatten

/-- A rectangle without an inside. -/
def isEmpty (rect : CGRect K Unit) : Bool :=
  match rect with
  | .unusual _ => true
  | .finite r => r.minX = r.maxX || r.minY = r.maxY

/-- The part of a rectangle in another one that it meets. -/
def intersection (r s : Sides K) : Sides K :=
  ⟨max r.minX s.minX, max r.minY s.minY, min r.maxX s.maxX, min r.maxY s.maxY⟩

def featureIndices (rect : CGRect K Unit) : Option PreparedMapFeatureIndices := do
  let selected ←
    if isEmpty rect then do
      let slices ← (cells.zipIdx.filter fun entry => g.intersects (.finite entry.1) rect).mapM
        fun entry => index.slice entry.2 (entry.2 + 1)
      some slices.flatten
    else if g.intersects (.finite tileBounds) rect then
      match rect with
      | .unusual _ => none
      | .finite r => do
        let parts ← levels.mapM (index.visibleIndices (intersection r tileBounds))
        some parts.flatten
    else some []
  if selected.length = index.indices.length then some (.all index.indices.length)
  else some (.some (selected.mergeSort (· ≤ ·)))

end Index

/-! ## What is built -/

section Built

variable {K : Type} [Field K] [LinearOrder K] [FloorRing K] {g : CoreGraphics K Unit}

theorem cellCount_eq : cellCount = 85 := rfl

theorem level_pos {level : ℕ × ℕ} (known : level ∈ levels) : 0 < level.1 := by
  have all : ∀ level ∈ levels, 0 < level.1 := by decide
  exact all level known

theorem first_level : ((1, 0) : ℕ × ℕ) ∈ levels := by decide

theorem level_fits {level : ℕ × ℕ} (known : level ∈ levels) :
    level.2 + level.1 * level.1 ≤ cellCount := by
  have all : ∀ level ∈ levels, level.2 + level.1 * level.1 ≤ cellCount := by decide
  exact all level known

/-- The number of a cell stands behind those of the rows before. -/
theorem cellNumber_lt {side x y : ℕ} (column : x < side) (row : y < side) (offset : ℕ) :
    offset + y * side + x < offset + side * side := by
  have rows : (y + 1) * side ≤ side * side := Nat.mul_le_mul_right side row
  rw [Nat.add_mul, Nat.one_mul] at rows
  omega

theorem gridCell_lt {side : ℕ} (positive : 0 < side) (x : K) : gridCell side x < side := by
  have least : gridCell side x ≤ side - 1 := min_le_left _ _
  omega

theorem lastCell_lt {side : ℕ} (positive : 0 < side) (x : K) : lastCell side x < side := by
  have least : lastCell side x ≤ side - 1 := min_le_left _ _
  omega

/-- The cell of a box that lies in the tile: its column and its row in some grid. -/
theorem levelCell_some {b : Sides K} {level : ℕ × ℕ} {c : ℕ} (found : levelCell b level = some c) :
    gridCell level.1 b.minX = gridCell level.1 b.maxX ∧
      gridCell level.1 b.minY = gridCell level.1 b.maxY ∧
      c = level.2 + gridCell level.1 b.minY * level.1 + gridCell level.1 b.minX := by
  rw [levelCell] at found
  split_ifs at found with one
  cases found
  exact ⟨one.1, one.2, rfl⟩

/-- **A feature lives in a cell that contains its box**, or in the first one. -/
theorem cell_cases (bounds : CGRect K Unit) :
    (∃ b, bounds = .finite b ∧ g.containsRect (.finite tileBounds) (.finite b) = true ∧
      ∃ level ∈ levels, levelCell b level = some (cell g bounds)) ∨
    cell g bounds = 0 ∧
      ∀ b, bounds = .finite b → g.containsRect (.finite tileBounds) (.finite b) = false := by
  cases bounds with
  | unusual u => exact Or.inr ⟨rfl, fun b same => by cases same⟩
  | finite b =>
      by_cases inside : g.containsRect (.finite tileBounds) (.finite b) = true
      · refine Or.inl ⟨b, rfl, inside, ?_⟩
        have value : cell g (.finite b) = (levels.reverse.findSome? (levelCell b)).getD 0 := by
          rw [cell, if_pos inside]
        have first : levelCell b (1, 0) = some 0 := by
          have column : ∀ x : K, gridCell 1 x = 0 := fun x =>
            Nat.lt_one_iff.mp (gridCell_lt one_pos x)
          simp only [levelCell, column, and_self, if_true]
        rw [value]
        cases found : levels.reverse.findSome? (levelCell b) with
        | none => exact ⟨(1, 0), first_level, first⟩
        | some c =>
            obtain ⟨level, member, here⟩ := List.exists_of_findSome?_eq_some found
            exact ⟨level, List.mem_reverse.mp member, here⟩
      · refine Or.inr ⟨by rw [cell, if_neg inside], fun b' same => ?_⟩
        cases same
        exact Bool.eq_false_iff.mpr inside

theorem cell_lt (bounds : CGRect K Unit) : cell g bounds < cellCount := by
  rcases cell_cases (g := g) bounds with ⟨b, -, -, level, known, found⟩ | ⟨first, -⟩
  · obtain ⟨-, -, number⟩ := levelCell_some found
    have positive := level_pos known
    rw [number]
    exact (cellNumber_lt (gridCell_lt positive _) (gridCell_lt positive _) _).trans_le
      (level_fits known)
  · rw [first]
    decide

variable {features : List (CGRect K Unit)} {index : PreparedMapTileIndex}

/-- The features of a cell. -/
abbrev inCell (g : CoreGraphics K Unit) (features : List (CGRect K Unit)) : ℕ → List ℕ :=
  placesOf (features.map (cell g))

/-- **An index has its features cell by cell.** -/
theorem init_eq (built : init g features = some index) :
    index.offsets = (List.range (cellCount + 1)).map
        (fun c => (blocks (inCell g features) c).length) ∧
      index.indices = blocks (inCell g features) cellCount ∧
      index.indices.length = features.length := by
  have inside : ∀ c ∈ features.map (cell g), c < cellCount := by
    intro c member
    obtain ⟨bounds, -, rfl⟩ := List.mem_map.mp member
    exact cell_lt bounds
  rw [init] at built
  split_ifs at built with size
  dsimp only at built
  split_ifs at built with useful
  cases built
  have offsets : offsetsOf (histogram (features.map (cell g)) cellCount) =
      (List.range (cellCount + 1)).map fun c => (blocks (inCell g features) c).length := by
    rw [histogram_eq inside]
    exact offsetsOf_eq _ _
  have scattered : scatter (features.map (cell g))
      ((offsetsOf (histogram (features.map (cell g)) cellCount)).take
        (histogram (features.map (cell g)) cellCount).length) =
      blocks (inCell g features) cellCount := by
    have length : (histogram (features.map (cell g)) cellCount).length = cellCount := by
      rw [histogram_eq inside, List.length_map, List.length_range]
    rw [offsets, length]
    apply scatter_eq inside
    · rw [List.length_take, List.length_map, List.length_range]
      omega
    · intro c bound
      rw [List.getD_eq_getElem?_getD, List.getElem?_take_of_lt bound, List.getElem?_map,
        List.getElem?_range (by omega)]
      rfl
  refine ⟨offsets, scattered, ?_⟩
  rw [scattered, (blocks_perm inside).length_eq, List.length_range, List.length_map]

/-! ## What is asked -/

/-- The features of neighbouring cells are found. -/
theorem slice_eq (built : init g features = some index) {first last : ℕ} (ordered : first ≤ last)
    (inside : last ≤ cellCount) :
    index.slice first last =
      some ((List.range' first (last - first)).flatMap (inCell g features)) := by
  obtain ⟨offsets, indices, -⟩ := init_eq built
  have offset : ∀ c ≤ cellCount, index.offsets[c]? =
      some (blocks (inCell g features) c).length := by
    intro c bound
    rw [offsets, List.getElem?_map, List.getElem?_range (Nat.lt_succ_of_le bound)]
    rfl
  have fits : (blocks (inCell g features) first).length ≤ (blocks (inCell g features) last).length ∧
      (blocks (inCell g features) last).length ≤ index.indices.length :=
    ⟨length_blocks_mono _ ordered, indices ▸ length_blocks_mono _ inside⟩
  rw [slice, offset first (ordered.trans inside), offset last inside]
  simp only [Option.bind_eq_bind, Option.bind_some]
  rw [if_pos fits, indices, slice_blocks _ ordered inside]

/-- The cells of a grid that are visible, row by row. -/
def visibleCells (visible : Sides K) (level : ℕ × ℕ) : List ℕ :=
  let minX := gridCell level.1 visible.minX
  let minY := gridCell level.1 visible.minY
  let maxX := lastCell level.1 visible.maxX
  let maxY := lastCell level.1 visible.maxY
  (List.range' minY (maxY + 1 - minY)).flatMap fun y =>
    List.range' (level.2 + y * level.1 + minX) (maxX + 1 - minX)

theorem mem_visibleCells {visible : Sides K} {level : ℕ × ℕ} {c : ℕ} :
    c ∈ visibleCells visible level ↔ ∃ y x, c = level.2 + y * level.1 + x ∧
      (gridCell level.1 visible.minY ≤ y ∧ y ≤ lastCell level.1 visible.maxY) ∧
      gridCell level.1 visible.minX ≤ x ∧ x ≤ lastCell level.1 visible.maxX := by
  rw [visibleCells]
  simp only [List.mem_flatMap, List.mem_range'_1]
  constructor
  · rintro ⟨y, rows, columns⟩
    exact ⟨y, c - (level.2 + y * level.1), by omega, by omega, by omega⟩
  · rintro ⟨y, x, rfl, rows, columns⟩
    exact ⟨y, by omega, by omega⟩

/-- Visible cells are cells of their grid. -/
theorem visibleCells_bounds {visible : Sides K} {level : ℕ × ℕ} (known : level ∈ levels) {c : ℕ}
    (member : c ∈ visibleCells visible level) :
    level.2 ≤ c ∧ c < level.2 + level.1 * level.1 := by
  obtain ⟨y, x, rfl, rows, columns⟩ := mem_visibleCells.mp member
  have positive := level_pos known
  refine ⟨by omega, cellNumber_lt ?_ ?_ _⟩
  · exact columns.2.trans_lt (lastCell_lt positive _)
  · exact rows.2.trans_lt (lastCell_lt positive _)

theorem pairwise_visibleCells {visible : Sides K} {level : ℕ × ℕ} (known : level ∈ levels) :
    (visibleCells visible level).Pairwise (· < ·) := by
  have positive := level_pos known
  have columns : lastCell level.1 visible.maxX < level.1 := lastCell_lt positive _
  refine List.pairwise_flatMap.mpr ⟨fun y _ => List.pairwise_lt_range', ?_⟩
  refine List.Pairwise.imp (fun {y y'} later c first c' second => ?_) (List.pairwise_lt_range' 1)
  rw [List.mem_range'_1] at first second
  have rows : (y + 1) * level.1 ≤ y' * level.1 := Nat.mul_le_mul_right _ later
  rw [Nat.add_mul, Nat.one_mul] at rows
  omega

/-- **No cell is visited twice.** -/
theorem nodup_visibleCells (visible : Sides K) : (levels.flatMap (visibleCells visible)).Nodup := by
  have apart : levels.Pairwise fun a b => a.2 + a.1 * a.1 ≤ b.2 := by decide
  have sorted : (levels.flatMap (visibleCells visible)).Pairwise (· < ·) := by
    refine List.pairwise_flatMap.mpr ⟨fun level known => pairwise_visibleCells known, ?_⟩
    refine apart.imp_of_mem fun {a b} knownA knownB next c first c' second => ?_
    exact (visibleCells_bounds knownA first).2.trans_le
      (next.trans (visibleCells_bounds knownB second).1)
  exact sorted.imp ne_of_lt

theorem mapM_some {α β : Type} {f : α → Option β} {h : α → β} :
    ∀ {l : List α}, (∀ a ∈ l, f a = some (h a)) → l.mapM f = some (l.map h) := by
  intro l
  induction l with
  | nil => exact fun _ => rfl
  | cons a l ih =>
      intro found
      rw [List.mapM_cons, found a List.mem_cons_self,
        ih fun b member => found b (List.mem_cons_of_mem _ member)]
      rfl

/-- The features in the visible cells of a grid are found. -/
theorem visibleIndices_eq (built : init g features = some index) {visible : Sides K}
    {level : ℕ × ℕ} (known : level ∈ levels)
    (columns : gridCell level.1 visible.minX ≤ lastCell level.1 visible.maxX)
    (rows : gridCell level.1 visible.minY ≤ lastCell level.1 visible.maxY) :
    index.visibleIndices visible level =
      some ((visibleCells visible level).flatMap (inCell g features)) := by
  have positive := level_pos known
  rw [visibleIndices, closedRange, if_pos rows]
  simp only [Option.bind_eq_bind, Option.bind_some]
  have found : ∀ y ∈ List.range' (gridCell level.1 visible.minY)
      (lastCell level.1 visible.maxY + 1 - gridCell level.1 visible.minY),
      index.slice (level.2 + y * level.1 + gridCell level.1 visible.minX)
        (level.2 + y * level.1 + lastCell level.1 visible.maxX + 1) =
      some ((List.range' (level.2 + y * level.1 + gridCell level.1 visible.minX)
        (lastCell level.1 visible.maxX + 1 - gridCell level.1 visible.minX)).flatMap
          (inCell g features)) := by
    intro y member
    rw [List.mem_range'_1] at member
    have row : y < level.1 := by
      have last := lastCell_lt positive visible.maxY
      omega
    have last := cellNumber_lt (lastCell_lt positive visible.maxX) row level.2
    have fits := level_fits known
    have count : level.2 + y * level.1 + lastCell level.1 visible.maxX + 1 -
        (level.2 + y * level.1 + gridCell level.1 visible.minX) =
          lastCell level.1 visible.maxX + 1 - gridCell level.1 visible.minX := by omega
    rw [slice_eq built (by omega) (by omega), count]
  rw [mapM_some found, Option.bind_some, visibleCells, List.flatMap_assoc, ← List.flatMap_def]

end Built

/-! ## What is found -/

section Answer

variable {K : Type} [Field K] [LinearOrder K] [IsStrictOrderedRing K] [FloorRing K]

/-- A point on the sides of a rectangle or between them. -/
def HasPoint (r : Sides K) (p : K × K) : Prop :=
  (r.minX ≤ p.1 ∧ p.1 ≤ r.maxX) ∧ r.minY ≤ p.2 ∧ p.2 ≤ r.maxY

/-- A point between the sides of a rectangle. -/
def HasInside (r : Sides K) (p : K × K) : Prop :=
  (r.minX < p.1 ∧ p.1 < r.maxX) ∧ r.minY < p.2 ∧ p.2 < r.maxY

/-- A box in the tile. -/
def InTile (bounds : CGRect K Unit) : Prop :=
  ∃ b, bounds = .finite b ∧
    ((0 : K) ≤ b.minX ∧ b.maxX ≤ 256) ∧ (0 : K) ≤ b.minY ∧ b.maxY ≤ 256

theorem width_pos {side : ℕ} (positive : 0 < side) : (0 : K) < width side :=
  div_pos (by norm_num) (Nat.cast_pos.mpr positive)

theorem gridCell_mono {side : ℕ} (positive : 0 < side) {x x' : K} (before : x ≤ x') :
    gridCell side x ≤ gridCell side x' := by
  have scaled := div_le_div_of_nonneg_right before (width_pos (K := K) positive).le
  exact min_le_min (le_refl _) (Nat.floor_mono scaled)

/-- The cell of a number before the end of a query is one of the visible ones. At the far side
of the tile all cells are. -/
theorem gridCell_le_lastCell {side : ℕ} (positive : 0 < side) {x last : K}
    (before : x < last ∨ 256 ≤ last ∨ x ≤ 0) : gridCell side x ≤ lastCell side last := by
  have wide := width_pos (K := K) positive
  rcases le_or_gt x 0 with first | inside
  · have zero : gridCell side x = 0 := by
      rw [gridCell, Nat.floor_of_nonpos (div_nonpos_of_nonpos_of_nonneg first wide.le)]
      exact Nat.min_zero _
    rw [zero]
    exact Nat.zero_le _
  · rcases before with earlier | far | first
    · have scaled := div_lt_div_of_pos_right earlier wide
      have next := Nat.floor_lt_ceil_of_lt_of_pos scaled (div_pos (inside.trans earlier) wide)
      rw [gridCell, lastCell]
      omega
    · have all : side ≤ ⌈last / width side⌉₊ := by
        have cells : (side : K) = 256 / width side := by
          rw [width, div_div_cancel₀ (by norm_num)]
        have bound : (side : K) ≤ ⌈last / width side⌉₊ :=
          (cells.le.trans (div_le_div_of_nonneg_right far wide.le)).trans (Nat.le_ceil _)
        exact_mod_cast bound
      rw [gridCell, lastCell]
      omega
    · exact absurd first (not_le.mpr inside)

variable {g : CoreGraphics K Unit} {features : List (CGRect K Unit)}
  {index : PreparedMapTileIndex} {rect : Sides K}

/-- A query with an inside that meets the tile has visible cells in every grid. -/
theorem visible_ordered {side : ℕ} (positive : 0 < side) {low high : K} (wide : low < high) :
    gridCell side (max low 0) ≤ lastCell side (min high 256) := by
  apply gridCell_le_lastCell positive
  rcases le_or_gt low 0 with outside | inside
  · exact Or.inr (Or.inr (max_le outside (le_refl _)))
  · rcases le_or_gt 256 high with far | near
    · exact Or.inr (Or.inl (le_min far (le_refl _)))
    · refine Or.inl ?_
      rw [max_eq_left inside.le, min_eq_left near.le]
      exact wide

/-- **What is selected.** -/
theorem featureIndices_eq (built : init g features = some index)
    (wide : rect.minX < rect.maxX ∧ rect.minY < rect.maxY)
    (meets : g.intersects (.finite tileBounds) (.finite rect) = true) :
    let selected := (levels.flatMap (visibleCells (intersection rect tileBounds))).flatMap
      (inCell g features)
    featureIndices g index (.finite rect) = some
      (if selected.length = features.length then .all features.length
        else .some (selected.mergeSort (· ≤ ·))) := by
  have inside : isEmpty (.finite rect) = false := by
    rw [isEmpty, Bool.or_eq_false_iff, decide_eq_false_iff_not, decide_eq_false_iff_not]
    exact ⟨wide.1.ne, wide.2.ne⟩
  have parts : levels.mapM (index.visibleIndices (intersection rect tileBounds)) =
      some (levels.map fun level =>
        (visibleCells (intersection rect tileBounds) level).flatMap (inCell g features)) := by
    refine mapM_some fun level known => ?_
    have positive := level_pos known
    exact visibleIndices_eq built known (visible_ordered positive wide.1)
      (visible_ordered positive wide.2)
  obtain ⟨-, -, size⟩ := init_eq built
  rw [featureIndices, inside]
  simp only [Bool.false_eq_true, if_false, meets, if_true, parts, Option.bind_eq_bind,
    Option.bind_some, size, List.flatMap_assoc, ← List.flatMap_def]
  split_ifs <;> rfl

/-- Selected features in ascending order, or all of them. -/
theorem elements_answer {selected : List ℕ} {n : ℕ} (distinct : selected.Nodup)
    (known : ∀ i ∈ selected, i < n) :
    let found : PreparedMapFeatureIndices :=
      if selected.length = n then .all n else .some (selected.mergeSort (· ≤ ·))
    found.elements.Pairwise (· < ·) ∧ (∀ i ∈ found.elements, i < n) ∧
      ∀ i ∈ selected, i ∈ found.elements := by
  by_cases everything : selected.length = n
  · simp only [everything, if_true, PreparedMapFeatureIndices.elements_all, List.mem_range]
    exact ⟨List.pairwise_lt_range, fun i bound => bound, known⟩
  · simp only [everything, if_false, PreparedMapFeatureIndices.elements_some, List.mem_mergeSort]
    refine ⟨?_, known, fun i member => member⟩
    have sorted : (selected.mergeSort (· ≤ ·)).Pairwise (· ≤ ·) := by
      have total := List.pairwise_mergeSort' (r := (· ≤ ·)) selected
      exact total
    have apart : (selected.mergeSort (· ≤ ·)).Nodup :=
      (List.mergeSort_perm selected _).nodup_iff.mpr distinct
    exact (sorted.and apart).imp fun both => lt_of_le_of_ne both.1 both.2

omit [IsStrictOrderedRing K] in
/-- A feature in a visible cell is selected. -/
theorem mem_selected {visible : Sides K} {level : ℕ × ℕ} (known : level ∈ levels) {i : ℕ}
    {bounds : CGRect K Unit} (listed : features[i]? = some bounds)
    (member : cell g bounds ∈ visibleCells visible level) :
    i ∈ (levels.flatMap (visibleCells visible)).flatMap (inCell g features) := by
  refine List.mem_flatMap.mpr ⟨_, List.mem_flatMap.mpr ⟨level, known, member⟩, ?_⟩
  rw [inCell, mem_placesOf, List.getElem?_map, listed]
  rfl

/-- **The cell of a feature is visible where its box has a point in common with the query.** -/
theorem cell_visible {level : ℕ × ℕ} (known : level ∈ levels) {b : Sides K} {c : ℕ}
    (found : levelCell b level = some c) {p : K × K} (point : HasPoint b p)
    (inside : HasInside rect p) (tile : HasPoint tileBounds p) :
    c ∈ visibleCells (intersection rect tileBounds) level := by
  have positive := level_pos known
  obtain ⟨column, row, number⟩ := levelCell_some found
  obtain ⟨⟨west, east⟩, south, north⟩ := point
  obtain ⟨⟨afterX, beforeX⟩, afterY, beforeY⟩ := inside
  obtain ⟨⟨tileWest, tileEast⟩, tileSouth, tileNorth⟩ := tile
  -- The point lies in the same column and row as the sides of the box.
  have columnOf : gridCell level.1 p.1 = gridCell level.1 b.minX :=
    le_antisymm (column ▸ gridCell_mono positive east) (gridCell_mono positive west)
  have rowOf : gridCell level.1 p.2 = gridCell level.1 b.minY :=
    le_antisymm (row ▸ gridCell_mono positive north) (gridCell_mono positive south)
  have last : ∀ {x high : K}, x < high → x ≤ 256 →
      gridCell level.1 x ≤ lastCell level.1 (min high 256) := by
    intro x high before bound
    apply gridCell_le_lastCell positive
    rcases le_or_gt 256 high with far | near
    · exact Or.inr (Or.inl (le_min far (le_refl _)))
    · exact Or.inl (lt_min before (before.trans near))
  refine mem_visibleCells.mpr ⟨_, _, number, ⟨?_, ?_⟩, ?_, ?_⟩
  · rw [← rowOf]
    exact gridCell_mono positive (max_le afterY.le tileSouth)
  · rw [← rowOf]
    exact last beforeY tileNorth
  · rw [← columnOf]
    exact gridCell_mono positive (max_le afterX.le tileWest)
  · rw [← columnOf]
    exact last beforeX tileEast

omit [IsStrictOrderedRing K] in
/-- The first cell is always visible. -/
theorem zero_visible (visible : Sides K) : 0 ∈ visibleCells visible (1, 0) := by
  have none : ∀ x : K, gridCell 1 x = 0 := fun x => Nat.lt_one_iff.mp (gridCell_lt one_pos x)
  refine mem_visibleCells.mpr ⟨0, 0, rfl, ⟨?_, Nat.zero_le _⟩, ?_, Nat.zero_le _⟩
  · exact (none _).le
  · exact (none _).le

end Answer

/-- **The index never hides a feature.** A query that has an inside and meets the tile is
answered by different indices of features in ascending order. Among them is every feature whose
box has a point in common with the inside of the query in the tile, and every feature whose box
does not lie in the tile. -/
theorem featureIndices_complete {K : Type} [Field K] [LinearOrder K] [IsStrictOrderedRing K]
    [FloorRing K] {g : CoreGraphics K Unit} {features : List (CGRect K Unit)}
    {index : PreparedMapTileIndex} {rect : Sides K}
    (built : init g features = some index)
    (wide : rect.minX < rect.maxX ∧ rect.minY < rect.maxY)
    (meets : g.intersects (.finite tileBounds) (.finite rect) = true) :
    ∃ found, featureIndices g index (.finite rect) = some found ∧
      found.elements.Pairwise (· < ·) ∧ (∀ i ∈ found.elements, i < features.length) ∧
      (∀ i b p, features[i]? = some (.finite b) → HasPoint b p → HasInside rect p →
        HasPoint tileBounds p → i ∈ found.elements) ∧
      ∀ i bounds, features[i]? = some bounds → ¬InTile bounds → i ∈ found.elements := by
  have selected := featureIndices_eq built wide meets
  obtain ⟨ascending, valid, kept⟩ := elements_answer (n := features.length)
    (nodup_flatMap_placesOf (features.map (cell g))
      (nodup_visibleCells (intersection rect tileBounds))) (by
        intro i member
        obtain ⟨c, -, here⟩ := List.mem_flatMap.mp member
        have bound := (List.getElem?_eq_some_iff.mp (mem_placesOf.mp here)).1
        rwa [List.length_map] at bound)
  refine ⟨_, selected, ascending, valid, ?_, ?_⟩
  · intro i b p listed point inside tile
    apply kept
    rcases cell_cases (g := g) (.finite b) with ⟨b', same, -, level, known, found⟩ | ⟨first, -⟩
    · cases same
      exact mem_selected known listed (cell_visible known found point inside tile)
    · refine mem_selected first_level listed ?_
      rw [first]
      exact zero_visible _
  · intro i bounds listed outside
    apply kept
    refine mem_selected first_level listed ?_
    rcases cell_cases (g := g) bounds with ⟨b, same, inside, -⟩ | ⟨first, -⟩
    · exact absurd ⟨b, same, g.containsRect_sides _ _ inside⟩ outside
    · rw [first]
      exact zero_visible _

/-- Features along the diagonal of the tile. -/
def diagonal : List (CGRect ℚ Unit) :=
  (List.range 128).map fun i : ℕ => .finite ⟨2 * i, 2 * i, 2 * i + 3, 2 * i + 3⟩

/-- The index of the diagonal finds the feature at its middle. -/
theorem featureIndices_complete_diagonal :
    ∃ index found, init overlapping diagonal = some index ∧
      featureIndices overlapping index (.finite ⟨100, 100, 160, 300⟩) = some found ∧
      64 ∈ found.elements := by
  have some : (init overlapping diagonal).isSome = true := by decide +kernel
  obtain ⟨index, built⟩ := Option.isSome_iff_exists.mp some
  have wide : (100 : ℚ) < 160 ∧ (100 : ℚ) < 300 := by norm_num
  have meets : overlapping.intersects (.finite tileBounds)
      (.finite ⟨100, 100, 160, 300⟩) = true := by decide +kernel
  obtain ⟨found, answer, -, -, hits, -⟩ := featureIndices_complete built wide meets
  have listed : diagonal[64]? = Option.some (.finite ⟨128, 128, 131, 131⟩) := by
    rw [diagonal, List.getElem?_map, List.getElem?_range (by decide)]
    norm_num
  refine ⟨index, found, built, answer, hits 64 _ (130, 130) listed ?_ ?_ ?_⟩
  · norm_num [HasPoint]
  · norm_num [HasInside]
  · norm_num [HasPoint, tileBounds]

end PreparedMapTileIndex

end OsmMini.Apple

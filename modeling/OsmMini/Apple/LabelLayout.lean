import Mathlib.Algebra.Order.Field.Basic
import Mathlib.Algebra.Order.Floor.Ring
import Mathlib.Data.List.Nodup
import Mathlib.Data.Rat.Floor
import OsmMini.Foundations.Literals
import OsmMini.Apple.Graphics
import OsmMini.Foundations.LinkedBuckets

/-!
# Labels that do not overlap

A layout of labels keeps the rectangles that are taken and the names that are shown. A new label
is placed where it meets none of the rectangles. Once there are sixteen of them an index finds
the rectangles near a place: each is linked into the cells of a grid that it covers, and those
that do not lie in the grid are kept aside.

A rectangle that contains a point, or meets another rectangle, shares a cell with it. So the
index answers like a scan of all rectangles (`CollisionIndex.contains_eq`,
`CollisionIndex.intersects_eq`), and labels never overlap whenever it is built (`layout_scan`).
-/

set_option autoImplicit false

namespace OsmMini.Apple

open Foundations

section Layout

variable {K U : Type} [Field K] [LinearOrder K] [FloorRing K]

/-! ## The index -/

/-- The greatest number of 32 bits ends the lists of the index. -/
def uint32Max : ℕ := 2 ^ 32 - 1

structure CollisionIndex (K : Type) where
  width : K
  height : K
  cellSize : K
  columns : ℕ
  rows : ℕ
  buckets : LinkedBuckets
  fallback : List ℕ

/-- The first and the last column, and the first and the last row. -/
structure CellRange where
  firstX : ℕ
  lastX : ℕ
  firstY : ℕ
  lastY : ℕ

namespace CollisionIndex

variable (index : CollisionIndex K)

def column (x : K) : ℕ := min (index.columns - 1) ⌊x / index.cellSize⌋.toNat

def row (y : K) : ℕ := min (index.rows - 1) ⌊y / index.cellSize⌋.toNat

def cell (x y : ℕ) : ℕ := y * index.columns + x

/-- The cells that a rectangle covers, if it lies in the grid. -/
def cells (rectangle : CGRect K U) : Option CellRange :=
  match rectangle with
  | .unusual _ => none
  | .finite r =>
    if 0 ≤ r.minX ∧ 0 ≤ r.minY ∧ r.maxX ≤ index.width ∧ r.maxY ≤ index.height ∧
        r.minX ≤ r.maxX ∧ r.minY ≤ r.maxY then
      some ⟨index.column r.minX, index.column r.maxX, index.row r.minY, index.row r.maxY⟩
    else none

/-- The cells of a range, row by row. -/
def cellList (range : CellRange) : List ℕ :=
  (List.range' range.firstY (range.lastY + 1 - range.firstY)).flatMap fun y =>
    (List.range' range.firstX (range.lastX + 1 - range.firstX)).map fun x => index.cell x y

def insert (rectangle : CGRect K U) (at' : ℕ) : CollisionIndex K :=
  if at' ≤ uint32Max then
    match index.cells rectangle with
    | none => { index with fallback := index.fallback ++ [at'] }
    | some range =>
      if index.buckets.entries.length + (index.cellList range).length ≤ uint32Max then
        { index with buckets := index.buckets.pushCells uint32Max (index.cellList range) at' }
      else { index with fallback := index.fallback ++ [at'] }
  else { index with fallback := index.fallback ++ [at'] }

/-- Whether a rectangle of a cell passes a test. -/
def anyIn (cell : ℕ) (test : ℕ → Bool) : Bool :=
  LinkedBuckets.walk index.buckets.entries uint32Max test (index.buckets.entries.length + 1)
    (index.buckets.heads.getD cell uint32Max)

variable (graphics : CoreGraphics K U)

def contains (point : K × K) (rectangles : List (CGRect K U)) : Bool :=
  let test := fun i => (rectangles[i]?).any (graphics.contains · point)
  if 0 ≤ point.1 ∧ 0 ≤ point.2 ∧ point.1 ≤ index.width ∧ point.2 ≤ index.height then
    index.fallback.any test || index.anyIn (index.cell (index.column point.1) (index.row point.2)) test
  else rectangles.any (graphics.contains · point)

def intersects (rectangle : CGRect K U) (rectangles : List (CGRect K U)) : Bool :=
  let test := fun i => (rectangles[i]?).any (graphics.intersects · rectangle)
  match index.cells rectangle with
  | none => rectangles.any (graphics.intersects · rectangle)
  | some range =>
    index.fallback.any test || (index.cellList range).any fun cell => index.anyIn cell test

/-- The index of some rectangles, unless the viewport is empty or not finite. -/
def build (rectangles : List (CGRect K U)) (viewport : CGSize K) : Option (CollisionIndex K) :=
  match viewport.width, viewport.height with
  | some width, some height =>
    if 0 < width ∧ 0 < height then
      let cellSize : K := max 64 (⌈max width height / 32⌉ : ℤ)
      let columns := max 1 ⌈width / cellSize⌉.toNat
      let rows := max 1 ⌈height / cellSize⌉.toNat
      let empty : CollisionIndex K :=
        ⟨width, height, cellSize, columns, rows,
          ⟨List.replicate (columns * rows) uint32Max, []⟩, []⟩
      some (rectangles.zipIdx.foldl (fun index entry => index.insert entry.1 entry.2) empty)
    else none
  | _, _ => none

end CollisionIndex

/-! ## The layout -/

structure OfflineMapLabelLayout (K U : Type) where
  occupied : List (CGRect K U)
  names : List String
  viewport : Option (CGSize K)
  collisionIndex : Option (CollisionIndex K)

namespace OfflineMapLabelLayout

def init (obstacles : List (CGRect K U)) (viewport : Option (CGSize K)) :
    OfflineMapLabelLayout K U where
  occupied := obstacles
  names := []
  viewport := viewport
  collisionIndex := if 16 ≤ obstacles.length then viewport.bind (CollisionIndex.build obstacles)
    else none

variable (graphics : CoreGraphics K U) (layout : OfflineMapLabelLayout K U)

def canUse (key : String) : Bool := key ≠ "" && key ∉ layout.names

/-- The part of the viewport that labels may use. -/
def labelArea (viewport : CGSize K) : CGRect K U :=
  graphics.insetBy (graphics.ofSize viewport) 6 6

/-- Whether a rectangle of the layout contains a point. -/
def isTaken (point : K × K) : Bool :=
  match layout.collisionIndex with
  | some index => index.contains graphics point layout.occupied
  | none => layout.occupied.any (graphics.contains · point)

/-- Whether a rectangle of the layout meets a rectangle. -/
def meets (footprint : CGRect K U) : Bool :=
  match layout.collisionIndex with
  | some index => index.intersects graphics footprint layout.occupied
  | none => layout.occupied.any (graphics.intersects · footprint)

def anchorIsAvailable (point : CGPoint K) (viewport : CGSize K) : Bool :=
  match point.x, point.y with
  | some x, some y =>
    graphics.contains (labelArea graphics viewport) (x, y) && !layout.isTaken graphics (x, y)
  | _, _ => false

def canPlace (key : String) (point : CGPoint K) (viewport : CGSize K) : Bool :=
  layout.anchorIsAvailable graphics point viewport && layout.canUse key

/-- The rectangle of a label with a margin. -/
def footprint (frame : CGRect K U) : CGRect K U := graphics.insetBy frame (-4) (-3)

/-- A frame with finite sides and an area, inside of the part that labels may use. -/
def fits (frame : CGRect K U) (viewport : CGSize K) : Bool :=
  match frame with
  | .unusual _ => false
  | .finite r => (r.minX < r.maxX && r.minY < r.maxY) &&
      graphics.containsRect (labelArea graphics viewport) frame

def reserve (key : String) (frame : CGRect K U) (viewport : CGSize K) :
    OfflineMapLabelLayout K U × Bool :=
  if layout.canUse key && fits graphics frame viewport then
    let footprint := footprint graphics frame
    if layout.meets graphics footprint then (layout, false)
    else
      let occupied := layout.occupied ++ [footprint]
      let collisionIndex :=
        match layout.collisionIndex with
        | some index => some (index.insert footprint (occupied.length - 1))
        | none =>
          if occupied.length = 16 then layout.viewport.bind (CollisionIndex.build occupied)
          else none
      (⟨occupied, layout.names ++ [key], layout.viewport, collisionIndex⟩, true)
  else (layout, false)

end OfflineMapLabelLayout

/-! ## The index holds the rectangles -/

namespace CollisionIndex

/-- Every rectangle is kept aside or linked into all cells that it covers. -/
structure Represents (index : CollisionIndex K) (rectangles : List (CGRect K U))
    (values : ℕ → List ℕ) : Prop where
  size : 0 < index.cellSize
  columns : 0 < index.columns
  rows : 0 < index.rows
  heads : index.buckets.heads.length = index.columns * index.rows
  holds : ∀ cell < index.columns * index.rows,
    index.buckets.Holds uint32Max cell (values cell)
  linked : ∀ cell, ∀ i ∈ values cell, i < rectangles.length
  aside : ∀ i ∈ index.fallback, i < rectangles.length
  found : ∀ (i : ℕ) (r : CGRect K U), rectangles[i]? = some r → i ∈ index.fallback ∨
    ∃ range, index.cells r = some range ∧ ∀ cell ∈ index.cellList range, i ∈ values cell

omit [Field K] [LinearOrder K] [FloorRing K] in
theorem mem_cellList {index : CollisionIndex K} {range : CellRange} {cell : ℕ} :
    cell ∈ index.cellList range ↔ ∃ x y, (range.firstX ≤ x ∧ x ≤ range.lastX) ∧
      (range.firstY ≤ y ∧ y ≤ range.lastY) ∧ index.cell x y = cell := by
  simp only [cellList, List.mem_flatMap, List.mem_map, List.mem_range'_1]
  constructor
  · rintro ⟨y, ⟨lowY, highY⟩, x, ⟨lowX, highX⟩, rfl⟩
    exact ⟨x, y, ⟨lowX, by omega⟩, ⟨lowY, by omega⟩, rfl⟩
  · rintro ⟨x, y, ⟨lowX, highX⟩, ⟨lowY, highY⟩, rfl⟩
    exact ⟨y, ⟨lowY, by omega⟩, x, ⟨lowX, by omega⟩, rfl⟩

omit [Field K] [LinearOrder K] [FloorRing K] in
theorem cell_lt {index : CollisionIndex K} {x y : ℕ} (inX : x < index.columns)
    (inY : y < index.rows) : index.cell x y < index.columns * index.rows := by
  have rows : y * index.columns + index.columns ≤ index.rows * index.columns := by
    rw [← Nat.succ_mul]
    exact Nat.mul_le_mul_right _ inY
  rw [cell, Nat.mul_comm index.columns]
  omega

omit [Field K] [LinearOrder K] [FloorRing K] in
theorem cell_inj {index : CollisionIndex K} {x y x' y' : ℕ} (inX : x < index.columns)
    (inX' : x' < index.columns) (same : index.cell x y = index.cell x' y') : x = x' ∧ y = y' := by
  rw [cell, cell] at same
  have columns : x = x' := by
    have rest := congrArg (· % index.columns) same
    simpa [Nat.mod_eq_of_lt inX, Nat.mod_eq_of_lt inX'] using rest
  subst columns
  have positive : 0 < index.columns := Nat.zero_lt_of_lt inX
  exact ⟨rfl, Nat.eq_of_mul_eq_mul_right positive (Nat.add_right_cancel same)⟩

theorem column_lt {index : CollisionIndex K} (positive : 0 < index.columns) (x : K) :
    index.column x < index.columns :=
  (min_le_left ..).trans_lt (Nat.sub_lt positive Nat.one_pos)

theorem row_lt {index : CollisionIndex K} (positive : 0 < index.rows) (y : K) :
    index.row y < index.rows :=
  (min_le_left ..).trans_lt (Nat.sub_lt positive Nat.one_pos)

theorem cells_eq {index : CollisionIndex K} {r : CGRect K U} {range : CellRange}
    (covered : index.cells r = some range) : ∃ sides, r = .finite sides ∧
      range = ⟨index.column sides.minX, index.column sides.maxX, index.row sides.minY,
        index.row sides.maxY⟩ ∧ sides.minX ≤ sides.maxX ∧ sides.minY ≤ sides.maxY := by
  cases r with
  | unusual rect => cases covered
  | finite sides =>
      rw [cells] at covered
      split at covered
      · rename_i inGrid
        obtain ⟨-, -, -, -, ordered⟩ := inGrid
        exact ⟨sides, rfl, (Option.some.inj covered).symm, ordered⟩
      · cases covered

theorem cellList_lt {index : CollisionIndex K} (columns : 0 < index.columns)
    (rows : 0 < index.rows) {r : CGRect K U} {range : CellRange}
    (covered : index.cells r = some range) :
    (index.cellList range).Nodup ∧
      ∀ cell ∈ index.cellList range, cell < index.columns * index.rows := by
  obtain ⟨lastX, lastY⟩ : range.lastX < index.columns ∧ range.lastY < index.rows := by
    obtain ⟨sides, -, rfl, -⟩ := cells_eq covered
    exact ⟨column_lt columns _, row_lt rows _⟩
  constructor
  · have columnsOf : ∀ x ∈ List.range' range.firstX (range.lastX + 1 - range.firstX),
        x < index.columns := by
      intro x member
      rw [List.mem_range'_1] at member
      omega
    rw [cellList, List.nodup_flatMap]
    constructor
    · intro y _
      refine List.Nodup.map_on (fun x inX x' inX' same => ?_) List.nodup_range'
      exact (cell_inj (columnsOf x inX) (columnsOf x' inX') same).1
    · have rows : (List.range' range.firstY (range.lastY + 1 - range.firstY)).Nodup :=
        List.nodup_range'
      refine rows.imp fun {y y'} different cell here there => ?_
      obtain ⟨x, inX, rfl⟩ := List.mem_map.mp here
      obtain ⟨x', inX', same⟩ := List.mem_map.mp there
      exact different (cell_inj (columnsOf x' inX') (columnsOf x inX) same).2.symm
  · intro cell member
    obtain ⟨x, y, ⟨-, inX⟩, ⟨-, inY⟩, rfl⟩ := mem_cellList.mp member
    exact cell_lt (inX.trans_lt lastX) (inY.trans_lt lastY)

/-- Putting a rectangle aside. -/
theorem Represents.putAside {index : CollisionIndex K} {rectangles : List (CGRect K U)}
    {values : ℕ → List ℕ} (known : index.Represents rectangles values) (r : CGRect K U) :
    Represents { index with fallback := index.fallback ++ [rectangles.length] }
      (rectangles ++ [r]) values where
  size := known.size
  columns := known.columns
  rows := known.rows
  heads := known.heads
  holds := known.holds
  linked cell i member := by
    rw [List.length_append]
    exact (known.linked cell i member).trans (Nat.lt_succ_self _)
  aside i member := by
    rw [List.length_append]
    rcases List.mem_append.mp member with old | new
    · exact (known.aside i old).trans (Nat.lt_succ_self _)
    · rw [List.mem_singleton.mp new]
      exact Nat.lt_succ_self _
  found i r' at' := by
    by_cases old : i < rectangles.length
    · rw [List.getElem?_append_left old] at at'
      exact (known.found i r' at').imp (List.mem_append_left _) id
    · have inside := (List.getElem?_eq_some_iff.mp at').1
      rw [List.length_append, List.length_singleton] at inside
      have last : i = rectangles.length := by omega
      exact .inl (List.mem_append_right _ (List.mem_singleton.mpr last))

/-- **A rectangle is linked into its cells** or put aside. -/
theorem Represents.insert {index : CollisionIndex K} {rectangles : List (CGRect K U)}
    {values : ℕ → List ℕ} (known : index.Represents rectangles values) (r : CGRect K U) :
    ∃ values', (index.insert r rectangles.length).Represents (rectangles ++ [r]) values' := by
  rw [CollisionIndex.insert]
  split
  · cases covered : index.cells r with
    | none => exact ⟨values, known.putAside r⟩
    | some range =>
        dsimp only
        split
        · rename_i room
          obtain ⟨distinct, inside⟩ := cellList_lt known.columns known.rows covered
          refine ⟨fun cell => if cell ∈ index.cellList range then
            rectangles.length :: values cell else values cell, ?_⟩
          have length : (rectangles ++ [r]).length = rectangles.length + 1 := List.length_append
          refine ⟨known.size, known.columns, known.rows, ?_, ?_, ?_, ?_, ?_⟩
          · exact (LinkedBuckets.length_heads_pushCells ..).trans known.heads
          · intro cell small
            refine LinkedBuckets.holds_pushCells distinct _ (fun cell member => ?_) room
              (known.holds cell small)
            rw [known.heads]
            exact inside cell member
          · intro cell i member
            rw [length]
            have old : ∀ i ∈ values cell, i < rectangles.length + 1 := fun i old =>
              (known.linked cell i old).trans (Nat.lt_succ_self _)
            split at member
            · rcases List.mem_cons.mp member with rfl | earlier
              · exact Nat.lt_succ_self _
              · exact old i earlier
            · exact old i member
          · intro i member
            rw [length]
            exact (known.aside i member).trans (Nat.lt_succ_self _)
          · intro i r' at'
            by_cases old : i < rectangles.length
            · rw [List.getElem?_append_left old] at at'
              refine (known.found i r' at').imp id ?_
              rintro ⟨range', covered', all⟩
              refine ⟨range', covered', fun cell member => ?_⟩
              split
              · exact List.mem_cons_of_mem _ (all cell member)
              · exact all cell member
            · have bounded := (List.getElem?_eq_some_iff.mp at').1
              have last : i = rectangles.length := by omega
              subst last
              rw [List.getElem?_concat_length] at at'
              obtain rfl := Option.some.inj at'
              refine .inr ⟨range, covered, fun cell member => ?_⟩
              have here : cell ∈ index.cellList range := member
              rw [if_pos here]
              exact List.mem_cons_self
        · exact ⟨values, known.putAside r⟩
  · exact ⟨values, known.putAside r⟩

/-- **The index of some rectangles** holds them all. -/
theorem represents_build [IsStrictOrderedRing K] {rectangles : List (CGRect K U)} {viewport : CGSize K}
    {index : CollisionIndex K} (built : build rectangles viewport = some index) :
    ∃ values, index.Represents rectangles values := by
  have all : ∀ (l done : List (CGRect K U)) (index : CollisionIndex K) values,
      index.Represents done values →
      ∃ values', ((l.zipIdx done.length).foldl (fun index entry => index.insert entry.1 entry.2)
        index).Represents (done ++ l) values' := by
    intro l
    induction l with
    | nil =>
        intro done index values known
        rw [List.append_nil]
        exact ⟨values, known⟩
    | cons r l ih =>
        intro done index values known
        obtain ⟨values', next⟩ := known.insert r
        have later := ih (done ++ [r]) _ values' next
        rw [List.length_append, List.length_singleton, List.append_assoc] at later
        rw [List.zipIdx_cons, List.foldl_cons]
        exact later
  rw [build] at built
  split at built
  · split at built
    · rename_i width height _ _ positive
      refine Option.some.inj built ▸ all rectangles [] _ (fun _ => []) ?_
      refine ⟨?_, ?_, ?_, List.length_replicate .., fun cell _ => LinkedBuckets.holds_empty _ cell,
        fun _ _ none => absurd none List.not_mem_nil, fun _ none => absurd none List.not_mem_nil,
        fun i r none => absurd none (by simp)⟩
      · have least : (0 : K) < 64 := by norm_num
        exact least.trans_le (le_max_left ..)
      · exact Nat.one_pos.trans_le (le_max_left ..)
      · exact Nat.one_pos.trans_le (le_max_left ..)
    · cases built
  · cases built

/-! ## Queries -/

section Queries

variable [IsStrictOrderedRing K] {index : CollisionIndex K} {rectangles : List (CGRect K U)}
  {values : ℕ → List ℕ}

theorem column_mono (known : index.Represents rectangles values) {x x' : K} (less : x ≤ x') :
    index.column x ≤ index.column x' :=
  min_le_min_left _ (Int.toNat_le_toNat (Int.floor_le_floor
    (div_le_div_of_nonneg_right less known.size.le)))

theorem row_mono (known : index.Represents rectangles values) {y y' : K} (less : y ≤ y') :
    index.row y ≤ index.row y' :=
  min_le_min_left _ (Int.toNat_le_toNat (Int.floor_le_floor
    (div_le_div_of_nonneg_right less known.size.le)))

omit [IsStrictOrderedRing K] in
theorem anyIn_eq (known : index.Represents rectangles values) {cell : ℕ}
    (inside : cell < index.columns * index.rows) (test : ℕ → Bool) :
    index.anyIn cell test = (values cell).any test :=
  LinkedBuckets.walk_eq (known.holds cell inside) test

omit [FloorRing K] [IsStrictOrderedRing K] [Field K] [LinearOrder K] in
theorem any_iff {test : CGRect K U → Bool} {rectangles : List (CGRect K U)} :
    rectangles.any test = true ↔
      ∃ (i : ℕ) (r : CGRect K U), rectangles[i]? = some r ∧ test r = true := by
  rw [List.any_eq_true]
  constructor
  · rintro ⟨r, member, passed⟩
    obtain ⟨i, inside, at'⟩ := List.getElem_of_mem member
    exact ⟨i, r, List.getElem?_eq_some_iff.mpr ⟨inside, at'⟩, passed⟩
  · rintro ⟨i, r, at', passed⟩
    exact ⟨r, List.mem_of_getElem? at', passed⟩

omit [IsStrictOrderedRing K] in
/-- A search through the rectangles put aside and some cells finds a rectangle that passes a test,
if the rectangles that pass share a cell with the search. -/
theorem search_eq (known : index.Represents rectangles values) {test : CGRect K U → Bool}
    {cells : List ℕ} (inside : ∀ cell ∈ cells, cell < index.columns * index.rows)
    (shared : ∀ r range, index.cells r = some range → test r = true →
      ∃ cell ∈ cells, cell ∈ index.cellList range) :
    (index.fallback.any (fun i => (rectangles[i]?).any test) ||
      cells.any fun cell => index.anyIn cell fun i => (rectangles[i]?).any test) =
      rectangles.any test := by
  rw [Bool.eq_iff_iff, Bool.or_eq_true, any_iff]
  have hit : ∀ i : ℕ, (rectangles[i]?).any test = true →
      ∃ (i : ℕ) (r : CGRect K U), rectangles[i]? = some r ∧ test r = true := by
    intro i passed
    obtain ⟨r, at', passed⟩ := (Option.any_eq_true ..).mp passed
    exact ⟨i, r, at', passed⟩
  constructor
  · rintro (aside | linked)
    · obtain ⟨i, -, passed⟩ := List.any_eq_true.mp aside
      exact hit i passed
    · obtain ⟨cell, member, passed⟩ := List.any_eq_true.mp linked
      rw [anyIn_eq known (inside cell member)] at passed
      obtain ⟨i, -, passed⟩ := List.any_eq_true.mp passed
      exact hit i passed
  · rintro ⟨i, r, at', passed⟩
    have tested : (rectangles[i]?).any test = true := by
      rw [at']
      exact passed
    rcases known.found i r at' with aside | ⟨range, covered, all⟩
    · exact .inl (List.any_eq_true.mpr ⟨i, aside, tested⟩)
    · obtain ⟨cell, member, here⟩ := shared r range covered passed
      refine .inr (List.any_eq_true.mpr ⟨cell, member, ?_⟩)
      rw [anyIn_eq known (inside cell member)]
      exact List.any_eq_true.mpr ⟨i, all cell here, tested⟩

/-- **The index finds the rectangles that contain a point** like a scan of all of them. -/
theorem contains_eq (known : index.Represents rectangles values) (graphics : CoreGraphics K U)
    (point : K × K) : index.contains graphics point rectangles =
      rectangles.any (graphics.contains · point) := by
  rw [CollisionIndex.contains]
  split
  · let test := fun i : ℕ => (rectangles[i]?).any (graphics.contains · point)
    have one : (index.fallback.any test ||
        [index.cell (index.column point.1) (index.row point.2)].any fun cell =>
          index.anyIn cell test) = rectangles.any (graphics.contains · point) := ?_
    · rw [List.any_cons, List.any_nil, Bool.or_false] at one
      exact one
    refine search_eq known ?_ ?_
    · intro cell member
      rw [List.mem_singleton.mp member]
      exact cell_lt (column_lt known.columns _) (row_lt known.rows _)
    · intro r range covered passed
      obtain ⟨sides, rfl, rfl, -⟩ := cells_eq covered
      obtain ⟨⟨west, east⟩, south, north⟩ := graphics.contains_sides sides point passed
      refine ⟨_, List.mem_singleton_self _, mem_cellList.mpr ⟨_, _, ?_, ?_, rfl⟩⟩
      · exact ⟨column_mono known west, column_mono known east⟩
      · exact ⟨row_mono known south, row_mono known north⟩
  · rfl

/-- **The index finds the rectangles that meet a rectangle** like a scan of all of them. -/
theorem intersects_eq (known : index.Represents rectangles values) (graphics : CoreGraphics K U)
    (rectangle : CGRect K U) : index.intersects graphics rectangle rectangles =
      rectangles.any (graphics.intersects · rectangle) := by
  rw [CollisionIndex.intersects]
  cases covered : index.cells rectangle with
  | none => rfl
  | some range =>
      refine search_eq known (fun cell member => (cellList_lt known.columns known.rows covered).2
        cell member) fun r range' covered' passed => ?_
      obtain ⟨sides, rfl, rfl, ordered, ordered'⟩ := cells_eq covered
      obtain ⟨sides', rfl, rfl, orderedR, orderedR'⟩ := cells_eq covered'
      obtain ⟨⟨west, east⟩, south, north⟩ := graphics.intersects_sides _ _ passed
      -- The first common column and the first common row make a common cell.
      let x := max (index.column sides.minX) (index.column sides'.minX)
      let y := max (index.row sides.minY) (index.row sides'.minY)
      refine ⟨index.cell x y, mem_cellList.mpr ⟨x, y, ?_, ?_, rfl⟩,
        mem_cellList.mpr ⟨x, y, ?_, ?_, rfl⟩⟩
      · exact ⟨le_max_left .., max_le (column_mono known ordered) (column_mono known west)⟩
      · exact ⟨le_max_left .., max_le (row_mono known ordered') (row_mono known south)⟩
      · exact ⟨le_max_right .., max_le (column_mono known east) (column_mono known orderedR)⟩
      · exact ⟨le_max_right .., max_le (row_mono known north) (row_mono known orderedR')⟩

end Queries

end CollisionIndex

/-! ## Labels without an index -/

/-- The rectangles that are taken and the names that are shown. -/
structure TakenPlaces (K U : Type) where
  occupied : List (CGRect K U)
  names : List String

namespace TakenPlaces

variable (graphics : CoreGraphics K U) (taken : TakenPlaces K U)

/-- A label may be placed where no rectangle contains its point. -/
def canPlace (key : String) (point : CGPoint K) (viewport : CGSize K) : Bool :=
  match point.x, point.y with
  | some x, some y =>
    graphics.contains (OfflineMapLabelLayout.labelArea graphics viewport) (x, y) &&
      !taken.occupied.any (graphics.contains · (x, y)) && key ≠ "" && key ∉ taken.names
  | _, _ => false

/-- A label takes its rectangle if no other one meets it. -/
def reserve (key : String) (frame : CGRect K U) (viewport : CGSize K) : TakenPlaces K U × Bool :=
  let footprint := OfflineMapLabelLayout.footprint graphics frame
  if key ≠ "" ∧ key ∉ taken.names ∧ OfflineMapLabelLayout.fits graphics frame viewport ∧
      ¬taken.occupied.any (graphics.intersects · footprint) then
    (⟨taken.occupied ++ [footprint], taken.names ++ [key]⟩, true)
  else (taken, false)

end TakenPlaces

/-! ## Calls -/

/-- A call of the layout with the name of a label. -/
inductive LabelCall (K U : Type) where
  | canPlace (name : String) (point : CGPoint K) (viewport : CGSize K)
  | reserve (name : String) (frame : CGRect K U) (viewport : CGSize K)

/-- The answers to calls, one after the other. -/
def answers {State : Type} (step : State → LabelCall K U → State × Bool) :
    State → List (LabelCall K U) → State × List Bool
  | state, [] => (state, [])
  | state, call :: calls =>
    let (next, answer) := step state call
    let (last, later) := answers step next calls
    (last, answer :: later)

variable (graphics : CoreGraphics K U) (normalize : String → String)

/-- A call is answered by the layout. Names are compared by their normalized forms. -/
def OfflineMapLabelLayout.step (layout : OfflineMapLabelLayout K U) :
    LabelCall K U → OfflineMapLabelLayout K U × Bool
  | .canPlace name point viewport =>
    (layout, layout.canPlace graphics (normalize name) point viewport)
  | .reserve name frame viewport => layout.reserve graphics (normalize name) frame viewport

/-- A call is answered by a scan. -/
def TakenPlaces.step (taken : TakenPlaces K U) : LabelCall K U → TakenPlaces K U × Bool
  | .canPlace name point viewport =>
    (taken, taken.canPlace graphics (normalize name) point viewport)
  | .reserve name frame viewport => taken.reserve graphics (normalize name) frame viewport

/-- The labels that were reserved: their normalized names and their footprints. -/
def reserved (calls : List (LabelCall K U)) (given : List Bool) : List (String × CGRect K U) :=
  (calls.zip given).filterMap fun entry =>
    match entry with
    | (.reserve name frame _, true) =>
      some (normalize name, OfflineMapLabelLayout.footprint graphics frame)
    | _ => none

/-! ## The layout answers like a scan -/

section Transparent

variable {graphics normalize}

/-- An index holds the rectangles of the layout. -/
def OfflineMapLabelLayout.Indexed (layout : OfflineMapLabelLayout K U) : Prop :=
  ∀ index, layout.collisionIndex = some index → ∃ values, index.Represents layout.occupied values

/-- What a layout keeps, without its index. -/
def OfflineMapLabelLayout.taken (layout : OfflineMapLabelLayout K U) : TakenPlaces K U :=
  ⟨layout.occupied, layout.names⟩

variable [IsStrictOrderedRing K] {layout : OfflineMapLabelLayout K U}

theorem OfflineMapLabelLayout.isTaken_eq (indexed : layout.Indexed) (point : K × K) :
    layout.isTaken graphics point = layout.occupied.any (graphics.contains · point) := by
  rw [isTaken]
  cases built : layout.collisionIndex with
  | none => rfl
  | some index =>
      obtain ⟨values, known⟩ := indexed index built
      exact CollisionIndex.contains_eq known graphics point

theorem OfflineMapLabelLayout.meets_eq (indexed : layout.Indexed) (footprint : CGRect K U) :
    layout.meets graphics footprint = layout.occupied.any (graphics.intersects · footprint) := by
  rw [meets]
  cases built : layout.collisionIndex with
  | none => rfl
  | some index =>
      obtain ⟨values, known⟩ := indexed index built
      exact CollisionIndex.intersects_eq known graphics footprint

theorem OfflineMapLabelLayout.indexed_init (obstacles : List (CGRect K U))
    (viewport : Option (CGSize K)) : (init obstacles viewport).Indexed := by
  intro index built
  rw [init] at built
  dsimp only at built
  split at built
  · obtain ⟨size, -, built⟩ := Option.bind_eq_some_iff.mp built
    exact CollisionIndex.represents_build built
  · cases built

/-- **A reservation is the one of a scan**, and the index goes on to hold the rectangles. -/
theorem OfflineMapLabelLayout.reserve_eq (indexed : layout.Indexed) (key : String)
    (frame : CGRect K U) (viewport : CGSize K) :
    (layout.reserve graphics key frame viewport).1.Indexed ∧
      layout.taken.reserve graphics key frame viewport =
        ((layout.reserve graphics key frame viewport).1.taken,
          (layout.reserve graphics key frame viewport).2) := by
  rw [reserve, TakenPlaces.reserve]
  dsimp only
  rw [meets_eq indexed]
  by_cases usable : (layout.canUse key && fits graphics frame viewport) = true
  · obtain ⟨use, fitting⟩ := Bool.and_eq_true_iff.mp usable
    obtain ⟨named, fresh⟩ := Bool.and_eq_true_iff.mp use
    have named := of_decide_eq_true named
    have fresh := of_decide_eq_true fresh
    rw [if_pos usable]
    by_cases free : layout.occupied.any (graphics.intersects · (footprint graphics frame)) = true
    · have refused : ¬(key ≠ "" ∧ key ∉ layout.taken.names ∧ fits graphics frame viewport = true ∧
          ¬layout.taken.occupied.any (graphics.intersects · (footprint graphics frame)) = true) :=
        fun all => all.2.2.2 free
      rw [if_pos free, if_neg refused]
      exact ⟨indexed, rfl⟩
    · have allowed : key ≠ "" ∧ key ∉ layout.taken.names ∧ fits graphics frame viewport = true ∧
          ¬layout.taken.occupied.any (graphics.intersects · (footprint graphics frame)) = true :=
        ⟨named, fresh, fitting, free⟩
      rw [if_neg free, if_pos allowed]
      refine ⟨fun index built => ?_, rfl⟩
      dsimp only at built
      split at built
      · rename_i old existing
        obtain ⟨values, known⟩ := indexed old existing
        have last : (layout.occupied ++ [footprint graphics frame]).length - 1 =
            layout.occupied.length := by
          rw [List.length_append]
          rfl
        rw [last] at built
        obtain rfl := Option.some.inj built
        exact known.insert _
      · split at built
        · obtain ⟨size, -, built⟩ := Option.bind_eq_some_iff.mp built
          exact CollisionIndex.represents_build built
        · cases built
  · have refused : ¬(key ≠ "" ∧ key ∉ layout.taken.names ∧ fits graphics frame viewport = true ∧
        ¬layout.taken.occupied.any (graphics.intersects · (footprint graphics frame)) = true) := by
      rintro ⟨named, fresh, fitting, -⟩
      refine usable (Bool.and_eq_true_iff.mpr ⟨Bool.and_eq_true_iff.mpr ⟨?_, ?_⟩, fitting⟩)
      · exact decide_eq_true named
      · exact decide_eq_true fresh
    rw [if_neg usable, if_neg refused]
    exact ⟨indexed, rfl⟩

theorem OfflineMapLabelLayout.canPlace_eq (indexed : layout.Indexed) (key : String)
    (point : CGPoint K) (viewport : CGSize K) :
    layout.canPlace graphics key point viewport =
      layout.taken.canPlace graphics key point viewport := by
  rw [canPlace, anchorIsAvailable, TakenPlaces.canPlace]
  cases point.x with
  | none => rfl
  | some x =>
      cases point.y with
      | none => rfl
      | some y =>
          dsimp only
          rw [isTaken_eq indexed, canUse, Bool.and_assoc, Bool.and_assoc, Bool.and_assoc]
          rfl

/-- **Every call is answered like by a scan.** -/
theorem OfflineMapLabelLayout.step_eq (indexed : layout.Indexed) (call : LabelCall K U) :
    (layout.step graphics normalize call).1.Indexed ∧
      layout.taken.step graphics normalize call =
        ((layout.step graphics normalize call).1.taken,
          (layout.step graphics normalize call).2) := by
  cases call with
  | canPlace name point viewport =>
      refine ⟨indexed, ?_⟩
      rw [TakenPlaces.step, ← canPlace_eq indexed]
      rfl
  | reserve name frame viewport => exact reserve_eq indexed (normalize name) frame viewport

theorem OfflineMapLabelLayout.answers_eq (calls : List (LabelCall K U)) :
    ∀ {layout : OfflineMapLabelLayout K U}, layout.Indexed →
    answers (TakenPlaces.step graphics normalize) layout.taken calls =
      ((answers (step graphics normalize) layout calls).1.taken,
        (answers (step graphics normalize) layout calls).2) := by
  induction calls with
  | nil => exact fun _ => rfl
  | cons call calls ih =>
      intro layout indexed
      obtain ⟨next, same⟩ :
          (layout.step graphics normalize call).1.Indexed ∧
            layout.taken.step graphics normalize call =
              ((layout.step graphics normalize call).1.taken,
                (layout.step graphics normalize call).2) := step_eq indexed call
      rw [answers, answers, same]
      dsimp only
      rw [ih next]

end Transparent

/-! ## Labels do not overlap -/

section Disjoint

variable {graphics normalize}

/-- The rectangles of labels meet neither each other nor an obstacle, and no name is shown twice. -/
structure Apart (graphics : CoreGraphics K U) (obstacles : List (CGRect K U))
    (labels : List (String × CGRect K U)) (taken : TakenPlaces K U) : Prop where
  occupied : taken.occupied = obstacles ++ labels.map Prod.snd
  names : taken.names = labels.map Prod.fst
  pairwise : labels.Pairwise fun a b => graphics.intersects a.2 b.2 = false
  clear : ∀ o ∈ obstacles, ∀ a ∈ labels, graphics.intersects o a.2 = false
  distinct : (labels.map Prod.fst).Nodup
  named : ∀ a ∈ labels, a.1 ≠ ""

/-- The label that a call reserves. -/
def granted (graphics : CoreGraphics K U) (normalize : String → String) (call : LabelCall K U)
    (given : Bool) : List (String × CGRect K U) :=
  reserved graphics normalize [call] [given]

omit [FloorRing K] in
theorem Apart.step {obstacles : List (CGRect K U)} {labels : List (String × CGRect K U)}
    {taken : TakenPlaces K U} (apart : Apart graphics obstacles labels taken)
    (call : LabelCall K U) :
    Apart graphics obstacles
      (labels ++ granted graphics normalize call (taken.step graphics normalize call).2)
      (taken.step graphics normalize call).1 := by
  have unchanged : Apart graphics obstacles (labels ++ []) taken := by
    rw [List.append_nil]
    exact apart
  cases call with
  | canPlace name point viewport =>
      -- A question reserves nothing, whatever the answer is.
      cases given : (taken.step graphics normalize (.canPlace name point viewport)).2 with
      | false => exact unchanged
      | true => exact unchanged
  | reserve name frame viewport =>
      rw [TakenPlaces.step, TakenPlaces.reserve]
      split
      · rename_i allowed
        obtain ⟨named, fresh, -, free⟩ := allowed
        let label := (normalize name, OfflineMapLabelLayout.footprint graphics frame)
        have missed : ∀ r ∈ taken.occupied, graphics.intersects r label.2 = false := by
          intro r member
          by_contra meets
          exact free (List.any_eq_true.mpr ⟨r, member, Bool.eq_true_of_not_eq_false meets⟩)
        rw [apart.occupied] at missed
        rw [apart.names] at fresh
        change Apart graphics obstacles (labels ++ [label])
          ⟨taken.occupied ++ [label.2], taken.names ++ [label.1]⟩
        refine ⟨?_, ?_, ?_, ?_, ?_, ?_⟩
        · rw [apart.occupied, List.map_append, List.append_assoc]
          rfl
        · rw [apart.names, List.map_append]
          rfl
        · refine List.pairwise_append.mpr ⟨apart.pairwise, List.pairwise_singleton .., ?_⟩
          intro a old b new
          rw [List.mem_singleton.mp new]
          exact missed a.2 (List.mem_append_right _ (List.mem_map_of_mem old))
        · intro o member a inLabels
          rcases List.mem_append.mp inLabels with old | new
          · exact apart.clear o member a old
          · rw [List.mem_singleton.mp new]
            exact missed o (List.mem_append_left _ member)
        · rw [List.map_append]
          refine List.nodup_append.mpr ⟨apart.distinct, List.nodup_singleton _, ?_⟩
          intro old known new last same
          have again : old = normalize name := same.trans (List.mem_singleton.mp last)
          rw [again] at known
          exact fresh known
        · intro a inLabels
          rcases List.mem_append.mp inLabels with old | new
          · exact apart.named a old
          · rw [List.mem_singleton.mp new]
            exact named
      · exact unchanged

omit [FloorRing K] in
theorem apart_answers (calls : List (LabelCall K U)) :
    ∀ {obstacles : List (CGRect K U)} {labels : List (String × CGRect K U)}
      {taken : TakenPlaces K U}, Apart graphics obstacles labels taken →
    Apart graphics obstacles
      (labels ++ reserved graphics normalize calls
        (answers (TakenPlaces.step graphics normalize) taken calls).2)
      (answers (TakenPlaces.step graphics normalize) taken calls).1 := by
  induction calls with
  | nil =>
      intro obstacles labels taken apart
      have nothing : reserved graphics normalize ([] : List (LabelCall K U))
          (answers (TakenPlaces.step graphics normalize) taken []).2 = [] := rfl
      rw [nothing, List.append_nil]
      exact apart
  | cons call calls ih =>
      intro obstacles labels taken apart
      have next : Apart graphics obstacles
          (labels ++ granted graphics normalize call (taken.step graphics normalize call).2)
          (taken.step graphics normalize call).1 := apart.step call
      have later := ih next
      have both : reserved graphics normalize (call :: calls)
          (answers (TakenPlaces.step graphics normalize) taken (call :: calls)).2 =
          granted graphics normalize call (taken.step graphics normalize call).2 ++
            reserved graphics normalize calls (answers (TakenPlaces.step graphics normalize)
              (taken.step graphics normalize call).1 calls).2 := by
        rw [granted, reserved, reserved, reserved, ← List.filterMap_append]
        rfl
      rw [both, ← List.append_assoc]
      exact later

end Disjoint

/-- **The index is transparent and labels never overlap.** Whatever the obstacles, the viewport
and the calls, the layout answers like a scan of all rectangles. The footprints that it reserves
meet neither each other nor an obstacle, and their normalized names are different. -/
theorem layout_scan [IsStrictOrderedRing K] (graphics : CoreGraphics K U)
    (normalize : String → String) (obstacles : List (CGRect K U)) (viewport : Option (CGSize K))
    (calls : List (LabelCall K U)) :
    let layout := answers (OfflineMapLabelLayout.step graphics normalize)
      (OfflineMapLabelLayout.init obstacles viewport) calls
    let scan := answers (TakenPlaces.step graphics normalize) ⟨obstacles, []⟩ calls
    layout.2 = scan.2 ∧ layout.1.taken = scan.1 ∧
      Apart graphics obstacles (reserved graphics normalize calls layout.2) layout.1.taken := by
  intro layout scan
  have same : scan = (layout.1.taken, layout.2) :=
    OfflineMapLabelLayout.answers_eq calls (OfflineMapLabelLayout.indexed_init obstacles viewport)
  have start : Apart graphics obstacles [] (⟨obstacles, []⟩ : TakenPlaces K U) :=
    ⟨(List.append_nil _).symm, rfl, .nil, fun _ _ _ none => absurd none List.not_mem_nil, .nil,
      fun _ none => absurd none List.not_mem_nil⟩
  have apart : Apart graphics obstacles ([] ++ reserved graphics normalize calls scan.2) scan.1 :=
    apart_answers calls start
  rw [same, List.nil_append] at apart
  exact ⟨(congrArg Prod.snd same).symm, (congrArg Prod.fst same).symm, apart⟩

/-- Two labels around an obstacle. -/
def sampleCalls : List (LabelCall ℚ Unit) :=
  [.reserve "a" (.finite ⟨10, 10, 40, 20⟩) ⟨some 400, some 300⟩,
    .reserve "b" (.finite ⟨30, 12, 60, 22⟩) ⟨some 400, some 300⟩]

theorem layout_scan_sample :
    (answers (OfflineMapLabelLayout.step overlapping id)
        (OfflineMapLabelLayout.init [] (some ⟨some 400, some 300⟩)) sampleCalls).2 =
      (answers (TakenPlaces.step overlapping id) ⟨[], []⟩ sampleCalls).2 :=
  (layout_scan overlapping id [] (some ⟨some 400, some 300⟩) sampleCalls).1

end Layout

end OsmMini.Apple

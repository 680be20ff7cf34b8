import OsmMini.Core.Types
import OsmMini.Foundations.Binary64

/-!
# Bounds and cells

The window that holds a graph, and the grid of cells over it by which a graph file
finds the nodes near a point.
-/

set_option autoImplicit false

namespace OsmMini.Core

open Foundations

/-- A rectangle of coordinates. -/
structure CoordWindow (K : Type*) where
  minLat : K
  maxLat : K
  minLon : K
  maxLon : K
  deriving DecidableEq, Repr

/-- Whether a coordinate lies in a window, its border included. -/
def CoordWindow.contains (w : CoordWindow F64) (c : Coord F64) : Bool :=
  w.minLat.le c.lat && c.lat.le w.maxLat && w.minLon.le c.lon && c.lon.le w.maxLon

def validGraphBounds (b : CoordWindow F64) : Bool :=
  (F64.ofRat (-90)).le b.minLat && b.maxLat.le (F64.ofRat 90) &&
    (F64.ofRat (-180)).le b.minLon && b.maxLon.le (F64.ofRat 180) &&
    b.minLat.le b.maxLat && b.minLon.le b.maxLon

/-- A grid over the coordinates from a least latitude and longitude on. -/
structure SpatialIndex where
  cellSize : F64
  minLat : F64
  minLon : F64

/-- The grid of a graph file: cells of one hundredth of a degree. -/
def graphGrid (b : CoordWindow F64) : SpatialIndex :=
  { cellSize := F64.ofRat 0.01, minLat := b.minLat, minLon := b.minLon }

def SpatialIndex.cell (idx : SpatialIndex) (c : Coord F64) : Int32 × Int32 :=
  (((c.lat.sub idx.minLat).div idx.cellSize).floorInt32,
    ((c.lon.sub idx.minLon).div idx.cellSize).floorInt32)

/-- Both numbers of a cell in one key. -/
def cellKey (cell : Int32 × Int32) : Int64 :=
  cell.1.toInt64 <<< 32 ||| cell.2.toUInt32.toUInt64.toInt64

theorem cellKey_low (cell : Int32 × Int32) {i : ℕ} (small : i < 32) :
    (cellKey cell).toBitVec.getLsbD i = cell.2.toBitVec.getLsbD i := by
  simp [cellKey, small]
  omega

theorem cellKey_high (cell : Int32 × Int32) {i : ℕ} (small : i < 32) :
    (cellKey cell).toBitVec.getLsbD (32 + i) = cell.1.toBitVec.getLsbD i := by
  have far : 32 + i < 64 := by omega
  simp [cellKey, BitVec.getElem_signExtend, far, small]

/-- Different cells have different keys. -/
theorem cellKey_injective : Function.Injective cellKey := by
  intro a b same
  have bits : ∀ i, (cellKey a).toBitVec.getLsbD i = (cellKey b).toBitVec.getLsbD i := by
    rw [same]
    exact fun _ => rfl
  refine Prod.ext (Int32.toBitVec.inj ?_) (Int32.toBitVec.inj ?_)
  · refine BitVec.eq_of_getLsbD_eq fun i small => ?_
    rw [← cellKey_high a small, ← cellKey_high b small, bits]
  · refine BitVec.eq_of_getLsbD_eq fun i small => ?_
    rw [← cellKey_low a small, ← cellKey_low b small, bits]

end OsmMini.Core

import OsmMini.Core.Store.Bounds
import OsmMini.Foundations.Buckets
import OsmMini.Foundations.GreatCircle

/-!
# The node nearest to a point

A graph in memory comes with a grid of cells of one hundredth of a degree, and each cell
lists its nodes. The search for the node nearest to a point starts at the cell of the point,
moved into the grid if the point lies outside, and scans one ring of cells after the other.
It stops when the border of the scanned rectangle is farther away than the best node so far,
and after a fixed number of rings in any case.

Coordinates are real numbers. A loop over a map visits its entries in no particular order,
so that every such loop takes its order as an argument.
-/

set_option autoImplicit false

namespace OsmMini.Core.Snap

open Foundations Foundations.GreatCircle

/-- The entries of a map in some order. -/
abbrev Listing (α : Type) := List (Sigma fun _ : Int64 => α)

/-- The largest number of a float. -/
noncomputable def maxFloat64 : ℝ := 2 ^ 1024 - 2 ^ 971

noncomputable def deg2rad (d : ℝ) : ℝ := d * Real.pi / 180

noncomputable def haversineMeters (lat1 lon1 lat2 lon2 : ℝ) : ℝ :=
  let R := 6371000
  let dLat := deg2rad (lat2 - lat1)
  let dLon := deg2rad (lon2 - lon1)
  let sinLat := Real.sin (dLat / 2)
  let sinLon := Real.sin (dLon / 2)
  let a := sinLat * sinLat +
    Real.cos (deg2rad lat1) * Real.cos (deg2rad lat2) * sinLon * sinLon
  let c := 2 * atan2 (√a) (√(1 - a))
  R * c

/-! ## The grid -/

structure SpatialIndex where
  cellSize : ℝ
  minLat : ℝ
  minLon : ℝ
  maxX : Int32
  maxY : Int32
  cells : GoMap Int64 (List Int64)

namespace SpatialIndex

/-- The cell of a point. -/
noncomputable def cell (idx : SpatialIndex) (lat lon : ℝ) : Int32 × Int32 :=
  (Int32.ofInt ⌊(lat - idx.minLat) / idx.cellSize⌋,
    Int32.ofInt ⌊(lon - idx.minLon) / idx.cellSize⌋)

/-- File a node under its cell. -/
noncomputable def add (idx : SpatialIndex) (id : Int64) (c : Coord ℝ) : SpatialIndex :=
  let (ix, iy) := idx.cell c.lat c.lon
  { idx with
    maxX := if ix > idx.maxX then ix else idx.maxX
    maxY := if iy > idx.maxY then iy else idx.maxY
    cells := push idx.cells (cellKey (ix, iy)) id }

end SpatialIndex

/-- The least of the numbers, as a loop finds it. -/
noncomputable def leastOf (l : List ℝ) : ℝ :=
  l.foldl (fun least x => if x < least then x else least) maxFloat64

/-- The grid of a graph without any node in it. -/
noncomputable def emptyIndex (coords : Listing (Coord ℝ)) : SpatialIndex where
  cellSize := 0.01
  minLat := leastOf (coords.map fun e => e.2.lat)
  minLon := leastOf (coords.map fun e => e.2.lon)
  maxX := 0
  maxY := 0
  cells := ∅

noncomputable def buildSpatialIndex (coords : Listing (Coord ℝ)) : Option SpatialIndex :=
  if coords.length = 0 then none
  else some (coords.foldl (fun idx e => idx.add e.1 e.2) (emptyIndex coords))

/-- What the search for the nearest node reads of a router. -/
structure Router where
  g : MemoryGraph ℝ
  idx : Option SpatialIndex

/-- The router of a graph; the index is built in the given order of the nodes. -/
noncomputable def newRouterFromGraph (g : MemoryGraph ℝ) (coords : Listing (Coord ℝ)) : Router where
  g := g
  idx := buildSpatialIndex coords

/-! ## The search -/

/-- The best node so far and its distance. The number 0 stands for no node. -/
structure Best where
  bestID : Int64
  best : ℝ

/-- No node yet. -/
noncomputable def noBest : Best := ⟨0, maxFloat64⟩

section Query

variable (lat lon : ℝ)

/-- Keep a node if it is closer to the point than every node before. -/
noncomputable def visit (b : Best) (id : Int64) (c : Coord ℝ) : Best :=
  let d := haversineMeters lat lon c.lat c.lon
  if d < b.best then ⟨id, d⟩ else b

/-- The nodes with outgoing edges, one after the other. -/
noncomputable def nearestNodeBrute (g : MemoryGraph ℝ) (coords : Listing (Coord ℝ)) :
    Option (Int64 × ℝ) :=
  let b := coords.foldl (fun b e =>
    if 0 < ((g.adj.lookup e.1).getD []).length then visit lat lon b e.1 e.2 else b) noBest
  if b.best = maxFloat64 then none else some (b.bestID, b.best)

/-- The nodes of one cell. A node without a coordinate counts as one at the origin. -/
noncomputable def scanCell (g : MemoryGraph ℝ) (idx : SpatialIndex) (b : Best) (k : ℤ × ℤ) : Best :=
  (bucket idx.cells (cellKey (Int32.ofInt k.1, Int32.ofInt k.2))).foldl
    (fun b id => visit lat lon b id ((g.coords.lookup id).getD ⟨0, 0⟩)) b

/-- The cells at a given distance from the centre, in the order in which they are scanned. -/
def ring (centre : ℤ × ℤ) (radius : ℤ) : List (ℤ × ℤ) :=
  if radius = 0 then [centre]
  else
    let minX := centre.1 - radius
    let maxX := centre.1 + radius
    let minY := centre.2 - radius
    let maxY := centre.2 + radius
    (Int.range minX (maxX + 1)).flatMap (fun x => [(x, minY), (x, maxY)]) ++
      (Int.range (minY + 1) (maxY - 1 + 1)).flatMap fun y => [(minX, y), (maxX, y)]

/-- How far the point lies inside the rectangle of the cells up to a radius, in degrees of
latitude. -/
noncomputable def latGap (idx : SpatialIndex) (centre : ℤ × ℤ) (radius : ℤ) : ℝ :=
  min (lat - (idx.minLat + (centre.1 - radius : ℤ) * idx.cellSize))
    (idx.minLat + (centre.1 + radius + 1 : ℤ) * idx.cellSize - lat)

noncomputable def lonGap (idx : SpatialIndex) (centre : ℤ × ℤ) (radius : ℤ) : ℝ :=
  min (lon - (idx.minLon + (centre.2 - radius : ℤ) * idx.cellSize))
    (idx.minLon + (centre.2 + radius + 1 : ℤ) * idx.cellSize - lon)

/-- A lower bound for the distance to what lies outside that rectangle. -/
noncomputable def minPossible (latGap lonGap : ℝ) : ℝ :=
  let earthRadius := 6371000
  let toMeridian :=
    Real.arcsin (min 1 |Real.cos (deg2rad lat) * Real.sin (deg2rad lonGap)|) * earthRadius
  min (deg2rad latGap * earthRadius) toMeridian

/-- Whether the rings up to a radius settle the search. -/
def Settled (idx : SpatialIndex) (centre : ℤ × ℤ) (radius : ℤ) (b : Best) : Prop :=
  b.bestID ≠ 0 ∧ 0 < latGap lat idx centre radius ∧ 0 < lonGap lon idx centre radius ∧
    b.best < minPossible lat (latGap lat idx centre radius) (lonGap lon idx centre radius)

open Classical in
/-- Scan a number of rings, the first of the given radius, unless an earlier one settles the
search. -/
noncomputable def scanRings (g : MemoryGraph ℝ) (idx : SpatialIndex) (centre : ℤ × ℤ) :
    ℕ → ℤ → Best → Best
  | 0, _, b => b
  | rings + 1, radius, b =>
      let b := (ring centre radius).foldl (scanCell lat lon g idx) b
      if Settled lat lon idx centre radius b then b
      else scanRings g idx centre rings (radius + 1) b

def maxScanRadius : ℕ := 256

/-- Move the number of a cell into the grid. -/
def clamp (i maxI : Int32) : Int32 :=
  if i < 0 then 0 else if i > maxI then maxI else i

/-- The cell at which the search starts. -/
noncomputable def centre (idx : SpatialIndex) : ℤ × ℤ :=
  let (ix0, iy0) := idx.cell lat lon
  ((clamp ix0 idx.maxX).toInt, (clamp iy0 idx.maxY).toInt)

/-- The nearest node with its distance. The nodes are visited in the given order where the
whole graph is scanned. -/
noncomputable def Router.nearestNode (r : Router) (coords : Listing (Coord ℝ)) :
    Option (Int64 × ℝ) :=
  match r.idx with
  | none => nearestNodeBrute lat lon r.g coords
  | some idx =>
      let b := scanRings lat lon r.g idx (centre lat lon idx) (maxScanRadius + 1) 0 noBest
      if b.bestID ≠ 0 then some (b.bestID, b.best) else nearestNodeBrute lat lon r.g coords

end Query

end OsmMini.Core.Snap

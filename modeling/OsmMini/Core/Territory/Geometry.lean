import OsmMini.Foundations.Literals
import OsmMini.Core.Store.Bounds

/-!
# Areas

An area is a list of polygons, each an outer ring with holes. A point belongs to a polygon
when it lies on one of its rings, up to a small tolerance, or when a ray from it crosses
the rings an odd number of times. The arithmetic is exact.
-/

set_option autoImplicit false

namespace OsmMini.Core

variable {K : Type} [Field K] [LinearOrder K]

/-- A closed sequence of coordinates. -/
abbrev Ring (K : Type) := List (Coord K)

/-- One outer ring and any number of holes. -/
structure Polygon (K : Type) where
  outer : Ring K
  holes : List (Ring K)

structure Geometry (K : Type) where
  polygons : List (Polygon K)

/-- The tolerance of a point on an edge. -/
def boundaryEpsilonDeg : K := 1 / 1000000000

/-- The consecutive pairs of a ring, the last point with the first. -/
def ringEdges (ring : Ring K) : List (Coord K × Coord K) := ring.zip (ring.rotate 1)

/-- Whether a point lies within the tolerance of an edge. -/
def pointOnEdge (c a b : Coord K) : Bool :=
  let dLat := b.lat - a.lat
  let dLon := b.lon - a.lon
  let lenSq := dLat * dLat + dLon * dLon
  let t :=
    if 1 / 100000000000000000000 < lenSq then
      let t := ((c.lat - a.lat) * dLat + (c.lon - a.lon) * dLon) / lenSq
      if t < 0 then 0 else if 1 < t then 1 else t
    else 0
  let ddLat := c.lat - (a.lat + t * dLat)
  let ddLon := c.lon - (a.lon + t * dLon)
  ddLat * ddLat + ddLon * ddLon ≤ boundaryEpsilonDeg * boundaryEpsilonDeg

def pointOnRing (ring : Ring K) (c : Coord K) : Bool :=
  (ringEdges ring).any fun edge => pointOnEdge c edge.1 edge.2

/-- Whether the ray from a point to the east crosses the edge between two points. -/
def crosses (c a b : Coord K) : Bool :=
  (decide (c.lat < a.lat) != decide (c.lat < b.lat)) &&
    c.lon < (b.lon - a.lon) * (c.lat - a.lat) / (b.lat - a.lat) + a.lon

/-- Every edge the ray crosses turns inside and outside over. The edges run from a point to
the one before it, and from the first to the last. -/
def rayCast (ring : Ring K) (c : Coord K) : Bool :=
  if ring.length < 3 then false
  else (ring.zip (ring.rotate (ring.length - 1))).foldl
    (fun inside edge => if crosses c edge.1 edge.2 then !inside else inside) false

def Polygon.contains (p : Polygon K) (c : Coord K) : Bool :=
  if pointOnRing p.outer c then true
  else if p.holes.any fun h => pointOnRing h c then true
  else p.holes.foldl (fun inside h => if rayCast h c then !inside else inside) (rayCast p.outer c)

def Geometry.contains (g : Geometry K) (c : Coord K) : Bool :=
  g.polygons.any fun poly => poly.contains c

/-! ## Bounding boxes -/

/-- Widen a box by a point; there is no box before the first point. -/
def growBox (w : Option (CoordWindow K)) (c : Coord K) : Option (CoordWindow K) :=
  match w with
  | none => some ⟨c.lat, c.lat, c.lon, c.lon⟩
  | some w => some {
      minLat := if c.lat < w.minLat then c.lat else w.minLat
      maxLat := if w.maxLat < c.lat then c.lat else w.maxLat
      minLon := if c.lon < w.minLon then c.lon else w.minLon
      maxLon := if w.maxLon < c.lon then c.lon else w.maxLon }

/-- The box of the outer rings, if they have a point. -/
def Geometry.bbox (g : Geometry K) : Option (CoordWindow K) :=
  (g.polygons.flatMap Polygon.outer).foldl growBox none

omit [Field K] in
theorem foldl_growBox_some (w : CoordWindow K) (points : List (Coord K)) :
    ∃ w', points.foldl growBox (some w) = some w' := by
  induction points generalizing w with
  | nil => exact ⟨w, rfl⟩
  | cons c points ih => exact ih _

omit [Field K] in
/-- Areas whose outer rings have points have a box. -/
theorem Geometry.bbox_eq_none {g : Geometry K} (noBox : g.bbox = none) :
    g.polygons.flatMap Polygon.outer = [] := by
  unfold bbox at noBox
  cases points : g.polygons.flatMap Polygon.outer with
  | nil => rfl
  | cons c rest =>
      rw [points, List.foldl_cons] at noBox
      obtain ⟨w, box⟩ := foldl_growBox_some (⟨c.lat, c.lat, c.lon, c.lon⟩ : CoordWindow K) rest
      exact absurd (noBox.symm.trans box) (by simp)

end OsmMini.Core

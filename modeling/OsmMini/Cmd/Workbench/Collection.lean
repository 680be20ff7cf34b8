import Mathlib
import OsmMini.Foundations.Literals

/-!
# Feature collections of the workbench

What the workbench loads, and the checks it makes before it works on it: the number of objects
and coordinates, the ranges of the coordinates, and the shapes of lines and rings.
-/

set_option autoImplicit false

namespace OsmMini.Cmd.Workbench

section Collection

variable (K : Type)

/-- A position, with the numbers that follow its longitude and latitude. -/
structure Position where
  lon : K
  lat : K
  rest : List K
  deriving DecidableEq

/-- The coordinates of a geometry. -/
inductive Shape where
  | point (coordinates : Position K)
  | multiPoint (coordinates : List (Position K))
  | lineString (coordinates : List (Position K))
  | multiLineString (coordinates : List (List (Position K)))
  | polygon (coordinates : List (List (Position K)))
  | multiPolygon (coordinates : List (List (List (Position K))))

/-- A geometry, with its bounding box if it has one. -/
inductive Geometry where
  | null
  | simple (bbox : Option (List K)) (shape : Shape K)
  | collection (bbox : Option (List K)) (geometries : List Geometry)

structure Feature where
  geometry : Geometry K
  bbox : Option (List K)

structure FeatureCollection where
  features : List (Feature K)
  bbox : Option (List K)
  /-- Whether the collection names a reference system. -/
  crs : Bool

end Collection

def maxPoints : ℕ := 50000

def maxFeatures : ℕ := 5000

section Validate

variable {K : Type} [Field K] [LinearOrder K]

/-- Check a position, and count it. -/
def position (points : ℕ) (p : Position K) : Except String ℕ :=
  if 180 < |p.lon| ∨ 90 < |p.lat| then .error "Ungültige WGS84-Koordinaten."
  else if maxPoints < points + 1 then
    .error s!"Maximal {maxPoints} Koordinaten laden."
  else .ok (points + 1)

/-- Whether a line ends where it begins. -/
def closes (coords : List (Position K)) : Bool :=
  match coords.head?, coords.getLast? with
  | some first, some last => first.lon = last.lon && first.lat = last.lat
  | _, _ => false

def line (ring : Bool) (points : ℕ) (coords : List (Position K)) : Except String ℕ := do
  if coords.length < (if ring then 4 else 2) then .error "Zu wenige Linien- oder Ringpunkte."
  else
    let points ← coords.foldlM position points
    if ring && !closes coords then .error "Polygonringe müssen geschlossen sein."
    else .ok points

def polygon (points : ℕ) (coords : List (List (Position K))) : Except String ℕ :=
  if coords = [] then .error "Ein Polygon benötigt einen Außenring."
  else coords.foldlM (line true) points

def Shape.check (points : ℕ) : Shape K → Except String ℕ
  | .point c => position points c
  | .multiPoint c => c.foldlM position points
  | .lineString c => line false points c
  | .multiLineString c => c.foldlM (line false) points
  | .polygon c => Workbench.polygon points c
  | .multiPolygon c => c.foldlM Workbench.polygon points

mutual

/-- Check a geometry at a depth. -/
def geometry (depth points : ℕ) : Geometry K → Except String ℕ
  | .null => .ok points
  | .simple _ shape =>
    if 10 < depth then .error "Ungültige oder zu tief verschachtelte Geometrie."
    else shape.check points
  | .collection _ geometries =>
    if 10 < depth then .error "Ungültige oder zu tief verschachtelte Geometrie."
    else geometryAll (depth + 1) points geometries

def geometryAll (depth points : ℕ) : List (Geometry K) → Except String ℕ
  | [] => .ok points
  | g :: rest =>
    match geometry depth points g with
    | .error err => .error err
    | .ok points => geometryAll depth points rest

end

/-- Check a collection, and count its positions. -/
def validate (input : FeatureCollection K) : Except String ℕ :=
  if input.crs then .error "Nur WGS84-GeoJSON ohne CRS-Angabe wird unterstützt."
  else if maxFeatures < input.features.length then
    .error s!"Maximal {maxFeatures} Objekte laden."
  else input.features.foldlM (fun points f => geometry 0 points f.geometry) 0

end Validate

/-! ## The lines of a collection -/

section Lines

variable {K : Type}

def Shape.lines : Shape K → List (List (Position K))
  | .lineString c => [c]
  | .multiLineString c => c
  | _ => []

mutual

/-- The lines of a geometry, in order. -/
def Geometry.lines : Geometry K → List (List (Position K))
  | .null => []
  | .simple _ shape => shape.lines
  | .collection _ geometries => linesAll geometries

def linesAll : List (Geometry K) → List (List (Position K))
  | [] => []
  | g :: rest => g.lines ++ linesAll rest

end

def FeatureCollection.lines (data : FeatureCollection K) : List (List (Position K)) :=
  data.features.flatMap fun f => f.geometry.lines

end Lines

end OsmMini.Cmd.Workbench

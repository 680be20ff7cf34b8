import Mathlib.Algebra.Order.Floor.Ring
import OsmMini.Core.Territory.Geometry
import OsmMini.Foundations.Buckets
import OsmMini.Foundations.SortSlice

/-!
# Layers of territories

A store keeps named layers of areas. A layer is loaded once: its areas are sorted by their
IDs and filed in a grid, each under every cell that its bounding box covers. A query looks
at the areas filed under the cell of its point only.

How a floor outside the range of 32-bit integers is converted to one is left open by the
language and a parameter.
-/

set_option autoImplicit false

namespace OsmMini.Core

open OsmMini.Foundations

/-- A named area. Its properties are copied from its source and not read. -/
structure Territory (K Properties : Type) where
  id : String
  name : String
  layer : String
  geometry : Geometry K
  properties : Properties

/-- The grid over the boxes of a layer. -/
structure TerritoryGrid (K Properties : Type) where
  cellSize : K
  minLat : K
  minLon : K
  cells : GoMap Int64 (List (Territory K Properties))

structure TerritoryLayer (K Properties : Type) where
  order : List (Territory K Properties)
  index : TerritoryGrid K Properties

abbrev TerritoryStore (K Properties : Type) := GoMap String (TerritoryLayer K Properties)

def territoryLess {K Properties : Type} (a b : Territory K Properties) : Bool := a.id < b.id

/-- The integers between two, both included. -/
def int32Range (lo hi : Int32) : List Int32 :=
  (List.range (hi.toInt - lo.toInt + 1).toNat).map fun i : ℕ => Int32.ofInt (lo.toInt + i)

section Grid

variable {K Properties : Type} [Field K] [LinearOrder K] [FloorRing K] (toInt32 : ℤ → Int32)

namespace TerritoryGrid

def cellCoords (idx : TerritoryGrid K Properties) (lat lon : K) : Int32 × Int32 :=
  (toInt32 ⌊(lat - idx.minLat) / idx.cellSize⌋, toInt32 ⌊(lon - idx.minLon) / idx.cellSize⌋)

/-- The keys of the cells that a box covers. -/
def boxKeys (idx : TerritoryGrid K Properties) (bb : CoordWindow K) : List Int64 :=
  let low := idx.cellCoords toInt32 bb.minLat bb.minLon
  let high := idx.cellCoords toInt32 bb.maxLat bb.maxLon
  (int32Range low.1 high.1).flatMap fun ix =>
    (int32Range low.2 high.2).map fun iy => cellKey (ix, iy)

/-- The keys under which an area is filed; an area without points has no box. -/
def keysOf (idx : TerritoryGrid K Properties) (t : Territory K Properties) : List Int64 :=
  match t.geometry.bbox with
  | none => []
  | some bb => idx.boxKeys toInt32 bb

def insert (idx : TerritoryGrid K Properties) (t : Territory K Properties) :
    TerritoryGrid K Properties :=
  { idx with cells := pushAll idx.cells (idx.keysOf toInt32 t) t }

def candidatesAt (idx : TerritoryGrid K Properties) (lat lon : K) :
    List (Territory K Properties) :=
  bucket idx.cells (cellKey (idx.cellCoords toInt32 lat lon))

end TerritoryGrid

/-- Widen the box of a layer by the box of an area. -/
def growLayerBox (w : Option (CoordWindow K)) (t : Territory K Properties) :
    Option (CoordWindow K) :=
  match w, t.geometry.bbox with
  | none, bb => bb
  | some w, none => some w
  | some w, some bb => some {
      minLat := min w.minLat bb.minLat
      maxLat := max w.maxLat bb.maxLat
      minLon := min w.minLon bb.minLon
      maxLon := max w.maxLon bb.maxLon }

/-- About 32 cells over the longer side of the layer, but none below a ten thousandth of a
degree. -/
def gridCellSize (span : K) : K :=
  if 0 < span then
    if span / 32 < 1 / 10000 then 1 / 10000 else span / 32
  else 1 / 100

/-- The grid of a layer before its areas are filed. -/
def emptyGrid (territories : List (Territory K Properties)) : TerritoryGrid K Properties :=
  match territories.foldl growLayerBox none with
  | none => { cellSize := 1 / 100, minLat := 0, minLon := 0, cells := ∅ }
  | some w => {
      cellSize := gridCellSize (max (w.maxLat - w.minLat) (w.maxLon - w.minLon))
      minLat := w.minLat
      minLon := w.minLon
      cells := ∅ }

def buildTerritoryIndex (territories : List (Territory K Properties)) :
    TerritoryGrid K Properties :=
  territories.foldl (fun idx t => idx.insert toInt32 t) (emptyGrid territories)

/-- The first ID that was seen before. -/
def duplicateID (byID : List String) : List (Territory K Properties) → Option String
  | [] => none
  | t :: rest => if t.id ∈ byID then some t.id else duplicateID (t.id :: byID) rest

/-- Install a layer in place of the one with its name. -/
def loadLayerTerritories (s : TerritoryStore K Properties) (layer : String)
    (territories : List (Territory K Properties)) : Except String (TerritoryStore K Properties) :=
  let sorted := sortSlice territoryLess (territories.map fun t => { t with layer := layer })
  match duplicateID [] sorted with
  | some id => .error s!"territory: layer {layer.quote} has duplicate territory id {id.quote}"
  | none => .ok (s.insert layer ⟨sorted, buildTerritoryIndex toInt32 sorted⟩)

def findTerritories (s : TerritoryStore K Properties) (layer : String) (lat lon : K) :
    List (Territory K Properties) :=
  match s.lookup layer with
  | none => []
  | some tl =>
    sortSlice territoryLess
      ((tl.index.candidatesAt toInt32 lat lon).filter fun t => t.geometry.contains ⟨lat, lon⟩)

def findTerritory (s : TerritoryStore K Properties) (layer : String) (lat lon : K) :
    Option (Territory K Properties) :=
  (findTerritories toInt32 s layer lat lon).head?

end Grid

end OsmMini.Core

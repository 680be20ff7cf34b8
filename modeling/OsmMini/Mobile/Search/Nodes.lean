import OsmMini.Core.Types
import OsmMini.Foundations.Binary64
import OsmMini.Foundations.Int64Order
import OsmMini.Mobile.Search.Data

/-!
# The table of node coordinates

While the search catalog of a region is built, the coordinates of the nodes that its ways
refer to are kept in a file: the needed ids in ascending order, and a row for each of them.
A row without a coordinate has a latitude that is not a number.

As long as nodes are recorded in ascending order, the rows are written one after the other
through a buffered writer, with padding for the nodes that were left out. The first node
out of order, or recorded again, ends this, and later rows are written in place.

Reads go to the mapped file, or through two caches of rows where it could not be mapped.
-/

set_option autoImplicit false

namespace OsmMini.Mobile

open OsmMini.Foundations OsmMini.Foundations.LittleEndian

def searchNodeCacheRows : ℕ := 4096
/-- The buffer of the writer. -/
def searchNodeWriterBytes : ℕ := 65536

/-! ## Rows -/

def encodeID (id : Int64) : List UInt8 := bytesOf 8 id.toUInt64.toNat

def decodeID (data : List UInt8) : Int64 := (UInt64.ofNat (peek 8 data 0)).toInt64

def encodeCoordinate (c : Core.Coord F64) : List UInt8 :=
  bytesOf 8 c.lat.bits.toNat ++ bytesOf 8 c.lon.bits.toNat

def decodeCoordinate (data : List UInt8) : Core.Coord F64 :=
  ⟨⟨UInt64.ofNat (peek 8 data 0)⟩, ⟨UInt64.ofNat (peek 8 data 8)⟩⟩

/-- The row of a node without a coordinate. -/
def missingCoordinate : Core.Coord F64 := ⟨F64.nan, ⟨0⟩⟩

/-! ## The table -/

/-- A cache of rows: the buffer, its first row and how many rows it shows. -/
structure RowCache where
  buffer : List UInt8
  first : ℕ
  rows : ℕ

/-- A buffered writer: where in the file its bytes go, and those it holds back. -/
structure NodeWriter where
  offset : ℕ
  buffer : List UInt8

structure SearchNodeTable where
  file : List UInt8
  mapped : Bool
  count : ℕ
  writer : Option NodeWriter
  written : ℕ
  cursor : ℕ
  lastID : Int64
  lookupAt : Option ℕ
  idCache : RowCache
  coordinateCache : RowCache

/-- The table of needed ids before any coordinate is recorded. -/
def newSearchNodeTable (ids : List Int64) (mapped : Bool) : SearchNodeTable where
  file := ids.flatMap encodeID ++ ids.flatMap fun _ => encodeCoordinate missingCoordinate
  mapped := mapped
  count := ids.length
  writer := some ⟨ids.length * 8, []⟩
  written := 0
  cursor := 0
  lastID := Int64.minValue
  lookupAt := none
  idCache := ⟨[], 0, 0⟩
  coordinateCache := ⟨[], 0, 0⟩

/-- Have a row in a cache. The rows stand in the file from `base` on. -/
def RowCache.fetch (cache : RowCache) (file : List UInt8) (base size count index : ℕ) :
    Except String Unit × RowCache :=
  if index < cache.first ∨ cache.first + cache.rows ≤ index then
    let buffer :=
      if cache.buffer = [] then List.replicate (searchNodeCacheRows * size) 0 else cache.buffer
    let first := index / searchNodeCacheRows * searchNodeCacheRows
    let n := min searchNodeCacheRows (count - first)
    match readAt file buffer (base + first * size) (n * size) with
    | (.error err, buffer) => (.error err, { cache with buffer := buffer })
    | (.ok (), buffer) => (.ok (), ⟨buffer, first, n⟩)
  else (.ok (), cache)

/-- The bytes of a row in a cache. -/
def RowCache.row (cache : RowCache) (size index : ℕ) : List UInt8 :=
  portion cache.buffer ((index - cache.first) * size) size

namespace SearchNodeTable

/-- The needed id at a place. -/
def id (t : SearchNodeTable) (index : ℕ) : Except String Int64 × SearchNodeTable :=
  if t.count ≤ index then (.error "invalid temporary search node index", t)
  else if t.mapped then (.ok (decodeID (portion t.file (index * 8) 8)), t)
  else
    match t.idCache.fetch t.file 0 8 t.count index with
    | (.error err, cache) => (.error err, { t with idCache := cache })
    | (.ok (), cache) => (.ok (decodeID (cache.row 8 index)), { t with idCache := cache })

/-- The rounds of the binary search. A mapped file is read by the same search. -/
def lowerBoundFrom (id : Int64) :
    ℕ → ℕ → ℕ → SearchNodeTable → Except String ℕ × SearchNodeTable
  | 0, lo, _, t => (.ok lo, t)
  | rounds + 1, lo, hi, t =>
    if lo < hi then
      let mid := (lo + hi) / 2
      match t.id mid with
      | (.error err, t) => (.error err, t)
      | (.ok value, t) =>
        if value < id then lowerBoundFrom id rounds (mid + 1) hi t
        else lowerBoundFrom id rounds lo mid t
    else (.ok lo, t)

/-- The first place whose id is not below an id. -/
def lowerBound (t : SearchNodeTable) (id : Int64) : Except String ℕ × SearchNodeTable :=
  lowerBoundFrom id t.count 0 t.count t

/-! ## Recording -/

/-- Write what the writer holds back, and end sequential writing. -/
def finishCoordinates (t : SearchNodeTable) : SearchNodeTable :=
  let t := { t with coordinateCache := { t.coordinateCache with rows := 0 } }
  match t.writer with
  | none => t
  | some w => { t with file := copyAt t.file w.offset w.buffer, writer := none }

end SearchNodeTable

/-- Write a row through the buffer, into the file when the buffer has no room for it. -/
def writeSearchNodeCoordinate (file : List UInt8) (w : NodeWriter) (c : Core.Coord F64) :
    List UInt8 × NodeWriter :=
  if searchNodeWriterBytes - w.buffer.length < 16 then
    (copyAt file w.offset w.buffer, ⟨w.offset + w.buffer.length, encodeCoordinate c⟩)
  else (file, { w with buffer := w.buffer ++ encodeCoordinate c })

/-- Write rows without coordinates. -/
def padSearchNodes : ℕ → List UInt8 → NodeWriter → List UInt8 × NodeWriter
  | 0, file, w => (file, w)
  | rows + 1, file, w =>
    let (file, w) := writeSearchNodeCoordinate file w missingCoordinate
    padSearchNodes rows file w

namespace SearchNodeTable

/-- Move the cursor to the place of an id; whether the id is there. -/
def seek (id : Int64) : ℕ → SearchNodeTable → Except String Bool × SearchNodeTable
  | 0, t => (.ok false, t)
  | rounds + 1, t =>
    match t.id t.cursor with
    | (.error err, t) => (.error err, t)
    | (.ok needed, t) =>
      if id < needed then (.ok false, t)
      else if needed = id then (.ok true, t)
      else seek id rounds { t with cursor := t.cursor + 1 }

/-- Write a coordinate over the row at the cursor. -/
def writeInPlace (t : SearchNodeTable) (c : Core.Coord F64) : SearchNodeTable :=
  { t with
    file := copyAt t.file (t.count * 8 + t.cursor * 16) (encodeCoordinate c)
    coordinateCache := { t.coordinateCache with rows := 0 } }

/-- Put a coordinate into the row at the cursor. -/
def place (t : SearchNodeTable) (c : Core.Coord F64) : SearchNodeTable :=
  let t := if t.cursor < t.written then t.finishCoordinates else t
  match t.writer with
  | none => t.writeInPlace c
  | some w =>
    let (file, w) := padSearchNodes (t.cursor - t.written) t.file w
    let (file, w) := writeSearchNodeCoordinate file w c
    { t with file := file, writer := some w, written := max t.written t.cursor + 1 }

/-- Search the place of an id that is out of order. -/
def rewind (t : SearchNodeTable) (id : Int64) : Except String Unit × SearchNodeTable :=
  if id < t.lastID then
    match t.finishCoordinates.lowerBound id with
    | (.error err, t) => (.error err, { t with cursor := 0 })
    | (.ok cursor, t) => (.ok (), { t with cursor := cursor })
  else (.ok (), t)

/-- Record the coordinate of a node, if the node is needed. -/
def record (t : SearchNodeTable) (id : Int64) (c : Core.Coord F64) :
    Except String Unit × SearchNodeTable :=
  match t.rewind id with
  | (.error err, t) => (.error err, t)
  | (.ok (), t) =>
    let t := { t with lastID := id }
    match seek id (t.count - t.cursor) t with
    | (.error err, t) => (.error err, t)
    | (.ok false, t) => (.ok (), t)
    | (.ok true, t) => (.ok (), t.place c)

/-! ## Looking up -/

/-- Search the place of an id and remember it. -/
def searchIndex (t : SearchNodeTable) (id : Int64) : Except String ℕ × SearchNodeTable :=
  match t.lowerBound id with
  | (.error err, t) => (.error err, { t with lookupAt := none })
  | (.ok here, t) => (.ok here, { t with lookupAt := if here < t.count then some here else none })

/-- The place of an id, or of the first id that is not below it. The last place and the
one next to it are tried first. -/
def coordinateIndex (t : SearchNodeTable) (id : Int64) : Except String ℕ × SearchNodeTable :=
  match t.lookupAt with
  | none => t.searchIndex id
  | some here =>
    match t.id here with
    | (.error err, t) => (.error err, t)
    | (.ok value, t) =>
      if value = id then (.ok here, t)
      else
        let next : ℤ := if id < value then here - 1 else here + 1
        if 0 ≤ next ∧ next < t.count then
          match t.id next.toNat with
          | (.error err, t) => (.error err, t)
          | (.ok value, t) =>
            if value = id then (.ok next.toNat, { t with lookupAt := some next.toNat })
            else t.searchIndex id
        else t.searchIndex id

/-- The row at a place. -/
def coordinateRow (t : SearchNodeTable) (index : ℕ) :
    Except String (List UInt8) × SearchNodeTable :=
  if t.mapped then (.ok (portion t.file (t.count * 8 + index * 16) 16), t)
  else
    match t.coordinateCache.fetch t.file (t.count * 8) 16 t.count index with
    | (.error err, cache) => (.error err, { t with coordinateCache := cache })
    | (.ok (), cache) => (.ok (cache.row 16 index), { t with coordinateCache := cache })

/-- The coordinate of a node, if it is needed and was recorded. -/
def coordinate (t : SearchNodeTable) (id : Int64) :
    Except String (Option (Core.Coord F64)) × SearchNodeTable :=
  match t.coordinateIndex id with
  | (.error err, t) => (.error err, t)
  | (.ok here, t) =>
    if here = t.count then (.ok none, t)
    else
      match t.id here with
      | (.error err, t) => (.error err, t)
      | (.ok value, t) =>
        if value ≠ id then (.ok none, t)
        else
          match t.coordinateRow here with
          | (.error err, t) => (.error err, t)
          | (.ok data, t) =>
            let c := decodeCoordinate data
            (.ok (if c.lat.isNaN then none else some c), t)

end SearchNodeTable

end OsmMini.Mobile

import OsmMini.Core.Store.Bounds
import OsmMini.Core.Pbf.Truncation

/-!
# The spatial index of a stream

The indexer goes over the blocks of a file with framing code of its own. It records for
every block of data that has nodes where its bytes lie and the bounding box of its nodes.
A query returns the recorded blocks whose box meets a window.
-/

set_option autoImplicit false

namespace OsmMini.Core

open OsmMini.Foundations

/-- Whether a window is well formed. -/
def CoordWindow.valid (w : CoordWindow F64) : Bool :=
  if w.maxLat.le w.minLat || w.maxLon.le w.minLon then false
  else !(w.minLat.lt (F64.ofRat (-90)) || (F64.ofRat 90).lt w.maxLat ||
    w.minLon.lt (F64.ofRat (-180)) || (F64.ofRat 180).lt w.maxLon)

namespace Pbf

/-- The extent of the nodes of a block; it may have no width or height. -/
structure PBFBlockBounds where
  minLat : F64
  maxLat : F64
  minLon : F64
  maxLon : F64
  deriving DecidableEq, Repr

def PBFBlockBounds.intersects (b : PBFBlockBounds) (window : CoordWindow F64) : Bool :=
  b.minLat.le window.maxLat && window.minLat.le b.maxLat &&
    b.minLon.le window.maxLon && window.minLon.le b.maxLon

/-- Where a block lies in the file, and what is known of its nodes. -/
structure PBFSpatialBlock where
  offset : ℕ
  length : ℕ
  bounds : PBFBlockBounds
  nodeCount : ℕ
  deriving DecidableEq, Repr

/-- Take a node into the bounds and count it. -/
def addNode (acc : PBFBlockBounds × ℕ) : Call → PBFBlockBounds × ℕ
  | .node _ lat lon =>
    (⟨F64.min acc.1.minLat lat, F64.max acc.1.maxLat lat, F64.min acc.1.minLon lon,
      F64.max acc.1.maxLon lon⟩, acc.2 + 1)
  | _ => acc

def noBounds : PBFBlockBounds :=
  ⟨F64.infinity false, F64.infinity true, F64.infinity false, F64.infinity true⟩

def pbfBlockNodeBounds (raw : List UInt8) : Except PbfError (PBFBlockBounds × ℕ) :=
  match processOSMData raw noOptions nodeOnly with
  | (_, some e) => .error e
  | (calls, none) => .ok (calls.foldl addNode (noBounds, 0))

section Index

variable (inflate : List UInt8 → Inflated)

/-- The block of one blob of data at an offset, if it has nodes. -/
def indexBlob (typ blob : List UInt8) (offset bytesRead : ℕ) :
    Except PbfError (List PBFSpatialBlock) :=
  if typ = utf8 "OSMData" then
    match (decode inflate blob).result with
    | .error e => .error (.wrapped s!"decode PBF blob at byte {offset}" e)
    | .ok raw =>
      match pbfBlockNodeBounds raw with
      | .error e => .error (.wrapped s!"index PBF blob at byte {offset}" e)
      | .ok (bounds, nodes) =>
        if 0 < nodes then .ok [⟨offset, bytesRead - offset, bounds, nodes⟩] else .ok []
  else .ok []

/-- One block of the framing loop: its blocks of the index, the bytes read so far and the
rest of the file, or nothing at the end of the file. -/
def indexStep (size bytesRead : ℕ) (r : List UInt8) :
    Except PbfError (Option (List PBFSpatialBlock × ℕ × List UInt8)) :=
  let offset := bytesRead
  match readFull 4 r with
  | (.error e, _) =>
    if e.isEOF then .ok none
    else .error (.wrapped s!"read PBF block length at byte {offset}" e)
  | (.ok word, r) =>
    let bytesRead := bytesRead + word.length
    let headerLength := bigEndian word
    if headerLength = 0 ∨ 64 * 1024 < headerLength then
      .error (.format s!"invalid PBF BlobHeader size {headerLength} at byte {offset}")
    else
      match readFull headerLength r with
      | (.error e, _) => .error (.wrapped s!"read PBF BlobHeader at byte {offset}" e)
      | (.ok header, r) =>
        let bytesRead := bytesRead + header.length
        match parseBlobHeader header with
        | .error e => .error (.wrapped s!"parse PBF BlobHeader at byte {offset}" e)
        | .ok (typ, dataSize) =>
          if dataSize ≤ 0 then
            .error (.format s!"invalid PBF blob size {dataSize.toInt} at byte {offset}")
          else if (size : ℤ) - bytesRead < dataSize.toInt then
            .error (.wrapped s!"read PBF blob at byte {offset}" .unexpectedEOF)
          else
            match readBlob dataSize r with
            | (.error e, _, _) => .error (.wrapped s!"read PBF blob at byte {offset}" e)
            | (.ok blob, _, r) =>
              let bytesRead := bytesRead + blob.length
              match indexBlob inflate typ blob offset bytesRead with
              | .error e => .error e
              | .ok blocks => .ok (some (blocks, bytesRead, r))

/-- A step that reads a block reads a whole block. -/
theorem indexStep_some {size bytesRead after : ℕ} {r rest : List UInt8}
    {blocks : List PBFSpatialBlock}
    (step : indexStep inflate size bytesRead r = .ok (some (blocks, after, rest))) :
    ∃ f : Frame, r = f.bytes ++ rest ∧ after = bytesRead + f.bytes.length ∧
      indexBlob inflate f.typ f.blob bytesRead after = .ok blocks := by
  unfold indexStep at step
  dsimp only at step
  split at step
  · split at step <;> cases step
  next word r1 gotWord =>
  obtain ⟨rfl, four⟩ := readFull_ok gotWord
  split at step
  · cases step
  next goodLength =>
  split at step
  · cases step
  next header r2 gotHeader =>
  obtain ⟨rfl, headerLength⟩ := readFull_ok gotHeader
  split at step
  · cases step
  next typ datasize parsed =>
  split at step
  · cases step
  split at step
  · cases step
  split at step
  · cases step
  next blob encoded r3 gotBlob =>
  obtain ⟨-, rfl, size, pos, le⟩ := readBlob_ok gotBlob
  split at step
  · cases step
  next blocks' indexed =>
  obtain ⟨rfl, rfl, rfl⟩ := by simpa using step
  refine ⟨⟨word, header, typ, datasize, blob, four, headerLength.symm, by omega, by omega, parsed,
    size, pos, le⟩, ?_, ?_, ?_⟩
  · simp only [Frame.bytes, List.append_assoc]
  · simp only [Frame.bytes, List.length_append]
    omega
  · exact indexed

theorem Frame.bytes_le {f : Frame} {r rest : List UInt8} (front : r = f.bytes ++ rest) :
    rest.length < r.length := by
  have some_bytes := f.bytes_length
  rw [front, List.length_append]
  omega

/-- The framing loop from a byte of the file on: the blocks of the index, and how many bytes
were read when the file ended. -/
def indexBlocks (size bytesRead : ℕ) (r : List UInt8) :
    Except PbfError (List PBFSpatialBlock × ℕ) :=
  match _step : indexStep inflate size bytesRead r with
  | .error e => .error e
  | .ok none => .ok ([], bytesRead)
  | .ok (some (blocks, after, rest)) => do
    let (later, last) ← indexBlocks size after rest
    return (blocks ++ later, last)
termination_by r.length
decreasing_by
  obtain ⟨f, front, -⟩ := indexStep_some inflate _step
  exact Frame.bytes_le front

def buildPBFSpatialIndex (file : List UInt8) : Except PbfError (List PBFSpatialBlock) := do
  let (blocks, bytesRead) ← indexBlocks inflate file.length 0 file
  if bytesRead ≠ file.length then
    throw (.format s!"PBF changed while indexing: read {bytesRead} of {file.length} bytes")
  return blocks

end Index

def blocksForWindow (index : List PBFSpatialBlock) (window : CoordWindow F64) :
    List PBFSpatialBlock :=
  if !window.valid then []
  else index.filter fun block =>
    0 < block.length && 0 < block.nodeCount && block.bounds.intersects window

end Pbf

end OsmMini.Core

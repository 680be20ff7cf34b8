import OsmMini.Core.Types
import OsmMini.Foundations.LittleEndian
import OsmMini.Foundations.Ranges
import OsmMini.Foundations.Binary64

/-!
# The graph file and its accessors

A file-backed graph is one little-endian byte string: a header, the node table, the
explicit edges, the cells of the spatial index, the attributes edges share, the packed
road chains with their vertices, and metadata. An opened file keeps the offsets of the
sections; every accessor reads the bytes where they stand. A read outside the file
stops the program, which the model records as `Fault.outOfRange`.

A node of a packed chain keeps no edges of its own: its record holds the chain and its
position in it, and its two edges are read off the vertices of the chain.
-/

set_option autoImplicit false

namespace OsmMini.Core

open Foundations Foundations.LittleEndian

/-- Why reading a file stops: a read outside it, or a refusal with its message. -/
inductive Fault where
  | outOfRange
  | refused (message : String)
  deriving DecidableEq, Repr

abbrev Checked := Except Fault

/-! ## Reading -/

def uint32 (data : List UInt8) (offset : ℕ) : Checked ℕ :=
  match read 4 data offset with
  | some n => .ok n
  | none => .error .outOfRange

def uint64 (data : List UInt8) (offset : ℕ) : Checked ℕ :=
  match read 8 data offset with
  | some n => .ok n
  | none => .error .outOfRange

/-- The signed integer of the same 64 bits. -/
def signed (n : ℕ) : Int64 := (UInt64.ofNat n).toInt64

/-- The floating-point number of 64 bits. -/
def float64frombits (n : ℕ) : F64 := ⟨UInt64.ofNat n⟩

/-- The bytes from `low` to `high`. -/
def slice (data : List UInt8) (low high : ℕ) : Checked (List UInt8) :=
  if low ≤ high ∧ high ≤ data.length then .ok ((data.drop low).take (high - low))
  else .error .outOfRange

/-- The difference of two 32-bit numbers, which wraps below zero. -/
def sub32 (a b : ℕ) : ℕ := (a + 2 ^ 32 - b) % 2 ^ 32

/-- The sum of two 32-bit numbers, which wraps past the largest one. -/
def add32 (a b : ℕ) : ℕ := (a + b) % 2 ^ 32

/-! ## The format -/

def graphHeaderSize : ℕ := 96
def graphNodeSize : ℕ := 32
def graphEdgeSize : ℕ := 16
def graphCellSize : ℕ := 12
def graphAttributeSize : ℕ := 32
def graphLegacyNodeSize : ℕ := 40
def graphLegacyEdgeSize : ℕ := 48
def graphLegacyCellSize : ℕ := 16
def graphChainSize : ℕ := 16
def graphChainVertexSize : ℕ := 12

/-- `OSMMGR02` -/
def graphMagic : List UInt8 := [79, 83, 77, 77, 71, 82, 48, 50]
/-- `OSMMGR01` -/
def graphLegacyMagic : List UInt8 := [79, 83, 77, 77, 71, 82, 48, 49]
/-- `OSMMGR03` -/
def graphChainMagic : List UInt8 := [79, 83, 77, 77, 71, 82, 48, 51]

/-- Marks the record of a node inside a packed chain. -/
def graphChainFlag : ℕ := 2 ^ 31
/-- Marks a chain node whose first edge is the one to the next vertex. -/
def graphChainReverse : ℕ := 2 ^ 30
def graphChainPositionMask : ℕ := graphChainReverse - 1

/-- An opened graph file: its bytes, its counts and where its sections begin. -/
structure DiskGraph where
  data : List UInt8
  nodes : ℕ
  edgeCount : ℕ
  edgesOffset : ℕ
  cellsOffset : ℕ
  nodeSize : ℕ
  edgeSize : ℕ
  cellSize : ℕ
  attributesOffset : ℕ
  chainsOffset : ℕ
  verticesOffset : ℕ
  storedEdges : ℕ
  compact : Bool
  classes : List String

/-- A position in a packed chain. `chain` are the bytes from the chain's record on. -/
structure ChainPosition where
  chain : List UInt8
  position : ℕ
  reversed : Bool

/-- The edges out of a node: explicit records, or the two edges of a chain node. -/
inductive EdgeIterator where
  | explicit (data : List UInt8)
  | chained (place : ChainPosition)

/-- The nodes of a cell, from the bytes of the spatial index that are left. -/
structure CellNodeIterator where
  data : List UInt8
  key : Int64

namespace DiskGraph

variable (d : DiskGraph)

/-! ## Nodes -/

def nodeRecord (i : ℕ) : Checked (List UInt8) :=
  slice d.data (graphHeaderSize + i * d.nodeSize) (graphHeaderSize + (i + 1) * d.nodeSize)

def coordAt (i : ℕ) : Checked (Coord F64) := do
  let b ← d.nodeRecord i
  return { lat := float64frombits (← uint64 b 8), lon := float64frombits (← uint64 b 16) }

/-- The ID of the node at an index. -/
def nodeIDAt (i : ℕ) : Checked Int64 := do
  return signed (← uint64 (← d.nodeRecord i) 0)

/-- The index of a node ID in the sorted node table. -/
def nodeIndex (id : Int64) : Checked (Option ℕ) := do
  let idAt i := signed <$> uint64 d.data (graphHeaderSize + i * d.nodeSize)
  let i ← searchM d.nodes fun i => (fun x => decide (id ≤ x)) <$> idAt i
  if i = d.nodes then return none
  if (← idAt i) ≠ id then return none
  return some i

def chainNode (i : ℕ) : Checked (Option ChainPosition) := do
  if d.chainsOffset = 0 then return none
  let b ← d.nodeRecord i
  let flags ← uint32 b 28
  if flags &&& graphChainFlag = 0 then return none
  let chainIndex ← uint32 b 24
  let chain ← slice d.data (d.chainsOffset + chainIndex * graphChainSize) d.data.length
  return some
    { chain := chain
      position := flags &&& graphChainPositionMask
      reversed := flags &&& graphChainReverse ≠ 0 }

/-- The first explicit edge of a node and the number of its edges. -/
def edgeRange (i : ℕ) : Checked (ℕ × ℕ) := do
  let b ← d.nodeRecord i
  if d.compact then
    if d.chainsOffset ≠ 0 ∧ (← uint32 b 28) &&& graphChainFlag ≠ 0 then return (0, 2)
    return (← uint32 b 24, ← uint32 b 28)
  return (← uint64 b 24, ← uint32 b 32)

/-! ## Edges -/

/-- The class of an edge. -/
def classAt (i : ℕ) : Checked String :=
  match d.classes[i]? with
  | some name => .ok name
  | none => .error .outOfRange

def compactEdge (target attr distance : ℕ) : Checked (Edge F64) := do
  let a ← slice d.data (d.attributesOffset + attr * graphAttributeSize) d.data.length
  return {
    toID := ← d.nodeIDAt target
    distM := float64frombits distance
    speedKph := float64frombits (← uint64 a 0)
    maxHeightM := float64frombits (← uint64 a 8)
    maxWeightT := float64frombits (← uint64 a 16)
    hwyType := ← d.classAt (← uint32 a 24) }

/-- The bytes from a vertex of the chains on. -/
def vertex (v : ℕ) : Checked (List UInt8) :=
  slice d.data (d.verticesOffset + v * graphChainVertexSize) d.data.length

/-- The edge of a chain node to the vertex after it or before it. -/
def chainEdge (chain : List UInt8) (position : ℕ) (next : Bool) : Checked (Edge F64) := do
  let start ← uint32 chain 0
  let target := if next then add32 position 1 else sub32 position 1
  let segment := if next then position else sub32 position 1
  let vertex ← d.vertex (add32 start target)
  let distance ← slice d.data
    (d.verticesOffset + add32 start segment * graphChainVertexSize + 4) d.data.length
  d.compactEdge (← uint32 vertex 0) (← uint32 chain 8) (← uint64 distance 0)

def edgesAt (i : ℕ) : Checked EdgeIterator := do
  if let some place ← d.chainNode i then return .chained place
  let (start, count) ← d.edgeRange i
  return .explicit (← slice d.data (d.edgesOffset + start * d.edgeSize)
    (d.edgesOffset + (start + count) * d.edgeSize))

/-- How often `next` succeeds. -/
def edgesLeft : EdgeIterator → ℕ
  | .chained _ => 2
  | .explicit data => data.length / d.edgeSize

/-- The edge an iterator stands at after `next` has succeeded `index + 1` times. -/
def edge (it : EdgeIterator) (index : ℕ) : Checked (Edge F64) :=
  match it with
  | .chained place => d.chainEdge place.chain place.position (decide (index = 1) != place.reversed)
  | .explicit data => do
    let b ← slice data (index * d.edgeSize) data.length
    if d.compact then
      d.compactEdge (← uint32 b 0) (← uint32 b 4) (← uint64 b 8)
    else return {
      toID := signed (← uint64 b 0)
      distM := float64frombits (← uint64 b 8)
      speedKph := float64frombits (← uint64 b 16)
      maxHeightM := float64frombits (← uint64 b 24)
      maxWeightT := float64frombits (← uint64 b 32)
      hwyType := ← d.classAt (← uint32 b 40) }

/-- What the relaxation of a compact edge reads: the index of its target, its
attribute and its length. -/
structure CompactFields where
  target : ℕ
  attr : ℕ
  distance : F64
  deriving DecidableEq, Repr

def compactFields (it : EdgeIterator) (index : ℕ) : Checked CompactFields :=
  match it with
  | .chained place => do
    let start ← uint32 place.chain 0
    let next := decide (index = 1) != place.reversed
    let position := if next then add32 place.position 1 else sub32 place.position 1
    let segment := if next then place.position else sub32 place.position 1
    let target ← uint32 (← d.vertex (add32 start position)) 0
    let attr ← uint32 place.chain 8
    let distance ← slice d.data
      (d.verticesOffset + add32 start segment * graphChainVertexSize + 4) d.data.length
    return { target, attr, distance := float64frombits (← uint64 distance 0) }
  | .explicit data => do
    let b ← slice data (index * d.edgeSize) data.length
    return {
      target := ← uint32 b 0
      attr := ← uint32 b 4
      distance := float64frombits (← uint64 b 8) }

/-- All edges out of the node at an index. -/
def edgeList (i : ℕ) : Checked (List (Edge F64)) := do
  let it ← d.edgesAt i
  (List.range (d.edgesLeft it)).mapM (d.edge it)

/-- The compact fields of all edges out of the node at an index. -/
def fieldList (i : ℕ) : Checked (List CompactFields) := do
  let it ← d.edgesAt i
  (List.range (d.edgesLeft it)).mapM (d.compactFields it)

/-- The edge that goes on along a chain from an interior node entered from `previous`. -/
def chainContinuation (node previous : ℕ) : Checked (Option CompactFields) := do
  let some place ← d.chainNode node | return none
  let start ← uint32 place.chain 0
  let left ← d.vertex (sub32 (add32 start place.position) 1)
  let right ← d.vertex (add32 (add32 start place.position) 1)
  if (← uint32 left 0) = previous then
    let distance ← slice d.data
      (d.verticesOffset + add32 start place.position * graphChainVertexSize + 4) d.data.length
    return some {
      target := ← uint32 right 0
      distance := float64frombits (← uint64 distance 0)
      attr := ← uint32 place.chain 8 }
  if (← uint32 right 0) = previous then
    return some {
      target := ← uint32 left 0
      distance := float64frombits (← uint64 left 4)
      attr := ← uint32 place.chain 8 }
  return none

/-! ## Cells -/

def cellNodesIter (key : Int64) : Checked CellNodeIterator := do
  let start ← searchM d.nodes fun i =>
    (fun n => decide (key ≤ signed n)) <$> uint64 d.data (d.cellsOffset + i * d.cellSize)
  return {
    data := ← slice d.data (d.cellsOffset + start * d.cellSize)
      (d.cellsOffset + d.nodes * d.cellSize)
    key }

/-- The next node of a cell, if any: its index, which only compact files store, and
its ID. -/
def nextCellNode (it : CellNodeIterator) : Checked (Option (CellNodeIterator × ℕ × Int64)) := do
  if it.data.length = 0 ∨ it.data.length < d.cellSize then return none
  if signed (← uint64 it.data 0) ≠ it.key then return none
  let (node, id) ← if d.compact then do
      let node ← uint32 it.data 8
      pure (node, ← d.nodeIDAt node)
    else do pure (0, signed (← uint64 it.data 8))
  return some ({ it with data := ← slice it.data d.cellSize it.data.length }, node, id)

/-- The coordinate of the node an iterator stands at. -/
def cellCoord (node : ℕ) (id : Int64) : Checked (Coord F64) := do
  if d.compact then d.coordAt node
  else match ← d.nodeIndex id with
    | some node => d.coordAt node
    | none => return ⟨float64frombits 0, float64frombits 0⟩

/-- The nodes an iterator visits in at most the given number of rounds. -/
def visitCell : ℕ → CellNodeIterator → Checked (List (ℕ × Int64 × Coord F64))
  | 0, _ => return []
  | rounds + 1, it => do
    let some (rest, node, id) ← d.nextCellNode it | return []
    let c ← d.cellCoord node id
    return (node, id, c) :: (← visitCell rounds rest)

/-- All nodes of a cell. -/
def cellNodes (key : Int64) : Checked (List (ℕ × Int64 × Coord F64)) := do
  d.visitCell (d.nodes + 1) (← d.cellNodesIter key)

/-! ## Nodes by ID -/

def coord (id : Int64) : Checked (Option (Coord F64)) := do
  let some i ← d.nodeIndex id | return none
  return some (← d.coordAt i)

def edges (id : Int64) : Checked (List (Edge F64)) := do
  let some i ← d.nodeIndex id | return []
  d.edgeList i

def degree (id : Int64) : Checked ℕ := do
  let some i ← d.nodeIndex id | return 0
  return (← d.edgeRange i).2

end DiskGraph

end OsmMini.Core

import OsmMini.Core.Store.Format
import OsmMini.Core.Store.Bounds

/-!
# Opening a graph file

`openGraph` accepts a byte string after it has checked the counts of the header, that
the sections fill the file, the node table, the edges, the packed chains, the
attributes and the cells. What it checks once, the accessors rely on.

Decoding the JSON metadata is a parameter. A legacy file is opened too; only a compact
one is checked against its bounds and its cells.
-/

set_option autoImplicit false

namespace OsmMini.Core

open Foundations Foundations.LittleEndian

structure StreetEntry where
  display : String
  nodeIDs : List Int64

/-- The metadata at the end of a graph file. -/
structure GraphMetadata where
  classes : List String
  streets : List (String × StreetEntry)

/-- A router over an opened graph file. -/
structure OpenedRouter where
  store : DiskGraph
  streets : List (String × StreetEntry)
  bounds : CoordWindow F64
  maxX : Int32
  maxY : Int32

/-- Refuse the file when a check fails. -/
def refuseIf (bad : Bool) (message : String) : Checked Unit :=
  if bad then .error (.refused message) else .ok ()

/-! ## The header -/

structure GraphHeader where
  chained : Bool
  compact : Bool
  n : ℕ
  e : ℕ
  m : ℕ
  attributes : ℕ
  storedEdges : ℕ
  chains : ℕ
  vertices : ℕ

namespace GraphHeader

variable (h : GraphHeader)

def nodeSize : ℕ := if h.compact then graphNodeSize else graphLegacyNodeSize
def edgeSize : ℕ := if h.compact then graphEdgeSize else graphLegacyEdgeSize
def cellSize : ℕ := if h.compact then graphCellSize else graphLegacyCellSize

def maxUint32 : ℕ := 2 ^ 32 - 1

/-- Whether the counts cannot be those of a file of the given size. -/
def invalidSizes (size : ℕ) : Bool :=
  h.n = 0 || size / h.nodeSize < h.n || size / h.edgeSize < h.storedEdges ||
    64 * 2 ^ 20 < h.m || size / graphAttributeSize < h.attributes ||
    (h.compact && (maxUint32 < h.n || maxUint32 < h.e || maxUint32 < h.attributes)) ||
    h.e < h.storedEdges || h.n < h.chains || size / graphChainVertexSize < h.vertices ||
    maxUint32 < h.vertices ||
    (h.chained && (h.chains = 0 || 2 * h.n < h.e - h.storedEdges))

end GraphHeader

/-- A header field that only some formats have. -/
def fieldIf (present : Bool) (data : List UInt8) (offset other : ℕ) : Checked ℕ :=
  if present then uint64 data offset else .ok other

def readHeader (data : List UInt8) : Checked GraphHeader := do
  refuseIf (data.length < graphHeaderSize) "unsupported or truncated graph"
  let magic := data.take 8
  let chained : Bool := magic = graphChainMagic
  let compact : Bool := magic = graphMagic || chained
  refuseIf (!compact && magic ≠ graphLegacyMagic) "unsupported or truncated graph"
  let n ← uint64 data 8
  let e ← uint64 data 16
  let m ← uint64 data 24
  let attributes ← fieldIf compact data 64 0
  let storedEdges ← fieldIf chained data 72 e
  let chains ← fieldIf chained data 80 0
  let vertices ← fieldIf chained data 88 0
  let h : GraphHeader :=
    { chained, compact, n, e, m, attributes, storedEdges, chains, vertices }
  refuseIf (h.invalidSizes data.length) "invalid graph sizes"
  return h

/-! ## The sections -/

/-- Where each section begins. -/
structure GraphLayout where
  edgesOffset : ℕ
  cellsOffset : ℕ
  attributesOffset : ℕ
  chainsOffset : ℕ
  verticesOffset : ℕ
  metaOffset : ℕ

/-- The offset behind a section of the file that begins at `offset`. -/
def takeSection (size offset count recordSize : ℕ) : Checked ℕ :=
  if (size - offset) / recordSize < count then .error (.refused "unexpected EOF")
  else .ok (offset + count * recordSize)

def readLayout (h : GraphHeader) (size : ℕ) : Checked GraphLayout := do
  let edgesOffset ← takeSection size graphHeaderSize h.n h.nodeSize
  let cellsOffset ← takeSection size edgesOffset h.storedEdges h.edgeSize
  let attributesOffset ← takeSection size cellsOffset h.n h.cellSize
  let behind ← takeSection size attributesOffset h.attributes graphAttributeSize
  if h.chained then
    let verticesOffset ← takeSection size behind h.chains graphChainSize
    let metaOffset ← takeSection size verticesOffset h.vertices graphChainVertexSize
    refuseIf (h.m ≠ size - metaOffset) "unexpected EOF"
    return { edgesOffset, cellsOffset, attributesOffset, verticesOffset, metaOffset
             chainsOffset := behind }
  refuseIf (h.m ≠ size - behind) "unexpected EOF"
  return { edgesOffset, cellsOffset, attributesOffset
           chainsOffset := 0, verticesOffset := 0, metaOffset := behind }

def readBounds (data : List UInt8) : Checked (CoordWindow F64) := do
  return { minLat := float64frombits (← uint64 data 32)
           maxLat := float64frombits (← uint64 data 40)
           minLon := float64frombits (← uint64 data 48)
           maxLon := float64frombits (← uint64 data 56) }

def diskGraph (data : List UInt8) (h : GraphHeader) (l : GraphLayout) (classes : List String) :
    DiskGraph :=
  { data, classes
    nodes := h.n, edgeCount := h.e, storedEdges := h.storedEdges
    nodeSize := h.nodeSize, edgeSize := h.edgeSize, cellSize := h.cellSize
    edgesOffset := l.edgesOffset, cellsOffset := l.cellsOffset
    attributesOffset := l.attributesOffset, chainsOffset := l.chainsOffset
    verticesOffset := l.verticesOffset, compact := h.compact }

/-! ## The node table, the edges, the attributes and the cells -/

/-- What the scan of the node table carries. -/
structure NodeScan where
  last : Int64
  nextEdge : ℕ
  chainNodes : ℕ

section Checks

variable (d : DiskGraph) (h : GraphHeader) (bounds : CoordWindow F64)

/-- In a compact file every node lies in the bounds. -/
def checkContained (i : ℕ) : Checked Unit :=
  if h.compact then do
    refuseIf (!bounds.contains (← d.coordAt i)) "graph coordinate outside bounds"
  else .ok ()

/-- The first edge and the edge count in a node record. -/
def storedRange (b : List UInt8) : Checked (ℕ × ℕ) :=
  if h.compact then do return (← uint32 b 24, ← uint32 b 28)
  else do return (← uint64 b 24, ← uint32 b 32)

def checkNode (s : NodeScan) (i : ℕ) : Checked NodeScan := do
  let b ← d.nodeRecord i
  let id := signed (← uint64 b 0)
  checkContained d h bounds i
  let (start, count) ← storedRange h b
  refuseIf (0 < i && id ≤ s.last) "invalid graph node index"
  if h.chained ∧ count &&& graphChainFlag ≠ 0 then
    refuseIf (h.chains ≤ start) "invalid graph chain index"
    return { s with last := id, chainNodes := s.chainNodes + 1 }
  refuseIf (h.storedEdges < start || h.storedEdges - start < count ||
    (h.compact && start ≠ s.nextEdge)) "invalid graph node index"
  return { s with last := id, nextEdge := start + count }

def checkNodes : Checked NodeScan := do
  let s ← (List.range d.nodes).foldlM (checkNode d h bounds) ⟨0, 0, 0⟩
  refuseIf (h.compact && (s.nextEdge ≠ h.storedEdges ||
    h.storedEdges + 2 * s.chainNodes ≠ h.e)) "invalid graph adjacency ranges"
  return s

def checkEdge (i : ℕ) : Checked Unit := do
  let b ← slice d.data (d.edgesOffset + i * d.edgeSize) d.data.length
  if h.compact then
    refuseIf (h.n ≤ (← uint32 b 0) || h.attributes ≤ (← uint32 b 4)) "invalid graph edge index"
  else
    refuseIf (d.classes.length ≤ (← uint32 b 40)) "invalid graph edge class"

def checkAttribute (i : ℕ) : Checked Unit := do
  let kind ← uint32 d.data (d.attributesOffset + i * graphAttributeSize + 24)
  refuseIf (d.classes.length ≤ kind) "invalid graph attribute class"

/-- The check of one cell record after a cell of the given key and node. -/
def checkCell (last : Int64 × ℕ) (i : ℕ) : Checked (Int64 × ℕ) := do
  let b ← slice d.data (d.cellsOffset + i * d.cellSize) d.data.length
  let key := signed (← uint64 b 0)
  let node ← uint32 b 8
  refuseIf (h.n ≤ node || (0 < i && (key < last.1 || (key = last.1 && node ≤ last.2))))
    "invalid graph spatial index"
  let c ← d.coordAt node
  refuseIf (key ≠ cellKey ((graphGrid bounds).cell c))
    "graph spatial cell does not match coordinate"
  return (key, node)

end Checks

/-! ## The chains -/

section Chains

variable (d : DiskGraph) (chains vertices attributes : ℕ)

/-- The check of one vertex of the chain `i`. -/
def checkVertex (i start count position : ℕ) : Checked Unit := do
  let v ← d.vertex (start + position)
  let node ← uint32 v 0
  refuseIf (d.nodes ≤ node) "invalid graph chain vertex"
  let n ← d.nodeRecord node
  let flags ← uint32 n 28
  if 0 < position ∧ position < count - 1 then
    refuseIf (flags &&& graphChainFlag = 0 || flags &&& graphChainPositionMask ≠ position ||
      (← uint32 n 24) ≠ i) "invalid graph chain node position"
  else
    refuseIf (flags &&& graphChainFlag ≠ 0) "invalid graph chain endpoint"

/-- The check of the chain `i`; the state counts the vertices and the interior nodes of
the chains before it. -/
def checkChain (s : ℕ × ℕ) (i : ℕ) : Checked (ℕ × ℕ) := do
  let b ← slice d.data (d.chainsOffset + i * graphChainSize) d.data.length
  let start ← uint32 b 0
  let count ← uint32 b 4
  let attr ← uint32 b 8
  refuseIf (start ≠ s.1 || count < 5 || vertices < start || vertices - start < count ||
    attributes ≤ attr || (← uint32 b 12) ≠ 0) "invalid graph chain record"
  (List.range count).forM (checkVertex d i start count)
  let last ← d.vertex (start + count - 1)
  refuseIf ((← uint64 last 4) ≠ 0) "invalid graph chain terminal distance"
  return (s.1 + count, s.2 + (count - 2))

/-- How often an explicit edge enters a chain at each of its two ends. -/
abbrev ChainEntries := List (ℕ × ℕ)

/-- The check of one explicit edge out of an ordinary node: it may enter a chain only
from one of its ends, with the attribute and the length of the chain there. -/
def checkEntry (node : ℕ) (entries : ChainEntries) (edge : ℕ) : Checked ChainEntries := do
  let e ← slice d.data (d.edgesOffset + edge * graphEdgeSize) d.data.length
  let target ← uint32 e 0
  let some place ← d.chainNode target | return entries
  let chainStart ← uint32 place.chain 0
  let chainCount ← uint32 place.chain 4
  let far : Bool := place.position = sub32 chainCount 2
  refuseIf (!far && place.position ≠ 1) "graph edge enters chain interior"
  let vertex := if far then sub32 (add32 chainStart chainCount) 1 else chainStart
  let segment := if far then sub32 (add32 chainStart chainCount) 2 else chainStart
  let v ← d.vertex vertex
  let distance ← slice d.data
    (d.verticesOffset + segment * graphChainVertexSize + 4) d.data.length
  refuseIf ((← uint32 v 0) ≠ node || (← uint32 e 4) ≠ (← uint32 place.chain 8) ||
    (← uint64 e 8) ≠ (← uint64 distance 0)) "invalid graph chain endpoint edge"
  let chainIndex ← uint32 (← d.nodeRecord target) 24
  match entries[chainIndex]? with
  | none => .error .outOfRange
  | some (first, last) =>
    refuseIf ((if far then last else first) ≠ 0) "duplicate graph chain entry"
    return entries.set chainIndex (if far then (first, last + 1) else (first + 1, last))

/-- The check of all explicit edges out of a node that is not inside a chain. -/
def checkEntries (entries : ChainEntries) (node : ℕ) : Checked ChainEntries := do
  if (← d.chainNode node).isSome then return entries
  let (start, count) ← d.edgeRange node
  (List.range count).foldlM (fun entries k => checkEntry d node entries (start + k)) entries

def validateChains (chainNodes : ℕ) : Checked Unit := do
  let (nextVertex, interior) ← (List.range chains).foldlM (checkChain d vertices attributes) (0, 0)
  refuseIf (nextVertex ≠ vertices || interior ≠ chainNodes) "invalid graph chain coverage"
  let entries ← (List.range d.nodes).foldlM (checkEntries d) (List.replicate chains (0, 0))
  refuseIf (entries.any fun ends => ends ≠ (1, 1)) "missing graph chain entry"

end Chains

/-! ## Opening -/

/-- The check of the packed chains, which only some files have. -/
def checkChains (d : DiskGraph) (h : GraphHeader) (chainNodes : ℕ) : Checked Unit :=
  if h.chained then validateChains d h.chains h.vertices h.attributes chainNodes else .ok ()

/-- The check of the attributes and the cells, which a legacy file has not. -/
def checkCompact (d : DiskGraph) (h : GraphHeader) (bounds : CoordWindow F64) : Checked Unit :=
  if h.compact then do
    (List.range h.attributes).forM (checkAttribute d)
    let _ ← (List.range d.nodes).foldlM (checkCell d h bounds) (0, 0)
  else .ok ()

/-- The decoded metadata. -/
def readMetadata (unmarshal : List UInt8 → Except String GraphMetadata) (bytes : List UInt8) :
    Checked GraphMetadata :=
  match unmarshal bytes with
  | .ok metadata => .ok metadata
  | .error message => .error (.refused message)

/-- The last cell of a row or a column of the grid. -/
def lastCell (high low : F64) : Int32 :=
  ((high.sub low).div (F64.ofRat 0.01)).floorInt32

/-- Open the graph file of the given bytes. -/
def openGraph (unmarshal : List UInt8 → Except String GraphMetadata) (data : List UInt8) :
    Checked OpenedRouter := do
  let h ← readHeader data
  let l ← readLayout h data.length
  let metadata ← readMetadata unmarshal (data.drop l.metaOffset)
  refuseIf (metadata.classes.length = 0 && 0 < h.e) "missing graph classes"
  let bounds ← readBounds data
  refuseIf (!validGraphBounds bounds) "invalid graph bounds"
  let d := diskGraph data h l metadata.classes
  let scan ← checkNodes d h bounds
  (List.range d.storedEdges).forM (checkEdge d h)
  checkChains d h scan.chainNodes
  checkCompact d h bounds
  return {
    store := d
    streets := metadata.streets
    bounds := bounds
    maxX := lastCell bounds.maxLat bounds.minLat
    maxY := lastCell bounds.maxLon bounds.minLon }

end OsmMini.Core

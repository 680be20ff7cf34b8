import OsmMini.Core.Store.Open

/-!
# What the accessors read

In a compact file whose sections lie where its offsets say (`Laid`), every field of
every record can be read. This module names the fields as total functions of the record
index, such as `d.target k`, and says what each accessor returns in their terms.
-/

set_option autoImplicit false

namespace OsmMini.Core

open Foundations Foundations.LittleEndian

/-! ## Checked computations -/

theorem bind_ok_iff {α β : Type} {x : Checked α} {f : α → Checked β} {b : β} :
    (x >>= f) = .ok b ↔ ∃ a, x = .ok a ∧ f a = .ok b := by
  cases x with
  | error e => exact ⟨fun h => (nomatch h), fun ⟨_, h, _⟩ => (nomatch h)⟩
  | ok a => exact ⟨fun h => ⟨a, rfl, h⟩, fun ⟨_, h, g⟩ => by cases h; exact g⟩

theorem map_ok_iff {α β : Type} {x : Checked α} {f : α → β} {b : β} :
    (f <$> x) = .ok b ↔ ∃ a, x = .ok a ∧ f a = b := by
  cases x with
  | error e => exact ⟨fun h => (nomatch h), fun ⟨_, h, _⟩ => (nomatch h)⟩
  | ok a => exact ⟨fun h => ⟨a, rfl, by cases h; rfl⟩, fun ⟨_, h, g⟩ => by cases h; rw [← g]; rfl⟩

@[simp] theorem ok_bind {α β : Type} (a : α) (f : α → Checked β) :
    ((.ok a : Checked α) >>= f) = f a := rfl

@[simp] theorem pure_eq_ok {α : Type} (a : α) : (pure a : Checked α) = .ok a := rfl

@[simp] theorem map_ok {α β : Type} (f : α → β) (a : α) :
    f <$> (.ok a : Checked α) = .ok (f a) := rfl

@[simp] theorem refuseIf_false (message : String) : refuseIf false message = .ok () := rfl

theorem refuseIf_ok_iff {bad : Bool} {message : String} {u : Unit} :
    refuseIf bad message = .ok u ↔ bad = false := by
  cases bad with
  | true => exact ⟨fun h => (nomatch h), fun h => (nomatch h)⟩
  | false => exact ⟨fun _ => rfl, fun _ => rfl⟩

theorem uint32_ok {data : List UInt8} {offset : ℕ} (inside : offset + 4 ≤ data.length) :
    uint32 data offset = .ok (peek 4 data offset) := by
  rw [uint32, read_eq_some inside]

theorem uint64_ok {data : List UInt8} {offset : ℕ} (inside : offset + 8 ≤ data.length) :
    uint64 data offset = .ok (peek 8 data offset) := by
  rw [uint64, read_eq_some inside]

theorem slice_ok {data : List UInt8} {low high : ℕ} (ordered : low ≤ high)
    (inside : high ≤ data.length) : slice data low high = .ok ((data.drop low).take (high - low)) :=
  if_pos ⟨ordered, inside⟩

/-! Slices up to the end of the file are written without the redundant `take`. -/

theorem slice_tail {data : List UInt8} {low : ℕ} (inside : low ≤ data.length) :
    slice data low data.length = .ok (data.drop low) := by
  rw [slice_ok inside (le_refl _), List.take_of_length_le (by simp)]

theorem uint32_drop {data : List UInt8} {start offset : ℕ}
    (inside : start + offset + 4 ≤ data.length) :
    uint32 (data.drop start) offset = .ok (peek 4 data (start + offset)) := by
  rw [uint32_ok (by rw [List.length_drop]; omega), peek_drop]

theorem uint64_drop {data : List UInt8} {start offset : ℕ}
    (inside : start + offset + 8 ≤ data.length) :
    uint64 (data.drop start) offset = .ok (peek 8 data (start + offset)) := by
  rw [uint64_ok (by rw [List.length_drop]; omega), peek_drop]

theorem uint32_slice {data : List UInt8} {start length offset : ℕ} (fits : offset + 4 ≤ length)
    (inside : start + length ≤ data.length) :
    uint32 ((data.drop start).take length) offset = .ok (peek 4 data (start + offset)) := by
  rw [uint32_ok (by rw [List.length_take, List.length_drop]; omega), peek_take fits, peek_drop]

theorem uint64_slice {data : List UInt8} {start length offset : ℕ} (fits : offset + 8 ≤ length)
    (inside : start + length ≤ data.length) :
    uint64 ((data.drop start).take length) offset = .ok (peek 8 data (start + offset)) := by
  rw [uint64_ok (by rw [List.length_take, List.length_drop]; omega), peek_take fits, peek_drop]

/-! A window of the file, read from an offset in it on. -/

theorem length_window {data : List UInt8} {start length : ℕ} (inside : start + length ≤ data.length) :
    ((data.drop start).take length).length = length := by
  rw [List.length_take, List.length_drop]
  omega

theorem uint32_window {data : List UInt8} {start length offset field : ℕ}
    (fits : offset + field + 4 ≤ length) (inside : start + length ≤ data.length) :
    uint32 (((data.drop start).take length).drop offset) field =
      .ok (peek 4 data (start + offset + field)) := by
  rw [uint32_drop (by rw [length_window inside]; omega), peek_take (by omega), peek_drop, add_assoc]

theorem uint64_window {data : List UInt8} {start length offset field : ℕ}
    (fits : offset + field + 8 ≤ length) (inside : start + length ≤ data.length) :
    uint64 (((data.drop start).take length).drop offset) field =
      .ok (peek 8 data (start + offset + field)) := by
  rw [uint64_drop (by rw [length_window inside]; omega), peek_take (by omega), peek_drop, add_assoc]

namespace DiskGraph

variable (d : DiskGraph)

/-! ## The fields of a compact file -/

def id (i : ℕ) : Int64 := signed (peek 8 d.data (graphHeaderSize + i * 32))
def lat (i : ℕ) : F64 := float64frombits (peek 8 d.data (graphHeaderSize + i * 32 + 8))
def lon (i : ℕ) : F64 := float64frombits (peek 8 d.data (graphHeaderSize + i * 32 + 16))
/-- The first edge of an ordinary node; the chain of a chain node. -/
def first (i : ℕ) : ℕ := peek 4 d.data (graphHeaderSize + i * 32 + 24)
/-- The edge count of an ordinary node; the flags and position of a chain node. -/
def flags (i : ℕ) : ℕ := peek 4 d.data (graphHeaderSize + i * 32 + 28)

def target (k : ℕ) : ℕ := peek 4 d.data (d.edgesOffset + k * 16)
def edgeAttr (k : ℕ) : ℕ := peek 4 d.data (d.edgesOffset + k * 16 + 4)
def edgeLength (k : ℕ) : ℕ := peek 8 d.data (d.edgesOffset + k * 16 + 8)

def cellKeyAt (i : ℕ) : Int64 := signed (peek 8 d.data (d.cellsOffset + i * 12))
def cellNode (i : ℕ) : ℕ := peek 4 d.data (d.cellsOffset + i * 12 + 8)

def speedAt (a : ℕ) : F64 := float64frombits (peek 8 d.data (d.attributesOffset + a * 32))
def heightAt (a : ℕ) : F64 := float64frombits (peek 8 d.data (d.attributesOffset + a * 32 + 8))
def weightAt (a : ℕ) : F64 := float64frombits (peek 8 d.data (d.attributesOffset + a * 32 + 16))
def attributeClass (a : ℕ) : ℕ := peek 4 d.data (d.attributesOffset + a * 32 + 24)

def chainStart (c : ℕ) : ℕ := peek 4 d.data (d.chainsOffset + c * 16)
def chainCount (c : ℕ) : ℕ := peek 4 d.data (d.chainsOffset + c * 16 + 4)
def chainAttr (c : ℕ) : ℕ := peek 4 d.data (d.chainsOffset + c * 16 + 8)
def chainReserved (c : ℕ) : ℕ := peek 4 d.data (d.chainsOffset + c * 16 + 12)

def vertexNode (v : ℕ) : ℕ := peek 4 d.data (d.verticesOffset + v * 12)
def vertexLength (v : ℕ) : ℕ := peek 8 d.data (d.verticesOffset + v * 12 + 4)

/-- The coordinate of a node. -/
def place (i : ℕ) : Coord F64 := ⟨d.lat i, d.lon i⟩

/-- Whether a node lies inside a packed chain. -/
def isChain (i : ℕ) : Prop := d.chainsOffset ≠ 0 ∧ d.flags i &&& graphChainFlag ≠ 0

instance (i : ℕ) : Decidable (d.isChain i) := inferInstanceAs (Decidable (_ ∧ _))

/-- The position of a chain node in its chain. -/
def position (i : ℕ) : ℕ := d.flags i &&& graphChainPositionMask

/-- Whether the first edge of a chain node is the one to the next vertex. -/
def reversed (i : ℕ) : Bool := d.flags i &&& graphChainReverse ≠ 0

/-- The edge of compact fields. -/
def edgeOf (f : CompactFields) : Edge F64 where
  toID := d.id f.target
  distM := f.distance
  speedKph := d.speedAt f.attr
  maxHeightM := d.heightAt f.attr
  maxWeightT := d.weightAt f.attr
  hwyType := d.classes[d.attributeClass f.attr]?.getD ""

/-! ## The layout of a compact file -/

/-- The sections of a compact file lie one behind the other, inside the file. -/
structure Laid (attributes chains vertices : ℕ) : Prop where
  compact : d.compact = true
  nodeSize : d.nodeSize = 32
  edgeSize : d.edgeSize = 16
  cellSize : d.cellSize = 12
  edgesOffset : d.edgesOffset = graphHeaderSize + d.nodes * 32
  cellsOffset : d.cellsOffset = d.edgesOffset + d.storedEdges * 16
  attributesOffset : d.attributesOffset = d.cellsOffset + d.nodes * 12
  inside : d.attributesOffset + attributes * 32 ≤ d.data.length
  chainsOffset : d.chainsOffset ≠ 0 → d.chainsOffset = d.attributesOffset + attributes * 32
  verticesOffset : d.chainsOffset ≠ 0 → d.verticesOffset = d.chainsOffset + chains * 16
  chained_inside : d.chainsOffset ≠ 0 → d.verticesOffset + vertices * 12 ≤ d.data.length
  nodes_small : d.nodes < 2 ^ 32
  vertices_small : vertices < 2 ^ 32

variable {d} {attributes chains vertices : ℕ}

namespace Laid

variable (laid : d.Laid attributes chains vertices)
include laid

theorem nodes_inside : graphHeaderSize + d.nodes * 32 ≤ d.data.length := by
  have := laid.inside
  rw [laid.attributesOffset, laid.cellsOffset, laid.edgesOffset] at this
  omega

theorem edges_inside : d.edgesOffset + d.storedEdges * 16 ≤ d.data.length := by
  have := laid.inside
  rw [laid.attributesOffset, laid.cellsOffset] at this
  omega

theorem cells_inside : d.cellsOffset + d.nodes * 12 ≤ d.data.length := by
  have := laid.inside
  rw [laid.attributesOffset] at this
  omega

theorem chains_inside (chained : d.chainsOffset ≠ 0) :
    d.chainsOffset + chains * 16 ≤ d.data.length := by
  have := laid.chained_inside chained
  rw [laid.verticesOffset chained] at this
  omega

/-! ### Nodes -/

theorem nodeRecord {i : ℕ} (node : i < d.nodes) :
    d.nodeRecord i = .ok ((d.data.drop (graphHeaderSize + i * 32)).take 32) := by
  have := laid.nodes_inside
  rw [DiskGraph.nodeRecord, laid.nodeSize, slice_ok (by omega) (by omega)]
  congr 2
  omega

theorem node32 {i offset : ℕ} (node : i < d.nodes) (fits : offset + 4 ≤ 32) :
    uint32 ((d.data.drop (graphHeaderSize + i * 32)).take 32) offset =
      .ok (peek 4 d.data (graphHeaderSize + i * 32 + offset)) := by
  have := laid.nodes_inside
  exact uint32_slice fits (by omega)

theorem node64 {i offset : ℕ} (node : i < d.nodes) (fits : offset + 8 ≤ 32) :
    uint64 ((d.data.drop (graphHeaderSize + i * 32)).take 32) offset =
      .ok (peek 8 d.data (graphHeaderSize + i * 32 + offset)) := by
  have := laid.nodes_inside
  exact uint64_slice fits (by omega)

theorem nodeIDAt {i : ℕ} (node : i < d.nodes) : d.nodeIDAt i = .ok (d.id i) := by
  rw [DiskGraph.nodeIDAt, laid.nodeRecord node, ok_bind, laid.node64 node (by decide), ok_bind]
  rfl

theorem coordAt {i : ℕ} (node : i < d.nodes) : d.coordAt i = .ok (d.place i) := by
  rw [DiskGraph.coordAt, laid.nodeRecord node, ok_bind, laid.node64 node (by decide), ok_bind,
    laid.node64 node (by decide), ok_bind]
  rfl

/-! ### Chain records and vertices -/

/-- The bytes from the record of a chain on. -/
theorem chainRecord {c : ℕ} (chained : d.chainsOffset ≠ 0) (chain : c < chains) :
    slice d.data (d.chainsOffset + c * graphChainSize) d.data.length =
      .ok (d.data.drop (d.chainsOffset + c * 16)) := by
  have := laid.chains_inside chained
  exact slice_tail (by rw [graphChainSize]; omega)

theorem chain32 {c offset : ℕ} (chained : d.chainsOffset ≠ 0) (chain : c < chains)
    (fits : offset + 4 ≤ 16) : uint32 (d.data.drop (d.chainsOffset + c * 16)) offset =
      .ok (peek 4 d.data (d.chainsOffset + c * 16 + offset)) := by
  have := laid.chains_inside chained
  exact uint32_drop (by omega)

theorem vertex {v : ℕ} (chained : d.chainsOffset ≠ 0) (inside : v < vertices) :
    d.vertex v = .ok (d.data.drop (d.verticesOffset + v * 12)) := by
  have := laid.chained_inside chained
  exact slice_tail (by rw [graphChainVertexSize]; omega)

theorem vertex32 {v : ℕ} (chained : d.chainsOffset ≠ 0) (inside : v < vertices) :
    uint32 (d.data.drop (d.verticesOffset + v * 12)) 0 = .ok (d.vertexNode v) := by
  have := laid.chained_inside chained
  exact uint32_drop (by omega)

theorem vertex64 {v : ℕ} (chained : d.chainsOffset ≠ 0) (inside : v < vertices) :
    uint64 (d.data.drop (d.verticesOffset + v * 12)) 4 = .ok (d.vertexLength v) := by
  have := laid.chained_inside chained
  exact uint64_drop (by omega)

/-- The length of a vertex, read through the slice that begins with it. -/
theorem vertexDistance {v : ℕ} (chained : d.chainsOffset ≠ 0) (inside : v < vertices) :
    (do uint64 (← slice d.data (d.verticesOffset + v * graphChainVertexSize + 4) d.data.length) 0) =
      .ok (d.vertexLength v) := by
  have := laid.chained_inside chained
  rw [slice_tail (by rw [graphChainVertexSize]; omega), ok_bind,
    uint64_drop (by rw [graphChainVertexSize]; omega)]
  rfl

theorem chainNode {i : ℕ} (node : i < d.nodes) (known : d.isChain i → d.first i < chains) :
    d.chainNode i = .ok (if d.isChain i then
      some ⟨d.data.drop (d.chainsOffset + d.first i * 16), d.position i, d.reversed i⟩
      else none) := by
  rw [DiskGraph.chainNode]
  by_cases chained : d.chainsOffset = 0
  · have plain : ¬ d.isChain i := fun h => h.1 chained
    rw [if_pos chained, if_neg plain]
    rfl
  · rw [if_neg chained, laid.nodeRecord node, ok_bind, laid.node32 node (by decide), ok_bind]
    show (if d.flags i &&& graphChainFlag = 0 then _ else _) = _
    by_cases flag : d.flags i &&& graphChainFlag = 0
    · have plain : ¬ d.isChain i := fun h => h.2 flag
      rw [if_pos flag, if_neg plain]
      rfl
    · have chain : d.isChain i := ⟨chained, flag⟩
      rw [if_neg flag, if_pos chain, laid.node32 node (by decide), ok_bind]
      show (slice d.data (d.chainsOffset + d.first i * graphChainSize) d.data.length >>= _) = _
      rw [laid.chainRecord chained (known chain), ok_bind]
      rfl

theorem edgeRange {i : ℕ} (node : i < d.nodes) :
    d.edgeRange i = .ok (if d.isChain i then (0, 2) else (d.first i, d.flags i)) := by
  rw [DiskGraph.edgeRange, laid.nodeRecord node, ok_bind, if_pos laid.compact,
    laid.node32 node (by decide), ok_bind]
  show (if d.chainsOffset ≠ 0 ∧ d.flags i &&& graphChainFlag ≠ 0 then _ else _) = _
  by_cases chain : d.isChain i
  · rw [if_pos chain]
    exact if_pos chain
  · rw [if_neg chain]
    refine (if_neg chain).trans ?_
    rw [laid.node32 node (by decide), ok_bind]
    rfl

/-! ### Edges -/

theorem compactEdge {target attr length : ℕ} (node : target < d.nodes) (shared : attr < attributes)
    (known : d.attributeClass attr < d.classes.length) :
    d.compactEdge target attr length =
      .ok (d.edgeOf ⟨target, attr, float64frombits length⟩) := by
  have := laid.inside
  have class_ : d.classAt (d.attributeClass attr) =
      .ok (d.classes[d.attributeClass attr]?.getD "") := by
    rw [classAt, List.getElem?_eq_getElem known]
    rfl
  rw [DiskGraph.compactEdge, graphAttributeSize, slice_tail (by omega), ok_bind,
    laid.nodeIDAt node, ok_bind, uint64_drop (by omega), ok_bind, uint64_drop (by omega), ok_bind,
    uint64_drop (by omega), ok_bind, uint32_drop (by omega), ok_bind]
  show (d.classAt (d.attributeClass attr) >>= _) = _
  rw [class_, ok_bind]
  rfl

end Laid

end DiskGraph

end OsmMini.Core

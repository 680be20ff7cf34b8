import OsmMini.Core.Store.Fields

/-!
# An accepted file can be read safely

The accessors index into a file without checking again. On a compact file that
`openGraph` accepted they read inside it, and what they return is in range
(`openGraph_safe`).
-/

set_option autoImplicit false

namespace OsmMini.Core

open Foundations Foundations.LittleEndian

section Cells

variable {d : DiskGraph} {attributes chains vertices : ℕ} {bounds : CoordWindow F64}

namespace DiskGraph.Valid

variable (valid : d.Valid attributes chains vertices bounds)
include valid

/-- The bytes of the spatial index from a record on. -/
def cellsFrom (d : DiskGraph) (s : ℕ) : List UInt8 :=
  (d.data.drop (d.cellsOffset + s * 12)).take ((d.nodes - s) * 12)

theorem cellsFrom_inside {s : ℕ} (inside : s ≤ d.nodes) :
    d.cellsOffset + s * 12 + (d.nodes - s) * 12 ≤ d.data.length := by
  have := valid.laid.cells_inside
  omega

/-- An iterator that stands at a record of the spatial index either ends, or visits
the node of the record and goes on to the next one. -/
theorem nextCellNode {s : ℕ} {key : Int64} (inside : s ≤ d.nodes) :
    d.nextCellNode ⟨cellsFrom d s, key⟩ = .ok none ∨ s < d.nodes ∧
      d.nextCellNode ⟨cellsFrom d s, key⟩ =
        .ok (some (⟨cellsFrom d (s + 1), key⟩, d.cellNode s, d.id (d.cellNode s))) := by
  have window := valid.cellsFrom_inside inside
  have length : (cellsFrom d s).length = (d.nodes - s) * 12 := length_window window
  unfold DiskGraph.nextCellNode
  simp only [length, valid.laid.cellSize]
  by_cases done : (d.nodes - s) * 12 = 0 ∨ (d.nodes - s) * 12 < 12
  · rw [if_pos done]
    exact .inl rfl
  · have small : s < d.nodes := by omega
    have node := valid.cells.node s small
    have readKey : uint64 (cellsFrom d s) 0 = .ok (peek 8 d.data (d.cellsOffset + s * 12)) :=
      uint64_slice (by omega) window
    have readNode : uint32 (cellsFrom d s) 8 = .ok (d.cellNode s) :=
      uint32_slice (by omega) window
    have rest : slice (cellsFrom d s) 12 ((d.nodes - s) * 12) = .ok (cellsFrom d (s + 1)) := by
      rw [← length, slice_tail (by rw [length]; omega)]
      unfold cellsFrom
      rw [List.drop_take, List.drop_drop]
      congr 2
      · omega
      · congr 1
        omega
    rw [if_neg done, readKey, ok_bind]
    by_cases same : signed (peek 8 d.data (d.cellsOffset + s * 12)) = key
    · refine .inr ⟨small, ?_⟩
      rw [if_neg (not_not.mpr same), if_pos valid.laid.compact, readNode, ok_bind,
        valid.laid.nodeIDAt node, ok_bind]
      show (slice (cellsFrom d s) 12 ((d.nodes - s) * 12) >>= _) = _
      rw [rest]
      rfl
    · rw [if_pos same]
      exact .inl rfl

theorem visitCell {key : Int64} : ∀ {rounds s : ℕ}, s ≤ d.nodes →
    ∃ cells, d.visitCell rounds ⟨cellsFrom d s, key⟩ = .ok cells ∧ ∀ x ∈ cells, x.1 < d.nodes
  | 0, s, _ => ⟨[], rfl, fun x member => absurd member List.not_mem_nil⟩
  | rounds + 1, s, inside => by
      rw [DiskGraph.visitCell]
      rcases valid.nextCellNode inside with ended | ⟨small, next⟩
      · rw [ended]
        exact ⟨[], rfl, fun x member => absurd member List.not_mem_nil⟩
      · obtain ⟨cells, visited, known⟩ := visitCell small
        have node := valid.cells.node s small
        refine ⟨(d.cellNode s, d.id (d.cellNode s), d.place (d.cellNode s)) :: cells, ?_, ?_⟩
        · rw [next, ok_bind]
          simp only
          rw [DiskGraph.cellCoord, if_pos valid.laid.compact, valid.laid.coordAt node, ok_bind,
            visited]
          rfl
        · intro x member
          rcases List.mem_cons.mp member with rfl | later
          · exact node
          · exact known x later

theorem cellNodes (key : Int64) :
    ∃ cells, d.cellNodes key = .ok cells ∧ ∀ x ∈ cells, x.1 < d.nodes := by
  have inside := valid.laid.cells_inside
  have keys : ∀ i < d.nodes, ((fun n => decide (key ≤ signed n)) <$>
      uint64 d.data (d.cellsOffset + i * d.cellSize)) = .ok (decide (key ≤ d.cellKeyAt i)) := by
    intro i small
    rw [valid.laid.cellSize, uint64_ok (by omega)]
    rfl
  have start := search_le d.nodes fun i => decide (key ≤ d.cellKeyAt i)
  obtain ⟨cells, visited, known⟩ := valid.visitCell start
  refine ⟨cells, ?_, known⟩
  rw [DiskGraph.cellNodes, DiskGraph.cellNodesIter, searchM_eq keys, ok_bind, valid.laid.cellSize,
    slice_ok (by nlinarith) inside]
  have length : d.cellsOffset + d.nodes * 12 -
      (d.cellsOffset + search d.nodes (fun i => decide (key ≤ d.cellKeyAt i)) * 12) =
      (d.nodes - search d.nodes fun i => decide (key ≤ d.cellKeyAt i)) * 12 := by omega
  rw [length]
  exact visited

end DiskGraph.Valid

end Cells

/-- Every accessor of a graph file reads inside it, and what the accessors return is in
range and fits together. -/
structure DiskGraph.Safe (d : DiskGraph) (attributes chains edgeCount : ℕ) : Prop where
  coordAt : ∀ i < d.nodes, ∃ c, d.coordAt i = .ok c
  edges : ∀ i < d.nodes, ∃ it, d.edgesAt i = .ok it ∧ ∀ index < d.edgesLeft it,
    (∃ e, d.edge it index = .ok e) ∧ ∃ f, d.compactFields it index = .ok f ∧
      f.target < d.nodes ∧ f.attr < attributes ∧ d.attributeClass f.attr < d.classes.length
  chainContinuation : ∀ i < d.nodes, ∀ previous, ∃ next,
    d.chainContinuation i previous = .ok next ∧ ∀ f ∈ next, f.target < d.nodes ∧
      f.attr < attributes ∧ d.attributeClass f.attr < d.classes.length
  cells : ∀ key, ∃ cells, d.cellNodes key = .ok cells ∧ ∀ x ∈ cells, x.1 < d.nodes
  /-- A chain node is inside exactly one chain, at exactly one position. -/
  interior : ∀ i < d.nodes, d.isChain i → ∃! place : ℕ × ℕ, place.1 < chains ∧ 0 < place.2 ∧
    place.2 < d.chainCount place.1 - 1 ∧ d.chainVertex place.1 place.2 = i
  /-- The degrees that `edgeRange` reads sum to the edge count. -/
  degrees : ∃ degree : ℕ → ℕ, (∀ i < d.nodes, ∃ start, d.edgeRange i = .ok (start, degree i)) ∧
    ∑ i ∈ Finset.range d.nodes, degree i = edgeCount
  /-- An edge out of or into a chain node has its reverse. -/
  reverse : ∀ u < d.nodes, ∃ out, d.fieldList u = .ok out ∧ ∀ f ∈ out,
    d.isChain u ∨ d.isChain f.target → ∃ back, d.fieldList f.target = .ok back ∧
      ∃ b ∈ back, b.target = u ∧ b.distance = f.distance ∧ b.attr = f.attr

namespace DiskGraph.Valid

variable {d : DiskGraph} {attributes chains vertices : ℕ} {bounds : CoordWindow F64}
  (valid : d.Valid attributes chains vertices bounds)
include valid

/-- The chain nodes count twice and the ordinary nodes by their records. -/
theorem sum_outDegree : ∑ i ∈ Finset.range d.nodes, d.outDegree i = d.edgeCount := by
  have split : ∀ n, ∑ i ∈ Finset.range n, d.outDegree i =
      d.edgesBefore n + 2 * d.chainNodesBefore n := by
    intro n
    rw [DiskGraph.edgesBefore, DiskGraph.chainNodesBefore, Finset.mul_sum,
      ← Finset.sum_add_distrib]
    refine Finset.sum_congr rfl fun i _ => ?_
    by_cases chain : d.isChain i <;> simp [DiskGraph.outDegree, chain]
  rw [split, valid.nodes.stored, valid.nodes.total]

/-- **A valid file is read safely.** -/
theorem safe : d.Safe attributes chains d.edgeCount where
  coordAt i node := ⟨_, valid.laid.coordAt node⟩
  edges i node := by
    obtain ⟨it, iterator, left⟩ := valid.edgesLeft node
    refine ⟨it, iterator, fun index small => ?_⟩
    rw [left] at small
    obtain ⟨targetIn, attrIn⟩ := valid.fieldsAt_inside node small
    have edge := valid.edge node small
    have fields := valid.fields node small
    rw [iterator, ok_bind] at edge fields
    exact ⟨⟨_, edge⟩, _, fields, targetIn, attrIn, valid.classes _ attrIn⟩
  chainContinuation i node previous := by
    refine ⟨_, valid.chainContinuation node previous, fun f member => ?_⟩
    have edge : f ∈ d.fieldsOf i := by
      split at member
      · rename_i chain
        split at member
        · exact (mem_fieldsOf_chain chain).mpr ⟨true, (Option.mem_some_iff.mp member).symm⟩
        · split at member
          · exact (mem_fieldsOf_chain chain).mpr ⟨false, (Option.mem_some_iff.mp member).symm⟩
          · cases member
      · cases member
    obtain ⟨targetIn, attrIn⟩ := valid.mem_fieldsOf node edge
    exact ⟨targetIn, attrIn, valid.classes _ attrIn⟩
  cells key := valid.cellNodes key
  interior i node chain := by
    obtain ⟨known, low, high, here⟩ := valid.chain_node node chain
    refine ⟨(d.first i, d.position i), ⟨known, low, high, here⟩, ?_⟩
    rintro ⟨c, p⟩ ⟨known', low', high', here'⟩
    obtain ⟨-, position, first⟩ :=
      ((valid.chained chain.1).1.chain c known').interior p low' high'
    simp only at here'
    rw [here'] at position first
    rw [position, first]
  degrees := by
    refine ⟨d.outDegree, fun i node => ?_, valid.sum_outDegree⟩
    rw [valid.laid.edgeRange node]
    by_cases chain : d.isChain i
    · exact ⟨0, by rw [if_pos chain, DiskGraph.outDegree, if_pos chain]⟩
    · exact ⟨d.first i, by rw [if_neg chain, DiskGraph.outDegree, if_neg chain]⟩
  reverse u node := by
    refine ⟨_, valid.fieldList node, fun f edge chain => ?_⟩
    exact ⟨_, valid.fieldList (valid.mem_fieldsOf node edge).1, valid.reverse node edge chain⟩

end DiskGraph.Valid

theorem compact_of_openGraph {unmarshal : List UInt8 → Except String GraphMetadata}
    {data : List UInt8} {r : OpenedRouter} (accepted : openGraph unmarshal data = .ok r) :
    r.store.compact = (headerOf data).compact := by
  unfold openGraph at accepted
  obtain ⟨h, header, run⟩ := bind_ok_iff.mp accepted
  obtain ⟨-, -, -, rfl⟩ := readHeader_ok_iff.mp header
  obtain ⟨_, -, run⟩ := bind_ok_iff.mp run
  obtain ⟨_, -, run⟩ := bind_ok_iff.mp run
  obtain ⟨_, -, run⟩ := bind_ok_iff.mp run
  obtain ⟨_, -, run⟩ := bind_ok_iff.mp run
  obtain ⟨_, -, run⟩ := bind_ok_iff.mp run
  obtain ⟨_, -, run⟩ := bind_ok_iff.mp run
  obtain ⟨_, -, run⟩ := bind_ok_iff.mp run
  obtain ⟨_, -, run⟩ := bind_ok_iff.mp run
  obtain ⟨_, -, run⟩ := bind_ok_iff.mp run
  cases run
  rfl

/-- **A compact file that is accepted is read safely**: every accessor reads inside it,
targets, attributes and classes are in range, every chain node is inside exactly one
chain position, the degrees sum to the edge count of the header, and the edges of
chain nodes have their reverse. -/
theorem openGraph_safe (unmarshal : List UInt8 → Except String GraphMetadata)
    (data : List UInt8) (r : OpenedRouter) (accepted : openGraph unmarshal data = .ok r)
    (compact : r.store.compact = true) :
    r.store.data = data ∧ r.store.nodes = peek 8 data 8 ∧
      r.store.Safe (peek 8 data 64) (if data.take 8 = graphChainMagic then peek 8 data 80 else 0)
        (peek 8 data 16) := by
  rw [compact_of_openGraph accepted] at compact
  obtain ⟨metadata, -, checks, rfl⟩ := (openGraph_ok_iff compact).mp accepted
  refine ⟨rfl, rfl, ?_⟩
  have safe := checks.valid.safe
  have attributes : (headerOf data).attributes = peek 8 data 64 := if_pos compact
  have chains : (headerOf data).chains =
      if data.take 8 = graphChainMagic then peek 8 data 80 else 0 := by
    simp [headerOf]
  rw [attributes, chains] at safe
  exact safe

/-- A file of five nodes on a road of four segments. The three nodes in the middle are
packed into a chain. -/
def chainFile : List UInt8 :=
  let one := 0x3FF0000000000000
  let node (id first flags : ℕ) :=
    bytesOf 8 id ++ bytesOf 8 one ++ bytesOf 8 one ++ bytesOf 4 first ++ bytesOf 4 flags
  let edge (target : ℕ) := bytesOf 4 target ++ bytesOf 4 0 ++ bytesOf 8 one
  let vertex (node length : ℕ) := bytesOf 4 node ++ bytesOf 8 length
  graphChainMagic ++ [5, 8, 2].flatMap (bytesOf 8) ++ [one, one, one, one].flatMap (bytesOf 8) ++
    [1, 2, 1, 5].flatMap (bytesOf 8) ++
    node 1 0 1 ++ node 2 0 (2 ^ 31 + 1) ++ node 3 0 (2 ^ 31 + 2) ++ node 4 0 (2 ^ 31 + 3) ++
    node 5 1 1 ++ edge 1 ++ edge 3 ++
    [0, 1, 2, 3, 4].flatMap (fun n => bytesOf 8 0 ++ bytesOf 4 n) ++
    [one, 0, 0, 0].flatMap (bytesOf 8) ++ [0, 5, 0, 0].flatMap (bytesOf 4) ++
    vertex 0 one ++ vertex 1 one ++ vertex 2 one ++ vertex 3 one ++ vertex 4 0 ++ [123, 125]

/-- The metadata of the file: one class. -/
def chainMetadata (bytes : List UInt8) : Except String GraphMetadata :=
  if bytes = [123, 125] then .ok { classes := ["residential"], streets := [] }
  else .error "unexpected end of JSON input"

theorem chainFile_accepted : (match openGraph chainMetadata chainFile with
    | .ok r => r.store.compact
    | .error _ => false) = true := by
  decide +kernel

/-- The file is accepted and read safely. -/
theorem openGraph_safe_chainFile : ∃ r, openGraph chainMetadata chainFile = .ok r ∧
    r.store.Safe 1 1 8 := by
  have accepted := chainFile_accepted
  cases run : openGraph chainMetadata chainFile with
  | error fault =>
      rw [run] at accepted
      cases accepted
  | ok r =>
      rw [run] at accepted
      have safe := (openGraph_safe chainMetadata chainFile r run accepted).2.2
      have attributes : peek 8 chainFile 64 = 1 := by decide +kernel
      have chains : (if chainFile.take 8 = graphChainMagic then peek 8 chainFile 80 else 0) = 1 := by
        decide +kernel
      have edgeCount : peek 8 chainFile 16 = 8 := by decide +kernel
      rw [attributes, chains, edgeCount] at safe
      exact ⟨r, rfl, safe⟩

end OsmMini.Core

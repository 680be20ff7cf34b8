import OsmMini.Core.Store.Fields

/-!
# A graph file as a graph

Nodes are looked up by a binary search in the node table, which is sorted by ID. The
methods of a file-backed graph read the coordinate, the edges and the degree of an ID
through it (`toGraph`).
-/

set_option autoImplicit false

namespace OsmMini.Core

open Foundations Foundations.LittleEndian

/-- What routing reads of a graph file. `num` gives the number that a stored float
stands for; a read outside the file gives nothing. -/
def DiskGraph.toGraph {K : Type*} (d : DiskGraph) (num : F64 → K) : Graph K where
  coord id := match d.coord id with
    | .ok c => c.map (Coord.map num)
    | .error _ => none
  edges id := match d.edges id with
    | .ok es => es.map (Edge.map num)
    | .error _ => []
  degree id := match d.degree id with
    | .ok n => n
    | .error _ => 0

namespace DiskGraph.Valid

variable {d : DiskGraph} {attributes chains vertices : ℕ} {bounds : CoordWindow F64}
  (valid : d.Valid attributes chains vertices bounds)
include valid

/-! ## The sorted node table -/

theorem id_lt {i j : ℕ} (before : i < j) (inside : j < d.nodes) : d.id i < d.id j := by
  induction j with
  | zero => exact absurd before (Nat.not_lt_zero i)
  | succ j ih =>
      have step := valid.nodes.ids j inside
      rcases Nat.lt_succ_iff_lt_or_eq.mp before with less | rfl
      · exact (ih less (by omega)).trans step
      · exact step

theorem id_le {i j : ℕ} (le : i ≤ j) (inside : j < d.nodes) : d.id i ≤ d.id j := by
  rcases le.lt_or_eq with less | rfl
  · exact (valid.id_lt less inside).le
  · exact le_refl _

theorem id_inj {i j : ℕ} (first : i < d.nodes) (second : j < d.nodes)
    (same : d.id i = d.id j) : i = j := by
  rcases lt_trichotomy i j with less | eq | more
  · exact absurd same (valid.id_lt less second).ne
  · exact eq
  · exact absurd same (valid.id_lt more first).ne'

theorem idAt {i : ℕ} (node : i < d.nodes) :
    (signed <$> uint64 d.data (graphHeaderSize + i * d.nodeSize)) = .ok (d.id i) := by
  have inside := valid.laid.nodes_inside
  rw [valid.laid.nodeSize, uint64_ok (by omega)]
  rfl

/-- The binary search looks at the IDs of the table only. -/
theorem nodeIndex_eq (id : Int64) : d.nodeIndex id =
    .ok (if search d.nodes (fun i => decide (id ≤ d.id i)) < d.nodes ∧
        d.id (search d.nodes fun i => decide (id ≤ d.id i)) = id
      then some (search d.nodes fun i => decide (id ≤ d.id i)) else none) := by
  have reads : ∀ i < d.nodes, ((fun x => decide (id ≤ x)) <$>
      (signed <$> uint64 d.data (graphHeaderSize + i * d.nodeSize))) =
        .ok (decide (id ≤ d.id i)) := by
    intro i node
    rw [valid.idAt node]
    rfl
  have last := search_le d.nodes fun i => decide (id ≤ d.id i)
  unfold DiskGraph.nodeIndex
  simp only
  rw [searchM_eq reads, ok_bind]
  by_cases past : search d.nodes (fun i => decide (id ≤ d.id i)) = d.nodes
  · rw [if_pos past, if_neg (by omega)]
    rfl
  · have node : search d.nodes (fun i => decide (id ≤ d.id i)) < d.nodes := by omega
    rw [if_neg past, valid.idAt node, ok_bind]
    by_cases same : d.id (search d.nodes fun i => decide (id ≤ d.id i)) = id
    · rw [if_neg (not_not.mpr same), if_pos ⟨node, same⟩]
      rfl
    · rw [if_pos same, if_neg fun found => same found.2]
      rfl

/-- **The ID of a node is found at the node.** -/
theorem nodeIndex_id {i : ℕ} (node : i < d.nodes) : d.nodeIndex (d.id i) = .ok (some i) := by
  have found : search d.nodes (fun j => decide (d.id i ≤ d.id j)) = i := by
    refine search_eq (fun j k le inside yes => ?_) node.le (fun j less => ?_) fun _ => ?_
    · exact decide_eq_true ((of_decide_eq_true yes).trans (valid.id_le le inside))
    · exact decide_eq_false (not_le.mpr (valid.id_lt less node))
    · exact decide_eq_true (le_refl _)
  rw [valid.nodeIndex_eq, found, if_pos ⟨node, rfl⟩]

/-- **An ID of no node is not found.** -/
theorem nodeIndex_absent {id : Int64} (absent : ∀ i < d.nodes, d.id i ≠ id) :
    d.nodeIndex id = .ok none := by
  rw [valid.nodeIndex_eq, if_neg fun found => absent _ found.1 found.2]

omit valid in
/-- An ID is that of a node, or of none. -/
theorem id_cases (id : Int64) : (∃ i < d.nodes, d.id i = id) ∨ ∀ i < d.nodes, d.id i ≠ id := by
  by_cases present : ∃ i < d.nodes, d.id i = id
  · exact .inl present
  · exact .inr fun i node same => present ⟨i, node, same⟩

/-! ## What routing by ID reads -/

section Graph

variable {K : Type*} (num : F64 → K)

theorem coord_id {i : ℕ} (node : i < d.nodes) :
    (d.toGraph num).coord (d.id i) = some ((d.place i).map num) := by
  have read : d.coord (d.id i) = .ok (some (d.place i)) := by
    rw [DiskGraph.coord, valid.nodeIndex_id node, ok_bind]
    simp only
    rw [valid.laid.coordAt node]
    rfl
  simp only [DiskGraph.toGraph, read, Option.map_some]

theorem coord_absent {id : Int64} (absent : ∀ i < d.nodes, d.id i ≠ id) :
    (d.toGraph num).coord id = none := by
  have read : d.coord id = .ok none := by
    rw [DiskGraph.coord, valid.nodeIndex_absent absent, ok_bind]
    rfl
  simp only [DiskGraph.toGraph, read, Option.map_none]

theorem edges_id {i : ℕ} (node : i < d.nodes) :
    (d.toGraph num).edges (d.id i) = (d.fieldsOf i).map fun f => (d.edgeOf f).map num := by
  have read : d.edges (d.id i) = .ok ((d.fieldsOf i).map d.edgeOf) := by
    rw [DiskGraph.edges, valid.nodeIndex_id node, ok_bind]
    exact valid.edgeList node
  simp only [DiskGraph.toGraph, read, List.map_map]
  rfl

theorem edges_absent {id : Int64} (absent : ∀ i < d.nodes, d.id i ≠ id) :
    (d.toGraph num).edges id = [] := by
  have read : d.edges id = .ok [] := by
    rw [DiskGraph.edges, valid.nodeIndex_absent absent, ok_bind]
    rfl
  simp only [DiskGraph.toGraph, read, List.map_nil]

/-- The number of edges that `edgeRange` reads. -/
theorem edgeCount_eq {i : ℕ} (node : i < d.nodes) :
    (Prod.snd <$> d.edgeRange i) = .ok (d.outDegree i) := by
  rw [valid.laid.edgeRange node]
  by_cases chain : d.isChain i
  · rw [if_pos chain, DiskGraph.outDegree, if_pos chain]
    rfl
  · rw [if_neg chain, DiskGraph.outDegree, if_neg chain]
    rfl

theorem degree_id {i : ℕ} (node : i < d.nodes) :
    (d.toGraph num).degree (d.id i) = d.outDegree i := by
  have read : d.degree (d.id i) = .ok (d.outDegree i) := by
    rw [DiskGraph.degree, valid.nodeIndex_id node, ok_bind]
    exact valid.edgeCount_eq node
  simp only [DiskGraph.toGraph, read]

/-- The edges of a graph file join its nodes. -/
theorem edges_inside {u : Int64} {e : Edge K} (edge : e ∈ (d.toGraph num).edges u) :
    ∃ i < d.nodes, d.id i = u ∧ ∃ f ∈ d.fieldsOf i, f.target < d.nodes ∧
      e = (d.edgeOf f).map num := by
  rcases @id_cases d u with ⟨i, node, rfl⟩ | absent
  · rw [valid.edges_id num node] at edge
    obtain ⟨f, field, rfl⟩ := List.mem_map.mp edge
    exact ⟨i, node, rfl, f, field, (valid.mem_fieldsOf node field).1, rfl⟩
  · rw [valid.edges_absent num absent] at edge
    exact absurd edge List.not_mem_nil

end Graph

end DiskGraph.Valid

end OsmMini.Core

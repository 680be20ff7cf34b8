import OsmMini.Core.Store.Accepted

/-!
# The edges of a valid file

In a valid file the edges of a node are known: the explicit records of an ordinary
node, and for a node inside a chain the edges to the vertices before and after it. The
accessors return just these, and every edge of a chain has its reverse.
-/

set_option autoImplicit false

namespace OsmMini.Core

open Foundations Foundations.LittleEndian

namespace DiskGraph

variable (d : DiskGraph)

/-- The fields of an explicit edge. -/
def explicitFields (k : ℕ) : CompactFields :=
  ⟨d.target k, d.edgeAttr k, float64frombits (d.edgeLength k)⟩

/-- The fields of the edge along a chain from a position to the one before or after. -/
def chainFields (c p : ℕ) (next : Bool) : CompactFields :=
  if next then ⟨d.chainVertex c (p + 1), d.chainAttr c, float64frombits (d.chainLength c p)⟩
  else ⟨d.chainVertex c (p - 1), d.chainAttr c, float64frombits (d.chainLength c (p - 1))⟩

/-- The number of edges out of a node. -/
def outDegree (i : ℕ) : ℕ := if d.isChain i then 2 else d.flags i

/-- The fields of an edge out of a node. -/
def fieldsAt (i index : ℕ) : CompactFields :=
  if d.isChain i then
    d.chainFields (d.first i) (d.position i) (decide (index = 1) != d.reversed i)
  else d.explicitFields (d.first i + index)

/-- The fields of all edges out of a node. -/
def fieldsOf (i : ℕ) : List CompactFields :=
  (List.range (d.outDegree i)).map (d.fieldsAt i)

/-- The positions inside the chains. -/
def interiorPositions (chains : ℕ) : Finset (Σ _ : ℕ, ℕ) :=
  (Finset.range chains).sigma fun c => Finset.Ioo 0 (d.chainCount c - 1)

end DiskGraph

section Valid

variable {d : DiskGraph} {attributes chains vertices : ℕ} {bounds : CoordWindow F64}

namespace DiskGraph.Valid

variable (valid : d.Valid attributes chains vertices bounds)
include valid

/-! ## Chain nodes -/

/-- **A chain node stands inside the chain and at the position that its record names.**
The positions inside the chains are as many as the chain nodes, and the node at a
position names that position. -/
theorem chain_node {i : ℕ} (node : i < d.nodes) (chain : d.isChain i) :
    d.first i < chains ∧ 0 < d.position i ∧ d.position i < d.chainCount (d.first i) - 1 ∧
      d.chainVertex (d.first i) (d.position i) = i := by
  obtain ⟨chainsOk, -⟩ := valid.chained chain.1
  let nodeAt : (Σ _ : ℕ, ℕ) → ℕ := fun x => d.chainVertex x.1 x.2
  let chainNodes := (Finset.range d.nodes).filter fun i => d.isChain i
  have inside : ∀ x ∈ d.interiorPositions chains,
      x.1 < chains ∧ 0 < x.2 ∧ x.2 < d.chainCount x.1 - 1 := by
    intro x member
    simpa [DiskGraph.interiorPositions] using member
  have back : ∀ x ∈ d.interiorPositions chains, d.isChain (nodeAt x) ∧
      d.position (nodeAt x) = x.2 ∧ d.first (nodeAt x) = x.1 := by
    intro x member
    obtain ⟨c, low, high⟩ := inside x member
    exact (chainsOk.chain x.1 c).interior x.2 low high
  have into : ∀ x ∈ d.interiorPositions chains, nodeAt x ∈ chainNodes := by
    intro x member
    obtain ⟨c, low, high⟩ := inside x member
    have known := (chainsOk.chain x.1 c).node x.2 (by omega)
    exact Finset.mem_filter.mpr ⟨Finset.mem_range.mpr known, (back x member).1⟩
  have injective : ∀ x ∈ d.interiorPositions chains, ∀ y ∈ d.interiorPositions chains,
      nodeAt x = nodeAt y → x = y := by
    intro x left y right same
    obtain ⟨-, px, cx⟩ := back x left
    obtain ⟨-, py, cy⟩ := back y right
    refine Sigma.ext ?_ (heq_of_eq ?_)
    · rw [← cx, ← cy, same]
    · rw [← px, ← py, same]
  have many : chainNodes.card ≤ (d.interiorPositions chains).card := by
    have positions : (d.interiorPositions chains).card = d.interiorBefore chains := by
      rw [DiskGraph.interiorPositions, Finset.card_sigma, DiskGraph.interiorBefore]
      refine Finset.sum_congr rfl fun c _ => ?_
      rw [Nat.card_Ioo]
      omega
    rw [positions, chainsOk.interior, Finset.card_filter]
    exact le_refl _
  have onto := Finset.surj_on_of_inj_on_of_card_le (fun x _ => nodeAt x) into
    (fun x y left right same => injective x left y right same) many i
    (Finset.mem_filter.mpr ⟨Finset.mem_range.mpr node, chain⟩)
  obtain ⟨x, member, rfl⟩ := onto
  obtain ⟨-, p, c⟩ := back x member
  obtain ⟨small, low, high⟩ := inside x member
  show d.first (nodeAt x) < chains ∧ _
  rw [p, c]
  exact ⟨small, low, high, rfl⟩

theorem validChain {i : ℕ} (node : i < d.nodes) (chain : d.isChain i) :
    d.ValidChain vertices attributes (d.first i) :=
  (valid.chained chain.1).1.chain _ (valid.chain_node node chain).1

/-- The explicit edges of an ordinary node are among the explicit edges. -/
theorem range_inside {i : ℕ} (node : i < d.nodes) (plain : ¬ d.isChain i) :
    d.first i + d.flags i ≤ d.storedEdges := by
  rw [valid.nodes.first i node plain, ← edgesBefore_of_plain plain, ← valid.nodes.stored]
  exact edgesBefore_mono node

/-! ## What the accessors return -/

/-- The bytes of the explicit edges of a node. -/
theorem explicitEdges {i : ℕ} (node : i < d.nodes) (plain : ¬ d.isChain i) :
    d.edgesAt i = .ok (.explicit ((d.data.drop (d.edgesOffset + d.first i * 16)).take
      (d.flags i * 16))) := by
  have room := valid.range_inside node plain
  have inside := valid.laid.edges_inside
  unfold DiskGraph.edgesAt
  rw [valid.laid.chainNode node (valid.nodes.chainIndex i node), if_neg plain, ok_bind]
  simp only [valid.laid.edgeRange node, if_neg plain, ok_bind]
  rw [valid.laid.edgeSize, slice_ok (by omega) (by omega), ok_bind]
  congr 3
  omega

theorem chainEdges {i : ℕ} (node : i < d.nodes) (chain : d.isChain i) :
    d.edgesAt i = .ok (.chained ⟨d.data.drop (d.chainsOffset + d.first i * 16), d.position i,
      d.reversed i⟩) := by
  unfold DiskGraph.edgesAt
  rw [valid.laid.chainNode node (valid.nodes.chainIndex i node), if_pos chain]
  rfl

/-- The target and the segment of the edge along a chain stand inside the vertices of
the chain, so that no 32-bit sum wraps. -/
theorem chainStep {i : ℕ} (node : i < d.nodes) (chain : d.isChain i) (next : Bool) :
    add32 (d.chainStart (d.first i))
        (if next then add32 (d.position i) 1 else sub32 (d.position i) 1) =
      d.chainStart (d.first i) + (if next then d.position i + 1 else d.position i - 1) ∧
    add32 (d.chainStart (d.first i)) (if next then d.position i else sub32 (d.position i) 1) =
      d.chainStart (d.first i) + (if next then d.position i else d.position i - 1) ∧
    d.chainStart (d.first i) + (if next then d.position i + 1 else d.position i - 1) < vertices ∧
    d.chainStart (d.first i) + (if next then d.position i else d.position i - 1) < vertices := by
  obtain ⟨-, low, high, -⟩ := valid.chain_node node chain
  have room := (valid.validChain node chain).inside
  have small := valid.laid.vertices_small
  cases next <;> simp only [add32, sub32, if_true, if_false, Bool.false_eq_true] <;> omega

/-- The fields that `compactFields` reads of an edge out of a node. -/
theorem fields {i index : ℕ} (node : i < d.nodes) (edge : index < d.outDegree i) :
    (d.edgesAt i >>= fun it => d.compactFields it index) = .ok (d.fieldsAt i index) := by
  by_cases chain : d.isChain i
  · obtain ⟨known, -, -, -⟩ := valid.chain_node node chain
    rw [valid.chainEdges node chain, ok_bind, DiskGraph.fieldsAt, if_pos chain]
    simp only [DiskGraph.compactFields]
    generalize side : (decide (index = 1) != d.reversed i) = next
    obtain ⟨target, segment, targetIn, segmentIn⟩ := valid.chainStep node chain next
    have room := valid.laid.chained_inside chain.1
    have readStart : uint32 (d.data.drop (d.chainsOffset + d.first i * 16)) 0 =
        .ok (d.chainStart (d.first i)) := valid.laid.chain32 chain.1 known (by decide)
    have readAttr : uint32 (d.data.drop (d.chainsOffset + d.first i * 16)) 8 =
        .ok (d.chainAttr (d.first i)) := valid.laid.chain32 chain.1 known (by decide)
    simp only [readStart, ok_bind]
    rw [target, segment, valid.laid.vertex chain.1 targetIn, ok_bind,
      valid.laid.vertex32 chain.1 targetIn, ok_bind, readAttr, ok_bind,
      slice_tail (by rw [graphChainVertexSize]; omega), ok_bind,
      uint64_drop (by rw [graphChainVertexSize]; omega), ok_bind]
    cases next <;> rfl
  · have room := valid.range_inside node chain
    have inside := valid.laid.edges_inside
    have small : index < d.flags i := by simpa [DiskGraph.outDegree, chain] using edge
    have start : d.edgesOffset + d.first i * 16 + index * 16 =
        d.edgesOffset + (d.first i + index) * 16 := by ring
    have window : d.edgesOffset + d.first i * 16 + d.flags i * 16 ≤ d.data.length := by omega
    rw [valid.explicitEdges node chain, ok_bind, DiskGraph.fieldsAt, if_neg chain]
    simp only [DiskGraph.compactFields]
    rw [valid.laid.edgeSize, slice_tail (by rw [length_window window]; omega), ok_bind,
      uint32_window (by omega) window, ok_bind, uint32_window (by omega) window, ok_bind,
      uint64_window (by omega) window, ok_bind, start]
    rfl

/-- The classes and targets of the edges of a valid file are known. -/
theorem fieldsAt_inside {i index : ℕ} (node : i < d.nodes) (edge : index < d.outDegree i) :
    (d.fieldsAt i index).target < d.nodes ∧ (d.fieldsAt i index).attr < attributes := by
  by_cases chain : d.isChain i
  · obtain ⟨-, low, high, -⟩ := valid.chain_node node chain
    have shape := valid.validChain node chain
    rw [DiskGraph.fieldsAt, if_pos chain]
    cases decide (index = 1) != d.reversed i with
    | true => exact ⟨shape.node _ (by omega), shape.attr⟩
    | false => exact ⟨shape.node _ (by omega), shape.attr⟩
  · have small : index < d.flags i := by simpa [DiskGraph.outDegree, chain] using edge
    have room := valid.range_inside node chain
    rw [DiskGraph.fieldsAt, if_neg chain]
    exact valid.edges _ (by omega)

/-- The edge that `edge` reads is the one of the fields that `compactFields` reads. -/
theorem edge {i index : ℕ} (node : i < d.nodes) (edge : index < d.outDegree i) :
    (d.edgesAt i >>= fun it => d.edge it index) = .ok (d.edgeOf (d.fieldsAt i index)) := by
  obtain ⟨targetIn, attrIn⟩ := valid.fieldsAt_inside node edge
  have expand : ∀ target attr length, target < d.nodes → attr < attributes →
      d.compactEdge target attr length = .ok (d.edgeOf ⟨target, attr, float64frombits length⟩) :=
    fun target attr length known shared =>
      valid.laid.compactEdge known shared (valid.classes attr shared)
  by_cases chain : d.isChain i
  · obtain ⟨known, -, -, -⟩ := valid.chain_node node chain
    rw [DiskGraph.fieldsAt, if_pos chain] at targetIn attrIn ⊢
    rw [valid.chainEdges node chain, ok_bind]
    simp only [DiskGraph.edge]
    generalize side : (decide (index = 1) != d.reversed i) = next at targetIn attrIn ⊢
    obtain ⟨target, segment, targetVertex, segmentVertex⟩ := valid.chainStep node chain next
    have room := valid.laid.chained_inside chain.1
    have readStart : uint32 (d.data.drop (d.chainsOffset + d.first i * 16)) 0 =
        .ok (d.chainStart (d.first i)) := valid.laid.chain32 chain.1 known (by decide)
    have readAttr : uint32 (d.data.drop (d.chainsOffset + d.first i * 16)) 8 =
        .ok (d.chainAttr (d.first i)) := valid.laid.chain32 chain.1 known (by decide)
    rw [DiskGraph.chainEdge, readStart, ok_bind]
    simp only
    rw [target, segment, valid.laid.vertex chain.1 targetVertex, ok_bind,
      slice_tail (by rw [graphChainVertexSize]; omega), ok_bind,
      valid.laid.vertex32 chain.1 targetVertex, ok_bind, readAttr, ok_bind,
      uint64_drop (by rw [graphChainVertexSize]; omega), ok_bind]
    cases next with
    | true => exact expand _ _ _ targetIn attrIn
    | false => exact expand _ _ _ targetIn attrIn
  · have room := valid.range_inside node chain
    have inside := valid.laid.edges_inside
    have small : index < d.flags i := by simpa [DiskGraph.outDegree, chain] using edge
    have start : d.edgesOffset + d.first i * 16 + index * 16 =
        d.edgesOffset + (d.first i + index) * 16 := by ring
    have window : d.edgesOffset + d.first i * 16 + d.flags i * 16 ≤ d.data.length := by omega
    rw [DiskGraph.fieldsAt, if_neg chain] at targetIn attrIn ⊢
    rw [valid.explicitEdges node chain, ok_bind]
    simp only [DiskGraph.edge]
    rw [valid.laid.edgeSize, slice_tail (by rw [length_window window]; omega), ok_bind,
      if_pos valid.laid.compact, uint32_window (by omega) window, ok_bind,
      uint32_window (by omega) window, ok_bind, uint64_window (by omega) window, ok_bind, start]
    exact expand _ _ _ targetIn attrIn

/-- An iterator ends behind the edges of its node. -/
theorem edgesLeft {i : ℕ} (node : i < d.nodes) :
    ∃ it, d.edgesAt i = .ok it ∧ d.edgesLeft it = d.outDegree i := by
  by_cases chain : d.isChain i
  · exact ⟨_, valid.chainEdges node chain, by rw [DiskGraph.outDegree, if_pos chain]; rfl⟩
  · have room := valid.range_inside node chain
    have inside := valid.laid.edges_inside
    refine ⟨_, valid.explicitEdges node chain, ?_⟩
    rw [DiskGraph.outDegree, if_neg chain, DiskGraph.edgesLeft, length_window (by omega),
      valid.laid.edgeSize, Nat.mul_div_cancel _ (by decide)]

/-- **The fields of all edges out of a node.** -/
theorem fieldList {i : ℕ} (node : i < d.nodes) : d.fieldList i = .ok (d.fieldsOf i) := by
  obtain ⟨it, iterator, left⟩ := valid.edgesLeft node
  rw [DiskGraph.fieldList, iterator, ok_bind, left, mapM_ok_iff, DiskGraph.fieldsOf,
    List.forall₂_map_right_iff, List.forall₂_same]
  intro index small
  have read := valid.fields node (List.mem_range.mp small)
  rwa [iterator, ok_bind] at read

/-- **All edges out of a node.** -/
theorem edgeList {i : ℕ} (node : i < d.nodes) :
    d.edgeList i = .ok ((d.fieldsOf i).map d.edgeOf) := by
  obtain ⟨it, iterator, left⟩ := valid.edgesLeft node
  rw [DiskGraph.edgeList, iterator, ok_bind, left, mapM_ok_iff, DiskGraph.fieldsOf, List.map_map,
    List.forall₂_map_right_iff, List.forall₂_same]
  intro index small
  have read := valid.edge node (List.mem_range.mp small)
  rwa [iterator, ok_bind] at read

theorem mem_fieldsOf {i : ℕ} (node : i < d.nodes) {f : CompactFields} (edge : f ∈ d.fieldsOf i) :
    f.target < d.nodes ∧ f.attr < attributes := by
  obtain ⟨index, small, rfl⟩ := List.mem_map.mp edge
  exact valid.fieldsAt_inside node (List.mem_range.mp small)

/-! ## Reverse edges -/

omit valid in
/-- The two edges of a chain node lead to the vertices before and after it. -/
theorem mem_fieldsOf_chain {i : ℕ} (chain : d.isChain i) {f : CompactFields} :
    f ∈ d.fieldsOf i ↔ ∃ next, f = d.chainFields (d.first i) (d.position i) next := by
  have two : d.fieldsOf i = [d.chainFields (d.first i) (d.position i) (false != d.reversed i),
      d.chainFields (d.first i) (d.position i) (true != d.reversed i)] := by
    rw [DiskGraph.fieldsOf, DiskGraph.outDegree, if_pos chain]
    simp [List.range_succ, DiskGraph.fieldsAt, chain]
  rw [two, List.mem_cons, List.mem_singleton]
  cases d.reversed i with
  | false => exact ⟨fun h => h.elim (fun h => ⟨false, h⟩) fun h => ⟨true, h⟩, fun ⟨next, h⟩ => by
      cases next
      · exact .inl h
      · exact .inr h⟩
  | true => exact ⟨fun h => h.elim (fun h => ⟨true, h⟩) fun h => ⟨false, h⟩, fun ⟨next, h⟩ => by
      cases next
      · exact .inr h
      · exact .inl h⟩

omit valid in
theorem mem_fieldsOf_plain {i : ℕ} (plain : ¬ d.isChain i) {f : CompactFields} :
    f ∈ d.fieldsOf i ↔ ∃ k, d.first i ≤ k ∧ k < d.first i + d.flags i ∧ f = d.explicitFields k := by
  rw [DiskGraph.fieldsOf, DiskGraph.outDegree, if_neg plain, List.mem_map]
  constructor
  · rintro ⟨index, small, rfl⟩
    have small := List.mem_range.mp small
    exact ⟨d.first i + index, by omega, by omega, if_neg plain⟩
  · rintro ⟨k, low, high, rfl⟩
    refine ⟨k - d.first i, List.mem_range.mpr (by omega), ?_⟩
    rw [DiskGraph.fieldsAt, if_neg plain, Nat.add_sub_cancel' low]

/-- Every explicit edge leaves some ordinary node. -/
theorem owner {k : ℕ} (edge : k < d.storedEdges) : ∃ i < d.nodes, ¬ d.isChain i ∧
    d.first i ≤ k ∧ k < d.first i + d.flags i := by
  have search : ∀ n ≤ d.nodes, k < d.edgesBefore n → ∃ i < d.nodes, ¬ d.isChain i ∧
      d.first i ≤ k ∧ k < d.first i + d.flags i := by
    intro n
    induction n with
    | zero => exact fun _ none => absurd none (Nat.not_lt_zero k)
    | succ n ih =>
        intro le below
        by_cases before : k < d.edgesBefore n
        · exact ih (Nat.le_of_succ_le le) before
        · have plain : ¬ d.isChain n := fun chain => before (edgesBefore_of_chain chain ▸ below)
          rw [edgesBefore_of_plain plain] at below
          have first := valid.nodes.first n le plain
          exact ⟨n, le, plain, by omega, by omega⟩
  exact search d.nodes (le_refl _) (valid.nodes.stored ▸ edge)

/-- Each end of a chain keeps an explicit edge to the chain node next to it. -/
theorem entry_exists (chained : d.chainsOffset ≠ 0) {c : ℕ} (chain : c < chains) (far : Bool) :
    ∃ node < d.nodes, ∃ f ∈ d.fieldsOf node, d.chainVertex c (d.endPosition c far) = node ∧
      f = ⟨d.chainVertex c (if far then d.chainCount c - 2 else 1), d.chainAttr c,
        float64frombits (d.chainLength c (d.endSegment c far))⟩ := by
  obtain ⟨-, entries⟩ := valid.chained chained
  have some_ : ∃ k ∈ Finset.range d.storedEdges,
      (if d.entered k = some (c, far) then 1 else 0) ≠ 0 :=
    Finset.exists_ne_zero_of_sum_ne_zero (by
      show d.entryCount c far d.storedEdges ≠ 0
      rw [entries.once c chain far]
      decide)
  obtain ⟨k, member, nonzero⟩ := some_
  have enters : d.entered k = some (c, far) := by
    by_contra other
    exact nonzero (if_neg other)
  have edge := Finset.mem_range.mp member
  obtain ⟨node, known, plain, low, high⟩ := valid.owner edge
  have entry := entries.entry node known plain k low high c far enters
  have inner : d.isChain (d.target k) ∧ d.first (d.target k) = c := by
    unfold DiskGraph.entered at enters
    split at enters
    · rename_i inner
      exact ⟨inner, (Prod.mk.inj (Option.some.inj enters)).1⟩
    · cases enters
  obtain ⟨-, -, -, back⟩ := valid.chain_node (valid.edges k edge).1 inner.1
  rw [inner.2, entry.position] at back
  refine ⟨node, known, d.explicitFields k,
    (mem_fieldsOf_plain plain).mpr ⟨k, low, high, rfl⟩, entry.node, ?_⟩
  rw [DiskGraph.explicitFields, entry.attr, entry.length, back]

/-- **Every edge into or out of a chain has its reverse**, of the same length bits and
attribute. -/
theorem reverse {u : ℕ} (node : u < d.nodes) {f : CompactFields} (edge : f ∈ d.fieldsOf u)
    (chain : d.isChain u ∨ d.isChain f.target) :
    ∃ b ∈ d.fieldsOf f.target, b.target = u ∧ b.distance = f.distance ∧ b.attr = f.attr := by
  by_cases inner : d.isChain u
  · obtain ⟨known, low, high, back⟩ := valid.chain_node node inner
    have shape := valid.validChain node inner
    have count := shape.count
    obtain ⟨next, rfl⟩ := (mem_fieldsOf_chain inner).mp edge
    generalize d.first u = c at *
    generalize d.position u = p at *
    cases next with
    | true =>
        by_cases last : p + 1 < d.chainCount c - 1
        · obtain ⟨chain', position, first⟩ := shape.interior (p + 1) (by omega) last
          refine ⟨_, (mem_fieldsOf_chain chain').mpr ⟨false, rfl⟩, ?_⟩
          rw [position, first]
          exact ⟨back, rfl, rfl⟩
        · have at_end : p = d.chainCount c - 2 := by omega
          obtain ⟨v, -, b, member, here, rfl⟩ := valid.entry_exists inner.1 known true
          have same : (d.chainFields c p true).target = v := by
            rw [← here]
            show d.chainVertex c (p + 1) = d.chainVertex c (d.chainCount c - 1)
            congr 1
            omega
          rw [same]
          refine ⟨_, member, ?_, ?_, rfl⟩
          · rw [← back, at_end]
            rfl
          · rw [at_end]
            rfl
    | false =>
        by_cases first : 1 < p
        · obtain ⟨chain', position, start⟩ := shape.interior (p - 1) (by omega) (by omega)
          refine ⟨_, (mem_fieldsOf_chain chain').mpr ⟨true, rfl⟩, ?_⟩
          rw [position, start]
          refine ⟨?_, rfl, rfl⟩
          show d.chainVertex c (p - 1 + 1) = u
          rw [Nat.sub_add_cancel low]
          exact back
        · obtain rfl : p = 1 := by omega
          obtain ⟨v, -, b, member, here, rfl⟩ := valid.entry_exists inner.1 known false
          have same : (d.chainFields c 1 false).target = v := here
          rw [same]
          exact ⟨_, member, back, rfl, rfl⟩
  · have entered := chain.resolve_left inner
    obtain ⟨k, low, high, rfl⟩ := (mem_fieldsOf_plain inner).mp edge
    have stored : k < d.storedEdges := by
      have := valid.range_inside node inner
      omega
    have known := (valid.edges k stored).1
    have count := (valid.validChain known entered).count
    have entry := (valid.chained entered.1).2.entry u node inner k low high _ _ (if_pos entered)
    generalize decide (d.position (d.target k) = d.chainCount (d.first (d.target k)) - 2) = far
      at entry
    obtain ⟨position, here, attr, length⟩ := entry
    refine ⟨_, (mem_fieldsOf_chain entered).mpr ⟨far, rfl⟩, ?_⟩
    show (d.chainFields (d.first (d.target k)) (d.position (d.target k)) far).target = u ∧ _
    rw [show (d.explicitFields k).target = d.target k from rfl, position]
    cases far with
    | true =>
        refine ⟨?_, congrArg float64frombits length.symm, attr.symm⟩
        rw [← here]
        show d.chainVertex _ (d.chainCount _ - 2 + 1) = d.chainVertex _ (d.chainCount _ - 1)
        congr 1
        omega
    | false => exact ⟨here, congrArg float64frombits length.symm, attr.symm⟩

/-! ## Going on along a chain -/

/-- **The edge that goes on along a chain**: from a chain node to the one of its two
neighbours that it was not entered from. -/
theorem chainContinuation {i : ℕ} (node : i < d.nodes) (previous : ℕ) :
    d.chainContinuation i previous = .ok (if d.isChain i then
      if (d.chainFields (d.first i) (d.position i) false).target = previous then
        some (d.chainFields (d.first i) (d.position i) true)
      else if (d.chainFields (d.first i) (d.position i) true).target = previous then
        some (d.chainFields (d.first i) (d.position i) false)
      else none
      else none) := by
  unfold DiskGraph.chainContinuation
  rw [valid.laid.chainNode node (valid.nodes.chainIndex i node)]
  by_cases chain : d.isChain i
  · obtain ⟨known, low, high, -⟩ := valid.chain_node node chain
    have shape := (valid.validChain node chain).inside
    have small := valid.laid.vertices_small
    have room := valid.laid.chained_inside chain.1
    have readStart : uint32 (d.data.drop (d.chainsOffset + d.first i * 16)) 0 =
        .ok (d.chainStart (d.first i)) := valid.laid.chain32 chain.1 known (by decide)
    have readAttr : uint32 (d.data.drop (d.chainsOffset + d.first i * 16)) 8 =
        .ok (d.chainAttr (d.first i)) := valid.laid.chain32 chain.1 known (by decide)
    have here : add32 (d.chainStart (d.first i)) (d.position i) =
        d.chainStart (d.first i) + d.position i := by unfold add32; omega
    have before : sub32 (d.chainStart (d.first i) + d.position i) 1 =
        d.chainStart (d.first i) + (d.position i - 1) := by unfold sub32; omega
    have after : add32 (d.chainStart (d.first i) + d.position i) 1 =
        d.chainStart (d.first i) + (d.position i + 1) := by unfold add32; omega
    rw [if_pos chain, if_pos chain, ok_bind]
    simp only
    rw [readStart, ok_bind, here, before, after, readAttr]
    have distance : (slice d.data (d.verticesOffset +
        (d.chainStart (d.first i) + d.position i) * graphChainVertexSize + 4) d.data.length >>=
        fun distance => uint64 distance 0) =
          .ok (d.vertexLength (d.chainStart (d.first i) + d.position i)) :=
      valid.laid.vertexDistance chain.1 (by omega)
    have target : ∀ next, (d.chainFields (d.first i) (d.position i) next).target =
        d.vertexNode (d.chainStart (d.first i) +
          if next then d.position i + 1 else d.position i - 1) := by
      intro next
      cases next <;> rfl
    rw [target, target, valid.laid.vertex chain.1 (by omega), ok_bind,
      valid.laid.vertex chain.1 (by omega), ok_bind, valid.laid.vertex32 chain.1 (by omega), ok_bind]
    simp only [if_true, if_false, Bool.false_eq_true]
    by_cases left : d.vertexNode (d.chainStart (d.first i) + (d.position i - 1)) = previous
    · obtain ⟨bytes, sliced, read⟩ := bind_ok_iff.mp distance
      rw [if_pos left, if_pos left, sliced, ok_bind, valid.laid.vertex32 chain.1 (by omega), ok_bind,
        read, ok_bind]
      rfl
    · rw [if_neg left, if_neg left, valid.laid.vertex32 chain.1 (by omega), ok_bind]
      by_cases right : d.vertexNode (d.chainStart (d.first i) + (d.position i + 1)) = previous
      · rw [if_pos right, if_pos right, ok_bind, valid.laid.vertex64 chain.1 (by omega), ok_bind]
        rfl
      · rw [if_neg right, if_neg right]
        rfl
  · rw [if_neg chain, if_neg chain]
    rfl

end DiskGraph.Valid

end Valid

end OsmMini.Core

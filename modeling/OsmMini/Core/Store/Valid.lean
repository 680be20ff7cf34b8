import OsmMini.Core.Store.Reading

/-!
# What an accepted file satisfies

`Valid` says what a compact graph file is, in terms of its fields: the node table, the
ranges of the explicit edges, the chains and their vertices. A file that `openGraph`
accepts is valid (`openGraph_valid`).
-/

set_option autoImplicit false

namespace OsmMini.Core

open Foundations Foundations.LittleEndian

/-! ## The header and the layout -/

/-- The header of a byte string. -/
def headerOf (data : List UInt8) : GraphHeader :=
  let chained : Bool := data.take 8 = graphChainMagic
  let compact : Bool := data.take 8 = graphMagic || chained
  let e := peek 8 data 16
  { chained, compact, e
    n := peek 8 data 8
    m := peek 8 data 24
    attributes := if compact then peek 8 data 64 else 0
    storedEdges := if chained then peek 8 data 72 else e
    chains := if chained then peek 8 data 80 else 0
    vertices := if chained then peek 8 data 88 else 0 }

theorem readHeader_ok_iff {data : List UInt8} {h : GraphHeader} :
    readHeader data = .ok h ↔ graphHeaderSize ≤ data.length ∧
      ((headerOf data).compact = true ∨ data.take 8 = graphLegacyMagic) ∧
      (headerOf data).invalidSizes data.length = false ∧ h = headerOf data := by
  by_cases long : graphHeaderSize ≤ data.length
  · have reads : ∀ offset, offset + 8 ≤ 96 → uint64 data offset = .ok (peek 8 data offset) :=
      fun offset fits => uint64_ok (fits.trans long)
    have conditional : ∀ (b : Bool) (offset other : ℕ), offset + 8 ≤ 96 →
        fieldIf b data offset other = .ok (if b then peek 8 data offset else other) := by
      intro b offset other fits
      cases b with
      | true => exact reads offset fits
      | false => rfl
    have value : readHeader data =
        (do refuseIf (!(headerOf data).compact && data.take 8 ≠ graphLegacyMagic)
              "unsupported or truncated graph"
            refuseIf ((headerOf data).invalidSizes data.length) "invalid graph sizes"
            return headerOf data) := by
      unfold readHeader
      rw [reads 8 (by decide), reads 16 (by decide), reads 24 (by decide)]
      simp only [ok_bind, conditional _ 64 _ (by decide), conditional _ 72 _ (by decide),
        conditional _ 80 _ (by decide), conditional _ 88 _ (by decide)]
      rw [decide_eq_false (not_lt.mpr long), refuseIf_false, ok_bind]
      rfl
    rw [value]
    simp only [bind_ok_iff, refuseIf_ok_iff, pure_eq_ok, Except.ok.injEq]
    constructor
    · rintro ⟨-, magic, -, sizes, rfl⟩
      refine ⟨long, ?_, sizes, rfl⟩
      cases compact : (headerOf data).compact with
      | true => exact .inl rfl
      | false => exact .inr (by simpa [compact] using magic)
    · rintro ⟨-, magic, sizes, rfl⟩
      refine ⟨(), ?_, (), sizes, rfl⟩
      rcases magic with compact | legacy
      · simp [compact]
      · simp [legacy]
  · constructor
    · intro run
      unfold readHeader at run
      rw [decide_eq_true (not_le.mp long)] at run
      cases run
    · exact fun facts => absurd facts.1 long

theorem takeSection_ok_iff {size offset count recordSize next : ℕ} (positive : 0 < recordSize)
    (inside : offset ≤ size) : takeSection size offset count recordSize = .ok next ↔
      next ≤ size ∧ next = offset + count * recordSize := by
  unfold takeSection
  have fits : (size - offset) / recordSize < count ↔ size < offset + count * recordSize := by
    rw [Nat.div_lt_iff_lt_mul positive]
    omega
  by_cases short : (size - offset) / recordSize < count
  · rw [if_pos short]
    constructor
    · exact fun h => nomatch h
    · rintro ⟨le, rfl⟩
      exact absurd (fits.mp short) (not_lt.mpr le)
  · rw [if_neg short]
    constructor
    · intro same
      cases same
      exact ⟨not_lt.mp fun long => short (fits.mpr long), rfl⟩
    · rintro ⟨-, rfl⟩
      rfl

/-- The offsets that the counts of a compact header give. -/
def layoutOf (h : GraphHeader) : GraphLayout :=
  let edgesOffset := graphHeaderSize + h.n * 32
  let cellsOffset := edgesOffset + h.storedEdges * 16
  let attributesOffset := cellsOffset + h.n * 12
  let behind := attributesOffset + h.attributes * 32
  if h.chained then
    let verticesOffset := behind + h.chains * 16
    { edgesOffset, cellsOffset, attributesOffset, verticesOffset
      chainsOffset := behind, metaOffset := verticesOffset + h.vertices * 12 }
  else
    { edgesOffset, cellsOffset, attributesOffset
      chainsOffset := 0, verticesOffset := 0, metaOffset := behind }

theorem readLayout_ok_iff {h : GraphHeader} {size : ℕ} {l : GraphLayout} (compact : h.compact = true)
    (long : graphHeaderSize ≤ size) : readLayout h size = .ok l ↔
      (layoutOf h).metaOffset + h.m = size ∧ l = layoutOf h := by
  have nodeSize : h.nodeSize = 32 := by rw [GraphHeader.nodeSize, if_pos compact]; rfl
  have edgeSize : h.edgeSize = 16 := by rw [GraphHeader.edgeSize, if_pos compact]; rfl
  have cellSize : h.cellSize = 12 := by rw [GraphHeader.cellSize, if_pos compact]; rfl
  have total : ∀ {x : ℕ} {u : Unit}, refuseIf (h.m ≠ size - x) "unexpected EOF" = .ok u →
      x ≤ size → x + h.m = size := by
    intro x u rest inside
    have same : h.m = size - x := by simpa using refuseIf_ok_iff.mp rest
    rw [same]
    exact Nat.add_sub_cancel' inside
  unfold readLayout
  rw [nodeSize, edgeSize, cellSize]
  constructor
  · intro run
    obtain ⟨edges, taken, run⟩ := bind_ok_iff.mp run
    obtain ⟨inside, rfl⟩ := (takeSection_ok_iff (by decide) long).mp taken
    obtain ⟨cells, taken, run⟩ := bind_ok_iff.mp run
    obtain ⟨inside, rfl⟩ := (takeSection_ok_iff (by decide) inside).mp taken
    obtain ⟨attributes, taken, run⟩ := bind_ok_iff.mp run
    obtain ⟨inside, rfl⟩ := (takeSection_ok_iff (by decide) inside).mp taken
    obtain ⟨behind, taken, run⟩ := bind_ok_iff.mp run
    obtain ⟨inside, rfl⟩ := (takeSection_ok_iff (by decide) inside).mp taken
    cases chained : h.chained with
    | true =>
        rw [chained, if_pos rfl] at run
        obtain ⟨vertices, taken, run⟩ := bind_ok_iff.mp run
        obtain ⟨inside, rfl⟩ := (takeSection_ok_iff (by decide) inside).mp taken
        obtain ⟨metadata, taken, run⟩ := bind_ok_iff.mp run
        obtain ⟨inside, rfl⟩ := (takeSection_ok_iff (by decide) inside).mp taken
        obtain ⟨_, rest, run⟩ := bind_ok_iff.mp run
        cases run
        unfold layoutOf
        rw [chained, if_pos rfl]
        exact ⟨total rest inside, rfl⟩
    | false =>
        rw [chained, if_neg (by decide)] at run
        obtain ⟨_, rest, run⟩ := bind_ok_iff.mp run
        cases run
        unfold layoutOf
        rw [chained, if_neg (by decide)]
        exact ⟨total rest inside, rfl⟩
  · rintro ⟨total, rfl⟩
    have take : ∀ offset count recordSize, 0 < recordSize → offset + count * recordSize ≤ size →
        takeSection size offset count recordSize = .ok (offset + count * recordSize) :=
      fun offset count recordSize positive inside =>
        (takeSection_ok_iff positive (by omega)).mpr ⟨inside, rfl⟩
    unfold layoutOf at total ⊢
    cases chained : h.chained with
    | true =>
        rw [chained] at total
        simp only [if_true, graphAttributeSize, graphChainSize, graphChainVertexSize] at total ⊢
        rw [take _ _ _ (by decide) (by omega), ok_bind, take _ _ _ (by decide) (by omega), ok_bind,
          take _ _ _ (by decide) (by omega), ok_bind, take _ _ _ (by decide) (by omega), ok_bind,
          take _ _ _ (by decide) (by omega), ok_bind, take _ _ _ (by decide) (by omega), ok_bind,
          decide_eq_false (by omega), refuseIf_false, ok_bind]
        rfl
    | false =>
        rw [chained] at total
        simp only [if_false, Bool.false_eq_true, graphAttributeSize] at total ⊢
        rw [take _ _ _ (by decide) (by omega), ok_bind, take _ _ _ (by decide) (by omega), ok_bind,
          take _ _ _ (by decide) (by omega), ok_bind, take _ _ _ (by decide) (by omega), ok_bind,
          decide_eq_false (by omega), refuseIf_false, ok_bind]
        rfl

/-! ## The node table -/

/-- The graph of a compact byte string with the given classes. -/
structure Header.Fits (h : GraphHeader) (d : DiskGraph) : Prop where
  compact : h.compact = true
  nodes : d.nodes = h.n
  storedEdges : d.storedEdges = h.storedEdges
  edgeCount : d.edgeCount = h.e
  chained : h.chained = true ↔ d.chainsOffset ≠ 0
  laid : d.Laid h.attributes h.chains h.vertices

section Nodes

variable {d : DiskGraph} {h : GraphHeader} {bounds : CoordWindow F64}

theorem checkNode_ok_iff (fits : Header.Fits h d) {s t : NodeScan} {i : ℕ} (node : i < d.nodes) :
    checkNode d h bounds s i = .ok t ↔ bounds.contains (d.place i) = true ∧
      (0 < i → s.last < d.id i) ∧
      if d.isChain i then d.first i < h.chains ∧
        t = { s with last := d.id i, chainNodes := s.chainNodes + 1 }
      else d.first i + d.flags i ≤ h.storedEdges ∧ d.first i = s.nextEdge ∧
        t = { s with last := d.id i, nextEdge := d.first i + d.flags i } := by
  have laid := fits.laid
  have value : checkNode d h bounds s i = (do
      refuseIf (!bounds.contains (d.place i)) "graph coordinate outside bounds"
      refuseIf (0 < i && d.id i ≤ s.last) "invalid graph node index"
      if d.isChain i then
        refuseIf (h.chains ≤ d.first i) "invalid graph chain index"
        return { s with last := d.id i, chainNodes := s.chainNodes + 1 }
      refuseIf (h.storedEdges < d.first i || h.storedEdges - d.first i < d.flags i ||
        d.first i ≠ s.nextEdge) "invalid graph node index"
      return { s with last := d.id i, nextEdge := d.first i + d.flags i }) := by
    unfold checkNode checkContained storedRange
    rw [laid.nodeRecord node, ok_bind, laid.node64 node (by decide), ok_bind, if_pos fits.compact,
      if_pos fits.compact, laid.coordAt node, ok_bind, laid.node32 node (by decide), ok_bind,
      laid.node32 node (by decide), ok_bind]
    simp only [pure_eq_ok, ok_bind, fits.compact, fits.chained, Bool.true_and]
    rfl
  rw [value]
  by_cases chain : d.isChain i
  · simp only [if_pos chain, bind_ok_iff, refuseIf_ok_iff, pure_eq_ok, Except.ok.injEq]
    constructor
    · rintro ⟨-, contained, -, above, -, known, rfl⟩
      refine ⟨by simpa using contained, by simpa using above, by simpa using known, rfl⟩
    · rintro ⟨contained, above, known, rfl⟩
      exact ⟨(), by simpa using contained, (), by simpa using above, (), by simpa using known, rfl⟩
  · simp only [if_neg chain, bind_ok_iff, refuseIf_ok_iff, pure_eq_ok, Except.ok.injEq]
    constructor
    · rintro ⟨-, contained, -, above, -, range, rfl⟩
      simp only [Bool.or_eq_false_iff, decide_eq_false_iff_not, not_lt, ne_eq, not_not] at range
      exact ⟨by simpa using contained, by simpa using above, by omega, range.2, rfl⟩
    · rintro ⟨contained, above, inside, next, rfl⟩
      refine ⟨(), by simpa using contained, (), by simpa using above, (), ?_, rfl⟩
      simp only [Bool.or_eq_false_iff, decide_eq_false_iff_not, not_lt, ne_eq, not_not]
      omega

/-- The explicit edges of the nodes before an index. -/
def DiskGraph.edgesBefore (d : DiskGraph) (i : ℕ) : ℕ :=
  ∑ j ∈ Finset.range i, if d.isChain j then 0 else d.flags j

/-- The chain nodes before an index. -/
def DiskGraph.chainNodesBefore (d : DiskGraph) (i : ℕ) : ℕ :=
  ∑ j ∈ Finset.range i, if d.isChain j then 1 else 0

/-- What the scan carries before the node at an index. -/
def DiskGraph.scanAt (d : DiskGraph) (i : ℕ) : NodeScan where
  last := if i = 0 then 0 else d.id (i - 1)
  nextEdge := d.edgesBefore i
  chainNodes := d.chainNodesBefore i

/-- The node table of a file: ordered by ID, inside the bounds, and each ordinary node
has the explicit edges behind those of the nodes before it. -/
structure ValidNodes (d : DiskGraph) (chains : ℕ) : Prop where
  ids : ∀ i, i + 1 < d.nodes → d.id i < d.id (i + 1)
  chainIndex : ∀ i < d.nodes, d.isChain i → d.first i < chains
  first : ∀ i < d.nodes, ¬ d.isChain i → d.first i = d.edgesBefore i
  stored : d.edgesBefore d.nodes = d.storedEdges
  total : d.storedEdges + 2 * d.chainNodesBefore d.nodes = d.edgeCount

theorem edgesBefore_succ (i : ℕ) :
    d.edgesBefore (i + 1) = d.edgesBefore i + if d.isChain i then 0 else d.flags i :=
  Finset.sum_range_succ ..

theorem chainNodesBefore_succ (i : ℕ) :
    d.chainNodesBefore (i + 1) = d.chainNodesBefore i + if d.isChain i then 1 else 0 :=
  Finset.sum_range_succ ..

theorem edgesBefore_mono {i j : ℕ} (le : i ≤ j) : d.edgesBefore i ≤ d.edgesBefore j :=
  Finset.sum_le_sum_of_subset (Finset.range_subset_range.mpr le)

/-- **The scan accepts the node table exactly when it is valid and inside the bounds.** -/
theorem checkNodes_ok_iff (fits : Header.Fits h d) {s : NodeScan} :
    checkNodes d h bounds = .ok s ↔ ValidNodes d h.chains ∧
      (∀ i < d.nodes, bounds.contains (d.place i) = true) ∧ s = d.scanAt d.nodes := by
  have start : d.scanAt 0 = ⟨0, 0, 0⟩ := rfl
  unfold checkNodes
  simp only [bind_ok_iff, refuseIf_ok_iff, pure_eq_ok, Except.ok.injEq, foldlM_range_ok_iff,
    fits.compact, Bool.true_and, Bool.or_eq_false_iff, decide_eq_false_iff_not, ne_eq, not_not]
  constructor
  · rintro ⟨_, ⟨trace, first, rfl, rounds⟩, -, ⟨all, total⟩, rfl⟩
    have steps := fun i (node : i < d.nodes) => (checkNode_ok_iff fits node).mp (rounds i node)
    -- Between the rounds the scan carries the counts of the nodes it has passed.
    have carried : ∀ i ≤ d.nodes, trace i = d.scanAt i := by
      intro i
      induction i with
      | zero => exact fun _ => first.trans start.symm
      | succ i ih =>
          intro le
          obtain ⟨-, -, step⟩ := steps i le
          rw [ih (Nat.le_of_succ_le le)] at step
          by_cases chain : d.isChain i
          · rw [if_pos chain] at step
            rw [step.2]
            simp [DiskGraph.scanAt, edgesBefore_succ, chainNodesBefore_succ, chain]
          · rw [if_neg chain] at step
            have next : d.first i = d.edgesBefore i := step.2.1
            rw [step.2.2, next]
            simp [DiskGraph.scanAt, edgesBefore_succ, chainNodesBefore_succ, chain]
    have last : trace d.nodes = d.scanAt d.nodes := carried _ (le_refl _)
    rw [last] at all total ⊢
    refine ⟨⟨?_, ?_, ?_, ?_, ?_⟩, fun i node => (steps i node).1, rfl⟩
    · intro i node
      have above := (steps (i + 1) node).2.1 (Nat.succ_pos i)
      rwa [carried (i + 1) node.le] at above
    · intro i node chain
      have step := (steps i node).2.2
      rw [if_pos chain] at step
      exact step.1
    · intro i node plain
      have step := (steps i node).2.2
      rw [if_neg plain, carried i node.le] at step
      exact step.2.1
    · rw [fits.storedEdges]
      exact all
    · rw [fits.storedEdges, fits.edgeCount]
      exact total
  · rintro ⟨valid, contained, rfl⟩
    refine ⟨d.scanAt d.nodes, ⟨d.scanAt, start, rfl, fun i node => ?_⟩, (),
      ⟨valid.stored.trans fits.storedEdges, ?_⟩, rfl⟩
    · refine (checkNode_ok_iff fits node).mpr ⟨contained i node, fun positive => ?_, ?_⟩
      · obtain ⟨j, rfl⟩ := Nat.exists_eq_succ_of_ne_zero positive.ne'
        exact valid.ids j node
      · by_cases chain : d.isChain i
        · rw [if_pos chain]
          refine ⟨valid.chainIndex i node chain, ?_⟩
          simp [DiskGraph.scanAt, edgesBefore_succ, chainNodesBefore_succ, chain]
        · rw [if_neg chain]
          have next := valid.first i node chain
          have inside : d.edgesBefore (i + 1) ≤ d.edgesBefore d.nodes := edgesBefore_mono node
          rw [edgesBefore_succ, if_neg chain, valid.stored, fits.storedEdges] at inside
          refine ⟨by omega, next, ?_⟩
          simp [DiskGraph.scanAt, edgesBefore_succ, chainNodesBefore_succ, chain, next]
    · rw [← fits.storedEdges, ← fits.edgeCount]
      exact valid.total

end Nodes

/-! ## The edges, the attributes and the cells -/

section Records

variable {d : DiskGraph} {h : GraphHeader} {bounds : CoordWindow F64}

theorem checkEdge_ok_iff (fits : Header.Fits h d) {k : ℕ} {u : Unit} (edge : k < d.storedEdges) :
    checkEdge d h k = .ok u ↔ d.target k < d.nodes ∧ d.edgeAttr k < h.attributes := by
  have inside := fits.laid.edges_inside
  have value : checkEdge d h k =
      refuseIf (h.n ≤ d.target k || h.attributes ≤ d.edgeAttr k) "invalid graph edge index" := by
    unfold checkEdge
    rw [fits.laid.edgeSize, slice_tail (by omega), ok_bind, if_pos fits.compact,
      uint32_drop (by omega), ok_bind, uint32_drop (by omega), ok_bind]
    rfl
  rw [value, refuseIf_ok_iff, Bool.or_eq_false_iff, decide_eq_false_iff_not, decide_eq_false_iff_not,
    not_le, not_le, fits.nodes]

theorem checkAttribute_ok_iff (fits : Header.Fits h d) {a : ℕ} {u : Unit}
    (shared : a < h.attributes) :
    checkAttribute d a = .ok u ↔ d.attributeClass a < d.classes.length := by
  have inside := fits.laid.inside
  have value : checkAttribute d a =
      refuseIf (d.classes.length ≤ d.attributeClass a) "invalid graph attribute class" := by
    unfold checkAttribute
    rw [uint32_ok (by rw [graphAttributeSize]; omega), ok_bind]
    rfl
  rw [value, refuseIf_ok_iff, decide_eq_false_iff_not, not_le]

theorem checkCell_ok_iff (fits : Header.Fits h d) {last next : Int64 × ℕ} {i : ℕ}
    (node : i < d.nodes) : checkCell d h bounds last i = .ok next ↔ d.cellNode i < d.nodes ∧
      (0 < i → last.1 < d.cellKeyAt i ∨ last.1 = d.cellKeyAt i ∧ last.2 < d.cellNode i) ∧
      d.cellKeyAt i = cellKey ((graphGrid bounds).cell (d.place (d.cellNode i))) ∧
      next = (d.cellKeyAt i, d.cellNode i) := by
  have inside := fits.laid.cells_inside
  have value : checkCell d h bounds last i = (do
      refuseIf (h.n ≤ d.cellNode i || (0 < i && (d.cellKeyAt i < last.1 ||
        (d.cellKeyAt i = last.1 && d.cellNode i ≤ last.2)))) "invalid graph spatial index"
      let c ← d.coordAt (d.cellNode i)
      refuseIf (d.cellKeyAt i ≠ cellKey ((graphGrid bounds).cell c))
        "graph spatial cell does not match coordinate"
      return (d.cellKeyAt i, d.cellNode i)) := by
    unfold checkCell
    rw [fits.laid.cellSize, slice_tail (by omega), ok_bind, uint64_drop (by omega), ok_bind,
      uint32_drop (by omega), ok_bind]
    rfl
  have order : (0 < i && (d.cellKeyAt i < last.1 ||
      (d.cellKeyAt i = last.1 && d.cellNode i ≤ last.2)) : Bool) = false ↔
      (0 < i → last.1 < d.cellKeyAt i ∨ last.1 = d.cellKeyAt i ∧ last.2 < d.cellNode i) := by
    simp only [Bool.and_eq_false_imp, decide_eq_true_eq, Bool.or_eq_false_iff,
      decide_eq_false_iff_not, not_lt, not_le]
    refine imp_congr_right fun _ => ⟨fun ⟨le, strict⟩ => ?_, ?_⟩
    · rcases le.lt_or_eq with lt | same
      · exact .inl lt
      · exact .inr ⟨same, strict same.symm⟩
    · rintro (lt | ⟨same, lt⟩)
      · exact ⟨lt.le, fun same => absurd same.symm lt.ne⟩
      · exact ⟨same.le, fun _ => lt⟩
  rw [value]
  simp only [bind_ok_iff, refuseIf_ok_iff, pure_eq_ok, Except.ok.injEq]
  rw [Bool.or_eq_false_iff, order, decide_eq_false_iff_not, not_le, ← fits.nodes]
  constructor
  · rintro ⟨-, ⟨known, above⟩, c, read, -, same, rfl⟩
    rw [fits.laid.coordAt known] at read
    cases read
    exact ⟨known, above, by simpa using same, rfl⟩
  · rintro ⟨known, above, same, rfl⟩
    exact ⟨(), ⟨known, above⟩, _, fits.laid.coordAt known, (), by simpa using same, rfl⟩

/-- The cells of a file: each node once, in the cell it lies in, ordered by cell. -/
structure ValidCells (d : DiskGraph) (bounds : CoordWindow F64) : Prop where
  node : ∀ i < d.nodes, d.cellNode i < d.nodes
  key : ∀ i < d.nodes,
    d.cellKeyAt i = cellKey ((graphGrid bounds).cell (d.place (d.cellNode i)))
  ordered : ∀ i, i + 1 < d.nodes → d.cellKeyAt i < d.cellKeyAt (i + 1) ∨
    d.cellKeyAt i = d.cellKeyAt (i + 1) ∧ d.cellNode i < d.cellNode (i + 1)

/-- **The scan accepts the cells exactly when they are valid.** -/
theorem checkCells_ok_iff (fits : Header.Fits h d) :
    (∃ last, (List.range d.nodes).foldlM (checkCell d h bounds) (0, 0) = .ok last) ↔
      ValidCells d bounds := by
  simp only [foldlM_range_ok_iff]
  constructor
  · rintro ⟨_, trace, -, -, rounds⟩
    have steps := fun i (node : i < d.nodes) => (checkCell_ok_iff fits node).mp (rounds i node)
    refine ⟨fun i node => (steps i node).1, fun i node => (steps i node).2.2.1, fun i node => ?_⟩
    have above := (steps (i + 1) node).2.1 (Nat.succ_pos i)
    rwa [(steps i (Nat.lt_of_succ_lt node)).2.2.2] at above
  · intro valid
    refine ⟨_, fun i => if i = 0 then (0, 0) else (d.cellKeyAt (i - 1), d.cellNode (i - 1)), rfl,
      rfl, fun i node => (checkCell_ok_iff fits node).mpr
        ⟨valid.node i node, fun positive => ?_, valid.key i node, by simp⟩⟩
    obtain ⟨j, rfl⟩ := Nat.exists_eq_succ_of_ne_zero positive.ne'
    exact valid.ordered j node

end Records

end OsmMini.Core

import OsmMini.Core.Store.Valid

/-!
# The packed chains of an accepted file

The chains fill the vertex table one behind the other, the nodes inside a chain point
back at their position in it, and the ends of a chain are ordinary nodes that keep
exactly one explicit edge into it each.
-/

set_option autoImplicit false

namespace OsmMini.Core

open Foundations Foundations.LittleEndian

namespace DiskGraph

variable (d : DiskGraph)

/-- The node at a position of a chain. -/
def chainVertex (c p : ℕ) : ℕ := d.vertexNode (d.chainStart c + p)

/-- The length bits of the segment behind a position of a chain. -/
def chainLength (c p : ℕ) : ℕ := d.vertexLength (d.chainStart c + p)

/-- The vertices of the chains before a chain. -/
def verticesBefore (c : ℕ) : ℕ := ∑ b ∈ Finset.range c, d.chainCount b

/-- The interior nodes of the chains before a chain. -/
def interiorBefore (c : ℕ) : ℕ := ∑ b ∈ Finset.range c, (d.chainCount b - 2)

/-- One chain of a file. -/
structure ValidChain (vertices attributes c : ℕ) : Prop where
  count : 5 ≤ d.chainCount c
  inside : d.chainStart c + d.chainCount c ≤ vertices
  attr : d.chainAttr c < attributes
  reserved : d.chainReserved c = 0
  node : ∀ p < d.chainCount c, d.chainVertex c p < d.nodes
  interior : ∀ p, 0 < p → p < d.chainCount c - 1 → d.isChain (d.chainVertex c p) ∧
    d.position (d.chainVertex c p) = p ∧ d.first (d.chainVertex c p) = c
  endpoint : ∀ p < d.chainCount c, ¬ (0 < p ∧ p < d.chainCount c - 1) →
    ¬ d.isChain (d.chainVertex c p)
  last : d.chainLength c (d.chainCount c - 1) = 0

/-- The chains of a file and their vertices. -/
structure ValidChains (chains vertices attributes : ℕ) : Prop where
  chain : ∀ c < chains, d.ValidChain vertices attributes c
  start : ∀ c < chains, d.chainStart c = d.verticesBefore c
  covered : d.verticesBefore chains = vertices
  interior : d.interiorBefore chains = d.chainNodesBefore d.nodes

end DiskGraph

section Chains

variable {d : DiskGraph} {attributes chains vertices : ℕ}

theorem verticesBefore_succ (c : ℕ) :
    d.verticesBefore (c + 1) = d.verticesBefore c + d.chainCount c :=
  Finset.sum_range_succ ..

theorem interiorBefore_succ (c : ℕ) :
    d.interiorBefore (c + 1) = d.interiorBefore c + (d.chainCount c - 2) :=
  Finset.sum_range_succ ..

theorem isChain_iff (chained : d.chainsOffset ≠ 0) (i : ℕ) :
    d.isChain i ↔ d.flags i &&& graphChainFlag ≠ 0 :=
  and_iff_right chained

theorem checkVertex_ok_iff (laid : d.Laid attributes chains vertices) (chained : d.chainsOffset ≠ 0)
    {i start count p : ℕ} {u : Unit} (inside : start + p < vertices) :
    checkVertex d i start count p = .ok u ↔ d.vertexNode (start + p) < d.nodes ∧
      if 0 < p ∧ p < count - 1 then d.isChain (d.vertexNode (start + p)) ∧
        d.position (d.vertexNode (start + p)) = p ∧ d.first (d.vertexNode (start + p)) = i
      else ¬ d.isChain (d.vertexNode (start + p)) := by
  have value : checkVertex d i start count p = (do
      refuseIf (d.nodes ≤ d.vertexNode (start + p)) "invalid graph chain vertex"
      let n ← d.nodeRecord (d.vertexNode (start + p))
      let flags ← uint32 n 28
      if 0 < p ∧ p < count - 1 then
        refuseIf (flags &&& graphChainFlag = 0 || flags &&& graphChainPositionMask ≠ p ||
          (← uint32 n 24) ≠ i) "invalid graph chain node position"
      else
        refuseIf (flags &&& graphChainFlag ≠ 0) "invalid graph chain endpoint") := by
    unfold checkVertex
    rw [laid.vertex chained inside, ok_bind, laid.vertex32 chained inside, ok_bind]
  rw [value]
  generalize d.vertexNode (start + p) = node
  by_cases known : node < d.nodes
  · rw [decide_eq_false (not_le.mpr known), refuseIf_false, ok_bind, laid.nodeRecord known, ok_bind,
      laid.node32 known (by decide), ok_bind]
    show (if 0 < p ∧ p < count - 1 then _ else refuseIf (d.flags node &&& graphChainFlag ≠ 0) _) =
      _ ↔ _
    by_cases inner : 0 < p ∧ p < count - 1
    · rw [if_pos inner, if_pos inner, laid.node32 known (by decide), ok_bind]
      show refuseIf (d.flags node &&& graphChainFlag = 0 ||
        d.flags node &&& graphChainPositionMask ≠ p || d.first node ≠ i) _ = _ ↔ _
      rw [refuseIf_ok_iff, isChain_iff chained]
      simp only [Bool.or_eq_false_iff, decide_eq_false_iff_not, ne_eq, not_not]
      exact ⟨fun ⟨⟨flag, here⟩, back⟩ => ⟨known, flag, here, back⟩,
        fun ⟨_, flag, here, back⟩ => ⟨⟨flag, here⟩, back⟩⟩
    · rw [if_neg inner, if_neg inner, refuseIf_ok_iff, isChain_iff chained,
        decide_eq_false_iff_not]
      exact ⟨fun plain => ⟨known, plain⟩, fun both => both.2⟩
  · rw [decide_eq_true (not_lt.mp known)]
    exact ⟨fun h => (nomatch h), fun both => absurd both.1 known⟩

theorem checkChain_ok_iff (laid : d.Laid attributes chains vertices) (chained : d.chainsOffset ≠ 0)
    {s t : ℕ × ℕ} {c : ℕ} (chain : c < chains) :
    checkChain d vertices attributes s c = .ok t ↔ d.ValidChain vertices attributes c ∧
      d.chainStart c = s.1 ∧ t = (s.1 + d.chainCount c, s.2 + (d.chainCount c - 2)) := by
  have value : checkChain d vertices attributes s c = (do
      refuseIf (d.chainStart c ≠ s.1 || d.chainCount c < 5 || vertices < d.chainStart c ||
        vertices - d.chainStart c < d.chainCount c || attributes ≤ d.chainAttr c ||
        d.chainReserved c ≠ 0) "invalid graph chain record"
      (List.range (d.chainCount c)).forM (checkVertex d c (d.chainStart c) (d.chainCount c))
      let last ← d.vertex (d.chainStart c + d.chainCount c - 1)
      refuseIf ((← uint64 last 4) ≠ 0) "invalid graph chain terminal distance"
      return (s.1 + d.chainCount c, s.2 + (d.chainCount c - 2))) := by
    unfold checkChain
    rw [laid.chainRecord chained chain, ok_bind, laid.chain32 chained chain (by decide), ok_bind,
      laid.chain32 chained chain (by decide), ok_bind, laid.chain32 chained chain (by decide),
      ok_bind, laid.chain32 chained chain (by decide), ok_bind]
    rfl
  rw [value]
  constructor
  · intro run
    obtain ⟨_, record, run⟩ := bind_ok_iff.mp run
    obtain ⟨_, positions, run⟩ := bind_ok_iff.mp run
    obtain ⟨last, read, run⟩ := bind_ok_iff.mp run
    obtain ⟨bits, length, run⟩ := bind_ok_iff.mp run
    obtain ⟨_, zero, run⟩ := bind_ok_iff.mp run
    cases run
    have record := refuseIf_ok_iff.mp record
    simp only [Bool.or_eq_false_iff, decide_eq_false_iff_not, ne_eq, not_not, not_lt, not_le]
      at record
    obtain ⟨⟨⟨⟨⟨start, count⟩, below⟩, room⟩, attr⟩, reserved⟩ := record
    have inside : d.chainStart c + d.chainCount c ≤ vertices := by omega
    have position := fun p (small : p < d.chainCount c) =>
      (checkVertex_ok_iff laid chained (by omega)).mp ((forM_range_ok_iff _ _).mp positions p small)
    refine ⟨⟨count, inside, attr, reserved, fun p small => (position p small).1, ?_, ?_, ?_⟩, start,
      rfl⟩
    · intro p low high
      have both := (position p (by omega)).2
      rwa [if_pos ⟨low, high⟩] at both
    · intro p small outer
      have both := (position p small).2
      rwa [if_neg outer] at both
    · have here : d.chainStart c + d.chainCount c - 1 < vertices := by omega
      rw [laid.vertex chained here] at read
      cases read
      rw [laid.vertex64 chained here] at length
      cases length
      have zero : d.vertexLength (d.chainStart c + d.chainCount c - 1) = 0 := by
        simpa using refuseIf_ok_iff.mp zero
      rw [DiskGraph.chainLength, ← zero]
      congr 1
      omega
  · rintro ⟨valid, start, rfl⟩
    have count := valid.count
    have inside := valid.inside
    have zero : d.vertexLength (d.chainStart c + d.chainCount c - 1) = 0 := by
      rw [← valid.last, DiskGraph.chainLength]
      congr 1
      omega
    have positions : (List.range (d.chainCount c)).forM
        (checkVertex d c (d.chainStart c) (d.chainCount c)) = .ok () := by
      refine (forM_range_ok_iff _ _).mpr fun p small =>
        (checkVertex_ok_iff laid chained (by omega)).mpr ⟨valid.node p small, ?_⟩
      by_cases inner : 0 < p ∧ p < d.chainCount c - 1
      · rw [if_pos inner]
        exact valid.interior p inner.1 inner.2
      · rw [if_neg inner]
        exact valid.endpoint p small inner
    have record : (d.chainStart c ≠ s.1 || d.chainCount c < 5 || vertices < d.chainStart c ||
        vertices - d.chainStart c < d.chainCount c || attributes ≤ d.chainAttr c ||
        d.chainReserved c ≠ 0 : Bool) = false := by
      simp only [Bool.or_eq_false_iff, decide_eq_false_iff_not, ne_eq, not_not, not_lt, not_le]
      exact ⟨⟨⟨⟨⟨start, count⟩, by omega⟩, by omega⟩, valid.attr⟩, valid.reserved⟩
    rw [record, refuseIf_false, ok_bind, positions, ok_bind, laid.vertex chained (by omega), ok_bind,
      laid.vertex64 chained (by omega), ok_bind, zero]
    rfl

/-- The scan of the chain records accepts them exactly when each chain is valid and
begins behind the one before it. -/
theorem checkChains_ok_iff (laid : d.Laid attributes chains vertices)
    (chained : d.chainsOffset ≠ 0) {t : ℕ × ℕ} :
    (List.range chains).foldlM (checkChain d vertices attributes) (0, 0) = .ok t ↔
      (∀ c < chains, d.ValidChain vertices attributes c ∧ d.chainStart c = d.verticesBefore c) ∧
        t = (d.verticesBefore chains, d.interiorBefore chains) := by
  rw [foldlM_range_ok_iff]
  constructor
  · rintro ⟨trace, first, rfl, rounds⟩
    have steps := fun c (chain : c < chains) =>
      (checkChain_ok_iff laid chained chain).mp (rounds c chain)
    have carried : ∀ c ≤ chains, trace c = (d.verticesBefore c, d.interiorBefore c) := by
      intro c
      induction c with
      | zero => exact fun _ => first
      | succ c ih =>
          intro le
          rw [(steps c le).2.2, ih (Nat.le_of_succ_le le), verticesBefore_succ, interiorBefore_succ]
    refine ⟨fun c chain => ⟨(steps c chain).1, ?_⟩, carried chains (le_refl _)⟩
    rw [(steps c chain).2.1, carried c chain.le]
  · rintro ⟨valid, rfl⟩
    refine ⟨fun c => (d.verticesBefore c, d.interiorBefore c), rfl, rfl, fun c chain => ?_⟩
    refine (checkChain_ok_iff laid chained chain).mpr ⟨(valid c chain).1, (valid c chain).2, ?_⟩
    simp only [verticesBefore_succ, interiorBefore_succ]

end Chains

/-! ## The explicit edges into chains -/

namespace DiskGraph

variable (d : DiskGraph)

/-- The chain an explicit edge enters, and whether at its far end. -/
def entered (k : ℕ) : Option (ℕ × Bool) :=
  if d.isChain (d.target k) then
    some (d.first (d.target k),
      d.position (d.target k) = d.chainCount (d.first (d.target k)) - 2)
  else none

/-- The position of an end of a chain. -/
def endPosition (c : ℕ) (far : Bool) : ℕ := if far then d.chainCount c - 1 else 0

/-- The segment of a chain at one of its ends. -/
def endSegment (c : ℕ) (far : Bool) : ℕ := if far then d.chainCount c - 2 else 0

/-- An explicit edge out of an ordinary node that enters a chain: the node is the end
of the chain there, and the edge has the attribute and the length of the chain. -/
structure ValidEntry (node k c : ℕ) (far : Bool) : Prop where
  position : d.position (d.target k) = if far then d.chainCount c - 2 else 1
  node : d.chainVertex c (d.endPosition c far) = node
  attr : d.edgeAttr k = d.chainAttr c
  length : d.edgeLength k = d.chainLength c (d.endSegment c far)

/-- How many of the explicit edges before an edge enter a chain at one of its ends. -/
def entryCount (c : ℕ) (far : Bool) (k : ℕ) : ℕ :=
  ∑ j ∈ Finset.range k, if d.entered j = some (c, far) then 1 else 0

/-- What the scan of the explicit edges carries before an edge. -/
def tally (chains k : ℕ) : ChainEntries :=
  (List.range chains).map fun c => (d.entryCount c false k, d.entryCount c true k)

/-- The explicit edges into the chains of a file: only from the ends of a chain, and
one from each end. -/
structure ValidEntries (chains : ℕ) : Prop where
  entry : ∀ node < d.nodes, ¬ d.isChain node → ∀ k, d.first node ≤ k →
    k < d.first node + d.flags node → ∀ c far, d.entered k = some (c, far) →
    d.ValidEntry node k c far
  once : ∀ c < chains, ∀ far, d.entryCount c far d.storedEdges = 1

end DiskGraph

section Entries

variable {d : DiskGraph} {attributes chains vertices : ℕ}

theorem entryCount_succ (c : ℕ) (far : Bool) (k : ℕ) :
    d.entryCount c far (k + 1) =
      d.entryCount c far k + if d.entered k = some (c, far) then 1 else 0 :=
  Finset.sum_range_succ ..

theorem entryCount_mono {c : ℕ} {far : Bool} {j k : ℕ} (le : j ≤ k) :
    d.entryCount c far j ≤ d.entryCount c far k :=
  Finset.sum_le_sum_of_subset (Finset.range_subset_range.mpr le)

theorem endPosition_le (c : ℕ) (far : Bool) : d.endPosition c far ≤ d.chainCount c - 1 := by
  cases far with
  | true => exact le_refl _
  | false => exact Nat.zero_le _

theorem endSegment_le (c : ℕ) (far : Bool) : d.endSegment c far ≤ d.chainCount c - 2 := by
  cases far with
  | true => exact le_refl _
  | false => exact Nat.zero_le _

theorem tally_zero : d.tally chains 0 = List.replicate chains (0, 0) := by
  refine List.eq_replicate_iff.mpr ⟨by simp [DiskGraph.tally], fun x member => ?_⟩
  obtain ⟨c, -, rfl⟩ := List.mem_map.mp member
  rfl

theorem tally_getElem {k c : ℕ} (chain : c < chains) :
    (d.tally chains k)[c]? = some (d.entryCount c false k, d.entryCount c true k) := by
  simp [DiskGraph.tally, chain]

theorem tally_skip {k : ℕ} (plain : d.entered k = none) :
    d.tally chains (k + 1) = d.tally chains k := by
  simp [DiskGraph.tally, entryCount_succ, plain]

theorem tally_enter {k c : ℕ} {far : Bool} (enters : d.entered k = some (c, far)) :
    d.tally chains (k + 1) = (d.tally chains k).set c
      (if far then (d.entryCount c false k, d.entryCount c true k + 1)
        else (d.entryCount c false k + 1, d.entryCount c true k)) := by
  refine List.ext_getElem (by simp [DiskGraph.tally]) fun b left right => ?_
  simp only [DiskGraph.tally, List.getElem_map, List.getElem_range, entryCount_succ, enters,
    List.getElem_set, Option.some.injEq, Prod.mk.injEq]
  by_cases same : c = b
  · subst same
    cases far <;> simp
  · simp [same]

/-- **One explicit edge passes the scan exactly when it enters no chain, or enters one
rightly and as the first at that end.** -/
theorem checkEntry_ok_iff (laid : d.Laid attributes chains vertices)
    (chained : d.chainsOffset ≠ 0) (valid : ∀ c < chains, d.ValidChain vertices attributes c)
    {node k : ℕ} {entries : ChainEntries} (edge : k < d.storedEdges)
    (known : d.target k < d.nodes) (back : d.isChain (d.target k) → d.first (d.target k) < chains) :
    checkEntry d node (d.tally chains k) k = .ok entries ↔
      (∀ c far, d.entered k = some (c, far) →
        d.ValidEntry node k c far ∧ d.entryCount c far k = 0) ∧
      entries = d.tally chains (k + 1) := by
  have inside := laid.edges_inside
  unfold checkEntry
  rw [slice_tail (by rw [graphEdgeSize]; omega), ok_bind,
    uint32_drop (by rw [graphEdgeSize]; omega), ok_bind]
  show (d.chainNode (d.target k) >>= _) = _ ↔ _
  rw [laid.chainNode known back, ok_bind]
  by_cases chain : d.isChain (d.target k)
  · rw [if_pos chain]
    have first := back chain
    have shape := valid _ first
    have count := shape.count
    have room := shape.inside
    have small := laid.vertices_small
    generalize here : d.first (d.target k) = c at *
    have readStart : uint32 (d.data.drop (d.chainsOffset + c * 16)) 0 = .ok (d.chainStart c) :=
      laid.chain32 chained first (by decide)
    have readCount : uint32 (d.data.drop (d.chainsOffset + c * 16)) 4 = .ok (d.chainCount c) :=
      laid.chain32 chained first (by decide)
    have readAttr : uint32 (d.data.drop (d.chainsOffset + c * 16)) 8 = .ok (d.chainAttr c) :=
      laid.chain32 chained first (by decide)
    have last : sub32 (d.chainCount c) 2 = d.chainCount c - 2 := by unfold sub32; omega
    have far1 : sub32 (add32 (d.chainStart c) (d.chainCount c)) 1 =
        d.chainStart c + (d.chainCount c - 1) := by unfold sub32 add32; omega
    have far2 : sub32 (add32 (d.chainStart c) (d.chainCount c)) 2 =
        d.chainStart c + (d.chainCount c - 2) := by unfold sub32 add32; omega
    simp only [readStart, readCount, ok_bind, last, far1, far2]
    have enters : d.entered k =
        some (c, decide (d.position (d.target k) = d.chainCount c - 2)) := by
      rw [DiskGraph.entered, if_pos chain, here]
    generalize far_iff : decide (d.position (d.target k) = d.chainCount c - 2) = far at enters ⊢
    have vertexAt : (if far = true then d.chainStart c + (d.chainCount c - 1)
        else d.chainStart c) = d.chainStart c + d.endPosition c far := by
      cases far <;> rfl
    have segmentAt : (if far = true then d.chainStart c + (d.chainCount c - 2)
        else d.chainStart c) = d.chainStart c + d.endSegment c far := by
      cases far <;> rfl
    have endLe : d.endPosition c far ≤ d.chainCount c - 1 := endPosition_le c far
    have segmentLe : d.endSegment c far ≤ d.chainCount c - 2 := endSegment_le c far
    have vertexIn : d.chainStart c + d.endPosition c far < vertices := by omega
    have vertexRoom := laid.chained_inside chained
    have index : uint32 ((d.data.drop (graphHeaderSize + d.target k * 32)).take 32) 24 = .ok c := by
      rw [laid.node32 known (by decide), ← here]
      rfl
    have record : d.nodeRecord (peek 4 d.data (d.edgesOffset + k * graphEdgeSize + 0)) =
        .ok ((d.data.drop (graphHeaderSize + d.target k * 32)).take 32) := laid.nodeRecord known
    rw [vertexAt, segmentAt, laid.vertex chained vertexIn, ok_bind,
      slice_tail (by rw [graphChainVertexSize]; omega), ok_bind, laid.vertex32 chained vertexIn,
      ok_bind, uint32_drop (by rw [graphEdgeSize]; omega), ok_bind, readAttr, ok_bind,
      uint64_drop (by rw [graphEdgeSize]; omega), ok_bind,
      uint64_drop (by rw [graphChainVertexSize]; omega), ok_bind, record, ok_bind, index, ok_bind,
      tally_getElem first, tally_enter enters]
    have place : (!far && decide (d.position (d.target k) ≠ 1)) = false ↔
        d.position (d.target k) = if far then d.chainCount c - 2 else 1 := by
      cases far with
      | true => simpa using far_iff
      | false => simp
    have single : (if far = true then d.entryCount c true k else d.entryCount c false k) =
        d.entryCount c far k := by
      cases far <;> rfl
    simp only [bind_ok_iff, refuseIf_ok_iff, pure_eq_ok, Except.ok.injEq, place, single,
      Bool.or_eq_false_iff, decide_eq_false_iff_not, ne_eq, not_not]
    constructor
    · rintro ⟨-, position, -, ⟨⟨end_, attr⟩, length⟩, -, fresh, rfl⟩
      refine ⟨fun b side same => ?_, rfl⟩
      obtain ⟨rfl, rfl⟩ : c = b ∧ far = side := by simpa [enters] using same
      exact ⟨⟨position, end_, attr, length⟩, fresh⟩
    · rintro ⟨entry, rfl⟩
      obtain ⟨⟨position, end_, attr, length⟩, fresh⟩ := entry c far enters
      exact ⟨(), position, (), ⟨⟨end_, attr⟩, length⟩, (), fresh, rfl⟩
  · have plain : d.entered k = none := if_neg chain
    rw [if_neg chain, tally_skip plain]
    constructor
    · intro same
      cases same
      exact ⟨fun c far enters => (by rw [plain] at enters; cases enters), rfl⟩
    · rintro ⟨-, rfl⟩
      rfl

/-- The end of the explicit edges of a node. -/
theorem edgesBefore_of_plain {i : ℕ} (plain : ¬ d.isChain i) :
    d.edgesBefore (i + 1) = d.edgesBefore i + d.flags i := by
  rw [edgesBefore_succ, if_neg plain]

theorem edgesBefore_of_chain {i : ℕ} (chain : d.isChain i) :
    d.edgesBefore (i + 1) = d.edgesBefore i := by
  rw [edgesBefore_succ, if_pos chain, add_zero]

variable (laid : d.Laid attributes chains vertices) (chained : d.chainsOffset ≠ 0)
  (valid : ∀ c < chains, d.ValidChain vertices attributes c) (nodes : ValidNodes d chains)
  (targets : ∀ k < d.storedEdges, d.target k < d.nodes)
include laid chained valid nodes targets

/-- The explicit edges of one node pass the scan exactly when each does. -/
theorem checkEntries_ok_iff {node : ℕ} {entries : ChainEntries} (inside : node < d.nodes) :
    checkEntries d (d.tally chains (d.edgesBefore node)) node = .ok entries ↔
      (¬ d.isChain node → ∀ k, d.first node ≤ k → k < d.first node + d.flags node →
        ∀ c far, d.entered k = some (c, far) →
        d.ValidEntry node k c far ∧ d.entryCount c far k = 0) ∧
      entries = d.tally chains (d.edgesBefore (node + 1)) := by
  unfold checkEntries
  rw [laid.chainNode inside (nodes.chainIndex node inside), ok_bind]
  by_cases chain : d.isChain node
  · rw [if_pos chain, edgesBefore_of_chain chain]
    constructor
    · intro same
      cases same
      exact ⟨fun plain => absurd chain plain, rfl⟩
    · rintro ⟨-, rfl⟩
      rfl
  · have first := nodes.first node inside chain
    have room : d.edgesBefore (node + 1) ≤ d.storedEdges := by
      rw [← nodes.stored]
      exact edgesBefore_mono inside
    rw [edgesBefore_of_plain chain] at room ⊢
    have step : ∀ j < d.flags node, ∀ E, checkEntry d node (d.tally chains (d.first node + j))
        (d.first node + j) = .ok E ↔ _ := fun j small E =>
      checkEntry_ok_iff laid chained valid (by omega) (targets _ (by omega))
        (nodes.chainIndex _ (targets _ (by omega)))
    rw [if_neg chain, laid.edgeRange inside, if_neg chain]
    show (List.range (d.flags node)).foldlM
      (fun entries k => checkEntry d node entries (d.first node + k))
      (d.tally chains (d.edgesBefore node)) = .ok entries ↔ _
    rw [← first, foldlM_range_ok_iff]
    constructor
    · rintro ⟨trace, start, rfl, rounds⟩
      have carried : ∀ j ≤ d.flags node, trace j = d.tally chains (d.first node + j) := by
        intro j
        induction j with
        | zero => exact fun _ => start
        | succ j ih =>
            intro le
            have round := rounds j le
            rw [ih (Nat.le_of_succ_le le)] at round
            exact ((step j le _).mp round).2
      refine ⟨fun _ k low high => ?_, carried _ (le_refl _)⟩
      obtain ⟨j, rfl⟩ := Nat.exists_eq_add_of_le low
      have small : j < d.flags node := by omega
      have round := rounds j small
      rw [carried j small.le] at round
      exact ((step j small _).mp round).1
    · rintro ⟨entry, rfl⟩
      refine ⟨fun j => d.tally chains (d.first node + j), rfl, rfl, fun j small => ?_⟩
      exact (step j small _).mpr ⟨entry chain _ (by omega) (by omega), rfl⟩

/-- **The scan of the explicit edges accepts them exactly when each edge into a chain is
valid and each chain is entered once at each end.** -/
theorem entries_ok_iff :
    (∃ entries, (List.range d.nodes).foldlM (checkEntries d) (List.replicate chains (0, 0)) =
      .ok entries ∧ entries.any (fun ends => ends ≠ (1, 1)) = false) ↔ d.ValidEntries chains := by
  have final : (d.tally chains d.storedEdges).any (fun ends => ends ≠ (1, 1)) = false ↔
      ∀ c < chains, ∀ far, d.entryCount c far d.storedEdges = 1 := by
    simp [DiskGraph.tally]
  simp only [foldlM_range_ok_iff]
  constructor
  · rintro ⟨_, ⟨trace, start, rfl, rounds⟩, all⟩
    have carried : ∀ i ≤ d.nodes, trace i = d.tally chains (d.edgesBefore i) := by
      intro i
      induction i with
      | zero => exact fun _ => start.trans tally_zero.symm
      | succ i ih =>
          intro le
          have round := rounds i le
          rw [ih (Nat.le_of_succ_le le)] at round
          exact ((checkEntries_ok_iff laid chained valid nodes targets le).mp round).2
    rw [carried _ (le_refl _), nodes.stored] at all
    refine ⟨fun node inside plain k low high c far enters => ?_, final.mp all⟩
    have round := rounds node inside
    rw [carried node inside.le] at round
    exact (((checkEntries_ok_iff laid chained valid nodes targets inside).mp round).1
      plain k low high c far enters).1
  · rintro ⟨entry, once⟩
    refine ⟨d.tally chains d.storedEdges, ⟨fun i => d.tally chains (d.edgesBefore i), tally_zero,
      by simp only [nodes.stored], fun node inside => ?_⟩, final.mpr once⟩
    refine (checkEntries_ok_iff laid chained valid nodes targets inside).mpr
      ⟨fun plain k low high c far enters => ⟨entry node inside plain k low high c far enters, ?_⟩,
        rfl⟩
    have room : d.edgesBefore (node + 1) ≤ d.storedEdges := by
      rw [← nodes.stored]
      exact edgesBefore_mono inside
    rw [edgesBefore_of_plain plain, ← nodes.first node inside plain] at room
    have before : d.entryCount c far (k + 1) ≤ 1 := by
      by_cases chain : c < chains
      · exact (entryCount_mono (by omega)).trans (once c chain far).le
      · exfalso
        have known := targets k (by omega)
        unfold DiskGraph.entered at enters
        split at enters
        · rename_i inner
          cases enters
          exact chain (nodes.chainIndex _ known inner)
        · cases enters
    rw [entryCount_succ, if_pos enters] at before
    omega

omit valid in
/-- **The chain check accepts a file exactly when its chains and the explicit edges into
them are valid.** -/
theorem validateChains_ok_iff {u : Unit} :
    validateChains d chains vertices attributes (d.chainNodesBefore d.nodes) = .ok u ↔
      d.ValidChains chains vertices attributes ∧ d.ValidEntries chains := by
  unfold validateChains
  constructor
  · intro run
    obtain ⟨⟨nextVertex, interior⟩, records, run⟩ := bind_ok_iff.mp run
    obtain ⟨_, covered, run⟩ := bind_ok_iff.mp run
    obtain ⟨entries, scanned, all⟩ := bind_ok_iff.mp run
    obtain ⟨valid, same⟩ := (checkChains_ok_iff laid chained).mp records
    obtain ⟨rfl, rfl⟩ := Prod.mk.inj same
    have covered : d.verticesBefore chains = vertices ∧
        d.interiorBefore chains = d.chainNodesBefore d.nodes := by
      simpa using refuseIf_ok_iff.mp covered
    refine ⟨⟨fun c chain => (valid c chain).1, fun c chain => (valid c chain).2, covered.1,
      covered.2⟩, ?_⟩
    exact (entries_ok_iff laid chained (fun c chain => (valid c chain).1) nodes targets).mp
      ⟨entries, scanned, refuseIf_ok_iff.mp all⟩
  · rintro ⟨valid, entries⟩
    obtain ⟨tally, scanned, all⟩ :=
      (entries_ok_iff laid chained valid.chain nodes targets).mpr entries
    rw [(checkChains_ok_iff laid chained).mpr
      ⟨fun c chain => ⟨valid.chain c chain, valid.start c chain⟩, rfl⟩, ok_bind]
    show (refuseIf (d.verticesBefore chains ≠ vertices ||
      d.interiorBefore chains ≠ d.chainNodesBefore d.nodes) _ >>= _) = _
    rw [valid.covered, valid.interior, decide_eq_false (not_not.mpr rfl),
      decide_eq_false (not_not.mpr rfl), Bool.or_false, refuseIf_false, ok_bind, scanned, ok_bind,
      all]
    rfl

end Entries

end OsmMini.Core

import OsmMini.Core.Store.ValidChains

/-!
# Which files are accepted

`DiskGraph.Valid` collects what a compact graph file satisfies. `openGraph` accepts a
compact byte string exactly when its counts, its metadata and its bounds pass and the
graph in it is valid (`openGraph_ok_iff`).
-/

set_option autoImplicit false

namespace OsmMini.Core

open Foundations Foundations.LittleEndian

/-- A compact graph file. -/
structure DiskGraph.Valid (d : DiskGraph) (attributes chains vertices : ℕ)
    (bounds : CoordWindow F64) : Prop where
  laid : d.Laid attributes chains vertices
  nodes : ValidNodes d chains
  contained : ∀ i < d.nodes, bounds.contains (d.place i) = true
  edges : ∀ k < d.storedEdges, d.target k < d.nodes ∧ d.edgeAttr k < attributes
  classes : ∀ a < attributes, d.attributeClass a < d.classes.length
  cells : ValidCells d bounds
  chained : d.chainsOffset ≠ 0 → d.ValidChains chains vertices attributes ∧ d.ValidEntries chains

/-- The bounds in the header of a byte string. -/
def boundsOf (data : List UInt8) : CoordWindow F64 where
  minLat := float64frombits (peek 8 data 32)
  maxLat := float64frombits (peek 8 data 40)
  minLon := float64frombits (peek 8 data 48)
  maxLon := float64frombits (peek 8 data 56)

/-- The graph of a byte string with the given classes. -/
def graphOf (data : List UInt8) (classes : List String) : DiskGraph :=
  diskGraph data (headerOf data) (layoutOf (headerOf data)) classes

theorem readBounds_ok {data : List UInt8} (long : graphHeaderSize ≤ data.length) :
    readBounds data = .ok (boundsOf data) := by
  have reads : ∀ offset, offset + 8 ≤ 96 → uint64 data offset = .ok (peek 8 data offset) :=
    fun offset fits => uint64_ok (fits.trans long)
  unfold readBounds
  rw [reads 32 (by decide), reads 40 (by decide), reads 48 (by decide), reads 56 (by decide)]
  rfl

theorem readMetadata_ok_iff {unmarshal : List UInt8 → Except String GraphMetadata}
    {bytes : List UInt8} {metadata : GraphMetadata} :
    readMetadata unmarshal bytes = .ok metadata ↔ unmarshal bytes = .ok metadata := by
  unfold readMetadata
  cases unmarshal bytes with
  | ok found => simp
  | error message => simp

/-- The counts of a compact header that fit a file of the given size. -/
structure ValidSizes (h : GraphHeader) (size : ℕ) : Prop where
  nodes_ne_zero : h.n ≠ 0
  nodes_fit : h.n ≤ size / 32
  edges_fit : h.storedEdges ≤ size / 16
  meta_small : h.m ≤ 64 * 2 ^ 20
  attributes_fit : h.attributes ≤ size / 32
  nodes_small : h.n ≤ 2 ^ 32 - 1
  edges_small : h.e ≤ 2 ^ 32 - 1
  attributes_small : h.attributes ≤ 2 ^ 32 - 1
  stored_le : h.storedEdges ≤ h.e
  chains_le : h.chains ≤ h.n
  vertices_fit : h.vertices ≤ size / 12
  vertices_small : h.vertices ≤ 2 ^ 32 - 1
  chained : h.chained = true → h.chains ≠ 0 ∧ h.e - h.storedEdges ≤ 2 * h.n

theorem nodeSize_of_compact {h : GraphHeader} (compact : h.compact = true) : h.nodeSize = 32 :=
  if_pos compact

theorem edgeSize_of_compact {h : GraphHeader} (compact : h.compact = true) : h.edgeSize = 16 :=
  if_pos compact

theorem cellSize_of_compact {h : GraphHeader} (compact : h.compact = true) : h.cellSize = 12 :=
  if_pos compact

theorem invalidSizes_iff {h : GraphHeader} {size : ℕ} (compact : h.compact = true) :
    h.invalidSizes size = false ↔ ValidSizes h size := by
  unfold GraphHeader.invalidSizes GraphHeader.maxUint32 graphAttributeSize graphChainVertexSize
  rw [nodeSize_of_compact compact, edgeSize_of_compact compact, compact]
  simp only [Bool.or_eq_false_iff, Bool.and_eq_false_imp, Bool.true_and, decide_eq_false_iff_not,
    not_lt]
  constructor
  · rintro ⟨⟨⟨⟨⟨⟨⟨⟨⟨⟨n, n'⟩, s⟩, m⟩, a⟩, ⟨n'', e⟩, a'⟩, s'⟩, c⟩, v⟩, v'⟩, ch⟩
    exact ⟨n, n', s, m, a, n'', e, a', s', c, v, v', ch⟩
  · rintro ⟨n, n', s, m, a, n'', e, a', s', c, v, v', ch⟩
    exact ⟨⟨⟨⟨⟨⟨⟨⟨⟨⟨n, n'⟩, s⟩, m⟩, a⟩, ⟨n'', e⟩, a'⟩, s'⟩, c⟩, v⟩, v'⟩, ch⟩

/-- The graph of a compact byte string whose sections fill it is laid out as its header
says. -/
theorem fits_of_layout {data : List UInt8} {classes : List String}
    (compact : (headerOf data).compact = true)
    (sizes : (headerOf data).invalidSizes data.length = false)
    (total : (layoutOf (headerOf data)).metaOffset + (headerOf data).m = data.length) :
    Header.Fits (headerOf data) (graphOf data classes) := by
  have sizes := (invalidSizes_iff compact).mp sizes
  have nodes_small := sizes.nodes_small
  have vertices_small := sizes.vertices_small
  have nodeSize := nodeSize_of_compact compact
  have edgeSize := edgeSize_of_compact compact
  have cellSize := cellSize_of_compact compact
  cases chained : (headerOf data).chained with
  | true =>
      simp only [layoutOf, chained, if_true] at total
      have place : (graphOf data classes).chainsOffset ≠ 0 := by
        simp only [graphOf, diskGraph, layoutOf, chained, if_true, graphHeaderSize]
        omega
      refine ⟨compact, rfl, rfl, rfl, ⟨fun _ => place, fun _ => chained⟩, ?_⟩
      refine ⟨compact, nodeSize, edgeSize, cellSize, ?_, ?_, ?_, ?_, ?_, ?_, ?_, ?_,
        by omega⟩ <;>
        simp only [graphOf, diskGraph, layoutOf, chained, if_true, implies_true] <;> omega
  | false =>
      simp only [layoutOf, chained, if_false, Bool.false_eq_true] at total
      have place : (graphOf data classes).chainsOffset = 0 := by
        simp only [graphOf, diskGraph, layoutOf, chained, if_false, Bool.false_eq_true]
      refine ⟨compact, rfl, rfl, rfl, ⟨fun h => ?_, fun h => absurd place h⟩, ?_⟩
      · rw [chained] at h
        cases h
      · refine ⟨compact, nodeSize, edgeSize, cellSize, ?_, ?_, ?_, ?_, ?_, ?_, ?_, ?_,
        by omega⟩ <;>
          simp only [graphOf, diskGraph, layoutOf, chained, if_false, Bool.false_eq_true] <;> omega

/-- What `openGraph` returns for a byte string with the given metadata. -/
def openedOf (data : List UInt8) (metadata : GraphMetadata) : OpenedRouter where
  store := graphOf data metadata.classes
  streets := metadata.streets
  bounds := boundsOf data
  maxX := lastCell (boundsOf data).maxLat (boundsOf data).minLat
  maxY := lastCell (boundsOf data).maxLon (boundsOf data).minLon

/-- A compact byte string with the given metadata that is a graph file. -/
structure Accepted (data : List UInt8) (metadata : GraphMetadata) : Prop where
  long : graphHeaderSize ≤ data.length
  sizes : ValidSizes (headerOf data) data.length
  total : (layoutOf (headerOf data)).metaOffset + (headerOf data).m = data.length
  classes : (headerOf data).e ≠ 0 → metadata.classes ≠ []
  bounds : validGraphBounds (boundsOf data) = true
  valid : (graphOf data metadata.classes).Valid (headerOf data).attributes (headerOf data).chains
    (headerOf data).vertices (boundsOf data)

/-- **A compact byte string is accepted exactly when it is a graph file.** -/
theorem openGraph_ok_iff {unmarshal : List UInt8 → Except String GraphMetadata}
    {data : List UInt8} {r : OpenedRouter} (compact : (headerOf data).compact = true) :
    openGraph unmarshal data = .ok r ↔ ∃ metadata,
      unmarshal (data.drop (layoutOf (headerOf data)).metaOffset) = .ok metadata ∧
      Accepted data metadata ∧ r = openedOf data metadata := by
  unfold openGraph
  constructor
  · intro run
    obtain ⟨h, header, run⟩ := bind_ok_iff.mp run
    obtain ⟨long, -, sizes, rfl⟩ := readHeader_ok_iff.mp header
    obtain ⟨l, layout, run⟩ := bind_ok_iff.mp run
    obtain ⟨total, rfl⟩ := (readLayout_ok_iff compact long).mp layout
    obtain ⟨metadata, decoded, run⟩ := bind_ok_iff.mp run
    obtain ⟨_, classes, run⟩ := bind_ok_iff.mp run
    rw [readBounds_ok long, ok_bind] at run
    obtain ⟨_, bounds, run⟩ := bind_ok_iff.mp run
    obtain ⟨scan, table, run⟩ := bind_ok_iff.mp run
    obtain ⟨_, edges, run⟩ := bind_ok_iff.mp run
    obtain ⟨_, chains, run⟩ := bind_ok_iff.mp run
    obtain ⟨_, shared, run⟩ := bind_ok_iff.mp run
    cases run
    have fits : Header.Fits (headerOf data) (graphOf data metadata.classes) :=
      fits_of_layout compact sizes total
    obtain ⟨nodes, contained, rfl⟩ := (checkNodes_ok_iff fits).mp table
    have edges : ∀ k < (graphOf data metadata.classes).storedEdges, _ := fun k small =>
      (checkEdge_ok_iff fits small).mp ((forM_range_ok_iff _ _).mp edges k small)
    unfold checkCompact at shared
    rw [if_pos compact] at shared
    obtain ⟨_, attributes, shared⟩ := bind_ok_iff.mp shared
    obtain ⟨last, cells, -⟩ := bind_ok_iff.mp shared
    refine ⟨metadata, readMetadata_ok_iff.mp decoded, ⟨long, (invalidSizes_iff compact).mp sizes,
      total, ?_, by simpa using refuseIf_ok_iff.mp bounds,
      ⟨fits.laid, nodes, contained, edges, ?_, (checkCells_ok_iff fits).mp ⟨last, cells⟩, ?_⟩⟩, rfl⟩
    · intro some none
      have allowed := refuseIf_ok_iff.mp classes
      simp [none] at allowed
      exact some allowed
    · exact fun a small =>
        (checkAttribute_ok_iff fits small).mp ((forM_range_ok_iff _ _).mp attributes a small)
    · intro chained
      unfold checkChains at chains
      rw [if_pos (fits.chained.mpr chained)] at chains
      exact (validateChains_ok_iff fits.laid chained nodes fun k small => (edges k small).1).mp
        chains
  · rintro ⟨metadata, decoded, accepted, rfl⟩
    have sizes := (invalidSizes_iff compact).mpr accepted.sizes
    have fits : Header.Fits (headerOf data) (graphOf data metadata.classes) :=
      fits_of_layout compact sizes accepted.total
    have valid := accepted.valid
    have classes : (decide (metadata.classes.length = 0) && decide (0 < (headerOf data).e)) =
        false := by
      by_cases none : metadata.classes = []
      · have zero : (headerOf data).e = 0 := not_not.mp fun some => accepted.classes some none
        simp [zero]
      · simp [none]
    have edges : (List.range (graphOf data metadata.classes).storedEdges).forM
        (checkEdge (graphOf data metadata.classes) (headerOf data)) = .ok () :=
      (forM_range_ok_iff _ _).mpr fun k small => (checkEdge_ok_iff fits small).mpr (valid.edges k small)
    have chains : checkChains (graphOf data metadata.classes) (headerOf data)
        ((graphOf data metadata.classes).scanAt (graphOf data metadata.classes).nodes).chainNodes =
          .ok () := by
      unfold checkChains
      by_cases chained : (headerOf data).chained = true
      · rw [if_pos chained]
        have place := fits.chained.mp chained
        exact (validateChains_ok_iff fits.laid place valid.nodes
          fun k small => (valid.edges k small).1).mpr (valid.chained place)
      · rw [if_neg chained]
    have shared : checkCompact (graphOf data metadata.classes) (headerOf data) (boundsOf data) =
        .ok () := by
      obtain ⟨last, cells⟩ := (checkCells_ok_iff fits).mpr valid.cells
      unfold checkCompact
      rw [if_pos compact, (forM_range_ok_iff _ _).mpr fun a small =>
        (checkAttribute_ok_iff fits small).mpr (valid.classes a small), ok_bind, cells]
      rfl
    rw [readHeader_ok_iff.mpr ⟨accepted.long, .inl compact, sizes, rfl⟩, ok_bind,
      (readLayout_ok_iff compact accepted.long).mpr ⟨accepted.total, rfl⟩, ok_bind,
      readMetadata_ok_iff.mpr decoded, ok_bind, classes, refuseIf_false, ok_bind,
      readBounds_ok accepted.long, ok_bind, accepted.bounds, Bool.not_true, refuseIf_false, ok_bind,
      show diskGraph data (headerOf data) (layoutOf (headerOf data)) metadata.classes =
        graphOf data metadata.classes from rfl]
    show (checkNodes (graphOf data metadata.classes) _ _ >>= _) = _
    rw [(checkNodes_ok_iff fits).mpr ⟨valid.nodes, valid.contained, rfl⟩, ok_bind, edges, ok_bind,
      chains, ok_bind, shared]
    rfl

end OsmMini.Core

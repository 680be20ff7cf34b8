import OsmMini.Core.Import.Highways
import OsmMini.Foundations.Firsts
import OsmMini.Foundations.Slices

/-!
# The edges of imported highways

The importer goes over the segments of all highways twice. The first time it counts the edges
that leave each node, and gives every node a slice of one array with room for so many edges.
The second time it appends the edges to the slices. Ways that overlap give the same edge more
than once; every slice is then compacted in place to the first of each.

The nodes get their slices in the order of a map, and are compacted in such an order. Whatever
the orders are, every node ends up with the first occurrences of its edges, in the order of the
highways (`edges_adjacency`), and no slice can grow into another one (`laid_adjacency`).
-/

set_option autoImplicit false

namespace OsmMini.Core

open OsmMini.Foundations OsmMini.Foundations.Slices

/-- An order in which the keys of a map are read. -/
structure IdOrder where
  shuffle : List Int64 → List Int64
  perm : ∀ ids, (shuffle ids).Perm ids

/-- The edge of a call of the visitor. -/
def HighwayVisit.edge (v : HighwayVisit F64) : Edge F64 where
  toID := v.dst
  distM := v.distM
  speedKph := v.highway.speedKph
  maxHeightM := v.highway.maxHeightM
  maxWeightT := v.highway.maxWeightT
  hwyType := v.highway.hwyType

/-- The edges out of a node that the calls ask for. -/
def outgoing (visits : List (HighwayVisit F64)) (id : Int64) : List (Edge F64) :=
  (visits.filter fun v => v.src = id).map HighwayVisit.edge

/-- Lists of edges as slices of arrays. -/
structure Adjacency where
  memory : Memory (Edge F64)
  adj : GoMap Int64 Slice

namespace Adjacency

def edges (a : Adjacency) (id : Int64) : List (Edge F64) :=
  (a.adj.lookup id).elim [] (read a.memory)

end Adjacency

/-! ## Counting, filling, compacting -/

/-- Count one edge. A node that edges only lead to is counted with none. -/
def countVisit (referenced : GoMap Int64 ℕ) (v : HighwayVisit F64) : GoMap Int64 ℕ :=
  let counted := referenced.insert v.src ((referenced.lookup v.src).getD 0 + 1)
  if (counted.lookup v.dst).isSome then counted else counted.insert v.dst 0

def countDegrees (visits : List (HighwayVisit F64)) : GoMap Int64 ℕ :=
  visits.foldl countVisit ∅

def zeroEdge : Edge F64 := ⟨0, ⟨0⟩, ⟨0⟩, ⟨0⟩, ⟨0⟩, ""⟩

/-- Give a node the next part of the array. -/
def allotSpan (degrees : GoMap Int64 ℕ) (s : GoMap Int64 Slice × ℕ) (id : Int64) :
    GoMap Int64 Slice × ℕ :=
  let degree := (degrees.lookup id).getD 0
  if 0 < degree then (s.1.insert id ⟨0, s.2, s.2, s.2 + degree⟩, s.2 + degree) else s

def allocate (order : IdOrder) (degrees : GoMap Int64 ℕ) (edgeCount : ℕ) : Adjacency where
  memory := [List.replicate edgeCount zeroEdge]
  adj := ((order.shuffle degrees.keys).foldl (allotSpan degrees) (∅, 0)).1

/-- Append an edge to those of its node. A node without a slice has an empty one. -/
def addEdge (a : Adjacency) (v : HighwayVisit F64) : Adjacency :=
  let grown := append a.memory ((a.adj.lookup v.src).getD ⟨0, 0, 0, 0⟩) [v.edge]
  ⟨grown.1, a.adj.insert v.src grown.2⟩

/-- The loop that compacts a slice: its cells, how many are kept, and what was seen. -/
structure Compaction where
  cells : List (Edge F64)
  kept : ℕ
  seen : List (Edge F64)

/-- Read one cell, and move its edge behind the ones kept unless it is one of them. Edges are
the same when all their fields are, floats by their bits. -/
def compactCell (large : Bool) (s : Compaction) (i : ℕ) : Compaction :=
  match s.cells[i]? with
  | none => s
  | some edge =>
    let duplicate := if large then edge ∈ s.seen else edge ∈ s.cells.take s.kept
    let seen := if large then edge :: s.seen else s.seen
    if duplicate then { s with seen := seen }
    else ⟨s.cells.set s.kept edge, s.kept + 1, seen⟩

def compact (edges : List (Edge F64)) : Compaction :=
  (List.range edges.length).foldl (compactCell (8 < edges.length)) ⟨edges, 0, []⟩

/-- Compact the slice of a node. What is left of it is cleared and cannot be grown into. -/
def deduplicateNode (s : Adjacency × ℕ) (id : Int64) : Adjacency × ℕ :=
  match s.1.adj.lookup id with
  | none => s
  | some slice =>
    let edges := read s.1.memory slice
    if edges.length < 2 then s
    else
      let c := compact edges
      if c.kept < edges.length then
        (⟨overwrite s.1.memory slice
            (c.cells.take c.kept ++ List.replicate (edges.length - c.kept) zeroEdge),
          s.1.adj.insert id (slice.sub 0 c.kept)⟩, s.2 + (edges.length - c.kept))
      else s

/-- Compact all slices: the result, and how many edges were removed. -/
def deduplicateImportedEdges (order : IdOrder) (a : Adjacency) : Adjacency × ℕ :=
  (order.shuffle a.adj.keys).foldl deduplicateNode (a, 0)

/-- The adjacency of the visited segments. -/
def adjacency (allotOrder dedupOrder : IdOrder) (visits : List (HighwayVisit F64)) : Adjacency :=
  let laid := allocate allotOrder (countDegrees visits) visits.length
  (deduplicateImportedEdges dedupOrder (visits.foldl addEdge laid)).1

/-! ## Degrees -/

/-- A node that some edge leaves or enters. -/
def IsEndpoint (visits : List (HighwayVisit F64)) (id : Int64) : Prop :=
  ∃ v ∈ visits, v.src = id ∨ v.dst = id

instance (visits : List (HighwayVisit F64)) (id : Int64) : Decidable (IsEndpoint visits id) :=
  inferInstanceAs (Decidable (∃ v ∈ visits, v.src = id ∨ v.dst = id))

theorem isEndpoint_snoc {visits : List (HighwayVisit F64)} {v : HighwayVisit F64} {id : Int64} :
    IsEndpoint (visits ++ [v]) id ↔ IsEndpoint visits id ∨ v.src = id ∨ v.dst = id := by
  simp only [IsEndpoint, List.mem_append, List.mem_singleton, or_and_right, exists_or,
    exists_eq_left]

theorem outgoing_snoc (visits : List (HighwayVisit F64)) (v : HighwayVisit F64) (id : Int64) :
    outgoing (visits ++ [v]) id = outgoing visits id ++ if v.src = id then [v.edge] else [] := by
  rw [outgoing, outgoing, List.filter_append, List.map_append]
  by_cases here : v.src = id
  · rw [if_pos here, List.filter_cons_of_pos (by simpa using here)]
    rfl
  · rw [if_neg here, List.filter_cons_of_neg (by simpa using here)]
    rfl

theorem outgoing_of_not_endpoint {visits : List (HighwayVisit F64)} {id : Int64}
    (absent : ¬IsEndpoint visits id) : outgoing visits id = [] := by
  rw [outgoing, List.map_eq_nil_iff, List.filter_eq_nil_iff]
  intro v member leaves
  exact absent ⟨v, member, Or.inl (of_decide_eq_true leaves)⟩

theorem lookup_countVisit (referenced : GoMap Int64 ℕ) (v : HighwayVisit F64) (id : Int64) :
    (countVisit referenced v).lookup id =
      if v.src = id then some ((referenced.lookup id).getD 0 + 1)
      else if v.dst = id then some ((referenced.lookup id).getD 0) else referenced.lookup id := by
  rw [countVisit]
  by_cases leaves : v.src = id
  · subst leaves
    rw [if_pos rfl]
    split
    · exact AList.lookup_insert _
    · next unseen =>
        have other : v.src ≠ v.dst := fun same => unseen (by
          rw [← same, AList.lookup_insert]
          rfl)
        rw [AList.lookup_insert_ne other, AList.lookup_insert]
  · rw [if_neg leaves]
    by_cases enters : v.dst = id
    · subst enters
      rw [if_pos rfl, AList.lookup_insert_ne (Ne.symm leaves)]
      cases before : referenced.lookup v.dst with
      | none =>
          rw [if_neg (by simp), AList.lookup_insert]
          rfl
      | some degree =>
          rw [if_pos (by rfl), AList.lookup_insert_ne (Ne.symm leaves), before]
          rfl
    · rw [if_neg enters]
      split
      · exact AList.lookup_insert_ne (Ne.symm leaves)
      · rw [AList.lookup_insert_ne (Ne.symm enters), AList.lookup_insert_ne (Ne.symm leaves)]

/-- The degrees count the edges out of the endpoints. -/
theorem lookup_countDegrees (visits : List (HighwayVisit F64)) (id : Int64) :
    (countDegrees visits).lookup id =
      if IsEndpoint visits id then some (outgoing visits id).length else none := by
  induction visits using List.reverseRecOn with
  | nil =>
      rw [if_neg (fun ⟨_, member, _⟩ => absurd member List.not_mem_nil)]
      exact AList.lookup_empty id
  | append_singleton visits v ih =>
      have counted : countDegrees (visits ++ [v]) = countVisit (countDegrees visits) v :=
        List.foldl_concat ..
      have before : ((countDegrees visits).lookup id).getD 0 = (outgoing visits id).length := by
        rw [ih]
        by_cases known : IsEndpoint visits id
        · rw [if_pos known, Option.getD_some]
        · rw [if_neg known, outgoing_of_not_endpoint known]
          rfl
      rw [counted, lookup_countVisit, before, outgoing_snoc]
      by_cases leaves : v.src = id
      · rw [if_pos leaves, if_pos leaves, if_pos (isEndpoint_snoc.mpr (Or.inr (Or.inl leaves))),
          List.length_append]
        rfl
      · rw [if_neg leaves, if_neg leaves, List.append_nil]
        by_cases enters : v.dst = id
        · rw [if_pos enters, if_pos (isEndpoint_snoc.mpr (Or.inr (Or.inr enters)))]
        · rw [if_neg enters, ih]
          refine if_congr ?_ rfl rfl
          rw [isEndpoint_snoc]
          exact (or_iff_left (not_or.mpr ⟨leaves, enters⟩)).symm

/-- The degrees of all nodes are as many as the edges. -/
theorem sum_degrees (visits : List (HighwayVisit F64)) :
    ((countDegrees visits).keys.map fun id => (outgoing visits id).length).sum =
      visits.length := by
  have counts : ∀ id, (outgoing visits id).length = (visits.map HighwayVisit.src).count id := by
    intro id
    rw [outgoing, List.length_map, List.count, List.countP_map, List.countP_eq_length_filter]
    rfl
  have known : ∀ id ∈ visits.map HighwayVisit.src, id ∈ (countDegrees visits).keys := by
    intro id member
    obtain ⟨v, inside, rfl⟩ := List.mem_map.mp member
    rw [← AList.mem_keys, ← AList.lookup_isSome, lookup_countDegrees,
      if_pos ⟨v, inside, Or.inl rfl⟩]
    rfl
  calc ((countDegrees visits).keys.map fun id => (outgoing visits id).length).sum
      = ((countDegrees visits).keys.map fun id =>
          (↑(visits.map HighwayVisit.src) : Multiset Int64).count id).sum := by
        simp only [counts, Multiset.coe_count]
    _ = ∑ id ∈ (countDegrees visits).keys.toFinset,
          (↑(visits.map HighwayVisit.src) : Multiset Int64).count id :=
        (List.sum_toFinset _ (countDegrees visits).keys_nodup).symm
    _ = (↑(visits.map HighwayVisit.src) : Multiset Int64).card :=
        Multiset.sum_count_eq_card fun id member => List.mem_toFinset.mpr (known id member)
    _ = visits.length := by rw [Multiset.coe_card, List.length_map]

/-! ## Slices of their own -/

/-- Slices stay apart where a slice is put in that lies apart from the others. -/
theorem apart_insert {slices : GoMap Int64 Slice} {id : Int64} {s : Slice}
    (apart : ∀ first second, first ≠ second → ∀ t ∈ slices.lookup first,
      ∀ u ∈ slices.lookup second, Apart t u)
    (others : ∀ other, other ≠ id → ∀ t ∈ slices.lookup other, Apart s t) :
    ∀ first second, first ≠ second → ∀ t ∈ (slices.insert id s).lookup first,
      ∀ u ∈ (slices.insert id s).lookup second, Apart t u := by
  intro first second differ t found u found'
  by_cases isFirst : first = id
  · subst isFirst
    rw [AList.lookup_insert, Option.mem_some_iff] at found
    rw [AList.lookup_insert_ne differ.symm] at found'
    exact found ▸ others second differ.symm u found'
  · rw [AList.lookup_insert_ne isFirst] at found
    by_cases isSecond : second = id
    · subst isSecond
      rw [AList.lookup_insert, Option.mem_some_iff] at found'
      exact found' ▸ (others first isFirst t found).symm
    · rw [AList.lookup_insert_ne isSecond] at found'
      exact apart first second differ t found u found'

namespace Adjacency

/-- Every node has a slice of its own, and none can grow into another one. -/
structure Laid (a : Adjacency) : Prop where
  valid : ∀ id, ∀ s ∈ a.adj.lookup id, Valid a.memory s
  apart : ∀ id other, id ≠ other → ∀ s ∈ a.adj.lookup id, ∀ t ∈ a.adj.lookup other, Apart s t

variable {a : Adjacency}

/-- **A change of one slice that leaves those lying apart is one of a single node.** -/
theorem Laid.update (laid : a.Laid) {id : Int64} {s : Slice} (held : s ∈ a.adj.lookup id)
    {memory : Memory (Edge F64)} {s' : Slice} (valid : Valid memory s')
    (others : ∀ t, Valid a.memory t → Apart s t →
      Valid memory t ∧ Apart s' t ∧ read memory t = read a.memory t) :
    Laid ⟨memory, a.adj.insert id s'⟩ ∧
      ∀ other, (⟨memory, a.adj.insert id s'⟩ : Adjacency).edges other =
        if other = id then read memory s' else a.edges other := by
  have kept : ∀ other, other ≠ id → ∀ t ∈ a.adj.lookup other,
      Valid memory t ∧ Apart s' t ∧ read memory t = read a.memory t := fun other differ t found =>
    others t (laid.valid other t found) (laid.apart id other differ.symm s held t found)
  have apart := apart_insert laid.apart fun other differ t found => (kept other differ t found).2.1
  refine ⟨⟨fun other t found => ?_, apart⟩, fun other => ?_⟩
  · by_cases same : other = id
    · subst same
      rw [AList.lookup_insert, Option.mem_some_iff] at found
      exact found ▸ valid
    · rw [AList.lookup_insert_ne same] at found
      exact (kept other same t found).1
  · rw [edges]
    by_cases same : other = id
    · subst same
      rw [if_pos rfl, AList.lookup_insert]
      rfl
    · rw [if_neg same, AList.lookup_insert_ne same, edges]
      cases found : a.adj.lookup other with
      | none => rfl
      | some t => exact (kept other same t found).2.2

/-- **Appending to the slice of one node leaves the edges of every other node.** -/
theorem Laid.append (laid : a.Laid) {id : Int64} {s : Slice} (held : s ∈ a.adj.lookup id)
    (values : List (Edge F64)) :
    Laid ⟨(append a.memory s values).1, a.adj.insert id (append a.memory s values).2⟩ ∧
      ∀ other, (⟨(append a.memory s values).1,
        a.adj.insert id (append a.memory s values).2⟩ : Adjacency).edges other =
          a.edges other ++ if other = id then values else [] := by
  obtain ⟨valid, grown⟩ := read_append (laid.valid id s held) values
  obtain ⟨laid', changed⟩ := laid.update held valid fun t other apart =>
    read_append_apart (laid.valid id s held) other apart values
  refine ⟨laid', fun other => (changed other).trans ?_⟩
  by_cases same : other = id
  · subst same
    rw [if_pos rfl, if_pos rfl, grown, edges, Option.mem_def.mp held]
    rfl
  · rw [if_neg same, if_neg same, List.append_nil]

end Adjacency

/-! ## The spans -/

/-- Some nodes have been given consecutive parts of the array. -/
structure Allotted (degree : Int64 → ℕ) (served : List Int64) (s : GoMap Int64 Slice × ℕ) :
    Prop where
  used : s.2 = (served.map degree).sum
  spans : ∀ id, ∀ slice ∈ s.1.lookup id, id ∈ served ∧ slice.array = 0 ∧
    slice.stop = slice.start ∧ slice.start ≤ slice.bound ∧ slice.bound ≤ s.2
  present : ∀ id ∈ served, 0 < degree id → (s.1.lookup id).isSome = true
  apart : ∀ id other, id ≠ other → ∀ slice ∈ s.1.lookup id, ∀ slice' ∈ s.1.lookup other,
    Apart slice slice'

theorem Allotted.step {degrees : GoMap Int64 ℕ} {served : List Int64}
    {s : GoMap Int64 Slice × ℕ} {id : Int64}
    (allotted : Allotted (fun id => (degrees.lookup id).getD 0) served s) (fresh : id ∉ served) :
    Allotted (fun id => (degrees.lookup id).getD 0) (served ++ [id]) (allotSpan degrees s id) := by
  have total : (List.map (fun id => (degrees.lookup id).getD 0) (served ++ [id])).sum =
      s.2 + (degrees.lookup id).getD 0 := by
    rw [List.map_append, List.sum_append, ← allotted.used]
    simp
  rw [allotSpan]
  split
  · next room =>
      have later : ∀ other, ∀ slice ∈ s.1.lookup other,
          Apart slice ⟨0, s.2, s.2, s.2 + (degrees.lookup id).getD 0⟩ := fun other slice found _ =>
        Or.inl (allotted.spans other slice found).2.2.2.2
      refine ⟨total.symm, fun other slice found => ?_, fun other member positive => ?_,
        apart_insert allotted.apart fun other _ slice found => (later other slice found).symm⟩
      · by_cases same : other = id
        · subst same
          rw [AList.lookup_insert, Option.mem_some_iff] at found
          subst found
          exact ⟨by simp, rfl, rfl, Nat.le_add_right _ _, le_refl _⟩
        · rw [AList.lookup_insert_ne same] at found
          obtain ⟨member, array, empty, ordered, bounded⟩ := allotted.spans other slice found
          exact ⟨List.mem_append_left _ member, array, empty, ordered,
            bounded.trans (Nat.le_add_right _ _)⟩
      · by_cases same : other = id
        · subst same
          rw [AList.lookup_insert]
          rfl
        · rw [AList.lookup_insert_ne same]
          refine allotted.present other ?_ positive
          exact (List.mem_append.mp member).resolve_right (by simpa using same)
  · next none_ =>
      have nothing : (degrees.lookup id).getD 0 = 0 := Nat.eq_zero_of_not_pos none_
      refine ⟨by rw [total, nothing, Nat.add_zero], fun other slice found => ?_,
        fun other member positive => ?_, allotted.apart⟩
      · obtain ⟨member, rest⟩ := allotted.spans other slice found
        exact ⟨List.mem_append_left _ member, rest⟩
      · refine allotted.present other ((List.mem_append.mp member).resolve_right fun last => ?_)
          positive
        rw [List.mem_singleton.mp last] at positive
        exact none_ positive

theorem Allotted.run {degrees : GoMap Int64 ℕ} (ids : List Int64) :
    ∀ {served : List Int64} {s : GoMap Int64 Slice × ℕ},
      Allotted (fun id => (degrees.lookup id).getD 0) served s → (served ++ ids).Nodup →
      Allotted (fun id => (degrees.lookup id).getD 0) (served ++ ids)
        (ids.foldl (allotSpan degrees) s) := by
  induction ids with
  | nil =>
      intro served s allotted _
      rwa [List.append_nil]
  | cons id ids ih =>
      intro served s allotted distinct
      have fresh : id ∉ served := fun member =>
        List.disjoint_of_nodup_append distinct member List.mem_cons_self
      have rest := ih (allotted.step fresh) (by rwa [List.append_assoc])
      rwa [List.append_assoc] at rest

/-- **Every node gets an empty slice of its own in the one array.** -/
theorem laid_allocate (order : IdOrder) (visits : List (HighwayVisit F64)) :
    (allocate order (countDegrees visits) visits.length).Laid ∧
      (∀ id, (allocate order (countDegrees visits) visits.length).edges id = []) ∧
      (∀ v ∈ visits, ((allocate order (countDegrees visits) visits.length).adj.lookup
        v.src).isSome = true) ∧
      ∀ id, ((allocate order (countDegrees visits) visits.length).adj.lookup id).isSome = true →
        IsEndpoint visits id := by
  have distinct : ([] ++ order.shuffle (countDegrees visits).keys).Nodup :=
    (order.perm _).nodup_iff.mpr (countDegrees visits).keys_nodup
  have start : Allotted (fun id => ((countDegrees visits).lookup id).getD 0) [] (∅, 0) := by
    refine ⟨rfl, fun id slice found => ?_, fun id member => absurd member List.not_mem_nil,
      fun id _ _ slice found => ?_⟩
    · rw [AList.lookup_empty] at found
      cases found
    · rw [AList.lookup_empty] at found
      cases found
  have allotted := start.run (order.shuffle (countDegrees visits).keys) distinct
  rw [List.nil_append] at allotted
  have degree : ∀ id, ((countDegrees visits).lookup id).getD 0 = (outgoing visits id).length := by
    intro id
    rw [lookup_countDegrees]
    by_cases known : IsEndpoint visits id
    · rw [if_pos known, Option.getD_some]
    · rw [if_neg known, outgoing_of_not_endpoint known]
      rfl
  have used := allotted.used
  rw [((order.perm _).map _).sum_eq] at used
  simp only [degree] at used
  rw [sum_degrees] at used
  have valid : ∀ id, ∀ slice ∈ (allocate order (countDegrees visits) visits.length).adj.lookup id,
      Valid (allocate order (countDegrees visits) visits.length).memory slice ∧
        slice.stop = slice.start := by
    intro id slice found
    obtain ⟨-, array, empty, ordered, bounded⟩ := allotted.spans id slice found
    rw [used] at bounded
    refine ⟨⟨?_, empty.ge, empty.trans_le ordered, ?_⟩, empty⟩
    · rw [array]
      exact Nat.one_pos
    · rw [cells, array]
      exact bounded.trans_eq List.length_replicate.symm
  have referenced : ∀ id, id ∈ order.shuffle (countDegrees visits).keys ↔
      IsEndpoint visits id := by
    intro id
    rw [(order.perm _).mem_iff, ← AList.mem_keys, ← AList.lookup_isSome, lookup_countDegrees]
    split <;> simp_all
  refine ⟨⟨fun id slice found => (valid id slice found).1, allotted.apart⟩, fun id => ?_,
    fun v member => ?_, fun id held => ?_⟩
  · rw [Adjacency.edges]
    cases found : (allocate order (countDegrees visits) visits.length).adj.lookup id with
    | none => rfl
    | some slice =>
        have empty := (valid id slice found).2
        change Slices.read _ slice = []
        rw [Slices.read, empty]
        exact List.drop_eq_nil_of_le (List.length_take_le _ _)
  · refine allotted.present v.src ((referenced v.src).mpr ⟨v, member, Or.inl rfl⟩) ?_
    rw [degree, outgoing, List.length_map]
    exact List.length_pos_of_mem (List.mem_filter.mpr ⟨member, by simp⟩)
  · obtain ⟨slice, found⟩ := Option.isSome_iff_exists.mp held
    exact (referenced id).mp (allotted.spans id slice found).1

/-! ## The compaction -/

/-- What the loop has done with the first cells: those kept are the first of each edge. -/
structure Compacting (edges : List (Edge F64)) (large : Bool) (i : ℕ) (s : Compaction) :
    Prop where
  size : s.cells.length = edges.length
  ahead : s.kept ≤ i
  kept : s.cells.take s.kept = firsts id [] (edges.take i)
  rest : s.cells.drop i = edges.drop i
  seen : large = true → ∀ e, e ∈ s.seen ↔ e ∈ edges.take i

theorem Compacting.step {edges : List (Edge F64)} {large : Bool} {i : ℕ} {s : Compaction}
    (compacting : Compacting edges large i s) (inside : i < edges.length) :
    Compacting edges large (i + 1) (compactCell large s i) := by
  obtain ⟨size, ahead, kept, rest, seen⟩ := compacting
  have here : s.cells[i]? = some edges[i] := by
    have first := congrArg (fun l => l[0]?) rest
    simp only [List.getElem?_drop, Nat.add_zero] at first
    exact first.trans (List.getElem?_eq_getElem inside)
  have next : edges.take (i + 1) = edges.take i ++ [edges[i]] :=
    (List.take_concat_get' edges i inside).symm
  have duplicate : (if large then edges[i] ∈ s.seen else edges[i] ∈ s.cells.take s.kept) ↔
      edges[i] ∈ edges.take i := by
    cases large with
    | true => exact seen rfl _
    | false =>
        rw [kept]
        exact mem_firsts_id (edges.take i)
  have added : ∀ e, large = true →
      (e ∈ (if large then edges[i] :: s.seen else s.seen) ↔ e ∈ edges.take (i + 1)) := by
    intro e isLarge
    rw [if_pos isLarge, next, List.mem_cons, List.mem_append, List.mem_singleton, seen isLarge,
      or_comm]
  have later : s.cells.drop (i + 1) = edges.drop (i + 1) := by
    rw [← List.drop_drop, rest, List.drop_drop]
  have firstOf : firsts id [] (edges.take (i + 1)) = firsts id [] (edges.take i) ++
      if edges[i] ∈ edges.take i then [] else [edges[i]] := by
    rw [next, firsts_snoc, List.map_id]
    rfl
  simp only [compactCell, here]
  by_cases old : edges[i] ∈ edges.take i
  · rw [if_pos (duplicate.mpr old)]
    refine ⟨size, Nat.le_succ_of_le ahead, ?_, later, fun isLarge e => added e isLarge⟩
    rw [kept, firstOf, if_pos old, List.append_nil]
  · rw [if_neg (mt duplicate.mp old)]
    refine ⟨by rw [List.length_set, size], Nat.succ_le_succ ahead, ?_, ?_,
      fun isLarge e => added e isLarge⟩
    · have room : s.kept < (s.cells.set s.kept edges[i]).length := by
        rw [List.length_set]
        omega
      rw [firstOf, if_neg old, ← kept, ← List.take_concat_get' _ _ room,
        List.take_set_of_le (le_refl _), List.getElem_set_self]
    · -- The cell that is written lies at or before the one that was read.
      rw [List.drop_set_of_lt (Nat.lt_succ_of_le ahead), later]

/-- **A compacted slice begins with the first of each of its edges.** -/
theorem compact_eq (edges : List (Edge F64)) :
    (compact edges).cells.length = edges.length ∧ (compact edges).kept ≤ edges.length ∧
      (compact edges).cells.take (compact edges).kept = firsts id [] edges := by
  have run : ∀ n ≤ edges.length, Compacting edges (8 < edges.length) n
      ((List.range n).foldl (compactCell (8 < edges.length)) ⟨edges, 0, []⟩) := by
    intro n
    induction n with
    | zero => exact fun _ => ⟨rfl, le_refl _, rfl, rfl, fun _ e => Iff.rfl⟩
    | succ n ih =>
        intro inside
        rw [List.range_succ, List.foldl_concat]
        exact (ih (Nat.le_of_succ_le inside)).step inside
  obtain ⟨size, ahead, kept, -, -⟩ := run edges.length (le_refl _)
  rw [List.take_length] at kept
  exact ⟨size, ahead, kept⟩

theorem firsts_short {edges : List (Edge F64)} (short : edges.length < 2) :
    firsts id [] edges = edges := by
  match edges, short with
  | [], _ => rfl
  | [e], _ => rfl

/-- **Compacting one node leaves the first of each of its edges, and all other nodes.** -/
theorem deduplicateNode_spec {s : Adjacency × ℕ} (laid : s.1.Laid) (node : Int64) :
    (deduplicateNode s node).1.Laid ∧ ∀ other, (deduplicateNode s node).1.edges other =
      if other = node then firsts id [] (s.1.edges other) else s.1.edges other := by
  rw [deduplicateNode]
  cases held : s.1.adj.lookup node with
  | none =>
      refine ⟨laid, fun other => ?_⟩
      by_cases same : other = node
      · subst same
        rw [if_pos rfl, Adjacency.edges, held]
        rfl
      · rw [if_neg same]
  | some slice =>
      have valid := laid.valid node slice held
      have edges : s.1.edges node = read s.1.memory slice := by
        rw [Adjacency.edges, held]
        rfl
      have unchanged : firsts id [] (s.1.edges node) = s.1.edges node → s.1.Laid ∧
          ∀ other, s.1.edges other =
            if other = node then firsts id [] (s.1.edges other) else s.1.edges other := by
        refine fun same => ⟨laid, fun other => ?_⟩
        split
        next here =>
          rw [here, same]
        next => rfl
      obtain ⟨size, within, kept⟩ := compact_eq (read s.1.memory slice)
      dsimp only
      split
      next short => exact unchanged (edges ▸ firsts_short short)
      next =>
        split
        next fewer =>
          have length := length_read valid
          have cleared : ((compact (read s.1.memory slice)).cells.take
              (compact (read s.1.memory slice)).kept ++ List.replicate
                ((read s.1.memory slice).length - (compact (read s.1.memory slice)).kept)
                zeroEdge).length = slice.length := by
            rw [List.length_append, List.length_take, List.length_replicate, size]
            omega
          have fits : (compact (read s.1.memory slice)).kept ≤ slice.length := by omega
          obtain ⟨valid', held'⟩ := read_overwrite valid cleared fits
          have inside : slice.start + (compact (read s.1.memory slice)).kept ≤ slice.bound := by
            have ordered := valid.ordered
            have bounded := valid.bounded
            rw [Slice.length] at length
            omega
          obtain ⟨laid', changed⟩ := laid.update held valid' fun t other apart =>
            have left := read_overwrite_apart valid other apart cleared
            ⟨left.1, apart.sub inside, left.2⟩
          refine ⟨laid', fun other => (changed other).trans ?_⟩
          split
          next here =>
            rw [here, edges, held', ← kept]
            refine List.take_left' ?_
            rw [List.length_take, size]
            omega
          next => rfl
        next all =>
          refine unchanged ?_
          rw [edges]
          refine (firsts_sublist _ _).eq_of_length ?_
          rw [← kept, List.length_take, size]
          omega

theorem deduplicate_spec (ids : List Int64) : ∀ {s : Adjacency × ℕ}, s.1.Laid → ids.Nodup →
    (ids.foldl deduplicateNode s).1.Laid ∧ ∀ other, (ids.foldl deduplicateNode s).1.edges other =
      if other ∈ ids then firsts id [] (s.1.edges other) else s.1.edges other := by
  induction ids with
  | nil => exact fun laid _ => ⟨laid, fun other => (if_neg List.not_mem_nil).symm⟩
  | cons node ids ih =>
      intro s laid distinct
      obtain ⟨fresh, later⟩ := List.nodup_cons.mp distinct
      obtain ⟨laid', here⟩ := deduplicateNode_spec laid node
      obtain ⟨laid'', rest⟩ := ih laid' later
      refine ⟨laid'', fun other => (rest other).trans ?_⟩
      by_cases same : other = node
      · rw [same, if_neg fresh, if_pos List.mem_cons_self, here, if_pos rfl]
      · rw [here, if_neg same]
        exact if_congr (List.mem_cons.trans (or_iff_right same)).symm rfl rfl

/-- Filling the slices adds the edges of every node in their order. -/
theorem fill_spec (visits : List (HighwayVisit F64)) : ∀ {a : Adjacency}, a.Laid →
    (∀ v ∈ visits, (a.adj.lookup v.src).isSome = true) →
    (visits.foldl addEdge a).Laid ∧
      ∀ id, (visits.foldl addEdge a).edges id = a.edges id ++ outgoing visits id := by
  induction visits with
  | nil => exact fun laid _ => ⟨laid, fun id => (List.append_nil _).symm⟩
  | cons v visits ih =>
      intro a laid present
      obtain ⟨slice, held⟩ := Option.isSome_iff_exists.mp (present v List.mem_cons_self)
      obtain ⟨laid', grown⟩ := laid.append held [v.edge]
      have added : addEdge a v = ⟨(append a.memory slice [v.edge]).1,
          a.adj.insert v.src (append a.memory slice [v.edge]).2⟩ := by
        rw [addEdge, held, Option.getD_some]
      have present' : ∀ w ∈ visits, ((addEdge a v).adj.lookup w.src).isSome = true := by
        intro w member
        rw [added]
        by_cases same : w.src = v.src
        · rw [same, AList.lookup_insert]
          rfl
        · rw [AList.lookup_insert_ne same]
          exact present w (List.mem_cons_of_mem _ member)
      rw [← added] at laid' grown
      obtain ⟨laid'', rest⟩ := ih laid' present'
      refine ⟨laid'', fun id => ?_⟩
      rw [List.foldl_cons, rest, grown, List.append_assoc, outgoing, outgoing]
      by_cases same : id = v.src
      · rw [if_pos same, List.filter_cons_of_pos (by simpa using same.symm)]
        rfl
      · rw [if_neg same, List.filter_cons_of_neg (by simpa using Ne.symm same)]
        rfl

/-- **No slice of the importer can grow into another one.** -/
theorem laid_adjacency (allotOrder dedupOrder : IdOrder) (visits : List (HighwayVisit F64)) :
    (adjacency allotOrder dedupOrder visits).Laid := by
  obtain ⟨laid, -, present, -⟩ := laid_allocate allotOrder visits
  obtain ⟨filled, -⟩ := fill_spec visits laid present
  exact (deduplicate_spec _ filled ((dedupOrder.perm _).nodup_iff.mpr (AList.keys_nodup _))).1

/-- **Every node has the first occurrences of its edges**, in the order of the calls. -/
theorem edges_adjacency (allotOrder dedupOrder : IdOrder) (visits : List (HighwayVisit F64))
    (node : Int64) : (adjacency allotOrder dedupOrder visits).edges node =
      firsts id [] (outgoing visits node) := by
  obtain ⟨laid, empty, present, -⟩ := laid_allocate allotOrder visits
  obtain ⟨filled, edges⟩ := fill_spec visits laid present
  have edges := edges node
  rw [empty, List.nil_append] at edges
  have compacted := (deduplicate_spec (dedupOrder.shuffle (visits.foldl addEdge
    (allocate allotOrder (countDegrees visits) visits.length)).adj.keys) (s := (_, 0)) filled
      ((dedupOrder.perm _).nodup_iff.mpr (AList.keys_nodup _))).2 node
  refine compacted.trans ?_
  split
  next => rw [edges]
  next missing =>
    rw [(dedupOrder.perm _).mem_iff, ← AList.mem_keys, ← AList.lookup_isSome] at missing
    have none_ : (visits.foldl addEdge
        (allocate allotOrder (countDegrees visits) visits.length)).edges node = [] := by
      rw [Adjacency.edges, Option.not_isSome_iff_eq_none.mp missing]
      rfl
    rw [← edges, none_]
    rfl

theorem slice_deduplicate {node : Int64} (ids : List Int64) : ∀ {s : Adjacency × ℕ},
    ((ids.foldl deduplicateNode s).1.adj.lookup node).isSome = true →
    (s.1.adj.lookup node).isSome = true := by
  induction ids with
  | nil => exact fun held => held
  | cons id ids ih =>
      intro s held
      have left := ih held
      rw [deduplicateNode] at left
      cases found : s.1.adj.lookup id with
      | none =>
          rw [found] at left
          exact left
      | some slice =>
          by_cases same : node = id
          · rw [same, found]
            rfl
          · simp only [found] at left
            split at left
            · exact left
            split at left
            · rwa [AList.lookup_insert_ne same] at left
            · exact left

theorem slice_fill {node : Int64} (visits : List (HighwayVisit F64)) : ∀ {a : Adjacency},
    ((visits.foldl addEdge a).adj.lookup node).isSome = true →
    (a.adj.lookup node).isSome = true ∨ ∃ v ∈ visits, v.src = node := by
  induction visits with
  | nil => exact fun held => Or.inl held
  | cons v visits ih =>
      intro a held
      rcases ih held with before | ⟨w, member, here⟩
      · by_cases same : v.src = node
        · exact Or.inr ⟨v, List.mem_cons_self, same⟩
        · rw [addEdge, AList.lookup_insert_ne (Ne.symm same)] at before
          exact Or.inl before
      · exact Or.inr ⟨w, List.mem_cons_of_mem _ member, here⟩

/-- Only nodes that edges leave or enter have slices. -/
theorem endpoint_of_slice {allotOrder dedupOrder : IdOrder} {visits : List (HighwayVisit F64)}
    {node : Int64}
    (held : ((adjacency allotOrder dedupOrder visits).adj.lookup node).isSome = true) :
    IsEndpoint visits node := by
  rcases slice_fill visits (slice_deduplicate _ held) with before | ⟨v, member, here⟩
  · exact (laid_allocate allotOrder visits).2.2.2 node before
  · exact ⟨v, member, Or.inl here⟩

end OsmMini.Core

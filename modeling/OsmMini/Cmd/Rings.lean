import OsmMini.Cmd.Geo.Index
import OsmMini.Foundations.ClosedLines
import OsmMini.Foundations.Rounds

/-!
# Rings of an area

The ways of an area are joined to rings. A chain begins with the first way that is not used yet
and goes on with ways that start where it stops. A chain that comes back to its start is a ring,
any other chain is given up.

A way that was recorded in the other direction does not start where the chain stops, and ways
are never turned. So a ring is found exactly when all of its ways go the same way around, and
what is returned are the rings of which this holds (`assembleRingsFromWays_oneWay`).
-/

set_option autoImplicit false

namespace OsmMini.Cmd.Rings

open OsmMini.Core OsmMini.Foundations Geo

section Assemble

variable {K T : Type} [DecidableEq K]

/-- The nodes of a way. -/
def nodeIDs (ways : List (Way T)) (i : ℕ) : List Int64 := (ways[i]?.map Way.nodeIDs).getD []

/-- The ways that start at each node, in their order. The map of the ends is built as well but
nothing reads it. -/
def startMap (ways : List (Way T)) : GoMap Int64 (List ℕ) :=
  (List.range ways.length).foldl (fun starts i =>
    match (nodeIDs ways i).head? with
    | none => starts
    | some start => push starts start i) ∅

/-- The first way that starts at a node and is not used. -/
def nextIdx (starts : GoMap Int64 (List ℕ)) (used : List Bool) (curEnd : Int64) : Option ℕ :=
  (bucket starts curEnd).find? fun cand => used[cand]? = some false

theorem count_set_lt {used : List Bool} {i : ℕ} (unused : used[i]? = some false) :
    (used.set i true).count false < used.count false := by
  obtain ⟨inside, unused⟩ := List.getElem?_eq_some_iff.mp unused
  have positive : 0 < used.count false :=
    List.count_pos_iff.mpr (unused ▸ List.getElem_mem inside)
  rw [List.count_set inside, unused]
  simpa using positive

theorem unused_of_nextIdx {starts : GoMap Int64 (List ℕ)} {used : List Bool} {curEnd : Int64}
    {next : ℕ} (found : nextIdx starts used curEnd = some next) : used[next]? = some false := by
  have kept := List.find?_some found
  exact of_decide_eq_true kept

/-- Add ways to a chain as long as one starts where it stops. -/
def followChain (ways : List (Way T)) (starts : GoMap Int64 (List ℕ)) (used : List Bool)
    (chain : List ℕ) (curEnd : Int64) : List Bool × List ℕ :=
  match _found : nextIdx starts used curEnd with
  | none => (used, chain)
  | some next =>
    followChain ways starts (used.set next true) (chain ++ [next]) ((nodeIDs ways next).getLastD 0)
termination_by used.count false
decreasing_by exact count_set_lt (unused_of_nextIdx _found)

/-- Come back to the first point. -/
def closeRing (coords : List (Coord K)) : List (Coord K) :=
  if 2 < coords.length ∧ coords.head? ≠ coords.getLast? then coords ++ coords.head?.toList
  else coords

/-- Keep the coordinates of a chain that comes back to its start. -/
def finishRing (ways : List (Way T)) (nodes : GoMap Int64 (Coord K))
    (rings : List (List (Coord K))) (followed : List Bool × List ℕ) :
    List Bool × List (List (Coord K)) :=
  let (used, chain) := followed
  let firstStart := (nodeIDs ways (chain.headD 0)).headD 0
  let lastEnd := (nodeIDs ways (chain.getLastD 0)).getLastD 0
  if firstStart = lastEnd then
    let coords := closeRing (chain.flatMap fun idx => (nodeIDs ways idx).filterMap nodes.lookup)
    if 2 < coords.length then (used, rings ++ [coords]) else (used, rings)
  else (used, rings)

theorem finishRing_fst (ways : List (Way T)) (nodes : GoMap Int64 (Coord K))
    (rings : List (List (Coord K))) (followed : List Bool × List ℕ) :
    (finishRing ways nodes rings followed).1 = followed.1 := by
  rw [finishRing]
  split
  · dsimp only
    split
    · rfl
    · rfl
  · rfl

/-- One round of the loop over the ways. -/
def addRing (ways : List (Way T)) (nodes : GoMap Int64 (Coord K))
    (state : List Bool × List (List (Coord K))) (i : ℕ) : List Bool × List (List (Coord K)) :=
  if state.1[i]? ≠ some false ∨ nodeIDs ways i = [] then state
  else
    finishRing ways nodes state.2 (followChain ways (startMap ways) (state.1.set i true) [i]
      ((nodeIDs ways i).getLastD 0))

def assembleRingsFromWays (ways : List (Way T)) (nodes : GoMap Int64 (Coord K)) :
    List (List (Coord K)) :=
  ((List.range ways.length).foldl (addRing ways nodes)
    (List.replicate ways.length false, [])).2

end Assemble

/-! ## Cut rings -/

/-- A piece of a ring, with its nodes in the order of the ring. -/
structure Piece where
  nodes : List Int64
  along : Bool

/-- The nodes as they are recorded. -/
def Piece.given (p : Piece) : List Int64 := if p.along then p.nodes else p.nodes.reverse

/-- A ring of different nodes, cut at some of them. Each piece begins at the node where the last
one ends. -/
structure CutRing where
  ring : List Int64
  pieces : List Piece
  distinct : ring.Nodup
  long : 3 ≤ ring.length
  whole : (pieces.flatMap fun p => p.nodes.dropLast).IsRotated ring
  cut : ∀ p ∈ pieces, 2 ≤ p.nodes.length
  joined : (pieces : Cycle Piece).Chain fun p q => p.nodes.getLast? = q.nodes.head?

/-- All ways of a ring go the same way around. -/
def CutRing.OneWay (c : CutRing) : Prop :=
  (∀ p ∈ c.pieces, p.along = true) ∨ ∀ p ∈ c.pieces, ¬p.along = true

instance (c : CutRing) : Decidable c.OneWay := inferInstanceAs (Decidable (_ ∨ _))

/-- Ways are the pieces of rings without common nodes, in any order. -/
structure CutInto {T : Type} (rings : List CutRing) (ways : List (Way T)) : Prop where
  apart : rings.Pairwise fun c d => c.ring.Disjoint d.ring
  pieces : (ways.map Way.nodeIDs).Perm ((rings.flatMap CutRing.pieces).map Piece.given)

/-! ## The map of starts -/

section Chains

variable {T : Type} {ways : List (Way T)}

theorem mem_startMap {v : Int64} {i : ℕ} :
    i ∈ bucket (startMap ways) v ↔ i < ways.length ∧ (nodeIDs ways i).head? = some v := by
  have filed : startMap ways = ((List.range ways.length).filterMap fun i =>
      (nodeIDs ways i).head?.map (·, i)).foldl (fun starts entry => push starts entry.1 entry.2) ∅ := by
    rw [List.foldl_filterMap, startMap]
    refine congrFun (congrFun (congrArg List.foldl (funext₂ fun starts i => ?_)) _) _
    cases (nodeIDs ways i).head? with
    | none => rfl
    | some start => rfl
  rw [filed, bucket_foldl_push, bucket_empty, List.nil_append, List.mem_map]
  constructor
  · rintro ⟨⟨start, j⟩, member, rfl⟩
    obtain ⟨known, same⟩ := List.mem_filter.mp member
    obtain ⟨k, inside, keyed⟩ := List.mem_filterMap.mp known
    obtain ⟨start', first, together⟩ := Option.map_eq_some_iff.mp keyed
    obtain ⟨rfl, rfl⟩ := Prod.mk.inj together
    exact ⟨List.mem_range.mp inside, of_decide_eq_true same ▸ first⟩
  · rintro ⟨inside, first⟩
    refine ⟨(v, i), List.mem_filter.mpr ⟨List.mem_filterMap.mpr ⟨i, List.mem_range.mpr inside, ?_⟩,
      decide_eq_true rfl⟩, rfl⟩
    rw [first]
    rfl

/-- A way is not used yet. -/
def Free (used : List Bool) (i : ℕ) : Prop := used[i]? = some false

theorem free_set {used : List Bool} {i j : ℕ} : Free (used.set i true) j ↔ Free used j ∧ j ≠ i := by
  rw [Free, Free, List.getElem?_set]
  by_cases same : i = j
  · subst same
    simp
  · simp [same, Ne.symm same]

theorem nextIdx_eq_some {used : List Bool} {v : Int64} {next : ℕ}
    (found : nextIdx (startMap ways) used v = some next) :
    Free used next ∧ next < ways.length ∧ (nodeIDs ways next).head? = some v :=
  ⟨unused_of_nextIdx found, mem_startMap.mp (List.mem_of_find?_eq_some found)⟩

theorem nextIdx_eq_none {used : List Bool} {v : Int64}
    (found : nextIdx (startMap ways) used v = none) {i : ℕ} (inside : i < ways.length)
    (starts : (nodeIDs ways i).head? = some v) : ¬Free used i := by
  intro free
  have refused := List.find?_eq_none.mp found i (mem_startMap.mpr ⟨inside, starts⟩)
  exact refused (decide_eq_true free)

/-- **A chain is followed to its end**: over ways that were not used, each of which starts where
the last one stops, until no way that starts there is left. -/
theorem followChain_spec (used : List Bool) (chain : List ℕ) (curEnd : Int64) {x : ℕ}
    (stops : (nodeIDs ways x).getLast? = some curEnd) :
    ∃ ext y, (followChain ways (startMap ways) used chain curEnd).2 = chain ++ ext ∧
      (x :: ext).getLast? = some y ∧ ext.Nodup ∧
      (∀ i ∈ ext, Free used i ∧ i < ways.length) ∧
      (x :: ext).IsChain (fun i j => (nodeIDs ways i).getLast? = (nodeIDs ways j).head?) ∧
      (∀ i, Free (followChain ways (startMap ways) used chain curEnd).1 i ↔
        Free used i ∧ i ∉ ext) ∧
      ∀ i < ways.length, (nodeIDs ways i).head? = (nodeIDs ways y).getLast? →
        ¬Free (followChain ways (startMap ways) used chain curEnd).1 i := by
  induction used, chain, curEnd using followChain.induct ways (startMap ways) generalizing x with
  | case1 used chain curEnd found =>
      have done : followChain ways (startMap ways) used chain curEnd = (used, chain) := by
        rw [followChain]
        split
        · rfl
        · rename_i next found'
          rw [found] at found'
          cases found'
      rw [done]
      refine ⟨[], x, (List.append_nil chain).symm, rfl, .nil, by simp, .singleton x, by simp, ?_⟩
      intro i inside starts
      exact nextIdx_eq_none found inside (starts.trans stops)
  | case2 used chain curEnd next found ih =>
      have step : followChain ways (startMap ways) used chain curEnd =
          followChain ways (startMap ways) (used.set next true) (chain ++ [next])
            ((nodeIDs ways next).getLastD 0) := by
        rw [followChain]
        split
        · rename_i found'
          rw [found] at found'
          cases found'
        · rename_i next' found'
          rw [found] at found'
          rw [Option.some.inj found']
      obtain ⟨free, inside, starts⟩ := nextIdx_eq_some found
      have ends : (nodeIDs ways next).getLast? = some ((nodeIDs ways next).getLastD 0) := by
        cases nodes : nodeIDs ways next with
        | nil =>
            rw [nodes] at starts
            cases starts
        | cons v rest => rw [List.getLastD_cons, List.getLast?_cons, List.getLastD_eq_getLast?]
      rw [step]
      obtain ⟨ext, y, followed, last, distinct, unused, linked, used', stuck⟩ := ih ends
      have fresh : next ∉ ext := fun member => (free_set.mp (unused next member).1).2 rfl
      refine ⟨next :: ext, y, ?_, ?_, List.nodup_cons.mpr ⟨fresh, distinct⟩, ?_, ?_, ?_, stuck⟩
      · rw [followed, List.append_assoc]
        rfl
      · rw [List.getLast?_cons_cons]
        exact last
      · intro i member
        rcases List.mem_cons.mp member with rfl | later
        · exact ⟨free, inside⟩
        · exact ⟨(free_set.mp (unused i later).1).1, (unused i later).2⟩
      · exact List.isChain_cons_cons.mpr ⟨stops.trans starts.symm, linked⟩
      · intro i
        rw [used', free_set, List.mem_cons, not_or, and_assoc]

end Chains

/-! ## The pieces of the rings -/

namespace CutRing

variable (c : CutRing)

theorem filled {p : Piece} (member : p ∈ c.pieces) : p.nodes ≠ [] := by
  intro none
  have long := c.cut p member
  rw [none] at long
  exact absurd long (Nat.not_succ_le_zero 1)

/-- The pieces as lists of nodes. -/
def parts : List (List Int64) := c.pieces.map Piece.nodes

theorem parts_filled {p : List Int64} (member : p ∈ c.parts) : p ≠ [] := by
  obtain ⟨piece, known, rfl⟩ := List.mem_map.mp member
  exact c.filled known

theorem parts_joined :
    (c.parts : Cycle (List Int64)).Chain fun p q => p.getLast? = q.head? :=
  (Cycle.chain_map Piece.nodes (s := (c.pieces : Cycle Piece))).mpr c.joined

theorem parts_whole : (c.parts.flatMap List.dropLast).IsRotated c.ring := by
  rw [parts, List.flatMap_map]
  exact c.whole

/-- Joining the pieces gives the ring again. -/
theorem flatten_parts : SameRing c.parts.flatten c.ring := by
  refine (SameRing.flatten (fun p member => ?_) c.parts_joined).trans (.rotated c.parts_whole)
  obtain ⟨piece, known, rfl⟩ := List.mem_map.mp member
  exact c.cut piece known

theorem mem_ring {p : Piece} (member : p ∈ c.pieces) {v : Int64} (inside : v ∈ p.nodes) :
    v ∈ c.ring := by
  rw [← c.flatten_parts.mem_iff, List.mem_flatten]
  exact ⟨p.nodes, List.mem_map_of_mem member, inside⟩

theorem pieces_ne_nil : c.pieces ≠ [] := by
  intro none
  have length := c.whole.perm.length_eq
  have long := c.long
  rw [none, List.flatMap_nil, List.length_nil] at length
  omega

end CutRing

/-- Where the pieces begin, in all rings, are different nodes, and so are their ends. -/
theorem pieces_apart {rings : List CutRing}
    (apart : rings.Pairwise fun c d => c.ring.Disjoint d.ring) :
    ((rings.flatMap CutRing.pieces).flatMap fun p => p.nodes.dropLast).Nodup ∧
      ((rings.flatMap CutRing.pieces).flatMap fun p => p.nodes.tail).Nodup := by
  have dropped : ∀ c : CutRing, (c.pieces.flatMap fun p => p.nodes.dropLast).Perm c.ring :=
    fun c => c.whole.perm
  have ended : ∀ c : CutRing, (c.pieces.flatMap fun p => p.nodes.tail).Perm c.ring := by
    intro c
    have same := tails_perm (fun p member => c.parts_filled member) c.parts_joined
    rw [CutRing.parts, List.flatMap_map, List.flatMap_map] at same
    exact same.trans (dropped c)
  have all : ∀ f : Piece → List Int64, (∀ c : CutRing, (c.pieces.flatMap f).Perm c.ring) →
      ((rings.flatMap CutRing.pieces).flatMap f).Nodup := by
    intro f same
    rw [List.flatMap_assoc, List.nodup_flatMap]
    refine ⟨fun c _ => (same c).nodup_iff.mpr c.distinct, apart.imp fun {c d} apart v here there => ?_⟩
    exact apart ((same c).mem_iff.mp here) ((same d).mem_iff.mp there)
  exact ⟨all _ dropped, all _ ended⟩

/-- Two elements that share a value are the same if all values are different. -/
theorem eq_of_shared {α β : Type} {l : List α} {f : α → List β} (distinct : (l.flatMap f).Nodup)
    {a b : α} (inA : a ∈ l) (inB : b ∈ l) {v : β} (here : v ∈ f a) (there : v ∈ f b) : a = b := by
  by_contra different
  have pairs := (List.nodup_flatMap.mp distinct).2
  have symmetric : Std.Symm (Function.onFun List.Disjoint f) := ⟨fun a b apart => apart.symm⟩
  exact pairs.forall inA inB different here there

section Turning

variable {rings : List CutRing}

/-- The recorded pieces are the arcs of the rings, some of which are turned. -/
theorem turned_pieces (apart : rings.Pairwise fun c d => c.ring.Disjoint d.ring) :
    Turned (fun p : Piece => p.nodes.head?) (fun p => p.nodes.getLast?) (fun p => p.given.head?)
      (fun p => p.given.getLast?) (fun p => p.along = true)
      (fun p => p ∈ rings.flatMap CutRing.pieces) := by
  obtain ⟨firsts, lasts⟩ := pieces_apart apart
  have cut : ∀ p ∈ rings.flatMap CutRing.pieces, 2 ≤ p.nodes.length := by
    intro p member
    obtain ⟨c, -, known⟩ := List.mem_flatMap.mp member
    exact c.cut p known
  have first_mem : ∀ {l : List Int64} {v}, 2 ≤ l.length → l.head? = some v → v ∈ l.dropLast := by
    intro l v long first
    match l, long with
    | a :: b :: l, _ =>
      obtain rfl := Option.some.inj first
      rw [List.dropLast_cons_cons]
      exact List.mem_cons_self
  have last_mem : ∀ {l : List Int64} {v}, 2 ≤ l.length → l.getLast? = some v → v ∈ l.tail := by
    intro l v long last
    match l, long with
    | a :: b :: l, _ =>
      rw [List.getLast?_cons_cons] at last
      exact List.mem_of_getLast? last
  refine ⟨?_, ?_, ?_, ?_, ?_, ?_⟩
  · intro p _ along
    rw [Piece.given, if_pos along]
  · intro p _ along
    rw [Piece.given, if_pos along]
  · intro p _ against
    rw [Piece.given, if_neg against, List.head?_reverse]
  · intro p _ against
    rw [Piece.given, if_neg against, List.getLast?_reverse]
  · intro p inP q inQ same
    obtain ⟨v, first⟩ : ∃ v, p.nodes.head? = some v :=
      ⟨_, List.head?_eq_some_head (List.ne_nil_of_length_pos (by have := cut p inP; omega))⟩
    exact eq_of_shared firsts inP inQ (first_mem (cut p inP) first)
      (first_mem (cut q inQ) (same.symm.trans first))
  · intro p inP q inQ same
    obtain ⟨v, last⟩ : ∃ v, p.nodes.getLast? = some v :=
      ⟨_, List.getLast?_eq_some_getLast (List.ne_nil_of_length_pos (by have := cut p inP; omega))⟩
    exact eq_of_shared lasts inP inQ (last_mem (cut p inP) last)
      (last_mem (cut q inQ) (same.symm.trans last))

theorem nodup_pieces (apart : rings.Pairwise fun c d => c.ring.Disjoint d.ring) :
    (rings.flatMap CutRing.pieces).Nodup := by
  refine ((List.nodup_flatMap.mp (pieces_apart apart).1).2.imp_of_mem ?_)
  intro p q inP _ disjoint same
  subst same
  obtain ⟨c, -, known⟩ := List.mem_flatMap.mp inP
  have filled : p.nodes.dropLast ≠ [] := by
    intro none
    have length : p.nodes.dropLast.length = p.nodes.length - 1 := List.length_dropLast
    have long := c.cut p known
    rw [none, List.length_nil] at length
    omega
  obtain ⟨v, member⟩ := List.exists_mem_of_ne_nil _ filled
  exact disjoint member member

theorem round_pieces (apart : rings.Pairwise fun c d => c.ring.Disjoint d.ring) {c : CutRing}
    (member : c ∈ rings) :
    Round (fun p : Piece => p.nodes.head?) (fun p => p.nodes.getLast?) c.pieces :=
  ⟨(List.nodup_flatMap.mp (nodup_pieces apart)).1 c member, c.joined⟩

/-- Rings without common nodes are the same if they have a node in common. -/
theorem eq_of_mem_ring (apart : rings.Pairwise fun c d => c.ring.Disjoint d.ring) {c d : CutRing}
    (inC : c ∈ rings) (inD : d ∈ rings) {v : Int64} (here : v ∈ c.ring) (there : v ∈ d.ring) :
    c = d := by
  by_contra different
  have symmetric : Std.Symm fun c d : CutRing => c.ring.Disjoint d.ring :=
    ⟨fun a b apart => apart.symm⟩
  exact apart.forall inC inD different here there

/-- A piece is of one ring only. -/
theorem ring_unique (apart : rings.Pairwise fun c d => c.ring.Disjoint d.ring) {c d : CutRing}
    (inC : c ∈ rings) (inD : d ∈ rings) {p : Piece} (here : p ∈ c.pieces) (there : p ∈ d.pieces) :
    c = d := by
  obtain ⟨v, inside⟩ := List.exists_mem_of_ne_nil _ (c.filled here)
  exact eq_of_mem_ring apart inC inD (c.mem_ring here inside) (d.mem_ring there inside)

theorem mem_given {p : Piece} {v : Int64} : v ∈ p.given ↔ v ∈ p.nodes := by
  rw [Piece.given]
  split
  · exact Iff.rfl
  · exact List.mem_reverse

end Turning

/-! ## The loop over the ways -/

/-- The piece that a way is. -/
def pieceAt (recorded : List Piece) (i : ℕ) : Piece := recorded.getD i ⟨[], true⟩

section Loop

variable {K T : Type} {ways : List (Way T)} {rings : List CutRing} {recorded : List Piece}
  (apart : rings.Pairwise fun c d => c.ring.Disjoint d.ring)
  (named : ways.map Way.nodeIDs = recorded.map Piece.given)
  (same : recorded.Perm (rings.flatMap CutRing.pieces))

section Pieces

include named

theorem length_recorded : ways.length = recorded.length := by
  have lengths := congrArg List.length named
  rwa [List.length_map, List.length_map] at lengths

theorem pieceAt_eq {i : ℕ} (inside : i < ways.length) :
    ∃ known : i < recorded.length, pieceAt recorded i = recorded[i] :=
  ⟨length_recorded named ▸ inside, List.getD_eq_getElem ..⟩

theorem nodeIDs_eq {i : ℕ} (inside : i < ways.length) :
    nodeIDs ways i = (pieceAt recorded i).given := by
  obtain ⟨known, piece⟩ := pieceAt_eq named inside
  have equal := congrArg (·[i]?) named
  simp only [List.getElem?_map, List.getElem?_eq_getElem inside, List.getElem?_eq_getElem known,
    Option.map_some, Option.some.injEq] at equal
  rw [nodeIDs, List.getElem?_eq_getElem inside, piece]
  exact equal

include same

theorem pieceAt_mem {i : ℕ} (inside : i < ways.length) :
    pieceAt recorded i ∈ rings.flatMap CutRing.pieces := by
  obtain ⟨known, piece⟩ := pieceAt_eq named inside
  rw [piece]
  exact same.mem_iff.mp (List.getElem_mem known)

theorem nodeIDs_ne_nil {i : ℕ} (inside : i < ways.length) : nodeIDs ways i ≠ [] := by
  obtain ⟨c, -, member⟩ := List.mem_flatMap.mp (pieceAt_mem named same inside)
  rw [nodeIDs_eq named inside, Piece.given]
  split
  · exact c.filled member
  · exact fun none => c.filled member (List.reverse_eq_nil_iff.mp none)

include apart

theorem pieceAt_inj {i j : ℕ} (inI : i < ways.length) (inJ : j < ways.length)
    (equal : pieceAt recorded i = pieceAt recorded j) : i = j := by
  obtain ⟨knownI, pieceI⟩ := pieceAt_eq named inI
  obtain ⟨knownJ, pieceJ⟩ := pieceAt_eq named inJ
  rw [pieceI, pieceJ] at equal
  exact ((same.nodup_iff.mpr (nodup_pieces apart)).getElem_inj_iff).mp equal

end Pieces

/-- What is followed from a free way. -/
structure Followed (ways : List (Way T)) (used : List Bool) (i y : ℕ) (ext : List ℕ)
    (followed : List Bool × List ℕ) : Prop where
  chain : followed.2 = i :: ext
  last : (i :: ext).getLast? = some y
  distinct : (i :: ext).Nodup
  free : ∀ j ∈ i :: ext, Free used j ∧ j < ways.length
  linked : (i :: ext).IsChain fun i j => (nodeIDs ways i).getLast? = (nodeIDs ways j).head?
  used : ∀ j, Free followed.1 j ↔ Free used j ∧ j ∉ i :: ext
  stuck : ∀ j < ways.length, (nodeIDs ways j).head? = (nodeIDs ways y).getLast? →
    ¬Free followed.1 j

theorem getLast?_eq_getLastD {l : List Int64} (filled : l ≠ []) :
    l.getLast? = some (l.getLastD 0) := by
  rw [List.getLastD_eq_getLast?, List.getLast?_eq_some_getLast filled]
  rfl

theorem head?_eq_headD {l : List Int64} (filled : l ≠ []) : l.head? = some (l.headD 0) := by
  cases l with
  | nil => exact absurd rfl filled
  | cons a l => rfl

theorem followed_of_free {used : List Bool} {i : ℕ} (free : Free used i)
    (inside : i < ways.length) (filled : nodeIDs ways i ≠ []) :
    ∃ ext y, Followed ways used i y ext (followChain ways (startMap ways) (used.set i true) [i]
      ((nodeIDs ways i).getLastD 0)) := by
  obtain ⟨ext, y, chain, last, distinct, unused, linked, used', stuck⟩ :=
    followChain_spec (used.set i true) [i] _ (getLast?_eq_getLastD filled)
  have fresh : i ∉ ext := fun member => (free_set.mp (unused i member).1).2 rfl
  refine ⟨ext, y, chain, last, List.nodup_cons.mpr ⟨fresh, distinct⟩, ?_, linked, ?_, stuck⟩
  · intro j member
    rcases List.mem_cons.mp member with rfl | later
    · exact ⟨free, inside⟩
    · exact ⟨(free_set.mp (unused j later).1).1, (unused j later).2⟩
  · intro j
    rw [used', free_set, List.mem_cons, not_or, and_assoc]

section Following

variable {used : List Bool} {i y : ℕ} {ext : List ℕ} {followed : List Bool × List ℕ}
  (path : Followed ways used i y ext followed)
include apart named same path

/-- A chain stays in the ring of its first piece. -/
theorem followed_inside {c : CutRing} (inC : c ∈ rings) (first : pieceAt recorded i ∈ c.pieces) :
    ∀ j ∈ i :: ext, pieceAt recorded j ∈ c.pieces := by
  obtain ⟨-, -, -, free, linked, -, -⟩ := path
  induction ext generalizing i with
  | nil =>
      intro j member
      rw [List.mem_singleton.mp member]
      exact first
  | cons next ext ih =>
      have inside : ∀ j ∈ i :: next :: ext, j < ways.length := fun j member => (free j member).2
      have here := inside i List.mem_cons_self
      have there := inside next (List.mem_cons_of_mem _ List.mem_cons_self)
      obtain ⟨meet, linked⟩ := List.isChain_cons_cons.mp linked
      obtain ⟨d, inD, second⟩ := List.mem_flatMap.mp (pieceAt_mem named same there)
      have known := nodeIDs_ne_nil named same here
      have stops := getLast?_eq_getLastD known
      have leaves := List.mem_of_getLast? stops
      have enters := List.mem_of_head? (meet.symm.trans stops)
      rw [nodeIDs_eq named here] at leaves
      rw [nodeIDs_eq named there, mem_given] at enters
      have ring : c = d := by
        rw [nodeIDs_eq named here] at enters
        exact eq_of_mem_ring apart inC inD (c.mem_ring first (mem_given.mp leaves))
          (d.mem_ring second enters)
      subst ring
      intro j member
      rcases List.mem_cons.mp member with rfl | later
      · exact first
      · exact ih second (fun j member => free j (List.mem_cons_of_mem _ member)) linked j later

/-- The pieces of a chain are a path over the arcs of the rings. -/
theorem followed_path :
    ((i :: ext).map (pieceAt recorded)).Nodup ∧
    (∀ p ∈ (i :: ext).map (pieceAt recorded), p ∈ rings.flatMap CutRing.pieces) ∧
    ((i :: ext).map (pieceAt recorded)).IsChain (fun p q => p.given.getLast? = q.given.head?) ∧
    ((i :: ext).map (pieceAt recorded)).getLast? = some (pieceAt recorded y) := by
  have inside : ∀ j ∈ i :: ext, j < ways.length := fun j member => (path.free j member).2
  refine ⟨?_, ?_, ?_, ?_⟩
  · refine List.Nodup.map_on (fun j inJ k inK equal => ?_) path.distinct
    exact pieceAt_inj apart named same (inside j inJ) (inside k inK) equal
  · intro p member
    obtain ⟨j, known, rfl⟩ := List.mem_map.mp member
    exact pieceAt_mem named same (inside j known)
  · rw [List.isChain_map]
    refine path.linked.imp_of_mem_imp fun j k inJ inK meet => ?_
    rw [← nodeIDs_eq named (inside j inJ), ← nodeIDs_eq named (inside k inK)]
    exact meet
  · rw [List.getLast?_map, path.last]
    rfl

/-- **A chain that comes back is all around its ring**, whose ways go the same way. -/
theorem followed_around {c : CutRing} (inC : c ∈ rings) (first : pieceAt recorded i ∈ c.pieces)
    (closed : (pieceAt recorded y).given.getLast? = (pieceAt recorded i).given.head?) :
    Around (fun p : Piece => p.along = true) c.pieces ((i :: ext).map (pieceAt recorded)) := by
  obtain ⟨distinct, known, linked, last⟩ := followed_path apart named same path
  exact around_of_closed (turned_pieces apart) distinct known linked last
    (round_pieces apart inC) (fun p member => List.mem_flatMap.mpr ⟨c, inC, member⟩) first closed

/-- **A chain comes back** if the ways of its ring go the same way and none was used. -/
theorem followed_closed {c : CutRing} (inC : c ∈ rings) (first : pieceAt recorded i ∈ c.pieces)
    (oneWay : c.OneWay)
    (untouched : ∀ j < ways.length, pieceAt recorded j ∈ c.pieces → Free used j) :
    (pieceAt recorded y).given.getLast? = (pieceAt recorded i).given.head? := by
  obtain ⟨distinct, known, linked, last⟩ := followed_path apart named same path
  refine closed_of_fresh (turned_pieces apart) distinct known linked last
    (round_pieces apart inC) (fun p member => List.mem_flatMap.mpr ⟨c, inC, member⟩) first oneWay ?_
  intro p member starts
  obtain ⟨j, inside, rfl⟩ : ∃ j < ways.length, pieceAt recorded j = p := by
    obtain ⟨j, inside, found⟩ := List.getElem_of_mem
      (same.mem_iff.mpr (List.mem_flatMap.mpr ⟨c, inC, member⟩))
    exact ⟨j, length_recorded named ▸ inside, (List.getD_eq_getElem ..).trans found⟩
  have last : y < ways.length := (path.free y (List.mem_of_getLast? path.last)).2
  rw [← nodeIDs_eq named inside, ← nodeIDs_eq named last] at starts
  have taken := path.stuck j inside starts
  rw [path.used, not_and_not_right] at taken
  exact List.mem_map_of_mem (taken (untouched j inside member))

end Following

/-! ## The coordinates of a chain -/

section Coordinates

variable [DecidableEq K] {nodes : GoMap Int64 (Coord K)}

theorem sameRing_closeRing (coords : List (Coord K)) : SameRing (closeRing coords) coords := by
  rw [closeRing]
  split
  · cases coords with
    | nil => exact .refl _
    | cons a coords => exact .closing a coords
  · exact .refl _

theorem length_le_closeRing (coords : List (Coord K)) :
    coords.length ≤ (closeRing coords).length := by
  rw [closeRing]
  split
  · rw [List.length_append]
    exact Nat.le_add_right ..
  · exact le_rfl

/-- All around a ring the nodes are those of the ring. -/
theorem sameRing_around {c : CutRing} {path : List Piece}
    (around : Around (fun p : Piece => p.along = true) c.pieces path) :
    SameRing (path.map Piece.given).flatten c.ring := by
  rcases around with ⟨rotated, along⟩ | ⟨rotated, against⟩
  · have recorded : c.pieces.map Piece.given = c.parts :=
      List.map_congr_left fun p member => by rw [Piece.given, if_pos (along p member)]
    have turned := isRotated_flatten (rotated.map Piece.given)
    rw [recorded] at turned
    exact (SameRing.rotated turned).trans c.flatten_parts
  · have recorded : c.pieces.reverse.map Piece.given = (c.parts.map List.reverse).reverse := by
      rw [List.map_reverse, CutRing.parts, List.map_map]
      refine congrArg List.reverse (List.map_congr_left fun p member => ?_)
      rw [Piece.given, if_neg (against p member)]
      rfl
    have turned := isRotated_flatten (rotated.map Piece.given)
    rw [recorded, ← List.reverse_flatten] at turned
    exact (SameRing.rotated turned).trans ((SameRing.reversed _).trans c.flatten_parts)

/-- The coordinates of a chain all around a ring are the ring. -/
theorem coords_around {c : CutRing} {path : List Piece}
    (around : Around (fun p : Piece => p.along = true) c.pieces path)
    (known : ∀ v ∈ c.ring, (nodes.lookup v).isSome) :
    SameRing (closeRing ((path.map Piece.given).flatten.filterMap nodes.lookup))
        (c.ring.filterMap nodes.lookup) ∧
      2 < (closeRing ((path.map Piece.given).flatten.filterMap nodes.lookup)).length := by
  have ring := sameRing_around around
  constructor
  · exact (sameRing_closeRing _).trans (ring.filterMap _)
  · have all : ((path.map Piece.given).flatten.filterMap nodes.lookup).length =
        (path.map Piece.given).flatten.length :=
      List.filterMap_length_eq_length.mpr fun v member => known v ((ring.mem_iff v).mp member)
    have fits : c.ring.length ≤ (path.map Piece.given).flatten.length :=
      (c.distinct.subperm fun v member => (ring.mem_iff v).mpr member).length_le
    have long := c.long
    have more := length_le_closeRing ((path.map Piece.given).flatten.filterMap nodes.lookup)
    omega

end Coordinates

/-! ## The rings that are found -/

section Found

variable [DecidableEq K] {nodes : GoMap Int64 (Coord K)}

/-- The rings that are found and those that are not begun. -/
structure Assembled (rings : List CutRing) (recorded : List Piece) (n : ℕ)
    (nodes : GoMap Int64 (Coord K)) (state : List Bool × List (List (Coord K)))
    (found : List CutRing) : Prop where
  nodup : found.Nodup
  complete : ∀ c ∈ found, c ∈ rings ∧ c.OneWay ∧
    ∀ j < n, pieceAt recorded j ∈ c.pieces → ¬Free state.1 j
  untouched : ∀ c ∈ rings, c.OneWay → c ∉ found →
    ∀ j < n, pieceAt recorded j ∈ c.pieces → Free state.1 j
  rings : List.Forall₂ (fun coords c => SameRing coords (c.ring.filterMap nodes.lookup))
    state.2 found

omit [DecidableEq K] in
theorem assembled_start (n : ℕ) :
    Assembled rings recorded n nodes (List.replicate n false, []) [] where
  nodup := .nil
  complete _ none := absurd none List.not_mem_nil
  untouched c _ _ _ j inside _ := by
    rw [Free, List.getElem?_replicate, if_pos inside]
  rings := .nil

include apart named same

/-- **One round of the loop** uses its way. It finds the ring of the way, or the ways of that ring
do not go the same way around. -/
theorem Assembled.step {state : List Bool × List (List (Coord K))} {found : List CutRing}
    (assembled : Assembled rings recorded ways.length nodes state found)
    (known : ∀ c ∈ rings, ∀ v ∈ c.ring, (nodes.lookup v).isSome) {i : ℕ}
    (inside : i < ways.length) :
    (∃ found', Assembled rings recorded ways.length nodes (addRing ways nodes state i) found') ∧
      ∀ j, Free (addRing ways nodes state i).1 j → Free state.1 j ∧ j ≠ i := by
  by_cases free : Free state.1 i
  · have filled := nodeIDs_ne_nil named same inside
    obtain ⟨ext, y, path⟩ := followed_of_free free inside filled
    have insideY : y < ways.length := (path.free y (List.mem_of_getLast? path.last)).2
    have filledY := nodeIDs_ne_nil named same insideY
    obtain ⟨c, inC, first⟩ := List.mem_flatMap.mp (pieceAt_mem named same inside)
    have stays := followed_inside apart named same path inC first
    have fresh : c ∉ found := fun old => (assembled.complete c old).2.2 i inside first free
    have comes : (nodeIDs ways i).headD 0 = (nodeIDs ways y).getLastD 0 ↔
        (pieceAt recorded y).given.getLast? = (pieceAt recorded i).given.head? := by
      rw [← nodeIDs_eq named inside, ← nodeIDs_eq named insideY, getLast?_eq_getLastD filledY,
        head?_eq_headD filled, Option.some.injEq, eq_comm]
    have coords : ((i :: ext).flatMap fun idx => (nodeIDs ways idx).filterMap nodes.lookup) =
        ((((i :: ext).map (pieceAt recorded)).map Piece.given).flatten.filterMap nodes.lookup) := by
      rw [List.map_map, ← List.flatMap_def, List.filterMap_flatMap]
      refine List.flatMap_congr fun j member => ?_
      rw [nodeIDs_eq named (path.free j member).2]
      rfl
    have lastY : (i :: ext).getLastD 0 = y := by
      rw [List.getLastD_eq_getLast?, path.last]
      rfl
    have step : addRing ways nodes state i = finishRing ways nodes state.2
        (followChain ways (startMap ways) (state.1.set i true) [i]
          ((nodeIDs ways i).getLastD 0)) :=
      if_neg (not_or.mpr ⟨not_not.mpr free, filled⟩)
    generalize followChain ways (startMap ways) (state.1.set i true) [i]
      ((nodeIDs ways i).getLastD 0) = followed at path step
    have others : ∀ d ∈ rings, d ≠ c → ∀ j < ways.length, pieceAt recorded j ∈ d.pieces →
        (Free followed.1 j ↔ Free state.1 j) := by
      intro d inD different j inside' member
      rw [path.used]
      refine and_iff_left fun passed => different ?_
      exact ring_unique apart inD inC member (stays j passed)
    have oldUsed : ∀ j, Free followed.1 j → Free state.1 j := fun j free => ((path.used j).mp free).1
    rw [step]
    refine ⟨?_, fun j free => ?_⟩
    · by_cases closed :
        (pieceAt recorded y).given.getLast? = (pieceAt recorded i).given.head?
      · -- The chain is the whole ring.
        have around := followed_around apart named same path inC first closed
        obtain ⟨ring, long⟩ := coords_around around (known c inC)
        have finished : finishRing ways nodes state.2 followed =
            (followed.1, state.2 ++ [closeRing ((((i :: ext).map (pieceAt recorded)).map
              Piece.given).flatten.filterMap nodes.lookup)]) := by
          rw [finishRing, path.chain, List.headD_cons, lastY, if_pos (comes.mpr closed), coords,
            if_pos long]
        have oneWay : c.OneWay := around.imp And.right And.right
        have passed : ∀ j < ways.length, pieceAt recorded j ∈ c.pieces → j ∈ i :: ext := by
          intro j inside' member
          have onPath : pieceAt recorded j ∈ (i :: ext).map (pieceAt recorded) := by
            rcases around with ⟨rotated, -⟩ | ⟨rotated, -⟩
            · exact rotated.mem_iff.mpr member
            · exact rotated.mem_iff.mpr (List.mem_reverse.mpr member)
          obtain ⟨k, inK, equal⟩ := List.mem_map.mp onPath
          rw [← pieceAt_inj apart named same (path.free k inK).2 inside' equal]
          exact inK
        rw [finished]
        refine ⟨found ++ [c], ?_, ?_, ?_, ?_⟩
        · exact List.nodup_append.mpr ⟨assembled.nodup, List.nodup_singleton c,
            fun d old d' new equal => fresh (List.mem_singleton.mp new ▸ equal ▸ old)⟩
        · intro d member
          rcases List.mem_append.mp member with old | new
          · obtain ⟨inD, oneWay, used⟩ := assembled.complete d old
            exact ⟨inD, oneWay, fun j inside' here free => used j inside' here (oldUsed j free)⟩
          · rw [List.mem_singleton.mp new]
            refine ⟨inC, oneWay, fun j inside' here free => ?_⟩
            exact ((path.used j).mp free).2 (passed j inside' here)
        · intro d inD oneWay missing j inside' here
          have old : d ∉ found := fun old => missing (List.mem_append_left _ old)
          have different : d ≠ c := fun equal =>
            missing (List.mem_append_right _ (List.mem_singleton.mpr equal))
          exact (others d inD different j inside' here).mpr
            (assembled.untouched d inD oneWay old j inside' here)
        · exact List.rel_append assembled.rings (.cons ring .nil)
      · have finished : finishRing ways nodes state.2 followed = (followed.1, state.2) := by
          rw [finishRing, path.chain, List.headD_cons, lastY, if_neg fun equal =>
            closed (comes.mp equal)]
        -- A ring that is not begun would have been found if its ways went the same way.
        have turned : ¬c.OneWay := fun oneWay => closed (followed_closed apart named same path inC
          first oneWay (assembled.untouched c inC oneWay fresh))
        rw [finished]
        refine ⟨found, assembled.nodup, ?_, ?_, assembled.rings⟩
        · intro d old
          obtain ⟨inD, oneWay, used⟩ := assembled.complete d old
          exact ⟨inD, oneWay, fun j inside' here free => used j inside' here (oldUsed j free)⟩
        · intro d inD oneWay missing j inside' here
          have different : d ≠ c := fun equal => turned (equal ▸ oneWay)
          exact (others d inD different j inside' here).mpr
            (assembled.untouched d inD oneWay missing j inside' here)
    · rw [finishRing_fst, path.used] at free
      exact ⟨free.1, fun equal => free.2 (equal ▸ List.mem_cons_self)⟩
  · have unchanged : addRing ways nodes state i = state := if_pos (.inl free)
    rw [unchanged]
    exact ⟨⟨found, assembled⟩, fun j free' => ⟨free', fun equal => free (equal ▸ free')⟩⟩

/-- **The whole loop**: every way is used in the end. -/
theorem assembled_run (known : ∀ c ∈ rings, ∀ v ∈ c.ring, (nodes.lookup v).isSome)
    {order : List ℕ} (inside : ∀ i ∈ order, i < ways.length) :
    ∀ {state : List Bool × List (List (Coord K))} {found : List CutRing},
    Assembled rings recorded ways.length nodes state found →
    ∃ found', Assembled rings recorded ways.length nodes (order.foldl (addRing ways nodes) state)
        found' ∧
      ∀ j, Free (order.foldl (addRing ways nodes) state).1 j → Free state.1 j ∧ j ∉ order := by
  induction order with
  | nil => exact fun assembled => ⟨_, assembled, fun j free => ⟨free, List.not_mem_nil⟩⟩
  | cons i order ih =>
      intro state found assembled
      obtain ⟨⟨next, more⟩, used⟩ :=
        assembled.step apart named same known (inside i List.mem_cons_self)
      obtain ⟨all, done, free⟩ := ih (fun j member => inside j (List.mem_cons_of_mem _ member)) more
      refine ⟨all, done, fun j left => ?_⟩
      obtain ⟨later, missing⟩ := free j left
      obtain ⟨earlier, different⟩ := used j later
      exact ⟨earlier, fun member => (List.mem_cons.mp member).elim different missing⟩

end Found

end Loop

section Result

variable {K T : Type} [DecidableEq K]

/-- Closed lines are the rings, in some order. -/
def AreRings (nodes : GoMap Int64 (Coord K)) (lines : List (List (Coord K)))
    (rings : List CutRing) : Prop :=
  ∃ order : List CutRing, order.Perm rings ∧
    List.Forall₂ (fun coords c => SameRing coords (c.ring.filterMap nodes.lookup)) lines order

/-- **What is found** are the rings whose ways go the same way around. -/
theorem areRings_oneWay {rings : List CutRing} {ways : List (Way T)} (cut : CutInto rings ways)
    {nodes : GoMap Int64 (Coord K)} (known : ∀ c ∈ rings, ∀ v ∈ c.ring, (nodes.lookup v).isSome) :
    AreRings nodes (assembleRingsFromWays ways nodes) (rings.filter CutRing.OneWay) := by
  obtain ⟨apart, pieces⟩ := cut
  obtain ⟨recorded, named, same⟩ :
      ∃ recorded : List Piece, ways.map Way.nodeIDs = recorded.map Piece.given ∧
        recorded.Perm (rings.flatMap CutRing.pieces) := by
    have split := congrFun (congrFun (List.eq_map_comp_perm Piece.given)
      (ways.map Way.nodeIDs)) (rings.flatMap CutRing.pieces)
    obtain ⟨recorded, named, same⟩ := split.mpr pieces
    exact ⟨recorded, named, same⟩
  have inside : ∀ i ∈ List.range ways.length, i < ways.length := fun i => List.mem_range.mp
  obtain ⟨found, done, free⟩ :=
    assembled_run apart named same known inside (assembled_start ways.length)
  refine ⟨found, ?_, done.rings⟩
  have distinct : rings.Nodup := by
    refine apart.imp_of_mem fun {c d} _ _ apart equal => ?_
    subst equal
    have long := c.long
    obtain ⟨v, member⟩ := List.exists_mem_of_ne_nil c.ring (fun none => by simp [none] at long)
    exact apart member member
  refine (List.perm_ext_iff_of_nodup done.nodup (distinct.filter _)).mpr fun c => ?_
  rw [List.mem_filter, decide_eq_true_eq]
  constructor
  · intro member
    exact ⟨(done.complete c member).1, (done.complete c member).2.1⟩
  · rintro ⟨inC, oneWay⟩
    by_contra missing
    obtain ⟨p, member⟩ := List.exists_mem_of_ne_nil _ c.pieces_ne_nil
    obtain ⟨j, inside, at'⟩ := List.getElem_of_mem
      (same.mem_iff.mpr (List.mem_flatMap.mpr ⟨c, inC, member⟩))
    have piece : pieceAt recorded j = p := (List.getD_eq_getElem ..).trans at'
    have inWays : j < ways.length := length_recorded named ▸ inside
    have unused := done.untouched c inC oneWay missing j inWays (piece ▸ member)
    exact (free j unused).2 (List.mem_range.mpr inWays)

/-- **Cut rings are recovered** exactly when in each of them all ways go the same way around. -/
theorem assembleRingsFromWays_rings {rings : List CutRing} {ways : List (Way T)}
    (cut : CutInto rings ways) {nodes : GoMap Int64 (Coord K)}
    (known : ∀ c ∈ rings, ∀ v ∈ c.ring, (nodes.lookup v).isSome) :
    AreRings nodes (assembleRingsFromWays ways nodes) rings ↔ ∀ c ∈ rings, c.OneWay := by
  obtain ⟨order, same, lines⟩ := areRings_oneWay cut known
  constructor
  · rintro ⟨order', same', lines'⟩ c member
    have length : (rings.filter CutRing.OneWay).length = rings.length := by
      rw [← same.length_eq, ← lines.length_eq, lines'.length_eq, same'.length_eq]
    exact of_decide_eq_true (List.length_filter_eq_length_iff.mp length c member)
  · intro oneWay
    have all : rings.filter CutRing.OneWay = rings :=
      List.filter_eq_self.mpr fun c member => decide_eq_true (oneWay c member)
    exact ⟨order, all ▸ same, lines⟩

end Result

/-! ## A ring that is lost -/

/-- A triangle cut into two ways, the second of which is recorded against the first or not. -/
def splitTriangle (along : Bool) : CutRing where
  ring := [1, 2, 3]
  pieces := [⟨[1, 2, 3], true⟩, ⟨[3, 1], along⟩]
  distinct := by decide
  long := le_rfl
  whole := .refl _
  cut := by
    intro p member
    rcases List.mem_cons.mp member with rfl | member
    · decide
    · rw [List.mem_singleton.mp member]
      exact le_rfl
  joined := (Cycle.chain_coe_cons _ _ _).mpr (.cons_cons rfl (.cons_cons rfl (.singleton _)))

def splitWays (second : List Int64) : List (Way Unit) := [⟨10, [1, 2, 3], ()⟩, ⟨11, second, ()⟩]

def corners : GoMap Int64 (Coord ℚ) :=
  (((∅ : GoMap Int64 (Coord ℚ)).insert 1 ⟨0, 0⟩).insert 2 ⟨0, 1⟩).insert 3 ⟨1, 0⟩

theorem cut_splitTriangle (along : Bool) :
    CutInto [splitTriangle along] (splitWays (if along then [3, 1] else [1, 3])) where
  apart := List.pairwise_singleton ..
  pieces := by cases along <;> exact .refl _

theorem corners_known (along : Bool) :
    ∀ c ∈ [splitTriangle along], ∀ v ∈ c.ring, (corners.lookup v).isSome := by
  intro c member
  rw [List.mem_singleton.mp member]
  intro v inside
  have cases : v = 1 ∨ v = 2 ∨ v = 3 := by simpa [splitTriangle] using inside
  rw [corners]
  rcases cases with rfl | rfl | rfl
  · rw [AList.lookup_insert_ne (by decide), AList.lookup_insert_ne (by decide),
      AList.lookup_insert]
    rfl
  · rw [AList.lookup_insert_ne (by decide), AList.lookup_insert]
    rfl
  · rw [AList.lookup_insert]
    rfl

theorem assembleRingsFromWays_rings_even :
    AreRings corners (assembleRingsFromWays (splitWays [3, 1]) corners) [splitTriangle true] := by
  refine (assembleRingsFromWays_rings (cut_splitTriangle true) (corners_known true)).mpr ?_
  decide

/-- **A ring is lost** when one of its two ways is recorded the other way around. -/
theorem assembleRingsFromWays_lost :
    CutInto [splitTriangle false] (splitWays [1, 3]) ∧
      (∀ c ∈ [splitTriangle false], ∀ v ∈ c.ring, (corners.lookup v).isSome) ∧
      assembleRingsFromWays (splitWays [1, 3]) corners = [] ∧
      ¬AreRings corners (assembleRingsFromWays (splitWays [1, 3]) corners)
        [splitTriangle false] := by
  have cut : CutInto [splitTriangle false] (splitWays [1, 3]) := cut_splitTriangle false
  have nothing : assembleRingsFromWays (splitWays [1, 3]) corners = [] := by
    obtain ⟨order, same, lines⟩ := areRings_oneWay cut (corners_known false)
    have none : [splitTriangle false].filter CutRing.OneWay = [] := by decide
    rw [none, List.perm_nil] at same
    rw [same] at lines
    exact List.forall₂_nil_right_iff.mp lines
  refine ⟨cut, corners_known false, nothing, ?_⟩
  rintro ⟨order, same, lines⟩
  rw [nothing, List.forall₂_nil_left_iff] at lines
  rw [lines] at same
  exact absurd same.length_eq Nat.zero_ne_one

end OsmMini.Cmd.Rings

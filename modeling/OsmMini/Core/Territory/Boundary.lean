import OsmMini.Core.Territory.Geometry
import OsmMini.Foundations.ClosedWalk
import Mathlib.Algebra.Order.Field.Basic
import Mathlib.Logic.Relation
import Mathlib.Tactic.Linarith
import Mathlib.Tactic.FieldSimp
import Mathlib.Tactic.Ring

/-!
# Areas and their boundary

Containment walks every ring twice, once forward for the tolerance and once backward for the
crossings. Neither walk depends on where the ring starts, on its direction, or on whether it
repeats its first vertex at the end.

For the tolerance, the projection onto a long edge is the closest point of the edge, so a long
edge is tested as a segment, whose ends play the same part. A short edge is tested by its
first end alone; but every vertex starts an edge, and a long edge includes its ends, so the
test asks for a vertex or a long edge near the point (`pointOnRing_iff`).

For the crossings, the flag ends as their parity, and an edge crosses the ray or not whichever
end is named first. A ring of fewer than three vertices is left out by the code, and rightly
so: its edges come in pairs that cross alike.

The changes that keep the boundary are those of the rings, and reordering the polygons or the
holes of one. Containment is the same after any sequence of them (`contains_of_changes`).
-/

set_option autoImplicit false
set_option linter.unusedSectionVars false

namespace OsmMini.Core

open OsmMini.Foundations

variable {K : Type} [Field K] [LinearOrder K]

/-! ## Changes that keep the boundary -/

/-- A ring started elsewhere, reversed, or with its first vertex repeated at the end or no
longer repeated. -/
inductive RingChange : Ring K → Ring K → Prop where
  | rotate (ring : Ring K) (n : ℕ) : RingChange ring (ring.rotate n)
  | reverse (ring : Ring K) : RingChange ring ring.reverse
  | close (first : Coord K) (rest : Ring K) :
      RingChange (first :: rest) (first :: rest ++ [first])
  | strip (first : Coord K) (rest : Ring K) :
      RingChange (first :: rest ++ [first]) (first :: rest)

/-- A changed ring, or the holes in another order. -/
inductive PolygonChange : Polygon K → Polygon K → Prop where
  | outer {outer outer' : Ring K} (holes : List (Ring K)) (change : RingChange outer outer') :
      PolygonChange ⟨outer, holes⟩ ⟨outer', holes⟩
  | hole {hole hole' : Ring K} (outer : Ring K) (before after : List (Ring K))
      (change : RingChange hole hole') :
      PolygonChange ⟨outer, before ++ hole :: after⟩ ⟨outer, before ++ hole' :: after⟩
  | holes {holes holes' : List (Ring K)} (outer : Ring K) (perm : holes.Perm holes') :
      PolygonChange ⟨outer, holes⟩ ⟨outer, holes'⟩

/-- A changed polygon, or the polygons in another order. -/
inductive GeometryChange : Geometry K → Geometry K → Prop where
  | polygon {polygon polygon' : Polygon K} (before after : List (Polygon K))
      (change : PolygonChange polygon polygon') :
      GeometryChange ⟨before ++ polygon :: after⟩ ⟨before ++ polygon' :: after⟩
  | polygons {polygons polygons' : List (Polygon K)} (perm : polygons.Perm polygons') :
      GeometryChange ⟨polygons⟩ ⟨polygons'⟩

/-! ## The tolerance -/

/-- The squared distance of a point from the point at a fraction of an edge. -/
def distSqAt (c a b : Coord K) (t : K) : K :=
  let ddLat := c.lat - (a.lat + t * (b.lat - a.lat))
  let ddLon := c.lon - (a.lon + t * (b.lon - a.lon))
  ddLat * ddLat + ddLon * ddLon

/-- The squared length of an edge. -/
def lengthSq (a b : Coord K) : K :=
  (b.lat - a.lat) * (b.lat - a.lat) + (b.lon - a.lon) * (b.lon - a.lon)

/-- Edges long enough to be projected on. -/
def LongEdge (a b : Coord K) : Prop := 1 / 100000000000000000000 < lengthSq a b

/-- A point within the tolerance of a vertex. -/
def NearVertex (c a : Coord K) : Prop :=
  (c.lat - a.lat) * (c.lat - a.lat) + (c.lon - a.lon) * (c.lon - a.lon) ≤
    boundaryEpsilonDeg * boundaryEpsilonDeg

/-- A point within the tolerance of some point of a segment. -/
def NearSegment (c a b : Coord K) : Prop :=
  ∃ t, 0 ≤ t ∧ t ≤ 1 ∧ distSqAt c a b t ≤ boundaryEpsilonDeg * boundaryEpsilonDeg

theorem distSqAt_zero (c a b : Coord K) :
    distSqAt c a b 0 =
      (c.lat - a.lat) * (c.lat - a.lat) + (c.lon - a.lon) * (c.lon - a.lon) := by
  simp [distSqAt]

theorem distSqAt_one (c a b : Coord K) :
    distSqAt c a b 1 =
      (c.lat - b.lat) * (c.lat - b.lat) + (c.lon - b.lon) * (c.lon - b.lon) := by
  simp [distSqAt]

/-- From the other end the fraction is the rest. -/
theorem distSqAt_swap (c a b : Coord K) (t : K) : distSqAt c b a (1 - t) = distSqAt c a b t := by
  simp only [distSqAt]
  ring

theorem lengthSq_swap (a b : Coord K) : lengthSq b a = lengthSq a b := by
  simp only [lengthSq]
  ring

variable [IsStrictOrderedRing K]

theorem longEdge_swap (a b : Coord K) : LongEdge b a ↔ LongEdge a b := by
  rw [LongEdge, LongEdge, lengthSq_swap]

theorem not_longEdge_self (a : Coord K) : ¬ LongEdge a a := by
  intro long
  have zero : lengthSq a a = 0 := by simp [lengthSq]
  rw [LongEdge, zero] at long
  have positive : (0 : K) < 1 / 100000000000000000000 := by positivity
  exact lt_asymm long positive

theorem NearVertex.start {c a : Coord K} (near : NearVertex c a) (b : Coord K) :
    NearSegment c a b :=
  ⟨0, le_refl 0, zero_le_one, by rw [distSqAt_zero]; exact near⟩

theorem nearSegment_swap {c a b : Coord K} (near : NearSegment c a b) : NearSegment c b a := by
  obtain ⟨t, nonneg, atMost, close⟩ := near
  refine ⟨1 - t, by linarith, by linarith, ?_⟩
  rw [distSqAt_swap]
  exact close

/-- The fraction the code projects on: the foot of the perpendicular, kept on the edge. -/
def clampedFraction (c a b : Coord K) : K :=
  let t := ((c.lat - a.lat) * (b.lat - a.lat) + (c.lon - a.lon) * (b.lon - a.lon)) / lengthSq a b
  if t < 0 then 0 else if 1 < t then 1 else t

/-- The distance from a foot of the perpendicular and from any other point of the line. -/
theorem distSqAt_sub (c a b : Coord K) (long : 0 < lengthSq a b) (s t : K) :
    distSqAt c a b t - distSqAt c a b s =
      lengthSq a b * ((t - s) * (t + s - 2 *
        (((c.lat - a.lat) * (b.lat - a.lat) + (c.lon - a.lon) * (b.lon - a.lon)) /
          lengthSq a b))) := by
  have nonzero : lengthSq a b ≠ 0 := long.ne'
  have cleared : lengthSq a b * ((t - s) * (t + s - 2 *
        (((c.lat - a.lat) * (b.lat - a.lat) + (c.lon - a.lon) * (b.lon - a.lon)) /
          lengthSq a b))) =
      (t - s) * (lengthSq a b * (t + s) -
        2 * ((c.lat - a.lat) * (b.lat - a.lat) + (c.lon - a.lon) * (b.lon - a.lon))) := by
    field_simp
  rw [cleared]
  simp only [distSqAt, lengthSq]
  ring

/-- **The clamped projection is the closest point of the edge.** -/
theorem distSqAt_clampedFraction_le (c a b : Coord K) (long : 0 < lengthSq a b) {t : K}
    (nonneg : 0 ≤ t) (atMost : t ≤ 1) :
    distSqAt c a b (clampedFraction c a b) ≤ distSqAt c a b t := by
  have difference := distSqAt_sub c a b long (clampedFraction c a b) t
  set foot := ((c.lat - a.lat) * (b.lat - a.lat) + (c.lon - a.lon) * (b.lon - a.lon)) /
    lengthSq a b with footEq
  have farther : 0 ≤ (t - clampedFraction c a b) * (t + clampedFraction c a b - 2 * foot) := by
    simp only [clampedFraction, ← footEq]
    by_cases before : foot < 0
    · rw [if_pos before]
      exact mul_nonneg (by linarith) (by linarith)
    · rw [if_neg before]
      by_cases after : 1 < foot
      · rw [if_pos after]
        exact mul_nonneg_of_nonpos_of_nonpos (by linarith) (by linarith)
      · rw [if_neg after]
        have square : (t - foot) * (t + foot - 2 * foot) = (t - foot) * (t - foot) := by ring
        rw [square]
        exact mul_self_nonneg _
  have scaled := mul_nonneg long.le farther
  rw [← difference] at scaled
  linarith

theorem clampedFraction_mem (c a b : Coord K) :
    0 ≤ clampedFraction c a b ∧ clampedFraction c a b ≤ 1 := by
  simp only [clampedFraction]
  split_ifs with before after
  · exact ⟨le_refl 0, zero_le_one⟩
  · exact ⟨zero_le_one, le_refl 1⟩
  · exact ⟨not_lt.mp before, not_lt.mp after⟩

/-- A long edge is tested as a segment. -/
theorem pointOnEdge_long {a b : Coord K} (long : LongEdge a b) (c : Coord K) :
    pointOnEdge c a b = true ↔ NearSegment c a b := by
  have positive : 0 < lengthSq a b := lt_trans (by positivity) long
  have tested : pointOnEdge c a b = true ↔ distSqAt c a b (clampedFraction c a b) ≤
      boundaryEpsilonDeg * boundaryEpsilonDeg := by
    have long' : (1 : K) / 100000000000000000000 <
        (b.lat - a.lat) * (b.lat - a.lat) + (b.lon - a.lon) * (b.lon - a.lon) := long
    simp only [pointOnEdge, if_pos long', decide_eq_true_iff, distSqAt, clampedFraction, lengthSq]
    exact Iff.rfl
  rw [tested]
  constructor
  · intro close
    obtain ⟨nonneg, atMost⟩ := clampedFraction_mem c a b
    exact ⟨clampedFraction c a b, nonneg, atMost, close⟩
  · rintro ⟨t, nonneg, atMost, close⟩
    exact (distSqAt_clampedFraction_le c a b positive nonneg atMost).trans close

/-- A short edge is tested by its first end. -/
theorem pointOnEdge_short {a b : Coord K} (short : ¬ LongEdge a b) (c : Coord K) :
    pointOnEdge c a b = true ↔ NearVertex c a := by
  have short' : ¬ (1 : K) / 100000000000000000000 <
      (b.lat - a.lat) * (b.lat - a.lat) + (b.lon - a.lon) * (b.lon - a.lon) := short
  simp only [pointOnEdge, if_neg short', zero_mul, add_zero, decide_eq_true_iff, NearVertex]

/-- **A point is on a ring when a vertex or a long edge is near.** -/
theorem pointOnRing_iff (ring : Ring K) (c : Coord K) :
    pointOnRing ring c = true ↔
      (∃ vertex ∈ ring, NearVertex c vertex) ∨
        ∃ edge ∈ closedEdges ring, LongEdge edge.1 edge.2 ∧ NearSegment c edge.1 edge.2 := by
  have walk : ringEdges ring = closedEdges ring := rfl
  rw [pointOnRing, walk, List.any_eq_true]
  constructor
  · rintro ⟨edge, member, near⟩
    by_cases long : LongEdge edge.1 edge.2
    · exact Or.inr ⟨edge, member, long, (pointOnEdge_long long c).mp near⟩
    · exact Or.inl ⟨edge.1, (mem_of_mem_closedEdges member).1, (pointOnEdge_short long c).mp near⟩
  · rintro (⟨vertex, member, near⟩ | ⟨edge, member, long, near⟩)
    · obtain ⟨next, edge⟩ := exists_edge_from member
      refine ⟨(vertex, next), edge, ?_⟩
      by_cases long : LongEdge vertex next
      · exact (pointOnEdge_long long c).mpr (near.start next)
      · exact (pointOnEdge_short long c).mpr near
    · exact ⟨edge, member, (pointOnEdge_long long c).mpr near⟩

/-- Rings with the same vertices whose long edges are the same, up to their direction, have
the same points on them. -/
theorem pointOnRing_congr {ring ring' : Ring K} (c : Coord K)
    (vertices : ∀ vertex, vertex ∈ ring ↔ vertex ∈ ring')
    (edges : ∀ a b, LongEdge a b →
      ((a, b) ∈ closedEdges ring ∨ (b, a) ∈ closedEdges ring ↔
        (a, b) ∈ closedEdges ring' ∨ (b, a) ∈ closedEdges ring')) :
    pointOnRing ring c = pointOnRing ring' c := by
  have keeps : ∀ ring ring' : Ring K, (∀ vertex, vertex ∈ ring → vertex ∈ ring') →
      (∀ a b, LongEdge a b → (a, b) ∈ closedEdges ring →
        (a, b) ∈ closedEdges ring' ∨ (b, a) ∈ closedEdges ring') →
      pointOnRing ring c = true → pointOnRing ring' c = true := by
    intro ring ring' vertices edges onRing
    rw [pointOnRing_iff] at onRing ⊢
    rcases onRing with ⟨vertex, member, near⟩ | ⟨⟨a, b⟩, member, long, near⟩
    · exact Or.inl ⟨vertex, vertices vertex member, near⟩
    · rcases edges a b long member with same | turned
      · exact Or.inr ⟨(a, b), same, long, near⟩
      · exact Or.inr ⟨(b, a), turned, (longEdge_swap a b).mpr long, nearSegment_swap near⟩
  rw [Bool.eq_iff_iff]
  constructor
  · apply keeps
    · exact fun vertex => (vertices vertex).mp
    · exact fun a b long member => (edges a b long).mp (Or.inl member)
  · apply keeps
    · exact fun vertex => (vertices vertex).mpr
    · exact fun a b long member => (edges a b long).mpr (Or.inl member)

theorem mem_map_swap {edges : List (Coord K × Coord K)} {a b : Coord K} :
    (a, b) ∈ edges.map Prod.swap ↔ (b, a) ∈ edges := by
  rw [List.mem_map]
  constructor
  · rintro ⟨⟨first, second⟩, member, swapped⟩
    obtain ⟨rfl, rfl⟩ := Prod.mk.inj swapped
    exact member
  · intro member
    exact ⟨(b, a), member, rfl⟩

/-- The points on a ring do not depend on how it is written down. -/
theorem RingChange.pointOnRing_eq {ring ring' : Ring K} (change : RingChange ring ring')
    (c : Coord K) : pointOnRing ring c = pointOnRing ring' c := by
  have closing : ∀ (first : Coord K) (rest : Ring K),
      pointOnRing (first :: rest) c = pointOnRing (first :: rest ++ [first]) c := by
    intro first rest
    apply pointOnRing_congr
    · intro vertex
      simp [or_comm]
    · intro a b long
      have notLoop : (a, b) ∉ [(first, first)] := by
        intro loop
        obtain ⟨rfl, rfl⟩ := Prod.mk.inj (List.mem_singleton.mp loop)
        exact not_longEdge_self _ long
      have notLoop' : (b, a) ∉ [(first, first)] := by
        intro loop
        obtain ⟨rfl, rfl⟩ := Prod.mk.inj (List.mem_singleton.mp loop)
        exact not_longEdge_self _ long
      rw [closedEdges_close, List.mem_append, List.mem_append, or_iff_left notLoop,
        or_iff_left notLoop']
  cases change with
  | rotate _ n =>
      apply pointOnRing_congr
      · exact fun vertex => List.mem_rotate.symm
      · intro a b _
        rw [closedEdges_rotate, List.mem_rotate, List.mem_rotate]
  | reverse =>
      apply pointOnRing_congr
      · exact fun vertex => List.mem_reverse.symm
      · intro a b _
        have perm := closedEdges_reverse ring
        rw [perm.mem_iff, perm.mem_iff, mem_map_swap, mem_map_swap, or_comm]
  | close first rest => exact closing first rest
  | strip first rest => exact (closing first rest).symm

/-! ## The crossings -/

/-- An edge crosses the ray or not whichever end is named first. -/
theorem crosses_swap (c a b : Coord K) : crosses c b a = crosses c a b := by
  by_cases level : decide (c.lat < a.lat) = decide (c.lat < b.lat)
  · simp [crosses, level]
  · have differ : b.lat - a.lat ≠ 0 := by
      intro equal
      have same : a.lat = b.lat := (sub_eq_zero.mp equal).symm
      exact level (by rw [same])
    have differ' : a.lat - b.lat ≠ 0 := by
      rw [← neg_sub]
      exact neg_ne_zero.mpr differ
    have point : (a.lon - b.lon) * (c.lat - b.lat) / (a.lat - b.lat) + b.lon =
        (b.lon - a.lon) * (c.lat - a.lat) / (b.lat - a.lat) + a.lon := by
      field_simp
      ring
    simp only [crosses, point]
    rw [bne_comm]

/-- No edge from a point to itself crosses the ray. -/
theorem crosses_self (c a : Coord K) : crosses c a a = false := by
  simp [crosses]

/-- The number of edges of a ring the ray crosses. -/
def crossings (ring : Ring K) (c : Coord K) : ℕ :=
  (closedEdges ring).countP fun edge => crosses c edge.1 edge.2

/-- Swapping the ends of the edges does not change how many cross. -/
theorem countP_swap (edges : List (Coord K × Coord K)) (c : Coord K) :
    (edges.map Prod.swap).countP (fun edge => crosses c edge.1 edge.2) =
      edges.countP fun edge => crosses c edge.1 edge.2 := by
  rw [List.countP_map]
  congr 1
  funext edge
  exact crosses_swap c edge.1 edge.2

/-- The edges of a ring of fewer than three vertices cross in pairs. -/
theorem crossings_short {ring : Ring K} (short : ring.length < 3) (c : Coord K) :
    crossings ring c % 2 = 0 := by
  match ring, short with
  | [], _ => rfl
  | [a], _ =>
      have edges : closedEdges [a] = [(a, a)] := by simp [closedEdges]
      simp [crossings, edges, crosses_self]
  | [a, b], _ =>
      have edges : closedEdges [a, b] = [(a, b), (b, a)] := by simp [closedEdges]
      rw [crossings, edges, List.countP_cons, List.countP_cons, List.countP_nil]
      simp only [crosses_swap c a b]
      split_ifs <;> rfl

/-- **A point is inside a ring when the ray crosses an odd number of edges.** -/
theorem rayCast_eq (ring : Ring K) (c : Coord K) :
    rayCast ring c = decide (crossings ring c % 2 = 1) := by
  rw [rayCast]
  by_cases short : ring.length < 3
  · rw [if_pos short, crossings_short short]
    rfl
  · rw [if_neg short]
    have flag := toggleAll_eq (fun edge : Coord K × Coord K => crosses c edge.1 edge.2)
      (ring.zip (ring.rotate (ring.length - 1))) false
    have counted : (ring.zip (ring.rotate (ring.length - 1))).countP
        (fun edge => crosses c edge.1 edge.2) = crossings ring c := by
      rw [(backwardPairs_perm ring).countP_eq, countP_swap, crossings]
    rw [counted, Bool.false_xor] at flag
    exact flag

/-- The crossings do not depend on how a ring is written down. -/
theorem RingChange.crossings_eq {ring ring' : Ring K} (change : RingChange ring ring')
    (c : Coord K) : crossings ring c = crossings ring' c := by
  have closing : ∀ (first : Coord K) (rest : Ring K),
      crossings (first :: rest) c = crossings (first :: rest ++ [first]) c := by
    intro first rest
    rw [crossings, crossings, closedEdges_close, List.countP_append]
    simp [crosses_self]
  cases change with
  | rotate _ n =>
      rw [crossings, crossings, closedEdges_rotate, (List.rotate_perm _ n).countP_eq]
  | reverse =>
      rw [crossings, crossings, (closedEdges_reverse ring).countP_eq, countP_swap]
  | close first rest => exact closing first rest
  | strip first rest => exact (closing first rest).symm

theorem RingChange.rayCast_eq {ring ring' : Ring K} (change : RingChange ring ring')
    (c : Coord K) : rayCast ring c = rayCast ring' c := by
  rw [OsmMini.Core.rayCast_eq, OsmMini.Core.rayCast_eq, change.crossings_eq]

/-! ## Polygons and areas -/

/-- A polygon is asked for its rings near the point and then for the parity of the rings
around it. -/
theorem Polygon.contains_eq (p : Polygon K) (c : Coord K) :
    p.contains c =
      (pointOnRing p.outer c || p.holes.any (fun h => pointOnRing h c) ||
        toggleAll (fun h => rayCast h c) (rayCast p.outer c) p.holes) := by
  rw [Polygon.contains]
  cases pointOnRing p.outer c
  · cases p.holes.any fun h => pointOnRing h c
    · rfl
    · rfl
  · rfl

theorem PolygonChange.contains_eq {p p' : Polygon K} (change : PolygonChange p p')
    (c : Coord K) : p.contains c = p'.contains c := by
  rw [Polygon.contains_eq, Polygon.contains_eq]
  cases change with
  | outer holes change => rw [change.pointOnRing_eq, change.rayCast_eq]
  | hole outer before after change =>
      simp only [List.any_append, List.any_cons, toggleAll_eq, List.countP_append,
        List.countP_cons, change.pointOnRing_eq c, change.rayCast_eq c]
  | holes outer perm => rw [perm.any_eq, toggleAll_perm _ perm]

theorem GeometryChange.contains_eq {g g' : Geometry K} (change : GeometryChange g g')
    (c : Coord K) : g.contains c = g'.contains c := by
  rw [Geometry.contains, Geometry.contains]
  cases change with
  | polygon before after change =>
      simp only [List.any_append, List.any_cons, change.contains_eq c]
  | polygons perm => exact perm.any_eq

/-- **Containment depends only on the boundary.** Whatever sequence of changes rewrites the
rings, the holes and the polygons, the same points are contained. -/
theorem contains_of_changes {g g' : Geometry K}
    (changes : Relation.ReflTransGen GeometryChange g g') (c : Coord K) :
    g.contains c = g'.contains c := by
  induction changes with
  | refl => rfl
  | tail _ change ih => exact ih.trans (change.contains_eq c)

/-- A triangle with a hole, the outer ring reversed and the hole closed. -/
theorem contains_triangle :
    Relation.ReflTransGen GeometryChange
        (⟨[⟨[⟨0, 0⟩, ⟨0, 9⟩, ⟨9, 0⟩], [[⟨1, 1⟩, ⟨1, 2⟩, ⟨2, 1⟩]]⟩]⟩ : Geometry ℚ)
        ⟨[⟨[⟨9, 0⟩, ⟨0, 9⟩, ⟨0, 0⟩], [[⟨1, 1⟩, ⟨1, 2⟩, ⟨2, 1⟩, ⟨1, 1⟩]]⟩]⟩ ∧
      ∀ c : Coord ℚ,
        (⟨[⟨[⟨0, 0⟩, ⟨0, 9⟩, ⟨9, 0⟩], [[⟨1, 1⟩, ⟨1, 2⟩, ⟨2, 1⟩]]⟩]⟩ : Geometry ℚ).contains c =
          Geometry.contains
            ⟨[⟨[⟨9, 0⟩, ⟨0, 9⟩, ⟨0, 0⟩], [[⟨1, 1⟩, ⟨1, 2⟩, ⟨2, 1⟩, ⟨1, 1⟩]]⟩]⟩ c := by
  have changes : Relation.ReflTransGen GeometryChange
      (⟨[⟨[⟨0, 0⟩, ⟨0, 9⟩, ⟨9, 0⟩], [[⟨1, 1⟩, ⟨1, 2⟩, ⟨2, 1⟩]]⟩]⟩ : Geometry ℚ)
      ⟨[⟨[⟨9, 0⟩, ⟨0, 9⟩, ⟨0, 0⟩], [[⟨1, 1⟩, ⟨1, 2⟩, ⟨2, 1⟩, ⟨1, 1⟩]]⟩]⟩ := by
    refine (Relation.ReflTransGen.single
      (GeometryChange.polygon [] [] (PolygonChange.outer _ (RingChange.reverse _)))).tail ?_
    exact GeometryChange.polygon [] [] (PolygonChange.hole _ [] [] (RingChange.close _ _))
  exact ⟨changes, fun c => contains_of_changes changes c⟩

end OsmMini.Core

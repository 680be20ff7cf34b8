import OsmMini.Foundations.Cheapest
import Mathlib.Algebra.Order.Field.Basic
import Mathlib.Tactic.Linarith
import Mathlib.Tactic.Ring
import OsmMini.Foundations.Literals

/-!
# Nearest points

The point of a segment that is nearest to a given point is found by projecting the point onto the
line of the segment and clamping the projection to the segment (`nearestFraction_least`). A segment
may consist of a single point.

A search over parts of a set keeps the nearest point of the parts seen so far
(`Nearest.union`).
-/

set_option autoImplicit false

namespace OsmMini.Foundations

section Points

variable {K : Type*} [Field K]

/-- The square of the distance of two points. -/
def squaredDistance (p q : K × K) : K :=
  (p.1 - q.1) * (p.1 - q.1) + (p.2 - q.2) * (p.2 - q.2)

/-- A point on the way from one point to another. -/
def along (a b : K × K) (t : K) : K × K :=
  (a.1 + t * (b.1 - a.1), a.2 + t * (b.2 - a.2))

/-- The part of a segment between two places on it, as a way of its own. -/
theorem along_along (a b : K × K) (first last t : K) :
    along (along a b first) (along a b last) t = along a b (first + t * (last - first)) := by
  refine Prod.ext ?_ ?_
  · rw [along, along, along, along]
    ring
  · rw [along, along, along, along]
    ring

/-- On a segment, the square of the distance to a point is a quadratic function. -/
theorem squaredDistance_along (a b p : K × K) (s t : K) :
    squaredDistance (along a b t) p - squaredDistance (along a b s) p =
      (t - s) * ((t + s) * squaredDistance b a -
        2 * ((p.1 - a.1) * (b.1 - a.1) + (p.2 - a.2) * (b.2 - a.2))) := by
  rw [squaredDistance, squaredDistance, squaredDistance, along, along]
  ring

variable [LinearOrder K]

/-- The place of the point of a segment that is nearest to a given point. -/
def nearestFraction (a b p : K × K) : K :=
  let dx := b.1 - a.1
  let dy := b.2 - a.2
  let lengthSquared := dx * dx + dy * dy
  if 0 < lengthSquared then
    max 0 (min 1 (((p.1 - a.1) * dx + (p.2 - a.2) * dy) / lengthSquared))
  else 0

variable [IsStrictOrderedRing K]

theorem squaredDistance_nonneg (p q : K × K) : 0 ≤ squaredDistance p q :=
  add_nonneg (mul_self_nonneg _) (mul_self_nonneg _)

/-- Points without a distance are the same. -/
theorem eq_of_squaredDistance {p q : K × K} (none : squaredDistance p q ≤ 0) :
    p.1 - q.1 = 0 ∧ p.2 - q.2 = 0 := by
  rw [squaredDistance] at none
  have first := mul_self_nonneg (p.1 - q.1)
  have second := mul_self_nonneg (p.2 - q.2)
  constructor
  · exact mul_self_eq_zero.mp (by linarith)
  · exact mul_self_eq_zero.mp (by linarith)

theorem nearestFraction_bounds (a b p : K × K) :
    0 ≤ nearestFraction a b p ∧ nearestFraction a b p ≤ 1 := by
  rw [nearestFraction]
  split_ifs
  · exact ⟨le_max_left _ _, max_le zero_le_one (min_le_left _ _)⟩
  · exact ⟨le_refl _, zero_le_one⟩

/-- The places between two places are those of the part of the segment between them. -/
theorem exists_place_iff {first last : K} (ordered : first ≤ last) (t : K) :
    (first ≤ t ∧ t ≤ last) ↔ ∃ u, 0 ≤ u ∧ u ≤ 1 ∧ t = first + u * (last - first) := by
  constructor
  · rintro ⟨low, high⟩
    rcases ordered.eq_or_lt with rfl | proper
    · exact ⟨0, le_refl _, zero_le_one, by rw [le_antisymm high low, zero_mul, add_zero]⟩
    · have width : 0 < last - first := sub_pos.mpr proper
      refine ⟨(t - first) / (last - first), div_nonneg (sub_nonneg.mpr low) width.le, ?_, ?_⟩
      · exact (div_le_one width).mpr (sub_le_sub_right high _)
      · rw [div_mul_cancel₀ _ width.ne', add_sub_cancel]
  · rintro ⟨u, low, high, rfl⟩
    have width : 0 ≤ last - first := sub_nonneg.mpr ordered
    have above := mul_nonneg low width
    have below := mul_le_mul_of_nonneg_right high width
    exact ⟨by linarith, by linarith⟩

/-- **The clamped projection is nearest.** -/
theorem nearestFraction_least (a b p : K × K) {t : K} (low : 0 ≤ t) (high : t ≤ 1) :
    squaredDistance (along a b (nearestFraction a b p)) p ≤ squaredDistance (along a b t) p := by
  rw [← sub_nonneg, squaredDistance_along]
  have isLength : squaredDistance b a =
      (b.1 - a.1) * (b.1 - a.1) + (b.2 - a.2) * (b.2 - a.2) := rfl
  rw [nearestFraction, ← isLength]
  split_ifs with long
  · generalize (p.1 - a.1) * (b.1 - a.1) + (p.2 - a.2) * (b.2 - a.2) = dot
    have projection : dot = dot / squaredDistance b a * squaredDistance b a :=
      (div_mul_cancel₀ dot long.ne').symm
    generalize dot / squaredDistance b a = s at projection ⊢
    subst projection
    have factored : ∀ f, (t - f) * ((t + f) * squaredDistance b a -
        2 * (s * squaredDistance b a)) = squaredDistance b a * ((t - f) * (t + f - 2 * s)) :=
      fun f => by ring
    rw [factored]
    apply mul_nonneg long.le
    -- The clamped place is the start, the projection itself or the end.
    rcases le_total s 0 with before | after
    · rw [min_eq_right (before.trans zero_le_one), max_eq_left before]
      exact mul_nonneg (by linarith) (by linarith)
    · rcases le_total s 1 with inside | beyond
      · rw [min_eq_right inside, max_eq_right after]
        have square : (t - s) * (t + s - 2 * s) = (t - s) * (t - s) := by ring
        rw [square]
        exact mul_self_nonneg _
      · rw [min_eq_left beyond, max_eq_right zero_le_one]
        exact mul_nonneg_of_nonpos_of_nonpos (by linarith) (by linarith)
  · obtain ⟨first, second⟩ := eq_of_squaredDistance (not_lt.mp long)
    rw [isLength, first, second]
    exact le_of_eq (by ring)

end Points

/-! ## The nearest point of a set -/

section Sets

variable {K : Type*} [Field K] [LinearOrder K]

/-- A point of a set that is nearest to a given point, with the square of the distance. There is
none if the set is empty. -/
def Nearest (p : K × K) (points : Set (K × K)) : Option ((K × K) × K) → Prop
  | none => points = ∅
  | some (q, distance) => q ∈ points ∧ distance = squaredDistance q p ∧
      ∀ r ∈ points, distance ≤ squaredDistance r p

variable {p : K × K} {points more : Set (K × K)}

/-- Points that are not there change nothing. -/
theorem Nearest.empty {best : Option ((K × K) × K)} (nearest : Nearest p points best)
    (none : more = ∅) : Nearest p (points ∪ more) best := by
  rw [none, Set.union_empty]
  exact nearest

/-- **A search keeps the nearest point**: the best point so far or the best of the new ones. -/
theorem Nearest.union {best : Option ((K × K) × K)} {q : K × K}
    (nearest : Nearest p points best) (new : Nearest p more (some (q, squaredDistance q p))) :
    Nearest p (points ∪ more) (improve best q (squaredDistance q p)) := by
  obtain ⟨member, -, least⟩ := new
  cases best with
  | none =>
      rw [Nearest] at nearest
      rw [nearest, Set.empty_union]
      exact ⟨member, rfl, least⟩
  | some known =>
      obtain ⟨b, distance⟩ := known
      obtain ⟨known, isDistance, least'⟩ := nearest
      rw [improve]
      split_ifs with nearer
      · refine ⟨Set.mem_union_right _ member, rfl, fun r among => ?_⟩
        rcases among with old | new
        · exact nearer.le.trans (least' r old)
        · exact least r new
      · refine ⟨Set.mem_union_left _ known, isDistance, fun r among => ?_⟩
        rcases among with old | new
        · exact least' r old
        · exact (not_lt.mp nearer).trans (least r new)

end Sets

end OsmMini.Foundations

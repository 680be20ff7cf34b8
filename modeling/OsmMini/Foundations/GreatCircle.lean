import Mathlib
import OsmMini.Foundations.Literals

/-!
# Great circles

A point of the unit sphere is given by its latitude and longitude in radians. The angle
between two points is computed from their haversine; its cosine is the scalar product of the
two points (`cos_centralAngle`). The angle is at least the difference of the latitudes
(`abs_sub_le_centralAngle`), and at least the angle to any meridian that lies between
(`arcsin_le_centralAngle`).
-/

set_option autoImplicit false

namespace OsmMini.Foundations.GreatCircle

open Real

/-- The angle of the point `(x, y)` of the plane, in `(-π, π]`. -/
noncomputable def atan2 (y x : ℝ) : ℝ := Complex.arg ⟨x, y⟩

/-- The haversine of two points of latitudes `φ` and `ψ` whose longitudes differ by `Δ`:
a quarter of the square of the chord between them. -/
noncomputable def haversine (φ ψ Δ : ℝ) : ℝ :=
  sin ((ψ - φ) / 2) ^ 2 + cos φ * cos ψ * sin (Δ / 2) ^ 2

/-- The angle between two points, seen from the centre of the sphere. -/
noncomputable def centralAngle (φ ψ Δ : ℝ) : ℝ :=
  2 * atan2 (√(haversine φ ψ Δ)) (√(1 - haversine φ ψ Δ))

variable {φ ψ Δ δ x : ℝ}

theorem sin_half_sq (x : ℝ) : sin (x / 2) ^ 2 = (1 - cos x) / 2 := by
  have double : cos x = 2 * cos (x / 2) ^ 2 - 1 := by
    rw [← cos_two_mul]
    congr 1
    ring
  have circle := sin_sq_add_cos_sq (x / 2)
  linarith

/-- The haversine in terms of the scalar product of the two points. -/
theorem one_sub_two_mul_haversine (φ ψ Δ : ℝ) :
    1 - 2 * haversine φ ψ Δ = sin φ * sin ψ + cos φ * cos ψ * cos Δ := by
  rw [haversine, sin_half_sq, sin_half_sq, cos_sub]
  ring

/-- The scalar product with a unit vector is at most the length. -/
theorem scalar_le (u v a b : ℝ) (unit : a ^ 2 + b ^ 2 = 1) :
    u * a + v * b ≤ √(u ^ 2 + v ^ 2) := by
  refine le_sqrt_of_sq_le ?_
  have square := sq_nonneg (u * b - v * a)
  have split : (u * a + v * b) ^ 2 + (u * b - v * a) ^ 2 =
      (u ^ 2 + v ^ 2) * (a ^ 2 + b ^ 2) := by ring
  rw [unit, mul_one] at split
  linarith

/-- The part of a point of latitude `φ` that lies in the plane of a meridian. -/
theorem plane_le_one (φ δ : ℝ) : sin φ ^ 2 + (cos φ * cos δ) ^ 2 ≤ 1 := by
  have circle := sin_sq_add_cos_sq φ
  have small : cos δ ^ 2 ≤ 1 := cos_sq_le_one δ
  have shrink : (cos φ * cos δ) ^ 2 ≤ cos φ ^ 2 := by
    rw [mul_pow]
    exact mul_le_of_le_one_right (sq_nonneg _) small
  linarith

/-- The scalar product of two points of the sphere is at most one. -/
theorem scalar_le_one (φ ψ Δ : ℝ) : sin φ * sin ψ + cos φ * cos ψ * cos Δ ≤ 1 := by
  have bound := scalar_le (sin φ) (cos φ * cos Δ) (sin ψ) (cos ψ)
    (sin_sq_add_cos_sq ψ)
  have root : √(sin φ ^ 2 + (cos φ * cos Δ) ^ 2) ≤ 1 := sqrt_le_one.mpr (plane_le_one φ Δ)
  calc sin φ * sin ψ + cos φ * cos ψ * cos Δ
      = sin φ * sin ψ + cos φ * cos Δ * cos ψ := by ring
    _ ≤ 1 := bound.trans root

theorem haversine_nonneg (φ ψ Δ : ℝ) : 0 ≤ haversine φ ψ Δ := by
  have scalar := scalar_le_one φ ψ Δ
  have product := one_sub_two_mul_haversine φ ψ Δ
  linarith

/-- The antipode of a point turns the scalar product around. -/
theorem haversine_le_one (φ ψ Δ : ℝ) : haversine φ ψ Δ ≤ 1 := by
  have scalar := scalar_le_one (-φ) ψ (Δ + π)
  have product := one_sub_two_mul_haversine φ ψ Δ
  rw [sin_neg, cos_neg, cos_add_pi] at scalar
  linarith

/-- The angle of a point of the first quadrant of the unit circle. -/
theorem atan2_sqrt {h : ℝ} (low : 0 ≤ h) (high : h ≤ 1) :
    atan2 (√h) (√(1 - h)) = arcsin (√h) := by
  have norm : ‖(⟨√(1 - h), √h⟩ : ℂ)‖ = 1 := by
    rw [Complex.norm_def, Complex.normSq_mk, mul_self_sqrt (sub_nonneg.mpr high),
      mul_self_sqrt low, sub_add_cancel, sqrt_one]
  rw [atan2, Complex.arg_of_re_nonneg (sqrt_nonneg _), norm, div_one]

theorem centralAngle_eq_arcsin (φ ψ Δ : ℝ) :
    centralAngle φ ψ Δ = 2 * arcsin (√(haversine φ ψ Δ)) := by
  rw [centralAngle, atan2_sqrt (haversine_nonneg φ ψ Δ) (haversine_le_one φ ψ Δ)]

theorem centralAngle_nonneg (φ ψ Δ : ℝ) : 0 ≤ centralAngle φ ψ Δ := by
  rw [centralAngle_eq_arcsin]
  exact mul_nonneg zero_le_two (arcsin_nonneg.mpr (sqrt_nonneg _))

theorem centralAngle_le_pi (φ ψ Δ : ℝ) : centralAngle φ ψ Δ ≤ π := by
  rw [centralAngle_eq_arcsin]
  have half := arcsin_le_pi_div_two (√(haversine φ ψ Δ))
  linarith

/-- **The angle between two points is the one whose cosine is their scalar product.** -/
theorem cos_centralAngle (φ ψ Δ : ℝ) :
    cos (centralAngle φ ψ Δ) = sin φ * sin ψ + cos φ * cos ψ * cos Δ := by
  have root : sin (arcsin (√(haversine φ ψ Δ))) = √(haversine φ ψ Δ) :=
    sin_arcsin (by linarith [sqrt_nonneg (haversine φ ψ Δ)])
      (sqrt_le_one.mpr (haversine_le_one φ ψ Δ))
  rw [centralAngle_eq_arcsin, cos_two_mul, cos_sq', root, sq_sqrt (haversine_nonneg φ ψ Δ),
    ← one_sub_two_mul_haversine]
  ring

theorem le_centralAngle (high : x ≤ π)
    (far : sin φ * sin ψ + cos φ * cos ψ * cos Δ ≤ cos x) : x ≤ centralAngle φ ψ Δ := by
  by_contra short
  rw [not_le] at short
  have nearer := cos_lt_cos_of_nonneg_of_le_pi (centralAngle_nonneg φ ψ Δ) high short
  rw [cos_centralAngle] at nearer
  exact absurd far (not_le.mpr nearer)

theorem centralAngle_eq (low : 0 ≤ x) (high : x ≤ π)
    (same : sin φ * sin ψ + cos φ * cos ψ * cos Δ = cos x) : centralAngle φ ψ Δ = x := by
  rw [← cos_centralAngle] at same
  exact injOn_cos ⟨centralAngle_nonneg φ ψ Δ, centralAngle_le_pi φ ψ Δ⟩ ⟨low, high⟩ same

/-- **Two points are at least as far apart as their parallels.** -/
theorem abs_sub_le_centralAngle (north : |φ| ≤ π / 2) (north' : |ψ| ≤ π / 2) (Δ : ℝ) :
    |ψ - φ| ≤ centralAngle φ ψ Δ := by
  have fits : |ψ - φ| ≤ π := by
    have triangle := abs_sub ψ φ
    linarith
  refine le_centralAngle fits ?_
  have cosines : 0 ≤ cos φ * cos ψ := mul_nonneg
    (cos_nonneg_of_mem_Icc (abs_le.mp north)) (cos_nonneg_of_mem_Icc (abs_le.mp north'))
  have turned : cos φ * cos ψ * cos Δ ≤ cos φ * cos ψ :=
    mul_le_of_le_one_right cosines (cos_le_one Δ)
  rw [cos_abs, cos_sub]
  linarith

/-- **A point beyond a meridian is at least as far away as that meridian.** The other point
lies beyond if the longitudes differ, around the sphere, by `δ` or more. -/
theorem arcsin_le_centralAngle (north : |φ| ≤ π / 2) (north' : |ψ| ≤ π / 2)
    (beyond : cos Δ ≤ cos δ) : arcsin |cos φ * sin δ| ≤ centralAngle φ ψ Δ := by
  have cosines : 0 ≤ cos φ * cos ψ := mul_nonneg
    (cos_nonneg_of_mem_Icc (abs_le.mp north)) (cos_nonneg_of_mem_Icc (abs_le.mp north'))
  have half : arcsin |cos φ * sin δ| ≤ π := by
    have bound := arcsin_le_pi_div_two |cos φ * sin δ|
    linarith [pi_pos]
  refine le_centralAngle half ?_
  have plane : sin φ ^ 2 + (cos φ * cos δ) ^ 2 = 1 - |cos φ * sin δ| ^ 2 := by
    rw [sq_abs, mul_pow, mul_pow, sin_sq φ, sin_sq δ]
    ring
  rw [cos_arcsin, ← plane]
  calc sin φ * sin ψ + cos φ * cos ψ * cos Δ
      ≤ sin φ * sin ψ + cos φ * cos ψ * cos δ := by
        linarith [mul_le_mul_of_nonneg_left beyond cosines]
    _ = sin φ * sin ψ + cos φ * cos δ * cos ψ := by ring
    _ ≤ √(sin φ ^ 2 + (cos φ * cos δ) ^ 2) :=
        scalar_le _ _ _ _ (sin_sq_add_cos_sq ψ)

/-- **A circle that leaves out the poles is bounded by two meridians.** A point within `r` of
another lies between the meridians that touch the circle. -/
theorem cos_le_of_centralAngle_le {r : ℝ} (north : |φ| ≤ π / 2) (north' : |ψ| ≤ π / 2)
    (positive : 0 ≤ r) (room : |φ| + r < π / 2) (near : centralAngle φ ψ Δ ≤ r) :
    cos (arcsin (sin r / cos φ)) ≤ cos Δ := by
  have inner : 0 < cos φ := by
    rw [← cos_abs]
    exact cos_pos_of_mem_Ioo ⟨by linarith [abs_nonneg φ, pi_pos], by linarith⟩
  have shorter : sin r < cos φ := by
    rw [← cos_abs, ← sin_pi_div_two_sub]
    exact sin_lt_sin_of_lt_of_le_pi_div_two (by linarith [pi_pos])
      (by linarith [abs_nonneg φ]) (by linarith)
  have sinNonneg : 0 ≤ sin r :=
    sin_nonneg_of_nonneg_of_le_pi positive (by linarith [abs_nonneg φ, pi_pos])
  have ratio : 0 ≤ sin r / cos φ := div_nonneg sinNonneg inner.le
  have ratioLt : sin r / cos φ < 1 := (div_lt_one inner).mpr shorter
  by_contra beyond
  rw [not_le] at beyond
  -- The point lies beyond a meridian that is strictly farther away than the circle reaches.
  have widthNonneg : 0 ≤ arcsin (sin r / cos φ) := arcsin_nonneg.mpr ratio
  have widthLt : arcsin (sin r / cos φ) < π / 2 := arcsin_lt_pi_div_two.mpr ratioLt
  have turned : arcsin (sin r / cos φ) < arccos (cos Δ) := by
    have anti := arccos_lt_arccos (neg_one_le_cos Δ) beyond (cos_le_one _)
    rwa [arccos_cos widthNonneg (by linarith [pi_pos])] at anti
  have wider : arcsin (sin r / cos φ) < min (arccos (cos Δ)) (π / 2) := lt_min turned widthLt
  have farther : cos Δ ≤ cos (min (arccos (cos Δ)) (π / 2)) := by
    have cosine := cos_le_cos_of_nonneg_of_le_pi (widthNonneg.trans wider.le) (arccos_le_pi (cos Δ))
      (min_le_left (arccos (cos Δ)) (π / 2))
    rwa [cos_arccos (neg_one_le_cos Δ) (cos_le_one Δ)] at cosine
  have angle := arcsin_le_centralAngle (δ := min (arccos (cos Δ)) (π / 2)) north north' farther
  have sine : sin (arcsin (sin r / cos φ)) < sin (min (arccos (cos Δ)) (π / 2)) :=
    sin_lt_sin_of_lt_of_le_pi_div_two (by linarith) (min_le_right _ _) wider
  rw [sin_arcsin (by linarith) ratioLt.le, div_lt_iff₀ inner] at sine
  have reached : sin r < |cos φ * sin (min (arccos (cos Δ)) (π / 2))| := by
    refine lt_of_lt_of_le ?_ (le_abs_self _)
    rw [mul_comm]
    exact sine
  have bounded : |cos φ * sin (min (arccos (cos Δ)) (π / 2))| ≤ 1 := by
    rw [abs_mul]
    exact mul_le_one₀ (abs_cos_le_one φ) (abs_nonneg _) (abs_sin_le_one _)
  have longer : r < arcsin |cos φ * sin (min (arccos (cos Δ)) (π / 2))| := by
    rw [lt_arcsin_iff_sin_lt ⟨by linarith [pi_pos], by linarith [abs_nonneg φ]⟩
      ⟨by linarith [abs_nonneg (cos φ * sin (min (arccos (cos Δ)) (π / 2)))], bounded⟩]
    exact reached
  linarith

/-- An angle whose cosine is at least that of a width lies within the width of zero, or of a
full turn or beyond. -/
theorem near_turn {width : ℝ} (nonneg : 0 ≤ width) (cosine : cos width ≤ cos Δ) :
    |Δ| ≤ width ∨ 2 * π - width ≤ |Δ| := by
  by_contra outside
  push Not at outside
  obtain ⟨wide, short⟩ := outside
  rw [← cos_abs Δ] at cosine
  by_cases half : |Δ| ≤ π
  · have smaller := cos_lt_cos_of_nonneg_of_le_pi nonneg half wide
    linarith
  · have smaller := cos_lt_cos_of_nonneg_of_le_pi nonneg
      (show 2 * π - |Δ| ≤ π by linarith) (by linarith)
    rw [cos_two_pi_sub] at smaller
    linarith

/-- The angle from the north pole is what the latitude lacks to it. -/
theorem centralAngle_pole (south : -(π / 2) ≤ ψ) (north : ψ ≤ π / 2) (Δ : ℝ) :
    centralAngle (π / 2) ψ Δ = π / 2 - ψ := by
  refine centralAngle_eq (by linarith) (by linarith) ?_
  rw [sin_pi_div_two, cos_pi_div_two, cos_pi_div_two_sub]
  ring

end OsmMini.Foundations.GreatCircle

import Mathlib.Analysis.SpecialFunctions.Complex.Arg
import Mathlib.Analysis.SpecialFunctions.Trigonometric.Bounds
import OsmMini.Foundations.Literals

/-!
# Directions in the plane

A direction is a complex number other than zero, and the turn from one direction to another is
the argument of the second times the conjugate of the first. Where a direction is known only
approximately, an error that is a small part of its length is a small angle
(`abs_arg_le_of_near`). The turn between two directions is the turn between their approximations
up to both of these angles (`coe_arg_sub`).

Turns are compared by their cosines. A cosine that keeps a margin from a threshold stays on
its side of the threshold, and so does the sign of the sine away from the straight line.
-/

set_option autoImplicit false

namespace OsmMini.Foundations.Directions

open Complex ComplexConjugate

/-! ## Approximate directions -/

theorem abs_le_abs_tan {x : ℝ} (small : |x| < Real.pi / 2) : |x| ≤ |Real.tan x| := by
  rcases le_total 0 x with nonneg | nonpos
  · rw [abs_of_nonneg nonneg] at small ⊢
    exact (Real.le_tan nonneg small).trans (le_abs_self _)
  · rw [abs_of_nonpos nonpos] at small ⊢
    have tangent := Real.le_tan (neg_nonneg.mpr nonpos) small
    rw [Real.tan_neg] at tangent
    exact tangent.trans (neg_le_abs _)

/-- **A small error is a small angle.** -/
theorem abs_arg_le_of_near {p q : ℂ} {error : ℝ} (nonzero : p ≠ 0) (small : error < 1)
    (near : ‖q - p‖ ≤ error * ‖p‖) : |arg (q * conj p)| ≤ error / (1 - error) := by
  have length : 0 < ‖p‖ := norm_pos_iff.mpr nonzero
  have square : 0 < ‖p‖ * ‖p‖ := mul_pos length length
  have split : q * conj p = (q - p) * conj p + ((‖p‖ * ‖p‖ : ℝ) : ℂ) := by
    rw [sub_mul, mul_conj, normSq_eq_norm_sq, pow_two, sub_add_cancel]
  have bound : ‖(q - p) * conj p‖ ≤ error * (‖p‖ * ‖p‖) := by
    rw [norm_mul, RCLike.norm_conj, ← mul_assoc]
    exact mul_le_mul_of_nonneg_right near length.le
  have along : (1 - error) * (‖p‖ * ‖p‖) ≤ (q * conj p).re := by
    rw [split, add_re, ofReal_re]
    have real := (abs_le.mp ((abs_re_le_norm _).trans bound)).1
    linarith
  have across : |(q * conj p).im| ≤ error * (‖p‖ * ‖p‖) := by
    rw [split, add_im, ofReal_im, add_zero]
    exact (abs_im_le_norm _).trans bound
  have positive : 0 < (1 - error) * (‖p‖ * ‖p‖) := mul_pos (sub_pos.mpr small) square
  have right : |arg (q * conj p)| < Real.pi / 2 :=
    abs_arg_lt_pi_div_two_iff.mpr (Or.inl (positive.trans_le along))
  calc |arg (q * conj p)|
      ≤ |Real.tan (arg (q * conj p))| := abs_le_abs_tan right
    _ = |(q * conj p).im| / (q * conj p).re := by
        rw [tan_arg, abs_div, abs_of_pos (positive.trans_le along)]
    _ ≤ error * (‖p‖ * ‖p‖) / ((1 - error) * (‖p‖ * ‖p‖)) := by
        refine div_le_div₀ ?_ across positive along
        exact (abs_nonneg _).trans across
    _ = error / (1 - error) := mul_div_mul_right _ _ square.ne'

theorem ne_zero_of_near {p q : ℂ} {error : ℝ} (nonzero : p ≠ 0) (small : error < 1)
    (near : ‖q - p‖ ≤ error * ‖p‖) : q ≠ 0 := by
  rintro rfl
  have length : 0 < ‖p‖ := norm_pos_iff.mpr nonzero
  rw [zero_sub, norm_neg] at near
  have shorter := mul_lt_mul_of_pos_right small length
  linarith

/-- **The turn between two directions** is the turn between their approximations and the two
errors. -/
theorem coe_arg_sub {p p' q q' : ℂ} (first : p ≠ 0) (second : p' ≠ 0) (exact : q ≠ 0)
    (exact' : q' ≠ 0) :
    ((arg q' - arg q : ℝ) : Real.Angle) =
      ((arg (p' * conj p) + (arg (q' * conj p') - arg (q * conj p)) : ℝ) : Real.Angle) := by
  have turned : ∀ {x y : ℂ}, x ≠ 0 → y ≠ 0 →
      ((arg (y * conj x) : ℝ) : Real.Angle) = (arg y : Real.Angle) - arg x := by
    intro x y left right
    rw [arg_mul_coe_angle right ((map_ne_zero _).mpr left), arg_conj_coe_angle, sub_eq_add_neg]
  rw [Real.Angle.coe_sub, Real.Angle.coe_add, Real.Angle.coe_sub, turned first second,
    turned second exact', turned first exact]
  abel

/-! ## Margins -/

section Margins

variable {θ e margin threshold : ℝ}

theorem lt_abs_of_cos_lt (high : threshold ≤ Real.pi) (cosine : Real.cos θ < Real.cos threshold) :
    threshold < |θ| := by
  by_contra within
  have atLeast := Real.cos_le_cos_of_nonneg_of_le_pi (abs_nonneg θ) high (not_lt.mp within)
  rw [Real.cos_abs] at atLeast
  linarith

theorem abs_lt_of_lt_cos (range : |θ| ≤ Real.pi) (low : 0 ≤ threshold)
    (cosine : Real.cos threshold < Real.cos θ) : |θ| < threshold := by
  by_contra beyond
  have atMost := Real.cos_le_cos_of_nonneg_of_le_pi low range (not_lt.mp beyond)
  rw [Real.cos_abs] at atMost
  linarith

/-- A turn beyond a threshold by the margin stays beyond it. -/
theorem cos_add_lt (range : |θ| ≤ Real.pi) (low : 0 ≤ threshold)
    (high : threshold + margin ≤ Real.pi) (error : |e| ≤ margin)
    (cosine : Real.cos θ < Real.cos (threshold + margin)) :
    Real.cos (θ + e) < Real.cos threshold := by
  have beyond := lt_abs_of_cos_lt high cosine
  have atLeast : threshold < |θ + e| := by
    have triangle := abs_sub_abs_le_abs_sub θ (-e)
    rw [abs_neg, sub_neg_eq_add] at triangle
    linarith
  have atMost : |θ + e| ≤ Real.pi + margin := (abs_add_le θ e).trans (add_le_add range error)
  rw [← Real.cos_abs (θ + e)]
  by_cases half : |θ + e| ≤ Real.pi
  · exact Real.cos_lt_cos_of_nonneg_of_le_pi low half atLeast
  · -- past half a turn the cosine is that of the rest of the turn
    rw [← Real.cos_two_pi_sub]
    exact Real.cos_lt_cos_of_nonneg_of_le_pi low (by linarith) (by linarith)

/-- A turn below a threshold by the margin stays below it. -/
theorem lt_cos_add (range : |θ| ≤ Real.pi) (low : margin ≤ threshold)
    (high : threshold ≤ Real.pi) (error : |e| ≤ margin)
    (cosine : Real.cos (threshold - margin) < Real.cos θ) :
    Real.cos threshold < Real.cos (θ + e) := by
  have below := abs_lt_of_lt_cos range (sub_nonneg.mpr low) cosine
  have within : |θ + e| < threshold := by
    have triangle := abs_add_le θ e
    linarith
  rw [← Real.cos_abs (θ + e)]
  exact Real.cos_lt_cos_of_nonneg_of_le_pi (abs_nonneg _) high within

/-- A turn off the straight line by the margin keeps its side. -/
theorem sin_add_pos_iff (range : |θ| ≤ Real.pi) (error : |e| ≤ margin)
    (ahead : Real.cos θ < Real.cos margin) (back : Real.cos (Real.pi - margin) < Real.cos θ)
    (small : margin ≤ Real.pi) : 0 < Real.sin (θ + e) ↔ 0 < Real.sin θ := by
  have off := lt_abs_of_cos_lt small ahead
  have off' := abs_lt_of_lt_cos range (sub_nonneg.mpr small) back
  obtain ⟨low, high⟩ := abs_le.mp error
  rcases le_or_gt 0 θ with right | left
  · rw [abs_of_nonneg right] at off off'
    have turned : 0 < Real.sin (θ + e) :=
      Real.sin_pos_of_pos_of_lt_pi (by linarith) (by linarith)
    have planned : 0 < Real.sin θ := Real.sin_pos_of_pos_of_lt_pi (by linarith) (by linarith)
    exact ⟨fun _ => planned, fun _ => turned⟩
  · rw [abs_of_neg left] at off off'
    have turned : Real.sin (θ + e) < 0 :=
      Real.sin_neg_of_neg_of_neg_pi_lt (by linarith) (by linarith)
    have planned : Real.sin θ < 0 := Real.sin_neg_of_neg_of_neg_pi_lt (by linarith) (by linarith)
    exact ⟨fun positive => absurd positive turned.not_gt,
      fun positive => absurd positive planned.not_gt⟩

end Margins

end OsmMini.Foundations.Directions

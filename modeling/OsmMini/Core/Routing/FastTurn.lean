import OsmMini.Core.Routing.Maneuvers
import OsmMini.Core.Snap.Nearest
import OsmMini.Foundations.Directions

/-!
# Turns without trigonometry

A turn is classified by the difference of two great-circle bearings. Most turns are far from
the thresholds of 30 and 160 degrees and are decided by a dot and a cross product in the plane
that touches the sphere at the middle node; the rest fall back to the bearings.

The planar direction of an edge differs from its bearing by at most a hundredth of the length
of the edge (`near_bearing`), at any latitude: the cosines at the two ends of an edge differ by
no more than its extent in latitude. Both directions together are off by less than the margin
of one and a half degrees, so the dot product decides as the cosine of the exact turn does, and
the cross product has the sign of its sine. Whatever the fast path decides is the exact kind.
-/

set_option autoImplicit false

namespace OsmMini.Core

open Foundations Foundations.Directions Foundations.GreatCircle Snap
open Complex ComplexConjugate

/-! ## Exact turns -/

noncomputable def rad2deg (r : ℝ) : ℝ := r * 180 / Real.pi

/-- The initial bearing of the great circle from one point to another, clockwise from north. -/
noncomputable def bearingDeg (lat1 lon1 lat2 lon2 : ℝ) : ℝ :=
  let φ1 := deg2rad lat1
  let φ2 := deg2rad lat2
  let Δ := deg2rad (lon2 - lon1)
  let y := Real.sin Δ * Real.cos φ2
  let x := Real.cos φ1 * Real.sin φ2 - Real.sin φ1 * Real.cos φ2 * Real.cos Δ
  let bearing := rad2deg (atan2 y x) + 360
  if 360 ≤ bearing then bearing - 360 else bearing

noncomputable def turnKindForBearings (incoming outgoing : ℝ) : TurnKind :=
  let diff := angleDiffDeg outgoing incoming
  if 160 < |diff| then .uTurn
  else if 30 < diff then .right
  else if diff < -30 then .left
  else .straight

/-! ## Fast turns -/

noncomputable def turnFastMarginDeg : ℝ := 3 / 2
noncomputable def turnFastMaxSpanDeg : ℝ := 1 / 4
def turnFastMaxLatitudeDeg : ℝ := 70

/-- Edges shorter than about one centimetre are left to the bearings. -/
noncomputable def turnFastMinLengthSquared : ℝ := 1 / 100000000000000

noncomputable def turnCosUTurnCertain : ℝ := Real.cos ((160 + turnFastMarginDeg) * Real.pi / 180)
noncomputable def turnCosUTurnUncertain : ℝ := Real.cos ((160 - turnFastMarginDeg) * Real.pi / 180)
noncomputable def turnCosStraightCertain : ℝ := Real.cos ((30 - turnFastMarginDeg) * Real.pi / 180)
noncomputable def turnCosStraightMargin : ℝ := Real.cos ((30 + turnFastMarginDeg) * Real.pi / 180)

/-- The incoming direction of a node: east, scaled by the cosine of the latitude, and north. -/
structure FastTurn where
  valid : Bool
  centre : Coord ℝ
  cosLat : ℝ
  inX : ℝ
  inY : ℝ
  inLenSq : ℝ

/-- No incoming direction. -/
def FastTurn.invalid : FastTurn := ⟨false, ⟨0, 0⟩, 0, 0, 0, 0⟩

noncomputable def newFastTurn (previous centre : Coord ℝ) : FastTurn :=
  if ¬ |centre.lat| ≤ turnFastMaxLatitudeDeg then .invalid
  else
    let dLat := centre.lat - previous.lat
    let dLon := centre.lon - previous.lon
    if ¬ (|dLat| ≤ turnFastMaxSpanDeg ∧ |dLon| ≤ turnFastMaxSpanDeg) then .invalid
    else
      let cosLat := Real.cos (deg2rad centre.lat)
      let x := dLon * cosLat
      let y := dLat
      let lengthSq := x * x + y * y
      if ¬ turnFastMinLengthSquared ≤ lengthSq then .invalid
      else ⟨true, centre, cosLat, x, y, lengthSq⟩

/-- The kind of the turn to the next node, or nothing where the bearings are needed. -/
noncomputable def FastTurn.classify (t : FastTurn) (next : Coord ℝ) : Option TurnKind :=
  if !t.valid then none
  else
    let dLat := next.lat - t.centre.lat
    let dLon := next.lon - t.centre.lon
    if ¬ (|dLat| ≤ turnFastMaxSpanDeg ∧ |dLon| ≤ turnFastMaxSpanDeg) then none
    else
      let x := dLon * t.cosLat
      let y := dLat
      let lengthSq := x * x + y * y
      if ¬ turnFastMinLengthSquared ≤ lengthSq then none
      else
        let norm := √(t.inLenSq * lengthSq)
        let cosine := (t.inX * x + t.inY * y) / norm
        if cosine < turnCosUTurnCertain then some .uTurn
        else if turnCosStraightCertain < cosine then some .straight
        else if cosine ≤ turnCosUTurnUncertain ∨ turnCosStraightMargin ≤ cosine then none
        -- a positive clockwise rotation is a right turn
        else if 0 < t.inY * x - t.inX * y then some .right
        else some .left

/-- The turn at three nodes: fast where that decides, and by the bearings otherwise. -/
noncomputable def turnKindAt (previous centre next : Coord ℝ) : TurnKind :=
  match (newFastTurn previous centre).classify next with
  | some kind => kind
  | none => turnKindForBearings
      (bearingDeg previous.lat previous.lon centre.lat centre.lon)
      (bearingDeg centre.lat centre.lon next.lat next.lon)

/-! ## Bearings as directions -/

/-- The direction whose argument is the bearing: north and east. -/
noncomputable def bearingVector (φ ψ Δ : ℝ) : ℂ :=
  ⟨Real.cos φ * Real.sin ψ - Real.sin φ * Real.cos ψ * Real.cos Δ, Real.sin Δ * Real.cos ψ⟩

theorem deg2rad_rad2deg (r : ℝ) : deg2rad (rad2deg r) = r := by
  have pi := Real.pi_ne_zero
  unfold deg2rad rad2deg
  field_simp

theorem rad2deg_bounds (z : ℂ) : -180 < rad2deg (arg z) ∧ rad2deg (arg z) ≤ 180 := by
  have pi := Real.pi_pos
  unfold rad2deg
  rw [lt_div_iff₀ pi, div_le_iff₀ pi]
  have low := neg_pi_lt_arg z
  have high := arg_le_pi z
  constructor <;> linarith

/-- Bearings run from 0 up to 360. -/
theorem bearingDeg_bounds (lat1 lon1 lat2 lon2 : ℝ) :
    0 ≤ bearingDeg lat1 lon1 lat2 lon2 ∧ bearingDeg lat1 lon1 lat2 lon2 < 360 := by
  unfold bearingDeg atan2
  dsimp only
  obtain ⟨low, high⟩ := rad2deg_bounds (bearingVector (deg2rad lat1) (deg2rad lat2)
    (deg2rad (lon2 - lon1)))
  unfold bearingVector at low high
  split_ifs with full
  · constructor <;> linarith
  · rw [not_le] at full
    constructor <;> linarith

theorem deg2rad_add (a b : ℝ) : deg2rad (a + b) = deg2rad a + deg2rad b := by
  unfold deg2rad
  ring

/-- A full turn changes no angle. -/
theorem coe_deg2rad_add_turn (a : ℝ) :
    ((deg2rad (a + 360) : ℝ) : Real.Angle) = (deg2rad a : ℝ) := by
  have turn : deg2rad 360 = 2 * Real.pi := by
    unfold deg2rad
    ring
  rw [deg2rad_add, turn, Real.Angle.coe_add, Real.Angle.coe_two_pi, add_zero]

theorem coe_bearingDeg (lat1 lon1 lat2 lon2 : ℝ) :
    ((deg2rad (bearingDeg lat1 lon1 lat2 lon2) : ℝ) : Real.Angle) =
      (arg (bearingVector (deg2rad lat1) (deg2rad lat2) (deg2rad (lon2 - lon1))) : ℝ) := by
  unfold bearingDeg atan2
  dsimp only
  split_ifs with full
  · rw [add_sub_cancel_right, deg2rad_rad2deg]
    rfl
  · rw [coe_deg2rad_add_turn, deg2rad_rad2deg]
    rfl

/-- The difference of two bearings is an angle of at most half a turn. -/
theorem angleDiffDeg_bounds {a b : ℝ} (first : 0 ≤ a ∧ a < 360) (second : 0 ≤ b ∧ b < 360) :
    |angleDiffDeg a b| ≤ 180 := by
  unfold angleDiffDeg
  dsimp only
  rw [abs_le]
  split_ifs with twice once <;> constructor <;> linarith

theorem coe_angleDiffDeg (a b : ℝ) :
    ((deg2rad (angleDiffDeg a b) : ℝ) : Real.Angle) = (deg2rad a : ℝ) - (deg2rad b : ℝ) := by
  rw [← Real.Angle.coe_sub, ← deg2rad_sub]
  unfold angleDiffDeg
  dsimp only
  split_ifs
  · rw [← coe_deg2rad_add_turn]
    congr 2
    ring
  · congr 2
    ring
  · rw [← coe_deg2rad_add_turn (a - b)]
    congr 2
    ring

/-! ## The kind from a cosine and a sine -/

theorem cos_deg_lt_iff {a b : ℝ} (first : 0 ≤ a ∧ a ≤ 180) (second : 0 ≤ b ∧ b ≤ 180) :
    Real.cos (deg2rad a) < Real.cos (deg2rad b) ↔ b < a := by
  have inRange : ∀ {d : ℝ}, 0 ≤ d ∧ d ≤ 180 → deg2rad d ∈ Set.Icc 0 Real.pi := by
    intro d range
    refine ⟨deg2rad_nonneg range.1, (deg2rad_le range.2).trans (le_of_eq ?_)⟩
    unfold deg2rad
    ring
  rw [Real.strictAntiOn_cos.lt_iff_gt (inRange first) (inRange second)]
  have pi := Real.pi_pos
  unfold deg2rad
  rw [div_lt_div_iff_of_pos_right (by norm_num), mul_lt_mul_iff_left₀ pi]

/-- The kind of a turn with some cosine and sine. -/
noncomputable def kindOfTurn (cosine sine : ℝ) : TurnKind :=
  if cosine < Real.cos (deg2rad 160) then .uTurn
  else if Real.cos (deg2rad 30) ≤ cosine then .straight
  else if 0 < sine then .right
  else .left

/-- **The exact kind depends on the cosine and the sine of the difference of the bearings.** -/
theorem turnKindForBearings_eq {incoming outgoing : ℝ} (first : 0 ≤ incoming ∧ incoming < 360)
    (second : 0 ≤ outgoing ∧ outgoing < 360) :
    turnKindForBearings incoming outgoing =
      kindOfTurn (Real.cos (deg2rad (angleDiffDeg outgoing incoming)))
        (Real.sin (deg2rad (angleDiffDeg outgoing incoming))) := by
  unfold turnKindForBearings kindOfTurn
  dsimp only
  generalize difference : angleDiffDeg outgoing incoming = diff
  have range : |diff| ≤ 180 := difference ▸ angleDiffDeg_bounds second first
  have even : Real.cos (deg2rad diff) = Real.cos (deg2rad |diff|) := by
    rw [← abs_deg2rad, Real.cos_abs]
  have uTurn : Real.cos (deg2rad diff) < Real.cos (deg2rad 160) ↔ 160 < |diff| := by
    rw [even]
    exact cos_deg_lt_iff ⟨abs_nonneg _, range⟩ (by norm_num)
  have straight : Real.cos (deg2rad 30) ≤ Real.cos (deg2rad diff) ↔ |diff| ≤ 30 := by
    rw [even, ← not_lt, cos_deg_lt_iff ⟨abs_nonneg _, range⟩ (by norm_num), not_lt]
  by_cases around : 160 < |diff|
  · rw [if_pos around, if_pos (uTurn.mpr around)]
  · rw [if_neg around, if_neg (fun less => around (uTurn.mp less))]
    by_cases ahead : |diff| ≤ 30
    · obtain ⟨low, high⟩ := abs_le.mp ahead
      rw [if_pos (straight.mpr ahead), if_neg (not_lt.mpr high), if_neg (not_lt.mpr low)]
    · rw [if_neg (fun atLeast => ahead (straight.mp atLeast))]
      rw [not_le] at ahead
      rw [not_lt] at around
      have pi := Real.pi_pos
      have half : deg2rad 180 = Real.pi := by
        unfold deg2rad
        ring
      rcases le_total 0 diff with right | left
      · rw [abs_of_nonneg right] at ahead around
        have sine : 0 < Real.sin (deg2rad diff) := by
          refine Real.sin_pos_of_pos_of_lt_pi ?_ ?_
          · unfold deg2rad
            have positive : 0 < diff := by linarith
            positivity
          · rw [← half]
            unfold deg2rad
            have less := mul_lt_mul_of_pos_right (by linarith : diff < 180) pi
            linarith
        rw [if_pos ahead, if_pos sine]
      · rw [abs_of_nonpos left] at ahead around
        have sine : ¬ 0 < Real.sin (deg2rad diff) := by
          rw [not_lt]
          refine Real.sin_nonpos_of_nonpos_of_neg_pi_le ?_ ?_
          · have opposite := deg2rad_nonneg (neg_nonneg.mpr left)
            unfold deg2rad at opposite ⊢
            linarith
          · have most := deg2rad_le (by linarith : -diff ≤ 180)
            rw [half] at most
            unfold deg2rad at most ⊢
            linarith
        rw [if_neg (by linarith), if_pos (by linarith), if_neg sine]

/-! ## The planar directions -/

/-- The error of a small sine. -/
theorem abs_sin_sub_le (x : ℝ) : |Real.sin x - x| ≤ |x| ^ 3 / 6 := by
  have bound : ∀ {y : ℝ}, 0 < y → |Real.sin y - y| ≤ y ^ 3 / 6 := by
    intro y positive
    have above := Real.sin_lt positive
    have below := Real.sin_gt_sub_cube positive
    have cube : 0 < y ^ 3 := by positivity
    exact abs_le.mpr ⟨by linarith, by linarith⟩
  rcases lt_trichotomy x 0 with negative | rfl | positive
  · rw [abs_of_neg negative]
    refine le_trans (le_of_eq ?_) (bound (neg_pos.mpr negative))
    rw [Real.sin_neg, ← abs_neg]
    congr 1
    ring
  · simp
  · rw [abs_of_pos positive]
    exact bound positive

/-- **The planar direction of a short edge is close to its bearing.** The cosine is taken at
either end of the edge. -/
theorem near_bearing {φ ψ Δ c : ℝ} (parallels : |ψ - φ| ≤ 11 / 2500) (meridians : |Δ| ≤ 11 / 2500)
    (cosine : |Real.cos ψ - c| ≤ |ψ - φ|) :
    ‖bearingVector φ ψ Δ - ⟨ψ - φ, Δ * c⟩‖ ≤ 1 / 100 * ‖(⟨ψ - φ, Δ * c⟩ : ℂ)‖ := by
  set length := ‖(⟨ψ - φ, Δ * c⟩ : ℂ)‖ with lengthEq
  have nonneg : 0 ≤ length := norm_nonneg _
  have north : |ψ - φ| ≤ length := abs_re_le_norm (⟨ψ - φ, Δ * c⟩ : ℂ)
  have east : |Δ| * |c| ≤ length := by
    rw [← abs_mul]
    exact abs_im_le_norm (⟨ψ - φ, Δ * c⟩ : ℂ)
  -- the extent of the edge along the parallel of its end
  have drift : |Δ| * |Real.cos ψ - c| ≤ 11 / 2500 * length :=
    mul_le_mul meridians (cosine.trans north) (abs_nonneg _) (by norm_num)
  have along : |Δ| * |Real.cos ψ| ≤ 2511 / 2500 * length := by
    have triangle : |Real.cos ψ| ≤ |c| + |Real.cos ψ - c| := by
      have sum := abs_add_le c (Real.cos ψ - c)
      rwa [add_sub_cancel] at sum
    have scaled := mul_le_mul_of_nonneg_left triangle (abs_nonneg Δ)
    rw [mul_add] at scaled
    linarith
  have cube : ∀ {x : ℝ}, |x| ≤ 11 / 2500 → |Real.sin x - x| ≤ |x| * (1 / 100000) := by
    intro x small
    have square : |x| * |x| ≤ 11 / 2500 * (11 / 2500) :=
      mul_le_mul small small (abs_nonneg _) (by norm_num)
    have scaled := mul_le_mul_of_nonneg_left square (abs_nonneg x)
    refine (abs_sin_sub_le x).trans ?_
    rw [pow_succ, pow_two]
    have positive := abs_nonneg x
    linarith
  have real : |(bearingVector φ ψ Δ - ⟨ψ - φ, Δ * c⟩).re| ≤ 1 / 300 * length := by
    have shape : (bearingVector φ ψ Δ - ⟨ψ - φ, Δ * c⟩).re =
        (Real.sin (ψ - φ) - (ψ - φ)) + Real.sin φ * (Real.cos ψ * (1 - Real.cos Δ)) := by
      rw [sub_re, bearingVector, Real.sin_sub]
      ring
    have first := (cube parallels).trans
      (mul_le_mul_of_nonneg_right north (by norm_num : (0 : ℝ) ≤ 1 / 100000))
    have second : |Real.sin φ * (Real.cos ψ * (1 - Real.cos Δ))| ≤ 3 / 1000 * length := by
      have versed : |1 - Real.cos Δ| ≤ |Δ| * (11 / 5000) := by
        rw [abs_of_nonneg (sub_nonneg.mpr (Real.cos_le_one Δ))]
        have square : Δ ^ 2 ≤ |Δ| * (11 / 2500) := by
          rw [← sq_abs, pow_two]
          exact mul_le_mul_of_nonneg_left meridians (abs_nonneg Δ)
        have lower := Real.one_sub_sq_div_two_le_cos (x := Δ)
        linarith
      have unit : |Real.sin φ| * |Real.cos ψ * (1 - Real.cos Δ)| ≤
          1 * |Real.cos ψ * (1 - Real.cos Δ)| :=
        mul_le_mul_of_nonneg_right (Real.abs_sin_le_one φ) (abs_nonneg _)
      have product := mul_le_mul_of_nonneg_left versed (abs_nonneg (Real.cos ψ))
      rw [abs_mul, abs_mul] at *
      linarith
    rw [shape]
    exact (abs_add_le _ _).trans (by linarith)
  have imaginary : |(bearingVector φ ψ Δ - ⟨ψ - φ, Δ * c⟩).im| ≤ 1 / 200 * length := by
    have shape : (bearingVector φ ψ Δ - ⟨ψ - φ, Δ * c⟩).im =
        (Real.sin Δ - Δ) * Real.cos ψ + Δ * (Real.cos ψ - c) := by
      rw [sub_im, bearingVector]
      ring
    have first : |(Real.sin Δ - Δ) * Real.cos ψ| ≤ 1 / 10000 * length := by
      rw [abs_mul]
      have product := mul_le_mul_of_nonneg_right (cube meridians) (abs_nonneg (Real.cos ψ))
      linarith
    rw [shape]
    refine (abs_add_le _ _).trans ?_
    rw [abs_mul Δ]
    linarith
  exact (norm_le_abs_re_add_abs_im _).trans (by linarith)

/-- The planar direction of an edge in degrees: north, and east scaled by a cosine. -/
def planarVector (dLat dLon cosLat : ℝ) : ℂ := ⟨dLat, dLon * cosLat⟩

/-- The planar direction in radians. -/
theorem planarVector_deg2rad (dLat dLon cosLat : ℝ) :
    planarVector (deg2rad dLat) (deg2rad dLon) cosLat =
      ((Real.pi / 180 : ℝ) : ℂ) * planarVector dLat dLon cosLat := by
  apply Complex.ext
  · rw [re_ofReal_mul]
    simp only [planarVector, deg2rad]
    ring
  · rw [im_ofReal_mul]
    simp only [planarVector, deg2rad]
    ring

/-- Directions in degrees and in radians turn alike. -/
theorem arg_planar_turn (dLat dLon dLat' dLon' cosLat : ℝ) :
    arg (planarVector (deg2rad dLat') (deg2rad dLon') cosLat *
        conj (planarVector (deg2rad dLat) (deg2rad dLon) cosLat)) =
      arg (planarVector dLat' dLon' cosLat * conj (planarVector dLat dLon cosLat)) := by
  have pi := Real.pi_pos
  have scaled : planarVector (deg2rad dLat') (deg2rad dLon') cosLat *
      conj (planarVector (deg2rad dLat) (deg2rad dLon) cosLat) =
      ((Real.pi / 180 * (Real.pi / 180) : ℝ) : ℂ) *
        (planarVector dLat' dLon' cosLat * conj (planarVector dLat dLon cosLat)) := by
    rw [planarVector_deg2rad, planarVector_deg2rad, map_mul, conj_ofReal]
    push_cast
    ring
  rw [scaled, arg_real_mul _ (by positivity)]

/-- The span of an edge in radians. -/
theorem abs_deg2rad_span {d : ℝ} (short : |d| ≤ turnFastMaxSpanDeg) : |deg2rad d| ≤ 11 / 2500 := by
  rw [abs_deg2rad]
  refine (deg2rad_le short).trans ?_
  have pi := Real.pi_lt_d2
  unfold deg2rad turnFastMaxSpanDeg
  linarith

theorem planarVector_deg2rad_ne_zero {dLat dLon cosLat : ℝ}
    (long : planarVector dLat dLon cosLat ≠ 0) :
    planarVector (deg2rad dLat) (deg2rad dLon) cosLat ≠ 0 := by
  have pi := Real.pi_ne_zero
  rw [planarVector_deg2rad]
  refine mul_ne_zero (ofReal_ne_zero.mpr ?_) long
  positivity

/-- **The exact turn is the planar turn up to the margin.** -/
theorem exact_turn {previous centre next : Coord ℝ}
    (span : |centre.lat - previous.lat| ≤ turnFastMaxSpanDeg ∧
      |centre.lon - previous.lon| ≤ turnFastMaxSpanDeg)
    (span' : |next.lat - centre.lat| ≤ turnFastMaxSpanDeg ∧
      |next.lon - centre.lon| ≤ turnFastMaxSpanDeg)
    (long : planarVector (centre.lat - previous.lat) (centre.lon - previous.lon)
      (Real.cos (deg2rad centre.lat)) ≠ 0)
    (long' : planarVector (next.lat - centre.lat) (next.lon - centre.lon)
      (Real.cos (deg2rad centre.lat)) ≠ 0) :
    ∃ e, |e| ≤ deg2rad turnFastMarginDeg ∧
      ((deg2rad (angleDiffDeg (bearingDeg centre.lat centre.lon next.lat next.lon)
        (bearingDeg previous.lat previous.lon centre.lat centre.lon)) : ℝ) : Real.Angle) =
      ((arg (planarVector (next.lat - centre.lat) (next.lon - centre.lon)
          (Real.cos (deg2rad centre.lat)) *
        conj (planarVector (centre.lat - previous.lat) (centre.lon - previous.lon)
          (Real.cos (deg2rad centre.lat)))) + e : ℝ) : Real.Angle) := by
  set cosLat := Real.cos (deg2rad centre.lat) with cosLatEq
  set p := planarVector (deg2rad (centre.lat - previous.lat)) (deg2rad (centre.lon - previous.lon))
    cosLat with planned
  set p' := planarVector (deg2rad (next.lat - centre.lat)) (deg2rad (next.lon - centre.lon))
    cosLat with planned'
  set q := bearingVector (deg2rad previous.lat) (deg2rad centre.lat)
    (deg2rad (centre.lon - previous.lon)) with incoming
  set q' := bearingVector (deg2rad centre.lat) (deg2rad next.lat)
    (deg2rad (next.lon - centre.lon)) with outgoing
  have nonzero : p ≠ 0 := planarVector_deg2rad_ne_zero long
  have nonzero' : p' ≠ 0 := planarVector_deg2rad_ne_zero long'
  have near : ‖q - p‖ ≤ 1 / 100 * ‖p‖ := by
    rw [planned, planarVector, deg2rad_sub centre.lat]
    apply near_bearing
    · rw [← deg2rad_sub]
      exact abs_deg2rad_span span.1
    · exact abs_deg2rad_span span.2
    · rw [sub_self, abs_zero]
      exact abs_nonneg _
  have near' : ‖q' - p'‖ ≤ 1 / 100 * ‖p'‖ := by
    rw [planned', planarVector, deg2rad_sub next.lat]
    apply near_bearing
    · rw [← deg2rad_sub]
      exact abs_deg2rad_span span'.1
    · exact abs_deg2rad_span span'.2
    · exact Real.abs_cos_sub_cos_le _ _
  have error := abs_arg_le_of_near nonzero (by norm_num) near
  have error' := abs_arg_le_of_near nonzero' (by norm_num) near'
  refine ⟨arg (q' * conj p') - arg (q * conj p), ?_, ?_⟩
  · have pi := Real.pi_gt_three
    refine (abs_sub _ _).trans ((add_le_add error' error).trans ?_)
    unfold deg2rad turnFastMarginDeg
    norm_num
    linarith
  · rw [coe_angleDiffDeg, coe_bearingDeg, coe_bearingDeg, ← Real.Angle.coe_sub,
      ← arg_planar_turn]
    exact coe_arg_sub nonzero nonzero' (ne_zero_of_near nonzero (by norm_num) near)
      (ne_zero_of_near nonzero' (by norm_num) near')

/-! ## What the fast path decides -/

/-- The kind that a planar turn with some cosine and cross product is decided to be. -/
def DecidedAs (cosine cross : ℝ) (kind : TurnKind) : Prop :=
  cosine < turnCosUTurnCertain ∧ kind = .uTurn ∨
    turnCosStraightCertain < cosine ∧ kind = .straight ∨
    turnCosUTurnUncertain < cosine ∧ cosine < turnCosStraightMargin ∧
      kind = if 0 < cross then .right else .left

/-- Edges long enough to be decided have a direction. -/
theorem planarVector_ne_zero {dLat dLon cosLat : ℝ}
    (long : turnFastMinLengthSquared ≤ dLon * cosLat * (dLon * cosLat) + dLat * dLat) :
    planarVector dLat dLon cosLat ≠ 0 := by
  intro zero
  have north : dLat = 0 := congrArg re zero
  have east : dLon * cosLat = 0 := congrArg im zero
  rw [north, east, mul_zero, add_zero, turnFastMinLengthSquared] at long
  norm_num at long

/-- The dot product over the lengths is the cosine of the planar turn. -/
theorem planar_cosine (dLat dLon dLat' dLon' cosLat : ℝ) :
    (dLon * cosLat * (dLon' * cosLat) + dLat * dLat') /
        √((dLon * cosLat * (dLon * cosLat) + dLat * dLat) *
          (dLon' * cosLat * (dLon' * cosLat) + dLat' * dLat')) =
      (planarVector dLat' dLon' cosLat * conj (planarVector dLat dLon cosLat)).re /
        ‖planarVector dLat' dLon' cosLat * conj (planarVector dLat dLon cosLat)‖ := by
  have length : ∀ dLat dLon : ℝ, ‖planarVector dLat dLon cosLat‖ =
      √(dLon * cosLat * (dLon * cosLat) + dLat * dLat) := by
    intro dLat dLon
    rw [Complex.norm_def, normSq_apply, planarVector, add_comm]
  rw [norm_mul, RCLike.norm_conj, length, length, mul_comm (√_), ← Real.sqrt_mul (add_nonneg
    (mul_self_nonneg _) (mul_self_nonneg _)), mul_re, conj_re, conj_im]
  congr 1
  simp only [planarVector]
  ring

/-- The cross product is positive exactly when the planar turn is clockwise. -/
theorem planar_cross (dLat dLon dLat' dLon' cosLat : ℝ) :
    dLat * (dLon' * cosLat) - dLon * cosLat * dLat' =
      (planarVector dLat' dLon' cosLat * conj (planarVector dLat dLon cosLat)).im := by
  rw [mul_im, conj_re, conj_im]
  simp only [planarVector]
  ring

/-- A decision is made on short edges with directions, from the cosine and the side of the
planar turn. -/
theorem classify_some {previous centre next : Coord ℝ} {kind : TurnKind}
    (decided : (newFastTurn previous centre).classify next = some kind) :
    (|centre.lat - previous.lat| ≤ turnFastMaxSpanDeg ∧
        |centre.lon - previous.lon| ≤ turnFastMaxSpanDeg) ∧
      (|next.lat - centre.lat| ≤ turnFastMaxSpanDeg ∧
        |next.lon - centre.lon| ≤ turnFastMaxSpanDeg) ∧
      ∃ v w : ℂ,
        v = planarVector (centre.lat - previous.lat) (centre.lon - previous.lon)
          (Real.cos (deg2rad centre.lat)) ∧
        w = planarVector (next.lat - centre.lat) (next.lon - centre.lon)
          (Real.cos (deg2rad centre.lat)) ∧
        v ≠ 0 ∧ w ≠ 0 ∧ DecidedAs ((w * conj v).re / ‖w * conj v‖) (w * conj v).im kind := by
  unfold newFastTurn at decided
  by_cases latitude : |centre.lat| ≤ turnFastMaxLatitudeDeg
  swap
  · rw [if_pos latitude] at decided
    cases decided
  rw [if_neg (not_not.mpr latitude)] at decided
  dsimp only at decided
  by_cases span : |centre.lat - previous.lat| ≤ turnFastMaxSpanDeg ∧
      |centre.lon - previous.lon| ≤ turnFastMaxSpanDeg
  swap
  · rw [if_pos span] at decided
    cases decided
  rw [if_neg (not_not.mpr span)] at decided
  split at decided
  · cases decided
  next long =>
  unfold FastTurn.classify at decided
  dsimp only at decided
  rw [Bool.not_true, if_neg Bool.false_ne_true] at decided
  by_cases span' : |next.lat - centre.lat| ≤ turnFastMaxSpanDeg ∧
      |next.lon - centre.lon| ≤ turnFastMaxSpanDeg
  swap
  · rw [if_pos span'] at decided
    cases decided
  rw [if_neg (not_not.mpr span')] at decided
  split at decided
  · cases decided
  next long' =>
  rw [not_not] at long long'
  rw [planar_cosine, planar_cross] at decided
  refine ⟨span, span', _, _, rfl, rfl, planarVector_ne_zero long, planarVector_ne_zero long', ?_⟩
  split at decided
  next certain => exact Or.inl ⟨certain, (Option.some.inj decided).symm⟩
  split at decided
  next certain => exact Or.inr (Or.inl ⟨certain, (Option.some.inj decided).symm⟩)
  split at decided
  · cases decided
  next clear =>
  rw [not_or, not_le, not_le] at clear
  refine Or.inr (Or.inr ⟨clear.1, clear.2, ?_⟩)
  split at decided
  next right => exact (Option.some.inj decided).symm.trans (if_pos right).symm
  next left => exact (Option.some.inj decided).symm.trans (if_neg left).symm

/-- **Decisions keep the margin.** What is decided about a planar turn is the kind of every turn
that differs from it by at most the margin. -/
theorem kindOfTurn_of_decidedAs {θ e cosine cross : ℝ} {kind : TurnKind} (range : |θ| ≤ Real.pi)
    (error : |e| ≤ deg2rad turnFastMarginDeg) (cosineEq : cosine = Real.cos θ)
    (side : 0 < cross ↔ 0 < Real.sin θ) (decided : DecidedAs cosine cross kind) :
    kind = kindOfTurn (Real.cos (θ + e)) (Real.sin (θ + e)) := by
  have margin : 0 ≤ deg2rad turnFastMarginDeg := (abs_nonneg e).trans error
  have half : deg2rad 180 = Real.pi := by
    unfold deg2rad
    ring
  have atMost : ∀ {a b : ℝ}, a ≤ b → deg2rad a ≤ deg2rad b := deg2rad_le
  have order : Real.cos (deg2rad 160) < Real.cos (deg2rad 30) :=
    (cos_deg_lt_iff (by norm_num) (by norm_num)).mpr (by norm_num)
  unfold DecidedAs at decided
  rw [cosineEq] at decided
  rcases decided with ⟨certain, rfl⟩ | ⟨certain, rfl⟩ | ⟨uncertain, clear, rfl⟩
  · -- beyond the threshold of a U-turn
    have beyond : Real.cos (θ + e) < Real.cos (deg2rad 160) := by
      apply cos_add_lt range (deg2rad_nonneg (by norm_num)) ?_ error
      · rw [← deg2rad_add]
        exact certain
      · rw [← deg2rad_add, ← half]
        exact atMost (by unfold turnFastMarginDeg; norm_num)
    rw [kindOfTurn, if_pos beyond]
  · -- below the threshold of a turn
    have below : Real.cos (deg2rad 30) < Real.cos (θ + e) := by
      apply lt_cos_add range (atMost (by unfold turnFastMarginDeg; norm_num)) ?_ error
      · rw [← deg2rad_sub]
        exact certain
      · rw [← half]
        exact atMost (by norm_num)
    rw [kindOfTurn, if_neg (not_lt.mpr (order.trans below).le), if_pos below.le]
  · -- between both thresholds the side decides
    have above : Real.cos (deg2rad 160) < Real.cos (θ + e) := by
      apply lt_cos_add range (atMost (by unfold turnFastMarginDeg; norm_num)) ?_ error
      · rw [← deg2rad_sub]
        exact uncertain
      · rw [← half]
        exact atMost (by norm_num)
    have turned : Real.cos (θ + e) < Real.cos (deg2rad 30) := by
      apply cos_add_lt range (deg2rad_nonneg (by norm_num)) ?_ error
      · rw [← deg2rad_add]
        exact clear
      · rw [← deg2rad_add, ← half]
        exact atMost (by unfold turnFastMarginDeg; norm_num)
    have ahead : Real.cos θ < Real.cos (deg2rad turnFastMarginDeg) := by
      refine clear.trans ?_
      change Real.cos (deg2rad (30 + turnFastMarginDeg)) < _
      exact (cos_deg_lt_iff (by unfold turnFastMarginDeg; norm_num)
        (by unfold turnFastMarginDeg; norm_num)).mpr (by unfold turnFastMarginDeg; norm_num)
    have back : Real.cos (Real.pi - deg2rad turnFastMarginDeg) < Real.cos θ := by
      refine lt_trans ?_ uncertain
      rw [← half, ← deg2rad_sub]
      change _ < Real.cos (deg2rad (160 - turnFastMarginDeg))
      exact (cos_deg_lt_iff (by unfold turnFastMarginDeg; norm_num)
        (by unfold turnFastMarginDeg; norm_num)).mpr (by unfold turnFastMarginDeg; norm_num)
    have sameSide := sin_add_pos_iff range error ahead back (by
      rw [← half]
      exact atMost (by unfold turnFastMarginDeg; norm_num))
    rw [kindOfTurn, if_neg (not_lt.mpr above.le), if_neg (not_le.mpr turned)]
    simp only [side, sameSide]

/-- **The fast classifier never contradicts the exact one.** -/
theorem classify_exact {previous centre next : Coord ℝ} {kind : TurnKind}
    (decided : (newFastTurn previous centre).classify next = some kind) :
    kind = turnKindForBearings (bearingDeg previous.lat previous.lon centre.lat centre.lon)
      (bearingDeg centre.lat centre.lon next.lat next.lon) := by
  obtain ⟨span, span', v, w, rfl, rfl, long, long', decided⟩ := classify_some decided
  obtain ⟨e, error, turn⟩ := exact_turn span span' long long'
  rw [turnKindForBearings_eq (bearingDeg_bounds ..) (bearingDeg_bounds ..), ← Real.Angle.cos_coe,
    ← Real.Angle.sin_coe, turn, Real.Angle.cos_coe, Real.Angle.sin_coe]
  have nonzero := mul_ne_zero long' ((map_ne_zero (starRingEnd ℂ)).mpr long)
  refine kindOfTurn_of_decidedAs (abs_arg_le_pi _) error (cos_arg nonzero).symm ?_ decided
  rw [sin_arg, lt_div_iff₀ (norm_pos_iff.mpr nonzero), zero_mul]

/-! ## Penalties -/

/-- The exact turn at three nodes; without coordinates a route goes straight on. -/
noncomputable def turnType (g : Graph ℝ) (prev cur next : Int64) : TurnKind :=
  match g.coord prev, g.coord cur, g.coord next with
  | some p, some c, some n =>
    turnKindForBearings (bearingDeg p.lat p.lon c.lat c.lon) (bearingDeg c.lat c.lon n.lat n.lon)
  | _, _, _ => .straight

/-- The turn at three nodes as a search finds it. -/
noncomputable def fastTurnType (g : Graph ℝ) (prev cur next : Int64) : TurnKind :=
  match g.coord prev, g.coord cur, g.coord next with
  | some p, some c, some n => turnKindAt p c n
  | _, _, _ => .straight

/-- Whether or not the fast path decides, the kind is the exact one. -/
theorem turnKindAt_eq (previous centre next : Coord ℝ) :
    turnKindAt previous centre next =
      turnKindForBearings (bearingDeg previous.lat previous.lon centre.lat centre.lon)
        (bearingDeg centre.lat centre.lon next.lat next.lon) := by
  unfold turnKindAt
  cases decided : (newFastTurn previous centre).classify next with
  | none => rfl
  | some kind => exact classify_exact decided

theorem fastTurnType_eq (g : Graph ℝ) : fastTurnType g = turnType g := by
  funext prev cur next
  unfold fastTurnType turnType
  simp only [turnKindAt_eq]

/-- **The fast path decides nothing else than the bearings**, and no turn penalty depends on
which of the two was taken. -/
theorem fast_turns_exact :
    (∀ (previous centre next : Coord ℝ) (kind : TurnKind),
      (newFastTurn previous centre).classify next = some kind →
        kind = turnKindForBearings (bearingDeg previous.lat previous.lon centre.lat centre.lon)
          (bearingDeg centre.lat centre.lon next.lat next.lon)) ∧
    ∀ (g : Graph ℝ) (transition : RouteTransition ℝ) (next : Int64),
      transition.penalty g (fastTurnType g) next = transition.penalty g (turnType g) next := by
  constructor
  · intro previous centre next kind decided
    exact classify_exact decided
  · intro g transition next
    rw [fastTurnType_eq]

/-- From north to east on the equator is a right turn, decided without bearings. -/
theorem classify_northEast :
    (newFastTurn ⟨-1 / 10, 0⟩ ⟨0, 0⟩).classify ⟨0, 1 / 10⟩ = some .right := by
  have pi := Real.pi_pos
  have equator : Real.cos (deg2rad 0) = 1 := by
    rw [deg2rad, zero_mul, zero_div, Real.cos_zero]
  have around : turnCosUTurnUncertain < 0 := by
    apply Real.cos_neg_of_pi_div_two_lt_of_lt <;> unfold turnFastMarginDeg <;> linarith
  have around' : turnCosUTurnCertain < 0 := by
    apply Real.cos_neg_of_pi_div_two_lt_of_lt <;> unfold turnFastMarginDeg <;> linarith
  have ahead : 0 < turnCosStraightMargin := by
    refine Real.cos_pos_of_mem_Ioo ⟨?_, ?_⟩ <;> unfold turnFastMarginDeg <;> linarith
  have ahead' : 0 < turnCosStraightCertain := by
    refine Real.cos_pos_of_mem_Ioo ⟨?_, ?_⟩ <;> unfold turnFastMarginDeg <;> linarith
  have short : ¬ ¬ (|(0 : ℝ) - -1 / 10| ≤ turnFastMaxSpanDeg ∧
      |(0 : ℝ) - 0| ≤ turnFastMaxSpanDeg) := by
    rw [not_not, abs_of_nonneg (by norm_num), sub_self, abs_zero]
    unfold turnFastMaxSpanDeg
    norm_num
  have short' : ¬ ¬ (|(0 : ℝ) - 0| ≤ turnFastMaxSpanDeg ∧
      |(1 : ℝ) / 10 - 0| ≤ turnFastMaxSpanDeg) := by
    rw [not_not, sub_self, abs_zero, abs_of_nonneg (by norm_num)]
    unfold turnFastMaxSpanDeg
    norm_num
  have latitude : ¬ ¬ |(0 : ℝ)| ≤ turnFastMaxLatitudeDeg := by
    rw [not_not, abs_zero]
    unfold turnFastMaxLatitudeDeg
    norm_num
  have start : newFastTurn ⟨-1 / 10, 0⟩ ⟨0, 0⟩ = ⟨true, ⟨0, 0⟩, 1, 0, 1 / 10, 1 / 100⟩ := by
    unfold newFastTurn
    dsimp only
    rw [if_neg latitude, if_neg short, equator, if_neg (by unfold turnFastMinLengthSquared; norm_num)]
    norm_num
  rw [start]
  unfold FastTurn.classify
  dsimp only
  rw [Bool.not_true, if_neg Bool.false_ne_true, if_neg short',
    if_neg (by unfold turnFastMinLengthSquared; norm_num), sub_self, zero_mul, mul_zero, add_zero,
    zero_div, if_neg (not_lt.mpr around'.le), if_neg (not_lt.mpr ahead'.le),
    if_neg (not_or.mpr ⟨not_le.mpr around, not_le.mpr ahead⟩), if_pos (by norm_num)]

theorem fast_turns_exact_northEast :
    TurnKind.right = turnKindForBearings (bearingDeg (-1 / 10) 0 0 0) (bearingDeg 0 0 0 (1 / 10)) :=
  fast_turns_exact.1 ⟨-1 / 10, 0⟩ ⟨0, 0⟩ ⟨0, 1 / 10⟩ .right classify_northEast

end OsmMini.Core

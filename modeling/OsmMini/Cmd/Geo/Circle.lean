import OsmMini.Cmd.Geo.Nearby

/-!
# The windows of a circle and the date line

The windows of a circle hold every place within the radius but one kind: where the circle
touches the date line from its own side, a place whose longitude is written with the other
sign (`radiusWindows_hold_iff`). No place lies in two windows (`radiusWindows_apart`). A request
is answered as by a full scan if and only if no matching place is of that kind
(`nearbyPOIs_iff`).

A circle of half a degree around a point half a degree from the date line shows the exception
(`not_nearbyPOIs_touching`).
-/

set_option autoImplicit false

namespace OsmMini.Cmd.Geo

open OsmMini.Core OsmMini.Foundations OsmMini.Core.Snap

/-! ## Distances -/

/-- The haversine needs no bounds in exact arithmetic. -/
theorem haversineMeters_eq (lat1 lon1 lat2 lon2 : ℝ) :
    haversineMeters lat1 lon1 lat2 lon2 = Snap.haversineMeters lat1 lon1 lat2 lon2 := by
  have low := GreatCircle.haversine_nonneg (deg2rad lat1) (deg2rad lat2) (deg2rad (lon2 - lon1))
  have high := GreatCircle.haversine_le_one (deg2rad lat1) (deg2rad lat2) (deg2rad (lon2 - lon1))
  have square : GreatCircle.haversine (deg2rad lat1) (deg2rad lat2) (deg2rad (lon2 - lon1)) =
      Real.sin (deg2rad (lat2 - lat1) / 2) * Real.sin (deg2rad (lat2 - lat1) / 2) +
        Real.cos (deg2rad lat1) * Real.cos (deg2rad lat2) *
          Real.sin (deg2rad (lon2 - lon1) / 2) * Real.sin (deg2rad (lon2 - lon1) / 2) := by
    rw [GreatCircle.haversine, deg2rad_sub lat2 lat1]
    ring
  rw [square] at low high
  have bounded := max_eq_right (le_min zero_le_one low)
  rw [min_eq_right high] at bounded
  unfold haversineMeters Snap.haversineMeters
  dsimp only
  unfold deg2rad at *
  rw [min_eq_right high, bounded]

/-! ## The windows -/

section Windows

variable {c : Coord ℝ} {radius : ℝ}

/-- The radius in degrees. -/
noncomputable def radiusDegrees (radius : ℝ) : ℝ := radius / 6371000 * 180 / Real.pi

/-- The circle holds a pole exactly if it reaches the latitude of one. -/
theorem holdsPole_iff :
    (c.lat * Real.pi / 180 - radius / 6371000 ≤ -(Real.pi / 2) ∨
        Real.pi / 2 ≤ c.lat * Real.pi / 180 + radius / 6371000) ↔
      90 ≤ |c.lat| + radiusDegrees radius := by
  have pi := Real.pi_pos
  have scale : radius / 6371000 = radiusDegrees radius * Real.pi / 180 := by
    rw [radiusDegrees]
    field_simp
  have south : c.lat * Real.pi / 180 - radius / 6371000 ≤ -(Real.pi / 2) ↔
      90 ≤ -c.lat + radiusDegrees radius := by
    rw [scale]
    constructor
    · intro le
      have scaled : 90 * Real.pi ≤ (-c.lat + radiusDegrees radius) * Real.pi := by linarith
      exact le_of_mul_le_mul_right scaled pi
    · intro le
      have scaled := mul_le_mul_of_nonneg_right le pi.le
      linarith
  have north : Real.pi / 2 ≤ c.lat * Real.pi / 180 + radius / 6371000 ↔
      90 ≤ c.lat + radiusDegrees radius := by
    rw [scale]
    constructor
    · intro le
      have scaled : 90 * Real.pi ≤ (c.lat + radiusDegrees radius) * Real.pi := by linarith
      exact le_of_mul_le_mul_right scaled pi
    · intro le
      have scaled := mul_le_mul_of_nonneg_right le pi.le
      linarith
  rw [south, north]
  constructor
  · rintro (below | above)
    · linarith [neg_le_abs c.lat]
    · linarith [le_abs_self c.lat]
  · intro reached
    rcases abs_cases c.lat with ⟨same, -⟩ | ⟨turned, -⟩
    · exact Or.inr (by linarith)
    · exact Or.inl (by linarith)

/-- A window of given longitudes between the parallels of the circle. -/
noncomputable def bandWindow (c : Coord ℝ) (radius minLon maxLon : ℝ) : CoordWindow ℝ :=
  ⟨max (-90) (c.lat - radiusDegrees radius), min 90 (c.lat + radiusDegrees radius), minLon, maxLon⟩

/-- The windows of a circle: all longitudes where it holds a pole, and otherwise the half-width
to both sides, with a second window across the date line. -/
theorem radiusWindows_cases (c : Coord ℝ) (radius : ℝ) :
    (90 ≤ |c.lat| + radiusDegrees radius ∧
        radiusWindows c radius = [bandWindow c radius (-180) 180]) ∨
      |c.lat| + radiusDegrees radius < 90 ∧
        (c.lon - halfWidth c.lat radius < -180 ∧
            radiusWindows c radius =
              [bandWindow c radius (-180) (c.lon + halfWidth c.lat radius),
                bandWindow c radius (c.lon - halfWidth c.lat radius + 360) 180] ∨
          (-180 ≤ c.lon - halfWidth c.lat radius ∧ 180 < c.lon + halfWidth c.lat radius) ∧
            radiusWindows c radius =
              [bandWindow c radius (c.lon - halfWidth c.lat radius) 180,
                bandWindow c radius (-180) (c.lon + halfWidth c.lat radius - 360)] ∨
          (-180 ≤ c.lon - halfWidth c.lat radius ∧ c.lon + halfWidth c.lat radius ≤ 180) ∧
            radiusWindows c radius =
              [bandWindow c radius (c.lon - halfWidth c.lat radius)
                (c.lon + halfWidth c.lat radius)]) := by
  by_cases pole : c.lat * Real.pi / 180 - radius / 6371000 ≤ -(Real.pi / 2) ∨
      Real.pi / 2 ≤ c.lat * Real.pi / 180 + radius / 6371000
  · exact Or.inl ⟨holdsPole_iff.mp pole, if_pos pole⟩
  · refine Or.inr ⟨not_le.mp (mt holdsPole_iff.mpr pole), ?_⟩
    by_cases westward : c.lon - halfWidth c.lat radius < -180
    · exact Or.inl ⟨westward, (if_neg pole).trans (if_pos westward)⟩
    · by_cases eastward : 180 < c.lon + halfWidth c.lat radius
      · exact Or.inr (Or.inl ⟨⟨not_lt.mp westward, eastward⟩,
          (if_neg pole).trans ((if_neg westward).trans (if_pos eastward))⟩)
      · exact Or.inr (Or.inr ⟨⟨not_lt.mp westward, not_lt.mp eastward⟩,
          (if_neg pole).trans ((if_neg westward).trans (if_neg eastward))⟩)

/-- The place lies on the date line, where the circle touches it, with the sign of the other
side. -/
def MissedAtDateLine (c : Coord ℝ) (radius : ℝ) (p : Coord ℝ) : Prop :=
  |c.lat| + radiusDegrees radius < 90 ∧
    (c.lon - halfWidth c.lat radius = -180 ∧ p.lon = 180 ∨
      c.lon + halfWidth c.lat radius = 180 ∧ p.lon = -180)

/-- **The windows hold every place within the radius** that is not missed at the date line. -/
theorem radiusWindows_hold_iff (query : validGeoPoint c) (positive : 0 < radius)
    (small : radius ≤ 100000) {p : Coord ℝ} (valid : validGeoPoint p)
    (near : haversineMeters c.lat c.lon p.lat p.lon ≤ radius) :
    (∃ w ∈ radiusWindows c radius, InWindow w p) ↔ ¬MissedAtDateLine c radius p := by
  obtain ⟨south, north, west, east⟩ := query
  obtain ⟨south', north', west', east'⟩ := valid
  rw [haversineMeters_eq] at near
  have small' : radius ≤ 6371000 := small.trans (by norm_num)
  have latitude := abs_le.mpr ⟨south, north⟩
  have latitude' := abs_le.mpr ⟨south', north'⟩
  obtain ⟨nonneg, atMost⟩ := halfWidth_bounds latitude positive small'
  obtain ⟨below, above⟩ := abs_le.mp (abs_lat_sub_le latitude latitude' near)
  rw [← radiusDegrees] at below above
  have band : ∀ {low high : ℝ}, low ≤ p.lon → p.lon ≤ high →
      InWindow (bandWindow c radius low high) p := fun atLeast atMost =>
    ⟨max_le south' (by linarith), le_min north' (by linarith), atLeast, atMost⟩
  rcases radiusWindows_cases c radius with ⟨pole, windows⟩ | ⟨room, parts⟩
  · rw [windows]
    refine iff_of_true ⟨_, List.mem_singleton_self _, band west' east'⟩ ?_
    exact fun missed => absurd missed.1 (not_lt.mpr pole)
  · have longitudes := abs_lon_sub latitude latitude' positive small' room near
    rcases parts with ⟨westward, windows⟩ | ⟨⟨inside, eastward⟩, windows⟩ |
      ⟨⟨inside, inside'⟩, windows⟩
    · rw [windows]
      refine iff_of_true ?_ ?_
      · rcases longitudes with here | around
        · have upper := (abs_le.mp here).2
          exact ⟨_, List.mem_cons_self, band west' (by linarith)⟩
        · refine ⟨_, List.mem_cons_of_mem _ (List.mem_singleton_self _), band ?_ east'⟩
          rcases le_abs.mp around with after | before <;> linarith
      · rintro ⟨-, ⟨touches, -⟩ | ⟨touches, -⟩⟩ <;> linarith
    · rw [windows]
      refine iff_of_true ?_ ?_
      · rcases longitudes with here | around
        · have lower := (abs_le.mp here).1
          exact ⟨_, List.mem_cons_self, band (by linarith) east'⟩
        · refine ⟨_, List.mem_cons_of_mem _ (List.mem_singleton_self _), band west' ?_⟩
          rcases le_abs.mp around with after | before <;> linarith
      · rintro ⟨-, ⟨touches, -⟩ | ⟨touches, -⟩⟩ <;> linarith
    · rw [windows]
      constructor
      · rintro ⟨w, member, inWindow⟩ ⟨-, ⟨touches, other⟩ | ⟨touches, other⟩⟩
        · rw [List.mem_singleton.mp member] at inWindow
          have reached : p.lon ≤ c.lon + halfWidth c.lat radius := inWindow.2.2.2
          linarith
        · rw [List.mem_singleton.mp member] at inWindow
          have reached : c.lon - halfWidth c.lat radius ≤ p.lon := inWindow.2.2.1
          linarith
      · intro notMissed
        rcases longitudes with here | around
        · obtain ⟨lower, upper⟩ := abs_le.mp here
          exact ⟨_, List.mem_singleton_self _, band (by linarith) (by linarith)⟩
        · refine absurd ⟨room, ?_⟩ notMissed
          rcases le_abs.mp around with after | before
          · exact Or.inl ⟨by linarith, by linarith⟩
          · exact Or.inr ⟨by linarith, by linarith⟩

/-- **No place lies in two windows.** -/
theorem radiusWindows_apart (query : validGeoPoint c) (positive : 0 < radius)
    (small : radius ≤ 100000) :
    (radiusWindows c radius).Pairwise fun w w' => ∀ p, ¬(InWindow w p ∧ InWindow w' p) := by
  obtain ⟨south, north, west, east⟩ := query
  obtain ⟨nonneg, atMost⟩ := halfWidth_bounds (abs_le.mpr ⟨south, north⟩) positive
    (small.trans (by norm_num))
  rcases radiusWindows_cases c radius with ⟨-, windows⟩ | ⟨-, parts⟩
  · rw [windows]
    exact List.pairwise_singleton _ _
  · rcases parts with ⟨westward, windows⟩ | ⟨⟨inside, eastward⟩, windows⟩ | ⟨-, windows⟩
    · rw [windows, List.pairwise_pair]
      rintro p ⟨first, second⟩
      have upper : p.lon ≤ c.lon + halfWidth c.lat radius := first.2.2.2
      have lower : c.lon - halfWidth c.lat radius + 360 ≤ p.lon := second.2.2.1
      linarith
    · rw [windows, List.pairwise_pair]
      rintro p ⟨first, second⟩
      have lower : c.lon - halfWidth c.lat radius ≤ p.lon := first.2.2.1
      have upper : p.lon ≤ c.lon + halfWidth c.lat radius - 360 := second.2.2.2
      linarith
    · rw [windows]
      exact List.pairwise_singleton _ _

end Windows

/-! ## What the windows of a request hold -/

section Requests

variable {T : Type} {index : PoiGeoIndex T}

open Classical in
/-- Windows that share no place give the entries in any of them, each once. -/
theorem PoiGeoIndex.Sound.visit_windows (sound : index.Sound) {boxes : List (CoordWindow ℝ)}
    (apart : boxes.Pairwise fun w w' => ∀ p, ¬(InWindow w p ∧ InWindow w' p)) :
    (boxes.flatMap index.visit).Perm
      (index.entries.filter fun p => ∃ w ∈ boxes, InWindow w p.coord) := by
  induction boxes with
  | nil => simp
  | cons w boxes ih =>
      obtain ⟨first, rest⟩ := List.pairwise_cons.mp apart
      rw [List.flatMap_cons]
      refine ((sound.visit_perm w).append (ih rest)).trans ?_
      refine List.Perm.trans (List.Perm.of_eq ?_) (List.filter_append_perm
        (fun p => decide (InWindow w p.coord)) (index.entries.filter fun p =>
          ∃ w' ∈ w :: boxes, InWindow w' p.coord))
      rw [List.filter_filter, List.filter_filter]
      congr 1
      · refine List.filter_congr fun p _ => Bool.eq_iff_iff.mpr ?_
        simp only [Bool.and_eq_true, decide_eq_true_eq]
        exact ⟨fun inside => ⟨inside, w, List.mem_cons_self, inside⟩, And.left⟩
      · refine List.filter_congr fun p _ => Bool.eq_iff_iff.mpr ?_
        simp only [Bool.and_eq_true, Bool.not_eq_true', decide_eq_true_eq, decide_eq_false_iff_not]
        constructor
        · rintro ⟨w', member, inside⟩
          exact ⟨fun here => first w' member p.coord ⟨here, inside⟩,
            w', List.mem_cons_of_mem _ member, inside⟩
        · rintro ⟨outside, w', member, inside⟩
          rcases List.mem_cons.mp member with rfl | later
          · exact absurd inside outside
          · exact ⟨w', later, inside⟩

/-- Elements that are kept and then mapped. -/
theorem filterMap_filter_ite {α β : Type} (kept counts : α → Bool) (f : α → β) (l : List α) :
    (l.filter kept).filterMap (fun a => if counts a then some (f a) else none) =
      (l.filter fun a => counts a && kept a).map f := by
  rw [← List.filter_filter, ← List.filterMap_eq_map]
  conv_rhs => rw [List.filterMap_filter]
  rfl

variable (sound : index.Sound) {isMatch : GeoPOI T → Bool} {limit : ℕ}
include sound

/-- **A box is answered as by a full scan.** -/
theorem boxPOIs_eq (box : CoordWindow ℝ) :
    boxPOIs isMatch limit index box = scanBox isMatch limit index box := by
  classical
  rw [boxPOIs, scanBox]
  refine handleGeoPOIs_eq_scanHits sound (fun _ => 0) ?_
  rw [List.flatMap_singleton]
  refine ((sound.visit_perm box).filterMap _).trans (List.Perm.of_eq ?_)
  refine (filterMap_filter_ite _ isMatch (fun p => (⟨p, 0⟩ : GeoHit T)) index.entries).trans ?_
  congr 1
  refine List.filter_congr fun p _ => ?_
  rw [Bool.decide_and, Bool.decide_eq_true]

variable {c : Coord ℝ} {radius : ℝ}

open Classical in
/-- A circle is answered as by a scan of the places that are not missed. -/
theorem nearbyPOIs_eq (query : validGeoPoint c) (positive : 0 < radius)
    (small : radius ≤ 100000) :
    nearbyPOIs isMatch radius limit index c =
      scanHits limit ((index.entries.filter fun p =>
        (isMatch p ∧ haversineMeters c.lat c.lon p.coord.lat p.coord.lon ≤ radius) ∧
          ¬MissedAtDateLine c radius p.coord).map
            fun p => ⟨p, haversineMeters c.lat c.lon p.coord.lat p.coord.lon⟩) := by
  rw [nearbyPOIs]
  refine handleGeoPOIs_eq_scanHits sound
    (fun p => haversineMeters c.lat c.lon p.coord.lat p.coord.lon) ?_
  refine ((sound.visit_windows (radiusWindows_apart query positive small)).filterMap _).trans
    (List.Perm.of_eq ?_)
  have hits : hitOf isMatch (some c) radius = fun p : GeoPOI T =>
      if decide (isMatch p ∧ haversineMeters c.lat c.lon p.coord.lat p.coord.lon ≤ radius) then
        some ⟨p, haversineMeters c.lat c.lon p.coord.lat p.coord.lon⟩ else none := by
    funext p
    rw [hitOf, hitDistance]
    by_cases counts : isMatch p
    · by_cases far : radius < haversineMeters c.lat c.lon p.coord.lat p.coord.lon
      · simp [counts, far, far.not_ge]
      · simp [counts, far, not_lt.mp far]
    · simp [counts]
  rw [hits, filterMap_filter_ite]
  congr 1
  refine List.filter_congr fun p member => Bool.eq_iff_iff.mpr ?_
  simp only [Bool.and_eq_true, decide_eq_true_eq]
  exact and_congr_right fun near =>
    radiusWindows_hold_iff query positive small (sound.valid p member) near.2

/-- **A circle is answered as by a full scan if and only if no matching place is missed.** -/
theorem nearbyPOIs_iff (query : validGeoPoint c) (positive : 0 < radius)
    (small : radius ≤ 100000) :
    nearbyPOIs isMatch radius limit index c = scanNearby isMatch radius limit index c ↔
      ∀ p ∈ index.entries, isMatch p = true →
        haversineMeters c.lat c.lon p.coord.lat p.coord.lon ≤ radius →
          ¬MissedAtDateLine c radius p.coord := by
  classical
  have nested : index.entries.filter (fun p =>
      (isMatch p ∧ haversineMeters c.lat c.lon p.coord.lat p.coord.lon ≤ radius) ∧
        ¬MissedAtDateLine c radius p.coord) =
      (index.entries.filter fun p =>
        isMatch p ∧ haversineMeters c.lat c.lon p.coord.lat p.coord.lon ≤ radius).filter
          fun p => ¬MissedAtDateLine c radius p.coord := by
    rw [List.filter_filter]
    refine List.filter_congr fun p _ => Bool.eq_iff_iff.mpr ?_
    simp only [Bool.and_eq_true, decide_eq_true_eq]
    exact and_comm
  rw [nearbyPOIs_eq sound query positive small, scanNearby, nested]
  constructor
  · intro same p member counts near
    have lengths := congrArg Found.matched same
    simp only [scanHits, List.length_map] at lengths
    have kept := List.length_filter_eq_length_iff.mp lengths p
      (List.mem_filter.mpr ⟨member, decide_eq_true ⟨counts, near⟩⟩)
    exact of_decide_eq_true kept
  · intro none
    congr 2
    refine List.filter_eq_self.mpr fun p member => decide_eq_true ?_
    obtain ⟨inside, near⟩ := List.mem_filter.mp member
    obtain ⟨counts, near⟩ := of_decide_eq_true near
    exact none p inside counts near

end Requests

/-! ## The answers -/

/-- **Requests are answered as by a full scan**, in a box always, and around a point if and only
if no matching place is missed at the date line. -/
theorem geoPOIs_eq_scan_iff {T : Type} {nodes : GoMap Int64 (Coord ℝ)}
    {tagged : GoMap Int64 (Node T)} {ways : GoMap Int64 (Way T)}
    (nodeKeys : KeyedByID Node.id tagged) (wayKeys : KeyedByID Way.id ways)
    (isMatch : GeoPOI T → Bool) (limit : ℕ) :
    (∀ box, boxPOIs isMatch limit (buildPOIGeoIndex nodes tagged ways) box =
      scanBox isMatch limit (buildPOIGeoIndex nodes tagged ways) box) ∧
    ∀ (c : Coord ℝ) (radius : ℝ), validGeoPoint c → 0 < radius → radius ≤ 100000 →
      (nearbyPOIs isMatch radius limit (buildPOIGeoIndex nodes tagged ways) c =
          scanNearby isMatch radius limit (buildPOIGeoIndex nodes tagged ways) c ↔
        ∀ p ∈ (buildPOIGeoIndex nodes tagged ways).entries, isMatch p = true →
          haversineMeters c.lat c.lon p.coord.lat p.coord.lon ≤ radius →
            ¬MissedAtDateLine c radius p.coord) :=
  have sound := buildPOIGeoIndex_sound nodeKeys wayKeys
  ⟨boxPOIs_eq sound, fun _ _ query positive small => nearbyPOIs_iff sound query positive small⟩

/-- A map with one place on the date line. -/
noncomputable def dateLinePlaces : PoiGeoIndex Unit :=
  buildPOIGeoIndex ∅ (AList.singleton 1 ⟨1, 0, 180, ()⟩) ∅

theorem dateLinePlaces_keyed :
    KeyedByID Node.id (AList.singleton (1 : Int64) (⟨1, 0, 180, ()⟩ : Node Unit)) := by
  intro e member
  rw [List.mem_singleton.mp member]

theorem noWays_keyed : KeyedByID Way.id (∅ : GoMap Int64 (Way Unit)) := fun _ none =>
  absurd none List.not_mem_nil

/-- Around a point far from the date line nothing is missed. -/
theorem geoPOIs_eq_scan_iff_dateLine :
    nearbyPOIs (fun _ => true) 1000 100 dateLinePlaces ⟨0, 0⟩ =
      scanNearby (fun _ => true) 1000 100 dateLinePlaces ⟨0, 0⟩ := by
  have query : validGeoPoint ⟨0, 0⟩ := by
    norm_num [validGeoPoint]
  refine ((geoPOIs_eq_scan_iff dateLinePlaces_keyed noWays_keyed (fun _ => true) 100).2 ⟨0, 0⟩
    1000 query (by norm_num) (by norm_num)).mpr ?_
  rintro p - - - ⟨-, touches⟩
  have width : 0 ≤ halfWidth 0 1000 ∧ halfWidth 0 1000 ≤ 90 :=
    halfWidth_bounds (by norm_num) (by norm_num) (by norm_num)
  rcases touches with ⟨touches, -⟩ | ⟨touches, -⟩ <;> dsimp only at touches <;> linarith

/-- **A circle that touches the date line misses a place there.** The place lies on the line,
half a degree from the point, and the radius is half a degree. -/
theorem not_nearbyPOIs_touching :
    nearbyPOIs (fun _ => true) (6371000 * (Real.pi / 360)) 100 dateLinePlaces ⟨0, -179.5⟩ ≠
      scanNearby (fun _ => true) (6371000 * (Real.pi / 360)) 100 dateLinePlaces ⟨0, -179.5⟩ := by
  have pi := Real.pi_gt_three
  have pi' := Real.pi_lt_four
  have angle : 6371000 * (Real.pi / 360) / 6371000 = Real.pi / 360 := by
    field_simp
  have flat : deg2rad 0 = 0 := by
    rw [deg2rad, zero_mul, zero_div]
  have query : validGeoPoint ⟨0, -179.5⟩ := by
    norm_num [validGeoPoint]
  have place : (⟨1, "node", ⟨0, 180⟩, ()⟩ : GeoPOI Unit) ∈ dateLinePlaces.entries := by
    have valid : validGeoPoint ⟨0, 180⟩ := by
      norm_num [validGeoPoint]
    have added : dateLinePlaces.entries = [⟨1, "node", ⟨0, 180⟩, ()⟩] := by
      show (PoiGeoIndex.add ⟨[], ∅⟩ ⟨1, "node", ⟨0, 180⟩, ()⟩).entries = _
      rw [PoiGeoIndex.add, if_pos valid]
      rfl
    rw [added]
    exact List.mem_singleton_self _
  have width : halfWidth 0 (6371000 * (Real.pi / 360)) = 0.5 := by
    have sine := Real.sin_le_one (Real.pi / 360)
    rw [halfWidth, angle, flat, Real.cos_zero, div_one, min_eq_right sine,
      Real.arcsin_sin (by linarith) (by linarith)]
    field_simp
    norm_num
  have degrees : radiusDegrees (6371000 * (Real.pi / 360)) = 0.5 := by
    rw [radiusDegrees, angle]
    field_simp
    norm_num
  have distance : haversineMeters 0 (-179.5) 0 180 = 6371000 * (Real.pi / 360) := by
    have turn : deg2rad (180 - -179.5) = 2 * Real.pi - Real.pi / 360 := by
      rw [deg2rad]
      ring
    rw [haversineMeters_eq, Snap.haversineMeters_eq, flat, turn]
    congr 1
    refine GreatCircle.centralAngle_eq (by linarith) (by linarith) ?_
    rw [Real.sin_zero, Real.cos_zero, Real.cos_two_pi_sub]
    ring
  intro same
  have missed := (nearbyPOIs_iff (buildPOIGeoIndex_sound dateLinePlaces_keyed noWays_keyed) query
    (by linarith) (by linarith)).mp same _ place rfl distance.le
  refine missed ⟨?_, Or.inl ⟨?_, rfl⟩⟩
  · rw [degrees, abs_zero]
    norm_num
  · dsimp only
    rw [width]
    norm_num

end OsmMini.Cmd.Geo

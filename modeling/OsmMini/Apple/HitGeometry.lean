import OsmMini.Apple.Graphics
import OsmMini.Foundations.Clipping
import OsmMini.Foundations.NearestPoint

/-!
# Street hit testing

A tap selects the nearest street. The path of a street is walked element by element; each straight
segment is clipped to the visible rectangle, and the point of the rest that is nearest to the tap is
kept if it is nearer than the points before.

Clipping tightens two limits in turn and leaves exactly the places of the segment at which it is in
the rectangle (`clipped_spec`). So the walk keeps the nearest visible point of the path, whatever
its sub-paths (`closestPoint_nearest`).
-/

set_option autoImplicit false

namespace OsmMini.Apple

open OsmMini.Foundations

/-- An element of a path. Curves have control points. -/
inductive PathElement (K : Type) where
  | move (point : K × K)
  | line (point : K × K)
  | quadCurve (point control : K × K)
  | curve (point control₁ control₂ : K × K)
  | closeSubpath
  deriving DecidableEq

/-- What is kept between the elements of a path. The distance is infinite at first. -/
structure HitState (K : Type) where
  current : Option (K × K)
  start : Option (K × K)
  /-- The nearest point, with the square of its distance. -/
  nearest : Option ((K × K) × K)

section HitGeometry

variable {K : Type} [Field K] [LinearOrder K]

/-- Tighten the limits of the places on a segment. -/
def limit (limits : K × K) (p q : K) : Option (K × K) :=
  if p = 0 then
    if 0 ≤ q then some limits else none
  else
    let fraction := q / p
    let limits := if p < 0 then (max limits.1 fraction, limits.2)
      else (limits.1, min limits.2 fraction)
    if limits.1 ≤ limits.2 then some limits else none

/-- The limits of the places at which a segment is in a rectangle. -/
def visibleLimits (a b : K × K) (rect : Sides K) : Option (K × K) :=
  let dx := b.1 - a.1
  let dy := b.2 - a.2
  (limit (0, 1) (-dx) (a.1 - rect.minX)).bind fun limits =>
    (limit limits dx (rect.maxX - a.1)).bind fun limits =>
      (limit limits (-dy) (a.2 - rect.minY)).bind fun limits =>
        limit limits dy (rect.maxY - a.2)

/-- The ends of the part of a segment that is in a rectangle. -/
def clipped (a b : K × K) (rect : Sides K) : Option ((K × K) × (K × K)) :=
  (visibleLimits a b rect).map fun limits =>
    let dx := b.1 - a.1
    let dy := b.2 - a.2
    ((a.1 + limits.1 * dx, a.2 + limits.1 * dy), (a.1 + limits.2 * dx, a.2 + limits.2 * dy))

/-- Look for a nearer point on a segment. -/
def hitSegment (point : K × K) (clip : Sides K) (nearest : Option ((K × K) × K)) (a b : K × K) :
    Option ((K × K) × K) :=
  match clipped a b clip with
  | none => nearest
  | some (a, b) =>
    let dx := b.1 - a.1
    let dy := b.2 - a.2
    let lengthSquared := dx * dx + dy * dy
    let fraction := if 0 < lengthSquared then
      max 0 (min 1 (((point.1 - a.1) * dx + (point.2 - a.2) * dy) / lengthSquared)) else 0
    let candidate := (a.1 + fraction * dx, a.2 + fraction * dy)
    let offsetX := candidate.1 - point.1
    let offsetY := candidate.2 - point.2
    improve nearest candidate (offsetX * offsetX + offsetY * offsetY)

def hitElement (point : K × K) (clip : Sides K) (s : HitState K) :
    PathElement K → HitState K
  | .move to' => { s with current := some to', start := some to' }
  | .line to' =>
    { s with
      nearest := match s.current with
        | some current => hitSegment point clip s.nearest current to'
        | none => s.nearest
      current := some to' }
  | .closeSubpath =>
    { s with
      nearest := match s.current, s.start with
        | some current, some start => hitSegment point clip s.nearest current start
        | _, _ => s.nearest
      current := s.start }
  | .quadCurve to' _ | .curve to' _ _ => { s with current := some to' }

/-- The visible point of a path that is nearest to a point. -/
def closestPoint (path : List (PathElement K)) (point : K × K) (clip : Sides K) :
    Option (K × K) :=
  (path.foldl (hitElement point clip) ⟨none, none, none⟩).nearest.map Prod.fst

end HitGeometry

/-! ## Paths -/

section Paths

variable {K : Type}

/-- The start of the sub-path that a path ends with. -/
def subpathStart (path : List (PathElement K)) : Option (K × K) :=
  path.reverse.findSome? fun
    | .move to' => some to'
    | _ => none

/-- Where a path ends. A closed sub-path ends where it started. -/
def currentPoint (path : List (PathElement K)) : Option (K × K) :=
  path.getLast?.bind fun
    | .move to' | .line to' | .quadCurve to' _ | .curve to' _ _ => some to'
    | .closeSubpath => subpathStart path

/-- An element that follows a path draws a straight segment. -/
def DrawsSegment (path : List (PathElement K)) (element : PathElement K) (a b : K × K) : Prop :=
  currentPoint path = some a ∧
    (element = .line b ∨ element = .closeSubpath ∧ subpathStart path = some b)

/-- A straight segment of a path. -/
def IsSegment (path : List (PathElement K)) (a b : K × K) : Prop :=
  ∃ before element after, path = before ++ element :: after ∧ DrawsSegment before element a b

variable {path : List (PathElement K)} {element : PathElement K}

theorem subpathStart_concat (path : List (PathElement K)) (element : PathElement K) :
    subpathStart (path ++ [element]) = match element with
      | .move to' => some to'
      | _ => subpathStart path := by
  rw [subpathStart, List.reverse_concat]
  cases element <;> rfl

theorem currentPoint_concat (path : List (PathElement K)) (element : PathElement K) :
    currentPoint (path ++ [element]) = match element with
      | .move to' | .line to' | .quadCurve to' _ | .curve to' _ _ => some to'
      | .closeSubpath => subpathStart path := by
  rw [currentPoint, List.getLast?_concat, subpathStart_concat]
  cases element <;> rfl

/-- The segments of a path that grows are those it has and the one that the new element draws. -/
theorem isSegment_concat_iff {a b : K × K} :
    IsSegment (path ++ [element]) a b ↔ IsSegment path a b ∨ DrawsSegment path element a b := by
  constructor
  · rintro ⟨before, drawn, after, split, draws⟩
    rcases List.eq_nil_or_concat after with rfl | ⟨after, last, rfl⟩
    · obtain ⟨rfl, same⟩ := List.append_inj' split rfl
      obtain rfl := List.singleton_inj.mp same
      exact Or.inr draws
    · have parts : path ++ [element] = (before ++ drawn :: after) ++ [last] := by
        rw [split, List.concat_eq_append, List.append_assoc, List.cons_append]
      obtain ⟨rfl, -⟩ := List.append_inj' parts rfl
      exact Or.inl ⟨before, drawn, after, rfl, draws⟩
  · rintro (⟨before, drawn, after, rfl, draws⟩ | draws)
    · exact ⟨before, drawn, after ++ [element], by rw [List.append_assoc, List.cons_append], draws⟩
    · exact ⟨path, element, [], rfl, draws⟩

end Paths

/-! ## Clipping -/

section Visible

variable {K : Type} [Field K] [LinearOrder K]

/-- A point in a rectangle or on its border. -/
def Sides.Holds (rect : Sides K) (p : K × K) : Prop :=
  (rect.minX ≤ p.1 ∧ p.1 ≤ rect.maxX) ∧ rect.minY ≤ p.2 ∧ p.2 ≤ rect.maxY

instance (rect : Sides K) (p : K × K) : Decidable (rect.Holds p) :=
  inferInstanceAs (Decidable (_ ∧ _))

/-- The points of a segment that are in a rectangle. -/
def segmentPoints (clip : Sides K) (a b : K × K) : Set (K × K) :=
  {p | (∃ t, 0 ≤ t ∧ t ≤ 1 ∧ p = along a b t) ∧ clip.Holds p}

/-- The points of the segments of a path that are in a rectangle. -/
def visiblePoints (path : List (PathElement K)) (clip : Sides K) : Set (K × K) :=
  {p | ∃ a b, IsSegment path a b ∧ p ∈ segmentPoints clip a b}

/-- While there are places left, tightening the limits is clipping. -/
theorem limit_eq_clipStep {limits : K × K} (ordered : limits.1 ≤ limits.2) (p q : K) :
    limit limits p q = clipStep limits (p, q) := by
  rw [limit, clipStep]
  dsimp only
  by_cases isZero : p = 0
  · rw [if_pos isZero, if_pos isZero]
    by_cases holds : 0 ≤ q
    · rw [if_pos holds, if_neg (not_lt.mpr holds)]
    · rw [if_neg holds, if_pos (not_le.mp holds)]
  · rw [if_neg isZero, if_neg isZero]
    by_cases negative : p < 0
    · rw [if_pos negative, if_pos negative]
      by_cases beyond : limits.2 < q / p
      · rw [if_pos beyond, if_neg fun kept => ((max_le_iff.mp kept).2.trans_lt' beyond).false]
      · rw [if_neg beyond, if_pos (max_le ordered (not_lt.mp beyond))]
    · rw [if_neg negative, if_neg negative]
      by_cases beyond : q / p < limits.1
      · rw [if_pos beyond, if_neg fun kept => ((le_min_iff.mp kept).2.trans_lt beyond).false]
      · rw [if_neg beyond, if_pos (le_min ordered (not_lt.mp beyond))]

variable [IsStrictOrderedRing K]

/-- What remains of the limits is clipped by the conditions that follow. -/
theorem limit_bind_clipRange {limits : K × K} (ordered : limits.1 ≤ limits.2) (p q : K)
    (conditions : List (K × K)) (next : K × K → Option (K × K))
    (same : ∀ limits : K × K, limits.1 ≤ limits.2 → next limits = clipRange limits conditions) :
    (limit limits p q).bind next = clipRange limits ((p, q) :: conditions) := by
  have step := @clipStep_spec K _ _ _ limits (p, q) ordered
  rw [limit_eq_clipStep ordered, clipRange]
  cases left : clipStep limits (p, q) with
  | none => rfl
  | some left' =>
      rw [left] at step
      exact same left' step.1

/-- The four sides of a rectangle, as conditions on the places of a segment. -/
def sideConditions (a b : K × K) (rect : Sides K) : List (K × K) :=
  [(-(b.1 - a.1), a.1 - rect.minX), (b.1 - a.1, rect.maxX - a.1),
    (-(b.2 - a.2), a.2 - rect.minY), (b.2 - a.2, rect.maxY - a.2)]

theorem visibleLimits_eq (a b : K × K) (rect : Sides K) :
    visibleLimits a b rect = clipRange (0, 1) (sideConditions a b rect) := by
  rw [visibleLimits]
  apply limit_bind_clipRange zero_le_one
  intro limits ordered
  apply limit_bind_clipRange ordered
  intro limits ordered
  apply limit_bind_clipRange ordered
  intro limits ordered
  rw [limit_eq_clipStep ordered, clipRange]
  cases clipStep limits _ <;> rfl

/-- The conditions say that a place of the segment is in the rectangle. -/
theorem sideConditions_iff (a b : K × K) (rect : Sides K) (t : K) :
    (∀ c ∈ sideConditions a b rect, c.1 * t ≤ c.2) ↔ rect.Holds (along a b t) := by
  simp only [sideConditions, List.forall_mem_cons, Sides.Holds, along]
  constructor
  · rintro ⟨west, east, north, south, -⟩
    exact ⟨⟨by linarith, by linarith⟩, by linarith, by linarith⟩
  · rintro ⟨⟨west, east⟩, north, south⟩
    exact ⟨by linarith, by linarith, by linarith, by linarith, fun _ none =>
      absurd none List.not_mem_nil⟩

/-- **Clipping leaves the places of a segment that are in the rectangle**, and fails when there are
none. -/
theorem clipped_spec (a b : K × K) (rect : Sides K) :
    match clipped a b rect with
    | none => segmentPoints rect a b = ∅
    | some (c, d) => segmentPoints rect a b = {p | ∃ t, 0 ≤ t ∧ t ≤ 1 ∧ p = along c d t} := by
  rw [clipped, visibleLimits_eq]
  cases left : clipRange (0, 1) (sideConditions a b rect) with
  | none =>
      apply Set.eq_empty_of_forall_notMem
      rintro p ⟨⟨t, low, high, rfl⟩, holds⟩
      exact clipRange_none zero_le_one left t low high ((sideConditions_iff a b rect t).mpr holds)
  | some limits =>
      obtain ⟨first, last⟩ := limits
      obtain ⟨ordered, places⟩ := clipRange_some zero_le_one left
      change segmentPoints rect a b =
        {p | ∃ t, 0 ≤ t ∧ t ≤ 1 ∧ p = along (along a b first) (along a b last) t}
      ext p
      constructor
      · rintro ⟨⟨t, low, high, rfl⟩, holds⟩
        have kept := (places t).mpr ⟨⟨low, high⟩, (sideConditions_iff a b rect t).mpr holds⟩
        obtain ⟨u, low', high', rfl⟩ := (exists_place_iff ordered t).mp kept
        exact ⟨u, low', high', (along_along a b first last u).symm⟩
      · rintro ⟨u, low, high, rfl⟩
        rw [along_along]
        obtain ⟨⟨low', high'⟩, holds⟩ :=
          (places _).mp ((exists_place_iff ordered _).mpr ⟨u, low, high, rfl⟩)
        exact ⟨⟨_, low', high', rfl⟩, (sideConditions_iff a b rect _).mp holds⟩

/-! ## The walk along a path -/

variable {point : K × K} {clip : Sides K} {points : Set (K × K)}
  {best : Option ((K × K) × K)} {path : List (PathElement K)}

/-- A segment adds its visible points to those that were looked at. -/
theorem nearest_hitSegment (nearest : Nearest point points best) (a b : K × K) :
    Nearest point (points ∪ segmentPoints clip a b) (hitSegment point clip best a b) := by
  have visible := clipped_spec a b clip
  rw [hitSegment]
  cases part : clipped a b clip with
  | none =>
      rw [part] at visible
      exact nearest.empty visible
  | some ends =>
      obtain ⟨c, d⟩ := ends
      rw [part] at visible
      apply Nearest.union nearest
      rw [visible]
      obtain ⟨low, high⟩ := nearestFraction_bounds c d point
      refine ⟨⟨nearestFraction c d point, low, high, rfl⟩, rfl, ?_⟩
      rintro _ ⟨t, low', high', rfl⟩
      exact nearestFraction_least c d point low' high'

/-- The visible points of the segment that an element draws. -/
def drawnPoints (path : List (PathElement K)) (clip : Sides K) (element : PathElement K) :
    Set (K × K) :=
  {p | ∃ a b, DrawsSegment path element a b ∧ p ∈ segmentPoints clip a b}

omit [IsStrictOrderedRing K] in
/-- The visible points of a path that grows. -/
theorem visiblePoints_concat (path : List (PathElement K)) (element : PathElement K)
    (clip : Sides K) :
    visiblePoints (path ++ [element]) clip =
      visiblePoints path clip ∪ drawnPoints path clip element := by
  ext p
  constructor
  · rintro ⟨a, b, segment, visible⟩
    rcases isSegment_concat_iff.mp segment with old | new
    · exact Or.inl ⟨a, b, old, visible⟩
    · exact Or.inr ⟨a, b, new, visible⟩
  · rintro (⟨a, b, old, visible⟩ | ⟨a, b, new, visible⟩)
    · exact ⟨a, b, isSegment_concat_iff.mpr (Or.inl old), visible⟩
    · exact ⟨a, b, isSegment_concat_iff.mpr (Or.inr new), visible⟩

omit [IsStrictOrderedRing K] in
/-- An element that draws nothing has no points. -/
theorem drawnPoints_empty {element : PathElement K} (nothing : ∀ a b, ¬DrawsSegment path element a b) :
    drawnPoints path clip element = ∅ := by
  apply Set.eq_empty_of_forall_notMem
  rintro p ⟨a, b, draws, -⟩
  exact nothing a b draws

omit [IsStrictOrderedRing K] in
/-- An element that draws a segment has its points. -/
theorem drawnPoints_segment {element : PathElement K} {c d : K × K}
    (drawn : ∀ a b, DrawsSegment path element a b ↔ c = a ∧ d = b) :
    drawnPoints path clip element = segmentPoints clip c d := by
  ext p
  constructor
  · rintro ⟨a, b, draws, visible⟩
    obtain ⟨rfl, rfl⟩ := (drawn a b).mp draws
    exact visible
  · intro visible
    exact ⟨c, d, (drawn c d).mpr ⟨rfl, rfl⟩, visible⟩

/-- What is kept is about the path up to the current element. -/
structure Walked (point : K × K) (clip : Sides K) (path : List (PathElement K)) (s : HitState K) :
    Prop where
  current : s.current = currentPoint path
  start : s.start = subpathStart path
  nearest : Nearest point (visiblePoints path clip) s.nearest

omit [IsStrictOrderedRing K] in
/-- Only lines and the ends of sub-paths draw segments. -/
theorem drawnPoints_curve {element : PathElement K} (line : ∀ b, element ≠ .line b)
    (close : element ≠ .closeSubpath) : drawnPoints path clip element = ∅ := by
  apply drawnPoints_empty
  rintro a b ⟨-, drawn | ⟨drawn, -⟩⟩
  · exact line b drawn
  · exact close drawn

omit [IsStrictOrderedRing K] in
/-- An element draws nothing if there is no current point. -/
theorem drawnPoints_none {element : PathElement K} (none : currentPoint path = none) :
    drawnPoints path clip element = ∅ := by
  apply drawnPoints_empty
  rintro a b ⟨ends, -⟩
  rw [none] at ends
  cases ends

/-- **One element.** The point kept is nearest in what was looked at and what the element draws. -/
theorem Walked.nearest_step {s : HitState K} (walked : Walked point clip path s)
    (element : PathElement K) :
    Nearest point (visiblePoints path clip ∪ drawnPoints path clip element)
      (hitElement point clip s element).nearest := by
  obtain ⟨isCurrent, isStart, nearest⟩ := walked
  cases element with
  | move to' => exact nearest.empty (drawnPoints_curve (by simp) (by simp))
  | quadCurve to' control => exact nearest.empty (drawnPoints_curve (by simp) (by simp))
  | curve to' control₁ control₂ => exact nearest.empty (drawnPoints_curve (by simp) (by simp))
  | line to' =>
      rw [hitElement]
      cases known : s.current with
      | none => exact nearest.empty (drawnPoints_none (isCurrent.symm.trans known))
      | some current =>
          have drawn : drawnPoints path clip (.line to') = segmentPoints clip current to' := by
            apply drawnPoints_segment
            intro a b
            rw [DrawsSegment, ← isCurrent, known]
            simp
          rw [drawn]
          exact nearest_hitSegment nearest current to'
  | closeSubpath =>
      rw [hitElement]
      cases known : s.current with
      | none => exact nearest.empty (drawnPoints_none (isCurrent.symm.trans known))
      | some current =>
          cases begun : s.start with
          | none =>
              apply nearest.empty
              apply drawnPoints_empty
              rintro a b ⟨-, drawn | ⟨-, starts⟩⟩
              · cases drawn
              · rw [← isStart, begun] at starts
                cases starts
          | some start =>
              have drawn : drawnPoints path clip .closeSubpath =
                  segmentPoints clip current start := by
                apply drawnPoints_segment
                intro a b
                rw [DrawsSegment, ← isCurrent, known, ← isStart, begun]
                simp
              rw [drawn]
              exact nearest_hitSegment nearest current start

theorem Walked.step {s : HitState K} (walked : Walked point clip path s)
    (element : PathElement K) :
    Walked point clip (path ++ [element]) (hitElement point clip s element) where
  current := by
    rw [currentPoint_concat]
    cases element with
    | closeSubpath => exact walked.start
    | _ => rfl
  start := by
    rw [subpathStart_concat]
    cases element with
    | move to' => rfl
    | _ => exact walked.start
  nearest := by
    rw [visiblePoints_concat]
    exact walked.nearest_step element

/-- The walk along a whole path. -/
theorem walked (point : K × K) (clip : Sides K) (path : List (PathElement K)) :
    Walked point clip path (path.foldl (hitElement point clip) ⟨none, none, none⟩) := by
  induction path using List.reverseRecOn with
  | nil =>
      refine ⟨rfl, rfl, ?_⟩
      apply Set.eq_empty_of_forall_notMem
      rintro p ⟨a, b, ⟨before, element, after, split, -⟩, -⟩
      exact List.cons_ne_nil _ _ (List.append_eq_nil_iff.mp split.symm).2
  | append_singleton path element ih =>
      rw [List.foldl_concat]
      exact ih.step element

/-- **The nearest visible point of a path.** The point found is a point of a segment of the path and
lies in the rectangle, and no such point is nearer. Nothing is found exactly if there is no such
point. -/
theorem closestPoint_nearest (path : List (PathElement K)) (point : K × K) (clip : Sides K) :
    (∀ p, closestPoint path point clip = some p →
      (∃ a b t, IsSegment path a b ∧ 0 ≤ t ∧ t ≤ 1 ∧ p = along a b t) ∧ clip.Holds p ∧
      ∀ a b t, IsSegment path a b → 0 ≤ t → t ≤ 1 → clip.Holds (along a b t) →
        squaredDistance p point ≤ squaredDistance (along a b t) point) ∧
    (closestPoint path point clip = none ↔
      ∀ a b t, IsSegment path a b → 0 ≤ t → t ≤ 1 → ¬clip.Holds (along a b t)) := by
  have nearest := (walked point clip path).nearest
  rw [closestPoint]
  cases found : (path.foldl (hitElement point clip) ⟨none, none, none⟩).nearest with
  | none =>
      rw [found] at nearest
      constructor
      · intro p some
        cases some
      · refine ⟨fun _ a b t segment low high holds => ?_, fun _ => rfl⟩
        have member : along a b t ∈ visiblePoints path clip :=
          ⟨a, b, segment, ⟨t, low, high, rfl⟩, holds⟩
        rw [nearest] at member
        exact member
  | some best =>
      obtain ⟨q, distance⟩ := best
      rw [found] at nearest
      obtain ⟨⟨a, b, segment, ⟨t, low, high, rfl⟩, holds⟩, rfl, least⟩ := nearest
      constructor
      · intro p is
        obtain rfl := Option.some.inj is
        refine ⟨⟨a, b, t, segment, low, high, rfl⟩, holds, ?_⟩
        intro a' b' t' segment' low' high' holds'
        exact least _ ⟨a', b', segment', ⟨t', low', high', rfl⟩, holds'⟩
      · constructor
        · intro none
          cases none
        · intro none
          exact absurd holds (none a b t segment low high)

end Visible

/-- Of a closed triangle and a crossing line, the border of the rectangle holds the point that is
nearest to a tap outside. -/
theorem closestPoint_nearest_border :
    closestPoint [.move (0, 0), .line (8, 0), .line (8, 8), .closeSubpath, .line (0, 0),
        .move (4, -4), .line (4, 12)] ((3, 9) : ℚ × ℚ) ⟨1, 1, 6, 6⟩ = some (4, 6) ∧
      (⟨1, 1, 6, 6⟩ : Sides ℚ).Holds (4, 6) ∧
      ∀ a b t, IsSegment [.move (0, 0), .line (8, 0), .line (8, 8), .closeSubpath, .line (0, 0),
          .move (4, -4), .line (4, 12)] a b → 0 ≤ t → t ≤ 1 →
        (⟨1, 1, 6, 6⟩ : Sides ℚ).Holds (along a b t) →
          squaredDistance (4, 6) (3, 9) ≤ squaredDistance (along a b t) (3, 9) := by
  have found : closestPoint [.move (0, 0), .line (8, 0), .line (8, 8), .closeSubpath,
      .line (0, 0), .move (4, -4), .line (4, 12)] ((3, 9) : ℚ × ℚ) ⟨1, 1, 6, 6⟩ = some (4, 6) := by
    decide +kernel
  obtain ⟨-, holds, least⟩ := (closestPoint_nearest _ _ _).1 _ found
  exact ⟨found, holds, least⟩

end OsmMini.Apple

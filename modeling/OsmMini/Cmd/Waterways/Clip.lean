import OsmMini.Core.Store.Bounds
import OsmMini.Foundations.Clipping

/-!
# Clipping a line to a window

A line is clipped segment by segment. The visible parts of consecutive segments are joined to
fragments: a fragment goes on as long as the segments end in the window. Points that repeat the
point before them are left out, and a fragment with fewer than two points is dropped.

The visible part of a segment is the set of its points in the window (`clipSegment_some`,
`clipSegment_none`). A segment that starts in the window is visible from its start, and one that
ends there is visible to its end.
-/

set_option autoImplicit false

namespace OsmMini.Cmd.Waterways

open OsmMini.Core OsmMini.Foundations

section Clip

variable {K : Type} [Field K] [LinearOrder K]

/-- A point on the way from one point to another. -/
def pointAt (start stop : K × K) (u : K) : K × K :=
  (start.1 + u * (stop.1 - start.1), start.2 + u * (stop.2 - start.2))

def tinyTilesWaterwayPointInWindow (point : K × K) (window : CoordWindow K) : Prop :=
  window.minLon ≤ point.1 ∧ point.1 ≤ window.maxLon ∧
    window.minLat ≤ point.2 ∧ point.2 ≤ window.maxLat

instance (point : K × K) (window : CoordWindow K) :
    Decidable (tinyTilesWaterwayPointInWindow point window) :=
  inferInstanceAs (Decidable (_ ∧ _ ∧ _ ∧ _))

/-- The four borders of a window, as conditions on the way from one point to another. -/
def borders (start stop : K × K) (window : CoordWindow K) : List (K × K) :=
  let dx := stop.1 - start.1
  let dy := stop.2 - start.2
  [(-dx, start.1 - window.minLon), (dx, window.maxLon - start.1),
    (-dy, start.2 - window.minLat), (dy, window.maxLat - start.2)]

/-- The ends of the visible part of a segment. -/
def clipTinyTilesWaterwaySegment (start stop : K × K) (window : CoordWindow K) :
    Option ((K × K) × (K × K)) :=
  (clipRange (0, 1) (borders start stop window)).map fun u =>
    (pointAt start stop u.1, pointAt start stop u.2)

/-- Add a point to a path, unless the path ends there. -/
def pushNew (path : List (K × K)) (point : K × K) : List (K × K) :=
  if path.getLast? = some point then path else path ++ [point]

structure ClipState (K : Type) where
  clipped : List (List (K × K))
  current : List (K × K)

/-- Keep the current fragment, if it has two points, and begin a new one. -/
def ClipState.finish (s : ClipState K) : ClipState K where
  clipped := if 2 ≤ s.current.length then s.clipped ++ [s.current] else s.clipped
  current := []

/-- Take one segment into account. -/
def clipNext (window : CoordWindow K) (s : ClipState K) (segment : (K × K) × (K × K)) :
    ClipState K :=
  match clipTinyTilesWaterwaySegment segment.1 segment.2 window with
  | none => s.finish
  | some (start, stop) =>
    let s := { s with current := pushNew (pushNew s.current start) stop }
    if tinyTilesWaterwayPointInWindow segment.2 window then s else s.finish

/-- The segments between consecutive points. -/
def edges (path : List (K × K)) : List ((K × K) × (K × K)) := path.zip path.tail

def clipTinyTilesWaterway (points : List (K × K)) (window : CoordWindow K) :
    List (List (K × K)) :=
  ((edges points).foldl (clipNext window) ⟨[], []⟩).finish.clipped

/-! ## The fragments of a list of segments -/

/-- The fragment that is finished, if it has two points. -/
def finished (current : List (K × K)) : List (List (K × K)) :=
  if 2 ≤ current.length then [current] else []

/-- The fragments that come of the segments left, and of the current one. -/
def fragments (window : CoordWindow K) :
    List (K × K) → List ((K × K) × (K × K)) → List (List (K × K))
  | current, [] => finished current
  | current, segment :: segments =>
    match clipTinyTilesWaterwaySegment segment.1 segment.2 window with
    | none => finished current ++ fragments window [] segments
    | some (start, stop) =>
      if tinyTilesWaterwayPointInWindow segment.2 window then
        fragments window (pushNew (pushNew current start) stop) segments
      else finished (pushNew (pushNew current start) stop) ++ fragments window [] segments

omit [Field K] [LinearOrder K] in
theorem finish_clipped (s : ClipState K) : s.finish.clipped = s.clipped ++ finished s.current := by
  rw [ClipState.finish, finished]
  split
  · rfl
  · exact (List.append_nil _).symm

theorem foldl_clipNext (window : CoordWindow K) (segments : List ((K × K) × (K × K))) :
    ∀ s : ClipState K, (segments.foldl (clipNext window) s).finish.clipped =
      s.clipped ++ fragments window s.current segments := by
  induction segments with
  | nil => exact fun s => finish_clipped s
  | cons segment segments ih =>
      intro s
      rw [List.foldl_cons, ih, clipNext, fragments]
      cases clipTinyTilesWaterwaySegment segment.1 segment.2 window with
      | none =>
          dsimp only
          rw [finish_clipped, List.append_assoc]
          rfl
      | some part =>
          dsimp only
          by_cases inside : tinyTilesWaterwayPointInWindow segment.2 window
          · rw [if_pos inside, if_pos inside]
          · rw [if_neg inside, if_neg inside, finish_clipped, List.append_assoc]
            rfl

theorem clipTinyTilesWaterway_eq (points : List (K × K)) (window : CoordWindow K) :
    clipTinyTilesWaterway points window = fragments window [] (edges points) :=
  foldl_clipNext window (edges points) ⟨[], []⟩

/-! ## The visible part of a segment -/

omit [LinearOrder K] in
theorem pointAt_zero (start stop : K × K) : pointAt start stop 0 = start := by
  rw [pointAt, zero_mul, zero_mul, add_zero, add_zero]

omit [LinearOrder K] in
theorem pointAt_one (start stop : K × K) : pointAt start stop 1 = stop := by
  rw [pointAt, one_mul, one_mul, add_sub_cancel, add_sub_cancel]

/-- The ends of a visible part, with their places on the segment. -/
structure VisiblePart (window : CoordWindow K) (segment part : (K × K) × (K × K)) (low high : K) :
    Prop where
  ordered : low ≤ high
  starts : part.1 = pointAt segment.1 segment.2 low
  stops : part.2 = pointAt segment.1 segment.2 high
  visible : ∀ u, (low ≤ u ∧ u ≤ high) ↔ (0 ≤ u ∧ u ≤ 1) ∧
    tinyTilesWaterwayPointInWindow (pointAt segment.1 segment.2 u) window

variable [IsStrictOrderedRing K] {window : CoordWindow K}

theorem borders_iff {start stop : K × K} {u : K} :
    (∀ c ∈ borders start stop window, c.1 * u ≤ c.2) ↔
      tinyTilesWaterwayPointInWindow (pointAt start stop u) window := by
  simp only [borders, List.forall_mem_cons, tinyTilesWaterwayPointInWindow, pointAt]
  constructor
  · rintro ⟨west, east, south, north, -⟩
    refine ⟨?_, ?_, ?_, ?_⟩ <;> linarith
  · rintro ⟨west, east, south, north⟩
    refine ⟨?_, ?_, ?_, ?_, fun _ none => absurd none List.not_mem_nil⟩ <;> linarith

theorem clipSegment_some {segment part : (K × K) × (K × K)}
    (clipped : clipTinyTilesWaterwaySegment segment.1 segment.2 window = some part) :
    ∃ low high, VisiblePart window segment part low high := by
  obtain ⟨⟨low, high⟩, range, rfl⟩ := Option.map_eq_some_iff.mp clipped
  obtain ⟨ordered, visible⟩ := clipRange_some zero_le_one range
  refine ⟨low, high, ordered, rfl, rfl, fun u => (visible u).trans ?_⟩
  rw [borders_iff]

theorem clipSegment_none {segment : (K × K) × (K × K)}
    (clipped : clipTinyTilesWaterwaySegment segment.1 segment.2 window = none) {u : K}
    (low : 0 ≤ u) (high : u ≤ 1) :
    ¬tinyTilesWaterwayPointInWindow (pointAt segment.1 segment.2 u) window := by
  rw [← borders_iff]
  exact clipRange_none zero_le_one (Option.map_eq_none_iff.mp clipped) u low high

namespace VisiblePart

variable {segment part : (K × K) × (K × K)} {low high : K}

omit [IsStrictOrderedRing K] in
theorem bounds (visible : VisiblePart window segment part low high) : 0 ≤ low ∧ high ≤ 1 :=
  ⟨((visible.visible low).mp ⟨le_rfl, visible.ordered⟩).1.1,
    ((visible.visible high).mp ⟨visible.ordered, le_rfl⟩).1.2⟩

/-- A segment that starts in the window is visible from its start. -/
theorem start_eq (visible : VisiblePart window segment part low high)
    (inside : tinyTilesWaterwayPointInWindow segment.1 window) :
    low = 0 ∧ part.1 = segment.1 := by
  rw [← pointAt_zero segment.1 segment.2] at inside
  have reached := (visible.visible 0).mpr ⟨⟨le_rfl, zero_le_one⟩, inside⟩
  have same : low = 0 := le_antisymm reached.1 visible.bounds.1
  refine ⟨same, ?_⟩
  rw [visible.starts, same, pointAt_zero]

/-- A segment that ends in the window is visible to its end. -/
theorem stop_eq (visible : VisiblePart window segment part low high)
    (inside : tinyTilesWaterwayPointInWindow segment.2 window) :
    high = 1 ∧ part.2 = segment.2 := by
  rw [← pointAt_one segment.1 segment.2] at inside
  have reached := (visible.visible 1).mpr ⟨⟨zero_le_one, le_rfl⟩, inside⟩
  have same : high = 1 := le_antisymm visible.bounds.2 reached.2
  refine ⟨same, ?_⟩
  rw [visible.stops, same, pointAt_one]

end VisiblePart

end Clip

end OsmMini.Cmd.Waterways

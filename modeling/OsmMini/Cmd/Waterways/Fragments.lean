import Mathlib
import OsmMini.Cmd.Waterways.Clip

/-!
# The fragments of a clipped line

The edges of the fragments, one fragment after the other, are exactly the visible parts of the
segments that are longer than a point (`flatMap_edges`). Each fragment traces a run of
consecutive segments, and the runs follow one another (`subPaths_fragments`).

A visible point that lies on no fragment is therefore the only visible point of every segment
that holds it. Since the other visible parts are closed it is isolated (`clipTinyTilesWaterway_exact`).
-/

set_option autoImplicit false

namespace OsmMini.Cmd.Waterways

open OsmMini.Core OsmMini.Foundations

/-! ## Edges of a path -/

section Edges

variable {K : Type}

/-- A point at the end of a path adds one edge. -/
theorem edges_append (path : List (K × K)) (point : K × K) :
    edges (path ++ [point]) = edges path ++ (path.getLast?.map fun last => (last, point)).toList := by
  induction path with
  | nil => rfl
  | cons first path ih =>
      cases path with
      | nil => rfl
      | cons second path =>
          have step : ∀ rest : List (K × K),
              edges (first :: second :: rest) = (first, second) :: edges (second :: rest) :=
            fun _ => rfl
          rw [List.cons_append, List.cons_append, step, ← List.cons_append, ih, step,
            List.getLast?_cons_cons, List.cons_append]

/-- The segments between the points of a path follow one another. -/
theorem edges_isChain (path : List (K × K)) :
    (edges path).IsChain fun first second => first.2 = second.1 := by
  induction path with
  | nil => exact .nil
  | cons first path ih =>
      cases path with
      | nil => exact .nil
      | cons second path =>
          cases path with
          | nil => exact .singleton _
          | cons third path => exact .cons_cons rfl ih

theorem flatMap_finished (current : List (K × K)) :
    (finished current).flatMap edges = edges current := by
  rw [finished]
  split
  · exact List.flatMap_singleton _ _
  · cases current with
    | nil => rfl
    | cons first rest =>
        cases rest with
        | nil => rfl
        | cons second rest =>
            rename_i short
            exact absurd (Nat.le_add_left 2 rest.length) short

end Edges

/-! ## The edges of the fragments -/

section Paths

variable {K : Type} [LinearOrder K]

theorem getLast_pushNew (path : List (K × K)) (point : K × K) :
    (pushNew path point).getLast? = some point := by
  rw [pushNew]
  split
  · assumption
  · exact List.getLast?_concat

variable [Field K] {window : CoordWindow K}

/-- The visible part of a segment, if it is longer than a point. -/
def visiblePart (window : CoordWindow K) (segment : (K × K) × (K × K)) :
    List ((K × K) × (K × K)) :=
  match clipTinyTilesWaterwaySegment segment.1 segment.2 window with
  | none => []
  | some part => if part.1 = part.2 then [] else [part]

/-- A fragment is joined to the next segment where it ends: in the window, at the start of the
segment. -/
def Joined (window : CoordWindow K) (current : List (K × K))
    (segments : List ((K × K) × (K × K))) : Prop :=
  ∀ last ∈ current.getLast?, tinyTilesWaterwayPointInWindow last window ∧
    ∀ segment ∈ segments.head?, segment.1 = last

variable [IsStrictOrderedRing K]

/-- A segment that goes on from a fragment adds its visible part to it. -/
theorem edges_pushNew {current : List (K × K)} {segment part : (K × K) × (K × K)}
    {segments : List ((K × K) × (K × K))} {low high : K}
    (joined : Joined window current (segment :: segments))
    (visible : VisiblePart window segment part low high) :
    edges (pushNew (pushNew current part.1) part.2) =
      edges current ++ if part.1 = part.2 then [] else [part] := by
  have start : edges (pushNew current part.1) = edges current := by
    rw [pushNew]
    by_cases same : current.getLast? = some part.1
    · rw [if_pos same]
    · rw [if_neg same, edges_append]
      cases last : current.getLast? with
      | none => exact List.append_nil _
      | some point =>
          obtain ⟨inside, follows⟩ := joined point last
          have begins := follows segment rfl
          rw [← begins] at inside
          rw [(visible.start_eq inside).2, begins] at same
          exact absurd last same
  have ends := getLast_pushNew current part.1
  rw [pushNew, ends]
  by_cases same : part.1 = part.2
  · rw [if_pos (congrArg some same), if_pos same, start, List.append_nil]
  · rw [if_neg fun equal => same (Option.some.inj equal), if_neg same, edges_append, start, ends]
    rfl

/-- After a segment that ends in the window the fragment is joined to the next one. -/
theorem Joined.next {current : List (K × K)} {segment part : (K × K) × (K × K)}
    {segments : List ((K × K) × (K × K))} {low high : K}
    (chain : (segment :: segments).IsChain fun first second => first.2 = second.1)
    (visible : VisiblePart window segment part low high)
    (inside : tinyTilesWaterwayPointInWindow segment.2 window) :
    Joined window (pushNew (pushNew current part.1) part.2) segments := by
  intro last found
  rw [getLast_pushNew] at found
  obtain rfl := Option.some.inj found
  rw [(visible.stop_eq inside).2]
  refine ⟨inside, fun next member => ?_⟩
  cases segments with
  | nil => cases member
  | cons head segments =>
      obtain rfl := Option.some.inj member
      exact ((List.isChain_cons_cons.mp chain).1).symm

omit [Field K] [IsStrictOrderedRing K] in
theorem joined_nil (segments : List ((K × K) × (K × K))) : Joined window [] segments :=
  fun _ none => by cases none

/-- **The edges of the fragments are the visible parts of the segments**, in their order. -/
theorem flatMap_edges {segments : List ((K × K) × (K × K))} : ∀ {current : List (K × K)},
    segments.IsChain (fun first second => first.2 = second.1) →
    Joined window current segments →
    (fragments window current segments).flatMap edges =
      edges current ++ segments.flatMap (visiblePart window) := by
  induction segments with
  | nil =>
      intro current _ _
      rw [fragments, flatMap_finished]
      exact (List.append_nil _).symm
  | cons segment segments ih =>
      intro current chain joined
      have rest := ih (List.IsChain.tail chain) (joined_nil segments)
      rw [fragments, List.flatMap_cons, visiblePart]
      cases clipped : clipTinyTilesWaterwaySegment segment.1 segment.2 window with
      | none =>
          dsimp only
          rw [List.flatMap_append, flatMap_finished, rest]
          rfl
      | some part =>
          obtain ⟨low, high, visible⟩ := clipSegment_some clipped
          have added := edges_pushNew joined visible
          dsimp only
          by_cases inside : tinyTilesWaterwayPointInWindow segment.2 window
          · rw [if_pos inside, ih (List.IsChain.tail chain) (Joined.next chain visible inside),
              added, List.append_assoc]
          · rw [if_neg inside, List.flatMap_append, flatMap_finished, rest, added,
              List.append_assoc]
            rfl

/-! ## The order of the fragments -/

/-- A path without the points that repeat the point before them. -/
def withoutRepeats (path : List (K × K)) : List (K × K) := path.foldl pushNew []

/-- The fragment runs from a point of the first segment through the ends of the segments to a
point of the last one. -/
def Traces (run : List ((K × K) × (K × K))) (fragment : List (K × K)) : Prop :=
  ∃ first last low high, run.head? = some first ∧ run.getLast? = some last ∧
    (0 ≤ low ∧ low ≤ 1) ∧ (0 ≤ high ∧ high ≤ 1) ∧ (run.length = 1 → low ≤ high) ∧
      fragment = withoutRepeats (pointAt first.1 first.2 low :: run.dropLast.map Prod.snd ++
        [pointAt last.1 last.2 high])

/-- The fragments trace runs of consecutive segments, one run after the other. -/
inductive SubPaths : List ((K × K) × (K × K)) → List (List (K × K)) → Prop
  | nil : SubPaths [] []
  | skip {segment segments fragments} : SubPaths segments fragments →
      SubPaths (segment :: segments) fragments
  | take {run segments fragment fragments} : Traces run fragment →
      SubPaths segments fragments → SubPaths (run ++ segments) (fragment :: fragments)

/-- A fragment that can go on: it traces a run whose last segment ends in the window. -/
def Goes (window : CoordWindow K) (run : List ((K × K) × (K × K))) (current : List (K × K)) :
    Prop :=
  ∃ first last low, run.head? = some first ∧ run.getLast? = some last ∧ (0 ≤ low ∧ low ≤ 1) ∧
    tinyTilesWaterwayPointInWindow last.2 window ∧
      current = withoutRepeats (pointAt first.1 first.2 low :: run.map Prod.snd)

omit [IsStrictOrderedRing K] in
theorem SubPaths.skipAll {segments : List ((K × K) × (K × K))} {fragments : List (List (K × K))}
    (rest : SubPaths segments fragments) (run : List ((K × K) × (K × K))) :
    SubPaths (run ++ segments) fragments := by
  induction run with
  | nil => exact rest
  | cons segment run ih => exact ih.skip

omit [IsStrictOrderedRing K] in
/-- A finished fragment traces its run, and without it the run is passed over. -/
theorem SubPaths.finished {run segments : List ((K × K) × (K × K))} {current : List (K × K)}
    {fragments : List (List (K × K))} (traces : Traces run current)
    (rest : SubPaths segments fragments) :
    SubPaths (run ++ segments) (finished current ++ fragments) := by
  rw [Waterways.finished]
  split
  · exact rest.take traces
  · exact rest.skipAll run

omit [Field K] [IsStrictOrderedRing K] in
theorem withoutRepeats_append (path : List (K × K)) (point : K × K) :
    withoutRepeats (path ++ [point]) = pushNew (withoutRepeats path) point := by
  rw [withoutRepeats, List.foldl_append]
  rfl

theorem Goes.traces {run : List ((K × K) × (K × K))} {current : List (K × K)}
    (goes : Goes window run current) : Traces run current := by
  obtain ⟨first, last, low, head, tail, bounds, -, rfl⟩ := goes
  refine ⟨first, last, low, 1, head, tail, bounds, ⟨zero_le_one, le_rfl⟩, fun _ => bounds.2, ?_⟩
  have whole := List.dropLast_append_getLast? last tail
  conv_lhs => rw [← whole]
  rw [List.map_append, pointAt_one]
  rfl

/-- A fragment that can go on takes in the visible part of the next segment. -/
theorem Goes.extends {run : List ((K × K) × (K × K))} {current : List (K × K)}
    {segment part : (K × K) × (K × K)} {low high : K} (goes : Goes window run current)
    (follows : ∀ last ∈ run.getLast?, last.2 = segment.1)
    (visible : VisiblePart window segment part low high) :
    Traces (run ++ [segment]) (pushNew (pushNew current part.1) part.2) ∧
      (tinyTilesWaterwayPointInWindow segment.2 window →
        Goes window (run ++ [segment]) (pushNew (pushNew current part.1) part.2)) := by
  obtain ⟨first, last, start, head, tail, bounds, inside, rfl⟩ := goes
  have begins := follows last tail
  have whole := List.dropLast_append_getLast? last tail
  rw [begins] at inside
  obtain ⟨rfl, sameStart⟩ := visible.start_eq inside
  -- The fragment already ends where the visible part begins.
  have ends : (withoutRepeats (pointAt first.1 first.2 start :: run.map Prod.snd)).getLast? =
      some part.1 := by
    have shape : pointAt first.1 first.2 start :: run.map Prod.snd =
        (pointAt first.1 first.2 start :: run.dropLast.map Prod.snd) ++ [last.2] := by
      conv_lhs => rw [← whole]
      rw [List.map_append]
      rfl
    rw [shape, withoutRepeats_append, getLast_pushNew, begins, sameStart]
  have stays : pushNew (withoutRepeats (pointAt first.1 first.2 start :: run.map Prod.snd)) part.1 =
      withoutRepeats (pointAt first.1 first.2 start :: run.map Prod.snd) := if_pos ends
  have head' : (run ++ [segment]).head? = some first := by
    rw [List.head?_append, head]
    rfl
  have tail' : (run ++ [segment]).getLast? = some segment := List.getLast?_concat
  rw [stays, ← withoutRepeats_append]
  constructor
  · refine ⟨first, segment, start, high, head', tail', bounds,
      ⟨visible.ordered, visible.bounds.2⟩, fun single => ?_, ?_⟩
    · have nonempty : run ≠ [] := by
        rintro rfl
        cases head
      rw [List.length_append] at single
      exact absurd (List.length_pos_iff.mpr nonempty) (by simpa using single)
    · rw [List.dropLast_concat, visible.stops]
  · intro inside'
    refine ⟨first, segment, start, head', tail', bounds, inside', ?_⟩
    rw [List.map_append, (visible.stop_eq inside').2]
    rfl

/-- A visible part begins a fragment. -/
theorem begins_fragment {segment part : (K × K) × (K × K)} {low high : K}
    (visible : VisiblePart window segment part low high) :
    Traces [segment] (pushNew (pushNew [] part.1) part.2) ∧
      (tinyTilesWaterwayPointInWindow segment.2 window →
        Goes window [segment] (pushNew (pushNew [] part.1) part.2)) := by
  obtain ⟨atLeast, atMost⟩ := visible.bounds
  constructor
  · refine ⟨segment, segment, low, high, rfl, rfl, ⟨atLeast, visible.ordered.trans atMost⟩,
      ⟨atLeast.trans visible.ordered, atMost⟩, fun _ => visible.ordered, ?_⟩
    rw [visible.starts, visible.stops]
    rfl
  · intro inside
    refine ⟨segment, segment, low, rfl, rfl, ⟨atLeast, visible.ordered.trans atMost⟩, inside, ?_⟩
    rw [visible.starts, (visible.stop_eq inside).2]
    rfl

/-- **The fragments are sub-paths of the line**, in order. -/
theorem subPaths_fragments {segments : List ((K × K) × (K × K))} :
    (segments.IsChain (fun first second => first.2 = second.1) →
      SubPaths segments (fragments window [] segments)) ∧
    ∀ {run : List ((K × K) × (K × K))} {current : List (K × K)}, Goes window run current →
      (run ++ segments).IsChain (fun first second => first.2 = second.1) →
      SubPaths (run ++ segments) (fragments window current segments) := by
  induction segments with
  | nil =>
      refine ⟨fun _ => .nil, fun {run current} goes _ => ?_⟩
      have whole := SubPaths.finished goes.traces .nil
      rwa [List.append_nil (finished current)] at whole
  | cons segment segments ih =>
      obtain ⟨fresh, goingOn⟩ := ih
      constructor
      · intro chain
        have rest := fresh (List.IsChain.tail chain)
        rw [fragments]
        cases clipped : clipTinyTilesWaterwaySegment segment.1 segment.2 window with
        | none => exact rest.skip
        | some part =>
            obtain ⟨low, high, visible⟩ := clipSegment_some clipped
            obtain ⟨traces, goes⟩ := begins_fragment visible
            dsimp only
            by_cases inside : tinyTilesWaterwayPointInWindow segment.2 window
            · rw [if_pos inside]
              exact goingOn (goes inside) chain
            · rw [if_neg inside]
              exact SubPaths.finished traces rest
      · intro run current goes chain
        have tailChain := (List.isChain_append.mp chain).2.1
        have rest := fresh (List.IsChain.tail tailChain)
        rw [fragments]
        cases clipped : clipTinyTilesWaterwaySegment segment.1 segment.2 window with
        | none => exact SubPaths.finished goes.traces rest.skip
        | some part =>
            obtain ⟨low, high, visible⟩ := clipSegment_some clipped
            obtain ⟨traces, goes'⟩ := goes.extends
              (fun last found => (List.isChain_append.mp chain).2.2 last found segment rfl) visible
            rw [List.append_cons] at chain ⊢
            dsimp only
            by_cases inside : tinyTilesWaterwayPointInWindow segment.2 window
            · rw [if_pos inside]
              exact goingOn (goes' inside) chain
            · rw [if_neg inside]
              exact SubPaths.finished traces rest

omit [IsStrictOrderedRing K] in
/-- No fragment is a single point. -/
theorem two_le_length {segments : List ((K × K) × (K × K))} : ∀ {current : List (K × K)},
    ∀ fragment ∈ fragments window current segments, 2 ≤ fragment.length := by
  have done : ∀ current : List (K × K), ∀ fragment ∈ finished current, 2 ≤ fragment.length := by
    intro current fragment member
    rw [finished] at member
    split at member
    · obtain rfl := List.mem_singleton.mp member
      assumption
    · cases member
  induction segments with
  | nil => exact fun {current} => done current
  | cons segment segments ih =>
      intro current fragment member
      rw [fragments] at member
      split at member
      · rcases List.mem_append.mp member with here | later
        · exact done _ _ here
        · exact ih _ later
      · split at member
        · exact ih _ member
        · rcases List.mem_append.mp member with here | later
          · exact done _ _ here
          · exact ih _ later

/-! ## The points of the fragments -/

/-- A point of the line through the given points. -/
def OnPath (path : List (K × K)) (x : K × K) : Prop :=
  ∃ segment ∈ edges path, ∃ u, (0 ≤ u ∧ u ≤ 1) ∧ x = pointAt segment.1 segment.2 u

omit [IsStrictOrderedRing K] in
theorem mem_visiblePart {segment part : (K × K) × (K × K)} :
    part ∈ visiblePart window segment ↔ part.1 ≠ part.2 ∧
      clipTinyTilesWaterwaySegment segment.1 segment.2 window = some part := by
  rw [visiblePart]
  split
  · rename_i clipped
    rw [clipped]
    simp
  · rename_i found clipped
    rw [clipped, Option.some.injEq]
    split
    · rename_i same
      refine ⟨fun none => absurd none List.not_mem_nil, ?_⟩
      rintro ⟨different, rfl⟩
      exact absurd same different
    · rename_i different
      rw [List.mem_singleton]
      constructor
      · rintro rfl
        exact ⟨different, rfl⟩
      · exact fun h => h.2.symm

omit [IsStrictOrderedRing K] in
/-- A place on a visible part is a place on its segment. -/
theorem VisiblePart.pointAt_eq {segment part : (K × K) × (K × K)} {low high : K}
    (visible : VisiblePart window segment part low high) (u : K) :
    pointAt part.1 part.2 u = pointAt segment.1 segment.2 (low + u * (high - low)) := by
  rw [visible.starts, visible.stops, pointAt, pointAt, pointAt, pointAt, Prod.mk.injEq]
  constructor <;> ring

/-- Every point of a fragment is a point of the line in the window. -/
theorem onPath_fragment {points fragment : List (K × K)} {x : K × K}
    (member : fragment ∈ clipTinyTilesWaterway points window) (on : OnPath fragment x) :
    OnPath points x ∧ tinyTilesWaterwayPointInWindow x window := by
  obtain ⟨part, found, u, ⟨atLeast, atMost⟩, rfl⟩ := on
  rw [clipTinyTilesWaterway_eq] at member
  have inside : part ∈ (fragments window [] (edges points)).flatMap edges :=
    List.mem_flatMap.mpr ⟨fragment, member, found⟩
  rw [flatMap_edges (edges_isChain points) (joined_nil _)] at inside
  obtain ⟨segment, known, cut⟩ := List.mem_flatMap.mp inside
  obtain ⟨low, high, visible⟩ := clipSegment_some (mem_visiblePart.mp cut).2
  rw [visible.pointAt_eq]
  have wide : 0 ≤ high - low := sub_nonneg.mpr visible.ordered
  have above : 0 ≤ u * (high - low) := mul_nonneg atLeast wide
  have below : u * (high - low) ≤ high - low := mul_le_of_le_one_left wide atMost
  have seen := (visible.visible (low + u * (high - low))).mp ⟨by linarith, by linarith⟩
  exact ⟨⟨segment, known, _, seen.1, rfl⟩, seen.2⟩

/-- A visible point of a segment is on a fragment, or it is all of the segment that is visible. -/
theorem onPath_or_alone {points : List (K × K)} {segment : (K × K) × (K × K)} {u : K}
    (member : segment ∈ edges points) (place : 0 ≤ u ∧ u ≤ 1)
    (inside : tinyTilesWaterwayPointInWindow (pointAt segment.1 segment.2 u) window) :
    (∃ fragment ∈ clipTinyTilesWaterway points window,
      OnPath fragment (pointAt segment.1 segment.2 u)) ∨
    ∀ v, (0 ≤ v ∧ v ≤ 1) → tinyTilesWaterwayPointInWindow (pointAt segment.1 segment.2 v) window →
      pointAt segment.1 segment.2 v = pointAt segment.1 segment.2 u := by
  cases clipped : clipTinyTilesWaterwaySegment segment.1 segment.2 window with
  | none => exact absurd inside (clipSegment_none clipped place.1 place.2)
  | some part =>
      obtain ⟨low, high, visible⟩ := clipSegment_some clipped
      -- Each visible place of the segment is a place on the visible part.
      have onPart : ∀ v, (0 ≤ v ∧ v ≤ 1) →
          tinyTilesWaterwayPointInWindow (pointAt segment.1 segment.2 v) window →
          ∃ w, (0 ≤ w ∧ w ≤ 1) ∧ pointAt segment.1 segment.2 v = pointAt part.1 part.2 w := by
        intro v here seen
        obtain ⟨atLeast, atMost⟩ := (visible.visible v).mpr ⟨here, seen⟩
        rcases visible.ordered.eq_or_lt with same | wide
        · refine ⟨0, ⟨le_rfl, zero_le_one⟩, ?_⟩
          rw [visible.pointAt_eq, zero_mul, add_zero,
            le_antisymm (atMost.trans same.ge) atLeast]
        · have positive : 0 < high - low := sub_pos.mpr wide
          refine ⟨(v - low) / (high - low), ⟨div_nonneg (sub_nonneg.mpr atLeast) positive.le,
            (div_le_one positive).mpr (by linarith)⟩, ?_⟩
          rw [visible.pointAt_eq, div_mul_cancel₀ _ positive.ne', add_sub_cancel]
      by_cases single : part.1 = part.2
      · right
        have constant : ∀ w, pointAt part.1 part.2 w = part.1 := by
          intro w
          rw [pointAt, ← single, sub_self, sub_self, mul_zero, add_zero, add_zero]
        intro v here seen
        obtain ⟨w, -, same⟩ := onPart v here seen
        obtain ⟨w', -, same'⟩ := onPart u place inside
        rw [same, same', constant, constant]
      · left
        have cut : part ∈ (edges points).flatMap (visiblePart window) :=
          List.mem_flatMap.mpr ⟨segment, member, mem_visiblePart.mpr ⟨single, clipped⟩⟩
        have nothing : Joined window [] (edges points) := joined_nil _
        have kept := flatMap_edges (edges_isChain points) nothing
        rw [show edges ([] : List (K × K)) = [] from rfl, List.nil_append] at kept
        rw [← kept, ← clipTinyTilesWaterway_eq] at cut
        obtain ⟨fragment, known, found⟩ := List.mem_flatMap.mp cut
        obtain ⟨w, bounds, same⟩ := onPart u place inside
        exact ⟨fragment, known, part, found, w, bounds, same⟩

end Paths

/-! ## The visible line -/

section Reals

/-- The points of a segment in the window. -/
def visiblePoints (window : CoordWindow ℝ) (segment : (ℝ × ℝ) × (ℝ × ℝ)) : Set (ℝ × ℝ) :=
  {x | (∃ u, (0 ≤ u ∧ u ≤ 1) ∧ x = pointAt segment.1 segment.2 u) ∧
    tinyTilesWaterwayPointInWindow x window}

theorem isClosed_visiblePoints (window : CoordWindow ℝ) (segment : (ℝ × ℝ) × (ℝ × ℝ)) :
    IsClosed (visiblePoints window segment) := by
  have line : IsClosed (pointAt segment.1 segment.2 '' Set.Icc 0 1) := by
    refine (isCompact_Icc.image ?_).isClosed
    unfold pointAt
    fun_prop
  have frame : IsClosed {x | tinyTilesWaterwayPointInWindow x window} := by
    unfold tinyTilesWaterwayPointInWindow
    exact (isClosed_le continuous_const continuous_fst).inter
      ((isClosed_le continuous_fst continuous_const).inter
        ((isClosed_le continuous_const continuous_snd).inter
          (isClosed_le continuous_snd continuous_const)))
  have both : visiblePoints window segment =
      pointAt segment.1 segment.2 '' Set.Icc 0 1 ∩ {x | tinyTilesWaterwayPointInWindow x window} := by
    ext x
    constructor
    · rintro ⟨⟨u, bounds, rfl⟩, inside⟩
      exact ⟨⟨u, bounds, rfl⟩, inside⟩
    · rintro ⟨⟨u, bounds, rfl⟩, inside⟩
      exact ⟨⟨u, bounds, rfl⟩, inside⟩
  rw [both]
  exact line.inter frame

/-- A point where the line only touches the window: no segment through it shows another point,
and no other visible point is near it. -/
def TouchesAt (window : CoordWindow ℝ) (points : List (ℝ × ℝ)) (x : ℝ × ℝ) : Prop :=
  (∀ segment ∈ edges points, x ∈ visiblePoints window segment →
    visiblePoints window segment = {x}) ∧
  ∃ radius > 0, ∀ y, OnPath points y → tinyTilesWaterwayPointInWindow y window →
    dist y x < radius → y = x

/-- **Clipping keeps exactly the visible line.** Every point of a fragment is a point of the line
in the window, the fragments are sub-paths of the line in their order, and a point of the line
in the window is on a fragment unless the line only touches the window there. -/
theorem clipTinyTilesWaterway_exact (points : List (ℝ × ℝ)) (window : CoordWindow ℝ) :
    (∀ fragment ∈ clipTinyTilesWaterway points window, 2 ≤ fragment.length ∧
      ∀ x, OnPath fragment x → OnPath points x ∧ tinyTilesWaterwayPointInWindow x window) ∧
    SubPaths (edges points) (clipTinyTilesWaterway points window) ∧
    ∀ x, OnPath points x → tinyTilesWaterwayPointInWindow x window →
      (∃ fragment ∈ clipTinyTilesWaterway points window, OnPath fragment x) ∨
        TouchesAt window points x := by
  refine ⟨fun fragment member => ⟨?_, fun x on => onPath_fragment member on⟩, ?_, ?_⟩
  · rw [clipTinyTilesWaterway_eq] at member
    exact two_le_length fragment member
  · rw [clipTinyTilesWaterway_eq]
    exact subPaths_fragments.1 (edges_isChain points)
  · intro x on inside
    by_cases kept : ∃ fragment ∈ clipTinyTilesWaterway points window, OnPath fragment x
    · exact .inl kept
    · right
      have alone : ∀ segment ∈ edges points, x ∈ visiblePoints window segment →
          visiblePoints window segment = {x} := by
        rintro segment member ⟨⟨u, bounds, rfl⟩, seen⟩
        rcases onPath_or_alone member bounds seen with found | only
        · exact absurd found kept
        · refine Set.eq_singleton_iff_unique_mem.mpr ⟨⟨⟨u, bounds, rfl⟩, seen⟩, ?_⟩
          rintro y ⟨⟨v, place, rfl⟩, seen'⟩
          exact only v place seen'
      refine ⟨alone, ?_⟩
      -- The segments that show other points have a closed visible part without this point.
      let others : Set (ℝ × ℝ) := ⋃ segment ∈ {segment | segment ∈ edges points ∧
        x ∉ visiblePoints window segment}, visiblePoints window segment
      have finite : {segment | segment ∈ edges points ∧
          x ∉ visiblePoints window segment}.Finite :=
        (List.finite_toSet (edges points)).subset fun segment h => h.1
      have closed : IsClosed others :=
        finite.isClosed_biUnion fun segment _ => isClosed_visiblePoints window segment
      have outside : x ∉ others := by
        intro member
        obtain ⟨segment, ⟨-, hidden⟩, seen⟩ := Set.mem_iUnion₂.mp member
        exact hidden seen
      obtain ⟨radius, positive, free⟩ := Metric.isOpen_iff.mp closed.isOpen_compl x outside
      refine ⟨radius, positive, fun y ⟨segment, member, u, bounds, place⟩ seen near => ?_⟩
      have visible : y ∈ visiblePoints window segment := ⟨⟨u, bounds, place⟩, seen⟩
      by_cases shared : x ∈ visiblePoints window segment
      · rw [alone segment member shared] at visible
        exact visible
      · exact absurd (Set.mem_iUnion₂.mpr ⟨segment, ⟨member, shared⟩, visible⟩) (free near)

end Reals

end OsmMini.Cmd.Waterways

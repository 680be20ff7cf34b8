import OsmMini.Core.Snap.Nearest
import OsmMini.Core.Territory.Store
import OsmMini.Foundations.ClosedWalk
import OsmMini.Foundations.SortSlice

/-!
# Neighbouring areas

The neighbours of the areas of a layer are found once, when the layer is loaded. Two areas are
adjacent when a vertex of one lies within fifty metres of an edge of the other. Only pairs
whose bounding boxes overlap after each is widened by fifty metres are measured.

Both tests treat the areas of a pair alike. So the lists are symmetric, an ID is listed at most
once under another, and two areas are listed under each other exactly when they pass both
tests (`mem_neighbors_iff`).
-/

set_option autoImplicit false

namespace OsmMini.Core

open Foundations Snap

/-! ## Boxes -/

noncomputable def CoordWindow.center (w : CoordWindow ℝ) : Coord ℝ :=
  ⟨(w.minLat + w.maxLat) / 2, (w.minLon + w.maxLon) / 2⟩

/-- A distance in degrees of latitude. -/
noncomputable def latDegrees (m : ℝ) : ℝ := m / 111320

/-- A distance in degrees of longitude, at the centre of a box. -/
noncomputable def CoordWindow.lonDegrees (w : CoordWindow ℝ) (m : ℝ) : ℝ :=
  let lonDen := 111320 * Real.cos (deg2rad w.center.lat)
  if 1 / 1000000000 < lonDen then m / lonDen else latDegrees m

/-- A box enlarged in all directions by approximately a distance. -/
noncomputable def CoordWindow.expandMeters (w : CoordWindow ℝ) (m : ℝ) : CoordWindow ℝ :=
  if m ≤ 0 then w
  else {
    minLat := max (w.minLat - latDegrees m) (-90)
    maxLat := min (w.maxLat + latDegrees m) 90
    minLon := max (w.minLon - w.lonDegrees m) (-180)
    maxLon := min (w.maxLon + w.lonDegrees m) 180 }

noncomputable def bboxesOverlap (a b : CoordWindow ℝ) : Bool :=
  a.minLat ≤ b.maxLat && b.minLat ≤ a.maxLat && a.minLon ≤ b.maxLon && b.minLon ≤ a.maxLon

/-! ## Distances -/

/-- The distance of a point from a segment, in the plane that touches the sphere at the
latitude of the point. -/
noncomputable def distToSegmentMeters (a b c : Coord ℝ) : ℝ :=
  let cosLat := Real.cos (deg2rad c.lat)
  let x := fun p : Coord ℝ => p.lon * 111320 * cosLat
  let y := fun p : Coord ℝ => p.lat * 111320
  let dx := x b - x a
  let dy := y b - y a
  let lenSq := dx * dx + dy * dy
  let t :=
    if 1 / 1000000000 < lenSq then
      let t := ((x c - x a) * dx + (y c - y a) * dy) / lenSq
      if t < 0 then 0 else if 1 < t then 1 else t
    else 0
  √((x c - (x a + t * dx)) ^ 2 + (y c - (y a + t * dy)) ^ 2)

/-- The least of a list of distances; no distance is infinity. -/
noncomputable def least (distances : List (WithTop ℝ)) : WithTop ℝ :=
  distances.foldl (fun best d => if d < best then d else best) ⊤

noncomputable def ringMinDistMeters (ring : Ring ℝ) (c : Coord ℝ) : WithTop ℝ :=
  least ((ringEdges ring).map fun edge => ↑(distToSegmentMeters edge.1 edge.2 c))

/-- The vertices of each ring against the edges of the other. -/
noncomputable def ringToRingMinDistMeters (a b : Ring ℝ) : WithTop ℝ :=
  least (a.map (ringMinDistMeters b) ++ b.map (ringMinDistMeters a))

/-- The widening of the boxes, and the largest distance of adjacent areas. -/
def neighborBufferMeters : ℝ := 50

variable {Properties : Type}

noncomputable def territoriesAdjacent (a b : Territory ℝ Properties) : Bool :=
  least (a.geometry.polygons.flatMap fun pa =>
      b.geometry.polygons.map fun pb => ringToRingMinDistMeters pa.outer pb.outer) ≤
    ↑neighborBufferMeters

/-! ## The neighbours of a layer -/

/-- Whether the widened boxes of two areas overlap; an area without points has no box. -/
noncomputable def bufferedOverlap (a b : Territory ℝ Properties) : Bool :=
  match a.geometry.bbox, b.geometry.bbox with
  | some wa, some wb =>
    bboxesOverlap (wa.expandMeters neighborBufferMeters) (wb.expandMeters neighborBufferMeters)
  | _, _ => false

/-- Whether a pair passes both tests. -/
noncomputable def foundAdjacent (pair : Territory ℝ Properties × Territory ℝ Properties) : Bool :=
  bufferedOverlap pair.1 pair.2 && territoriesAdjacent pair.1 pair.2

/-- The IDs of two areas, each filed under the other if they are found adjacent. -/
noncomputable def addPair (out : GoMap String (List String))
    (pair : Territory ℝ Properties × Territory ℝ Properties) : GoMap String (List String) :=
  if foundAdjacent pair then push (push out pair.1.id pair.2.id) pair.2.id pair.1.id else out

def sortStrings (ids : List String) : List String := sortSlice (fun a b => decide (a < b)) ids

noncomputable def computeNeighbors (territories : List (Territory ℝ Properties)) :
    GoMap String (List String) :=
  if territories.length < 2 then ∅
  else updateBuckets sortStrings ((laterPairs territories).foldl addPair ∅)

/-- The neighbours of an ID. -/
noncomputable def neighbors (territories : List (Territory ℝ Properties)) (id : String) :
    List String :=
  bucket (computeNeighbors territories) id

/-! ## What is listed -/

/-- The IDs of the pairs found adjacent, in both orders. -/
noncomputable def foundIDs (pairs : List (Territory ℝ Properties × Territory ℝ Properties)) :
    List (String × String) :=
  bothWays ((pairs.filter foundAdjacent).map (Prod.map Territory.id Territory.id))

theorem foldl_addPair (pairs : List (Territory ℝ Properties × Territory ℝ Properties))
    (out : GoMap String (List String)) :
    pairs.foldl addPair out =
      (foundIDs pairs).foldl (fun m entry => push m entry.1 entry.2) out := by
  induction pairs generalizing out with
  | nil => rfl
  | cons pair pairs ih =>
      rw [List.foldl_cons, ih, addPair, foundIDs, foundIDs]
      by_cases found : foundAdjacent pair = true
      · rw [List.filter_cons_of_pos found, if_pos found]
        rfl
      · rw [List.filter_cons_of_neg found, if_neg found]

/-- The neighbours of an ID are the partners of its pairs, sorted. -/
theorem neighbors_perm (territories : List (Territory ℝ Properties)) (id : String) :
    (neighbors territories id).Perm
      (((foundIDs (laterPairs territories)).filter fun entry => entry.1 = id).map Prod.snd) := by
  have empty : sortStrings [] = [] := rfl
  rw [neighbors, computeNeighbors]
  by_cases few : territories.length < 2
  · have none : foundIDs (laterPairs territories) = [] := by
      match territories, few with
      | [], _ => rfl
      | [_], _ => rfl
    rw [if_pos few, bucket_empty, none]
    exact List.Perm.refl _
  · rw [if_neg few, bucket_updateBuckets empty, foldl_addPair, bucket_foldl_push, bucket_empty,
      List.nil_append]
    exact sortSlice_perm _ _

theorem mem_neighbors (territories : List (Territory ℝ Properties)) (x y : String) :
    y ∈ neighbors territories x ↔ (x, y) ∈ foundIDs (laterPairs territories) := by
  rw [(neighbors_perm territories x).mem_iff, List.mem_map]
  constructor
  · rintro ⟨entry, member, rfl⟩
    obtain ⟨member, same⟩ := List.mem_filter.mp member
    have first : entry.1 = x := by simpa using same
    rw [← first]
    exact member
  · intro member
    exact ⟨(x, y), List.mem_filter.mpr ⟨member, by simp⟩, rfl⟩

/-- **The lists are symmetric.** -/
theorem neighbors_symm (territories : List (Territory ℝ Properties)) (x y : String) :
    y ∈ neighbors territories x ↔ x ∈ neighbors territories y := by
  rw [mem_neighbors, mem_neighbors, foundIDs, mem_bothWays, mem_bothWays]
  exact or_comm

/-- **The lists have no repeats** when no two areas have the same ID. -/
theorem nodup_neighbors {territories : List (Territory ℝ Properties)}
    (distinct : (territories.map Territory.id).Nodup) (x : String) :
    (neighbors territories x).Nodup := by
  have all : (bothWays (laterPairs (territories.map Territory.id))).Nodup := nodup_bothWays distinct
  have found : (foundIDs (laterPairs territories)).Nodup := by
    refine List.Nodup.sublist ?_ all
    rw [laterPairs_map]
    exact (List.filter_sublist.map _).flatMap _
  refine (neighbors_perm territories x).nodup_iff.mpr ?_
  refine List.Nodup.map_on ?_ (found.filter _)
  intro entry member entry' member' same
  have first : entry.1 = x := by simpa using (List.mem_filter.mp member).2
  have first' : entry'.1 = x := by simpa using (List.mem_filter.mp member').2
  exact Prod.ext (first.trans first'.symm) same

/-! ## Adjacent areas -/

/-- A least distance is within a bound exactly when some distance is. -/
theorem least_le_iff (distances : List (WithTop ℝ)) (bound : ℝ) :
    least distances ≤ ↑bound ↔ ∃ d ∈ distances, d ≤ ↑bound := by
  have fold : ∀ best : WithTop ℝ,
      distances.foldl (fun best d => if d < best then d else best) best ≤ ↑bound ↔
        best ≤ ↑bound ∨ ∃ d ∈ distances, d ≤ ↑bound := by
    induction distances with
    | nil =>
        intro best
        simp
    | cons d distances ih =>
        intro best
        have either : (if d < best then d else best) ≤ (bound : WithTop ℝ) ↔
            best ≤ ↑bound ∨ d ≤ ↑bound := by
          by_cases less : d < best
          · rw [if_pos less]
            exact ⟨Or.inr, fun near => near.elim less.le.trans id⟩
          · rw [if_neg less]
            exact ⟨Or.inl, fun near => near.elim id (not_lt.mp less).trans⟩
        rw [List.foldl_cons, ih, either, List.exists_mem_cons_iff, or_assoc]
  rw [least, fold ⊤]
  exact ⟨fun near => near.resolve_left (by simp), Or.inr⟩

/-- A vertex of a ring within the buffer of an edge of another. -/
def VertexNear (ring other : Ring ℝ) : Prop :=
  ∃ c ∈ ring, ∃ edge ∈ ringEdges other,
    distToSegmentMeters edge.1 edge.2 c ≤ neighborBufferMeters

theorem ringMinDistMeters_le_iff (ring : Ring ℝ) (c : Coord ℝ) :
    ringMinDistMeters ring c ≤ ↑neighborBufferMeters ↔
      ∃ edge ∈ ringEdges ring, distToSegmentMeters edge.1 edge.2 c ≤ neighborBufferMeters := by
  rw [ringMinDistMeters, least_le_iff]
  simp only [List.mem_map, exists_exists_and_eq_and, WithTop.coe_le_coe]

theorem ringToRingMinDistMeters_le_iff (a b : Ring ℝ) :
    ringToRingMinDistMeters a b ≤ ↑neighborBufferMeters ↔ VertexNear a b ∨ VertexNear b a := by
  rw [ringToRingMinDistMeters, least_le_iff]
  simp only [List.mem_append, or_and_right, exists_or, List.mem_map, exists_exists_and_eq_and,
    ringMinDistMeters_le_iff]
  rfl

/-- **Adjacent areas** have outer rings one of which has a vertex near the other. -/
theorem territoriesAdjacent_iff (a b : Territory ℝ Properties) :
    territoriesAdjacent a b = true ↔
      ∃ pa ∈ a.geometry.polygons, ∃ pb ∈ b.geometry.polygons,
        VertexNear pa.outer pb.outer ∨ VertexNear pb.outer pa.outer := by
  rw [territoriesAdjacent, decide_eq_true_eq, least_le_iff]
  simp only [List.mem_flatMap, List.mem_map]
  constructor
  · rintro ⟨d, ⟨pa, member, pb, member', rfl⟩, near⟩
    exact ⟨pa, member, pb, member', (ringToRingMinDistMeters_le_iff ..).mp near⟩
  · rintro ⟨pa, member, pb, member', near⟩
    exact ⟨_, ⟨pa, member, pb, member', rfl⟩, (ringToRingMinDistMeters_le_iff ..).mpr near⟩

theorem territoriesAdjacent_comm (a b : Territory ℝ Properties) :
    territoriesAdjacent a b = territoriesAdjacent b a := by
  rw [Bool.eq_iff_iff, territoriesAdjacent_iff, territoriesAdjacent_iff]
  constructor
  · rintro ⟨pa, member, pb, member', near⟩
    exact ⟨pb, member', pa, member, near.symm⟩
  · rintro ⟨pa, member, pb, member', near⟩
    exact ⟨pb, member', pa, member, near.symm⟩

theorem bboxesOverlap_comm (a b : CoordWindow ℝ) : bboxesOverlap a b = bboxesOverlap b a := by
  unfold bboxesOverlap
  rw [Bool.eq_iff_iff]
  simp only [Bool.and_eq_true, decide_eq_true_eq]
  tauto

theorem bufferedOverlap_comm (a b : Territory ℝ Properties) :
    bufferedOverlap a b = bufferedOverlap b a := by
  unfold bufferedOverlap
  cases a.geometry.bbox with
  | none => cases b.geometry.bbox <;> rfl
  | some wa =>
      cases b.geometry.bbox with
      | none => rfl
      | some wb => exact bboxesOverlap_comm _ _

theorem foundAdjacent_swap (a b : Territory ℝ Properties) :
    foundAdjacent (a, b) = foundAdjacent (b, a) := by
  simp only [foundAdjacent]
  rw [bufferedOverlap_comm, territoriesAdjacent_comm]

/-- **Two areas are listed under each other exactly when they pass both tests.** -/
theorem mem_neighbors_iff {territories : List (Territory ℝ Properties)}
    (distinct : (territories.map Territory.id).Nodup) {a b : Territory ℝ Properties}
    (first : a ∈ territories) (second : b ∈ territories) (different : a.id ≠ b.id) :
    b.id ∈ neighbors territories a.id ↔
      bufferedOverlap a b = true ∧ territoriesAdjacent a b = true := by
  have unique : ∀ {t t' : Territory ℝ Properties}, t ∈ territories → t' ∈ territories →
      t.id = t'.id → t = t' := fun member member' same =>
    List.inj_on_of_nodup_map distinct member member' same
  have both : (bufferedOverlap a b = true ∧ territoriesAdjacent a b = true) ↔
      foundAdjacent (a, b) = true := by
    rw [foundAdjacent, Bool.and_eq_true]
  have listed : ∀ {x y : Territory ℝ Properties}, x ∈ territories → y ∈ territories →
      (x.id, y.id) ∈ ((laterPairs territories).filter foundAdjacent).map
        (Prod.map Territory.id Territory.id) →
      foundAdjacent (x, y) = true := by
    intro x y here there member
    obtain ⟨⟨p, q⟩, found, ids⟩ := List.mem_map.mp member
    obtain ⟨member, found⟩ := List.mem_filter.mp found
    obtain ⟨inside, inside'⟩ := (mem_laterPairs.mp member).mem
    obtain ⟨same, same'⟩ := Prod.mk.inj ids
    obtain rfl := unique inside here same
    obtain rfl := unique inside' there same'
    exact found
  rw [mem_neighbors, foundIDs, mem_bothWays, both]
  constructor
  · rintro (member | member)
    · exact listed first second member
    · rw [foundAdjacent_swap]
      exact listed second first member
  · intro found
    have apart : a ≠ b := fun same => different (congrArg Territory.id same)
    rcases Before.total first second apart with before | before
    · exact Or.inl (List.mem_map.mpr
        ⟨(a, b), List.mem_filter.mpr ⟨mem_laterPairs.mpr before, found⟩, rfl⟩)
    · rw [foundAdjacent_swap] at found
      exact Or.inr (List.mem_map.mpr
        ⟨(b, a), List.mem_filter.mpr ⟨mem_laterPairs.mpr before, found⟩, rfl⟩)

end OsmMini.Core

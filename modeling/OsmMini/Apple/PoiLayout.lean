import Mathlib.Data.Int.Range
import Mathlib.Data.Prod.Lex
import OsmMini.Apple.TileIndex
import OsmMini.Core.Types
import OsmMini.Foundations.Buckets
import OsmMini.Foundations.Cheapest
import OsmMini.Foundations.NearestPoint
import OsmMini.Foundations.Rectangles
import OsmMini.Foundations.SortSlice

/-!
# Groups of places

The places of the loaded tiles that are in the viewport are sorted by their source, or by their name
if they have none, and by their position. Repeats of one source at one position that stand next to
each other are dropped. Each place joins the nearest marker that is less than 34 points away, and
becomes a marker itself if there is none. The markers are filed in cells of 34 points, so that
only nine cells are looked at.

A marker that is near enough is in one of the nine cells. So a place joins the marker that a scan of
all markers would choose, where equally near markers are taken cell by cell (`place_joins`), and
this is all that happens to the places that are kept (`group_builds`).
-/

set_option autoImplicit false

namespace OsmMini.Apple

open Foundations

/-- A feature of the map. Its kind, category and details are only handed on. -/
structure MapFeature (Text Details : Type) where
  name : Text
  sourceIdentity : Option Text
  details : Details
  deriving DecidableEq

/-- A point of a tile that can be selected. -/
structure SelectablePoint (K Text Details : Type) where
  feature : MapFeature Text Details
  point : K × K
  isPOI : Bool

/-- A loaded tile, with its place on the screen. -/
structure OfflineMapLabelTile (K Text Details : Type) where
  selectablePoints : List (SelectablePoint K Text Details)
  offset : CGPoint K
  scale : Option K

/-- Where a point of a tile is on the screen, if it is finite there. -/
def OfflineMapLabelTile.onScreen {K Text Details : Type} [Field K]
    (tile : OfflineMapLabelTile K Text Details) (point : K × K) : Option (K × K) :=
  match tile.scale, tile.offset.x, tile.offset.y with
  | some scale, some x, some y => some (point.1 * scale + x, point.2 * scale + y)
  | _, _, _ => none

namespace OfflineMapPOILayout

structure Member (K Text Details : Type) where
  feature : MapFeature Text Details
  point : K × K
  deriving DecidableEq

structure Marker (K Text Details : Type) where
  feature : MapFeature Text Details
  point : K × K
  members : List (Member K Text Details)
  deriving DecidableEq

/-- What is kept from one place to the next. -/
structure LayoutState (K Text Details : Type) where
  /-- The numbers of the markers in each cell. -/
  cells : Core.GoMap (ℤ × ℤ) (List ℕ)
  result : List (Marker K Text Details)
  previous : Option (Member K Text Details)

section Members

variable {K Text Details : Type}

/-- What the places are sorted by first. -/
def Member.label (m : Member K Text Details) : Text :=
  m.feature.sourceIdentity.getD m.feature.name

/-- Add a place to a marker, or as a marker of its own. -/
def join (result : List (Marker K Text Details)) (candidate : Member K Text Details) :
    Option ℕ → List (Marker K Text Details)
  | some closest =>
    result.modify closest fun marker => { marker with members := marker.members ++ [candidate] }
  | none => result ++ [⟨candidate.feature, candidate.point, [candidate]⟩]

variable [LinearOrder K] [LinearOrder Text]

/-- Independent of the order in which the tiles were loaded. -/
def sortedBefore (a b : Member K Text Details) : Bool :=
  if a.label ≠ b.label then a.label < b.label
  else if a.point.1 ≠ b.point.1 then a.point.1 < b.point.1
  else a.point.2 < b.point.2

/-- A repeat of the place before it. -/
def isRepeat (previous : Option (Member K Text Details)) (candidate : Member K Text Details) :
    Bool :=
  match previous, candidate.feature.sourceIdentity with
  | some previous, some identity =>
    some identity = previous.feature.sourceIdentity && candidate.point = previous.point
  | _, _ => false

end Members

section Layout

variable {K Text Details U : Type} [Field K] [LinearOrder K]

/-- The places of some tiles that are in a viewport and in their tiles. -/
def candidates (graphics : CoreGraphics K U) (tiles : List (OfflineMapLabelTile K Text Details))
    (viewport : CGRect K U) : List (Member K Text Details) :=
  tiles.flatMap fun tile =>
    (tile.selectablePoints.filter SelectablePoint.isPOI).filterMap fun candidate =>
      match tile.onScreen candidate.point with
      | none => none
      | some point =>
        if graphics.contains viewport point &&
            graphics.contains (.finite PreparedMapTileIndex.tileBounds) candidate.point then
          some ⟨candidate.feature, point⟩
        else none

/-- Generous spacing around the compact group badges. -/
def spacing : K := 34

/-- The square of the distance of a marker. The cells hold no other numbers than those of
markers. -/
def markerDistance (result : List (Marker K Text Details)) (point : K × K) (index : ℕ) : K :=
  squaredDistance ((result.map Marker.point).getD index point) point

variable [FloorRing K]

/-- Rounding towards zero. -/
def truncated (v : K) : ℤ := if 0 ≤ v then ⌊v⌋ else ⌈v⌉

def cellOf (point : K × K) : ℤ × ℤ :=
  (truncated (point.1 / spacing), truncated (point.2 / spacing))

/-- A cell and the cells around it, row by row. -/
def neighborhood (cell : ℤ × ℤ) : List (ℤ × ℤ) :=
  (Int.range (cell.2 - 1) (cell.2 + 2)).flatMap fun y =>
    (Int.range (cell.1 - 1) (cell.1 + 2)).map fun x => (x, y)

/-- The nearest marker of nine cells. -/
def closestMarker (s : LayoutState K Text Details) (point : K × K) : Option ℕ :=
  (((neighborhood (cellOf point)).flatMap (bucket s.cells)).foldl
    (lower (markerDistance s.result point)) (none, spacing * spacing)).1

def place (s : LayoutState K Text Details) (candidate : Member K Text Details) :
    LayoutState K Text Details :=
  let closest := closestMarker s candidate.point
  { cells := match closest with
      | some _ => s.cells
      | none => push s.cells (cellOf candidate.point) s.result.length
    result := join s.result candidate closest
    previous := some candidate }

variable [LinearOrder Text]

def step (s : LayoutState K Text Details) (candidate : Member K Text Details) :
    LayoutState K Text Details :=
  if isRepeat s.previous candidate then s else place s candidate

/-- The markers of some places. -/
def group (candidates : List (Member K Text Details)) : List (Marker K Text Details) :=
  ((sortSlice sortedBefore candidates).foldl step ⟨∅, [], none⟩).result

def markers (graphics : CoreGraphics K U) (tiles : List (OfflineMapLabelTile K Text Details))
    (zoom : ℤ) (size : CGSize K) : List (Marker K Text Details) :=
  match size.width, size.height with
  | some width, some height =>
    if 14 ≤ zoom ∧ 0 < width ∧ 0 < height then
      group (candidates graphics tiles (.finite ⟨0, 0, width, height⟩))
    else []
  | _, _ => []

end Layout

/-! ## What is kept -/

section Kept

variable {K Text Details : Type}

/-- Places of one source at one position. -/
def Repeats (a b : Member K Text Details) : Prop :=
  a.feature.sourceIdentity.isSome ∧ a.feature.sourceIdentity = b.feature.sourceIdentity ∧
    a.point = b.point

/-- The order of the places. -/
def Member.rank (m : Member K Text Details) : Text ×ₗ K ×ₗ K := toLex (m.label, toLex m.point)

theorem rank_eq_iff {a b : Member K Text Details} :
    a.rank = b.rank ↔ a.label = b.label ∧ a.point = b.point := by
  constructor
  · intro same
    exact Prod.mk.inj same
  · rintro ⟨labels, points⟩
    rw [Member.rank, Member.rank, labels, points]

theorem Repeats.rank_eq {a b : Member K Text Details} (repeats : Repeats a b) :
    a.rank = b.rank := by
  obtain ⟨known, same, points⟩ := repeats
  obtain ⟨identity, isIdentity⟩ := Option.isSome_iff_exists.mp known
  refine rank_eq_iff.mpr ⟨?_, points⟩
  rw [Member.label, Member.label, ← same, isIdentity, Option.getD_some, Option.getD_some]

variable [LinearOrder K] [LinearOrder Text]

theorem sortedBefore_iff (a b : Member K Text Details) :
    sortedBefore a b = true ↔ a.rank < b.rank := by
  rw [sortedBefore, Member.rank, Member.rank, Prod.Lex.toLex_lt_toLex, Prod.Lex.toLex_lt_toLex]
  split_ifs with labels columns
  · simp [labels]
  · simp [not_not.mp labels, columns]
  · simp [not_not.mp labels, not_not.mp columns]

theorem isRepeat_some_iff {previous candidate : Member K Text Details} :
    isRepeat (some previous) candidate = true ↔ Repeats candidate previous := by
  unfold isRepeat Repeats
  cases candidate.feature.sourceIdentity with
  | none => simp
  | some known => simp

theorem isRepeat_none (candidate : Member K Text Details) : isRepeat none candidate = false := rfl

/-- The places that are no repeats of the places before them. -/
def keptOf : Option (Member K Text Details) → List (Member K Text Details) →
    List (Member K Text Details)
  | _, [] => []
  | previous, candidate :: rest =>
    if isRepeat previous candidate then keptOf previous rest
    else candidate :: keptOf (some candidate) rest

variable {previous : Option (Member K Text Details)} {l : List (Member K Text Details)}

theorem keptOf_sublist : ∀ (previous : Option (Member K Text Details))
    (l : List (Member K Text Details)), (keptOf previous l).Sublist l := by
  intro previous l
  induction l generalizing previous with
  | nil => exact List.Sublist.slnil
  | cons candidate rest ih =>
      rw [keptOf]
      split_ifs
      · exact (ih previous).cons candidate
      · exact (ih (some candidate)).cons_cons candidate

/-- A place without a source is always kept. -/
theorem filter_keptOf : ∀ (previous : Option (Member K Text Details))
    (l : List (Member K Text Details)),
    (keptOf previous l).filter (fun m => m.feature.sourceIdentity = none) =
      l.filter fun m => m.feature.sourceIdentity = none := by
  intro previous l
  induction l generalizing previous with
  | nil => rfl
  | cons candidate rest ih =>
      rw [keptOf]
      split_ifs with dropped
      · cases previous with
        | none => cases dropped
        | some previous =>
            obtain ⟨known, -⟩ := isRepeat_some_iff.mp dropped
            rw [ih, List.filter_cons_of_neg]
            simpa using Option.isSome_iff_ne_none.mp known
      · rw [List.filter_cons, List.filter_cons, ih]

/-- **What is dropped repeats something that is kept.** -/
theorem exists_keptOf : ∀ (previous : Option (Member K Text Details))
    {l : List (Member K Text Details)} {m : Member K Text Details}, m ∈ l →
    m ∈ keptOf previous l ∨ ∃ kept, (kept ∈ keptOf previous l ∨ previous = some kept) ∧
      Repeats m kept := by
  intro previous l m member
  induction l generalizing previous with
  | nil => cases member
  | cons candidate rest ih =>
      rw [keptOf]
      split_ifs with dropped
      · rcases List.mem_cons.mp member with rfl | later
        · cases previous with
          | none => cases dropped
          | some previous =>
              exact Or.inr ⟨previous, Or.inr rfl, isRepeat_some_iff.mp dropped⟩
        · exact ih previous later
      · rcases List.mem_cons.mp member with rfl | later
        · exact Or.inl List.mem_cons_self
        · rcases ih (some candidate) later with kept | ⟨kept, known, repeats⟩
          · exact Or.inl (List.mem_cons_of_mem _ kept)
          · refine Or.inr ⟨kept, Or.inl ?_, repeats⟩
            rcases known with known | known
            · exact List.mem_cons_of_mem _ known
            · rw [← Option.some.inj known]
              exact List.mem_cons_self

end Kept

/-! ## Joining -/

section Joining

variable {K Text Details : Type} [Field K] [LinearOrder K] [FloorRing K]

/-- The order in which a scan of all markers prefers them: by distance, then cell by cell, row by
row, and in a cell the older one first. -/
def scanRank (point p : K × K) (i : ℕ) : K ×ₗ ℤ ×ₗ ℤ ×ₗ ℕ :=
  toLex (squaredDistance p point, toLex ((cellOf p).2, toLex ((cellOf p).1, i)))

/-- What a scan of all markers finds for a place: the first of those that are near enough. -/
def Closest (points : List (K × K)) (point : K × K) : Option ℕ → Prop
  | none => ∀ p ∈ points, spacing * spacing ≤ squaredDistance p point
  | some i => ∃ p, points[i]? = some p ∧ squaredDistance p point < spacing * spacing ∧
      ∀ j q, points[j]? = some q → scanRank point p i ≤ scanRank point q j

/-- **A scan finds one thing.** -/
theorem Closest.unique {points : List (K × K)} {point : K × K} {o o' : Option ℕ}
    (found : Closest points point o) (found' : Closest points point o') : o = o' := by
  have apart : ∀ {i : ℕ}, Closest points point none → ¬Closest points point (some i) := by
    rintro i far ⟨p, inside, near, -⟩
    exact (far p (List.mem_of_getElem? inside)).not_gt near
  cases o with
  | none =>
      cases o' with
      | none => rfl
      | some i => exact absurd found' (apart found)
  | some i =>
      cases o' with
      | none => exact absurd found (apart found')
      | some j =>
          obtain ⟨p, isP, -, least⟩ := found
          obtain ⟨q, isQ, -, least'⟩ := found'
          have same := le_antisymm (least j q isQ) (least' i p isP)
          exact congrArg (fun rank : K ×ₗ ℤ ×ₗ ℤ ×ₗ ℕ =>
            some (ofLex (ofLex (ofLex rank).2).2).2) same

/-- The markers so far, as one place joins them. -/
def Joins (result : List (Marker K Text Details)) (candidate : Member K Text Details)
    (result' : List (Marker K Text Details)) : Prop :=
  ∃ o, Closest (result.map Marker.point) candidate.point o ∧ result' = join result candidate o

/-- The markers of a list of places, which join one after the other. -/
inductive Built : List (Member K Text Details) → List (Marker K Text Details) → Prop where
  | nil : Built [] []
  | snoc {l : List (Member K Text Details)} {result result' : List (Marker K Text Details)}
      {candidate : Member K Text Details} (built : Built l result)
      (joins : Joins result candidate result') : Built (l ++ [candidate]) result'

/-- The cells hold the numbers of their markers. -/
def Indexed (s : LayoutState K Text Details) : Prop :=
  ∀ cell, bucket s.cells cell = (List.range s.result.length).filter fun i =>
    ((s.result.map Marker.point)[i]?).any fun p => cellOf p = cell

theorem mem_neighborhood {cell c : ℤ × ℤ} :
    c ∈ neighborhood cell ↔ (cell.1 - 1 ≤ c.1 ∧ c.1 ≤ cell.1 + 1) ∧
      cell.2 - 1 ≤ c.2 ∧ c.2 ≤ cell.2 + 1 := by
  obtain ⟨x, y⟩ := c
  simp only [neighborhood, List.mem_flatMap, List.mem_map, Int.mem_range_iff, Prod.mk.injEq]
  constructor
  · rintro ⟨y', rows, x', columns, rfl, rfl⟩
    omega
  · intro near
    exact ⟨y, by omega, x, by omega, rfl, rfl⟩

theorem pairwise_intRange (m n : ℤ) : (Int.range m n).Pairwise (· < ·) := by
  rw [Int.range, List.pairwise_map]
  exact List.pairwise_lt_range.imp fun {a b} less => by omega

/-- The cells around a cell come row by row. -/
theorem pairwise_neighborhood (cell : ℤ × ℤ) :
    (neighborhood cell).Pairwise fun a b => a.2 < b.2 ∨ a.2 = b.2 ∧ a.1 < b.1 := by
  rw [neighborhood, List.pairwise_flatMap]
  constructor
  · intro y _
    rw [List.pairwise_map]
    exact (pairwise_intRange _ _).imp fun less => Or.inr ⟨rfl, less⟩
  · refine (pairwise_intRange _ _).imp fun {y y'} less c inRow c' inRow' => Or.inl ?_
    obtain ⟨x, -, rfl⟩ := List.mem_map.mp inRow
    obtain ⟨x', -, rfl⟩ := List.mem_map.mp inRow'
    exact less

variable {s : LayoutState K Text Details} {point : K × K}

/-- The numbers of nearby markers come in the order of a scan. -/
theorem pairwise_indices (indexed : Indexed s) (cell : ℤ × ℤ) :
    ((neighborhood cell).flatMap (bucket s.cells)).Pairwise fun i j => ∀ p q,
      (s.result.map Marker.point)[i]? = some p → (s.result.map Marker.point)[j]? = some q →
      toLex ((cellOf p).2, toLex ((cellOf p).1, i)) <
        toLex ((cellOf q).2, toLex ((cellOf q).1, j)) := by
  have inCell : ∀ {c : ℤ × ℤ} {i : ℕ} {p : K × K}, i ∈ bucket s.cells c →
      (s.result.map Marker.point)[i]? = some p → cellOf p = c := by
    intro c i p member isP
    rw [indexed c] at member
    have known := (List.mem_filter.mp member).2
    rw [isP, Option.any_some] at known
    exact of_decide_eq_true known
  rw [List.pairwise_flatMap]
  constructor
  · intro c _
    have older : (bucket s.cells c).Pairwise (· < ·) := by
      rw [indexed c]
      exact List.pairwise_lt_range.filter _
    refine older.imp_of_mem ?_
    intro i j inside inside' less p q isP isQ
    rw [inCell inside isP, inCell inside' isQ, Prod.Lex.toLex_lt_toLex, Prod.Lex.toLex_lt_toLex]
    exact Or.inr ⟨rfl, Or.inr ⟨rfl, less⟩⟩
  · refine (pairwise_neighborhood cell).imp ?_
    intro c c' before i inside j inside' p q isP isQ
    rw [inCell inside isP, inCell inside' isQ, Prod.Lex.toLex_lt_toLex, Prod.Lex.toLex_lt_toLex]
    rcases before with row | ⟨row, column⟩
    · exact Or.inl row
    · exact Or.inr ⟨row, Or.inl column⟩

variable [IsStrictOrderedRing K]

/-- Points that are near each other are in cells next to each other. -/
theorem truncated_near {a b : K} (positive : 0 ≤ a) (positive' : 0 ≤ b)
    (near : (a - b) * (a - b) < spacing * spacing) :
    truncated (b / spacing) - 1 ≤ truncated (a / spacing) ∧
      truncated (a / spacing) ≤ truncated (b / spacing) + 1 := by
  have width : (0 : K) < spacing := by norm_num [spacing]
  obtain ⟨low, high⟩ := abs_lt.mp (abs_lt_of_sq_lt_sq (a := a - b) (b := spacing)
    (by rw [sq, sq]; exact near) width.le)
  have below : a / spacing ≤ b / spacing + 1 := by
    rw [div_add_one width.ne']
    exact div_le_div_of_nonneg_right (by linarith) width.le
  have above : b / spacing ≤ a / spacing + 1 := by
    rw [div_add_one width.ne']
    exact div_le_div_of_nonneg_right (by linarith) width.le
  have floors := Int.floor_mono below
  have floors' := Int.floor_mono above
  rw [Int.floor_add_one] at floors floors'
  rw [truncated, truncated, if_pos (div_nonneg positive' width.le),
    if_pos (div_nonneg positive width.le)]
  omega

/-- A point of the viewport. -/
def Shown (p : K × K) : Prop := 0 ≤ p.1 ∧ 0 ≤ p.2

theorem cellOf_mem_neighborhood {p q : K × K} (shown : Shown p) (shown' : Shown q)
    (near : squaredDistance p q < spacing * spacing) : cellOf p ∈ neighborhood (cellOf q) := by
  rw [squaredDistance] at near
  have columns := mul_self_nonneg (p.1 - q.1)
  have rows := mul_self_nonneg (p.2 - q.2)
  rw [mem_neighborhood]
  exact ⟨truncated_near shown.1 shown'.1 (by linarith),
    truncated_near shown.2 shown'.2 (by linarith)⟩

/-- **Nine cells are enough**: they lead to what a scan of all markers finds. -/
theorem closestMarker_spec (indexed : Indexed s) (shown : Shown point)
    (all : ∀ m ∈ s.result, Shown m.point) :
    Closest (s.result.map Marker.point) point (closestMarker s point) := by
  set points := s.result.map Marker.point with isPoints
  have found := foldl_lower_spec (markerDistance s.result point) (spacing * spacing)
    ((neighborhood (cellOf point)).flatMap (bucket s.cells))
  have order := pairwise_indices indexed (cellOf point)
  rw [← isPoints] at order
  have distance : ∀ {i p}, points[i]? = some p →
      markerDistance s.result point i = squaredDistance p point := by
    intro i p isP
    rw [markerDistance, ← isPoints, List.getD_eq_getElem?_getD, isP, Option.getD_some]
  have inside : ∀ {i p}, points[i]? = some p → squaredDistance p point < spacing * spacing →
      i ∈ (neighborhood (cellOf point)).flatMap (bucket s.cells) := by
    intro i p isP near
    obtain ⟨m, member, rfl⟩ := List.mem_map.mp (List.mem_of_getElem? isP)
    refine List.mem_flatMap.mpr
      ⟨cellOf m.point, cellOf_mem_neighborhood (all m member) shown near, ?_⟩
    rw [indexed, ← isPoints, List.mem_filter, isP, List.mem_range]
    refine ⟨?_, by simp⟩
    rw [← List.length_map (f := Marker.point), ← isPoints]
    exact (List.getElem?_eq_some_iff.mp isP).1
  have known : ∀ {i}, i ∈ (neighborhood (cellOf point)).flatMap (bucket s.cells) →
      ∃ p, points[i]? = some p := by
    intro i member
    obtain ⟨c, -, filed⟩ := List.mem_flatMap.mp member
    rw [indexed c, ← isPoints] at filed
    have marked := (List.mem_filter.mp filed).2
    cases isP : points[i]? with
    | none =>
        rw [isP] at marked
        cases marked
    | some p => exact ⟨p, rfl⟩
  rw [closestMarker]
  cases best : (((neighborhood (cellOf point)).flatMap (bucket s.cells)).foldl
      (lower (markerDistance s.result point)) (none, spacing * spacing)).1 with
  | none =>
      rw [best] at found
      intro p member
      obtain ⟨i, isP⟩ := List.mem_iff_getElem?.mp member
      by_contra near
      have far := found i (inside isP (not_le.mp near))
      rw [distance isP] at far
      exact near far
  | some i =>
      rw [best] at found
      obtain ⟨near, before, after, split, dearer, least⟩ := found
      rw [split] at known inside order
      obtain ⟨p, isP⟩ := known (List.mem_append_right _ List.mem_cons_self)
      rw [distance isP] at near
      refine ⟨p, isP, near, fun j q isQ => ?_⟩
      rw [scanRank, scanRank, Prod.Lex.toLex_le_toLex]
      by_cases nearQ : squaredDistance q point < spacing * spacing
      · rcases List.mem_append.mp (inside isQ nearQ) with early | late
        · have less := dearer j early
          rw [distance isP, distance isQ] at less
          exact Or.inl less
        · rcases List.mem_cons.mp late with rfl | later
          · obtain rfl := Option.some.inj (isP.symm.trans isQ)
            exact Or.inr ⟨rfl, le_refl _⟩
          · have atMost := least j later
            rw [distance isP, distance isQ] at atMost
            have inOrder := (List.pairwise_cons.mp (List.pairwise_append.mp order).2.1).1 j later
            rcases atMost.lt_or_eq with less | same
            · exact Or.inl less
            · exact Or.inr ⟨same, (inOrder p q isP isQ).le⟩
      · exact Or.inl (near.trans_le (not_lt.mp nearQ))

omit [Field K] [LinearOrder K] [FloorRing K] [IsStrictOrderedRing K] in
theorem join_some_points (result : List (Marker K Text Details))
    (candidate : Member K Text Details) (i : ℕ) :
    (join result candidate (some i)).map Marker.point = result.map Marker.point := by
  apply List.ext_getElem?
  intro j
  rw [join, List.getElem?_map, List.getElem?_map, List.getElem?_modify]
  cases result[j]? with
  | none => rfl
  | some m =>
      by_cases same : i = j
      · simp [same]
      · simp [same]

omit [Field K] [LinearOrder K] [FloorRing K] [IsStrictOrderedRing K] in
theorem join_none_points (result : List (Marker K Text Details))
    (candidate : Member K Text Details) :
    (join result candidate none).map Marker.point =
      result.map Marker.point ++ [candidate.point] := by
  rw [join, List.map_append, List.map_singleton]

omit [IsStrictOrderedRing K] in
/-- The cells stay in order. -/
theorem place_indexed (indexed : Indexed s) (candidate : Member K Text Details) :
    Indexed (place s candidate) := by
  intro cell
  rw [place]
  dsimp only
  cases closestMarker s candidate.point with
  | some i =>
      have count : (join s.result candidate (some i)).length = s.result.length :=
        List.length_modify ..
      rw [join_some_points, count]
      exact indexed cell
  | none =>
      have count : (join s.result candidate none).length = s.result.length + 1 :=
        List.length_append
      rw [join_none_points, count, List.range_succ, List.filter_append, bucket_push, indexed cell]
      have old : (List.range s.result.length).filter (fun i =>
          ((s.result.map Marker.point ++ [candidate.point])[i]?).any fun p => cellOf p = cell) =
          (List.range s.result.length).filter fun i =>
            ((s.result.map Marker.point)[i]?).any fun p => cellOf p = cell := by
        apply List.filter_congr
        intro i member
        rw [List.getElem?_append_left]
        rw [List.length_map]
        exact List.mem_range.mp member
      have new : (s.result.map Marker.point ++ [candidate.point])[s.result.length]? =
          some candidate.point := by
        rw [List.getElem?_append_right (by simp)]
        simp
      rw [old]
      by_cases same : cell = cellOf candidate.point
      · rw [if_pos same, List.filter_cons_of_pos (by rw [new]; simp [same]), List.filter_nil]
      · rw [if_neg same, List.filter_cons_of_neg (by rw [new]; simpa using Ne.symm same),
          List.filter_nil, List.append_nil]

/-- The places so far, and what they became. -/
structure Laid (l : List (Member K Text Details)) (s : LayoutState K Text Details) : Prop where
  built : Built l s.result
  indexed : Indexed s
  shown : ∀ p ∈ s.result.map Marker.point, Shown p

/-- **A place joins the marker that a scan of all markers finds.** -/
theorem place_joins {l : List (Member K Text Details)} (laid : Laid l s)
    {candidate : Member K Text Details} (shown : Shown candidate.point) :
    Laid (l ++ [candidate]) (place s candidate) := by
  obtain ⟨built, indexed, all⟩ := laid
  have found := closestMarker_spec indexed shown fun m member => all _ (List.mem_map_of_mem member)
  refine ⟨built.snoc ⟨_, found, rfl⟩, place_indexed indexed candidate, ?_⟩
  rw [place]
  dsimp only
  cases closestMarker s candidate.point with
  | some i =>
      rw [join_some_points]
      exact all
  | none =>
      rw [join_none_points]
      intro p member
      rcases List.mem_append.mp member with old | new
      · exact all p old
      · rw [List.mem_singleton.mp new]
        exact shown

theorem foldl_place_laid : ∀ {l before : List (Member K Text Details)}
    {s : LayoutState K Text Details}, Laid before s → (∀ c ∈ l, Shown c.point) →
      Laid (before ++ l) (l.foldl place s) := by
  intro l
  induction l with
  | nil =>
      intro before s laid _
      rw [List.append_nil]
      exact laid
  | cons c l ih =>
      intro before s laid shown
      obtain ⟨first, rest⟩ := List.forall_mem_cons.mp shown
      have next := ih (place_joins laid first) rest
      rw [List.append_assoc] at next
      exact next

omit [IsStrictOrderedRing K] in
/-- Only the places that are kept are placed. -/
theorem foldl_step [LinearOrder Text] (s : LayoutState K Text Details)
    (l : List (Member K Text Details)) :
    l.foldl step s = (keptOf s.previous l).foldl place s := by
  induction l generalizing s with
  | nil => rfl
  | cons c l ih =>
      rw [List.foldl_cons, keptOf, step]
      split_ifs with dropped
      · exact ih s
      · rw [List.foldl_cons]
        exact ih (place s c)

/-- **The markers are what the kept places become when they join one after the other.** -/
theorem group_builds [LinearOrder Text] {candidates : List (Member K Text Details)}
    (shown : ∀ c ∈ candidates, Shown c.point) :
    Built (keptOf none (sortSlice sortedBefore candidates)) (group candidates) := by
  have start : Laid [] (⟨∅, [], none⟩ : LayoutState K Text Details) := by
    refine ⟨Built.nil, fun cell => ?_, fun p member => absurd member List.not_mem_nil⟩
    rw [bucket_empty]
    rfl
  rw [group, foldl_step]
  apply (foldl_place_laid start _).built
  intro c member
  exact shown c (mem_sortSlice.mp ((keptOf_sublist _ _).subset member))

end Joining

end OfflineMapPOILayout

end OsmMini.Apple

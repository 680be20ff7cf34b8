import Mathlib.Data.String.Basic
import OsmMini.Core.Store.Bounds
import OsmMini.Foundations.Grouping
import OsmMini.Foundations.SortSlice

/-!
# Distributing street labels over a map

A map has room for a few street labels. The candidates are sorted by their distance from the
centre and dealt into the cells of the viewport. One label is taken of each cell in turn before
a second one is taken of any, so that the labels are not all spent in the centre.

The labels do not depend on the order in which the candidates came
(`distributeStreetLabelCandidates_perm`), because two candidates that are sorted alike are the
same.
-/

set_option autoImplicit false

namespace OsmMini.Core

open Foundations

section Distribute

variable {K : Type} [Field K] [LinearOrder K] [FloorRing K]

structure MapLabel (K : Type) where
  name : String
  coord : Coord K

structure MapLabelCandidate (K : Type) where
  label : MapLabel K
  dist : K

/-- By distance, then by name and coordinate. -/
def lessLabelCandidate (a b : MapLabelCandidate K) : Bool :=
  if a.dist < b.dist then true
  else if b.dist < a.dist then false
  else if a.label.name ≠ b.label.name then decide (a.label.name < b.label.name)
  else if a.label.coord.lat < b.label.coord.lat then true
  else if b.label.coord.lat < a.label.coord.lat then false
  else decide (a.label.coord.lon < b.label.coord.lon)

/-- A number without its fraction. -/
def integerPart (v : K) : ℤ := if 0 ≤ v then ⌊v⌋ else ⌈v⌉

/-- How many cells a side of the viewport has. -/
def labelSide (limit : ℕ) : ℕ := max 1 (min 8 limit.sqrt)

/-- The cell of the viewport for a coordinate. -/
def viewportCell (window : CoordWindow K) (side : ℕ) (coord : Coord K) : ℕ :=
  let x := min (side - 1)
    (integerPart ((coord.lon - window.minLon) / (window.maxLon - window.minLon) * side)).toNat
  let y := min (side - 1)
    (integerPart ((coord.lat - window.minLat) / (window.maxLat - window.minLat) * side)).toNat
  y * side + x

/-- The labels of each cell of the viewport, the nearest ones first. -/
def viewportCells (candidates : List (MapLabelCandidate K)) (window : CoordWindow K) (limit : ℕ) :
    List (List (MapLabel K)) :=
  let side := labelSide limit
  deal (side * side) (fun label => viewportCell window side label.coord)
    ((sortSlice lessLabelCandidate candidates).map MapLabelCandidate.label)

/-- Take one label of each cell before a second one of any cell. -/
def distributeStreetLabelCandidates (candidates : List (MapLabelCandidate K))
    (window : CoordWindow K) (limit : ℕ) : List (MapLabel K) :=
  addRows limit (viewportCells candidates window limit) 0 []

/-! ## The order of the candidates -/

/-- What candidates are sorted by. -/
def labelKey (c : MapLabelCandidate K) : K ×ₗ String ×ₗ K ×ₗ K :=
  toLex (c.dist, toLex (c.label.name, toLex (c.label.coord.lat, c.label.coord.lon)))

omit [Field K] [LinearOrder K] [FloorRing K] in
theorem labelKey_injective : Function.Injective (labelKey : MapLabelCandidate K → _) := by
  rintro ⟨⟨name, lat, lon⟩, dist⟩ ⟨⟨name', lat', lon'⟩, dist'⟩ same
  rw [labelKey, labelKey] at same
  simp only [EmbeddingLike.apply_eq_iff_eq, Prod.mk.injEq] at same
  obtain ⟨rfl, rfl, rfl, rfl⟩ := same
  rfl

omit [Field K] [FloorRing K] in
theorem lessLabelCandidate_iff (a b : MapLabelCandidate K) :
    lessLabelCandidate a b = true ↔ labelKey a < labelKey b := by
  rw [labelKey, labelKey, Prod.Lex.toLex_lt_toLex, Prod.Lex.toLex_lt_toLex,
    Prod.Lex.toLex_lt_toLex, lessLabelCandidate]
  dsimp only
  rcases lt_trichotomy a.dist b.dist with less | same | more
  · simp [less]
  · by_cases name : a.label.name = b.label.name
    · rcases lt_trichotomy a.label.coord.lat b.label.coord.lat with less | lat | more
      · simp [same, name, less]
      · simp [same, name, lat]
      · simp [same, name, more, more.not_gt, more.ne']
    · simp [same, name]
  · simp [more, more.not_gt, more.ne']

/-- **The labels do not depend on the order of the candidates.** -/
theorem distributeStreetLabelCandidates_perm {candidates candidates' : List (MapLabelCandidate K)}
    (perm : candidates'.Perm candidates) (window : CoordWindow K) (limit : ℕ) :
    distributeStreetLabelCandidates candidates' window limit =
      distributeStreetLabelCandidates candidates window limit := by
  have same : sortSlice lessLabelCandidate candidates' = sortSlice lessLabelCandidate candidates :=
    sortSlice_eq_of_injective lessLabelCandidate_iff labelKey_injective perm
  rw [distributeStreetLabelCandidates, distributeStreetLabelCandidates, viewportCells,
    viewportCells, same]

/-! ## What is taken -/

theorem labelSide_pos (limit : ℕ) : 0 < labelSide limit :=
  Nat.zero_lt_one.trans_le (le_max_left ..)

theorem viewportCell_lt {window : CoordWindow K} {side : ℕ} (positive : 0 < side)
    (coord : Coord K) : viewportCell window side coord < side * side := by
  rw [viewportCell]
  generalize (integerPart ((coord.lon - window.minLon) / (window.maxLon - window.minLon) * side)).toNat
    = x
  generalize (integerPart ((coord.lat - window.minLat) / (window.maxLat - window.minLat) * side)).toNat
    = y
  have row : min (side - 1) y * side ≤ (side - 1) * side := Nat.mul_le_mul_right _ (min_le_left ..)
  have whole : (side - 1) * side + side = side * side := by
    rw [← Nat.succ_mul, Nat.succ_eq_add_one, Nat.sub_add_cancel positive]
  have column : min (side - 1) x ≤ side - 1 := min_le_left ..
  omega

/-- **The cells hold the labels of the candidates.** -/
theorem flatten_viewportCells_perm (candidates : List (MapLabelCandidate K))
    (window : CoordWindow K) (limit : ℕ) :
    (viewportCells candidates window limit).flatten.Perm
      (candidates.map MapLabelCandidate.label) := by
  refine List.Perm.trans ?_ ((sortSlice_perm lessLabelCandidate candidates).map _)
  refine flatten_deal_perm fun label _ => ?_
  exact viewportCell_lt (labelSide_pos limit) label.coord

/-- A cell of the viewport holds labels inside of it. -/
theorem viewportCell_of_mem {candidates : List (MapLabelCandidate K)} {window : CoordWindow K}
    {limit i : ℕ} {label : MapLabel K}
    (member : label ∈ (viewportCells candidates window limit).getD i []) :
    viewportCell window (labelSide limit) label.coord = i := by
  have inside : i < labelSide limit * labelSide limit := by
    by_contra outside
    rw [List.getD_eq_default _ _ (by rw [viewportCells, length_deal]; omega)] at member
    exact absurd member List.not_mem_nil
  rw [List.getD_eq_getElem?_getD, viewportCells, getElem?_deal inside] at member
  exact of_decide_eq_true (List.mem_filter.mp member).2

/-- **The labels are taken of the cells in turn**, as many as asked for and no candidate twice. -/
theorem distributeStreetLabelCandidates_inTurn (candidates : List (MapLabelCandidate K))
    (window : CoordWindow K) (limit : ℕ) :
    (∃ taken, InTurn (viewportCells candidates window limit) taken ∧
      (distributeStreetLabelCandidates candidates window limit).map some =
        taken.map (atPlace (viewportCells candidates window limit))) ∧
    (distributeStreetLabelCandidates candidates window limit).length =
      min limit candidates.length ∧
    (distributeStreetLabelCandidates candidates window limit).Subperm
      (candidates.map MapLabelCandidate.label) := by
  have all := flatten_viewportCells_perm candidates window limit
  refine ⟨⟨_, inTurn_take limit, addRows_places⟩, ?_, ?_⟩
  · rw [distributeStreetLabelCandidates, length_addRows, all.length_eq, List.length_map]
  · exact (addRows_subperm limit _).trans all.subperm

end Distribute

end OsmMini.Core

import Mathlib.Data.List.Rotate
import Mathlib.Data.List.Zip

/-!
# Closed walks

A closed walk is a list of points read as a cycle: its edges are the consecutive pairs, the
last point with the first. Starting the walk elsewhere rotates the edges, walking it backwards
swaps their ends, and repeating the first point at the end adds an edge from that point to
itself. So whatever is counted over the edges, and does not tell the two ends of an edge
apart, depends on the cycle alone.

A flag that is turned over at every edge that passes a test ends as the parity of the number
of such edges.
-/

set_option autoImplicit false

namespace OsmMini.Foundations

variable {α : Type}

/-- The edges of a closed walk. -/
def closedEdges (walk : List α) : List (α × α) := walk.zip (walk.rotate 1)

theorem length_closedEdges (walk : List α) : (closedEdges walk).length = walk.length := by
  simp [closedEdges]

/-- Every point starts an edge. -/
theorem exists_edge_from {walk : List α} {point : α} (member : point ∈ walk) :
    ∃ next, (point, next) ∈ closedEdges walk := by
  obtain ⟨i, inRange, rfl⟩ := List.getElem_of_mem member
  have inRange' : i < (walk.rotate 1).length := by rwa [List.length_rotate]
  refine ⟨(walk.rotate 1)[i], ?_⟩
  apply List.mem_iff_getElem.mpr
  exact ⟨i, by rwa [length_closedEdges], by simp [closedEdges]⟩

/-- The ends of an edge are points of the walk. -/
theorem mem_of_mem_closedEdges {walk : List α} {edge : α × α} (member : edge ∈ closedEdges walk) :
    edge.1 ∈ walk ∧ edge.2 ∈ walk := by
  obtain ⟨first, second⟩ := edge
  have ends := List.of_mem_zip member
  exact ⟨ends.1, List.mem_rotate.mp ends.2⟩

/-- Pairing with the walk rotated by one rotates with the walk. -/
theorem zip_rotate {walk other : List α} (same : walk.length = other.length) (n : ℕ) :
    (walk.zip other).rotate n = (walk.rotate n).zip (other.rotate n) := by
  rw [List.zip_eq_zipWith, List.zip_eq_zipWith]
  exact List.zipWith_rotate_distrib Prod.mk walk other n same

/-- Starting elsewhere rotates the edges. -/
theorem closedEdges_rotate (walk : List α) (n : ℕ) :
    closedEdges (walk.rotate n) = (closedEdges walk).rotate n := by
  rw [closedEdges, closedEdges, zip_rotate (List.length_rotate walk 1).symm, List.rotate_rotate,
    List.rotate_rotate, Nat.add_comm n 1]

/-- Going back one point and forth one point is standing still. -/
theorem rotate_back_rotate_one (walk : List α) :
    (walk.rotate (walk.length - 1)).rotate 1 = walk := by
  cases walk with
  | nil => rfl
  | cons first rest =>
      have total : (first :: rest).length - 1 + 1 = (first :: rest).length := rfl
      rw [List.rotate_rotate, total, List.rotate_length]

/-- The pairs of every point with the one before it are the edges with their ends swapped. -/
theorem backwardPairs_perm (walk : List α) :
    (walk.zip (walk.rotate (walk.length - 1))).Perm ((closedEdges walk).map Prod.swap) := by
  have turned : (walk.zip (walk.rotate (walk.length - 1))).rotate 1 =
      (closedEdges walk).map Prod.swap := by
    rw [zip_rotate (List.length_rotate walk _).symm, rotate_back_rotate_one, closedEdges,
      List.zip_swap]
  rw [← turned]
  exact (List.rotate_perm _ 1).symm

/-- Reversing a walk and moving on by one is moving back by one and reversing. -/
theorem reverse_rotate_one (walk : List α) :
    walk.reverse.rotate 1 = (walk.rotate (walk.length - 1)).reverse := by
  cases walk with
  | nil => rfl
  | cons first rest =>
      cases rest with
      | nil => simp
      | cons second rest =>
          have small : 1 % (first :: second :: rest).length = 1 := by
            rw [List.length_cons, List.length_cons]
            exact Nat.mod_eq_of_lt (by omega)
          rw [List.rotate_reverse, small]

/-- Walking backwards swaps the ends of the edges. -/
theorem closedEdges_reverse (walk : List α) :
    (closedEdges walk.reverse).Perm ((closedEdges walk).map Prod.swap) := by
  have reversed : closedEdges walk.reverse =
      (walk.zip (walk.rotate (walk.length - 1))).reverse := by
    rw [closedEdges, reverse_rotate_one, List.zip_eq_zipWith, List.zip_eq_zipWith,
      List.reverse_zipWith (List.length_rotate walk _).symm]
  rw [reversed]
  exact (List.reverse_perm _).trans (backwardPairs_perm walk)

/-- Repeating the first point at the end adds an edge from it to itself. -/
theorem closedEdges_close (first : α) (rest : List α) :
    closedEdges (first :: rest ++ [first]) = closedEdges (first :: rest) ++ [(first, first)] := by
  have shifted : (first :: rest).rotate 1 = rest ++ [first] := by simp
  have shiftedTwice : (first :: rest ++ [first]).rotate 1 = rest ++ [first] ++ [first] := by simp
  rw [closedEdges, closedEdges, shifted, shiftedTwice]
  exact List.zip_append (by simp)

/-! ## Parity -/

section Parity

variable (test : α → Bool)

/-- Turn a flag over at every element that passes a test. -/
def toggleAll (inside : Bool) (elements : List α) : Bool :=
  elements.foldl (fun inside element => if test element then !inside else inside) inside

/-- The flag ends as the parity of the elements that pass. -/
theorem toggleAll_eq (elements : List α) (inside : Bool) :
    toggleAll test inside elements = (inside ^^ decide (elements.countP test % 2 = 1)) := by
  induction elements generalizing inside with
  | nil => simp [toggleAll]
  | cons element elements ih =>
      have step : toggleAll test inside (element :: elements) =
          toggleAll test (if test element then !inside else inside) elements := rfl
      rw [step, ih, List.countP_cons]
      by_cases passes : test element = true
      · rw [if_pos passes, if_pos passes]
        rcases Nat.mod_two_eq_zero_or_one (elements.countP test) with even | odd
        · have next : (elements.countP test + 1) % 2 = 1 := by omega
          simp [even, next]
        · have next : (elements.countP test + 1) % 2 = 0 := by omega
          simp [odd, next]
      · rw [if_neg passes, if_neg passes, Nat.add_zero]

/-- The order of the elements does not matter. -/
theorem toggleAll_perm {elements elements' : List α} (perm : elements.Perm elements')
    (inside : Bool) : toggleAll test inside elements = toggleAll test inside elements' := by
  rw [toggleAll_eq, toggleAll_eq, perm.countP_eq]

/-- Neither does a change of the elements that keeps the results of the test. -/
theorem toggleAll_map {β : Type} {testImage : β → Bool} (f : α → β)
    (agrees : ∀ element, testImage (f element) = test element) (elements : List α)
    (inside : Bool) :
    toggleAll testImage inside (elements.map f) = toggleAll test inside elements := by
  have composed : testImage ∘ f = test := funext agrees
  rw [toggleAll_eq, toggleAll_eq, List.countP_map, composed]

end Parity

end OsmMini.Foundations

import Mathlib.Data.List.Sort
import Mathlib.Order.Lattice

/-!
# The first entries of a sorted list

A short sorted list is kept while elements come one after the other: each is put in its place
and what falls off the end is dropped. Nothing that is dropped could come back, so after any
number of elements the list holds the first of all of them, in whatever order they came.
-/

set_option autoImplicit false

namespace OsmMini.Foundations

variable {α : Type} [LinearOrder α]

/-- Put an element in its place in a sorted list that holds at most `limit` elements. -/
def insertBounded (limit : ℕ) (entries : List α) (x : α) : List α :=
  let position := (entries.takeWhile (· < x)).length
  if position < limit then (entries.take position ++ x :: entries.drop position).take limit
  else entries

/-- The element is put where a sorted insertion puts it. -/
theorem insertBounded_eq {limit : ℕ} {entries : List α} (x : α) (short : entries.length ≤ limit) :
    insertBounded limit entries x = (entries.orderedInsert (· ≤ ·) x).take limit := by
  have placed : entries.orderedInsert (· ≤ ·) x =
      entries.takeWhile (· < x) ++ x :: entries.dropWhile (· < x) := by
    rw [List.orderedInsert_eq_take_drop]
    simp only [not_le]
  have before : entries.take (entries.takeWhile (· < x)).length = entries.takeWhile (· < x) :=
    (List.prefix_iff_eq_take.mp (List.takeWhile_prefix _)).symm
  have after : entries.drop (entries.takeWhile (· < x)).length = entries.dropWhile (· < x) := by
    have cut : entries = entries.takeWhile (· < x) ++ entries.dropWhile (· < x) :=
      List.takeWhile_append_dropWhile.symm
    have dropped := congrArg (List.drop (entries.takeWhile (· < x)).length) cut
    rwa [List.drop_left] at dropped
  rw [insertBounded, placed, before, after]
  by_cases inside : (entries.takeWhile (· < x)).length < limit
  · rw [if_pos inside]
  · rw [if_neg inside]
    have prefix_ := (List.takeWhile_prefix (l := entries) (· < x)).length_le
    have all : entries.takeWhile (· < x) = entries :=
      (List.takeWhile_prefix _).eq_of_length (by omega)
    rw [all, List.take_append_of_le_length (by omega), List.take_of_length_le short]

/-- Entries beyond the limit do not change what comes before it. -/
theorem take_orderedInsert (x : α) (entries : List α) : ∀ limit : ℕ,
    ((entries.take limit).orderedInsert (· ≤ ·) x).take limit =
      (entries.orderedInsert (· ≤ ·) x).take limit := by
  induction entries with
  | nil =>
      intro limit
      rw [List.take_nil]
  | cons y entries ih =>
      intro limit
      cases limit with
      | zero => rw [List.take_zero, List.take_zero]
      | succ limit =>
          rw [List.take_succ_cons, List.orderedInsert_cons, List.orderedInsert_cons]
          by_cases here : x ≤ y
          · rw [if_pos here, if_pos here, List.take_succ_cons, List.take_succ_cons]
            congr 1
            cases limit with
            | zero => rw [List.take_zero, List.take_zero]
            | succ limit =>
                rw [List.take_succ_cons, List.take_succ_cons, List.take_take]
                congr 2
                omega
          · rw [if_neg here, if_neg here, List.take_succ_cons, List.take_succ_cons, ih]

/-- The first entries of what has come so far. -/
def topEntries (limit : ℕ) (elements : List α) : List α :=
  elements.foldl (insertBounded limit) []

theorem foldl_insertBounded (limit : ℕ) (elements : List α) : ∀ sorted : List α,
    elements.foldl (insertBounded limit) (sorted.take limit) =
      (elements.foldl (fun entries x => entries.orderedInsert (· ≤ ·) x) sorted).take limit := by
  induction elements with
  | nil => exact fun _ => rfl
  | cons x elements ih =>
      intro sorted
      rw [List.foldl_cons, List.foldl_cons, insertBounded_eq x (List.length_take_le _ _),
        take_orderedInsert]
      exact ih _

theorem foldl_orderedInsert (elements : List α) : ∀ sorted : List α,
    sorted.Pairwise (· ≤ ·) →
    (elements.foldl (fun entries x => entries.orderedInsert (· ≤ ·) x) sorted).Pairwise (· ≤ ·) ∧
      (elements.foldl (fun entries x => entries.orderedInsert (· ≤ ·) x) sorted).Perm
        (elements ++ sorted) := by
  induction elements with
  | nil => exact fun sorted ordered => ⟨ordered, List.Perm.refl _⟩
  | cons x elements ih =>
      intro sorted ordered
      obtain ⟨ordered', perm⟩ := ih _ (ordered.orderedInsert x)
      refine ⟨ordered', perm.trans ?_⟩
      have inserted := (List.perm_orderedInsert (· ≤ ·) x sorted).append_left elements
      exact inserted.trans List.perm_middle

/-- **The entries kept are the first ones of the sorted list**, in whatever order the elements
came. -/
theorem topEntries_eq {limit : ℕ} {elements elements' : List α} (perm : elements.Perm elements') :
    topEntries limit elements = (elements'.insertionSort (· ≤ ·)).take limit := by
  have folded := foldl_insertBounded limit elements []
  rw [List.take_nil] at folded
  obtain ⟨ordered, perm'⟩ := foldl_orderedInsert elements [] List.Pairwise.nil
  rw [List.append_nil] at perm'
  have sorted : (elements'.insertionSort (· ≤ ·)).Pairwise (· ≤ ·) :=
    List.pairwise_insertionSort (· ≤ ·) elements'
  have same := (perm'.trans perm).trans (List.perm_insertionSort (· ≤ ·) elements').symm
  rw [topEntries, folded, same.eq_of_pairwise' ordered sorted]

end OsmMini.Foundations

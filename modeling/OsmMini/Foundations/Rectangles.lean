import Mathlib.Data.Int.Range
import Mathlib.Data.List.Basic
import Mathlib.Data.List.Nodup
import Mathlib.Data.Sym.Sym2
import Mathlib.Tactic.Common

/-!
# Rectangles of cells

The cells of a grid between two corners, column by column. Each cell of the rectangle is
listed once.
-/

set_option autoImplicit false

namespace OsmMini.Foundations

/-- The cells from one corner to the other, both included. -/
def rectangle (lo hi : ℤ × ℤ) : List (ℤ × ℤ) :=
  (Int.range lo.1 (hi.1 + 1)).flatMap fun x => (Int.range lo.2 (hi.2 + 1)).map fun y => (x, y)

theorem mem_rectangle {lo hi k : ℤ × ℤ} :
    k ∈ rectangle lo hi ↔ (lo.1 ≤ k.1 ∧ k.1 ≤ hi.1) ∧ lo.2 ≤ k.2 ∧ k.2 ≤ hi.2 := by
  simp only [rectangle, List.mem_flatMap, List.mem_map, Int.mem_range_iff, Int.lt_add_one_iff]
  constructor
  · rintro ⟨x, columns, y, rows, rfl⟩
    exact ⟨columns, rows⟩
  · rintro ⟨columns, rows⟩
    exact ⟨k.1, columns, k.2, rows, rfl⟩

theorem nodup_intRange (m n : ℤ) : (Int.range m n).Nodup := by
  rw [Int.range]
  exact List.nodup_range.map fun a b same => by omega

theorem nodup_rectangle (lo hi : ℤ × ℤ) : (rectangle lo hi).Nodup := by
  rw [rectangle, List.nodup_flatMap]
  refine ⟨fun x _ => (nodup_intRange _ _).map fun a b same => (Prod.mk.inj same).2, ?_⟩
  refine (nodup_intRange _ _).imp fun {x x'} different => ?_
  intro k here there
  obtain ⟨_, -, rfl⟩ := List.mem_map.mp here
  obtain ⟨_, -, same⟩ := List.mem_map.mp there
  exact different (Prod.mk.inj same).1.symm

end OsmMini.Foundations

/-!
## Segments of a path

The segments of a path are the pairs of consecutive points, up to their direction. A path that
is turned around has the same segments, and two paths that are joined at a common end have
those of both.
-/

namespace OsmMini.Foundations

variable {α : Type*}

/-- The pairs of consecutive points of a path. -/
def segments : List α → List (Sym2 α)
  | first :: second :: path => s(first, second) :: segments (second :: path)
  | _ => []

/-- Joined at a common end, two paths have the segments of both. -/
theorem segments_append {path rest : List α} (shared : path.getLast? = rest.head?) :
    segments (path ++ rest.tail) = segments path ++ segments rest := by
  induction path with
  | nil =>
      cases rest with
      | nil => rfl
      | cons point rest => cases shared
  | cons first path ih =>
      cases path with
      | nil =>
          cases rest with
          | nil => cases shared
          | cons point rest =>
              cases shared
              rfl
      | cons second path =>
          have joined := ih (by rwa [List.getLast?_cons_cons] at shared)
          rw [List.cons_append, List.cons_append, segments, ← List.cons_append, joined, segments,
            List.cons_append]

/-- A path has the same segments in both directions. -/
theorem segments_reverse (path : List α) : (segments path.reverse).Perm (segments path) := by
  induction path with
  | nil => exact List.Perm.refl _
  | cons first path ih =>
      cases path with
      | nil => exact List.Perm.refl _
      | cons second path =>
          have shared : (second :: path).reverse.getLast? = [second, first].head? := by
            rw [List.getLast?_reverse]
            rfl
          have split : (first :: second :: path).reverse =
              (second :: path).reverse ++ [second, first].tail := List.reverse_cons
          rw [split, segments_append shared]
          have last : segments [second, first] = [s(first, second)] :=
            congrArg (fun segment => [segment]) Sym2.eq_swap
          rw [last]
          exact (List.perm_append_singleton _ _).trans (ih.cons _)

/-- The path to a point and the path from it have the segments of the whole. -/
theorem append_tail_eq {path : List α} {i : ℕ} (inside : i < path.length) :
    path.take (i + 1) ++ (path.drop i).tail = path ∧
      (path.take (i + 1)).getLast? = some path[i] ∧ (path.drop i).head? = some path[i] := by
  refine ⟨?_, ?_, ?_⟩
  · rw [List.tail_drop, List.take_append_drop]
  · rw [List.take_succ_eq_append_getElem inside, List.getLast?_concat]
  · rw [List.head?_drop, List.getElem?_eq_getElem inside]

end OsmMini.Foundations

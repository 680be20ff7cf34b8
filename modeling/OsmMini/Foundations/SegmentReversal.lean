import Mathlib.Algebra.BigOperators.Group.List.Basic
import Mathlib.Data.List.Basic

/-!
# Reversing a segment

A segment of an array is reversed in place by swapping its ends and moving inwards. On the
array written as what stands before the segment, the segment, and what stands after it, that
reverses the segment and keeps the rest.

The cost of a path is the sum of the costs of its steps. It is cut at any point of the path,
and the path walked backwards costs what the path costs with every step turned round. So
reversing a segment of a path only changes the two steps at its ends and turns round those
inside it.
-/

set_option autoImplicit false

namespace OsmMini.Foundations

variable {α : Type}

/-! ## Swapping inwards -/

/-- Swap two elements of an array. -/
def swapAt (xs : List α) (l r : ℕ) : List α :=
  match xs[l]?, xs[r]? with
  | some x, some y => (xs.set l y).set r x
  | _, _ => xs

/-- Swap the ends of a segment and move inwards, as many times as `swaps`. -/
def swapInwards (xs : List α) (l r : ℕ) : ℕ → List α
  | 0 => xs
  | swaps + 1 => swapInwards (swapAt xs l r) (l + 1) (r - 1) swaps

/-- Reverse the segment from `l` to `r`: the two ends meet after half of its length. -/
def reverseRange (xs : List α) (l r : ℕ) : List α := swapInwards xs l r ((r + 1 - l) / 2)

theorem swapAt_ends (before inner after : List α) (x y : α) :
    swapAt (before ++ x :: inner ++ y :: after) before.length
        (before.length + inner.length + 1) =
      before ++ y :: inner ++ x :: after := by
  have first : (before ++ x :: inner ++ y :: after)[before.length]? = some x := by simp
  have position : ∀ z, (before ++ z :: inner).length = before.length + inner.length + 1 := by
    intro z
    simp only [List.length_append, List.length_cons]
    omega
  have last : (before ++ x :: inner ++ y :: after)[before.length + inner.length + 1]? =
      some y := by
    rw [← position x, List.getElem?_append_right (Nat.le_refl _), Nat.sub_self]
    rfl
  have firstSet : (before ++ x :: inner ++ y :: after).set before.length y =
      before ++ y :: inner ++ y :: after := by
    rw [List.append_assoc, List.set_append_right _ _ (Nat.le_refl _), Nat.sub_self]
    simp
  rw [swapAt, first, last]
  dsimp only
  rw [firstSet, ← position y, List.set_append_right _ _ (Nat.le_refl _), Nat.sub_self]
  rfl

/-- **Swapping inwards reverses the segment and keeps the rest.** -/
theorem swapInwards_segment (swaps : ℕ) : ∀ (before segment after : List α),
    segment.length = 2 * swaps ∨ segment.length = 2 * swaps + 1 →
      swapInwards (before ++ segment ++ after) before.length
          (before.length + segment.length - 1) swaps =
        before ++ segment.reverse ++ after := by
  induction swaps with
  | zero =>
      intro before segment after size
      have short : segment.reverse = segment := by
        match segment, size with
        | [], _ => rfl
        | [x], _ => rfl
        | x :: y :: rest, size => simp at size
      rw [swapInwards, short]
  | succ swaps ih =>
      intro before segment after size
      obtain ⟨x, rest, rfl⟩ : ∃ x rest, segment = x :: rest := by
        cases segment with
        | nil => simp at size
        | cons x rest => exact ⟨x, rest, rfl⟩
      rcases List.eq_nil_or_concat rest with rfl | ⟨inner, y, rfl⟩
      · simp at size
        omega
      · rw [List.concat_eq_append] at size ⊢
        simp only [List.length_cons, List.length_append, List.length_nil] at size
        have shape : before ++ (x :: (inner ++ [y])) ++ after =
            before ++ x :: inner ++ y :: after := by simp
        have last : before.length + (x :: (inner ++ [y])).length - 1 =
            before.length + inner.length + 1 := by
          simp only [List.length_cons, List.length_append, List.length_nil]
          omega
        have swapped := swapAt_ends before inner after x y
        have inwards : before ++ y :: inner ++ x :: after =
            (before ++ [y]) ++ inner ++ (x :: after) := by simp
        have start : before.length + 1 = (before ++ [y]).length := by simp
        have stop : before.length + inner.length + 1 - 1 =
            (before ++ [y]).length + inner.length - 1 := by simp
        rw [swapInwards, shape, last, swapped, inwards, start, stop,
          ih (before ++ [y]) inner (x :: after) (by omega)]
        simp

theorem reverseRange_segment (before segment after : List α) (nonempty : segment ≠ []) :
    reverseRange (before ++ segment ++ after) before.length
        (before.length + segment.length - 1) =
      before ++ segment.reverse ++ after := by
  have positive : 0 < segment.length := List.length_pos_of_ne_nil nonempty
  have half : (before.length + segment.length - 1 + 1 - before.length) / 2 =
      segment.length / 2 := by
    congr 1
    omega
  rw [reverseRange, half]
  exact swapInwards_segment _ before segment after (by omega)

/-- The element after a given beginning. -/
theorem getD_after (before : List α) (x : α) (after : List α) (fallback : α) :
    (before ++ x :: after).getD before.length fallback = x := by
  simp

/-! ## The cost of a path -/

section Path

variable {M : Type} [AddCommMonoid M]

/-- The sum of the costs of the steps of a path. -/
def pathCost (step : α → α → M) : List α → M
  | [] => 0
  | [_] => 0
  | x :: y :: rest => step x y + pathCost step (y :: rest)

/-- A path is cut at any of its points. -/
theorem pathCost_cut (step : α → α → M) (before : List α) (x : α) (after : List α) :
    pathCost step (before ++ x :: after) =
      pathCost step (before ++ [x]) + pathCost step (x :: after) := by
  induction before with
  | nil => simp [pathCost]
  | cons y before ih =>
      cases before with
      | nil => simp [pathCost]
      | cons z before =>
          have longer := ih
          simp only [List.cons_append] at longer ⊢
          rw [pathCost, pathCost, longer, add_assoc]

/-- Backwards, every step is turned round. -/
theorem pathCost_reverse (step : α → α → M) (path : List α) :
    pathCost step path.reverse = pathCost (fun x y => step y x) path := by
  induction path with
  | nil => rfl
  | cons x path ih =>
      cases path with
      | nil => rfl
      | cons y path =>
          have turned : (x :: y :: path).reverse = path.reverse ++ y :: [x] := by simp
          have shorter : (y :: path).reverse = path.reverse ++ [y] := by simp
          rw [turned, pathCost_cut, ← shorter, ih, pathCost, pathCost, pathCost, add_zero, add_comm]

/-- A path with a reversed segment: two new steps at its ends, and the steps inside turned
round. -/
theorem pathCost_turn (step : α → α → M) (a x : α) (inner : List α) (y b : α) :
    pathCost step (a :: (x :: inner ++ [y]).reverse ++ [b]) =
      step a y + step x b + pathCost (fun p q => step q p) (x :: inner ++ [y]) := by
  have turned : (x :: inner ++ [y]).reverse = y :: (inner.reverse ++ [x]) := by simp
  have ended : y :: (inner.reverse ++ [x]) ++ [b] = (y :: inner.reverse) ++ x :: [b] := by simp
  have closed : (y :: inner.reverse) ++ [x] = (x :: inner ++ [y]).reverse := by simp
  have last : pathCost step [x, b] = step x b := by simp [pathCost]
  have opened : pathCost step (a :: (x :: inner ++ [y]).reverse ++ [b]) =
      step a y + pathCost step (y :: (inner.reverse ++ [x]) ++ [b]) := by
    rw [turned]
    rfl
  rw [opened, ended, pathCost_cut, closed, pathCost_reverse, last, add_assoc, add_comm (step x b)]

variable [Inhabited α]

/-- The steps of a path inside an array, added up by their positions. -/
theorem sum_steps (step : α → α → M) (path : List α) : ∀ (before after : List α) (x : α),
    ((List.range' before.length path.length).map fun k =>
        step ((before ++ x :: path ++ after).getD k default)
          ((before ++ x :: path ++ after).getD (k + 1) default)).sum =
      pathCost step (x :: path) := by
  induction path with
  | nil => exact fun _ _ _ => rfl
  | cons y path ih =>
      intro before after x
      have first : (before ++ x :: y :: path ++ after).getD before.length default = x := by simp
      have second : (before ++ x :: y :: path ++ after).getD (before.length + 1) default = y := by
        simp [List.getD_eq_getElem?_getD]
      have moved := ih (before ++ [x]) after y
      have same : before ++ [x] ++ y :: path ++ after = before ++ x :: y :: path ++ after := by simp
      have start : (before ++ [x]).length = before.length + 1 := by simp
      rw [same, start] at moved
      rw [List.length_cons, List.range'_succ, List.map_cons, List.sum_cons, first, second, moved,
        pathCost]

section Segment

variable (step : α → α → M) (front : List α) (a x : α) (inner : List α) (y b : α) (back : List α)

/-- An array with a segment of at least two elements and their neighbours on both sides. -/
def withSegment : List α := front ++ a :: (x :: inner ++ [y]) ++ b :: back

/-- The steps to, in and from the segment, added up by their positions. -/
theorem sum_replaced :
    ((List.range' front.length (front.length + inner.length + 1 + 2 - front.length)).map fun k =>
        step ((withSegment front a x inner y b back).getD k default)
          ((withSegment front a x inner y b back).getD (k + 1) default)).sum =
      pathCost step (a :: (x :: inner ++ [y]) ++ [b]) := by
  have steps := sum_steps step ((x :: inner ++ [y]) ++ [b]) front back a
  have array : front ++ a :: (x :: inner ++ [y] ++ [b]) ++ back =
      withSegment front a x inner y b back := by simp [withSegment]
  have span : (x :: inner ++ [y] ++ [b]).length =
      front.length + inner.length + 1 + 2 - front.length := by
    simp only [List.length_append, List.length_cons, List.length_nil]
    omega
  rw [array, span] at steps
  exact steps

/-- The steps to, in and from the reversed segment, added up by the positions they have before
the reversal. -/
theorem sum_turned :
    step ((withSegment front a x inner y b back).getD front.length default)
        ((withSegment front a x inner y b back).getD (front.length + inner.length + 1 + 1) default) +
      step ((withSegment front a x inner y b back).getD (front.length + 1) default)
        ((withSegment front a x inner y b back).getD (front.length + inner.length + 1 + 2) default) +
      ((List.range' (front.length + 1) (front.length + inner.length + 1 - front.length)).map fun k =>
        step ((withSegment front a x inner y b back).getD (k + 1) default)
          ((withSegment front a x inner y b back).getD k default)).sum =
      pathCost step (a :: (x :: inner ++ [y]).reverse ++ [b]) := by
  have steps := sum_steps (fun p q => step q p) (inner ++ [y]) (front ++ [a]) (b :: back) x
  have array : front ++ [a] ++ x :: (inner ++ [y]) ++ b :: back =
      withSegment front a x inner y b back := by simp [withSegment]
  have span : (inner ++ [y]).length = front.length + inner.length + 1 - front.length := by
    simp only [List.length_append, List.length_cons, List.length_nil]
    omega
  have start : (front ++ [a]).length = front.length + 1 := by simp
  rw [array, start, span] at steps
  have atA : (withSegment front a x inner y b back).getD front.length default = a := by
    rw [withSegment, List.append_assoc]
    exact getD_after front a _ default
  have atX : (withSegment front a x inner y b back).getD (front.length + 1) default = x := by
    rw [← array, ← start, List.append_assoc]
    exact getD_after (front ++ [a]) x _ default
  have atY : (withSegment front a x inner y b back).getD
      (front.length + inner.length + 1 + 1) default = y := by
    have shape : withSegment front a x inner y b back =
        (front ++ a :: x :: inner) ++ y :: b :: back := by simp [withSegment]
    have place : (front ++ a :: x :: inner).length = front.length + inner.length + 1 + 1 := by
      simp only [List.length_append, List.length_cons]
      omega
    rw [shape, ← place]
    exact getD_after _ y _ default
  have atB : (withSegment front a x inner y b back).getD
      (front.length + inner.length + 1 + 2) default = b := by
    have place : (front ++ a :: (x :: inner ++ [y])).length =
        front.length + inner.length + 1 + 2 := by
      simp only [List.length_append, List.length_cons, List.length_nil]
      omega
    rw [withSegment, ← place]
    exact getD_after _ b _ default
  rw [atA, atX, atY, atB, steps, pathCost_turn]
  rfl

end Segment

end Path

end OsmMini.Foundations

import Mathlib.Algebra.Order.Field.Basic
import Mathlib.Data.List.TakeWhile
import Mathlib.Tactic.Linarith

/-!
# Clipping an interval

A range of a parameter is narrowed by linear conditions `p * t ≤ q`, one after the other. A
negative factor bounds the parameter from below and a positive one from above; without a
factor the condition holds for all parameters or for none.

The range left is exactly the set of the parameters that satisfy all conditions, and clipping
fails exactly when there are none (`clipRange_some`, `clipRange_none`).
-/

set_option autoImplicit false

namespace OsmMini.Foundations

variable {K : Type*} [Field K] [LinearOrder K]

/-- Narrow a range by one condition. -/
def clipStep (range condition : K × K) : Option (K × K) :=
  if condition.1 = 0 then
    if condition.2 < 0 then none else some range
  else
    let ratio := condition.2 / condition.1
    if condition.1 < 0 then
      if range.2 < ratio then none else some (max range.1 ratio, range.2)
    else
      if ratio < range.1 then none else some (range.1, min range.2 ratio)

/-- Narrow a range by all conditions. -/
def clipRange (range : K × K) : List (K × K) → Option (K × K)
  | [] => some range
  | condition :: conditions =>
    match clipStep range condition with
    | none => none
    | some range => clipRange range conditions

variable [IsStrictOrderedRing K]

/-- **One condition.** The range left holds the parameters of the range that satisfy it. -/
theorem clipStep_spec {range condition : K × K} (nonempty : range.1 ≤ range.2) :
    match clipStep range condition with
    | none => ∀ t, range.1 ≤ t → t ≤ range.2 → ¬condition.1 * t ≤ condition.2
    | some left => left.1 ≤ left.2 ∧ ∀ t, (left.1 ≤ t ∧ t ≤ left.2) ↔
        (range.1 ≤ t ∧ t ≤ range.2) ∧ condition.1 * t ≤ condition.2 := by
  obtain ⟨low, high⟩ := range
  obtain ⟨p, q⟩ := condition
  dsimp only at nonempty
  rw [clipStep]
  dsimp only
  rcases lt_trichotomy p 0 with negative | rfl | positive
  · have meaning : ∀ t, p * t ≤ q ↔ q / p ≤ t := fun t => by
      rw [div_le_iff_of_neg negative, mul_comm]
    rw [if_neg negative.ne, if_pos negative]
    by_cases beyond : high < q / p
    · rw [if_pos beyond]
      intro t _ below condition
      exact absurd ((meaning t).mp condition) (not_le.mpr (below.trans_lt beyond))
    · rw [if_neg beyond]
      refine ⟨max_le nonempty (not_lt.mp beyond), fun t => ?_⟩
      rw [meaning, max_le_iff]
      tauto
  · rw [if_pos rfl]
    by_cases never : q < 0
    · rw [if_pos never]
      intro t _ _ condition
      rw [zero_mul] at condition
      exact absurd condition (not_le.mpr never)
    · rw [if_neg never]
      refine ⟨nonempty, fun t => ?_⟩
      rw [zero_mul]
      exact (and_iff_left (not_lt.mp never)).symm
  · have meaning : ∀ t, p * t ≤ q ↔ t ≤ q / p := fun t => by
      rw [le_div_iff₀ positive, mul_comm]
    rw [if_neg positive.ne', if_neg positive.not_gt]
    by_cases beyond : q / p < low
    · rw [if_pos beyond]
      intro t above _ condition
      exact absurd ((meaning t).mp condition) (not_le.mpr (beyond.trans_le above))
    · rw [if_neg beyond]
      refine ⟨le_min nonempty (not_lt.mp beyond), fun t => ?_⟩
      rw [meaning, le_min_iff]
      tauto

/-- **The range left is the set of the parameters that satisfy all conditions.** -/
theorem clipRange_some {conditions : List (K × K)} : ∀ {range left : K × K},
    range.1 ≤ range.2 → clipRange range conditions = some left → left.1 ≤ left.2 ∧
      ∀ t, (left.1 ≤ t ∧ t ≤ left.2) ↔
        (range.1 ≤ t ∧ t ≤ range.2) ∧ ∀ c ∈ conditions, c.1 * t ≤ c.2 := by
  induction conditions with
  | nil =>
      intro range left nonempty clipped
      obtain rfl := Option.some.inj clipped
      exact ⟨nonempty, fun t => by simp⟩
  | cons condition conditions ih =>
      intro range left nonempty clipped
      rw [clipRange] at clipped
      have step := @clipStep_spec _ _ _ _ range condition nonempty
      cases first : clipStep range condition with
      | none =>
          rw [first] at clipped
          cases clipped
      | some middle =>
          rw [first] at clipped step
          obtain ⟨nonempty', meaning⟩ := step
          obtain ⟨ordered, rest⟩ := ih nonempty' clipped
          refine ⟨ordered, fun t => ?_⟩
          rw [rest, meaning, List.forall_mem_cons, and_assoc]

/-- **Clipping fails only when no parameter satisfies all conditions.** -/
theorem clipRange_none {conditions : List (K × K)} : ∀ {range : K × K},
    range.1 ≤ range.2 → clipRange range conditions = none →
      ∀ t, range.1 ≤ t → t ≤ range.2 → ¬∀ c ∈ conditions, c.1 * t ≤ c.2 := by
  induction conditions with
  | nil =>
      intro range _ clipped
      cases clipped
  | cons condition conditions ih =>
      intro range nonempty clipped t above below all
      obtain ⟨here, later⟩ := List.forall_mem_cons.mp all
      rw [clipRange] at clipped
      have step := @clipStep_spec _ _ _ _ range condition nonempty
      cases first : clipStep range condition with
      | none =>
          rw [first] at step
          exact step t above below here
      | some middle =>
          rw [first] at clipped step
          obtain ⟨nonempty', meaning⟩ := step
          obtain ⟨above', below'⟩ := (meaning t).mpr ⟨⟨above, below⟩, here⟩
          exact ih nonempty' clipped t above' below' later

end OsmMini.Foundations

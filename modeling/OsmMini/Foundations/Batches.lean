import Mathlib.Data.List.Chain
import Mathlib.Tactic.Common

/-!
# Overlapping batches

A path is cut into batches of at most some number of points. A full batch is closed and its last
point opens the next one, so that the step from one batch to the next is not lost. A single point
that is left over makes no batch.

The batches have the steps of the path (`steps_batches`), each has two points at least, and each
begins where the one before it ends.
-/

set_option autoImplicit false

namespace OsmMini.Foundations

variable {α : Type*}

/-- The steps of a path: its pairs of consecutive points. -/
def steps (path : List α) : List (α × α) := path.zip path.tail

theorem steps_nil : steps ([] : List α) = [] := rfl

theorem steps_singleton (a : α) : steps [a] = [] := rfl

theorem steps_cons_cons (a b : α) (path : List α) :
    steps (a :: b :: path) = (a, b) :: steps (b :: path) := rfl

/-- A path that is cut at a point has the steps of both parts. -/
theorem steps_append (before : List α) (a : α) (after : List α) :
    steps (before ++ a :: after) = steps (before ++ [a]) ++ steps (a :: after) := by
  induction before with
  | nil => rfl
  | cons first before ih =>
      cases before with
      | nil => rfl
      | cons second before =>
          rw [List.cons_append, List.cons_append, steps_cons_cons, ← List.cons_append, ih]
          rfl

theorem steps_map {β : Type*} (f : α → β) (path : List α) :
    steps (path.map f) = (steps path).map (Prod.map f f) := by
  rw [steps, steps, ← List.map_tail, List.zip_map]

/-- A batch of two points or more. -/
def closeBatch (buffer : List α) : List (List α) := if 1 < buffer.length then [buffer] else []

/-- The batches of what is buffered and what is still to come. -/
def batches (size : ℕ) : List α → List α → List (List α)
  | buffer, [] => closeBatch buffer
  | buffer, a :: rest =>
    if (buffer ++ [a]).length = size then closeBatch (buffer ++ [a]) ++ batches size [a] rest
    else batches size (buffer ++ [a]) rest

/-- A batch that is too short has no steps. -/
theorem steps_closeBatch (buffer : List α) : (closeBatch buffer).flatMap steps = steps buffer := by
  rw [closeBatch]
  split_ifs with long
  · rw [List.flatMap_cons, List.flatMap_nil, List.append_nil]
  · match buffer with
    | [] => rfl
    | [a] => rfl
    | a :: b :: rest => exact absurd (by simp) long

/-- **The batches have the steps of the path**, in their order. -/
theorem steps_batches (size : ℕ) (buffer rest : List α) :
    (batches size buffer rest).flatMap steps = steps (buffer ++ rest) := by
  induction rest generalizing buffer with
  | nil => rw [batches, steps_closeBatch, List.append_nil]
  | cons a rest ih =>
      rw [batches, List.append_cons buffer a rest]
      split_ifs with full
      · rw [List.flatMap_append, steps_closeBatch, ih, ← List.append_cons]
        exact (steps_append buffer a rest).symm
      · exact ih (buffer ++ [a])

/-- **Every batch has two points at least and no more than fit.** -/
theorem length_of_mem_batches {size : ℕ} (large : 1 < size) {buffer : List α}
    (open' : buffer.length < size) {rest batch : List α}
    (member : batch ∈ batches size buffer rest) :
    2 ≤ batch.length ∧ batch.length ≤ size := by
  have closed : ∀ {buffer : List α}, buffer.length ≤ size → batch ∈ closeBatch buffer →
      2 ≤ batch.length ∧ batch.length ≤ size := by
    intro buffer fits inside
    rw [closeBatch] at inside
    split_ifs at inside with long
    · rw [List.mem_singleton.mp inside]
      exact ⟨long, fits⟩
    · exact absurd inside List.not_mem_nil
  induction rest generalizing buffer with
  | nil => exact closed open'.le member
  | cons a rest ih =>
      have longer : (buffer ++ [a]).length ≤ size := by
        rw [List.length_append, List.length_singleton]
        exact open'
      rw [batches] at member
      split_ifs at member with full
      · rcases List.mem_append.mp member with here | later
        · exact closed longer here
        · exact @ih [a] large later
      · exact ih (lt_of_le_of_ne longer full) member

/-- The first batch begins where the buffer does. -/
theorem head_batches {size : ℕ} {buffer rest batch : List α} {a : α}
    (begins : buffer.head? = some a) (first : (batches size buffer rest).head? = some batch) : batch.head? = some a := by
  have closed : ∀ {buffer : List α}, buffer.head? = some a →
      (closeBatch buffer).head? = some batch → batch.head? = some a := by
    intro buffer begins is
    rw [closeBatch] at is
    split_ifs at is with long
    · rw [← Option.some.inj is]
      exact begins
    · cases is
  induction rest generalizing buffer with
  | nil => exact closed begins first
  | cons b rest ih =>
      have longer : (buffer ++ [b]).head? = some a := by
        rw [List.head?_append, begins]
        rfl
      rw [batches] at first
      split_ifs at first with full
      · cases close : closeBatch (buffer ++ [b]) with
        | nil =>
            -- The buffer holds one point, which the new batch begins with.
            rw [close, List.nil_append] at first
            have short : ¬1 < (buffer ++ [b]).length := by
              intro long
              rw [closeBatch, if_pos long] at close
              cases close
            match buffer, begins with
            | c :: buffer, _ =>
                simp at short
        | cons closedBatch others =>
            rw [close] at first
            refine closed longer ?_
            rw [close]
            exact first
      · exact ih longer first

/-- **Every batch begins where the one before it ends.** -/
theorem joined_batches {size : ℕ} (large : 1 < size) {buffer : List α}
    (open' : buffer.length < size) (rest : List α) :
    (batches size buffer rest).IsChain fun batch next => batch.getLast? = next.head? := by
  have single : ∀ buffer : List α, (closeBatch buffer).IsChain fun batch next =>
      batch.getLast? = next.head? := by
    intro buffer
    rw [closeBatch]
    split_ifs
    · exact List.isChain_singleton _
    · exact List.isChain_nil
  induction rest generalizing buffer with
  | nil => exact single buffer
  | cons a rest ih =>
      rw [batches]
      split_ifs with full
      · rw [List.isChain_append]
        refine ⟨single _, ih large, ?_⟩
        intro batch last next first
        have is : batch = buffer ++ [a] := by
          rw [closeBatch] at last
          split_ifs at last with long
          · exact (Option.some.inj last).symm
          · cases last
        rw [is, List.getLast?_concat]
        exact (head_batches rfl first).symm
      · refine ih (lt_of_le_of_ne ?_ full)
        rw [List.length_append, List.length_singleton]
        exact open'

end OsmMini.Foundations

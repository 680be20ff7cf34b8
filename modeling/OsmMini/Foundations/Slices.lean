import Mathlib.Data.List.Basic
import Mathlib.Order.Lattice
import Mathlib.Data.Nat.Basic

/-!
# Slices of growing arrays

A slice is a window into an array, with a bound up to which it may grow in place. Appending
writes behind the window as long as the bound allows it, into the same array, and otherwise
copies the window into a new array.

What a slice holds is not changed by appending to another one whose window ends later
(`read_append_other`), whether that one stays in its array or moves. Slices that lie apart, so
that neither can grow into the other, may be appended to and overwritten in any order
(`read_append_apart`, `read_overwrite_apart`).
-/

set_option autoImplicit false

namespace OsmMini.Foundations.Slices

variable {α : Type*}

/-- The arrays in the order in which they were made, each with all its cells. -/
abbrev Memory (α : Type*) := List (List α)

/-- A window from `start` to `stop`, which may grow up to `bound`. -/
structure Slice where
  array : ℕ
  start : ℕ
  stop : ℕ
  bound : ℕ
  deriving DecidableEq, Repr

namespace Slice

def length (s : Slice) : ℕ := s.stop - s.start

/-- The slice from `first` to `last` of a slice, that cannot grow in place. -/
def sub (s : Slice) (first last : ℕ) : Slice :=
  ⟨s.array, s.start + first, s.start + last, s.start + last⟩

end Slice

def cells (memory : Memory α) (s : Slice) : List α := memory.getD s.array []

/-- What a slice holds. -/
def read (memory : Memory α) (s : Slice) : List α := ((cells memory s).take s.stop).drop s.start

/-- An empty slice with room for a number of values. -/
def make (memory : Memory α) (zero : α) (room : ℕ) : Memory α × Slice :=
  (memory ++ [List.replicate room zero], ⟨memory.length, 0, 0, room⟩)

/-- Put values over those that stand at a place. -/
def splice (l : List α) (place : ℕ) (values : List α) : List α :=
  l.take place ++ values ++ l.drop (place + values.length)

def append (memory : Memory α) (s : Slice) (values : List α) : Memory α × Slice :=
  if s.stop + values.length ≤ s.bound then
    (memory.set s.array (splice (cells memory s) s.stop values),
      { s with stop := s.stop + values.length })
  else
    let moved := read memory s ++ values
    (memory ++ [moved], ⟨memory.length, 0, moved.length, moved.length⟩)

/-- A slice into an array that there is. -/
structure Valid (memory : Memory α) (s : Slice) : Prop where
  known : s.array < memory.length
  ordered : s.start ≤ s.stop
  bounded : s.stop ≤ s.bound
  inside : s.bound ≤ (cells memory s).length

theorem length_splice {l values : List α} {place : ℕ} (fits : place + values.length ≤ l.length) :
    (splice l place values).length = l.length := by
  rw [splice, List.length_append, List.length_append, List.length_take, List.length_drop]
  omega

theorem cells_set {memory : Memory α} {s : Slice} (known : s.array < memory.length)
    (l : List α) : cells (memory.set s.array l) s = l := by
  rw [cells, List.getD_eq_getElem?_getD, List.getElem?_set_self known, Option.getD_some]

theorem cells_set_other (memory : Memory α) {s t : Slice} (other : t.array ≠ s.array)
    (l : List α) : cells (memory.set s.array l) t = cells memory t := by
  rw [cells, cells, List.getD_eq_getElem?_getD, List.getD_eq_getElem?_getD,
    List.getElem?_set_ne other.symm]

theorem cells_append_old {memory : Memory α} {t : Slice} (known : t.array < memory.length)
    (l : List α) : cells (memory ++ [l]) t = cells memory t := by
  rw [cells, cells, List.getD_eq_getElem?_getD, List.getD_eq_getElem?_getD,
    List.getElem?_append_left known]

theorem cells_append_new (memory : Memory α) (l : List α) (start stop bound : ℕ) :
    cells (memory ++ [l]) ⟨memory.length, start, stop, bound⟩ = l := by
  rw [cells, List.getD_eq_getElem?_getD, List.getElem?_concat_length, Option.getD_some]

theorem length_read {memory : Memory α} {s : Slice} (valid : Valid memory s) :
    (read memory s).length = s.length := by
  rw [read, List.length_drop, List.length_take, Slice.length]
  have inside := valid.inside
  have bounded := valid.bounded
  omega

theorem valid_make (memory : Memory α) (zero : α) (room : ℕ) :
    Valid (make memory zero room).1 (make memory zero room).2 ∧
      read (make memory zero room).1 (make memory zero room).2 = [] := by
  refine ⟨⟨?_, le_refl _, Nat.zero_le _, ?_⟩, rfl⟩
  · rw [make, List.length_append]
    exact Nat.lt_succ_self _
  · rw [make, cells_append_new, List.length_replicate]

/-- Appending in place: the slice grows, and only cells behind its window are written. -/
theorem append_in_place {memory : Memory α} {s : Slice} {values : List α}
    (room : s.stop + values.length ≤ s.bound) :
    append memory s values = (memory.set s.array (splice (cells memory s) s.stop values),
      ⟨s.array, s.start, s.stop + values.length, s.bound⟩) :=
  if_pos room

/-- Appending without room: the values move to a new array. -/
theorem append_moved {memory : Memory α} {s : Slice} {values : List α}
    (full : ¬ s.stop + values.length ≤ s.bound) :
    append memory s values = (memory ++ [read memory s ++ values],
      ⟨memory.length, 0, (read memory s ++ values).length,
        (read memory s ++ values).length⟩) :=
  if_neg full

/-- **Appending keeps what a slice holds and adds the values.** -/
theorem read_append {memory : Memory α} {s : Slice} (valid : Valid memory s) (values : List α) :
    Valid (append memory s values).1 (append memory s values).2 ∧
      read (append memory s values).1 (append memory s values).2 = read memory s ++ values := by
  obtain ⟨known, ordered, bounded, inside⟩ := valid
  by_cases room : s.stop + values.length ≤ s.bound
  · rw [append_in_place room]
    have fits : s.stop + values.length ≤ (cells memory s).length := room.trans inside
    have same : cells (memory.set s.array (splice (cells memory s) s.stop values))
        ⟨s.array, s.start, s.stop + values.length, s.bound⟩ =
          splice (cells memory s) s.stop values := cells_set known _
    refine ⟨⟨?_, ordered.trans (Nat.le_add_right _ _), room, ?_⟩, ?_⟩
    · rw [List.length_set]
      exact known
    · rw [same, length_splice fits]
      exact inside
    · have window : ((cells memory s).take s.stop).length = s.stop := by
        rw [List.length_take]
        omega
      have front : ((cells memory s).take s.stop ++ values).length = s.stop + values.length := by
        rw [List.length_append, window]
      have held : (splice (cells memory s) s.stop values).take (s.stop + values.length) =
          (cells memory s).take s.stop ++ values := by
        rw [splice, ← front, List.take_left]
      rw [read, read, same]
      change ((splice _ _ _).take (s.stop + values.length)).drop s.start = _
      rw [held, List.drop_append_of_le_length (by rw [window]; exact ordered)]
  · rw [append_moved room]
    refine ⟨⟨?_, Nat.zero_le _, le_refl _, ?_⟩, ?_⟩
    · change memory.length < (memory ++ [_]).length
      rw [List.length_append]
      exact Nat.lt_succ_self _
    · rw [cells_append_new]
    · change ((cells _ _).take _).drop 0 = _
      rw [cells_append_new, List.take_length, List.drop_zero]

/-- A window that ends before a slice does, if it is one into the same array. -/
def Before (t s : Slice) : Prop := t.array = s.array → t.stop ≤ s.stop

/-- **Appending to a slice leaves the windows that end before.** -/
theorem read_append_other {memory : Memory α} {s t : Slice} (valid : Valid memory s)
    (other : Valid memory t) (before : Before t s) (values : List α) :
    Valid (append memory s values).1 t ∧ Before t (append memory s values).2 ∧
      read (append memory s values).1 t = read memory t := by
  obtain ⟨known, ordered, bounded, inside⟩ := valid
  by_cases room : s.stop + values.length ≤ s.bound
  · rw [append_in_place room]
    have later : Before t ⟨s.array, s.start, s.stop + values.length, s.bound⟩ :=
      fun shared => (before shared).trans (Nat.le_add_right _ _)
    have fits : s.stop + values.length ≤ (cells memory s).length := room.trans inside
    by_cases shared : t.array = s.array
    · have cellsT : cells memory t = cells memory s := by rw [cells, cells, shared]
      have same : cells (memory.set s.array (splice (cells memory s) s.stop values)) t =
          splice (cells memory s) s.stop values := by
        rw [← shared]
        exact cells_set other.known _
      refine ⟨⟨?_, other.ordered, other.bounded, ?_⟩, later, ?_⟩
      · rw [List.length_set]
        exact other.known
      · rw [same, length_splice fits, ← cellsT]
        exact other.inside
      · have stop := before shared
        have window : t.stop ≤ ((cells memory s).take s.stop).length := by
          rw [List.length_take]
          omega
        rw [read, read, same, cellsT, splice, List.append_assoc,
          List.take_append_of_le_length window, List.take_take, min_eq_left stop]
    · have same := cells_set_other memory shared (splice (cells memory s) s.stop values)
      refine ⟨⟨?_, other.ordered, other.bounded, ?_⟩, later, ?_⟩
      · rw [List.length_set]
        exact other.known
      · rw [same]
        exact other.inside
      · rw [read, read, same]
  · rw [append_moved room]
    have same := cells_append_old other.known (read memory s ++ values)
    refine ⟨⟨?_, other.ordered, other.bounded, ?_⟩, fun shared => ?_, ?_⟩
    · rw [List.length_append]
      exact Nat.lt_add_right _ other.known
    · rw [same]
      exact other.inside
    · exact absurd shared other.known.ne
    · simp only [read] at same ⊢
      rw [same]

/-- A part of a slice holds a part of its values. -/
theorem read_sub {memory : Memory α} {s : Slice} (valid : Valid memory s) {first : ℕ}
    (within : first ≤ s.length) :
    Valid memory (s.sub first s.length) ∧
      read memory (s.sub first s.length) = (read memory s).drop first := by
  obtain ⟨known, ordered, bounded, inside⟩ := valid
  rw [Slice.length] at within
  have stop : s.start + s.length = s.stop := by
    rw [Slice.length]
    omega
  refine ⟨⟨known, ?_, le_refl _, ?_⟩, ?_⟩
  · rw [Slice.sub, stop]
    change s.start + first ≤ s.stop
    omega
  · rw [Slice.sub, stop]
    exact bounded.trans inside
  · rw [read, read, Slice.sub, stop, List.drop_drop]
    rfl

/-! ## Slices that lie apart -/

/-- Neither slice can grow into the other. -/
def Apart (s t : Slice) : Prop := s.array = t.array → s.bound ≤ t.start ∨ t.bound ≤ s.start

theorem Apart.symm {s t : Slice} (apart : Apart s t) : Apart t s :=
  fun shared => (apart shared.symm).symm

theorem getElem?_splice {l values : List α} {place : ℕ} (fits : place + values.length ≤ l.length)
    (i : ℕ) : (splice l place values)[i]? =
      if place ≤ i ∧ i < place + values.length then values[i - place]? else l[i]? := by
  have front : (l.take place).length = place := by
    rw [List.length_take]
    omega
  rw [splice]
  rcases Nat.lt_or_ge i place with before | from_
  · rw [if_neg (by omega), List.append_assoc, List.getElem?_append_left (by omega),
      List.getElem?_take_of_lt before]
  · rcases Nat.lt_or_ge i (place + values.length) with inside | behind
    · rw [if_pos ⟨from_, inside⟩, List.getElem?_append_left (by rw [List.length_append]; omega),
        List.getElem?_append_right (by omega), front]
    · rw [if_neg (by omega), List.getElem?_append_right (by rw [List.length_append]; omega),
        List.getElem?_drop, List.length_append, front]
      congr 1
      omega

/-- A window that does not meet the place where values are put is not changed. -/
theorem window_splice {l values : List α} {place start stop : ℕ}
    (fits : place + values.length ≤ l.length)
    (apart : stop ≤ place ∨ place + values.length ≤ start) :
    ((splice l place values).take stop).drop start = (l.take stop).drop start := by
  refine List.ext_getElem? fun i => ?_
  rw [List.getElem?_drop, List.getElem?_drop, List.getElem?_take, List.getElem?_take]
  by_cases inside : start + i < stop
  · rw [if_pos inside, if_pos inside, getElem?_splice fits, if_neg (by omega)]
  · rw [if_neg inside, if_neg inside]

/-- Putting values over cells of one slice keeps a slice that the cells do not belong to. -/
theorem read_splice_apart {memory : Memory α} {s t : Slice} {values : List α} {place : ℕ}
    (fits : place + values.length ≤ (cells memory s).length) (other : Valid memory t)
    (apart : s.array = t.array → t.stop ≤ place ∨ place + values.length ≤ t.start) :
    Valid (memory.set s.array (splice (cells memory s) place values)) t ∧
      read (memory.set s.array (splice (cells memory s) place values)) t = read memory t := by
  have known : t.array < (memory.set s.array (splice (cells memory s) place values)).length := by
    rw [List.length_set]
    exact other.known
  by_cases shared : s.array = t.array
  · have cellsT : cells memory t = cells memory s := by rw [cells, cells, shared]
    have same : cells (memory.set s.array (splice (cells memory s) place values)) t =
        splice (cells memory s) place values := by
      rw [shared]
      exact cells_set other.known _
    refine ⟨⟨known, other.ordered, other.bounded, ?_⟩, ?_⟩
    · rw [same, length_splice fits, ← cellsT]
      exact other.inside
    · rw [read, read, same, cellsT, window_splice fits (apart shared)]
  · have same := cells_set_other memory (Ne.symm shared) (splice (cells memory s) place values)
    refine ⟨⟨known, other.ordered, other.bounded, ?_⟩, ?_⟩
    · rw [same]
      exact other.inside
    · rw [read, read, same]

/-- **Appending to a slice leaves the slices that lie apart, and stays apart from them.** -/
theorem read_append_apart {memory : Memory α} {s t : Slice} (valid : Valid memory s)
    (other : Valid memory t) (apart : Apart s t) (values : List α) :
    Valid (append memory s values).1 t ∧ Apart (append memory s values).2 t ∧
      read (append memory s values).1 t = read memory t := by
  by_cases room : s.stop + values.length ≤ s.bound
  · rw [append_in_place room]
    have kept := read_splice_apart (room.trans valid.inside) other fun shared => by
      have ordered := valid.ordered
      have bounded := other.bounded
      rcases apart shared with before | behind
      · exact Or.inr (room.trans before)
      · exact Or.inl (by omega)
    exact ⟨kept.1, apart, kept.2⟩
  · rw [append_moved room]
    have same := cells_append_old other.known (read memory s ++ values)
    refine ⟨⟨?_, other.ordered, other.bounded, ?_⟩, fun shared => ?_, ?_⟩
    · rw [List.length_append]
      exact Nat.lt_add_right _ other.known
    · rw [same]
      exact other.inside
    · exact absurd shared.symm other.known.ne
    · simp only [read] at same ⊢
      rw [same]

/-- Put other values over those that a slice holds. -/
def overwrite (memory : Memory α) (s : Slice) (values : List α) : Memory α :=
  memory.set s.array (splice (cells memory s) s.start values)

/-- A slice that is overwritten with as many values as it holds keeps the first ones of them
when it is cut. -/
theorem read_overwrite {memory : Memory α} {s : Slice} (valid : Valid memory s) {values : List α}
    (size : values.length = s.length) {kept : ℕ} (within : kept ≤ s.length) :
    Valid (overwrite memory s values) (s.sub 0 kept) ∧
      read (overwrite memory s values) (s.sub 0 kept) = values.take kept := by
  obtain ⟨known, ordered, bounded, inside⟩ := valid
  rw [Slice.length] at size within
  have fits : s.start + values.length ≤ (cells memory s).length := by omega
  have same : cells (overwrite memory s values) (s.sub 0 kept) =
      splice (cells memory s) s.start values := cells_set known _
  refine ⟨⟨?_, ?_, le_refl _, ?_⟩, ?_⟩
  · rw [overwrite, List.length_set]
    exact known
  · change s.start + 0 ≤ s.start + kept
    omega
  · rw [same, length_splice fits]
    change s.start + kept ≤ _
    omega
  · rw [read, same]
    change ((splice _ _ _).take (s.start + kept)).drop (s.start + 0) = _
    refine List.ext_getElem? fun i => ?_
    rw [List.getElem?_drop, List.getElem?_take, List.getElem?_take, getElem?_splice fits]
    by_cases early : i < kept
    · rw [if_pos (by omega), if_pos (by omega), if_pos early]
      congr 1
      omega
    · rw [if_neg (by omega), if_neg early]

/-- **Overwriting a slice leaves the slices that lie apart.** -/
theorem read_overwrite_apart {memory : Memory α} {s t : Slice} (valid : Valid memory s)
    (other : Valid memory t) (apart : Apart s t) {values : List α}
    (size : values.length = s.length) :
    Valid (overwrite memory s values) t ∧
      read (overwrite memory s values) t = read memory t := by
  have ordered := valid.ordered
  have bounded := valid.bounded
  have inside := valid.inside
  rw [Slice.length] at size
  refine read_splice_apart (by omega) other fun shared => ?_
  have bounded' := other.bounded
  rcases apart shared with before | behind
  · exact Or.inr (by omega)
  · exact Or.inl (by omega)

/-- A part of a slice lies apart from what the slice lies apart from. -/
theorem Apart.sub {s t : Slice} (apart : Apart s t) {first last : ℕ}
    (within : s.start + last ≤ s.bound) : Apart (s.sub first last) t := by
  intro shared
  rcases apart shared with before | behind
  · exact Or.inl (within.trans before)
  · exact Or.inr (behind.trans (Nat.le_add_right _ _))

end OsmMini.Foundations.Slices

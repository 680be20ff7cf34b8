import Mathlib

/-!
# Windows over a byte string

A reader keeps part of a file in a buffer and serves later reads from it. The buffer
shows a range of the file when its front holds exactly that range (`Shows`); a smaller
range is then read from the buffer as from the file (`Shows.portion`). Filling the front
of a buffer leaves what is behind it as it was.

Blocks of different sizes that are laid one after the other are found by their starts.
-/

set_option autoImplicit false

namespace OsmMini.Foundations

variable {α : Type*}

/-- The elements of a list from an offset on, at most as many as `length`. -/
def portion (data : List α) (offset length : ℕ) : List α := (data.drop offset).take length

theorem portion_length {data : List α} {offset length : ℕ} (inside : offset + length ≤ data.length) :
    (portion data offset length).length = length := by
  rw [portion, List.length_take, List.length_drop]
  omega

theorem portion_zero (data : List α) (length : ℕ) : portion data 0 length = data.take length := rfl

/-- A range of a range. -/
theorem portion_portion {data : List α} {at' size offset length : ℕ}
    (inside : offset + length ≤ size) :
    portion (portion data at' size) offset length = portion data (at' + offset) length := by
  rw [portion, portion, portion, List.drop_take, List.take_take, min_eq_left (by omega), List.drop_drop]

/-- A range is put together from two that meet. -/
theorem portion_append_portion (data : List α) (offset first second : ℕ) :
    portion data offset first ++ portion data (offset + first) second =
      portion data offset (first + second) := by
  rw [portion, portion, portion, ← List.drop_drop, List.take_add]

theorem portion_append_right {first second : List α} {offset length : ℕ}
    (past : first.length ≤ offset) :
    portion (first ++ second) offset length = portion second (offset - first.length) length := by
  rw [portion, portion, List.drop_append, List.drop_eq_nil_of_le past, List.nil_append]

theorem portion_append_left {first second : List α} {offset length : ℕ}
    (inside : offset + length ≤ first.length) :
    portion (first ++ second) offset length = portion first offset length := by
  rw [portion, portion, List.drop_append_of_le_length (by omega), List.take_append_of_le_length]
  rw [List.length_drop]
  omega

/-- What stands between two parts. -/
theorem portion_middle (before here after : List α) :
    portion (before ++ here ++ after) before.length here.length = here := by
  rw [List.append_assoc, portion, List.drop_left, List.take_left]

/-! ## Buffers -/

/-- Fill the front of a buffer. -/
def overwrite (buffer new : List α) : List α := new ++ buffer.drop new.length

theorem overwrite_length {buffer new : List α} (fits : new.length ≤ buffer.length) :
    (overwrite buffer new).length = buffer.length := by
  rw [overwrite, List.length_append, List.length_drop]
  omega

/-- The front of the buffer holds a range of the data. -/
structure Shows (buffer data : List α) (start size : ℕ) : Prop where
  inside : start + size ≤ data.length
  same : buffer.take size = portion data start size

theorem shows_nothing (buffer data : List α) : Shows buffer data 0 0 :=
  ⟨Nat.zero_le _, rfl⟩

/-- A buffer that was filled with a range shows it. -/
theorem shows_overwrite {buffer data : List α} {start size : ℕ}
    (inside : start + size ≤ data.length) :
    Shows (overwrite buffer (portion data start size)) data start size := by
  refine ⟨inside, ?_⟩
  rw [overwrite, List.take_append_of_le_length (portion_length inside).ge,
    List.take_of_length_le (portion_length inside).le]

/-- **What a buffer shows is read from it as from the data.** -/
theorem Shows.portion {buffer data : List α} {start size offset length : ℕ}
    (shown : Shows buffer data start size) (low : start ≤ offset)
    (high : offset + length ≤ start + size) :
    portion buffer (offset - start) length = portion data offset length := by
  calc Foundations.portion buffer (offset - start) length
      = Foundations.portion (Foundations.portion buffer 0 size) (offset - start) length := by
        rw [portion_portion (by omega), Nat.zero_add]
    _ = Foundations.portion (Foundations.portion data start size) (offset - start) length := by
        rw [portion_zero, shown.same]
    _ = Foundations.portion data offset length := by
        rw [portion_portion (by omega), Nat.add_sub_cancel' low]

/-! ## Blocks one after the other -/

/-- Where a block starts among blocks that are laid one after the other. -/
def startOf (blocks : List (List α)) (i : ℕ) : ℕ := ((blocks.take i).map List.length).sum

@[simp] theorem startOf_zero (blocks : List (List α)) : startOf blocks 0 = 0 := rfl

theorem startOf_cons (block : List α) (blocks : List (List α)) (i : ℕ) :
    startOf (block :: blocks) (i + 1) = block.length + startOf blocks i := by
  rw [startOf, List.take_succ_cons, List.map_cons, List.sum_cons, startOf]

theorem startOf_succ : ∀ {blocks : List (List α)} {i : ℕ} {block : List α},
    blocks[i]? = some block → startOf blocks (i + 1) = startOf blocks i + block.length
  | [], _, _, found => by simp at found
  | first :: blocks, 0, block, found => by
      obtain rfl : first = block := by simpa using found
      rw [startOf_cons, startOf_zero, startOf_zero, Nat.add_comm]
  | first :: blocks, i + 1, block, found => by
      rw [startOf_cons, startOf_cons, startOf_succ (by simpa using found), Nat.add_assoc]

theorem startOf_length (blocks : List (List α)) :
    startOf blocks blocks.length = blocks.flatten.length := by
  rw [startOf, List.take_length, List.length_flatten]

theorem startOf_le (blocks : List (List α)) (i : ℕ) : startOf blocks i ≤ blocks.flatten.length := by
  rw [startOf, List.length_flatten]
  exact ((List.take_sublist i blocks).map _).sum_le_sum fun _ _ => Nat.zero_le _

/-- **A block is the range that starts where it was laid.** -/
theorem portion_flatten : ∀ {blocks : List (List α)} {i : ℕ} {block : List α},
    blocks[i]? = some block → portion blocks.flatten (startOf blocks i) block.length = block
  | [], _, _, found => by simp at found
  | first :: blocks, 0, block, found => by
      obtain rfl : first = block := by simpa using found
      rw [List.flatten_cons, startOf_zero, portion, List.drop_zero, List.take_left]
  | first :: blocks, i + 1, block, found => by
      rw [List.flatten_cons, startOf_cons, portion_append_right (Nat.le_add_right ..),
        Nat.add_sub_cancel_left]
      exact portion_flatten (by simpa using found)

theorem startOf_add_le {blocks : List (List α)} {i : ℕ} {block : List α}
    (found : blocks[i]? = some block) :
    startOf blocks i + block.length ≤ blocks.flatten.length := by
  rw [← startOf_succ found]
  exact startOf_le blocks (i + 1)

/-- A block among blocks that are laid behind a header and before a directory. -/
theorem portion_laid {header : List α} {blocks : List (List α)} {directory : List α} {i : ℕ}
    {block : List α} (found : blocks[i]? = some block) :
    portion (header ++ blocks.flatten ++ directory) (header.length + startOf blocks i)
      block.length = block := by
  have inside := startOf_add_le found
  rw [List.append_assoc, portion_append_right (Nat.le_add_right ..), Nat.add_sub_cancel_left,
    portion_append_left inside, portion_flatten found]

/-- Blocks of one size start at its multiples. -/
theorem startOf_of_size {size : ℕ} : ∀ {blocks : List (List α)} {i : ℕ},
    (∀ j < i, ∀ block, blocks[j]? = some block → block.length = size) → i ≤ blocks.length →
    startOf blocks i = i * size
  | _, 0, _, _ => by rw [startOf_zero, Nat.zero_mul]
  | [], i + 1, _, few => absurd few (Nat.not_succ_le_zero i)
  | first :: blocks, i + 1, sized, few => by
      have one : first.length = size := sized 0 (Nat.succ_pos i) first rfl
      rw [startOf_cons, one, startOf_of_size (fun j less block found =>
        sized (j + 1) (Nat.succ_lt_succ less) block found) (Nat.le_of_succ_le_succ few),
        Nat.succ_mul, Nat.add_comm]

/-- An entry of a directory of entries of one size, behind what is laid before it. -/
theorem portion_entry {before : List α} {entries : List (List α)} {size i : ℕ} {entry : List α}
    (sized : ∀ e ∈ entries, e.length = size) (found : entries[i]? = some entry) :
    portion (before ++ entries.flatten) (before.length + i * size) size = entry := by
  have start : startOf entries i = i * size :=
    startOf_of_size (fun j _ e here => sized e (List.mem_of_getElem? here))
      (List.getElem?_eq_some_iff.mp found).1.le
  have here := portion_flatten found
  rw [start, sized entry (List.mem_of_getElem? found)] at here
  rw [portion_append_right (Nat.le_add_right ..), Nat.add_sub_cancel_left, here]

theorem length_flatten_of_size {entries : List (List α)} {size : ℕ}
    (sized : ∀ e ∈ entries, e.length = size) : entries.flatten.length = entries.length * size := by
  rw [List.length_flatten, List.map_congr_left sized, List.map_const', List.sum_replicate,
    smul_eq_mul]

/-! ## Blocks of one size -/

/-- A list cut into blocks of one size, the last of which may be shorter. -/
def blocksOf (size : ℕ) (data : List α) : List (List α) :=
  (List.range ((data.length + size - 1) / size)).map fun i => portion data (i * size) size

@[simp] theorem blocksOf_length (size : ℕ) (data : List α) :
    (blocksOf size data).length = (data.length + size - 1) / size := by
  rw [blocksOf, List.length_map, List.length_range]

theorem blocksOf_getElem {size : ℕ} {data : List α} {i : ℕ} (inside : i < (blocksOf size data).length) :
    (blocksOf size data)[i]? = some (portion data (i * size) size) := by
  rw [blocksOf_length] at inside
  rw [blocksOf, List.getElem?_map, List.getElem?_range inside]
  rfl

/-- A block starts inside the list. -/
theorem blocksOf_start {size : ℕ} (positive : 0 < size) {data : List α} {i : ℕ}
    (inside : i < (blocksOf size data).length) : i * size < data.length := by
  rw [blocksOf_length, Nat.lt_div_iff_mul_lt positive] at inside
  omega

/-- **The blocks from one on hold the list from its start on.** -/
theorem flatten_drop_blocksOf {size : ℕ} (positive : 0 < size) (data : List α) (k : ℕ) :
    ((blocksOf size data).drop k).flatten = data.drop (k * size) := by
  generalize left : (blocksOf size data).length - k = rounds
  induction rounds generalizing k with
  | zero =>
      have past : data.length ≤ k * size := by
        rw [blocksOf_length] at left
        have whole := Nat.lt_div_mul_add (a := data.length + size - 1) positive
        have le : (data.length + size - 1) / size * size ≤ k * size :=
          Nat.mul_le_mul_right _ (by omega)
        omega
      rw [List.drop_eq_nil_of_le (by omega), List.drop_eq_nil_of_le past, List.flatten_nil]
  | succ rounds ih =>
      have inside : k < (blocksOf size data).length := by omega
      have here := blocksOf_getElem inside
      rw [List.getElem?_eq_getElem inside] at here
      rw [List.drop_eq_getElem_cons inside, List.flatten_cons, ih (k + 1) (by omega),
        Option.some.inj here, portion, Nat.succ_mul, ← List.drop_drop, List.take_append_drop]

theorem flatten_blocksOf {size : ℕ} (positive : 0 < size) (data : List α) :
    (blocksOf size data).flatten = data := by
  have all := flatten_drop_blocksOf positive data 0
  rwa [List.drop_zero, Nat.zero_mul, List.drop_zero] at all

/-- Blocks of one size, of which the last may be shorter but none is empty. -/
def Blocked (size : ℕ) (blocks : List (List α)) : Prop :=
  ∀ (i : ℕ) (block : List α), blocks[i]? = some block →
    0 < block.length ∧ block.length ≤ size ∧ (i + 1 < blocks.length → block.length = size)

section Blocked

variable {size : ℕ} {blocks : List (List α)}

theorem Blocked.startOf (blocked : Blocked size blocks) {i : ℕ} (inside : i < blocks.length) :
    startOf blocks i = i * size :=
  startOf_of_size (fun j less block found => (blocked j block found).2.2 (by omega)) inside.le

/-- A block that does not reach the end of the list is full. -/
theorem Blocked.portion (blocked : Blocked size blocks) {i : ℕ} {block : List α}
    (found : blocks[i]? = some block) :
    portion blocks.flatten (i * size) size = block := by
  have inside : i < blocks.length := (List.getElem?_eq_some_iff.mp found).1
  have here := portion_flatten found
  rw [blocked.startOf inside] at here
  obtain ⟨-, short, full⟩ := blocked i block found
  by_cases last : i + 1 < blocks.length
  · rw [full last] at here
    exact here
  · have ends : blocks.flatten.length = i * size + block.length := by
      have total := startOf_succ found
      rw [blocked.startOf inside, show i + 1 = blocks.length by omega, startOf_length] at total
      exact total
    rw [Foundations.portion, List.take_of_length_le (by rw [List.length_drop]; omega)] at here ⊢
    exact here

/-- **Blocks of one size are what their concatenation is cut into.** -/
theorem Blocked.blocksOf (blocked : Blocked size blocks) : blocksOf size blocks.flatten = blocks := by
  have count : (blocks.flatten.length + size - 1) / size = blocks.length := by
    rcases Nat.eq_zero_or_pos blocks.length with none | nonempty
    · rw [List.length_eq_zero_iff.mp none, List.flatten_nil, List.length_nil]
      rcases Nat.eq_zero_or_pos size with rfl | positive
      · exact Nat.div_zero _
      · exact Nat.div_eq_of_lt (by omega)
    · obtain ⟨last, found⟩ : ∃ last, blocks[blocks.length - 1]? = some last :=
        ⟨_, List.getElem?_eq_getElem (by omega)⟩
      obtain ⟨positive, short, -⟩ := blocked _ last found
      have total := startOf_succ found
      rw [Nat.sub_add_cancel nonempty, startOf_length,
        blocked.startOf (Nat.sub_lt nonempty one_pos)] at total
      rw [total, Nat.div_eq_of_lt_le]
      · rw [Nat.sub_one_mul]
        have whole : size ≤ blocks.length * size := Nat.le_mul_of_pos_left _ nonempty
        omega
      · rw [Nat.succ_mul, Nat.sub_one_mul]
        have whole : size ≤ blocks.length * size := Nat.le_mul_of_pos_left _ nonempty
        omega
  refine List.ext_getElem? fun i => ?_
  rw [Foundations.blocksOf, count, List.getElem?_map]
  by_cases inside : i < blocks.length
  · have found := List.getElem?_eq_getElem inside
    rw [List.getElem?_range inside, Option.map_some, blocked.portion found, found]
  · rw [List.getElem?_eq_none (not_lt.mp inside), List.getElem?_eq_none]
    · rfl
    · rw [List.length_range]
      exact not_lt.mp inside

theorem Blocked.nil : Blocked size ([] : List (List α)) := fun i block found => by simp at found

/-- After full blocks one more may be laid, full or not. -/
theorem Blocked.append {block : List α} (full : ∀ b ∈ blocks, b.length = size)
    (nonempty : 0 < block.length) (short : block.length ≤ size) :
    Blocked size (blocks ++ [block]) := by
  intro i b found
  rcases lt_or_ge i blocks.length with inside | past
  · rw [List.getElem?_append_left inside] at found
    have length := full b (List.mem_of_getElem? found)
    exact ⟨by omega, length.le, fun _ => length⟩
  · rw [List.getElem?_append_right past] at found
    have here : i - blocks.length < [block].length := (List.getElem?_eq_some_iff.mp found).1
    rw [List.length_singleton] at here
    rw [show i - blocks.length = 0 by omega, List.getElem?_cons_zero] at found
    obtain rfl := Option.some.inj found
    refine ⟨nonempty, short, fun later => ?_⟩
    rw [List.length_append, List.length_singleton] at later
    omega

theorem Blocked.of_full (positive : 0 < size) (full : ∀ b ∈ blocks, b.length = size) :
    Blocked size blocks := fun i b found => by
  have length := full b (List.mem_of_getElem? found)
  exact ⟨by omega, length.le, fun _ => length⟩

end Blocked

end OsmMini.Foundations

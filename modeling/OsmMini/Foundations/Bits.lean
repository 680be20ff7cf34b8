import Mathlib

/-!
# Sets of small numbers as masks

A mask is the set of the positions of its bits, which `Nat.bitIndices` lists in
ascending order. A table that keeps one cell for each pair of a mask and one of its
members numbers the cells of a mask in a row, the rows one after the other: the cell
of a member is the number of cells in earlier rows plus its rank in the mask. No two
pairs share a cell (`cell_inj`).
-/

set_option autoImplicit false

namespace OsmMini.Foundations.Bits

/-! ## Masks -/

/-- The number of bits of a mask. -/
def onesCount (x : ℕ) : ℕ := x.bitIndices.length

/-- The bits of `x` that are not bits of `y`. -/
def andNot (x y : ℕ) : ℕ := x &&& (x ^^^ y)

theorem testBit_andNot (x y i : ℕ) : (andNot x y).testBit i = (x.testBit i && !y.testBit i) := by
  rw [andNot, Nat.testBit_and, Nat.testBit_xor]
  cases x.testBit i <;> cases y.testBit i <;> rfl

theorem testBit_lt {x n i : ℕ} (small : x < 2 ^ n) (bit : x.testBit i = true) : i < n := by
  by_contra past
  rw [Nat.testBit_eq_false_of_lt (small.trans_le (Nat.pow_le_pow_right (by decide)
    (not_lt.mp past)))] at bit
  cases bit

theorem testBit_two_pow_iff {i j : ℕ} : (2 ^ i).testBit j = true ↔ j = i := by
  rw [Nat.testBit_two_pow]
  simp [eq_comm]

/-- Every bit of `y` is a bit of `x`. -/
theorem and_eq_iff {x y : ℕ} : x &&& y = y ↔ ∀ i, y.testBit i = true → x.testBit i = true := by
  constructor
  · intro same i bit
    have both := congrArg (fun z => z.testBit i) same
    simp only [Nat.testBit_and, bit, Bool.and_true] at both
    exact both
  · intro contained
    refine Nat.eq_of_testBit_eq fun i => ?_
    rw [Nat.testBit_and]
    cases bit : y.testBit i with
    | false => rw [Bool.and_false]
    | true => rw [contained i bit, Bool.and_true]

/-- Two masks of the same bits are the same. -/
theorem ext {x y : ℕ} (same : ∀ i, x.testBit i = true ↔ y.testBit i = true) : x = y :=
  Nat.eq_of_testBit_eq fun i => Bool.eq_iff_iff.mpr (same i)

/-- The bits below a position, in ascending order. -/
theorem bitIndices_below (x i : ℕ) :
    (x &&& (2 ^ i - 1)).bitIndices = x.bitIndices.filter (· < i) := by
  refine List.Perm.eq_of_pairwise (fun a b _ _ lt gt => absurd gt lt.not_gt)
    Nat.bitIndices_sorted.pairwise (Nat.bitIndices_sorted.pairwise.filter _) ?_
  refine (List.perm_ext_iff_of_nodup Nat.bitIndices_nodup (Nat.bitIndices_nodup.filter _)).mpr ?_
  intro j
  rw [List.mem_filter, Nat.mem_bitIndices, Nat.mem_bitIndices, Nat.testBit_and,
    Nat.testBit_two_pow_sub_one, Bool.and_eq_true]

/-- The number of bits of a mask below a position. -/
def rank (x i : ℕ) : ℕ := onesCount (x &&& (2 ^ i - 1))

theorem rank_eq (x i : ℕ) : rank x i = x.bitIndices.countP (· < i) := by
  rw [rank, onesCount, bitIndices_below, List.countP_eq_length_filter]

/-- The rank of the bit at a place in the ascending order is that place. -/
theorem rank_getElem {x k : ℕ} (inside : k < x.bitIndices.length) : rank x x.bitIndices[k] = k := by
  have sorted := (Nat.bitIndices_sorted (n := x)).pairwise
  have before : (x.bitIndices.take k).countP (· < x.bitIndices[k]) = k := by
    rw [List.countP_eq_length.mpr, List.length_take, min_eq_left inside.le]
    intro a member
    obtain ⟨i, small, rfl⟩ := List.getElem_of_mem member
    rw [List.length_take] at small
    rw [List.getElem_take, decide_eq_true_iff]
    exact List.pairwise_iff_getElem.mp sorted i k (by omega) inside (by omega)
  have after : (x.bitIndices.drop k).countP (· < x.bitIndices[k]) = 0 := by
    rw [List.countP_eq_zero]
    intro a member
    obtain ⟨i, small, rfl⟩ := List.getElem_of_mem member
    rw [List.length_drop] at small
    rw [List.getElem_drop, decide_eq_true_iff, not_lt]
    rcases Nat.eq_zero_or_pos i with rfl | positive
    · exact le_refl _
    · exact (List.pairwise_iff_getElem.mp sorted k (k + i) inside (by omega) (by omega)).le
  calc rank x x.bitIndices[k]
      = (x.bitIndices.take k ++ x.bitIndices.drop k).countP (· < x.bitIndices[k]) := by
        rw [List.take_append_drop, rank_eq]
    _ = k := by rw [List.countP_append, before, after, add_zero]

theorem rank_lt {x i : ℕ} (bit : x.testBit i = true) : rank x i < onesCount x := by
  obtain ⟨k, inside, rfl⟩ := List.getElem_of_mem (Nat.mem_bitIndices.mpr bit)
  rw [rank_getElem inside]
  exact inside

theorem rank_inj {x i j : ℕ} (first : x.testBit i = true) (second : x.testBit j = true)
    (same : rank x i = rank x j) : i = j := by
  obtain ⟨k, inside, rfl⟩ := List.getElem_of_mem (Nat.mem_bitIndices.mpr first)
  obtain ⟨l, inside', rfl⟩ := List.getElem_of_mem (Nat.mem_bitIndices.mpr second)
  rw [rank_getElem inside, rank_getElem inside'] at same
  subst same
  rfl

/-! ## One cell for each member of each mask -/

/-- The number of cells in the rows of the masks before `x`. -/
def offset (x : ℕ) : ℕ := ((List.range x).map onesCount).sum

theorem offset_succ (x : ℕ) : offset (x + 1) = offset x + onesCount x := by
  rw [offset, List.range_succ, List.map_append, List.sum_append, List.map_singleton,
    List.sum_singleton]
  rfl

theorem offset_mono {x y : ℕ} (le : x ≤ y) : offset x ≤ offset y := by
  induction y, le using Nat.le_induction with
  | base => exact le_refl _
  | succ y _ ih =>
      rw [offset_succ]
      omega

/-- The cell of a member of a mask. -/
def cell (x i : ℕ) : ℕ := offset x + rank x i

theorem cell_lt {x y i : ℕ} (row : x < y) (bit : x.testBit i = true) : cell x i < offset y := by
  have ranked := rank_lt bit
  have later := offset_mono row
  rw [offset_succ] at later
  unfold cell
  omega

/-- **No two members of masks share a cell.** -/
theorem cell_inj {x y i j : ℕ} (first : x.testBit i = true) (second : y.testBit j = true)
    (same : cell x i = cell y j) : x = y ∧ i = j := by
  rcases lt_trichotomy x y with less | rfl | more
  · have below := cell_lt less first
    unfold cell at same below
    omega
  · refine ⟨rfl, rank_inj first second ?_⟩
    unfold cell at same
    omega
  · have below := cell_lt more second
    unfold cell at same below
    omega

/-- A mask below a power of two has no more bits than the exponent. -/
theorem onesCount_le {x n : ℕ} (small : x < 2 ^ n) : onesCount x ≤ n := by
  have contained : x.bitIndices ⊆ List.range n := fun i member =>
    List.mem_range.mpr (testBit_lt small (Nat.mem_bitIndices.mp member))
  have le := (List.subperm_of_subset Nat.bitIndices_nodup contained).length_le
  rwa [List.length_range] at le

theorem offset_le (n : ℕ) : ∀ {x : ℕ}, x ≤ 2 ^ n → offset x ≤ x * n
  | 0, _ => Nat.zero_le _
  | x + 1, le => by
      have earlier := offset_le n (x := x) (by omega)
      have bits := onesCount_le (x := x) (n := n) (by omega)
      rw [offset_succ, Nat.succ_mul]
      omega

/-! ## Going over the bits -/

/-- The place of the lowest bit; a number without bits has as many zeros as it is wide. -/
def trailingZeros (width x : ℕ) : ℕ := x.bitIndices.headD width

/-- Clearing the lowest bit leaves the places of the others. -/
theorem bitIndices_and_pred (x : ℕ) : (x &&& (x - 1)).bitIndices = x.bitIndices.tail := by
  induction x using Nat.strong_induction_on with
  | _ x ih =>
  obtain ⟨n, even | odd⟩ := x.even_or_odd'
  · subst even
    rcases Nat.eq_zero_or_pos n with rfl | positive
    · rfl
    · have halves : 2 * n &&& (2 * n - 1) = 2 * (n &&& (n - 1)) := by
        have pred : 2 * n - 1 = 2 * (n - 1) + 1 := by omega
        rw [pred]
        exact Nat.land_bit false n true (n - 1)
      rw [halves, Nat.bitIndices_two_mul, Nat.bitIndices_two_mul, ih n (by omega), List.map_tail]
  · subst odd
    have even : 2 * n + 1 &&& (2 * n + 1 - 1) = 2 * n := by
      rw [Nat.add_sub_cancel]
      exact (Nat.land_bit true n false n).trans (by rw [Nat.and_self]; rfl)
    rw [even, Nat.bitIndices_two_mul, Nat.bitIndices_two_mul_add_one, List.tail_cons]

theorem and_pred_lt {x : ℕ} (nonzero : x ≠ 0) : x &&& (x - 1) < x :=
  Nat.and_le_right.trans_lt (by omega)

end OsmMini.Foundations.Bits

/-!
## Interleaved coordinates

The bits of two coordinates are interleaved to one number, the more significant bits
first. Leaving out the last bits of both coordinates leaves out the last digits of the
number to base four, so that the cells inside a larger cell have numbers next to each
other (`interleave_between_iff`).
-/

namespace OsmMini.Foundations.Morton

/-- The last bits of two coordinates, those of `y` in front of those of `x`. -/
def interleave : ℕ → ℕ → ℕ → ℕ
  | 0, _, _ => 0
  | bits + 1, x, y => 4 * interleave bits (x / 2) (y / 2) + (2 * (y % 2) + x % 2)

theorem interleave_lt : ∀ bits x y : ℕ, interleave bits x y < 4 ^ bits
  | 0, _, _ => Nat.one_pos
  | bits + 1, x, y => by
      have high := interleave_lt bits (x / 2) (y / 2)
      rw [interleave, Nat.pow_succ]
      omega

/-- Without the last bits of the coordinates the last digits are missing. -/
theorem interleave_div (bits : ℕ) : ∀ k x y : ℕ,
    interleave (bits + k) x y / 4 ^ k = interleave bits (x / 2 ^ k) (y / 2 ^ k)
  | 0, x, y => by simp
  | k + 1, x, y => by
      have last : (4 * interleave (bits + k) (x / 2) (y / 2) + (2 * (y % 2) + x % 2)) / 4 =
          interleave (bits + k) (x / 2) (y / 2) := by
        omega
      rw [← Nat.add_assoc, interleave, Nat.pow_succ', ← Nat.div_div_eq_div_mul, last,
        interleave_div bits k, Nat.div_div_eq_div_mul, Nat.div_div_eq_div_mul, ← Nat.pow_succ']

/-- Coordinates of so many bits are told apart by their number. -/
theorem interleave_inj : ∀ {bits x y u v : ℕ}, x < 2 ^ bits → y < 2 ^ bits → u < 2 ^ bits →
    v < 2 ^ bits → interleave bits x y = interleave bits u v → x = u ∧ y = v
  | 0, x, y, u, v, xSmall, ySmall, uSmall, vSmall, _ => by
      rw [Nat.pow_zero] at xSmall ySmall uSmall vSmall
      omega
  | bits + 1, x, y, u, v, xSmall, ySmall, uSmall, vSmall, same => by
      rw [interleave, interleave] at same
      rw [Nat.pow_succ] at xSmall ySmall uSmall vSmall
      obtain ⟨left, right⟩ := @interleave_inj bits (x / 2) (y / 2) (u / 2) (v / 2) (by omega)
        (by omega) (by omega) (by omega) (by omega)
      omega

/-- **The cells inside a larger cell** are those numbered from its first one to its last. -/
theorem interleave_between_iff {bits k x y u v : ℕ} (xSmall : x < 2 ^ (bits + k))
    (ySmall : y < 2 ^ (bits + k)) (uSmall : u < 2 ^ bits) (vSmall : v < 2 ^ bits) :
    interleave bits u v * 4 ^ k ≤ interleave (bits + k) x y ∧
        interleave (bits + k) x y < (interleave bits u v + 1) * 4 ^ k ↔
      x / 2 ^ k = u ∧ y / 2 ^ k = v := by
  have positive : 0 < 4 ^ k := Nat.pow_pos (by decide)
  have high : ∀ {c : ℕ}, c < 2 ^ (bits + k) → c / 2 ^ k < 2 ^ bits := by
    intro c small
    rwa [Nat.div_lt_iff_lt_mul (Nat.pow_pos (by decide)), ← Nat.pow_add]
  rw [← Nat.le_div_iff_mul_le positive, ← Nat.div_lt_iff_lt_mul positive, interleave_div]
  constructor
  · intro between
    exact interleave_inj (high xSmall) (high ySmall) uSmall vSmall (by omega)
  · rintro ⟨rfl, rfl⟩
    exact ⟨le_refl _, Nat.lt_succ_self _⟩

end OsmMini.Foundations.Morton

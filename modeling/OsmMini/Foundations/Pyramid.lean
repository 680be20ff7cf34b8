import Mathlib.Algebra.Order.Floor.Ring
import Mathlib.Tactic.FieldSimp
import Mathlib.Tactic.Linarith
import Mathlib.Tactic.Positivity
import Mathlib.Tactic.Ring
import OsmMini.Foundations.Literals

/-!
# A pyramid of tiles

A plane is divided into squares, those of each level into four squares of the next one. A square
contains another one exactly if it is the one that is reached by halving its column and its row
up to its level (`square_subset_iff`).
-/

set_option autoImplicit false

namespace OsmMini.Foundations.Pyramid

variable (K : Type*) [Field K] [LinearOrder K]

/-- The numbers of a column of a level. -/
def column (level : ℕ) (x : ℤ) : Set K := {v | (x : K) ≤ v * 2 ^ level ∧ v * 2 ^ level < x + 1}

/-- The points of a square of a level. -/
def square (level : ℕ) (x y : ℤ) : Set (K × K) :=
  {p | p.1 ∈ column K level x ∧ p.2 ∈ column K level y}

variable {K} [IsStrictOrderedRing K]

/-- The left side of a column. -/
theorem left_mem_column (level : ℕ) (x : ℤ) : (x : K) / 2 ^ level ∈ column K level x := by
  have whole : (x : K) / 2 ^ level * 2 ^ level = x := div_mul_cancel₀ _ (by positivity)
  rw [column, Set.mem_ofPred_eq, whole]
  exact ⟨le_rfl, lt_add_one _⟩

/-- Columns of a finer level lie in the column that is reached by halving. -/
theorem column_subset (level steps : ℕ) (x : ℤ) :
    column K (level + steps) x ⊆ column K level (x / 2 ^ steps) := by
  intro v inside
  obtain ⟨low, high⟩ := inside
  have positive : (0 : K) < 2 ^ steps := by positivity
  have scaled : v * 2 ^ (level + steps) = v * 2 ^ level * 2 ^ steps := by ring
  rw [scaled] at low high
  have down : x / 2 ^ steps * 2 ^ steps ≤ x := Int.ediv_mul_le x (by positivity)
  have up : x + 1 ≤ (x / 2 ^ steps + 1) * 2 ^ steps :=
    Int.lt_ediv_add_one_mul_self x (by positivity)
  have down' : ((x / 2 ^ steps : ℤ) : K) * 2 ^ steps ≤ x := by exact_mod_cast down
  have up' : (x : K) + 1 ≤ (((x / 2 ^ steps : ℤ) : K) + 1) * 2 ^ steps := by exact_mod_cast up
  constructor
  · exact le_of_mul_le_mul_right (down'.trans low) positive
  · exact lt_of_mul_lt_mul_right (high.trans_le up') positive.le

/-- **A column lies in the columns that are reached by halving**, and in no others. -/
theorem column_subset_iff {level level' : ℕ} {x x' : ℤ} :
    column K level x ⊆ column K level' x' ↔
      level' ≤ level ∧ x / 2 ^ (level - level') = x' := by
  constructor
  · intro inside
    rcases Nat.lt_or_ge level level' with finer | coarser
    · -- A column of a coarser level is too wide: its first two parts do not fit.
      exfalso
      obtain ⟨k, rfl⟩ := Nat.exists_eq_add_of_lt finer
      have first := inside (left_mem_column level x)
      have positive : (0 : K) < 2 ^ (level + k + 1) := by positivity
      have width : (2 : K) ≤ 2 ^ (k + 1) := by
        rw [pow_succ]
        linarith [one_le_pow₀ (one_le_two : (1 : K) ≤ 2) (n := k)]
      have scaled : (x : K) / 2 ^ level * 2 ^ (level + k + 1) = x * 2 ^ (k + 1) := by
        rw [add_assoc, pow_add, ← mul_assoc, div_mul_cancel₀ _ (by positivity)]
      rw [column, Set.mem_ofPred_eq, scaled] at first
      have second : (x : K) / 2 ^ level + 1 / 2 ^ (level + k + 1) ∈ column K level x := by
        have small : 1 / 2 ^ (level + k + 1) * (2 : K) ^ level = 1 / 2 ^ (k + 1) := by
          rw [add_assoc, pow_add]
          field_simp
        have half : 1 / (2 : K) ^ (k + 1) ≤ 1 / 2 := one_div_le_one_div_of_le (by norm_num) width
        have above : 0 < 1 / (2 : K) ^ (k + 1) := by positivity
        rw [column, Set.mem_ofPred_eq, add_mul, small, div_mul_cancel₀ _ (by positivity)]
        constructor <;> linarith
      have next := (inside second).2
      rw [add_mul, scaled, div_mul_cancel₀ _ positive.ne'] at next
      linarith [first.1]
    · refine ⟨coarser, ?_⟩
      obtain ⟨k, rfl⟩ := Nat.exists_eq_add_of_le coarser
      rw [Nat.add_sub_cancel_left]
      have start := left_mem_column (K := K) (level' + k) x
      obtain ⟨low, high⟩ := inside start
      obtain ⟨low', high'⟩ := column_subset level' k x start
      have less : x' < x / 2 ^ k + 1 := by exact_mod_cast low.trans_lt high'
      have more : x / 2 ^ k < x' + 1 := by exact_mod_cast low'.trans_lt high
      omega
  · rintro ⟨coarser, rfl⟩
    obtain ⟨k, rfl⟩ := Nat.exists_eq_add_of_le coarser
    rw [Nat.add_sub_cancel_left]
    exact column_subset level' k x

/-- **A square lies in the squares that are reached by halving**, and in no others. -/
theorem square_subset_iff {level level' : ℕ} {x y x' y' : ℤ} :
    square K level x y ⊆ square K level' x' y' ↔
      level' ≤ level ∧ x / 2 ^ (level - level') = x' ∧ y / 2 ^ (level - level') = y' := by
  constructor
  · intro inside
    have columns : column K level x ⊆ column K level' x' := fun v here =>
      (inside (show (v, (y : K) / 2 ^ level) ∈ square K level x y from
        ⟨here, left_mem_column level y⟩)).1
    have rows : column K level y ⊆ column K level' y' := fun v here =>
      (inside (show ((x : K) / 2 ^ level, v) ∈ square K level x y from
        ⟨left_mem_column level x, here⟩)).2
    obtain ⟨coarser, sameX⟩ := column_subset_iff.mp columns
    exact ⟨coarser, sameX, (column_subset_iff.mp rows).2⟩
  · rintro ⟨coarser, sameX, sameY⟩ p ⟨inX, inY⟩
    exact ⟨column_subset_iff.mpr ⟨coarser, sameX⟩ inX, column_subset_iff.mpr ⟨coarser, sameY⟩ inY⟩

end OsmMini.Foundations.Pyramid

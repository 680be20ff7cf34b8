import OsmMini.Foundations.Bits
import OsmMini.Foundations.ByteOrder

/-!
# Cells of the POI index

The index stores a POI under the cell of the fourteenth zoom that it lies in. The number
of a cell interleaves its column and row, and its key writes the number with seven
hexadecimal digits. The cells of a tile at a lower zoom therefore have the keys between
a first and a last one (`poiKey_between_iff`).
-/

set_option autoImplicit false

namespace OsmMini.Mobile

open OsmMini.Foundations.Morton OsmMini.Foundations.Numerals

def poiIndexZoom : ℕ := 14

/-- The number of a cell, a 32-bit integer. -/
def poiCell (x y z : ℕ) : ℕ :=
  (List.range z).reverse.foldl
    (fun cell bit => (cell <<< 2) % 2 ^ 32 ||| (((y >>> bit &&& 1) <<< 1) ||| (x >>> bit &&& 1))) 0

/-- The key of a cell: its hexadecimal digits, padded with zeros to seven. -/
def poiKey (cell : ℕ) : List UInt8 :=
  let key := formatUint 16 cell
  List.replicate (7 - key.length) (digitByte 0) ++ key

/-! ## Numbers -/

/-- Two bits behind a number. -/
theorem appended_bits {cell : ℕ} (small : cell < 2 ^ 30) (x y : ℕ) :
    (cell <<< 2) % 2 ^ 32 ||| (((y &&& 1) <<< 1) ||| (x &&& 1)) =
      4 * cell + (2 * (y % 2) + x % 2) := by
  have low : ((y &&& 1) <<< 1) ||| (x &&& 1) = 2 * (y % 2) + x % 2 := by
    rw [Nat.and_one_is_mod, Nat.and_one_is_mod]
    rcases Nat.mod_two_eq_zero_or_one x with hx | hx <;>
      rcases Nat.mod_two_eq_zero_or_one y with hy | hy <;> rw [hx, hy] <;> rfl
  have high : (cell <<< 2) % 2 ^ 32 = 2 ^ 2 * cell := by
    rw [Nat.shiftLeft_eq, Nat.mod_eq_of_lt (by omega), Nat.mul_comm]
  rw [low, high, ← Nat.two_pow_add_eq_or_of_lt (by omega)]

/-- **The number of a cell interleaves its coordinates.** Up to sixteen bits of each fit. -/
theorem poiCell_eq : ∀ {z : ℕ}, z ≤ 16 → ∀ x y : ℕ, poiCell x y z = interleave z x y
  | 0, _, x, y => rfl
  | z + 1, few, x, y => by
      have fits : interleave z (x / 2) (y / 2) < 2 ^ 30 := by
        refine (interleave_lt ..).trans_le ?_
        rw [show 2 ^ 30 = 4 ^ 15 from rfl]
        exact Nat.pow_le_pow_right (by decide) (by omega)
      have shift : ∀ c bit : ℕ, c >>> (bit + 1) = (c / 2) >>> bit := by
        intro c bit
        rw [Nat.add_comm, Nat.shiftRight_add]
        rfl
      have earlier := poiCell_eq (z := z) (by omega) (x / 2) (y / 2)
      rw [poiCell] at earlier
      rw [poiCell, List.range_succ_eq_map, List.reverse_cons, List.foldl_append, ← List.map_reverse,
        List.foldl_map]
      simp only [Nat.succ_eq_add_one, shift]
      rw [earlier, List.foldl_cons, List.foldl_nil]
      exact appended_bits fits x y

/-! ## Keys -/

theorem poiKey_eq {cell : ℕ} (small : cell < 2 ^ 28) : poiKey cell = numeral 16 7 cell :=
  pad_formatUint (by decide) (by decide) small

theorem poiKey_length {cell : ℕ} (small : cell < 2 ^ 28) : (poiKey cell).length = 7 := by
  rw [poiKey_eq small, numeral_length]

/-- Keys compare as the numbers of their cells do. -/
theorem poiKey_le_iff {a b : ℕ} (aSmall : a < 2 ^ 28) (bSmall : b < 2 ^ 28) :
    poiKey a ≤ poiKey b ↔ a ≤ b := by
  rw [poiKey_eq aSmall, poiKey_eq bSmall]
  exact numeral_le_iff (by decide) (le_refl _) aSmall bSmall

/-- No key has a zero byte. -/
theorem poiKey_unpadded {cell : ℕ} (small : cell < 2 ^ 28) : 0 ∉ poiKey cell := by
  have digit : ∀ d < 16, digitByte d ≠ 0 := by decide
  have all : ∀ width n : ℕ, 0 ∉ numeral 16 width n := by
    intro width
    induction width with
    | zero => exact fun _ => List.not_mem_nil
    | succ width ih =>
        intro n
        rw [numeral, List.mem_append, List.mem_singleton]
        rintro (early | last)
        · exact ih _ early
        · exact digit _ (Nat.mod_lt _ (by decide)) last.symm
  rw [poiKey_eq small]
  exact all 7 cell

/-- The number of a cell of the index has 28 bits. -/
theorem poiCell_lt (x y : ℕ) : poiCell x y poiIndexZoom < 2 ^ 28 := by
  rw [poiCell_eq (by decide)]
  exact interleave_lt ..

/-- The shift from a zoom to the zoom of the index. -/
def poiShift (lookupZ : ℕ) : ℕ := 2 * (poiIndexZoom - lookupZ)

/-- The first key of a tile. -/
def firstKey (cell shift : ℕ) : List UInt8 := poiKey ((cell <<< shift) % 2 ^ 32)

/-- The last key of a tile. -/
def lastKey (cell shift : ℕ) : List UInt8 :=
  poiKey ((((cell + 1) <<< shift) % 2 ^ 32 + (2 ^ 32 - 1)) % 2 ^ 32)

/-- **The keys of a tile** are those of the cells inside it. -/
theorem poiKey_between_iff {z u v x y : ℕ} (low : z ≤ poiIndexZoom) (uSmall : u < 2 ^ z)
    (vSmall : v < 2 ^ z) (xSmall : x < 2 ^ poiIndexZoom) (ySmall : y < 2 ^ poiIndexZoom) :
    firstKey (poiCell u v z) (poiShift z) ≤ poiKey (poiCell x y poiIndexZoom) ∧
        poiKey (poiCell x y poiIndexZoom) ≤ lastKey (poiCell u v z) (poiShift z) ↔
      x / 2 ^ (poiIndexZoom - z) = u ∧ y / 2 ^ (poiIndexZoom - z) = v := by
  obtain ⟨k, split⟩ := Nat.exists_eq_add_of_le low
  have fourteen : z + k = 14 := split.symm
  have width : poiIndexZoom - z = k := by omega
  have scale : 2 ^ poiShift z = 4 ^ k := by
    rw [poiShift, width, Nat.pow_mul]
  have total : 4 ^ z * 4 ^ k = 2 ^ 28 := by
    rw [← Nat.pow_add, fourteen]
    rfl
  have positive : 0 < 4 ^ k := Nat.pow_pos (by decide)
  have inside := interleave_lt z u v
  have next : (interleave z u v + 1) * 4 ^ k ≤ 2 ^ 28 :=
    (Nat.mul_le_mul_right _ inside).trans total.le
  have start : interleave z u v * 4 ^ k + 4 ^ k ≤ 2 ^ 28 := by
    rw [← Nat.succ_mul]
    exact next
  have first : firstKey (poiCell u v z) (poiShift z) = poiKey (interleave z u v * 4 ^ k) := by
    rw [firstKey, poiCell_eq (by omega), Nat.shiftLeft_eq, scale, Nat.mod_eq_of_lt (by omega)]
  have last : lastKey (poiCell u v z) (poiShift z) =
      poiKey ((interleave z u v + 1) * 4 ^ k - 1) := by
    have more : 0 < (interleave z u v + 1) * 4 ^ k := Nat.mul_pos (Nat.succ_pos _) positive
    have wrapped : ∀ n : ℕ, 0 < n → n ≤ 2 ^ 28 → (n % 2 ^ 32 + (2 ^ 32 - 1)) % 2 ^ 32 = n - 1 := by
      omega
    rw [lastKey, poiCell_eq (by omega), Nat.shiftLeft_eq, scale, wrapped _ more next]
  rw [first, last, poiKey_le_iff (by omega) (poiCell_lt x y),
    poiKey_le_iff (poiCell_lt x y) (by omega), poiCell_eq (by decide), width]
  have between := @interleave_between_iff z k x y u v
  rw [fourteen] at between
  rw [← between xSmall ySmall uSmall vSmall, show poiIndexZoom = 14 from rfl]
  have more : 0 < (interleave z u v + 1) * 4 ^ k := Nat.mul_pos (Nat.succ_pos _) positive
  omega

end OsmMini.Mobile

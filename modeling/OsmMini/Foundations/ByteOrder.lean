import Mathlib

/-!
# The order of byte strings

Bytes are linearly ordered by their values, and byte strings lexicographically: a
shorter string comes before those it is a prefix of.
-/

set_option autoImplicit false

namespace OsmMini.Foundations

instance byteOrder : LinearOrder UInt8 where
  le_refl := UInt8.le_refl
  le_trans _ _ _ := UInt8.le_trans
  le_antisymm _ _ := UInt8.le_antisymm
  le_total := UInt8.le_total
  lt_iff_le_not_ge a b := by
    rw [UInt8.lt_iff_toNat_lt, UInt8.le_iff_toNat_le, UInt8.le_iff_toNat_le]
    omega
  toDecidableLE := inferInstance
  toDecidableEq := inferInstance
  toDecidableLT := inferInstance

section Lexicographic

variable {α : Type*} [LinearOrder α]

theorem nil_le (a : List α) : [] ≤ a := not_lt.mp (List.not_lt_nil a)

theorem cons_le_cons_iff {x y : α} {a b : List α} :
    x :: a ≤ y :: b ↔ x < y ∨ x = y ∧ a ≤ b := by
  rw [← not_lt, ← not_lt (a := b), List.cons_lt_cons_iff, not_or, not_and, not_lt]
  constructor
  · rintro ⟨le, rest⟩
    rcases le.lt_or_eq with less | rfl
    · exact .inl less
    · exact .inr ⟨rfl, rest rfl⟩
  · rintro (less | ⟨rfl, rest⟩)
    · exact ⟨less.le, fun same => absurd same less.ne'⟩
    · exact ⟨le_refl _, fun _ => rest⟩

/-- A prefix comes no later. -/
theorem le_of_initial : ∀ {a b : List α}, a <+: b → a ≤ b
  | [], b, _ => nil_le b
  | x :: a, [], h => absurd (List.prefix_nil.mp h) (List.cons_ne_nil x a)
  | x :: a, y :: b, h => by
      obtain ⟨rfl, rest⟩ := List.cons_prefix_cons.mp h
      exact List.cons_le_cons x (le_of_initial rest)

/-- **The strings with a prefix are next to each other**, from the prefix on. -/
theorem prefix_of_between : ∀ {key a b : List α}, key ≤ a → a ≤ b → key <+: b → key <+: a
  | [], a, b, _, _, _ => List.nil_prefix
  | k :: key, [], b, low, _, _ => absurd (List.nil_lt_cons k key) low.not_gt
  | k :: key, x :: a, [], _, _, h => absurd (List.prefix_nil.mp h) (List.cons_ne_nil k key)
  | k :: key, x :: a, y :: b, low, high, h => by
      obtain ⟨rfl, rest⟩ := List.cons_prefix_cons.mp h
      rcases cons_le_cons_iff.mp low with less | ⟨rfl, low'⟩
      · rcases cons_le_cons_iff.mp high with more | ⟨same, -⟩
        · exact absurd more less.not_gt
        · exact absurd same less.ne'
      · rcases cons_le_cons_iff.mp high with more | ⟨-, high'⟩
        · exact absurd more (lt_irrefl _)
        · exact List.cons_prefix_cons.mpr ⟨rfl, prefix_of_between low' high' rest⟩

end Lexicographic

/-! ## Common prefixes -/

/-- The number of elements two lists share at their start. -/
def sharedLength {α : Type*} [DecidableEq α] : List α → List α → ℕ
  | x :: a, y :: b => if x = y then sharedLength a b + 1 else 0
  | _, _ => 0

section Shared

variable {α : Type*} [DecidableEq α]

theorem sharedLength_le : ∀ a b : List α,
    sharedLength a b ≤ a.length ∧ sharedLength a b ≤ b.length
  | [], b => ⟨Nat.zero_le _, Nat.zero_le _⟩
  | x :: a, [] => ⟨Nat.zero_le _, Nat.zero_le _⟩
  | x :: a, y :: b => by
      rw [sharedLength]
      split_ifs
      · obtain ⟨left, right⟩ := sharedLength_le a b
        exact ⟨Nat.succ_le_succ left, Nat.succ_le_succ right⟩
      · exact ⟨Nat.zero_le _, Nat.zero_le _⟩

theorem take_sharedLength : ∀ a b : List α, a.take (sharedLength a b) = b.take (sharedLength a b)
  | [], b => rfl
  | x :: a, [] => rfl
  | x :: a, y :: b => by
      rw [sharedLength]
      split_ifs with same
      · rw [List.take_succ_cons, List.take_succ_cons, take_sharedLength a b, same]
      · rfl

/-- A list is put together from what it shares with another and the rest of it. -/
theorem take_append_drop_shared (a b : List α) :
    a.take (sharedLength a b) ++ b.drop (sharedLength a b) = b := by
  rw [take_sharedLength, List.take_append_drop]

/-- Two lists are the same when the first is shared and nothing of the second is left. -/
theorem sharedLength_eq_iff {a b : List α} :
    sharedLength a b = a.length ∧ b.length - sharedLength a b = 0 ↔ a = b := by
  constructor
  · rintro ⟨whole, none⟩
    have joined := take_append_drop_shared a b
    rw [List.drop_eq_nil_of_le (by omega), List.append_nil, whole, List.take_length] at joined
    exact joined
  · rintro rfl
    have self : ∀ c : List α, sharedLength c c = c.length := by
      intro c
      induction c with
      | nil => rfl
      | cons x c ih => rw [sharedLength, if_pos rfl, ih, List.length_cons]
    rw [self]
    exact ⟨rfl, Nat.sub_self _⟩

end Shared

end OsmMini.Foundations

/-!
## Numerals of a fixed width

A number below `base ^ width` is written with `width` digits, the most significant one
first. Numerals of one width compare as byte strings the way their numbers compare, which
is why they serve as the keys of a sorted file (`numeral_lt_iff`).
-/

namespace OsmMini.Foundations.Numerals

/-- The byte of a digit, `0` to `9` and then the lower-case letters. -/
def digitByte (d : ℕ) : UInt8 := d.digitChar.toNat.toUInt8

/-- The digits of a number without leading zeros. -/
def formatUint (base n : ℕ) : List UInt8 := (Nat.toDigits base n).map fun c => c.toNat.toUInt8

/-- The last `width` digits of a number. -/
def numeral (base : ℕ) : ℕ → ℕ → List UInt8
  | 0, _ => []
  | width + 1, n => numeral base width (n / base) ++ [digitByte (n % base)]

@[simp] theorem numeral_length (base : ℕ) : ∀ width n : ℕ, (numeral base width n).length = width
  | 0, _ => rfl
  | width + 1, n => by
      rw [numeral, List.length_append, numeral_length base width, List.length_singleton]

/-- Zero is written with zeros. -/
theorem numeral_zero (base : ℕ) : ∀ width : ℕ,
    numeral base width 0 = List.replicate width (digitByte 0)
  | 0 => rfl
  | width + 1 => by
      rw [numeral, Nat.zero_div, Nat.zero_mod, numeral_zero base width, List.replicate_succ']

/-- **Leading zeros** bring the digits of a number to a fixed width. -/
theorem pad_formatUint {base : ℕ} (more : 1 < base) : ∀ {width n : ℕ}, 0 < width →
    n < base ^ width →
    List.replicate (width - (formatUint base n).length) (digitByte 0) ++ formatUint base n =
      numeral base width n
  | width + 1, n, _, small => by
      rw [formatUint, Nat.toDigits_eq_if more, numeral]
      by_cases single : n < base
      · rw [if_pos single, Nat.div_eq_of_lt single, Nat.mod_eq_of_lt single, numeral_zero]
        rfl
      · have smaller : n / base < base ^ width := by
          rw [Nat.div_lt_iff_lt_mul (by omega), ← Nat.pow_succ]
          exact small
        have room : 0 < width := by
          by_contra none
          obtain rfl : width = 0 := by omega
          rw [Nat.zero_add, Nat.pow_one] at small
          exact single small
        rw [if_neg single, ← pad_formatUint more room smaller, formatUint, List.map_append,
          List.length_append, List.append_assoc]
        rw [List.map_singleton, List.length_singleton, Nat.add_sub_add_right]
        rfl

/-! ## Order -/

/-- In lists of one length the last element decides when the others agree. -/
theorem append_singleton_lt_iff {α : Type*} [LinearOrder α] {x y : α} : ∀ {a b : List α},
    a.length = b.length → (a ++ [x] < b ++ [y] ↔ a < b ∨ a = b ∧ x < y)
  | [], [], _ => by simp [List.cons_lt_cons_iff]
  | u :: a, v :: b, same => by
      rw [List.cons_append, List.cons_append, List.cons_lt_cons_iff, List.cons_lt_cons_iff,
        append_singleton_lt_iff (Nat.succ.inj same), List.cons_eq_cons]
      tauto

section Order

variable {base : ℕ}

/-- Digits compare as their bytes do. -/
theorem digitByte_lt_iff (few : base ≤ 16) {d e : ℕ} (dSmall : d < base) (eSmall : e < base) :
    digitByte d < digitByte e ↔ d < e := by
  have table : ∀ d < 16, ∀ e < 16, digitByte d < digitByte e ↔ d < e := by decide
  exact table d (dSmall.trans_le few) e (eSmall.trans_le few)

/-- **Numerals of one width compare as their numbers do.** -/
theorem numeral_lt_iff (some : 0 < base) (few : base ≤ 16) : ∀ {width n m : ℕ},
    n < base ^ width → m < base ^ width →
    (numeral base width n < numeral base width m ↔ n < m)
  | 0, n, m, nSmall, mSmall => by
      rw [Nat.pow_zero, Nat.lt_one_iff] at nSmall mSmall
      subst nSmall mSmall
      exact iff_of_false (lt_irrefl _) (lt_irrefl _)
  | width + 1, n, m, nSmall, mSmall => by
      have nHigh : n / base < base ^ width := by
        rwa [Nat.div_lt_iff_lt_mul some, ← Nat.pow_succ]
      have mHigh : m / base < base ^ width := by
        rwa [Nat.div_lt_iff_lt_mul some, ← Nat.pow_succ]
      have less := @numeral_lt_iff some few width _ _ nHigh mHigh
      have more := @numeral_lt_iff some few width _ _ mHigh nHigh
      have same : numeral base width (n / base) = numeral base width (m / base) ↔
          n / base = m / base := by
        refine ⟨fun equal => ?_, fun equal => by rw [equal]⟩
        rw [equal] at less more
        exact le_antisymm (not_lt.mp fun h => lt_irrefl _ (more.mpr h))
          (not_lt.mp fun h => lt_irrefl _ (less.mpr h))
      rw [numeral, numeral, append_singleton_lt_iff (by rw [numeral_length, numeral_length]), less,
        same, digitByte_lt_iff few (Nat.mod_lt _ some) (Nat.mod_lt _ some)]
      constructor
      · rintro (high | ⟨high, low⟩)
        · exact lt_of_div_lt_div high
        · rw [← Nat.div_add_mod n base, ← Nat.div_add_mod m base, high]
          exact Nat.add_lt_add_left low _
      · intro below
        rcases (Nat.div_le_div_right (c := base) below.le).lt_or_eq with high | high
        · exact .inl high
        · refine .inr ⟨high, ?_⟩
          rw [← Nat.div_add_mod n base, ← Nat.div_add_mod m base, high] at below
          exact Nat.lt_of_add_lt_add_left below
where
  lt_of_div_lt_div {n m : ℕ} (high : n / base < m / base) : n < m := by
    by_contra le
    exact absurd (Nat.div_le_div_right (not_lt.mp le)) high.not_ge

/-- Numerals of one width are no further than one another as their numbers are. -/
theorem numeral_le_iff (some : 0 < base) (few : base ≤ 16) {width n m : ℕ}
    (nSmall : n < base ^ width) (mSmall : m < base ^ width) :
    numeral base width n ≤ numeral base width m ↔ n ≤ m := by
  rw [← not_lt, ← not_lt (a := m), numeral_lt_iff some few mSmall nSmall]

end Order

end OsmMini.Foundations.Numerals

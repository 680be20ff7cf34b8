import Mathlib

/-!
# Numbers of seven bits to a byte

An unsigned 64-bit number is written in groups of seven bits, the least significant
first; every byte but the last has its high bit set. Reading stops at the first byte
without that bit, and refuses a number that does not end within ten bytes or does not
fit into 64 bits.

A signed number is written as the unsigned number that has its sign in the lowest bit.
-/

set_option autoImplicit false

namespace OsmMini.Foundations.Varint

/-- Write a number in at most `more + 1` groups. -/
def groups : ℕ → ℕ → List UInt8
  | 0, x => [UInt8.ofNat x]
  | more + 1, x =>
    if x < 128 then [UInt8.ofNat x] else UInt8.ofNat (x % 128 + 128) :: groups more (x / 128)

/-- Write a 64-bit number. -/
def appendUvarint (x : ℕ) : List UInt8 := groups 9 x

/-- Read a number from its byte `i` on, with the number of bytes read. -/
def uvarintFrom : ℕ → List UInt8 → Option (ℕ × ℕ)
  | _, [] => none
  | i, b :: bytes =>
    if i = 10 then none
    else if b.toNat < 128 then
      if i = 9 ∧ 1 < b.toNat then none else some (b.toNat, 1)
    else
      match uvarintFrom (i + 1) bytes with
      | none => none
      | some (x, n) => some (b.toNat % 128 + 128 * x, n + 1)

/-- Read a 64-bit number and the number of its bytes. -/
def uvarint (bytes : List UInt8) : Option (ℕ × ℕ) := uvarintFrom 0 bytes

theorem groups_length (more x : ℕ) :
    0 < (groups more x).length ∧ (groups more x).length ≤ more + 1 := by
  induction more generalizing x with
  | zero => exact ⟨one_pos, le_refl _⟩
  | succ more ih =>
      rw [groups]
      split_ifs
      · exact ⟨one_pos, Nat.succ_le_succ (Nat.zero_le _)⟩
      · obtain ⟨-, few⟩ := ih (x / 128)
        exact ⟨Nat.succ_pos _, Nat.succ_le_succ few⟩

theorem appendUvarint_length (x : ℕ) :
    0 < (appendUvarint x).length ∧ (appendUvarint x).length ≤ 10 :=
  groups_length 9 x

/-- A number below 128 to the power of its groups has no more groups. -/
theorem groups_length_le : ∀ {few more x : ℕ}, x < 128 ^ (few + 1) →
    (groups more x).length ≤ few + 1
  | _, 0, x, _ => Nat.succ_le_succ (Nat.zero_le _)
  | 0, more + 1, x, small => by
      rw [zero_add, pow_one] at small
      rw [groups, if_pos small]
      exact le_refl _
  | few + 1, more + 1, x, small => by
      rw [groups]
      split_ifs
      · exact Nat.succ_le_succ (Nat.zero_le _)
      · have rest : x / 128 < 128 ^ (few + 1) := Nat.div_lt_of_lt_mul (by rwa [pow_succ'] at small)
        exact Nat.succ_le_succ (groups_length_le rest)

theorem uvarintFrom_groups {x : ℕ} (rest : List UInt8) : ∀ {more i : ℕ}, i + more = 9 →
    x < 2 * 128 ^ more → uvarintFrom i (groups more x ++ rest) = some (x, (groups more x).length) := by
  intro more
  induction more generalizing x with
  | zero =>
      intro i last small
      rw [pow_zero, mul_one] at small
      have byte : (UInt8.ofNat x).toNat = x := by
        rw [UInt8.toNat_ofNat']
        omega
      rw [groups, List.singleton_append, uvarintFrom, byte, if_neg (by omega), if_pos (by omega),
        if_neg (by omega)]
      rfl
  | succ more ih =>
      intro i last small
      rw [groups]
      split_ifs with single
      · have byte : (UInt8.ofNat x).toNat = x := by
          rw [UInt8.toNat_ofNat']
          omega
        rw [List.singleton_append, uvarintFrom, byte, if_neg (by omega), if_pos single,
          if_neg (by omega)]
        rfl
      · have byte : (UInt8.ofNat (x % 128 + 128)).toNat = x % 128 + 128 := by
          rw [UInt8.toNat_ofNat']
          omega
        have smaller : x / 128 < 2 * 128 ^ more := by
          refine Nat.div_lt_of_lt_mul ?_
          rw [pow_succ] at small
          linarith
        rw [List.cons_append, uvarintFrom, byte, if_neg (by omega), if_neg (by omega),
          ih (i := i + 1) (by omega) smaller]
        have joined : (x % 128 + 128) % 128 + 128 * (x / 128) = x := by omega
        simp only [joined, List.length_cons]

/-- **A number that was written is read back**, whatever follows it. -/
theorem uvarint_appendUvarint {x : ℕ} (fits : x < 2 ^ 64) (rest : List UInt8) :
    uvarint (appendUvarint x ++ rest) = some (x, (appendUvarint x).length) :=
  uvarintFrom_groups rest rfl (fits.trans_eq (by norm_num))

theorem uvarintFrom_ten (bytes : List UInt8) : uvarintFrom 10 bytes = none := by
  cases bytes with
  | nil => rfl
  | cons b bytes => rw [uvarintFrom, if_pos rfl]

/-- A number that is read either ends with its first byte or goes on after it. -/
theorem uvarintFrom_cons {b : UInt8} {bytes : List UInt8} {i x n : ℕ} (within : i < 10)
    (read : uvarintFrom i (b :: bytes) = some (x, n)) :
    (b.toNat < 128 ∧ ¬(i = 9 ∧ 1 < b.toNat) ∧ x = b.toNat ∧ n = 1) ∨
      (128 ≤ b.toNat ∧ i + 1 < 10 ∧ ∃ y m, uvarintFrom (i + 1) bytes = some (y, m) ∧
        x = b.toNat % 128 + 128 * y ∧ n = m + 1) := by
  rw [uvarintFrom, if_neg (by omega)] at read
  by_cases last : b.toNat < 128
  · rw [if_pos last] at read
    split_ifs at read with overflow
    obtain ⟨rfl, rfl⟩ := Prod.mk.inj (Option.some.inj read)
    exact Or.inl ⟨last, overflow, rfl, rfl⟩
  · rw [if_neg last] at read
    cases tail : uvarintFrom (i + 1) bytes with
    | none => simp [tail] at read
    | some result =>
        obtain ⟨y, m⟩ := result
        rw [tail] at read
        obtain ⟨rfl, rfl⟩ := Prod.mk.inj (Option.some.inj read)
        have more : i + 1 < 10 := by
          by_contra stop
          rw [show i + 1 = 10 by omega, uvarintFrom_ten] at tail
          exact Option.some_ne_none _ tail.symm
        exact Or.inr ⟨not_lt.mp last, more, y, m, rfl, rfl, rfl⟩

theorem uvarint_length_pos {bytes : List UInt8} {x n : ℕ} (read : uvarint bytes = some (x, n)) :
    0 < n := by
  cases bytes with
  | nil => simp [uvarint, uvarintFrom] at read
  | cons b bytes =>
      obtain ⟨-, -, -, rfl⟩ | ⟨-, -, y, m, -, -, rfl⟩ := uvarintFrom_cons (by norm_num) read
      · exact one_pos
      · exact Nat.succ_pos m

/-! ## Signed numbers -/

/-- The sign of a number moves into the lowest bit. -/
def zigzag (x : ℤ) : ℕ := if 0 ≤ x then (2 * x).toNat else (-2 * x - 1).toNat

/-- The number that has its sign in the lowest bit. -/
def unzigzag (u : ℕ) : ℤ := if u % 2 = 0 then (u / 2 : ℕ) else -(u / 2 : ℕ) - 1

theorem unzigzag_zigzag (x : ℤ) : unzigzag (zigzag x) = x := by
  unfold zigzag unzigzag
  by_cases nonneg : 0 ≤ x
  · rw [if_pos nonneg, if_pos (by omega)]
    omega
  · rw [if_neg nonneg, if_neg (by omega)]
    omega

/-- A 64-bit number stays a 64-bit number. -/
theorem zigzag_lt (x : Int64) : zigzag x.toInt < 2 ^ 64 := by
  have small := x.toInt_lt
  have large := x.le_toInt
  unfold zigzag
  split_ifs
  · omega
  · omega

/-- Write a signed 64-bit number. -/
def appendVarint (x : Int64) : List UInt8 := appendUvarint (zigzag x.toInt)

/-- Read a signed 64-bit number and the number of its bytes. -/
def varint (bytes : List UInt8) : Option (Int64 × ℕ) :=
  (uvarint bytes).map fun read => (Int64.ofInt (unzigzag read.1), read.2)

/-- **A signed number that was written is read back**, whatever follows it. -/
theorem varint_appendVarint (x : Int64) (rest : List UInt8) :
    varint (appendVarint x ++ rest) = some (x, (appendVarint x).length) := by
  rw [varint, appendVarint, uvarint_appendUvarint (zigzag_lt x), Option.map_some, unzigzag_zigzag,
    Int64.ofInt_toInt]

theorem varint_length_pos {bytes : List UInt8} {x : Int64} {n : ℕ}
    (read : varint bytes = some (x, n)) : 0 < n := by
  obtain ⟨⟨u, m⟩, found, same⟩ := Option.map_eq_some_iff.mp read
  obtain ⟨-, rfl⟩ := Prod.mk.inj same
  exact uvarint_length_pos found

theorem appendVarint_ne_nil (x : Int64) : appendVarint x ≠ [] :=
  List.ne_nil_of_length_pos (appendUvarint_length _).1

end OsmMini.Foundations.Varint

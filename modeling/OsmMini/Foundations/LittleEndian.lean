import Mathlib

/-!
# Little-endian numbers in a byte string

A number of a fixed width stands in a byte string with its least significant byte
first. `peek` reads it where it stands and reads missing bytes as zero; `read` fails
when the bytes are not all there. The lemmas move a read through concatenations,
slices and tables of records of one size.
-/

set_option autoImplicit false

namespace OsmMini.Foundations.LittleEndian

/-- The number a byte string stands for. -/
def value (bytes : List UInt8) : ℕ :=
  Nat.ofDigits 256 (bytes.map UInt8.toNat)

/-- The bytes of a number that fits in the given width. -/
def bytesOf : ℕ → ℕ → List UInt8
  | 0, _ => []
  | width + 1, n => UInt8.ofNat n :: bytesOf width (n / 256)

@[simp] theorem length_bytesOf (width n : ℕ) : (bytesOf width n).length = width := by
  induction width generalizing n with
  | zero => rfl
  | succ width ih => rw [bytesOf, List.length_cons, ih]

theorem value_lt (bytes : List UInt8) : value bytes < 256 ^ bytes.length := by
  have digits : ∀ d ∈ bytes.map UInt8.toNat, d < 256 := by
    intro d member
    obtain ⟨b, -, rfl⟩ := List.mem_map.mp member
    exact b.toNat_lt
  have bound := Nat.ofDigits_lt_base_pow_length (by decide : 1 < 256) digits
  rwa [List.length_map] at bound

/-- **The bytes of a number stand for it.** -/
theorem value_bytesOf {width n : ℕ} (fits : n < 256 ^ width) : value (bytesOf width n) = n := by
  induction width generalizing n with
  | zero =>
      rw [pow_zero, Nat.lt_one_iff] at fits
      subst fits
      rfl
  | succ width ih =>
      have rest : n / 256 < 256 ^ width := Nat.div_lt_of_lt_mul (by rwa [pow_succ'] at fits)
      have tail : Nat.ofDigits 256 ((bytesOf width (n / 256)).map UInt8.toNat) = n / 256 := ih rest
      rw [value, bytesOf, List.map_cons, Nat.ofDigits_cons, tail, UInt8.toNat_ofNat']
      exact Nat.mod_add_div n 256

/-! ## Reading -/

/-- The number of a width at an offset; missing bytes read as zero. -/
def peek (width : ℕ) (data : List UInt8) (offset : ℕ) : ℕ :=
  value ((data.drop offset).take width)

/-- The number of a width at an offset, when its bytes are there. -/
def read (width : ℕ) (data : List UInt8) (offset : ℕ) : Option ℕ :=
  if offset + width ≤ data.length then some (peek width data offset) else none

theorem read_eq_some {width : ℕ} {data : List UInt8} {offset : ℕ}
    (inside : offset + width ≤ data.length) : read width data offset = some (peek width data offset) :=
  if_pos inside

theorem peek_lt (width : ℕ) (data : List UInt8) (offset : ℕ) :
    peek width data offset < 256 ^ width :=
  (value_lt _).trans_le (Nat.pow_le_pow_right (by decide) (List.length_take_le ..))

theorem peek_append_left {width : ℕ} {first second : List UInt8} {offset : ℕ}
    (inside : offset + width ≤ first.length) :
    peek width (first ++ second) offset = peek width first offset := by
  unfold peek
  rw [List.drop_append_of_le_length (by omega), List.take_append_of_le_length]
  rw [List.length_drop]
  omega

theorem peek_append_right {width : ℕ} {first second : List UInt8} {offset : ℕ}
    (past : first.length ≤ offset) :
    peek width (first ++ second) offset = peek width second (offset - first.length) := by
  unfold peek
  rw [List.drop_append, List.drop_eq_nil_of_le past, List.nil_append]

/-- A number is read back where it was written. -/
theorem peek_bytesOf {width n : ℕ} (fits : n < 256 ^ width) (rest : List UInt8) :
    peek width (bytesOf width n ++ rest) 0 = n := by
  rw [peek_append_left (by simp), peek, List.drop_zero, List.take_of_length_le (by simp),
    value_bytesOf fits]

/-- A field after the fields before it. -/
theorem peek_field {width n offset : ℕ} (before after : List UInt8) (fits : n < 256 ^ width)
    (start : before.length = offset) :
    peek width (before ++ (bytesOf width n ++ after)) offset = n := by
  rw [peek_append_right start.le, start, Nat.sub_self, peek_bytesOf fits]

theorem peek_drop (width : ℕ) (data : List UInt8) (start offset : ℕ) :
    peek width (data.drop start) offset = peek width data (start + offset) := by
  unfold peek
  rw [List.drop_drop]

theorem peek_take {width : ℕ} {data : List UInt8} {length offset : ℕ}
    (inside : offset + width ≤ length) :
    peek width (data.take length) offset = peek width data offset := by
  unfold peek
  rw [List.drop_take, List.take_take, min_eq_left (by omega)]

/-- A field of a record of a table of records of one size. -/
theorem peek_flatMap {α : Type*} {size : ℕ} {encode : α → List UInt8}
    (sized : ∀ x, (encode x).length = size) {width field : ℕ} (inside : field + width ≤ size)
    (rest : List UInt8) : ∀ {xs : List α} {i : ℕ} {x : α}, xs[i]? = some x →
    peek width (xs.flatMap encode ++ rest) (i * size + field) = peek width (encode x) field
  | [], i, x, found => by simp at found
  | y :: xs, 0, x, found => by
      obtain rfl : y = x := by simpa using found
      rw [Nat.zero_mul, Nat.zero_add, List.flatMap_cons, List.append_assoc, peek_append_left]
      rwa [sized]
  | y :: xs, i + 1, x, found => by
      rw [List.flatMap_cons, List.append_assoc, peek_append_right (by rw [sized]; nlinarith), sized]
      have index : (i + 1) * size + field - size = i * size + field := by
        rw [Nat.succ_mul]
        omega
      rw [index]
      exact peek_flatMap sized inside rest (by simpa using found)

theorem length_flatMap_of_size {α : Type*} {size : ℕ} {encode : α → List UInt8}
    (sized : ∀ x, (encode x).length = size) (xs : List α) :
    (xs.flatMap encode).length = xs.length * size := by
  rw [List.length_flatMap]
  simp [sized]

end OsmMini.Foundations.LittleEndian

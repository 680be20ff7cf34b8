import Mathlib

/-!
# Binary floating-point numbers of 64 bits

A number is its 64 bits, so that two numbers are equal when their bits are. A finite
number stands for a rational; comparison, subtraction and division compute with the
rationals and round to the nearest number, and to an even significand on a tie.
-/

set_option autoImplicit false

namespace OsmMini.Foundations

/-- The bits of a floating-point number. -/
structure F64 where
  bits : UInt64
  deriving DecidableEq, Repr

namespace F64

def fraction (x : F64) : ℕ := x.bits.toNat % 2 ^ 52

def exponent (x : F64) : ℕ := x.bits.toNat / 2 ^ 52 % 2 ^ 11

def negative (x : F64) : Bool := 2 ^ 63 ≤ x.bits.toNat

def isFinite (x : F64) : Bool := x.exponent ≠ 2047

def isNaN (x : F64) : Bool := x.exponent = 2047 ∧ x.fraction ≠ 0

/-- The absolute value of a finite number. -/
def magnitude (x : F64) : ℚ :=
  if x.exponent = 0 then x.fraction * 2 ^ (-1074 : ℤ)
  else (2 ^ 52 + x.fraction) * 2 ^ ((x.exponent : ℤ) - 1075)

/-- The rational that a finite number stands for. -/
def toRat (x : F64) : ℚ :=
  if x.negative then -x.magnitude else x.magnitude

/-! ## Rounding -/

/-- The nearest integer, and the even one of two that are equally near. -/
def roundEven (q : ℚ) : ℤ :=
  let low := ⌊q⌋
  let rest := q - low
  if rest < 1 / 2 then low
  else if 1 / 2 < rest then low + 1
  else if low % 2 = 0 then low else low + 1

/-- The number of a sign and of fields below it. -/
def ofFields (negative : Bool) (fields : ℕ) : F64 :=
  ⟨UInt64.ofNat (fields + if negative then 2 ^ 63 else 0)⟩

def infinity (negative : Bool) : F64 := ofFields negative (2047 * 2 ^ 52)

def nan : F64 := ⟨0x7FF8000000000001⟩

/-- The number nearest to a magnitude. A significand that rounds up to the next power
of two carries into the exponent, and past the largest exponent lies infinity. -/
def round (negative : Bool) (magnitude : ℚ) : F64 :=
  let power := max (Int.log 2 magnitude - 52) (-1074)
  let significand := (roundEven (magnitude * 2 ^ (-power))).toNat
  let fields := (power + 1074).toNat * 2 ^ 52 + significand
  if 2047 * 2 ^ 52 ≤ fields then infinity negative else ofFields negative fields

/-- The number nearest to a rational. -/
def ofRat (q : ℚ) : F64 :=
  if q = 0 then ofFields false 0 else round (q < 0) |q|

/-! ## Operations -/

/-- The order of the numbers that are not NaN: both infinities lie outside the finite
ones, and the two zeros are equal. -/
def ordinal (x : F64) : WithBot (WithTop ℚ) :=
  if x.isFinite then ((x.toRat : WithTop ℚ) : WithBot (WithTop ℚ))
  else if x.negative then ⊥ else ((⊤ : WithTop ℚ) : WithBot (WithTop ℚ))

/-- No comparison with NaN holds. -/
def le (x y : F64) : Bool :=
  !x.isNaN && !y.isNaN && x.ordinal ≤ y.ordinal

def lt (x y : F64) : Bool :=
  !x.isNaN && !y.isNaN && x.ordinal < y.ordinal

/-- Whether two numbers are equal: NaN equals nothing, and the two zeros are equal. -/
def equal (x y : F64) : Bool :=
  !x.isNaN && !y.isNaN && x.ordinal = y.ordinal

/-- The smaller of two numbers. The negative infinity wins, then NaN, and of two
zeros the negative one. -/
def min (x y : F64) : F64 :=
  if x = infinity true || y = infinity true then infinity true
  else if x.isNaN || y.isNaN then nan
  else if x.ordinal = y.ordinal then if x.negative then x else y
  else if x.ordinal < y.ordinal then x else y

/-- The larger of two numbers. The positive infinity wins, then NaN, and of two zeros
the positive one. -/
def max (x y : F64) : F64 :=
  if x = infinity false || y = infinity false then infinity false
  else if x.isNaN || y.isNaN then nan
  else if x.ordinal = y.ordinal then if x.negative then y else x
  else if y.ordinal < x.ordinal then x else y

def sub (x y : F64) : F64 :=
  if x.isNaN || y.isNaN then nan
  else if !x.isFinite then
    if !y.isFinite && x.negative = y.negative then nan else infinity x.negative
  else if !y.isFinite then infinity !y.negative
  else if x.toRat = y.toRat then ofFields (x.toRat = 0 && x.negative && !y.negative) 0
  else ofRat (x.toRat - y.toRat)

def div (x y : F64) : F64 :=
  let negative := x.negative != y.negative
  if x.isNaN || y.isNaN then nan
  else if !x.isFinite then if !y.isFinite then nan else infinity negative
  else if !y.isFinite then ofFields negative 0
  else if y.toRat = 0 then if x.toRat = 0 then nan else infinity negative
  else if x.toRat = 0 then ofFields negative 0
  else round negative |x.toRat / y.toRat|

/-- The integer below a number, as a 32-bit integer. An infinity or NaN has none and
converts to zero. -/
def floorInt32 (x : F64) : Int32 :=
  if x.isFinite then Int32.ofInt ⌊x.toRat⌋ else 0

/-! ## Comparing -/

theorem le_iff {x y : F64} :
    le x y = true ↔ x.isNaN = false ∧ y.isNaN = false ∧ x.ordinal ≤ y.ordinal := by
  simp [le, and_assoc]

theorem lt_iff {x y : F64} :
    lt x y = true ↔ x.isNaN = false ∧ y.isNaN = false ∧ x.ordinal < y.ordinal := by
  simp [lt, and_assoc]

theorem lt_eq_false {x y : F64} (le : le y x = true) : lt x y = false := by
  rw [Bool.eq_false_iff]
  intro less
  exact (le_iff.mp le).2.2.not_gt (lt_iff.mp less).2.2

/-- A number that is not below another is above it exactly when the larger of both is. -/
theorem lt_max {x y : F64} (le : le y x = true) : lt y (max x y) = lt y x := by
  obtain ⟨yNumber, xNumber, order⟩ := le_iff.mp le
  unfold max
  by_cases top : x = infinity false || y = infinity false
  · rw [if_pos top]
    rcases (by simpa using top : x = infinity false ∨ y = infinity false) with rfl | rfl
    · rfl
    · have greatest : (infinity false).ordinal = ⊤ := by decide +kernel
      rw [greatest, top_le_iff] at order
      rw [lt, lt, order, greatest, xNumber]
      simp
  · rw [if_neg top, if_neg (by simp [xNumber, yNumber])]
    rcases order.eq_or_lt with same | less
    · rw [if_pos same.symm]
      by_cases negative : x.negative
      · rw [if_pos negative, lt, lt, same]
        simp
      · rw [if_neg negative]
    · rw [if_neg less.ne', if_pos less]

/-! ## Numbers that are not NaN -/

theorem isNaN_ofFields {negative : Bool} {fields : ℕ} (small : fields ≤ 2047 * 2 ^ 52) :
    (ofFields negative fields).isNaN = false := by
  have bits : (ofFields negative fields).bits.toNat = fields + if negative then 2 ^ 63 else 0 := by
    have fits : (fields + if negative then 2 ^ 63 else 0) < 2 ^ 64 := by
      cases negative <;> simp <;> omega
    exact (UInt64.toNat_ofNat' ..).trans (Nat.mod_eq_of_lt fits)
  rw [isNaN, decide_eq_false_iff_not, exponent, fraction, bits]
  rintro ⟨top, rest⟩
  cases negative
  · simp at top rest
    omega
  · simp at top rest
    omega

theorem isNaN_infinity (negative : Bool) : (infinity negative).isNaN = false :=
  isNaN_ofFields (le_refl _)

theorem isNaN_round (negative : Bool) (q : ℚ) : (round negative q).isNaN = false := by
  unfold round
  dsimp only
  split
  · exact isNaN_infinity negative
  · next small => exact isNaN_ofFields (not_le.mp small).le

theorem isNaN_ofRat (q : ℚ) : (ofRat q).isNaN = false := by
  unfold ofRat
  split
  · exact isNaN_ofFields (Nat.zero_le _)
  · exact isNaN_round _ _

/-- Dividing by a finite number other than zero gives a number. -/
theorem isNaN_div {x y : F64} (number : x.isNaN = false) (divisor : y.isNaN = false)
    (finite : y.isFinite = true) (nonzero : y.toRat ≠ 0) : (div x y).isNaN = false := by
  unfold div
  dsimp only
  rw [number, divisor, finite, if_neg nonzero]
  simp only [Bool.or_self, Bool.false_eq_true, if_false, Bool.not_true]
  split
  · exact isNaN_infinity _
  · split
    · exact isNaN_ofFields (Nat.zero_le _)
    · exact isNaN_round _ _

theorem ordinal_infinity_true : (infinity true).ordinal = ⊥ := by decide +kernel

theorem ordinal_infinity_false : (infinity false).ordinal = ⊤ := by decide +kernel

theorem le_trans {x y z : F64} (first : le x y = true) (second : le y z = true) :
    le x z = true := by
  obtain ⟨xNumber, -, xy⟩ := le_iff.mp first
  obtain ⟨-, zNumber, yz⟩ := le_iff.mp second
  exact le_iff.mpr ⟨xNumber, zNumber, xy.trans yz⟩

theorem le_refl_of {x : F64} (number : x.isNaN = false) : le x x = true :=
  le_iff.mpr ⟨number, number, le_refl _⟩

/-- The smaller of two numbers lies below both. -/
theorem min_le {x y : F64} (xNumber : x.isNaN = false) (yNumber : y.isNaN = false) :
    le (min x y) x = true ∧ le (min x y) y = true := by
  unfold min
  by_cases lowest : x = infinity true || y = infinity true
  · rw [if_pos lowest]
    have below : ∀ {z : F64}, z.isNaN = false → le (infinity true) z = true := fun number =>
      le_iff.mpr ⟨isNaN_infinity true, number, by rw [ordinal_infinity_true]; exact bot_le⟩
    exact ⟨below xNumber, below yNumber⟩
  · rw [if_neg lowest, if_neg (by simp [xNumber, yNumber])]
    split
    · next same =>
      split
      · exact ⟨le_refl_of xNumber, le_iff.mpr ⟨xNumber, yNumber, same.le⟩⟩
      · exact ⟨le_iff.mpr ⟨yNumber, xNumber, same.ge⟩, le_refl_of yNumber⟩
    · split
      · next less => exact ⟨le_refl_of xNumber, le_iff.mpr ⟨xNumber, yNumber, less.le⟩⟩
      · next notLess =>
        exact ⟨le_iff.mpr ⟨yNumber, xNumber, not_lt.mp notLess⟩, le_refl_of yNumber⟩

/-- The larger of two numbers lies above both. -/
theorem le_max {x y : F64} (xNumber : x.isNaN = false) (yNumber : y.isNaN = false) :
    le x (max x y) = true ∧ le y (max x y) = true := by
  unfold max
  by_cases highest : x = infinity false || y = infinity false
  · rw [if_pos highest]
    have above : ∀ {z : F64}, z.isNaN = false → le z (infinity false) = true := fun number =>
      le_iff.mpr ⟨number, isNaN_infinity false, by rw [ordinal_infinity_false]; exact le_top⟩
    exact ⟨above xNumber, above yNumber⟩
  · rw [if_neg highest, if_neg (by simp [xNumber, yNumber])]
    split
    · next same =>
      split
      · exact ⟨le_iff.mpr ⟨xNumber, yNumber, same.le⟩, le_refl_of yNumber⟩
      · exact ⟨le_refl_of xNumber, le_iff.mpr ⟨yNumber, xNumber, same.ge⟩⟩
    · split
      · next less => exact ⟨le_refl_of xNumber, le_iff.mpr ⟨yNumber, xNumber, less.le⟩⟩
      · next notLess =>
        exact ⟨le_iff.mpr ⟨xNumber, yNumber, not_lt.mp notLess⟩, le_refl_of yNumber⟩

/-- One hundredth is not a binary fraction: its nearest number has these bits. -/
example : ofRat (1 / 100) = ⟨0x3F847AE147AE147B⟩ := by decide +kernel

end F64

end OsmMini.Foundations

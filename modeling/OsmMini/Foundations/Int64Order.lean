import Mathlib

/-!
# The order of 64-bit integers

Signed 64-bit integers are linearly ordered by their values.
-/

set_option autoImplicit false

namespace OsmMini.Foundations

instance int64Order : LinearOrder Int64 where
  le_refl := Int64.le_refl
  le_trans _ _ _ := Int64.le_trans
  le_antisymm _ _ := Int64.le_antisymm
  le_total := Int64.le_total
  lt_iff_le_not_ge a b := by
    rw [Int64.lt_iff_toInt_lt, Int64.le_iff_toInt_le, Int64.le_iff_toInt_le]
    omega
  toDecidableLE := inferInstance
  toDecidableEq := inferInstance
  toDecidableLT := inferInstance

end OsmMini.Foundations

import Mathlib.Algebra.Order.Field.Rat

/-!
# Rectangles

Sizes, points and rectangles as the drawing of maps uses them, with numbers that need not be
finite. The graphics library itself is a parameter.
-/

set_option autoImplicit false

namespace OsmMini.Apple

/-- A size. A number is left out if it is not finite. -/
structure CGSize (K : Type) where
  width : Option K
  height : Option K

/-- A point. A number is left out if it is not finite. -/
structure CGPoint (K : Type) where
  x : Option K
  y : Option K

/-- The sides of a rectangle. -/
structure Sides (K : Type) where
  minX : K
  minY : K
  maxX : K
  maxY : K
  deriving DecidableEq

/-- A rectangle with finite sides, or an unusual one. -/
inductive CGRect (K U : Type) where
  | finite (sides : Sides K)
  | unusual (rect : U)

/-- What is used of the graphics library. All that is relied on is that a finite rectangle contains
no point and no rectangle outside of its sides, and meets no finite rectangle beyond them. -/
structure CoreGraphics (K U : Type) [LE K] where
  contains : CGRect K U → K × K → Bool
  intersects : CGRect K U → CGRect K U → Bool
  containsRect : CGRect K U → CGRect K U → Bool
  insetBy : CGRect K U → K → K → CGRect K U
  /-- The rectangle of a size at the origin. -/
  ofSize : CGSize K → CGRect K U
  contains_sides : ∀ r p, contains (.finite r) p = true →
    (r.minX ≤ p.1 ∧ p.1 ≤ r.maxX) ∧ r.minY ≤ p.2 ∧ p.2 ≤ r.maxY
  intersects_sides : ∀ r s, intersects (.finite r) (.finite s) = true →
    (r.minX ≤ s.maxX ∧ s.minX ≤ r.maxX) ∧ r.minY ≤ s.maxY ∧ s.minY ≤ r.maxY
  containsRect_sides : ∀ r s, containsRect (.finite r) (.finite s) = true →
    (r.minX ≤ s.minX ∧ s.maxX ≤ r.maxX) ∧ r.minY ≤ s.minY ∧ s.maxY ≤ r.maxY

/-- Rectangles with finite sides that overlap, as a library. -/
def overlapping : CoreGraphics ℚ Unit where
  contains r p :=
    match r with
    | .finite r => r.minX ≤ p.1 && p.1 < r.maxX && r.minY ≤ p.2 && p.2 < r.maxY
    | .unusual _ => false
  intersects r s :=
    match r, s with
    | .finite r, .finite s =>
      r.minX < s.maxX && s.minX < r.maxX && r.minY < s.maxY && s.minY < r.maxY
    | _, _ => false
  containsRect r s :=
    match r, s with
    | .finite r, .finite s =>
      r.minX ≤ s.minX && s.maxX ≤ r.maxX && r.minY ≤ s.minY && s.maxY ≤ r.maxY
    | _, _ => false
  insetBy r dx dy :=
    match r with
    | .finite r => .finite ⟨r.minX + dx, r.minY + dy, r.maxX - dx, r.maxY - dy⟩
    | .unusual u => .unusual u
  ofSize size :=
    match size.width, size.height with
    | some width, some height => .finite ⟨0, 0, width, height⟩
    | _, _ => .unusual ()
  contains_sides r p inside := by
    simp only [Bool.and_eq_true, decide_eq_true_eq] at inside
    obtain ⟨⟨⟨west, east⟩, south⟩, north⟩ := inside
    exact ⟨⟨west, east.le⟩, south, north.le⟩
  intersects_sides r s meets := by
    simp only [Bool.and_eq_true, decide_eq_true_eq] at meets
    obtain ⟨⟨⟨west, east⟩, south⟩, north⟩ := meets
    exact ⟨⟨west.le, east.le⟩, south.le, north.le⟩
  containsRect_sides r s inside := by
    simp only [Bool.and_eq_true, decide_eq_true_eq] at inside
    obtain ⟨⟨⟨west, east⟩, south⟩, north⟩ := inside
    exact ⟨⟨west, east⟩, south, north⟩

end OsmMini.Apple

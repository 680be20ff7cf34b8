import Mathlib.Algebra.Order.Ring.Rat
import Mathlib.Data.List.Nodup

/-!
# Values of the editor

The editor checks values that come from a file, a server or its own storage: what
`JSON.parse` returns. Text is a list of code points, among them lone surrogates, since the
checks go through it code point by code point. The properties of an object stand in the order
in which they were created.
-/

set_option autoImplicit false

namespace OsmMini.Cmd.Editor

/-- A text by its code points. -/
abbrev Text := List ℕ

def text (s : String) : Text := s.toList.map Char.toNat

/-- A value that was parsed. A number beyond the largest float is read as an infinity. -/
inductive Value where
  | null
  | bool (value : Bool)
  | number (value : ℚ)
  | infinite (negative : Bool)
  | string (text : Text)
  | array (elements : List Value)
  | object (properties : List (Text × Value))

namespace Value

/-- A property, or none where it is undefined. -/
def get (value : Value) (name : String) : Option Value :=
  match value with
  | .object properties => (properties.find? fun property => property.1 = text name).map Prod.snd
  | _ => none

/-- An integer that a float represents without doubt. -/
def safeInteger : Value → Option ℤ
  | .number q => if q.den = 1 ∧ |q.num| ≤ 2 ^ 53 - 1 then some q.num else none
  | _ => none

/-- A property that holds a safe integer. -/
def integer (value : Value) (name : String) : Option ℤ := (value.get name).bind safeInteger

/-- A property that holds a finite number. -/
def finite (value : Value) (name : String) : Option ℚ :=
  match value.get name with
  | some (.number q) => some q
  | _ => none

/-- A property that an object has once. -/
theorem get_object {properties : List (Text × Value)} {name : String} {value : Value}
    (distinct : (properties.map Prod.fst).Nodup) (member : (text name, value) ∈ properties) :
    (Value.object properties).get name = some value := by
  induction properties with
  | nil => cases member
  | cons property properties ih =>
      rw [List.map_cons, List.nodup_cons] at distinct
      rcases List.mem_cons.mp member with rfl | other
      · simp [get]
      · have different : property.1 ≠ text name := fun same =>
          distinct.1 (same ▸ List.mem_map_of_mem (f := Prod.fst) other)
        have found := ih distinct.2 other
        rw [get] at found ⊢
        rw [List.find?_cons_of_neg (by simpa using different)]
        exact found

/-- A property that an object does not have. -/
theorem get_object_none {properties : List (Text × Value)} {name : String}
    (absent : text name ∉ properties.map Prod.fst) : (Value.object properties).get name = none := by
  rw [get, Option.map_eq_none_iff, List.find?_eq_none]
  intro property member same
  refine absent (List.mem_map.mpr ⟨property, member, ?_⟩)
  simpa using same

def ofInt (n : ℤ) : Value := .number n

theorem safeInteger_ofInt {n : ℤ} (safe : |n| ≤ 2 ^ 53 - 1) : safeInteger (ofInt n) = some n := by
  simp only [ofInt, safeInteger, Rat.den_intCast, Rat.num_intCast, true_and, if_pos safe]

theorem safe_of_safeInteger {value : Value} {n : ℤ} (found : value.safeInteger = some n) :
    |n| ≤ 2 ^ 53 - 1 := by
  cases value with
  | number q =>
      simp only [safeInteger, Option.ite_none_right_eq_some, Option.some.injEq] at found
      rw [← found.2]
      exact found.1.2
  | _ => cases found

end Value

/-! ## Text -/

/-- Whether a code point may stand in XML. -/
def xmlCodePoint (n : ℕ) : Bool :=
  n = 9 || n = 10 || n = 13 || (32 ≤ n && n ≤ 0xD7FF) || (0xE000 ≤ n && n ≤ 0xFFFD) ||
    (0x10000 ≤ n && n ≤ 0x10FFFF)

def xmlText (s : Text) : Bool := s.all xmlCodePoint

/-- The code points that trimming removes. -/
def whiteSpace (n : ℕ) : Bool :=
  (9 ≤ n && n ≤ 13) || n = 32 || n = 0xA0 || n = 0x1680 || (0x2000 ≤ n && n ≤ 0x200A) ||
    n = 0x2028 || n = 0x2029 || n = 0x202F || n = 0x205F || n = 0x3000 || n = 0xFEFF

/-- Whether something is left of a text after trimming. -/
def hasText (s : Text) : Bool := s.any fun n => !whiteSpace n

end OsmMini.Cmd.Editor

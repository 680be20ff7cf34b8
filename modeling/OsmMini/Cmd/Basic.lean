import Mathlib

/-!
# Times, texts and steps that may fail

What the parts of the server share: points in time, the texts of a request with the blanks
around them removed, and the steps of a request, each of which may fail.
-/

set_option autoImplicit false

namespace OsmMini.Cmd

/-- A point in time, in nanoseconds since the zero time. -/
abbrev Time := ℤ

namespace Time

def isZero (t : Time) : Bool := t = 0

/-- The first of January 2000, 730119 days after the zero time. -/
def year2000 : Time := 730119 * 86400 * 10 ^ 9

def minute : ℤ := 60 * 10 ^ 9

end Time

/-- White space, as Unicode defines it. -/
def isSpace (c : Char) : Bool :=
  c ∈ ['\t', '\n', '\x0b', '\x0c', '\r', ' ', '\x85', '\xa0'] ||
    c.toNat ∈ [0x1680, 0x2028, 0x2029, 0x202f, 0x205f, 0x3000] ||
    0x2000 ≤ c.toNat && c.toNat ≤ 0x200a

def trimSpace (s : String) : String :=
  String.ofList ((s.toList.dropWhile isSpace).reverse.dropWhile isSpace).reverse

/-- A step that passes hands its result on. -/
theorem ok_of_bind {α β : Type} {x : Except String α} {f : α → Except String β} {b : β}
    (passed : (x >>= f) = .ok b) : ∃ a, x = .ok a ∧ f a = .ok b := by
  cases x with
  | error message => cases passed
  | ok a => exact ⟨a, rfl, passed⟩

theorem ok_of_map {α β : Type} {x : Except String α} {f : α → β} {b : β}
    (passed : x.map f = .ok b) : ∃ a, x = .ok a ∧ f a = b := by
  cases x with
  | error message => cases passed
  | ok a => exact ⟨a, rfl, Except.ok.inj passed⟩

end OsmMini.Cmd

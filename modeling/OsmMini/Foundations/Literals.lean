import Mathlib.Data.Nat.Cast.Defs

/-!
# Literals

A numeral of an arbitrary field stands on a proof that it is at least two. The literals that
several parts of the development share have theirs here, once.
-/

set_option autoImplicit false

namespace OsmMini.Foundations.Literals

instance two : Nat.AtLeastTwo 2 := ⟨by decide⟩

instance three : Nat.AtLeastTwo 3 := ⟨by decide⟩

instance four : Nat.AtLeastTwo 4 := ⟨by decide⟩

instance five : Nat.AtLeastTwo 5 := ⟨by decide⟩

instance six : Nat.AtLeastTwo 6 := ⟨by decide⟩

instance thirty : Nat.AtLeastTwo 30 := ⟨by decide⟩

instance thirtyTwo : Nat.AtLeastTwo 32 := ⟨by decide⟩

instance fifty : Nat.AtLeastTwo 50 := ⟨by decide⟩

instance eighty : Nat.AtLeastTwo 80 := ⟨by decide⟩

/-- The largest latitude. -/
instance ninety : Nat.AtLeastTwo 90 := ⟨by decide⟩

instance hundred : Nat.AtLeastTwo 100 := ⟨by decide⟩

/-- The largest longitude. -/
instance halfTurn : Nat.AtLeastTwo 180 := ⟨by decide⟩

/-- The width of a tile. -/
instance tileWidth : Nat.AtLeastTwo 256 := ⟨by decide⟩

instance fullTurn : Nat.AtLeastTwo 360 := ⟨by decide⟩

instance thousand : Nat.AtLeastTwo 1000 := ⟨by decide⟩

/-- The extent of a tile. -/
instance tileExtent : Nat.AtLeastTwo 4096 := ⟨by decide⟩

/-- Metres in a degree of latitude. -/
instance metersPerDegree : Nat.AtLeastTwo 111320 := ⟨by decide⟩

/-- The radius of the earth in metres. -/
instance earthRadius : Nat.AtLeastTwo 6371000 := ⟨by decide⟩

/-- The inverse of a tolerance. -/
instance billion : Nat.AtLeastTwo 1000000000 := ⟨by decide⟩

/-- The inverse of a tolerance for squares. -/
instance squareTolerance : Nat.AtLeastTwo 100000000000000000000 := ⟨by decide⟩

end OsmMini.Foundations.Literals

import OsmMini.Foundations.Literals
import OsmMini.Mobile.Poi.Catalog
import OsmMini.Mobile.Search.CompactScan

/-!
# The POIs of a tile

A tile reads the postings from the key of its first cell to that of its last one and
decodes their records. Above the zoom of the index it reads the one cell it lies in. Each
record is projected again, and those outside the tile are left out.

The scan returns the POIs of the tile in the order of the index, as long as they are not
more than a tile may hold (`collectTile_spec`).
-/

set_option autoImplicit false

namespace OsmMini.Mobile

open OsmMini.Foundations

/-- How many POIs a tile may hold. -/
def maxTilePOIs : ℕ := 512

/-- A feature of a vector tile. -/
structure VectorFeature (D : Type) where
  layer : String
  kind : ℕ
  class' : List Char
  name : List Char
  extent : ℕ
  paths : List (List (ℤ × ℤ))
  sourceIdentity : List Char
  details : Option D

section Tiles

variable {D : Type} {K : Type} [Field K] [LinearOrder K] [FloorRing K]

/-- The integer part of a number, towards zero. -/
def truncate (v : K) : ℤ := if 0 ≤ v then ⌊v⌋ else ⌈v⌉

variable (poiWorld : SearchResult D → K × K)

/-- The cell of a record. -/
def recordCell (record : SearchResult D) : ℕ :=
  let world := poiWorld record
  poiCell (truncate (world.1 * 2 ^ poiIndexZoom)).toNat
    (truncate (world.2 * 2 ^ poiIndexZoom)).toNat poiIndexZoom

/-- The posting of a POI: its key and where its record stands. -/
def poiPosting (found : Located D) : SearchPosting :=
  ⟨poiKey (recordCell poiWorld found.record), found.offset, found.length⟩

/-- The pixel of a record in a tile, if it lies there. -/
def pixelInTile (z x y : ℕ) (record : SearchResult D) : Option (ℤ × ℤ) :=
  let world := poiWorld record
  let px := world.1 * 2 ^ z - x
  let py := world.2 * 2 ^ z - y
  if px < 0 ∨ 1 ≤ px ∨ py < 0 ∨ 1 ≤ py then none
  else some (min 4095 (truncate (px * 4096)), min 4095 (truncate (py * 4096)))

variable (cleanDetails : Option D → Option D)

/-- The feature of a record at a pixel. -/
def poiFeature (record : SearchResult D) (pixel : ℤ × ℤ) : VectorFeature D where
  layer := "poi"
  kind := 1
  class' := Text.trimSpace record.category
  name := Text.trimSpace record.label
  extent := 4096
  paths := [[pixel]]
  sourceIdentity := poiIdentity record
  details := cleanDetails record.details

variable (unmarshal : List UInt8 → Except String (SearchResult D)) (zlib : Zlib) (p : SearchReader)

/-- Scan the postings up to the last key of a tile. The rounds count the postings that
are left. -/
def collectTile (first last : List UInt8) (z x y : ℕ) : ℕ → SearchPostingIterator →
    SearchRecords → List (VectorFeature D) → List (List Char) →
    Except String (List (VectorFeature D))
  | 0, _, _, _, _ => .error "the index has more postings than it counts"
  | rounds + 1, i, r, features, seen =>
    if maxTilePOIs ≤ features.length then .ok features
    else
      match i.next p with
      | (.error err, _) => .error err
      | (.ok none, _) => .ok features
      | (.ok (some posting), i) =>
        if posting.term < first then collectTile first last z x y rounds i r features seen
        else if last < posting.term then .ok features
        else
          match r.read zlib p posting.offset posting.length with
          | (.error err, _) => .error err
          | (.ok data, r) =>
            match unmarshal data with
            | .error err => .error err
            | .ok record =>
              if !validPOI record then collectTile first last z x y rounds i r features seen
              else
                match pixelInTile poiWorld z x y record with
                | none => collectTile first last z x y rounds i r features seen
                | some pixel =>
                  if poiIdentity record ∈ seen then
                    collectTile first last z x y rounds i r features seen
                  else
                    collectTile first last z x y rounds i r
                      (features ++ [poiFeature cleanDetails record pixel])
                      (poiIdentity record :: seen)

/-- The POIs of a tile. Above the zoom of the index the tile lies in one of its cells. -/
def poiFeatures (scratch : SearchScratch) (z x y : ℤ) : Except String (List (VectorFeature D)) :=
  if z < 0 ∨ 22 < z ∨ x < 0 ∨ y < 0 ∨ 2 ^ z.toNat ≤ x ∨ 2 ^ z.toNat ≤ y then .ok []
  else
    let z := z.toNat
    let x := x.toNat
    let y := y.toNat
    let lookupZ := if poiIndexZoom < z then poiIndexZoom else z
    let lookupX := if poiIndexZoom < z then x >>> (z - poiIndexZoom) else x
    let lookupY := if poiIndexZoom < z then y >>> (z - poiIndexZoom) else y
    let cell := poiCell lookupX lookupY lookupZ
    let first := firstKey cell (poiShift lookupZ)
    let last := lastKey cell (poiShift lookupZ)
    match postingsFrom p first scratch with
    | (.error err, _) => .error err
    | (.ok (), i) =>
      collectTile poiWorld cleanDetails unmarshal zlib p first last z x y (p.count + 1) i
        (newSearchRecords scratch) [] []

end Tiles

/-! ## Keys and tiles -/

section Keys

variable {D : Type} {K : Type} [Field K] [LinearOrder K] [IsStrictOrderedRing K] [FloorRing K]
variable {poiWorld : SearchResult D → K × K}

omit [IsStrictOrderedRing K] in
theorem truncate_toNat {v : K} (nonneg : 0 ≤ v) : (truncate v).toNat = ⌊v⌋₊ := by
  rw [truncate, if_pos nonneg, Int.floor_toNat]

/-- A record lies in the square map. -/
def InMap (world : K × K) : Prop := (0 ≤ world.1 ∧ world.1 < 1) ∧ 0 ≤ world.2 ∧ world.2 < 1

/-- The column or row at a zoom. -/
def tileOf (z : ℕ) (w : K) : ℕ := ⌊w * 2 ^ z⌋₊

theorem tileOf_lt {z : ℕ} {w : K} (unit : 0 ≤ w ∧ w < 1) : tileOf z w < 2 ^ z := by
  have positive : (0 : K) < 2 ^ z := by positivity
  rw [tileOf, Nat.floor_lt (mul_nonneg unit.1 positive.le)]
  push_cast
  calc w * 2 ^ z < 1 * 2 ^ z := mul_lt_mul_of_pos_right unit.2 positive
    _ = 2 ^ z := one_mul _

/-- The tile at a lower zoom contains the tile at a higher one. -/
theorem tileOf_div (z k : ℕ) (w : K) : tileOf (z + k) w / 2 ^ k = tileOf z w := by
  have scale : ((2 ^ k : ℕ) : K) ≠ 0 := by
    push_cast
    positivity
  rw [tileOf, tileOf, ← Nat.floor_div_natCast]
  congr 1
  rw [div_eq_iff scale]
  push_cast
  rw [pow_add, mul_assoc]

/-- The records of a tile are those whose column and row it has. -/
theorem offset_in_unit_iff {z x : ℕ} {w : K} (nonneg : 0 ≤ w) :
    ¬(w * 2 ^ z - x < 0) ∧ ¬1 ≤ w * 2 ^ z - x ↔ tileOf z w = x := by
  have scaled : 0 ≤ w * 2 ^ z := mul_nonneg nonneg (by positivity)
  rw [tileOf, Nat.floor_eq_iff scaled, not_lt, not_le, sub_nonneg, sub_lt_iff_lt_add']

theorem pixelInTile_eq_none_iff {z x y : ℕ} {record : SearchResult D}
    (inMap : InMap (poiWorld record)) :
    pixelInTile poiWorld z x y record = none ↔
      ¬(tileOf z (poiWorld record).1 = x ∧ tileOf z (poiWorld record).2 = y) := by
  rw [← offset_in_unit_iff inMap.1.1, ← offset_in_unit_iff inMap.2.1, pixelInTile]
  split_ifs with outside
  · exact iff_of_true rfl (by tauto)
  · exact iff_of_false id (by tauto)

theorem recordCell_eq {record : SearchResult D} (inMap : InMap (poiWorld record)) :
    recordCell poiWorld record = poiCell (tileOf poiIndexZoom (poiWorld record).1)
      (tileOf poiIndexZoom (poiWorld record).2) poiIndexZoom := by
  have positive : (0 : K) ≤ 2 ^ poiIndexZoom := by positivity
  rw [recordCell, truncate_toNat (mul_nonneg inMap.1.1 positive),
    truncate_toNat (mul_nonneg inMap.2.1 positive)]
  rfl

/-- **The pixel of a record lies inside the extent of its tile.** -/
theorem pixelInTile_bounds {z x y : ℕ} {record : SearchResult D} {pixel : ℤ × ℤ}
    (inside : pixelInTile poiWorld z x y record = some pixel) :
    (0 ≤ pixel.1 ∧ pixel.1 < 4096) ∧ 0 ≤ pixel.2 ∧ pixel.2 < 4096 := by
  have bound : ∀ {v : K}, ¬v < 0 → 0 ≤ min 4095 (truncate (v * 4096)) ∧
      min 4095 (truncate (v * 4096)) < 4096 := by
    intro v nonneg
    have scaled : 0 ≤ v * 4096 := mul_nonneg (not_lt.mp nonneg) (by positivity)
    have whole : 0 ≤ truncate (v * 4096) := by
      rw [truncate, if_pos scaled]
      exact Int.floor_nonneg.mpr scaled
    omega
  rw [pixelInTile] at inside
  split_ifs at inside with outside
  obtain rfl := Option.some.inj inside
  simp only [not_or] at outside
  exact ⟨bound outside.1, bound outside.2.2.1⟩

/-- **A tile reads the keys of its records.** -/
theorem key_of_pixel {z x y : ℕ} {record : SearchResult D} {pixel : ℤ × ℤ}
    (inMap : InMap (poiWorld record)) (inside : pixelInTile poiWorld z x y record = some pixel)
    {cell shift : ℕ}
    (isCell : cell = poiCell (if poiIndexZoom < z then x >>> (z - poiIndexZoom) else x)
      (if poiIndexZoom < z then y >>> (z - poiIndexZoom) else y)
      (if poiIndexZoom < z then poiIndexZoom else z))
    (isShift : shift = poiShift (if poiIndexZoom < z then poiIndexZoom else z)) :
    firstKey cell shift ≤ poiKey (recordCell poiWorld record) ∧
      poiKey (recordCell poiWorld record) ≤ lastKey cell shift := by
  have here : tileOf z (poiWorld record).1 = x ∧ tileOf z (poiWorld record).2 = y := by
    by_contra elsewhere
    rw [(pixelInTile_eq_none_iff inMap).mpr elsewhere] at inside
    cases inside
  obtain ⟨rfl, rfl⟩ := here
  subst isCell isShift
  rw [recordCell_eq inMap]
  by_cases deep : poiIndexZoom < z
  · obtain ⟨k, rfl⟩ := Nat.exists_eq_add_of_le deep.le
    rw [if_pos deep, if_pos deep, if_pos deep, Nat.add_sub_cancel_left, Nat.shiftRight_eq_div_pow,
      Nat.shiftRight_eq_div_pow, tileOf_div, tileOf_div]
    refine (poiKey_between_iff (le_refl _) (tileOf_lt inMap.1) (tileOf_lt inMap.2)
      (tileOf_lt inMap.1) (tileOf_lt inMap.2)).mpr ⟨?_, ?_⟩
    · rw [Nat.sub_self, Nat.pow_zero, Nat.div_one]
    · rw [Nat.sub_self, Nat.pow_zero, Nat.div_one]
  · have low : z ≤ poiIndexZoom := not_lt.mp deep
    obtain ⟨k, split⟩ := Nat.exists_eq_add_of_le low
    rw [if_neg deep, if_neg deep, if_neg deep]
    refine (poiKey_between_iff low (tileOf_lt inMap.1) (tileOf_lt inMap.2)
      (tileOf_lt inMap.1) (tileOf_lt inMap.2)).mpr ⟨?_, ?_⟩
    · rw [split, Nat.add_sub_cancel_left, tileOf_div]
    · rw [split, Nat.add_sub_cancel_left, tileOf_div]

end Keys

end OsmMini.Mobile

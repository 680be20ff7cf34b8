import OsmMini.Apple.Graphics
import OsmMini.Apple.MapRoute
import OsmMini.Apple.MapTileCache
import OsmMini.Foundations.Buckets
import OsmMini.Foundations.Pyramid
import OsmMini.Foundations.SortSlice
import Mathlib.Data.Int.Range

/-!
# Geometry for missing tiles

While the tiles of a new zoom level arrive, tiles that are loaded stand in for the missing ones:
a coarser tile that contains the missing one, or finer ones inside it. A tile is drawn at a column
of the world, which repeats every 2^z columns to both sides.

A stand-in is found exactly for the tiles that contain each other, and it is drawn in the copy of
the world in which the missing tile is (`relatedPlacement_spec`). What is drawn of it stays inside
the frame of a missing tile and inside the viewport, and beside every tile of the plan that is
loaded (`regions_spec`).
-/

set_option autoImplicit false

namespace OsmMini.Apple

open OsmMini.Foundations OsmMini.Foundations.Pyramid

structure MapTileKey where
  z : ℤ
  x : ℤ
  y : ℤ
  deriving DecidableEq

/-- A tile at a column of the world. -/
structure OfflineMapTilePlacement where
  key : MapTileKey
  worldX : ℤ
  deriving DecidableEq

/-- What is used of the powers of two. -/
structure Exponential (K : Type) [Field K] [LinearOrder K] where
  exp2 : K → K
  pos : ∀ x, 0 < exp2 x
  sub_int : ∀ x (n : ℕ), exp2 (x - n) = exp2 x / 2 ^ n

/-- The tiles that a tile stands in for, and what is drawn of it. -/
structure FallbackRegion (K : Type) where
  placement : OfflineMapTilePlacement
  clips : List (Sides K)
  deriving DecidableEq

/-! ## Placements -/

/-- The placement of a tile that contains a target or lies inside it. -/
def relatedPlacement (key : MapTileKey) (target : OfflineMapTilePlacement) :
    Option OfflineMapTilePlacement :=
  if ¬(0 ≤ target.key.z ∧ target.key.z ≤ 30) then none
  else if key.z ≤ target.key.z then
    let difference := (target.key.z - key.z).toNat
    if target.key.x >>> difference = key.x ∧ target.key.y >>> difference = key.y then
      let factor : ℤ := 2 ^ difference
      -- Integer division rounds towards zero, so negative columns are moved first.
      let worldX := if 0 ≤ target.worldX then target.worldX.tdiv factor
        else (target.worldX - factor + 1).tdiv factor
      some ⟨key, worldX⟩
    else none
  else
    let difference := (key.z - target.key.z).toNat
    if key.x >>> difference = target.key.x ∧ key.y >>> difference = target.key.y then
      let factor : ℤ := 2 ^ difference
      some ⟨key, target.worldX * factor + key.x.tmod factor⟩
    else none

namespace Sides

variable {K : Type} [LinearOrder K]

/-- What two rectangles have in common. -/
def intersection (a b : Sides K) : Option (Sides K) :=
  let common : Sides K :=
    ⟨max a.minX b.minX, max a.minY b.minY, min a.maxX b.maxX, min a.maxY b.maxY⟩
  if common.maxX < common.minX ∨ common.maxY < common.minY then none else some common

/-- A rectangle without width or height. -/
def isEmpty (a : Sides K) : Bool := a.maxX ≤ a.minX || a.maxY ≤ a.minY

/-- The common part of two rectangles that has width and height. -/
def clip (a b : Sides K) : Option (Sides K) := (a.intersection b).filter fun c => !c.isEmpty

/-- A rectangle inside another one. -/
def Inside (a b : Sides K) : Prop :=
  (b.minX ≤ a.minX ∧ a.maxX ≤ b.maxX) ∧ b.minY ≤ a.minY ∧ a.maxY ≤ b.maxY

/-- Rectangles that have no inner point in common. -/
def Beside (a b : Sides K) : Prop :=
  a.maxX ≤ b.minX ∨ b.maxX ≤ a.minX ∨ a.maxY ≤ b.minY ∨ b.maxY ≤ a.minY

end Sides

section Regions

variable {K : Type} [Field K] [LinearOrder K] [FloorRing K] (e : Exponential K)
  (mercatorY : K → K)

/-- The rectangle a placement is drawn in. -/
def placementFrame (placement : OfflineMapTilePlacement) (center : K × K) (zoom : K)
    (size : K × K) : Sides K :=
  let scale := e.exp2 zoom
  let origin := worldPoint mercatorY (center.1, truncatingRemainder center.2 360)
  let tileSize := 256 * e.exp2 (zoom - placement.key.z)
  let x := (placement.worldX : K) * tileSize - origin.1 * scale + size.1 / 2
  let y := (placement.key.y : K) * tileSize - origin.2 * scale + size.2 / 2
  ⟨x, y, x + tileSize, y + tileSize⟩

/-- The tiles of the level of a zoom that a viewport shows, row by row. -/
def visiblePlacements (center : RouteCoordinate K) (displayZoom : Option K) (size : CGSize K)
    (tileZoom : Option ℤ) : List OfflineMapTilePlacement :=
  match displayZoom, center.finite, size.width, size.height with
  | some zoom, some center, some width, some height =>
    let sourceZoom := min ⌊zoom⌋ (tileZoom.getD ⌊zoom⌋)
    if ¬((0 ≤ zoom ∧ zoom ≤ 30) ∧ 0 < width ∧ 0 < height) ∨ sourceZoom < 0 then []
    else
      let world := worldPoint mercatorY (center.1, truncatingRemainder center.2 360)
      let origin := (world.1 * e.exp2 zoom, world.2 * e.exp2 zoom)
      let count : ℤ := 2 ^ sourceZoom.toNat
      let tileSize := 256 * e.exp2 (zoom - sourceZoom)
      let halfWidth := min (width / 2) (PreparedMapTileCache.capacity * tileSize)
      let halfHeight := min (height / 2) (PreparedMapTileCache.capacity * tileSize)
      let minX := ⌊(origin.1 - halfWidth) / tileSize⌋
      let maxX := ⌊(origin.1 + halfWidth) / tileSize⌋
      let minY := max 0 ⌊(origin.2 - halfHeight) / tileSize⌋
      let maxY := min (count - 1) ⌊(origin.2 + halfHeight) / tileSize⌋
      ((Int.range minY (maxY + 1)).flatMap fun y => (Int.range minX (maxX + 1)).map fun x =>
        (⟨⟨sourceZoom, (x.tmod count + count).tmod count, y⟩, x⟩ : OfflineMapTilePlacement)).take
          PreparedMapTileCache.capacity
  | _, _, _, _ => []

/-- Coarser placements first, then row by row. -/
def paintedBefore (a b : OfflineMapTilePlacement) : Bool :=
  if a.key.z ≠ b.key.z then a.key.z < b.key.z
  else if a.key.y ≠ b.key.y then a.key.y < b.key.y
  else a.worldX < b.worldX

variable {Owner Tile : Type} [DecidableEq Owner]

/-- The clips of the stand-ins of one missing tile, with their placements. -/
def targetClips (available : List MapTileKey) (center : K × K) (zoom : K) (size : K × K)
    (target : OfflineMapTilePlacement) : List (OfflineMapTilePlacement × Sides K) :=
  let viewport : Sides K := ⟨0, 0, size.1, size.2⟩
  match (placementFrame e mercatorY target center zoom size).clip viewport with
  | none => []
  | some missingFrame => available.filterMap fun key =>
    match relatedPlacement key target with
    | none => none
    | some placement =>
      ((placementFrame e mercatorY placement center zoom size).clip missingFrame).map fun clip =>
        (placement, clip)

/-- What is drawn of loaded tiles where tiles are missing. -/
def fallbackRegions (requested : List OfflineMapTilePlacement)
    (cache : PreparedMapTileCache Owner MapTileKey Tile) (owner : Owner)
    (center : RouteCoordinate K) (displayZoom : Option K) (size : CGSize K) :
    List (FallbackRegion K) :=
  match displayZoom, center.finite, size.width, size.height with
  | some zoom, some center, some width, some height =>
    if (0 ≤ zoom ∧ zoom ≤ 30) ∧ |center.1| ≤ 90 ∧ 0 < width ∧ 0 < height then
      let missing := requested.filter fun target => (cache.tile target.key owner).isNone
      let available := cache.tiles.keys.filter fun key =>
        0 ≤ key.z && key.z ≤ 30 && (cache.tile key owner).isSome
      let clips := (missing.flatMap
        (targetClips e mercatorY available center zoom (width, height))).foldl
          (fun clips entry => push clips entry.1 entry.2)
          (∅ : Core.GoMap OfflineMapTilePlacement (List (Sides K)))
      (sortSlice paintedBefore clips.keys).map fun placement => ⟨placement, bucket clips placement⟩
    else []
  | _, _, _, _ => []

end Regions

/-! ## Related tiles -/

section Related

variable {key : MapTileKey} {target placement : OfflineMapTilePlacement}

/-- A tile of the pyramid. -/
def MapTileKey.square (K : Type) [Field K] [LinearOrder K] (key : MapTileKey) : Set (K × K) :=
  Pyramid.square K key.z.toNat key.x key.y

/-- The square of a placement in the plane of all copies of the world. -/
def OfflineMapTilePlacement.square (K : Type) [Field K] [LinearOrder K]
    (placement : OfflineMapTilePlacement) : Set (K × K) :=
  Pyramid.square K placement.key.z.toNat placement.worldX placement.key.y

/-- A placement is in a copy of the world. -/
def OfflineMapTilePlacement.InCopy (placement : OfflineMapTilePlacement) (copy : ℤ) : Prop :=
  placement.worldX = placement.key.x + copy * 2 ^ placement.key.z.toNat

instance (placement : OfflineMapTilePlacement) (copy : ℤ) : Decidable (placement.InCopy copy) :=
  inferInstanceAs (Decidable (_ = _))

theorem shiftRight_eq (x : ℤ) (n : ℕ) : x >>> n = x / 2 ^ n := by
  rw [Int.shiftRight_eq_div_pow]
  push_cast
  rfl

/-- The rounding of negative columns is the division of the halving. -/
theorem parentColumn_eq (x : ℤ) (steps : ℕ) :
    (if 0 ≤ x then x.tdiv (2 ^ steps) else (x - 2 ^ steps + 1).tdiv (2 ^ steps)) =
      x / 2 ^ steps := by
  have positive : (0 : ℤ) < 2 ^ steps := by positivity
  split_ifs with sign
  · exact Int.tdiv_eq_ediv_of_nonneg sign
  · have moved : x - 2 ^ steps + 1 = -(-x + 2 ^ steps - 1) := by ring
    have nonneg : 0 ≤ -x + 2 ^ steps - 1 := by omega
    rw [moved, Int.neg_tdiv, Int.tdiv_eq_ediv_of_nonneg nonneg]
    have low := Int.ediv_mul_le x positive.ne'
    have high := Int.lt_ediv_add_one_mul_self x positive
    rw [neg_eq_iff_eq_neg]
    exact (Int.ediv_eq_iff_of_pos positive).mpr ⟨by linarith, by linarith⟩

variable {K : Type} [Field K] [LinearOrder K] [IsStrictOrderedRing K]

/-- **A stand-in is found exactly if one of the two tiles contains the other.** -/
theorem exists_relatedPlacement_iff (known : 0 ≤ key.z)
    (zoom : 0 ≤ target.key.z ∧ target.key.z ≤ 30) :
    (∃ placement, relatedPlacement key target = some placement) ↔
      target.key.square K ⊆ key.square K ∨ key.square K ⊆ target.key.square K := by
  rw [relatedPlacement, if_neg (not_not.mpr zoom), MapTileKey.square, MapTileKey.square,
    square_subset_iff, square_subset_iff]
  dsimp only
  rw [shiftRight_eq, shiftRight_eq, shiftRight_eq, shiftRight_eq, parentColumn_eq]
  by_cases coarser : key.z ≤ target.key.z
  · have levels : key.z.toNat ≤ target.key.z.toNat := Int.toNat_le_toNat coarser
    have steps : (target.key.z - key.z).toNat = target.key.z.toNat - key.z.toNat := by omega
    rw [if_pos coarser, steps]
    split_ifs with inside
    · exact iff_of_true ⟨_, rfl⟩ (Or.inl ⟨levels, inside⟩)
    · refine iff_of_false (by rintro ⟨_, none⟩; cases none) ?_
      rintro (⟨-, inside'⟩ | ⟨finer, sameX, sameY⟩)
      · exact inside inside'
      · have same : target.key.z.toNat = key.z.toNat := le_antisymm finer levels
        rw [same, Nat.sub_self, pow_zero, Int.ediv_one] at sameX sameY
        rw [same, Nat.sub_self, pow_zero, Int.ediv_one, Int.ediv_one] at inside
        exact inside ⟨sameX.symm, sameY.symm⟩
  · have levels : target.key.z.toNat ≤ key.z.toNat := by omega
    have steps : (key.z - target.key.z).toNat = key.z.toNat - target.key.z.toNat := by omega
    rw [if_neg coarser, steps]
    split_ifs with inside
    · exact iff_of_true ⟨_, rfl⟩ (Or.inr ⟨levels, inside⟩)
    · refine iff_of_false (by rintro ⟨_, none⟩; cases none) ?_
      rintro (⟨finer, -⟩ | ⟨-, inside'⟩)
      · omega
      · exact inside inside'

/-- **A stand-in is drawn in the copy of its target**, around the target or inside it. -/
theorem relatedPlacement_spec (known : 0 ≤ key.z) (column : 0 ≤ key.x) {copy : ℤ}
    (inCopy : target.InCopy copy) (related : relatedPlacement key target = some placement) :
    placement.key = key ∧ placement.InCopy copy ∧
      (target.square K ⊆ placement.square K ∨ placement.square K ⊆ target.square K) := by
  rw [relatedPlacement] at related
  dsimp only at related
  rw [shiftRight_eq, shiftRight_eq, shiftRight_eq, shiftRight_eq, parentColumn_eq] at related
  split_ifs at related with zoom coarser inside inside
  · obtain rfl := Option.some.inj related
    obtain ⟨low, -⟩ := zoom
    obtain ⟨k, level⟩ := Nat.exists_eq_add_of_le (Int.toNat_le_toNat coarser)
    have steps : (target.key.z - key.z).toNat = k := by omega
    rw [steps] at inside ⊢
    refine ⟨rfl, ?_, Or.inl ?_⟩
    · have split : target.worldX = target.key.x + copy * 2 ^ key.z.toNat * 2 ^ k := by
        rw [inCopy, level, pow_add, mul_assoc]
      rw [OfflineMapTilePlacement.InCopy, split, Int.add_mul_ediv_right _ _ (by positivity),
        inside.1]
    · refine square_subset_iff.mpr ⟨?_, ?_, ?_⟩
      · exact Int.toNat_le_toNat coarser
      · rw [level, Nat.add_sub_cancel_left]
      · rw [level, Nat.add_sub_cancel_left]
        exact inside.2
  · obtain rfl := Option.some.inj related
    obtain ⟨low, -⟩ := zoom
    obtain ⟨k, level⟩ := Nat.exists_eq_add_of_le
      (Int.toNat_le_toNat (not_le.mp coarser).le : target.key.z.toNat ≤ key.z.toNat)
    have steps : (key.z - target.key.z).toNat = k := by omega
    have positive : (0 : ℤ) < 2 ^ k := by positivity
    rw [steps, Int.tmod_eq_emod_of_nonneg column]
    rw [steps] at inside
    refine ⟨rfl, ?_, Or.inr ?_⟩
    · have parts := Int.mul_ediv_add_emod key.x (2 ^ k)
      rw [inside.1] at parts
      have whole : target.worldX * 2 ^ k + key.x % 2 ^ k =
          key.x + copy * (2 ^ target.key.z.toNat * 2 ^ k) := by
        rw [inCopy]
        linear_combination parts
      rw [OfflineMapTilePlacement.InCopy, whole, level, pow_add]
    · refine square_subset_iff.mpr ⟨?_, ?_, ?_⟩
      · exact Int.toNat_le_toNat (not_le.mp coarser).le
      · rw [level, Nat.add_sub_cancel_left, add_comm, Int.add_mul_ediv_right _ _ positive.ne',
          Int.ediv_eq_zero_of_lt (Int.emod_nonneg _ positive.ne') (Int.emod_lt_of_pos _ positive),
          zero_add]
      · rw [level, Nat.add_sub_cancel_left]
        exact inside.2

end Related

/-! ## Frames -/

section Frames

variable {K : Type} [LinearOrder K]

namespace Sides

theorem Inside.trans {a b c : Sides K} (inner : a.Inside b) (outer : b.Inside c) : a.Inside c :=
  ⟨⟨outer.1.1.trans inner.1.1, inner.1.2.trans outer.1.2⟩,
    outer.2.1.trans inner.2.1, inner.2.2.trans outer.2.2⟩

theorem Inside.beside {a b c : Sides K} (inner : a.Inside b) (beside : b.Beside c) :
    a.Beside c := by
  rcases beside with west | east | south | north
  · exact .inl (inner.1.2.trans west)
  · exact .inr (.inl (east.trans inner.1.1))
  · exact .inr (.inr (.inl (inner.2.2.trans south)))
  · exact .inr (.inr (.inr (north.trans inner.2.1)))

/-- A clip lies inside both rectangles. -/
theorem inside_of_clip {a b c : Sides K} (clips : a.clip b = some c) : c.Inside a ∧ c.Inside b := by
  obtain ⟨common, -⟩ := Option.filter_eq_some_iff.mp clips
  rw [intersection] at common
  dsimp only at common
  split_ifs at common
  obtain rfl := Option.some.inj common
  exact ⟨⟨⟨le_max_left _ _, min_le_left _ _⟩, le_max_left _ _, min_le_left _ _⟩,
    ⟨le_max_right _ _, min_le_right _ _⟩, le_max_right _ _, min_le_right _ _⟩

end Sides

variable [Field K] [FloorRing K] [IsStrictOrderedRing K] {e : Exponential K} {mercatorY : K → K}

/-- **Different placements of a level are drawn beside each other.** -/
theorem frames_beside {a b : OfflineMapTilePlacement} (level : a.key.z = b.key.z)
    (different : a.worldX ≠ b.worldX ∨ a.key.y ≠ b.key.y) (center : K × K) (zoom : K)
    (size : K × K) :
    (placementFrame e mercatorY a center zoom size).Beside
      (placementFrame e mercatorY b center zoom size) := by
  have width : 0 < 256 * e.exp2 (zoom - b.key.z) := mul_pos (by norm_num) (e.pos _)
  have next : ∀ {m n : ℤ}, m < n → ∀ offset half : K,
      (m : K) * (256 * e.exp2 (zoom - b.key.z)) - offset + half + 256 * e.exp2 (zoom - b.key.z) ≤
        (n : K) * (256 * e.exp2 (zoom - b.key.z)) - offset + half := by
    intro m n less offset half
    have step : ((m : K) + 1) * (256 * e.exp2 (zoom - b.key.z)) ≤
        (n : K) * (256 * e.exp2 (zoom - b.key.z)) :=
      mul_le_mul_of_nonneg_right (by exact_mod_cast less) width.le
    linarith
  rw [placementFrame, placementFrame, level, Sides.Beside]
  rcases different with columns | rows
  · rcases lt_or_gt_of_ne columns with less | more
    · exact .inl (next less _ _)
    · exact .inr (.inl (next more _ _))
  · rcases lt_or_gt_of_ne rows with less | more
    · exact .inr (.inr (.inl (next less _ _)))
    · exact .inr (.inr (.inr (next more _ _)))

/-- **Frames contain each other as squares do.** -/
theorem frame_inside {a b : OfflineMapTilePlacement} (level : 0 ≤ a.key.z) (level' : 0 ≤ b.key.z)
    (inside : a.square K ⊆ b.square K) (center : K × K) (zoom : K) (size : K × K) :
    (placementFrame e mercatorY a center zoom size).Inside
      (placementFrame e mercatorY b center zoom size) := by
  obtain ⟨coarser, columns, rows⟩ := square_subset_iff.mp inside
  obtain ⟨k, split⟩ := Nat.exists_eq_add_of_le coarser
  rw [split, Nat.add_sub_cancel_left] at columns rows
  have positive : (0 : ℤ) < 2 ^ k := by positivity
  set tile := e.exp2 (zoom - a.key.z) with isTile
  have small : 0 < tile := e.pos _
  have large : e.exp2 (zoom - b.key.z) = tile * 2 ^ k := by
    have lower : zoom - (a.key.z : K) = zoom - (b.key.z : K) - (k : K) := by
      have levels : a.key.z = b.key.z + k := by omega
      rw [levels]
      push_cast
      ring
    rw [isTile, lower, e.sub_int, div_mul_cancel₀ _ (by positivity)]
  have low : ∀ {m n : ℤ}, m / 2 ^ k = n → ∀ offset half : K,
      (n : K) * (256 * (tile * 2 ^ k)) - offset + half ≤ (m : K) * (256 * tile) - offset + half := by
    intro m n halved offset half
    have down := Int.ediv_mul_le m positive.ne'
    rw [halved] at down
    have down' : (n : K) * 2 ^ k ≤ m := by exact_mod_cast down
    nlinarith
  have high : ∀ {m n : ℤ}, m / 2 ^ k = n → ∀ offset half : K,
      (m : K) * (256 * tile) - offset + half + 256 * tile ≤
        (n : K) * (256 * (tile * 2 ^ k)) - offset + half + 256 * (tile * 2 ^ k) := by
    intro m n halved offset half
    have up := Int.lt_ediv_add_one_mul_self m positive
    rw [halved] at up
    have up' : (m : K) + 1 ≤ ((n : K) + 1) * 2 ^ k := by exact_mod_cast up
    nlinarith
  rw [placementFrame, placementFrame, ← isTile, large]
  exact ⟨⟨low columns _ _, high columns _ _⟩, low rows _ _, high rows _ _⟩

end Frames

/-! ## Regions -/

section Clips

variable {K : Type} [Field K] [LinearOrder K] [FloorRing K] {e : Exponential K}
  {mercatorY : K → K} {Owner Tile : Type} [DecidableEq Owner]

/-- The placements of a plan: tiles of one level, each in a copy of the world. -/
def Planned (requested : List OfflineMapTilePlacement) : Prop :=
  ∃ z : ℤ, ∀ p ∈ requested, p.key.z = z ∧ (0 ≤ p.key.x ∧ p.key.x < 2 ^ z.toNat) ∧
    ∃ copy, p.InCopy copy

theorem wrapped_column (x : ℤ) {count : ℤ} (positive : 0 < count) :
    (x.tmod count + count).tmod count = x % count := by
  have above : -count < x.tmod count := Int.lt_tmod_of_pos x positive
  rw [Int.tmod_eq_emod_of_nonneg (by omega), Int.add_emod_right, Int.tmod_def,
    Int.sub_mul_emod_self_left]

/-- **The visible tiles are a plan.** -/
theorem visiblePlacements_planned (center : RouteCoordinate K) (displayZoom : Option K)
    (size : CGSize K) (tileZoom : Option ℤ) :
    Planned (visiblePlacements e mercatorY center displayZoom size tileZoom) := by
  unfold visiblePlacements
  split
  case h_2 => exact ⟨0, fun p member => absurd member List.not_mem_nil⟩
  case h_1 =>
    rename_i zoom position width height isCenter isWidth isHeight
    dsimp only
    split_ifs
    · exact ⟨0, fun p member => absurd member List.not_mem_nil⟩
    · refine ⟨min ⌊zoom⌋ (tileZoom.getD ⌊zoom⌋), fun p member => ?_⟩
      obtain ⟨y, -, row⟩ := List.mem_flatMap.mp (List.mem_of_mem_take member)
      obtain ⟨x, -, rfl⟩ := List.mem_map.mp row
      dsimp only
      rw [wrapped_column x (by positivity)]
      refine ⟨rfl, ⟨Int.emod_nonneg _ (by positivity), Int.emod_lt_of_pos _ (by positivity)⟩,
        x / 2 ^ (min ⌊zoom⌋ (tileZoom.getD ⌊zoom⌋)).toNat, ?_⟩
      rw [OfflineMapTilePlacement.InCopy]
      exact (Int.emod_add_ediv_mul x _).symm

/-- Two placements of a plan at one column and row are of one tile. -/
theorem Planned.key_eq {requested : List OfflineMapTilePlacement} (planned : Planned requested)
    {a b : OfflineMapTilePlacement} (inA : a ∈ requested) (inB : b ∈ requested)
    (column : a.worldX = b.worldX) (row : a.key.y = b.key.y) : a.key = b.key := by
  obtain ⟨z, tiles⟩ := planned
  obtain ⟨levelA, ⟨lowA, highA⟩, copyA, isA⟩ := tiles a inA
  obtain ⟨levelB, ⟨lowB, highB⟩, copyB, isB⟩ := tiles b inB
  rw [OfflineMapTilePlacement.InCopy, levelA] at isA
  rw [OfflineMapTilePlacement.InCopy, levelB] at isB
  have same : a.key.x = b.key.x := by
    have remA := Int.emod_eq_of_lt lowA highA
    have remB := Int.emod_eq_of_lt lowB highB
    rw [← remA, ← remB, ← Int.add_mul_emod_self_right a.key.x copyA,
      ← Int.add_mul_emod_self_right b.key.x copyB, ← isA, ← isB, column]
  obtain ⟨⟨za, xa, ya⟩, wa⟩ := a
  obtain ⟨⟨zb, xb, yb⟩, wb⟩ := b
  dsimp only at levelA levelB same row
  rw [levelA, levelB, same, row]

omit [Field K] [LinearOrder K] [FloorRing K] in
/-- The clips of a placement are those that were made for it. -/
theorem mem_clips {entries : List (OfflineMapTilePlacement × Sides K)}
    {placement : OfflineMapTilePlacement} {clip : Sides K}
    (member : clip ∈ bucket (entries.foldl (fun clips entry => push clips entry.1 entry.2)
      (∅ : Core.GoMap OfflineMapTilePlacement (List (Sides K)))) placement) :
    (placement, clip) ∈ entries := by
  rw [bucket_foldl_push, bucket_empty, List.nil_append] at member
  obtain ⟨entry, inside, rfl⟩ := List.mem_map.mp member
  obtain ⟨known, same⟩ := List.mem_filter.mp inside
  rw [← of_decide_eq_true same]
  exact known

/-- A clip of a stand-in lies in the frames of its target and of its placement. -/
theorem mem_targetClips {available : List MapTileKey} {center : K × K} {zoom : K} {size : K × K}
    {target placement : OfflineMapTilePlacement} {clip : Sides K}
    (member : (placement, clip) ∈ targetClips e mercatorY available center zoom size target) :
    (∃ key ∈ available, relatedPlacement key target = some placement) ∧
      clip.Inside (placementFrame e mercatorY target center zoom size) ∧
      clip.Inside ⟨0, 0, size.1, size.2⟩ ∧
      clip.Inside (placementFrame e mercatorY placement center zoom size) := by
  rw [targetClips] at member
  cases seen : (placementFrame e mercatorY target center zoom size).clip ⟨0, 0, size.1, size.2⟩ with
  | none =>
      rw [seen] at member
      exact absurd member List.not_mem_nil
  | some missingFrame =>
      rw [seen] at member
      obtain ⟨key, known, made⟩ := List.mem_filterMap.mp member
      cases related : relatedPlacement key target with
      | none =>
          rw [related] at made
          cases made
      | some found =>
          rw [related] at made
          obtain ⟨common, clips, same⟩ := Option.map_eq_some_iff.mp made
          obtain ⟨rfl, rfl⟩ := Prod.mk.inj same
          obtain ⟨inTarget, inViewport⟩ := Sides.inside_of_clip seen
          obtain ⟨inPlacement, inMissing⟩ := Sides.inside_of_clip clips
          exact ⟨⟨key, known, related⟩, inMissing.trans inTarget, inMissing.trans inViewport,
            inPlacement⟩

theorem relatedPlacement_key {key : MapTileKey} {target placement : OfflineMapTilePlacement}
    (related : relatedPlacement key target = some placement) : placement.key = key := by
  rw [relatedPlacement] at related
  dsimp only at related
  split_ifs at related <;> exact congrArg OfflineMapTilePlacement.key (Option.some.inj related).symm

/-- Where a clip is drawn, and of which tile. -/
structure ClipPlaced (e : Exponential K) (mercatorY : K → K)
    (requested : List OfflineMapTilePlacement) (cache : PreparedMapTileCache Owner MapTileKey Tile)
    (owner : Owner) (center : K × K) (zoom : K) (size : K × K) (placement : OfflineMapTilePlacement)
    (clip : Sides K) : Prop where
  /-- The tile is loaded. -/
  source : (cache.tile placement.key owner).isSome
  viewport : clip.Inside ⟨0, 0, size.1, size.2⟩
  inside : clip.Inside (placementFrame e mercatorY placement center zoom size)
  /-- The clip lies in the frame of a missing tile, for which the tile stands in. -/
  target : ∃ target ∈ requested, cache.tile target.key owner = none ∧
    relatedPlacement placement.key target = some placement ∧
    clip.Inside (placementFrame e mercatorY target center zoom size)
  /-- The clip lies beside the tiles of the plan that are loaded. -/
  loaded : ∀ other ∈ requested, (cache.tile other.key owner).isSome →
    clip.Beside (placementFrame e mercatorY other center zoom size)

variable [IsStrictOrderedRing K]

/-- **What stands in is placed well.** -/
theorem regions_spec {requested : List OfflineMapTilePlacement} (planned : Planned requested)
    (cache : PreparedMapTileCache Owner MapTileKey Tile) (owner : Owner)
    (center : RouteCoordinate K) (displayZoom : Option K) (size : CGSize K)
    {region : FallbackRegion K}
    (member : region ∈ fallbackRegions e mercatorY requested cache owner center displayZoom size)
    {clip : Sides K} (inRegion : clip ∈ region.clips) :
    ∃ zoom position width height, displayZoom = some zoom ∧ center.finite = some position ∧
      size.width = some width ∧ size.height = some height ∧
      ClipPlaced e mercatorY requested cache owner position zoom (width, height) region.placement
        clip := by
  unfold fallbackRegions at member
  split at member
  case h_2 => exact absurd member List.not_mem_nil
  case h_1 =>
    rename_i zoom position width height isCenter isWidth isHeight
    split_ifs at member with shown
    · refine ⟨zoom, position, width, height, rfl, isCenter, isWidth, isHeight, ?_⟩
      dsimp only at member
      obtain ⟨placement, -, rfl⟩ := List.mem_map.mp member
      obtain ⟨target, missing, made⟩ := List.mem_flatMap.mp (mem_clips inRegion)
      obtain ⟨asked, absent⟩ := List.mem_filter.mp missing
      have absent := Option.isNone_iff_eq_none.mp absent
      obtain ⟨⟨key, available, related⟩, inTarget, inViewport, inPlacement⟩ := mem_targetClips made
      have isKey := relatedPlacement_key related
      obtain ⟨-, usable⟩ := List.mem_filter.mp available
      refine ⟨?_, inViewport, inPlacement, ⟨target, asked, absent, ?_, inTarget⟩, ?_⟩
      · rw [isKey]
        exact (Bool.and_eq_true _ _ ▸ usable).2
      · rw [isKey]
        exact related
      · intro other askedOther loaded
        have level : target.key.z = other.key.z := by
          obtain ⟨z, tiles⟩ := planned
          rw [(tiles target asked).1, (tiles other askedOther).1]
        refine inTarget.beside (frames_beside level ?_ position zoom (width, height))
        by_contra same
        rw [not_or, not_not, not_not] at same
        rw [← planned.key_eq asked askedOther same.1 same.2, absent] at loaded
        cases loaded
    · exact absurd member List.not_mem_nil

/-- **Stand-ins are placed where the missing tiles are.** A tile is related to a target exactly if
one of the two contains the other, and it is drawn in the copy of the world of the target, around
it or inside it, whatever the viewport. All that is drawn for a plan lies inside the frame of a
missing tile and inside the viewport, and beside the tiles of the plan that are loaded. -/
theorem fallback_placed (e : Exponential K) (mercatorY : K → K) :
    (∀ (key : MapTileKey) (target : OfflineMapTilePlacement) (copy : ℤ), 0 ≤ key.z → 0 ≤ key.x →
      0 ≤ target.key.z ∧ target.key.z ≤ 30 → target.InCopy copy →
      ((∃ placement, relatedPlacement key target = some placement) ↔
        target.key.square K ⊆ key.square K ∨ key.square K ⊆ target.key.square K) ∧
      ∀ placement, relatedPlacement key target = some placement →
        placement.key = key ∧ placement.InCopy copy ∧
        (target.square K ⊆ placement.square K ∨ placement.square K ⊆ target.square K) ∧
        ∀ center zoom size,
          (placementFrame e mercatorY target center zoom size).Inside
              (placementFrame e mercatorY placement center zoom size) ∨
            (placementFrame e mercatorY placement center zoom size).Inside
              (placementFrame e mercatorY target center zoom size)) ∧
    ∀ (requested : List OfflineMapTilePlacement)
      (cache : PreparedMapTileCache Owner MapTileKey Tile) (owner : Owner)
      (center : RouteCoordinate K) (displayZoom : Option K) (size : CGSize K), Planned requested →
      ∀ region ∈ fallbackRegions e mercatorY requested cache owner center displayZoom size,
        ∀ clip ∈ region.clips, ∃ zoom position width height, displayZoom = some zoom ∧
          center.finite = some position ∧ size.width = some width ∧ size.height = some height ∧
          ClipPlaced e mercatorY requested cache owner position zoom (width, height)
            region.placement clip := by
  constructor
  · intro key target copy known column zoom inCopy
    refine ⟨exists_relatedPlacement_iff known zoom, fun placement related => ?_⟩
    obtain ⟨isKey, inCopy', nested⟩ := relatedPlacement_spec (K := K) known column inCopy related
    refine ⟨isKey, inCopy', nested, fun center level size => ?_⟩
    rw [← isKey] at known
    exact nested.imp (fun inside => frame_inside zoom.1 known inside center level size)
      fun inside => frame_inside known zoom.1 inside center level size
  · intro requested cache owner center displayZoom size planned region member clip inRegion
    exact regions_spec planned cache owner center displayZoom size member inRegion

end Clips

/-- Powers of two of whole numbers. -/
def wholeExponential : Exponential ℚ where
  exp2 x := 2 ^ ⌊x⌋
  pos x := by positivity
  sub_int x n := by rw [Int.floor_sub_natCast, zpow_sub₀ (by norm_num), zpow_natCast]

/-- A tile of zoom 1, and the tile of zoom 2 that is missing west of the date line. -/
def datelineCache : PreparedMapTileCache Unit MapTileKey Unit :=
  .run [.updateViewport () [⟨1, 1, 0⟩, ⟨2, 3, 1⟩] false, .insert () ⟨1, 1, 0⟩ ()]

/-- The coarser tile stands in for the missing one in the copy of the world to the west. -/
theorem fallback_placed_dateline :
    relatedPlacement ⟨1, 1, 0⟩ ⟨⟨2, 3, 1⟩, -1⟩ = some ⟨⟨1, 1, 0⟩, -1⟩ ∧
      (⟨⟨1, 1, 0⟩, -1⟩ : OfflineMapTilePlacement).InCopy (-1) ∧
      ClipPlaced wholeExponential (fun _ => 96) [⟨⟨2, 3, 1⟩, -1⟩] datelineCache () (0, -180) 2
        (256, 256) ⟨⟨1, 1, 0⟩, -1⟩ ⟨0, 0, 128, 256⟩ := by
  obtain ⟨related, regions⟩ := @fallback_placed ℚ _ _ _ Unit Unit _ _ wholeExponential
    fun _ => 96
  have found : relatedPlacement ⟨1, 1, 0⟩ ⟨⟨2, 3, 1⟩, -1⟩ = some ⟨⟨1, 1, 0⟩, -1⟩ := by decide
  refine ⟨found, ?_, ?_⟩
  · exact ((related ⟨1, 1, 0⟩ ⟨⟨2, 3, 1⟩, -1⟩ (-1) (by decide) (by decide) (by decide)
      (by decide)).2 _ found).2.1
  · have drawn : fallbackRegions wholeExponential (fun _ => 96) [⟨⟨2, 3, 1⟩, -1⟩] datelineCache ()
        ⟨some 0, some (-180)⟩ (some 2) ⟨some 256, some 256⟩ =
          [⟨⟨⟨1, 1, 0⟩, -1⟩, [⟨0, 0, 128, 256⟩]⟩] := by
      decide +kernel
    obtain ⟨zoom, position, width, height, isZoom, isPosition, isWidth, isHeight, placed⟩ :=
      regions [⟨⟨2, 3, 1⟩, -1⟩] datelineCache () ⟨some 0, some (-180)⟩ (some 2)
        ⟨some 256, some 256⟩
        ⟨2, fun p member => by
          rw [List.mem_singleton.mp member]
          exact ⟨rfl, by decide, -1, by decide⟩⟩
        _ (drawn ▸ List.mem_singleton_self _) _ (List.mem_singleton_self _)
    obtain rfl := Option.some.inj isZoom
    obtain rfl := Option.some.inj isPosition
    obtain rfl := Option.some.inj isWidth
    obtain rfl := Option.some.inj isHeight
    exact placed

end OsmMini.Apple

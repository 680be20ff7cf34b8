import OsmMini.Mobile.Search.DataFaithful
import OsmMini.Mobile.Search.Nodes

/-!
# Reading the table of node coordinates

The ids stand in front of the file and never change. Whether the file is mapped or read
through a cache, the id at a place is found there (`id_spec`), and the binary search ends
at the first id that is not below the one it looks for (`lowerBound_spec`). Only the cache
of ids changes.
-/

set_option autoImplicit false

namespace OsmMini.Mobile

open OsmMini.Foundations OsmMini.Foundations.LittleEndian

/-! ## Rows -/

theorem decodeID_encodeID (id : Int64) : decodeID (encodeID id) = id := by
  have back := @peek_bytesOf 8 _ id.toUInt64.toNat_lt []
  rw [List.append_nil] at back
  rw [decodeID, encodeID, back, UInt64.ofNat_toNat, Int64.toInt64_toUInt64]

theorem decodeCoordinate_encodeCoordinate (c : Core.Coord F64) :
    decodeCoordinate (encodeCoordinate c) = c := by
  have lat := @peek_bytesOf 8 _ c.lat.bits.toNat_lt (bytesOf 8 c.lon.bits.toNat)
  have lon := @peek_field 8 _ 8 (bytesOf 8 c.lat.bits.toNat) []
    c.lon.bits.toNat_lt (length_bytesOf 8 _)
  rw [List.append_nil] at lon
  rw [decodeCoordinate, encodeCoordinate, lat, lon, UInt64.ofNat_toNat, UInt64.ofNat_toNat]

@[simp] theorem encodeID_length (id : Int64) : (encodeID id).length = 8 := length_bytesOf 8 _

@[simp] theorem encodeCoordinate_length (c : Core.Coord F64) : (encodeCoordinate c).length = 16 := by
  rw [encodeCoordinate, List.length_append, length_bytesOf, length_bytesOf]

section Rows

variable {α : Type*} {encode : α → List UInt8} {size : ℕ}

/-- A row of a table of rows of one size. -/
theorem portion_row (sized : ∀ x, (encode x).length = size) {rows : List α} {i : ℕ}
    (inside : i < rows.length) : portion (rows.flatMap encode) (i * size) size = encode rows[i] := by
  have entry := @portion_entry _ [] (rows.map encode) size i (encode rows[i])
    (fun e member => by
      obtain ⟨x, -, rfl⟩ := List.mem_map.mp member
      exact sized x)
    (by rw [List.getElem?_map, List.getElem?_eq_getElem inside]; rfl)
  rwa [List.nil_append, List.length_nil, Nat.zero_add, ← List.flatMap_def] at entry

end Rows

/-! ## Caches -/

/-- The cache shows rows of a table. -/
def RowCache.ShowsRows (cache : RowCache) (data : List UInt8) (size : ℕ) : Prop :=
  Shows cache.buffer data (cache.first * size) (cache.rows * size)

/-- **A row is fetched** as the file has it, whatever the cache showed before. -/
theorem RowCache.fetch_spec {cache : RowCache} {file data : List UInt8} {base size count index : ℕ}
    (holds : portion file base data.length = data) (fits : base + data.length ≤ file.length)
    (length : data.length = count * size) (shows' : cache.ShowsRows data size)
    (inside : index < count) :
    ∃ cache', cache.fetch file base size count index = (.ok (), cache') ∧
      cache'.ShowsRows data size ∧ cache'.row size index = portion data (index * size) size := by
  have served : ∀ {cache : RowCache}, cache.ShowsRows data size → cache.first ≤ index →
      index < cache.first + cache.rows → cache.row size index = portion data (index * size) size := by
    intro cache shown low high
    rw [RowCache.row, Nat.sub_mul]
    refine shown.portion (Nat.mul_le_mul_right _ low) ?_
    rw [← Nat.add_mul, ← Nat.succ_mul]
    exact Nat.mul_le_mul_right _ high
  unfold RowCache.fetch
  by_cases miss : index < cache.first ∨ cache.first + cache.rows ≤ index
  · rw [if_pos miss]
    dsimp only
    generalize first : index / searchNodeCacheRows * searchNodeCacheRows = start
    generalize few : min searchNodeCacheRows (count - start) = n
    have rows : searchNodeCacheRows = 4096 := rfl
    have low : start ≤ index := first ▸ Nat.div_mul_le_self ..
    have high : index < start + n := by
      have next := Nat.lt_div_mul_add (a := index) (b := searchNodeCacheRows) (by decide)
      omega
    have within : start * size + n * size ≤ data.length := by
      rw [length, ← Nat.add_mul]
      exact Nat.mul_le_mul_right _ (by omega)
    have same : portion file (base + start * size) (n * size) =
        portion data (start * size) (n * size) := by
      rw [← portion_portion within, holds]
    rw [readAt_ok (by omega), same]
    refine ⟨_, rfl, shows_overwrite within, served ?_ low high⟩
    exact shows_overwrite within
  · rw [if_neg miss]
    simp only [not_or, not_lt, not_le] at miss
    exact ⟨cache, rfl, shows', served shows' miss.1 miss.2⟩

/-! ## Ids -/

/-- The file starts with the ids. -/
structure Tabled (ids : List Int64) (t : SearchNodeTable) : Prop where
  count : t.count = ids.length
  length : t.file.length = ids.length * 24
  front : t.file.take (ids.length * 8) = ids.flatMap encodeID
  cache : t.idCache.ShowsRows (ids.flatMap encodeID) 8

section Ids

variable {ids : List Int64} {t : SearchNodeTable}

theorem idBytes_length (ids : List Int64) : (ids.flatMap encodeID).length = ids.length * 8 :=
  length_flatMap_of_size encodeID_length ids

/-- Another cache that shows the ids does as well. -/
theorem Tabled.withCache (tabled : Tabled ids t) {cache : RowCache}
    (shown : cache.ShowsRows (ids.flatMap encodeID) 8) :
    Tabled ids { t with idCache := cache } :=
  ⟨tabled.count, tabled.length, tabled.front, shown⟩

theorem SearchNodeTable.id_spec (tabled : Tabled ids t) {index : ℕ} (inside : index < ids.length) :
    ∃ cache : RowCache, t.id index = (.ok ids[index], { t with idCache := cache }) ∧
      cache.ShowsRows (ids.flatMap encodeID) 8 := by
  have length := idBytes_length ids
  have whole := tabled.length
  have row := portion_row encodeID_length inside
  have holds : portion t.file 0 (ids.flatMap encodeID).length = ids.flatMap encodeID := by
    rw [length, portion_zero, tabled.front]
  rw [SearchNodeTable.id, if_neg (by rw [tabled.count]; omega)]
  by_cases mapped : t.mapped = true
  · have here : portion t.file (index * 8) 8 = portion (ids.flatMap encodeID) (index * 8) 8 := by
      rw [← holds, portion_portion (by omega), Nat.zero_add]
    rw [if_pos mapped, here, row, decodeID_encodeID]
    exact ⟨t.idCache, rfl, tabled.cache⟩
  · obtain ⟨cache, run, shown, there⟩ := @RowCache.fetch_spec t.idCache t.file _ 0 8 t.count index
      holds (by omega) (by rw [length, tabled.count]) tabled.cache (by rw [tabled.count]; exact inside)
    rw [if_neg mapped, run]
    dsimp only
    rw [there, row, decodeID_encodeID]
    exact ⟨cache, rfl, shown⟩

/-! ## The binary search -/

/-- The place is where an id is or would be. -/
structure Bounds (ids : List Int64) (id : Int64) (place : ℕ) : Prop where
  le : place ≤ ids.length
  before : ∀ i (inside : i < ids.length), i < place → ids[i] < id
  after : ∀ inside : place < ids.length, id ≤ ids[place]

theorem SearchNodeTable.lowerBoundFrom_spec (sorted : ids.Pairwise (· < ·)) {id : Int64} :
    ∀ {rounds lo hi : ℕ} {t : SearchNodeTable}, Tabled ids t → lo ≤ hi → hi ≤ ids.length →
      hi - lo ≤ rounds → (∀ i (inside : i < ids.length), i < lo → ids[i] < id) →
      (∀ inside : hi < ids.length, id ≤ ids[hi]) →
      ∃ (place : ℕ) (cache : RowCache),
        lowerBoundFrom id rounds lo hi t = (.ok place, { t with idCache := cache }) ∧
        Bounds ids id place ∧ cache.ShowsRows (ids.flatMap encodeID) 8
  | 0, lo, hi, t, tabled, ordered, inside, few, below, above => by
      obtain rfl : lo = hi := by omega
      exact ⟨lo, t.idCache, rfl, ⟨inside, below, above⟩, tabled.cache⟩
  | rounds + 1, lo, hi, t, tabled, ordered, inside, few, below, above => by
      rw [lowerBoundFrom]
      by_cases more : lo < hi
      · obtain ⟨cache, read, shown⟩ := @id_spec ids t tabled ((lo + hi) / 2) (by omega)
        have tabled' := tabled.withCache shown
        rw [if_pos more]
        dsimp only
        rw [read]
        dsimp only
        have middle : (lo + hi) / 2 < ids.length := by omega
        by_cases smaller : ids[(lo + hi) / 2] < id
        · obtain ⟨place, cache', run, bounds, shown'⟩ := @lowerBoundFrom_spec sorted id rounds
            ((lo + hi) / 2 + 1) hi _ tabled' (by omega) inside (by omega)
            (fun i small less => by
              rcases Nat.lt_succ_iff_lt_or_eq.mp less with early | rfl
              · exact (List.pairwise_iff_getElem.mp sorted i _ small middle early).trans smaller
              · exact smaller) above
          rw [if_pos smaller, run]
          exact ⟨place, cache', rfl, bounds, shown'⟩
        · obtain ⟨place, cache', run, bounds, shown'⟩ := @lowerBoundFrom_spec sorted id rounds lo
            ((lo + hi) / 2) _ tabled' (by omega) (by omega) (by omega)
            below (fun _ => not_lt.mp smaller)
          rw [if_neg smaller, run]
          exact ⟨place, cache', rfl, bounds, shown'⟩
      · obtain rfl : lo = hi := by omega
        rw [if_neg more]
        exact ⟨lo, t.idCache, rfl, ⟨inside, below, above⟩, tabled.cache⟩

/-- **The binary search ends where the id is or would be.** -/
theorem SearchNodeTable.lowerBound_spec (sorted : ids.Pairwise (· < ·)) (tabled : Tabled ids t)
    (id : Int64) :
    ∃ (place : ℕ) (cache : RowCache), t.lowerBound id = (.ok place, { t with idCache := cache }) ∧
      Bounds ids id place ∧ cache.ShowsRows (ids.flatMap encodeID) 8 := by
  obtain ⟨place, cache, run, bounds, shown⟩ := @lowerBoundFrom_spec ids sorted id ids.length 0
    ids.length t tabled (Nat.zero_le _) (le_refl _) (Nat.sub_le _ _)
    (fun i _ none => absurd none (Nat.not_lt_zero i)) (fun past => absurd past (lt_irrefl _))
  refine ⟨place, cache, ?_, bounds, shown⟩
  rw [lowerBound]
  rw [tabled.count] at run ⊢
  exact run

end Ids

end OsmMini.Mobile

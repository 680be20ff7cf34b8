import OsmMini.Mobile.Search.NodesFaithful

/-!
# Looking up node coordinates

A lookup first tries the place of the lookup before it and the place next to that one, and
searches otherwise. It ends where the id is or would be (`coordinateIndex_spec`), whichever
way it went, and reads the row from the mapped file or through a cache.
-/

set_option autoImplicit false

namespace OsmMini.Mobile

open OsmMini.Foundations

/-- The table while coordinates are looked up. -/
structure Looked (ids : List Int64) (m : Recording) (t : SearchNodeTable) : Prop where
  tabled : Tabled ids t
  file : t.file = nodeFile ids m
  lookup : ∀ here, t.lookupAt = some here → here < ids.length
  cache : t.coordinateCache.ShowsRows (ids.flatMap (nodeRow m)) 16

section Lookup

variable {ids : List Int64} {m : Recording} {t : SearchNodeTable}

/-! ## Places -/

theorem bounds_of_eq (sorted : ids.Pairwise (· < ·)) {id : Int64} {place : ℕ}
    (inside : place < ids.length) (here : ids[place] = id) : Bounds ids id place := by
  subst here
  exact ⟨inside.le, fun i small before => List.pairwise_iff_getElem.mp sorted i place small inside
    before, fun _ => le_refl _⟩

theorem Bounds.not_mem (sorted : ids.Pairwise (· < ·)) {id : Int64} {place : ℕ}
    (bounds : Bounds ids id place) (other : ∀ inside : place < ids.length, ids[place] ≠ id) :
    id ∉ ids := by
  intro member
  obtain ⟨i, small, rfl⟩ := List.getElem_of_mem member
  rcases Nat.lt_or_ge i place with early | late
  · exact absurd (bounds.before i small early) (lt_irrefl _)
  · have inside : place < ids.length := late.trans_lt small
    rcases late.lt_or_eq with after | rfl
    · exact absurd (List.pairwise_iff_getElem.mp sorted _ _ inside small after)
        (bounds.after inside).not_gt
    · exact other inside rfl

theorem Looked.withCache (looked : Looked ids m t) {cache : RowCache}
    (shown : cache.ShowsRows (ids.flatMap encodeID) 8) : Looked ids m { t with idCache := cache } :=
  ⟨looked.tabled.withCache shown, looked.file, looked.lookup, looked.cache⟩

theorem Looked.withPlace (looked : Looked ids m t) {place : Option ℕ}
    (inside : ∀ here, place = some here → here < ids.length) :
    Looked ids m { t with lookupAt := place } :=
  ⟨⟨looked.tabled.count, looked.tabled.length, looked.tabled.front, looked.tabled.cache⟩,
    looked.file, inside, looked.cache⟩

theorem searchIndex_spec (sorted : ids.Pairwise (· < ·)) (looked : Looked ids m t) (id : Int64) :
    ∃ place t', t.searchIndex id = (.ok place, t') ∧ Bounds ids id place ∧ Looked ids m t' := by
  obtain ⟨place, cache, run, bounds, shown⟩ :=
    SearchNodeTable.lowerBound_spec sorted looked.tabled id
  rw [SearchNodeTable.searchIndex, run]
  refine ⟨place, _, rfl, bounds, (looked.withCache shown).withPlace fun here same => ?_⟩
  split_ifs at same with inside
  obtain rfl := Option.some.inj same
  exact inside.trans_eq looked.tabled.count

/-- **A lookup ends where the id is or would be.** -/
theorem coordinateIndex_spec (sorted : ids.Pairwise (· < ·)) (looked : Looked ids m t)
    (id : Int64) :
    ∃ place t', t.coordinateIndex id = (.ok place, t') ∧ Bounds ids id place ∧ Looked ids m t' := by
  rw [SearchNodeTable.coordinateIndex]
  cases last : t.lookupAt with
  | none => exact searchIndex_spec sorted looked id
  | some here =>
      have inside := looked.lookup here last
      obtain ⟨cache, read, shown⟩ := SearchNodeTable.id_spec looked.tabled inside
      have looked' := looked.withCache shown
      dsimp only
      rw [read]
      dsimp only
      by_cases same : ids[here] = id
      · rw [if_pos same]
        exact ⟨here, _, rfl, bounds_of_eq sorted inside same, looked'⟩
      rw [if_neg same]
      by_cases near : 0 ≤ (if id < ids[here] then (here : ℤ) - 1 else here + 1) ∧
          (if id < ids[here] then (here : ℤ) - 1 else here + 1) < t.count
      · rw [if_pos near]
        generalize (if id < ids[here] then (here : ℤ) - 1 else here + 1) = next at near
        have inside' : next.toNat < ids.length := by
          have count := looked.tabled.count
          omega
        obtain ⟨cache', read', shown'⟩ := SearchNodeTable.id_spec looked'.tabled inside'
        have looked'' := looked'.withCache shown'
        rw [read']
        dsimp only
        by_cases same' : ids[next.toNat] = id
        · rw [if_pos same']
          refine ⟨next.toNat, _, rfl, bounds_of_eq sorted inside' same',
            looked''.withPlace fun place equal => ?_⟩
          obtain rfl := Option.some.inj equal
          exact inside'
        · rw [if_neg same']
          exact searchIndex_spec sorted looked'' id
      · rw [if_neg near]
        exact searchIndex_spec sorted looked' id

/-! ## Rows -/

theorem coordinateRow_spec (looked : Looked ids m t) {index : ℕ} (inside : index < ids.length) :
    ∃ t', t.coordinateRow index = (.ok (nodeRow m ids[index]), t') ∧ Looked ids m t' := by
  have row := portion_row (nodeRow_length m) inside
  have whole := rowBytes_length ids m
  have count := looked.tabled.count
  have length := looked.tabled.length
  have holds : portion t.file (t.count * 8) (ids.flatMap (nodeRow m)).length =
      ids.flatMap (nodeRow m) := by
    rw [looked.file, count]
    exact nodeFile_drop ids m
  rw [SearchNodeTable.coordinateRow]
  by_cases mapped : t.mapped = true
  · have here : portion t.file (t.count * 8 + index * 16) 16 =
        portion (ids.flatMap (nodeRow m)) (index * 16) 16 := by
      rw [← holds, portion_portion (by omega)]
    rw [if_pos mapped, here, row]
    exact ⟨t, rfl, looked⟩
  · obtain ⟨cache, run, shown, there⟩ := @RowCache.fetch_spec t.coordinateCache t.file _
      (t.count * 8) 16 t.count index holds (by omega) (by omega) looked.cache (by omega)
    rw [if_neg mapped, run]
    dsimp only
    rw [there, row]
    exact ⟨_, rfl, ⟨count, length, looked.tabled.front, looked.tabled.cache⟩, looked.file,
      looked.lookup, shown⟩

/-- **A lookup finds what was recorded** for an id that is needed. -/
theorem coordinate_spec (sorted : ids.Pairwise (· < ·))
    (numbers : ∀ id c, m id = some c → c.lat.isNaN = false) (looked : Looked ids m t)
    (id : Int64) :
    ∃ t', t.coordinate id = (.ok (if id ∈ ids then m id else none), t') ∧ Looked ids m t' := by
  obtain ⟨place, t₁, found, bounds, looked₁⟩ := coordinateIndex_spec sorted looked id
  rw [SearchNodeTable.coordinate, found]
  dsimp only
  by_cases ended : place = t₁.count
  · have absent : id ∉ ids := bounds.not_mem sorted fun inside => by
      rw [ended, looked₁.tabled.count] at inside
      exact absurd inside (lt_irrefl _)
    rw [if_pos ended, if_neg absent]
    exact ⟨t₁, rfl, looked₁⟩
  rw [if_neg ended]
  have inside : place < ids.length := by
    have le := bounds.le
    have count := looked₁.tabled.count
    omega
  obtain ⟨cache, read, shown⟩ := SearchNodeTable.id_spec looked₁.tabled inside
  have looked₂ := looked₁.withCache shown
  rw [read]
  dsimp only
  by_cases same : ids[place] = id
  · obtain ⟨t₃, row, looked₃⟩ := coordinateRow_spec looked₂ inside
    rw [if_neg (not_not.mpr same), row]
    subst same
    dsimp only
    rw [nodeRow, decodeCoordinate_encodeCoordinate, if_pos (List.getElem_mem inside)]
    refine ⟨t₃, ?_, looked₃⟩
    cases recorded : m ids[place] with
    | none => rw [Option.getD_none, if_pos (by decide)]
    | some c =>
        rw [Option.getD_some, if_neg]
        rw [numbers _ c recorded]
        exact Bool.false_ne_true
  · have absent : id ∉ ids := bounds.not_mem sorted fun _ => same
    rw [if_pos same, if_neg absent]
    exact ⟨_, rfl, looked₂⟩

end Lookup

/-! ## A map -/

/-- Record coordinates one after the other. -/
def recordAll : List (Int64 × Core.Coord F64) → SearchNodeTable →
    Except String Unit × SearchNodeTable
  | [], t => (.ok (), t)
  | (id, c) :: calls, t =>
    match t.record id c with
    | (.error err, t) => (.error err, t)
    | (.ok (), t) => recordAll calls t

/-- The coordinate that was recorded last for an id. -/
def lastRecorded (calls : List (Int64 × Core.Coord F64)) (id : Int64) : Option (Core.Coord F64) :=
  ((calls.filter (·.1 = id)).getLast?).map (·.2)

/-- The table after a sequence of lookups. -/
def lookups (t : SearchNodeTable) (ids : List Int64) : SearchNodeTable :=
  Machine.run (fun t id => (t.coordinate id).swap) t ids

section Map

variable {ids : List Int64}

theorem lastRecorded_snoc (calls : List (Int64 × Core.Coord F64)) (id : Int64)
    (c : Core.Coord F64) :
    lastRecorded (calls ++ [(id, c)]) = Function.update (lastRecorded calls) id (some c) := by
  funext other
  unfold lastRecorded
  rw [List.filter_append]
  by_cases same : id = other
  · subst same
    rw [Function.update_self, List.filter_cons_of_pos (by simp), List.filter_nil,
      List.getLast?_concat]
    rfl
  · rw [Function.update_of_ne (Ne.symm same), List.filter_cons_of_neg (by simpa using same),
      List.filter_nil, List.append_nil]

theorem recorded_new (ids : List Int64) (mapped : Bool) :
    Recorded ids (lastRecorded []) (newSearchNodeTable ids mapped) := by
  have file : (newSearchNodeTable ids mapped).file = nodeFile ids (lastRecorded []) := rfl
  refine ⟨⟨rfl, ?_, ?_, ?_⟩, ⟨⟨?_, le_refl _, ?_, Nat.zero_le _, ?_⟩, fun _ _ _ => rfl⟩,
    Nat.zero_le _, fun i _ none => absurd none (Nat.not_lt_zero i), rfl, rfl, rfl⟩
  · rw [file, nodeFile_length]
  · rw [file, nodeFile_take]
  · exact ⟨Nat.zero_le _, rfl⟩
  · rw [file, nodeFile_length]
  · show ids.length * 8 + 0 = ids.length * 8 + 0 * 16
    omega
  · exact (copyAt_nil _ _).trans file

/-- **A run of recordings** keeps what was recorded last. -/
theorem recordAll_spec (sorted : ids.Pairwise (· < ·)) : ∀ {calls earlier}
    {t : SearchNodeTable}, Recorded ids (lastRecorded earlier) t →
    ∃ t', recordAll calls t = (.ok (), t') ∧ Recorded ids (lastRecorded (earlier ++ calls)) t'
  | [], earlier, t, recorded => by
      rw [List.append_nil]
      exact ⟨t, rfl, recorded⟩
  | (id, c) :: calls, earlier, t, recorded => by
      obtain ⟨t₁, run, recorded₁⟩ := record_spec sorted recorded id c
      rw [← lastRecorded_snoc] at recorded₁
      obtain ⟨t₂, run₂, recorded₂⟩ := @recordAll_spec sorted calls _ _ recorded₁
      rw [recordAll, run]
      rw [List.append_assoc] at recorded₂
      exact ⟨t₂, run₂, recorded₂⟩

theorem looked_of_recorded {m : Recording} {t : SearchNodeTable} (recorded : Recorded ids m t) :
    Looked ids m t.finishCoordinates := by
  obtain ⟨finished, idle, -, -⟩ := finishCoordinates_spec recorded
  have contains := finished.contains
  unfold Contains at contains
  rw [idle] at contains
  refine ⟨finished.tabled, contains, fun here some => ?_, ?_⟩
  · rw [finished.lookup] at some
    cases some
  · rw [RowCache.ShowsRows, finished.uncached.1, finished.uncached.2]
    exact ⟨Nat.zero_le _, rfl⟩

theorem lookups_spec (sorted : ids.Pairwise (· < ·)) {m : Recording}
    (numbers : ∀ id c, m id = some c → c.lat.isNaN = false) {t : SearchNodeTable}
    (looked : Looked ids m t) (earlier : List Int64) : Looked ids m (lookups t earlier) := by
  refine Machine.run_always (fun t id looked => ?_) earlier t looked
  obtain ⟨t', run, looked'⟩ := coordinate_spec sorted numbers looked id
  rw [run]
  exact looked'

/-- **The table is a map where the last write wins.** Coordinates are recorded in any
order, for needed ids or others, and the table is finished. After any lookups, an id that
is needed has the coordinate that was recorded for it last, if there is one, and every
other id has none. This holds for a mapped file and for one that is read through caches. -/
theorem searchNodeTable_lastWriteWins (ids : List Int64) (sorted : ids.Pairwise (· < ·))
    (mapped : Bool) (calls : List (Int64 × Core.Coord F64))
    (numbers : ∀ call ∈ calls, call.2.lat.isNaN = false) :
    ∃ t, recordAll calls (newSearchNodeTable ids mapped) = (.ok (), t) ∧
      ∀ earlier id, ((lookups t.finishCoordinates earlier).coordinate id).1 =
        .ok (if id ∈ ids then lastRecorded calls id else none) := by
  obtain ⟨t, run, recorded⟩ := @recordAll_spec ids sorted calls [] _ (recorded_new ids mapped)
  rw [List.nil_append] at recorded
  have numbers' : ∀ id c, lastRecorded calls id = some c → c.lat.isNaN = false := by
    intro id c last
    unfold lastRecorded at last
    obtain ⟨call, found, rfl⟩ := Option.map_eq_some_iff.mp last
    exact numbers call (List.mem_of_mem_filter (List.mem_of_getLast? found))
  refine ⟨t, run, fun earlier id => ?_⟩
  obtain ⟨t', looked, -⟩ := coordinate_spec sorted numbers'
    (lookups_spec sorted numbers' (looked_of_recorded recorded) earlier) id
  rw [looked]

/-- Four ids of which one is recorded twice, out of order, and one that is not needed. -/
theorem searchNodeTable_lastWriteWins_repeated :
    ∃ t, recordAll [(1, ⟨⟨1⟩, ⟨10⟩⟩), (3, ⟨⟨3⟩, ⟨30⟩⟩), (5, ⟨⟨5⟩, ⟨50⟩⟩), (1, ⟨⟨2⟩, ⟨20⟩⟩)]
        (newSearchNodeTable [-7, 1, 3, 404] false) = (.ok (), t) ∧
      ((lookups t.finishCoordinates [404, 3]).coordinate 1).1 = .ok (some ⟨⟨2⟩, ⟨20⟩⟩) ∧
      ((lookups t.finishCoordinates [1]).coordinate 404).1 = .ok none ∧
      ((lookups t.finishCoordinates []).coordinate 5).1 = .ok none := by
  obtain ⟨t, run, finds⟩ := searchNodeTable_lastWriteWins [-7, 1, 3, 404] (by decide) false
    [(1, ⟨⟨1⟩, ⟨10⟩⟩), (3, ⟨⟨3⟩, ⟨30⟩⟩), (5, ⟨⟨5⟩, ⟨50⟩⟩), (1, ⟨⟨2⟩, ⟨20⟩⟩)] (by decide)
  exact ⟨t, run, finds [404, 3] 1, finds [1] 404, finds [] 5⟩

end Map

end OsmMini.Mobile

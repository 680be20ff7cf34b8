import OsmMini.Mobile.Search.NodesRead

/-!
# The table of node coordinates is a map

The file has, once nothing is held back, the row of every needed id with what was recorded
for it last (`nodeFile`). Recording keeps this (`record_spec`), through sequential writing,
the change to writing in place, and repeated ids. Looking up finds it, in any order of
lookups (`searchNodeTable_lastWriteWins`).
-/

set_option autoImplicit false

namespace OsmMini.Mobile

open OsmMini.Foundations

/-! ## Copying into a file -/

section Copying

variable {data bytes : List UInt8} {offset : ℕ}

theorem copyAt_eq (data bytes : List UInt8) (offset : ℕ) :
    copyAt data offset bytes = data.take offset ++ (bytes ++ data.drop (offset + bytes.length)) := by
  rw [copyAt, overwrite, List.drop_drop]

/-- What stands between two parts is replaced by as many bytes. -/
theorem copyAt_middle (before here after new : List UInt8) (same : new.length = here.length) :
    copyAt (before ++ (here ++ after)) before.length new = before ++ (new ++ after) := by
  rw [copyAt_eq, List.take_left, same, ← List.append_assoc before here after,
    List.drop_left' (List.length_append ..)]

/-- Two copies that meet are one copy. -/
theorem copyAt_copyAt (inside : offset ≤ data.length) (more : List UInt8) :
    copyAt (copyAt data offset bytes) (offset + bytes.length) more =
      copyAt data offset (bytes ++ more) := by
  have front : (data.take offset ++ bytes).length = offset + bytes.length := by
    rw [List.length_append, List.length_take, min_eq_left inside]
  rw [copyAt_eq (copyAt data offset bytes), copyAt_take inside, copyAt_eq data bytes, copyAt_eq,
    ← List.append_assoc (data.take offset), List.drop_append,
    List.drop_eq_nil_of_le (front ▸ Nat.le_add_right ..), List.nil_append, front,
    Nat.add_sub_cancel_left, List.drop_drop, List.length_append]
  simp only [List.append_assoc, Nat.add_assoc]

theorem copyAt_nil (data : List UInt8) (offset : ℕ) : copyAt data offset [] = data := by
  rw [copyAt_eq, List.nil_append, List.length_nil, Nat.add_zero, List.take_append_drop]

end Copying

/-! ## The file of what was recorded -/

/-- The coordinates that were recorded last. -/
abbrev Recording := Int64 → Option (Core.Coord F64)

/-- The row of an id. -/
def nodeRow (m : Recording) (id : Int64) : List UInt8 :=
  encodeCoordinate ((m id).getD missingCoordinate)

/-- The ids, and a row for each. -/
def nodeFile (ids : List Int64) (m : Recording) : List UInt8 :=
  ids.flatMap encodeID ++ ids.flatMap (nodeRow m)

section File

variable {ids : List Int64} {m : Recording}

theorem nodeRow_length (m : Recording) (id : Int64) : (nodeRow m id).length = 16 :=
  encodeCoordinate_length _

theorem rowBytes_length (ids : List Int64) (m : Recording) :
    (ids.flatMap (nodeRow m)).length = ids.length * 16 :=
  LittleEndian.length_flatMap_of_size (nodeRow_length m) ids

theorem nodeFile_length (ids : List Int64) (m : Recording) :
    (nodeFile ids m).length = ids.length * 24 := by
  rw [nodeFile, List.length_append, idBytes_length, rowBytes_length]
  omega

theorem nodeFile_take (ids : List Int64) (m : Recording) :
    (nodeFile ids m).take (ids.length * 8) = ids.flatMap encodeID :=
  List.take_left' (idBytes_length ids)

theorem nodeFile_drop (ids : List Int64) (m : Recording) :
    portion (nodeFile ids m) (ids.length * 8) (ids.flatMap (nodeRow m)).length =
      ids.flatMap (nodeRow m) := by
  rw [portion, nodeFile, List.drop_left' (idBytes_length ids), List.take_length]

/-- Rows that are the same make the same file. -/
theorem nodeFile_congr {m' : Recording} (same : ∀ id ∈ ids, nodeRow m id = nodeRow m' id) :
    nodeFile ids m = nodeFile ids m' := by
  rw [nodeFile, nodeFile]
  exact congrArg _ (List.flatMap_congr same)

/-- The file around a row. -/
theorem nodeFile_split {i : ℕ} (inside : i < ids.length) (m : Recording) :
    nodeFile ids m = (ids.flatMap encodeID ++ (ids.take i).flatMap (nodeRow m)) ++
      (nodeRow m ids[i] ++ (ids.drop (i + 1)).flatMap (nodeRow m)) ∧
    (ids.flatMap encodeID ++ (ids.take i).flatMap (nodeRow m)).length =
      ids.length * 8 + i * 16 := by
  have split : ids = ids.take i ++ ids[i] :: ids.drop (i + 1) := by
    rw [List.getElem_cons_drop, List.take_append_drop]
  have rows : ids.flatMap (nodeRow m) = (ids.take i).flatMap (nodeRow m) ++
      (nodeRow m ids[i] ++ (ids.drop (i + 1)).flatMap (nodeRow m)) := by
    conv_lhs => rw [split]
    rw [List.flatMap_append, List.flatMap_cons]
  constructor
  · rw [nodeFile, List.append_assoc, rows]
  · rw [List.length_append, idBytes_length, rowBytes_length, List.length_take,
      min_eq_left inside.le]

/-- **Writing a row changes what is recorded for its id.** -/
theorem copyAt_row (sorted : ids.Pairwise (· < ·)) {i : ℕ} (inside : i < ids.length)
    (c : Core.Coord F64) :
    copyAt (nodeFile ids m) (ids.length * 8 + i * 16) (encodeCoordinate c) =
      nodeFile ids (Function.update m ids[i] (some c)) := by
  obtain ⟨file, place⟩ := nodeFile_split inside m
  obtain ⟨file', -⟩ := nodeFile_split inside (Function.update m ids[i] (some c))
  have other : ∀ j (small : j < ids.length), j ≠ i →
      nodeRow m ids[j] = nodeRow (Function.update m ids[i] (some c)) ids[j] := by
    intro j small away
    have apart : ids[j] ≠ ids[i] := fun same =>
      away ((List.Nodup.getElem_inj_iff (sorted.imp ne_of_lt)).mp same)
    rw [nodeRow, nodeRow, Function.update_of_ne apart]
  have early : (ids.take i).flatMap (nodeRow m) =
      (ids.take i).flatMap (nodeRow (Function.update m ids[i] (some c))) := by
    refine List.flatMap_congr fun id member => ?_
    obtain ⟨j, small, rfl⟩ := List.getElem_of_mem member
    rw [List.length_take] at small
    rw [List.getElem_take]
    exact other j (by omega) (by omega)
  have late : (ids.drop (i + 1)).flatMap (nodeRow m) =
      (ids.drop (i + 1)).flatMap (nodeRow (Function.update m ids[i] (some c))) := by
    refine List.flatMap_congr fun id member => ?_
    obtain ⟨j, small, rfl⟩ := List.getElem_of_mem member
    rw [List.length_drop] at small
    rw [List.getElem_drop]
    exact other _ (by omega) (by omega)
  have here : nodeRow (Function.update m ids[i] (some c)) ids[i] = encodeCoordinate c := by
    rw [nodeRow, Function.update_self, Option.getD_some]
  rw [file', ← early, ← late, here, file, ← place]
  exact copyAt_middle _ _ _ _ (by rw [encodeCoordinate_length, nodeRow_length])

/-- Padding a row without a coordinate changes nothing. -/
theorem copyAt_missing {i : ℕ} (inside : i < ids.length) (none : m ids[i] = none) :
    copyAt (nodeFile ids m) (ids.length * 8 + i * 16) (encodeCoordinate missingCoordinate) =
      nodeFile ids m := by
  obtain ⟨file, place⟩ := nodeFile_split inside m
  have row : nodeRow m ids[i] = encodeCoordinate missingCoordinate := by
    rw [nodeRow, none, Option.getD_none]
  rw [file, ← place, row]
  exact copyAt_middle _ _ _ _ rfl

end File

/-! ## What the writer holds back -/

/-- The file becomes an image when the writer has written what it holds back. -/
structure Pending (count : ℕ) (image file : List UInt8) (w : NodeWriter) (written : ℕ) : Prop where
  length : file.length = count * 24
  behind : count * 8 ≤ w.offset
  place : w.offset + w.buffer.length = count * 8 + written * 16
  fits : written ≤ count
  content : copyAt file w.offset w.buffer = image

section Writer

variable {count written : ℕ} {image file : List UInt8} {w : NodeWriter}

theorem Pending.inside (pending : Pending count image file w written) :
    w.offset + w.buffer.length ≤ file.length := by
  have place := pending.place
  have length := pending.length
  have fits := pending.fits
  omega

/-- **A row goes behind those written before.** -/
theorem Pending.write (pending : Pending count image file w written) (room : written < count)
    (c : Core.Coord F64) :
    Pending count (copyAt image (count * 8 + written * 16) (encodeCoordinate c))
      (writeSearchNodeCoordinate file w c).1 (writeSearchNodeCoordinate file w c).2
      (written + 1) := by
  have inside := pending.inside
  have place := pending.place
  have behind := pending.behind
  unfold writeSearchNodeCoordinate
  split_ifs with full
  · refine ⟨?_, ?_, ?_, room, ?_⟩
    · rw [copyAt_length inside, pending.length]
    · dsimp only
      omega
    · dsimp only
      rw [encodeCoordinate_length]
      omega
    · dsimp only
      rw [pending.content, place]
  · refine ⟨pending.length, behind, ?_, room, ?_⟩
    · dsimp only
      rw [List.length_append, encodeCoordinate_length]
      omega
    · dsimp only
      rw [← pending.content, ← place, copyAt_copyAt (by omega)]

theorem Pending.pad {ids : List Int64} {m : Recording} : ∀ {rows written : ℕ} {file : List UInt8}
    {w : NodeWriter}, Pending ids.length (nodeFile ids m) file w written →
    (∀ i (_ : i < ids.length), written ≤ i → m ids[i] = none) → written + rows ≤ ids.length →
    Pending ids.length (nodeFile ids m) (padSearchNodes rows file w).1
      (padSearchNodes rows file w).2 (written + rows)
  | 0, written, file, w, pending, _, _ => pending
  | rows + 1, written, file, w, pending, absent, room => by
      have next := pending.write (by omega) missingCoordinate
      rw [copyAt_missing (by omega) (absent written (by omega) (le_refl _))] at next
      have rest := @Pending.pad _ _ rows _ _ _ next (fun i inside later => absent i inside (by omega))
        (by omega)
      rw [padSearchNodes, show written + (rows + 1) = written + 1 + rows by omega]
      exact rest

end Writer

/-! ## Recording -/

/-- What the file has, or will have when nothing is held back. -/
def Contains (ids : List Int64) (m : Recording) (t : SearchNodeTable) : Prop :=
  match t.writer with
  | none => t.file = nodeFile ids m
  | some w => Pending ids.length (nodeFile ids m) t.file w t.written ∧
      ∀ i (_ : i < ids.length), t.written ≤ i → m ids[i] = none

/-- The table while coordinates are recorded. -/
structure Recorded (ids : List Int64) (m : Recording) (t : SearchNodeTable) : Prop where
  tabled : Tabled ids t
  contains : Contains ids m t
  cursor : t.cursor ≤ ids.length
  passed : ∀ i (_ : i < ids.length), i < t.cursor → ids[i] < t.lastID
  lookup : t.lookupAt = none
  uncached : t.coordinateCache.first = 0 ∧ t.coordinateCache.rows = 0

section Recording

variable {ids : List Int64} {m : Recording} {t : SearchNodeTable}

theorem Pending.front {image file : List UInt8} {w : NodeWriter} {written : ℕ}
    (pending : Pending ids.length image file w written) :
    file.take (ids.length * 8) = image.take (ids.length * 8) := by
  have behind := pending.behind
  have inside := pending.inside
  rw [← pending.content, copyAt_eq, List.take_append_of_le_length, List.take_take,
    min_eq_left behind]
  rw [List.length_take]
  omega

/-- The table keeps its file while another id is the last one. -/
theorem Recorded.withLast (recorded : Recorded ids m t) {id : Int64}
    (passed : ∀ i (_ : i < ids.length), i < t.cursor → ids[i] < id) :
    Recorded ids m { t with lastID := id } :=
  ⟨⟨recorded.tabled.count, recorded.tabled.length, recorded.tabled.front, recorded.tabled.cache⟩,
    recorded.contains, recorded.cursor, passed, recorded.lookup, recorded.uncached⟩

theorem Recorded.withCache (recorded : Recorded ids m t) {cache : RowCache}
    (shown : cache.ShowsRows (ids.flatMap encodeID) 8) :
    Recorded ids m { t with idCache := cache } :=
  ⟨recorded.tabled.withCache shown, recorded.contains, recorded.cursor, recorded.passed,
    recorded.lookup, recorded.uncached⟩

/-- **Nothing is held back** after finishing, and what was recorded stays. -/
theorem finishCoordinates_spec (recorded : Recorded ids m t) :
    Recorded ids m t.finishCoordinates ∧ t.finishCoordinates.writer = none ∧
      t.finishCoordinates.cursor = t.cursor ∧ t.finishCoordinates.lastID = t.lastID := by
  obtain ⟨tabled, contains, cursor, passed, lookup, uncached⟩ := recorded
  obtain ⟨file, mapped, n, writer, written, place, last, found, idCache, coordinateCache⟩ := t
  cases writer with
  | none =>
      exact ⟨⟨⟨tabled.count, tabled.length, tabled.front, tabled.cache⟩, contains, cursor, passed,
        lookup, uncached.1, rfl⟩, rfl, rfl, rfl⟩
  | some w =>
      have content : copyAt file w.offset w.buffer = nodeFile ids m := contains.1.content
      refine ⟨⟨⟨tabled.count, ?_, ?_, tabled.cache⟩, content, cursor, passed, lookup, uncached.1,
        rfl⟩, rfl, rfl, rfl⟩
      · show (copyAt file w.offset w.buffer).length = _
        rw [content, nodeFile_length]
      · show (copyAt file w.offset w.buffer).take _ = _
        rw [content, nodeFile_take]

/-- **An id out of order is searched**: afterwards all ids before the cursor are below the
id to be recorded. -/
theorem rewind_spec (sorted : ids.Pairwise (· < ·)) (recorded : Recorded ids m t) (id : Int64) :
    ∃ t', t.rewind id = (.ok (), t') ∧ Recorded ids m { t' with lastID := id } := by
  unfold SearchNodeTable.rewind
  by_cases back : id < t.lastID
  · obtain ⟨finished, -, -, -⟩ := finishCoordinates_spec recorded
    obtain ⟨place, cache, run, bounds, shown⟩ :=
      SearchNodeTable.lowerBound_spec sorted finished.tabled id
    have kept := finished.withCache shown
    rw [if_pos back, run]
    refine ⟨_, rfl, ⟨kept.tabled.count, kept.tabled.length, kept.tabled.front, kept.tabled.cache⟩,
      kept.contains, bounds.le, bounds.before, kept.lookup, kept.uncached⟩
  · rw [if_neg back]
    exact ⟨t, rfl, recorded.withLast fun i inside before =>
      (recorded.passed i inside before).trans_le (not_lt.mp back)⟩

/-- **The cursor moves to the id**, or past all ids that are below it. -/
theorem seek_spec (sorted : ids.Pairwise (· < ·)) {id : Int64} : ∀ {rounds : ℕ}
    {t : SearchNodeTable}, Recorded ids m t → t.lastID = id → ids.length - t.cursor = rounds →
    ∃ found t', SearchNodeTable.seek id rounds t = (.ok found, t') ∧ Recorded ids m t' ∧
      (found = true → ∃ inside : t'.cursor < ids.length, ids[t'.cursor] = id) ∧
      (found = false → id ∉ ids)
  | 0, t, recorded, last, few => by
      refine ⟨false, t, rfl, recorded, fun no => (by cases no), fun _ member => ?_⟩
      obtain ⟨i, inside, rfl⟩ := List.getElem_of_mem member
      have below := recorded.passed i inside (by omega)
      rw [last] at below
      exact absurd below (lt_irrefl _)
  | rounds + 1, t, recorded, last, few => by
      rw [SearchNodeTable.seek]
      have more : t.cursor < ids.length := by omega
      obtain ⟨cache, read, shown⟩ := SearchNodeTable.id_spec recorded.tabled more
      have kept := recorded.withCache shown
      rw [read]
      dsimp only
      by_cases past : id < ids[t.cursor]
      · rw [if_pos past]
        refine ⟨false, _, rfl, kept, fun no => (by cases no), fun _ member => ?_⟩
        obtain ⟨i, inside, rfl⟩ := List.getElem_of_mem member
        rcases Nat.lt_or_ge i t.cursor with early | late
        · have below := recorded.passed i inside early
          rw [last] at below
          exact absurd below (lt_irrefl _)
        · rcases late.lt_or_eq with after | rfl
          · exact absurd (List.pairwise_iff_getElem.mp sorted _ _ more inside after) past.not_gt
          · exact absurd past (lt_irrefl _)
      · rw [if_neg past]
        by_cases here : ids[t.cursor] = id
        · rw [if_pos here]
          exact ⟨true, _, rfl, kept, fun _ => ⟨more, here⟩, fun no => (by cases no)⟩
        · rw [if_neg here]
          have below : ids[t.cursor] < id := lt_of_le_of_ne (not_lt.mp past) here
          refine seek_spec sorted ⟨⟨kept.tabled.count, kept.tabled.length, kept.tabled.front,
            kept.tabled.cache⟩, kept.contains, more, fun i inside before => ?_, kept.lookup,
            kept.uncached⟩ last (by dsimp only; omega)
          dsimp only at before ⊢
          rcases Nat.lt_succ_iff_lt_or_eq.mp before with early | rfl
          · exact recorded.passed i inside early
          · rw [last]
            exact below

/-- In a table that holds nothing back the row is overwritten. -/
theorem writeInPlace_spec (sorted : ids.Pairwise (· < ·)) (recorded : Recorded ids m t)
    (idle : t.writer = none) (inside : t.cursor < ids.length) (c : Core.Coord F64) :
    Recorded ids (Function.update m ids[t.cursor] (some c)) (t.writeInPlace c) := by
  have contains := recorded.contains
  unfold Contains at contains
  rw [idle] at contains
  have written : copyAt t.file (t.count * 8 + t.cursor * 16) (encodeCoordinate c) =
      nodeFile ids (Function.update m ids[t.cursor] (some c)) := by
    rw [show t.file = nodeFile ids m from contains, recorded.tabled.count]
    exact copyAt_row sorted inside c
  refine ⟨⟨recorded.tabled.count, ?_, ?_, recorded.tabled.cache⟩, ?_, recorded.cursor,
    recorded.passed, recorded.lookup, recorded.uncached.1, rfl⟩
  · show (copyAt t.file _ _).length = _
    rw [written, nodeFile_length]
  · show (copyAt t.file _ _).take _ = _
    rw [written, nodeFile_take]
  · unfold Contains
    rw [show (t.writeInPlace c).writer = none from idle]
    exact written

/-- **A row is put into the file**, behind the rows before it or in its place. -/
theorem place_spec (sorted : ids.Pairwise (· < ·)) (recorded : Recorded ids m t)
    (inside : t.cursor < ids.length) (c : Core.Coord F64) :
    Recorded ids (Function.update m ids[t.cursor] (some c)) (t.place c) := by
  unfold SearchNodeTable.place
  by_cases again : t.cursor < t.written
  · obtain ⟨finished, idle, cursor, -⟩ := finishCoordinates_spec recorded
    have result := writeInPlace_spec sorted finished idle (cursor.symm ▸ inside) c
    simp only [if_pos again, idle]
    simpa only [cursor] using result
  · simp only [if_neg again]
    cases writer : t.writer with
    | none => exact writeInPlace_spec sorted recorded writer inside c
    | some w =>
        have contains := recorded.contains
        unfold Contains at contains
        rw [writer] at contains
        obtain ⟨pending, absent⟩ := contains
        have reached : t.written + (t.cursor - t.written) = t.cursor := by omega
        have padded := @Pending.pad ids m (t.cursor - t.written) _ _ _ pending absent (by omega)
        rw [reached] at padded
        have next := padded.write inside c
        rw [copyAt_row sorted inside] at next
        have front := next.front
        rw [nodeFile_take] at front
        refine ⟨⟨recorded.tabled.count, next.length, front, recorded.tabled.cache⟩, ?_,
          recorded.cursor, recorded.passed, recorded.lookup, recorded.uncached⟩
        refine ⟨?_, fun i small later => ?_⟩
        · dsimp only
          rw [max_eq_right (not_lt.mp again)]
          exact next
        · dsimp only at later
          have apart : ids[i] ≠ ids[t.cursor] := by
            intro same
            have equal := (List.Nodup.getElem_inj_iff (sorted.imp ne_of_lt)).mp same
            omega
          rw [Function.update_of_ne apart]
          exact absent i small (by omega)

/-- Recording an id that is not needed changes nothing. -/
theorem Recorded.unneeded (recorded : Recorded ids m t) {id : Int64} (absent : id ∉ ids)
    (c : Core.Coord F64) : Recorded ids (Function.update m id (some c)) t := by
  have other : ∀ other ∈ ids, Function.update m id (some c) other = m other :=
    fun other member => Function.update_of_ne (fun same : other = id => absent (same ▸ member)) _ _
  have same : nodeFile ids (Function.update m id (some c)) = nodeFile ids m :=
    nodeFile_congr fun other' member => by rw [nodeRow, nodeRow, other other' member]
  refine ⟨recorded.tabled, ?_, recorded.cursor, recorded.passed, recorded.lookup,
    recorded.uncached⟩
  have contains := recorded.contains
  unfold Contains at contains ⊢
  cases writer : t.writer with
  | none =>
      rw [writer] at contains
      dsimp only
      rw [same]
      exact contains
  | some w =>
      rw [writer] at contains
      dsimp only
      rw [same]
      exact ⟨contains.1, fun i small later => by
        rw [other _ (List.getElem_mem small)]
        exact contains.2 i small later⟩

/-- **Recording a coordinate.** -/
theorem record_spec (sorted : ids.Pairwise (· < ·)) (recorded : Recorded ids m t) (id : Int64)
    (c : Core.Coord F64) :
    ∃ t', t.record id c = (.ok (), t') ∧ Recorded ids (Function.update m id (some c)) t' := by
  obtain ⟨t₁, back, ready⟩ := rewind_spec sorted recorded id
  have count : t₁.count = ids.length := ready.tabled.count
  obtain ⟨found, t₂, run, sought, here, absent⟩ :=
    @seek_spec ids m sorted id (t₁.count - t₁.cursor) _ ready rfl (by rw [count])
  rw [SearchNodeTable.record, back]
  dsimp only
  rw [run]
  cases found with
  | false => exact ⟨t₂, rfl, sought.unneeded (absent rfl) c⟩
  | true =>
      obtain ⟨inside, same⟩ := here rfl
      refine ⟨_, rfl, ?_⟩
      rw [← same]
      exact place_spec sorted sought inside c

end Recording

end OsmMini.Mobile

import OsmMini.Mobile.Search.Data

/-!
# What the data writer leaves in the file

The file depends on the stream only, not on the pieces it was written in: a header, the
compressed blocks of the stream one after the other, and one directory entry for each
(`dataFile`). Writing fails exactly when a block does not compress below the limit
(`writeSearchData_eq`).
-/

set_option autoImplicit false

namespace OsmMini.Mobile

open OsmMini.Foundations OsmMini.Foundations.LittleEndian

/-- The directory of encoded blocks that are laid from `base` on. -/
def dataEntries (base : ℕ) : List (List UInt8) → List (List UInt8)
  | [] => []
  | encoded :: rest =>
    dataEntry (base % 2 ^ 64) encoded.length :: dataEntries (base + encoded.length) rest

/-- The compressed blocks of a stream. -/
def encodedBlocks (zlib : Zlib) (stream : List UInt8) : List (List UInt8) :=
  (blocksOf searchDataBlockBytes stream).map zlib.compress

/-- The data file of a stream. -/
def dataFile (zlib : Zlib) (stream : List UInt8) : List UInt8 :=
  let encoded := encodedBlocks zlib stream
  dataHeader (stream.length % 2 ^ 64) (encoded.length % 2 ^ 64)
      ((searchDataHeaderBytes + encoded.flatten.length) % 2 ^ 64) ++
    encoded.flatten ++ (dataEntries searchDataHeaderBytes encoded).flatten

@[simp] theorem dataEntry_length (offset size : ℕ) :
    (dataEntry offset size).length = searchDataEntryBytes := by
  simp [dataEntry, searchDataEntryBytes]

@[simp] theorem dataHeader_length (logical blocks directory : ℕ) :
    (dataHeader logical blocks directory).length = searchDataHeaderBytes := by
  simp [dataHeader, searchDataHeaderBytes, searchDataMagic]

theorem dataEntries_append (base : ℕ) (last : List UInt8) : ∀ encoded : List (List UInt8),
    dataEntries base (encoded ++ [last]) = dataEntries base encoded ++
      [dataEntry ((base + encoded.flatten.length) % 2 ^ 64) last.length]
  | [] => rfl
  | first :: encoded => by
      rw [List.cons_append, dataEntries, dataEntries, dataEntries_append _ last encoded,
        List.cons_append, List.flatten_cons, List.length_append, Nat.add_assoc]

@[simp] theorem dataEntries_length (base : ℕ) (encoded : List (List UInt8)) :
    (dataEntries base encoded).length = encoded.length := by
  induction encoded generalizing base with
  | nil => rfl
  | cons first encoded ih => rw [dataEntries, List.length_cons, ih, List.length_cons]

/-- The entry of a block. -/
theorem dataEntries_getElem {encoded : List (List UInt8)} {i : ℕ} {here : List UInt8} (base : ℕ)
    (found : encoded[i]? = some here) :
    (dataEntries base encoded)[i]? =
      some (dataEntry ((base + startOf encoded i) % 2 ^ 64) here.length) := by
  induction encoded generalizing base i with
  | nil => simp at found
  | cons first encoded ih =>
      cases i with
      | zero =>
          obtain rfl : first = here := by simpa using found
          rfl
      | succ i =>
          rw [dataEntries, List.getElem?_cons_succ, ih _ (by simpa using found), startOf_cons,
            Nat.add_assoc]

/-- All entries have one size. -/
theorem dataEntries_size {base : ℕ} {encoded : List (List UInt8)} {entry : List UInt8}
    (member : entry ∈ dataEntries base encoded) : entry.length = searchDataEntryBytes := by
  induction encoded generalizing base with
  | nil => exact absurd member List.not_mem_nil
  | cons first encoded ih =>
      rcases List.mem_cons.mp member with rfl | later
      · exact dataEntry_length _ _
      · exact ih later

/-! ## The writer -/

section Writer

variable {zlib : Zlib}

/-- A block that the format does not take. -/
def TooLong (zlib : Zlib) (block : List UInt8) : Prop :=
  searchDataMaxEncoded < (zlib.compress block).length

instance (zlib : Zlib) (block : List UInt8) : Decidable (TooLong zlib block) :=
  inferInstanceAs (Decidable (_ < _))

/-- What the writer has laid after some blocks. -/
structure Laid (zlib : Zlib) (blocks : List (List UInt8)) (w : SearchDataWriter) : Prop where
  file : w.file = List.replicate searchDataHeaderBytes 0 ++ (blocks.map zlib.compress).flatten
  directory : w.directory =
    (dataEntries searchDataHeaderBytes (blocks.map zlib.compress)).flatten
  offset : w.offset =
    (searchDataHeaderBytes + (blocks.map zlib.compress).flatten.length) % 2 ^ 64
  count : w.blocks = blocks.length % 2 ^ 64

/-- The writer after a stream: full blocks that are laid, and the rest in its buffer. -/
structure Written (zlib : Zlib) (stream : List UInt8) (blocks : List (List UInt8))
    (w : SearchDataWriter) : Prop where
  laid : Laid zlib blocks w
  full : ∀ block ∈ blocks, block.length = searchDataBlockBytes
  fits : ∀ block ∈ blocks, ¬TooLong zlib block
  logical : w.logical = stream.length % 2 ^ 64
  split : blocks.flatten ++ w.buffer = stream

theorem written_new : Written zlib [] [] newSearchDataWriter :=
  ⟨⟨rfl, rfl, rfl, rfl⟩, fun _ none => absurd none List.not_mem_nil,
    fun _ none => absurd none List.not_mem_nil, rfl, rfl⟩

/-- Flushing lays one more encoded block, with its entry. -/
theorem flushBlock_spec {w : SearchDataWriter} {blocks : List (List UInt8)} {block : List UInt8}
    (laid : Laid zlib blocks w) (nonempty : block ≠ []) (fits : ¬TooLong zlib block) :
    ∃ w', w.flushBlock zlib block = .ok w' ∧ Laid zlib (blocks ++ [block]) w' ∧
      w'.logical = w.logical ∧ w'.buffer = [] := by
  have run : w.flushBlock zlib block = .ok _ := (if_neg nonempty).trans (if_neg fits)
  refine ⟨_, run, ⟨?_, ?_, ?_, ?_⟩, rfl, rfl⟩
  · simp [laid.file]
  · simp only [List.map_append, List.map_singleton, dataEntries_append, List.flatten_append,
      List.flatten_singleton, laid.directory, laid.offset]
  · simp [laid.offset, Nat.add_assoc]
  · simp [laid.count]

theorem flushBlock_tooLong {w : SearchDataWriter} {block : List UInt8} (nonempty : block ≠ [])
    (long : TooLong zlib block) :
    w.flushBlock zlib block = .error "compressed search block exceeds limit" :=
  (if_neg nonempty).trans (if_pos long)

/-- A stream with a full block that is too long at a multiple of the block size. -/
def Overflows (zlib : Zlib) (stream : List UInt8) : Prop :=
  ∃ full block rest, stream = List.flatten full ++ block ++ rest ∧
    (∀ b ∈ full, b.length = searchDataBlockBytes) ∧ block.length = searchDataBlockBytes ∧
    TooLong zlib block

theorem Overflows.append {stream : List UInt8} (overflows : Overflows zlib stream)
    (later : List UInt8) : Overflows zlib (stream ++ later) := by
  obtain ⟨full, block, rest, rfl, sized, long⟩ := overflows
  exact ⟨full, block, rest ++ later, (List.append_assoc ..), sized, long⟩

/-- The bytes that fit into the block. -/
def fitting (w : SearchDataWriter) (p : List UInt8) : ℕ :=
  min (searchDataBlockBytes - w.buffer.length) p.length

theorem write_full {w : SearchDataWriter} {p : List UInt8} (nonempty : p ≠ [])
    (full : (w.buffer ++ p.take (fitting w p)).length = searchDataBlockBytes) :
    w.write zlib p =
      match { w with logical := (w.logical + fitting w p) % 2 ^ 64 }.flushBlock zlib
        (w.buffer ++ p.take (fitting w p)) with
      | .error err => .error err
      | .ok w' => w'.write zlib (p.drop (fitting w p)) := by
  rw [SearchDataWriter.write, dif_neg nonempty]
  exact dif_pos full

theorem write_short {w : SearchDataWriter} {p : List UInt8} (nonempty : p ≠ [])
    (short : (w.buffer ++ p.take (fitting w p)).length ≠ searchDataBlockBytes) :
    ∃ w' : SearchDataWriter, w.write zlib p = w'.write zlib (p.drop (fitting w p)) ∧
      w'.file = w.file ∧ w'.directory = w.directory ∧ w'.offset = w.offset ∧
      w'.blocks = w.blocks ∧ w'.logical = (w.logical + fitting w p) % 2 ^ 64 ∧
      w'.buffer = w.buffer ++ p.take (fitting w p) := by
  rw [SearchDataWriter.write, dif_neg nonempty]
  exact ⟨_, dif_neg short, rfl, rfl, rfl, rfl, rfl, rfl⟩

/-- **Writing appends to the stream**, or a block of the longer stream is too long. -/
theorem write_spec {w : SearchDataWriter} {p stream : List UInt8} {blocks : List (List UInt8)}
    (written : Written zlib stream blocks w) :
    (∃ w' blocks', w.write zlib p = .ok w' ∧ Written zlib (stream ++ p) blocks' w') ∨
    (w.write zlib p = .error "compressed search block exceeds limit" ∧
      Overflows zlib (stream ++ p)) := by
  generalize size : p.length = k
  induction k using Nat.strong_induction_on generalizing w p stream blocks with
  | _ k ih =>
    by_cases empty : p = []
    · subst empty
      refine .inl ⟨w, blocks, ?_, by rwa [List.append_nil]⟩
      rw [SearchDataWriter.write]
      rfl
    have room := w.room
    have some := List.length_pos_iff.mpr empty
    have taken : fitting w p = min (searchDataBlockBytes - w.buffer.length) p.length := rfl
    have fewer : (p.drop (fitting w p)).length < k := by
      rw [List.length_drop]
      omega
    have cut : stream ++ p = (stream ++ p.take (fitting w p)) ++ p.drop (fitting w p) := by
      rw [List.append_assoc, List.take_append_drop]
    have grown : (w.logical + fitting w p) % 2 ^ 64 =
        (stream ++ p.take (fitting w p)).length % 2 ^ 64 := by
      rw [written.logical, Nat.mod_add_mod, List.length_append, List.length_take,
        min_eq_left (by omega)]
    have split : blocks.flatten ++ (w.buffer ++ p.take (fitting w p)) =
        stream ++ p.take (fitting w p) := by
      rw [← List.append_assoc, written.split]
    by_cases full : (w.buffer ++ p.take (fitting w p)).length = searchDataBlockBytes
    · have nonempty : w.buffer ++ p.take (fitting w p) ≠ [] := fun none => by
        rw [none] at full
        cases full
      rw [write_full empty full]
      by_cases long : TooLong zlib (w.buffer ++ p.take (fitting w p))
      · rw [flushBlock_tooLong nonempty long]
        refine .inr ⟨rfl, blocks, _, p.drop (fitting w p), ?_, written.full, full, long⟩
        rw [List.append_assoc _ _ (p.drop _), ← List.append_assoc, split, ← cut]
      · obtain ⟨w', flushed, laid, logical, buffer⟩ := flushBlock_spec
          (w := { w with logical := (w.logical + fitting w p) % 2 ^ 64 })
          ⟨written.laid.file, written.laid.directory, written.laid.offset, written.laid.count⟩
          nonempty long
        rw [flushed, cut]
        refine ih _ fewer
          ⟨laid, ?_, ?_, logical.trans grown, ?_⟩ rfl
        · intro block member
          rcases List.mem_append.mp member with earlier | last
          · exact written.full block earlier
          · rw [List.mem_singleton.mp last, full]
        · intro block member
          rcases List.mem_append.mp member with earlier | last
          · exact written.fits block earlier
          · rwa [List.mem_singleton.mp last]
        · rw [buffer, List.append_nil, List.flatten_append, List.flatten_singleton, split]
    · obtain ⟨w', run, file, directory, offset, count, logical, buffer⟩ :=
        write_short empty full
      rw [run, cut]
      refine ih _ fewer ⟨⟨file.trans written.laid.file,
        directory.trans written.laid.directory, offset.trans written.laid.offset,
        count.trans written.laid.count⟩, written.full, written.fits, logical.trans grown, ?_⟩ rfl
      rw [buffer, split]

/-- The same for a stream that comes in pieces. -/
theorem writes_spec : ∀ {pieces : List (List UInt8)} {w : SearchDataWriter} {stream : List UInt8}
    {blocks : List (List UInt8)}, Written zlib stream blocks w →
    (∃ w' blocks', pieces.foldlM (fun w p => w.write zlib p) w = .ok w' ∧
      Written zlib (stream ++ pieces.flatten) blocks' w') ∨
    (pieces.foldlM (fun w p => w.write zlib p) w =
        .error "compressed search block exceeds limit" ∧
      Overflows zlib (stream ++ pieces.flatten))
  | [], w, stream, blocks, written => by
      refine .inl ⟨w, blocks, rfl, ?_⟩
      rwa [List.flatten_nil, List.append_nil]
  | p :: pieces, w, stream, blocks, written => by
      rw [List.foldlM_cons, List.flatten_cons, ← List.append_assoc]
      rcases write_spec (p := p) written with ⟨w', blocks', run, written'⟩ | ⟨run, overflows⟩
      · rw [run]
        exact writes_spec written'
      · rw [run]
        exact .inr ⟨rfl, overflows.append _⟩

/-- The header goes over the room that was left for it. -/
theorem laid_file {w : SearchDataWriter} {blocks : List (List UInt8)} (laid : Laid zlib blocks w)
    (blocked : Blocked searchDataBlockBytes blocks)
    (logical : w.logical = blocks.flatten.length % 2 ^ 64) :
    overwrite (w.file ++ w.directory) (dataHeader w.logical w.blocks w.offset) =
      dataFile zlib blocks.flatten := by
  have encoded : encodedBlocks zlib blocks.flatten = blocks.map zlib.compress := by
    rw [encodedBlocks, blocked.blocksOf]
  have room : (w.file ++ w.directory).drop searchDataHeaderBytes =
      (blocks.map zlib.compress).flatten ++ w.directory := by
    rw [laid.file, List.append_assoc]
    exact List.drop_left' (List.length_replicate ..)
  rw [overwrite, dataHeader_length, room, dataFile, encoded, laid.directory, laid.offset,
    laid.count, logical, List.length_map, List.append_assoc]

/-- **Finishing writes the file of the stream**, or its last block is too long. -/
theorem finish_spec {w : SearchDataWriter} {stream : List UInt8} {blocks : List (List UInt8)}
    (written : Written zlib stream blocks w) :
    if ∀ block ∈ blocksOf searchDataBlockBytes stream, ¬TooLong zlib block then
      w.finish zlib = .ok (dataFile zlib stream)
    else w.finish zlib = .error "compressed search block exceeds limit" := by
  have positive : 0 < searchDataBlockBytes := by decide
  have room := w.room
  by_cases empty : w.buffer = []
  · have whole : blocks.flatten = stream := by
      rw [← written.split, empty, List.append_nil]
    have blocked := Blocked.of_full positive written.full
    rw [← whole, blocked.blocksOf, if_pos written.fits, SearchDataWriter.finish,
      SearchDataWriter.flushBlock, if_pos empty]
    exact congrArg Except.ok (laid_file (w := { w with buffer := [], room := by decide })
      ⟨written.laid.file, written.laid.directory, written.laid.offset, written.laid.count⟩
      blocked (written.logical.trans (by rw [whole])))
  · have whole : (blocks ++ [w.buffer]).flatten = stream := by
      rw [List.flatten_append, List.flatten_singleton, written.split]
    have blocked := Blocked.append written.full (List.length_pos_iff.mpr empty) room.le
    rw [← whole, blocked.blocksOf, SearchDataWriter.finish]
    by_cases long : TooLong zlib w.buffer
    · rw [flushBlock_tooLong empty long, if_neg fun fits =>
        fits _ (List.mem_append_right _ (List.mem_singleton_self _)) long]
    · obtain ⟨w', flushed, laid, logical, -⟩ := flushBlock_spec written.laid empty long
      rw [flushed, if_pos]
      · exact congrArg Except.ok (laid_file laid blocked
          (logical.trans (written.logical.trans (by rw [whole]))))
      · intro block member
        rcases List.mem_append.mp member with earlier | last
        · exact written.fits block earlier
        · rwa [List.mem_singleton.mp last]

/-- A full block that is too long is one of the blocks of the stream. -/
theorem Overflows.tooLong {stream : List UInt8} (overflows : Overflows zlib stream) :
    ∃ block ∈ blocksOf searchDataBlockBytes stream, TooLong zlib block := by
  obtain ⟨full, block, rest, rfl, sized, length, long⟩ := overflows
  refine ⟨block, ?_, long⟩
  have positive : 0 < searchDataBlockBytes := by decide
  have start : (List.flatten full).length = full.length * searchDataBlockBytes := by
    rw [List.length_flatten, List.map_congr_left sized, List.map_const', List.sum_replicate,
      smul_eq_mul]
  rw [blocksOf, List.mem_map]
  refine ⟨full.length, ?_, ?_⟩
  · rw [List.mem_range, Nat.lt_div_iff_mul_lt positive, List.length_append, List.length_append,
      start, length]
    omega
  · have middle := portion_middle (List.flatten full) block rest
    rwa [start, length] at middle

/-- **The file is that of the stream, however it was cut into pieces.** Writing fails
exactly when some block of the stream is too long once it is compressed. -/
theorem writeSearchData_eq (pieces : List (List UInt8)) :
    if ∀ block ∈ blocksOf searchDataBlockBytes pieces.flatten, ¬TooLong zlib block then
      writeSearchData zlib pieces = .ok (dataFile zlib pieces.flatten)
    else writeSearchData zlib pieces = .error "compressed search block exceeds limit" := by
  rcases writes_spec (written_new) with
    ⟨w, blocks, run, written⟩ | ⟨run, overflows⟩
  · rw [List.nil_append] at written
    rw [writeSearchData, run]
    exact finish_spec written
  · rw [List.nil_append] at overflows
    obtain ⟨block, member, long⟩ := overflows.tooLong
    rw [if_neg fun fits => fits block member long, writeSearchData, run]

end Writer

end OsmMini.Mobile

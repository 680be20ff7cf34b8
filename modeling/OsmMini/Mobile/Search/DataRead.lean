import OsmMini.Mobile.Search.DataWritten

/-!
# Reading blocks of the data file

A reader that was opened on the file of a stream (`Opens`) finds the entries of a block
and its compressed bytes where the writer laid them. Whatever earlier reads left in the
buffers, the windows show the file (`Served`), and a block is read as the stream has it
(`readDataBlock_spec`).
-/

set_option autoImplicit false

namespace OsmMini.Mobile

open OsmMini.Foundations OsmMini.Foundations.LittleEndian

/-! ## The reader of a stream's file -/

/-- The reader was opened on the file of a stream. -/
structure Opens (zlib : Zlib) (stream : List UInt8) (s : SearchReader) : Prop where
  lawful : zlib.Lawful
  fits : ∀ block ∈ blocksOf searchDataBlockBytes stream, ¬TooLong zlib block
  data : s.data = dataFile zlib stream
  small : s.data.length < 2 ^ 63
  compressed : s.compressedData = true
  dataBytes : s.dataBytes = stream.length
  dataBlocks : s.dataBlocks = (encodedBlocks zlib stream).length
  dataDirectory : s.dataDirectory =
    searchDataHeaderBytes + (encodedBlocks zlib stream).flatten.length

section Reader

variable {zlib : Zlib} {stream : List UInt8} {s : SearchReader}

theorem dataFile_length (zlib : Zlib) (stream : List UInt8) :
    (dataFile zlib stream).length = searchDataHeaderBytes +
      (encodedBlocks zlib stream).flatten.length +
      (encodedBlocks zlib stream).length * searchDataEntryBytes := by
  have entries : (dataEntries searchDataHeaderBytes (encodedBlocks zlib stream)).flatten.length =
      (encodedBlocks zlib stream).length * searchDataEntryBytes := by
    rw [length_flatten_of_size fun entry member => dataEntries_size member, dataEntries_length]
  rw [dataFile, List.length_append, List.length_append, entries, dataHeader_length]

theorem encodedBlocks_length (zlib : Zlib) (stream : List UInt8) :
    (encodedBlocks zlib stream).length =
      (stream.length + searchDataBlockBytes - 1) / searchDataBlockBytes := by
  rw [encodedBlocks, List.length_map, blocksOf, List.length_map, List.length_range]

/-- The compressed bytes of a block of the stream. -/
theorem encodedBlocks_getElem {i : ℕ} (inside : i < (encodedBlocks zlib stream).length) :
    (encodedBlocks zlib stream)[i]? =
      some (zlib.compress (portion stream (i * searchDataBlockBytes) searchDataBlockBytes)) := by
  rw [encodedBlocks_length] at inside
  rw [encodedBlocks, List.getElem?_map, blocksOf, List.getElem?_map, List.getElem?_range inside]
  rfl

/-- A block is one of those the stream is cut into. -/
theorem portion_mem_blocksOf {i : ℕ} (inside : i < (encodedBlocks zlib stream).length) :
    portion stream (i * searchDataBlockBytes) searchDataBlockBytes ∈
      blocksOf searchDataBlockBytes stream := by
  rw [encodedBlocks_length] at inside
  exact List.mem_map.mpr ⟨i, List.mem_range.mpr inside, rfl⟩

/-- Every byte of the stream is in a block. -/
theorem block_inside {at' : ℕ} (inside : at' < stream.length) :
    at' / searchDataBlockBytes < (encodedBlocks zlib stream).length := by
  have positive : 0 < searchDataBlockBytes := by decide
  rw [encodedBlocks_length, Nat.div_lt_iff_lt_mul positive]
  have whole := Nat.lt_div_mul_add (a := stream.length + searchDataBlockBytes - 1) positive
  omega

/-- A block starts inside the stream. -/
theorem block_start {block : ℕ} (inside : block < (encodedBlocks zlib stream).length) :
    block * searchDataBlockBytes < stream.length := by
  have positive : 0 < searchDataBlockBytes := by decide
  rw [encodedBlocks_length, Nat.lt_div_iff_mul_lt positive] at inside
  omega

namespace Opens

variable (opens : Opens zlib stream s)

include opens

theorem length : s.data.length = s.dataDirectory + s.dataBlocks * searchDataEntryBytes := by
  rw [opens.data, dataFile_length, opens.dataDirectory, opens.dataBlocks]

/-- The compressed bytes of a block stand where they were laid. -/
theorem portion_encoded {i : ℕ} {encoded : List UInt8}
    (found : (encodedBlocks zlib stream)[i]? = some encoded) :
    portion s.data (searchDataHeaderBytes + startOf (encodedBlocks zlib stream) i)
      encoded.length = encoded := by
  have here := @portion_laid _ (dataHeader (stream.length % 2 ^ 64)
      ((encodedBlocks zlib stream).length % 2 ^ 64)
      ((searchDataHeaderBytes + (encodedBlocks zlib stream).flatten.length) % 2 ^ 64))
    _ (dataEntries searchDataHeaderBytes (encodedBlocks zlib stream)).flatten _ _ found
  rw [dataHeader_length] at here
  rw [opens.data]
  exact here

/-- The entry of a block stands at its place in the directory. -/
theorem portion_entry {i : ℕ} {encoded : List UInt8}
    (found : (encodedBlocks zlib stream)[i]? = some encoded) :
    portion s.data (s.dataDirectory + i * searchDataEntryBytes) searchDataEntryBytes =
      dataEntry (searchDataHeaderBytes + startOf (encodedBlocks zlib stream) i)
        encoded.length := by
  have small : searchDataHeaderBytes + startOf (encodedBlocks zlib stream) i < 2 ^ 64 := by
    have low := startOf_le (encodedBlocks zlib stream) i
    have size := opens.length
    have file := opens.small
    rw [opens.dataDirectory] at size
    omega
  have entry := dataEntries_getElem searchDataHeaderBytes found
  rw [Nat.mod_eq_of_lt small] at entry
  have here := @Foundations.portion_entry _ (dataHeader (stream.length % 2 ^ 64)
      ((encodedBlocks zlib stream).length % 2 ^ 64)
      ((searchDataHeaderBytes + (encodedBlocks zlib stream).flatten.length) % 2 ^ 64) ++
      (encodedBlocks zlib stream).flatten) _ _ _ _ (fun _ member => dataEntries_size member) entry
  rw [List.length_append, dataHeader_length] at here
  rw [opens.dataDirectory, opens.data]
  exact here

end Opens

end Reader

/-! ## The entries of a block -/

section Entries

variable {offset size : ℕ}

theorem dataEntry_offset (fits : offset < 2 ^ 64) (rest : List UInt8) :
    peek 8 (dataEntry offset size ++ rest) 0 = offset := by
  rw [dataEntry, List.append_assoc, List.append_assoc]
  exact peek_bytesOf fits _

theorem dataEntry_size (fits : size < 2 ^ 32) (rest : List UInt8) :
    peek 4 (dataEntry offset size ++ rest) 8 = size := by
  rw [dataEntry, List.append_assoc, List.append_assoc, peek_append_right (by simp),
    length_bytesOf]
  exact peek_bytesOf fits _

theorem dataEntry_reserved (rest : List UInt8) :
    peek 4 (dataEntry offset size ++ rest) 12 = 0 := by
  rw [dataEntry, List.append_assoc, peek_append_right (by simp), List.length_append,
    length_bytesOf, length_bytesOf]
  exact peek_bytesOf (by decide) _

/-- The entry after the first one. -/
theorem dataEntry_next (fits : offset < 2 ^ 64) (first second : ℕ) :
    peek 8 (dataEntry first second ++ dataEntry offset size) searchDataEntryBytes = offset := by
  rw [peek_append_right (dataEntry_length ..).le, dataEntry_length, Nat.sub_self]
  have here := @dataEntry_offset offset size fits []
  rwa [List.append_nil] at here

end Entries

/-! ## Opening -/

/-- The fields of a header are read back. -/
theorem dataHeader_fields {logical blocks directory : ℕ} (logical64 : logical < 2 ^ 64)
    (blocks64 : blocks < 2 ^ 64) (directory64 : directory < 2 ^ 64) :
    peek 4 (dataHeader logical blocks directory) 8 = 1 ∧
    peek 4 (dataHeader logical blocks directory) 12 = searchDataBlockBytes ∧
    peek 8 (dataHeader logical blocks directory) 16 = logical ∧
    peek 8 (dataHeader logical blocks directory) 24 = blocks ∧
    peek 8 (dataHeader logical blocks directory) 32 = directory ∧
    peek 4 (dataHeader logical blocks directory) 40 = searchDataEntryBytes ∧
    peek 4 (dataHeader logical blocks directory) 44 = 0 := by
  have assoc : dataHeader logical blocks directory = searchDataMagic ++ (bytesOf 4 1 ++
      (bytesOf 4 searchDataBlockBytes ++ (bytesOf 8 logical ++ (bytesOf 8 blocks ++
      (bytesOf 8 directory ++ (bytesOf 4 searchDataEntryBytes ++ (bytesOf 4 0 ++ []))))))) := by
    simp only [dataHeader, List.append_assoc, List.append_nil]
  rw [assoc]
  refine ⟨peek_field searchDataMagic _ (by decide) rfl, ?_, ?_, ?_, ?_, ?_, ?_⟩
  all_goals rw [← List.append_assoc]
  · exact peek_field _ _ (by decide) (by simp [searchDataMagic])
  all_goals rw [← List.append_assoc]
  · exact peek_field _ _ logical64 (by simp [searchDataMagic])
  all_goals rw [← List.append_assoc]
  · exact peek_field _ _ blocks64 (by simp [searchDataMagic])
  all_goals rw [← List.append_assoc]
  · exact peek_field _ _ directory64 (by simp [searchDataMagic])
  all_goals rw [← List.append_assoc]
  · exact peek_field _ _ (by decide) (by simp [searchDataMagic])
  · rw [← List.append_assoc]
    exact peek_field _ _ (by decide) (by simp [searchDataMagic])

/-- **A written file is opened, as the file of its stream.** The header holds the length
of the stream in 64 bits, and a reader takes it as a signed number: a longer stream is
refused. -/
theorem readDataHeader_spec {zlib : Zlib} (lawful : zlib.Lawful) {stream : List UInt8}
    (fits : ∀ block ∈ blocksOf searchDataBlockBytes stream, ¬TooLong zlib block)
    {s : SearchReader} (data : s.data = dataFile zlib stream) (small : s.data.length < 2 ^ 63) :
    if stream.length < 2 ^ 63 then
      ∃ s', s.readDataHeader = .ok s' ∧ Opens zlib stream s' ∧ s'.index = s.index
    else s.readDataHeader = .error "invalid compressed search data directory" := by
  have length := dataFile_length zlib stream
  have count := encodedBlocks_length zlib stream
  rw [data] at small
  have header : portion (dataFile zlib stream) 0 searchDataHeaderBytes =
      dataHeader (stream.length % 2 ^ 64) ((encodedBlocks zlib stream).length % 2 ^ 64)
        ((searchDataHeaderBytes + (encodedBlocks zlib stream).flatten.length) % 2 ^ 64) := by
    rw [dataFile, List.append_assoc]
    exact List.take_left' (dataHeader_length ..)
  obtain ⟨version, size, logical, blocks, directory, entry, reserved⟩ := dataHeader_fields
    (Nat.mod_lt stream.length (by decide : 0 < 2 ^ 64))
    (Nat.mod_lt (encodedBlocks zlib stream).length (by decide : 0 < 2 ^ 64))
    (Nat.mod_lt (searchDataHeaderBytes + (encodedBlocks zlib stream).flatten.length)
      (by decide : 0 < 2 ^ 64))
  have entryBytes : searchDataEntryBytes = 16 := rfl
  have blockBytes : searchDataBlockBytes = 32768 := rfl
  have headerBytes : searchDataHeaderBytes = 48 := rfl
  have counted : (encodedBlocks zlib stream).length % 2 ^ 64 =
      (encodedBlocks zlib stream).length := by
    refine Nat.mod_eq_of_lt ?_
    rw [entryBytes] at length
    omega
  have placed : (searchDataHeaderBytes + (encodedBlocks zlib stream).flatten.length) % 2 ^ 64 =
      searchDataHeaderBytes + (encodedBlocks zlib stream).flatten.length :=
    Nat.mod_eq_of_lt (by omega)
  have magic : (dataHeader (stream.length % 2 ^ 64) ((encodedBlocks zlib stream).length % 2 ^ 64)
      ((searchDataHeaderBytes + (encodedBlocks zlib stream).flatten.length) % 2 ^ 64)).take 8 =
        searchDataMagic := by
    simp only [dataHeader, List.append_assoc]
    exact List.take_left' rfl
  have empty : (encodedBlocks zlib stream).length = 0 →
      (encodedBlocks zlib stream).flatten.length = 0 := fun none => by
    rw [List.length_eq_zero_iff.mp none]
    rfl
  have opened : s.readDataHeader =
      if 2 ^ 63 ≤ stream.length % 2 ^ 64 ∨ (encodedBlocks zlib stream).length ≠
          (stream.length % 2 ^ 64 + searchDataBlockBytes - 1) / searchDataBlockBytes then
        .error "invalid compressed search data directory"
      else .ok
        { s with
          compressedData := true
          dataBytes := stream.length % 2 ^ 64
          dataBlocks := (encodedBlocks zlib stream).length
          dataDirectory :=
            searchDataHeaderBytes + (encodedBlocks zlib stream).flatten.length } := by
    unfold SearchReader.readDataHeader
    rw [data, header]
    dsimp only
    rw [version, size, logical, blocks, directory, entry, reserved, magic, counted, placed,
      dataHeader_length, length, if_neg (by decide), if_neg (by decide)]
    refine if_congr ?_ rfl rfl
    rw [entryBytes, Nat.add_sub_cancel_left, Nat.mul_mod_left, Nat.mul_div_cancel _ (by decide)]
    omega
  rw [opened]
  by_cases short : stream.length < 2 ^ 63
  · have whole : stream.length % 2 ^ 64 = stream.length := Nat.mod_eq_of_lt (by omega)
    rw [if_pos short, whole, if_neg (by omega)]
    exact ⟨_, rfl, ⟨lawful, fits, data, data ▸ small, rfl, rfl, rfl, rfl⟩, rfl⟩
  · rw [if_neg short, if_pos]
    -- Past 64 bits the length wraps, and no longer has as many blocks as were written.
    rw [count, blockBytes]
    omega

/-! ## Windows -/

/-- The windows show the file, whatever they were filled for. -/
structure Served (s : SearchReader) (scratch : SearchScratch) (window : SearchDataWindow) :
    Prop where
  sized : scratch.Sized
  directory : Shows scratch.directory s.data
    (s.dataDirectory + window.directoryAt * searchDataEntryBytes)
    (window.directoryCount * searchDataEntryBytes)
  encoded : Shows scratch.encoded s.data window.encodedAt window.encodedSize

section Windows

variable {zlib : Zlib} {stream : List UInt8} {s : SearchReader} {scratch : SearchScratch}
  {window : SearchDataWindow}

theorem served_new (opens : Opens zlib stream s) (sized : scratch.Sized) :
    Served s scratch newSearchDataWindow := by
  refine ⟨sized, ⟨?_, rfl⟩, shows_nothing _ _⟩
  rw [opens.length]
  simp [newSearchDataWindow]

theorem entryCount_le {block : ℕ} (inside : block < s.dataBlocks) :
    block + entryCount s block ≤ s.dataBlocks := by
  unfold entryCount
  split_ifs <;> omega

/-- The entries that are read are in the directory, fit the buffer and reach the block. -/
theorem directoryReach_bounds (sized : scratch.Sized) {block : ℕ} (inside : block < s.dataBlocks) :
    entryCount s block ≤ directoryReach s block scratch window ∧
      block + directoryReach s block scratch window ≤ s.dataBlocks ∧
      directoryReach s block scratch window ≤ 64 := by
  have buffered : scratch.directory.length / searchDataEntryBytes = 64 := by
    rw [sized.directory]
    rfl
  have counted := entryCount_le inside
  have two : entryCount s block ≤ 2 := by
    unfold entryCount
    split_ifs <;> omega
  unfold directoryReach
  rw [buffered]
  split_ifs <;> omega

/-- After fetching, the entries of the block are in the window. -/
theorem fetchDirectory_spec (opens : Opens zlib stream s) (served : Served s scratch window)
    {block : ℕ} (inside : block < s.dataBlocks) :
    ∃ scratch' window', fetchDirectory s block scratch window = (.ok (), scratch', window') ∧
      Served s scratch' window' ∧ window'.directoryAt ≤ block ∧
      block + entryCount s block ≤ window'.directoryAt + window'.directoryCount := by
  unfold fetchDirectory
  dsimp only
  split_ifs with missing
  · obtain ⟨low, high, few⟩ := directoryReach_bounds served.sized inside
    generalize directoryReach s block scratch window = n at low high few ⊢
    have range : s.dataDirectory + block * searchDataEntryBytes + n * searchDataEntryBytes ≤
        s.data.length := by
      rw [opens.length, Nat.add_assoc, ← Nat.add_mul]
      exact Nat.add_le_add_left (Nat.mul_le_mul_right _ high) _
    rw [readAt_ok range]
    refine ⟨_, _, rfl, ⟨⟨served.sized.postings, served.sized.block, served.sized.data,
      served.sized.encoded, ?_⟩, shows_overwrite range, served.encoded⟩, le_refl _,
      Nat.add_le_add_left low _⟩
    rw [overwrite_length]
    · exact served.sized.directory
    · rw [portion_length range, served.sized.directory]
      exact Nat.mul_le_mul_right _ few
  · rw [not_or, not_lt, not_lt] at missing
    exact ⟨scratch, window, rfl, served, missing.1, missing.2⟩

/-- After fetching, the compressed bytes are in the window. -/
theorem fetchEncoded_spec (opens : Opens zlib stream s) (served : Served s scratch window)
    (continuing : Bool) {offset size : ℕ} (inside : offset + size ≤ s.dataDirectory)
    (fits : size ≤ searchDataMaxEncoded) :
    ∃ scratch' window', fetchEncoded s continuing offset size scratch window =
        (.ok (), scratch', window') ∧
      Served s scratch' window' ∧ window'.encodedAt ≤ offset ∧
      offset + size ≤ window'.encodedAt + window'.encodedSize := by
  unfold fetchEncoded
  dsimp only
  split_ifs with missing
  · have bounds : size ≤ encodedReach s continuing offset size scratch window ∧
        offset + encodedReach s continuing offset size scratch window ≤ s.dataDirectory ∧
        encodedReach s continuing offset size scratch window ≤ searchDataMaxEncoded := by
      unfold encodedReach
      rw [served.sized.encoded]
      split_ifs <;> omega
    obtain ⟨low, high, few⟩ := bounds
    generalize encodedReach s continuing offset size scratch window = n at low high few ⊢
    have range : offset + n ≤ s.data.length := by
      rw [opens.length]
      omega
    rw [readAt_ok range]
    refine ⟨_, _, rfl, ⟨⟨served.sized.postings, served.sized.block, served.sized.data, ?_,
      served.sized.directory⟩, served.directory, shows_overwrite range⟩, le_refl _,
      Nat.add_le_add_left low _⟩
    rw [overwrite_length]
    · exact served.sized.encoded
    · rw [portion_length range, served.sized.encoded]
      exact few
  · rw [not_or, not_lt, not_lt] at missing
    exact ⟨scratch, window, rfl, served, missing.1, missing.2⟩

/-- Inflating a compressed block puts it into the data buffer. -/
theorem inflateBlock_spec (lawful : zlib.Lawful) (block : List UInt8) :
    inflateBlock zlib (zlib.compress block) block.length scratch =
      (.ok block, { scratch with data := overwrite scratch.data block }) := by
  simp only [inflateBlock, lawful.inflate_compress, lt_irrefl, if_false, if_true, ne_eq,
    not_true_eq_false, or_self, List.take_length]
  rw [overwrite, List.take_left]

/-- The entries of a block and the next one, as the file has them. -/
theorem portion_entries (opens : Opens zlib stream s) {block : ℕ} {encoded : List UInt8}
    (found : (encodedBlocks zlib stream)[block]? = some encoded) :
    ∃ rest, portion s.data (s.dataDirectory + block * searchDataEntryBytes)
        (entryCount s block * searchDataEntryBytes) =
      dataEntry (searchDataHeaderBytes + startOf (encodedBlocks zlib stream) block)
        encoded.length ++ rest ∧
      (block + 1 < s.dataBlocks → ∃ size, rest =
        dataEntry (searchDataHeaderBytes + startOf (encodedBlocks zlib stream) (block + 1))
          size) := by
  unfold entryCount
  split_ifs with more
  · have next := List.getElem?_eq_getElem (opens.dataBlocks ▸ more)
    rw [Nat.two_mul, ← portion_append_portion, opens.portion_entry found, Nat.add_assoc,
      ← Nat.succ_mul, opens.portion_entry next]
    exact ⟨_, rfl, fun _ => ⟨_, rfl⟩⟩
  · rw [Nat.one_mul, opens.portion_entry found]
    exact ⟨[], (List.append_nil _).symm, fun h => absurd h more⟩

/-- The entry of a block fits the file and meets the entry after it. -/
theorem bounds_ok (opens : Opens zlib stream s) {block : ℕ} {encoded rest : List UInt8}
    (found : (encodedBlocks zlib stream)[block]? = some encoded)
    (next : block + 1 < s.dataBlocks → ∃ size, rest =
      dataEntry (searchDataHeaderBytes + startOf (encodedBlocks zlib stream) (block + 1)) size) :
    ¬badBounds s block (searchDataHeaderBytes + startOf (encodedBlocks zlib stream) block)
      encoded.length 0
      (peek 8 (dataEntry (searchDataHeaderBytes + startOf (encodedBlocks zlib stream) block)
        encoded.length ++ rest) searchDataEntryBytes) := by
  obtain ⟨inside, here⟩ := List.getElem?_eq_some_iff.mp found
  have ends := startOf_succ found
  have low := startOf_le (encodedBlocks zlib stream) (block + 1)
  have directory := opens.dataDirectory
  have content : encoded = zlib.compress
      (portion stream (block * searchDataBlockBytes) searchDataBlockBytes) :=
    Option.some.inj (found.symm.trans (encodedBlocks_getElem inside))
  have positive : 0 < encoded.length := by
    rw [content]
    exact List.length_pos_iff.mpr (opens.lawful.compress_ne_nil _)
  have short : encoded.length ≤ searchDataMaxEncoded := by
    rw [content]
    exact not_lt.mp (opens.fits _ (portion_mem_blocksOf inside))
  rintro (h | h | h | h | h | h | ⟨first, h⟩ | ⟨last, h⟩ | ⟨more, h⟩)
  · omega
  · omega
  · omega
  · omega
  · omega
  · exact h rfl
  · rw [first] at h
    exact h rfl
  · rw [Nat.add_assoc, ← ends, last, opens.dataBlocks, startOf_length] at h
    exact h directory.symm
  · obtain ⟨size, rfl⟩ := next more
    rw [dataEntry_next, ends, ← Nat.add_assoc] at h
    · exact h rfl
    · have file := opens.small
      have size := opens.length
      omega

/-- **A block is read from the file as the stream has it**, through whatever the windows
show. -/
theorem readDataBlock_spec (opens : Opens zlib stream s) (served : Served s scratch window)
    {block : ℕ} (inside : block < s.dataBlocks) :
    ∃ scratch' window', readDataBlock zlib s block scratch window =
        (.ok (portion stream (block * searchDataBlockBytes) searchDataBlockBytes),
          scratch', window') ∧
      Served s scratch' window' ∧
      Shows scratch'.data stream (block * searchDataBlockBytes)
        (portion stream (block * searchDataBlockBytes) searchDataBlockBytes).length := by
  have found := encodedBlocks_getElem
    (opens.dataBlocks ▸ inside)
  set content := portion stream (block * searchDataBlockBytes) searchDataBlockBytes with cut
  obtain ⟨scratch₁, window₁, fetched, served₁, low, high⟩ := fetchDirectory_spec opens served inside
  obtain ⟨rest, entries, next⟩ := portion_entries opens found
  have ends := startOf_succ found
  have last := startOf_le (encodedBlocks zlib stream) (block + 1)
  have directory := opens.dataDirectory
  have file := opens.small
  have size := opens.length
  have short : (zlib.compress content).length ≤ searchDataMaxEncoded :=
    not_lt.mp (opens.fits _ (portion_mem_blocksOf (opens.dataBlocks ▸ inside)))
  have shown : portion scratch₁.directory
      ((block - window₁.directoryAt) * searchDataEntryBytes)
      (entryCount s block * searchDataEntryBytes) =
      dataEntry (searchDataHeaderBytes + startOf (encodedBlocks zlib stream) block)
        (zlib.compress content).length ++ rest := by
    have there := served₁.directory.portion
     
     
      (Nat.add_le_add_left (Nat.mul_le_mul_right _ low) _)
      (by
        rw [Nat.add_assoc, Nat.add_assoc, ← Nat.add_mul, ← Nat.add_mul]
        exact Nat.add_le_add_left (Nat.mul_le_mul_right _ high) _)
    rw [Nat.add_sub_add_left, ← Nat.sub_mul] at there
    exact there.trans entries
  obtain ⟨scratch₂, window₂, fetched', served₂, low', high'⟩ :=
    @fetchEncoded_spec _ _ _ _ _ opens served₁ (decide (window.nextBlock = block))
      (searchDataHeaderBytes + startOf (encodedBlocks zlib stream) block) _ (by omega) short
  have bytes := served₂.encoded.portion low' high'
  rw [opens.portion_encoded found] at bytes
  have length : min searchDataBlockBytes (s.dataBytes - block * searchDataBlockBytes) =
      content.length := by
    rw [cut, portion, List.length_take, List.length_drop, opens.dataBytes]
  have offset64 : searchDataHeaderBytes + startOf (encodedBlocks zlib stream) block < 2 ^ 64 := by
    omega
  have size32 : (zlib.compress content).length < 2 ^ 32 := short.trans_lt (by decide)
  have run : readDataBlock zlib s block scratch window = (.ok content,
      { scratch₂ with data := overwrite scratch₂.data content },
      { window₂ with nextBlock := block + 1 }) := by
    rw [readDataBlock, if_neg (not_le.mpr inside)]
    simp only [fetched, shown, dataEntry_offset offset64, dataEntry_size size32,
      dataEntry_reserved]
    rw [if_neg (bounds_ok opens found next)]
    simp only [fetched', bytes, length, inflateBlock_spec opens.lawful]
  have fits : content.length ≤ searchDataBlockBytes := by
    rw [← length]
    exact min_le_left ..
  have range : block * searchDataBlockBytes + content.length ≤ stream.length := by
    have start := block_start (opens.dataBlocks ▸ inside)
    have remains := length.symm.trans_le (min_le_right ..)
    rw [opens.dataBytes] at remains
    omega
  refine ⟨_, _, run, ⟨⟨served₂.sized.postings, served₂.sized.block, ?_, served₂.sized.encoded,
    served₂.sized.directory⟩, served₂.directory, served₂.encoded⟩, ⟨range, ?_⟩⟩
  · rw [overwrite_length]
    · exact served₂.sized.data
    · rw [served₂.sized.data]
      exact fits
  · have whole : portion stream (block * searchDataBlockBytes) content.length = content := by
      conv_rhs => rw [cut, portion]
      rw [portion, ← length, opens.dataBytes, ← List.length_drop, ← List.take_take,
        List.take_length]
    rw [whole, overwrite, List.take_left]

end Windows

end OsmMini.Mobile

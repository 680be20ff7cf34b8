import OsmMini.Mobile.Search.Basic

/-!
# The compressed data file

`SearchDataWriter` cuts the stream of records into blocks, compresses each and lists
them in a directory that is appended at the end; the header is written last, over the
room that was left for it.

A reader finds a block through two adjacent entries of the directory. It keeps three
buffers: a window of the directory, a window of the compressed bytes and the block it
inflated last. The windows grow only when blocks are read one after the other.
-/

set_option autoImplicit false

namespace OsmMini.Mobile

open OsmMini.Foundations OsmMini.Foundations.LittleEndian

/-! ## Writing -/

/-- The state of the writer: the bytes written to the file and to the directory, and the
block that is being filled, which has room. -/
structure SearchDataWriter where
  file : List UInt8
  directory : List UInt8
  buffer : List UInt8
  logical : ℕ
  offset : ℕ
  blocks : ℕ
  room : buffer.length < searchDataBlockBytes

def newSearchDataWriter : SearchDataWriter where
  file := List.replicate searchDataHeaderBytes 0
  directory := []
  buffer := []
  logical := 0
  offset := searchDataHeaderBytes
  blocks := 0
  room := by decide

/-- The entry of a block: where it starts and how many bytes it has. -/
def dataEntry (offset size : ℕ) : List UInt8 :=
  bytesOf 8 offset ++ bytesOf 4 size ++ bytesOf 4 0

/-- Compress a full block, or the last one, and list it. -/
def SearchDataWriter.flushBlock (zlib : Zlib) (w : SearchDataWriter) (block : List UInt8) :
    Except String SearchDataWriter :=
  if block = [] then .ok { w with buffer := [], room := by decide }
  else
    let encoded := zlib.compress block
    if searchDataMaxEncoded < encoded.length then
      .error "compressed search block exceeds limit"
    else .ok
      { file := w.file ++ encoded
        directory := w.directory ++ dataEntry w.offset encoded.length
        buffer := []
        logical := w.logical
        offset := (w.offset + encoded.length) % 2 ^ 64
        blocks := (w.blocks + 1) % 2 ^ 64
        room := by decide }

/-- Fill the block with the bytes and flush it whenever it is full. -/
def SearchDataWriter.write (zlib : Zlib) (w : SearchDataWriter) (p : List UInt8) :
    Except String SearchDataWriter :=
  if empty : p = [] then .ok w
  else
    let n := min (searchDataBlockBytes - w.buffer.length) p.length
    let filled := w.buffer ++ p.take n
    let counted := { w with logical := (w.logical + n) % 2 ^ 64 }
    have fewer : (p.drop n).length < p.length := by
      have room := w.room
      have some := List.length_pos_iff.mpr empty
      simp only [n, List.length_drop]
      omega
    if full : filled.length = searchDataBlockBytes then
      match counted.flushBlock zlib filled with
      | .error err => .error err
      | .ok w => w.write zlib (p.drop n)
    else
      SearchDataWriter.write zlib
        { counted with
          buffer := filled
          room := by
            have room := w.room
            have taken : filled.length = w.buffer.length + n := by
              simp only [filled, List.length_append, List.length_take]
              omega
            omega }
        (p.drop n)
termination_by p.length
decreasing_by
  all_goals exact fewer

/-- The header of a data file. -/
def dataHeader (logical blocks directory : ℕ) : List UInt8 :=
  searchDataMagic ++ bytesOf 4 1 ++ bytesOf 4 searchDataBlockBytes ++ bytesOf 8 logical ++
    bytesOf 8 blocks ++ bytesOf 8 directory ++ bytesOf 4 searchDataEntryBytes ++ bytesOf 4 0

/-- Flush the last block, append the directory and write the header. -/
def SearchDataWriter.finish (zlib : Zlib) (w : SearchDataWriter) : Except String (List UInt8) :=
  match w.flushBlock zlib w.buffer with
  | .error err => .error err
  | .ok w =>
    .ok (overwrite (w.file ++ w.directory) (dataHeader w.logical w.blocks w.offset))

/-- Write a stream that comes in pieces. -/
def writeSearchData (zlib : Zlib) (pieces : List (List UInt8)) : Except String (List UInt8) :=
  match pieces.foldlM (fun w p => w.write zlib p) newSearchDataWriter with
  | .error err => .error err
  | .ok w => w.finish zlib

/-! ## Opening -/

/-- Read the header of a data file. A file without one is an uncompressed stream. -/
def SearchReader.readDataHeader (s : SearchReader) : Except String SearchReader :=
  let header := portion s.data 0 searchDataHeaderBytes
  let size := s.data.length
  if header.length < 8 ∨ header.take 8 ≠ searchDataMagic then .ok { s with dataBytes := size }
  else if header.length < searchDataHeaderBytes ∨ peek 4 header 8 ≠ 1 ∨
      peek 4 header 12 ≠ searchDataBlockBytes ∨ peek 4 header 40 ≠ searchDataEntryBytes ∨
      peek 4 header 44 ≠ 0 then
    .error "invalid compressed search data header"
  else
    let logical := peek 8 header 16
    let blocks := peek 8 header 24
    let directory := peek 8 header 32
    if 2 ^ 63 ≤ logical ∨ directory < searchDataHeaderBytes ∨ size < directory ∨
        (size - directory) % searchDataEntryBytes ≠ 0 ∨
        blocks ≠ (size - directory) / searchDataEntryBytes ∨
        blocks ≠ (logical + searchDataBlockBytes - 1) / searchDataBlockBytes ∨
        blocks = 0 ∧ directory ≠ searchDataHeaderBytes then
      .error "invalid compressed search data directory"
    else .ok
      { s with
        compressedData := true
        dataBytes := logical
        dataBlocks := blocks
        dataDirectory := directory }

/-! ## Reading blocks -/

/-- The ranges that the buffers show. -/
structure SearchDataWindow where
  directoryAt : ℕ
  directoryCount : ℕ
  encodedAt : ℕ
  encodedSize : ℕ
  nextBlock : ℕ

/-- The windows of a new query. -/
def newSearchDataWindow : SearchDataWindow := ⟨0, 0, 0, 0, 0⟩

section Blocks

variable (zlib : Zlib) (s : SearchReader)

/-- The entries that locate a block: its own and the next one, if there is one. -/
def entryCount (block : ℕ) : ℕ := if block + 1 < s.dataBlocks then 2 else 1

/-- How many entries are read at once: a scan that continues reads ahead. -/
def directoryReach (block : ℕ) (scratch : SearchScratch) (window : SearchDataWindow) : ℕ :=
  if window.directoryCount ≠ 0 ∧ window.nextBlock = block then
    min (scratch.directory.length / searchDataEntryBytes) (s.dataBlocks - block)
  else entryCount s block

/-- How many compressed bytes are read at once. -/
def encodedReach (continuing : Bool) (offset size : ℕ) (scratch : SearchScratch)
    (window : SearchDataWindow) : ℕ :=
  if window.encodedSize ≠ 0 ∧ continuing then
    min scratch.encoded.length (s.dataDirectory - offset)
  else size

/-- Have the entries of a block in the directory buffer. -/
def fetchDirectory (block : ℕ) (scratch : SearchScratch) (window : SearchDataWindow) :
    Except String Unit × SearchScratch × SearchDataWindow :=
  let count := entryCount s block
  if block < window.directoryAt ∨ window.directoryAt + window.directoryCount < block + count then
    let n := directoryReach s block scratch window
    let (outcome, directory) := readAt s.data scratch.directory
      (s.dataDirectory + block * searchDataEntryBytes) (n * searchDataEntryBytes)
    match outcome with
    | .error err => (.error err, { scratch with directory := directory }, window)
    | .ok () => (.ok (), { scratch with directory := directory },
        { window with directoryAt := block, directoryCount := n })
  else (.ok (), scratch, window)

/-- Have the compressed bytes of a block in their buffer. -/
def fetchEncoded (continuing : Bool) (offset size : ℕ) (scratch : SearchScratch)
    (window : SearchDataWindow) : Except String Unit × SearchScratch × SearchDataWindow :=
  if offset < window.encodedAt ∨ window.encodedAt + window.encodedSize < offset + size then
    let n := encodedReach s continuing offset size scratch window
    let (outcome, encoded) := readAt s.data scratch.encoded offset n
    match outcome with
    | .error err => (.error err, { scratch with encoded := encoded }, window)
    | .ok () => (.ok (), { scratch with encoded := encoded },
        { window with encodedAt := offset, encodedSize := n })
  else (.ok (), scratch, window)

/-- An entry that does not fit the file, or does not meet the entry after it. -/
def badBounds (block offset size reserved next : ℕ) : Prop :=
  offset < searchDataHeaderBytes ∨ s.dataDirectory < offset ∨ size = 0 ∨
    searchDataMaxEncoded < size ∨ s.dataDirectory - offset < size ∨ reserved ≠ 0 ∨
    block = 0 ∧ offset ≠ searchDataHeaderBytes ∨
    block + 1 = s.dataBlocks ∧ offset + size ≠ s.dataDirectory ∨
    block + 1 < s.dataBlocks ∧ offset + size ≠ next

instance (block offset size reserved next : ℕ) :
    Decidable (badBounds s block offset size reserved next) := by
  unfold badBounds
  infer_instance

/-- Inflate the bytes of a block of a known length into the data buffer. -/
def inflateBlock (encoded : List UInt8) (length : ℕ) (scratch : SearchScratch) :
    Except String (List UInt8) × SearchScratch :=
  match zlib.inflate encoded with
  | none => (.error "open compressed search block", scratch)
  | some stream =>
    let scratch := { scratch with data := overwrite scratch.data (stream.content.take length) }
    if stream.content.length < length then (.error "read compressed search block", scratch)
    else if length < stream.content.length ∨ stream.unread ≠ 0 then
      (.error "invalid compressed search block length", scratch)
    else if stream.complete then (.ok (scratch.data.take length), scratch)
    else (.error "read compressed search block checksum", scratch)

/-- Read and inflate a block. -/
def readDataBlock (block : ℕ) (scratch : SearchScratch) (window : SearchDataWindow) :
    Except String (List UInt8) × SearchScratch × SearchDataWindow :=
  if s.dataBlocks ≤ block then
    (.error "invalid compressed search block number", scratch, window)
  else
    let continuing : Bool := window.nextBlock = block
    match fetchDirectory s block scratch window with
    | (.error err, scratch, window) => (.error err, scratch, window)
    | (.ok (), scratch, window) =>
      let entries := portion scratch.directory
        ((block - window.directoryAt) * searchDataEntryBytes)
        (entryCount s block * searchDataEntryBytes)
      let offset := peek 8 entries 0
      let size := peek 4 entries 8
      if badBounds s block offset size (peek 4 entries 12)
          (peek 8 entries searchDataEntryBytes) then
        (.error "invalid compressed search block bounds", scratch, window)
      else
        match fetchEncoded s continuing offset size scratch window with
        | (.error err, scratch, window) => (.error err, scratch, window)
        | (.ok (), scratch, window) =>
          let encoded := portion scratch.encoded (offset - window.encodedAt) size
          let length := min searchDataBlockBytes (s.dataBytes - block * searchDataBlockBytes)
          match inflateBlock zlib encoded length scratch with
          | (.error err, scratch) => (.error err, scratch, window)
          | (.ok data, scratch) => (.ok data, scratch, { window with nextBlock := block + 1 })

end Blocks

/-! ## Reading records -/

/-- The records of one query: its buffers and the range of the stream that the data
buffer shows. -/
structure SearchRecords where
  scratch : SearchScratch
  start : ℕ
  ending : ℕ
  oversized : List UInt8
  window : SearchDataWindow

def newSearchRecords (scratch : SearchScratch) : SearchRecords where
  scratch := scratch
  start := 0
  ending := 0
  oversized := []
  window := newSearchDataWindow

section Records

variable (zlib : Zlib) (s : SearchReader)

/-- Have a block of the stream in the data buffer. -/
def loadBlock (block : ℕ) (r : SearchRecords) : Except String Unit × SearchRecords :=
  match readDataBlock zlib s block r.scratch r.window with
  | (.error err, scratch, window) => (.error err, { r with scratch := scratch, window := window })
  | (.ok data, scratch, window) =>
    (.ok (),
      { r with
        scratch := scratch
        window := window
        start := block * searchDataBlockBytes
        ending := block * searchDataBlockBytes + data.length })

/-- The assembly buffer, grown to the length of a record if it is too small. -/
def largeBuffer (length : ℕ) (r : SearchRecords) : SearchRecords :=
  if r.oversized.length < length then { r with oversized := List.replicate length 0 } else r

/-- Copy bytes into a list from an offset on. -/
def copyAt (data : List UInt8) (offset : ℕ) (bytes : List UInt8) : List UInt8 :=
  data.take offset ++ overwrite (data.drop offset) bytes

/-- Assemble the bytes from `at'` to `ending` of a record that starts at `offset`, block by
block. -/
def assemble (offset ending : ℕ) : ℕ → ℕ → SearchRecords → Except String Unit × SearchRecords
  | 0, _, r => (.ok (), r)
  | rounds + 1, at', r =>
    if ending ≤ at' then (.ok (), r)
    else
      match
        if at' < r.start ∨ r.ending ≤ at' then loadBlock zlib s (at' / searchDataBlockBytes) r
        else (.ok (), r) with
      | (.error err, r) => (.error err, r)
      | (.ok (), r) =>
        let bytes := portion r.scratch.data (at' - r.start) (min r.ending ending - at')
        assemble offset ending rounds (at' + bytes.length)
          { r with oversized := copyAt r.oversized (at' - offset) bytes }

/-- Read a record of the stream. -/
def SearchRecords.read (r : SearchRecords) (offset length : ℕ) :
    Except String (List UInt8) × SearchRecords :=
  if length = 0 ∨ maxSearchRecordBytes < length ∨ s.dataBytes < offset ∨
      s.dataBytes - offset < length then
    (.error "invalid search record length or offset", r)
  else
    let ending := offset + length
    if r.start ≤ offset ∧ ending ≤ r.ending then
      (.ok (portion r.scratch.data (offset - r.start) length), r)
    else if s.compressedData then
      let block := offset / searchDataBlockBytes
      if ending ≤ (block + 1) * searchDataBlockBytes then
        match loadBlock zlib s block r with
        | (.error err, r) => (.error err, r)
        | (.ok (), r) => (.ok (portion r.scratch.data (offset - r.start) length), r)
      else
        match assemble zlib s offset ending length offset (largeBuffer length r) with
        | (.error err, r) => (.error err, r)
        | (.ok (), r) => (.ok (r.oversized.take length), r)
    else if r.scratch.data.length < length then
      let r := largeBuffer length r
      let (outcome, oversized) := readAt s.data r.oversized offset length
      let r := { r with oversized := oversized }
      match outcome with
      | .error err => (.error err, r)
      | .ok () => (.ok (r.oversized.take length), r)
    else
      let n := min r.scratch.data.length (s.dataBytes - offset)
      let (outcome, data) := readAt s.data r.scratch.data offset n
      let r := { r with scratch := { r.scratch with data := data } }
      match outcome with
      | .error err => (.error err, r)
      | .ok () => (.ok (r.scratch.data.take length), { r with start := offset, ending := offset + n })

end Records

/-! ## Reading the stream in order -/

/-- A sequential scan: the next block and what is left of the last one. -/
structure SearchDataStream where
  scratch : SearchScratch
  block : ℕ
  pending : List UInt8
  window : SearchDataWindow

def newSearchDataStream (scratch : SearchScratch) : SearchDataStream where
  scratch := scratch
  block := 0
  pending := []
  window := newSearchDataWindow

/-- Read at most `size` bytes; there are none at the end of the stream. -/
def SearchDataStream.read (zlib : Zlib) (s : SearchReader) (r : SearchDataStream) (size : ℕ) :
    Except String (Option (List UInt8)) × SearchDataStream :=
  if size = 0 then (.ok (some []), r)
  else if r.pending ≠ [] then
    (.ok (some (r.pending.take size)), { r with pending := r.pending.drop size })
  else if r.block = s.dataBlocks then (.ok none, r)
  else
    match readDataBlock zlib s r.block r.scratch r.window with
    | (.error err, scratch, window) =>
      (.error err, { r with scratch := scratch, window := window })
    | (.ok data, scratch, window) =>
      (.ok (some (data.take size)),
        { scratch := scratch
          block := r.block + 1
          pending := data.drop size
          window := window })

end OsmMini.Mobile

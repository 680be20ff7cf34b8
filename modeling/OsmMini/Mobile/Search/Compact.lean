import OsmMini.Foundations.ByteOrder
import OsmMini.Foundations.Ranges
import OsmMini.Foundations.Varint
import OsmMini.Mobile.Search.Basic

/-!
# The compact index

A posting says that a record has a term. The index holds the postings in the order of
their terms and offsets, in blocks of 128. Within a block a term repeats the start of the
term before it, and an offset is relative to the one before it while the term stays the
same. Every block starts afresh, and a directory of fixed-size entries holds the first
term of each.

A search finds its first block in the directory and decodes postings from there. It
keeps a window of the directory and a window of the encoded blocks.
-/

set_option autoImplicit false

namespace OsmMini.Mobile

open OsmMini.Foundations OsmMini.Foundations.LittleEndian OsmMini.Foundations.Varint

/-- A record has a term: the start of the record in the stream and its length. -/
structure SearchPosting where
  term : List UInt8
  offset : ℕ
  length : ℕ
  deriving DecidableEq, Repr

/-! ## Writing -/

structure CompactSearchWriter where
  file : List UInt8
  directory : List UInt8
  block : List UInt8
  first : List UInt8
  previous : List UInt8
  previousOffset : ℕ
  blockCount : ℕ
  blocks : ℕ
  count : ℕ
  offset : ℕ

def newCompactSearchWriter : CompactSearchWriter where
  file := List.replicate searchCompactHeaderBytes 0
  directory := []
  block := []
  first := []
  previous := []
  previousOffset := 0
  blockCount := 0
  blocks := 0
  count := 0
  offset := searchCompactHeaderBytes

/-- The directory entry of a block: its first term, padded with zeros, where it starts,
its bytes and its postings. -/
def compactEntry (first : List UInt8) (offset size count : ℕ) : List UInt8 :=
  first ++ List.replicate (searchKeyBytes - first.length) 0 ++ bytesOf 8 offset ++
    bytesOf 4 size ++ bytesOf 4 count

/-- A posting after another one of its block. -/
def encodePosting (previous : List UInt8) (previousOffset : ℕ) (p : SearchPosting) :
    List UInt8 :=
  let shared := sharedLength previous p.term
  let offset := if p.term = previous then p.offset - previousOffset else p.offset
  UInt8.ofNat shared :: UInt8.ofNat (p.term.length - shared) :: p.term.drop shared ++
    appendUvarint offset ++ appendUvarint p.length

namespace CompactSearchWriter

/-- Write the block and list it. -/
def flushBlock (w : CompactSearchWriter) : CompactSearchWriter :=
  if w.blockCount = 0 then w
  else
    { file := w.file ++ w.block
      directory := w.directory ++
        compactEntry w.first w.offset w.block.length w.blockCount
      block := []
      first := []
      previous := []
      previousOffset := 0
      blockCount := 0
      blocks := (w.blocks + 1) % 2 ^ 64
      count := w.count
      offset := (w.offset + w.block.length) % 2 ^ 64 }

/-- Add a posting. A full block is written before it; only the postings of one block are
compared. -/
def add (w : CompactSearchWriter) (p : SearchPosting) : Except String CompactSearchWriter :=
  if p.term.length = 0 ∨ searchKeyBytes < p.term.length ∨ p.length = 0 ∨
      maxSearchRecordBytes < p.length then
    .error "invalid search posting"
  else
    let w := if w.blockCount = searchBlockPostings then w.flushBlock else w
    let w := if w.blockCount = 0 then { w with first := p.term } else w
    if p.term < w.previous ∨ w.previous = p.term ∧ p.offset < w.previousOffset then
      .error "search postings out of order"
    else .ok
      { w with
        block := w.block ++ encodePosting w.previous w.previousOffset p
        previous := p.term
        previousOffset := p.offset
        blockCount := w.blockCount + 1
        count := (w.count + 1) % 2 ^ 64 }

end CompactSearchWriter

def compactHeader (blocks count directory : ℕ) : List UInt8 :=
  searchCompactMagic ++ bytesOf 4 2 ++ bytesOf 4 searchBlockPostings ++ bytesOf 8 blocks ++
    bytesOf 8 count ++ bytesOf 8 directory ++ bytesOf 4 searchIndexBytes ++ bytesOf 4 0

/-- Flush the last block, append the directory and write the header. -/
def CompactSearchWriter.finish (w : CompactSearchWriter) : List UInt8 :=
  let w := w.flushBlock
  overwrite (w.file ++ w.directory) (compactHeader w.blocks w.count w.offset)

/-- Write an index of postings. -/
def writeCompact (postings : List SearchPosting) : Except String (List UInt8) :=
  match postings.foldlM (fun w p => w.add p) newCompactSearchWriter with
  | .error err => .error err
  | .ok w => .ok w.finish

/-! ## Opening -/

/-- Read the header of an index file. A file without one is a table of entries. -/
def SearchReader.readIndexHeader (s : SearchReader) : Except String SearchReader :=
  let header := portion s.index 0 searchCompactHeaderBytes
  let size := s.index.length
  if header.length < 8 ∨ header.take 8 ≠ searchCompactMagic then
    if size % searchIndexBytes ≠ 0 then .error "invalid search index"
    else .ok { s with count := size / searchIndexBytes }
  else if header.length < searchCompactHeaderBytes ∨ peek 4 header 8 ≠ 2 ∨
      peek 4 header 12 ≠ searchBlockPostings ∨ peek 4 header 40 ≠ searchIndexBytes ∨
      peek 4 header 44 ≠ 0 then
    .error "invalid compact search header"
  else
    let blocks := peek 8 header 16
    let count := peek 8 header 24
    let directory := peek 8 header 32
    if 2 ^ 63 ≤ count ∨ directory < searchCompactHeaderBytes ∨ size < directory ∨
        (size - directory) % searchIndexBytes ≠ 0 ∨
        blocks ≠ (size - directory) / searchIndexBytes ∨
        blocks ≠ (count + searchBlockPostings - 1) / searchBlockPostings then
      .error "invalid compact search directory"
    else .ok
      { s with
        compact := true
        blocks := blocks
        count := count
        directory := directory }

/-! ## The iterator -/

/-- The state of a scan over the postings. `term` and `lastTerm` hold the bytes of their
arrays that are in use; `first` is the first term of a block that is not decoded yet. -/
structure SearchPostingIterator where
  scratch : SearchScratch
  position : ℕ
  batch : List UInt8
  block : ℕ
  remaining : ℕ
  encoded : List UInt8
  term : List UInt8
  offset : ℕ
  first : Option (List UInt8)
  lastTerm : List UInt8
  lastOffset : ℕ
  windowAt : ℕ
  windowSize : ℕ
  encodedAt : ℕ
  encodedSize : ℕ

def newSearchPostingIterator (scratch : SearchScratch) : SearchPostingIterator where
  scratch := scratch
  position := 0
  batch := []
  block := 0
  remaining := 0
  encoded := []
  term := []
  offset := 0
  first := none
  lastTerm := []
  lastOffset := 0
  windowAt := 0
  windowSize := 0
  encodedAt := 0
  encodedSize := 0

/-- A term up to its padding. -/
def searchTerm (b : List UInt8) : List UInt8 := b.takeWhile (· ≠ 0)

section Iterator

variable (s : SearchReader)

/-- An entry of the directory, through a window of 64 entries. -/
def indexEntry (i : SearchPostingIterator) (position : ℕ) :
    Except String (List UInt8) × SearchPostingIterator :=
  let entry (i : SearchPostingIterator) :=
    portion i.scratch.postings ((position - i.windowAt) * searchIndexBytes) searchIndexBytes
  if position < i.windowAt ∨ i.windowAt + i.windowSize ≤ position then
    let count := if s.compact then s.blocks else s.count
    let base := if s.compact then s.directory else 0
    let at' := position / 64 * 64
    let n := min 64 (count - at')
    let (outcome, postings) := readAt s.index i.scratch.postings
      (base + at' * searchIndexBytes) (n * searchIndexBytes)
    let i := { i with scratch := { i.scratch with postings := postings } }
    match outcome with
    | .error err => (.error err, i)
    | .ok () =>
      let i := { i with windowAt := at', windowSize := n }
      (.ok (entry i), i)
  else (.ok (entry i), i)

/-- Whether an entry is not before a key. A search goes on as if it were when it cannot
be read, and keeps the error. -/
def notBefore (key : List UInt8) (position : ℕ)
    (state : SearchPostingIterator × Except String Unit) :
    Bool × SearchPostingIterator × Except String Unit :=
  match indexEntry s state.1 position with
  | (.error err, i) => (true, i, .error err)
  | (.ok entry, i) => (decide (key ≤ searchTerm (entry.take searchKeyBytes)), i, state.2)

/-- The iterator from the first posting on that may have a key. The block before the
first one that starts at the key may hold its first posting. -/
def postingsFrom (key : List UInt8) (scratch : SearchScratch) :
    Except String Unit × SearchPostingIterator :=
  let start := (newSearchPostingIterator scratch, (.ok () : Except String Unit))
  if s.compact then
    let (found, i, outcome) := searchS s.blocks (notBefore s key) start
    (outcome, { i with block := if 0 < found then found - 1 else found })
  else
    let (found, i, outcome) := searchS s.count (notBefore s key) start
    (outcome, { i with position := found })

/-- The next posting of a table of entries. -/
def nextEntry (i : SearchPostingIterator) :
    Except String (Option SearchPosting) × SearchPostingIterator :=
  let take (i : SearchPostingIterator) :=
    (.ok (some
      { term := searchTerm (i.batch.take searchKeyBytes)
        offset := peek 8 i.batch 96
        length := peek 4 i.batch 104 }),
      { i with batch := i.batch.drop searchIndexBytes, position := i.position + 1 })
  if i.batch.length = 0 then
    if i.position = s.count then (.ok none, i)
    else
      let n := min (i.scratch.postings.length / searchIndexBytes) (s.count - i.position)
      let (outcome, postings) := readAt s.index i.scratch.postings
        (i.position * searchIndexBytes) (n * searchIndexBytes)
      let i :=
        { i with
          scratch := { i.scratch with postings := postings }
          batch := postings.take (n * searchIndexBytes) }
      match outcome with
      | .error err => (.error err, i)
      | .ok () => take i
  else take i

/-- An entry that does not fit the file or the number of postings. -/
def badBlock (block offset size count : ℕ) : Prop :=
  offset < searchCompactHeaderBytes ∨ s.directory < offset ∨ s.directory - offset < size ∨
    size = 0 ∨ searchBlockMaxBytes < size ∨ count = 0 ∨ searchBlockPostings < count ∨
    block < s.blocks - 1 ∧ count ≠ searchBlockPostings ∨
    block = s.blocks - 1 ∧ count ≠ s.count - block * searchBlockPostings

instance (block offset size count : ℕ) : Decidable (badBlock s block offset size count) := by
  unfold badBlock
  infer_instance

/-- How many bytes of the encoded blocks are read at once: a scan that continues reads
ahead. -/
def blockReach (i : SearchPostingIterator) (offset size : ℕ) : ℕ :=
  if i.encodedSize ≠ 0 then min i.scratch.block.length (s.directory - offset) else size

/-- Have the bytes of a block in their buffer. -/
def fetchBlock (i : SearchPostingIterator) (offset size : ℕ) :
    Except String Unit × SearchPostingIterator :=
  if offset < i.encodedAt ∨ i.encodedAt + i.encodedSize < offset + size then
    let n := blockReach s i offset size
    let (outcome, block) := readAt s.index i.scratch.block offset n
    let i := { i with scratch := { i.scratch with block := block } }
    match outcome with
    | .error err => (.error err, i)
    | .ok () => (.ok (), { i with encodedAt := offset, encodedSize := n })
  else (.ok (), i)

/-- Start the next block; there is none at the end of the index. -/
def startBlock (i : SearchPostingIterator) : Except String Bool × SearchPostingIterator :=
  if i.encoded.length ≠ 0 then (.error "extra compact search block data", i)
  else if i.block = s.blocks then (.ok false, i)
  else
    match indexEntry s i i.block with
    | (.error err, i) => (.error err, i)
    | (.ok entry, i) =>
      let offset := peek 8 entry 96
      let size := peek 4 entry 104
      let count := peek 4 entry 108
      if badBlock s i.block offset size count then
        (.error "invalid compact search block", i)
      else
        let first := searchTerm (entry.take searchKeyBytes)
        let i := { i with first := some first }
        if first.length = 0 then (.error "empty compact search key", i)
        else
          match fetchBlock s i offset size with
          | (.error err, i) => (.error err, i)
          | (.ok (), i) =>
            (.ok true,
              { i with
                encoded := portion i.scratch.block (offset - i.encodedAt) size
                remaining := count
                term := []
                offset := 0
                block := i.block + 1 })

/-- Decode the next posting of a block. -/
def decodePosting (i : SearchPostingIterator) :
    Except String (Option SearchPosting) × SearchPostingIterator :=
  match i.encoded with
  | shared :: suffix :: encoded =>
    let shared := shared.toNat
    let suffix := suffix.toNat
    let i := { i with encoded := encoded }
    if i.term.length < shared ∨ shared + suffix = 0 ∨ searchKeyBytes < shared + suffix ∨
        encoded.length < suffix then
      (.error "invalid compact search term", i)
    else
      let same : Bool := shared = i.term.length ∧ suffix = 0
      let term := i.term.take shared ++ encoded.take suffix
      let encoded := encoded.drop suffix
      let i := { i with term := term, encoded := encoded }
      if i.lastTerm.length ≠ 0 ∧ term < i.lastTerm then
        (.error "compact search terms out of order", i)
      else if i.first = none ∧ decide (term = i.lastTerm) ≠ same then
        (.error "invalid repeated compact search term", i)
      else
        match uvarint encoded with
        | none => (.error "invalid compact search offset", i)
        | some (delta, n) =>
          let encoded := encoded.drop n
          let i := { i with encoded := encoded }
          match uvarint encoded with
          | none => (.error "invalid compact search length", i)
          | some (length, n) =>
            if length = 0 ∨ maxSearchRecordBytes < length then
              (.error "invalid compact search length", i)
            else
              let encoded := encoded.drop n
              let i := { i with encoded := encoded }
              if same ∧ 2 ^ 64 - 1 - i.offset < delta then
                (.error "compact search offset overflow", i)
              else
                let offset := if same then i.offset + delta else delta
                if i.lastTerm.length ≠ 0 ∧ term = i.lastTerm ∧ offset < i.lastOffset then
                  (.error "compact search offsets out of order", i)
                else
                  let i := { i with offset := offset, lastTerm := term, lastOffset := offset }
                  if i.first ≠ none ∧ i.first ≠ some term then
                    (.error "compact search directory key mismatch", i)
                  else
                    let i := { i with first := none, remaining := i.remaining - 1 }
                    if i.remaining = 0 ∧ i.encoded.length ≠ 0 then
                      (.error "extra compact search block data", i)
                    else (.ok (some ⟨term, offset, length⟩), i)
  | _ => (.error "truncated compact search posting", i)

/-- The next posting; there is none at the end of the index. -/
def SearchPostingIterator.next (i : SearchPostingIterator) :
    Except String (Option SearchPosting) × SearchPostingIterator :=
  if s.compact then
    if i.remaining = 0 then
      match startBlock s i with
      | (.error err, i) => (.error err, i)
      | (.ok false, i) => (.ok none, i)
      | (.ok true, i) => decodePosting i
    else decodePosting i
  else nextEntry s i

end Iterator

end OsmMini.Mobile

import OsmMini.Foundations.LittleEndian
import OsmMini.Foundations.Window

/-!
# The search catalog of a region

A region keeps its search records in two files. The data file is the stream of the
records, cut into blocks of one size that are compressed separately. The index file
holds the postings: which records have which terms. Both files end with a directory of
their blocks, and a search reads them through a few buffers of its own.
-/

set_option autoImplicit false

namespace OsmMini.Mobile

open OsmMini.Foundations

/-! ## Limits of the two formats -/

def searchKeyBytes : ℕ := 96
def searchIndexBytes : ℕ := 112
def maxSearchRecordBytes : ℕ := 2 ^ 20

def searchDataHeaderBytes : ℕ := 48
def searchDataEntryBytes : ℕ := 16
def searchDataBlockBytes : ℕ := 32768
def searchDataMaxEncoded : ℕ := searchDataBlockBytes + searchDataBlockBytes / 16 + 1024

def searchCompactHeaderBytes : ℕ := 48
def searchBlockPostings : ℕ := 128
/-- The largest block of postings: two lengths, a term and two numbers for each. -/
def searchBlockMaxBytes : ℕ := searchBlockPostings * (2 + searchKeyBytes + 10 + 5)

/-- The first bytes of a data file, `OSMSDAT1`. -/
def searchDataMagic : List UInt8 := [79, 83, 77, 83, 68, 65, 84, 49]
/-- The first bytes of an index file, `OSMSIDX2`. -/
def searchCompactMagic : List UInt8 := [79, 83, 77, 83, 73, 68, 88, 50]

/-! ## Opened files and buffers -/

/-- The two files of a catalog, with what their headers say. -/
structure SearchReader where
  data : List UInt8
  index : List UInt8
  count : ℕ
  dataBytes : ℕ
  compact : Bool
  blocks : ℕ
  directory : ℕ
  compressedData : Bool
  dataBlocks : ℕ
  dataDirectory : ℕ

/-- The buffers of one query. They come from a pool and hold what earlier queries left
in them. -/
structure SearchScratch where
  postings : List UInt8
  block : List UInt8
  data : List UInt8
  encoded : List UInt8
  directory : List UInt8

/-- The buffers have their fixed sizes. -/
structure SearchScratch.Sized (scratch : SearchScratch) : Prop where
  postings : scratch.postings.length = 64 * searchIndexBytes
  block : scratch.block.length = searchBlockMaxBytes
  data : scratch.data.length = searchDataBlockBytes
  encoded : scratch.encoded.length = searchDataMaxEncoded
  directory : scratch.directory.length = 64 * searchDataEntryBytes

/-- Read a range of a file into the front of a buffer. When the file is too short what
there is lands in the buffer all the same. -/
def readAt (file buffer : List UInt8) (offset length : ℕ) : Except String Unit × List UInt8 :=
  let got := portion file offset length
  (if got.length < length then .error "EOF" else .ok (), overwrite buffer got)

theorem readAt_ok {file : List UInt8} {offset length : ℕ} (inside : offset + length ≤ file.length)
    (buffer : List UInt8) :
    readAt file buffer offset length = (.ok (), overwrite buffer (portion file offset length)) := by
  rw [readAt, if_neg (portion_length inside).not_lt]

/-! ## Compression -/

/-- What a compressed stream yields: its content, whether that ends with the right
checksum, and how many bytes of the input were not read. -/
structure Inflated where
  content : List UInt8
  complete : Bool
  unread : ℕ

/-- A compressor and its inverse, which has no result when the input does not start as a
compressed stream does. -/
structure Zlib where
  compress : List UInt8 → List UInt8
  inflate : List UInt8 → Option Inflated

/-- What the compression format promises: what was compressed is inflated again with its
input read to the end, and an empty input is not a compressed stream. -/
structure Zlib.Lawful (zlib : Zlib) : Prop where
  inflate_compress : ∀ block, zlib.inflate (zlib.compress block) = some ⟨block, true, 0⟩
  inflate_nil : zlib.inflate [] = none

theorem Zlib.Lawful.compress_ne_nil {zlib : Zlib} (lawful : zlib.Lawful) (block : List UInt8) :
    zlib.compress block ≠ [] := by
  intro empty
  have inverse := lawful.inflate_compress block
  rw [empty, lawful.inflate_nil] at inverse
  cases inverse

end OsmMini.Mobile

import OsmMini.Core.Pbf.Truncation
import OsmMini.Core.Pbf.WrittenBlocks

/-!
# Files that were written

A file is written as blocks one after the other: the length of a header, the header with the type
of the block and the size of its blob, and the blob, which holds the contents as they are or
compressed. A file may hold blocks of other types, whose blobs are not decoded.

Extracting a written file makes the calls of its entities in their order and ends without an error
(`extract_written`).
-/

set_option autoImplicit false

namespace OsmMini.Core.Pbf

open OsmMini.Foundations

/-! ## Headers -/

/-- The bytes under a field number; of several ones the last count. -/
def lastBytes (k : ℕ) (fs : List WireField) : Option (List UInt8) := (segments k fs).getLast?

theorem lastBytes_cons (k : ℕ) (f : WireField) (fs : List WireField) :
    lastBytes k (f :: fs) = (lastBytes k fs).or (f.bytesOf k) := by
  rw [lastBytes, lastBytes, segments_cons]
  cases f.bytesOf k with
  | none => rw [Option.toList_none, List.nil_append, Option.or_none]
  | some b =>
      rw [Option.toList_some, List.singleton_append, List.getLast?_cons]
      cases (segments k fs).getLast? <;> rfl

/-- The fields of a message are those of the header of a blob of a size. -/
structure IsHeader (typ : List UInt8) (size : ℕ) (fs : List WireField) : Prop where
  typed : Typed [3] [1] fs
  named : typ ≠ []
  isTyp : lastBytes 1 fs = some typ
  isSize : lastVarint 3 fs = some (UInt64.ofNat size)
  sizes : ∀ f ∈ fs, ∀ v ∈ f.varintOf 3, v ≤ 0xFFFFFFFF

theorem takeFields_header {fs : List WireField} (typed : Typed [3] [1] fs)
    (sizes : ∀ f ∈ fs, ∀ v ∈ f.varintOf 3, v ≤ 0xFFFFFFFF) (h : BlobHeader) :
    takeFields blobHeaderFields h fs =
      (⟨(lastBytes 1 fs).or h.typ,
        ((lastVarint 3 fs).map fun v => v.toUInt32.toInt32).or h.datasize⟩, none) := by
  induction fs generalizing h with
  | nil => rfl
  | cons f fs ih =>
      have taken : takeValue (blobHeaderFields f.number) h f.value =
          (⟨(f.bytesOf 1).or h.typ,
            ((f.varintOf 3).map fun v => v.toUInt32.toInt32).or h.datasize⟩, none) := by
        have isVarint := typed.varint f List.mem_cons_self
        have isBytes := typed.bytes f List.mem_cons_self
        have small := sizes f List.mem_cons_self
        unfold blobHeaderFields
        split
        · next is =>
            obtain ⟨p, holds⟩ := isBytes (by rw [is]; decide)
            simp [takeValue, WireField.varintOf, WireField.bytesOf, accept, is, holds]
        · next is =>
            obtain ⟨v, holds⟩ := isVarint (by rw [is]; decide)
            have carried : f.varintOf 3 = some v := by simp [WireField.varintOf, holds, is]
            have fits : ¬0xFFFFFFFF < v := UInt64.not_lt.mpr (small v carried)
            rw [carried]
            simp [takeValue, WireField.bytesOf, holds, fits]
        · next no1 no3 =>
            rw [f.bytesOf_ne no1, f.varintOf_ne no3]
            simp [takeValue]
      rw [takeFields, taken]
      dsimp only
      rw [ih typed.tail fun g member => sizes g (List.mem_cons_of_mem f member), lastBytes_cons,
        lastVarint_cons]
      cases lastBytes 1 fs <;> cases lastVarint 3 fs <;> rfl

theorem parseBlobHeader_written {typ : List UInt8} {size : ℕ} {fs : List WireField}
    (isHeader : IsHeader typ size fs) :
    parseBlobHeader (encodeMessage fs) = .ok (typ, (UInt64.ofNat size).toUInt32.toInt32) := by
  have parsed := parseMessage_encodeMessage
    (takeFields_header isHeader.typed isHeader.sizes ⟨none, none⟩)
  rw [isHeader.isTyp, isHeader.isSize] at parsed
  rw [parseBlobHeader, parsed]
  cases typ with
  | nil => exact absurd rfl isHeader.named
  | cons c typ => rfl

/-! ## Blobs -/

/-- Take a field of a blob into its record. -/
def takeBlob (b : Blob) (f : WireField) : Blob where
  raw := (f.bytesOf 1).or b.raw
  rawSize := ((f.varintOf 2).map fun v => v.toUInt32.toInt32).getD b.rawSize
  zlibData := (f.bytesOf 3).or b.zlibData
  lzmaData := (f.bytesOf 4).or b.lzmaData
  bzip2Data := (f.bytesOf 5).or b.bzip2Data

theorem takeValue_blob {fs : List WireField} (typed : Typed [2] [1, 3, 4, 5] fs) {f : WireField}
    (member : f ∈ fs) (b : Blob) :
    takeValue (blobFields f.number) b f.value = (takeBlob b f, none) := by
  obtain ⟨is, v, holds⟩ | ⟨is, p, holds⟩ | ⟨noSize, noBytes⟩ := typed.kinds member
  · have isSize : f.number = 2 := List.mem_singleton.mp is
    simp [blobFields, takeValue, takeBlob, WireField.varintOf, WireField.bytesOf, accept, isSize,
      holds]
  · simp only [List.mem_cons, List.not_mem_nil, or_false] at is
    rcases is with is | is | is | is <;>
      simp [blobFields, takeValue, takeBlob, WireField.varintOf, WireField.bytesOf, accept, is,
        holds]
  · simp only [List.mem_cons, List.not_mem_nil, or_false, not_or] at noSize noBytes
    obtain ⟨noRaw, noZlib, noLzma, noBzip2⟩ := noBytes
    rw [takeBlob, f.bytesOf_ne noRaw, f.varintOf_ne noSize, f.bytesOf_ne noZlib,
      f.bytesOf_ne noLzma, f.bytesOf_ne noBzip2]
    simp [blobFields, takeValue]

theorem takeFields_blob {fs : List WireField} (typed : Typed [2] [1, 3, 4, 5] fs) (b : Blob) :
    takeFields blobFields b fs =
      (⟨(lastBytes 1 fs).or b.raw, lastOf (fun v => v.toUInt32.toInt32) 2 b.rawSize fs,
        (lastBytes 3 fs).or b.zlibData, (lastBytes 4 fs).or b.lzmaData,
        (lastBytes 5 fs).or b.bzip2Data⟩, none) := by
  induction fs generalizing b with
  | nil => rfl
  | cons f fs ih =>
      rw [takeFields, takeValue_blob typed List.mem_cons_self]
      dsimp only
      rw [ih typed.tail]
      simp only [takeBlob, lastBytes_cons, lastOf_cons, Option.or_assoc]

variable (inflate : List UInt8 → Inflated)

/-- The fields of a blob hold some contents: as they are, or compressed, with the size of the
contents or without it. -/
structure IsBlob (contents : List UInt8) (fs : List WireField) : Prop where
  typed : Typed [2] [1, 3, 4, 5] fs
  allowed : contents.length ≤ maxPBFDecodedBytes
  held : lastBytes 1 fs = some contents ∨
    segments 1 fs = [] ∧ (∃ z, lastBytes 3 fs = some z ∧ inflate z = ⟨contents, true⟩) ∧
      (lastVarint 2 fs = none ∨ lastVarint 2 fs = some (UInt64.ofNat contents.length))

theorem decode_written {contents : List UInt8} {fs : List WireField}
    (isBlob : IsBlob inflate contents fs) :
    (decode inflate (encodeMessage fs)).result = .ok contents := by
  have parsed := parseMessage_encodeMessage
    (takeFields_blob isBlob.typed ⟨none, 0, none, none, none⟩)
  have allowed := isBlob.allowed
  rcases isBlob.held with whole | ⟨noRaw, ⟨z, compressed, inflated⟩, size⟩
  · rw [whole] at parsed
    rw [decode, parsed]
    dsimp only [Option.some_or]
    rw [if_neg (not_lt.mpr allowed)]
  · have noBytes : lastBytes 1 fs = none := by rw [lastBytes, noRaw, List.getLast?_nil]
    rw [noBytes, compressed] at parsed
    rw [decode, parsed]
    dsimp only [Option.none_or, Option.some_or]
    have fits : contents.length < 2 ^ 31 := allowed.trans_lt (by decide)
    have isSize : lastOf (fun v => v.toUInt32.toInt32) 2 0 fs = 0 ∨
        (lastOf (fun v => v.toUInt32.toInt32) 2 0 fs).toInt = contents.length := by
      rcases size with none | some
      · exact Or.inl (by rw [lastOf, none]; rfl)
      · refine Or.inr ?_
        rw [lastOf, some]
        exact place_toInt32 fits
    have whole : contents.take (maxPBFDecodedBytes + 1) = contents :=
      List.take_of_length_le (by omega)
    have hint : ¬(maxPBFDecodedBytes : ℤ) <
        (lastOf (fun v => v.toUInt32.toInt32) 2 0 fs).toInt := by
      rcases isSize with zero | same
      · rw [zero]
        decide
      · rw [same]
        omega
    have sized : ¬(0 < lastOf (fun v => v.toUInt32.toInt32) 2 0 fs ∧
        (contents.length : ℤ) ≠ (lastOf (fun v => v.toUInt32.toInt32) 2 0 fs).toInt) := by
      rintro ⟨positive, differ⟩
      rcases isSize with zero | same
      · rw [zero] at positive
        exact absurd positive (by decide)
      · exact differ same.symm
    rw [decodeZlib, if_neg hint]
    dsimp only
    rw [inflated, whole, if_neg (by simp), if_neg (not_lt.mpr allowed), if_neg sized]

/-! ## Blocks of a file -/

/-- The length of a header as four bytes, the most significant first. -/
def lengthWord (n : ℕ) : List UInt8 :=
  [UInt8.ofNat (n / 2 ^ 24), UInt8.ofNat (n / 2 ^ 16), UInt8.ofNat (n / 2 ^ 8), UInt8.ofNat n]

theorem bigEndian_lengthWord {n : ℕ} (fits : n < 2 ^ 32) : bigEndian (lengthWord n) = n := by
  simp only [bigEndian, lengthWord, List.foldl_cons, List.foldl_nil, UInt8.toNat_ofNat']
  omega

/-- The bytes of a block of a type with a blob. -/
structure IsStored (typ blob bytes : List UInt8) : Prop where
  blob_pos : 0 < blob.length
  blob_le : blob.length ≤ maxPBFEncodedBytes
  header : ∃ fs, IsHeader typ blob.length fs ∧ 0 < (encodeMessage fs).length ∧
    (encodeMessage fs).length ≤ 64 * 1024 ∧
    bytes = lengthWord (encodeMessage fs).length ++ encodeMessage fs ++ blob

/-- A stored block is a whole block of the stream. -/
theorem IsStored.frame {typ blob bytes : List UInt8} (stored : IsStored typ blob bytes) :
    ∃ f : Frame, f.typ = typ ∧ f.blob = blob ∧ f.bytes = bytes := by
  obtain ⟨blobPos, blobLe, fs, isHeader, headerPos, headerLe, isBytes⟩ := stored
  have size : (UInt64.ofNat blob.length).toUInt32.toInt32.toInt = blob.length :=
    place_toInt32 (blobLe.trans_lt (by decide))
  exact ⟨⟨lengthWord (encodeMessage fs).length, encodeMessage fs, typ,
    (UInt64.ofNat blob.length).toUInt32.toInt32, blob, rfl, bigEndian_lengthWord (by omega),
    headerPos, headerLe, parseBlobHeader_written isHeader, size, blobPos, blobLe⟩,
    rfl, rfl, isBytes.symm⟩

/-- A file holds blocks of data one after the other, between headers and blocks of other types. -/
inductive IsFile : List Block → List UInt8 → Prop
  | none : IsFile [] []
  | data {b : Block} {fs blob : List WireField} {bytes : List UInt8} {bs : List Block}
      {rest : List UInt8} (isBlock : IsBlock b fs)
      (isBlob : IsBlob inflate (encodeMessage fs) blob)
      (stored : IsStored (utf8 "OSMData") (encodeMessage blob) bytes) (later : IsFile bs rest) :
      IsFile (b :: bs) (bytes ++ rest)
  | header {contents : List UInt8} {blob : List WireField} {bytes : List UInt8} {bs : List Block}
      {rest : List UInt8} (isBlob : IsBlob inflate contents blob)
      (stored : IsStored (utf8 "OSMHeader") (encodeMessage blob) bytes) (later : IsFile bs rest) :
      IsFile bs (bytes ++ rest)
  | other {typ blob bytes : List UInt8} {bs : List Block} {rest : List UInt8}
      (notHeader : typ ≠ utf8 "OSMHeader") (notData : typ ≠ utf8 "OSMData")
      (stored : IsStored typ blob bytes) (later : IsFile bs rest) : IsFile bs (bytes ++ rest)

section Extraction

variable (opts : Options) (cb : Callbacks)

/-- The run of a block whose blob is decoded. -/
theorem run_decoded {f : Frame} {contents : List UInt8} {fs : List WireField}
    (decoded : f.typ = utf8 "OSMHeader" ∨ f.typ = utf8 "OSMData")
    (isBlob : f.blob = encodeMessage fs) (written : IsBlob inflate contents fs) :
    f.run inflate opts cb = processBlock f.typ contents opts cb := by
  have known : ¬(f.typ ≠ utf8 "OSMHeader" ∧ f.typ ≠ utf8 "OSMData") := by
    rintro ⟨notHeader, notData⟩
    exact decoded.elim notHeader notData
  rw [Frame.run, blockContents, if_neg known, isBlob]
  dsimp only
  rw [decode_written inflate written]
  rfl

/-- A block that runs without an error comes before the rest of the file. -/
theorem extract_after {f : Frame} {calls later : List Call} {rest : List UInt8}
    (run : f.run inflate opts cb = (calls, none))
    (ends : (extract inflate opts cb rest).calls = later ∧
      (extract inflate opts cb rest).err = none) :
    (extract inflate opts cb (f.bytes ++ rest)).calls = calls ++ later ∧
      (extract inflate opts cb (f.bytes ++ rest)).err = none := by
  obtain ⟨failed, -⟩ | ⟨-, err, made⟩ := extract_frame inflate opts cb f rest
  · exact absurd (congrArg Prod.snd run) failed
  · exact ⟨by rw [made, run, ends.1], err.trans ends.2⟩

/-- **A written file is extracted as it was written.** The extraction ends without an error, and
its calls are those of the entities of all blocks in their order. -/
theorem extract_written {bs : List Block} {file : List UInt8} (isFile : IsFile inflate bs file) :
    (extract inflate opts cb file).calls =
        bs.flatMap (fun b => b.entities.flatMap (Entity.calls b.ctx opts cb)) ∧
      (extract inflate opts cb file).err = none := by
  have notData : utf8 "OSMHeader" ≠ utf8 "OSMData" := by decide +kernel
  induction isFile with
  | none =>
      rw [extract_nil]
      exact ⟨rfl, rfl⟩
  | data isBlock isBlob stored later ih =>
      obtain ⟨f, isTyp, held, rfl⟩ := stored.frame
      have run := run_decoded inflate opts cb (Or.inr isTyp) held isBlob
      rw [isTyp, processBlock, if_pos rfl, processOSMData_written isBlock] at run
      exact extract_after inflate opts cb run ih
  | header isBlob stored later ih =>
      obtain ⟨f, isTyp, held, rfl⟩ := stored.frame
      have run := run_decoded inflate opts cb (Or.inl isTyp) held isBlob
      rw [isTyp, processBlock, if_neg notData] at run
      exact extract_after inflate opts cb run ih
  | other notHeader notData stored later ih =>
      obtain ⟨f, rfl, held, rfl⟩ := stored.frame
      have run : f.run inflate opts cb = ([], none) := by
        rw [Frame.run, blockContents, if_pos ⟨notHeader, notData⟩]
        dsimp only
        rw [processBlock, if_neg notData]
      exact extract_after inflate opts cb run ih

end Extraction

/-! ### A file with two dense nodes -/

/-- Nothing is compressed here. -/
def uncompressed (_ : List UInt8) : Inflated := ⟨[], false⟩

def crossing : PlacedNode := ⟨5, 1, 2, [⟨1, 2, by decide, by decide, by decide⟩]⟩

def corner : PlacedNode := ⟨6, 1, 4, []⟩

def twoNodes : Block where
  strings := [[], [107], [118]]
  granularity := 100
  granularityFits := by decide
  latOffset := 0
  lonOffset := 0
  entities := [.node crossing, .node corner]

/-- The identifiers are split over two fields. -/
def twoNodesDense : List WireField :=
  [⟨1, .bytes ⟨[10], by decide⟩, by decide⟩, ⟨8, .bytes ⟨[2, 0], by decide⟩, by decide⟩,
    ⟨10, .bytes ⟨[1, 2, 0, 0], by decide⟩, by decide⟩, ⟨9, .bytes ⟨[4, 4], by decide⟩, by decide⟩,
    ⟨1, .bytes ⟨[2], by decide⟩, by decide⟩]

def twoNodesGroup : List WireField :=
  [⟨2, .bytes ⟨encodeMessage twoNodesDense, by decide⟩, by decide⟩]

def twoNodesTable : List WireField :=
  [⟨1, .bytes ⟨[], by decide⟩, by decide⟩, ⟨1, .bytes ⟨[107], by decide⟩, by decide⟩,
    ⟨1, .bytes ⟨[118], by decide⟩, by decide⟩]

def twoNodesFields : List WireField :=
  [⟨2, .bytes ⟨encodeMessage twoNodesGroup, by decide⟩, by decide⟩,
    ⟨1, .bytes ⟨encodeMessage twoNodesTable, by decide⟩, by decide⟩]

def twoNodesBlob : List WireField :=
  [⟨1, .bytes ⟨encodeMessage twoNodesFields, by decide⟩, by decide⟩]

def twoNodesHeader : List WireField :=
  [⟨1, .bytes ⟨utf8 "OSMData", by decide +kernel⟩, by decide⟩,
    ⟨3, .varint (UInt64.ofNat (encodeMessage twoNodesBlob).length), by decide⟩]

def twoNodesFile : List UInt8 :=
  lengthWord (encodeMessage twoNodesHeader).length ++ encodeMessage twoNodesHeader ++
    encodeMessage twoNodesBlob

theorem isDense_twoNodes : IsDense [crossing, corner] twoNodesDense where
  typed := ⟨by simp, by simp [twoNodesDense]⟩
  ids := ⟨[[10], [2]], by decide, by decide⟩
  lats := ⟨[[2, 0]], by decide, by decide⟩
  lons := ⟨[[4, 4]], by decide, by decide⟩
  kvs := Or.inl ⟨[[1, 2, 0, 0]], by decide, by decide⟩

theorem isBlock_twoNodes : IsBlock twoNodes twoNodesFields where
  typed := ⟨by simp [twoNodesFields], by simp [twoNodesFields]⟩
  strings := ⟨twoNodesTable, ⟨by simp, by simp [twoNodesTable]⟩, by decide, by decide⟩
  granularity := by decide
  latOffset := by decide
  lonOffset := by decide
  groups := ⟨[twoNodesGroup], [twoNodes.entities],
    List.Forall₂.cons (IsGroup.dense isDense_twoNodes rfl IsGroup.none) List.Forall₂.nil,
    by decide, rfl⟩

theorem sizes_twoNodes : ∀ f ∈ twoNodesHeader, ∀ v ∈ f.varintOf 3, v ≤ 0xFFFFFFFF := by
  have small : UInt64.ofNat (encodeMessage twoNodesBlob).length ≤ 0xFFFFFFFF := by decide
  intro f member v found
  rcases List.mem_cons.mp member with rfl | later
  · cases found
  · obtain rfl := List.mem_singleton.mp later
    obtain rfl := Option.some.inj found
    exact small

theorem isFile_twoNodes : IsFile uncompressed [twoNodes] twoNodesFile := by
  have isBlob : IsBlob uncompressed (encodeMessage twoNodesFields) twoNodesBlob :=
    ⟨⟨by simp [twoNodesBlob], by simp [twoNodesBlob]⟩, by decide, Or.inl rfl⟩
  have isHeader : IsHeader (utf8 "OSMData") (encodeMessage twoNodesBlob).length twoNodesHeader :=
    ⟨⟨by simp [twoNodesHeader], by simp [twoNodesHeader]⟩, by decide +kernel, rfl, rfl,
      sizes_twoNodes⟩
  have stored : IsStored (utf8 "OSMData") (encodeMessage twoNodesBlob) twoNodesFile :=
    ⟨by decide, by decide, twoNodesHeader, isHeader, by decide +kernel, by decide +kernel, rfl⟩
  have file := IsFile.data isBlock_twoNodes isBlob stored IsFile.none
  rwa [List.append_nil] at file

theorem extract_written_twoNodes :
    (extract uncompressed noOptions nodeOnly twoNodesFile).calls =
        [.node 5 (decodeCoord 1 2 twoNodes.ctx).1 (decodeCoord 1 2 twoNodes.ctx).2,
          .node 6 (decodeCoord 1 4 twoNodes.ctx).1 (decodeCoord 1 4 twoNodes.ctx).2] ∧
      (extract uncompressed noOptions nodeOnly twoNodesFile).err = none :=
  extract_written uncompressed noOptions nodeOnly isFile_twoNodes

end OsmMini.Core.Pbf

import OsmMini.Core.Pbf.DataBlock

/-!
# The blocks of a stream

A stream is a sequence of blocks. Each starts with the length of its header as four bytes,
the most significant first; the header names the type of the block and the size of the
blob behind it. Only the blobs of headers and of data are decoded. The extraction reads
block after block and ends without an error where a stream ends in front of a block.

The decompressor is a parameter: what it puts out for a blob, and whether it reaches the
end of the compressed data without an error.
-/

set_option autoImplicit false

namespace OsmMini.Core.Pbf

def maxPBFDecodedBytes : ℕ := 33554432

/-- Room for overhead beyond the decoded limit. -/
def maxPBFEncodedBytes : ℕ := 67108864

/-! ## Headers -/

structure BlobHeader where
  typ : Option (List UInt8)
  datasize : Option Int32

def blobHeaderFields : ℕ → Option (FieldReader BlobHeader)
  | 1 => some (.bytes "BlobHeader.type" (accept fun b f => { f with typ := some b }))
  | 3 => some (.varint "BlobHeader.datasize" fun v f =>
      if 0xFFFFFFFF < v then (f, some (.format s!"BlobHeader.datasize too large: {v.toNat}"))
      else ({ f with datasize := some v.toUInt32.toInt32 }, none))
  | _ => none

def parseBlobHeader (b : List UInt8) : Except PbfError (List UInt8 × Int32) :=
  match parseMessage blobHeaderFields ⟨none, none⟩ b with
  | .error e => .error e
  | .ok f =>
    match f.typ, f.datasize with
    | none, _ => .error (.format "BlobHeader missing type")
    | some [], _ => .error (.format "BlobHeader missing type")
    | some (_ :: _), none => .error (.format "BlobHeader missing datasize")
    | some (c :: typ), some datasize => .ok (c :: typ, datasize)

/-! ## Blobs -/

structure Blob where
  raw : Option (List UInt8)
  rawSize : Int32
  zlibData : Option (List UInt8)
  lzmaData : Option (List UInt8)
  bzip2Data : Option (List UInt8)

def blobFields : ℕ → Option (FieldReader Blob)
  | 1 => some (.bytes "Blob.raw" (accept fun b f => { f with raw := some b }))
  | 2 => some (.varint "Blob.raw_size"
      (accept fun v f => { f with rawSize := v.toUInt32.toInt32 }))
  | 3 => some (.bytes "Blob.zlib_data" (accept fun b f => { f with zlibData := some b }))
  | 4 => some (.bytes "Blob.lzma_data" (accept fun b f => { f with lzmaData := some b }))
  | 5 => some (.bytes "Blob.OBSOLETE_bzip2_data"
      (accept fun b f => { f with bzip2Data := some b }))
  | _ => none

/-- What a decompressor puts out, and whether it reaches the end without an error. -/
structure Inflated where
  out : List UInt8
  complete : Bool

/-- The bytes of a blob, and what was decoded into memory to get them. -/
structure Decoded where
  result : Except PbfError (List UInt8)
  buffer : List UInt8

section Stream

variable (inflate : List UInt8 → Inflated)

/-- Decompress up to one byte more than is allowed. -/
def decodeZlib (zlibData : List UInt8) (rawSize : Int32) : Decoded :=
  if (maxPBFDecodedBytes : ℤ) < rawSize.toInt then
    ⟨.error (.format
      s!"zlib blob size mismatch: size hint exceeds limit of {maxPBFDecodedBytes} bytes"), []⟩
  else
    let inflated := inflate zlibData
    let out := inflated.out.take (maxPBFDecodedBytes + 1)
    if out.length ≤ maxPBFDecodedBytes ∧ inflated.complete = false then ⟨.error .zlib, out⟩
    else if maxPBFDecodedBytes < out.length then
      ⟨.error (.format s!"PBF blob exceeds decoded size limit of {maxPBFDecodedBytes} bytes"), out⟩
    else if 0 < rawSize ∧ (out.length : ℤ) ≠ rawSize.toInt then
      ⟨.error (.format s!"zlib blob size mismatch: got={out.length} want={rawSize.toInt}"), out⟩
    else ⟨.ok out, out⟩

def decode (b : List UInt8) : Decoded :=
  match parseMessage blobFields ⟨none, 0, none, none, none⟩ b with
  | .error e => ⟨.error e, []⟩
  | .ok f =>
    match f.raw, f.zlibData, f.lzmaData, f.bzip2Data with
    | some raw, _, _, _ =>
      if maxPBFDecodedBytes < raw.length then
        ⟨.error (.format s!"PBF blob exceeds decoded size limit of {maxPBFDecodedBytes} bytes"), []⟩
      else ⟨.ok raw, raw⟩
    | none, some zlibData, _, _ => decodeZlib inflate zlibData f.rawSize
    | none, none, some _, _ =>
      ⟨.error (.format "unsupported blob compression: lzma_data present"), []⟩
    | none, none, none, some _ =>
      ⟨.error (.format "unsupported blob compression: OBSOLETE_bzip2_data present"), []⟩
    | none, none, none, none =>
      ⟨.error (.format "unsupported blob: neither raw nor zlib_data present"), []⟩

/-! ## Reading -/

/-- Read `n` bytes: a stream without any has ended, and one with too few has ended early. -/
def readFull (n : ℕ) (r : List UInt8) : Except PbfError (List UInt8) × List UInt8 :=
  if n ≤ r.length then (.ok (r.take n), r.drop n)
  else (.error (if r.isEmpty then .eof else .unexpectedEOF), [])

/-- A number of four bytes, the most significant first. -/
def bigEndian (b : List UInt8) : ℕ := b.foldl (fun n c => 256 * n + c.toNat) 0

/-- The bytes of a blob, what was buffered of it, and the rest of the stream. -/
def readBlob (size : Int32) (r : List UInt8) :
    Except PbfError (List UInt8) × List UInt8 × List UInt8 :=
  if size.toInt ≤ 0 ∨ (maxPBFEncodedBytes : ℤ) < size.toInt then
    (.error (.format s!"invalid serialized PBF blob size: {size.toInt} (limit {maxPBFEncodedBytes})"),
      [], r)
  else
    let encoded := r.take size.toInt.toNat
    if encoded.length ≠ size.toInt.toNat then (.error .unexpectedEOF, encoded, [])
    else (.ok encoded, encoded, r.drop size.toInt.toNat)

/-- A block that was read: its type and contents, what was buffered for it and what was
decoded, and the rest of the stream. -/
structure BlockRead where
  result : Except PbfError (List UInt8 × List UInt8)
  encoded : List UInt8
  decoded : List UInt8
  rest : List UInt8

/-- The contents of a blob that was read. -/
def blockContents (typ encoded rest : List UInt8) : BlockRead :=
  -- Extensions may use a compression that is not supported.
  if typ ≠ utf8 "OSMHeader" ∧ typ ≠ utf8 "OSMData" then ⟨.ok (typ, []), encoded, [], rest⟩
  else
    let decoded := decode inflate encoded
    ⟨decoded.result.map fun raw => (typ, raw), encoded, decoded.buffer, rest⟩

def readNextBlock (r : List UInt8) : BlockRead :=
  match readFull 4 r with
  | (.error e, r) => ⟨.error (if e.isEOF then .eof else e), [], [], r⟩
  | (.ok lenBuf, r) =>
    let hdrLen := bigEndian lenBuf
    if hdrLen = 0 ∨ 64 * 1024 < hdrLen then
      ⟨.error (.format s!"invalid BlobHeader size: {hdrLen}"), [], [], r⟩
    else
      match readFull hdrLen r with
      | (.error e, r) => ⟨.error (if e = .eof then .unexpectedEOF else e), [], [], r⟩
      | (.ok hdrBytes, r) =>
        match parseBlobHeader hdrBytes with
        | .error e => ⟨.error e, [], [], r⟩
        | .ok (typ, dataSize) =>
          if dataSize < 0 then ⟨.error (.format s!"negative datasize: {dataSize.toInt}"), [], [], r⟩
          else if dataSize = 0 then ⟨.error (.format "zero datasize"), [], [], r⟩
          else
            match readBlob dataSize r with
            | (.error e, encoded, r) => ⟨.error e, encoded, [], r⟩
            | (.ok _, encoded, r) => blockContents inflate typ encoded r

/-! ## Blocks as frames -/

theorem readFull_append (b rest : List UInt8) :
    readFull b.length (b ++ rest) = (.ok b, rest) := by
  rw [readFull, if_pos (by simp), List.take_left, List.drop_left]

theorem readFull_ok {n : ℕ} {r b rest : List UInt8} (read : readFull n r = (.ok b, rest)) :
    r = b ++ rest ∧ b.length = n := by
  unfold readFull at read
  by_cases enough : n ≤ r.length
  · rw [if_pos enough] at read
    obtain ⟨taken, rfl⟩ := Prod.mk.inj read
    obtain rfl := Except.ok.inj taken
    exact ⟨(List.take_append_drop n r).symm, List.length_take_of_le enough⟩
  · rw [if_neg enough] at read
    cases read

theorem readBlob_ok {size : Int32} {r b encoded rest : List UInt8}
    (read : readBlob size r = (.ok b, encoded, rest)) :
    encoded = b ∧ r = b ++ rest ∧ size.toInt = b.length ∧ 0 < b.length ∧
      b.length ≤ maxPBFEncodedBytes := by
  unfold readBlob at read
  by_cases outOfRange : size.toInt ≤ 0 ∨ (maxPBFEncodedBytes : ℤ) < size.toInt
  · rw [if_pos outOfRange] at read
    cases read
  · rw [if_neg outOfRange] at read
    dsimp only at read
    by_cases short : (r.take size.toInt.toNat).length ≠ size.toInt.toNat
    · rw [if_pos short] at read
      cases read
    · rw [if_neg short] at read
      obtain ⟨taken, pair⟩ := Prod.mk.inj read
      obtain ⟨buffered, rfl⟩ := Prod.mk.inj pair
      have whole := not_not.mp short
      rw [Except.ok.inj taken] at whole buffered
      refine ⟨buffered.symm, ?_, by omega, by omega, by omega⟩
      rw [← Except.ok.inj taken]
      exact (List.take_append_drop _ r).symm

/-- A whole block as its bytes stand in a stream. -/
structure Frame where
  word : List UInt8
  header : List UInt8
  typ : List UInt8
  datasize : Int32
  blob : List UInt8
  word_length : word.length = 4
  header_length : bigEndian word = header.length
  header_pos : 0 < header.length
  header_le : header.length ≤ 64 * 1024
  parsed : parseBlobHeader header = .ok (typ, datasize)
  blob_length : datasize.toInt = blob.length
  blob_pos : 0 < blob.length
  blob_le : blob.length ≤ maxPBFEncodedBytes

def Frame.bytes (f : Frame) : List UInt8 := f.word ++ f.header ++ f.blob

theorem Frame.bytes_length (f : Frame) : 0 < f.bytes.length := by
  have four := f.word_length
  simp only [bytes, List.length_append]
  omega

/-- Reading a stream that starts with a whole block reads that block. -/
theorem readNextBlock_frame (f : Frame) (rest : List UInt8) :
    readNextBlock inflate (f.bytes ++ rest) = blockContents inflate f.typ f.blob rest := by
  have first := readFull_append f.word (f.header ++ (f.blob ++ rest))
  have second := readFull_append f.header (f.blob ++ rest)
  have headerPos := f.header_pos
  have headerLe := f.header_le
  have size := f.blob_length
  have blobPos := f.blob_pos
  have blobLe := f.blob_le
  have notNegative : ¬f.datasize < 0 := by
    rw [Int32.lt_iff_toInt_lt, size, Int32.toInt_zero]
    omega
  have notZero : f.datasize ≠ 0 := by
    intro zero
    rw [zero, Int32.toInt_zero] at size
    omega
  have blobRead : readBlob f.datasize (f.blob ++ rest) = (.ok f.blob, f.blob, rest) := by
    have inRange : ¬(f.datasize.toInt ≤ 0 ∨ (maxPBFEncodedBytes : ℤ) < f.datasize.toInt) := by
      omega
    rw [readBlob, if_neg inRange, size, Int.toNat_natCast, List.take_left, List.drop_left]
    exact if_neg (by simp)
  rw [f.word_length] at first
  rw [Frame.bytes, List.append_assoc, List.append_assoc, readNextBlock, first]
  dsimp only
  rw [f.header_length, if_neg (by omega), second]
  dsimp only
  rw [f.parsed]
  dsimp only
  rw [if_neg notNegative, if_neg notZero, blobRead]

/-- A block that is read is a whole block at the front of the stream. -/
theorem readNextBlock_ok {r typ raw : List UInt8}
    (read : (readNextBlock inflate r).result = .ok (typ, raw)) :
    ∃ (f : Frame) (rest : List UInt8), r = f.bytes ++ rest := by
  unfold readNextBlock at read
  split at read
  · cases read
  next word r1 gotWord =>
  obtain ⟨rfl, four⟩ := readFull_ok gotWord
  dsimp only at read
  split_ifs at read with badLength
  split at read
  · cases read
  next header r2 gotHeader =>
  obtain ⟨rfl, headerLength⟩ := readFull_ok gotHeader
  split at read
  · cases read
  next typ' datasize parsed =>
  split_ifs at read with negative zero
  split at read
  · cases read
  next blob encoded r3 gotBlob =>
  obtain ⟨-, rfl, size, pos, le⟩ := readBlob_ok gotBlob
  refine ⟨⟨word, header, typ', datasize, blob, four, headerLength.symm, by omega, by omega, parsed,
    size, pos, le⟩, r3, ?_⟩
  simp only [Frame.bytes, List.append_assoc]

theorem blockContents_rest (typ encoded rest : List UInt8) :
    (blockContents inflate typ encoded rest).rest = rest := by
  unfold blockContents
  split_ifs
  · rfl
  · rfl

/-- A block that is read takes bytes from the stream. -/
theorem readNextBlock_length {r typ raw : List UInt8}
    (read : (readNextBlock inflate r).result = .ok (typ, raw)) :
    (readNextBlock inflate r).rest.length < r.length := by
  obtain ⟨f, rest, rfl⟩ := readNextBlock_ok inflate read
  have some_bytes := f.bytes_length
  rw [readNextBlock_frame, blockContents_rest, List.length_append]
  omega

/-! ## The extraction -/

/-- The calls for a block: only blocks of data have any. -/
def processBlock (typ raw : List UInt8) (opts : Options) (cb : Callbacks) : Calls :=
  if typ = utf8 "OSMData" then processOSMData raw opts cb else ([], none)

/-- A run: the calls it makes, the error it returns, and the blocks it reads. -/
structure Extraction where
  calls : List Call
  err : Option PbfError
  reads : List BlockRead

def extract (opts : Options) (cb : Callbacks) (r : List UInt8) : Extraction :=
  let read := readNextBlock inflate r
  match _read : read.result with
  | .error e => ⟨[], if e.isEOF then none else some e, [read]⟩
  | .ok (typ, raw) =>
    match processBlock typ raw opts cb with
    | (calls, some e) => ⟨calls, some e, [read]⟩
    | (calls, none) =>
      let later := extract opts cb read.rest
      ⟨calls ++ later.calls, later.err, read :: later.reads⟩
termination_by r.length
decreasing_by exact readNextBlock_length inflate _read

end Stream

end OsmMini.Core.Pbf

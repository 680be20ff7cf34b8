import OsmMini.Mobile.Search.DataRead
import OsmMini.Foundations.Machine

/-!
# Compressed search data is read back faithfully

Reads of records come in any order. Each finds the windows showing the file and the data
buffer showing the stream (`SearchRecords.Good`), keeps this, and returns the bytes of
the stream; a scan delivers the stream from its start on (`searchData_faithful`).
-/

set_option autoImplicit false

namespace OsmMini.Mobile

open OsmMini.Foundations OsmMini.Foundations.LittleEndian

/-! ## Records -/

/-- The buffers of the query show the file and the stream. -/
structure SearchRecords.Good (stream : List UInt8) (s : SearchReader) (r : SearchRecords) :
    Prop where
  served : Served s r.scratch r.window
  ordered : r.start ≤ r.ending
  shown : Shows r.scratch.data stream r.start (r.ending - r.start)

section Records

variable {zlib : Zlib} {stream : List UInt8} {s : SearchReader}

theorem good_new (opens : Opens zlib stream s) {scratch : SearchScratch} (sized : scratch.Sized) :
    (newSearchRecords scratch).Good stream s :=
  ⟨served_new opens sized, le_refl _, shows_nothing _ _⟩

/-- What the data buffer shows is read from it. -/
theorem SearchRecords.Good.read {r : SearchRecords} (good : r.Good stream s) {offset length : ℕ}
    (low : r.start ≤ offset) (high : offset + length ≤ r.ending) :
    portion r.scratch.data (offset - r.start) length = portion stream offset length :=
  good.shown.portion low (by have ordered := good.ordered; omega)

/-- **A block is loaded into the data buffer.** -/
theorem loadBlock_spec (opens : Opens zlib stream s) {r : SearchRecords} (good : r.Good stream s)
    {block : ℕ} (inside : block < s.dataBlocks) :
    ∃ r', loadBlock zlib s block r = (.ok (), r') ∧ r'.Good stream s ∧
      r'.oversized = r.oversized ∧ r'.start = block * searchDataBlockBytes ∧
      r'.ending = min ((block + 1) * searchDataBlockBytes) stream.length := by
  obtain ⟨scratch, window, run, served, shown⟩ := readDataBlock_spec opens good.served inside
  have start := block_start (opens.dataBlocks ▸ inside)
  have length : (portion stream (block * searchDataBlockBytes) searchDataBlockBytes).length =
      min searchDataBlockBytes (stream.length - block * searchDataBlockBytes) := by
    rw [portion, List.length_take, List.length_drop]
  rw [loadBlock, run]
  refine ⟨_, rfl, ⟨served, Nat.le_add_right .., ?_⟩, rfl, rfl, ?_⟩
  · dsimp only
    rwa [Nat.add_sub_cancel_left]
  · dsimp only
    rw [length, Nat.succ_mul]
    omega

theorem copyAt_length {data bytes : List UInt8} {offset : ℕ}
    (fits : offset + bytes.length ≤ data.length) :
    (copyAt data offset bytes).length = data.length := by
  rw [copyAt, List.length_append, List.length_take, overwrite_length]
  · rw [List.length_drop]
    omega
  · rw [List.length_drop]
    omega

/-- Copying extends the front of a list by the bytes. -/
theorem copyAt_take {data bytes : List UInt8} {offset : ℕ} (inside : offset ≤ data.length) :
    (copyAt data offset bytes).take (offset + bytes.length) = data.take offset ++ bytes := by
  have front : (data.take offset).length = offset := by
    rw [List.length_take, min_eq_left inside]
  rw [copyAt, overwrite, ← List.append_assoc, List.take_left']
  rw [List.length_append, front]

/-- **A record is assembled block by block**, over whatever the assembly buffer holds. -/
theorem assemble_spec (opens : Opens zlib stream s) {offset ending : ℕ}
    (inside : ending ≤ stream.length) : ∀ {rounds at' : ℕ} {r : SearchRecords}, r.Good stream s →
    offset ≤ at' → at' ≤ ending → ending - at' ≤ rounds → ending - offset ≤ r.oversized.length →
    r.oversized.take (at' - offset) = portion stream offset (at' - offset) →
    ∃ r', assemble zlib s offset ending rounds at' r = (.ok (), r') ∧ r'.Good stream s ∧
      r'.oversized.take (ending - offset) = portion stream offset (ending - offset) := by
  intro rounds
  induction rounds with
  | zero =>
      intro at' r good low high few room front
      obtain rfl : at' = ending := by omega
      exact ⟨r, rfl, good, front⟩
  | succ rounds ih =>
      intro at' r good low high few room front
      rw [assemble]
      by_cases done : ending ≤ at'
      · obtain rfl : at' = ending := by omega
        rw [if_pos done]
        exact ⟨r, rfl, good, front⟩
      rw [if_neg done]
      have loaded : ∃ r', (if at' < r.start ∨ r.ending ≤ at' then
          loadBlock zlib s (at' / searchDataBlockBytes) r else (.ok (), r)) = (.ok (), r') ∧
          r'.Good stream s ∧ r'.oversized = r.oversized ∧ r'.start ≤ at' ∧ at' < r'.ending := by
        split_ifs with missing
        · have positive : 0 < searchDataBlockBytes := by decide
          have block := @block_inside zlib stream at' (by omega)
          obtain ⟨r', run, good', same, start, stop⟩ :=
            loadBlock_spec opens good (opens.dataBlocks.symm ▸ block)
          refine ⟨r', run, good', same, ?_, ?_⟩
          · rw [start]
            exact Nat.div_mul_le_self ..
          · rw [stop, lt_min_iff]
            exact ⟨Nat.lt_mul_of_div_lt (Nat.lt_succ_self _) positive, by omega⟩
        · exact ⟨r, rfl, good, rfl, by omega, by omega⟩
      obtain ⟨r', run, good', same, start, stop⟩ := loaded
      have bytes := good'.read start
        (show at' + (min r'.ending ending - at') ≤ r'.ending by omega)
      have size : (portion stream at' (min r'.ending ending - at')).length =
          min r'.ending ending - at' := portion_length (by omega)
      rw [run]
      dsimp only
      rw [bytes, size]
      refine ih (r := { r' with oversized := _ }) ⟨good'.served, good'.ordered, good'.shown⟩
        (by omega) (by omega) (by omega) ?_ ?_
      · rw [copyAt_length]
        · exact same ▸ room
        · rw [size, same]
          omega
      · have copied := @copyAt_take r'.oversized
          (portion stream at' (min r'.ending ending - at')) (at' - offset) (by rw [same]; omega)
        rw [size, same, front] at copied
        have meets : portion stream at' (min r'.ending ending - at') =
            portion stream (offset + (at' - offset)) (min r'.ending ending - at') := by
          rw [Nat.add_sub_cancel' low]
        have length : at' + (min r'.ending ending - at') - offset =
            at' - offset + (min r'.ending ending - at') := by omega
        rw [length, same, copied, meets, portion_append_portion]

/-- The range check of a read. -/
def InRange (stream : List UInt8) (offset length : ℕ) : Prop :=
  0 < length ∧ length ≤ maxSearchRecordBytes ∧ offset + length ≤ stream.length

instance (stream : List UInt8) (offset length : ℕ) : Decidable (InRange stream offset length) :=
  inferInstanceAs (Decidable (_ ∧ _ ∧ _))

theorem largeBuffer_length (length : ℕ) (r : SearchRecords) :
    length ≤ (largeBuffer length r).oversized.length := by
  unfold largeBuffer
  split_ifs with small
  · exact (List.length_replicate ..).ge
  · exact not_lt.mp small

theorem SearchRecords.Good.largeBuffer {r : SearchRecords} (good : r.Good stream s) (length : ℕ) :
    (largeBuffer length r).Good stream s := by
  unfold Mobile.largeBuffer
  split_ifs
  · exact ⟨good.served, good.ordered, good.shown⟩
  · exact good

/-- **A read in range returns the bytes of the stream**, whatever the buffers show, and
leaves buffers that show the file and the stream. -/
theorem SearchRecords.read_spec (opens : Opens zlib stream s) {r : SearchRecords}
    (good : r.Good stream s) {offset length : ℕ} (range : InRange stream offset length) :
    ∃ r', r.read zlib s offset length = (.ok (portion stream offset length), r') ∧
      r'.Good stream s := by
  obtain ⟨some, short, inside⟩ := range
  have accepted : ¬(length = 0 ∨ maxSearchRecordBytes < length ∨ s.dataBytes < offset ∨
      s.dataBytes - offset < length) := by
    rw [opens.dataBytes]
    omega
  rw [SearchRecords.read, if_neg accepted]
  dsimp only
  by_cases cached : r.start ≤ offset ∧ offset + length ≤ r.ending
  · rw [if_pos cached, good.read cached.1 cached.2]
    exact ⟨r, rfl, good⟩
  rw [if_neg cached, if_pos opens.compressed]
  by_cases single : offset + length ≤ (offset / searchDataBlockBytes + 1) * searchDataBlockBytes
  · have block := @block_inside zlib stream offset (by omega)
    obtain ⟨r', run, good', -, start, stop⟩ :=
      loadBlock_spec opens good (opens.dataBlocks.symm ▸ block)
    have low : r'.start ≤ offset := by
      rw [start]
      exact Nat.div_mul_le_self ..
    have high : offset + length ≤ r'.ending := by
      rw [stop]
      exact le_min single inside
    rw [if_pos single, run]
    dsimp only
    rw [good'.read low high]
    exact ⟨r', rfl, good'⟩
  · have room := largeBuffer_length length r
    obtain ⟨r', run, good', assembled⟩ := @assemble_spec _ _ _ opens _ _ inside length _ _
      (good.largeBuffer length) (le_refl offset) (Nat.le_add_right ..) (by omega) (by omega) (by
        rw [Nat.sub_self]
        rfl)
    rw [Nat.add_sub_cancel_left] at assembled
    rw [if_neg single, run]
    dsimp only
    rw [assembled]
    exact ⟨r', rfl, good'⟩

/-- A read out of range is refused and changes nothing. -/
theorem SearchRecords.read_refused (opens : Opens zlib stream s) (r : SearchRecords)
    {offset length : ℕ} (outside : ¬InRange stream offset length) :
    r.read zlib s offset length = (.error "invalid search record length or offset", r) := by
  rw [SearchRecords.read, if_pos]
  rw [opens.dataBytes]
  unfold InRange at outside
  omega

/-- The buffers of a query after a sequence of reads. -/
def readRecords (zlib : Zlib) (s : SearchReader) (r : SearchRecords) (calls : List (ℕ × ℕ)) :
    SearchRecords :=
  Machine.run (fun r call => (r.read zlib s call.1 call.2).swap) r calls

/-- The buffers show the file and the stream after every sequence of reads. -/
theorem good_run (opens : Opens zlib stream s) {r : SearchRecords} (good : r.Good stream s)
    (calls : List (ℕ × ℕ)) : (readRecords zlib s r calls).Good stream s := by
  refine Machine.run_always (fun r call good => ?_) calls r good
  by_cases range : InRange stream call.1 call.2
  · obtain ⟨r', run, good'⟩ := SearchRecords.read_spec opens good range
    rw [run]
    exact good'
  · rw [SearchRecords.read_refused opens r range]
    exact good

end Records

/-! ## The stream in order -/

/-- A scan that has delivered a number of bytes holds the rest of its block. -/
structure SearchDataStream.Good (stream : List UInt8) (s : SearchReader) (delivered : ℕ)
    (r : SearchDataStream) : Prop where
  served : Served s r.scratch r.window
  block : r.block ≤ s.dataBlocks
  behind : delivered ≤ min (r.block * searchDataBlockBytes) stream.length
  pending : r.pending =
    portion stream delivered (min (r.block * searchDataBlockBytes) stream.length - delivered)

section Stream

variable {zlib : Zlib} {stream : List UInt8} {s : SearchReader}

theorem stream_new (opens : Opens zlib stream s) {scratch : SearchScratch}
    (sized : scratch.Sized) : (newSearchDataStream scratch).Good stream s 0 :=
  ⟨served_new opens sized, Nat.zero_le _, Nat.zero_le _, by
    rw [newSearchDataStream, Nat.zero_mul, Nat.zero_min]
    rfl⟩

/-- The bytes that are delivered come off the front of what is pending. -/
theorem portion_take_drop {delivered length : ℕ} (inside : delivered + length ≤ stream.length)
    (size : ℕ) :
    (portion stream delivered length).take size = portion stream delivered (min size length) ∧
    (portion stream delivered length).drop size =
      portion stream (delivered + min size length) (length - min size length) := by
  constructor
  · rw [portion, List.take_take]
    rfl
  · rcases le_total size length with short | long
    · rw [min_eq_left short, portion, List.drop_take, List.drop_drop]
      rfl
    · rw [min_eq_right long, Nat.sub_self, List.drop_eq_nil_of_le]
      · rfl
      · rw [portion_length inside]
        exact long

/-- **A read delivers the next bytes of the stream**, and some if it asks for any, until
the stream has ended. -/
theorem SearchDataStream.read_spec (opens : Opens zlib stream s) {r : SearchDataStream}
    {delivered : ℕ} (good : r.Good stream s delivered) (size : ℕ) :
    (∃ n r', r.read zlib s size = (.ok (some (portion stream delivered n)), r') ∧ n ≤ size ∧
      (0 < size → 0 < n) ∧ r'.Good stream s (delivered + n)) ∨
    (r.read zlib s size = (.ok none, r) ∧ 0 < size ∧ delivered = stream.length) := by
  rw [SearchDataStream.read]
  by_cases asked : size = 0
  · rw [if_pos asked]
    exact .inl ⟨0, r, rfl, Nat.zero_le _, fun h => absurd asked h.ne', good⟩
  rw [if_neg asked]
  have behind := good.behind
  have length : r.pending.length =
      min (r.block * searchDataBlockBytes) stream.length - delivered := by
    rw [good.pending, portion_length (by omega)]
  by_cases empty : r.pending = []
  · have caught : delivered = min (r.block * searchDataBlockBytes) stream.length := by
      rw [empty, List.length_nil] at length
      omega
    rw [if_neg (not_not.mpr empty)]
    by_cases last : r.block = s.dataBlocks
    · rw [if_pos last]
      refine .inr ⟨rfl, Nat.pos_of_ne_zero asked, ?_⟩
      have all : stream.length ≤ s.dataBlocks * searchDataBlockBytes := by
        rw [opens.dataBlocks, encodedBlocks_length]
        have positive : 0 < searchDataBlockBytes := by decide
        have whole := Nat.lt_div_mul_add (a := stream.length + searchDataBlockBytes - 1) positive
        omega
      rw [caught, last]
      exact min_eq_right all
    · have inside : r.block < s.dataBlocks := lt_of_le_of_ne good.block last
      have start := block_start (opens.dataBlocks ▸ inside)
      have here : delivered = r.block * searchDataBlockBytes := by omega
      obtain ⟨scratch, window, run, served, -⟩ := readDataBlock_spec opens good.served inside
      rw [if_neg last, run, ← here]
      dsimp only
      set n := min searchDataBlockBytes (stream.length - delivered) with cut
      have block : portion stream delivered searchDataBlockBytes = portion stream delivered n := by
        rw [portion, portion, cut, ← List.length_drop, ← List.take_take, List.take_length]
      have positive : 0 < searchDataBlockBytes := by decide
      obtain ⟨front, back⟩ := @portion_take_drop stream delivered n (by omega) size
      rw [block, front, back]
      refine .inl ⟨min size n, _, rfl, min_le_left .., fun _ => by omega, served, inside, ?_, ?_⟩
      · rw [Nat.succ_mul]
        omega
      · dsimp only
        rw [Nat.succ_mul]
        congr 1
        omega
  · rw [if_pos empty]
    have some := List.length_pos_iff.mpr empty
    obtain ⟨front, back⟩ := @portion_take_drop stream delivered
      (min (r.block * searchDataBlockBytes) stream.length - delivered) (by omega) size
    rw [good.pending, front, back]
    refine .inl ⟨_, _, rfl, min_le_left .., fun _ => by omega, good.served, good.block, ?_, ?_⟩
    · dsimp only
      omega
    · dsimp only
      congr 1
      omega

/-- The bytes that a sequence of reads delivers, up to an error or the end of the stream. -/
def streamed (zlib : Zlib) (s : SearchReader) :
    SearchDataStream → List ℕ → Except String (List UInt8)
  | _, [] => .ok []
  | r, size :: sizes =>
    match r.read zlib s size with
    | (.error err, _) => .error err
    | (.ok none, _) => .ok []
    | (.ok (some bytes), r) =>
      match streamed zlib s r sizes with
      | .error err => .error err
      | .ok later => .ok (bytes ++ later)

/-- **Reads in order deliver the stream from its start on.** Enough reads that ask for
something deliver all of it. -/
theorem streamed_spec (opens : Opens zlib stream s) : ∀ (sizes : List ℕ) {r : SearchDataStream}
    {delivered : ℕ}, r.Good stream s delivered →
    ∃ n, streamed zlib s r sizes = .ok (portion stream delivered n) ∧
      delivered + n ≤ stream.length ∧
      ((∀ size ∈ sizes, 0 < size) → stream.length ≤ delivered + sizes.length →
        delivered + n = stream.length)
  | [], r, delivered, good => by
      have behind := good.behind
      refine ⟨0, rfl, by omega, fun _ enough => ?_⟩
      rw [List.length_nil] at enough
      omega
  | size :: sizes, r, delivered, good => by
      rw [streamed]
      rcases SearchDataStream.read_spec opens good size with
        ⟨n, r', run, -, some, good'⟩ | ⟨run, -, done⟩
      · obtain ⟨m, later, inside, all⟩ := streamed_spec opens sizes good'
        rw [run]
        dsimp only
        rw [later]
        refine ⟨n + m, congrArg Except.ok (portion_append_portion ..), by omega,
          fun positive enough => ?_⟩
        have more := some (positive size (List.mem_cons_self ..))
        have rest := all (fun size later => positive size (List.mem_cons_of_mem _ later))
          (by rw [List.length_cons] at enough; omega)
        omega
      · rw [run]
        exact ⟨0, rfl, by omega, fun _ _ => done⟩

end Stream

/-! ## The data file is faithful -/

/-- **Compressed search data is read back faithfully.** A stream is written, in whatever
pieces it comes, unless some block of it does not compress below the limit. The file is
opened again. After any reads, in range or not, and whatever the buffers held at first, a
read in range returns the bytes of the stream; and reads in order deliver the stream. -/
theorem searchData_faithful (zlib : Zlib) (lawful : zlib.Lawful) (pieces : List (List UInt8)) :
    ((∃ file, writeSearchData zlib pieces = .ok file) ↔
      ∀ block ∈ blocksOf searchDataBlockBytes pieces.flatten, ¬TooLong zlib block) ∧
    ∀ file, writeSearchData zlib pieces = .ok file → file.length < 2 ^ 63 →
      ∀ s : SearchReader, s.data = file →
        ((∃ s', s.readDataHeader = .ok s') ↔ pieces.flatten.length < 2 ^ 63) ∧
        ∀ s', s.readDataHeader = .ok s' → ∀ scratch : SearchScratch, scratch.Sized →
          (∀ calls offset length, InRange pieces.flatten offset length →
            ((readRecords zlib s' (newSearchRecords scratch) calls).read zlib s' offset length).1 =
              .ok (portion pieces.flatten offset length)) ∧
          ∀ sizes, ∃ n, streamed zlib s' (newSearchDataStream scratch) sizes =
              .ok (pieces.flatten.take n) ∧
            ((∀ size ∈ sizes, 0 < size) → pieces.flatten.length ≤ sizes.length →
              n = pieces.flatten.length) := by
  have written := @writeSearchData_eq zlib pieces
  refine ⟨⟨fun ⟨file, run⟩ => ?_, fun fits => ?_⟩, fun file run small s data => ?_⟩
  · by_contra long
    rw [if_neg long, run] at written
    cases written
  · rw [if_pos fits] at written
    exact ⟨_, written⟩
  · have fits : ∀ block ∈ blocksOf searchDataBlockBytes pieces.flatten, ¬TooLong zlib block := by
      by_contra long
      rw [if_neg long, run] at written
      cases written
    rw [if_pos fits, run] at written
    obtain rfl := Except.ok.inj written
    have opened := readDataHeader_spec lawful fits data (data ▸ small)
    by_cases short : pieces.flatten.length < 2 ^ 63
    · rw [if_pos short] at opened
      obtain ⟨s', opened, opens, -⟩ := opened
      refine ⟨⟨fun _ => short, fun _ => ⟨s', opened⟩⟩, fun s'' again scratch sized => ?_⟩
      obtain rfl := Except.ok.inj (opened.symm.trans again)
      refine ⟨fun calls offset length range => ?_, fun sizes => ?_⟩
      · obtain ⟨r, read, -⟩ :=
          SearchRecords.read_spec opens (good_run opens (good_new opens sized) calls) range
        rw [read]
      · obtain ⟨n, delivered, -, all⟩ := streamed_spec opens sizes (stream_new opens sized)
        refine ⟨n, delivered, fun positive enough => ?_⟩
        rw [← Nat.zero_add n]
        exact all positive (by omega)
    · rw [if_neg short] at opened
      refine ⟨⟨fun ⟨s', again⟩ => ?_, fun h => absurd h short⟩, fun s' again => ?_⟩
      · cases opened.symm.trans again
      · cases opened.symm.trans again

/-- A short text, `hello, world` and a line feed, and what it is compressed to. -/
def helloWorld : List UInt8 := [104, 101, 108, 108, 111, 44, 32, 119, 111, 114, 108, 100, 10]
def helloWorldEncoded : List UInt8 :=
  [120, 156, 202, 72, 205, 201, 201, 215, 81, 40, 207, 47, 202, 73, 225, 2, 4, 0, 0, 255, 255,
    33, 231, 4, 147]

/-- A compressor that knows one text and stores every other block as it is. -/
def storingZlib : Zlib where
  compress block := if block = helloWorld then helloWorldEncoded else 120 :: 1 :: block
  inflate input :=
    if input = helloWorldEncoded then some ⟨helloWorld, true, 0⟩
    else
      match input with
      | 120 :: 1 :: block => some ⟨block, true, 0⟩
      | _ => none

theorem storingZlib_lawful : storingZlib.Lawful := by
  refine ⟨fun block => ?_, by decide⟩
  unfold storingZlib
  dsimp only
  by_cases known : block = helloWorld
  · rw [if_pos known, if_pos rfl, known]
  · have other : ¬120 :: 1 :: block = helloWorldEncoded := fun same => by
      have second := congrArg (fun bytes => bytes[1]?) same
      simp [helloWorldEncoded] at second
    rw [if_neg known, if_neg other]
    rfl

/-- The text is written in two pieces; four bytes of it are read after two other reads. -/
theorem searchData_faithful_helloWorld :
    ∃ file, writeSearchData storingZlib [helloWorld.take 5, helloWorld.drop 5] = .ok file ∧
      ∃ s', (SearchReader.mk file [] 0 0 false 0 0 false 0 0).readDataHeader = .ok s' ∧
        ((readRecords storingZlib s'
          (newSearchRecords ⟨List.replicate (64 * searchIndexBytes) 7,
            List.replicate searchBlockMaxBytes 7, List.replicate searchDataBlockBytes 7,
            List.replicate searchDataMaxEncoded 7,
            List.replicate (64 * searchDataEntryBytes) 7⟩) [(7, 6), (0, 13)]).read
          storingZlib s' 3 4).1 = .ok [108, 111, 44, 32] := by
  obtain ⟨writes, reads⟩ := searchData_faithful storingZlib storingZlib_lawful
    [helloWorld.take 5, helloWorld.drop 5]
  obtain ⟨file, written⟩ := writes.mpr (by decide +kernel)
  have named := @writeSearchData_eq storingZlib [helloWorld.take 5, helloWorld.drop 5]
  rw [if_pos (by decide +kernel), written] at named
  have small : file.length < 2 ^ 63 := by
    rw [Except.ok.inj named]
    decide +kernel
  obtain ⟨opening, faithful⟩ := reads file written small
    (SearchReader.mk file [] 0 0 false 0 0 false 0 0) rfl
  obtain ⟨s', opened⟩ := opening.mpr (by decide +kernel)
  refine ⟨file, written, s', opened, ?_⟩
  rw [(faithful s' opened _ ⟨List.length_replicate .., List.length_replicate ..,
    List.length_replicate .., List.length_replicate .., List.length_replicate ..⟩).1 _ 3 4
    (by decide +kernel)]
  decide +kernel

end OsmMini.Mobile

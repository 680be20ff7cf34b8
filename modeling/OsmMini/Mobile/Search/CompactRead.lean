import OsmMini.Mobile.Search.CompactWritten

/-!
# Reading the compact index

A reader that was opened on the index of postings (`Indexes`) finds the entries of the
directory and the bytes of the blocks where the writer laid them. The iterator stands
between two blocks or within one (`Standing`); in both places the next call decodes the
next posting (`next_spec`).
-/

set_option autoImplicit false

namespace OsmMini.Mobile

open OsmMini.Foundations OsmMini.Foundations.LittleEndian OsmMini.Foundations.Varint

/-- Postings that an index can hold: accepted, in order, with terms that padding does not
change. -/
structure Indexable (postings : List SearchPosting) : Prop where
  accepted : ∀ p ∈ postings, p.Accepted
  offset : ∀ p ∈ postings, p.offset < 2 ^ 64
  unpadded : ∀ p ∈ postings, 0 ∉ p.term
  sorted : postings.Pairwise SearchPosting.le

/-- The encoded blocks of an index. -/
def encodedPostings (postings : List SearchPosting) : List (List UInt8) :=
  (postingBlocks postings).map encodeBlock

/-- The reader was opened on the index of the postings. -/
structure Indexes (postings : List SearchPosting) (s : SearchReader) : Prop where
  indexable : Indexable postings
  index : s.index = indexFile postings
  small : s.index.length < 2 ^ 63
  compact : s.compact = true
  blocks : s.blocks = (postingBlocks postings).length
  count : s.count = postings.length
  directory : s.directory = searchCompactHeaderBytes + (encodedPostings postings).flatten.length

/-! ## Decoding a posting -/

section Decoding

variable {p : SearchPosting}

/-- A posting is decoded in its place: at the start of a block, where the directory has
its term, or after a posting of the same block. -/
structure Decodes (i : SearchPostingIterator) (p : SearchPosting) : Prop where
  ordered : i.lastTerm = [] ∨ i.lastTerm < p.term ∨
    i.lastTerm = p.term ∧ i.lastOffset ≤ p.offset
  place : i.first = some p.term ∧ i.term = [] ∨
    i.first = none ∧ i.lastTerm = i.term ∧ i.lastOffset = i.offset ∧ i.term ≠ []

/-- **A posting that was encoded is decoded.** -/
theorem decodePosting_spec (accepted : p.Accepted) (offset : p.offset < 2 ^ 64)
    {i : SearchPostingIterator} (decodes : Decodes i p) {tail : List SearchPosting}
    (remaining : i.remaining = tail.length + 1)
    (encoded : i.encoded = encodePosting i.term i.offset p ++
      encodePostings p.term p.offset tail) :
    decodePosting i = (.ok (some p),
      { i with
        encoded := encodePostings p.term p.offset tail
        term := p.term
        offset := p.offset
        first := none
        lastTerm := p.term
        lastOffset := p.offset
        remaining := tail.length }) := by
  obtain ⟨termPos, termLe, lengthPos, lengthLe⟩ := accepted
  obtain ⟨left, right⟩ := sharedLength_le i.term p.term
  set shared := sharedLength i.term p.term with sharing
  have keyBytes : searchKeyBytes = 96 := rfl
  have recordBytes : maxSearchRecordBytes = 2 ^ 20 := rfl
  have sharedByte : (UInt8.ofNat shared).toNat = shared := by
    rw [UInt8.toNat_ofNat']
    omega
  have suffixByte : (UInt8.ofNat (p.term.length - shared)).toNat = p.term.length - shared := by
    rw [UInt8.toNat_ofNat']
    omega
  have suffix : (p.term.drop shared).length = p.term.length - shared := List.length_drop
  have joined : i.term.take shared ++ p.term.drop shared = p.term :=
    take_append_drop_shared i.term p.term
  have same : (shared = i.term.length ∧ p.term.length - shared = 0) ↔ i.term = p.term :=
    sharedLength_eq_iff
  set delta := if p.term = i.term then p.offset - i.offset else p.offset with difference
  have bytes : i.encoded = UInt8.ofNat shared :: UInt8.ofNat (p.term.length - shared) ::
      (p.term.drop shared ++ (appendUvarint delta ++ (appendUvarint p.length ++
        encodePostings p.term p.offset tail))) := by
    rw [encoded, encodePosting]
    simp only [List.cons_append, List.append_assoc]
    rfl
  have notBefore : ¬(i.lastTerm.length ≠ 0 ∧ p.term < i.lastTerm) := by
    rintro ⟨some, less⟩
    rcases decodes.ordered with none | before | ⟨here, -⟩
    · exact some (List.length_eq_zero_iff.mpr none)
    · exact absurd less before.not_gt
    · exact absurd here less.ne'
  have repeated : ¬(i.first = none ∧ decide (p.term = i.lastTerm) ≠
      decide (shared = i.term.length ∧ p.term.length - shared = 0)) := by
    rintro ⟨none, differ⟩
    rcases decodes.place with ⟨first, -⟩ | ⟨-, last, -⟩
    · rw [none] at first
      cases first
    · refine differ (decide_eq_decide.mpr ?_)
      rw [same, last, eq_comm]
  have within : i.term = p.term → i.offset ≤ p.offset := by
    intro here
    rcases decodes.place with ⟨-, empty⟩ | ⟨-, last, lastOffset, nonempty⟩
    · rw [← here, empty] at termPos
      exact absurd termPos (lt_irrefl _)
    · rcases decodes.ordered with none | before | ⟨-, offsets⟩
      · exact absurd (last.symm.trans none) nonempty
      · rw [last, here] at before
        exact absurd before (lt_irrefl _)
      · rwa [lastOffset] at offsets
  have delta64 : delta < 2 ^ 64 := by
    rw [difference]
    split_ifs <;> omega
  have length64 : p.length < 2 ^ 64 := by omega
  have valid : ¬(i.term.length < shared ∨ shared + (p.term.length - shared) = 0 ∨
      searchKeyBytes < shared + (p.term.length - shared) ∨
      (p.term.drop shared ++ (appendUvarint delta ++ (appendUvarint p.length ++
        encodePostings p.term p.offset tail))).length < p.term.length - shared) := by
    rw [List.length_append, suffix]
    omega
  have accepts : ¬(p.length = 0 ∨ maxSearchRecordBytes < p.length) := by omega
  have fits : ¬(decide (shared = i.term.length ∧ p.term.length - shared = 0) = true ∧
      2 ^ 64 - 1 - i.offset < delta) := by
    rintro ⟨repeats, past⟩
    have here := same.mp (of_decide_eq_true repeats)
    rw [difference, if_pos here.symm] at past
    omega
  have restored : (if decide (shared = i.term.length ∧ p.term.length - shared = 0) = true then
      i.offset + delta else delta) = p.offset := by
    by_cases here : i.term = p.term
    · have low := within here
      rw [if_pos (decide_eq_true (same.mpr here)), difference, if_pos here.symm]
      omega
    · rw [if_neg fun repeats => here (same.mp (of_decide_eq_true repeats)), difference,
        if_neg fun there => here there.symm]
  have offsets : ¬(i.lastTerm.length ≠ 0 ∧ p.term = i.lastTerm ∧ p.offset < i.lastOffset) := by
    rintro ⟨some, here, less⟩
    rcases decodes.ordered with none | before | ⟨-, le⟩
    · exact some (List.length_eq_zero_iff.mpr none)
    · exact absurd here before.ne'
    · omega
  have key : ¬(i.first ≠ none ∧ i.first ≠ some p.term) := by
    rintro ⟨some, other⟩
    rcases decodes.place with ⟨first, -⟩ | ⟨none, -⟩
    · exact other first
    · exact some none
  have extra : ¬(tail.length = 0 ∧ (encodePostings p.term p.offset tail).length ≠ 0) := by
    rintro ⟨none, some⟩
    rw [List.length_eq_zero_iff.mp none] at some
    exact some rfl
  simp only [decodePosting, bytes, sharedByte, suffixByte]
  rw [if_neg valid]
  simp only [List.take_left' suffix, List.drop_left' suffix, joined]
  rw [if_neg notBefore, if_neg repeated]
  simp only [uvarint_appendUvarint delta64, uvarint_appendUvarint length64, List.drop_left]
  rw [if_neg accepts, if_neg fits]
  simp only [restored]
  rw [if_neg offsets, if_neg key]
  simp only [remaining, Nat.add_sub_cancel]
  rw [if_neg extra]

end Decoding

/-! ## Blocks and entries -/

section Blocks

/-- The bytes of a block: some for each posting, and no more than the buffer holds. -/
theorem encodePostings_length {block : List SearchPosting} (accepted : ∀ p ∈ block, p.Accepted)
    (previous : List UInt8) (previousOffset : ℕ) :
    block.length ≤ (encodePostings previous previousOffset block).length ∧
      (encodePostings previous previousOffset block).length ≤ block.length * 113 := by
  induction block generalizing previous previousOffset with
  | nil => exact ⟨le_refl _, Nat.zero_le _⟩
  | cons p block ih =>
      obtain ⟨low, high⟩ := ih (fun q member => accepted q (List.mem_cons_of_mem _ member))
        p.term p.offset
      obtain ⟨-, termLe, -, lengthLe⟩ := accepted p (List.mem_cons_self ..)
      have keyBytes : searchKeyBytes = 96 := rfl
      have offsets := appendUvarint_length
        (if p.term = previous then p.offset - previousOffset else p.offset)
      have lengths := appendUvarint_length p.length
      have few : (appendUvarint p.length).length ≤ 5 :=
        groups_length_le (lengthLe.trans_lt (by decide))
      have one : (encodePosting previous previousOffset p).length =
          2 + (p.term.length - sharedLength previous p.term) +
            (appendUvarint
              (if p.term = previous then p.offset - previousOffset else p.offset)).length +
            (appendUvarint p.length).length := by
        simp only [encodePosting, List.length_cons, List.length_append, List.length_drop]
        omega
      rw [encodePostings, List.length_append, List.length_cons]
      omega

theorem compactEntry_length {first : List UInt8} (short : first.length ≤ searchKeyBytes)
    (offset size count : ℕ) :
    (compactEntry first offset size count).length = searchIndexBytes := by
  have keyBytes : searchKeyBytes = 96 := rfl
  have indexBytes : searchIndexBytes = 112 := rfl
  simp only [compactEntry, List.length_append, List.length_replicate, length_bytesOf]
  omega

/-- The first term of an entry is read up to its padding. -/
theorem searchTerm_compactEntry {first : List UInt8} (short : first.length ≤ searchKeyBytes)
    (unpadded : 0 ∉ first) (offset size count : ℕ) :
    searchTerm ((compactEntry first offset size count).take searchKeyBytes) = first := by
  have key : (first ++ List.replicate (searchKeyBytes - first.length) 0).length =
      searchKeyBytes := by
    rw [List.length_append, List.length_replicate]
    omega
  have front : (compactEntry first offset size count).take searchKeyBytes =
      first ++ List.replicate (searchKeyBytes - first.length) 0 := by
    rw [compactEntry, List.append_assoc, List.append_assoc]
    exact List.take_left' key
  have whole : first.takeWhile (· ≠ 0) = first := by
    refine List.takeWhile_eq_self_iff.mpr fun b member => decide_eq_true ?_
    rintro rfl
    exact unpadded member
  rw [front, searchTerm, List.takeWhile_append, if_pos (by rw [whole]), List.takeWhile_replicate]
  simp

/-- The numbers of an entry are read back. -/
theorem compactEntry_fields {first : List UInt8} {offset size count : ℕ}
    (short : first.length ≤ searchKeyBytes) (offset64 : offset < 2 ^ 64) (size32 : size < 2 ^ 32)
    (count32 : count < 2 ^ 32) :
    peek 8 (compactEntry first offset size count) 96 = offset ∧
    peek 4 (compactEntry first offset size count) 104 = size ∧
    peek 4 (compactEntry first offset size count) 108 = count := by
  have key : (first ++ List.replicate (searchKeyBytes - first.length) 0).length = 96 := by
    have keyBytes : searchKeyBytes = 96 := rfl
    rw [List.length_append, List.length_replicate]
    omega
  have assoc : compactEntry first offset size count =
      (first ++ List.replicate (searchKeyBytes - first.length) 0) ++ (bytesOf 8 offset ++
        (bytesOf 4 size ++ (bytesOf 4 count ++ []))) := by
    simp only [compactEntry, List.append_assoc, List.append_nil]
  rw [assoc]
  refine ⟨peek_field _ _ offset64 key, ?_, ?_⟩
  · rw [← List.append_assoc]
    exact peek_field _ _ size32 (by rw [List.length_append, key, length_bytesOf])
  · rw [← List.append_assoc, ← List.append_assoc]
    exact peek_field _ _ count32 (by
      rw [List.length_append, List.length_append, key, length_bytesOf, length_bytesOf])

theorem compactEntries_getElem {blocks : List (List SearchPosting)} {i : ℕ}
    {block : List SearchPosting} (base : ℕ) (found : blocks[i]? = some block) :
    (compactEntries base blocks)[i]? =
      some (compactEntry (firstTerm block)
        ((base + startOf (blocks.map encodeBlock) i) % 2 ^ 64) (encodeBlock block).length
        block.length) := by
  induction blocks generalizing base i with
  | nil => simp at found
  | cons first blocks ih =>
      cases i with
      | zero =>
          obtain rfl : first = block := by simpa using found
          rfl
      | succ i =>
          rw [compactEntries, List.getElem?_cons_succ, ih _ (by simpa using found), List.map_cons,
            startOf_cons, Nat.add_assoc]

end Blocks

/-! ## The index file -/

section Index

variable {postings : List SearchPosting} {s : SearchReader}

/-- A block of an index: its postings, from the first one on. -/
structure Block (postings : List SearchPosting) (k : ℕ) (block : List SearchPosting) : Prop where
  found : (postingBlocks postings)[k]? = some block
  cut : block = portion postings (k * searchBlockPostings) searchBlockPostings
  length : block.length = min searchBlockPostings (postings.length - k * searchBlockPostings)
  start : k * searchBlockPostings < postings.length

theorem exists_block {k : ℕ} (inside : k < (postingBlocks postings).length) :
    ∃ block, Block postings k block := by
  have positive : 0 < searchBlockPostings := by decide
  refine ⟨_, blocksOf_getElem inside, rfl, ?_, blocksOf_start positive inside⟩
  rw [portion, List.length_take, List.length_drop]

namespace Block

variable {k : ℕ} {block : List SearchPosting} (here : Block postings k block)

include here

theorem subset {p : SearchPosting} (member : p ∈ block) : p ∈ postings := by
  rw [here.cut] at member
  exact List.mem_of_mem_drop (List.mem_of_mem_take member)

theorem nonempty : 0 < block.length := by
  have start := here.start
  have positive : 0 < searchBlockPostings := by decide
  rw [here.length]
  omega

theorem encoded : (encodedPostings postings)[k]? = some (encodeBlock block) := by
  rw [encodedPostings, List.getElem?_map, here.found]
  rfl

/-- The first term of a block is that of its first posting. -/
theorem first : ∃ p tail, block = p :: tail ∧ firstTerm block = p.term := by
  obtain ⟨p, tail, rfl⟩ := List.exists_cons_of_length_pos here.nonempty
  exact ⟨p, tail, rfl, rfl⟩

end Block

theorem firstTerm_le {block : List SearchPosting} (accepted : ∀ p ∈ block, p.Accepted) :
    (firstTerm block).length ≤ searchKeyBytes := by
  cases block with
  | nil => exact Nat.zero_le _
  | cons p block => exact (accepted p (List.mem_cons_self ..)).term_le

theorem compactEntries_size {blocks : List (List SearchPosting)}
    (accepted : ∀ block ∈ blocks, ∀ p ∈ block, p.Accepted) (base : ℕ) :
    ∀ entry ∈ compactEntries base blocks, entry.length = searchIndexBytes := by
  induction blocks generalizing base with
  | nil => exact fun entry none => absurd none List.not_mem_nil
  | cons first blocks ih =>
      intro entry member
      rcases List.mem_cons.mp member with rfl | later
      · exact compactEntry_length (firstTerm_le (accepted first (List.mem_cons_self ..))) _ _ _
      · exact ih (fun block member => accepted block (List.mem_cons_of_mem _ member)) _ entry later

theorem compactEntries_length (base : ℕ) (blocks : List (List SearchPosting)) :
    (compactEntries base blocks).length = blocks.length := by
  induction blocks generalizing base with
  | nil => rfl
  | cons first blocks ih => rw [compactEntries, List.length_cons, ih, List.length_cons]

theorem mem_postingBlocks {block : List SearchPosting} (member : block ∈ postingBlocks postings)
    {p : SearchPosting} (inside : p ∈ block) : p ∈ postings := by
  have positive : 0 < searchBlockPostings := by decide
  rw [← flatten_blocksOf positive postings]
  exact List.mem_flatten.mpr ⟨block, member, inside⟩

theorem indexFile_length (accepted : ∀ p ∈ postings, p.Accepted) :
    (indexFile postings).length = searchCompactHeaderBytes +
      (encodedPostings postings).flatten.length +
      (postingBlocks postings).length * searchIndexBytes := by
  have entries := length_flatten_of_size (compactEntries_size
    (fun block member p inside => accepted p (mem_postingBlocks member inside))
    searchCompactHeaderBytes)
  rw [compactEntries_length] at entries
  rw [indexFile, List.length_append, List.length_append, entries, compactHeader_length]
  rfl

namespace Indexes

variable (indexes : Indexes postings s)

include indexes

theorem length : s.index.length = s.directory + s.blocks * searchIndexBytes := by
  rw [indexes.index, indexFile_length indexes.indexable.accepted, indexes.directory,
    indexes.blocks]

/-- The bytes of a block stand where they were laid. -/
theorem portion_block {k : ℕ} {block : List SearchPosting} (here : Block postings k block) :
    portion s.index (searchCompactHeaderBytes + startOf (encodedPostings postings) k)
      (encodeBlock block).length = encodeBlock block := by
  have laid := @portion_laid _ (compactHeader ((postingBlocks postings).length % 2 ^ 64)
      (postings.length % 2 ^ 64)
      ((searchCompactHeaderBytes + (encodedPostings postings).flatten.length) % 2 ^ 64))
    _ (compactEntries searchCompactHeaderBytes (postingBlocks postings)).flatten _ _ here.encoded
  rw [compactHeader_length] at laid
  rw [indexes.index]
  exact laid

theorem start_lt (k : ℕ) :
    searchCompactHeaderBytes + startOf (encodedPostings postings) k < 2 ^ 64 := by
  have low := startOf_le (encodedPostings postings) k
  have size := indexes.length
  have file := indexes.small
  rw [indexes.directory] at size
  omega

/-- The entry of a block stands at its place in the directory. -/
theorem portion_entry {k : ℕ} {block : List SearchPosting} (here : Block postings k block) :
    portion s.index (s.directory + k * searchIndexBytes) searchIndexBytes =
      compactEntry (firstTerm block)
        (searchCompactHeaderBytes + startOf (encodedPostings postings) k)
        (encodeBlock block).length block.length := by
  have entry := compactEntries_getElem searchCompactHeaderBytes here.found
  have start := Nat.mod_eq_of_lt (indexes.start_lt k)
  rw [encodedPostings] at start
  rw [start] at entry
  have laid := @Foundations.portion_entry _ (compactHeader ((postingBlocks postings).length % 2 ^ 64)
      (postings.length % 2 ^ 64)
      ((searchCompactHeaderBytes + (encodedPostings postings).flatten.length) % 2 ^ 64) ++
      (encodedPostings postings).flatten) _ _ _ _
    (compactEntries_size (fun block member p inside =>
      indexes.indexable.accepted p (mem_postingBlocks member inside)) _) entry
  rw [List.length_append, compactHeader_length] at laid
  rw [indexes.directory, indexes.index]
  exact laid

end Indexes

/-! ### Opening -/

/-- The fields of a header are read back. -/
theorem compactHeader_fields {blocks count directory : ℕ} (blocks64 : blocks < 2 ^ 64)
    (count64 : count < 2 ^ 64) (directory64 : directory < 2 ^ 64) :
    peek 4 (compactHeader blocks count directory) 8 = 2 ∧
    peek 4 (compactHeader blocks count directory) 12 = searchBlockPostings ∧
    peek 8 (compactHeader blocks count directory) 16 = blocks ∧
    peek 8 (compactHeader blocks count directory) 24 = count ∧
    peek 8 (compactHeader blocks count directory) 32 = directory ∧
    peek 4 (compactHeader blocks count directory) 40 = searchIndexBytes ∧
    peek 4 (compactHeader blocks count directory) 44 = 0 := by
  have assoc : compactHeader blocks count directory = searchCompactMagic ++ (bytesOf 4 2 ++
      (bytesOf 4 searchBlockPostings ++ (bytesOf 8 blocks ++ (bytesOf 8 count ++
      (bytesOf 8 directory ++ (bytesOf 4 searchIndexBytes ++ (bytesOf 4 0 ++ []))))))) := by
    simp only [compactHeader, List.append_assoc, List.append_nil]
  rw [assoc]
  refine ⟨peek_field searchCompactMagic _ (by decide) rfl, ?_, ?_, ?_, ?_, ?_, ?_⟩
  all_goals rw [← List.append_assoc]
  · exact peek_field _ _ (by decide) (by simp [searchCompactMagic])
  all_goals rw [← List.append_assoc]
  · exact peek_field _ _ blocks64 (by simp [searchCompactMagic])
  all_goals rw [← List.append_assoc]
  · exact peek_field _ _ count64 (by simp [searchCompactMagic])
  all_goals rw [← List.append_assoc]
  · exact peek_field _ _ directory64 (by simp [searchCompactMagic])
  all_goals rw [← List.append_assoc]
  · exact peek_field _ _ (by decide) (by simp [searchCompactMagic])
  · rw [← List.append_assoc]
    exact peek_field _ _ (by decide) (by simp [searchCompactMagic])

/-- Every posting takes some bytes. -/
theorem postings_le_encoded (accepted : ∀ p ∈ postings, p.Accepted) :
    postings.length ≤ (encodedPostings postings).flatten.length := by
  have blocks : ∀ blocks : List (List SearchPosting),
      (∀ block ∈ blocks, ∀ p ∈ block, p.Accepted) →
      blocks.flatten.length ≤ (blocks.map encodeBlock).flatten.length := by
    intro blocks
    induction blocks with
    | nil => exact fun _ => le_refl _
    | cons block blocks ih =>
        intro all
        have rest := ih fun b member => all b (List.mem_cons_of_mem _ member)
        have one := (encodePostings_length (all block (List.mem_cons_self ..)) [] 0).1
        rw [List.map_cons, List.flatten_cons, List.flatten_cons, List.length_append,
          List.length_append]
        exact Nat.add_le_add one rest
  have positive : 0 < searchBlockPostings := by decide
  have all := blocks (postingBlocks postings) fun block member p inside =>
    accepted p (mem_postingBlocks member inside)
  rwa [postingBlocks, flatten_blocksOf positive] at all

/-- **A written index is opened**, as the index of its postings. -/
theorem readIndexHeader_spec (indexable : Indexable postings)
    (index : s.index = indexFile postings) (small : s.index.length < 2 ^ 63) :
    ∃ s', s.readIndexHeader = .ok s' ∧ Indexes postings s' ∧ s'.data = s.data := by
  have length := indexFile_length indexable.accepted
  have count := blocksOf_length searchBlockPostings postings
  have some := postings_le_encoded indexable.accepted
  rw [index] at small
  have header : portion (indexFile postings) 0 searchCompactHeaderBytes =
      compactHeader ((postingBlocks postings).length % 2 ^ 64) (postings.length % 2 ^ 64)
        ((searchCompactHeaderBytes + (encodedPostings postings).flatten.length) % 2 ^ 64) := by
    rw [indexFile, List.append_assoc]
    exact List.take_left' (compactHeader_length ..)
  have indexBytes : searchIndexBytes = 112 := rfl
  have headerBytes : searchCompactHeaderBytes = 48 := rfl
  have blocks64 : (postingBlocks postings).length % 2 ^ 64 = (postingBlocks postings).length := by
    refine Nat.mod_eq_of_lt ?_
    rw [indexBytes] at length
    omega
  have total64 : postings.length % 2 ^ 64 = postings.length := Nat.mod_eq_of_lt (by omega)
  have placed : (searchCompactHeaderBytes + (encodedPostings postings).flatten.length) % 2 ^ 64 =
      searchCompactHeaderBytes + (encodedPostings postings).flatten.length :=
    Nat.mod_eq_of_lt (by omega)
  rw [blocks64, total64, placed] at header
  obtain ⟨version, size, blocks, total, directory, entry, reserved⟩ := compactHeader_fields
   
   
    (blocks64 ▸ Nat.mod_lt _ (by decide)) (total64 ▸ Nat.mod_lt _ (by decide))
    (placed ▸ Nat.mod_lt _ (by decide))
  have magic : (compactHeader (postingBlocks postings).length postings.length
      (searchCompactHeaderBytes + (encodedPostings postings).flatten.length)).take 8 =
        searchCompactMagic := by
    simp only [compactHeader, List.append_assoc]
    exact List.take_left' rfl
  unfold SearchReader.readIndexHeader
  rw [index, header]
  dsimp only
  rw [version, size, blocks, total, directory, entry, reserved, magic, compactHeader_length,
    length, if_neg (by decide), if_neg (by decide), if_neg]
  · exact ⟨_, rfl, ⟨indexable, rfl, small, rfl, rfl, rfl, rfl⟩, rfl⟩
  · rw [indexBytes, Nat.add_sub_cancel_left, Nat.mul_mod_left, Nat.mul_div_cancel _ (by decide)]
    rw [postingBlocks, count]
    omega

end Index

end OsmMini.Mobile

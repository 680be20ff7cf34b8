import OsmMini.Mobile.Search.Compact

/-!
# What the index writer leaves in the file

For postings in order the index file depends on the postings only: a header, their
blocks encoded one after the other, and one directory entry for each (`indexFile`,
`writeCompact_eq`).
-/

set_option autoImplicit false

namespace OsmMini.Mobile

open OsmMini.Foundations OsmMini.Foundations.LittleEndian OsmMini.Foundations.Varint

/-! ## Postings in order -/

/-- The writer takes the posting. -/
structure SearchPosting.Accepted (p : SearchPosting) : Prop where
  term_pos : 0 < p.term.length
  term_le : p.term.length ≤ searchKeyBytes
  length_pos : 0 < p.length
  length_le : p.length ≤ maxSearchRecordBytes

/-- The order of postings: by term, then by offset. -/
def SearchPosting.le (p q : SearchPosting) : Prop :=
  p.term < q.term ∨ p.term = q.term ∧ p.offset ≤ q.offset

instance (p q : SearchPosting) : Decidable (p.le q) :=
  inferInstanceAs (Decidable (_ ∨ _))

theorem SearchPosting.le.term {p q : SearchPosting} (le : p.le q) : p.term ≤ q.term := by
  rcases le with less | ⟨same, -⟩
  · exact less.le
  · exact same.le

/-! ## The index of postings -/

/-- The postings of a block after a term and an offset. -/
def encodePostings : List UInt8 → ℕ → List SearchPosting → List UInt8
  | _, _, [] => []
  | previous, previousOffset, p :: postings =>
    encodePosting previous previousOffset p ++ encodePostings p.term p.offset postings

/-- A block starts afresh. -/
def encodeBlock (block : List SearchPosting) : List UInt8 := encodePostings [] 0 block

/-- The term of the first posting of a block. -/
def firstTerm (block : List SearchPosting) : List UInt8 := (block.head?.map (·.term)).getD []

/-- The directory of blocks that are laid from `base` on. -/
def compactEntries (base : ℕ) : List (List SearchPosting) → List (List UInt8)
  | [] => []
  | block :: rest =>
    compactEntry (firstTerm block) (base % 2 ^ 64) (encodeBlock block).length block.length ::
      compactEntries (base + (encodeBlock block).length) rest

/-- The blocks of an index. -/
def postingBlocks (postings : List SearchPosting) : List (List SearchPosting) :=
  blocksOf searchBlockPostings postings

/-- The index file of postings. -/
def indexFile (postings : List SearchPosting) : List UInt8 :=
  let blocks := postingBlocks postings
  let encoded := blocks.map encodeBlock
  compactHeader (blocks.length % 2 ^ 64) (postings.length % 2 ^ 64)
      ((searchCompactHeaderBytes + encoded.flatten.length) % 2 ^ 64) ++
    encoded.flatten ++ (compactEntries searchCompactHeaderBytes blocks).flatten

theorem compactEntries_append (base : ℕ) (last : List SearchPosting) :
    ∀ blocks : List (List SearchPosting),
    compactEntries base (blocks ++ [last]) = compactEntries base blocks ++
      [compactEntry (firstTerm last) ((base + (blocks.map encodeBlock).flatten.length) % 2 ^ 64)
        (encodeBlock last).length last.length]
  | [] => rfl
  | first :: blocks => by
      rw [List.cons_append, compactEntries, compactEntries, compactEntries_append _ last blocks,
        List.cons_append, List.map_cons, List.flatten_cons, List.length_append, Nat.add_assoc]

/-- The last posting of a block, as the next one refers to it. -/
def lastTerm (block : List SearchPosting) : List UInt8 := (block.getLast?.map (·.term)).getD []
def lastOffset (block : List SearchPosting) : ℕ := (block.getLast?.map (·.offset)).getD 0

@[simp] theorem lastTerm_append (block : List SearchPosting) (p : SearchPosting) :
    lastTerm (block ++ [p]) = p.term := by simp [lastTerm]

@[simp] theorem lastOffset_append (block : List SearchPosting) (p : SearchPosting) :
    lastOffset (block ++ [p]) = p.offset := by simp [lastOffset]

/-- A posting is encoded after the last one of its block. -/
theorem encodeBlock_append (block : List SearchPosting) (p : SearchPosting) :
    encodeBlock (block ++ [p]) =
      encodeBlock block ++ encodePosting (lastTerm block) (lastOffset block) p := by
  have general : ∀ (block : List SearchPosting) (previous : List UInt8) (previousOffset : ℕ),
      encodePostings previous previousOffset (block ++ [p]) =
        encodePostings previous previousOffset block ++
          encodePosting ((block.getLast?.map (·.term)).getD previous)
            ((block.getLast?.map (·.offset)).getD previousOffset) p := by
    intro block
    induction block with
    | nil =>
        intro previous previousOffset
        rw [List.nil_append, encodePostings, encodePostings, encodePostings, List.append_nil]
        rfl
    | cons q block ih =>
        intro previous previousOffset
        rw [List.cons_append, encodePostings, encodePostings, ih, List.append_assoc]
        cases block with
        | nil => rfl
        | cons r block => rw [List.getLast?_cons_cons]; simp [List.getLast?_cons]
  exact general block [] 0

/-! ## The writer -/

/-- The writer after postings: full blocks that are laid, and the block it fills. -/
structure Indexed (postings : List SearchPosting) (blocks : List (List SearchPosting))
    (current : List SearchPosting) (w : CompactSearchWriter) : Prop where
  split : blocks.flatten ++ current = postings
  full : ∀ block ∈ blocks, block.length = searchBlockPostings
  room : current.length ≤ searchBlockPostings
  file : w.file = List.replicate searchCompactHeaderBytes 0 ++ (blocks.map encodeBlock).flatten
  directory : w.directory = (compactEntries searchCompactHeaderBytes blocks).flatten
  block : w.block = encodeBlock current
  first : w.first = firstTerm current
  previous : w.previous = lastTerm current
  previousOffset : w.previousOffset = lastOffset current
  blockCount : w.blockCount = current.length
  count : w.blocks = blocks.length % 2 ^ 64
  total : w.count = postings.length % 2 ^ 64
  offset : w.offset =
    (searchCompactHeaderBytes + (blocks.map encodeBlock).flatten.length) % 2 ^ 64

theorem indexed_new : Indexed [] [] [] newCompactSearchWriter := by
  constructor <;> first | rfl | decide

section Writer

variable {postings current : List SearchPosting} {blocks : List (List SearchPosting)}
  {w : CompactSearchWriter}

/-- Flushing lays the block, with its entry. -/
theorem flushBlock_file (indexed : Indexed postings blocks current w) (nonempty : current ≠ []) :
    w.flushBlock.file = List.replicate searchCompactHeaderBytes 0 ++
        ((blocks ++ [current]).map encodeBlock).flatten ∧
      w.flushBlock.directory =
        (compactEntries searchCompactHeaderBytes (blocks ++ [current])).flatten ∧
      w.flushBlock.blocks = (blocks ++ [current]).length % 2 ^ 64 ∧
      w.flushBlock.count = postings.length % 2 ^ 64 ∧
      w.flushBlock.offset = (searchCompactHeaderBytes +
        ((blocks ++ [current]).map encodeBlock).flatten.length) % 2 ^ 64 ∧
      w.flushBlock.block = [] ∧ w.flushBlock.first = [] ∧ w.flushBlock.previous = [] ∧
      w.flushBlock.previousOffset = 0 ∧ w.flushBlock.blockCount = 0 := by
  have some : w.blockCount ≠ 0 := by
    rw [indexed.blockCount]
    exact fun none => nonempty (List.length_eq_zero_iff.mp none)
  rw [CompactSearchWriter.flushBlock, if_neg some]
  refine ⟨?_, ?_, ?_, indexed.total, ?_, rfl, rfl, rfl, rfl, rfl⟩
  · simp [indexed.file, indexed.block]
  · simp only [compactEntries_append, List.flatten_append, List.flatten_singleton,
      indexed.directory, indexed.first, indexed.offset, indexed.block, indexed.blockCount]
  · simp [indexed.count]
  · simp [indexed.offset, indexed.block, Nat.add_assoc]

/-- A full block is laid and a new one begun. -/
theorem Indexed.flush (indexed : Indexed postings blocks current w)
    (full : current.length = searchBlockPostings) :
    Indexed postings (blocks ++ [current]) [] w.flushBlock := by
  have nonempty : current ≠ [] := fun none => by
    rw [none] at full
    cases full
  obtain ⟨file, directory, count, total, offset, block, first, previous, previousOffset,
    blockCount⟩ := flushBlock_file indexed nonempty
  refine ⟨?_, ?_, Nat.zero_le _, file, directory, block, first, previous, previousOffset,
    blockCount, count, total, offset⟩
  · rw [List.append_nil, List.flatten_append, List.flatten_singleton, indexed.split]
  · intro b member
    rcases List.mem_append.mp member with earlier | last
    · exact indexed.full b earlier
    · rw [List.mem_singleton.mp last, full]

/-- **A posting in order is added** to a block with room. -/
theorem add_room (indexed : Indexed postings blocks current w)
    (room : current.length < searchBlockPostings) {p : SearchPosting} (accepted : p.Accepted)
    (ordered : ∀ q ∈ current, q.le p) :
    ∃ w', w.add p = .ok w' ∧ Indexed (postings ++ [p]) blocks (current ++ [p]) w' := by
  have valid : ¬(p.term.length = 0 ∨ searchKeyBytes < p.term.length ∨ p.length = 0 ∨
      maxSearchRecordBytes < p.length) := by
    obtain ⟨termPos, termLe, lengthPos, lengthLe⟩ := accepted
    omega
  have notFull : w.blockCount ≠ searchBlockPostings := by
    rw [indexed.blockCount]
    exact room.ne
  have after : ¬(p.term < w.previous ∨ w.previous = p.term ∧ p.offset < w.previousOffset) := by
    rw [indexed.previous, indexed.previousOffset]
    rcases List.eq_nil_or_concat current with rfl | ⟨earlier, q, rfl⟩
    · rintro (less | ⟨same, -⟩)
      · exact absurd less (nil_le _).not_gt
      · have empty : p.term.length = 0 := by rw [← same]; rfl
        exact absurd accepted.term_pos empty.le.not_gt
    · rw [List.concat_eq_append, lastTerm_append, lastOffset_append]
      have le := ordered q (by simp)
      rintro (less | ⟨same, less⟩)
      · exact absurd less le.term.not_gt
      · rcases le with earlier | ⟨-, offsets⟩
        · exact absurd same earlier.ne
        · omega
  have run : w.add p = .ok
      { w with
        first := if w.blockCount = 0 then p.term else w.first
        block := w.block ++ encodePosting w.previous w.previousOffset p
        previous := p.term
        previousOffset := p.offset
        blockCount := w.blockCount + 1
        count := (w.count + 1) % 2 ^ 64 } := by
    simp only [CompactSearchWriter.add, if_neg valid, if_neg notFull]
    by_cases fresh : w.blockCount = 0
    · simp only [if_pos fresh]
      exact if_neg after
    · simp only [if_neg fresh]
      exact if_neg after
  refine ⟨_, run, ?_⟩
  constructor
  · rw [← indexed.split, List.append_assoc]
  · exact indexed.full
  · rw [List.length_append]
    exact room
  · exact indexed.file
  · exact indexed.directory
  · rw [encodeBlock_append, ← indexed.previous, ← indexed.previousOffset, ← indexed.block]
  · dsimp only
    rw [indexed.blockCount, indexed.first]
    cases current with
    | nil => rfl
    | cons q current => rfl
  · rw [lastTerm_append]
  · rw [lastOffset_append]
  · rw [indexed.blockCount, List.length_append]
    rfl
  · exact indexed.count
  · rw [indexed.total]
    simp
  · exact indexed.offset

theorem add_flush {p : SearchPosting} (full : w.blockCount = searchBlockPostings)
    (accepted : p.Accepted) : w.add p = w.flushBlock.add p := by
  have valid : ¬(p.term.length = 0 ∨ searchKeyBytes < p.term.length ∨ p.length = 0 ∨
      maxSearchRecordBytes < p.length) := by
    obtain ⟨termPos, termLe, lengthPos, lengthLe⟩ := accepted
    omega
  have empty : w.flushBlock.blockCount ≠ searchBlockPostings := by
    rw [CompactSearchWriter.flushBlock, if_neg (by rw [full]; decide)]
    exact (by decide : (0 : ℕ) ≠ searchBlockPostings)
  simp only [CompactSearchWriter.add, if_neg valid, if_pos full, if_neg empty]

/-- **A posting in order is added.** -/
theorem add_spec (indexed : Indexed postings blocks current w) {p : SearchPosting}
    (accepted : p.Accepted) (ordered : ∀ q ∈ postings, q.le p) :
    ∃ w' blocks' current', w.add p = .ok w' ∧ Indexed (postings ++ [p]) blocks' current' w' := by
  have within : ∀ q ∈ current, q.le p := fun q member =>
    ordered q (indexed.split ▸ List.mem_append_right _ member)
  rcases indexed.room.lt_or_eq with room | full
  · obtain ⟨w', run, indexed'⟩ := add_room indexed room accepted within
    exact ⟨w', _, _, run, indexed'⟩
  · obtain ⟨w', run, indexed'⟩ := add_room (indexed.flush full) (by decide) accepted
      fun q none => absurd none List.not_mem_nil
    rw [← add_flush (indexed.blockCount.trans full) accepted] at run
    exact ⟨w', _, _, run, indexed'⟩

/-- The same for a list of postings in order. -/
theorem adds_spec : ∀ {later earlier : List SearchPosting} {blocks : List (List SearchPosting)}
    {current : List SearchPosting} {w : CompactSearchWriter}, Indexed earlier blocks current w →
    (∀ p ∈ later, p.Accepted) → (earlier ++ later).Pairwise SearchPosting.le →
    ∃ w' blocks' current', later.foldlM (fun w p => w.add p) w = .ok w' ∧
      Indexed (earlier ++ later) blocks' current' w'
  | [], earlier, blocks, current, w, indexed, _, _ =>
      ⟨w, blocks, current, rfl, by rwa [List.append_nil]⟩
  | p :: later, earlier, blocks, current, w, indexed, accepted, sorted => by
      have before : ∀ q ∈ earlier, q.le p := fun q member =>
        (List.pairwise_append.mp sorted).2.2 q member p (List.mem_cons_self ..)
      obtain ⟨w', blocks', current', run, indexed'⟩ :=
        add_spec indexed (accepted p (List.mem_cons_self ..)) before
      have split : earlier ++ p :: later = earlier ++ [p] ++ later := by
        rw [List.append_assoc, List.singleton_append]
      rw [split] at sorted ⊢
      rw [List.foldlM_cons, run]
      exact adds_spec indexed' (fun q member => accepted q (List.mem_cons_of_mem _ member)) sorted

end Writer

@[simp] theorem compactHeader_length (blocks count directory : ℕ) :
    (compactHeader blocks count directory).length = searchCompactHeaderBytes := by
  simp [compactHeader, searchCompactHeaderBytes, searchCompactMagic]

/-- The header goes over the room that was left for it. -/
theorem index_file {w : CompactSearchWriter} {blocks : List (List SearchPosting)}
    (blocked : Blocked searchBlockPostings blocks)
    (file : w.file = List.replicate searchCompactHeaderBytes 0 ++ (blocks.map encodeBlock).flatten)
    (directory : w.directory = (compactEntries searchCompactHeaderBytes blocks).flatten)
    (count : w.blocks = blocks.length % 2 ^ 64)
    (total : w.count = blocks.flatten.length % 2 ^ 64)
    (offset : w.offset =
      (searchCompactHeaderBytes + (blocks.map encodeBlock).flatten.length) % 2 ^ 64) :
    overwrite (w.file ++ w.directory) (compactHeader w.blocks w.count w.offset) =
      indexFile blocks.flatten := by
  have cut : postingBlocks blocks.flatten = blocks := blocked.blocksOf
  have room : (w.file ++ w.directory).drop searchCompactHeaderBytes =
      (blocks.map encodeBlock).flatten ++ w.directory := by
    rw [file, List.append_assoc]
    exact List.drop_left' (List.length_replicate ..)
  rw [overwrite, compactHeader_length, room, indexFile, cut, directory, offset, count, total,
    List.append_assoc]

/-- **The index of postings in order is written**, and depends on the postings only. -/
theorem writeCompact_eq {postings : List SearchPosting} (accepted : ∀ p ∈ postings, p.Accepted)
    (sorted : postings.Pairwise SearchPosting.le) :
    writeCompact postings = .ok (indexFile postings) := by
  obtain ⟨w, blocks, current, run, indexed⟩ := adds_spec indexed_new accepted sorted
  rw [List.nil_append] at indexed
  rw [writeCompact, run]
  refine congrArg Except.ok ?_
  rw [CompactSearchWriter.finish]
  by_cases empty : current = []
  · have none : w.blockCount = 0 := by
      rw [indexed.blockCount, empty]
      rfl
    have whole : blocks.flatten = postings := by
      rw [← indexed.split, empty, List.append_nil]
    rw [CompactSearchWriter.flushBlock, if_pos none, ← whole]
    exact index_file (Blocked.of_full (by decide) indexed.full) indexed.file indexed.directory
      indexed.count (whole.symm ▸ indexed.total) indexed.offset
  · have whole : (blocks ++ [current]).flatten = postings := by
      rw [List.flatten_append, List.flatten_singleton, indexed.split]
    obtain ⟨file, directory, count, total, offset, -⟩ := flushBlock_file indexed empty
    rw [← whole]
    exact index_file (Blocked.append indexed.full (List.length_pos_iff.mpr empty) indexed.room)
      file directory count (whole.symm ▸ total) offset

end OsmMini.Mobile

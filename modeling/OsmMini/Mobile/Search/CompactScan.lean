import OsmMini.Mobile.Search.CompactRead

/-!
# Scanning the compact index

The iterator stands between two blocks or within one (`Standing`); in both places the
next call decodes the next posting, through whatever the windows show (`next_spec`). A
scan from the start therefore yields the postings of the index, and a scan from a key
all those that are not before it (`compact_faithful`).
-/

set_option autoImplicit false

namespace OsmMini.Mobile

open OsmMini.Foundations OsmMini.Foundations.LittleEndian OsmMini.Foundations.Varint

/-! ## Windows -/

/-- The windows of the iterator show the file. -/
structure Windowed (s : SearchReader) (i : SearchPostingIterator) : Prop where
  sized : i.scratch.Sized
  directory : Shows i.scratch.postings s.index (s.directory + i.windowAt * searchIndexBytes)
    (i.windowSize * searchIndexBytes)
  encoded : Shows i.scratch.block s.index i.encodedAt i.encodedSize

section Windows

variable {postings : List SearchPosting} {s : SearchReader} {i : SearchPostingIterator}

theorem windowed_new (indexes : Indexes postings s) {scratch : SearchScratch}
    (sized : scratch.Sized) : Windowed s (newSearchPostingIterator scratch) := by
  refine ⟨sized, ⟨?_, rfl⟩, shows_nothing _ _⟩
  rw [indexes.length]
  simp [newSearchPostingIterator]

/-- **An entry is read as the file has it.** Only the window moves. -/
theorem indexEntry_spec (indexes : Indexes postings s) (windowed : Windowed s i) {k : ℕ}
    {block : List SearchPosting} (here : Block postings k block) :
    ∃ scratch windowAt windowSize, indexEntry s i k =
        (.ok (compactEntry (firstTerm block)
          (searchCompactHeaderBytes + startOf (encodedPostings postings) k)
          (encodeBlock block).length block.length),
        { i with scratch := scratch, windowAt := windowAt, windowSize := windowSize }) ∧
      Windowed s { i with scratch := scratch, windowAt := windowAt, windowSize := windowSize } := by
  have inside : k < s.blocks := by
    rw [indexes.blocks]
    exact (List.getElem?_eq_some_iff.mp here.found).1
  have served : ∀ {i : SearchPostingIterator}, Windowed s i → i.windowAt ≤ k →
      k + 1 ≤ i.windowAt + i.windowSize →
      portion i.scratch.postings ((k - i.windowAt) * searchIndexBytes) searchIndexBytes =
        compactEntry (firstTerm block)
          (searchCompactHeaderBytes + startOf (encodedPostings postings) k)
          (encodeBlock block).length block.length := by
    intro i windowed low high
    have there := @Shows.portion _ _ _ _ _ _ searchIndexBytes windowed.directory
      (Nat.add_le_add_left (Nat.mul_le_mul_right _ low) _)
      (by
        rw [Nat.add_assoc, Nat.add_assoc, ← Nat.add_mul, ← Nat.succ_mul]
        exact Nat.add_le_add_left (Nat.mul_le_mul_right _ high) _)
    rw [Nat.add_sub_add_left, ← Nat.sub_mul] at there
    exact there.trans (indexes.portion_entry here)
  unfold indexEntry
  dsimp only
  by_cases missing : k < i.windowAt ∨ i.windowAt + i.windowSize ≤ k
  · rw [if_pos missing, if_pos indexes.compact, if_pos indexes.compact]
    set at' := k / 64 * 64 with start
    set n := min 64 (s.blocks - at') with reach
    have range : s.directory + at' * searchIndexBytes + n * searchIndexBytes ≤ s.index.length := by
      rw [indexes.length, Nat.add_assoc, ← Nat.add_mul]
      exact Nat.add_le_add_left (Nat.mul_le_mul_right _ (by omega)) _
    rw [readAt_ok range]
    have windowed' : Windowed s
        { i with
          scratch := { i.scratch with
            postings := overwrite i.scratch.postings
              (portion s.index (s.directory + at' * searchIndexBytes) (n * searchIndexBytes)) }
          windowAt := at'
          windowSize := n } := by
      refine ⟨⟨?_, windowed.sized.block, windowed.sized.data, windowed.sized.encoded,
        windowed.sized.directory⟩, shows_overwrite range, windowed.encoded⟩
      rw [overwrite_length]
      · exact windowed.sized.postings
      · rw [portion_length range, windowed.sized.postings]
        exact Nat.mul_le_mul_right _ (min_le_left ..)
    refine ⟨_, _, _, ?_, windowed'⟩
    dsimp only
    rw [served windowed' (by dsimp only; omega) (by dsimp only; omega)]
  · rw [if_neg missing, served windowed (by omega) (by omega)]
    exact ⟨i.scratch, i.windowAt, i.windowSize, rfl, windowed⟩

/-- After fetching, the bytes of the block are in the window. -/
theorem fetchBlock_spec (indexes : Indexes postings s) (windowed : Windowed s i) {k : ℕ}
    {block : List SearchPosting} (here : Block postings k block) :
    ∃ scratch encodedAt encodedSize, fetchBlock s i
        (searchCompactHeaderBytes + startOf (encodedPostings postings) k)
        (encodeBlock block).length =
        (.ok (), { i with
          scratch := scratch, encodedAt := encodedAt, encodedSize := encodedSize }) ∧
      Windowed s { i with
        scratch := scratch, encodedAt := encodedAt, encodedSize := encodedSize } ∧
      portion scratch.block
        (searchCompactHeaderBytes + startOf (encodedPostings postings) k - encodedAt)
        (encodeBlock block).length = encodeBlock block := by
  have accepted : ∀ p ∈ block, p.Accepted := fun p member =>
    indexes.indexable.accepted p (here.subset member)
  have last := startOf_add_le here.encoded
  have directory := indexes.directory
  have size := indexes.length
  have fits : (encodeBlock block).length ≤ searchBlockMaxBytes := by
    refine (encodePostings_length accepted [] 0).2.trans ?_
    rw [here.length]
    exact Nat.mul_le_mul_right 113 (min_le_left ..)
  unfold fetchBlock
  dsimp only
  split_ifs with missing
  · have bounds : (encodeBlock block).length ≤ blockReach s i
          (searchCompactHeaderBytes + startOf (encodedPostings postings) k)
          (encodeBlock block).length ∧
        searchCompactHeaderBytes + startOf (encodedPostings postings) k + blockReach s i
          (searchCompactHeaderBytes + startOf (encodedPostings postings) k)
          (encodeBlock block).length ≤ s.directory ∧
        blockReach s i (searchCompactHeaderBytes + startOf (encodedPostings postings) k)
          (encodeBlock block).length ≤ searchBlockMaxBytes := by
      unfold blockReach
      rw [windowed.sized.block]
      split_ifs <;> omega
    obtain ⟨low, high, few⟩ := bounds
    generalize blockReach s i _ _ = n at low high few ⊢
    have range : searchCompactHeaderBytes + startOf (encodedPostings postings) k + n ≤
        s.index.length := by omega
    rw [readAt_ok range]
    have windowed' : Windowed s
        { i with
          scratch := { i.scratch with
            block := overwrite i.scratch.block (portion s.index
              (searchCompactHeaderBytes + startOf (encodedPostings postings) k) n) }
          encodedAt := searchCompactHeaderBytes + startOf (encodedPostings postings) k
          encodedSize := n } := by
      refine ⟨⟨windowed.sized.postings, ?_, windowed.sized.data, windowed.sized.encoded,
        windowed.sized.directory⟩, windowed.directory, shows_overwrite range⟩
      rw [overwrite_length]
      · exact windowed.sized.block
      · rw [portion_length range, windowed.sized.block]
        exact few
    refine ⟨_, _, _, rfl, windowed', ?_⟩
    exact (windowed'.encoded.portion (le_refl _) (Nat.add_le_add_left low _)).trans
      (indexes.portion_block here)
  · rw [not_or, not_lt, not_lt] at missing
    exact ⟨i.scratch, i.encodedAt, i.encodedSize, rfl, windowed,
      (windowed.encoded.portion missing.1 missing.2).trans (indexes.portion_block here)⟩

/-- The entry of a block fits the file and the number of postings. -/
theorem block_ok (indexes : Indexes postings s) {k : ℕ} {block : List SearchPosting}
    (here : Block postings k block) :
    ¬badBlock s k (searchCompactHeaderBytes + startOf (encodedPostings postings) k)
      (encodeBlock block).length block.length := by
  have accepted : ∀ p ∈ block, p.Accepted := fun p member =>
    indexes.indexable.accepted p (here.subset member)
  have last := startOf_add_le here.encoded
  have directory := indexes.directory
  have nonempty := here.nonempty
  have length := here.length
  have start := here.start
  obtain ⟨low, high⟩ := encodePostings_length accepted [] 0
  have fits : (encodeBlock block).length ≤ searchBlockMaxBytes := by
    refine high.trans ?_
    rw [length]
    exact Nat.mul_le_mul_right 113 (min_le_left ..)
  have some : 0 < (encodeBlock block).length := nonempty.trans_le low
  have inside := (List.getElem?_eq_some_iff.mp here.found).1
  have count := indexes.count
  have blocks := indexes.blocks
  have total := blocksOf_length searchBlockPostings postings
  have hundred : searchBlockPostings = 128 := rfl
  rw [postingBlocks, total] at inside blocks
  unfold badBlock
  rw [hundred] at length start inside blocks ⊢
  omega

/-- **A block is started**: its bytes are at hand, and its first term is known. -/
theorem startBlock_spec (indexes : Indexes postings s) (windowed : Windowed s i)
    (done : i.encoded = []) {block : List SearchPosting} (here : Block postings i.block block) :
    ∃ i', startBlock s i = (.ok true, i') ∧ Windowed s i' ∧ i'.encoded = encodeBlock block ∧
      i'.remaining = block.length ∧ i'.term = [] ∧ i'.offset = 0 ∧
      i'.first = some (firstTerm block) ∧ i'.block = i.block + 1 ∧ i'.lastTerm = i.lastTerm ∧
      i'.lastOffset = i.lastOffset := by
  have accepted : ∀ p ∈ block, p.Accepted := fun p member =>
    indexes.indexable.accepted p (here.subset member)
  have inside : i.block < s.blocks := by
    rw [indexes.blocks]
    exact (List.getElem?_eq_some_iff.mp here.found).1
  obtain ⟨p, tail, members, first⟩ := here.first
  have short := firstTerm_le accepted
  have unpadded : 0 ∉ firstTerm block := by
    rw [first]
    exact indexes.indexable.unpadded p (here.subset (members ▸ List.mem_cons_self ..))
  have nonempty : (firstTerm block).length ≠ 0 := by
    rw [first]
    exact (accepted p (members ▸ List.mem_cons_self ..)).term_pos.ne'
  have size32 : (encodeBlock block).length < 2 ^ 32 := by
    refine (encodePostings_length accepted [] 0).2.trans_lt ?_
    have length := here.length
    have hundred : searchBlockPostings = 128 := rfl
    omega
  have count32 : block.length < 2 ^ 32 := by
    have length := here.length
    have hundred : searchBlockPostings = 128 := rfl
    omega
  obtain ⟨offset, size, count⟩ := compactEntry_fields short (indexes.start_lt i.block) size32 count32
  have key := searchTerm_compactEntry short unpadded
    (searchCompactHeaderBytes + startOf (encodedPostings postings) i.block)
    (encodeBlock block).length block.length
  obtain ⟨scratch, windowAt, windowSize, entry, windowed₁⟩ := indexEntry_spec indexes windowed here
  obtain ⟨scratch', encodedAt, encodedSize, fetched, windowed₂, bytes⟩ :=
    fetchBlock_spec indexes (i := { i with
      scratch := scratch, windowAt := windowAt, windowSize := windowSize,
      first := some (firstTerm block) })
      ⟨windowed₁.sized, windowed₁.directory, windowed₁.encoded⟩ here
  rw [startBlock, if_neg (by rw [done]; exact fun h => h rfl), if_neg inside.ne]
  simp only [entry, offset, size, count, key]
  rw [if_neg (block_ok indexes here), if_neg nonempty]
  simp only [fetched]
  exact ⟨_, rfl, ⟨windowed₂.sized, windowed₂.directory, windowed₂.encoded⟩, bytes, rfl, rfl, rfl,
    rfl, rfl, rfl, rfl⟩

end Windows

/-! ## Standing before the rest -/

/-- Every posting that is left comes after the last one that was yielded. -/
def Follows (i : SearchPostingIterator) (rest : List SearchPosting) : Prop :=
  i.lastTerm = [] ∨ ∀ p ∈ rest, i.lastTerm < p.term ∨ i.lastTerm = p.term ∧ i.lastOffset ≤ p.offset

/-- The iterator stands before the rest of the postings: between two blocks, or within
one of which some postings are left. -/
inductive Standing (postings : List SearchPosting) (s : SearchReader)
    (i : SearchPostingIterator) : List SearchPosting → Prop
  | between (windowed : Windowed s i) (encoded : i.encoded = []) (remaining : i.remaining = 0)
      (block : i.block ≤ s.blocks)
      (follows : Follows i (postings.drop (i.block * searchBlockPostings))) :
      Standing postings s i (postings.drop (i.block * searchBlockPostings))
  | within (windowed : Windowed s i) (p : SearchPosting) (tail : List SearchPosting)
      (encoded : i.encoded = encodePostings i.term i.offset (p :: tail))
      (remaining : i.remaining = (p :: tail).length) (block : i.block ≤ s.blocks)
      (first : i.first = none) (lastTerm : i.lastTerm = i.term)
      (lastOffset : i.lastOffset = i.offset) (nonempty : i.term ≠ [])
      (suffix : (p :: tail) ++ postings.drop (i.block * searchBlockPostings) <:+ postings)
      (follows : Follows i ((p :: tail) ++ postings.drop (i.block * searchBlockPostings))) :
      Standing postings s i ((p :: tail) ++ postings.drop (i.block * searchBlockPostings))

section Standing

variable {postings : List SearchPosting} {s : SearchReader} {i : SearchPostingIterator}

/-- After a posting was decoded the iterator stands before what is left. -/
theorem standing_after (indexes : Indexes postings s) (windowed : Windowed s i)
    {p : SearchPosting} {tail : List SearchPosting} (remaining : i.remaining = tail.length + 1)
    (encoded : i.encoded = encodePosting i.term i.offset p ++
      encodePostings p.term p.offset tail) (block : i.block ≤ s.blocks) (decodes : Decodes i p)
    (suffix : p :: (tail ++ postings.drop (i.block * searchBlockPostings)) <:+ postings) :
    ∃ i', decodePosting i = (.ok (some p), i') ∧
      Standing postings s i' (tail ++ postings.drop (i.block * searchBlockPostings)) := by
  have accepted := indexes.indexable.accepted p (suffix.subset (List.mem_cons_self ..))
  have offset := indexes.indexable.offset p (suffix.subset (List.mem_cons_self ..))
  have sorted := indexes.indexable.sorted.sublist suffix.sublist
  refine ⟨_, decodePosting_spec accepted offset decodes remaining encoded, ?_⟩
  have windowed' : Windowed s
      { i with
        encoded := encodePostings p.term p.offset tail
        term := p.term
        offset := p.offset
        first := none
        lastTerm := p.term
        lastOffset := p.offset
        remaining := tail.length } := ⟨windowed.sized, windowed.directory, windowed.encoded⟩
  have follows := (List.pairwise_cons.mp sorted).1
  cases tail with
  | nil => exact .between windowed' rfl rfl block (.inr follows)
  | cons q tail =>
      refine .within windowed' q tail rfl rfl block rfl rfl rfl (fun none => ?_)
        ((List.suffix_cons ..).trans suffix) (.inr follows)
      have some := accepted.term_pos
      rw [show p.term = [] from none] at some
      exact absurd some (lt_irrefl _)

/-- **The next call yields the next posting**, or ends when there is none. -/
theorem next_spec (indexes : Indexes postings s) {rest : List SearchPosting}
    (standing : Standing postings s i rest) :
    (rest = [] ∧ i.next s = (.ok none, i)) ∨
    ∃ p rest' i', rest = p :: rest' ∧ i.next s = (.ok (some p), i') ∧
      Standing postings s i' rest' := by
  cases standing with
  | between windowed encoded remaining inside follows =>
      rw [SearchPostingIterator.next, if_pos indexes.compact, if_pos remaining]
      rcases inside.lt_or_eq with more | last
      · obtain ⟨block, here⟩ := exists_block (indexes.blocks ▸ more)
        obtain ⟨p, tail, members, first⟩ := here.first
        obtain ⟨i', started, windowed', bytes, left, term, offset, key, next, lastTerm,
          lastOffset⟩ := startBlock_spec indexes windowed encoded here
        have split : postings.drop (i.block * searchBlockPostings) =
            p :: (tail ++ postings.drop (i'.block * searchBlockPostings)) := by
          rw [next, Nat.succ_mul, ← List.drop_drop, ← List.cons_append, ← members, here.cut,
            portion, List.take_append_drop]
        have decodes : Decodes i' p := by
          refine ⟨?_, .inl ⟨key.trans (congrArg some first), term⟩⟩
          rw [lastTerm, lastOffset]
          exact follows.imp_right fun all => all p (split ▸ List.mem_cons_self ..)
        obtain ⟨i'', run, standing⟩ := standing_after indexes windowed' (p := p)
          (by rw [left, members]; rfl) (by rw [bytes, members, term, offset]; rfl)
          (by rw [next]; exact more) decodes (split ▸ List.drop_suffix ..)
        rw [started]
        exact .inr ⟨p, _, i'', split, run, standing⟩
      · refine .inl ⟨?_, ?_⟩
        · refine List.drop_eq_nil_of_le ?_
          have positive : 0 < searchBlockPostings := by decide
          have whole := Nat.lt_div_mul_add (a := postings.length + searchBlockPostings - 1) positive
          rw [last, indexes.blocks, postingBlocks, blocksOf_length]
          omega
        · rw [startBlock, if_neg (by rw [encoded]; exact fun h => h rfl), if_pos last]
  | within windowed p tail encoded remaining inside first lastTerm lastOffset nonempty suffix
      follows =>
      have decodes : Decodes i p :=
        ⟨follows.imp_right fun all => all p (List.mem_cons_self ..),
          .inr ⟨first, lastTerm, lastOffset, nonempty⟩⟩
      obtain ⟨i', run, standing⟩ := standing_after indexes windowed remaining encoded inside decodes
        suffix
      rw [SearchPostingIterator.next, if_pos indexes.compact, if_neg (by rw [remaining]; simp), run]
      exact .inr ⟨p, _, i', rfl, rfl, standing⟩

theorem standing_new (indexes : Indexes postings s) {scratch : SearchScratch}
    (sized : scratch.Sized) : Standing postings s (newSearchPostingIterator scratch) postings := by
  have standing := @Standing.between postings s _
    (windowed_new indexes sized) rfl rfl (Nat.zero_le _) (.inl rfl)
  rwa [newSearchPostingIterator, Nat.zero_mul, List.drop_zero] at standing

/-- The postings that at most `n` calls yield, up to the end of the index or an error. -/
def SearchPostingIterator.collect (s : SearchReader) :
    ℕ → SearchPostingIterator → Except String (List SearchPosting)
  | 0, _ => .ok []
  | n + 1, i =>
    match i.next s with
    | (.error err, _) => .error err
    | (.ok none, _) => .ok []
    | (.ok (some p), i) =>
      match i.collect s n with
      | .error err => .error err
      | .ok later => .ok (p :: later)

/-- **A scan yields what is left**, and ends there. -/
theorem collect_spec (indexes : Indexes postings s) : ∀ {n : ℕ} {i : SearchPostingIterator}
    {rest : List SearchPosting}, Standing postings s i rest → i.collect s n = .ok (rest.take n)
  | 0, i, rest, _ => rfl
  | n + 1, i, rest, standing => by
      rw [SearchPostingIterator.collect]
      rcases next_spec indexes standing with ⟨rfl, run⟩ | ⟨p, rest', i', rfl, run, standing'⟩
      · rw [run]
        rfl
      · rw [run]
        dsimp only
        rw [collect_spec indexes standing']
        rfl

end Standing

/-! ## Seeking -/

section Seeking

variable {postings : List SearchPosting} {s : SearchReader}

/-- The first term of a block of the index. -/
def blockTerm (postings : List SearchPosting) (k : ℕ) : List UInt8 :=
  (((postingBlocks postings)[k]?).map firstTerm).getD []

/-- The search of the directory only moves the window of the iterator. -/
structure Probed (s : SearchReader) (state : SearchPostingIterator × Except String Unit) :
    Prop where
  windowed : Windowed s state.1
  encoded : state.1.encoded = []
  remaining : state.1.remaining = 0
  lastTerm : state.1.lastTerm = []
  outcome : state.2 = .ok ()

/-- A probe compares the first term of a block with the key. -/
theorem notBefore_spec (indexes : Indexes postings s) (key : List UInt8) {k : ℕ}
    (inside : k < s.blocks) {state : SearchPostingIterator × Except String Unit}
    (probed : Probed s state) :
    (notBefore s key k state).1 = decide (key ≤ blockTerm postings k) ∧
      Probed s (notBefore s key k state).2 := by
  obtain ⟨block, here⟩ := exists_block (indexes.blocks ▸ inside)
  have accepted : ∀ p ∈ block, p.Accepted := fun p member =>
    indexes.indexable.accepted p (here.subset member)
  obtain ⟨p, tail, members, first⟩ := here.first
  have term : blockTerm postings k = firstTerm block := by
    rw [blockTerm, here.found]
    rfl
  have read := searchTerm_compactEntry (firstTerm_le accepted) (by
      rw [first]
      exact indexes.indexable.unpadded p (here.subset (members ▸ List.mem_cons_self ..)))
    (searchCompactHeaderBytes + startOf (encodedPostings postings) k) (encodeBlock block).length
    block.length
  obtain ⟨scratch, windowAt, windowSize, entry, windowed⟩ :=
    indexEntry_spec indexes probed.windowed here
  rw [notBefore, entry]
  dsimp only
  rw [read, term]
  exact ⟨rfl, windowed, probed.encoded, probed.remaining, probed.lastTerm, probed.outcome⟩

/-- The postings before a block come no later than its first term. -/
theorem term_le_blockTerm (indexable : Indexable postings) {k : ℕ}
    (inside : k < (postingBlocks postings).length) {p : SearchPosting}
    (member : p ∈ postings.take (k * searchBlockPostings)) : p.term ≤ blockTerm postings k := by
  obtain ⟨block, here⟩ := exists_block inside
  obtain ⟨q, tail, members, first⟩ := here.first
  have later : q ∈ postings.drop (k * searchBlockPostings) := by
    have front : q ∈ block := members ▸ List.mem_cons_self ..
    rw [here.cut] at front
    exact List.mem_of_mem_take front
  have sorted := indexable.sorted
  rw [← List.take_append_drop (k * searchBlockPostings) postings] at sorted
  have le := (List.pairwise_append.mp sorted).2.2 p member q later
  rw [blockTerm, here.found, Option.map_some, Option.getD_some, first]
  exact le.term

/-- **Seeking a key** leaves the iterator before all postings that are not before it. -/
theorem postingsFrom_spec (indexes : Indexes postings s) (key : List UInt8)
    {scratch : SearchScratch} (sized : scratch.Sized) :
    ∃ i before rest, postingsFrom s key scratch = (.ok (), i) ∧ Standing postings s i rest ∧
      postings = before ++ rest ∧ ∀ p ∈ before, p.term < key := by
  obtain ⟨found, probed⟩ := searchS_eq (n := s.blocks) (f := notBefore s key)
    (g := fun k => decide (key ≤ blockTerm postings k))
    (fun k inside state probed => notBefore_spec indexes key inside probed)
    (s := (newSearchPostingIterator scratch, .ok ()))
    ⟨windowed_new indexes sized, rfl, rfl, rfl, rfl⟩
  have limit := search_le s.blocks fun k => decide (key ≤ blockTerm postings k)
  have previous := search_before (n := s.blocks) (f := fun k => decide (key ≤ blockTerm postings k))
  rw [← found] at limit previous
  rw [postingsFrom]
  simp only [if_pos indexes.compact]
  generalize searchS s.blocks (notBefore s key) (newSearchPostingIterator scratch, .ok ()) =
    searched at probed limit previous
  obtain ⟨index, i, outcome⟩ := searched
  have outcome' : outcome = .ok () := probed.outcome
  subst outcome'
  dsimp only at limit previous ⊢
  have standing : ∀ k ≤ s.blocks, Standing postings s { i with block := k }
      (postings.drop (k * searchBlockPostings)) := fun k inside =>
    .between ⟨probed.windowed.sized, probed.windowed.directory, probed.windowed.encoded⟩
      probed.encoded probed.remaining inside (.inl probed.lastTerm)
  by_cases some : 0 < index
  · refine ⟨_, postings.take ((index - 1) * searchBlockPostings), _, rfl, ?_,
      (List.take_append_drop _ _).symm, fun p member => ?_⟩
    · rw [if_pos some]
      exact standing (index - 1) (by omega)
    · have less := of_decide_eq_false (previous some)
      exact (term_le_blockTerm indexes.indexable (by rw [← indexes.blocks]; omega)
        member).trans_lt (not_le.mp less)
  · obtain rfl : index = 0 := by omega
    refine ⟨_, [], _, rfl, ?_, (List.nil_append _).symm, fun p none => absurd none List.not_mem_nil⟩
    have first := standing 0 limit
    rwa [Nat.zero_mul, List.drop_zero] at first

/-- In order, the postings not before a key are those after the ones before it. -/
theorem dropWhile_eq_filter {rest : List SearchPosting} (sorted : rest.Pairwise SearchPosting.le)
    (key : List UInt8) :
    rest.dropWhile (fun p => decide (p.term < key)) = rest.filter fun p => decide (key ≤ p.term) := by
  induction rest with
  | nil => rfl
  | cons p rest ih =>
      obtain ⟨first, later⟩ := List.pairwise_cons.mp sorted
      by_cases less : p.term < key
      · rw [List.dropWhile_cons, if_pos (decide_eq_true less), ih later, List.filter_cons_of_neg]
        rw [decide_eq_true_iff]
        exact less.not_ge
      · rw [List.dropWhile_cons, if_neg (by rw [decide_eq_true_iff]; exact less)]
        refine (List.filter_eq_self.mpr fun q member => decide_eq_true ?_).symm
        rcases List.mem_cons.mp member with rfl | after
        · exact not_lt.mp less
        · exact (not_lt.mp less).trans (first q after).term

end Seeking

/-- **The compact index is read back faithfully.** The index of postings in order is
written and opened again. A scan from its start yields the postings; a scan from a key,
without its leading postings before the key, yields all those that are not before it. -/
theorem compact_faithful (postings : List SearchPosting) (indexable : Indexable postings) :
    ∃ file, writeCompact postings = .ok file ∧
      (file.length < 2 ^ 63 → ∀ s : SearchReader, s.index = file →
        ∃ s', s.readIndexHeader = .ok s' ∧ ∀ scratch : SearchScratch, scratch.Sized →
          (∀ n, (newSearchPostingIterator scratch).collect s' n = .ok (postings.take n)) ∧
          ∀ key, ∃ (i : SearchPostingIterator) (yielded : List SearchPosting),
            postingsFrom s' key scratch = (.ok (), i) ∧
            (∀ n, i.collect s' n = .ok (yielded.take n)) ∧
            yielded.dropWhile (fun p => decide (p.term < key)) =
              postings.filter fun p => decide (key ≤ p.term)) := by
  refine ⟨_, writeCompact_eq indexable.accepted indexable.sorted, fun small s index => ?_⟩
  obtain ⟨s', opened, indexes, -⟩ := readIndexHeader_spec indexable index (index ▸ small)
  refine ⟨s', opened, fun scratch sized => ⟨fun n => collect_spec indexes
    (standing_new indexes sized), fun key => ?_⟩⟩
  obtain ⟨i, before, rest, sought, standing, split, less⟩ := postingsFrom_spec indexes key sized
  refine ⟨i, rest, sought, fun n => collect_spec indexes standing, ?_⟩
  have sorted : rest.Pairwise SearchPosting.le :=
    indexable.sorted.sublist (split ▸ List.sublist_append_right before rest)
  have none : before.filter (fun p => decide (key ≤ p.term)) = [] := by
    refine List.filter_eq_nil_iff.mpr fun p member => ?_
    rw [decide_eq_true_iff]
    exact (less p member).not_ge
  rw [split, List.filter_append, none, List.nil_append]
  exact dropWhile_eq_filter sorted key

/-- Three postings of the terms `bad`, `bar` and `bar`. -/
def barPostings : List SearchPosting :=
  [⟨[98, 97, 100], 300, 7⟩, ⟨[98, 97, 114], 5, 20⟩, ⟨[98, 97, 114], 300, 7⟩]

theorem indexable_bar : Indexable barPostings := by
  have each : ∀ p ∈ barPostings, (0 < p.term.length ∧ p.term.length ≤ searchKeyBytes ∧
      0 < p.length ∧ p.length ≤ maxSearchRecordBytes) ∧ p.offset < 2 ^ 64 ∧ 0 ∉ p.term := by
    decide
  exact ⟨fun p member => ⟨(each p member).1.1, (each p member).1.2.1, (each p member).1.2.2.1,
    (each p member).1.2.2.2⟩, fun p member => (each p member).2.1,
    fun p member => (each p member).2.2, by decide⟩

/-- They are read from the start, and from the key `bae` on. -/
theorem compact_faithful_bar :
    ∃ file s', writeCompact barPostings = .ok file ∧
      (SearchReader.mk [] file 0 0 false 0 0 false 0 0).readIndexHeader = .ok s' ∧
      ∀ scratch : SearchScratch, scratch.Sized →
        (newSearchPostingIterator scratch).collect s' 9 = .ok barPostings ∧
        ∃ (i : SearchPostingIterator) (yielded : List SearchPosting),
          postingsFrom s' [98, 97, 101] scratch = (.ok (), i) ∧
          (∀ n, i.collect s' n = .ok (yielded.take n)) ∧
          yielded.dropWhile (fun p => decide (p.term < [98, 97, 101])) =
            [⟨[98, 97, 114], 5, 20⟩, ⟨[98, 97, 114], 300, 7⟩] := by
  obtain ⟨file, written, reads⟩ := compact_faithful barPostings indexable_bar
  have small : file.length < 2 ^ 63 := by
    rw [writeCompact_eq indexable_bar.accepted indexable_bar.sorted] at written
    rw [← Except.ok.inj written]
    decide +kernel
  obtain ⟨s', opened, scans⟩ := reads small (SearchReader.mk [] file 0 0 false 0 0 false 0 0) rfl
  refine ⟨file, s', written, opened, fun scratch sized => ?_⟩
  obtain ⟨all, seek⟩ := scans scratch sized
  obtain ⟨i, yielded, sought, found, rest⟩ := seek [98, 97, 101]
  refine ⟨all 9, i, yielded, sought, found, rest.trans ?_⟩
  decide +kernel

end OsmMini.Mobile

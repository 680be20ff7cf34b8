import OsmMini.Mobile.Search.CompactScan

/-!
# The postings of an index

An index is compact or a plain table of entries. Of either kind a search seeks a key and then
takes one posting after the other: the iterator lists the postings that are left (`Lists`).
The postings before those come before the key (`Posts.seek`).
-/

set_option autoImplicit false

namespace OsmMini.Mobile

open OsmMini.Foundations OsmMini.Foundations.LittleEndian

/-- The calls from an iterator on yield the postings, one after the other, and then end. -/
inductive Lists (s : SearchReader) : SearchPostingIterator → List SearchPosting → Prop
  | done {i i' : SearchPostingIterator} (run : i.next s = (.ok none, i')) : Lists s i []
  | more {i i' : SearchPostingIterator} {p : SearchPosting} {rest : List SearchPosting}
      (run : i.next s = (.ok (some p), i')) (later : Lists s i' rest) : Lists s i (p :: rest)

/-- A compact index lists what is left of its postings. -/
theorem Standing.lists {postings : List SearchPosting} {s : SearchReader}
    (indexes : Indexes postings s) {rest : List SearchPosting} :
    ∀ {i : SearchPostingIterator}, Standing postings s i rest → Lists s i rest := by
  induction rest with
  | nil =>
      intro i standing
      rcases next_spec indexes standing with ⟨-, run⟩ | ⟨p, rest', i', some, -, -⟩
      · exact .done run
      · cases some
  | cons p rest ih =>
      intro i standing
      rcases next_spec indexes standing with ⟨none, -⟩ | ⟨q, rest', i', some, run, standing'⟩
      · cases none
      · obtain ⟨rfl, rfl⟩ := List.cons.inj some
        exact .more run (ih standing')

/-! ## Tables -/

/-- The posting of an entry of a table. -/
def entryPosting (entry : List UInt8) : SearchPosting where
  term := searchTerm (entry.take searchKeyBytes)
  offset := peek 8 entry 96
  length := peek 4 entry 104

/-- An entry of a table. -/
def tableEntry (s : SearchReader) (k : ℕ) : List UInt8 :=
  portion s.index (k * searchIndexBytes) searchIndexBytes

/-- The reader was opened on a table of entries in the order of their postings. -/
structure Tabulates (postings : List SearchPosting) (s : SearchReader) : Prop where
  raw : s.compact = false
  length : s.index.length = s.count * searchIndexBytes
  content : postings = (List.range s.count).map fun k => entryPosting (tableEntry s k)
  sorted : postings.Pairwise SearchPosting.le

section Table

variable {postings : List SearchPosting} {s : SearchReader} {i : SearchPostingIterator}

theorem Tabulates.count (tabulates : Tabulates postings s) : postings.length = s.count := by
  rw [tabulates.content, List.length_map, List.length_range]

theorem Tabulates.inside (tabulates : Tabulates postings s) {k n : ℕ} (few : k + n ≤ s.count) :
    k * searchIndexBytes + n * searchIndexBytes ≤ s.index.length := by
  rw [tabulates.length, ← Nat.add_mul]
  exact Nat.mul_le_mul_right _ few

/-- The postings from a position on. -/
theorem Tabulates.drop (tabulates : Tabulates postings s) {k : ℕ} (inside : k < s.count) :
    postings.drop k = entryPosting (tableEntry s k) :: postings.drop (k + 1) := by
  have here : k < postings.length := tabulates.count.symm ▸ inside
  rw [List.drop_eq_getElem_cons here]
  congr 1
  simp only [tabulates.content, List.getElem_map, List.getElem_range]

/-- The front of a batch is its first entry. -/
theorem entryPosting_batch {k n : ℕ} (some : 0 < n) :
    entryPosting (portion s.index (k * searchIndexBytes) (n * searchIndexBytes)) =
      entryPosting (tableEntry s k) ∧
    (portion s.index (k * searchIndexBytes) (n * searchIndexBytes)).drop searchIndexBytes =
      portion s.index ((k + 1) * searchIndexBytes) ((n - 1) * searchIndexBytes) := by
  have indexBytes : searchIndexBytes = 112 := rfl
  have keyBytes : searchKeyBytes = 96 := rfl
  constructor
  · have one : 0 + searchIndexBytes ≤ n * searchIndexBytes := by
      rw [Nat.zero_add]
      exact Nat.le_mul_of_pos_left _ some
    have cut := @portion_portion _ s.index (k * searchIndexBytes) _ _ _ one
    rw [Nat.add_zero, portion_zero] at cut
    rw [tableEntry, ← cut, entryPosting, entryPosting, peek_take (by omega), peek_take (by omega),
      List.take_take, min_eq_left (by omega)]
  · rw [portion, portion, List.drop_take, List.drop_drop, Nat.succ_mul, Nat.sub_mul, Nat.one_mul]

/-- The iterator stands before an entry of the table, with the entries of a batch at hand. -/
structure AtEntry (s : SearchReader) (i : SearchPostingIterator) : Prop where
  sized : i.scratch.Sized
  batch : ∃ n, i.position + n ≤ s.count ∧
    i.batch = portion s.index (i.position * searchIndexBytes) (n * searchIndexBytes)

/-- **The next call yields the next entry**, or ends when there is none. -/
theorem nextEntry_spec (tabulates : Tabulates postings s) (here : AtEntry s i) :
    (i.position = s.count ∧ i.next s = (.ok none, i)) ∨
    ∃ i', i.position < s.count ∧ i'.position = i.position + 1 ∧
      i.next s = (.ok (some (entryPosting (tableEntry s i.position))), i') ∧ AtEntry s i' := by
  obtain ⟨n, few, batch⟩ := here.batch
  have indexBytes : searchIndexBytes = 112 := rfl
  have length : i.batch.length = n * searchIndexBytes := by
    rw [batch, portion_length (tabulates.inside few)]
  rw [SearchPostingIterator.next, tabulates.raw, if_neg Bool.false_ne_true, nextEntry]
  dsimp only
  by_cases empty : i.batch.length = 0
  · rw [if_pos empty]
    by_cases last : i.position = s.count
    · exact .inl ⟨last, if_pos last⟩
    · have room : i.scratch.postings.length / searchIndexBytes = 64 := by
        rw [here.sized.postings]
        rfl
      rw [if_neg last, room]
      set m := min 64 (s.count - i.position) with reach
      have range := tabulates.inside (show i.position + m ≤ s.count by omega)
      obtain ⟨first, later⟩ := @entryPosting_batch s i.position m (by omega)
      obtain ⟨-, front⟩ := @shows_overwrite _ i.scratch.postings _ _ _ range
      rw [readAt_ok range]
      set filled := overwrite i.scratch.postings (portion s.index
        (i.position * searchIndexBytes) (m * searchIndexBytes)) with fill
      refine .inr ⟨
        { i with
          scratch := { i.scratch with postings := filled }
          batch := (filled.take (m * searchIndexBytes)).drop searchIndexBytes
          position := i.position + 1 }, by omega, rfl, ?_, ⟨⟨?_, here.sized.block, here.sized.data,
        here.sized.encoded, here.sized.directory⟩, m - 1, ?_, ?_⟩⟩
      · dsimp only
        rw [front, ← first]
        rfl
      · dsimp only
        rw [overwrite_length]
        · exact here.sized.postings
        · rw [portion_length range, here.sized.postings]
          exact Nat.mul_le_mul_right _ (min_le_left ..)
      · dsimp only
        omega
      · dsimp only
        rw [front, later]
  · rw [if_neg empty]
    have some : 0 < n := by
      rw [length] at empty
      exact Nat.pos_of_ne_zero fun none => empty (by rw [none, Nat.zero_mul])
    obtain ⟨first, later⟩ := @entryPosting_batch s i.position n some
    refine .inr ⟨
      { i with
        batch := i.batch.drop searchIndexBytes
        position := i.position + 1 }, by omega, rfl, ?_, ⟨here.sized, n - 1, ?_, ?_⟩⟩
    · rw [← first, ← batch]
      rfl
    · dsimp only
      omega
    · dsimp only
      rw [batch, later]

/-- A table lists what is left of its postings. -/
theorem AtEntry.lists (tabulates : Tabulates postings s) :
    ∀ {i : SearchPostingIterator}, AtEntry s i → Lists s i (postings.drop i.position) := by
  have run : ∀ left (i : SearchPostingIterator), s.count - i.position = left → AtEntry s i →
      Lists s i (postings.drop i.position) := by
    intro left
    induction left with
    | zero =>
        intro i none here
        rcases nextEntry_spec tabulates here with ⟨last, ended⟩ | ⟨i', some, -, -, -⟩
        · have all := tabulates.count
          rw [List.drop_eq_nil_of_le (by omega)]
          exact .done ended
        · omega
    | succ left ih =>
        intro i some here
        rcases nextEntry_spec tabulates here with ⟨last, -⟩ | ⟨i', inside, next, yielded, here'⟩
        · omega
        · have later := ih i' (by omega) here'
          rw [next] at later
          rw [tabulates.drop inside]
          exact .more yielded later
  exact fun {i} here => run _ i rfl here

/-! ### Seeking in a table -/

/-- The window of the iterator shows entries of the table; no batch was read yet. -/
structure Looking (s : SearchReader) (state : SearchPostingIterator × Except String Unit) :
    Prop where
  sized : state.1.scratch.Sized
  window : Shows state.1.scratch.postings s.index (state.1.windowAt * searchIndexBytes)
    (state.1.windowSize * searchIndexBytes)
  batch : state.1.batch = []
  outcome : state.2 = .ok ()

/-- A probe compares the term of an entry with the key. -/
theorem notBefore_table (tabulates : Tabulates postings s) (key : List UInt8) {k : ℕ}
    (inside : k < s.count) {state : SearchPostingIterator × Except String Unit}
    (looking : Looking s state) :
    (notBefore s key k state).1 = decide (key ≤ (entryPosting (tableEntry s k)).term) ∧
      Looking s (notBefore s key k state).2 := by
  have indexBytes : searchIndexBytes = 112 := rfl
  have shown : ∀ {i : SearchPostingIterator}, Shows i.scratch.postings s.index
      (i.windowAt * searchIndexBytes) (i.windowSize * searchIndexBytes) → i.windowAt ≤ k →
      k + 1 ≤ i.windowAt + i.windowSize →
      portion i.scratch.postings ((k - i.windowAt) * searchIndexBytes) searchIndexBytes =
        tableEntry s k := by
    intro i window low high
    have there := @Shows.portion _ _ _ _ _ _ searchIndexBytes window
      (Nat.mul_le_mul_right _ low) (by
        rw [← Nat.add_mul, ← Nat.succ_mul]
        exact Nat.mul_le_mul_right _ high)
    rwa [← Nat.sub_mul] at there
  obtain ⟨i, outcome⟩ := state
  rw [notBefore, indexEntry]
  simp only [tabulates.raw, Bool.false_eq_true, if_false]
  by_cases missing : k < i.windowAt ∨ i.windowAt + i.windowSize ≤ k
  · rw [if_pos missing]
    set n := min 64 (s.count - k / 64 * 64) with reach
    have range := tabulates.inside (show k / 64 * 64 + n ≤ s.count by omega)
    rw [Nat.zero_add, readAt_ok range]
    dsimp only
    have window := @shows_overwrite _ i.scratch.postings _ _ _ range
    have entry := @shown
      { i with
        scratch := { i.scratch with
          postings := overwrite i.scratch.postings
            (portion s.index (k / 64 * 64 * searchIndexBytes) (n * searchIndexBytes)) }
        windowAt := k / 64 * 64
        windowSize := n } window (by dsimp only; omega) (by dsimp only; omega)
    dsimp only at entry
    rw [entry]
    refine ⟨rfl, ⟨?_, looking.sized.block, looking.sized.data, looking.sized.encoded,
      looking.sized.directory⟩, window, looking.batch, looking.outcome⟩
    dsimp only
    rw [overwrite_length]
    · exact looking.sized.postings
    · rw [portion_length range, looking.sized.postings]
      exact Nat.mul_le_mul_right _ (min_le_left ..)
  · rw [if_neg missing, shown looking.window (by dsimp only; omega) (by dsimp only; omega)]
    exact ⟨rfl, looking⟩

/-- **Seeking a key in a table** leaves the iterator before all postings that are not before
it. -/
theorem postingsFrom_table (tabulates : Tabulates postings s) (key : List UInt8)
    {scratch : SearchScratch} (sized : scratch.Sized) :
    ∃ i before rest, postingsFrom s key scratch = (.ok (), i) ∧ Lists s i rest ∧
      postings = before ++ rest ∧ ∀ p ∈ before, p.term < key := by
  obtain ⟨found, looking⟩ := searchS_eq (n := s.count) (f := notBefore s key)
    (g := fun k => decide (key ≤ (entryPosting (tableEntry s k)).term))
    (fun k inside state looking => notBefore_table tabulates key inside looking)
    (s := (newSearchPostingIterator scratch, .ok ()))
    ⟨sized, by simpa [newSearchPostingIterator] using shows_nothing _ _, rfl, rfl⟩
  have limit := search_le s.count
    fun k => decide (key ≤ (entryPosting (tableEntry s k)).term)
  have previous := search_before (n := s.count)
    (f := fun k => decide (key ≤ (entryPosting (tableEntry s k)).term))
  rw [← found] at limit previous
  rw [postingsFrom]
  simp only [tabulates.raw, Bool.false_eq_true, if_false]
  generalize searchS s.count (notBefore s key) (newSearchPostingIterator scratch, .ok ()) =
    searched at looking limit previous
  obtain ⟨index, i, outcome⟩ := searched
  obtain rfl : outcome = .ok () := looking.outcome
  dsimp only at limit previous ⊢
  refine ⟨_, postings.take index, _, rfl, AtEntry.lists tabulates ⟨looking.sized, 0, limit, ?_⟩,
    (List.take_append_drop ..).symm, fun p member => ?_⟩
  · dsimp only
    rw [looking.batch, Nat.zero_mul, portion, List.take_zero]
  · by_cases some : 0 < index
    · have less := of_decide_eq_false (previous some)
      have split : postings.take index = postings.take (index - 1) ++
          [entryPosting (tableEntry s (index - 1))] := by
        have here := tabulates.drop (show index - 1 < s.count by omega)
        have succ : index = index - 1 + 1 := by omega
        conv_lhs => rw [succ, List.take_add, here]
        rfl
      have sorted := tabulates.sorted.sublist (List.take_sublist index postings)
      rw [split] at sorted member
      refine lt_of_le_of_lt ?_ (not_le.mp less)
      rcases List.mem_append.mp member with early | last
      · exact ((List.pairwise_append.mp sorted).2.2 p early _ List.mem_cons_self).term
      · rw [List.mem_singleton.mp last]
    · obtain rfl : index = 0 := by omega
      exact absurd member List.not_mem_nil

end Table

/-! ## Either kind of index -/

/-- The reader was opened on the postings, in a compact index or a table. -/
def Posts (postings : List SearchPosting) (s : SearchReader) : Prop :=
  Indexes postings s ∨ Tabulates postings s

section Posts

variable {postings : List SearchPosting} {s : SearchReader}

theorem Posts.sorted (posts : Posts postings s) : postings.Pairwise SearchPosting.le := by
  rcases posts with indexes | tabulates
  · exact indexes.indexable.sorted
  · exact tabulates.sorted

theorem Posts.count (posts : Posts postings s) : s.count = postings.length := by
  rcases posts with indexes | tabulates
  · exact indexes.count
  · exact tabulates.count.symm

/-- **A search from a key** lists the postings but some that come before the key. -/
theorem Posts.seek (posts : Posts postings s) (key : List UInt8) {scratch : SearchScratch}
    (sized : scratch.Sized) :
    ∃ i before rest, postingsFrom s key scratch = (.ok (), i) ∧ Lists s i rest ∧
      postings = before ++ rest ∧ ∀ p ∈ before, p.term < key := by
  rcases posts with indexes | tabulates
  · obtain ⟨i, before, rest, run, standing, split, less⟩ := postingsFrom_spec indexes key sized
    exact ⟨i, before, rest, run, standing.lists indexes, split, less⟩
  · exact postingsFrom_table tabulates key sized

end Posts

end OsmMini.Mobile

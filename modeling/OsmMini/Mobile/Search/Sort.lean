import OsmMini.Foundations.MergePasses
import OsmMini.Foundations.MergeRuns
import OsmMini.Foundations.SortSlice
import OsmMini.Mobile.Search.CompactWritten

/-!
# Sorting the postings of an index

The builder of an index keeps postings in memory up to a limit. Then it sorts them and
writes them to a temporary run. At the end the runs are merged, at most sixteen at once
and in several passes when there are more, and the index is written.

However many runs there were, the index is that of the added postings in order
(`SearchIndexBuilder.finish_spec`).
-/

set_option autoImplicit false

namespace OsmMini.Mobile

open OsmMini.Foundations OsmMini.Foundations.LittleEndian OsmMini.Foundations.MergeRuns

/-- How many postings are sorted in memory. -/
def searchSortPostings : ℕ := 16384
/-- How many runs are merged at once. -/
def searchMergeRuns : ℕ := 16

/-- By term, then by offset. -/
def postingKey (p : SearchPosting) : List UInt8 ×ₗ ℕ := toLex (p.term, p.offset)

def sortSearchPostings (postings : List SearchPosting) : List SearchPosting :=
  sortSlice (fun p q => if p.term ≠ q.term then decide (p.term < q.term)
    else decide (p.offset < q.offset)) postings

/-! ## Temporary runs -/

/-- A posting in a temporary run. -/
def runPosting (p : SearchPosting) : List UInt8 :=
  UInt8.ofNat p.term.length :: (p.term ++ (bytesOf 8 p.offset ++ bytesOf 4 p.length))

/-- The next posting of a temporary run, and the rest of the run. -/
def advanceRun : List UInt8 → Except String (Option (SearchPosting × List UInt8))
  | [] => .ok none
  | n :: rest =>
    let n := n.toNat
    if n = 0 ∨ searchKeyBytes < n then .error "invalid temporary search key length"
    else if rest.length < n + 12 then .error "read temporary search posting"
    else .ok (some (⟨rest.take n, peek 8 rest n, peek 4 rest (n + 8)⟩, rest.drop (n + 12)))

/-- Merge runs. Every posting takes some bytes of a run. -/
def mergeSearchPostings (runs : List (List UInt8)) : Except String (List SearchPosting) :=
  mergeRuns postingKey advanceRun runs.flatten.length runs

/-! ## The builder -/

structure SearchIndexBuilder where
  postings : List SearchPosting
  runs : List (List UInt8)

namespace SearchIndexBuilder

/-- Sort the postings in memory and write them to a run. -/
def flush (b : SearchIndexBuilder) : SearchIndexBuilder :=
  if b.postings.length = 0 then b
  else
    { postings := []
      runs := b.runs ++ [(sortSearchPostings b.postings).flatMap runPosting] }

def add (b : SearchIndexBuilder) (p : SearchPosting) : SearchIndexBuilder :=
  let b := { b with postings := b.postings ++ [p] }
  if b.postings.length < searchSortPostings then b else b.flush

/-- Merge each group of runs to one run. -/
def mergePass (runs : List (List UInt8)) : Except String (List (List UInt8)) :=
  (blocksOf searchMergeRuns runs).mapM fun group =>
    match mergeSearchPostings group with
    | .error err => .error err
    | .ok postings => .ok (postings.flatMap runPosting)

/-- Merge passes until few enough runs are left. Each pass leaves fewer runs. -/
def mergePasses : ℕ → List (List UInt8) → Except String (List (List UInt8))
  | 0, runs => .ok runs
  | passes + 1, runs =>
    if searchMergeRuns < runs.length then
      match mergePass runs with
      | .error err => .error err
      | .ok runs => mergePasses passes runs
    else .ok runs

/-- Write the index. -/
def finish (b : SearchIndexBuilder) : Except String (List UInt8) :=
  if b.runs.length = 0 then writeCompact (sortSearchPostings b.postings)
  else
    let runs := b.flush.runs
    match mergePasses runs.length runs with
    | .error err => .error err
    | .ok runs =>
      match mergeSearchPostings runs with
      | .error err => .error err
      | .ok postings => writeCompact postings

end SearchIndexBuilder

/-! ## Order -/

theorem postingKey_le_iff {p q : SearchPosting} : postingKey p ≤ postingKey q ↔ p.le q :=
  Prod.Lex.toLex_le_toLex

theorem sortSearchPostings_perm (postings : List SearchPosting) :
    (sortSearchPostings postings).Perm postings :=
  sortSlice_perm _ postings

theorem sortSearchPostings_sorted (postings : List SearchPosting) :
    (sortSearchPostings postings).Pairwise fun p q => postingKey p ≤ postingKey q := by
  refine @sortSlice_sorted _ _ _ _ postingKey (fun p q => ?_) postings
  rw [postingKey, postingKey, Prod.Lex.toLex_lt_toLex]
  by_cases same : p.term = q.term
  · simp [same]
  · simp [same]

/-! ## Runs are read back -/

/-- A posting that a temporary run can hold. -/
structure SearchPosting.Storable (p : SearchPosting) : Prop where
  accepted : p.Accepted
  offset : p.offset < 2 ^ 64

theorem advanceRun_runPosting {p : SearchPosting} (storable : p.Storable) (rest : List UInt8) :
    advanceRun (runPosting p ++ rest) = .ok (some (p, rest)) := by
  obtain ⟨⟨some, short, -, small⟩, offset⟩ := storable
  have byte : (UInt8.ofNat p.term.length).toNat = p.term.length := by
    rw [UInt8.toNat_ofNat']
    exact Nat.mod_eq_of_lt (by unfold searchKeyBytes at short; omega)
  have length : p.length < 256 ^ 4 := by
    unfold maxSearchRecordBytes at small
    omega
  rw [runPosting, List.cons_append, advanceRun]
  rw [byte, if_neg (by omega), if_neg (by simp; omega), List.append_assoc, List.append_assoc,
    List.take_left' rfl, peek_field _ _ (by omega) rfl]
  have third : peek 4 (p.term ++ (bytesOf 8 p.offset ++ (bytesOf 4 p.length ++ rest)))
      (p.term.length + 8) = p.length := by
    rw [← List.append_assoc]
    exact peek_field _ _ length (by simp)
  have left : (p.term ++ (bytesOf 8 p.offset ++ (bytesOf 4 p.length ++ rest))).drop
      (p.term.length + 12) = rest := by
    rw [← List.append_assoc, ← List.append_assoc]
    exact List.drop_left' (by simp)
  rw [third, left]

/-- **A run yields the postings that were written.** -/
theorem yields_run : ∀ {postings : List SearchPosting}, (∀ p ∈ postings, p.Storable) →
    Yields advanceRun (postings.flatMap runPosting) postings
  | [], _ => rfl
  | p :: postings, storable => by
      rw [List.flatMap_cons]
      exact ⟨_, advanceRun_runPosting (storable p (List.mem_cons_self ..)) _,
        yields_run fun q member => storable q (List.mem_cons_of_mem _ member)⟩

theorem length_le_run (postings : List SearchPosting) :
    postings.length ≤ (postings.flatMap runPosting).length := by
  induction postings with
  | nil => exact le_refl _
  | cons p postings ih =>
      rw [List.flatMap_cons, List.length_append, List.length_cons, runPosting, List.length_cons]
      omega

/-! ## Merging -/

/-- The file is a run of postings in order. -/
def SoundRun (run : List UInt8) : Prop :=
  ∃ postings : List SearchPosting, (∀ p ∈ postings, p.Storable) ∧
    (postings.Pairwise fun p q => postingKey p ≤ postingKey q) ∧ run = postings.flatMap runPosting

/-- The postings of runs. -/
noncomputable def runPostings (runs : List (List UInt8)) : List SearchPosting :=
  runs.flatMap (contents advanceRun)

theorem SoundRun.sorted {run : List UInt8} (sound : SoundRun run) :
    MergeRuns.Sorted postingKey advanceRun run := by
  obtain ⟨postings, storable, inOrder, rfl⟩ := sound
  exact ⟨postings, yields_run storable, inOrder⟩

theorem contents_run {postings : List SearchPosting} (storable : ∀ p ∈ postings, p.Storable) :
    contents advanceRun (postings.flatMap runPosting) = postings :=
  (yields_run storable).contents_eq

theorem soundRun_flatMap {postings : List SearchPosting} (storable : ∀ p ∈ postings, p.Storable)
    (inOrder : postings.Pairwise fun p q => postingKey p ≤ postingKey q) :
    SoundRun (postings.flatMap runPosting) :=
  ⟨postings, storable, inOrder, rfl⟩

theorem storable_of_sound {runs : List (List UInt8)} (sound : ∀ run ∈ runs, SoundRun run) :
    ∀ p ∈ runPostings runs, p.Storable := by
  intro p member
  obtain ⟨run, inRuns, inside⟩ := List.mem_flatMap.mp member
  obtain ⟨postings, storable, -, rfl⟩ := sound run inRuns
  rw [contents_run storable] at inside
  exact storable p inside

theorem runPostings_length {runs : List (List UInt8)} (sound : ∀ run ∈ runs, SoundRun run) :
    (runPostings runs).length ≤ runs.flatten.length := by
  induction runs with
  | nil => exact le_refl _
  | cons run runs ih =>
      obtain ⟨postings, storable, -, rfl⟩ := sound run (List.mem_cons_self ..)
      have here := length_le_run postings
      have later := ih fun run member => sound run (List.mem_cons_of_mem _ member)
      rw [runPostings, List.flatMap_cons, contents_run storable, List.flatten_cons,
        List.length_append, List.length_append]
      exact Nat.add_le_add here later

/-- **Merging runs** delivers their postings in order. -/
theorem mergeSearchPostings_spec {runs : List (List UInt8)} (sound : ∀ run ∈ runs, SoundRun run) :
    ∃ merged, mergeSearchPostings runs = .ok merged ∧ merged.Perm (runPostings runs) ∧
      merged.Pairwise fun p q => postingKey p ≤ postingKey q :=
  mergeRuns_spec (fun run member => (sound run member).sorted) (runPostings_length sound)

namespace SearchIndexBuilder

/-- What a pass makes of a group. -/
def mergeGroup (group : List (List UInt8)) : Except String (List UInt8) :=
  match mergeSearchPostings group with
  | .error err => .error err
  | .ok postings => .ok (postings.flatMap runPosting)

theorem mergePass_eq (runs : List (List UInt8)) :
    mergePass runs = (blocksOf searchMergeRuns runs).mapM mergeGroup := rfl

/-- Merging a group to one run keeps its postings. -/
theorem mergeGroup_merges :
    Merges mergeGroup SoundRun fun runs runs' => (runPostings runs).Perm (runPostings runs') where
  refl runs := List.Perm.refl _
  trans first second := first.trans second
  append {run group runs rest} here later := by
    rw [← List.singleton_append, runPostings, runPostings, List.flatMap_append,
      List.flatMap_append]
    exact here.append later
  merge {group} sound := by
    obtain ⟨merged, done, perm, inOrder⟩ := mergeSearchPostings_spec sound
    have storable : ∀ p ∈ merged, p.Storable :=
      fun p member => storable_of_sound sound p (perm.subset member)
    refine ⟨merged.flatMap runPosting, ?_, soundRun_flatMap storable inOrder, ?_⟩
    · rw [mergeGroup, done]
    · rw [runPostings, List.flatMap_singleton, contents_run storable]
      exact perm

theorem mergePasses_eq (n : ℕ) : ∀ runs : List (List UInt8),
    mergePasses n runs = passes searchMergeRuns mergeGroup n runs := by
  induction n with
  | zero => exact fun _ => rfl
  | succ n ih =>
      intro runs
      rw [mergePasses, passes, mergePass_eq]
      by_cases many : searchMergeRuns < runs.length
      · rw [if_pos many, if_pos many]
        cases (blocksOf searchMergeRuns runs).mapM mergeGroup with
        | error err => rfl
        | ok merged => exact ih merged
      · rw [if_neg many, if_neg many]

/-- **The merge passes keep the postings.** -/
theorem mergePasses_spec {n : ℕ} {runs : List (List UInt8)} (sound : ∀ run ∈ runs, SoundRun run) :
    ∃ next, mergePasses n runs = .ok next ∧ (∀ run ∈ next, SoundRun run) ∧
      (runPostings next).Perm (runPostings runs) := by
  rw [mergePasses_eq]
  obtain ⟨next, done, soundNext, same, -⟩ :=
    @Merges.passes_spec _ _ _ _ _ mergeGroup_merges searchMergeRuns (by decide) n _ sound
  exact ⟨next, done, soundNext, same⟩

/-! ## The builder keeps what was added -/

/-- The builder holds the postings that were added, in its runs and in memory. -/
structure Keeps (b : SearchIndexBuilder) (added : List SearchPosting) : Prop where
  sound : ∀ run ∈ b.runs, SoundRun run
  storable : ∀ p ∈ b.postings, p.Storable
  all : (runPostings b.runs ++ b.postings).Perm added

theorem keeps_new : Keeps ⟨[], []⟩ [] :=
  ⟨fun _ none => absurd none List.not_mem_nil, fun _ none => absurd none List.not_mem_nil,
    List.Perm.refl _⟩

theorem Keeps.flush {b : SearchIndexBuilder} {added : List SearchPosting} (keeps : Keeps b added) :
    Keeps b.flush added ∧ b.flush.postings = [] := by
  unfold SearchIndexBuilder.flush
  split_ifs with empty
  · exact ⟨keeps, List.eq_nil_of_length_eq_zero empty⟩
  · have perm := sortSearchPostings_perm b.postings
    have storable : ∀ p ∈ sortSearchPostings b.postings, p.Storable :=
      fun p member => keeps.storable p (perm.subset member)
    refine ⟨⟨fun run member => ?_, fun _ none => absurd none List.not_mem_nil, ?_⟩, rfl⟩
    · rcases List.mem_append.mp member with old | new
      · exact keeps.sound run old
      · rw [List.mem_singleton.mp new]
        exact soundRun_flatMap storable (sortSearchPostings_sorted _)
    · refine List.Perm.trans ?_ keeps.all
      rw [List.append_nil, runPostings, List.flatMap_append, List.flatMap_singleton,
        contents_run storable]
      exact perm.append_left _

theorem Keeps.add {b : SearchIndexBuilder} {added : List SearchPosting} (keeps : Keeps b added)
    {p : SearchPosting} (storable : p.Storable) : Keeps (b.add p) (added ++ [p]) := by
  have more : Keeps { b with postings := b.postings ++ [p] } (added ++ [p]) := by
    refine ⟨keeps.sound, fun q member => ?_, ?_⟩
    · rcases List.mem_append.mp member with old | new
      · exact keeps.storable q old
      · rw [List.mem_singleton.mp new]
        exact storable
    · rw [← List.append_assoc]
      exact keeps.all.append_right _
  unfold SearchIndexBuilder.add
  dsimp only
  split_ifs
  · exact more
  · exact more.flush.1

theorem Keeps.adds : ∀ {postings added : List SearchPosting} {b : SearchIndexBuilder},
    Keeps b added → (∀ p ∈ postings, p.Storable) →
    Keeps (postings.foldl SearchIndexBuilder.add b) (added ++ postings)
  | [], added, b, keeps, _ => by
      rw [List.append_nil]
      exact keeps
  | p :: postings, added, b, keeps, storable => by
      rw [List.foldl_cons, ← List.singleton_append, ← List.append_assoc]
      exact (keeps.add (storable p (List.mem_cons_self ..))).adds
        fun q member => storable q (List.mem_cons_of_mem _ member)

/-- **The index is that of the added postings in order**, however many runs there were. -/
theorem finish_spec {postings : List SearchPosting} (storable : ∀ p ∈ postings, p.Storable) :
    ∃ sorted, (postings.foldl add ⟨[], []⟩).finish = writeCompact sorted ∧
      sorted.Perm postings ∧ sorted.Pairwise SearchPosting.le := by
  have keeps := keeps_new.adds storable
  rw [List.nil_append] at keeps
  generalize postings.foldl add ⟨[], []⟩ = b at keeps
  have inOrder : ∀ {l : List SearchPosting}, (l.Pairwise fun p q => postingKey p ≤ postingKey q) →
      l.Pairwise SearchPosting.le := fun sorted => sorted.imp postingKey_le_iff.mp
  rw [finish]
  split_ifs with none
  · have single := keeps.all
    rw [List.eq_nil_of_length_eq_zero none] at single
    exact ⟨_, rfl, (sortSearchPostings_perm _).trans single, inOrder (sortSearchPostings_sorted _)⟩
  · obtain ⟨flushed, empty⟩ := keeps.flush
    have all := flushed.all
    rw [empty, List.append_nil] at all
    obtain ⟨runs, run, sound, same⟩ := @mergePasses_spec b.flush.runs.length _ flushed.sound
    obtain ⟨merged, done, perm, sorted⟩ := mergeSearchPostings_spec sound
    dsimp only
    rw [run]
    dsimp only
    rw [done]
    exact ⟨merged, rfl, (perm.trans same).trans all, inOrder sorted⟩

end SearchIndexBuilder

end OsmMini.Mobile

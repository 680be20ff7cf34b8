import OsmMini.Mobile.Search.NodesRead
import OsmMini.Mobile.Search.Sort

/-!
# Sorting the ids of the needed nodes

The ids of the nodes that a catalog needs are kept in memory up to a limit. Then they are
sorted, repeats are left out, and the ids are written to a temporary run. At the end the runs
are merged, in several passes when there are many, and an id is passed on only when it differs
from the one before it.

Whatever was added in whatever portions, the table that is made holds each id once and in order
(`SearchNodeBuilder.finish_table`). Together with the postings of an index this says that no
sort loses an element (`externalSorts_lossless`).
-/

set_option autoImplicit false

namespace OsmMini.Mobile

open OsmMini.Foundations OsmMini.Foundations.LittleEndian OsmMini.Foundations.MergeRuns

/-- How many ids are sorted in memory. -/
def searchNodeSortIDs : ℕ := 131072

/-- Each id unless it is the one before. -/
def withoutRepeats (ids : List Int64) : List Int64 := ids.destutter (· ≠ ·)

/-- The ids in order, each once. -/
def sortedIDs (ids : List Int64) : List Int64 :=
  withoutRepeats (sortSlice (fun a b => decide (a < b)) ids)

/-- The next id of a temporary run, and the rest of the run. -/
def advanceNodeRun : List UInt8 → Except String (Option (Int64 × List UInt8))
  | [] => .ok none
  | data => if data.length < 8 then .error "unexpected EOF" else .ok (some (decodeID data, data.drop 8))

/-- Merge runs. An id is passed on unless it is the one before. -/
def mergeSearchNodeIDs (runs : List (List UInt8)) : Except String (List Int64) :=
  match mergeRuns id advanceNodeRun runs.flatten.length runs with
  | .error err => .error err
  | .ok ids => .ok (withoutRepeats ids)

/-- Merge a group of runs to one run. -/
def mergeNodeGroup (group : List (List UInt8)) : Except String (List UInt8) :=
  match mergeSearchNodeIDs group with
  | .error err => .error err
  | .ok ids => .ok (ids.flatMap encodeID)

/-! ## The builder -/

/-- The builder of the table. Between two portions there is room for another id. -/
structure SearchNodeBuilder where
  ids : List Int64
  runs : List (List UInt8)
  room : ids.length < searchNodeSortIDs

namespace SearchNodeBuilder

def new : SearchNodeBuilder := ⟨[], [], Nat.zero_lt_succ _⟩

/-- Sort the ids in memory and write them to a run. -/
def flush (ids : List Int64) (runs : List (List UInt8)) : List (List UInt8) :=
  if ids.length = 0 then runs else runs ++ [(sortedIDs ids).flatMap encodeID]

/-- Add ids that the memory has room for, and flush when it is full. -/
def addFitting (b : SearchNodeBuilder) (ids : List Int64) : SearchNodeBuilder :=
  if room : (b.ids ++ ids).length < searchNodeSortIDs then ⟨b.ids ++ ids, b.runs, room⟩
  else ⟨[], flush (b.ids ++ ids) b.runs, Nat.zero_lt_succ _⟩

def add (b : SearchNodeBuilder) (ids : List Int64) : SearchNodeBuilder :=
  if _some : 0 < ids.length then
    let n := min ids.length (searchNodeSortIDs - b.ids.length)
    (b.addFitting (ids.take n)).add (ids.drop n)
  else b
termination_by ids.length
decreasing_by
  have room := b.room
  rw [List.length_drop]
  omega

/-- The table of the needed ids, or none when there are none. -/
def finish (b : SearchNodeBuilder) (mapped : Bool) : Except String (Option SearchNodeTable) :=
  if b.ids.length = 0 ∧ b.runs.length = 0 then .ok none
  else if b.runs.length = 0 then .ok (some (newSearchNodeTable (sortedIDs b.ids) mapped))
  else
    let runs := flush b.ids b.runs
    match passes searchMergeRuns mergeNodeGroup runs.length runs with
    | .error err => .error err
    | .ok runs =>
      match mergeSearchNodeIDs runs with
      | .error err => .error err
      | .ok ids => .ok (some (newSearchNodeTable ids mapped))

end SearchNodeBuilder

/-! ## Sorted ids -/

theorem sortedIDs_increasing (ids : List Int64) : (sortedIDs ids).Pairwise (· < ·) := by
  refine pairwise_destutter ?_
  exact @sortSlice_sorted _ _ _ _ id (fun a b => decide_eq_true_iff) ids

theorem mem_sortedIDs {ids : List Int64} {x : Int64} : x ∈ sortedIDs ids ↔ x ∈ ids := by
  rw [sortedIDs, withoutRepeats, mem_destutter_ne, mem_sortSlice]

/-! ## Runs are read back -/

theorem advanceNodeRun_encodeID (x : Int64) (rest : List UInt8) :
    advanceNodeRun (encodeID x ++ rest) = .ok (some (x, rest)) := by
  have length : (encodeID x ++ rest).length = 8 + rest.length := by
    rw [List.length_append, encodeID_length]
  have here : decodeID (encodeID x ++ rest) = x := by
    rw [decodeID, encodeID, peek_bytesOf x.toUInt64.toNat_lt, UInt64.ofNat_toNat,
      Int64.toInt64_toUInt64]
  cases data : encodeID x ++ rest with
  | nil =>
      rw [data, List.length_nil] at length
      omega
  | cons first tail =>
      rw [advanceNodeRun, ← data, if_neg (by omega), here, List.drop_left' (encodeID_length x)]
      intro none
      cases none

/-- **A run yields the ids that were written.** -/
theorem yields_ids (ids : List Int64) : Yields advanceNodeRun (ids.flatMap encodeID) ids := by
  induction ids with
  | nil => rfl
  | cons x ids ih =>
      rw [List.flatMap_cons]
      exact ⟨_, advanceNodeRun_encodeID x _, ih⟩

/-- The file is a run of ids in order. -/
def SoundNodeRun (run : List UInt8) : Prop :=
  ∃ ids : List Int64, ids.Pairwise (· < ·) ∧ run = ids.flatMap encodeID

/-- The id is in one of the runs. -/
def InRuns (runs : List (List UInt8)) (x : Int64) : Prop :=
  ∃ run ∈ runs, x ∈ contents advanceNodeRun run

theorem contents_ids (ids : List Int64) :
    contents advanceNodeRun (ids.flatMap encodeID) = ids :=
  (yields_ids ids).contents_eq

theorem inRuns_append {runs rest : List (List UInt8)} {x : Int64} :
    InRuns (runs ++ rest) x ↔ InRuns runs x ∨ InRuns rest x := by
  simp only [InRuns, List.mem_append, or_and_right, exists_or]

theorem inRuns_singleton {ids : List Int64} {x : Int64} :
    InRuns [ids.flatMap encodeID] x ↔ x ∈ ids := by
  simp only [InRuns, List.mem_singleton, exists_eq_left, contents_ids]

theorem contents_length_le {runs : List (List UInt8)} (sound : ∀ run ∈ runs, SoundNodeRun run) :
    (runs.flatMap (contents advanceNodeRun)).length ≤ runs.flatten.length := by
  induction runs with
  | nil => exact le_refl _
  | cons run runs ih =>
      obtain ⟨here, later⟩ := List.forall_mem_cons.mp sound
      obtain ⟨ids, -, rfl⟩ := here
      have rest := ih later
      have wide := idBytes_length ids
      rw [List.flatMap_cons, contents_ids, List.flatten_cons, List.length_append,
        List.length_append]
      omega

/-- **Merging runs** delivers each of their ids once and in order. -/
theorem mergeSearchNodeIDs_spec {runs : List (List UInt8)}
    (sound : ∀ run ∈ runs, SoundNodeRun run) : ∃ ids, mergeSearchNodeIDs runs = .ok ids ∧
      ids.Pairwise (· < ·) ∧ ∀ x, x ∈ ids ↔ InRuns runs x := by
  have sorted : ∀ run ∈ runs, MergeRuns.Sorted id advanceNodeRun run := by
    intro run member
    obtain ⟨ids, increasing, rfl⟩ := sound run member
    exact ⟨ids, yields_ids ids, increasing.imp le_of_lt⟩
  obtain ⟨merged, done, perm, inOrder⟩ := mergeRuns_spec sorted (contents_length_le sound)
  refine ⟨withoutRepeats merged, ?_, pairwise_destutter inOrder, fun x => ?_⟩
  · rw [mergeSearchNodeIDs, done]
  · rw [withoutRepeats, mem_destutter_ne, perm.mem_iff, List.mem_flatMap]
    exact Iff.rfl

/-- Merging a group keeps its ids. -/
theorem mergeNodeGroup_merges :
    Merges mergeNodeGroup SoundNodeRun fun runs runs' => ∀ x, InRuns runs x ↔ InRuns runs' x where
  refl _ _ := Iff.rfl
  trans first second x := (first x).trans (second x)
  append {run group runs rest} here later x := by
    rw [← List.singleton_append, inRuns_append, inRuns_append, here, later]
  merge {group} sound := by
    obtain ⟨ids, done, increasing, all⟩ := mergeSearchNodeIDs_spec sound
    refine ⟨ids.flatMap encodeID, ?_, ⟨ids, increasing, rfl⟩, fun x => ?_⟩
    · rw [mergeNodeGroup, done]
    · rw [inRuns_singleton, all]

namespace SearchNodeBuilder

/-! ## The builder keeps what was added -/

/-- The builder holds the ids that were added, in its runs and in memory. -/
structure Keeps (ids : List Int64) (runs : List (List UInt8)) (added : List Int64) : Prop where
  sound : ∀ run ∈ runs, SoundNodeRun run
  all : ∀ x, InRuns runs x ∨ x ∈ ids ↔ x ∈ added
  filled : runs ≠ [] → added ≠ []

theorem keeps_new : Keeps new.ids new.runs [] := by
  refine ⟨fun _ none => absurd none List.not_mem_nil, fun x => ?_, absurd rfl⟩
  constructor
  · rintro (⟨_, none, _⟩ | none)
    · exact absurd none List.not_mem_nil
    · exact none
  · exact .inr

theorem Keeps.flush {ids added : List Int64} {runs : List (List UInt8)}
    (keeps : Keeps ids runs added) : Keeps [] (flush ids runs) added := by
  rw [SearchNodeBuilder.flush]
  by_cases empty : ids.length = 0
  · obtain rfl := List.eq_nil_of_length_eq_zero empty
    rw [if_pos empty]
    exact keeps
  · rw [if_neg empty]
    refine ⟨fun run member => ?_, fun x => ?_, fun _ => ?_⟩
    · rcases List.mem_append.mp member with old | fresh
      · exact keeps.sound run old
      · exact ⟨sortedIDs ids, sortedIDs_increasing ids, List.mem_singleton.mp fresh⟩
    · rw [inRuns_append, inRuns_singleton, mem_sortedIDs, ← keeps.all]
      simp
    · obtain ⟨x, member⟩ := List.exists_mem_of_length_pos (Nat.pos_of_ne_zero empty)
      exact List.ne_nil_of_mem ((keeps.all x).mp (.inr member))

theorem Keeps.more {ids added : List Int64} {runs : List (List UInt8)}
    (keeps : Keeps ids runs added) (chunk : List Int64) :
    Keeps (ids ++ chunk) runs (added ++ chunk) := by
  refine ⟨keeps.sound, fun x => ?_, fun some both => ?_⟩
  · rw [List.mem_append, List.mem_append, ← keeps.all, or_assoc]
  · exact keeps.filled some (List.append_eq_nil_iff.mp both).1

theorem Keeps.addFitting {b : SearchNodeBuilder} {added : List Int64}
    (keeps : Keeps b.ids b.runs added) (chunk : List Int64) :
    Keeps (b.addFitting chunk).ids (b.addFitting chunk).runs (added ++ chunk) := by
  rw [SearchNodeBuilder.addFitting]
  split
  · exact keeps.more chunk
  · exact (keeps.more chunk).flush

theorem Keeps.add (b : SearchNodeBuilder) (ids : List Int64) : ∀ {added : List Int64},
    Keeps b.ids b.runs added → Keeps (b.add ids).ids (b.add ids).runs (added ++ ids) := by
  induction b, ids using SearchNodeBuilder.add.induct with
  | case1 b ids some n =>
      rename_i ih
      intro added keeps
      have whole := ih (keeps.addFitting (ids.take _))
      rw [List.append_assoc, List.take_append_drop] at whole
      rw [SearchNodeBuilder.add, dif_pos some]
      exact whole
  | case2 b ids none =>
      intro added keeps
      obtain rfl : ids = [] := List.length_eq_zero_iff.mp (Nat.eq_zero_of_not_pos none)
      rw [SearchNodeBuilder.add, dif_neg none, List.append_nil]
      exact keeps

theorem Keeps.adds {portions : List (List Int64)} : ∀ {b : SearchNodeBuilder} {added : List Int64},
    Keeps b.ids b.runs added →
    Keeps (portions.foldl SearchNodeBuilder.add b).ids (portions.foldl SearchNodeBuilder.add b).runs
      (added ++ portions.flatten) := by
  induction portions with
  | nil =>
      intro b added keeps
      rw [List.flatten_nil, List.append_nil]
      exact keeps
  | cons ids portions ih =>
      intro b added keeps
      rw [List.foldl_cons, List.flatten_cons, ← List.append_assoc]
      exact ih (Keeps.add b ids keeps)

/-- **The table holds each id that was added**, once and in order. -/
theorem finish_table (portions : List (List Int64)) (mapped : Bool) :
    ∃ ids : List Int64, ids.Pairwise (· < ·) ∧ (∀ x, x ∈ ids ↔ x ∈ portions.flatten) ∧
      (portions.foldl add new).finish mapped =
        .ok (if ids = [] then none else some (newSearchNodeTable ids mapped)) := by
  have keeps := @Keeps.adds portions _ _ keeps_new
  rw [List.nil_append] at keeps
  generalize portions.foldl add new = b at keeps
  generalize portions.flatten = added at keeps
  rw [finish]
  by_cases noRuns : b.runs.length = 0
  · have single : ∀ x, x ∈ sortedIDs b.ids ↔ x ∈ added := by
      intro x
      rw [mem_sortedIDs, ← keeps.all, List.eq_nil_of_length_eq_zero noRuns]
      simp [InRuns]
    refine ⟨sortedIDs b.ids, sortedIDs_increasing b.ids, single, ?_⟩
    by_cases noIDs : b.ids.length = 0
    · rw [if_pos ⟨noIDs, noRuns⟩, List.eq_nil_of_length_eq_zero noIDs]
      rfl
    · have some : sortedIDs b.ids ≠ [] := by
        obtain ⟨x, member⟩ := List.exists_mem_of_length_pos (Nat.pos_of_ne_zero noIDs)
        exact List.ne_nil_of_mem (mem_sortedIDs.mpr member)
      rw [if_neg fun both => noIDs both.1, if_pos noRuns, if_neg some]
  · have flushed := keeps.flush
    obtain ⟨runs, done, sound, same, -⟩ := @Merges.passes_spec _ _ _ _ _ mergeNodeGroup_merges
      searchMergeRuns (by decide) (flush b.ids b.runs).length _ flushed.sound
    obtain ⟨ids, merged, increasing, all⟩ := mergeSearchNodeIDs_spec sound
    have kept : ∀ x, x ∈ ids ↔ x ∈ added := by
      intro x
      rw [all, same, ← flushed.all]
      simp
    have some : ids ≠ [] := by
      rintro rfl
      refine keeps.filled (fun none => noRuns (none ▸ rfl)) ?_
      exact List.eq_nil_iff_forall_not_mem.mpr fun x member =>
        List.not_mem_nil ((kept x).mpr member)
    refine ⟨ids, increasing, kept, ?_⟩
    rw [if_neg fun both => noRuns both.2, if_neg noRuns, if_neg some]
    dsimp only
    rw [done]
    dsimp only
    rw [merged]

end SearchNodeBuilder

/-! ## Both sorts -/

/-- **The sorts lose nothing.** The postings written to an index are those that were added, by
term and offset, and the ids of the table of nodes are those that were added, each once and in
order. -/
theorem externalSorts_lossless (postings : List SearchPosting) (portions : List (List Int64))
    (mapped : Bool) (storable : ∀ p ∈ postings, p.Storable) :
    (∃ sorted file, (postings.foldl SearchIndexBuilder.add ⟨[], []⟩).finish = .ok file ∧
      writeCompact sorted = .ok file ∧ sorted.Perm postings ∧ sorted.Pairwise SearchPosting.le) ∧
    ∃ ids : List Int64, ids.Pairwise (· < ·) ∧ (∀ x, x ∈ ids ↔ x ∈ portions.flatten) ∧
      (portions.foldl SearchNodeBuilder.add .new).finish mapped =
        .ok (if ids = [] then none else some (newSearchNodeTable ids mapped)) := by
  constructor
  · obtain ⟨sorted, finished, perm, inOrder⟩ := SearchIndexBuilder.finish_spec storable
    have accepted : ∀ p ∈ sorted, p.Accepted :=
      fun p member => (storable p (perm.subset member)).accepted
    have written := writeCompact_eq accepted inOrder
    exact ⟨sorted, _, finished.trans written, written, perm, inOrder⟩
  · exact SearchNodeBuilder.finish_table portions mapped

/-- Two postings for one term, and ids that were added twice. -/
theorem externalSorts_lossless_two :
    let postings : List SearchPosting := [⟨[98], 7, 1⟩, ⟨[97], 9, 1⟩]
    (∀ p ∈ postings, p.Storable) ∧
    (∃ sorted file, (postings.foldl SearchIndexBuilder.add ⟨[], []⟩).finish = .ok file ∧
      writeCompact sorted = .ok file ∧ sorted.Perm postings ∧ sorted.Pairwise SearchPosting.le) ∧
    ∃ ids : List Int64, ids.Pairwise (· < ·) ∧ (∀ x, x ∈ ids ↔ x ∈ [[3, 1], [3]].flatten) ∧
      ([[3, 1], [3]].foldl SearchNodeBuilder.add .new).finish true =
        .ok (if ids = [] then none else some (newSearchNodeTable ids true)) := by
  intro postings
  have storable : ∀ p ∈ postings, p.Storable := by
    intro p member
    rcases List.mem_cons.mp member with rfl | member
    · exact ⟨⟨by decide, by decide, by decide, by decide⟩, by decide⟩
    · obtain rfl := List.mem_singleton.mp member
      exact ⟨⟨by decide, by decide, by decide, by decide⟩, by decide⟩
  exact ⟨storable, externalSorts_lossless postings [[3, 1], [3]] true storable⟩

end OsmMini.Mobile

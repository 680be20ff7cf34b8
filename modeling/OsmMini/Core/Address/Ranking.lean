import OsmMini.Core.Address.Query
import OsmMini.Foundations.Int64Order
import OsmMini.Foundations.StableInsertion

/-!
# The ranking of a search

The search for addresses keeps a limited list of the best matches while it reads the catalog.
A match is put in front of the matches that it is better than, and the list is cut to its
limit. Without a limit all matches are collected and sorted at the end.

Both follow one key: the score, falling, and then the ID of the entry. The limited list is
therefore a prefix of the whole ranking, and entries that agree in both stay in the order of
the catalog (`searchAddressEntries_ranked`).
-/

set_option autoImplicit false

namespace OsmMini.Core

open OsmMini.Foundations

section Ranking

variable {C : Type}

/-! ## The whole ranking -/

/-- One entry of the catalog may stand in front of another. -/
def ranksBefore (s : ℕ → ℕ) (a b : AddressEntry C × ℕ) : Bool :=
  s b.2 < s a.2 || (s a.2 = s b.2 && a.1.id ≤ b.1.id)

/-- The entries with a positive score, sorted by score and ID. -/
def rankedEntries (entries : List (AddressEntry C)) (s : ℕ → ℕ) : List (AddressEntry C) :=
  ((entries.zipIdx.filter fun e => 0 < s e.2).mergeSort (ranksBefore s)).map Prod.fst

/-! ## The key of a match -/

/-- Higher scores come first, and then smaller IDs. -/
def rankKey (score : ℕ) (id : Int64) : Lex (ℕᵒᵈ × Int64) := toLex (OrderDual.toDual score, id)

theorem rankKey_lt {s s' : ℕ} {id id' : Int64} :
    rankKey s id < rankKey s' id' ↔ s' < s ∨ (s = s' ∧ id < id') := by
  rw [rankKey, rankKey, Prod.Lex.toLex_lt_toLex]
  exact or_congr OrderDual.toDual_lt_toDual
    (and_congr_left fun _ => OrderDual.toDual.injective.eq_iff)

theorem rankKey_le {s s' : ℕ} {id id' : Int64} :
    rankKey s id ≤ rankKey s' id' ↔ s' < s ∨ (s = s' ∧ id ≤ id') := by
  rw [rankKey, rankKey, Prod.Lex.toLex_le_toLex]
  exact or_congr OrderDual.toDual_lt_toDual
    (and_congr_left fun _ => OrderDual.toDual.injective.eq_iff)

/-- The key of a match in a catalog. -/
def Scored.key (entries : List (AddressEntry C)) (m : Scored) : Lex (ℕᵒᵈ × Int64) :=
  rankKey m.s ((entries[m.index]?.map AddressEntry.id).getD 0)

variable {entries : List (AddressEntry C)}

/-- A match is better when its key is smaller. -/
theorem better_iff {a b : Scored} (inA : a.index < entries.length)
    (inB : b.index < entries.length) :
    better entries a b = true ↔ a.key entries < b.key entries := by
  rw [Scored.key, Scored.key, rankKey_lt, List.getElem?_eq_getElem inA,
    List.getElem?_eq_getElem inB]
  simp [better, List.getElem?_eq_getElem inA, List.getElem?_eq_getElem inB]

/-! ## Keeping the best matches -/

/-- The matches of a list are entries of the catalog. -/
def InCatalog (entries : List (AddressEntry C)) (sc : List Scored) : Prop :=
  ∀ m ∈ sc, m.index < entries.length

theorem insertScored_eq {sc : List Scored} (valid : InCatalog entries sc)
    (sorted : sc.Pairwise fun a b => a.key entries ≤ b.key entries) {candidate : Scored}
    (inside : candidate.index < entries.length) :
    insertScored entries candidate sc =
      insertAfter (Scored.key entries) candidate sc := by
  have same : ∀ m ∈ sc.reverse, better entries candidate m =
      decide (candidate.key entries < m.key entries) := fun m member =>
    Bool.eq_iff_iff.mpr ((better_iff inside (valid m (List.mem_reverse.mp member))).trans
      decide_eq_true_iff.symm)
  have split : ∀ l : List Scored,
      (∀ m ∈ l, better entries candidate m = decide (candidate.key entries < m.key entries)) →
      l.takeWhile (better entries candidate) =
          l.takeWhile (fun m => candidate.key entries < m.key entries) ∧
        l.dropWhile (better entries candidate) =
          l.dropWhile (fun m => candidate.key entries < m.key entries) := by
    intro l same
    induction l with
    | nil => exact ⟨rfl, rfl⟩
    | cons m l ih =>
        obtain ⟨here, later⟩ := List.forall_mem_cons.mp same
        obtain ⟨front, back⟩ := ih later
        rw [List.takeWhile_cons, List.takeWhile_cons, List.dropWhile_cons, List.dropWhile_cons,
          here, front, back]
        exact ⟨rfl, rfl⟩
  obtain ⟨tail, front⟩ := split _ same
  rw [← insertAfter_eq_fromEnd (Scored.key entries) candidate sorted, insertScored, tail, front]

/-- A match that counts is put in its place, as long as it is among the best. -/
theorem addScored_eq {limit : ℕ} (positive : 0 < limit) (bounded : limit ≠ entries.length)
    {sc : List Scored} (valid : InCatalog entries sc)
    (sorted : sc.Pairwise fun a b => a.key entries ≤ b.key entries)
    {candidate : Scored} (inside : candidate.index < entries.length) (counts : 0 < candidate.s) :
    addScored entries limit sc candidate =
      insertWithin (Scored.key entries) limit sc candidate := by
  rw [addScored, if_neg counts.ne', if_neg bounded]
  by_cases rejected : sc.length = limit ∧
      ¬sc.getLast?.any (fun last => better entries candidate last) = true
  · rw [if_pos rejected]
    obtain ⟨full, worse⟩ := rejected
    have filled : sc ≠ [] := List.ne_nil_of_length_pos (by omega)
    rw [List.getLast?_eq_some_getLast filled, Option.any_some,
      better_iff inside (valid _ (List.getLast_mem filled)), not_lt] at worse
    refine (insertWithin_full (Scored.key entries) full fun m member => ?_).symm
    exact (sorted.rel_getLast member).trans worse
  · rw [if_neg rejected, insertScored_eq valid sorted inside]
    rfl

theorem insertWithin_sorted {limit : ℕ} {sc : List Scored}
    (sorted : sc.Pairwise fun a b => a.key entries ≤ b.key entries) (candidate : Scored) :
    (insertWithin (Scored.key entries) limit sc candidate).Pairwise
      fun a b => a.key entries ≤ b.key entries :=
  (insertAfter_sorted (Scored.key entries) candidate sorted).sublist (List.take_sublist _ _)

theorem insertWithin_inCatalog {limit : ℕ} {sc : List Scored} (valid : InCatalog entries sc)
    {candidate : Scored} (inside : candidate.index < entries.length) :
    InCatalog entries (insertWithin (Scored.key entries) limit sc candidate) := by
  intro m member
  rcases List.mem_cons.mp ((insertAfter_perm (Scored.key entries) candidate sc).subset
    (List.mem_of_mem_take member)) with rfl | old
  · exact inside
  · exact valid m old

/-- Candidates that do not score are passed over, and the others are inserted. -/
theorem foldl_addScored {limit : ℕ} (positive : 0 < limit) (bounded : limit ≠ entries.length)
    {candidates : List Scored} (inside : InCatalog entries candidates) {sc : List Scored}
    (valid : InCatalog entries sc)
    (sorted : sc.Pairwise fun a b => a.key entries ≤ b.key entries) :
    candidates.foldl (addScored entries limit) sc =
      (candidates.filter fun m => 0 < m.s).foldl
        (insertWithin (Scored.key entries) limit) sc := by
  induction candidates generalizing sc with
  | nil => rfl
  | cons candidate candidates ih =>
      obtain ⟨here, later⟩ := List.forall_mem_cons.mp inside
      rw [List.foldl_cons]
      by_cases counts : 0 < candidate.s
      · rw [List.filter_cons_of_pos (by simpa using counts), List.foldl_cons,
          addScored_eq positive bounded valid sorted here counts]
        exact ih later (insertWithin_inCatalog valid here) (insertWithin_sorted sorted candidate)
      · rw [List.filter_cons_of_neg (by simpa using counts), addScored,
          if_pos (Nat.eq_zero_of_not_pos counts)]
        exact ih later valid sorted

/-- Without a limit the candidates that score are collected. -/
theorem foldl_addScored_all (candidates sc : List Scored) :
    candidates.foldl (addScored entries entries.length) sc =
      sc ++ candidates.filter fun m => 0 < m.s := by
  induction candidates generalizing sc with
  | nil => exact (List.append_nil sc).symm
  | cons candidate candidates ih =>
      rw [List.foldl_cons, ih, addScored]
      by_cases counts : 0 < candidate.s
      · rw [if_neg counts.ne', if_pos rfl, List.filter_cons_of_pos (by simpa using counts),
          List.append_assoc, List.singleton_append]
      · rw [if_pos (Nat.eq_zero_of_not_pos counts),
          List.filter_cons_of_neg (by simpa using counts)]

/-- Matches of the catalog are cut before or after their entries are read. -/
theorem filterMap_take {l : List Scored} (valid : ∀ m ∈ l, (entries[m.index]?).isSome) (n : ℕ) :
    (l.take n).filterMap (fun m => entries[m.index]?) =
      (l.filterMap fun m => entries[m.index]?).take n := by
  induction l generalizing n with
  | nil => rw [List.take_nil, List.filterMap_nil, List.take_nil]
  | cons m l ih =>
      obtain ⟨here, later⟩ := List.forall_mem_cons.mp valid
      obtain ⟨e, found⟩ := Option.isSome_iff_exists.mp here
      cases n with
      | zero => rfl
      | succ n =>
          have step : ∀ l : List Scored,
              (m :: l).filterMap (fun m => entries[m.index]?) =
                e :: l.filterMap fun m => entries[m.index]? := fun l =>
            List.filterMap_cons_some found
          rw [List.take_succ_cons, step, step, List.take_succ_cons, ih later]

/-! ## The matches of a catalog -/

variable (entries) (s : ℕ → ℕ)

/-- All matches that score, in the order of the catalog. -/
def scoredMatches : List Scored :=
  ((List.range entries.length).map fun i => ⟨i, s i⟩).filter fun m => 0 < m.s

theorem candidates_inCatalog :
    InCatalog entries ((List.range entries.length).map fun i => ⟨i, s i⟩) := by
  intro m member
  obtain ⟨i, range, rfl⟩ := List.mem_map.mp member
  exact List.mem_range.mp range

theorem length_scoredMatches_le : (scoredMatches entries s).length ≤ entries.length := by
  refine (List.length_filter_le _ _).trans ?_
  rw [List.length_map, List.length_range]

theorem scoredMatches_eq :
    scoredMatches entries s =
      (entries.zipIdx.filter fun e => 0 < s e.2).map fun e => ⟨e.2, s e.2⟩ := by
  have places : List.range entries.length = entries.zipIdx.map Prod.snd := by
    rw [List.zipIdx_map_snd, List.range_eq_range']
  rw [scoredMatches, places, List.map_map, List.filter_map]
  rfl

/-- **The ranking is the sort of the matches by their keys.** -/
theorem rankedEntries_eq :
    rankedEntries entries s =
      (sortByKey (Scored.key entries) (scoredMatches entries s)).filterMap
        fun m => entries[m.index]? := by
  have order : ranksBefore (C := C) s = fun a b =>
      decide (rankKey (s a.2) a.1.id ≤ rankKey (s b.2) b.1.id) := by
    funext a b
    rw [ranksBefore, Bool.eq_iff_iff]
    simp [rankKey_le]
  have keys : ∀ e ∈ entries.zipIdx.filter (fun e => 0 < s e.2),
      entries[e.2]? = some e.1 := by
    intro e member
    exact List.mem_zipIdx_iff_getElem?.mp (List.mem_of_mem_filter member)
  have sorted : sortByKey (fun e : AddressEntry C × ℕ => Scored.key entries ⟨e.2, s e.2⟩)
      (entries.zipIdx.filter fun e => 0 < s e.2) =
        sortByKey (fun e => rankKey (s e.2) e.1.id)
          (entries.zipIdx.filter fun e => 0 < s e.2) := by
    refine insertionSort_eq_sortByKey _ fun a inA b inB => ?_
    have keyed : ∀ e ∈ entries.zipIdx.filter (fun e => 0 < s e.2),
        Scored.key entries ⟨e.2, s e.2⟩ = rankKey (s e.2) e.1.id := by
      intro e member
      rw [Scored.key, keys e member, Option.map_some, Option.getD_some]
    show Scored.key entries ⟨a.2, s a.2⟩ ≤ Scored.key entries ⟨b.2, s b.2⟩ ↔ _
    rw [keyed a inA, keyed b inB]
  rw [rankedEntries, order, mergeSort_eq_sortByKey (fun e : AddressEntry C × ℕ =>
    rankKey (s e.2) e.1.id), scoredMatches_eq, sortByKey_map, sorted, List.filterMap_map,
    ← List.filterMap_eq_map]
  refine List.filterMap_congr fun e member => ?_
  exact (keys e ((sortByKey_perm _ _).subset member)).symm

theorem sortSlice_matches :
    sortSlice (better entries) (scoredMatches entries s) =
      sortByKey (Scored.key entries) (scoredMatches entries s) := by
  refine insertionSort_eq_sortByKey _ fun a inA b inB => ?_
  have valid := candidates_inCatalog entries s
  rw [Bool.not_eq_true', ← Bool.not_eq_true, better_iff (valid b (List.mem_of_mem_filter inB))
    (valid a (List.mem_of_mem_filter inA)), not_lt]

/-- The search collects and sorts all matches, or keeps the best ones. -/
theorem searchAddressEntries_eq (query : NormalizedAddressQuery) (limit : ℤ)
    (score : ℕ → NormalizedAddressQuery → ℕ) :
    searchAddressEntries entries query limit score =
      ((sortByKey (Scored.key entries) (scoredMatches entries fun i => score i query)).take
        (if limit ≤ 0 ∨ (entries.length : ℤ) < limit then entries.length
          else limit.toNat)).filterMap fun m => entries[m.index]? := by
  rw [searchAddressEntries]
  generalize bound : (if limit ≤ 0 ∨ (entries.length : ℤ) < limit then entries.length
    else limit.toNat) = n
  have fold : (List.range entries.length).foldl
      (fun sc i => addScored entries n sc ⟨i, score i query⟩) [] =
      ((List.range entries.length).map fun i => (⟨i, score i query⟩ : Scored)).foldl
        (addScored entries n) [] := by
    rw [List.foldl_map]
  by_cases all : n = entries.length
  · subst all
    rw [fold, foldl_addScored_all, List.nil_append, if_pos rfl, ← scoredMatches,
      sortSlice_matches, List.take_of_length_le]
    rw [(sortByKey_perm _ _).length_eq]
    exact length_scoredMatches_le entries _
  · have positive : 0 < n := by
      by_cases given : limit ≤ 0 ∨ (entries.length : ℤ) < limit
      · rw [if_pos given] at bound
        exact absurd bound.symm all
      · rw [if_neg given] at bound
        omega
    rw [fold, foldl_addScored positive all (candidates_inCatalog entries _)
      (by intro m member; cases member) List.Pairwise.nil, if_neg all,
      foldl_insertWithin, ← scoredMatches]

end Ranking

/-- **A limited search gives the first entries of the ranking.** Without a limit it gives the
whole ranking: the entries with a positive score, sorted stably by falling score and rising
ID. -/
theorem searchAddressEntries_ranked {C : Type} (entries : List (AddressEntry C))
    (query : NormalizedAddressQuery) (score : ℕ → NormalizedAddressQuery → ℕ) :
    searchAddressEntries entries query 0 score =
        rankedEntries entries (fun i => score i query) ∧
      ∀ limit : ℤ, searchAddressEntries entries query limit score =
        if limit ≤ 0 then searchAddressEntries entries query 0 score
        else (searchAddressEntries entries query 0 score).take limit.toNat := by
  have valid : ∀ m ∈ sortByKey (Scored.key entries)
      (scoredMatches entries fun i => score i query), (entries[m.index]?).isSome := by
    intro m member
    have scored := (sortByKey_perm _ _).subset member
    have inside := candidates_inCatalog entries (fun i => score i query) m
      (List.mem_of_mem_filter scored)
    rw [List.getElem?_eq_getElem inside]
    rfl
  have few : (sortByKey (Scored.key entries)
      (scoredMatches entries fun i => score i query)).length ≤ entries.length := by
    rw [(sortByKey_perm _ _).length_eq]
    exact length_scoredMatches_le entries _
  have whole : searchAddressEntries entries query 0 score =
      rankedEntries entries (fun i => score i query) := by
    rw [searchAddressEntries_eq, rankedEntries_eq, if_pos (Or.inl le_rfl),
      List.take_of_length_le few]
  refine ⟨whole, fun limit => ?_⟩
  rw [searchAddressEntries_eq, whole, rankedEntries_eq, ← filterMap_take valid]
  by_cases unlimited : limit ≤ 0
  · rw [if_pos (Or.inl unlimited), if_pos unlimited, List.take_of_length_le few]
  · rw [if_neg unlimited]
    by_cases beyond : (entries.length : ℤ) < limit
    · rw [if_pos (Or.inr beyond), List.take_of_length_le few,
        List.take_of_length_le (few.trans (by omega))]
    · rw [if_neg (by omega)]

end OsmMini.Core

import Mathlib.Data.List.AList
import Mathlib.Data.List.Sort

/-!
# Deleting entries of a map

A loop runs over the keys of a map in some order and deletes entries that satisfy a predicate,
all of them or a limited number. Afterwards the keys that were deleted are missing and every
other key holds what it held before.

The last section counts the entries below a bound taken from their own sorted list. This is
how many a loop deletes that looks for the smallest ones.
-/

set_option autoImplicit false

namespace OsmMini.Foundations

section Loops

variable {κ β : Type*} [DecidableEq κ] (p : β → Bool)

/-- Delete entries that satisfy a predicate, at most a number of them. -/
def deleteSome : ℕ → List κ → (AList fun _ : κ => β) → AList fun _ : κ => β
  | 0, _, m => m
  | _ + 1, [], m => m
  | n + 1, k :: ks, m =>
    if (m.lookup k).any p then deleteSome n ks (m.erase k) else deleteSome (n + 1) ks m

/-- Delete all entries that satisfy a predicate. -/
def deleteAll (ks : List κ) (m : AList fun _ : κ => β) : AList fun _ : κ => β :=
  ks.foldl (fun m k => if (m.lookup k).any p then m.erase k else m) m

/-- The keys that a loop deletes: the first ones in its order. -/
def deletedKeys (n : ℕ) (ks : List κ) (m : AList fun _ : κ => β) : List κ :=
  (ks.filter fun k => (m.lookup k).any p).take n

theorem deleteAll_eq (ks : List κ) : ∀ (n : ℕ) (m : AList fun _ : κ => β), ks.length ≤ n →
    deleteAll p ks m = deleteSome p n ks m := by
  induction ks with
  | nil =>
      intro n m _
      cases n <;> rfl
  | cons k ks ih =>
      intro n m enough
      rw [List.length_cons] at enough
      obtain ⟨n, rfl⟩ : ∃ n', n = n' + 1 := ⟨n - 1, by omega⟩
      rw [deleteAll, List.foldl_cons, deleteSome]
      by_cases found : (m.lookup k).any p = true
      · rw [if_pos found, if_pos found]
        exact ih n (m.erase k) (by omega)
      · rw [if_neg found, if_neg found]
        exact ih (n + 1) m (by omega)

variable {p}

/-- Deleting a key does not change what satisfies the predicate elsewhere. -/
theorem filter_erase {k : κ} {ks : List κ} (absent : k ∉ ks) (m : AList fun _ : κ => β) :
    (ks.filter fun k' => ((m.erase k).lookup k').any p) =
      ks.filter fun k' => (m.lookup k').any p := by
  refine List.filter_congr fun k' member => ?_
  rw [AList.lookup_erase_ne]
  rintro rfl
  exact absent member

theorem deletedKeys_cons_pos {k : κ} {m : AList fun _ : κ => β}
    (found : (m.lookup k).any p = true) (n : ℕ) (ks : List κ) :
    deletedKeys p (n + 1) (k :: ks) m = k :: deletedKeys p n ks m := by
  rw [deletedKeys, List.filter_cons, if_pos found]
  exact List.take_succ_cons

theorem deletedKeys_cons_neg {k : κ} {m : AList fun _ : κ => β}
    (found : ¬(m.lookup k).any p = true) (n : ℕ) (ks : List κ) :
    deletedKeys p n (k :: ks) m = deletedKeys p n ks m := by
  rw [deletedKeys, List.filter_cons, if_neg found]
  rfl

/-- **The deleted keys are missing, and the others keep what they hold.** -/
theorem lookup_deleteSome {ks : List κ} (distinct : ks.Nodup) (k : κ) :
    ∀ (n : ℕ) (m : AList fun _ : κ => β), (deleteSome p n ks m).lookup k =
      if k ∈ deletedKeys p n ks m then none else m.lookup k := by
  induction ks with
  | nil =>
      intro n m
      cases n <;> rfl
  | cons first ks ih =>
      obtain ⟨absent, distinct⟩ := List.nodup_cons.mp distinct
      intro n m
      cases n with
      | zero => rfl
      | succ n =>
          rw [deleteSome]
          by_cases found : (m.lookup first).any p = true
          · rw [if_pos found, deletedKeys_cons_pos found, ih distinct n (m.erase first),
              deletedKeys, filter_erase absent, ← deletedKeys]
            by_cases same : k = first
            · subst same
              rw [if_pos List.mem_cons_self, AList.lookup_erase, ite_self]
            · rw [AList.lookup_erase_ne same]
              simp only [List.mem_cons, same, false_or]
          · rw [if_neg found, deletedKeys_cons_neg found, ih distinct (n + 1) m]

theorem lookup_deleteAll {ks : List κ} (distinct : ks.Nodup) (k : κ)
    (m : AList fun _ : κ => β) : (deleteAll p ks m).lookup k =
      if k ∈ ks ∧ (m.lookup k).any p = true then none else m.lookup k := by
  rw [deleteAll_eq p ks ks.length m le_rfl, lookup_deleteSome distinct, deletedKeys,
    List.take_of_length_le (List.length_filter_le _ _)]
  simp only [List.mem_filter]

/-- The keys left of a map. -/
theorem keys_perm_of_lookup {m m' : AList fun _ : κ => β} {gone : κ → Prop} [DecidablePred gone]
    (left : ∀ k, m'.lookup k = if gone k then none else m.lookup k) :
    m'.keys.Perm (m.keys.filter fun k => ¬gone k) := by
  refine (List.perm_ext_iff_of_nodup m'.keys_nodup (m.keys_nodup.filter _)).mpr fun k => ?_
  rw [List.mem_filter, ← AList.mem_keys, ← AList.mem_keys, ← AList.lookup_isSome,
    ← AList.lookup_isSome, left k, decide_eq_true_iff]
  by_cases missing : gone k
  · simp [missing]
  · simp [missing]

end Loops

/-! ## Entries below a bound of their own -/

section Bounds

variable {α : Type*} [LinearOrder α]

/-- At most as many elements lie below an element of a sorted list as stand before it. -/
theorem length_filter_lt_getElem {l : List α} (sorted : l.Pairwise (· ≤ ·)) {i : ℕ}
    (inside : i < l.length) : (l.filter fun a => a < l[i]).length ≤ i := by
  have split := List.take_append_drop i l
  have behind : (l.drop i).filter (fun a => a < l[i]) = [] := by
    rw [List.filter_eq_nil_iff]
    intro a member
    obtain ⟨j, hj, rfl⟩ := List.mem_iff_getElem.mp member
    rw [List.getElem_drop, decide_eq_true_iff, not_lt]
    rcases Nat.eq_zero_or_pos j with rfl | later
    · exact le_rfl
    · exact List.pairwise_iff_getElem.mp sorted i (i + j) inside (by
        rw [List.length_drop] at hj
        omega) (by omega)
  calc (l.filter fun a => a < l[i]).length
      = ((l.take i ++ l.drop i).filter fun a => a < l[i]).length := by rw [split]
    _ = ((l.take i).filter fun a => a < l[i]).length := by
        rw [List.filter_append, behind, List.append_nil]
    _ ≤ (l.take i).length := List.length_filter_le _ _
    _ ≤ i := List.length_take_le _ _

/-- The elements up to an element of a sorted list are at least as many as stand up to it. -/
theorem lt_length_filter_le_getElem {l : List α} (sorted : l.Pairwise (· ≤ ·)) {i : ℕ}
    (inside : i < l.length) : i < (l.filter fun a => a ≤ l[i]).length := by
  have all : (l.take (i + 1)).filter (fun a => a ≤ l[i]) = l.take (i + 1) := by
    rw [List.filter_eq_self]
    intro a member
    obtain ⟨j, hj, rfl⟩ := List.mem_iff_getElem.mp member
    rw [List.length_take] at hj
    rw [List.getElem_take, decide_eq_true_iff]
    rcases (show j ≤ i by omega).lt_or_eq with earlier | rfl
    · exact List.pairwise_iff_getElem.mp sorted j i (by omega) inside earlier
    · exact le_rfl
  have part := ((List.take_sublist (i + 1) l).filter fun a => decide (a ≤ l[i])).length_le
  rw [all, List.length_take] at part
  omega

/-- **The element at a place of the sorted list bounds the elements up to there.** -/
theorem smallest_counts (l : List α) (default : α) (count : ℕ) (positive : 0 < count)
    (enough : count ≤ l.length) :
    (l.filter fun a => a < l.mergeSort.getD (count - 1) default).length < count ∧
      count ≤ (l.filter fun a => a ≤ l.mergeSort.getD (count - 1) default).length := by
  have perm : l.mergeSort.Perm l := List.mergeSort_perm _ _
  have sorted : l.mergeSort.Pairwise (· ≤ ·) := by
    have transitive : ∀ a b c : α, decide (a ≤ b) = true → decide (b ≤ c) = true →
        decide (a ≤ c) = true := fun a b c first second =>
      decide_eq_true ((of_decide_eq_true first).trans (of_decide_eq_true second))
    have total : ∀ a b : α, (decide (a ≤ b) || decide (b ≤ a)) = true := fun a b => by
      simpa using le_total a b
    exact (List.pairwise_mergeSort transitive total l).imp fun le => of_decide_eq_true le
  have place : count - 1 < l.mergeSort.length := by
    rw [perm.length_eq]
    omega
  have below := length_filter_lt_getElem sorted place
  have upTo := lt_length_filter_le_getElem sorted place
  rw [(perm.filter _).length_eq] at below upTo
  have read : l.mergeSort.getD (count - 1) default = l.mergeSort[count - 1] := by
    rw [List.getD_eq_getElem?_getD, List.getElem?_eq_getElem place, Option.getD_some]
  rw [read]
  constructor <;> omega

/-- Elements up to a bound lie below it or are equal to it. -/
theorem length_filter_le (l : List α) (bound : α) :
    (l.filter fun a => a ≤ bound).length =
      (l.filter fun a => a < bound).length + (l.filter fun a => a = bound).length := by
  have split := List.filter_append_perm (fun a => decide (a < bound))
    (l.filter fun a => a ≤ bound)
  rw [← split.length_eq, List.length_append, List.filter_filter, List.filter_filter]
  congr 2
  · refine List.filter_congr fun a _ => Bool.eq_iff_iff.mpr ?_
    simp only [Bool.and_eq_true, decide_eq_true_eq]
    exact ⟨And.left, fun less => ⟨less, less.le⟩⟩
  · refine List.filter_congr fun a _ => Bool.eq_iff_iff.mpr ?_
    simp only [Bool.and_eq_true, Bool.not_eq_true', decide_eq_true_eq, decide_eq_false_iff_not,
      not_lt]
    exact ⟨fun both => le_antisymm both.2 both.1, fun same => ⟨same.ge, same.le⟩⟩

end Bounds

end OsmMini.Foundations

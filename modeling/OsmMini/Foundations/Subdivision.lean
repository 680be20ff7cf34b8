import Mathlib.Data.List.Nodup
import Mathlib.Data.Nat.Basic
import Mathlib.Data.Nat.Find
import Mathlib.Order.Lattice

/-!
# Subdividing a range

The numbers from zero to a last one are subdivided: some of them are kept, and a stack has the
ranges between neighbouring kept numbers that are still to be looked at. A range is either split
at a number inside, which is then kept too, or closed because all that it has to satisfy holds.

When the stack is empty, every number that is not kept lies in a closed range between its
neighbours (`exists_around`), whatever ranges were looked at in between.
-/

set_option autoImplicit false

namespace OsmMini.Foundations.Subdivision

/-- Two kept numbers with no kept one between. -/
structure Neighbors (keep : List ℕ) (first last : ℕ) : Prop where
  first_mem : first ∈ keep
  last_mem : last ∈ keep
  ordered : first < last
  gap : ∀ i, first < i → i < last → i ∉ keep

/-- The state of a subdivision. -/
structure Subdivided (closed : ℕ → ℕ → Prop) (n : ℕ) (keep : List ℕ) (stack : List (ℕ × ℕ)) :
    Prop where
  first : 0 ∈ keep
  last : n ∈ keep
  ranges : ∀ r ∈ stack, Neighbors keep r.1 r.2
  distinct : stack.Nodup
  others : ∀ first last, Neighbors keep first last → (first, last) ∈ stack ∨ closed first last

section Steps

variable {closed : ℕ → ℕ → Prop} {n first last : ℕ} {keep : List ℕ} {stack : List (ℕ × ℕ)}

/-- At the beginning the ends are kept, and the whole range is to be looked at. -/
theorem subdivided_start (positive : 0 < n) : Subdivided closed n [0, n] [(0, n)] := by
  have whole : Neighbors [0, n] 0 n := by
    refine ⟨List.mem_cons_self, List.mem_cons_of_mem _ List.mem_cons_self, positive, ?_⟩
    intro i after before member
    rcases List.mem_pair.mp member with rfl | rfl
    · exact lt_irrefl _ after
    · exact lt_irrefl _ before
  refine ⟨List.mem_cons_self, List.mem_cons_of_mem _ List.mem_cons_self, ?_,
    List.nodup_singleton _, ?_⟩
  · intro r member
    rw [List.mem_singleton.mp member]
    exact whole
  · intro first last neighbors
    left
    have ordered := neighbors.ordered
    rcases List.mem_pair.mp neighbors.first_mem with rfl | rfl
    · rcases List.mem_pair.mp neighbors.last_mem with rfl | rfl
      · exact absurd ordered (lt_irrefl _)
      · exact List.mem_singleton_self _
    · rcases List.mem_pair.mp neighbors.last_mem with rfl | rfl
      · exact absurd ordered (Nat.not_lt_zero _)
      · exact absurd ordered (lt_irrefl _)

/-- A range is closed. -/
theorem Subdivided.close (state : Subdivided closed n keep ((first, last) :: stack))
    (done : closed first last) : Subdivided closed n keep stack := by
  refine ⟨state.first, state.last, fun r member => state.ranges r (List.mem_cons_of_mem _ member),
    (List.nodup_cons.mp state.distinct).2, ?_⟩
  intro first' last' neighbors
  rcases state.others first' last' neighbors with listed | known
  · rcases List.mem_cons.mp listed with same | later
    · cases same
      exact Or.inr done
    · exact Or.inl later
  · exact Or.inr known

/-- Ranges between neighbours that share an inner number are the same. -/
theorem Neighbors.eq {first' last' i : ℕ} (one : Neighbors keep first last)
    (other : Neighbors keep first' last') (inOne : first < i ∧ i < last)
    (inOther : first' < i ∧ i < last') : first = first' ∧ last = last' := by
  have low : ∀ {a b a' b' : ℕ}, Neighbors keep a b → Neighbors keep a' b' → i < b → a' < i →
      a' ≤ a := by
    intro a b a' b' here there before after
    by_contra later
    exact here.gap a' (not_le.mp later) (after.trans before) there.first_mem
  have high : ∀ {a b a' b' : ℕ}, Neighbors keep a b → Neighbors keep a' b' → a < i → i < b' →
      b ≤ b' := by
    intro a b a' b' here there after before
    by_contra later
    exact here.gap b' (after.trans before) (not_le.mp later) there.last_mem
  exact ⟨le_antisymm (low other one inOther.2 inOne.1) (low one other inOne.2 inOther.1),
    le_antisymm (high one other inOne.1 inOther.2) (high other one inOther.1 inOne.2)⟩

/-- **A range is split at a number inside.** -/
theorem Subdivided.split (state : Subdivided closed n keep ((first, last) :: stack)) {at' : ℕ}
    (after : first < at') (before : at' < last) :
    Subdivided closed n (at' :: keep) ((at', last) :: (first, at') :: stack) := by
  obtain ⟨zero, final, ranges, distinct, others⟩ := state
  have whole := ranges _ List.mem_cons_self
  have fresh : at' ∉ keep := whole.gap at' after before
  obtain ⟨new, distinct⟩ := List.nodup_cons.mp distinct
  -- The ranges that stay do not have the new number inside.
  have outside : ∀ {a b : ℕ}, Neighbors keep a b → (a, b) ≠ (first, last) →
      ¬(a < at' ∧ at' < b) := by
    intro a b neighbors different inside
    obtain ⟨rfl, rfl⟩ := neighbors.eq whole inside ⟨after, before⟩
    exact different rfl
  have kept : ∀ {a b : ℕ}, Neighbors keep a b → (a, b) ≠ (first, last) →
      Neighbors (at' :: keep) a b := by
    intro a b neighbors different
    refine ⟨List.mem_cons_of_mem _ neighbors.first_mem, List.mem_cons_of_mem _ neighbors.last_mem,
      neighbors.ordered, fun i later earlier member => ?_⟩
    rcases List.mem_cons.mp member with rfl | old
    · exact outside neighbors different ⟨later, earlier⟩
    · exact neighbors.gap i later earlier old
  have left : Neighbors (at' :: keep) first at' := by
    refine ⟨List.mem_cons_of_mem _ whole.first_mem, List.mem_cons_self, after, ?_⟩
    intro i later earlier member
    rcases List.mem_cons.mp member with rfl | old
    · exact lt_irrefl _ earlier
    · exact whole.gap i later (earlier.trans before) old
  have right : Neighbors (at' :: keep) at' last := by
    refine ⟨List.mem_cons_self, List.mem_cons_of_mem _ whole.last_mem, before, ?_⟩
    intro i later earlier member
    rcases List.mem_cons.mp member with rfl | old
    · exact lt_irrefl _ later
    · exact whole.gap i (after.trans later) earlier old
  refine ⟨List.mem_cons_of_mem _ zero, List.mem_cons_of_mem _ final, ?_, ?_, ?_⟩
  · intro r member
    rcases List.mem_cons.mp member with rfl | member
    · exact right
    rcases List.mem_cons.mp member with rfl | member
    · exact left
    · exact kept (ranges r (List.mem_cons_of_mem _ member)) fun same => new (same ▸ member)
  · have old : ∀ r ∈ stack, r.1 ≠ at' ∧ r.2 ≠ at' := by
      intro r member
      have neighbors := ranges r (List.mem_cons_of_mem _ member)
      exact ⟨fun same => fresh (same ▸ neighbors.first_mem),
        fun same => fresh (same ▸ neighbors.last_mem)⟩
    refine List.nodup_cons.mpr ⟨fun member => ?_, List.nodup_cons.mpr ⟨fun member => ?_, distinct⟩⟩
    · rcases List.mem_cons.mp member with same | member
      · exact after.ne (Prod.ext_iff.mp same).1.symm
      · exact (old _ member).1 rfl
    · exact (old _ member).2 rfl
  · intro a b neighbors
    rcases List.mem_cons.mp neighbors.first_mem with rfl | oldA
    · -- The neighbour behind the new number is the end of the range.
      left
      have same : b = last := by
        rcases lt_trichotomy b last with less | same | more
        · rcases List.mem_cons.mp neighbors.last_mem with rfl | oldB
          · exact absurd neighbors.ordered (lt_irrefl _)
          · exact absurd oldB (whole.gap b (after.trans neighbors.ordered) less)
        · exact same
        · exact absurd right.last_mem (neighbors.gap last before more)
      rw [same]
      exact List.mem_cons_self
    · rcases List.mem_cons.mp neighbors.last_mem with rfl | oldB
      · left
        have same : a = first := by
          rcases lt_trichotomy a first with less | same | more
          · exact absurd left.first_mem (neighbors.gap first less after)
          · exact same
          · exact absurd oldA (whole.gap a more (neighbors.ordered.trans before))
        rw [same]
        exact List.mem_cons_of_mem _ List.mem_cons_self
      · have old : Neighbors keep a b := ⟨oldA, oldB, neighbors.ordered,
          fun i later earlier member =>
            neighbors.gap i later earlier (List.mem_cons_of_mem _ member)⟩
        rcases others a b old with listed | known
        · rcases List.mem_cons.mp listed with same | member
          · cases same
            exact absurd List.mem_cons_self (neighbors.gap at' after before)
          · exact Or.inl (List.mem_cons_of_mem _ (List.mem_cons_of_mem _ member))
        · exact Or.inr known

/-- **In the end every number that is not kept lies in a closed range.** -/
theorem Subdivided.exists_around (state : Subdivided closed n keep []) {i : ℕ} (inside : i ≤ n)
    (dropped : i ∉ keep) :
    ∃ first last, first < i ∧ i < last ∧ Neighbors keep first last ∧ closed first last := by
  have below : ∃ k, i - k ∈ keep := ⟨i, by rw [Nat.sub_self]; exact state.first⟩
  have above : ∃ k, i + k ∈ keep := ⟨n - i, by rw [Nat.add_sub_cancel' inside]; exact state.last⟩
  classical
  have firstKept := Nat.find_spec below
  have lastKept := Nat.find_spec above
  have firstLeast := fun {k : ℕ} => @Nat.find_min _ _ below k
  have lastLeast := fun {k : ℕ} => @Nat.find_min _ _ above k
  generalize Nat.find below = back at firstKept firstLeast
  generalize Nat.find above = forth at lastKept lastLeast
  have before : i - back < i := by
    rcases Nat.lt_or_ge (i - back) i with less | same
    · exact less
    · have equal : i - back = i := by omega
      exact absurd (equal ▸ firstKept) dropped
  have after : i < i + forth := by
    rcases Nat.eq_zero_or_pos forth with zero | positive
    · rw [zero] at lastKept
      exact absurd lastKept dropped
    · omega
  have neighbors : Neighbors keep (i - back) (i + forth) := by
    refine ⟨firstKept, lastKept, before.trans after, fun j later earlier member => ?_⟩
    rcases lt_trichotomy j i with less | rfl | more
    · have near : i - j < back := by omega
      have same : i - (i - j) = j := by omega
      refine firstLeast near ?_
      rw [same]
      exact member
    · exact dropped member
    · have near : j - i < forth := by omega
      have same : i + (j - i) = j := by omega
      refine lastLeast near ?_
      rw [same]
      exact member
  refine ⟨i - back, i + forth, before, after, neighbors, ?_⟩
  rcases state.others _ _ neighbors with listed | known
  · cases listed
  · exact known

end Steps

end OsmMini.Foundations.Subdivision

import Mathlib.Data.List.Flatten
import Mathlib.Data.List.Nodup
import Mathlib.Data.List.Sort
import Mathlib.Data.Prod.Lex

/-!
# Sorting by a comparison

A list is sorted by a function that says whether one element comes before another. When
the function compares keys of a linear order the result is in the order of the keys, and
when no two elements have the same key it does not depend on the order they came in.
-/

set_option autoImplicit false

namespace OsmMini.Foundations

variable {α κ : Type*}

/-- The elements in an order where none comes before an earlier one. -/
def sortSlice (less : α → α → Bool) (l : List α) : List α :=
  l.insertionSort fun a b => !less b a

theorem sortSlice_perm (less : α → α → Bool) (l : List α) : (sortSlice less l).Perm l :=
  List.perm_insertionSort ..

@[simp] theorem mem_sortSlice {less : α → α → Bool} {l : List α} {a : α} :
    a ∈ sortSlice less l ↔ a ∈ l :=
  (sortSlice_perm less l).mem_iff

@[simp] theorem length_sortSlice (less : α → α → Bool) (l : List α) :
    (sortSlice less l).length = l.length :=
  (sortSlice_perm less l).length_eq

variable [LinearOrder κ] {less : α → α → Bool} {key : α → κ}

/-- **The keys of a sorted list do not fall.** -/
theorem sortSlice_sorted (keyed : ∀ a b, less a b = true ↔ key a < key b) (l : List α) :
    (sortSlice less l).Pairwise fun a b => key a ≤ key b := by
  have before : ∀ a b, (!less b a) = true ↔ key a ≤ key b := by
    intro a b
    rw [Bool.not_eq_true', ← Bool.not_eq_true, keyed, not_lt]
  have total : Std.Total fun a b => (!less b a) = true := by
    refine ⟨fun a b => ?_⟩
    rw [before, before]
    exact le_total ..
  have transitive : IsTrans α fun a b => (!less b a) = true := by
    refine ⟨fun a b c first second => (before a c).mpr ?_⟩
    exact ((before a b).mp first).trans ((before b c).mp second)
  exact (List.pairwise_insertionSort (fun a b => (!less b a) = true) l).imp
    fun {a b} => (before a b).mp

theorem sortSlice_strict (keyed : ∀ a b, less a b = true ↔ key a < key b) {l : List α}
    (distinct : (l.map key).Nodup) : (sortSlice less l).Pairwise fun a b => key a < key b := by
  have apart : (sortSlice less l).Pairwise fun a b => key a ≠ key b :=
    List.pairwise_map.mp (((sortSlice_perm less l).map key).nodup_iff.mpr distinct)
  exact ((sortSlice_sorted keyed l).and apart).imp fun {a b} both => lt_of_le_of_ne both.1 both.2

/-- **The order in which the elements came does not matter.** -/
theorem sortSlice_eq_of_perm (keyed : ∀ a b, less a b = true ↔ key a < key b) {l l' : List α}
    (distinct : (l.map key).Nodup) (perm : l'.Perm l) : sortSlice less l' = sortSlice less l := by
  have distinct' : (l'.map key).Nodup := (perm.map key).nodup_iff.mpr distinct
  have same : (sortSlice less l').Perm (sortSlice less l) :=
    ((sortSlice_perm less l').trans perm).trans (sortSlice_perm less l).symm
  exact same.eq_of_pairwise (fun a b _ _ less more => absurd more less.not_gt)
    (sortSlice_strict keyed distinct') (sortSlice_strict keyed distinct)

/-- The same when elements of one key are equal. -/
theorem sortSlice_eq_of_injective (keyed : ∀ a b, less a b = true ↔ key a < key b)
    (injective : Function.Injective key) {l l' : List α} (perm : l'.Perm l) :
    sortSlice less l' = sortSlice less l := by
  have same : (sortSlice less l').Perm (sortSlice less l) :=
    ((sortSlice_perm less l').trans perm).trans (sortSlice_perm less l).symm
  exact same.eq_of_pairwise (fun a b _ _ there back => injective (le_antisymm there back))
    (sortSlice_sorted keyed l') (sortSlice_sorted keyed l)

/-- Before the elements with greater keys stand those with the least key. -/
theorem filter_append_filter_of_sorted {k : κ} {l : List α}
    (sorted : l.Pairwise fun a b => key a ≤ key b) (least : ∀ a ∈ l, k ≤ key a) :
    (l.filter fun a => key a = k) ++ (l.filter fun a => k < key a) = l := by
  induction l with
  | nil => rfl
  | cons a l ih =>
      obtain ⟨first, sorted⟩ := List.pairwise_cons.mp sorted
      have rest := ih sorted fun b member => least b (List.mem_cons_of_mem a member)
      rcases (least a List.mem_cons_self).eq_or_lt with same | less
      · rw [List.filter_cons_of_pos (by simpa using same.symm),
          List.filter_cons_of_neg (by simp [same]), List.cons_append, rest]
      · have none : (l.filter fun b => key b = k) = [] :=
          List.filter_eq_nil_iff.mpr fun b member =>
            by simpa using (less.trans_le (first b member)).ne'
        rw [none, List.nil_append] at rest
        rw [List.filter_cons_of_neg (by simpa using less.ne'),
          List.filter_cons_of_pos (by simpa using less), none, List.nil_append, rest]

/-- **A sorted list is made of the elements of each key**, one key after the other. -/
theorem flatMap_filter_of_sorted {keys : List κ} (strict : keys.Pairwise (· < ·)) :
    ∀ {l : List α}, (l.Pairwise fun a b => key a ≤ key b) → (∀ a ∈ l, key a ∈ keys) →
      (keys.flatMap fun k => l.filter fun a => key a = k) = l := by
  induction keys with
  | nil =>
      intro l _ known
      rw [List.eq_nil_iff_forall_not_mem.mpr fun a member => List.not_mem_nil (known a member)]
      rfl
  | cons k keys ih =>
      intro l sorted known
      obtain ⟨first, strict⟩ := List.pairwise_cons.mp strict
      have least : ∀ a ∈ l, k ≤ key a := by
        intro a member
        rcases List.mem_cons.mp (known a member) with same | later
        · exact same.ge
        · exact (first _ later).le
      have later : (keys.flatMap fun k' => l.filter fun a => key a = k') =
          keys.flatMap fun k' => (l.filter fun a => k < key a).filter fun a => key a = k' := by
        apply List.flatMap_congr
        intro k' member
        rw [List.filter_filter]
        apply List.filter_congr
        intro a _
        by_cases same : key a = k'
        · simp [same, first k' member]
        · simp [same]
      rw [List.flatMap_cons, later, ih strict (sorted.filter _),
        filter_append_filter_of_sorted sorted least]
      intro a member
      obtain ⟨member, less⟩ := List.mem_filter.mp member
      rcases List.mem_cons.mp (known a member) with same | later
      · rw [same] at less
        exact absurd (of_decide_eq_true less) (lt_irrefl k)
      · exact later

end OsmMini.Foundations

/-!
## What a stable sort does to the order

One element stands before another in a list when the two form a sublist. A stable sort puts
an element before another when it is smaller, and among elements that compare equal it keeps
the order they had (`before_mergeSort_iff`).
-/

namespace OsmMini.Foundations

variable {α : Type*}

/-- One element stands before another. -/
def Before (l : List α) (a b : α) : Prop := [a, b].Sublist l

instance [DecidableEq α] (l : List α) (a b : α) : Decidable (Before l a b) :=
  inferInstanceAs (Decidable ([a, b].Sublist l))

namespace Before

variable {l : List α} {a b : α}

theorem mem (before : Before l a b) : a ∈ l ∧ b ∈ l :=
  ⟨before.subset (by simp), before.subset (by simp)⟩

theorem ne (distinct : l.Nodup) (before : Before l a b) : a ≠ b := by
  have pair : [a, b].Nodup := List.Nodup.sublist before distinct
  simpa using pair

/-- Of two elements one stands before the other. -/
theorem total (first : a ∈ l) (second : b ∈ l) (different : a ≠ b) :
    Before l a b ∨ Before l b a := by
  induction l with
  | nil => cases first
  | cons head l ih =>
      rcases List.mem_cons.mp first with rfl | firstTail
      · have inTail : b ∈ l := (List.mem_cons.mp second).resolve_left (Ne.symm different)
        exact .inl ((List.singleton_sublist.mpr inTail).cons_cons _)
      · rcases List.mem_cons.mp second with rfl | secondTail
        · have inTail : [a].Sublist l := List.singleton_sublist.mpr firstTail
          exact .inr (inTail.cons_cons _)
        · exact (ih firstTail secondTail).imp (·.cons _) (·.cons _)

/-- In a list without duplicates not both stand before the other. -/
theorem asymm (distinct : l.Nodup) (before : Before l a b) : ¬ Before l b a := by
  induction l with
  | nil => cases before
  | cons head l ih =>
      obtain ⟨fresh, distinct⟩ := List.nodup_cons.mp distinct
      intro after
      rcases List.sublist_cons_iff.mp before with inTail | ⟨rest, shape, tail⟩
      · rcases List.sublist_cons_iff.mp after with inTail' | ⟨rest', shape', tail'⟩
        · exact ih distinct inTail inTail'
        · obtain ⟨rfl, rfl⟩ := List.cons.inj shape'
          exact fresh (inTail.subset (by simp))
      · obtain ⟨rfl, rfl⟩ := List.cons.inj shape
        rcases List.sublist_cons_iff.mp after with inTail' | ⟨rest', shape', tail'⟩
        · exact fresh (inTail'.subset (by simp))
        · obtain ⟨rfl, rfl⟩ := List.cons.inj shape'
          exact fresh (tail.subset (by simp))

end Before

variable {le : α → α → Bool} (trans : ∀ a b c, le a b → le b c → le a c)
  (total : ∀ a b, le a b || le b a)

include trans total

/-- **The order after a stable sort.** -/
theorem before_mergeSort_iff {l : List α} (distinct : l.Nodup) {a b : α} :
    Before (l.mergeSort le) a b ↔
      a ∈ l ∧ b ∈ l ∧ (le b a = false ∨ le b a = true ∧ le a b = true ∧ Before l a b) := by
  have perm := List.mergeSort_perm l le
  have sorted := List.pairwise_mergeSort trans total l
  have distinct' : (l.mergeSort le).Nodup := perm.nodup_iff.mpr distinct
  have ordered : ∀ {x y : α}, Before (l.mergeSort le) x y → le x y = true := fun before => by
    have pair : List.Pairwise (fun a b => le a b = true) _ := sorted.sublist before
    simpa using pair
  constructor
  · intro before
    obtain ⟨first, second⟩ := before.mem
    have inList := perm.mem_iff.mp first
    have inList' := perm.mem_iff.mp second
    refine ⟨inList, inList', ?_⟩
    cases back : le b a with
    | false => exact .inl rfl
    | true =>
        refine .inr ⟨rfl, ordered before, ?_⟩
        rcases Before.total inList inList' (before.ne distinct') with same | other
        · exact same
        · exact absurd (List.pair_sublist_mergeSort trans total back other) (before.asymm distinct')
  · rintro ⟨inList, inList', less | ⟨-, forward, before⟩⟩
    · have different : a ≠ b := by
        rintro rfl
        simpa [less] using total a a
      rcases Before.total (perm.mem_iff.mpr inList) (perm.mem_iff.mpr inList') different with
        same | other
      · exact same
      · exact absurd (ordered other) (by simp [less])
    · exact List.pair_sublist_mergeSort trans total forward before

end OsmMini.Foundations

/-!
## The pairs of a list

Every element of a list is paired with each element after it. A list without repeats has every
two of its elements in one pair, in one of the two orders, and so the pairs read in both
orders have no repeats either (`nodup_bothWays`).
-/

namespace OsmMini.Foundations

variable {α : Type*}

/-- Each element with those after it. -/
def laterPairs : List α → List (α × α)
  | [] => []
  | a :: rest => rest.map (fun b => (a, b)) ++ laterPairs rest

/-- Every pair in both orders. -/
def bothWays (pairs : List (α × α)) : List (α × α) :=
  pairs.flatMap fun pair => [pair, pair.swap]

/-- The first of a pair stands before the second. -/
theorem mem_laterPairs {l : List α} {a b : α} : (a, b) ∈ laterPairs l ↔ Before l a b := by
  induction l with
  | nil => simp [laterPairs, Before]
  | cons head rest ih =>
      rw [laterPairs, List.mem_append, ih]
      constructor
      · rintro (first | later)
        · obtain ⟨b', member, pair⟩ := List.mem_map.mp first
          obtain ⟨rfl, rfl⟩ := Prod.mk.inj pair
          exact (List.singleton_sublist.mpr member).cons_cons _
        · exact List.Sublist.cons _ later
      · intro before
        rcases List.sublist_cons_iff.mp before with later | ⟨tail, shape, within⟩
        · exact Or.inr later
        · obtain ⟨rfl, rfl⟩ := List.cons.inj shape
          exact Or.inl (List.mem_map.mpr ⟨b, List.singleton_sublist.mp within, rfl⟩)

theorem mem_bothWays {pairs : List (α × α)} {a b : α} :
    (a, b) ∈ bothWays pairs ↔ (a, b) ∈ pairs ∨ (b, a) ∈ pairs := by
  rw [bothWays, List.mem_flatMap]
  constructor
  · rintro ⟨pair, member, either⟩
    rcases List.mem_cons.mp either with rfl | swapped
    · exact Or.inl member
    · rw [List.mem_singleton] at swapped
      rw [← Prod.swap_swap pair, ← swapped] at member
      exact Or.inr member
  · rintro (member | member)
    · exact ⟨(a, b), member, List.mem_cons_self⟩
    · exact ⟨(b, a), member, by simp⟩

theorem laterPairs_map {β : Type*} (f : α → β) (l : List α) :
    laterPairs (l.map f) = (laterPairs l).map (Prod.map f f) := by
  induction l with
  | nil => rfl
  | cons head rest ih =>
      rw [List.map_cons, laterPairs, laterPairs, ih, List.map_append, List.map_map, List.map_map]
      rfl

theorem bothWays_map {β : Type*} (f : α → β) (pairs : List (α × α)) :
    bothWays (pairs.map (Prod.map f f)) = (bothWays pairs).map (Prod.map f f) := by
  rw [bothWays, bothWays, List.flatMap_map, List.map_flatMap]
  rfl

/-- **The pairs of a list without repeats, in both orders, have no repeats.** -/
theorem nodup_bothWays {l : List α} (distinct : l.Nodup) : (bothWays (laterPairs l)).Nodup := by
  induction l with
  | nil => exact List.nodup_nil
  | cons head rest ih =>
      obtain ⟨fresh, distinct⟩ := List.nodup_cons.mp distinct
      rw [laterPairs, bothWays, List.flatMap_append, ← bothWays, ← bothWays]
      refine List.Nodup.append ?_ (ih distinct) ?_
      · -- the pairs of the head with different elements differ, and so do the two orders
        rw [bothWays, List.flatMap_map]
        refine List.nodup_flatMap.mpr ⟨fun b member => ?_, ?_⟩
        · have different : head ≠ b := fun same => fresh (same ▸ member)
          simp [different]
        · refine distinct.pairwise_of_forall_ne ?_
          intro b member c member' different
          have first : head ≠ b := fun same => fresh (same ▸ member)
          have second : head ≠ c := fun same => fresh (same ▸ member')
          intro pair here there
          simp only [List.mem_cons, List.not_mem_nil, or_false, Prod.swap_prod_mk] at here there
          grind
      · -- the later pairs do not name the head
        rintro ⟨a, b⟩ here there
        have named : a = head ∨ b = head := by
          rcases mem_bothWays.mp here with member | member <;>
            obtain ⟨c, -, pair⟩ := List.mem_map.mp member
          · exact Or.inl (Prod.mk.inj pair).1.symm
          · exact Or.inr (Prod.mk.inj pair).1.symm
        have inside : a ∈ rest ∧ b ∈ rest := by
          rcases mem_bothWays.mp there with member | member
          · exact (mem_laterPairs.mp member).mem
          · exact (mem_laterPairs.mp member).mem.symm
        rcases named with rfl | rfl
        · exact fresh inside.1
        · exact fresh inside.2

end OsmMini.Foundations

import Mathlib.Data.List.Sort
import Mathlib.Data.List.TakeWhile
import Mathlib.Order.Lattice

/-!
# Sorting by stable insertion

A list is kept in the order of a key while elements come one after the other. Each is put
behind the elements whose keys are not larger, so elements with the same key stay in the order
in which they came, and the list ends as the stable sort of all of them (`foldl_insertAfter`).

What lies behind the first entries never moves to the front. Cutting the list to a number of
entries after each insertion therefore keeps the first entries of the sort
(`foldl_insertWithin`).
-/

set_option autoImplicit false

namespace OsmMini.Foundations

variable {α κ : Type*} [LinearOrder κ] (key : α → κ)

/-- Put an element behind those whose keys are not larger. -/
def insertAfter (x : α) : List α → List α
  | [] => [x]
  | a :: l => if key a ≤ key x then a :: insertAfter x l else x :: a :: l

/-- The same, of which a number of entries is kept. -/
def insertWithin (limit : ℕ) (l : List α) (x : α) : List α := (insertAfter key x l).take limit

/-- The stable sort by a key. -/
def sortByKey (l : List α) : List α := l.insertionSort fun a b => key a ≤ key b

theorem insertAfter_perm (x : α) (l : List α) : (insertAfter key x l).Perm (x :: l) := by
  induction l with
  | nil => exact List.Perm.refl _
  | cons a l ih =>
      rw [insertAfter]
      by_cases after : key a ≤ key x
      · rw [if_pos after]
        exact (ih.cons a).trans (List.Perm.swap x a l)
      · rw [if_neg after]

theorem length_insertAfter (x : α) (l : List α) :
    (insertAfter key x l).length = l.length + 1 := by
  rw [(insertAfter_perm key x l).length_eq, List.length_cons]

/-- The element stands between the elements whose keys are not larger and the rest. -/
theorem insertAfter_eq (x : α) (l : List α) :
    insertAfter key x l =
      l.takeWhile (fun a => key a ≤ key x) ++ x :: l.dropWhile (fun a => key a ≤ key x) := by
  induction l with
  | nil => rfl
  | cons a l ih =>
      rw [insertAfter]
      by_cases after : key a ≤ key x
      · rw [if_pos after, List.takeWhile_cons_of_pos (by simpa using after),
          List.dropWhile_cons_of_pos (by simpa using after), ih, List.cons_append]
      · rw [if_neg after, List.takeWhile_cons_of_neg (by simpa using after),
          List.dropWhile_cons_of_neg (by simpa using after), List.nil_append]

/-- **An element that comes first and one that comes last** can be put in place in either
order. -/
theorem insertAfter_orderedInsert (first last : α) (l : List α) :
    insertAfter key last (l.orderedInsert (fun a b => key a ≤ key b) first) =
      (insertAfter key last l).orderedInsert (fun a b => key a ≤ key b) first := by
  induction l with
  | nil =>
      rw [List.orderedInsert_nil, insertAfter, insertAfter, List.orderedInsert_cons,
        List.orderedInsert_nil]
      rfl
  | cons a l ih =>
      rw [List.orderedInsert_cons, insertAfter]
      by_cases front : key first ≤ key a
      · rw [if_pos front, insertAfter]
        by_cases after : key a ≤ key last
        · rw [if_pos after, if_pos (front.trans after), List.orderedInsert_cons, if_pos front,
            insertAfter, if_pos after]
        · rw [if_neg after, List.orderedInsert_cons, insertAfter, if_neg after,
            List.orderedInsert_cons, if_pos front]
      · rw [if_neg front, insertAfter]
        by_cases after : key a ≤ key last
        · rw [if_pos after, if_pos after, List.orderedInsert_cons, if_neg front, ih]
        · have behind : ¬ key first ≤ key last := fun le =>
            front (le.trans (not_le.mp after).le)
          rw [if_neg after, if_neg after, List.orderedInsert_cons, if_neg behind,
            List.orderedInsert_cons, if_neg front]

theorem foldl_insertAfter_orderedInsert (first : α) (elements : List α) : ∀ l : List α,
    elements.foldl (fun l x => insertAfter key x l)
        (l.orderedInsert (fun a b => key a ≤ key b) first) =
      (elements.foldl (fun l x => insertAfter key x l) l).orderedInsert
        (fun a b => key a ≤ key b) first := by
  induction elements with
  | nil => exact fun _ => rfl
  | cons x elements ih =>
      intro l
      rw [List.foldl_cons, List.foldl_cons, insertAfter_orderedInsert]
      exact ih _

/-- **Inserting one after the other sorts.** -/
theorem foldl_insertAfter (elements : List α) :
    elements.foldl (fun l x => insertAfter key x l) [] = sortByKey key elements := by
  induction elements with
  | nil => rfl
  | cons x elements ih =>
      have start : insertAfter key x [] = ([] : List α).orderedInsert
        (fun a b => key a ≤ key b) x := rfl
      rw [List.foldl_cons, start, foldl_insertAfter_orderedInsert, ih]
      rfl

/-- Entries behind the limit do not change what stands before it. -/
theorem take_insertAfter (x : α) (l : List α) : ∀ limit : ℕ,
    (insertAfter key x (l.take limit)).take limit = (insertAfter key x l).take limit := by
  induction l with
  | nil =>
      intro limit
      rw [List.take_nil]
  | cons a l ih =>
      intro limit
      cases limit with
      | zero => rw [List.take_zero, List.take_zero]
      | succ limit =>
          rw [List.take_succ_cons, insertAfter, insertAfter]
          by_cases after : key a ≤ key x
          · rw [if_pos after, if_pos after, List.take_succ_cons, List.take_succ_cons, ih]
          · rw [if_neg after, if_neg after, List.take_succ_cons, List.take_succ_cons]
            congr 1
            cases limit with
            | zero => rw [List.take_zero, List.take_zero]
            | succ limit =>
                rw [List.take_succ_cons, List.take_succ_cons, List.take_take]
                congr 2
                omega

/-- **Cutting the list after each insertion keeps the first entries of the sort.** -/
theorem foldl_insertWithin (limit : ℕ) (elements : List α) :
    elements.foldl (insertWithin key limit) [] = (sortByKey key elements).take limit := by
  have cut : ∀ l : List α, elements.foldl (insertWithin key limit) (l.take limit) =
      (elements.foldl (fun l x => insertAfter key x l) l).take limit := by
    induction elements with
    | nil => exact fun _ => rfl
    | cons x elements ih =>
        intro l
        rw [List.foldl_cons, List.foldl_cons, insertWithin, take_insertAfter]
        exact ih _
  have whole := cut []
  rw [List.take_nil, foldl_insertAfter] at whole
  exact whole

theorem sortByKey_perm (l : List α) : (sortByKey key l).Perm l := List.perm_insertionSort ..

theorem sortByKey_sorted (l : List α) :
    (sortByKey key l).Pairwise fun a b => key a ≤ key b := by
  have total : Std.Total fun a b : α => key a ≤ key b := ⟨fun a b => le_total _ _⟩
  have transitive : IsTrans α fun a b => key a ≤ key b := ⟨fun _ _ _ => le_trans⟩
  exact List.pairwise_insertionSort (fun a b => key a ≤ key b) l

theorem insertAfter_sorted (x : α) {l : List α} (sorted : l.Pairwise fun a b => key a ≤ key b) :
    (insertAfter key x l).Pairwise fun a b => key a ≤ key b := by
  induction l with
  | nil => exact List.pairwise_singleton _ _
  | cons a l ih =>
      obtain ⟨least, rest⟩ := List.pairwise_cons.mp sorted
      rw [insertAfter]
      by_cases after : key a ≤ key x
      · rw [if_pos after]
        refine List.pairwise_cons.mpr ⟨fun b member => ?_, ih rest⟩
        rcases List.mem_cons.mp ((insertAfter_perm key x l).subset member) with rfl | old
        · exact after
        · exact least b old
      · rw [if_neg after]
        have before : key x ≤ key a := (not_le.mp after).le
        refine List.pairwise_cons.mpr ⟨fun b member => ?_, sorted⟩
        rcases List.mem_cons.mp member with rfl | later
        · exact before
        · exact before.trans (least b later)

/-- In a sorted list the place is found from the end as well. -/
theorem insertAfter_eq_fromEnd (x : α) {l : List α}
    (sorted : l.Pairwise fun a b => key a ≤ key b) :
    (l.reverse.dropWhile fun a => key x < key a).reverse ++
        x :: (l.reverse.takeWhile fun a => key x < key a).reverse = insertAfter key x l := by
  rw [insertAfter_eq]
  have larger : ∀ a ∈ l.dropWhile (fun a => key a ≤ key x), key x < key a := by
    induction l with
    | nil => simp
    | cons a l ih =>
        obtain ⟨least, rest⟩ := List.pairwise_cons.mp sorted
        by_cases after : key a ≤ key x
        · rw [List.dropWhile_cons_of_pos (by simpa using after)]
          exact ih rest
        · rw [List.dropWhile_cons_of_neg (by simpa using after)]
          have before : key x < key a := not_le.mp after
          intro b member
          rcases List.mem_cons.mp member with rfl | later
          · exact before
          · exact before.trans_le (least b later)
  have split : l.reverse = (l.dropWhile fun a => key a ≤ key x).reverse ++
      (l.takeWhile fun a => key a ≤ key x).reverse := by
    rw [← List.reverse_append, List.takeWhile_append_dropWhile]
  have stops : ∀ a ∈ l.takeWhile (fun a => key a ≤ key x), ¬ key x < key a := fun a member =>
    not_lt.mpr (by simpa using List.mem_takeWhile_imp member)
  have whole : ∀ front back : List α, (∀ a ∈ front, key x < key a) →
      (∀ a ∈ back, ¬ key x < key a) →
      (front ++ back).takeWhile (fun a => key x < key a) = front ∧
        (front ++ back).dropWhile (fun a => key x < key a) = back := by
    intro front back above below
    rw [List.takeWhile_append_of_pos (by simpa using above),
      List.dropWhile_append_of_pos (by simpa using above)]
    cases back with
    | nil => simp
    | cons b back =>
        have first := below b List.mem_cons_self
        rw [List.takeWhile_cons_of_neg (by simpa using first),
          List.dropWhile_cons_of_neg (by simpa using first)]
        simp
  obtain ⟨front, back⟩ := whole _ _ (fun a member => larger a (List.mem_reverse.mp member))
    (fun a member => stops a (List.mem_reverse.mp member))
  rw [split, front, back, List.reverse_reverse, List.reverse_reverse]

/-- Sorting what is mapped is mapping what is sorted. -/
theorem sortByKey_map {β : Type*} (f : β → α) (l : List β) :
    sortByKey key (l.map f) = (sortByKey (fun b => key (f b)) l).map f :=
  (List.map_insertionSort (fun a b : β => key (f a) ≤ key (f b)) (fun a b => key a ≤ key b) f l
    fun _ _ _ _ => Iff.rfl).symm

/-- The sort depends on the comparisons of the elements only. -/
theorem insertionSort_eq_sortByKey {r : α → α → Prop} [DecidableRel r] {l : List α}
    (same : ∀ a ∈ l, ∀ b ∈ l, r a b ↔ key a ≤ key b) : l.insertionSort r = sortByKey key l := by
  have mapped := List.map_insertionSort r (fun a b => key a ≤ key b) id l same
  rwa [List.map_id, List.map_id] at mapped

/-- **When no two elements have the same key, the order in which they came does not matter.** -/
theorem sortByKey_eq_of_perm {l l' : List α} (perm : l'.Perm l)
    (distinct : ∀ a ∈ l, ∀ b ∈ l, key a = key b → a = b) : sortByKey key l' = sortByKey key l := by
  refine ((sortByKey_perm key l').trans (perm.trans (sortByKey_perm key l).symm)).eq_of_pairwise
    (fun a b inA inB less more => ?_) (sortByKey_sorted key l') (sortByKey_sorted key l)
  have left := perm.subset ((sortByKey_perm key l').subset inA)
  have right := (sortByKey_perm key l).subset inB
  exact distinct a left b right (le_antisymm less more)

/-- An element that is not before the last of a full list is dropped again. -/
theorem insertWithin_full {limit : ℕ} {l : List α} (full : l.length = limit) {x : α}
    (last : ∀ a ∈ l, key a ≤ key x) : insertWithin key limit l x = l := by
  have all : l.takeWhile (fun a => key a ≤ key x) = l :=
    List.takeWhile_eq_self_iff.mpr (by simpa using last)
  rw [insertWithin, insertAfter_eq, all, ← full, List.take_left']
  rfl

/-- **The merge sort is the same stable sort.** -/
theorem mergeSort_eq_sortByKey (l : List α) :
    l.mergeSort (fun a b => key a ≤ key b) = sortByKey key l := by
  have trans : ∀ a b c : α, decide (key a ≤ key b) → decide (key b ≤ key c) →
      decide (key a ≤ key c) := by
    intro a b c first second
    simp only [decide_eq_true_eq] at first second ⊢
    exact first.trans second
  have total : ∀ a b : α, decide (key a ≤ key b) || decide (key b ≤ key a) := by
    intro a b
    rcases le_total (key a) (key b) with le | le <;> simp [le]
  induction l with
  | nil => simp [sortByKey]
  | cons a l ih =>
      obtain ⟨front, back, whole, rest, smaller⟩ := List.mergeSort_cons trans total a l
      have sorted := List.pairwise_mergeSort trans total (a :: l)
      rw [whole] at sorted
      have behind : ∀ b ∈ back, key a ≤ key b := by
        intro b member
        have inOrder := (List.pairwise_append.mp sorted).2.1
        simpa using (List.pairwise_cons.mp inOrder).1 b member
      have ahead : ∀ b ∈ front, ¬ key a ≤ key b := by simpa using smaller
      have placed : ∀ front : List α, (∀ b ∈ front, ¬ key a ≤ key b) →
          (front ++ back).orderedInsert (fun a b => key a ≤ key b) a = front ++ a :: back := by
        intro front ahead
        induction front with
        | nil =>
            cases back with
            | nil => rfl
            | cons b back =>
                rw [List.nil_append, List.orderedInsert_cons, if_pos (behind b List.mem_cons_self)]
                rfl
        | cons b front ih =>
            obtain ⟨here, ahead⟩ := List.forall_mem_cons.mp ahead
            rw [List.cons_append, List.orderedInsert_cons, if_neg here, ih ahead]
            rfl
      rw [whole, sortByKey, List.insertionSort_cons, ← sortByKey, ← ih, rest, placed front ahead]

end OsmMini.Foundations

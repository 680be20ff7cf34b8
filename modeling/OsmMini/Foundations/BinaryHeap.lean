import Mathlib

/-!
# Array heaps that move a hole

A binary heap kept in a list, with a priority read off each element. Pushing and
popping do not swap: they carry the new element along, shift the elements it
passes into the hole it leaves behind, and write it once at the end.

A list is a heap when no element has a smaller priority than its parent
(`IsHeap`). Pushing and popping keep that order (`isHeap_push`, `isHeap_pop`),
the popped element has the least priority (`pop_min`), and the elements are
exactly those pushed and not yet popped (`push_perm`, `pop_perm`).
-/

set_option autoImplicit false

namespace OsmMini.Foundations.BinaryHeap

variable {α K : Type*} [LinearOrder K] (priority : α → K)

/-! ## The two loops -/

/-- The upward loop of a push: the hole is at `i`, and `v` is written where the
loop stops. -/
def siftUp (a : List α) (v : α) (i : ℕ) : List α :=
  if _h : i = 0 then a.set 0 v
  else
    match a[(i - 1) / 2]? with
    | none => a.set i v
    | some parent =>
      if priority parent ≤ priority v then a.set i v
      else siftUp (a.set i parent) v ((i - 1) / 2)
termination_by i
decreasing_by omega

/-- The smaller child of `i`: the right one only when it is strictly smaller. -/
def smallerChild (a : List α) (i : ℕ) : ℕ :=
  match a[2 * i + 1]?, a[2 * i + 2]? with
  | some left, some right => if priority right < priority left then 2 * i + 2 else 2 * i + 1
  | _, _ => 2 * i + 1

theorem smallerChild_cases (a : List α) (i : ℕ) :
    smallerChild priority a i = 2 * i + 1 ∨ smallerChild priority a i = 2 * i + 2 := by
  unfold smallerChild
  split
  · split
    · exact .inr rfl
    · exact .inl rfl
  · exact .inl rfl

theorem lt_smallerChild (a : List α) (i : ℕ) : i < smallerChild priority a i := by
  rcases smallerChild_cases priority a i with h | h <;> omega

/-- The downward loop of a pop: the hole is at `i`, and `v` is written where the
loop stops. -/
def siftDown (a : List α) (v : α) (i : ℕ) : List α :=
  match _h : a[smallerChild priority a i]? with
  | none => a.set i v
  | some child =>
    if priority v ≤ priority child then a.set i v
    else siftDown (a.set i child) v (smallerChild priority a i)
termination_by a.length - i
decreasing_by
  have inside : smallerChild priority a i < a.length := (List.getElem?_eq_some_iff.mp ‹_›).1
  have below := lt_smallerChild priority a i
  simp only [List.length_set]
  omega

/-- Append at the end and move up. -/
def push (a : List α) (v : α) : List α :=
  siftUp priority (a ++ [v]) v a.length

/-- Take the root out and move the last element down from there. -/
def pop : List α → Option (α × List α)
  | [] => none
  | out :: rest =>
    match rest.getLast? with
    | none => some (out, [])
    | some last => some (out, siftDown priority (out :: rest).dropLast last 0)

/-- Move the element at `i` down to where it belongs. -/
def sink (a : List α) (i : ℕ) : List α :=
  match a[i]? with
  | none => a
  | some v => siftDown priority a v i

/-- Make a heap of a list: every element that has a child is moved down, the last one
first. -/
def heapify (a : List α) : List α :=
  (List.range (a.length / 2)).reverse.foldl (sink priority) a

/-- Put another element in the place of the root and move it down. -/
def replaceRoot (a : List α) (v : α) : List α := sink priority (a.set 0 v) 0

/-! ## Heap order -/

/-- No element has a smaller priority than its parent. -/
def IsHeap (a : List α) : Prop :=
  ∀ j (_ : 0 < j) (hj : j < a.length), priority a[(j - 1) / 2] ≤ priority a[j]

/-- Heap order away from a hole at `i`: pairs that touch the hole are exempt, and
the children of the hole are ordered below its parent. -/
def HoleHeap (a : List α) (i : ℕ) : Prop :=
  (∀ j (_ : 0 < j) (hj : j < a.length), j ≠ i → (j - 1) / 2 ≠ i →
    priority a[(j - 1) / 2] ≤ priority a[j]) ∧
  ∀ j (_ : 0 < j) (hj : j < a.length) (_ : 0 < i) (_ : (j - 1) / 2 = i),
    priority a[(i - 1) / 2] ≤ priority a[j]

/-- Heap order among the elements from `k` on and their children. -/
def IsHeapFrom (k : ℕ) (a : List α) : Prop :=
  ∀ j (_ : 0 < j) (hj : j < a.length), k ≤ (j - 1) / 2 → priority a[(j - 1) / 2] ≤ priority a[j]

/-- The same away from a hole at `i`. -/
def HoleHeapFrom (k : ℕ) (a : List α) (i : ℕ) : Prop :=
  (∀ j (_ : 0 < j) (hj : j < a.length), k ≤ (j - 1) / 2 → j ≠ i → (j - 1) / 2 ≠ i →
    priority a[(j - 1) / 2] ≤ priority a[j]) ∧
  ∀ j (_ : 0 < j) (hj : j < a.length) (_ : 0 < i) (_ : (j - 1) / 2 = i), k ≤ (i - 1) / 2 →
    priority a[(i - 1) / 2] ≤ priority a[j]

variable {priority}

/-- The root of a heap has the least priority. -/
theorem IsHeap.root_le {a : List α} (heap : IsHeap priority a) (j : ℕ) (hj : j < a.length) :
    priority a[0] ≤ priority a[j] := by
  induction j using Nat.strongRecOn with
  | ind j ih =>
    rcases Nat.eq_zero_or_pos j with rfl | positive
    · exact le_refl _
    · exact (ih ((j - 1) / 2) (by omega) (by omega)).trans (heap j positive hj)

/-- Filling the hole with an element that fits between its parent and its
children restores the order. -/
theorem HoleHeapFrom.fill {a : List α} {k i : ℕ} (hole : HoleHeapFrom priority k a i)
    (hi : i < a.length) (v : α)
    (above : 0 < i → k ≤ (i - 1) / 2 → priority a[(i - 1) / 2] ≤ priority v)
    (below : ∀ j (_ : 0 < j) (hj : j < a.length), (j - 1) / 2 = i → priority v ≤ priority a[j]) :
    IsHeapFrom priority k (a.set i v) := by
  intro j positive hj from_k
  rw [List.length_set] at hj
  simp only [List.getElem_set]
  by_cases at_hole : i = j
  · have parent_ne : i ≠ (j - 1) / 2 := by omega
    simp only [at_hole, ↓reduceIte, if_neg (at_hole ▸ parent_ne)]
    subst at_hole
    exact above positive from_k
  · by_cases under_hole : i = (j - 1) / 2
    · simp only [if_pos under_hole, if_neg at_hole]
      exact below j positive hj under_hole.symm
    · simp only [if_neg under_hole, if_neg at_hole]
      exact hole.1 j positive hj from_k (Ne.symm at_hole) (Ne.symm under_hole)

theorem IsHeapFrom.isHeap {a : List α} (heap : IsHeapFrom priority 0 a) : IsHeap priority a :=
  fun j positive hj => heap j positive hj (Nat.zero_le _)

theorem HoleHeap.from_zero {a : List α} {i : ℕ} (hole : HoleHeap priority a i) :
    HoleHeapFrom priority 0 a i :=
  ⟨fun j positive hj _ => hole.1 j positive hj,
    fun j positive hj higher same _ => hole.2 j positive hj higher same⟩

theorem HoleHeap.fill {a : List α} {i : ℕ} (hole : HoleHeap priority a i) (hi : i < a.length)
    (v : α) (above : 0 < i → priority a[(i - 1) / 2] ≤ priority v)
    (below : ∀ j (_ : 0 < j) (hj : j < a.length), (j - 1) / 2 = i → priority v ≤ priority a[j]) :
    IsHeap priority (a.set i v) :=
  (hole.from_zero.fill hi v (fun higher _ => above higher) below).isHeap

/-- Shifting the parent into the hole moves the hole up. -/
theorem HoleHeap.moveUp {a : List α} {i : ℕ} (hole : HoleHeap priority a i) (hi : i < a.length)
    (positive : 0 < i) : HoleHeap priority (a.set i a[(i - 1) / 2]) ((i - 1) / 2) := by
  constructor
  · intro j hpos hj away under
    rw [List.length_set] at hj
    simp only [List.getElem_set]
    have parent_ne : i ≠ j → ¬ i = (j - 1) / 2 → priority a[(j - 1) / 2] ≤ priority a[j] :=
      fun h h' => hole.1 j hpos hj (Ne.symm h) (Ne.symm h')
    by_cases at_hole : i = j
    · exact absurd (at_hole ▸ rfl) under
    · by_cases under_hole : i = (j - 1) / 2
      · simp only [if_pos under_hole, if_neg at_hole]
        exact hole.2 j hpos hj positive under_hole.symm
      · simp only [if_neg under_hole, if_neg at_hole]
        exact parent_ne at_hole under_hole
  · intro j hpos hj higher same
    rw [List.length_set] at hj
    have up : priority a[((i - 1) / 2 - 1) / 2] ≤ priority a[(i - 1) / 2] :=
      hole.1 ((i - 1) / 2) higher (by omega) (by omega) (by omega)
    simp only [List.getElem_set]
    rw [if_neg (by omega)]
    by_cases at_hole : i = j
    · rw [if_pos at_hole]
      exact up
    · rw [if_neg at_hole]
      have down := hole.1 j hpos hj (Ne.symm at_hole) (by omega)
      simp only [same] at down
      exact up.trans down

/-- Shifting the smaller child into the hole moves the hole down. -/
theorem HoleHeapFrom.moveDown {a : List α} {k i c : ℕ} (hole : HoleHeapFrom priority k a i)
    (from_k : k ≤ i) (hc : c < a.length) (positive : 0 < c) (child : (c - 1) / 2 = i)
    (smaller : ∀ j (_ : 0 < j) (hj : j < a.length), (j - 1) / 2 = i →
      priority a[c] ≤ priority a[j]) :
    HoleHeapFrom priority k (a.set i a[c]) c := by
  constructor
  · intro j hpos hj inside away under
    rw [List.length_set] at hj
    simp only [List.getElem_set]
    by_cases at_hole : i = j
    · subst at_hole
      rw [if_neg (by omega), if_pos rfl]
      exact hole.2 c positive hc hpos child inside
    · rw [if_neg at_hole]
      by_cases under_hole : i = (j - 1) / 2
      · rw [if_pos under_hole]
        exact smaller j hpos hj under_hole.symm
      · rw [if_neg under_hole]
        exact hole.1 j hpos hj inside (Ne.symm at_hole) (Ne.symm under_hole)
  · intro j hpos hj _ same _
    rw [List.length_set] at hj
    simp only [List.getElem_set]
    rw [if_pos child.symm, if_neg (by omega)]
    have ordered := hole.1 j hpos hj (by omega) (by omega) (by omega)
    simp only [same] at ordered
    exact ordered

/-- The child picked by `smallerChild` is below no other child. -/
theorem smallerChild_le {a : List α} {i c : ℕ} (picked : smallerChild priority a i = c)
    (hc : c < a.length) (j : ℕ) (hpos : 0 < j) (hj : j < a.length) (child : (j - 1) / 2 = i) :
    priority a[c] ≤ priority a[j] := by
  have side : j = 2 * i + 1 ∨ j = 2 * i + 2 := by omega
  unfold smallerChild at picked
  split at picked
  · rename_i left right hl hr
    obtain ⟨_, rfl⟩ := List.getElem?_eq_some_iff.mp hl
    obtain ⟨_, rfl⟩ := List.getElem?_eq_some_iff.mp hr
    split at picked
    · rename_i right_smaller
      subst picked
      rcases side with rfl | rfl
      · exact right_smaller.le
      · exact le_refl _
    · rename_i left_smaller
      subst picked
      rcases side with rfl | rfl
      · exact le_refl _
      · exact not_lt.mp left_smaller
  · rename_i none_right
    subst picked
    rcases side with rfl | rfl
    · exact le_refl _
    · exact absurd (List.getElem?_eq_getElem hj)
        (none_right _ _ (List.getElem?_eq_getElem (by omega)))

theorem isHeap_siftUp {v : α} {i : ℕ} : ∀ {a : List α}, HoleHeap priority a i → i < a.length →
    (∀ j (_ : 0 < j) (hj : j < a.length), (j - 1) / 2 = i → priority v ≤ priority a[j]) →
    IsHeap priority (siftUp priority a v i) := by
  induction i using Nat.strongRecOn with
  | ind i ih =>
    intro a hole hi below
    unfold siftUp
    split
    · rename_i root
      subst root
      exact hole.fill hi v (fun h => absurd h (Nat.lt_irrefl 0)) below
    · rename_i inner
      have parent_lt : (i - 1) / 2 < a.length := by omega
      simp only [List.getElem?_eq_getElem parent_lt]
      split
      · rename_i stop
        exact hole.fill hi v (fun _ => stop) below
      · rename_i smaller
        refine ih ((i - 1) / 2) (by omega) (hole.moveUp hi (by omega)) (by simpa using parent_lt) ?_
        intro j hpos hj same
        rw [List.length_set] at hj
        simp only [List.getElem_set]
        split
        · exact (not_le.mp smaller).le
        · rename_i away
          have ordered := hole.1 j hpos hj (Ne.symm away) (by omega)
          simp only [same] at ordered
          exact (not_le.mp smaller).le.trans ordered

theorem isHeapFrom_siftDown {v : α} {k : ℕ} : ∀ {n : ℕ} {a : List α} {i : ℕ}
    (_ : a.length - i ≤ n) (_ : HoleHeapFrom priority k a i) (_ : i < a.length) (_ : k ≤ i),
    (0 < i → k ≤ (i - 1) / 2 → priority a[(i - 1) / 2] ≤ priority v) →
    IsHeapFrom priority k (siftDown priority a v i) := by
  intro n
  induction n with
  | zero => intro a i small _ hi _ _; omega
  | succ n ih =>
    intro a i small hole hi from_k above
    unfold siftDown
    have child : (smallerChild priority a i - 1) / 2 = i := by
      rcases smallerChild_cases priority a i with h | h <;> omega
    have deeper := lt_smallerChild priority a i
    split
    · rename_i outside
      have leaf : a.length ≤ smallerChild priority a i := List.getElem?_eq_none_iff.mp outside
      refine hole.fill hi v above fun j hpos hj same => ?_
      exfalso
      unfold smallerChild at leaf
      split at leaf
      · rename_i left right hl hr
        obtain ⟨_, _⟩ := List.getElem?_eq_some_iff.mp hl
        obtain ⟨_, _⟩ := List.getElem?_eq_some_iff.mp hr
        split at leaf <;> omega
      · omega
    · rename_i c found
      obtain ⟨inside, rfl⟩ := List.getElem?_eq_some_iff.mp found
      split
      · rename_i stop
        exact hole.fill hi v above fun j hpos hj same =>
          stop.trans (smallerChild_le rfl inside j hpos hj same)
      · rename_i smaller
        refine ih (by simp only [List.length_set]; omega)
          (hole.moveDown from_k inside (by omega) child
            fun j hpos hj same => smallerChild_le rfl inside j hpos hj same)
          (by simpa using inside) (by omega) fun _ _ => ?_
        simp only [List.getElem_set]
        rw [if_pos child.symm]
        exact (not_le.mp smaller).le

theorem isHeap_siftDown {v : α} {a : List α} {i : ℕ} (hole : HoleHeap priority a i)
    (hi : i < a.length) (above : 0 < i → priority a[(i - 1) / 2] ≤ priority v) :
    IsHeap priority (siftDown priority a v i) :=
  (isHeapFrom_siftDown (le_refl _) hole.from_zero hi (Nat.zero_le _)
    fun higher _ => above higher).isHeap

theorem IsHeap.nil : IsHeap priority ([] : List α) :=
  fun j _ hj => absurd hj (Nat.not_lt_zero j)

/-- **A push keeps the heap order.** -/
theorem isHeap_push {a : List α} (heap : IsHeap priority a) (v : α) :
    IsHeap priority (push priority a v) := by
  have append : ∀ j (hj : j < a.length) (hj' : j < (a ++ [v]).length), (a ++ [v])[j] = a[j] :=
    fun j hj _ => List.getElem_append_left hj
  refine isHeap_siftUp ⟨?_, ?_⟩ (by simp) ?_
  · intro j hpos hj away _
    have inside : j < a.length := by simp at hj; omega
    simp only [append j inside, append ((j - 1) / 2) (by omega)]
    exact heap j hpos inside
  · intro j hpos hj _ same
    simp at hj
    omega
  · intro j hpos hj same
    simp at hj
    omega

/-- **A pop keeps the heap order.** -/
theorem isHeap_pop {a rest : List α} {out : α} (heap : IsHeap priority a)
    (popped : pop priority a = some (out, rest)) : IsHeap priority rest := by
  cases a with
  | nil => simp [pop] at popped
  | cons first tail =>
    simp only [pop] at popped
    split at popped
    · simp only [Option.some.injEq, Prod.mk.injEq] at popped
      obtain ⟨-, rfl⟩ := popped
      exact IsHeap.nil
    · rename_i last hlast
      simp only [Option.some.injEq, Prod.mk.injEq] at popped
      obtain ⟨-, rfl⟩ := popped
      have nonempty : tail ≠ [] := by rintro rfl; simp at hlast
      have size : ((first :: tail).dropLast).length = tail.length := by simp
      refine isHeap_siftDown ⟨?_, fun j _ _ h _ => absurd h (Nat.lt_irrefl 0)⟩
        (by rw [size]; exact List.length_pos_iff.mpr nonempty)
        (fun h => absurd h (Nat.lt_irrefl 0))
      intro j hpos hj _ _
      rw [size] at hj
      simp only [List.getElem_dropLast]
      exact heap j hpos (by simp; omega)

/-- **The popped element has the least priority.** -/
theorem pop_min {a rest : List α} {out : α} (heap : IsHeap priority a)
    (popped : pop priority a = some (out, rest)) (x : α) (member : x ∈ a) :
    priority out ≤ priority x := by
  cases a with
  | nil => simp [pop] at popped
  | cons first tail =>
    have same : out = first := by
      simp only [pop] at popped
      split at popped <;> simp only [Option.some.injEq, Prod.mk.injEq] at popped <;>
        exact popped.1.symm
    obtain ⟨j, hj, rfl⟩ := List.mem_iff_getElem.mp member
    exact same ▸ heap.root_le j hj

/-! ## The elements of a heap -/

/-- Exchanging the element of a hole with the one it is filled from. -/
theorem set_set_perm {a : List α} {i j : ℕ} (hi : i < a.length) (hj : j < a.length)
    (different : i ≠ j) (v : α) : ((a.set i a[j]).set j v).Perm (a.set i v) := by
  classical
  rw [List.perm_iff_count]
  intro x
  rw [List.count_set (by simpa using hj), List.count_set hi, List.count_set hi,
    List.getElem_set_of_ne different]
  have here : (a[i] == x) = true → 0 < List.count x a := fun h =>
    List.count_pos_iff.mpr (by simp only [beq_iff_eq] at h; exact h ▸ List.getElem_mem hi)
  by_cases h1 : (a[i] == x) = true <;> by_cases h2 : (a[j] == x) = true <;>
    simp only [h1, h2, if_true, if_false, Bool.false_eq_true] <;> grind

theorem siftUp_perm {v : α} {i : ℕ} : ∀ {a : List α}, i < a.length →
    (siftUp priority a v i).Perm (a.set i v) := by
  induction i using Nat.strongRecOn with
  | ind i ih =>
    intro a hi
    unfold siftUp
    split
    · rename_i root
      subst root
      exact List.Perm.refl _
    · have parent_lt : (i - 1) / 2 < a.length := by omega
      simp only [List.getElem?_eq_getElem parent_lt]
      split
      · exact List.Perm.refl _
      · exact (ih ((i - 1) / 2) (by omega) (by simpa using parent_lt)).trans
          (set_set_perm hi parent_lt (by omega) v)

theorem siftDown_perm {v : α} : ∀ {n : ℕ} {a : List α} {i : ℕ}, a.length - i ≤ n →
    i < a.length → (siftDown priority a v i).Perm (a.set i v) := by
  intro n
  induction n with
  | zero => intro a i small hi; omega
  | succ n ih =>
    intro a i small hi
    unfold siftDown
    have deeper := lt_smallerChild priority a i
    split
    · exact List.Perm.refl _
    · rename_i c found
      obtain ⟨inside, rfl⟩ := List.getElem?_eq_some_iff.mp found
      split
      · exact List.Perm.refl _
      · exact (ih (by simp only [List.length_set]; omega) (by simpa using inside)).trans
          (set_set_perm hi inside (by omega) v)

/-- **A push adds its element and nothing else.** -/
theorem push_perm (a : List α) (v : α) : (push priority a v).Perm (v :: a) := by
  refine (siftUp_perm (by simp)).trans ?_
  rw [List.set_append_right _ _ (le_refl _)]
  simp

/-- **A pop removes its element and nothing else.** -/
theorem pop_perm {a rest : List α} {out : α} (popped : pop priority a = some (out, rest)) :
    a.Perm (out :: rest) := by
  cases a with
  | nil => simp [pop] at popped
  | cons first tail =>
    simp only [pop] at popped
    split at popped
    · rename_i hlast
      simp only [Option.some.injEq, Prod.mk.injEq] at popped
      obtain ⟨rfl, rfl⟩ := popped
      rw [List.getLast?_eq_none_iff.mp hlast]
    · rename_i last hlast
      simp only [Option.some.injEq, Prod.mk.injEq] at popped
      obtain ⟨rfl, rfl⟩ := popped
      obtain ⟨init, rfl⟩ := List.getLast?_eq_some_iff.mp hlast
      have body : (first :: (init ++ [last])).dropLast = first :: init := by
        rw [← List.cons_append, List.dropLast_concat]
      rw [body]
      have moved : (siftDown priority (first :: init) last 0).Perm (last :: init) :=
        siftDown_perm (le_refl _) (by simp)
      exact ((List.perm_append_singleton last init).trans moved.symm).cons first

/-! ## Making a heap -/

theorem sink_perm (a : List α) (i : ℕ) : (sink priority a i).Perm a := by
  unfold sink
  split
  · exact List.Perm.refl _
  · rename_i v found
    obtain ⟨inside, rfl⟩ := List.getElem?_eq_some_iff.mp found
    refine (siftDown_perm (le_refl _) inside).trans ?_
    rw [List.set_getElem_self]

/-- Moving an element down extends the order by one place. -/
theorem isHeapFrom_sink {a : List α} {i : ℕ} (heap : IsHeapFrom priority (i + 1) a) :
    IsHeapFrom priority i (sink priority a i) := by
  unfold sink
  split
  · rename_i outside
    have past := List.getElem?_eq_none_iff.mp outside
    intro j positive hj from_i
    omega
  · rename_i v found
    obtain ⟨inside, rfl⟩ := List.getElem?_eq_some_iff.mp found
    refine isHeapFrom_siftDown (le_refl _) ⟨?_, ?_⟩ inside (le_refl _) ?_
    · intro j positive hj from_i _ away
      exact heap j positive hj (by omega)
    · intro j _ _ higher _ from_i
      omega
    · intro higher from_i
      omega

theorem foldl_sink {a : List α} : ∀ {n : ℕ}, IsHeapFrom priority n a →
    IsHeapFrom priority 0 ((List.range n).reverse.foldl (sink priority) a) ∧
      ((List.range n).reverse.foldl (sink priority) a).Perm a
  | 0, heap => ⟨heap, List.Perm.refl _⟩
  | n + 1, heap => by
      rw [List.range_succ, List.reverse_append, List.reverse_singleton, List.singleton_append,
        List.foldl_cons]
      obtain ⟨ordered, perm⟩ := foldl_sink (isHeapFrom_sink heap)
      exact ⟨ordered, perm.trans (sink_perm a n)⟩

theorem isHeapFrom_half (a : List α) : IsHeapFrom priority (a.length / 2) a := by
  intro j positive hj from_half
  omega

/-- **A heap is made of any list.** -/
theorem isHeap_heapify (a : List α) : IsHeap priority (heapify priority a) :=
  (foldl_sink (isHeapFrom_half a)).1.isHeap

theorem heapify_perm (a : List α) : (heapify priority a).Perm a :=
  (foldl_sink (isHeapFrom_half a)).2

/-- **Replacing the root keeps the heap order.** -/
theorem isHeap_replaceRoot {a : List α} (heap : IsHeap priority a) (v : α) :
    IsHeap priority (replaceRoot priority a v) := by
  refine (isHeapFrom_sink (i := 0) fun j positive hj under => ?_).isHeap
  rw [List.length_set] at hj
  have ordered := heap j positive hj
  rwa [List.getElem_set_ne (by omega), List.getElem_set_ne (by omega)]

theorem replaceRoot_perm (root : α) (rest : List α) (v : α) :
    (replaceRoot priority (root :: rest) v).Perm (v :: rest) :=
  sink_perm _ _

theorem pop_eq_none_iff {a : List α} : pop priority a = none ↔ a = [] := by
  cases a with
  | nil => simp [pop]
  | cons first tail =>
    simp only [pop, reduceCtorEq, iff_false]
    split <;> simp

end OsmMini.Foundations.BinaryHeap

/-!
## Runs of a heap

A queue is filled and emptied by pushes and pops in any order. After every run the list is a heap,
and it holds exactly the elements that were pushed and not yet popped (`Queued.run`). A pop of a
queue that is not empty returns an element of least priority (`Queued.pop_least`). Array heaps that
move a hole are such queues (`isPriorityQueue`).
-/

namespace OsmMini.Foundations.BinaryHeap

variable {α K : Type*}

/-- An operation of a queue. -/
inductive QueueOp (α : Type*) where
  | push (v : α)
  | pop
  deriving DecidableEq

/-- What some operations push. -/
def pushes : List (QueueOp α) → List α
  | [] => []
  | .push v :: ops => v :: pushes ops
  | .pop :: ops => pushes ops

/-- The queue after some operations, and what was popped. An empty queue cannot be popped. -/
def runQueue (push : List α → α → List α) (pop : List α → Option (α × List α)) :
    List (QueueOp α) → List α × List α → Option (List α × List α)
  | [], s => some s
  | .push v :: ops, s => runQueue push pop ops (push s.1 v, s.2)
  | .pop :: ops, s =>
    match pop s.1 with
    | none => none
    | some (out, rest) => runQueue push pop ops (rest, s.2 ++ [out])

/-- No pop meets an empty queue, if there are `n` elements at first. -/
def Poppable : ℕ → List (QueueOp α) → Prop
  | _, [] => True
  | n, .push _ :: ops => Poppable (n + 1) ops
  | n, .pop :: ops => 0 < n ∧ Poppable (n - 1) ops

variable [LinearOrder K] {priority : α → K}

/-- A heap with the elements that were pushed and not popped. -/
structure Queued (priority : α → K) (pushed : List α) (s : List α × List α) : Prop where
  heap : IsHeap priority s.1
  elements : (s.1 ++ s.2).Perm pushed

theorem Queued.push {pushed : List α} {s : List α × List α} (queued : Queued priority pushed s)
    (v : α) : Queued priority (pushed ++ [v]) (push priority s.1 v, s.2) where
  heap := isHeap_push queued.heap v
  elements := by
    have added : (BinaryHeap.push priority s.1 v).Perm (v :: s.1) := push_perm s.1 v
    refine ((added.append_right s.2).trans (queued.elements.cons v)).trans ?_
    exact (List.perm_append_singleton v pushed).symm

theorem Queued.pop {pushed : List α} {s : List α × List α} (queued : Queued priority pushed s)
    {out : α} {rest : List α} (popped : pop priority s.1 = some (out, rest)) :
    Queued priority pushed (rest, s.2 ++ [out]) where
  heap := isHeap_pop queued.heap popped
  elements := by
    have moved : (rest ++ (s.2 ++ [out])).Perm (out :: rest ++ s.2) := by
      rw [← List.append_assoc]
      exact List.perm_append_singleton out (rest ++ s.2)
    refine moved.trans (List.Perm.trans ?_ queued.elements)
    exact ((pop_perm popped).append_right s.2).symm

/-- **After every run** the queue is a heap of what was pushed and not popped. -/
theorem Queued.run : ∀ {ops : List (QueueOp α)} {pushed : List α} {s s' : List α × List α},
    Queued priority pushed s →
    runQueue (BinaryHeap.push priority) (BinaryHeap.pop priority) ops s = some s' →
    Queued priority (pushed ++ pushes ops) s' := by
  intro ops
  induction ops with
  | nil =>
      intro pushed s s' queued run
      rw [pushes, List.append_nil, ← Option.some.inj run]
      exact queued
  | cons op ops ih =>
      intro pushed s s' queued run
      cases op with
      | push v =>
          have next := ih (queued.push v) run
          rw [List.append_assoc] at next
          exact next
      | pop =>
          rw [runQueue] at run
          cases popped : BinaryHeap.pop priority s.1 with
          | none =>
              rw [popped] at run
              cases run
          | some taken =>
              obtain ⟨out, rest⟩ := taken
              rw [popped] at run
              exact ih (queued.pop popped) run

theorem queued_empty : Queued priority ([] : List α) ([], []) :=
  ⟨IsHeap.nil, List.Perm.nil⟩

/-- **A pop returns an element of least priority** and removes it alone. -/
theorem Queued.pop_least {pushed : List α} {s : List α × List α}
    (queued : Queued priority pushed s) (nonempty : s.1 ≠ []) :
    ∃ out rest, BinaryHeap.pop priority s.1 = some (out, rest) ∧ s.1.Perm (out :: rest) ∧
      ∀ x ∈ s.1, priority out ≤ priority x := by
  cases popped : BinaryHeap.pop priority s.1 with
  | none => exact absurd (pop_eq_none_iff.mp popped) nonempty
  | some taken =>
      obtain ⟨out, rest⟩ := taken
      exact ⟨out, rest, rfl, pop_perm popped, fun x member => pop_min queued.heap popped x member⟩

/-- **A run fails only at a pop of an empty queue.** -/
theorem runQueue_isSome_iff : ∀ {ops : List (QueueOp α)} {s : List α × List α},
    (runQueue (BinaryHeap.push priority) (BinaryHeap.pop priority) ops s).isSome ↔
      Poppable s.1.length ops := by
  intro ops
  induction ops with
  | nil =>
      intro s
      exact iff_of_true rfl trivial
  | cons op ops ih =>
      intro s
      cases op with
      | push v =>
          rw [runQueue, ih, Poppable, (push_perm s.1 v).length_eq, List.length_cons]
      | pop =>
          rw [runQueue, Poppable]
          cases popped : BinaryHeap.pop priority s.1 with
          | none =>
              rw [pop_eq_none_iff.mp popped]
              exact iff_of_false Bool.false_ne_true fun both => absurd both.1 (Nat.lt_irrefl 0)
          | some taken =>
              obtain ⟨out, rest⟩ := taken
              have length := (pop_perm popped).length_eq
              rw [List.length_cons] at length
              dsimp only
              rw [ih, length, Nat.add_sub_cancel]
              exact (and_iff_right (Nat.succ_pos _)).symm

/-- A push and a pop that keep a heap of what was pushed and not popped, and that pop the least. -/
structure IsPriorityQueue (priority : α → K) (push : List α → α → List α)
    (pop : List α → Option (α × List α)) : Prop where
  /-- A run fails only at a pop of an empty queue. -/
  runs : ∀ ops, (runQueue push pop ops ([], [])).isSome ↔ Poppable 0 ops
  heap : ∀ ops heap popped, runQueue push pop ops ([], []) = some (heap, popped) →
    IsHeap priority heap
  elements : ∀ ops heap popped, runQueue push pop ops ([], []) = some (heap, popped) →
    (heap ++ popped).Perm (pushes ops)
  least : ∀ ops heap popped, runQueue push pop ops ([], []) = some (heap, popped) → heap ≠ [] →
    ∃ out rest, pop heap = some (out, rest) ∧ heap.Perm (out :: rest) ∧
      ∀ x ∈ heap, priority out ≤ priority x

/-- **Array heaps that move a hole are priority queues.** -/
theorem isPriorityQueue (priority : α → K) :
    IsPriorityQueue priority (push priority) (pop priority) where
  runs _ := runQueue_isSome_iff
  heap _ _ _ run := (queued_empty.run run).heap
  elements _ _ _ run := (queued_empty.run run).elements
  least _ _ _ run nonempty := (queued_empty.run run).pop_least nonempty

end OsmMini.Foundations.BinaryHeap

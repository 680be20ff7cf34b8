import OsmMini.Foundations.BinaryHeap

/-!
# Merging sorted runs

Several readers each yield elements in order. A heap holds the next element of each
reader that has one. The merge takes the root of the heap, puts the next element of its
reader in its place, and drops a reader at its end. What it delivers is all the elements
in order (`merge_spec`).

Reading may fail; a merge of readers that do not fail does not fail.
-/

set_option autoImplicit false

namespace OsmMini.Foundations.MergeRuns

open BinaryHeap

variable {α R ε K : Type*} [LinearOrder K]

/-! ## Readers -/

section Readers

variable (advance : R → Except ε (Option (α × R)))

/-- The reader yields the elements of a list and ends. -/
def Yields : R → List α → Prop
  | r, [] => advance r = .ok none
  | r, a :: l => ∃ r', advance r = .ok (some (a, r')) ∧ Yields r' l

theorem Yields.unique : ∀ {l l' : List α} {r : R}, Yields advance r l → Yields advance r l' → l = l'
  | [], [], _, _, _ => rfl
  | [], a :: l', r, ended, ⟨r', more, _⟩ => by
      rw [Yields, more] at ended
      cases ended
  | a :: l, [], r, ⟨r', more, _⟩, ended => by
      rw [Yields, more] at ended
      cases ended
  | a :: l, b :: l', r, ⟨r', here, later⟩, ⟨r'', here', later'⟩ => by
      rw [here] at here'
      obtain ⟨rfl, rfl⟩ := Prod.mk.inj (Option.some.inj (Except.ok.inj here'))
      rw [Yields.unique later later']

open Classical in
/-- What a reader yields. -/
noncomputable def contents (r : R) : List α :=
  if known : ∃ l, Yields advance r l then known.choose else []

variable {advance}

theorem Yields.contents_eq {r : R} {l : List α} (yields : Yields advance r l) :
    contents advance r = l := by
  have known : ∃ l, Yields advance r l := ⟨l, yields⟩
  rw [contents, dif_pos known]
  exact Yields.unique advance known.choose_spec yields

end Readers

/-! ## The merge -/

section Merge

variable (key : α → K) (advance : R → Except ε (Option (α × R)))

/-- Take the root as long as there is one, for at most the given number of rounds. -/
def merge : ℕ → List (α × R) → Except ε (List α)
  | 0, _ => .ok []
  | rounds + 1, queue =>
    match queue with
    | [] => .ok []
    | (a, r) :: _ =>
      match advance r with
      | .error err => .error err
      | .ok none =>
        match pop (fun q : α × R => key q.1) queue with
        | none => .ok [a]
        | some (_, queue) =>
          match merge rounds queue with
          | .error err => .error err
          | .ok later => .ok (a :: later)
      | .ok (some next) =>
        match merge rounds (replaceRoot (fun q : α × R => key q.1) queue next) with
        | .error err => .error err
        | .ok later => .ok (a :: later)

/-- The next elements of the readers that have one. -/
def starts : List R → Except ε (List (α × R))
  | [] => .ok []
  | r :: readers =>
    match advance r with
    | .error err => .error err
    | .ok none => starts readers
    | .ok (some next) =>
      match starts readers with
      | .error err => .error err
      | .ok later => .ok (next :: later)

/-- Merge what the readers yield. -/
def mergeRuns (rounds : ℕ) (readers : List R) : Except ε (List α) :=
  match starts advance readers with
  | .error err => .error err
  | .ok queue => merge key advance rounds (heapify (fun q : α × R => key q.1) queue)

/-! ## What is left -/

/-- An element and what its reader yields after it are in order. -/
def Ordered (q : α × R) : Prop :=
  ∃ l, Yields advance q.2 l ∧ (q.1 :: l).Pairwise fun a b => key a ≤ key b

/-- All the elements that are left. -/
noncomputable def remaining (queue : List (α × R)) : List α :=
  queue.flatMap fun q => q.1 :: contents advance q.2

variable {key advance}

theorem remaining_perm {queue queue' : List (α × R)} (perm : queue.Perm queue') :
    (remaining advance queue).Perm (remaining advance queue') :=
  perm.flatMap_right _

theorem remaining_cons {a : α} {r : R} {l : List α} (yields : Yields advance r l)
    (queue : List (α × R)) :
    remaining advance ((a, r) :: queue) = a :: (l ++ remaining advance queue) := by
  rw [remaining, List.flatMap_cons, yields.contents_eq]
  rfl

/-- The root of the heap comes before everything that is left. -/
theorem root_le_remaining {a : α} {r : R} {queue : List (α × R)}
    (heap : IsHeap (fun q : α × R => key q.1) ((a, r) :: queue))
    (ordered : ∀ q ∈ (a, r) :: queue, Ordered key advance q) :
    ∀ b ∈ remaining advance ((a, r) :: queue), key a ≤ key b := by
  intro b member
  obtain ⟨q, inQueue, inside⟩ := List.mem_flatMap.mp member
  obtain ⟨j, small, rfl⟩ := List.getElem_of_mem inQueue
  have root : key a ≤ key (((a, r) :: queue)[j]).1 := heap.root_le j small
  obtain ⟨l, yields, sorted⟩ := ordered _ inQueue
  rw [yields.contents_eq] at inside
  rcases List.mem_cons.mp inside with rfl | later
  · exact root
  · exact root.trans ((List.pairwise_cons.mp sorted).1 b later)

/-- Popping takes the first element out. -/
theorem pop_cons {γ : Type*} (priority : γ → K) (first : γ) (tail : List γ) :
    ∃ rest, pop priority (first :: tail) = some (first, rest) := by
  unfold pop
  dsimp only
  split
  · exact ⟨_, rfl⟩
  · exact ⟨_, rfl⟩

/-- **The merge delivers what is left, in order.** -/
theorem merge_spec : ∀ {rounds : ℕ} {queue : List (α × R)},
    IsHeap (fun q : α × R => key q.1) queue → (∀ q ∈ queue, Ordered key advance q) →
    (remaining advance queue).length ≤ rounds →
    ∃ merged, merge key advance rounds queue = .ok merged ∧
      merged.Perm (remaining advance queue) ∧ merged.Pairwise fun a b => key a ≤ key b
  | 0, queue, _, _, few => by
      have none : remaining advance queue = [] := List.eq_nil_of_length_eq_zero (by omega)
      exact ⟨[], rfl, none ▸ List.Perm.refl _, .nil⟩
  | rounds + 1, [], _, _, _ => ⟨[], rfl, List.Perm.refl _, .nil⟩
  | rounds + 1, (a, r) :: queue, heap, ordered, few => by
      have least := root_le_remaining heap ordered
      obtain ⟨l, yields, sorted⟩ := ordered (a, r) (List.mem_cons_self ..)
      have others : ∀ q ∈ queue, Ordered key advance q :=
        fun q member => ordered q (List.mem_cons_of_mem _ member)
      have step : ∀ {next : List (α × R)} {merged : List α},
          (remaining advance next).Perm (l ++ remaining advance queue) →
          merged.Perm (remaining advance next) → (merged.Pairwise fun a b => key a ≤ key b) →
          (a :: merged).Perm (remaining advance ((a, r) :: queue)) ∧
            (a :: merged).Pairwise fun a b => key a ≤ key b := by
        intro next merged left perm inOrder
        rw [remaining_cons yields] at least ⊢
        exact ⟨(perm.trans left).cons a, List.pairwise_cons.mpr ⟨fun b member =>
          least b (List.mem_cons_of_mem _ ((perm.trans left).subset member)), inOrder⟩⟩
      have total := congrArg List.length (remaining_cons yields (a := a) queue)
      rw [List.length_cons] at total
      rw [merge]
      cases l with
      | nil =>
          obtain ⟨rest, popped⟩ := pop_cons (fun q : α × R => key q.1) (a, r) queue
          have perm : rest.Perm queue := ((pop_perm popped).cons_inv).symm
          have left : (remaining advance rest).Perm (remaining advance queue) := remaining_perm perm
          obtain ⟨merged, run, same, inOrder⟩ := @merge_spec rounds rest (isHeap_pop heap popped)
            (fun q member => others q (perm.subset member)) (by
              rw [left.length_eq]
              simp only [List.nil_append] at total
              omega)
          rw [show advance r = .ok none from yields]
          dsimp only
          rw [popped]
          dsimp only
          rw [run]
          exact ⟨_, rfl, step left same inOrder⟩
      | cons b l =>
          obtain ⟨r', more, later⟩ := yields
          have perm : (replaceRoot (fun q : α × R => key q.1) ((a, r) :: queue) (b, r')).Perm
            ((b, r') :: queue) := replaceRoot_perm (a, r) queue (b, r')
          have left : (remaining advance (replaceRoot _ ((a, r) :: queue) (b, r'))).Perm
            (remaining advance ((b, r') :: queue)) := remaining_perm perm
          rw [remaining_cons later] at left
          obtain ⟨merged, run, same, inOrder⟩ := @merge_spec rounds _ (isHeap_replaceRoot heap (b, r'))
            (fun q member => by
              rcases List.mem_cons.mp (perm.subset member) with rfl | old
              · exact ⟨l, later, (List.pairwise_cons.mp sorted).2⟩
              · exact others q old) (by
              rw [left.length_eq]
              simp only [List.length_cons, List.cons_append] at total ⊢
              omega)
          rw [more]
          dsimp only
          rw [run]
          exact ⟨_, rfl, step left same inOrder⟩

variable (key advance) in
/-- A reader yields its elements in order. -/
def Sorted (r : R) : Prop := ∃ l, Yields advance r l ∧ l.Pairwise fun a b => key a ≤ key b

/-- The starts of readers in order. -/
theorem starts_spec : ∀ {readers : List R}, (∀ r ∈ readers, Sorted key advance r) →
    ∃ queue, starts advance readers = .ok queue ∧ (∀ q ∈ queue, Ordered key advance q) ∧
      remaining advance queue = readers.flatMap (contents advance)
  | [], _ => ⟨[], rfl, fun _ none => absurd none List.not_mem_nil, rfl⟩
  | r :: readers, sorted => by
      obtain ⟨queue, run, ordered, all⟩ :=
        starts_spec fun r member => sorted r (List.mem_cons_of_mem _ member)
      obtain ⟨l, yields, inOrder⟩ := sorted r (List.mem_cons_self ..)
      rw [starts, List.flatMap_cons, yields.contents_eq]
      cases l with
      | nil =>
          rw [show advance r = .ok none from yields]
          exact ⟨queue, run, ordered, all⟩
      | cons a l =>
          obtain ⟨r', more, later⟩ := yields
          rw [more]
          dsimp only
          rw [run]
          refine ⟨_, rfl, fun q member => ?_, ?_⟩
          · rcases List.mem_cons.mp member with rfl | old
            · exact ⟨l, later, inOrder⟩
            · exact ordered q old
          · rw [remaining_cons later, all]
            rfl

/-- **Merging sorted runs** delivers their elements in order. -/
theorem mergeRuns_spec {rounds : ℕ} {readers : List R} (sorted : ∀ r ∈ readers, Sorted key advance r)
    (enough : (readers.flatMap (contents advance)).length ≤ rounds) :
    ∃ merged, mergeRuns key advance rounds readers = .ok merged ∧
      merged.Perm (readers.flatMap (contents advance)) ∧
      merged.Pairwise fun a b => key a ≤ key b := by
  obtain ⟨queue, run, ordered, all⟩ := starts_spec sorted
  have perm : (heapify (fun q : α × R => key q.1) queue).Perm queue := heapify_perm queue
  have left : (remaining advance (heapify (fun q : α × R => key q.1) queue)).Perm
    (remaining advance queue) := remaining_perm perm
  rw [all] at left
  obtain ⟨merged, done, same, inOrder⟩ := @merge_spec _ _ _ _ _ key advance rounds _
    (isHeap_heapify queue) (fun q member => ordered q (perm.subset member))
    (by rw [left.length_eq]; exact enough)
  rw [mergeRuns, run]
  exact ⟨merged, done, same.trans left, inOrder⟩

end Merge

end OsmMini.Foundations.MergeRuns

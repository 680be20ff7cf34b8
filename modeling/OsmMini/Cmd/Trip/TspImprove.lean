import OsmMini.Cmd.Trip.TspSearch
import Mathlib.Data.Set.Insert

/-!
# What the improvement keeps and reaches

The search never leaves the feasible orders and never makes the tour dearer (`Tracks`). A move
is only made when the stops of the segment do not require each other, and then the reversed
segment can stand in its place. A move whose edges cost no less than those it replaces is left
out; the rest of the tour is the same, so the whole tour would not be cheaper either, even
where legs are infinite.

A pass without a move has looked at every segment of one and the same order. A segment it did
not price holds a stop with one of its prerequisites, so its reversal breaks the order.
-/

set_option autoImplicit false

namespace OsmMini.Cmd

open OsmMini.Foundations

/-! ## Prerequisites along an order -/

section Kept

variable (pre : List ℕ)

/-- The stops come after their prerequisites, when those of a set have been visited before. -/
def KeptAfter (seen : Set ℕ) : List ℕ → Prop
  | [] => True
  | i :: order => (∀ j, (pre.getD i 0).testBit j = true → j ∈ seen) ∧ KeptAfter (insert i seen) order

/-- No stop of a segment requires another one of it. -/
def Independent (segment : List ℕ) : Prop :=
  ∀ i ∈ segment, ∀ j ∈ segment, (pre.getD i 0).testBit j ≠ true

variable {pre}

theorem keptAfter_iff (order : List ℕ) : ∀ seen : Set ℕ, KeptAfter pre seen order ↔
    ∀ before i after, order = before ++ i :: after →
      ∀ j, (pre.getD i 0).testBit j = true → j ∈ seen ∨ j ∈ before := by
  induction order with
  | nil =>
      intro seen
      constructor
      · intro _ before i after split
        simp at split
      · exact fun _ => trivial
  | cons k order ih =>
      intro seen
      rw [KeptAfter, ih (insert k seen)]
      constructor
      · rintro ⟨first, rest⟩ before i after split j bit
        cases before with
        | nil =>
            obtain ⟨rfl, rfl⟩ := List.cons.inj split
            exact Or.inl (first j bit)
        | cons k' before =>
            obtain ⟨rfl, split'⟩ := List.cons.inj split
            rcases rest before i after split' j bit with (same | visited) | later
            · exact Or.inr (same ▸ List.mem_cons_self)
            · exact Or.inl visited
            · exact Or.inr (List.mem_cons_of_mem _ later)
      · intro kept
        constructor
        · intro j bit
          rcases kept [] k order rfl j bit with visited | none
          · exact visited
          · exact absurd none List.not_mem_nil
        · intro before i after split j bit
          rcases kept (k :: before) i after (congrArg (k :: ·) split) j bit with visited | later
          · exact Or.inl (Set.mem_insert_of_mem k visited)
          · rcases List.mem_cons.mp later with same | later
            · exact Or.inl (same ▸ Set.mem_insert k seen)
            · exact Or.inr later

theorem keepsPrerequisites_iff {order : List ℕ} :
    KeepsPrerequisites pre order ↔ KeptAfter pre ∅ order := by
  rw [keptAfter_iff]
  constructor
  · intro keeps before i after split j bit
    exact Or.inr (keeps before i after split j bit)
  · intro kept before i after split j bit
    rcases kept before i after split j bit with none | member
    · exact absurd none (Set.notMem_empty j)
    · exact member

theorem keptAfter_append (first second : List ℕ) : ∀ seen : Set ℕ,
    KeptAfter pre seen (first ++ second) ↔
      KeptAfter pre seen first ∧ KeptAfter pre (seen ∪ {i | i ∈ first}) second := by
  induction first with
  | nil =>
      intro seen
      have same : seen ∪ {i | i ∈ ([] : List ℕ)} = seen := by
        ext i
        simp
      rw [List.nil_append, same]
      exact ⟨fun kept => ⟨trivial, kept⟩, fun both => both.2⟩
  | cons k first ih =>
      intro seen
      have same : insert k seen ∪ {i | i ∈ first} = seen ∪ {i | i ∈ k :: first} := by
        ext i
        simp only [Set.mem_union, Set.mem_insert_iff, Set.mem_ofPred_eq, List.mem_cons]
        tauto
      rw [List.cons_append, KeptAfter, KeptAfter, ih, same, and_assoc]

/-- The prerequisites of the stops of a segment are visited before, or in it. -/
theorem KeptAfter.mem {seen : Set ℕ} {segment : List ℕ} (kept : KeptAfter pre seen segment)
    {i j : ℕ} (member : i ∈ segment) (bit : (pre.getD i 0).testBit j = true) :
    j ∈ seen ∨ j ∈ segment := by
  obtain ⟨before, after, split⟩ := List.append_of_mem member
  rcases (keptAfter_iff segment seen).mp kept before i after split j bit with visited | earlier
  · exact Or.inl visited
  · exact Or.inr (split ▸ List.mem_append_left _ earlier)

/-- Stops whose prerequisites are all visited may come in any order. -/
theorem keptAfter_of_visited {segment : List ℕ} : ∀ {seen : Set ℕ},
    (∀ i ∈ segment, ∀ j, (pre.getD i 0).testBit j = true → j ∈ seen) →
      KeptAfter pre seen segment := by
  induction segment with
  | nil => exact fun _ => trivial
  | cons k segment ih =>
      intro seen visited
      constructor
      · exact visited k List.mem_cons_self
      · apply ih
        intro i member j bit
        exact Set.mem_insert_of_mem k (visited i (List.mem_cons_of_mem _ member) j bit)

/-- **A segment of independent stops can be reversed.** -/
theorem KeepsPrerequisites.reverse {before segment after : List ℕ}
    (keeps : KeepsPrerequisites pre (before ++ segment ++ after))
    (independent : Independent pre segment) :
    KeepsPrerequisites pre (before ++ segment.reverse ++ after) := by
  rw [keepsPrerequisites_iff, keptAfter_append, keptAfter_append] at keeps ⊢
  obtain ⟨⟨first, middle⟩, last⟩ := keeps
  refine ⟨⟨first, ?_⟩, ?_⟩
  · apply keptAfter_of_visited
    intro i member j bit
    have inSegment : i ∈ segment := List.mem_reverse.mp member
    rcases middle.mem inSegment bit with visited | inside
    · exact visited
    · exact absurd bit (independent i inSegment j inside)
  · have same : {i | i ∈ before ++ segment.reverse} = {i | i ∈ before ++ segment} := by
      ext i
      simp
    rw [same]
    exact last

/-- **A segment with a stop and a prerequisite of it cannot be reversed.** -/
theorem not_keeps_reverse {before first second after : List ℕ} {i j : ℕ}
    (distinct : (before ++ (first ++ i :: second) ++ after).Nodup) (earlier : j ∈ first)
    (requires : (pre.getD i 0).testBit j = true) :
    ¬ KeepsPrerequisites pre (before ++ (first ++ i :: second).reverse ++ after) := by
  intro keeps
  have split : before ++ (first ++ i :: second).reverse ++ after =
      (before ++ second.reverse) ++ i :: (first.reverse ++ after) := by simp
  have visited := keeps _ i _ split j requires
  rw [List.append_assoc, List.append_assoc] at distinct
  rcases List.mem_append.mp visited with inBefore | inSecond
  · have apart := (List.nodup_append.mp distinct).2.2
    exact apart j inBefore j (List.mem_append_left _ earlier) rfl
  · have rest := (List.nodup_append.mp distinct).2.1
    have apart := (List.nodup_append.mp rest).2.2
    refine apart j earlier j ?_ rfl
    exact List.mem_append_left _ (List.mem_cons_of_mem _ (List.mem_reverse.mp inSecond))

/-- A stop after an independent segment that requires none of it makes a longer one. -/
theorem Independent.snoc {before segment after : List ℕ} {i : ℕ}
    (independent : Independent pre segment)
    (keeps : KeepsPrerequisites pre (before ++ segment ++ i :: after))
    (distinct : (before ++ segment ++ i :: after).Nodup)
    (free : ∀ j ∈ segment, (pre.getD i 0).testBit j ≠ true) :
    Independent pre (segment ++ [i]) := by
  have notEarlier : i ∉ before ++ segment := by
    intro member
    exact (List.nodup_append.mp distinct).2.2 i member i List.mem_cons_self rfl
  have notOwn : (pre.getD i 0).testBit i ≠ true := by
    intro bit
    exact notEarlier (keeps _ i _ rfl i bit)
  have notRequired : ∀ k ∈ segment, (pre.getD k 0).testBit i ≠ true := by
    intro k member bit
    obtain ⟨first, second, split⟩ := List.append_of_mem member
    have placed : before ++ segment ++ i :: after =
        (before ++ first) ++ k :: (second ++ i :: after) := by simp [split]
    have visited := keeps _ k _ placed i bit
    rcases List.mem_append.mp visited with inBefore | inFirst
    · exact notEarlier (List.mem_append_left _ inBefore)
    · exact notEarlier (List.mem_append_right _ (split ▸ List.mem_append_left _ inFirst))
  intro k member j member'
  rcases List.mem_append.mp member with inSegment | isLast
  · rcases List.mem_append.mp member' with inSegment' | isLast'
    · exact independent k inSegment j inSegment'
    · rw [List.mem_singleton.mp isLast']
      exact notRequired k inSegment
  · rw [List.mem_singleton.mp isLast]
    rcases List.mem_append.mp member' with inSegment' | isLast'
    · exact free j inSegment'
    · rw [List.mem_singleton.mp isLast']
      exact notOwn

end Kept

/-! ## The price of a tour -/

section Price

variable (cost : Int64 → Int64 → Option ℚ) (startNode endNode : Int64) (stops : List Int64)

/-- The cost of the whole tour of an order. -/
def tourPrice (order : List ℕ) : WithTop ℚ :=
  pathCost (cachedCost cost) (tourNodes startNode endNode stops order)

variable {cost startNode endNode stops}

/-- Stopping at an infinite total makes no difference. -/
theorem addLegs_eq (nodes : List Int64) (ks : List ℕ) : ∀ total : WithTop ℚ,
    addLegs cost nodes ks total = total + (ks.map fun k =>
      cachedCost cost (nodes.getD k default) (nodes.getD (k + 1) default)).sum := by
  induction ks with
  | nil =>
      intro total
      exact (add_zero total).symm
  | cons k ks ih =>
      intro total
      rw [addLegs, List.map_cons, List.sum_cons, ← add_assoc]
      by_cases infinite :
          total + cachedCost cost (nodes.getD k default) (nodes.getD (k + 1) default) = ⊤
      · rw [if_pos infinite, infinite, top_add]
      · rw [if_neg infinite, ih]

theorem searchCost_eq (order : List ℕ) :
    searchCost cost order.length (tourNodes startNode endNode stops order) =
      tourPrice cost startNode endNode stops order := by
  have steps := sum_steps (cachedCost cost)
    (order.map (fun idx => stops.getD idx 0) ++ [endNode]) [] [] startNode
  have size : (order.map (fun idx => stops.getD idx 0) ++ [endNode]).length =
      order.length + 1 := by simp
  rw [List.append_nil, List.nil_append, size, List.length_nil, ← List.range_eq_range'] at steps
  rw [searchCost, addLegs_eq, zero_add, tourPrice]
  exact steps

theorem tourNodes_split (before segment after : List ℕ) :
    tourNodes startNode endNode stops (before ++ segment ++ after) =
      (startNode :: before.map (fun idx => stops.getD idx 0)) ++
        segment.map (fun idx => stops.getD idx 0) ++
        (after.map (fun idx => stops.getD idx 0) ++ [endNode]) := by
  simp [tourNodes]

/-- **The edges of a move decide about the whole tour.** -/
theorem tourPrice_le_reverse {before inner after : List ℕ} {first last : ℕ}
    (dearer : oldSegment cost
        (tourNodes startNode endNode stops (before ++ (first :: inner ++ [last]) ++ after))
        before.length (before.length + inner.length + 1) ≤
      newSegment cost
        (tourNodes startNode endNode stops (before ++ (first :: inner ++ [last]) ++ after))
        before.length (before.length + inner.length + 1)) :
    tourPrice cost startNode endNode stops (before ++ (first :: inner ++ [last]) ++ after) ≤
      tourPrice cost startNode endNode stops
        (before ++ (first :: inner ++ [last]).reverse ++ after) := by
  set node : ℕ → Int64 := fun idx => stops.getD idx 0 with nodeEq
  obtain ⟨front, a, frontEq⟩ : ∃ front a, startNode :: before.map node = front ++ [a] :=
    ⟨_, _, (List.dropLast_append_getLast (List.cons_ne_nil _ _)).symm⟩
  obtain ⟨b, back, backEq⟩ : ∃ b back, after.map node ++ [endNode] = b :: back := by
    cases after with
    | nil => exact ⟨endNode, [], rfl⟩
    | cons i after => exact ⟨node i, after.map node ++ [endNode], rfl⟩
  have frontSize : front.length = before.length := by
    have sizes := congrArg List.length frontEq
    simpa using sizes.symm
  have nodes : tourNodes startNode endNode stops (before ++ (first :: inner ++ [last]) ++ after) =
      withSegment front a (node first) (inner.map node) (node last) b back := by
    rw [tourNodes_split, ← nodeEq, frontEq, backEq, withSegment]
    simp
  have nodes' : tourNodes startNode endNode stops
      (before ++ (first :: inner ++ [last]).reverse ++ after) =
      front ++ a :: (node first :: inner.map node ++ [node last]).reverse ++ b :: back := by
    rw [tourNodes_split, ← nodeEq, frontEq, backEq]
    simp
  have innerSize : inner.length = (inner.map node).length := (List.length_map node).symm
  rw [nodes, oldSegment, newSegment, ← frontSize, innerSize, sum_replaced, sum_turned] at dearer
  have cut : ∀ middle : List Int64, pathCost (cachedCost cost) (front ++ a :: middle ++ b :: back) =
      pathCost (cachedCost cost) (front ++ [a]) +
        (pathCost (cachedCost cost) (a :: middle ++ [b]) +
          pathCost (cachedCost cost) (b :: back)) := by
    intro middle
    rw [List.append_assoc, List.cons_append, pathCost_cut, ← List.cons_append,
      pathCost_cut _ (a :: middle)]
  rw [tourPrice, tourPrice, nodes, nodes', withSegment, cut, cut]
  gcongr

end Price

/-! ## One move -/

section Moves

variable {cost : Int64 → Int64 → Option ℚ} {startNode endNode : Int64} {stops : List Int64}
  {pre : List ℕ} {cancelled : ℕ → Bool}

/-- The second array follows the first, and the best cost is that of the tour. -/
structure Consistent (cost : Int64 → Int64 → Option ℚ) (startNode endNode : Int64)
    (stops : List Int64) (search : TourSearch) : Prop where
  nodes : search.nodes = tourNodes startNode endNode stops search.order
  best : search.bestCost = tourPrice cost startNode endNode stops search.order

/-- The tour of a search that no move has changed. -/
structure SameTour (search search' : TourSearch) : Prop where
  order : search'.order = search.order
  nodes : search'.nodes = search.nodes
  best : search'.bestCost = search.bestCost

theorem SameTour.trans {first second third : TourSearch} (one : SameTour first second)
    (two : SameTour second third) : SameTour first third :=
  ⟨two.order.trans one.order, two.nodes.trans one.nodes, two.best.trans one.best⟩

theorem Consistent.same {search search' : TourSearch}
    (consistent : Consistent cost startNode endNode stops search)
    (same : SameTour search search') : Consistent cost startNode endNode stops search' := by
  constructor
  · rw [same.nodes, same.order, consistent.nodes]
  · rw [same.best, same.order, consistent.best]

/-- Reversing a segment in both arrays. -/
theorem TourSearch.reverse_split {search : TourSearch} {before segment after : List ℕ}
    (nodes : search.nodes = tourNodes startNode endNode stops search.order)
    (split : search.order = before ++ segment ++ after) (nonempty : segment ≠ []) :
    (search.reverse before.length (before.length + segment.length - 1)).order =
        before ++ segment.reverse ++ after ∧
      (search.reverse before.length (before.length + segment.length - 1)).nodes =
        tourNodes startNode endNode stops (before ++ segment.reverse ++ after) := by
  have positive : 0 < segment.length := List.length_pos_of_ne_nil nonempty
  constructor
  · rw [TourSearch.reverse, split]
    exact reverseRange_segment before segment after nonempty
  · have nonempty' : segment.map (fun idx => stops.getD idx 0) ≠ [] := by
      simpa using nonempty
    have reversed := reverseRange_segment
      (startNode :: before.map (fun idx => stops.getD idx 0)) _
      (after.map (fun idx => stops.getD idx 0) ++ [endNode]) nonempty'
    have start : (startNode :: before.map (fun idx => stops.getD idx 0)).length =
        before.length + 1 := by simp
    have stop : (startNode :: before.map (fun idx => stops.getD idx 0)).length +
        (segment.map (fun idx => stops.getD idx 0)).length - 1 =
        before.length + segment.length - 1 + 1 := by
      simp only [List.length_cons, List.length_map]
      omega
    rw [start] at stop
    rw [start, stop] at reversed
    rw [TourSearch.reverse, nodes, split, tourNodes_split, tourNodes_split, List.map_reverse]
    exact reversed

variable (cancelled) in
/-- **A move is kept when it makes the whole tour cheaper, and undone otherwise.** -/
theorem tryMove_cases {search : TourSearch} {before segment after : List ℕ}
    (consistent : Consistent cost startNode endNode stops search)
    (split : search.order = before ++ segment ++ after) (nonempty : segment ≠ []) {r : ℕ}
    (last : r = before.length + segment.length - 1) :
    ((tryMove cost cancelled search before.length r).order = before ++ segment.reverse ++ after ∧
        Consistent cost startNode endNode stops (tryMove cost cancelled search before.length r) ∧
        (tryMove cost cancelled search before.length r).improved = true ∧
        tourPrice cost startNode endNode stops (before ++ segment.reverse ++ after) <
          search.bestCost) ∨
      (SameTour search (tryMove cost cancelled search before.length r) ∧
        (tryMove cost cancelled search before.length r).improved = search.improved ∧
        ((∀ k, cancelled k = false) → search.bestCost ≤
          tourPrice cost startNode endNode stops (before ++ segment.reverse ++ after))) := by
  obtain ⟨movedOrder, movedNodes⟩ := search.reverse_split consistent.nodes split nonempty
  rw [← last] at movedOrder movedNodes
  have backOrder : reverseRange (search.reverse before.length r).order before.length r =
      search.order := by
    have size : before.length + segment.reverse.length - 1 = r := by
      rw [List.length_reverse, last]
    have reversed := reverseRange_segment before segment.reverse after
      (by simpa using nonempty)
    rw [size, List.reverse_reverse] at reversed
    rw [movedOrder, reversed, split]
  have backNodes : reverseRange (search.reverse before.length r).nodes (before.length + 1)
      (r + 1) = search.nodes := by
    have size : before.length + segment.reverse.length - 1 = r := by
      rw [List.length_reverse, last]
    have turned : segment.reverse ≠ [] := by simpa using nonempty
    have again := (search.reverse before.length r).reverse_split
      (by rw [movedNodes, movedOrder]) movedOrder turned
    rw [size, List.reverse_reverse] at again
    rw [consistent.nodes, split]
    exact again.2
  have price : searchCost cost search.order.length (search.reverse before.length r).nodes =
      tourPrice cost startNode endNode stops (before ++ segment.reverse ++ after) := by
    have size : search.order.length = (before ++ segment.reverse ++ after).length := by
      rw [split]
      simp
    rw [movedNodes, size, searchCost_eq]
  simp only [tryMove, price]
  by_cases cheaper : tourPrice cost startNode endNode stops
      (before ++ segment.reverse ++ after) < search.bestCost
  · rw [if_pos cheaper]
    cases asked : cancelled search.checks with
    | true =>
        refine Or.inr ⟨⟨backOrder, backNodes, rfl⟩, rfl, ?_⟩
        intro never
        rw [never] at asked
        cases asked
    | false =>
        refine Or.inl ⟨movedOrder, ⟨?_, ?_⟩, rfl, cheaper⟩
        · exact movedNodes.trans (congrArg _ movedOrder.symm)
        · exact congrArg (tourPrice cost startNode endNode stops) movedOrder.symm
  · rw [if_neg cheaper]
    exact Or.inr ⟨⟨backOrder, backNodes, rfl⟩, rfl, fun _ => not_lt.mp cheaper⟩

end Moves

/-! ## Rows and passes -/

section Rows

variable (cost : Int64 → Int64 → Option ℚ) (startNode endNode : Int64) (stops : List Int64)
  (pre : List ℕ) (cancelled : ℕ → Bool)

/-- What holds at every moment of a search that began with a given order. -/
structure Tracks (given : List ℕ) (search : TourSearch) : Prop where
  consistent : Consistent cost startNode endNode stops search
  perm : search.order.Perm given
  keeps : KeepsPrerequisites pre search.order
  cheaper : search.bestCost ≤ tourPrice cost startNode endNode stops given

/-- The mask holds the stops from `l` up to `r`, and these do not require each other. -/
structure MaskAt (order : List ℕ) (l r mask : ℕ) : Prop where
  split : ∃ before segment after, order = before ++ segment ++ after ∧ before.length = l ∧
    l + segment.length = r ∧ segment ≠ [] ∧ (∀ j, mask.testBit j = true ↔ j ∈ segment) ∧
    Independent pre segment

/-- No segment from `l` to `r` or further can be reversed with profit. -/
def NoCheaperFrom (order : List ℕ) (l r : ℕ) : Prop :=
  ∀ before segment after, order = before ++ segment ++ after → before.length = l →
    r < l + segment.length → KeepsPrerequisites pre (before ++ segment.reverse ++ after) →
    tourPrice cost startNode endNode stops order ≤
      tourPrice cost startNode endNode stops (before ++ segment.reverse ++ after)

/-- The outcome of a part of a pass: either a move has been made, or the tour is the same and
the segments of that part have been looked at, unless the search has been cancelled. -/
structure PartOutcome (given : List ℕ) (lookedAt : Prop) (search search' : TourSearch) : Prop where
  tracks : Tracks cost startNode endNode stops pre given search'
  stays : search.improved = true → search'.improved = true
  passes : search'.passes = search.passes
  settled : search'.improved = true ∨
    SameTour search search' ∧ ((∀ k, cancelled k = false) → lookedAt)

variable {cost startNode endNode stops pre cancelled} {given : List ℕ}

theorem Tracks.same {search search' : TourSearch}
    (tracks : Tracks cost startNode endNode stops pre given search)
    (same : SameTour search search') : Tracks cost startNode endNode stops pre given search' where
  consistent := tracks.consistent.same same
  perm := same.order ▸ tracks.perm
  keeps := same.order ▸ tracks.keeps
  cheaper := same.best ▸ tracks.cheaper

/-- A longer segment from the same place holds the shorter one and the next stop. -/
theorem longer_segment {before segment after before' segment' after' : List ℕ} {x : ℕ}
    (same : before ++ segment ++ x :: after = before' ++ segment' ++ after')
    (start : before'.length = before.length) (longer : segment.length < segment'.length) :
    before' = before ∧ ∃ more, segment' = segment ++ x :: more ∧ after = more ++ after' := by
  rw [List.append_assoc, List.append_assoc] at same
  obtain ⟨rfl, rest⟩ := List.append_inj same start.symm
  refine ⟨rfl, ?_⟩
  rcases List.append_eq_append_iff.mp rest with ⟨more, split, last⟩ | ⟨more, split, -⟩
  · cases more with
    | nil =>
        rw [List.append_nil] at split
        rw [split] at longer
        exact absurd longer (lt_irrefl _)
    | cons y more =>
        obtain ⟨rfl, tail⟩ := List.cons.inj last
        exact ⟨more, split, tail⟩
  · rw [split, List.length_append] at longer
    omega

/-- A conflict at `r` rules out every segment from `l` that reaches it. -/
theorem noCheaperFrom_conflict {before segment after : List ℕ} {x j : ℕ}
    (distinct : (before ++ segment ++ x :: after).Nodup) (earlier : j ∈ segment)
    (requires : (pre.getD x 0).testBit j = true) :
    NoCheaperFrom cost startNode endNode stops pre (before ++ segment ++ x :: after)
      before.length (before.length + segment.length) := by
  intro before' segment' after' split start reaches keeps
  obtain ⟨rfl, more, rfl, rfl⟩ := longer_segment split start (by omega)
  rw [split] at distinct
  exact absurd keeps (not_keeps_reverse distinct earlier requires)

/-- A segment looked at, and all longer ones. -/
theorem noCheaperFrom_step {before segment after : List ℕ} {x : ℕ}
    (here : tourPrice cost startNode endNode stops (before ++ segment ++ x :: after) ≤
      tourPrice cost startNode endNode stops (before ++ (segment ++ [x]).reverse ++ after))
    (further : NoCheaperFrom cost startNode endNode stops pre (before ++ segment ++ x :: after)
      before.length (before.length + segment.length + 1)) :
    NoCheaperFrom cost startNode endNode stops pre (before ++ segment ++ x :: after)
      before.length (before.length + segment.length) := by
  intro before' segment' after' split start reaches keeps
  by_cases exact_ : before.length + segment.length + 1 < before.length + segment'.length
  · exact further before' segment' after' split start exact_ keeps
  · obtain ⟨rfl, more, rfl, rfl⟩ := longer_segment split start (by omega)
    have none : more = [] := by
      rw [List.length_append, List.length_cons] at exact_
      exact List.eq_nil_of_length_eq_zero (by omega)
    subst none
    exact here

/-- What follows a search with the same tour follows the search before. -/
theorem PartOutcome.of_same {search middle search' : TourSearch} {lookedAt lookedAt' : Prop}
    (same : SameTour search middle) (improved : middle.improved = search.improved)
    (passes : middle.passes = search.passes)
    (outcome : PartOutcome cost startNode endNode stops pre cancelled given lookedAt middle search')
    (looks : (∀ k, cancelled k = false) → lookedAt → lookedAt') :
    PartOutcome cost startNode endNode stops pre cancelled given lookedAt' search search' where
  tracks := outcome.tracks
  stays already := outcome.stays (improved.trans already)
  passes := outcome.passes.trans passes
  settled := by
    rcases outcome.settled with moved | ⟨unmoved, looked⟩
    · exact Or.inl moved
    · exact Or.inr ⟨same.trans unmoved, fun never => looks never (looked never)⟩

variable (cost cancelled) in
theorem tryMove_passes (search : TourSearch) (l r : ℕ) :
    (tryMove cost cancelled search l r).passes = search.passes := by
  simp only [tryMove]
  split_ifs <;> rfl

variable (cancelled) in
/-- **A row keeps what holds of the search, and looks at all segments from its beginning.** -/
theorem searchRow_outcome (distinct : given.Nodup) (l : ℕ) : ∀ (m r mask : ℕ) (search : TourSearch),
    Tracks cost startNode endNode stops pre given search → MaskAt pre search.order l r mask →
    r + m = search.order.length →
    PartOutcome cost startNode endNode stops pre cancelled given
        (NoCheaperFrom cost startNode endNode stops pre search.order l r) search
        (searchRow cost pre cancelled l (List.range' r m) mask search).1 ∧
      ((∀ k, cancelled k = false) →
        (searchRow cost pre cancelled l (List.range' r m) mask search).2 = false) := by
  intro m
  induction m with
  | zero =>
      intro r mask search tracks at_ size
      refine ⟨⟨tracks, id, rfl, Or.inr ⟨⟨rfl, rfl, rfl⟩, fun _ => ?_⟩⟩, fun _ => rfl⟩
      intro before segment after split start reaches
      have total := congrArg List.length split
      rw [List.length_append, List.length_append] at total
      omega
  | succ m ih =>
      intro r mask search tracks at_ size
      obtain ⟨before, segment, rest, split, start, stop, nonempty, bits, independent⟩ := at_.split
      obtain ⟨x, after, rfl⟩ : ∃ x after, rest = x :: after := by
        cases rest with
        | nil =>
            have total := congrArg List.length split
            rw [List.length_append, List.length_append, List.length_nil] at total
            omega
        | cons x after => exact ⟨x, after, rfl⟩
      have next : search.order.getD r 0 = x := by
        have place : r = (before ++ segment).length := by
          rw [List.length_append, start, stop]
        rw [split, place]
        exact getD_after (before ++ segment) x after 0
      have nodup : (before ++ segment ++ x :: after).Nodup := split ▸ tracks.perm.symm.nodup distinct
      have keeps : KeepsPrerequisites pre (before ++ segment ++ x :: after) := split ▸ tracks.keeps
      have same : SameTour search { search with checks := search.checks + 1 } := ⟨rfl, rfl, rfl⟩
      rw [List.range'_succ, searchRow, next]
      dsimp only
      cases asked : cancelled search.checks with
      | true =>
          rw [if_pos rfl]
          have never : ¬ ∀ k, cancelled k = false := by
            intro never
            rw [never] at asked
            cases asked
          exact ⟨⟨tracks.same same, id, rfl, Or.inr ⟨same, fun none => absurd none never⟩⟩,
            fun none => absurd none never⟩
      | false =>
          rw [if_neg (by simp)]
          by_cases conflict : pre.getD x 0 &&& mask ≠ 0
          · -- A stop of the segment is required here.
            rw [if_pos conflict]
            refine ⟨⟨tracks.same same, id, rfl, Or.inr ⟨same, fun _ => ?_⟩⟩, fun _ => rfl⟩
            obtain ⟨j, bit⟩ := Nat.exists_testBit_of_ne_zero conflict
            rw [Nat.testBit_and, Bool.and_eq_true] at bit
            rw [split, ← start, ← stop, ← start]
            exact noCheaperFrom_conflict nodup ((bits j).mp bit.2) bit.1
          · rw [if_neg conflict]
            have free : ∀ j ∈ segment, (pre.getD x 0).testBit j ≠ true := by
              intro j member bit
              apply conflict
              intro zero
              have none : (pre.getD x 0 &&& mask).testBit j = true := by
                rw [Nat.testBit_and, bit, (bits j).mpr member]
                rfl
              rw [zero, Nat.zero_testBit] at none
              cases none
            have longer : Independent pre (segment ++ [x]) := independent.snoc keeps nodup free
            have bits' : ∀ j, (mask ||| 2 ^ x).testBit j = true ↔ j ∈ segment ++ [x] := by
              intro j
              rw [Nat.testBit_or, Bool.or_eq_true, bits, Bits.testBit_two_pow_iff,
                List.mem_append, List.mem_singleton]
            have split' : search.order = before ++ (segment ++ [x]) ++ after := by
              rw [split]
              simp
            have at' : MaskAt pre search.order l (r + 1) (mask ||| 2 ^ x) :=
              ⟨before, segment ++ [x], after, split', start, by simp; omega, by simp, bits', longer⟩
            have size' : r + 1 + m = search.order.length := by omega
            have step : ∀ middle : TourSearch, SameTour search middle →
                middle.improved = search.improved → middle.passes = search.passes →
                ((∀ k, cancelled k = false) →
                  tourPrice cost startNode endNode stops search.order ≤
                    tourPrice cost startNode endNode stops
                      (before ++ (segment ++ [x]).reverse ++ after)) →
                PartOutcome cost startNode endNode stops pre cancelled given
                    (NoCheaperFrom cost startNode endNode stops pre search.order l r) search
                    (searchRow cost pre cancelled l (List.range' (r + 1) m) (mask ||| 2 ^ x)
                      middle).1 ∧
                  ((∀ k, cancelled k = false) →
                    (searchRow cost pre cancelled l (List.range' (r + 1) m) (mask ||| 2 ^ x)
                      middle).2 = false) := by
              intro middle unmoved improved passes priced
              have later := ih (r + 1) (mask ||| 2 ^ x) middle (tracks.same unmoved)
                (by rw [unmoved.order]; exact at') (by rw [unmoved.order]; exact size')
              refine ⟨later.1.of_same unmoved improved passes ?_, later.2⟩
              intro never further
              rw [unmoved.order] at further
              have here := priced never
              rw [split, ← start, ← stop, ← start] at further ⊢
              rw [split] at here
              exact noCheaperFrom_step here further
            have reach : r = before.length + (segment ++ [x]).length - 1 := by
              simp only [List.length_append, List.length_cons, List.length_nil]
              omega
            by_cases dearer : oldSegment cost search.nodes l r ≤ newSegment cost search.nodes l r
            · rw [if_pos dearer]
              apply step _ same rfl rfl
              intro _
              obtain ⟨first, inner, rfl⟩ := List.exists_cons_of_ne_nil nonempty
              have far : r = before.length + inner.length + 1 := by
                simp only [List.length_append, List.length_cons, List.length_nil] at reach
                omega
              rw [tracks.consistent.nodes, split', ← start, far] at dearer
              rw [split']
              exact tourPrice_le_reverse dearer
            · rw [if_neg dearer, ← start]
              have moving := tryMove_cases cancelled (tracks.same same).consistent
                split' (by simp) reach
              have passes := tryMove_passes cost cancelled
                { search with checks := search.checks + 1 } before.length r
              rcases moving with ⟨order, consistent, improved, cheaper⟩ | ⟨unmoved, improved, priced⟩
              · have moved : Tracks cost startNode endNode stops pre given
                    (tryMove cost cancelled { search with checks := search.checks + 1 }
                      before.length r) := by
                  constructor
                  · exact consistent
                  · rw [order]
                    have reversed : (before ++ (segment ++ [x]).reverse ++ after).Perm
                        (before ++ (segment ++ [x]) ++ after) :=
                      ((List.reverse_perm _).append_left before).append_right after
                    exact reversed.trans (split' ▸ tracks.perm)
                  · rw [order]
                    exact KeepsPrerequisites.reverse (split' ▸ tracks.keeps) longer
                  · rw [consistent.best, order]
                    exact cheaper.le.trans tracks.cheaper
                have bitsTurned : ∀ j, (mask ||| 2 ^ x).testBit j = true ↔
                    j ∈ (segment ++ [x]).reverse := by
                  intro j
                  rw [bits', List.mem_reverse]
                have longerTurned : Independent pre (segment ++ [x]).reverse := by
                  intro i member j member'
                  exact longer i (List.mem_reverse.mp member) j (List.mem_reverse.mp member')
                have later := ih (r + 1) (mask ||| 2 ^ x) _ moved
                  ⟨before, (segment ++ [x]).reverse, after, order, start, by simp; omega, by simp,
                    bitsTurned, longerTurned⟩
                  (by rw [moved.perm.length_eq, ← tracks.perm.length_eq]; exact size')
                have improves := later.1.stays improved
                rw [← start] at later improves
                exact ⟨⟨later.1.tracks, fun _ => improves, later.1.passes.trans passes,
                  Or.inl improves⟩, later.2⟩
              · rw [start]
                rw [start] at unmoved improved passes
                exact step _ (same.trans unmoved) improved passes fun never =>
                  tracks.consistent.best ▸ priced never

/-- The mask a row begins with. -/
theorem maskAt_single {order : List ℕ} (keeps : KeepsPrerequisites pre order)
    (distinct : order.Nodup) {l : ℕ} (inside : l < order.length) :
    MaskAt pre order l (l + 1) (2 ^ order.getD l 0) := by
  have split : order = order.take l ++ [order[l]] ++ order.drop (l + 1) := by
    rw [List.append_assoc, List.singleton_append, List.cons_getElem_drop_succ,
      List.take_append_drop]
  have first : order.getD l 0 = order[l] := List.getD_eq_getElem _ _ inside
  refine ⟨order.take l, [order[l]], order.drop (l + 1), split, ?_, rfl, by simp, ?_, ?_⟩
  · rw [List.length_take, min_eq_left inside.le]
  · intro j
    rw [first, Bits.testBit_two_pow_iff, List.mem_singleton]
  · intro i member j member' bit
    rw [List.mem_singleton] at member member'
    rw [member'] at bit
    have split' : order = order.take l ++ order[l] :: order.drop (l + 1) := by
      rw [List.cons_getElem_drop_succ, List.take_append_drop]
    have earlier := keeps _ _ _ split' order[l] (member ▸ bit)
    rw [split'] at distinct
    exact (List.nodup_append.mp distinct).2.2 _ earlier _ List.mem_cons_self rfl

variable (cancelled) in
/-- **A pass keeps what holds of the search, and looks at all segments of its rows.** -/
theorem searchRows_outcome (distinct : given.Nodup) : ∀ (ls : List ℕ) (search : TourSearch),
    Tracks cost startNode endNode stops pre given search →
    (∀ l ∈ ls, l < search.order.length) →
    PartOutcome cost startNode endNode stops pre cancelled given
        (∀ l ∈ ls, NoCheaperFrom cost startNode endNode stops pre search.order l (l + 1)) search
        (searchRows cost pre cancelled ls search).1 ∧
      ((∀ k, cancelled k = false) → (searchRows cost pre cancelled ls search).2 = false) := by
  intro ls
  induction ls with
  | nil =>
      intro search tracks _
      refine ⟨⟨tracks, id, rfl, Or.inr ⟨⟨rfl, rfl, rfl⟩, fun _ l none => ?_⟩⟩, fun _ => rfl⟩
      exact absurd none List.not_mem_nil
  | cons l ls ih =>
      intro search tracks inside
      have begins := maskAt_single tracks.keeps (tracks.perm.symm.nodup distinct)
        (inside l List.mem_cons_self)
      have size : l + 1 + (search.order.length - (l + 1)) = search.order.length := by
        have below := inside l List.mem_cons_self
        omega
      have row := searchRow_outcome cancelled distinct l _ (l + 1) _ search tracks
        begins size
      rw [searchRows]
      cases result : searchRow cost pre cancelled l
          (List.range' (l + 1) (search.order.length - (l + 1))) (2 ^ search.order.getD l 0) search with
      | mk search' flag =>
          rw [result] at row
          obtain ⟨outcome, finished⟩ := row
          cases flag with
          | true =>
              have never : ¬ ∀ k, cancelled k = false := fun never => by simpa using finished never
              refine ⟨⟨outcome.tracks, outcome.stays, outcome.passes, ?_⟩,
                fun none => absurd none never⟩
              rcases outcome.settled with moved | ⟨same, -⟩
              · exact Or.inl moved
              · exact Or.inr ⟨same, fun none => absurd none never⟩
          | false =>
              have shorter : search'.order.length = search.order.length := by
                rw [outcome.tracks.perm.length_eq, tracks.perm.length_eq]
              have later := ih search' outcome.tracks fun k member => by
                rw [shorter]
                exact inside k (List.mem_cons_of_mem _ member)
              refine ⟨⟨later.1.tracks, fun already => later.1.stays (outcome.stays already),
                later.1.passes.trans outcome.passes, ?_⟩, later.2⟩
              rcases outcome.settled with moved | ⟨same, looked⟩
              · exact Or.inl (later.1.stays moved)
              · rcases later.1.settled with moved | ⟨same', looked'⟩
                · exact Or.inl moved
                · refine Or.inr ⟨same.trans same', fun never k member => ?_⟩
                  rcases List.mem_cons.mp member with rfl | further
                  · exact looked never
                  · rw [← same.order]
                    exact looked' never k further

variable (cancelled) in
/-- **Passes keep what holds of the search, and end at an order without a profitable reversal**
unless they run out. -/
theorem searchPasses_outcome (distinct : given.Nodup) : ∀ (left : ℕ) (search : TourSearch),
    Tracks cost startNode endNode stops pre given search →
    Tracks cost startNode endNode stops pre given (searchPasses cost pre cancelled left search) ∧
      (searchPasses cost pre cancelled left search).passes ≤ search.passes + left ∧
      ((∀ k, cancelled k = false) →
        (searchPasses cost pre cancelled left search).passes < search.passes + left →
        ∀ l, l + 1 < search.order.length → NoCheaperFrom cost startNode endNode stops pre
          (searchPasses cost pre cancelled left search).order l (l + 1)) := by
  intro left
  induction left with
  | zero =>
      intro search tracks
      exact ⟨tracks, le_refl _, fun _ fewer => absurd fewer (lt_irrefl _)⟩
  | succ left ih =>
      intro search tracks
      have begun : Tracks cost startNode endNode stops pre given
          { search with improved := false, passes := search.passes + 1 } :=
        tracks.same ⟨rfl, rfl, rfl⟩
      have pass := searchRows_outcome cancelled distinct
        (List.range (search.order.length - 1)) _ begun fun l member => by
          have below := List.mem_range.mp member
          show l < search.order.length
          omega
      rw [searchPasses]
      cases result : searchRows cost pre cancelled (List.range (search.order.length - 1))
          { search with improved := false, passes := search.passes + 1 } with
      | mk search' flag =>
          rw [result] at pass
          obtain ⟨outcome, finished⟩ := pass
          have counted : search'.passes = search.passes + 1 := outcome.passes
          cases flag with
          | true =>
              refine ⟨outcome.tracks, ?_, fun never => ?_⟩
              · show search'.passes ≤ search.passes + (left + 1)
                omega
              · have contradictory := finished never
                cases contradictory
          | false =>
              dsimp only
              cases moved : search'.improved with
              | true =>
                  rw [if_pos rfl]
                  obtain ⟨tracks', bound, optimal⟩ := ih search' outcome.tracks
                  rw [counted] at bound optimal
                  have shorter : search'.order.length = search.order.length := by
                    rw [outcome.tracks.perm.length_eq, tracks.perm.length_eq]
                  refine ⟨tracks', by omega, fun never fewer l inside => ?_⟩
                  exact optimal never (by omega) l (shorter ▸ inside)
              | false =>
                  rw [if_neg (by simp)]
                  refine ⟨outcome.tracks, by omega, fun never _ l inside => ?_⟩
                  rcases outcome.settled with improved | ⟨same, looked⟩
                  · rw [moved] at improved
                    cases improved
                  · rw [same.order]
                    exact looked never l (List.mem_range.mpr (by omega))

end Rows

/-! ## The search -/

section Improvement

variable (cost : Int64 → Int64 → Option ℚ) (startNode endNode : Int64) (stops : List Int64)
  (pre : List ℕ) (cancelled : ℕ → Bool) (order : List ℕ) (checks : ℕ)

/-- No segment of an order can be reversed, with the prerequisites kept, so that the tour is
strictly cheaper. -/
def LocallyOptimal : Prop :=
  ∀ before segment after, order = before ++ segment ++ after →
    KeepsPrerequisites pre (before ++ segment.reverse ++ after) →
    tourPrice cost startNode endNode stops order ≤
      tourPrice cost startNode endNode stops (before ++ segment.reverse ++ after)

variable {pre order}

theorem tracks_initialSearch (keeps : KeepsPrerequisites pre order) :
    Tracks cost startNode endNode stops pre order
      (initialSearch cost startNode endNode stops order checks) where
  consistent := ⟨rfl, searchCost_eq order⟩
  perm := List.Perm.refl order
  keeps := keeps
  cheaper := (searchCost_eq order).le

/-- The whole search keeps what holds of it. -/
theorem tracks_tsp2optRun (distinct : order.Nodup) (keeps : KeepsPrerequisites pre order) :
    Tracks cost startNode endNode stops pre order
      (tsp2optRun cost startNode endNode stops pre cancelled order checks) := by
  have begun := tracks_initialSearch cost startNode endNode stops checks keeps
  rw [tsp2optRun]
  split_ifs
  · exact begun
  · exact (searchPasses_outcome cancelled distinct maxPasses _ begun).1

/-- Reversing fewer than two stops changes nothing. -/
theorem locallyOptimal_of_rows
    (rows : ∀ l, l + 1 < order.length →
      NoCheaperFrom cost startNode endNode stops pre order l (l + 1)) :
    LocallyOptimal cost startNode endNode stops pre order := by
  intro before segment after split keeps
  have size := congrArg List.length split
  rw [List.length_append, List.length_append] at size
  match segment, size with
  | [], _ => exact (congrArg (tourPrice cost startNode endNode stops) split).le
  | [x], _ => exact (congrArg (tourPrice cost startNode endNode stops) split).le
  | x :: y :: more, size =>
      rw [List.length_cons, List.length_cons] at size
      refine rows before.length (by omega) before _ after split rfl ?_ keeps
      rw [List.length_cons, List.length_cons]
      omega

/-- **The improvement is safe, ends, and is locally optimal** for four stops or more. -/
theorem tsp2optSearch_improves (distinct : order.Nodup) (keeps : KeepsPrerequisites pre order) :
    (tsp2optSearch cost startNode endNode stops pre cancelled order).Perm order ∧
      KeepsPrerequisites pre (tsp2optSearch cost startNode endNode stops pre cancelled order) ∧
      tourPrice cost startNode endNode stops
          (tsp2optSearch cost startNode endNode stops pre cancelled order) ≤
        tourPrice cost startNode endNode stops order ∧
      (tsp2optRun cost startNode endNode stops pre cancelled order 0).passes ≤ maxPasses ∧
      (order.length < 4 →
        tsp2optSearch cost startNode endNode stops pre cancelled order = order) ∧
      (4 ≤ order.length → (∀ k, cancelled k = false) →
        (tsp2optRun cost startNode endNode stops pre cancelled order 0).passes < maxPasses →
        LocallyOptimal cost startNode endNode stops pre
          (tsp2optSearch cost startNode endNode stops pre cancelled order)) := by
  have tracks := tracks_tsp2optRun cost startNode endNode stops cancelled 0 distinct keeps
  have begun := tracks_initialSearch cost startNode endNode stops 0 keeps
  have passes := searchPasses_outcome cancelled distinct maxPasses _ begun
  refine ⟨tracks.perm, tracks.keeps, ?_, ?_, ?_, ?_⟩
  · exact tracks.consistent.best ▸ tracks.cheaper
  · rw [tsp2optRun]
    split_ifs
    · exact Nat.zero_le _
    · exact passes.2.1.trans_eq (Nat.zero_add _)
  · intro few
    simp only [tsp2optSearch, tsp2optRun, if_pos few]
    rfl
  · intro many never
    simp only [tsp2optSearch, tsp2optRun, if_neg (not_lt.mpr many)]
    intro fewer
    apply locallyOptimal_of_rows
    intro l inside
    rw [passes.1.perm.length_eq] at inside
    exact passes.2.2 never (fewer.trans_eq (Nat.zero_add _).symm) l inside

end Improvement

/-! ## Small trips -/

/-- Going up costs one, going down costs five. -/
def uphillCost (fromNode toNode : Int64) : Option ℚ := if fromNode < toNode then some 1 else some 5

theorem keeps_second_after_first : KeepsPrerequisites [0, 2 ^ 0, 0, 0] [0, 1, 2, 3] := by
  rw [keepsPrerequisites_iff]
  have free : ∀ {seen : Set ℕ} (j : ℕ), (0 : ℕ).testBit j = true → j ∈ seen := by
    intro seen j bit
    rw [Nat.zero_testBit] at bit
    cases bit
  refine ⟨free, ?_, free, free, trivial⟩
  intro j bit
  rw [Bits.testBit_two_pow_iff.mp bit]
  exact Set.mem_insert 0 _

/-- Four stops, the second of which requires the first. -/
theorem tsp2optSearch_improves_fourStops :
    (tsp2optSearch uphillCost 0 50 [10, 30, 20, 40] [0, 2 ^ 0, 0, 0] (fun _ => false)
        [0, 1, 2, 3]).Perm [0, 1, 2, 3] ∧
      ((∀ _ : ℕ, false = false) →
        (tsp2optRun uphillCost 0 50 [10, 30, 20, 40] [0, 2 ^ 0, 0, 0] (fun _ => false)
          [0, 1, 2, 3] 0).passes < maxPasses →
        LocallyOptimal uphillCost 0 50 [10, 30, 20, 40] [0, 2 ^ 0, 0, 0]
          (tsp2optSearch uphillCost 0 50 [10, 30, 20, 40] [0, 2 ^ 0, 0, 0] (fun _ => false)
            [0, 1, 2, 3])) := by
  obtain ⟨perm, -, -, -, -, optimal⟩ := tsp2optSearch_improves uphillCost 0 50 [10, 30, 20, 40]
    (fun _ => false) (by decide) keeps_second_after_first
  exact ⟨perm, optimal (by decide)⟩

/-- Two stops are not improved, although visiting the second first would be cheaper. -/
theorem tsp2optSearch_two_stops :
    (tsp2optRun uphillCost 0 50 [20, 10] [0, 0] (fun _ => false) [0, 1] 0).passes < maxPasses ∧
      KeepsPrerequisites [0, 0] [0, 1] ∧
      ¬ LocallyOptimal uphillCost 0 50 [20, 10] [0, 0]
        (tsp2optSearch uphillCost 0 50 [20, 10] [0, 0] (fun _ => false) [0, 1]) := by
  have free : ∀ {seen : Set ℕ} (j : ℕ), (0 : ℕ).testBit j = true → j ∈ seen := by
    intro seen j bit
    rw [Nat.zero_testBit] at bit
    cases bit
  refine ⟨by decide, keepsPrerequisites_iff.mpr ⟨free, free, trivial⟩, ?_⟩
  intro optimal
  have cheaper := optimal [] [0, 1] [] rfl (keepsPrerequisites_iff.mpr ⟨free, free, trivial⟩)
  revert cheaper
  decide +kernel

end OsmMini.Cmd

import OsmMini.Cmd.Trip.TspImprove

/-!
# Dependency checks and the greedy order

`validateTSP` visits one unlocked stop after the other and fails when none is left. That is
the right answer whichever stop it takes: as long as an order of all stops exists, the first
stop of that order that is not visited has its prerequisites visited, so some stop is unlocked
(`exists_unlocked`). A mask that names a stop that does not exist, or the stop itself, leaves
no order.

`tspGreedy` only goes to unlocked stops, so what it builds is an order of all stops once it
ends, and the improvement keeps it one. Stops at the same node wait for each other: only the
first of them is priced, and the others are still unlocked afterwards.
-/

set_option autoImplicit false

namespace OsmMini.Cmd

open OsmMini.Foundations

/-! ## Unlocking stops -/

section Unlocking

variable {n : ℕ} {pre : List ℕ} {q : List ℕ}

/-- The test of a stop, read on the visited stops. -/
theorem unlocked_next_iff {i : ℕ} :
    (maskOf q &&& 2 ^ i = 0 ∧ maskOf q &&& pre.getD i 0 = pre.getD i 0) ↔
      i ∉ q ∧ ∀ j, (pre.getD i 0).testBit j = true → j ∈ q := by
  have fresh : maskOf q &&& 2 ^ i = 0 ↔ i ∉ q := by
    constructor
    · intro zero member
      have bit : (maskOf q &&& 2 ^ i).testBit i = true := by
        rw [Nat.testBit_and, (testBit_maskOf q i).mpr member, Nat.testBit_two_pow_self]
        rfl
      rw [zero, Nat.zero_testBit] at bit
      cases bit
    · intro new
      apply Nat.eq_of_testBit_eq
      intro j
      rw [Nat.zero_testBit, Nat.testBit_and, Bool.and_eq_false_iff]
      by_cases here : j = i
      · left
        rw [here, ← Bool.not_eq_true, testBit_maskOf]
        exact new
      · right
        rw [← Bool.not_eq_true, Bits.testBit_two_pow_iff]
        exact here
  have ready : maskOf q &&& pre.getD i 0 = pre.getD i 0 ↔
      ∀ j, (pre.getD i 0).testBit j = true → j ∈ q := by
    rw [Bits.and_eq_iff]
    simp only [testBit_maskOf]
  rw [fresh, ready]

/-- An order of all stops, backwards, is one that is unlocked step by step. -/
theorem validOrder_iff : ValidOrder n pre q.reverse ↔ Unlocked n pre q ∧ q.length = n := by
  constructor
  · rintro ⟨visits, prerequisites⟩
    have visits' : q.Perm (List.range n) := (List.reverse_perm q).symm.trans visits
    refine ⟨unlocked_iff.mpr ⟨?_, visits'.symm.nodup List.nodup_range, ?_⟩, ?_⟩
    · exact fun i member => List.mem_range.mp (visits'.subset member)
    · intro after before i split j bit
      have reversed : q.reverse = before.reverse ++ i :: after.reverse := by
        rw [split, List.reverse_append, List.reverse_cons, List.append_assoc,
          List.singleton_append]
      exact List.mem_reverse.mp (prerequisites _ i _ reversed j bit)
    · rw [visits'.length_eq, List.length_range]
  · rintro ⟨unlocked, size⟩
    obtain ⟨bound, distinct, needs⟩ := unlocked_iff.mp unlocked
    constructor
    · have inside : q ⊆ List.range n := fun i member => List.mem_range.mpr (bound i member)
      have all : q.Perm (List.range n) :=
        (distinct.subperm inside).perm_of_length_le (by rw [List.length_range, size])
      exact (List.reverse_perm q).trans all
    · intro before i after split j bit
      have reversed : q = after.reverse ++ i :: before.reverse := by
        rw [← List.reverse_reverse q, split, List.reverse_append, List.reverse_cons,
          List.append_assoc, List.singleton_append]
      exact List.mem_reverse.mp (needs reversed j bit)

/-- The first element of a list that another one does not have. -/
theorem exists_first_missing {order : List ℕ} (missing : ∃ i ∈ order, i ∉ q) :
    ∃ before i after, order = before ++ i :: after ∧ (∀ k ∈ before, k ∈ q) ∧ i ∉ q := by
  induction order with
  | nil =>
      obtain ⟨i, none, -⟩ := missing
      exact absurd none List.not_mem_nil
  | cons k order ih =>
      by_cases visited : k ∈ q
      · obtain ⟨i, member, new⟩ := missing
        have later : i ∈ order := by
          rcases List.mem_cons.mp member with rfl | later
          · exact absurd visited new
          · exact later
        obtain ⟨before, i', after, split, all, new'⟩ := ih ⟨i, later, new⟩
        refine ⟨k :: before, i', after, congrArg (k :: ·) split, ?_, new'⟩
        intro k' member'
        rcases List.mem_cons.mp member' with rfl | earlier
        · exact visited
        · exact all k' earlier
      · exact ⟨[], k, order, rfl, fun _ none => absurd none List.not_mem_nil, visited⟩

/-- **Where an order exists, some stop is unlocked**, whatever has been visited before. -/
theorem exists_unlocked {order : List ℕ} (valid : ValidOrder n pre order) (few : q.length < n) :
    ∃ i < n, i ∉ q ∧ ∀ j, (pre.getD i 0).testBit j = true → j ∈ q := by
  have missing : ∃ i ∈ order, i ∉ q := by
    by_contra all
    push Not at all
    have distinct : order.Nodup := valid.visits.symm.nodup List.nodup_range
    have smaller := (distinct.subperm all).length_le
    rw [valid.visits.length_eq, List.length_range] at smaller
    omega
  obtain ⟨before, i, after, split, visited, new⟩ := exists_first_missing missing
  refine ⟨i, ?_, new, fun j bit => visited j (valid.prerequisites before i after split j bit)⟩
  have member : i ∈ order := split ▸ List.mem_append_right _ List.mem_cons_self
  exact List.mem_range.mp (valid.visits.subset member)

theorem nextUnlocked_some {i : ℕ} (next : nextUnlocked n pre (maskOf q) = some i) :
    i < n ∧ i ∉ q ∧ ∀ j, (pre.getD i 0).testBit j = true → j ∈ q := by
  rw [nextUnlocked] at next
  have member := List.mem_of_find?_eq_some next
  have test := List.find?_some next
  rw [decide_eq_true_iff] at test
  exact ⟨List.mem_range.mp member, unlocked_next_iff.mp test⟩

theorem nextUnlocked_none (none : nextUnlocked n pre (maskOf q) = none) {i : ℕ} (inside : i < n) :
    ¬ (i ∉ q ∧ ∀ j, (pre.getD i 0).testBit j = true → j ∈ q) := by
  have test := List.find?_eq_none.mp none i (List.mem_range.mpr inside)
  rw [← unlocked_next_iff]
  exact fun unlocked => test (decide_eq_true unlocked)

/-- Unlocking the stops that are left succeeds exactly when an order exists. -/
theorem unlockAll_iff (count : ℕ) : ∀ q : List ℕ, Unlocked n pre q → q.length + count = n →
    (unlockAll n pre count (maskOf q) = .ok () ↔ ∃ order, ValidOrder n pre order) := by
  induction count with
  | zero =>
      intro q unlocked size
      constructor
      · exact fun _ => ⟨q.reverse, validOrder_iff.mpr ⟨unlocked, size⟩⟩
      · exact fun _ => rfl
  | succ count ih =>
      intro q unlocked size
      rw [unlockAll]
      cases next : nextUnlocked n pre (maskOf q) with
      | none =>
          constructor
          · intro failed
            cases failed
          · rintro ⟨order, valid⟩
            obtain ⟨i, inside, free⟩ := exists_unlocked (q := q) valid (by omega)
            exact absurd free (nextUnlocked_none next inside)
      | some i =>
          obtain ⟨inside, new, needs⟩ := nextUnlocked_some next
          apply ih (i :: q) ⟨inside, new, needs, unlocked⟩
          rw [List.length_cons]
          omega

/-- **The check succeeds exactly when an order exists.** -/
theorem validateTSP_iff (n : ℕ) (pre : List ℕ) (maxStops : ℕ) :
    validateTSP n pre maxStops = .ok () ↔
      n ≤ maxStops ∧ pre.length = n ∧ ∃ order, ValidOrder n pre order := by
  rw [validateTSP]
  by_cases wrong : maxStops < n ∨ pre.length ≠ n
  · rw [if_pos wrong]
    constructor
    · intro failed
      cases failed
    · rintro ⟨few, size, -⟩
      rcases wrong with many | different
      · exact absurd few (not_le.mpr many)
      · exact absurd size different
  · rw [if_neg wrong]
    push Not at wrong
    have all : unlockAll n pre n (maskOf []) = .ok () ↔ ∃ order, ValidOrder n pre order :=
      unlockAll_iff n [] trivial (Nat.zero_add n)
    constructor
    · exact fun ok => ⟨wrong.1, wrong.2, all.mp ok⟩
    · exact fun ok => all.mpr ok.2.2

/-- In an order of all stops no stop requires itself or one that does not exist. -/
theorem ValidOrder.prerequisite_lt {order : List ℕ} (valid : ValidOrder n pre order) {i j : ℕ}
    (inside : i < n) (bit : (pre.getD i 0).testBit j = true) : j < n ∧ j ≠ i := by
  have member : i ∈ order := valid.visits.symm.subset (List.mem_range.mpr inside)
  obtain ⟨before, after, split⟩ := List.append_of_mem member
  have earlier := valid.prerequisites before i after split j bit
  constructor
  · have visited : j ∈ order := split ▸ List.mem_append_left _ earlier
    exact List.mem_range.mp (valid.visits.subset visited)
  · rintro rfl
    have distinct : order.Nodup := valid.visits.symm.nodup List.nodup_range
    rw [split] at distinct
    exact (List.nodup_append.mp distinct).2.2 j earlier j List.mem_cons_self rfl

end Unlocking

/-! ## The greedy order -/

section Greedy

variable {cost : Int64 → Int64 → Option ℚ} {startNode endNode : Int64} {stops : List Int64}
  {pre : List ℕ} {cancelled : ℕ → Bool}

/-- Only unlocked stops are eligible. -/
theorem mem_eligibleStops {visited i : ℕ} (eligible : i ∈ eligibleStops stops pre visited) :
    i < stops.length ∧ visited &&& 2 ^ i = 0 ∧ visited &&& pre.getD i 0 = pre.getD i 0 := by
  have collected : ∀ (candidates chosen : List ℕ),
      (∀ k ∈ candidates, k < stops.length) →
      (∀ k ∈ chosen, k < stops.length ∧ visited &&& 2 ^ k = 0 ∧
        visited &&& pre.getD k 0 = pre.getD k 0) →
      ∀ k ∈ candidates.foldl
        (fun eligible i =>
          if visited &&& 2 ^ i = 0 ∧ visited &&& pre.getD i 0 = pre.getD i 0 then
            if eligible.any fun k => stops.getD k 0 == stops.getD i 0 then eligible
            else eligible ++ [i]
          else eligible) chosen,
        k < stops.length ∧ visited &&& 2 ^ k = 0 ∧ visited &&& pre.getD k 0 = pre.getD k 0 := by
    intro candidates
    induction candidates with
    | nil => exact fun _ _ all => all
    | cons k candidates ih =>
        intro chosen inside all
        rw [List.foldl_cons]
        apply ih _ fun k' member => inside k' (List.mem_cons_of_mem _ member)
        by_cases unlocked : visited &&& 2 ^ k = 0 ∧ visited &&& pre.getD k 0 = pre.getD k 0
        · rw [if_pos unlocked]
          by_cases represented : (chosen.any fun k' => stops.getD k' 0 == stops.getD k 0) = true
          · rw [if_pos represented]
            exact all
          · rw [if_neg represented]
            intro k' member
            rcases List.mem_append.mp member with earlier | last
            · exact all k' earlier
            · rw [List.mem_singleton.mp last]
              exact ⟨inside k List.mem_cons_self, unlocked⟩
        · rw [if_neg unlocked]
          exact all
  exact collected _ [] (fun k member => List.mem_range.mp member)
    (fun k none => absurd none List.not_mem_nil) i eligible

/-- The nearest stop is one of the eligible ones. -/
theorem nearestStop_mem {curNode : Int64} {eligible : List ℕ} {i : ℕ}
    (nearest : nearestStop cost stops curNode eligible = some i) : i ∈ eligible := by
  have kept : ∀ (candidates : List ℕ) (best : ℚ × Option ℕ),
      (candidates.foldl
        (fun (best : ℚ × Option ℕ) i =>
          let c := (cost curNode (stops.getD i 0)).getD maxFloat64
          if c < best.1 then (c, some i) else best) best).2 = some i →
      i ∈ candidates ∨ best.2 = some i := by
    intro candidates
    induction candidates with
    | nil => exact fun _ found => Or.inr found
    | cons k candidates ih =>
        intro best found
        rw [List.foldl_cons] at found
        rcases ih _ found with later | here
        · exact Or.inl (List.mem_cons_of_mem _ later)
        · dsimp only at here
          split_ifs at here with closer
          · cases here
            exact Or.inl List.mem_cons_self
          · exact Or.inr here
  rcases kept eligible _ nearest with member | none
  · exact member
  · cases none

/-- **The steps of the greedy order unlock one stop after the other.** -/
theorem greedySteps_unlocked (left : ℕ) : ∀ (visited : ℕ) (curNode : Int64) (order : List ℕ)
    (checks : ℕ) {result : List ℕ × ℕ},
    Unlocked stops.length pre order.reverse → visited = maskOf order.reverse →
    order.length + left = stops.length →
    greedySteps cost stops pre cancelled left visited curNode order checks = .ok result →
    ValidOrder stops.length pre result.1 := by
  induction left with
  | zero =>
      intro visited curNode order checks result unlocked _ size finished
      cases finished
      rw [← List.reverse_reverse order]
      exact validOrder_iff.mpr ⟨unlocked, by rw [List.length_reverse]; exact size⟩
  | succ left ih =>
      intro visited curNode order checks result unlocked mask size finished
      rw [greedySteps] at finished
      split_ifs at finished with asked
      cases nearest : nearestStop cost stops curNode (eligibleStops stops pre visited) with
      | none =>
          rw [nearest] at finished
          cases finished
      | some i =>
          rw [nearest] at finished
          obtain ⟨inside, test⟩ := mem_eligibleStops (nearestStop_mem nearest)
          rw [mask] at test
          obtain ⟨new, needs⟩ := unlocked_next_iff.mp test
          have reversed : (order ++ [i]).reverse = i :: order.reverse := by simp
          apply ih _ _ _ _ _ _ _ finished
          · rw [reversed]
            exact ⟨inside, new, needs, unlocked⟩
          · rw [reversed, mask, maskOf]
          · rw [List.length_append, List.length_singleton]
            omega

/-- What the greedy search returns is an order of all stops. -/
theorem tspGreedy_valid {order : List ℕ}
    (answer : tspGreedy cost startNode endNode stops pre cancelled = .ok order) :
    ValidOrder stops.length pre order := by
  rw [tspGreedy] at answer
  by_cases asked : cancelled 0 = true
  · rw [if_pos asked] at answer
    cases answer
  rw [if_neg asked] at answer
  cases check : validateTSP stops.length pre 60 with
  | error err =>
      rw [check] at answer
      cases answer
  | ok _ =>
      rw [check] at answer
      dsimp only at answer
      by_cases empty : stops.length = 0
      · rw [if_pos empty] at answer
        cases answer
        rw [empty]
        exact (validOrder_iff (q := [])).mpr ⟨trivial, rfl⟩
      · rw [if_neg empty] at answer
        cases steps : greedySteps cost stops pre cancelled stops.length 0 startNode [] 1 with
        | error err =>
            rw [steps] at answer
            cases answer
        | ok built =>
            obtain ⟨found, checks⟩ := built
            rw [steps] at answer
            dsimp only at answer
            split_ifs at answer with late
            cases answer
            have valid := greedySteps_unlocked _ 0 startNode [] 1 trivial rfl (Nat.zero_add _) steps
            have distinct : found.Nodup := valid.visits.symm.nodup List.nodup_range
            have tracks := tracks_tsp2optRun cost startNode endNode stops cancelled checks distinct
              valid.prerequisites
            exact ⟨tracks.perm.trans valid.visits, tracks.keeps⟩

end Greedy

/-- **Dependency checks and the greedy order agree.** The check succeeds exactly when some order
of the stops keeps the prerequisites, which rules out masks that name a stop out of range or
the stop itself; and an order the greedy search returns visits all stops and keeps the
prerequisites. -/
theorem tsp_dependencies :
    (∀ (n : ℕ) (pre : List ℕ), validateTSP n pre 60 = .ok () ↔
      n ≤ 60 ∧ pre.length = n ∧ ∃ order, ValidOrder n pre order) ∧
    (∀ (n : ℕ) (pre : List ℕ) (i j : ℕ), i < n → (pre.getD i 0).testBit j = true →
      n ≤ j ∨ j = i → validateTSP n pre 60 ≠ .ok ()) ∧
    (∀ (cost : Int64 → Int64 → Option ℚ) (startNode endNode : Int64) (stops : List Int64)
      (pre : List ℕ) (cancelled : ℕ → Bool) (order : List ℕ),
      tspGreedy cost startNode endNode stops pre cancelled = .ok order →
        ValidOrder stops.length pre order) := by
  refine ⟨fun n pre => validateTSP_iff n pre 60, ?_, ?_⟩
  · intro n pre i j inside bit wrong accepted
    obtain ⟨-, -, order, valid⟩ := (validateTSP_iff n pre 60).mp accepted
    have named := valid.prerequisite_lt inside bit
    rcases wrong with outside | itself
    · omega
    · exact named.2 itself
  · intro cost startNode endNode stops pre cancelled order answer
    exact tspGreedy_valid answer

/-- Three stops, two of them at the same node; the last requires the first. -/
theorem tsp_dependencies_threeStops :
    tspGreedy uphillCost 0 50 [20, 20, 10] [0, 0, 2 ^ 0] (fun _ => false) = .ok [0, 1, 2] ∧
      ValidOrder 3 [0, 0, 2 ^ 0] [0, 1, 2] ∧
      validateTSP 1 [2 ^ 0] 60 ≠ .ok () := by
  have answer : tspGreedy uphillCost 0 50 [20, 20, 10] [0, 0, 2 ^ 0] (fun _ => false) =
      .ok [0, 1, 2] := by decide +kernel
  refine ⟨answer, tsp_dependencies.2.2 _ _ _ _ _ _ _ answer, ?_⟩
  exact tsp_dependencies.2.1 1 [2 ^ 0] 0 0 (by decide) (by decide) (Or.inr rfl)

end OsmMini.Cmd

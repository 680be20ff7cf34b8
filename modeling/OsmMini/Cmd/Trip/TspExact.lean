import OsmMini.Cmd.Trip.TspTable

/-!
# The exact order is a cheapest one

From the table of least costs `tspExact` takes the cheapest last stop and recovers an
order from it. Each predecessor is the first stop whose cost and leg add up to the cost
of the cell; several may, and any of them leads to an order of that cost.

`tspExact` therefore returns a cheapest order among those that visit every stop once,
prerequisites first, along reachable legs, and an error when there is none
(`tspExact_exact`).
-/

set_option autoImplicit false

namespace OsmMini.Cmd

open OsmMini.Foundations

/-! ## Recovering an order -/

section Recovery

variable {n : ℕ} {pre : List ℕ} {legs : LegCosts} {dp : List ℚ}

/-- The stops of an order are the members of its set. -/
theorem bitIndices_maskOf {q : List ℕ} (distinct : q.Nodup) : (maskOf q).bitIndices.Perm q := by
  refine (List.perm_ext_iff_of_nodup Nat.bitIndices_nodup distinct).mpr fun i => ?_
  rw [Nat.mem_bitIndices, testBit_maskOf]

theorem onesCount_maskOf {q : List ℕ} (distinct : q.Nodup) :
    Bits.onesCount (maskOf q) = q.length :=
  (bitIndices_maskOf distinct).length_eq

/-- The stops before the last one may be visited in any other order that keeps the
prerequisites. -/
theorem Unlocked.reorder {cur : ℕ} {q q' : List ℕ} (order : Unlocked n pre (cur :: q))
    (other : Unlocked n pre q') (same : maskOf q' = maskOf q) : Unlocked n pre (cur :: q') := by
  have members : ∀ j, j ∈ q' ↔ j ∈ q := fun j => by
    rw [← testBit_maskOf, ← testBit_maskOf, same]
  obtain ⟨bound, new, needs, -⟩ := order
  exact ⟨bound, fun member => new ((members cur).mp member),
    fun j bit => (members j).mpr (needs j bit), other⟩

/-- **From a reached cell an order of its cost is recovered.** -/
theorem recoverOrder_spec (nonneg : legs.Nonneg) (solved : Solved n pre legs (2 ^ n) dp) :
    ∀ {rounds m cur : ℕ} {order : List ℕ}, m < 2 ^ n → m.testBit cur = true →
      tableCost dp (stateIndex m cur) < unreachable → Bits.onesCount m ≤ rounds →
      ∃ q, recoverOrder legs dp rounds m cur order = .ok ((cur :: q).reverse ++ order) ∧
        Unlocked n pre (cur :: q) ∧ maskOf (cur :: q) = m ∧
        costOf legs (cur :: q) = tableCost dp (stateIndex m cur) := by
  intro rounds
  induction rounds with
  | zero =>
      intro m cur order small here reached counted
      have positive := Bits.rank_lt here
      omega
  | succ rounds ih =>
      intro m cur order small here reached counted
      obtain ⟨q, unlocked, mask, cost⟩ := solved.sound small here reached
      have rest : Bits.andNot m (2 ^ cur) = maskOf q := by
        rw [← mask]
        exact andNot_maskOf unlocked.2.1
      rw [recoverOrder]
      simp only [rest]
      cases q with
      | nil => exact ⟨[], if_pos rfl, unlocked, mask, cost⟩
      | cons p q =>
          have before := unlocked.2.2.2
          have member : (maskOf (p :: q)).testBit p = true :=
            (testBit_maskOf _ _).mpr (List.mem_cons_self ..)
          have smaller : maskOf (p :: q) < 2 ^ n := maskOf_lt before.lt
          have occupied : maskOf (p :: q) ≠ 0 := fun none => by
            rw [none, Nat.zero_testBit] at member
            cases member
          have split : tableCost dp (stateIndex m cur) =
              costOf legs (p :: q) + legs.costBetween p cur := by rw [← cost, costOf]
          have cheaper : tableCost dp (stateIndex (maskOf (p :: q)) p) ≤ costOf legs (p :: q) :=
            solved.least before (.inr ((maskOf_lt_cons before.2.1).trans smaller))
          have shorter : costOf legs (p :: q) < unreachable := by
            have leg := nonneg.between p cur
            linarith
          obtain ⟨q', unlocked', mask', cost'⟩ :=
            solved.sound smaller member (cheaper.trans_lt shorter)
          -- The last stop but one of a cheapest order adds up, so a predecessor is found.
          have addsUp : tableCost dp (stateIndex (maskOf (p :: q)) p) + legs.costBetween p cur =
              tableCost dp (stateIndex m cur) := by
            refine le_antisymm (split ▸ add_le_add cheaper (le_refl _)) ?_
            have least := solved.least (unlocked.reorder unlocked' mask')
              (.inr (maskOf_lt unlocked'.lt))
            rwa [maskOf, mask', ← maskOf, mask, costOf, cost'] at least
          rw [if_neg occupied]
          cases found : (maskOf (p :: q)).bitIndices.find? fun p' =>
              tableCost dp (stateIndex (maskOf (p :: q)) p') + legs.costBetween p' cur =
                tableCost dp (stateIndex m cur) with
          | none =>
              have refuted := List.find?_eq_none.mp found p (Nat.mem_bitIndices.mpr member)
              exact absurd (decide_eq_true addsUp) refuted
          | some previous =>
              have sums := List.find?_some found
              rw [decide_eq_true_iff] at sums
              have there := Nat.mem_bitIndices.mp (List.mem_of_find?_eq_some found)
              have live : tableCost dp (stateIndex (maskOf (p :: q)) previous) < unreachable := by
                have leg := nonneg.between previous cur
                linarith
              have fewer : Bits.onesCount (maskOf (p :: q)) ≤ rounds := by
                rw [← mask, onesCount_maskOf unlocked.nodup, List.length_cons] at counted
                rw [onesCount_maskOf before.nodup]
                omega
              obtain ⟨q'', run, unlocked'', mask'', cost''⟩ :=
                ih smaller there live fewer
              refine ⟨previous :: q'', ?_, unlocked.reorder unlocked'' mask'', ?_, ?_⟩
              · rw [List.reverse_cons, List.append_assoc]
                exact run
              · rw [maskOf, mask'', ← maskOf, mask]
              · rw [costOf, cost'']
                exact sums

/-- The cheapest last stop, among those whose cell and way to the end are reached. -/
theorem bestLast_spec (n : ℕ) (legs : LegCosts) (dp : List ℚ) :
    (∀ last < n, tableCost dp (stateIndex (2 ^ n - 1) last) < unreachable →
      legs.costEnd last < unreachable →
      (bestLast n legs dp).1 ≤
        tableCost dp (stateIndex (2 ^ n - 1) last) + legs.costEnd last) ∧
    (bestLast n legs dp).1 ≤ unreachable ∧
    ((bestLast n legs dp).2 = none → (bestLast n legs dp).1 = unreachable) ∧
    ∀ last, (bestLast n legs dp).2 = some last →
      last < n ∧ tableCost dp (stateIndex (2 ^ n - 1) last) < unreachable ∧
      (bestLast n legs dp).1 < unreachable ∧
      (bestLast n legs dp).1 =
        tableCost dp (stateIndex (2 ^ n - 1) last) + legs.costEnd last := by
  unfold bestLast
  generalize 2 ^ n - 1 = all
  induction n with
  | zero =>
      exact ⟨fun last bound => absurd bound (Nat.not_lt_zero _), le_refl _, fun _ => rfl, nofun⟩
  | succ k ih =>
      rw [List.range_succ, List.foldl_append, List.foldl_cons, List.foldl_nil]
      generalize (List.range k).foldl _ _ = best at ih ⊢
      obtain ⟨below, capped, none, taken⟩ := ih
      have kept : ∀ last, best.2 = some last → last < k + 1 ∧ _ := fun last found =>
        ⟨(taken last found).1.trans (Nat.lt_succ_self k), (taken last found).2⟩
      dsimp only
      split_ifs with dead cheaper
      · refine ⟨fun last bound live ends => ?_, capped, none, kept⟩
        rcases Nat.lt_succ_iff_lt_or_eq.mp bound with less | rfl
        · exact below last less live ends
        · exact absurd dead (not_or.mpr ⟨live.not_ge, ends.not_ge⟩)
      · rw [not_or, not_le, not_le] at dead
        have capped' := cheaper.trans_le capped
        refine ⟨fun last bound live ends => ?_, capped'.le, nofun, fun last found => ?_⟩
        · rcases Nat.lt_succ_iff_lt_or_eq.mp bound with less | rfl
          · exact cheaper.le.trans (below last less live ends)
          · exact le_refl _
        · obtain rfl := Option.some.inj found
          exact ⟨Nat.lt_succ_self _, dead.1, capped', rfl⟩
      · refine ⟨fun last bound live ends => ?_, capped, none, kept⟩
        rcases Nat.lt_succ_iff_lt_or_eq.mp bound with less | rfl
        · exact below last less live ends
        · exact not_lt.mp cheaper

end Recovery

/-! ## Tours -/

section Tours

variable (cost : Int64 → Int64 → Option ℚ) (startNode endNode : Int64) (stops : List Int64)
  (pre : List ℕ)

/-- The legs from a node along the stops of an order to the end of the trip. -/
def legsFrom (node : Int64) : List ℕ → List (Int64 × Int64)
  | [] => [(node, endNode)]
  | i :: order => (node, stops.getD i 0) :: legsFrom (stops.getD i 0) order

/-- The legs of a tour. Without stops there is no leg to order: the way from the start
straight to the end is not priced. -/
def tourLegs (order : List ℕ) : List (Int64 × Int64) :=
  if order = [] then [] else legsFrom endNode stops startNode order

/-- The cost of a tour along reachable legs. -/
def tourCost (order : List ℕ) : ℚ :=
  ((tourLegs startNode endNode stops order).map fun leg => (cost leg.1 leg.2).getD 0).sum

/-- An order that visits every stop once, prerequisites first, along reachable legs. -/
structure FeasibleOrder (order : List ℕ) : Prop where
  visits : order.Perm (List.range stops.length)
  prerequisites : ∀ {before after : List ℕ} {i : ℕ}, order = before ++ i :: after →
    ∀ j, (pre.getD i 0).testBit j = true → j ∈ before
  reachable : ∀ leg ∈ tourLegs startNode endNode stops order, (cost leg.1 leg.2).isSome

variable {cost startNode endNode stops pre}

/-- The legs of an order cost what the dynamic program adds up for it. -/
theorem legsFrom_cost {q : List ℕ} : ∀ {last : ℕ}, (last :: q).Nodup → ∀ later : List ℕ,
    ((legsFrom endNode stops startNode ((last :: q).reverse ++ later)).map
        fun leg => legCost cost leg.1 leg.2).sum =
      costOf (legCosts cost startNode endNode stops) (last :: q) +
        ((legsFrom endNode stops (stops.getD last 0) later).map
          fun leg => legCost cost leg.1 leg.2).sum := by
  induction q with
  | nil =>
      intro last _ later
      rw [List.reverse_singleton, List.singleton_append, legsFrom, List.map_cons, List.sum_cons]
      rfl
  | cons p q ih =>
      intro last distinct later
      have apart : p ≠ last := fun same =>
        (List.nodup_cons.mp distinct).1 (same ▸ List.mem_cons_self ..)
      have between : (legCosts cost startNode endNode stops).costBetween p last =
          legCost cost (stops.getD p 0) (stops.getD last 0) := if_neg apart
      rw [List.reverse_cons, List.append_assoc, List.singleton_append,
        ih (List.nodup_cons.mp distinct).2, legsFrom, List.map_cons, List.sum_cons, costOf,
        between, add_assoc]

/-- The legs of a whole tour. -/
theorem tourLegs_cost {last : ℕ} {q : List ℕ} (distinct : (last :: q).Nodup) :
    ((tourLegs startNode endNode stops (last :: q).reverse).map
        fun leg => legCost cost leg.1 leg.2).sum =
      costOf (legCosts cost startNode endNode stops) (last :: q) +
        (legCosts cost startNode endNode stops).costEnd last := by
  rw [tourLegs, if_neg (by simp), ← List.append_nil (last :: q).reverse, legsFrom_cost distinct]
  simp [legsFrom, legCosts]

theorem unlocked_iff {n : ℕ} {q : List ℕ} : Unlocked n pre q ↔ (∀ i ∈ q, i < n) ∧ q.Nodup ∧
    ∀ {after before : List ℕ} {i : ℕ}, q = after ++ i :: before →
      ∀ j, (pre.getD i 0).testBit j = true → j ∈ before := by
  constructor
  · intro order
    refine ⟨order.lt, order.nodup, fun {after before i} split => ?_⟩
    induction after generalizing q with
    | nil =>
        rw [split, List.nil_append] at order
        exact order.2.2.1
    | cons k after ih =>
        rw [split, List.cons_append] at order
        exact ih order.2.2.2 rfl
  · induction q with
    | nil => exact fun _ => trivial
    | cons i q ih =>
        rintro ⟨bound, distinct, needs⟩
        refine ⟨bound i (List.mem_cons_self ..), (List.nodup_cons.mp distinct).1,
          @needs [] _ _ rfl, ih ⟨fun j member => bound j (List.mem_cons_of_mem _ member),
            (List.nodup_cons.mp distinct).2, fun {after before k} split => ?_⟩⟩
        exact @needs (i :: after) _ _ (congrArg (i :: ·) split)

/-- The set of all stops. -/
theorem maskOf_all {n : ℕ} {q : List ℕ} (bound : ∀ i ∈ q, i < n) :
    maskOf q = 2 ^ n - 1 ↔ List.range n ⊆ q := by
  constructor
  · intro all i member
    rw [← testBit_maskOf, all, Nat.testBit_two_pow_sub_one]
    exact decide_eq_true (List.mem_range.mp member)
  · intro all
    refine Bits.ext fun i => ?_
    rw [testBit_maskOf, Nat.testBit_two_pow_sub_one, decide_eq_true_iff]
    exact ⟨bound i, fun small => all (List.mem_range.mpr small)⟩

/-- A feasible order, backwards, is one that the dynamic program considers. -/
theorem feasibleOrder_iff {q : List ℕ} :
    FeasibleOrder cost startNode endNode stops pre q.reverse ↔
      Unlocked stops.length pre q ∧ maskOf q = 2 ^ stops.length - 1 ∧
      ∀ leg ∈ tourLegs startNode endNode stops q.reverse, (cost leg.1 leg.2).isSome := by
  constructor
  · rintro ⟨visits, prerequisites, reachable⟩
    have visits := (List.reverse_perm q).symm.trans visits
    have bound : ∀ i ∈ q, i < stops.length := fun i member =>
      List.mem_range.mp (visits.subset member)
    refine ⟨unlocked_iff.mpr ⟨bound, visits.symm.nodup List.nodup_range,
      fun {after before i} split j bit => ?_⟩, (maskOf_all bound).mpr visits.symm.subset, reachable⟩
    have reversed : q.reverse = before.reverse ++ i :: after.reverse := by
      rw [split, List.reverse_append, List.reverse_cons, List.append_assoc, List.singleton_append]
    exact List.mem_reverse.mp (prerequisites reversed j bit)
  · rintro ⟨order, mask, reachable⟩
    obtain ⟨bound, distinct, needs⟩ := unlocked_iff.mp order
    have all := (maskOf_all bound).mp mask
    refine ⟨(List.reverse_perm q).trans ?_, fun {before after i} split j bit => ?_, reachable⟩
    · refine (List.perm_ext_iff_of_nodup distinct List.nodup_range).mpr fun i => ?_
      exact ⟨fun member => List.mem_range.mpr (bound i member), fun member => all member⟩
    · have reversed : q = after.reverse ++ i :: before.reverse := by
        rw [← List.reverse_reverse q, split, List.reverse_append, List.reverse_cons,
          List.append_assoc, List.singleton_append]
      exact List.mem_reverse.mp (needs reversed j bit)

theorem legCost_nonneg (priced : ∀ a b c, cost a b = some c → 0 ≤ c) (a b : Int64) :
    0 ≤ legCost cost a b := by
  rw [legCost]
  cases known : cost a b with
  | none => exact (by decide +kernel : (0 : ℚ) ≤ unreachable)
  | some c => exact priced a b c known

theorem legCosts_nonneg (priced : ∀ a b c, cost a b = some c → 0 ≤ c) :
    (legCosts cost startNode endNode stops).Nonneg := by
  refine ⟨fun i => legCost_nonneg priced _ _, fun i => legCost_nonneg priced _ _, fun i j => ?_⟩
  rw [legCosts]
  dsimp only
  split_ifs
  · exact (by decide +kernel : (0 : ℚ) ≤ unreachable)
  · exact legCost_nonneg priced _ _

/-- Along reachable legs the program adds up the cost of the tour. -/
theorem tourCost_eq {order : List ℕ}
    (reachable : ∀ leg ∈ tourLegs startNode endNode stops order, (cost leg.1 leg.2).isSome) :
    ((tourLegs startNode endNode stops order).map fun leg => legCost cost leg.1 leg.2).sum =
      tourCost cost startNode endNode stops order := by
  rw [tourCost]
  refine congrArg List.sum (List.map_congr_left fun leg member => ?_)
  obtain ⟨c, known⟩ := Option.isSome_iff_exists.mp (reachable leg member)
  rw [legCost, known]
  rfl

/-- A tour whose legs add up to less than the sentinel has reachable legs only. -/
theorem reachable_of_lt (priced : ∀ a b c, cost a b = some c → 0 ≤ c)
    {legs : List (Int64 × Int64)}
    (cheap : (legs.map fun leg => legCost cost leg.1 leg.2).sum < unreachable) :
    ∀ leg ∈ legs, (cost leg.1 leg.2).isSome := by
  intro leg member
  have below : legCost cost leg.1 leg.2 ≤ (legs.map fun leg => legCost cost leg.1 leg.2).sum := by
    refine List.single_le_sum (fun c priced' => ?_) _ (List.mem_map_of_mem member)
    obtain ⟨leg', -, rfl⟩ := List.mem_map.mp priced'
    exact legCost_nonneg priced _ _
  rw [Option.isSome_iff_ne_none]
  intro none
  rw [legCost, none] at below
  exact absurd (below.trans_lt cheap) (lt_irrefl _)

end Tours

/-! ## The exact order -/

theorem validateTSP_few {n : ℕ} {pre : List ℕ} (valid : validateTSP n pre 16 = .ok ()) :
    n ≤ 16 := by
  unfold validateTSP at valid
  by_contra many
  rw [if_pos (.inl (not_le.mp many))] at valid
  cases valid

section Exact

variable {cost : Int64 → Int64 → Option ℚ} {startNode endNode : Int64} {stops : List Int64}
  {pre : List ℕ}

/-- A feasible order of some stops costs at least what the table offers for its end. -/
theorem bestLast_le (few : stops.length ≤ 16) (priced : ∀ a b c, cost a b = some c → 0 ≤ c)
    {order : List ℕ} (feasible : FeasibleOrder cost startNode endNode stops pre order)
    (nonempty : order ≠ [])
    (bounded : tourCost cost startNode endNode stops order < unreachable) :
    (bestLast stops.length (legCosts cost startNode endNode stops)
      (solveTable stops.length pre (legCosts cost startNode endNode stops))).1 ≤
        tourCost cost startNode endNode stops order := by
  rw [← List.reverse_reverse order] at feasible bounded nonempty ⊢
  generalize order.reverse = q at feasible bounded nonempty ⊢
  obtain ⟨unlocked, mask, reachable⟩ := feasibleOrder_iff.mp feasible
  cases q with
  | nil => exact absurd rfl nonempty
  | cons last q =>
      have nonneg := @legCosts_nonneg _ startNode endNode stops priced
      have total := @tourLegs_cost cost startNode endNode stops _ _ unlocked.nodup
      rw [tourCost_eq reachable] at total
      have least := (solved_solveTable few nonneg).least unlocked
        (.inr (maskOf_lt unlocked.2.2.2.lt))
      rw [mask] at least
      have start := costOf_nonneg nonneg (last :: q)
      have stop := nonneg.stop last
      have best := (bestLast_spec stops.length (legCosts cost startNode endNode stops)
        (solveTable stops.length pre (legCosts cost startNode endNode stops))).1 last unlocked.1
        (by linarith) (by linarith)
      linarith

/-- **From the cheapest last stop a feasible order of its price is recovered.** -/
theorem recoverOrder_feasible (few : stops.length ≤ 16)
    (priced : ∀ a b c, cost a b = some c → 0 ≤ c) {last : ℕ}
    (best : (bestLast stops.length (legCosts cost startNode endNode stops)
      (solveTable stops.length pre (legCosts cost startNode endNode stops))).2 = some last) :
    ∃ order, recoverOrder (legCosts cost startNode endNode stops)
        (solveTable stops.length pre (legCosts cost startNode endNode stops)) stops.length
        (2 ^ stops.length - 1) last [] = .ok order ∧
      FeasibleOrder cost startNode endNode stops pre order ∧
      tourCost cost startNode endNode stops order =
        (bestLast stops.length (legCosts cost startNode endNode stops)
          (solveTable stops.length pre (legCosts cost startNode endNode stops))).1 := by
  have nonneg := @legCosts_nonneg _ startNode endNode stops priced
  have solved := @solved_solveTable _ pre _ few nonneg
  obtain ⟨-, -, -, found⟩ := bestLast_spec stops.length
    (legCosts cost startNode endNode stops)
    (solveTable stops.length pre (legCosts cost startNode endNode stops))
  obtain ⟨inside, live, capped, value⟩ := found last best
  have small : 2 ^ stops.length - 1 < 2 ^ stops.length :=
    Nat.sub_lt (Nat.two_pow_pos _) (by decide)
  have here : (2 ^ stops.length - 1).testBit last = true := by
    rw [Nat.testBit_two_pow_sub_one]
    exact decide_eq_true inside
  obtain ⟨q, run, unlocked, mask, cost'⟩ := recoverOrder_spec nonneg solved
    small here live (Bits.onesCount_le small)
  rw [List.append_nil] at run
  have total := @tourLegs_cost cost startNode endNode stops _ _ unlocked.nodup
  rw [cost', ← value] at total
  have reachable := reachable_of_lt priced (total.trans_lt capped)
  have feasible := feasibleOrder_iff.mpr ⟨unlocked, mask, reachable⟩
  rw [tourCost_eq reachable] at total
  exact ⟨_, run, feasible, total⟩

/-- Without stops the empty order is feasible. -/
theorem feasibleOrder_nil (empty : stops.length = 0) :
    FeasibleOrder cost startNode endNode stops pre [] := by
  refine ⟨?_, fun split => ?_, fun leg member => ?_⟩
  · rw [empty]
    exact List.Perm.refl _
  · simp at split
  · exact absurd member List.not_mem_nil

/-- **An order that is returned is feasible.** -/
theorem tspExact_feasible (priced : ∀ a b c, cost a b = some c → 0 ≤ c) {order : List ℕ}
    (answer : tspExact cost startNode endNode stops pre = .ok order) :
    FeasibleOrder cost startNode endNode stops pre order := by
  cases valid : validateTSP stops.length pre 16 with
  | error err =>
      simp only [tspExact, valid] at answer
      cases answer
  | ok _ =>
      simp only [tspExact, valid] at answer
      by_cases empty : stops.length = 0
      · rw [if_pos empty] at answer
        cases answer
        exact feasibleOrder_nil empty
      · rw [if_neg empty] at answer
        cases last : (bestLast stops.length (legCosts cost startNode endNode stops)
          (solveTable stops.length pre (legCosts cost startNode endNode stops))).2 with
        | none =>
            rw [last] at answer
            cases answer
        | some last' =>
            obtain ⟨order', run, feasible, -⟩ :=
              recoverOrder_feasible (validateTSP_few valid) priced last
            rw [last] at answer
            obtain rfl := Except.ok.inj (run.symm.trans answer)
            exact feasible

/-- Either a cheapest feasible order is returned, or an error and there is none. -/
theorem tspExact_cases (valid : validateTSP stops.length pre 16 = .ok ())
    (priced : ∀ a b c, cost a b = some c → 0 ≤ c)
    (bounded : ∀ order, FeasibleOrder cost startNode endNode stops pre order →
      tourCost cost startNode endNode stops order < unreachable) :
    (∃ order, tspExact cost startNode endNode stops pre = .ok order ∧
      FeasibleOrder cost startNode endNode stops pre order ∧
      ∀ other, FeasibleOrder cost startNode endNode stops pre other →
        tourCost cost startNode endNode stops order ≤
          tourCost cost startNode endNode stops other) ∨
    ((∃ err, tspExact cost startNode endNode stops pre = .error err) ∧
      ∀ order, ¬FeasibleOrder cost startNode endNode stops pre order) := by
  have few := validateTSP_few valid
  simp only [tspExact, valid]
  by_cases empty : stops.length = 0
  · rw [if_pos empty]
    refine .inl ⟨[], rfl, feasibleOrder_nil empty, fun other feasible => ?_⟩
    have none := feasible.visits
    rw [empty, List.range_zero, List.perm_nil] at none
    rw [none]
  · rw [if_neg empty]
    have some_stop : ∀ order, FeasibleOrder cost startNode endNode stops pre order → order ≠ [] := by
      rintro order feasible rfl
      exact empty (by simpa using feasible.visits.length_eq.symm)
    have lower : ∀ order, FeasibleOrder cost startNode endNode stops pre order → _ :=
      fun order feasible =>
        bestLast_le few priced feasible (some_stop order feasible) (bounded order feasible)
    obtain ⟨-, -, none, -⟩ := bestLast_spec stops.length
      (legCosts cost startNode endNode stops)
      (solveTable stops.length pre (legCosts cost startNode endNode stops))
    cases last : (bestLast stops.length (legCosts cost startNode endNode stops)
      (solveTable stops.length pre (legCosts cost startNode endNode stops))).2 with
    | none =>
        refine .inr ⟨⟨_, rfl⟩, fun order feasible => ?_⟩
        have above := lower order feasible
        rw [none last] at above
        exact absurd (bounded order feasible) above.not_gt
    | some last' =>
        obtain ⟨order, run, feasible, total⟩ := recoverOrder_feasible few priced last
        exact .inl ⟨order, run, feasible, fun other feasible' =>
          total.trans_le (lower other feasible')⟩

end Exact

/-- **`tspExact` is exact.** For costs that are not negative and add up to less than the
sentinel, and prerequisites that were validated, it returns a cheapest of the feasible
orders, and an error exactly when there is none. -/
theorem tspExact_exact (cost : Int64 → Int64 → Option ℚ) (startNode endNode : Int64)
    (stops : List Int64) (pre : List ℕ)
    (valid : validateTSP stops.length pre 16 = .ok ())
    (priced : ∀ a b c, cost a b = some c → 0 ≤ c)
    (bounded : ∀ order, FeasibleOrder cost startNode endNode stops pre order →
      tourCost cost startNode endNode stops order < unreachable) :
    (∀ order, tspExact cost startNode endNode stops pre = .ok order →
      FeasibleOrder cost startNode endNode stops pre order ∧
      ∀ other, FeasibleOrder cost startNode endNode stops pre other →
        tourCost cost startNode endNode stops order ≤
          tourCost cost startNode endNode stops other) ∧
    ((∃ err, tspExact cost startNode endNode stops pre = .error err) ↔
      ¬∃ order, FeasibleOrder cost startNode endNode stops pre order) := by
  rcases tspExact_cases valid priced bounded with ⟨order, run, feasible, cheapest⟩ | ⟨err, none⟩
  · refine ⟨fun order' run' => ?_, fun ⟨err, run'⟩ => ?_, fun none => absurd ⟨order, feasible⟩ none⟩
    · obtain rfl := Except.ok.inj (run.symm.trans run')
      exact ⟨feasible, cheapest⟩
    · cases run.symm.trans run'
  · refine ⟨fun order' run' => ?_, fun _ ⟨order, feasible⟩ => none order feasible, fun _ => err⟩
    obtain ⟨text, failed⟩ := err
    cases failed.symm.trans run'

/-- Two stops, the first of which needs the second; every leg costs one. -/
theorem tspExact_exact_twoStops :
    validateTSP [20, 30].length [2, 0] 16 = .ok () ∧
    ((∀ order, tspExact (fun _ _ => some 1) 10 40 [20, 30] [2, 0] = .ok order →
      FeasibleOrder (fun _ _ => some 1) 10 40 [20, 30] [2, 0] order ∧
      ∀ other, FeasibleOrder (fun _ _ => some 1) 10 40 [20, 30] [2, 0] other →
        tourCost (fun _ _ => some 1) 10 40 [20, 30] order ≤
          tourCost (fun _ _ => some 1) 10 40 [20, 30] other) ∧
    ((∃ err, tspExact (fun _ _ => some 1) 10 40 [20, 30] [2, 0] = .error err) ↔
      ¬∃ order, FeasibleOrder (fun _ _ => some 1) 10 40 [20, 30] [2, 0] order)) := by
  refine ⟨by decide, tspExact_exact _ 10 40 [20, 30] [2, 0] (by decide) ?_ ?_⟩
  · rintro a b c priced
    rw [← Option.some.inj priced]
    exact zero_le_one
  · intro order feasible
    have orders : order ∈ [[0, 1], [1, 0]] := by
      have permuted := List.mem_permutations.mpr feasible.visits
      simpa [List.range_succ, List.permutations, List.permutationsAux, List.permutationsAux2,
        List.permutationsAux.rec] using permuted
    rcases List.mem_pair.mp orders with rfl | rfl <;> decide +kernel

end OsmMini.Cmd

import OsmMini.Cmd.Trip.Tsp

/-!
# The table of least costs

An order is written backwards here, with the last stop first, as the dynamic program
finds it. After the masks below `M` have been expanded, a cell holds the least cost of
an order of its set that ends at its last stop and keeps the prerequisites, among the
orders that come from a mask below `M` (`Solved`).

The row of a mask is expanded in place. That is safe because a mask only offers costs to
rows of larger masks, so the costs it reads are those the row had at first.
-/

set_option autoImplicit false

namespace OsmMini.Cmd

open OsmMini.Foundations

/-! ## Orders, written backwards -/

/-- The set of the stops of an order. -/
def maskOf : List ℕ → ℕ
  | [] => 0
  | i :: q => maskOf q ||| 2 ^ i

/-- The cost of an order from the start of the trip to its last stop. -/
def costOf (legs : LegCosts) : List ℕ → ℚ
  | [] => 0
  | [i] => legs.costStart i
  | i :: j :: q => costOf legs (j :: q) + legs.costBetween j i

/-- Every stop of an order comes once and after its prerequisites. -/
def Unlocked (n : ℕ) (pre : List ℕ) : List ℕ → Prop
  | [] => True
  | i :: q => i < n ∧ i ∉ q ∧ (∀ j, (pre.getD i 0).testBit j = true → j ∈ q) ∧ Unlocked n pre q

section Orders

variable {n : ℕ} {pre : List ℕ} {legs : LegCosts}

@[simp] theorem testBit_maskOf (q : List ℕ) (i : ℕ) : (maskOf q).testBit i = true ↔ i ∈ q := by
  induction q with
  | nil => simp [maskOf]
  | cons j q ih =>
      rw [maskOf, Nat.testBit_or, Bool.or_eq_true, ih, Bits.testBit_two_pow_iff, List.mem_cons,
        or_comm]

theorem Unlocked.lt {q : List ℕ} (order : Unlocked n pre q) : ∀ i ∈ q, i < n := by
  induction q with
  | nil => exact fun i none => absurd none List.not_mem_nil
  | cons j q ih =>
      intro i member
      rcases List.mem_cons.mp member with rfl | later
      · exact order.1
      · exact ih order.2.2.2 i later

theorem Unlocked.nodup {q : List ℕ} (order : Unlocked n pre q) : q.Nodup := by
  induction q with
  | nil => exact .nil
  | cons j q ih => exact List.nodup_cons.mpr ⟨order.2.1, ih order.2.2.2⟩

theorem maskOf_lt {q : List ℕ} (small : ∀ i ∈ q, i < n) : maskOf q < 2 ^ n := by
  induction q with
  | nil => exact Nat.two_pow_pos n
  | cons j q ih =>
      refine Nat.or_lt_two_pow (ih fun i later => small i (List.mem_cons_of_mem _ later)) ?_
      exact Nat.pow_lt_pow_right (by decide) (small j (List.mem_cons_self ..))

/-- Taking the last stop out of an order takes it out of its set. -/
theorem andNot_maskOf {i : ℕ} {q : List ℕ} (new : i ∉ q) :
    Bits.andNot (maskOf (i :: q)) (2 ^ i) = maskOf q := by
  refine Bits.ext fun j => ?_
  rw [Bits.testBit_andNot, Bool.and_eq_true, testBit_maskOf, testBit_maskOf, Bool.not_eq_true',
    ← Bool.not_eq_true, Bits.testBit_two_pow_iff, List.mem_cons]
  constructor
  · rintro ⟨same | later, other⟩
    · exact absurd same other
    · exact later
  · exact fun later => ⟨.inr later, fun same => new (same ▸ later)⟩

/-- The set of an order is larger than that of the order before its last stop. -/
theorem maskOf_lt_cons {i : ℕ} {q : List ℕ} (new : i ∉ q) : maskOf q < maskOf (i :: q) := by
  refine Nat.lt_of_testBit i ?_ ?_ fun j past => ?_
  · rwa [← Bool.not_eq_true, testBit_maskOf]
  · rw [testBit_maskOf]
    exact List.mem_cons_self ..
  · rw [maskOf, Nat.testBit_or, Nat.testBit_two_pow_of_ne past.ne, Bool.or_false]

/-- No leg is rewarded. -/
structure LegCosts.Nonneg (legs : LegCosts) : Prop where
  start : ∀ i, 0 ≤ legs.costStart i
  stop : ∀ i, 0 ≤ legs.costEnd i
  between : ∀ i j, 0 ≤ legs.costBetween i j

theorem costOf_nonneg (nonneg : legs.Nonneg) : ∀ q : List ℕ, 0 ≤ costOf legs q
  | [] => le_refl _
  | [i] => nonneg.start i
  | i :: j :: q => add_nonneg (costOf_nonneg nonneg (j :: q)) (nonneg.between j i)

end Orders

/-! ## The cells of the table -/

section Cells

variable {n : ℕ}

/-- With at most 16 stops the cells fit into 32 bits. -/
theorem stateIndex_eq (few : n ≤ 16) {m last : ℕ} (small : m < 2 ^ n) :
    stateIndex m last = Bits.cell m last := by
  have bound : Bits.offset m < 2 ^ 32 := by
    have le := Bits.offset_le n small.le
    have size : m * n ≤ 2 ^ 16 * 16 := by
      refine Nat.mul_le_mul (small.le.trans (Nat.pow_le_pow_right (by decide) few)) few
    exact (le.trans size).trans_lt (by decide)
  rw [stateIndex, offsets, Nat.mod_eq_of_lt bound]
  rfl

theorem stateIndex_lt (few : n ≤ 16) {m last : ℕ} (small : m < 2 ^ n)
    (member : m.testBit last = true) : stateIndex m last < Bits.offset (2 ^ n) := by
  rw [stateIndex_eq few small]
  exact Bits.cell_lt small member

theorem stateIndex_inj (few : n ≤ 16) {m m' last last' : ℕ} (small : m < 2 ^ n)
    (small' : m' < 2 ^ n) (member : m.testBit last = true) (member' : m'.testBit last' = true)
    (same : stateIndex m last = stateIndex m' last') : m = m' ∧ last = last' := by
  rw [stateIndex_eq few small, stateIndex_eq few small'] at same
  exact Bits.cell_inj member member' same

/-- The entries of a row are the members of the mask with their cells. -/
theorem mem_row {m : ℕ} {entry : ℕ × ℕ}
    (member : entry ∈ m.bitIndices.zipIdx (offsets m)) :
    m.testBit entry.1 = true ∧ entry.2 = stateIndex m entry.1 := by
  obtain ⟨last, index⟩ := entry
  obtain ⟨low, high, here⟩ := List.mem_zipIdx member
  have inside : index - offsets m < m.bitIndices.length := by omega
  have ranked := Bits.rank_getElem inside
  rw [← here] at ranked
  refine ⟨?_, ?_⟩
  · rw [← Nat.mem_bitIndices, here]
    exact List.getElem_mem _
  · show index = offsets m + Bits.rank m last
    rw [ranked]
    omega

/-- Every member of a mask has an entry in its row. -/
theorem row_complete {m last : ℕ} (member : m.testBit last = true) :
    ∃ entry ∈ m.bitIndices.zipIdx (offsets m), entry.1 = last := by
  obtain ⟨k, inside, rfl⟩ := List.getElem_of_mem (Nat.mem_bitIndices.mpr member)
  refine ⟨(m.bitIndices[k], offsets m + k), ?_, rfl⟩
  rw [List.mem_zipIdx_iff_le_and_getElem?_sub]
  simp [inside]

end Cells

/-! ## The costs a mask offers -/

section Moves

variable (n : ℕ) (pre : List ℕ) (legs : LegCosts)

/-- The stops that may come next. -/
def eligible (m : ℕ) : List ℕ :=
  (Bits.andNot (2 ^ n - 1) m).bitIndices.filter fun nxt =>
    m &&& pre.getD nxt 0 = pre.getD nxt 0

/-- What the entry of a row offers to the cells of the larger masks. -/
def moves (dp : List ℚ) (m : ℕ) (entry : ℕ × ℕ) : List (ℕ × ℚ) :=
  if unreachable ≤ tableCost dp entry.2 then []
  else (eligible n pre m).map fun nxt =>
    (stateIndex (m ||| 2 ^ nxt) nxt, tableCost dp entry.2 + legs.costBetween entry.1 nxt)

variable {n pre legs}

theorem mem_eligible {m nxt : ℕ} : nxt ∈ eligible n pre m ↔
    nxt < n ∧ m.testBit nxt = false ∧ ∀ j, (pre.getD nxt 0).testBit j = true → m.testBit j = true := by
  rw [eligible, List.mem_filter, Nat.mem_bitIndices, Bits.testBit_andNot, Bool.and_eq_true,
    Nat.testBit_two_pow_sub_one, decide_eq_true_iff, decide_eq_true_iff, Bool.not_eq_true',
    Bits.and_eq_iff, and_assoc]

/-- The moves of an entry read one cell only. -/
theorem moves_congr {dp dp' : List ℚ} {m : ℕ} {entry : ℕ × ℕ}
    (same : tableCost dp' entry.2 = tableCost dp entry.2) :
    moves n pre legs dp' m entry = moves n pre legs dp m entry := by
  rw [moves, moves, same]

theorem mem_moves {dp : List ℚ} {m : ℕ} {entry : ℕ × ℕ} {u : ℕ × ℚ} :
    u ∈ moves n pre legs dp m entry ↔ tableCost dp entry.2 < unreachable ∧
      ∃ nxt ∈ eligible n pre m, (stateIndex (m ||| 2 ^ nxt) nxt,
        tableCost dp entry.2 + legs.costBetween entry.1 nxt) = u := by
  rw [moves]
  split_ifs with dead
  · exact ⟨fun none => absurd none List.not_mem_nil, fun h => absurd h.1 dead.not_gt⟩
  · rw [List.mem_map]
    exact ⟨fun h => ⟨not_le.mp dead, h⟩, And.right⟩

/-- The row a mask offers a cost to is that of a mask with one more stop. -/
theorem eligible_lt {m nxt : ℕ} (small : m < 2 ^ n) (next : nxt ∈ eligible n pre m) :
    m ||| 2 ^ nxt < 2 ^ n ∧ (m ||| 2 ^ nxt).testBit nxt = true := by
  refine ⟨Nat.or_lt_two_pow small (Nat.pow_lt_pow_right (by decide) (mem_eligible.mp next).1), ?_⟩
  rw [Nat.testBit_or, Nat.testBit_two_pow_self, Bool.or_true]

theorem moves_inside (few : n ≤ 16) {m : ℕ} (small : m < 2 ^ n) {dp : List ℚ}
    {entry : ℕ × ℕ} {u : ℕ × ℚ} (member : u ∈ moves n pre legs dp m entry) :
    u.1 < Bits.offset (2 ^ n) := by
  obtain ⟨-, nxt, next, rfl⟩ := mem_moves.mp member
  obtain ⟨small', here⟩ := eligible_lt small next
  exact stateIndex_lt few small' here

/-- No cost is offered to the row itself. -/
theorem moves_apart (few : n ≤ 16) {m : ℕ} (small : m < 2 ^ n) {dp : List ℚ}
    {entry : ℕ × ℕ} {u : ℕ × ℚ} (member : u ∈ moves n pre legs dp m entry) {last : ℕ}
    (here : m.testBit last = true) : u.1 ≠ stateIndex m last := by
  obtain ⟨-, nxt, next, rfl⟩ := mem_moves.mp member
  obtain ⟨small', there⟩ := eligible_lt small next
  intro same
  obtain ⟨grown, -⟩ := stateIndex_inj few small' small there here same
  rw [grown] at there
  exact Bool.false_ne_true ((mem_eligible.mp next).2.1.symm.trans there)

/-- The loop over a row offers all its moves, as they were before the loop. -/
theorem foldl_moves (few : n ≤ 16) {m : ℕ} (small : m < 2 ^ n) :
    ∀ {row : List (ℕ × ℕ)} {dp : List ℚ}, dp.length = Bits.offset (2 ^ n) →
      (∀ entry ∈ row, m.testBit entry.1 = true ∧ entry.2 = stateIndex m entry.1) →
      row.foldl (fun dp entry => CostTable.lowerAll unreachable dp (moves n pre legs dp m entry))
          dp =
        CostTable.lowerAll unreachable dp (row.flatMap (moves n pre legs dp m)) := by
  intro row
  induction row with
  | nil => exact fun _ _ => rfl
  | cons entry row ih =>
      intro dp long cells
      have inside : ∀ u ∈ moves n pre legs dp m entry, u.1 < dp.length := fun u member =>
        (moves_inside few small member).trans_eq long.symm
      have unread : ∀ e ∈ row, moves n pre legs
          (CostTable.lowerAll unreachable dp (moves n pre legs dp m entry)) m e =
            moves n pre legs dp m e := by
        intro e later
        obtain ⟨here, index⟩ := cells e (List.mem_cons_of_mem _ later)
        refine moves_congr (CostTable.lowerAll_other inside fun u member => ?_)
        rw [index]
        exact moves_apart few small member here
      rw [List.foldl_cons, ih ((CostTable.length_lowerAll _ _).trans long) fun e later =>
        cells e (List.mem_cons_of_mem _ later)]
      rw [List.flatMap_congr unread, List.flatMap_cons]
      exact (List.foldl_append ..).symm

/-- The entries skipped at the start of a row have nothing to offer. -/
theorem flatMap_dropWhile {dp : List ℚ} {m : ℕ} : ∀ row : List (ℕ × ℕ),
    (row.dropWhile fun entry => unreachable ≤ tableCost dp entry.2).flatMap
      (moves n pre legs dp m) = row.flatMap (moves n pre legs dp m)
  | [] => rfl
  | entry :: row => by
      rw [List.dropWhile_cons]
      split_ifs with dead
      · rw [flatMap_dropWhile row, List.flatMap_cons, moves, if_pos (of_decide_eq_true dead),
          List.nil_append]
      · rfl

/-- **Expanding a mask offers the moves of its row to the table.** -/
theorem expandMask_eq (few : n ≤ 16) {m : ℕ} (small : m < 2 ^ n) {dp : List ℚ}
    (long : dp.length = Bits.offset (2 ^ n)) :
    expandMask n pre legs dp m = CostTable.lowerAll unreachable dp
      ((m.bitIndices.zipIdx (offsets m)).flatMap (moves n pre legs dp m)) := by
  rw [← flatMap_dropWhile]
  generalize remains : (m.bitIndices.zipIdx (offsets m)).dropWhile
    (fun entry => decide (unreachable ≤ tableCost dp entry.2)) = remaining
  have cells : ∀ entry ∈ remaining, m.testBit entry.1 = true ∧ entry.2 = stateIndex m entry.1 :=
    fun entry member => mem_row ((List.dropWhile_suffix _).subset (remains ▸ member))
  have loop : (fun dp (entry : ℕ × ℕ) =>
      if unreachable ≤ tableCost dp entry.2 then dp
      else (eligible n pre m).foldl
        (fun dp' nxt => CostTable.lower unreachable dp' (stateIndex (m ||| 2 ^ nxt) nxt)
          (tableCost dp entry.2 + legs.costBetween entry.1 nxt)) dp) =
      fun dp entry => CostTable.lowerAll unreachable dp (moves n pre legs dp m entry) := by
    funext dp entry
    rw [moves, CostTable.lowerAll]
    split_ifs
    · rfl
    · rw [List.foldl_map]
  rw [← foldl_moves few small long cells, ← loop]
  simp only [expandMask, remains]
  split_ifs with dead blocked
  · rw [dead]
    rfl
  · have idle : ∀ row : List (ℕ × ℕ), row.foldl (fun (dp : List ℚ) (_ : ℕ × ℕ) => dp) dp = dp := by
      intro row
      induction row with
      | nil => rfl
      | cons _ _ ih => exact ih
    have none : eligible n pre m = [] := blocked
    simp only [none, List.foldl_nil, ite_self, idle]
  · rfl

end Moves

/-! ## Least costs -/

section Solved

variable (n : ℕ) (pre : List ℕ) (legs : LegCosts)

/-- The table after the masks below `M` have been expanded. -/
structure Solved (M : ℕ) (dp : List ℚ) : Prop where
  length : dp.length = Bits.offset (2 ^ n)
  capped : ∀ {m last : ℕ}, m < 2 ^ n → m.testBit last = true →
    tableCost dp (stateIndex m last) ≤ unreachable
  sound : ∀ {m last : ℕ}, m < 2 ^ n → m.testBit last = true →
    tableCost dp (stateIndex m last) < unreachable →
    ∃ q, Unlocked n pre (last :: q) ∧ maskOf (last :: q) = m ∧
      costOf legs (last :: q) = tableCost dp (stateIndex m last)
  least : ∀ {last : ℕ} {q : List ℕ}, Unlocked n pre (last :: q) → (q = [] ∨ maskOf q < M) →
    tableCost dp (stateIndex (maskOf (last :: q)) last) ≤ costOf legs (last :: q)

variable {n}

/-- Put the order of one stop into the table. -/
def placeFirst (dp : List ℚ) (i : ℕ) : List ℚ :=
  if pre.getD i 0 = 0 ∧ legs.costStart i < unreachable then
    dp.set (stateIndex (2 ^ i) i) (legs.costStart i)
  else dp

variable {pre legs}

/-- The first stops below `k` are in the table, and nothing else is. -/
theorem placeFirst_range (few : n ≤ 16) {k : ℕ} (bound : k ≤ n) :
    ((List.range k).foldl (placeFirst pre legs)
      (List.replicate (Bits.offset (2 ^ n)) unreachable)).length = Bits.offset (2 ^ n) ∧
    ∀ {m last : ℕ}, m < 2 ^ n → m.testBit last = true →
      tableCost ((List.range k).foldl (placeFirst pre legs)
          (List.replicate (Bits.offset (2 ^ n)) unreachable)) (stateIndex m last) =
        if last < k ∧ m = 2 ^ last ∧ pre.getD last 0 = 0 ∧ legs.costStart last < unreachable then
          legs.costStart last
        else unreachable := by
  induction k with
  | zero =>
      refine ⟨List.length_replicate, fun small here => ?_⟩
      rw [if_neg fun h => absurd h.1 (Nat.not_lt_zero _), List.range_zero, List.foldl_nil,
        tableCost, List.getD_replicate _ (stateIndex_lt few small here)]
  | succ k ih =>
      obtain ⟨long, value⟩ := ih (by omega)
      rw [List.range_succ, List.foldl_append, List.foldl_cons, List.foldl_nil]
      generalize (List.range k).foldl _ _ = earlier at long value ⊢
      unfold placeFirst
      by_cases first : pre.getD k 0 = 0 ∧ legs.costStart k < unreachable
      · rw [if_pos first]
        refine ⟨List.length_set.trans long, fun {m last} small here => ?_⟩
        have single : (2 ^ k).testBit k = true := Nat.testBit_two_pow_self
        have smallK : 2 ^ k < 2 ^ n := Nat.pow_lt_pow_right (by decide) bound
        have inside := stateIndex_lt few smallK single
        by_cases same : stateIndex (2 ^ k) k = stateIndex m last
        · obtain ⟨rfl, rfl⟩ := stateIndex_inj few smallK small single here same
          rw [if_pos ⟨Nat.lt_succ_self _, rfl, first⟩, tableCost,
            List.getD_eq_getElem _ _ (by rwa [List.length_set, long]), List.getElem_set_self]
        · have other : ¬(last = k ∧ m = 2 ^ last) := by
            rintro ⟨rfl, rfl⟩
            exact same rfl
          rw [tableCost, List.getD_eq_getElem?_getD, List.getElem?_set_ne same,
            ← List.getD_eq_getElem?_getD]
          refine (value small here).trans (if_congr ?_ rfl rfl)
          rw [Nat.lt_succ_iff_lt_or_eq, or_and_right]
          exact ⟨.inl, fun h => h.resolve_right fun h => other ⟨h.1, h.2.1⟩⟩
      · rw [if_neg first]
        refine ⟨long, fun {m last} small here => (value small here).trans (if_congr ?_ rfl rfl)⟩
        rw [Nat.lt_succ_iff_lt_or_eq, or_and_right]
        refine ⟨.inl, fun h => h.resolve_right ?_⟩
        rintro ⟨rfl, -, starts⟩
        exact first starts

theorem unlocked_single {last : ℕ} :
    Unlocked n pre [last] ↔ last < n ∧ pre.getD last 0 = 0 := by
  constructor
  · rintro ⟨inside, -, needs, -⟩
    refine ⟨inside, Bits.ext fun j => ?_⟩
    rw [Nat.zero_testBit]
    exact ⟨fun bit => absurd (needs j bit) List.not_mem_nil, fun h => nomatch h⟩
  · rintro ⟨inside, free⟩
    refine ⟨inside, List.not_mem_nil, fun j bit => ?_, trivial⟩
    rw [free, Nat.zero_testBit] at bit
    cases bit

/-- The initial table holds the orders of one stop. -/
theorem solved_initial (few : n ≤ 16) : Solved n pre legs 0 (initialTable n pre legs) := by
  obtain ⟨long, value⟩ := placeFirst_range few (le_refl n)
  refine ⟨long, fun {m last} small here => ?_, fun {m last} small here reached => ?_,
    fun {last q} order start => ?_⟩
  · refine (value small here).trans_le ?_
    split_ifs with first
    · exact first.2.2.2.le
    · exact le_refl _
  · have cell : tableCost (initialTable n pre legs) (stateIndex m last) = _ := value small here
    rw [cell] at reached ⊢
    by_cases first : last < n ∧ m = 2 ^ last ∧ pre.getD last 0 = 0 ∧
      legs.costStart last < unreachable
    · rw [if_pos first]
      obtain ⟨inside, rfl, free, -⟩ := first
      exact ⟨[], unlocked_single.mpr ⟨inside, free⟩, Nat.zero_or _, rfl⟩
    · rw [if_neg first] at reached
      exact absurd reached (lt_irrefl _)
  · obtain rfl := start.resolve_right (Nat.not_lt_zero _)
    obtain ⟨inside, free⟩ := unlocked_single.mp order
    have mask : maskOf [last] = 2 ^ last := Nat.zero_or _
    have small : maskOf [last] < 2 ^ n := maskOf_lt order.lt
    rw [mask] at small ⊢
    refine (value small Nat.testBit_two_pow_self).trans_le ?_
    split_ifs with first
    · exact le_refl _
    · exact not_lt.mp fun less => first ⟨inside, rfl, free, less⟩

/-- **Expanding a mask keeps the table least, with one mask more.** -/
theorem Solved.expand (few : n ≤ 16) (nonneg : legs.Nonneg) {M : ℕ} (small : M < 2 ^ n) {dp : List ℚ}
    (solved : Solved n pre legs M dp) :
    Solved n pre legs (M + 1) (expandMask n pre legs dp M) := by
  rw [expandMask_eq few small solved.length]
  generalize offered : (M.bitIndices.zipIdx (offsets M)).flatMap (moves n pre legs dp M) = updates
  have inside : ∀ u ∈ updates, u.1 < dp.length := by
    intro u member
    rw [← offered, List.mem_flatMap] at member
    obtain ⟨entry, -, member⟩ := member
    exact (moves_inside few small member).trans_eq solved.length.symm
  refine ⟨(CostTable.length_lowerAll _ _).trans solved.length, fun {m last} small' here => ?_,
    fun {m last} small' here reached => ?_, fun {last q} order earlier => ?_⟩
  · exact (CostTable.lowerAll_le inside _).trans (solved.capped small' here)
  · rcases CostTable.lowerAll_cases inside (stateIndex m last) with kept | ⟨u, member, same, value⟩
    · obtain ⟨q, order, mask, cost⟩ := solved.sound small' here (kept.symm.trans_lt reached)
      exact ⟨q, order, mask, cost.trans kept.symm⟩
    · -- The cost was offered by an order of the row, which the last stop continues.
      rw [← offered, List.mem_flatMap] at member
      obtain ⟨entry, row, member⟩ := member
      obtain ⟨previous, index⟩ := mem_row row
      obtain ⟨live, nxt, next, rfl⟩ := mem_moves.mp member
      obtain ⟨smallN, there⟩ := eligible_lt small next
      obtain ⟨rfl, rfl⟩ := stateIndex_inj few smallN small' there here same
      obtain ⟨bound, new, needs⟩ := mem_eligible.mp next
      rw [index] at live value
      obtain ⟨q, order, mask, cost⟩ := solved.sound small previous live
      have known : ∀ j, M.testBit j = true ↔ j ∈ entry.1 :: q := fun j => by
        rw [← mask, testBit_maskOf]
      refine ⟨entry.1 :: q, ⟨bound, ?_, fun j bit => (known j).mp (needs j bit), order⟩, ?_, ?_⟩
      · rw [← known, new]
        exact Bool.false_ne_true
      · rw [maskOf, mask]
      · rw [costOf, cost]
        exact value.symm
  · -- An order that comes from `M` itself was offered by its row.
    by_cases old : q = [] ∨ maskOf q < M
    · exact (CostTable.lowerAll_le inside _).trans (solved.least order old)
    · have mask : maskOf q = M := by
        rw [not_or, not_lt] at old
        have below := earlier.resolve_left old.1
        omega
      obtain ⟨p, q, rfl⟩ := List.exists_cons_of_ne_nil (not_or.mp old).1
      obtain ⟨bound, new, needs, before⟩ := order
      have known : ∀ j, M.testBit j = true ↔ j ∈ p :: q := fun j => by rw [← mask, testBit_maskOf]
      have last' : M.testBit p = true := (known p).mpr (List.mem_cons_self ..)
      have next : last ∈ eligible n pre M := by
        refine mem_eligible.mpr ⟨bound, ?_, fun j bit => (known j).mpr (needs j bit)⟩
        rwa [← Bool.not_eq_true, known]
      have cheaper : tableCost dp (stateIndex M p) ≤ costOf legs (p :: q) := by
        rw [← mask]
        exact solved.least before (.inr (maskOf_lt_cons before.2.1 |>.trans_eq mask))
      have reaches : tableCost (CostTable.lowerAll unreachable dp updates)
          (stateIndex (maskOf (last :: p :: q)) last) ≤ costOf legs (last :: p :: q) := by
        rw [maskOf, mask, costOf]
        by_cases live : tableCost dp (stateIndex M p) < unreachable
        · obtain ⟨entry, row, rfl⟩ := row_complete last'
          have index := (mem_row row).2
          have member : (stateIndex (M ||| 2 ^ last) last,
              tableCost dp (stateIndex M entry.1) + legs.costBetween entry.1 last) ∈ updates := by
            rw [← offered, List.mem_flatMap]
            refine ⟨entry, row, mem_moves.mpr ⟨index ▸ live, last, next, ?_⟩⟩
            rw [index]
          refine (CostTable.lowerAll_le_offer inside _ member).trans ?_
          exact add_le_add cheaper (le_refl _)
        · have grown := (eligible_lt small next).1
          have there := (eligible_lt small next).2
          calc tableCost (CostTable.lowerAll unreachable dp updates)
                (stateIndex (M ||| 2 ^ last) last)
              ≤ unreachable :=
                (CostTable.lowerAll_le inside _).trans (solved.capped grown there)
            _ ≤ costOf legs (p :: q) := (not_lt.mp live).trans cheaper
            _ ≤ costOf legs (p :: q) + legs.costBetween p last :=
                le_add_of_nonneg_right (nonneg.between p last)
      exact reaches

/-- **The finished table holds the least costs of all orders.** -/
theorem solved_solveTable (few : n ≤ 16) (nonneg : legs.Nonneg) :
    Solved n pre legs (2 ^ n) (solveTable n pre legs) := by
  have prefixes : ∀ M ≤ 2 ^ n, Solved n pre legs M
      ((List.range M).foldl (expandMask n pre legs) (initialTable n pre legs)) := by
    intro M
    induction M with
    | zero => exact fun _ => solved_initial few
    | succ M ih =>
        intro bound
        rw [List.range_succ, List.foldl_append, List.foldl_cons, List.foldl_nil]
        exact (ih (by omega)).expand few nonneg bound
  exact prefixes (2 ^ n) (le_refl _)

end Solved

end OsmMini.Cmd

import Mathlib.Data.List.Basic
import Mathlib.Data.List.GetD
import Mathlib.Data.List.Induction
import Mathlib.Data.List.Perm.Basic
import Mathlib.Data.List.Sort

/-!
# Grouping the elements of a list

The elements of a list fall into groups by a number that they may have. The groups and
the elements without a number make up the list again.
-/

set_option autoImplicit false

namespace OsmMini.Foundations

variable {α : Type*} (group : α → Option ℕ)

/-- The elements outside the first `n` groups. -/
def ungrouped (n : ℕ) (l : List α) : List α :=
  l.filter fun a => (List.range n).all fun i => group a ≠ some i

theorem ungrouped_succ (n : ℕ) (l : List α) :
    (l.filter (fun a => group a = some n) ++ ungrouped group (n + 1) l).Perm
      (ungrouped group n l) := by
  have split := List.filter_append_perm (fun a => decide (group a = some n)) (ungrouped group n l)
  have here : (ungrouped group n l).filter (fun a => decide (group a = some n)) =
      l.filter fun a => group a = some n := by
    rw [ungrouped, List.filter_filter]
    refine List.filter_congr fun a _ => ?_
    by_cases last : group a = some n
    · simp [last]
      omega
    · simp [last]
  have others : (ungrouped group n l).filter (fun a => !decide (group a = some n)) =
      ungrouped group (n + 1) l := by
    rw [ungrouped, List.filter_filter, ungrouped]
    refine List.filter_congr fun a _ => ?_
    rw [List.range_succ, List.all_append]
    simp [Bool.and_comm]
  rwa [here, others] at split

/-- **The groups and the rest are the whole list.** -/
theorem groups_perm (n : ℕ) (l : List α) :
    ((List.range n).flatMap (fun i => l.filter fun a => group a = some i) ++
      ungrouped group n l).Perm l := by
  induction n with
  | zero => simp [ungrouped]
  | succ n ih =>
      rw [List.range_succ, List.flatMap_append, List.append_assoc, List.flatMap_singleton]
      exact ((ungrouped_succ group n l).append_left _).trans ih

/-- When every number is below `n` the rest has no number. -/
theorem ungrouped_eq {n : ℕ} {l : List α} (below : ∀ a ∈ l, ∀ i, group a = some i → i < n) :
    ungrouped group n l = l.filter fun a => group a = none := by
  refine List.filter_congr fun a member => ?_
  cases here : group a with
  | none => simp
  | some i => simpa using below a member i here

end OsmMini.Foundations

/-!
## Taking turns

Elements are dealt into piles. Then one element is taken of each pile in turn, first the top
ones, then the second ones, until there are enough or none is left.

A place is a pile and a depth in it. The places are taken in the order of depth and pile
(`addRows_eq`), so a place is never taken before one that is less deep (`turns_fair`), and all
elements are taken in the end (`turns_perm`).
-/

namespace OsmMini.Foundations

variable {α : Type*}

/-! ## The loops -/

/-- Deal the elements into piles. -/
def deal (n : ℕ) (pile : α → ℕ) (l : List α) : List (List α) :=
  l.foldl (fun piles a => piles.modify (pile a) (· ++ [a])) (List.replicate n [])

/-- Take the elements at a depth, until there are enough. -/
def addRow (limit depth : ℕ) : List (List α) → List α → List α
  | [], out => out
  | pile :: piles, out =>
    match pile[depth]? with
    | none => addRow limit depth piles out
    | some a => if (out ++ [a]).length = limit then out ++ [a] else addRow limit depth piles (out ++ [a])

/-- Go on with the next depth as long as something is added and there are not enough. -/
def addRows (limit : ℕ) (piles : List (List α)) (depth : ℕ) (out : List α) : List α :=
  if out.length < limit then
    let next := addRow limit depth piles out
    if _more : out.length < next.length then addRows limit piles (depth + 1) next else next
  else out
termination_by limit - out.length
decreasing_by exact Nat.sub_lt_sub_left ‹_› _more

/-! ## Piles -/

theorem getElem?_foldl_modify (pile : α → ℕ) (l : List α) : ∀ (piles : List (List α)) (i : ℕ),
    (l.foldl (fun piles a => piles.modify (pile a) (· ++ [a])) piles)[i]? =
      piles[i]?.map (· ++ l.filter fun a => pile a = i) := by
  induction l with
  | nil =>
      intro piles i
      simp
  | cons a l ih =>
      intro piles i
      rw [List.foldl_cons, ih, List.getElem?_modify]
      cases piles[i]? with
      | none => rfl
      | some p =>
          by_cases here : pile a = i
          · simp [here]
          · simp [here]

theorem getElem?_deal {n : ℕ} {pile : α → ℕ} {l : List α} {i : ℕ} (inside : i < n) :
    (deal n pile l)[i]? = some (l.filter fun a => pile a = i) := by
  rw [deal, getElem?_foldl_modify, List.getElem?_replicate, if_pos inside]
  rfl

theorem length_deal (n : ℕ) (pile : α → ℕ) (l : List α) : (deal n pile l).length = n := by
  have same : ∀ (l : List α) (piles : List (List α)),
      (l.foldl (fun piles a => piles.modify (pile a) (· ++ [a])) piles).length = piles.length := by
    intro l
    induction l with
    | nil => exact fun _ => rfl
    | cons a l ih => exact fun piles => (ih _).trans (List.length_modify ..)
  exact (same l _).trans (List.length_replicate ..)

/-- **The piles hold the elements that were dealt.** -/
theorem flatten_deal_perm {n : ℕ} {pile : α → ℕ} {l : List α} (inside : ∀ a ∈ l, pile a < n) :
    (deal n pile l).flatten.Perm l := by
  have piles : deal n pile l = (List.range n).map fun i => l.filter fun a => some (pile a) = some i := by
    refine List.ext_getElem? fun i => ?_
    by_cases small : i < n
    · rw [getElem?_deal small, List.getElem?_map, List.getElem?_range small]
      simp
    · rw [List.getElem?_eq_none (by rw [length_deal]; omega),
        List.getElem?_eq_none (by rw [List.length_map, List.length_range]; omega)]
  have rest : ungrouped (fun a => some (pile a)) n l = [] := by
    rw [ungrouped_eq (n := n)]
    · simp
    · intro a member i same
      rw [← Option.some.inj same]
      exact inside a member
  have all := groups_perm (fun a => some (pile a)) n l
  rw [rest, List.append_nil, List.flatMap] at all
  rw [piles]
  exact all

/-! ## Places -/

/-- The element at a place: a pile and a depth. -/
def atPlace (piles : List (List α)) (place : ℕ × ℕ) : Option α :=
  (piles.getD place.1 [])[place.2]?

/-- The places at a depth. -/
def places (piles : List (List α)) (depth : ℕ) : List (ℕ × ℕ) :=
  ((List.range piles.length).filter fun i => depth < (piles.getD i []).length).map (·, depth)

/-- All places, in the order in which they are taken. -/
def turns (piles : List (List α)) : List (ℕ × ℕ) :=
  (List.range piles.flatten.length).flatMap (places piles)

variable {piles : List (List α)}

theorem isSome_atPlace {place : ℕ × ℕ} :
    (atPlace piles place).isSome ↔ place.2 < (piles.getD place.1 []).length := by
  rw [atPlace, Option.isSome_iff_ne_none, ne_eq, List.getElem?_eq_none_iff, not_le]

theorem inside_of_isSome {place : ℕ × ℕ} (filled : (atPlace piles place).isSome) :
    place.1 < piles.length := by
  rw [isSome_atPlace] at filled
  by_contra outside
  rw [List.getD_eq_default _ _ (not_lt.mp outside)] at filled
  exact Nat.not_lt_zero _ filled

theorem mem_places {depth : ℕ} {place : ℕ × ℕ} :
    place ∈ places piles depth ↔ place.2 = depth ∧ (atPlace piles place).isSome := by
  simp only [places, List.mem_map, List.mem_filter, List.mem_range, decide_eq_true_eq]
  constructor
  · rintro ⟨i, ⟨-, deep⟩, rfl⟩
    exact ⟨rfl, isSome_atPlace.mpr deep⟩
  · rintro ⟨rfl, filled⟩
    exact ⟨place.1, ⟨inside_of_isSome filled, isSome_atPlace.mp filled⟩, rfl⟩

theorem length_getD_le (piles : List (List α)) (i : ℕ) :
    (piles.getD i []).length ≤ piles.flatten.length := by
  by_cases inside : i < piles.length
  · rw [List.getD_eq_getElem _ _ inside]
    exact (List.sublist_flatten_of_mem (List.getElem_mem inside)).length_le
  · rw [List.getD_eq_default _ _ (not_lt.mp inside)]
    exact Nat.zero_le _

theorem mem_turns {place : ℕ × ℕ} : place ∈ turns piles ↔ (atPlace piles place).isSome := by
  rw [turns, List.mem_flatMap]
  constructor
  · rintro ⟨depth, -, member⟩
    exact (mem_places.mp member).2
  · intro filled
    refine ⟨place.2, List.mem_range.mpr ?_, mem_places.mpr ⟨rfl, filled⟩⟩
    exact (isSome_atPlace.mp filled).trans_le (length_getD_le piles place.1)

/-- Less deep, or as deep in an earlier pile. -/
def Sooner (p q : ℕ × ℕ) : Prop := p.2 < q.2 ∨ p.2 = q.2 ∧ p.1 < q.1

/-- **The places are taken in the order of depth and pile.** -/
theorem turns_pairwise : (turns piles).Pairwise Sooner := by
  rw [turns, List.pairwise_flatMap]
  constructor
  · intro depth _
    rw [places, List.pairwise_map]
    exact (List.pairwise_lt_range.filter _).imp fun earlier => .inr ⟨rfl, earlier⟩
  · refine List.pairwise_lt_range.imp fun {d d'} less p here q there => .inl ?_
    rw [(mem_places.mp here).1, (mem_places.mp there).1]
    exact less

/-- **No place is taken before a less deep one.** -/
theorem turns_fair {before after : List (ℕ × ℕ)} {place other : ℕ × ℕ}
    (split : turns piles = before ++ place :: after) (filled : (atPlace piles other).isSome)
    (higher : other.2 < place.2) : other ∈ before := by
  have known := mem_turns.mpr filled
  have sorted := @turns_pairwise _ piles
  rw [split] at known sorted
  rcases List.mem_append.mp known with early | late
  · exact early
  · obtain ⟨-, sorted, -⟩ := List.pairwise_append.mp sorted
    rcases List.mem_cons.mp late with rfl | later
    · exact absurd higher (lt_irrefl _)
    · rcases (List.pairwise_cons.mp sorted).1 other later with deeper | ⟨same, -⟩
      · exact absurd deeper higher.not_gt
      · exact absurd same higher.ne'

/-- Different places, none taken before all less deep ones. -/
structure InTurn (piles : List (List α)) (taken : List (ℕ × ℕ)) : Prop where
  nodup : taken.Nodup
  fair : ∀ before place after, taken = before ++ place :: after →
    ∀ other, (atPlace piles other).isSome → other.2 < place.2 → other ∈ before

theorem turns_nodup : (turns piles).Nodup := by
  refine turns_pairwise.imp fun {p q} sooner same => ?_
  subst same
  rcases sooner with deeper | ⟨-, later⟩
  · exact lt_irrefl _ deeper
  · exact lt_irrefl _ later

/-- The first places are taken in turn. -/
theorem inTurn_take (n : ℕ) : InTurn piles ((turns piles).take n) where
  nodup := turns_nodup.sublist (List.take_sublist ..)
  fair := by
    intro before place after split other filled higher
    have whole : turns piles = before ++ place :: (after ++ (turns piles).drop n) := by
      rw [← List.cons_append, ← List.append_assoc, ← split, List.take_append_drop]
    exact turns_fair whole filled higher

theorem map_getD_range (piles : List (List α)) :
    (List.range piles.length).map (fun i => piles.getD i []) = piles := by
  refine List.ext_getElem (by rw [List.length_map, List.length_range]) fun i _ inside => ?_
  rw [List.getElem_map, List.getElem_range, List.getD_eq_getElem _ _ inside]

theorem filterMap_range (l : List α) : (List.range l.length).filterMap (fun i => l[i]?) = l := by
  induction l using List.reverseRecOn with
  | nil => rfl
  | append_singleton l a ih =>
      have known : (List.range l.length).filterMap (fun i => (l ++ [a])[i]?) = l := by
        refine (List.filterMap_congr fun i member => ?_).trans ih
        exact List.getElem?_append_left (List.mem_range.mp member)
      rw [List.length_append, List.length_singleton, List.range_succ, List.filterMap_append, known,
        List.filterMap_cons, List.getElem?_concat_length]
      rfl

/-- **All elements are taken in the end**, each once. -/
theorem turns_perm : ((turns piles).filterMap (atPlace piles)).Perm piles.flatten := by
  let byPile := (List.range piles.length).flatMap fun i =>
    (List.range (piles.getD i []).length).map (i, ·)
  have mem_byPile : ∀ place, place ∈ byPile ↔ (atPlace piles place).isSome := by
    intro place
    simp only [byPile, List.mem_flatMap, List.mem_map, List.mem_range]
    constructor
    · rintro ⟨i, -, depth, deep, rfl⟩
      exact isSome_atPlace.mpr deep
    · intro filled
      exact ⟨place.1, inside_of_isSome filled, place.2, isSome_atPlace.mp filled, rfl⟩
  have nodup : byPile.Nodup := by
    refine List.nodup_flatMap.mpr ⟨fun i _ => ?_, ?_⟩
    · exact List.nodup_range.map fun a b same => (Prod.mk.inj same).2
    · refine List.nodup_range.imp fun {i j} different place here there => different ?_
      obtain ⟨_, -, rfl⟩ := List.mem_map.mp here
      obtain ⟨_, -, same⟩ := List.mem_map.mp there
      exact (Prod.mk.inj same).1.symm
  have same : (turns piles).Perm byPile := by
    refine (List.perm_ext_iff_of_nodup turns_nodup nodup).mpr fun place => ?_
    rw [mem_turns, mem_byPile]
  refine (same.filterMap _).trans (List.Perm.of_eq ?_)
  have pile : ∀ i, ((List.range (piles.getD i []).length).map (i, ·)).filterMap (atPlace piles) =
      piles.getD i [] := by
    intro i
    rw [List.filterMap_map]
    exact filterMap_range (piles.getD i [])
  rw [List.filterMap_flatMap]
  simp only [pile]
  rw [List.flatMap, map_getD_range]

/-! ## The loops take turns -/

theorem addRow_eq {limit depth : ℕ} (piles : List (List α)) : ∀ {out : List α},
    out.length < limit → addRow limit depth piles out =
      (out ++ piles.filterMap fun pile => pile[depth]?).take limit := by
  induction piles with
  | nil =>
      intro out room
      rw [addRow, List.filterMap_nil, List.append_nil, List.take_of_length_le room.le]
  | cons pile piles ih =>
      intro out room
      rw [addRow]
      cases found : pile[depth]? with
      | none =>
          rw [List.filterMap_cons, found]
          exact ih room
      | some a =>
          have length : (out ++ [a]).length = out.length + 1 := List.length_append
          rw [List.filterMap_cons, found]
          dsimp only
          have whole := List.append_cons out a (piles.filterMap fun pile => pile[depth]?)
          rw [whole]
          by_cases full : (out ++ [a]).length = limit
          · rw [if_pos full, List.take_append_of_le_length full.ge,
              List.take_of_length_le full.le]
          · rw [if_neg full]
            exact ih (by omega)

theorem row_eq (piles : List (List α)) (depth : ℕ) :
    (piles.filterMap fun pile => pile[depth]?) =
      (places piles depth).filterMap (atPlace piles) := by
  conv_lhs => rw [← map_getD_range piles]
  rw [places, List.filterMap_map, List.filterMap_map, List.filterMap_filter]
  refine List.filterMap_congr fun i _ => ?_
  by_cases deep : depth < (piles.getD i []).length
  · rw [if_pos (decide_eq_true deep)]
    rfl
  · rw [if_neg fun filled => deep (of_decide_eq_true filled)]
    exact List.getElem?_eq_none (not_lt.mp deep)

/-- Nothing is added at a depth that no pile has. -/
theorem addRows_done {limit depth : ℕ} {out : List α} (room : out.length ≤ limit)
    (none : (piles.filterMap fun pile => pile[depth]?) = []) :
    addRows limit piles depth out = out := by
  rw [addRows]
  by_cases more : out.length < limit
  · have same : addRow limit depth piles out = out := by
      rw [addRow_eq piles more, none, List.append_nil, List.take_of_length_le room]
    rw [if_pos more]
    dsimp only
    rw [same, dif_neg (lt_irrefl _)]
  · exact if_neg more

theorem row_eq_nil {depth : ℕ} :
    (piles.filterMap fun pile => pile[depth]?) = [] ↔ ∀ pile ∈ piles, pile.length ≤ depth := by
  rw [List.filterMap_eq_nil_iff]
  exact forall₂_congr fun pile _ => List.getElem?_eq_none_iff

theorem take_take_append (n : ℕ) (a b : List α) : (a.take n ++ b).take n = (a ++ b).take n := by
  by_cases short : a.length ≤ n
  · rw [List.take_of_length_le short]
  · have long : n ≤ a.length := (not_le.mp short).le
    rw [List.take_append_of_le_length long, List.take_append_of_le_length
      (by rw [List.length_take, min_eq_left long]), List.take_take, min_self]

/-- **The loops take one depth after the other**, until there are enough. -/
theorem addRows_rows {limit rounds : ℕ} : ∀ {depth : ℕ} {out : List α}, out.length ≤ limit →
    (∀ pile ∈ piles, pile.length ≤ depth + rounds) →
    addRows limit piles depth out = (out ++ ((List.range' depth rounds).flatMap fun d =>
      piles.filterMap fun pile => pile[d]?)).take limit := by
  induction rounds with
  | zero =>
      intro depth out room shallow
      have none : (piles.filterMap fun pile => pile[depth]?) = [] := row_eq_nil.mpr shallow
      rw [addRows_done room none, List.range'_zero, List.flatMap_nil,
        List.append_nil, List.take_of_length_le room]
  | succ rounds ih =>
      intro depth out room shallow
      by_cases more : out.length < limit
      · rw [List.range'_succ, List.flatMap_cons, ← List.append_assoc]
        have taken : addRow limit depth piles out =
            (out ++ piles.filterMap fun pile => pile[depth]?).take limit := addRow_eq piles more
        have bound : ((out ++ piles.filterMap fun pile => pile[depth]?).take limit).length ≤ limit :=
          List.length_take_le ..
        rw [addRows, if_pos more]
        dsimp only
        rw [taken]
        split
        · rw [ih bound fun pile member => by have := shallow pile member; omega, take_take_append]
        · rename_i unchanged
          -- Nothing was added, so no pile is deeper and nothing would be added later.
          have none : (piles.filterMap fun pile => pile[depth]?) = [] := by
            rw [List.length_take, List.length_append] at unchanged
            exact List.eq_nil_of_length_eq_zero (by omega)
          have later : ((List.range' (depth + 1) rounds).flatMap fun d =>
              piles.filterMap fun pile => pile[d]?) = [] := by
            refine List.flatMap_eq_nil_iff.mpr fun d member => row_eq_nil.mpr fun pile known => ?_
            have deeper := (List.mem_range'_1.mp member).1
            have short := row_eq_nil.mp none pile known
            omega
          rw [later, List.append_nil]
      · rw [addRows, if_neg more, List.take_append_of_le_length (not_lt.mp more),
          List.take_of_length_le room]

/-- **The loops take the places in turn**, until there are enough. -/
theorem addRows_eq {limit : ℕ} :
    addRows limit piles 0 [] = ((turns piles).filterMap (atPlace piles)).take limit := by
  have shallow : ∀ pile ∈ piles, pile.length ≤ 0 + piles.flatten.length := by
    intro pile member
    rw [Nat.zero_add]
    exact (List.sublist_flatten_of_mem member).length_le
  rw [addRows_rows (Nat.zero_le _) shallow, List.nil_append, turns, List.filterMap_flatMap,
    ← List.range_eq_range']
  simp only [row_eq]

/-- **What is taken**: the elements at the first places, and no more than there are. -/
theorem addRows_places {limit : ℕ} :
    (addRows limit piles 0 []).map some = ((turns piles).take limit).map (atPlace piles) := by
  have filled : ∀ places : List (ℕ × ℕ), (∀ place ∈ places, (atPlace piles place).isSome) →
      (places.filterMap (atPlace piles)).map some = places.map (atPlace piles) := by
    intro places
    induction places with
    | nil => exact fun _ => rfl
    | cons place places ih =>
        intro all
        obtain ⟨here, later⟩ := List.forall_mem_cons.mp all
        obtain ⟨a, found⟩ := Option.isSome_iff_exists.mp here
        rw [List.filterMap_cons, List.map_cons, found]
        exact congrArg (some a :: ·) (ih later)
  rw [addRows_eq, List.map_take, filled _ fun place member => mem_turns.mp member, List.map_take]

theorem length_addRows (limit : ℕ) (piles : List (List α)) :
    (addRows limit piles 0 []).length = min limit piles.flatten.length := by
  rw [addRows_eq, List.length_take, turns_perm.length_eq]

/-- Each element is taken at most once. -/
theorem addRows_subperm (limit : ℕ) (piles : List (List α)) :
    (addRows limit piles 0 []).Subperm piles.flatten := by
  rw [addRows_eq]
  exact (List.take_sublist ..).subperm.trans turns_perm.subperm

end OsmMini.Foundations

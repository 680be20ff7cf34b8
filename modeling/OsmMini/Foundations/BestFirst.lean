import Mathlib

/-!
# Label-correcting search in a weighted graph

A graph is given by the list of weighted arcs out of each vertex, and its arcs
have non-negative weights. A search keeps a tentative distance for some vertices
and a queue of vertices with the distance they were queued at. Taking an entry
out of the queue either drops it, because the vertex has been labelled better
since, or relaxes the arcs out of its vertex.

Between two rounds every labelled vertex is queued at its label or has all its
arcs relaxed (`Invariant`). A vertex can be labelled again after its arcs were
relaxed, so no consistency of the order in which entries are taken is assumed.
In the middle of a round some arcs are still waiting; they are the waived ones,
and each relaxation takes one arc out of the waived set or, when a vertex is
labelled without being queued, puts the arcs of that vertex in.

When the entry taken is a goal and least in `distance + heuristic`, where the
heuristic never exceeds the remaining cost, its distance is the least cost of a
walk to a goal (`Invariant.optimal`). When the queue is empty no goal can be
reached (`Invariant.unreachable`). A search of finitely many vertices takes
finitely many rounds, because the costs of walks are well-ordered
(`wellFounded_progress`). The predecessors stored with the labels form a tree
whose branches are walks within the labels (`Tree`).
-/

set_option autoImplicit false
set_option linter.unusedSectionVars false

namespace OsmMini.Foundations.BestFirst

variable {V K : Type*} [AddCommMonoid K] [LinearOrder K] [IsOrderedCancelAddMonoid K]

/-! ## Walks -/

/-- A walk, by the vertices after its first, and its cost. -/
inductive Walk (succ : V → List (V × K)) : V → List V → V → K → Prop where
  | nil (v : V) : Walk succ v [] v 0
  | cons {v w t : V} {c k : K} {vs : List V} :
      (w, c) ∈ succ v → Walk succ w vs t k → Walk succ v (w :: vs) t (c + k)

variable {succ : V → List (V × K)}

theorem Walk.append {u v t : V} {vs ws : List V} {k l : K} (first : Walk succ u vs v k)
    (second : Walk succ v ws t l) : Walk succ u (vs ++ ws) t (k + l) := by
  induction first with
  | nil => simpa using second
  | cons arc _ ih =>
      rw [List.cons_append, add_assoc]
      exact .cons arc (ih second)

theorem Walk.single {u v : V} {c : K} (arc : (v, c) ∈ succ u) : Walk succ u [v] v c := by
  simpa using Walk.cons arc (Walk.nil v)

theorem Walk.snoc {u v w : V} {vs : List V} {k c : K} (walk : Walk succ u vs v k)
    (arc : (w, c) ∈ succ v) : Walk succ u (vs ++ [w]) w (k + c) :=
  walk.append (.single arc)

/-- A walk ends where it starts, or enters its end by an arc. -/
theorem Walk.start_or_entered {u v : V} {vs : List V} {k : K} (walk : Walk succ u vs v k) :
    v = u ∨ ∃ w c, (v, c) ∈ succ w := by
  induction walk with
  | nil => exact .inl rfl
  | cons arc _ ih =>
      rcases ih with rfl | entered
      · exact .inr ⟨_, _, arc⟩
      · exact .inr entered

theorem Walk.nonneg (weights : ∀ v, ∀ a ∈ succ v, 0 ≤ a.2) {u v : V} {vs : List V} {k : K}
    (walk : Walk succ u vs v k) : 0 ≤ k := by
  induction walk with
  | nil => exact le_refl _
  | cons arc _ ih => exact add_nonneg (weights _ _ arc) ih

/-! ## The invariant of a search -/

section Search

variable [DecidableEq V]

/-- An arc is relaxed when its head is labelled no worse than over the arc. -/
def Relaxed (dist : V → Option K) (d : K) (a : V × K) : Prop :=
  ∃ e, dist a.1 = some e ∧ e ≤ d + a.2

/-- What a search knows, with the arcs in `waived` still waiting to be relaxed. -/
structure Invariant (succ : V → List (V × K)) (source : V) (goal : V → Prop)
    (dist : V → Option K) (queued : V → K → Prop) (waived : V → V × K → Prop) : Prop where
  source_zero : dist source = some 0
  sound : ∀ v d, dist v = some d → ∃ vs, Walk succ source vs v d
  queued_le : ∀ v k, queued v k → ∃ d, dist v = some d ∧ d ≤ k
  settled : ∀ v d, dist v = some d →
    queued v d ∨ (¬ goal v ∧ ∀ a ∈ succ v, waived v a ∨ Relaxed dist d a)

variable {source : V} {goal : V → Prop} {dist : V → Option K} {queued queued' : V → K → Prop}
  {waived waived' : V → V × K → Prop}

namespace Invariant

/-- The state a search starts in. -/
theorem start (only : ∀ v, dist v = if v = source then some 0 else none)
    (entry : ∀ v k, queued v k ↔ v = source ∧ k = 0) :
    Invariant succ source goal dist queued waived where
  source_zero := by simp [only]
  sound := by
    intro v d h
    rw [only] at h
    split at h
    · rename_i same
      cases h
      subst same
      exact ⟨[], Walk.nil v⟩
    · cases h
  queued_le := by
    intro v k h
    obtain ⟨rfl, rfl⟩ := (entry v k).mp h
    exact ⟨0, by simp [only], le_refl _⟩
  settled := by
    intro v d h
    rw [only] at h
    split at h
    · rename_i same
      cases h
      exact .inl ((entry v 0).mpr ⟨same, rfl⟩)
    · cases h

/-- The labels of the source stay at zero, so no label is below it. -/
theorem nonneg (inv : Invariant succ source goal dist queued waived)
    (weights : ∀ v, ∀ a ∈ succ v, 0 ≤ a.2) {v : V} {d : K} (label : dist v = some d) : 0 ≤ d := by
  obtain ⟨_, walk⟩ := inv.sound v d label
  exact walk.nonneg weights

/-- Only what the invariant says about the queue and the waived arcs matters. -/
theorem mono (inv : Invariant succ source goal dist queued waived)
    (same : ∀ v k, queued' v k ↔ queued v k)
    (waive : ∀ v, ∀ a ∈ succ v, waived v a →
      waived' v a ∨ ∀ d, dist v = some d → Relaxed dist d a) :
    Invariant succ source goal dist queued' waived' where
  source_zero := inv.source_zero
  sound := inv.sound
  queued_le v k h := inv.queued_le v k ((same v k).mp h)
  settled v d h := by
    rcases inv.settled v d h with queue | ⟨plain, arcs⟩
    · exact .inl ((same v d).mpr queue)
    · refine .inr ⟨plain, fun a member => ?_⟩
      rcases arcs a member with wait | done
      · exact (waive v a member wait).imp_right fun relaxed => relaxed d h
      · exact .inr done

/-- Taking out an entry that is not at the label of its vertex. -/
theorem drop (inv : Invariant succ source goal dist queued waived) {v : V} {k : K}
    (stale : dist v ≠ some k) (less : ∀ w l, queued' w l → queued w l)
    (kept : ∀ w l, queued w l → queued' w l ∨ (w = v ∧ l = k)) :
    Invariant succ source goal dist queued' waived where
  source_zero := inv.source_zero
  sound := inv.sound
  queued_le w l h := inv.queued_le w l (less w l h)
  settled w d h := by
    rcases inv.settled w d h with queue | done
    · rcases kept w d queue with still | ⟨rfl, rfl⟩
      · exact .inl still
      · exact absurd h stale
    · exact .inr done

/-- Taking out the entry of a vertex that is not a goal: its arcs wait. -/
theorem take (inv : Invariant succ source goal dist queued waived) {v : V} {k : K}
    (plain : ¬ goal v) (less : ∀ w l, queued' w l → queued w l)
    (kept : ∀ w l, queued w l → queued' w l ∨ (w = v ∧ l = k)) :
    Invariant succ source goal dist queued' (fun w a => w = v ∨ waived w a) where
  source_zero := inv.source_zero
  sound := inv.sound
  queued_le w l h := inv.queued_le w l (less w l h)
  settled w d h := by
    rcases inv.settled w d h with queue | ⟨other, arcs⟩
    · rcases kept w d queue with still | ⟨rfl, rfl⟩
      · exact .inl still
      · exact .inr ⟨plain, fun a _ => .inl (.inl rfl)⟩
    · exact .inr ⟨other, fun a member => (arcs a member).imp_left .inr⟩

/-- An arc that does not improve its head is relaxed already. -/
theorem keep (inv : Invariant succ source goal dist queued waived) {u : V} {d : K} {a : V × K}
    (label : dist u = some d) (relaxed : Relaxed dist d a) :
    Invariant succ source goal dist queued (fun w b => waived w b ∧ ¬ (w = u ∧ b = a)) := by
  refine inv.mono (fun _ _ => Iff.rfl) fun w b _ wait => ?_
  by_cases here : w = u ∧ b = a
  · obtain ⟨rfl, rfl⟩ := here
    refine .inr fun e h => ?_
    rw [label] at h
    cases h
    exact relaxed
  · exact .inl ⟨wait, here⟩

/-- A relaxation keeps what was relaxed before. -/
theorem relaxed_update {w : V} {k d : K} {a : V × K} (lower : ∀ e, dist w = some e → k ≤ e)
    (relaxed : Relaxed dist d a) : Relaxed (Function.update dist w (some k)) d a := by
  obtain ⟨e, label, le⟩ := relaxed
  by_cases here : a.1 = w
  · exact ⟨k, by rw [here, Function.update_self], (lower e (here ▸ label)).trans le⟩
  · exact ⟨e, by rw [Function.update_of_ne here, label], le⟩

/-- An improved label stays above the label it was reached from. -/
theorem improved_ne (weights : ∀ v, ∀ a ∈ succ v, 0 ≤ a.2) {u : V} {d : K} {a : V × K}
    (arc : a ∈ succ u) (label : dist u = some d) (improves : ¬ Relaxed dist d a) : u ≠ a.1 := by
  rintro rfl
  exact improves ⟨d, label, le_add_of_nonneg_right (weights _ a arc)⟩

theorem improved_lt {d : K} {a : V × K} (improves : ¬ Relaxed dist d a) :
    ∀ e, dist a.1 = some e → d + a.2 < e := by
  intro e label
  by_contra le
  exact improves ⟨e, label, not_lt.mp le⟩

/-- The labels after an arc improved its head, with the head's own arcs waived
unless the head is queued at its new label. -/
theorem improve (inv : Invariant succ source goal dist queued waived)
    (weights : ∀ v, ∀ a ∈ succ v, 0 ≤ a.2) {u : V} {d : K} {a : V × K} (arc : a ∈ succ u)
    (label : dist u = some d) (improves : ¬ Relaxed dist d a)
    (more : ∀ w l, queued w l → queued' w l)
    (only : ∀ w l, queued' w l → queued w l ∨ (w = a.1 ∧ l = d + a.2))
    (head : queued' a.1 (d + a.2) ∨ (¬ goal a.1 ∧ ∀ b, waived' a.1 b))
    (waive : ∀ w b, waived w b → waived' w b ∨ (w = u ∧ b = a)) :
    Invariant succ source goal (Function.update dist a.1 (some (d + a.2))) queued' waived' where
  source_zero := by
    rw [Function.update_of_ne]
    · exact inv.source_zero
    · rintro rfl
      obtain ⟨e, zero, lt⟩ : ∃ e, dist a.1 = some e ∧ d + a.2 < e :=
        ⟨0, inv.source_zero, improved_lt improves 0 inv.source_zero⟩
      rw [inv.source_zero] at zero
      cases zero
      exact absurd lt (not_lt.mpr (add_nonneg (inv.nonneg weights label) (weights _ a arc)))
  sound := by
    intro v e h
    by_cases here : v = a.1
    · subst here
      rw [Function.update_self] at h
      cases h
      obtain ⟨vs, walk⟩ := inv.sound u d label
      exact ⟨vs ++ [a.1], walk.snoc arc⟩
    · rw [Function.update_of_ne here] at h
      exact inv.sound v e h
  queued_le := by
    intro v l h
    rcases only v l h with old | ⟨rfl, rfl⟩
    · obtain ⟨e, known, le⟩ := inv.queued_le v l old
      by_cases here : v = a.1
      · subst here
        exact ⟨d + a.2, Function.update_self .., (improved_lt improves e known).le.trans le⟩
      · exact ⟨e, by rw [Function.update_of_ne here, known], le⟩
    · exact ⟨d + a.2, Function.update_self .., le_refl _⟩
  settled := by
    intro v e h
    by_cases here : v = a.1
    · subst here
      rw [Function.update_self] at h
      cases h
      exact head.imp_right fun plain => ⟨plain.1, fun b _ => .inl (plain.2 b)⟩
    · rw [Function.update_of_ne here] at h
      have lower : ∀ e, dist a.1 = some e → d + a.2 ≤ e := fun e known =>
        (improved_lt improves e known).le
      rcases inv.settled v e h with old | ⟨plain, arcs⟩
      · exact .inl (more v e old)
      · refine .inr ⟨plain, fun b member => ?_⟩
        rcases arcs b member with wait | done
        · rcases waive v b wait with still | ⟨rfl, rfl⟩
          · exact .inl still
          · rw [label] at h
            cases h
            exact .inr ⟨d + b.2, Function.update_self .., le_refl _⟩
        · exact .inr (relaxed_update lower done)

/-! ### The ends of a search -/

/-- Along a walk to a goal there is an entry at its label whose distance and
remaining cost stay within the cost of the walk. -/
theorem frontier (inv : Invariant succ source goal dist queued fun _ _ => False)
    {v t : V} {vs : List V} {k : K} (walk : Walk succ v vs t k) (reached : goal t) :
    ∀ d, dist v = some d → ∃ w ws l e, queued w e ∧ dist w = some e ∧
      Walk succ w ws t l ∧ e + l ≤ d + k := by
  induction walk with
  | nil v =>
      intro d label
      rcases inv.settled v d label with entry | ⟨plain, -⟩
      · exact ⟨v, [], 0, d, entry, label, .nil v, le_refl _⟩
      · exact absurd reached plain
  | @cons v w t c k vs arc tail ih =>
      intro d label
      rcases inv.settled v d label with entry | ⟨-, arcs⟩
      · exact ⟨v, w :: vs, c + k, d, entry, label, .cons arc tail, le_refl _⟩
      · obtain ⟨e, next, le⟩ := (arcs (w, c) arc).resolve_left id
        obtain ⟨x, xs, l, f, entry, known, rest, bound⟩ := ih reached e next
        refine ⟨x, xs, l, f, entry, known, rest, bound.trans ?_⟩
        rw [← add_assoc]
        exact add_le_add_left le k

/-- **The first goal entry that is least in distance plus heuristic is at the
least cost of a walk to a goal.** -/
theorem optimal (inv : Invariant succ source goal dist queued fun _ _ => False) {h : V → K}
    (admissible : ∀ v d vs t k, dist v = some d → goal t → Walk succ v vs t k → h v ≤ k)
    {v : V} {d : K} (least : ∀ w l, queued w l → d + h v ≤ l + h w) (above : 0 ≤ h v)
    {t : V} {vs : List V} {k : K} (reached : goal t) (walk : Walk succ source vs t k) : d ≤ k := by
  obtain ⟨w, ws, l, e, entry, label, rest, bound⟩ := inv.frontier walk reached 0 inv.source_zero
  calc
    d ≤ d + h v := le_add_of_nonneg_right above
    _ ≤ e + h w := least w e entry
    _ ≤ e + l := add_le_add_right (admissible w e ws t l label reached rest) e
    _ ≤ 0 + k := bound
    _ = k := zero_add k

/-- **When nothing is queued no goal can be reached.** -/
theorem unreachable (inv : Invariant succ source goal dist queued fun _ _ => False)
    (empty : ∀ v k, ¬ queued v k) {t : V} {vs : List V} {k : K} (reached : goal t) :
    ¬ Walk succ source vs t k := by
  intro walk
  obtain ⟨w, _, _, e, entry, -⟩ := inv.frontier walk reached 0 inv.source_zero
  exact empty w e entry

/-- When nothing is queued the labels are closed under the arcs. -/
theorem closed (inv : Invariant succ source (fun _ => False) dist queued fun _ _ => False)
    (empty : ∀ v k, ¬ queued v k) {v : V} {d : K} (label : dist v = some d)
    {a : V × K} (arc : a ∈ succ v) : Relaxed dist d a := by
  rcases inv.settled v d label with entry | ⟨-, arcs⟩
  · exact absurd entry (empty v d)
  · exact (arcs a arc).resolve_left id

end Invariant

/-! ## Finitely many rounds -/

/-- Every label is the cost of a walk. -/
def Sound (succ : V → List (V × K)) (source : V) (dist : V → Option K) : Prop :=
  ∀ v d, dist v = some d → ∃ vs, Walk succ source vs v d

/-- No label is worse, and some label is better. -/
def Improved (later earlier : V → Option K) : Prop :=
  (∀ v d, earlier v = some d → ∃ e, later v = some e ∧ e ≤ d) ∧
    ∃ v e, later v = some e ∧ ∀ d, earlier v = some d → e < d

theorem Improved.trans {first second third : V → Option K} (later : Improved third second)
    (earlier : Improved second first) : Improved third first := by
  refine ⟨fun v d label => ?_, ?_⟩
  · obtain ⟨e, known, le⟩ := earlier.1 v d label
    obtain ⟨f, last, le'⟩ := later.1 v e known
    exact ⟨f, last, le'.trans le⟩
  · obtain ⟨v, e, known, strict⟩ := earlier.2
    obtain ⟨f, last, le⟩ := later.1 v e known
    exact ⟨v, f, last, fun d label => le.trans_lt (strict d label)⟩

/-- An arc that is not relaxed improves the label of its head. -/
theorem improved_update {dist : V → Option K} {d : K} {a : V × K}
    (improves : ¬ Relaxed dist d a) : Improved (Function.update dist a.1 (some (d + a.2))) dist := by
  have lt := Invariant.improved_lt improves
  refine ⟨fun v e label => ?_, a.1, d + a.2, Function.update_self .., lt⟩
  by_cases here : v = a.1
  · subst here
    exact ⟨d + a.2, Function.update_self .., (lt e label).le⟩
  · exact ⟨e, by rw [Function.update_of_ne here, label], le_refl _⟩

/-- A later state of a search: some label is better, or fewer entries are queued at
the same labels. -/
def Progress (later earlier : (V → Option K) × ℕ) : Prop :=
  Improved later.1 earlier.1 ∨ (later.1 = earlier.1 ∧ later.2 < earlier.2)

section Finite

variable (succ) (source) (vertices : Finset V)

/-- The costs of walks that stay among the given vertices. -/
def walkCosts : AddSubmonoid K :=
  AddSubmonoid.closure {c | ∃ v ∈ vertices, ∃ a ∈ succ v, a.2 = c}

/-- **The costs of walks among finitely many vertices are well-ordered.** -/
theorem walkCosts_isWF (weights : ∀ v, ∀ a ∈ succ v, 0 ≤ a.2) :
    (walkCosts succ vertices : Set K).IsWF := by
  have finite : {c | ∃ v ∈ vertices, ∃ a ∈ succ v, a.2 = c}.Finite := by
    refine (vertices.finite_toSet.biUnion fun v _ =>
      ((succ v).map Prod.snd).finite_toSet).subset ?_
    rintro c ⟨v, member, a, arc, rfl⟩
    exact Set.mem_biUnion member (List.mem_map_of_mem arc)
  refine (Set.IsPWO.addSubmonoid_closure ?_ finite.isPWO).isWF
  rintro c ⟨v, -, a, arc, rfl⟩
  exact weights v a arc

variable {succ source vertices}

theorem Walk.inside (closed : ∀ v ∈ vertices, ∀ a ∈ succ v, a.1 ∈ vertices) {u v : V}
    {vs : List V} {k : K} (walk : Walk succ u vs v k) (first : u ∈ vertices) :
    v ∈ vertices ∧ k ∈ walkCosts succ vertices := by
  induction walk with
  | nil => exact ⟨first, zero_mem _⟩
  | cons arc _ ih =>
      obtain ⟨last, costs⟩ := ih (closed _ first _ arc)
      exact ⟨last, add_mem (AddSubmonoid.subset_closure ⟨_, first, _, arc, rfl⟩) costs⟩

open Classical in
/-- A label as an element of the well-ordered costs, with no label on top. -/
noncomputable def rankOf (succ : V → List (V × K)) (vertices : Finset V) (label : Option K) :
    WithTop (walkCosts succ vertices) :=
  match label with
  | none => ⊤
  | some d => if member : d ∈ walkCosts succ vertices then ((⟨d, member⟩ : walkCosts succ vertices) :
      WithTop (walkCosts succ vertices)) else ⊤

theorem rankOf_some {d : K} (member : d ∈ walkCosts succ vertices) :
    rankOf succ vertices (some d) =
      ((⟨d, member⟩ : walkCosts succ vertices) : WithTop (walkCosts succ vertices)) := by
  simp only [rankOf, dif_pos member]

/-- **A search of finitely many vertices cannot make progress for ever.** -/
theorem wellFounded_progress (weights : ∀ v, ∀ a ∈ succ v, 0 ≤ a.2) (first : source ∈ vertices)
    (closed : ∀ v ∈ vertices, ∀ a ∈ succ v, a.1 ∈ vertices) :
    WellFounded fun later earlier : (V → Option K) × ℕ =>
      Sound succ source later.1 ∧ Sound succ source earlier.1 ∧ Progress later earlier := by
  have costs : WellFoundedLT (walkCosts succ vertices) := ⟨walkCosts_isWF succ vertices weights⟩
  have labels : WellFounded fun f g : vertices → WithTop (walkCosts succ vertices) => f < g :=
    IsWellFounded.wf
  let rank : (V → Option K) × ℕ → (vertices → WithTop (walkCosts succ vertices)) × ℕ :=
    fun state => (fun v => rankOf succ vertices (state.1 v), state.2)
  refine Subrelation.wf ?_ (InvImage.wf rank (labels.prod_lex Nat.lt_wfRel.wf))
  rintro later earlier ⟨soundLater, soundEarlier, change⟩
  have ranked : ∀ {state : (V → Option K) × ℕ}, Sound succ source state.1 → ∀ {v d},
      state.1 v = some d → v ∈ vertices ∧ d ∈ walkCosts succ vertices := by
    intro state sound v d label
    obtain ⟨vs, walk⟩ := sound v d label
    exact walk.inside closed first
  rcases change with ⟨lower, v, e, better, strict⟩ | ⟨same, fewer⟩
  · refine Prod.Lex.left _ _ (Pi.lt_def.mpr ⟨fun w => ?_, ⟨v, (ranked soundLater better).1⟩, ?_⟩)
    · show rankOf succ vertices (later.1 w) ≤ rankOf succ vertices (earlier.1 w)
      cases label : earlier.1 w with
      | none => exact le_top
      | some d =>
          obtain ⟨e', known, le⟩ := lower w d label
          rw [known, rankOf_some (ranked soundEarlier label).2,
            rankOf_some (ranked soundLater known).2]
          exact WithTop.coe_le_coe.mpr le
    · show rankOf succ vertices (later.1 v) < rankOf succ vertices (earlier.1 v)
      rw [better, rankOf_some (ranked soundLater better).2]
      cases label : earlier.1 v with
      | none => exact WithTop.coe_lt_top _
      | some d =>
          rw [rankOf_some (ranked soundEarlier label).2]
          exact WithTop.coe_lt_coe.mpr (strict d label)
  · show Prod.Lex _ _ (rank later) (rank earlier)
    have labelsSame : (rank later).1 = (rank earlier).1 := by simp only [rank, same]
    rw [show rank later = ((rank earlier).1, later.2) from Prod.ext labelsSame rfl]
    exact Prod.Lex.right _ fewer

end Finite

/-! ## The tree of predecessors -/

/-- The vertices on the way from the source to a vertex, read off the stored
predecessors. -/
inductive Branch (prev : V → Option V) (source : V) : List V → V → Prop where
  | root : Branch prev source [] source
  | step {u v : V} {vs : List V} : v ≠ source → prev v = some u →
      Branch prev source vs u → Branch prev source (vs ++ [v]) v

/-- The predecessors stored with the labels form a tree rooted at the source, and
each label leaves room for the arc from its predecessor. What is stored at the
source itself does not change. -/
structure Tree (succ : V → List (V × K)) (source : V) (origin : Option V) (dist : V → Option K)
    (prev : V → Option V) : Prop where
  source_zero : dist source = some 0
  source_prev : prev source = origin
  parent : ∀ v d, dist v = some d → v ≠ source → ∃ u e c,
    prev v = some u ∧ dist u = some e ∧ (v, c) ∈ succ u ∧ e + c ≤ d
  branch : ∀ v d, dist v = some d → ∃ vs, Branch prev source vs v

namespace Tree

variable {prev : V → Option V} {origin : Option V}

/-- A branch is a walk that costs no more than the label at its end. -/
theorem walk (tree : Tree succ source origin dist prev) {v : V} {vs : List V}
    (branch : Branch prev source vs v) : ∀ d, dist v = some d →
    ∃ k, Walk succ source vs v k ∧ k ≤ d := by
  induction branch with
  | root =>
      intro d label
      rw [tree.source_zero] at label
      cases label
      exact ⟨0, .nil source, le_refl _⟩
  | @step u v vs away stored _ ih =>
      intro d label
      obtain ⟨u', e, c, stored', known, arc, le⟩ := tree.parent v d label away
      obtain rfl : u = u' := Option.some.inj (stored.symm.trans stored')
      obtain ⟨k, walk, bound⟩ := ih e known
      exact ⟨k + c, walk.snoc arc, (add_le_add_left bound c).trans le⟩

theorem start (only : ∀ v, dist v = if v = source then some 0 else none)
    (root : prev source = origin) : Tree succ source origin dist prev where
  source_zero := by simp [only]
  source_prev := root
  parent v d h away := by rw [only, if_neg away] at h; cases h
  branch v d h := by
    rw [only] at h
    split at h
    · rename_i same
      subst same
      exact ⟨[], .root⟩
    · cases h

/-- The branch to a vertex labelled below `w` does not pass `w`. -/
theorem branch_update (tree : Tree succ source origin dist prev)
    (weights : ∀ v, ∀ a ∈ succ v, 0 ≤ a.2) {w : V} {parent : Option V} {v : V} {vs : List V}
    (branch : Branch prev source vs v) : ∀ d, dist v = some d → (∀ e, dist w = some e → d < e) →
    Branch (Function.update prev w parent) source vs v := by
  induction branch with
  | root => exact fun _ _ _ => .root
  | @step u v vs away stored _ ih =>
      intro d label below
      obtain ⟨u', e, c, stored', known, arc, le⟩ := tree.parent v d label away
      obtain rfl : u = u' := Option.some.inj (stored.symm.trans stored')
      have other : v ≠ w := by
        rintro rfl
        exact lt_irrefl d (below d label)
      have lower : e ≤ d := (le_add_of_nonneg_right (weights u _ arc)).trans le
      exact .step away (by rw [Function.update_of_ne other, stored])
        (ih e known fun f h => lower.trans_lt (below f h))

/-- Improving a label and storing where it came from keeps the tree: the branch to
the predecessor cannot pass the improved vertex. -/
theorem improve (tree : Tree succ source origin dist prev) (weights : ∀ v, ∀ a ∈ succ v, 0 ≤ a.2)
    {u : V} {d : K} {a : V × K} (arc : a ∈ succ u) (label : dist u = some d) (positive : 0 ≤ d)
    (improves : ¬ Relaxed dist d a) :
    Tree succ source origin (Function.update dist a.1 (some (d + a.2)))
      (Function.update prev a.1 (some u)) := by
  have lt := Invariant.improved_lt improves
  have away : a.1 ≠ source := by
    intro same
    exact absurd (lt 0 (same ▸ tree.source_zero))
      (not_lt.mpr (add_nonneg positive (weights u a arc)))
  have other : u ≠ a.1 := Invariant.improved_ne weights arc label improves
  obtain ⟨us, path⟩ := tree.branch u d label
  have fresh : Branch (Function.update prev a.1 (some u)) source (us ++ [a.1]) a.1 :=
    .step away (Function.update_self ..) (tree.branch_update weights path d label fun e known =>
      (le_add_of_nonneg_right (weights u a arc)).trans_lt (lt e known))
  refine ⟨by rw [Function.update_of_ne away.symm]; exact tree.source_zero,
    by rw [Function.update_of_ne away.symm]; exact tree.source_prev, ?_, ?_⟩
  · intro v e known notSource
    by_cases here : v = a.1
    · subst here
      rw [Function.update_self] at known
      cases known
      exact ⟨u, d, a.2, Function.update_self .., by rw [Function.update_of_ne other, label], arc,
        le_refl _⟩
    · rw [Function.update_of_ne here] at known
      obtain ⟨p, f, c, stored, parentLabel, edge, le⟩ := tree.parent v e known notSource
      by_cases passes : p = a.1
      · subst passes
        exact ⟨a.1, d + a.2, c, by rw [Function.update_of_ne here, stored],
          Function.update_self .., edge, (add_le_add_left (lt f parentLabel).le c).trans le⟩
      · exact ⟨p, f, c, by rw [Function.update_of_ne here, stored],
          by rw [Function.update_of_ne passes, parentLabel], edge, le⟩
  · have rebuild : ∀ {v vs}, Branch prev source vs v →
        ∃ ws, Branch (Function.update prev a.1 (some u)) source ws v := by
      intro v vs branch
      induction branch with
      | root => exact ⟨[], .root⟩
      | @step p v vs notSource stored _ ih =>
          by_cases here : v = a.1
          · subst here
            exact ⟨us ++ [a.1], fresh⟩
          · obtain ⟨ws, rest⟩ := ih
            exact ⟨ws ++ [v], .step notSource (by rw [Function.update_of_ne here, stored]) rest⟩
    intro v e known
    by_cases here : v = a.1
    · subst here
      exact ⟨us ++ [a.1], fresh⟩
    · rw [Function.update_of_ne here] at known
      obtain ⟨vs, branch⟩ := tree.branch v e known
      exact rebuild branch

end Tree

/-- Follow predecessors back to the source and put the vertices in front of `path`. -/
def readBack (prev : V → V) (source : V) : ℕ → V → List V → Option (List V)
  | 0, _, _ => none
  | rounds + 1, v, path =>
    if v = source then some (v :: path) else readBack prev source rounds (prev v) (v :: path)

/-- **Reading predecessors back from the end of a branch ends at the source with the
vertices of the branch.** -/
theorem readBack_branch {prev : V → Option V} {previous : V → V}
    (same : ∀ v u, prev v = some u → previous v = u) {v : V} {vs : List V}
    (branch : Branch prev source vs v) : ∀ {rounds : ℕ} {path : List V}, vs.length < rounds →
    readBack previous source rounds v path = some (source :: vs ++ path) := by
  induction branch with
  | root =>
      intro rounds path enough
      obtain ⟨rounds, rfl⟩ := Nat.exists_eq_succ_of_ne_zero (Nat.ne_of_gt enough)
      simp [readBack]
  | @step u v vs away stored _ ih =>
      intro rounds path enough
      obtain ⟨rounds, rfl⟩ := Nat.exists_eq_succ_of_ne_zero (Nat.ne_of_gt (Nat.zero_lt_of_lt enough))
      rw [readBack, if_neg away, same v u stored, ih (by simp at enough; omega)]
      simp

/-- A path that has been read back is read back in more rounds. -/
theorem readBack_mono {prev : V → V} {source : V} {result : List V} :
    ∀ {rounds more : ℕ} {v : V} {path : List V}, rounds ≤ more →
      readBack prev source rounds v path = some result →
      readBack prev source more v path = some result
  | 0, _, _, _, _, read => by simp [readBack] at read
  | rounds + 1, 0, _, _, le, _ => absurd le (by omega)
  | rounds + 1, more + 1, v, path, le, read => by
      rw [readBack] at read ⊢
      by_cases here : v = source
      · rwa [if_pos here] at read ⊢
      · rw [if_neg here] at read ⊢
        exact readBack_mono (Nat.le_of_succ_le_succ le) read

end Search

end OsmMini.Foundations.BestFirst

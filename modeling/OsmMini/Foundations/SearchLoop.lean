import OsmMini.Foundations.BinaryHeap
import OsmMini.Foundations.Machine
import OsmMini.Foundations.BestFirst

/-!
# A best-first search over a label table and a heap

The loop that several searches share: pop the entry of least priority, drop it when
it is stale, stop when its vertex is a goal, and otherwise relax the arcs out of its
vertex. What differs between them is how labels are kept, what a queue entry looks
like and how staleness is tested; an `Engine` names these, and `Engine.Lawful` says
what the loop needs of them.

The loop ends with a goal at the least cost of a walk from the source, or with no
goal when none can be reached (`search_correct`). The same holds when expanding a
vertex does more than relaxing its arcs, as long as it keeps the invariant
(`expanding_search_correct`).
-/

set_option autoImplicit false
set_option linter.unusedSectionVars false

namespace OsmMini.Foundations.BestFirst

open Loop

/-- How a search keeps its labels `T` and its queue entries `E`. -/
structure Engine (T V K E : Type*) where
  dist : T → V → Option K
  set : T → V → K → V → T
  prev : T → V → Option V
  entry : V → K → K → E
  vertex : E → V
  distance : E → K
  priority : E → K
  stale : T → E → Bool

variable {T V K E : Type*} [AddCommMonoid K] [LinearOrder K] [IsOrderedCancelAddMonoid K]
  [DecidableEq V]

/-- Labels are read back as they were stored, entries keep what they were made of,
and the stale entries are those above the label of their vertex. Predecessors are
kept only by the tables that track them. -/
structure Engine.Lawful (eng : Engine T V K E) (tracks : T → Prop) : Prop where
  dist_set : ∀ t v d u, eng.dist (eng.set t v d u) = Function.update (eng.dist t) v (some d)
  prev_set : ∀ t v d u, tracks t →
    eng.prev (eng.set t v d u) = Function.update (eng.prev t) v (some u)
  tracks_set : ∀ t v d u, tracks t → tracks (eng.set t v d u)
  vertex_entry : ∀ v d p, eng.vertex (eng.entry v d p) = v
  distance_entry : ∀ v d p, eng.distance (eng.entry v d p) = d
  priority_entry : ∀ v d p, eng.priority (eng.entry v d p) = p
  stale_iff : ∀ t e d, eng.dist t (eng.vertex e) = some d → d ≤ eng.distance e →
    (eng.stale t e = true ↔ d ≠ eng.distance e)

namespace Engine

variable (eng : Engine T V K E) (h : V → K)

/-- Label the head of an arc and queue it. -/
def label (u : V) (cost : K) (s : T × List E) (v : V) : T × List E :=
  (eng.set s.1 v cost u, BinaryHeap.push eng.priority s.2 (eng.entry v cost (cost + h v)))

/-- Relax one arc out of `u`, which was taken at distance `d`. -/
def relax (u : V) (d : K) (s : T × List E) (a : V × K) : T × List E :=
  match eng.dist s.1 a.1 with
  | some old => if old ≤ d + a.2 then s else eng.label h u (d + a.2) s a.1
  | none => eng.label h u (d + a.2) s a.1

/-- One round of a search that expands the vertex of a fresh entry. -/
def roundWith (expand : V → K → T × List E → T × List E) (goal : V → Bool) (s : T × List E) :
    Outcome (T × List E) (T × Option E) :=
  match BinaryHeap.pop eng.priority s.2 with
  | none => .done (s.1, none)
  | some (current, rest) =>
    if eng.stale s.1 current then .again (s.1, rest)
    else if goal (eng.vertex current) then .done (s.1, some current)
    else .again (expand (eng.vertex current) (eng.distance current) (s.1, rest))

/-- Expand a vertex by relaxing the arcs out of it one after the other. -/
def relaxAll (relax : V → K → T × List E → V × K → T × List E) (succ : V → List (V × K))
    (u : V) (d : K) (s : T × List E) : T × List E :=
  (succ u).foldl (relax u d) s

/-- One round of the search. -/
def round (succ : V → List (V × K)) (goal : V → Bool) (s : T × List E) :
    Outcome (T × List E) (T × Option E) :=
  eng.roundWith (relaxAll (eng.relax h) succ) goal s

/-- Whether a vertex is queued at a distance. -/
def Queued (pq : List E) (v : V) (k : K) : Prop :=
  ∃ e ∈ pq, eng.vertex e = v ∧ eng.distance e = k

/-- The invariant of the search, with the arcs in `waived` still to be relaxed. The
predecessors form a tree when they are tracked. -/
structure Good (tracks : T → Prop) (tracked : Prop) (succ : V → List (V × K)) (source : V)
    (origin : Option V) (goal : V → Bool) (waived : V → V × K → Prop) (s : T × List E) :
    Prop where
  heap : BinaryHeap.IsHeap eng.priority s.2
  priorities : ∀ e ∈ s.2, eng.priority e = eng.distance e + h (eng.vertex e)
  core : Invariant succ source (fun v => goal v = true) (eng.dist s.1) (eng.Queued s.2) waived
  tree : tracked → tracks s.1 ∧ Tree succ source origin (eng.dist s.1) (eng.prev s.1)

/-- What relaxing an arc of a labelled vertex must do: the arc waits no longer, the
label of the vertex stays, and some label improves unless nothing changes. -/
def Relaxes (tracks : T → Prop) (tracked : Prop) (succ : V → List (V × K)) (source : V)
    (origin : Option V) (goal : V → Bool) (relax : V → K → T × List E → V × K → T × List E) :
    Prop :=
  ∀ waived u d s a, a ∈ succ u → eng.dist s.1 u = some d →
    eng.Good h tracks tracked succ source origin goal waived s →
    eng.Good h tracks tracked succ source origin goal (fun w b => waived w b ∧ ¬ (w = u ∧ b = a))
        (relax u d s a) ∧
      eng.dist (relax u d s a).1 u = some d ∧
      (relax u d s a = s ∨ Improved (eng.dist (relax u d s a).1) (eng.dist s.1))

/-- What expanding a vertex must do: when the arcs out of it wait, expanding it
restores the invariant, and improves some label unless it changes nothing. -/
def Expands (tracks : T → Prop) (tracked : Prop) (succ : V → List (V × K)) (source : V)
    (origin : Option V) (goal : V → Bool) (expand : V → K → T × List E → T × List E) : Prop :=
  ∀ u d s, eng.dist s.1 u = some d →
    eng.Good h tracks tracked succ source origin goal (fun w b => w = u ∧ b ∈ succ u) s →
    eng.Good h tracks tracked succ source origin goal (fun _ _ => False) (expand u d s) ∧
      (expand u d s = s ∨ Improved (eng.dist (expand u d s).1) (eng.dist s.1))

variable {eng h} {tracks : T → Prop} {tracked : Prop} {succ : V → List (V × K)} {source : V}
  {origin : Option V} {goal : V → Bool} {waived : V → V × K → Prop}
  {expand : V → K → T × List E → T × List E}

section Relaxation

variable (lawful : eng.Lawful tracks) (weights : ∀ v, ∀ a ∈ succ v, 0 ≤ a.2)
include lawful weights

theorem queued_label {u : V} {cost : K} {s : T × List E} {v w : V} {l : K} :
    eng.Queued (eng.label h u cost s v).2 w l ↔ eng.Queued s.2 w l ∨ (w = v ∧ l = cost) := by
  have pushed : (eng.label h u cost s v).2.Perm (eng.entry v cost (cost + h v) :: s.2) :=
    BinaryHeap.push_perm ..
  constructor
  · rintro ⟨e, member, rfl, rfl⟩
    rcases List.mem_cons.mp (pushed.mem_iff.mp member) with rfl | old
    · exact .inr ⟨lawful.vertex_entry .., lawful.distance_entry ..⟩
    · exact .inl ⟨e, old, rfl, rfl⟩
  · rintro (⟨e, old, rfl, rfl⟩ | ⟨rfl, rfl⟩)
    · exact ⟨e, pushed.mem_iff.mpr (List.mem_cons_of_mem _ old), rfl, rfl⟩
    · exact ⟨_, pushed.mem_iff.mpr (List.mem_cons_self ..), lawful.vertex_entry ..,
        lawful.distance_entry ..⟩

/-- Labelling the head of an improving arc takes that arc out of the waived ones. -/
theorem Good.label {s : T × List E}
    (good : eng.Good h tracks tracked succ source origin goal waived s) {u : V} {d : K}
    (at_u : eng.dist s.1 u = some d) {a : V × K} (arc : a ∈ succ u)
    (improves : ¬ Relaxed (eng.dist s.1) d a) :
    eng.Good h tracks tracked succ source origin goal (fun w b => waived w b ∧ ¬ (w = u ∧ b = a))
      (eng.label h u (d + a.2) s a.1) where
  heap := BinaryHeap.isHeap_push good.heap _
  priorities := by
    intro e member
    rcases List.mem_cons.mp ((BinaryHeap.push_perm _ _).mem_iff.mp member) with rfl | old
    · rw [lawful.priority_entry, lawful.distance_entry, lawful.vertex_entry]
    · exact good.priorities e old
  core := by
    show Invariant _ _ _ (eng.dist (eng.set s.1 a.1 (d + a.2) u)) _ _
    rw [lawful.dist_set]
    refine good.core.improve weights arc at_u improves
      (fun w l old => (queued_label lawful weights).mpr (.inl old))
      (fun w l now => (queued_label lawful weights).mp now)
      (.inl ((queued_label lawful weights).mpr (.inr ⟨rfl, rfl⟩))) fun w b wait => ?_
    by_cases here : w = u ∧ b = a
    · exact .inr here
    · exact .inl ⟨wait, here⟩
  tree := by
    intro kept
    obtain ⟨before, tree⟩ := good.tree kept
    refine ⟨lawful.tracks_set s.1 a.1 (d + a.2) u before, ?_⟩
    show Tree _ _ _ (eng.dist (eng.set s.1 a.1 (d + a.2) u))
      (eng.prev (eng.set s.1 a.1 (d + a.2) u))
    rw [lawful.dist_set, lawful.prev_set _ _ _ _ before]
    exact tree.improve weights arc at_u (good.core.nonneg weights at_u) improves

/-- An arc whose head is labelled no worse leaves the waived ones as it is. -/
theorem Good.keep {s : T × List E}
    (good : eng.Good h tracks tracked succ source origin goal waived s) {u : V} {d : K}
    (at_u : eng.dist s.1 u = some d) {a : V × K} (relaxed : Relaxed (eng.dist s.1) d a) :
    eng.Good h tracks tracked succ source origin goal
      (fun w b => waived w b ∧ ¬ (w = u ∧ b = a)) s :=
  { good with core := good.core.keep at_u relaxed }

/-- Relaxing an arc either changes nothing, because its head is labelled no worse, or
labels its head. -/
theorem relax_cases (u : V) (d : K) (s : T × List E) (a : V × K) :
    (eng.relax h u d s a = s ∧ Relaxed (eng.dist s.1) d a) ∨
      (eng.relax h u d s a = eng.label h u (d + a.2) s a.1 ∧ ¬ Relaxed (eng.dist s.1) d a) := by
  unfold relax
  cases known : eng.dist s.1 a.1 with
  | none =>
      refine .inr ⟨rfl, ?_⟩
      rintro ⟨e, label, -⟩
      rw [known] at label
      cases label
  | some old =>
      by_cases le : old ≤ d + a.2
      · exact .inl ⟨by simp only [if_pos le], old, known, le⟩
      · refine .inr ⟨by simp only [if_neg le], ?_⟩
        rintro ⟨e, label, le'⟩
        rw [known] at label
        cases label
        exact le le'

/-- Relaxing an arc leaves the label of its tail. -/
theorem relax_tail {u : V} {d : K} {s : T × List E} {a : V × K} (arc : a ∈ succ u)
    (at_u : eng.dist s.1 u = some d) (improves : ¬ Relaxed (eng.dist s.1) d a) (parent : V) :
    eng.dist (eng.set s.1 a.1 (d + a.2) parent) u = some d := by
  rw [lawful.dist_set, Function.update_of_ne (Invariant.improved_ne weights arc at_u improves),
    at_u]

theorem relaxes : eng.Relaxes h tracks tracked succ source origin goal (eng.relax h) := by
  intro waived u d s a arc at_u good
  rcases relax_cases lawful weights u d s a with ⟨same, relaxed⟩ | ⟨same, improves⟩
  · rw [same]
    exact ⟨good.keep lawful weights at_u relaxed, at_u, .inl rfl⟩
  · rw [same]
    refine ⟨good.label lawful weights at_u arc improves,
      relax_tail lawful weights arc at_u improves u, .inr ?_⟩
    show Improved (eng.dist (eng.set s.1 a.1 (d + a.2) u)) _
    rw [lawful.dist_set]
    exact improved_update improves

omit lawful weights in
/-- Relaxing the arcs that wait restores the invariant, and improves some label
unless it changes nothing. -/
theorem Good.foldl {relax : V → K → T × List E → V × K → T × List E}
    (relaxes : eng.Relaxes h tracks tracked succ source origin goal relax) {u : V} {d : K} :
    ∀ {todo : List (V × K)} {s : T × List E},
    (∀ a ∈ todo, a ∈ succ u) → eng.dist s.1 u = some d →
    eng.Good h tracks tracked succ source origin goal (fun w b => w = u ∧ b ∈ todo) s →
    eng.Good h tracks tracked succ source origin goal (fun _ _ => False)
        (todo.foldl (relax u d) s) ∧
      (todo.foldl (relax u d) s = s ∨
        Improved (eng.dist (todo.foldl (relax u d) s).1) (eng.dist s.1))
  | [], s, _, _, good => by
      refine ⟨{ good with core := ?_ }, .inl rfl⟩
      exact good.core.mono (fun _ _ => Iff.rfl) fun w b _ wait => absurd wait.2 List.not_mem_nil
  | a :: todo, s, arcs, at_u, good => by
      have later : ∀ b ∈ todo, b ∈ succ u := fun b member => arcs b (List.mem_cons_of_mem _ member)
      obtain ⟨after, at_u', change⟩ := relaxes _ u d s a (arcs a (List.mem_cons_self ..)) at_u good
      have narrow : eng.Good h tracks tracked succ source origin goal
          (fun w b => w = u ∧ b ∈ todo) (relax u d s a) := by
        refine { after with core := after.core.mono (fun _ _ => Iff.rfl) fun w b _ wait => .inl ?_ }
        obtain ⟨⟨rfl, member⟩, other⟩ := wait
        exact ⟨rfl, (List.mem_cons.mp member).resolve_left fun same => other ⟨rfl, same⟩⟩
      obtain ⟨kept, further⟩ := Good.foldl relaxes later at_u' narrow
      rw [List.foldl_cons]
      refine ⟨kept, ?_⟩
      rcases change with same | better
      · rw [same] at further ⊢
        exact further
      · rcases further with unchanged | more
        · exact .inr (by rwa [unchanged])
        · exact .inr (more.trans better)

omit lawful weights in
/-- Relaxing all arcs out of a vertex expands it. -/
theorem relaxAll_expands {relax : V → K → T × List E → V × K → T × List E}
    (relaxes : eng.Relaxes h tracks tracked succ source origin goal relax) :
    eng.Expands h tracks tracked succ source origin goal (relaxAll relax succ) :=
  fun _ _ _ at_u good => Good.foldl relaxes (fun _ arc => arc) at_u good

/-- **A round keeps the invariant and makes progress.** -/
theorem Good.round (expands : eng.Expands h tracks tracked succ source origin goal expand)
    {s next : T × List E}
    (good : eng.Good h tracks tracked succ source origin goal (fun _ _ => False) s)
    (went : eng.roundWith expand goal s = .again next) :
    eng.Good h tracks tracked succ source origin goal (fun _ _ => False) next ∧
      Progress (eng.dist next.1, next.2.length) (eng.dist s.1, s.2.length) := by
  unfold Engine.roundWith at went
  cases popped : BinaryHeap.pop eng.priority s.2 with
  | none => rw [popped] at went; cases went
  | some out =>
      obtain ⟨current, rest⟩ := out
      simp only [popped] at went
      have perm := BinaryHeap.pop_perm popped
      have heap := BinaryHeap.isHeap_pop good.heap popped
      have priorities : ∀ e ∈ rest, eng.priority e = eng.distance e + h (eng.vertex e) :=
        fun e member => good.priorities e (perm.mem_iff.mpr (List.mem_cons_of_mem _ member))
      have less : ∀ w l, eng.Queued rest w l → eng.Queued s.2 w l := by
        rintro w l ⟨e, member, at_w, at_l⟩
        exact ⟨e, perm.mem_iff.mpr (List.mem_cons_of_mem _ member), at_w, at_l⟩
      have kept : ∀ w l, eng.Queued s.2 w l → eng.Queued rest w l ∨
          (w = eng.vertex current ∧ l = eng.distance current) := by
        rintro w l ⟨e, member, at_w, at_l⟩
        rcases List.mem_cons.mp (perm.mem_iff.mp member) with rfl | old
        · exact .inr ⟨at_w.symm, at_l.symm⟩
        · exact .inl ⟨e, old, at_w, at_l⟩
      have entry : eng.Queued s.2 (eng.vertex current) (eng.distance current) :=
        ⟨current, perm.mem_iff.mpr (List.mem_cons_self ..), rfl, rfl⟩
      obtain ⟨d, label, le⟩ := good.core.queued_le _ _ entry
      have fewer : rest.length < s.2.length := by rw [perm.length_eq]; exact Nat.lt_succ_self _
      have staleness := lawful.stale_iff s.1 current d label le
      split at went
      · rename_i stale
        cases went
        refine ⟨⟨heap, priorities, ?_, good.tree⟩, .inr ⟨rfl, fewer⟩⟩
        refine good.core.drop (k := eng.distance current) ?_ less kept
        rw [label]
        exact fun same => staleness.mp stale (Option.some.inj same)
      · rename_i fresh
        have at_label : d = eng.distance current := not_not.mp fun other =>
          fresh (staleness.mpr other)
        subst at_label
        split at went
        · cases went
        · rename_i plain
          cases went
          have taken := good.core.take plain less kept
          have waiting : eng.Good h tracks tracked succ source origin goal
              (fun w b => w = eng.vertex current ∧ b ∈ succ (eng.vertex current)) (s.1, rest) :=
            ⟨heap, priorities, taken.mono (fun _ _ => Iff.rfl) fun w b arc wait => .inl (by
              rcases wait with rfl | none
              · exact ⟨rfl, arc⟩
              · exact none.elim), good.tree⟩
          obtain ⟨after, change⟩ := expands _ _ (s.1, rest) label waiting
          refine ⟨after, ?_⟩
          rcases change with same | better
          · rw [same]
            exact .inr ⟨rfl, fewer⟩
          · exact .inl better

/-- What a search has found when it ends. -/
def Finished (eng : Engine T V K E) (tracks : T → Prop) (tracked : Prop)
    (succ : V → List (V × K)) (source : V) (origin : Option V) (goal : V → Bool)
    (result : T × Option E) : Prop :=
  Sound succ source (eng.dist result.1) ∧ eng.dist result.1 source = some 0 ∧
  (tracked → tracks result.1 ∧
    Tree succ source origin (eng.dist result.1) (eng.prev result.1)) ∧
  match result.2 with
  | some e => goal (eng.vertex e) = true ∧
      eng.dist result.1 (eng.vertex e) = some (eng.distance e) ∧
      ∀ t vs k, goal t = true → Walk succ source vs t k → eng.distance e ≤ k
  | none => (∀ t vs k, goal t = true → ¬ Walk succ source vs t k) ∧
      ∀ v d, eng.dist result.1 v = some d → goal v = false →
        ∀ a ∈ succ v, Relaxed (eng.dist result.1) d a

omit lawful weights in
/-- **A goal that was found lies at the end of a branch**, which is a walk of the cost found. -/
theorem Finished.branch {result : T × Option E} {e : E}
    (finished : Finished eng tracks tracked succ source origin goal result) (kept : tracked)
    (found : result.2 = some e) :
    ∃ vs, Branch (eng.prev result.1) source vs (eng.vertex e) ∧
      Walk succ source vs (eng.vertex e) (eng.distance e) := by
  obtain ⟨-, -, tree, ends⟩ := finished
  simp only [found] at ends
  obtain ⟨reached, label, least⟩ := ends
  obtain ⟨vs, branch⟩ := (tree kept).2.branch _ _ label
  obtain ⟨k, walk, le⟩ := (tree kept).2.walk branch _ label
  obtain rfl : k = eng.distance e := le_antisymm le (least _ _ _ reached walk)
  exact ⟨vs, branch, walk⟩

/-- **A round that ends the search has found a goal at the least cost, or shown that
none can be reached.** -/
theorem Good.finished {s : T × List E} {result : T × Option E}
    (good : eng.Good h tracks tracked succ source origin goal (fun _ _ => False) s)
    (admissible : ∀ v us d, Walk succ source us v d → ∀ t vs k, goal t = true →
      Walk succ v vs t k → h v ≤ k)
    (above : ∀ t, goal t = true → 0 ≤ h t) (went : eng.roundWith expand goal s = .done result) :
    Finished eng tracks tracked succ source origin goal result := by
  unfold Engine.roundWith at went
  cases popped : BinaryHeap.pop eng.priority s.2 with
  | none =>
      simp only [popped] at went
      cases went
      have empty : ∀ v k, ¬ eng.Queued s.2 v k := by
        rintro v k ⟨e, member, -⟩
        rw [BinaryHeap.pop_eq_none_iff.mp popped] at member
        exact absurd member List.not_mem_nil
      refine ⟨good.core.sound, good.core.source_zero, good.tree,
        fun t vs k reached => good.core.unreachable empty reached, fun v d label plain a arc => ?_⟩
      rcases good.core.settled v d label with entry | ⟨-, arcs⟩
      · exact absurd entry (empty v d)
      · exact (arcs a arc).resolve_left id
  | some out =>
      obtain ⟨current, rest⟩ := out
      simp only [popped] at went
      have perm := BinaryHeap.pop_perm popped
      have here : current ∈ s.2 := perm.mem_iff.mpr (List.mem_cons_self ..)
      obtain ⟨d, label, le⟩ := good.core.queued_le _ _ ⟨current, here, rfl, rfl⟩
      have staleness := lawful.stale_iff s.1 current d label le
      split at went
      · cases went
      · rename_i fresh
        have at_label : d = eng.distance current := not_not.mp fun other =>
          fresh (staleness.mpr other)
        subst at_label
        split at went
        · rename_i reached
          cases went
          refine ⟨good.core.sound, good.core.source_zero, good.tree, reached, label,
            fun t vs k target walk => ?_⟩
          refine good.core.optimal (h := h) ?_ ?_ (above _ reached) target walk
          · intro v d vs t k known target walk
            obtain ⟨us, way⟩ := good.core.sound v d known
            exact admissible v us d way t vs k target walk
          · rintro w l ⟨e, member, rfl, rfl⟩
            rw [← good.priorities current here, ← good.priorities e member]
            exact BinaryHeap.pop_min good.heap popped e member
        · cases went

/-- **The search ends, with a goal at the least cost of a walk from the source or with
no goal when none can be reached.** -/
theorem expanding_search_correct
    (expands : eng.Expands h tracks tracked succ source origin goal expand)
    {vertices : Finset V} (first : source ∈ vertices)
    (closed : ∀ v ∈ vertices, ∀ a ∈ succ v, a.1 ∈ vertices)
    (admissible : ∀ v us d, Walk succ source us v d → ∀ t vs k, goal t = true →
      Walk succ v vs t k → h v ≤ k)
    (above : ∀ t, goal t = true → 0 ≤ h t) (s : T × List E)
    (start : eng.Good h tracks tracked succ source origin goal (fun _ _ => False) s) :
    ∃ rounds result, iterate (eng.roundWith expand goal) rounds s = some result ∧
      Finished eng tracks tracked succ source origin goal result := by
  have wf := InvImage.wf (fun s : T × List E => (eng.dist s.1, s.2.length))
    (wellFounded_progress weights first closed)
  refine iterate_terminates wf (fun s next good went => ?_)
    (fun s result good went => good.finished lawful weights admissible above went) s start
  obtain ⟨kept, progress⟩ := good.round lawful weights expands went
  exact ⟨kept, kept.core.sound, good.core.sound, progress⟩

/-- The search that relaxes the arcs one by one is correct. -/
theorem search_correct {vertices : Finset V} (first : source ∈ vertices)
    (closed : ∀ v ∈ vertices, ∀ a ∈ succ v, a.1 ∈ vertices)
    (admissible : ∀ v us d, Walk succ source us v d → ∀ t vs k, goal t = true →
      Walk succ v vs t k → h v ≤ k)
    (above : ∀ t, goal t = true → 0 ≤ h t) (s : T × List E)
    (start : eng.Good h tracks tracked succ source origin goal (fun _ _ => False) s) :
    ∃ rounds result, iterate (eng.round h succ goal) rounds s = some result ∧
      Finished eng tracks tracked succ source origin goal result :=
  expanding_search_correct lawful weights (relaxAll_expands (relaxes lawful weights)) first closed
    admissible above s start

end Relaxation

/-- A search starts with its source queued at distance zero. -/
theorem Good.start (t : T) (e : E) (vertex : eng.vertex e = source) (distance : eng.distance e = 0)
    (priority : eng.priority e = h source)
    (labels : ∀ v, eng.dist t v = if v = source then some 0 else none)
    (tracking : tracked → tracks t ∧ eng.prev t source = origin) :
    eng.Good h tracks tracked succ source origin goal (fun _ _ => False)
      (t, BinaryHeap.push eng.priority [] e) := by
  have only : ∀ x, x ∈ BinaryHeap.push eng.priority [] e ↔ x = e := by
    intro x
    rw [(BinaryHeap.push_perm [] e).mem_iff, List.mem_singleton]
  refine ⟨BinaryHeap.isHeap_push .nil e, ?_, .start labels ?_,
    fun kept => ⟨(tracking kept).1, .start labels (tracking kept).2⟩⟩
  · intro x member
    rw [(only x).mp member, priority, distance, vertex, zero_add]
  · intro v k
    constructor
    · rintro ⟨x, member, rfl, rfl⟩
      rw [(only x).mp member]
      exact ⟨vertex, distance⟩
    · rintro ⟨rfl, rfl⟩
      exact ⟨e, (only e).mpr rfl, vertex, distance⟩

end Engine

end OsmMini.Foundations.BestFirst

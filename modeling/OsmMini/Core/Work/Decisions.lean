import OsmMini.Core.Work.Plan
import Mathlib

/-!
# A plan as a list of decisions

Every job leads to one decision: the resource it goes to, if any. The plan after some
jobs is determined by the decisions about them, and each decision is greedy with respect
to those before it.
-/

set_option autoImplicit false

namespace OsmMini.Core

open OsmMini.Foundations

variable {K Properties : Type} [Field K] [LinearOrder K]
  {haversineMeters : Coord K → Coord K → K}
  {constraints : List (Option (AssignmentConstraint K Properties))}

/-! ## Eligible resources -/

/-- The cost that a constraint adds. -/
def addedCost (r : WorkResource K Properties) (job : WorkJob K Properties)
    (c : Option (AssignmentConstraint K Properties)) : K :=
  (c.map fun rule => rule.cost r.vehicle job.shipment).getD 0

def accepts (r : WorkResource K Properties) (job : WorkJob K Properties)
    (c : Option (AssignmentConstraint K Properties)) : Prop :=
  ∃ rule, c = some rule ∧ rule.accept r.vehicle job.shipment = true

/-- A resource may do a job, at a cost: it has the skills, every constraint accepts, and
the cost is the distance with what the constraints add. -/
structure Eligible (haversineMeters : Coord K → Coord K → K)
    (constraints : List (Option (AssignmentConstraint K Properties)))
    (r : WorkResource K Properties) (job : WorkJob K Properties) (cost : K) : Prop where
  skills : ∀ skill ∈ job.requiredSkills, skill ∈ r.skills
  accepted : ∀ c ∈ constraints, accepts r job c
  cost : cost = haversineMeters r.location job.location +
    (constraints.map (addedCost r job)).sum

theorem constrainedCost_eq {r : WorkResource K Properties} {job : WorkJob K Properties}
    {cs : List (Option (AssignmentConstraint K Properties))} {cost : K} {result : Option K}
    (run : constrainedCost r.vehicle job.shipment cs cost = .ok result) :
    (∀ total, result = some total → (∀ c ∈ cs, accepts r job c) ∧
        total = cost + (cs.map (addedCost r job)).sum) ∧
      ((∀ c ∈ cs, accepts r job c) → result = some (cost + (cs.map (addedCost r job)).sum)) := by
  induction cs generalizing cost with
  | nil =>
      obtain rfl := Except.ok.inj run
      simp
  | cons c cs ih =>
      cases c with
      | none => cases run
      | some rule =>
          rw [constrainedCost] at run
          by_cases accepted : rule.accept r.vehicle job.shipment
          · rw [accepted, Bool.not_true, if_neg Bool.false_ne_true] at run
            split_ifs at run
            obtain ⟨sound, complete⟩ := ih run
            have added : addedCost r job (some rule) = rule.cost r.vehicle job.shipment := rfl
            rw [List.map_cons, List.sum_cons, added, ← add_assoc]
            refine ⟨fun total found => ?_, fun all => ?_⟩
            · obtain ⟨rest, value⟩ := sound total found
              exact ⟨List.forall_mem_cons.mpr ⟨⟨rule, rfl, accepted⟩, rest⟩, value⟩
            · exact complete fun c member => all c (List.mem_cons_of_mem _ member)
          · rw [eq_false_of_ne_true accepted, Bool.not_false, if_pos rfl] at run
            obtain rfl := Except.ok.inj run
            refine ⟨fun total found => (nomatch found), fun all => ?_⟩
            obtain ⟨_, same, yes⟩ := all _ (List.mem_cons_self ..)
            cases same
            exact absurd yes accepted

/-- **What is evaluated is the cost of an eligible resource.** -/
theorem evaluate_eq_some_iff {r : WorkResource K Properties} {job : WorkJob K Properties}
    {result : Option K} (run : evaluate haversineMeters constraints r job = .ok result)
    (cost : K) : result = some cost ↔ Eligible haversineMeters constraints r job cost := by
  have qualified : skilled r job = true ↔ ∀ skill ∈ job.requiredSkills, skill ∈ r.skills := by
    simp [skilled]
  unfold evaluate at run
  by_cases able : skilled r job
  · rw [able, Bool.not_true, if_neg Bool.false_ne_true] at run
    cases total : constrainedCost r.vehicle job.shipment constraints
        (haversineMeters r.location job.location) with
    | error err => simp [total] at run
    | ok found =>
        obtain ⟨sound, complete⟩ := constrainedCost_eq total
        have same : result = found := by
          cases found with
          | none => simpa [total] using run.symm
          | some value =>
              simp only [total] at run
              split_ifs at run
              exact (Except.ok.inj run).symm
        rw [same]
        constructor
        · intro value
          obtain ⟨accepted, cost⟩ := sound cost value
          exact ⟨qualified.mp able, accepted, cost⟩
        · intro eligible
          rw [eligible.cost]
          exact complete eligible.accepted
  · rw [eq_false_of_ne_true able, Bool.not_false, if_pos rfl] at run
    obtain rfl := Except.ok.inj run
    exact ⟨fun missing => (nomatch missing),
      fun eligible => absurd (qualified.mpr eligible.skills) able⟩

/-! ## Choosing among the slots -/

/-- The cost of a slot that has room for the job. -/
def roomCost (haversineMeters : Coord K → Coord K → K)
    (constraints : List (Option (AssignmentConstraint K Properties)))
    (job : WorkJob K Properties) (slot : Slot K Properties) : Option K :=
  if full job slot then none
  else
    match evaluate haversineMeters constraints slot.1.1 job with
    | .ok cost => cost
    | .error _ => none

/-- **The loop over the resources** evaluates every one, keeps the first cheapest with
room, and notes whether any is eligible. -/
theorem foldlM_consider {job : WorkJob K Properties} {l : List (Slot K Properties)}
    {choice choice' : Choice K}
    (run : l.foldlM (consider haversineMeters constraints job) choice = .ok choice') :
    (∀ slot ∈ l, ∃ result, evaluate haversineMeters constraints slot.1.1 job = .ok result) ∧
      choice'.best = l.foldl (fun best slot =>
        match roomCost haversineMeters constraints job slot with
        | none => best
        | some c => improve best slot.2 c) choice.best ∧
      (choice'.eligible = true ↔ choice.eligible = true ∨ ∃ slot ∈ l, ∃ cost,
        Eligible haversineMeters constraints slot.1.1 job cost) := by
  induction l generalizing choice with
  | nil =>
      obtain rfl := Except.ok.inj run
      simp
  | cons slot l ih =>
      rw [List.foldlM_cons] at run
      cases first : evaluate haversineMeters constraints slot.1.1 job with
      | error err =>
          rw [consider, first] at run
          cases run
      | ok result =>
          have meaning := evaluate_eq_some_iff first
          have evaluated := first
          cases result with
          | none =>
              rw [consider, first] at run
              obtain ⟨all, best, eligible⟩ := ih run
              have nothing : roomCost haversineMeters constraints job slot = none := by
                rw [roomCost, first, ite_self]
              refine ⟨List.forall_mem_cons.mpr ⟨⟨_, first⟩, all⟩, ?_, eligible.trans ?_⟩
              · rw [best, List.foldl_cons, nothing]
              · rw [List.exists_mem_cons_iff]
                have never : ¬∃ cost, Eligible haversineMeters constraints slot.1.1 job cost :=
                  fun ⟨cost, able⟩ => (nomatch (meaning cost).mpr able)
                rw [eq_false never, false_or]
          | some cost =>
              have able : Eligible haversineMeters constraints slot.1.1 job cost :=
                (meaning cost).mp rfl
              rw [consider, first] at run
              dsimp only at run
              by_cases crowded : full job slot
              · rw [if_pos crowded] at run
                obtain ⟨all, best, eligible⟩ := ih run
                have nothing : roomCost haversineMeters constraints job slot = none :=
                  if_pos crowded
                refine ⟨List.forall_mem_cons.mpr ⟨⟨_, first⟩, all⟩, ?_, eligible.trans ?_⟩
                · rw [best, List.foldl_cons, nothing]
                · exact ⟨fun _ => .inr ⟨slot, List.mem_cons_self .., cost, able⟩,
                    fun _ => .inl rfl⟩
              · rw [if_neg crowded] at run
                obtain ⟨all, best, eligible⟩ := ih run
                have value : roomCost haversineMeters constraints job slot = some cost := by
                  rw [roomCost, if_neg crowded, first]
                refine ⟨List.forall_mem_cons.mpr ⟨⟨_, first⟩, all⟩, ?_, eligible.trans ?_⟩
                · rw [best, List.foldl_cons, value]
                · exact ⟨fun _ => .inr ⟨slot, List.mem_cons_self .., cost, able⟩,
                    fun _ => .inl rfl⟩

/-! ## Decisions -/

/-- What was decided about a job: the place it went to, and whether any resource was
eligible. -/
structure Decision (K Properties : Type) where
  job : WorkJob K Properties
  choice : Option ℕ
  eligible : Bool

/-- The jobs that went to a place. -/
def jobsAt (d : List (Decision K Properties)) (i : ℕ) : List (WorkJob K Properties) :=
  (d.filter fun x => x.choice = some i).map Decision.job

def loadAt (d : List (Decision K Properties)) (i : ℕ) : K :=
  ((jobsAt d i).map WorkJob.demand).sum

/-- The manifest that decisions lead to. -/
def manifestOf (d : List (Decision K Properties)) (r : WorkResource K Properties) (i : ℕ) :
    WorkManifest K where
  resourceID := r.id
  jobIDs := (jobsAt d i).map WorkJob.id
  load := loadAt d i
  remainingCapacity := r.capacity - loadAt d i

def unassignedOf (x : Decision K Properties) : Option UnassignedWork :=
  if x.choice = none then
    some ⟨x.job.id, if x.eligible then "capacity_exceeded" else "no_eligible_resource"⟩
  else none

/-- The plan that decisions lead to. -/
def planOf (rs : List (WorkResource K Properties)) (d : List (Decision K Properties)) :
    WorkPlan K where
  algorithm := "priority-greedy"
  distanceModel := "great-circle-from-resource"
  manifests := rs.zipIdx.map fun slot => manifestOf d slot.1 slot.2
  unassigned := d.filterMap unassignedOf

/-- A resource has room for a job after some decisions. -/
def Fits (d : List (Decision K Properties)) (r : WorkResource K Properties) (i : ℕ)
    (job : WorkJob K Properties) : Prop :=
  job.demand ≤ r.capacity - loadAt d i ∧ (0 < r.maxJobs → ((jobsAt d i).length : ℤ) < r.maxJobs)

/-- A decision is greedy: it chooses the cheapest eligible resource with room, the first of
several, and leaves the job out only when there is none. -/
structure Greedily (haversineMeters : Coord K → Coord K → K)
    (constraints : List (Option (AssignmentConstraint K Properties)))
    (rs : List (WorkResource K Properties)) (before : List (Decision K Properties))
    (x : Decision K Properties) : Prop where
  chosen : ∀ i, x.choice = some i → ∃ r cost, rs[i]? = some r ∧
    Eligible haversineMeters constraints r x.job cost ∧ Fits before r i x.job ∧
    ∀ i' r' cost', rs[i']? = some r' → Eligible haversineMeters constraints r' x.job cost' →
      Fits before r' i' x.job → cost < cost' ∨ cost = cost' ∧ i ≤ i'
  left : x.choice = none → ∀ i r cost, rs[i]? = some r →
    Eligible haversineMeters constraints r x.job cost → ¬Fits before r i x.job
  eligible : x.eligible = true ↔ ∃ (i : ℕ) (r : WorkResource K Properties) (cost : K),
    rs[i]? = some r ∧ Eligible haversineMeters constraints r x.job cost

section Steps

variable {rs : List (WorkResource K Properties)} {d : List (Decision K Properties)}
  {job : WorkJob K Properties}

omit [LinearOrder K] in
theorem slots_planOf (rs : List (WorkResource K Properties)) (d : List (Decision K Properties)) :
    slots rs (planOf rs d) =
      rs.zipIdx.map fun slot => ((slot.1, manifestOf d slot.1 slot.2), slot.2) := by
  refine List.ext_getElem (by simp [slots, planOf]) fun i _ _ => ?_
  simp [slots, planOf]

omit [LinearOrder K] in
theorem mem_slots_planOf {slot : Slot K Properties} : slot ∈ slots rs (planOf rs d) ↔
    rs[slot.2]? = some slot.1.1 ∧ slot.1.2 = manifestOf d slot.1.1 slot.2 := by
  obtain ⟨⟨r, m⟩, i⟩ := slot
  rw [slots_planOf, List.mem_map]
  constructor
  · rintro ⟨⟨r', i'⟩, member, same⟩
    obtain ⟨⟨rfl, rfl⟩, rfl⟩ := by simpa only [Prod.mk.injEq] using same
    exact ⟨List.mem_zipIdx_iff_getElem?.mp member, rfl⟩
  · rintro ⟨found, same⟩
    obtain rfl : m = manifestOf d r i := same
    exact ⟨(r, i), List.mem_zipIdx_iff_getElem?.mpr found, rfl⟩

omit [LinearOrder K] in
theorem slot_mem (d : List (Decision K Properties)) {i : ℕ} {r : WorkResource K Properties}
    (found : rs[i]? = some r) : ((r, manifestOf d r i), i) ∈ slots rs (planOf rs d) :=
  mem_slots_planOf.mpr ⟨found, rfl⟩

omit [LinearOrder K] in
/-- The slots stand in the order of their places. -/
theorem slots_sorted (rs : List (WorkResource K Properties)) (d : List (Decision K Properties)) :
    (slots rs (planOf rs d)).Pairwise fun a b => a.2 < b.2 := by
  have places : (slots rs (planOf rs d)).map Prod.snd = List.range rs.length := by
    rw [slots_planOf, List.map_map]
    exact (List.zipIdx_map_snd 0 rs).trans (List.range_eq_range' ▸ rfl)
  rw [← List.pairwise_map (f := Prod.snd) (R := (· < ·)), places]
  exact List.pairwise_lt_range

theorem full_eq_false_iff (i : ℕ) (r : WorkResource K Properties) :
    full job ((r, manifestOf d r i), i) = false ↔ Fits d r i job := by
  rw [full, Bool.or_eq_false_iff, decide_eq_false_iff_not, not_lt]
  simp [Fits, manifestOf]

/-- The slots with room are those whose evaluated cost counts. -/
theorem roomCost_eq_some_iff {i : ℕ} {r : WorkResource K Properties} {result : Option K}
    (run : evaluate haversineMeters constraints r job = .ok result) (cost : K) :
    roomCost haversineMeters constraints job ((r, manifestOf d r i), i) = some cost ↔
      Eligible haversineMeters constraints r job cost ∧ Fits d r i job := by
  rw [← evaluate_eq_some_iff run, ← full_eq_false_iff, roomCost, run]
  by_cases crowded : full job ((r, manifestOf d r i), i)
  · simp [crowded]
  · simp [crowded]

omit [LinearOrder K] in
/-- Adding a decision adds its job to the manifest it chose. -/
theorem manifestOf_concat (d : List (Decision K Properties)) (x : Decision K Properties)
    (r : WorkResource K Properties) (i : ℕ) : manifestOf (d ++ [x]) r i =
      if x.choice = some i then (manifestOf d r i).add r.capacity x.job else manifestOf d r i := by
  by_cases here : x.choice = some i
  · simp [manifestOf, WorkManifest.add, loadAt, jobsAt, here]
  · simp [manifestOf, loadAt, jobsAt, here]

omit [LinearOrder K] in
/-- The manifests after one more decision that chose a place. -/
theorem manifests_chosen {best : ℕ} {r : WorkResource K Properties} (found : rs[best]? = some r)
    (x : Decision K Properties) (choice : x.choice = some best) :
    (planOf rs d).manifests.modify best (·.add r.capacity x.job) =
      (planOf rs (d ++ [x])).manifests := by
  refine List.ext_getElem? fun i => ?_
  rw [List.getElem?_modify, planOf, planOf]
  dsimp only
  rw [List.getElem?_map, List.getElem?_map, List.getElem?_zipIdx]
  cases here : rs[i]? with
  | none => simp
  | some r' =>
      simp only [Option.map_some, Nat.zero_add, manifestOf_concat, choice, Option.some.injEq]
      by_cases same : best = i
      · subst same
        obtain rfl := Option.some.inj (here.symm.trans found)
        simp
      · simp [same]

omit [LinearOrder K] in
theorem manifests_left (x : Decision K Properties) (choice : x.choice = none) :
    (planOf rs (d ++ [x])).manifests = (planOf rs d).manifests := by
  simp [planOf, manifestOf_concat, choice]

/-- **One job leads to one greedy decision.** -/
theorem assignJob_spec {plan : WorkPlan K}
    (run : assignJob haversineMeters constraints rs (planOf rs d) job = .ok plan) :
    ∃ x : Decision K Properties, x.job = job ∧ plan = planOf rs (d ++ [x]) ∧
      Greedily haversineMeters constraints rs d x := by
  rw [assignJob] at run
  cases loop : (slots rs (planOf rs d)).foldlM (consider haversineMeters constraints job)
      ⟨none, false⟩ with
  | error err =>
      rw [loop] at run
      cases run
  | ok choice =>
      obtain ⟨evaluated, best, eligible⟩ := foldlM_consider loop
      replace best : choice.best = _ := best.trans (foldl_improve_map Prod.snd _)
      have value : ∀ i r cost, rs[i]? = some r →
          (roomCost haversineMeters constraints job ((r, manifestOf d r i), i) = some cost ↔
            Eligible haversineMeters constraints r job cost ∧ Fits d r i job) := by
        intro i r cost found
        obtain ⟨result, evaluation⟩ := evaluated _ (slot_mem d found)
        exact roomCost_eq_some_iff evaluation cost
      have able : choice.eligible = true ↔ ∃ (i : ℕ) (r : WorkResource K Properties) (cost : K),
          rs[i]? = some r ∧ Eligible haversineMeters constraints r job cost := by
        rw [eligible]
        constructor
        · rintro (no | ⟨slot, member, cost, able⟩)
          · cases no
          · exact ⟨slot.2, slot.1.1, cost, (mem_slots_planOf.mp member).1, able⟩
        · rintro ⟨i, r, cost, found, able⟩
          exact .inr ⟨((r, manifestOf d r i), i), mem_slots_planOf.mpr ⟨found, rfl⟩, cost, able⟩
      rw [loop] at run
      cases kept : cheapest (roomCost haversineMeters constraints job) (slots rs (planOf rs d)) with
      | none =>
          rw [kept] at best
          refine ⟨⟨job, none, choice.eligible⟩, rfl, ?_, fun i chosen => (nomatch chosen),
            fun _ i r cost found able fits => ?_, able⟩
          · have plan' : plan = { planOf rs d with
                unassigned := (planOf rs d).unassigned ++ [⟨job.id,
                  if choice.eligible then "capacity_exceeded" else "no_eligible_resource"⟩] } := by
              simp only [bind, Except.bind, best, Option.map_none] at run
              exact (Except.ok.inj run).symm
            rw [plan', planOf, planOf, List.filterMap_append]
            simp only [manifestOf_concat]
            rfl
          · have nothing := cheapest_eq_none_iff.mp kept _ (slot_mem d found)
            have something := (value i r cost found).mpr ⟨able, fits⟩
            rw [nothing] at something
            cases something
      | some pick =>
          obtain ⟨⟨⟨r, m⟩, i⟩, cost⟩ := pick
          obtain ⟨costs, before, after, split, dearer, least⟩ := cheapest_spec kept
          have member : ((r, m), i) ∈ slots rs (planOf rs d) := by
            rw [split]
            exact List.mem_append_right _ (List.mem_cons_self ..)
          obtain ⟨found, rfl⟩ : rs[i]? = some r ∧ m = manifestOf d r i := mem_slots_planOf.mp member
          obtain ⟨able', fits⟩ := (value i r cost found).mp costs
          rw [kept] at best
          refine ⟨⟨job, some i, choice.eligible⟩, rfl, ?_, fun i' chosen => ?_,
            fun missing => (nomatch missing), able⟩
          · have plan' : plan = { planOf rs d with
                manifests := (planOf rs d).manifests.modify i (·.add r.capacity job) } := by
              simp only [bind, Except.bind, best, Option.map_some, Prod.map_apply, found] at run
              exact (Except.ok.inj run).symm
            rw [plan', manifests_chosen found ⟨job, some i, choice.eligible⟩ rfl, planOf, planOf,
              List.filterMap_append]
            simp [unassignedOf]
          · obtain rfl := Option.some.inj chosen
            refine ⟨r, cost, found, able', fits, fun i' r' cost' found' able'' fits' => ?_⟩
            have costs' := (value i' r' cost' found').mpr ⟨able'', fits'⟩
            have member' := slot_mem d found'
            have order := slots_sorted rs d
            rw [split] at member' order
            rcases List.mem_append.mp member' with early | late
            · exact .inl (dearer _ early _ costs')
            · rcases List.mem_cons.mp late with same | later
              · obtain ⟨⟨rfl, -⟩, rfl⟩ := by simpa only [Prod.mk.injEq] using same
                exact .inr ⟨Option.some.inj (costs.symm.trans costs'), le_rfl⟩
              · have follows := (List.pairwise_cons.mp (List.pairwise_append.mp order).2.1).1 _ later
                rcases (least _ later _ costs').lt_or_eq with less | same
                · exact .inl less
                · exact .inr ⟨same, follows.le⟩

/-- **A run of jobs leads to a list of greedy decisions**, one for each job in order. -/
theorem assignJobs_spec {jobs : List (WorkJob K Properties)} {plan : WorkPlan K}
    (run : jobs.foldlM (assignJob haversineMeters constraints rs) (planOf rs d) = .ok plan) :
    ∃ e : List (Decision K Properties), e.map Decision.job = jobs ∧ plan = planOf rs (d ++ e) ∧
      ∀ before x after, e = before ++ x :: after →
        Greedily haversineMeters constraints rs (d ++ before) x := by
  induction jobs generalizing d with
  | nil =>
      obtain rfl := Except.ok.inj run
      exact ⟨[], rfl, by rw [List.append_nil], fun before x after split => by simp at split⟩
  | cons job jobs ih =>
      rw [List.foldlM_cons] at run
      cases first : assignJob haversineMeters constraints rs (planOf rs d) job with
      | error err =>
          rw [first] at run
          cases run
      | ok plan₁ =>
          rw [first] at run
          obtain ⟨x, rfl, rfl, greedy⟩ := assignJob_spec first
          obtain ⟨e, rfl, rfl, later⟩ := ih run
          refine ⟨x :: e, rfl, by rw [List.append_assoc]; rfl, fun before y after split => ?_⟩
          cases before with
          | nil =>
              obtain ⟨rfl, -⟩ := List.cons.inj split
              rwa [List.append_nil]
          | cons z before =>
              obtain ⟨rfl, rest⟩ := List.cons.inj split
              have here := later before y after rest
              rwa [List.append_assoc] at here

end Steps

end OsmMini.Core

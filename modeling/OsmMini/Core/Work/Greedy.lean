import OsmMini.Core.Work.Decisions
import OsmMini.Foundations.Grouping

/-!
# What a work plan promises

A plan that is made places every job once, loads no resource beyond what it can take, and
is what taking the jobs in order and giving each to the cheapest eligible resource with
room leads to. It does not depend on the order in which resources and jobs were listed.
-/

set_option autoImplicit false

namespace OsmMini.Core

open OsmMini.Foundations

variable {K Properties : Type}

/-! ## The orders -/

/-- Jobs are compared by falling priority and then by ID. -/
def jobKey (job : WorkJob K Properties) : ℤᵒᵈ ×ₗ String :=
  toLex (OrderDual.toDual job.priority, job.id)

theorem resourceLess_iff (a b : WorkResource K Properties) :
    resourceLess a b = true ↔ a.id < b.id :=
  decide_eq_true_iff

theorem jobLess_iff (a b : WorkJob K Properties) : jobLess a b = true ↔ jobKey a < jobKey b := by
  rw [jobLess, jobKey, jobKey, Prod.Lex.toLex_lt_toLex]
  by_cases same : a.priority = b.priority
  · simp [same]
  · simp [same]

theorem jobKey_nodup {jobs : List (WorkJob K Properties)}
    (distinct : (jobs.map WorkJob.id).Nodup) : (jobs.map jobKey).Nodup := by
  refine List.Nodup.of_map (fun key : ℤᵒᵈ ×ₗ String => (ofLex key).2) ?_
  rwa [List.map_map]

variable [Field K] [LinearOrder K]

/-! ## The specification -/

/-- Whether a plan gives a job to a resource. -/
def WorkPlan.assigns (plan : WorkPlan K) (resourceID jobID : String) : Bool :=
  plan.manifests.any fun m => m.resourceID = resourceID && jobID ∈ m.jobIDs

/-- The jobs that are taken before a job and that the plan gives to a resource. -/
def WorkPlan.ahead (plan : WorkPlan K) (req : WorkPlanRequest K Properties)
    (r : WorkResource K Properties) (job : WorkJob K Properties) : List (WorkJob K Properties) :=
  req.jobs.filter fun j => jobLess j job && plan.assigns r.id j.id

/-- A resource still has room for a job when the jobs ahead of it are placed. -/
def WorkPlan.Room (plan : WorkPlan K) (req : WorkPlanRequest K Properties)
    (r : WorkResource K Properties) (job : WorkJob K Properties) : Prop :=
  job.demand ≤ r.capacity - ((plan.ahead req r job).map WorkJob.demand).sum ∧
    (0 < r.maxJobs → ((plan.ahead req r job).length : ℤ) < r.maxJobs)

/-- What a plan promises for a request. -/
structure GreedyPlan (haversineMeters : Coord K → Coord K → K)
    (constraints : List (Option (AssignmentConstraint K Properties)))
    (req : WorkPlanRequest K Properties) (plan : WorkPlan K) : Prop where
  /-- Every job is placed, and none twice. -/
  placed : (plan.manifests.flatMap WorkManifest.jobIDs ++
    plan.unassigned.map UnassignedWork.jobID).Perm (req.jobs.map WorkJob.id)
  once : (plan.manifests.flatMap WorkManifest.jobIDs ++
    plan.unassigned.map UnassignedWork.jobID).Nodup
  /-- There is one manifest for each resource. -/
  manifests : (plan.manifests.map WorkManifest.resourceID).Perm
    (req.resources.map WorkResource.id)
  /-- A manifest's load is that of its jobs, and within what the resource can take. -/
  load : ∀ m ∈ plan.manifests, ∀ r ∈ req.resources, m.resourceID = r.id →
    m.load = ((req.jobs.filter fun j => j.id ∈ m.jobIDs).map WorkJob.demand).sum ∧
      m.remainingCapacity = r.capacity - m.load ∧ m.load ≤ r.capacity ∧
      (0 < r.maxJobs → (m.jobIDs.length : ℤ) ≤ r.maxJobs)
  /-- A job goes to the cheapest eligible resource that still has room for it, and to the
  one with the least ID of several. -/
  cheapest : ∀ job ∈ req.jobs, ∀ r ∈ req.resources, plan.assigns r.id job.id = true →
    ∃ cost, Eligible haversineMeters constraints r job cost ∧ plan.Room req r job ∧
      ∀ r' ∈ req.resources, ∀ cost', Eligible haversineMeters constraints r' job cost' →
        plan.Room req r' job → cost < cost' ∨ cost = cost' ∧ r.id ≤ r'.id
  /-- A job is left out only when no eligible resource has room for it; whether any is
  eligible decides the reason. -/
  left : ∀ job ∈ req.jobs, ∀ reason, ⟨job.id, reason⟩ ∈ plan.unassigned →
    (∀ r ∈ req.resources, ∀ cost, Eligible haversineMeters constraints r job cost →
      ¬plan.Room req r job) ∧
    (reason = "capacity_exceeded" ↔
      ∃ r ∈ req.resources, ∃ cost, Eligible haversineMeters constraints r job cost) ∧
    (reason = "capacity_exceeded" ∨ reason = "no_eligible_resource")

/-! ## The checks -/

def validResource (r : WorkResource K Properties) : Bool :=
  !blank r.id && validLocation r.location && finiteNonnegative r.capacity && 0 ≤ r.maxJobs

def validJob (j : WorkJob K Properties) : Bool :=
  !blank j.id && validLocation j.location && finiteNonnegative j.demand

theorem checkResources_ok_iff {resources : List (WorkResource K Properties)}
    {seen : List String} : checkResources resources seen = .ok () ↔
      (resources.map WorkResource.id).Nodup ∧
        ∀ r ∈ resources, r.id ∉ seen ∧ validResource r = true := by
  induction resources generalizing seen with
  | nil => simp [checkResources]
  | cons r resources ih =>
      have refused : (blank r.id || decide (r.id ∈ seen) || !validLocation r.location ||
          !finiteNonnegative r.capacity || decide (r.maxJobs < 0)) = false ↔
          r.id ∉ seen ∧ validResource r = true := by
        simp only [validResource, Bool.or_eq_false_iff, Bool.and_eq_true, Bool.not_eq_false',
          Bool.not_eq_true', decide_eq_false_iff_not, decide_eq_true_eq, not_lt]
        tauto
      rw [checkResources, List.map_cons, List.nodup_cons, List.forall_mem_cons, ← refused]
      split_ifs with invalid
      · simp [invalid]
      · rw [ih, eq_false_of_ne_true invalid]
        simp only [List.mem_cons, not_or, List.mem_map, not_exists, not_and, true_and]
        constructor
        · rintro ⟨distinct, rest⟩
          exact ⟨⟨fun r' member same => (rest r' member).1.1 same, distinct⟩,
            fun r' member => ⟨(rest r' member).1.2, (rest r' member).2⟩⟩
        · rintro ⟨⟨fresh, distinct⟩, rest⟩
          exact ⟨distinct, fun r' member =>
            ⟨⟨fresh r' member, (rest r' member).1⟩, (rest r' member).2⟩⟩

theorem checkJobs_ok_iff {jobs : List (WorkJob K Properties)} {seen : List String} :
    checkJobs jobs seen = .ok () ↔
      (jobs.map WorkJob.id).Nodup ∧ ∀ j ∈ jobs, j.id ∉ seen ∧ validJob j = true := by
  induction jobs generalizing seen with
  | nil => simp [checkJobs]
  | cons j jobs ih =>
      have refused : (blank j.id || decide (j.id ∈ seen) || !validLocation j.location ||
          !finiteNonnegative j.demand) = false ↔ j.id ∉ seen ∧ validJob j = true := by
        simp only [validJob, Bool.or_eq_false_iff, Bool.and_eq_true, Bool.not_eq_false',
          Bool.not_eq_true', decide_eq_false_iff_not]
        tauto
      rw [checkJobs, List.map_cons, List.nodup_cons, List.forall_mem_cons, ← refused]
      split_ifs with invalid
      · simp [invalid]
      · rw [ih, eq_false_of_ne_true invalid]
        simp only [List.mem_cons, not_or, List.mem_map, not_exists, not_and, true_and]
        constructor
        · rintro ⟨distinct, rest⟩
          exact ⟨⟨fun j' member same => (rest j' member).1.1 same, distinct⟩,
            fun j' member => ⟨(rest j' member).1.2, (rest j' member).2⟩⟩
        · rintro ⟨⟨fresh, distinct⟩, rest⟩
          exact ⟨distinct, fun j' member =>
            ⟨⟨fresh j' member, (rest j' member).1⟩, (rest j' member).2⟩⟩

/-! ## The decisions behind a plan -/

/-- Decisions about the jobs of a valid request, in their order and each greedy. -/
structure Explained (haversineMeters : Coord K → Coord K → K)
    (constraints : List (Option (AssignmentConstraint K Properties)))
    (req : WorkPlanRequest K Properties) (d : List (Decision K Properties)) : Prop where
  resourceIDs : (req.resources.map WorkResource.id).Nodup
  able : ∀ r ∈ req.resources, 0 ≤ r.capacity ∧ 0 ≤ r.maxJobs
  jobIDs : (req.jobs.map WorkJob.id).Nodup
  jobs : d.map Decision.job = sortSlice jobLess req.jobs
  greedy : ∀ before x after, d = before ++ x :: after →
    Greedily haversineMeters constraints (sortSlice resourceLess req.resources) before x

variable {haversineMeters : Coord K → Coord K → K}
  {constraints : List (Option (AssignmentConstraint K Properties))}
  {req : WorkPlanRequest K Properties} {plan : WorkPlan K}

omit [LinearOrder K] in
theorem emptyPlan_eq (rs : List (WorkResource K Properties)) : emptyPlan rs = planOf rs [] := by
  rw [emptyPlan, planOf]
  congr 1
  refine List.ext_getElem (by simp) fun i _ _ => ?_
  simp [manifestOf, jobsAt, loadAt]

/-- A plan is made when the request is small enough and valid and no job fails. -/
theorem planWork_ok_iff : planWork haversineMeters constraints req = .ok plan ↔
    (req.resources.length ≤ 256 ∧ req.jobs.length ≤ 5000) ∧
      checkResources req.resources [] = .ok () ∧ checkJobs req.jobs [] = .ok () ∧
      (sortSlice jobLess req.jobs).foldlM
        (assignJob haversineMeters constraints (sortSlice resourceLess req.resources))
        (emptyPlan (sortSlice resourceLess req.resources)) = .ok plan := by
  rw [planWork]
  by_cases large : (256 < req.resources.length || 5000 < req.jobs.length) = true
  · rw [if_pos large]
    refine ⟨fun run => (nomatch run), fun ⟨⟨few, short⟩, _⟩ => ?_⟩
    simp only [Bool.or_eq_true, decide_eq_true_eq] at large
    omega
  · rw [if_neg large]
    simp only [Bool.or_eq_true, decide_eq_true_eq, not_or, not_lt] at large
    cases first : checkResources req.resources [] with
    | error err => exact ⟨fun run => (nomatch run), fun ⟨_, valid, _⟩ => (nomatch valid)⟩
    | ok _ =>
        cases second : checkJobs req.jobs [] with
        | error err => exact ⟨fun run => (nomatch run), fun ⟨_, _, valid, _⟩ => (nomatch valid)⟩
        | ok _ => exact ⟨fun run => ⟨large, rfl, rfl, run⟩, fun ⟨_, _, _, run⟩ => run⟩

theorem planWork_explained (run : planWork haversineMeters constraints req = .ok plan) :
    ∃ d, Explained haversineMeters constraints req d ∧
      plan = planOf (sortSlice resourceLess req.resources) d := by
  obtain ⟨-, first, second, made⟩ := planWork_ok_iff.mp run
  rw [emptyPlan_eq] at made
  obtain ⟨d, jobs, rfl, greedy⟩ := assignJobs_spec made
  obtain ⟨resourceIDs, valid⟩ := checkResources_ok_iff.mp first
  refine ⟨d, ⟨resourceIDs, fun r member => ?_, (checkJobs_ok_iff.mp second).1, jobs, ?_⟩, rfl⟩
  · have able := (valid r member).2
    simp only [validResource, finiteNonnegative, Bool.and_eq_true, decide_eq_true_eq] at able
    exact ⟨able.1.2, able.2⟩
  · simpa using greedy

/-- **The order of the input does not matter.** -/
theorem planWork_perm {req' : WorkPlanRequest K Properties}
    (resources : req'.resources.Perm req.resources) (jobs : req'.jobs.Perm req.jobs)
    (run : planWork haversineMeters constraints req = .ok plan) :
    planWork haversineMeters constraints req' = .ok plan := by
  obtain ⟨small, first, second, made⟩ := planWork_ok_iff.mp run
  rw [checkResources_ok_iff] at first
  rw [checkJobs_ok_iff] at second
  refine planWork_ok_iff.mpr ⟨?_, checkResources_ok_iff.mpr ⟨?_, fun r member => ?_⟩,
    checkJobs_ok_iff.mpr ⟨?_, fun j member => ?_⟩, ?_⟩
  · rwa [resources.length_eq, jobs.length_eq]
  · exact (resources.map _).nodup_iff.mpr first.1
  · exact first.2 r (resources.mem_iff.mp member)
  · exact (jobs.map _).nodup_iff.mpr second.1
  · exact second.2 j (jobs.mem_iff.mp member)
  · rwa [sortSlice_eq_of_perm resourceLess_iff first.1 resources,
      sortSlice_eq_of_perm jobLess_iff (jobKey_nodup second.1) jobs]

/-! ## What the decisions lead to -/

namespace Explained

variable {d : List (Decision K Properties)}

theorem mem_jobs (explained : Explained haversineMeters constraints req d)
    {job : WorkJob K Properties} : job ∈ d.map Decision.job ↔ job ∈ req.jobs := by
  rw [explained.jobs, mem_sortSlice]

theorem job_eq (explained : Explained haversineMeters constraints req d)
    {a b : WorkJob K Properties} (first : a ∈ req.jobs) (second : b ∈ req.jobs)
    (same : a.id = b.id) : a = b :=
  List.inj_on_of_nodup_map explained.jobIDs first second same

theorem jobs_nodup (explained : Explained haversineMeters constraints req d) :
    (d.map Decision.job).Nodup := by
  rw [explained.jobs, (sortSlice_perm ..).nodup_iff]
  exact explained.jobIDs.of_map _

theorem mem_job (explained : Explained haversineMeters constraints req d)
    {x : Decision K Properties} (member : x ∈ d) : x.job ∈ req.jobs :=
  explained.mem_jobs.mp (List.mem_map_of_mem member)

/-- Every decision is greedy with respect to those before it. -/
theorem decision (explained : Explained haversineMeters constraints req d)
    {x : Decision K Properties} (member : x ∈ d) : ∃ before after, d = before ++ x :: after ∧
      Greedily haversineMeters constraints (sortSlice resourceLess req.resources) before x := by
  obtain ⟨before, after, split⟩ := List.append_of_mem member
  exact ⟨before, after, split, explained.greedy before x after split⟩

/-- A resource has one place. -/
theorem place_eq (explained : Explained haversineMeters constraints req d) {i i' : ℕ}
    {r r' : WorkResource K Properties} (found : (sortSlice resourceLess req.resources)[i]? = some r)
    (found' : (sortSlice resourceLess req.resources)[i']? = some r') :
    i ≤ i' ↔ r.id ≤ r'.id := by
  have sorted := sortSlice_strict resourceLess_iff explained.resourceIDs
  obtain ⟨inside, rfl⟩ := List.getElem?_eq_some_iff.mp found
  obtain ⟨inside', rfl⟩ := List.getElem?_eq_some_iff.mp found'
  have less := List.pairwise_iff_getElem.mp sorted
  constructor
  · intro le
    rcases le.lt_or_eq with before | rfl
    · exact (less i i' inside inside' before).le
    · exact le_rfl
  · intro le
    by_contra after
    exact (less i' i inside' inside (not_le.mp after)).not_ge le

omit [Field K] [LinearOrder K] in
theorem mem_jobsAt {i : ℕ} {job : WorkJob K Properties} :
    job ∈ jobsAt d i ↔ ∃ x ∈ d, x.choice = some i ∧ x.job = job := by
  simp [jobsAt, and_assoc]

/-- The plan gives a job to a resource when the decision about the job chose its place. -/
theorem assigns_iff (explained : Explained haversineMeters constraints req d) {i : ℕ}
    {r : WorkResource K Properties} (found : (sortSlice resourceLess req.resources)[i]? = some r)
    {job : WorkJob K Properties} (member : job ∈ req.jobs) :
    (planOf (sortSlice resourceLess req.resources) d).assigns r.id job.id = true ↔
      job ∈ jobsAt d i := by
  simp only [WorkPlan.assigns, planOf, List.any_map, List.any_eq_true, Function.comp_apply,
    Bool.and_eq_true, decide_eq_true_eq, manifestOf]
  constructor
  · rintro ⟨⟨r', i'⟩, slot, same, inside⟩
    have found' := List.mem_zipIdx_iff_getElem?.mp slot
    have here : i' = i := le_antisymm ((explained.place_eq found' found).mpr same.le)
      ((explained.place_eq found found').mpr same.ge)
    obtain ⟨job', at', id⟩ := List.mem_map.mp inside
    obtain ⟨x, decided, -, rfl⟩ := mem_jobsAt.mp at'
    rwa [← here, ← explained.job_eq (explained.mem_job decided) member id]
  · intro inside
    exact ⟨(r, i), List.mem_zipIdx_iff_getElem?.mpr found, rfl, List.mem_map_of_mem inside⟩

omit [Field K] [LinearOrder K] in
theorem jobsAt_sublist (i : ℕ) : (jobsAt d i).Sublist (d.map Decision.job) :=
  (List.filter_sublist ..).map _

/-- The jobs ahead of a job that a resource got are those decided before it. -/
theorem ahead_perm (explained : Explained haversineMeters constraints req d) {i : ℕ}
    {r : WorkResource K Properties} (found : (sortSlice resourceLess req.resources)[i]? = some r)
    {before after : List (Decision K Properties)} {x : Decision K Properties}
    (split : d = before ++ x :: after) :
    ((planOf (sortSlice resourceLess req.resources) d).ahead req r x.job).Perm
      (jobsAt before i) := by
  have sorted := sortSlice_strict jobLess_iff (jobKey_nodup explained.jobIDs)
  rw [← explained.jobs, split, List.map_append, List.map_cons] at sorted
  obtain ⟨-, later, apart⟩ := List.pairwise_append.mp sorted
  have distinct := explained.jobs_nodup
  rw [split, List.map_append] at distinct
  refine (List.perm_ext_iff_of_nodup ?_ ?_).mpr fun job => ?_
  · exact (explained.jobIDs.of_map _).filter _
  · exact (List.nodup_append.mp distinct).1.sublist (jobsAt_sublist i)
  · rw [WorkPlan.ahead, List.mem_filter, Bool.and_eq_true, jobLess_iff]
    constructor
    · rintro ⟨member, less, assigned⟩
      rw [explained.assigns_iff found member] at assigned
      obtain ⟨y, decided, chosen, rfl⟩ := mem_jobsAt.mp assigned
      rw [split] at decided
      rcases List.mem_append.mp decided with early | late
      · exact mem_jobsAt.mpr ⟨y, early, chosen, rfl⟩
      · rcases List.mem_cons.mp late with rfl | past
        · exact absurd less (lt_irrefl _)
        · exact absurd less
            ((List.pairwise_cons.mp later).1 _ (List.mem_map_of_mem past)).not_gt
    · intro inside
      obtain ⟨y, early, chosen, rfl⟩ := mem_jobsAt.mp inside
      have decided : y ∈ d := split ▸ List.mem_append_left _ early
      have member := explained.mem_job decided
      refine ⟨member, apart _ (List.mem_map_of_mem early) _ (List.mem_cons_self ..), ?_⟩
      exact (explained.assigns_iff found member).mpr (mem_jobsAt.mpr ⟨y, decided, chosen, rfl⟩)

theorem room_iff (explained : Explained haversineMeters constraints req d) {i : ℕ}
    {r : WorkResource K Properties} (found : (sortSlice resourceLess req.resources)[i]? = some r)
    {before after : List (Decision K Properties)} {x : Decision K Properties}
    (split : d = before ++ x :: after) :
    (planOf (sortSlice resourceLess req.resources) d).Room req r x.job ↔
      Fits before r i x.job := by
  have perm := explained.ahead_perm found split
  rw [WorkPlan.Room, (perm.map _).sum_eq, perm.length_eq]
  rfl

/-- No resource is loaded beyond what it can take. -/
theorem loadAt_le [IsStrictOrderedRing K] {rs : List (WorkResource K Properties)} {i : ℕ}
    {r : WorkResource K Properties} (found : rs[i]? = some r) (able : 0 ≤ r.capacity ∧ 0 ≤ r.maxJobs)
    (greedy : ∀ before x after, d = before ++ x :: after →
      Greedily haversineMeters constraints rs before x) :
    loadAt d i ≤ r.capacity ∧ (0 < r.maxJobs → ((jobsAt d i).length : ℤ) ≤ r.maxJobs) := by
  induction d using List.reverseRecOn with
  | nil => exact ⟨able.1, fun _ => able.2⟩
  | append_singleton d x ih =>
      have last := greedy d x [] rfl
      have earlier := ih fun before y after split =>
        greedy before y (after ++ [x]) (by rw [split, List.append_assoc, List.cons_append])
      by_cases here : x.choice = some i
      · obtain ⟨r', cost, found', -, fits, -⟩ := last.chosen i here
        obtain rfl := Option.some.inj (found.symm.trans found')
        have grown : jobsAt (d ++ [x]) i = jobsAt d i ++ [x.job] := by simp [jobsAt, here]
        rw [loadAt, grown, List.map_append, List.sum_append, List.map_singleton,
          List.sum_singleton, List.length_append, List.length_singleton]
        refine ⟨?_, fun limited => ?_⟩
        · have room := fits.1
          rw [loadAt] at room
          linarith
        · have room := fits.2 limited
          push_cast
          omega
      · have same : jobsAt (d ++ [x]) i = jobsAt d i := by simp [jobsAt, here]
        rw [loadAt, same]
        exact earlier

/-- Every job is in one manifest, or left out. -/
theorem placed (explained : Explained haversineMeters constraints req d) :
    ((planOf (sortSlice resourceLess req.resources) d).manifests.flatMap WorkManifest.jobIDs ++
      (planOf (sortSlice resourceLess req.resources) d).unassigned.map UnassignedWork.jobID).Perm
      (req.jobs.map WorkJob.id) := by
  have below : ∀ x ∈ d, ∀ i, x.choice = some i →
      i < (sortSlice resourceLess req.resources).length := by
    intro x member i chosen
    obtain ⟨before, after, -, greedy⟩ := explained.decision member
    obtain ⟨r, cost, found, -⟩ := greedy.chosen i chosen
    exact (List.getElem?_eq_some_iff.mp found).1
  have all := (groups_perm Decision.choice (sortSlice resourceLess req.resources).length d).map
    fun x => x.job.id
  rw [ungrouped_eq Decision.choice below, List.map_append, List.map_flatMap] at all
  have manifests : (planOf (sortSlice resourceLess req.resources) d).manifests.flatMap
      WorkManifest.jobIDs = (List.range (sortSlice resourceLess req.resources).length).flatMap
        fun i => (d.filter fun x => x.choice = some i).map fun x => x.job.id := by
    have places : (sortSlice resourceLess req.resources).zipIdx.map Prod.snd =
        List.range (sortSlice resourceLess req.resources).length :=
      (List.zipIdx_map_snd 0 _).trans (List.range_eq_range' ▸ rfl)
    rw [← places, List.flatMap_map, planOf, List.flatMap_map]
    refine List.flatMap_congr fun slot _ => ?_
    simp [manifestOf, jobsAt, Function.comp_def]
  have unassigned : (planOf (sortSlice resourceLess req.resources) d).unassigned.map
      UnassignedWork.jobID = (d.filter fun x => x.choice = none).map fun x => x.job.id := by
    rw [planOf, List.map_filterMap, ← List.filterMap_eq_map, List.filterMap_filter]
    refine List.filterMap_congr fun x _ => ?_
    by_cases left : x.choice = none
    · simp [unassignedOf, left]
    · simp [unassignedOf, left]
  rw [manifests, unassigned]
  refine all.trans ?_
  have jobs : (d.map fun x => x.job.id) = (sortSlice jobLess req.jobs).map WorkJob.id := by
    rw [← explained.jobs, List.map_map]
    rfl
  rw [jobs]
  exact (sortSlice_perm ..).map _

theorem load (explained : Explained haversineMeters constraints req d) [IsStrictOrderedRing K]
    {m : WorkManifest K}
    (member : m ∈ (planOf (sortSlice resourceLess req.resources) d).manifests)
    {r : WorkResource K Properties} (resource : r ∈ req.resources) (same : m.resourceID = r.id) :
    m.load = ((req.jobs.filter fun j => j.id ∈ m.jobIDs).map WorkJob.demand).sum ∧
      m.remainingCapacity = r.capacity - m.load ∧ m.load ≤ r.capacity ∧
      (0 < r.maxJobs → (m.jobIDs.length : ℤ) ≤ r.maxJobs) := by
  obtain ⟨⟨r', i⟩, slot, rfl⟩ := List.mem_map.mp member
  have found := List.mem_zipIdx_iff_getElem?.mp slot
  have listed := mem_sortSlice.mp (List.mem_of_getElem? found)
  obtain rfl : r' = r := List.inj_on_of_nodup_map explained.resourceIDs listed resource same
  obtain ⟨within, few⟩ := loadAt_le found (explained.able r' resource) explained.greedy
  have theirs : (req.jobs.filter fun j => j.id ∈ (manifestOf d r' i).jobIDs).Perm
      (jobsAt d i) := by
    refine (List.perm_ext_iff_of_nodup ((explained.jobIDs.of_map _).filter _)
      (explained.jobs_nodup.sublist (jobsAt_sublist i))).mpr fun job => ?_
    rw [List.mem_filter, decide_eq_true_eq]
    constructor
    · rintro ⟨known, id⟩
      obtain ⟨job', inside, same⟩ := List.mem_map.mp id
      obtain ⟨x, decided, -, rfl⟩ := mem_jobsAt.mp inside
      rwa [← explained.job_eq (explained.mem_job decided) known same]
    · intro inside
      obtain ⟨x, decided, -, rfl⟩ := mem_jobsAt.mp inside
      exact ⟨explained.mem_job decided, List.mem_map_of_mem inside⟩
  refine ⟨?_, rfl, within, fun limited => ?_⟩
  · exact (theirs.map _).sum_eq.symm
  · rw [manifestOf, List.length_map]
    exact few limited

theorem cheapest (explained : Explained haversineMeters constraints req d)
    {job : WorkJob K Properties} (member : job ∈ req.jobs) {r : WorkResource K Properties}
    (resource : r ∈ req.resources)
    (assigned : (planOf (sortSlice resourceLess req.resources) d).assigns r.id job.id = true) :
    ∃ cost, Eligible haversineMeters constraints r job cost ∧
      (planOf (sortSlice resourceLess req.resources) d).Room req r job ∧
      ∀ r' ∈ req.resources, ∀ cost', Eligible haversineMeters constraints r' job cost' →
        (planOf (sortSlice resourceLess req.resources) d).Room req r' job →
        cost < cost' ∨ cost = cost' ∧ r.id ≤ r'.id := by
  obtain ⟨i, found⟩ := List.mem_iff_getElem?.mp (mem_sortSlice.mpr resource)
  obtain ⟨x, decided, chosen, rfl⟩ := mem_jobsAt.mp ((explained.assigns_iff found member).mp assigned)
  obtain ⟨before, after, split, greedy⟩ := explained.decision decided
  obtain ⟨r₁, cost, found₁, able, fits, least⟩ := greedy.chosen i chosen
  obtain rfl := Option.some.inj (found.symm.trans found₁)
  refine ⟨cost, able, (explained.room_iff found split).mpr fits,
    fun r' resource' cost' able' room => ?_⟩
  obtain ⟨i', found'⟩ := List.mem_iff_getElem?.mp (mem_sortSlice.mpr resource')
  rcases least i' r' cost' found' able' ((explained.room_iff found' split).mp room) with
    less | ⟨same, first⟩
  · exact .inl less
  · exact .inr ⟨same, (explained.place_eq found found').mp first⟩

theorem left (explained : Explained haversineMeters constraints req d)
    {job : WorkJob K Properties} (member : job ∈ req.jobs) {reason : String}
    (listed : ⟨job.id, reason⟩ ∈ (planOf (sortSlice resourceLess req.resources) d).unassigned) :
    (∀ r ∈ req.resources, ∀ cost, Eligible haversineMeters constraints r job cost →
      ¬(planOf (sortSlice resourceLess req.resources) d).Room req r job) ∧
    (reason = "capacity_exceeded" ↔
      ∃ r ∈ req.resources, ∃ cost, Eligible haversineMeters constraints r job cost) ∧
    (reason = "capacity_exceeded" ∨ reason = "no_eligible_resource") := by
  obtain ⟨x, decided, report⟩ := List.mem_filterMap.mp listed
  have out : x.choice = none := by
    by_contra placed
    rw [unassignedOf, if_neg placed] at report
    cases report
  rw [unassignedOf, if_pos out] at report
  obtain ⟨id, rfl⟩ := UnassignedWork.mk.inj (Option.some.inj report)
  obtain rfl := explained.job_eq (explained.mem_job decided) member id
  obtain ⟨before, after, split, greedy⟩ := explained.decision decided
  refine ⟨fun r resource cost able room => ?_, ?_, ?_⟩
  · obtain ⟨i, found⟩ := List.mem_iff_getElem?.mp (mem_sortSlice.mpr resource)
    exact greedy.left out i r cost found able ((explained.room_iff found split).mp room)
  · have listed : (∃ (i : ℕ) (r : WorkResource K Properties) (cost : K),
        (sortSlice resourceLess req.resources)[i]? = some r ∧
          Eligible haversineMeters constraints r x.job cost) ↔
        ∃ r ∈ req.resources, ∃ cost, Eligible haversineMeters constraints r x.job cost := by
      constructor
      · rintro ⟨i, r, cost, found, able⟩
        exact ⟨r, mem_sortSlice.mp (List.mem_of_getElem? found), cost, able⟩
      · rintro ⟨r, resource, cost, able⟩
        obtain ⟨i, found⟩ := List.mem_iff_getElem?.mp (mem_sortSlice.mpr resource)
        exact ⟨i, r, cost, found, able⟩
    rw [← listed, ← greedy.eligible]
    by_cases able : x.eligible
    · simp [able]
    · simp [able]
  · by_cases able : x.eligible
    · exact .inl (if_pos able)
    · exact .inr (if_neg able)

end Explained

/-! ## The promise -/

/-- **A plan is valid and greedy, and does not depend on the order of the input.** -/
theorem planWork_greedy [IsStrictOrderedRing K]
    (run : planWork haversineMeters constraints req = .ok plan) :
    GreedyPlan haversineMeters constraints req plan ∧
      ∀ req' : WorkPlanRequest K Properties, req'.resources.Perm req.resources →
        req'.jobs.Perm req.jobs → planWork haversineMeters constraints req' = .ok plan := by
  obtain ⟨d, explained, rfl⟩ := planWork_explained run
  refine ⟨⟨explained.placed, explained.placed.nodup_iff.mpr explained.jobIDs, ?_,
    fun m member r resource same => explained.load member resource same,
    fun job member r resource assigned => explained.cheapest member resource assigned,
    fun job member reason listed => explained.left member listed⟩,
    fun req' resources jobs => planWork_perm resources jobs run⟩
  have ids : (planOf (sortSlice resourceLess req.resources) d).manifests.map
      WorkManifest.resourceID = (sortSlice resourceLess req.resources).map WorkResource.id := by
    rw [planOf, List.map_map]
    calc _ = (sortSlice resourceLess req.resources).zipIdx.map (WorkResource.id ∘ Prod.fst) := rfl
      _ = _ := by rw [← List.map_map, List.zipIdx_map_fst]
  rw [ids]
  exact (sortSlice_perm ..).map _

/-- Two vehicles at the place of three jobs: the first takes what it has room for, and the
job that needs a skill nobody has stays out. -/
def depotRequest : WorkPlanRequest ℚ Unit where
  resources := [⟨"van", ⟨48, 12⟩, 4, 0, [], ()⟩, ⟨"bike", ⟨48, 12⟩, 2, 1, ["narrow"], ()⟩]
  jobs := [⟨"parcel", ⟨48, 12⟩, 1, 0, [], ()⟩, ⟨"crate", ⟨48, 12⟩, 4, 5, [], ()⟩,
    ⟨"piano", ⟨48, 12⟩, 1, 9, ["crane"], ()⟩]

/-- Places that are the same are at no distance. -/
def samePlace (a b : Coord ℚ) : ℚ := if a = b then 0 else 1

theorem planWork_greedy_depot : ∃ plan : WorkPlan ℚ,
    planWork samePlace [some ⟨fun _ _ => true, fun _ _ => 3⟩] depotRequest = .ok plan ∧
      GreedyPlan samePlace [some ⟨fun _ _ => true, fun _ _ => 3⟩] depotRequest plan ∧
      plan.assigns "van" "crate" = true ∧ plan.assigns "bike" "parcel" = true ∧
      plan.unassigned = [⟨"piano", "no_eligible_resource"⟩] := by
  have run : planWork samePlace [some ⟨fun _ _ => true, fun _ _ => 3⟩] depotRequest = .ok
      ⟨"priority-greedy", "great-circle-from-resource",
        [⟨"bike", ["parcel"], 1, 1⟩, ⟨"van", ["crate"], 4, 0⟩],
        [⟨"piano", "no_eligible_resource"⟩]⟩ := by decide +kernel
  exact ⟨_, run, (planWork_greedy run).1, by decide +kernel, by decide +kernel, rfl⟩

end OsmMini.Core

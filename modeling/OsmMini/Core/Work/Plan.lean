import OsmMini.Foundations.Literals
import OsmMini.Core.Types
import OsmMini.Foundations.Cheapest
import OsmMini.Foundations.SortSlice
import OsmMini.Foundations.Text

/-!
# Allocating work to resources

A request lists resources, such as vehicles, and jobs. The jobs are taken by falling
priority; each goes to the cheapest resource that may do it and still has room for it.
Constraints decide who may do what and add to the cost. Numbers are exact, and the
distance between two places is a parameter.
-/

set_option autoImplicit false

namespace OsmMini.Core

open OsmMini.Foundations

variable {K Properties : Type}

/-! ## Requests and plans -/

structure WorkResource (K Properties : Type) where
  id : String
  location : Coord K
  capacity : K
  /-- Zero means unlimited. -/
  maxJobs : ℤ
  skills : List String
  properties : Properties

structure WorkJob (K Properties : Type) where
  id : String
  location : Coord K
  demand : K
  /-- Higher values are assigned first. -/
  priority : ℤ
  requiredSkills : List String
  properties : Properties

structure WorkPlanRequest (K Properties : Type) where
  resources : List (WorkResource K Properties)
  jobs : List (WorkJob K Properties)

structure WorkManifest (K : Type) where
  resourceID : String
  jobIDs : List String
  load : K
  remainingCapacity : K
  deriving DecidableEq

structure UnassignedWork where
  jobID : String
  reason : String
  deriving DecidableEq

structure WorkPlan (K : Type) where
  algorithm : String
  distanceModel : String
  manifests : List (WorkManifest K)
  unassigned : List UnassignedWork
  deriving DecidableEq

structure Vehicle (Properties : Type) where
  id : String
  properties : Properties

structure Shipment (K Properties : Type) where
  id : String
  lat : K
  lon : K
  properties : Properties

/-- A rule of assignment: it accepts a shipment for a vehicle, and then has a cost. -/
structure AssignmentConstraint (K Properties : Type) where
  accept : Vehicle Properties → Shipment K Properties → Bool
  cost : Vehicle Properties → Shipment K Properties → K

/-- Why a plan is refused. -/
inductive WorkPlanError
  /-- work plan: maximum 256 resources and 5000 jobs -/
  | tooLarge
  /-- work plan: invalid or duplicate resource, with its ID -/
  | resource (id : String)
  /-- work plan: invalid or duplicate job, with its ID -/
  | job (id : String)
  /-- work plan: nil constraint -/
  | nilConstraint
  /-- work plan: invalid constraint cost -/
  | constraintCost
  /-- work plan: cost overflow -/
  | costOverflow
  deriving DecidableEq

/-! ## The order of resources and of jobs -/

def resourceLess (a b : WorkResource K Properties) : Bool := a.id < b.id

def jobLess (a b : WorkJob K Properties) : Bool :=
  if a.priority ≠ b.priority then b.priority < a.priority else a.id < b.id

section Planning

variable [Field K] [LinearOrder K] (haversineMeters : Coord K → Coord K → K)
  (constraints : List (Option (AssignmentConstraint K Properties)))

/-! ## Checking a request -/

/-- Exact numbers are finite. -/
def finiteNonnegative (v : K) : Bool := 0 ≤ v

def validLocation (c : Coord K) : Bool := |c.lat| ≤ 90 && |c.lon| ≤ 180

def blank (id : String) : Bool := Text.trimSpace id.toList = []

def checkResources : List (WorkResource K Properties) → List String → Except WorkPlanError Unit
  | [], _ => .ok ()
  | r :: rest, seen =>
    if blank r.id || r.id ∈ seen || !validLocation r.location || !finiteNonnegative r.capacity ||
        r.maxJobs < 0 then
      .error (.resource r.id)
    else checkResources rest (r.id :: seen)

def checkJobs : List (WorkJob K Properties) → List String → Except WorkPlanError Unit
  | [], _ => .ok ()
  | j :: rest, seen =>
    if blank j.id || j.id ∈ seen || !validLocation j.location || !finiteNonnegative j.demand then
      .error (.job j.id)
    else checkJobs rest (j.id :: seen)

/-! ## The cost of a job for a resource -/

def WorkResource.vehicle (r : WorkResource K Properties) : Vehicle Properties :=
  ⟨r.id, r.properties⟩

def WorkJob.shipment (job : WorkJob K Properties) : Shipment K Properties :=
  ⟨job.id, job.location.lat, job.location.lon, job.properties⟩

/-- Add the constraints' costs, or stop at one that does not accept. -/
def constrainedCost (vehicle : Vehicle Properties) (shipment : Shipment K Properties) :
    List (Option (AssignmentConstraint K Properties)) → K → Except WorkPlanError (Option K)
  | [], cost => .ok (some cost)
  | none :: _, _ => .error .nilConstraint
  | some c :: rest, cost =>
    if !c.accept vehicle shipment then .ok none
    else if !finiteNonnegative (c.cost vehicle shipment) then .error .constraintCost
    else constrainedCost vehicle shipment rest (cost + c.cost vehicle shipment)

def skilled (r : WorkResource K Properties) (job : WorkJob K Properties) : Bool :=
  job.requiredSkills.all fun skill => skill ∈ r.skills

/-- The cost of a job for a resource; none when the resource may not do it. -/
def evaluate (r : WorkResource K Properties) (job : WorkJob K Properties) :
    Except WorkPlanError (Option K) :=
  if !skilled r job then .ok none
  else
    match constrainedCost r.vehicle job.shipment constraints
        (haversineMeters r.location job.location) with
    | .error err => .error err
    | .ok none => .ok none
    | .ok (some cost) =>
      if !finiteNonnegative cost then .error .costOverflow else .ok (some cost)

/-! ## The allocation -/

/-- A resource with what is planned for it, and its place in the plan. -/
abbrev Slot (K Properties : Type) := (WorkResource K Properties × WorkManifest K) × ℕ

/-- There is no room left for a job. -/
def full (job : WorkJob K Properties) (slot : Slot K Properties) : Bool :=
  slot.1.2.remainingCapacity < job.demand ||
    0 < slot.1.1.maxJobs && slot.1.1.maxJobs ≤ slot.1.2.jobIDs.length

/-- The best place for a job so far, and whether any resource may do it. -/
structure Choice (K : Type) where
  best : Option (ℕ × K)
  eligible : Bool

def consider (job : WorkJob K Properties) (choice : Choice K) (slot : Slot K Properties) :
    Except WorkPlanError (Choice K) :=
  match evaluate haversineMeters constraints slot.1.1 job with
  | .error err => .error err
  | .ok none => .ok choice
  | .ok (some cost) =>
    if full job slot then .ok { choice with eligible := true }
    else .ok ⟨improve choice.best slot.2 cost, true⟩

def slots (resources : List (WorkResource K Properties)) (plan : WorkPlan K) :
    List (Slot K Properties) :=
  (resources.zip plan.manifests).zipIdx

/-- Add a job to a manifest. -/
def WorkManifest.add (m : WorkManifest K) (capacity : K) (job : WorkJob K Properties) :
    WorkManifest K where
  resourceID := m.resourceID
  jobIDs := m.jobIDs ++ [job.id]
  load := m.load + job.demand
  remainingCapacity := capacity - (m.load + job.demand)

def assignJob (resources : List (WorkResource K Properties)) (plan : WorkPlan K)
    (job : WorkJob K Properties) : Except WorkPlanError (WorkPlan K) := do
  let choice ← (slots resources plan).foldlM (consider haversineMeters constraints job)
    ⟨none, false⟩
  match choice.best with
  | none =>
    let reason := if choice.eligible then "capacity_exceeded" else "no_eligible_resource"
    return { plan with unassigned := plan.unassigned ++ [⟨job.id, reason⟩] }
  | some (best, _) =>
    match resources[best]? with
    | none => return plan
    | some r =>
      return { plan with manifests := plan.manifests.modify best (·.add r.capacity job) }

def emptyPlan (resources : List (WorkResource K Properties)) : WorkPlan K where
  algorithm := "priority-greedy"
  distanceModel := "great-circle-from-resource"
  manifests := resources.map fun r => ⟨r.id, [], 0, r.capacity⟩
  unassigned := []

def planWork (req : WorkPlanRequest K Properties) : Except WorkPlanError (WorkPlan K) := do
  if 256 < req.resources.length || 5000 < req.jobs.length then
    throw .tooLarge
  checkResources req.resources []
  checkJobs req.jobs []
  let resources := sortSlice resourceLess req.resources
  let jobs := sortSlice jobLess req.jobs
  jobs.foldlM (assignJob haversineMeters constraints resources) (emptyPlan resources)

end Planning

end OsmMini.Core

import OsmMini.Core.Types

/-!
# Engine handles of the native interface

A caller of the native interface starts an operation, waits for it and releases it. An
operation that opens a region yields an engine, which the caller takes as a number and
closes by that number. An engine whose operation is released before it was taken is closed
on the way.

There are two locks, one for each operation and one for the registry of operations and
engines. The sections under the locks run one at a time, and those of all callers and all
operations interleave in any order. Beside the registry it is recorded which operation
opened an engine, under which number it was registered, and how often it was handed out and
closed. An engine has one owner at every moment (`Owned`, `sound_run`), and whoever waits
for an operation is woken by its next change (`Signalled`, `signalled_step`).
-/

set_option autoImplicit false

namespace OsmMini.Bindings

open OsmMini.Core

/-! ## Operations, engines and calls -/

inductive JobState where
  | running
  | complete
  | failed
  deriving DecidableEq

inductive Action where
  | importRegion
  | openRegion
  | search
  | route
  | tile
  | unknown
  deriving DecidableEq

/-- Where the goroutine of an operation stands. -/
inductive Stage (Value : Type) where
  | working
  /-- The work is over; the lock of the operation is about to be taken. -/
  | returned (value : Option Value) (err : Option String)
  /-- The outcome was published; the context is about to be cancelled. -/
  | ended
  | exited

/-- An operation and its goroutine. The channel that announces the next change has a number;
channels with smaller numbers are closed. -/
structure Operation (Progress Value : Type) where
  cancelled : Bool
  state : JobState
  progress : Progress
  result : Option Value
  err : String
  engine : ℕ
  claimed : Bool
  released : Bool
  changed : ℕ
  action : Action
  /-- The engine that a request names. -/
  borrowed : Option ℕ
  opened : Option ℕ
  stage : Stage Value

/-- An engine that was opened: by which operation, under which number it was registered, and
how often it was closed and handed out. The number is zero before it is registered. -/
structure Engine where
  job : ℕ
  id : ℕ
  closes : ℕ
  handed : ℕ

/-- What a caller asks with the number of an operation. -/
inductive Request where
  | wait (timed : Bool)
  | take
  | cancel
  | release

inductive OperationResponse (Progress Value : Type) where
  | unknown
  | known (state : JobState) (progress : Progress) (result : Option Value) (err : String)

/-- Where a call stands. -/
inductive Call (Progress Value : Type) where
  | idle
  | waiting (job : ℕ) (timed : Bool)
  /-- The operation was running; its channel is awaited. -/
  | subscribed (job channel : ℕ)
  | reading (job : ℕ)
  | taking (job : ℕ)
  | cancelling (job : ℕ)
  | releasing (id job : ℕ)
  /-- `closeEngine` is about to remove a number from the registry. -/
  | dropping (id : ℕ)
  /-- `closeEngine` removed an engine and is about to close it. -/
  | closing (engine : ℕ)
  | answered (response : OperationResponse Progress Value)
  | took (id : ℕ)
  | started (id : ℕ)
  | finished

/-- A step of a caller or of the goroutine of an operation. -/
inductive BridgeEvent (Caller Progress Value : Type) where
  | start (caller : Caller) (action : Action) (engine : ℕ)
  | setProgress (job : ℕ) (p : Progress)
  | openEngine (job : ℕ) (manifest : Value)
  | succeed (job : ℕ) (value : Value)
  | fail (job : ℕ) (message : String)
  | recover (job : ℕ) (message : String)
  | finish (job : ℕ)
  | exit (job : ℕ)
  | lookup (caller : Caller) (request : Request) (id : ℕ)
  | observe (caller : Caller)
  | wake (caller : Caller)
  | timeout (caller : Caller)
  | read (caller : Caller)
  | takeEngine (caller : Caller)
  | cancelOperation (caller : Caller)
  | releaseOperation (caller : Caller)
  | close (caller : Caller) (id : ℕ)
  | dropEngine (caller : Caller)
  | closeEngine (caller : Caller)

/-- The registry with all operations, engines and calls. -/
structure Bridge (Caller Progress Value : Type) where
  next : ℕ
  engines : GoMap ℕ ℕ
  jobs : GoMap ℕ ℕ
  job : ℕ → Operation Progress Value
  started : ℕ
  engine : ℕ → Engine
  opened : ℕ
  call : Caller → Call Progress Value

variable {Caller Progress Value : Type}

namespace Operation

variable [DecidableEq Progress]

/-- Close the channel that announces a change, and make a new one. -/
def signalLocked (o : Operation Progress Value) : Operation Progress Value :=
  { o with changed := o.changed + 1 }

def setProgress (o : Operation Progress Value) (p : Progress) : Operation Progress Value :=
  if o.progress ≠ p then { o with progress := p }.signalLocked else o

/-- What is wrong with a request before it does any work. -/
def refusal (o : Operation Progress Value) : Option String :=
  match o.action with
  | .search | .route | .tile =>
    if o.borrowed = none then some "engine is closed or unknown" else none
  | .unknown => some "unknown action"
  | .importRegion | .openRegion => none

/-- The error of an operation that returned, which is an error too if it was cancelled. -/
def outcome (o : Operation Progress Value) (err : Option String) : Option String :=
  if o.cancelled ∧ err = none then some "context canceled" else err

/-- Publish a failure. -/
def failed (o : Operation Progress Value) (message : String) : Operation Progress Value :=
  { o with state := .failed, err := message, stage := .ended }.signalLocked

/-- Publish a result, with the number of the engine that was opened. -/
def completed (o : Operation Progress Value) (value : Option Value) (engine : ℕ) :
    Operation Progress Value :=
  { o with engine := engine, result := value, state := .complete, stage := .ended }.signalLocked

def response (o : Operation Progress Value) : OperationResponse Progress Value :=
  if o.released then .unknown else .known o.state o.progress o.result o.err

end Operation

namespace Bridge

variable [DecidableEq Caller]

/-- The bridge before any call. The operations that are not started yet have exited. -/
def new (p : Progress) : Bridge Caller Progress Value where
  next := 0
  engines := ∅
  jobs := ∅
  job _ := ⟨false, .failed, p, none, "", 0, false, false, 0, .unknown, none, none, .exited⟩
  started := 0
  engine _ := ⟨0, 0, 0, 0⟩
  opened := 0
  call _ := .idle

def move (s : Bridge Caller Progress Value) (caller : Caller) (call : Call Progress Value) :
    Bridge Caller Progress Value :=
  { s with call := Function.update s.call caller call }

def setJob (s : Bridge Caller Progress Value) (j : ℕ) (o : Operation Progress Value) :
    Bridge Caller Progress Value :=
  { s with job := Function.update s.job j o }

def setEngine (s : Bridge Caller Progress Value) (e : ℕ) (engine : Engine) :
    Bridge Caller Progress Value :=
  { s with engine := Function.update s.engine e engine }

def startOperation (s : Bridge Caller Progress Value) (p : Progress) (caller : Caller)
    (action : Action) (engine : ℕ) : Bridge Caller Progress Value :=
  { (s.setJob s.started ⟨false, .running, p, none, "", 0, false, false, 0, action,
      s.engines.lookup engine, none, .working⟩).move caller (.started (s.next + 1)) with
    next := s.next + 1
    jobs := s.jobs.insert (s.next + 1) s.started
    started := s.started + 1 }

/-- The engine of an operation is open; its manifest is the result. -/
def openEngine (s : Bridge Caller Progress Value) (j : ℕ) (manifest : Value) :
    Bridge Caller Progress Value :=
  { (s.setJob j { s.job j with opened := some s.opened, stage := .returned (some manifest) none })
      |>.setEngine s.opened ⟨j, 0, 0, 0⟩ with
    opened := s.opened + 1 }

/-- Close an engine that was opened. -/
def closeOpened (s : Bridge Caller Progress Value) (e : ℕ) : Bridge Caller Progress Value :=
  s.setEngine e { s.engine e with closes := (s.engine e).closes + 1 }

/-- Register an engine under the next number. -/
def register (s : Bridge Caller Progress Value) (e : ℕ) : Bridge Caller Progress Value :=
  { s.setEngine e { s.engine e with id := s.next + 1 } with
    next := s.next + 1
    engines := s.engines.insert (s.next + 1) e }

/-- The last section of the goroutine of an operation. -/
def finish (s : Bridge Caller Progress Value) (j : ℕ) (value : Option Value)
    (err : Option String) : Bridge Caller Progress Value :=
  match (s.job j).outcome err, (s.job j).opened with
  | some message, some e => (s.closeOpened e).setJob j ((s.job j).failed message)
  | some message, none => s.setJob j ((s.job j).failed message)
  | none, some e => (s.register e).setJob j ((s.job j).completed value (s.next + 1))
  | none, none => s.setJob j ((s.job j).completed value (s.job j).engine)

/-- The end of a lookup: the call goes on with the operation it found. -/
def Request.found : Request → ℕ → ℕ → Call Progress Value
  | .wait timed, _, j => .waiting j timed
  | .take, _, j => .taking j
  | .cancel, _, j => .cancelling j
  | .release, id, j => .releasing id j

/-- The answer to a number that names no operation. -/
def Request.missing : Request → Call Progress Value
  | .wait _ => .answered .unknown
  | .take => .took 0
  | .cancel | .release => .finished

/-- Wait for the next change of a running operation, or read it. -/
def observe (s : Bridge Caller Progress Value) (caller : Caller) (j : ℕ) (timed : Bool) :
    Bridge Caller Progress Value :=
  if timed ∧ (s.job j).state = .running ∧ (s.job j).released = false then
    s.move caller (.subscribed j (s.job j).changed)
  else s.move caller (.answered (s.job j).response)

/-- Hand out the number of an engine. That of an operation without an engine is zero. -/
def takeEngine (s : Bridge Caller Progress Value) (caller : Caller) (j : ℕ) :
    Bridge Caller Progress Value :=
  if (s.job j).state ≠ .complete ∨ (s.job j).claimed = true ∨ (s.job j).released = true then
    s.move caller (.took 0)
  else
    let s' := (s.setJob j { s.job j with claimed := true }).move caller (.took (s.job j).engine)
    match (s.job j).opened with
    | some e => s'.setEngine e { s.engine e with handed := (s.engine e).handed + 1 }
    | none => s'

/-- The section of `releaseOperation`. An engine that nobody took is closed afterwards. -/
def releaseOperation (s : Bridge Caller Progress Value) (caller : Caller) (id j : ℕ) :
    Bridge Caller Progress Value :=
  if (s.job j).released then s.move caller .finished
  else if (s.job j).state = .running then
    (s.setJob j { s.job j with cancelled := true }).move caller .finished
  else
    { (s.setJob j { s.job j with released := true }.signalLocked).move caller
        (if (s.job j).engine ≠ 0 ∧ (s.job j).claimed = false then .dropping (s.job j).engine
          else .finished) with
      jobs := s.jobs.erase id }

/-- The section of `closeEngine`. -/
def dropEngine (s : Bridge Caller Progress Value) (caller : Caller) (id : ℕ) :
    Bridge Caller Progress Value :=
  match s.engines.lookup id with
  | some e => { s.move caller (.closing e) with engines := s.engines.erase id }
  | none => s.move caller .finished

variable [DecidableEq Progress]

/-- One step. What cannot happen where everybody stands changes nothing; `p` is the progress
of an operation that has made none. -/
def step (p : Progress) (s : Bridge Caller Progress Value) :
    BridgeEvent Caller Progress Value → Bridge Caller Progress Value
  | .start caller action engine =>
    match s.call caller with
    | .idle => s.startOperation p caller action engine
    | _ => s
  | .setProgress j p =>
    match (s.job j).stage with
    | .working =>
      if (s.job j).action = .importRegion then s.setJob j ((s.job j).setProgress p) else s
    | _ => s
  | .openEngine j manifest =>
    match (s.job j).stage with
    | .working => if (s.job j).action = .openRegion then s.openEngine j manifest else s
    | _ => s
  | .succeed j value =>
    match (s.job j).stage with
    | .working =>
      if (s.job j).action = .openRegion ∨ (s.job j).refusal ≠ none then s
      else s.setJob j { s.job j with stage := .returned (some value) none }
    | _ => s
  | .fail j message =>
    match (s.job j).stage with
    | .working =>
      s.setJob j
        { s.job j with stage := .returned none (some ((s.job j).refusal.getD message)) }
    | _ => s
  | .recover j message =>
    match (s.job j).stage with
    | .working => s.setJob j ((s.job j).failed ("native operation failed: " ++ message))
    | _ => s
  | .finish j =>
    match (s.job j).stage with
    | .returned value err => s.finish j value err
    | _ => s
  | .exit j =>
    match (s.job j).stage with
    | .ended => s.setJob j { s.job j with cancelled := true, stage := .exited }
    | _ => s
  | .lookup caller request id =>
    match s.call caller with
    | .idle =>
      match s.jobs.lookup id with
      | some j => s.move caller (Request.found request id j)
      | none => s.move caller (Request.missing request)
    | _ => s
  | .observe caller =>
    match s.call caller with
    | .waiting j timed => s.observe caller j timed
    | _ => s
  | .wake caller =>
    match s.call caller with
    | .subscribed j channel =>
      if channel < (s.job j).changed then s.move caller (.reading j) else s
    | _ => s
  | .timeout caller =>
    match s.call caller with
    | .subscribed j _ => s.move caller (.reading j)
    | _ => s
  | .read caller =>
    match s.call caller with
    | .reading j => s.move caller (.answered (s.job j).response)
    | _ => s
  | .takeEngine caller =>
    match s.call caller with
    | .taking j => s.takeEngine caller j
    | _ => s
  | .cancelOperation caller =>
    match s.call caller with
    | .cancelling j => (s.setJob j { s.job j with cancelled := true }).move caller .finished
    | _ => s
  | .releaseOperation caller =>
    match s.call caller with
    | .releasing id j => s.releaseOperation caller id j
    | _ => s
  | .close caller id =>
    match s.call caller with
    | .idle => s.move caller (.dropping id)
    | _ => s
  | .dropEngine caller =>
    match s.call caller with
    | .dropping id => s.dropEngine caller id
    | _ => s
  | .closeEngine caller =>
    match s.call caller with
    | .closing e => (s.closeOpened e).move caller .finished
    | _ => s

/-- The bridge after a sequence of steps. -/
def run (p : Progress) (events : List (BridgeEvent Caller Progress Value)) :
    Bridge Caller Progress Value :=
  events.foldl (step p) (new p)

end Bridge

/-! ## Who owns an engine -/

/-- The goroutine of an operation has not published its outcome. -/
def Operation.Runs (o : Operation Progress Value) : Prop :=
  o.stage = .working ∨ ∃ value err, o.stage = .returned value err

theorem Operation.not_runs (o : Operation Progress Value) (ended : o.stage = .ended) :
    ¬ o.Runs := by
  rintro (working | ⟨_, _, returned⟩)
  · rw [ended] at working
    cases working
  · rw [ended] at returned
    cases returned

/-- What holds of an operation by itself. -/
structure Operation.Sound (o : Operation Progress Value) : Prop where
  runs : o.state = .running ↔ o.Runs
  running : o.state = .running → o.released = false ∧ o.claimed = false ∧ o.engine = 0
  working : o.stage = .working → o.opened = none
  failed : o.state = .failed → o.claimed = false ∧ o.engine = 0

/-- What holds of an engine and the operation that opened it. -/
structure Engine.Held (g : Engine) (o : Operation Progress Value) (next : ℕ) : Prop where
  unregistered : g.id = 0 →
    o.state = .running ∧ g.closes = 0 ∨ o.state = .failed ∧ g.closes = 1
  registered : g.id ≠ 0 → o.state = .complete ∧ o.engine = g.id ∧ g.id ≤ next
  closed : g.closes ≤ 1
  handed : g.handed = if o.claimed = true then 1 else 0

theorem Engine.Held.id_eq_zero {g : Engine} {o : Operation Progress Value} {next : ℕ}
    (held : g.Held o next) (state : o.state ≠ .complete) : g.id = 0 := by
  by_contra nonzero
  exact state (held.registered nonzero).1

theorem Engine.Held.mono {g : Engine} {o : Operation Progress Value} {next later : ℕ}
    (held : g.Held o next) (grows : next ≤ later) : g.Held o later where
  __ := held
  registered nonzero :=
    have ⟨state, number, bound⟩ := held.registered nonzero
    ⟨state, number, bound.trans grows⟩

/-- Every engine has one owner: first the operation that opened it, then the registry, and
then the call that closes it. -/
structure Owned (job : ℕ → Operation Progress Value) (started : ℕ) (engine : ℕ → Engine)
    (opened : ℕ) (engines : ℕ → Option ℕ) (next : ℕ) (call : Caller → Call Progress Value) :
    Prop where
  unstarted : ∀ j, started ≤ j → (job j).stage = .exited
  sound : ∀ j < started, (job j).Sound
  opens : ∀ j < started, ∀ e, (job j).opened = some e → e < opened ∧ (engine e).job = j
  opener : ∀ e < opened, (engine e).job < started ∧ (job (engine e).job).opened = some e
  held : ∀ e < opened, (engine e).Held (job (engine e).job) next
  listed : ∀ id e, engines id = some e → e < opened ∧ (engine e).id = id ∧ id ≠ 0 ∧
    (engine e).closes = 0
  kept : ∀ e < opened, (engine e).id ≠ 0 → engines (engine e).id = some e ∨
    (∃ c, call c = .closing e) ∨ (engine e).closes = 1
  closing : ∀ c e, call c = .closing e → e < opened ∧ (engine e).id ≠ 0 ∧
    (engine e).closes = 0 ∧ engines (engine e).id = none
  closer : ∀ c c' e, call c = .closing e → call c' = .closing e → c = c'
  pending : ∀ e < opened, (job (engine e).job).released = true →
    (job (engine e).job).claimed = false → engines (engine e).id = some e →
    ∃ c, call c = .dropping (engine e).id

namespace Owned

variable [DecidableEq Caller] {job : ℕ → Operation Progress Value} {started : ℕ}
  {engine : ℕ → Engine} {opened : ℕ} {engines : ℕ → Option ℕ} {next : ℕ}
  {call : Caller → Call Progress Value}

omit [DecidableEq Caller] in
/-- An operation opens one engine at most. -/
theorem unique (owned : Owned job started engine opened engines next call) {j e f : ℕ}
    (has : (job j).opened = some e) (before : f < opened) (mine : (engine f).job = j) : f = e := by
  have := (owned.opener f before).2
  rw [mine, has] at this
  exact (Option.some.inj this).symm

omit [DecidableEq Caller] in
/-- An operation without an engine. -/
theorem without (owned : Owned job started engine opened engines next call) {j f : ℕ}
    (has : (job j).opened = none) (before : f < opened) : (engine f).job ≠ j := fun mine => by
  have := (owned.opener f before).2
  rw [mine, has] at this
  cases this

/-- A call that neither closes an engine nor is about to moves on. -/
theorem move (owned : Owned job started engine opened engines next call) {c : Caller}
    {after : Call Progress Value} (apart : ∀ id, call c ≠ .dropping id)
    (apart' : ∀ e, call c ≠ .closing e) (closes : ∀ e, after ≠ .closing e) :
    Owned job started engine opened engines next (Function.update call c after) := by
  obtain ⟨unstarted, sound, opens, opener, held, listed, kept, closing, closer, pending⟩ := owned
  refine ⟨unstarted, sound, opens, opener, held, listed, ?_, ?_, ?_, ?_⟩
  all_goals simp only [Function.update_apply]
  · grind
  · grind
  · grind
  · grind

omit [DecidableEq Caller] in
/-- An operation changes, but neither its engine nor whether it is released. -/
theorem setJob (owned : Owned job started engine opened engines next call) {j : ℕ}
    {o : Operation Progress Value} (made : j < started) (sound : o.Sound)
    (opened' : o.opened = (job j).opened)
    (held : ∀ e < opened, (engine e).job = j → (engine e).Held o next)
    (released : o.released = true → (job j).released = true)
    (claimed : o.claimed = false → (job j).claimed = false) :
    Owned (Function.update job j o) started engine opened engines next call := by
  have other (e : ℕ) (apart : (engine e).job ≠ j) :
      Function.update job j o (engine e).job = job (engine e).job := Function.update_of_ne apart ..
  have mine (e : ℕ) (here : (engine e).job = j) : Function.update job j o (engine e).job = o := by
    rw [here, Function.update_self]
  refine ⟨fun i later => ?_, fun i before => ?_, fun i before e has => ?_, fun e before => ?_,
    fun e before => ?_, owned.listed, owned.kept, owned.closing, owned.closer,
    fun e before released' claimed' found => ?_⟩
  · rw [Function.update_of_ne (made.trans_le later).ne']
    exact owned.unstarted i later
  · rw [Function.update_apply]
    split_ifs
    · exact sound
    · exact owned.sound i before
  · rw [Function.update_apply] at has
    split_ifs at has with here
    · exact here ▸ owned.opens j made e (opened' ▸ has)
    · exact owned.opens i before e has
  · obtain ⟨earlier, has⟩ := owned.opener e before
    refine ⟨earlier, ?_⟩
    by_cases here : (engine e).job = j
    · rw [mine e here, opened', ← here, has]
    · rw [other e here, has]
  · by_cases here : (engine e).job = j
    · rw [mine e here]
      exact held e before here
    · rw [other e here]
      exact owned.held e before
  · refine owned.pending e before ?_ ?_ found
    · by_cases here : (engine e).job = j
      · exact here ▸ released (mine e here ▸ released')
      · exact other e here ▸ released'
    · by_cases here : (engine e).job = j
      · exact here ▸ claimed (mine e here ▸ claimed')
      · exact other e here ▸ claimed'

omit [DecidableEq Caller] in
/-- An operation changes together with the engine that it opened. -/
theorem setEngine (owned : Owned job started engine opened engines next call) {j e : ℕ}
    {o : Operation Progress Value} {g : Engine} {engines' : ℕ → Option ℕ} {next' : ℕ}
    (made : j < started) (has : (job j).opened = some e) (sound : o.Sound)
    (opened' : o.opened = some e) (same : g.job = j) (held : g.Held o next')
    (grows : next ≤ next')
    (others : ∀ id f, f ≠ e → (engines' id = some f ↔ engines id = some f))
    (listed : ∀ id, engines' id = some e → g.id = id ∧ id ≠ 0 ∧ g.closes = 0)
    (kept : g.id ≠ 0 → engines' g.id = some e ∨ (∃ c, call c = .closing e) ∨ g.closes = 1)
    (closing : ∀ c, call c = .closing e → g.id ≠ 0 ∧ g.closes = 0 ∧ engines' g.id = none)
    (unused : ∀ f < opened, f ≠ e → engines (engine f).id = none →
      engines' (engine f).id = none)
    (pending : o.released = true → o.claimed = false → engines' g.id = some e →
      ∃ c, call c = .dropping g.id) :
    Owned (Function.update job j o) started (Function.update engine e g) opened engines' next'
      call := by
  obtain ⟨older, mine⟩ := owned.opens j made e has
  have apart (f : ℕ) (before : f < opened) (other : f ≠ e) : (engine f).job ≠ j :=
    fun here => other (owned.unique has before here)
  have of_ne (f : ℕ) (other : f ≠ e) : Function.update engine e g f = engine f :=
    Function.update_of_ne other ..
  have job_of_ne (f : ℕ) (before : f < opened) (other : f ≠ e) :
      Function.update job j o (Function.update engine e g f).job = job (engine f).job := by
    rw [of_ne f other, Function.update_of_ne (apart f before other)]
  have job_self : Function.update job j o (Function.update engine e g e).job = o := by
    rw [Function.update_self, same, Function.update_self]
  refine ⟨fun i later => ?_, fun i before => ?_, fun i before f has' => ?_, fun f before => ?_,
    fun f before => ?_, fun id f found => ?_, fun f before => ?_, fun c f closes => ?_,
    owned.closer, fun f before => ?_⟩
  · rw [Function.update_of_ne (made.trans_le later).ne']
    exact owned.unstarted i later
  · rw [Function.update_apply]
    split_ifs
    · exact sound
    · exact owned.sound i before
  · rw [Function.update_apply] at has'
    split_ifs at has' with here
    · obtain rfl := Option.some.inj (opened'.symm.trans has')
      exact ⟨older, by rw [Function.update_self, same, here]⟩
    · obtain ⟨earlier, mine'⟩ := owned.opens i before f has'
      have other : f ≠ e := fun is => here (mine'.symm.trans (is ▸ mine))
      exact ⟨earlier, of_ne f other ▸ mine'⟩
  · by_cases here : f = e
    · subst here
      refine ⟨?_, by rw [job_self, opened']⟩
      rw [Function.update_self, same]
      exact made
    · rw [job_of_ne f before here, of_ne f here]
      exact owned.opener f before
  · by_cases here : f = e
    · subst here
      rw [job_self, Function.update_self]
      exact held
    · rw [job_of_ne f before here, of_ne f here]
      exact (owned.held f before).mono grows
  · by_cases here : f = e
    · subst here
      rw [Function.update_self]
      exact ⟨older, listed id found⟩
    · rw [of_ne f here]
      exact owned.listed id f ((others id f here).mp found)
  · by_cases here : f = e
    · subst here
      rw [Function.update_self]
      exact kept
    · rw [of_ne f here]
      exact fun nonzero => (owned.kept f before nonzero).imp_left (others _ f here).mpr
  · by_cases here : f = e
    · subst here
      rw [Function.update_self]
      exact ⟨older, closing c closes⟩
    · rw [of_ne f here]
      obtain ⟨before, nonzero, unclosed, unlisted⟩ := owned.closing c f closes
      exact ⟨before, nonzero, unclosed, unused f before here unlisted⟩
  · by_cases here : f = e
    · subst here
      rw [job_self, Function.update_self]
      exact pending
    · rw [job_of_ne f before here, of_ne f here]
      exact fun released claimed found =>
        owned.pending f before released claimed ((others _ f here).mp found)

omit [DecidableEq Caller] in
theorem start (owned : Owned job started engine opened engines next call)
    {o : Operation Progress Value} (sound : o.Sound) (nothing : o.opened = none) :
    Owned (Function.update job started o) (started + 1) engine opened engines (next + 1) call := by
  have older (e : ℕ) (before : e < opened) :
      Function.update job started o (engine e).job = job (engine e).job :=
    Function.update_of_ne (owned.opener e before).1.ne ..
  refine ⟨fun i later => ?_, fun i before => ?_, fun i before e has => ?_, fun e before => ?_,
    fun e before => ?_, owned.listed, owned.kept, owned.closing, owned.closer, fun e before => ?_⟩
  · rw [Function.update_of_ne (Nat.lt_of_succ_le later).ne']
    exact owned.unstarted i (Nat.le_of_succ_le later)
  · rw [Function.update_apply]
    split_ifs with here
    · exact sound
    · exact owned.sound i ((Nat.lt_succ_iff.mp before).lt_of_ne here)
  · rw [Function.update_apply] at has
    split_ifs at has with here
    · rw [nothing] at has
      cases has
    · exact owned.opens i ((Nat.lt_succ_iff.mp before).lt_of_ne here) e has
  · rw [older e before]
    exact ⟨(owned.opener e before).1.trans (Nat.lt_succ_self _), (owned.opener e before).2⟩
  · rw [older e before]
    exact (owned.held e before).mono (Nat.le_succ _)
  · rw [older e before]
    exact owned.pending e before

omit [DecidableEq Caller] in
/-- An operation that has opened nothing yet opens an engine. -/
theorem openEngine (owned : Owned job started engine opened engines next call) {j : ℕ}
    {o : Operation Progress Value} (made : j < started) (nothing : (job j).opened = none)
    (sound : o.Sound) (state : o.state = .running) (has : o.opened = some opened) :
    Owned (Function.update job j o) started (Function.update engine opened ⟨j, 0, 0, 0⟩)
      (opened + 1) engines next call := by
  obtain ⟨held, claimed, -⟩ := sound.running state
  have of_lt (e : ℕ) (before : e < opened) :
      Function.update engine opened ⟨j, 0, 0, 0⟩ e = engine e :=
    Function.update_of_ne before.ne ..
  have job_of_lt (e : ℕ) (before : e < opened) :
      Function.update job j o (engine e).job = job (engine e).job :=
    Function.update_of_ne (owned.without nothing before) ..
  refine ⟨fun i later => ?_, fun i before => ?_, fun i before e has' => ?_, fun e before => ?_,
    fun e before => ?_, fun id e found => ?_, fun e before => ?_, fun c e closes => ?_,
    owned.closer, fun e before => ?_⟩
  · rw [Function.update_of_ne (made.trans_le later).ne']
    exact owned.unstarted i later
  · rw [Function.update_apply]
    split_ifs
    · exact sound
    · exact owned.sound i before
  · rw [Function.update_apply] at has'
    split_ifs at has' with here
    · obtain rfl := Option.some.inj (has.symm.trans has')
      exact ⟨Nat.lt_succ_self _, by rw [Function.update_self, here]⟩
    · obtain ⟨earlier, mine⟩ := owned.opens i before e has'
      exact ⟨earlier.trans (Nat.lt_succ_self _), of_lt e earlier ▸ mine⟩
  · rcases Nat.lt_succ_iff_lt_or_eq.mp before with earlier | rfl
    · rw [of_lt e earlier, job_of_lt e earlier]
      exact owned.opener e earlier
    · rw [Function.update_self, Function.update_self]
      exact ⟨made, has⟩
  · rcases Nat.lt_succ_iff_lt_or_eq.mp before with earlier | rfl
    · rw [of_lt e earlier, job_of_lt e earlier]
      exact owned.held e earlier
    · rw [Function.update_self, Function.update_self]
      exact ⟨fun _ => Or.inl ⟨state, rfl⟩, fun nonzero => absurd rfl nonzero, Nat.zero_le 1,
        by rw [claimed]; rfl⟩
  · obtain ⟨earlier, number⟩ := owned.listed id e found
    rw [of_lt e earlier]
    exact ⟨earlier.trans (Nat.lt_succ_self _), number⟩
  · rcases Nat.lt_succ_iff_lt_or_eq.mp before with earlier | rfl
    · rw [of_lt e earlier]
      exact owned.kept e earlier
    · rw [Function.update_self]
      exact fun nonzero => absurd rfl nonzero
  · obtain ⟨earlier, rest⟩ := owned.closing c e closes
    rw [of_lt e earlier]
    exact ⟨earlier.trans (Nat.lt_succ_self _), rest⟩
  · rcases Nat.lt_succ_iff_lt_or_eq.mp before with earlier | rfl
    · rw [of_lt e earlier, job_of_lt e earlier]
      exact owned.pending e earlier
    · rw [Function.update_self, Function.update_self, held]
      exact fun released => absurd released Bool.false_ne_true

omit [DecidableEq Caller] in
/-- An operation that opened an engine fails and closes it. -/
theorem abandon (owned : Owned job started engine opened engines next call) {j e : ℕ}
    {o : Operation Progress Value} (made : j < started) (active : (job j).state = .running)
    (has : (job j).opened = some e) (sound : o.Sound) (state : o.state = .failed)
    (opened' : o.opened = some e) :
    Owned (Function.update job j o) started
      (Function.update engine e { engine e with closes := (engine e).closes + 1 }) opened engines
      next call := by
  obtain ⟨older, mine⟩ := owned.opens j made e has
  have held := owned.held e older
  rw [mine] at held
  have zero : (engine e).id = 0 := held.id_eq_zero (by rw [active]; decide)
  have unclosed : (engine e).closes = 0 := by
    rcases held.unregistered zero with ⟨-, none⟩ | ⟨failed, -⟩
    · exact none
    · rw [active] at failed
      cases failed
  have unlisted (id : ℕ) : engines id ≠ some e := fun found => by
    obtain ⟨-, number, nonzero, -⟩ := owned.listed id e found
    exact nonzero (number.symm.trans zero)
  have uncalled (c : Caller) : call c ≠ .closing e := fun closes =>
    (owned.closing c e closes).2.1 zero
  refine owned.setEngine made has sound opened' mine ?_ le_rfl (fun _ _ _ => Iff.rfl)
    (fun id found => absurd found (unlisted id)) (fun nonzero => absurd zero nonzero)
    (fun c closes => absurd closes (uncalled c)) (fun _ _ _ missing => missing)
    (fun _ _ found => absurd found (unlisted _))
  refine ⟨fun _ => Or.inr ⟨state, by rw [unclosed]⟩, fun nonzero => absurd zero nonzero,
    by rw [unclosed], ?_⟩
  rw [held.handed, (owned.sound j made).running active |>.2.1, (sound.failed state).1]

omit [DecidableEq Caller] in
/-- An operation that opened an engine registers it under a new number. -/
theorem register (owned : Owned job started engine opened engines next call) {j e : ℕ}
    {o : Operation Progress Value} (made : j < started) (active : (job j).state = .running)
    (has : (job j).opened = some e) (sound : o.Sound) (state : o.state = .complete)
    (number : o.engine = next + 1) (same : o.claimed = false ∧ o.released = false)
    (opened' : o.opened = some e) :
    Owned (Function.update job j o) started
      (Function.update engine e { engine e with id := next + 1 }) opened
      (fun id => if id = next + 1 then some e else engines id) (next + 1) call := by
  obtain ⟨older, mine⟩ := owned.opens j made e has
  obtain ⟨claimed, released⟩ := same
  have held := owned.held e older
  rw [mine] at held
  have zero : (engine e).id = 0 := held.id_eq_zero (by rw [active]; decide)
  have unclosed : (engine e).closes = 0 := by
    rcases held.unregistered zero with ⟨-, none⟩ | ⟨failed, -⟩
    · exact none
    · rw [active] at failed
      cases failed
  have unlisted (id : ℕ) : engines id ≠ some e := fun found => by
    obtain ⟨-, is, nonzero, -⟩ := owned.listed id e found
    exact nonzero (is.symm.trans zero)
  have bound (f : ℕ) (before : f < opened) : (engine f).id ≠ next + 1 := fun is => by
    have := ((owned.held f before).registered (is ▸ Nat.succ_ne_zero next)).2.2
    omega
  refine owned.setEngine made has sound opened' mine ?_ (Nat.le_succ next) (fun id f other => ?_)
    (fun id found => ?_) (fun _ => Or.inl (if_pos rfl))
    (fun c closes => absurd zero (owned.closing c e closes).2.1) (fun f before _ missing => ?_)
    (fun released' => ?_)
  · refine ⟨fun none => absurd none (Nat.succ_ne_zero next), fun _ => ⟨state, number, le_rfl⟩,
      by rw [unclosed]; exact Nat.zero_le 1, ?_⟩
    rw [held.handed, (owned.sound j made).running active |>.2.1, claimed]
  · split_ifs with here
    · refine iff_of_false (fun is => other (Option.some.inj is).symm) fun found => ?_
      obtain ⟨before, is, -, -⟩ := owned.listed id f found
      exact bound f before (is.trans here)
    · exact Iff.rfl
  · split_ifs at found with here
    · exact ⟨here.symm, here ▸ Nat.succ_ne_zero next, unclosed⟩
    · exact absurd found (unlisted id)
  · rw [if_neg (bound f before), missing]
  · rw [released] at released'
    exact absurd released' Bool.false_ne_true

omit [DecidableEq Caller] in
/-- The engine of a completed operation is handed out. -/
theorem take (owned : Owned job started engine opened engines next call) {j e : ℕ}
    {o : Operation Progress Value} (made : j < started) (complete : (job j).state = .complete)
    (has : (job j).opened = some e) (kept : (job j).claimed = false) (sound : o.Sound)
    (same : o.state = (job j).state ∧ o.engine = (job j).engine ∧ o.opened = (job j).opened)
    (claimed : o.claimed = true) :
    Owned (Function.update job j o) started
      (Function.update engine e { engine e with handed := (engine e).handed + 1 }) opened engines
      next call := by
  obtain ⟨older, mine⟩ := owned.opens j made e has
  obtain ⟨state, number, opened'⟩ := same
  have held := owned.held e older
  rw [mine] at held
  have nonzero : (engine e).id ≠ 0 := fun zero => by
    rcases held.unregistered zero with ⟨other, -⟩ | ⟨other, -⟩ <;> rw [complete] at other <;>
      cases other
  refine owned.setEngine made has sound (opened'.trans has) mine ?_ le_rfl (fun _ _ _ => Iff.rfl)
    (fun id found => (owned.listed id e found).2) (owned.kept e older)
    (fun c closes => (owned.closing c e closes).2) (fun _ _ _ missing => missing)
    (fun _ unclaimed => ?_)
  · refine ⟨fun zero => absurd zero nonzero, fun _ => ?_, held.closed, ?_⟩
    · rw [state, number]
      exact held.registered nonzero
    · rw [held.handed, kept, claimed]
      rfl
  · rw [claimed] at unclaimed
    cases unclaimed

/-- An operation that has ended is released. If nobody took its engine, the call goes on to
close it. -/
theorem release (owned : Owned job started engine opened engines next call) {j : ℕ}
    {o : Operation Progress Value} {c : Caller} {after : Call Progress Value}
    (made : j < started) (sound : o.Sound) (apart : ∀ id, call c ≠ .dropping id)
    (apart' : ∀ e, call c ≠ .closing e) (closes : ∀ e, after ≠ .closing e)
    (dropping : (job j).engine ≠ 0 → (job j).claimed = false → after = .dropping (job j).engine)
    (same : o.state = (job j).state ∧ o.engine = (job j).engine ∧ o.claimed = (job j).claimed ∧
      o.opened = (job j).opened) :
    Owned (Function.update job j o) started engine opened engines next
      (Function.update call c after) := by
  have moved := owned.move apart apart' closes
  obtain ⟨state, number, claimed, opened'⟩ := same
  have other (e : ℕ) (apart : (engine e).job ≠ j) :
      Function.update job j o (engine e).job = job (engine e).job := Function.update_of_ne apart ..
  have mine (e : ℕ) (here : (engine e).job = j) : Function.update job j o (engine e).job = o := by
    rw [here, Function.update_self]
  refine ⟨fun i later => ?_, fun i before => ?_, fun i before e has => ?_, fun e before => ?_,
    fun e before => ?_, moved.listed, moved.kept, moved.closing, moved.closer,
    fun e before released unclaimed found => ?_⟩
  · rw [Function.update_of_ne (made.trans_le later).ne']
    exact owned.unstarted i later
  · rw [Function.update_apply]
    split_ifs
    · exact sound
    · exact owned.sound i before
  · rw [Function.update_apply] at has
    split_ifs at has with here
    · exact here ▸ owned.opens j made e (opened' ▸ has)
    · exact owned.opens i before e has
  · obtain ⟨earlier, has⟩ := owned.opener e before
    refine ⟨earlier, ?_⟩
    by_cases here : (engine e).job = j
    · rw [mine e here, opened', ← here, has]
    · rw [other e here, has]
  · have held := owned.held e before
    by_cases here : (engine e).job = j
    · rw [here] at held
      rw [mine e here]
      refine ⟨?_, ?_, held.closed, ?_⟩
      · rw [state]
        exact held.unregistered
      · rw [state, number]
        exact held.registered
      · rw [claimed]
        exact held.handed
    · rw [other e here]
      exact held
  · by_cases here : (engine e).job = j
    · rw [mine e here, claimed] at unclaimed
      obtain ⟨-, -, nonzero, -⟩ := owned.listed _ e found
      have listed := ((owned.held e before).registered nonzero).2.1
      rw [here] at listed
      refine ⟨c, ?_⟩
      rw [Function.update_self, dropping (listed ▸ nonzero) unclaimed, listed]
    · rw [other e here] at released unclaimed
      exact moved.pending e before released unclaimed found

/-- A call removes an engine from the registry and goes on to close it. -/
theorem drop (owned : Owned job started engine opened engines next call) {c : Caller}
    {id e : ℕ} (drops : call c = .dropping id) (found : engines id = some e) :
    Owned job started engine opened (fun i => if i = id then none else engines i) next
      (Function.update call c (.closing e)) := by
  obtain ⟨unstarted, sound, opens, opener, held, listed, kept, closing, closer, pending⟩ := owned
  obtain ⟨older, number, nonzero, unclosed⟩ := listed id e found
  refine ⟨unstarted, sound, opens, opener, held,
    fun i f listed' => listed i f (Option.ite_none_left_eq_some.mp listed').2, ?_, ?_, ?_, ?_⟩
  all_goals simp only [Function.update_apply]
  · grind
  · grind
  · grind
  · grind

/-- A call finds no engine to close. -/
theorem dropNone (owned : Owned job started engine opened engines next call) {c : Caller}
    {id : ℕ} (drops : call c = .dropping id) (missing : engines id = none) :
    Owned job started engine opened engines next (Function.update call c .finished) := by
  obtain ⟨unstarted, sound, opens, opener, held, listed, kept, closing, closer, pending⟩ := owned
  refine ⟨unstarted, sound, opens, opener, held, listed, ?_, ?_, ?_, ?_⟩
  all_goals simp only [Function.update_apply]
  · grind
  · grind
  · grind
  · grind

/-- A call closes the engine that it removed from the registry. -/
theorem close (owned : Owned job started engine opened engines next call) {c : Caller} {e : ℕ}
    (closes : call c = .closing e) :
    Owned job started
      (Function.update engine e { engine e with closes := (engine e).closes + 1 }) opened engines
      next (Function.update call c .finished) := by
  obtain ⟨older, nonzero, unclosed, unlisted⟩ := owned.closing c e closes
  have held := owned.held e older
  have closed : ({ engine e with closes := (engine e).closes + 1 } : Engine).Held
      (job (engine e).job) next := by
    refine ⟨fun zero => absurd zero nonzero, held.registered, ?_, held.handed⟩
    rw [unclosed]
  obtain ⟨unstarted, sound, opens, opener, held, listed, kept, closing, closer, pending⟩ := owned
  refine ⟨unstarted, sound, ?_, ?_, ?_, ?_, ?_, ?_, ?_, ?_⟩
  all_goals simp only [Function.update_apply]
  · grind
  · grind
  · intro f before
    split_ifs with here
    · exact closed
    · exact held f before
  · grind
  · grind
  · grind
  · grind
  · grind

end Owned

/-! ## Every step keeps the owners -/

namespace Operation

variable {o : Operation Progress Value}

/-- The work of an operation goes on, or comes to an end. -/
theorem Sound.of_runs {o' : Operation Progress Value} (sound : o.Sound) (runs : o.Runs)
    (runs' : o'.Runs) (working : o'.stage = .working → o'.opened = none)
    (same : o'.state = o.state ∧ o'.engine = o.engine ∧ o'.claimed = o.claimed ∧
      o'.released = o.released) : o'.Sound := by
  obtain ⟨state, engine, claimed, released⟩ := same
  have active : o.state = .running := sound.runs.mpr runs
  have idle := sound.running active
  refine ⟨iff_of_true (state.trans active) runs', fun _ => ?_, working, fun failed => ?_⟩
  · rw [released, claimed, engine]
    exact idle
  · rw [state, active] at failed
    cases failed

theorem Sound.to_failed (sound : o.Sound) (runs : o.Runs) (message : String) :
    (o.failed message).Sound := by
  obtain ⟨-, claimed, engine⟩ := sound.running (sound.runs.mpr runs)
  exact ⟨iff_of_false (fun other => nomatch other) (not_runs _ rfl), (fun other => nomatch other),
    (fun other => nomatch other), fun _ => ⟨claimed, engine⟩⟩

theorem sound_completed (value : Option Value) (engine : ℕ) : (o.completed value engine).Sound :=
  ⟨iff_of_false (fun other => nomatch other) (not_runs _ rfl), (fun other => nomatch other),
    (fun other => nomatch other), fun other => nomatch other⟩

/-- What an operation that has ended is marked with. -/
theorem Sound.of_ended {o' : Operation Progress Value} (sound : o.Sound)
    (state : o.state ≠ .running) (same : o'.state = o.state ∧ o'.engine = o.engine ∧
      o'.stage = o.stage ∧ o'.opened = o.opened)
    (claimed : o.state = .failed → o'.claimed = o.claimed) : o'.Sound := by
  obtain ⟨state', engine, stage, opened⟩ := same
  refine ⟨?_, fun active => absurd (state' ▸ active) state, ?_, fun failed => ?_⟩
  · unfold Runs
    rw [state', stage]
    exact sound.runs
  · rw [stage, opened]
    exact sound.working
  · rw [state'] at failed
    rw [claimed failed, engine]
    exact sound.failed failed

theorem Sound.to_released (sound : o.Sound) (state : o.state ≠ .running) :
    ({ o with released := true } : Operation Progress Value).signalLocked.Sound :=
  sound.of_ended state ⟨rfl, rfl, rfl, rfl⟩ fun _ => rfl

end Operation

namespace Bridge

variable [DecidableEq Caller] [DecidableEq Progress]

/-- Every engine of the bridge has one owner. -/
def Orderly (s : Bridge Caller Progress Value) : Prop :=
  Owned s.job s.started s.engine s.opened s.engines.lookup s.next s.call

variable {s : Bridge Caller Progress Value} {p : Progress}

omit [DecidableEq Caller] [DecidableEq Progress] in
theorem Orderly.made (orderly : s.Orderly) {j : ℕ} (stage : (s.job j).stage ≠ .exited) :
    j < s.started :=
  Nat.lt_of_not_le fun later => stage (orderly.unstarted j later)

omit [DecidableEq Progress] in
theorem Orderly.move (orderly : s.Orderly) {caller : Caller} {call : Call Progress Value}
    (apart : ∀ id, s.call caller ≠ .dropping id) (apart' : ∀ e, s.call caller ≠ .closing e)
    (closes : ∀ e, call ≠ .closing e) : (s.move caller call).Orderly :=
  Owned.move orderly apart apart' closes

omit [DecidableEq Caller] [DecidableEq Progress] in
/-- An operation changes nothing that has to do with its engine. -/
theorem Orderly.setJob (orderly : s.Orderly) {j : ℕ} {o : Operation Progress Value}
    (made : j < s.started) (sound : o.Sound) (same : o.state = (s.job j).state ∧
      o.engine = (s.job j).engine ∧ o.claimed = (s.job j).claimed ∧
      o.released = (s.job j).released ∧ o.opened = (s.job j).opened) :
    (s.setJob j o).Orderly := by
  obtain ⟨state, engine, claimed, released, opened⟩ := same
  refine Owned.setJob orderly made sound opened (fun e before mine => ?_)
    (fun now => released ▸ now) fun now => claimed ▸ now
  have held := orderly.held e before
  rw [mine] at held
  refine ⟨?_, ?_, held.closed, ?_⟩
  · rw [state]
    exact held.unregistered
  · rw [state, engine]
    exact held.registered
  · rw [claimed]
    exact held.handed

omit [DecidableEq Caller] [DecidableEq Progress] in
theorem Orderly.openEngine (orderly : s.Orderly) {j : ℕ} (manifest : Value)
    (working : (s.job j).stage = .working) : (s.openEngine j manifest).Orderly := by
  have made : j < s.started := orderly.made (by rw [working]; exact fun other => nomatch other)
  have sound := orderly.sound j made
  have runs : (s.job j).Runs := Or.inl working
  refine Owned.openEngine orderly made (sound.working working) ?_ (sound.runs.mpr runs) rfl
  exact sound.of_runs runs (Or.inr ⟨_, _, rfl⟩) (fun other => nomatch other) ⟨rfl, rfl, rfl, rfl⟩

omit [DecidableEq Caller] [DecidableEq Progress] in
/-- A failure closes the engine that was opened, if there is one. -/
theorem Orderly.finish (orderly : s.Orderly) {j : ℕ} {value : Option Value} {err : Option String}
    (returned : (s.job j).stage = .returned value err) : (s.finish j value err).Orderly := by
  have made : j < s.started := orderly.made (by rw [returned]; exact fun other => nomatch other)
  have sound := orderly.sound j made
  have runs : (s.job j).Runs := Or.inr ⟨_, _, returned⟩
  have active : (s.job j).state = .running := sound.runs.mpr runs
  obtain ⟨held, unclaimed, zero⟩ := sound.running active
  unfold Bridge.finish
  split
  next message e _ has =>
    exact Owned.abandon orderly made active has (sound.to_failed runs message) rfl has
  next message _ nothing =>
    refine Owned.setJob orderly made (sound.to_failed runs message) rfl (fun e before mine => ?_) id id
    exact absurd mine (orderly.without nothing before)
  next e _ has =>
    have listed : (s.engines.insert (s.next + 1) e).lookup = fun id =>
        if id = s.next + 1 then some e else s.engines.lookup id := by
      funext id
      split_ifs with here
      · rw [here, AList.lookup_insert]
      · rw [AList.lookup_insert_ne here]
    unfold Orderly Bridge.setJob register
    dsimp only
    rw [listed]
    exact Owned.register orderly made active has (Operation.sound_completed value _) rfl rfl
      ⟨unclaimed, held⟩ has
  next _ nothing =>
    refine Owned.setJob orderly made (Operation.sound_completed value _) rfl
      (fun e before mine => ?_) id id
    exact absurd mine (orderly.without nothing before)

omit [DecidableEq Progress] in
theorem Orderly.takeEngine (orderly : s.Orderly) {caller : Caller} {j : ℕ} (made : j < s.started)
    (apart : ∀ id, s.call caller ≠ .dropping id) (apart' : ∀ e, s.call caller ≠ .closing e) :
    (s.takeEngine caller j).Orderly := by
  unfold Bridge.takeEngine
  split_ifs with refused
  · exact orderly.move apart apart' fun e other => nomatch other
  · obtain ⟨complete, unclaimed, -⟩ : (s.job j).state = .complete ∧ (s.job j).claimed ≠ true ∧
        (s.job j).released ≠ true := by
      simpa only [not_or, ne_eq, not_not] using refused
    have sound : ({ s.job j with claimed := true } : Operation Progress Value).Sound :=
      (orderly.sound j made).of_ended (by rw [complete]; decide) ⟨rfl, rfl, rfl, rfl⟩ fun failed => by
        rw [complete] at failed
        cases failed
    dsimp only
    split
    next e has =>
      have taken := Owned.take orderly made complete has (eq_false_of_ne_true unclaimed) sound
        ⟨rfl, rfl, rfl⟩ rfl
      exact Owned.move taken apart apart' fun e other => nomatch other
    next nothing =>
      have claimed : (s.setJob j { s.job j with claimed := true }).Orderly :=
        Owned.setJob orderly made sound rfl
          (fun e before mine => absurd mine (orderly.without nothing before)) id
          fun other => absurd other.symm Bool.false_ne_true
      exact Owned.move claimed apart apart' fun e other => nomatch other

omit [DecidableEq Progress] in
theorem Orderly.releaseOperation (orderly : s.Orderly) {caller : Caller} {id j : ℕ}
    (made : j < s.started) (apart : ∀ id, s.call caller ≠ .dropping id)
    (apart' : ∀ e, s.call caller ≠ .closing e) :
    (s.releaseOperation caller id j).Orderly := by
  unfold Bridge.releaseOperation
  split_ifs with released running unclaimed
  · exact orderly.move apart apart' fun e other => nomatch other
  · have sound := orderly.sound j made
    have cancelled : (s.setJob j { s.job j with cancelled := true }).Orderly :=
      orderly.setJob made ⟨sound.runs, sound.running, sound.working, sound.failed⟩
        ⟨rfl, rfl, rfl, rfl, rfl⟩
    exact cancelled.move apart apart' fun e other => nomatch other
  · have sound := (orderly.sound j made).to_released running
    exact Owned.release orderly made sound apart apart' (fun e other => nomatch other)
      (fun _ _ => rfl) ⟨rfl, rfl, rfl, rfl⟩
  · have sound := (orderly.sound j made).to_released running
    exact Owned.release orderly made sound apart apart' (fun e other => nomatch other)
      (fun nonzero free => absurd ⟨nonzero, free⟩ unclaimed) ⟨rfl, rfl, rfl, rfl⟩

omit [DecidableEq Progress] in
theorem Orderly.dropEngine (orderly : s.Orderly) {caller : Caller} {id : ℕ}
    (drops : s.call caller = .dropping id) : (s.dropEngine caller id).Orderly := by
  unfold Bridge.dropEngine
  split
  next e found =>
    have listed : (s.engines.erase id).lookup = fun i =>
        if i = id then none else s.engines.lookup i := by
      funext i
      split_ifs with here
      · rw [here, AList.lookup_erase]
      · rw [AList.lookup_erase_ne here]
    unfold Orderly
    dsimp only
    rw [listed]
    exact Owned.drop orderly drops found
  next missing => exact Owned.dropNone orderly drops missing

end Bridge

/-- The operation that a call has looked up. -/
def Call.job : Call Progress Value → Option ℕ
  | .waiting j _ | .subscribed j _ | .reading j | .taking j | .cancelling j | .releasing _ j =>
    some j
  | _ => none

/-- Only operations that were started are known. -/
structure Known (started : ℕ) (jobs : ℕ → Option ℕ) (call : Caller → Call Progress Value) :
    Prop where
  jobs : ∀ id j, jobs id = some j → j < started
  calls : ∀ c j, (call c).job = some j → j < started

/-- An operation changes, and its channel is closed if the change can be seen. -/
structure Signalled (o o' : Operation Progress Value) : Prop where
  grows : o.changed ≤ o'.changed
  closes : o'.changed = o.changed →
    o'.state = o.state ∧ o'.progress = o.progress ∧ o'.released = o.released

theorem Signalled.refl (o : Operation Progress Value) : Signalled o o :=
  ⟨le_rfl, fun _ => ⟨rfl, rfl, rfl⟩⟩

theorem Signalled.of_lt {o o' : Operation Progress Value} (grows : o.changed < o'.changed) :
    Signalled o o' :=
  ⟨grows.le, fun same => absurd same grows.ne'⟩

/-- What cannot be seen changes. -/
theorem Signalled.of_eq {o o' : Operation Progress Value} (same : o'.changed = o.changed ∧
    o'.state = o.state ∧ o'.progress = o.progress ∧ o'.released = o.released) : Signalled o o' :=
  ⟨same.1.ge, fun _ => same.2⟩

namespace Bridge

variable [DecidableEq Caller] [DecidableEq Progress] {s : Bridge Caller Progress Value}
  {p : Progress}

omit [DecidableEq Caller] [DecidableEq Progress] in
theorem signalled_setJob {i j : ℕ} {o : Operation Progress Value}
    (signalled : Signalled (s.job j) o) : Signalled (s.job i) ((s.setJob j o).job i) := by
  unfold setJob
  dsimp only
  rw [Function.update_apply]
  split_ifs with here
  · exact here ▸ signalled
  · exact .refl _

/-- **No change is missed.** -/
theorem signalled_step (event : BridgeEvent Caller Progress Value) {i : ℕ} (made : i < s.started) :
    Signalled (s.job i) ((s.step p event).job i) := by
  cases event with
  | start caller action engine =>
      simp only [step]
      split
      · simp only [startOperation, move, setJob]
        rw [Function.update_of_ne made.ne]
        exact .refl _
      · exact .refl _
  | setProgress j p =>
      simp only [step]
      split
      · split_ifs
        · refine signalled_setJob ?_
          unfold Operation.setProgress
          split_ifs
          · exact .of_lt (Nat.lt_succ_self _)
          · exact .refl _
        · exact .refl _
      · exact .refl _
  | openEngine j manifest =>
      simp only [step]
      split
      · split_ifs
        · exact signalled_setJob (.of_eq ⟨rfl, rfl, rfl, rfl⟩)
        · exact .refl _
      · exact .refl _
  | succeed j value =>
      simp only [step]
      split
      · split_ifs
        · exact .refl _
        · exact signalled_setJob (.of_eq ⟨rfl, rfl, rfl, rfl⟩)
      · exact .refl _
  | fail j message =>
      simp only [step]
      split
      · exact signalled_setJob (.of_eq ⟨rfl, rfl, rfl, rfl⟩)
      · exact .refl _
  | recover j message =>
      simp only [step]
      split
      · exact signalled_setJob (.of_lt (Nat.lt_succ_self _))
      · exact .refl _
  | finish j =>
      simp only [step]
      split
      · unfold finish
        split <;> exact signalled_setJob (.of_lt (Nat.lt_succ_self _))
      · exact .refl _
  | exit j =>
      simp only [step]
      split
      · exact signalled_setJob (.of_eq ⟨rfl, rfl, rfl, rfl⟩)
      · exact .refl _
  | lookup caller request id =>
      simp only [step]
      split
      · split <;> exact .refl _
      · exact .refl _
  | observe caller =>
      simp only [step]
      split
      · unfold observe
        split_ifs <;> exact .refl _
      · exact .refl _
  | wake caller =>
      simp only [step]
      split
      · split_ifs <;> exact .refl _
      · exact .refl _
  | timeout caller | read caller | close caller id =>
      simp only [step]
      split <;> exact .refl _
  | takeEngine caller =>
      simp only [step]
      split
      next j _ =>
        unfold takeEngine
        split_ifs
        · exact .refl _
        · have claimed : Signalled (s.job i)
              ((s.setJob j { s.job j with claimed := true }).job i) :=
            signalled_setJob (.of_eq ⟨rfl, rfl, rfl, rfl⟩)
          dsimp only
          split <;> exact claimed
      · exact .refl _
  | cancelOperation caller =>
      simp only [step]
      split
      · exact signalled_setJob (.of_eq ⟨rfl, rfl, rfl, rfl⟩)
      · exact .refl _
  | releaseOperation caller =>
      simp only [step]
      split
      · unfold releaseOperation
        split_ifs
        · exact .refl _
        · exact signalled_setJob (.of_eq ⟨rfl, rfl, rfl, rfl⟩)
        · exact signalled_setJob (.of_lt (Nat.lt_succ_self _))
        · exact signalled_setJob (.of_lt (Nat.lt_succ_self _))
      · exact .refl _
  | dropEngine caller =>
      simp only [step]
      split
      · unfold dropEngine
        split <;> exact .refl _
      · exact .refl _
  | closeEngine caller =>
      simp only [step]
      split <;> exact .refl _

/-- The calls of a bridge are about operations that were started. -/
def Referenced (s : Bridge Caller Progress Value) : Prop :=
  Known s.started s.jobs.lookup s.call

omit [DecidableEq Progress] in
theorem Referenced.move (known : s.Referenced) {caller : Caller} {call : Call Progress Value}
    (found : ∀ j, call.job = some j → j < s.started) : (s.move caller call).Referenced := by
  refine ⟨known.jobs, fun c j has => ?_⟩
  simp only [Bridge.move, Function.update_apply] at has
  split_ifs at has
  · exact found j has
  · exact known.calls c j has

omit [DecidableEq Progress] in
theorem Referenced.startOperation (known : s.Referenced) (caller : Caller) (action : Action)
    (engine : ℕ) : (s.startOperation p caller action engine).Referenced := by
  refine ⟨fun id j found => ?_, fun c j has => ?_⟩
  · simp only [Bridge.startOperation] at found
    by_cases here : id = s.next + 1
    · rw [here, AList.lookup_insert] at found
      exact Option.some.inj found ▸ Nat.lt_succ_self _
    · rw [AList.lookup_insert_ne here] at found
      exact (known.jobs id j found).trans (Nat.lt_succ_self _)
  · simp only [Bridge.startOperation, Bridge.move, Bridge.setJob, Function.update_apply] at has
    split_ifs at has
    · cases has
    · exact (known.calls c j has).trans (Nat.lt_succ_self _)

omit [DecidableEq Progress] in
theorem Referenced.releaseOperation (known : s.Referenced) (caller : Caller) (id j : ℕ) :
    (s.releaseOperation caller id j).Referenced := by
  have moved (call : Call Progress Value) (left : call.job = none) :
      (s.move caller call).Referenced := known.move fun j has => by
    rw [left] at has
    cases has
  have erased (call : Call Progress Value) (left : call.job = none) :
      Known s.started (s.jobs.erase id).lookup (Function.update s.call caller call) := by
    refine ⟨fun i j found => ?_, (moved call left).calls⟩
    by_cases here : i = id
    · rw [here, AList.lookup_erase] at found
      cases found
    · rw [AList.lookup_erase_ne here] at found
      exact known.jobs i j found
  unfold Bridge.releaseOperation
  split_ifs
  · exact moved _ rfl
  · exact moved _ rfl
  · exact erased _ rfl
  · exact erased _ rfl

/-- Every step keeps to operations that were started. -/
theorem Referenced.step (known : s.Referenced) (event : BridgeEvent Caller Progress Value) :
    (s.step p event).Referenced := by
  have left (caller : Caller) (call : Call Progress Value) (none : call.job = none) :
      (s.move caller call).Referenced := known.move fun j has => by
    rw [none] at has
    cases has
  have same (caller : Caller) {j : ℕ} (call : Call Progress Value)
      (about : (s.call caller).job = some j) (has : call.job = some j) :
      (s.move caller call).Referenced := known.move fun i has' => by
    rw [has] at has'
    exact Option.some.inj has' ▸ known.calls caller j about
  cases event with
  | start caller action engine =>
      simp only [Bridge.step]
      split
      · exact known.startOperation caller action engine
      · exact known
  | setProgress j p | openEngine j manifest | succeed j value =>
      simp only [Bridge.step]
      split
      · split_ifs <;> exact known
      · exact known
  | fail j message | recover j message | exit j =>
      simp only [Bridge.step]
      split <;> exact known
  | finish j =>
      simp only [Bridge.step]
      split
      · unfold Bridge.finish
        split <;> exact known
      · exact known
  | lookup caller request id =>
      simp only [Bridge.step]
      split
      · split
        next j found =>
          refine known.move fun i has => ?_
          have about : (Request.found request id j : Call Progress Value).job = some j := by
            cases request <;> rfl
          rw [about] at has
          exact Option.some.inj has ▸ known.jobs id j found
        next => exact left _ _ (by cases request <;> rfl)
      · exact known
  | observe caller =>
      simp only [Bridge.step]
      split
      next j timed waits =>
        unfold Bridge.observe
        split_ifs
        · exact same caller _ (by rw [waits]; rfl) rfl
        · exact left _ _ rfl
      · exact known
  | wake caller =>
      simp only [Bridge.step]
      split
      next j channel waits =>
        split_ifs
        · exact same caller _ (by rw [waits]; rfl) rfl
        · exact known
      · exact known
  | timeout caller =>
      simp only [Bridge.step]
      split
      next j channel waits => exact same caller _ (by rw [waits]; rfl) rfl
      · exact known
  | read caller | close caller id | cancelOperation caller | closeEngine caller =>
      simp only [Bridge.step]
      split
      · exact left _ _ rfl
      · exact known
  | takeEngine caller =>
      simp only [Bridge.step]
      split
      · unfold Bridge.takeEngine
        split_ifs
        · exact left _ _ rfl
        · dsimp only
          split <;> exact left _ _ rfl
      · exact known
  | releaseOperation caller =>
      simp only [Bridge.step]
      split
      · exact known.releaseOperation caller _ _
      · exact known
  | dropEngine caller =>
      simp only [Bridge.step]
      split
      · unfold Bridge.dropEngine
        split <;> exact left _ _ rfl
      · exact known

/-- Every step keeps the owners of the engines. -/
theorem Orderly.step (orderly : s.Orderly) (known : s.Referenced)
    (event : BridgeEvent Caller Progress Value) : (s.step p event).Orderly := by
  cases event with
  | start caller action engine =>
      simp only [Bridge.step]
      split
      next idle =>
        refine Owned.move (Owned.start orderly ?_ rfl) (by simp [idle]) (by simp [idle]) (by simp)
        exact ⟨iff_of_true rfl (Or.inl rfl), fun _ => ⟨rfl, rfl, rfl⟩, fun _ => rfl,
          fun other => nomatch other⟩
      · exact orderly
  | setProgress j p =>
      simp only [Bridge.step]
      split
      next working =>
        have made : j < s.started :=
          orderly.made (by rw [working]; exact fun other => nomatch other)
        have sound := orderly.sound j made
        split_ifs
        · unfold Operation.setProgress
          split_ifs
          · exact orderly.setJob made ⟨sound.runs, sound.running, sound.working, sound.failed⟩
              ⟨rfl, rfl, rfl, rfl, rfl⟩
          · exact orderly.setJob made sound ⟨rfl, rfl, rfl, rfl, rfl⟩
        · exact orderly
      · exact orderly
  | openEngine j manifest =>
      simp only [Bridge.step]
      split
      next working =>
        split_ifs
        · exact orderly.openEngine manifest working
        · exact orderly
      · exact orderly
  | succeed j value =>
      simp only [Bridge.step]
      split
      next working =>
        have made : j < s.started :=
          orderly.made (by rw [working]; exact fun other => nomatch other)
        split_ifs
        · exact orderly
        · exact orderly.setJob made ((orderly.sound j made).of_runs (Or.inl working)
            (Or.inr ⟨_, _, rfl⟩) (fun other => nomatch other) ⟨rfl, rfl, rfl, rfl⟩)
            ⟨rfl, rfl, rfl, rfl, rfl⟩
      · exact orderly
  | fail j message =>
      simp only [Bridge.step]
      split
      next working =>
        have made : j < s.started :=
          orderly.made (by rw [working]; exact fun other => nomatch other)
        exact orderly.setJob made ((orderly.sound j made).of_runs (Or.inl working)
          (Or.inr ⟨_, _, rfl⟩) (fun other => nomatch other) ⟨rfl, rfl, rfl, rfl⟩)
          ⟨rfl, rfl, rfl, rfl, rfl⟩
      · exact orderly
  | recover j message =>
      simp only [Bridge.step]
      split
      next working =>
        have made : j < s.started :=
          orderly.made (by rw [working]; exact fun other => nomatch other)
        have sound := orderly.sound j made
        refine Owned.setJob orderly made (sound.to_failed (Or.inl working) _) rfl
          (fun e before mine => ?_) id id
        exact absurd mine (orderly.without (sound.working working) before)
      · exact orderly
  | finish j =>
      simp only [Bridge.step]
      split
      next value err returned => exact orderly.finish returned
      · exact orderly
  | exit j =>
      simp only [Bridge.step]
      split
      next ended =>
        have made : j < s.started :=
          orderly.made (by rw [ended]; exact fun other => nomatch other)
        have sound := orderly.sound j made
        have idle : (s.job j).state ≠ .running := fun active =>
          (s.job j).not_runs ended (sound.runs.mp active)
        refine orderly.setJob made ⟨iff_of_false idle ?_, fun active => absurd active idle,
          (fun other => nomatch other), sound.failed⟩ ⟨rfl, rfl, rfl, rfl, rfl⟩
        rintro (other | ⟨_, _, other⟩) <;> cases other
      · exact orderly
  | lookup caller request id =>
      simp only [Bridge.step]
      split
      next idle =>
        split
        · exact orderly.move (by simp [idle]) (by simp [idle])
            fun e => by cases request <;> exact fun other => nomatch other
        · exact orderly.move (by simp [idle]) (by simp [idle])
            fun e => by cases request <;> exact fun other => nomatch other
      · exact orderly
  | observe caller =>
      simp only [Bridge.step]
      split
      next j timed waits =>
        unfold Bridge.observe
        split_ifs
        all_goals exact orderly.move (by simp [waits]) (by simp [waits]) (by simp)
      · exact orderly
  | wake caller =>
      simp only [Bridge.step]
      split
      next j channel waits =>
        split_ifs
        · exact orderly.move (by simp [waits]) (by simp [waits]) (by simp)
        · exact orderly
      · exact orderly
  | timeout caller =>
      simp only [Bridge.step]
      split
      next j channel waits => exact orderly.move (by simp [waits]) (by simp [waits]) (by simp)
      · exact orderly
  | read caller =>
      simp only [Bridge.step]
      split
      next j reads => exact orderly.move (by simp [reads]) (by simp [reads]) (by simp)
      · exact orderly
  | takeEngine caller =>
      simp only [Bridge.step]
      split
      next j takes =>
        exact orderly.takeEngine (known.calls caller j (by rw [takes]; rfl)) (by simp [takes])
          (by simp [takes])
      · exact orderly
  | cancelOperation caller =>
      simp only [Bridge.step]
      split
      next j cancels =>
        have made : j < s.started := known.calls caller j (by rw [cancels]; rfl)
        have sound := orderly.sound j made
        have cancelled : (s.setJob j { s.job j with cancelled := true }).Orderly :=
          orderly.setJob made ⟨sound.runs, sound.running, sound.working, sound.failed⟩
            ⟨rfl, rfl, rfl, rfl, rfl⟩
        exact cancelled.move (by simp [Bridge.setJob, cancels]) (by simp [Bridge.setJob, cancels])
          (by simp)
      · exact orderly
  | releaseOperation caller =>
      simp only [Bridge.step]
      split
      next id j releases =>
        exact orderly.releaseOperation (known.calls caller j (by rw [releases]; rfl))
          (by simp [releases]) (by simp [releases])
      · exact orderly
  | close caller id =>
      simp only [Bridge.step]
      split
      next idle => exact orderly.move (by simp [idle]) (by simp [idle]) (by simp)
      · exact orderly
  | dropEngine caller =>
      simp only [Bridge.step]
      split
      next id drops => exact orderly.dropEngine drops
      · exact orderly
  | closeEngine caller =>
      simp only [Bridge.step]
      split
      next e closes => exact Owned.close orderly closes
      · exact orderly

/-! ## Waiting for the next change -/

/-- Nobody waits for a channel that was not made yet. -/
def Heard (s : Bridge Caller Progress Value) : Prop :=
  ∀ c j channel, s.call c = .subscribed j channel → channel ≤ (s.job j).changed

omit [DecidableEq Progress] in
theorem subscribed_move {caller c : Caller} {call : Call Progress Value} {j channel : ℕ}
    (subscribed : (s.move caller call).call c = .subscribed j channel) :
    s.call c = .subscribed j channel ∨ c = caller ∧ call = .subscribed j channel := by
  simp only [Bridge.move, Function.update_apply] at subscribed
  split_ifs at subscribed with here
  · exact Or.inr ⟨here, subscribed⟩
  · exact Or.inl subscribed

/-- Whoever begins to wait takes the channel of that moment. -/
theorem subscribed_step (event : BridgeEvent Caller Progress Value) {c : Caller}
    {j channel : ℕ} (subscribed : (s.step p event).call c = .subscribed j channel) :
    s.call c = .subscribed j channel ∨
      channel = (s.job j).changed ∧ ∃ timed, s.call c = .waiting j timed := by
  have left (caller : Caller) (call : Call Progress Value) (none : ∀ i g, call ≠ .subscribed i g)
      (subscribed : (s.move caller call).call c = .subscribed j channel) :
      s.call c = .subscribed j channel ∨
        channel = (s.job j).changed ∧ ∃ timed, s.call c = .waiting j timed :=
    (subscribed_move subscribed).imp_right fun is => absurd is.2 (none j channel)
  cases event with
  | start caller action engine =>
      simp only [Bridge.step] at subscribed
      split at subscribed
      · exact left caller _ (by simp) subscribed
      · exact Or.inl subscribed
  | setProgress i p | openEngine i manifest | succeed i value =>
      simp only [Bridge.step] at subscribed
      split at subscribed
      · split_ifs at subscribed <;> exact Or.inl subscribed
      · exact Or.inl subscribed
  | fail i message | recover i message | exit i =>
      simp only [Bridge.step] at subscribed
      split at subscribed <;> exact Or.inl subscribed
  | finish i =>
      simp only [Bridge.step, Bridge.finish] at subscribed
      split at subscribed
      · split at subscribed <;> exact Or.inl subscribed
      · exact Or.inl subscribed
  | lookup caller request id =>
      simp only [Bridge.step] at subscribed
      split at subscribed
      · split at subscribed
        · exact left caller _ (by cases request <;> simp [Request.found]) subscribed
        · exact left caller _ (by cases request <;> simp [Request.missing]) subscribed
      · exact Or.inl subscribed
  | observe caller =>
      simp only [Bridge.step, Bridge.observe] at subscribed
      split at subscribed
      next i timed waits =>
        split_ifs at subscribed
        · refine (subscribed_move subscribed).imp_right fun ⟨here, is⟩ => ?_
          cases is
          exact ⟨rfl, timed, here ▸ waits⟩
        · exact left caller _ (by simp) subscribed
      · exact Or.inl subscribed
  | wake caller =>
      simp only [Bridge.step] at subscribed
      split at subscribed
      · split_ifs at subscribed
        · exact left caller _ (by simp) subscribed
        · exact Or.inl subscribed
      · exact Or.inl subscribed
  | timeout caller | read caller | close caller id | cancelOperation caller | closeEngine caller =>
      simp only [Bridge.step] at subscribed
      split at subscribed
      · exact left caller _ (by simp) subscribed
      · exact Or.inl subscribed
  | takeEngine caller =>
      simp only [Bridge.step, Bridge.takeEngine] at subscribed
      split at subscribed
      · split_ifs at subscribed
        · exact left caller _ (by simp) subscribed
        · split at subscribed <;> exact left caller _ (by simp) subscribed
      · exact Or.inl subscribed
  | releaseOperation caller =>
      simp only [Bridge.step, Bridge.releaseOperation] at subscribed
      split at subscribed
      · split_ifs at subscribed <;> exact left caller _ (by simp) subscribed
      · exact Or.inl subscribed
  | dropEngine caller =>
      simp only [Bridge.step, Bridge.dropEngine] at subscribed
      split at subscribed
      · split at subscribed <;> exact left caller _ (by simp) subscribed
      · exact Or.inl subscribed

theorem Heard.step (heard : s.Heard) (known : s.Referenced)
    (event : BridgeEvent Caller Progress Value) : (s.step p event).Heard := by
  intro c j channel subscribed
  rcases subscribed_step event subscribed with waits | ⟨rfl, timed, waits⟩
  · have before : j < s.started := known.calls c j (by rw [waits]; rfl)
    exact (heard c j channel waits).trans (signalled_step event before).grows
  · have before : j < s.started := known.calls c j (by rw [waits]; rfl)
    exact (signalled_step event before).grows

/-! ## Whole runs -/

/-- What holds of a bridge at every moment. -/
structure Sound (s : Bridge Caller Progress Value) : Prop where
  orderly : s.Orderly
  known : s.Referenced
  heard : s.Heard

omit [DecidableEq Caller] [DecidableEq Progress] in
theorem sound_new : (new p : Bridge Caller Progress Value).Sound where
  orderly :=
    { unstarted := fun _ _ => rfl
      sound := fun j made => absurd made (Nat.not_lt_zero j)
      opens := fun j made => absurd made (Nat.not_lt_zero j)
      opener := fun e made => absurd made (Nat.not_lt_zero e)
      held := fun e made => absurd made (Nat.not_lt_zero e)
      listed := fun id e found => by
        rw [new, AList.lookup_empty] at found
        cases found
      kept := fun e made => absurd made (Nat.not_lt_zero e)
      closing := fun _ _ closes => nomatch closes
      closer := fun _ _ _ closes => nomatch closes
      pending := fun e made => absurd made (Nat.not_lt_zero e) }
  known :=
    { jobs := fun id j found => by
        rw [new, AList.lookup_empty] at found
        cases found
      calls := fun _ _ has => nomatch has }
  heard _ _ _ subscribed := nomatch subscribed

/-- **Every engine has one owner, and no change is missed, at every moment.** -/
theorem sound_run (p : Progress) (events : List (BridgeEvent Caller Progress Value)) :
    (run p events).Sound :=
  List.foldlRecOn events (step p) sound_new fun _ sound event _ =>
    ⟨sound.orderly.step sound.known event, sound.known.step event, sound.heard.step sound.known event⟩

/-- Where an engine is. -/
def Accounted (s : Bridge Caller Progress Value) (e : ℕ) : Prop :=
  let o := s.job (s.engine e).job
  o.state = .complete ∧ o.released = false ∧ o.claimed = false ∨
    o.claimed = true ∨ (s.engine e).closes = 1

/-- A call is about to close an engine. -/
def BeingClosed (s : Bridge Caller Progress Value) (e : ℕ) : Prop :=
  ∃ c, s.call c = .dropping (s.engine e).id ∨ s.call c = .closing e

omit [DecidableEq Caller] [DecidableEq Progress] in
/-- The engine of a released operation that nobody took is closed, or a call will do it. -/
theorem Orderly.released (orderly : s.Orderly) {e : ℕ} (made : e < s.opened)
    (released : (s.job (s.engine e).job).released = true)
    (unclaimed : (s.job (s.engine e).job).claimed = false) :
    (s.engine e).closes = 1 ∨ s.BeingClosed e := by
  have held := orderly.held e made
  by_cases zero : (s.engine e).id = 0
  · rcases held.unregistered zero with ⟨active, -⟩ | ⟨-, closed⟩
    · have before := (orderly.opener e made).1
      rw [((orderly.sound _ before).running active).1] at released
      cases released
    · exact Or.inl closed
  · rcases orderly.kept e made zero with listed | ⟨c, closes⟩ | closed
    · obtain ⟨c, drops⟩ := orderly.pending e made released unclaimed listed
      exact Or.inr ⟨c, Or.inl drops⟩
    · exact Or.inr ⟨c, Or.inr closes⟩
    · exact Or.inl closed

omit [DecidableEq Caller] [DecidableEq Progress] in
/-- An engine is with the operation that opened it, accounted for, or being closed. -/
theorem Orderly.accounted (orderly : s.Orderly) {e : ℕ} (made : e < s.opened) :
    (s.job (s.engine e).job).state = .running ∨ s.Accounted e ∨
      (s.job (s.engine e).job).released = true ∧ s.BeingClosed e := by
  have held := orderly.held e made
  cases released : (s.job (s.engine e).job).released with
  | true =>
      cases claimed : (s.job (s.engine e).job).claimed with
      | true => exact Or.inr (Or.inl (Or.inr (Or.inl claimed)))
      | false =>
          rcases orderly.released made released claimed with closed | calls
          · exact Or.inr (Or.inl (Or.inr (Or.inr closed)))
          · exact Or.inr (Or.inr ⟨rfl, calls⟩)
  | false =>
      by_cases zero : (s.engine e).id = 0
      · rcases held.unregistered zero with ⟨active, -⟩ | ⟨-, closed⟩
        · exact Or.inl active
        · exact Or.inr (Or.inl (Or.inr (Or.inr closed)))
      · have complete := (held.registered zero).1
        cases claimed : (s.job (s.engine e).job).claimed with
        | true => exact Or.inr (Or.inl (Or.inr (Or.inl claimed)))
        | false => exact Or.inr (Or.inl (Or.inl ⟨complete, released, claimed⟩))

/-- **Engine handles are owned exactly once.** After any sequence of steps of any calls and
operations: every engine was handed out at most once and closed at most once; it is with the
running operation that opened it, owned by a completed operation that is neither claimed nor
released, claimed, closed, or about to be closed by a call, after its operation was
released; an operation that fails has closed the engine it opened; the engine of a released
operation that nobody took is closed or about to be; and every change of the progress, the
state or the release of an operation closes the channel of everybody who waits for it. -/
theorem engines_owned_once (p : Progress) (events : List (BridgeEvent Caller Progress Value)) :
    let s := run p events
    (∀ e < s.opened, (s.engine e).handed ≤ 1 ∧ (s.engine e).closes ≤ 1) ∧
    (∀ e < s.opened, (s.job (s.engine e).job).state = .running ∨ s.Accounted e ∨
      (s.job (s.engine e).job).released = true ∧ s.BeingClosed e) ∧
    (∀ e < s.opened, (s.job (s.engine e).job).state = .failed → (s.engine e).closes = 1) ∧
    (∀ e < s.opened, (s.job (s.engine e).job).released = true →
      (s.job (s.engine e).job).claimed = false → (s.engine e).closes = 1 ∨ s.BeingClosed e) ∧
    ∀ event c j channel, s.call c = .subscribed j channel →
      (((s.step p event).job j).state, ((s.step p event).job j).progress,
          ((s.step p event).job j).released) ≠
        ((s.job j).state, (s.job j).progress, (s.job j).released) →
      channel < ((s.step p event).job j).changed := by
  intro s
  obtain ⟨orderly, known, heard⟩ : s.Sound := sound_run p events
  refine ⟨fun e made => ⟨?_, (orderly.held e made).closed⟩, fun e made => orderly.accounted made,
    fun e made failed => ?_, fun e made => orderly.released made,
    fun event c j channel waits changes => ?_⟩
  · rw [(orderly.held e made).handed]
    split_ifs <;> decide
  · have held := orderly.held e made
    have zero : (s.engine e).id = 0 := held.id_eq_zero (by rw [failed]; decide)
    rcases held.unregistered zero with ⟨active, -⟩ | ⟨-, closed⟩
    · rw [failed] at active
      cases active
    · exact closed
  · have made : j < s.started := known.calls c j (by rw [waits]; rfl)
    have signalled : Signalled (s.job j) ((s.step p event).job j) := signalled_step event made
    refine (heard c j channel waits).trans_lt (signalled.grows.lt_of_ne fun same => changes ?_)
    obtain ⟨state, progress, released⟩ := signalled.closes same.symm
    rw [state, progress, released]

/-- An operation opens an engine, which nobody takes before the operation is released: the
engine is closed only after the release has left the lock. -/
theorem not_accounted_released :
    ¬ ∀ events : List (BridgeEvent ℕ Unit Unit), ∀ e < (run () events).opened,
      (run () events).Accounted e := by
  intro all
  have none := all [.start 0 .openRegion 0, .openEngine 0 (), .finish 0, .lookup 1 .release 1,
    .releaseOperation 1] 0 (by decide)
  revert none
  unfold Accounted
  decide

end Bridge

end OsmMini.Bindings

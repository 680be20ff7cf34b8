import Mathlib.Data.List.Basic

/-!
# One download transfer

A transfer runs one download task and resumes one continuation with its result. It may be
cancelled at any time, also before it runs and any number of times. A cancellation asks the
task for resume data, which a handler stores; the continuation is not resumed before that
happened, so that the next transfer of the same file does not start too early. A result that
comes meanwhile is kept, and the handler goes on with it.

Every lock-protected section is one step, and so is every effect between two sections. The
calls of `cancel` with their handlers interleave in any order with the callbacks of the
session, which come one at a time, the terminal one last. The call of `cancel` that `run`
makes when the transfer was cancelled before is one of the calls. The continuation is resumed
once (`completes_once`).
-/

set_option autoImplicit false

namespace OsmMini.Apple

/-- Why a transfer failed. Errors of the system are a parameter. -/
inductive DownloadError (E : Type) where
  | native (message : String)
  | cancellation
  | invalidResponse
  | system (error : E)

/-- The file is at the target, or an error. -/
inductive DownloadResult (E : Type) where
  | success
  | failure (error : DownloadError E)

/-- What the first checks of a finished download find: the answer of the server, the attributes
of the file, its size. -/
inductive Inspection (E : Type) where
  | valid
  | httpError
  | attributesFailed (error : E)
  | invalidSize

/-- Where a call of `cancel` with its handler stands. -/
inductive CancelPhase where
  | idle
  /-- Nothing was to be requested. -/
  | ignored
  /-- The resume data is requested; the task was not told yet. -/
  | requested
  /-- The task was told; the handler was not called yet. -/
  | issued
  /-- The handler stored the data. -/
  | stored
  | answered
  deriving DecidableEq

/-- Where the callbacks of the session stand. -/
inductive SessionPhase (E : Type) where
  | waiting
  /-- The size limit was exceeded; the task is about to be cancelled. -/
  | exceeded
  | inspected
  | staging
  | staged
  | publishing
  | recording (result : DownloadResult E)
  | completing (error : Option E)
  | completed

/-- Where a call of `finish` stands. -/
inductive Finishing (E : Type) where
  | idle
  | entered (result : DownloadResult E)
  /-- It took the continuation. -/
  | taken (result : DownloadResult E)

/-- A step of the transfer. A call of `finish` belongs to the terminal callback (`none`) or to a
handler. -/
inductive DownloadEvent (Call E : Type) where
  | run
  | cancel (call : Call)
  | issue (call : Call)
  | store (call : Call)
  | answer (call : Call)
  | exceed
  | cancelTask
  | didFinish (inspection : Inspection E)
  | check
  | move (failed : Option E)
  | record
  | didComplete (error : Option E)
  | conclude
  | finish (worker : Option Call)
  | resume (worker : Option Call)

/-- The transfer with its calls. The results its continuation was resumed with, and whether the
file was moved to the target, are recorded beside it. -/
structure DownloadTransfer (Call E : Type) where
  providerName : String
  continuation : Bool
  task : Bool
  cancelled : Bool
  failure : Option String
  resumePending : Bool
  pendingResult : Option (DownloadResult E)
  downloadResult : Option (DownloadResult E)
  call : Call → CancelPhase
  session : SessionPhase E
  finishing : Option Call → Finishing E
  started : Bool
  moved : Bool
  resumed : List (DownloadResult E)

variable {Call E : Type} [DecidableEq Call]

namespace DownloadTransfer

def new (providerName : String) : DownloadTransfer Call E where
  providerName := providerName
  continuation := false
  task := false
  cancelled := false
  failure := none
  resumePending := false
  pendingResult := none
  downloadResult := none
  call _ := .idle
  session := .waiting
  finishing _ := .idle
  started := false
  moved := false
  resumed := []

/-- The section of `run`. -/
def run (s : DownloadTransfer Call E) : DownloadTransfer Call E :=
  { s with continuation := true, task := true, started := true }

/-- The first section of `cancel`. -/
def cancel (s : DownloadTransfer Call E) (call : Call) : DownloadTransfer Call E :=
  let requestResume := s.task && !s.resumePending && s.continuation
  { s with
    cancelled := true
    resumePending := s.resumePending || requestResume
    call := Function.update s.call call (if requestResume then .requested else .ignored) }

/-- The section of the handler. A result that was kept goes on. -/
def answer (s : DownloadTransfer Call E) (call : Call) : DownloadTransfer Call E :=
  { s with
    resumePending := false
    pendingResult := none
    call := Function.update s.call call .answered
    finishing := match s.pendingResult with
      | some result => Function.update s.finishing (some call) (.entered result)
      | none => s.finishing }

/-- The result of the first checks of a finished download. -/
def inspect (s : DownloadTransfer Call E) : Inspection E → SessionPhase E
  | .valid => .inspected
  | .httpError => .recording (.failure (.native (s.providerName ++ " download returned an HTTP error")))
  | .attributesFailed error => .recording (.failure (.system error))
  | .invalidSize => .recording (.failure (.native "Invalid PBF download size"))

/-- What `didCompleteWithError` finishes with. -/
def outcome (s : DownloadTransfer Call E) : Option E → DownloadResult E
  | some error =>
    match s.failure with
    | some message => .failure (.native message)
    | none => if s.cancelled then .failure .cancellation else .failure (.system error)
  | none => s.downloadResult.getD (.failure .invalidResponse)

/-- The section of `finish`. While resume data is being stored the result is kept. -/
def finish (s : DownloadTransfer Call E) (worker : Option Call) (result : DownloadResult E) :
    DownloadTransfer Call E :=
  if s.resumePending then
    { s with
      pendingResult := some result
      finishing := Function.update s.finishing worker .idle }
  else
    { s with
      continuation := false
      task := false
      finishing := Function.update s.finishing worker
        (if s.continuation then .taken result else .idle) }

/-- One step. What cannot happen where the transfer stands changes nothing. -/
def step (s : DownloadTransfer Call E) : DownloadEvent Call E → DownloadTransfer Call E
  | .run => if s.started then s else s.run
  | .cancel call => if s.call call = .idle then s.cancel call else s
  | .issue call =>
    if s.call call = .requested then { s with call := Function.update s.call call .issued } else s
  | .store call =>
    if s.call call = .issued then { s with call := Function.update s.call call .stored } else s
  | .answer call => if s.call call = .stored then s.answer call else s
  | .exceed =>
    match s.started, s.session with
    | true, .waiting => { s with
        session := .exceeded
        failure := some "Download exceeds the configured size limit. Choose a smaller region or increase maximumBytes." }
    | _, _ => s
  | .cancelTask =>
    match s.session with
    | .exceeded => { s with session := .waiting }
    | _ => s
  | .didFinish inspection =>
    match s.started, s.session with
    | true, .waiting => { s with session := s.inspect inspection }
    | _, _ => s
  | .check =>
    match s.session with
    | .inspected => { s with
        session := if s.cancelled then .recording (.failure .cancellation) else .staging }
    | .staged => { s with
        session := if s.cancelled then .recording (.failure .cancellation) else .publishing }
    | _ => s
  | .move failed =>
    match s.session with
    | .staging => { s with
        session := match failed with
          | none => .staged
          | some error => .recording (.failure (.system error)) }
    | .publishing =>
      match failed with
      | none => { s with session := .recording .success, moved := true }
      | some error => { s with session := .recording (.failure (.system error)) }
    | _ => s
  | .record =>
    match s.session with
    | .recording result => { s with session := .waiting, downloadResult := some result }
    | _ => s
  | .didComplete error =>
    match s.started, s.session with
    | true, .waiting => { s with session := .completing error }
    | _, _ => s
  | .conclude =>
    match s.session with
    | .completing error => { s with
        session := .completed
        finishing := Function.update s.finishing none (.entered (s.outcome error)) }
    | _ => s
  | .finish worker =>
    match s.finishing worker with
    | .entered result => s.finish worker result
    | _ => s
  | .resume worker =>
    match s.finishing worker with
    | .taken result => { s with
        resumed := s.resumed ++ [result]
        finishing := Function.update s.finishing worker .idle }
    | _ => s

def after (providerName : String) (events : List (DownloadEvent Call E)) :
    DownloadTransfer Call E :=
  events.foldl step (new providerName)

/-! ## What holds at every moment -/

end DownloadTransfer

/-- Resume data was requested, and the handler did not answer yet. -/
def CancelPhase.Outstanding (phase : CancelPhase) : Prop :=
  phase = .requested ∨ phase = .issued ∨ phase = .stored

namespace DownloadTransfer

/-- The calls of `cancel`: one at a time waits for its handler, while the continuation is there. -/
structure Requests (call : Call → CancelPhase) (resumePending continuation : Bool) : Prop where
  waits : ∀ c, (call c).Outstanding → resumePending = true
  waited : resumePending = true → ∃ c, (call c).Outstanding
  single : ∀ c c', (call c).Outstanding → (call c').Outstanding → c = c'
  unresumed : resumePending = true → continuation = true

/-- The result of the terminal callback is in one place: in a call of `finish`, kept for the
handler, or with the caller of `run`. -/
structure Carried (session : SessionPhase E) (finishing : Option Call → Finishing E)
    (pendingResult : Option (DownloadResult E)) (resumed : List (DownloadResult E)) : Prop where
  single : ∀ w w', finishing w ≠ .idle → finishing w' ≠ .idle → w = w'
  alone : ∀ w, finishing w ≠ .idle → pendingResult = none ∧ resumed = []
  kept : pendingResult ≠ none → resumed = []
  ended : session = .completed ↔
    (∃ w, finishing w ≠ .idle) ∨ pendingResult ≠ none ∨ resumed ≠ []
  once : resumed.length ≤ 1

/-- What holds at every moment. -/
structure Sound (s : DownloadTransfer Call E) : Prop where
  requests : Requests s.call s.resumePending s.continuation
  carried : Carried s.session s.finishing s.pendingResult s.resumed
  held : ∀ result, s.pendingResult = some result → s.resumePending = true
  task : s.task = s.continuation
  begun : s.continuation = true → s.started = true
  unstarted : s.started = false → s.session = .waiting
  open_iff : s.started = true → (s.continuation = false ↔
    (∃ w result, s.finishing w = .taken result) ∨ s.resumed ≠ [])

/-- A success is on its way only if the file is at the target. -/
structure Truthful (s : DownloadTransfer Call E) : Prop where
  recording : s.session = .recording .success → s.moved = true
  downloaded : s.downloadResult = some .success → s.moved = true
  entered : ∀ w, s.finishing w = .entered .success → s.moved = true
  taken : ∀ w, s.finishing w = .taken .success → s.moved = true
  kept : s.pendingResult = some .success → s.moved = true
  resumed : .success ∈ s.resumed → s.moved = true

theorem Requests.move {call : Call → CancelPhase} {resumePending continuation : Bool}
    (h : Requests call resumePending continuation) {c : Call} {next : CancelPhase}
    (same : next.Outstanding ↔ (call c).Outstanding) :
    Requests (Function.update call c next) resumePending continuation := by
  obtain ⟨waits, waited, single, unresumed⟩ := h
  refine ⟨?_, ?_, ?_, unresumed⟩
  all_goals simp only [Function.update_apply]
  · grind
  · intro pending
    obtain ⟨c', there⟩ := waited pending
    exact ⟨c', by grind⟩
  · grind

omit [DecidableEq Call] in
theorem Sound.run {s : DownloadTransfer Call E} (h : s.Sound) (new : s.started = false) :
    s.run.Sound := by
  obtain ⟨⟨waits, waited, single, unresumed⟩, carried, held, task, begun, unstarted, open_iff⟩ := h
  have waiting := unstarted new
  have nothing : ¬ ((∃ w, s.finishing w ≠ .idle) ∨ s.pendingResult ≠ none ∨ s.resumed ≠ []) := by
    rw [← carried.ended, waiting]
    nofun
  refine ⟨⟨waits, waited, single, fun _ => rfl⟩, carried, held, rfl, fun _ => rfl, nofun,
    fun _ => ⟨nofun, ?_⟩⟩
  rintro (⟨w, result, there⟩ | some)
  · have busy : s.finishing w ≠ .idle := fun idle => by
      rw [show s.finishing w = .taken result from there] at idle
      cases idle
    exact absurd (.inl ⟨w, busy⟩) nothing
  · exact absurd (.inr (.inr some)) nothing

theorem Sound.cancel {s : DownloadTransfer Call E} (h : s.Sound) {c : Call}
    (idle : s.call c = .idle) : (s.cancel c).Sound := by
  obtain ⟨requests, carried, held, task, begun, unstarted, open_iff⟩ := h
  rw [DownloadTransfer.cancel]
  cases request : s.task && !s.resumePending && s.continuation with
  | false =>
      rw [Bool.or_false, if_neg Bool.false_ne_true]
      refine ⟨requests.move ?_, carried, held, task, begun, unstarted, open_iff⟩
      simp [CancelPhase.Outstanding, idle]
  | true =>
      simp only [Bool.and_eq_true, Bool.not_eq_true'] at request
      obtain ⟨⟨-, free⟩, stored⟩ := request
      have nobody : ∀ c', ¬ (s.call c').Outstanding := fun c' there => by
        rw [requests.waits c' there] at free
        cases free
      rw [Bool.or_true, if_pos rfl]
      refine ⟨⟨fun _ _ => rfl, fun _ => ⟨c, ?_⟩, ?_, fun _ => stored⟩, carried, fun _ _ => rfl, task,
        begun, unstarted, open_iff⟩
      · simp [CancelPhase.Outstanding]
      · intro c' c''
        simp only [Function.update_apply]
        grind

theorem Sound.move {s : DownloadTransfer Call E} (h : s.Sound) {c : Call} {next : CancelPhase}
    (same : next.Outstanding ↔ (s.call c).Outstanding) :
    Sound { s with call := Function.update s.call c next } :=
  { h with requests := h.requests.move same }

omit [DecidableEq Call] in
/-- A callback of the session goes on, without the terminal one. -/
theorem Sound.callback {s : DownloadTransfer Call E} (h : s.Sound) {next : SessionPhase E}
    (begun : s.started = true) (before : s.session ≠ .completed) (after : next ≠ .completed) :
    Sound { s with session := next } := by
  obtain ⟨requests, ⟨single, alone, kept, ended, once⟩, held, task, begun', -, open_iff⟩ := h
  refine ⟨requests, ⟨single, alone, kept, ?_, once⟩, held, task, begun', ?_, open_iff⟩
  · rw [← ended]
    exact ⟨fun there => absurd there after, fun there => absurd there before⟩
  · intro new
    rw [begun] at new
    cases new

theorem Sound.conclude {s : DownloadTransfer Call E} (h : s.Sound) {error : Option E}
    (here : s.session = .completing error) (result : DownloadResult E) :
    Sound { s with
      session := .completed
      finishing := Function.update s.finishing none (.entered result) } := by
  obtain ⟨requests, ⟨single, alone, kept, ended, once⟩, held, task, begun, unstarted, open_iff⟩ := h
  have nothing : ¬ ((∃ w, s.finishing w ≠ .idle) ∨ s.pendingResult ≠ none ∨ s.resumed ≠ []) := by
    rw [← ended, here]
    nofun
  simp only [not_or, not_exists, not_not] at nothing
  obtain ⟨idle, empty, unresumed⟩ := nothing
  refine ⟨requests, ⟨?_, fun _ _ => ⟨empty, unresumed⟩, fun _ => unresumed, ?_, once⟩, held, task,
    begun, ?_, ?_⟩
  · intro w w'
    simp only [Function.update_apply]
    grind
  · exact ⟨fun _ => .inl ⟨none, by simp⟩, fun _ => rfl⟩
  · intro new
    rw [unstarted new] at here
    cases here
  · intro started
    rw [open_iff started]
    simp only [Function.update_apply]
    grind

theorem Sound.answer {s : DownloadTransfer Call E} (h : s.Sound) {c : Call}
    (here : s.call c = .stored) : (s.answer c).Sound := by
  obtain ⟨⟨waits, waited, only, unresumed⟩, ⟨single, alone, kept, ended, once⟩, held, task, begun,
    unstarted, open_iff⟩ := h
  have mine : (s.call c).Outstanding := .inr (.inr here)
  have requests : Requests (Function.update s.call c .answered) false s.continuation := by
    refine ⟨?_, nofun, ?_, nofun⟩
    · intro c' there
      simp only [Function.update_apply] at there
      grind [CancelPhase.Outstanding]
    · simp only [Function.update_apply]
      grind [CancelPhase.Outstanding]
  rw [DownloadTransfer.answer]
  cases pending : s.pendingResult with
  | none =>
      refine ⟨requests, ⟨single, ?_, ?_, ?_, once⟩, nofun, task, begun, unstarted, open_iff⟩
      · exact fun w busy => ⟨rfl, (alone w busy).2⟩
      · exact fun some => absurd rfl some
      · rw [ended, pending]
  | some result =>
      have free : ∀ w, s.finishing w = .idle := by
        intro w
        by_contra busy
        rw [(alone w busy).1] at pending
        cases pending
      have empty : s.resumed = [] := kept (by rw [pending]; nofun)
      refine ⟨requests, ⟨?_, fun _ _ => ⟨rfl, empty⟩, fun _ => empty, ?_, once⟩, nofun, task, begun,
        unstarted, ?_⟩
      · intro w w'
        simp only [Function.update_apply]
        grind
      · exact ⟨fun _ => .inl ⟨some c, by simp⟩, fun _ => ended.mpr (.inr (.inl (by simp [pending])))⟩
      · intro started
        rw [open_iff started]
        simp only [Function.update_apply]
        grind

theorem Sound.finish {s : DownloadTransfer Call E} (h : s.Sound) {w : Option Call}
    {result : DownloadResult E} (here : s.finishing w = .entered result) :
    (s.finish w result).Sound := by
  obtain ⟨requests, ⟨single, alone, kept, ended, once⟩, held, task, begun, unstarted, open_iff⟩ := h
  have busy : s.finishing w ≠ .idle := by
    rw [here]
    nofun
  obtain ⟨empty, unresumed⟩ := alone w busy
  have completed : s.session = .completed := ended.mpr (.inl ⟨w, busy⟩)
  have others : ∀ w', w' ≠ w → s.finishing w' = .idle := by
    intro w' other
    by_contra busy'
    exact other (single w' w busy' busy)
  rw [DownloadTransfer.finish]
  by_cases pending : s.resumePending = true
  · rw [if_pos pending]
    refine ⟨requests, ⟨?_, ?_, fun _ => unresumed, ?_, once⟩, fun _ _ => pending, task, begun,
      unstarted, ?_⟩
    · intro w' w''
      simp only [Function.update_apply]
      grind
    · intro w'
      simp only [Function.update_apply]
      grind
    · exact ⟨fun _ => .inr (.inl nofun), fun _ => completed⟩
    · intro started
      rw [open_iff started]
      simp only [Function.update_apply]
      grind
  · rw [if_neg pending]
    have started : s.started = true := by
      by_contra new
      rw [unstarted (Bool.eq_false_iff.mpr new)] at completed
      cases completed
    have stored : s.continuation = true := by
      by_contra closed
      obtain ⟨w', result', there⟩ | some := (open_iff started).mp (Bool.eq_false_iff.mpr closed)
      · by_cases same : w' = w
        · rw [same, here] at there
          cases there
        · rw [others w' same] at there
          cases there
      · exact some unresumed
    simp only [if_pos stored]
    refine ⟨⟨requests.waits, requests.waited, requests.single, ?_⟩, ⟨?_, ?_, kept, ?_, once⟩, held,
      rfl, nofun, unstarted, ?_⟩
    · intro pending'
      exact absurd pending' pending
    · intro w' w''
      simp only [Function.update_apply]
      grind
    · exact fun _ _ => ⟨empty, unresumed⟩
    · exact ⟨fun _ => .inl ⟨w, by simp⟩, fun _ => completed⟩
    · exact fun _ => ⟨fun _ => .inl ⟨w, result, Function.update_self ..⟩, fun _ => rfl⟩

theorem Sound.resume {s : DownloadTransfer Call E} (h : s.Sound) {w : Option Call}
    {result : DownloadResult E} (here : s.finishing w = .taken result) :
    Sound { s with
      resumed := s.resumed ++ [result]
      finishing := Function.update s.finishing w .idle } := by
  obtain ⟨requests, ⟨single, alone, kept, ended, once⟩, held, task, begun, unstarted, open_iff⟩ := h
  have busy : s.finishing w ≠ .idle := by
    rw [here]
    nofun
  obtain ⟨empty, unresumed⟩ := alone w busy
  have completed : s.session = .completed := ended.mpr (.inl ⟨w, busy⟩)
  have others : ∀ w', Function.update s.finishing w .idle w' = .idle := by
    intro w'
    rw [Function.update_apply]
    split_ifs with same
    · rfl
    · by_contra busy'
      exact same (single w' w busy' busy)
  refine ⟨requests, ⟨?_, ?_, ?_, ?_, ?_⟩, held, task, begun, unstarted, ?_⟩
  · exact fun w' _ busy' _ => absurd (others w') busy'
  · exact fun w' busy' => absurd (others w') busy'
  · exact fun some => absurd empty some
  · exact ⟨fun _ => .inr (.inr (by simp)), fun _ => completed⟩
  · rw [unresumed]
    exact Nat.le_refl _
  · intro started
    refine ⟨fun _ => .inr (by simp), fun _ => ?_⟩
    exact (open_iff started).mpr (.inl ⟨w, result, here⟩)

omit [DecidableEq Call] in
theorem sound_new (providerName : String) :
    (new providerName : DownloadTransfer Call E).Sound := by
  refine ⟨⟨?_, nofun, ?_, nofun⟩, ⟨?_, ?_, ?_, ?_, ?_⟩, nofun, rfl, nofun, fun _ => rfl, nofun⟩
  all_goals simp [new, CancelPhase.Outstanding]

omit [DecidableEq Call] in
theorem inspect_ne (s : DownloadTransfer Call E) (inspection : Inspection E) :
    s.inspect inspection ≠ .completed := by
  cases inspection <;> nofun

theorem Sound.step {s : DownloadTransfer Call E} (h : s.Sound) (event : DownloadEvent Call E) :
    (s.step event).Sound := by
  have begun : s.session ≠ .waiting → s.started = true := fun busy => by
    by_contra new
    exact busy (h.unstarted (Bool.eq_false_iff.mpr new))
  cases event with
  | run =>
      rw [DownloadTransfer.step]
      split_ifs with started
      · exact h
      · exact h.run (Bool.eq_false_iff.mpr started)
  | cancel c =>
      rw [DownloadTransfer.step]
      split_ifs with idle
      · exact h.cancel idle
      · exact h
  | issue c =>
      rw [DownloadTransfer.step]
      split_ifs with here
      · exact h.move (by simp [CancelPhase.Outstanding, here])
      · exact h
  | store c =>
      rw [DownloadTransfer.step]
      split_ifs with here
      · exact h.move (by simp [CancelPhase.Outstanding, here])
      · exact h
  | answer c =>
      rw [DownloadTransfer.step]
      split_ifs with here
      · exact h.answer here
      · exact h
  | exceed =>
      rw [DownloadTransfer.step]
      split
      · next started here =>
          have moved := h.callback started (by rw [here]; nofun) (nofun : SessionPhase.exceeded ≠ .completed)
          exact { moved with }
      · exact h
  | cancelTask =>
      rw [DownloadTransfer.step]
      split
      · next here => exact h.callback (begun (by rw [here]; nofun)) (by rw [here]; nofun) nofun
      · exact h
  | didFinish inspection =>
      rw [DownloadTransfer.step]
      split
      · next started here => exact h.callback started (by rw [here]; nofun) (inspect_ne s inspection)
      · exact h
  | check =>
      rw [DownloadTransfer.step]
      split
      · next here =>
          refine h.callback (begun (by rw [here]; nofun)) (by rw [here]; nofun) ?_
          split_ifs <;> nofun
      · next here =>
          refine h.callback (begun (by rw [here]; nofun)) (by rw [here]; nofun) ?_
          split_ifs <;> nofun
      · exact h
  | move failed =>
      simp only [DownloadTransfer.step]
      split
      · next here =>
          refine h.callback (begun (by rw [here]; nofun)) (by rw [here]; nofun) ?_
          cases failed <;> nofun
      · next here =>
          have moved := h.callback (begun (by rw [here]; nofun)) (by rw [here]; nofun)
            (nofun : SessionPhase.recording .success ≠ .completed)
          have failing := fun error => h.callback (begun (by rw [here]; nofun))
            (by rw [here]; nofun)
            (nofun : SessionPhase.recording (.failure (.system error)) ≠ .completed)
          cases failed with
          | none => exact { moved with }
          | some error => exact failing error
      · exact h
  | record =>
      rw [DownloadTransfer.step]
      split
      · next here =>
          have moved := h.callback (begun (by rw [here]; nofun)) (by rw [here]; nofun)
            (nofun : SessionPhase.waiting ≠ .completed)
          exact { moved with }
      · exact h
  | didComplete error =>
      rw [DownloadTransfer.step]
      split
      · next started here => exact h.callback started (by rw [here]; nofun) nofun
      · exact h
  | conclude =>
      rw [DownloadTransfer.step]
      split
      · next here => exact h.conclude here _
      · exact h
  | finish w =>
      rw [DownloadTransfer.step]
      split
      · next here => exact h.finish here
      · exact h
  | resume w =>
      rw [DownloadTransfer.step]
      split
      · next here => exact h.resume here
      · exact h

omit [DecidableEq Call] in
/-- The terminal callback reports a success only if one was recorded. -/
theorem outcome_success {s : DownloadTransfer Call E} {error : Option E}
    (success : s.outcome error = .success) : s.downloadResult = some .success := by
  cases error with
  | some error =>
      rw [outcome] at success
      split at success
      · cases success
      · split_ifs at success
  | none =>
      rw [outcome] at success
      cases found : s.downloadResult with
      | none =>
          rw [found] at success
          cases success
      | some result =>
          rw [found, Option.getD_some] at success
          rw [success]

theorem Truthful.step {s : DownloadTransfer Call E} (h : s.Truthful)
    (event : DownloadEvent Call E) : (s.step event).Truthful := by
  have reported := fun error => @outcome_success Call E s error
  obtain ⟨recording, downloaded, entered, taken, kept, resumed⟩ := h
  cases event <;>
    simp only [DownloadTransfer.step, run, cancel, answer, finish, inspect] <;>
    (repeat' split) <;>
    refine ⟨?_, ?_, ?_, ?_, ?_, ?_⟩ <;> (try simp only [Function.update_apply]) <;> grind

omit [DecidableEq Call] in
theorem truthful_new (providerName : String) :
    (new providerName : DownloadTransfer Call E).Truthful := by
  refine ⟨?_, ?_, ?_, ?_, ?_, ?_⟩ <;> simp [new]

theorem sound_after (providerName : String) (events : List (DownloadEvent Call E)) :
    (after providerName events).Sound :=
  List.foldlRecOn events step (sound_new providerName) fun _ kept event _ => kept.step event

theorem truthful_after (providerName : String) (events : List (DownloadEvent Call E)) :
    (after providerName events).Truthful :=
  List.foldlRecOn events step (truthful_new providerName) fun _ kept event _ => kept.step event

/-- All callbacks have arrived: the terminal one, and the handler of every request, and none of
them is at work. -/
structure Arrived (s : DownloadTransfer Call E) : Prop where
  terminal : s.session = .completed
  answered : ∀ call, ¬ (s.call call).Outstanding
  finished : ∀ worker, s.finishing worker = .idle

omit [DecidableEq Call] in
/-- Once the continuation was taken, no resume data is being requested or stored. -/
theorem Sound.no_request {s : DownloadTransfer Call E} (h : s.Sound)
    (completed : (∃ worker result, s.finishing worker = .taken result) ∨ s.resumed ≠ [])
    (call : Call) : ¬ (s.call call).Outstanding := by
  intro outstanding
  have stored := h.requests.unresumed (h.requests.waits call outstanding)
  have closed := (h.open_iff (h.begun stored)).mpr completed
  rw [stored] at closed
  cases closed

omit [DecidableEq Call] in
theorem Sound.resumed_once {s : DownloadTransfer Call E} (h : s.Sound) (arrived : s.Arrived) :
    s.resumed.length = 1 := by
  have nonempty : s.resumed ≠ [] := by
    obtain ⟨w, busy⟩ | kept | some := h.carried.ended.mp arrived.terminal
    · exact absurd (arrived.finished w) busy
    · obtain ⟨result, pending⟩ := Option.ne_none_iff_exists'.mp kept
      obtain ⟨call, outstanding⟩ := h.requests.waited (h.held result pending)
      exact absurd outstanding (arrived.answered call)
    · exact some
  have positive := List.length_pos_iff.mpr nonempty
  have most := h.carried.once
  omega

omit [DecidableEq Call] in
/-- A transfer whose terminal callback did not come is not completed. -/
theorem Sound.unresumed {s : DownloadTransfer Call E} (h : s.Sound) (busy : s.session ≠ .waiting)
    (open' : s.session ≠ .completed) : s.continuation = true ∧ s.resumed = [] := by
  have started : s.started = true := by
    by_contra new
    exact busy (h.unstarted (Bool.eq_false_iff.mpr new))
  have nothing := mt h.carried.ended.mpr open'
  simp only [not_or, not_exists, not_not] at nothing
  obtain ⟨idle, -, unresumed⟩ := nothing
  refine ⟨?_, unresumed⟩
  by_contra closed
  obtain ⟨w, result, taken⟩ | some := (h.open_iff started).mp (Bool.eq_false_iff.mpr closed)
  · rw [idle w] at taken
    cases taken
  · exact some unresumed

end DownloadTransfer

end OsmMini.Apple

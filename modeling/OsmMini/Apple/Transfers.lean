import OsmMini.Core.Types

/-!
# Turns of identical transfers

Callers that want the same resource take turns. A caller acquires the key of its resource
before the transfer and releases it afterwards; while another one holds the key it waits in
a queue, where a continuation stands for it that is resumed with the turn or with a
cancellation error. The cancellation of a task is delivered by another task, which may run
before the caller waits, while it waits or after it was handed the turn.

The actor runs one step at a time, and the steps of all callers interleave in any order.
At every moment a key is active exactly when one caller owns its turn, the callers that wait
for it stand in the order of their arrival, and every continuation is resumed once
(`Fair`, `fair_run`). A task that makes several calls counts as several callers, which may be
cancelled together.
-/

set_option autoImplicit false

namespace OsmMini.Apple

open OsmMini.Core

/-- Where a call of `acquire` stands. -/
inductive Phase (Key : Type) where
  | idle
  /-- The key was active; the continuation is about to be stored. -/
  | entered (key : Key)
  | waiting (key : Key)
  /-- The continuation was resumed with the turn. -/
  | handed (key : Key)
  /-- The continuation was resumed with a cancellation error. -/
  | refused (key : Key)
  /-- Between a successful `acquire` and its `release`. -/
  | holding (key : Key)
  | finished
  deriving DecidableEq

/-- A step of a caller, of the actor on its behalf, or the cancellation of its task. -/
inductive TransferEvent (Caller Key : Type) where
  | acquire (caller : Caller) (key : Key)
  | store (caller : Caller)
  | resume (caller : Caller)
  | release (caller : Caller)
  | cancel (caller : Caller)
  | cancelWaiter (caller : Caller)

variable {Caller Key : Type} [DecidableEq Caller] [DecidableEq Key]

/-- The actor with all its callers. What the queues held so far, and how often a continuation
was resumed, is recorded beside it. -/
structure OSMExtracts (Caller Key : Type) where
  active : Finset Key
  waiters : GoMap Key (List Caller)
  phase : Caller → Phase Key
  cancelled : Caller → Bool
  /-- A task that will call `cancelWaiter` for the key was started. -/
  notified : Caller → Option Key
  arrivals : List Caller
  resumed : Caller → ℕ

namespace OSMExtracts

def new : OSMExtracts Caller Key where
  active := ∅
  waiters := ∅
  phase _ := .idle
  cancelled _ := false
  notified _ := none
  arrivals := []
  resumed _ := 0

/-- The callers that wait for a key. -/
def queue (s : OSMExtracts Caller Key) (key : Key) : List Caller := (s.waiters.lookup key).getD []

/-- A queue without callers is removed. -/
def setQueue (s : OSMExtracts Caller Key) (key : Key) (queued : List Caller) :
    OSMExtracts Caller Key :=
  { s with waiters := if queued = [] then s.waiters.erase key else s.waiters.insert key queued }

def move (s : OSMExtracts Caller Key) (caller : Caller) (phase : Phase Key) :
    OSMExtracts Caller Key :=
  { s with phase := Function.update s.phase caller phase }

/-- Resume a continuation with a result. -/
def resumeWith (s : OSMExtracts Caller Key) (caller : Caller) (phase : Phase Key) :
    OSMExtracts Caller Key :=
  { s.move caller phase with
    resumed := Function.update s.resumed caller (s.resumed caller + 1) }

/-- The beginning of `acquire`. -/
def acquire (s : OSMExtracts Caller Key) (caller : Caller) (key : Key) : OSMExtracts Caller Key :=
  if s.cancelled caller then s.move caller .finished
  else if key ∉ s.active then { s.move caller (.holding key) with active := insert key s.active }
  else s.move caller (.entered key)

/-- The closure that gets the continuation of `acquire`. -/
def store (s : OSMExtracts Caller Key) (caller : Caller) (key : Key) : OSMExtracts Caller Key :=
  if s.cancelled caller then s.resumeWith caller (.refused key)
  else if key ∉ s.active then
    { s.resumeWith caller (.handed key) with active := insert key s.active }
  else
    { (s.setQueue key (s.queue key ++ [caller])).move caller (.waiting key) with
      arrivals := s.arrivals ++ [caller] }

def release (s : OSMExtracts Caller Key) (key : Key) : OSMExtracts Caller Key :=
  match s.queue key with
  | next :: queued => (s.setQueue key queued).resumeWith next (.handed key)
  | [] => { s with active := s.active.erase key }

def cancelWaiter (s : OSMExtracts Caller Key) (caller : Caller) (key : Key) :
    OSMExtracts Caller Key :=
  if caller ∈ s.queue key then
    (s.setQueue key ((s.queue key).erase caller)).resumeWith caller (.refused key)
  else s

/-- Whether the cancellation handler of a caller is installed, and for which key. -/
def handler (s : OSMExtracts Caller Key) (caller : Caller) : Option Key :=
  match s.phase caller with
  | .entered key | .waiting key | .handed key | .refused key => some key
  | _ => none

/-- One step. What a caller cannot do where it stands changes nothing. -/
def step (s : OSMExtracts Caller Key) : TransferEvent Caller Key → OSMExtracts Caller Key
  | .acquire caller key =>
    match s.phase caller with
    | .idle => s.acquire caller key
    | _ => s
  | .store caller =>
    match s.phase caller with
    | .entered key => s.store caller key
    | _ => s
  | .resume caller =>
    match s.phase caller with
    | .handed key => s.move caller (.holding key)
    | .refused _ => s.move caller .finished
    | _ => s
  | .release caller =>
    match s.phase caller with
    | .holding key => (s.move caller .finished).release key
    | _ => s
  | .cancel caller =>
    if s.cancelled caller then s
    else
      { s with
        cancelled := Function.update s.cancelled caller true
        notified := Function.update s.notified caller (s.handler caller) }
  | .cancelWaiter caller =>
    match s.notified caller with
    | some key =>
      { s.cancelWaiter caller key with notified := Function.update s.notified caller none }
    | none => s

def run (events : List (TransferEvent Caller Key)) : OSMExtracts Caller Key :=
  events.foldl step new

/-! ## What holds at every moment -/

end OSMExtracts

/-- The caller has the turn of a key, whether or not it knows already. -/
def Phase.Owns (phase : Phase Key) (key : Key) : Prop := phase = .handed key ∨ phase = .holding key

/-- How often a continuation was resumed, by where its caller stands. -/
def Phase.Counted (resumed : ℕ) : Phase Key → Prop
  | .idle | .entered _ | .waiting _ => resumed = 0
  | .handed _ | .refused _ => resumed = 1
  | .holding _ | .finished => resumed ≤ 1

/-- Every turn has at most one owner, and the others wait for it in the order of arrival. -/
structure Orderly (phase : Caller → Phase Key) (queue : Key → List Caller)
    (arrivals : List Caller) (active : Finset Key) : Prop where
  queued : ∀ key caller, caller ∈ queue key ↔ phase caller = .waiting key
  ordered : ∀ key, (queue key).Sublist arrivals
  once : arrivals.Nodup
  arrived : ∀ caller ∈ arrivals, phase caller ≠ .idle ∧ ∀ key, phase caller ≠ .entered key
  owned : ∀ key, key ∈ active ↔ ∃ caller, (phase caller).Owns key
  single : ∀ key first second, (phase first).Owns key → (phase second).Owns key → first = second
  waited : ∀ key, queue key ≠ [] → key ∈ active

namespace Orderly

variable {phase : Caller → Phase Key} {queue : Key → List Caller} {arrivals : List Caller}
  {active : Finset Key}

omit [DecidableEq Key] in
/-- A caller that neither waits nor changes what it owns moves on. -/
theorem pass (orderly : Orderly phase queue arrivals active) {caller : Caller} {next : Phase Key}
    (apart : ∀ key, phase caller ≠ .waiting key) (apart' : ∀ key, next ≠ .waiting key)
    (same : ∀ key, next.Owns key ↔ (phase caller).Owns key)
    (begun : phase caller = .idle ∨ next ≠ .idle ∧ ∀ key, next ≠ .entered key) :
    Orderly (Function.update phase caller next) queue arrivals active := by
  obtain ⟨queued, ordered, once, arrived, owned, single, waited⟩ := orderly
  refine ⟨fun key c => ?_, ordered, once, fun c member => ?_, fun key => ?_,
    fun key first second => ?_, waited⟩
  all_goals simp only [Function.update_apply]
  · grind
  · grind
  · grind
  · grind

/-- A caller takes the turn of a key that nobody owns. -/
theorem take (orderly : Orderly phase queue arrivals active) {caller : Caller} {next : Phase Key}
    {key : Key} (apart : ∀ key, phase caller ≠ .waiting key)
    (without : ∀ key, ¬ (phase caller).Owns key) (owns : next.Owns key) (free : key ∉ active) :
    Orderly (Function.update phase caller next) queue arrivals (insert key active) := by
  obtain ⟨queued, ordered, once, arrived, owned, single, waited⟩ := orderly
  have only : ∀ k, next.Owns k ↔ k = key := by
    rcases owns with rfl | rfl <;> simp [Phase.Owns, eq_comm]
  have started : next ≠ .idle ∧ (∀ k, next ≠ .entered k) ∧ ∀ k, next ≠ .waiting k := by
    rcases owns with rfl | rfl <;> simp
  obtain ⟨notIdle, notEntered, notWaiting⟩ := started
  refine ⟨fun k c => ?_, ordered, once, fun c member => ?_, fun k => ?_,
    fun k first second => ?_, fun k waits => Finset.mem_insert_of_mem (waited k waits)⟩
  all_goals simp only [Function.update_apply, Finset.mem_insert]
  · grind
  · grind
  · grind
  · grind

/-- A caller joins the end of a queue. -/
theorem join (orderly : Orderly phase queue arrivals active) {caller : Caller} {key : Key}
    (entered : phase caller = .entered key) (held : key ∈ active) :
    Orderly (Function.update phase caller (.waiting key))
      (fun k => if k = key then queue key ++ [caller] else queue k) (arrivals ++ [caller])
      active := by
  obtain ⟨queued, ordered, once, arrived, owned, single, waited⟩ := orderly
  have fresh : caller ∉ arrivals := fun member => (arrived caller member).2 key entered
  refine ⟨fun k c => ?_, fun k => ?_, ?_, fun c member => ?_, fun k => ?_,
    fun k first second => ?_, fun k waits => ?_⟩
  · simp only [Function.update_apply]
    grind
  · grind
  · grind
  · simp only [Function.update_apply]
    grind
  · simp only [Function.update_apply]
    grind [Phase.Owns]
  · simp only [Function.update_apply]
    grind [Phase.Owns]
  · grind

/-- A caller leaves a queue without the turn. -/
theorem leave (orderly : Orderly phase queue arrivals active) {caller : Caller} {key : Key}
    (waiting : phase caller = .waiting key) :
    Orderly (Function.update phase caller (.refused key))
      (fun k => if k = key then (queue key).erase caller else queue k) arrivals active := by
  obtain ⟨queued, ordered, once, arrived, owned, single, waited⟩ := orderly
  have distinct : (queue key).Nodup := (ordered key).nodup once
  refine ⟨fun k c => ?_, fun k => ?_, once, fun c member => ?_, fun k => ?_,
    fun k first second => ?_, fun k waits => ?_⟩
  · simp only [Function.update_apply]
    grind
  · split_ifs with here
    · exact List.erase_sublist.trans (ordered key)
    · exact ordered k
  · simp only [Function.update_apply]
    grind
  · simp only [Function.update_apply]
    grind [Phase.Owns]
  · simp only [Function.update_apply]
    grind [Phase.Owns]
  · grind

/-- An owner gives up a turn that nobody waits for. -/
theorem stop (orderly : Orderly phase queue arrivals active) {caller : Caller} {key : Key}
    (holds : phase caller = .holding key) (empty : queue key = []) :
    Orderly (Function.update phase caller .finished) queue arrivals (active.erase key) := by
  obtain ⟨queued, ordered, once, arrived, owned, single, waited⟩ := orderly
  refine ⟨fun k c => ?_, ordered, once, fun c member => ?_, fun k => ?_,
    fun k first second => ?_, fun k waits => ?_⟩
  · simp only [Function.update_apply]
    grind
  · simp only [Function.update_apply]
    grind
  · simp only [Function.update_apply, Finset.mem_erase]
    grind [Phase.Owns]
  · simp only [Function.update_apply]
    grind [Phase.Owns]
  · rw [Finset.mem_erase]
    grind

/-- An owner hands its turn to the caller that waits longest. -/
theorem handOver (orderly : Orderly phase queue arrivals active) {caller next : Caller} {key : Key}
    {rest : List Caller} (holds : phase caller = .holding key) (first : queue key = next :: rest) :
    Orderly (Function.update (Function.update phase caller .finished) next (.handed key))
      (fun k => if k = key then rest else queue k) arrivals active := by
  obtain ⟨queued, ordered, once, arrived, owned, single, waited⟩ := orderly
  have distinct : (queue key).Nodup := (ordered key).nodup once
  have tail : rest.Sublist arrivals :=
    (List.sublist_cons_self next rest).trans (first ▸ ordered key)
  refine ⟨fun k c => ?_, fun k => ?_, once, fun c member => ?_, fun k => ?_,
    fun k a b => ?_, fun k waits => ?_⟩
  · simp only [Function.update_apply]
    grind
  · grind
  · simp only [Function.update_apply]
    grind
  · simp only [Function.update_apply]
    grind [Phase.Owns]
  · simp only [Function.update_apply]
    grind [Phase.Owns]
  · grind

end Orderly

namespace OSMExtracts

/-- What holds at every moment: the turns are in order, every continuation was resumed once if
its caller goes on, and the cancellation of a waiting caller is on its way. -/
structure Fair (s : OSMExtracts Caller Key) : Prop extends
    Orderly s.phase s.queue s.arrivals s.active where
  counted : ∀ caller, (s.phase caller).Counted (s.resumed caller)
  delivered : ∀ caller key, s.phase caller = .waiting key → s.cancelled caller = true →
    s.notified caller = some key

omit [DecidableEq Caller] in
theorem queue_setQueue (s : OSMExtracts Caller Key) (key : Key) (queued : List Caller) :
    (s.setQueue key queued).queue = fun k => if k = key then queued else s.queue k := by
  funext k
  unfold queue setQueue
  dsimp only
  by_cases here : k = key
  · rw [if_pos here, here]
    split_ifs with empty
    · rw [AList.lookup_erase, empty]
      rfl
    · rw [AList.lookup_insert]
      rfl
  · rw [if_neg here]
    split_ifs
    · rw [AList.lookup_erase_ne here]
    · rw [AList.lookup_insert_ne here]

omit [DecidableEq Caller] in
theorem fair_new : (new : OSMExtracts Caller Key).Fair where
  queued _ _ := ⟨fun member => absurd member List.not_mem_nil, fun other => nomatch other⟩
  ordered _ := List.Sublist.refl []
  once := List.nodup_nil
  arrived _ member := absurd member List.not_mem_nil
  owned _ := ⟨fun member => absurd member (Finset.notMem_empty _),
    fun ⟨_, owns⟩ => owns.elim (fun other => nomatch other) fun other => nomatch other⟩
  single _ _ _ owns := owns.elim (fun other => nomatch other) fun other => nomatch other
  waited _ waits := absurd rfl waits
  counted _ := rfl
  delivered _ _ waits := nomatch waits

variable {s : OSMExtracts Caller Key}

/-- One caller moves, and its continuation may be resumed. -/
theorem Fair.of_move {s' : OSMExtracts Caller Key} {caller : Caller} {next : Phase Key}
    (fair : s.Fair) (moved : s'.phase = Function.update s.phase caller next)
    (orderly : Orderly s'.phase s'.queue s'.arrivals s'.active)
    (resumed : next.Counted (s'.resumed caller))
    (others : ∀ c, c ≠ caller → s'.resumed c = s.resumed c)
    (told : s'.cancelled = s.cancelled ∧ s'.notified = s.notified)
    (waits : ∀ key, next = .waiting key → s.cancelled caller = false) : s'.Fair := by
  refine ⟨orderly, fun c => ?_, fun c key waiting cancelled => ?_⟩
  · rw [moved]
    by_cases here : c = caller
    · rw [here, Function.update_self]
      exact resumed
    · rw [Function.update_of_ne here, others c here]
      exact fair.counted c
  · rw [moved] at waiting
    rw [told.1] at cancelled
    rw [told.2]
    by_cases here : c = caller
    · rw [here, Function.update_self] at waiting
      rw [here, waits key waiting] at cancelled
      cases cancelled
    · rw [Function.update_of_ne here] at waiting
      exact fair.delivered c key waiting cancelled

theorem Fair.acquire (fair : s.Fair) {caller : Caller} (idle : s.phase caller = .idle) (key : Key) :
    (s.acquire caller key).Fair := by
  have zero : s.resumed caller = 0 := by
    have counted := fair.counted caller
    rwa [idle] at counted
  have apart : ∀ k, s.phase caller ≠ .waiting k := fun k => by rw [idle]; exact nofun
  have without : ∀ k, ¬ (s.phase caller).Owns k := fun k => by simp [idle, Phase.Owns]
  unfold OSMExtracts.acquire
  split_ifs with cancelled held
  · exact fair.of_move rfl (fair.pass apart (fun _ => nofun)
      (fun k => iff_of_false (by simp [Phase.Owns]) (without k)) (Or.inl idle))
      (zero.trans_le zero_le_one) (fun _ _ => rfl) ⟨rfl, rfl⟩ fun _ => nofun
  · exact fair.of_move rfl (fair.pass apart (fun _ => nofun)
      (fun k => iff_of_false (by simp [Phase.Owns]) (without k)) (Or.inl idle))
      zero (fun _ _ => rfl) ⟨rfl, rfl⟩ fun _ => nofun
  · exact fair.of_move rfl (fair.take apart without (Or.inr rfl) held)
      (zero.trans_le zero_le_one) (fun _ _ => rfl) ⟨rfl, rfl⟩ fun _ => nofun

theorem Fair.store (fair : s.Fair) {caller : Caller} {key : Key}
    (entered : s.phase caller = .entered key) : (s.store caller key).Fair := by
  have zero : s.resumed caller = 0 := by
    have counted := fair.counted caller
    rwa [entered] at counted
  have one : s.resumed caller + 1 = 1 := by rw [zero]
  have apart : ∀ k, s.phase caller ≠ .waiting k := fun k => by rw [entered]; exact nofun
  have without : ∀ k, ¬ (s.phase caller).Owns k := fun k => by simp [entered, Phase.Owns]
  unfold OSMExtracts.store
  split_ifs with cancelled held
  · exact fair.of_move rfl (fair.pass apart (fun _ => nofun)
      (fun k => iff_of_false (by simp [Phase.Owns]) (without k)) (Or.inr ⟨nofun, fun _ => nofun⟩))
      ((Function.update_self caller _ s.resumed).trans one)
      (fun _ other => Function.update_of_ne other _ _) ⟨rfl, rfl⟩ fun _ => nofun
  · have joined := fair.join entered held
    rw [← queue_setQueue] at joined
    exact fair.of_move rfl joined zero (fun _ _ => rfl) ⟨rfl, rfl⟩
      fun _ _ => by simpa using cancelled
  · exact fair.of_move rfl (fair.take apart without (Or.inl rfl) held)
      ((Function.update_self caller _ s.resumed).trans one)
      (fun _ other => Function.update_of_ne other _ _) ⟨rfl, rfl⟩ fun _ => nofun

theorem Fair.resume (fair : s.Fair) (caller : Caller) : (s.step (.resume caller)).Fair := by
  have counted := fair.counted caller
  rw [step]
  split
  · rename_i key handed
    rw [handed] at counted
    exact fair.of_move rfl (fair.pass (fun k => by rw [handed]; exact nofun) (fun _ => nofun)
      (fun k => by simp [handed, Phase.Owns]) (Or.inr ⟨nofun, fun _ => nofun⟩))
      counted.le (fun _ _ => rfl) ⟨rfl, rfl⟩ fun _ => nofun
  · rename_i key refused
    rw [refused] at counted
    exact fair.of_move rfl (fair.pass (fun k => by rw [refused]; exact nofun) (fun _ => nofun)
      (fun k => by simp [refused, Phase.Owns]) (Or.inr ⟨nofun, fun _ => nofun⟩))
      counted.le (fun _ _ => rfl) ⟨rfl, rfl⟩ fun _ => nofun
  · exact fair

theorem Fair.release (fair : s.Fair) {caller : Caller} {key : Key}
    (holding : s.phase caller = .holding key) : ((s.move caller .finished).release key).Fair := by
  have counted := fair.counted caller
  rw [holding] at counted
  unfold OSMExtracts.release
  cases first : s.queue key with
  | nil =>
      have empty : (s.move caller .finished).queue key = [] := first
      rw [empty]
      exact fair.of_move rfl (fair.stop holding first) counted (fun _ _ => rfl) ⟨rfl, rfl⟩
        fun _ => nofun
  | cons next rest =>
      have waits : (s.move caller .finished).queue key = next :: rest := first
      have waiting : s.phase next = .waiting key :=
        (fair.queued key next).mp (by rw [first]; exact List.mem_cons_self)
      have zero : s.resumed next = 0 := by
        have counted := fair.counted next
        rwa [waiting] at counted
      have other : next ≠ caller := fun same => by
        rw [same, holding] at waiting
        cases waiting
      have orderly := fair.handOver holding first
      rw [← queue_setQueue] at orderly
      rw [waits]
      refine ⟨orderly, fun c => ?_, fun c k waiting' cancelled => ?_⟩
      · have standing := fair.counted c
        simp only [resumeWith, move, setQueue, Function.update_apply]
        split_ifs with here here'
        · rw [zero]
          rfl
        · rw [here']
          exact counted
        · exact standing
      · simp only [resumeWith, move, setQueue, Function.update_apply] at waiting'
        split_ifs at waiting'
        exact fair.delivered c k waiting' cancelled

theorem Fair.cancel (fair : s.Fair) (caller : Caller) : (s.step (.cancel caller)).Fair := by
  rw [step]
  split_ifs with before
  · exact fair
  · refine ⟨fair.toOrderly, fair.counted, fun c key waiting cancelled => ?_⟩
    by_cases here : c = caller
    · have here' : s.phase caller = .waiting key := here ▸ waiting
      rw [here]
      simp only [Function.update_self, handler, here']
    · simp only [Function.update_of_ne here] at cancelled ⊢
      exact fair.delivered c key waiting cancelled

theorem Fair.cancelWaiter (fair : s.Fair) (caller : Caller) :
    (s.step (.cancelWaiter caller)).Fair := by
  rw [step]
  split
  · rename_i key notified
    unfold OSMExtracts.cancelWaiter
    split_ifs with queued
    · have waiting := (fair.queued key caller).mp queued
      have zero : s.resumed caller = 0 := by
        have counted := fair.counted caller
        rwa [waiting] at counted
      have orderly := fair.leave waiting
      rw [← queue_setQueue] at orderly
      refine ⟨orderly, fun c => ?_, fun c k waiting' cancelled => ?_⟩
      · have standing := fair.counted c
        simp only [resumeWith, move, setQueue, Function.update_apply]
        split_ifs
        · rw [zero]
          rfl
        · exact standing
      · simp only [resumeWith, move, setQueue, Function.update_apply] at waiting' ⊢
        split_ifs at waiting' with here
        rw [if_neg here]
        exact fair.delivered c k waiting' cancelled
    · refine ⟨fair.toOrderly, fair.counted, fun c k waiting cancelled => ?_⟩
      have delivered := fair.delivered c k waiting cancelled
      -- The notice of a waiting caller names the key it waits for.
      have other : c ≠ caller := fun same => by
        rw [same, notified] at delivered
        cases delivered
        exact queued ((fair.queued key caller).mpr (same ▸ waiting))
      exact (Function.update_of_ne other _ _).trans delivered
  · exact fair

/-- **Every step keeps the order.** -/
theorem Fair.step (fair : s.Fair) (event : TransferEvent Caller Key) : (s.step event).Fair := by
  cases event with
  | acquire caller key =>
      rw [OSMExtracts.step]
      split
      · rename_i idle
        exact fair.acquire idle key
      · exact fair
  | store caller =>
      rw [OSMExtracts.step]
      split
      · rename_i key entered
        exact fair.store entered
      · exact fair
  | resume caller => exact fair.resume caller
  | release caller =>
      rw [OSMExtracts.step]
      split
      · rename_i key holding
        exact fair.release holding
      · exact fair
  | cancel caller => exact fair.cancel caller
  | cancelWaiter caller => exact fair.cancelWaiter caller

/-- **Every run keeps the order.** -/
theorem fair_run (events : List (TransferEvent Caller Key)) : (run events).Fair :=
  List.foldlRecOn events OSMExtracts.step (motive := Fair) fair_new
    fun _ fair event _ => fair.step event

/-! ## What callers see -/

/-- A release hands the turn to the caller that came first. -/
theorem step_release {caller next : Caller} {key : Key} {rest : List Caller}
    (holding : s.phase caller = .holding key) (waits : s.queue key = next :: rest) :
    (s.step (.release caller)).phase next = .handed key ∧
      (s.step (.release caller)).queue key = rest := by
  have first : (s.move caller .finished).queue key = next :: rest := waits
  rw [step, holding]
  dsimp only
  rw [release, first]
  refine ⟨Function.update_self _ _ _, ?_⟩
  have queue := congrFun (queue_setQueue (s.move caller .finished) key rest) key
  rwa [if_pos rfl] at queue

/-- The notice of a cancellation refuses a caller that still waits. -/
theorem Fair.step_cancelWaiter (fair : s.Fair) {caller : Caller} {key : Key}
    (waiting : s.phase caller = .waiting key) (cancelled : s.cancelled caller = true) :
    (s.step (.cancelWaiter caller)).phase caller = .refused key := by
  have queued := (fair.queued key caller).mpr waiting
  simp only [OSMExtracts.step, fair.delivered caller key waiting cancelled,
    OSMExtracts.cancelWaiter, if_pos queued, resumeWith, move, Function.update_self]

/-- A caller that does not wait any more is left alone by its cancellation. -/
theorem Fair.step_cancelled (fair : s.Fair) {caller : Caller}
    (served : ∀ key, s.phase caller ≠ .waiting key) (event : TransferEvent Caller Key)
    (cancels : event = .cancel caller ∨ event = .cancelWaiter caller) :
    (s.step event).active = s.active ∧ (s.step event).queue = s.queue ∧
      (s.step event).phase = s.phase ∧ (s.step event).resumed = s.resumed := by
  rcases cancels with rfl | rfl
  · rw [OSMExtracts.step]
    split_ifs
    · exact ⟨rfl, rfl, rfl, rfl⟩
    · exact ⟨rfl, rfl, rfl, rfl⟩
  · rw [OSMExtracts.step]
    split
    · rename_i key notified
      have absent : caller ∉ s.queue key := fun queued =>
        served key ((fair.queued key caller).mp queued)
      rw [OSMExtracts.cancelWaiter, if_neg absent]
      exact ⟨rfl, rfl, rfl, rfl⟩
    · exact ⟨rfl, rfl, rfl, rfl⟩

end OSMExtracts

end OsmMini.Apple

import Mathlib

/-!
# Shared progress of one download

Several callers may wait for one download, and each may ask to be told its progress. The hub
numbers the updates it is sent and hands each one to every subscriber; a subscriber that joins
later gets the latest one first. Callbacks run outside all locks. A subscriber whose callback
runs keeps only the newest update that came meanwhile, and an update that is not newer than
the last one it accepted is dropped.

Every lock-protected section is one step, and so are the beginning and the end of a callback.
A caller runs one call of the hub at a time; the steps of all callers interleave in any order.
The numbers wrap around after `2 ^ 64` updates. Before that, a subscriber's callbacks run one
at a time with increasing numbers, nothing is taken for a subscriber once it was deactivated,
and when no call sends or adds, every registered subscriber was told the latest update
(`progress_in_order`).
-/

set_option autoImplicit false

namespace OsmMini.Apple

/-- A number of bytes, of a total, with the number of the update. -/
structure Update where
  revision : ℕ
  bytes : Int64
  total : Int64
  deriving DecidableEq

/-- What a subscriber keeps under its lock. -/
structure Subscriber where
  revision : ℕ
  pending : Option Update
  active : Bool
  delivering : Bool

def Subscriber.new : Subscriber where
  revision := 0
  pending := none
  active := true
  delivering := false

/-- Where a caller stands that delivers to a subscriber. -/
inductive Stage where
  /-- Before the lock of the loop. -/
  | looping
  /-- It took an update; the callback did not start. -/
  | holding (update : Update)
  | calling (update : Update)

/-- An update, with the subscribers it is still to be enqueued for. -/
structure Outgoing where
  update : Update
  recipients : Finset ℕ

/-- A step of a caller. The subscribers of an update are enqueued in any order. -/
inductive ProgressEvent (Caller : Type) where
  | add (caller : Caller)
  | remove (caller : Caller) (id : ℕ)
  | send (caller : Caller) (bytes total : Int64)
  | enqueue (caller : Caller) (id : ℕ)
  | drain (caller : Caller)
  | start (caller : Caller)
  | finish (caller : Caller)
  | deactivate (caller : Caller)

/-- The hub with its subscribers, named in the order they were added, and its callers. What was
taken for a subscriber, what its callback was started with and how often it runs is recorded
beside it. -/
structure GeofabrikDownloadProgress (Caller : Type) where
  subscribers : Finset ℕ
  latest : Option Update
  revision : ℕ
  added : ℕ
  sent : ℕ
  subscriber : ℕ → Subscriber
  outgoing : Caller → Outgoing
  place : Caller → Option (ℕ × Stage)
  leaving : Caller → Option ℕ
  taken : ℕ → List Update
  started : ℕ → List Update
  running : ℕ → ℕ

variable {Caller : Type} [DecidableEq Caller]

namespace GeofabrikDownloadProgress

def new : GeofabrikDownloadProgress Caller where
  subscribers := ∅
  latest := none
  revision := 0
  added := 0
  sent := 0
  subscriber _ := .new
  outgoing _ := ⟨⟨0, 0, 0⟩, ∅⟩
  place _ := none
  leaving _ := none
  taken _ := []
  started _ := []
  running _ := 0

/-- The caller runs no call of the hub. -/
def Idle (s : GeofabrikDownloadProgress Caller) (caller : Caller) : Prop :=
  (s.outgoing caller).recipients = ∅ ∧ s.place caller = none ∧ s.leaving caller = none

instance (s : GeofabrikDownloadProgress Caller) (caller : Caller) : Decidable (s.Idle caller) :=
  inferInstanceAs (Decidable (_ ∧ _ ∧ _))

/-- The section of `add`. The latest update is enqueued for the new subscriber afterwards. -/
def add (s : GeofabrikDownloadProgress Caller) (caller : Caller) :
    GeofabrikDownloadProgress Caller :=
  { s with
    subscribers := insert s.added s.subscribers
    added := s.added + 1
    subscriber := Function.update s.subscriber s.added .new
    outgoing := match s.latest with
      | some update => Function.update s.outgoing caller ⟨update, {s.added}⟩
      | none => s.outgoing }

/-- The first section of `remove`. -/
def remove (s : GeofabrikDownloadProgress Caller) (caller : Caller) (id : ℕ) :
    GeofabrikDownloadProgress Caller :=
  if id ∈ s.subscribers then
    { s with
      subscribers := s.subscribers.erase id
      leaving := Function.update s.leaving caller (some id) }
  else s

/-- The section of `send`. What was sent last is not sent again. -/
def send (s : GeofabrikDownloadProgress Caller) (caller : Caller) (bytes total : Int64) :
    GeofabrikDownloadProgress Caller :=
  if s.latest.map Update.bytes = some bytes ∧ s.latest.map Update.total = some total then s
  else
    let update := { revision := (s.revision + 1) % 2 ^ 64, bytes, total }
    { s with
      revision := update.revision
      sent := s.sent + 1
      latest := some update
      outgoing := Function.update s.outgoing caller ⟨update, s.subscribers⟩ }

/-- The first section of `enqueue`. The caller goes on to deliver if nobody does. -/
def enqueue (s : GeofabrikDownloadProgress Caller) (caller : Caller) (id : ℕ) :
    GeofabrikDownloadProgress Caller :=
  let update := (s.outgoing caller).update
  let subscriber := s.subscriber id
  let s := { s with
    outgoing := Function.update s.outgoing caller
      ⟨update, (s.outgoing caller).recipients.erase id⟩ }
  if subscriber.active ∧ subscriber.revision < update.revision then
    { s with
      subscriber := Function.update s.subscriber id
        { subscriber with
          revision := update.revision, pending := some update, delivering := true }
      place := if subscriber.delivering then s.place
        else Function.update s.place caller (some (id, .looping)) }
  else s

/-- The section of the delivery loop. -/
def drain (s : GeofabrikDownloadProgress Caller) (caller : Caller) (id : ℕ) :
    GeofabrikDownloadProgress Caller :=
  let subscriber := s.subscriber id
  match subscriber.active, subscriber.pending with
  | true, some next =>
    { s with
      subscriber := Function.update s.subscriber id { subscriber with pending := none }
      place := Function.update s.place caller (some (id, .holding next))
      taken := Function.update s.taken id (s.taken id ++ [next]) }
  | _, _ =>
    { s with
      subscriber := Function.update s.subscriber id { subscriber with delivering := false }
      place := Function.update s.place caller none }

/-- The callback begins. -/
def start (s : GeofabrikDownloadProgress Caller) (caller : Caller) (id : ℕ) (update : Update) :
    GeofabrikDownloadProgress Caller :=
  { s with
    place := Function.update s.place caller (some (id, .calling update))
    started := Function.update s.started id (s.started id ++ [update])
    running := Function.update s.running id (s.running id + 1) }

/-- The callback returns. -/
def finish (s : GeofabrikDownloadProgress Caller) (caller : Caller) (id : ℕ) :
    GeofabrikDownloadProgress Caller :=
  { s with
    place := Function.update s.place caller (some (id, .looping))
    running := Function.update s.running id (s.running id - 1) }

def deactivate (s : GeofabrikDownloadProgress Caller) (caller : Caller) (id : ℕ) :
    GeofabrikDownloadProgress Caller :=
  { s with
    subscriber := Function.update s.subscriber id
      { s.subscriber id with active := false, pending := none }
    leaving := Function.update s.leaving caller none }

/-- One step. What a caller cannot do where it stands changes nothing. -/
def step (s : GeofabrikDownloadProgress Caller) :
    ProgressEvent Caller → GeofabrikDownloadProgress Caller
  | .add caller => if s.Idle caller then s.add caller else s
  | .remove caller id => if s.Idle caller then s.remove caller id else s
  | .send caller bytes total => if s.Idle caller then s.send caller bytes total else s
  | .enqueue caller id =>
    if s.place caller = none ∧ id ∈ (s.outgoing caller).recipients then s.enqueue caller id else s
  | .drain caller =>
    match s.place caller with
    | some (id, .looping) => s.drain caller id
    | _ => s
  | .start caller =>
    match s.place caller with
    | some (id, .holding update) => s.start caller id update
    | _ => s
  | .finish caller =>
    match s.place caller with
    | some (id, .calling _) => s.finish caller id
    | _ => s
  | .deactivate caller =>
    match s.leaving caller with
    | some id => s.deactivate caller id
    | none => s

def run (events : List (ProgressEvent Caller)) : GeofabrikDownloadProgress Caller :=
  events.foldl step new

end GeofabrikDownloadProgress

/-! ## One delivery at a time -/

/-- The records of a subscriber, by where the caller stands that delivers to it. -/
def Stage.Logged (taken started : List Update) (running : ℕ) : Stage → Prop
  | .looping => started = taken ∧ running = 0
  | .holding update => taken = started ++ [update] ∧ running = 0
  | .calling _ => started = taken ∧ running = 1

/-- At most one caller delivers to a subscriber, and the subscriber knows whether one does. -/
structure Single (delivering : ℕ → Bool) (place : Caller → Option (ℕ × Stage))
    (taken started : ℕ → List Update) (running : ℕ → ℕ) : Prop where
  single : ∀ id c c' stage stage', place c = some (id, stage) → place c' = some (id, stage') →
    c = c'
  busy : ∀ id c stage, place c = some (id, stage) → delivering id = true ∧
    stage.Logged (taken id) (started id) (running id)
  occupied : ∀ id, delivering id = true → ∃ c stage, place c = some (id, stage)
  quiet : ∀ id, delivering id = false → started id = taken id ∧ running id = 0

namespace Single

variable {delivering : ℕ → Bool} {place : Caller → Option (ℕ × Stage)}
  {taken started : ℕ → List Update} {running : ℕ → ℕ} {c : Caller} {id : ℕ}

theorem enter (h : Single delivering place taken started running) (free : place c = none)
    (idle : delivering id = false) :
    Single (Function.update delivering id true)
      (Function.update place c (some (id, .looping))) taken started running := by
  obtain ⟨single, busy, occupied, quiet⟩ := h
  have apart : ∀ c' stage, place c' ≠ some (id, stage) := by
    intro c' stage here
    rw [(busy id c' stage here).1] at idle
    cases idle
  refine ⟨?_, ?_, ?_, ?_⟩
  all_goals simp only [Function.update_apply]
  · grind
  · intro id' c' stage here
    have logged := quiet id
    grind [Stage.Logged]
  · intro id' delivers
    by_cases same : id' = id
    · exact ⟨c, .looping, by rw [if_pos rfl, same]⟩
    · rw [if_neg same] at delivers
      obtain ⟨c', stage, here⟩ := occupied id' delivers
      exact ⟨c', stage, by grind⟩
  · grind

/-- The caller that delivers goes on to another stage. -/
theorem move (h : Single delivering place taken started running) {stage next : Stage}
    {taken' started' : List Update} {running' : ℕ} (here : place c = some (id, stage))
    (logged : next.Logged taken' started' running') :
    Single delivering (Function.update place c (some (id, next)))
      (Function.update taken id taken') (Function.update started id started')
      (Function.update running id running') := by
  obtain ⟨single, busy, occupied, quiet⟩ := h
  have delivers := (busy id c stage here).1
  refine ⟨?_, ?_, ?_, ?_⟩
  all_goals simp only [Function.update_apply]
  · grind
  · grind
  · intro id' delivers'
    obtain ⟨c', stage', there⟩ := occupied id' delivers'
    by_cases same : c' = c
    · exact ⟨c, next, by grind⟩
    · exact ⟨c', stage', by grind⟩
  · grind

theorem leave (h : Single delivering place taken started running)
    (here : place c = some (id, .looping)) :
    Single (Function.update delivering id false) (Function.update place c none) taken started
      running := by
  obtain ⟨single, busy, occupied, quiet⟩ := h
  have logged := (busy id c _ here).2
  rw [Stage.Logged] at logged
  refine ⟨?_, ?_, ?_, ?_⟩
  all_goals simp only [Function.update_apply]
  · grind
  · grind
  · intro id' delivers
    by_cases same : id' = id
    · rw [if_pos same] at delivers
      cases delivers
    · rw [if_neg same] at delivers
      obtain ⟨c', stage, there⟩ := occupied id' delivers
      exact ⟨c', stage, by grind⟩
  · grind

end Single

/-! ## The numbers of a subscriber -/

/-- What was taken for a subscriber has increasing numbers, and what is pending is newer. -/
structure Subscriber.Sound (subscriber : Subscriber) (taken : List Update) : Prop where
  increasing : taken.Pairwise fun u v => u.revision < v.revision
  accepted : ∀ u ∈ taken, u.revision ≤ subscriber.revision
  next : ∀ u, subscriber.pending = some u → u.revision = subscriber.revision ∧
    subscriber.delivering = true ∧ subscriber.active = true ∧ ∀ v ∈ taken, v.revision < u.revision
  last : subscriber.active = true → subscriber.pending = none →
    subscriber.revision = (taken.getLast?.map Update.revision).getD 0

namespace Subscriber.Sound

variable {subscriber : Subscriber} {taken : List Update}

theorem new : Sound .new [] := by
  refine ⟨List.Pairwise.nil, ?_, ?_, ?_⟩ <;> simp [Subscriber.new]

theorem accept (sound : subscriber.Sound taken) {update : Update}
    (active : subscriber.active = true) (newer : subscriber.revision < update.revision) :
    Sound { subscriber with
      revision := update.revision, pending := some update, delivering := true } taken := by
  obtain ⟨increasing, accepted, -, -⟩ := sound
  refine ⟨increasing, fun u member => (accepted u member).trans newer.le, ?_, by simp⟩
  intro u pending
  obtain rfl := Option.some.inj pending
  exact ⟨rfl, rfl, active, fun v member => (accepted v member).trans_lt newer⟩

theorem take (sound : subscriber.Sound taken) {update : Update}
    (pending : subscriber.pending = some update) :
    Sound { subscriber with pending := none } (taken ++ [update]) := by
  obtain ⟨increasing, accepted, next, -⟩ := sound
  obtain ⟨same, -, -, newest⟩ := next update pending
  refine ⟨?_, ?_, by simp, by simp [same]⟩
  · rw [List.pairwise_append]
    exact ⟨increasing, List.pairwise_singleton _ _, fun u member v last => by
      rw [List.mem_singleton.mp last]
      exact newest u member⟩
  · intro u member
    rcases List.mem_append.mp member with member | last
    · exact accepted u member
    · rw [List.mem_singleton.mp last]
      exact same.le

theorem stop (sound : subscriber.Sound taken) (nothing : subscriber.pending = none) :
    Sound { subscriber with delivering := false } taken := by
  obtain ⟨increasing, accepted, -, last⟩ := sound
  exact ⟨increasing, accepted, by simp [nothing], last⟩

theorem deactivate (sound : subscriber.Sound taken) :
    Sound { subscriber with active := false, pending := none } taken := by
  obtain ⟨increasing, accepted, -, -⟩ := sound
  exact ⟨increasing, accepted, by simp, by simp⟩

end Subscriber.Sound

/-! ## What holds at every moment -/

namespace GeofabrikDownloadProgress

/-- An update that was sent. Only the latest one has the latest number. -/
def Known (revision : ℕ) (latest : Option Update) (update : Update) : Prop :=
  update.revision ≤ revision ∧ (update.revision = revision → latest = some update)

/-- What holds as long as the numbers did not wrap around. -/
structure Orderly (s : GeofabrikDownloadProgress Caller) : Prop where
  single : Single (fun id => (s.subscriber id).delivering) s.place s.taken s.started s.running
  sound : ∀ id, (s.subscriber id).Sound (s.taken id)
  counted : s.revision = s.sent
  unsent : s.latest = none → s.revision = 0
  numbered : ∀ u, s.latest = some u → u.revision = s.revision ∧ 0 < s.revision
  outgoing : ∀ c id, id ∈ (s.outgoing c).recipients →
    Known s.revision s.latest (s.outgoing c).update ∧ id < s.added
  pending : ∀ id u, (s.subscriber id).pending = some u → Known s.revision s.latest u
  taken : ∀ id, ∀ u ∈ s.taken id, Known s.revision s.latest u
  behind : ∀ id, (s.subscriber id).revision ≤ s.revision
  current : ∀ id ∈ s.subscribers, (s.subscriber id).active = true ∧
    ((s.subscriber id).revision = s.revision ∨
      ∃ c, id ∈ (s.outgoing c).recipients ∧ (s.outgoing c).update.revision = s.revision)
  named : ∀ id ∈ s.subscribers, id < s.added
  leaving : ∀ c id, s.leaving c = some id → id ∉ s.subscribers ∧ id < s.added
  fresh : ∀ id, s.added ≤ id → s.subscriber id = .new ∧ s.taken id = []

omit [DecidableEq Caller] in
theorem orderly_new : Orderly (new : GeofabrikDownloadProgress Caller) := by
  refine ⟨⟨?_, ?_, ?_, ?_⟩, fun id => .new, rfl, fun _ => rfl, ?_, ?_, ?_, ?_, ?_, ?_, ?_, ?_, ?_⟩
  all_goals simp [new, Subscriber.new]

theorem Orderly.add {s : GeofabrikDownloadProgress Caller} (h : s.Orderly) {c : Caller}
    (idle : s.Idle c) : (s.add c).Orderly := by
  obtain ⟨single, sound, counted, unsent, numbered, outgoing, pending, taken, behind, current,
    named, leaving, fresh⟩ := h
  obtain ⟨free, -, -⟩ := idle
  have unchanged : Function.update s.subscriber s.added .new = s.subscriber := by
    funext id
    rw [Function.update_apply]
    split_ifs with same
    · rw [same, (fresh s.added le_rfl).1]
    · rfl
  have empty := (fresh s.added le_rfl).1
  rw [GeofabrikDownloadProgress.add, unchanged]
  refine ⟨single, sound, counted, unsent, numbered, ?_, pending, taken, behind, ?_, ?_, ?_, ?_⟩
  · intro c' id member
    cases sent : s.latest with
    | none =>
        simp only [sent] at member ⊢
        have known := outgoing c' id member
        rw [sent] at known
        exact ⟨known.1, known.2.trans (Nat.lt_succ_self _)⟩
    | some u =>
        simp only [sent, Function.update_apply] at member ⊢
        split_ifs at member ⊢ with same
        · rw [Finset.mem_singleton.mp member]
          exact ⟨⟨(numbered u sent).1.le, fun _ => rfl⟩, Nat.lt_succ_self _⟩
        · have known := outgoing c' id member
          rw [sent] at known
          exact ⟨known.1, known.2.trans (Nat.lt_succ_self _)⟩
  · intro id member
    rcases Finset.mem_insert.mp member with rfl | member
    · refine ⟨by rw [empty]; rfl, ?_⟩
      cases sent : s.latest with
      | none => exact .inl (by rw [empty]; exact (unsent sent).symm)
      | some u =>
          refine .inr ⟨c, ?_⟩
          simp only [Function.update_self]
          exact ⟨Finset.mem_singleton_self _, (numbered u sent).1⟩
    · obtain ⟨active, reached | ⟨c', waits, latest⟩⟩ := current id member
      · exact ⟨active, .inl reached⟩
      · have other : c' ≠ c := by
          rintro rfl
          rw [free] at waits
          exact Finset.notMem_empty _ waits
        refine ⟨active, .inr ⟨c', ?_⟩⟩
        cases sent : s.latest with
        | none => exact ⟨waits, latest⟩
        | some u =>
            simp only [Function.update_of_ne other]
            exact ⟨waits, latest⟩
  · intro id member
    rcases Finset.mem_insert.mp member with rfl | member
    · exact Nat.lt_succ_self _
    · exact (named id member).trans (Nat.lt_succ_self _)
  · intro c' id leaves
    obtain ⟨gone, old⟩ := leaving c' id leaves
    refine ⟨?_, old.trans (Nat.lt_succ_self _)⟩
    rw [Finset.mem_insert, not_or]
    exact ⟨old.ne, gone⟩
  · intro id later
    exact fresh id ((Nat.le_succ _).trans later)

theorem Orderly.remove {s : GeofabrikDownloadProgress Caller} (h : s.Orderly) (c : Caller)
    (id : ℕ) : (s.remove c id).Orderly := by
  obtain ⟨single, sound, counted, unsent, numbered, outgoing, pending, taken, behind, current,
    named, leaving, fresh⟩ := h
  rw [GeofabrikDownloadProgress.remove]
  split_ifs with member
  · refine ⟨single, sound, counted, unsent, numbered, outgoing, pending, taken, behind, ?_, ?_, ?_,
      fresh⟩
    · exact fun id' member' => current id' (Finset.mem_of_mem_erase member')
    · exact fun id' member' => named id' (Finset.mem_of_mem_erase member')
    · intro c' id' leaves
      simp only [Function.update_apply] at leaves
      split_ifs at leaves with same
      · obtain rfl := Option.some.inj leaves
        exact ⟨Finset.notMem_erase _ _, named id member⟩
      · obtain ⟨gone, old⟩ := leaving c' id' leaves
        exact ⟨fun member' => gone (Finset.mem_of_mem_erase member'), old⟩
  · exact ⟨single, sound, counted, unsent, numbered, outgoing, pending, taken, behind, current,
      named, leaving, fresh⟩

theorem Orderly.send {s : GeofabrikDownloadProgress Caller} (h : s.Orderly) {c : Caller}
    (bytes total : Int64) (few : (s.send c bytes total).sent < 2 ^ 64) :
    (s.send c bytes total).Orderly := by
  obtain ⟨single, sound, counted, unsent, numbered, outgoing, pending, taken, behind, current,
    named, leaving, fresh⟩ := id h
  rw [GeofabrikDownloadProgress.send] at few ⊢
  split_ifs at few ⊢ with same
  · exact h
  · have next : (s.revision + 1) % 2 ^ 64 = s.revision + 1 :=
      Nat.mod_eq_of_lt (by rw [counted]; exact few)
    have older : ∀ u, Known s.revision s.latest u → u.revision ≤ s.revision + 1 ∧ u.revision ≠ s.revision + 1 :=
      fun u known => ⟨known.1.trans (Nat.le_succ _), (Nat.lt_succ_of_le known.1).ne⟩
    simp only [next]
    refine ⟨single, sound, congrArg (· + 1) counted, nofun, ?_, ?_, ?_, ?_, ?_,
      ?_, named, leaving, fresh⟩
    · intro u last
      obtain rfl := Option.some.inj last
      exact ⟨rfl, Nat.succ_pos _⟩
    · intro c' id member
      simp only [Function.update_apply] at member ⊢
      split_ifs at member ⊢ with same
      · exact ⟨⟨le_rfl, fun _ => rfl⟩, named id member⟩
      · obtain ⟨known, old⟩ := outgoing c' id member
        exact ⟨⟨(older _ known).1, fun latest => absurd latest (older _ known).2⟩, old⟩
    · intro id u waits
      have known := older u (pending id u waits)
      exact ⟨known.1, fun latest => absurd latest known.2⟩
    · intro id u member
      have known := older u (taken id u member)
      exact ⟨known.1, fun latest => absurd latest known.2⟩
    · exact fun id => (behind id).trans (Nat.le_succ _)
    · intro id member
      refine ⟨(current id member).1, .inr ⟨c, ?_⟩⟩
      simp only [Function.update_self]
      exact ⟨member, trivial⟩

theorem delivering_update (subscriber : ℕ → Subscriber) (id : ℕ) (changed : Subscriber) :
    (fun i => (Function.update subscriber id changed i).delivering) =
      Function.update (fun i => (subscriber i).delivering) id changed.delivering := by
  funext i
  simp only [Function.update_apply]
  split_ifs <;> rfl

theorem Orderly.enqueue {s : GeofabrikDownloadProgress Caller} (h : s.Orderly) {c : Caller}
    {id : ℕ} (free : s.place c = none) (member : id ∈ (s.outgoing c).recipients) :
    (s.enqueue c id).Orderly := by
  obtain ⟨single, sound, counted, unsent, numbered, outgoing, pending, taken, behind, current,
    named, leaving, fresh⟩ := h
  obtain ⟨known, old⟩ := outgoing c id member
  have outgoing' : ∀ c' id', id' ∈ (Function.update s.outgoing c ⟨(s.outgoing c).update,
      (s.outgoing c).recipients.erase id⟩ c').recipients →
      Known s.revision s.latest (Function.update s.outgoing c ⟨(s.outgoing c).update,
        (s.outgoing c).recipients.erase id⟩ c').update ∧ id' < s.added := by
    intro c' id' member'
    simp only [Function.update_apply] at member' ⊢
    grind
  rw [GeofabrikDownloadProgress.enqueue]
  dsimp only
  by_cases accepts : (s.subscriber id).active = true ∧
      (s.subscriber id).revision < (s.outgoing c).update.revision
  · obtain ⟨active, newer⟩ := accepts
    rw [if_pos ⟨active, newer⟩]
    refine ⟨?_, ?_, counted, unsent, numbered, outgoing', ?_, taken, ?_, ?_, named, leaving, ?_⟩
    · rw [delivering_update]
      cases delivers : (s.subscriber id).delivering with
      | true =>
          have same : Function.update (fun i => (s.subscriber i).delivering) id true =
              fun i => (s.subscriber i).delivering := by
            rw [← delivers]
            exact Function.update_eq_self _ _
          dsimp only
          rw [same, if_pos rfl]
          exact single
      | false =>
          dsimp only
          rw [if_neg Bool.false_ne_true]
          exact single.enter free delivers
    · intro id'
      simp only [Function.update_apply]
      split_ifs with same
      · rw [same]
        exact (sound id).accept active newer
      · exact sound id'
    · intro id' u waits
      simp only [Function.update_apply] at waits
      split_ifs at waits with same
      · obtain rfl := Option.some.inj waits
        exact known
      · exact pending id' u waits
    · intro id'
      simp only [Function.update_apply]
      split_ifs with same
      · exact known.1
      · exact behind id'
    · intro id' registered
      have before := current id' registered
      have bound := known.1
      simp only [Function.update_apply]
      grind
    · intro id' later
      have other : id' ≠ id := (old.trans_le later).ne'
      simp only [Function.update_of_ne other]
      exact fresh id' later
  · rw [if_neg accepts]
    refine ⟨single, sound, counted, unsent, numbered, outgoing', pending, taken, behind, ?_, named,
      leaving, fresh⟩
    intro id' registered
    have before := current id' registered
    have reached := behind id'
    simp only [Function.update_apply]
    grind

theorem Orderly.drain {s : GeofabrikDownloadProgress Caller} (h : s.Orderly) {c : Caller}
    {id : ℕ} (here : s.place c = some (id, .looping)) : (s.drain c id).Orderly := by
  obtain ⟨single, sound, counted, unsent, numbered, outgoing, pending, taken, behind, current,
    named, leaving, fresh⟩ := h
  have delivers := (single.busy id c _ here).1
  have young : ∀ id', s.added ≤ id' → id' ≠ id := by
    rintro id' later rfl
    rw [(fresh id' later).1] at delivers
    cases delivers
  have stops : (s.subscriber id).pending = none →
      Orderly { s with
        subscriber := Function.update s.subscriber id { s.subscriber id with delivering := false }
        place := Function.update s.place c none } := by
    intro nothing
    refine ⟨?_, ?_, counted, unsent, numbered, outgoing, ?_, taken, ?_, ?_, named, leaving, ?_⟩
    · rw [delivering_update]
      exact single.leave here
    · intro id'
      simp only [Function.update_apply]
      split_ifs with same
      · rw [same]
        exact (sound id).stop nothing
      · exact sound id'
    · intro id' u
      simp only [Function.update_apply]
      grind
    · intro id'
      simp only [Function.update_apply]
      grind
    · intro id' registered
      have before := current id' registered
      simp only [Function.update_apply]
      grind
    · intro id' later
      simp only [Function.update_of_ne (young id' later)]
      exact fresh id' later
  rw [GeofabrikDownloadProgress.drain]
  split
  · next update active waits =>
      refine ⟨?_, ?_, counted, unsent, numbered, outgoing, ?_, ?_, ?_, ?_, named, leaving, ?_⟩
      · rw [delivering_update]
        have same : Function.update (fun i => (s.subscriber i).delivering) id
            (s.subscriber id).delivering = fun i => (s.subscriber i).delivering :=
          Function.update_eq_self _ _
        rw [same]
        have logged := (single.busy id c _ here).2
        have after : (Stage.holding update).Logged (s.taken id ++ [update]) (s.started id)
            (s.running id) := ⟨by rw [logged.1], logged.2⟩
        have moved := single.move here after
        rw [Function.update_eq_self, Function.update_eq_self] at moved
        exact moved
      · intro id'
        simp only [Function.update_apply]
        split_ifs with same
        · exact (sound id).take waits
        · exact sound id'
      · intro id' u
        simp only [Function.update_apply]
        grind
      · intro id' u
        have known := pending id update waits
        simp only [Function.update_apply]
        grind
      · intro id'
        simp only [Function.update_apply]
        grind
      · intro id' registered
        have before := current id' registered
        simp only [Function.update_apply]
        grind
      · intro id' later
        simp only [Function.update_of_ne (young id' later)]
        exact fresh id' later
  · next nothing =>
      refine stops ?_
      cases waits : (s.subscriber id).pending with
      | none => rfl
      | some u => exact (nothing u ((sound id).next u waits).2.2.1 waits).elim

/-- A caller that delivers goes on, without a change to the numbers. -/
theorem Orderly.move {s : GeofabrikDownloadProgress Caller} (h : s.Orderly) {c : Caller}
    {id : ℕ} {stage next : Stage} {started' : List Update} {running' : ℕ}
    (here : s.place c = some (id, stage)) (logged : next.Logged (s.taken id) started' running') :
    Orderly { s with
      place := Function.update s.place c (some (id, next))
      started := Function.update s.started id started'
      running := Function.update s.running id running' } := by
  have moved := h.single.move here logged
  rw [Function.update_eq_self] at moved
  exact { h with single := moved }

theorem Orderly.start {s : GeofabrikDownloadProgress Caller} (h : s.Orderly) {c : Caller}
    {id : ℕ} {update : Update} (here : s.place c = some (id, .holding update)) :
    (s.start c id update).Orderly := by
  obtain ⟨taken, quiet⟩ := (h.single.busy id c _ here).2
  exact h.move here ⟨taken.symm, by rw [quiet]⟩

theorem Orderly.finish {s : GeofabrikDownloadProgress Caller} (h : s.Orderly) {c : Caller}
    {id : ℕ} {update : Update} (here : s.place c = some (id, .calling update)) :
    (s.finish c id).Orderly := by
  obtain ⟨taken, busy⟩ := (h.single.busy id c _ here).2
  have after : Stage.looping.Logged (s.taken id) (s.started id) (s.running id - 1) :=
    ⟨taken, by rw [busy]⟩
  have moved := h.move here after
  rw [Function.update_eq_self] at moved
  exact moved

theorem Orderly.deactivate {s : GeofabrikDownloadProgress Caller} (h : s.Orderly) {c : Caller}
    {id : ℕ} (leaves : s.leaving c = some id) : (s.deactivate c id).Orderly := by
  obtain ⟨single, sound, counted, unsent, numbered, outgoing, pending, taken, behind, current,
    named, leaving, fresh⟩ := h
  obtain ⟨gone, old⟩ := leaving c id leaves
  refine ⟨?_, ?_, counted, unsent, numbered, outgoing, ?_, taken, ?_, ?_, named, ?_, ?_⟩
  · simp only [GeofabrikDownloadProgress.deactivate]
    rw [delivering_update]
    have same : Function.update (fun i => (s.subscriber i).delivering) id
        (s.subscriber id).delivering = fun i => (s.subscriber i).delivering :=
      Function.update_eq_self _ _
    rw [same]
    exact single
  all_goals simp only [GeofabrikDownloadProgress.deactivate, Function.update_apply]
  · intro id'
    split_ifs with same
    · rw [same]
      exact (sound id).deactivate
    · exact sound id'
  · grind
  · grind
  · intro id' registered
    have before := current id' registered
    grind
  · grind
  · grind

theorem Orderly.step {s : GeofabrikDownloadProgress Caller} (h : s.Orderly)
    (event : ProgressEvent Caller) (few : (s.step event).sent < 2 ^ 64) :
    (s.step event).Orderly := by
  cases event with
  | add c =>
      rw [GeofabrikDownloadProgress.step]
      split_ifs with idle
      · exact h.add idle
      · exact h
  | remove c id =>
      rw [GeofabrikDownloadProgress.step]
      split_ifs
      · exact h.remove c id
      · exact h
  | send c bytes total =>
      rw [GeofabrikDownloadProgress.step] at few ⊢
      split_ifs at few ⊢
      · exact h.send bytes total few
      · exact h
  | enqueue c id =>
      rw [GeofabrikDownloadProgress.step]
      split_ifs with waits
      · exact h.enqueue waits.1 waits.2
      · exact h
  | drain c =>
      rw [GeofabrikDownloadProgress.step]
      split
      · next here => exact h.drain here
      · exact h
  | start c =>
      rw [GeofabrikDownloadProgress.step]
      split
      · next here => exact h.start here
      · exact h
  | finish c =>
      rw [GeofabrikDownloadProgress.step]
      split
      · next here => exact h.finish here
      · exact h
  | deactivate c =>
      rw [GeofabrikDownloadProgress.step]
      split
      · next leaves => exact h.deactivate leaves
      · exact h

theorem sent_step (s : GeofabrikDownloadProgress Caller) (event : ProgressEvent Caller) :
    s.sent ≤ (s.step event).sent := by
  cases event <;>
    simp only [step, add, remove, send, enqueue, drain, start, finish, deactivate] <;>
    (repeat' split) <;> simp

theorem run_concat (events : List (ProgressEvent Caller)) (event : ProgressEvent Caller) :
    run (events ++ [event]) = (run events).step event := by
  rw [run, List.foldl_append, List.foldl_cons, List.foldl_nil, run]

/-- **Before the numbers wrap around, every run is orderly.** -/
theorem orderly_run (events : List (ProgressEvent Caller)) (few : (run events).sent < 2 ^ 64) :
    (run events).Orderly := by
  induction events using List.reverseRecOn with
  | nil => exact orderly_new
  | append_singleton events event ih =>
      rw [run_concat] at few ⊢
      exact (ih ((sent_step _ event).trans_lt few)).step event few

/-- Nothing is taken for a subscriber that was deactivated. -/
theorem inactive_step {s : GeofabrikDownloadProgress Caller} {id : ℕ}
    (inactive : (s.subscriber id).active = false) (named : id < s.added)
    (event : ProgressEvent Caller) :
    ((s.step event).subscriber id).active = false ∧ id < (s.step event).added ∧
      (s.step event).taken id = s.taken id := by
  cases event <;>
    simp only [step, add, remove, send, enqueue, drain, start, finish, deactivate] <;>
    (repeat' split) <;> simp only [Function.update_apply] <;> grind

theorem inactive_run {before : List (ProgressEvent Caller)} {id : ℕ}
    (inactive : ((run before).subscriber id).active = false) (named : id < (run before).added)
    (after : List (ProgressEvent Caller)) :
    (run (before ++ after)).taken id = (run before).taken id := by
  have kept : ((run (before ++ after)).subscriber id).active = false ∧
      id < (run (before ++ after)).added ∧
      (run (before ++ after)).taken id = (run before).taken id := by
    induction after using List.reverseRecOn with
    | nil =>
        rw [List.append_nil]
        exact ⟨inactive, named, rfl⟩
    | append_singleton after event ih =>
        obtain ⟨inactive', named', same⟩ := ih
        rw [← List.append_assoc, run_concat]
        obtain ⟨inactive'', named'', same'⟩ := inactive_step inactive' named' event
        exact ⟨inactive'', named'', same'.trans same⟩
  exact kept.2.2

omit [DecidableEq Caller] in
/-- A callback was started with every update that was taken, or with all but the last. -/
theorem Orderly.started {s : GeofabrikDownloadProgress Caller} (h : s.Orderly) (id : ℕ) :
    s.taken id = s.started id ∨ ∃ caller update, s.place caller = some (id, .holding update) ∧
      s.taken id = s.started id ++ [update] := by
  cases delivers : (s.subscriber id).delivering with
  | false => exact .inl (h.single.quiet id delivers).1.symm
  | true =>
      obtain ⟨c, stage, here⟩ := h.single.occupied id delivers
      have logged := (h.single.busy id c stage here).2
      cases stage with
      | looping => exact .inl logged.1.symm
      | holding update => exact .inr ⟨c, update, here, logged.1⟩
      | calling update => exact .inl logged.1.symm

omit [DecidableEq Caller] in
theorem Orderly.running_le {s : GeofabrikDownloadProgress Caller} (h : s.Orderly) (id : ℕ) :
    s.running id ≤ 1 := by
  cases delivers : (s.subscriber id).delivering with
  | false => exact (h.single.quiet id delivers).2.trans_le (Nat.zero_le 1)
  | true =>
      obtain ⟨c, stage, here⟩ := h.single.occupied id delivers
      have logged := (h.single.busy id c stage here).2
      cases stage with
      | looping => exact logged.2.trans_le (Nat.zero_le 1)
      | holding update => exact logged.2.trans_le (Nat.zero_le 1)
      | calling update => exact logged.2.le

omit [DecidableEq Caller] in
theorem Orderly.started_prefix {s : GeofabrikDownloadProgress Caller} (h : s.Orderly) (id : ℕ) :
    s.started id <+: s.taken id := by
  obtain same | ⟨-, update, -, last⟩ := h.started id
  · rw [same]
  · exact ⟨[update], last.symm⟩

/-- No call of `send` or `add` is in progress. -/
def Quiet (s : GeofabrikDownloadProgress Caller) : Prop :=
  ∀ caller, (s.outgoing caller).recipients = ∅ ∧ s.place caller = none

omit [DecidableEq Caller] in
theorem Orderly.told {s : GeofabrikDownloadProgress Caller} (h : s.Orderly) (quiet : s.Quiet)
    {id : ℕ} (registered : id ∈ s.subscribers) : (s.started id).getLast? = s.latest := by
  obtain ⟨active, reached | ⟨c, waits, -⟩⟩ := h.current id registered
  · have idle : (s.subscriber id).delivering = false := by
      by_contra busy
      obtain ⟨c, stage, here⟩ := h.single.occupied id (Bool.eq_true_of_not_eq_false busy)
      rw [(quiet c).2] at here
      cases here
    have nothing : (s.subscriber id).pending = none := by
      cases waits : (s.subscriber id).pending with
      | none => rfl
      | some u =>
          have busy := ((h.sound id).next u waits).2.1
          rw [idle] at busy
          cases busy
    have last := (h.sound id).last active nothing
    rw [(h.single.quiet id idle).1]
    rw [reached] at last
    cases taken : (s.taken id).getLast? with
    | none =>
        rw [taken, Option.map_none, Option.getD_none] at last
        cases sent : s.latest with
        | none => rfl
        | some u =>
            have positive := (h.numbered u sent).2
            omega
    | some u =>
        rw [taken, Option.map_some, Option.getD_some] at last
        exact ((h.taken id u (List.mem_of_getLast? taken)).2 last.symm).symm
  · rw [(quiet c).1] at waits
    exact absurd waits (Finset.notMem_empty _)

/-- **The updates of a subscriber come in order**, in every interleaving of calls: the callbacks
run one at a time with increasing numbers; once a subscriber was deactivated nothing is taken
for it, and only a callback whose update was taken before may still start; and when no call
sends or adds, every registered subscriber was told the latest update. -/
theorem progress_in_order (events : List (ProgressEvent Caller))
    (few : (run events).sent < 2 ^ 64) :
    (∀ id, ((run events).started id).Pairwise fun u v => u.revision < v.revision) ∧
    (∀ id, (run events).running id ≤ 1) ∧
    (∀ before after id, events = before ++ after →
      ((run before).subscriber id).active = false →
      (run events).started id <+: (run before).taken id ∧
      ((run before).taken id = (run before).started id ∨
        ∃ caller update, (run before).place caller = some (id, .holding update) ∧
          (run before).taken id = (run before).started id ++ [update])) ∧
    ((run events).Quiet → ∀ id ∈ (run events).subscribers,
      ((run events).started id).getLast? = (run events).latest) := by
  have orderly := orderly_run events few
  refine ⟨fun id => ?_, orderly.running_le, ?_, fun quiet id member => orderly.told quiet member⟩
  · exact (orderly.sound id).increasing.sublist (orderly.started_prefix id).sublist
  · rintro before after id rfl inactive
    have earlier : (run before).sent ≤ (run (before ++ after)).sent := by
      induction after using List.reverseRecOn with
      | nil => rw [List.append_nil]
      | append_singleton after event ih =>
          rw [← List.append_assoc, run_concat] at few ⊢
          have below := (sent_step (run (before ++ after)) event)
          exact (ih (below.trans_lt few) (orderly_run _ (below.trans_lt few))).trans below
    have sound := orderly_run before (earlier.trans_lt few)
    have named : id < (run before).added := by
      by_contra later
      rw [(sound.fresh id (not_lt.mp later)).1] at inactive
      cases inactive
    refine ⟨?_, sound.started id⟩
    rw [← inactive_run inactive named after]
    exact orderly.started_prefix id

/-- A subscriber that joins late is told the latest update. -/
theorem progress_in_order_late :
    ((run [.send false 4 9, .add true, .enqueue true 0, .drain true, .start true, .finish true,
      .drain true] : GeofabrikDownloadProgress Bool).started 0).getLast? = some ⟨1, 4, 9⟩ :=
  (@progress_in_order Bool _ [.send false 4 9, .add true, .enqueue true 0, .drain true,
    .start true, .finish true, .drain true] (by decide)).2.2.2
    (fun caller => by cases caller <;> exact ⟨rfl, rfl⟩) 0 (by decide)

/-! ## Where the order ends -/

/-- Updates that differ from one to the next. -/
def alternate (number : ℕ) : Int64 := if number % 2 = 0 then 0 else 1

/-- As many updates as `count`, without a subscriber. -/
def sends (count : ℕ) : List (ProgressEvent Unit) :=
  (List.range count).map fun i => .send () (alternate (i + 1)) 0

def afterSends (count : ℕ) : GeofabrikDownloadProgress Unit :=
  let update : Update := ⟨count % 2 ^ 64, alternate count, 0⟩
  { new with
    latest := some update
    revision := update.revision
    sent := count
    outgoing := Function.update new.outgoing () ⟨update, ∅⟩ }

theorem run_sends (count : ℕ) : run (sends (count + 1)) = afterSends (count + 1) := by
  induction count with
  | zero => rfl
  | succ count ih =>
      have last : sends (count + 2) = sends (count + 1) ++ [.send () (alternate (count + 2)) 0] := by
        rw [sends, List.range_succ, List.map_append]
        rfl
      rw [last, run_concat, ih, step]
      have idle : (afterSends (count + 1)).Idle () := ⟨rfl, rfl, rfl⟩
      have different : alternate (count + 1) ≠ alternate (count + 2) := by
        unfold alternate
        rcases Nat.mod_two_eq_zero_or_one count with even | odd
        · simp [Nat.add_mod, even]
        · simp [Nat.add_mod, odd]
      have next : ((count + 1) % 2 ^ 64 + 1) % 2 ^ 64 = (count + 2) % 2 ^ 64 := by omega
      rw [if_pos idle, send, if_neg (fun same => different (Option.some.inj same.1))]
      simp only [afterSends, next, Function.update_idem]
      rfl

/-- The run that leads to the number zero: after `2 ^ 64 - 1` updates a subscriber joins, is
told the last one, and does not accept the next. -/
def wrapped : List (ProgressEvent Unit) :=
  sends (2 ^ 64 - 2 + 1) ++ [.add ()] ++ [.enqueue () 0] ++ [.drain ()] ++ [.start ()] ++
    [.finish ()] ++ [.drain ()] ++ [.send () 5 0] ++ [.enqueue () 0]

theorem run_wrapped : run wrapped =
    (((((((((afterSends (2 ^ 64 - 2 + 1)).step (.add ())).step (.enqueue () 0)).step
      (.drain ())).step (.start ())).step (.finish ())).step (.drain ())).step
      (.send () 5 0)).step (.enqueue () 0)) := by
  rw [wrapped]
  simp only [run_concat, run_sends]

/-- A callback may start after its subscriber was deactivated, a subscriber that is being
removed misses an update, and the number zero is never accepted. -/
theorem progress_not_in_order :
    (¬ ∀ (before after : List (ProgressEvent Bool)) (id : ℕ),
      ((run before).subscriber id).active = false →
      (run (before ++ after)).started id = (run before).started id) ∧
    (¬ ∀ events : List (ProgressEvent Bool), (run events).Quiet → ∀ id < (run events).added,
      ((run events).subscriber id).active = true →
      ((run events).started id).getLast? = (run events).latest) ∧
    ¬ ∀ events : List (ProgressEvent Unit), (run events).Quiet → ∀ id ∈ (run events).subscribers,
      ((run events).started id).getLast? = (run events).latest := by
  refine ⟨fun kept => ?_, fun told => ?_, fun told => ?_⟩
  · have late := kept [.add false, .send true 5 9, .enqueue true 0, .drain true, .remove false 0,
      .deactivate false] [.start true] 0 (by decide)
    revert late
    decide
  · have missed := told [.add false, .remove false 0, .send true 5 9]
      (fun caller => by cases caller <;> exact ⟨rfl, rfl⟩) 0 (by decide) (by decide)
    revert missed
    decide
  · have stuck := told wrapped
    rw [run_wrapped] at stuck
    have dropped := stuck (fun ⟨⟩ => ⟨by decide +kernel, rfl⟩) 0 (by decide +kernel)
    revert dropped
    decide +kernel

end GeofabrikDownloadProgress

end OsmMini.Apple

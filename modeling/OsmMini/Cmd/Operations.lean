import OsmMini.Cmd.Basic
import OsmMini.Core.Types
import OsmMini.Foundations.Binary64
import OsmMini.Foundations.Machine
import OsmMini.Foundations.Ranges

/-!
# The operations log

Deliveries, maintenance work and checks are appended to a log that is written to a
file after every change. A client may repeat a request whose answer it did not get: it
names the request by an event ID of its own, and the store answers a repeated request
with the record it made the first time.

Next to the records in the order they were appended, the store keeps their positions
with the newest first, and the position of the record of each event ID. The three are
changed together or not at all (`operationsStore_correct`).
-/

set_option autoImplicit false

namespace OsmMini.Cmd

open OsmMini.Core OsmMini.Foundations

/-! ## Records -/

/-- An entry of the log. -/
structure OperationRecord where
  id : String
  clientEventID : String
  type : String
  actor : String
  assetCode : String
  status : String
  recipient : String
  reference : String
  technician : String
  workType : String
  notes : String
  latitude : Option F64
  longitude : Option F64
  occurredAt : Time
  createdAt : Time
  deriving DecidableEq

instance : Inhabited OperationRecord where
  default :=
    { id := "", clientEventID := "", type := "", actor := "", assetCode := "", status := ""
      recipient := "", reference := "", technician := "", workType := "", notes := ""
      latitude := none, longitude := none, occurredAt := 0, createdAt := 0 }

def operationTypePOD : String := "pod"
def operationTypeMaintenance : String := "maintenance"
def operationTypeCheck : String := "check"

/-- The characters of an event ID. -/
def isEventChar (c : Char) : Bool :=
  c.isLower || c.isUpper || c.isDigit || c = '-' || c = '_'

/-- Whether a coordinate is no number or lies outside its range. -/
def invalidCoordinate (x : F64) (limit : ℚ) : Bool :=
  x.isNaN || !x.isFinite || x.lt (.ofRat (-limit)) || (F64.ofRat limit).lt x

section Validation

variable (toLower : Char → Char)

/-- The record with the blanks around its texts removed. -/
def OperationRecord.trimmed (r : OperationRecord) : OperationRecord :=
  { r with
    type := (trimSpace r.type).map toLower
    clientEventID := trimSpace r.clientEventID
    actor := trimSpace r.actor
    assetCode := trimSpace r.assetCode
    status := trimSpace r.status
    recipient := trimSpace r.recipient
    reference := trimSpace r.reference
    technician := trimSpace r.technician
    workType := trimSpace r.workType
    notes := trimSpace r.notes }

/-- The checks of a trimmed record, in their order; `now` is the time they are made. -/
def OperationRecord.problem (now : Time) (r : OperationRecord) : Option String :=
  if r.type ≠ operationTypePOD ∧ r.type ≠ operationTypeMaintenance ∧ r.type ≠ operationTypeCheck then
    some "operation type must be pod, maintenance or check"
  else if 128 < r.clientEventID.utf8ByteSize then
    some "client_event_id must be at most 128 characters"
  else if !r.clientEventID.toList.all isEventChar then
    some "client_event_id contains an invalid character"
  else if r.assetCode = "" ∨ 160 < r.assetCode.utf8ByteSize then
    some "asset_code is required and must be at most 160 characters"
  else if 120 < r.actor.utf8ByteSize then
    some "actor must be at most 120 characters"
  else if r.status = "" ∨ 80 < r.status.utf8ByteSize then
    some "status is required and must be at most 80 characters"
  else if r.type = operationTypePOD ∧ r.recipient = "" then
    some "recipient is required for pod"
  else if r.type = operationTypeMaintenance ∧ r.workType = "" then
    some "work_type is required for maintenance"
  else if [r.recipient, r.reference, r.technician, r.workType].any (240 < ·.utf8ByteSize) then
    some "operation field must be at most 240 characters"
  else if 4096 < r.notes.utf8ByteSize then
    some "notes must be at most 4096 characters"
  else if !r.occurredAt.isZero &&
      (r.occurredAt < Time.year2000 || now + 5 * Time.minute < r.occurredAt) then
    some "occurred_at is outside the accepted time range"
  else if r.latitude.isNone ≠ r.longitude.isNone then
    some "latitude and longitude must be supplied together"
  else if r.latitude.any (invalidCoordinate · 90) || r.longitude.any (invalidCoordinate · 180) then
    some "invalid coordinates"
  else none

def validateOperation (now : Time) (r : OperationRecord) : Except String OperationRecord :=
  match (r.trimmed toLower).problem now with
  | some message => .error message
  | none => .ok (r.trimmed toLower)

end Validation

/-- Whether two records have equal coordinates, or none. A record that was validated
has both coordinates or none. -/
def sameCoordinates (a b : OperationRecord) : Bool :=
  if a.latitude.isNone ≠ b.latitude.isNone ∨ a.longitude.isNone ≠ b.longitude.isNone then false
  else match a.latitude, b.latitude, a.longitude, b.longitude with
    | none, _, _, _ => true
    | some la, some lb, some oa, some ob => la.equal lb && oa.equal ob
    | _, _, _, _ => false

def sameOperation (a b : OperationRecord) : Bool :=
  if a.clientEventID ≠ b.clientEventID ∨ a.type ≠ b.type ∨ a.actor ≠ b.actor ∨
      a.assetCode ≠ b.assetCode ∨ a.status ≠ b.status ∨ a.recipient ≠ b.recipient ∨
      a.reference ≠ b.reference ∨ a.technician ≠ b.technician ∨ a.workType ≠ b.workType ∨
      a.notes ≠ b.notes ∨ a.occurredAt ≠ b.occurredAt then false
  else sameCoordinates a b

/-! ## The store -/

/-- The records in the order they were appended, their positions with the newest first,
and the position of the record of each event ID. -/
structure OperationsStore where
  records : List OperationRecord
  newest : List ℕ
  clientEvents : Option (GoMap String ℕ)

def newOperationsStore : OperationsStore :=
  { records := [], newest := [], clientEvents := none }

/-- When the record at a position was created. -/
def createdAt (records : List OperationRecord) (i : ℕ) : Time :=
  (records.getD i default).createdAt

/-- Whether the record at position `a` comes before the one at `b`: the newer one does,
and of two of the same time the later one. -/
def newerFirst (records : List OperationRecord) (a b : ℕ) : Bool :=
  if createdAt records a = createdAt records b then b < a
  else createdAt records b < createdAt records a

/-- What reading the log gives: no file, an error, a text that does not decode, or
records. -/
inductive LogFile where
  | missing
  | unreadable (err : String)
  | malformed (err : String)
  | records (records : List OperationRecord)

/-- The positions of the event IDs of the records from position `i` on. -/
def indexEvents : ℕ → List OperationRecord → GoMap String ℕ → Except String (GoMap String ℕ)
  | _, [], events => .ok events
  | i, r :: rest, events =>
    if r.clientEventID = "" then indexEvents (i + 1) rest events
    else if (events.lookup r.clientEventID).isSome then
      .error "duplicate client_event_id in operations log"
    else indexEvents (i + 1) rest (events.insert r.clientEventID i)

namespace OperationsStore

variable (s : OperationsStore)

def load (file : LogFile) : OperationsStore × Except String Unit :=
  match file with
  | .missing => (s, .ok ())
  | .unreadable err => (s, .error err)
  | .malformed err => (s, .error ("decode operations log: " ++ err))
  | .records records =>
    match indexEvents 0 records ∅ with
    | .error err => (s, .error err)
    | .ok clientEvents =>
      let newest := (List.range records.length).mergeSort fun a b => !newerFirst records b a
      ({ records, newest, clientEvents := some clientEvents }, .ok ())

def errOperationIdempotencyConflict : String :=
  "client_event_id already belongs to a different operation"

/-- What happens around a request: the readings of the clock, the ID that is made for a
new record, and whether the log can be written. -/
structure Surroundings where
  validated : Time
  operationID : Except String String
  occurred : Time
  created : Time
  saved : Except String Unit

/-- The position of the record of an event ID. -/
def eventIndex (id : String) : Option ℕ :=
  s.clientEvents.bind fun events => events.lookup id

/-- The answer to a request whose event ID is known. -/
def repeated (input : OperationRecord) : Option (Except String OperationRecord) :=
  if input.clientEventID = "" then none
  else (s.eventIndex input.clientEventID).map fun index =>
    let existing := s.records.getD index default
    let input := if input.occurredAt.isZero then { input with occurredAt := existing.occurredAt }
      else input
    if !sameOperation existing input then .error errOperationIdempotencyConflict
    else .ok existing

/-- The first place in the newest-first order for a record created at some time. -/
def insertionPoint (created : Time) : ℕ :=
  search s.newest.length fun i => !(created < createdAt s.records (s.newest.getD i 0))

/-- Add the last record to the two indexes. -/
def publish (input : OperationRecord) : OperationsStore :=
  let idx := s.records.length - 1
  let position := s.insertionPoint input.createdAt
  { s with
    newest := s.newest.take position ++ idx :: s.newest.drop position
    clientEvents := if input.clientEventID = "" then s.clientEvents
      else some ((s.clientEvents.getD ∅).insert input.clientEventID idx) }

/-- Append a new record, and take it back when the log cannot be written. -/
def append (input : OperationRecord) (now : Surroundings) :
    OperationsStore × Except String OperationRecord :=
  match now.operationID with
  | .error err => (s, .error err)
  | .ok id =>
    let input := { input with
      id := id
      occurredAt := if input.occurredAt.isZero then now.occurred else input.occurredAt
      createdAt := now.created }
    let s := { s with records := s.records ++ [input] }
    match now.saved with
    | .error err => ({ s with records := s.records.take (s.records.length - 1) }, .error err)
    | .ok () => (s.publish input, .ok input)

/-- Answer a request: refuse it, repeat the answer to an earlier one, or append it. -/
def create (toLower : Char → Char) (input : OperationRecord) (now : Surroundings) :
    OperationsStore × Except String OperationRecord :=
  match validateOperation toLower now.validated input with
  | .error err => (s, .error err)
  | .ok input =>
    match s.repeated input with
    | some answer => (s, answer)
    | none => s.append input now

/-- The newest records of a kind, or of any kind, at most `limit` of them. -/
def list (kind : String) (limit : ℤ) : List OperationRecord :=
  let limit := if limit ≤ 0 ∨ 500 < limit then 100 else limit.toNat
  ((s.newest.map fun idx => s.records.getD idx default).filter
    fun r => kind = "" || r.type = kind).take limit

end OperationsStore

/-! ## Runs -/

/-- A call of the store. -/
inductive OperationsCall where
  | load (file : LogFile)
  | create (input : OperationRecord) (now : OperationsStore.Surroundings)
  | list (kind : String) (limit : ℤ)

/-- What a call returns. -/
inductive OperationsAnswer where
  | loaded (result : Except String Unit)
  | created (result : Except String OperationRecord)
  | listed (records : List OperationRecord)

/-- Whether a call returned an error. -/
def OperationsAnswer.isError : OperationsAnswer → Prop
  | .loaded result => ∃ err, result = .error err
  | .created result => ∃ err, result = .error err
  | .listed _ => False

def OperationsStore.step (toLower : Char → Char) (s : OperationsStore) :
    OperationsCall → OperationsStore × OperationsAnswer
  | .load file => ((s.load file).1, .loaded (s.load file).2)
  | .create input now => ((s.create toLower input now).1, .created (s.create toLower input now).2)
  | .list kind limit => (s, .listed (s.list kind limit))

/-! ## Event IDs -/

/-- The record at a position has the event ID. -/
def HasEvent (records : List OperationRecord) (id : String) (i : ℕ) : Prop :=
  id ≠ "" ∧ ∃ r, records[i]? = some r ∧ r.clientEventID = id

theorem hasEvent_append {records : List OperationRecord} {r : OperationRecord} {id : String}
    {i : ℕ} : HasEvent (records ++ [r]) id i ↔
      HasEvent records id i ∨ (id ≠ "" ∧ i = records.length ∧ r.clientEventID = id) := by
  unfold HasEvent
  rcases lt_trichotomy i records.length with less | rfl | more
  · rw [List.getElem?_append_left less]
    constructor
    · exact fun held => .inl held
    · rintro (held | ⟨-, same, -⟩)
      · exact held
      · omega
  · rw [List.getElem?_concat_length, List.getElem?_eq_none (le_refl _)]
    constructor
    · rintro ⟨some_, x, same, event⟩
      exact .inr ⟨some_, rfl, by rw [Option.some.inj same, event]⟩
    · rintro (⟨-, x, same, -⟩ | ⟨some_, -, event⟩)
      · cases same
      · exact ⟨some_, r, rfl, event⟩
  · rw [List.getElem?_eq_none (by simp; omega), List.getElem?_eq_none more.le]
    constructor
    · rintro ⟨-, x, same, -⟩
      cases same
    · rintro (⟨-, x, same, -⟩ | ⟨-, same, -⟩)
      · cases same
      · omega

/-- A map that indexes the event IDs of the records. -/
def Indexes (events : String → Option ℕ) (records : List OperationRecord) : Prop :=
  ∀ id i, events id = some i ↔ HasEvent records id i

/-- A record without an event ID, or with a new one, is indexed at its position. -/
theorem Indexes.append {events : GoMap String ℕ} {records : List OperationRecord}
    (indexes : Indexes (fun id => events.lookup id) records) {r : OperationRecord}
    (fresh : r.clientEventID ≠ "" → events.lookup r.clientEventID = none) :
    Indexes (fun id => (if r.clientEventID = "" then events
      else events.insert r.clientEventID records.length).lookup id) (records ++ [r]) := by
  intro id i
  rw [hasEvent_append, ← indexes id i]
  by_cases blank : r.clientEventID = ""
  · rw [if_pos blank]
    constructor
    · exact .inl
    · rintro (held | ⟨some_, -, event⟩)
      · exact held
      · exact absurd (event.symm.trans blank) some_
  · simp only [if_neg blank]
    by_cases same : id = r.clientEventID
    · subst same
      rw [AList.lookup_insert, fresh blank]
      constructor
      · exact fun h => .inr ⟨blank, (Option.some.inj h).symm, rfl⟩
      · rintro (held | ⟨-, rfl, -⟩)
        · cases held
        · rfl
    · rw [AList.lookup_insert_ne same]
      constructor
      · exact .inl
      · rintro (held | ⟨-, -, event⟩)
        · exact held
        · exact absurd event.symm same

theorem indexEvents_ok : ∀ {rest seen : List OperationRecord} {events found : GoMap String ℕ},
    Indexes (fun id => events.lookup id) seen →
    indexEvents seen.length rest events = .ok found →
    Indexes (fun id => found.lookup id) (seen ++ rest)
  | [], seen, events, found, indexes, run => by
      cases run
      rwa [List.append_nil]
  | r :: rest, seen, events, found, indexes, run => by
      have onward : ∀ {next : GoMap String ℕ},
          Indexes (fun id => next.lookup id) (seen ++ [r]) →
          indexEvents (seen.length + 1) rest next = .ok found →
          Indexes (fun id => found.lookup id) (seen ++ r :: rest) := by
        intro next kept later
        have long : seen.length + 1 = (seen ++ [r]).length := by simp
        rw [long] at later
        have done := indexEvents_ok kept later
        rwa [List.append_assoc] at done
      rw [indexEvents] at run
      split at run
      · rename_i blank
        refine onward ?_ run
        have step := indexes.append (r := r) fun some_ => absurd blank some_
        rwa [if_pos blank] at step
      · rename_i some_
        split at run
        · cases run
        · rename_i fresh
          refine onward ?_ run
          have step := indexes.append (r := r) fun _ => by simpa using fresh
          rwa [if_neg some_] at step

/-! ## The newest first -/

/-- The record at position `a` is newer than the one at `b`, or as old and later. -/
def Newer (records : List OperationRecord) (a b : ℕ) : Prop :=
  createdAt records b < createdAt records a ∨ createdAt records a = createdAt records b ∧ b < a

theorem newerFirst_iff {records : List OperationRecord} {a b : ℕ} :
    newerFirst records a b = true ↔ Newer records a b := by
  unfold newerFirst Newer
  split_ifs with same
  · simp [same]
  · simp [same]

section Order

variable {records : List OperationRecord} {a b c : ℕ}

theorem Newer.trans (first : Newer records a b) (second : Newer records b c) :
    Newer records a c := by
  rcases first with before | ⟨same, less⟩
  · rcases second with before' | ⟨same', -⟩
    · exact .inl (before'.trans before)
    · exact .inl (same' ▸ before)
  · rcases second with before' | ⟨same', less'⟩
    · exact .inl (same ▸ before')
    · exact .inr ⟨same.trans same', less'.trans less⟩

theorem Newer.asymm (newer : Newer records a b) : ¬ Newer records b a := by
  rintro (before | ⟨same, less⟩)
  · rcases newer with before' | ⟨same', -⟩
    · exact lt_asymm before before'
    · exact before.ne same'
  · rcases newer with before' | ⟨-, less'⟩
    · exact before'.ne same
    · exact lt_asymm less less'

/-- Of two positions one is newer. -/
theorem newer_of_not (other : a ≠ b) (older : ¬ Newer records b a) : Newer records a b := by
  rcases lt_trichotomy (createdAt records a) (createdAt records b) with less | same | more
  · exact absurd (.inl less) older
  · refine .inr ⟨same, lt_of_le_of_ne (not_lt.mp fun less => ?_) (Ne.symm other)⟩
    exact older (.inr ⟨same.symm, less⟩)
  · exact .inl more

end Order

/-- The positions of the records, the newest first. -/
structure NewestFirst (records : List OperationRecord) (newest : List ℕ) : Prop where
  perm : newest.Perm (List.range records.length)
  sorted : newest.Pairwise (Newer records)

/-- Sorting the positions gives them the newest first. -/
theorem newestFirst_mergeSort (records : List OperationRecord) : NewestFirst records
    ((List.range records.length).mergeSort fun a b => !newerFirst records b a) where
  perm := List.mergeSort_perm ..
  sorted := by
    have older : ∀ a b, (!newerFirst records b a) = true ↔ ¬ Newer records b a := by
      intro a b
      rw [← newerFirst_iff, Bool.not_eq_true', Bool.not_eq_true]
    have sorted := @List.pairwise_mergeSort _ (fun a b => !newerFirst records b a)
      (fun a b c first second => ?_) (fun a b => ?_) (List.range records.length)
    · have distinct : ((List.range records.length).mergeSort
          fun a b => !newerFirst records b a).Nodup :=
        (List.mergeSort_perm ..).nodup_iff.mpr List.nodup_range
      refine (sorted.and distinct).imp fun {a b} both => ?_
      exact newer_of_not both.2 ((older a b).mp both.1)
    · refine (older a c).mpr fun newer => ?_
      by_cases same : a = b
      · exact (older b c).mp second (same ▸ newer)
      · have before := newer_of_not same ((older a b).mp first)
        exact (older b c).mp second (newer.trans before)
    · by_cases newer : Newer records b a
      · rw [(older b a).mpr newer.asymm, Bool.or_true]
      · rw [(older a b).mpr newer, Bool.true_or]

/-- Appending a record leaves the order of the earlier positions. -/
theorem newer_append {records : List OperationRecord} (r : OperationRecord) {a b : ℕ}
    (first : a < records.length) (second : b < records.length) :
    Newer (records ++ [r]) a b ↔ Newer records a b := by
  have same : ∀ i < records.length, createdAt (records ++ [r]) i = createdAt records i := by
    intro i inside
    unfold createdAt
    rw [List.getD_append _ _ _ _ inside]
  unfold Newer
  rw [same a first, same b second]

theorem createdAt_last (records : List OperationRecord) (r : OperationRecord) :
    createdAt (records ++ [r]) records.length = r.createdAt := by
  unfold createdAt
  simp

/-- **The insertion point keeps the order**: the positions before it are newer than the
appended record, and those from it on are older or as old. -/
theorem NewestFirst.insert {records : List OperationRecord} {newest : List ℕ}
    (first : NewestFirst records newest) (r : OperationRecord) {position : ℕ}
    (found : position = search newest.length fun i =>
      !decide (r.createdAt < createdAt (records ++ [r]) (newest.getD i 0))) :
    NewestFirst (records ++ [r])
      (newest.take position ++ records.length :: newest.drop position) where
  perm := by
    have moved : (newest.take position ++ records.length :: newest.drop position).Perm
        (records.length :: newest) := by
      have perm := @List.perm_middle _ records.length (newest.take position)
        (newest.drop position)
      rwa [List.take_append_drop] at perm
    refine moved.trans ?_
    rw [List.length_append, List.length_singleton, List.range_succ]
    exact (first.perm.cons _).trans (List.perm_append_singleton _ _).symm
  sorted := by
    have inside : ∀ i ∈ newest, i < records.length := fun i member =>
      List.mem_range.mp (first.perm.mem_iff.mp member)
    have kept : newest.Pairwise (Newer (records ++ [r])) :=
      first.sorted.imp_of_mem fun {a b} ma mb newer =>
        (newer_append r (inside a ma) (inside b mb)).mpr newer
    have sorted : (newest.take position ++ newest.drop position).Pairwise
        (Newer (records ++ [r])) := by rwa [List.take_append_drop]
    obtain ⟨before, after, across⟩ := List.pairwise_append.mp sorted
    have last := search_le newest.length fun i =>
      !decide (r.createdAt < createdAt (records ++ [r]) (newest.getD i 0))
    rw [← found] at last
    have newer : ∀ a ∈ newest.take position, Newer (records ++ [r]) a records.length := by
      intro a member
      have positive : 0 < position := by
        rcases Nat.eq_zero_or_pos position with zero | positive
        · simp [zero] at member
        · exact positive
      have edge := search_before (found ▸ positive)
      rw [← found] at edge
      have least : r.createdAt < createdAt (records ++ [r]) (newest.getD (position - 1) 0) := by
        simpa using edge
      have here : position - 1 < newest.length := by omega
      have ends : newest.take position =
          newest.take (position - 1) ++ [newest.getD (position - 1) 0] := by
        obtain ⟨k, rfl⟩ := Nat.exists_eq_succ_of_ne_zero positive.ne'
        rw [Nat.succ_sub_one] at here ⊢
        rw [Nat.succ_eq_add_one, List.take_add_one, List.getD_eq_getElem _ _ here,
          List.getElem?_eq_getElem here, Option.toList_some]
      refine .inl ?_
      rw [createdAt_last]
      rw [ends] at member before
      rcases List.mem_append.mp member with earlier | same
      · have order := (List.pairwise_append.mp before).2.2 a earlier _ (List.mem_singleton_self _)
        rcases order with more | ⟨equal, -⟩
        · exact least.trans more
        · rwa [equal]
      · rwa [List.mem_singleton.mp same]
    have older : ∀ b ∈ newest.drop position, Newer (records ++ [r]) records.length b := by
      intro b member
      have small : position < newest.length := by
        by_contra past
        rw [List.drop_eq_nil_of_le (not_lt.mp past)] at member
        exact absurd member List.not_mem_nil
      have edge := search_true (found ▸ small)
      rw [← found] at edge
      have most : ¬ r.createdAt < createdAt (records ++ [r]) (newest.getD position 0) := by
        simpa using edge
      rw [List.getD_eq_getElem _ _ small] at most
      have old : b < records.length := inside b (List.mem_of_mem_drop member)
      have bound : createdAt (records ++ [r]) b ≤ r.createdAt := by
        rw [List.drop_eq_getElem_cons small] at member after
        rcases List.mem_cons.mp member with rfl | later
        · exact not_lt.mp most
        · rcases (List.pairwise_cons.mp after).1 b later with less | ⟨same, -⟩
          · exact less.le.trans (not_lt.mp most)
          · exact same ▸ not_lt.mp most
      rcases bound.lt_or_eq with less | same
      · exact .inl (by rwa [createdAt_last])
      · exact .inr ⟨by rw [createdAt_last, same], old⟩
    refine List.pairwise_append.mpr ⟨before, List.pairwise_cons.mpr ⟨older, after⟩, ?_⟩
    intro a earlier b member
    rcases List.mem_cons.mp member with rfl | later
    · exact newer a earlier
    · exact across a earlier b later

/-! ## What every call keeps -/

namespace OperationsStore

/-- The two indexes agree with the records. -/
structure Coherent (s : OperationsStore) : Prop where
  events : Indexes s.eventIndex s.records
  newest : NewestFirst s.records s.newest

theorem coherent_new : newOperationsStore.Coherent where
  events id i := by
    constructor
    · exact fun found => nomatch found
    · rintro ⟨-, r, found, -⟩
      cases found
  newest := ⟨.nil, .nil⟩

/-- A log that loads is indexed as a whole. -/
theorem Coherent.load {s : OperationsStore} (coherent : s.Coherent) (file : LogFile) :
    (s.load file).1.Coherent := by
  cases file with
  | missing => exact coherent
  | unreadable err => exact coherent
  | malformed err => exact coherent
  | records records =>
      cases indexed : indexEvents 0 records ∅ with
      | error err =>
          simp only [OperationsStore.load, indexed]
          exact coherent
      | ok found =>
          simp only [OperationsStore.load, indexed]
          refine ⟨?_, newestFirst_mergeSort records⟩
          have start : Indexes (fun id => (∅ : GoMap String ℕ).lookup id) [] := by
            intro id i
            constructor
            · exact fun found => by simp at found
            · rintro ⟨-, r, found, -⟩
              cases found
          exact indexEvents_ok start indexed

/-- Publishing the appended record keeps the indexes in agreement. -/
theorem Coherent.publish {s : OperationsStore} (coherent : s.Coherent) {r : OperationRecord}
    (fresh : r.clientEventID ≠ "" → s.eventIndex r.clientEventID = none) :
    ({ s with records := s.records ++ [r] }.publish r).Coherent := by
  have last : (s.records ++ [r]).length - 1 = s.records.length := by simp
  constructor
  · have indexed : Indexes (fun id => (s.clientEvents.getD ∅).lookup id) s.records := by
      intro id i
      rw [← coherent.events id i]
      unfold eventIndex
      cases s.clientEvents <;> simp
    have unseen : r.clientEventID ≠ "" → (s.clientEvents.getD ∅).lookup r.clientEventID = none := by
      intro some_
      have none_ := fresh some_
      unfold eventIndex at none_
      cases known : s.clientEvents with
      | none => simp
      | some events => simpa [known] using none_
    have appended := indexed.append unseen
    intro id i
    refine Iff.trans ?_ (appended id i)
    unfold eventIndex OperationsStore.publish
    simp only [last]
    by_cases blank : r.clientEventID = ""
    · rw [if_pos blank, if_pos blank]
      cases s.clientEvents <;> simp
    · rw [if_neg blank, if_neg blank, Option.bind_some]
  · have inserted := coherent.newest.insert r rfl
    unfold OperationsStore.publish
    simp only [last]
    exact inserted

/-- What appending a record does: an error leaves the store as it was. -/
theorem append_cases (s : OperationsStore) (input : OperationRecord) (now : Surroundings) :
    (∃ err, s.append input now = (s, .error err)) ∨
      ∃ id, let r := { input with
          id := id
          occurredAt := if input.occurredAt.isZero then now.occurred else input.occurredAt
          createdAt := now.created }
        s.append input now = ({ s with records := s.records ++ [r] }.publish r, .ok r) := by
  unfold append
  cases now.operationID with
  | error err => exact .inl ⟨err, rfl⟩
  | ok id =>
      cases now.saved with
      | error err =>
          refine .inl ⟨err, ?_⟩
          simp only [List.length_append, List.length_singleton, Nat.add_sub_cancel,
            List.take_left']
      | ok done => exact .inr ⟨id, rfl⟩

/-- What a request does: an error leaves the store as it was, a repeated request too, and
a new one is appended and published. -/
theorem create_cases (toLower : Char → Char) (s : OperationsStore) (input : OperationRecord)
    (now : Surroundings) :
    (∃ err, s.create toLower input now = (s, .error err)) ∨
      (∃ r answer, validateOperation toLower now.validated input = .ok r ∧
        s.repeated r = some answer ∧ s.create toLower input now = (s, answer)) ∨
      ∃ r id, validateOperation toLower now.validated input = .ok r ∧ s.repeated r = none ∧
        let appended := { r with
          id := id
          occurredAt := if r.occurredAt.isZero then now.occurred else r.occurredAt
          createdAt := now.created }
        s.create toLower input now =
          ({ s with records := s.records ++ [appended] }.publish appended, .ok appended) := by
  unfold create
  cases valid : validateOperation toLower now.validated input with
  | error err => exact .inl ⟨err, rfl⟩
  | ok r =>
      cases known : s.repeated r with
      | some answer => exact .inr (.inl ⟨r, answer, rfl, known, by simp only [known]⟩)
      | none =>
          simp only [known]
          rcases s.append_cases r now with ⟨err, refused⟩ | ⟨id, appended⟩
          · exact .inl ⟨err, refused⟩
          · exact .inr (.inr ⟨r, id, rfl, known, appended⟩)

/-- A request is repeated when its event ID is known. -/
theorem repeated_eq_none {s : OperationsStore} {r : OperationRecord} (none_ : s.repeated r = none)
    (event : r.clientEventID ≠ "") : s.eventIndex r.clientEventID = none := by
  unfold repeated at none_
  rwa [if_neg event, Option.map_eq_none_iff] at none_

theorem Coherent.create {s : OperationsStore} (coherent : s.Coherent) (toLower : Char → Char)
    (input : OperationRecord) (now : Surroundings) :
    (s.create toLower input now).1.Coherent := by
  rcases s.create_cases toLower input now with
    ⟨err, same⟩ | ⟨r, answer, -, -, same⟩ | ⟨r, id, -, unknown, same⟩
  · rwa [same]
  · rwa [same]
  · rw [same]
    have fresh : r.clientEventID ≠ "" → s.eventIndex r.clientEventID = none :=
      repeated_eq_none unknown
    exact coherent.publish fresh

/-- **Every call keeps the indexes in agreement with the records.** -/
theorem Coherent.step {s : OperationsStore} (coherent : s.Coherent) (toLower : Char → Char)
    (call : OperationsCall) : (s.step toLower call).1.Coherent := by
  cases call with
  | load file => exact coherent.load file
  | create input now => exact coherent.create toLower input now
  | list kind limit => exact coherent

theorem coherent_run (toLower : Char → Char) (calls : List OperationsCall) :
    (Machine.run (OperationsStore.step toLower) newOperationsStore calls).Coherent :=
  Machine.run_always (fun _ call coherent => coherent.step toLower call) calls _ coherent_new

/-! ## Repeated requests -/

/-- Whether a validated request has the content of an earlier record. A request that
names no time agrees with any. -/
def sameContent (existing r : OperationRecord) : Bool :=
  sameOperation existing
    (if r.occurredAt.isZero then { r with occurredAt := existing.occurredAt } else r)

/-- The answer to a request whose event ID is known, by content. -/
theorem repeated_eq (s : OperationsStore) (r : OperationRecord) : s.repeated r =
    if r.clientEventID = "" then none else (s.eventIndex r.clientEventID).map fun i =>
      if sameContent (s.records.getD i default) r then .ok (s.records.getD i default)
      else .error errOperationIdempotencyConflict := by
  unfold repeated
  congr 2
  funext i
  show (if (!sameContent (s.records.getD i default) r) = true then _ else _) = _
  by_cases content : sameContent (s.records.getD i default) r = true
  · rw [if_neg (by rw [content]; decide), if_pos content]
  · rw [if_pos (by simpa using content), if_neg content]

/-- **A valid request whose event ID is known changes nothing**: it is answered with the
record of that ID when it has the same content, and refused otherwise. -/
theorem Coherent.create_repeated {s : OperationsStore} (coherent : s.Coherent)
    {toLower : Char → Char} {input r existing : OperationRecord} {now : Surroundings}
    (valid : validateOperation toLower now.validated input = .ok r) (event : r.clientEventID ≠ "")
    (member : existing ∈ s.records) (same : existing.clientEventID = r.clientEventID) :
    s.create toLower input now = (s, if sameContent existing r then .ok existing
      else .error errOperationIdempotencyConflict) := by
  obtain ⟨i, inside, rfl⟩ := List.getElem_of_mem member
  have index : s.eventIndex r.clientEventID = some i :=
    (coherent.events _ _).mpr ⟨event, _, List.getElem?_eq_getElem inside, same⟩
  have answer : s.repeated r = some (if sameContent s.records[i] r then .ok s.records[i]
      else .error errOperationIdempotencyConflict) := by
    rw [repeated_eq, if_neg event, index, Option.map_some, List.getD_eq_getElem _ _ inside]
  unfold OperationsStore.create
  rw [valid]
  simp only [answer]

/-- The validated form of a request does not depend on the time it is validated at. -/
theorem eq_trimmed_of_valid {toLower : Char → Char} {now : Time} {input r : OperationRecord}
    (valid : validateOperation toLower now input = .ok r) :
    r = input.trimmed toLower ∧ r.problem now = none := by
  unfold validateOperation at valid
  cases checked : (input.trimmed toLower).problem now with
  | some message =>
      rw [checked] at valid
      cases valid
  | none =>
      rw [checked] at valid
      cases valid
      exact ⟨rfl, checked⟩

/-- A check that passes leaves the checks after it. -/
theorem check_eq_none_iff {bad : Prop} [Decidable bad] {message : String}
    {rest : Option String} : (if bad then some message else rest) = none ↔ ¬ bad ∧ rest = none := by
  split_ifs with h
  · simp [h]
  · simp [h]

theorem equal_self {x : F64} {limit : ℚ} (valid : invalidCoordinate x limit = false) :
    x.equal x = true := by
  unfold invalidCoordinate at valid
  simp only [Bool.or_eq_false_iff] at valid
  simp [F64.equal, valid.1.1.1]

/-- The coordinates of a valid request are equal to themselves. -/
theorem sameCoordinates_self {a r : OperationRecord} {now : Time} (valid : r.problem now = none)
    (lat : a.latitude = r.latitude) (lon : a.longitude = r.longitude) :
    sameCoordinates a r = true := by
  unfold OperationRecord.problem at valid
  simp only [check_eq_none_iff] at valid
  obtain ⟨-, -, -, -, -, -, -, -, -, -, -, together, numbers, -⟩ := valid
  rw [Bool.not_eq_true, Bool.or_eq_false_iff] at numbers
  unfold sameCoordinates
  rw [lat, lon, if_neg (by simp)]
  cases latitude : r.latitude with
  | none => rfl
  | some x =>
      cases longitude : r.longitude with
      | none => simp [latitude, longitude] at together
      | some y =>
          rw [latitude, longitude, Option.any_some, Option.any_some] at numbers
          simp only [equal_self numbers.1, equal_self numbers.2, Bool.and_self]

theorem sameOperation_iff {a b : OperationRecord} : sameOperation a b = true ↔
    a.clientEventID = b.clientEventID ∧ a.type = b.type ∧ a.actor = b.actor ∧
      a.assetCode = b.assetCode ∧ a.status = b.status ∧ a.recipient = b.recipient ∧
      a.reference = b.reference ∧ a.technician = b.technician ∧ a.workType = b.workType ∧
      a.notes = b.notes ∧ a.occurredAt = b.occurredAt ∧ sameCoordinates a b = true := by
  unfold sameOperation
  generalize sameCoordinates a b = coordinates
  split_ifs with other
  · constructor
    · exact fun h => nomatch h
    · rintro ⟨h1, h2, h3, h4, h5, h6, h7, h8, h9, h10, h11, -⟩
      simp only [h1, h2, h3, h4, h5, h6, h7, h8, h9, h10, h11, ne_eq, not_true_eq_false,
        or_self] at other
  · simp only [not_or, ne_eq, not_not] at other
    obtain ⟨h1, h2, h3, h4, h5, h6, h7, h8, h9, h10, h11⟩ := other
    exact ⟨fun h => ⟨h1, h2, h3, h4, h5, h6, h7, h8, h9, h10, h11, h⟩,
      fun h => h.2.2.2.2.2.2.2.2.2.2.2⟩

/-- Records of the same content have the same event ID. -/
theorem sameContent_event {a r : OperationRecord} (content : sameContent a r = true) :
    a.clientEventID = r.clientEventID := by
  unfold sameContent at content
  rw [(sameOperation_iff.mp content).1]
  split_ifs <;> rfl

/-- A record that was made from a valid request has its content. -/
theorem sameContent_appended {a r : OperationRecord} {checked : Time}
    (valid : r.problem checked = none) {id : String} {occurred created : Time}
    (made : a = { r with
      id := id
      occurredAt := if r.occurredAt.isZero then occurred else r.occurredAt
      createdAt := created }) : sameContent a r = true := by
  have coordinates : sameCoordinates a r = true :=
    sameCoordinates_self valid (by rw [made]) (by rw [made])
  unfold sameContent
  by_cases untimed : r.occurredAt.isZero = true
  · rw [if_pos untimed]
    refine sameOperation_iff.mpr ⟨?_, ?_, ?_, ?_, ?_, ?_, ?_, ?_, ?_, ?_, rfl, coordinates⟩ <;>
      rw [made]
  · rw [if_neg untimed]
    refine sameOperation_iff.mpr ⟨?_, ?_, ?_, ?_, ?_, ?_, ?_, ?_, ?_, ?_, ?_, coordinates⟩ <;>
      rw [made]
    exact if_neg untimed

/-- What a request returned has the content of that request. -/
theorem sameContent_of_create {s : OperationsStore} {toLower : Char → Char}
    {input answer : OperationRecord} {now : Surroundings}
    (answered : (s.create toLower input now).2 = .ok answer) :
    sameContent answer (input.trimmed toLower) = true := by
  rcases s.create_cases toLower input now with
    ⟨err, result⟩ | ⟨r, found, valid, known, result⟩ | ⟨r, id, valid, -, result⟩
  · rw [result] at answered
    cases answered
  · rw [result] at answered
    obtain ⟨trimmed, -⟩ := eq_trimmed_of_valid valid
    rw [← trimmed]
    rw [repeated_eq] at known
    split at known
    · cases known
    · obtain ⟨i, -, same⟩ := Option.map_eq_some_iff.mp known
      rw [← same] at answered
      split at answered
      · rename_i content
        cases answered
        exact content
      · cases answered
  · rw [result] at answered
    obtain ⟨trimmed, checked⟩ := eq_trimmed_of_valid valid
    rw [← trimmed]
    cases answered
    exact sameContent_appended checked rfl

/-- **A call that returns an error leaves the store as it was.** -/
theorem step_of_error (s : OperationsStore) (toLower : Char → Char) (call : OperationsCall)
    (failed : (s.step toLower call).2.isError) : (s.step toLower call).1 = s := by
  cases call with
  | list kind limit => rfl
  | load file =>
      obtain ⟨err, failed⟩ := failed
      cases file with
      | missing => rfl
      | unreadable => rfl
      | malformed => rfl
      | records records =>
          cases indexed : indexEvents 0 records ∅ with
          | error err => simp only [OperationsStore.step, OperationsStore.load, indexed]
          | ok found =>
              simp only [OperationsStore.load, indexed] at failed
              cases failed
  | create input now =>
      obtain ⟨err, failed⟩ := failed
      rcases s.create_cases toLower input now with
        ⟨err, result⟩ | ⟨r, answer, -, -, result⟩ | ⟨r, id, -, -, result⟩
      · exact congrArg Prod.fst result
      · exact congrArg Prod.fst result
      · rw [result] at failed
        cases failed

/-- What holds of a store after every run. -/
structure Correct (toLower : Char → Char) (s : OperationsStore) : Prop where
  /-- At most one record has a given event ID. -/
  once : ∀ (i j : ℕ) (a b : OperationRecord), s.records[i]? = some a → s.records[j]? = some b →
    a.clientEventID ≠ "" → a.clientEventID = b.clientEventID → i = j
  newest : NewestFirst s.records s.newest
  /-- A valid request whose event ID is known changes nothing, and is answered with the
  first record when its content is the same. -/
  repeated : ∀ input now r, validateOperation toLower now.validated input = .ok r →
    r.clientEventID ≠ "" → ∀ existing ∈ s.records, existing.clientEventID = r.clientEventID →
    s.create toLower input now = (s, if sameContent existing r then .ok existing
      else .error errOperationIdempotencyConflict)
  /-- A request that was answered with a record is answered with it again, as long as
  it is valid. -/
  retry : ∀ before input now r, (create before toLower input now).2 = .ok r →
    r.clientEventID ≠ "" → r ∈ s.records → ∀ later valid,
    validateOperation toLower later.validated input = .ok valid →
    s.create toLower input later = (s, .ok r)
  /-- A call that returns an error leaves the store as it was. -/
  failed : ∀ call, (s.step toLower call).2.isError → (s.step toLower call).1 = s

theorem Coherent.correct {s : OperationsStore} (coherent : s.Coherent) (toLower : Char → Char) :
    s.Correct toLower where
  once i j a b first second event same := by
    have left := (coherent.events a.clientEventID i).mpr ⟨event, a, first, rfl⟩
    have right := (coherent.events a.clientEventID j).mpr ⟨event, b, second, same.symm⟩
    exact Option.some.inj (left.symm.trans right)
  newest := coherent.newest
  repeated input now r valid event existing member same :=
    coherent.create_repeated valid event member same
  retry before input now r answer event member later valid checked := by
    have content := sameContent_of_create answer
    obtain ⟨trimmed, -⟩ := eq_trimmed_of_valid checked
    rw [← trimmed] at content
    have same := sameContent_event content
    rw [coherent.create_repeated checked (same ▸ event) member same, if_pos content]
  failed call := s.step_of_error toLower call

end OperationsStore

/-- **The log is indexed and idempotent after every run.** At most one record has a given
event ID, the newest index orders all positions, a repeated request that is valid when it
is repeated gets the first record and one with other content is refused, and a call that
returns an error changes nothing. -/
theorem operationsStore_correct (toLower : Char → Char) (calls : List OperationsCall) :
    (Machine.run (OperationsStore.step toLower) newOperationsStore calls).Correct toLower :=
  (OperationsStore.coherent_run toLower calls).correct toLower

/-! ## A clock that steps back -/

/-- A check of a hydrant, four minutes after the beginning of the year 2026. -/
def hydrantCheck : OperationRecord :=
  { (default : OperationRecord) with
    clientEventID := "e1", type := "check", assetCode := "HYDRANT-7", status := "available"
    occurredAt := Time.year2000 + 9497 * 86400 * 10 ^ 9 + 4 * Time.minute }

/-- A request that is made when the clock shows some minutes of the year 2026. -/
def atMinute (minutes : ℤ) : OperationsStore.Surroundings :=
  let now := Time.year2000 + 9497 * 86400 * 10 ^ 9 + minutes * Time.minute
  { validated := now, operationID := .ok "op_1", occurred := now, created := now, saved := .ok () }

/-- A request is accepted, the clock steps back ten minutes, and the same request is
refused: the time it names is too far ahead now. -/
theorem retry_after_clock_step :
    let accepted := newOperationsStore.create Char.toLower hydrantCheck (atMinute 0)
    accepted.2.map OperationRecord.clientEventID = .ok "e1" ∧
      (accepted.1.create Char.toLower hydrantCheck (atMinute (-10))).2 =
        .error "occurred_at is outside the accepted time range" := by
  exact ⟨by decide +kernel, by decide +kernel⟩

end OsmMini.Cmd

import OsmMini.Foundations.Literals
import OsmMini.Cmd.Basic
import OsmMini.Core.Types

/-!
# Fire stations

Stations that are entered by hand, and the vehicles of stations on the map, are kept in a
map by their IDs, which is written to a file after every change and read again when the
server starts. A new station gets the next number of a counter. The counter is not in the
file: it starts at zero with every process, whatever the file holds, and it does not notice
a station that is stored under a number of its own.

A create therefore adds a station exactly when no station of that number is there, which
can be read off the requests alone (`createsAdd_iff`).
-/

set_option autoImplicit false

namespace OsmMini.Cmd

open OsmMini.Core

/-- One vehicle of a station, by its radio call sign. -/
structure FireVehicle where
  callsign : String
  type : String
  metadata : List (String × String)
  deriving DecidableEq, Repr

section Numbers

variable (K : Type)

/-- The stored part of a station. -/
structure FireStationRecord where
  id : String
  name : String
  lat : K
  lon : K
  vehicles : List FireVehicle
  deriving DecidableEq, Repr

/-- The stations by their IDs, and the last number given to a new one. -/
structure FireStationStore where
  v : GoMap String (FireStationRecord K)
  seq : ℕ

structure FireStationCreateRequest where
  name : String
  lat : K
  lon : K
  vehicles : List FireVehicle
  deriving Repr

/-- What a request is answered with. -/
inductive FireStationAnswer where
  | station (id name : String) (lat lon : K) (source : String) (vehicles : List FireVehicle)
  | ok
  | error (status : ℕ) (message : String)
  deriving DecidableEq, Repr

end Numbers

/-- The ID of a station entered by hand. -/
def manualID (n : ℕ) : String := "manual:" ++ Nat.repr n

theorem manualID_injective : Function.Injective manualID := fun a b same => by
  rw [manualID, manualID, String.append_right_inj] at same
  exact Nat.repr_injective same

/-- A text without a prefix, where it has it. -/
def trimPrefix (s pre : String) : String :=
  if pre.toList.isPrefixOf s.toList then String.ofList (s.toList.drop pre.toList.length) else s

variable {K : Type} [Field K] [LinearOrder K]

namespace FireStationStore

def new : FireStationStore K := { v := ∅, seq := 0 }

/-- Read the file, if there is one. -/
def load (s : FireStationStore K) (file : Option (GoMap String (FireStationRecord K))) :
    FireStationStore K :=
  match file with
  | none => s
  | some v => { s with v := v }

/-- The stored record of a station; one that is missing is empty. -/
def get (s : FireStationStore K) (id : String) : FireStationRecord K :=
  (s.v.lookup id).getD { id := "", name := "", lat := 0, lon := 0, vehicles := [] }

def put (s : FireStationStore K) (record : FireStationRecord K) : FireStationStore K :=
  { s with v := s.v.insert record.id record }

def delete (s : FireStationStore K) (id : String) : FireStationStore K :=
  { s with v := s.v.erase id }

def nextManualID (s : FireStationStore K) : FireStationStore K × String :=
  ({ s with seq := s.seq + 1 }, manualID (s.seq + 1))

end FireStationStore

/-! ## Requests -/

/-- Whether a create gets as far as making a station. -/
def FireStationCreateRequest.Accepted (req : FireStationCreateRequest K) : Prop :=
  trimSpace req.name ≠ "" ∧ ¬ (req.lat < -90 ∨ 90 < req.lat ∨ req.lon < -180 ∨ 180 < req.lon)

instance FireStationCreateRequest.decidableAccepted (req : FireStationCreateRequest K) :
    Decidable req.Accepted := instDecidableAnd

/-- Make a station. What was changed stays when the file cannot be written. -/
def handleFireStationsCreate (s : FireStationStore K) (req : FireStationCreateRequest K)
    (saved : Except String Unit) : FireStationStore K × FireStationAnswer K :=
  let name := trimSpace req.name
  if name = "" then (s, .error 400 "name is required")
  else if req.lat < -90 ∨ 90 < req.lat ∨ req.lon < -180 ∨ 180 < req.lon then
    (s, .error 400 "lat/lon out of range")
  else
    let (s, id) := s.nextManualID
    let record : FireStationRecord K :=
      { id := id, name := name, lat := req.lat, lon := req.lon, vehicles := req.vehicles }
    match saved with
    | .error err => (s.put record, .error 500 ("save failed: " ++ err))
    | .ok _ => (s.put record, .station id name req.lat req.lon "manual" req.vehicles)

/-- The station a path names. -/
def stationID (path : String) : String := trimSpace (trimPrefix path "/api/v1/fire-stations/")

/-- The record of a station with what a request gives of it. -/
def overlay (record : FireStationRecord K) (id : String) (req : FireStationCreateRequest K) :
    FireStationRecord K :=
  let record := { record with id := id, vehicles := req.vehicles }
  let name := trimSpace req.name
  let record := if name ≠ "" then { record with name := name } else record
  if "manual:".toList.isPrefixOf id.toList ∧ (req.lat ≠ 0 ∨ req.lon ≠ 0) then
    { record with lat := req.lat, lon := req.lon }
  else record

def handleFireStationPut (s : FireStationStore K) (path : String)
    (req : FireStationCreateRequest K) (saved : Except String Unit) :
    FireStationStore K × FireStationAnswer K :=
  let id := stationID path
  if id = "" then (s, .error 400 "missing station id")
  else
    let s := s.put (overlay (s.get id) id req)
    match saved with
    | .error err => (s, .error 500 ("save failed: " ++ err))
    | .ok _ => (s, .ok)

def handleFireStationDelete (s : FireStationStore K) (path : String)
    (saved : Except String Unit) : FireStationStore K × FireStationAnswer K :=
  let id := stationID path
  if id = "" then (s, .error 400 "missing station id")
  else
    match s.v.lookup id with
    | none => (s, .ok)
    | some _ =>
      match saved with
      | .error err => (s.delete id, .error 500 ("delete failed: " ++ err))
      | .ok _ => (s.delete id, .ok)

/-! ## Runs -/

/-- What happens to a server whose file can be written. -/
inductive FireStationEvent (K : Type) where
  | restart
  | create (req : FireStationCreateRequest K)
  | put (path : String) (req : FireStationCreateRequest K)
  | delete (path : String)

/-- A server with its file. -/
structure FireStationServer (K : Type) where
  store : FireStationStore K
  file : Option (GoMap String (FireStationRecord K))

namespace FireStationServer

/-- Write the stations to the file. -/
def save (file : Option (GoMap String (FireStationRecord K))) (store : FireStationStore K)
    (written : Bool) : FireStationServer K :=
  { store := store, file := if written then some store.v else file }

def step (s : FireStationServer K) : FireStationEvent K → FireStationServer K
  | .restart => { s with store := FireStationStore.new.load s.file }
  | .create req => save s.file (handleFireStationsCreate s.store req (.ok ())).1 req.Accepted
  | .put path req =>
    save s.file (handleFireStationPut s.store path req (.ok ())).1 (stationID path ≠ "")
  | .delete path =>
    save s.file (handleFireStationDelete s.store path (.ok ())).1
      (stationID path ≠ "" ∧ (s.store.v.lookup (stationID path)).isSome)

/-- A first start without a file. -/
def start : FireStationServer K := { store := FireStationStore.new.load none, file := none }

def run (history : List (FireStationEvent K)) : FireStationServer K :=
  history.foldl step start

theorem run_concat (history : List (FireStationEvent K)) (event : FireStationEvent K) :
    run (history ++ [event]) = (run history).step event := by
  rw [run, List.foldl_append, List.foldl_cons, List.foldl_nil, run]

end FireStationServer

/-! ## What the requests alone say -/

/-- How many stations were made since the last restart. -/
def handedOut (history : List (FireStationEvent K)) : ℕ :=
  history.foldl (fun n event =>
    match event with
    | .restart => 0
    | .create req => if req.Accepted then n + 1 else n
    | _ => n) 0

/-- The station of a number was made or put, and not deleted since. -/
inductive Occupied (n : ℕ) : List (FireStationEvent K) → Prop where
  | created {history : List (FireStationEvent K)} {req : FireStationCreateRequest K}
      (accepted : req.Accepted) (number : handedOut history + 1 = n) :
      Occupied n (history ++ [.create req])
  | put {history : List (FireStationEvent K)} {path : String} {req : FireStationCreateRequest K}
      (named : stationID path = manualID n) : Occupied n (history ++ [.put path req])
  | kept {history : List (FireStationEvent K)} {event : FireStationEvent K}
      (before : Occupied n history)
      (spared : ∀ path, event = .delete path → stationID path ≠ manualID n) :
      Occupied n (history ++ [event])

/-- Every create of a run gets a fresh ID, adds one station and leaves the others alone. -/
def CreatesAdd (history : List (FireStationEvent K)) : Prop :=
  ∀ before req after, history = before ++ .create req :: after → req.Accepted →
    let s := FireStationServer.run before
    let s' := FireStationServer.run (before ++ [.create req])
    s.store.nextManualID.2 ∉ s.store.v ∧ s'.store.v.entries.length = s.store.v.entries.length + 1 ∧
      ∀ id record, s.store.v.lookup id = some record → s'.store.v.lookup id = some record

/-! ## The store after a run -/

namespace FireStationServer

variable {s : FireStationServer K}

/-- What is stored is what the file holds; without a file nothing is stored. -/
def Persisted (s : FireStationServer K) : Prop :=
  s.file = some s.store.v ∨ s.file = none ∧ s.store.v = ∅

theorem step_restart (persisted : s.Persisted) :
    (s.step .restart).store = { v := s.store.v, seq := 0 } := by
  rcases persisted with known | ⟨known, empty⟩
  · simp only [step, FireStationStore.load, FireStationStore.new, known]
  · simp only [step, FireStationStore.load, FireStationStore.new, known, empty]

theorem step_create {req : FireStationCreateRequest K} (accepted : req.Accepted) :
    ∃ record, (s.step (.create req)).store =
      { v := s.store.v.insert (manualID (s.store.seq + 1)) record, seq := s.store.seq + 1 } := by
  obtain ⟨named, placed⟩ := accepted
  simp only [step, save, handleFireStationsCreate, FireStationStore.nextManualID,
    FireStationStore.put, if_neg named, if_neg placed]
  exact ⟨_, rfl⟩

theorem step_create_refused {req : FireStationCreateRequest K} (refused : ¬ req.Accepted) :
    s.step (.create req) = s := by
  have unchanged : (handleFireStationsCreate s.store req (.ok ())).1 = s.store := by
    rw [handleFireStationsCreate]
    dsimp only
    split_ifs with unnamed displaced
    · rfl
    · rfl
    · exact absurd ⟨unnamed, displaced⟩ refused
  rw [step, unchanged, save, decide_eq_false refused]
  rfl

theorem overlay_id (record : FireStationRecord K) (id : String) (req : FireStationCreateRequest K) :
    (overlay record id req).id = id := by
  unfold overlay
  dsimp only
  split_ifs <;> rfl

theorem step_put {path : String} (req : FireStationCreateRequest K) (named : stationID path ≠ "") :
    ∃ record, (s.step (.put path req)).store =
      { s.store with v := s.store.v.insert (stationID path) record } := by
  simp only [step, save, handleFireStationPut, if_neg named, FireStationStore.put, overlay_id]
  exact ⟨_, rfl⟩

theorem step_delete {path : String} (named : stationID path ≠ "") :
    (s.step (.delete path)).store = { s.store with v := s.store.v.erase (stationID path) } := by
  simp only [step, save, handleFireStationDelete, if_neg named]
  cases found : s.store.v.lookup (stationID path) with
  | none =>
      have absent : stationID path ∉ s.store.v := AList.lookup_eq_none.mp found
      have same : s.store.v.erase (stationID path) = s.store.v :=
        AList.ext (List.kerase_of_notMem_keys absent)
      rw [same]
  | some record => rfl

/-- A path that names no station is answered with an error. -/
theorem step_put_unnamed {path : String} {req : FireStationCreateRequest K}
    (unnamed : stationID path = "") : s.step (.put path req) = s := by
  simp [step, save, handleFireStationPut, unnamed]

theorem step_delete_unnamed {path : String} (unnamed : stationID path = "") :
    s.step (.delete path) = s := by
  simp [step, save, handleFireStationDelete, unnamed]

theorem persisted_step (persisted : s.Persisted) (event : FireStationEvent K) :
    (s.step event).Persisted := by
  cases event with
  | restart =>
      have store := step_restart persisted
      rcases persisted with known | ⟨known, empty⟩
      · exact Or.inl (by rw [store]; exact known)
      · exact Or.inr ⟨known, by rw [store]; exact empty⟩
  | create req =>
      by_cases accepted : req.Accepted
      · exact Or.inl (by simp only [step, save, decide_eq_true accepted, if_true])
      · rwa [step_create_refused accepted]
  | put path req =>
      by_cases named : stationID path = ""
      · rwa [step_put_unnamed named]
      · exact Or.inl (by simp only [step, save, decide_eq_true named, if_true])
  | delete path =>
      by_cases named : stationID path = ""
      · rwa [step_delete_unnamed named]
      · cases found : s.store.v.lookup (stationID path) with
        | some record => exact Or.inl (by simp [step, save, named, found])
        | none =>
            have same : (handleFireStationDelete s.store path (.ok ())).1 = s.store := by
              simp only [handleFireStationDelete, if_neg named, found]
            have unchanged : s.step (.delete path) = s := by
              simp [step, save, same, found]
            rwa [unchanged]

theorem persisted_run (history : List (FireStationEvent K)) : (run history).Persisted :=
  List.foldlRecOn history step (motive := Persisted) (Or.inr ⟨rfl, rfl⟩)
    fun _ persisted event _ => persisted_step persisted event

theorem handedOut_concat (history : List (FireStationEvent K)) (event : FireStationEvent K) :
    handedOut (history ++ [event]) =
      match event with
      | .restart => 0
      | .create req => if req.Accepted then handedOut history + 1 else handedOut history
      | _ => handedOut history := by
  rw [handedOut, List.foldl_append]
  rfl

/-- The counter is the number of stations made since the last restart. -/
theorem seq_run (history : List (FireStationEvent K)) :
    (run history).store.seq = handedOut history := by
  induction history using List.reverseRecOn with
  | nil => rfl
  | append_singleton history event ih =>
      rw [run_concat, handedOut_concat]
      cases event with
      | restart => rw [step_restart (persisted_run history)]
      | create req =>
          by_cases accepted : req.Accepted
          · obtain ⟨record, store⟩ := step_create (s := run history) accepted
            simp only [store, if_pos accepted, ih]
          · simp only [step_create_refused accepted, if_neg accepted, ih]
      | put path req =>
          by_cases named : stationID path = ""
          · rw [step_put_unnamed named, ih]
          · obtain ⟨record, store⟩ := step_put (s := run history) req named
            rw [store, ih]
      | delete path =>
          by_cases named : stationID path = ""
          · rw [step_delete_unnamed named, ih]
          · rw [step_delete named, ih]

end FireStationServer

/-- What one more event does to a number. -/
theorem occupied_concat_iff {n : ℕ} {history : List (FireStationEvent K)}
    {event : FireStationEvent K} : Occupied n (history ++ [event]) ↔
      match event with
      | .restart => Occupied n history
      | .create req => req.Accepted ∧ handedOut history + 1 = n ∨ Occupied n history
      | .put path _ => stationID path = manualID n ∨ Occupied n history
      | .delete path => Occupied n history ∧ stationID path ≠ manualID n := by
  constructor
  · intro occupied
    generalize whole : history ++ [event] = events at occupied
    cases occupied with
    | created accepted number =>
        obtain ⟨rfl, ⟨⟩⟩ := List.append_inj' whole rfl
        exact Or.inl ⟨accepted, number⟩
    | put named =>
        obtain ⟨rfl, ⟨⟩⟩ := List.append_inj' whole rfl
        exact Or.inl named
    | kept before spared =>
        obtain ⟨rfl, ⟨⟩⟩ := List.append_inj' whole rfl
        cases event with
        | restart => exact before
        | create req => exact Or.inr before
        | put path req => exact Or.inr before
        | delete path => exact ⟨before, spared path rfl⟩
  · intro known
    cases event with
    | restart => exact .kept known fun path other => nomatch other
    | create req =>
        rcases known with ⟨accepted, number⟩ | before
        · exact .created accepted number
        · exact .kept before fun path other => nomatch other
    | put path req =>
        rcases known with named | before
        · exact .put named
        · exact .kept before fun path other => nomatch other
    | delete path =>
        refine .kept known.1 fun path' same => ?_
        cases same
        exact known.2

theorem manualID_ne_empty (n : ℕ) : manualID n ≠ "" := fun empty => by
  have texts := congrArg String.toList empty
  rw [manualID, String.toList_append] at texts
  cases texts

/-- **The stations of numbers that are stored are those the requests leave there.** -/
theorem mem_run_iff {n : ℕ} {history : List (FireStationEvent K)} :
    manualID n ∈ (FireStationServer.run history).store.v ↔ Occupied n history := by
  induction history using List.reverseRecOn with
  | nil =>
      refine iff_of_false (AList.notMem_empty (manualID n)) fun occupied => ?_
      generalize whole : ([] : List (FireStationEvent K)) = events at occupied
      cases occupied <;> simp at whole
  | append_singleton history event ih =>
      rw [FireStationServer.run_concat, occupied_concat_iff]
      cases event with
      | restart =>
          rw [FireStationServer.step_restart (FireStationServer.persisted_run history)]
          exact ih
      | create req =>
          by_cases accepted : req.Accepted
          · obtain ⟨record, store⟩ :=
              FireStationServer.step_create (s := FireStationServer.run history) accepted
            rw [store, AList.mem_insert, manualID_injective.eq_iff, FireStationServer.seq_run, ih]
            simp only [accepted, true_and, eq_comm]
          · rw [FireStationServer.step_create_refused accepted]
            simp only [accepted, false_and, false_or, ih]
      | put path req =>
          by_cases named : stationID path = ""
          · rw [FireStationServer.step_put_unnamed named, ih]
            simp only [named, (manualID_ne_empty n).symm, false_or]
          · obtain ⟨record, store⟩ := FireStationServer.step_put
              (s := FireStationServer.run history) req named
            rw [store, AList.mem_insert, ih, eq_comm]
      | delete path =>
          by_cases named : stationID path = ""
          · rw [FireStationServer.step_delete_unnamed named, ih]
            simp only [named, ne_eq, (manualID_ne_empty n).symm, not_false_eq_true, and_true]
          · rw [FireStationServer.step_delete named, AList.mem_erase, ih, and_comm]
            simp only [ne_eq, eq_comm]

/-! ## Creates -/

/-- **A create adds a station exactly when its number is free**: the number is one more than
the stations made since the last restart, and no station of that number was made before that
restart or put by its ID, and not deleted since. -/
theorem createsAdd_iff (history : List (FireStationEvent K)) : CreatesAdd history ↔
    ∀ before req after, history = before ++ .create req :: after → req.Accepted →
      ¬ Occupied (handedOut before + 1) before := by
  have handed : ∀ before : List (FireStationEvent K),
      (FireStationServer.run before).store.nextManualID.2 = manualID (handedOut before + 1) :=
    fun before => by rw [FireStationStore.nextManualID, FireStationServer.seq_run]
  constructor
  · intro adds before req after split accepted occupied
    have fresh := (adds before req after split accepted).1
    rw [handed] at fresh
    exact fresh (mem_run_iff.mpr occupied)
  · intro free before req after split accepted
    have fresh : manualID (handedOut before + 1) ∉ (FireStationServer.run before).store.v :=
      fun stored => free before req after split accepted (mem_run_iff.mp stored)
    obtain ⟨record, store⟩ :=
      FireStationServer.step_create (s := FireStationServer.run before) accepted
    rw [FireStationServer.seq_run] at store
    dsimp only
    rw [handed, FireStationServer.run_concat, store]
    refine ⟨fresh, ?_, fun id known found => ?_⟩
    · rw [AList.entries_insert_of_notMem fresh, List.length_cons]
    · have other : id ≠ manualID (handedOut before + 1) := fun same => by
        rw [same, AList.lookup_eq_none.mpr fresh] at found
        cases found
      rw [AList.lookup_insert_ne other, found]

/-- A station of the given name at the origin. -/
def stationNamed (name : String) : FireStationCreateRequest ℚ := ⟨name, 0, 0, []⟩

/-- A station, a restart, and another station. -/
def restartedHistory : List (FireStationEvent ℚ) :=
  [.create (stationNamed "Nord"), .restart, .create (stationNamed "Süd")]

/-- After a restart the next station takes the place of the first one. -/
theorem not_createsAdd_restarted : ¬ CreatesAdd restartedHistory := by
  intro adds
  have fresh := (adds [.create (stationNamed "Nord"), .restart] (stationNamed "Süd") [] rfl
    (by decide +kernel)).1
  exact fresh (by decide +kernel)

end OsmMini.Cmd

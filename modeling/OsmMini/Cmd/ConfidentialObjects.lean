import OsmMini.Cmd.Basic
import OsmMini.Core.Types

/-!
# Confidential objects

Objects that never leave the server are kept in a map, which is written to a file
after every change. Each operation changes the map first and writes the file then, and
what it changed stays when the file cannot be written. A file that holds `null` leaves
the store without a map, and creating an object stops the program.

A run keeps the visible objects at what was last loaded or written exactly when no
write that has something to write fails and nothing is created without a map
(`confidentialObjects_atomic_iff`).
-/

set_option autoImplicit false

namespace OsmMini.Cmd

open OsmMini.Core

/-- A point, line or polygon that is not shared. -/
structure ConfidentialObject where
  id : String
  geometryType : String
  coordinates : List UInt8
  tags : GoMap String String
  createdAt : Time
  updatedAt : Time

/-- The objects by their IDs. A nil map is `none`. -/
structure ConfidentialObjectStore where
  v : Option (GoMap String ConfidentialObject)

def newConfidentialObjectStore : ConfidentialObjectStore := { v := some ∅ }

/-- What reading the file gives: no file, an error, a text that does not decode, or a
map, which is nil when the file holds `null`. -/
inductive ObjectFile where
  | missing
  | unreadable (err : String)
  | malformed (err : String)
  | objects (v : Option (GoMap String ConfidentialObject))

/-- What a change meets: the ID made for a new object, the time, and whether the file
can be written. -/
structure Change where
  newID : Except String String
  now : Time
  saved : Except String Unit

/-- What a request gives an object. -/
structure ObjectContent where
  geometryType : String
  coordinates : List UInt8
  tags : GoMap String String

/-- A call of the store. -/
inductive ConfidentialCall where
  | load (file : ObjectFile)
  | list
  | get (id : String)
  | create (content : ObjectContent) (change : Change)
  | update (id : String) (content : ObjectContent) (change : Change)
  | delete (id : String) (change : Change)

/-- What a call returns. -/
inductive ConfidentialAnswer where
  | loaded (result : Except String Unit)
  | listed (objects : List ConfidentialObject)
  | got (object : Option ConfidentialObject)
  | changed (result : Except String Unit)

namespace ConfidentialObjectStore

variable (s : ConfidentialObjectStore)

/-- The object that `get` finds. A nil map is read as an empty one. -/
def get (id : String) : Option ConfidentialObject := s.v.bind fun v => v.lookup id

def list : List ConfidentialObject :=
  match s.v with
  | none => []
  | some v => v.entries.map Sigma.snd

def load (file : ObjectFile) : ConfidentialObjectStore × Except String Unit :=
  match file with
  | .missing => (s, .ok ())
  | .unreadable err => (s, .error err)
  | .malformed err => (s, .error err)
  | .objects v => ({ s with v := v }, .ok ())

/-- The object that is made for an ID. -/
def created (id : String) (content : ObjectContent) (now : Time) : ConfidentialObject where
  id := id
  geometryType := content.geometryType
  coordinates := content.coordinates
  tags := content.tags
  createdAt := now
  updatedAt := now

/-- Make an object. Storing into a nil map stops the program. -/
def create (content : ObjectContent) (change : Change) :
    Option (ConfidentialObjectStore × Except String Unit) :=
  match change.newID with
  | .error err => some (s, .error err)
  | .ok id =>
    match s.v with
    | none => none
    | some v =>
      some ({ s with v := some (v.insert id (created id content change.now)) }, change.saved)

/-- The object after an update. -/
def updated (existing : ConfidentialObject) (content : ObjectContent) (now : Time) :
    ConfidentialObject :=
  { existing with
    geometryType := content.geometryType
    coordinates := content.coordinates
    tags := content.tags
    updatedAt := now }

def update (id : String) (content : ObjectContent) (change : Change) :
    ConfidentialObjectStore × Except String Unit :=
  match s.get id with
  | none => (s, .error "not found")
  | some existing =>
    ({ s with v := s.v.map fun v => v.insert id (updated existing content change.now) },
      change.saved)

def delete (id : String) (change : Change) : ConfidentialObjectStore × Except String Unit :=
  match s.get id with
  | none => (s, .error "not found")
  | some _ => ({ s with v := s.v.map fun v => v.erase id }, change.saved)

/-- What a call does, or `none` when it stops the program. -/
def step : ConfidentialCall → Option (ConfidentialObjectStore × ConfidentialAnswer)
  | .load file => some ((s.load file).1, .loaded (s.load file).2)
  | .list => some (s, .listed s.list)
  | .get id => some (s, .got (s.get id))
  | .create content change => (s.create content change).map fun r => (r.1, .changed r.2)
  | .update id content change =>
    some ((s.update id content change).1, .changed (s.update id content change).2)
  | .delete id change => some ((s.delete id change).1, .changed (s.delete id change).2)

end ConfidentialObjectStore

/-! ## Runs -/

/-- Whether a call loaded or wrote the objects successfully. -/
def ConfidentialCall.settles : ConfidentialCall → ConfidentialAnswer → Bool
  | .load (.objects _), _ => true
  | _, .changed (.ok ()) => true
  | _, _ => false

/-- A call that fails leaves the visible objects, and after every call they are the ones
last loaded or written. -/
def Atomic : ConfidentialObjectStore → (String → Option ConfidentialObject) →
    List ConfidentialCall → Prop
  | _, _, [] => True
  | s, settled, call :: calls =>
    match s.step call with
    | none => False
    | some (next, answer) =>
      let settled' := if call.settles answer then next.get else settled
      (∀ err, answer = .changed (.error err) → next.get = s.get) ∧ next.get = settled' ∧
        Atomic next settled' calls

/-- The condition of a call: an object is made only where there is a map, and a write
fails only when there is nothing to change. -/
def Meets (s : ConfidentialObjectStore) : ConfidentialCall → Prop
  | .create content change => ∀ id, change.newID = .ok id → s.v ≠ none ∧
      (change.saved = .ok () ∨
        s.get id = some (ConfidentialObjectStore.created id content change.now))
  | .update id content change => ∀ existing, s.get id = some existing →
      (change.saved = .ok () ∨
        existing = ConfidentialObjectStore.updated existing content change.now)
  | .delete id change => s.get id ≠ none → change.saved = .ok ()
  | _ => True

/-- Every call of a run meets its condition. -/
def MeetsAll : ConfidentialObjectStore → List ConfidentialCall → Prop
  | _, [] => True
  | s, call :: calls => Meets s call ∧
      ∀ next answer, s.step call = some (next, answer) → MeetsAll next calls

namespace ConfidentialObjectStore

/-! ## One call -/

/-- What one call must do, when the visible objects are the ones last loaded or written. -/
def Keeps (s : ConfidentialObjectStore) (call : ConfidentialCall) : Prop :=
  ∃ next answer, s.step call = some (next, answer) ∧
    (∀ err, answer = .changed (.error err) → next.get = s.get) ∧
    (call.settles answer = false → next.get = s.get)

/-- Storing an object leaves what is visible only when it was visible already. -/
theorem get_insert_iff {v : GoMap String ConfidentialObject} {id : String}
    {obj : ConfidentialObject} :
    get { v := some (v.insert id obj) } = get { v := some v } ↔ v.lookup id = some obj := by
  constructor
  · intro same
    have here := congrFun same id
    simp only [get, Option.bind_some, AList.lookup_insert] at here
    exact here.symm
  · intro known
    funext x
    simp only [get, Option.bind_some]
    by_cases here : x = id
    · rw [here, AList.lookup_insert, known]
    · rw [AList.lookup_insert_ne here]

theorem get_erase_ne {v : GoMap String ConfidentialObject} {id : String}
    {obj : ConfidentialObject} (known : v.lookup id = some obj) :
    get { v := some (v.erase id) } ≠ get { v := some v } := by
  intro same
  have here := congrFun same id
  simp only [get, Option.bind_some, AList.lookup_erase, known] at here
  cases here

/-- A change that returns the outcome of the write keeps the objects when the write
succeeds, and otherwise only if it changed nothing. -/
theorem keeps_iff_of_change {s next : ConfidentialObjectStore} {call : ConfidentialCall}
    {saved : Except String Unit} (went : s.step call = some (next, .changed saved))
    (settling : ∀ result, call.settles (.changed result) = true ↔ result = .ok ()) :
    s.Keeps call ↔ saved = .ok () ∨ next.get = s.get := by
  constructor
  · rintro ⟨next', answer, went', failed, -⟩
    rw [went] at went'
    cases went'
    cases saved with
    | ok done => exact .inl rfl
    | error err => exact .inr (failed err rfl)
  · rintro (rfl | same)
    · refine ⟨next, _, went, fun err failed => (nomatch failed), fun unsettled => ?_⟩
      rw [(settling _).mpr rfl] at unsettled
      cases unsettled
    · exact ⟨next, _, went, fun _ _ => same, fun _ => same⟩

/-- **A call keeps the visible objects exactly when it meets its condition.** -/
theorem keeps_iff (s : ConfidentialObjectStore) (call : ConfidentialCall) :
    s.Keeps call ↔ Meets s call := by
  have settling : ∀ {call : ConfidentialCall}, (∀ file, call ≠ .load file) →
      ∀ result, call.settles (.changed result) = true ↔ result = .ok () := by
    intro call other result
    cases call with
    | load file => exact absurd rfl (other file)
    | _ => cases result <;> simp [ConfidentialCall.settles]
  cases call with
  | list => exact iff_of_true ⟨s, _, rfl, fun _ _ => rfl, fun _ => rfl⟩ trivial
  | get id => exact iff_of_true ⟨s, _, rfl, fun _ _ => rfl, fun _ => rfl⟩ trivial
  | load file =>
      refine iff_of_true ?_ trivial
      cases file with
      | missing => exact ⟨s, _, rfl, fun _ _ => rfl, fun _ => rfl⟩
      | unreadable => exact ⟨s, _, rfl, fun _ _ => rfl, fun _ => rfl⟩
      | malformed => exact ⟨s, _, rfl, fun _ _ => rfl, fun _ => rfl⟩
      | objects v =>
          exact ⟨_, _, rfl, fun err failed => (nomatch failed), fun unsettled => (nomatch unsettled)⟩
  | create content change =>
      cases made : change.newID with
      | error err =>
          have went : s.step (.create content change) = some (s, .changed (.error err)) := by
            simp only [step, create, made, Option.map_some]
          exact iff_of_true ⟨s, _, went, fun _ _ => rfl, fun _ => rfl⟩
            fun id h => by rw [made] at h; cases h
      | ok id =>
          obtain ⟨v⟩ := s
          cases v with
          | none =>
              have stops : (ConfidentialObjectStore.mk none).step (.create content change) = none := by
                simp only [step, create, made, Option.map_none]
              refine iff_of_false ?_ fun meets => (meets id made).1 rfl
              rintro ⟨next, answer, went, -⟩
              rw [stops] at went
              cases went
          | some v =>
              have went : (ConfidentialObjectStore.mk (some v)).step (.create content change) =
                  some ({ v := some (v.insert id (created id content change.now)) },
                    .changed change.saved) := by
                simp only [step, create, made, Option.map_some]
              rw [keeps_iff_of_change went (settling fun _ => by simp), get_insert_iff]
              constructor
              · rintro meets id' same
                rw [made] at same
                cases same
                exact ⟨by simp, meets⟩
              · exact fun meets => (meets id made).2
  | update id content change =>
      obtain ⟨v⟩ := s
      cases known : get ⟨v⟩ id with
      | none =>
          have went : (ConfidentialObjectStore.mk v).step (.update id content change) =
              some (⟨v⟩, .changed (.error "not found")) := by
            simp only [step, update, known]
          refine iff_of_true ⟨_, _, went, fun _ _ => rfl, fun _ => rfl⟩ fun existing same => ?_
          rw [known] at same
          cases same
      | some existing =>
          cases v with
          | none => cases known
          | some v =>
              have went : (ConfidentialObjectStore.mk (some v)).step (.update id content change) =
                  some ({ v := some (v.insert id (updated existing content change.now)) },
                    .changed change.saved) := by
                simp only [step, update, known, Option.map_some]
              have found : v.lookup id = some existing := known
              rw [keeps_iff_of_change went (settling fun _ => by simp), get_insert_iff, found,
                Option.some.injEq]
              constructor
              · rintro meets existing' same
                rw [known] at same
                cases same
                exact meets
              · exact fun meets => meets existing known
  | delete id change =>
      obtain ⟨v⟩ := s
      cases known : get ⟨v⟩ id with
      | none =>
          have went : (ConfidentialObjectStore.mk v).step (.delete id change) =
              some (⟨v⟩, .changed (.error "not found")) := by
            simp only [step, delete, known]
          exact iff_of_true ⟨_, _, went, fun _ _ => rfl, fun _ => rfl⟩ fun some_ => absurd known some_
      | some existing =>
          cases v with
          | none => cases known
          | some v =>
              have went : (ConfidentialObjectStore.mk (some v)).step (.delete id change) =
                  some ({ v := some (v.erase id) }, .changed change.saved) := by
                simp only [step, delete, known, Option.map_some]
              rw [keeps_iff_of_change went (settling fun _ => by simp)]
              constructor
              · rintro (saved | same) -
                · exact saved
                · exact absurd same (get_erase_ne known)
              · exact fun meets => .inl (meets (by rw [known]; simp))

end ConfidentialObjectStore

/-! ## Whole runs -/

theorem atomic_iff {s : ConfidentialObjectStore} {calls : List ConfidentialCall} :
    Atomic s s.get calls ↔ MeetsAll s calls := by
  induction calls generalizing s with
  | nil => exact Iff.rfl
  | cons call calls ih =>
      rw [MeetsAll, ← s.keeps_iff call, Atomic]
      constructor
      · intro run
        cases went : s.step call with
        | none => simp only [went] at run
        | some result =>
            obtain ⟨next, answer⟩ := result
            simp only [went] at run
            obtain ⟨failed, visible, later⟩ := run
            rw [← visible] at later
            refine ⟨⟨next, answer, went, failed, fun unsettled => ?_⟩, ?_⟩
            · rw [visible, if_neg (by rw [unsettled]; decide)]
            · rintro next' answer' went'
              cases went'
              exact ih.mp later
      · rintro ⟨⟨next, answer, went, failed, unsettled⟩, later⟩
        have visible : next.get = if call.settles answer = true then next.get else s.get := by
          by_cases settled : call.settles answer = true
          · rw [if_pos settled]
          · rw [if_neg settled]
            exact unsettled (by simpa using settled)
        simp only [went]
        refine ⟨failed, visible, ?_⟩
        rw [← visible]
        exact ih.mpr (later next answer went)

/-- **The operations are atomic in a run exactly when every call meets its condition**:
nothing is created while the store has no map, and a write fails only when there is
nothing to change. -/
theorem confidentialObjects_atomic_iff (calls : List ConfidentialCall) :
    Atomic newConfidentialObjectStore newConfidentialObjectStore.get calls ↔
      MeetsAll newConfidentialObjectStore calls :=
  atomic_iff

/-- The creation of a point, whose file cannot be renamed into place. -/
def unsavedPoint : ConfidentialCall :=
  .create { geometryType := "Point", coordinates := [91, 49, 44, 50, 93], tags := ∅ }
    { newID := .ok "co-1", now := 0, saved := .error "rename: permission denied" }

/-- A point whose creation returned an error stays visible. -/
theorem not_atomic_unsavedPoint :
    ¬ Atomic newConfidentialObjectStore newConfidentialObjectStore.get [unsavedPoint] := by
  rintro ⟨failed, -⟩
  have visible := congrFun (failed _ rfl) "co-1"
  cases visible

end OsmMini.Cmd

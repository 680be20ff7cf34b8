import OsmMini.Cmd.Editor.Drafts

/-!
# Change files

`collectIssues` checks the references between drafts: what a draft references has to exist and
must not be deleted. `osc` arranges the drafts that pass in the three blocks of a change file,
sorted by their types, and `restore` accepts a stored list of drafts when `osc` does.

`osc` accepts exactly the lists of at most 100 drafts with distinct keys and without issues
(`osc_ok_iff`).
-/

set_option autoImplicit false

namespace OsmMini.Cmd.Editor

/-! ## References between drafts -/

/-- Whether the drafts delete an object, or none when they do not contain it. The last draft of
a key counts. -/
def known (drafts : List Draft) (key : Key) : Option Bool :=
  (drafts.reverse.find? fun d => d.key = key).map Draft.deleted

/-- Whether an object exists once the drafts are applied: an object without a draft does when
its ID is one of OpenStreetMap. -/
def alive (drafts : List Draft) (key : Key) : Bool :=
  match known drafts key with
  | some deleted => !deleted
  | none => 0 < key.2

/-- The references of an object that the checks look at. -/
def checkedRefs (e : Element) : List Key :=
  match e.body with
  | .way nodes => nodes.map fun n => (Kind.node, n)
  | .group .relation members => members.map Member.key
  | _ => []

/-- A reference that does not resolve. -/
def unresolved (drafts : List Draft) (e : Element) : List String :=
  match e.body with
  | .way nodes => (nodes.filter fun n => !alive drafts (.node, n)).map fun n =>
      s!"Weg {e.id}: Knoten {n} ist unbekannt oder gelöscht."
  | .group .relation members => (members.filter fun m => !alive drafts m.key).map fun m =>
      s!"Relation {e.id}: Mitglied {m.type.kind.name}/{m.ref} ist unbekannt oder gelöscht."
  | _ => []

/-- Whether a way has a node. -/
def wayUses (v : Element) (id : ℤ) : Bool :=
  match v.body with
  | .way nodes => nodes.contains id
  | _ => false

/-- Whether a relation has an object as a member. -/
def relationUses (v : Element) (type : TypeName) (id : ℤ) : Bool :=
  match v.body with
  | .group .relation members => members.any fun m => m.type.same type && m.ref = id
  | _ => false

/-- The uses of an object to be deleted. -/
def usesOf (drafts : List Draft) (e : Element) : List String :=
  (drafts.filterMap Draft.value).flatMap fun v =>
    (if e.type = .plain .node ∧ wayUses v e.id then
      [s!"Knoten {e.id} kann nicht gelöscht werden: wird von Weg {v.id} verwendet."] else []) ++
    if relationUses v e.type e.id then
      [s!"{e.type.kind.word} {e.id} kann nicht gelöscht werden: wird von Relation {v.id} verwendet."]
    else []

/-- Whether a way or a relation among the drafts uses a node. -/
def vertexUsed (drafts : List Draft) (id : ℤ) : Bool :=
  (drafts.filterMap Draft.value).any fun v => wayUses v id || relationUses v (.plain .node) id

/-- Whether a draft is a new point without a description. -/
def bareVertex (d : Draft) : Bool :=
  match d with
  | .edit none value _ => value.type = .plain .node && !describes value.tags
  | _ => false

def collectIssues (drafts : List Draft) : List String :=
  ((drafts.filterMap Draft.value).flatMap fun e => unresolved drafts e) ++
    ((drafts.filter Draft.deleted).flatMap fun d => usesOf drafts d.element) ++
    (drafts.filter fun d => bareVertex d && !vertexUsed drafts d.element.id).map fun d =>
      s!"Neuer Punkt {d.element.id} braucht eine Eigenschaft oder muss Teil eines Wegs sein."

/-! ## Unchanged objects -/

def lookupTag (tags : Tags) (key : Text) : Option Text :=
  (tags.find? fun tag => tag.1 = key).map Prod.snd

/-- Whether `changes` finds no difference between the tags. -/
def sameTags (before after : Tags) : Bool :=
  (before ++ after).all fun tag => lookupTag before tag.1 = lookupTag after tag.1

/-- Whether `memberChanges` finds no difference between the members. -/
def sameMembers (before after : List Member) : Bool :=
  (before.all fun m => after.any fun a => a.key = m.key) &&
    (after.all fun m => before.any fun b => b.key = m.key) &&
    (after.all fun m => (before.find? fun b => b.key = m.key).all fun prior =>
      prior.role = m.role) &&
    before.map Member.key = after.map Member.key

/-- Whether a value differs from its base in nothing that is compared. -/
def elementUnchanged (base value : Element) : Bool :=
  sameTags base.tags value.tags &&
    match base.body, value.body with
    | .node lon lat, .node lon' lat' => lat = lat' && lon = lon'
    | .way nodes, .way nodes' => nodes = nodes'
    | .group _ members, .group .relation members' => sameMembers members members'
    | _, _ => true

/-! ## The change file -/

/-- The blocks of a change file, in the order in which they are written. -/
structure Document where
  create : List Element
  modify : List Element
  delete : List Element
  deriving DecidableEq, Repr

/-- The object that a draft creates. -/
def Draft.created : Draft → Option Element
  | .edit none value _ => some value
  | _ => none

/-- The object that a draft modifies, unless it is unchanged. -/
def Draft.modified : Draft → Option Element
  | .edit (some base) value _ => if elementUnchanged base value then none else some value
  | _ => none

/-- The object that a draft deletes. -/
def Draft.removed : Draft → Option Element
  | .deletion base => some base
  | _ => none

def rank (e : Element) : ℕ := e.type.kind.rank

/-- The three groups. The sort is stable: drafts of one type keep their order. -/
def groups (drafts : List Draft) : Document where
  create := (drafts.filterMap Draft.created).mergeSort fun a b => rank a ≤ rank b
  modify := drafts.filterMap Draft.modified
  delete := (drafts.filterMap Draft.removed).mergeSort fun a b => rank b ≤ rank a

def osc (drafts : List Value) : Except String Document :=
  if 100 < drafts.length then .error "Maximal 100 Entwürfe."
  else do
    let validated ← drafts.mapM validateDraft
    if ¬(validated.map Draft.key).Nodup then .error "Objekt mehrfach vorhanden."
    else if collectIssues validated ≠ [] then .error (" ".intercalate (collectIssues validated))
    else .ok (groups validated)

/-- What is stored: the version of the format and the drafts. -/
def persisted (drafts : List Draft) : Value :=
  .object [(text "version", .ofInt 1), (text "drafts", .array (drafts.map Draft.toValue))]

def restore (raw : Value) : Except String (List Draft) :=
  match raw.get "version", raw.get "drafts" with
  | some (.number version), some (.array drafts) =>
    if version ≠ 1 ∨ 100 < drafts.length then .error "Ungültige Entwurfsdatei."
    else do
      let drafts ← drafts.mapM validateDraft
      let _ ← osc (drafts.map Draft.toValue)
      .ok drafts
  | _, _ => .error "Ungültige Entwurfsdatei."

/-! ## Which lists are accepted -/

/-- The four conditions on a list of drafts. -/
structure Restorable (drafts : List Draft) : Prop where
  few : drafts.length ≤ 100
  valid : ∀ d ∈ drafts, ValidDraft d
  distinct : (drafts.map Draft.key).Nodup
  resolved : collectIssues drafts = []

theorem mapM_validateDraft_toValue {drafts : List Draft} (valid : ∀ d ∈ drafts, ValidDraft d) :
    (drafts.map Draft.toValue).mapM validateDraft = .ok drafts :=
  mapM_map_except fun d member => validateDraft_toValue (valid d member)

theorem valid_of_mapM {raw : List Value} {drafts : List Draft}
    (read : raw.mapM validateDraft = .ok drafts) :
    drafts.length = raw.length ∧ ∀ d ∈ drafts, ValidDraft d :=
  forall_of_mapM_except read fun _ _ => validDraft_of_validateDraft

/-- **What `osc` accepts**: a list whose drafts are valid and satisfy the conditions. -/
theorem osc_ok_iff {raw : List Value} {doc : Document} :
    osc raw = .ok doc ↔
      ∃ drafts, raw.mapM validateDraft = .ok drafts ∧ Restorable drafts ∧ groups drafts = doc := by
  rw [osc]
  constructor
  · intro accepted
    split_ifs at accepted with many
    cases read : raw.mapM validateDraft with
    | error e => simp [read, bind, Except.bind] at accepted
    | ok drafts =>
        simp only [read, bind, Except.bind] at accepted
        split_ifs at accepted with distinct issues
        obtain ⟨length, valid⟩ := valid_of_mapM read
        push Not at issues
        cases accepted
        exact ⟨drafts, rfl, ⟨by omega, valid, distinct, issues⟩, rfl⟩
  · rintro ⟨drafts, read, restorable, rfl⟩
    obtain ⟨length, -⟩ := valid_of_mapM read
    have few := restorable.few
    rw [if_neg (by omega), read]
    simp [bind, Except.bind, restorable.distinct, restorable.resolved]

/-- **What `restore` accepts of the stored drafts.** -/
theorem restore_persisted_iff {drafts : List Draft} :
    restore (persisted drafts) = .ok drafts ↔ Restorable drafts := by
  have version : (persisted drafts).get "version" = some (.number 1) := by
    simp +decide [persisted, Value.get, List.find?, Value.ofInt]
  have list : (persisted drafts).get "drafts" = some (.array (drafts.map Draft.toValue)) := by
    simp +decide [persisted, Value.get, List.find?]
  rw [restore, version, list]
  simp only [ne_eq, not_true_eq_false, false_or]
  constructor
  · intro accepted
    split_ifs at accepted
    cases read : (drafts.map Draft.toValue).mapM validateDraft with
    | error e => simp [read, bind, Except.bind] at accepted
    | ok read' =>
        cases exported : osc (read'.map Draft.toValue) with
        | error e => simp [read, exported, bind, Except.bind] at accepted
        | ok doc =>
            simp only [read, exported, bind, Except.bind, Except.ok.injEq] at accepted
            obtain ⟨again, readAgain, restorable, -⟩ := osc_ok_iff.mp exported
            rw [accepted, read, accepted, Except.ok.injEq] at readAgain
            exact readAgain ▸ restorable
  · intro restorable
    have few := restorable.few
    have read := mapM_validateDraft_toValue restorable.valid
    have exported : osc (drafts.map Draft.toValue) = .ok (groups drafts) :=
      osc_ok_iff.mpr ⟨drafts, read, restorable, rfl⟩
    rw [if_neg (by rw [List.length_map]; omega)]
    simp [read, exported, bind, Except.bind]

end OsmMini.Cmd.Editor

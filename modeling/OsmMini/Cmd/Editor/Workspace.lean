import OsmMini.Cmd.Editor.Changes

/-!
# The workspace of the editor

The workspace holds a list of drafts, which every operation stores and which the next page
load restores, and the lists of earlier states for undo and redo. Restoring refuses the whole
list when it has more than 100 drafts, two drafts of one object, an invalid draft or a
reference that does not resolve.

Every operation checks the references, and all but two also keep the other conditions. A split
and a merge add up to two drafts without looking at the number, and a merge adds the deletion
of the other way even when the list contains one already. In a run whose splits and merges
avoid that, every state can be restored (`restorable_run`).
-/

set_option autoImplicit false

namespace OsmMini.Cmd.Editor

/-- Whether a draft changes a node. -/
def isNodeEdit : Draft → Bool
  | .edit _ value _ => value.type = .plain .node
  | .deletion _ => false

/-- The object that is open in the editor, with the nodes that were inserted or moved. -/
structure Current where
  base : Option Element
  value : Element
  center : Option (ℚ × ℚ)
  pendingNodes : List Draft
  /-- The value is a version of the base. -/
  versions : ∀ b, base = some b → b.key = value.key
  /-- Pending nodes were validated, and only ways have them. -/
  pending : ∀ n ∈ pendingNodes, ValidDraft n ∧ isNodeEdit n = true ∧
    value.type = .plain .way

/-- The nodes of a way. -/
def wayNodes (e : Element) : List ℤ :=
  match e.body with
  | .way nodes => nodes
  | _ => []

/-- An operation that changes the drafts, with what the user and the server contribute. -/
inductive Event where
  /-- `working` are the rows of the form, trimmed; whether a drawn way is sound depends on map
  data, and only its result is given. -/
  | save (current : Current) (working : Tags) (members : List Member) (wayValid : Bool)
  | remove (index : ℕ)
  | discardDeletion (index : ℕ)
  | split (current : Current) (nodeId : ℤ)
  /-- `server` is the way as the server returns it. -/
  | merge (current : Current) (id : ℤ) (server : Option Value)
  /-- `parents` are the objects that use the current one on the server. -/
  | delete (current : Current) (parents : List Key)
  | importFile (file : Option Value)
  | undo
  | redo

/-- The drafts with the stacks of earlier and of undone lists, newest first. -/
structure Workspace where
  drafts : List Draft
  undo : List (List Draft)
  redo : List (List Draft)
  saved : List Draft

/-! ## Parts of the operations -/

/-- `checkReferences` -/
def checkReferences (drafts : List Draft) : Except String (List String) :=
  ((drafts.map Draft.toValue).mapM validateDraft).map collectIssues

/-- Put a draft in the place of the one of the same object, or at the end. -/
def upsert (drafts : List Draft) (d : Draft) : List Draft :=
  match drafts.findIdx? fun x => x.key = d.key with
  | some at' => drafts.set at' d
  | none => drafts ++ [d]

/-- Whether a new node without tags is used no more. -/
def abandoned (ids : List ℤ) (drafts : List Draft) : Draft → Bool
  | .edit none value _ =>
    value.type = .plain .node && !(0 < value.id) && ids.contains value.id && value.tags = [] &&
      !vertexUsed drafts value.id
  | _ => false

/-- Remove abandoned nodes, from the end of the list to its beginning. -/
def prune (ids : List ℤ) : ℕ → List Draft → List Draft
  | 0, drafts => drafts
  | i + 1, drafts =>
    match drafts[i]? with
    | some n =>
      if abandoned ids drafts n then prune ids i (drafts.eraseIdx i) else prune ids i drafts
    | none => prune ids i drafts

/-- The next placeholder of a type. -/
def nextTempId (drafts : List Draft) (kind : Kind) : ℤ :=
  (((drafts.filterMap Draft.value).filter fun v => v.type = .plain kind && v.id < 0).map
    Element.id).foldl min 0 - 1

/-- A relation among the drafts, and its members. -/
def relationMembers : Draft → Option (List Member)
  | .edit _ value _ =>
    match value.body with
    | .group .relation members => some members
    | _ => none
  | .deletion _ => none

/-- A draft of a relation with other members. -/
def withMembers (members : List Member) : Draft → Draft
  | .edit base value center => .edit base { value with body := .group .relation members } center
  | d => d

/-- The members of a relation with a new segment after the way that was split. -/
def patchSplit (originalId newId : ℤ) (members : List Member) : Option (List Member) :=
  let isOriginal := fun m : Member => m.type = .plain .way && m.ref = originalId
  (members.findIdx? isOriginal).map fun at' =>
    members.take (at' + 1) ++
      (members[at']?.map fun m => (⟨.plain .way, newId, m.role⟩ : Member)).toList ++
      members.drop (at' + 1)

/-- The members of a relation with the kept way in the place of the removed one. -/
def patchMerge (removedId keptId : ℤ) (members : List Member) : Option (List Member) :=
  let isRemoved := fun m : Member => m.type = .plain .way && m.ref = removedId
  if members.any isRemoved then
    some (members.map fun m => if isRemoved m then { m with ref := keptId } else m)
  else none

/-- Patch a draft of a relation, if its members contain what is patched. -/
def patchRelation (patch : List Member → Option (List Member)) (d : Draft) :
    Except String Draft :=
  match (relationMembers d).bind patch with
  | some members => validateDraft (withMembers members d).toValue
  | none => .ok d

/-- Patch every relation among the drafts. -/
def patchRelations (patch : List Member → Option (List Member)) (drafts : List Draft) :
    Except String (List Draft) := drafts.mapM (patchRelation patch)

/-- Keep a list whose references resolve. -/
def withoutIssues (next : List Draft) : Except String (List Draft) := do
  let issues ← checkReferences next
  if issues ≠ [] then .error (" ".intercalate issues) else .ok next

/-! ## The operations -/

/-- The draft that a save makes. -/
def savedDraft (current : Current) (working : Tags) (members : List Member) :
    Except String Draft := do
  let t ← tags (working.map fun tag => (tag.1, .string tag.2))
  let body := match current.value.body with
    | .group .relation _ => .group .relation members
    | body => body
  validateDraft (Draft.edit current.base { current.value with tags := t, body } current.center).toValue

/-- Whether a draft leaves its base as it is. -/
def isUnchanged : Draft → Bool
  | .edit (some base) value _ => elementUnchanged base value
  | _ => false

/-- Put the draft that is saved in its place, or take it out when it changes nothing. -/
def placeDraft (next : List Draft) (index : Option ℕ) (unchanged : Bool) (d : Draft) :
    List Draft :=
  match index with
  | some index => if unchanged then next.eraseIdx index else next.set index d
  | none => if unchanged then next else next ++ [d]

/-- The list after a save, before it is checked. -/
def saveNext (drafts : List Draft) (current : Current) (d : Draft) : List Draft :=
  let index := drafts.findIdx? fun x => x.key = d.key
  let before := ((drafts.find? fun x => x.key = d.key).bind Draft.value).elim [] wayNodes
  let next := current.pendingNodes.foldl upsert drafts
  let next := placeDraft next index (isUnchanged d) d
  if d.element.type = .plain .way then prune before next.length next else next

/-- A new point without tags is not saved. -/
def bareNewNode : Draft → Bool
  | .edit none value _ => value.type = .plain .node && value.tags = []
  | _ => false

def save (drafts : List Draft) (current : Current) (working : Tags) (members : List Member)
    (wayValid : Bool) : Except String (List Draft) := do
  if !wayValid then .error "Ungültige Wegkoordinaten."
  else
    let d ← savedDraft current working members
    if bareNewNode d then .error "Ein neuer Punkt benötigt mindestens einen Tag."
    else
      let next := saveNext drafts current d
      if 100 < next.length then .error "Maximal 100 Entwürfe." else withoutIssues next

def removeDraft (drafts : List Draft) (index : ℕ) : Except String (List Draft) :=
  let next := drafts.eraseIdx index
  let vertexIds := (drafts[index]?.bind Draft.value).elim [] wayNodes
  withoutIssues (prune vertexIds next.length next)

/-- Take a deletion back. -/
def discardDeletion (drafts : List Draft) (index : ℕ) : List Draft :=
  match drafts[index]? with
  | some (.deletion _) => drafts.eraseIdx index
  | _ => drafts

def performSplit (drafts : List Draft) (current : Current) (nodeId : ℤ) :
    Except String (List Draft) :=
  match current.value.body with
  | .way nodes =>
    if current.base = none then .ok drafts
    else
      let index := nodes.idxOf nodeId
      if index = 0 ∨ nodes.length ≤ index + 1 then
        .error "An diesem Punkt kann der Weg nicht geteilt werden."
      else do
        let first ← validateDraft (Draft.edit current.base
          { current.value with body := .way (nodes.take (index + 1)) } current.center).toValue
        let second ← element (Element.toValue
          { current.value with
            id := nextTempId drafts .way, version := none, body := .way (nodes.drop index) }) true
        let second ← validateDraft (Draft.edit none second current.center).toValue
        let next ← patchRelations (patchSplit current.value.id second.element.id)
          (upsert drafts first ++ [second])
        withoutIssues next
  | _ => .ok drafts

/-- Two ways joined at an end that they share. -/
def mergedNodes (a b : List ℤ) : Option (List ℤ) :=
  if a.getLast? = b.head? then some (a ++ b.tail)
  else if a.getLast? = b.getLast? then some (a ++ b.dropLast.reverse)
  else if a.head? = b.getLast? then some (b ++ a.tail)
  else if a.head? = b.head? then some (b.reverse ++ a.tail)
  else none

/-- The tags of both ways; those of the current one win. -/
def unionTags (other current : Tags) : Tags :=
  (other.map fun tag => (tag.1, (lookupTag current tag.1).getD tag.2)) ++
    current.filter fun tag => !(other.map Prod.fst).contains tag.1

/-- Whether a draft changes a way with an ID. -/
def isLiveWay (id : ℤ) : Draft → Bool
  | .edit _ value _ => value.type = .plain .way && value.id = id
  | .deletion _ => false

/-- The way of the server with an ID. -/
def serverWay (id : ℤ) (server : Option Value) : Except String Element :=
  match server with
  | none => .error "Weg konnte nicht geladen werden."
  | some raw => do
    let e ← element raw false
    if e.type = .plain .way ∧ e.id = id then .ok e
    else .error "Objekt ohne gültige ID/Version oder nicht mehr sichtbar."

/-- The way to merge with: as its draft has it, or else as the server does. -/
def otherWay (drafts : List Draft) (id : ℤ) (server : Option Value) : Except String Element :=
  match drafts.find? (isLiveWay id) with
  | some d => .ok d.element
  | none => serverWay id server

/-- The version of that way which is deleted. -/
def otherBase (drafts : List Draft) (id : ℤ) (other : Element) : Except String Element :=
  match drafts.find? (isLiveWay id) with
  | some d =>
    match d.base with
    | some base => .ok base
    | none => .error "Nur bereits gespeicherte Objekte können gelöscht werden."
  | none => .ok other

/-- Put in the kept way, and the deletion of the other one in the place of its draft. -/
def mergeNext (drafts : List Draft) (id : ℤ) (kept removed : Draft) : List Draft :=
  let next := upsert drafts kept
  match next.findIdx? (isLiveWay id) with
  | some index => next.set index removed
  | none => next ++ [removed]

def mergeWith (drafts : List Draft) (current : Current) (id : ℤ) (server : Option Value) :
    Except String (List Draft) :=
  match current.value.body with
  | .way a =>
    if current.base = none ∨ !validID id ∨ id = current.value.id then .ok drafts
    else do
      let other ← otherWay drafts id server
      match mergedNodes a (wayNodes other) with
      | none => .error "Die Wege teilen sich keinen Endpunkt und können nicht verbunden werden."
      | some merged =>
        let kept ← validateDraft (Draft.edit current.base
          { current.value with
            body := .way merged, tags := unionTags other.tags current.value.tags }
          current.center).toValue
        let base ← otherBase drafts id other
        let removed ← validateDraft (Draft.deletion base).toValue
        let next ← patchRelations (patchMerge id kept.element.id) (mergeNext drafts id kept removed)
        withoutIssues next
  | _ => .ok drafts

/-- Whether an object of the server still uses another one, given the drafts. -/
def stillUses (drafts : List Draft) (base : Element) (parent : Key) : Bool :=
  match drafts.find? fun d => d.element.type = .plain parent.1 && d.element.id = parent.2 with
  | none => true
  | some (.deletion _) => false
  | some (.edit _ value _) =>
    match value.body with
    | .way nodes => nodes.contains base.id
    | .group _ members => members.any fun m => m.type.same base.type && m.ref = base.id
    | .node .. => true

def deleteObject (drafts : List Draft) (current : Current) (parents : List Key) :
    Except String (List Draft) :=
  match current.base with
  | none => .ok drafts
  | some base =>
    if parents.any (stillUses drafts base) then
      .error "Objekt wird noch verwendet. Zuerst die Verwendungen bearbeiten."
    else do
      let removed ← validateDraft (Draft.deletion base).toValue
      let next := (drafts.filter fun d => d.key ≠ current.value.key) ++ [removed]
      if 100 < next.length then .error "Maximal 100 Entwürfe." else withoutIssues next

/-- Add the drafts of a file. -/
def importFile (drafts : List Draft) (file : Option Value) : Except String (List Draft) :=
  match file with
  | none => .error "Ungültige Entwurfsdatei."
  | some raw => do
    let incoming ← restore raw
    let merged := drafts ++ incoming
    let _ ← osc (merged.map Draft.toValue)
    .ok merged

namespace Workspace

def new : Workspace := ⟨[], [], [], []⟩

/-- Store the drafts, and record the list before them. -/
def persist (s : Workspace) (drafts : List Draft) : Workspace :=
  if drafts = s.saved then { s with drafts, saved := drafts }
  else
    { drafts
      undo := (s.saved :: s.undo).take 30
      redo := []
      saved := drafts }

/-- Store what an operation makes; one that fails changes nothing. -/
def apply (s : Workspace) (result : Except String (List Draft)) : Workspace :=
  match result with
  | .ok drafts => s.persist drafts
  | .error _ => s

def step (s : Workspace) : Event → Workspace
  | .save current working members wayValid =>
    s.apply (Editor.save s.drafts current working members wayValid)
  | .remove index => s.apply (removeDraft s.drafts index)
  | .discardDeletion index => s.persist (Editor.discardDeletion s.drafts index)
  | .split current nodeId => s.apply (performSplit s.drafts current nodeId)
  | .merge current id server => s.apply (mergeWith s.drafts current id server)
  | .delete current parents => s.apply (deleteObject s.drafts current parents)
  | .importFile file => s.apply (Editor.importFile s.drafts file)
  | .undo =>
    match s.undo with
    | [] => s
    | earlier :: undo =>
      { drafts := earlier, undo := undo, redo := s.drafts :: s.redo, saved := earlier }
  | .redo =>
    match s.redo with
    | [] => s
    | later :: redo =>
      { drafts := later, undo := s.drafts :: s.undo, redo := redo, saved := later }

/-- A run of operations. -/
def run (s : Workspace) (events : List Event) : Workspace := events.foldl step s

end Workspace

end OsmMini.Cmd.Editor

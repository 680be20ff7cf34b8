import Mathlib
import OsmMini.Cmd.Editor.Upload

/-!
# What a change file contains

A change file has one entry for every draft that changes something. For a deletion and for a
new object that is plain; for an edited object `elementUnchanged` decides, which looks at the
differences that the editor lists. Each entry of a new or an edited object carries its full
value (`carries_entry`).

The list of differences compares the role of a member with that of the first member with the
same reference. A relation that has an object twice, with different roles, is therefore taken
to be unchanged when every member gets the role of the first one, and to be changed when
nothing is. In all other cases the file has exactly the entries that it should have
(`osc_edits`).
-/

set_option autoImplicit false

namespace OsmMini.Cmd.Editor

/-! ## The entries -/

/-- What stands between the tags of an entry. -/
inductive Child where
  | nd (ref : ℤ)
  | member (type : Kind) (ref : ℤ) (role : Text)
  | tag (k v : Text)
  deriving DecidableEq, Repr

namespace Child

def nd? : Child → Option ℤ
  | .nd ref => some ref
  | _ => none

def member? : Child → Option (Key × Text)
  | .member type ref role => some ((type, ref), role)
  | _ => none

def tag? : Child → Option (Text × Text)
  | .tag k v => some (k, v)
  | _ => none

end Child

/-- An entry of a change file for a new or an edited object. -/
structure Entry where
  type : Kind
  id : ℤ
  version : Option ℤ
  /-- The latitude and the longitude of a node. -/
  position : Option (ℚ × ℚ)
  children : List Child
  deriving DecidableEq, Repr

/-- The units of a code point in UTF-16. -/
def units (n : ℕ) : List ℕ :=
  if n < 0x10000 then [n] else [0xD800 + (n - 0x10000) / 0x400, 0xDC00 + (n - 0x10000) % 0x400]

/-- Tags in the order of their keys, compared unit by unit. -/
def sortedTags (tags : Tags) : Tags :=
  tags.mergeSort fun a b => a.1.flatMap units ≤ b.1.flatMap units

def Body.position : Body → Option (ℚ × ℚ)
  | .node lon lat => some (lat, lon)
  | _ => none

def Body.nodes : Body → List ℤ
  | .way nodes => nodes
  | _ => []

def Body.members : Body → List Member
  | .group _ members => members
  | _ => []

/-- The entry of a new or an edited object; only the latter has a version. -/
def entry (base : Option Element) (e : Element) : Entry where
  type := e.type.kind
  id := e.id
  version := base.bind fun _ => e.version
  position := e.body.position
  children :=
    e.body.nodes.map Child.nd ++
      (e.body.members.map fun m => Child.member m.type.kind m.ref m.role) ++
      (sortedTags e.tags).map fun tag => Child.tag tag.1 tag.2

/-- What a member refers to, and its role. -/
def Member.content (m : Member) : Key × Text := (m.key, m.role)

/-- An entry that carries the full value of an object. -/
structure Carries (x : Entry) (e : Element) : Prop where
  identity : (x.type, x.id) = e.key ∧ x.version = e.version
  position : x.position = e.body.position
  nodes : x.children.filterMap Child.nd? = e.body.nodes
  members : x.children.filterMap Child.member? = e.body.members.map Member.content
  tags : (x.children.filterMap Child.tag?).Perm e.tags

/-- Children that are all of the kind that is selected. -/
theorem filterMap_children {α β : Type} (f : α → Child) {g : Child → Option β} (h : α → β)
    (found : ∀ a, g (f a) = some (h a)) (l : List α) : (l.map f).filterMap g = l.map h := by
  rw [List.filterMap_map, ← List.filterMap_eq_map]
  exact List.filterMap_congr fun a _ => found a

/-- Children that are all of another kind. -/
theorem filterMap_children_none {α β : Type} (f : α → Child) {g : Child → Option β}
    (absent : ∀ a, g (f a) = none) (l : List α) : (l.map f).filterMap g = [] := by
  rw [List.filterMap_map, List.filterMap_eq_nil_iff]
  exact fun a _ => absent a

/-- **The entry of an object carries its value.** -/
theorem carries_entry {base : Option Element} {e : Element}
    (version : base = none → e.version = none) : Carries (entry base e) e := by
  refine ⟨⟨rfl, ?_⟩, rfl, ?_, ?_, ?_⟩
  · cases base with
    | none => exact (version rfl).symm
    | some base => rfl
  · rw [entry, List.filterMap_append, List.filterMap_append,
      filterMap_children Child.nd id fun _ => rfl,
      filterMap_children_none (fun m : Member => Child.member m.type.kind m.ref m.role) fun _ => rfl,
      filterMap_children_none (fun tag : Text × Text => Child.tag tag.1 tag.2) fun _ => rfl,
      List.append_nil, List.append_nil, List.map_id]
  · rw [entry, List.filterMap_append, List.filterMap_append,
      filterMap_children_none Child.nd fun _ => rfl,
      filterMap_children (fun m : Member => Child.member m.type.kind m.ref m.role) Member.content
        fun _ => rfl,
      filterMap_children_none (fun tag : Text × Text => Child.tag tag.1 tag.2) fun _ => rfl,
      List.nil_append, List.append_nil]
  · rw [entry, List.filterMap_append, List.filterMap_append,
      filterMap_children_none Child.nd fun _ => rfl,
      filterMap_children_none (fun m : Member => Child.member m.type.kind m.ref m.role) fun _ => rfl,
      filterMap_children (fun tag : Text × Text => Child.tag tag.1 tag.2) id fun _ => rfl,
      List.nil_append, List.nil_append, List.map_id]
    exact List.mergeSort_perm _ _

/-! ## Unchanged objects -/

/-- Two bodies with the same coordinates, the same nodes, or the same members in the same
order. -/
def SameBody : Body → Body → Prop
  | .node lon lat, .node lon' lat' => lon = lon' ∧ lat = lat'
  | .way nodes, .way nodes' => nodes = nodes'
  | .group _ members, .group _ members' =>
    members.map Member.content = members'.map Member.content
  | _, _ => False

/-- A value that is equal to its base. -/
structure Unaltered (base value : Element) : Prop where
  tags : ∀ key, lookupTag base.tags key = lookupTag value.tags key
  body : SameBody base.body value.body

/-- The role of the first member that refers to an object. -/
def firstRole (members : List Member) (key : Key) : Option Text :=
  (members.find? fun b => b.key = key).map Member.role

/-- The members, each with the role of the first one that refers to the same object. -/
def withFirstRoles (members : List Member) : List (Key × Text) :=
  members.map fun m => (m.key, (firstRole members m.key).getD m.role)

/-- The list of differences can tell apart the members of a relation. -/
def RolesTell (before after : List Member) : Prop :=
  withFirstRoles before = before.map Member.content ∨
    after.map Member.content ≠ before.map Member.content ∧
      after.map Member.content ≠ withFirstRoles before

/-- Whether the list of differences can tell a value and its base apart. Only relations whose
tags did not change depend on the roles. -/
def Discernible (base value : Element) : Prop :=
  (∀ key, lookupTag base.tags key = lookupTag value.tags key) →
    match base.body, value.body with
    | .group _ before, .group _ after => RolesTell before after
    | _, _ => True

theorem sameTags_iff {before after : Tags} :
    sameTags before after = true ↔ ∀ key, lookupTag before key = lookupTag after key := by
  rw [sameTags, List.all_eq_true]
  constructor
  · intro same key
    by_cases known : ∃ tag ∈ before ++ after, tag.1 = key
    · obtain ⟨tag, member, rfl⟩ := known
      simpa using same tag member
    · have absent : ∀ tags : Tags, (∀ tag ∈ tags, tag.1 ≠ key) → lookupTag tags key = none := by
        intro tags other
        rw [lookupTag, Option.map_eq_none_iff, List.find?_eq_none]
        intro tag member
        simpa using other tag member
      rw [absent before fun tag member same => known ⟨tag, List.mem_append_left _ member, same⟩,
        absent after fun tag member same => known ⟨tag, List.mem_append_right _ member, same⟩]
  · intro same tag _
    simpa using same tag.1

theorem firstRole_of_mem {members : List Member} {key : Key}
    (member : key ∈ members.map Member.key) :
    ∃ prior, (members.find? fun b => b.key = key) = some prior ∧
      firstRole members key = some prior.role := by
  obtain ⟨m, inMembers, rfl⟩ := List.mem_map.mp member
  cases found : members.find? fun b => b.key = m.key with
  | none =>
      rw [List.find?_eq_none] at found
      exact absurd (decide_eq_true rfl) (found m inMembers)
  | some prior => exact ⟨prior, rfl, by rw [firstRole, found]; rfl⟩

/-- **What the list of member differences compares**: the members with the roles of the first
ones. -/
theorem sameMembers_iff {before after : List Member} :
    sameMembers before after = true ↔ after.map Member.content = withFirstRoles before := by
  have keysOf : ∀ members : List Member,
      (members.map Member.content).map Prod.fst = members.map Member.key := fun members => by
    rw [List.map_map]
    rfl
  have keysOfFirst : (withFirstRoles before).map Prod.fst = before.map Member.key := by
    rw [withFirstRoles, List.map_map]
    rfl
  constructor
  · intro same
    rw [sameMembers, Bool.and_eq_true, Bool.and_eq_true, Bool.and_eq_true] at same
    obtain ⟨⟨-, roles⟩, keys⟩ := same
    rw [decide_eq_true_iff] at keys
    rw [List.all_eq_true] at roles
    apply List.ext_getElem?
    intro i
    have atKey := congrArg (fun l : List Key => l[i]?) keys
    simp only [List.getElem?_map] at atKey
    rw [withFirstRoles, List.getElem?_map, List.getElem?_map]
    cases found : after[i]? with
    | none =>
        rw [found] at atKey
        rw [Option.map_eq_none_iff.mp atKey]
        rfl
    | some m =>
        rw [found] at atKey
        obtain ⟨b, foundBase, sameKey⟩ := Option.map_eq_some_iff.mp atKey
        obtain ⟨prior, first, role⟩ :=
          firstRole_of_mem (List.mem_map_of_mem (List.mem_of_getElem? foundBase))
        have equal := roles m (List.mem_of_getElem? found)
        rw [← sameKey, first, Option.all_some, decide_eq_true_iff] at equal
        rw [foundBase, Option.map_some, Option.map_some, role, Option.getD_some, equal, sameKey]
        rfl
  · intro equal
    have keys : before.map Member.key = after.map Member.key := by
      rw [← keysOfFirst, ← equal, keysOf]
    have within : ∀ {l l' : List Member}, l.map Member.key = l'.map Member.key →
        (l.all fun m => l'.any fun a => a.key = m.key) = true := by
      intro l l' same
      rw [List.all_eq_true]
      intro m member
      have inOther : m.key ∈ l'.map Member.key := same ▸ List.mem_map_of_mem member
      obtain ⟨a, member', sameKey⟩ := List.mem_map.mp inOther
      exact List.any_eq_true.mpr ⟨a, member', decide_eq_true sameKey⟩
    rw [sameMembers, Bool.and_eq_true, Bool.and_eq_true, Bool.and_eq_true]
    refine ⟨⟨⟨within keys, within keys.symm⟩, ?_⟩, decide_eq_true keys⟩
    rw [List.all_eq_true]
    intro m member
    have inFirst : m.content ∈ withFirstRoles before :=
      equal ▸ List.mem_map_of_mem (f := Member.content) member
    obtain ⟨b, inBefore, same⟩ := List.mem_map.mp inFirst
    obtain ⟨prior, first, role⟩ := firstRole_of_mem (List.mem_map_of_mem inBefore)
    obtain ⟨sameKey, sameRole⟩ := Prod.mk.inj same
    rw [role, Option.getD_some] at sameRole
    rw [← sameKey, first, Option.all_some]
    exact decide_eq_true sameRole

/-- What validation says about the types of a base and a value. -/
theorem body_of_checkEdit {base value : Element} (checked : checkEdit (some base) value = .ok ()) :
    base.body.type = value.body.type ∧ base.body.type.wraps = 0 := by
  rw [checkEdit] at checked
  split_ifs at checked with different
  push Not at different
  have same : base.type.same value.type = true := by simpa using different.1
  simp only [TypeName.same, Bool.and_eq_true, decide_eq_true_iff] at same
  obtain ⟨⟨plain, plain'⟩, kinds⟩ := same
  refine ⟨?_, plain⟩
  change base.type = value.type
  cases one : base.type
  cases two : value.type
  rw [one, two] at kinds
  rw [one] at plain
  rw [two] at plain'
  simp only at kinds plain plain'
  rw [kinds, plain, plain']

/-- **When the editor tells a value and its base apart.** -/
theorem elementUnchanged_iff {base value : Element}
    (checked : checkEdit (some base) value = .ok ()) :
    (elementUnchanged base value = true ↔ Unaltered base value) ↔ Discernible base value := by
  obtain ⟨same, plain⟩ := body_of_checkEdit checked
  by_cases tags : ∀ key, lookupTag base.tags key = lookupTag value.tags key
  · have unaltered : Unaltered base value ↔ SameBody base.body value.body :=
      ⟨Unaltered.body, Unaltered.mk tags⟩
    have discernible := fun condition : Prop => forall_prop_of_true (q := fun _ => condition) tags
    rw [unaltered, elementUnchanged, sameTags_iff.mpr tags, Bool.true_and, Discernible]
    cases one : base.body with
    | node lon lat =>
        cases two : value.body with
        | node lon' lat' =>
            have swapped : (decide (lat = lat') && decide (lon = lon')) = true ↔
                SameBody (.node lon lat) (.node lon' lat') := by
              rw [Bool.and_eq_true, decide_eq_true_iff, decide_eq_true_iff, And.comm]
              exact Iff.rfl
            exact ⟨fun _ _ => trivial, fun _ => swapped⟩
        | way nodes => rw [one, two] at same; cases same
        | group type members => rw [one, two] at same; cases type <;> cases same
    | way nodes =>
        cases two : value.body with
        | node lon' lat' => rw [one, two] at same; cases same
        | way nodes' =>
            have equal : decide (nodes = nodes') = true ↔ SameBody (.way nodes) (.way nodes') :=
              decide_eq_true_iff
            exact ⟨fun _ _ => trivial, fun _ => equal⟩
        | group type members => rw [one, two] at same; cases type <;> cases same
    | group type members =>
        rw [one] at plain
        cases type with
        | wrapped kind more => cases plain
        | relation =>
            cases two : value.body with
            | node lon' lat' => rw [one, two] at same; cases same
            | way nodes => rw [one, two] at same; cases same
            | group type' members' =>
                cases type' with
                | wrapped kind more => rw [one, two] at same; cases same
                | relation =>
                    simp only [sameMembers_iff, SameBody]
                    refine Iff.trans ?_ (discernible _).symm
                    rw [RolesTell]
                    constructor
                    · intro agree
                      by_cases first : withFirstRoles members = members.map Member.content
                      · exact .inl first
                      · refine .inr ⟨fun equal => first ?_, fun equal => first ?_⟩
                        · rw [← agree.mpr equal.symm, equal]
                        · rw [agree.mp equal, equal]
                    · intro tell
                      rcases tell with first | ⟨other, otherFirst⟩
                      · rw [first]
                        exact eq_comm
                      · exact ⟨fun equal => absurd equal otherFirst,
                          fun equal => absurd equal.symm other⟩
  · have altered : ¬ Unaltered base value := fun unaltered => tags unaltered.tags
    have changed : ¬ elementUnchanged base value = true := by
      intro unchanged
      rw [elementUnchanged, Bool.and_eq_true] at unchanged
      exact tags (sameTags_iff.mp unchanged.1)
    exact ⟨fun _ known => absurd known tags,
      fun _ => ⟨fun unchanged => absurd unchanged changed, fun known => absurd known altered⟩⟩

/-! ## The change file -/

open Classical in
/-- The object that a draft modifies, unless it is equal to its base. -/
noncomputable def Draft.altered : Draft → Option Element
  | .edit (some base) value _ => if Unaltered base value then none else some value
  | _ => none

/-- **A change file with every edit, and no other one.** -/
structure ExportsEdits (drafts : List Draft) (doc : Document) : Prop where
  deleted : doc.delete.Perm (drafts.filterMap Draft.removed)
  created : doc.create.Perm (drafts.filterMap Draft.created)
  modified : doc.modify.Perm (drafts.filterMap Draft.altered)
  carried : (∀ e ∈ doc.create, Carries (entry none e) e) ∧
    ∀ e ∈ doc.modify, ∀ base, Carries (entry (some base) e) e

theorem altered_eq {d : Draft} {e : Element} (altered : d.altered = some e) :
    ∃ base center, d = .edit (some base) e center := by
  unfold Draft.altered at altered
  split at altered
  · next base value center =>
      split_ifs at altered
      cases altered
      exact ⟨base, center, rfl⟩
  · cases altered

/-- The only draft from which an entry with a value can come. -/
theorem draft_unique {drafts : List Draft} (distinct : (drafts.map Draft.key).Nodup)
    {base value : Element} {center : Option (ℚ × ℚ)} (member : .edit (some base) value center ∈ drafts)
    {d : Draft} (known : d ∈ drafts) (same : d.element = value) : d = .edit (some base) value center := by
  refine List.inj_on_of_nodup_map distinct known member ?_
  rw [Draft.key, same]
  rfl

/-- The entries of the edited objects are right exactly when every decision is. -/
theorem modify_perm_iff {drafts : List Draft} (distinct : (drafts.map Draft.key).Nodup) :
    (drafts.filterMap Draft.modified).Perm (drafts.filterMap Draft.altered) ↔
      ∀ base value center, .edit (some base) value center ∈ drafts →
        (elementUnchanged base value = true ↔ Unaltered base value) := by
  constructor
  · intro perm base value center member
    constructor
    · intro unchanged
      by_contra altered
      have listed : value ∈ drafts.filterMap Draft.altered :=
        List.mem_filterMap.mpr ⟨_, member, by rw [Draft.altered, if_neg altered]⟩
      obtain ⟨d, known, modified⟩ := List.mem_filterMap.mp (perm.symm.subset listed)
      obtain ⟨base', center', rfl⟩ := modified_eq modified
      rw [draft_unique distinct member known rfl, Draft.modified, if_pos unchanged] at modified
      cases modified
    · intro unaltered
      by_contra changed
      have listed : value ∈ drafts.filterMap Draft.modified :=
        List.mem_filterMap.mpr ⟨_, member, by rw [Draft.modified, if_neg changed]⟩
      obtain ⟨d, known, altered⟩ := List.mem_filterMap.mp (perm.subset listed)
      obtain ⟨base', center', rfl⟩ := altered_eq altered
      rw [draft_unique distinct member known rfl, Draft.altered, if_pos unaltered] at altered
      cases altered
  · intro decided
    refine List.Perm.of_eq (List.filterMap_congr fun d member => ?_)
    cases d with
    | deletion base => rfl
    | edit base value center =>
        cases base with
        | none => rfl
        | some base =>
            rw [Draft.modified, Draft.altered]
            by_cases unchanged : elementUnchanged base value = true
            · rw [if_pos unchanged, if_pos ((decided _ _ _ member).mp unchanged)]
            · rw [if_neg unchanged, if_neg fun unaltered => unchanged ((decided _ _ _ member).mpr unaltered)]

/-- **The export has every edit and invents none**, exactly when the roles of repeated members
allow it; and then the editor takes an object to be unchanged exactly when it is equal to its
base. -/
theorem osc_edits {raw : List Value} {drafts : List Draft} {doc : Document}
    (accepted : osc raw = .ok doc) (read : raw.mapM validateDraft = .ok drafts) :
    (ExportsEdits drafts doc ↔
      ∀ base value center, .edit (some base) value center ∈ drafts → Discernible base value) ∧
    ((∀ base value center, .edit (some base) value center ∈ drafts →
        (elementUnchanged base value = true ↔ Unaltered base value)) ↔
      ∀ base value center, .edit (some base) value center ∈ drafts → Discernible base value) := by
  obtain ⟨validated, again, restorable, rfl⟩ := osc_ok_iff.mp accepted
  rw [read, Except.ok.injEq] at again
  subst again
  have decided : (∀ base value center, .edit (some base) value center ∈ drafts →
      (elementUnchanged base value = true ↔ Unaltered base value)) ↔
      ∀ base value center, .edit (some base) value center ∈ drafts → Discernible base value := by
    refine forall_congr' fun base => forall_congr' fun value => forall_congr' fun center =>
      forall_congr' fun member => elementUnchanged_iff ?_
    exact (restorable.valid _ member).2.2.1
  refine ⟨?_, decided⟩
  rw [← decided, ← modify_perm_iff restorable.distinct]
  constructor
  · intro exports
    exact exports.modified
  · intro perm
    refine ⟨List.mergeSort_perm _ _, List.mergeSort_perm _ _, perm, ?_, ?_⟩
    · intro e member
      obtain ⟨center, inDrafts⟩ := mem_creations.mp (mem_create.mp member)
      exact carries_entry fun _ => (restorable.valid _ inDrafts).2.1.identity.2.2
    · intro e _ base
      exact carries_entry fun none => nomatch none

/-! ### A relation with a member twice -/

/-- A relation with a way twice. -/
def loop (first second : String) : Element where
  id := 1
  version := some 1
  tags := [(text "type", text "route")]
  body := .group .relation
    [⟨.plain .way, 7, text first⟩, ⟨.plain .way, 7, text second⟩]

/-- The second role is replaced by the first one. -/
def loopDraft : Draft := .edit (some (loop "forward" "backward")) (loop "forward" "forward") none

theorem restorable_loop : Restorable [loopDraft] :=
  restorable_of_read (by decide) (by decide +kernel) (by decide +kernel) (by decide +kernel)

theorem osc_edits_loop :
    ExportsEdits [loopDraft] (groups [loopDraft]) ↔
      ∀ base value center, .edit (some base) value center ∈ [loopDraft] → Discernible base value :=
  (osc_edits (osc_toValue restorable_loop) (mapM_validateDraft_toValue restorable_loop.valid)).1

/-- The edit of the role is missing. -/
theorem osc_loses_role :
    ∃ doc, osc ([loopDraft].map Draft.toValue) = .ok doc ∧
      ([loopDraft].map Draft.toValue).mapM validateDraft = .ok [loopDraft] ∧
      doc.modify = [] ∧ ¬ ExportsEdits [loopDraft] doc := by
  refine ⟨_, osc_toValue restorable_loop, mapM_validateDraft_toValue restorable_loop.valid,
    by decide +kernel, fun exports => ?_⟩
  have different : ¬ Unaltered (loop "forward" "backward") (loop "forward" "forward") := by
    intro unaltered
    have same := unaltered.body
    simp only [loop, SameBody] at same
    exact absurd same (by decide +kernel)
  have listed : loop "forward" "forward" ∈ [loopDraft].filterMap Draft.altered :=
    List.mem_filterMap.mpr ⟨loopDraft, List.mem_singleton.mpr rfl, by
      rw [loopDraft, Draft.altered, if_neg different]⟩
  have none : (groups [loopDraft]).modify = [] := by decide +kernel
  have found := exports.modified.symm.subset listed
  rw [none] at found
  cases found

end OsmMini.Cmd.Editor

import OsmMini.Cmd.Editor.Changes
import OsmMini.Foundations.SortSlice

/-!
# The order of a change file

A change file is applied from its first entry to its last one. So a created object has to come
after the created objects it references, and a deleted one before the objects its base
references.

The blocks are sorted by type alone. That suffices for ways, which reference only nodes. Among
relations the drafts keep the order in which they were made, which may be the wrong one. So the
document is in order exactly when the drafts of relations already are (`uploadable_iff`); and
so is what an object references whose type was written as an array, since no check looks at it.
-/

set_option autoImplicit false

namespace OsmMini.Cmd.Editor

open OsmMini.Foundations

/-- The keys that an entry of a change file references. -/
def references (e : Element) : List Key :=
  match e.body with
  | .node .. => []
  | .way nodes => nodes.map fun n => (Kind.node, n)
  | .group _ members => members.map Member.key

/-- **A change file that is uploaded in its order.** -/
structure Uploadable (doc : Document) : Prop where
  distinct : ((doc.create ++ doc.modify ++ doc.delete).map Element.key).Nodup
  /-- A placeholder is created earlier, in the same block or in one before. -/
  created : ∀ e ∈ doc.create, ∀ r ∈ references e, r.2 < 0 → r ≠ e.key →
    ∃ f, f.key = r ∧ Before doc.create f e
  modified : ∀ e ∈ doc.modify, ∀ r ∈ references e, r.2 < 0 → r ∈ doc.create.map Element.key
  kept : ∀ e ∈ doc.create ++ doc.modify, ∀ r ∈ references e, r ∉ doc.delete.map Element.key
  deleted : ∀ e f, Before doc.delete f e → f.key ∉ references e

/-- The created objects, in the order of the drafts. -/
def creations (drafts : List Draft) : List Element := drafts.filterMap Draft.created

/-- The deleted objects, in the order of the drafts. -/
def removals (drafts : List Draft) : List Element := drafts.filterMap Draft.removed

/-- One object is written before another, when lower ranks come first. -/
def Precedes (l : List Element) (f e : Element) : Prop :=
  f ∈ l ∧ e ∈ l ∧ (rank f < rank e ∨ rank f = rank e ∧ Before l f e)

/-- The order that the drafts have to have. -/
structure Arranged (drafts : List Draft) : Prop where
  /-- A created relation comes after the created relations it references. -/
  relations : ∀ e ∈ creations drafts, ∀ members, e.body = .group .relation members →
    ∀ m ∈ members, m.type.kind = .relation → m.ref < 0 → m.key ≠ e.key →
      ∃ f, f.key = m.key ∧ Before (creations drafts) f e
  /-- A deleted relation comes before the deleted relations it references. -/
  deletedRelations : ∀ e f, Before (removals drafts) f e →
    ∀ members, e.body = .group .relation members → f.type.kind = .relation →
      f.key ∉ references e
  /-- An object whose type is an array references what is written before it. -/
  wrapped : ∀ e ∈ creations drafts, ∀ kind more members,
    e.body = .group (.wrapped kind more) members →
    ∀ m ∈ members, (m.ref < 0 → m.key ≠ e.key →
      ∃ f, f.key = m.key ∧ Precedes (creations drafts) f e) ∧
      m.key ∉ (removals drafts).map Element.key
  deletedWrapped : ∀ e f, e ∈ removals drafts → f ∈ removals drafts →
    rank e < rank f ∨ rank e = rank f ∧ Before (removals drafts) f e →
    ∀ kind more members, e.body = .group (.wrapped kind more) members → f.key ∉ references e

/-! ## The entries and their drafts -/

theorem rank_eq (e : Element) : rank e = e.key.1.rank := rfl

theorem created_eq {d : Draft} {e : Element} (created : d.created = some e) :
    ∃ center, d = .edit none e center := by
  unfold Draft.created at created
  split at created
  · next center =>
      cases created
      exact ⟨center, rfl⟩
  · cases created

theorem modified_eq {d : Draft} {e : Element} (modified : d.modified = some e) :
    ∃ base center, d = .edit (some base) e center := by
  unfold Draft.modified at modified
  split at modified
  · next base value center =>
      split_ifs at modified
      cases modified
      exact ⟨base, center, rfl⟩
  · cases modified

theorem removed_eq {d : Draft} {e : Element} (removed : d.removed = some e) :
    d = .deletion e := by
  unfold Draft.removed at removed
  split at removed
  · cases removed
    rfl
  · cases removed

theorem mem_creations {drafts : List Draft} {e : Element} :
    e ∈ creations drafts ↔ ∃ center, Draft.edit none e center ∈ drafts := by
  rw [creations, List.mem_filterMap]
  constructor
  · rintro ⟨d, member, created⟩
    obtain ⟨center, rfl⟩ := created_eq created
    exact ⟨center, member⟩
  · rintro ⟨center, member⟩
    exact ⟨_, member, rfl⟩

theorem mem_removals {drafts : List Draft} {e : Element} :
    e ∈ removals drafts ↔ Draft.deletion e ∈ drafts := by
  rw [removals, List.mem_filterMap]
  constructor
  · rintro ⟨d, member, removed⟩
    rwa [removed_eq removed] at member
  · intro member
    exact ⟨_, member, rfl⟩

/-- The keys of selected entries are keys of drafts, in the same order. -/
theorem keys_sublist {select : Draft → Option Element}
    (keyed : ∀ d e, select d = some e → e.key = d.key) : ∀ drafts : List Draft,
    ((drafts.filterMap select).map Element.key).Sublist (drafts.map Draft.key)
  | [] => List.Sublist.slnil
  | d :: drafts => by
      have rest := keys_sublist keyed drafts
      cases found : select d with
      | none =>
          rw [List.filterMap_cons_none found, List.map_cons]
          exact rest.cons _
      | some e =>
          rw [List.filterMap_cons_some found, List.map_cons, List.map_cons, keyed d e found]
          exact rest.cons_cons _

theorem created_key (d : Draft) (e : Element) (created : d.created = some e) : e.key = d.key := by
  obtain ⟨center, rfl⟩ := created_eq created
  rfl

theorem modified_key (d : Draft) (e : Element) (modified : d.modified = some e) :
    e.key = d.key := by
  obtain ⟨base, center, rfl⟩ := modified_eq modified
  rfl

theorem removed_key (d : Draft) (e : Element) (removed : d.removed = some e) : e.key = d.key := by
  rw [removed_eq removed]
  rfl

section Accepted

variable {drafts : List Draft}

/-- Entries that come from different drafts have different keys. -/
theorem key_ne (distinct : (drafts.map Draft.key).Nodup) {d d' : Draft} (first : d ∈ drafts)
    (second : d' ∈ drafts) (different : d ≠ d') : d.key ≠ d'.key := fun same =>
  different (List.inj_on_of_nodup_map distinct first second same)

theorem document_distinct (distinct : (drafts.map Draft.key).Nodup) :
    (((groups drafts).create ++ (groups drafts).modify ++ (groups drafts).delete).map
      Element.key).Nodup := by
  have createdKeys := distinct.sublist (keys_sublist created_key drafts)
  have modifiedKeys := distinct.sublist (keys_sublist modified_key drafts)
  have removedKeys := distinct.sublist (keys_sublist removed_key drafts)
  have perm : ((groups drafts).create ++ (groups drafts).modify ++ (groups drafts).delete).Perm
      (creations drafts ++ drafts.filterMap Draft.modified ++ removals drafts) :=
    ((List.mergeSort_perm _ _).append_right _).append (List.mergeSort_perm _ _)
  rw [(perm.map Element.key).nodup_iff, List.map_append, List.map_append, List.nodup_append,
    List.nodup_append]
  refine ⟨⟨createdKeys, modifiedKeys, ?_⟩, removedKeys, ?_⟩
  · rintro key first _ second rfl
    obtain ⟨e, member, rfl⟩ := List.mem_map.mp first
    obtain ⟨f, member', same⟩ := List.mem_map.mp second
    obtain ⟨center, inDrafts⟩ := mem_creations.mp member
    obtain ⟨d, inDrafts', modified⟩ := List.mem_filterMap.mp member'
    obtain ⟨base, center', rfl⟩ := modified_eq modified
    exact key_ne distinct inDrafts' inDrafts (by simp) same
  · rintro key first _ second rfl
    obtain ⟨f, member', same⟩ := List.mem_map.mp second
    have inDrafts' := mem_removals.mp member'
    rcases List.mem_append.mp first with inCreations | inModified
    · obtain ⟨e, member, rfl⟩ := List.mem_map.mp inCreations
      obtain ⟨center, inDrafts⟩ := mem_creations.mp member
      exact key_ne distinct inDrafts' inDrafts (by simp) same
    · obtain ⟨e, member, rfl⟩ := List.mem_map.mp inModified
      obtain ⟨d, inDrafts, modified⟩ := List.mem_filterMap.mp member
      obtain ⟨base, center, rfl⟩ := modified_eq modified
      exact key_ne distinct inDrafts' inDrafts (by simp) same

/-! ## What the reference checks promise -/

theorem known_of_mem (distinct : (drafts.map Draft.key).Nodup) {d : Draft} (member : d ∈ drafts) :
    known drafts d.key = some d.deleted := by
  rw [known]
  cases found : drafts.reverse.find? fun d' => d'.key = d.key with
  | none =>
      rw [List.find?_eq_none] at found
      exact absurd (decide_eq_true rfl) (found d (List.mem_reverse.mpr member))
  | some d' =>
      have inDrafts := List.mem_reverse.mp (List.mem_of_find?_eq_some found)
      have same : d'.key = d.key := by simpa using List.find?_some found
      rw [List.inj_on_of_nodup_map distinct inDrafts member same, Option.map_some]

/-- An object that exists has no deletion, and a placeholder that exists is created. -/
theorem alive_iff (restorable : Restorable drafts) {r : Key} (exists' : alive drafts r = true) :
    r ∉ (removals drafts).map Element.key ∧
      (r.2 < 0 → ∃ f ∈ creations drafts, f.key = r) := by
  rw [alive] at exists'
  constructor
  · intro deleted
    obtain ⟨e, member, rfl⟩ := List.mem_map.mp deleted
    have entry := known_of_mem restorable.distinct (mem_removals.mp member)
    simp only [show e.key = (Draft.deletion e).key from rfl, entry, Draft.deleted] at exists'
    cases exists'
  · intro negative
    cases entry : known drafts r with
    | none =>
        simp only [entry, decide_eq_true_eq] at exists'
        omega
    | some deleted =>
        simp only [entry, Bool.not_eq_true'] at exists'
        subst exists'
        obtain ⟨d, found, live⟩ := Option.map_eq_some_iff.mp entry
        have member := List.mem_reverse.mp (List.mem_of_find?_eq_some found)
        have same : d.key = r := by simpa using List.find?_some found
        have valid := restorable.valid d member
        cases d with
        | deletion base => cases live
        | edit base value center =>
            cases base with
            | none => exact ⟨value, mem_creations.mpr ⟨center, member⟩, same⟩
            | some base =>
                have positive := valid.2.1.identity.2
                simp only [Option.isNone_some, Bool.false_eq_true, if_false] at positive
                have id : value.id = r.2 := congrArg Prod.snd same
                omega

/-- The checked references of a draft exist. -/
theorem alive_of_checkedRefs (restorable : Restorable drafts) {d : Draft} {v : Element}
    (member : d ∈ drafts) (value : d.value = some v) : ∀ r ∈ checkedRefs v, alive drafts r := by
  have none : unresolved drafts v = [] := by
    have issues := restorable.resolved
    simp only [collectIssues, List.append_eq_nil_iff, List.flatMap_eq_nil_iff] at issues
    exact issues.1.1 v (List.mem_filterMap.mpr ⟨d, member, value⟩)
  intro r reference
  rw [checkedRefs] at reference
  rw [unresolved.eq_def] at none
  split at reference
  · next nodes body =>
      simp only [body, List.map_eq_nil_iff, List.filter_eq_nil_iff] at none
      obtain ⟨n, inNodes, rfl⟩ := List.mem_map.mp reference
      simpa using none n inNodes
  · next members body =>
      simp only [body, List.map_eq_nil_iff, List.filter_eq_nil_iff] at none
      obtain ⟨m, inMembers, rfl⟩ := List.mem_map.mp reference
      simpa using none m inMembers
  · cases reference

/-- A modified object has a plain type. -/
theorem plain_of_modified (restorable : Restorable drafts) {d : Draft} {e : Element}
    (member : d ∈ drafts) (modified : d.modified = some e) {kind : Kind} {more : ℕ}
    {members : List Member} : e.body ≠ .group (.wrapped kind more) members := by
  intro body
  obtain ⟨base, center, rfl⟩ := modified_eq modified
  have checked := (restorable.valid _ member).2.2.1
  simp only [checkEdit] at checked
  split_ifs at checked with different
  simp [TypeName.same, Element.type, body, Body.type, GroupType.typeName] at different

/-! ## The order of the blocks -/

theorem creations_nodup (restorable : Restorable drafts) : (creations drafts).Nodup :=
  (restorable.distinct.sublist (keys_sublist created_key drafts)).of_map _

theorem removals_nodup (restorable : Restorable drafts) : (removals drafts).Nodup :=
  (restorable.distinct.sublist (keys_sublist removed_key drafts)).of_map _

theorem before_create_iff (restorable : Restorable drafts) {f e : Element} :
    Before (groups drafts).create f e ↔ Precedes (creations drafts) f e := by
  have order := @before_mergeSort_iff Element (fun a b : Element => rank a ≤ rank b)
    (fun a b c first second => by
      simp only [decide_eq_true_eq] at first second ⊢
      exact first.trans second)
    (fun a b => by simpa using Nat.le_total (rank a) (rank b)) (creations drafts)
    (creations_nodup restorable) f e
  refine order.trans ?_
  rw [Precedes]
  simp only [decide_eq_false_iff_not, decide_eq_true_eq, not_le]
  refine and_congr_right fun _ => and_congr_right fun _ => or_congr_right ?_
  exact ⟨fun ⟨back, forward, before⟩ => ⟨Nat.le_antisymm forward back, before⟩,
    fun ⟨same, before⟩ => ⟨same.ge, same.le, before⟩⟩

theorem before_delete_iff (restorable : Restorable drafts) {f e : Element} :
    Before (groups drafts).delete f e ↔ f ∈ removals drafts ∧ e ∈ removals drafts ∧
      (rank e < rank f ∨ rank e = rank f ∧ Before (removals drafts) f e) := by
  have order := @before_mergeSort_iff Element (fun a b : Element => rank b ≤ rank a)
    (fun a b c first second => by
      simp only [decide_eq_true_eq] at first second ⊢
      exact second.trans first)
    (fun a b => by simpa using Nat.le_total (rank b) (rank a)) (removals drafts)
    (removals_nodup restorable) f e
  refine order.trans ?_
  simp only [decide_eq_false_iff_not, decide_eq_true_eq, not_le]
  refine and_congr_right fun _ => and_congr_right fun _ => or_congr_right ?_
  exact ⟨fun ⟨back, forward, before⟩ => ⟨Nat.le_antisymm forward back, before⟩,
    fun ⟨same, before⟩ => ⟨same.ge, same.le, before⟩⟩

theorem mem_create {e : Element} : e ∈ (groups drafts).create ↔ e ∈ creations drafts :=
  (List.mergeSort_perm _ _).mem_iff

theorem mem_delete {e : Element} : e ∈ (groups drafts).delete ↔ e ∈ removals drafts :=
  (List.mergeSort_perm _ _).mem_iff

theorem delete_keys {r : Key} : r ∈ (groups drafts).delete.map Element.key ↔
    r ∈ (removals drafts).map Element.key :=
  ((List.mergeSort_perm _ _).map _).mem_iff

/-- What a created object of a plain type references exists. -/
theorem alive_of_creation (restorable : Restorable drafts) {e : Element}
    (member : e ∈ creations drafts) : ∀ r ∈ checkedRefs e, alive drafts r := by
  obtain ⟨center, inDrafts⟩ := mem_creations.mp member
  exact alive_of_checkedRefs restorable inDrafts rfl

/-- The placeholders are created earlier when the drafts are arranged. -/
theorem precedes_of_arranged (restorable : Restorable drafts) (arranged : Arranged drafts)
    {e : Element} (member : e ∈ creations drafts) {r : Key} (reference : r ∈ references e)
    (negative : r.2 < 0) (other : r ≠ e.key) :
    ∃ f, f.key = r ∧ Precedes (creations drafts) f e := by
  rw [references] at reference
  split at reference
  · cases reference
  · next nodes body =>
      have checked : r ∈ checkedRefs e := by rwa [checkedRefs, body]
      obtain ⟨f, created, rfl⟩ :=
        (alive_iff restorable (alive_of_creation restorable member r checked)).2 negative
      obtain ⟨n, -, same⟩ := List.mem_map.mp reference
      have lower : rank f < rank e := by
        rw [rank_eq f, ← same, rank, Element.type, body]
        exact Nat.zero_lt_one
      exact ⟨f, rfl, created, member, .inl lower⟩
  · next type members body =>
      obtain ⟨m, inMembers, rfl⟩ := List.mem_map.mp reference
      cases type with
      | wrapped kind more =>
          exact (arranged.wrapped e member kind more members body m inMembers).1 negative other
      | relation =>
          have top : rank e = 2 := by rw [rank, Element.type, body]; rfl
          by_cases relation : m.type.kind = .relation
          · obtain ⟨f, same, before⟩ :=
              arranged.relations e member members body m inMembers relation negative other
            have equal : rank f = rank e := by
              rw [rank_eq f, same, top]
              change m.type.kind.rank = 2
              rw [relation]
              rfl
            exact ⟨f, same, before.mem.1, member, .inr ⟨equal, before⟩⟩
          · have checked : m.key ∈ checkedRefs e := by rwa [checkedRefs, body]
            obtain ⟨f, created, same⟩ :=
              (alive_iff restorable (alive_of_creation restorable member _ checked)).2 negative
            have lower : rank f < rank e := by
              rw [rank_eq f, same, top]
              change m.type.kind.rank < 2
              cases kind : m.type.kind with
              | node | way => decide
              | relation => exact absurd kind relation
            exact ⟨f, same, created, member, .inl lower⟩

/-- Nothing that is kept references a deleted object. -/
theorem kept_of_arranged (restorable : Restorable drafts) (arranged : Arranged drafts)
    {e : Element} (member : e ∈ (groups drafts).create ++ (groups drafts).modify) {r : Key}
    (reference : r ∈ references e) : r ∉ (groups drafts).delete.map Element.key := by
  rw [delete_keys]
  have plain : (∃ d ∈ drafts, d.value = some e) := by
    rcases List.mem_append.mp member with created | modified
    · obtain ⟨center, inDrafts⟩ := mem_creations.mp (mem_create.mp created)
      exact ⟨_, inDrafts, rfl⟩
    · obtain ⟨d, inDrafts, selected⟩ := List.mem_filterMap.mp modified
      obtain ⟨base, center, rfl⟩ := modified_eq selected
      exact ⟨_, inDrafts, rfl⟩
  obtain ⟨d, inDrafts, value⟩ := plain
  have all := alive_of_checkedRefs restorable inDrafts value
  rw [references] at reference
  split at reference
  · cases reference
  · next nodes body =>
      exact (alive_iff restorable (all r (by rwa [checkedRefs, body]))).1
  · next type members body =>
      cases type with
      | relation => exact (alive_iff restorable (all r (by rwa [checkedRefs, body]))).1
      | wrapped kind more =>
          obtain ⟨m, inMembers, rfl⟩ := List.mem_map.mp reference
          rcases List.mem_append.mp member with created | modified
          · exact (arranged.wrapped e (mem_create.mp created) kind more members body m inMembers).2
          · obtain ⟨d', inDrafts', selected⟩ := List.mem_filterMap.mp modified
            exact absurd body (plain_of_modified restorable inDrafts' selected)

/-- What a modified object references is created when it is a placeholder. -/
theorem created_of_modified (restorable : Restorable drafts) {e : Element}
    (member : e ∈ (groups drafts).modify) {r : Key} (reference : r ∈ references e)
    (negative : r.2 < 0) : r ∈ (groups drafts).create.map Element.key := by
  obtain ⟨d, inDrafts, selected⟩ := List.mem_filterMap.mp member
  have checked : r ∈ checkedRefs e := by
    rw [references] at reference
    split at reference
    · cases reference
    · next nodes body => rwa [checkedRefs, body]
    · next type members body =>
        cases type with
        | relation => rwa [checkedRefs, body]
        | wrapped kind more => exact absurd body (plain_of_modified restorable inDrafts selected)
  obtain ⟨base, center, rfl⟩ := modified_eq selected
  obtain ⟨f, created, same⟩ :=
    (alive_iff restorable (alive_of_checkedRefs restorable inDrafts rfl r checked)).2 negative
  exact List.mem_map.mpr ⟨f, mem_create.mpr created, same⟩

/-- No deleted object comes after one it references. -/
theorem deleted_of_arranged (restorable : Restorable drafts) (arranged : Arranged drafts)
    {e f : Element} (before : Before (groups drafts).delete f e) : f.key ∉ references e := by
  obtain ⟨inRemovals', inRemovals, order⟩ := (before_delete_iff restorable).mp before
  intro reference
  have shape := reference
  rw [references] at shape
  split at shape
  · cases shape
  · next nodes body =>
      obtain ⟨n, -, same⟩ := List.mem_map.mp shape
      have top : rank e = 1 := by rw [rank, Element.type, body]; rfl
      have bottom : rank f = 0 := by rw [rank_eq f, ← same]; rfl
      omega
  · next type members body =>
      cases type with
      | wrapped kind more =>
          exact arranged.deletedWrapped e f inRemovals inRemovals' order kind more members body
            reference
      | relation =>
          have top : rank e = 2 := by rw [rank, Element.type, body]; rfl
          have most : rank f ≤ 2 := by
            rw [rank]
            cases f.type.kind <;> decide
          rcases order with less | ⟨equal, earlier⟩
          · omega
          · have relation : f.type.kind = .relation := by
              have high : f.type.kind.rank = 2 := by
                rw [← top, equal, rank]
              cases kind : f.type.kind with
              | node | way => simp [kind, Kind.rank] at high
              | relation => rfl
            exact arranged.deletedRelations e f earlier members body relation reference

end Accepted

/-- **A change file is in order exactly when its drafts are arranged.** -/
theorem uploadable_iff {raw : List Value} {drafts : List Draft} {doc : Document}
    (accepted : osc raw = .ok doc) (read : raw.mapM validateDraft = .ok drafts) :
    Uploadable doc ↔ Arranged drafts := by
  obtain ⟨validated, again, restorable, rfl⟩ := osc_ok_iff.mp accepted
  rw [read, Except.ok.injEq] at again
  subst again
  constructor
  · intro uploadable
    refine ⟨?_, ?_, ?_, ?_⟩
    · intro e member members body m inMembers relation negative other
      obtain ⟨f, same, before⟩ := uploadable.created e (mem_create.mpr member) m.key
        (by rw [references, body]; exact List.mem_map_of_mem inMembers) negative other
      obtain ⟨-, -, order⟩ := (before_create_iff restorable).mp before
      have equal : rank f = rank e := by
        rw [rank_eq f, same, rank, Element.type, body]
        change m.type.kind.rank = 2
        rw [relation]
        rfl
      exact ⟨f, same, (order.resolve_left equal.not_lt).2⟩
    · intro e f before members body relation
      have equal : rank e = rank f := by
        rw [rank, rank, Element.type, body, relation]
        rfl
      exact uploadable.deleted e f ((before_delete_iff restorable).mpr
        ⟨before.mem.1, before.mem.2, .inr ⟨equal, before⟩⟩)
    · intro e member kind more members body m inMembers
      have reference : m.key ∈ references e := by
        rw [references, body]
        exact List.mem_map_of_mem inMembers
      refine ⟨fun negative other => ?_, ?_⟩
      · obtain ⟨f, same, before⟩ :=
          uploadable.created e (mem_create.mpr member) m.key reference negative other
        exact ⟨f, same, (before_create_iff restorable).mp before⟩
      · rw [← delete_keys]
        exact uploadable.kept e (List.mem_append_left _ (mem_create.mpr member)) _ reference
    · intro e f member member' order kind more members body
      exact uploadable.deleted e f ((before_delete_iff restorable).mpr ⟨member', member, order⟩)
  · intro arranged
    refine ⟨document_distinct restorable.distinct, ?_, ?_, ?_, ?_⟩
    · intro e member r reference negative other
      obtain ⟨f, same, precedes⟩ := precedes_of_arranged restorable arranged
        (mem_create.mp member) reference negative other
      exact ⟨f, same, (before_create_iff restorable).mpr precedes⟩
    · intro e member r reference negative
      exact created_of_modified restorable member reference negative
    · intro e member r reference
      exact kept_of_arranged restorable arranged member reference
    · intro e f before
      exact deleted_of_arranged restorable arranged before

/-! ### Two new relations -/

/-- A new relation with a name. -/
def newRelation (id : ℤ) (members : List Member) : Element where
  id := id
  version := none
  tags := [(text "type", text "route")]
  body := .group .relation members

def inner : Element := newRelation (-2) []

/-- A relation that contains another new one. -/
def outer : Element := newRelation (-1) [⟨.plain .relation, -2, []⟩]

def creationOf (e : Element) : Draft := .edit none e none

theorem restorable_of_read {drafts : List Draft} (few : drafts.length ≤ 100)
    (read : (drafts.map Draft.toValue).mapM validateDraft = .ok drafts)
    (distinct : (drafts.map Draft.key).Nodup) (resolved : collectIssues drafts = []) :
    Restorable drafts :=
  ⟨few, (valid_of_mapM read).2, distinct, resolved⟩

theorem restorable_outerFirst : Restorable [creationOf outer, creationOf inner] :=
  restorable_of_read (by decide) (by decide +kernel) (by decide +kernel) (by decide +kernel)

theorem restorable_innerFirst : Restorable [creationOf inner, creationOf outer] :=
  restorable_of_read (by decide) (by decide +kernel) (by decide +kernel) (by decide +kernel)

theorem osc_toValue {drafts : List Draft} (restorable : Restorable drafts) :
    osc (drafts.map Draft.toValue) = .ok (groups drafts) :=
  osc_ok_iff.mpr ⟨drafts, mapM_validateDraft_toValue restorable.valid, restorable, rfl⟩

/-- The relation that is contained is created first. -/
theorem uploadable_innerFirst : Uploadable (groups [creationOf inner, creationOf outer]) := by
  refine (uploadable_iff (osc_toValue restorable_innerFirst)
    (mapM_validateDraft_toValue restorable_innerFirst.valid)).mpr ⟨?_, ?_, ?_, ?_⟩
  · intro e member members body m inMembers _ _ _
    have either : e = inner ∨ e = outer := by simpa [creations, creationOf, Draft.created] using member
    rcases either with rfl | rfl
    · cases body
      cases inMembers
    · cases body
      obtain rfl := List.mem_singleton.mp inMembers
      exact ⟨inner, rfl, List.Sublist.refl _⟩
  · intro e f before
    cases before.mem.1
  · intro e member kind more members body
    have either : e = inner ∨ e = outer := by simpa [creations, creationOf, Draft.created] using member
    rcases either with rfl | rfl <;> cases body
  · intro e f member
    cases member

/-- The relation that contains the other one is created first. -/
theorem not_uploadable_outerFirst :
    ∃ doc, osc ([creationOf outer, creationOf inner].map Draft.toValue) = .ok doc ∧
      ¬ Uploadable doc := by
  refine ⟨_, osc_toValue restorable_outerFirst, fun uploadable => ?_⟩
  obtain ⟨f, same, before⟩ := uploadable.created outer
    (mem_create.mpr (by decide +kernel)) (.relation, -2) (by decide) (by decide) (by decide)
  obtain ⟨member, -, order⟩ := (before_create_iff restorable_outerFirst).mp before
  have either : f = outer ∨ f = inner := by
    simpa [creations, creationOf, Draft.created] using member
  rcases either with rfl | rfl
  · exact absurd same (by decide)
  · exact absurd order (by decide +kernel)

end OsmMini.Cmd.Editor

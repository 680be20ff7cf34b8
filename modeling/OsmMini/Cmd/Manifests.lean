import OsmMini.Cmd.Basic
import OsmMini.Core.Types
import OsmMini.Foundations.Buckets
import OsmMini.Foundations.SortSlice

/-!
# Dispatch manifests

The parcels of an input are grouped by a property of their territories, and the rows of each
group are written to a file of their own. The file is named after the group, but blanks around
the name are dropped and characters that are special in paths are replaced.

Two groups whose names differ only in such characters get one file, and the later group
overwrites the earlier one. All rows are kept exactly when no two groups are named alike
(`runDispatchManifests_conserved`).
-/

set_option autoImplicit false

namespace OsmMini.Cmd.Manifests

open OsmMini.Core OsmMini.Foundations

section Manifests

variable {V : Type}

/-- A row of the input with all its columns. -/
structure ParcelRow where
  fields : GoMap String String

/-- The territory of a parcel. `V` is the type of its property values. -/
structure TerritoryAssignment (V : Type) where
  territoryID : String
  isMatched : Bool
  properties : GoMap String V

/-- The rows with the assignments that the territories give for their points, in order. -/
abbrev Shipments (V : Type) := List (ParcelRow × TerritoryAssignment V)

/-- The files of the output directory, as records of texts. -/
abbrev Directory := GoMap String (List (List String))

def sanitizeManifestName (name : String) : String :=
  let name := trimSpace name
  if name = "" then "UNASSIGNED"
  else
    String.ofList (name.toList.map fun r =>
      if r ∈ ['/', '\\', ':', '*', '?', '"', '<', '>', '|'] then '_' else r)

def manifestPath (group : String) : String := sanitizeManifestName group ++ ".csv"

variable (propertyString : V → String) (groupBy : String)

/-- The group of an assignment. -/
def groupOf (a : TerritoryAssignment V) : String :=
  if a.isMatched then
    match a.properties.lookup groupBy with
    | some v => propertyString v
    | none => "UNASSIGNED"
  else "UNASSIGNED"

/-- Add the next assignment to its group, and a new group to the order of groups. -/
def addToGroup (state : GoMap String (List ℕ) × List String) (a : TerritoryAssignment V × ℕ) :
    GoMap String (List ℕ) × List String :=
  let group := groupOf propertyString groupBy a.1
  let order := if (state.1.lookup group).isSome then state.2 else state.2 ++ [group]
  (push state.1 group a.2, order)

def manifestGroups (shipments : Shipments V) : GoMap String (List ℕ) × List String :=
  (shipments.map Prod.snd).zipIdx.foldl (addToGroup propertyString groupBy) (∅, [])

/-- The record of a row: its input columns and its territory. -/
def manifestRecord (header : List String) (shipment : ParcelRow × TerritoryAssignment V) :
    List String :=
  header.map (fun h => (shipment.1.fields.lookup h).getD "") ++ [shipment.2.territoryID]

/-- The records of a manifest: the header and the rows of a group. -/
def writeManifestCSV (header : List String) (shipments : Shipments V) (indices : List ℕ) :
    List (List String) :=
  (header ++ ["territory_id"]) ::
    indices.filterMap fun i => shipments[i]?.map (manifestRecord header)

/-- The groups in the order in which their manifests are written. -/
def groupOrder (shipments : Shipments V) : List String :=
  sortSlice (fun a b => decide (a < b)) (manifestGroups propertyString groupBy shipments).2

def runDispatchManifests (header : List String) (shipments : Shipments V) (dir : Directory) :
    Directory :=
  (groupOrder propertyString groupBy shipments).foldl (fun dir group =>
    dir.insert (manifestPath group) (writeManifestCSV header shipments
      (bucket (manifestGroups propertyString groupBy shipments).1 group))) dir

/-- The files that a run creates. -/
def writtenFiles (shipments : Shipments V) : List String :=
  (groupOrder propertyString groupBy shipments).map manifestPath

/-- No shipment is lost: each row is in exactly one of the written files, once, and rows of
different groups are in different files. -/
structure Conserved (header : List String) (shipments : Shipments V) (dir : Directory)
    (fileOf : ℕ → String) : Prop where
  written : ∀ i < shipments.length,
    fileOf i ∈ writtenFiles propertyString groupBy shipments
  rows : ∀ file ∈ writtenFiles propertyString groupBy shipments, ∃ records,
    dir.lookup file = some ((header ++ ["territory_id"]) :: records) ∧
      records.Perm (((List.range shipments.length).filter fun i => fileOf i = file).filterMap
        fun i => shipments[i]?.map (manifestRecord header))
  apart : ∀ (i j : ℕ) (a b : ParcelRow × TerritoryAssignment V),
    shipments[i]? = some a → shipments[j]? = some b → fileOf i = fileOf j →
      groupOf propertyString groupBy a.2 = groupOf propertyString groupBy b.2

/-- No two groups are named alike. -/
def NamedApart (shipments : Shipments V) : Prop :=
  ∀ a ∈ shipments, ∀ b ∈ shipments,
    sanitizeManifestName (groupOf propertyString groupBy a.2) =
        sanitizeManifestName (groupOf propertyString groupBy b.2) →
      groupOf propertyString groupBy a.2 = groupOf propertyString groupBy b.2

/-! ## Groups -/

variable {propertyString groupBy}

/-- Each group that has an entry is named once in the order. -/
structure Ordered (state : GoMap String (List ℕ) × List String) : Prop where
  nodup : state.2.Nodup
  named : ∀ group, (state.1.lookup group).isSome ↔ group ∈ state.2

theorem Ordered.add {state : GoMap String (List ℕ) × List String} (ordered : Ordered state)
    (a : TerritoryAssignment V × ℕ) :
    Ordered (addToGroup propertyString groupBy state a) ∧
      ∀ group, group ∈ (addToGroup propertyString groupBy state a).2 ↔
        group ∈ state.2 ∨ group = groupOf propertyString groupBy a.1 := by
  have order : ∀ group, group ∈ (addToGroup propertyString groupBy state a).2 ↔
      group ∈ state.2 ∨ group = groupOf propertyString groupBy a.1 := by
    intro group
    rw [addToGroup]
    dsimp only
    split
    · rename_i known
      refine ⟨.inl, fun member => member.elim id fun same => ?_⟩
      exact same ▸ (ordered.named _).mp known
    · rw [List.mem_append, List.mem_singleton]
  refine ⟨⟨?_, fun group => ?_⟩, order⟩
  · rw [addToGroup]
    dsimp only
    split
    · exact ordered.nodup
    · rename_i new
      refine List.nodup_append.mpr ⟨ordered.nodup, List.nodup_singleton _, fun b old c last same => ?_⟩
      rw [List.mem_singleton.mp last] at same
      exact new ((ordered.named _).mpr (same ▸ old))
  · rw [order, ← ordered.named, addToGroup]
    dsimp only
    by_cases same : group = groupOf propertyString groupBy a.1
    · subst same
      simp [push]
    · rw [push, AList.lookup_insert_ne same]
      simp [same]

theorem ordered_foldl (l : List (TerritoryAssignment V × ℕ)) :
    ∀ {state : GoMap String (List ℕ) × List String}, Ordered state →
      Ordered (l.foldl (addToGroup propertyString groupBy) state) ∧
      ∀ group, group ∈ (l.foldl (addToGroup propertyString groupBy) state).2 ↔
        group ∈ state.2 ∨ ∃ a ∈ l, group = groupOf propertyString groupBy a.1 := by
  induction l with
  | nil => exact fun ordered => ⟨ordered, fun group => by simp⟩
  | cons a l ih =>
      intro state ordered
      obtain ⟨next, order⟩ :
          Ordered (addToGroup propertyString groupBy state a) ∧
            ∀ group, group ∈ (addToGroup propertyString groupBy state a).2 ↔
              group ∈ state.2 ∨ group = groupOf propertyString groupBy a.1 := ordered.add a
      obtain ⟨all, members⟩ := ih next
      refine ⟨all, fun group => ?_⟩
      rw [List.foldl_cons, members, order, List.exists_mem_cons_iff, or_assoc]

theorem ordered_start : Ordered (∅, []) := ⟨.nil, fun group => by simp⟩

/-- The groups are the groups of the shipments. -/
theorem mem_groupOrder {shipments : Shipments V} {group : String} :
    group ∈ groupOrder propertyString groupBy shipments ↔
      ∃ a ∈ shipments, groupOf propertyString groupBy a.2 = group := by
  rw [groupOrder, mem_sortSlice, manifestGroups, (ordered_foldl _ ordered_start).2]
  simp only [List.not_mem_nil, false_or]
  constructor
  · rintro ⟨a, member, rfl⟩
    obtain ⟨shipment, known, same⟩ := List.mem_map.mp (List.fst_mem_of_mem_zipIdx member)
    exact ⟨shipment, known, congrArg _ same⟩
  · rintro ⟨shipment, known, rfl⟩
    obtain ⟨i, inside, found⟩ := List.getElem_of_mem (List.mem_map_of_mem (f := Prod.snd) known)
    exact ⟨(shipment.2, i), List.mem_zipIdx_iff_getElem?.mpr
      (List.getElem?_eq_some_iff.mpr ⟨inside, found⟩), rfl⟩

theorem nodup_groupOrder (shipments : Shipments V) :
    (groupOrder propertyString groupBy shipments).Nodup :=
  (sortSlice_perm _ _).nodup_iff.mpr (ordered_foldl _ ordered_start).1.nodup

/-- The positions of the elements of a kind. -/
theorem filter_zipIdx {α : Type} (p : α → Bool) (l : List α) :
    (l.zipIdx.filter fun a => p a.1).map Prod.snd =
      (List.range l.length).filter fun i => l[i]?.any p := by
  induction l using List.reverseRecOn with
  | nil => rfl
  | append_singleton l a ih =>
      have earlier : (List.range l.length).filter (fun i => (l ++ [a])[i]?.any p) =
          (List.range l.length).filter fun i => l[i]?.any p := by
        refine List.filter_congr fun i member => ?_
        rw [List.getElem?_append_left (List.mem_range.mp member)]
      rw [List.zipIdx_append, List.filter_append, List.map_append, ih, List.length_append,
        List.length_singleton, List.range_succ, List.filter_append, earlier]
      refine congrArg _ ?_
      cases kind : p a
      · simp [kind]
      · simp [kind]

/-- A group holds the indices of its shipments. -/
theorem bucket_manifestGroups {shipments : Shipments V} {group : String} :
    bucket (manifestGroups propertyString groupBy shipments).1 group =
      (List.range shipments.length).filter fun i =>
        shipments[i]?.any fun a => groupOf propertyString groupBy a.2 = group := by
  have pushed : ∀ (l : List (TerritoryAssignment V × ℕ)) state,
      (l.foldl (addToGroup propertyString groupBy) state).1 =
        (l.map (Prod.map (groupOf propertyString groupBy) id)).foldl
          (fun m entry => push m entry.1 entry.2) state.1 := by
    intro l
    induction l with
    | nil => exact fun _ => rfl
    | cons a l ih => exact fun state => ih _
  have kinds := filter_zipIdx (fun a => decide (groupOf propertyString groupBy a = group))
    (shipments.map Prod.snd)
  rw [manifestGroups, pushed, bucket_foldl_push, bucket_empty, List.nil_append, List.filter_map,
    List.map_map]
  refine Eq.trans ?_ (kinds.trans ?_)
  · rfl
  · rw [List.length_map]
    refine List.filter_congr fun i _ => ?_
    rw [List.getElem?_map, Option.any_map]

/-! ## Files -/

/-- A file that is named for one group only keeps the records of the group. -/
theorem lookup_foldl_create {α β : Type} (name : α → String) (content : α → β) {l : List α} {a : α}
    (member : a ∈ l) (unique : ∀ b ∈ l, name b = name a → b = a) : ∀ dir : GoMap String β,
    (l.foldl (fun dir b => dir.insert (name b) (content b)) dir).lookup (name a) =
      some (content a) := by
  induction l using List.reverseRecOn with
  | nil => exact absurd member List.not_mem_nil
  | append_singleton l b ih =>
      intro dir
      rw [List.foldl_append, List.foldl_cons, List.foldl_nil]
      by_cases same : name b = name a
      · have last : b = a :=
          unique b (List.mem_append_right _ (List.mem_singleton_self b)) same
        rw [last]
        exact AList.lookup_insert _
      · rw [AList.lookup_insert_ne (Ne.symm same)]
        refine ih ?_ (fun c inC => unique c (List.mem_append_left _ inC)) dir
        rcases List.mem_append.mp member with earlier | last
        · exact earlier
        · exact absurd (congrArg name (List.mem_singleton.mp last)).symm same

theorem manifestPath_inj {g h : String} :
    manifestPath g = manifestPath h ↔ sanitizeManifestName g = sanitizeManifestName h :=
  String.append_left_inj ".csv"

/-- The group of a row. -/
def groupAt (propertyString : V → String) (groupBy : String) (shipments : Shipments V) (i : ℕ) :
    String :=
  (shipments[i]?.map fun a => groupOf propertyString groupBy a.2).getD ""

/-- **No two groups named alike** keep every shipment. -/
theorem conserved_of_namedApart {shipments : Shipments V}
    (apart : NamedApart propertyString groupBy shipments) (header : List String) (dir : Directory) :
    Conserved propertyString groupBy header shipments
      (runDispatchManifests propertyString groupBy header shipments dir)
      fun i => manifestPath (groupAt propertyString groupBy shipments i) where
  written := by
    intro i inside
    refine List.mem_map_of_mem (mem_groupOrder.mpr ⟨shipments[i], List.getElem_mem inside, ?_⟩)
    rw [groupAt, List.getElem?_eq_getElem inside]
    rfl
  rows := by
    intro file member
    obtain ⟨group, known, rfl⟩ := List.mem_map.mp member
    refine ⟨_, lookup_foldl_create manifestPath _ known ?_ dir, ?_⟩
    · intro other inOrder same
      obtain ⟨a, inA, rfl⟩ := mem_groupOrder.mp known
      obtain ⟨b, inB, rfl⟩ := mem_groupOrder.mp inOrder
      exact apart b inB a inA (manifestPath_inj.mp same)
    · refine List.Perm.of_eq (congrArg (List.filterMap _) ?_)
      rw [bucket_manifestGroups]
      refine List.filter_congr fun i inside => ?_
      have known' := List.getElem?_eq_getElem (List.mem_range.mp inside)
      rw [groupAt, known']
      refine decide_eq_decide.mpr ⟨fun same => congrArg manifestPath same, fun same => ?_⟩
      obtain ⟨a, inA, rfl⟩ := mem_groupOrder.mp known
      exact apart _ (List.getElem_mem _) a inA (manifestPath_inj.mp same)
  apart := by
    intro i j a b atI atJ same
    rw [groupAt, groupAt, atI, atJ] at same
    exact apart a (List.mem_of_getElem? atI) b (List.mem_of_getElem? atJ) (manifestPath_inj.mp same)

/-- A run keeps every shipment exactly when no two groups are named alike. -/
theorem runDispatchManifests_iff (propertyString : V → String) (groupBy : String)
    (header : List String) (shipments : Shipments V) (dir : Directory) :
    (∃ fileOf, Conserved propertyString groupBy header shipments
      (runDispatchManifests propertyString groupBy header shipments dir) fileOf) ↔
      NamedApart propertyString groupBy shipments := by
  constructor
  · rintro ⟨fileOf, conserved⟩
    let groups := (groupOrder propertyString groupBy shipments).toFinset
    have someRow : ∀ group ∈ groups, ∃ i : ℕ, ∃ a : ParcelRow × TerritoryAssignment V,
        shipments[i]? = some a ∧ groupOf propertyString groupBy a.2 = group := by
      intro group member
      obtain ⟨a, known, same⟩ := mem_groupOrder.mp (List.mem_toFinset.mp member)
      obtain ⟨i, inside, found⟩ := List.getElem_of_mem known
      exact ⟨i, a, List.getElem?_eq_some_iff.mpr ⟨inside, found⟩, same⟩
    choose! row found using someRow
    -- As many files are needed as there are groups, so no two groups share a name.
    have different : Set.InjOn (fun group => fileOf (row group)) groups := by
      intro g inG h inH same
      obtain ⟨a, atG, rfl⟩ := found g inG
      obtain ⟨b, atH, rfl⟩ := found h inH
      exact conserved.apart _ _ a b atG atH same
    have created : Set.MapsTo (fun group => fileOf (row group)) groups
        (groups.image manifestPath) := by
      intro g inG
      obtain ⟨a, at', -⟩ := found g inG
      have inside := (List.getElem?_eq_some_iff.mp at').1
      obtain ⟨h, known, same⟩ := List.mem_map.mp (conserved.written _ inside)
      exact Finset.mem_coe.mpr (Finset.mem_image.mpr ⟨h, List.mem_toFinset.mpr known, same⟩)
    have enough : groups.card ≤ (groups.image manifestPath).card :=
      Finset.card_le_card_of_injOn _ created different
    have injective : Set.InjOn manifestPath groups :=
      Finset.card_image_iff.mp (le_antisymm Finset.card_image_le enough)
    intro a inA b inB same
    exact injective (List.mem_toFinset.mpr (mem_groupOrder.mpr ⟨a, inA, rfl⟩))
      (List.mem_toFinset.mpr (mem_groupOrder.mpr ⟨b, inB, rfl⟩)) (manifestPath_inj.mpr same)
  · exact fun apart => ⟨_, conserved_of_namedApart apart header dir⟩

end Manifests

/-! ## Shipments that are lost -/

/-- Two parcels whose territories name their vehicles alike but for a character. -/
def collidingShipments : Shipments String :=
  [(⟨(∅ : GoMap String String).insert "parcel_id" "1"⟩,
      ⟨"north", true, (∅ : GoMap String String).insert "vehicle" "van/1"⟩),
    (⟨(∅ : GoMap String String).insert "parcel_id" "2"⟩,
      ⟨"south", true, (∅ : GoMap String String).insert "vehicle" "van_1"⟩)]

end OsmMini.Cmd.Manifests

import Mathlib.Tactic.Push
import OsmMini.Cmd.Editor.Values

/-!
# Drafts of the editor

A draft is a change of one object of OpenStreetMap: a creation, a modification of a base
version, or a deletion. `validateDraft` reads a draft from a value and normalises it,
`collectIssues` checks the references between the drafts, and `osc` arranges the drafts in the
blocks of a change file.

A value that passes is normalised at once: what `validateDraft` returns is written and read
back as it is (`validateDraft_toValue`).
-/

set_option autoImplicit false

namespace OsmMini.Cmd.Editor

/-- The three types of objects. -/
inductive Kind where
  | node
  | way
  | relation
  deriving DecidableEq, Repr

namespace Kind

def name : Kind → String
  | .node => "node"
  | .way => "way"
  | .relation => "relation"

/-- `TYPE_RANK` -/
def rank : Kind → ℕ
  | .node => 0
  | .way => 1
  | .relation => 2

/-- `KIND_WORD` -/
def word : Kind → String
  | .node => "Knoten"
  | .way => "Weg"
  | .relation => "Relation"

def ofText (s : Text) : Option Kind :=
  if s = text "node" then some .node
  else if s = text "way" then some .way
  else if s = text "relation" then some .relation
  else none

theorem ofText_name (k : Kind) : ofText (text k.name) = some k := by
  cases k <;> decide

end Kind

/-- A type as it stands in a value. The lookup among the ranks turns its key into a string, so
that an array around the name of a type is accepted; but it is strictly equal to nothing. -/
structure TypeName where
  kind : Kind
  /-- The number of arrays around the name. -/
  wraps : ℕ
  deriving DecidableEq, Repr

namespace TypeName

def plain (kind : Kind) : TypeName := ⟨kind, 0⟩

/-- Strict equality: two arrays are never the same one. -/
def same (a b : TypeName) : Bool := a.wraps = 0 && b.wraps = 0 && a.kind = b.kind

def read : Value → Option TypeName
  | .string s => (Kind.ofText s).map .plain
  | .array [value] => (read value).map fun inner => ⟨inner.kind, inner.wraps + 1⟩
  | _ => none

def wrap (kind : Kind) : ℕ → Value
  | 0 => .string (text kind.name)
  | wraps + 1 => .array [wrap kind wraps]

def toValue (type : TypeName) : Value := wrap type.kind type.wraps

theorem read_wrap (kind : Kind) : ∀ wraps : ℕ, read (wrap kind wraps) = some ⟨kind, wraps⟩
  | 0 => by rw [wrap, read, Kind.ofText_name]; rfl
  | wraps + 1 => by rw [wrap, read, read_wrap kind wraps]; rfl

theorem read_toValue (type : TypeName) : read type.toValue = some type := read_wrap _ _

end TypeName

/-- The tags of an object, in the order in which they were set. -/
abbrev Tags := List (Text × Text)

/-- A member of a relation. -/
structure Member where
  type : TypeName
  ref : ℤ
  role : Text
  deriving DecidableEq, Repr

/-- The type of an object with members: relations, and every type that is no plain string. -/
inductive GroupType where
  | relation
  | wrapped (kind : Kind) (more : ℕ)
  deriving DecidableEq, Repr

def GroupType.typeName : GroupType → TypeName
  | .relation => .plain .relation
  | .wrapped kind more => ⟨kind, more + 1⟩

/-- What an object of each type consists of. -/
inductive Body where
  | node (lon lat : ℚ)
  | way (nodes : List ℤ)
  | group (type : GroupType) (members : List Member)
  deriving DecidableEq, Repr

def Body.type : Body → TypeName
  | .node .. => .plain .node
  | .way .. => .plain .way
  | .group type _ => type.typeName

/-- An object of OpenStreetMap. A created one has no version. -/
structure Element where
  id : ℤ
  version : Option ℤ
  tags : Tags
  body : Body
  deriving DecidableEq, Repr

/-- The key of an object: its type and ID as a string. -/
abbrev Key := Kind × ℤ

namespace Element

def type (e : Element) : TypeName := e.body.type

def key (e : Element) : Key := (e.type.kind, e.id)

end Element

def Member.key (m : Member) : Key := (m.type.kind, m.ref)

/-- A change of one object. -/
inductive Draft where
  | deletion (base : Element)
  | edit (base : Option Element) (value : Element) (center : Option (ℚ × ℚ))
  deriving DecidableEq, Repr

namespace Draft

def deleted : Draft → Bool
  | .deletion _ => true
  | .edit .. => false

/-- The object of a draft: its base when it is deleted. -/
def element : Draft → Element
  | .deletion base => base
  | .edit _ value _ => value

def base : Draft → Option Element
  | .deletion base => some base
  | .edit base _ _ => base

/-- The value of a draft that is no deletion. -/
def value : Draft → Option Element
  | .deletion _ => none
  | .edit _ value _ => some value

/-- `keyOf` -/
def key (d : Draft) : Key := d.element.key

end Draft

/-! ## Reading -/

def validID (n : ℤ) : Bool := 0 < n

def refID (n : ℤ) : Bool := n ≠ 0

/-- Add one tag. A pair that is empty altogether is left out. -/
def addTag (out : Tags) (entry : Text × Value) : Except String Tags :=
  match entry with
  | (k, .string v) =>
    if k = [] ∧ v = [] then .ok out
    else if k = [] ∨ 255 < k.length ∨ 255 < v.length ∨ !xmlText k ∨ !xmlText v then
      .error ("Tags benötigen einen Schlüssel und gültigen Text mit maximal 255 Zeichen " ++
        "pro Feld.")
    else if k ∈ out.map Prod.fst then
      .error ("Doppelter Tag-Schlüssel: " ++ String.ofList (k.map Char.ofNat))
    else .ok (out ++ [(k, v)])
  | _ => .error "Tags müssen Text sein."

def tags (entries : List (Text × Value)) : Except String Tags :=
  if 200 < entries.length then .error "Maximal 200 Tags pro Objekt."
  else entries.foldlM addTag []

/-- The role of a member; a value that counts as false stands for the empty one. -/
def readRole (raw : Value) : Option Text :=
  match raw.get "role" with
  | none | some .null | some (.bool false) => some []
  | some (.number q) => if q = 0 then some [] else none
  | some (.string role) => some role
  | _ => none

def member (raw : Value) : Except String Member :=
  match (raw.get "type").bind TypeName.read, raw.integer "ref" with
  | some type, some ref =>
    if !refID ref then .error "Ungültiges Relationsmitglied."
    else
      match readRole raw with
      | some role =>
        if 255 < role.length ∨ !xmlText role then .error "Ungültige Rolle in einer Relation."
        else .ok ⟨type, ref, role⟩
      | none => .error "Ungültige Rolle in einer Relation."
  | _, _ => .error "Ungültiges Relationsmitglied."

/-- The ID and the version of an object, or of one to be created. -/
def readIdentity (raw : Value) (create : Bool) : Option (ℤ × Option ℤ) :=
  if create then
    (raw.integer "id").bind fun id => if id < 0 then some (id, none) else none
  else
    (raw.integer "id").bind fun id => (raw.integer "version").bind fun version =>
      if validID id && validID version then some (id, some version) else none

def readTags (raw : Value) : Except String Tags :=
  match raw.get "tags" with
  | none => tags []
  | some (.object entries) => tags entries
  | _ => .error "Ungültige Tags."

def readRef (value : Value) : Option ℤ :=
  value.safeInteger.bind fun n => if refID n then some n else none

def readBody (raw : Value) (type : TypeName) : Except String Body :=
  if type = .plain .node then
    match raw.finite "lon", raw.finite "lat" with
    | some lon, some lat =>
      if 180 < |lon| ∨ 90 < |lat| then .error "Ungültige Punktkoordinaten."
      else .ok (.node lon lat)
    | _, _ => .error "Ungültige Punktkoordinaten."
  else if type = .plain .way then
    match raw.get "nodes" with
    | some (.array nodes) =>
      if nodes.length < 2 ∨ 2000 < nodes.length then .error "Unvollständige Wegreferenzen."
      else
        match nodes.mapM readRef with
        | some refs => .ok (.way refs)
        | none => .error "Unvollständige Wegreferenzen."
    | _ => .error "Unvollständige Wegreferenzen."
  else
    match raw.get "members" with
    | some (.array members) =>
      if 300 < members.length then .error "Eine Relation darf höchstens 300 Mitglieder haben."
      else
        let group := match type.wraps with
          | 0 => GroupType.relation
          | more + 1 => GroupType.wrapped type.kind more
        (members.mapM member).map fun members => .group group members
    | _ => .error "Eine Relation benötigt eine Mitgliederliste."

/-- Whether an object is marked as no longer visible. -/
def invisible (raw : Value) : Bool :=
  match raw.get "visible" with
  | some (.bool false) => true
  | _ => false

def element (raw : Value) (create : Bool) : Except String Element :=
  match (raw.get "type").bind TypeName.read, readIdentity raw create with
  | some type, some (id, version) =>
    if invisible raw then
      .error "Objekt ohne gültige ID/Version oder nicht mehr sichtbar."
    else do
      let tags ← readTags raw
      let body ← readBody raw type
      .ok ⟨id, version, tags, body⟩
  | _, _ => .error "Objekt ohne gültige ID/Version oder nicht mehr sichtbar."

/-- A map position: two finite numbers on the globe. -/
def viewCenter : Option Value → Option (ℚ × ℚ)
  | some (.array [.number lon, .number lat]) =>
    if |lon| ≤ 180 ∧ |lat| ≤ 90 then some (lon, lat) else none
  | _ => none

/-- A property that counts as true. -/
def truthy (raw : Value) (name : String) : Option Value :=
  match raw.get name with
  | none | some .null | some (.bool false) | some (.string []) => none
  | some (.number q) => if q = 0 then none else some (.number q)
  | some value => some value

/-- Whether some tag has more than white space as its value. -/
def describes (tags : Tags) : Bool := tags.any fun tag => hasText tag.2

def isDeletion (raw : Value) : Bool :=
  match raw.get "deleted" with
  | some (.bool true) => true
  | _ => false

/-- The checks between the base and the value of a draft. -/
def checkEdit (base : Option Element) (value : Element) : Except String Unit :=
  match base with
  | some base =>
    if !base.type.same value.type ∨ base.id ≠ value.id ∨ base.version ≠ value.version then
      .error ("Typ, ID und Version eines bestehenden Objekts dürfen sich nicht ändern.")
    else .ok ()
  | none =>
    if value.type ≠ .plain .node ∧ !describes value.tags then
      .error ("Ein neuer Weg oder eine neue Relation benötigt mindestens eine Eigenschaft.")
    else .ok ()

/-- The base of a draft, which a creation does not have. -/
def readBase (raw : Value) : Except String (Option Element) :=
  match truthy raw "base" with
  | none => .ok none
  | some base => (element base false).map some

def validateDraft (raw : Value) : Except String Draft :=
  if isDeletion raw then
    match truthy raw "base" with
    | none => .error "Nur bereits gespeicherte Objekte können gelöscht werden."
    | some base => (element base false).map .deletion
  else do
    let base ← readBase raw
    let value ← element ((raw.get "value").getD .null) base.isNone
    checkEdit base value
    .ok (.edit base value (viewCenter (raw.get "center")))

/-! ## Writing -/

def Member.toValue (m : Member) : Value :=
  .object
    [(text "type", m.type.toValue), (text "ref", .ofInt m.ref), (text "role", .string m.role)]

def Body.properties : Body → List (Text × Value)
  | .node lon lat => [(text "lon", .number lon), (text "lat", .number lat)]
  | .way nodes => [(text "nodes", .array (nodes.map .ofInt))]
  | .group _ members => [(text "members", .array (members.map Member.toValue))]

def Element.toValue (e : Element) : Value :=
  .object
    ([(text "type", e.type.toValue), (text "id", .ofInt e.id)] ++
      (e.version.toList.map fun version => (text "version", .ofInt version)) ++
      [(text "tags", .object (e.tags.map fun tag => (tag.1, .string tag.2)))] ++
      e.body.properties)

def Draft.toValue : Draft → Value
  | .deletion base => .object [(text "base", base.toValue), (text "deleted", .bool true)]
  | .edit base value center =>
    .object
      ([(text "base", (base.map Element.toValue).getD .null), (text "value", value.toValue)] ++
        center.toList.map fun center =>
          (text "center", .array [.number center.1, .number center.2]))

/-! ## What validation promises -/

/-- An integer that is safe. -/
def Safe (n : ℤ) : Prop := |n| ≤ 2 ^ 53 - 1

structure ValidTag (tag : Text × Text) : Prop where
  key : tag.1 ≠ []
  short : tag.1.length ≤ 255 ∧ tag.2.length ≤ 255
  xml : xmlText tag.1 = true ∧ xmlText tag.2 = true

structure ValidTags (tags : Tags) : Prop where
  few : tags.length ≤ 200
  distinct : (tags.map Prod.fst).Nodup
  valid : ∀ tag ∈ tags, ValidTag tag

structure ValidMember (m : Member) : Prop where
  ref : Safe m.ref ∧ m.ref ≠ 0
  role : m.role.length ≤ 255 ∧ xmlText m.role = true

def ValidBody : Body → Prop
  | .node lon lat => |lon| ≤ 180 ∧ |lat| ≤ 90
  | .way nodes => (2 ≤ nodes.length ∧ nodes.length ≤ 2000) ∧ ∀ n ∈ nodes, Safe n ∧ n ≠ 0
  | .group _ members => members.length ≤ 300 ∧ ∀ m ∈ members, ValidMember m

/-- The ID of an object to be created is negative; any other one has a version. -/
def ValidIdentity (e : Element) (create : Bool) : Prop :=
  Safe e.id ∧
    if create then e.id < 0 ∧ e.version = none
    else 0 < e.id ∧ ∃ version, e.version = some version ∧ Safe version ∧ 0 < version

structure ValidElement (e : Element) (create : Bool) : Prop where
  identity : ValidIdentity e create
  tags : ValidTags e.tags
  body : ValidBody e.body

/-- What `validateDraft` returns. -/
def ValidDraft : Draft → Prop
  | .deletion base => ValidElement base false
  | .edit base value center =>
    (∀ b, base = some b → ValidElement b false) ∧ ValidElement value base.isNone ∧
      checkEdit base value = .ok () ∧ ∀ c, center = some c → |c.1| ≤ 180 ∧ |c.2| ≤ 90

/-! ### Tags -/

theorem validTags_addTag {out next : Tags} {entry : Text × Value} {bound : ℕ}
    (added : addTag out entry = .ok next) (few : out.length ≤ bound)
    (distinct : (out.map Prod.fst).Nodup) (valid : ∀ tag ∈ out, ValidTag tag) :
    next.length ≤ bound + 1 ∧ (next.map Prod.fst).Nodup ∧ ∀ tag ∈ next, ValidTag tag := by
  obtain ⟨k, value⟩ := entry
  cases value with
  | string v =>
      simp only [addTag] at added
      split_ifs at added with empty invalid twice
      · cases added
        exact ⟨Nat.le_succ_of_le few, distinct, valid⟩
      · cases added
        push Not at invalid
        refine ⟨by simpa using few, ?_, ?_⟩
        · rw [List.map_append, List.nodup_append]
          refine ⟨distinct, List.nodup_singleton _, ?_⟩
          rintro key member _ last rfl
          obtain rfl : key = k := List.mem_singleton.mp last
          exact twice member
        · intro tag member
          rcases List.mem_append.mp member with old | new
          · exact valid tag old
          · rw [List.mem_singleton.mp new]
            exact ⟨invalid.1, ⟨invalid.2.1, invalid.2.2.1⟩, by simpa using invalid.2.2.2⟩
  | null | bool | number | infinite | array | object => cases added

theorem validTags_foldlM : ∀ (entries : List (Text × Value)) {out last : Tags} {bound : ℕ},
    entries.foldlM addTag out = .ok last → out.length ≤ bound → (out.map Prod.fst).Nodup →
    (∀ tag ∈ out, ValidTag tag) →
    last.length ≤ bound + entries.length ∧ (last.map Prod.fst).Nodup ∧
      ∀ tag ∈ last, ValidTag tag
  | [], out, last, bound, read, few, distinct, valid => by
      cases read
      exact ⟨few, distinct, valid⟩
  | entry :: entries, out, last, bound, read, few, distinct, valid => by
      rw [List.foldlM_cons] at read
      cases added : addTag out entry with
      | error e =>
          rw [added] at read
          cases read
      | ok next =>
          rw [added] at read
          obtain ⟨few', distinct', valid'⟩ := validTags_addTag added few distinct valid
          have whole := validTags_foldlM entries read few' distinct' valid'
          rw [List.length_cons]
          exact ⟨by omega, whole.2⟩

theorem validTags_of_tags {entries : List (Text × Value)} {out : Tags}
    (read : tags entries = .ok out) : ValidTags out := by
  rw [tags] at read
  split_ifs at read with many
  obtain ⟨few, distinct, valid⟩ :=
    @validTags_foldlM entries [] out 0 read (Nat.le_refl _) List.nodup_nil (by simp)
  exact ⟨by omega, distinct, valid⟩

theorem addTag_valid {out : Tags} {tag : Text × Text} (valid : ValidTag tag)
    (new : tag.1 ∉ out.map Prod.fst) : addTag out (tag.1, .string tag.2) = .ok (out ++ [tag]) := by
  have notEmpty : ¬(tag.1 = [] ∧ tag.2 = []) := fun both => valid.key both.1
  have sound : ¬(tag.1 = [] ∨ 255 < tag.1.length ∨ 255 < tag.2.length ∨ !xmlText tag.1 ∨
      !xmlText tag.2) := by
    simp [valid.key, valid.short, valid.xml]
  rw [addTag, if_neg notEmpty, if_neg sound, if_neg new]

theorem foldlM_addTag : ∀ (t out : Tags), (∀ tag ∈ t, ValidTag tag) →
    ((out ++ t).map Prod.fst).Nodup →
    (t.map fun tag => ((tag.1, Value.string tag.2) : Text × Value)).foldlM addTag out =
      .ok (out ++ t)
  | [], out, _, _ => by
      rw [List.append_nil]
      rfl
  | tag :: t, out, valid, distinct => by
      obtain ⟨first, others⟩ := List.forall_mem_cons.mp valid
      have new : tag.1 ∉ out.map Prod.fst := by
        rw [List.map_append, List.nodup_append] at distinct
        exact fun member => distinct.2.2 _ member _ (by simp) rfl
      rw [List.map_cons, List.foldlM_cons, addTag_valid first new]
      have rest := foldlM_addTag t (out ++ [tag]) others (by simpa using distinct)
      rw [List.append_assoc, List.singleton_append] at rest
      exact rest

/-- Valid tags are read as they are. -/
theorem tags_valid {t : Tags} (valid : ValidTags t) :
    tags (t.map fun tag => (tag.1, .string tag.2)) = .ok t := by
  rw [tags, if_neg (by rw [List.length_map]; have := valid.few; omega)]
  simpa using foldlM_addTag t [] valid.valid (by simpa using valid.distinct)

/-! ### Lists that are read element by element -/

theorem mapM_map_except {α β ε : Type*} {f : β → Except ε α} {g : α → β} :
    ∀ {l : List α}, (∀ a ∈ l, f (g a) = .ok a) → (l.map g).mapM f = .ok l
  | [], _ => rfl
  | a :: l, back => by
      obtain ⟨first, others⟩ := List.forall_mem_cons.mp back
      rw [List.map_cons, List.mapM_cons, first, mapM_map_except others]
      rfl

theorem mapM_map_option {α β : Type*} {f : β → Option α} {g : α → β} :
    ∀ {l : List α}, (∀ a ∈ l, f (g a) = some a) → (l.map g).mapM f = some l
  | [], _ => rfl
  | a :: l, back => by
      obtain ⟨first, others⟩ := List.forall_mem_cons.mp back
      rw [List.map_cons, List.mapM_cons, first, mapM_map_option others]
      rfl

theorem forall_of_mapM_except {α β ε : Type*} {f : α → Except ε β} {p : β → Prop} :
    ∀ {l : List α} {out : List β}, l.mapM f = .ok out →
    (∀ a b, f a = .ok b → p b) → out.length = l.length ∧ ∀ b ∈ out, p b
  | [], out, read, _ => by
      cases read
      simp
  | a :: l, out, read, each => by
      rw [List.mapM_cons] at read
      cases first : f a with
      | error e => simp [first, bind, Except.bind] at read
      | ok b =>
          cases others : l.mapM f with
          | error e => simp [first, others, bind, Except.bind] at read
          | ok rest =>
              simp only [first, others, bind, Except.bind, pure, Except.pure,
                Except.ok.injEq] at read
              obtain ⟨length, all⟩ := forall_of_mapM_except others each
              rw [← read, List.length_cons, List.length_cons, length]
              exact ⟨rfl, List.forall_mem_cons.mpr ⟨each a b first, all⟩⟩

theorem forall_of_mapM_option {α β : Type*} {f : α → Option β} {p : β → Prop} :
    ∀ {l : List α} {out : List β}, l.mapM f = some out →
    (∀ a b, f a = some b → p b) → out.length = l.length ∧ ∀ b ∈ out, p b
  | [], out, read, _ => by
      cases read
      simp
  | a :: l, out, read, each => by
      rw [List.mapM_cons] at read
      cases first : f a with
      | none => simp [first] at read
      | some b =>
          cases others : l.mapM f with
          | none => simp [first, others] at read
          | some rest =>
              simp only [first, others, Option.bind_eq_bind, Option.bind_some, pure,
                Option.some.injEq] at read
              obtain ⟨length, all⟩ := forall_of_mapM_option others each
              rw [← read, List.length_cons, List.length_cons, length]
              exact ⟨rfl, List.forall_mem_cons.mpr ⟨each a b first, all⟩⟩

/-! ### Members and bodies -/

theorem safe_of_integer {raw : Value} {name : String} {n : ℤ} (found : raw.integer name = some n) :
    Safe n := by
  obtain ⟨value, -, safe⟩ := Option.bind_eq_some_iff.mp found
  exact Value.safe_of_safeInteger safe

theorem validMember_of_member {raw : Value} {m : Member} (read : member raw = .ok m) :
    ValidMember m := by
  rw [member] at read
  split at read
  · next type ref _ found =>
      split_ifs at read with zero
      split at read
      · next role _ =>
          split_ifs at read with invalid
          cases read
          push Not at invalid
          exact ⟨⟨safe_of_integer found, by simpa [refID] using zero⟩,
            by simpa using invalid.1, by simpa using invalid.2⟩
      · cases read
  · cases read

theorem member_toValue {m : Member} (valid : ValidMember m) : member m.toValue = .ok m := by
  have typeFound : (m.toValue.get "type").bind TypeName.read = some m.type := by
    have found : m.toValue.get "type" = some m.type.toValue := by
      simp +decide [Member.toValue, Value.get, List.find?]
    rw [found, Option.bind_some, TypeName.read_toValue]
  have refFound : m.toValue.integer "ref" = some m.ref := by
    have found : m.toValue.get "ref" = some (.ofInt m.ref) := by
      simp +decide [Member.toValue, Value.get, List.find?]
    rw [Value.integer, found, Option.bind_some, Value.safeInteger_ofInt valid.ref.1]
  have roleFound : readRole m.toValue = some m.role := by
    have found : m.toValue.get "role" = some (.string m.role) := by
      simp +decide [Member.toValue, Value.get, List.find?]
    rw [readRole, found]
  rw [member, typeFound, refFound]
  simp [roleFound, refID, valid.ref.2, valid.role]

theorem readRef_ofInt {n : ℤ} (valid : Safe n ∧ n ≠ 0) : readRef (.ofInt n) = some n := by
  rw [readRef, Value.safeInteger_ofInt valid.1, Option.bind_some, refID]
  simp [valid.2]

theorem valid_of_readRef (value : Value) (n : ℤ) (read : readRef value = some n) :
    Safe n ∧ n ≠ 0 := by
  obtain ⟨m, safe, nonzero⟩ := Option.bind_eq_some_iff.mp read
  split_ifs at nonzero with ref
  cases nonzero
  exact ⟨Value.safe_of_safeInteger safe, by simpa [refID] using ref⟩

theorem validBody_of_readBody {raw : Value} {type : TypeName} {body : Body}
    (read : readBody raw type = .ok body) : ValidBody body ∧ body.type = type := by
  rw [readBody] at read
  split_ifs at read with node way
  · split at read
    · split_ifs at read with outside
      cases read
      push Not at outside
      exact ⟨outside, node.symm⟩
    · cases read
  · split at read
    · split_ifs at read with length
      split at read
      · next refs found =>
          cases read
          obtain ⟨same, all⟩ := forall_of_mapM_option found valid_of_readRef
          push Not at length
          exact ⟨⟨by omega, all⟩, way.symm⟩
      · cases read
    · cases read
  · split at read
    · next members _ =>
        split_ifs at read with many
        cases found : members.mapM member with
        | error e => simp [found, Except.map] at read
        | ok ms =>
            simp only [found, Except.map, Except.ok.injEq] at read
            obtain ⟨same, all⟩ :=
              forall_of_mapM_except found (fun _ _ => validMember_of_member)
            rw [← read]
            refine ⟨⟨by omega, all⟩, ?_⟩
            obtain ⟨kind, wraps⟩ := type
            cases wraps with
            | zero => cases kind <;> first | rfl | simp [TypeName.plain] at node way
            | succ more => rfl
    · cases read

theorem readBody_properties {raw : Value} {body : Body} (valid : ValidBody body)
    (properties : ∀ property ∈ body.properties, ∀ name, property.1 = text name →
      raw.get name = some property.2) : readBody raw body.type = .ok body := by
  cases body with
  | node lon lat =>
      have lonFound : raw.get "lon" = some (.number lon) :=
        properties (text "lon", .number lon) (by simp [Body.properties]) _ rfl
      have latFound : raw.get "lat" = some (.number lat) :=
        properties (text "lat", .number lat) (by simp [Body.properties]) _ rfl
      rw [readBody, if_pos (show (Body.node lon lat).type = .plain .node from rfl), Value.finite,
        Value.finite, lonFound, latFound]
      have inside : ¬(180 < |lon| ∨ 90 < |lat|) := by
        rw [not_or, not_lt, not_lt]
        exact valid
      simp only [if_neg inside]
  | way nodes =>
      have found : raw.get "nodes" = some (.array (nodes.map .ofInt)) :=
        properties (text "nodes", .array (nodes.map .ofInt)) (by simp [Body.properties]) _ rfl
      have length : ¬((nodes.map Value.ofInt).length < 2 ∨ 2000 < (nodes.map Value.ofInt).length) := by
        rw [List.length_map]
        have bounds := valid.1
        omega
      have refs := mapM_map_option (fun n member => readRef_ofInt (valid.2 n member))
      rw [readBody, if_neg (by simp [Body.type, TypeName.plain]),
        if_pos (show (Body.way nodes).type = .plain .way from rfl), found]
      simp only [if_neg length, refs]
  | group type members =>
      have found : raw.get "members" = some (.array (members.map Member.toValue)) :=
        properties (text "members", .array (members.map Member.toValue))
          (by simp [Body.properties]) _ rfl
      have few : ¬300 < (members.map Member.toValue).length := by
        rw [List.length_map]
        have bound := valid.1
        omega
      have all := mapM_map_except (fun m member => member_toValue (valid.2 m member))
      cases type with
      | relation =>
          rw [readBody, if_neg (by simp [Body.type, GroupType.typeName, TypeName.plain]),
            if_neg (by simp [Body.type, GroupType.typeName, TypeName.plain]), found]
          simp only [if_neg few, all]
          rfl
      | wrapped kind more =>
          rw [readBody, if_neg (by simp [Body.type, GroupType.typeName, TypeName.plain]),
            if_neg (by simp [Body.type, GroupType.typeName, TypeName.plain]), found]
          simp only [if_neg few, all]
          rfl

/-! ### Objects -/

theorem validElement_of_element {raw : Value} {create : Bool} {e : Element}
    (read : element raw create = .ok e) : ValidElement e create := by
  rw [element] at read
  split at read
  · next type id version _ identity =>
      split_ifs at read
      cases tagsRead : readTags raw with
      | error err => simp [tagsRead, bind, Except.bind] at read
      | ok t =>
          cases bodyRead : readBody raw type with
          | error err => simp [tagsRead, bodyRead, bind, Except.bind] at read
          | ok body =>
              simp only [tagsRead, bodyRead, bind, Except.bind, Except.ok.injEq] at read
              subst read
              refine ⟨?_, ?_, (validBody_of_readBody bodyRead).1⟩
              · rw [readIdentity] at identity
                cases create with
                | true =>
                    obtain ⟨n, found, negative⟩ := Option.bind_eq_some_iff.mp identity
                    split_ifs at negative with sign
                    cases negative
                    exact ⟨safe_of_integer found, sign, rfl⟩
                | false =>
                    obtain ⟨n, found, rest⟩ := Option.bind_eq_some_iff.mp identity
                    obtain ⟨v, versionFound, positive⟩ := Option.bind_eq_some_iff.mp rest
                    split_ifs at positive with sign
                    cases positive
                    simp only [validID, Bool.and_eq_true, decide_eq_true_eq] at sign
                    exact ⟨safe_of_integer found, sign.1, v, rfl, safe_of_integer versionFound,
                      sign.2⟩
              · rw [readTags] at tagsRead
                split at tagsRead
                · exact validTags_of_tags tagsRead
                · exact validTags_of_tags tagsRead
                · cases tagsRead
  · cases read

/-- The properties of an object that is written. -/
def Element.properties (e : Element) : List (Text × Value) :=
  [(text "type", e.type.toValue), (text "id", .ofInt e.id)] ++
    (e.version.toList.map fun version => (text "version", .ofInt version)) ++
    [(text "tags", .object (e.tags.map fun tag => (tag.1, .string tag.2)))] ++ e.body.properties

theorem Element.properties_distinct (e : Element) :
    (e.properties.map Prod.fst).Nodup ∧ text "visible" ∉ e.properties.map Prod.fst := by
  obtain ⟨id, version, tags, body⟩ := e
  cases version <;> cases body <;>
    simp +decide only [properties, Body.properties, Option.toList, List.map_cons, List.map_nil,
      List.cons_append, List.nil_append]

theorem Element.get_toValue {e : Element} {name : String} {value : Value}
    (member : (text name, value) ∈ e.properties) : e.toValue.get name = some value :=
  Value.get_object e.properties_distinct.1 member

theorem element_toValue {e : Element} {create : Bool} (valid : ValidElement e create) :
    element e.toValue create = .ok e := by
  have typeFound : (e.toValue.get "type").bind TypeName.read = some e.type := by
    rw [@Element.get_toValue e _ e.type.toValue (by simp [Element.properties]),
      Option.bind_some, TypeName.read_toValue]
  have idFound : e.toValue.integer "id" = some e.id := by
    rw [Value.integer, @Element.get_toValue e _ (.ofInt e.id) (by simp [Element.properties]),
      Option.bind_some, Value.safeInteger_ofInt valid.identity.1]
  have identity : readIdentity e.toValue create = some (e.id, e.version) := by
    have rest := valid.identity.2
    rw [readIdentity, idFound]
    cases create with
    | true =>
        rw [if_pos rfl] at rest
        rw [if_pos rfl, Option.bind_some, if_pos rest.1, rest.2]
    | false =>
        rw [if_neg Bool.false_ne_true] at rest
        obtain ⟨positive, version, shown, safe, sign⟩ := rest
        have versionFound : e.toValue.integer "version" = some version := by
          rw [Value.integer, @Element.get_toValue e _ (.ofInt version)
            (by simp [Element.properties, shown]), Option.bind_some, Value.safeInteger_ofInt safe]
        rw [if_neg Bool.false_ne_true, versionFound, shown]
        simp [validID, positive, sign]
  have visible : invisible e.toValue = false := by
    have absent : e.toValue.get "visible" = none :=
      Value.get_object_none e.properties_distinct.2
    rw [invisible, absent]
  have tagsFound : readTags e.toValue = .ok e.tags := by
    have found := @Element.get_toValue e "tags"
      (.object (e.tags.map fun tag => (tag.1, .string tag.2))) (by simp [Element.properties])
    rw [readTags, found]
    exact tags_valid valid.tags
  have bodyFound : readBody e.toValue e.type = .ok e.body := by
    refine readBody_properties valid.body fun property member name same => ?_
    refine Element.get_toValue ?_
    rw [← same, Element.properties]
    exact List.mem_append_right _ member
  rw [element, typeFound, identity]
  simp [visible, tagsFound, bodyFound, bind, Except.bind]

/-! ### Drafts -/

theorem viewCenter_bound {raw : Option Value} {c : ℚ × ℚ} (found : viewCenter raw = some c) :
    |c.1| ≤ 180 ∧ |c.2| ≤ 90 := by
  rw [viewCenter.eq_def] at found
  split at found
  · split_ifs at found with inside
    cases found
    exact inside
  · cases found

theorem validElement_of_readBase {raw : Value} {base : Option Element}
    (read : readBase raw = .ok base) : ∀ e, base = some e → ValidElement e false := by
  rintro e rfl
  rw [readBase] at read
  split at read
  · cases read
  · next value _ =>
      cases found : element value false with
      | error err => simp [found, Except.map] at read
      | ok e' =>
          simp only [found, Except.map, Except.ok.injEq, Option.some.injEq] at read
          rw [← read]
          exact validElement_of_element found

theorem validDraft_of_validateDraft {raw : Value} {d : Draft} (read : validateDraft raw = .ok d) :
    ValidDraft d := by
  rw [validateDraft] at read
  split_ifs at read with deletion
  · split at read
    · cases read
    · next base _ =>
        cases found : element base false with
        | error e => simp [found, Except.map] at read
        | ok b =>
            simp only [found, Except.map, Except.ok.injEq] at read
            rw [← read]
            exact validElement_of_element found
  · cases baseFound : readBase raw with
    | error e => simp [baseFound, bind, Except.bind] at read
    | ok base =>
        cases valueFound : element ((raw.get "value").getD .null) base.isNone with
        | error e => simp [baseFound, valueFound, bind, Except.bind] at read
        | ok value =>
            cases checked : checkEdit base value with
            | error e => simp [baseFound, valueFound, checked, bind, Except.bind] at read
            | ok u =>
                simp only [baseFound, valueFound, checked, bind, Except.bind,
                  Except.ok.injEq] at read
                rw [← read]
                exact ⟨validElement_of_readBase baseFound, validElement_of_element valueFound,
                  checked, fun c found => viewCenter_bound found⟩

theorem truthy_object {raw : Value} {name : String} {properties : List (Text × Value)}
    (found : raw.get name = some (.object properties)) :
    truthy raw name = some (.object properties) := by
  rw [truthy, found]

/-- **A draft that was validated is read back as it is.** -/
theorem validateDraft_toValue {d : Draft} (valid : ValidDraft d) :
    validateDraft d.toValue = .ok d := by
  cases d with
  | deletion base =>
      have deleted : isDeletion (Draft.deletion base).toValue = true := by
        simp +decide [isDeletion, Draft.toValue, Value.get, List.find?]
      have found : truthy (Draft.deletion base).toValue "base" = some base.toValue := by
        refine truthy_object ?_
        simp +decide [Draft.toValue, Value.get, List.find?, Element.toValue]
      rw [validateDraft, if_pos deleted, found]
      simp only [element_toValue valid]
      rfl
  | edit base value center =>
      obtain ⟨baseValid, valueValid, checked, inside⟩ := valid
      have deleted : isDeletion (Draft.edit base value center).toValue = false := by
        cases center <;> simp +decide [isDeletion, Draft.toValue, Value.get, List.find?]
      have baseFound : readBase (Draft.edit base value center).toValue = .ok base := by
        cases base with
        | none =>
            have absent : truthy (Draft.edit none value center).toValue "base" = none := by
              cases center <;> simp +decide [truthy, Draft.toValue, Value.get, List.find?]
            rw [readBase, absent]
        | some b =>
            have found : truthy (Draft.edit (some b) value center).toValue "base" =
                some b.toValue := by
              refine truthy_object ?_
              cases center <;>
                simp +decide [Draft.toValue, Value.get, List.find?, Element.toValue]
            rw [readBase, found]
            simp only [element_toValue (baseValid b rfl)]
            rfl
      have valueFound :
          ((Draft.edit base value center).toValue.get "value").getD .null = value.toValue := by
        cases center <;> simp +decide [Draft.toValue, Value.get, List.find?]
      have centerFound : viewCenter ((Draft.edit base value center).toValue.get "center") =
          center := by
        cases center with
        | none => simp +decide [Draft.toValue, Value.get, List.find?, viewCenter]
        | some c =>
            simp +decide [Draft.toValue, Value.get, List.find?, viewCenter, inside c rfl]
      rw [validateDraft, if_neg (by simp [deleted]), baseFound, valueFound, centerFound]
      simp [element_toValue valueValid, checked, bind, Except.bind]

end OsmMini.Cmd.Editor

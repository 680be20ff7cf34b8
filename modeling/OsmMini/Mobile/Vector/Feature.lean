import OsmMini.Mobile.Vector.Exact

/-!
# Decoding a feature

The fields of a feature are scanned once. Its tags are pairs of places in the keys and values of
the layer, and its geometry is decoded from the commands. The readers of both fields are made
from what the scan found last, and from how often (`decodeVectorFeature_ok`).
-/

set_option autoImplicit false

namespace OsmMini.Mobile.Vector

/-- Go through the fields of a message. -/
def scanFields {σ : Type} (see : σ → Field → σ) (r : FieldReader) (s : σ) : Except String σ :=
  match _read : r.next with
  | (none, r) =>
    match r.err with
    | some err => .error err
    | none => .ok s
  | (some f, rest) => scanFields see rest (see s f)
termination_by r.data.length
decreasing_by exact (Nat.le_add_left ..).trans_lt (FieldReader.next_some _read).1

structure FeatureFields where
  tags : Option (List UInt8)
  tagFields : ℕ
  kind : UInt64
  geom : Option (List UInt8)
  geomFields : ℕ

def FeatureFields.see (s : FeatureFields) (f : Field) : FeatureFields :=
  if f.number = 2 then { s with tags := f.data, tagFields := s.tagFields + 1 }
  else if f.number = 3 then { s with kind := f.value }
  else if f.number = 4 then { s with geom := f.data, geomFields := s.geomFields + 1 }
  else s

structure VectorFeature where
  layer : String
  kind : UInt64
  className : String
  name : String
  extent : ℕ
  paths : List (List Point)

/-- The class and the name among the tags that are left. -/
def readTags (keys values : List String) (t : ValueReader) (className name : String) :
    Except String (String × String) :=
  match _read : t.next with
  | (none, t) =>
    match t.err with
    | some err => .error err
    | none => .ok (className, name)
  | (some key, rest) =>
    match _read' : rest.next with
    | (none, t) => .error (t.err.getD "invalid feature tags")
    | (some value, rest) =>
      match keys[key.toNat]?, values[value.toNat]? with
      | some key, some value =>
        if key = "class" then readTags keys values rest value name
        else if key = "name" then readTags keys values rest className value
        else readTags keys values rest className name
      | _, _ => .error "invalid tag index"
termination_by t.left
decreasing_by all_goals exact (ValueReader.left_lt _read').trans (ValueReader.left_lt _read)

def decodeVectorFeature (data : List UInt8) (layer : String) (extent : ℕ)
    (keys values : List String) : Except String VectorFeature :=
  match scanFields FeatureFields.see ⟨data, 0, none⟩ ⟨none, 0, 0, none, 0⟩ with
  | .error err => .error err
  | .ok s =>
    match readTags keys values (newValueReader s.tags s.tagFields 2 data) "" "" with
    | .error err => .error err
    | .ok (className, name) =>
      match geometry (newValueReader s.geom s.geomFields 4 data) with
      | .error err => .error err
      | .ok paths => .ok ⟨layer, s.kind, className, name, extent, paths⟩

/-! ## The readers of a feature -/

theorem scanFields_ok {σ : Type} {see : σ → Field → σ} {bytes : ℕ} : ∀ {r : FieldReader} {s s' : σ},
    r.data.length = bytes → scanFields see r s = .ok s' →
    ∃ fields, Scans r fields ∧ s' = fields.foldl see s := by
  induction bytes using Nat.strongRecOn with
  | ind bytes ih =>
    intro r s s' size scanned
    rw [scanFields] at scanned
    split at scanned
    · rename_i ended read
      split at scanned
      · cases scanned
      · rename_i clean
        cases scanned
        exact ⟨[], ⟨ended, read, clean⟩, rfl⟩
    · rename_i f rest read
      have shorter := (Nat.le_add_left ..).trans_lt (FieldReader.next_some read).1
      obtain ⟨fields, scans, same⟩ := ih _ (size ▸ shorter) rfl scanned
      exact ⟨f :: fields, ⟨rest, read, scans⟩, same⟩

theorem foldl_see (fields : List Field) : ∀ s : FeatureFields,
    ((fields.foldl FeatureFields.see s).tags, (fields.foldl FeatureFields.see s).tagFields) =
        fields.foldl (seeField 2) (s.tags, s.tagFields) ∧
      ((fields.foldl FeatureFields.see s).geom, (fields.foldl FeatureFields.see s).geomFields) =
        fields.foldl (seeField 4) (s.geom, s.geomFields) := by
  induction fields with
  | nil => exact fun _ => ⟨rfl, rfl⟩
  | cons f fields ih =>
      intro s
      obtain ⟨tags, geom⟩ := ih (s.see f)
      rw [List.foldl_cons, List.foldl_cons, List.foldl_cons, tags, geom]
      have seen : ((s.see f).tags, (s.see f).tagFields) = seeField 2 (s.tags, s.tagFields) f ∧
          ((s.see f).geom, (s.see f).geomFields) = seeField 4 (s.geom, s.geomFields) f := by
        rw [FeatureFields.see, seeField, seeField]
        by_cases two : f.number = 2
        · simp [two]
        · by_cases three : f.number = 3
          · simp [three]
          · by_cases four : f.number = 4
            · simp [four]
            · simp [two, three, four]
      rw [seen.1, seen.2]
      exact ⟨rfl, rfl⟩

/-- **A decoded feature has the paths of its geometry field**, read with the exact decoder. -/
theorem decodeVectorFeature_ok {data : List UInt8} {layer : String} {extent : ℕ}
    {keys values : List String} {feature : VectorFeature}
    (decoded : decodeVectorFeature data layer extent keys values = .ok feature) :
    ∃ fields, Scans ⟨data, 0, none⟩ fields ∧
      geometryExact (newValueReader (lastField 4 fields).1 (lastField 4 fields).2 4 data) =
        .ok feature.paths := by
  rw [decodeVectorFeature] at decoded
  cases scanned : scanFields FeatureFields.see ⟨data, 0, none⟩ ⟨none, 0, 0, none, 0⟩ with
  | error err =>
      rw [scanned] at decoded
      cases decoded
  | ok s =>
      rw [scanned] at decoded
      obtain ⟨fields, scans, rfl⟩ := scanFields_ok rfl scanned
      have found := (foldl_see fields ⟨none, 0, 0, none, 0⟩).2
      refine ⟨fields, scans, ?_⟩
      rw [lastField_eq, ← found, ← geometry_eq_exact]
      dsimp only at decoded
      split at decoded
      · cases decoded
      · split at decoded
        · cases decoded
        · rename_i paths
          cases decoded
          exact paths

end OsmMini.Mobile.Vector

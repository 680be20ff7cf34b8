import OsmMini.Mobile.Vector.Fields

/-!
# The values of a field

A field of integers may occur several times in a message, sometimes packed and sometimes as a
single value. Whatever its parts are, a value reader delivers the values of all parts in order,
up to the limit (`delivers_values`). What it delivers does not depend on how the values were
distributed over the parts.
-/

set_option autoImplicit false

namespace OsmMini.Mobile.Vector

open OsmMini.Foundations

/-- The reader delivers the values, and then ends with the error or without one. -/
def Delivers : ValueReader → List UInt64 → Option String → Prop
  | r, [], err => ∃ r', r.next = (none, r') ∧ r'.err = err
  | r, v :: values, err => ∃ r', r.next = (some v, r') ∧ Delivers r' values err

/-- The message has the fields and ends after them. -/
def Scans : FieldReader → List Field → Prop
  | r, [] => ∃ r', r.next = (none, r') ∧ r'.err = none
  | r, f :: fields => ∃ r', r.next = (some f, r') ∧ Scans r' fields

/-- The bytes hold the values one after the other. -/
def Packed : List UInt8 → List UInt64 → Prop
  | bytes, [] => bytes = []
  | bytes, v :: values => ∃ x n, Varint.uvarint bytes = some (x, n) ∧ v = UInt64.ofNat x ∧
      Packed (bytes.drop n) values

/-- The values of one field, packed or single. -/
def Field.Holds (f : Field) (values : List UInt64) : Prop :=
  (f.wire = 2 ∧ Packed (f.data.getD []) values) ∨ (f.wire = 0 ∧ values = [f.value])

/-- The values of all fields of a number. -/
def Hold (number : ℕ) : List Field → List UInt64 → Prop
  | [], values => values = []
  | f :: fields, values =>
    if f.number ≠ number then Hold number fields values
    else ∃ here later, values = here ++ later ∧ f.Holds here ∧ Hold number fields later

/-- The data of the last field of a number, and how often it occurs. -/
def lastField (number : ℕ) (fields : List Field) : Option (List UInt8) × ℕ :=
  fields.foldl (fun s f => if f.number = number then (f.data, s.2 + 1) else s) (none, 0)

/-! ## Reading on -/

theorem Delivers.congr {r r' : ValueReader} (same : r.next = r'.next) {values : List UInt64}
    {err : Option String} (delivers : Delivers r' values err) : Delivers r values err := by
  cases values with
  | nil =>
      rw [Delivers, same]
      exact delivers
  | cons v values =>
      rw [Delivers, same]
      exact delivers

/-- How a reader ends that was given so many values. -/
def limitError (count : ℕ) : Option String :=
  if count ≤ readerLimit then none else some "vector geometry too large"

/-- A value is delivered unless it is one too many. -/
theorem delivers_deliver {r s : ValueReader} {v : UInt64} {values : List UInt64}
    (next : r.next = s.deliver v) (count : s.count ≤ readerLimit)
    (rest : s.count < readerLimit → Delivers { s with count := s.count + 1 }
      (values.take (readerLimit - (s.count + 1))) (limitError (s.count + 1 + values.length))) :
    Delivers r ((v :: values).take (readerLimit - s.count))
      (limitError (s.count + (v :: values).length)) := by
  rw [ValueReader.deliver] at next
  dsimp only at next
  by_cases full : readerLimit < s.count + 1
  · rw [if_pos full] at next
    have none : readerLimit - s.count = 0 := by omega
    have beyond : ¬s.count + (v :: values).length ≤ readerLimit := by
      rw [List.length_cons]
      omega
    rw [none, List.take_zero, limitError, if_neg beyond]
    exact ⟨_, next, rfl⟩
  · rw [if_neg full] at next
    have more : readerLimit - s.count = readerLimit - (s.count + 1) + 1 := by omega
    rw [more, List.take_succ_cons, List.length_cons, ← Nat.add_assoc, Nat.add_right_comm]
    exact ⟨_, next, rest (by omega)⟩

theorem next_of_clean {r : ValueReader} (clean : r.err = none) : r.next = r.pull :=
  if_neg (not_not.mpr clean)

/-- Where the fields deliver what they hold, packed values before them are delivered first. -/
theorem delivers_packed {fields : List Field}
    (after : ∀ {values : List UInt64} {r : ValueReader}, r.err = none → r.count ≤ readerLimit →
      r.data = [] → Scans r.fields fields → Hold r.number fields values →
      Delivers r (values.take (readerLimit - r.count)) (limitError (r.count + values.length)))
    {packed : List UInt64} : ∀ {values : List UInt64} {r : ValueReader},
      r.err = none → r.count ≤ readerLimit → Packed r.data packed → Scans r.fields fields →
      Hold r.number fields values →
      Delivers r ((packed ++ values).take (readerLimit - r.count))
        (limitError (r.count + (packed ++ values).length)) := by
  induction packed with
  | nil => exact after
  | cons v packed ih =>
      intro values r clean count ⟨x, n, found, same, more⟩ scans holds
      rw [List.cons_append]
      have next : r.next = ValueReader.deliver { r with data := r.data.drop n } v := by
        rw [next_of_clean clean, same]
        exact ValueReader.pull_data found
      refine delivers_deliver (s := { r with data := r.data.drop n }) next count fun room => ?_
      exact @ih values { r with data := r.data.drop n, count := r.count + 1 } clean room more scans
        holds

/-- **A reader delivers what its data and its fields hold.** -/
theorem delivers_hold {fields : List Field} : ∀ {packed values : List UInt64} {r : ValueReader},
    r.err = none → r.count ≤ readerLimit → Packed r.data packed → Scans r.fields fields →
    Hold r.number fields values →
    Delivers r ((packed ++ values).take (readerLimit - r.count))
      (limitError (r.count + (packed ++ values).length)) := by
  induction fields with
  | nil =>
      refine delivers_packed fun {values r} clean count empty scans holds => ?_
      obtain ⟨fields, read, noError⟩ := scans
      rw [Hold] at holds
      have within : limitError (r.count + values.length) = none := by
        rw [holds]
        exact if_pos count
      rw [within, holds, List.take_nil]
      refine ⟨{ r with fields := fields, err := fields.err }, ?_, noError⟩
      rw [next_of_clean clean]
      exact ValueReader.pull_end empty read
  | cons f fields ih =>
      refine delivers_packed fun {values r} clean count empty scans holds => ?_
      obtain ⟨rest, read, scans⟩ := scans
      have next := ValueReader.pull_field empty read
      rw [← next_of_clean clean] at next
      rw [Hold] at holds
      by_cases other : f.number ≠ r.number
      · rw [if_pos other] at next holds
        have same := next_of_clean (r := { r with fields := rest }) clean
        refine Delivers.congr (next.trans same.symm) ?_
        exact @ih [] values { r with fields := rest } clean count empty scans holds
      · rw [if_neg other] at next holds
        obtain ⟨here, later, rfl, holdsHere, holdsLater⟩ := holds
        rcases holdsHere with ⟨wire, packed⟩ | ⟨wire, rfl⟩
        · rw [if_pos wire] at next
          have same := next_of_clean (r := { r with fields := rest, data := f.data.getD [] }) clean
          refine Delivers.congr (next.trans same.symm) ?_
          exact @ih here later { r with fields := rest, data := f.data.getD [] } clean count packed
            scans holdsLater
        · rw [if_neg (by rw [wire]; decide), if_pos wire] at next
          refine delivers_deliver (s := { r with fields := rest }) next count fun room => ?_
          exact @ih [] later { r with fields := rest, count := r.count + 1 } clean room empty scans
            holdsLater

/-! ## The reader of a field -/

/-- Only a length-delimited field has data. -/
theorem wire_of_data {r r' : FieldReader} {f : Field} (read : r.next = (some f, r'))
    (data : f.data ≠ none) : f.wire = 2 := by
  rw [FieldReader.next] at read
  split at read
  · cases read
  · dsimp only at read
    split at read
    · cases read
    · split at read
      · cases read
      · split at read
        · cases read
        · split at read
          · cases read
          · rename_i payload
            cases read
            unfold fieldPayload at payload
            split at payload
            · split at payload
              · cases payload
              · cases payload
                exact absurd rfl data
            · split at payload
              · cases payload
              · cases payload
                exact absurd rfl data
            · assumption
            · split at payload
              · cases payload
              · cases payload
                exact absurd rfl data
            · cases payload

/-- One more field of the number was seen. -/
def seeField (number : ℕ) (s : Option (List UInt8) × ℕ) (f : Field) : Option (List UInt8) × ℕ :=
  if f.number = number then (f.data, s.2 + 1) else s

theorem lastField_eq (number : ℕ) (fields : List Field) :
    lastField number fields = fields.foldl (seeField number) (none, 0) := rfl

theorem count_le_seen (number : ℕ) (fields : List Field) : ∀ s : Option (List UInt8) × ℕ,
    s.2 ≤ (fields.foldl (seeField number) s).2 := by
  induction fields with
  | nil => exact fun _ => le_refl _
  | cons f fields ih =>
      intro s
      rw [List.foldl_cons]
      refine le_trans ?_ (ih _)
      rw [seeField]
      split
      · exact Nat.le_succ _
      · exact le_refl _

/-- When no field of the number was seen, none holds a value. -/
theorem unseen {number : ℕ} {fields : List Field} : ∀ {s : Option (List UInt8) × ℕ}
    {values : List UInt64}, (fields.foldl (seeField number) s).2 = s.2 →
    Hold number fields values → fields.foldl (seeField number) s = s ∧ values = [] := by
  induction fields with
  | nil => exact fun _ holds => ⟨rfl, holds⟩
  | cons f fields ih =>
      intro s values same holds
      rw [List.foldl_cons, seeField] at same ⊢
      rw [Hold] at holds
      by_cases here : f.number = number
      · rw [if_pos here] at same
        have more := count_le_seen number fields (f.data, s.2 + 1)
        dsimp only at more
        omega
      · rw [if_neg here] at same ⊢
        rw [if_pos here] at holds
        exact ih same holds

/-- The data of the only field of the number hold its values. -/
theorem packed_of_single {number : ℕ} {data : List UInt8} {fields : List Field} :
    ∀ {r : FieldReader} {s : Option (List UInt8)} {values : List UInt64}, Scans r fields →
    fields.foldl (seeField number) (s, 0) = (some data, 1) → Hold number fields values →
    Packed data values := by
  induction fields with
  | nil =>
      intro r s values _ seen _
      cases seen
  | cons f fields ih =>
      intro r s values ⟨rest, read, scans⟩ seen holds
      rw [List.foldl_cons, seeField] at seen
      rw [Hold] at holds
      by_cases here : f.number = number
      · rw [if_pos here] at seen
        rw [if_neg (not_not.mpr here)] at holds
        obtain ⟨first, later, rfl, holdsHere, holdsLater⟩ := holds
        obtain ⟨all, rfl⟩ := unseen (s := (f.data, 0 + 1)) (by rw [seen]) holdsLater
        rw [all] at seen
        have given : f.data = some data := congrArg Prod.fst seen
        have wire := wire_of_data read (given ▸ Option.some_ne_none _)
        rw [List.append_nil]
        rcases holdsHere with ⟨-, packed⟩ | ⟨single, -⟩
        · rw [given] at packed
          exact packed
        · rw [wire] at single
          cases single
      · rw [if_neg here] at seen
        rw [if_pos here] at holds
        exact ih scans seen holds

/-- **The reader of a field delivers its values**, however they were distributed. -/
theorem delivers_values {message : List UInt8} {fields : List Field} {number : ℕ}
    {values : List UInt64} (scans : Scans ⟨message, 0, none⟩ fields)
    (holds : Hold number fields values) :
    Delivers (newValueReader (lastField number fields).1 (lastField number fields).2 number message)
      (values.take readerLimit) (limitError values.length) := by
  have ended : Scans noFields [] := ⟨noFields, rfl, rfl⟩
  rw [newValueReader, lastField_eq]
  split
  · rename_i single
    obtain ⟨data, given⟩ := Option.ne_none_iff_exists'.mp single.2
    have seen : fields.foldl (seeField number) (none, 0) = (some data, 1) :=
      Prod.ext given single.1
    have packed := packed_of_single scans seen holds
    have all := @delivers_hold [] values [] ⟨data, noFields, 0, 0, none⟩ rfl (Nat.zero_le _) packed
      ended rfl
    rw [List.append_nil, Nat.sub_zero, Nat.zero_add] at all
    rw [given]
    exact all
  · split
    · rename_i zero
      obtain ⟨-, rfl⟩ := unseen (s := (none, 0)) zero holds
      have all := @delivers_hold [] [] [] ⟨[], noFields, 0, 0, none⟩ rfl (Nat.zero_le _) rfl ended rfl
      exact all
    · have all := @delivers_hold fields [] values ⟨[], ⟨message, 0, none⟩, number, 0, none⟩ rfl
        (Nat.zero_le _) rfl scans holds
      rw [List.nil_append, Nat.sub_zero, Nat.zero_add] at all
      exact all

end OsmMini.Mobile.Vector

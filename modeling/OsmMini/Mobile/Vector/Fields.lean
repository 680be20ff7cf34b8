import OsmMini.Foundations.Varint

/-!
# Reading the fields of a vector tile

A field reader delivers the fields of a message one after the other. A value reader delivers the
integers of one field. It reads them from the payload when the field is packed and occurs once.
Otherwise it goes through the message and takes the payloads and the single values in order.

Every value that is delivered takes at least one byte (`ValueReader.next_left`), and a reader
that has ended delivers nothing more (`ValueReader.next_ended`).
-/

set_option autoImplicit false

namespace OsmMini.Mobile.Vector

open OsmMini.Foundations

/-! ## Fields -/

/-- A field of a message. Only a length-delimited field has data. -/
structure Field where
  number : ℕ
  wire : ℕ
  value : UInt64
  data : Option (List UInt8)

structure FieldReader where
  data : List UInt8
  count : ℕ
  err : Option String

/-- How many fields a message, and how many values a field, may have. -/
def readerLimit : ℕ := 500000

/-- The value or the data of a field, and what follows it. -/
def fieldPayload (wire : ℕ) (data : List UInt8) :
    Except String (UInt64 × Option (List UInt8) × List UInt8) :=
  match wire with
  | 0 =>
    match Varint.uvarint data with
    | none => .error "invalid protobuf varint"
    | some (v, n) => .ok (UInt64.ofNat v, none, data.drop n)
  | 1 => if data.length < 8 then .error "unexpected EOF" else .ok (0, none, data.drop 8)
  | 2 =>
    match Varint.uvarint data with
    | none => .error "unexpected EOF"
    | some (length, n) =>
      if data.length - n < length then .error "unexpected EOF"
      else .ok (0, some ((data.drop n).take length), (data.drop n).drop length)
  | 5 => if data.length < 4 then .error "unexpected EOF" else .ok (0, none, data.drop 4)
  | _ => .error "unsupported protobuf field"

namespace FieldReader

/-- Stop with an error. -/
def fail (r : FieldReader) (message : String) : Option Field × FieldReader :=
  (none, { r with err := some message })

def next (r : FieldReader) : Option Field × FieldReader :=
  if r.data = [] ∨ r.err ≠ none then (none, r)
  else
    let r := { r with count := r.count + 1 }
    if readerLimit < r.count then r.fail "vector tile has too many fields"
    else
      match Varint.uvarint r.data with
      | none => r.fail "invalid protobuf tag"
      | some (tag, n) =>
        if tag / 8 = 0 ∨ 2 ^ 29 - 1 < tag / 8 then r.fail "invalid protobuf field number"
        else
          match fieldPayload (tag % 8) (r.data.drop n) with
          | .error err => r.fail err
          | .ok (value, data, rest) => (some ⟨tag / 8, tag % 8, value, data⟩, { r with data := rest })

end FieldReader

theorem fieldPayload_length {wire : ℕ} {data rest : List UInt8} {value : UInt64}
    {payload : Option (List UInt8)} (read : fieldPayload wire data = .ok (value, payload, rest)) :
    (payload.getD []).length + rest.length ≤ data.length := by
  unfold fieldPayload at read
  split at read
  · split at read
    · cases read
    · cases read
      simp
  · split at read
    · cases read
    · cases read
      simp
  · split at read
    · cases read
    · split at read
      · cases read
      · cases read
        rw [Option.getD_some, ← List.length_append, List.take_append_drop, List.length_drop]
        exact Nat.sub_le ..
  · split at read
    · cases read
    · cases read
      simp
  · cases read

namespace FieldReader

variable {r r' : FieldReader}

/-- A field takes more bytes than its data. -/
theorem next_some {f : Field} (read : r.next = (some f, r')) :
    (f.data.getD []).length + r'.data.length < r.data.length ∧ r.err = none ∧ r'.err = none := by
  rw [next] at read
  split at read
  · cases read
  · rename_i going
    obtain ⟨some, noError⟩ := not_or.mp going
    dsimp only at read
    split at read
    · cases read
    · split at read
      · cases read
      · rename_i tag n found
        split at read
        · cases read
        · split at read
          · cases read
          · rename_i value data rest payload
            cases read
            have length := fieldPayload_length payload
            have positive := Varint.uvarint_length_pos found
            have nonempty := List.length_pos_iff.mpr some
            rw [List.length_drop] at length
            refine ⟨?_, not_not.mp noError, not_not.mp noError⟩
            dsimp only
            omega

/-- A reader that has ended stays where it is. -/
theorem next_none (read : r.next = (none, r')) : r'.data = [] ∨ r'.err ≠ none := by
  rw [next] at read
  split at read
  · rename_i ended
    cases read
    exact ended
  · right
    dsimp only at read
    split at read
    · cases read
      exact Option.some_ne_none _
    · split at read
      · cases read
        exact Option.some_ne_none _
      · split at read
        · cases read
          exact Option.some_ne_none _
        · split at read
          · cases read
            exact Option.some_ne_none _
          · cases read

theorem next_ended (read : r.next = (none, r')) : r'.next = (none, r') := by
  rw [next, if_pos (next_none read)]

end FieldReader

/-! ## Values -/

structure ValueReader where
  data : List UInt8
  fields : FieldReader
  number : ℕ
  count : ℕ
  err : Option String

/-- A reader without fields. -/
def noFields : FieldReader := ⟨[], 0, none⟩

/-- The reader of a field that occurs so many times in a message, the last time with the data. -/
def newValueReader (data : Option (List UInt8)) (count number : ℕ) (message : List UInt8) :
    ValueReader :=
  if count = 1 ∧ data ≠ none then ⟨data.getD [], noFields, 0, 0, none⟩
  else if count = 0 then ⟨[], noFields, 0, 0, none⟩
  else ⟨[], ⟨message, 0, none⟩, number, 0, none⟩

namespace ValueReader

/-- Deliver a value, unless there were too many. -/
def deliver (r : ValueReader) (value : UInt64) : Option UInt64 × ValueReader :=
  let r := { r with count := r.count + 1 }
  if readerLimit < r.count then (none, { r with err := some "vector geometry too large" })
  else (some value, r)

/-- Go on to the next value. -/
def pull (r : ValueReader) : Option UInt64 × ValueReader :=
  match r.data with
  | first :: rest =>
    if first < 0x80 then { r with data := rest }.deliver first.toUInt64
    else
      match Varint.uvarint (first :: rest) with
      | none => (none, { r with err := some "invalid packed geometry" })
      | some (v, n) => { r with data := (first :: rest).drop n }.deliver (UInt64.ofNat v)
  | [] =>
    match _read : r.fields.next with
    | (none, fields) => (none, { r with fields := fields, err := fields.err })
    | (some f, fields) =>
      if f.number ≠ r.number then pull { r with fields := fields }
      else if f.wire = 2 then pull { r with fields := fields, data := f.data.getD [] }
      else if f.wire = 0 then { r with fields := fields }.deliver f.value
      else (none, { r with fields := fields, err := some "invalid packed field" })
termination_by r.fields.data.length
decreasing_by
  all_goals exact (Nat.le_add_left ..).trans_lt (FieldReader.next_some _read).1

def next (r : ValueReader) : Option UInt64 × ValueReader :=
  if r.err ≠ none then (none, r) else r.pull

/-- How many bytes are left. -/
def left (r : ValueReader) : ℕ := r.data.length + r.fields.data.length

/-! ## What a reader leaves -/

variable {r r' : ValueReader}

theorem deliver_some {v w : UInt64} (read : r.deliver w = (some v, r')) :
    v = w ∧ r' = { r with count := r.count + 1 } := by
  rw [deliver] at read
  dsimp only at read
  split at read
  · cases read
  · cases read
    exact ⟨rfl, rfl⟩

theorem deliver_none {w : UInt64} (read : r.deliver w = (none, r')) : r'.err ≠ none := by
  rw [deliver] at read
  dsimp only at read
  split at read
  · cases read
    exact Option.some_ne_none _
  · cases read

theorem next_of_err (failed : r.err ≠ none) : r.next = (none, r) := if_pos failed

theorem uvarint_byte {first : UInt8} (small : first < 0x80) (rest : List UInt8) :
    Varint.uvarint (first :: rest) = some (first.toNat, 1) := by
  have byte : first.toNat < 128 := UInt8.lt_iff_toNat_lt.mp small
  rw [Varint.uvarint, Varint.uvarintFrom, if_neg (by omega), if_pos byte,
    if_neg fun both => absurd both.1 (by decide)]

/-- Values of one byte are no exception. -/
theorem pull_data {v n : ℕ} (found : Varint.uvarint r.data = some (v, n)) :
    r.pull = { r with data := r.data.drop n }.deliver (UInt64.ofNat v) := by
  rw [pull]
  split
  · rename_i first rest data
    rw [data] at found ⊢
    split
    · rename_i small
      rw [uvarint_byte small] at found
      cases found
      rw [UInt64.ofNat_uInt8ToNat]
      rfl
    · rw [found]
  · rename_i data
    rw [data] at found
    cases found

theorem pull_invalid (more : r.data ≠ []) (invalid : Varint.uvarint r.data = none) :
    r.pull = (none, { r with err := some "invalid packed geometry" }) := by
  rw [pull]
  split
  · rename_i first rest data
    rw [data] at invalid
    split
    · rename_i small
      rw [uvarint_byte small] at invalid
      cases invalid
    · rw [invalid]
  · rename_i data
    exact absurd data more

variable {f : Field} {fields : FieldReader}

theorem pull_end (empty : r.data = []) (read : r.fields.next = (none, fields)) :
    r.pull = (none, { r with fields := fields, err := fields.err }) := by
  rw [pull, empty]
  dsimp only
  split
  · rename_i same
    rw [read] at same
    cases same
    rfl
  · rename_i same
    rw [read] at same
    cases same

theorem pull_field (empty : r.data = []) (read : r.fields.next = (some f, fields)) :
    r.pull =
      if f.number ≠ r.number then pull { r with fields := fields }
      else if f.wire = 2 then pull { r with fields := fields, data := f.data.getD [] }
      else if f.wire = 0 then { r with fields := fields }.deliver f.value
      else (none, { r with fields := fields, err := some "invalid packed field" }) := by
  rw [pull, empty]
  dsimp only
  split
  · rename_i same
    rw [read] at same
    cases same
  · rename_i same
    rw [read] at same
    cases same
    rfl

/-- What one call leaves: fewer bytes after a value, and an end for good after none. -/
def Leaves (r : ValueReader) : Option UInt64 × ValueReader → Prop
  | (some _, r') => r'.left < r.left ∧ r'.err = none
  | (none, r') => r'.next = (none, r')

theorem leaves_deliver {start r : ValueReader} (fewer : r.left < start.left) (noError : r.err = none)
    (v : UInt64) : start.Leaves (r.deliver v) := by
  rw [deliver]
  dsimp only
  split
  · exact next_of_err (Option.some_ne_none _)
  · exact ⟨fewer, noError⟩

/-- A reader at its end stays there. -/
theorem next_end (empty : r.data = []) (read : fields.next = (none, fields)) :
    next { r with fields := fields, err := fields.err } =
      (none, { r with fields := fields, err := fields.err }) := by
  rw [next]
  split
  · rfl
  · exact @pull_end { r with fields := fields, err := fields.err } fields empty read

theorem leaves_pull {start : ValueReader} {bytes : ℕ} : ∀ {r : ValueReader},
    r.fields.data.length = bytes → r.left ≤ start.left → r.err = none → start.Leaves r.pull := by
  induction bytes using Nat.strongRecOn with
  | ind bytes ih =>
    intro r size fewer noError
    by_cases empty : r.data = []
    · cases read : r.fields.next with
      | mk found fields =>
        cases found with
        | none =>
            rw [pull_end empty read]
            exact next_end empty (FieldReader.next_ended read)
        | some f =>
            obtain ⟨shorter, -, -⟩ := FieldReader.next_some read
            rw [pull_field empty read]
            rw [left, empty, List.length_nil, Nat.zero_add] at fewer
            have rest : left { r with fields := fields } = fields.data.length := by
              rw [left, empty, List.length_nil, Nat.zero_add]
            have packed : left { r with fields := fields, data := f.data.getD [] } =
                (f.data.getD []).length + fields.data.length := rfl
            have shorter' : left { r with fields := fields } < start.left := by omega
            split
            · exact ih fields.data.length (by omega) rfl (by omega) noError
            · split
              · exact ih fields.data.length (by omega) rfl (by omega) noError
              · split
                · exact leaves_deliver shorter' noError f.value
                · exact next_of_err (Option.some_ne_none _)
    · cases found : Varint.uvarint r.data with
      | none =>
          rw [pull_invalid empty found]
          exact next_of_err (Option.some_ne_none _)
      | some read =>
          obtain ⟨v, n⟩ := read
          have positive := Varint.uvarint_length_pos found
          have nonempty := List.length_pos_iff.mpr empty
          rw [pull_data found]
          have rest : left { r with data := r.data.drop n } =
              r.data.length - n + r.fields.data.length := by
            rw [left, List.length_drop]
          have shorter : left { r with data := r.data.drop n } < start.left := by
            rw [left] at fewer
            omega
          exact leaves_deliver shorter noError _

/-- **A value takes at least one byte**, and a reader that has ended stays where it is. -/
theorem leaves_next (r : ValueReader) : r.Leaves r.next := by
  by_cases failed : r.err ≠ none
  · rw [next_of_err failed]
    exact next_of_err failed
  · rw [next, if_neg failed]
    exact leaves_pull rfl (le_refl _) (not_not.mp failed)

end ValueReader

end OsmMini.Mobile.Vector

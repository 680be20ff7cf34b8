import OsmMini.Core.Pbf.PackedCount

/-!
# Writing protobuf fields

The extraction only reads. To say what it makes of a message, this module writes messages: fields
with a number and a value of one of the four wire types that are read, one after the other, and
packed numbers, which may be split over several fields at any number.

Reading a written message takes in its fields from the first to the last, up to the first field
that is refused (`scanMessage_encodeMessage`). Reading packed numbers gives them back
(`packedValues_packedNumbers`).
-/

set_option autoImplicit false

namespace OsmMini.Core.Pbf

open OsmMini.Foundations
open OsmMini.Foundations.Varint (appendUvarint zigzag zigzag_lt)

/-! ## Fields -/

/-- Bytes whose number can be written in front of them. -/
structure Payload where
  bytes : List UInt8
  short : bytes.length < 2 ^ 64

inductive WireValue
  | varint (v : UInt64)
  | fixed64 (b : {b : List UInt8 // b.length = 8})
  | bytes (p : Payload)
  | fixed32 (b : {b : List UInt8 // b.length = 4})

def WireValue.wire : WireValue → ℕ
  | .varint _ => 0
  | .fixed64 _ => 1
  | .bytes _ => 2
  | .fixed32 _ => 5

def WireValue.encode : WireValue → List UInt8
  | .varint v => appendUvarint v.toNat
  | .fixed64 b => b.1
  | .bytes p => appendUvarint p.bytes.length ++ p.bytes
  | .fixed32 b => b.1

structure WireField where
  number : ℕ
  value : WireValue
  numbered : number < 2 ^ 29

def WireField.encode (f : WireField) : List UInt8 :=
  appendUvarint (8 * f.number + f.value.wire) ++ f.value.encode

def encodeMessage (fs : List WireField) : List UInt8 := fs.flatMap WireField.encode

/-! ## Reading a written field -/

theorem WireValue.wire_lt (v : WireValue) : v.wire < 8 := by
  cases v <;> exact Nat.lt_of_sub_eq_succ rfl

theorem readUvarint_appendUvarint {v : ℕ} (fits : v < 2 ^ 64) (rest : List UInt8) :
    readUvarint.on (appendUvarint v ++ rest) = (.ok (UInt64.ofNat v), rest) := by
  rw [readUvarint_eq (Varint.uvarint_appendUvarint fits rest), List.drop_left]

theorem readUvarint_toNat (v : UInt64) (rest : List UInt8) :
    readUvarint.on (appendUvarint v.toNat ++ rest) = (.ok v, rest) := by
  rw [readUvarint_appendUvarint v.toNat_lt rest, UInt64.ofNat_toNat]

theorem takeBytes_append (b rest : List UInt8) :
    (takeBytes b.length).on (b ++ rest) = (.ok b, rest) := by
  rw [takeBytes_on, if_neg (by rw [List.length_append]; omega), List.take_left, List.drop_left]

theorem readBytes_payload (p : Payload) (rest : List UInt8) :
    readBytes.on (appendUvarint p.bytes.length ++ p.bytes ++ rest) = (.ok p.bytes, rest) := by
  rw [readBytes, Wire.on_bind, List.append_assoc, readUvarint_appendUvarint p.short]
  have length : (UInt64.ofNat p.bytes.length).toNat = p.bytes.length := by
    rw [UInt64.toNat_ofNat', Nat.mod_eq_of_lt p.short]
  dsimp only
  rw [length, takeBytes_append]

/-- A value of any wire type can be skipped. -/
theorem skipField_encode (v : WireValue) (rest : List UInt8) :
    (skipField v.wire).on (v.encode ++ rest) = (.ok (), rest) := by
  cases v with
  | varint v =>
      have skipped : skipField 0 = readUvarint >>= fun _ => pure () := rfl
      rw [WireValue.wire, WireValue.encode, skipped, Wire.on_bind, readUvarint_toNat]
      rfl
  | fixed64 b =>
      obtain ⟨b, eight⟩ := b
      have taken := takeBytes_append b rest
      have skipped : skipField 1 = takeBytes 8 >>= fun _ => pure () := rfl
      rw [eight] at taken
      rw [WireValue.wire, WireValue.encode, skipped, Wire.on_bind, taken]
      rfl
  | bytes p =>
      have skipped : skipField 2 = readBytes >>= fun _ => pure () := rfl
      rw [WireValue.wire, WireValue.encode, skipped, Wire.on_bind, readBytes_payload]
      rfl
  | fixed32 b =>
      obtain ⟨b, four⟩ := b
      have taken := takeBytes_append b rest
      have skipped : skipField 5 = takeBytes 4 >>= fun _ => pure () := rfl
      rw [four] at taken
      rw [WireValue.wire, WireValue.encode, skipped, Wire.on_bind, taken]
      rfl

section Messages

variable {σ : Type}

/-- What a reader makes of a value. -/
def takeValue (reader : Option (FieldReader σ)) (s : σ) (v : WireValue) : σ × Option PbfError :=
  match reader with
  | none => (s, none)
  | some (.varint name update) =>
    match v with
    | .varint v => update v s
    | v => (s, some (.format s!"{name}: wrong wire={v.wire}"))
  | some (.bytes name update) =>
    match v with
    | .bytes p => update p.bytes s
    | v => (s, some (.format s!"{name}: wrong wire={v.wire}"))

/-- Take in fields up to the first one that is refused. -/
def takeFields (readers : ℕ → Option (FieldReader σ)) : σ → List WireField → σ × Option PbfError
  | s, [] => (s, none)
  | s, f :: fs =>
    match takeValue (readers f.number) s f.value with
    | (s, some e) => (s, some e)
    | (s, none) => takeFields readers s fs

theorem readPayload_ok {α : Type} {name : String} {expected : ℕ} {payload : Wire α}
    {update : α → σ → σ × Option PbfError} {s : σ} {b rest : List UInt8} {a : α}
    (found : payload.on b = (.ok a, rest)) :
    readPayload name expected expected payload update s b = (update a s, rest) := by
  rw [readPayload, if_neg (not_not.mpr rfl), found]

/-- **A written value is read as it was written**, and a value that is not refused is read to its
end. -/
theorem readField_encode (reader : Option (FieldReader σ)) (s : σ) (v : WireValue)
    (rest : List UInt8) :
    (readField reader v.wire s (v.encode ++ rest)).1 = takeValue reader s v ∧
      ((takeValue reader s v).2 = none →
        (readField reader v.wire s (v.encode ++ rest)).2 = rest) := by
  rcases reader with _ | ⟨name, update⟩ | ⟨name, update⟩
  · rw [readField, skipField_encode]
    exact ⟨rfl, fun _ => rfl⟩
  · cases v with
    | varint v =>
        have read := @readPayload_ok σ UInt64 name 0 readUvarint update s _ rest v
          (readUvarint_toNat v rest)
        exact ⟨congrArg Prod.fst read, fun _ => congrArg Prod.snd read⟩
    | fixed64 b => exact ⟨rfl, nofun⟩
    | bytes p => exact ⟨rfl, nofun⟩
    | fixed32 b => exact ⟨rfl, nofun⟩
  · cases v with
    | bytes p =>
        have read := @readPayload_ok σ (List UInt8) name 2 readBytes update s _ rest p.bytes
          (readBytes_payload p rest)
        exact ⟨congrArg Prod.fst read, fun _ => congrArg Prod.snd read⟩
    | varint v => exact ⟨rfl, nofun⟩
    | fixed64 b => exact ⟨rfl, nofun⟩
    | fixed32 b => exact ⟨rfl, nofun⟩

/-- The number and the wire type share the tag of a field. -/
theorem tag_parts {n w : ℕ} (numbered : n < 2 ^ 29) (isWire : w < 8) :
    (UInt64.ofNat (8 * n + w) >>> 3).toNat = n ∧ (UInt64.ofNat (8 * n + w) &&& 7).toNat = w := by
  have fits : 8 * n + w < 2 ^ 64 := by omega
  constructor
  · rw [UInt64.toNat_shiftRight, UInt64.toNat_ofNat', Nat.mod_eq_of_lt fits]
    change (8 * n + w) >>> 3 = n
    rw [Nat.shiftRight_eq_div_pow]
    omega
  · rw [UInt64.toNat_and, UInt64.toNat_ofNat', Nat.mod_eq_of_lt fits]
    change (8 * n + w) &&& (2 ^ 3 - 1) = w
    rw [Nat.and_two_pow_sub_one_eq_mod]
    omega

/-- One field of a message that is not at its end. -/
theorem scanMessage_step (readers : ℕ → Option (FieldReader σ)) (s : σ) {raw rest : List UInt8}
    {tag : UInt64} (more : raw ≠ []) (read : readUvarint.on raw = (.ok tag, rest)) :
    scanMessage readers s raw =
      match readField (readers (tag >>> 3).toNat) (tag &&& 7).toNat s rest with
      | ((s, some e), _) => (s, some e)
      | ((s, none), rest) => scanMessage readers s rest := by
  cases raw with
  | nil => exact absurd rfl more
  | cons c b =>
      rw [scanMessage, read]
      dsimp only
      cases readField (readers (tag >>> 3).toNat) (tag &&& 7).toNat s rest with
      | mk result rest =>
          obtain ⟨s, failed⟩ := result
          cases failed <;> rfl

/-- **A written message is read field by field**, up to the first field that is refused. -/
theorem scanMessage_encodeMessage (readers : ℕ → Option (FieldReader σ)) (fs : List WireField) :
    ∀ s : σ, scanMessage readers s (encodeMessage fs) = takeFields readers s fs := by
  induction fs with
  | nil =>
      intro s
      rw [encodeMessage, List.flatMap_nil, scanMessage, takeFields]
  | cons f fs ih =>
      intro s
      have isWire := f.value.wire_lt
      have fits : 8 * f.number + f.value.wire < 2 ^ 64 := by
        have numbered := f.numbered
        omega
      have whole : encodeMessage (f :: fs) =
          appendUvarint (8 * f.number + f.value.wire) ++ (f.value.encode ++ encodeMessage fs) := by
        rw [encodeMessage, List.flatMap_cons, WireField.encode, List.append_assoc]
        rfl
      have more : encodeMessage (f :: fs) ≠ [] := by
        intro empty
        rw [whole] at empty
        have longer := (Varint.appendUvarint_length (8 * f.number + f.value.wire)).1
        rw [(List.append_eq_nil_iff.mp empty).1] at longer
        exact absurd longer (Nat.lt_irrefl 0)
      have read := readUvarint_appendUvarint fits (f.value.encode ++ encodeMessage fs)
      rw [← whole] at read
      obtain ⟨isNumber, isValue⟩ := tag_parts f.numbered isWire
      rw [scanMessage_step readers s more read, isNumber, isValue, takeFields]
      obtain ⟨taken, rest⟩ := readField_encode (readers f.number) s f.value (encodeMessage fs)
      cases outcome : readField (readers f.number) f.value.wire s
          (f.value.encode ++ encodeMessage fs) with
      | mk result left =>
          rw [outcome] at taken rest
          obtain ⟨s', failed⟩ := result
          rw [← taken] at rest ⊢
          cases failed with
          | some e => rfl
          | none =>
              obtain rfl : left = encodeMessage fs := rest rfl
              exact ih s'

theorem parseMessage_encodeMessage {readers : ℕ → Option (FieldReader σ)} {fs : List WireField}
    {s s' : σ} (taken : takeFields readers s fs = (s', none)) :
    parseMessage readers s (encodeMessage fs) = .ok s' := by
  rw [parseMessage, scanMessage_encodeMessage, taken]

theorem takeFields_bytes {readers : ℕ → Option (FieldReader σ)} {k : ℕ} {name : String}
    {update : List UInt8 → σ → σ × Option PbfError} {p : Payload} {numbered : k < 2 ^ 29} {s s' : σ}
    {rest : List WireField} (reads : readers k = some (.bytes name update))
    (taken : update p.bytes s = (s', none)) :
    takeFields readers s (⟨k, .bytes p, numbered⟩ :: rest) = takeFields readers s' rest := by
  rw [takeFields, reads, takeValue, taken]

theorem takeFields_unread {readers : ℕ → Option (FieldReader σ)} {f : WireField} {s : σ}
    {rest : List WireField} (unread : readers f.number = none) :
    takeFields readers s (f :: rest) = takeFields readers s rest := by
  rw [takeFields, unread, takeValue]

end Messages

/-! ## What a message says of a number -/

/-- The number that a field carries under a field number. -/
def WireField.varintOf (k : ℕ) (f : WireField) : Option UInt64 :=
  match f.value with
  | .varint v => if f.number = k then some v else none
  | _ => none

/-- The bytes that a field carries under a field number. -/
def WireField.bytesOf (k : ℕ) (f : WireField) : Option (List UInt8) :=
  match f.value with
  | .bytes p => if f.number = k then some p.bytes else none
  | _ => none

theorem WireField.varintOf_ne {k : ℕ} (f : WireField) (differ : f.number ≠ k) :
    f.varintOf k = none := by
  rw [WireField.varintOf]
  cases f.value with
  | varint v => exact if_neg differ
  | _ => rfl

theorem WireField.bytesOf_ne {k : ℕ} (f : WireField) (differ : f.number ≠ k) :
    f.bytesOf k = none := by
  rw [WireField.bytesOf]
  cases f.value with
  | bytes p => exact if_neg differ
  | _ => rfl

/-- The number under a field number; of several ones the last one counts. -/
def lastVarint (k : ℕ) (fs : List WireField) : Option UInt64 :=
  (fs.filterMap (WireField.varintOf k)).getLast?

/-- All segments under a field number. -/
def segments (k : ℕ) (fs : List WireField) : List (List UInt8) :=
  fs.filterMap (WireField.bytesOf k)

/-- The fields with some numbers hold numbers, and those with others hold bytes. -/
structure Typed (varints bytes : List ℕ) (fs : List WireField) : Prop where
  varint : ∀ f ∈ fs, f.number ∈ varints → ∃ v, f.value = .varint v
  bytes : ∀ f ∈ fs, f.number ∈ bytes → ∃ p, f.value = .bytes p

theorem Typed.tail {varints bytes : List ℕ} {f : WireField} {fs : List WireField}
    (typed : Typed varints bytes (f :: fs)) : Typed varints bytes fs :=
  ⟨fun g member => typed.varint g (List.mem_cons_of_mem f member),
    fun g member => typed.bytes g (List.mem_cons_of_mem f member)⟩

/-- A field holds a number that is read, bytes that are read, or nothing that is. -/
theorem Typed.kinds {varints bytes : List ℕ} {fs : List WireField} (typed : Typed varints bytes fs)
    {f : WireField} (member : f ∈ fs) :
    (f.number ∈ varints ∧ ∃ v, f.value = .varint v) ∨
      (f.number ∈ bytes ∧ ∃ p, f.value = .bytes p) ∨ f.number ∉ varints ∧ f.number ∉ bytes := by
  by_cases isVarint : f.number ∈ varints
  · exact .inl ⟨isVarint, typed.varint f member isVarint⟩
  by_cases isBytes : f.number ∈ bytes
  · exact .inr (.inl ⟨isBytes, typed.bytes f member isBytes⟩)
  · exact .inr (.inr ⟨isVarint, isBytes⟩)

theorem lastVarint_cons (k : ℕ) (f : WireField) (fs : List WireField) :
    lastVarint k (f :: fs) = (lastVarint k fs).or (f.varintOf k) := by
  rw [lastVarint, lastVarint, List.filterMap_cons]
  cases f.varintOf k with
  | none => rw [Option.or_none]
  | some v =>
      dsimp only
      rw [List.getLast?_cons]
      cases (fs.filterMap (WireField.varintOf k)).getLast? <;> rfl

/-- What the number under a field number means, with what stands when there is none. -/
def lastOf {α : Type} (decode : UInt64 → α) (k : ℕ) (otherwise : α) (fs : List WireField) : α :=
  ((lastVarint k fs).map decode).getD otherwise

theorem lastOf_cons {α : Type} (decode : UInt64 → α) (k : ℕ) (otherwise : α) (f : WireField)
    (fs : List WireField) :
    lastOf decode k otherwise (f :: fs) =
      lastOf decode k (((f.varintOf k).map decode).getD otherwise) fs := by
  rw [lastOf, lastOf, lastVarint_cons]
  cases lastVarint k fs <;> rfl

/-- A number that was written, or left out as what stands without it. -/
theorem lastOf_written {α : Type} {decode : UInt64 → α} {k : ℕ} {fs : List WireField}
    {v otherwise : UInt64} (written : (lastVarint k fs).getD otherwise = v) :
    lastOf decode k (decode otherwise) fs = decode v := by
  rw [lastOf, Option.getD_map, written]

theorem segments_cons (k : ℕ) (f : WireField) (fs : List WireField) :
    segments k (f :: fs) = (f.bytesOf k).toList ++ segments k fs := by
  rw [segments, segments, List.filterMap_cons]
  cases f.bytesOf k <;> rfl

/-! ## Packed numbers -/

/-- Numbers one after the other. -/
def packedNumbers (vs : List UInt64) : List UInt8 := vs.flatMap fun v => appendUvarint v.toNat

/-- A signed number as it is written. -/
def zigzagEncode64 (d : Int64) : UInt64 := UInt64.ofNat (zigzag d.toInt)

theorem zigzagDecode64_encode (d : Int64) : zigzagDecode64 (zigzagEncode64 d) = d := by
  rw [zigzagEncode64, zigzagDecode64_eq (zigzag_lt d), Varint.unzigzag_zigzag, Int64.ofInt_toInt]

/-- The cursor reads a number from the front of the first segment. -/
theorem nextPacked_number (v : UInt64) (seg : List UInt8) (segs : List (List UInt8)) :
    nextPacked ((appendUvarint v.toNat ++ seg) :: segs) = (.ok (some v), seg :: segs) := by
  have read := readUvarint_toNat v seg
  cases bytes : appendUvarint v.toNat ++ seg with
  | nil =>
      have longer := (Varint.appendUvarint_length v.toNat).1
      rw [(List.append_eq_nil_iff.mp bytes).1] at longer
      exact absurd longer (Nat.lt_irrefl 0)
  | cons c b =>
      rw [bytes] at read
      rw [nextPacked]
      split_ifs with small
      · -- The short way for one byte gives what the reader gives.
        have one : readUvarint.on (c :: b) = (.ok (0 ||| c.toUInt64 <<< UInt64.ofNat 0), b) := by
          have known : readUvarint.on (c :: b) = readUvarintFrom 0 0 (c :: b) := rfl
          have inRange : ¬(64 ≤ 0 ∨ 0 = 63 ∧ 1 < c) := by
            rintro (large | ⟨at63, -⟩) <;> omega
          rw [known, readUvarintFrom, if_pos small, if_neg inRange]
        obtain ⟨value, rest⟩ := Prod.mk.inj (one.symm.trans read)
        have isByte : 0 ||| c.toUInt64 <<< UInt64.ofNat 0 = c.toUInt64 := by
          rw [UInt64.zero_or]
          exact UInt64.shiftLeft_zero
        rw [← Except.ok.inj value, isByte, rest]
      · rw [read]
        rfl

theorem packedValues_nil : packedValues [] = ([], none) := by
  rw [packedValues]
  rfl

theorem packedValues_empty (segs : List (List UInt8)) :
    packedValues ([] :: segs) = packedValues segs := by
  conv_lhs => rw [packedValues]
  conv_rhs => rw [packedValues]
  simp only [nextPacked]

theorem packedValues_number (v : UInt64) (seg : List UInt8) (segs : List (List UInt8)) :
    packedValues ((appendUvarint v.toNat ++ seg) :: segs) =
      (v :: (packedValues (seg :: segs)).1, (packedValues (seg :: segs)).2) := by
  rw [packedValues]
  split
  · next e failed =>
      rw [nextPacked_number] at failed
      cases failed
  · next ended =>
      rw [nextPacked_number] at ended
      cases ended
  · next w found =>
      rw [nextPacked_number] at found ⊢
      rw [← Option.some.inj (Except.ok.inj found)]

/-- **Packed numbers are read back**, wherever they were split. -/
theorem packedValues_packedNumbers (split : List (List UInt64)) :
    packedValues (split.map packedNumbers) = (split.flatten, none) := by
  induction split with
  | nil => exact packedValues_nil
  | cons vs split ih =>
      rw [List.map_cons, List.flatten_cons]
      induction vs with
      | nil => exact (packedValues_empty _).trans ih
      | cons v vs inner =>
          have whole : packedNumbers (v :: vs) = appendUvarint v.toNat ++ packedNumbers vs :=
            List.flatMap_cons
          rw [whole, packedValues_number, inner, List.cons_append]

end OsmMini.Core.Pbf

import OsmMini.Foundations.Varint

/-!
# Reading protobuf fields

A reader takes bytes from the front of a message and leaves the rest, also when it fails:
a caller that ignores an error goes on where the reader stopped. A message is a sequence
of fields, each a tag and a payload, and what is read of a field depends on its number and
on its wire type.
-/

set_option autoImplicit false

namespace OsmMini.Core.Pbf

open OsmMini.Foundations

/-- The errors of an extraction. The end of a stream is only told apart from a stream
that ends too early by which of the first two errors is reported. -/
inductive PbfError
  | eof
  | unexpectedEOF
  /-- What the decompressor reports for data it cannot decode. -/
  | zlib
  | format (message : String)
  | wrapped (context : String) (err : PbfError)
  deriving DecidableEq, Repr

/-- Whether an error is, or wraps, the end of a stream. -/
def PbfError.isEOF : PbfError → Bool
  | .eof => true
  | .wrapped _ err => err.isEOF
  | _ => false

/-- A reader of the bytes of a message. -/
abbrev Wire (α : Type) := ExceptT PbfError (StateM (List UInt8)) α

/-- Run a reader on a message. -/
def Wire.on {α : Type} (m : Wire α) (b : List UInt8) : Except PbfError α × List UInt8 :=
  StateT.run (ExceptT.run m) b

/-! ## Numbers -/

/-- Read the remaining bytes of a number of which `s` bits are known. -/
def readUvarintFrom (x : UInt64) (s : ℕ) : List UInt8 → Except PbfError UInt64 × List UInt8
  | [] => (.error .unexpectedEOF, [])
  | c :: b =>
    if c < 0x80 then
      if 64 ≤ s ∨ (s = 63 ∧ 1 < c) then (.error (.format "varint overflow"), b)
      else (.ok (x ||| c.toUInt64 <<< UInt64.ofNat s), b)
    else if 64 ≤ s + 7 then (.error (.format "varint overflow"), b)
    else readUvarintFrom (x ||| (c &&& 0x7f).toUInt64 <<< UInt64.ofNat s) (s + 7) b

def readUvarint : Wire UInt64 := ExceptT.mk fun b => readUvarintFrom 0 0 b

def zigzagDecode64 (u : UInt64) : Int64 :=
  ((u >>> 1) ^^^ (-(u &&& 1).toInt64).toUInt64).toInt64

/-! ## Payloads -/

/-- Take `n` bytes, which must be there. -/
def takeBytes (n : ℕ) : Wire (List UInt8) := ExceptT.mk fun b =>
  if b.length < n then (.error .unexpectedEOF, b) else (.ok (b.take n), b.drop n)

def readBytes : Wire (List UInt8) := do
  let n ← readUvarint
  takeBytes n.toNat

def skipField (wire : ℕ) : Wire Unit :=
  match wire with
  | 0 => do let _ ← readUvarint
  | 1 => do let _ ← takeBytes 8
  | 2 => do let _ ← readBytes
  | 5 => do let _ ← takeBytes 4
  | _ => throw (.format s!"unsupported wire type: {wire}")

/-! ## What a reader leaves -/

/-- A reader takes bytes and adds none. -/
def Wire.Shortens {α : Type} (m : Wire α) : Prop :=
  ∀ b : List UInt8, (m.on b).2.length ≤ b.length

section Shortens

variable {α β : Type}

theorem Wire.on_bind (m : Wire α) (next : α → Wire β) (b : List UInt8) :
    (m >>= next).on b =
      match m.on b with
      | (.ok a, rest) => (next a).on rest
      | (.error e, rest) => (.error e, rest) := by
  simp only [Wire.on, ExceptT.run_bind, StateT.run_bind]
  cases done : StateT.run (ExceptT.run m) b with
  | mk result rest =>
      cases result with
      | ok a => rfl
      | error e => rfl

theorem Wire.Shortens.bind {m : Wire α} {next : α → Wire β} (first : m.Shortens)
    (later : ∀ a, (next a).Shortens) : (m >>= next).Shortens := by
  intro b
  have taken := first b
  rw [Wire.on_bind]
  cases done : m.on b with
  | mk result rest =>
      rw [done] at taken
      cases result with
      | ok a => exact (later a rest).trans taken
      | error e => exact taken

theorem Wire.shortens_throw (e : PbfError) : (throw e : Wire α).Shortens := fun _ => le_refl _

theorem readUvarintFrom_length (x : UInt64) (s : ℕ) (b : List UInt8) :
    (readUvarintFrom x s b).2.length ≤ b.length - 1 := by
  induction b generalizing x s with
  | nil => exact le_refl _
  | cons c b ih =>
      rw [readUvarintFrom]
      split_ifs
      · exact le_refl _
      · exact le_refl _
      · exact le_refl _
      · exact (ih _ _).trans (Nat.sub_le _ _)

/-- Reading a number takes a byte, if there is one. -/
theorem readUvarint_length (b : List UInt8) : (readUvarint.on b).2.length ≤ b.length - 1 :=
  readUvarintFrom_length 0 0 b

theorem readUvarint_shortens : readUvarint.Shortens := fun b =>
  (readUvarint_length b).trans (Nat.sub_le _ _)

theorem takeBytes_on (n : ℕ) (b : List UInt8) :
    (takeBytes n).on b =
      if b.length < n then (.error .unexpectedEOF, b) else (.ok (b.take n), b.drop n) := rfl

theorem takeBytes_shortens (n : ℕ) : (takeBytes n).Shortens := by
  intro b
  rw [takeBytes_on]
  split_ifs
  · exact le_refl _
  · exact (List.length_drop ..).trans_le (Nat.sub_le _ _)

theorem readBytes_shortens : readBytes.Shortens :=
  readUvarint_shortens.bind fun n => takeBytes_shortens n.toNat

theorem skipField_shortens (wire : ℕ) : (skipField wire).Shortens := by
  unfold skipField
  split
  · exact readUvarint_shortens.bind fun _ _ => le_refl _
  · exact (takeBytes_shortens 8).bind fun _ _ => le_refl _
  · exact readBytes_shortens.bind fun _ _ => le_refl _
  · exact (takeBytes_shortens 4).bind fun _ _ => le_refl _
  · exact Wire.shortens_throw _

end Shortens

/-! ## Messages -/

/-- How a field with a known number changes what has been read of its message. -/
inductive FieldReader (σ : Type)
  | varint (name : String) (update : UInt64 → σ → σ × Option PbfError)
  | bytes (name : String) (update : List UInt8 → σ → σ × Option PbfError)

section Messages

variable {σ : Type}

/-- Read a payload of the expected wire type and take it in. -/
def readPayload {α : Type} (name : String) (expected wire : ℕ) (payload : Wire α)
    (update : α → σ → σ × Option PbfError) (s : σ) (b : List UInt8) :
    (σ × Option PbfError) × List UInt8 :=
  if wire ≠ expected then ((s, some (.format s!"{name}: wrong wire={wire}")), b)
  else
    match payload.on b with
    | (.error e, rest) => ((s, some e), rest)
    | (.ok v, rest) => (update v s, rest)

/-- Read the payload of a field; a field without a reader is skipped. -/
def readField (reader : Option (FieldReader σ)) (wire : ℕ) (s : σ) (b : List UInt8) :
    (σ × Option PbfError) × List UInt8 :=
  match reader with
  | some (.varint name update) => readPayload name 0 wire readUvarint update s b
  | some (.bytes name update) => readPayload name 2 wire readBytes update s b
  | none =>
    match (skipField wire).on b with
    | (.error e, rest) => ((s, some e), rest)
    | (.ok _, rest) => ((s, none), rest)

theorem readPayload_length {α : Type} {payload : Wire α} (shortens : payload.Shortens)
    (name : String) (expected wire : ℕ) (update : α → σ → σ × Option PbfError) (s : σ)
    (b : List UInt8) :
    (readPayload name expected wire payload update s b).2.length ≤ b.length := by
  have taken := shortens b
  unfold readPayload
  split_ifs
  · exact le_refl _
  · cases done : payload.on b with
    | mk result rest =>
        rw [done] at taken
        cases result with
        | ok v => exact taken
        | error e => exact taken

theorem readField_length (reader : Option (FieldReader σ)) (wire : ℕ) (s : σ) (b : List UInt8) :
    (readField reader wire s b).2.length ≤ b.length := by
  match reader with
  | some (.varint name update) => exact readPayload_length readUvarint_shortens ..
  | some (.bytes name update) => exact readPayload_length readBytes_shortens ..
  | none =>
      have taken := skipField_shortens wire b
      unfold readField
      cases done : (skipField wire).on b with
      | mk result rest =>
          rw [done] at taken
          cases result with
          | ok v => exact taken
          | error e => exact taken

/-- Read a message field by field, up to the first error. -/
def scanMessage (fields : ℕ → Option (FieldReader σ)) (s : σ) (raw : List UInt8) :
    σ × Option PbfError :=
  match raw with
  | [] => (s, none)
  | c :: b =>
    let tag := readUvarint.on (c :: b)
    match tag.1 with
    | .error e => (s, some e)
    | .ok tag' =>
      let read := readField (fields (tag' >>> 3).toNat) (tag' &&& 7).toNat s tag.2
      match read.1 with
      | (s, some e) => (s, some e)
      | (s, none) => scanMessage fields s read.2
termination_by raw.length
decreasing_by
  exact Nat.lt_succ_of_le ((readField_length ..).trans (readUvarint_length (c :: b)))

/-- What a message was read as, when it was read to its end. -/
def parseMessage (fields : ℕ → Option (FieldReader σ)) (s : σ) (raw : List UInt8) :
    Except PbfError σ :=
  match scanMessage fields s raw with
  | (s, none) => .ok s
  | (_, some e) => .error e

end Messages

end OsmMini.Core.Pbf

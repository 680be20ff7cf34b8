import OsmMini.Core.Pbf.Stream

/-!
# The end of a stream

The extraction takes one error for the end of a stream. No reader of a message, no header
and no decoder reports that error: only the first read of a block does, and only when no
byte is left.
-/

set_option autoImplicit false

namespace OsmMini.Core.Pbf

/-! ## Readers -/

/-- A reader that never reports the end of a stream. -/
def Wire.NeverEOF {α : Type} (m : Wire α) : Prop :=
  ∀ (b : List UInt8) (e : PbfError), (m.on b).1 = .error e → e.isEOF = false

section Readers

variable {α β : Type}

theorem Wire.NeverEOF.bind {m : Wire α} {next : α → Wire β} (first : m.NeverEOF)
    (later : ∀ a, (next a).NeverEOF) : (m >>= next).NeverEOF := by
  intro b e failed
  rw [Wire.on_bind] at failed
  cases done : m.on b with
  | mk result rest =>
      rw [done] at failed
      cases result with
      | ok a => exact later a rest e failed
      | error e' =>
          obtain rfl := Except.error.inj failed
          exact first b e' (by rw [done])

theorem Wire.neverEOF_pure (a : α) : (pure a : Wire α).NeverEOF := by
  intro b e failed
  cases failed

theorem readUvarintFrom_neverEOF {x : UInt64} {s : ℕ} {b : List UInt8} {e : PbfError}
    (failed : (readUvarintFrom x s b).1 = .error e) : e.isEOF = false := by
  induction b generalizing x s with
  | nil =>
      obtain rfl := Except.error.inj failed
      rfl
  | cons c b ih =>
      rw [readUvarintFrom] at failed
      split_ifs at failed
      · obtain rfl := Except.error.inj failed
        rfl
      · obtain rfl := Except.error.inj failed
        rfl
      · exact ih failed

theorem readUvarint_neverEOF : readUvarint.NeverEOF := fun _ _ => readUvarintFrom_neverEOF

theorem takeBytes_neverEOF (n : ℕ) : (takeBytes n).NeverEOF := by
  intro b e failed
  rw [takeBytes_on] at failed
  split_ifs at failed
  obtain rfl := Except.error.inj failed
  rfl

theorem readBytes_neverEOF : readBytes.NeverEOF :=
  readUvarint_neverEOF.bind fun n => takeBytes_neverEOF n.toNat

theorem skipField_neverEOF (wire : ℕ) : (skipField wire).NeverEOF := by
  unfold skipField
  split
  · exact readUvarint_neverEOF.bind fun _ => Wire.neverEOF_pure ()
  · exact (takeBytes_neverEOF 8).bind fun _ => Wire.neverEOF_pure ()
  · exact readBytes_neverEOF.bind fun _ => Wire.neverEOF_pure ()
  · exact (takeBytes_neverEOF 4).bind fun _ => Wire.neverEOF_pure ()
  · intro b e failed
    obtain rfl := Except.error.inj failed
    rfl

end Readers

/-! ## Messages -/

section Messages

variable {σ : Type}

/-- A field that never reports the end of a stream. -/
def FieldReader.NeverEOF : FieldReader σ → Prop
  | .varint _ update => ∀ v s e, (update v s).2 = some e → e.isEOF = false
  | .bytes _ update => ∀ b s e, (update b s).2 = some e → e.isEOF = false

theorem readPayload_neverEOF {α : Type} {payload : Wire α} (reader : payload.NeverEOF)
    {update : α → σ → σ × Option PbfError}
    (updates : ∀ v s e, (update v s).2 = some e → e.isEOF = false) (name : String)
    (expected wire : ℕ) (s : σ) (b : List UInt8) (e : PbfError)
    (failed : (readPayload name expected wire payload update s b).1.2 = some e) :
    e.isEOF = false := by
  unfold readPayload at failed
  split_ifs at failed
  · obtain rfl := Option.some.inj failed
    rfl
  · have known := reader b
    cases done : payload.on b with
    | mk result rest =>
        rw [done] at failed known
        cases result with
        | ok v => exact updates v s e failed
        | error e' =>
            obtain rfl := Option.some.inj failed
            exact known e' rfl

theorem readField_neverEOF {reader : Option (FieldReader σ)}
    (quiet : ∀ f, reader = some f → f.NeverEOF) (wire : ℕ) (s : σ) (b : List UInt8) (e : PbfError)
    (failed : (readField reader wire s b).1.2 = some e) : e.isEOF = false := by
  match reader with
  | some (.varint name update) =>
      exact readPayload_neverEOF readUvarint_neverEOF (quiet _ rfl) _ _ _ _ _ _ failed
  | some (.bytes name update) =>
      exact readPayload_neverEOF readBytes_neverEOF (quiet _ rfl) _ _ _ _ _ _ failed
  | none =>
      have known := skipField_neverEOF wire b
      unfold readField at failed
      cases done : (skipField wire).on b with
      | mk result rest =>
          rw [done] at failed known
          cases result with
          | ok v => cases failed
          | error e' =>
              obtain rfl := Option.some.inj failed
              exact known e' rfl

theorem scanMessage_neverEOF {fields : ℕ → Option (FieldReader σ)}
    (quiet : ∀ n f, fields n = some f → f.NeverEOF) (s : σ) (raw : List UInt8) (e : PbfError)
    (failed : (scanMessage fields s raw).2 = some e) : e.isEOF = false := by
  fun_induction scanMessage fields s raw with
  | case1 s => cases failed
  | case2 s c b tag e' badTag =>
      obtain rfl := Option.some.inj failed
      exact readUvarint_neverEOF _ _ badTag
  | case3 s c b tag tag' goodTag read s' e' badField =>
      obtain rfl := Option.some.inj failed
      exact readField_neverEOF (quiet _) _ _ _ _ (congrArg Prod.snd badField)
  | case4 s c b tag tag' goodTag read s' goodField ih => exact ih failed

theorem parseMessage_neverEOF {fields : ℕ → Option (FieldReader σ)}
    (quiet : ∀ n f, fields n = some f → f.NeverEOF) {s : σ} {raw : List UInt8} {e : PbfError}
    (failed : parseMessage fields s raw = .error e) : e.isEOF = false := by
  have known := scanMessage_neverEOF quiet s raw
  unfold parseMessage at failed
  cases done : scanMessage fields s raw with
  | mk s' err =>
      rw [done] at failed known
      cases err with
      | none => cases failed
      | some e' =>
          obtain rfl := Except.error.inj failed
          exact known e' rfl

end Messages

/-! ## Headers and blobs -/

theorem parseBlobHeader_neverEOF {b : List UInt8} {e : PbfError}
    (failed : parseBlobHeader b = .error e) : e.isEOF = false := by
  have quiet : ∀ n f, blobHeaderFields n = some f → f.NeverEOF := by
    intro n f reader
    unfold blobHeaderFields at reader
    split at reader
    · obtain rfl := Option.some.inj reader
      intro b s e failed
      cases failed
    · obtain rfl := Option.some.inj reader
      intro v s e failed
      dsimp only at failed
      split_ifs at failed
      obtain rfl := Option.some.inj failed
      rfl
    · cases reader
  unfold parseBlobHeader at failed
  split at failed
  · next parsed => exact (Except.error.inj failed) ▸ parseMessage_neverEOF quiet parsed
  · split at failed
    · exact (Except.error.inj failed) ▸ rfl
    · exact (Except.error.inj failed) ▸ rfl
    · exact (Except.error.inj failed) ▸ rfl
    · cases failed

variable {inflate : List UInt8 → Inflated}

theorem decodeZlib_neverEOF {z : List UInt8} {rawSize : Int32} {e : PbfError}
    (failed : (decodeZlib inflate z rawSize).result = .error e) : e.isEOF = false := by
  unfold decodeZlib at failed
  split at failed
  · exact (Except.error.inj failed) ▸ rfl
  · dsimp only at failed
    split at failed
    · exact (Except.error.inj failed) ▸ rfl
    · split at failed
      · exact (Except.error.inj failed) ▸ rfl
      · split at failed
        · exact (Except.error.inj failed) ▸ rfl
        · cases failed

theorem decode_neverEOF {b : List UInt8} {e : PbfError}
    (failed : (decode inflate b).result = .error e) : e.isEOF = false := by
  have quiet : ∀ n f, blobFields n = some f → f.NeverEOF := by
    intro n f reader
    unfold blobFields at reader
    split at reader <;> cases reader <;> (intro v s e failed; cases failed)
  unfold decode at failed
  split at failed
  · next parsed => exact (Except.error.inj failed) ▸ parseMessage_neverEOF quiet parsed
  · split at failed
    · split_ifs at failed
      exact (Except.error.inj failed) ▸ rfl
    · exact decodeZlib_neverEOF failed
    · exact (Except.error.inj failed) ▸ rfl
    · exact (Except.error.inj failed) ▸ rfl
    · exact (Except.error.inj failed) ▸ rfl

theorem blockContents_neverEOF {typ encoded rest : List UInt8} {e : PbfError}
    (failed : (blockContents inflate typ encoded rest).result = .error e) : e.isEOF = false := by
  unfold blockContents at failed
  split_ifs at failed
  dsimp only at failed
  cases decoded : (decode inflate encoded).result with
  | ok raw =>
      rw [decoded] at failed
      cases failed
  | error e' =>
      rw [decoded] at failed
      obtain rfl := Except.error.inj failed
      exact decode_neverEOF decoded

theorem readFull_error {n : ℕ} {r rest : List UInt8} {e : PbfError}
    (failed : readFull n r = (.error e, rest)) :
    (r = [] ∧ e = .eof) ∨ (r ≠ [] ∧ e = .unexpectedEOF) := by
  unfold readFull at failed
  split at failed
  · cases failed
  · have error := (Except.error.inj (Prod.mk.inj failed).1).symm
    by_cases empty : r = []
    · exact Or.inl ⟨empty, by rw [error, if_pos (List.isEmpty_iff.mpr empty)]⟩
    · exact Or.inr ⟨empty, by rw [error, if_neg (mt List.isEmpty_iff.mp empty)]⟩

theorem readBlob_neverEOF {size : Int32} {r encoded rest : List UInt8} {e : PbfError}
    (failed : readBlob size r = (.error e, encoded, rest)) : e.isEOF = false := by
  unfold readBlob at failed
  split at failed
  · exact (Except.error.inj (Prod.mk.inj failed).1) ▸ rfl
  · dsimp only at failed
    split at failed
    · exact (Except.error.inj (Prod.mk.inj failed).1) ▸ rfl
    · cases failed

/-- **The end of a stream is only reported where no byte is left.** -/
theorem readNextBlock_eof {r : List UInt8} {e : PbfError}
    (failed : (readNextBlock inflate r).result = .error e) (eof : e.isEOF = true) : r = [] := by
  have contradiction : ∀ {e' : PbfError}, e'.isEOF = false → e' = e → r = [] := by
    rintro e' quiet rfl
    exact absurd (quiet.symm.trans eof) (by simp)
  unfold readNextBlock at failed
  split at failed
  · next e' rest noWord =>
    obtain ⟨empty, rfl⟩ | ⟨-, rfl⟩ := readFull_error noWord
    · exact empty
    · exact contradiction (by rfl) (Except.error.inj failed)
  next word r1 gotWord =>
  dsimp only at failed
  split at failed
  · exact contradiction (by rfl) (Except.error.inj failed)
  split at failed
  · next e' rest noHeader =>
    obtain ⟨-, rfl⟩ | ⟨-, rfl⟩ := readFull_error noHeader
    · exact contradiction (by rfl) (Except.error.inj failed)
    · exact contradiction (by rfl) (Except.error.inj failed)
  next header r2 gotHeader =>
  split at failed
  · next e' badHeader =>
    exact contradiction (parseBlobHeader_neverEOF badHeader) (Except.error.inj failed)
  next typ datasize parsed =>
  split at failed
  · exact contradiction (by rfl) (Except.error.inj failed)
  split at failed
  · exact contradiction (by rfl) (Except.error.inj failed)
  split at failed
  · next e' encoded rest noBlob =>
    exact contradiction (readBlob_neverEOF noBlob) (Except.error.inj failed)
  next blob encoded r3 gotBlob =>
  exact contradiction (blockContents_neverEOF failed) rfl

end OsmMini.Core.Pbf

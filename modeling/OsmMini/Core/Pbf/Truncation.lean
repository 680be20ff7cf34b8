import OsmMini.Core.Pbf.Errors

/-!
# Truncated streams

A run without an error has read whole blocks to the end of its stream, and reading whole
blocks is all it depends on. So a prefix of such a stream is accepted exactly when it ends
between two blocks, and its calls are then those the full run makes up to there.
-/

set_option autoImplicit false

namespace OsmMini.Core.Pbf

variable (inflate : List UInt8 → Inflated) (opts : Options) (cb : Callbacks)

/-- The bytes of a sequence of blocks. -/
def stream (fs : List Frame) : List UInt8 := fs.flatMap Frame.bytes

/-- The calls a block leads to. -/
def Frame.run (f : Frame) : Calls :=
  match (blockContents inflate f.typ f.blob []).result with
  | .error e => ([], some e)
  | .ok (typ, raw) => processBlock typ raw opts cb

/-! ## Runs over whole blocks -/

theorem readNextBlock_nil :
    readNextBlock inflate [] = ⟨.error .eof, [], [], []⟩ := rfl

theorem extract_nil : extract inflate opts cb [] = ⟨[], none, [⟨.error .eof, [], [], []⟩]⟩ := by
  rw [extract]
  rfl

theorem blockContents_result (typ encoded rest : List UInt8) :
    (blockContents inflate typ encoded rest).result =
      (blockContents inflate typ encoded []).result := by
  unfold blockContents
  split_ifs
  · rfl
  · rfl

theorem extract_error {r : List UInt8} {e : PbfError}
    (failed : (readNextBlock inflate r).result = .error e) :
    extract inflate opts cb r =
      ⟨[], if e.isEOF then none else some e, [readNextBlock inflate r]⟩ := by
  rw [extract]
  dsimp only
  split
  · next e' failed' =>
    obtain rfl := Except.error.inj (failed.symm.trans failed')
    rfl
  · next typ raw contents => exact absurd (failed.symm.trans contents) (by simp)

theorem extract_ok {r typ raw : List UInt8}
    (contents : (readNextBlock inflate r).result = .ok (typ, raw)) :
    extract inflate opts cb r =
      match processBlock typ raw opts cb with
      | (calls, some e) => ⟨calls, some e, [readNextBlock inflate r]⟩
      | (calls, none) =>
        let later := extract inflate opts cb (readNextBlock inflate r).rest
        ⟨calls ++ later.calls, later.err, readNextBlock inflate r :: later.reads⟩ := by
  rw [extract]
  dsimp only
  split
  · next e failed => exact absurd (failed.symm.trans contents) (by simp)
  · next typ' raw' contents' =>
    obtain ⟨rfl, rfl⟩ := Prod.mk.inj (Except.ok.inj (contents'.symm.trans contents))
    rfl

/-- A block in front of a stream either stops the run or comes before the run of the rest. -/
theorem extract_frame (f : Frame) (r : List UInt8) :
    ((f.run inflate opts cb).2 ≠ none ∧ (extract inflate opts cb (f.bytes ++ r)).err ≠ none) ∨
    ((f.run inflate opts cb).2 = none ∧
      (extract inflate opts cb (f.bytes ++ r)).err = (extract inflate opts cb r).err ∧
      (extract inflate opts cb (f.bytes ++ r)).calls =
        (f.run inflate opts cb).1 ++ (extract inflate opts cb r).calls) := by
  have read := readNextBlock_frame inflate f r
  have rest : (readNextBlock inflate (f.bytes ++ r)).rest = r := by
    rw [read, blockContents_rest]
  have same : (readNextBlock inflate (f.bytes ++ r)).result =
      (blockContents inflate f.typ f.blob []).result := by
    rw [read, blockContents_result]
  unfold Frame.run
  cases contents : (blockContents inflate f.typ f.blob []).result with
  | error e =>
      rw [extract_error inflate opts cb (same.trans contents), blockContents_neverEOF contents]
      exact Or.inl ⟨by simp, by simp⟩
  | ok block =>
      obtain ⟨typ, raw⟩ := block
      rw [extract_ok inflate opts cb (same.trans contents), rest]
      dsimp only
      cases done : processBlock typ raw opts cb with
      | mk calls err =>
          cases err with
          | none => exact Or.inr ⟨rfl, rfl, rfl⟩
          | some e => exact Or.inl ⟨by simp, by simp⟩

/-- A run without an error starts with the calls of the blocks in front of its stream. -/
theorem extract_append (fs : List Frame) (r : List UInt8)
    (complete : (extract inflate opts cb (stream fs ++ r)).err = none) :
    (∀ f ∈ fs, (f.run inflate opts cb).2 = none) ∧ (extract inflate opts cb r).err = none ∧
      (extract inflate opts cb (stream fs ++ r)).calls =
        fs.flatMap (fun f => (f.run inflate opts cb).1) ++ (extract inflate opts cb r).calls := by
  induction fs with
  | nil => exact ⟨by simp, complete, rfl⟩
  | cons f fs ih =>
      have split : stream (f :: fs) ++ r = f.bytes ++ (stream fs ++ r) := by
        rw [stream, List.flatMap_cons, List.append_assoc, stream]
      rw [split] at complete ⊢
      obtain ⟨-, failed⟩ | ⟨sound, err, calls⟩ :=
        extract_frame inflate opts cb f (stream fs ++ r)
      · exact absurd complete failed
      · obtain ⟨others, rest, later⟩ := ih (err.symm.trans complete)
        refine ⟨List.forall_mem_cons.mpr ⟨sound, others⟩, rest, ?_⟩
        rw [calls, later, List.flatMap_cons, List.append_assoc]

/-- Blocks that all run without an error make a run without an error. -/
theorem extract_stream {fs : List Frame} (sound : ∀ f ∈ fs, (f.run inflate opts cb).2 = none) :
    (extract inflate opts cb (stream fs)).err = none := by
  induction fs with
  | nil => exact congrArg Extraction.err (extract_nil inflate opts cb)
  | cons f fs ih =>
      obtain ⟨first, others⟩ := List.forall_mem_cons.mp sound
      rw [stream, List.flatMap_cons, ← stream]
      obtain ⟨failed, -⟩ | ⟨-, err, -⟩ := extract_frame inflate opts cb f (stream fs)
      · exact absurd first failed
      · exact err.trans (ih others)

/-- A run without an error reads whole blocks to the end of its stream. -/
theorem extract_whole {r : List UInt8} (complete : (extract inflate opts cb r).err = none) :
    ∃ fs : List Frame, r = stream fs := by
  induction length : r.length using Nat.strong_induction_on generalizing r with
  | _ n ih =>
  cases read : (readNextBlock inflate r).result with
  | error e =>
      rw [extract_error inflate opts cb read] at complete
      have eof : e.isEOF = true := by
        by_contra other
        simp [other] at complete
      exact ⟨[], readNextBlock_eof read eof⟩
  | ok contents =>
      obtain ⟨f, rest, rfl⟩ := @readNextBlock_ok inflate _ contents.1 contents.2 read
      obtain ⟨-, failed⟩ | ⟨-, err, -⟩ := extract_frame inflate opts cb f rest
      · exact absurd complete failed
      · have shorter : rest.length < n := by
          rw [← length, List.length_append]
          have := f.bytes_length
          omega
        obtain ⟨fs, rfl⟩ := ih rest.length shorter (err.symm.trans complete) rfl
        exact ⟨f :: fs, by rw [stream, stream, List.flatMap_cons]⟩

/-! ## What a run buffers -/

/-- A block that was read within the limits. To notice a blob that is too large, one byte
more than allowed is decoded; such a blob has no contents. -/
structure BlockRead.Bounded (read : BlockRead) : Prop where
  encoded : read.encoded.length ≤ maxPBFEncodedBytes
  decoded : read.decoded.length ≤ maxPBFDecodedBytes + 1
  contents : ∀ typ raw, read.result = .ok (typ, raw) →
    raw.length ≤ maxPBFDecodedBytes ∧ read.decoded.length ≤ maxPBFDecodedBytes

theorem decodeZlib_bounded (z : List UInt8) (rawSize : Int32) :
    (decodeZlib inflate z rawSize).buffer.length ≤ maxPBFDecodedBytes + 1 ∧
      ∀ raw, (decodeZlib inflate z rawSize).result = .ok raw →
        (decodeZlib inflate z rawSize).buffer = raw ∧ raw.length ≤ maxPBFDecodedBytes := by
  have taken := List.length_take_le (maxPBFDecodedBytes + 1) (inflate z).out
  unfold decodeZlib
  split
  · exact ⟨Nat.zero_le _, fun raw failed => by cases failed⟩
  · dsimp only
    split
    · exact ⟨taken, fun raw failed => by cases failed⟩
    · split
      · exact ⟨taken, fun raw failed => by cases failed⟩
      · next fits =>
        split
        · exact ⟨taken, fun raw failed => by cases failed⟩
        · refine ⟨taken, fun raw done => ?_⟩
          obtain rfl := Except.ok.inj done
          exact ⟨rfl, not_lt.mp fits⟩

theorem decode_bounded (b : List UInt8) :
    (decode inflate b).buffer.length ≤ maxPBFDecodedBytes + 1 ∧
      ∀ raw, (decode inflate b).result = .ok raw →
        (decode inflate b).buffer = raw ∧ raw.length ≤ maxPBFDecodedBytes := by
  unfold decode
  split
  · exact ⟨Nat.zero_le _, fun raw failed => by cases failed⟩
  · split
    · split
      · exact ⟨Nat.zero_le _, fun raw failed => by cases failed⟩
      · next fits =>
        refine ⟨(not_lt.mp fits).trans (Nat.le_succ _), fun raw done => ?_⟩
        obtain rfl := Except.ok.inj done
        exact ⟨rfl, not_lt.mp fits⟩
    · exact decodeZlib_bounded inflate _ _
    · exact ⟨Nat.zero_le _, fun raw failed => by cases failed⟩
    · exact ⟨Nat.zero_le _, fun raw failed => by cases failed⟩
    · exact ⟨Nat.zero_le _, fun raw failed => by cases failed⟩

theorem blockContents_bounded {typ encoded rest : List UInt8}
    (small : encoded.length ≤ maxPBFEncodedBytes) :
    (blockContents inflate typ encoded rest).Bounded := by
  unfold blockContents
  split
  · exact ⟨small, Nat.zero_le _, fun typ raw done => by
      obtain ⟨-, rfl⟩ := Prod.mk.inj (Except.ok.inj done)
      exact ⟨Nat.zero_le _, Nat.zero_le _⟩⟩
  · obtain ⟨buffer, contents⟩ := decode_bounded inflate encoded
    refine ⟨small, buffer, fun typ raw done => ?_⟩
    dsimp only at done ⊢
    cases decoded : (decode inflate encoded).result with
    | error e =>
        rw [decoded] at done
        cases done
    | ok raw' =>
        rw [decoded] at done
        obtain ⟨-, rfl⟩ := Prod.mk.inj (Except.ok.inj done)
        obtain ⟨same, le⟩ := contents raw' decoded
        exact ⟨le, same.symm ▸ le⟩

theorem readBlob_bounded (size : Int32) (r : List UInt8) :
    (readBlob size r).2.1.length ≤ maxPBFEncodedBytes := by
  unfold readBlob
  split
  · exact Nat.zero_le _
  · next inRange =>
    have taken := List.length_take_le size.toInt.toNat r
    dsimp only
    split
    · dsimp only
      omega
    · dsimp only
      omega

theorem readNextBlock_bounded (r : List UInt8) : (readNextBlock inflate r).Bounded := by
  have failed : ∀ (e : PbfError) (encoded rest : List UInt8),
      encoded.length ≤ maxPBFEncodedBytes → (BlockRead.mk (.error e) encoded [] rest).Bounded :=
    fun e encoded rest small => ⟨small, Nat.zero_le _, fun typ raw done => by cases done⟩
  unfold readNextBlock
  split
  · exact failed _ _ _ (Nat.zero_le _)
  dsimp only
  split
  · exact failed _ _ _ (Nat.zero_le _)
  split
  · exact failed _ _ _ (Nat.zero_le _)
  split
  · exact failed _ _ _ (Nat.zero_le _)
  next typ datasize parsed =>
  split
  · exact failed _ _ _ (Nat.zero_le _)
  split
  · exact failed _ _ _ (Nat.zero_le _)
  have small := readBlob_bounded datasize
  split
  · next e encoded rest noBlob =>
    exact failed _ _ _ (congrArg (fun read => read.2.1.length) noBlob ▸ small _)
  · next blob encoded rest gotBlob =>
    exact blockContents_bounded inflate (congrArg (fun read => read.2.1.length) gotBlob ▸ small _)

/-- Every block of every run is read within the limits. -/
theorem extract_bounded (r : List UInt8) :
    ∀ read ∈ (extract inflate opts cb r).reads, read.Bounded := by
  induction length : r.length using Nat.strong_induction_on generalizing r with
  | _ n ih =>
  have first := readNextBlock_bounded inflate r
  cases contents : (readNextBlock inflate r).result with
  | error e =>
      rw [extract_error inflate opts cb contents]
      exact fun read here => List.mem_singleton.mp here ▸ first
  | ok block =>
      obtain ⟨typ, raw⟩ := block
      have shorter := readNextBlock_length inflate contents
      have later := ih _ (length ▸ shorter) _ rfl
      rw [extract_ok inflate opts cb contents]
      split
      · exact fun read here => List.mem_singleton.mp here ▸ first
      · exact List.forall_mem_cons.mpr ⟨first, later⟩

/-! ## Truncation -/

/-- A prefix ends where a block of the file ends, or at its start. -/
def EndsOnBoundary (file pre : List UInt8) : Prop :=
  ∃ fs gs : List Frame, pre = stream fs ∧ file = stream (fs ++ gs)

/-- **Truncation is always detected.** -/
theorem extract_truncated (file pre : List UInt8) (cut : pre <+: file)
    (complete : (extract inflate opts cb file).err = none) :
    ((extract inflate opts cb pre).err = none ↔ EndsOnBoundary file pre) ∧
    (EndsOnBoundary file pre → (extract inflate opts cb file).calls =
      (extract inflate opts cb pre).calls ++
        (extract inflate opts cb (file.drop pre.length)).calls) ∧
    ∀ r, ∀ read ∈ (extract inflate opts cb r).reads, read.Bounded := by
  obtain ⟨tail, rfl⟩ := cut
  have whole : ∀ {fs gs : List Frame}, stream (fs ++ gs) = stream fs ++ stream gs :=
    List.flatMap_append
  refine ⟨⟨fun ended => ?_, ?_⟩, ?_, extract_bounded inflate opts cb⟩
  · obtain ⟨fs, rfl⟩ := extract_whole inflate opts cb ended
    obtain ⟨-, rest, -⟩ := extract_append inflate opts cb fs tail complete
    obtain ⟨gs, rfl⟩ := extract_whole inflate opts cb rest
    exact ⟨fs, gs, rfl, whole.symm⟩
  · rintro ⟨fs, gs, rfl, -⟩
    exact extract_stream inflate opts cb (extract_append inflate opts cb fs tail complete).1
  · rintro ⟨fs, gs, rfl, -⟩
    obtain ⟨sound, -, calls⟩ := extract_append inflate opts cb fs tail complete
    have alone := extract_append inflate opts cb fs []
      ((List.append_nil (stream fs)).symm ▸ extract_stream inflate opts cb sound)
    rw [calls, List.drop_left]
    have nothing : (extract inflate opts cb []).calls = [] :=
      congrArg Extraction.calls (extract_nil inflate opts cb)
    rw [List.append_nil, nothing, List.append_nil] at alone
    rw [alone.2.2]

/-- One block of an unknown type. -/
def extensionFile : List UInt8 := [0, 0, 0, 5, 10, 1, 88, 24, 1, 0]

theorem extract_truncated_extension :
    ¬EndsOnBoundary extensionFile [0, 0, 0, 5, 10] := by
  intro boundary
  have ended := (extract_truncated (fun _ => ⟨[], false⟩) noOptions nodeOnly extensionFile
    [0, 0, 0, 5, 10] (by decide) (by decide +kernel)).1.mpr boundary
  revert ended
  decide +kernel

end OsmMini.Core.Pbf

import OsmMini.Mobile.Search.DataFaithful

/-!
# Catalogs deliver their records

The data file of a catalog is compressed or the stream itself. Either way a query starts
with buffers that show nothing, and reads records in any order; a read in range returns
the bytes of the stream (`SearchRecords.Ready.read`).
-/

set_option autoImplicit false

namespace OsmMini.Mobile

open OsmMini.Foundations

/-- The reader holds a stream as it is. -/
structure HoldsRaw (stream : List UInt8) (s : SearchReader) : Prop where
  data : s.data = stream
  dataBytes : s.dataBytes = stream.length
  raw : s.compressedData = false

/-- The reader holds a stream, compressed or as it is. -/
def Delivers (zlib : Zlib) (stream : List UInt8) (s : SearchReader) : Prop :=
  Opens zlib stream s ∨ HoldsRaw stream s

/-- The data buffer of a query on a raw stream shows the stream. -/
structure SearchRecords.Shown (stream : List UInt8) (r : SearchRecords) : Prop where
  ordered : r.start ≤ r.ending
  shown : Shows r.scratch.data stream r.start (r.ending - r.start)

/-- The buffers of a query are in order. -/
def SearchRecords.Ready (zlib : Zlib) (stream : List UInt8) (s : SearchReader)
    (r : SearchRecords) : Prop :=
  Opens zlib stream s ∧ r.Good stream s ∨ HoldsRaw stream s ∧ r.Shown stream

section Delivery

variable {zlib : Zlib} {stream : List UInt8} {s : SearchReader}

/-- A read from a raw stream. -/
theorem HoldsRaw.read (holds : HoldsRaw stream s) {r : SearchRecords} (ready : r.Shown stream)
    {offset length : ℕ} (range : InRange stream offset length) :
    ∃ r', r.read zlib s offset length = (.ok (portion stream offset length), r') ∧
      r'.Shown stream := by
  obtain ⟨some, short, inside⟩ := range
  have accepted : ¬(length = 0 ∨ maxSearchRecordBytes < length ∨ s.dataBytes < offset ∨
      s.dataBytes - offset < length) := by
    rw [holds.dataBytes]
    omega
  have uncompressed : ¬s.compressedData = true := by
    rw [holds.raw]
    exact Bool.false_ne_true
  have front : ∀ (buffer : List UInt8) {n : ℕ}, length ≤ n → offset + n ≤ stream.length →
      (overwrite buffer (portion stream offset n)).take length = portion stream offset length := by
    intro buffer n enough within
    rw [overwrite, List.take_append_of_le_length (by rwa [portion_length within]), portion, portion,
      List.take_take, min_eq_left enough]
  rw [SearchRecords.read, if_neg accepted]
  dsimp only
  by_cases cached : r.start ≤ offset ∧ offset + length ≤ r.ending
  · rw [if_pos cached]
    have ordered := ready.ordered
    rw [ready.shown.portion cached.1 (by omega)]
    exact ⟨r, rfl, ready⟩
  rw [if_neg cached, if_neg uncompressed]
  by_cases large : r.scratch.data.length < length
  · rw [if_pos large, readAt_ok (holds.data ▸ inside), holds.data]
    dsimp only
    rw [front _ (le_refl _) inside]
    refine ⟨_, rfl, ?_⟩
    unfold Mobile.largeBuffer
    split_ifs
    · exact ⟨ready.ordered, ready.shown⟩
    · exact ⟨ready.ordered, ready.shown⟩
  · have within : offset + min r.scratch.data.length (s.dataBytes - offset) ≤ stream.length := by
      rw [holds.dataBytes]
      omega
    have enough : length ≤ min r.scratch.data.length (s.dataBytes - offset) := by
      rw [holds.dataBytes]
      omega
    rw [if_neg large, readAt_ok (holds.data ▸ within), holds.data]
    dsimp only
    rw [front _ enough within]
    refine ⟨_, rfl, Nat.le_add_right .., ?_⟩
    dsimp only
    rw [Nat.add_sub_cancel_left]
    exact shows_overwrite within

theorem ready_new (delivers : Delivers zlib stream s) {scratch : SearchScratch}
    (sized : scratch.Sized) : (newSearchRecords scratch).Ready zlib stream s := by
  rcases delivers with opens | holds
  · exact .inl ⟨opens, good_new opens sized⟩
  · exact .inr ⟨holds, le_refl _, shows_nothing _ _⟩

/-- **A read in range returns the bytes of the stream**, whatever was read before. -/
theorem SearchRecords.Ready.read {r : SearchRecords} (ready : r.Ready zlib stream s)
    {offset length : ℕ} (range : InRange stream offset length) :
    ∃ r', r.read zlib s offset length = (.ok (portion stream offset length), r') ∧
      r'.Ready zlib stream s := by
  rcases ready with ⟨opens, good⟩ | ⟨holds, shown⟩
  · obtain ⟨r', run, good'⟩ := SearchRecords.read_spec opens good range
    exact ⟨r', run, .inl ⟨opens, good'⟩⟩
  · obtain ⟨r', run, shown'⟩ := holds.read shown range
    exact ⟨r', run, .inr ⟨holds, shown'⟩⟩

end Delivery

end OsmMini.Mobile

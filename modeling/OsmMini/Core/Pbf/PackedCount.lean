import OsmMini.Core.Pbf.Entities

/-!
# Counting before decoding

Packed numbers are counted before they are decoded, by a loop that keeps no values. The decoder
then ignores the errors of its reads.

One read of a number takes the counter past the same bytes, and fails exactly where the counter
does (`countPacked_read`). So the counter accepts what the cursor runs through, with the same number
of values (`packedValueCount_eq_ok_iff`), and after a successful count no read fails
(`packedValueCount_agrees`).
-/

set_option autoImplicit false

namespace OsmMini.Core.Pbf

/-! ## One number -/

/-- **The counter and the reader pass the same number**, or both refuse it. -/
theorem countPacked_read : ∀ {bytes : List UInt8} {i : ℕ} (x : UInt64) (count : ℕ), i < 10 →
    bytes ≠ [] ∨ 0 < i →
    match readUvarintFrom x (7 * i) bytes with
    | (.ok _, rest) => countPacked count (7 * i) bytes = countPacked (count + 1) 0 rest
    | (.error _, _) => ∃ e, countPacked count (7 * i) bytes = .error e := by
  intro bytes
  induction bytes with
  | nil =>
      intro i x count _ begun
      have positive : 0 < i := begun.resolve_left (not_not.mpr rfl)
      exact ⟨.unexpectedEOF, by rw [countPacked, if_pos (by omega)]⟩
  | cons c bytes ih =>
      intro i x count within _
      rw [readUvarintFrom, countPacked]
      by_cases small : c < 0x80
      · rw [if_pos small, if_pos small]
        by_cases overflow : 7 * i = 63 ∧ 1 < c
        · rw [if_pos (Or.inr overflow), if_pos overflow]
          exact ⟨_, rfl⟩
        · have inRange : ¬(64 ≤ 7 * i ∨ 7 * i = 63 ∧ 1 < c) := by
            rintro (large | large)
            · omega
            · exact overflow large
          rw [if_neg inRange, if_neg overflow]
      · rw [if_neg small, if_neg small]
        by_cases long : 64 ≤ 7 * i + 7
        · rw [if_pos long, if_pos long]
          exact ⟨_, rfl⟩
        · rw [if_neg long, if_neg long, ← Nat.mul_succ]
          exact ih _ count (by omega) (Or.inr (Nat.succ_pos i))

/-- The same from the first byte of a number on. -/
theorem countPacked_readUvarint (c : UInt8) (bytes : List UInt8) (count : ℕ) :
    match readUvarint.on (c :: bytes) with
    | (.ok _, rest) => countPacked count 0 (c :: bytes) = countPacked (count + 1) 0 rest
    | (.error _, _) => ∃ e, countPacked count 0 (c :: bytes) = .error e :=
  countPacked_read (i := 0) 0 count (by norm_num) (Or.inl (List.cons_ne_nil c bytes))

/-! ## The cursor -/

/-- Count the numbers of some segments from `n` on. -/
def countSegments (n : ℕ) (segs : List (List UInt8)) : Except PbfError ℕ :=
  segs.foldlM (fun n seg => countPacked n 0 seg) n

theorem countSegments_cons (n : ℕ) (seg : List UInt8) (segs : List (List UInt8)) :
    countSegments n (seg :: segs) = (countPacked n 0 seg).bind fun n => countSegments n segs :=
  List.foldlM_cons

/-- **The counter and the cursor pass the same number**, or both refuse it, or both are at the
end. -/
theorem countSegments_nextPacked (n : ℕ) (segs : List (List UInt8)) :
    match nextPacked segs with
    | (.ok none, _) => countSegments n segs = .ok n
    | (.ok (some _), rest) => countSegments n segs = countSegments (n + 1) rest
    | (.error _, _) => ∃ e, countSegments n segs = .error e := by
  fun_induction nextPacked segs with
  | case1 => rfl
  | case2 segs ih =>
      rw [countSegments_cons, countPacked]
      exact ih
  | case3 c seg segs small =>
      dsimp only
      rw [countSegments_cons, countSegments_cons, countPacked, if_pos small, if_neg (by simp)]
  | case4 c seg segs large read =>
      have step := countPacked_readUvarint c seg n
      rw [countSegments_cons]
      cases outcome : readUvarint.on (c :: seg) with
      | mk result rest =>
          have isRead : read = (result, rest) := outcome
          rw [outcome] at step
          rw [isRead]
          cases result with
          | error e =>
              obtain ⟨e', refused⟩ := step
              rw [refused]
              exact ⟨e', rfl⟩
          | ok v =>
              dsimp only [Except.map]
              rw [step, countSegments_cons]

/-- **The counter counts the values of the cursor.** -/
theorem countSegments_packedValues (segs : List (List UInt8)) : ∀ n : ℕ,
    match packedValues segs with
    | (values, none) => countSegments n segs = .ok (n + values.length)
    | (_, some _) => ∃ e, countSegments n segs = .error e := by
  fun_induction packedValues segs with
  | case1 segs e failed =>
      intro n
      have step := countSegments_nextPacked n segs
      cases outcome : nextPacked segs with
      | mk result rest =>
          rw [outcome] at step failed
          obtain rfl : result = .error e := failed
          exact step
  | case2 segs ended =>
      intro n
      have step := countSegments_nextPacked n segs
      cases outcome : nextPacked segs with
      | mk result rest =>
          rw [outcome] at step ended
          obtain rfl : result = .ok none := ended
          exact step
  | case3 segs v found later ih =>
      intro n
      have step := countSegments_nextPacked n segs
      have rest := ih (n + 1)
      cases outcome : nextPacked segs with
      | mk result more =>
          rw [outcome] at step found
          obtain rfl : result = .ok (some v) := found
          dsimp only at step
          rw [step]
          have isLater : packedValues (nextPacked segs).2 = later := rfl
          rw [isLater, outcome] at rest
          clear_value later
          obtain ⟨values, failed⟩ := later
          cases failed with
          | none =>
              dsimp only at rest ⊢
              rw [rest, List.length_cons, Nat.add_assoc, Nat.add_comm 1]
          | some e => exact rest

/-- A count without an error is the number of values of a cursor without an error. -/
theorem packedValueCount_eq_ok_iff {segs : List (List UInt8)} {n : ℕ} :
    packedValueCount segs = .ok n ↔ ∃ values, packedValues segs = (values, none) ∧
      values.length = n := by
  have count := countSegments_packedValues segs 0
  change (match packedValues segs with
    | (values, none) => packedValueCount segs = .ok (0 + values.length)
    | (_, some _) => ∃ e, packedValueCount segs = .error e) at count
  cases decoded : packedValues segs with
  | mk values failed =>
      rw [decoded] at count
      cases failed with
      | none =>
          dsimp only at count
          rw [count, Nat.zero_add]
          constructor
          · intro same
            exact ⟨values, rfl, Except.ok.inj same⟩
          · rintro ⟨values', same, rfl⟩
            rw [(Prod.mk.inj same).1]
      | some e =>
          obtain ⟨e', refused⟩ := count
          rw [refused]
          constructor
          · intro same
            cases same
          · rintro ⟨values', same, -⟩
            cases (Prod.mk.inj same).2

/-! ## Call by call -/

/-- What the cursor still has to go through after some calls. -/
def cursorAfter (segs : List (List UInt8)) (calls : ℕ) : List (List UInt8) :=
  (fun segs => (nextPacked segs).2)^[calls] segs

/-- A number of calls each yield a value, and the next one ends without an error. -/
structure Yields (segs : List (List UInt8)) (n : ℕ) : Prop where
  value : ∀ calls < n, ∃ v, (nextPacked (cursorAfter segs calls)).1 = .ok (some v)
  ends : (nextPacked (cursorAfter segs n)).1 = .ok none

theorem yields_succ_iff {segs : List (List UInt8)} {n : ℕ} :
    Yields segs (n + 1) ↔ (∃ v, (nextPacked segs).1 = .ok (some v)) ∧
      Yields (nextPacked segs).2 n := by
  constructor
  · rintro ⟨value, ends⟩
    exact ⟨value 0 (Nat.succ_pos n), fun calls below => value (calls + 1) (Nat.succ_lt_succ below),
      ends⟩
  · rintro ⟨first, value, ends⟩
    refine ⟨fun calls below => ?_, ends⟩
    cases calls with
    | zero => exact first
    | succ calls => exact value calls (Nat.lt_of_succ_lt_succ below)

/-- The values of the cursor are what its calls yield. -/
theorem yields_iff (segs : List (List UInt8)) : ∀ n : ℕ,
    Yields segs n ↔ ∃ values, packedValues segs = (values, none) ∧ values.length = n := by
  fun_induction packedValues segs with
  | case1 segs e failed =>
      intro n
      constructor
      · intro yields
        cases n with
        | zero => cases failed.symm.trans yields.ends
        | succ n =>
            obtain ⟨⟨v, found⟩, -⟩ := yields_succ_iff.mp yields
            cases failed.symm.trans found
      · rintro ⟨values, same, -⟩
        cases (Prod.mk.inj same).2
  | case2 segs ended =>
      intro n
      constructor
      · intro yields
        cases n with
        | zero => exact ⟨[], rfl, rfl⟩
        | succ n =>
            obtain ⟨⟨v, found⟩, -⟩ := yields_succ_iff.mp yields
            cases ended.symm.trans found
      · rintro ⟨values, same, rfl⟩
        obtain rfl := (Prod.mk.inj same).1
        exact ⟨fun calls below => absurd below (Nat.not_lt_zero calls), ended⟩
  | case3 segs v found later ih =>
      intro n
      cases n with
      | zero =>
          constructor
          · intro yields
            cases found.symm.trans yields.ends
          · rintro ⟨values, same, empty⟩
            rw [List.length_eq_zero_iff.mp empty] at same
            cases (Prod.mk.inj same).1
      | succ n =>
          rw [yields_succ_iff, ih n]
          constructor
          · rintro ⟨-, values, same, rfl⟩
            have isLater : later = (values, none) := same
            rw [isLater]
            exact ⟨v :: values, rfl, rfl⟩
          · rintro ⟨values, same, length⟩
            refine ⟨⟨v, found⟩, later.1, Prod.ext rfl (Prod.mk.inj same).2, ?_⟩
            rw [← (Prod.mk.inj same).1, List.length_cons] at length
            exact Nat.succ.inj length

/-! ## Decoding after counting -/

/-- The outcomes of the reads that go through a segment, each from where the one before stopped. -/
def segmentReads : List UInt8 → List (Except PbfError UInt64)
  | [] => []
  | c :: b =>
    let read := readUvarint.on (c :: b)
    read.1 :: segmentReads read.2
termination_by b => b.length
decreasing_by
  exact Nat.lt_succ_of_le (readUvarint_length (c :: b))

/-- Every read of a segment adds one reference. -/
theorem decodeDeltas_length (seg : List UInt8) : ∀ acc : Int64,
    (decodeDeltas acc seg).2.length = (segmentReads seg).length := by
  fun_induction segmentReads seg with
  | case1 =>
      intro acc
      rw [decodeDeltas]
      rfl
  | case2 c b read ih =>
      intro acc
      rw [decodeDeltas, List.length_cons, List.length_cons]
      exact congrArg Nat.succ (ih _)

/-- **No read of a counted segment fails**, and there are as many as were counted. -/
theorem segmentReads_of_count (seg : List UInt8) : ∀ n total : ℕ,
    countPacked n 0 seg = .ok total →
      total = n + (segmentReads seg).length ∧ ∀ read ∈ segmentReads seg, ∃ v, read = .ok v := by
  fun_induction segmentReads seg with
  | case1 =>
      intro n total counted
      rw [countPacked, if_neg (not_not.mpr rfl)] at counted
      exact ⟨(Except.ok.inj counted).symm, fun read none => absurd none List.not_mem_nil⟩
  | case2 c b read ih =>
      intro n total counted
      have step := countPacked_readUvarint c b n
      cases outcome : readUvarint.on (c :: b) with
      | mk result rest =>
          have isRead : read = (result, rest) := outcome
          rw [outcome] at step
          rw [isRead] at ih ⊢
          cases result with
          | error e =>
              obtain ⟨e', refused⟩ := step
              rw [refused] at counted
              cases counted
          | ok v =>
              dsimp only at step ih ⊢
              rw [step] at counted
              obtain ⟨length, fine⟩ := ih _ _ counted
              refine ⟨by rw [length, List.length_cons, Nat.add_assoc, Nat.add_comm 1], ?_⟩
              intro r member
              rcases List.mem_cons.mp member with rfl | later
              · exact ⟨v, rfl⟩
              · exact fine r later

/-- The same for all segments of a field. -/
theorem segmentReads_of_countSegments : ∀ {segs : List (List UInt8)} {n total : ℕ},
    countSegments n segs = .ok total →
      total = n + (segs.map fun seg => (segmentReads seg).length).sum ∧
        ∀ seg ∈ segs, ∀ read ∈ segmentReads seg, ∃ v, read = .ok v := by
  intro segs
  induction segs with
  | nil =>
      intro n total counted
      exact ⟨(Except.ok.inj counted).symm, fun seg none => absurd none List.not_mem_nil⟩
  | cons seg segs ih =>
      intro n total counted
      rw [countSegments_cons] at counted
      cases first : countPacked n 0 seg with
      | error e =>
          rw [first] at counted
          cases counted
      | ok middle =>
          rw [first] at counted
          obtain ⟨isMiddle, fine⟩ := segmentReads_of_count seg n middle first
          obtain ⟨isTotal, rest⟩ := ih counted
          refine ⟨by rw [isTotal, isMiddle, List.map_cons, List.sum_cons, Nat.add_assoc], ?_⟩
          intro s member
          rcases List.mem_cons.mp member with rfl | later
          · exact fine
          · exact rest s later

/-- The references are as many as the reads. -/
theorem foldl_decodeDeltas_length (segs : List (List UInt8)) : ∀ (acc : Int64) (out : List Int64),
    (segs.foldl (fun (state : Int64 × List Int64) seg =>
        ((decodeDeltas state.1 seg).1, state.2 ++ (decodeDeltas state.1 seg).2))
      (acc, out)).2.length =
      out.length + (segs.map fun seg => (segmentReads seg).length).sum := by
  induction segs with
  | nil =>
      intro acc out
      rfl
  | cons seg segs ih =>
      intro acc out
      rw [List.foldl_cons, ih, List.length_append, decodeDeltas_length, List.map_cons,
        List.sum_cons, Nat.add_assoc]

/-- **After a count the references are decoded**, one for each number, and no read fails. -/
theorem decodeWayRefs_of_count {segs : List (List UInt8)} {n : ℕ}
    (counted : packedValueCount segs = .ok n) :
    (∃ refs, decodeWayRefs segs = .ok refs ∧ refs.length = n) ∧
      ∀ seg ∈ segs, ∀ read ∈ segmentReads seg, ∃ v, read = .ok v := by
  obtain ⟨isCount, fine⟩ := segmentReads_of_countSegments (n := 0) counted
  refine ⟨?_, fine⟩
  have length := foldl_decodeDeltas_length segs 0 []
  rw [List.length_nil, ← isCount] at length
  rw [decodeWayRefs, counted]
  exact ⟨_, rfl, length⟩

/-- A step that passes hands its result on. -/
theorem ok_of_step {α β : Type} {x : Except PbfError α} {f : α → Except PbfError β} {b : β}
    (passed : (x >>= f) = .ok b) : ∃ a, x = .ok a ∧ f a = .ok b := by
  cases x with
  | error e => cases passed
  | ok a => exact ⟨a, rfl, passed⟩

/-- The streams of dense nodes whose number is known. -/
theorem counts_of_denseCount {f : DenseFields} {n : ℕ} (counted : denseCount f = .ok n)
    (some : 0 < n) :
    packedValueCount f.idSegs = .ok n ∧ packedValueCount f.latSegs = .ok n ∧
      packedValueCount f.lonSegs = .ok n ∧ ∃ k, packedValueCount f.kvSegs = .ok k := by
  obtain ⟨m, ids, counted⟩ := ok_of_step counted
  obtain ⟨latCount, lats, counted⟩ := ok_of_step counted
  obtain ⟨lonCount, lons, counted⟩ := ok_of_step counted
  obtain ⟨k, kvs, counted⟩ := ok_of_step counted
  split_ifs at counted with none differ
  · obtain rfl := Except.ok.inj counted
    exact absurd some (Nat.lt_irrefl 0)
  · cases counted
  · obtain rfl := Except.ok.inj counted
    rw [not_or, not_not, not_not] at differ
    exact ⟨ids, differ.1 ▸ lats, differ.2 ▸ lons, k, kvs⟩

/-- **Counting and decoding agree.** A count without an error is the number of values that the
cursor yields before it ends without an error. After it the references of a way are decoded without
a failed read, one for each number; and the streams of dense nodes yield a value for every node. -/
theorem packedValueCount_agrees :
    (∀ (segs : List (List UInt8)) (n : ℕ), packedValueCount segs = .ok n ↔ Yields segs n) ∧
    (∀ (segs : List (List UInt8)) (n : ℕ), packedValueCount segs = .ok n →
      (∃ refs, decodeWayRefs segs = .ok refs ∧ refs.length = n) ∧
        ∀ seg ∈ segs, ∀ read ∈ segmentReads seg, ∃ v, read = .ok v) ∧
    ∀ (f : DenseFields) (n : ℕ), denseCount f = .ok n → 0 < n →
      Yields f.idSegs n ∧ Yields f.latSegs n ∧ Yields f.lonSegs n ∧ ∃ k, Yields f.kvSegs k := by
  have agree : ∀ (segs : List (List UInt8)) (n : ℕ),
      packedValueCount segs = .ok n ↔ Yields segs n := fun segs n =>
    packedValueCount_eq_ok_iff.trans (yields_iff segs n).symm
  refine ⟨agree, fun segs n counted => decodeWayRefs_of_count counted, fun f n counted some => ?_⟩
  obtain ⟨ids, lats, lons, k, kvs⟩ := counts_of_denseCount counted some
  exact ⟨(agree _ n).mp ids, (agree _ n).mp lats, (agree _ n).mp lons, k, (agree _ k).mp kvs⟩

/-- Three numbers in four segments, the second one of ten bytes. -/
theorem packedValueCount_agrees_ten :
    Yields [[0x96, 0x01], [], [0xff, 0xff, 0xff, 0xff, 0xff, 0xff, 0xff, 0xff, 0xff, 0x01], [0x05]]
      3 ∧
    ∃ refs, decodeWayRefs [[0x96, 0x01], [],
        [0xff, 0xff, 0xff, 0xff, 0xff, 0xff, 0xff, 0xff, 0xff, 0x01], [0x05]] = .ok refs ∧
      refs.length = 3 := by
  obtain ⟨agree, decodes, -⟩ := packedValueCount_agrees
  have counted : packedValueCount [[0x96, 0x01], [],
      [0xff, 0xff, 0xff, 0xff, 0xff, 0xff, 0xff, 0xff, 0xff, 0x01], [0x05]] = .ok 3 := rfl
  exact ⟨(agree _ 3).mp counted, (decodes _ 3 counted).1⟩

end OsmMini.Core.Pbf

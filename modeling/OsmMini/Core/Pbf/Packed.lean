import OsmMini.Foundations.Literals
import OsmMini.Core.Pbf.Wire

/-!
# Packed numbers

A repeated field may be split over several packed segments; every number lies within one
of them. The references of a way are stored as differences, and the sum runs on from one
segment to the next.
-/

set_option autoImplicit false

namespace OsmMini.Core.Pbf

open OsmMini.Foundations
open OsmMini.Foundations.Varint (uvarint uvarintFrom uvarintFrom_cons appendUvarint appendVarint zigzag unzigzag)

/-! ## Counting -/

/-- Count the numbers of a segment from `n` on, `shift` bits into a number. -/
def countPacked : ℕ → ℕ → List UInt8 → Except PbfError ℕ
  | n, shift, [] => if shift ≠ 0 then .error .unexpectedEOF else .ok n
  | n, shift, c :: seg =>
    if c < 0x80 then
      if shift = 63 ∧ 1 < c then .error (.format "varint overflow") else countPacked (n + 1) 0 seg
    else if 64 ≤ shift + 7 then .error (.format "varint overflow")
    else countPacked n (shift + 7) seg

def packedValueCount (segs : List (List UInt8)) : Except PbfError ℕ :=
  segs.foldlM (fun n seg => countPacked n 0 seg) 0

/-! ## Going over the numbers -/

/-- The next number of the segments, none at their end, and what is left of them. -/
def nextPacked : List (List UInt8) → Except PbfError (Option UInt64) × List (List UInt8)
  | [] => (.ok none, [])
  | [] :: segs => nextPacked segs
  | (c :: seg) :: segs =>
    if c < 0x80 then (.ok (some c.toUInt64), seg :: segs)
    else
      let read := readUvarint.on (c :: seg)
      (read.1.map some, read.2 :: segs)

theorem nextPacked_length (segs : List (List UInt8)) :
    (nextPacked segs).2.flatten.length < segs.flatten.length ∨ (nextPacked segs).1 = .ok none := by
  fun_induction nextPacked segs with
  | case1 => exact Or.inr rfl
  | case2 segs ih => exact ih
  | case3 c seg segs small => exact Or.inl (Nat.lt_succ_self _)
  | case4 c seg segs large read =>
      have taken := readUvarint_length (c :: seg)
      refine Or.inl ?_
      simp only [List.flatten_cons, List.length_append, List.length_cons, read] at taken ⊢
      omega

/-- The numbers of the segments up to the first malformed one. -/
def packedValues (segs : List (List UInt8)) : List UInt64 × Option PbfError :=
  match _next : (nextPacked segs).1 with
  | .error e => ([], some e)
  | .ok none => ([], none)
  | .ok (some v) =>
    let later := packedValues (nextPacked segs).2
    (v :: later.1, later.2)
termination_by segs.flatten.length
decreasing_by
  exact (nextPacked_length segs).resolve_right (by simp [_next])

/-! ## References of ways -/

/-- The sums of the differences in a segment, and the last of them. -/
def decodeDeltas (acc : Int64) : List UInt8 → Int64 × List Int64
  | [] => (acc, [])
  | c :: b =>
    -- Counting has already refused a segment with a malformed number.
    let read := readUvarint.on (c :: b)
    let acc := acc + zigzagDecode64 (read.1.toOption.getD 0)
    let later := decodeDeltas acc read.2
    (later.1, acc :: later.2)
termination_by b => b.length
decreasing_by
  exact Nat.lt_succ_of_le (readUvarint_length (c :: b))

def decodeWayRefs (refsSegs : List (List UInt8)) : Except PbfError (List Int64) := do
  let _ ← packedValueCount refsSegs
  let (_, out) := refsSegs.foldl (fun (acc, out) seg =>
    let (acc, refs) := decodeDeltas acc seg
    (acc, out ++ refs)) ((0 : Int64), [])
  return out

/-! ## Reading what was written -/

theorem or_continued (x : UInt64) {i v : ℕ} (c : UInt8) (within : 7 * i < 64) :
    x ||| (c &&& 0x7f).toUInt64 <<< UInt64.ofNat (7 * i) ||| UInt64.ofNat (v <<< (7 * (i + 1))) =
      x ||| UInt64.ofNat ((c.toNat % 128 + 128 * v) <<< (7 * i)) := by
  have low : (c &&& 0x7f).toUInt64 = UInt64.ofNat (c.toNat % 128) := by
    apply UInt64.toNat.inj
    have masked : (c &&& 0x7f).toNat = c.toNat % 2 ^ 7 := by
      rw [UInt8.toNat_and]
      exact Nat.and_two_pow_sub_one_eq_mod c.toNat 7
    rw [UInt8.toNat_toUInt64, masked, UInt64.toNat_ofNat']
    omega
  have joined : c.toNat % 128 + 128 * v = c.toNat % 128 ||| v <<< 7 := by
    have small : c.toNat % 128 < 2 ^ 7 := Nat.mod_lt _ (by norm_num)
    rw [Nat.shiftLeft_eq, Nat.or_comm, mul_comm v, ← Nat.two_pow_add_eq_or_of_lt small, add_comm]
  have place : v <<< 7 <<< (7 * i) = v <<< (7 * (i + 1)) := by
    rw [← Nat.shiftLeft_add, Nat.mul_succ, Nat.add_comm 7]
  rw [low, joined, Nat.shiftLeft_or_distrib, place, UInt64.ofNat_or, UInt64.or_assoc,
    UInt64.ofNat_shiftLeft _ _ within]

/-- A number that Go's own reader accepts is read with the same value. -/
theorem readUvarintFrom_eq : ∀ {bytes : List UInt8} {i v n : ℕ} (x : UInt64), i < 10 →
    uvarintFrom i bytes = some (v, n) →
      readUvarintFrom x (7 * i) bytes = (.ok (x ||| UInt64.ofNat (v <<< (7 * i))), bytes.drop n)
  | [], _, _, _, _, _, read => by simp [uvarintFrom] at read
  | c :: bytes, i, v, n, x, within, read => by
      obtain ⟨last, fits, rfl, rfl⟩ | ⟨goesOn, more, w, m, tail, rfl, rfl⟩ :=
        uvarintFrom_cons within read
      · have small : c < 0x80 := UInt8.lt_iff_toNat_lt.mpr last
        have inRange : ¬(64 ≤ 7 * i ∨ (7 * i = 63 ∧ 1 < c)) := by
          rintro (large | ⟨at63, large⟩)
          · omega
          · exact fits ⟨by omega, UInt8.lt_iff_toNat_lt.mp large⟩
        rw [readUvarintFrom, if_pos small, if_neg inRange, UInt64.ofNat_shiftLeft _ _ (by omega),
          UInt64.ofNat_uInt8ToNat]
        rfl
      · have large : ¬c < 0x80 := fun small =>
          absurd (UInt8.lt_iff_toNat_lt.mp small) (not_lt.mpr goesOn)
        rw [readUvarintFrom, if_neg large, if_neg (by omega), ← Nat.mul_succ,
          readUvarintFrom_eq _ more tail, or_continued x c (by omega)]
        rfl

theorem readUvarint_eq {bytes : List UInt8} {v n : ℕ} (read : uvarint bytes = some (v, n)) :
    readUvarint.on bytes = (.ok (UInt64.ofNat v), bytes.drop n) := by
  have known := readUvarintFrom_eq 0 (by norm_num) read
  rw [Nat.shiftLeft_zero, UInt64.zero_or] at known
  exact known

/-- A number that Go's own reader accepts is counted once. -/
theorem countPacked_eq : ∀ {bytes : List UInt8} {i v n : ℕ} (count : ℕ), i < 10 →
    uvarintFrom i bytes = some (v, n) →
      countPacked count (7 * i) bytes = countPacked (count + 1) 0 (bytes.drop n)
  | [], _, _, _, _, _, read => by simp [uvarintFrom] at read
  | c :: bytes, i, v, n, count, within, read => by
      obtain ⟨last, fits, rfl, rfl⟩ | ⟨goesOn, more, w, m, tail, rfl, rfl⟩ :=
        uvarintFrom_cons within read
      · have small : c < 0x80 := UInt8.lt_iff_toNat_lt.mpr last
        have inRange : ¬(7 * i = 63 ∧ 1 < c) := fun overflow =>
          fits ⟨by omega, UInt8.lt_iff_toNat_lt.mp overflow.2⟩
        rw [countPacked, if_pos small, if_neg inRange]
        rfl
      · have large : ¬c < 0x80 := fun small =>
          absurd (UInt8.lt_iff_toNat_lt.mp small) (not_lt.mpr goesOn)
        rw [countPacked, if_neg large, if_neg (by omega), ← Nat.mul_succ,
          countPacked_eq _ more tail]
        rfl

theorem half_toInt64 {u : ℕ} (fits : u < 2 ^ 64) :
    (UInt64.ofNat u >>> 1).toInt64 = Int64.ofInt (u / 2 : ℕ) := by
  apply Int64.toBitVec.inj
  apply BitVec.eq_of_toNat_eq
  simp
  omega

/-- Shifting and flipping bits takes the sign out of the lowest bit. -/
theorem zigzagDecode64_eq {u : ℕ} (fits : u < 2 ^ 64) :
    zigzagDecode64 (UInt64.ofNat u) = Int64.ofInt (unzigzag u) := by
  have low : UInt64.ofNat u &&& 1 = UInt64.ofNat (u % 2) := by
    apply UInt64.toNat.inj
    rw [UInt64.toNat_and, UInt64.toNat_ofNat', UInt64.toNat_ofNat', Nat.mod_eq_of_lt fits]
    exact (Nat.and_one_is_mod u).trans (Nat.mod_eq_of_lt (by omega)).symm
  rw [zigzagDecode64, unzigzag, low, UInt64.toInt64_xor, half_toInt64 fits]
  rcases Nat.mod_two_eq_zero_or_one u with even | odd
  · rw [even, if_pos rfl]
    exact Int64.xor_zero
  · have flipped : (-(UInt64.ofNat 1).toInt64).toUInt64.toInt64 = -1 := by decide
    rw [odd, if_neg one_ne_zero, flipped, Int64.xor_neg_one, Int64.not_eq_neg_sub,
      Int64.ofInt_sub, Int64.ofInt_neg]
    rfl

/-! ## References that were written as differences -/

/-- The differences of consecutive numbers, which wrap around. -/
def deltas : Int64 → List Int64 → List Int64
  | _, [] => []
  | previous, id :: ids => (id - previous) :: deltas id ids

/-- A packed field of signed numbers. -/
def packedField (ds : List Int64) : List UInt8 := ds.flatMap appendVarint

/-- Adding up differences, with the last sum. -/
def sums : Int64 → List Int64 → Int64 × List Int64
  | acc, [] => (acc, [])
  | acc, d :: ds => ((sums (acc + d) ds).1, (acc + d) :: (sums (acc + d) ds).2)

theorem readUvarint_appendVarint (d : Int64) (rest : List UInt8) :
    readUvarint.on (appendVarint d ++ rest) = (.ok (UInt64.ofNat (zigzag d.toInt)), rest) := by
  rw [appendVarint, readUvarint_eq (Varint.uvarint_appendUvarint (Varint.zigzag_lt d) rest),
    List.drop_left]

theorem countPacked_packedField (n : ℕ) (ds : List Int64) :
    countPacked n 0 (packedField ds) = .ok (n + ds.length) := by
  induction ds generalizing n with
  | nil => rfl
  | cons d ds ih =>
      have read := Varint.uvarint_appendUvarint (Varint.zigzag_lt d) (packedField ds)
      rw [packedField, List.flatMap_cons]
      exact (countPacked_eq n (by norm_num) read).trans (by
        rw [List.drop_left, ih, List.length_cons, Nat.succ_add_eq_add_succ])

theorem packedValueCount_fields (fields : List (List Int64)) :
    packedValueCount (fields.map packedField) = .ok fields.flatten.length := by
  have counted : ∀ (n : ℕ), (fields.map packedField).foldlM
      (fun n seg => countPacked n 0 seg) n = .ok (n + fields.flatten.length) := by
    induction fields with
    | nil => exact fun n => rfl
    | cons ds fields ih =>
        intro n
        rw [List.map_cons, List.foldlM_cons, countPacked_packedField]
        exact (ih _).trans (by rw [List.flatten_cons, List.length_append, Nat.add_assoc])
  exact (counted 0).trans (by rw [Nat.zero_add])

theorem decodeDeltas_packedField (acc : Int64) (ds : List Int64) :
    decodeDeltas acc (packedField ds) = sums acc ds := by
  induction ds generalizing acc with
  | nil => rw [packedField, List.flatMap_nil, decodeDeltas, sums]
  | cons d ds ih =>
      have value : zigzagDecode64 (UInt64.ofNat (zigzag d.toInt)) = d := by
        rw [zigzagDecode64_eq (Varint.zigzag_lt d), Varint.unzigzag_zigzag, Int64.ofInt_toInt]
      have read := readUvarint_appendVarint d (packedField ds)
      have whole : packedField (d :: ds) = appendVarint d ++ packedField ds := List.flatMap_cons
      rw [← whole] at read
      cases bytes : packedField (d :: ds) with
      | nil =>
          have empty := List.append_eq_nil_iff.mp (whole.symm.trans bytes)
          exact absurd empty.1 (Varint.appendVarint_ne_nil d)
      | cons c b =>
          rw [bytes] at read
          rw [decodeDeltas, read]
          simp only [Except.toOption, Option.getD_some, value, ih]
          rw [sums]

theorem sums_append (acc : Int64) (ds later : List Int64) :
    sums acc (ds ++ later) =
      ((sums (sums acc ds).1 later).1, (sums acc ds).2 ++ (sums (sums acc ds).1 later).2) := by
  induction ds generalizing acc with
  | nil => rfl
  | cons d ds ih =>
      rw [List.cons_append, sums, ih, sums]
      rfl

theorem sums_deltas (previous : Int64) (ids : List Int64) :
    (sums previous (deltas previous ids)).2 = ids := by
  induction ids generalizing previous with
  | nil => rfl
  | cons id ids ih =>
      have next : previous + (id - previous) = id := by
        rw [Int64.add_comm, Int64.sub_add_cancel]
      rw [deltas, sums, next, ih]

/-- **Any split into packed fields gives the references back.** -/
theorem decodeWayRefs_fields {ids : List Int64} {fields : List (List Int64)}
    (split : fields.flatten = deltas 0 ids) :
    decodeWayRefs (fields.map packedField) = .ok ids := by
  have folded : ∀ (acc : Int64) (out : List Int64), (fields.map packedField).foldl
      (fun (state : Int64 × List Int64) seg =>
        ((decodeDeltas state.1 seg).1, state.2 ++ (decodeDeltas state.1 seg).2)) (acc, out) =
      ((sums acc fields.flatten).1, out ++ (sums acc fields.flatten).2) := by
    clear split
    induction fields with
    | nil => exact fun acc out => by rw [List.flatten_nil, sums, List.append_nil]; rfl
    | cons ds fields ih =>
        intro acc out
        rw [List.map_cons, List.foldl_cons, decodeDeltas_packedField, ih, List.flatten_cons,
          sums_append, List.append_assoc]
  rw [decodeWayRefs, packedValueCount_fields]
  have decoded := congrArg Prod.snd (folded 0 [])
  rw [split, sums_deltas, List.nil_append] at decoded
  exact congrArg Except.ok decoded

end OsmMini.Core.Pbf

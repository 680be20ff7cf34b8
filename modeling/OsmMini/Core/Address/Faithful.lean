import OsmMini.Core.Address.Index

/-!
# The address index answers like the plain functions

The index gives every entry all of its normalized fields. A score looks at a field only for
a part of the query that is not empty, and the plain functions normalize the fields of such
parts, so that both score every entry alike.
-/

set_option autoImplicit false

namespace OsmMini.Core

open OsmMini.Foundations
open OsmMini.Foundations.Bits (trailingZeros bitIndices_and_pred)

/-! ## Fields that a query needs -/

/-- Two lists of fields agree where a query looks. -/
structure NormalizedAddressFields.Agree (f g : NormalizedAddressFields)
    (q : NormalizedAddressQuery) : Prop where
  house : q.housenumber ≠ [] → f.house = g.house
  postcode : q.postcode ≠ [] → f.postcode = g.postcode
  city : q.city ≠ [] ∨ q.raw ≠ [] → f.city = g.city ∧ f.place = g.place
  street : q.street ≠ [] ∨ q.raw ≠ [] → f.street = g.street
  names : q.street ≠ [] ∨ q.raw ≠ [] → f.name = g.name ∧ f.brand = g.brand ∧
    f.operator = g.operator
  kinds : q.street ≠ [] ∨ q.raw ≠ [] → f.shop = g.shop ∧ f.office = g.office ∧
    f.amenity = g.amenity
  leisure : q.raw ≠ [] → f.tourism = g.tourism ∧ f.leisure = g.leisure

theorem equalField_congr {v w query : List Char} (same : query ≠ [] → v = w) :
    equalField v query = equalField w query := by
  by_cases empty : query = []
  · simp [equalField, empty]
  · rw [same empty]

namespace NormalizedAddressFields

variable {f g : NormalizedAddressFields} {q : NormalizedAddressQuery}

theorem partScore_congr (agree : f.Agree g q) : f.partScore q = g.partScore q := by
  unfold partScore
  rw [equalField_congr fun street => agree.street (Or.inl street),
    equalField_congr fun house => agree.house house,
    equalField_congr fun postcode => agree.postcode postcode,
    equalField_congr fun city => (agree.city (Or.inl city)).1,
    equalField_congr fun city => (agree.city (Or.inl city)).2]

theorem rawScore_congr (agree : f.Agree g q) : f.rawScore q.raw = g.rawScore q.raw := by
  unfold rawScore
  by_cases raw : q.raw ≠ []
  · obtain ⟨city, place⟩ := agree.city (Or.inr raw)
    obtain ⟨name, brand, operator⟩ := agree.names (Or.inr raw)
    obtain ⟨shop, office, amenity⟩ := agree.kinds (Or.inr raw)
    obtain ⟨tourism, leisure⟩ := agree.leisure raw
    rw [agree.street (Or.inr raw), city, place, name, brand, operator, shop, office, amenity,
      tourism, leisure]
  · rw [if_neg raw, if_neg raw]

theorem nameScore_congr (agree : f.Agree g q) (score : ℕ) :
    f.nameScore q.street score = g.nameScore q.street score := by
  unfold nameScore
  by_cases street : q.street ≠ []
  · obtain ⟨name, brand, operator⟩ := agree.names (Or.inl street)
    obtain ⟨shop, office, amenity⟩ := agree.kinds (Or.inl street)
    rw [agree.street (Or.inl street), name, brand, operator, shop, office, amenity]
  · rw [if_neg street, if_neg street]

/-- Fields that agree where a query looks score alike. -/
theorem score_congr (agree : f.Agree g q) : f.score q = g.score q := by
  rw [score, score, partScore_congr agree, rawScore_congr agree, nameScore_congr agree]

/-- Looking at the street alone looks at fewer fields. -/
theorem Agree.streetOnly (agree : f.Agree g q) :
    f.Agree g ⟨q.street, [], [], [], [], false⟩ where
  house := fun absent => absurd rfl absent
  postcode := fun absent => absurd rfl absent
  city := fun absent => absent.elim (absurd rfl) (absurd rfl)
  street := fun asked => agree.street (Or.inl (asked.resolve_right (by simp)))
  names := fun asked => agree.names (Or.inl (asked.resolve_right (by simp)))
  kinds := fun asked => agree.kinds (Or.inl (asked.resolve_right (by simp)))
  leisure := fun absent => absurd rfl absent

theorem and_congr_of {asked : Prop} [Decidable asked] {p p' : Bool} (same : asked → p = p') :
    (decide asked && p) = (decide asked && p') := by
  by_cases holds : asked
  · rw [same holds]
  · simp [holds]

/-- Fields that agree where a query looks score alike as destinations. -/
theorem destinationScore_congr (agree : f.Agree g q) :
    f.destinationScore q = g.destinationScore q := by
  have guessed : (decide (q.raw ≠ []) && (decide (f.name = q.raw) || decide (f.brand = q.raw) ||
      decide (f.operator = q.raw) || decide (f.street = q.raw))) =
      (decide (q.raw ≠ []) && (decide (g.name = q.raw) || decide (g.brand = q.raw) ||
      decide (g.operator = q.raw) || decide (g.street = q.raw))) :=
    and_congr_of fun raw => by
      obtain ⟨name, brand, operator⟩ := agree.names (Or.inr raw)
      rw [name, brand, operator, agree.street (Or.inr raw)]
  have postcode : (decide (q.postcode ≠ []) && decide (f.postcode ≠ q.postcode)) =
      (decide (q.postcode ≠ []) && decide (g.postcode ≠ q.postcode)) :=
    and_congr_of fun postcode => by rw [agree.postcode postcode]
  have city : (decide (q.city ≠ []) && (decide (f.city ≠ q.city) && decide (f.place ≠ q.city))) =
      (decide (q.city ≠ []) && (decide (g.city ≠ q.city) && decide (g.place ≠ q.city))) :=
    and_congr_of fun city => by
      rw [(agree.city (Or.inl city)).1, (agree.city (Or.inl city)).2]
  have street : (decide (q.street ≠ []) && (decide (f.street ≠ q.street) &&
      (decide (f.name ≠ q.street) && (decide (f.brand ≠ q.street) &&
        decide (f.operator ≠ q.street))))) =
      (decide (q.street ≠ []) && (decide (g.street ≠ q.street) &&
      (decide (g.name ≠ q.street) && (decide (g.brand ≠ q.street) &&
        decide (g.operator ≠ q.street))))) :=
    and_congr_of fun street => by
      obtain ⟨name, brand, operator⟩ := agree.names (Or.inl street)
      rw [agree.street (Or.inl street), name, brand, operator]
  have house : (decide (q.housenumber ≠ []) && (decide (f.house ≠ q.housenumber) ||
      (decide (q.street ≠ []) && (decide (f.street ≠ q.street) &&
      (decide (f.name ≠ q.street) && (decide (f.brand ≠ q.street) &&
        decide (f.operator ≠ q.street))))))) =
      (decide (q.housenumber ≠ []) && (decide (g.house ≠ q.housenumber) ||
      (decide (q.street ≠ []) && (decide (g.street ≠ q.street) &&
      (decide (g.name ≠ q.street) && (decide (g.brand ≠ q.street) &&
        decide (g.operator ≠ q.street))))))) :=
    and_congr_of fun house => by rw [agree.house house, street]
  unfold destinationScore
  simp only [Bool.and_assoc] at guessed postcode city house ⊢
  rw [guessed, postcode, city, house, score_congr agree, score_congr agree.streetOnly]

end NormalizedAddressFields

/-! ## Fields of the index -/

section Index

variable {C : Type} (normalize : List Char → List Char)

/-- All normalized fields of an entry. -/
def allFields (e : AddressEntry C) : NormalizedAddressFields where
  street := normalize (e.tag "addr:street")
  house := normalize (e.tag "addr:housenumber")
  postcode := normalize (e.tag "addr:postcode")
  city := normalize (e.tag "addr:city")
  place := normalize (e.tag "addr:place")
  name := normalize (e.tag "name")
  brand := normalize (e.tag "brand")
  operator := normalize (e.tag "operator")
  shop := normalize (e.tag "shop")
  office := normalize (e.tag "office")
  amenity := normalize (e.tag "amenity")
  tourism := normalize (e.tag "tourism")
  leisure := normalize (e.tag "leisure")

/-- The plain functions normalize the fields that a query looks at. -/
theorem fromTags_agree (e : AddressEntry C) (q : NormalizedAddressQuery) :
    (normalizedAddressFieldsFromTags normalize e q).Agree (allFields normalize e) q := by
  have needed : ∀ {c : Prop} [Decidable c] (v : List Char), c → whenNeeded (decide c) v = v :=
    fun v holds => if_pos (decide_eq_true holds)
  constructor
  · exact fun asked => needed _ asked
  · exact fun asked => needed _ asked
  · exact fun asked => ⟨needed _ asked, needed _ asked⟩
  · exact fun asked => needed _ asked
  · exact fun asked => ⟨needed _ asked, needed _ asked, needed _ asked⟩
  · exact fun asked => ⟨needed _ asked, needed _ asked, needed _ asked⟩
  · exact fun asked => ⟨needed _ asked, needed _ asked⟩

/-- Clearing the lowest bit again and again finds the bits in ascending order. -/
theorem maskBits_eq (mask : ℕ) : maskBits mask = mask.bitIndices := by
  induction mask using Nat.strong_induction_on with
  | _ mask ih =>
  rw [maskBits]
  split
  · next zero => rw [zero, Nat.bitIndices_zero]
  · next nonzero =>
    rw [ih _ (Bits.and_pred_lt nonzero), bitIndices_and_pred, trailingZeros]
    cases bits : mask.bitIndices with
    | nil =>
        have sum := Nat.sum_map_two_pow_bitIndices mask
        rw [bits] at sum
        exact absurd sum.symm nonzero
    | cons j js => rfl

/-- The mask of an entry has the bits of the search tags that are not empty. -/
theorem testBit_maskOf (e : AddressEntry C) (j : ℕ) :
    (maskOf e).testBit j = true ↔ searchTag e j ≠ [] := by
  have folded : ∀ (keys : List (String × ℕ)) (mask : ℕ),
      ((keys.foldl (fun mask key => if e.tag key.1 ≠ [] then mask ||| 1 <<< key.2 else mask)
        mask).testBit j = true ↔
        mask.testBit j = true ∨ ∃ key ∈ keys, key.2 = j ∧ e.tag key.1 ≠ []) := by
    intro keys
    induction keys with
    | nil => simp
    | cons key keys ih =>
        intro mask
        rw [List.foldl_cons, ih]
        by_cases present : e.tag key.1 ≠ []
        · rw [if_pos present, Nat.testBit_or, Nat.one_shiftLeft, Bool.or_eq_true,
            Bits.testBit_two_pow_iff, List.exists_mem_cons_iff, or_assoc, eq_comm (a := j)]
          simp [present]
        · rw [if_neg present, List.exists_mem_cons_iff]
          simp [not_not.mp present]
  rw [maskOf, folded, Nat.zero_testBit, searchTag]
  simp only [Bool.false_eq_true, false_or, Prod.exists, List.mem_zipIdx_iff_getElem?]
  constructor
  · rintro ⟨key, i, found, rfl, present⟩
    rw [found]
    exact present
  · intro present
    cases found : addressSearchTags[j]? with
    | none =>
        rw [found] at present
        exact absurd rfl present
    | some key =>
        rw [found] at present
        exact ⟨key, j, found, rfl, present⟩

/-- The values that the index keeps of an entry. -/
def entryValues (e : AddressEntry C) : List (List Char) :=
  (maskBits (maskOf e)).map fun j => normalize (searchTag e j)

/-- Every cached value is the normalized text it is cached for. -/
def IndexBuild.Cached (b : IndexBuild) : Prop :=
  ∀ raw value, b.common.lookup raw = some value → value = normalize raw

theorem addValue_eq (e : AddressEntry C) {b : IndexBuild} (cached : b.Cached normalize) (j : ℕ) :
    (addValue normalize e b j).values = b.values ++ [normalize (searchTag e j)] ∧
      (addValue normalize e b j).Cached normalize := by
  unfold addValue
  dsimp only
  split
  · next value hit => exact ⟨by rw [cached _ _ hit], cached⟩
  · refine ⟨rfl, fun raw value found => ?_⟩
    dsimp only at found
    split at found
    · by_cases same : raw = searchTag e j
      · rw [same, AList.lookup_insert] at found
        rw [same]
        exact (Option.some.inj found).symm
      · rw [AList.lookup_insert_ne same] at found
        exact cached raw value found
    · exact cached raw value found

theorem foldl_addValue (e : AddressEntry C) (js : List ℕ) {b : IndexBuild}
    (cached : b.Cached normalize) :
    (js.foldl (addValue normalize e) b).values =
        b.values ++ js.map (fun j => normalize (searchTag e j)) ∧
      (js.foldl (addValue normalize e) b).Cached normalize := by
  induction js generalizing b with
  | nil => exact ⟨(List.append_nil _).symm, cached⟩
  | cons j js ih =>
      obtain ⟨values, next⟩ := addValue_eq normalize e cached j
      obtain ⟨later, done⟩ := ih next
      refine ⟨?_, done⟩
      rw [List.foldl_cons, later, values, List.append_assoc, List.map_cons]
      rfl

/-- The places where the values of entries start. -/
def startsFrom (start : ℕ) : List (AddressEntry C) → List ℕ
  | [] => []
  | e :: entries => start :: startsFrom (start + (entryValues normalize e).length) entries

theorem foldl_addEntry (entries : List (AddressEntry C)) (offsets : List ℕ) {b : IndexBuild}
    (cached : b.Cached normalize) :
    (entries.foldl (addEntry normalize) (offsets, b)).1 =
        offsets ++ startsFrom normalize b.values.length entries ∧
      (entries.foldl (addEntry normalize) (offsets, b)).2.values =
        b.values ++ entries.flatMap (entryValues normalize) := by
  induction entries generalizing offsets b with
  | nil => exact ⟨(List.append_nil _).symm, (List.append_nil _).symm⟩
  | cons e entries ih =>
      obtain ⟨values, next⟩ := foldl_addValue normalize e (maskBits (maskOf e)) cached
      obtain ⟨offsets', later⟩ := ih (offsets ++ [b.values.length]) next
      rw [List.foldl_cons, addEntry]
      dsimp only
      rw [offsets', later, values, List.length_append, List.append_assoc, List.append_assoc,
        List.flatMap_cons]
      exact ⟨rfl, rfl⟩

theorem startsFrom_getElem? (start : ℕ) (front back : List (AddressEntry C))
    (e : AddressEntry C) :
    (startsFrom normalize start (front ++ e :: back))[front.length]? =
      some (start + (front.flatMap (entryValues normalize)).length) := by
  induction front generalizing start with
  | nil => rfl
  | cons first front ih =>
      rw [List.cons_append, startsFrom, List.length_cons, List.getElem?_cons_succ, ih,
        List.flatMap_cons, List.length_append, Nat.add_assoc]

/-- Values are put to the numbers of their tags. -/
theorem spread_getElem? {values : List (List Char)} {value : ℕ → List Char} (pos : ℕ)
    (js : List ℕ) (out : List (List Char)) {rest : List (List Char)}
    (found : values.drop pos = js.map value ++ rest) (j : ℕ) (inside : j < out.length) :
    (spread values pos js out)[j]? = if j ∈ js then some (value j) else out[j]? := by
  induction js generalizing pos out with
  | nil => rfl
  | cons first js ih =>
      rw [List.map_cons, List.cons_append] at found
      have here : values[pos]? = some (value first) := by
        rw [← Nat.add_zero pos, ← List.getElem?_drop, found]
        rfl
      have next : values.drop (pos + 1) = js.map value ++ rest := by
        rw [← List.drop_drop, found]
        rfl
      rw [spread, here, Option.getD_some, ih (pos + 1) _ next (by rwa [List.length_set])]
      by_cases later : j ∈ js
      · rw [if_pos later, if_pos (List.mem_cons_of_mem _ later)]
      · rw [if_neg later, List.getElem?_set]
        by_cases same : first = j
        · subst same
          simp [inside]
        · rw [if_neg same, if_neg]
          simpa [eq_comm, later] using same

/-- **The index gives every entry all of its normalized fields.** -/
theorem fields_newAddressIndex (blank : normalize [] = []) (front back : List (AddressEntry C))
    (e : AddressEntry C) :
    (newAddressIndex normalize (front ++ e :: back)).fields front.length =
      allFields normalize e := by
  have fresh : (⟨[], ∅⟩ : IndexBuild).Cached normalize := fun raw value found => by
    rw [AList.lookup_empty] at found
    cases found
  obtain ⟨offsets, values⟩ := foldl_addEntry normalize (front ++ e :: back) [] fresh
  have start : ((newAddressIndex normalize (front ++ e :: back)).offsets[front.length]?).getD 0 =
      (front.flatMap (entryValues normalize)).length := by
    show ((List.foldl (addEntry normalize) ([], ⟨[], ∅⟩) (front ++ e :: back)).1[front.length]?).getD
      0 = _
    rw [offsets, List.nil_append, startsFrom_getElem?]
    exact Nat.zero_add _
  have mask : ((newAddressIndex normalize (front ++ e :: back)).masks[front.length]?).getD 0 =
      maskOf e := by
    show (((front ++ e :: back).map maskOf)[front.length]?).getD 0 = _
    simp
  have stored : (newAddressIndex normalize (front ++ e :: back)).values.drop
      (front.flatMap (entryValues normalize)).length =
        (maskBits (maskOf e)).map (fun j => normalize (searchTag e j)) ++
          back.flatMap (entryValues normalize) := by
    show (List.foldl (addEntry normalize) ([], ⟨[], ∅⟩) (front ++ e :: back)).2.values.drop _ = _
    rw [values, List.nil_append, List.flatMap_append, List.drop_left, List.flatMap_cons]
    rfl
  have value : ∀ j < 13, ((spread (newAddressIndex normalize (front ++ e :: back)).values
      (front.flatMap (entryValues normalize)).length (maskBits (maskOf e))
      (List.replicate 13 []))[j]?).getD [] = normalize (searchTag e j) := by
    intro j small
    rw [spread_getElem? _ _ _ stored j (by rwa [List.length_replicate]), maskBits_eq]
    by_cases present : searchTag e j ≠ []
    · rw [if_pos (Nat.mem_bitIndices.mpr ((testBit_maskOf e j).mpr present))]
      rfl
    · rw [if_neg (mt (fun bit => (testBit_maskOf e j).mp (Nat.mem_bitIndices.mp bit)) present),
        List.getElem?_replicate, if_pos small, not_not.mp present, blank]
      rfl
  rw [AddressIndex.fields, start, mask, fieldsOfValues]
  dsimp only
  rw [value 0 (by decide), value 1 (by decide), value 2 (by decide), value 3 (by decide),
    value 4 (by decide), value 5 (by decide), value 6 (by decide), value 7 (by decide),
    value 8 (by decide), value 9 (by decide), value 10 (by decide), value 11 (by decide),
    value 12 (by decide)]
  rfl

/-! ## Answers -/

variable (isLetter : Char → Bool)

/-- A search depends on the scores of the entries only. -/
theorem searchAddressEntries_congr {entries : List (AddressEntry C)}
    {query : NormalizedAddressQuery} {limit : ℤ} {score score' : ℕ → NormalizedAddressQuery → ℕ}
    (same : ∀ i < entries.length, score i query = score' i query) :
    searchAddressEntries entries query limit score =
      searchAddressEntries entries query limit score' := by
  have folded : ∀ (limit : ℕ), (List.range entries.length).foldl (fun sc i =>
      addScored entries limit sc ⟨i, score i query⟩) [] =
      (List.range entries.length).foldl (fun sc i =>
        addScored entries limit sc ⟨i, score' i query⟩) [] := fun limit =>
    List.foldl_ext _ _ _ fun sc i here => by rw [same i (List.mem_range.mp here)]
  unfold searchAddressEntries
  dsimp only
  rw [folded]

/-- The fields of the index by the place of the entry. -/
theorem fields_of_getElem? (blank : normalize [] = []) {entries : List (AddressEntry C)} {i : ℕ}
    {e : AddressEntry C} (here : entries[i]? = some e) :
    (newAddressIndex normalize entries).fields i = allFields normalize e := by
  obtain ⟨inside, rfl⟩ := List.getElem?_eq_some_iff.mp here
  have split : entries = entries.take i ++ entries[i] :: entries.drop (i + 1) := by
    rw [← List.drop_eq_getElem_cons inside, List.take_append_drop]
  have place : (entries.take i).length = i := List.length_take_of_le inside.le
  have known := fields_newAddressIndex normalize blank (entries.take i) (entries.drop (i + 1))
    entries[i]
  rwa [← split, place] at known

/-- **The address index answers like the plain functions.** -/
theorem addressIndex_faithful (blank : normalize [] = []) (entries : List (AddressEntry C))
    (q : AddressQuery) :
    (∀ limit : ℤ, (newAddressIndex normalize entries).search normalize isLetter q limit =
      searchAddresses isLetter normalize entries q limit) ∧
    (newAddressIndex normalize entries).findBest normalize isLetter q =
      findBestAddress isLetter normalize entries q := by
  constructor
  · intro limit
    refine searchAddressEntries_congr fun i inside => ?_
    have here : entries[i]? = some entries[i] := List.getElem?_eq_getElem inside
    rw [fields_of_getElem? normalize blank here, here]
    exact (NormalizedAddressFields.score_congr (fromTags_agree normalize _ _)).symm
  · have folded : entries.zipIdx.foldl (fun best e => betterDestination best e.1
        (((newAddressIndex normalize entries).fields e.2).destinationScore
          (normalizeAddressQuery isLetter normalize q))) (none, 0) =
        entries.zipIdx.foldl (fun best e => betterDestination best e.1
          ((normalizedAddressFieldsFromTags normalize e.1
            (normalizeAddressQuery isLetter normalize q)).destinationScore
              (normalizeAddressQuery isLetter normalize q))) (none, 0) := by
      refine List.foldl_ext _ _ _ fun best e here => ?_
      have place := List.mem_zipIdx_iff_getElem?.mp here
      rw [fields_of_getElem? normalize blank place,
        NormalizedAddressFields.destinationScore_congr (fromTags_agree normalize e.1 _)]
    have plain : ∀ (f : Option (AddressEntry C) × ℕ → AddressEntry C →
        Option (AddressEntry C) × ℕ) (start : Option (AddressEntry C) × ℕ),
        entries.zipIdx.foldl (fun best e => f best e.1) start = entries.foldl f start := by
      intro f start
      rw [← List.foldl_map, List.zipIdx_map_fst]
    rw [findBestAddress, ← plain]
    exact congrArg Prod.fst folded

end Index

/-- A bakery in a town. -/
def bakery : AddressEntry Unit where
  id := 7
  coord := ()
  tags := GoMap.ofList [("name", ['b', 'r', 'o', 't']), ("addr:city", ['u', 'l', 'm'])]

theorem addressIndex_faithful_bakery :
    (newAddressIndex id [bakery]).findBest id Char.isAlpha
      ⟨['b', 'r', 'o', 't'], [], [], ['u', 'l', 'm'], []⟩ =
    findBestAddress Char.isAlpha id [bakery] ⟨['b', 'r', 'o', 't'], [], [], ['u', 'l', 'm'], []⟩ :=
  (addressIndex_faithful id Char.isAlpha rfl [bakery] _).2

end OsmMini.Core

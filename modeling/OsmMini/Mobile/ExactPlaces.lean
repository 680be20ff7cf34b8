import OsmMini.Foundations.Ranges
import OsmMini.Foundations.StableInsertion
import OsmMini.Mobile.Poi.Catalog

/-!
# Places with exactly one name

A catalog of settlements keeps, for each normalized name, the places that bear it. A search
shows at most a hundred results, so no more are kept: the larger settlements first, and then
by kind and number.

A place is compared with the places still kept only. One that was dropped may come again, but
then the places that pushed it out are still there (`exactPlaces_of_perm`). The lists
therefore do not depend on the order of the records.
-/

set_option autoImplicit false

namespace OsmMini.Mobile

open OsmMini.Foundations

def maxExactPlacesPerName : ℕ := 100

/-- A record with the text that addresses are searched by. -/
structure SettlementRecord (D : Type) extends SearchResult D where
  text : List Char

section Places

variable {D : Type}

/-! ## The order of places -/

/-- The kind of a settlement, which stands in one of two fields. -/
def settlementKind (result : SettlementRecord D) : List Char :=
  if result.place = [] then result.category else result.place

def placePriority (result : SettlementRecord D) : ℤ :=
  let kind := settlementKind result
  if kind = "city".toList then 0
  else if kind = "town".toList then 1
  else if kind = "village".toList then 2
  else if kind = "hamlet".toList then 3
  else if kind = "suburb".toList then 4
  else if kind = "quarter".toList then 5
  else if kind = "neighbourhood".toList then 6
  else 7

/-- The comparison of two texts. -/
def compareText (a b : List Char) : ℤ := if a < b then -1 else if a = b then 0 else 1

/-- Prefer larger settlements. Kind and number break ties. -/
def compareExactPlaces (a b : SettlementRecord D) : ℤ :=
  if placePriority a - placePriority b ≠ 0 then placePriority a - placePriority b
  else if compareText a.kind b.kind ≠ 0 then compareText a.kind b.kind
  else if a.id < b.id then -1
  else if b.id < a.id then 1
  else 0

/-- What the comparison compares. -/
def placeKey (result : SettlementRecord D) : ℤ ×ₗ (List Char ×ₗ ℤ) :=
  toLex (placePriority result, toLex (result.kind, result.id))

theorem compareText_eq_zero {a b : List Char} : compareText a b = 0 ↔ a = b := by
  rw [compareText]
  rcases lt_trichotomy a b with less | rfl | more
  · rw [if_pos less]
    exact iff_of_false (by decide) less.ne
  · rw [if_neg (lt_irrefl a), if_pos rfl]
    exact iff_of_true rfl rfl
  · rw [if_neg more.not_gt, if_neg more.ne']
    exact iff_of_false (by decide) more.ne'

theorem compareText_neg {a b : List Char} : compareText a b < 0 ↔ a < b := by
  rw [compareText]
  by_cases less : a < b
  · rw [if_pos less]
    exact iff_of_true (by decide) less
  · rw [if_neg less]
    by_cases same : a = b
    · rw [if_pos same]
      exact iff_of_false (by decide) less
    · rw [if_neg same]
      exact iff_of_false (by decide) less

/-- **The comparison follows the key.** -/
theorem compareExactPlaces_neg {a b : SettlementRecord D} :
    compareExactPlaces a b < 0 ↔ placeKey a < placeKey b := by
  rw [placeKey, placeKey, Prod.Lex.toLex_lt_toLex, Prod.Lex.toLex_lt_toLex, compareExactPlaces]
  dsimp only
  by_cases priority : placePriority a - placePriority b = 0
  · have same : placePriority a = placePriority b := by omega
    rw [if_neg (not_not.mpr priority)]
    by_cases kind : compareText a.kind b.kind = 0
    · have sameKind := compareText_eq_zero.mp kind
      rw [if_neg (not_not.mpr kind)]
      have none : ¬placePriority a < placePriority b := by omega
      have noneKind : ¬a.kind < b.kind := by
        rw [sameKind]
        exact lt_irrefl _
      by_cases less : a.id < b.id
      · rw [if_pos less]
        exact iff_of_true (by decide) (Or.inr ⟨same, Or.inr ⟨sameKind, less⟩⟩)
      · rw [if_neg less]
        refine iff_of_false (by split <;> decide) ?_
        rintro (early | ⟨-, early | ⟨-, early⟩⟩)
        · exact none early
        · exact noneKind early
        · exact less early
    · rw [if_pos kind, compareText_neg]
      refine ⟨fun less => Or.inr ⟨same, Or.inl less⟩, ?_⟩
      rintro (early | ⟨-, early | ⟨early, -⟩⟩)
      · omega
      · exact early
      · exact absurd (compareText_eq_zero.mpr early) kind
  · rw [if_pos priority]
    refine ⟨fun less => Or.inl (by omega), ?_⟩
    rintro (early | ⟨early, -⟩)
    · omega
    · omega

theorem compareText_swap (a b : List Char) : compareText b a = -compareText a b := by
  rw [compareText, compareText]
  rcases lt_trichotomy a b with less | rfl | more
  · rw [if_neg less.not_gt, if_neg less.ne', if_pos less]
    rfl
  · rw [if_neg (lt_irrefl a), if_pos rfl]
    rfl
  · rw [if_pos more, if_neg more.not_gt, if_neg more.ne']

theorem compareExactPlaces_swap (a b : SettlementRecord D) :
    compareExactPlaces b a = -compareExactPlaces a b := by
  have text := compareText_swap a.kind b.kind
  rw [compareExactPlaces, compareExactPlaces, text]
  split_ifs <;> omega

theorem compareExactPlaces_le {a b : SettlementRecord D} :
    compareExactPlaces a b ≤ 0 ↔ placeKey a ≤ placeKey b := by
  have back := @compareExactPlaces_neg _ b a
  rw [compareExactPlaces_swap] at back
  rw [← not_lt (a := placeKey b), ← back]
  omega

/-! ## The index -/

/-- Put a place among the places of its name. -/
def addExactPlace (places : List (SettlementRecord D)) (result : SettlementRecord D) :
    List (SettlementRecord D) :=
  if places.any fun existing => existing.kind = result.kind && existing.id = result.id then places
  else
    let position := binarySearch (fun existing => compareExactPlaces existing result < 0) places
    if maxExactPlacesPerName ≤ position then places
    else (places.take position ++ result :: places.drop position).take maxExactPlacesPerName

variable (normalized : List Char → List Char)

/-- The places of each name. -/
abbrev ExactPlaceIndex (D : Type) := Core.GoMap (List Char) (List (SettlementRecord D))

namespace ExactPlaceIndex

def add (index : ExactPlaceIndex D) (result : SettlementRecord D) : ExactPlaceIndex D :=
  let key := normalized result.label
  if key = [] then index
  else index.insert key (addExactPlace ((index.lookup key).getD []) { result with text := [] })

/-- Put records into an empty index, one after the other. -/
def addAll (records : List (SettlementRecord D)) : ExactPlaceIndex D :=
  records.foldl (add normalized) ∅

end ExactPlaceIndex

open Classical in
/-- The first distinct places of a name. -/
noncomputable def exactPlaces (records : List (SettlementRecord D)) (name : List Char) :
    List (SettlementRecord D) :=
  let named := (records.filter fun r => normalized r.label = name).map ({ · with text := [] })
  (named.dedup.mergeSort fun a b => compareExactPlaces a b ≤ 0).take maxExactPlacesPerName

/-! ## The places kept of one name -/

/-- The first of the places that have been seen. -/
def KeepsFirst (seen : SettlementRecord D → Prop) (places : List (SettlementRecord D)) : Prop :=
  ∃ whole : List (SettlementRecord D), whole.Pairwise (fun a b => placeKey a < placeKey b) ∧
    (∀ x, x ∈ whole ↔ seen x) ∧ places = whole.take maxExactPlacesPerName

theorem placeKey_inj {a b : SettlementRecord D} (same : placeKey a = placeKey b) :
    a.kind = b.kind ∧ a.id = b.id := by
  have pairs := (Prod.ext_iff.mp (toLex_inj.mp same)).2
  exact Prod.ext_iff.mp (toLex_inj.mp pairs)

/-- The place of a record is found by its key. -/
theorem binarySearch_places {places : List (SettlementRecord D)}
    (sorted : places.Pairwise fun a b => placeKey a < placeKey b) (result : SettlementRecord D) :
    binarySearch (fun existing => compareExactPlaces existing result < 0) places =
      (places.takeWhile fun existing => placeKey existing < placeKey result).length := by
  have before : (fun existing => decide (compareExactPlaces existing result < 0)) =
      fun existing => decide (placeKey existing < placeKey result) := by
    funext existing
    exact decide_eq_decide.mpr compareExactPlaces_neg
  rw [before]
  refine binarySearch_eq (sorted.imp fun {a b} less later => ?_)
  simp only [decide_eq_true_eq] at later ⊢
  exact less.trans later

/-- Among places with other keys a record is put where a stable insertion puts it. -/
theorem addExactPlace_eq {places : List (SettlementRecord D)} {result : SettlementRecord D}
    (sorted : places.Pairwise fun a b => placeKey a < placeKey b)
    (short : places.length ≤ maxExactPlacesPerName)
    (fresh : ∀ x ∈ places, placeKey x ≠ placeKey result)
    (absent : places.any (fun existing =>
      existing.kind = result.kind && existing.id = result.id) = false) :
    addExactPlace places result = insertWithin placeKey maxExactPlacesPerName places result := by
  have strict : places.takeWhile (fun existing => placeKey existing < placeKey result) =
        places.takeWhile (fun existing => placeKey existing ≤ placeKey result) ∧
      places.dropWhile (fun existing => placeKey existing < placeKey result) =
        places.dropWhile (fun existing => placeKey existing ≤ placeKey result) := by
    clear sorted short absent
    induction places with
    | nil => exact ⟨rfl, rfl⟩
    | cons x places ih =>
        obtain ⟨here, later⟩ := List.forall_mem_cons.mp fresh
        obtain ⟨front, back⟩ := ih later
        have same : decide (placeKey x < placeKey result) =
            decide (placeKey x ≤ placeKey result) :=
          decide_eq_decide.mpr ⟨le_of_lt, fun le => lt_of_le_of_ne le here⟩
        rw [List.takeWhile_cons, List.takeWhile_cons, List.dropWhile_cons, List.dropWhile_cons,
          same, front, back]
        exact ⟨rfl, rfl⟩
  rw [addExactPlace, absent, if_neg Bool.false_ne_true, binarySearch_places sorted]
  dsimp only
  by_cases full : maxExactPlacesPerName ≤
      (places.takeWhile fun existing => placeKey existing < placeKey result).length
  · rw [if_pos full]
    have shorter := (List.takeWhile_prefix (l := places)
      (fun existing => placeKey existing < placeKey result)).length_le
    have all := (List.takeWhile_prefix _).eq_of_length (le_antisymm shorter (by omega))
    refine (insertWithin_full placeKey (by omega) fun x member => ?_).symm
    have before := List.takeWhile_eq_self_iff.mp all x member
    exact (of_decide_eq_true before).le
  · rw [if_neg full, take_length_takeWhile, drop_length_takeWhile, strict.1, strict.2,
      insertWithin, insertAfter_eq]

/-- **A record keeps the first places.** One that was dropped before does not come back. -/
theorem addExactPlace_keepsFirst {seen : SettlementRecord D → Prop}
    {places : List (SettlementRecord D)} (kept : KeepsFirst seen places)
    {result : SettlementRecord D}
    (identical : ∀ x, seen x → x.kind = result.kind → x.id = result.id → x = result) :
    KeepsFirst (fun x => seen x ∨ x = result) (addExactPlace places result) := by
  obtain ⟨whole, sorted, members, rfl⟩ := kept
  have unchanged : seen result → ∀ x, x ∈ whole ↔ seen x ∨ x = result := by
    intro old x
    rw [members x]
    refine ⟨Or.inl, ?_⟩
    rintro (known | rfl)
    · exact known
    · exact old
  by_cases present : (whole.take maxExactPlacesPerName).any (fun existing =>
      existing.kind = result.kind && existing.id = result.id) = true
  · rw [addExactPlace, if_pos present]
    obtain ⟨x, member, same⟩ := List.any_eq_true.mp present
    have known := (members x).mp (List.mem_of_mem_take member)
    simp only [Bool.and_eq_true, decide_eq_true_eq] at same
    have equal := identical x known same.1 same.2
    exact ⟨whole, sorted, unchanged (equal ▸ known), rfl⟩
  · have absent := Bool.eq_false_of_not_eq_true present
    have sortedTop := sorted.sublist (List.take_sublist maxExactPlacesPerName whole)
    have short : (whole.take maxExactPlacesPerName).length ≤ maxExactPlacesPerName :=
      List.length_take_le _ _
    have outside : result ∉ whole.take maxExactPlacesPerName := by
      intro member
      exact present (List.any_eq_true.mpr ⟨result, member, by simp⟩)
    have fresh : ∀ x ∈ whole, x ≠ result → placeKey x ≠ placeKey result := by
      intro x member other same
      obtain ⟨kind, id⟩ := placeKey_inj same
      exact other (identical x ((members x).mp member) kind id)
    rw [addExactPlace_eq sortedTop short (fun x member =>
      fresh x (List.mem_of_mem_take member) fun same => outside (same ▸ member)) absent]
    by_cases old : seen result
    · refine ⟨whole, sorted, unchanged old, ?_⟩
      -- The record was dropped: it stands behind a full list.
      have split := List.take_append_drop maxExactPlacesPerName whole
      have dropped : result ∈ whole.drop maxExactPlacesPerName := by
        have member := (members result).mpr old
        rw [← split] at member
        exact (List.mem_append.mp member).resolve_left outside
      have long := List.length_pos_of_mem dropped
      rw [List.length_drop] at long
      have full : (whole.take maxExactPlacesPerName).length = maxExactPlacesPerName := by
        rw [List.length_take]
        omega
      rw [← split] at sorted
      refine insertWithin_full placeKey full fun x member => ?_
      exact ((List.pairwise_append.mp sorted).2.2 x member result dropped).le
    · have other : ∀ x ∈ whole, placeKey x ≠ placeKey result := fun x member =>
        fresh x member fun same => old (same ▸ (members x).mp member)
      refine ⟨insertAfter placeKey result whole, ?_, fun x => ?_, take_insertAfter placeKey _ _ _⟩
      · have weak := insertAfter_sorted placeKey result (sorted.imp le_of_lt)
        have perm := insertAfter_perm placeKey result whole
        have distinct : ((insertAfter placeKey result whole).map placeKey).Nodup := by
          rw [(perm.map placeKey).nodup_iff, List.map_cons, List.nodup_cons]
          refine ⟨?_, List.pairwise_map.mpr (sorted.imp ne_of_lt)⟩
          intro member
          obtain ⟨x, inside, same⟩ := List.mem_map.mp member
          exact other x inside same
        exact (weak.and (List.pairwise_map.mp distinct)).imp fun both =>
          lt_of_le_of_ne both.1 both.2
      · rw [(insertAfter_perm placeKey result whole).mem_iff, List.mem_cons, members x]
        exact or_comm

/-! ## The index after any records -/

variable {normalized} {name : List Char}

/-- A record changes the list of its own name only. -/
theorem ExactPlaceIndex.lookup_add (index : ExactPlaceIndex D) (result : SettlementRecord D)
    (named : name ≠ []) :
    ((ExactPlaceIndex.add normalized index result).lookup name).getD [] =
      if normalized result.label = name then
        addExactPlace ((index.lookup name).getD []) { result with text := [] }
      else (index.lookup name).getD [] := by
  rw [ExactPlaceIndex.add]
  by_cases mine : normalized result.label = name
  · rw [if_pos mine, mine, if_neg named, AList.lookup_insert, Option.getD_some]
  · rw [if_neg mine]
    by_cases empty : normalized result.label = []
    · rw [if_pos empty]
    · rw [if_neg empty, AList.lookup_insert_ne (Ne.symm mine)]

theorem foldl_add_keepsFirst (named : name ≠ []) {records : List (SettlementRecord D)} :
    ∀ {seen : SettlementRecord D → Prop} {index : ExactPlaceIndex D},
    (∀ a ∈ records, ∀ x, seen x → x.kind = a.kind → x.id = a.id → x = { a with text := [] }) →
    (∀ a ∈ records, ∀ b ∈ records, a.kind = b.kind → a.id = b.id → a = b) →
    KeepsFirst seen ((index.lookup name).getD []) →
    KeepsFirst (fun x => seen x ∨
        ∃ r ∈ records, normalized r.label = name ∧ x = { r with text := [] })
      (((records.foldl (ExactPlaceIndex.add normalized) index).lookup name).getD []) := by
  induction records with
  | nil =>
      intro seen index known identical kept
      simpa using kept
  | cons a records ih =>
      intro seen index known identical kept
      rw [List.foldl_cons]
      have step : KeepsFirst (fun x => seen x ∨
          (normalized a.label = name ∧ x = { a with text := [] }))
          (((ExactPlaceIndex.add normalized index a).lookup name).getD []) := by
        rw [ExactPlaceIndex.lookup_add index a named]
        by_cases mine : normalized a.label = name
        · rw [if_pos mine]
          have placed : KeepsFirst (fun x => seen x ∨ x = { a with text := [] })
              (addExactPlace ((index.lookup name).getD []) { a with text := [] }) :=
            addExactPlace_keepsFirst kept (known a List.mem_cons_self)
          simpa [mine] using placed
        · rw [if_neg mine]
          simpa [mine] using kept
      have run := @ih (fun x => seen x ∨
          (normalized a.label = name ∧ x = { a with text := [] }))
        (ExactPlaceIndex.add normalized index a) (fun b member x old => ?_)
        (fun b inB c inC => identical b (List.mem_cons_of_mem _ inB) c
          (List.mem_cons_of_mem _ inC)) step
      · have shape : (fun x => seen x ∨
            ∃ r ∈ a :: records, normalized r.label = name ∧ x = { r with text := [] }) =
            fun x => (seen x ∨ (normalized a.label = name ∧ x = { a with text := [] })) ∨
              ∃ r ∈ records, normalized r.label = name ∧ x = { r with text := [] } := by
          funext x
          rw [List.exists_mem_cons_iff, or_assoc]
        rw [shape]
        exact run
      · rcases old with old | ⟨-, rfl⟩
        · exact known b (List.mem_cons_of_mem _ member) x old
        · intro kind id
          rw [identical a List.mem_cons_self b (List.mem_cons_of_mem _ member) kind id]

theorem lookup_empty_name (records : List (SettlementRecord D)) :
    (ExactPlaceIndex.addAll normalized records).lookup [] = none := by
  have run : ∀ index : ExactPlaceIndex D, index.lookup [] = none →
      (records.foldl (ExactPlaceIndex.add normalized) index).lookup [] = none := by
    induction records with
    | nil => exact fun _ none => none
    | cons a records ih =>
        intro index none
        rw [List.foldl_cons]
        refine ih _ ?_
        rw [ExactPlaceIndex.add]
        by_cases empty : normalized a.label = []
        · rw [if_pos empty]
          exact none
        · rw [if_neg empty, AList.lookup_insert_ne (Ne.symm empty)]
          exact none
  exact run ∅ (AList.lookup_empty [])

/-- The first places are those of the sorted distinct records. -/
theorem eq_exactPlaces {records : List (SettlementRecord D)} {places : List (SettlementRecord D)}
    (kept : KeepsFirst (fun x => ∃ r ∈ records, normalized r.label = name ∧
      x = { r with text := [] }) places) : places = exactPlaces normalized records name := by
  classical
  obtain ⟨whole, sorted, members, rfl⟩ := kept
  have order : (fun a b : SettlementRecord D => decide (compareExactPlaces a b ≤ 0)) =
      fun a b => decide (placeKey a ≤ placeKey b) := by
    funext a b
    exact decide_eq_decide.mpr compareExactPlaces_le
  rw [exactPlaces]
  rw [order, mergeSort_eq_sortByKey]
  congr 1
  have distinct : whole.Nodup := sorted.imp fun less same => (same ▸ less).ne rfl
  have same : whole.Perm ((records.filter fun r => normalized r.label = name).map
      ({ · with text := [] })).dedup := by
    refine (List.perm_ext_iff_of_nodup distinct (List.nodup_dedup _)).mpr fun x => ?_
    rw [members x, List.mem_dedup, List.mem_map]
    constructor
    · rintro ⟨r, member, label, rfl⟩
      exact ⟨r, List.mem_filter.mpr ⟨member, decide_eq_true label⟩, rfl⟩
    · rintro ⟨r, member, rfl⟩
      obtain ⟨inside, label⟩ := List.mem_filter.mp member
      exact ⟨r, inside, of_decide_eq_true label, rfl⟩
  refine (same.trans (sortByKey_perm placeKey _).symm).eq_of_pairwise
    (fun a b inA inB less more => ?_) (sorted.imp le_of_lt) (sortByKey_sorted placeKey _)
  have inWhole : b ∈ whole := same.mem_iff.mpr ((sortByKey_perm placeKey _).mem_iff.mp inB)
  have keys : (whole.map placeKey).Nodup := List.pairwise_map.mpr (sorted.imp ne_of_lt)
  exact List.inj_on_of_nodup_map keys inA inWhole (le_antisymm less more)

/-- **The places of a name do not depend on the order of the records.** In every order in which
identical records share kind and number, the index holds the first distinct places of each
name. -/
theorem exactPlaces_of_perm (normalized : List Char → List Char)
    (records : List (SettlementRecord D))
    (identical : ∀ a ∈ records, ∀ b ∈ records, a.kind = b.kind → a.id = b.id → a = b)
    (order : List (SettlementRecord D)) (perm : order.Perm records) (name : List Char) :
    ((ExactPlaceIndex.addAll normalized order).lookup name).getD [] =
      if name = [] then [] else exactPlaces normalized records name := by
  by_cases empty : name = []
  · subst empty
    rw [if_pos rfl, lookup_empty_name]
    rfl
  · rw [if_neg empty]
    refine eq_exactPlaces ?_
    have run : KeepsFirst (fun x => False ∨
        ∃ r ∈ order, normalized r.label = name ∧ x = { r with text := [] })
        (((order.foldl (ExactPlaceIndex.add normalized) ∅).lookup name).getD []) :=
      foldl_add_keepsFirst empty (fun _ _ _ none => none.elim)
        (fun a inA b inB => identical a (perm.subset inA) b (perm.subset inB))
        ⟨[], List.Pairwise.nil, fun x => by simp, by rw [AList.lookup_empty]; rfl⟩
    have same : (fun x : SettlementRecord D => False ∨
        ∃ r ∈ order, normalized r.label = name ∧ x = { r with text := [] }) =
        fun x => ∃ r ∈ records, normalized r.label = name ∧ x = { r with text := [] } := by
      funext x
      rw [false_or]
      refine propext (exists_congr fun r => and_congr_left fun _ => perm.mem_iff)
    rw [same] at run
    exact run

/-- A town and a city of the same name. -/
def newtown : SettlementRecord Unit :=
  ⟨⟨7, "node".toList, "Neustadt".toList, ⟨⟨0⟩, ⟨0⟩⟩, [], "town".toList, none⟩, []⟩

def newcity : SettlementRecord Unit :=
  ⟨⟨9, "node".toList, "Neustadt".toList, ⟨⟨0⟩, ⟨0⟩⟩, [], "city".toList, none⟩, "62".toList⟩

theorem exactPlaces_of_perm_newtown :
    ((ExactPlaceIndex.addAll id [newtown, newcity, newtown]).lookup "Neustadt".toList).getD [] =
      exactPlaces id [newcity, newtown, newtown] "Neustadt".toList := by
  have same := exactPlaces_of_perm id [newcity, newtown, newtown]
    (by
      have other : newtown.id ≠ newcity.id := by decide
      simp [other, other.symm])
    [newtown, newcity, newtown] (List.Perm.swap _ _ _) "Neustadt".toList
  rwa [if_neg (by decide)] at same

end Places

end OsmMini.Mobile

import OsmMini.Foundations.Literals
import OsmMini.Core.Labels.Distribute
import OsmMini.Core.Store.Open
import OsmMini.Foundations.Buckets
import OsmMini.Foundations.Cheapest
import OsmMini.Foundations.Rectangles

/-!
# The grid of street labels

The samples of the streets are filed under the cells of a fixed grid. The labels of a window are
found from the cells that the window covers: each street is labelled at its visible sample
nearest to the centre. Without a grid all streets are looked through.

Cells grow with the coordinates, so each visible sample lies in one of the cells
(`visible_windowRefs`). A street has therefore the same visible samples either way, and when no two
of them are equally far, the same label (`streetLabels_eq_scan`). Keys of cells are cut to 32
bits for each number. Cells that share a key only add samples that are not visible.
-/

set_option autoImplicit false

namespace OsmMini.Core

open Foundations

section Grid

variable {K : Type} [Field K] [LinearOrder K]

abbrev Streets := GoMap String StreetEntry

/-- A sample of a street: its key and a node. -/
abbrev StreetLabelRef := String × Int64

def CoordWindow.Valid (w : CoordWindow K) : Prop :=
  (w.minLat < w.maxLat ∧ w.minLon < w.maxLon) ∧
    (-90 ≤ w.minLat ∧ w.maxLat ≤ 90) ∧ (-180 ≤ w.minLon ∧ w.maxLon ≤ 180)

instance (w : CoordWindow K) : Decidable w.Valid := inferInstanceAs (Decidable (_ ∧ _ ∧ _))

def windowCenter (w : CoordWindow K) : Coord K :=
  ⟨(w.minLat + w.maxLat) / 2, (w.minLon + w.maxLon) / 2⟩

/-- A window holds a coordinate, its border included. -/
def CoordWindow.Shows (w : CoordWindow K) (c : Coord K) : Prop :=
  w.minLat ≤ c.lat ∧ c.lat ≤ w.maxLat ∧ w.minLon ≤ c.lon ∧ c.lon ≤ w.maxLon

instance (w : CoordWindow K) (c : Coord K) : Decidable (w.Shows c) :=
  inferInstanceAs (Decidable (_ ∧ _ ∧ _ ∧ _))

/-- The squared distance from the centre, in degrees. -/
def centerDist (w : CoordWindow K) (c : Coord K) : K :=
  let dLat := c.lat - (windowCenter w).lat
  let dLon := c.lon - (windowCenter w).lon
  dLat * dLat + dLon * dLon

/-- The coordinate of a node in the window. -/
def visibleSample (coords : GoMap Int64 (Coord K)) (window : CoordWindow K) (id : Int64) :
    Option (Coord K) :=
  match coords.lookup id with
  | none => none
  | some coord => if window.Shows coord then some coord else none

variable [FloorRing K]

def mapLabelCell (c : Coord K) : ℤ × ℤ := (⌊(c.lat + 90) / 0.02⌋, ⌊(c.lon + 180) / 0.02⌋)

def mapLabelKey (cell : ℤ × ℤ) : Int64 := cellKey (Int32.ofInt cell.1, Int32.ofInt cell.2)

def buildStreetLabelCells (streets : Streets) (coords : GoMap Int64 (Coord K)) :
    GoMap Int64 (List StreetLabelRef) :=
  let refs := streets.entries.flatMap fun e => e.2.nodeIDs.map fun id => (e.1, id)
  refs.foldl (fun cells ref =>
    match coords.lookup ref.2 with
    | none => cells
    | some coord => push cells (mapLabelKey (mapLabelCell coord)) ref) ∅

/-! ## Labels -/

/-- All streets with their visible samples nearest to the centre. -/
def scanCandidates (streets : Streets) (coords : GoMap Int64 (Coord K)) (window : CoordWindow K) :
    List (MapLabelCandidate K) :=
  streets.entries.filterMap fun e =>
    if e.2.display = "" then none
    else
      (cheapest (fun c => some (centerDist window c))
        (e.2.nodeIDs.filterMap (visibleSample coords window))).map fun best =>
          ⟨⟨e.2.display, best.1⟩, best.2⟩

def streetLabelsScan (streets : Streets) (coords : GoMap Int64 (Coord K))
    (window : CoordWindow K) (limit : ℕ) : List (MapLabel K) :=
  distributeStreetLabelCandidates (scanCandidates streets coords window) window limit

/-- Keep a sample of a street if it is nearer than the one so far. -/
def keepNearer (streets : Streets) (coords : GoMap Int64 (Coord K)) (window : CoordWindow K)
    (byStreet : GoMap String (MapLabelCandidate K)) (ref : StreetLabelRef) :
    GoMap String (MapLabelCandidate K) :=
  match visibleSample coords window ref.2 with
  | none => byStreet
  | some coord =>
    let dist := centerDist window coord
    if (byStreet.lookup ref.1).all fun previous => decide (dist < previous.dist) then
      match streets.lookup ref.1 with
      | none => byStreet
      | some entry =>
        if entry.display = "" then byStreet
        else byStreet.insert ref.1 ⟨⟨entry.display, coord⟩, dist⟩
    else byStreet

/-- The samples in the cells that a window covers. -/
def windowRefs (cells : GoMap Int64 (List StreetLabelRef)) (window : CoordWindow K) :
    List StreetLabelRef :=
  (rectangle (mapLabelCell ⟨window.minLat, window.minLon⟩)
    (mapLabelCell ⟨window.maxLat, window.maxLon⟩)).flatMap fun cell => bucket cells (mapLabelKey cell)

def gridCandidates (streets : Streets) (cells : GoMap Int64 (List StreetLabelRef))
    (coords : GoMap Int64 (Coord K)) (window : CoordWindow K) :
    GoMap String (MapLabelCandidate K) :=
  (windowRefs cells window).foldl (keepNearer streets coords window) ∅

def sortStreetLabelCandidates (byStreet : GoMap String (MapLabelCandidate K))
    (window : CoordWindow K) (limit : ℕ) : List (MapLabel K) :=
  distributeStreetLabelCandidates (byStreet.entries.map Sigma.snd) window limit

def streetLabels (streets : Streets) (cells : GoMap Int64 (List StreetLabelRef))
    (coords : GoMap Int64 (Coord K)) (window : CoordWindow K) (limit : ℤ) : List (MapLabel K) :=
  if ¬window.Valid ∨ limit ≤ 0 ∨ streets.entries.length = 0 then []
  else
    let limit := (min limit 500).toNat
    if cells.entries.length = 0 then streetLabelsScan streets coords window limit
    else sortStreetLabelCandidates (gridCandidates streets cells coords window) window limit

/-! ## The samples of a window -/

omit [Field K] [FloorRing K] in
theorem visibleSample_eq {coords : GoMap Int64 (Coord K)} {window : CoordWindow K} {id : Int64}
    {c : Coord K} : visibleSample coords window id = some c ↔
      coords.lookup id = some c ∧ window.Shows c := by
  rw [visibleSample]
  cases coords.lookup id with
  | none => simp
  | some coord =>
      by_cases shown : window.Shows coord
      · simp only [if_pos shown, Option.some.injEq]
        exact ⟨fun same => ⟨same, same ▸ shown⟩, fun both => both.1⟩
      · simp only [if_neg shown, reduceCtorEq, false_iff, Option.some.injEq, not_and]
        rintro rfl
        exact shown

/-- A sample of a known node, with the key of its cell. -/
def keyedRef (coords : GoMap Int64 (Coord K)) (ref : StreetLabelRef) :
    Option (Int64 × StreetLabelRef) :=
  (coords.lookup ref.2).map fun coord => (mapLabelKey (mapLabelCell coord), ref)

/-- **The cells hold the samples of known nodes.** -/
theorem mem_buildStreetLabelCells {streets : Streets} {coords : GoMap Int64 (Coord K)} {k : Int64}
    {ref : StreetLabelRef} : ref ∈ bucket (buildStreetLabelCells streets coords) k ↔
      (∃ e ∈ streets.entries, e.1 = ref.1 ∧ ref.2 ∈ e.2.nodeIDs) ∧
        ∃ coord, coords.lookup ref.2 = some coord ∧ mapLabelKey (mapLabelCell coord) = k := by
  have filed : buildStreetLabelCells streets coords =
      ((streets.entries.flatMap fun e => e.2.nodeIDs.map fun id => (e.1, id)).filterMap
        (keyedRef coords)).foldl (fun cells entry => push cells entry.1 entry.2) ∅ := by
    rw [List.foldl_filterMap, buildStreetLabelCells]
    refine congrFun (congrFun (congrArg List.foldl (funext₂ fun cells ref => ?_)) _) _
    rw [keyedRef]
    cases coords.lookup ref.2 with
    | none => rfl
    | some coord => rfl
  have listed : ref ∈ (streets.entries.flatMap fun e => e.2.nodeIDs.map fun id => (e.1, id)) ↔
      ∃ e ∈ streets.entries, e.1 = ref.1 ∧ ref.2 ∈ e.2.nodeIDs := by
    rw [List.mem_flatMap]
    refine exists_congr fun e => and_congr_right fun _ => ?_
    rw [List.mem_map]
    constructor
    · rintro ⟨id, member, rfl⟩
      exact ⟨rfl, member⟩
    · rintro ⟨same, member⟩
      exact ⟨ref.2, member, Prod.ext same rfl⟩
  rw [filed, bucket_foldl_push, bucket_empty, List.nil_append, ← listed, List.mem_map]
  constructor
  · rintro ⟨⟨key, ref'⟩, member, rfl⟩
    obtain ⟨known, same⟩ := List.mem_filter.mp member
    obtain ⟨ref'', inside, keyed⟩ := List.mem_filterMap.mp known
    obtain ⟨coord, found, together⟩ := Option.map_eq_some_iff.mp keyed
    obtain ⟨rfl, rfl⟩ := Prod.mk.inj together
    exact ⟨inside, coord, found, of_decide_eq_true same⟩
  · rintro ⟨inside, coord, found, rfl⟩
    refine ⟨(_, ref), List.mem_filter.mpr ⟨List.mem_filterMap.mpr ⟨ref, inside, ?_⟩,
      decide_eq_true rfl⟩, rfl⟩
    rw [keyedRef, found]
    rfl

variable [IsStrictOrderedRing K]

/-- Cells grow with the coordinates. -/
theorem mapLabelCell_mem {window : CoordWindow K} {c : Coord K} (shown : window.Shows c) :
    mapLabelCell c ∈ rectangle (mapLabelCell ⟨window.minLat, window.minLon⟩)
      (mapLabelCell ⟨window.maxLat, window.maxLon⟩) := by
  obtain ⟨south, north, west, east⟩ := shown
  have size : (0 : K) ≤ 0.02 := by norm_num
  rw [mem_rectangle]
  refine ⟨⟨?_, ?_⟩, ?_, ?_⟩ <;> exact Int.floor_le_floor (div_le_div_of_nonneg_right (by linarith) size)

/-- **The visible samples of a street are in the cells of the window.** -/
theorem visible_windowRefs {streets : Streets} {coords : GoMap Int64 (Coord K)}
    {window : CoordWindow K} {key : String} {c : Coord K} :
    (∃ id, (key, id) ∈ windowRefs (buildStreetLabelCells streets coords) window ∧
      visibleSample coords window id = some c) ↔
    ∃ e ∈ streets.entries, e.1 = key ∧ c ∈ e.2.nodeIDs.filterMap (visibleSample coords window) := by
  constructor
  · rintro ⟨id, member, visible⟩
    obtain ⟨cell, -, filed⟩ := List.mem_flatMap.mp member
    obtain ⟨⟨e, known, same, sample⟩, -⟩ := mem_buildStreetLabelCells.mp filed
    exact ⟨e, known, same, List.mem_filterMap.mpr ⟨id, sample, visible⟩⟩
  · rintro ⟨e, known, same, member⟩
    obtain ⟨id, sample, visible⟩ := List.mem_filterMap.mp member
    obtain ⟨found, shown⟩ := visibleSample_eq.mp visible
    refine ⟨id, List.mem_flatMap.mpr ⟨mapLabelCell c, mapLabelCell_mem shown, ?_⟩, visible⟩
    exact mem_buildStreetLabelCells.mpr ⟨⟨e, known, same, sample⟩, c, found, rfl⟩

/-! ## The nearest samples -/

/-- The candidate of a street for a sample and its distance. -/
def candidateOf (entry : StreetEntry) (best : Coord K × K) : MapLabelCandidate K :=
  ⟨⟨entry.display, best.1⟩, best.2⟩

/-- The visible samples of one street among the samples. -/
def streetSamples (coords : GoMap Int64 (Coord K)) (window : CoordWindow K) (key : String)
    (refs : List StreetLabelRef) : List (Coord K) :=
  refs.filterMap fun ref => if ref.1 = key then visibleSample coords window ref.2 else none

omit [Field K] [FloorRing K] [IsStrictOrderedRing K] in
theorem mem_streetSamples {coords : GoMap Int64 (Coord K)} {window : CoordWindow K} {key : String}
    {refs : List StreetLabelRef} {c : Coord K} : c ∈ streetSamples coords window key refs ↔
      ∃ id, (key, id) ∈ refs ∧ visibleSample coords window id = some c := by
  rw [streetSamples, List.mem_filterMap]
  constructor
  · rintro ⟨⟨key', id⟩, member, visible⟩
    by_cases same : key' = key
    · rw [if_pos same] at visible
      exact ⟨id, same ▸ member, visible⟩
    · rw [if_neg same] at visible
      cases visible
  · rintro ⟨id, member, visible⟩
    exact ⟨(key, id), member, (if_pos rfl).trans visible⟩

section Lookups

variable {streets : Streets} {coords : GoMap Int64 (Coord K)} {window : CoordWindow K}
  {key : String} {entry : StreetEntry}

omit [FloorRing K] [IsStrictOrderedRing K] in
/-- A sample of another street does not change what is kept of a street. -/
theorem lookup_keepNearer_ne {m : GoMap String (MapLabelCandidate K)} {ref : StreetLabelRef}
    (other : ref.1 ≠ key) : (keepNearer streets coords window m ref).lookup key = m.lookup key := by
  rw [keepNearer]
  cases visibleSample coords window ref.2 with
  | none => rfl
  | some coord =>
      dsimp only
      split
      · cases streets.lookup ref.1 with
        | none => rfl
        | some entry =>
            dsimp only
            split
            · rfl
            · exact AList.lookup_insert_ne (Ne.symm other)
      · rfl

omit [FloorRing K] [IsStrictOrderedRing K] in
/-- A visible sample of a street improves what is kept of it. -/
theorem lookup_keepNearer {m : GoMap String (MapLabelCandidate K)} {ref : StreetLabelRef}
    {c : Coord K} (same : ref.1 = key) (visible : visibleSample coords window ref.2 = some c)
    (known : streets.lookup key = some entry) (shown : entry.display ≠ "")
    {best : Option (Coord K × K)} (kept : m.lookup key = best.map (candidateOf entry)) :
    (keepNearer streets coords window m ref).lookup key =
      (improve best c (centerDist window c)).map (candidateOf entry) := by
  rw [keepNearer, visible, same, known]
  dsimp only
  rw [if_neg shown, kept]
  cases best with
  | none =>
      exact AList.lookup_insert _
  | some previous =>
      have dist : (candidateOf entry previous).dist = previous.2 := rfl
      rw [improve, Option.map_some, Option.all_some, dist]
      by_cases nearer : centerDist window c < previous.2
      · rw [if_pos (decide_eq_true nearer), if_pos nearer]
        exact AList.lookup_insert _
      · rw [if_neg fun less => nearer (of_decide_eq_true less), if_neg nearer]
        exact kept

omit [FloorRing K] [IsStrictOrderedRing K] in
/-- **What is kept of a street** is its nearest visible sample. -/
theorem lookup_foldl_keepNearer (known : streets.lookup key = some entry)
    (shown : entry.display ≠ "") {refs : List StreetLabelRef} :
    ∀ {m : GoMap String (MapLabelCandidate K)} {best : Option (Coord K × K)},
    m.lookup key = best.map (candidateOf entry) →
    (refs.foldl (keepNearer streets coords window) m).lookup key =
      ((streetSamples coords window key refs).foldl
        (fun best c => improve best c (centerDist window c)) best).map (candidateOf entry) := by
  induction refs with
  | nil => exact fun kept => kept
  | cons ref refs ih =>
      intro m best kept
      rw [List.foldl_cons, streetSamples, List.filterMap_cons]
      by_cases same : ref.1 = key
      · rw [if_pos same]
        cases visible : visibleSample coords window ref.2 with
        | none =>
            refine ih ?_
            rw [keepNearer, visible]
            exact kept
        | some c => exact ih (lookup_keepNearer same visible known shown kept)
      · rw [if_neg same]
        exact ih ((lookup_keepNearer_ne same).trans kept)

omit [FloorRing K] [IsStrictOrderedRing K] in
/-- Nothing is kept of a street without a name. -/
theorem lookup_foldl_keepNearer_none
    (hidden : ∀ entry, streets.lookup key = some entry → entry.display = "")
    {refs : List StreetLabelRef} : ∀ {m : GoMap String (MapLabelCandidate K)},
    m.lookup key = none → (refs.foldl (keepNearer streets coords window) m).lookup key = none := by
  induction refs with
  | nil => exact fun none => none
  | cons ref refs ih =>
      intro m none
      refine ih ?_
      by_cases same : ref.1 = key
      · rw [keepNearer, same]
        cases visibleSample coords window ref.2 with
        | none => exact none
        | some coord =>
            dsimp only
            split
            · cases known : streets.lookup key with
              | none => exact none
              | some entry =>
                  dsimp only
                  rw [if_pos (hidden entry known)]
                  exact none
            · exact none
      · exact (lookup_keepNearer_ne same).trans none

end Lookups

/-! ## Both ways agree -/

/-- The candidate of a street that is looked through. -/
def scanCandidate (coords : GoMap Int64 (Coord K)) (window : CoordWindow K)
    (entry : StreetEntry) : Option (MapLabelCandidate K) :=
  if entry.display = "" then none
  else
    (cheapest (fun c => some (centerDist window c))
      (entry.nodeIDs.filterMap (visibleSample coords window))).map (candidateOf entry)

/-- The candidates of a scan with the keys of their streets. -/
def scanEntries (streets : Streets) (coords : GoMap Int64 (Coord K)) (window : CoordWindow K) :
    List ((_ : String) × MapLabelCandidate K) :=
  streets.entries.filterMap fun e => (scanCandidate coords window e.2).map (⟨e.1, ·⟩)

omit [FloorRing K] [IsStrictOrderedRing K] in
theorem scanCandidates_eq (streets : Streets) (coords : GoMap Int64 (Coord K))
    (window : CoordWindow K) : scanCandidates streets coords window =
      (scanEntries streets coords window).map Sigma.snd := by
  rw [scanEntries, List.map_filterMap, scanCandidates]
  refine List.filterMap_congr fun e _ => ?_
  rw [Option.map_map, scanCandidate]
  split
  · rfl
  · rw [Option.map_map]
    rfl

/-- No two visible samples of one street are equally far from the centre. -/
def SamplesApart (streets : Streets) (coords : GoMap Int64 (Coord K)) (window : CoordWindow K) :
    Prop :=
  ∀ e ∈ streets.entries, ∀ a ∈ e.2.nodeIDs.filterMap (visibleSample coords window),
    ∀ b ∈ e.2.nodeIDs.filterMap (visibleSample coords window),
      centerDist window a = centerDist window b → a = b

omit [FloorRing K] [IsStrictOrderedRing K] in
theorem mem_scanEntries {streets : Streets} {coords : GoMap Int64 (Coord K)}
    {window : CoordWindow K} {key : String} {candidate : MapLabelCandidate K} :
    ⟨key, candidate⟩ ∈ scanEntries streets coords window ↔
      candidate ∈ (streets.lookup key).bind (scanCandidate coords window) := by
  rw [scanEntries, List.mem_filterMap, Option.mem_def, Option.bind_eq_some_iff]
  constructor
  · rintro ⟨⟨key', entry⟩, known, found⟩
    obtain ⟨candidate', nearest, same⟩ := Option.map_eq_some_iff.mp found
    cases same
    exact ⟨entry, AList.mem_lookup_iff.mpr known, nearest⟩
  · rintro ⟨entry, known, nearest⟩
    exact ⟨⟨key, entry⟩, AList.mem_lookup_iff.mp known, Option.map_eq_some_iff.mpr
      ⟨candidate, nearest, rfl⟩⟩

omit [FloorRing K] [IsStrictOrderedRing K] in
theorem nodup_scanEntries (streets : Streets) (coords : GoMap Int64 (Coord K))
    (window : CoordWindow K) : (scanEntries streets coords window).Nodup := by
  refine streets.nodupKeys.pairwise_ne.filterMap _ fun e e' keys found here found' there same => ?_
  obtain ⟨candidate, -, rfl⟩ := Option.map_eq_some_iff.mp here
  obtain ⟨candidate', -, rfl⟩ := Option.map_eq_some_iff.mp there
  exact keys (Sigma.mk.inj same).1

/-- **The grid finds the nearest visible sample of each street.** -/
theorem lookup_gridCandidates {streets streets' : Streets} {coords : GoMap Int64 (Coord K)}
    {window : CoordWindow K} (same : streets'.entries.Perm streets.entries)
    (apart : SamplesApart streets coords window) (key : String) :
    (gridCandidates streets (buildStreetLabelCells streets' coords) coords window).lookup key =
      (streets.lookup key).bind (scanCandidate coords window) := by
  rw [gridCandidates]
  cases known : streets.lookup key with
  | none =>
      refine lookup_foldl_keepNearer_none (fun entry found => ?_) rfl
      rw [known] at found
      cases found
  | some entry =>
      have inside : ⟨key, entry⟩ ∈ streets.entries := AList.mem_lookup_iff.mp known
      rw [Option.bind_some, scanCandidate]
      by_cases hidden : entry.display = ""
      · rw [if_pos hidden]
        refine lookup_foldl_keepNearer_none (fun entry' found => ?_) rfl
        rw [known] at found
        exact Option.some.inj found ▸ hidden
      · have untouched : (∅ : GoMap String (MapLabelCandidate K)).lookup key =
            (none : Option (Coord K × K)).map (candidateOf entry) := rfl
        rw [if_neg hidden, lookup_foldl_keepNearer known hidden untouched]
        have nearest : cheapest (fun c => some (centerDist window c)) (streetSamples coords window
            key (windowRefs (buildStreetLabelCells streets' coords) window)) =
            cheapest (fun c => some (centerDist window c))
              (entry.nodeIDs.filterMap (visibleSample coords window)) := by
          have members : ∀ c, c ∈ streetSamples coords window key
              (windowRefs (buildStreetLabelCells streets' coords) window) ↔
              c ∈ entry.nodeIDs.filterMap (visibleSample coords window) := by
            intro c
            rw [mem_streetSamples, visible_windowRefs]
            constructor
            · rintro ⟨⟨key', entry'⟩, member, rfl, sample⟩
              have found := AList.mem_lookup_iff.mpr (same.mem_iff.mp member)
              rw [known] at found
              exact Option.some.inj found ▸ sample
            · intro sample
              exact ⟨⟨key, entry⟩, same.mem_iff.mpr inside, rfl, sample⟩
          refine cheapest_unique members fun a here b there c dist dist' => ?_
          exact apart ⟨key, entry⟩ inside a ((members a).mp here) b ((members b).mp there)
            (Option.some.inj (dist.trans dist'.symm))
        exact congrArg (Option.map (candidateOf entry)) nearest

/-- **The grid finds the candidates of a scan.** -/
theorem gridCandidates_perm {streets streets' : Streets} {coords : GoMap Int64 (Coord K)}
    {window : CoordWindow K} (same : streets'.entries.Perm streets.entries)
    (apart : SamplesApart streets coords window) :
    (gridCandidates streets (buildStreetLabelCells streets' coords) coords window).entries.Perm
      (scanEntries streets coords window) := by
  refine (List.perm_ext_iff_of_nodup (List.NodupKeys.nodup (AList.nodupKeys _))
    (nodup_scanEntries streets coords window)).mpr ?_
  rintro ⟨key, candidate⟩
  rw [← AList.mem_lookup_iff, lookup_gridCandidates same apart, mem_scanEntries]

omit [IsStrictOrderedRing K] in
/-- A scan does not depend on the order of the streets. -/
theorem streetLabelsScan_perm {streets streets' : Streets}
    (same : streets'.entries.Perm streets.entries) (coords : GoMap Int64 (Coord K))
    (window : CoordWindow K) (limit : ℕ) :
    streetLabelsScan streets' coords window limit =
      streetLabelsScan streets coords window limit :=
  distributeStreetLabelCandidates_perm (same.filterMap _) window limit

/-- **The labels from the grid are those of a scan.** -/
theorem streetLabels_eq_scan {streets streets' : Streets} {coords : GoMap Int64 (Coord K)}
    {window : CoordWindow K} (same : streets'.entries.Perm streets.entries)
    (valid : window.Valid) (apart : SamplesApart streets coords window) (limit : ℤ) :
    streetLabels streets (buildStreetLabelCells streets' coords) coords window limit =
      streetLabelsScan streets coords window (min limit 500).toNat := by
  have few : ∀ limit candidates, min limit candidates.length = 0 →
      distributeStreetLabelCandidates candidates window limit = [] := by
    intro limit candidates few
    have length := (distributeStreetLabelCandidates_inTurn candidates window limit).2.1
    exact List.eq_nil_of_length_eq_zero (length.trans few)
  rw [streetLabels]
  split
  · rename_i refused
    refine (few _ _ ?_).symm
    rcases refused with invalid | nothing | empty
    · exact absurd valid invalid
    · rw [Int.toNat_of_nonpos (min_le_of_left_le nothing), Nat.zero_min]
    · rw [scanCandidates, List.eq_nil_of_length_eq_zero empty]
      exact Nat.min_zero _
  · dsimp only
    split
    · rfl
    · refine distributeStreetLabelCandidates_perm ?_ window _
      rw [scanCandidates_eq]
      exact (gridCandidates_perm same apart).map _

/-- **Labels of the grid**: when no two visible samples of a street are equally far, they are
those of a scan, and labels are always taken of the cells of the viewport in turn. -/
theorem labels_grid_fair {streets streets' : Streets} {coords : GoMap Int64 (Coord K)}
    {window : CoordWindow K} (same : streets'.entries.Perm streets.entries)
    (valid : window.Valid) (apart : SamplesApart streets coords window) (limit : ℤ) :
    streetLabels streets (buildStreetLabelCells streets' coords) coords window limit =
      streetLabelsScan streets' coords window (min limit 500).toNat ∧
    ∀ (candidates : List (MapLabelCandidate K)) (window : CoordWindow K) (limit : ℕ),
      let cells := viewportCells candidates window limit
      let labels := distributeStreetLabelCandidates candidates window limit
      labels.length = min limit candidates.length ∧
      labels.Subperm (candidates.map MapLabelCandidate.label) ∧
      cells.flatten.Perm (candidates.map MapLabelCandidate.label) ∧
      (∀ i, ∀ label ∈ cells.getD i [],
        viewportCell window (labelSide limit) label.coord = i) ∧
      ∃ taken, InTurn cells taken ∧ labels.map some = taken.map (atPlace cells) := by
  constructor
  · exact (streetLabels_eq_scan same valid apart limit).trans
      (streetLabelsScan_perm same coords window _).symm
  · intro candidates window limit
    obtain ⟨inTurn, length, once⟩ :=
      distributeStreetLabelCandidates_inTurn candidates window limit
    exact ⟨length, once, flatten_viewportCells_perm candidates window limit,
      fun i label member => viewportCell_of_mem member, inTurn⟩

/-- Two samples of a street, one nearer to the centre than the other. -/
def sampleStreets : Streets := (∅ : Streets).insert "main street" ⟨"Main Street", [1, 2]⟩

def sampleCoords : GoMap Int64 (Coord ℚ) :=
  ((∅ : GoMap Int64 (Coord ℚ)).insert 1 ⟨1 / 2, 1 / 2⟩).insert 2 ⟨3 / 4, 1 / 2⟩

theorem labels_grid_fair_two :
    streetLabels sampleStreets (buildStreetLabelCells sampleStreets sampleCoords) sampleCoords
        ⟨0, 1, 0, 1⟩ 10 =
      streetLabelsScan sampleStreets sampleCoords (⟨0, 1, 0, 1⟩ : CoordWindow ℚ) 10 :=
  (labels_grid_fair (List.Perm.refl _) (by decide +kernel)
    (by unfold SamplesApart; decide +kernel) 10).1

end Grid

end OsmMini.Core

import OsmMini.Core.Types
import OsmMini.Core.Pbf.Packed
import OsmMini.Foundations.Binary64

/-!
# The segments of imported highways

The importer keeps the node references of a highway as differences in a byte string of
its own. Going over the highways reads the references back, looks up the coordinates of
both ends of every segment and visits the segments that have a length.
-/

set_option autoImplicit false

namespace OsmMini.Core

open OsmMini.Foundations
open OsmMini.Foundations.Varint (appendVarint varint varint_appendVarint varint_length_pos
  appendVarint_ne_nil)

/-- A highway as the importer keeps it. -/
structure HighwayWay (K : Type) where
  /-- OSM IDs as differences. -/
  refs : List UInt8
  hwyType : String
  speedKph : K
  maxHeightM : K
  maxWeightT : K
  /-- Both directions for 0, forward for 1 and reverse for -1. -/
  oneway : Int8
  deriving DecidableEq

/-- A call of the visitor. -/
structure HighwayVisit (K : Type) where
  src : Int64
  dst : Int64
  distM : F64
  highway : HighwayWay K
  deriving DecidableEq

def packHighwayRefsFrom (previous : Int64) : List Int64 → List UInt8
  | [] => []
  | id :: ids => appendVarint (id - previous) ++ packHighwayRefsFrom id ids

def packHighwayRefs (ids : List Int64) : List UInt8 := packHighwayRefsFrom 0 ids

section Visiting

variable {K C : Type} (haversineMeters : C → C → C → C → F64) (coords : GoMap Int64 (Coord C))

/-- The calls for the segment between two nodes. -/
def visitSegment (hw : HighwayWay K) (aID bID : Int64) : List (HighwayVisit K) :=
  match coords.lookup aID, coords.lookup bID with
  | some a, some b =>
    let d := haversineMeters a.lat a.lon b.lat b.lon
    if F64.lt ⟨0⟩ d && !d.isNaN && d.isFinite then
      if hw.oneway = 1 then [⟨aID, bID, d, hw⟩]
      else if hw.oneway = -1 then [⟨bID, aID, d, hw⟩]
      else [⟨aID, bID, d, hw⟩, ⟨bID, aID, d, hw⟩]
    else []
  | _, _ => []

/-- The calls for the references that follow a node, and whether all of them were read. -/
def visitSegments (hw : HighwayWay K) (aID : Int64) (refs : List UInt8) :
    List (HighwayVisit K) × Option String :=
  match refs with
  | [] => ([], none)
  | c :: refs =>
    match _taken : varint (c :: refs) with
    | none => ([], some "invalid imported highway references")
    | some (delta, n) =>
      let bID := aID + delta
      let later := visitSegments hw bID ((c :: refs).drop n)
      (visitSegment haversineMeters coords hw aID bID ++ later.1, later.2)
termination_by refs.length
decreasing_by
  have advanced := varint_length_pos _taken
  simp only [List.length_drop, List.length_cons]
  omega

/-- The calls for all highways up to the first malformed one. -/
def visitHighwayEdges : List (HighwayWay K) → List (HighwayVisit K) × Option String
  | [] => ([], none)
  | hw :: highways =>
    match varint hw.refs with
    | none => ([], some "invalid imported highway references")
    | some (aID, n) =>
      let (visits, err) := visitSegments haversineMeters coords hw aID (hw.refs.drop n)
      match err with
      | some e => (visits, some e)
      | none =>
        let (more, err) := visitHighwayEdges highways
        (visits ++ more, err)

/-! ## The segments that are visited -/

/-- The length of the segment between two nodes, when both are present and it is positive
and finite. -/
def segmentLength (aID bID : Int64) : Option F64 := do
  let a ← coords.lookup aID
  let b ← coords.lookup bID
  let d := haversineMeters a.lat a.lon b.lat b.lon
  if F64.lt ⟨0⟩ d && d.isFinite then some d else none

/-- The directions a `oneway` value selects. -/
def directions (oneway : Int8) (aID bID : Int64) : List (Int64 × Int64) :=
  if oneway = 1 then [(aID, bID)]
  else if oneway = -1 then [(bID, aID)]
  else [(aID, bID), (bID, aID)]

/-- The visits a highway should get: its consecutive pairs in order. -/
def segmentVisits (hw : HighwayWay K) (ids : List Int64) : List (HighwayVisit K) :=
  (ids.zip ids.tail).flatMap fun ends =>
    match segmentLength haversineMeters coords ends.1 ends.2 with
    | none => []
    | some d => (directions hw.oneway ends.1 ends.2).map fun way => ⟨way.1, way.2, d, hw⟩

theorem segmentLength_eq_some {aID bID : Int64} {d : F64} :
    segmentLength haversineMeters coords aID bID = some d ↔
      ∃ a b, coords.lookup aID = some a ∧ coords.lookup bID = some b ∧
        haversineMeters a.lat a.lon b.lat b.lon = d ∧ F64.lt ⟨0⟩ d = true ∧
          d.isFinite = true := by
  simp only [segmentLength, Option.bind_eq_bind, Option.bind_eq_some_iff,
    Option.ite_none_right_eq_some, Bool.and_eq_true, Option.some.injEq]
  constructor
  · rintro ⟨a, foundA, b, foundB, ⟨positive, finite⟩, rfl⟩
    exact ⟨a, b, foundA, foundB, rfl, positive, finite⟩
  · rintro ⟨a, b, foundA, foundB, rfl, positive, finite⟩
    exact ⟨a, foundA, b, foundB, ⟨positive, finite⟩, rfl⟩

theorem not_isNaN {d : F64} (finite : d.isFinite = true) : d.isNaN = false := by
  simp only [F64.isFinite, F64.isNaN, decide_eq_true_iff, decide_eq_false_iff_not] at finite ⊢
  exact fun nan => finite nan.1

theorem visitSegment_eq (hw : HighwayWay K) (aID bID : Int64) :
    visitSegment haversineMeters coords hw aID bID =
      match segmentLength haversineMeters coords aID bID with
      | none => []
      | some d => (directions hw.oneway aID bID).map fun way => ⟨way.1, way.2, d, hw⟩ := by
  unfold visitSegment segmentLength directions
  cases foundA : coords.lookup aID with
  | none => rfl
  | some a =>
      cases foundB : coords.lookup bID with
      | none => rfl
      | some b =>
          simp only [Option.bind_eq_bind, Option.bind_some]
          cases finite : (haversineMeters a.lat a.lon b.lat b.lon).isFinite with
          | false => simp
          | true =>
              rw [not_isNaN finite]
              split_ifs <;> simp_all

theorem visitSegments_packed (hw : HighwayWay K) (previous : Int64) (ids : List Int64) :
    visitSegments haversineMeters coords hw previous (packHighwayRefsFrom previous ids) =
      (((previous :: ids).zip ids).flatMap fun ends =>
        visitSegment haversineMeters coords hw ends.1 ends.2, none) := by
  induction ids generalizing previous with
  | nil =>
      rw [packHighwayRefsFrom, visitSegments]
      rfl
  | cons id ids ih =>
      have next : previous + (id - previous) = id := by
        rw [Int64.add_comm, Int64.sub_add_cancel]
      have read := varint_appendVarint (id - previous) (packHighwayRefsFrom id ids)
      rw [packHighwayRefsFrom]
      cases bytes : appendVarint (id - previous) ++ packHighwayRefsFrom id ids with
      | nil => exact absurd (List.append_eq_nil_iff.mp bytes).1 (appendVarint_ne_nil _)
      | cons c refs =>
          have rest : (c :: refs).drop (appendVarint (id - previous)).length =
              packHighwayRefsFrom id ids := by
            rw [← bytes, List.drop_left]
          rw [bytes] at read
          rw [visitSegments]
          split
          · next failed => exact absurd (failed.symm.trans read) (by simp)
          · next delta n found =>
              obtain ⟨rfl, rfl⟩ := Prod.mk.inj (Option.some.inj (found.symm.trans read))
              simp only [rest, next, ih]
              rfl

theorem packHighwayRefs_cons (id : Int64) (ids : List Int64) :
    packHighwayRefs (id :: ids) = appendVarint id ++ packHighwayRefsFrom id ids := by
  rw [packHighwayRefs, packHighwayRefsFrom, Int64.sub_zero]

/-- Highways with packed references are visited to the end. -/
theorem visitHighwayEdges_packed (highways : List (HighwayWay K × List Int64))
    (packed : ∀ h ∈ highways, h.2 ≠ [] ∧ h.1.refs = packHighwayRefs h.2) :
    visitHighwayEdges haversineMeters coords (highways.map Prod.fst) =
      (highways.flatMap fun h => segmentVisits haversineMeters coords h.1 h.2, none) := by
  induction highways with
  | nil => rfl
  | cons h highways ih =>
      obtain ⟨⟨nonempty, same⟩, others⟩ := List.forall_mem_cons.mp packed
      obtain ⟨hw, ids⟩ := h
      obtain ⟨id, ids, rfl⟩ := List.exists_cons_of_ne_nil nonempty
      dsimp only at same
      rw [packHighwayRefs_cons] at same
      have first := varint_appendVarint id (packHighwayRefsFrom id ids)
      rw [List.map_cons, visitHighwayEdges, same, first]
      dsimp only
      rw [List.drop_left, visitSegments_packed]
      dsimp only
      rw [ih others, List.flatMap_cons, segmentVisits, List.tail_cons]
      simp only [visitSegment_eq]

/-- **Way references survive decoding and import.** -/
theorem wayRefs_survive :
    (∀ (ids : List Int64) (fields : List (List Int64)), fields.flatten = Pbf.deltas 0 ids →
      Pbf.decodeWayRefs (fields.map Pbf.packedField) = .ok ids) ∧
    (∀ highways : List (HighwayWay K × List Int64),
      (∀ h ∈ highways, h.2 ≠ [] ∧ h.1.refs = packHighwayRefs h.2) →
        visitHighwayEdges haversineMeters coords (highways.map Prod.fst) =
          (highways.flatMap fun h => segmentVisits haversineMeters coords h.1 h.2, none)) :=
  ⟨fun _ _ split => Pbf.decodeWayRefs_fields split, visitHighwayEdges_packed haversineMeters coords⟩

end Visiting

/-- A reverse way from the greatest ID, with a node in the middle that is missing. -/
def reverseWay : HighwayWay Unit where
  refs := packHighwayRefs [Int64.maxValue, Int64.minValue, 6, 5]
  hwyType := "service"
  speedKph := ()
  maxHeightM := ()
  maxWeightT := ()
  oneway := -1

def threeNodes : GoMap Int64 (Coord Unit) :=
  GoMap.ofList [(Int64.maxValue, ⟨(), ()⟩), (Int64.minValue, ⟨(), ()⟩), (5, ⟨(), ()⟩)]

/-- One, as a distance. -/
def oneMeter : F64 := ⟨0x3FF0000000000000⟩

theorem wayRefs_survive_reverseWay :
    Pbf.decodeWayRefs ([[Int64.minValue], [], [-1, 2]].map Pbf.packedField) =
      .ok [Int64.minValue, Int64.maxValue, Int64.minValue + 1] ∧
    visitHighwayEdges (fun _ _ _ _ => oneMeter) threeNodes [reverseWay] =
      ([⟨Int64.minValue, Int64.maxValue, oneMeter, reverseWay⟩], none) :=
  ⟨(wayRefs_survive (K := Unit) (fun _ _ _ _ => oneMeter) threeNodes).1 _ _ (by decide),
    ((wayRefs_survive (fun _ _ _ _ => oneMeter) threeNodes).2
      [(reverseWay, [Int64.maxValue, Int64.minValue, 6, 5])] (by simp [reverseWay])).trans
      (by decide +kernel)⟩

end OsmMini.Core

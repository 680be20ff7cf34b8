import OsmMini.Core.Import.Graph

/-!
# Imports with a window

An import with a window reads the file once and keeps the coordinates inside the window. A
segment of a way is only turned into edges when both of its ends have coordinates, so that the
window cuts ways where they leave it.

What is built is the whole graph restricted to the window (`windowed_import`): the same edges
in the same order, as far as both ends lie in the window, and the nodes that these edges join.
-/

set_option autoImplicit false

namespace OsmMini.Core

open OsmMini.Foundations
open OsmMini.Core.Pbf (utf8)

/-- The IDs of the nodes of a file. -/
def nodeIDs (file : List Element) : List Int64 :=
  file.filterMap fun element =>
    match element with
    | .node id _ => some id
    | .way _ => none

section Coordinates

variable {keep : Int64 → Coord F64 → Bool}

/-- A node that a file does not have keeps its coordinate. -/
theorem lookup_placeNodes_absent {id : Int64} (file : List Element) (absent : id ∉ nodeIDs file) :
    ∀ m : GoMap Int64 (Coord F64), (placeNodes keep file m).lookup id = m.lookup id := by
  induction file with
  | nil => exact fun _ => rfl
  | cons element file ih =>
      intro m
      cases element with
      | way w => exact ih absent m
      | node other c =>
          obtain ⟨differ, later⟩ := not_or.mp (mt List.mem_cons.mpr absent)
          refine (ih later _).trans ?_
          dsimp only
          split
          · exact AList.lookup_insert_ne differ
          · rfl

/-- **Of distinct nodes a choice keeps the coordinates that are chosen.** -/
theorem lookup_placeNodes_filter {id : Int64} (file : List Element)
    (distinct : (nodeIDs file).Nodup) : ∀ m : GoMap Int64 (Coord F64), m.lookup id = none →
    (placeNodes keep file m).lookup id =
      ((placeNodes (fun _ _ => true) file m).lookup id).filter (keep id) := by
  induction file with
  | nil =>
      intro m fresh
      change m.lookup id = (m.lookup id).filter (keep id)
      rw [fresh]
      rfl
  | cons element file ih =>
      intro m fresh
      cases element with
      | way w => exact ih distinct m fresh
      | node other c =>
          obtain ⟨absent, later⟩ := List.nodup_cons.mp distinct
          change (placeNodes keep file (if keep other c then m.insert other c else m)).lookup id =
            ((placeNodes (fun _ _ => true) file (m.insert other c)).lookup id).filter (keep id)
          by_cases same : id = other
          · subst same
            rw [lookup_placeNodes_absent file absent, lookup_placeNodes_absent file absent,
              AList.lookup_insert, Option.filter_some]
            split
            · rw [AList.lookup_insert]
            · exact fresh
          · have left : ∀ m' : GoMap Int64 (Coord F64), m'.lookup id = none →
                (placeNodes keep file m').lookup id = (placeNodes keep file m).lookup id :=
              fun m' fresh' => lookup_placeNodes_congr (fun _ => rfl) file (fresh'.trans fresh.symm)
            have right : (placeNodes (fun _ _ => true) file (m.insert other c)).lookup id =
                (placeNodes (fun _ _ => true) file m).lookup id :=
              lookup_placeNodes_congr (fun _ => rfl) file (AList.lookup_insert_ne same)
            rw [right, ← ih later m fresh]
            refine left _ ?_
            split
            · rw [AList.lookup_insert_ne same, fresh]
            · exact fresh

end Coordinates

/-- Whether the coordinate of a node lies in a window. -/
def inside (win : CoordWindow F64) (coords : GoMap Int64 (Coord F64)) (id : Int64) : Bool :=
  (coords.lookup id).any win.contains

variable {s : ImportSettings} {bo : BuildOptions} {file : List Element} {win : CoordWindow F64}

theorem lookup_fileCoords_window (distinct : (nodeIDs file).Nodup) (id : Int64) :
    (fileCoords (some win) file).lookup id = ((fileCoords none file).lookup id).filter
      win.contains :=
  lookup_placeNodes_filter file distinct ∅ (AList.lookup_empty id)

/-- In a window a segment has the length of the whole file, if both ends lie in it. -/
theorem segmentLength_window (distinct : (nodeIDs file).Nodup) (aID bID : Int64) :
    segmentLength s.haversineMeters (fileCoords (some win) file) aID bID =
      if inside win (fileCoords none file) aID && inside win (fileCoords none file) bID then
        segmentLength s.haversineMeters (fileCoords none file) aID bID
      else none := by
  rw [segmentLength, segmentLength, lookup_fileCoords_window distinct,
    lookup_fileCoords_window distinct, inside, inside]
  cases (fileCoords none file).lookup aID with
  | none => rfl
  | some a =>
      cases (fileCoords none file).lookup bID with
      | none =>
          rw [Option.any_none, Bool.and_false]
          cases win.contains a <;> simp [Option.filter]
      | some b =>
          cases here : win.contains a <;> cases there : win.contains b <;>
            simp [Option.filter, here, there]

theorem segmentVisits_window (distinct : (nodeIDs file).Nodup) (hw : HighwayWay F64)
    (ids : List Int64) :
    segmentVisits s.haversineMeters (fileCoords (some win) file) hw ids =
      (segmentVisits s.haversineMeters (fileCoords none file) hw ids).filter fun v =>
        inside win (fileCoords none file) v.src && inside win (fileCoords none file) v.dst := by
  rw [segmentVisits, segmentVisits, List.filter_flatMap]
  refine List.flatMap_congr fun ends _ => ?_
  rw [segmentLength_window distinct]
  cases segmentLength s.haversineMeters (fileCoords none file) ends.1 ends.2 with
  | none => rw [ite_self]; rfl
  | some d =>
      -- All edges of the segment lead from one of its ends to the other one.
      have ways : ∀ way ∈ directions hw.oneway ends.1 ends.2,
          (inside win (fileCoords none file) way.1 && inside win (fileCoords none file) way.2) =
            (inside win (fileCoords none file) ends.1 &&
              inside win (fileCoords none file) ends.2) := by
        intro way chosen
        rw [directions] at chosen
        split_ifs at chosen <;> simp at chosen
        · rw [chosen]
        · rw [chosen, Bool.and_comm]
        · rcases chosen with rfl | rfl
          · rfl
          · exact Bool.and_comm _ _
      rw [List.filter_map]
      cases both : inside win (fileCoords none file) ends.1 &&
          inside win (fileCoords none file) ends.2 with
      | false =>
          have nothing : (directions hw.oneway ends.1 ends.2).filter
              ((fun v : HighwayVisit F64 => inside win (fileCoords none file) v.src &&
                inside win (fileCoords none file) v.dst) ∘ fun way => ⟨way.1, way.2, d, hw⟩) =
                [] := by
            refine List.filter_eq_nil_iff.mpr fun way chosen => ?_
            rw [Function.comp_apply, ways way chosen, both]
            exact Bool.false_ne_true
          rw [if_neg Bool.false_ne_true, nothing]
          rfl
      | true =>
          rw [if_pos rfl, List.filter_eq_self.mpr]
          intro way chosen
          rw [Function.comp_apply, ways way chosen, both]

/-- A segment of the whole file is one of the window when both of its ends lie in it. -/
theorem fileSegments_window (distinct : (nodeIDs file).Nodup) :
    fileSegments s (some win) file = (fileSegments s none file).filter fun v =>
      inside win (fileCoords none file) v.src && inside win (fileCoords none file) v.dst := by
  rw [fileSegments, fileSegments, List.filter_flatMap]
  exact List.flatMap_congr fun h _ => segmentVisits_window distinct h.1 h.2

/-- The edges of a node that lead into a window, if the node lies in it. -/
theorem outgoing_window (distinct : (nodeIDs file).Nodup) (node : Int64) :
    outgoing (fileSegments s (some win) file) node =
      (outgoing (fileSegments s none file) node).filter fun e =>
        inside win (fileCoords none file) node && inside win (fileCoords none file) e.toID := by
  rw [outgoing, outgoing, fileSegments_window distinct, List.filter_map, List.filter_filter,
    List.filter_filter]
  refine congrArg _ (List.filter_congr fun v _ => ?_)
  by_cases here : v.src = node
  · rw [here, Bool.and_comm]
    rfl
  · simp [here]

/-- **An import with a window is the whole import restricted to the window.** For a file whose
nodes are distinct and without a limit both imports succeed; every node has the edges of the
whole graph, in their order, that join it to a node of the window if it lies there itself; and
the nodes are the ends of these edges, with their coordinates. -/
theorem windowed_import (s : ImportSettings) (bo : BuildOptions) (file : List Element)
    (noLimit : bo.maxNodes ≤ 0) (distinct : (nodeIDs file).Nodup) {win : CoordWindow F64}
    (window : filterWin s bo = some win) :
    ∃ part whole, buildRouterWithAddressesOptions s bo file = .ok part ∧
      buildRouterWithAddressesOptions s { bo with window := none } file = .ok whole ∧
      (∀ node, part.adjacency.edges node = (whole.adjacency.edges node).filter fun e =>
        inside win whole.coords node && inside win whole.coords e.toID) ∧
      ∀ node c, part.coords.lookup node = some c ↔ whole.coords.lookup node = some c ∧
        ∃ start, ∃ e ∈ whole.adjacency.edges start, (start = node ∨ e.toID = node) ∧
          inside win whole.coords start = true ∧ inside win whole.coords e.toID = true := by
  have noWindow : filterWin s { bo with window := none } = none := rfl
  cases builtPart : buildRouterWithAddressesOptions s bo file with
  | error e => exact absurd (build_error builtPart) noLimit.not_gt
  | ok part =>
  cases builtWhole : buildRouterWithAddressesOptions s { bo with window := none } file with
  | error e => exact absurd (build_error builtWhole) noLimit.not_gt
  | ok whole =>
  obtain ⟨madePart, coordsPart⟩ := build_spec builtPart
  obtain ⟨madeWhole, coordsWhole⟩ := build_spec builtWhole
  rw [window] at madePart coordsPart
  rw [noWindow] at madeWhole coordsWhole
  have same : ∀ id, IsEndpoint (fileSegments s none file) id →
      inside win whole.coords id = inside win (fileCoords none file) id := by
    intro id endpoint
    rw [inside, inside, coordsWhole, if_pos endpoint]
  have edges : ∀ node, part.adjacency.edges node =
      (whole.adjacency.edges node).filter fun e =>
        inside win whole.coords node && inside win whole.coords e.toID := by
    intro node
    rw [madePart, edges_adjacency, outgoing_window distinct,
      firsts_filter fun a b equal => by rw [show a = b from equal], madeWhole, edges_adjacency]
    refine List.filter_congr fun e member => ?_
    rw [← edges_adjacency s.allotOrder s.dedupOrder] at member
    rw [same node (isEndpoint_iff.mpr ⟨node, e, member, Or.inl rfl⟩),
      same e.toID (isEndpoint_iff.mpr ⟨node, e, member, Or.inr rfl⟩)]
  refine ⟨part, whole, rfl, rfl, edges, fun node c => ?_⟩
  have endpoint : IsEndpoint (fileSegments s (some win) file) node ↔
      ∃ start, ∃ e ∈ whole.adjacency.edges start, (start = node ∨ e.toID = node) ∧
        inside win whole.coords start = true ∧ inside win whole.coords e.toID = true := by
    rw [isEndpoint_iff, ← madePart]
    refine exists_congr fun start => ?_
    simp only [edges, List.mem_filter, Bool.and_eq_true, and_assoc]
    refine exists_congr fun e => and_congr_right fun _ => ?_
    rw [← and_assoc, and_comm]
  rw [coordsPart, ← endpoint]
  by_cases joined : IsEndpoint (fileSegments s (some win) file) node
  · rw [if_pos joined, and_iff_left joined, lookup_fileCoords_window distinct]
    obtain ⟨start, e, member, ends, first, second⟩ := endpoint.mp joined
    have wholeEnd : IsEndpoint (fileSegments s none file) node := by
      rw [madeWhole] at member
      exact isEndpoint_iff.mpr ⟨start, e, member, ends⟩
    have here : inside win whole.coords node = true := by
      rcases ends with rfl | rfl
      · exact first
      · exact second
    rw [inside, coordsWhole, if_pos wholeEnd] at here
    rw [coordsWhole, if_pos wholeEnd]
    cases found : (fileCoords none file).lookup node with
    | none => rfl
    | some c' =>
        rw [found, Option.any_some] at here
        rw [Option.filter_some, if_pos here]
  · rw [if_neg joined]
    exact iff_of_false (fun impossible => by cases impossible) fun both => joined both.2

/-! ## A road that leaves a window -/

/-- Every segment is one metre long, and texts are lowered as they are. -/
def plainSettings : ImportSettings where
  lowered v := v.map fun c => Char.ofNat c.toNat
  allowedHighwayTypes := ∅
  defaultHighwaySpeeds := ∅
  haversineMeters _ _ _ _ := oneMeter
  expandMeters w _ := w
  allotOrder := ⟨id, List.Perm.refl⟩
  dedupOrder := ⟨List.reverse, List.reverse_perm⟩

/-- The square of one degree at the origin. -/
def oneDegree : CoordWindow F64 := ⟨⟨0⟩, oneMeter, ⟨0⟩, oneMeter⟩

/-- Two nodes in the square, one to the south of it, and a road along all of them. -/
def southRoad : List Element :=
  [.node 1 ⟨⟨0⟩, ⟨0⟩⟩, .node 2 ⟨oneMeter, ⟨0⟩⟩, .node 3 ⟨F64.ofRat (-1), ⟨0⟩⟩,
    .way ⟨7, [3, 1, 2], GoMap.ofList [(utf8 "highway", utf8 "service")]⟩]

theorem windowed_import_southRoad :
    ∃ part whole, buildRouterWithAddressesOptions plainSettings ⟨0, some oneDegree, ⟨0⟩⟩
        southRoad = .ok part ∧
      buildRouterWithAddressesOptions plainSettings ⟨0, none, ⟨0⟩⟩ southRoad = .ok whole ∧
      part.adjacency.edges 1 = (whole.adjacency.edges 1).filter fun e =>
        inside oneDegree whole.coords 1 && inside oneDegree whole.coords e.toID := by
  have window : filterWin plainSettings ⟨0, some oneDegree, ⟨0⟩⟩ = some oneDegree := by
    decide +kernel
  obtain ⟨part, whole, builtPart, builtWhole, edges, -⟩ :=
    windowed_import plainSettings ⟨0, some oneDegree, ⟨0⟩⟩ southRoad le_rfl (by decide) window
  exact ⟨part, whole, builtPart, builtWhole, edges 1⟩

end OsmMini.Core

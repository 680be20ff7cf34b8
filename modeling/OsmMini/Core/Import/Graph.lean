import OsmMini.Core.Import.Adjacency
import OsmMini.Core.Pbf.Entities
import OsmMini.Core.Pbf.SpatialIndex
import OsmMini.Foundations.Text

/-!
# The import of a road graph

The importer reads the elements of a file, keeps the ways that a vehicle may use together with
the coordinates that they need, and turns the segments of the ways into edges. Without a window
it reads the file twice, first the ways and then the coordinates of the nodes they refer to;
with a window it reads it once and keeps the coordinates inside the window.

Whatever the file contains, the graph is well formed (`imported_wellFormed`): the edges out of
a node are the first occurrences of what its ways generate, both ends of every edge have
coordinates, nothing else has, and adding an edge at one node leaves those of all others. Only
a limit for the number of nodes makes an import fail.

Addresses, street names and the grid of nodes are left out.
-/

set_option autoImplicit false

namespace OsmMini.Core

open OsmMini.Foundations OsmMini.Foundations.Slices
open OsmMini.Core.Pbf (utf8)

/-! ## The roads of a file -/

/-- What an import depends on besides the file and its options: how texts are trimmed and
lowered, the settings for highways, the distance of two points, how a window grows, and the
orders in which maps are read. -/
structure ImportSettings where
  lowered : List UInt8 → List Char
  allowedHighwayTypes : GoMap (List Char) Bool
  defaultHighwaySpeeds : GoMap (List Char) F64
  haversineMeters : F64 → F64 → F64 → F64 → F64
  expandMeters : CoordWindow F64 → F64 → CoordWindow F64
  allotOrder : IdOrder
  dedupOrder : IdOrder

/-- The value of a tag, empty when there is none. -/
def tagValue (tags : Pbf.Tags) (key : String) : List UInt8 := (tags.lookup (utf8 key)).getD []

section Tags

variable (s : ImportSettings)

def linkSuffix : List Char := ['_', 'l', 'i', 'n', 'k']

def isDriveableHighway (hwy : List UInt8) : Bool :=
  let h := s.lowered hwy
  if 0 < s.allowedHighwayTypes.keys.length then
    (s.allowedHighwayTypes.lookup h).getD false ||
      linkSuffix.isSuffixOf h &&
        (s.allowedHighwayTypes.lookup (h.take (h.length - linkSuffix.length))).getD false
  else
    linkSuffix.isSuffixOf h ||
      String.ofList h ∈ ["motorway", "trunk", "primary", "secondary", "tertiary", "unclassified",
        "residential", "living_street", "service", "road", "track"]

def isAccessDenied (tags : Pbf.Tags) : Bool :=
  let deny v := String.ofList (s.lowered v) ∈ ["no", "private"]
  deny (tagValue tags "access") || deny (tagValue tags "vehicle") ||
    deny (tagValue tags "motor_vehicle") || deny (tagValue tags "hgv")

def defaultSpeedForHighway (hwy : List UInt8) : F64 :=
  (s.defaultHighwaySpeeds.lookup (s.lowered hwy)).getD (F64.ofRat 50)

def parseOneway (v : List UInt8) : Int8 :=
  let v := String.ofList (s.lowered v)
  if v ∈ ["yes", "true", "1"] then 1 else if v ∈ ["-1", "reverse"] then -1 else 0

/-- A digit, a point or a comma. -/
def isNumeral (c : UInt8) : Bool := 48 ≤ c && c ≤ 57 || c = 46 || c = 44

/-- The first number in a text. A comma counts as a point. -/
def firstFloat (v : List UInt8) : Option F64 :=
  match (v.dropWhile fun c => !isNumeral c).takeWhile isNumeral with
  | [] => none
  | digits => Text.parseFloat (digits.map fun c => if c = 44 then '.' else Char.ofNat c.toNat)

def parseMaxSpeedKph (v : List UInt8) : F64 :=
  let low := String.ofList (s.lowered v)
  if low = "" then ⟨0⟩
  else if low = "de:urban" then F64.ofRat 50
  else if low = "de:rural" then F64.ofRat 100
  else if low = "de:motorway" then F64.ofRat 130
  else
    match firstFloat v with
    | none => ⟨0⟩
    | some speed =>
      if ['m', 'p', 'h'] <:+: s.lowered v then
        F64.ofRat (speed.toRat * (F64.ofRat (160934 / 100000)).toRat)
      else speed

def parseMeters (v : List UInt8) : F64 := (firstFloat v).getD ⟨0⟩

def parseTons (v : List UInt8) : F64 := (firstFloat v).getD ⟨0⟩

/-- Whether a text is a word of small letters when the case of ASCII letters is not regarded. -/
def equalFoldAscii (v : List UInt8) (word : String) : Bool :=
  v.map (fun c => if 65 ≤ c ∧ c ≤ 90 then c + 32 else c) = utf8 word

/-- The direction of a way. A roundabout is one-way unless it says that it is not. -/
def wayDirection (tags : Pbf.Tags) : Int8 :=
  let oneway := parseOneway s (tagValue tags "oneway")
  if oneway = 0 ∧ equalFoldAscii (tagValue tags "junction") "roundabout" = true ∧
      String.ofList (s.lowered (tagValue tags "oneway")) ∉ ["no", "false", "0"] then 1
  else oneway

def waySpeed (tags : Pbf.Tags) : F64 :=
  let speed := parseMaxSpeedKph s (tagValue tags "maxspeed")
  let speed := if speed.le ⟨0⟩ then defaultSpeedForHighway s (tagValue tags "highway") else speed
  if speed.le ⟨0⟩ then F64.ofRat 50 else speed

/-- The highway that is kept of a way, unless no vehicle may use the way. -/
def highwayOf (w : Pbf.Way) : Option (HighwayWay F64) :=
  let hwy := tagValue w.tags "highway"
  if !isDriveableHighway s hwy then none
  else if isAccessDenied s w.tags then none
  else if w.nodeIDs.length < 2 then none
  else some {
    refs := packHighwayRefs w.nodeIDs
    hwyType := String.ofList (s.lowered hwy)
    speedKph := waySpeed s w.tags
    maxHeightM := parseMeters (tagValue w.tags "maxheight")
    maxWeightT := parseTons (tagValue w.tags "maxweight")
    oneway := wayDirection s w.tags }

end Tags

/-! ## Reading a file -/

/-- An element of a file that the importer looks at. -/
inductive Element where
  | node (id : Int64) (c : Coord F64)
  | way (w : Pbf.Way)

structure BuildOptions where
  maxNodes : ℤ
  window : Option (CoordWindow F64)
  windowBufferM : F64

/-- The window of an import with its margin. A malformed window counts as none. -/
def filterWin (s : ImportSettings) (bo : BuildOptions) : Option (CoordWindow F64) :=
  (bo.window.filter CoordWindow.valid).map fun w =>
    if F64.lt ⟨0⟩ bo.windowBufferM then s.expandMeters w bo.windowBufferM else w

/-- What is collected from a file. -/
structure ImportPass where
  referenced : GoMap Int64 ℕ
  coordsAll : GoMap Int64 (Coord F64)
  highways : List (HighwayWay F64)

def takeNode (bo : BuildOptions) (win : Option (CoordWindow F64)) (p : ImportPass) (id : Int64)
    (c : Coord F64) : Except String ImportPass :=
  if win.isNone ∧ (p.referenced.lookup id).isNone then .ok p
  else if win.any fun w => !w.contains c then .ok p
  else if (p.coordsAll.lookup id).isNone ∧ 0 < bo.maxNodes ∧
      bo.maxNodes ≤ p.coordsAll.keys.length then
    .error s!"graph import exceeds {bo.maxNodes} nodes; choose a smaller region or increase MaxNodes"
  else .ok { p with coordsAll := p.coordsAll.insert id c }

/-- Note the nodes of a way. -/
def refer (bo : BuildOptions) (referenced : GoMap Int64 ℕ) :
    List Int64 → Except String (GoMap Int64 ℕ)
  | [] => .ok referenced
  | id :: ids =>
    if (referenced.lookup id).isSome then refer bo referenced ids
    else if 0 < bo.maxNodes ∧ bo.maxNodes ≤ referenced.keys.length then
      .error (s!"graph import exceeds {bo.maxNodes} road nodes; " ++
        "choose a smaller region or increase MaxNodes")
    else refer bo (referenced.insert id 0) ids

def takeWay (s : ImportSettings) (bo : BuildOptions) (win : Option (CoordWindow F64))
    (p : ImportPass) (w : Pbf.Way) : Except String ImportPass :=
  match highwayOf s w with
  | none => .ok p
  | some highway =>
    match if win.isNone then refer bo p.referenced w.nodeIDs else .ok p.referenced with
    | .error e => .error e
    | .ok referenced =>
      .ok { p with referenced := referenced, highways := p.highways ++ [highway] }

/-- Take an element if those of its kind are read. -/
def takeElement (s : ImportSettings) (bo : BuildOptions) (win : Option (CoordWindow F64))
    (nodes ways : Bool) (p : ImportPass) : Element → Except String ImportPass
  | .node id c => if nodes then takeNode bo win p id c else .ok p
  | .way w => if ways then takeWay s bo win p w else .ok p

/-- Read a file, the nodes, the ways or both. -/
def extractFile (s : ImportSettings) (bo : BuildOptions) (win : Option (CoordWindow F64))
    (nodes ways : Bool) (file : List Element) (p : ImportPass) : Except String ImportPass :=
  file.foldlM (takeElement s bo win nodes ways) p

/-- Read the roads and their coordinates. Without a window the roads come first. -/
def collect (s : ImportSettings) (bo : BuildOptions) (file : List Element) :
    Except String ImportPass :=
  let win := filterWin s bo
  if win.isSome then extractFile s bo win true true file ⟨∅, ∅, []⟩
  else
    match extractFile s bo win false true file ⟨∅, ∅, []⟩ with
    | .error e => .error e
    | .ok p => extractFile s bo win true false file p

/-- Keep the coordinates of the nodes that edges leave or enter. With a window they are copied,
otherwise the others are deleted. -/
def pruneCoords (copied : Bool) (referenced : GoMap Int64 ℕ) (coordsAll : GoMap Int64 (Coord F64)) :
    GoMap Int64 (Coord F64) :=
  if copied then
    referenced.keys.foldl
      (fun m id => m.insert id ((coordsAll.lookup id).getD ⟨⟨0⟩, ⟨0⟩⟩)) ∅
  else
    coordsAll.keys.foldl
      (fun m id => if (referenced.lookup id).isNone then m.erase id else m) coordsAll

structure ImportedGraph where
  adjacency : Adjacency
  coords : GoMap Int64 (Coord F64)

/-- Build the graph of a file. -/
def buildRouterWithAddressesOptions (s : ImportSettings) (bo : BuildOptions)
    (file : List Element) : Except String ImportedGraph :=
  match collect s bo file with
  | .error e => .error e
  | .ok p =>
    match visitHighwayEdges s.haversineMeters p.coordsAll p.highways with
    | (_, some e) => .error e
    | (visits, none) =>
      .ok {
        adjacency := adjacency s.allotOrder s.dedupOrder visits
        coords := pruneCoords (filterWin s bo).isSome (countDegrees visits) p.coordsAll }

/-! ## What a file asks for -/

section File

variable (s : ImportSettings)

/-- The highways of a file with the nodes they refer to. -/
def roads (file : List Element) : List (HighwayWay F64 × List Int64) :=
  file.filterMap fun element =>
    match element with
    | .node _ _ => none
    | .way w => (highwayOf s w).map fun highway => (highway, w.nodeIDs)

/-- The coordinates of the chosen nodes of a file. The last one of a node counts. -/
def placeNodes (keep : Int64 → Coord F64 → Bool) (file : List Element)
    (m : GoMap Int64 (Coord F64)) : GoMap Int64 (Coord F64) :=
  file.foldl (fun m element =>
    match element with
    | .node id c => if keep id c then m.insert id c else m
    | .way _ => m) m

/-- The coordinates of a file that lie in a window, if there is one. -/
def fileCoords (win : Option (CoordWindow F64)) (file : List Element) : GoMap Int64 (Coord F64) :=
  placeNodes (fun _ c => win.all fun w => w.contains c) file ∅

/-- The directed segments of all highways of a file between coordinates that are kept. -/
def fileSegments (win : Option (CoordWindow F64)) (file : List Element) :
    List (HighwayVisit F64) :=
  (roads s file).flatMap fun h =>
    segmentVisits s.haversineMeters (fileCoords win file) h.1 h.2

end File

/-! ## The roads that are collected -/

section Collect

variable {s : ImportSettings} {bo : BuildOptions} {win : Option (CoordWindow F64)}

theorem roads_packed (file : List Element) :
    ∀ h ∈ roads s file, h.2 ≠ [] ∧ h.1.refs = packHighwayRefs h.2 := by
  intro h member
  obtain ⟨element, -, made⟩ := List.mem_filterMap.mp member
  cases element with
  | node id c => cases made
  | way w =>
      obtain ⟨highway, found, rfl⟩ := Option.map_eq_some_iff.mp made
      rw [highwayOf] at found
      split at found
      · cases found
      split at found
      · cases found
      split at found
      · cases found
      next long =>
        rw [Option.some.injEq] at found
        refine ⟨fun empty => long ?_, by rw [← found]⟩
        have none_ : w.nodeIDs = [] := empty
        rw [none_]
        exact Nat.two_pos

/-- Noting nodes keeps those noted before. -/
theorem refer_spec (ids : List Int64) : ∀ {referenced referenced' : GoMap Int64 ℕ},
    refer bo referenced ids = .ok referenced' →
    ∀ id, (referenced'.lookup id).isSome ↔ (referenced.lookup id).isSome ∨ id ∈ ids := by
  induction ids with
  | nil =>
      intro referenced referenced' done id
      cases done
      exact (or_iff_left List.not_mem_nil).symm
  | cons first ids ih =>
      intro referenced referenced' done id
      rw [refer] at done
      split at done
      next known =>
        rw [ih done id, List.mem_cons]
        constructor
        · rintro (old | later)
          · exact Or.inl old
          · exact Or.inr (Or.inr later)
        · rintro (old | rfl | later)
          · exact Or.inl old
          · exact Or.inl known
          · exact Or.inr later
      next =>
        split at done
        · cases done
        next =>
          rw [ih done id, List.mem_cons]
          by_cases same : id = first
          · subst same
            rw [AList.lookup_insert]
            exact iff_of_true (Or.inl rfl) (Or.inr (Or.inl rfl))
          · rw [AList.lookup_insert_ne same, or_iff_right same]

/-- The nodes whose coordinates are kept. -/
def keepsNode (win : Option (CoordWindow F64)) (referenced : GoMap Int64 ℕ) (id : Int64)
    (c : Coord F64) : Bool :=
  (win.isSome || (referenced.lookup id).isSome) && win.all fun w => w.contains c

theorem takeNode_spec {p p' : ImportPass} {id : Int64} {c : Coord F64}
    (done : takeNode bo win p id c = .ok p') :
    p' = { p with coordsAll := if keepsNode win p.referenced id c then p.coordsAll.insert id c
      else p.coordsAll } := by
  rw [takeNode] at done
  have outside : (win.all fun w => w.contains c) = !(win.any fun w => !w.contains c) := by
    cases win with
    | none => rfl
    | some w => simp
  rw [keepsNode, outside]
  split at done
  next unneeded =>
    obtain ⟨noWindow, unknown⟩ := unneeded
    rw [Option.isNone_iff_eq_none] at noWindow unknown
    cases done
    rw [noWindow, unknown]
    rfl
  next needed =>
    have wanted : (win.isSome || (p.referenced.lookup id).isSome) = true := by
      rw [Bool.or_eq_true, Option.isSome_iff_ne_none, Option.isSome_iff_ne_none]
      rw [Option.isNone_iff_eq_none, Option.isNone_iff_eq_none] at needed
      exact not_and_or.mp needed
    split at done
    next out =>
      cases done
      rw [out, Bool.not_true, Bool.and_false]
      rfl
    next inside =>
      split at done
      · cases done
      · cases done
        rw [wanted, Bool.eq_false_of_not_eq_true inside]
        rfl

theorem takeWay_spec {p p' : ImportPass} {w : Pbf.Way} (done : takeWay s bo win p w = .ok p') :
    p'.coordsAll = p.coordsAll ∧
      p'.highways = p.highways ++ (roads s [.way w]).map Prod.fst ∧
      (win.isSome = true → p'.referenced = p.referenced) ∧
      (win.isNone = true → ∀ id, (p'.referenced.lookup id).isSome ↔
        (p.referenced.lookup id).isSome ∨ ∃ h ∈ roads s [.way w], id ∈ h.2) := by
  rw [takeWay] at done
  cases kept : highwayOf s w with
  | none =>
      have nothing : roads s [.way w] = [] := by simp [roads, kept]
      rw [kept] at done
      cases done
      simp [nothing]
  | some highway =>
      have one : roads s [.way w] = [(highway, w.nodeIDs)] := by simp [roads, kept]
      simp only [kept] at done
      cases noted : (if win.isNone then refer bo p.referenced w.nodeIDs else .ok p.referenced) with
      | error e =>
          rw [noted] at done
          cases done
      | ok referenced =>
          rw [noted] at done
          cases done
          refine ⟨rfl, by rw [one]; rfl, fun window => ?_, fun noWindow id => ?_⟩
          · rw [if_neg (by cases win <;> simp_all)] at noted
            exact (Except.ok.inj noted).symm
          · rw [if_pos noWindow] at noted
            rw [refer_spec _ noted id, one]
            simp

theorem extractFile_cons {nodes ways : Bool} {element : Element} {file : List Element}
    {p p' : ImportPass} (done : extractFile s bo win nodes ways (element :: file) p = .ok p') :
    ∃ q, takeElement s bo win nodes ways p element = .ok q ∧
      extractFile s bo win nodes ways file q = .ok p' := by
  rw [extractFile, List.foldlM_cons] at done
  cases first : takeElement s bo win nodes ways p element with
  | error e =>
      rw [first] at done
      cases done
  | ok q =>
      rw [first] at done
      exact ⟨q, rfl, done⟩

/-- **What is collected from a file**, if coordinates are only read with a window or after the
ways. -/
theorem extractFile_spec {nodes ways : Bool}
    (mode : nodes = true → win.isSome = true ∨ ways = false) (file : List Element) :
    ∀ {p p' : ImportPass}, extractFile s bo win nodes ways file p = .ok p' →
      p'.highways = p.highways ++ (if ways then (roads s file).map Prod.fst else []) ∧
      (p'.coordsAll = if nodes then placeNodes (keepsNode win p.referenced) file p.coordsAll
        else p.coordsAll) ∧
      (ways = true → win.isNone = true → ∀ id, (p'.referenced.lookup id).isSome ↔
        (p.referenced.lookup id).isSome ∨ ∃ h ∈ roads s file, id ∈ h.2) := by
  induction file with
  | nil =>
      intro p p' done
      cases done
      refine ⟨?_, ?_, fun _ _ id => ?_⟩
      · cases ways <;> simp [roads]
      · cases nodes <;> rfl
      · simp [roads]
  | cons element file ih =>
      intro p p' done
      obtain ⟨q, first, rest⟩ := extractFile_cons done
      obtain ⟨highways, coords, noted⟩ := ih rest
      have listed : roads s (element :: file) = roads s [element] ++ roads s file := by
        rw [← List.singleton_append, roads, List.filterMap_append]
        rfl
      cases element with
      | node id c =>
          have none_ : roads s [.node id c] = [] := rfl
          rw [none_, List.nil_append] at listed
          cases nodes with
          | false =>
              cases first
              rw [listed]
              exact ⟨highways, coords, noted⟩
          | true =>
              have taken := takeNode_spec first
              subst taken
              rw [listed]
              exact ⟨highways, coords, noted⟩
      | way w =>
          cases ways with
          | false =>
              cases first
              exact ⟨highways, coords, fun wanted => absurd wanted Bool.false_ne_true⟩
          | true =>
              obtain ⟨sameCoords, added, same, more⟩ := takeWay_spec first
              refine ⟨?_, ?_, fun _ noWindow id => ?_⟩
              · rw [highways, added, listed, List.append_assoc, if_pos rfl, if_pos rfl,
                  List.map_append]
              · rw [coords, sameCoords]
                cases nodes with
                | false => rfl
                | true =>
                    rw [same ((mode rfl).resolve_right Bool.noConfusion)]
                    rfl
              · rw [noted rfl noWindow, more noWindow, listed, or_assoc]
                refine or_congr_right ?_
                simp only [List.mem_append, or_and_right, exists_or]

/-- Only the choice for a node decides about its coordinate. -/
theorem lookup_placeNodes_congr {keep keep' : Int64 → Coord F64 → Bool} {id : Int64}
    (same : ∀ c, keep id c = keep' id c) (file : List Element) :
    ∀ {m m' : GoMap Int64 (Coord F64)}, m.lookup id = m'.lookup id →
      (placeNodes keep file m).lookup id = (placeNodes keep' file m').lookup id := by
  induction file with
  | nil => exact fun start => start
  | cons element file ih =>
      intro m m' start
      cases element with
      | way w => exact ih start
      | node other c =>
          refine ih ?_
          dsimp only
          by_cases here : id = other
          · subst here
            rw [same c]
            split
            · rw [AList.lookup_insert, AList.lookup_insert]
            · exact start
          · have left : ∀ (b : Bool) (m : GoMap Int64 (Coord F64)),
                (if b then m.insert other c else m).lookup id = m.lookup id := by
              intro b m
              cases b with
              | false => rfl
              | true => exact AList.lookup_insert_ne here
            rw [left, left, start]

/-- **The collected roads are those of the file, with the coordinates of the file.** -/
theorem collect_spec {file : List Element} {p : ImportPass} (done : collect s bo file = .ok p) :
    p.highways = (roads s file).map Prod.fst ∧ ∀ h ∈ roads s file, ∀ id ∈ h.2,
      p.coordsAll.lookup id = (fileCoords (filterWin s bo) file).lookup id := by
  rw [collect] at done
  split at done
  next windowed =>
    obtain ⟨highways, coords, -⟩ := extractFile_spec (fun _ => Or.inl windowed) file done
    refine ⟨highways, fun h member id inside => ?_⟩
    rw [if_pos rfl] at coords
    rw [coords, fileCoords]
    exact lookup_placeNodes_congr (fun c => by rw [keepsNode, windowed, Bool.true_or,
      Bool.true_and]) file rfl
  next noWindow =>
    have isNone : (filterWin s bo).isNone = true := by
      rw [Option.isNone_iff_eq_none]
      exact Option.not_isSome_iff_eq_none.mp noWindow
    cases first : extractFile s bo (filterWin s bo) false true file ⟨∅, ∅, []⟩ with
    | error e =>
        rw [first] at done
        cases done
    | ok q =>
        rw [first] at done
        obtain ⟨highways, coords, noted⟩ :=
          extractFile_spec (fun absurd' => Bool.noConfusion absurd') file first
        obtain ⟨highways', coords', -⟩ := extractFile_spec (fun _ => Or.inr rfl) file done
        refine ⟨?_, fun h member id inside => ?_⟩
        · rw [highways', highways]
          exact List.append_nil _
        · have known := (noted rfl isNone id).mpr (Or.inr ⟨h, member, inside⟩)
          rw [if_pos rfl] at coords'
          rw [if_neg Bool.false_ne_true] at coords
          rw [coords', fileCoords]
          refine lookup_placeNodes_congr (fun c => ?_) file (by rw [coords])
          rw [keepsNode, known, Bool.or_true, Bool.true_and]

theorem takeElement_error {nodes ways : Bool} {p : ImportPass} {element : Element} {e : String}
    (failed : takeElement s bo win nodes ways p element = .error e) : 0 < bo.maxNodes := by
  have refer_error : ∀ (ids : List Int64) {referenced : GoMap Int64 ℕ},
      refer bo referenced ids = .error e → 0 < bo.maxNodes := by
    intro ids
    induction ids with
    | nil => exact fun impossible => by cases impossible
    | cons id ids ih =>
        intro referenced failed
        rw [refer] at failed
        split at failed
        · exact ih failed
        · split at failed
          next full => exact full.1
          next => exact ih failed
  cases element with
  | node id c =>
      rw [takeElement] at failed
      split at failed
      · rw [takeNode] at failed
        split at failed
        · cases failed
        split at failed
        · cases failed
        split at failed
        next full => exact full.2.1
        next => cases failed
      · cases failed
  | way w =>
      rw [takeElement] at failed
      split at failed
      · rw [takeWay] at failed
        split at failed
        · cases failed
        next =>
          split at failed
          next e' noted =>
            cases failed
            split at noted
            · exact refer_error _ noted
            · cases noted
          next => cases failed
      · cases failed

theorem extractFile_error {nodes ways : Bool} {e : String} (file : List Element) :
    ∀ {p : ImportPass}, extractFile s bo win nodes ways file p = .error e → 0 < bo.maxNodes := by
  induction file with
  | nil => exact fun impossible => by cases impossible
  | cons element file ih =>
      intro p failed
      rw [extractFile, List.foldlM_cons] at failed
      cases first : takeElement s bo win nodes ways p element with
      | error e' => exact takeElement_error first
      | ok q =>
          rw [first] at failed
          exact ih failed

theorem collect_error {file : List Element} {e : String} (failed : collect s bo file = .error e) :
    0 < bo.maxNodes := by
  rw [collect] at failed
  split at failed
  · exact extractFile_error file failed
  · split at failed
    next e' first => exact extractFile_error file first
    next => exact extractFile_error file failed

end Collect

/-! ## The segments and their coordinates -/

section Segments

variable {haversineMeters : F64 → F64 → F64 → F64 → F64} {coords coords' : GoMap Int64 (Coord F64)}

/-- The segments of a highway only read the coordinates of its nodes. -/
theorem segmentVisits_congr {hw : HighwayWay F64} {ids : List Int64}
    (same : ∀ id ∈ ids, coords.lookup id = coords'.lookup id) :
    segmentVisits haversineMeters coords hw ids = segmentVisits haversineMeters coords' hw ids := by
  rw [segmentVisits, segmentVisits]
  refine List.flatMap_congr fun ends member => ?_
  have first := same _ (List.of_mem_zip member).1
  have second := same _ (List.mem_of_mem_tail (List.of_mem_zip member).2)
  simp only [segmentLength, first, second]

/-- Both ends of a segment are nodes of its highway that have coordinates. -/
theorem mem_segmentVisits {hw : HighwayWay F64} {ids : List Int64} {v : HighwayVisit F64}
    (visited : v ∈ segmentVisits haversineMeters coords hw ids) :
    (v.src ∈ ids ∧ (coords.lookup v.src).isSome = true) ∧
      v.dst ∈ ids ∧ (coords.lookup v.dst).isSome = true := by
  obtain ⟨ends, member, here⟩ := List.mem_flatMap.mp visited
  have first := (List.of_mem_zip member).1
  have second := List.mem_of_mem_tail (List.of_mem_zip member).2
  cases length : segmentLength haversineMeters coords ends.1 ends.2 with
  | none =>
      rw [length] at here
      exact absurd here List.not_mem_nil
  | some d =>
      rw [length] at here
      obtain ⟨way, chosen, rfl⟩ := List.mem_map.mp here
      obtain ⟨a, b, foundA, foundB, -⟩ := segmentLength_eq_some haversineMeters coords |>.mp length
      have hasA : (coords.lookup ends.1).isSome = true := by rw [foundA]; rfl
      have hasB : (coords.lookup ends.2).isSome = true := by rw [foundB]; rfl
      have ways : way = (ends.1, ends.2) ∨ way = (ends.2, ends.1) := by
        rw [directions] at chosen
        split_ifs at chosen <;> simp_all
      rcases ways with rfl | rfl
      · exact ⟨⟨first, hasA⟩, second, hasB⟩
      · exact ⟨⟨second, hasB⟩, first, hasA⟩

end Segments

/-! ## The graph -/

theorem lookup_foldl_insert {α : Type} (value : Int64 → α) (ids : List Int64) (id : Int64) :
    ∀ m : GoMap Int64 α, (ids.foldl (fun m id => m.insert id (value id)) m).lookup id =
      if id ∈ ids then some (value id) else m.lookup id := by
  induction ids with
  | nil => exact fun m => (if_neg List.not_mem_nil).symm
  | cons first ids ih =>
      intro m
      rw [List.foldl_cons, ih]
      by_cases same : id = first
      · subst same
        rw [AList.lookup_insert, if_pos List.mem_cons_self, ite_self]
      · rw [AList.lookup_insert_ne same]
        exact if_congr (List.mem_cons.trans (or_iff_right same)).symm rfl rfl

theorem lookup_foldl_erase {α : Type} (gone : Int64 → Bool) (ids : List Int64) (id : Int64) :
    ∀ m : GoMap Int64 α, (ids.foldl (fun m id => if gone id then m.erase id else m) m).lookup id =
      if id ∈ ids ∧ gone id = true then none else m.lookup id := by
  induction ids with
  | nil => exact fun m => (if_neg fun none => absurd none.1 List.not_mem_nil).symm
  | cons first ids ih =>
      intro m
      rw [List.foldl_cons, ih]
      by_cases same : id = first
      · subst same
        by_cases erased : gone id = true
        · rw [if_pos erased, AList.lookup_erase, ite_self, if_pos ⟨List.mem_cons_self, erased⟩]
        · rw [if_neg erased, if_neg fun both => erased both.2, if_neg fun both => erased both.2]
      · have left : (if gone first then m.erase first else m).lookup id = m.lookup id := by
          split
          · exact AList.lookup_erase_ne same
          · rfl
        rw [left]
        refine if_congr ?_ rfl rfl
        rw [List.mem_cons, or_iff_right same]

/-- **The coordinates that stay are those of the endpoints.** -/
theorem lookup_pruneCoords (copied : Bool) {visits : List (HighwayVisit F64)}
    {coordsAll : GoMap Int64 (Coord F64)}
    (located : ∀ id, IsEndpoint visits id → (coordsAll.lookup id).isSome = true) (id : Int64) :
    (pruneCoords copied (countDegrees visits) coordsAll).lookup id =
      if IsEndpoint visits id then coordsAll.lookup id else none := by
  have referenced : id ∈ (countDegrees visits).keys ↔ IsEndpoint visits id := by
    rw [← AList.mem_keys, ← AList.lookup_isSome, lookup_countDegrees]
    split <;> simp_all
  rw [pruneCoords]
  split
  · rw [lookup_foldl_insert, AList.lookup_empty, if_congr referenced rfl rfl]
    by_cases endpoint : IsEndpoint visits id
    · obtain ⟨c, found⟩ := Option.isSome_iff_exists.mp (located id endpoint)
      rw [if_pos endpoint, if_pos endpoint, found, Option.getD_some]
    · rw [if_neg endpoint, if_neg endpoint]
  · rw [lookup_foldl_erase]
    by_cases endpoint : IsEndpoint visits id
    · rw [if_pos endpoint, if_neg fun both => ?_]
      rw [lookup_countDegrees, if_pos endpoint] at both
      exact Bool.false_ne_true both.2
    · rw [if_neg endpoint]
      cases found : coordsAll.lookup id with
      | none => exact ite_self _
      | some c =>
          refine if_pos ⟨?_, ?_⟩
          · rw [← AList.mem_keys, ← AList.lookup_isSome, found]
            rfl
          · rw [lookup_countDegrees, if_neg endpoint]
            rfl

variable {s : ImportSettings} {bo : BuildOptions} {file : List Element} {g : ImportedGraph}

/-- The ends of a segment of a file have coordinates in it. -/
theorem fileSegments_located {win : Option (CoordWindow F64)} {id : Int64}
    (endpoint : IsEndpoint (fileSegments s win file) id) :
    ((fileCoords win file).lookup id).isSome = true := by
  obtain ⟨v, member, ends⟩ := endpoint
  obtain ⟨h, -, visited⟩ := List.mem_flatMap.mp member
  obtain ⟨⟨-, src⟩, -, dst⟩ := mem_segmentVisits visited
  rcases ends with rfl | rfl
  · exact src
  · exact dst

/-- **An import that succeeds gives the graph of the segments of the file.** -/
theorem build_spec (built : buildRouterWithAddressesOptions s bo file = .ok g) :
    g.adjacency = adjacency s.allotOrder s.dedupOrder
        (fileSegments s (filterWin s bo) file) ∧
      ∀ id, g.coords.lookup id = if IsEndpoint (fileSegments s (filterWin s bo) file) id then
        (fileCoords (filterWin s bo) file).lookup id else none := by
  rw [buildRouterWithAddressesOptions] at built
  cases collected : collect s bo file with
  | error e =>
      rw [collected] at built
      cases built
  | ok p =>
      obtain ⟨highways, coords⟩ := collect_spec collected
      have visited : visitHighwayEdges s.haversineMeters p.coordsAll p.highways =
          (fileSegments s (filterWin s bo) file, none) := by
        rw [highways, visitHighwayEdges_packed _ _ _ (roads_packed file), fileSegments]
        congr 1
        exact List.flatMap_congr fun h member => segmentVisits_congr (coords h member)
      simp only [collected, visited] at built
      cases built
      refine ⟨rfl, fun id => ?_⟩
      have agree : ∀ id, IsEndpoint (fileSegments s (filterWin s bo) file) id →
          p.coordsAll.lookup id = (fileCoords (filterWin s bo) file).lookup id := by
        rintro id ⟨v, member, ends⟩
        obtain ⟨h, road, visited⟩ := List.mem_flatMap.mp member
        obtain ⟨⟨src, -⟩, dst, -⟩ := mem_segmentVisits visited
        rcases ends with rfl | rfl
        · exact coords h road _ src
        · exact coords h road _ dst
      rw [lookup_pruneCoords _ fun id endpoint => agree id endpoint ▸ fileSegments_located endpoint]
      split
      next endpoint => exact agree id endpoint
      next => rfl

/-- An import fails only for a limit of the number of nodes. -/
theorem build_error {e : String} (failed : buildRouterWithAddressesOptions s bo file = .error e) :
    0 < bo.maxNodes := by
  rw [buildRouterWithAddressesOptions] at failed
  cases collected : collect s bo file with
  | error e' => exact collect_error collected
  | ok p =>
      have visited := visitHighwayEdges_packed s.haversineMeters p.coordsAll _
        (roads_packed (s := s) file)
      rw [← (collect_spec collected).1] at visited
      simp only [collected, visited] at failed
      cases failed

theorem mem_edges_iff {allotOrder dedupOrder : IdOrder} {visits : List (HighwayVisit F64)}
    {node : Int64} {e : Edge F64} : e ∈ (adjacency allotOrder dedupOrder visits).edges node ↔
      ∃ v ∈ visits, v.src = node ∧ v.edge = e := by
  rw [edges_adjacency, mem_firsts_id, outgoing, List.mem_map]
  simp only [List.mem_filter, decide_eq_true_eq, and_assoc]

/-- The endpoints of segments are those of the edges that are kept. -/
theorem isEndpoint_iff {allotOrder dedupOrder : IdOrder} {visits : List (HighwayVisit F64)}
    {id : Int64} : IsEndpoint visits id ↔ ∃ node,
      ∃ e ∈ (adjacency allotOrder dedupOrder visits).edges node, node = id ∨ e.toID = id := by
  constructor
  · rintro ⟨v, member, ends⟩
    exact ⟨v.src, v.edge, mem_edges_iff.mpr ⟨v, member, rfl, rfl⟩, ends⟩
  · rintro ⟨node, e, member, ends⟩
    obtain ⟨v, visited, rfl, rfl⟩ := mem_edges_iff.mp member
    exact ⟨v, visited, ends⟩

/-- Append edges to those of a node. -/
def Adjacency.grow (a : Adjacency) (node : Int64) (slice : Slice) (values : List (Edge F64)) :
    Adjacency :=
  ⟨(append a.memory slice values).1, a.adj.insert node (append a.memory slice values).2⟩

/-- **Imported graphs are well formed.** An import fails only for a limit of the number of
nodes. In a graph that it builds every node has the first occurrences of the edges that the
highways of the file generate, in their order; the nodes with slices and both ends of every edge
have coordinates; every coordinate is that of the file and belongs to an end of an edge; and
edges appended at one node do not change those of another one. -/
theorem imported_wellFormed (s : ImportSettings) (bo : BuildOptions) (file : List Element) :
    match buildRouterWithAddressesOptions s bo file with
    | .error _ => 0 < bo.maxNodes
    | .ok g =>
      (∀ node, g.adjacency.edges node =
        firsts id [] (outgoing (fileSegments s (filterWin s bo) file) node)) ∧
      (∀ node, (g.adjacency.adj.lookup node).isSome = true →
        (g.coords.lookup node).isSome = true) ∧
      (∀ node, ∀ e ∈ g.adjacency.edges node, (g.coords.lookup node).isSome = true ∧
        (g.coords.lookup e.toID).isSome = true) ∧
      (∀ node c, g.coords.lookup node = some c →
        (fileCoords (filterWin s bo) file).lookup node = some c ∧
          ∃ start, ∃ e ∈ g.adjacency.edges start, start = node ∨ e.toID = node) ∧
      ∀ node, ∀ slice ∈ g.adjacency.adj.lookup node, ∀ values other,
        (g.adjacency.grow node slice values).edges other =
          g.adjacency.edges other ++ if other = node then values else [] := by
  cases built : buildRouterWithAddressesOptions s bo file with
  | error e => exact build_error built
  | ok g =>
      obtain ⟨made, coords⟩ := build_spec built
      have located : ∀ id, IsEndpoint (fileSegments s (filterWin s bo) file) id →
          (g.coords.lookup id).isSome = true := by
        intro id endpoint
        rw [coords, if_pos endpoint]
        exact fileSegments_located endpoint
      refine ⟨fun node => ?_, fun node held => ?_, fun node e member => ?_,
        fun node c found => ?_, fun node slice held values other => ?_⟩
      · rw [made, edges_adjacency]
      · rw [made] at held
        exact located node (endpoint_of_slice held)
      · rw [made] at member
        exact ⟨located _ (isEndpoint_iff.mpr ⟨node, e, member, Or.inl rfl⟩),
          located _ (isEndpoint_iff.mpr ⟨node, e, member, Or.inr rfl⟩)⟩
      · rw [coords] at found
        split at found
        next endpoint =>
          rw [made]
          exact ⟨found, isEndpoint_iff.mp endpoint⟩
        next => cases found
      · have laid : g.adjacency.Laid := made ▸ laid_adjacency _ _ _
        exact (laid.append held values).2 other

end OsmMini.Core

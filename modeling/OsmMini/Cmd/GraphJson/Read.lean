import OsmMini.Core.Types
import OsmMini.Foundations.Binary64
import OsmMini.Foundations.Json

/-!
# Reading a graph from JSON

The reader of the browser build goes through the text once. It adds each node and each edge
to its maps as it comes, steps over the fields it does not know, and checks the endpoints of
the edges after both arrays were read.

A graph that is read contains both endpoints of each of its edges (`read_closed`), and the
members of the outer object may come in any order (`read_perm`): what a text gives depends
on the order only in which of several errors is reported.
-/

set_option autoImplicit false

namespace OsmMini.Cmd.GraphJson

open OsmMini.Core OsmMini.Foundations
open OsmMini.Foundations.Json (more takeValue skipValue streamElements)

/-! ## Decoding records -/

/-- The value of a decimal integer of 64 bits. -/
def parseInt (literal : String) : Option Int64 :=
  literal.toInt?.bind fun n =>
    if Int64.minValue.toInt ≤ n ∧ n ≤ Int64.maxValue.toInt then some (Int64.ofInt n) else none

/-- The smallest character of a fold set. Outside ASCII only the two characters that fold
into ASCII matter, since the names of fields are ASCII. -/
def foldRune (c : Char) : Char :=
  if 'a' ≤ c ∧ c ≤ 'z' then c.toUpper
  else if c = Char.ofNat 0x17F then 'S'
  else if c = Char.ofNat 0x212A then 'K'
  else c

/-- Whether a key of an object names a field of a record. -/
def isField (name key : String) : Bool := key.toList.map foldRune = name.toList.map foldRune

/-- An ID that knows whether it was set: zero is a node like any other. -/
structure GraphID where
  value : Int64
  set : Bool

def GraphID.unset : GraphID := ⟨0, false⟩

def unmarshalID : Json → Option GraphID
  | .number literal => (parseInt literal).map fun value => ⟨value, true⟩
  | _ => none

/-- A null leaves a field as it is. -/
def unmarshalString (current : String) : Json → Option String
  | .null => some current
  | .string text => some text
  | _ => none

variable (parseFloat : String → Option F64)

def unmarshalFloat (current : F64) : Json → Option F64
  | .null => some current
  | .number literal => parseFloat literal
  | _ => none

/-- The record `node`. -/
structure NodeRecord where
  id : GraphID
  lat : F64
  lon : F64

/-- The record `edge`. -/
structure EdgeRecord where
  fromID : GraphID
  toID : GraphID
  distM : F64
  speedKph : F64
  maxHeightM : F64
  maxWeightT : F64
  hwyType : String

def NodeRecord.unmarshalField (n : NodeRecord) (member : String × Json) : Option NodeRecord :=
  let (key, value) := member
  if isField "id" key then (unmarshalID value).map fun id => { n with id }
  else if isField "lat" key then
    (unmarshalFloat parseFloat n.lat value).map fun lat => { n with lat }
  else if isField "lon" key then
    (unmarshalFloat parseFloat n.lon value).map fun lon => { n with lon }
  else some n

def EdgeRecord.unmarshalField (e : EdgeRecord) (member : String × Json) : Option EdgeRecord :=
  let (key, value) := member
  if isField "from" key then (unmarshalID value).map fun fromID => { e with fromID }
  else if isField "to" key then (unmarshalID value).map fun toID => { e with toID }
  else if isField "dist_m" key then
    (unmarshalFloat parseFloat e.distM value).map fun distM => { e with distM }
  else if isField "speed_kph" key then
    (unmarshalFloat parseFloat e.speedKph value).map fun speedKph => { e with speedKph }
  else if isField "max_height_m" key then
    (unmarshalFloat parseFloat e.maxHeightM value).map fun maxHeightM => { e with maxHeightM }
  else if isField "max_weight_t" key then
    (unmarshalFloat parseFloat e.maxWeightT value).map fun maxWeightT => { e with maxWeightT }
  else if isField "hwy_type" key then
    (unmarshalString e.hwyType value).map fun hwyType => { e with hwyType }
  else some e

/-- Decode an object into a record, one member after another. -/
def unmarshal {Record : Type*} (unmarshalField : Record → String × Json → Option Record)
    (record : Record) : Json → Option Record
  | .null => some record
  | .object members => members.foldlM unmarshalField record
  | _ => none

/-! ## The reader -/

/-- The errors of the reader. -/
inductive ReadError where
  /-- An error of the decoder, at the end of the text or where it is not JSON. -/
  | decoder
  /-- `expected %q, got %v` -/
  | expected (want got : JsonToken)
  /-- `expected graph field` -/
  | graphField
  /-- `duplicate graph field %q` -/
  | duplicateField (key : String)
  /-- `%s: %w` -/
  | inField (key : String) (cause : ReadError)
  /-- `node: %w` -/
  | node
  /-- `node requires id` -/
  | nodeID
  /-- `node %d: invalid coordinates` -/
  | invalidCoordinates (id : Int64)
  /-- `duplicate node %d` -/
  | duplicateNode (id : Int64)
  /-- `edge: %w` -/
  | edge
  /-- `edge requires from and to IDs` -/
  | edgeIDs
  /-- `edge %d -> %d: invalid cost or restriction` -/
  | invalidCost (fromID toID : Int64)
  /-- `unexpected value after graph` -/
  | trailing
  /-- `graph requires nonempty nodes and an edges array` -/
  | incomplete
  /-- `unknown edge source %d` -/
  | unknownSource (id : Int64)
  /-- `unknown edge destination %d` -/
  | unknownDestination (id : Int64)
  deriving DecidableEq, Repr

def nonnegative (x : F64) : Bool := x.isFinite && F64.le (F64.ofRat 0) x

/-- Whether a coordinate is finite and lies on the globe. -/
def validCoordinates (lat lon : F64) : Bool :=
  lat.isFinite && lon.isFinite && !F64.lt lat (F64.ofRat (-90)) && !F64.lt (F64.ofRat 90) lat &&
    !F64.lt lon (F64.ofRat (-180)) && !F64.lt (F64.ofRat 180) lon

def addNode (coords : GoMap Int64 (Coord F64)) (value : Json) :
    Except ReadError (GoMap Int64 (Coord F64)) :=
  match unmarshal (NodeRecord.unmarshalField parseFloat) ⟨.unset, F64.nan, F64.nan⟩ value with
  | none => .error .node
  | some n =>
    if n.id.set = false then .error .nodeID
    else if validCoordinates n.lat n.lon = false then .error (.invalidCoordinates n.id.value)
    else if (coords.lookup n.id.value).isSome then .error (.duplicateNode n.id.value)
    else .ok (coords.insert n.id.value ⟨n.lat, n.lon⟩)

def addEdge (adj : GoMap Int64 (List (Edge F64))) (value : Json) :
    Except ReadError (GoMap Int64 (List (Edge F64))) :=
  let zero := F64.ofRat 0
  match unmarshal (EdgeRecord.unmarshalField parseFloat)
      ⟨.unset, .unset, F64.nan, zero, zero, zero, ""⟩ value with
  | none => .error .edge
  | some e =>
    if e.fromID.set = false ∨ e.toID.set = false then .error .edgeIDs
    else if !nonnegative e.distM || !nonnegative e.speedKph || !nonnegative e.maxHeightM ||
        !nonnegative e.maxWeightT then
      .error (.invalidCost e.fromID.value e.toID.value)
    else
      let edge : Edge F64 :=
        { toID := e.toID.value
          distM := e.distM
          speedKph := e.speedKph
          maxHeightM := e.maxHeightM
          maxWeightT := e.maxWeightT
          hwyType := e.hwyType }
      .ok (adj.insert e.fromID.value ((adj.lookup e.fromID.value).getD [] ++ [edge]))

/-- What was read so far. -/
structure ReadState where
  coords : GoMap Int64 (Coord F64)
  adj : GoMap Int64 (List (Edge F64))
  seen : Finset String

def ReadState.empty : ReadState := ⟨∅, ∅, ∅⟩

def expect (want : JsonToken) : List JsonToken → Except ReadError (List JsonToken)
  | [] => .error .decoder
  | got :: rest =>
    if got = .fault then .error .decoder
    else if got = want then .ok rest
    else .error (.expected want got)

/-- Read the elements of an array into the map of its field. -/
def readElements (s : ReadState) (key : String) (stream : List JsonToken) :
    Except ReadError (ReadState × List JsonToken) :=
  if key = "nodes" then
    (streamElements (addNode parseFloat) .node s.coords stream).map fun (coords, rest) =>
      ({ s with coords }, rest)
  else
    (streamElements (addEdge parseFloat) .edge s.adj stream).map fun (adj, rest) =>
      ({ s with adj }, rest)

/-- Read the value of a member of the outer object. -/
def readMember (s : ReadState) (key : String) (stream : List JsonToken) :
    Except ReadError (ReadState × List JsonToken) :=
  if key ≠ "nodes" ∧ key ≠ "edges" then
    match skipValue stream with
    | none => .error .decoder
    | some rest => .ok (s, rest)
  else if key ∈ s.seen then .error (.duplicateField key)
  else
    match expect .beginArray stream with
    | .error e => .error (.inField key e)
    | .ok rest => do
      let (s, rest) ← readElements parseFloat { s with seen := insert key s.seen } key rest
      let rest ← expect .endArray rest
      .ok (s, rest)

/-! ### What is left is shorter -/

theorem expect_length {want : JsonToken} {stream rest : List JsonToken}
    (found : expect want stream = .ok rest) : rest.length < stream.length := by
  cases stream with
  | nil => cases found
  | cons got tail =>
      rw [expect] at found
      split at found
      · cases found
      · split at found
        · cases found
          exact Nat.lt_succ_self _
        · cases found

theorem readElements_length {s s' : ReadState} {key : String} {stream rest : List JsonToken}
    (read : readElements parseFloat s key stream = .ok (s', rest)) :
    rest.length ≤ stream.length := by
  rw [readElements] at read
  split at read
  · cases elements : streamElements (addNode parseFloat) .node s.coords stream with
    | error e => simp [elements, Except.map] at read
    | ok result =>
        simp only [elements, Except.map, Except.ok.injEq, Prod.mk.injEq] at read
        rw [← read.2]
        exact Json.streamElements_length _ _ elements
  · cases elements : streamElements (addEdge parseFloat) .edge s.adj stream with
    | error e => simp [elements, Except.map] at read
    | ok result =>
        simp only [elements, Except.map, Except.ok.injEq, Prod.mk.injEq] at read
        rw [← read.2]
        exact Json.streamElements_length _ _ elements

theorem readMember_length {s s' : ReadState} {key : String} {stream rest : List JsonToken}
    (read : readMember parseFloat s key stream = .ok (s', rest)) :
    rest.length < stream.length := by
  rw [readMember] at read
  split at read
  · cases skipped : skipValue stream with
    | none => simp [skipped] at read
    | some left =>
        simp only [skipped, Except.ok.injEq, Prod.mk.injEq] at read
        rw [← read.2]
        exact Json.skipValue_length skipped
  · split at read
    · cases read
    · cases opened : expect .beginArray stream with
      | error e => simp [opened] at read
      | ok inner =>
          cases elements : readElements parseFloat { s with seen := insert key s.seen } key inner with
          | error e => simp [opened, elements, bind, Except.bind] at read
          | ok result =>
              cases closed : expect .endArray result.2 with
              | error e => simp [opened, elements, closed, bind, Except.bind] at read
              | ok left =>
                  simp only [opened, elements, closed, bind, Except.bind, Except.ok.injEq,
                    Prod.mk.injEq] at read
                  have first := expect_length opened
                  have second : result.2.length ≤ inner.length := readElements_length parseFloat elements
                  have third := expect_length closed
                  rw [← read.2]
                  omega

/-- Read the members of the outer object. -/
def readMembers (s : ReadState) (stream : List JsonToken) :
    Except ReadError (ReadState × List JsonToken) :=
  if more stream then
    match stream with
    | .string key :: rest =>
      match _ : readMember parseFloat s key rest with
      | .error e => .error e
      | .ok (s, rest) => readMembers s rest
    | .fault :: _ => .error .decoder
    | _ => .error .graphField
  else .ok (s, stream)
termination_by stream.length
decreasing_by exact Nat.lt_succ_of_lt (readMember_length parseFloat ‹_›)

/-- An endpoint of an edge that is no node. -/
def unknownEndpoint (s : ReadState) : Option ReadError :=
  s.adj.entries.findSome? fun entry =>
    if (s.coords.lookup entry.1).isNone then some (.unknownSource entry.1)
    else (entry.2.find? fun e => (s.coords.lookup e.toID).isNone).map fun e =>
      .unknownDestination e.toID

/-- The checks after the outer object was read. -/
def finish (s : ReadState) : Except ReadError (MemoryGraph F64) :=
  if "nodes" ∉ s.seen ∨ "edges" ∉ s.seen ∨ s.coords.entries = [] then .error .incomplete
  else
    match unknownEndpoint s with
    | some e => .error e
    | none => .ok ⟨s.coords, s.adj⟩

/-- Read a graph from the tokens of a text. -/
def read (stream : List JsonToken) : Except ReadError (MemoryGraph F64) := do
  let rest ← expect .beginObject stream
  let (s, rest) ← readMembers parseFloat .empty rest
  let rest ← expect .endObject rest
  match rest with
  | [] => finish s
  | .fault :: _ => .error .decoder
  | _ => .error .trailing

/-! ## Every graph that is read is closed -/

/-- Both endpoints of every edge are nodes. -/
def Closed (m : MemoryGraph F64) : Prop :=
  ∀ u, ∀ e ∈ m.toGraph.edges u,
    (m.toGraph.coord u).isSome ∧ (m.toGraph.coord e.toID).isSome

theorem closed_of_unknownEndpoint {s : ReadState} (none : unknownEndpoint s = none) :
    Closed ⟨s.coords, s.adj⟩ := by
  intro u e edge
  simp only [MemoryGraph.toGraph] at edge ⊢
  cases found : s.adj.lookup u with
  | none => simp [found] at edge
  | some edges =>
      rw [found, Option.getD_some] at edge
      have entry : (⟨u, edges⟩ : Sigma fun _ : Int64 => List (Edge F64)) ∈ s.adj.entries :=
        AList.mem_lookup_iff.mp found
      have checked := List.findSome?_eq_none_iff.mp none _ entry
      split_ifs at checked with source
      refine ⟨by simpa [Option.isSome_iff_ne_none] using source, ?_⟩
      rw [Option.map_eq_none_iff, List.find?_eq_none] at checked
      simpa [Option.isSome_iff_ne_none] using checked e edge

theorem closed_of_finish {s : ReadState} {m : MemoryGraph F64} (done : finish s = .ok m) :
    Closed m := by
  rw [finish] at done
  split at done
  · cases done
  · split at done
    · cases done
    · next none =>
        cases done
        exact closed_of_unknownEndpoint none

/-- **A graph that is read is closed**, whatever the text is. -/
theorem read_closed {stream : List JsonToken} {m : MemoryGraph F64}
    (done : read parseFloat stream = .ok m) : Closed m := by
  rw [read] at done
  cases opened : expect .beginObject stream with
  | error e => simp [opened, bind, Except.bind] at done
  | ok inner =>
      cases members : readMembers parseFloat .empty inner with
      | error e => simp [opened, members, bind, Except.bind] at done
      | ok result =>
          cases ended : expect .endObject result.2 with
          | error e => simp [opened, members, ended, bind, Except.bind] at done
          | ok rest =>
              simp only [opened, members, ended, bind, Except.bind] at done
              split at done
              · exact closed_of_finish done
              · cases done
              · cases done

/-! ## The order of the members

A text is read like its document, member by member. What a member does to the maps does not
depend on the members before it, apart from a field that was seen already. -/

/-- The elements of an array, added to a map. -/
def addElements {σ : Type*} (add : σ → Json → Except ReadError σ) (state : σ) :
    Json → Option σ
  | .array elements => (elements.foldlM add state).toOption
  | _ => none

/-- The effect of one member, or none when it is refused. -/
def addMember (s : ReadState) (member : String × Json) : Option ReadState :=
  if member.1 ≠ "nodes" ∧ member.1 ≠ "edges" then some s
  else if member.1 ∈ s.seen then none
  else if member.1 = "nodes" then
    (addElements (addNode parseFloat) s.coords member.2).map fun coords =>
      { s with coords, seen := insert member.1 s.seen }
  else
    (addElements (addEdge parseFloat) s.adj member.2).map fun adj =>
      { s with adj, seen := insert member.1 s.seen }

theorem expect_self {want : JsonToken} (rest : List JsonToken) (sound : want ≠ .fault) :
    expect want (want :: rest) = .ok rest := by
  rw [expect, if_neg sound, if_pos rfl]

theorem readMember_tokens (s : ReadState) (key : String) (value : Json)
    (rest : List JsonToken) :
    (readMember parseFloat s key (value.tokens ++ rest)).toOption =
      (addMember parseFloat s (key, value)).map fun s => (s, rest) := by
  have closes : JsonToken.endArray ≠ .fault := by decide
  unfold readMember addMember
  split_ifs with unknown seen nodes
  · rw [Json.skipValue_tokens]
    rfl
  · rfl
  · cases value with
    | null | bool | number | string | object =>
        simp [Json.tokens, expect, Except.toOption, addElements]
    | array elements =>
        simp only [Json.tokens, List.cons_append, List.append_assoc, List.nil_append, addElements]
        rw [expect_self _ (by decide)]
        simp only [readElements, if_pos nodes]
        rw [Json.streamElements_tokens]
        cases elements.foldlM (addNode parseFloat) s.coords with
        | error e => rfl
        | ok coords =>
            simp only [Except.map, bind, Except.bind, expect_self rest closes]
            rfl
  · cases value with
    | null | bool | number | string | object =>
        simp [Json.tokens, expect, Except.toOption, addElements]
    | array elements =>
        simp only [Json.tokens, List.cons_append, List.append_assoc, List.nil_append, addElements]
        rw [expect_self _ (by decide)]
        simp only [readElements, if_neg nodes]
        rw [Json.streamElements_tokens]
        cases elements.foldlM (addEdge parseFloat) s.adj with
        | error e => rfl
        | ok adj =>
            simp only [Except.map, bind, Except.bind, expect_self rest closes]
            rfl

theorem readMembers_tokens : ∀ (members : List (String × Json)) (s : ReadState)
    (rest : List JsonToken),
    (readMembers parseFloat s (Json.memberTokens members ++ rest)).toOption =
      (members.foldlM (addMember parseFloat) s).bind fun s =>
        (readMembers parseFloat s rest).toOption
  | [], s, rest => rfl
  | (key, value) :: members, s, rest => by
      have first := readMember_tokens parseFloat s key value (Json.memberTokens members ++ rest)
      rw [Json.memberTokens, List.cons_append, List.append_assoc, readMembers,
        if_pos (show more (.string key :: _) = true from rfl), List.foldlM_cons]
      cases step : addMember parseFloat s (key, value) with
      | none =>
          rw [step] at first
          split
          · rfl
          · next read =>
              rw [read] at first
              cases first
      | some next =>
          rw [step] at first
          split
          · next read =>
              rw [read] at first
              cases first
          · next read =>
              rw [read] at first
              simp only [Except.toOption, Option.map_some, Option.some.injEq, Prod.mk.injEq]
                at first
              rw [first.1, first.2]
              exact readMembers_tokens members next rest

theorem addMember_unknown (s : ReadState) {member : String × Json}
    (unknown : member.1 ≠ "nodes" ∧ member.1 ≠ "edges") : addMember parseFloat s member = some s :=
  if_pos unknown

theorem addMember_nodes (s : ReadState) (value : Json) :
    addMember parseFloat s ("nodes", value) =
      if "nodes" ∈ s.seen then none
      else (addElements (addNode parseFloat) s.coords value).map fun coords =>
        { s with coords, seen := insert "nodes" s.seen } := by
  rw [addMember, if_neg (by simp), if_pos rfl]

theorem addMember_edges (s : ReadState) (value : Json) :
    addMember parseFloat s ("edges", value) =
      if "edges" ∈ s.seen then none
      else (addElements (addEdge parseFloat) s.adj value).map fun adj =>
        { s with adj, seen := insert "edges" s.seen } := by
  rw [addMember, if_neg (by simp), if_neg (by simp : ¬"edges" = "nodes")]

/-- A field that was seen is refused. -/
theorem addMember_twice (s : ReadState) {first second : String × Json}
    (known : first.1 = "nodes" ∨ first.1 = "edges") (same : second.1 = first.1) :
    (addMember parseFloat s first).bind (addMember parseFloat · second) = none := by
  obtain ⟨key, value⟩ := first
  obtain ⟨key', value'⟩ := second
  simp only at known same
  subst same
  obtain rfl | rfl := known
  · rw [addMember_nodes]
    split_ifs
    · rfl
    · cases addElements (addNode parseFloat) s.coords value with
      | none => rfl
      | some coords => simp [addMember_nodes]
  · rw [addMember_edges]
    split_ifs
    · rfl
    · cases addElements (addEdge parseFloat) s.adj value with
      | none => rfl
      | some adj => simp [addMember_edges]

/-- The two arrays fill different maps. -/
theorem addMember_nodes_edges (s : ReadState) (nodes edges : Json) :
    (addMember parseFloat s ("nodes", nodes)).bind (addMember parseFloat · ("edges", edges)) =
      (addMember parseFloat s ("edges", edges)).bind
        (addMember parseFloat · ("nodes", nodes)) := by
  rw [addMember_nodes, addMember_edges]
  cases filled : addElements (addNode parseFloat) s.coords nodes with
  | none =>
      cases addElements (addEdge parseFloat) s.adj edges with
      | none => simp
      | some adj => split_ifs <;> simp [addMember_nodes, filled]
  | some coords =>
      cases joined : addElements (addEdge parseFloat) s.adj edges with
      | none => split_ifs <;> simp [addMember_edges, joined]
      | some adj =>
          split_ifs <;>
            simp_all [addMember_nodes, addMember_edges, Finset.insert_comm]

/-- Two members have the same effect in either order. -/
theorem addMember_comm (s : ReadState) (first second : String × Json) :
    (addMember parseFloat s first).bind (addMember parseFloat · second) =
      (addMember parseFloat s second).bind (addMember parseFloat · first) := by
  by_cases unknown : first.1 ≠ "nodes" ∧ first.1 ≠ "edges"
  · simp [addMember_unknown parseFloat _ unknown]
  by_cases unknown' : second.1 ≠ "nodes" ∧ second.1 ≠ "edges"
  · simp [addMember_unknown parseFloat _ unknown']
  obtain ⟨key, value⟩ := first
  obtain ⟨key', value'⟩ := second
  have known : key = "nodes" ∨ key = "edges" := by tauto
  have known' : key' = "nodes" ∨ key' = "edges" := by tauto
  by_cases same : key = key'
  · rw [addMember_twice parseFloat s known same.symm, addMember_twice parseFloat s known' same]
  · obtain rfl | rfl := known <;> obtain rfl | rfl := known'
    · exact absurd rfl same
    · exact addMember_nodes_edges parseFloat s value value'
    · exact (addMember_nodes_edges parseFloat s value' value).symm
    · exact absurd rfl same

theorem addMembers_perm {members members' : List (String × Json)}
    (perm : members.Perm members') : ∀ s : ReadState,
    members.foldlM (addMember parseFloat) s = members'.foldlM (addMember parseFloat) s := by
  induction perm with
  | nil => intro s; rfl
  | cons member _ ih =>
      intro s
      simp only [List.foldlM_cons, ih]
  | swap first second rest =>
      intro s
      have either := addMember_comm parseFloat s second first
      simp only [List.foldlM_cons]
      change (addMember parseFloat s second).bind (fun s => (addMember parseFloat s first).bind _) =
        (addMember parseFloat s first).bind (fun s => (addMember parseFloat s second).bind _)
      rw [← Option.bind_assoc, ← Option.bind_assoc, either]
  | trans _ _ first second =>
      intro s
      rw [first s, second s]

/-- The part of a reading after the members of the outer object. -/
def readEnd (s : ReadState) (stream : List JsonToken) : Except ReadError (MemoryGraph F64) := do
  let (s, rest) ← readMembers parseFloat s stream
  let rest ← expect .endObject rest
  match rest with
  | [] => finish s
  | .fault :: _ => .error .decoder
  | _ => .error .trailing

theorem read_eq_readEnd (stream : List JsonToken) :
    read parseFloat (.beginObject :: stream) = readEnd parseFloat .empty stream := rfl

theorem readEnd_toOption (s : ReadState) (stream : List JsonToken) :
    (readEnd parseFloat s stream).toOption =
      (readMembers parseFloat s stream).toOption.bind fun result =>
        (do
          let rest ← expect .endObject result.2
          match rest with
          | [] => finish result.1
          | .fault :: _ => .error .decoder
          | _ => .error .trailing : Except ReadError (MemoryGraph F64)).toOption := by
  rw [readEnd]
  cases readMembers parseFloat s stream <;> rfl

/-- **The members of the outer object may come in any order**, whatever follows them. -/
theorem read_perm {members members' : List (String × Json)} (perm : members.Perm members')
    (rest : List JsonToken) :
    (read parseFloat (.beginObject :: (Json.memberTokens members ++ rest))).toOption =
      (read parseFloat (.beginObject :: (Json.memberTokens members' ++ rest))).toOption := by
  rw [read_eq_readEnd, read_eq_readEnd, readEnd_toOption, readEnd_toOption, readMembers_tokens,
    readMembers_tokens, addMembers_perm parseFloat perm]

end OsmMini.Cmd.GraphJson

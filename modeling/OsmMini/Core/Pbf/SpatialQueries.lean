import OsmMini.Core.Pbf.SpatialIndex

/-!
# Queries of the spatial index

The blocks a query returns are whole blocks of the file in their order. A block that is
left out has no node in the window, so going over the returned blocks alone reports the
same nodes of the window as going over the file.

Unlike the extraction, the indexer does not decode the blobs of headers. The results are
about files whose header blobs can be decoded.
-/

set_option autoImplicit false

namespace OsmMini.Core.Pbf

open OsmMini.Foundations

/-! ## Coordinates are numbers -/

/-- A call whose coordinates, if it reports any, are numbers. -/
def Call.Numeric : Call → Prop
  | .node _ lat lon => lat.isNaN = false ∧ lon.isNaN = false
  | _ => True

def AllNumeric (calls : List Call) : Prop := ∀ call ∈ calls, call.Numeric

theorem nanoDegrees_isNaN (nano : Int64) : (nanoDegrees nano).isNaN = false :=
  F64.isNaN_div (F64.isNaN_ofRat _) (F64.isNaN_ofRat _) (by decide +kernel) (by decide +kernel)

/-- The readers of a message keep what holds of the data they are given. -/
def FieldReader.Keeps {σ : Type} (I : σ → Prop) : FieldReader σ → Prop
  | .varint _ update => ∀ v s, I s → I (update v s).1
  | .bytes _ update => ∀ b s, I s → I (update b s).1

section Messages

variable {σ : Type} {I : σ → Prop}

theorem readPayload_keeps {α : Type} {payload : Wire α} {update : α → σ → σ × Option PbfError}
    (keeps : ∀ v s, I s → I (update v s).1) (name : String) (expected wire : ℕ) {s : σ}
    (holds : I s) (b : List UInt8) : I (readPayload name expected wire payload update s b).1.1 := by
  unfold readPayload
  split
  · exact holds
  · split
    · exact holds
    · exact keeps _ _ holds

theorem readField_keeps {reader : Option (FieldReader σ)}
    (keeps : ∀ f, reader = some f → f.Keeps I) (wire : ℕ) {s : σ} (holds : I s)
    (b : List UInt8) : I (readField reader wire s b).1.1 := by
  match reader with
  | some (.varint name update) => exact readPayload_keeps (keeps _ rfl) _ _ _ holds _
  | some (.bytes name update) => exact readPayload_keeps (keeps _ rfl) _ _ _ holds _
  | none =>
      rw [readField]
      split
      · exact holds
      · exact holds

theorem scanMessage_keeps {fields : ℕ → Option (FieldReader σ)}
    (keeps : ∀ n f, fields n = some f → f.Keeps I) {s : σ} (holds : I s) (raw : List UInt8) :
    I (scanMessage fields s raw).1 := by
  fun_induction scanMessage fields s raw with
  | case1 s => exact holds
  | case2 s c b tag e badTag => exact holds
  | case3 s c b tag tag' goodTag read s' e badField =>
      have kept := readField_keeps (keeps (tag' >>> 3).toNat) (tag' &&& 7).toNat holds tag.2
      rw [show (readField _ _ s tag.2).1 = (s', some e) from badField] at kept
      exact kept
  | case4 s c b tag tag' goodTag read s' goodField ih =>
      have kept := readField_keeps (keeps (tag' >>> 3).toNat) (tag' &&& 7).toNat holds tag.2
      rw [show (readField _ _ s tag.2).1 = (s', none) from goodField] at kept
      exact ih kept

end Messages

theorem denseNodes_numeric (ctx : BlockCtx) (err : Option PbfError) (n : ℕ) (c : DenseCursor) :
    ∀ call ∈ (denseNodes ctx noOptions nodeOnly err n c).1, call.Numeric := by
  induction n generalizing c with
  | zero => simp [denseNodes]
  | succ n ih =>
      intro call here
      obtain rfl | later := List.mem_cons.mp here
      · exact ⟨nanoDegrees_isNaN _, nanoDegrees_isNaN _⟩
      · exact ih _ call later

theorem processNode_numeric (raw : List UInt8) (ctx : BlockCtx) :
    ∀ call ∈ (processNode raw ctx noOptions nodeOnly).1, call.Numeric := by
  unfold processNode
  split
  · simp
  · intro call here
    obtain rfl := List.mem_singleton.mp here
    exact ⟨nanoDegrees_isNaN _, nanoDegrees_isNaN _⟩

theorem processDenseNodes_numeric (raw : List UInt8) (ctx : BlockCtx) :
    ∀ call ∈ (processDenseNodes raw ctx noOptions nodeOnly).1, call.Numeric := by
  unfold processDenseNodes
  split
  · simp
  · split
    · simp
    · exact denseNodes_numeric _ _ _ _

theorem callWhen_numeric {wanted : Bool} {process : List UInt8 → Calls}
    (numeric : wanted = true → ∀ msg, ∀ call ∈ (process msg).1, call.Numeric) (msg : List UInt8)
    (made : List Call) (before : ∀ call ∈ made, call.Numeric) :
    ∀ call ∈ (callWhen wanted process msg made).1, call.Numeric := by
  cases wanted with
  | false => exact before
  | true => exact List.forall_mem_append.mpr ⟨before, numeric rfl msg⟩

theorem processGroups_numeric (ctx : BlockCtx) (groups : List (List UInt8)) :
    ∀ call ∈ (processGroups ctx noOptions nodeOnly groups).1, call.Numeric := by
  have group : ∀ g, ∀ call ∈ (processPrimitiveGroup g ctx noOptions nodeOnly).1, call.Numeric := by
    intro g
    refine scanMessage_keeps (I := AllNumeric) ?_ (by simp [AllNumeric]) g
    intro n f reader
    unfold groupFields at reader
    split at reader
    · obtain rfl := Option.some.inj reader
      exact fun msg made => callWhen_numeric (fun _ msg => processNode_numeric msg ctx) msg made
    · obtain rfl := Option.some.inj reader
      exact fun msg made =>
        callWhen_numeric (fun _ msg => processDenseNodes_numeric msg ctx) msg made
    · obtain rfl := Option.some.inj reader
      exact fun msg made => callWhen_numeric (fun wanted => absurd wanted (by decide)) msg made
    · obtain rfl := Option.some.inj reader
      exact fun msg made => callWhen_numeric (fun wanted => absurd wanted (by decide)) msg made
    · cases reader
  induction groups with
  | nil => simp [processGroups]
  | cons g groups ih =>
      have first := group g
      unfold processGroups
      split
      · next calls e failed => exact fun call here => first call (by rw [failed]; exact here)
      · next calls done =>
        rw [done] at first
        exact List.forall_mem_append.mpr ⟨first, ih⟩

/-- A run for the coordinates of nodes only reports numbers. -/
theorem processOSMData_numeric (raw : List UInt8) :
    ∀ call ∈ (processOSMData raw noOptions nodeOnly).1, call.Numeric := by
  unfold processOSMData
  split
  · simp
  · exact processGroups_numeric _ _

/-! ## Bounds hold their nodes -/

/-- One extent lies within another. -/
structure PBFBlockBounds.Within (a b : PBFBlockBounds) : Prop where
  minLat : b.minLat.le a.minLat = true
  maxLat : a.maxLat.le b.maxLat = true
  minLon : b.minLon.le a.minLon = true
  maxLon : a.maxLon.le b.maxLon = true

/-- The extent of one point. -/
def PBFBlockBounds.point (lat lon : F64) : PBFBlockBounds := ⟨lat, lat, lon, lon⟩

theorem PBFBlockBounds.Within.trans {a b c : PBFBlockBounds} (first : a.Within b)
    (second : b.Within c) : a.Within c where
  minLat := F64.le_trans second.minLat first.minLat
  maxLat := F64.le_trans first.maxLat second.maxLat
  minLon := F64.le_trans second.minLon first.minLon
  maxLon := F64.le_trans first.maxLon second.maxLon

theorem noBounds_within : noBounds.Within noBounds := by
  constructor <;> decide +kernel

/-- Taking a call in widens the bounds, and a node then lies within them. -/
theorem addNode_within {acc : PBFBlockBounds × ℕ} (proper : acc.1.Within acc.1) {call : Call}
    (numeric : call.Numeric) :
    acc.1.Within (addNode acc call).1 ∧ (addNode acc call).1.Within (addNode acc call).1 ∧
      ∀ id lat lon, call = .node id lat lon →
        (PBFBlockBounds.point lat lon).Within (addNode acc call).1 := by
  cases call with
  | node id lat lon =>
      obtain ⟨latNumber, lonNumber⟩ := numeric
      have number : ∀ {x y : F64}, x.le y = true → x.isNaN = false ∧ y.isNaN = false :=
        fun le => ⟨(F64.le_iff.mp le).1, (F64.le_iff.mp le).2.1⟩
      have south := F64.min_le (number proper.minLat).1 latNumber
      have north := F64.le_max (number proper.maxLat).1 latNumber
      have west := F64.min_le (number proper.minLon).1 lonNumber
      have east := F64.le_max (number proper.maxLon).1 lonNumber
      refine ⟨⟨south.1, north.1, west.1, east.1⟩, ?_, ?_⟩
      · exact ⟨F64.le_refl_of (number south.1).1, F64.le_refl_of (number north.1).2,
          F64.le_refl_of (number west.1).1, F64.le_refl_of (number east.1).2⟩
      · intro id' lat' lon' same
        obtain ⟨rfl, rfl, rfl⟩ := by simpa using same
        exact ⟨south.2, north.2, west.2, east.2⟩
  | _ => exact ⟨proper, proper, fun id lat lon same => by cases same⟩

theorem foldl_addNode_within {calls : List Call} (numeric : AllNumeric calls)
    {acc : PBFBlockBounds × ℕ} (proper : acc.1.Within acc.1) :
    acc.1.Within (calls.foldl addNode acc).1 ∧
      ∀ id lat lon, .node id lat lon ∈ calls →
        (PBFBlockBounds.point lat lon).Within (calls.foldl addNode acc).1 := by
  induction calls generalizing acc with
  | nil => exact ⟨proper, by simp⟩
  | cons call calls ih =>
      obtain ⟨first, others⟩ := List.forall_mem_cons.mp numeric
      obtain ⟨wider, properNext, holds⟩ := addNode_within proper first
      obtain ⟨within, later⟩ := ih others properNext
      refine ⟨wider.trans within, fun id lat lon here => ?_⟩
      obtain same | there := List.mem_cons.mp here
      · exact (holds id lat lon same.symm).trans within
      · exact later id lat lon there

theorem foldl_addNode_count {calls : List Call} {id : Int64} {lat lon : F64}
    (here : .node id lat lon ∈ calls) (acc : PBFBlockBounds × ℕ) :
    0 < (calls.foldl addNode acc).2 := by
  have grows : ∀ (calls : List Call) (acc : PBFBlockBounds × ℕ),
      acc.2 ≤ (calls.foldl addNode acc).2 := by
    intro calls
    induction calls with
    | nil => exact fun acc => le_refl _
    | cons call calls ih =>
        intro acc
        refine le_trans ?_ (ih (addNode acc call))
        cases call with
        | node id lat lon => exact Nat.le_succ _
        | _ => exact le_refl _
  induction calls generalizing acc with
  | nil => cases here
  | cons call calls ih =>
      obtain rfl | there := List.mem_cons.mp here
      · exact (Nat.succ_pos _).trans_le (grows calls (addNode acc (.node id lat lon)))
      · exact ih there _

/-- Whether a call reports a node in a window. -/
def Call.inWindow (window : CoordWindow F64) : Call → Bool
  | .node _ lat lon => window.contains ⟨lat, lon⟩
  | _ => false

/-- The bounds and the number of the nodes of calls. -/
def nodeExtent (calls : List Call) : PBFBlockBounds × ℕ := calls.foldl addNode (noBounds, 0)

/-- Calls with a node in the window have bounds that meet the window. -/
theorem intersects_of_inWindow {calls : List Call} (numeric : AllNumeric calls)
    {window : CoordWindow F64} {call : Call} (here : call ∈ calls)
    (inside : call.inWindow window = true) :
    0 < (nodeExtent calls).2 ∧ (nodeExtent calls).1.intersects window = true := by
  cases call with
  | node id lat lon =>
      have within := (@foldl_addNode_within _ numeric (noBounds, 0) noBounds_within).2 id lat lon here
      simp only [Call.inWindow, CoordWindow.contains, Bool.and_eq_true] at inside
      obtain ⟨⟨⟨south, north⟩, west⟩, east⟩ := inside
      refine ⟨foldl_addNode_count here _, ?_⟩
      simp only [PBFBlockBounds.intersects, Bool.and_eq_true]
      exact ⟨⟨⟨F64.le_trans within.minLat north, F64.le_trans south within.maxLat⟩,
        F64.le_trans within.minLon east⟩, F64.le_trans west within.maxLon⟩
  | _ => cases inside

/-! ## The blocks of the index -/

section Index

variable (inflate : List UInt8 → Inflated)

/-- The calls for the nodes of a block. -/
def Frame.nodeCalls (f : Frame) : List Call := (f.run inflate noOptions nodeOnly).1

/-- The entry of a block in the index, if it has nodes. -/
def Frame.entry (f : Frame) (offset : ℕ) : List PBFSpatialBlock :=
  let extent := nodeExtent (f.nodeCalls inflate)
  if 0 < extent.2 then [⟨offset, f.bytes.length, extent.1, extent.2⟩] else []

/-- The entries of blocks that start at an offset. -/
def entries : ℕ → List Frame → List PBFSpatialBlock
  | _, [] => []
  | offset, f :: fs => f.entry inflate offset ++ entries (offset + f.bytes.length) fs

theorem run_of_not_data {f : Frame} (typ : f.typ ≠ utf8 "OSMData") :
    f.nodeCalls inflate = [] := by
  unfold Frame.nodeCalls Frame.run
  split
  · rfl
  · next typ' raw contents =>
    have same : typ' = f.typ := by
      unfold blockContents at contents
      split at contents
      · exact (Prod.mk.inj (Except.ok.inj contents)).1.symm
      · dsimp only at contents
        cases decoded : (decode inflate f.blob).result with
        | error e =>
            rw [decoded] at contents
            cases contents
        | ok raw' =>
            rw [decoded] at contents
            exact (Prod.mk.inj (Except.ok.inj contents)).1.symm
    rw [processBlock, same, if_neg typ]

theorem run_of_data {f : Frame} (typ : f.typ = utf8 "OSMData") {raw : List UInt8}
    (decoded : (decode inflate f.blob).result = .ok raw) :
    f.run inflate noOptions nodeOnly = processOSMData raw noOptions nodeOnly := by
  have contents : (blockContents inflate f.typ f.blob []).result = .ok (f.typ, raw) := by
    rw [blockContents, if_neg (by simp [typ])]
    dsimp only
    rw [decoded]
    rfl
  rw [Frame.run, contents]
  dsimp only
  rw [processBlock, if_pos typ]

/-- What the indexer records for a block, and that the block is read without an error. -/
theorem indexBlob_ok {f : Frame} {offset : ℕ} {blocks : List PBFSpatialBlock}
    (indexed : indexBlob inflate f.typ f.blob offset (offset + f.bytes.length) = .ok blocks) :
    blocks = f.entry inflate offset ∧
      (f.typ = utf8 "OSMData" → (f.run inflate noOptions nodeOnly).2 = none) := by
  unfold indexBlob at indexed
  by_cases typ : f.typ = utf8 "OSMData"
  · rw [if_pos typ] at indexed
    split at indexed
    · cases indexed
    next raw decoded =>
    have run := run_of_data inflate typ decoded
    unfold pbfBlockNodeBounds at indexed
    cases processed : processOSMData raw noOptions nodeOnly with
    | mk calls err =>
        rw [processed] at indexed run
        cases err with
        | some e => cases indexed
        | none =>
            refine ⟨?_, fun _ => by rw [run]⟩
            dsimp only at indexed
            rw [Frame.entry, Frame.nodeCalls, run, nodeExtent]
            dsimp only
            split at indexed
            · next nodes =>
              rw [if_pos nodes, ← Except.ok.inj indexed, Nat.add_sub_cancel_left]
            · next empty => rw [if_neg empty, Except.ok.inj indexed]
  · rw [if_neg typ] at indexed
    obtain rfl := Except.ok.inj indexed
    refine ⟨?_, fun data => absurd data typ⟩
    rw [Frame.entry, run_of_not_data inflate typ]
    rfl

theorem indexStep_none {size bytesRead : ℕ} {r : List UInt8}
    (step : indexStep inflate size bytesRead r = .ok none) : r = [] := by
  unfold indexStep at step
  dsimp only at step
  split at step
  · next e rest noWord =>
    obtain ⟨empty, -⟩ | ⟨-, rfl⟩ := readFull_error noWord
    · exact empty
    · cases step
  split at step
  · cases step
  split at step
  · cases step
  split at step
  · cases step
  split at step
  · cases step
  split at step
  · cases step
  split at step
  · cases step
  split at step
  · cases step
  · cases step

/-- **The index of a file lists the blocks with nodes**, and every block of data is read
without an error. -/
theorem indexBlocks_ok {size bytesRead last : ℕ} {r : List UInt8} {blocks : List PBFSpatialBlock}
    (indexed : indexBlocks inflate size bytesRead r = .ok (blocks, last)) :
    ∃ fs : List Frame, r = stream fs ∧ blocks = entries inflate bytesRead fs ∧
      ∀ f ∈ fs, f.typ = utf8 "OSMData" → (f.run inflate noOptions nodeOnly).2 = none := by
  induction length : r.length using Nat.strong_induction_on generalizing r bytesRead blocks with
  | _ n ih =>
  rw [indexBlocks] at indexed
  split at indexed
  · cases indexed
  · next step =>
    obtain ⟨rfl, -⟩ := Prod.mk.inj (Except.ok.inj indexed)
    exact ⟨[], indexStep_none inflate step, rfl, by simp⟩
  · next first after rest step =>
    obtain ⟨f, rfl, rfl, entry⟩ := indexStep_some inflate step
    cases tail : indexBlocks inflate size (bytesRead + f.bytes.length) rest with
    | error e =>
        rw [tail] at indexed
        cases indexed
    | ok result =>
        obtain ⟨later, last'⟩ := result
        rw [tail] at indexed
        obtain ⟨rfl, rfl⟩ := Prod.mk.inj (Except.ok.inj indexed)
        have shorter := @Frame.bytes_le f _ rest rfl
        obtain ⟨fs, rfl, rfl, sound⟩ := ih _ (length ▸ shorter) tail rfl
        obtain ⟨rfl, first⟩ := indexBlob_ok inflate entry
        exact ⟨f :: fs, by rw [stream, stream, List.flatMap_cons], rfl,
          List.forall_mem_cons.mpr ⟨first, sound⟩⟩

/-- An entry lies where its block does. -/
theorem mem_entries {offset : ℕ} {fs : List Frame} {b : PBFSpatialBlock}
    (here : b ∈ entries inflate offset fs) :
    ∃ (front : List Frame) (f : Frame) (back : List Frame), fs = front ++ f :: back ∧
      b.offset = offset + (stream front).length ∧ b.length = f.bytes.length := by
  induction fs generalizing offset with
  | nil => cases here
  | cons f fs ih =>
      rw [entries] at here
      obtain first | later := List.mem_append.mp here
      · rw [Frame.entry] at first
        split at first
        · obtain rfl := List.mem_singleton.mp first
          exact ⟨[], f, fs, rfl, rfl, rfl⟩
        · cases first
      · obtain ⟨front, g, back, rfl, place, size⟩ := ih later
        refine ⟨f :: front, g, back, rfl, ?_, size⟩
        rw [place, stream, stream, List.flatMap_cons, List.length_append, Nat.add_assoc]

theorem entries_pairwise (offset : ℕ) (fs : List Frame) :
    (entries inflate offset fs).Pairwise fun a b => a.offset + a.length ≤ b.offset := by
  induction fs generalizing offset with
  | nil => exact List.Pairwise.nil
  | cons f fs ih =>
      rw [entries]
      refine List.pairwise_append.mpr ⟨?_, ih _, ?_⟩
      · rw [Frame.entry]
        split
        · exact List.pairwise_singleton _ _
        · exact List.Pairwise.nil
      · intro a first b later
        obtain ⟨front, -, -, -, place, -⟩ := mem_entries inflate later
        rw [Frame.entry] at first
        split at first
        · obtain rfl := List.mem_singleton.mp first
          dsimp only
          omega
        · cases first

end Index

/-! ## Queries -/

/-- The bytes of a block of the index. -/
def cutBlock (file : List UInt8) (b : PBFSpatialBlock) : List UInt8 :=
  (file.drop b.offset).take b.length

section Queries

variable (inflate : List UInt8 → Inflated) (window : CoordWindow F64)

/-- Whether a query returns an entry. -/
def PBFSpatialBlock.meets (b : PBFSpatialBlock) : Bool :=
  0 < b.length && 0 < b.nodeCount && b.bounds.intersects window

/-- Whether a query returns a block. -/
def Frame.meets (f : Frame) : Bool :=
  0 < (nodeExtent (f.nodeCalls inflate)).2 &&
    (nodeExtent (f.nodeCalls inflate)).1.intersects window

/-- The returned ranges of the file put together are the bytes of the returned blocks. -/
theorem cut_entries (file : List UInt8) (front fs : List Frame)
    (whole : file = stream front ++ stream fs) :
    ((entries inflate (stream front).length fs).filter fun b => b.meets window).flatMap
      (cutBlock file) = stream (fs.filter fun f => f.meets inflate window) := by
  induction fs generalizing front with
  | nil => rfl
  | cons f fs ih =>
      have next : stream (front ++ [f]) = stream front ++ f.bytes := by
        rw [stream, List.flatMap_append, List.flatMap_singleton, stream]
      have split : stream (f :: fs) = f.bytes ++ stream fs := List.flatMap_cons
      have rest := ih (front ++ [f]) (by rw [whole, next, split, List.append_assoc])
      rw [next, List.length_append] at rest
      have bytes : cutBlock file ⟨(stream front).length, f.bytes.length,
          (nodeExtent (f.nodeCalls inflate)).1, (nodeExtent (f.nodeCalls inflate)).2⟩ =
            f.bytes := by
        rw [cutBlock, whole, split, List.drop_left, List.take_left]
      rw [entries, List.filter_append, List.flatMap_append, rest, Frame.entry]
      have positive := f.bytes_length
      by_cases nodes : 0 < (nodeExtent (f.nodeCalls inflate)).2
      · rw [if_pos nodes]
        by_cases meets : (nodeExtent (f.nodeCalls inflate)).1.intersects window = true
        · rw [List.filter_cons_of_pos (by simp [PBFSpatialBlock.meets, positive, nodes, meets]),
            List.filter_cons_of_pos (by simp [Frame.meets, nodes, meets]), List.filter_nil,
            List.flatMap_singleton, bytes, stream, stream, List.flatMap_cons]
        · rw [List.filter_cons_of_neg (by simp [PBFSpatialBlock.meets, meets]),
            List.filter_cons_of_neg (by simp [Frame.meets, meets])]
          rfl
      · rw [if_neg nodes, List.filter_cons_of_neg (by simp [Frame.meets, nodes])]
        rfl

/-- A block that a query leaves out reports no node of the window. -/
theorem filter_nodeCalls {f : Frame} (leftOut : f.meets inflate window = false)
    (numeric : AllNumeric (f.nodeCalls inflate)) :
    (f.nodeCalls inflate).filter (Call.inWindow window) = [] := by
  refine List.filter_eq_nil_iff.mpr fun call here inside => ?_
  obtain ⟨nodes, meets⟩ := intersects_of_inWindow numeric here inside
  simp [Frame.meets, nodes, meets] at leftOut

theorem nodeCalls_numeric (f : Frame) : AllNumeric (f.nodeCalls inflate) := by
  unfold Frame.nodeCalls Frame.run
  split
  · simp [AllNumeric]
  · rw [processBlock]
    split
    · exact processOSMData_numeric _
    · simp [AllNumeric]

theorem filter_nodeCalls_meets (fs : List Frame) :
    (fs.flatMap (Frame.nodeCalls inflate)).filter (Call.inWindow window) =
      ((fs.filter fun f => f.meets inflate window).flatMap (Frame.nodeCalls inflate)).filter
        (Call.inWindow window) := by
  induction fs with
  | nil => rfl
  | cons f fs ih =>
      rw [List.flatMap_cons, List.filter_append, ih]
      cases meets : f.meets inflate window with
      | false =>
          rw [List.filter_cons_of_neg (by simp [meets]),
            filter_nodeCalls inflate window meets (nodeCalls_numeric inflate f), List.nil_append]
      | true =>
          rw [List.filter_cons_of_pos (by simp [meets]), List.flatMap_cons, List.filter_append]

/-- The blobs of all headers of a file can be decoded. -/
def HeadersDecode (file : List UInt8) : Prop :=
  ∀ (front : List Frame) (f : Frame) (back : List Frame),
    file = stream (front ++ f :: back) → f.typ = utf8 "OSMHeader" →
      ∃ raw, (decode inflate f.blob).result = .ok raw

/-- Without a header that cannot be decoded, blocks that are no data make no error. -/
theorem run_of_header {f : Frame} (typ : f.typ ≠ utf8 "OSMData")
    (decodes : f.typ = utf8 "OSMHeader" → ∃ raw, (decode inflate f.blob).result = .ok raw) :
    (f.run inflate noOptions nodeOnly).2 = none := by
  by_cases header : f.typ = utf8 "OSMHeader"
  · obtain ⟨raw, decoded⟩ := decodes header
    have contents : (blockContents inflate f.typ f.blob []).result = .ok (f.typ, raw) := by
      rw [blockContents, if_neg (by simp [header])]
      dsimp only
      rw [decoded]
      rfl
    rw [Frame.run, contents]
    dsimp only
    rw [processBlock, if_neg typ]
  · rw [Frame.run, blockContents, if_pos ⟨header, typ⟩]
    dsimp only
    rw [processBlock, if_neg typ]

/-- The calls of a run over blocks that make no error. -/
theorem extract_calls {fs : List Frame}
    (sound : ∀ f ∈ fs, (f.run inflate noOptions nodeOnly).2 = none) :
    (extract inflate noOptions nodeOnly (stream fs)).calls =
      fs.flatMap (Frame.nodeCalls inflate) := by
  have complete := extract_stream inflate noOptions nodeOnly sound
  rw [← List.append_nil (stream fs)] at complete ⊢
  rw [(extract_append inflate noOptions nodeOnly fs [] complete).2.2,
    congrArg Extraction.calls (extract_nil inflate noOptions nodeOnly), List.append_nil]
  rfl

/-- A file that the extraction reads to its end has no other headers. -/
theorem headersDecode_of_complete {file : List UInt8}
    (complete : (extract inflate noOptions nodeOnly file).err = none) :
    HeadersDecode inflate file := by
  rintro front f back rfl header
  have split : stream (front ++ f :: back) = stream (front ++ [f]) ++ stream back := by
    rw [stream, stream, stream, ← List.flatMap_append, List.append_assoc, List.singleton_append]
  rw [split] at complete
  have run := (extract_append inflate noOptions nodeOnly _ _ complete).1 f (by simp)
  rw [Frame.run, blockContents, if_neg (by simp [header])] at run
  dsimp only at run
  cases decoded : (decode inflate f.blob).result with
  | ok raw => exact ⟨raw, rfl⟩
  | error e =>
      rw [decoded] at run
      cases run

/-- **Block index queries are complete** for a file whose headers can be decoded. -/
theorem blocksForWindow_complete (file : List UInt8) (index : List PBFSpatialBlock)
    (built : buildPBFSpatialIndex inflate file = .ok index) (headers : HeadersDecode inflate file)
    (valid : window.valid = true) :
    (blocksForWindow index window).Pairwise (fun a b => a.offset + a.length ≤ b.offset) ∧
    (∀ b ∈ blocksForWindow index window, ∃ (front : List Frame) (f : Frame) (back : List Frame),
      file = stream front ++ f.bytes ++ stream back ∧ b.offset = (stream front).length ∧
        b.length = f.bytes.length) ∧
    (extract inflate noOptions nodeOnly
        ((blocksForWindow index window).flatMap (cutBlock file))).calls.filter
          (Call.inWindow window) =
      (extract inflate noOptions nodeOnly file).calls.filter (Call.inWindow window) := by
  have chosen : blocksForWindow index window = index.filter fun b => b.meets window := by
    rw [blocksForWindow, valid]
    rfl
  have indexed : ∃ last, indexBlocks inflate file.length 0 file = .ok (index, last) := by
    unfold buildPBFSpatialIndex at built
    cases done : indexBlocks inflate file.length 0 file with
    | error e =>
        rw [done] at built
        cases built
    | ok result =>
        obtain ⟨blocks, last⟩ := result
        rw [done] at built
        dsimp only [bind, Except.bind] at built
        split at built
        · cases built
        · obtain rfl := Except.ok.inj built
          exact ⟨last, rfl⟩
  obtain ⟨last, indexed⟩ := indexed
  obtain ⟨fs, rfl, rfl, data⟩ := indexBlocks_ok inflate indexed
  have sound : ∀ f ∈ fs, (f.run inflate noOptions nodeOnly).2 = none := by
    intro f here
    by_cases typ : f.typ = utf8 "OSMData"
    · exact data f here typ
    · obtain ⟨front, back, rfl⟩ := List.append_of_mem here
      exact run_of_header inflate typ fun header => headers front f back rfl header
  have some_sound : ∀ f ∈ fs.filter fun f => f.meets inflate window,
      (f.run inflate noOptions nodeOnly).2 = none := fun f here =>
    sound f (List.mem_of_mem_filter here)
  rw [chosen]
  refine ⟨(entries_pairwise inflate 0 fs).filter _, ?_, ?_⟩
  · intro b here
    obtain ⟨front, f, back, rfl, place, size⟩ :=
      mem_entries inflate (List.mem_of_mem_filter here)
    refine ⟨front, f, back, ?_, place.trans (Nat.zero_add _), size⟩
    rw [stream, List.flatMap_append, List.flatMap_cons, ← List.append_assoc]
    rfl
  · have pieces : ((entries inflate 0 fs).filter fun b => b.meets window).flatMap
        (cutBlock (stream fs)) = stream (fs.filter fun f => f.meets inflate window) :=
      cut_entries inflate window (stream fs) [] fs rfl
    rw [pieces, extract_calls inflate some_sound, extract_calls inflate sound]
    exact (filter_nodeCalls_meets inflate window fs).symm

end Queries

/-! ## A header that cannot be decoded -/

/-- A header block whose blob breaks off within its first field. -/
def brokenHeader : List UInt8 :=
  [0, 0, 0, 13, 10, 9, 0x4F, 0x53, 0x4D, 0x48, 0x65, 0x61, 0x64, 0x65, 0x72, 0x18, 1, 0]

/-- A block of data with one node, at latitude and longitude zero. -/
def oneNode : List UInt8 :=
  [0, 0, 0, 11, 10, 7, 0x4F, 0x53, 0x4D, 0x44, 0x61, 0x74, 0x61, 0x18, 8,
    10, 6, 0x12, 4, 10, 2, 8, 2]

/-- One degree around the origin. -/
def aroundOrigin : CoordWindow F64 :=
  ⟨F64.ofRat (-1), F64.ofRat 1, F64.ofRat (-1), F64.ofRat 1⟩

/-- A decompressor that is never asked. -/
def noZlib : List UInt8 → Inflated := fun _ => ⟨[], false⟩

theorem blocksForWindow_complete_oneNode :
    (extract noZlib noOptions nodeOnly
        ((blocksForWindow [⟨0, 23, ⟨⟨0⟩, ⟨0⟩, ⟨0⟩, ⟨0⟩⟩, 1⟩] aroundOrigin).flatMap
          (cutBlock oneNode))).calls.filter (Call.inWindow aroundOrigin) =
      (extract noZlib noOptions nodeOnly oneNode).calls.filter (Call.inWindow aroundOrigin) :=
  (blocksForWindow_complete noZlib aroundOrigin oneNode _ (by decide +kernel)
    (headersDecode_of_complete noZlib (by decide +kernel)) (by decide +kernel)).2.2

/-- The indexer accepts the file and finds its node, but the extraction of the file stops at
the header. -/
theorem blocksForWindow_brokenHeader :
    ∃ index, buildPBFSpatialIndex noZlib (brokenHeader ++ oneNode) = .ok index ∧
      aroundOrigin.valid = true ∧
      (extract noZlib noOptions nodeOnly
        ((blocksForWindow index aroundOrigin).flatMap
          (cutBlock (brokenHeader ++ oneNode)))).calls.filter (Call.inWindow aroundOrigin) ≠
      (extract noZlib noOptions nodeOnly (brokenHeader ++ oneNode)).calls.filter
        (Call.inWindow aroundOrigin) := by
  refine ⟨[⟨18, 23, ⟨⟨0⟩, ⟨0⟩, ⟨0⟩, ⟨0⟩⟩, 1⟩], by decide +kernel, by decide +kernel, fun same => ?_⟩
  have counted := congrArg List.length same
  revert counted
  decide +kernel

end OsmMini.Core.Pbf

import OsmMini.Core.Pbf.Encoding

/-!
# Nodes that were written

A node is written as a message of its own, or together with others as dense nodes: the differences
of the identifiers and of the coordinates in streams of their own, and the tags of all nodes in one
stream with a zero behind each node, or no such stream when none of the nodes has tags. Fields may
stand in any order, between fields that are not read, and packed numbers may be split anywhere.

`nodeCalls` says which calls a node is reported with. Both forms are reported with these calls
(`processNode_written`, `processDenseNodes_written`).
-/

set_option autoImplicit false

namespace OsmMini.Core.Pbf

open OsmMini.Foundations

/-! ## Tags by their places -/

/-- A tag by the places of its strings; the first place is reserved. -/
structure TagPlaces where
  key : ℕ
  val : ℕ
  named : 0 < key
  keyFits : key < 2 ^ 31
  valFits : val < 2 ^ 31

/-- A field holds packed numbers. -/
def Packs (segs : List (List UInt8)) (vs : List UInt64) : Prop :=
  ∃ split : List (List UInt64), segs = split.map packedNumbers ∧ split.flatten = vs

theorem Packs.values {segs : List (List UInt8)} {vs : List UInt64} (packs : Packs segs vs) :
    packedValues segs = (vs, none) := by
  obtain ⟨split, rfl, rfl⟩ := packs
  exact packedValues_packedNumbers split

theorem Packs.count {segs : List (List UInt8)} {vs : List UInt64} (packs : Packs segs vs) :
    packedValueCount segs = .ok vs.length :=
  packedValueCount_eq_ok_iff.mpr ⟨vs, packs.values, rfl⟩

/-- The strings of the keys that are in the string table. -/
def keyNames (st : List (List UInt8)) (tags : List TagPlaces) : List (List UInt8) :=
  tags.filterMap fun t => st[t.key]?

theorem keyNames_cons (st : List (List UInt8)) (t : TagPlaces) (tags : List TagPlaces) :
    keyNames st (t :: tags) = st[t.key]?.toList ++ keyNames st tags := by
  rw [keyNames, keyNames, List.filterMap_cons]
  cases st[t.key]? <;> rfl

/-- The tags whose strings are in the string table and that are kept; a later value of a key
replaces an earlier one. -/
def tagsOf (st : List (List UInt8)) (keep : Option (List UInt8 → Bool)) (tags : List TagPlaces) :
    Tags :=
  tags.foldl (fun kept t => addTag st keep kept t.key t.val) ∅

/-- Whether one of the keys is an address key. -/
def namesAddress (names : List (List UInt8)) : Bool :=
  names.any fun name => (utf8 "addr:").isPrefixOf name

/-- Whether one of the keys is wanted; without a choice every entity is. -/
def namesWanted (wanted : Option (List UInt8 → Bool)) (names : List (List UInt8)) : Bool :=
  match wanted with
  | none => true
  | some wanted => names.any wanted

theorem place_toNat {n : ℕ} (fits : n < 2 ^ 31) : (UInt64.ofNat n).toNat = n := by
  rw [UInt64.toNat_ofNat', Nat.mod_eq_of_lt (by omega)]

theorem place_toUInt32 {n : ℕ} (fits : n < 2 ^ 31) : (UInt64.ofNat n).toUInt32.toNat = n := by
  rw [UInt64.toUInt32_ofNat', UInt32.toNat_ofNat', Nat.mod_eq_of_lt (by omega)]

theorem place_toInt32 {n : ℕ} (fits : n < 2 ^ 31) :
    (UInt64.ofNat n).toUInt32.toInt32.toInt = n := by
  rw [UInt64.toUInt32_ofNat', UInt32.toInt32_ofNat', Int32.toInt_ofNat_of_lt fits]

theorem place_nonneg {n : ℕ} (fits : n < 2 ^ 31) : ¬(UInt64.ofNat n).toUInt32.toInt32 < 0 := by
  rw [Int32.lt_iff_toInt_lt, place_toInt32 fits]
  exact not_lt.mpr (Int.natCast_nonneg n)

theorem place_ne_zero {n : ℕ} (positive : 0 < n) (fits : n < 2 ^ 31) :
    (UInt64.ofNat n).toUInt32.toInt32 ≠ 0 := by
  rw [Ne, ← Int32.toInt_inj, place_toInt32 fits]
  change ((n : ℤ) ≠ 0)
  exact Int.natCast_ne_zero.mpr positive.ne'

def keyPlaces (tags : List TagPlaces) : List UInt64 := tags.map fun t => UInt64.ofNat t.key

def valPlaces (tags : List TagPlaces) : List UInt64 := tags.map fun t => UInt64.ofNat t.val

/-! ### Going over the keys -/

/-- What is found, or not looked for, is settled by the keys so far. -/
theorem settled {wanted found here : Bool} (later : Bool)
    (known : (!wanted || (found || (wanted && here))) = true) :
    (found || (wanted && here)) = (found || (wanted && (here || later))) := by
  revert wanted found here later
  decide

/-- **Stopping early changes nothing of what is found.** -/
theorem scanWayKeysFrom_found (st : List (List UInt8)) (wantHighway wantAddr : Bool)
    (tags : List TagPlaces) : ∀ highway addr : Bool, ∃ stopped,
    scanWayKeysFrom st wantHighway wantAddr highway addr (keyPlaces tags) =
      (highway || (wantHighway && (keyNames st tags).any fun name => name = utf8 "highway"),
        addr || (wantAddr && namesAddress (keyNames st tags)), stopped) := by
  induction tags with
  | nil =>
      intro highway addr
      refine ⟨false, ?_⟩
      rw [keyPlaces, List.map_nil, scanWayKeysFrom, keyNames, List.filterMap_nil, namesAddress,
        List.any_nil, List.any_nil, Bool.and_false, Bool.and_false, Bool.or_false, Bool.or_false]
  | cons t tags ih =>
      intro highway addr
      have places : keyPlaces (t :: tags) = UInt64.ofNat t.key :: keyPlaces tags := rfl
      rw [places, keyNames_cons, scanWayKeysFrom, place_toNat t.keyFits]
      cases st[t.key]? with
      | none => exact ih highway addr
      | some k =>
          dsimp only [namesAddress, Option.toList_some, List.cons_append, List.nil_append]
          rw [List.any_cons, List.any_cons]
          split_ifs with found
          · rw [Bool.and_eq_true] at found
            exact ⟨true, by rw [← settled _ found.1, ← settled _ found.2]⟩
          · obtain ⟨stopped, later⟩ := ih (highway || (wantHighway && k = utf8 "highway"))
              (addr || (wantAddr && (utf8 "addr:").isPrefixOf k))
            refine ⟨stopped, later.trans ?_⟩
            rw [namesAddress, Bool.and_or_distrib_left, Bool.and_or_distrib_left, Bool.or_assoc,
              Bool.or_assoc]

theorem scanWayKeys_places {keysSegs : List (List UInt8)} {tags : List TagPlaces}
    (keys : Packs keysSegs (keyPlaces tags)) (st : List (List UInt8))
    (wantHighway wantAddr : Bool) :
    scanWayKeys keysSegs st wantHighway wantAddr =
      .ok (wantHighway && (keyNames st tags).any fun name => name = utf8 "highway",
        wantAddr && namesAddress (keyNames st tags)) := by
  obtain ⟨stopped, found⟩ := scanWayKeysFrom_found st wantHighway wantAddr tags false false
  rw [Bool.false_or, Bool.false_or] at found
  rw [scanWayKeys, keys.values]
  dsimp only
  rw [found]
  cases stopped <;> rfl

theorem scanKeys_places {keysSegs : List (List UInt8)} {tags : List TagPlaces}
    (keys : Packs keysSegs (keyPlaces tags)) (st : List (List UInt8)) :
    scanKeys keysSegs st false true = .ok (namesAddress (keyNames st tags)) := by
  rw [scanKeys, scanWayKeys_places keys]
  rfl

theorem hasMatchingKey_places {keysSegs : List (List UInt8)} {tags : List TagPlaces}
    (keys : Packs keysSegs (keyPlaces tags)) (st : List (List UInt8))
    (wanted : Option (List UInt8 → Bool)) :
    hasMatchingKey keysSegs st wanted = .ok (namesWanted wanted (keyNames st tags)) := by
  cases wanted with
  | none => rfl
  | some wanted =>
      have same : ((keyPlaces tags).any fun v => (st[v.toNat]?).any wanted) =
          (keyNames st tags).any wanted := by
        rw [keyPlaces, List.any_map, keyNames, List.any_filterMap]
        congr 1
        funext t
        rw [Function.comp_apply, place_toNat t.keyFits]
        cases st[t.key]? <;> rfl
      rw [hasMatchingKey, keys.values]
      dsimp only [namesWanted]
      rw [same]
      cases (keyNames st tags).any wanted <;> rfl

/-! ### Building the tags -/

theorem pairTags_places (st : List (List UInt8)) (keep : Option (List UInt8 → Bool))
    (tags : List TagPlaces) : ∀ kept : Tags,
    pairTags st keep none none kept (keyPlaces tags) (valPlaces tags) =
      .ok (tags.foldl (fun kept t => addTag st keep kept t.key t.val) kept) := by
  induction tags with
  | nil => exact fun kept => rfl
  | cons t tags ih =>
      intro kept
      have keys : keyPlaces (t :: tags) = UInt64.ofNat t.key :: keyPlaces tags := rfl
      have vals : valPlaces (t :: tags) = UInt64.ofNat t.val :: valPlaces tags := rfl
      rw [keys, vals, pairTags, place_toUInt32 t.keyFits, place_toUInt32 t.valFits, ih,
        List.foldl_cons]

theorem buildTags_places {keysSegs valsSegs : List (List UInt8)} {tags : List TagPlaces}
    (keys : Packs keysSegs (keyPlaces tags)) (vals : Packs valsSegs (valPlaces tags))
    (st : List (List UInt8)) (keep : Option (List UInt8 → Bool)) :
    buildTags keysSegs valsSegs st keep = .ok (tagsOf st keep tags) := by
  rw [buildTags, keys.values, vals.values]
  exact pairTags_places st keep tags ∅

/-! ## Nodes -/

structure PlacedNode where
  id : Int64
  lat : Int64
  lon : Int64
  tags : List TagPlaces

/-- The calls that a node is reported with for its tags. -/
def nodeTagCalls (ctx : BlockCtx) (opts : Options) (cb : Callbacks) (n : PlacedNode)
    (lat lon : F64) : List Call :=
  let names := keyNames ctx.st n.tags
  let node : Node := ⟨n.id, lat, lon, tagsOf ctx.st opts.keepTag n.tags⟩
  (if cb.addressNode && namesAddress names then [.addressNode node] else []) ++
    (if cb.taggedNode && namesWanted opts.taggedNodeKey names && 0 < node.tags.entries.length then
      [.taggedNode node]
    else [])

/-- The calls that a node is reported with. -/
def nodeCalls (ctx : BlockCtx) (opts : Options) (cb : Callbacks) (n : PlacedNode) : List Call :=
  let (lat, lon) := decodeCoord n.lat n.lon ctx
  (if cb.node then [.node n.id lat lon] else []) ++ nodeTagCalls ctx opts cb n lat lon

/-- A node without tags is not reported for its tags. -/
theorem nodeTagCalls_of_none {n : PlacedNode} (noTags : n.tags = []) (ctx : BlockCtx)
    (opts : Options) (cb : Callbacks) (lat lon : F64) :
    nodeTagCalls ctx opts cb n lat lon = [] := by
  rw [nodeTagCalls, noTags]
  cases cb.addressNode <;> cases cb.taggedNode <;> cases opts.taggedNodeKey <;> rfl

/-! ### A message of its own -/

/-- The fields of a message say what a node is. -/
structure IsNode (n : PlacedNode) (fs : List WireField) : Prop where
  typed : Typed [1, 8, 9] [2, 3] fs
  id : (lastVarint 1 fs).getD 0 = zigzagEncode64 n.id
  lat : (lastVarint 8 fs).getD 0 = zigzagEncode64 n.lat
  lon : (lastVarint 9 fs).getD 0 = zigzagEncode64 n.lon
  keys : Packs (segments 2 fs) (keyPlaces n.tags)
  vals : Packs (segments 3 fs) (valPlaces n.tags)

/-- Take a field of a node into its record. -/
def takeNode (r : NodeFields) (f : WireField) : NodeFields where
  id := ((f.varintOf 1).map zigzagDecode64).getD r.id
  lat := ((f.varintOf 8).map zigzagDecode64).getD r.lat
  lon := ((f.varintOf 9).map zigzagDecode64).getD r.lon
  keysSegs := r.keysSegs ++ (f.bytesOf 2).toList
  valsSegs := r.valsSegs ++ (f.bytesOf 3).toList

theorem takeValue_node {fs : List WireField} (typed : Typed [1, 8, 9] [2, 3] fs) {f : WireField}
    (member : f ∈ fs) (r : NodeFields) :
    takeValue (nodeFields f.number) r f.value = (takeNode r f, none) := by
  obtain ⟨is, v, holds⟩ | ⟨is, p, holds⟩ | ⟨noNumber, noBytes⟩ := typed.kinds member
  · simp only [List.mem_cons, List.not_mem_nil, or_false] at is
    rcases is with is | is | is <;>
      simp [nodeFields, takeValue, takeNode, WireField.varintOf, WireField.bytesOf, accept, is,
        holds]
  · simp only [List.mem_cons, List.not_mem_nil, or_false] at is
    rcases is with is | is <;>
      simp [nodeFields, takeValue, takeNode, WireField.varintOf, WireField.bytesOf, accept, is,
        holds]
  · simp only [List.mem_cons, List.not_mem_nil, or_false, not_or] at noNumber noBytes
    obtain ⟨noId, noLat, noLon⟩ := noNumber
    obtain ⟨noKeys, noVals⟩ := noBytes
    rw [takeNode, f.varintOf_ne noId, f.varintOf_ne noLat, f.varintOf_ne noLon,
      f.bytesOf_ne noKeys, f.bytesOf_ne noVals]
    simp [nodeFields, takeValue]

theorem takeFields_node {fs : List WireField} (typed : Typed [1, 8, 9] [2, 3] fs)
    (r : NodeFields) :
    takeFields nodeFields r fs =
      (⟨lastOf zigzagDecode64 1 r.id fs, lastOf zigzagDecode64 8 r.lat fs,
        lastOf zigzagDecode64 9 r.lon fs, r.keysSegs ++ segments 2 fs,
        r.valsSegs ++ segments 3 fs⟩, none) := by
  induction fs generalizing r with
  | nil => simp [takeFields, lastOf, lastVarint, segments]
  | cons f fs ih =>
      rw [takeFields, takeValue_node typed List.mem_cons_self]
      dsimp only
      rw [ih typed.tail]
      simp only [takeNode, lastOf_cons, segments_cons, List.append_assoc]

/-- A signed number that was written, or left out as zero. -/
theorem lastOf_zigzag {k : ℕ} {fs : List WireField} {x : Int64}
    (written : (lastVarint k fs).getD 0 = zigzagEncode64 x) :
    lastOf zigzagDecode64 k 0 fs = x :=
  (lastOf_written written).trans (zigzagDecode64_encode x)

/-- What a node is reported with, when its tags are read from its own message. -/
theorem reportNode_written {r : NodeFields} {n : PlacedNode} (isId : r.id = n.id)
    (keys : Packs r.keysSegs (keyPlaces n.tags)) (vals : Packs r.valsSegs (valPlaces n.tags))
    (ctx : BlockCtx) (opts : Options) (cb : Callbacks) (lat lon : F64) :
    reportNode r lat lon ctx opts cb = .ok (nodeTagCalls ctx opts cb n lat lon) := by
  rw [reportNode, scanKeys_places keys, hasMatchingKey_places keys, buildTags_places keys vals,
    isId, nodeTagCalls]
  cases cb.addressNode <;> cases cb.taggedNode <;> cases namesAddress (keyNames ctx.st n.tags) <;>
    cases namesWanted opts.taggedNodeKey (keyNames ctx.st n.tags) <;> rfl

/-- **A node is reported as it was written.** -/
theorem processNode_written {n : PlacedNode} {fs : List WireField} (isNode : IsNode n fs)
    (ctx : BlockCtx) (opts : Options) (cb : Callbacks) :
    processNode (encodeMessage fs) ctx opts cb = (nodeCalls ctx opts cb n, none) := by
  have parsed := parseMessage_encodeMessage (takeFields_node isNode.typed ⟨0, 0, 0, [], []⟩)
  rw [lastOf_zigzag isNode.id, lastOf_zigzag isNode.lat, lastOf_zigzag isNode.lon,
    List.nil_append, List.nil_append] at parsed
  rw [processNode, parsed]
  dsimp only
  rw [reportNode_written rfl isNode.keys isNode.vals]
  rfl

/-! ### Dense nodes -/

/-- The places of tags, keys and values in turn. -/
def pairPlaces (tags : List TagPlaces) : List UInt64 :=
  tags.flatMap fun t => [UInt64.ofNat t.key, UInt64.ofNat t.val]

/-- The tags of a node with the zero behind them. -/
def closedPlaces (n : PlacedNode) : List UInt64 := pairPlaces n.tags ++ [0]

/-- The streams of a message say what some nodes are. -/
structure IsDense (nodes : List PlacedNode) (fs : List WireField) : Prop where
  typed : Typed [] [1, 8, 9, 10] fs
  ids : Packs (segments 1 fs) ((deltas 0 (nodes.map PlacedNode.id)).map zigzagEncode64)
  lats : Packs (segments 8 fs) ((deltas 0 (nodes.map PlacedNode.lat)).map zigzagEncode64)
  lons : Packs (segments 9 fs) ((deltas 0 (nodes.map PlacedNode.lon)).map zigzagEncode64)
  kvs : Packs (segments 10 fs) (nodes.flatMap closedPlaces) ∨
    Packs (segments 10 fs) [] ∧ ∀ n ∈ nodes, n.tags = []

/-- Take a field of dense nodes into the record of the streams. -/
def takeDense (r : DenseFields) (f : WireField) : DenseFields where
  idSegs := r.idSegs ++ (f.bytesOf 1).toList
  latSegs := r.latSegs ++ (f.bytesOf 8).toList
  lonSegs := r.lonSegs ++ (f.bytesOf 9).toList
  kvSegs := r.kvSegs ++ (f.bytesOf 10).toList

theorem takeValue_dense {fs : List WireField} (typed : Typed [] [1, 8, 9, 10] fs) {f : WireField}
    (member : f ∈ fs) (r : DenseFields) :
    takeValue (denseFields f.number) r f.value = (takeDense r f, none) := by
  obtain ⟨is, -⟩ | ⟨is, p, holds⟩ | ⟨-, unread⟩ := typed.kinds member
  · exact absurd is List.not_mem_nil
  · simp only [List.mem_cons, List.not_mem_nil, or_false] at is
    rcases is with is | is | is | is <;>
      simp [denseFields, takeValue, takeDense, WireField.bytesOf, accept, is, holds]
  · simp only [List.mem_cons, List.not_mem_nil, or_false, not_or] at unread
    obtain ⟨noIds, noLats, noLons, noKvs⟩ := unread
    rw [takeDense, f.bytesOf_ne noIds, f.bytesOf_ne noLats, f.bytesOf_ne noLons,
      f.bytesOf_ne noKvs]
    simp [denseFields, takeValue]

theorem takeFields_dense {fs : List WireField} (typed : Typed [] [1, 8, 9, 10] fs)
    (r : DenseFields) :
    takeFields denseFields r fs =
      (⟨r.idSegs ++ segments 1 fs, r.latSegs ++ segments 8 fs, r.lonSegs ++ segments 9 fs,
        r.kvSegs ++ segments 10 fs⟩, none) := by
  induction fs generalizing r with
  | nil => simp [takeFields, segments]
  | cons f fs ih =>
      rw [takeFields, takeValue_dense typed List.mem_cons_self]
      dsimp only
      rw [ih typed.tail]
      simp only [takeDense, segments_cons, List.append_assoc]

theorem pairPlaces_cons (t : TagPlaces) (tags : List TagPlaces) :
    pairPlaces (t :: tags) = UInt64.ofNat t.key :: UInt64.ofNat t.val :: pairPlaces tags := rfl

/-- What the tags of a node select. -/
def scanned (ctx : BlockCtx) (opts : Options) (cb : Callbacks) (scan : DenseScan)
    (tags : List TagPlaces) : DenseScan where
  pairCount := scan.pairCount + tags.length
  isAddr := scan.isAddr || (cb.addressNode && namesAddress (keyNames ctx.st tags))
  taggedCandidate := scan.taggedCandidate ||
    (cb.taggedNode && opts.taggedNodeKey.any fun key => (keyNames ctx.st tags).any key)

theorem scanned_none (ctx : BlockCtx) (opts : Options) (cb : Callbacks) (scan : DenseScan) :
    scanned ctx opts cb scan [] = scan := by
  cases opts.taggedNodeKey <;> simp [scanned, keyNames, namesAddress]

theorem scanned_cons (ctx : BlockCtx) (opts : Options) (cb : Callbacks) (scan : DenseScan)
    (t : TagPlaces) (tags : List TagPlaces) :
    scanned ctx opts cb (scan.add (UInt64.ofNat t.key).toUInt32.toInt32 ctx opts cb) tags =
      scanned ctx opts cb scan (t :: tags) := by
  rw [DenseScan.add]
  dsimp only
  rw [if_neg (place_nonneg t.keyFits), place_toInt32 t.keyFits, Int.toNat_natCast]
  rw [scanned, scanned, keyNames_cons]
  cases ctx.st[t.key]? with
  | none => simp [Nat.add_assoc, Nat.add_comm 1]
  | some k =>
      cases opts.taggedNodeKey with
      | none =>
          simp [namesAddress, Nat.add_assoc, Nat.add_comm 1, Bool.and_or_distrib_left,
            Bool.or_assoc]
      | some key =>
          simp [namesAddress, Nat.add_assoc, Nat.add_comm 1, Bool.and_or_distrib_left,
            Bool.or_assoc]

/-- The scan goes over the tags of a node and the zero behind them. -/
theorem scanDensePairs_places (ctx : BlockCtx) (opts : Options) (cb : Callbacks)
    (tags : List TagPlaces) (rest : List UInt64) : ∀ scan : DenseScan,
    scanDensePairs ctx opts cb none scan (pairPlaces tags ++ 0 :: rest) =
      .ok (scanned ctx opts cb scan tags, rest) := by
  induction tags with
  | nil =>
      intro scan
      rw [scanned_none]
      cases rest <;> rfl
  | cons t tags ih =>
      intro scan
      rw [pairPlaces_cons, List.cons_append, List.cons_append, scanDensePairs,
        if_neg (place_ne_zero t.named t.keyFits), ih, scanned_cons]

theorem denseTags_places (st : List (List UInt8)) (keep : Option (List UInt8 → Bool))
    (tags : List TagPlaces) (rest : List UInt64) : ∀ kept : Tags,
    denseTags st keep tags.length kept (pairPlaces tags ++ rest) =
      tags.foldl (fun kept t => addTag st keep kept t.key t.val) kept := by
  induction tags with
  | nil =>
      intro kept
      rw [List.length_nil, denseTags, List.foldl_nil]
  | cons t tags ih =>
      intro kept
      have inTable : ¬((UInt64.ofNat t.key).toUInt32.toInt32 < 0 ∨
          (UInt64.ofNat t.val).toUInt32.toInt32 < 0) :=
        not_or.mpr ⟨place_nonneg t.keyFits, place_nonneg t.valFits⟩
      rw [pairPlaces_cons, List.cons_append, List.cons_append, List.length_cons, denseTags,
        List.foldl_cons, if_neg inTable, place_toInt32 t.keyFits, place_toInt32 t.valFits,
        Int.toNat_natCast, Int.toNat_natCast, ih]

/-- What the stream of tags holds for some nodes. -/
def TagStream (nodes : List PlacedNode) (kv : List UInt64) : Prop :=
  kv = nodes.flatMap closedPlaces ∨ kv = [] ∧ ∀ n ∈ nodes, n.tags = []

/-- The scan leaves the tags of the later nodes, and the pairs that it counted are the tags. -/
theorem scanDensePairs_stream {n : PlacedNode} {nodes : List PlacedNode} {kv : List UInt64}
    (stream : TagStream (n :: nodes) kv) (ctx : BlockCtx) (opts : Options) (cb : Callbacks)
    (wanted : Bool) : ∃ rest,
    scanDensePairs ctx opts cb none ⟨0, false, wanted⟩ kv =
        .ok (scanned ctx opts cb ⟨0, false, wanted⟩ n.tags, rest) ∧
      denseTags ctx.st opts.keepTag n.tags.length ∅ kv = tagsOf ctx.st opts.keepTag n.tags ∧
      TagStream nodes rest := by
  rcases stream with whole | ⟨empty, none⟩
  · have parts : kv = pairPlaces n.tags ++ 0 :: nodes.flatMap closedPlaces := by
      rw [whole, List.flatMap_cons, closedPlaces, List.append_assoc]
      rfl
    refine ⟨nodes.flatMap closedPlaces, ?_, ?_, Or.inl rfl⟩
    · rw [parts, scanDensePairs_places]
    · rw [parts, denseTags_places]
      rfl
  · have noTags : n.tags = [] := none n List.mem_cons_self
    refine ⟨[], ?_, ?_, Or.inr ⟨rfl, fun m member => none m (List.mem_cons_of_mem n member)⟩⟩
    · rw [empty, noTags, scanned_none]
      rfl
    · rw [empty, noTags]
      rfl

/-- **A dense node is reported for its tags as a node of its own is.** -/
theorem reportDenseNode_written {n : PlacedNode} {nodes : List PlacedNode} {kv : List UInt64}
    (ctx : BlockCtx) (opts : Options) (cb : Callbacks) (lat lon : F64)
    (stream : (cb.addressNode || cb.taggedNode) = true → TagStream (n :: nodes) kv) : ∃ rest,
    reportDenseNode ctx opts cb n.id lat lon kv none =
        .ok (nodeTagCalls ctx opts cb n lat lon, rest) ∧
      ((cb.addressNode || cb.taggedNode) = true → TagStream nodes rest) := by
  cases reads : cb.addressNode || cb.taggedNode with
  | false =>
      obtain ⟨noAddress, noTagged⟩ := Bool.or_eq_false_iff.mp reads
      refine ⟨kv, ?_, nofun⟩
      rw [reportDenseNode, nodeTagCalls, noAddress, noTagged]
      rfl
  | true =>
      obtain ⟨rest, scans, tags, later⟩ := scanDensePairs_stream (stream reads) ctx opts cb
        (cb.taggedNode && opts.taggedNodeKey.isNone)
      refine ⟨rest, ?_, fun _ => later⟩
      have notSkipped : (!cb.addressNode && !cb.taggedNode) = false := by
        rw [← Bool.not_or, reads]
        rfl
      have candidate : (cb.taggedNode && opts.taggedNodeKey.isNone ||
          (cb.taggedNode && opts.taggedNodeKey.any fun key => (keyNames ctx.st n.tags).any key)) =
          (cb.taggedNode && namesWanted opts.taggedNodeKey (keyNames ctx.st n.tags)) := by
        cases opts.taggedNodeKey <;> simp [namesWanted]
      rw [reportDenseNode, notSkipped, if_neg Bool.false_ne_true]
      dsimp only
      rw [scans]
      simp only [scanned, candidate, Nat.zero_add, Bool.false_or, bind, Except.bind, pure,
        Except.pure, tags]
      by_cases noTags : n.tags = []
      · rw [nodeTagCalls_of_none noTags, noTags]
        rfl
      · have some : n.tags.length ≠ 0 := fun none => noTags (List.length_eq_zero_iff.mp none)
        rw [decide_eq_false some, Bool.false_or, nodeTagCalls]
        cases cb.addressNode <;> cases namesAddress (keyNames ctx.st n.tags) <;>
          cases cb.taggedNode && namesWanted opts.taggedNodeKey (keyNames ctx.st n.tags) <;> rfl

/-- What the sums of a coordinate stream yield for the next node. -/
theorem next_delta (acc x : Int64) : acc + zigzagDecode64 (zigzagEncode64 (x - acc)) = x := by
  rw [zigzagDecode64_encode, Int64.add_comm, Int64.sub_add_cancel]

/-- The nodes from some sums on, when the streams hold the differences from these sums. -/
theorem denseNodes_written (ctx : BlockCtx) (opts : Options) (cb : Callbacks)
    (nodes : List PlacedNode) : ∀ (id lat lon : Int64) (kv : List UInt64),
    ((cb.addressNode || cb.taggedNode) = true → TagStream nodes kv) →
    denseNodes ctx opts cb none nodes.length
        ⟨id, lat, lon, (deltas id (nodes.map PlacedNode.id)).map zigzagEncode64,
          (deltas lat (nodes.map PlacedNode.lat)).map zigzagEncode64,
          (deltas lon (nodes.map PlacedNode.lon)).map zigzagEncode64, kv⟩ =
      (nodes.flatMap (nodeCalls ctx opts cb), none) := by
  induction nodes with
  | nil => exact fun id lat lon kv _ => rfl
  | cons n nodes ih =>
      intro id lat lon kv stream
      obtain ⟨rest, reported, later⟩ := reportDenseNode_written ctx opts cb
        (decodeCoord n.lat n.lon ctx).1 (decodeCoord n.lat n.lon ctx).2 stream
      rw [List.length_cons, denseNodes]
      simp only [List.map_cons, deltas, List.head?_cons, Option.getD_some, List.tail_cons,
        next_delta]
      rw [reported]
      dsimp only
      rw [ih n.id n.lat n.lon rest later, List.flatMap_cons, nodeCalls]

theorem deltas_length (previous : Int64) (xs : List Int64) :
    (deltas previous xs).length = xs.length := by
  induction xs generalizing previous with
  | nil => rfl
  | cons x xs ih => rw [deltas, List.length_cons, List.length_cons, ih]

/-- **Dense nodes are reported as they were written**, like nodes of their own. -/
theorem processDenseNodes_written {nodes : List PlacedNode} {fs : List WireField}
    (isDense : IsDense nodes fs) (ctx : BlockCtx) (opts : Options) (cb : Callbacks) :
    processDenseNodes (encodeMessage fs) ctx opts cb =
      (nodes.flatMap (nodeCalls ctx opts cb), none) := by
  have parsed := parseMessage_encodeMessage (takeFields_dense isDense.typed ⟨[], [], [], []⟩)
  simp only [List.nil_append] at parsed
  obtain ⟨kv, holds, stream⟩ : ∃ kv, Packs (segments 10 fs) kv ∧ TagStream nodes kv := by
    rcases isDense.kvs with whole | ⟨empty, none⟩
    · exact ⟨_, whole, Or.inl rfl⟩
    · exact ⟨[], empty, Or.inr ⟨rfl, none⟩⟩
  have counted : denseCount ⟨segments 1 fs, segments 8 fs, segments 9 fs, segments 10 fs⟩ =
      .ok nodes.length := by
    rw [denseCount, isDense.ids.count, isDense.lats.count, isDense.lons.count, holds.count]
    simp only [List.length_map, deltas_length, bind, Except.bind, pure, Except.pure]
    by_cases none : nodes.length = 0
    · rw [if_pos none, none]
    · rw [if_neg none, if_neg (by simp)]
  rw [processDenseNodes, parsed]
  dsimp only
  rw [counted]
  dsimp only
  rw [isDense.ids.values, isDense.lats.values, isDense.lons.values, holds.values]
  exact denseNodes_written ctx opts cb nodes 0 0 0 kv fun _ => stream

end OsmMini.Core.Pbf

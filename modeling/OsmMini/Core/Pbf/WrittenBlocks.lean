import OsmMini.Core.Pbf.DataBlock
import OsmMini.Core.Pbf.WrittenNodes

/-!
# Blocks that were written

A block is written with its strings, the parameters of its coordinates, and groups of nodes, dense
nodes, ways and relations. `Entity.calls` says which calls an entity is reported with, from the
strings and the parameters alone.

A written block is reported without an error, every entity with its calls and in the order in which
it was written (`processOSMData_written`). So two blocks that say the same are reported alike,
whatever form was chosen for their nodes, in whatever order the fields stand, and wherever packed
numbers were split.
-/

set_option autoImplicit false

namespace OsmMini.Core.Pbf

open OsmMini.Foundations

/-- Signed numbers are decoded one by one. -/
theorem zigzag_values (xs : List Int64) : (xs.map zigzagEncode64).map zigzagDecode64 = xs := by
  rw [List.map_map]
  calc xs.map (zigzagDecode64 ∘ zigzagEncode64)
      = xs.map id := List.map_congr_left fun x _ => zigzagDecode64_encode x
    _ = xs := List.map_id xs

/-! ## Ways -/

structure PlacedWay where
  id : Int64
  refs : List Int64
  tags : List TagPlaces

/-- The calls that a way is reported with. -/
def wayCalls (ctx : BlockCtx) (opts : Options) (cb : Callbacks) (w : PlacedWay) : List Call :=
  let names := keyNames ctx.st w.tags
  let way : Way := ⟨w.id, if opts.emitWayNodeIDs then w.refs else [],
    tagsOf ctx.st opts.keepTag w.tags⟩
  (if cb.highwayWay && names.any fun name => name = utf8 "highway" then [.highwayWay way]
    else []) ++
    (if cb.addressWay && namesAddress names then [.addressWay way] else []) ++
    (if cb.taggedWay && namesWanted opts.taggedWayKey names && 0 < way.tags.entries.length then
      [.taggedWay way]
    else [])

theorem wayCalls_of_none {w : PlacedWay} (noTags : w.tags = []) (ctx : BlockCtx) (opts : Options)
    (cb : Callbacks) : wayCalls ctx opts cb w = [] := by
  rw [wayCalls, noTags]
  cases cb.highwayWay <;> cases cb.addressWay <;> cases cb.taggedWay <;>
    cases opts.taggedWayKey <;> rfl

/-- The fields of a message say what a way is. -/
structure IsWay (w : PlacedWay) (fs : List WireField) : Prop where
  typed : Typed [1] [2, 3, 8] fs
  id : (lastVarint 1 fs).getD 0 = w.id.toUInt64
  keys : Packs (segments 2 fs) (keyPlaces w.tags)
  vals : Packs (segments 3 fs) (valPlaces w.tags)
  refs : Packs (segments 8 fs) ((deltas 0 w.refs).map zigzagEncode64)

/-- Take a field of a way into its record. -/
def takeWay (r : WayFields) (f : WireField) : WayFields where
  id := ((f.varintOf 1).map UInt64.toInt64).getD r.id
  keysSegs := r.keysSegs ++ (f.bytesOf 2).toList
  valsSegs := r.valsSegs ++ (f.bytesOf 3).toList
  refsSegs := r.refsSegs ++ (f.bytesOf 8).toList

theorem takeValue_way {fs : List WireField} (typed : Typed [1] [2, 3, 8] fs) {f : WireField}
    (member : f ∈ fs) (r : WayFields) :
    takeValue (wayFields f.number) r f.value = (takeWay r f, none) := by
  obtain ⟨is, v, holds⟩ | ⟨is, p, holds⟩ | ⟨noId, unread⟩ := typed.kinds member
  · have isId : f.number = 1 := List.mem_singleton.mp is
    simp [wayFields, takeValue, takeWay, WireField.varintOf, WireField.bytesOf, accept, isId,
      holds]
  · simp only [List.mem_cons, List.not_mem_nil, or_false] at is
    rcases is with is | is | is <;>
      simp [wayFields, takeValue, takeWay, WireField.varintOf, WireField.bytesOf, accept, is, holds]
  · simp only [List.mem_cons, List.not_mem_nil, or_false, not_or] at noId unread
    obtain ⟨noKeys, noVals, noRefs⟩ := unread
    rw [takeWay, f.varintOf_ne noId, f.bytesOf_ne noKeys, f.bytesOf_ne noVals,
      f.bytesOf_ne noRefs]
    simp [wayFields, takeValue]

theorem takeFields_way {fs : List WireField} (typed : Typed [1] [2, 3, 8] fs) (r : WayFields) :
    takeFields wayFields r fs =
      (⟨lastOf UInt64.toInt64 1 r.id fs, r.keysSegs ++ segments 2 fs, r.valsSegs ++ segments 3 fs,
        r.refsSegs ++ segments 8 fs⟩, none) := by
  induction fs generalizing r with
  | nil => simp [takeFields, lastOf, lastVarint, segments]
  | cons f fs ih =>
      rw [takeFields, takeValue_way typed List.mem_cons_self]
      dsimp only
      rw [ih typed.tail]
      simp only [takeWay, lastOf_cons, segments_cons, List.append_assoc]

/-- The references of a way are read back. -/
theorem decodeWayRefs_packs {segs : List (List UInt8)} {refs : List Int64}
    (packs : Packs segs ((deltas 0 refs).map zigzagEncode64)) :
    decodeWayRefs segs = .ok refs := by
  obtain ⟨split, rfl, whole⟩ := packs
  have written : ∀ vs ∈ split, packedNumbers vs = packedField (vs.map zigzagDecode64) := by
    intro vs member
    rw [packedNumbers, packedField, List.flatMap_map]
    refine List.flatMap_congr fun v inside => ?_
    have isDelta : v ∈ (deltas 0 refs).map zigzagEncode64 :=
      whole ▸ List.mem_flatten.mpr ⟨vs, member, inside⟩
    obtain ⟨d, -, rfl⟩ := List.mem_map.mp isDelta
    rw [zigzagDecode64_encode, zigzagEncode64, UInt64.toNat_ofNat',
      Nat.mod_eq_of_lt (Varint.zigzag_lt d)]
    rfl
  have segs : split.map packedNumbers = (split.map (List.map zigzagDecode64)).map packedField := by
    rw [List.map_map]
    exact List.map_congr_left written
  rw [segs]
  refine decodeWayRefs_fields ?_
  rw [← List.map_flatten, whole, zigzag_values]

/-- Without fields for keys there are no tags. -/
theorem tags_of_isEmpty {segs : List (List UInt8)} {tags : List TagPlaces}
    (keys : Packs segs (keyPlaces tags)) (empty : segs.isEmpty = true) : tags = [] := by
  have values := keys.values
  rw [List.isEmpty_iff.mp empty, packedValues_nil] at values
  exact List.map_eq_nil_iff.mp (Prod.mk.inj values).1.symm

theorem reportWay_written {r : WayFields} {w : PlacedWay} (isId : r.id = w.id)
    (keys : Packs r.keysSegs (keyPlaces w.tags)) (vals : Packs r.valsSegs (valPlaces w.tags))
    (refs : Packs r.refsSegs ((deltas 0 w.refs).map zigzagEncode64)) (ctx : BlockCtx)
    (opts : Options) (cb : Callbacks) :
    reportWay r ctx opts cb = .ok (wayCalls ctx opts cb w) := by
  rw [reportWay]
  by_cases empty : r.keysSegs.isEmpty = true
  · rw [if_pos empty, wayCalls_of_none (tags_of_isEmpty keys empty)]
    rfl
  · rw [if_neg empty, scanWayKeys_places keys, hasMatchingKey_places keys,
      buildTags_places keys vals, decodeWayRefs_packs refs, isId, wayCalls]
    dsimp only
    generalize ((keyNames ctx.st w.tags).any fun name => name = utf8 "highway") = isHighway
    generalize namesAddress (keyNames ctx.st w.tags) = isAddr
    generalize namesWanted opts.taggedWayKey (keyNames ctx.st w.tags) = isWanted
    cases cb.highwayWay <;> cases cb.addressWay <;> cases cb.taggedWay <;> cases isHighway <;>
      cases isAddr <;> cases isWanted <;> cases opts.emitWayNodeIDs <;> rfl

/-- **A way is reported as it was written.** -/
theorem processWay_written {w : PlacedWay} {fs : List WireField} (isWay : IsWay w fs)
    (ctx : BlockCtx) (opts : Options) (cb : Callbacks) :
    processWay (encodeMessage fs) ctx opts cb = (wayCalls ctx opts cb w, none) := by
  have parsed := parseMessage_encodeMessage (takeFields_way isWay.typed ⟨0, [], [], []⟩)
  have isId : lastOf UInt64.toInt64 1 0 fs = w.id :=
    (lastOf_written isWay.id).trans (Int64.toInt64_toUInt64 w.id)
  rw [processWay, parsed]
  dsimp only
  rw [reportWay_written isId isWay.keys isWay.vals isWay.refs]
  rfl

/-! ## Relations -/

/-- A member by the place of its role. A type that is not known leaves the member out. -/
structure PlacedMember where
  type : UInt32
  id : Int64
  role : ℕ
  roleFits : role < 2 ^ 31

structure PlacedRelation where
  id : Int64
  members : List PlacedMember
  tags : List TagPlaces

def membersOf (st : List (List UInt8)) (members : List PlacedMember) : List Member :=
  members.filterMap fun m =>
    (memberType m.type).map fun type => ⟨type, m.id, (st[m.role]?).getD []⟩

/-- The calls that a relation is reported with. -/
def relationCalls (ctx : BlockCtx) (opts : Options) (cb : Callbacks) (r : PlacedRelation) :
    List Call :=
  let names := keyNames ctx.st r.tags
  let relation : Relation := ⟨r.id, if opts.emitRelationMembers then membersOf ctx.st r.members
    else [], tagsOf ctx.st opts.keepTag r.tags⟩
  (if cb.addressRelation && namesAddress names then [.addressRelation relation] else []) ++
    (if cb.taggedRelation && namesWanted opts.taggedRelationKey names &&
        0 < relation.tags.entries.length then
      [.taggedRelation relation]
    else [])

theorem relationCalls_of_none {r : PlacedRelation} (noTags : r.tags = []) (ctx : BlockCtx)
    (opts : Options) (cb : Callbacks) : relationCalls ctx opts cb r = [] := by
  rw [relationCalls, noTags]
  cases cb.addressRelation <;> cases cb.taggedRelation <;> cases opts.taggedRelationKey <;> rfl

/-- The fields of a message say what a relation is. -/
structure IsRelation (r : PlacedRelation) (fs : List WireField) : Prop where
  typed : Typed [1] [2, 3, 8, 9, 10] fs
  id : (lastVarint 1 fs).getD 0 = r.id.toUInt64
  keys : Packs (segments 2 fs) (keyPlaces r.tags)
  vals : Packs (segments 3 fs) (valPlaces r.tags)
  roles : Packs (segments 8 fs) (r.members.map fun m => UInt64.ofNat m.role)
  memids : Packs (segments 9 fs) ((deltas 0 (r.members.map PlacedMember.id)).map zigzagEncode64)
  types : Packs (segments 10 fs) (r.members.map fun m => m.type.toUInt64)

/-- Take a field of a relation into its record. -/
def takeRelation (r : RelationFields) (f : WireField) : RelationFields where
  id := ((f.varintOf 1).map UInt64.toInt64).getD r.id
  keysSegs := r.keysSegs ++ (f.bytesOf 2).toList
  valsSegs := r.valsSegs ++ (f.bytesOf 3).toList
  rolesSegs := r.rolesSegs ++ (f.bytesOf 8).toList
  memidsSegs := r.memidsSegs ++ (f.bytesOf 9).toList
  typesSegs := r.typesSegs ++ (f.bytesOf 10).toList

theorem takeValue_relation {fs : List WireField} (typed : Typed [1] [2, 3, 8, 9, 10] fs)
    {f : WireField} (member : f ∈ fs) (r : RelationFields) :
    takeValue (relationFields f.number) r f.value = (takeRelation r f, none) := by
  obtain ⟨is, v, holds⟩ | ⟨is, p, holds⟩ | ⟨noId, unread⟩ := typed.kinds member
  · have isId : f.number = 1 := List.mem_singleton.mp is
    simp [relationFields, takeValue, takeRelation, WireField.varintOf, WireField.bytesOf, accept,
      isId, holds]
  · simp only [List.mem_cons, List.not_mem_nil, or_false] at is
    rcases is with is | is | is | is | is <;>
      simp [relationFields, takeValue, takeRelation, WireField.varintOf, WireField.bytesOf, accept,
        is, holds]
  · simp only [List.mem_cons, List.not_mem_nil, or_false, not_or] at noId unread
    obtain ⟨noKeys, noVals, noRoles, noMemids, noTypes⟩ := unread
    rw [takeRelation, f.varintOf_ne noId, f.bytesOf_ne noKeys, f.bytesOf_ne noVals,
      f.bytesOf_ne noRoles, f.bytesOf_ne noMemids, f.bytesOf_ne noTypes]
    simp [relationFields, takeValue]

theorem takeFields_relation {fs : List WireField} (typed : Typed [1] [2, 3, 8, 9, 10] fs)
    (r : RelationFields) :
    takeFields relationFields r fs =
      (⟨lastOf UInt64.toInt64 1 r.id fs, r.keysSegs ++ segments 2 fs, r.valsSegs ++ segments 3 fs,
        r.rolesSegs ++ segments 8 fs, r.memidsSegs ++ segments 9 fs,
        r.typesSegs ++ segments 10 fs⟩, none) := by
  induction fs generalizing r with
  | nil => simp [takeFields, lastOf, lastVarint, segments]
  | cons f fs ih =>
      rw [takeFields, takeValue_relation typed List.mem_cons_self]
      dsimp only
      rw [ih typed.tail]
      simp only [takeRelation, lastOf_cons, segments_cons, List.append_assoc]

theorem decodePacked_packs {α : Type} {segs : List (List UInt8)} {vs : List UInt64}
    (packs : Packs segs vs) (decode : UInt64 → α) :
    decodePacked decode segs = .ok (vs.map decode) := by
  rw [decodePacked, packs.values]
  rfl

/-- The three streams of the members are read in step. -/
theorem relationMembers_written (st : List (List UInt8)) (members : List PlacedMember) :
    ∀ acc : Int64,
    relationMembers st acc (members.map fun m => (UInt64.ofNat m.role).toUInt32.toInt32)
        (deltas acc (members.map PlacedMember.id)) (members.map PlacedMember.type) =
      membersOf st members := by
  induction members with
  | nil => exact fun acc => rfl
  | cons m members ih =>
      intro acc
      have next : acc + (m.id - acc) = m.id := by rw [Int64.add_comm, Int64.sub_add_cancel]
      rw [List.map_cons, List.map_cons, List.map_cons, deltas, relationMembers, next, ih,
        if_neg (place_nonneg m.roleFits), place_toInt32 m.roleFits, Int.toNat_natCast, membersOf,
        membersOf, List.filterMap_cons]
      cases memberType m.type <;> rfl

theorem reportRelation_written {r : RelationFields} {rel : PlacedRelation} (isId : r.id = rel.id)
    (keys : Packs r.keysSegs (keyPlaces rel.tags)) (vals : Packs r.valsSegs (valPlaces rel.tags))
    (roles : Packs r.rolesSegs (rel.members.map fun m => UInt64.ofNat m.role))
    (memids : Packs r.memidsSegs
      ((deltas 0 (rel.members.map PlacedMember.id)).map zigzagEncode64))
    (types : Packs r.typesSegs (rel.members.map fun m => m.type.toUInt64)) (ctx : BlockCtx)
    (opts : Options) (cb : Callbacks) :
    reportRelation r ctx opts cb = .ok (relationCalls ctx opts cb rel) := by
  have isRoles : decodePackedInt32Segments r.rolesSegs =
      .ok (rel.members.map fun m => (UInt64.ofNat m.role).toUInt32.toInt32) := by
    rw [decodePackedInt32Segments, decodePacked_packs roles, List.map_map]
    rfl
  have isTypes : decodePackedU32Segments r.typesSegs =
      .ok (rel.members.map PlacedMember.type) := by
    rw [decodePackedU32Segments, decodePacked_packs types, List.map_map]
    refine congrArg Except.ok (List.map_congr_left fun m _ => ?_)
    exact UInt32.toUInt32_toUInt64 m.type
  have isMemids : decodePackedSint64Segments r.memidsSegs =
      .ok (deltas 0 (rel.members.map PlacedMember.id)) := by
    rw [decodePackedSint64Segments, decodePacked_packs memids, zigzag_values]
  rw [reportRelation]
  by_cases empty : r.keysSegs.isEmpty = true
  · rw [if_pos empty, relationCalls_of_none (tags_of_isEmpty keys empty)]
    rfl
  · rw [if_neg empty, scanKeys_places keys, hasMatchingKey_places keys,
      buildTags_places keys vals, isRoles, isTypes, isMemids, isId, relationCalls]
    dsimp only [bind, Except.bind, pure, Except.pure]
    rw [relationMembers_written]
    generalize tagsOf ctx.st opts.keepTag rel.tags = tags
    generalize namesAddress (keyNames ctx.st rel.tags) = isAddr
    generalize namesWanted opts.taggedRelationKey (keyNames ctx.st rel.tags) = isWanted
    generalize tags.entries.length = size
    cases cb.addressRelation <;> cases cb.taggedRelation <;> cases isAddr <;> cases isWanted <;>
      cases opts.emitRelationMembers <;> cases size <;> rfl

/-- **A relation is reported as it was written.** -/
theorem processRelation_written {r : PlacedRelation} {fs : List WireField}
    (isRelation : IsRelation r fs) (ctx : BlockCtx) (opts : Options) (cb : Callbacks) :
    processRelation (encodeMessage fs) ctx opts cb = (relationCalls ctx opts cb r, none) := by
  have parsed := parseMessage_encodeMessage
    (takeFields_relation isRelation.typed ⟨0, [], [], [], [], []⟩)
  have isId : lastOf UInt64.toInt64 1 0 fs = r.id :=
    (lastOf_written isRelation.id).trans (Int64.toInt64_toUInt64 r.id)
  rw [processRelation, parsed]
  dsimp only
  rw [reportRelation_written isId isRelation.keys isRelation.vals isRelation.roles
    isRelation.memids isRelation.types]
  rfl

/-! ## Groups -/

inductive Entity
  | node (n : PlacedNode)
  | way (w : PlacedWay)
  | relation (r : PlacedRelation)

/-- The calls that an entity is reported with. -/
def Entity.calls (ctx : BlockCtx) (opts : Options) (cb : Callbacks) : Entity → List Call
  | .node n => nodeCalls ctx opts cb n
  | .way w => wayCalls ctx opts cb w
  | .relation r => relationCalls ctx opts cb r

/-- The fields of a group hold entities one after the other, dense nodes several in one field. -/
inductive IsGroup : List Entity → List WireField → Prop
  | none : IsGroup [] []
  | node {n : PlacedNode} {fs : List WireField} {p : Payload} {numbered : 1 < 2 ^ 29}
      {es : List Entity} {rest : List WireField} (isNode : IsNode n fs)
      (holds : p.bytes = encodeMessage fs) (later : IsGroup es rest) :
      IsGroup (.node n :: es) (⟨1, .bytes p, numbered⟩ :: rest)
  | dense {ns : List PlacedNode} {fs : List WireField} {p : Payload} {numbered : 2 < 2 ^ 29}
      {es : List Entity} {rest : List WireField} (isDense : IsDense ns fs)
      (holds : p.bytes = encodeMessage fs) (later : IsGroup es rest) :
      IsGroup (ns.map .node ++ es) (⟨2, .bytes p, numbered⟩ :: rest)
  | way {w : PlacedWay} {fs : List WireField} {p : Payload} {numbered : 3 < 2 ^ 29}
      {es : List Entity} {rest : List WireField} (isWay : IsWay w fs)
      (holds : p.bytes = encodeMessage fs) (later : IsGroup es rest) :
      IsGroup (.way w :: es) (⟨3, .bytes p, numbered⟩ :: rest)
  | relation {r : PlacedRelation} {fs : List WireField} {p : Payload} {numbered : 4 < 2 ^ 29}
      {es : List Entity} {rest : List WireField} (isRelation : IsRelation r fs)
      (holds : p.bytes = encodeMessage fs) (later : IsGroup es rest) :
      IsGroup (.relation r :: es) (⟨4, .bytes p, numbered⟩ :: rest)
  | other {f : WireField} {es : List Entity} {rest : List WireField}
      (unread : f.number ∉ [1, 2, 3, 4]) (later : IsGroup es rest) : IsGroup es (f :: rest)

/-- Entities that no callback asks for are reported with no calls. -/
theorem nodeCalls_unwanted {cb : Callbacks} (unwanted : wantNode cb = false) (ctx : BlockCtx)
    (opts : Options) (n : PlacedNode) : nodeCalls ctx opts cb n = [] := by
  obtain ⟨noNode, noTagged⟩ := Bool.or_eq_false_iff.mp unwanted
  obtain ⟨noNode, noAddress⟩ := Bool.or_eq_false_iff.mp noNode
  rw [nodeCalls]
  dsimp only
  rw [nodeTagCalls, noNode, noAddress, noTagged]
  rfl

theorem wayCalls_unwanted {cb : Callbacks}
    (unwanted : (cb.highwayWay || cb.addressWay || cb.taggedWay) = false) (ctx : BlockCtx)
    (opts : Options) (w : PlacedWay) : wayCalls ctx opts cb w = [] := by
  obtain ⟨noWay, noTagged⟩ := Bool.or_eq_false_iff.mp unwanted
  obtain ⟨noHighway, noAddress⟩ := Bool.or_eq_false_iff.mp noWay
  rw [wayCalls, noHighway, noAddress, noTagged]
  rfl

theorem relationCalls_unwanted {cb : Callbacks}
    (unwanted : (cb.addressRelation || cb.taggedRelation) = false) (ctx : BlockCtx)
    (opts : Options) (r : PlacedRelation) : relationCalls ctx opts cb r = [] := by
  obtain ⟨noAddress, noTagged⟩ := Bool.or_eq_false_iff.mp unwanted
  rw [relationCalls, noAddress, noTagged]
  rfl

/-- An entity adds its calls, also when no callback asks for it. -/
theorem callWhen_calls {wanted : Bool} (process : List UInt8 → Calls) {msg : List UInt8}
    {fs : List WireField} {calls : List Call} (holds : msg = encodeMessage fs)
    (processed : process (encodeMessage fs) = (calls, none))
    (unwanted : wanted = false → calls = []) (made : List Call) :
    callWhen wanted process msg made = (made ++ calls, none) := by
  rw [callWhen]
  cases wanted with
  | true => rw [if_pos rfl, holds, processed]
  | false => rw [if_neg Bool.false_ne_true, unwanted rfl, List.append_nil]

theorem groupFields_none {k : ℕ} (unread : k ∉ [1, 2, 3, 4]) {ctx : BlockCtx} {opts : Options}
    {cb : Callbacks} : groupFields ctx opts cb k = none := by
  unfold groupFields
  split
  all_goals first
    | rfl
    | exact absurd (by decide) unread

/-- **A group is reported as it was written**, after the calls made so far. -/
theorem takeFields_group {es : List Entity} {fs : List WireField} (isGroup : IsGroup es fs)
    (ctx : BlockCtx) (opts : Options) (cb : Callbacks) : ∀ made : List Call,
    takeFields (groupFields ctx opts cb) made fs =
      (made ++ es.flatMap (Entity.calls ctx opts cb), none) := by
  induction isGroup with
  | none =>
      intro made
      rw [takeFields, List.flatMap_nil, List.append_nil]
  | node isNode holds later ih =>
      intro made
      have called := callWhen_calls (fun msg => processNode msg ctx opts cb) holds
        (processNode_written isNode ctx opts cb)
        (fun unwanted => nodeCalls_unwanted unwanted ctx opts _) made
      rw [takeFields_bytes rfl called, ih, List.flatMap_cons, Entity.calls, List.append_assoc]
  | dense isDense holds later ih =>
      intro made
      have called := callWhen_calls (fun msg => processDenseNodes msg ctx opts cb) holds
        (processDenseNodes_written isDense ctx opts cb)
        (fun unwanted => List.flatMap_eq_nil_iff.mpr fun n _ =>
          nodeCalls_unwanted unwanted ctx opts n) made
      rw [takeFields_bytes rfl called, ih, List.flatMap_append, List.flatMap_map,
        List.append_assoc]
      rfl
  | way isWay holds later ih =>
      intro made
      have called := callWhen_calls (fun msg => processWay msg ctx opts cb) holds
        (processWay_written isWay ctx opts cb)
        (fun unwanted => wayCalls_unwanted unwanted ctx opts _) made
      rw [takeFields_bytes rfl called, ih, List.flatMap_cons, Entity.calls, List.append_assoc]
  | relation isRelation holds later ih =>
      intro made
      have called := callWhen_calls (fun msg => processRelation msg ctx opts cb) holds
        (processRelation_written isRelation ctx opts cb)
        (fun unwanted => relationCalls_unwanted unwanted ctx opts _) made
      rw [takeFields_bytes rfl called, ih, List.flatMap_cons, Entity.calls, List.append_assoc]
  | other unread later ih =>
      intro made
      rw [takeFields_unread (groupFields_none unread), ih]

/-! ## Blocks -/

/-- What a block says. -/
structure Block where
  strings : List (List UInt8)
  granularity : ℕ
  granularityFits : granularity < 2 ^ 31
  latOffset : Int64
  lonOffset : Int64
  entities : List Entity

/-- What the entities of a block are read with. -/
def Block.ctx (b : Block) : BlockCtx :=
  ⟨reserveDelimiter b.strings, Int64.ofNat b.granularity, b.latOffset, b.lonOffset⟩

/-- The fields of a message say what a block says. -/
structure IsBlock (b : Block) (fs : List WireField) : Prop where
  typed : Typed [17, 19, 20] [1, 2] fs
  strings : ∃ table, Typed [] [1] table ∧ segments 1 table = b.strings ∧
    segments 1 fs = [encodeMessage table]
  granularity : (lastVarint 17 fs).getD 100 = UInt64.ofNat b.granularity
  latOffset : (lastVarint 19 fs).getD 0 = b.latOffset.toUInt64
  lonOffset : (lastVarint 20 fs).getD 0 = b.lonOffset.toUInt64
  groups : ∃ (written : List (List WireField)) (held : List (List Entity)),
    List.Forall₂ IsGroup held written ∧ segments 2 fs = written.map encodeMessage ∧
      held.flatten = b.entities

theorem takeFields_strings {table : List WireField} (typed : Typed [] [1] table) (retain : Bool)
    (st : List (List UInt8)) :
    takeFields (stringTableFields retain) st table =
      (if retain then st ++ segments 1 table else st, none) := by
  induction table generalizing st with
  | nil => cases retain <;> simp [takeFields, segments]
  | cons f table ih =>
      have taken : takeValue (stringTableFields retain f.number) st f.value =
          (if retain then st ++ (f.bytesOf 1).toList else st, none) := by
        have isBytes := typed.bytes f List.mem_cons_self
        unfold stringTableFields
        split
        · next is =>
            obtain ⟨p, holds⟩ := isBytes (by rw [is]; decide)
            simp [takeValue, WireField.bytesOf, accept, is, holds]
        · next no1 =>
            rw [f.bytesOf_ne no1]
            simp [takeValue]
      rw [takeFields, taken]
      dsimp only
      rw [ih typed.tail, segments_cons]
      cases retain with
      | true => rw [if_pos rfl, if_pos rfl, if_pos rfl, List.append_assoc]
      | false => rfl

theorem parseStringTable_written {table : List WireField} (typed : Typed [] [1] table)
    (retain : Bool) :
    parseStringTable (encodeMessage table) retain =
      .ok (if retain then reserveDelimiter (segments 1 table) else []) := by
  rw [parseStringTable, parseMessage_encodeMessage (takeFields_strings typed retain [])]
  cases retain <;> rfl

/-- A granularity is a positive number of 32 bits. -/
theorem granularity_written {n : ℕ} (fits : n < 2 ^ 31) :
    (UInt64.ofNat n).toUInt32.toInt32.toInt64 = Int64.ofNat n := by
  apply Int64.toInt_inj.mp
  rw [Int32.toInt_toInt64, place_toInt32 fits, Int64.toInt_ofNat_of_lt (by omega)]

/-- Take a field of a block into its record, when its string table is known. -/
def takeBlock (st : List (List UInt8)) (r : BlockFields) (f : WireField) : BlockFields where
  ctx :=
    { st := ((f.bytesOf 1).map fun _ => st).getD r.ctx.st
      granularity := ((f.varintOf 17).map fun v => v.toUInt32.toInt32.toInt64).getD
        r.ctx.granularity
      latOffset := ((f.varintOf 19).map UInt64.toInt64).getD r.ctx.latOffset
      lonOffset := ((f.varintOf 20).map UInt64.toInt64).getD r.ctx.lonOffset }
  groups := r.groups ++ (f.bytesOf 2).toList

theorem takeValue_block {fs : List WireField} (typed : Typed [17, 19, 20] [1, 2] fs)
    {st : List (List UInt8)} {retain : Bool}
    (tables : ∀ b ∈ segments 1 fs, parseStringTable b retain = .ok st) {f : WireField}
    (member : f ∈ fs) (r : BlockFields) :
    takeValue (blockFields retain f.number) r f.value = (takeBlock st r f, none) := by
  obtain ⟨is, v, holds⟩ | ⟨is, p, holds⟩ | ⟨noNumber, noBytes⟩ := typed.kinds member
  · simp only [List.mem_cons, List.not_mem_nil, or_false] at is
    rcases is with is | is | is <;>
      simp [blockFields, takeValue, takeBlock, WireField.varintOf, WireField.bytesOf, accept, is,
        holds]
  · simp only [List.mem_cons, List.not_mem_nil, or_false] at is
    rcases is with isTable | isGroup
    · have carried : f.bytesOf 1 = some p.bytes := by simp [WireField.bytesOf, holds, isTable]
      have parsed := tables p.bytes (List.mem_filterMap.mpr ⟨f, member, carried⟩)
      simp [blockFields, takeValue, takeBlock, WireField.varintOf, WireField.bytesOf, isTable,
        holds, parsed]
    · simp [blockFields, takeValue, takeBlock, WireField.varintOf, WireField.bytesOf, accept,
        isGroup, holds]
  · simp only [List.mem_cons, List.not_mem_nil, or_false, not_or] at noNumber noBytes
    obtain ⟨noGranularity, noLat, noLon⟩ := noNumber
    obtain ⟨noTable, noGroup⟩ := noBytes
    rw [takeBlock, f.bytesOf_ne noTable, f.bytesOf_ne noGroup, f.varintOf_ne noGranularity,
      f.varintOf_ne noLat, f.varintOf_ne noLon]
    simp [blockFields, takeValue]

/-- The fields of a block whose string tables are all read as the same one. -/
theorem takeFields_block {fs : List WireField} (typed : Typed [17, 19, 20] [1, 2] fs)
    {st : List (List UInt8)} {retain : Bool}
    (tables : ∀ b ∈ segments 1 fs, parseStringTable b retain = .ok st) (r : BlockFields) :
    takeFields (blockFields retain) r fs =
      (⟨⟨if segments 1 fs = [] then r.ctx.st else st,
          lastOf (fun v => v.toUInt32.toInt32.toInt64) 17 r.ctx.granularity fs,
          lastOf UInt64.toInt64 19 r.ctx.latOffset fs,
          lastOf UInt64.toInt64 20 r.ctx.lonOffset fs⟩,
        r.groups ++ segments 2 fs⟩, none) := by
  induction fs generalizing r with
  | nil => simp [takeFields, lastOf, lastVarint, segments]
  | cons f fs ih =>
      have later : ∀ b ∈ segments 1 fs, parseStringTable b retain = .ok st := by
        intro b member
        refine tables b ?_
        rw [segments_cons]
        exact List.mem_append_right _ member
      rw [takeFields, takeValue_block typed tables List.mem_cons_self]
      dsimp only
      rw [ih typed.tail later]
      simp only [takeBlock, lastOf_cons, segments_cons, List.append_assoc]
      cases f.bytesOf 1 with
      | none => rfl
      | some b => simp

/-- **Groups are reported one after the other.** -/
theorem processGroups_written {held : List (List Entity)} {written : List (List WireField)}
    (groups : List.Forall₂ IsGroup held written) (ctx : BlockCtx) (opts : Options)
    (cb : Callbacks) :
    processGroups ctx opts cb (written.map encodeMessage) =
      (held.flatten.flatMap (Entity.calls ctx opts cb), none) := by
  induction groups with
  | nil => rfl
  | cons isGroup later ih =>
      rw [List.map_cons, processGroups, processPrimitiveGroup, scanMessage_encodeMessage,
        takeFields_group isGroup]
      dsimp only
      rw [ih, List.flatten_cons, List.flatMap_append, List.nil_append]

theorem reserveDelimiter_twice (st : List (List UInt8)) :
    reserveDelimiter (reserveDelimiter st) = reserveDelimiter st := by
  cases st <;> rfl

/-- Without a callback that needs strings, the calls do not depend on them. -/
theorem calls_without_strings {cb : Callbacks} (unwanted : wantStrings cb = false)
    (ctx : BlockCtx) (st : List (List UInt8)) (opts : Options) (e : Entity) :
    e.calls { ctx with st := st } opts cb = e.calls ctx opts cb := by
  simp only [wantStrings, Bool.or_eq_false_iff] at unwanted
  obtain ⟨⟨⟨⟨⟨⟨noHighway, noAddressWay⟩, noTaggedWay⟩, noAddressRelation⟩, noTaggedRelation⟩,
    noAddressNode⟩, noTaggedNode⟩ := unwanted
  cases e with
  | node n => simp [Entity.calls, nodeCalls, nodeTagCalls, decodeCoord, noAddressNode, noTaggedNode]
  | way w => simp [Entity.calls, wayCalls, noHighway, noAddressWay, noTaggedWay]
  | relation r => simp [Entity.calls, relationCalls, noAddressRelation, noTaggedRelation]

/-- **A block is reported as it was written.** No error stops it, and the calls are those of its
entities in their order, whatever form was chosen for the nodes, whatever the order of the fields
and wherever packed numbers were split. -/
theorem processOSMData_written {b : Block} {fs : List WireField} (isBlock : IsBlock b fs)
    (opts : Options) (cb : Callbacks) :
    processOSMData (encodeMessage fs) opts cb =
      (b.entities.flatMap (Entity.calls b.ctx opts cb), none) := by
  obtain ⟨table, typed, strings, isTable⟩ := isBlock.strings
  obtain ⟨written, held, groups, isGroups, entities⟩ := isBlock.groups
  have tables : ∀ raw ∈ segments 1 fs, parseStringTable raw (wantStrings cb) =
      .ok (if wantStrings cb then reserveDelimiter b.strings else []) := by
    intro raw member
    rw [isTable, List.mem_singleton] at member
    rw [member, parseStringTable_written typed, strings]
  have parsed := parseMessage_encodeMessage
    (takeFields_block isBlock.typed tables ⟨⟨[], 100, 0, 0⟩, []⟩)
  have granularity : lastOf (fun v => v.toUInt32.toInt32.toInt64) 17 100 fs =
      Int64.ofNat b.granularity :=
    (lastOf_written isBlock.granularity).trans (granularity_written b.granularityFits)
  have latOffset : lastOf UInt64.toInt64 19 0 fs = b.latOffset :=
    (lastOf_written isBlock.latOffset).trans (Int64.toInt64_toUInt64 _)
  have lonOffset : lastOf UInt64.toInt64 20 0 fs = b.lonOffset :=
    (lastOf_written isBlock.lonOffset).trans (Int64.toInt64_toUInt64 _)
  dsimp only at parsed
  rw [isTable, if_neg (List.cons_ne_nil _ _), granularity, latOffset, lonOffset, isGroups,
    List.nil_append] at parsed
  rw [processOSMData, parsed]
  dsimp only
  rw [processGroups_written groups, entities]
  refine Prod.ext (List.flatMap_congr fun e _ => ?_) rfl
  cases reads : wantStrings cb with
  | true =>
      rw [if_pos rfl, reserveDelimiter_twice]
      rfl
  | false => exact calls_without_strings reads b.ctx _ opts e

end OsmMini.Core.Pbf

import OsmMini.Core.Pbf.Entities

/-!
# Ways and relations of a data block

Ways and relations without keys are not reported. The references of a way and the members
of a relation are only decoded when they are asked for.
-/

set_option autoImplicit false

namespace OsmMini.Core.Pbf

/-! ## Ways -/

structure WayFields where
  id : Int64
  keysSegs : List (List UInt8)
  valsSegs : List (List UInt8)
  refsSegs : List (List UInt8)

def wayFields : ℕ → Option (FieldReader WayFields)
  | 1 => some (.varint "Way.id" (accept fun v f => { f with id := v.toInt64 }))
  | 2 => some (.bytes "Way.keys" (accept fun b f => { f with keysSegs := f.keysSegs ++ [b] }))
  | 3 => some (.bytes "Way.vals" (accept fun b f => { f with valsSegs := f.valsSegs ++ [b] }))
  | 8 => some (.bytes "Way.refs" (accept fun b f => { f with refsSegs := f.refsSegs ++ [b] }))
  | _ => none

def reportWay (f : WayFields) (ctx : BlockCtx) (opts : Options) (cb : Callbacks) :
    Except PbfError (List Call) := do
  if f.keysSegs.isEmpty then return []
  let (isHighway, isAddr) ←
    if cb.highwayWay || cb.addressWay then
      scanWayKeys f.keysSegs ctx.st cb.highwayWay cb.addressWay
    else pure (false, false)
  let taggedCandidate ←
    if cb.taggedWay then hasMatchingKey f.keysSegs ctx.st opts.taggedWayKey else pure false
  if !isHighway && !isAddr && !taggedCandidate then return []
  let tags ← buildTags f.keysSegs f.valsSegs ctx.st opts.keepTag
  let nodeIDs ← if opts.emitWayNodeIDs then decodeWayRefs f.refsSegs else pure []
  let w : Way := ⟨f.id, nodeIDs, tags⟩
  return (if isHighway && cb.highwayWay then [.highwayWay w] else []) ++
    (if isAddr && cb.addressWay then [.addressWay w] else []) ++
    (if taggedCandidate && 0 < tags.entries.length then [.taggedWay w] else [])

def processWay (raw : List UInt8) (ctx : BlockCtx) (opts : Options) (cb : Callbacks) : Calls :=
  match parseMessage wayFields ⟨0, [], [], []⟩ raw with
  | .error e => ([], some e)
  | .ok f => Calls.ofExcept (reportWay f ctx opts cb)

/-! ## Relations -/

structure RelationFields where
  id : Int64
  keysSegs : List (List UInt8)
  valsSegs : List (List UInt8)
  rolesSegs : List (List UInt8)
  memidsSegs : List (List UInt8)
  typesSegs : List (List UInt8)

def relationFields : ℕ → Option (FieldReader RelationFields)
  | 1 => some (.varint "Relation.id" (accept fun v f => { f with id := v.toInt64 }))
  | 2 => some (.bytes "Relation.keys" (accept fun b f => { f with keysSegs := f.keysSegs ++ [b] }))
  | 3 => some (.bytes "Relation.vals" (accept fun b f => { f with valsSegs := f.valsSegs ++ [b] }))
  | 8 => some (.bytes "Relation.roles_sid"
      (accept fun b f => { f with rolesSegs := f.rolesSegs ++ [b] }))
  | 9 => some (.bytes "Relation.memids"
      (accept fun b f => { f with memidsSegs := f.memidsSegs ++ [b] }))
  | 10 => some (.bytes "Relation.types"
      (accept fun b f => { f with typesSegs := f.typesSegs ++ [b] }))
  | _ => none

/-- Decode the numbers of a packed field, all of which must be well formed. -/
def decodePacked {α : Type} (decode : UInt64 → α) (segs : List (List UInt8)) :
    Except PbfError (List α) :=
  let values := packedValues segs
  orError (values.1.map decode) values.2

def decodePackedU32Segments (segs : List (List UInt8)) : Except PbfError (List UInt32) :=
  decodePacked UInt64.toUInt32 segs

def decodePackedInt32Segments (segs : List (List UInt8)) : Except PbfError (List Int32) :=
  decodePacked (fun v => v.toUInt32.toInt32) segs

def decodePackedSint64Segments (segs : List (List UInt8)) : Except PbfError (List Int64) :=
  decodePacked zigzagDecode64 segs

def memberType : UInt32 → Option MemberType
  | 0 => some .node
  | 1 => some .way
  | 2 => some .relation
  | _ => none

/-- The members up to the end of the shortest of the three lists. A member of an unknown
type is left out, but its difference counts. -/
def relationMembers (st : List (List UInt8)) (memAcc : Int64) :
    List Int32 → List Int64 → List UInt32 → List Member
  | role :: roles, delta :: memDeltas, type :: types =>
    let memAcc := memAcc + delta
    let name := if role < 0 then [] else (st[role.toInt.toNat]?).getD []
    let later := relationMembers st memAcc roles memDeltas types
    match memberType type with
    | some mt => ⟨mt, memAcc, name⟩ :: later
    | none => later
  | _, _, _ => []

def reportRelation (f : RelationFields) (ctx : BlockCtx) (opts : Options) (cb : Callbacks) :
    Except PbfError (List Call) := do
  if f.keysSegs.isEmpty then return []
  let isAddr ← if cb.addressRelation then scanKeys f.keysSegs ctx.st false true else pure false
  let taggedCandidate ←
    if cb.taggedRelation then hasMatchingKey f.keysSegs ctx.st opts.taggedRelationKey
    else pure false
  if !isAddr && !taggedCandidate then return []
  let tags ← buildTags f.keysSegs f.valsSegs ctx.st opts.keepTag
  if !isAddr && tags.entries.length = 0 then return []
  let members ← if opts.emitRelationMembers then do
      let roles ← decodePackedInt32Segments f.rolesSegs
      let memDeltas ← decodePackedSint64Segments f.memidsSegs
      let types ← decodePackedU32Segments f.typesSegs
      pure (relationMembers ctx.st 0 roles memDeltas types)
    else pure []
  let r : Relation := ⟨f.id, members, tags⟩
  return (if isAddr && cb.addressRelation then [.addressRelation r] else []) ++
    (if taggedCandidate && 0 < tags.entries.length then [.taggedRelation r] else [])

def processRelation (raw : List UInt8) (ctx : BlockCtx) (opts : Options) (cb : Callbacks) :
    Calls :=
  match parseMessage relationFields ⟨0, [], [], [], [], []⟩ raw with
  | .error e => ([], some e)
  | .ok f => Calls.ofExcept (reportRelation f ctx opts cb)

end OsmMini.Core.Pbf

/-!
## Data blocks

The string table and the parameters of a block may stand behind its groups, so the groups
are only gone over when the whole block has been read.
-/

namespace OsmMini.Core.Pbf

def wantNode (cb : Callbacks) : Bool := cb.node || cb.addressNode || cb.taggedNode

/-- Whether a callback needs the strings of a block. -/
def wantStrings (cb : Callbacks) : Bool :=
  cb.highwayWay || cb.addressWay || cb.taggedWay || cb.addressRelation || cb.taggedRelation ||
    cb.addressNode || cb.taggedNode

/-! ## The string table -/

def stringTableFields (retain : Bool) : ℕ → Option (FieldReader (List (List UInt8)))
  | 1 => some (.bytes "StringTable.s" (accept fun b st => if retain then st ++ [b] else st))
  | _ => none

/-- The first string is reserved as a delimiter. -/
def reserveDelimiter : List (List UInt8) → List (List UInt8)
  | [] => [[]]
  | _ :: st => [] :: st

def parseStringTable (raw : List UInt8) (retain : Bool) : Except PbfError (List (List UInt8)) := do
  let st ← parseMessage (stringTableFields retain) [] raw
  return if retain then reserveDelimiter st else []

/-! ## Groups -/

/-- Make the calls of an entity after those made so far. -/
def callWhen (wanted : Bool) (process : List UInt8 → Calls) (msg : List UInt8)
    (made : List Call) : Calls :=
  if wanted then
    let (calls, err) := process msg
    (made ++ calls, err)
  else (made, none)

def groupFields (ctx : BlockCtx) (opts : Options) (cb : Callbacks) :
    ℕ → Option (FieldReader (List Call))
  | 1 => some (.bytes "PrimitiveGroup.nodes"
      (callWhen (wantNode cb) fun msg => processNode msg ctx opts cb))
  | 2 => some (.bytes "PrimitiveGroup.dense"
      (callWhen (wantNode cb) fun msg => processDenseNodes msg ctx opts cb))
  | 3 => some (.bytes "PrimitiveGroup.ways"
      (callWhen (cb.highwayWay || cb.addressWay || cb.taggedWay) fun msg =>
        processWay msg ctx opts cb))
  | 4 => some (.bytes "PrimitiveGroup.relations"
      (callWhen (cb.addressRelation || cb.taggedRelation) fun msg =>
        processRelation msg ctx opts cb))
  | _ => none

def processPrimitiveGroup (raw : List UInt8) (ctx : BlockCtx) (opts : Options) (cb : Callbacks) :
    Calls :=
  scanMessage (groupFields ctx opts cb) [] raw

/-- Go over groups up to the first malformed one. -/
def processGroups (ctx : BlockCtx) (opts : Options) (cb : Callbacks) :
    List (List UInt8) → Calls
  | [] => ([], none)
  | g :: groups =>
    match processPrimitiveGroup g ctx opts cb with
    | (calls, some e) => (calls, some e)
    | (calls, none) =>
      let later := processGroups ctx opts cb groups
      (calls ++ later.1, later.2)

/-! ## Blocks -/

structure BlockFields where
  ctx : BlockCtx
  groups : List (List UInt8)

def blockFields (retain : Bool) : ℕ → Option (FieldReader BlockFields)
  | 1 => some (.bytes "PrimitiveBlock.stringtable" fun msg f =>
      match parseStringTable msg retain with
      | .error e => (f, some e)
      | .ok st => ({ f with ctx := { f.ctx with st := st } }, none))
  | 2 => some (.bytes "PrimitiveBlock.primitivegroup"
      (accept fun msg f => { f with groups := f.groups ++ [msg] }))
  | 17 => some (.varint "PrimitiveBlock.granularity" (accept fun v f =>
      { f with ctx := { f.ctx with granularity := v.toUInt32.toInt32.toInt64 } }))
  | 19 => some (.varint "PrimitiveBlock.lat_offset" (accept fun v f =>
      { f with ctx := { f.ctx with latOffset := v.toInt64 } }))
  | 20 => some (.varint "PrimitiveBlock.lon_offset" (accept fun v f =>
      { f with ctx := { f.ctx with lonOffset := v.toInt64 } }))
  | _ => none

def processOSMData (raw : List UInt8) (opts : Options) (cb : Callbacks) : Calls :=
  match parseMessage (blockFields (wantStrings cb)) ⟨⟨[], 100, 0, 0⟩, []⟩ raw with
  | .error e => ([], some e)
  | .ok f => processGroups { f.ctx with st := reserveDelimiter f.ctx.st } opts cb f.groups

end OsmMini.Core.Pbf

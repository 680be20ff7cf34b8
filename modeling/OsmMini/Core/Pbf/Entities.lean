import OsmMini.Core.Pbf.Tags
import OsmMini.Foundations.Binary64

/-!
# The entities of a data block

A data block holds a string table, the parameters of its coordinates and groups of nodes,
ways and relations. Going over a block reports its entities to the callbacks that are set,
in the order of the file, and stops at the first malformed part. A run is the list of the
calls that were made together with the error that stopped it, if one did.
-/

set_option autoImplicit false

namespace OsmMini.Core.Pbf

open OsmMini.Foundations

structure BlockCtx where
  st : List (List UInt8)
  granularity : Int64
  latOffset : Int64
  lonOffset : Int64

structure Node where
  id : Int64
  lat : F64
  lon : F64
  tags : Tags

structure Way where
  id : Int64
  nodeIDs : List Int64
  tags : Tags

inductive MemberType
  | node
  | way
  | relation
  deriving DecidableEq, Repr

structure Member where
  type : MemberType
  id : Int64
  role : List UInt8

structure Relation where
  id : Int64
  members : List Member
  tags : Tags

/-- A call of one of the callbacks. -/
inductive Call
  | node (id : Int64) (lat lon : F64)
  | addressNode (n : Node)
  | taggedNode (n : Node)
  | highwayWay (w : Way)
  | addressWay (w : Way)
  | taggedWay (w : Way)
  | addressRelation (r : Relation)
  | taggedRelation (r : Relation)

/-- The calls that were made, and the error that stopped them. -/
abbrev Calls := List Call × Option PbfError

/-- Calls that are made only when all of their data could be read. -/
def Calls.ofExcept : Except PbfError (List Call) → Calls
  | .ok calls => (calls, none)
  | .error e => ([], some e)

/-- A float64 conversion and a division by a power of ten. -/
def nanoDegrees (nano : Int64) : F64 :=
  F64.div (F64.ofRat (nano.toInt : ℚ)) (F64.ofRat 1000000000)

def decodeCoord (lat lon : Int64) (ctx : BlockCtx) : F64 × F64 :=
  let latNano := ctx.latOffset + lat * ctx.granularity
  let lonNano := ctx.lonOffset + lon * ctx.granularity
  (nanoDegrees latNano, nanoDegrees lonNano)

/-- Take a value into a record; this never fails. -/
def accept {α σ : Type} (update : α → σ → σ) (a : α) (s : σ) : σ × Option PbfError :=
  (update a s, none)

/-! ## Nodes -/

structure NodeFields where
  id : Int64
  lat : Int64
  lon : Int64
  keysSegs : List (List UInt8)
  valsSegs : List (List UInt8)

def nodeFields : ℕ → Option (FieldReader NodeFields)
  | 1 => some (.varint "Node.id" (accept fun v f => { f with id := zigzagDecode64 v }))
  | 2 => some (.bytes "Node.keys" (accept fun b f => { f with keysSegs := f.keysSegs ++ [b] }))
  | 3 => some (.bytes "Node.vals" (accept fun b f => { f with valsSegs := f.valsSegs ++ [b] }))
  | 8 => some (.varint "Node.lat" (accept fun v f => { f with lat := zigzagDecode64 v }))
  | 9 => some (.varint "Node.lon" (accept fun v f => { f with lon := zigzagDecode64 v }))
  | _ => none

/-- The calls for the tags of a node. -/
def reportNode (f : NodeFields) (latDeg lonDeg : F64) (ctx : BlockCtx) (opts : Options)
    (cb : Callbacks) : Except PbfError (List Call) := do
  if !cb.addressNode && !cb.taggedNode then return []
  let isAddr ← if cb.addressNode then scanKeys f.keysSegs ctx.st false true else pure false
  let taggedCandidate ←
    if cb.taggedNode then hasMatchingKey f.keysSegs ctx.st opts.taggedNodeKey else pure false
  if !isAddr && !taggedCandidate then return []
  let tags ← buildTags f.keysSegs f.valsSegs ctx.st opts.keepTag
  let n : Node := ⟨f.id, latDeg, lonDeg, tags⟩
  return (if isAddr && cb.addressNode then [.addressNode n] else []) ++
    (if taggedCandidate && 0 < tags.entries.length then [.taggedNode n] else [])

def processNode (raw : List UInt8) (ctx : BlockCtx) (opts : Options) (cb : Callbacks) : Calls :=
  match parseMessage nodeFields ⟨0, 0, 0, [], []⟩ raw with
  | .error e => ([], some e)
  | .ok f =>
    let (latDeg, lonDeg) := decodeCoord f.lat f.lon ctx
    let called := if cb.node then [.node f.id latDeg lonDeg] else []
    let (calls, err) := Calls.ofExcept (reportNode f latDeg lonDeg ctx opts cb)
    (called ++ calls, err)

/-! ## Dense nodes -/

structure DenseFields where
  idSegs : List (List UInt8)
  latSegs : List (List UInt8)
  lonSegs : List (List UInt8)
  kvSegs : List (List UInt8)

def denseFields : ℕ → Option (FieldReader DenseFields)
  | 1 => some (.bytes "DenseNodes field 1" (accept fun b f => { f with idSegs := f.idSegs ++ [b] }))
  | 8 => some (.bytes "DenseNodes field 8"
      (accept fun b f => { f with latSegs := f.latSegs ++ [b] }))
  | 9 => some (.bytes "DenseNodes field 9"
      (accept fun b f => { f with lonSegs := f.lonSegs ++ [b] }))
  | 10 => some (.bytes "DenseNodes field 10"
      (accept fun b f => { f with kvSegs := f.kvSegs ++ [b] }))
  | _ => none

/-- What the tags of a dense node select: how many pairs there are, whether one of the keys
is an address key, and whether one is a wanted key. -/
structure DenseScan where
  pairCount : ℕ
  isAddr : Bool
  taggedCandidate : Bool

/-- Take the key of a pair into account. -/
def DenseScan.add (scan : DenseScan) (k : Int32) (ctx : BlockCtx) (opts : Options)
    (cb : Callbacks) : DenseScan :=
  let scan := { scan with pairCount := scan.pairCount + 1 }
  if k < 0 then scan
  else
    match ctx.st[k.toInt.toNat]? with
    | none => scan
    | some keyName =>
      { scan with
        isAddr := scan.isAddr || (cb.addressNode && (utf8 "addr:").isPrefixOf keyName)
        taggedCandidate := scan.taggedCandidate ||
          (cb.taggedNode && opts.taggedNodeKey.any fun key => key keyName) }

/-- Go over the pairs of a node up to the zero that closes them. -/
def scanDensePairs (ctx : BlockCtx) (opts : Options) (cb : Callbacks) (err : Option PbfError) :
    DenseScan → List UInt64 → Except PbfError (DenseScan × List UInt64)
  | scan, [] => do
    orError () err
    -- An omitted stream means no tags.
    if scan.pairCount ≠ 0 then throw (.format "DenseNodes.keys_vals: unexpected end")
    return (scan, [])
  | scan, [key] => do
    if key.toUInt32.toInt32 = 0 then return (scan, [])
    orError () err
    throw (.format "DenseNodes.keys_vals: unexpected end after key")
  | scan, key :: val :: kv =>
    if key.toUInt32.toInt32 = 0 then .ok (scan, val :: kv)
    else scanDensePairs ctx opts cb err (scan.add key.toUInt32.toInt32 ctx opts cb) kv

/-- Build the tags of the pairs that were scanned. -/
def denseTags (st : List (List UInt8)) (keep : Option (List UInt8 → Bool)) :
    ℕ → Tags → List UInt64 → Tags
  | 0, tags, _ => tags
  | _ + 1, tags, [] => tags
  | _ + 1, tags, [_] => tags
  | pairs + 1, tags, key :: val :: kv =>
    let ki := key.toUInt32.toInt32
    let vi := val.toUInt32.toInt32
    denseTags st keep pairs
      (if ki < 0 ∨ vi < 0 then tags else addTag st keep tags ki.toInt.toNat vi.toInt.toNat) kv

/-- The calls for the tags of a dense node, and the pairs of the nodes after it. -/
def reportDenseNode (ctx : BlockCtx) (opts : Options) (cb : Callbacks) (id : Int64)
    (latDeg lonDeg : F64) (kv : List UInt64) (err : Option PbfError) :
    Except PbfError (List Call × List UInt64) := do
  if !cb.addressNode && !cb.taggedNode then return ([], kv)
  let start : DenseScan := ⟨0, false, cb.taggedNode && opts.taggedNodeKey.isNone⟩
  let (scan, rest) ← scanDensePairs ctx opts cb err start kv
  if scan.pairCount = 0 || (!scan.isAddr && !scan.taggedCandidate) then return ([], rest)
  let tags := denseTags ctx.st opts.keepTag scan.pairCount ∅ kv
  let node : Node := ⟨id, latDeg, lonDeg, tags⟩
  return ((if scan.isAddr && cb.addressNode then [.addressNode node] else []) ++
    (if scan.taggedCandidate && 0 < tags.entries.length then [.taggedNode node] else []), rest)

/-- The sums of the coordinate streams and what is left of the streams. -/
structure DenseCursor where
  idAcc : Int64
  latAcc : Int64
  lonAcc : Int64
  ids : List UInt64
  lats : List UInt64
  lons : List UInt64
  kv : List UInt64

/-- Go over the nodes whose number is known. -/
def denseNodes (ctx : BlockCtx) (opts : Options) (cb : Callbacks) (err : Option PbfError) :
    ℕ → DenseCursor → Calls
  | 0, _ => ([], none)
  | n + 1, c =>
    let idAcc := c.idAcc + zigzagDecode64 (c.ids.head?.getD 0)
    let latAcc := c.latAcc + zigzagDecode64 (c.lats.head?.getD 0)
    let lonAcc := c.lonAcc + zigzagDecode64 (c.lons.head?.getD 0)
    let (latDeg, lonDeg) := decodeCoord latAcc lonAcc ctx
    let called := if cb.node then [.node idAcc latDeg lonDeg] else []
    match reportDenseNode ctx opts cb idAcc latDeg lonDeg c.kv err with
    | .error e => (called, some e)
    | .ok (calls, kv) =>
      let later := denseNodes ctx opts cb err n
        ⟨idAcc, latAcc, lonAcc, c.ids.tail, c.lats.tail, c.lons.tail, kv⟩
      (called ++ calls ++ later.1, later.2)

/-- The number of nodes, when the streams agree on it. -/
def denseCount (f : DenseFields) : Except PbfError ℕ := do
  let n ← packedValueCount f.idSegs
  let latCount ← packedValueCount f.latSegs
  let lonCount ← packedValueCount f.lonSegs
  let _ ← packedValueCount f.kvSegs
  if n = 0 then return 0
  if latCount ≠ n ∨ lonCount ≠ n then
    throw (.format s!"DenseNodes length mismatch: ids={n} lat={latCount} lon={lonCount}")
  return n

def processDenseNodes (raw : List UInt8) (ctx : BlockCtx) (opts : Options) (cb : Callbacks) :
    Calls :=
  match parseMessage denseFields ⟨[], [], [], []⟩ raw with
  | .error e => ([], some e)
  | .ok f =>
    match denseCount f with
    | .error e => ([], some e)
    | .ok n =>
      let kv := packedValues f.kvSegs
      denseNodes ctx opts cb kv.2 n
        ⟨0, 0, 0, (packedValues f.idSegs).1, (packedValues f.latSegs).1,
          (packedValues f.lonSegs).1, kv.1⟩

end OsmMini.Core.Pbf

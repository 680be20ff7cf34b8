import OsmMini.Core.Types
import OsmMini.Core.Pbf.Packed

/-!
# Keys and tags of an entity

An entity names its keys and values by their places in the string table of its block.
Which callbacks an entity is reported to is decided on its keys alone; the tags are built
when it is reported. Strings are their bytes.
-/

set_option autoImplicit false

namespace OsmMini.Core.Pbf

/-- The bytes of a string. -/
def utf8 (s : String) : List UInt8 := s.toUTF8.toList

abbrev Tags := GoMap (List UInt8) (List UInt8)

/-- What the extraction is to keep and to report. -/
structure Options where
  keepTag : Option (List UInt8 → Bool)
  taggedNodeKey : Option (List UInt8 → Bool)
  taggedWayKey : Option (List UInt8 → Bool)
  taggedRelationKey : Option (List UInt8 → Bool)
  emitWayNodeIDs : Bool
  emitRelationMembers : Bool

/-- The callbacks that are set. -/
structure Callbacks where
  node : Bool
  addressNode : Bool
  taggedNode : Bool
  highwayWay : Bool
  addressWay : Bool
  taggedWay : Bool
  addressRelation : Bool
  taggedRelation : Bool

/-- Callbacks for the coordinates of nodes alone. -/
def nodeOnly : Callbacks := ⟨true, false, false, false, false, false, false, false⟩

def noOptions : Options := ⟨none, none, none, none, false, false⟩

/-- Continue with the numbers that were read, or stop with the error behind them. -/
def orError {α : Type} (a : α) : Option PbfError → Except PbfError α
  | none => .ok a
  | some e => .error e

/-! ## Keys -/

/-- Look for the wanted keys until all of them are found: whether a highway key and an
address key were seen, and whether the search stopped early. -/
def scanWayKeysFrom (st : List (List UInt8)) (wantHighway wantAddr : Bool) :
    Bool → Bool → List UInt64 → Bool × Bool × Bool
  | highway, addr, [] => (highway, addr, false)
  | highway, addr, v :: vs =>
    match st[v.toNat]? with
    | none => scanWayKeysFrom st wantHighway wantAddr highway addr vs
    | some k =>
      let highway := highway || (wantHighway && k = utf8 "highway")
      let addr := addr || (wantAddr && (utf8 "addr:").isPrefixOf k)
      if (!wantHighway || highway) && (!wantAddr || addr) then (highway, addr, true)
      else scanWayKeysFrom st wantHighway wantAddr highway addr vs

def scanWayKeys (keysSegs st : List (List UInt8)) (wantHighway wantAddr : Bool) :
    Except PbfError (Bool × Bool) :=
  let keys := packedValues keysSegs
  match scanWayKeysFrom st wantHighway wantAddr false false keys.1 with
  | (highway, addr, true) => .ok (highway, addr)
  | (highway, addr, false) => orError (highway, addr) keys.2

def scanKeys (keysSegs st : List (List UInt8)) (wantHighway wantAddr : Bool) :
    Except PbfError Bool := do
  let (_, addr) ← scanWayKeys keysSegs st wantHighway wantAddr
  return addr

def hasMatchingKey (keysSegs st : List (List UInt8)) (isMatch : Option (List UInt8 → Bool)) :
    Except PbfError Bool :=
  match isMatch with
  | none => .ok true
  | some isMatch =>
    let keys := packedValues keysSegs
    if keys.1.any fun v => (st[v.toNat]?).any isMatch then .ok true else orError false keys.2

/-! ## Tags -/

def keeps (keep : Option (List UInt8 → Bool)) (k : List UInt8) : Bool :=
  match keep with
  | none => true
  | some keep => keep k

/-- Add the tag of a pair of places in the string table. -/
def addTag (st : List (List UInt8)) (keep : Option (List UInt8 → Bool)) (tags : Tags)
    (ki vi : ℕ) : Tags :=
  match st[ki]?, st[vi]? with
  | some k, some v => if keeps keep k then tags.insert k v else tags
  | _, _ => tags

/-- Pair keys with values. An error behind the keys or the values is reported when it is
reached, also in the part of the longer list that has no partner. -/
def pairTags (st : List (List UInt8)) (keep : Option (List UInt8 → Bool))
    (keysErr valsErr : Option PbfError) : Tags → List UInt64 → List UInt64 → Except PbfError Tags
  | tags, k :: keys, v :: vals =>
    pairTags st keep keysErr valsErr
      (addTag st keep tags k.toUInt32.toNat v.toUInt32.toNat) keys vals
  | tags, [], _ => do
    orError () keysErr
    orError tags valsErr
  | tags, _ :: _, [] => do
    orError () valsErr
    orError tags keysErr

def buildTags (keysSegs valsSegs st : List (List UInt8)) (keep : Option (List UInt8 → Bool)) :
    Except PbfError Tags :=
  let keys := packedValues keysSegs
  let vals := packedValues valsSegs
  pairTags st keep keys.2 vals.2 ∅ keys.1 vals.1

end OsmMini.Core.Pbf

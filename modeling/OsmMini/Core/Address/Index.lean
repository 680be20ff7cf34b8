import OsmMini.Core.Address.Query
import OsmMini.Foundations.Bits

/-!
# The address index

The index keeps the normalized tags of a catalog. A mask of one bit for each search tag
says which tags an entry has; the values of the present tags stand one after the other.
While the index is built, a bounded cache saves normalizing common values again.
-/

set_option autoImplicit false

namespace OsmMini.Core

open OsmMini.Foundations
open OsmMini.Foundations.Bits (trailingZeros and_pred_lt bitIndices_and_pred)

structure AddressIndex (C : Type) where
  entries : List (AddressEntry C)
  offsets : List ℕ
  masks : List ℕ
  values : List (List Char)

def addressSearchTags : List String :=
  ["addr:street", "addr:housenumber", "addr:postcode", "addr:city", "addr:place", "name", "brand",
    "operator", "shop", "office", "amenity", "tourism", "leisure"]

/-- The places of the bits of a mask, in the order in which clearing the lowest bit finds
them. -/
def maskBits (mask : ℕ) : List ℕ :=
  if h : mask = 0 then []
  else trailingZeros 16 mask :: maskBits (mask &&& (mask - 1))
termination_by mask
decreasing_by exact and_pred_lt h

section Index

variable {C : Type} (normalize : List Char → List Char)

/-- One bit for every search tag that is not empty. -/
def maskOf (e : AddressEntry C) : ℕ :=
  (addressSearchTags.zipIdx).foldl
    (fun mask key => if e.tag key.1 ≠ [] then mask ||| 1 <<< key.2 else mask) 0

/-- The value of a search tag by its number. -/
def searchTag (e : AddressEntry C) (j : ℕ) : List Char :=
  match addressSearchTags[j]? with
  | none => []
  | some key => e.tag key

/-- The values so far and the cache of common ones. -/
structure IndexBuild where
  values : List (List Char)
  common : GoMap (List Char) (List Char)

/-- Append the normalized value of a tag. -/
def addValue (e : AddressEntry C) (b : IndexBuild) (j : ℕ) : IndexBuild :=
  let raw := searchTag e j
  match b.common.lookup raw with
  | some value => { b with values := b.values ++ [value] }
  | none =>
    let value := normalize raw
    { values := b.values ++ [value]
      common :=
        if 2 ≤ j ∧ b.common.entries.length < 4096 then b.common.insert raw value else b.common }

/-- Append the values of the present tags of an entry, and note where they start. -/
def addEntry (state : List ℕ × IndexBuild) (e : AddressEntry C) : List ℕ × IndexBuild :=
  (state.1 ++ [state.2.values.length], (maskBits (maskOf e)).foldl (addValue normalize e) state.2)

def newAddressIndex (entries : List (AddressEntry C)) : AddressIndex C :=
  let built := entries.foldl (addEntry normalize) ([], ⟨[], ∅⟩)
  { entries := entries
    offsets := built.1
    masks := entries.map maskOf
    values := built.2.values }

/-- Put the values from a place on to the numbers of their tags. -/
def spread (values : List (List Char)) : ℕ → List ℕ → List (List Char) → List (List Char)
  | _, [], out => out
  | pos, j :: js, out => spread values (pos + 1) js (out.set j ((values[pos]?).getD []))

/-- The fields of 13 values. -/
def fieldsOfValues (values : List (List Char)) : NormalizedAddressFields :=
  let value := fun j : ℕ => (values[j]?).getD []
  { street := value 0
    house := value 1
    postcode := value 2
    city := value 3
    place := value 4
    name := value 5
    brand := value 6
    operator := value 7
    shop := value 8
    office := value 9
    amenity := value 10
    tourism := value 11
    leisure := value 12 }

namespace AddressIndex

variable (x : AddressIndex C)

def fields (i : ℕ) : NormalizedAddressFields :=
  fieldsOfValues (spread x.values ((x.offsets[i]?).getD 0) (maskBits ((x.masks[i]?).getD 0))
    (List.replicate 13 []))

def search (isLetter : Char → Bool) (q : AddressQuery) (limit : ℤ) : List (AddressEntry C) :=
  searchAddressEntries x.entries (normalizeAddressQuery isLetter normalize q) limit
    fun i query => (x.fields i).score query

def findBest (isLetter : Char → Bool) (q : AddressQuery) : Option (AddressEntry C) :=
  let query := normalizeAddressQuery isLetter normalize q
  (x.entries.zipIdx.foldl (fun best e => betterDestination best e.1
    ((x.fields e.2).destinationScore query)) (none, 0)).1

end AddressIndex

end Index

end OsmMini.Core

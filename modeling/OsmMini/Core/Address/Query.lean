import OsmMini.Core.Types
import OsmMini.Foundations.SortSlice
import OsmMini.Foundations.Text

/-!
# Address queries

A query names parts of an address, or is a free text, or both. Every part is normalized
before it is compared. Whether the parts were merely guessed from the text is found out by
guessing them again.

How text is normalized, and which characters are letters, are parameters.
-/

set_option autoImplicit false

namespace OsmMini.Core

open OsmMini.Foundations.Text (cut trimSpace fields joinWords)

structure AddressQuery where
  street : List Char
  housenumber : List Char
  postcode : List Char
  city : List Char
  raw : List Char
  deriving DecidableEq

structure NormalizedAddressQuery where
  street : List Char
  housenumber : List Char
  postcode : List Char
  city : List Char
  raw : List Char
  guessed : Bool
  deriving DecidableEq

def isDigit (c : Char) : Bool := '0' ≤ c && c ≤ '9'

def allDigits (s : List Char) : Bool := s.all isDigit && 0 < s.length

/-- A postcode of five digits. -/
def isPostcode (s : List Char) : Bool := s.length = 5 && allDigits s

/-- Commas and semicolons separate words. -/
def addressSeparators (s : List Char) : List Char :=
  s.map fun c => if c = ',' ∨ c = ';' then ' ' else c

/-- The elements before the first that is wanted, that element, and those after it. -/
def splitFirst {α : Type} (wanted : α → Bool) : List α → Option (List α × α × List α)
  | [] => none
  | a :: l =>
    if wanted a then some ([], a, l)
    else (splitFirst wanted l).map fun split => (a :: split.1, split.2.1, split.2.2)

/-- The elements before the last that is wanted, that element, and those after it. -/
def splitLast {α : Type} (wanted : α → Bool) : List α → Option (List α × α × List α)
  | [] => none
  | a :: l =>
    match splitLast wanted l with
    | some split => some (a :: split.1, split.2.1, split.2.2)
    | none => if wanted a then some ([], a, l) else none

section Queries

variable (isLetter : Char → Bool) (normalize : List Char → List Char)

/-- Digits with a range or a suffix of letters. -/
def isHouseNumberToken (s : List Char) : Bool :=
  let rest := s.dropWhile isDigit
  if s.takeWhile isDigit = [] then false
  else
    match rest with
    | c :: range =>
      if c = '/' ∨ c = '-' then
        if range.takeWhile isDigit = [] then false else (range.dropWhile isDigit).all isLetter
      else rest.all isLetter
    | [] => true

def parseAddressGuess (raw : List Char) : AddressQuery :=
  let raw := trimSpace raw
  if raw = [] then ⟨[], [], [], [], []⟩
  else
    let (street, locality, comma) := cut ',' raw
    let words := fields (addressSeparators street)
    let (postcode, city, words) :=
      match splitFirst isPostcode words with
      | some (before, postcode, after) => (postcode, joinWords after, before)
      | none => ([], [], words)
    let (postcode, city) :=
      if comma then
        match fields (addressSeparators locality) with
        | first :: after =>
          if isPostcode first then (first, joinWords after)
          else (postcode, joinWords (first :: after))
        | [] => (postcode, [])
      else (postcode, city)
    match splitLast (isHouseNumberToken isLetter) words with
    | none => ⟨joinWords words, [], postcode, city, raw⟩
    | some (before, house, after) =>
      -- A number in front of the street is accepted as well.
      if before = [] ∧ after ≠ [] then ⟨joinWords after, house, postcode, city, raw⟩
      else
        let city := if !comma && city = [] then joinWords after else city
        ⟨joinWords before, house, postcode, city, raw⟩

/-- Only parts that the parser of free text would produce itself count as guessed. -/
def normalizeAddressQuery (q : AddressQuery) : NormalizedAddressQuery :=
  let guessed :=
    if q.raw ≠ [] ∧ (q.housenumber ≠ [] ∨ q.postcode ≠ [] ∨ q.city ≠ []) then
      let parsed := parseAddressGuess isLetter q.raw
      decide (q.street = parsed.street ∧ q.housenumber = parsed.housenumber ∧
        q.postcode = parsed.postcode ∧ q.city = parsed.city)
    else false
  { street := normalize q.street
    housenumber := normalize q.housenumber
    postcode := normalize q.postcode
    city := normalize q.city
    raw := normalize (trimSpace q.raw)
    guessed := guessed }

end Queries

end OsmMini.Core

/-!
## Scores of addresses

An entry of the catalog is scored by how well its tags match a query. The plain search
normalizes only the tags that a query can need.
-/

namespace OsmMini.Core

open OsmMini.Foundations

/-- An entry of the catalog; a tag that is missing reads as the empty text. -/
structure AddressEntry (C : Type) where
  id : Int64
  coord : C
  tags : GoMap String (List Char)

def AddressEntry.tag {C : Type} (e : AddressEntry C) (key : String) : List Char :=
  (e.tags.lookup key).getD []

structure NormalizedAddressFields where
  street : List Char
  house : List Char
  postcode : List Char
  city : List Char
  place : List Char
  name : List Char
  brand : List Char
  operator : List Char
  shop : List Char
  office : List Char
  amenity : List Char
  tourism : List Char
  leisure : List Char
  deriving DecidableEq

/-- The text if it is needed. -/
def whenNeeded (needed : Bool) (s : List Char) : List Char := if needed then s else []

def normalizedAddressFieldsFromTags {C : Type} (normalize : List Char → List Char)
    (e : AddressEntry C) (q : NormalizedAddressQuery) : NormalizedAddressFields :=
  let house := q.housenumber ≠ []
  let postcode := q.postcode ≠ []
  let city := q.city ≠ [] ∨ q.raw ≠ []
  let street := q.street ≠ [] ∨ q.raw ≠ []
  let raw := q.raw ≠ []
  { house := whenNeeded house (normalize (e.tag "addr:housenumber"))
    postcode := whenNeeded postcode (normalize (e.tag "addr:postcode"))
    city := whenNeeded city (normalize (e.tag "addr:city"))
    place := whenNeeded city (normalize (e.tag "addr:place"))
    street := whenNeeded street (normalize (e.tag "addr:street"))
    name := whenNeeded street (normalize (e.tag "name"))
    brand := whenNeeded street (normalize (e.tag "brand"))
    operator := whenNeeded street (normalize (e.tag "operator"))
    shop := whenNeeded street (normalize (e.tag "shop"))
    office := whenNeeded street (normalize (e.tag "office"))
    amenity := whenNeeded street (normalize (e.tag "amenity"))
    tourism := whenNeeded raw (normalize (e.tag "tourism"))
    leisure := whenNeeded raw (normalize (e.tag "leisure")) }

/-- A part of a query is met by a value; a missing part is met by none. -/
def equalField (value query : List Char) : Bool := query ≠ [] && value = query

def containsField (value query : List Char) : Bool :=
  value ≠ [] && query ≠ [] && decide (query <:+: value)

namespace NormalizedAddressFields

variable (f : NormalizedAddressFields)

/-- The points for the parts of an address. -/
def partScore (q : NormalizedAddressQuery) : ℕ :=
  (if equalField f.street q.street then 3 else 0) +
  (if equalField f.house q.housenumber then 4 else 0) +
  (if equalField f.postcode q.postcode then 2 else 0) +
  (if q.city ≠ [] then
    if equalField f.city q.city || equalField f.place q.city then 1 else 0
  else 0)

/-- The points for a free text. -/
def rawScore (raw : List Char) : ℕ :=
  if raw ≠ [] then
    (if equalField f.name raw then 6
      else if containsField f.name raw then 3 else 0) +
    (if equalField f.brand raw || equalField f.operator raw then 4
      else if containsField f.brand raw || containsField f.operator raw then 2 else 0) +
    (if equalField f.shop raw || equalField f.office raw || equalField f.amenity raw ||
        equalField f.tourism raw || equalField f.leisure raw then 3
      else if containsField f.shop raw || containsField f.office raw ||
        containsField f.amenity raw || containsField f.tourism raw ||
        containsField f.leisure raw then 1 else 0) +
    (if equalField f.street raw then 4
      else if containsField f.street raw then 1 else 0) +
    (if equalField f.city raw || equalField f.place raw then 3 else 0)
  else 0

/-- The points for names of firms and shops in the place of a street, on top of a score. -/
def nameScore (street : List Char) (score : ℕ) : ℕ :=
  if street ≠ [] then
    let score := score +
      (if equalField f.name street then 5
        else if containsField f.name street then 2 else 0)
    let score := score +
      (if equalField f.brand street || equalField f.operator street then 3
        else if containsField f.brand street || containsField f.operator street then 1 else 0)
    let score := score +
      (if equalField f.shop street || equalField f.office street || equalField f.amenity street
        then 2
        else if containsField f.shop street || containsField f.office street ||
          containsField f.amenity street then 1 else 0)
    -- A part of the street only counts when nothing else does.
    if score = 0 && containsField f.street street then score + 1 else score
  else score

def score (q : NormalizedAddressQuery) : ℕ :=
  f.nameScore q.street (f.partScore q + f.rawScore q.raw)

/-- The score of a destination: parts of an address that are named must agree. -/
def destinationScore (q : NormalizedAddressQuery) : ℕ :=
  if q.guessed && q.raw ≠ [] &&
      (f.name = q.raw || f.brand = q.raw || f.operator = q.raw || f.street = q.raw) then
    f.score q
  else if (q.postcode ≠ [] && f.postcode ≠ q.postcode) ||
      (q.city ≠ [] && f.city ≠ q.city && f.place ≠ q.city) then 0
  else if q.housenumber ≠ [] && (f.house ≠ q.housenumber ||
      (q.street ≠ [] && f.street ≠ q.street && f.name ≠ q.street && f.brand ≠ q.street &&
        f.operator ≠ q.street)) then 0
  else if q.street ≠ [] && q.housenumber = [] && f.score ⟨q.street, [], [], [], [], false⟩ = 0
  then 0
  else if q.housenumber ≠ [] && f.score q ≤ 4 then 0
  else f.score q

end NormalizedAddressFields

/-! ## Searching -/

section Searching

variable {C : Type}

/-- A match: the place of its entry in the catalog and its score. -/
structure Scored where
  index : ℕ
  s : ℕ
  deriving DecidableEq

/-- A match comes first for its score, and then for the ID of its entry. -/
def better (entries : List (AddressEntry C)) (a b : Scored) : Bool :=
  let id := fun m : Scored => entries[m.index]?.map AddressEntry.id
  b.s < a.s || (a.s = b.s && ((id a).any fun x => (id b).any fun y => x < y))

/-- Put a match in front of the matches at the end that it is better than. -/
def insertScored (entries : List (AddressEntry C)) (candidate : Scored) (sc : List Scored) :
    List Scored :=
  let tail := sc.reverse.takeWhile (better entries candidate)
  let front := sc.reverse.dropWhile (better entries candidate)
  front.reverse ++ candidate :: tail.reverse

/-- Take an entry into the matches, of which a limited number is kept. -/
def addScored (entries : List (AddressEntry C)) (limit : ℕ) (sc : List Scored)
    (candidate : Scored) : List Scored :=
  if candidate.s = 0 then sc
  else if limit = entries.length then sc ++ [candidate]
  else if sc.length = limit ∧ ¬sc.getLast?.any (fun last => better entries candidate last) then sc
  else (insertScored entries candidate sc).take limit

def searchAddressEntries (entries : List (AddressEntry C)) (query : NormalizedAddressQuery)
    (limit : ℤ) (score : ℕ → NormalizedAddressQuery → ℕ) : List (AddressEntry C) :=
  let limit := if limit ≤ 0 ∨ (entries.length : ℤ) < limit then entries.length else limit.toNat
  let sc := (List.range entries.length).foldl (fun sc i =>
    addScored entries limit sc ⟨i, score i query⟩) []
  let sc := if limit = entries.length then sortSlice (better entries) sc else sc
  sc.filterMap fun m => entries[m.index]?

/-- Keep an entry that scores more, or as much under a smaller ID. -/
def betterDestination (best : Option (AddressEntry C) × ℕ) (e : AddressEntry C) (score : ℕ) :
    Option (AddressEntry C) × ℕ :=
  if best.2 < score ∨ (0 < score ∧ score = best.2 ∧ best.1.any fun b => e.id < b.id) then
    (some e, score)
  else best

variable (isLetter : Char → Bool) (normalize : List Char → List Char)

def searchAddresses (entries : List (AddressEntry C)) (q : AddressQuery) (limit : ℤ) :
    List (AddressEntry C) :=
  searchAddressEntries entries (normalizeAddressQuery isLetter normalize q) limit fun i query =>
    match entries[i]? with
    | none => 0
    | some e => (normalizedAddressFieldsFromTags normalize e query).score query

/-- The destination, if one scores. -/
def findBestAddress (entries : List (AddressEntry C)) (q : AddressQuery) :
    Option (AddressEntry C) :=
  let query := normalizeAddressQuery isLetter normalize q
  (entries.foldl (fun best e => betterDestination best e
    ((normalizedAddressFieldsFromTags normalize e query).destinationScore query)) (none, 0)).1

end Searching

end OsmMini.Core

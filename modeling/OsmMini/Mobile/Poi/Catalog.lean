import OsmMini.Core.Types
import OsmMini.Foundations.Text
import OsmMini.Mobile.Poi.Cells
import OsmMini.Mobile.Search.Delivery

/-!
# The POIs of a search catalog

A catalog is a stream of records, one on each line. A record of a node or way that has a
category, a label and a coordinate, and that names no settlement, is a POI. The POI index
addresses these records by where their lines stand in the stream.

The decoder of a line and the projection of a record to the square map are parameters.
-/

set_option autoImplicit false

namespace OsmMini.Mobile

open OsmMini.Foundations

/-- A record of the catalog. `D` is the type of its details. -/
structure SearchResult (D : Type) where
  id : ℤ
  kind : List Char
  label : List Char
  coordinate : Core.Coord F64
  category : List Char
  place : List Char
  details : Option D

/-! ## Valid records -/

/-- The lowest zoom that shows a kind of settlement. -/
def placeMinZoom (kind : List Char) : ℤ :=
  if kind = "city".toList then 5
  else if kind = "town".toList then 8
  else if kind = "village".toList then 10
  else if kind = "hamlet".toList ∨ kind = "suburb".toList then 12
  else if kind = "quarter".toList then 13
  else if kind = "neighbourhood".toList ∨ kind = "isolated_dwelling".toList then 14
  else -1

/-- The control characters of Unicode. -/
def isControl (c : Char) : Bool := c.toNat < 0x20 || 0x7F ≤ c.toNat && c.toNat < 0xA0

/-- A trimmed text, or nothing when it has too many bytes or a control character. -/
def boundedSourceText (value : List Char) (limit : ℕ) : List Char :=
  let value := Text.trimSpace value
  if limit < (value.map Char.utf8Size).sum || value.any isControl then [] else value

/-- Whether a number lies between the negative of a bound and the bound. -/
def withinBound (x : F64) (bound : ℚ) : Bool :=
  F64.le (F64.ofFields false (x.bits.toNat % 2 ^ 63)) (F64.ofRat bound)

section Records

variable {D : Type}

def validPOI (record : SearchResult D) : Bool :=
  let lat := record.coordinate.lat
  let lon := record.coordinate.lon
  (record.kind = "node".toList || record.kind = "way".toList) && record.id ≠ 0 &&
    record.place = [] && placeMinZoom record.category < 0 &&
    boundedSourceText record.category 256 ≠ [] && boundedSourceText record.label 2048 ≠ [] &&
    !lat.isNaN && !lon.isNaN && withinBound lat 90 && withinBound lon 180

/-- The text that tells the POIs apart. -/
def poiIdentity (record : SearchResult D) : List Char :=
  record.kind ++ '/' :: (Int.repr record.id).toList

theorem validPOI_kind {record : SearchResult D} (valid : validPOI record = true) :
    record.kind = "node".toList ∨ record.kind = "way".toList := by
  simp only [validPOI, Bool.and_eq_true, Bool.or_eq_true, decide_eq_true_eq] at valid
  tauto

/-- **The identity of a POI is its kind and number.** -/
theorem poiIdentity_inj {a b : SearchResult D} (aValid : validPOI a = true)
    (bValid : validPOI b = true) (same : poiIdentity a = poiIdentity b) :
    a.kind = b.kind ∧ a.id = b.id := by
  have number : ∀ {m n : ℤ}, (Int.repr m).toList = (Int.repr n).toList → m = n :=
    fun equal => Int.repr_injective (String.toList_injective equal)
  unfold poiIdentity at same
  rcases validPOI_kind aValid with ha | ha <;> rcases validPOI_kind bValid with hb | hb <;>
    rw [ha, hb] at same ⊢
  · exact ⟨rfl, number (List.cons.inj (List.append_cancel_left same)).2⟩
  · exact absurd (List.cons.inj same).1 (by decide)
  · exact absurd (List.cons.inj same).1 (by decide)
  · exact ⟨rfl, number (List.cons.inj (List.append_cancel_left same)).2⟩

/-! ## Scanning the stream -/

/-- The lines of a stream, each with its line feed. -/
def linesOf : List UInt8 → List (List UInt8)
  | [] => []
  | b :: rest =>
    if b = 10 then [b] :: linesOf rest
    else
      match linesOf rest with
      | [] => [[b]]
      | line :: lines => (b :: line) :: lines

theorem linesOf_flatten : ∀ stream : List UInt8, (linesOf stream).flatten = stream
  | [] => rfl
  | b :: rest => by
      have ih := linesOf_flatten rest
      rw [linesOf]
      split_ifs with ended
      · rw [List.flatten_cons, ih, List.singleton_append]
      · split
        · rename_i none
          rw [none] at ih
          rw [← ih]
          rfl
        · rename_i line lines some
          rw [some] at ih
          rw [← ih]
          rfl

theorem ne_nil_of_mem_linesOf : ∀ {stream line : List UInt8}, line ∈ linesOf stream → line ≠ []
  | b :: rest, line, member => by
      rw [linesOf] at member
      split_ifs at member with ended
      · rcases List.mem_cons.mp member with rfl | later
        · exact List.cons_ne_nil _ _
        · exact ne_nil_of_mem_linesOf later
      · split at member
        · obtain rfl := List.mem_singleton.mp member
          exact List.cons_ne_nil _ _
        · rename_i first lines some
          rcases List.mem_cons.mp member with rfl | later
          · exact List.cons_ne_nil _ _
          · have inside : line ∈ linesOf rest := by
              rw [some]
              exact List.mem_cons_of_mem _ later
            exact ne_nil_of_mem_linesOf inside

/-- The text `"category"`, which the line of every POI contains. -/
def categoryMark : List UInt8 := [34, 99, 97, 116, 101, 103, 111, 114, 121, 34]

/-- A record with the place of its line in the stream. -/
structure Located (D : Type) where
  record : SearchResult D
  offset : ℕ
  length : ℕ

/-- The POIs of the lines from an offset on. Only lines with a category are decoded. -/
def scanLines (unmarshal : List UInt8 → Except String (SearchResult D)) :
    ℕ → List (List UInt8) → Except String (List (Located D))
  | _, [] => .ok []
  | offset, line :: lines =>
    if maxSearchRecordBytes < line.length then .error "POI search record exceeds size limit"
    else if categoryMark <:+: line then
      match unmarshal line with
      | .error err => .error err
      | .ok record =>
        match scanLines unmarshal (offset + line.length) lines with
        | .error err => .error err
        | .ok later =>
          .ok (if validPOI record then ⟨record, offset, line.length⟩ :: later else later)
    else scanLines unmarshal (offset + line.length) lines

def scanPOIRecords (unmarshal : List UInt8 → Except String (SearchResult D))
    (stream : List UInt8) : Except String (List (Located D)) :=
  scanLines unmarshal 0 (linesOf stream)

/-! ## What a scan finds -/

/-- A POI stands in the stream: its line is there, decodes to it, and it is valid. -/
structure Stands (unmarshal : List UInt8 → Except String (SearchResult D)) (stream : List UInt8)
    (found : Located D) : Prop where
  range : InRange stream found.offset found.length
  decodes : unmarshal (portion stream found.offset found.length) = .ok found.record
  valid : validPOI found.record = true

/-- **A scan finds POIs that stand in the stream**, at ascending offsets. -/
theorem scanLines_spec {unmarshal : List UInt8 → Except String (SearchResult D)} :
    ∀ {lines : List (List UInt8)} {before : List UInt8} {found : List (Located D)},
      (∀ line ∈ lines, line ≠ []) → scanLines unmarshal before.length lines = .ok found →
      (∀ f ∈ found, Stands unmarshal (before ++ lines.flatten) f ∧ before.length ≤ f.offset) ∧
        found.Pairwise fun f g => f.offset < g.offset
  | [], before, found, _, run => by
      obtain rfl := Except.ok.inj run
      exact ⟨fun f none => absurd none List.not_mem_nil, .nil⟩
  | line :: lines, before, found, nonempty, run => by
      have some := List.length_pos_iff.mpr (nonempty line (List.mem_cons_self ..))
      have ih := fun later => @scanLines_spec unmarshal lines (before ++ line) later
        fun l member => nonempty l (List.mem_cons_of_mem _ member)
      rw [List.length_append, List.append_assoc, ← List.flatten_cons] at ih
      rw [scanLines] at run
      split_ifs at run with large marked
      · split at run
        · cases run
        · rename_i record decoded
          split at run
          · cases run
          · rename_i later scanned
            obtain ⟨stands, ascending⟩ := ih later scanned
            have further : ∀ f ∈ later,
                Stands unmarshal (before ++ (line :: lines).flatten) f ∧ before.length ≤ f.offset :=
              fun f member => ⟨(stands f member).1, by have := (stands f member).2; omega⟩
            obtain rfl := Except.ok.inj run
            split_ifs with valid
            · refine ⟨fun f member => ?_, List.pairwise_cons.mpr ⟨fun f member => ?_, ascending⟩⟩
              · rcases List.mem_cons.mp member with rfl | after
                · refine ⟨⟨⟨some, not_lt.mp large, ?_⟩, ?_, valid⟩, le_refl _⟩
                  · simp only [List.length_append, List.flatten_cons]
                    omega
                  · rw [List.flatten_cons, ← List.append_assoc, portion_middle]
                    exact decoded
                · exact further f after
              · have later := (stands f member).2
                dsimp only
                omega
            · exact ⟨further, ascending⟩
      · obtain ⟨stands, ascending⟩ := ih found run
        exact ⟨fun f member => ⟨(stands f member).1, by have := (stands f member).2; omega⟩, ascending⟩

/-- **Scanning a catalog** finds POIs that stand in it, at ascending offsets. -/
theorem scanPOIRecords_spec {unmarshal : List UInt8 → Except String (SearchResult D)}
    {stream : List UInt8} {found : List (Located D)}
    (run : scanPOIRecords unmarshal stream = .ok found) :
    (∀ f ∈ found, Stands unmarshal stream f) ∧ found.Pairwise fun f g => f.offset < g.offset := by
  obtain ⟨stands, ascending⟩ := @scanLines_spec _ _ _ [] _ (fun _ => ne_nil_of_mem_linesOf) run
  rw [List.nil_append, linesOf_flatten] at stands
  exact ⟨fun f member => (stands f member).1, ascending⟩

end Records

end OsmMini.Mobile

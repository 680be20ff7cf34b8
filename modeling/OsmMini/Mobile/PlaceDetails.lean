import Mathlib.Data.List.DropRight
import OsmMini.Mobile.Poi.Catalog

/-!
# The details of a place

A record may carry the address, the contact data and the emergency equipment that its source
tells. Texts that are too long or that hold characters nobody sees are left out before a
record is shown. Cleaning details a second time changes nothing (`cleanDetails_idem`).

Which characters belong to which class of Unicode, and the canonical composition of a text,
are parameters.
-/

set_option autoImplicit false

namespace OsmMini.Mobile

open OsmMini.Foundations

/-- What the program asks of Unicode. -/
structure Unicode where
  nfc : List Char → List Char
  toLower : Char → Char
  isLetter : Char → Bool
  isDigit : Char → Bool
  isFormat : Char → Bool

structure EmergencyDetails where
  reference : List Char
  hydrantType : List Char
  diameter : List Char
  pressure : List Char
  waterSource : List Char
  waterVolume : List Char
  deriving DecidableEq

structure PlaceDetails where
  address : List Char
  openingHours : List Char
  phone : List Char
  website : List Char
  emergency : Option EmergencyDetails
  deriving DecidableEq

section Clean

variable (u : Unicode)

/-- A text without format characters that is short enough. -/
def detailValue (value : List Char) (limit : ℕ) : List Char :=
  let value := boundedSourceText value limit
  if value.any u.isFormat then [] else value

def cleanEmergencyDetails : Option EmergencyDetails → Option EmergencyDetails
  | none => none
  | some details =>
    let value : EmergencyDetails :=
      { reference := detailValue u details.reference 256
        hydrantType := detailValue u details.hydrantType 256
        diameter := detailValue u details.diameter 256
        pressure := detailValue u details.pressure 256
        waterSource := detailValue u details.waterSource 256
        waterVolume := detailValue u details.waterVolume 256 }
    if value = ⟨[], [], [], [], [], []⟩ then none else some value

def cleanDetails : Option PlaceDetails → Option PlaceDetails
  | none => none
  | some details =>
    let value : PlaceDetails :=
      { address := detailValue u details.address 1024
        openingHours := detailValue u details.openingHours 1024
        phone := detailValue u details.phone 128
        website := detailValue u details.website 2048
        emergency := cleanEmergencyDetails u details.emergency }
    if value = ⟨[], [], [], [], none⟩ then none else some value

end Clean

/-! ## Cleaning again -/

/-- A trimmed text stays as it is. -/
theorem trimSpace_idem (s : List Char) :
    Text.trimSpace (Text.trimSpace s) = Text.trimSpace s := by
  have trimmed : ∀ t, Text.trimSpace t =
      List.rdropWhile Text.isSpace (t.dropWhile Text.isSpace) := fun _ => rfl
  rw [trimmed s, trimmed]
  set front := s.dropWhile Text.isSpace with cut
  have start : (front.rdropWhile Text.isSpace).dropWhile Text.isSpace =
      front.rdropWhile Text.isSpace := by
    have first : front.dropWhile Text.isSpace = front :=
      List.dropWhile_idempotent _ s
    rw [List.dropWhile_eq_self_iff] at first ⊢
    intro some
    obtain ⟨rest, split⟩ := List.rdropWhile_prefix Text.isSpace front
    have longer : 0 < front.length := by
      rw [← split, List.length_append]
      omega
    have here := first longer
    rwa [List.getElem_of_eq split.symm, List.getElem_append_left some] at here
  rw [start]
  exact List.rdropWhile_idempotent _ _

theorem boundedSourceText_idem (value : List Char) (limit : ℕ) :
    boundedSourceText (boundedSourceText value limit) limit = boundedSourceText value limit := by
  by_cases refused : (limit < ((Text.trimSpace value).map Char.utf8Size).sum ||
      (Text.trimSpace value).any isControl) = true
  · have none : boundedSourceText value limit = [] := by
      rw [boundedSourceText]
      exact if_pos (by simpa using refused)
    rw [none]
    simp [boundedSourceText, Text.trimSpace]
  · have kept : boundedSourceText value limit = Text.trimSpace value := by
      rw [boundedSourceText]
      exact if_neg (by simpa using refused)
    rw [kept, boundedSourceText, trimSpace_idem]
    exact if_neg (by simpa using refused)

variable {u : Unicode}

@[simp] theorem detailValue_idem (value : List Char) (limit : ℕ) :
    detailValue u (detailValue u value limit) limit = detailValue u value limit := by
  by_cases hidden : (boundedSourceText value limit).any u.isFormat = true
  · have none : detailValue u value limit = [] := if_pos hidden
    rw [none]
    simp [detailValue, boundedSourceText, Text.trimSpace]
  · have kept : detailValue u value limit = boundedSourceText value limit := if_neg hidden
    rw [kept, detailValue, boundedSourceText_idem]
    exact if_neg hidden

@[simp] theorem cleanEmergencyDetails_idem (details : Option EmergencyDetails) :
    cleanEmergencyDetails u (cleanEmergencyDetails u details) =
      cleanEmergencyDetails u details := by
  cases details with
  | none => rfl
  | some details =>
      rw [cleanEmergencyDetails]
      split_ifs with empty
      · rfl
      · simp only [cleanEmergencyDetails, detailValue_idem]
        exact if_neg empty

/-- **Cleaning twice is cleaning once.** -/
@[simp] theorem cleanDetails_idem (details : Option PlaceDetails) :
    cleanDetails u (cleanDetails u details) = cleanDetails u details := by
  cases details with
  | none => rfl
  | some details =>
      rw [cleanDetails]
      split_ifs with empty
      · rfl
      · simp only [cleanDetails, detailValue_idem, cleanEmergencyDetails_idem]
        exact if_neg empty

end OsmMini.Mobile

import Mathlib.Data.List.Infix
import Mathlib.Order.Defs.LinearOrder
import Mathlib.Tactic.Common
import OsmMini.Foundations.Firsts

/-!
# Tables as comma-separated values

The workbench reads tables and writes the attributes of a collection as one. The reader is an
automaton over the code units of a text; the writer puts every cell in quotes.

What the text of a table is, is said apart from both: a row is a list of fields with commas
between them, and a field is quoted, with every quote in it doubled, or bare. A row ends with a
line feed, a carriage return or both, and the last one may do without.
-/

set_option autoImplicit false

namespace OsmMini.Cmd.Workbench

open OsmMini.Foundations

/-- A text as its code units. -/
abbrev Text16 := List UInt16

namespace Csv

def comma : UInt16 := 44
def quote : UInt16 := 34
def cr : UInt16 := 13
def lf : UInt16 := 10
def apostrophe : UInt16 := 39
/-- The mark that some programs put before a text. -/
def bom : UInt16 := 0xFEFF

/-! ## The format -/

/-- A cell and whether it stands in quotes. -/
structure Field where
  quoted : Bool
  cell : Text16
  deriving DecidableEq

/-- A unit that only a quoted field may have. -/
def isMark (c : UInt16) : Bool := c = comma || c = quote || c = cr || c = lf

/-- A bare field has no marks. -/
def Field.Valid (f : Field) : Prop := f.quoted = true ∨ ∀ c ∈ f.cell, isMark c = false

instance (f : Field) : Decidable f.Valid := inferInstanceAs (Decidable (_ ∨ _))

/-- A cell with its quotes doubled. -/
def doubled (cell : Text16) : Text16 :=
  cell.flatMap fun c => if c = quote then [quote, quote] else [c]

def Field.text (f : Field) : Text16 :=
  if f.quoted then quote :: (doubled f.cell ++ [quote]) else f.cell

/-- The end of a row. -/
inductive Ending where
  | lineFeed
  | carriageReturn
  | both
  deriving DecidableEq

def Ending.text : Ending → Text16
  | .lineFeed => [lf]
  | .carriageReturn => [cr]
  | .both => [cr, lf]

/-- Fields with a comma behind each. -/
def separated (fields : List Field) : Text16 := fields.flatMap fun f => f.text ++ [comma]

/-- The fields of a row: those before the last one, and the last one. -/
structure Row where
  front : List Field
  last : Field

def Row.text (r : Row) : Text16 := separated r.front ++ r.last.text

def Row.cells (r : Row) : List Text16 := r.front.map Field.cell ++ [r.last.cell]

def Row.Valid (r : Row) : Prop := (∀ f ∈ r.front, f.Valid) ∧ r.last.Valid

/-- Rows with their ends. -/
def ended (rows : List (Row × Ending)) : Text16 := rows.flatMap fun r => r.1.text ++ r.2.text

/-- A text and the rows it stands for. The last row may have no end. -/
inductive Encodes : List (List Text16) → Text16 → Prop
  | complete (rows : List (Row × Ending)) (valid : ∀ r ∈ rows, r.1.Valid) :
      Encodes (rows.map fun r => r.1.cells) (ended rows)
  | incomplete (rows : List (Row × Ending)) (valid : ∀ r ∈ rows, r.1.Valid) (last : Row)
      (lastValid : last.Valid) :
      Encodes (rows.map (fun r => r.1.cells) ++ [last.cells]) (ended rows ++ last.text)

/-! ## Reading -/

def maxBytes : ℕ := 10 * 1024 * 1024

/-- The bytes of a text in UTF-8. A surrogate without its partner becomes a replacement
character. -/
def utf8Length : Text16 → ℕ
  | [] => 0
  | c :: source =>
    if c < 0x80 then 1 + utf8Length source
    else if c < 0x800 then 2 + utf8Length source
    else if 0xD800 ≤ c ∧ c < 0xDC00 then
      match source with
      | [] => 3
      | d :: rest =>
        if 0xDC00 ≤ d ∧ d < 0xE000 then 4 + utf8Length rest else 3 + utf8Length (d :: rest)
    else 3 + utf8Length source

/-- White space as JavaScript has it. -/
def isSpace (c : UInt16) : Bool :=
  9 ≤ c && c ≤ 13 || c = 0x20 || c = 0xA0 || c = 0x1680 || 0x2000 ≤ c && c ≤ 0x200A ||
    c = 0x2028 || c = 0x2029 || c = 0x202F || c = 0x205F || c = 0x3000 || c = bom

/-- The reader between two code units: the rows that are complete, the cells of the current
row, the current cell, and where in the cell the reader is. -/
structure Reader where
  rows : List (List Text16)
  row : List Text16
  cell : Text16
  quoted : Bool
  closed : Bool
  start : Bool

namespace Reader

/-- The reader before a text. -/
def new : Reader := ⟨[], [], [], false, false, true⟩

def finishCell (r : Reader) : Reader :=
  { r with row := r.row ++ [r.cell], cell := [], closed := false, start := true }

/-- Rows without any text are left out. -/
def finishRow (r : Reader) : Except String Reader :=
  let r := r.finishCell
  let rows := if r.row.any (· ≠ []) then r.rows ++ [r.row] else r.rows
  if 10001 < rows.length then .error "Maximal 10000 CSV-Datensätze."
  else .ok { r with rows := rows, row := [] }

/-- Read a text. A doubled quote and a line feed behind a carriage return are taken together
with the unit before them. -/
def scan : Reader → Text16 → Except String Reader
  | r, [] => .ok r
  | r, c :: source =>
    if r.quoted then
      if c = quote then
        match source with
        | [] => .ok { r with quoted := false, closed := true }
        | d :: rest =>
          if d = quote then scan { r with cell := r.cell ++ [quote] } rest
          else scan { r with quoted := false, closed := true } (d :: rest)
      else scan { r with cell := r.cell ++ [c] } source
    else if c = comma then scan r.finishCell source
    else if c = cr ∨ c = lf then
      match r.finishRow with
      | .error err => .error err
      | .ok r =>
        if c = cr then
          match source with
          | [] => .ok r
          | d :: rest => if d = lf then scan r rest else scan r (d :: rest)
        else scan r source
    else if c = quote ∧ r.start then scan { r with quoted := true, start := false } source
    else if r.closed ∨ c = quote then .error "Ungültige CSV-Anführungszeichen."
    else scan { r with cell := r.cell ++ [c], start := false } source

end Reader

/-- A table: the names of its columns, and for each row the cell under each name. -/
structure Table where
  header : List Text16
  rows : List (List (Text16 × Text16))
  deriving DecidableEq

/-- Whether a name has no text but white space. -/
def isBlank (name : Text16) : Bool := name.all isSpace

/-- The table of complete rows, whose first one has the names. -/
def tableOf : List (List Text16) → Except String Table
  | [] => .error "CSV benötigt eindeutige Spaltennamen (maximal 100)."
  | header :: rows =>
    if header = [] ∨ (∃ h ∈ header, isBlank h = true) ∨ ¬header.Nodup ∨ 100 < header.length then
      .error "CSV benötigt eindeutige Spaltennamen (maximal 100)."
    else if ∃ r ∈ rows, r.length ≠ header.length then
      .error "CSV-Zeilen haben unterschiedliche Spaltenzahlen."
    else .ok ⟨header, rows.map (header.zip ·)⟩

/-- A text without a mark before it. -/
def withoutBOM (source : Text16) : Text16 :=
  if source.head? = some bom then source.tail else source

/-- The rows of a text. -/
def readRows (source : Text16) : Except String (List (List Text16)) :=
  match Reader.new.scan source with
  | .error err => .error err
  | .ok r =>
    if r.quoted then .error "Nicht geschlossenes CSV-Textfeld."
    else if r.cell ≠ [] ∨ r.row ≠ [] ∨ r.closed then
      match r.finishRow with
      | .error err => .error err
      | .ok r => .ok r.rows
    else .ok r.rows

end Csv

def parseCSV (source : Text16) : Except String Csv.Table :=
  if Csv.maxBytes < Csv.utf8Length source then .error "CSV ist größer als 10 MiB."
  else
    match Csv.readRows (Csv.withoutBOM source) with
    | .error err => .error err
    | .ok rows => Csv.tableOf rows

/-! ## Writing -/

namespace Csv

/-- The characters that a spreadsheet takes for the start of a formula. -/
def startsFormula (c : UInt16) : Bool := c = 61 || c = 43 || c = 64 || c = 45

/-- A cell that no spreadsheet takes for a formula. -/
def neutral (s : Text16) : Text16 :=
  if (s.dropWhile isSpace).head?.any startsFormula || s.head?.any fun c => c = 9 || c = cr || c = lf
  then apostrophe :: s else s

end Csv

section Writing

variable {F : Type} (keys : F → List Text16) (textOf : F → Text16 → Text16)

/-- The names of the attributes of a collection, in order. -/
def fields (features : List F) : List Text16 :=
  (firsts id [] (features.flatMap keys)).mergeSort fun a b => a ≤ b

/-- The row of some cells, each in quotes. -/
def Csv.writeRow (cells : List Text16) : Text16 :=
  ((cells.map fun s => (Csv.Field.mk true (Csv.neutral s)).text).intersperse [Csv.comma]).flatten

def toCSV (features : List F) : Text16 :=
  let keys := fields keys features
  ((Csv.writeRow keys :: features.map fun f => Csv.writeRow (keys.map (textOf f))).intersperse
    [Csv.cr, Csv.lf]).flatten ++ [Csv.cr, Csv.lf]

end Writing

end OsmMini.Cmd.Workbench

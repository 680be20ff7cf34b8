import OsmMini.Cmd.Workbench.Csv

/-!
# Tables are read back

The reader takes one field after the other (`scan_field`), so it finds the rows that a text
encodes (`readRows_encodes`). In the other direction what it has read is at every point a text
of complete rows, complete fields and the start of a field (`Reads`), so it accepts encodings
only (`encodes_of_readRows`).

Two things come between a table and its encoding. A mark before the text is taken away even
when it belongs to the first name, and long texts are refused (`parseCSV_inverts`).
-/

set_option autoImplicit false

namespace OsmMini.Cmd.Workbench.Csv

open OsmMini.Foundations

/-! ## Reading an encoding -/

/-- The reader between two cells. -/
def Reader.between (rows : List (List Text16)) (row : List Text16) : Reader :=
  ⟨rows, row, [], false, false, true⟩

/-- The reader behind a field. -/
def Reader.behind (rows : List (List Text16)) (row : List Text16) (f : Field) : Reader :=
  ⟨rows, row, f.cell, false, f.quoted, !f.quoted && f.cell.isEmpty⟩

/-- Whether a row has any text. -/
def hasText (cells : List Text16) : Bool := cells.any (· ≠ [])

theorem not_mark {c : UInt16} (plain : isMark c = false) :
    c ≠ comma ∧ c ≠ quote ∧ c ≠ cr ∧ c ≠ lf := by
  simpa [isMark, and_assoc] using plain

/-! ### One unit -/

section Steps

variable {r : Reader} {c : UInt16} {rest : Text16}

theorem scan_inside (inside : r.quoted = true) (other : c ≠ quote) :
    r.scan (c :: rest) = Reader.scan { r with cell := r.cell ++ [c] } rest := by
  rw [Reader.scan.eq_def]
  dsimp only
  rw [if_pos inside, if_neg other]

theorem scan_double (inside : r.quoted = true) :
    r.scan (quote :: quote :: rest) = Reader.scan { r with cell := r.cell ++ [quote] } rest := by
  rw [Reader.scan.eq_def]
  dsimp only
  rw [if_pos inside, if_pos rfl, if_pos rfl]

theorem scan_close (inside : r.quoted = true) (alone : rest.head? ≠ some quote) :
    r.scan (quote :: rest) = Reader.scan { r with quoted := false, closed := true } rest := by
  rw [Reader.scan.eq_def]
  dsimp only
  rw [if_pos inside, if_pos rfl]
  cases rest with
  | nil => rfl
  | cons d rest =>
      dsimp only
      rw [if_neg fun same => alone (by rw [same]; rfl)]

theorem scan_comma (outside : r.quoted = false) :
    r.scan (comma :: rest) = r.finishCell.scan rest := by
  rw [Reader.scan.eq_def]
  dsimp only
  rw [outside, if_neg Bool.false_ne_true, if_pos rfl]

/-- The end of a row. Behind a carriage return comes no line feed. -/
theorem scan_end (outside : r.quoted = false) (e : Ending) {r' : Reader}
    (finished : r.finishRow = .ok r') (alone : e = .carriageReturn → rest.head? ≠ some lf) :
    r.scan (e.text ++ rest) = r'.scan rest := by
  cases e with
  | lineFeed =>
      rw [Ending.text, List.singleton_append, Reader.scan.eq_def]
      dsimp only
      rw [outside, if_neg Bool.false_ne_true, if_neg (by decide), if_pos (.inr rfl), finished]
      exact if_neg (by decide)
  | carriageReturn =>
      rw [Ending.text, List.singleton_append, Reader.scan.eq_def]
      dsimp only
      rw [outside, if_neg Bool.false_ne_true, if_neg (by decide), if_pos (.inl rfl), finished]
      dsimp only
      rw [if_pos rfl]
      cases rest with
      | nil => rfl
      | cons d rest =>
          dsimp only
          rw [if_neg fun same => alone rfl (by rw [same]; rfl)]
  | both =>
      rw [Ending.text, List.cons_append, List.singleton_append, Reader.scan.eq_def]
      dsimp only
      rw [outside, if_neg Bool.false_ne_true, if_neg (by decide), if_pos (.inl rfl), finished]
      dsimp only
      rw [if_pos rfl, if_pos rfl]

theorem scan_open (outside : r.quoted = false) (start : r.start = true) :
    r.scan (quote :: rest) = Reader.scan { r with quoted := true, start := false } rest := by
  rw [Reader.scan.eq_def]
  dsimp only
  rw [outside, if_neg Bool.false_ne_true, if_neg (by decide), if_neg (by decide),
    if_pos ⟨rfl, start⟩]

theorem scan_plain (outside : r.quoted = false) (opened : r.closed = false)
    (plain : isMark c = false) :
    r.scan (c :: rest) = Reader.scan { r with cell := r.cell ++ [c], start := false } rest := by
  obtain ⟨notComma, notQuote, notCr, notLf⟩ := not_mark plain
  rw [Reader.scan.eq_def]
  dsimp only
  rw [outside, if_neg Bool.false_ne_true, if_neg notComma, if_neg (not_or.mpr ⟨notCr, notLf⟩),
    if_neg fun both => notQuote both.1, opened, if_neg (by simpa using notQuote)]

end Steps

/-! ### Fields and rows -/

section Complete

variable {rows : List (List Text16)} {row : List Text16} {rest : Text16}

/-- Units without marks become part of the cell. -/
theorem scan_bare {x : Text16} : ∀ {r : Reader}, (∀ c ∈ x, isMark c = false) →
    r.quoted = false → r.closed = false →
    r.scan (x ++ rest) =
      Reader.scan { r with cell := r.cell ++ x, start := r.start && x.isEmpty } rest := by
  induction x with
  | nil =>
      intro r _ _ _
      simp
  | cons c x ih =>
      intro r plain outside opened
      obtain ⟨here, later⟩ := List.forall_mem_cons.mp plain
      rw [List.cons_append, scan_plain outside opened here,
        @ih { r with cell := r.cell ++ [c], start := false } later outside opened]
      simp

/-- Units between quotes become part of the cell, up to a quote that stands alone. -/
theorem scan_doubled {x : Text16} : ∀ {r : Reader}, r.quoted = true →
    rest.head? ≠ some quote →
    r.scan (doubled x ++ quote :: rest) =
      Reader.scan { r with cell := r.cell ++ x, quoted := false, closed := true } rest := by
  induction x with
  | nil =>
      intro r inside alone
      rw [doubled, List.flatMap_nil, List.nil_append, scan_close inside alone, List.append_nil]
  | cons c x ih =>
      intro r inside alone
      rw [doubled, List.flatMap_cons, ← doubled, List.append_assoc]
      by_cases double : c = quote
      · rw [if_pos double, List.cons_append, List.singleton_append, scan_double inside,
          @ih { r with cell := r.cell ++ [quote] } inside alone]
        simp [double]
      · rw [if_neg double, List.singleton_append, scan_inside inside double,
          @ih { r with cell := r.cell ++ [c] } inside alone]
        simp

/-- **A field is read.** Behind a quoted one comes no further quote. -/
theorem scan_field {f : Field} (valid : f.Valid) (alone : rest.head? ≠ some quote) :
    (Reader.between rows row).scan (f.text ++ rest) = (Reader.behind rows row f).scan rest := by
  by_cases quoted : f.quoted = true
  · rw [Field.text, if_pos quoted, List.cons_append, List.append_assoc, List.singleton_append,
      scan_open rfl rfl, scan_doubled rfl alone]
    simp [Reader.behind, Reader.between, quoted]
  · rw [Field.text, if_neg quoted, scan_bare (valid.resolve_left quoted) rfl rfl]
    simp [Reader.behind, Reader.between, quoted]

/-- Fields with a comma behind each are read. -/
theorem scan_separated {fields : List Field} : ∀ {row : List Text16}, (∀ f ∈ fields, f.Valid) →
    (Reader.between rows row).scan (separated fields ++ rest) =
      (Reader.between rows (row ++ fields.map Field.cell)).scan rest := by
  induction fields with
  | nil =>
      intro row _
      rw [separated, List.flatMap_nil, List.nil_append, List.map_nil, List.append_nil]
  | cons f fields ih =>
      intro row valid
      obtain ⟨here, later⟩ := List.forall_mem_cons.mp valid
      rw [separated, List.flatMap_cons, ← separated, List.append_assoc, List.append_assoc,
        List.singleton_append, scan_field here (by simp [comma, quote]), scan_comma rfl,
        List.map_cons, ← List.singleton_append, ← List.append_assoc]
      exact ih later

/-- The rows after one more. -/
def addRow (rows : List (List Text16)) (cells : List Text16) : List (List Text16) :=
  if hasText cells then rows ++ [cells] else rows

theorem finishRow_eq (r : Reader) (few : (addRow r.rows (r.row ++ [r.cell])).length ≤ 10001) :
    r.finishRow = .ok ⟨addRow r.rows (r.row ++ [r.cell]), [], [], r.quoted, false, true⟩ := by
  rw [Reader.finishRow]
  exact if_neg (not_lt.mpr few)

/-- The end of a row is read. Behind a carriage return comes no line feed. -/
theorem scan_ending (f : Field) (e : Ending)
    (few : (addRow rows (row ++ [f.cell])).length ≤ 10001)
    (alone : e = .carriageReturn → rest.head? ≠ some lf) :
    (Reader.behind rows row f).scan (e.text ++ rest) =
      (Reader.between (addRow rows (row ++ [f.cell])) []).scan rest := by
  exact scan_end rfl e (finishRow_eq (Reader.behind rows row f) few) alone

/-- A row with text does not start with a line feed. -/
theorem Row.head_ne {r : Row} (valid : r.Valid) (text : hasText r.cells = true) :
    (r.text ++ rest).head? ≠ some lf := by
  have field : ∀ {f : Field} {rest : Text16}, f.Valid → f.quoted = true ∨ f.cell ≠ [] →
      (f.text ++ rest).head? ≠ some lf := by
    intro f rest valid nonempty
    by_cases quoted : f.quoted = true
    · rw [Field.text, if_pos quoted]
      simp [quote, lf]
    · obtain ⟨c, cell, split⟩ := List.exists_cons_of_ne_nil (nonempty.resolve_left quoted)
      have plain := valid.resolve_left quoted c (by rw [split]; exact List.mem_cons_self)
      rw [Field.text, if_neg quoted, split]
      simpa using (not_mark plain).2.2.2
  obtain ⟨front, last⟩ := r
  cases front with
  | nil =>
      have nonempty : last.cell ≠ [] := by simpa [hasText, Row.cells] using text
      exact field valid.2 (.inr nonempty)
  | cons f front =>
      have here := valid.1 f List.mem_cons_self
      rw [Row.text, separated, List.flatMap_cons, List.append_assoc, List.append_assoc,
        List.append_assoc]
      by_cases bare : f.quoted = true ∨ f.cell ≠ []
      · exact field here bare
      · rw [not_or, not_not] at bare
        rw [Field.text, if_neg bare.1, bare.2]
        simp [comma, lf]

/-- Rows with text are read one after the other. -/
theorem scan_ended {given : List (Row × Ending)} : ∀ {rows : List (List Text16)},
    (∀ r ∈ given, r.1.Valid) → (∀ r ∈ given, hasText r.1.cells = true) →
    rows.length + given.length ≤ 10001 → rest.head? ≠ some lf →
    (Reader.between rows []).scan (ended given ++ rest) =
      (Reader.between (rows ++ given.map fun r => r.1.cells) []).scan rest := by
  induction given with
  | nil =>
      intro rows _ _ _ _
      rw [ended, List.flatMap_nil, List.nil_append, List.map_nil, List.append_nil]
  | cons r given ih =>
      intro rows valid texts few alone
      obtain ⟨here, later⟩ := List.forall_mem_cons.mp valid
      obtain ⟨text, texts'⟩ := List.forall_mem_cons.mp texts
      rw [List.length_cons] at few
      have next : (ended given ++ rest).head? ≠ some lf := by
        cases given with
        | nil => exact alone
        | cons r' given =>
            rw [ended, List.flatMap_cons, List.append_assoc, List.append_assoc]
            exact Row.head_ne (later r' List.mem_cons_self) (texts' r' List.mem_cons_self)
      have added : addRow rows (r.1.front.map Field.cell ++ [r.1.last.cell]) =
          rows ++ [r.1.cells] := if_pos text
      have first : ∀ tail : Text16, (r.2.text ++ tail).head? ≠ some quote := by
        intro tail
        cases r.2 <;> simp [Ending.text, quote, cr, lf]
      rw [ended, List.flatMap_cons, ← ended, Row.text, List.append_assoc, List.append_assoc,
        List.append_assoc, scan_separated here.1, List.nil_append,
        scan_field here.2 (first _),
        scan_ending _ _ (by rw [added, List.length_append, List.length_singleton]; omega)
          fun _ => next,
        added, ih later texts' (by rw [List.length_append, List.length_singleton]; omega) alone,
        List.map_cons, List.append_assoc, List.singleton_append]

end Complete

/-- **The rows of an encoding are read**, when all of them have text and they are not too
many. -/
theorem readRows_encodes {rows : List (List Text16)} {text : Text16} (encodes : Encodes rows text)
    (texts : ∀ r ∈ rows, hasText r = true) (few : rows.length ≤ 10001) :
    readRows text = .ok rows := by
  cases encodes with
  | complete given valid =>
      rw [List.length_map] at few
      have run := @scan_ended [] given [] valid
        (fun r member => texts r.1.cells (List.mem_map_of_mem member)) (by simpa using few)
        (by simp)
      rw [List.append_nil, List.nil_append] at run
      have start : Reader.new = Reader.between [] [] := rfl
      rw [readRows, start, run]
      rfl
  | incomplete given valid last lastValid =>
      have lastText := texts last.cells (by simp)
      rw [List.length_append, List.length_map, List.length_singleton] at few
      have run := @scan_ended last.text given [] valid
        (fun r member => texts r.1.cells (List.mem_append_left _ (List.mem_map_of_mem member)))
        (by rw [List.length_nil]; omega)
        (by
          have head := @Row.head_ne [] last lastValid lastText
          rwa [List.append_nil] at head)
      have field : (Reader.between (given.map fun r => r.1.cells) []).scan last.text =
          .ok (Reader.behind (given.map fun r => r.1.cells) (last.front.map Field.cell)
            last.last) := by
        have front := @scan_separated (given.map fun r => r.1.cells) last.last.text last.front []
          lastValid.1
        have behind := @scan_field (given.map fun r => r.1.cells) (last.front.map Field.cell) []
          last.last lastValid.2 (by simp)
        rw [List.append_nil] at behind
        rw [Row.text, front, List.nil_append, behind]
        rfl
      have added : addRow (given.map fun r => r.1.cells)
          (last.front.map Field.cell ++ [last.last.cell]) =
            (given.map fun r => r.1.cells) ++ [last.cells] := if_pos lastText
      have finished := finishRow_eq (Reader.behind (given.map fun r => r.1.cells)
        (last.front.map Field.cell) last.last) (by
          rw [Reader.behind, added, List.length_append, List.length_map, List.length_singleton]
          exact few)
      have open' : (Reader.behind (given.map fun r => r.1.cells) (last.front.map Field.cell)
          last.last).cell ≠ [] ∨ (Reader.behind (given.map fun r => r.1.cells)
            (last.front.map Field.cell) last.last).row ≠ [] ∨
          (Reader.behind (given.map fun r => r.1.cells) (last.front.map Field.cell)
            last.last).closed = true := by
        by_contra none
        simp only [not_or, not_not] at none
        obtain ⟨noCell, noRow, -⟩ := none
        have noFront : last.front.map Field.cell = [] := noRow
        have noLast : last.last.cell = [] := noCell
        rw [Row.cells, noFront, noLast] at lastText
        exact absurd lastText (by decide)
      have start : Reader.new = Reader.between [] [] := rfl
      rw [readRows, start, run, List.nil_append, field]
      dsimp only
      rw [if_neg (by simp [Reader.behind]), if_pos open', finished]
      dsimp only
      exact congrArg Except.ok added

/-! ## What is accepted -/

/-- The text of the current field up to the reader. -/
inductive InField : Text16 → Reader → Prop
  | bare {r : Reader} (outside : r.quoted = false) (opened : r.closed = false)
      (plain : ∀ c ∈ r.cell, isMark c = false) (start : r.start = true → r.cell = []) :
      InField r.cell r
  | inside {r : Reader} (inside : r.quoted = true) (start : r.start = false) :
      InField (quote :: doubled r.cell) r
  | behind {r : Reader} (outside : r.quoted = false) (closed : r.closed = true)
      (start : r.start = false) : InField (quote :: (doubled r.cell ++ [quote])) r

/-- A text up to the reader: complete rows, complete fields and the start of a field. -/
structure Reads (text : Text16) (r : Reader) : Prop where
  split : ∃ (given : List (Row × Ending)) (front : List Field) (current : Text16),
    (∀ x ∈ given, x.1.Valid) ∧ (∀ f ∈ front, f.Valid) ∧ InField current r ∧
    r.rows = (given.map fun x => x.1.cells).filter hasText ∧ r.row = front.map Field.cell ∧
    text = ended given ++ separated front ++ current

section Sound

variable {text : Text16} {r r' : Reader} {c : UInt16}

theorem doubled_snoc (cell : Text16) (c : UInt16) :
    doubled (cell ++ [c]) = doubled cell ++ if c = quote then [quote, quote] else [c] := by
  simp [doubled]

/-- A field that is not within quotes is complete. -/
theorem InField.field {current : Text16} (here : InField current r) (outside : r.quoted = false) :
    ∃ f : Field, f.Valid ∧ f.text = current ∧ f.cell = r.cell := by
  cases here with
  | bare _ _ plain _ => exact ⟨⟨false, r.cell⟩, .inr plain, rfl, rfl⟩
  | inside inside _ =>
      rw [outside] at inside
      cases inside
  | behind _ _ _ => exact ⟨⟨true, r.cell⟩, .inl rfl, rfl, rfl⟩

/-- A field that has not begun. -/
theorem InField.empty (outside : r.quoted = false) (opened : r.closed = false)
    (none : r.cell = []) : InField [] r := by
  have here := InField.bare outside opened (fun c member => by
    rw [none] at member
    exact absurd member List.not_mem_nil) fun _ => none
  rwa [none] at here

/-- The next unit belongs to the current field. -/
theorem Reads.grow (reads : Reads text r) {units : Text16} (rows : r'.rows = r.rows)
    (row : r'.row = r.row)
    (field : ∀ current, InField current r → InField (current ++ units) r') :
    Reads (text ++ units) r' := by
  obtain ⟨given, front, current, valid, validFront, here, kept, cells, split⟩ := reads.split
  refine ⟨given, front, current ++ units, valid, validFront, field current here, rows.trans kept,
    row.trans cells, ?_⟩
  rw [split, List.append_assoc]

theorem Reads.inside (reads : Reads text r) (inside : r.quoted = true) (other : c ≠ quote) :
    Reads (text ++ [c]) { r with cell := r.cell ++ [c] } := by
  refine reads.grow rfl rfl fun current here => ?_
  cases here with
  | bare outside =>
      rw [inside] at outside
      cases outside
  | inside _ start =>
      have grown := @InField.inside { r with cell := r.cell ++ [c] } inside start
      rwa [doubled_snoc, if_neg other, ← List.cons_append] at grown
  | behind outside =>
      rw [inside] at outside
      cases outside

theorem Reads.double (reads : Reads text r) (inside : r.quoted = true) :
    Reads (text ++ [quote, quote]) { r with cell := r.cell ++ [quote] } := by
  refine reads.grow rfl rfl fun current here => ?_
  cases here with
  | bare outside =>
      rw [inside] at outside
      cases outside
  | inside _ start =>
      have grown := @InField.inside { r with cell := r.cell ++ [quote] } inside start
      rwa [doubled_snoc, if_pos rfl, ← List.cons_append] at grown
  | behind outside =>
      rw [inside] at outside
      cases outside

theorem Reads.close (reads : Reads text r) (inside : r.quoted = true) :
    Reads (text ++ [quote]) { r with quoted := false, closed := true } := by
  refine reads.grow rfl rfl fun current here => ?_
  cases here with
  | bare outside =>
      rw [inside] at outside
      cases outside
  | inside _ start =>
      exact @InField.behind { r with quoted := false, closed := true } rfl rfl start
  | behind outside =>
      rw [inside] at outside
      cases outside

theorem Reads.opened (reads : Reads text r) (outside : r.quoted = false) (start : r.start = true) :
    Reads (text ++ [quote]) { r with quoted := true, start := false } := by
  refine reads.grow rfl rfl fun current here => ?_
  cases here with
  | bare _ _ _ empty =>
      have grown := @InField.inside { r with quoted := true, start := false } rfl rfl
      have none : r.cell = [] := empty start
      simp only [none, doubled, List.flatMap_nil] at grown ⊢
      exact grown
  | inside inside =>
      rw [outside] at inside
      cases inside
  | behind _ _ late =>
      rw [start] at late
      cases late

theorem Reads.plain (reads : Reads text r) (outside : r.quoted = false) (opened : r.closed = false)
    (unmarked : isMark c = false) :
    Reads (text ++ [c]) { r with cell := r.cell ++ [c], start := false } := by
  refine reads.grow rfl rfl fun current here => ?_
  cases here with
  | bare _ _ plain _ =>
      refine @InField.bare { r with cell := r.cell ++ [c], start := false } outside opened
        (fun d member => ?_) fun late => absurd late Bool.false_ne_true
      rcases List.mem_append.mp member with early | last
      · exact plain d early
      · rw [List.mem_singleton.mp last]
        exact unmarked
  | inside inside =>
      rw [outside] at inside
      cases inside
  | behind _ closed =>
      rw [opened] at closed
      cases closed

theorem Reads.finishCell (reads : Reads text r) (outside : r.quoted = false) :
    Reads (text ++ [comma]) r.finishCell := by
  obtain ⟨given, front, current, valid, validFront, here, kept, cells, split⟩ := reads.split
  obtain ⟨f, fits, written, cell⟩ := here.field outside
  refine ⟨given, front ++ [f], [], valid, List.forall_mem_append.mpr ⟨validFront, ?_⟩,
    InField.empty outside rfl rfl, kept, ?_, ?_⟩
  · exact List.forall_mem_singleton.mpr fits
  · rw [List.map_append, List.map_singleton, cell, ← cells]
    rfl
  · rw [split, ← written, separated, separated, List.flatMap_append, List.flatMap_singleton]
    simp only [List.append_assoc, List.append_nil]

/-- A complete row is added, if it has text. -/
theorem finishRow_ok (finished : r.finishRow = .ok r') :
    r' = ⟨addRow r.rows (r.row ++ [r.cell]), [], [], r.quoted, false, true⟩ := by
  by_cases few : (addRow r.rows (r.row ++ [r.cell])).length ≤ 10001
  · rw [finishRow_eq r few] at finished
    exact (Except.ok.inj finished).symm
  · have refused : r.finishRow = .error "Maximal 10000 CSV-Datensätze." := if_pos (not_le.mp few)
    rw [refused] at finished
    cases finished

theorem addRow_filter (rows : List (List Text16)) (cells : List Text16) :
    addRow (rows.filter hasText) cells = (rows ++ [cells]).filter hasText := by
  rw [addRow, List.filter_append]
  by_cases text : hasText cells = true
  · rw [if_pos text, List.filter_cons_of_pos text]
    rfl
  · rw [if_neg text, List.filter_cons_of_neg text]
    simp

theorem Reads.finishRow (reads : Reads text r) (outside : r.quoted = false)
    (finished : r.finishRow = .ok r') (e : Ending) : Reads (text ++ e.text) r' := by
  obtain ⟨given, front, current, valid, validFront, here, kept, cells, split⟩ := reads.split
  obtain ⟨f, fits, written, cell⟩ := here.field outside
  rw [finishRow_ok finished]
  refine ⟨given ++ [(⟨front, f⟩, e)], [], [], List.forall_mem_append.mpr ⟨valid, ?_⟩,
    fun f none => absurd none List.not_mem_nil,
    InField.empty outside rfl rfl, ?_, rfl, ?_⟩
  · exact List.forall_mem_singleton.mpr ⟨validFront, fits⟩
  · rw [kept, addRow_filter, List.map_append, List.map_singleton, Row.cells, cells, cell]
  · rw [split, ← written, ended, ended, List.flatMap_append, List.flatMap_singleton, Row.text]
    simp only [separated, List.flatMap_nil, List.append_assoc, List.append_nil]

/-- **What was read stays a text of rows and fields.** -/
theorem Reads.scan {source : Text16} :
    r.scan source = .ok r' → ∀ text, Reads text r → Reads (text ++ source) r' := by
  fun_induction Reader.scan r source with
  | case1 r =>
      intro run text reads
      rw [List.append_nil]
      exact Except.ok.inj run ▸ reads
  | case2 r inside =>
      intro run text reads
      exact Except.ok.inj run ▸ reads.close inside
  | case3 r inside rest ih =>
      intro run text reads
      have later := ih run _ (reads.double inside)
      rwa [List.append_assoc] at later
  | case4 r inside d rest other ih =>
      intro run text reads
      have later := ih run _ (reads.close inside)
      rwa [List.append_assoc] at later
  | case5 r c source inside other ih =>
      intro run text reads
      have later := ih run _ (reads.inside inside other)
      rwa [List.append_assoc] at later
  | case6 r source outside ih =>
      intro run text reads
      have later := ih run _ (reads.finishCell (eq_false_of_ne_true outside))
      rwa [List.append_assoc] at later
  | case7 => exact fun run => by cases run
  | case8 r outside next finished =>
      intro run text reads
      exact Except.ok.inj run ▸
        reads.finishRow (eq_false_of_ne_true outside) finished .carriageReturn
  | case9 r outside next finished rest _ _ ih =>
      intro run text reads
      have later := ih run _
        (reads.finishRow (eq_false_of_ne_true outside) finished .both)
      rwa [List.append_assoc] at later
  | case10 r outside next finished d rest other _ _ ih =>
      intro run text reads
      have later := ih run _
        (reads.finishRow (eq_false_of_ne_true outside) finished .carriageReturn)
      rwa [List.append_assoc] at later
  | case11 r c source outside notComma ends next finished notCr ih =>
      intro run text reads
      obtain rfl := ends.resolve_left notCr
      have later := ih run _
        (reads.finishRow (eq_false_of_ne_true outside) finished .lineFeed)
      rwa [List.append_assoc] at later
  | case12 r c source outside notComma notEnd opens ih =>
      intro run text reads
      obtain ⟨rfl, start⟩ := opens
      have later := ih run _ (reads.opened (eq_false_of_ne_true outside) start)
      rwa [List.append_assoc] at later
  | case13 => exact fun run => by cases run
  | case14 r c source outside notComma notEnd notOpen accepted ih =>
      intro run text reads
      rw [not_or] at accepted notEnd
      have plain : isMark c = false := by
        simp [isMark, notComma, notEnd.1, notEnd.2, accepted.2]
      have later := ih run _ (reads.plain (eq_false_of_ne_true outside)
        (eq_false_of_ne_true accepted.1) plain)
      rwa [List.append_assoc] at later

theorem reads_new : Reads [] Reader.new :=
  ⟨[], [], [], fun _ none => absurd none List.not_mem_nil,
    fun _ none => absurd none List.not_mem_nil, InField.empty rfl rfl rfl, rfl, rfl, rfl⟩

end Sound

/-- **A text that is accepted is an encoding.** Its rows are those that have text. -/
theorem encodes_of_readRows {source : Text16} {rows : List (List Text16)}
    (accepted : readRows source = .ok rows) :
    ∃ given, Encodes given source ∧ rows = given.filter hasText := by
  rw [readRows] at accepted
  split at accepted
  · cases accepted
  · rename_i r run
    have reads := Reads.scan run [] reads_new
    rw [List.nil_append] at reads
    split_ifs at accepted with inside unfinished
    · split at accepted
      · cases accepted
      · rename_i r' finished
        obtain ⟨given, front, current, valid, validFront, here, kept, cells, split⟩ := reads.split
        obtain ⟨f, fits, written, cell⟩ := here.field (eq_false_of_ne_true inside)
        refine ⟨(given.map fun x => x.1.cells) ++ [Row.cells ⟨front, f⟩], ?_, ?_⟩
        · rw [split, ← written, List.append_assoc]
          exact .incomplete given valid ⟨front, f⟩ ⟨validFront, fits⟩
        · rw [← Except.ok.inj accepted, finishRow_ok finished]
          dsimp only
          rw [kept, addRow_filter, Row.cells, cells, cell]
    · simp only [not_or, not_not] at unfinished
      obtain ⟨noCell, noRow, opened⟩ := unfinished
      obtain ⟨given, front, current, valid, validFront, here, kept, cells, split⟩ := reads.split
      have noFront : front = [] := by
        rw [noRow] at cells
        exact List.map_eq_nil_iff.mp cells.symm
      have noCurrent : current = [] := by
        cases here with
        | bare => exact noCell
        | inside late => exact absurd late inside
        | behind _ closed => exact absurd closed opened
      refine ⟨_, ?_, (Except.ok.inj accepted).symm.trans kept⟩
      rw [split, noFront, noCurrent, separated, List.flatMap_nil, List.append_nil, List.append_nil]
      exact .complete given valid

/-! ## Tables -/

/-- What the reader asks of a table, and that each of its rows has some text. -/
structure IsTable (header : List Text16) (rows : List (List Text16)) : Prop where
  some : header ≠ []
  few : header.length ≤ 100
  named : ∀ h ∈ header, isBlank h = false
  distinct : header.Nodup
  short : rows.length ≤ 10000
  width : ∀ r ∈ rows, r.length = header.length
  text : ∀ r ∈ rows, hasText r = true

section Tables

variable {header : List Text16} {rows : List (List Text16)}

theorem IsTable.tableOf (table : IsTable header rows) :
    tableOf (header :: rows) = .ok ⟨header, rows.map (header.zip ·)⟩ := by
  have named : ¬(header = [] ∨ (∃ h ∈ header, isBlank h = true) ∨ ¬header.Nodup ∨
      100 < header.length) := by
    rintro (none | ⟨h, member, blank⟩ | twice | many)
    · exact table.some none
    · rw [table.named h member] at blank
      cases blank
    · exact twice table.distinct
    · exact absurd table.few (not_le.mpr many)
  have even : ¬∃ r ∈ rows, r.length ≠ header.length := by
    rintro ⟨r, member, other⟩
    exact other (table.width r member)
  rw [Csv.tableOf, if_neg named, if_neg even]

/-- The names of a table have text. -/
theorem IsTable.hasText_header (table : IsTable header rows) : hasText header = true := by
  obtain ⟨name, names, split⟩ := List.exists_cons_of_ne_nil table.some
  have first := table.named name (by rw [split]; exact List.mem_cons_self)
  have text : name ≠ [] := by
    rintro rfl
    cases first
  rw [split, hasText, List.any_cons, decide_eq_true text]
  rfl

theorem IsTable.read (table : IsTable header rows) {source : Text16}
    (encodes : Encodes (header :: rows) (withoutBOM source))
    (small : utf8Length source ≤ maxBytes) :
    parseCSV source = .ok ⟨header, rows.map (header.zip ·)⟩ := by
  have texts : ∀ r ∈ header :: rows, hasText r = true :=
    List.forall_mem_cons.mpr ⟨table.hasText_header, table.text⟩
  have few : (header :: rows).length ≤ 10001 := Nat.succ_le_succ table.short
  rw [parseCSV, if_neg (not_lt.mpr small), readRows_encodes encodes texts few]
  exact table.tableOf

end Tables

/-! ## What the writer writes -/

/-- Texts with a separator between them. -/
theorem flatten_intersperse_concat {α : Type*} (separator : List α) (last : List α) :
    ∀ texts : List (List α), ((texts ++ [last]).intersperse separator).flatten =
      (texts.flatMap fun t => t ++ separator) ++ last
  | [] => by simp
  | [t] => by simp
  | t :: t' :: texts => by
      have later := flatten_intersperse_concat separator last (t' :: texts)
      rw [List.cons_append, List.cons_append, List.intersperse_cons_cons, List.flatten_cons,
        List.flatten_cons, ← List.cons_append, later]
      simp only [List.flatMap_cons, List.append_assoc]

/-- A written row is a row of quoted fields. -/
theorem writeRow_eq {cells : List Text16} (some : cells ≠ []) :
    ∃ r : Row, r.Valid ∧ r.text = writeRow cells ∧ r.cells = cells.map neutral := by
  obtain ⟨front, last, rfl⟩ := (List.eq_nil_or_concat' cells).resolve_left some
  refine ⟨⟨front.map fun s => ⟨true, neutral s⟩, ⟨true, neutral last⟩⟩,
    ⟨fun f member => ?_, .inl rfl⟩, ?_, ?_⟩
  · obtain ⟨s, -, rfl⟩ := List.mem_map.mp member
    exact .inl rfl
  · rw [writeRow, List.map_append, List.map_singleton, flatten_intersperse_concat, Row.text,
      separated, List.flatMap_map, List.flatMap_map]
  · rw [Row.cells, List.map_map, List.map_append, List.map_singleton]
    rfl

section Write

variable {F : Type} {keys : F → List Text16} {textOf : F → Text16 → Text16} {features : List F}

/-- Written rows are rows that end with a carriage return and a line feed. -/
theorem exists_rows : ∀ {given : List (List Text16)}, (∀ cells ∈ given, cells ≠ []) →
    ∃ rows : List (Row × Ending), (∀ r ∈ rows, r.1.Valid) ∧
      ended rows = (given.flatMap fun cells => writeRow cells ++ [cr, lf]) ∧
      (rows.map fun r => r.1.cells) = given.map (·.map neutral)
  | [], _ => ⟨[], fun _ none => absurd none List.not_mem_nil, rfl, rfl⟩
  | cells :: given, nonempty => by
      obtain ⟨here, later⟩ := List.forall_mem_cons.mp nonempty
      obtain ⟨r, valid, text, same⟩ := writeRow_eq here
      obtain ⟨rows, validRows, texts, sameRows⟩ := exists_rows later
      refine ⟨(r, .both) :: rows, List.forall_mem_cons.mpr ⟨valid, validRows⟩, ?_, ?_⟩
      · rw [ended, List.flatMap_cons, ← ended, texts, List.flatMap_cons, text]
        rfl
      · rw [List.map_cons, List.map_cons, same, sameRows]

/-- **The writer writes an encoding** of the cells that it makes harmless. -/
theorem encodes_toCSV (some : fields keys features ≠ []) :
    Encodes (((fields keys features).map neutral) ::
        features.map fun f => ((fields keys features).map (textOf f)).map neutral)
      (toCSV keys textOf features) := by
  set names := fields keys features with attributes
  have nonempty : ∀ cells ∈ names :: features.map (fun f => names.map (textOf f)), cells ≠ [] := by
    refine List.forall_mem_cons.mpr ⟨some, fun cells member => ?_⟩
    obtain ⟨f, -, rfl⟩ := List.mem_map.mp member
    exact fun none => some (List.map_eq_nil_iff.mp none)
  obtain ⟨rows, valid, texts, same⟩ := exists_rows nonempty
  have written : toCSV keys textOf features = ended rows := by
    obtain ⟨front, last, split⟩ := (List.eq_nil_or_concat'
      (writeRow names :: features.map fun f => writeRow (names.map (textOf f)))).resolve_left
        (List.cons_ne_nil _ _)
    have all : (names :: features.map fun f => names.map (textOf f)).map writeRow =
        writeRow names :: features.map fun f => writeRow (names.map (textOf f)) := by
      rw [List.map_cons, List.map_map]
      rfl
    have lines : ((names :: features.map fun f => names.map (textOf f)).flatMap
        fun cells => writeRow cells ++ [cr, lf]) =
          (front ++ [last]).flatMap fun line => line ++ [cr, lf] := by
      rw [← split, ← all, List.flatMap_map]
    rw [toCSV, ← attributes, split, flatten_intersperse_concat, texts, lines, List.flatMap_append,
      List.flatMap_singleton, List.append_assoc]
  have cells : ((names :: features.map fun f => names.map (textOf f)).map (·.map neutral)) =
      names.map neutral :: features.map fun f => (names.map (textOf f)).map neutral := by
    rw [List.map_cons, List.map_map]
    rfl
  rw [written, ← cells, ← same]
  exact .complete rows valid

/-- What is written starts with a quote. -/
theorem withoutBOM_toCSV (some : fields keys features ≠ []) :
    withoutBOM (toCSV keys textOf features) = toCSV keys textOf features := by
  obtain ⟨name, names, split⟩ := List.exists_cons_of_ne_nil some
  have first : (toCSV keys textOf features).head? = Option.some quote := by
    rw [toCSV, split, writeRow, List.map_cons]
    cases names <;> cases features <;> simp [Field.text]
  exact if_neg (by rw [first]; decide)

end Write

end Csv

open Csv

/-- **Reading inverts writing.** A text of at most 10 MiB that is, behind at most one mark, an
encoding of a table is read as this table. So is what the writer makes of attributes, with its
cells as written. And only encodings are read, with rows that may have no text: a text that
leaves a quote open, or goes on behind the closing quote of a field, is refused. -/
theorem parseCSV_inverts :
    (∀ header rows source, IsTable header rows → Encodes (header :: rows) (withoutBOM source) →
      utf8Length source ≤ maxBytes →
      parseCSV source = .ok ⟨header, rows.map (header.zip ·)⟩) ∧
    (∀ (F : Type) (keys : F → List Text16) (textOf : F → Text16 → Text16) (features : List F),
      let header := (fields keys features).map neutral
      let rows := features.map fun f => ((fields keys features).map (textOf f)).map neutral
      IsTable header rows → utf8Length (toCSV keys textOf features) ≤ maxBytes →
      parseCSV (toCSV keys textOf features) = .ok ⟨header, rows.map (header.zip ·)⟩) ∧
    ∀ source table, parseCSV source = .ok table →
      ∃ given, Encodes given (withoutBOM source) ∧ tableOf (given.filter hasText) = .ok table := by
  refine ⟨fun header rows source table encodes small => table.read encodes small,
    fun F keys textOf features table small => ?_, fun source table accepted => ?_⟩
  · have some : fields keys features ≠ [] := fun none =>
      table.some (by rw [none]; rfl)
    refine table.read ?_ small
    rw [withoutBOM_toCSV some]
    exact encodes_toCSV some
  · rw [parseCSV] at accepted
    split_ifs at accepted with large
    split at accepted
    · cases accepted
    · rename_i rows read
      obtain ⟨given, encodes, kept⟩ := encodes_of_readRows read
      exact ⟨given, encodes, kept ▸ accepted⟩

/-- A header of two names and one row, in which a quoted cell holds a comma, a quote and the
end of a line, behind a mark. -/
theorem parseCSV_inverts_multiline :
    parseCSV (bom :: [97, comma, quote, 98, quote, cr, quote, comma, quote, quote, cr, lf, quote,
      comma]) =
        .ok ⟨[[97], [98]], [[([97], [comma, quote, cr, lf]), ([98], [])]]⟩ :=
  parseCSV_inverts.1 [[97], [98]] [[[comma, quote, cr, lf], []]] _
    ⟨by decide, by decide, by decide, by decide, by decide, by decide, by decide⟩
    (.incomplete [(⟨[⟨false, [97]⟩], ⟨true, [98]⟩⟩, .carriageReturn)]
      (by simp [Row.Valid, Field.Valid, isMark, comma, quote, cr, lf])
      ⟨[⟨true, [comma, quote, cr, lf]⟩], ⟨false, []⟩⟩
      (by simp [Row.Valid, Field.Valid])) (by decide)

/-- A mark that belongs to the first name is taken away all the same. -/
theorem not_inverts_bom :
    ¬∀ header rows source, IsTable header rows → Encodes (header :: rows) source →
      parseCSV source = .ok ⟨header, rows.map (header.zip ·)⟩ := by
  intro inverts
  have read := inverts [[bom, 97]] [] [bom, 97]
    ⟨by decide, by decide, by decide, by decide, by decide, by decide, by decide⟩
    (.incomplete [] (by simp) ⟨[], ⟨false, [bom, 97]⟩⟩
      (by simp [Row.Valid, Field.Valid, isMark, comma, quote, cr, lf, bom]))
  exact absurd read (by decide)

end OsmMini.Cmd.Workbench

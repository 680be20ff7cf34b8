import OsmMini.Foundations.Binary64

/-!
# Text as a list of characters

Cutting, trimming and comparing text as Go's `strings` package does, and reading a
floating-point number as its `strconv` package does.
-/

set_option autoImplicit false

namespace OsmMini.Foundations.Text

/-! ## Cutting and trimming -/

/-- The text before and after the first separator, and whether there is one. -/
def cut (separator : Char) (s : List Char) : List Char × List Char × Bool :=
  (s.takeWhile (· ≠ separator), (s.dropWhile (· ≠ separator)).drop 1, s.contains separator)

/-- White space as Unicode defines it. -/
def isSpace (c : Char) : Bool :=
  let n := c.toNat
  9 ≤ n && n ≤ 13 || n = 0x20 || n = 0x85 || n = 0xA0 || n = 0x1680 ||
    0x2000 ≤ n && n ≤ 0x200A || n = 0x2028 || n = 0x2029 || n = 0x202F || n = 0x205F ||
    n = 0x3000

def trimSpace (s : List Char) : List Char :=
  ((s.dropWhile isSpace).reverse.dropWhile isSpace).reverse

/-- The words between white space. -/
def fields (s : List Char) : List (List Char) := (s.splitOnP isSpace).filter (· ≠ [])

/-- Words with one space between them. -/
def joinWords (words : List (List Char)) : List Char := (words.intersperse [' ']).flatten

/-! ## Comparing without regard to case -/

def lower (c : Char) : Char :=
  if 'A' ≤ c ∧ c ≤ 'Z' then Char.ofNat (c.toNat + 32) else c

/-- The lower-case ASCII letter that a character folds to. The long s and the Kelvin sign
are the only characters outside ASCII that fold to a letter of it. -/
def fold (c : Char) : Char :=
  if c.toNat = 0x17F then 's' else if c.toNat = 0x212A then 'k' else lower c

/-- Whether a text is an ASCII word when case is not regarded. -/
def equalFold (s word : List Char) : Bool :=
  s.map fold = word.map fold

/-! ## Floating-point numbers -/

/-- The digits of a number: their value, how many of them follow the point, and which
characters were seen. -/
structure Mantissa where
  value : ℕ
  scale : ℕ
  point : Bool
  digits : Bool

def digitOf (base : ℕ) (c : Char) : Option ℕ :=
  if '0' ≤ c ∧ c ≤ '9' then some (c.toNat - '0'.toNat)
  else if base = 16 ∧ 'a' ≤ lower c ∧ lower c ≤ 'f' then some ((lower c).toNat - 'a'.toNat + 10)
  else none

/-- The digits in front of a text, with at most one point between them. -/
def scanMantissa (base : ℕ) : List Char → Mantissa → Mantissa × List Char
  | [], m => (m, [])
  | c :: rest, m =>
    if c = '_' then scanMantissa base rest m
    else if c = '.' then
      if m.point then (m, c :: rest) else scanMantissa base rest { m with point := true }
    else
      match digitOf base c with
      | some d =>
        scanMantissa base rest
          { m with
            value := m.value * base + d
            scale := if m.point then m.scale + 1 else m.scale
            digits := true }
      | none => (m, c :: rest)

/-- The digits of an exponent. Past four digits further ones no longer matter. -/
def scanExponent : List Char → ℕ → ℕ × List Char
  | [], e => (e, [])
  | c :: rest, e =>
    if c = '_' then scanExponent rest e
    else
      match digitOf 10 c with
      | some d => scanExponent rest (if e < 10000 then e * 10 + d else e)
      | none => (e, c :: rest)

/-- A sign in front of a text, and whether it is a minus. -/
def cutSign : List Char → Bool × List Char
  | '+' :: rest => (false, rest)
  | '-' :: rest => (true, rest)
  | s => (false, s)

/-- The exponent behind the digits: a hexadecimal number needs one. -/
def readExponent (base : ℕ) (s : List Char) : Option (ℤ × List Char) :=
  let letter := if base = 16 then 'p' else 'e'
  match s with
  | c :: rest =>
    if lower c = letter then
      let (negative, rest) := cutSign rest
      match rest with
      | d :: _ =>
        if (digitOf 10 d).isSome then
          let (e, rest) := scanExponent rest 0
          some (if negative then -(e : ℤ) else e, rest)
        else none
      | [] => none
    else if base = 16 then none else some (0, s)
  | [] => if base = 16 then none else some (0, s)

/-- Whether every underscore stands between two digits; a base counts as a digit. The
character is the last one seen. -/
def underscoresFrom (hex : Bool) : Char → List Char → Bool
  | saw, [] => saw ≠ '_'
  | saw, c :: rest =>
    if (digitOf (if hex then 16 else 10) c).isSome then underscoresFrom hex '0' rest
    else if c = '_' then saw = '0' && underscoresFrom hex '_' rest
    else saw ≠ '_' && underscoresFrom hex '!' rest

def underscoreOK (s : List Char) : Bool :=
  match (cutSign s).2 with
  | '0' :: c :: rest =>
    if lower c = 'b' ∨ lower c = 'o' ∨ lower c = 'x' then underscoresFrom (lower c = 'x') '0' rest
    else underscoresFrom false '^' ('0' :: c :: rest)
  | s => underscoresFrom false '^' s

/-- The number that a text without a sign spells, as digits, a base and an exponent. -/
def readFloat (s : List Char) : Option ℚ :=
  let (base, digits) : ℕ × List Char :=
    match s with
    | '0' :: c :: rest => if lower c = 'x' ∧ rest ≠ [] then (16, rest) else (10, s)
    | s => (10, s)
  let (m, rest) := scanMantissa base digits ⟨0, 0, false, false⟩
  if !m.digits then none
  else
    match readExponent base rest with
    | some (e, []) =>
      some (m.value * if base = 16 then 2 ^ (e - 4 * m.scale) else 10 ^ (e - m.scale))
    | _ => none

/-- The floating-point number that a text spells. A number too large is refused, and the
names of the infinities and of NaN are not. -/
def parseFloat (s : List Char) : Option F64 :=
  let (negative, number) := cutSign s
  if equalFold number "inf".toList || equalFold number "infinity".toList then
    some (F64.infinity negative)
  else if equalFold s "nan".toList then some F64.nan
  else
    match readFloat number with
    | none => none
    | some q =>
      let value := if q = 0 then F64.ofFields negative 0 else F64.round negative q
      if s.contains '_' && !underscoreOK s then none
      else if value.isFinite then some value else none

/-- One eighth is read exactly from its decimal and from its hexadecimal digits. -/
example : parseFloat "1.25e-1".toList = some ⟨0x3FC0000000000000⟩ ∧
    parseFloat "0x2p-4".toList = some ⟨0x3FC0000000000000⟩ := by decide +kernel

end OsmMini.Foundations.Text

import OsmMini.Foundations.Text

/-!
# The codings a client accepts

An `Accept-Encoding` header lists codings with a quality between zero and one. The
server looks at `gzip`, at `identity` and at the wildcard, and takes the last entry of
each: a wildcard speaks for `gzip` when no entry names it, and forbids `identity` when
its quality is zero and no entry names it.
-/

set_option autoImplicit false

namespace OsmMini.Cmd

open OsmMini.Foundations OsmMini.Foundations.Text

/-! ## Reading the header -/

def zero : F64 := F64.ofFields false 0
def one : F64 := ⟨0x3FF0000000000000⟩
/-- Minus one, the quality of what no entry names. -/
def unnamed : F64 := ⟨0xBFF0000000000000⟩

structure ResponseEncodings where
  gzip : F64
  identity : F64
  explicitIdentity : Bool

def ResponseEncodings.prefersGzip (e : ResponseEncodings) : Bool :=
  F64.lt zero e.gzip && (!e.explicitIdentity || F64.le e.identity e.gzip)

/-- The last quality among the parameters of an entry. One that cannot be read, or that
does not lie between zero and one, makes the quality zero and ends the search. -/
def qualityFrom : F64 → List (List Char) → F64
  | quality, [] => quality
  | quality, parameter :: rest =>
    let (key, value, ok) := cut '=' (Text.trimSpace parameter)
    if !ok || !equalFold (Text.trimSpace key) "q".toList then qualityFrom quality rest
    else
      match parseFloat (Text.trimSpace value) with
      | none => zero
      | some q => if F64.le zero q && F64.le q one then qualityFrom q rest else zero

/-- The name and the quality of an entry. -/
def readEntry (entry : List Char) : List Char × F64 :=
  let (name, parameters, _) := cut ';' (Text.trimSpace entry)
  (Text.trimSpace name, qualityFrom one (parameters.splitOn ';'))

/-! The three kinds of names that matter. -/

def namesGzip (name : List Char) : Bool := equalFold name "gzip".toList
def namesIdentity (name : List Char) : Bool := equalFold name "identity".toList
def namesWildcard (name : List Char) : Bool := name = ['*']

/-- The qualities of the three names while the entries are read. -/
structure Qualities where
  explicit : F64
  wildcard : F64
  identity : F64

def Qualities.add (q : Qualities) (entry : List Char × F64) : Qualities :=
  if namesWildcard entry.1 then { q with wildcard := entry.2 }
  else if namesIdentity entry.1 then { q with identity := entry.2 }
  else if namesGzip entry.1 then { q with explicit := entry.2 }
  else q

/-- The entries of all the headers. -/
def entriesOf (headers : List String) : List (List Char × F64) :=
  headers.flatMap fun header => (header.toList.splitOn ',').map readEntry

def Qualities.preference (q : Qualities) : ResponseEncodings where
  gzip :=
    if F64.lt q.explicit zero && F64.lt zero q.wildcard then q.wildcard else F64.max q.explicit zero
  identity :=
    if F64.le zero q.identity then q.identity
    else if F64.equal q.wildcard zero then zero
    else one
  explicitIdentity := F64.le zero q.identity

def parseResponseEncodings (headers : List String) : ResponseEncodings :=
  ((entriesOf headers).foldl Qualities.add ⟨unnamed, unnamed, unnamed⟩).preference

/-! ## The quality of a coding -/

/-- The quality of the last entry that has a name of some kind. -/
def lastQuality (named : List Char → Bool) (entries : List (List Char × F64)) : Option F64 :=
  ((entries.filter (named ·.1)).getLast?).map (·.2)

/-- The quality of `gzip`: that of its entry, else that of the wildcard, else none. -/
def gzipQuality (headers : List String) : F64 :=
  (lastQuality namesGzip (entriesOf headers)).getD
    ((lastQuality namesWildcard (entriesOf headers)).getD zero)

/-- Whether `identity` is forbidden: by its entry, or by a wildcard when it has none. -/
def forbidsIdentity (headers : List String) : Bool :=
  match lastQuality namesIdentity (entriesOf headers) with
  | some quality => F64.equal quality zero
  | none => F64.equal ((lastQuality namesWildcard (entriesOf headers)).getD one) zero

theorem qualityFrom_nonneg {quality : F64} (nonneg : F64.le zero quality = true)
    (parameters : List (List Char)) : F64.le zero (qualityFrom quality parameters) = true := by
  have least : F64.le zero zero = true := by decide +kernel
  induction parameters generalizing quality with
  | nil => exact nonneg
  | cons parameter rest ih =>
      unfold qualityFrom
      dsimp only
      split
      · exact ih nonneg
      · split
        · exact least
        · split
          · rename_i inside
            exact ih (Bool.and_eq_true .. ▸ inside).1
          · exact least

theorem entriesOf_nonneg {headers : List String} {entry : List Char × F64}
    (member : entry ∈ entriesOf headers) : F64.le zero entry.2 = true := by
  obtain ⟨header, -, found⟩ := List.mem_flatMap.mp member
  obtain ⟨text, -, rfl⟩ := List.mem_map.mp found
  exact qualityFrom_nonneg (by decide +kernel) _

theorem lastQuality_nonneg {named : List Char → Bool} {headers : List String} {quality : F64}
    (found : lastQuality named (entriesOf headers) = some quality) :
    F64.le zero quality = true := by
  obtain ⟨entry, last, rfl⟩ := Option.map_eq_some_iff.mp found
  exact entriesOf_nonneg (List.mem_of_mem_filter (List.mem_of_getLast? last))

theorem lastQuality_concat (named : List Char → Bool) (entries : List (List Char × F64))
    (entry : List Char × F64) : lastQuality named (entries ++ [entry]) =
      if named entry.1 then some entry.2 else lastQuality named entries := by
  by_cases here : named entry.1
  · simp [lastQuality, here]
  · simp [lastQuality, here]

/-- The three kinds of names exclude one another. -/
theorem names_exclusive (name : List Char) :
    (namesWildcard name → namesIdentity name = false ∧ namesGzip name = false) ∧
      (namesIdentity name → namesGzip name = false) := by
  refine ⟨fun wildcard => ?_, fun identity => ?_⟩
  · rw [of_decide_eq_true wildcard]
    decide +kernel
  · have letters : name.map fold = "identity".toList.map fold := of_decide_eq_true identity
    rw [namesGzip, equalFold, letters]
    decide +kernel

/-- **Each of the three qualities is that of the last entry with its name.** -/
theorem foldl_add (entries : List (List Char × F64)) :
    entries.foldl Qualities.add ⟨unnamed, unnamed, unnamed⟩ =
      ⟨(lastQuality namesGzip entries).getD unnamed,
        (lastQuality namesWildcard entries).getD unnamed,
        (lastQuality namesIdentity entries).getD unnamed⟩ := by
  induction entries using List.reverseRecOn with
  | nil => rfl
  | append_singleton entries entry ih =>
      obtain ⟨wildcardOnly, identityOnly⟩ := names_exclusive entry.1
      rw [List.foldl_append, List.foldl_cons, List.foldl_nil, ih, lastQuality_concat,
        lastQuality_concat, lastQuality_concat, Qualities.add]
      by_cases wildcard : namesWildcard entry.1
      · rw [if_pos wildcard, (wildcardOnly wildcard).1, (wildcardOnly wildcard).2, if_pos wildcard]
        rfl
      · rw [if_neg wildcard, if_neg wildcard]
        by_cases identity : namesIdentity entry.1
        · rw [if_pos identity, if_pos identity, identityOnly identity]
          rfl
        · rw [if_neg identity, if_neg identity]
          by_cases gzip : namesGzip entry.1
          · rw [if_pos gzip, if_pos gzip]
            rfl
          · rw [if_neg gzip, if_neg gzip]

/-- **The parsed quality of `gzip` is positive when its quality is.** -/
theorem parse_gzip (headers : List String) :
    F64.lt zero (parseResponseEncodings headers).gzip = F64.lt zero (gzipQuality headers) := by
  rw [parseResponseEncodings, foldl_add, gzipQuality, Qualities.preference]
  dsimp only
  rcases found : lastQuality namesGzip (entriesOf headers) with _ | quality
  · rw [Option.getD_none, Option.getD_none]
    have below : F64.lt unnamed zero = true := by decide +kernel
    have none' : F64.max unnamed zero = zero := by decide +kernel
    rw [below, Bool.true_and, none']
    rcases lastQuality namesWildcard (entriesOf headers) with _ | wildcard
    · decide +kernel
    · rw [Option.getD_some, Option.getD_some]
      by_cases positive : F64.lt zero wildcard
      · rw [if_pos positive]
      · rw [if_neg positive, eq_false_of_ne_true positive]
        decide +kernel
  · have nonneg := lastQuality_nonneg found
    rw [Option.getD_some, Option.getD_some, F64.lt_eq_false nonneg, Bool.false_and,
      if_neg Bool.false_ne_true, F64.lt_max nonneg]

/-- **The parsed quality of `identity` is zero when `identity` is forbidden.** -/
theorem parse_identity (headers : List String) :
    F64.equal (parseResponseEncodings headers).identity zero = forbidsIdentity headers := by
  rw [parseResponseEncodings, foldl_add, forbidsIdentity, Qualities.preference]
  dsimp only
  rcases found : lastQuality namesIdentity (entriesOf headers) with _ | quality
  · have below : F64.le zero unnamed = false := by decide +kernel
    rw [Option.getD_none, below, if_neg Bool.false_ne_true]
    rcases lastQuality namesWildcard (entriesOf headers) with _ | wildcard
    · change F64.equal (if F64.equal unnamed zero then zero else one) zero = F64.equal one zero
      decide +kernel
    · rw [Option.getD_some, Option.getD_some]
      by_cases refused : F64.equal wildcard zero
      · rw [if_pos refused, refused]
        decide +kernel
      · rw [if_neg refused, eq_false_of_ne_true refused]
        decide +kernel
  · rw [Option.getD_some, if_pos (lastQuality_nonneg found)]

/-- A wildcard of quality zero forbids `identity`, and leaves `gzip` to its own entry. -/
example : forbidsIdentity ["br, *;q=0", "GZIP; q=0.5"] = true ∧
    gzipQuality ["br, *;q=0", "GZIP; q=0.5"] = ⟨0x3FE0000000000000⟩ := by decide +kernel

end OsmMini.Cmd

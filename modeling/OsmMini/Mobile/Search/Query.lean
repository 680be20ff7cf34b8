import OsmMini.Foundations.Firsts
import OsmMini.Mobile.ExactPlaces
import OsmMini.Mobile.PlaceDetails
import OsmMini.Mobile.Search.Postings

/-!
# Searching a catalog

A query is folded to words. The longest one is the key: the search takes the postings whose
terms start with it, reads their records and keeps those whose texts contain every word, each
record once. It stops as soon as it has as many results as were asked for, so what it finds is
the start of all that it would find (`SearchReader.search_eq`).

A record is decoded only when its bytes may contain the words. This relies on the decoder:
where nothing is escaped, the words of a text stand in the bytes as they are (`Verbatim`).
-/

set_option autoImplicit false

namespace OsmMini.Mobile

open OsmMini.Foundations

/-- A record of the catalog with its details. -/
abbrev CatalogRecord := SettlementRecord PlaceDetails

/-! ## Words -/

/-- The bytes of a text. -/
def utf8 (s : List Char) : List UInt8 := s.flatMap String.utf8EncodeChar

section Words

variable (u : Unicode)

/-- The letter that a letter is searched by. -/
def foldLetter (c : Char) : Char :=
  if c = 'ä' then 'a' else if c = 'ö' then 'o' else if c = 'ü' then 'u'
  else if c = 'é' then 'e' else c

/-- Whether a text consists of words of ASCII letters and digits with one space between them. -/
def isClean (s : List Char) : Bool :=
  s ≠ [] && s.head? ≠ some ' ' && s.getLast? ≠ some ' ' &&
    (s.all fun c => 'a' ≤ c && c ≤ 'z' || '0' ≤ c && c ≤ '9' || c = ' ') &&
    !([' ', ' '] <:+: s)

/-- The text so far, and whether a space comes before its next letter. -/
def appendLetter (state : List Char × Bool) (c : Char) : List Char × Bool :=
  let r := foldLetter (u.toLower c)
  if !u.isLetter r && !u.isDigit r then (state.1, state.1 ≠ [])
  else
    let out := if state.2 then state.1 ++ [' '] else state.1
    (if r = 'ß' then out ++ ['s', 's'] else out ++ [r], false)

/-- A text folded for searching. -/
def normalized (s : List Char) : List Char :=
  if isClean s then s else ((u.nfc s).foldl (appendLetter u) ([], false)).1

/-- A word for a category, as the catalog has it. -/
def categoryWord (word : List Char) : List Char :=
  if word = "apotheke".toList then "pharmacy".toList
  else if word = "tankstelle".toList then "fuel".toList
  else if word = "krankenhaus".toList then "hospital".toList
  else if word = "supermarkt".toList then "supermarket".toList
  else if word = "feuerwehr".toList then "fire".toList
  else word

/-- The words of a query. Fire stations are known by two words. -/
def searchQueryWords (query : List Char) : List (List Char) :=
  let words := Text.fields (normalized u query)
  words.map categoryWord ++
    (words.filter (· = "feuerwehr".toList)).map fun _ => "station".toList

/-- The character that stands for bytes that are no text. -/
def replacement : Char := '\uFFFD'

variable {u}

theorem appendLetter_plain (letter : u.isLetter replacement = false)
    (digit : u.isDigit replacement = false) {state : List Char × Bool}
    (plain : replacement ∉ state.1) (c : Char) : replacement ∉ (appendLetter u state c).1 := by
  have spaced : replacement ∉ if state.2 = true then state.1 ++ [' '] else state.1 := by
    split_ifs
    · exact List.not_mem_append plain (by decide)
    · exact plain
  rw [appendLetter]
  dsimp only
  by_cases outside : (!u.isLetter (foldLetter (u.toLower c)) &&
      !u.isDigit (foldLetter (u.toLower c))) = true
  · rw [if_pos outside]
    exact plain
  · rw [if_neg outside]
    by_cases sharp : foldLetter (u.toLower c) = 'ß'
    · rw [if_pos sharp]
      exact List.not_mem_append spaced (by decide)
    · rw [if_neg sharp]
      refine List.not_mem_append spaced fun member => outside ?_
      rw [← List.mem_singleton.mp member, letter, digit]
      rfl

/-- A folded text consists of letters, digits and spaces. -/
theorem normalized_plain (letter : u.isLetter replacement = false)
    (digit : u.isDigit replacement = false) (s : List Char) : replacement ∉ normalized u s := by
  rw [normalized]
  split_ifs with clean
  · intro member
    simp only [isClean, Bool.and_eq_true, List.all_eq_true] at clean
    have here := clean.1.2 replacement member
    revert here
    decide
  · have run : ∀ (text : List Char) {state : List Char × Bool}, replacement ∉ state.1 →
        replacement ∉ (text.foldl (appendLetter u) state).1 := by
      intro text
      induction text with
      | nil => exact fun plain => plain
      | cons c text ih => exact fun plain => ih (appendLetter_plain letter digit plain c)
    exact run _ List.not_mem_nil

theorem categoryWord_plain {word : List Char} (plain : replacement ∉ word) :
    replacement ∉ categoryWord word := by
  rw [categoryWord]
  split_ifs
  · decide
  · decide
  · decide
  · decide
  · decide
  · exact plain

/-- The words of a text consist of its characters. -/
theorem subset_of_mem_fields {s word : List Char} (member : word ∈ Text.fields s) : word ⊆ s := by
  have pieces : ∀ (s : List Char), ∀ piece ∈ s.splitOnP Text.isSpace, piece ⊆ s := by
    intro s
    induction s with
    | nil =>
        intro piece inside
        rw [List.splitOnP_nil, List.mem_singleton] at inside
        exact inside ▸ List.Subset.refl _
    | cons c s ih =>
        intro piece inside
        rw [List.splitOnP_cons_eq_if_modifyHead] at inside
        split_ifs at inside with space
        · rcases List.mem_cons.mp inside with rfl | later
          · exact List.nil_subset _
          · exact List.Subset.trans (ih piece later) (List.subset_cons_self c s)
        · obtain ⟨first, rest, split⟩ := List.exists_cons_of_ne_nil
            (List.splitOnP_ne_nil Text.isSpace s)
          rw [split, List.modifyHead_cons] at inside
          rw [split] at ih
          rcases List.mem_cons.mp inside with rfl | later
          · exact List.cons_subset_cons c (ih first List.mem_cons_self)
          · exact List.Subset.trans (ih piece (List.mem_cons_of_mem _ later))
              (List.subset_cons_self c s)
  exact pieces s word (List.mem_filter.mp member).1

theorem searchQueryWords_plain (letter : u.isLetter replacement = false)
    (digit : u.isDigit replacement = false) (query : List Char) :
    ∀ word ∈ searchQueryWords u query, replacement ∉ word := by
  intro word member
  rcases List.mem_append.mp member with first | second
  · obtain ⟨source, inside, rfl⟩ := List.mem_map.mp first
    exact categoryWord_plain fun there =>
      normalized_plain letter digit query (subset_of_mem_fields inside there)
  · obtain ⟨-, -, rfl⟩ := List.mem_map.mp second
    decide

end Words

/-! ## The search -/

/-- The number of results that are given when a request names none or too many. -/
def searchLimit (limit : ℤ) : ℕ := if limit < 1 ∨ 100 < limit then 20 else limit.toNat

/-- The first of the longest words, cut to the length of a term. -/
def searchKey (words : List (List Char)) : List UInt8 :=
  (utf8 (words.foldl (fun key word => if (utf8 key).length < (utf8 word).length then word else key)
    (words.headD []))).take searchKeyBytes

section Search

variable (u : Unicode) (zlib : Zlib) (unmarshal : List UInt8 → Except String CatalogRecord)
  (s : SearchReader)

/-- A record as it is shown. -/
def shown (record : CatalogRecord) : CatalogRecord :=
  { record with text := [], details := cleanDetails u record.details }

/-- Take the postings that start with the key. The rounds count the postings that are left,
and `seen` holds where the decoded records stand. -/
def searchPostings (words : List (List Char)) (key : List UInt8) (limit : ℕ) : ℕ →
    SearchPostingIterator → SearchRecords → List ℕ → List CatalogRecord →
    Except String (List CatalogRecord)
  | 0, _, _, _, _ => .error "the index has more postings than it counts"
  | rounds + 1, i, r, seen, out =>
    if limit ≤ out.length then .ok out
    else
      match i.next s with
      | (.error err, _) => .error err
      | (.ok none, _) => .ok out
      | (.ok (some p), i) =>
        if p.term < key then searchPostings words key limit rounds i r seen out
        else if ¬key <+: p.term then .ok out
        else if p.offset ∈ seen then searchPostings words key limit rounds i r seen out
        else
          match r.read zlib s p.offset p.length with
          | (.error err, _) => .error err
          | (.ok b, r) =>
            -- A byte 92 is a backslash, behind which a letter may be escaped.
            if 92 ∉ b ∧ ∃ word ∈ words, ¬utf8 word <:+: b then
              searchPostings words key limit rounds i r seen out
            else
              match unmarshal b with
              | .error err => .error err
              | .ok result =>
                if ∀ word ∈ words, word <:+: result.text then
                  searchPostings words key limit rounds i r (p.offset :: seen)
                    (out ++ [shown u result])
                else searchPostings words key limit rounds i r (p.offset :: seen) out

/-- The records that a query finds, as many as are asked for. -/
def SearchReader.search (query : List Char) (limit : ℤ) (scratch : SearchScratch) :
    Except String (List CatalogRecord) :=
  let words := searchQueryWords u query
  if words = [] then .ok []
  else
    let key := searchKey words
    match postingsFrom s key scratch with
    | (.error err, _) => .error err
    | (.ok (), i) =>
      searchPostings u zlib unmarshal s words key (searchLimit limit) (s.count + 1) i
        (newSearchRecords scratch) [] []

end Search

/-! ## What a search finds -/

/-- A record that was written without escapes holds the words of its text as they are. -/
def Verbatim (unmarshal : List UInt8 → Except String CatalogRecord) : Prop :=
  ∀ b record word, unmarshal b = .ok record → 92 ∉ b → replacement ∉ word →
    word <:+: record.text → utf8 word <:+: b

/-- A catalog that can be read: a reader was opened on its stream and its postings, and every
posting leads to a record. -/
structure Readable (zlib : Zlib) (unmarshal : List UInt8 → Except String CatalogRecord)
    (postings : List SearchPosting) (record : SearchPosting → CatalogRecord)
    (stream : List UInt8) (s : SearchReader) : Prop where
  delivers : Delivers zlib stream s
  posts : Posts postings s
  range : ∀ p ∈ postings, InRange stream p.offset p.length
  decodes : ∀ p ∈ postings, unmarshal (portion stream p.offset p.length) = .ok (record p)
  single : ∀ p ∈ postings, ∀ q ∈ postings, p.offset = q.offset → p.length = q.length

/-- A posting of a query: its term starts with the key, and its record has every word. -/
def Wanted (record : SearchPosting → CatalogRecord) (words : List (List Char))
    (p : SearchPosting) : Prop :=
  searchKey words <+: p.term ∧ ∀ word ∈ words, word <:+: (record p).text

instance (record : SearchPosting → CatalogRecord) (words : List (List Char)) :
    DecidablePred (Wanted record words) := fun _ =>
  inferInstanceAs (Decidable (_ ∧ _))

/-- All matches of a query in the order of the index, each record once. -/
def diskMatches (u : Unicode) (postings : List SearchPosting)
    (record : SearchPosting → CatalogRecord) (query : List Char) : List CatalogRecord :=
  let words := searchQueryWords u query
  if words = [] then []
  else (firsts SearchPosting.offset [] (postings.filter fun p => Wanted record words p)).map
    fun p => shown u (record p)

section Matches

variable {u : Unicode} {zlib : Zlib} {unmarshal : List UInt8 → Except String CatalogRecord}
  {postings : List SearchPosting} {record : SearchPosting → CatalogRecord}
  {stream : List UInt8} {s : SearchReader}

/-- Postings at one place lead to one record. -/
theorem Readable.record_eq (readable : Readable zlib unmarshal postings record stream s)
    {p q : SearchPosting} (inP : p ∈ postings) (inQ : q ∈ postings) (same : p.offset = q.offset) :
    record p = record q := by
  have first := readable.decodes p inP
  rw [same, readable.single p inP q inQ same, readable.decodes q inQ] at first
  exact (Except.ok.inj first).symm

/-- Past the terms that start with a key no term starts with it. -/
theorem not_prefix_later {key : List UInt8} {p q : SearchPosting} (low : key ≤ p.term)
    (past : ¬key <+: p.term) (order : p.le q) : ¬key <+: q.term :=
  fun later => past (prefix_of_between low order.term later)

/-- **What the search does from a posting on.** It adds the matches that it has not seen until
it has enough of them. -/
theorem searchPostings_eq (verbatim : Verbatim unmarshal)
    (readable : Readable zlib unmarshal postings record stream s) {words : List (List Char)}
    (plain : ∀ word ∈ words, replacement ∉ word) {limit : ℕ} :
    ∀ {rest : List SearchPosting} {rounds : ℕ} {i : SearchPostingIterator} {r : SearchRecords}
      {seen : List ℕ} {out : List CatalogRecord},
      rest.length < rounds → Lists s i rest → rest <:+ postings → r.Ready zlib stream s →
      out.length ≤ limit →
      searchPostings u zlib unmarshal s words (searchKey words) limit rounds i r seen out =
        .ok ((out ++ (firsts SearchPosting.offset seen
          (rest.filter fun p => Wanted record words p)).map fun p => shown u (record p)).take
            limit) := by
  intro rest
  induction rest with
  | nil =>
      intro rounds i r seen out enough lists suffix ready room
      obtain ⟨rounds, rfl⟩ := Nat.exists_eq_succ_of_ne_zero (Nat.ne_of_gt enough)
      have all : out.take limit = out := List.take_of_length_le room
      rw [searchPostings, List.filter_nil, firsts, List.map_nil, List.append_nil, all]
      cases lists with
      | done run =>
          rw [run]
          split_ifs <;> rfl
  | cons p rest ih =>
      intro rounds i r seen out enough lists suffix ready room
      obtain ⟨rounds, rfl⟩ := Nat.exists_eq_succ_of_ne_zero
        (Nat.ne_of_gt (Nat.zero_lt_of_lt enough))
      have enough' : rest.length < rounds := Nat.lt_of_succ_lt_succ enough
      have here : p ∈ postings := suffix.subset List.mem_cons_self
      have suffix' : rest <:+ postings := (List.suffix_cons p rest).trans suffix
      rw [searchPostings]
      by_cases full : limit ≤ out.length
      · rw [if_pos full, List.take_append_of_le_length full, List.take_of_length_le room]
      rw [if_neg full]
      cases lists with
      | @more _ i' _ _ run later =>
      rw [run]
      dsimp only
      have skip : ∀ {seen : List ℕ} {r : SearchRecords}, r.Ready zlib stream s →
          ¬Wanted record words p →
          searchPostings u zlib unmarshal s words (searchKey words) limit rounds i' r seen out =
            .ok ((out ++ (firsts SearchPosting.offset seen
              ((p :: rest).filter fun p => Wanted record words p)).map
                fun p => shown u (record p)).take limit) := by
        intro seen r ready unwanted
        rw [List.filter_cons_of_neg (by simpa using unwanted)]
        exact ih enough' later suffix' ready room
      by_cases before : p.term < searchKey words
      · rw [if_pos before]
        exact skip ready fun wanted => (le_of_initial wanted.1).not_gt before
      rw [if_neg before]
      by_cases past : ¬searchKey words <+: p.term
      · have none : (p :: rest).filter (fun p => Wanted record words p) = [] := by
          refine List.filter_eq_nil_iff.mpr fun q member => ?_
          rw [decide_eq_true_iff]
          rintro ⟨starts, -⟩
          rcases List.mem_cons.mp member with rfl | after
          · exact past starts
          · have sorted := readable.posts.sorted.sublist suffix.sublist
            exact not_prefix_later (not_lt.mp before) past
              ((List.pairwise_cons.mp sorted).1 q after) starts
        rw [if_pos past, none, firsts, List.map_nil, List.append_nil,
          List.take_of_length_le room]
      rw [if_neg past]
      have starts : searchKey words <+: p.term := not_not.mp past
      by_cases old : p.offset ∈ seen
      · rw [if_pos old, ih enough' later suffix' ready room]
        by_cases wanted : Wanted record words p
        · rw [List.filter_cons_of_pos (by simpa using wanted), firsts, if_pos old]
        · rw [List.filter_cons_of_neg (by simpa using wanted)]
      rw [if_neg old]
      obtain ⟨r', read, ready'⟩ := ready.read (readable.range p here)
      rw [read]
      dsimp only
      by_cases lacking : 92 ∉ portion stream p.offset p.length ∧
          ∃ word ∈ words, ¬utf8 word <:+: portion stream p.offset p.length
      · rw [if_pos lacking]
        refine skip ready' fun wanted => ?_
        obtain ⟨unescaped, word, member, absent⟩ := lacking
        exact absent (verbatim _ _ word (readable.decodes p here) unescaped (plain word member)
          (wanted.2 word member))
      rw [if_neg lacking, readable.decodes p here]
      dsimp only
      by_cases contains : ∀ word ∈ words, word <:+: (record p).text
      · have wanted : Wanted record words p := ⟨starts, contains⟩
        have room' : (out ++ [shown u (record p)]).length ≤ limit := by
          rw [List.length_append, List.length_singleton]
          omega
        rw [if_pos contains, ih enough' later suffix' ready' room',
          List.filter_cons_of_pos (by simpa using wanted), firsts, if_neg old, List.map_cons,
          List.append_assoc, List.singleton_append]
      · rw [if_neg contains, ih enough' later suffix' ready' room, firsts_unseen]
        · rw [List.filter_cons_of_neg]
          rw [decide_eq_true_iff]
          exact fun wanted => contains wanted.2
        · intro q member same
          obtain ⟨inside, wanted⟩ := List.mem_filter.mp member
          have equal := readable.record_eq (suffix'.subset inside) here same
          have has := (of_decide_eq_true wanted).2
          rw [equal] at has
          exact contains has

/-- **A search finds the first of all matches**, as many as it was asked for. -/
theorem SearchReader.search_eq (letter : u.isLetter replacement = false)
    (digit : u.isDigit replacement = false) (verbatim : Verbatim unmarshal)
    (readable : Readable zlib unmarshal postings record stream s) (query : List Char) (limit : ℤ)
    {scratch : SearchScratch} (sized : scratch.Sized) :
    s.search u zlib unmarshal query limit scratch =
      .ok ((diskMatches u postings record query).take (searchLimit limit)) := by
  have plain := searchQueryWords_plain letter digit query
  rw [SearchReader.search, diskMatches]
  dsimp only
  generalize searchQueryWords u query = words at plain ⊢
  by_cases empty : words = []
  · rw [if_pos empty, if_pos empty, List.take_nil]
  · obtain ⟨i, before, rest, run, lists, split, less⟩ :=
      readable.posts.seek (searchKey words) sized
    have unwanted : before.filter (fun p => Wanted record words p) = [] := by
      refine List.filter_eq_nil_iff.mpr fun p member => ?_
      rw [decide_eq_true_iff]
      exact fun wanted => (le_of_initial wanted.1).not_gt (less p member)
    have count := readable.posts.count
    rw [if_neg empty, if_neg empty, run]
    dsimp only
    rw [searchPostings_eq verbatim readable plain
        (by rw [count, split, List.length_append]; omega) lists (split ▸ List.suffix_append ..)
        (ready_new readable.delivers sized) (Nat.zero_le _),
      List.nil_append, split, List.filter_append, unwanted, List.nil_append]

end Matches

end OsmMini.Mobile

import OsmMini.Mobile.Search.Query

/-!
# Searching a region

A region has a catalog on disk and, for each name, the settlements that bear it. A search
gives the settlements whose name is the query, and then what the catalog finds, with nothing
given twice.

The catalog is asked for no more results than the search is to give, although some of them
may repeat settlements. It is enough all the same: every result that is lost to a repetition
makes up for a settlement that is given already (`Engine.search_merged`).
-/

set_option autoImplicit false

namespace OsmMini.Mobile

open OsmMini.Foundations

/-- An opened region, as far as searching reads it. -/
structure Engine where
  closed : Bool
  search : SearchReader
  settlements : ExactPlaceIndex PlaceDetails

/-- What tells two results apart. -/
def identity (result : CatalogRecord) : List Char × ℤ := (result.kind, result.id)

section Region

variable (u : Unicode)

/-- The settlements whose name is the query. The words for categories belong to the catalog. -/
def ExactPlaceIndex.matches (index : ExactPlaceIndex PlaceDetails) (query : List Char) :
    List CatalogRecord :=
  let query := normalized u query
  if query = "apotheke".toList ∨ query = "tankstelle".toList ∨ query = "krankenhaus".toList ∨
      query = "supermarkt".toList ∨ query = "feuerwehr".toList then []
  else (index.lookup query).getD []

/-- A result with the details that are shown. -/
def withCleanDetails (result : CatalogRecord) : CatalogRecord :=
  { result with details := cleanDetails u result.details }

/-- Append the candidates that have not been given, up to a limit. -/
def appendUnique (limit : ℕ) : List CatalogRecord →
    List CatalogRecord × List (List Char × ℤ) → List CatalogRecord × List (List Char × ℤ)
  | [], state => state
  | result :: candidates, (results, seen) =>
    if identity result ∈ seen then appendUnique limit candidates (results, seen)
    else
      let state := (results ++ [withCleanDetails u result], identity result :: seen)
      if state.1.length = limit then state else appendUnique limit candidates state

def engineSearch (zlib : Zlib) (unmarshal : List UInt8 → Except String CatalogRecord) (e : Engine)
    (query : List Char) (limit : ℤ) (scratch : SearchScratch) :
    Except String (List CatalogRecord) :=
  if e.closed then .error "region is closed"
  else
    let limit := searchLimit limit
    let exact := e.settlements.matches u query
    if exact = [] then e.search.search u zlib unmarshal query limit scratch
    else
      let given := appendUnique u limit exact ([], [])
      if given.1.length < limit then
        match e.search.search u zlib unmarshal query limit scratch with
        | .error err => .error err
        | .ok found => .ok (appendUnique u limit found given).1
      else .ok given.1

end Region

/-! ## Appending -/

section Appending

variable {u : Unicode} {limit : ℕ}

@[simp] theorem identity_withCleanDetails (result : CatalogRecord) :
    identity (withCleanDetails u result) = identity result := rfl

@[simp] theorem identity_shown (result : CatalogRecord) :
    identity (shown u result) = identity result := rfl

/-- What a search shows is clean. -/
@[simp] theorem withCleanDetails_shown (result : CatalogRecord) :
    withCleanDetails u (shown u result) = shown u result := by
  rw [withCleanDetails, shown, cleanDetails_idem]

/-- **Appending gives the first candidates** that have not been given, and knows afterwards
what was given. -/
theorem appendUnique_spec {candidates : List CatalogRecord} :
    ∀ {results : List CatalogRecord} {seen : List (List Char × ℤ)},
    (∀ k, k ∈ seen ↔ k ∈ results.map identity) → results.length < limit →
    (appendUnique u limit candidates (results, seen)).1 =
        (results ++ (firsts identity seen candidates).map (withCleanDetails u)).take limit ∧
      ∀ k, k ∈ (appendUnique u limit candidates (results, seen)).2 ↔
        k ∈ (appendUnique u limit candidates (results, seen)).1.map identity := by
  induction candidates with
  | nil =>
      intro results seen known room
      rw [appendUnique, firsts, List.map_nil, List.append_nil, List.take_of_length_le room.le]
      exact ⟨rfl, known⟩
  | cons result candidates ih =>
      intro results seen known room
      rw [appendUnique, firsts]
      by_cases old : identity result ∈ seen
      · rw [if_pos old, if_pos old]
        exact ih known room
      · have known' : ∀ k, k ∈ identity result :: seen ↔
            k ∈ (results ++ [withCleanDetails u result]).map identity := by
          intro k
          simp only [List.mem_cons, known k, List.map_append, List.mem_append, List.map_cons,
            List.map_nil, identity_withCleanDetails, List.not_mem_nil, or_false]
          exact or_comm
        have length : (results ++ [withCleanDetails u result]).length = results.length + 1 := by
          rw [List.length_append, List.length_singleton]
        rw [if_neg old, if_neg old, List.map_cons,
          List.append_cons results (withCleanDetails u result)
            ((firsts identity (identity result :: seen) candidates).map (withCleanDetails u))]
        dsimp only
        by_cases full : (results ++ [withCleanDetails u result]).length = limit
        · rw [if_pos full, List.take_append_of_le_length full.ge, List.take_of_length_le full.le]
          exact ⟨rfl, known'⟩
        · rw [if_neg full]
          exact ih known' (by omega)

end Appending

/-! ## The answer of a region -/

/-- A limit within its bounds is used as it is. -/
theorem searchLimit_of_bounds {limit : ℤ} (positive : 1 ≤ limit) (few : limit ≤ 100) :
    searchLimit limit = limit.toNat ∧ searchLimit (limit.toNat : ℤ) = limit.toNat := by
  have same : (limit.toNat : ℤ) = limit := by omega
  have kept : searchLimit limit = limit.toNat := if_neg (by omega)
  rw [same]
  exact ⟨kept, kept⟩

/-- The matches of a query in a catalog of distinct records are distinct. -/
theorem diskMatches_distinct {u : Unicode} {postings : List SearchPosting}
    {record : SearchPosting → CatalogRecord}
    (distinct : ∀ p ∈ postings, ∀ q ∈ postings,
      identity (record p) = identity (record q) → p.offset = q.offset) (query : List Char) :
    ((diskMatches u postings record query).map identity).Nodup := by
  rw [diskMatches]
  split_ifs with empty
  · exact List.nodup_nil
  · set wanted := postings.filter fun p => Wanted record (searchQueryWords u query) p with found
    have places := (@firsts_distinct _ _ _ SearchPosting.offset wanted []).1
    have known : ∀ p ∈ firsts SearchPosting.offset [] wanted, p ∈ postings := fun p member =>
      (List.mem_filter.mp ((firsts_sublist wanted []).subset member)).1
    rw [List.map_map]
    refine List.Nodup.map_on (fun p inP q inQ same => ?_) (List.Nodup.of_map _ places)
    exact List.inj_on_of_nodup_map places inP inQ (distinct p (known p inP) q (known q inQ) same)

/-- **Settlements and catalog are merged without loss.** A search of an open region gives the
first results of the settlements with the name, followed by all matches of the catalog,
without later repetitions. -/
theorem Engine.search_merged {u : Unicode} (letter : u.isLetter replacement = false)
    (digit : u.isDigit replacement = false) {zlib : Zlib}
    {unmarshal : List UInt8 → Except String CatalogRecord} (verbatim : Verbatim unmarshal)
    {e : Engine} (isOpen : e.closed = false) {postings : List SearchPosting}
    {record : SearchPosting → CatalogRecord} {stream : List UInt8}
    (readable : Readable zlib unmarshal postings record stream e.search)
    (distinct : ∀ p ∈ postings, ∀ q ∈ postings,
      identity (record p) = identity (record q) → p.offset = q.offset)
    (query : List Char) {limit : ℤ} (positive : 1 ≤ limit) (few : limit ≤ 100)
    {scratch : SearchScratch} (sized : scratch.Sized) :
    engineSearch u zlib unmarshal e query limit scratch =
      .ok ((firsts identity [] ((e.settlements.matches u query).map (withCleanDetails u) ++
        diskMatches u postings record query)).take limit.toNat) := by
  obtain ⟨here, again⟩ := searchLimit_of_bounds positive few
  have found := SearchReader.search_eq letter digit verbatim readable query limit.toNat sized
  have apart := diskMatches_distinct (u := u) distinct query
  rw [again] at found
  rw [engineSearch, isOpen, if_neg Bool.false_ne_true]
  dsimp only
  rw [here, found]
  generalize e.settlements.matches u query = exact
  have clean : (diskMatches u postings record query).map (withCleanDetails u) =
      diskMatches u postings record query := by
    rw [diskMatches]
    split_ifs
    · rfl
    · rw [List.map_map]
      exact List.map_congr_left fun p _ => withCleanDetails_shown (record p)
  generalize diskMatches u postings record query = disk at apart clean ⊢
  by_cases none : exact = []
  · rw [if_pos none, none, List.map_nil, List.nil_append, firsts_eq_filter apart]
    simp
  · rw [if_neg none]
    have some : ([] : List CatalogRecord).length < limit.toNat := by
      rw [List.length_nil]
      omega
    obtain ⟨given, known⟩ := @appendUnique_spec u limit.toNat exact [] [] (fun _ => Iff.rfl) some
    set settled := appendUnique u limit.toNat exact ([], []) with appended
    have names : (firsts identity [] exact).map (withCleanDetails u) =
        firsts identity [] (exact.map (withCleanDetails u)) :=
      (@firsts_map _ _ _ identity _ (withCleanDetails u) exact []).symm
    rw [List.nil_append, names] at given
    set first := firsts identity [] (exact.map (withCleanDetails u)) with firstNames
    by_cases short : settled.1.length < limit.toNat
    · have whole : settled.1 = first := by
        rw [given, List.length_take] at short
        rw [given, List.take_of_length_le (by omega)]
      have kept : (disk.take limit.toNat).map (withCleanDetails u) = disk.take limit.toNat := by
        rw [List.map_take, clean]
      have later := (@appendUnique_spec u limit.toNat (disk.take limit.toNat) _ _ known short).1
      have same : (firsts identity settled.2 (disk.take limit.toNat)).map (withCleanDetails u) =
          firsts identity (first.map identity ++ []) (disk.take limit.toNat) := by
        have cleaned := @firsts_map _ _ _ identity _ (withCleanDetails u)
          (disk.take limit.toNat) settled.2
        rw [kept] at cleaned
        rw [List.append_nil]
        exact cleaned.symm.trans (firsts_congr fun k => by rw [known k, whole])
      rw [if_pos short, ← take_firsts_append limit.toNat _ apart, firsts_append, ← firstNames]
      refine congrArg Except.ok (later.trans ?_)
      rw [whole, same]
    · rw [if_neg short, given, firsts_append, ← firstNames, List.take_append_of_le_length]
      rw [given, List.length_take] at short
      omega

/-! ### A town and a pharmacy -/

/-- The classes of ASCII. -/
def asciiUnicode : Unicode where
  nfc s := s
  toLower := Text.lower
  isLetter c := 'a' ≤ c && c ≤ 'z' || 'A' ≤ c && c ≤ 'Z'
  isDigit c := '0' ≤ c && c ≤ '9'
  isFormat _ := false

/-- A town, and a pharmacy that bears its name. -/
def oldtown : CatalogRecord :=
  ⟨⟨7, "node".toList, "Altstadt".toList, ⟨⟨0⟩, ⟨0⟩⟩, [], "town".toList, none⟩,
    "altstadt".toList⟩

def oldtownPharmacy : CatalogRecord :=
  ⟨⟨8, "node".toList, "Altstadt-Apotheke".toList, ⟨⟨0⟩, ⟨0⟩⟩, "pharmacy".toList, [], none⟩,
    "altstadt apotheke pharmacy".toList⟩

def oldtownLine : List UInt8 :=
  ("\x7b\"id\":7,\"kind\":\"node\",\"label\":\"Altstadt\",\"place\":\"town\"," ++
    "\"text\":\"altstadt\"\x7d\n").toUTF8.data.toList

def pharmacyLine : List UInt8 :=
  ("\x7b\"id\":8,\"kind\":\"node\",\"label\":\"Altstadt-Apotheke\",\"category\":\"pharmacy\"," ++
    "\"text\":\"altstadt apotheke pharmacy\"\x7d\n").toUTF8.data.toList

/-- A decoder that knows the two lines. -/
def readOldtown (b : List UInt8) : Except String CatalogRecord :=
  if b = oldtownLine then .ok oldtown
  else if b = pharmacyLine then .ok oldtownPharmacy
  else .error "unexpected record"

def oldtownPostings : List SearchPosting :=
  [⟨utf8 "altstadt".toList, 0, oldtownLine.length⟩,
    ⟨utf8 "altstadt".toList, oldtownLine.length, pharmacyLine.length⟩,
    ⟨utf8 "pharmacy".toList, oldtownLine.length, pharmacyLine.length⟩]

def oldtownRecord (p : SearchPosting) : CatalogRecord :=
  if p.offset = 0 then oldtown else oldtownPharmacy

/-- The region with both, whose index is a table. -/
def oldtownRegion : Engine where
  closed := false
  search :=
    { data := oldtownLine ++ pharmacyLine
      index := oldtownPostings.flatMap fun p => compactEntry p.term p.offset p.length 0
      count := 3
      dataBytes := oldtownLine.length + pharmacyLine.length
      compact := false
      blocks := 0
      directory := 0
      compressedData := false
      dataBlocks := 0
      dataDirectory := 0 }
  settlements := ExactPlaceIndex.addAll (normalized asciiUnicode) [oldtown]

theorem utf8_within {word text : List Char} (inside : word <:+: text) :
    utf8 word <:+: utf8 text := by
  obtain ⟨before, after, rfl⟩ := inside
  refine ⟨utf8 before, utf8 after, ?_⟩
  rw [utf8, utf8, utf8, utf8, List.flatMap_append, List.flatMap_append]

theorem readOldtown_verbatim : Verbatim readOldtown := by
  intro b record word decoded _ _ inside
  rw [readOldtown] at decoded
  split_ifs at decoded with first second
  · obtain rfl := Except.ok.inj decoded
    have line : utf8 oldtown.text <:+: oldtownLine := by decide +kernel
    exact first ▸ (utf8_within inside).trans line
  · obtain rfl := Except.ok.inj decoded
    have line : utf8 oldtownPharmacy.text <:+: pharmacyLine := by decide +kernel
    exact second ▸ (utf8_within inside).trans line

theorem readOldtown_lines : ∀ p ∈ oldtownPostings,
    readOldtown (portion (oldtownLine ++ pharmacyLine) p.offset p.length) =
      .ok (oldtownRecord p) := by
  have first : portion (oldtownLine ++ pharmacyLine) 0 oldtownLine.length = oldtownLine :=
    List.take_left
  have second : portion (oldtownLine ++ pharmacyLine) oldtownLine.length pharmacyLine.length =
      pharmacyLine := by
    rw [portion, List.drop_left, List.take_length]
  have other : ¬pharmacyLine = oldtownLine := by decide +kernel
  have behind : ¬oldtownLine.length = 0 := by decide +kernel
  have named : readOldtown pharmacyLine = .ok oldtownPharmacy := by
    rw [readOldtown, if_neg other, if_pos rfl]
  have found : ∀ term, oldtownRecord ⟨term, oldtownLine.length, pharmacyLine.length⟩ =
      oldtownPharmacy := fun _ => if_neg behind
  intro p member
  simp only [oldtownPostings, List.mem_cons, List.not_mem_nil, or_false] at member
  rcases member with rfl | rfl | rfl
  · dsimp only
    rw [first, readOldtown, if_pos rfl]
    rfl
  · dsimp only
    rw [second, named, found]
  · dsimp only
    rw [second, named, found]

/-- The buffers of a query as an earlier one left them. -/
def usedScratch : SearchScratch where
  postings := List.replicate (64 * searchIndexBytes) 7
  block := List.replicate searchBlockMaxBytes 7
  data := List.replicate searchDataBlockBytes 7
  encoded := List.replicate searchDataMaxEncoded 7
  directory := List.replicate (64 * searchDataEntryBytes) 7

theorem usedScratch_sized : usedScratch.Sized :=
  ⟨List.length_replicate, List.length_replicate, List.length_replicate, List.length_replicate,
    List.length_replicate⟩

/-- Both results of the query are given; the town, which the catalog finds again, once. -/
theorem Engine.search_merged_oldtown :
    (engineSearch asciiUnicode storingZlib readOldtown oldtownRegion "Altstadt".toList 2
      usedScratch).map (·.map identity) = .ok [("node".toList, 7), ("node".toList, 8)] := by
  have merged := @Engine.search_merged asciiUnicode (by decide) (by decide) storingZlib readOldtown
    readOldtown_verbatim oldtownRegion rfl oldtownPostings oldtownRecord
    (oldtownLine ++ pharmacyLine)
    { delivers := .inr ⟨rfl, by decide +kernel, rfl⟩
      posts := .inr ⟨rfl, by decide +kernel, by decide +kernel, by decide +kernel⟩
      range := by decide +kernel
      decodes := readOldtown_lines
      single := by decide +kernel }
    (by decide +kernel) "Altstadt".toList 2 (by decide) (by decide) usedScratch usedScratch_sized
  rw [merged, Except.map]
  exact congrArg Except.ok (by decide +kernel)

end OsmMini.Mobile

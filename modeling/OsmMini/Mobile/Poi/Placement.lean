import OsmMini.Mobile.Poi.Tiles
import OsmMini.Mobile.Search.Sort

/-!
# Every POI lies in one tile

The index is built from the POIs of a catalog and opened again. At every zoom the tile
that contains the projection of a POI shows it once, at a pixel inside its extent, and no
other tile shows it (`poi_in_one_tile`).
-/

set_option autoImplicit false

namespace OsmMini.Mobile

open OsmMini.Foundations

/-! ## Building and opening the index -/

/-- The first bytes of the footer of an index, `OSMPOI01`. -/
def poiIndexMagic : List UInt8 := [79, 83, 77, 80, 79, 73, 48, 49]
def digestBytes : ℕ := 32
def poiFooterBytes : ℕ := 8 + 2 * digestBytes

/-- The bytes of a hexadecimal text. -/
def hexDecode : List Char → Option (List UInt8)
  | [] => some []
  | [_] => none
  | high :: low :: rest =>
    match Text.digitOf 16 high, Text.digitOf 16 low, hexDecode rest with
    | some high, some low, some rest => some (UInt8.ofNat (16 * high + low) :: rest)
    | _, _, _ => none

/-- The digest of the catalog that an index belongs to. -/
def sourceDigest (sourceHash : List Char) : Option (List UInt8) :=
  match hexDecode sourceHash with
  | none => none
  | some digest => if digest.length = digestBytes then some digest else none

section Building

variable {D : Type} {K : Type} [Field K] [LinearOrder K] [FloorRing K]
variable (poiWorld : SearchResult D → K × K)
variable (unmarshal : List UInt8 → Except String (SearchResult D))
variable (sha256 : List UInt8 → List UInt8)

/-- The index of the POIs of a stream, with a footer that names the catalog. -/
def buildPOIIndex (stream : List UInt8) (sourceHash : List Char) : Except String (List UInt8) :=
  match sourceDigest sourceHash with
  | none => .error "invalid search checksum"
  | some digest =>
    match scanPOIRecords unmarshal stream with
    | .error err => .error err
    | .ok found =>
      match ((found.map (poiPosting poiWorld)).foldl SearchIndexBuilder.add ⟨[], []⟩).finish with
      | .error err => .error err
      | .ok index => .ok (index ++ (poiIndexMagic ++ digest ++ sha256 index))

/-- Open the index of a catalog. The reader has the data of the catalog and the file up to
its footer. -/
def readPOIIndex (file : List UInt8) (source : SearchReader) (sourceHash : List Char) :
    Except String SearchReader :=
  if file.length < searchCompactHeaderBytes + poiFooterBytes then .error "invalid POI index size"
  else
    let index := file.take (file.length - poiFooterBytes)
    let footer := file.drop (file.length - poiFooterBytes)
    match sourceDigest sourceHash with
    | none => .error "POI index belongs to another search catalog"
    | some digest =>
      if footer.take 8 ≠ poiIndexMagic ∨ portion footer 8 digestBytes ≠ digest then
        .error "POI index belongs to another search catalog"
      else if footer.drop (8 + digestBytes) ≠ sha256 index then
        .error "POI index checksum mismatch"
      else
        let reader : SearchReader :=
          { source with index := index, count := 0, compact := false, blocks := 0, directory := 0 }
        match reader.readIndexHeader with
        | .error err => .error err
        | .ok reader => if !reader.compact then .error "invalid POI index format" else .ok reader

end Building

/-! ## Scanning a tile -/

section Scan

variable {D : Type} {K : Type} [Field K] [LinearOrder K] [IsStrictOrderedRing K] [FloorRing K]
variable {poiWorld : SearchResult D → K × K} {cleanDetails : Option D → Option D}
variable {unmarshal : List UInt8 → Except String (SearchResult D)} {zlib : Zlib}
variable {stream : List UInt8} {p : SearchReader}

/-- The feature of a POI in a tile, if it lies there. -/
def featureIn (poiWorld : SearchResult D → K × K) (cleanDetails : Option D → Option D)
    (z x y : ℕ) (record : SearchResult D) : Option (VectorFeature D) :=
  (pixelInTile poiWorld z x y record).map (poiFeature cleanDetails record)

/-- The features of the POIs of a tile. -/
def tileFeatures (poiWorld : SearchResult D → K × K) (cleanDetails : Option D → Option D)
    (z x y : ℕ) (located : List (Located D)) : List (VectorFeature D) :=
  located.filterMap fun l => featureIn poiWorld cleanDetails z x y l.record

omit [IsStrictOrderedRing K] in
theorem tileFeatures_skip {z x y : ℕ} {l : Located D} {left : List (Located D)}
    (outside : pixelInTile poiWorld z x y l.record = none) :
    tileFeatures poiWorld cleanDetails z x y (l :: left) =
      tileFeatures poiWorld cleanDetails z x y left := by
  refine List.filterMap_cons_none ?_
  rw [featureIn, outside, Option.map_none]

omit [IsStrictOrderedRing K] in
theorem tileFeatures_take {z x y : ℕ} {l : Located D} {left : List (Located D)} {pixel : ℤ × ℤ}
    (inside : pixelInTile poiWorld z x y l.record = some pixel) :
    tileFeatures poiWorld cleanDetails z x y (l :: left) =
      poiFeature cleanDetails l.record pixel :: tileFeatures poiWorld cleanDetails z x y left := by
  refine List.filterMap_cons_some ?_
  rw [featureIn, inside, Option.map_some]

omit [IsStrictOrderedRing K] in
/-- **The scan of a tile** appends the features of the POIs of the tile among the postings
that are left, as long as the tile holds no more than it may. -/
theorem collectTile_spec {postings : List SearchPosting} (indexes : Indexes postings p)
    {first last : List UInt8} {z x y : ℕ} :
    ∀ {rounds : ℕ} {left : List (Located D)} {i : SearchPostingIterator} {r : SearchRecords}
      {features : List (VectorFeature D)} {seen : List (List Char)},
      (∀ l ∈ left, pixelInTile poiWorld z x y l.record ≠ none →
        first ≤ poiKey (recordCell poiWorld l.record) ∧
          poiKey (recordCell poiWorld l.record) ≤ last) →
      left.length < rounds → Standing postings p i (left.map (poiPosting poiWorld)) →
      r.Ready zlib stream p → (∀ l ∈ left, Stands unmarshal stream l) →
      (left.map (poiPosting poiWorld)).Pairwise SearchPosting.le →
      (left.map fun l => poiIdentity l.record).Nodup →
      (∀ l ∈ left, poiIdentity l.record ∉ seen) →
      features.length + (tileFeatures poiWorld cleanDetails z x y left).length ≤ maxTilePOIs →
      collectTile poiWorld cleanDetails unmarshal zlib p first last z x y rounds i r features seen =
        .ok (features ++ tileFeatures poiWorld cleanDetails z x y left)
  | 0, left, i, r, features, seen, _, enough, _, _, _, _, _, _, _ =>
      absurd enough (Nat.not_lt_zero _)
  | rounds + 1, left, i, r, features, seen, keys, enough, standing, ready, stands, sorted, distinct,
      fresh, room => by
      rw [collectTile]
      by_cases full : maxTilePOIs ≤ features.length
      · have none : tileFeatures poiWorld cleanDetails z x y left = [] :=
          List.eq_nil_of_length_eq_zero (by omega)
        rw [if_pos full, none, List.append_nil]
      rw [if_neg full]
      cases left with
      | nil =>
          rcases next_spec indexes standing with ⟨-, run⟩ | ⟨q, rest, i', some, -, -⟩
          · rw [run]
            simp [tileFeatures]
          · cases some
      | cons l left =>
          rcases next_spec indexes standing with ⟨none, -⟩ | ⟨q, rest, i', split, run, standing'⟩
          · cases none
          rw [List.map_cons] at split
          obtain ⟨rfl, rfl⟩ := List.cons.inj split
          obtain ⟨here, later⟩ := List.pairwise_cons.mp sorted
          obtain ⟨new, distinct'⟩ := List.nodup_cons.mp distinct
          have stands' : ∀ l ∈ left, Stands unmarshal stream l :=
            fun l member => stands l (List.mem_cons_of_mem _ member)
          have keys' := fun m member => keys m (List.mem_cons_of_mem l member)
          have standsHere := stands l (List.mem_cons_self ..)
          have fresh' : ∀ l ∈ left, poiIdentity l.record ∉ seen :=
            fun l member => fresh l (List.mem_cons_of_mem _ member)
          rw [run]
          dsimp only [poiPosting]
          by_cases before : poiKey (recordCell poiWorld l.record) < first
          · have outside : pixelInTile poiWorld z x y l.record = none := by
              by_contra inside
              exact absurd (keys l (List.mem_cons_self ..) inside).1 before.not_ge
            rw [tileFeatures_skip outside] at room ⊢
            rw [if_pos before]
            exact collectTile_spec indexes keys' (Nat.lt_of_succ_lt_succ enough) standing' ready
              stands' later distinct' fresh' room
          rw [if_neg before]
          by_cases past : last < poiKey (recordCell poiWorld l.record)
          · have none : tileFeatures poiWorld cleanDetails z x y (l :: left) = [] := by
              refine List.filterMap_eq_nil_iff.mpr fun m member => ?_
              have after : last < poiKey (recordCell poiWorld m.record) := by
                rcases List.mem_cons.mp member with rfl | behind
                · exact past
                · exact past.trans_le (here _ (List.mem_map_of_mem behind)).term
              rw [featureIn, Option.map_eq_none_iff]
              by_contra inside
              exact absurd (keys m member inside).2 after.not_ge
            rw [if_pos past, none, List.append_nil]
          rw [if_neg past]
          obtain ⟨r', read, ready'⟩ := ready.read standsHere.range
          rw [read]
          dsimp only
          rw [standsHere.decodes]
          dsimp only
          rw [if_neg (by rw [standsHere.valid]; decide)]
          cases inside : pixelInTile poiWorld z x y l.record with
          | none =>
              rw [tileFeatures_skip inside] at room ⊢
              exact collectTile_spec indexes keys' (Nat.lt_of_succ_lt_succ enough) standing' ready'
                stands' later distinct' fresh' room
          | some pixel =>
              rw [tileFeatures_take inside, List.length_cons] at room
              rw [tileFeatures_take inside]
              dsimp only
              rw [if_neg (fresh l (List.mem_cons_self ..))]
              rw [collectTile_spec indexes keys' (Nat.lt_of_succ_lt_succ enough) standing' ready'
                stands' later distinct' ?_ ?_, List.append_assoc, List.singleton_append]
              · intro m member known
                rcases List.mem_cons.mp known with same | known
                · exact new (List.mem_map.mpr ⟨m, member, same⟩)
                · exact fresh' m member known
              · rw [List.length_append, List.length_singleton]
                omega

end Scan

/-! ## The index of a catalog -/

section Catalog

variable {D : Type} {K : Type} [Field K] [LinearOrder K] [IsStrictOrderedRing K] [FloorRing K]
variable {poiWorld : SearchResult D → K × K} {cleanDetails : Option D → Option D}
variable {unmarshal : List UInt8 → Except String (SearchResult D)} {zlib : Zlib}
variable {sha256 : List UInt8 → List UInt8} {stream : List UInt8}
variable {records : List (SearchResult D)}

/-- A catalog of POIs: the lines of the stream decode to records that are POIs. -/
structure Catalog (unmarshal : List UInt8 → Except String (SearchResult D)) (stream : List UInt8)
    (records : List (SearchResult D)) : Prop where
  lines : List.Forall₂ (fun line record => line.length ≤ maxSearchRecordBytes ∧
    categoryMark <:+: line ∧ unmarshal line = .ok record) (linesOf stream) records
  valid : ∀ record ∈ records, validPOI record = true

theorem scanLines_all {lines : List (List UInt8)} {records : List (SearchResult D)}
    (offset : ℕ) (decodes : List.Forall₂ (fun line record => line.length ≤ maxSearchRecordBytes ∧
      categoryMark <:+: line ∧ unmarshal line = .ok record) lines records)
    (valid : ∀ record ∈ records, validPOI record = true) :
    ∃ found, scanLines unmarshal offset lines = .ok found ∧ found.map (·.record) = records := by
  induction decodes generalizing offset with
  | nil => exact ⟨[], rfl, rfl⟩
  | @cons line record lines records here _ ih =>
      obtain ⟨short, marked, decoded⟩ := here
      obtain ⟨found, run, all⟩ := ih (offset + line.length)
        fun r member => valid r (List.mem_cons_of_mem _ member)
      rw [scanLines, if_neg (not_lt.mpr short), if_pos marked, decoded]
      dsimp only
      rw [run]
      dsimp only
      rw [if_pos (valid record (List.mem_cons_self ..))]
      exact ⟨_, rfl, congrArg (record :: ·) all⟩

/-- **A scan of a catalog finds its POIs.** -/
theorem Catalog.scan (catalog : Catalog unmarshal stream records) :
    ∃ found, scanPOIRecords unmarshal stream = .ok found ∧ found.map (·.record) = records :=
  scanLines_all 0 catalog.lines catalog.valid

omit [IsStrictOrderedRing K] in
/-- The posting of a POI in the stream can be stored. -/
theorem storable_posting {found : Located D} (stands : Stands unmarshal stream found)
    (small : stream.length < 2 ^ 63) : (poiPosting poiWorld found).Storable := by
  obtain ⟨some, short, inside⟩ := stands.range
  have length : (poiKey (recordCell poiWorld found.record)).length = 7 :=
    poiKey_length (poiCell_lt ..)
  refine ⟨⟨?_, ?_, some, short⟩, ?_⟩
  · rw [poiPosting, length]
    decide
  · rw [poiPosting, length]
    decide
  · show found.offset < 2 ^ 64
    omega

/-- The reader of an index has the data of the catalog. -/
theorem readIndexHeader_delivers {s s' : SearchReader} (run : s.readIndexHeader = .ok s')
    (delivers : Delivers zlib stream s) : Delivers zlib stream s' := by
  have same : s'.data = s.data ∧ s'.dataBytes = s.dataBytes ∧
      s'.compressedData = s.compressedData ∧ s'.dataBlocks = s.dataBlocks ∧
      s'.dataDirectory = s.dataDirectory := by
    unfold SearchReader.readIndexHeader at run
    dsimp only at run
    split_ifs at run
    · obtain rfl := Except.ok.inj run
      exact ⟨rfl, rfl, rfl, rfl, rfl⟩
    · obtain rfl := Except.ok.inj run
      exact ⟨rfl, rfl, rfl, rfl, rfl⟩
  obtain ⟨data, dataBytes, compressed, dataBlocks, dataDirectory⟩ := same
  rcases delivers with opens | holds
  · exact .inl ⟨opens.lawful, opens.fits, data.trans opens.data, data ▸ opens.small,
      compressed.trans opens.compressed, dataBytes.trans opens.dataBytes,
      dataBlocks.trans opens.dataBlocks, dataDirectory.trans opens.dataDirectory⟩
  · exact .inr ⟨data.trans holds.data, dataBytes.trans holds.dataBytes, compressed.trans holds.raw⟩

omit [IsStrictOrderedRing K] in
/-- **The index is built**, of the postings of the POIs in order, and opened again. -/
theorem buildPOIIndex_spec (digest : ∀ bytes, (sha256 bytes).length = digestBytes)
    {found : List (Located D)} (scanned : scanPOIRecords unmarshal stream = .ok found)
    (small : stream.length < 2 ^ 63) {source : SearchReader}
    (delivers : Delivers zlib stream source) {sourceHash : List Char} {hash : List UInt8}
    (hashed : sourceDigest sourceHash = some hash) :
    ∃ file postings, buildPOIIndex poiWorld unmarshal sha256 stream sourceHash = .ok file ∧
      postings.Perm (found.map (poiPosting poiWorld)) ∧ postings.Pairwise SearchPosting.le ∧
      (file.length < 2 ^ 63 → ∃ p, readPOIIndex sha256 file source sourceHash = .ok p ∧
        Indexes postings p ∧ Delivers zlib stream p) := by
  obtain ⟨stands, -⟩ := scanPOIRecords_spec scanned
  have storable : ∀ q ∈ found.map (poiPosting poiWorld), q.Storable := by
    intro q member
    obtain ⟨l, inside, rfl⟩ := List.mem_map.mp member
    exact storable_posting (stands l inside) small
  have unpadded : ∀ q ∈ found.map (poiPosting poiWorld), 0 ∉ q.term := by
    intro q member
    obtain ⟨l, inside, rfl⟩ := List.mem_map.mp member
    exact poiKey_unpadded (poiCell_lt ..)
  obtain ⟨postings, finished, perm, sorted⟩ := SearchIndexBuilder.finish_spec storable
  have accepted : ∀ q ∈ postings, q.Accepted :=
    fun q member => (storable q (perm.subset member)).accepted
  have indexable : Indexable postings := ⟨accepted,
    fun q member => (storable q (perm.subset member)).offset,
    fun q member => unpadded q (perm.subset member), sorted⟩
  rw [writeCompact_eq accepted sorted] at finished
  have hashLength : hash.length = digestBytes := by
    unfold sourceDigest at hashed
    split at hashed
    · cases hashed
    · split_ifs at hashed with length
      exact (Option.some.inj hashed) ▸ length
  refine ⟨indexFile postings ++ (poiIndexMagic ++ hash ++ sha256 (indexFile postings)), postings,
    ?_, perm, sorted, fun bounded => ?_⟩
  · rw [buildPOIIndex, hashed]
    dsimp only
    rw [scanned]
    dsimp only
    rw [finished]
  have footer : (poiIndexMagic ++ hash ++ sha256 (indexFile postings)).length = poiFooterBytes := by
    rw [List.length_append, List.length_append, hashLength, digest]
    rfl
  have start : (indexFile postings ++ (poiIndexMagic ++ hash ++ sha256 (indexFile postings))).length -
      poiFooterBytes = (indexFile postings).length := by
    rw [List.length_append, footer, Nat.add_sub_cancel]
  have index := @List.take_left _ (indexFile postings)
    (poiIndexMagic ++ hash ++ sha256 (indexFile postings))
  have rest := @List.drop_left _ (indexFile postings)
    (poiIndexMagic ++ hash ++ sha256 (indexFile postings))
  have named : (poiIndexMagic ++ hash ++ sha256 (indexFile postings)).take 8 = poiIndexMagic := by
    rw [List.append_assoc]
    exact List.take_left' rfl
  have belongs : portion (poiIndexMagic ++ hash ++ sha256 (indexFile postings)) 8 digestBytes =
      hash := by
    rw [← hashLength]
    exact portion_middle poiIndexMagic hash (sha256 (indexFile postings))
  have checked : (poiIndexMagic ++ hash ++ sha256 (indexFile postings)).drop (8 + digestBytes) =
      sha256 (indexFile postings) := by
    refine List.drop_left' ?_
    rw [List.length_append, hashLength]
    rfl
  have large : searchCompactHeaderBytes ≤ (indexFile postings).length := by
    rw [indexFile_length accepted]
    omega
  have enough : ¬(indexFile postings ++
      (poiIndexMagic ++ hash ++ sha256 (indexFile postings))).length <
        searchCompactHeaderBytes + poiFooterBytes := by
    rw [List.length_append, footer]
    omega
  have shorter : (indexFile postings).length < 2 ^ 63 := by
    rw [List.length_append] at bounded
    omega
  obtain ⟨p, opened, indexes, -⟩ := @readIndexHeader_spec postings
    { source with
      index := indexFile postings, count := 0, compact := false, blocks := 0, directory := 0 }
    indexable rfl shorter
  refine ⟨p, ?_, indexes, readIndexHeader_delivers opened ?_⟩
  · rw [readPOIIndex, if_neg enough]
    dsimp only
    rw [start, index, rest, hashed]
    dsimp only
    rw [named, belongs, checked, if_neg (by simp), if_neg (by simp), opened]
    dsimp only
    rw [if_neg (by simp [indexes.compact])]
  · rcases delivers with opens | holds
    · exact .inl ⟨opens.lawful, opens.fits, opens.data, opens.small, opens.compressed,
        opens.dataBytes, opens.dataBlocks, opens.dataDirectory⟩
    · exact .inr ⟨holds.data, holds.dataBytes, holds.raw⟩

/-! ## One tile for each POI -/

/-- A rearranged image is the image of a rearranged list. -/
theorem exists_map_of_perm {α β : Type*} {f : α → β} {images : List β} {l : List α}
    (perm : images.Perm (l.map f)) : ∃ l' : List α, l'.map f = images ∧ l'.Perm l := by
  have pointwise : List.Forall₂ (fun b a => b = f a) (l.map f) l :=
    List.forall₂_map_left_iff.mpr (List.forall₂_same.mpr fun _ _ => rfl)
  obtain ⟨l', related, perm'⟩ := List.perm_comp_forall₂ perm pointwise
  refine ⟨l', ?_, perm'⟩
  have equal := List.forall₂_map_right_iff.mpr related
  rw [List.forall₂_eq_eq_eq] at equal
  exact equal.symm

/-- Of elements with different keys one has a key. -/
theorem filter_key_eq {α β : Type*} [DecidableEq β] {f : α → β} : ∀ {l : List α},
    (l.map f).Nodup → ∀ {a : α}, a ∈ l → (l.filter fun b => f b = f a) = [a]
  | b :: l, distinct, a, member => by
      obtain ⟨new, distinct'⟩ := List.nodup_cons.mp distinct
      rcases List.mem_cons.mp member with rfl | later
      · rw [List.filter_cons_of_pos (by simp), List.filter_eq_nil_iff.mpr]
        intro c inside same
        exact new (List.mem_map.mpr ⟨c, inside, of_decide_eq_true same⟩)
      · rw [List.filter_cons_of_neg, filter_key_eq distinct' later]
        rw [decide_eq_true_iff]
        intro same
        exact new (List.mem_map.mpr ⟨a, later, same.symm⟩)

omit [IsStrictOrderedRing K] in
/-- The features of a tile with an identity are those of the POIs with it. -/
theorem tileFeatures_filter (z x y : ℕ) (identity : List Char) (located : List (Located D)) :
    (tileFeatures poiWorld cleanDetails z x y located).filter (·.sourceIdentity = identity) =
      tileFeatures poiWorld cleanDetails z x y
        (located.filter fun l => poiIdentity l.record = identity) := by
  induction located with
  | nil => rfl
  | cons l located ih =>
      cases inside : pixelInTile poiWorld z x y l.record with
      | none =>
          rw [tileFeatures_skip inside, ih]
          by_cases same : poiIdentity l.record = identity
          · rw [List.filter_cons_of_pos (by simpa using same), tileFeatures_skip inside]
          · rw [List.filter_cons_of_neg (by simpa using same)]
      | some pixel =>
          rw [tileFeatures_take inside]
          by_cases same : poiIdentity l.record = identity
          · have here : decide ((poiFeature cleanDetails l.record pixel).sourceIdentity = identity) =
                true := decide_eq_true same
            rw [List.filter_cons, if_pos here, ih, List.filter_cons, if_pos (decide_eq_true same),
              tileFeatures_take inside]
          · have here : ¬decide ((poiFeature cleanDetails l.record pixel).sourceIdentity =
                identity) = true := by
              rw [decide_eq_true_iff]
              exact same
            rw [List.filter_cons, if_neg here, ih, List.filter_cons,
              if_neg (by rw [decide_eq_true_iff]; exact same)]

/-- The tile holds the POIs whose column and row it has. -/
theorem tileFeatures_length {z x y : ℕ} {located : List (Located D)}
    (inMap : ∀ l ∈ located, InMap (poiWorld l.record)) :
    (tileFeatures poiWorld cleanDetails z x y located).length =
      ((located.map (·.record)).filter fun record =>
        tileOf z (poiWorld record).1 = x ∧ tileOf z (poiWorld record).2 = y).length := by
  induction located with
  | nil => rfl
  | cons l located ih =>
      have ih := ih fun m member => inMap m (List.mem_cons_of_mem _ member)
      have none_iff := @pixelInTile_eq_none_iff D K _ _ _ _ poiWorld z x y l.record
        (inMap l (List.mem_cons_self ..))
      rw [List.map_cons]
      cases inside : pixelInTile poiWorld z x y l.record with
      | none =>
          rw [tileFeatures_skip inside, ih, List.filter_cons_of_neg]
          rw [decide_eq_true_iff]
          exact none_iff.mp inside
      | some pixel =>
          rw [tileFeatures_take inside, List.length_cons, ih, List.filter_cons_of_pos,
            List.length_cons]
          rw [decide_eq_true_iff]
          by_contra elsewhere
          rw [none_iff.mpr elsewhere] at inside
          cases inside

/-- **The features of a tile** are those of the POIs it contains. -/
theorem poiFeatures_spec {postings : List SearchPosting} {p : SearchReader}
    (indexes : Indexes postings p) (delivers : Delivers zlib stream p)
    {located : List (Located D)} (all : located.map (poiPosting poiWorld) = postings)
    (stands : ∀ l ∈ located, Stands unmarshal stream l)
    (inMap : ∀ l ∈ located, InMap (poiWorld l.record))
    (distinct : (located.map fun l => poiIdentity l.record).Nodup)
    {scratch : SearchScratch} (sized : scratch.Sized) {z x y : ℕ} (zoom : z ≤ 22)
    (column : x < 2 ^ z) (row : y < 2 ^ z)
    (cap : (tileFeatures poiWorld cleanDetails z x y located).length ≤ maxTilePOIs) :
    poiFeatures poiWorld cleanDetails unmarshal zlib p scratch z x y =
      .ok (tileFeatures poiWorld cleanDetails z x y located) := by
  have valid : ¬((z : ℤ) < 0 ∨ 22 < (z : ℤ) ∨ (x : ℤ) < 0 ∨ (y : ℤ) < 0 ∨
      2 ^ (z : ℤ).toNat ≤ (x : ℤ) ∨ 2 ^ (z : ℤ).toNat ≤ (y : ℤ)) := by
    rw [Int.toNat_natCast]
    have column' : (x : ℤ) < 2 ^ z := by exact_mod_cast column
    have row' : (y : ℤ) < 2 ^ z := by exact_mod_cast row
    omega
  rw [poiFeatures, if_neg valid]
  simp only [Int.toNat_natCast]
  generalize isCell : poiCell (if poiIndexZoom < z then x >>> (z - poiIndexZoom) else x)
    (if poiIndexZoom < z then y >>> (z - poiIndexZoom) else y)
    (if poiIndexZoom < z then poiIndexZoom else z) = cell
  generalize isShift : poiShift (if poiIndexZoom < z then poiIndexZoom else z) = shift
  obtain ⟨i, before, rest, run, standing, split, less⟩ :=
    postingsFrom_spec indexes (firstKey cell shift) sized
  rw [run]
  dsimp only
  have keys : ∀ l ∈ located, pixelInTile poiWorld z x y l.record ≠ none →
      firstKey cell shift ≤ poiKey (recordCell poiWorld l.record) ∧
        poiKey (recordCell poiWorld l.record) ≤ lastKey cell shift := by
    intro l member inside
    obtain ⟨pixel, here⟩ := Option.ne_none_iff_exists'.mp inside
    exact key_of_pixel (inMap l member) here isCell.symm isShift.symm
  -- The postings that the seek passed over belong to no POI of the tile.
  obtain ⟨early, late, rfl, isBefore, isRest⟩ := List.map_eq_append_iff.mp (all.trans split)
  have none : tileFeatures poiWorld cleanDetails z x y early = [] := by
    refine List.filterMap_eq_nil_iff.mpr fun l member => ?_
    rw [featureIn, Option.map_eq_none_iff]
    by_contra inside
    have key := (keys l (List.mem_append_left _ member) inside).1
    have passed := less (poiPosting poiWorld l) (isBefore ▸ List.mem_map_of_mem member)
    exact absurd key passed.not_ge
  have whole : tileFeatures poiWorld cleanDetails z x y (early ++ late) =
      tileFeatures poiWorld cleanDetails z x y late := by
    rw [tileFeatures, List.filterMap_append]
    exact congrArg (· ++ _) none
  have later : ∀ {P : Located D → Prop}, (∀ l ∈ early ++ late, P l) → ∀ l ∈ late, P l :=
    fun each l member => each l (List.mem_append_right _ member)
  rw [List.map_append] at distinct
  have sorted := indexes.indexable.sorted
  rw [split] at sorted
  have count : late.length < p.count + 1 := by
    rw [indexes.count, split, ← isRest, List.length_append, List.length_map]
    omega
  rw [collectTile_spec indexes (later keys) count (isRest.symm ▸ standing)
    (ready_new delivers sized) (later stands) (isRest.symm ▸ (List.pairwise_append.mp sorted).2.1)
    (List.nodup_append.mp distinct).2.1 (fun _ _ => List.not_mem_nil)
    (by rw [List.length_nil, Nat.zero_add, ← whole]; exact cap), List.nil_append, whole]

omit [IsStrictOrderedRing K] in
/-- Outside the tiles of a zoom there is nothing. -/
theorem poiFeatures_outside {p : SearchReader} {scratch : SearchScratch} {z : ℕ} {x y : ℤ}
    (outside : x < 0 ∨ y < 0 ∨ 2 ^ z ≤ x ∨ 2 ^ z ≤ y) :
    poiFeatures poiWorld cleanDetails unmarshal zlib p scratch z x y = .ok [] := by
  rw [poiFeatures, if_pos]
  rw [Int.toNat_natCast]
  tauto

/-- **Every POI lies in one tile.** The index of a catalog of POIs with different kinds or
numbers is built and opened. At every zoom where no tile holds more POIs than it may, the
tile that contains the projection of a POI has one feature for it, at a pixel inside the
extent, and no other tile has one. -/
theorem poi_in_one_tile (catalog : Catalog unmarshal stream records)
    (distinct : (records.map fun record => (record.kind, record.id)).Nodup)
    (inMap : ∀ record ∈ records, InMap (poiWorld record))
    (digest : ∀ bytes, (sha256 bytes).length = digestBytes) (small : stream.length < 2 ^ 63)
    {source : SearchReader} (delivers : Delivers zlib stream source) {sourceHash : List Char}
    {hash : List UInt8} (hashed : sourceDigest sourceHash = some hash) :
    ∃ file, buildPOIIndex poiWorld unmarshal sha256 stream sourceHash = .ok file ∧
      (file.length < 2 ^ 63 → ∃ p, readPOIIndex sha256 file source sourceHash = .ok p ∧
        ∀ scratch : SearchScratch, scratch.Sized → ∀ z ≤ 22,
          (∀ x y, (records.filter fun record =>
            tileOf z (poiWorld record).1 = x ∧ tileOf z (poiWorld record).2 = y).length ≤
              maxTilePOIs) →
          ∀ record ∈ records, ∃ pixel : ℤ × ℤ,
            ((0 ≤ pixel.1 ∧ pixel.1 < 4096) ∧ 0 ≤ pixel.2 ∧ pixel.2 < 4096) ∧
            ∀ x y : ℤ, ∃ features,
              poiFeatures poiWorld cleanDetails unmarshal zlib p scratch z x y = .ok features ∧
              features.filter (·.sourceIdentity = poiIdentity record) =
                if x = tileOf z (poiWorld record).1 ∧ y = tileOf z (poiWorld record).2 then
                  [poiFeature cleanDetails record pixel]
                else []) := by
  obtain ⟨found, scanned, all⟩ := catalog.scan
  obtain ⟨stands, -⟩ := scanPOIRecords_spec scanned
  obtain ⟨file, postings, built, perm, -, opens⟩ :=
    @buildPOIIndex_spec _ _ _ _ _ poiWorld _ zlib _ _ digest _ scanned small _ delivers _ _ hashed
  refine ⟨file, built, fun bounded => ?_⟩
  obtain ⟨p, opened, indexes, delivers'⟩ := opens bounded
  refine ⟨p, opened, fun scratch sized z zoom cap record member => ?_⟩
  -- The postings are those of the found POIs in some order.
  obtain ⟨located, isMap, same⟩ := exists_map_of_perm perm
  have stands' : ∀ l ∈ located, Stands unmarshal stream l :=
    fun l inside => stands l (same.subset inside)
  have recorded : (located.map (·.record)).Perm records := all ▸ same.map _
  have inMap' : ∀ l ∈ located, InMap (poiWorld l.record) :=
    fun l inside => inMap _ (recorded.subset (List.mem_map_of_mem inside))
  have identities : (located.map fun l => poiIdentity l.record).Nodup := by
    have apart : (located.map fun l => (l.record.kind, l.record.id)).Nodup := by
      have names := (recorded.map fun record => (record.kind, record.id)).nodup_iff.mpr distinct
      rwa [List.map_map] at names
    refine List.Nodup.map_on (fun a inA b inB equal => ?_) apart.of_map
    obtain ⟨kind, id⟩ := poiIdentity_inj (stands' a inA).valid (stands' b inB).valid equal
    exact List.inj_on_of_nodup_map apart inA inB (Prod.ext kind id)
  obtain ⟨l, inside, rfl⟩ := List.mem_map.mp (recorded.symm.subset member)
  obtain ⟨pixel, here⟩ := Option.ne_none_iff_exists'.mp fun none =>
    (pixelInTile_eq_none_iff (z := z) (inMap' l inside)).mp none ⟨rfl, rfl⟩
  refine ⟨pixel, pixelInTile_bounds here, fun x y => ?_⟩
  by_cases outside : x < 0 ∨ y < 0 ∨ 2 ^ z ≤ x ∨ 2 ^ z ≤ y
  · refine ⟨[], poiFeatures_outside outside, ?_⟩
    have column : (tileOf z (poiWorld l.record).1 : ℤ) < 2 ^ z := by
      exact_mod_cast tileOf_lt (z := z) (inMap' l inside).1
    have row : (tileOf z (poiWorld l.record).2 : ℤ) < 2 ^ z := by
      exact_mod_cast tileOf_lt (z := z) (inMap' l inside).2
    rw [if_neg (by omega)]
    rfl
  · simp only [not_or, not_lt, not_le] at outside
    obtain ⟨column, row, east, south⟩ := outside
    lift x to ℕ using column
    lift y to ℕ using row
    have room : (tileFeatures poiWorld cleanDetails z x y located).length ≤ maxTilePOIs := by
      rw [tileFeatures_length inMap', (recorded.filter _).length_eq]
      exact cap x y
    refine ⟨_, poiFeatures_spec indexes delivers' isMap stands' inMap' identities sized zoom
      (by exact_mod_cast east) (by exact_mod_cast south) room, ?_⟩
    rw [tileFeatures_filter, filter_key_eq identities inside]
    by_cases tile : tileOf z (poiWorld l.record).1 = x ∧ tileOf z (poiWorld l.record).2 = y
    · obtain ⟨rfl, rfl⟩ := tile
      rw [if_pos ⟨rfl, rfl⟩, tileFeatures_take here]
      rfl
    · rw [if_neg (by omega), tileFeatures_skip ((pixelInTile_eq_none_iff (inMap' l inside)).mpr tile)]
      rfl

end Catalog

/-- A bakery where the equator meets the first meridian, and its line in a catalog. -/
def bakery : SearchResult Unit where
  id := 7
  kind := "node".toList
  label := "Mill".toList
  coordinate := ⟨F64.ofFields false 0, F64.ofFields false 0⟩
  category := "bakery".toList
  place := []
  details := none

def bakeryLine : List UInt8 :=
  [123, 34, 105, 100, 34, 58, 55, 44, 34, 107, 105, 110, 100, 34, 58, 34, 110, 111, 100, 101,
    34, 44, 34, 108, 97, 98, 101, 108, 34, 58, 34, 77, 105, 108, 108, 34, 44, 34, 99, 111,
    111, 114, 100, 105, 110, 97, 116, 101, 34, 58, 123, 34, 108, 97, 116, 34, 58, 48, 44, 34,
    108, 111, 110, 34, 58, 48, 125, 44, 34, 99, 97, 116, 101, 103, 111, 114, 121, 34, 58, 34,
    98, 97, 107, 101, 114, 121, 34, 125, 10]

/-- The digest of the bakery's catalog, and that of its index. -/
def bakeryHash : List Char :=
  "4a05b0a24a8c73e584da8131b9b917ad4d5029d7e79776a50fbf53c834d97c07".toList

def bakeryIndexDigest : List UInt8 :=
  [179, 41, 115, 136, 53, 14, 120, 239, 178, 179, 225, 58, 234, 110, 225, 123, 51, 49, 119,
    248, 175, 29, 110, 66, 249, 120, 3, 44, 50, 101, 88, 140]

def bakeryReader : SearchReader := ⟨bakeryLine, [], 0, 89, false, 0, 0, false, 0, 0⟩

/-- The bakery lies in the middle of the map. -/
def middle (_ : SearchResult Unit) : ℚ × ℚ := (1 / 2, 1 / 2)

def unmarshalBakery (line : List UInt8) : Except String (SearchResult Unit) :=
  if line = bakeryLine then .ok bakery else .error "unexpected end of JSON input"

/-- At the first zoom the tile to the right below shows the bakery, and no other. -/
theorem poi_in_one_tile_bakery :
    ∃ file p, buildPOIIndex middle unmarshalBakery (fun _ => bakeryIndexDigest) bakeryLine
        bakeryHash = .ok file ∧
      readPOIIndex (fun _ => bakeryIndexDigest) file bakeryReader bakeryHash = .ok p ∧
      ∀ scratch : SearchScratch, scratch.Sized → ∃ pixel, ∀ x y : ℤ, ∃ features,
        poiFeatures middle id unmarshalBakery storingZlib p scratch 1 x y = .ok features ∧
        features.filter (·.sourceIdentity = "node/7".toList) =
          if x = 1 ∧ y = 1 then [poiFeature id bakery pixel] else [] := by
  have catalog : Catalog unmarshalBakery bakeryLine [bakery] := by
    have single : linesOf bakeryLine = [bakeryLine] := by decide +kernel
    have marked : categoryMark <:+: bakeryLine := by decide +kernel
    refine ⟨?_, fun record member => ?_⟩
    · rw [single]
      exact .cons ⟨by decide +kernel, marked, if_pos rfl⟩ .nil
    · rw [List.mem_singleton.mp member]
      decide +kernel
  obtain ⟨hash, hashed⟩ : ∃ hash, sourceDigest bakeryHash = some hash :=
    Option.isSome_iff_exists.mp (by decide +kernel)
  obtain ⟨file, built, opens⟩ := @poi_in_one_tile Unit ℚ _ _ _ _ middle id unmarshalBakery
    storingZlib (fun _ => bakeryIndexDigest) bakeryLine [bakery] catalog (by decide)
    (fun _ _ => by unfold InMap middle; norm_num) (fun _ => rfl) (by decide +kernel) bakeryReader
    (.inr ⟨rfl, rfl, rfl⟩) bakeryHash hash hashed
  have bounded : file.length < 2 ^ 63 := by
    have short : (buildPOIIndex middle unmarshalBakery (fun _ => bakeryIndexDigest) bakeryLine
        bakeryHash).toOption.all (·.length < 2 ^ 63) = true := by
      decide +kernel
    rw [built] at short
    exact of_decide_eq_true short
  obtain ⟨p, opened, tiles⟩ := opens bounded
  refine ⟨file, p, built, opened, fun scratch sized => ?_⟩
  obtain ⟨pixel, -, shown⟩ := tiles scratch sized 1 (by decide)
    (fun x y => (List.length_filter_le ..).trans (by decide)) bakery (List.mem_singleton_self _)
  have column : tileOf 1 (middle bakery).1 = 1 := by decide +kernel
  have row : tileOf 1 (middle bakery).2 = 1 := by decide +kernel
  have identity : poiIdentity bakery = "node/7".toList := by decide +kernel
  refine ⟨pixel, fun x y => ?_⟩
  obtain ⟨features, run, once⟩ := shown x y
  rw [column, row, identity] at once
  exact ⟨features, run, once⟩

end OsmMini.Mobile

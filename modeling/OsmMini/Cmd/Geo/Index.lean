import OsmMini.Core.Snap.Radius
import OsmMini.Foundations.Buckets
import OsmMini.Foundations.Rectangles

/-!
# The places of a map

The index of places holds the tagged nodes and the centres of the tagged ways, filed under the
cells of a grid. A window is visited in one of two ways: a broad one by a scan of all entries,
and a small one cell by cell. Both give the entries in the window, each once
(`PoiGeoIndex.visit_perm`).

Numbers are real and texts are compared as Unicode texts. The maps of nodes and ways are lists
of entries in any order, as a Go map is read in any order.
-/

set_option autoImplicit false

namespace OsmMini.Cmd.Geo

open OsmMini.Core OsmMini.Foundations

/-- The width of a cell, in degrees. -/
noncomputable def poiGeoCellSize : ℝ := 0.05

section Index

variable {T : Type}

/-- A place. `T` is the type of its tags. -/
structure GeoPOI (T : Type) where
  id : Int64
  kind : String
  coord : Coord ℝ
  tags : T

structure Node (T : Type) where
  id : Int64
  lat : ℝ
  lon : ℝ
  tags : T

structure Way (T : Type) where
  id : Int64
  nodeIDs : List Int64
  tags : T

structure PoiGeoIndex (T : Type) where
  entries : List (GeoPOI T)
  cells : GoMap (ℤ × ℤ) (List ℕ)

noncomputable def geoCell (c : Coord ℝ) : ℤ × ℤ :=
  (⌊c.lon / poiGeoCellSize⌋, ⌊c.lat / poiGeoCellSize⌋)

def validGeoPoint (c : Coord ℝ) : Prop :=
  -90 ≤ c.lat ∧ c.lat ≤ 90 ∧ -180 ≤ c.lon ∧ c.lon ≤ 180

/-- A window holds a coordinate, its border included. -/
def InWindow (w : CoordWindow ℝ) (c : Coord ℝ) : Prop :=
  w.minLat ≤ c.lat ∧ c.lat ≤ w.maxLat ∧ w.minLon ≤ c.lon ∧ c.lon ≤ w.maxLon

/-! ## Building the index -/

namespace PoiGeoIndex

open Classical in
/-- File a place under its cell, unless it lies outside the map. -/
noncomputable def add (index : PoiGeoIndex T) (p : GeoPOI T) : PoiGeoIndex T :=
  if validGeoPoint p.coord then
    { entries := index.entries ++ [p]
      cells := push index.cells (geoCell p.coord) index.entries.length }
  else index

end PoiGeoIndex

/-- The mean of the nodes of a way that are known. -/
noncomputable def wayCenter (nodes : GoMap Int64 (Coord ℝ)) (way : Way T) : Option (Coord ℝ) :=
  let known := way.nodeIDs.filterMap nodes.lookup
  if known.length = 0 then none
  else some ⟨(known.map Coord.lat).sum / known.length, (known.map Coord.lon).sum / known.length⟩

/-- The places in the order in which they are added. -/
noncomputable def geoPOIs (nodes : GoMap Int64 (Coord ℝ)) (tagged : GoMap Int64 (Node T))
    (ways : GoMap Int64 (Way T)) : List (GeoPOI T) :=
  (tagged.entries.map fun n => ⟨n.2.id, "node", ⟨n.2.lat, n.2.lon⟩, n.2.tags⟩) ++
    ways.entries.filterMap fun w => (wayCenter nodes w.2).map fun c =>
      ⟨w.2.id, "poi", c, w.2.tags⟩

noncomputable def buildPOIGeoIndex (nodes : GoMap Int64 (Coord ℝ))
    (tagged : GoMap Int64 (Node T)) (ways : GoMap Int64 (Way T)) : PoiGeoIndex T :=
  (geoPOIs nodes tagged ways).foldl PoiGeoIndex.add ⟨[], ∅⟩

/-! ## Visiting a window -/

namespace PoiGeoIndex

open Classical in
/-- The entries of a window in the order in which they are visited. -/
noncomputable def visit (index : PoiGeoIndex T) (box : CoordWindow ℝ) : List (GeoPOI T) :=
  let lo := geoCell ⟨box.minLat, box.minLon⟩
  let hi := geoCell ⟨box.maxLat, box.maxLon⟩
  let count := (hi.1 - lo.1 + 1) * (hi.2 - lo.2 + 1)
  if index.cells.keys.length * 2 < count then index.entries.filter fun p => InWindow box p.coord
  else (Int.range lo.1 (hi.1 + 1)).flatMap fun x => (Int.range lo.2 (hi.2 + 1)).flatMap fun y =>
    ((bucket index.cells (x, y)).filterMap fun i => index.entries[i]?).filter
      fun p => InWindow box p.coord

/-- What building an index establishes: the entries lie on the map, no two of them have the
same kind and number, and every cell holds the places of its entries. -/
structure Sound (index : PoiGeoIndex T) : Prop where
  valid : ∀ p ∈ index.entries, validGeoPoint p.coord
  distinct : index.entries.Pairwise fun a b => (a.kind, a.id) ≠ (b.kind, b.id)
  cells : ∀ k, bucket index.cells k =
    (index.entries.zipIdx.filter fun e => geoCell e.1.coord = k).map Prod.snd

theorem Sound.add {index : PoiGeoIndex T} (sound : index.Sound) {p : GeoPOI T}
    (fresh : ∀ a ∈ index.entries, (a.kind, a.id) ≠ (p.kind, p.id)) : (index.add p).Sound := by
  rw [PoiGeoIndex.add]
  by_cases inside : validGeoPoint p.coord
  · rw [if_pos inside]
    refine ⟨?_, ?_, fun k => ?_⟩
    · intro a member
      rcases List.mem_append.mp member with old | new
      · exact sound.valid a old
      · rw [List.mem_singleton.mp new]
        exact inside
    · refine List.pairwise_append.mpr ⟨sound.distinct, List.pairwise_singleton _ _, ?_⟩
      intro a old b new
      rw [List.mem_singleton.mp new]
      exact fresh a old
    · dsimp only
      rw [bucket_push, List.zipIdx_append, List.filter_append, List.map_append, sound.cells k]
      by_cases here : k = geoCell p.coord
      · rw [if_pos here]
        simp [here]
      · rw [if_neg here]
        simp [Ne.symm here]
  · rw [if_neg inside]
    exact sound

theorem mem_entries_add {index : PoiGeoIndex T} {p a : GeoPOI T}
    (member : a ∈ (index.add p).entries) : a ∈ index.entries ∨ a = p := by
  rw [PoiGeoIndex.add] at member
  by_cases inside : validGeoPoint p.coord
  · rw [if_pos inside] at member
    exact (List.mem_append.mp member).imp_right List.mem_singleton.mp
  · rw [if_neg inside] at member
    exact Or.inl member

theorem Sound.foldl_add {index : PoiGeoIndex T} (sound : index.Sound) {places : List (GeoPOI T)}
    (distinct : places.Pairwise fun a b => (a.kind, a.id) ≠ (b.kind, b.id))
    (fresh : ∀ a ∈ index.entries, ∀ p ∈ places, (a.kind, a.id) ≠ (p.kind, p.id)) :
    (places.foldl PoiGeoIndex.add index).Sound := by
  induction places generalizing index with
  | nil => exact sound
  | cons p places ih =>
      obtain ⟨first, rest⟩ := List.pairwise_cons.mp distinct
      rw [List.foldl_cons]
      refine ih (sound.add fun a old => fresh a old p List.mem_cons_self) rest ?_
      intro a member b later
      rcases mem_entries_add member with old | rfl
      · exact fresh a old b (List.mem_cons_of_mem _ later)
      · exact first b later

end PoiGeoIndex

/-- Every element of a map is stored under its own number. -/
def KeyedByID {α : Type} (id : α → Int64) (m : GoMap Int64 α) : Prop :=
  ∀ e ∈ m.entries, id e.2 = e.1

theorem KeyedByID.distinct {α : Type} {id : α → Int64} {m : GoMap Int64 α}
    (keyed : KeyedByID id m) : m.entries.Pairwise fun a b => id a.2 ≠ id b.2 := by
  have keys : m.entries.Pairwise fun a b => a.1 ≠ b.1 := List.pairwise_map.mp m.nodupKeys
  refine keys.imp_of_mem fun {a b} inA inB differ => ?_
  rw [keyed a inA, keyed b inB]
  exact differ

theorem geoPOIs_distinct {nodes : GoMap Int64 (Coord ℝ)} {tagged : GoMap Int64 (Node T)}
    {ways : GoMap Int64 (Way T)} (nodeKeys : KeyedByID Node.id tagged)
    (wayKeys : KeyedByID Way.id ways) :
    (geoPOIs nodes tagged ways).Pairwise fun a b => (a.kind, a.id) ≠ (b.kind, b.id) := by
  refine List.pairwise_append.mpr ⟨?_, ?_, ?_⟩
  · rw [List.pairwise_map]
    exact nodeKeys.distinct.imp fun differ same => differ (Prod.mk.inj same).2
  · rw [List.pairwise_filterMap]
    refine wayKeys.distinct.imp fun differ a inA b inB same => ?_
    obtain ⟨_, -, rfl⟩ := Option.map_eq_some_iff.mp inA
    obtain ⟨_, -, rfl⟩ := Option.map_eq_some_iff.mp inB
    exact differ (Prod.mk.inj same).2
  · intro a inA b inB same
    obtain ⟨_, -, rfl⟩ := List.mem_map.mp inA
    obtain ⟨w, -, found⟩ := List.mem_filterMap.mp inB
    obtain ⟨_, -, rfl⟩ := Option.map_eq_some_iff.mp found
    have kinds : "node" ≠ "poi" := by decide
    exact kinds (Prod.mk.inj same).1

/-- **Building the index files every place once.** -/
theorem buildPOIGeoIndex_sound {nodes : GoMap Int64 (Coord ℝ)} {tagged : GoMap Int64 (Node T)}
    {ways : GoMap Int64 (Way T)} (nodeKeys : KeyedByID Node.id tagged)
    (wayKeys : KeyedByID Way.id ways) : (buildPOIGeoIndex nodes tagged ways).Sound := by
  have empty : (⟨[], ∅⟩ : PoiGeoIndex T).Sound :=
    ⟨fun p none => absurd none List.not_mem_nil, List.Pairwise.nil, fun k => bucket_empty k⟩
  exact empty.foldl_add (geoPOIs_distinct nodeKeys wayKeys)
    fun a none => absurd none List.not_mem_nil

/-! ## What is visited -/

theorem geoCell_mono {a b : ℝ} (le : a ≤ b) : ⌊a / poiGeoCellSize⌋ ≤ ⌊b / poiGeoCellSize⌋ := by
  have positive : 0 < poiGeoCellSize := by
    rw [poiGeoCellSize]
    norm_num
  exact Int.floor_le_floor (div_le_div_of_nonneg_right le positive.le)

namespace PoiGeoIndex

theorem Sound.cell_entries {index : PoiGeoIndex T} (sound : index.Sound) (k : ℤ × ℤ) :
    (bucket index.cells k).filterMap (fun i => index.entries[i]?) =
      index.entries.filter fun p => geoCell p.coord = k := by
  have found : ∀ e ∈ index.entries.zipIdx.filter (fun e => geoCell e.1.coord = k),
      index.entries[e.2]? = some e.1 := fun e member =>
    List.mem_zipIdx_iff_getElem?.mp (List.mem_of_mem_filter member)
  have values : index.entries.filter (fun p => geoCell p.coord = k) =
      (index.entries.zipIdx.filter fun e => geoCell e.1.coord = k).map Prod.fst := by
    conv_lhs => rw [← List.zipIdx_map_fst 0 index.entries]
    rw [List.filter_map]
    rfl
  rw [sound.cells k, List.filterMap_map, values, ← List.filterMap_eq_map]
  exact List.filterMap_congr fun e member => found e member

open Classical in
/-- **Either way of visiting a window gives its entries, each once.** -/
theorem Sound.visit_perm {index : PoiGeoIndex T} (sound : index.Sound) (box : CoordWindow ℝ) :
    (index.visit box).Perm (index.entries.filter fun p => InWindow box p.coord) := by
  rw [visit]
  generalize lower : geoCell ⟨box.minLat, box.minLon⟩ = lo
  generalize upper : geoCell ⟨box.maxLat, box.maxLon⟩ = hi
  split
  · exact List.Perm.refl _
  · have byCells : ((Int.range lo.1 (hi.1 + 1)).flatMap fun x =>
        (Int.range lo.2 (hi.2 + 1)).flatMap fun y =>
          ((bucket index.cells (x, y)).filterMap fun i => index.entries[i]?).filter
            fun p => InWindow box p.coord) =
        ((rectangle lo hi).flatMap fun k =>
          index.entries.filter fun p => geoCell p.coord = k).filter
            fun p => InWindow box p.coord := by
      rw [rectangle, List.filter_flatMap, List.flatMap_assoc]
      congr 1
      funext x
      rw [List.flatMap_map]
      congr 1
      funext y
      rw [sound.cell_entries]
    rw [byCells]
    refine ((Snap.flatMap_filter_perm (fun p : GeoPOI T => geoCell p.coord) index.entries
      (nodup_rectangle lo hi)).filter _).trans (List.Perm.of_eq ?_)
    rw [List.filter_filter]
    refine List.filter_congr fun p member => ?_
    refine Bool.eq_iff_iff.mpr ?_
    simp only [Bool.and_eq_true, decide_eq_true_eq]
    refine ⟨And.left, fun inside => ⟨inside, mem_rectangle.mpr ?_⟩⟩
    obtain ⟨south, north, west, east⟩ := inside
    rw [← lower, ← upper]
    exact ⟨⟨geoCell_mono west, geoCell_mono east⟩, geoCell_mono south, geoCell_mono north⟩

end PoiGeoIndex

end Index

end OsmMini.Cmd.Geo

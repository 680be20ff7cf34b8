import OsmMini.Core.Territory.Neighbors

/-!
# Adjacent areas and their boxes

A list of neighbours is right when the boxes of adjacent areas overlap. Metres are turned into
degrees of longitude by the cosine at the centre of a box in the test of the boxes, and by the
cosine at the vertex in the test of the rings.

Latitudes never separate the boxes of adjacent areas, and longitudes do not as long as all
vertices are within sixty degrees of the equator (`longitudesMeet_of_temperate`). Of two areas
that reach from the equator far to the north, the boxes are widened too little for their
northern ends. The lists are right exactly when no adjacent pair is further apart in longitude
than both boxes are widened (`listsNeighbors_iff`).
-/

set_option autoImplicit false

namespace OsmMini.Core

open Foundations Snap

variable {Properties : Type}

/-! ## Points and their boxes -/

/-- A point within a box. -/
structure CoordWindow.Around (w : CoordWindow ℝ) (c : Coord ℝ) : Prop where
  south : w.minLat ≤ c.lat
  north : c.lat ≤ w.maxLat
  west : w.minLon ≤ c.lon
  east : c.lon ≤ w.maxLon

/-- A box on the Earth. -/
structure CoordWindow.OnEarth (w : CoordWindow ℝ) : Prop where
  south : -90 ≤ w.minLat
  parallels : w.minLat ≤ w.maxLat
  north : w.maxLat ≤ 90
  west : -180 ≤ w.minLon
  meridians : w.minLon ≤ w.maxLon
  east : w.maxLon ≤ 180

theorem growBox_some (w : CoordWindow ℝ) (c : Coord ℝ) :
    growBox (some w) c = some ⟨min c.lat w.minLat, max w.maxLat c.lat,
      min c.lon w.minLon, max w.maxLon c.lon⟩ := by
  simp only [growBox, min_def_lt, max_def_lt]

theorem foldl_growBox_around {points : List (Coord ℝ)} {start w : CoordWindow ℝ}
    (folded : points.foldl growBox (some start) = some w) :
    (∀ c, start.Around c → w.Around c) ∧ ∀ c ∈ points, w.Around c := by
  induction points generalizing start with
  | nil =>
      obtain rfl := Option.some.inj folded
      exact ⟨fun c inside => inside, by simp⟩
  | cons point points ih =>
      rw [List.foldl_cons, growBox_some] at folded
      obtain ⟨kept, inside⟩ := ih folded
      refine ⟨fun c around => kept c ?_, List.forall_mem_cons.mpr ⟨kept point ?_, inside⟩⟩
      · exact ⟨(min_le_right _ _).trans around.south, around.north.trans (le_max_left _ _),
          (min_le_right _ _).trans around.west, around.east.trans (le_max_left _ _)⟩
      · exact ⟨min_le_left _ _, le_max_right _ _, min_le_left _ _, le_max_right _ _⟩

theorem foldl_growBox_onEarth {points : List (Coord ℝ)} {start w : CoordWindow ℝ}
    (valid : ∀ c ∈ points, ValidCoord c.lat c.lon) (earth : start.OnEarth)
    (folded : points.foldl growBox (some start) = some w) : w.OnEarth := by
  induction points generalizing start with
  | nil =>
      obtain rfl := Option.some.inj folded
      exact earth
  | cons point points ih =>
      rw [List.foldl_cons, growBox_some] at folded
      obtain ⟨here, valid⟩ := List.forall_mem_cons.mp valid
      obtain ⟨south, north⟩ := abs_le.mp here.1
      obtain ⟨west, east⟩ := abs_le.mp here.2
      refine ih valid ?_ folded
      exact {
        south := le_min south earth.south
        parallels := (min_le_left _ _).trans (le_max_right _ _)
        north := max_le earth.north north
        west := le_min west earth.west
        meridians := (min_le_left _ _).trans (le_max_right _ _)
        east := max_le earth.east east }

/-- A vertex of an outer ring. -/
def Territory.HasVertex (t : Territory ℝ Properties) (c : Coord ℝ) : Prop :=
  ∃ poly ∈ t.geometry.polygons, c ∈ poly.outer

/-- Latitudes and longitudes are in range. -/
def Territory.OnEarth (t : Territory ℝ Properties) : Prop :=
  ∀ c, t.HasVertex c → ValidCoord c.lat c.lon

theorem hasVertex_iff (t : Territory ℝ Properties) (c : Coord ℝ) :
    t.HasVertex c ↔ c ∈ t.geometry.polygons.flatMap Polygon.outer := by
  rw [List.mem_flatMap]
  rfl

/-- An area with a vertex has a box around all its vertices. -/
theorem bbox_of_hasVertex {t : Territory ℝ Properties} {v : Coord ℝ} (vertex : t.HasVertex v)
    (valid : t.OnEarth) :
    ∃ w, t.geometry.bbox = some w ∧ w.OnEarth ∧ ∀ c, t.HasVertex c → w.Around c := by
  rw [hasVertex_iff] at vertex
  have inRange : ∀ c ∈ t.geometry.polygons.flatMap Polygon.outer, ValidCoord c.lat c.lon :=
    fun c member => valid c ((hasVertex_iff t c).mpr member)
  cases points : t.geometry.polygons.flatMap Polygon.outer with
  | nil =>
      rw [points] at vertex
      cases vertex
  | cons first rest =>
      rw [points] at inRange
      obtain ⟨here, inRange⟩ := List.forall_mem_cons.mp inRange
      obtain ⟨south, north⟩ := abs_le.mp here.1
      obtain ⟨west, east⟩ := abs_le.mp here.2
      obtain ⟨w, folded⟩ := foldl_growBox_some
        (⟨first.lat, first.lat, first.lon, first.lon⟩ : CoordWindow ℝ) rest
      have box : t.geometry.bbox = some w := by
        rw [Geometry.bbox, points, List.foldl_cons]
        exact folded
      have earth : w.OnEarth := foldl_growBox_onEarth inRange
        ⟨south, le_refl _, north, west, le_refl _, east⟩ folded
      obtain ⟨kept, inside⟩ := foldl_growBox_around folded
      refine ⟨w, box, earth, fun c vertex => ?_⟩
      rw [hasVertex_iff, points] at vertex
      rcases List.mem_cons.mp vertex with rfl | later
      · exact kept c ⟨le_refl _, le_refl _, le_refl _, le_refl _⟩
      · exact inside c later

/-! ## The widened boxes -/

theorem latDegrees_pos : 0 < latDegrees neighborBufferMeters := by
  unfold latDegrees neighborBufferMeters
  norm_num

/-- A distance spans at least as many degrees of longitude as of latitude. -/
theorem latDegrees_le_lonDegrees (w : CoordWindow ℝ) :
    latDegrees neighborBufferMeters ≤ w.lonDegrees neighborBufferMeters := by
  unfold CoordWindow.lonDegrees
  dsimp only
  split_ifs with wide
  · rw [latDegrees]
    apply div_le_div_of_nonneg_left
    · unfold neighborBufferMeters
      norm_num
    · linarith
    · have cosine := Real.cos_le_one (deg2rad w.center.lat)
      linarith
  · exact le_refl _

/-- Cutting the sides of two ranges at the ends of the scale does not change whether they
overlap. -/
theorem max_sub_le_min_add {x y d e bound : ℝ} (scale : 0 ≤ bound) (high : x ≤ bound)
    (low : -bound ≤ y) (widened : 0 ≤ d) (widened' : 0 ≤ e) :
    max (x - d) (-bound) ≤ min (y + e) bound ↔ x - y ≤ d + e := by
  rw [max_le_iff, le_min_iff, le_min_iff]
  constructor
  · rintro ⟨⟨meet, -⟩, -⟩
    linarith
  · intro meet
    exact ⟨⟨by linarith, by linarith⟩, by linarith, by linarith⟩

/-- The boxes of two areas are no further apart in longitude than both are widened. -/
def LongitudesMeet (a b : Territory ℝ Properties) : Prop :=
  ∀ wa wb, a.geometry.bbox = some wa → b.geometry.bbox = some wb →
    wa.minLon - wb.maxLon ≤
        wa.lonDegrees neighborBufferMeters + wb.lonDegrees neighborBufferMeters ∧
      wb.minLon - wa.maxLon ≤
        wb.lonDegrees neighborBufferMeters + wa.lonDegrees neighborBufferMeters

/-- Widened boxes overlap when they are close enough in both directions. -/
theorem bboxesOverlap_expand {wa wb : CoordWindow ℝ} (earth : wa.OnEarth) (earth' : wb.OnEarth) :
    bboxesOverlap (wa.expandMeters neighborBufferMeters)
        (wb.expandMeters neighborBufferMeters) = true ↔
      (wa.minLat - wb.maxLat ≤ latDegrees neighborBufferMeters + latDegrees neighborBufferMeters ∧
        wb.minLat - wa.maxLat ≤
          latDegrees neighborBufferMeters + latDegrees neighborBufferMeters) ∧
      wa.minLon - wb.maxLon ≤
        wa.lonDegrees neighborBufferMeters + wb.lonDegrees neighborBufferMeters ∧
      wb.minLon - wa.maxLon ≤
        wb.lonDegrees neighborBufferMeters + wa.lonDegrees neighborBufferMeters := by
  have positive : ¬ neighborBufferMeters ≤ 0 := by
    unfold neighborBufferMeters
    norm_num
  have lat := latDegrees_pos.le
  have lon := lat.trans (latDegrees_le_lonDegrees wa)
  have lon' := lat.trans (latDegrees_le_lonDegrees wb)
  rw [bboxesOverlap, CoordWindow.expandMeters, CoordWindow.expandMeters, if_neg positive,
    if_neg positive]
  simp only [Bool.and_eq_true, decide_eq_true_eq, and_assoc]
  rw [max_sub_le_min_add (by norm_num) (earth.parallels.trans earth.north)
      (earth'.south.trans earth'.parallels) lat lat,
    max_sub_le_min_add (by norm_num) (earth'.parallels.trans earth'.north)
      (earth.south.trans earth.parallels) lat lat,
    max_sub_le_min_add (by norm_num) (earth.meridians.trans earth.east)
      (earth'.west.trans earth'.meridians) lon lon',
    max_sub_le_min_add (by norm_num) (earth'.meridians.trans earth'.east)
      (earth.west.trans earth.meridians) lon' lon]

/-! ## Adjacent areas are close -/

/-- A point near a segment is near one of its points, in both directions. -/
theorem exists_close_point {a b c : Coord ℝ} (cosine : 0 ≤ Real.cos (deg2rad c.lat))
    (near : distToSegmentMeters a b c ≤ neighborBufferMeters) :
    ∃ t, 0 ≤ t ∧ t ≤ 1 ∧
      |c.lat - (a.lat + t * (b.lat - a.lat))| ≤ latDegrees neighborBufferMeters ∧
      |c.lon - (a.lon + t * (b.lon - a.lon))| * Real.cos (deg2rad c.lat) ≤
        latDegrees neighborBufferMeters := by
  have fraction : ∀ lenSq t : ℝ,
      0 ≤ (if 1 / 1000000000 < lenSq then if t < 0 then 0 else if 1 < t then 1 else t else 0) ∧
      (if 1 / 1000000000 < lenSq then if t < 0 then 0 else if 1 < t then 1 else t else 0) ≤ 1 := by
    intro lenSq t
    split_ifs with _ low high
    · exact ⟨le_refl _, zero_le_one⟩
    · exact ⟨zero_le_one, le_refl _⟩
    · exact ⟨not_lt.mp low, not_lt.mp high⟩
    · exact ⟨le_refl _, zero_le_one⟩
  unfold distToSegmentMeters at near
  dsimp only at near
  obtain ⟨nonneg, atMost⟩ := fraction _ _
  refine ⟨_, nonneg, atMost, ?_, ?_⟩
  rotate_left
  · rw [latDegrees, le_div_iff₀ (by norm_num)]
    have across := (Real.abs_le_sqrt (le_add_of_nonneg_right (sq_nonneg _))).trans near
    refine le_trans (le_of_eq ?_) across
    rw [mul_assoc, mul_comm (Real.cos _), ← abs_of_nonneg (mul_nonneg (by norm_num) cosine :
      0 ≤ (111320 : ℝ) * Real.cos (deg2rad c.lat)), ← abs_mul]
    congr 1
    ring
  · rw [latDegrees, le_div_iff₀ (by norm_num)]
    have along := (Real.abs_le_sqrt (le_add_of_nonneg_left (sq_nonneg _))).trans near
    refine le_trans (le_of_eq ?_) along
    rw [← abs_of_pos (by norm_num : (0 : ℝ) < 111320), ← abs_mul]
    congr 1
    ring

/-- A point between two points of a box lies in the box. -/
theorem CoordWindow.Around.between {w : CoordWindow ℝ} {a b : Coord ℝ} (first : w.Around a)
    (second : w.Around b) {t : ℝ} (nonneg : 0 ≤ t) (atMost : t ≤ 1) :
    w.Around ⟨a.lat + t * (b.lat - a.lat), a.lon + t * (b.lon - a.lon)⟩ := by
  have inside : ∀ {low high x y : ℝ}, low ≤ x → x ≤ high → low ≤ y → y ≤ high →
      low ≤ x + t * (y - x) ∧ x + t * (y - x) ≤ high := by
    intro low high x y lowX highX lowY highY
    have rest : 0 ≤ 1 - t := sub_nonneg.mpr atMost
    constructor
    · have sum := add_nonneg (mul_nonneg rest (sub_nonneg.mpr lowX))
        (mul_nonneg nonneg (sub_nonneg.mpr lowY))
      linarith
    · have sum := add_nonneg (mul_nonneg rest (sub_nonneg.mpr highX))
        (mul_nonneg nonneg (sub_nonneg.mpr highY))
      linarith
  have lat := inside first.south first.north second.south second.north
  have lon := inside first.west first.east second.west second.east
  exact ⟨lat.1, lat.2, lon.1, lon.2⟩

/-- Two boxes hold points within the buffer of each other, as measured at a vertex. -/
def Close (wa wb : CoordWindow ℝ) (v : Coord ℝ) : Prop :=
  ∃ p q, wa.Around p ∧ wb.Around q ∧ |p.lat - q.lat| ≤ latDegrees neighborBufferMeters ∧
    |p.lon - q.lon| * Real.cos (deg2rad v.lat) ≤ latDegrees neighborBufferMeters

theorem Close.symm {wa wb : CoordWindow ℝ} {v : Coord ℝ} (close : Close wa wb v) :
    Close wb wa v := by
  obtain ⟨p, q, inside, inside', parallels, meridians⟩ := close
  rw [abs_sub_comm] at parallels meridians
  exact ⟨q, p, inside', inside, parallels, meridians⟩

theorem close_of_vertexNear {a b : Territory ℝ Properties} (valid : a.OnEarth)
    {pa pb : Polygon ℝ} (member : pa ∈ a.geometry.polygons) (member' : pb ∈ b.geometry.polygons)
    (near : VertexNear pa.outer pb.outer) :
    ∃ v v', a.HasVertex v ∧ b.HasVertex v' ∧
      ∀ wa wb, (∀ c, a.HasVertex c → wa.Around c) → (∀ c, b.HasVertex c → wb.Around c) →
        Close wa wb v := by
  obtain ⟨v, vertex, edge, edgeOf, near⟩ := near
  obtain ⟨start, finish⟩ := mem_of_mem_closedEdges edgeOf
  have here : a.HasVertex v := ⟨pa, member, vertex⟩
  have cosine : 0 ≤ Real.cos (deg2rad v.lat) :=
    Real.cos_nonneg_of_mem_Icc (abs_le.mp (abs_deg2rad_le (valid v here).1))
  obtain ⟨t, nonneg, atMost, parallels, meridians⟩ := exists_close_point cosine near
  refine ⟨v, edge.1, here, ⟨pb, member', start⟩, fun wa wb around around' => ?_⟩
  exact ⟨v, _, around v here, (around' edge.1 ⟨pb, member', start⟩).between
    (around' edge.2 ⟨pb, member', finish⟩) nonneg atMost, parallels, meridians⟩

/-- **Adjacent areas have boxes with close points.** -/
theorem close_of_adjacent {a b : Territory ℝ Properties} (valid : a.OnEarth) (valid' : b.OnEarth)
    (adjacent : territoriesAdjacent a b = true) :
    ∃ wa wb v, a.geometry.bbox = some wa ∧ b.geometry.bbox = some wb ∧ wa.OnEarth ∧ wb.OnEarth ∧
      (a.HasVertex v ∨ b.HasVertex v) ∧ Close wa wb v := by
  obtain ⟨pa, member, pb, member', near | near⟩ := (territoriesAdjacent_iff a b).mp adjacent
  · obtain ⟨v, v', vertex, vertex', close⟩ := close_of_vertexNear valid member member' near
    obtain ⟨wa, box, earth, around⟩ := bbox_of_hasVertex vertex valid
    obtain ⟨wb, box', earth', around'⟩ := bbox_of_hasVertex vertex' valid'
    exact ⟨wa, wb, v, box, box', earth, earth', Or.inl vertex, close wa wb around around'⟩
  · obtain ⟨v, v', vertex, vertex', close⟩ := close_of_vertexNear valid' member' member near
    obtain ⟨wb, box', earth', around'⟩ := bbox_of_hasVertex vertex valid'
    obtain ⟨wa, box, earth, around⟩ := bbox_of_hasVertex vertex' valid
    exact ⟨wa, wb, v, box, box', earth, earth', Or.inr vertex, (close wb wa around' around).symm⟩

/-- **Latitudes never separate adjacent areas**, so their boxes overlap exactly when longitudes
do not separate them. -/
theorem bufferedOverlap_iff {a b : Territory ℝ Properties} (valid : a.OnEarth)
    (valid' : b.OnEarth) (adjacent : territoriesAdjacent a b = true) :
    bufferedOverlap a b = true ↔ LongitudesMeet a b := by
  obtain ⟨wa, wb, v, box, box', earth, earth', -, p, q, inside, inside', parallels, -⟩ :=
    close_of_adjacent valid valid' adjacent
  have latitudes :
      wa.minLat - wb.maxLat ≤ latDegrees neighborBufferMeters + latDegrees neighborBufferMeters ∧
      wb.minLat - wa.maxLat ≤
        latDegrees neighborBufferMeters + latDegrees neighborBufferMeters := by
    have positive := latDegrees_pos
    obtain ⟨low, high⟩ := abs_le.mp parallels
    have bounds := And.intro inside.south inside.north
    have bounds' := And.intro inside'.south inside'.north
    constructor <;> linarith
  have overlap : bufferedOverlap a b = bboxesOverlap (wa.expandMeters neighborBufferMeters)
      (wb.expandMeters neighborBufferMeters) := by
    rw [bufferedOverlap, box, box']
  rw [overlap, bboxesOverlap_expand earth earth']
  constructor
  · rintro ⟨-, longitudes⟩ wa' wb' same same'
    obtain rfl := Option.some.inj (box.symm.trans same)
    obtain rfl := Option.some.inj (box'.symm.trans same')
    exact longitudes
  · intro longitudes
    exact ⟨latitudes, longitudes wa wb box box'⟩

/-- **Up to sixty degrees of latitude the boxes of adjacent areas overlap.** There a degree of
longitude is at least half as long as on the equator, and both boxes are widened. -/
theorem longitudesMeet_of_temperate {a b : Territory ℝ Properties} (valid : a.OnEarth)
    (valid' : b.OnEarth) (temperate : ∀ c, a.HasVertex c ∨ b.HasVertex c → |c.lat| ≤ 60)
    (adjacent : territoriesAdjacent a b = true) : LongitudesMeet a b := by
  obtain ⟨wa, wb, v, box, box', -, -, vertex, p, q, inside, inside', -, meridians⟩ :=
    close_of_adjacent valid valid' adjacent
  have half : 1 / 2 ≤ Real.cos (deg2rad v.lat) := by
    rw [← Real.cos_abs, ← Real.cos_pi_div_three]
    have pi := Real.pi_pos
    refine Real.cos_le_cos_of_nonneg_of_le_pi (abs_nonneg _) (by linarith) ?_
    rw [abs_deg2rad]
    refine (deg2rad_le (temperate v vertex)).trans (le_of_eq ?_)
    unfold deg2rad
    ring
  have gap : |p.lon - q.lon| ≤
      latDegrees neighborBufferMeters + latDegrees neighborBufferMeters := by
    have shorter := mul_le_mul_of_nonneg_left half (abs_nonneg (p.lon - q.lon))
    linarith
  have wide := latDegrees_le_lonDegrees wa
  have wide' := latDegrees_le_lonDegrees wb
  intro wa' wb' same same'
  obtain rfl := Option.some.inj (box.symm.trans same)
  obtain rfl := Option.some.inj (box'.symm.trans same')
  obtain ⟨low, high⟩ := abs_le.mp gap
  have bounds := And.intro inside.west inside.east
  have bounds' := And.intro inside'.west inside'.east
  constructor <;> linarith

/-! ## When the lists are right -/

/-- Two areas are listed under each other exactly when they are adjacent, only the IDs of areas
are listed, and the lists are symmetric and without repeats. -/
structure ListsNeighbors (territories : List (Territory ℝ Properties)) : Prop where
  listed : ∀ a ∈ territories, ∀ b ∈ territories, a.id ≠ b.id →
    (b.id ∈ neighbors territories a.id ↔ territoriesAdjacent a b = true)
  areas : ∀ x, ∀ y ∈ neighbors territories x,
    ∃ a ∈ territories, ∃ b ∈ territories, a.id = x ∧ b.id = y ∧ a.id ≠ b.id
  symmetric : ∀ x y, y ∈ neighbors territories x ↔ x ∈ neighbors territories y
  distinct : ∀ x, (neighbors territories x).Nodup

/-- Only pairs of different areas are listed. -/
theorem areas_of_mem_neighbors {territories : List (Territory ℝ Properties)}
    (distinct : (territories.map Territory.id).Nodup) {x y : String}
    (listed : y ∈ neighbors territories x) :
    ∃ a ∈ territories, ∃ b ∈ territories, a.id = x ∧ b.id = y ∧ a.id ≠ b.id := by
  have pair : ∀ {x y : String}, (x, y) ∈ ((laterPairs territories).filter foundAdjacent).map
      (Prod.map Territory.id Territory.id) →
      ∃ a ∈ territories, ∃ b ∈ territories, a.id = x ∧ b.id = y ∧ a.id ≠ b.id := by
    intro x y member
    obtain ⟨⟨a, b⟩, found, ids⟩ := List.mem_map.mp member
    obtain ⟨rfl, rfl⟩ := Prod.mk.inj ids
    have before := mem_laterPairs.mp (List.mem_filter.mp found).1
    have before' : Before (territories.map Territory.id) a.id b.id := before.map Territory.id
    exact ⟨a, before.mem.1, b, before.mem.2, rfl, rfl, before'.ne distinct⟩
  rw [mem_neighbors, foundIDs, mem_bothWays] at listed
  rcases listed with member | member
  · exact pair member
  · obtain ⟨a, inside, b, inside', same, same', different⟩ := pair member
    exact ⟨b, inside', a, inside, same', same, different.symm⟩

/-- **The lists of neighbours are right exactly when no adjacent pair is further apart in
longitude than both boxes are widened.** -/
theorem listsNeighbors_iff {territories : List (Territory ℝ Properties)}
    (distinct : (territories.map Territory.id).Nodup)
    (valid : ∀ t ∈ territories, t.OnEarth) :
    ListsNeighbors territories ↔
      ∀ a ∈ territories, ∀ b ∈ territories, a.id ≠ b.id →
        territoriesAdjacent a b = true → LongitudesMeet a b := by
  constructor
  · intro right a first b second different adjacent
    have listed := (right.listed a first b second different).mpr adjacent
    have overlap := ((mem_neighbors_iff distinct first second different).mp listed).1
    exact (bufferedOverlap_iff (valid a first) (valid b second) adjacent).mp overlap
  · intro meet
    refine ⟨fun a first b second different => ?_, fun x y => areas_of_mem_neighbors distinct,
      neighbors_symm territories, nodup_neighbors distinct⟩
    rw [mem_neighbors_iff distinct first second different]
    constructor
    · rintro ⟨-, adjacent⟩
      exact adjacent
    · intro adjacent
      exact ⟨(bufferedOverlap_iff (valid a first) (valid b second) adjacent).mpr
        (meet a first b second different adjacent), adjacent⟩

/-! ## Two wedges -/

/-- A triangle from the equator along a meridian to the north, and from there along a
parallel. -/
def wedge (id : String) (north lon lon' : ℝ) : Territory ℝ Unit where
  id := id
  name := id
  layer := "sales"
  geometry := ⟨[⟨[⟨0, lon⟩, ⟨north, lon⟩, ⟨north, lon'⟩, ⟨0, lon⟩], []⟩]⟩
  properties := ()

theorem bbox_wedge (id : String) {north : ℝ} (above : 0 ≤ north) (lon lon' : ℝ) :
    (wedge id north lon lon').geometry.bbox = some ⟨0, north, min lon lon', max lon lon'⟩ := by
  change [(⟨0, lon⟩ : Coord ℝ), ⟨north, lon⟩, ⟨north, lon'⟩, ⟨0, lon⟩].foldl growBox none = _
  rw [List.foldl_cons]
  change [(⟨north, lon⟩ : Coord ℝ), ⟨north, lon'⟩, ⟨0, lon⟩].foldl growBox
    (some ⟨0, 0, lon, lon⟩) = _
  simp only [List.foldl_cons, List.foldl_nil, growBox_some, min_eq_right above,
    max_eq_right above, min_self, max_self, min_comm lon' lon]
  simp [above]

theorem onEarth_wedge (id : String) {north lon lon' : ℝ} (parallel : |north| ≤ 90)
    (meridian : |lon| ≤ 180) (meridian' : |lon'| ≤ 180) :
    (wedge id north lon lon').OnEarth := by
  rintro c ⟨poly, member, vertex⟩
  obtain rfl := List.mem_singleton.mp member
  have cases : c = ⟨0, lon⟩ ∨ c = ⟨north, lon⟩ ∨ c = ⟨north, lon'⟩ := by
    simp only [List.mem_cons, List.not_mem_nil, or_false] at vertex
    tauto
  have equator : |(0 : ℝ)| ≤ 90 := by norm_num
  rcases cases with rfl | rfl | rfl
  · exact ⟨equator, meridian⟩
  · exact ⟨parallel, meridian⟩
  · exact ⟨parallel, meridian'⟩

/-- Two wedges with a gap between them that is short at their northern ends. -/
theorem wedges_adjacent {north gap : ℝ} (nonneg : 0 ≤ gap)
    (cosine : 0 ≤ Real.cos (deg2rad north))
    (short : gap * 111320 * Real.cos (deg2rad north) ≤ 50) :
    territoriesAdjacent (wedge "east" north gap (gap + 1)) (wedge "west" north 0 (-1)) = true := by
  rw [territoriesAdjacent_comm, territoriesAdjacent_iff]
  refine ⟨_, List.mem_singleton_self _, _, List.mem_singleton_self _, Or.inl
    ⟨⟨north, 0⟩, by simp, (⟨north, gap⟩, ⟨north, gap + 1⟩), by simp [ringEdges], ?_⟩⟩
  have projection : ∀ k : ℝ, (if 1 / 1000000000 < k * k then
      if -(gap * k) * k / (k * k) < 0 then (0 : ℝ)
      else if 1 < -(gap * k) * k / (k * k) then 1 else -(gap * k) * k / (k * k) else 0) = 0 := by
    intro k
    have atMost : -(gap * k) * k / (k * k) ≤ 0 := by
      refine div_nonpos_of_nonpos_of_nonneg ?_ (mul_self_nonneg k)
      have product := mul_nonneg nonneg (mul_self_nonneg k)
      linarith
    split_ifs with _ low high
    · rfl
    · linarith
    · exact le_antisymm atMost (not_lt.mp low)
    · rfl
  have step : (gap + 1) * 111320 * Real.cos (deg2rad north) -
      gap * 111320 * Real.cos (deg2rad north) = 111320 * Real.cos (deg2rad north) := by
    ring
  have offset : (0 : ℝ) * 111320 * Real.cos (deg2rad north) -
      gap * 111320 * Real.cos (deg2rad north) =
        -(gap * (111320 * Real.cos (deg2rad north))) := by
    ring
  unfold distToSegmentMeters
  dsimp only
  rw [step, offset, sub_self, mul_zero, add_zero, mul_zero, add_zero, projection, zero_mul,
    add_zero, sub_self, zero_pow two_ne_zero, add_zero, Real.sqrt_sq_eq_abs, abs_le]
  have product := mul_nonneg (mul_nonneg nonneg (by norm_num : (0 : ℝ) ≤ 111320)) cosine
  unfold neighborBufferMeters
  constructor <;> linarith

theorem cos_thirtySix : Real.cos (deg2rad 36) = (1 + √5) / 4 := by
  rw [← Real.cos_pi_div_five]
  unfold deg2rad
  congr 1
  ring

theorem cos_seventyTwo : Real.cos (deg2rad 72) = (√5 - 1) / 4 := by
  have double : deg2rad 72 = 2 * deg2rad 36 := by
    unfold deg2rad
    ring
  have square : √5 ^ 2 = (5 : ℝ) := Real.sq_sqrt (by norm_num)
  rw [double, Real.cos_two_mul, cos_thirtySix, div_pow, add_sq, square]
  ring

theorem sqrt_five_bounds : 2 < √5 ∧ √5 < (9 / 4 : ℝ) := by
  constructor
  · rw [Real.lt_sqrt (by norm_num)]
    norm_num
  · rw [Real.sqrt_lt' (by norm_num)]
    norm_num

/-- The longitudes of a box from the equator to the parallel of seventy-two degrees. -/
theorem lonDegrees_thirtySix {w : CoordWindow ℝ} (south : w.minLat = 0) (north : w.maxLat = 72) :
    w.lonDegrees neighborBufferMeters = 50 / (111320 * ((1 + √5) / 4)) := by
  have centre : w.center.lat = 36 := by
    rw [CoordWindow.center, south, north]
    norm_num
  have wide : (1 : ℝ) / 1000000000 < 111320 * ((1 + √5) / 4) := by
    have bounds := sqrt_five_bounds
    linarith
  unfold CoordWindow.lonDegrees
  dsimp only
  rw [centre, cos_thirtySix, if_pos wide, neighborBufferMeters]

/-- Two wedges from the equator to the parallel of seventy-two degrees, with 140 metres between
them at the equator. Their northern ends are 43 metres apart, and each box is widened by 62
metres at the equator. -/
noncomputable def farNorth : List (Territory ℝ Unit) :=
  [wedge "east" 72 (140 / 111320) (140 / 111320 + 1), wedge "west" 72 0 (-1)]

/-- **Adjacent areas that are not listed.** -/
theorem not_listsNeighbors_farNorth :
    (farNorth.map Territory.id).Nodup ∧ (∀ t ∈ farNorth, t.OnEarth) ∧
      ¬ ListsNeighbors farNorth := by
  have distinct : (farNorth.map Territory.id).Nodup := by
    simp [farNorth, wedge]
  have valid : ∀ t ∈ farNorth, t.OnEarth := by
    have parallel : |(72 : ℝ)| ≤ 90 := by norm_num
    refine List.forall_mem_cons.mpr ⟨onEarth_wedge _ parallel ?_ ?_,
      List.forall_mem_singleton.mpr (onEarth_wedge _ parallel ?_ ?_)⟩
    all_goals
      rw [abs_le]
      norm_num
  refine ⟨distinct, valid, fun right => ?_⟩
  obtain ⟨low, high⟩ := sqrt_five_bounds
  have east : wedge "east" 72 (140 / 111320) (140 / 111320 + 1) ∈ farNorth := List.mem_cons_self
  have west : wedge "west" 72 0 (-1) ∈ farNorth := List.mem_cons_of_mem _ List.mem_cons_self
  have different : (wedge "east" 72 (140 / 111320) (140 / 111320 + 1)).id ≠
      (wedge "west" 72 0 (-1)).id := by
    simp [wedge]
  have adjacent := wedges_adjacent (by norm_num : (0 : ℝ) ≤ 140 / 111320)
    (by rw [cos_seventyTwo]; linarith : 0 ≤ Real.cos (deg2rad 72))
    (by rw [cos_seventyTwo]; linarith)
  have listed := (right.listed _ east _ west different).mpr adjacent
  have overlap := ((mem_neighbors_iff distinct east west different).mp listed).1
  have meet := (bufferedOverlap_iff (valid _ east) (valid _ west) adjacent).mp overlap
  have separate := (meet _ _ (bbox_wedge _ (by norm_num) _ _) (bbox_wedge _ (by norm_num) _ _)).1
  rw [lonDegrees_thirtySix rfl rfl, lonDegrees_thirtySix rfl rfl] at separate
  have gap : (140 / 111320 : ℝ) ≤ (50 + 50) / (111320 * ((1 + √5) / 4)) := by
    rw [add_div]
    refine le_trans (le_of_eq ?_) separate
    norm_num
  rw [le_div_iff₀ (by linarith)] at gap
  linarith

/-- Two wedges that touch are listed. -/
theorem listsNeighbors_iff_touching :
    ListsNeighbors [wedge "east" 1 0 (0 + 1), wedge "west" 1 0 (-1)] := by
  have parallel : |(1 : ℝ)| ≤ 90 := by norm_num
  have valid : ∀ t ∈ [wedge "east" 1 0 (0 + 1), wedge "west" 1 0 (-1)], t.OnEarth := by
    refine List.forall_mem_cons.mpr ⟨onEarth_wedge _ parallel ?_ ?_,
      List.forall_mem_singleton.mpr (onEarth_wedge _ parallel ?_ ?_)⟩
    all_goals
      rw [abs_le]
      norm_num
  refine (listsNeighbors_iff (by simp [wedge]) valid).mpr ?_
  intro a first b second _ adjacent
  refine longitudesMeet_of_temperate (valid a first) (valid b second) ?_ adjacent
  have temperate : ∀ t ∈ [wedge "east" 1 0 (0 + 1), wedge "west" 1 0 (-1)],
      ∀ c, t.HasVertex c → |c.lat| ≤ 60 := by
    intro t member c vertex
    obtain ⟨poly, inside, vertex⟩ := vertex
    simp only [List.mem_cons, List.not_mem_nil, or_false] at member
    rcases member with rfl | rfl
    all_goals
      obtain rfl := List.mem_singleton.mp inside
      simp only [List.mem_cons, List.not_mem_nil, or_false] at vertex
      rcases vertex with rfl | rfl | rfl | rfl <;> norm_num
  rintro c (vertex | vertex)
  · exact temperate a first c vertex
  · exact temperate b second c vertex

end OsmMini.Core

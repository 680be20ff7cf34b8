import OsmMini.Cmd.Basic
import OsmMini.Cmd.Workbench.Collection
import OsmMini.Foundations.Subdivision

/-!
# Simplifying lines

`simplify` drops positions of the lines of a collection. The longitudes of a line are unwrapped
across the antimeridian, and its positions are projected to metres around their middle latitude.
A stack has the ranges that are still to be looked at: a range is split at the position that is
farthest from the segment between its ends, and given up if all are within the tolerance.

Every dropped position is within the tolerance of the segment between the kept positions before
and after it, because these are the ends of the last range in which it was tested
(`simplify_tolerance`).
-/

set_option autoImplicit false

namespace OsmMini.Cmd.Workbench

open OsmMini.Foundations.Subdivision

/-- The constants and functions of the projection. -/
structure Trig (K : Type) where
  pi : K
  cos : K → K

section Simplify

variable {K : Type} [Field K] [LinearOrder K] [IsStrictOrderedRing K] [FloorRing K]

/-! ## Projection -/

theorem turns_decrease {x : K} (far : 180 < x) : ⌈(x - 360) / 360⌉.toNat < ⌈x / 360⌉.toNat := by
  have step : (x - 360) / 360 = x / 360 - 1 := by ring
  have positive : 0 < ⌈x / 360⌉ := Int.ceil_pos.mpr (by linarith)
  rw [step, Int.ceil_sub_one]
  omega

/-- Turn a longitude back until it is at most half a turn ahead. -/
def unwrapDown {K : Type} [Field K] [LinearOrder K] [IsStrictOrderedRing K] [FloorRing K]
    (previous lon : K) : K :=
  if 180 < lon - previous then unwrapDown previous (lon - 360) else lon
termination_by ⌈(lon - previous) / 360⌉.toNat
decreasing_by
  rename_i far
  rw [sub_right_comm]
  exact turns_decrease far

/-- Turn a longitude forward until it is at most half a turn behind. -/
def unwrapUp {K : Type} [Field K] [LinearOrder K] [IsStrictOrderedRing K] [FloorRing K]
    (previous lon : K) : K :=
  if lon - previous < -180 then unwrapUp previous (lon + 360) else lon
termination_by ⌈(previous - lon) / 360⌉.toNat
decreasing_by
  rename_i far
  rw [sub_add_eq_sub_sub]
  exact turns_decrease (by linarith)

def unwrap : K → List (Position K) → List (K × K)
  | _, [] => []
  | previous, p :: rest =>
    let lon := unwrapUp previous (unwrapDown previous p.lon)
    (lon, p.lat) :: unwrap lon rest

def maxOf (xs : List K) : K := xs.tail.foldl max (xs.headD 0)

def minOf (xs : List K) : K := xs.tail.foldl min (xs.headD 0)

/-- The positions of a line in metres, if its extent is small. -/
def project (t : Trig K) (points : List (Position K)) : Except String (List (K × K)) :=
  let unwrapped := unwrap ((points.map Position.lon).headD 0) points
  let xs := unwrapped.map Prod.fst
  let ys := unwrapped.map Prod.snd
  if 5 < maxOf xs - minOf xs ∨ 5 < maxOf ys - minOf ys ∨ ∃ y ∈ ys, 85 < |y| then
    .error
      "Linienvereinfachung ist auf regionale Daten (5° Ausdehnung, ±85° Breite) begrenzt."
  else
    let latitude := (maxOf ys + minOf ys) / 2 * t.pi / 180
    let origin := unwrapped.headD (0, 0)
    .ok (unwrapped.map fun p =>
      ((p.1 - origin.1) * t.cos latitude * (11119508 / 100),
        (p.2 - origin.2) * (11119508 / 100)))

end Simplify

/-! ## Ranges -/

section Ranges

variable {K : Type} [Field K] [LinearOrder K]

/-- The square of the distance from a point to a segment. -/
def distance (a b p : K × K) : K :=
  let dx := b.1 - a.1
  let dy := b.2 - a.2
  let length := dx * dx + dy * dy
  let t := if length ≠ 0 then max 0 (min 1 (((p.1 - a.1) * dx + (p.2 - a.2) * dy) / length)) else 0
  (p.1 - a.1 - t * dx) ^ 2 + (p.2 - a.2 - t * dy) ^ 2

def maxOperations : ℕ := 2000000

/-- The farthest position so far, and the number of operations. -/
structure Scan (K : Type) where
  best : K
  index : Option ℕ
  operations : ℕ

def scanStep (projected : List (K × K)) (first last : ℕ) (scan : Scan K) (i : ℕ) :
    Except String (Scan K) :=
  if maxOperations < scan.operations + 1 then
    .error "Linie ist für die interaktive Vereinfachung zu komplex."
  else
    let distance := distance (projected.getD first (0, 0)) (projected.getD last (0, 0))
      (projected.getD i (0, 0))
    if scan.best < distance then .ok ⟨distance, some i, scan.operations + 1⟩
    else .ok { scan with operations := scan.operations + 1 }

/-- Look for the position of a range that is farthest from the segment between its ends. -/
def scan (tolerance : K) (projected : List (K × K)) (operations first last : ℕ) :
    Except String (Scan K) :=
  (List.range' (first + 1) (last - (first + 1))).foldlM (scanStep projected first last)
    ⟨tolerance * tolerance, none, operations⟩

theorem foldlM_scanStep {projected : List (K × K)} {first last : ℕ} :
    ∀ {places : List ℕ} {s s' : Scan K},
      places.foldlM (scanStep projected first last) s = .ok s' →
      s.best ≤ s'.best ∧ (∀ i ∈ places, distance (projected.getD first (0, 0))
          (projected.getD last (0, 0)) (projected.getD i (0, 0)) ≤ s'.best) ∧
        (s'.index = s.index ∧ s'.best = s.best ∨ ∃ i ∈ places, s'.index = some i) := by
  intro places
  induction places with
  | nil =>
      intro s s' done
      cases done
      exact ⟨le_refl _, fun i none => absurd none List.not_mem_nil, Or.inl ⟨rfl, rfl⟩⟩
  | cons i places ih =>
      intro s s' done
      rw [List.foldlM_cons] at done
      cases step : scanStep projected first last s i with
      | error err =>
          rw [step] at done
          cases done
      | ok middle =>
          rw [step] at done
          obtain ⟨grown, bounded, chosen⟩ := ih done
          rw [scanStep] at step
          dsimp only at step
          split_ifs at step with many farther
          · obtain rfl := Except.ok.inj step
            refine ⟨farther.le.trans grown, ?_, Or.inr ?_⟩
            · intro j member
              rcases List.mem_cons.mp member with rfl | later
              · exact grown
              · exact bounded j later
            · rcases chosen with ⟨same, -⟩ | ⟨j, later, found⟩
              · exact ⟨i, List.mem_cons_self, same⟩
              · exact ⟨j, List.mem_cons_of_mem _ later, found⟩
          · obtain rfl := Except.ok.inj step
            refine ⟨grown, ?_, ?_⟩
            · intro j member
              rcases List.mem_cons.mp member with rfl | later
              · exact (not_lt.mp farther).trans grown
              · exact bounded j later
            · rcases chosen with same | ⟨j, later, found⟩
              · exact Or.inl same
              · exact Or.inr ⟨j, List.mem_cons_of_mem _ later, found⟩

/-- **The position that is found lies inside the range**; if none is found, all are within the
tolerance. -/
theorem scan_ok {tolerance : K} {projected : List (K × K)} {operations first last : ℕ}
    {s : Scan K} (done : scan tolerance projected operations first last = .ok s) :
    (∀ i, s.index = some i → first < i ∧ i < last) ∧
      (s.index = none → ∀ i, first < i → i < last → distance (projected.getD first (0, 0))
        (projected.getD last (0, 0)) (projected.getD i (0, 0)) ≤ tolerance * tolerance) := by
  obtain ⟨-, bounded, chosen⟩ := foldlM_scanStep done
  constructor
  · intro i found
    rcases chosen with ⟨same, -⟩ | ⟨j, member, found'⟩
    · rw [same] at found
      cases found
    · rw [found] at found'
      cases found'
      rw [List.mem_range'_1] at member
      omega
  · intro none i after before
    rcases chosen with ⟨-, same⟩ | ⟨j, -, found⟩
    · exact (bounded i (List.mem_range'_1.mpr (by omega))).trans_eq same
    · rw [none] at found
      cases found

/-- The work that a range may still take. -/
def weight (r : ℕ × ℕ) : ℕ := max 1 (2 * (r.2 - r.1) - 1)

def work (stack : List (ℕ × ℕ)) : ℕ := (stack.map weight).sum

theorem work_pop (r : ℕ × ℕ) (stack : List (ℕ × ℕ)) : work stack < work (r :: stack) := by
  have positive : 1 ≤ weight r := le_max_left _ _
  rw [work, work, List.map_cons, List.sum_cons]
  omega

theorem work_split {first last i : ℕ} (after : first < i) (before : i < last)
    (stack : List (ℕ × ℕ)) :
    work ((i, last) :: (first, i) :: stack) < work ((first, last) :: stack) := by
  have less : weight (i, last) + weight (first, i) < weight (first, last) := by
    simp only [weight]
    omega
  simp only [work, List.map_cons, List.sum_cons]
  omega

/-- Split the ranges on the stack until none is left. -/
def subdivide (tolerance : K) (projected : List (K × K)) (keep : List ℕ)
    (stack : List (ℕ × ℕ)) (operations : ℕ) : Except String (List ℕ × ℕ) :=
  match stack with
  | [] => .ok (keep, operations)
  | (first, last) :: stack =>
    match _done : scan tolerance projected operations first last with
    | .error err => .error err
    | .ok s =>
      match _found : s.index with
      | none => subdivide tolerance projected keep stack s.operations
      | some i =>
        subdivide tolerance projected (i :: keep) ((i, last) :: (first, i) :: stack) s.operations
termination_by work stack
decreasing_by
  · exact work_pop _ _
  · obtain ⟨after, before⟩ := (scan_ok _done).1 i _found
    exact work_split after before _

/-- All positions of a range are within the tolerance of the segment between its ends. -/
def Near (tolerance : K) (projected : List (K × K)) (first last : ℕ) : Prop :=
  ∀ i, first < i → i < last → distance (projected.getD first (0, 0))
    (projected.getD last (0, 0)) (projected.getD i (0, 0)) ≤ tolerance * tolerance

/-- **The loop keeps a subdivision, and ends when no range is left.** -/
theorem subdivide_ok {tolerance : K} {projected : List (K × K)} {n : ℕ} :
    ∀ {keep : List ℕ} {stack : List (ℕ × ℕ)} {operations : ℕ} {answer : List ℕ × ℕ},
      Subdivided (Near tolerance projected) n keep stack →
      subdivide tolerance projected keep stack operations = .ok answer →
      Subdivided (Near tolerance projected) n answer.1 [] := by
  intro keep stack operations answer state run
  induction keep, stack, operations using subdivide.induct tolerance projected with
  | case1 keep operations =>
      rw [subdivide] at run
      cases run
      exact state
  | case2 keep operations first last stack err failed =>
      rw [subdivide] at run
      split at run
      · cases run
      · next s done =>
          rw [done] at failed
          cases failed
  | case3 keep operations first last stack s done none ih =>
      rw [subdivide] at run
      split at run
      · cases run
      · next s' done' =>
          obtain rfl := Except.ok.inj (done.symm.trans done')
          split at run
          · exact ih (state.close ((scan_ok done).2 none)) run
          · next i found =>
              rw [none] at found
              cases found
  | case4 keep operations first last stack s done i found ih =>
      rw [subdivide] at run
      split at run
      · cases run
      · next s' done' =>
          obtain rfl := Except.ok.inj (done.symm.trans done')
          split at run
          · next none =>
              rw [found] at none
              cases none
          · next i' found' =>
              obtain rfl := Option.some.inj (found.symm.trans found')
              obtain ⟨after, before⟩ := (scan_ok done).1 i found
              exact ih (state.split after before) run

end Ranges

/-! ## Lines and geometries -/

/-- The positions with the kept indices. -/
def keepAt {α : Type} (keep : List ℕ) (points : List α) : List α :=
  (points.zipIdx.filter fun p => p.2 ∈ keep).map Prod.fst

/-- What is counted. -/
structure Counts where
  operations : ℕ
  removed : ℕ
  lines : ℕ

structure SimplifyResult (K : Type) where
  data : FeatureCollection K
  removed : ℕ
  lines : ℕ

section Simplify

variable {K : Type} [Field K] [LinearOrder K] [IsStrictOrderedRing K] [FloorRing K]
  (t : Trig K) (tolerance : K)

/-- Simplify a line. A closed line must not collapse to a doubled endpoint or two edges. -/
def reduce (points : List (Position K)) (counts : Counts) :
    Except String (List (Position K) × Counts) :=
  let counts := { counts with lines := counts.lines + 1 }
  if points.length < 3 ∨ tolerance = 0 then .ok (points, counts)
  else do
    let projected ← project t points
    let (keep, operations) ← subdivide tolerance projected [0, points.length - 1]
      [(0, points.length - 1)] counts.operations
    let counts := { counts with operations := operations }
    let simplified := keepAt keep points
    if closes points ∧ simplified.length < 4 then .ok (points, counts)
    else
      let removed := counts.removed + (points.length - simplified.length)
      .ok (simplified, { counts with removed := removed })

def reduceAll : List (List (Position K)) → Counts →
    Except String (List (List (Position K)) × Counts)
  | [], counts => .ok ([], counts)
  | points :: rest, counts => do
    let (points, counts) ← reduce t tolerance points counts
    let (rest, counts) ← reduceAll rest counts
    .ok (points :: rest, counts)

def Shape.visit (counts : Counts) : Shape K → Except String (Shape K × Counts)
  | .lineString c => do
    let (c, counts) ← reduce t tolerance c counts
    .ok (.lineString c, counts)
  | .multiLineString c => do
    let (c, counts) ← reduceAll t tolerance c counts
    .ok (.multiLineString c, counts)
  | shape => .ok (shape, counts)

/-- A bounding box is deleted once a position was removed. -/
def bboxAfter (counts : Counts) (bbox : Option (List K)) : Option (List K) :=
  if counts.removed = 0 then bbox else none

mutual

def visit (counts : Counts) : Geometry K → Except String (Geometry K × Counts)
  | .null => .ok (.null, counts)
  | .simple bbox shape => do
    let (shape, counts) ← shape.visit t tolerance counts
    .ok (.simple (bboxAfter counts bbox) shape, counts)
  | .collection bbox geometries => do
    let (geometries, counts) ← visitAll counts geometries
    .ok (.collection (bboxAfter counts bbox) geometries, counts)

def visitAll (counts : Counts) : List (Geometry K) → Except String (List (Geometry K) × Counts)
  | [] => .ok ([], counts)
  | g :: rest => do
    let (g, counts) ← visit counts g
    let (rest, counts) ← visitAll counts rest
    .ok (g :: rest, counts)

end

def visitFeatures (counts : Counts) :
    List (Feature K) → Except String (List (Feature K) × Counts)
  | [] => .ok ([], counts)
  | f :: rest => do
    let (g, counts) ← visit t tolerance counts f.geometry
    let (rest, counts) ← visitFeatures counts rest
    .ok (⟨g, bboxAfter counts f.bbox⟩ :: rest, counts)

def simplify (data : FeatureCollection K) : Except String (SimplifyResult K) :=
  if tolerance < 0 ∨ 1000 < tolerance then
    .error "Toleranz zwischen 0 und 1000 Metern wählen."
  else do
    let _ ← validate data
    let (features, counts) ← visitFeatures t tolerance ⟨0, 0, 0⟩ data.features
    .ok ⟨{ data with features := features, bbox := bboxAfter counts data.bbox },
      counts.removed, counts.lines⟩

end Simplify

/-! ## What is kept -/

section KeepAt

variable {α : Type} {keep : List ℕ} {points : List α}

theorem keepAt_sublist (keep : List ℕ) (points : List α) :
    (keepAt keep points).Sublist points := by
  have all : points.zipIdx.map Prod.fst = points := List.zipIdx_map_fst 0 points
  have part := (List.filter_sublist (p := fun p : α × ℕ => decide (p.2 ∈ keep))
    (l := points.zipIdx)).map Prod.fst
  rwa [all] at part

theorem keepAt_all (points : List α) : keepAt (List.range points.length) points = points := by
  rw [keepAt, List.filter_eq_self.mpr, List.zipIdx_map_fst]
  intro p member
  rw [decide_eq_true_iff, List.mem_range]
  exact List.snd_lt_of_mem_zipIdx member

theorem head?_keepAt (first : 0 ∈ keep) : (keepAt keep points).head? = points.head? := by
  cases points with
  | nil => rfl
  | cons p rest =>
      have kept : decide (((p, 0) : α × ℕ).2 ∈ keep) = true := decide_eq_true first
      rw [keepAt, List.zipIdx_cons, List.filter_cons, if_pos kept]
      rfl

theorem getLast?_keepAt (last : points.length - 1 ∈ keep) :
    (keepAt keep points).getLast? = points.getLast? := by
  induction points using List.reverseRecOn with
  | nil => rfl
  | append_singleton points p _ =>
      rw [List.length_append, List.length_singleton, Nat.add_sub_cancel] at last
      have kept : (keepAt keep (points ++ [p])) =
          ((points.zipIdx.filter fun p => p.2 ∈ keep).map Prod.fst) ++ [p] := by
        have here : decide (((p, points.length) : α × ℕ).2 ∈ keep) = true := decide_eq_true last
        rw [keepAt, List.zipIdx_append, List.filter_append, List.map_append, Nat.zero_add,
          List.zipIdx_singleton, List.filter_cons, if_pos here]
        rfl
      rw [kept, List.getLast?_concat, List.getLast?_concat]

end KeepAt

section Tolerance

variable {K : Type} [Field K] [LinearOrder K] [IsStrictOrderedRing K]

/-- A point within a tolerance of a segment: of one of its points. -/
def WithinTolerance (tolerance : K) (a b p : K × K) : Prop :=
  ∃ s, (0 ≤ s ∧ s ≤ 1) ∧
    (p.1 - (a.1 + s * (b.1 - a.1))) ^ 2 + (p.2 - (a.2 + s * (b.2 - a.2))) ^ 2 ≤ tolerance ^ 2

theorem withinTolerance_of_distance {tolerance : K} {a b p : K × K}
    (near : distance a b p ≤ tolerance * tolerance) : WithinTolerance tolerance a b p := by
  rw [distance] at near
  generalize factor : (if (b.1 - a.1) * (b.1 - a.1) + (b.2 - a.2) * (b.2 - a.2) ≠ 0 then
    max 0 (min 1 (((p.1 - a.1) * (b.1 - a.1) + (p.2 - a.2) * (b.2 - a.2)) /
      ((b.1 - a.1) * (b.1 - a.1) + (b.2 - a.2) * (b.2 - a.2)))) else 0) = s at near
  have range : 0 ≤ s ∧ s ≤ 1 := by
    rw [← factor]
    split_ifs
    · exact ⟨le_max_left _ _, max_le zero_le_one (min_le_left _ _)⟩
    · exact ⟨le_refl _, zero_le_one⟩
  refine ⟨s, range, ?_⟩
  rw [← sub_sub, ← sub_sub, sq tolerance]
  exact near

end Tolerance

section Result

variable {K : Type} [Field K] [LinearOrder K] [IsStrictOrderedRing K] [FloorRing K]

/-- **A line that was simplified within the tolerance.** -/
structure Simplified (t : Trig K) (tolerance : K) (points simplified : List (Position K)) :
    Prop where
  sublist : simplified.Sublist points
  first : simplified.head? = points.head?
  last : simplified.getLast? = points.getLast?
  /-- Every dropped position is near the segment between its kept neighbours. -/
  dropped : ∃ keep : List ℕ, simplified = keepAt keep points ∧
    ∀ i < points.length, i ∉ keep → ∃ projected first last a b p,
      project t points = .ok projected ∧ (first < i ∧ i < last) ∧ Neighbors keep first last ∧
      (projected[first]? = some a ∧ projected[last]? = some b ∧ projected[i]? = some p) ∧
      WithinTolerance tolerance a b p
  closed : closes points → closes simplified ∧ (4 ≤ simplified.length ∨ simplified = points)

theorem simplified_refl (t : Trig K) (tolerance : K) (points : List (Position K)) :
    Simplified t tolerance points points := by
  refine ⟨List.Sublist.refl _, rfl, rfl, ⟨List.range points.length, (keepAt_all points).symm, ?_⟩,
    fun closed => ⟨closed, Or.inr rfl⟩⟩
  intro i inside missing
  exact absurd (List.mem_range.mpr inside) missing

theorem length_unwrap (points : List (Position K)) :
    ∀ previous : K, (unwrap previous points).length = points.length := by
  induction points with
  | nil => exact fun _ => rfl
  | cons p rest ih => exact fun previous => congrArg (· + 1) (ih _)

theorem length_project {t : Trig K} {points : List (Position K)} {projected : List (K × K)}
    (done : project t points = .ok projected) : projected.length = points.length := by
  rw [project] at done
  dsimp only at done
  split_ifs at done
  cases done
  rw [List.length_map, length_unwrap]

/-- **A line is simplified within the tolerance, and what is removed is counted.** -/
theorem reduce_ok {t : Trig K} {tolerance : K} {points simplified : List (Position K)}
    {counts counts' : Counts}
    (done : reduce t tolerance points counts = .ok (simplified, counts')) :
    Simplified t tolerance points simplified ∧
      counts'.removed = counts.removed + (points.length - simplified.length) := by
  have same : simplified = points → counts'.removed = counts.removed →
      Simplified t tolerance points simplified ∧
        counts'.removed = counts.removed + (points.length - simplified.length) := by
    intro unchanged removed
    rw [unchanged, removed, Nat.sub_self]
    exact ⟨simplified_refl t tolerance points, rfl⟩
  rw [reduce] at done
  dsimp only at done
  split_ifs at done with short
  · cases done
    exact same rfl rfl
  · cases flat : project t points with
    | error err =>
        rw [flat] at done
        cases done
    | ok projected =>
        rw [flat] at done
        cases loop : subdivide tolerance projected [0, points.length - 1]
            [(0, points.length - 1)] counts.operations with
        | error err =>
            simp only [loop, bind, Except.bind] at done
            cases done
        | ok answer =>
            simp only [loop, bind, Except.bind] at done
            split_ifs at done with collapsed
            · cases done
              exact same rfl rfl
            · cases done
              rw [not_or, not_lt] at short
              have state := subdivide_ok (subdivided_start (by omega)) loop
              have length := length_project flat
              have first := @head?_keepAt _ _ points state.first
              have last := getLast?_keepAt state.last
              refine ⟨⟨keepAt_sublist _ _, first, last, ⟨answer.1, rfl, ?_⟩, ?_⟩, rfl⟩
              · intro i inside missing
                obtain ⟨a, b, after, before, neighbors, near⟩ :=
                  state.exists_around (Nat.le_sub_one_of_lt inside) missing
                have bound : b < projected.length := by
                  by_contra behind
                  have inner : i < points.length - 1 := by
                    refine lt_of_le_of_ne (Nat.le_sub_one_of_lt inside) fun end_ => ?_
                    exact missing (end_ ▸ state.last)
                  exact neighbors.gap _ (after.trans inner) (by omega) state.last
                have cell : ∀ j < projected.length,
                    projected[j]? = some (projected.getD j (0, 0)) := by
                  intro j known
                  rw [List.getD_eq_getElem _ _ known, List.getElem?_eq_getElem known]
                exact ⟨projected, a, b, _, _, _, flat, ⟨after, before⟩, neighbors,
                  ⟨cell a (by omega), cell b bound, cell i (by omega)⟩,
                  withinTolerance_of_distance (near i after before)⟩
              · intro closed
                have enough := not_lt.mp fun few => collapsed ⟨closed, few⟩
                refine ⟨?_, Or.inl enough⟩
                rw [closes, first, last]
                exact closed

/-- What is said of lines that were simplified one after the other: every line, and the number
of positions that were removed. -/
structure AllSimplified (t : Trig K) (tolerance : K) (lines simplified : List (List (Position K)))
    (counts counts' : Counts) : Prop where
  each : List.Forall₂ (Simplified t tolerance) lines simplified
  removed : counts'.removed = counts.removed +
    (List.zipWith (fun points points' : List (Position K) => points.length - points'.length)
      lines simplified).sum

variable {t : Trig K} {tolerance : K} {counts counts' counts'' : Counts}

theorem allSimplified_nil : AllSimplified t tolerance [] [] counts counts :=
  ⟨List.Forall₂.nil, rfl⟩

theorem AllSimplified.append {lines simplified lines' simplified' : List (List (Position K))}
    (first : AllSimplified t tolerance lines simplified counts counts')
    (second : AllSimplified t tolerance lines' simplified' counts' counts'') :
    AllSimplified t tolerance (lines ++ lines') (simplified ++ simplified') counts counts'' := by
  refine ⟨List.rel_append first.each second.each, ?_⟩
  rw [second.removed, first.removed, List.zipWith_append first.each.length_eq, List.sum_append,
    Nat.add_assoc]

theorem allSimplified_reduce {points points' : List (Position K)}
    (done : reduce t tolerance points counts = .ok (points', counts')) :
    AllSimplified t tolerance [points] [points'] counts counts' := by
  obtain ⟨simplified, removed⟩ := reduce_ok done
  exact ⟨List.Forall₂.cons simplified List.Forall₂.nil, removed⟩

theorem allSimplified_reduceAll {lines : List (List (Position K))} :
    ∀ {lines' : List (List (Position K))} {counts : Counts},
      reduceAll t tolerance lines counts = .ok (lines', counts') →
      AllSimplified t tolerance lines lines' counts counts' := by
  induction lines with
  | nil =>
      intro lines' counts done
      cases done
      exact allSimplified_nil
  | cons points lines ih =>
      intro lines' counts done
      rw [reduceAll] at done
      obtain ⟨first, one, done⟩ := ok_of_bind done
      obtain ⟨second, others, done⟩ := ok_of_bind done
      cases done
      exact (allSimplified_reduce one).append (ih others)

theorem allSimplified_shape {shape shape' : Shape K}
    (done : shape.visit t tolerance counts = .ok (shape', counts')) :
    AllSimplified t tolerance shape.lines shape'.lines counts counts' := by
  cases shape with
  | lineString c =>
      obtain ⟨first, one, done⟩ := ok_of_bind done
      cases done
      exact allSimplified_reduce one
  | multiLineString c =>
      obtain ⟨first, all, done⟩ := ok_of_bind done
      cases done
      exact allSimplified_reduceAll all
  | point c =>
      cases done
      exact allSimplified_nil
  | multiPoint c =>
      cases done
      exact allSimplified_nil
  | polygon c =>
      cases done
      exact allSimplified_nil
  | multiPolygon c =>
      cases done
      exact allSimplified_nil

mutual

/-- **The lines of a geometry are simplified.** -/
theorem allSimplified_visit {counts counts' : Counts} : ∀ {g g' : Geometry K},
    visit t tolerance counts g = .ok (g', counts') →
    AllSimplified t tolerance g.lines g'.lines counts counts'
  | .null, g', done => by
      cases done
      exact allSimplified_nil
  | .simple bbox shape, g', done => by
      rw [visit] at done
      obtain ⟨first, one, done⟩ := ok_of_bind done
      cases done
      exact allSimplified_shape one
  | .collection bbox geometries, g', done => by
      rw [visit] at done
      obtain ⟨first, all, done⟩ := ok_of_bind done
      cases done
      exact allSimplified_visitAll all

theorem allSimplified_visitAll {counts counts' : Counts} : ∀ {gs gs' : List (Geometry K)},
    visitAll t tolerance counts gs = .ok (gs', counts') →
    AllSimplified t tolerance (linesAll gs) (linesAll gs') counts counts'
  | [], gs', done => by
      cases done
      exact allSimplified_nil
  | g :: gs, gs', done => by
      rw [visitAll] at done
      obtain ⟨first, one, done⟩ := ok_of_bind done
      obtain ⟨second, others, done⟩ := ok_of_bind done
      cases done
      exact (allSimplified_visit one).append (allSimplified_visitAll others)

end

theorem allSimplified_features {features : List (Feature K)} :
    ∀ {features' : List (Feature K)} {counts : Counts},
      visitFeatures t tolerance counts features = .ok (features', counts') →
      AllSimplified t tolerance (features.flatMap fun f => f.geometry.lines)
        (features'.flatMap fun f => f.geometry.lines) counts counts' := by
  induction features with
  | nil =>
      intro features' counts done
      cases done
      exact allSimplified_nil
  | cons f features ih =>
      intro features' counts done
      rw [visitFeatures] at done
      obtain ⟨first, one, done⟩ := ok_of_bind done
      obtain ⟨second, others, done⟩ := ok_of_bind done
      cases done
      exact (allSimplified_visit one).append (ih others)

end Result

/-- **Simplification keeps its tolerance.** Every line of the result is a part of the line it
comes from with the same ends, every dropped position is within the tolerance of the segment
between the nearest kept positions before and after it, a closed line stays closed, with at least
four positions or as it was, and what is reported is the number of dropped positions. -/
theorem simplify_tolerance {K : Type} [Field K] [LinearOrder K] [IsStrictOrderedRing K]
    [FloorRing K] {t : Trig K} {tolerance : K} {data : FeatureCollection K}
    {result : SimplifyResult K} (done : simplify t tolerance data = .ok result) :
    List.Forall₂ (Simplified t tolerance) data.lines result.data.lines ∧
      result.removed = (List.zipWith
        (fun points points' : List (Position K) => points.length - points'.length)
        data.lines result.data.lines).sum := by
  rw [simplify] at done
  split_ifs at done with range
  obtain ⟨points, -, done⟩ := ok_of_bind done
  obtain ⟨answer, features, done⟩ := ok_of_bind done
  cases done
  obtain ⟨each, removed⟩ := allSimplified_features features
  rw [Nat.zero_add] at removed
  exact ⟨each, removed⟩

/-- A collection of one line, with longitudes and latitudes in thousandths of degrees. -/
def thousandths (line : List (ℚ × ℚ)) : FeatureCollection ℚ where
  features := [⟨.simple none (.lineString (line.map fun p => ⟨p.1 / 1000, p.2 / 1000, []⟩)), none⟩]
  bbox := none
  crs := false

/-- A projection with round constants. -/
def roundTrig : Trig ℚ := ⟨3, fun _ => 1⟩

/-- A line that runs east and turns north, with a position on the way. -/
theorem simplify_tolerance_turn :
    ∃ result, simplify roundTrig 1 (thousandths [(0, 0), (1, 0), (2, 0), (2, 3)]) = .ok result ∧
      result.removed = 1 ∧ List.Forall₂ (Simplified roundTrig 1)
        (thousandths [(0, 0), (1, 0), (2, 0), (2, 3)]).lines result.data.lines := by
  have removed : (simplify roundTrig 1 (thousandths [(0, 0), (1, 0), (2, 0), (2, 3)])).map
      SimplifyResult.removed = .ok 1 := by decide +kernel
  obtain ⟨result, done, one⟩ := ok_of_map removed
  exact ⟨result, done, one, (simplify_tolerance done).1⟩

/-- A closed line of three positions stays as it is. -/
theorem simplify_three_positions : ¬∀ (t : Trig ℚ) (tolerance : ℚ) (data : FeatureCollection ℚ)
    (result : SimplifyResult ℚ), simplify t tolerance data = .ok result →
      List.Forall₂ (fun points points' => closes points → closes points' ∧ 4 ≤ points'.length)
        data.lines result.data.lines := by
  intro all
  have lines : (simplify roundTrig 1 (thousandths [(0, 0), (1, 0), (0, 0)])).map
      (fun result => result.data.lines) =
        .ok (thousandths [(0, 0), (1, 0), (0, 0)]).lines := by decide +kernel
  obtain ⟨result, done, same⟩ := ok_of_map lines
  have closed := all _ _ _ _ done
  rw [same] at closed
  have few := (List.forall₂_cons.mp closed).1 (by decide +kernel)
  exact absurd few.2 (by decide +kernel)

end OsmMini.Cmd.Workbench

import OsmMini.Mobile.Vector.Geometry

/-!
# Both decoders draw the same paths

A drawing is a list of finished paths and the current one. Each decoder keeps a drawing in its
own way, and what it does with a command is what a drawing does with it (`Simulates`). So a
decoder that does not give up ends with the drawing of its commands, or with the same error
(`Simulates.draw`).

The workspace keeps the points in one list with the ends of the paths. The passes keep counts,
and as much of the points and paths as their memory holds. Hence the result never depends on
which decoder was used (`geometry_eq_exact`).
-/

set_option autoImplicit false

namespace OsmMini.Mobile.Vector

open OsmMini.Core.Pbf

/-! ## Drawings -/

structure Drawing where
  done : List (List Point)
  current : List Point

namespace Drawing

/-- All points in order. -/
def points (s : Drawing) : List Point := s.done.flatten ++ s.current

def endPath (s : Drawing) : Drawing := ⟨s.done ++ [s.current], []⟩

def add (s : Drawing) (p : Point) : Drawing := ⟨s.done, s.current ++ [p]⟩

/-- The paths, with the current one if it has points. -/
def paths (s : Drawing) : List (List Point) := if s.current = [] then s.done else s.endPath.done

end Drawing

def drawing : Drawer Drawing String where
  fail := id
  pending s := decide (0 < s.current.length)
  close s := .ok (s.add (s.current.headD 0))
  refuse _ _ := none
  turn := Drawing.endPath
  add s p := .ok (s.add p)

/-! ## Simulation -/

section Simulation

variable {σ τ ε : Type}

/-- What a decoder ends with, beside what is right: the same result or error, unless it gave
up. -/
inductive Related (fail : String → ε) (gaveUp : ε → Prop) (R : σ → τ → Prop) :
    Except ε σ → Except String τ → Prop
  | ok {s : σ} {t : τ} : R s t → Related fail gaveUp R (.ok s) (.ok t)
  | fail (message : String) : Related fail gaveUp R (.error (fail message)) (.error message)
  | gaveUp {e : ε} (result : Except String τ) : gaveUp e → Related fail gaveUp R (.error e) result

/-- A decoder does with each command what another one does. Right after a path was ended, the
states are only related in the second sense. -/
structure Simulates (d : Drawer σ ε) (d' : Drawer τ String) (gaveUp : ε → Prop)
    (R Turned : σ → τ → Prop) : Prop where
  fails : d'.fail = id
  weaken : ∀ {s t}, R s t → Turned s t
  pending : ∀ {s t}, R s t → d.pending s = d'.pending t
  close : ∀ {s t}, R s t → d'.pending t = true → Related d.fail gaveUp R (d.close s) (d'.close t)
  refuse : ∀ {s} (n : ℕ) {e}, d.refuse s n = some e → gaveUp e
  accept : ∀ t (n : ℕ), d'.refuse t n = none
  turn : ∀ {s t}, R s t → d'.pending t = true → Turned (d.turn s) (d'.turn t)
  add : ∀ {s t} (p : Point), Turned s t → Related d.fail gaveUp R (d.add s p) (d'.add t p)

variable {d : Drawer σ ε} {d' : Drawer τ String} {gaveUp : ε → Prop}
  {R Turned : σ → τ → Prop}

/-- States at one point and with one reader are related. -/
def AtSame (R : σ → τ → Prop) (a : (Point × σ) × ValueReader) (b : (Point × τ) × ValueReader) :
    Prop :=
  a.1.1 = b.1.1 ∧ a.2 = b.2 ∧ R a.1.2 b.1.2

theorem Simulates.drawPairs (simulates : Simulates d d' gaveUp R Turned) (kind : UInt64) {n : ℕ} :
    ∀ {r : ValueReader} {at' : Point} {s : σ} {t : τ}, R s t →
      Related d.fail gaveUp (AtSame R) (Vector.drawPairs d kind n r at' s)
        (Vector.drawPairs d' kind n r at' t) := by
  have failed : ∀ message, d'.fail message = message := fun message => by
    rw [simulates.fails]
    rfl
  induction n with
  | zero => exact fun related => .ok ⟨rfl, rfl, related⟩
  | succ n ih =>
      intro r at' s t related
      rw [Vector.drawPairs, Vector.drawPairs]
      cases read : r.nextPair with
      | mk pair rest =>
      cases pair with
      | none =>
          dsimp only
          rw [failed]
          exact .fail _
      | some pair =>
          obtain ⟨dx, dy⟩ := pair
          dsimp only
          -- A path that goes on with a new start is ended by both.
          have turned : Turned (if kind = 1 ∧ d.pending s then d.turn s else s)
              (if kind = 1 ∧ d'.pending t then d'.turn t else t) := by
            rw [simulates.pending related]
            by_cases turns : kind = 1 ∧ d'.pending t = true
            · rw [if_pos turns, if_pos turns]
              exact simulates.turn related turns.2
            · rw [if_neg turns, if_neg turns]
              exact simulates.weaken related
          split
          · rw [failed]
            exact .fail _
          · have added := simulates.add (at'.1 + zigzagDecode64 dx, at'.2 + zigzagDecode64 dy) turned
            revert added
            generalize d.add _ _ = left
            generalize d'.add _ _ = right
            rintro (related' | _ | ⟨_, up⟩)
            · exact ih related'
            · exact .fail _
            · exact .gaveUp _ up

theorem Simulates.draw (simulates : Simulates d d' gaveUp R Turned) {bytes : ℕ} :
    ∀ {r : ValueReader} {at' : Point} {s : σ} {t : τ}, r.left = bytes → R s t →
      Related d.fail gaveUp R (Vector.draw d r at' s) (Vector.draw d' r at' t) := by
  have failed : ∀ message, d'.fail message = message := fun message => by
    rw [simulates.fails]
    rfl
  induction bytes using Nat.strongRecOn with
  | ind bytes ih =>
    intro r at' s t size related
    cases read : r.next with
    | mk cmd rest =>
    cases cmd with
    | none =>
        rw [draw_none read, draw_none read]
        cases rest.err with
        | none => exact .ok related
        | some err =>
            dsimp only
            rw [failed]
            exact .fail _
    | some cmd =>
        have shorter : rest.left < bytes := size ▸ ValueReader.left_lt read
        rw [draw_some read, draw_some read, failed, failed, failed, ← simulates.pending related]
        split
        · exact .fail _
        · split
          · split
            · exact .fail _
            · rename_i closes
              have pending : d'.pending t = true := by
                rw [← simulates.pending related]
                exact Bool.eq_true_of_not_eq_false fun none => closes (.inr none)
              have closed := simulates.close related pending
              revert closed
              generalize d.close s = left
              generalize d'.close t = right
              rintro (related' | _ | ⟨_, up⟩)
              · exact ih _ shorter rfl related'
              · exact .fail _
              · exact .gaveUp _ up
          · split
            · exact .fail _
            · rw [simulates.accept]
              cases refused : d.refuse s (cmd >>> 3).toNat with
              | some e => exact .gaveUp _ (simulates.refuse _ refused)
              | none =>
                  have drawn : Related d.fail gaveUp (AtSame R)
                      (Vector.drawPairs d (cmd &&& 7) (cmd >>> 3).toNat rest at' s)
                      (Vector.drawPairs d' (cmd &&& 7) (cmd >>> 3).toNat rest at' t) :=
                    simulates.drawPairs (cmd &&& 7) related
                  dsimp only
                  revert drawn
                  cases left : Vector.drawPairs d (cmd &&& 7) (cmd >>> 3).toNat rest at' s with
                  | error e =>
                      generalize Vector.drawPairs d' (cmd &&& 7) (cmd >>> 3).toNat rest at' t = right
                      rintro (_ | _ | ⟨_, up⟩)
                      · exact .fail _
                      · exact .gaveUp _ up
                  | ok out =>
                      generalize Vector.drawPairs d' (cmd &&& 7) (cmd >>> 3).toNat rest at' t = right
                      intro drawn
                      obtain ⟨⟨stop, s'⟩, rest'⟩ := out
                      have fewer := (drawPairs_left left).trans_lt shorter
                      cases drawn with
                      | ok both =>
                          rename_i out'
                          obtain ⟨⟨stop', t'⟩, rest''⟩ := out'
                          obtain ⟨rfl, rfl, related'⟩ := both
                          exact ih _ fewer rfl related'

end Simulation

/-! ## Ends of paths -/

/-- Where paths end that start one after the other. -/
def pathEnds : ℕ → List (List Point) → List ℕ
  | _, [] => []
  | start, path :: paths => (start + path.length) :: pathEnds (start + path.length) paths

/-- Where paths start and end. -/
def pathRanges : ℕ → List (List Point) → List (ℕ × ℕ)
  | _, [] => []
  | start, path :: paths =>
    (start, start + path.length) :: pathRanges (start + path.length) paths

theorem pathEnds_append (paths : List (List Point)) (path : List Point) : ∀ start,
    pathEnds start (paths ++ [path]) =
      pathEnds start paths ++ [start + (paths.flatten ++ path).length] := by
  induction paths with
  | nil => exact fun start => rfl
  | cons first paths ih =>
      intro start
      have wide : (first ++ (paths.flatten ++ path)).length =
          first.length + (paths.flatten ++ path).length := List.length_append
      rw [List.cons_append, pathEnds, pathEnds, ih, List.flatten_cons, List.append_assoc, wide,
        Nat.add_assoc]
      rfl

theorem pathRanges_append (paths : List (List Point)) (path : List Point) : ∀ start,
    pathRanges start (paths ++ [path]) = pathRanges start paths ++
      [(start + paths.flatten.length, start + (paths.flatten ++ path).length)] := by
  induction paths with
  | nil => exact fun start => rfl
  | cons first paths ih =>
      intro start
      have wide : (first ++ (paths.flatten ++ path)).length =
          first.length + (paths.flatten ++ path).length := List.length_append
      have wide' : (first ++ paths.flatten).length = first.length + paths.flatten.length :=
        List.length_append
      rw [List.cons_append, pathRanges, pathRanges, ih, List.flatten_cons, List.append_assoc, wide,
        wide', Nat.add_assoc, Nat.add_assoc]
      rfl

theorem length_pathRanges (paths : List (List Point)) : ∀ start,
    (pathRanges start paths).length = paths.length := by
  induction paths with
  | nil => exact fun _ => rfl
  | cons path paths ih => exact fun start => congrArg (· + 1) (ih _)

/-- The points between the ends of a path are the path. -/
theorem take_drop_middle {α : Type} (front path rest : List α) :
    ((front ++ (path ++ rest)).take (front.length + path.length)).drop front.length = path := by
  rw [List.take_length_add_append, List.take_left, List.drop_left]

theorem slices_pathEnds (paths : List (List Point)) : ∀ front : List Point,
    slices (front ++ paths.flatten) front.length (pathEnds front.length paths) = paths := by
  induction paths with
  | nil => exact fun _ => rfl
  | cons path paths ih =>
      intro front
      have later := ih (front ++ path)
      rw [List.length_append, List.append_assoc] at later
      rw [pathEnds, slices, List.flatten_cons, take_drop_middle, later]

theorem map_pathRanges (paths : List (List Point)) : ∀ front : List Point,
    (pathRanges front.length paths).map (fun path =>
      ((front ++ paths.flatten).take path.2).drop path.1) = paths := by
  induction paths with
  | nil => exact fun _ => rfl
  | cons path paths ih =>
      intro front
      have later := ih (front ++ path)
      rw [List.length_append, List.append_assoc] at later
      rw [pathRanges, List.map_cons, List.flatten_cons, take_drop_middle, later]

/-! ## The workspace -/

/-- The workspace keeps a drawing. -/
structure Keeps (s : VectorGeometryScratch) (t : Drawing) : Prop where
  points : s.points = t.points
  ends : s.ends = pathEnds 0 t.done
  start : s.start = t.done.flatten.length

/-- Between two commands only a drawing without points has an empty path. -/
def Drawing.Begun (t : Drawing) : Prop := t.current = [] → t.done = []

theorem Drawing.begun_add (t : Drawing) (p : Point) : (t.add p).Begun := fun none =>
  absurd none (List.append_ne_nil_of_right_ne_nil _ (List.cons_ne_nil _ _))

theorem Drawing.points_add (t : Drawing) (p : Point) : (t.add p).points = t.points ++ [p] :=
  (List.append_assoc ..).symm

theorem Drawing.points_endPath (t : Drawing) : t.endPath.points = t.points := by
  rw [points, endPath, List.flatten_append, List.flatten_singleton, List.append_nil, points]

theorem Drawing.start_lt_iff (t : Drawing) :
    t.done.flatten.length < t.points.length ↔ 0 < t.current.length := by
  rw [points, List.length_append]
  omega

theorem Keeps.appendPoint {s : VectorGeometryScratch} {t : Drawing} (keeps : Keeps s t)
    (p : Point) : Related some (· = none) (fun s t => Keeps s t ∧ t.Begun) (s.appendPoint p)
      (.ok (t.add p)) := by
  rw [VectorGeometryScratch.appendPoint]
  split
  · exact .gaveUp _ rfl
  · refine .ok ⟨⟨?_, keeps.ends, keeps.start⟩, t.begun_add p⟩
    rw [Drawing.points_add, ← keeps.points]

theorem scratch_simulates : Simulates scratchDrawer drawing (· = none)
    (fun s t => Keeps s t ∧ t.Begun) Keeps where
  fails := rfl
  weaken both := both.1
  pending {s t} both := by
    have same := t.start_lt_iff
    rw [← both.1.points, ← both.1.start] at same
    exact decide_eq_decide.mpr same
  close {s t} both pending := by
    have first : s.points.getD s.start 0 = t.current.headD 0 := by
      rw [both.1.points, both.1.start, Drawing.points, List.getD_append_right _ _ _ _ (le_refl _),
        Nat.sub_self]
      cases t.current <;> rfl
    change Related some (· = none) _ (s.appendPoint (s.points.getD s.start 0))
      (.ok (t.add (t.current.headD 0)))
    rw [first]
    exact both.1.appendPoint _
  refuse {s} n e refused := by
    have given : (if vectorGeometryScratchLimit - s.points.length ≤ n then
      some (none : Option String) else none) = some e := refused
    split at given
    · exact (Option.some.inj given).symm
    · cases given
  accept _ _ := rfl
  turn {s t} both _ := by
    refine ⟨both.1.points.trans t.points_endPath.symm, ?_, ?_⟩
    · change s.ends ++ [s.points.length] = pathEnds 0 (t.done ++ [t.current])
      rw [pathEnds_append, both.1.ends, both.1.points, Nat.zero_add]
      rfl
    · change s.points.length = (t.done ++ [t.current]).flatten.length
      rw [both.1.points, ← t.points_endPath, Drawing.points, Drawing.endPath, List.append_nil]
  add p keeps := keeps.appendPoint p

/-- **One pass draws the paths**, or reports the error, unless it gives up. -/
theorem decode_eq (commands : ValueReader) {result : Except String (List (List Point))}
    (decoded : VectorGeometryScratch.decode ⟨[], [], 0⟩ commands = some result) :
    result = (draw drawing commands 0 ⟨[], []⟩).map Drawing.paths := by
  have drawn := @Simulates.draw _ _ _ _ _ _ _ _ scratch_simulates commands.left commands 0
    ⟨[], [], 0⟩ ⟨[], []⟩ rfl ⟨⟨rfl, rfl, rfl⟩, fun _ => rfl⟩
  rw [VectorGeometryScratch.decode] at decoded
  revert drawn decoded
  generalize draw scratchDrawer commands 0 ⟨[], [], 0⟩ = left
  generalize draw drawing commands 0 ⟨[], []⟩ = right
  rintro decoded (⟨keeps, begun⟩ | message | ⟨-, up⟩)
  · rename_i s t
    dsimp only at decoded
    rw [Except.map, Drawing.paths]
    split at decoded
    · rename_i empty
      rw [keeps.points, List.length_eq_zero_iff, Drawing.points] at empty
      have none := (List.append_eq_nil_iff.mp empty).2
      rw [if_pos none, begun none]
      exact (Option.some.inj decoded).symm
    · rename_i some
      have current : t.current ≠ [] := by
        intro none
        rw [keeps.points, Drawing.points, begun none, none] at some
        exact some rfl
      have cut := slices_pathEnds (t.done ++ [t.current]) []
      have ends : s.endPath.ends = pathEnds 0 (t.done ++ [t.current]) :=
        (scratch_simulates.turn ⟨keeps, begun⟩
          (decide_eq_true (List.length_pos_iff.mpr current))).ends
      rw [if_neg current, ← Option.some.inj decoded, ends, keeps.points, ← t.points_endPath,
        Drawing.points, Drawing.endPath, List.append_nil]
      exact congrArg Except.ok cut
  · exact (Option.some.inj decoded).symm
  · rw [up] at decoded
    cases decoded

/-! ## The passes -/

/-- A pass counts a drawing, and fills memory with as much of it as fits. -/
structure Fills (storing : Bool) (points paths : ℕ) (s : GeometryPass) (t : Drawing) : Prop where
  storing : s.coordinates.isSome = storing ∧ s.paths.isSome = storing
  pointCount : s.pointCount = t.points.length
  pathCount : s.pathCount = t.done.length
  start : s.start = t.done.flatten.length
  first : t.current ≠ [] → s.first = t.current.headD 0
  coordinates : ∀ cs, s.coordinates = some cs →
    cs.length = points ∧ cs.take s.pointCount = t.points.take points
  paths : ∀ ps, s.paths = some ps →
    ps.length = paths ∧ ps.take s.pathCount = (pathRanges 0 t.done).take paths

/-- Setting the next element fills the memory further, if there is room. -/
theorem take_set_next {α : Type} {memory given : List α} {size : ℕ} (length : memory.length = size)
    (filled : memory.take given.length = given.take size) (a : α) :
    (memory.set given.length a).length = size ∧
      (memory.set given.length a).take (given.length + 1) = (given ++ [a]).take size := by
  refine ⟨(List.length_set ..).trans length, ?_⟩
  by_cases room : given.length < size
  · rw [List.take_of_length_le room.le] at filled
    have inside : given.length < (memory.set given.length a).length := by
      rw [List.length_set, length]
      exact room
    have whole : (given ++ [a]).take size = given ++ [a] :=
      List.take_of_length_le (by rw [List.length_append]; exact room)
    rw [whole, ← List.take_concat_get' _ _ inside, List.getElem_set_self,
      List.take_set_of_le (le_refl _), filled]
  · have full : size ≤ given.length := not_lt.mp room
    rw [List.set_eq_of_length_le (by omega), List.take_of_length_le (by omega),
      List.take_append_of_le_length full, ← filled, List.take_of_length_le (by omega)]

theorem Fills.put {storing : Bool} {points paths : ℕ} {s : GeometryPass}
    {t : Drawing} (fills : Fills storing points paths s t)
    {p : Point} (first : s.first = (t.add p).current.headD 0) :
    Fills storing points paths (s.put p) (t.add p) := by
  refine ⟨⟨(Option.isSome_map ..).trans fills.storing.1, fills.storing.2⟩, ?_, fills.pathCount,
    fills.start, fun _ => first, fun cs given => ?_, fills.paths⟩
  · rw [Drawing.points_add, List.length_append, ← fills.pointCount]
    rfl
  · obtain ⟨old, known, rfl⟩ := Option.map_eq_some_iff.mp given
    obtain ⟨length, filled⟩ := fills.coordinates old known
    rw [fills.pointCount] at filled
    have next := take_set_next length filled p
    rw [← fills.pointCount, ← Drawing.points_add] at next
    exact next

theorem Fills.endPath {storing : Bool} {points paths : ℕ} {s : GeometryPass}
    {t : Drawing}
    (fills : Fills storing points paths s t) : Fills storing points paths s.endPath t.endPath := by
  have whole : s.pointCount = t.endPath.done.flatten.length := by
    rw [fills.pointCount, ← t.points_endPath, Drawing.points, Drawing.endPath, List.append_nil]
  refine ⟨⟨fills.storing.1, (Option.isSome_map ..).trans fills.storing.2⟩, ?_, ?_, whole,
    fun some => absurd rfl some, fun cs given => ?_, fun ps given => ?_⟩
  · rw [Drawing.points_endPath]
    exact fills.pointCount
  · rw [Drawing.endPath, List.length_append, ← fills.pathCount]
    rfl
  · rw [Drawing.points_endPath]
    exact fills.coordinates cs given
  · obtain ⟨old, known, rfl⟩ := Option.map_eq_some_iff.mp given
    obtain ⟨length, filled⟩ := fills.paths old known
    have count : s.pathCount = (pathRanges 0 t.done).length :=
      fills.pathCount.trans (length_pathRanges t.done 0).symm
    rw [count] at filled
    have next := take_set_next length filled (s.start, s.pointCount)
    rw [← count] at next
    have range : pathRanges 0 t.endPath.done =
        pathRanges 0 t.done ++ [(s.start, s.pointCount)] := by
      rw [Drawing.endPath, pathRanges_append, fills.start, fills.pointCount, Nat.zero_add,
        Nat.zero_add]
      rfl
    rw [range]
    exact next

theorem Fills.add {storing : Bool} {points paths : ℕ} {s : GeometryPass}
    {t : Drawing} (fills : Fills storing points paths s t)
    (p : Point) : Fills storing points paths
      ({ s with first := if s.pointCount = s.start then p else s.first }.put p) (t.add p) := by
  have begins : s.pointCount = s.start ↔ t.current = [] := by
    rw [fills.pointCount, fills.start, Drawing.points, List.length_append, Nat.add_eq_left,
      List.length_eq_zero_iff]
  have started : Fills storing points paths
      { s with first := if s.pointCount = s.start then p else s.first } t := by
    refine ⟨fills.storing, fills.pointCount, fills.pathCount, fills.start, fun some => ?_,
      fills.coordinates, fills.paths⟩
    exact (if_neg fun same => some (begins.mp same)).trans (fills.first some)
  refine started.put ?_
  by_cases none : t.current = []
  · refine (if_pos (begins.mpr none)).trans ?_
    rw [Drawing.add, none]
    rfl
  · refine (if_neg fun same => none (begins.mp same)).trans ((fills.first none).trans ?_)
    rw [Drawing.add]
    cases current : t.current with
    | nil => exact absurd current none
    | cons first rest => rfl

theorem pass_simulates (storing : Bool) (points paths : ℕ) : Simulates passDrawer drawing (fun _ => False)
    (fun s t => Fills storing points paths s t ∧ t.Begun) (Fills storing points paths) where
  fails := rfl
  weaken both := both.1
  pending {s t} both := by
    have same := t.start_lt_iff
    rw [← both.1.pointCount, ← both.1.start] at same
    exact decide_eq_decide.mpr same
  close {s t} both pending := by
    have some : t.current ≠ [] := List.length_pos_iff.mp (of_decide_eq_true pending)
    have first := both.1.first some
    change Related id (fun _ => False) _ (.ok (s.put s.first)) (.ok (t.add (t.current.headD 0)))
    rw [first]
    refine .ok ⟨both.1.put ?_, t.begun_add _⟩
    rw [first, Drawing.add]
    cases current : t.current with
    | nil => exact absurd current some
    | cons first rest => rfl
  refuse n e refused := by cases refused
  accept _ _ := rfl
  turn both _ := both.1.endPath
  add {s t} p fills := .ok ⟨fills.add p, t.begun_add p⟩

/-- The drawing with its current path among the finished ones. -/
def Drawing.ended (t : Drawing) : Drawing := if t.current = [] then t else t.endPath

/-- **A pass counts and fills** what the commands draw, or reports the error. -/
theorem geometryPass_spec (commands : ValueReader) {storing : Bool} {points paths : ℕ}
    {cs : Option (List Point)} {ps : Option (List (ℕ × ℕ))}
    (given : cs.isSome = storing ∧ ps.isSome = storing) (room : ∀ c, cs = some c → c.length = points)
    (room' : ∀ p, ps = some p → p.length = paths) :
    Related id (fun _ => False) (fun s t => Fills storing points paths s t.ended ∧ t.Begun)
      (geometryPass commands cs ps) (draw drawing commands 0 ⟨[], []⟩) := by
  have empty : Fills storing points paths ⟨0, 0, 0, 0, cs, ps⟩ ⟨[], []⟩ := by
    refine ⟨given, rfl, rfl, rfl, fun some => absurd rfl some, fun c given => ?_,
      fun p given => ?_⟩
    · exact ⟨room c given, (List.take_zero ..).trans (List.take_nil ..).symm⟩
    · exact ⟨room' p given, (List.take_zero ..).trans (List.take_nil ..).symm⟩
  have drawn := @Simulates.draw _ _ _ _ _ _ _ _ (pass_simulates storing points paths)
    commands.left commands 0 _ _ rfl ⟨empty, fun _ => rfl⟩
  rw [geometryPass]
  revert drawn
  generalize draw passDrawer commands 0 ⟨0, 0, 0, 0, cs, ps⟩ = left
  generalize draw drawing commands 0 ⟨[], []⟩ = right
  rintro (⟨fills, begun⟩ | message | ⟨-, up⟩)
  · rename_i s t
    refine .ok ⟨?_, begun⟩
    have same := t.start_lt_iff
    rw [← fills.pointCount, ← fills.start] at same
    rw [Drawing.ended]
    by_cases none : t.current = []
    · rw [if_pos none, if_neg fun going => (List.length_pos_iff.mp (same.mp going)) none]
      exact fills
    · rw [if_neg none, if_pos (same.mpr (List.length_pos_iff.mpr none))]
      exact fills.endPath
  · exact .fail message
  · exact up.elim

theorem Drawing.ended_points (t : Drawing) : t.ended.points = t.points := by
  rw [ended]
  split
  · rfl
  · exact t.points_endPath

theorem Drawing.ended_done (t : Drawing) : t.ended.done = t.paths := by
  rw [ended, paths]
  split
  · rfl
  · rfl

theorem Drawing.flatten_paths (t : Drawing) : t.paths.flatten = t.points := by
  rw [paths]
  split
  · rename_i none
    rw [points, none, List.append_nil]
  · rw [← t.points_endPath, points, endPath, List.append_nil]

/-- **Two passes draw the paths**, or report the error. -/
theorem geometryExact_eq (commands : ValueReader) :
    geometryExact commands = (draw drawing commands 0 ⟨[], []⟩).map Drawing.paths := by
  have sizes := @geometryPass_spec commands false 0 0 none none ⟨rfl, rfl⟩
    (fun _ given => by cases given) (fun _ given => by cases given)
  have filled : ∀ n m : ℕ, _ := fun n m =>
    @geometryPass_spec commands true n m (some (List.replicate n 0)) (some (List.replicate m 0))
      ⟨rfl, rfl⟩ (fun _ given => Option.some.inj given ▸ List.length_replicate ..)
      (fun _ given => Option.some.inj given ▸ List.length_replicate ..)
  rw [geometryExact]
  revert sizes filled
  generalize draw drawing commands 0 ⟨[], []⟩ = right
  generalize geometryPass commands none none = first
  rintro (⟨counts, begun⟩ | message | ⟨-, up⟩) filled
  · rename_i s t
    have pointCount := counts.pointCount
    have pathCount := counts.pathCount
    rw [t.ended_points, ← t.flatten_paths] at pointCount
    rw [t.ended_done] at pathCount
    dsimp only [Except.map]
    by_cases empty : s.pointCount = 0
    · have none : t.points = [] := by
        rw [← t.flatten_paths]
        exact List.eq_nil_of_length_eq_zero (pointCount ▸ empty)
      have none' := (List.append_eq_nil_iff.mp none).2
      rw [if_pos empty, Drawing.paths, if_pos none', begun none']
    · rw [if_neg empty]
      have second := filled s.pointCount s.pathCount
      revert second
      generalize geometryPass commands _ _ = last
      rintro (⟨fills, -⟩ | _ | ⟨-, up⟩)
      · rename_i s'
        obtain ⟨cs, stored⟩ := Option.isSome_iff_exists.mp fills.storing.1
        obtain ⟨ps, stored'⟩ := Option.isSome_iff_exists.mp fills.storing.2
        obtain ⟨length, points⟩ := fills.coordinates cs stored
        obtain ⟨length', ranges⟩ := fills.paths ps stored'
        have count := fills.pointCount
        have count' := fills.pathCount
        rw [t.ended_points, ← t.flatten_paths] at count points
        rw [t.ended_done] at count' ranges
        rw [List.take_of_length_le (by omega), List.take_of_length_le (by omega)] at points
        rw [List.take_of_length_le (by omega),
          List.take_of_length_le (by rw [length_pathRanges]; omega)] at ranges
        have cut := map_pathRanges t.paths []
        dsimp only
        rw [stored, stored', Option.getD_some, Option.getD_some, points, ranges]
        exact congrArg Except.ok cut
      · exact up.elim
  · rfl
  · exact up.elim

/-- **The decoder of geometries does what the exact one does.** -/
theorem geometry_eq_exact (commands : ValueReader) :
    geometry commands = geometryExact commands := by
  rw [geometry]
  cases decoded : VectorGeometryScratch.decode ⟨[], [], 0⟩ commands with
  | none => rfl
  | some result => exact (decode_eq commands decoded).trans (geometryExact_eq commands).symm

end OsmMini.Mobile.Vector

import OsmMini.Core.Pbf.Packed
import OsmMini.Mobile.Vector.Fields

/-!
# Decoding the geometry of a feature

A geometry is a stream of commands. A command for lines or a new path is followed by pairs of
differences, and a closing command repeats the first point of the path.

Ordinary geometries are decoded in one pass into a workspace of limited size. One that might not
fit is decoded in two passes: the first checks the commands and counts points and paths, and the
second fills memory of exactly that size. Both follow the commands in the same way (`draw`) and
differ in what they do with a point (`scratchDrawer`, `passDrawer`).
-/

set_option autoImplicit false

namespace OsmMini.Mobile.Vector

open OsmMini.Core.Pbf

abbrev Point := Int64 × Int64

/-- The largest coordinate. -/
def coordinateLimit : Int64 := 1073741824

/-! ## Following the commands -/

/-- What a decoder does with the commands of a geometry. -/
structure Drawer (σ ε : Type) where
  fail : String → ε
  /-- Whether the current path has points. -/
  pending : σ → Bool
  /-- Repeat the first point of the path. -/
  close : σ → Except ε σ
  /-- Why so many points are not begun with. -/
  refuse : σ → ℕ → Option ε
  /-- End the current path. -/
  turn : σ → σ
  add : σ → Point → Except ε σ

/-- The next two values. -/
def ValueReader.nextPair (r : ValueReader) : Option (UInt64 × UInt64) × ValueReader :=
  let (dx, r) := r.next
  let (dy, r) := r.next
  match dx, dy with
  | some dx, some dy => (some (dx, dy), r)
  | _, _ => (none, r)

theorem ValueReader.left_lt {r r' : ValueReader} {v : UInt64} (read : r.next = (some v, r')) :
    r'.left < r.left := by
  have leaves := r.leaves_next
  rw [read] at leaves
  exact leaves.1

section Draw

variable {σ ε : Type} (d : Drawer σ ε)

/-- Follow the pairs of a command from a point on. -/
def drawPairs (kind : UInt64) : ℕ → ValueReader → Point → σ → Except ε ((Point × σ) × ValueReader)
  | 0, r, at', s => .ok ((at', s), r)
  | n + 1, r, at', s =>
    match r.nextPair with
    | (none, r) => .error (d.fail (r.err.getD "unexpected EOF"))
    | (some (dx, dy), r) =>
      let s := if kind = 1 ∧ d.pending s then d.turn s else s
      let x := at'.1 + zigzagDecode64 dx
      let y := at'.2 + zigzagDecode64 dy
      if x < -coordinateLimit ∨ coordinateLimit < x ∨ y < -coordinateLimit ∨ coordinateLimit < y then
        .error (d.fail "geometry coordinate overflow")
      else
        match d.add s (x, y) with
        | .error e => .error e
        | .ok s => drawPairs kind n r (x, y) s

theorem ValueReader.nextPair_left {r r' : ValueReader} {pair : UInt64 × UInt64}
    (read : r.nextPair = (some pair, r')) : r'.left ≤ r.left := by
  rw [ValueReader.nextPair] at read
  have first := r.leaves_next
  cases here : r.next with
  | mk dx middle =>
      have second := middle.leaves_next
      cases there : middle.next with
      | mk dy last =>
          rw [here] at read first
          dsimp only at read
          rw [there] at read second
          cases dx with
          | none => cases read
          | some dx =>
              cases dy with
              | none => cases read
              | some dy =>
                  cases read
                  exact second.1.le.trans first.1.le

variable {d} in
/-- Following a command takes bytes and adds none. -/
theorem drawPairs_left {kind : UInt64} {n : ℕ} : ∀ {r r' : ValueReader} {at' stop : Point} {s s' : σ},
    drawPairs d kind n r at' s = .ok ((stop, s'), r') → r'.left ≤ r.left := by
  induction n with
  | zero =>
      intro r r' at' stop s s' drawn
      cases drawn
      exact le_refl _
  | succ n ih =>
      intro r r' at' stop s s' drawn
      rw [drawPairs] at drawn
      split at drawn
      · cases drawn
      · rename_i dx dy rest read
        dsimp only at drawn
        split at drawn
        · cases drawn
        · split at drawn
          · cases drawn
          · exact (ih drawn).trans (ValueReader.nextPair_left read)

/-- Follow the commands from a point on. -/
def draw (r : ValueReader) (at' : Point) (s : σ) : Except ε σ :=
  match _read : r.next with
  | (none, r) =>
    match r.err with
    | some err => .error (d.fail err)
    | none => .ok s
  | (some cmd, rest) =>
    let kind := cmd &&& 7
    let count := cmd >>> 3
    if count = 0 ∨ 500000 < count then .error (d.fail "invalid geometry command count")
    else if kind = 7 then
      if count ≠ 1 ∨ d.pending s = false then .error (d.fail "invalid close command")
      else
        match d.close s with
        | .error e => .error e
        | .ok s => draw rest at' s
    else if kind ≠ 1 ∧ kind ≠ 2 then
      .error (d.fail ("unsupported geometry command " ++ toString kind))
    else
      match d.refuse s count.toNat with
      | some e => .error e
      | none =>
        match _drawn : drawPairs d kind count.toNat rest at' s with
        | .error e => .error e
        | .ok ((stop, s), rest) => draw rest stop s
termination_by r.left
decreasing_by
  · exact ValueReader.left_lt _read
  · exact (drawPairs_left _drawn).trans_lt (ValueReader.left_lt _read)

section Equations

variable {d} {r rest : ValueReader} {at' : Point} {s : σ}

theorem draw_none (read : r.next = (none, rest)) :
    draw d r at' s =
      match rest.err with
      | some err => .error (d.fail err)
      | none => .ok s := by
  rw [draw]
  split
  · rename_i same
    rw [read] at same
    cases same
    rfl
  · rename_i same
    rw [read] at same
    cases same

/-- What is done with a command that was read. -/
theorem draw_some {cmd : UInt64} (read : r.next = (some cmd, rest)) :
    draw d r at' s =
      if cmd >>> 3 = 0 ∨ (500000 : UInt64) < cmd >>> 3 then .error (d.fail "invalid geometry command count")
      else if cmd &&& 7 = 7 then
        if cmd >>> 3 ≠ 1 ∨ d.pending s = false then .error (d.fail "invalid close command")
        else
          match d.close s with
          | .error e => .error e
          | .ok s => draw d rest at' s
      else if cmd &&& 7 ≠ 1 ∧ cmd &&& 7 ≠ 2 then
        .error (d.fail ("unsupported geometry command " ++ toString (cmd &&& 7)))
      else
        match d.refuse s (cmd >>> 3).toNat with
        | some e => .error e
        | none =>
          match drawPairs d (cmd &&& 7) (cmd >>> 3).toNat rest at' s with
          | .error e => .error e
          | .ok ((stop, s), rest) => draw d rest stop s := by
  rw [draw]
  split
  · rename_i same
    rw [read] at same
    cases same
  · rename_i same
    rw [read] at same
    cases same
    dsimp only
    split
    · rfl
    · split
      · split
        · rfl
        · cases d.close s <;> rfl
      · split
        · rfl
        · cases d.refuse s (cmd >>> 3).toNat with
          | some e => rfl
          | none =>
              dsimp only
              split
              · rename_i drawn
                rw [drawn]
              · rename_i drawn
                rw [drawn]

end Equations

end Draw

/-! ## One pass -/

/-- How many points the workspace holds. -/
def vectorGeometryScratchLimit : ℕ := 4096

structure VectorGeometryScratch where
  points : List Point
  ends : List ℕ
  /-- Where the current path starts. -/
  start : ℕ

namespace VectorGeometryScratch

/-- Add a point, if there is room. -/
def appendPoint (s : VectorGeometryScratch) (p : Point) :
    Except (Option String) VectorGeometryScratch :=
  if s.points.length = vectorGeometryScratchLimit then .error none
  else .ok { s with points := s.points ++ [p] }

/-- End the current path where the points end. -/
def endPath (s : VectorGeometryScratch) : VectorGeometryScratch :=
  { s with ends := s.ends ++ [s.points.length], start := s.points.length }

end VectorGeometryScratch

/-- Decoding in one pass. It stops without an error when the points might not fit, and leaves
room for a closing point. -/
def scratchDrawer : Drawer VectorGeometryScratch (Option String) where
  fail := some
  pending s := decide (s.start < s.points.length)
  close s := s.appendPoint (s.points.getD s.start 0)
  refuse s count := if vectorGeometryScratchLimit - s.points.length ≤ count then some none else none
  turn := VectorGeometryScratch.endPath
  add := VectorGeometryScratch.appendPoint

/-- The points between the ends of paths. -/
def slices {α : Type} (points : List α) : ℕ → List ℕ → List (List α)
  | _, [] => []
  | start, stop :: ends => (points.take stop).drop start :: slices points stop ends

/-- The paths or an error, unless the points might not fit. -/
def VectorGeometryScratch.decode (s : VectorGeometryScratch) (commands : ValueReader) :
    Option (Except String (List (List Point))) :=
  match draw scratchDrawer commands 0 s with
  | .error none => none
  | .error (some err) => some (.error err)
  | .ok s =>
    if s.points.length = 0 then some (.ok [])
    else some (.ok (slices s.points 0 s.endPath.ends))

/-! ## Two passes -/

/-- What a pass counts and, in the second pass, fills. A path is the part of the coordinates
between two places. -/
structure GeometryPass where
  pointCount : ℕ
  pathCount : ℕ
  start : ℕ
  first : Point
  coordinates : Option (List Point)
  paths : Option (List (ℕ × ℕ))

namespace GeometryPass

/-- Put a point at the end. -/
def put (s : GeometryPass) (p : Point) : GeometryPass :=
  { s with
    coordinates := s.coordinates.map fun coordinates => coordinates.set s.pointCount p
    pointCount := s.pointCount + 1 }

def endPath (s : GeometryPass) : GeometryPass :=
  { s with
    paths := s.paths.map fun paths => paths.set s.pathCount (s.start, s.pointCount)
    pathCount := s.pathCount + 1
    start := s.pointCount }

end GeometryPass

def passDrawer : Drawer GeometryPass String where
  fail := id
  pending s := decide (s.start < s.pointCount)
  close s := .ok (s.put s.first)
  refuse _ _ := none
  turn := GeometryPass.endPath
  add s p := .ok ({ s with first := if s.pointCount = s.start then p else s.first }.put p)

def geometryPass (commands : ValueReader) (coordinates : Option (List Point))
    (paths : Option (List (ℕ × ℕ))) : Except String GeometryPass :=
  match draw passDrawer commands 0 ⟨0, 0, 0, 0, coordinates, paths⟩ with
  | .error err => .error err
  | .ok s => .ok (if s.start < s.pointCount then s.endPath else s)

def geometryExact (commands : ValueReader) : Except String (List (List Point)) :=
  match geometryPass commands none none with
  | .error err => .error err
  | .ok sizes =>
    if sizes.pointCount = 0 then .ok []
    else
      match geometryPass commands (some (List.replicate sizes.pointCount 0))
        (some (List.replicate sizes.pathCount 0)) with
      | .error err => .error err
      | .ok s =>
        .ok ((s.paths.getD []).map fun path => ((s.coordinates.getD []).take path.2).drop path.1)

/-- The workspace is empty again whenever it is used. -/
def geometry (commands : ValueReader) : Except String (List (List Point)) :=
  match VectorGeometryScratch.decode ⟨[], [], 0⟩ commands with
  | none => geometryExact commands
  | some result => result

end OsmMini.Mobile.Vector

import OsmMini.Mobile.Vector.Drawing
import OsmMini.Mobile.Vector.Values

/-!
# What a geometry draws

A geometry means the moves of a pen. Each pair of values is a difference with the sign in the
lowest bit, and the pen goes to the sum of all differences so far, in integers without bounds.

The decoder works with integers of 64 bits, which wrap around. A sum that would leave them wraps
to a number far outside the range of coordinates, so it is refused like any other number out of
range (`toInt_step`). Therefore a decoded geometry is what the pen draws (`drawing_exact`).
-/

set_option autoImplicit false

namespace OsmMini.Mobile.Vector

open OsmMini.Core.Pbf OsmMini.Foundations

/-! ## The pen -/

/-- The difference that a pair of values stands for. -/
def delta (pair : UInt64 × UInt64) : ℤ × ℤ :=
  (Varint.unzigzag pair.1.toNat, Varint.unzigzag pair.2.toNat)

inductive Command
  | moveTo (pairs : List (UInt64 × UInt64))
  | lineTo (pairs : List (UInt64 × UInt64))
  | closePath

/-- The values of a command: its kind and count, and its pairs. -/
def Command.values : Command → List UInt64
  | .moveTo pairs => UInt64.ofNat (8 * pairs.length + 1) :: pairs.flatMap fun p => [p.1, p.2]
  | .lineTo pairs => UInt64.ofNat (8 * pairs.length + 2) :: pairs.flatMap fun p => [p.1, p.2]
  | .closePath => [15]

def Command.deltas : Command → List (ℤ × ℤ)
  | .moveTo pairs => pairs.map delta
  | .lineTo pairs => pairs.map delta
  | .closePath => []

/-- A pen at a position, with the paths it drew. -/
structure Pen where
  position : ℤ × ℤ
  done : List (List (ℤ × ℤ))
  current : List (ℤ × ℤ)

namespace Pen

def line (pen : Pen) (pair : UInt64 × UInt64) : Pen :=
  ⟨pen.position + delta pair, pen.done, pen.current ++ [pen.position + delta pair]⟩

/-- Start a path, unless the current one has no points. -/
def move (pen : Pen) (pair : UInt64 × UInt64) : Pen :=
  if pen.current = [] then pen.line pair
  else line ⟨pen.position, pen.done ++ [pen.current], []⟩ pair

def run (pen : Pen) : Command → Pen
  | .moveTo pairs => pairs.foldl move pen
  | .lineTo pairs => pairs.foldl line pen
  | .closePath => ⟨pen.position, pen.done, pen.current ++ [pen.current.headD 0]⟩

def paths (pen : Pen) : List (List (ℤ × ℤ)) :=
  if pen.current = [] then pen.done else pen.done ++ [pen.current]

end Pen

/-- The paths that commands draw. -/
def drawn (commands : List Command) : List (List (ℤ × ℤ)) :=
  (commands.foldl Pen.run ⟨0, [], []⟩).paths

/-! ## Arithmetic -/

/-- A point as a pair of integers. -/
def toInts (p : Point) : ℤ × ℤ := (p.1.toInt, p.2.toInt)

def InRange (p : ℤ × ℤ) : Prop :=
  (-2 ^ 30 ≤ p.1 ∧ p.1 ≤ 2 ^ 30) ∧ (-2 ^ 30 ≤ p.2 ∧ p.2 ≤ 2 ^ 30)

theorem unzigzag_bounds {u : ℕ} (fits : u < 2 ^ 64) :
    -2 ^ 63 ≤ Varint.unzigzag u ∧ Varint.unzigzag u < 2 ^ 63 := by
  rw [Varint.unzigzag]
  split
  · omega
  · omega

/-- **Wrapping around does not reach the range of coordinates.** -/
theorem toInt_step {a : Int64} {u : UInt64} (small : -2 ^ 30 ≤ a.toInt ∧ a.toInt ≤ 2 ^ 30)
    (accepted : ¬(a + zigzagDecode64 u < -coordinateLimit ∨ coordinateLimit < a + zigzagDecode64 u)) :
    (a + zigzagDecode64 u).toInt = a.toInt + Varint.unzigzag u.toNat ∧
      -2 ^ 30 ≤ (a + zigzagDecode64 u).toInt ∧ (a + zigzagDecode64 u).toInt ≤ 2 ^ 30 := by
  have bounds := unzigzag_bounds u.toNat_lt
  have decoded := zigzagDecode64_eq u.toNat_lt
  rw [UInt64.ofNat_toNat] at decoded
  have delta : (zigzagDecode64 u).toInt = Varint.unzigzag u.toNat := by
    rw [decoded, Int64.toInt_ofInt_of_le (by omega) (by omega)]
  have sum : (a + zigzagDecode64 u).toInt = (a.toInt + Varint.unzigzag u.toNat).bmod (2 ^ 64) := by
    rw [Int64.toInt_add, delta]
  obtain ⟨low, high⟩ := not_or.mp accepted
  rw [Int64.lt_iff_toInt_lt, not_lt] at low high
  have lowest : (-coordinateLimit).toInt = -2 ^ 30 := by decide
  have highest : coordinateLimit.toInt = 2 ^ 30 := by decide
  rw [lowest] at low
  rw [highest] at high
  refine ⟨?_, low, high⟩
  rw [sum] at low high ⊢
  rw [Int.bmod_def] at low high ⊢
  split at low <;> split at high <;> split <;> omega

/-- A command is its kind and its count. -/
theorem command_eq (cmd : UInt64) :
    cmd = UInt64.ofNat (8 * (cmd >>> 3).toNat + (cmd &&& 7).toNat) := by
  have high : (cmd >>> 3).toNat = cmd.toNat / 8 := by
    rw [UInt64.toNat_shiftRight, Nat.shiftRight_eq_div_pow]
    rfl
  have low : (cmd &&& 7).toNat = cmd.toNat % 8 :=
    (UInt64.toNat_and ..).trans (Nat.and_two_pow_sub_one_eq_mod _ 3)
  rw [high, low, Nat.div_add_mod, UInt64.ofNat_toNat]

/-! ## The decoder follows the pen -/

/-- The drawing is what the pen drew, in coordinates. -/
structure Draws (t : Drawing) (at' : Point) (pen : Pen) : Prop where
  position : pen.position = toInts at'
  done : pen.done = t.done.map fun path => path.map toInts
  current : pen.current = t.current.map toInts
  inside : InRange (toInts at')
  points : ∀ p ∈ t.points, InRange (toInts p)

theorem Draws.pending {t : Drawing} {at' : Point} {pen : Pen} (draws : Draws t at' pen) :
    pen.current = [] ↔ t.current = [] := by
  rw [draws.current, List.map_eq_nil_iff]

theorem Draws.endPath {t : Drawing} {at' : Point} {pen : Pen} (draws : Draws t at' pen) :
    Draws t.endPath at' ⟨pen.position, pen.done ++ [pen.current], []⟩ := by
  refine ⟨draws.position, ?_, rfl, draws.inside, ?_⟩
  · rw [Drawing.endPath, List.map_append, ← draws.done, draws.current]
    rfl
  · rw [Drawing.points_endPath]
    exact draws.points

/-- A line to an accepted point. -/
theorem Draws.line {t : Drawing} {at' : Point} {pen : Pen} (draws : Draws t at' pen)
    {dx dy : UInt64}
    (accepted : ¬(at'.1 + zigzagDecode64 dx < -coordinateLimit ∨
      coordinateLimit < at'.1 + zigzagDecode64 dx ∨ at'.2 + zigzagDecode64 dy < -coordinateLimit ∨
        coordinateLimit < at'.2 + zigzagDecode64 dy)) :
    Draws (t.add (at'.1 + zigzagDecode64 dx, at'.2 + zigzagDecode64 dy))
      (at'.1 + zigzagDecode64 dx, at'.2 + zigzagDecode64 dy) (pen.line (dx, dy)) := by
  rw [← or_assoc, not_or] at accepted
  obtain ⟨east, inEast⟩ := toInt_step draws.inside.1 accepted.1
  obtain ⟨north, inNorth⟩ := toInt_step draws.inside.2 accepted.2
  have stop : toInts (at'.1 + zigzagDecode64 dx, at'.2 + zigzagDecode64 dy) =
      pen.position + delta (dx, dy) := by
    rw [draws.position]
    exact Prod.ext east north
  have inside : InRange (toInts (at'.1 + zigzagDecode64 dx, at'.2 + zigzagDecode64 dy)) :=
    ⟨inEast, inNorth⟩
  refine ⟨stop.symm, draws.done, ?_, inside, fun p member => ?_⟩
  · rw [Pen.line, Drawing.add, List.map_append, ← draws.current, List.map_singleton, stop]
  · rw [Drawing.points_add] at member
    rcases List.mem_append.mp member with old | new
    · exact draws.points p old
    · rw [List.mem_singleton.mp new]
      exact inside

/-- The first point of the path is drawn again. -/
theorem Draws.close {t : Drawing} {at' : Point} {pen : Pen} (draws : Draws t at' pen)
    (begun : t.current ≠ []) : Draws (t.add (t.current.headD 0)) at' (pen.run .closePath) := by
  obtain ⟨first, rest, current⟩ := List.exists_cons_of_ne_nil begun
  have known : first ∈ t.points :=
    List.mem_append.mpr (.inr (current ▸ List.mem_cons_self))
  refine ⟨draws.position, draws.done, ?_, draws.inside, fun p member => ?_⟩
  · rw [Pen.run, Drawing.add, draws.current, current]
    exact (List.map_append : ((first :: rest) ++ [first]).map toInts = _).symm
  · rw [Drawing.points_add, current] at member
    rcases List.mem_append.mp member with old | new
    · exact draws.points p old
    · rw [List.mem_singleton.mp new]
      exact draws.points first known

/-- What the pen does with a pair of a command. -/
def penStep (kind : UInt64) : Pen → UInt64 × UInt64 → Pen :=
  if kind = 1 then Pen.move else Pen.line

/-- A pair of a command leads to an accepted point. -/
theorem Draws.step {t : Drawing} {at' : Point} {pen : Pen} (draws : Draws t at' pen)
    (kind : UInt64) {dx dy : UInt64}
    (accepted : ¬(at'.1 + zigzagDecode64 dx < -coordinateLimit ∨
      coordinateLimit < at'.1 + zigzagDecode64 dx ∨ at'.2 + zigzagDecode64 dy < -coordinateLimit ∨
        coordinateLimit < at'.2 + zigzagDecode64 dy)) :
    Draws ((if kind = 1 ∧ drawing.pending t = true then drawing.turn t else t).add
        (at'.1 + zigzagDecode64 dx, at'.2 + zigzagDecode64 dy))
      (at'.1 + zigzagDecode64 dx, at'.2 + zigzagDecode64 dy) (penStep kind pen (dx, dy)) := by
  have pending : drawing.pending t = true ↔ pen.current ≠ [] := by
    refine decide_eq_true_iff.trans ?_
    rw [List.length_pos_iff, Ne, Ne, draws.pending]
  rw [penStep]
  by_cases moves : kind = 1
  · rw [if_pos moves, Pen.move]
    by_cases none : pen.current = []
    · rw [if_pos none, if_neg fun both => pending.mp both.2 none]
      exact draws.line accepted
    · rw [if_neg none, if_pos ⟨moves, pending.mpr none⟩]
      exact draws.endPath.line accepted
  · rw [if_neg moves, if_neg fun both => moves both.1]
    exact draws.line accepted

theorem ValueReader.nextPair_some {r r' : ValueReader} {dx dy : UInt64}
    (read : r.nextPair = (some (dx, dy), r')) :
    ∃ middle, r.next = (some dx, middle) ∧ middle.next = (some dy, r') := by
  rw [ValueReader.nextPair] at read
  cases here : r.next with
  | mk first middle =>
      rw [here] at read
      cases there : middle.next with
      | mk second last =>
          dsimp only at read
          rw [there] at read
          cases first with
          | none => cases read
          | some first =>
              cases second with
              | none => cases read
              | some second =>
                  cases read
                  exact ⟨middle, rfl, there⟩

/-- **The pairs of a command** move the pen. -/
theorem drawPairs_exact {kind : UInt64} {n : ℕ} : ∀ {r r' : ValueReader} {at' stop : Point}
    {t t' : Drawing} {pen : Pen}, Draws t at' pen →
    drawPairs drawing kind n r at' t = .ok ((stop, t'), r') →
    ∃ pairs : List (UInt64 × UInt64), pairs.length = n ∧
      Draws t' stop (pairs.foldl (penStep kind) pen) ∧
      ∀ {values err}, Delivers r' values err →
        Delivers r ((pairs.flatMap fun p => [p.1, p.2]) ++ values) err := by
  induction n with
  | zero =>
      intro r r' at' stop t t' pen draws drawn
      cases drawn
      exact ⟨[], rfl, draws, fun delivers => delivers⟩
  | succ n ih =>
      intro r r' at' stop t t' pen draws drawn
      rw [drawPairs] at drawn
      split at drawn
      · cases drawn
      · rename_i dx dy rest read
        dsimp only at drawn
        split at drawn
        · cases drawn
        · rename_i accepted
          have added := draws.step kind accepted
          obtain ⟨pairs, length, after, delivers⟩ := ih added drawn
          obtain ⟨middle, first, second⟩ := ValueReader.nextPair_some read
          refine ⟨(dx, dy) :: pairs, congrArg (· + 1) length, after, fun later => ?_⟩
          exact ⟨middle, first, rest, second, delivers later⟩

/-- **What was drawn is what the pen draws** at the commands that were read. -/
theorem draw_exact {bytes : ℕ} : ∀ {r : ValueReader} {at' : Point} {t t' : Drawing} {pen : Pen},
    r.left = bytes → Draws t at' pen → draw drawing r at' t = .ok t' →
    ∃ (commands : List Command) (stop : Point),
      Delivers r (commands.flatMap Command.values) none ∧
      Draws t' stop (commands.foldl Pen.run pen) := by
  induction bytes using Nat.strongRecOn with
  | ind bytes ih =>
    intro r at' t t' pen size draws drawn
    cases read : r.next with
    | mk cmd rest =>
    cases cmd with
    | none =>
        rw [draw_none read] at drawn
        cases ended : rest.err with
        | some err =>
            rw [ended] at drawn
            cases drawn
        | none =>
            rw [ended] at drawn
            cases drawn
            exact ⟨[], at', ⟨rest, read, ended⟩, draws⟩
    | some cmd =>
        have shorter : rest.left < bytes := size ▸ ValueReader.left_lt read
        have whole := command_eq cmd
        rw [draw_some read] at drawn
        split at drawn
        · cases drawn
        · split at drawn
          · rename_i closes
            split at drawn
            · cases drawn
            · rename_i allowed
              obtain ⟨single, begun⟩ := not_or.mp allowed
              have closed := draws.close
                (List.length_pos_iff.mp (of_decide_eq_true (Bool.eq_true_of_not_eq_false begun)))
              obtain ⟨commands, stop, delivers, after⟩ := ih _ shorter rfl closed drawn
              refine ⟨.closePath :: commands, stop, ?_, after⟩
              rw [closes, not_not.mp single] at whole
              rw [whole] at read
              exact ⟨rest, read, delivers⟩
          · split at drawn
            · cases drawn
            · rename_i known
              dsimp only [drawing] at drawn
              split at drawn
              · cases drawn
              · rename_i stop t'' rest' pairsDrawn
                obtain ⟨pairs, length, moved, delivered⟩ := drawPairs_exact draws pairsDrawn
                have fewer := (drawPairs_left pairsDrawn).trans_lt shorter
                obtain ⟨commands, stop', delivers, after⟩ := ih _ fewer rfl moved drawn
                rw [← length] at whole
                by_cases moves : cmd &&& 7 = 1
                · refine ⟨.moveTo pairs :: commands, stop', ?_, ?_⟩
                  · rw [moves] at whole
                    exact ⟨rest, whole ▸ read, delivered delivers⟩
                  · rw [penStep, if_pos moves] at after
                    exact after
                · have lines : cmd &&& 7 = 2 := by
                    by_contra other
                    exact known ⟨moves, other⟩
                  refine ⟨.lineTo pairs :: commands, stop', ?_, ?_⟩
                  · rw [lines] at whole
                    exact ⟨rest, whole ▸ read, delivered delivers⟩
                  · rw [penStep, if_neg moves] at after
                    exact after

/-! ## Sums of differences -/

/-- The pen is at the sum of all differences, and drew to sums of the first of them. -/
structure Sums (deltas : List (ℤ × ℤ)) (pen : Pen) : Prop where
  position : pen.position = deltas.sum
  done : ∀ path ∈ pen.done, ∀ p ∈ path, ∃ k, p = (deltas.take k).sum
  current : ∀ p ∈ pen.current, ∃ k, p = (deltas.take k).sum

theorem sum_take_append {deltas more : List (ℤ × ℤ)} {p : ℤ × ℤ}
    (sum : ∃ k, p = (deltas.take k).sum) : ∃ k, p = ((deltas ++ more).take k).sum := by
  obtain ⟨k, rfl⟩ := sum
  refine ⟨min k deltas.length, ?_⟩
  rw [List.take_append_of_le_length (min_le_right ..), ← List.take_eq_take_min]

namespace Sums

variable {deltas : List (ℤ × ℤ)} {pen : Pen}

theorem line (sums : Sums deltas pen) (pair : UInt64 × UInt64) :
    Sums (deltas ++ [delta pair]) (pen.line pair) := by
  have position : pen.position + delta pair = (deltas ++ [delta pair]).sum := by
    rw [List.sum_append, List.sum_singleton, ← sums.position]
  refine ⟨position, fun path member p inside => sum_take_append (sums.done path member p inside),
    fun p member => ?_⟩
  rcases List.mem_append.mp member with old | new
  · exact sum_take_append (sums.current p old)
  · rw [List.mem_singleton.mp new, position]
    exact ⟨_, congrArg List.sum (List.take_length ..).symm⟩

theorem endPath (sums : Sums deltas pen) :
    Sums deltas ⟨pen.position, pen.done ++ [pen.current], []⟩ := by
  refine ⟨sums.position, fun path member => ?_, fun p none => absurd none List.not_mem_nil⟩
  rcases List.mem_append.mp member with old | new
  · exact sums.done path old
  · rw [List.mem_singleton.mp new]
    exact sums.current

theorem move (sums : Sums deltas pen) (pair : UInt64 × UInt64) :
    Sums (deltas ++ [delta pair]) (pen.move pair) := by
  rw [Pen.move]
  split
  · exact sums.line pair
  · exact sums.endPath.line pair

theorem foldl {step : Pen → UInt64 × UInt64 → Pen}
    (keeps : ∀ {deltas pen}, Sums deltas pen → ∀ pair, Sums (deltas ++ [delta pair]) (step pen pair))
    {pairs : List (UInt64 × UInt64)} : ∀ {deltas : List (ℤ × ℤ)} {pen : Pen}, Sums deltas pen →
      Sums (deltas ++ pairs.map delta) (pairs.foldl step pen) := by
  induction pairs with
  | nil =>
      intro deltas pen sums
      rw [List.map_nil, List.append_nil]
      exact sums
  | cons pair pairs ih =>
      intro deltas pen sums
      rw [List.map_cons, List.append_cons]
      exact ih (keeps sums pair)

theorem run (sums : Sums deltas pen) (command : Command) :
    Sums (deltas ++ command.deltas) (pen.run command) := by
  cases command with
  | moveTo pairs => exact foldl (fun sums => sums.move) sums
  | lineTo pairs => exact foldl (fun sums => sums.line) sums
  | closePath =>
      rw [Command.deltas, List.append_nil]
      refine ⟨sums.position, sums.done, fun p member => ?_⟩
      rcases List.mem_append.mp member with old | new
      · exact sums.current p old
      · rw [List.mem_singleton.mp new]
        cases current : pen.current with
        | nil => exact ⟨0, rfl⟩
        | cons first rest => exact sums.current first (current ▸ List.mem_cons_self)

theorem runs {commands : List Command} : ∀ {deltas : List (ℤ × ℤ)} {pen : Pen}, Sums deltas pen →
    Sums (deltas ++ commands.flatMap Command.deltas) (commands.foldl Pen.run pen) := by
  induction commands with
  | nil =>
      intro deltas pen sums
      rw [List.flatMap_nil, List.append_nil]
      exact sums
  | cons command commands ih =>
      intro deltas pen sums
      rw [List.flatMap_cons, ← List.append_assoc]
      exact ih (sums.run command)

end Sums

/-- **Every point that commands draw is a sum** of their first differences. -/
theorem mem_drawn {commands : List Command} {path : List (ℤ × ℤ)} {p : ℤ × ℤ}
    (member : path ∈ drawn commands) (inside : p ∈ path) :
    ∃ k, p = ((commands.flatMap Command.deltas).take k).sum := by
  have sums : Sums [] ⟨0, [], []⟩ := ⟨rfl, fun _ none => absurd none List.not_mem_nil,
    fun _ none => absurd none List.not_mem_nil⟩
  have all : Sums ([] ++ commands.flatMap Command.deltas) (commands.foldl Pen.run ⟨0, [], []⟩) :=
    sums.runs
  rw [List.nil_append] at all
  rw [drawn, Pen.paths] at member
  split at member
  · exact all.done path member p inside
  · exact all.endPath.done path member p inside

/-! ## The decoder -/

/-- **A decoded geometry is what its commands draw**, within the range of coordinates. -/
theorem geometry_exact {commands : ValueReader} {paths : List (List Point)}
    (decoded : geometry commands = .ok paths) : ∃ cs : List Command,
      Delivers commands (cs.flatMap Command.values) none ∧
      paths.map (fun path => path.map toInts) = drawn cs ∧
      ∀ path ∈ paths, ∀ p ∈ path, InRange (toInts p) ∧
        ∃ k, toInts p = ((cs.flatMap Command.deltas).take k).sum := by
  rw [geometry_eq_exact, geometryExact_eq] at decoded
  cases result : draw drawing commands 0 ⟨[], []⟩ with
  | error err =>
      rw [result] at decoded
      cases decoded
  | ok t =>
      rw [result] at decoded
      cases decoded
      have start : Draws ⟨[], []⟩ 0 ⟨0, [], []⟩ :=
        ⟨rfl, rfl, rfl, ⟨by decide, by decide⟩, fun _ none => absurd none List.not_mem_nil⟩
      obtain ⟨cs, stop, delivers, draws⟩ := draw_exact rfl start result
      have same : t.paths.map (fun path => path.map toInts) = drawn cs := by
        rw [drawn, Pen.paths, Drawing.paths]
        by_cases none : t.current = []
        · rw [if_pos none, if_pos (draws.pending.mpr none), draws.done]
        · rw [if_neg none, if_neg fun empty => none (draws.pending.mp empty), draws.done,
            draws.current, Drawing.endPath, List.map_append]
          rfl
      refine ⟨cs, delivers, same, fun path member p inside => ⟨?_, ?_⟩⟩
      · refine draws.points p ?_
        rw [← t.flatten_paths]
        exact List.mem_flatten.mpr ⟨path, member, inside⟩
      · exact mem_drawn (same ▸ List.mem_map_of_mem member) (List.mem_map_of_mem inside)

/-- **The geometry of a feature has one meaning.** Both decoders return the same paths or the
same error. The points of the paths are the exact sums of the differences and in range. And a
reader delivers the values of its field, however they were distributed over the message. -/
theorem vectorGeometry_meaning :
    (∀ commands : ValueReader, geometry commands = geometryExact commands) ∧
    (∀ (commands : ValueReader) (paths : List (List Point)), geometry commands = .ok paths →
      ∃ cs : List Command, Delivers commands (cs.flatMap Command.values) none ∧
        paths.map (fun path => path.map toInts) = drawn cs ∧
        ∀ path ∈ paths, ∀ p ∈ path, InRange (toInts p) ∧
          ∃ k, toInts p = ((cs.flatMap Command.deltas).take k).sum) ∧
    ∀ (message : List UInt8) (fields : List Field) (number : ℕ) (values : List UInt64),
      Scans ⟨message, 0, none⟩ fields → Hold number fields values →
      Delivers
        (newValueReader (lastField number fields).1 (lastField number fields).2 number message)
        (values.take readerLimit) (limitError values.length) := by
  refine ⟨geometry_eq_exact, fun commands paths decoded => geometry_exact decoded, ?_⟩
  exact fun message fields number values scans holds => delivers_values scans holds

/-- A message whose geometry is one point. -/
theorem vectorGeometry_meaning_point :
    let message : List UInt8 := [0x22, 3, 9, 4, 4]
    let fields : List Field := [⟨4, 2, 0, some [9, 4, 4]⟩]
    let reader := newValueReader (lastField 4 fields).1 (lastField 4 fields).2 4 message
    (geometry reader = geometryExact reader) ∧ geometry reader = .ok [[(2, 2)]] ∧
      (∃ cs : List Command, Delivers reader (cs.flatMap Command.values) none ∧
        [[(2, 2)]] = drawn cs) ∧
      Scans ⟨message, 0, none⟩ fields ∧ Hold 4 fields [9, 4, 4] ∧
      Delivers reader [9, 4, 4] none := by
  intro message fields reader
  have drawnPoint : (geometry reader).toOption = some [[(2, 2)]] := by decide +kernel
  have decoded : geometry reader = .ok [[(2, 2)]] := by
    cases result : geometry reader with
    | error err =>
        rw [result] at drawnPoint
        cases drawnPoint
    | ok paths =>
        rw [result] at drawnPoint
        exact congrArg Except.ok (Option.some.inj drawnPoint)
  have scans : Scans ⟨message, 0, none⟩ fields :=
    ⟨⟨[], 1, none⟩, rfl, ⟨[], 1, none⟩, rfl, rfl⟩
  have holds : Hold 4 fields [9, 4, 4] := by
    refine (if_neg (by decide)).mpr ⟨[9, 4, 4], [], rfl, .inl ⟨rfl, ?_⟩, rfl⟩
    exact ⟨9, 1, by decide, rfl, 4, 1, by decide, rfl, 4, 1, by decide, rfl, rfl⟩
  obtain ⟨cs, delivers, same, -⟩ := vectorGeometry_meaning.2.1 reader _ decoded
  exact ⟨vectorGeometry_meaning.1 reader, decoded, ⟨cs, delivers, same⟩, scans, holds,
    vectorGeometry_meaning.2.2 message fields 4 [9, 4, 4] scans holds⟩

end OsmMini.Mobile.Vector

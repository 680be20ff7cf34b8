import OsmMini.Foundations.Bits
import OsmMini.Foundations.CostTable

/-!
# The exact order of a trip

A trip starts at one node, visits every stop and ends at another node. A stop may
require others before it: its prerequisites, as a mask over the stops. `tspExact` finds
a cheapest order by a dynamic program over the sets of visited stops.

The table has one cell for each set and each stop of it, the last one visited. It keeps
costs only; the order is recovered afterwards by looking for a predecessor whose cost
and leg add up to the cost of the cell.
-/

set_option autoImplicit false

namespace OsmMini.Cmd

open OsmMini.Foundations

/-! ## Prerequisites -/

/-- The first stop that is not visited and has its prerequisites visited. -/
def nextUnlocked (n : ℕ) (pre : List ℕ) (visited : ℕ) : Option ℕ :=
  (List.range n).find? fun i =>
    visited &&& 2 ^ i = 0 ∧ visited &&& pre.getD i 0 = pre.getD i 0

/-- Visit stops one after the other, as many as `count`. -/
def unlockAll (n : ℕ) (pre : List ℕ) : ℕ → ℕ → Except String Unit
  | 0, _ => .ok ()
  | count + 1, visited =>
    match nextUnlocked n pre visited with
    | none => .error "tsp: dependency cycle or invalid prerequisite"
    | some i => unlockAll n pre count (visited ||| 2 ^ i)

def validateTSP (n : ℕ) (pre : List ℕ) (maxStops : ℕ) : Except String Unit :=
  if maxStops < n ∨ pre.length ≠ n then .error "tsp: invalid stop or dependency count"
  else unlockAll n pre n 0

/-! ## The dynamic program -/

/-- The sentinel for unreachable legs: a quarter of the largest float. -/
def unreachable : ℚ := (2 ^ 1024 - 2 ^ 971) / 4

/-- The costs of the legs between the start, the stops and the end. -/
structure LegCosts where
  costStart : ℕ → ℚ
  costEnd : ℕ → ℚ
  costBetween : ℕ → ℕ → ℚ

/-- The price of a leg. `cost` routes from one node to another, and has no result where
there is no route. -/
def legCost (cost : Int64 → Int64 → Option ℚ) (fromNode toNode : Int64) : ℚ :=
  (cost fromNode toNode).getD unreachable

/-- The legs of a trip. The price of a leg depends on its two nodes only. -/
def legCosts (cost : Int64 → Int64 → Option ℚ) (startNode endNode : Int64)
    (stops : List Int64) : LegCosts where
  costStart i := legCost cost startNode (stops.getD i 0)
  costEnd i := legCost cost (stops.getD i 0) endNode
  costBetween i j :=
    if i = j then unreachable else legCost cost (stops.getD i 0) (stops.getD j 0)

section Table

variable (n : ℕ) (pre : List ℕ) (legs : LegCosts)

/-- The cells before the row of a mask, as a 32-bit number. -/
def offsets (mask : ℕ) : ℕ := Bits.offset mask % 2 ^ 32

/-- The cell of a set of visited stops and the last one of them. -/
def stateIndex (mask last : ℕ) : ℕ :=
  let lower := 2 ^ last - 1
  offsets mask + Bits.onesCount (mask &&& lower)

/-- The cost in a cell. -/
def tableCost (dp : List ℚ) (index : ℕ) : ℚ := dp.getD index unreachable

/-- The table with the stops that can be visited first. -/
def initialTable : List ℚ :=
  (List.range n).foldl
    (fun dp i =>
      if pre.getD i 0 = 0 ∧ legs.costStart i < unreachable then
        dp.set (stateIndex (2 ^ i) i) (legs.costStart i)
      else dp)
    (List.replicate (Bits.offset (2 ^ n)) unreachable)

/-- Go on from the sets that visit the stops of a mask. The row of the mask is walked in
ascending order of the last stop; rows without a cost are skipped, and the stops that
may come next, with their cells, depend on the mask only. -/
def expandMask (dp : List ℚ) (m : ℕ) : List ℚ :=
  let row := m.bitIndices.zipIdx (offsets m)
  let remaining := row.dropWhile fun entry => unreachable ≤ tableCost dp entry.2
  if remaining = [] then dp
  else
    let eligible := (Bits.andNot (2 ^ n - 1) m).bitIndices.filter fun nxt =>
      m &&& pre.getD nxt 0 = pre.getD nxt 0
    let nextState nxt := stateIndex (m ||| 2 ^ nxt) nxt
    if eligible = [] then dp
    else remaining.foldl
      (fun dp entry =>
        let current := tableCost dp entry.2
        if unreachable ≤ current then dp
        else eligible.foldl
          (fun dp nxt => CostTable.lower unreachable dp (nextState nxt)
            (current + legs.costBetween entry.1 nxt))
          dp)
      dp

/-- The table of least costs. -/
def solveTable : List ℚ :=
  (List.range (2 ^ n)).foldl (expandMask n pre legs) (initialTable n pre legs)

/-- The last stop of a cheapest order, and its cost to the end of the trip. -/
def bestLast (dp : List ℚ) : ℚ × Option ℕ :=
  (List.range n).foldl
    (fun best last =>
      let reached := tableCost dp (stateIndex (2 ^ n - 1) last)
      if unreachable ≤ reached ∨ unreachable ≤ legs.costEnd last then best
      else if reached + legs.costEnd last < best.1 then (reached + legs.costEnd last, some last)
      else best)
    (unreachable, none)

/-- Recover an order backwards from its last stop: each predecessor is the first one
whose cost and leg add up. A set of `rounds` stops has that many rounds. -/
def recoverOrder (dp : List ℚ) : ℕ → ℕ → ℕ → List ℕ → Except String (List ℕ)
  | 0, _, _, _ => .error "tsp: missing predecessor for feasible order"
  | rounds + 1, m, cur, order =>
    let previousMask := Bits.andNot m (2 ^ cur)
    if previousMask = 0 then .ok (cur :: order)
    else
      match previousMask.bitIndices.find? fun p =>
          tableCost dp (stateIndex previousMask p) + legs.costBetween p cur =
            tableCost dp (stateIndex m cur) with
      | none => .error "tsp: missing predecessor for feasible order"
      | some previous => recoverOrder dp rounds previousMask previous (cur :: order)

end Table

/-- A cheapest order of the stops. The stops are given by their nodes. -/
def tspExact (cost : Int64 → Int64 → Option ℚ) (startNode endNode : Int64) (stops : List Int64)
    (pre : List ℕ) : Except String (List ℕ) :=
  let n := stops.length
  match validateTSP n pre 16 with
  | .error err => .error err
  | .ok () =>
    if n = 0 then .ok []
    else
      let legs := legCosts cost startNode endNode stops
      let dp := solveTable n pre legs
      match (bestLast n legs dp).2 with
      | none => .error "tsp: no feasible order (unreachable legs or dependency cycle)"
      | some last => recoverOrder legs dp n (2 ^ n - 1) last []

end OsmMini.Cmd

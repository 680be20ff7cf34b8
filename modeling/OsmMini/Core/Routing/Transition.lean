import OsmMini.Core.Routing.Options

/-!
# Transitions at a node

A turn-aware search pays for the way it crosses a node: a crossing at a node with
more than two outgoing edges, and a left turn, a right turn or a U-turn. A
`RouteTransition` holds what all outgoing edges of one expansion share.

How a turn is classified from bearings is a parameter: the searches only need that
the kind of a turn depends on the three nodes it passes.
-/

set_option autoImplicit false
set_option linter.unusedSectionVars false

namespace OsmMini.Core

/-- How a route turns at a node. -/
inductive TurnKind where
  | straight
  | left
  | right
  | uTurn
  deriving DecidableEq, Repr

variable {K : Type*} [Field K] [LinearOrder K] [IsStrictOrderedRing K]

/-- The cost of a left turn where left turns are forbidden. -/
def noLeftTurnPenalty : K := 1000000

/-- What the outgoing edges of one expansion share. -/
structure RouteTransition (K : Type*) where
  weights : ProWeights K
  crossing : K
  turnDirections : Bool
  previousID : Int64
  currentID : Int64

/-- The transition from `prev` to the edges out of `cur`. The ID zero stands for the
start of a route, where nothing is crossed and nothing turns. -/
def RouteEvaluator.prepareTransition (eval : RouteEvaluator K) (g : Graph K) (prev cur : Int64) :
    RouteTransition K :=
  if prev = 0 then
    { weights := eval.options.weights, crossing := 0, turnDirections := false
      previousID := 0, currentID := cur }
  else
    { weights := eval.options.weights
      crossing := if 0 < eval.crossingPenalty ∧ 2 < g.degree cur then eval.crossingPenalty else 0
      turnDirections := eval.turnDirections && (g.coord prev).isSome && (g.coord cur).isSome
      previousID := prev
      currentID := cur }

namespace RouteTransition

variable (transition : RouteTransition K)

def penaltyKind (kind : TurnKind) : K :=
  match kind with
  | .left => transition.crossing +
      if transition.weights.noLeftTurn then noLeftTurnPenalty else transition.weights.leftTurn
  | .right => transition.crossing + transition.weights.rightTurn
  | .uTurn => transition.crossing + transition.weights.uTurn
  | .straight => transition.crossing

/-- The cost of going on to `next`. Without turn directions, and where `next` has no
coordinate, only the crossing is paid. -/
def penalty (g : Graph K) (turnKind : Int64 → Int64 → Int64 → TurnKind) (next : Int64) : K :=
  if !transition.turnDirections then transition.crossing
  else match g.coord next with
    | none => transition.crossing
    | some _ => transition.penaltyKind
        (turnKind transition.previousID transition.currentID next)

end RouteTransition

/-! ## The penalty of a triple -/

/-- No turn of a request is rewarded. -/
structure ProWeights.NonnegTurns (w : ProWeights K) : Prop where
  leftTurn : 0 ≤ w.leftTurn
  rightTurn : 0 ≤ w.rightTurn
  uTurn : 0 ≤ w.uTurn

section Triple

variable (g : Graph K) (eval : RouteEvaluator K) (turnKind : Int64 → Int64 → Int64 → TurnKind)

/-- The cost of the crossing at a node that a route passes. -/
def crossingCost (cur : Int64) : K :=
  if 0 < eval.crossingPenalty ∧ 2 < g.degree cur then eval.crossingPenalty else 0

/-- The cost of a turn of some kind. -/
def turnCost (w : ProWeights K) : TurnKind → K
  | .straight => 0
  | .left => if w.noLeftTurn then noLeftTurnPenalty else w.leftTurn
  | .right => w.rightTurn
  | .uTurn => w.uTurn

/-- The transition penalty of three consecutive nodes of a route: the crossing, and
the turn when turns are priced and all three nodes have coordinates. -/
def transitionPenalty (prev cur next : Int64) : K :=
  crossingCost g eval cur +
    if eval.turnDirections ∧ (g.coord prev).isSome ∧ (g.coord cur).isSome ∧ (g.coord next).isSome
    then turnCost eval.options.weights (turnKind prev cur next) else 0

variable {g eval turnKind}

theorem penaltyKind_eq (transition : RouteTransition K) (kind : TurnKind) :
    transition.penaltyKind kind = transition.crossing + turnCost transition.weights kind := by
  cases kind <;> simp [RouteTransition.penaltyKind, turnCost]

/-- At the start of a route no penalty is paid. -/
theorem penalty_start (cur next : Int64) :
    (eval.prepareTransition g 0 cur).penalty g turnKind next = 0 := by
  simp [RouteEvaluator.prepareTransition, RouteTransition.penalty]

/-- **Past its first edge a route pays the penalty of the triple it passes.** -/
theorem penalty_interior {prev cur next : Int64} (interior : prev ≠ 0) :
    (eval.prepareTransition g prev cur).penalty g turnKind next =
      transitionPenalty g eval turnKind prev cur next := by
  simp only [RouteEvaluator.prepareTransition, if_neg interior, RouteTransition.penalty,
    transitionPenalty, crossingCost, penaltyKind_eq]
  cases priced : eval.turnDirections && (g.coord prev).isSome && (g.coord cur).isSome with
  | false =>
      have missing : ¬ (eval.turnDirections = true ∧ (g.coord prev).isSome = true ∧
          (g.coord cur).isSome = true ∧ (g.coord next).isSome = true) := by
        rintro ⟨directions, first, second, -⟩
        rw [directions, first, second] at priced
        cases priced
      rw [if_neg missing, add_zero]
      rfl
  | true =>
      obtain ⟨⟨directions, first⟩, second⟩ : (eval.turnDirections = true ∧
          (g.coord prev).isSome = true) ∧ (g.coord cur).isSome = true := by
        simpa only [Bool.and_eq_true] using priced
      cases third : g.coord next <;> simp [directions, first, second]

theorem crossingCost_nonneg (cur : Int64) : 0 ≤ crossingCost g eval cur := by
  unfold crossingCost
  split_ifs with crossing
  · exact crossing.1.le
  · exact le_refl _

theorem turnCost_nonneg {w : ProWeights K} (turns : w.NonnegTurns) (kind : TurnKind) :
    0 ≤ turnCost w kind := by
  cases kind with
  | straight => exact le_refl _
  | left =>
      unfold turnCost noLeftTurnPenalty
      split_ifs
      · norm_num
      · exact turns.leftTurn
  | right => exact turns.rightTurn
  | uTurn => exact turns.uTurn

theorem transitionPenalty_nonneg (turns : eval.options.weights.NonnegTurns)
    (prev cur next : Int64) : 0 ≤ transitionPenalty g eval turnKind prev cur next := by
  refine add_nonneg (crossingCost_nonneg cur) ?_
  split_ifs
  · exact turnCost_nonneg turns _
  · exact le_refl _

end Triple

end OsmMini.Core

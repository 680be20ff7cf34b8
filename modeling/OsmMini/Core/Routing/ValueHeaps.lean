import OsmMini.Core.Routing.NodeSearch
import OsmMini.Core.Routing.TurnSearch
import OsmMini.Foundations.BinaryHeap

/-!
# The queues of the searches

A search over nodes and a search over turns queue their candidates by value, each in a heap of its
own. Pushing and popping carry the new or the last element along and move a hole, so that no
element is written before its place is known.

Both are priority queues: in every run of pushes and pops of a queue that is not empty, the heap
order holds, a pop returns a candidate of least priority, and no candidate is lost or kept twice
(`valueHeaps_priorityQueues`).
-/

set_option autoImplicit false

namespace OsmMini.Core

open OsmMini.Foundations

section Heaps

variable {ID K : Type*} [LinearOrder K]

/-- The queue of a search over nodes. -/
abbrev NodeValueHeap (ID K : Type*) := List (NodeCandidate ID K)

namespace NodeValueHeap

def push (h : NodeValueHeap ID K) (v : NodeCandidate ID K) : NodeValueHeap ID K :=
  BinaryHeap.push NodeCandidate.priority h v

def pop (h : NodeValueHeap ID K) : Option (NodeCandidate ID K × NodeValueHeap ID K) :=
  BinaryHeap.pop NodeCandidate.priority h

end NodeValueHeap

/-- The queue of a search over turns. -/
abbrev RouteValueHeap (K : Type*) := List (PqItem K)

namespace RouteValueHeap

def push (h : RouteValueHeap K) (v : PqItem K) : RouteValueHeap K := BinaryHeap.push PqItem.f h v

def pop (h : RouteValueHeap K) : Option (PqItem K × RouteValueHeap K) := BinaryHeap.pop PqItem.f h

end RouteValueHeap

end Heaps

/-- **The search heaps are priority queues.** -/
theorem valueHeaps_priorityQueues (ID K : Type*) [LinearOrder K] :
    BinaryHeap.IsPriorityQueue NodeCandidate.priority (@NodeValueHeap.push ID K _)
      NodeValueHeap.pop ∧
    BinaryHeap.IsPriorityQueue PqItem.f (@RouteValueHeap.push K _) RouteValueHeap.pop :=
  ⟨BinaryHeap.isPriorityQueue NodeCandidate.priority, BinaryHeap.isPriorityQueue PqItem.f⟩

/-- Candidates of equal priority are popped one after the other. -/
example : (BinaryHeap.runQueue NodeValueHeap.push NodeValueHeap.pop
      [.push ⟨1, 0, 5⟩, .push ⟨2, 0, 3⟩, .push ⟨3, 0, 3⟩, .pop, .pop, .pop]
      (([], []) : NodeValueHeap ℕ ℕ × List (NodeCandidate ℕ ℕ))).map
        (fun s => s.2.map NodeCandidate.priority) = some [3, 3, 5] := by
  decide +kernel

end OsmMini.Core

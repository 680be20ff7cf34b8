import OsmMini.Foundations.Int64Order

/-!
# Coordinates, edges and graphs

The data that routing reads. Numbers are a parameter: a file stores the bits of a
float, and the searches are stated in exact arithmetic over an ordered field.

A graph answers three questions about a node ID: where it is, which edges leave it
and how many they are. `MemoryGraph` answers them from two maps.
-/

set_option autoImplicit false

namespace OsmMini.Core

/-- A Go map: finitely many keys, each with one value. -/
abbrev GoMap (α β : Type*) := AList fun _ : α => β

/-- A map literal: a later entry replaces an earlier one of the same key. -/
def GoMap.ofList {α β : Type*} [DecidableEq α] (entries : List (α × β)) : GoMap α β :=
  entries.foldl (fun m entry => m.insert entry.1 entry.2) ∅

/-- WGS84 coordinates. -/
structure Coord (K : Type*) where
  lat : K
  lon : K
  deriving DecidableEq, Repr

/-- A directed road segment. -/
structure Edge (K : Type*) where
  toID : Int64
  distM : K
  speedKph : K
  maxHeightM : K
  maxWeightT : K
  /-- OSM highway tag value, such as `residential`. -/
  hwyType : String
  deriving DecidableEq, Repr

section Numbers

variable {K L : Type*} (num : K → L)

/-- A coordinate with its numbers read in another way. -/
def Coord.map (c : Coord K) : Coord L := ⟨num c.lat, num c.lon⟩

/-- An edge with its numbers read in another way. -/
def Edge.map (e : Edge K) : Edge L where
  toID := e.toID
  distM := num e.distM
  speedKph := num e.speedKph
  maxHeightM := num e.maxHeightM
  maxWeightT := num e.maxWeightT
  hwyType := e.hwyType

end Numbers

/-- What routing reads of a road graph, whichever way it is stored. -/
structure Graph (K : Type*) where
  coord : Int64 → Option (Coord K)
  edges : Int64 → List (Edge K)
  degree : Int64 → ℕ

/-- A road graph held in two maps. -/
structure MemoryGraph (K : Type*) where
  coords : GoMap Int64 (Coord K)
  adj : GoMap Int64 (List (Edge K))

namespace MemoryGraph

variable {K : Type*}

/-- The methods of a graph without a store: a node that has no entry in the
adjacency map has no edges. -/
def toGraph (m : MemoryGraph K) : Graph K where
  coord id := m.coords.lookup id
  edges id := (m.adj.lookup id).getD []
  degree id := ((m.adj.lookup id).getD []).length

/-- The nodes an edge of the graph leaves or enters. -/
def endpoints (m : MemoryGraph K) : List Int64 :=
  m.adj.entries.flatMap fun entry => entry.1 :: entry.2.map Edge.toID

theorem mem_endpoints {m : MemoryGraph K} {u : Int64} {e : Edge K} (edge : e ∈ m.toGraph.edges u) :
    u ∈ m.endpoints ∧ e.toID ∈ m.endpoints := by
  simp only [toGraph] at edge
  cases found : m.adj.lookup u with
  | none => simp [found] at edge
  | some es =>
      rw [found, Option.getD_some] at edge
      have entry : (⟨u, es⟩ : Sigma fun _ : Int64 => List (Edge K)) ∈ m.adj.entries :=
        AList.mem_lookup_iff.mp found
      exact ⟨List.mem_flatMap.mpr ⟨_, entry, List.mem_cons_self ..⟩,
        List.mem_flatMap.mpr ⟨_, entry, List.mem_cons_of_mem _ (List.mem_map_of_mem edge)⟩⟩

end MemoryGraph

end OsmMini.Core

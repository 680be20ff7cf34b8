import OsmMini.Core.Snap.Router

/-!
# What a scan keeps

After any scan of nodes the best node is one of those seen, and none of them is closer
(`Leads`). A cell of the grid lists the nodes that lie in it (`bucket_index`), so that a scan
of a ring sees the nodes at its distance from the centre.
-/

set_option autoImplicit false

namespace OsmMini.Core.Snap

open Foundations Foundations.GreatCircle

/-- A node with its coordinate. -/
abbrev Entry := Sigma fun _ : Int64 => Coord ℝ

/-! ## Distances -/

theorem deg2rad_sub (a b : ℝ) : deg2rad (a - b) = deg2rad a - deg2rad b := by
  unfold deg2rad
  ring

/-- The distance is the angle between the two points, on the scale of the Earth. -/
theorem haversineMeters_eq (lat1 lon1 lat2 lon2 : ℝ) :
    haversineMeters lat1 lon1 lat2 lon2 =
      6371000 * centralAngle (deg2rad lat1) (deg2rad lat2) (deg2rad (lon2 - lon1)) := by
  have square : haversine (deg2rad lat1) (deg2rad lat2) (deg2rad (lon2 - lon1)) =
      Real.sin (deg2rad (lat2 - lat1) / 2) * Real.sin (deg2rad (lat2 - lat1) / 2) +
        Real.cos (deg2rad lat1) * Real.cos (deg2rad lat2) *
          Real.sin (deg2rad (lon2 - lon1) / 2) * Real.sin (deg2rad (lon2 - lon1) / 2) := by
    rw [haversine, deg2rad_sub lat2 lat1]
    ring
  rw [haversineMeters, centralAngle, square]

theorem lt_maxFloat64 {x : ℝ} (small : x ≤ 2 ^ 52) : x < maxFloat64 :=
  calc x < 1 * (2 ^ 53 - 1) := small.trans_lt (by norm_num)
    _ ≤ 2 ^ 971 * (2 ^ 53 - 1) :=
        mul_le_mul_of_nonneg_right (one_le_pow₀ one_le_two) (by norm_num)
    _ = maxFloat64 := by rw [maxFloat64, mul_sub, ← pow_add, mul_one]

theorem haversineMeters_lt (lat1 lon1 lat2 lon2 : ℝ) :
    haversineMeters lat1 lon1 lat2 lon2 < maxFloat64 := by
  have half := centralAngle_le_pi (deg2rad lat1) (deg2rad lat2) (deg2rad (lon2 - lon1))
  have four := Real.pi_lt_four
  rw [haversineMeters_eq]
  exact lt_maxFloat64 (by linarith)

section Query

variable (lat lon : ℝ)

/-- The distance of a node from the point. -/
noncomputable def distanceTo (e : Entry) : ℝ := haversineMeters lat lon e.2.lat e.2.lon

/-- The best node is one of those seen, and none of them is closer. -/
def Leads (seen : Entry → Prop) (b : Best) : Prop :=
  (b = noBest ∧ ∀ e, ¬ seen e) ∨
    ∃ e, seen e ∧ b = ⟨e.1, distanceTo lat lon e⟩ ∧
      ∀ e', seen e' → distanceTo lat lon e ≤ distanceTo lat lon e'

variable {lat lon}

theorem Leads.congr {seen seen' : Entry → Prop} {b : Best} (leads : Leads lat lon seen b)
    (same : ∀ e, seen e ↔ seen' e) : Leads lat lon seen' b := by
  have equal : seen = seen' := funext fun e => propext (same e)
  exact equal ▸ leads

theorem leads_noBest : Leads lat lon (fun _ => False) noBest := Or.inl ⟨rfl, fun _ => id⟩

/-- Visiting one more node. -/
theorem Leads.visit {seen : Entry → Prop} {b : Best} (leads : Leads lat lon seen b) (e : Entry) :
    Leads lat lon (fun x => seen x ∨ x = e) (visit lat lon b e.1 e.2) := by
  have finite := haversineMeters_lt lat lon e.2.lat e.2.lon
  refine Or.inr ?_
  rcases leads with ⟨rfl, unseen⟩ | ⟨first, member, rfl, least⟩
  · refine ⟨e, Or.inr rfl, ?_, fun x known => ?_⟩
    · exact if_pos finite
    · rcases known with old | rfl
      · exact absurd old (unseen x)
      · exact le_rfl
  · by_cases closer : distanceTo lat lon e < distanceTo lat lon first
    · refine ⟨e, Or.inr rfl, if_pos closer, fun x known => ?_⟩
      rcases known with old | rfl
      · exact closer.le.trans (least x old)
      · exact le_rfl
    · refine ⟨first, Or.inl member, if_neg closer, fun x known => ?_⟩
      rcases known with old | rfl
      · exact least x old
      · exact not_lt.mp closer

/-- Visiting a list of nodes. -/
theorem Leads.visitAll {seen : Entry → Prop} {b : Best} (leads : Leads lat lon seen b)
    (l : List Entry) :
    Leads lat lon (fun x => seen x ∨ x ∈ l)
      (l.foldl (fun b e => Snap.visit lat lon b e.1 e.2) b) := by
  induction l generalizing seen b with
  | nil => exact leads.congr fun x => by simp
  | cons e l ih =>
      refine (ih (leads.visit e)).congr fun x => ?_
      rw [List.mem_cons, or_assoc]

end Query

/-! ## The index -/

namespace SpatialIndex

@[simp] theorem cell_add (idx : SpatialIndex) (id : Int64) (c : Coord ℝ) (lat lon : ℝ) :
    (idx.add id c).cell lat lon = idx.cell lat lon := rfl

/-- File the nodes of a graph one after the other. -/
noncomputable def addAll (idx : SpatialIndex) (coords : Listing (Coord ℝ)) : SpatialIndex :=
  coords.foldl (fun idx e => idx.add e.1 e.2) idx

theorem addAll_cons (idx : SpatialIndex) (e : Entry) (coords : Listing (Coord ℝ)) :
    idx.addAll (e :: coords) = (idx.add e.1 e.2).addAll coords := rfl

/-- Filing nodes leaves the grid as it is. -/
theorem addAll_grid (idx : SpatialIndex) (coords : Listing (Coord ℝ)) :
    (idx.addAll coords).cellSize = idx.cellSize ∧ (idx.addAll coords).minLat = idx.minLat ∧
      (idx.addAll coords).minLon = idx.minLon := by
  induction coords generalizing idx with
  | nil => exact ⟨rfl, rfl, rfl⟩
  | cons e coords ih => exact ih (idx.add e.1 e.2)

theorem addAll_cell (idx : SpatialIndex) (coords : Listing (Coord ℝ)) (lat lon : ℝ) :
    (idx.addAll coords).cell lat lon = idx.cell lat lon := by
  obtain ⟨size, least, least'⟩ := addAll_grid idx coords
  rw [cell, cell, size, least, least']

/-- **A cell lists the nodes that lie in it.** -/
theorem bucket_addAll (idx : SpatialIndex) (coords : Listing (Coord ℝ)) (k : Int32 × Int32) :
    bucket (idx.addAll coords).cells (cellKey k) = bucket idx.cells (cellKey k) ++
      (coords.filter fun e => idx.cell e.2.lat e.2.lon = k).map Sigma.fst := by
  induction coords generalizing idx with
  | nil => simp [addAll]
  | cons e coords ih =>
      have filed : bucket (idx.add e.1 e.2).cells (cellKey k) =
          if idx.cell e.2.lat e.2.lon = k then bucket idx.cells (cellKey k) ++ [e.1]
          else bucket idx.cells (cellKey k) := by
        simp only [add, bucket_push, cellKey_injective.eq_iff, eq_comm (a := k)]
      have rest : bucket ((idx.add e.1 e.2).addAll coords).cells (cellKey k) =
          bucket (idx.add e.1 e.2).cells (cellKey k) ++
            (coords.filter fun x => idx.cell x.2.lat x.2.lon = k).map Sigma.fst :=
        ih (idx.add e.1 e.2)
      rw [addAll_cons, rest, filed]
      by_cases here : idx.cell e.2.lat e.2.lon = k
      · simp [here]
      · simp [here]

/-- The extent of the grid bounds the cells of its nodes, and stays below any bound of them. -/
theorem addAll_extent (idx : SpatialIndex) (coords : Listing (Coord ℝ)) (boundX boundY : ℤ)
    (start : idx.maxX.toInt ≤ boundX ∧ idx.maxY.toInt ≤ boundY)
    (below : ∀ e ∈ coords, (idx.cell e.2.lat e.2.lon).1.toInt ≤ boundX ∧
      (idx.cell e.2.lat e.2.lon).2.toInt ≤ boundY) :
    idx.maxX.toInt ≤ (idx.addAll coords).maxX.toInt ∧
      idx.maxY.toInt ≤ (idx.addAll coords).maxY.toInt ∧
      (idx.addAll coords).maxX.toInt ≤ boundX ∧ (idx.addAll coords).maxY.toInt ≤ boundY ∧
      ∀ e ∈ coords, (idx.cell e.2.lat e.2.lon).1.toInt ≤ (idx.addAll coords).maxX.toInt ∧
        (idx.cell e.2.lat e.2.lon).2.toInt ≤ (idx.addAll coords).maxY.toInt := by
  induction coords generalizing idx with
  | nil => exact ⟨le_rfl, le_rfl, start.1, start.2, fun e member => absurd member List.not_mem_nil⟩
  | cons e coords ih =>
      have here := below e List.mem_cons_self
      have grownX : (idx.add e.1 e.2).maxX.toInt =
          max idx.maxX.toInt (idx.cell e.2.lat e.2.lon).1.toInt := by
        simp only [add, gt_iff_lt, Int32.lt_iff_toInt_lt]
        split_ifs <;> omega
      have grownY : (idx.add e.1 e.2).maxY.toInt =
          max idx.maxY.toInt (idx.cell e.2.lat e.2.lon).2.toInt := by
        simp only [add, gt_iff_lt, Int32.lt_iff_toInt_lt]
        split_ifs <;> omega
      have next : (idx.add e.1 e.2).maxX.toInt ≤ boundX ∧
          (idx.add e.1 e.2).maxY.toInt ≤ boundY := by omega
      obtain ⟨growsX, growsY, belowX, belowY, rest⟩ := ih (idx.add e.1 e.2) next
        fun x member => below x (List.mem_cons_of_mem _ member)
      rw [addAll_cons]
      refine ⟨by omega, by omega, belowX, belowY, fun x member => ?_⟩
      rcases List.mem_cons.mp member with rfl | later
      · omega
      · exact rest x later

end SpatialIndex

end OsmMini.Core.Snap

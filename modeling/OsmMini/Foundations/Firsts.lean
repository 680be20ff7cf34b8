import Mathlib.Data.List.Nodup
import Mathlib.Data.List.Perm.Subperm

/-!
# The first entries of their keys

A list is read from its start, and an entry is kept when no entry before it has its key. When
a second list is joined to a first one only for want of entries, its own start is enough: a
list of distinct keys loses at most as many entries to the first list as that one has
(`take_firsts_append`).
-/

set_option autoImplicit false

namespace OsmMini.Foundations

variable {α κ : Type*} [DecidableEq κ] (key : α → κ)

/-- The entries whose keys have not been seen and do not stand earlier in the list. -/
def firsts : List κ → List α → List α
  | _, [] => []
  | seen, a :: l => if key a ∈ seen then firsts seen l else a :: firsts (key a :: seen) l

variable {key}

/-- What was seen counts as a set. -/
theorem firsts_congr {l : List α} : ∀ {seen seen' : List κ}, (∀ k, k ∈ seen ↔ k ∈ seen') →
    firsts key seen l = firsts key seen' l := by
  induction l with
  | nil => exact fun _ => rfl
  | cons a l ih =>
      intro seen seen' same
      rw [firsts, firsts]
      refine if_congr (same (key a)) (ih same) (congrArg (a :: ·) (ih fun k => ?_))
      rw [List.mem_cons, List.mem_cons, same k]

/-- A key that no entry has makes no difference. -/
theorem firsts_unseen {l : List α} {k : κ} (absent : ∀ a ∈ l, key a ≠ k) :
    ∀ seen, firsts key (k :: seen) l = firsts key seen l := by
  induction l with
  | nil => exact fun _ => rfl
  | cons a l ih =>
      intro seen
      obtain ⟨here, later⟩ := List.forall_mem_cons.mp absent
      have swapped : firsts key (key a :: k :: seen) l = firsts key (k :: key a :: seen) l :=
        firsts_congr fun x => by
          simp only [List.mem_cons]
          exact or_left_comm
      rw [firsts, firsts, ih later, swapped, ih later]
      refine if_congr ?_ rfl rfl
      rw [List.mem_cons, or_iff_right here]

/-- Entries that are made of others with the same keys. -/
theorem firsts_map {β : Type*} (f : β → α) (l : List β) : ∀ seen : List κ,
    firsts key seen (l.map f) = (firsts (key ∘ f) seen l).map f := by
  induction l with
  | nil => exact fun _ => rfl
  | cons b l ih =>
      intro seen
      rw [List.map_cons, firsts, firsts, ih, ih, Function.comp_apply]
      split_ifs <;> rfl

/-- The first entries of two lists. The second list keeps what the first one does not have. -/
theorem firsts_append (l m : List α) : ∀ seen : List κ,
    firsts key seen (l ++ m) =
      firsts key seen l ++ firsts key ((firsts key seen l).map key ++ seen) m := by
  induction l with
  | nil => exact fun _ => rfl
  | cons a l ih =>
      intro seen
      rw [List.cons_append, firsts, firsts]
      by_cases old : key a ∈ seen
      · rw [if_pos old, if_pos old, ih]
      · rw [if_neg old, if_neg old, ih, List.cons_append, List.map_cons]
        congr 2
        refine firsts_congr fun k => ?_
        simp only [List.mem_append, List.mem_cons]
        tauto

/-- Of entries with distinct keys those stay whose keys have not been seen. -/
theorem firsts_eq_filter {l : List α} (distinct : (l.map key).Nodup) :
    ∀ seen : List κ, firsts key seen l = l.filter fun a => key a ∉ seen := by
  induction l with
  | nil => exact fun _ => rfl
  | cons a l ih =>
      intro seen
      obtain ⟨fresh, later⟩ := List.nodup_cons.mp distinct
      have absent : ∀ b ∈ l, key b ≠ key a := fun b member same =>
        fresh (same ▸ List.mem_map_of_mem member)
      rw [firsts, firsts_unseen absent, ih later]
      by_cases old : key a ∈ seen
      · rw [if_pos old, List.filter_cons_of_neg (by simpa using old)]
      · rw [if_neg old, List.filter_cons_of_pos (by simpa using old)]

/-- Entries are kept in their order. -/
theorem firsts_sublist (l : List α) : ∀ seen : List κ, (firsts key seen l).Sublist l := by
  induction l with
  | nil => exact fun _ => List.Sublist.slnil
  | cons a l ih =>
      intro seen
      rw [firsts]
      split_ifs
      · exact (ih seen).cons a
      · exact (ih _).cons_cons a

/-- The first entries have distinct keys, none of which was seen. -/
theorem firsts_distinct (l : List α) : ∀ seen : List κ,
    ((firsts key seen l).map key).Nodup ∧ ∀ a ∈ firsts key seen l, key a ∉ seen := by
  induction l with
  | nil => exact fun _ => ⟨List.nodup_nil, fun a none => absurd none List.not_mem_nil⟩
  | cons a l ih =>
      intro seen
      rw [firsts]
      split_ifs with old
      · exact ih seen
      · obtain ⟨distinct, unseen⟩ := ih (key a :: seen)
        refine ⟨List.nodup_cons.mpr ⟨fun member => ?_, distinct⟩, fun b member => ?_⟩
        · obtain ⟨b, inside, same⟩ := List.mem_map.mp member
          exact unseen b inside (same ▸ List.mem_cons_self)
        · rcases List.mem_cons.mp member with rfl | inside
          · exact old
          · exact fun there => unseen b inside (List.mem_cons_of_mem _ there)

/-- Every key that was not seen has a first entry. -/
theorem mem_map_firsts {k : κ} (l : List α) : ∀ seen : List κ,
    k ∈ (firsts key seen l).map key ↔ k ∈ l.map key ∧ k ∉ seen := by
  induction l with
  | nil => exact fun _ => ⟨fun none => absurd none List.not_mem_nil, fun none => none.1⟩
  | cons a l ih =>
      intro seen
      rw [firsts]
      split_ifs with old
      · rw [ih, List.map_cons, List.mem_cons]
        refine ⟨fun later => ⟨Or.inr later.1, later.2⟩, fun ⟨member, unseen⟩ => ⟨?_, unseen⟩⟩
        exact member.resolve_left fun here => unseen (here ▸ old)
      · rw [List.map_cons, List.map_cons, List.mem_cons, List.mem_cons, ih, List.mem_cons]
        by_cases here : k = key a
        · exact iff_of_true (Or.inl here) ⟨Or.inl here, fun seen' => old (here ▸ seen')⟩
        · simp only [here, false_or]

/-- Entries that are their own keys are all kept once. -/
theorem mem_firsts_id {β : Type*} [DecidableEq β] {b : β} (l : List β) :
    b ∈ firsts id [] l ↔ b ∈ l := by
  have known : b ∈ (firsts id [] l).map id ↔ b ∈ l.map id ∧ b ∉ ([] : List β) :=
    mem_map_firsts l []
  rwa [List.map_id, List.map_id, and_iff_left List.not_mem_nil] at known

/-- One more entry is kept when its key is new. -/
theorem firsts_snoc (l : List α) (a : α) : firsts key [] (l ++ [a]) =
    firsts key [] l ++ if key a ∈ l.map key then [] else [a] := by
  rw [firsts_append, List.append_nil, firsts]
  have known : key a ∈ (firsts key [] l).map key ↔ key a ∈ l.map key := by
    rw [mem_map_firsts]
    exact and_iff_left List.not_mem_nil
  rw [if_congr known rfl rfl]
  split_ifs <;> rfl

/-- A choice that goes by the keys may be made before or after. -/
theorem firsts_filter {p : α → Bool} (byKey : ∀ a b, key a = key b → p a = p b) (l : List α) :
    ∀ seen : List κ, firsts key seen (l.filter p) = (firsts key seen l).filter p := by
  induction l with
  | nil => exact fun _ => rfl
  | cons a l ih =>
      intro seen
      by_cases chosen : p a = true
      · rw [List.filter_cons_of_pos chosen, firsts, firsts]
        split_ifs
        · exact ih seen
        · rw [ih, List.filter_cons_of_pos chosen]
      · have others : ∀ b ∈ l.filter p, key b ≠ key a := fun b member same =>
          chosen ((byKey b a same).symm.trans (List.mem_filter.mp member).2)
        rw [List.filter_cons_of_neg chosen, firsts]
        split_ifs
        · exact ih seen
        · rw [List.filter_cons_of_neg chosen, ← ih, firsts_unseen others]

/-- Entries that are left out have their keys in the list of what was seen, and distinct keys
are not more than that. -/
theorem length_le_filter_add {m : List α} (distinct : (m.map key).Nodup) (seen : List κ) :
    m.length ≤ (m.filter fun a => key a ∉ seen).length + seen.length := by
  have halves := List.length_eq_length_filter_add (l := m) fun a => decide (key a ∉ seen)
  have lost : ((m.filter fun a => !decide (key a ∉ seen)).map key).Subperm seen := by
    refine (distinct.sublist (List.filter_sublist.map key)).subperm fun k member => ?_
    obtain ⟨a, inside, rfl⟩ := List.mem_map.mp member
    simpa using (List.mem_filter.mp inside).2
  have few := lost.length_le
  rw [List.length_map] at few
  omega

/-- **The start of the second list is enough.** When entries of distinct keys are joined to a
list, so many first entries need only as many of them. -/
theorem take_firsts_append (limit : ℕ) (l : List α) {m : List α} (distinct : (m.map key).Nodup) :
    (firsts key [] (l ++ m.take limit)).take limit = (firsts key [] (l ++ m)).take limit := by
  have start := distinct.sublist ((List.take_sublist limit m).map key)
  rw [firsts_append, firsts_append, firsts_eq_filter start, firsts_eq_filter distinct,
    List.append_nil, List.take_append, List.take_append]
  congr 1
  set seen := (firsts key [] l).map key with keys
  have size : (firsts key [] l).length = seen.length := by rw [keys, List.length_map]
  rcases Nat.le_total m.length limit with short | long
  · rw [List.take_of_length_le short]
  · have enough := length_le_filter_add start seen
    rw [List.length_take, Nat.min_eq_left long] at enough
    conv_rhs => rw [← List.take_append_drop limit m, List.filter_append]
    rw [List.take_append_of_le_length]
    omega

end OsmMini.Foundations

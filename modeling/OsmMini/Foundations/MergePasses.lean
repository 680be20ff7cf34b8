import Mathlib.Data.List.Destutter
import OsmMini.Foundations.Window

/-!
# Merge passes

Runs that are too many to be merged at once are merged in groups, pass after pass, until few
enough are left. When merging a group makes a sound run of the same elements, so do the passes
(`passes_spec`), and enough rounds leave few enough runs.

Elements that repeat the one before them can be left out of a sorted list, which makes it
strictly increasing (`pairwise_destutter`).
-/

set_option autoImplicit false

namespace OsmMini.Foundations.MergeRuns

section Passes

variable {R ε : Type*}

/-- Merge groups of runs until few enough runs are left. -/
def passes (limit : ℕ) (mergeGroup : List R → Except ε R) : ℕ → List R → Except ε (List R)
  | 0, runs => .ok runs
  | rounds + 1, runs =>
    if limit < runs.length then
      match (blocksOf limit runs).mapM mergeGroup with
      | .error err => .error err
      | .ok runs => passes limit mergeGroup rounds runs
    else .ok runs

/-- Merging a group of sound runs makes a sound run of the same elements. -/
structure Merges (mergeGroup : List R → Except ε R) (Sound : R → Prop)
    (Same : List R → List R → Prop) : Prop where
  refl : ∀ runs, Same runs runs
  trans : ∀ {first second third}, Same first second → Same second third → Same first third
  append : ∀ {run group runs rest}, Same [run] group → Same runs rest →
    Same (run :: runs) (group ++ rest)
  merge : ∀ {group}, (∀ run ∈ group, Sound run) →
    ∃ run, mergeGroup group = .ok run ∧ Sound run ∧ Same [run] group

variable {mergeGroup : List R → Except ε R} {Sound : R → Prop} {Same : List R → List R → Prop}

/-- **One pass** makes a sound run of each group. -/
theorem Merges.groups (merges : Merges mergeGroup Sound Same) : ∀ {groups : List (List R)},
    (∀ group ∈ groups, ∀ run ∈ group, Sound run) →
    ∃ next, groups.mapM mergeGroup = .ok next ∧ next.length = groups.length ∧
      (∀ run ∈ next, Sound run) ∧ Same next groups.flatten := by
  intro groups
  induction groups with
  | nil =>
      intro _
      exact ⟨[], rfl, rfl, fun _ none => absurd none List.not_mem_nil, merges.refl []⟩
  | cons group groups ih =>
      intro sound
      obtain ⟨run, done, soundRun, same⟩ := merges.merge (sound group List.mem_cons_self)
      obtain ⟨next, rest, length, soundNext, sameNext⟩ :=
        ih fun group member => sound group (List.mem_cons_of_mem _ member)
      refine ⟨run :: next, ?_, congrArg (· + 1) length, ?_, merges.append same sameNext⟩
      · rw [List.mapM_cons, done, rest]
        rfl
      · exact List.forall_mem_cons.mpr ⟨soundRun, soundNext⟩

/-- A pass over more runs than the limit leaves fewer runs. -/
theorem blocksOf_length_lt {limit : ℕ} (two : 2 ≤ limit) {runs : List R}
    (many : limit < runs.length) : (blocksOf limit runs).length < runs.length := by
  rw [blocksOf_length, Nat.div_lt_iff_lt_mul (by omega)]
  have twice : runs.length * 2 ≤ runs.length * limit := Nat.mul_le_mul_left _ two
  omega

/-- **The passes keep the elements of the runs** and leave few enough runs. -/
theorem Merges.passes_spec (merges : Merges mergeGroup Sound Same) {limit : ℕ} (two : 2 ≤ limit) :
    ∀ {rounds : ℕ} {runs : List R}, (∀ run ∈ runs, Sound run) → ∃ next,
      passes limit mergeGroup rounds runs = .ok next ∧ (∀ run ∈ next, Sound run) ∧
        Same next runs ∧ (runs.length ≤ rounds → next.length ≤ limit) := by
  intro rounds
  induction rounds with
  | zero =>
      intro runs sound
      exact ⟨runs, rfl, sound, merges.refl runs, fun few => by omega⟩
  | succ rounds ih =>
      intro runs sound
      rw [passes]
      by_cases many : limit < runs.length
      · rw [if_pos many]
        have whole := flatten_blocksOf (show 0 < limit by omega) runs
        obtain ⟨merged, run, length, soundMerged, same⟩ := @Merges.groups _ _ _ _ _ merges
          (blocksOf limit runs) fun group member r inside =>
            sound r (whole ▸ List.mem_flatten.mpr ⟨group, member, inside⟩)
        rw [whole] at same
        obtain ⟨next, done, soundNext, same', few⟩ := ih soundMerged
        have fewer := blocksOf_length_lt two many
        rw [run]
        exact ⟨next, done, soundNext, merges.trans same' same, fun enough => few (by omega)⟩
      · rw [if_neg many]
        exact ⟨runs, rfl, sound, merges.refl runs, fun _ => not_lt.mp many⟩

end Passes

section Repeats

variable {α : Type*} [DecidableEq α]

theorem mem_destutter'_ne {a b : α} : ∀ {l : List α},
    b ∈ l.destutter' (· ≠ ·) a ↔ b = a ∨ b ∈ l := by
  intro l
  induction l generalizing a with
  | nil =>
      rw [List.destutter'_nil, List.mem_singleton]
      simp
  | cons c l ih =>
      by_cases same : a = c
      · rw [List.destutter'_cons_neg _ (not_not.mpr same), ih, List.mem_cons, same]
        tauto
      · rw [List.destutter'_cons_pos _ same, List.mem_cons, ih, List.mem_cons]

/-- No element is lost with the repeats. -/
theorem mem_destutter_ne {b : α} {l : List α} : b ∈ l.destutter (· ≠ ·) ↔ b ∈ l := by
  cases l with
  | nil => rfl
  | cons a l => rw [List.destutter_cons', mem_destutter'_ne, List.mem_cons]

end Repeats

/-- **A sorted list without repeats is strictly increasing.** -/
theorem pairwise_destutter {α : Type*} [LinearOrder α] {l : List α}
    (sorted : l.Pairwise (· ≤ ·)) : (l.destutter (· ≠ ·)).Pairwise (· < ·) := by
  have upwards : (l.destutter (· ≠ ·)).IsChain (· ≤ ·) :=
    (sorted.sublist (List.destutter_sublist (· ≠ ·) l)).isChain
  have apart : (l.destutter (· ≠ ·)).IsChain (· ≠ ·) := List.isChain_destutter (· ≠ ·) l
  refine List.isChain_iff_pairwise.mp ?_
  rw [List.isChain_iff_forall_rel_of_append_cons_cons] at upwards apart ⊢
  intro a b before after split
  exact lt_of_le_of_ne (upwards split) (apart split)

end OsmMini.Foundations.MergeRuns

import Mathlib.Data.List.Basic

/-!
# Undo with a limited memory

A timeline records every change of a value, with its number, the value before it and the value
after it. Going back undoes the latest change that is not undone, going forth makes the change
again that was undone last, and a new change drops those that are undone.

A program keeps two stacks of values instead, the upper one cut to a limit. The stacks track
the timeline (`Mirrors`): the redo stack has the values after the changes that are undone, and
the undo stack has the values before the latest changes that are not, among them every one of
the last changes up to the limit.
-/

set_option autoImplicit false

namespace OsmMini.Foundations

variable {α : Type*}

/-- A change of a value, the first one having number 1. -/
structure Revision (α : Type*) where
  number : ℕ
  before : α
  after : α

/-- The changes of a value: those that are not undone, the latest first, and those that are, the
one that was undone last first. -/
structure Timeline (α : Type*) where
  recorded : ℕ
  done : List (Revision α)
  present : α
  undone : List (Revision α)

namespace Timeline

/-- The timeline of a value that was not changed yet. -/
def opened (value : α) : Timeline α := ⟨0, [], value, []⟩

/-- Record a change, unless the value stays the same. -/
def record [DecidableEq α] (t : Timeline α) (value : α) : Timeline α :=
  if value = t.present then t
  else
    { recorded := t.recorded + 1
      done := ⟨t.recorded + 1, t.present, value⟩ :: t.done
      present := value
      undone := [] }

def back (t : Timeline α) : Timeline α :=
  match t.done with
  | [] => t
  | c :: done => { t with done := done, present := c.before, undone := c :: t.undone }

def forth (t : Timeline α) : Timeline α :=
  match t.undone with
  | [] => t
  | c :: undone => { t with done := c :: t.done, present := c.after, undone := undone }

/-! ## Changes that follow each other -/

/-- Changes, the latest first, that lead to a value. -/
def LeadTo (value : α) : List (Revision α) → Prop
  | [] => True
  | c :: changes => c.after = value ∧ LeadTo c.before changes

/-- Changes, the earliest first, that lead from a value. -/
def LeadFrom (value : α) : List (Revision α) → Prop
  | [] => True
  | c :: changes => c.before = value ∧ LeadFrom c.after changes

/-- The changes follow each other, and their numbers are in order. -/
structure Linked (t : Timeline α) : Prop where
  past : LeadTo t.present t.done
  future : LeadFrom t.present t.undone
  ordered : (t.undone.reverse ++ t.done).Pairwise fun c d => d.number < c.number
  counted : ∀ c ∈ t.undone.reverse ++ t.done, c.number ≤ t.recorded

theorem linked_opened (value : α) : (opened value).Linked :=
  ⟨trivial, trivial, List.Pairwise.nil, fun _ member => by cases member⟩

theorem Linked.record [DecidableEq α] {t : Timeline α} (linked : t.Linked) (value : α) :
    (t.record value).Linked := by
  unfold Timeline.record
  split_ifs with same
  · exact linked
  · have counted : ∀ c ∈ t.done, c.number ≤ t.recorded := fun c member =>
      linked.counted c (List.mem_append_right _ member)
    refine ⟨⟨rfl, linked.past⟩, trivial, ?_, ?_⟩
    · refine List.pairwise_cons.mpr ⟨fun c member => ?_, ?_⟩
      · exact Nat.lt_succ_of_le (counted c member)
      · exact (List.pairwise_append.mp linked.ordered).2.1
    · intro c member
      rcases List.mem_cons.mp member with rfl | earlier
      · exact Nat.le_refl _
      · exact Nat.le_succ_of_le (counted c earlier)

theorem Linked.back {t : Timeline α} (linked : t.Linked) : t.back.Linked := by
  unfold Timeline.back
  split
  · exact linked
  · next c done eq =>
      have past := linked.past
      rw [eq] at past
      have moved : (c :: t.undone).reverse ++ done = t.undone.reverse ++ t.done := by
        rw [List.reverse_cons, List.append_assoc, eq]
        rfl
      refine ⟨past.2, ⟨rfl, past.1 ▸ linked.future⟩, ?_, ?_⟩
      · exact moved ▸ linked.ordered
      · exact moved ▸ linked.counted

theorem Linked.forth {t : Timeline α} (linked : t.Linked) : t.forth.Linked := by
  unfold Timeline.forth
  split
  · exact linked
  · next c undone eq =>
      have future := linked.future
      rw [eq] at future
      have moved : undone.reverse ++ c :: t.done = t.undone.reverse ++ t.done := by
        rw [eq, List.reverse_cons, List.append_assoc]
        rfl
      refine ⟨⟨rfl, future.1 ▸ linked.past⟩, future.2, ?_, ?_⟩
      · exact moved ▸ linked.ordered
      · exact moved ▸ linked.counted

/-- The changes that are not undone have ever smaller numbers. -/
theorem Linked.number_le {t : Timeline α} (linked : t.Linked) :
    ∀ {i : ℕ} {c : Revision α}, t.done[i]? = some c → c.number + i ≤ t.recorded := by
  intro i
  induction i with
  | zero =>
      intro c found
      exact linked.counted c (List.mem_append_right _ (List.mem_of_getElem? found))
  | succ i ih =>
      intro c found
      have inside : i + 1 < t.done.length := (List.getElem?_eq_some_iff.mp found).1
      have newer : t.done[i]? = some (t.done[i]) := List.getElem?_eq_getElem (by omega)
      have before := ih newer
      have less := List.pairwise_iff_getElem.mp (List.pairwise_append.mp linked.ordered).2.1
        i (i + 1) (by omega) inside (Nat.lt_succ_self i)
      rw [(List.getElem?_eq_some_iff.mp found).2] at less
      omega

end Timeline

/-! ## Stacks with a limit -/

open Timeline

/-- Two stacks of values that track a timeline. -/
structure Mirrors (limit : ℕ) (undo redo : List α) (t : Timeline α) : Prop where
  linked : t.Linked
  /-- The undo stack has the values before the latest changes. -/
  past : undo <+: t.done.map Revision.before
  /-- It has those of the last changes up to the limit. -/
  kept : ∀ (i : ℕ) (c : Revision α), t.done[i]? = some c → t.recorded < c.number + limit →
    i < undo.length
  future : redo = t.undone.map Revision.after

namespace Mirrors

variable {limit : ℕ} {undo redo : List α} {t : Timeline α}

theorem opened (limit : ℕ) (value : α) : Mirrors limit [] [] (Timeline.opened value) :=
  ⟨linked_opened value, List.nil_prefix, fun _ _ found => (nomatch found), rfl⟩

/-- A change puts the value before it on the undo stack and empties the other one. -/
theorem record [DecidableEq α] (tracks : Mirrors limit undo redo t) {value : α}
    (changed : value ≠ t.present) :
    Mirrors limit ((t.present :: undo).take limit) [] (t.record value) := by
  have linked := tracks.linked.record value
  have eq : t.record value =
      ⟨t.recorded + 1, ⟨t.recorded + 1, t.present, value⟩ :: t.done, value, []⟩ := if_neg changed
  rw [eq] at linked ⊢
  refine ⟨linked, ?_, ?_, rfl⟩
  · exact (List.take_prefix _ _).trans ((List.prefix_cons_inj _).mpr tracks.past)
  · intro i c found recent
    have bound := linked.number_le found
    rw [List.length_take, List.length_cons, Nat.lt_min]
    constructor
    · simp only at bound recent
      omega
    · cases i with
      | zero => exact Nat.succ_pos _
      | succ i =>
          have earlier := tracks.kept i c found (by simp only at recent; omega)
          omega

/-- Going back takes the upper value of the undo stack. -/
theorem back {value : α} (tracks : Mirrors limit (value :: undo) redo t) :
    t.back.present = value ∧ Mirrors limit undo (t.present :: redo) t.back := by
  have linked := tracks.linked.back
  obtain ⟨rest, all⟩ := tracks.past
  cases eq : t.done with
  | nil => rw [eq] at all; cases all
  | cons c done =>
      have moved : t.back = { t with done := done, present := c.before, undone := c :: t.undone } := by
        rw [Timeline.back, eq]
      rw [eq, List.map_cons, List.cons_append] at all
      obtain ⟨same, all⟩ := List.cons.inj all
      have past := tracks.linked.past
      rw [eq] at past
      rw [moved] at linked ⊢
      refine ⟨same.symm, linked, ⟨rest, all⟩, ?_, ?_⟩
      · intro i d found recent
        have earlier := tracks.kept (i + 1) d (by rw [eq]; exact found) recent
        exact Nat.lt_of_succ_lt_succ earlier
      · rw [List.map_cons, past.1, tracks.future]

/-- Going forth takes the upper value of the redo stack. -/
theorem forth {value : α} (tracks : Mirrors limit undo (value :: redo) t) :
    t.forth.present = value ∧ Mirrors limit (t.present :: undo) redo t.forth := by
  have linked := tracks.linked.forth
  cases eq : t.undone with
  | nil =>
      have none := tracks.future
      rw [eq] at none
      cases none
  | cons c undone =>
      have moved : t.forth = { t with done := c :: t.done, present := c.after, undone := undone } := by
        rw [Timeline.forth, eq]
      have all := tracks.future
      rw [eq, List.map_cons] at all
      obtain ⟨same, rest⟩ := List.cons.inj all
      have future := tracks.linked.future
      rw [eq] at future
      rw [moved] at linked ⊢
      refine ⟨same.symm, linked, ?_, ?_, rest⟩
      · rw [List.map_cons, future.1]
        exact (List.prefix_cons_inj _).mpr tracks.past
      · intro i d found recent
        cases i with
        | zero => exact Nat.succ_pos _
        | succ i => exact Nat.succ_lt_succ (tracks.kept i d found recent)

/-- The undo stack is not empty if the latest change is one of the last ones. -/
theorem filled_of_recent (tracks : Mirrors limit undo redo t) {c : Revision α}
    {done : List (Revision α)} (latest : t.done = c :: done) (recent : t.recorded < c.number + limit) :
    undo ≠ [] := by
  have filled := tracks.kept 0 c (by rw [latest]; rfl) recent
  exact List.ne_nil_of_length_pos filled

/-- **The undo stack has the value before the latest change**, unless it is empty. -/
theorem before_of_filled (tracks : Mirrors limit undo redo t) {c : Revision α}
    {done : List (Revision α)} (latest : t.done = c :: done) (filled : undo ≠ []) :
    ∃ rest, undo = c.before :: rest := by
  obtain ⟨rest, all⟩ := tracks.past
  cases undo with
  | nil => exact absurd rfl filled
  | cons value undo =>
      rw [latest, List.map_cons, List.cons_append] at all
      exact ⟨undo, by rw [(List.cons.inj all).1]⟩

end Mirrors

end OsmMini.Foundations

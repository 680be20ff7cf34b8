import Mathlib.Data.List.Basic
import Mathlib.Tactic.Common

/-!
# Flat linked buckets

Buckets of numbers in two flat lists. An entry holds a number and the place of the next entry of
its bucket, and each bucket has a place to begin at. A special place ends every bucket. New
entries are put in front of their bucket, so that a link always leads to an older entry and a walk
along a bucket comes to an end (`walk_eq`).
-/

set_option autoImplicit false

namespace OsmMini.Foundations

structure LinkedBuckets where
  heads : List ℕ
  entries : List (ℕ × ℕ)

/-- The entries from a place on are those of a bucket. -/
inductive Linked (stop : ℕ) (entries : List (ℕ × ℕ)) : ℕ → List ℕ → Prop
  | stop : Linked stop entries stop []
  | entry {place next value : ℕ} {rest : List ℕ} : place ≠ stop →
      entries[place]? = some (value, next) → (next = stop ∨ next < place) →
      Linked stop entries next rest → Linked stop entries place (value :: rest)

namespace LinkedBuckets

variable {stop : ℕ}

/-- Put a number in front of a bucket. -/
def push (b : LinkedBuckets) (stop cell value : ℕ) : LinkedBuckets where
  heads := b.heads.set cell b.entries.length
  entries := b.entries ++ [(value, b.heads.getD cell stop)]

/-- Whether a number of a bucket passes a test. -/
def walk (entries : List (ℕ × ℕ)) (stop : ℕ) (test : ℕ → Bool) : ℕ → ℕ → Bool
  | 0, _ => false
  | fuel + 1, place =>
    if place = stop then false
    else
      match entries[place]? with
      | none => false
      | some (value, next) => if test value then true else walk entries stop test fuel next

/-- A bucket holds numbers. -/
def Holds (b : LinkedBuckets) (stop cell : ℕ) (values : List ℕ) : Prop :=
  Linked stop b.entries (b.heads.getD cell stop) values

theorem linked_append {entries : List (ℕ × ℕ)} {place : ℕ} {values : List ℕ}
    (linked : Linked stop entries place values) (more : List (ℕ × ℕ)) :
    Linked stop (entries ++ more) place values := by
  induction linked with
  | stop => exact .stop
  | entry filled known older _ ih =>
      refine .entry filled ?_ older ih
      rw [List.getElem?_append_left (List.getElem?_eq_some_iff.mp known).1]
      exact known

/-- A bucket has no more entries than there are. -/
theorem linked_length {entries : List (ℕ × ℕ)} {place : ℕ} {values : List ℕ}
    (linked : Linked stop entries place values) (filled : place ≠ stop) :
    values.length ≤ place + 1 ∧ place < entries.length := by
  induction linked with
  | stop => exact absurd rfl filled
  | @entry place next value rest _ known older linked ih =>
      have inside := (List.getElem?_eq_some_iff.mp known).1
      refine ⟨?_, inside⟩
      rw [List.length_cons]
      by_cases last : next = stop
      · subst last
        cases linked with
        | stop => exact Nat.le_add_left ..
        | entry filled => exact absurd rfl filled
      · have shorter := (ih last).1
        have below := older.resolve_left last
        omega

theorem walk_linked {entries : List (ℕ × ℕ)} {test : ℕ → Bool} {place : ℕ} {values : List ℕ}
    (linked : Linked stop entries place values) :
    ∀ {fuel : ℕ}, values.length < fuel → walk entries stop test fuel place = values.any test := by
  induction linked with
  | stop =>
      intro fuel enough
      obtain ⟨fuel, rfl⟩ := Nat.exists_eq_succ_of_ne_zero (Nat.ne_of_gt enough)
      rw [walk, if_pos rfl]
      rfl
  | entry filled known _ _ ih =>
      intro fuel enough
      obtain ⟨fuel, rfl⟩ := Nat.exists_eq_succ_of_ne_zero (Nat.ne_of_gt (Nat.zero_lt_of_lt enough))
      rw [walk, if_neg filled, known, List.any_cons]
      dsimp only
      split
      · rename_i passed
        rw [passed, Bool.true_or]
      · rename_i failed
        rw [Bool.eq_false_iff.mpr failed, Bool.false_or]
        exact ih (Nat.lt_of_succ_lt_succ enough)

/-- **A walk looks at all numbers of a bucket.** -/
theorem walk_eq {b : LinkedBuckets} {cell : ℕ} {values : List ℕ} (holds : b.Holds stop cell values)
    (test : ℕ → Bool) :
    walk b.entries stop test (b.entries.length + 1) (b.heads.getD cell stop) =
      values.any test := by
  refine walk_linked holds ?_
  by_cases last : b.heads.getD cell stop = stop
  · rw [Holds, last] at holds
    cases holds with
    | stop => exact Nat.succ_pos _
    | entry filled => exact absurd rfl filled
  · have bounded := linked_length holds last
    omega

theorem holds_push {b : LinkedBuckets} {cell : ℕ} {values : List ℕ} (inside : cell < b.heads.length)
    (room : b.entries.length < stop) (holds : b.Holds stop cell values) (value : ℕ) :
    (b.push stop cell value).Holds stop cell (value :: values) := by
  have head : (b.heads.set cell b.entries.length).getD cell stop = b.entries.length := by
    rw [List.getD_eq_getElem?_getD, List.getElem?_set_self inside]
    rfl
  have linked : Linked stop (b.entries ++ [(value, b.heads.getD cell stop)]) b.entries.length
      (value :: values) := by
    refine .entry (Nat.ne_of_lt room) List.getElem?_concat_length ?_ (linked_append holds _)
    by_cases last : b.heads.getD cell stop = stop
    · exact .inl last
    · exact .inr (linked_length holds last).2
  rw [← head] at linked
  exact linked

theorem holds_push_ne {b : LinkedBuckets} {cell other : ℕ} {values : List ℕ} (different : other ≠ cell)
    (holds : b.Holds stop other values) (value : ℕ) :
    (b.push stop cell value).Holds stop other values := by
  have head : (b.heads.set cell b.entries.length).getD other stop = b.heads.getD other stop := by
    rw [List.getD_eq_getElem?_getD, List.getElem?_set_ne different.symm,
      ← List.getD_eq_getElem?_getD]
  have linked := linked_append holds [(value, b.heads.getD cell stop)]
  rw [← head] at linked
  exact linked

theorem holds_empty (n cell : ℕ) :
    (⟨List.replicate n stop, []⟩ : LinkedBuckets).Holds stop cell [] := by
  have start : (List.replicate n stop).getD cell stop = stop := by
    rw [List.getD_eq_getElem?_getD, List.getElem?_replicate]
    split
    · rfl
    · rfl
  rw [Holds, start]
  exact .stop

/-- Put a number in front of several buckets. -/
def pushCells (b : LinkedBuckets) (stop : ℕ) (cells : List ℕ) (value : ℕ) : LinkedBuckets :=
  cells.foldl (fun b cell => b.push stop cell value) b

theorem length_heads_pushCells (b : LinkedBuckets) (cells : List ℕ) (value : ℕ) :
    (b.pushCells stop cells value).heads.length = b.heads.length := by
  induction cells generalizing b with
  | nil => rfl
  | cons cell cells ih => exact (ih _).trans (List.length_set ..)

theorem length_entries_pushCells (b : LinkedBuckets) (cells : List ℕ) (value : ℕ) :
    (b.pushCells stop cells value).entries.length = b.entries.length + cells.length := by
  induction cells generalizing b with
  | nil => rfl
  | cons cell cells ih =>
      have one : (b.push stop cell value).entries.length = b.entries.length + 1 :=
        List.length_append
      refine (ih _).trans ?_
      rw [one, List.length_cons]
      omega

/-- **A number is put in front of each of the buckets.** -/
theorem holds_pushCells {cells : List ℕ} (distinct : cells.Nodup) (value : ℕ) :
    ∀ {b : LinkedBuckets}, (∀ cell ∈ cells, cell < b.heads.length) →
    b.entries.length + cells.length ≤ stop → ∀ {cell : ℕ} {values : List ℕ},
    b.Holds stop cell values →
    (b.pushCells stop cells value).Holds stop cell
      (if cell ∈ cells then value :: values else values) := by
  induction cells with
  | nil =>
      intro b _ _ cell values holds
      exact holds
  | cons first cells ih =>
      intro b inside room cell values holds
      obtain ⟨fresh, distinct⟩ := List.nodup_cons.mp distinct
      rw [List.length_cons] at room
      have inside' : ∀ cell ∈ cells, cell < (b.push stop first value).heads.length := by
        intro cell member
        have known := inside cell (List.mem_cons_of_mem _ member)
        exact lt_of_lt_of_eq known (List.length_set ..).symm
      have room' : (b.push stop first value).entries.length + cells.length ≤ stop := by
        have one : (b.push stop first value).entries.length = b.entries.length + 1 :=
          List.length_append
        omega
      rw [pushCells, List.foldl_cons]
      by_cases here : cell = first
      · rw [here] at holds ⊢
        have free : b.entries.length < stop := by omega
        have pushed := holds_push (inside first List.mem_cons_self) free holds value
        have later := ih distinct inside' room' pushed
        rw [if_neg fresh] at later
        rw [if_pos List.mem_cons_self]
        exact later
      · have later := ih distinct inside' room' (holds_push_ne here holds value)
        simp only [List.mem_cons, here, false_or]
        exact later

end LinkedBuckets

end OsmMini.Foundations

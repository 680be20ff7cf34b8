import Mathlib.Data.List.Cycle

/-!
# Closed lines

Two closed lines are the same ring when one becomes the other by beginning elsewhere, going the
other way around and repeating consecutive points. Joining the pieces of a cut ring repeats the
points at the cuts and gives the same ring (`SameRing.flatten`).
-/

set_option autoImplicit false

namespace OsmMini.Foundations

variable {α β : Type*}

/-- Closed lines up to rotation, reversal and repeated consecutive points. -/
inductive SameRing : List α → List α → Prop
  | rotated {l l' : List α} : l.IsRotated l' → SameRing l l'
  | reversed (l : List α) : SameRing l.reverse l
  | repeated (a : α) (l : List α) : SameRing (a :: a :: l) (a :: l)
  | symm {l l' : List α} : SameRing l l' → SameRing l' l
  | trans {l l' l'' : List α} : SameRing l l' → SameRing l' l'' → SameRing l l''

theorem isRotated_split {l l' : List α} (rotated : l.IsRotated l') :
    ∃ a b, l = a ++ b ∧ l' = b ++ a := by
  obtain ⟨n, short, rfl⟩ := List.isRotated_iff_mod.mp rotated
  exact ⟨l.take n, l.drop n, (List.take_append_drop n l).symm, List.rotate_eq_drop_append_take short⟩

namespace SameRing

theorem refl (l : List α) : SameRing l l := .rotated (.refl l)

/-- The same ring has the same points. -/
theorem mem_iff {l l' : List α} (same : SameRing l l') (a : α) : a ∈ l ↔ a ∈ l' := by
  induction same with
  | rotated rotated => exact rotated.mem_iff
  | reversed l => exact List.mem_reverse
  | repeated b l => simp
  | symm _ ih => exact ih.symm
  | trans _ _ ih ih' => exact ih.trans ih'

/-- Points that are not known are left out of both lines. -/
theorem filterMap (f : α → Option β) {l l' : List α} (same : SameRing l l') :
    SameRing (l.filterMap f) (l'.filterMap f) := by
  induction same with
  | rotated rotated =>
      obtain ⟨a, b, rfl, rfl⟩ := isRotated_split rotated
      rw [List.filterMap_append, List.filterMap_append]
      exact .rotated List.isRotated_append
  | reversed l =>
      rw [List.filterMap_reverse]
      exact .reversed _
  | repeated a l =>
      cases found : f a with
      | none =>
          rw [List.filterMap_cons_none found]
          exact refl _
      | some b =>
          rw [List.filterMap_cons_some found, List.filterMap_cons_some found]
          exact .repeated b _
  | symm _ ih => exact ih.symm
  | trans _ _ ih ih' => exact ih.trans ih'

/-- A point may be repeated anywhere. -/
theorem repeated_middle (l : List α) (a : α) (l' : List α) :
    SameRing (l ++ a :: a :: l') (l ++ a :: l') := by
  have turn : SameRing (l ++ a :: a :: l') (a :: a :: l' ++ l) := .rotated List.isRotated_append
  have back : SameRing (a :: l' ++ l) (l ++ a :: l') := .rotated List.isRotated_append
  exact turn.trans ((SameRing.repeated a (l' ++ l)).trans back)

/-- A line may come back to its first point. -/
theorem closing (a : α) (l : List α) : SameRing (a :: l ++ [a]) (a :: l) :=
  (SameRing.rotated List.isRotated_append).trans (.repeated a l)

end SameRing

/-! ## Pieces -/

theorem isRotated_flatten {l l' : List (List α)} (rotated : l.IsRotated l') :
    l.flatten.IsRotated l'.flatten := by
  obtain ⟨a, b, rfl, rfl⟩ := isRotated_split rotated
  rw [List.flatten_append, List.flatten_append]
  exact List.isRotated_append

/-- Of joined pieces, either all but the first points or all but the last ones may be left out. -/
theorem tails_eq {pieces : List (List α)} : ∀ {p : List α}, (∀ q ∈ p :: pieces, q ≠ []) →
    (p :: pieces).IsChain (fun p q => p.getLast? = q.head?) →
    p.head?.toList ++ (p :: pieces).flatMap List.tail =
      (p :: pieces).flatMap List.dropLast ++
        ((p :: pieces).getLast?.bind List.getLast?).toList := by
  induction pieces with
  | nil =>
      intro p filled _
      obtain ⟨a, last⟩ : ∃ a, p.getLast? = some a :=
        ⟨_, List.getLast?_eq_some_getLast (filled p List.mem_cons_self)⟩
      rw [List.flatMap_singleton, List.flatMap_singleton, List.getLast?_singleton,
        Option.bind_some, last]
      refine Eq.trans ?_ (List.dropLast_append_getLast? a last).symm
      cases p with
      | nil => rfl
      | cons b p => rfl
  | cons q pieces ih =>
      intro p filled joined
      obtain ⟨meet, joined⟩ := List.isChain_cons_cons.mp joined
      obtain ⟨a, last⟩ : ∃ a, p.getLast? = some a :=
        ⟨_, List.getLast?_eq_some_getLast (filled p List.mem_cons_self)⟩
      have later := ih (fun r member => filled r (List.mem_cons_of_mem _ member)) joined
      have whole : p.head?.toList ++ p.tail = p.dropLast ++ [a] := by
        rw [List.dropLast_append_getLast? a last]
        cases p with
        | nil => rfl
        | cons b p => rfl
      rw [← meet, last] at later
      rw [List.flatMap_cons, ← List.append_assoc, whole, List.append_assoc, List.getLast?_cons_cons]
      refine (congrArg (p.dropLast ++ ·) later).trans ?_
      rw [List.flatMap_cons (x := p), List.append_assoc]

/-- Joining pieces, each of which begins where the last one ends, repeats the points at the
joints. -/
theorem sameRing_joined {pieces : List (List α)} : ∀ {l p : List α}, p ≠ [] →
    (∀ q ∈ pieces, q ≠ []) → (p :: pieces).IsChain (fun p q => p.getLast? = q.head?) →
    SameRing (l ++ (p :: pieces).flatten) (l ++ ((p :: pieces).flatMap List.dropLast ++
      (((p :: pieces).getLast?.bind List.getLast?).toList))) := by
  induction pieces with
  | nil =>
      intro l p filled _ _
      obtain ⟨a, last⟩ : ∃ a, p.getLast? = some a := ⟨_, List.getLast?_eq_some_getLast filled⟩
      have whole : [p].flatten = [p].flatMap List.dropLast ++
          (([p].getLast?.bind List.getLast?).toList) := by
        rw [List.flatten_singleton, List.flatMap_singleton, List.getLast?_singleton,
          Option.bind_some, last]
        exact (List.dropLast_append_getLast? a last).symm
      rw [← whole]
      exact .refl _
  | cons q pieces ih =>
      intro l p filled others joined
      obtain ⟨meet, joined⟩ := List.isChain_cons_cons.mp joined
      obtain ⟨a, last⟩ : ∃ a, p.getLast? = some a := ⟨_, List.getLast?_eq_some_getLast filled⟩
      obtain ⟨q', first⟩ := List.head?_eq_some_iff.mp (meet.symm.trans last)
      have split : p.dropLast ++ [a] = p := List.dropLast_append_getLast? a last
      have later := ih (l := l ++ p.dropLast) (others q List.mem_cons_self)
        (fun r member => others r (List.mem_cons_of_mem _ member)) joined
      have once : SameRing (l ++ (p :: q :: pieces).flatten)
          (l ++ p.dropLast ++ (q :: pieces).flatten) := by
        rw [List.flatten_cons, ← split, List.dropLast_concat, first, List.flatten_cons]
        have shape := SameRing.repeated_middle (l ++ p.dropLast) a (q' ++ pieces.flatten)
        simpa using shape
      refine once.trans ?_
      rw [List.flatMap_cons, List.getLast?_cons_cons, List.append_assoc p.dropLast,
        ← List.append_assoc l]
      exact later

/-- The points at which pieces end are those at which they begin. -/
theorem tails_perm {pieces : List (List α)} (filled : ∀ p ∈ pieces, p ≠ [])
    (joined : (pieces : Cycle (List α)).Chain fun p q => p.getLast? = q.head?) :
    (pieces.flatMap List.tail).Perm (pieces.flatMap List.dropLast) := by
  cases pieces with
  | nil => exact .refl _
  | cons p pieces =>
      have chain := (Cycle.chain_coe_cons _ p pieces).mp joined
      rw [← List.cons_append] at chain
      obtain ⟨chain, -, meet⟩ := List.isChain_append.mp chain
      obtain ⟨last, known⟩ : ∃ last, (p :: pieces).getLast? = some last :=
        ⟨_, List.getLast?_eq_some_getLast (List.cons_ne_nil p pieces)⟩
      obtain ⟨a, first⟩ : ∃ a, p.head? = some a :=
        ⟨_, List.head?_eq_some_head (filled p List.mem_cons_self)⟩
      have equal := tails_eq filled chain
      rw [known, Option.bind_some, meet last known p rfl, first] at equal
      refine (List.perm_cons a).mp ?_
      exact (List.Perm.of_eq equal).trans (List.perm_append_singleton a _)

/-- **Joining the pieces of a cut ring gives the same ring.** -/
theorem SameRing.flatten {pieces : List (List α)} (cut : ∀ p ∈ pieces, 2 ≤ p.length)
    (joined : (pieces : Cycle (List α)).Chain fun p q => p.getLast? = q.head?) :
    SameRing pieces.flatten (pieces.flatMap List.dropLast) := by
  cases pieces with
  | nil => exact .refl _
  | cons p pieces =>
      have chain := (Cycle.chain_coe_cons _ p pieces).mp joined
      rw [← List.cons_append] at chain
      obtain ⟨chain, -, meet⟩ := List.isChain_append.mp chain
      have filled : ∀ q ∈ p :: pieces, q ≠ [] := fun q member none => by
        have long := cut q member
        rw [none] at long
        exact absurd long (Nat.not_succ_le_zero 1)
      have all := sameRing_joined (l := []) (filled p List.mem_cons_self)
        (fun q member => filled q (List.mem_cons_of_mem _ member)) chain
      obtain ⟨last, known⟩ : ∃ last, (p :: pieces).getLast? = some last :=
        ⟨_, List.getLast?_eq_some_getLast (List.cons_ne_nil p pieces)⟩
      rw [known, Option.bind_some, meet last known p rfl] at all
      obtain ⟨a, b, p', rfl⟩ : ∃ a b p', p = a :: b :: p' := by
        match p, cut p List.mem_cons_self with
        | a :: b :: p', _ => exact ⟨a, b, p', rfl⟩
      exact all.trans (.closing a _)

end OsmMini.Foundations

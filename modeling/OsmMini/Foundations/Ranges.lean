import Mathlib

/-!
# Counted loops and binary search

A counted loop that may fail is a fold over `List.range`. When it succeeds there is a
trace of the states between its rounds (`foldlM_range_ok_iff`), so that what one round
checks or keeps can be said for every round.

`search` is a binary search for the least index that satisfies a predicate.
-/

set_option autoImplicit false

namespace OsmMini.Foundations

section Loops

variable {ε σ : Type*}

theorem foldlM_single (f : σ → ℕ → Except ε σ) (s : σ) (n : ℕ) : [n].foldlM f s = f s n := by
  rw [List.foldlM_cons]
  cases f s n <;> rfl

/-- **A counted loop succeeds exactly when each of its rounds does, from the state the
round before left.** -/
theorem foldlM_range_ok_iff (f : σ → ℕ → Except ε σ) (s t : σ) (n : ℕ) :
    (List.range n).foldlM f s = .ok t ↔
      ∃ trace : ℕ → σ, trace 0 = s ∧ trace n = t ∧
        ∀ i < n, f (trace i) i = .ok (trace (i + 1)) := by
  induction n generalizing t with
  | zero =>
      constructor
      · intro same
        cases same
        exact ⟨fun _ => s, rfl, rfl, fun i h => absurd h (Nat.not_lt_zero i)⟩
      · rintro ⟨trace, first, last, -⟩
        rw [List.range_zero, List.foldlM_nil, ← first, last]
        rfl
  | succ n ih =>
      rw [List.range_succ, List.foldlM_append]
      constructor
      · intro run
        cases before : (List.range n).foldlM f s with
        | error e => rw [before] at run; cases run
        | ok u =>
            obtain ⟨trace, first, last, rounds⟩ := (ih u).mp before
            have step : f u n = .ok t := by
              rw [before] at run
              exact (foldlM_single f u n).symm.trans run
            refine ⟨fun i => if i ≤ n then trace i else t, ?_, ?_, ?_⟩
            · simp only [Nat.zero_le, if_true, first]
            · simp only [Nat.not_succ_le_self, if_false]
            · intro i small
              rcases Nat.lt_succ_iff_lt_or_eq.mp small with lt | rfl
              · simp only [if_pos lt.le, if_pos (Nat.succ_le_of_lt lt), rounds i lt]
              · simp only [le_refl, if_true, Nat.not_succ_le_self, if_false, last, step]
      · rintro ⟨trace, first, last, rounds⟩
        have before := (ih (trace n)).mpr
          ⟨trace, first, rfl, fun i small => rounds i (Nat.lt_succ_of_lt small)⟩
        rw [before]
        have step := rounds n (Nat.lt_succ_self n)
        rw [last] at step
        exact (foldlM_single f (trace n) n).trans step

/-- **A counted loop of checks succeeds exactly when every check does.** -/
theorem forM_range_ok_iff (f : ℕ → Except ε PUnit) (n : ℕ) :
    (List.range n).forM f = .ok ⟨⟩ ↔ ∀ i < n, f i = .ok ⟨⟩ := by
  induction n with
  | zero => exact ⟨fun _ i h => absurd h (Nat.not_lt_zero i), fun _ => rfl⟩
  | succ n ih =>
      have split : (List.range (n + 1)).forM f = (List.range n).forM f >>= fun _ => f n := by
        rw [List.range_succ]
        show forM (List.range n ++ [n]) f = forM (List.range n) f >>= fun _ => f n
        rw [List.forM_append]
        congr 1
        funext _
        show (f n >>= fun _ => pure ⟨⟩) = f n
        cases f n <;> rfl
      rw [split]
      constructor
      · intro run
        cases before : (List.range n).forM f with
        | error e => rw [before] at run; cases run
        | ok u =>
            rw [before] at run
            intro i small
            rcases Nat.lt_succ_iff_lt_or_eq.mp small with lt | rfl
            · exact ih.mp before i lt
            · exact run
      · intro checks
        rw [ih.mpr fun i small => checks i (Nat.lt_succ_of_lt small)]
        exact checks n (Nat.lt_succ_self n)

/-- A fallible map over a list succeeds exactly when it does at every element. -/
theorem mapM_ok_iff {α β : Type*} (f : α → Except ε β) : ∀ {xs : List α} {ys : List β},
    xs.mapM f = .ok ys ↔ List.Forall₂ (fun x y => f x = .ok y) xs ys
  | [], ys => by
      constructor
      · intro same
        cases same
        exact .nil
      · intro same
        cases same
        rfl
  | x :: xs, ys => by
      rw [List.mapM_cons]
      constructor
      · intro run
        cases first : f x with
        | error e => rw [first] at run; cases run
        | ok y =>
            cases rest : xs.mapM f with
            | error e => rw [first, rest] at run; cases run
            | ok zs =>
                rw [first, rest] at run
                cases run
                exact .cons first ((mapM_ok_iff f).mp rest)
      · intro same
        cases same with
        | cons first rest =>
            rw [first, (mapM_ok_iff f).mpr rest]
            rfl

end Loops

/-! ## Binary search -/

/-- Narrow the range from `i` to `j` to the least index that satisfies the predicate. -/
def searchFrom (f : ℕ → Bool) : ℕ → ℕ → ℕ → ℕ
  | 0, i, _ => i
  | rounds + 1, i, j =>
    if i < j then
      let h := (i + j) / 2
      if f h then searchFrom f rounds i h else searchFrom f rounds (h + 1) j
    else i

/-- The least index below `n` that satisfies the predicate, or `n`. -/
def search (n : ℕ) (f : ℕ → Bool) : ℕ :=
  searchFrom f n 0 n

theorem searchFrom_spec {f : ℕ → Bool} : ∀ {rounds i j : ℕ}, j - i ≤ rounds → i ≤ j →
    i ≤ searchFrom f rounds i j ∧ searchFrom f rounds i j ≤ j ∧
      (searchFrom f rounds i j < j → f (searchFrom f rounds i j) = true) ∧
      (i < searchFrom f rounds i j → f (searchFrom f rounds i j - 1) = false)
  | 0, i, j, few, le => by
      obtain rfl : i = j := by omega
      exact ⟨le_refl _, le_refl _, fun h => absurd h (lt_irrefl _), fun h => absurd h (lt_irrefl _)⟩
  | rounds + 1, i, j, few, le => by
      rw [searchFrom]
      split
      · rename_i lt
        simp only
        split
        · rename_i yes
          obtain ⟨low, high, here, before⟩ :=
            @searchFrom_spec f rounds i ((i + j) / 2) (by omega) (by omega)
          refine ⟨low, by omega, fun _ => ?_, before⟩
          rcases high.lt_or_eq with below | same
          · exact here below
          · rw [same, yes]
        · rename_i no
          obtain ⟨low, high, here, before⟩ :=
            @searchFrom_spec f rounds ((i + j) / 2 + 1) j (by omega) (by omega)
          refine ⟨by omega, high, here, fun above => ?_⟩
          rcases low.lt_or_eq with below | same
          · exact before below
          · rw [← same, Nat.add_sub_cancel]
            simpa using no
      · rename_i none
        obtain rfl : i = j := by omega
        exact ⟨le_refl _, le_refl _, fun h => absurd h (lt_irrefl _),
          fun h => absurd h (lt_irrefl _)⟩

theorem search_le (n : ℕ) (f : ℕ → Bool) : search n f ≤ n :=
  (searchFrom_spec (le_refl _) (Nat.zero_le n)).2.1

theorem search_true {n : ℕ} {f : ℕ → Bool} (found : search n f < n) : f (search n f) = true :=
  (searchFrom_spec (le_refl _) (Nat.zero_le n)).2.2.1 found

theorem search_before {n : ℕ} {f : ℕ → Bool} (positive : 0 < search n f) :
    f (search n f - 1) = false :=
  (searchFrom_spec (le_refl _) (Nat.zero_le n)).2.2.2 positive

/-- **Where the predicate once true stays true, the search finds its least index.** -/
theorem search_eq {n k : ℕ} {f : ℕ → Bool} (mono : ∀ i j, i ≤ j → j < n → f i = true → f j = true)
    (inside : k ≤ n) (least : ∀ i < k, f i = false) (here : k < n → f k = true) :
    search n f = k := by
  rcases lt_trichotomy (search n f) k with below | same | above
  · have yes := search_true (lt_of_lt_of_le below inside)
    rw [least _ below] at yes
    cases yes
  · exact same
  · have last := search_le n f
    have no := search_before (Nat.zero_lt_of_lt above)
    rw [mono k (search n f - 1) (by omega) (by omega) (here (by omega))] at no
    cases no

/-! ## Binary search with a predicate that may fail -/

section Fallible

variable {ε : Type*}

/-- `searchFrom` with a predicate that may fail. -/
def searchFromM (f : ℕ → Except ε Bool) : ℕ → ℕ → ℕ → Except ε ℕ
  | 0, i, _ => .ok i
  | rounds + 1, i, j =>
    if i < j then do
      let h := (i + j) / 2
      if ← f h then searchFromM f rounds i h else searchFromM f rounds (h + 1) j
    else .ok i

/-- `search` with a predicate that may fail. -/
def searchM (n : ℕ) (f : ℕ → Except ε Bool) : Except ε ℕ :=
  searchFromM f n 0 n

theorem searchFromM_eq {f : ℕ → Except ε Bool} {g : ℕ → Bool} {n : ℕ}
    (total : ∀ i < n, f i = .ok (g i)) : ∀ {rounds i j : ℕ}, j ≤ n →
    searchFromM f rounds i j = .ok (searchFrom g rounds i j)
  | 0, i, j, _ => rfl
  | rounds + 1, i, j, inside => by
      rw [searchFromM, searchFrom]
      split
      · rename_i lt
        simp only
        rw [total ((i + j) / 2) (by omega)]
        cases g ((i + j) / 2) with
        | true => exact searchFromM_eq total (by omega)
        | false => exact searchFromM_eq total inside
      · rfl

/-- **A predicate that does not fail is searched as if it could not.** -/
theorem searchM_eq {f : ℕ → Except ε Bool} {g : ℕ → Bool} {n : ℕ}
    (total : ∀ i < n, f i = .ok (g i)) : searchM n f = .ok (search n g) :=
  searchFromM_eq total (le_refl _)

end Fallible

section Stateful

variable {σ : Type*}

/-- `searchFrom` with a predicate that keeps a state of its own. -/
def searchFromS (f : ℕ → σ → Bool × σ) : ℕ → ℕ → ℕ → σ → ℕ × σ
  | 0, i, _, s => (i, s)
  | rounds + 1, i, j, s =>
    if i < j then
      let h := (i + j) / 2
      match f h s with
      | (true, s) => searchFromS f rounds i h s
      | (false, s) => searchFromS f rounds (h + 1) j s
    else (i, s)

/-- `search` with a predicate that keeps a state of its own. -/
def searchS (n : ℕ) (f : ℕ → σ → Bool × σ) (s : σ) : ℕ × σ :=
  searchFromS f n 0 n s

theorem searchFromS_eq {f : ℕ → σ → Bool × σ} {g : ℕ → Bool} {invariant : σ → Prop} {n : ℕ}
    (answers : ∀ i < n, ∀ s, invariant s → (f i s).1 = g i ∧ invariant (f i s).2) :
    ∀ {rounds i j : ℕ} {s : σ}, j ≤ n → invariant s →
      (searchFromS f rounds i j s).1 = searchFrom g rounds i j ∧
        invariant (searchFromS f rounds i j s).2
  | 0, _, _, _, _, start => ⟨rfl, start⟩
  | rounds + 1, i, j, s, inside, start => by
      rw [searchFromS, searchFrom]
      split
      · rename_i lt
        obtain ⟨answer, kept⟩ := answers ((i + j) / 2) (by omega) s start
        simp only
        rw [← answer]
        cases probe : f ((i + j) / 2) s with
        | mk bit t =>
          rw [probe] at kept
          cases bit with
          | true => exact searchFromS_eq answers (by omega) kept
          | false => exact searchFromS_eq answers inside kept
      · exact ⟨rfl, start⟩

/-- **A predicate whose answers do not depend on its state is searched as if it had
none.** -/
theorem searchS_eq {f : ℕ → σ → Bool × σ} {g : ℕ → Bool} {invariant : σ → Prop} {n : ℕ}
    (answers : ∀ i < n, ∀ s, invariant s → (f i s).1 = g i ∧ invariant (f i s).2) {s : σ}
    (start : invariant s) :
    (searchS n f s).1 = search n g ∧ invariant (searchS n f s).2 :=
  searchFromS_eq answers (le_refl _) start

end Stateful

end OsmMini.Foundations

/-!
## Binary search in a list

A binary search in a list looks for the first element that does not come before a position.
When the elements that come before are the first ones of the list, the search ends behind all
of them (`binarySearch_eq`).
-/

namespace OsmMini.Foundations

variable {α : Type*}

/-- The place of the first element that does not come before. -/
def binarySearch (before : α → Bool) (l : List α) : ℕ :=
  search l.length fun i => !l[i]?.any before

variable {before : α → Bool} {l : List α}

/-- An element stands before a boundary if and only if it comes before. -/
def Boundary (before : α → Bool) (l : List α) (place : ℕ) : Prop :=
  ∀ (i : ℕ) (inside : i < l.length), before l[i] = true ↔ i < place

/-- When the first elements come before and no others, their number is the boundary. -/
theorem boundary_takeWhile (first : l.Pairwise fun a b => before b = true → before a = true) :
    Boundary before l (l.takeWhile before).length := by
  induction l with
  | nil => exact fun i inside => absurd inside (Nat.not_lt_zero i)
  | cons a l ih =>
      obtain ⟨least, rest⟩ := List.pairwise_cons.mp first
      intro i inside
      by_cases here : before a = true
      · rw [List.takeWhile_cons_of_pos here, List.length_cons]
        cases i with
        | zero => exact iff_of_true here (Nat.succ_pos _)
        | succ i =>
            rw [List.getElem_cons_succ, Nat.succ_lt_succ_iff]
            exact ih rest i (Nat.lt_of_succ_lt_succ inside)
      · rw [List.takeWhile_cons_of_neg here, List.length_nil]
        refine iff_of_false ?_ (Nat.not_lt_zero i)
        cases i with
        | zero => exact here
        | succ i => exact fun later => here (least _ (List.getElem_mem _) later)

/-- **The search ends behind the elements that come before.** -/
theorem binarySearch_eq (first : l.Pairwise fun a b => before b = true → before a = true) :
    binarySearch before l = (l.takeWhile before).length := by
  have boundary := boundary_takeWhile first
  have short := (List.takeWhile_prefix (l := l) before).length_le
  have looked : ∀ (i : ℕ) (inside : i < l.length),
      (!l[i]?.any before) = true ↔ ¬i < (l.takeWhile before).length := by
    intro i inside
    rw [List.getElem?_eq_getElem inside, Option.any_some, Bool.not_eq_true',
      ← boundary i inside, Bool.not_eq_true]
  refine search_eq (fun i j le inside found => ?_) short (fun i early => ?_) fun inside => ?_
  · have past := (looked i (le.trans_lt inside)).mp found
    exact (looked j inside).mpr (by omega)
  · have here := mt (looked i (early.trans_le short)).mp (not_not.mpr early)
    exact Bool.eq_false_of_not_eq_true here
  · exact (looked _ inside).mpr (lt_irrefl _)

theorem take_length_takeWhile : l.take (l.takeWhile before).length = l.takeWhile before :=
  (List.prefix_iff_eq_take.mp (List.takeWhile_prefix _)).symm

theorem drop_length_takeWhile : l.drop (l.takeWhile before).length = l.dropWhile before := by
  have dropped := congrArg (List.drop (l.takeWhile before).length)
    (List.takeWhile_append_dropWhile (p := before) (l := l))
  rw [List.drop_left] at dropped
  exact dropped.symm

end OsmMini.Foundations

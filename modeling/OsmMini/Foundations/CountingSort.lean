import Mathlib.Data.List.GetD
import Mathlib.Data.List.Induction
import Mathlib.Data.List.Nodup
import Mathlib.Data.Nat.Basic
import Mathlib.Order.Lattice
import Mathlib.Algebra.BigOperators.Group.List.Basic

/-!
# Counting sort

The places of a list of keys are sorted by their keys. The keys are counted, the sums of the
counts are the places where the blocks begin, and every place is put behind those of the same
key that came before it.

What comes out are the places of the first key, then those of the second key and so on
(`scatter_eq`). The blocks of neighbouring keys stand next to each other, so that the part from
the beginning of one block to the beginning of another has exactly the places of the keys between
(`slice_blocks`).
-/

set_option autoImplicit false

namespace OsmMini.Foundations.CountingSort

/-! ## The algorithm -/

/-- Count one more of a key. -/
def countUp (counts : List ℕ) (key : ℕ) : List ℕ := counts.set key (counts.getD key 0 + 1)

def histogram (keys : List ℕ) (size : ℕ) : List ℕ := keys.foldl countUp (List.replicate size 0)

/-- The sums of the counts before every key, and of all counts. -/
def offsetsOf (counts : List ℕ) : List ℕ :=
  let sums := counts.foldl
    (fun (sums : List ℕ × ℕ) count => (sums.1 ++ [sums.2], sums.2 + count)) ([], 0)
  sums.1 ++ [sums.2]

/-- Put a place behind those of its key: the places so far, and where the next one of each key
goes. -/
def put (state : List ℕ × List ℕ) (entry : ℕ × ℕ) : List ℕ × List ℕ :=
  (state.1.set (state.2.getD entry.1 0) entry.2, countUp state.2 entry.1)

def scatter (keys offsets : List ℕ) : List ℕ :=
  (keys.zipIdx.foldl put (List.replicate keys.length 0, offsets)).1

/-! ## Blocks -/

section Blocks

variable {α : Type*} (f : ℕ → List α)

/-- The blocks of the keys below a bound, one behind the other. -/
def blocks (bound : ℕ) : List α := (List.range bound).flatMap f

theorem blocks_succ (bound : ℕ) : blocks f (bound + 1) = blocks f bound ++ f bound := by
  rw [blocks, List.range_succ, List.flatMap_append, List.flatMap_singleton, blocks]

/-- The blocks up to a bound, and the ones from there to another. -/
theorem blocks_append {first last : ℕ} (ordered : first ≤ last) :
    blocks f last = blocks f first ++ (List.range' first (last - first)).flatMap f := by
  have parts : List.range last = List.range first ++ List.range' first (last - first) := by
    have joined := @List.range'_append_1 0 first (last - first)
    rw [Nat.zero_add, Nat.add_sub_cancel' ordered] at joined
    rw [List.range_eq_range', List.range_eq_range', joined]
  rw [blocks, parts, List.flatMap_append, blocks]

theorem length_blocks_mono {first last : ℕ} (ordered : first ≤ last) :
    (blocks f first).length ≤ (blocks f last).length := by
  rw [blocks_append f ordered, List.length_append]
  exact Nat.le_add_right _ _

/-- **The part between two block beginnings has the blocks between.** -/
theorem slice_blocks {first last bound : ℕ} (ordered : first ≤ last) (inside : last ≤ bound) :
    ((blocks f bound).take (blocks f last).length).drop (blocks f first).length =
      (List.range' first (last - first)).flatMap f := by
  rw [blocks_append f inside, List.take_left, blocks_append f ordered, List.drop_left]

/-- Setting an element of a block. -/
theorem blocks_set {bound key : ℕ} (inside : key < bound) {rank : ℕ}
    (within : rank < (f key).length) (a : α) :
    (blocks f bound).set ((blocks f key).length + rank) a =
      blocks (fun k => if k = key then (f key).set rank a else f k) bound := by
  induction bound with
  | zero => exact absurd inside (Nat.not_lt_zero _)
  | succ bound ih =>
      rw [blocks_succ, blocks_succ]
      rcases Nat.lt_succ_iff_lt_or_eq.mp inside with earlier | rfl
      · have place : (blocks f key).length + rank < (blocks f bound).length := by
          have mono := length_blocks_mono f (Nat.succ_le_of_lt earlier)
          rw [blocks_succ, List.length_append] at mono
          omega
        rw [List.set_append_left _ _ place, ih earlier, if_neg earlier.ne']
      · rw [List.set_append_right _ _ (Nat.le_add_right _ _), Nat.add_sub_cancel_left, if_pos rfl]
        refine congrArg (· ++ _) (List.flatMap_congr fun k member => ?_)
        rw [if_neg (List.mem_range.mp member).ne]

end Blocks

/-! ## What comes out -/

/-- The places of a key, in ascending order. -/
def placesOf (keys : List ℕ) (key : ℕ) : List ℕ :=
  (List.range keys.length).filter fun i => keys[i]? = some key

theorem mem_placesOf {keys : List ℕ} {key i : ℕ} : i ∈ placesOf keys key ↔ keys[i]? = some key := by
  rw [placesOf, List.mem_filter, List.mem_range, decide_eq_true_iff]
  constructor
  · exact And.right
  · intro found
    exact ⟨(List.getElem?_eq_some_iff.mp found).1, found⟩

theorem nodup_placesOf (keys : List ℕ) (key : ℕ) : (placesOf keys key).Nodup :=
  List.nodup_range.filter _

theorem placesOf_concat (keys : List ℕ) (last key : ℕ) :
    placesOf (keys ++ [last]) key =
      placesOf keys key ++ if last = key then [keys.length] else [] := by
  have front : (List.range keys.length).filter (fun i => (keys ++ [last])[i]? = some key) =
      placesOf keys key := by
    refine List.filter_congr fun i member => ?_
    rw [List.getElem?_append_left (List.mem_range.mp member)]
  rw [placesOf, List.length_append, List.length_singleton, List.range_succ, List.filter_append,
    front, List.filter_singleton, List.getElem?_concat_length]
  simp [eq_comm]

theorem length_placesOf (keys : List ℕ) (key : ℕ) :
    (placesOf keys key).length = keys.count key := by
  induction keys using List.reverseRecOn with
  | nil => rfl
  | append_singleton keys last ih =>
      rw [placesOf_concat, List.length_append, ih, List.count_append, List.count_singleton]
      simp only [beq_iff_eq]
      split_ifs <;> rfl

/-- The places of different keys are different. -/
theorem nodup_flatMap_placesOf (keys : List ℕ) {chosen : List ℕ} (distinct : chosen.Nodup) :
    (chosen.flatMap (placesOf keys)).Nodup := by
  refine List.nodup_flatMap.mpr ⟨fun key _ => nodup_placesOf keys key, ?_⟩
  refine distinct.imp fun {a b} different i first second => different ?_
  rw [mem_placesOf] at first second
  exact Option.some.inj (first.symm.trans second)

/-- **All blocks together have every place once.** -/
theorem blocks_perm {keys : List ℕ} {size : ℕ} (inside : ∀ key ∈ keys, key < size) :
    (blocks (placesOf keys) size).Perm (List.range keys.length) := by
  refine (List.perm_ext_iff_of_nodup (nodup_flatMap_placesOf keys List.nodup_range)
    List.nodup_range).mpr fun i => ?_
  rw [List.mem_range]
  constructor
  · intro listed
    obtain ⟨key, -, member⟩ := List.mem_flatMap.mp listed
    exact (List.getElem?_eq_some_iff.mp (mem_placesOf.mp member)).1
  · intro known
    have member := List.getElem_mem known
    exact List.mem_flatMap.mpr ⟨keys[i], List.mem_range.mpr (inside _ member),
      mem_placesOf.mpr (List.getElem?_eq_getElem known)⟩

theorem getD_countUp (counts : List ℕ) {last : ℕ} (inside : last < counts.length) (key : ℕ) :
    (countUp counts last).getD key 0 = counts.getD key 0 + if last = key then 1 else 0 := by
  rw [countUp, List.getD_eq_getElem?_getD, List.getElem?_set]
  split_ifs with same
  · rw [same, Option.getD_some]
  · rw [List.getD_eq_getElem?_getD, Nat.add_zero]

theorem length_countUp (counts : List ℕ) (key : ℕ) :
    (countUp counts key).length = counts.length := List.length_set ..

/-- Counting up the keys of a list. -/
theorem foldl_countUp (keys : List ℕ) {counts : List ℕ}
    (inside : ∀ key ∈ keys, key < counts.length) :
    (keys.foldl countUp counts).length = counts.length ∧
      ∀ key, (keys.foldl countUp counts).getD key 0 = counts.getD key 0 + keys.count key := by
  induction keys generalizing counts with
  | nil => exact ⟨rfl, fun _ => rfl⟩
  | cons first keys ih =>
      have known := inside first List.mem_cons_self
      obtain ⟨length, value⟩ := @ih (countUp counts first) fun key member =>
        (inside key (List.mem_cons_of_mem _ member)).trans_eq (length_countUp _ _).symm
      rw [List.foldl_cons]
      refine ⟨length.trans (length_countUp _ _), fun key => ?_⟩
      rw [value, getD_countUp counts known, List.count_cons, Nat.add_assoc,
        Nat.add_comm (keys.count _)]
      simp only [beq_iff_eq]

/-- **The histogram has the sizes of the blocks.** -/
theorem histogram_eq {keys : List ℕ} {size : ℕ} (inside : ∀ key ∈ keys, key < size) :
    histogram keys size = (List.range size).map fun key => (placesOf keys key).length := by
  obtain ⟨length, value⟩ := @foldl_countUp keys (List.replicate size 0) fun key member =>
    (inside key member).trans_eq List.length_replicate.symm
  rw [List.length_replicate] at length
  apply List.ext_getElem
  · rw [histogram, length, List.length_map, List.length_range]
  · intro key here there
    have found := value key
    rw [List.getD_replicate 0 (length ▸ here), Nat.zero_add] at found
    rw [List.getElem_map, List.getElem_range, length_placesOf, ← found]
    exact (List.getD_eq_getElem _ _ here).symm

/-- **The offsets are where the blocks begin.** -/
theorem offsetsOf_eq (f : ℕ → List ℕ) (size : ℕ) :
    offsetsOf ((List.range size).map fun key => (f key).length) =
      (List.range (size + 1)).map fun key => (blocks f key).length := by
  have sums : ∀ n, ((List.range n).map fun key => (f key).length).foldl
      (fun (sums : List ℕ × ℕ) count => (sums.1 ++ [sums.2], sums.2 + count)) ([], 0) =
        ((List.range n).map fun key => (blocks f key).length, (blocks f n).length) := by
    intro n
    induction n with
    | zero => rfl
    | succ n ih =>
        rw [List.range_succ, List.map_append, List.foldl_append, ih, List.map_append, blocks_succ,
          List.length_append]
        rfl
  rw [offsetsOf, sums, List.range_succ, List.map_append]
  rfl

/-- The places that are known so far, with room for the others of the key. -/
def stage (keys done : List ℕ) (key : ℕ) : List ℕ :=
  placesOf done key ++ List.replicate ((placesOf keys key).length - (placesOf done key).length) 0

/-- What is known after some keys were put: where the places stand, and where the next ones go. -/
structure Staged (keys : List ℕ) (size : ℕ) (done : List ℕ) (state : List ℕ × List ℕ) : Prop where
  holds : state.1 = blocks (stage keys done) size
  length : size ≤ state.2.length
  next : ∀ key < size, state.2.getD key 0 =
    (blocks (placesOf keys) key).length + (placesOf done key).length

section Scatter

variable {keys done rest : List ℕ} {size key : ℕ} {state : List ℕ × List ℕ}

/-- Every stage has the room of its block. -/
theorem length_stage (split : keys = done ++ rest) (key : ℕ) :
    (stage keys done key).length = (placesOf keys key).length := by
  rw [stage, List.length_append, List.length_replicate, length_placesOf, length_placesOf, split,
    List.count_append]
  omega

theorem length_blocks_stage (split : keys = done ++ rest) (bound : ℕ) :
    (blocks (stage keys done) bound).length = (blocks (placesOf keys) bound).length := by
  rw [blocks, blocks, List.length_flatMap, List.length_flatMap]
  exact congrArg List.sum (List.map_congr_left fun key _ => length_stage split key)

/-- **Putting a place keeps the stages.** -/
theorem Staged.put (split : keys = done ++ key :: rest) (inside : key < size)
    (staged : Staged keys size done state) :
    Staged keys size (done ++ [key]) (put state (key, done.length)) := by
  obtain ⟨holds, length, next⟩ := staged
  have count : (placesOf keys key).length =
      (placesOf done key).length + 1 + rest.count key := by
    rw [length_placesOf, length_placesOf, split, List.count_append, List.count_cons_self]
    omega
  have room : (placesOf done key).length < (stage keys done key).length := by
    rw [length_stage split, count]
    omega
  refine ⟨?_, length.trans_eq (length_countUp _ _).symm, fun k bound => ?_⟩
  · have written : (stage keys done key).set (placesOf done key).length done.length =
        stage keys (done ++ [key]) key := by
      obtain ⟨left, full⟩ : ∃ left, (placesOf keys key).length - (placesOf done key).length =
          left + 1 := ⟨rest.count key, by omega⟩
      have added : placesOf (done ++ [key]) key = placesOf done key ++ [done.length] := by
        rw [placesOf_concat, if_pos rfl]
      rw [stage, stage, added, full, List.replicate_succ, List.length_append,
        List.length_singleton, List.set_append_right _ _ (le_refl _), Nat.sub_self,
        List.set_cons_zero, List.append_assoc, List.singleton_append, ← Nat.sub_sub, full,
        Nat.add_sub_cancel]
    rw [CountingSort.put, holds, next key inside, ← length_blocks_stage split,
      blocks_set _ inside room]
    refine List.flatMap_congr fun k _ => ?_
    split_ifs with same
    · rw [same]
      exact written
    · rw [stage, stage, placesOf_concat, if_neg (Ne.symm same), List.append_nil]
  · rw [CountingSort.put, getD_countUp _ (inside.trans_le length), next k bound, placesOf_concat,
      List.length_append]
    split_ifs <;> rfl

/-- **The places come out block by block.** -/
theorem scatter_eq {keys offsets : List ℕ} {size : ℕ} (inside : ∀ key ∈ keys, key < size)
    (length : size ≤ offsets.length)
    (begins : ∀ key < size, offsets.getD key 0 = (blocks (placesOf keys) key).length) :
    scatter keys offsets = blocks (placesOf keys) size := by
  have all : ∀ (rest done : List ℕ) (state : List ℕ × List ℕ), keys = done ++ rest →
      Staged keys size done state →
      Staged keys size keys ((rest.zipIdx done.length).foldl CountingSort.put state) := by
    intro rest
    induction rest with
    | nil =>
        intro done state split staged
        rw [List.append_nil] at split
        exact split ▸ staged
    | cons key rest ih =>
        intro done state split staged
        have known := inside key (split ▸ List.mem_append_right _ List.mem_cons_self)
        have more := ih (done ++ [key]) _ (by rw [split, List.append_cons])
          (staged.put split known)
        rwa [List.length_append] at more
  have first : Staged keys size [] (List.replicate keys.length 0, offsets) := by
    refine ⟨?_, length, fun key bound => begins key bound⟩
    have empty : blocks (stage keys []) size =
        List.replicate (blocks (stage keys []) size).length 0 := by
      refine List.eq_replicate_iff.mpr ⟨rfl, fun i member => ?_⟩
      obtain ⟨key, -, found⟩ := List.mem_flatMap.mp member
      exact List.eq_of_mem_replicate found
    rw [empty, length_blocks_stage (List.nil_append keys).symm, (blocks_perm inside).length_eq,
      List.length_range]
  have final := all keys [] _ rfl first
  rw [List.length_nil] at final
  rw [scatter, final.holds]
  refine List.flatMap_congr fun key _ => ?_
  rw [stage, Nat.sub_self, List.replicate_zero, List.append_nil]

end Scatter

end OsmMini.Foundations.CountingSort

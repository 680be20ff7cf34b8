import Mathlib.Data.List.AList

/-!
# Buckets

A map from keys to lists in which an element can be filed under several keys. Every bucket
holds the elements filed under its key in the order in which they came.
-/

set_option autoImplicit false

namespace OsmMini.Foundations

variable {κ α : Type*} [DecidableEq κ]

/-- The elements filed under a key. -/
def bucket (m : AList fun _ : κ => List α) (k : κ) : List α := (m.lookup k).getD []

/-- File an element under a key. -/
def push (m : AList fun _ : κ => List α) (k : κ) (a : α) : AList fun _ : κ => List α :=
  m.insert k (bucket m k ++ [a])

theorem bucket_empty (k : κ) : bucket (∅ : AList fun _ : κ => List α) k = [] := by
  rw [bucket, AList.lookup_empty]
  rfl

theorem bucket_push (m : AList fun _ : κ => List α) (k k' : κ) (a : α) :
    bucket (push m k a) k' = if k' = k then bucket m k' ++ [a] else bucket m k' := by
  by_cases same : k' = k
  · rw [if_pos same, same, bucket, push, AList.lookup_insert, Option.getD_some]
  · rw [if_neg same, bucket, push, AList.lookup_insert_ne same, bucket]

/-- File an element under every key of a list. -/
def pushAll (m : AList fun _ : κ => List α) (keys : List κ) (a : α) : AList fun _ : κ => List α :=
  keys.foldl (fun m k => push m k a) m

theorem bucket_pushAll (m : AList fun _ : κ => List α) {keys : List κ} (distinct : keys.Nodup)
    (a : α) (k : κ) :
    bucket (pushAll m keys a) k = if k ∈ keys then bucket m k ++ [a] else bucket m k := by
  induction keys generalizing m with
  | nil => rfl
  | cons first keys ih =>
      obtain ⟨fresh, distinct⟩ := List.nodup_cons.mp distinct
      rw [pushAll, List.foldl_cons, ← pushAll, ih _ distinct, bucket_push]
      by_cases same : k = first
      · subst same
        rw [if_neg fresh, if_pos rfl, if_pos List.mem_cons_self]
      · rw [if_neg same]
        simp only [List.mem_cons, same, false_or]

/-- An element filed under several keys is found under each of them. -/
theorem mem_bucket_pushAll {m : AList fun _ : κ => List α} {keys : List κ} {a b : α} {k : κ} :
    b ∈ bucket (pushAll m keys a) k ↔ b ∈ bucket m k ∨ (k ∈ keys ∧ b = a) := by
  induction keys generalizing m with
  | nil =>
      rw [pushAll, List.foldl_nil]
      simp
  | cons first keys ih =>
      rw [pushAll, List.foldl_cons, ← pushAll, ih, bucket_push]
      by_cases same : k = first
      · rw [if_pos same, List.mem_append, List.mem_singleton, List.mem_cons]
        simp only [same, true_or, true_and]
        tauto
      · rw [if_neg same, List.mem_cons]
        simp only [same, false_or]

/-- **A bucket holds the elements that name its key, in their order.** -/
theorem bucket_foldl_pushAll {keys : α → List κ} (distinct : ∀ a, (keys a).Nodup)
    (m : AList fun _ : κ => List α) (l : List α) (k : κ) :
    bucket (l.foldl (fun m a => pushAll m (keys a) a) m) k =
      bucket m k ++ l.filter (fun a => k ∈ keys a) := by
  induction l generalizing m with
  | nil => rw [List.foldl_nil, List.filter_nil, List.append_nil]
  | cons a l ih =>
      rw [List.foldl_cons, ih, bucket_pushAll m (distinct a)]
      by_cases filed : k ∈ keys a
      · rw [if_pos filed, List.filter_cons_of_pos (by simpa using filed), List.append_assoc,
          List.singleton_append]
      · rw [if_neg filed, List.filter_cons_of_neg (by simpa using filed)]

/-- Every element filed under its own key. -/
theorem bucket_foldl_push (m : AList fun _ : κ => List α) (l : List (κ × α)) (k : κ) :
    bucket (l.foldl (fun m entry => push m entry.1 entry.2) m) k =
      bucket m k ++ (l.filter fun entry => entry.1 = k).map Prod.snd := by
  induction l generalizing m with
  | nil => rw [List.foldl_nil, List.filter_nil, List.map_nil, List.append_nil]
  | cons entry l ih =>
      rw [List.foldl_cons, ih, bucket_push]
      by_cases same : entry.1 = k
      · rw [if_pos same.symm, List.filter_cons_of_pos (by simpa using same), List.map_cons,
          List.append_assoc, List.singleton_append]
      · rw [if_neg (Ne.symm same), List.filter_cons_of_neg (by simpa using same)]

/-- Buckets under different keys share no element: reading them reads what is filed under
one of the keys. -/
theorem flatMap_filter_perm (key : α → κ) {keys : List κ} (distinct : keys.Nodup)
    (l : List α) :
    (keys.flatMap fun k => l.filter fun a => key a = k).Perm (l.filter fun a => key a ∈ keys) := by
  induction keys with
  | nil => simp
  | cons k keys ih =>
      obtain ⟨fresh, distinct⟩ := List.nodup_cons.mp distinct
      have here : (l.filter fun a => key a ∈ k :: keys).filter (fun a => key a = k) =
          l.filter fun a => key a = k := by
        rw [List.filter_filter]
        apply List.filter_congr
        intro a _
        by_cases same : key a = k <;> simp [same]
      have there : (l.filter fun a => key a ∈ k :: keys).filter (fun a => !decide (key a = k)) =
          l.filter fun a => key a ∈ keys := by
        rw [List.filter_filter]
        apply List.filter_congr
        intro a _
        by_cases same : key a = k
        · simp [same, fresh]
        · simp [same]
      have split := List.filter_append_perm (fun a => decide (key a = k))
        (l.filter fun a => key a ∈ k :: keys)
      rw [here, there] at split
      rw [List.flatMap_cons]
      exact ((ih distinct).append_left _).trans split

/-- Replace every list of a map. -/
def updateBuckets (f : List α → List α) (m : AList fun _ : κ => List α) :
    AList fun _ : κ => List α :=
  m.keys.foldl (fun m k => m.insert k (f (bucket m k))) m

theorem bucket_foldl_update (f : List α → List α) {keys : List κ} (distinct : keys.Nodup)
    (m : AList fun _ : κ => List α) (k : κ) :
    bucket (keys.foldl (fun m k => m.insert k (f (bucket m k))) m) k =
      if k ∈ keys then f (bucket m k) else bucket m k := by
  induction keys generalizing m with
  | nil => rfl
  | cons first keys ih =>
      obtain ⟨fresh, distinct⟩ := List.nodup_cons.mp distinct
      rw [List.foldl_cons, ih distinct]
      by_cases same : k = first
      · subst same
        rw [if_neg fresh, if_pos List.mem_cons_self, bucket, AList.lookup_insert,
          Option.getD_some]
      · have other : bucket (m.insert first (f (bucket m first))) k = bucket m k := by
          rw [bucket, AList.lookup_insert_ne same, bucket]
        rw [other]
        simp only [List.mem_cons, same, false_or]

/-- A change that leaves the empty list alone reaches every bucket. -/
theorem bucket_updateBuckets {f : List α → List α} (empty : f [] = [])
    (m : AList fun _ : κ => List α) (k : κ) :
    bucket (updateBuckets f m) k = f (bucket m k) := by
  rw [updateBuckets, bucket_foldl_update f m.keys_nodup]
  by_cases filed : k ∈ m.keys
  · exact if_pos filed
  · have none : bucket m k = [] := by
      rw [bucket, AList.lookup_eq_none.mpr (fun member => filed (AList.mem_keys.mp member))]
      rfl
    rw [if_neg filed, none, empty]

end OsmMini.Foundations

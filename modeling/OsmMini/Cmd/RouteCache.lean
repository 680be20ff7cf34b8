import OsmMini.Cmd.Basic
import OsmMini.Core.Types
import OsmMini.Foundations.Deletion
import OsmMini.Foundations.Machine

/-!
# The cache of routes

The cache holds a limited number of responses, each up to a deadline. A new key in a full cache
first drives out what has expired, and if that is not enough the half with the soonest
deadlines.

The size never exceeds the limit (`RouteCache.run_bounded`). A request is answered exactly when
a response was stored that has neither expired nor been driven out, and then with the latest
one (`RouteCache.get_isSome_iff`, `RouteCache.get_eq_some_iff`). What is driven out of a cache
full of live entries is half of it, and nothing that is kept expires earlier
(`RouteCache.makeRoom_half`).

Keys and responses are any types. A Go map is read in any order: the orders are part of a call.
-/

set_option autoImplicit false

namespace OsmMini.Cmd

open OsmMini.Core OsmMini.Foundations OsmMini.Foundations.Machine

/-- An order in which the keys of a map are read. -/
structure MapOrder (K : Type) where
  shuffle : List K → List K
  perm : ∀ keys, (shuffle keys).Perm keys

/-- A response and the time up to which it may be used. -/
structure RouteCacheEntry (R : Type) where
  resp : R
  expiresAt : Time

structure RouteCache (K R : Type) where
  entries : GoMap K (RouteCacheEntry R)
  ttl : ℤ
  maxItems : ℤ

def routeCacheDefaultMaxItems : ℤ := 4096

section Cache

variable {K R : Type}

def newRouteCache (ttl maxItems : ℤ) : RouteCache K R where
  entries := ∅
  ttl := if ttl ≤ 0 then 5 * Time.minute else ttl
  maxItems := if maxItems ≤ 0 then routeCacheDefaultMaxItems else maxItems

variable [DecidableEq K]

namespace RouteCache

/-- Delete the entries whose deadline lies before a time. -/
def purge (order : MapOrder K) (time : Time) (m : GoMap K (RouteCacheEntry R)) :
    GoMap K (RouteCacheEntry R) :=
  deleteAll (fun e => e.expiresAt < time) (order.shuffle m.keys) m

/-- Delete the half with the soonest deadlines. -/
def dropHalf (order : MapOrder K) (m : GoMap K (RouteCacheEntry R)) :
    GoMap K (RouteCacheEntry R) :=
  let expiries := (m.entries.map fun e => e.2.expiresAt).mergeSort
  let remaining := max 1 (expiries.length / 2)
  let cutoff := expiries.getD (remaining - 1) 0
  let older := purge order cutoff m
  -- Equal deadlines can straddle the halfway point.
  deleteSome (fun e => e.expiresAt = cutoff) (remaining - (m.keys.length - older.keys.length))
    (order.shuffle older.keys) older

/-- Delete what has expired, and then half of the rest if the cache is still full. -/
def makeRoom (order : MapOrder K) (now : Time) (maxItems : ℤ) (m : GoMap K (RouteCacheEntry R)) :
    GoMap K (RouteCacheEntry R) :=
  let m := purge order now m
  if maxItems ≤ m.keys.length then dropHalf order m else m

/-- The entries before a response is stored. -/
def prepared (c : RouteCache K R) (key : K) (order : MapOrder K) (now : Time) :
    GoMap K (RouteCacheEntry R) :=
  if (c.entries.lookup key).isNone ∧ c.maxItems ≤ c.entries.keys.length then
    makeRoom order now c.maxItems c.entries
  else c.entries

/-- Store a response. The clock is read before room is made and once more afterwards. -/
def set (c : RouteCache K R) (key : K) (resp : R) (order : MapOrder K) (now later : Time) :
    RouteCache K R :=
  { c with entries := (c.prepared key order now).insert key ⟨resp, later + c.ttl⟩ }

def get (c : RouteCache K R) (key : K) (now : Time) : Option R :=
  match c.entries.lookup key with
  | none => none
  | some e => if e.expiresAt < now then none else some e.resp

def evict (c : RouteCache K R) (order : MapOrder K) (now : Time) : RouteCache K R :=
  { c with entries := purge order now c.entries }

def invalidate (c : RouteCache K R) : RouteCache K R := { c with entries := ∅ }

/-! ## Runs -/

/-- The calls to a cache, with the times at which they read the clock. -/
inductive Call (K R : Type) where
  | set (key : K) (resp : R) (order : MapOrder K) (now later : Time)
  | get (key : K) (now : Time)
  | evict (order : MapOrder K) (now : Time)
  | invalidate

def step (c : RouteCache K R) : Call K R → RouteCache K R × Option R
  | .set key resp order now later => (c.set key resp order now later, none)
  | .get key now => (c, c.get key now)
  | .evict order now => (c.evict order now, none)
  | .invalidate => (c.invalidate, none)

/-- The clock does not go back, from a time on. -/
def Clocked : Time → List (Call K R) → Prop
  | _, [] => True
  | time, .set _ _ _ now later :: calls => time ≤ now ∧ now ≤ later ∧ Clocked later calls
  | time, .get _ now :: calls => time ≤ now ∧ Clocked now calls
  | time, .evict _ now :: calls => time ≤ now ∧ Clocked now calls
  | time, .invalidate :: calls => Clocked time calls

/-- The keys that a call drives out. -/
def evicted (c : RouteCache K R) : Call K R → List K
  | .set key _ order now _ =>
    c.entries.keys.filter fun k => ((c.prepared key order now).lookup k).isNone
  | .evict order now => c.entries.keys.filter fun k => ((c.evict order now).entries.lookup k).isNone
  | .get _ _ => []
  | .invalidate => []

/-- A key is not driven out and the cache is not invalidated. -/
def Stays (key : K) : RouteCache K R → List (Call K R) → Prop
  | _, [] => True
  | c, call :: calls =>
    call ≠ .invalidate ∧ key ∉ c.evicted call ∧ Stays key (c.step call).1 calls

end RouteCache

/-- A call that stores a response for a key. -/
def RouteCache.Call.Sets (key : K) : RouteCache.Call K R → Prop
  | .set k _ _ _ _ => k = key
  | _ => False

/-! ## What is driven out -/

namespace RouteCache

omit [DecidableEq K] in
theorem nodup_shuffle (order : MapOrder K) (m : GoMap K (RouteCacheEntry R)) :
    (order.shuffle m.keys).Nodup := (order.perm m.keys).nodup_iff.mpr m.keys_nodup

theorem mem_keys_of_any {m : GoMap K (RouteCacheEntry R)} {p : RouteCacheEntry R → Bool} {k : K}
    (found : (m.lookup k).any p = true) : k ∈ m.keys := by
  rw [← AList.mem_keys, ← AList.lookup_isSome]
  cases here : m.lookup k with
  | none =>
      rw [here] at found
      cases found
  | some e => rfl

theorem mem_filter_keys_any (m : GoMap K (RouteCacheEntry R)) (p : RouteCacheEntry R → Bool)
    (k : K) : k ∈ m.keys.filter (fun k => (m.lookup k).any p) ↔ (m.lookup k).any p = true := by
  rw [List.mem_filter]
  exact and_iff_right_of_imp mem_keys_of_any

theorem mem_filter_keys (m : GoMap K (RouteCacheEntry R)) (p : RouteCacheEntry R → Bool) (k : K) :
    k ∈ m.keys.filter (fun k => (m.lookup k).any p) ↔ ∃ e, m.lookup k = some e ∧ p e = true := by
  refine (mem_filter_keys_any m p k).trans ?_
  cases m.lookup k with
  | none => simp
  | some e => simp

/-- Deadlines before a time are deleted. -/
theorem lookup_purge (order : MapOrder K) (time : Time) (m : GoMap K (RouteCacheEntry R)) (k : K) :
    (purge order time m).lookup k =
      if (m.lookup k).any (fun e => e.expiresAt < time) = true then none else m.lookup k := by
  rw [purge, lookup_deleteAll (nodup_shuffle order m)]
  refine if_congr (and_iff_right_of_imp fun found => ?_) rfl rfl
  exact (order.perm m.keys).mem_iff.mpr (mem_keys_of_any found)

/-- The keys and the entries of a map are counted alike. -/
theorem length_filter_keys (m : GoMap K (RouteCacheEntry R)) (p : Time → Bool) :
    (m.keys.filter fun k => (m.lookup k).any fun e => p e.expiresAt).length =
      ((m.entries.map fun e => e.2.expiresAt).filter p).length := by
  have keys : m.keys = m.entries.map Sigma.fst := rfl
  rw [keys, List.filter_map, List.filter_map, List.length_map, List.length_map]
  congr 1
  refine List.filter_congr fun e member => ?_
  have found : m.lookup e.1 = some e.2 := AList.mem_lookup_iff.mpr member
  rw [Function.comp_apply, Function.comp_apply, found, Option.any_some]

/-- The keys left and the keys with earlier deadlines are all keys. -/
theorem length_purge (order : MapOrder K) (time : Time) (m : GoMap K (RouteCacheEntry R)) :
    (purge order time m).keys.length +
      (m.keys.filter fun k => (m.lookup k).any fun e => decide (e.expiresAt < time)).length =
        m.keys.length := by
  have split := (List.filter_append_perm
    (fun k => (m.lookup k).any fun e => decide (e.expiresAt < time)) m.keys).length_eq
  rw [List.length_append] at split
  rw [(keys_perm_of_lookup fun k => lookup_purge order time m k).length_eq]
  simp only [decide_not, Bool.decide_eq_true]
  omega

/-- The keys with a deadline are not deleted with those that have earlier ones. -/
theorem filter_purge_perm (order : MapOrder K) (time : Time) (m : GoMap K (RouteCacheEntry R)) :
    ((order.shuffle (purge order time m).keys).filter fun k =>
      ((purge order time m).lookup k).any fun e => decide (e.expiresAt = time)).Perm
      (m.keys.filter fun k => (m.lookup k).any fun e => decide (e.expiresAt = time)) := by
  refine (List.perm_ext_iff_of_nodup ((nodup_shuffle order _).filter _)
    (m.keys_nodup.filter _)).mpr fun k => ?_
  rw [((order.perm _).filter _).mem_iff, mem_filter_keys, mem_filter_keys, lookup_purge]
  refine exists_congr fun e => ?_
  simp only [decide_eq_true_eq]
  by_cases sooner : (m.lookup k).any (fun e => decide (e.expiresAt < time)) = true
  · rw [if_pos sooner]
    refine iff_of_false (fun found => by cases found.1) ?_
    rintro ⟨found, same⟩
    rw [found, Option.any_some, decide_eq_true_iff] at sooner
    exact absurd same sooner.ne
  · rw [if_neg sooner]

/-- The keys that are driven out: half of the keys, none of which expires after a key that is
kept. -/
structure Half (m m' : GoMap K (RouteCacheEntry R)) (gone : List K) : Prop where
  distinct : gone.Nodup
  inside : ∀ k ∈ gone, k ∈ m
  size : gone.length = max 1 (m.keys.length / 2)
  left : ∀ k, m'.lookup k = if k ∈ gone then none else m.lookup k
  sooner : ∀ k ∈ gone, ∀ k' ∉ gone, ∀ e ∈ m.lookup k, ∀ e' ∈ m.lookup k',
    e.expiresAt ≤ e'.expiresAt

theorem Half.length {m m' : GoMap K (RouteCacheEntry R)} {gone : List K} (half : Half m m' gone) :
    m'.keys.length + gone.length = m.keys.length := by
  have split := (List.filter_append_perm (fun k => decide (k ∈ gone)) m.keys).length_eq
  have same : (m.keys.filter fun k => decide (k ∈ gone)).Perm gone := by
    refine (List.perm_ext_iff_of_nodup (m.keys_nodup.filter _) half.distinct).mpr fun k => ?_
    rw [List.mem_filter, decide_eq_true_iff]
    exact and_iff_right_of_imp fun member => AList.mem_keys.mp (half.inside k member)
  rw [List.length_append, same.length_eq] at split
  rw [(keys_perm_of_lookup half.left).length_eq]
  simp only [decide_not]
  omega

/-- **The half with the soonest deadlines is deleted.** -/
theorem dropHalf_half (order : MapOrder K) {m : GoMap K (RouteCacheEntry R)}
    (nonempty : 0 < m.keys.length) : ∃ gone, Half m (dropHalf order m) gone := by
  have total : (m.entries.map fun e => e.2.expiresAt).length = m.keys.length := by
    rw [List.length_map]
    exact (List.length_map _).symm
  have length : ((m.entries.map fun e => e.2.expiresAt).mergeSort).length = m.keys.length :=
    (List.mergeSort_perm _ _).length_eq.trans total
  obtain ⟨fewer, enough⟩ := smallest_counts (m.entries.map fun e => e.2.expiresAt) 0
    (max 1 (m.keys.length / 2)) (by omega) (by omega)
  rw [dropHalf, length]
  generalize remainingEq : max 1 (m.keys.length / 2) = remaining at fewer enough ⊢
  generalize (m.entries.map fun e => e.2.expiresAt).mergeSort.getD (remaining - 1) 0 = cutoff
    at fewer enough ⊢
  rw [length_filter_le] at enough
  rw [← length_filter_keys m fun time => decide (time < cutoff)] at fewer enough
  rw [← length_filter_keys m fun time => decide (time = cutoff)] at enough
  -- The keys deleted by the first loop, and those that the second loop may delete.
  generalize beforeEq : (m.keys.filter fun k =>
    (m.lookup k).any fun e => decide (e.expiresAt < cutoff)) = before at fewer enough
  have inBefore : ∀ k, k ∈ before ↔ ∃ e, m.lookup k = some e ∧ e.expiresAt < cutoff := by
    intro k
    rw [← beforeEq, mem_filter_keys]
    simp only [decide_eq_true_eq]
  have left : ∀ k, (purge order cutoff m).lookup k = if k ∈ before then none else m.lookup k := by
    intro k
    rw [lookup_purge, ← beforeEq]
    exact if_congr ((mem_filter_keys_any m _ k).symm) rfl rfl
  have keysLeft := length_purge order cutoff m
  rw [beforeEq] at keysLeft
  have equals := filter_purge_perm order cutoff m
  rw [← equals.length_eq] at enough
  have number : m.keys.length - (purge order cutoff m).keys.length = before.length := by omega
  rw [number]
  -- The second loop deletes as many as are still missing.
  generalize deletedEq : deletedKeys (fun e : RouteCacheEntry R => decide (e.expiresAt = cutoff))
    (remaining - before.length) (order.shuffle (purge order cutoff m).keys)
    (purge order cutoff m) = second
  have inSecond : ∀ k ∈ second, ∃ e, m.lookup k = some e ∧ e.expiresAt = cutoff := by
    intro k member
    rw [← deletedEq] at member
    have found := (mem_filter_keys m _ k).mp (equals.subset (List.mem_of_mem_take member))
    simpa only [decide_eq_true_eq] using found
  refine ⟨before ++ second, ?_, ?_, ?_, ?_, ?_⟩
  · refine List.nodup_append.mpr ⟨?_, ?_, ?_⟩
    · rw [← beforeEq]
      exact m.keys_nodup.filter _
    · rw [← deletedEq]
      exact ((nodup_shuffle order _).filter _).sublist (List.take_sublist _ _)
    · rintro k inFirst k' inLast rfl
      obtain ⟨e, found, sooner⟩ := (inBefore k).mp inFirst
      obtain ⟨e', found', same⟩ := inSecond k inLast
      rw [found] at found'
      cases found'
      exact absurd same sooner.ne
  · intro k member
    rw [← AList.lookup_isSome]
    rcases List.mem_append.mp member with first | last
    · obtain ⟨e, found, -⟩ := (inBefore k).mp first
      rw [found]
      rfl
    · obtain ⟨e, found, -⟩ := inSecond k last
      rw [found]
      rfl
  · rw [List.length_append, ← deletedEq, deletedKeys, List.length_take]
    omega
  · intro k
    rw [lookup_deleteSome (nodup_shuffle order _), deletedEq, left k]
    simp only [List.mem_append]
    by_cases first : k ∈ before
    · simp [first]
    · simp [first]
  · intro k member k' kept e found e' found'
    have latest : e.expiresAt ≤ cutoff := by
      rcases List.mem_append.mp member with first | last
      · obtain ⟨d, here, sooner⟩ := (inBefore k).mp first
        rw [Option.mem_def, here] at found
        cases found
        exact sooner.le
      · obtain ⟨d, here, same⟩ := inSecond k last
        rw [Option.mem_def, here] at found
        cases found
        exact same.le
    have notBefore : ¬e'.expiresAt < cutoff := fun sooner =>
      kept (List.mem_append.mpr (Or.inl ((inBefore k').mpr ⟨e', found', sooner⟩)))
    exact latest.trans (not_lt.mp notBefore)

theorem makeRoom_left (order : MapOrder K) (now : Time) {maxItems : ℤ} (positive : 0 < maxItems)
    (m : GoMap K (RouteCacheEntry R)) (k : K) :
    (makeRoom order now maxItems m).lookup k = none ∨
      (makeRoom order now maxItems m).lookup k = m.lookup k := by
  have purged : (purge order now m).lookup k = none ∨
      (purge order now m).lookup k = m.lookup k := by
    rw [lookup_purge]
    split
    · exact Or.inl rfl
    · exact Or.inr rfl
  rw [makeRoom]
  by_cases full : maxItems ≤ (purge order now m).keys.length
  · rw [if_pos full]
    obtain ⟨gone, half⟩ := dropHalf_half order (m := purge order now m) (by omega)
    rw [half.left k]
    by_cases member : k ∈ gone
    · exact Or.inl (if_pos member)
    · rw [if_neg member]
      exact purged
  · rw [if_neg full]
    exact purged

/-- Room for one entry is made. -/
theorem makeRoom_length (order : MapOrder K) (now : Time) {maxItems : ℤ} (positive : 0 < maxItems)
    {m : GoMap K (RouteCacheEntry R)} (bounded : (m.keys.length : ℤ) ≤ maxItems) :
    ((makeRoom order now maxItems m).keys.length : ℤ) < maxItems := by
  have shorter := length_purge order now m
  rw [makeRoom]
  by_cases full : maxItems ≤ (purge order now m).keys.length
  · rw [if_pos full]
    obtain ⟨gone, half⟩ := dropHalf_half order (m := purge order now m) (by omega)
    have size := half.length
    have some_ := half.size
    omega
  · rw [if_neg full]
    omega

/-! ## One call -/

variable {c : RouteCache K R}

@[simp] theorem step_ttl (call : Call K R) : (c.step call).1.ttl = c.ttl := by
  cases call <;> rfl

@[simp] theorem step_maxItems (call : Call K R) : (c.step call).1.maxItems = c.maxItems := by
  cases call <;> rfl

theorem lookup_prepared (positive : 0 < c.maxItems) (key : K) (order : MapOrder K) (now : Time)
    (k : K) : (c.prepared key order now).lookup k = none ∨
      (c.prepared key order now).lookup k = c.entries.lookup k := by
  rw [prepared]
  split
  · exact makeRoom_left order now positive c.entries k
  · exact Or.inr rfl

/-- Keys that are not driven out keep what they hold. -/
theorem lookup_of_not_gone {m m' : GoMap K (RouteCacheEntry R)} {k : K}
    (kept : k ∉ m.keys.filter fun k => (m'.lookup k).isNone)
    (left : m'.lookup k = none ∨ m'.lookup k = m.lookup k) : m'.lookup k = m.lookup k := by
  rcases left with gone | same
  · cases old : m.lookup k with
    | none => exact gone
    | some e =>
        have member : k ∈ m.keys := by
          rw [← AList.mem_keys, ← AList.lookup_isSome, old]
          rfl
        refine absurd (List.mem_filter.mpr ⟨member, ?_⟩) kept
        rw [gone]
        rfl
  · exact same

theorem lookup_set (c : RouteCache K R) (key : K) (resp : R) (order : MapOrder K)
    (now later : Time) : (c.set key resp order now later).entries.lookup key =
      some ⟨resp, later + c.ttl⟩ := AList.lookup_insert _

/-- **A call keeps what it does not store, drive out or invalidate.** -/
theorem lookup_step (positive : 0 < c.maxItems) {call : Call K R} {k : K}
    (other : ¬call.Sets k) (valid : call ≠ .invalidate) (kept : k ∉ c.evicted call) :
    (c.step call).1.entries.lookup k = c.entries.lookup k := by
  cases call with
  | set key resp order now later =>
      have differ : k ≠ key := fun same => other same.symm
      rw [step, set, AList.lookup_insert_ne differ]
      exact lookup_of_not_gone kept (lookup_prepared positive key order now k)
  | get key now => rfl
  | evict order now =>
      refine lookup_of_not_gone kept ?_
      show (purge order now c.entries).lookup k = none ∨
        (purge order now c.entries).lookup k = c.entries.lookup k
      rw [lookup_purge]
      split
      · exact Or.inl rfl
      · exact Or.inr rfl
  | invalidate => exact absurd rfl valid

/-- What is driven out or invalidated is missing, unless it is stored by the same call. -/
theorem lookup_step_none {call : Call K R} {k : K} (other : ¬call.Sets k)
    (gone : call = .invalidate ∨ k ∈ c.evicted call) :
    (c.step call).1.entries.lookup k = none := by
  cases call with
  | set key resp order now later =>
      have differ : k ≠ key := fun same => other same.symm
      have member := gone.resolve_left (fun same => by cases same)
      rw [step, set, AList.lookup_insert_ne differ]
      exact Option.isNone_iff_eq_none.mp (List.mem_filter.mp member).2
  | get key now =>
      rcases gone with same | member
      · cases same
      · exact absurd member List.not_mem_nil
  | evict order now =>
      have member := gone.resolve_left (fun same => by cases same)
      exact Option.isNone_iff_eq_none.mp (List.mem_filter.mp member).2
  | invalidate => exact AList.lookup_empty k

/-! ## The size -/

/-- The entries are at most as many as the limit. -/
def Bounded (c : RouteCache K R) : Prop :=
  0 < c.maxItems ∧ (c.entries.keys.length : ℤ) ≤ c.maxItems

theorem length_insert_le (m : GoMap K (RouteCacheEntry R)) (key : K) (e : RouteCacheEntry R) :
    (m.insert key e).keys.length ≤ m.keys.length + 1 := by
  rw [AList.keys_insert, List.length_cons]
  have shorter := (List.erase_sublist (a := key) (l := m.keys)).length_le
  omega

theorem length_insert_of_mem {m : GoMap K (RouteCacheEntry R)} {key : K} (member : key ∈ m)
    (e : RouteCacheEntry R) : (m.insert key e).keys.length = m.keys.length := by
  have inside := AList.mem_keys.mp member
  have positive := List.length_pos_of_mem inside
  rw [AList.keys_insert, List.length_cons, List.length_erase_of_mem inside]
  omega

theorem Bounded.step (bounded : c.Bounded) (call : Call K R) : (c.step call).1.Bounded := by
  obtain ⟨positive, few⟩ := bounded
  cases call with
  | set key resp order now later =>
      refine ⟨positive, ?_⟩
      show (((c.prepared key order now).insert key _).keys.length : ℤ) ≤ c.maxItems
      rw [prepared]
      by_cases full : (c.entries.lookup key).isNone ∧ c.maxItems ≤ c.entries.keys.length
      · rw [if_pos full]
        have room := makeRoom_length order now positive few
        have more := length_insert_le (makeRoom order now c.maxItems c.entries) key
          ⟨resp, later + c.ttl⟩
        omega
      · rw [if_neg full]
        by_cases present : (c.entries.lookup key).isNone
        · have room : ¬c.maxItems ≤ c.entries.keys.length := fun le => full ⟨present, le⟩
          have more := length_insert_le c.entries key ⟨resp, later + c.ttl⟩
          omega
        · have member : key ∈ c.entries := by
            rw [← AList.lookup_isSome]
            simpa [Option.isSome_iff_ne_none] using present
          rw [length_insert_of_mem member]
          exact few
  | get key now => exact ⟨positive, few⟩
  | evict order now =>
      have fewer := length_purge order now c.entries
      refine ⟨positive, ?_⟩
      show ((purge order now c.entries).keys.length : ℤ) ≤ c.maxItems
      omega
  | invalidate => exact ⟨positive, positive.le⟩

omit [DecidableEq K] in
theorem newRouteCache_bounded (ttl maxItems : ℤ) :
    (newRouteCache ttl maxItems : RouteCache K R).Bounded := by
  have positive : 0 < (newRouteCache ttl maxItems : RouteCache K R).maxItems := by
    show 0 < if maxItems ≤ 0 then routeCacheDefaultMaxItems else maxItems
    split
    · decide
    · omega
  exact ⟨positive, positive.le⟩

/-- **The limit is never exceeded.** -/
theorem run_bounded (ttl maxItems : ℤ) (calls : List (Call K R)) :
    (run step (newRouteCache ttl maxItems) calls).Bounded :=
  run_always (fun _ call bounded => bounded.step call) calls _ (newRouteCache_bounded ttl maxItems)

@[simp] theorem run_ttl (c : RouteCache K R) (calls : List (Call K R)) :
    (run step c calls).ttl = c.ttl := by
  induction calls generalizing c with
  | nil => rfl
  | cons call calls ih => rw [run_cons, ih, step_ttl]

@[simp] theorem run_maxItems (c : RouteCache K R) (calls : List (Call K R)) :
    (run step c calls).maxItems = c.maxItems := by
  induction calls generalizing c with
  | nil => rfl
  | cons call calls ih => rw [run_cons, ih, step_maxItems]

/-! ## What is found -/

theorem stays_snoc {key : K} {call : Call K R} {calls : List (Call K R)} :
    ∀ {c : RouteCache K R}, Stays key c (calls ++ [call]) ↔
      Stays key c calls ∧ call ≠ .invalidate ∧ key ∉ (run step c calls).evicted call := by
  induction calls with
  | nil =>
      intro c
      simp [Stays]
  | cons first calls ih =>
      intro c
      rw [List.cons_append, Stays, Stays, ih, run_cons]
      simp only [and_assoc]

/-- The latest response stored for a key, with the calls before and after it. -/
def Stored (c : RouteCache K R) (calls : List (Call K R)) (key : K) (resp : R) (time : Time)
    (before after : List (Call K R)) : Prop :=
  ∃ order now, calls = before ++ .set key resp order now time :: after ∧
    Stays key (run step c (before ++ [.set key resp order now time])) after

theorem stored_snoc {calls before after : List (Call K R)} {call : Call K R} {key : K} {resp : R}
    {time : Time} : c.Stored (calls ++ [call]) key resp time before (after ++ [call]) ↔
      c.Stored calls key resp time before after ∧
        call ≠ .invalidate ∧ key ∉ (run step c calls).evicted call := by
  constructor
  · rintro ⟨order, now, split, stays⟩
    rw [← List.cons_append, ← List.append_assoc] at split
    have rest := List.append_cancel_right split
    obtain ⟨earlier, valid, kept⟩ := stays_snoc.mp stays
    refine ⟨⟨order, now, rest, earlier⟩, valid, ?_⟩
    rwa [rest, ← List.singleton_append, ← List.append_assoc, run_append]
  · rintro ⟨⟨order, now, split, stays⟩, valid, kept⟩
    refine ⟨order, now, ?_, stays_snoc.mpr ⟨stays, valid, ?_⟩⟩
    · rw [split, List.append_assoc, List.cons_append]
    · rwa [split, ← List.singleton_append, ← List.append_assoc, run_append] at kept

/-- **A key holds the latest response that was stored**, unless it was driven out since. -/
theorem lookup_run_iff (positive : 0 < c.maxItems) {key : K}
    (empty : c.entries.lookup key = none) {e : RouteCacheEntry R} {calls : List (Call K R)} :
    (run step c calls).entries.lookup key = some e ↔
      ∃ before time after, c.Stored calls key e.resp time before after ∧
        e.expiresAt = time + c.ttl ∧ ∀ call ∈ after, ¬call.Sets key := by
  induction calls using List.reverseRecOn with
  | nil =>
      rw [run_nil, empty]
      refine iff_of_false (fun found => by cases found) ?_
      rintro ⟨before, time, after, ⟨order, now, split, -⟩, -⟩
      exact absurd (congrArg List.length split) (by simp)
  | append_singleton calls call ih =>
      rw [run_snoc]
      by_cases stores : call.Sets key
      · -- The last call stores a response, so nothing comes after it.
        cases call with
        | set k resp order now later =>
            obtain rfl : k = key := stores
            have found := lookup_set (run step c calls) k resp order now later
            rw [run_ttl] at found
            rw [step, found]
            constructor
            · intro same
              obtain rfl := Option.some.inj same
              exact ⟨calls, later, [], ⟨order, now, rfl, trivial⟩, rfl, by simp⟩
            · rintro ⟨before, time, after, ⟨order', now', split, -⟩, expires, noLater⟩
              rcases List.eq_nil_or_concat' after with rfl | ⟨after, last, rfl⟩
              · obtain ⟨-, same⟩ := List.append_inj' split rfl
                cases e
                cases same
                cases expires
                rfl
              · rw [← List.cons_append, ← List.append_assoc] at split
                obtain ⟨-, same⟩ := List.append_inj' split rfl
                obtain rfl := List.singleton_inj.mp same
                exact (noLater _ (List.mem_append_right _ (List.mem_singleton_self _)) rfl).elim
        | get k now => exact stores.elim
        | evict order now => exact stores.elim
        | invalidate => exact stores.elim
      · have further : (∃ before time after,
            c.Stored (calls ++ [call]) key e.resp time before after ∧
              e.expiresAt = time + c.ttl ∧ ∀ call ∈ after, ¬call.Sets key) ↔
            (∃ before time after, c.Stored calls key e.resp time before after ∧
              e.expiresAt = time + c.ttl ∧ ∀ call ∈ after, ¬call.Sets key) ∧
              call ≠ .invalidate ∧ key ∉ (run step c calls).evicted call := by
          constructor
          · rintro ⟨before, time, after, stored, expires, noLater⟩
            rcases List.eq_nil_or_concat' after with rfl | ⟨after, last, rfl⟩
            · obtain ⟨order, now, split, -⟩ := stored
              obtain ⟨-, same⟩ := List.append_inj' split rfl
              obtain rfl := List.singleton_inj.mp same
              exact absurd rfl stores
            · have last' : last = call := by
                obtain ⟨order, now, split, -⟩ := stored
                rw [← List.cons_append, ← List.append_assoc] at split
                exact (List.singleton_inj.mp (List.append_inj' split rfl).2).symm
              subst last'
              obtain ⟨earlier, rest⟩ := stored_snoc.mp stored
              exact ⟨⟨before, time, after, earlier, expires, fun call member =>
                noLater call (List.mem_append_left _ member)⟩, rest⟩
          · rintro ⟨⟨before, time, after, stored, expires, noLater⟩, rest⟩
            refine ⟨before, time, after ++ [call], stored_snoc.mpr ⟨stored, rest⟩, expires, ?_⟩
            intro other member
            rcases List.mem_append.mp member with old | last
            · exact noLater other old
            · rw [List.mem_singleton.mp last]
              exact stores
        rw [further, ← ih]
        by_cases gone : call = .invalidate ∨ key ∈ (run step c calls).evicted call
        · rw [lookup_step_none stores gone]
          refine iff_of_false (fun found => by cases found) ?_
          rintro ⟨-, valid, kept⟩
          exact gone.elim valid kept
        · obtain ⟨valid, kept⟩ := not_or.mp gone
          have limit : 0 < (run step c calls).maxItems := by
            rwa [run_maxItems]
          rw [lookup_step limit stores valid kept]
          exact (and_iff_left ⟨valid, kept⟩).symm

theorem get_eq_some_iff {key : K} {now : Time} {resp : R} : c.get key now = some resp ↔
    ∃ e, c.entries.lookup key = some e ∧ now ≤ e.expiresAt ∧ e.resp = resp := by
  rw [get]
  cases c.entries.lookup key with
  | none => simp
  | some e =>
      by_cases expired : e.expiresAt < now
      · simp [expired]
      · simp [expired, not_lt.mp expired]

/-- A key that stays keeps a deadline that is not earlier. -/
theorem stays_lookup {key : K} {bound : Time}
    {calls : List (Call K R)} : ∀ {c : RouteCache K R} {time : Time}, 0 < c.maxItems →
    Clocked time calls → bound ≤ time + c.ttl → Stays key c calls →
    (∃ e, c.entries.lookup key = some e ∧ bound ≤ e.expiresAt) →
    ∃ e, (run step c calls).entries.lookup key = some e ∧ bound ≤ e.expiresAt := by
  induction calls with
  | nil => exact fun _ _ _ _ found => found
  | cons call calls ih =>
      rintro c time positive clocked soon ⟨valid, kept, stays⟩ ⟨e, found, late⟩
      rw [run_cons]
      have limit : 0 < (c.step call).1.maxItems := by
        rwa [step_maxItems]
      have unchanged : ¬call.Sets key →
          (c.step call).1.entries.lookup key = some e := fun other =>
        (lookup_step positive other valid kept).trans found
      cases call with
      | set k resp order now later =>
          obtain ⟨begins, ends, clocked⟩ := clocked
          have soon' : bound ≤ later + c.ttl := by linarith
          refine ih limit clocked soon' stays ?_
          by_cases same : k = key
          · subst same
            exact ⟨_, lookup_set c k resp order now later, soon'⟩
          · exact ⟨e, unchanged same, late⟩
      | get k now =>
          obtain ⟨begins, clocked⟩ := clocked
          have soon' : bound ≤ now + c.ttl := by linarith
          exact ih limit clocked soon' stays ⟨e, unchanged not_false, late⟩
      | evict order now =>
          obtain ⟨begins, clocked⟩ := clocked
          have soon' : bound ≤ now + c.ttl := by linarith
          exact ih limit clocked soon' stays ⟨e, unchanged not_false, late⟩
      | invalidate => exact absurd rfl valid

omit [DecidableEq K] in
theorem clocked_after {before after : List (Call K R)} {key : K} {resp : R} {order : MapOrder K}
    {now later : Time} : ∀ {time : Time},
    Clocked time (before ++ .set key resp order now later :: after) → Clocked later after := by
  induction before with
  | nil => exact fun clocked => clocked.2.2
  | cons call before ih =>
      intro time clocked
      cases call with
      | set => exact ih clocked.2.2
      | get => exact ih clocked.2
      | evict => exact ih clocked.2
      | invalidate => exact ih clocked

/-- **A request is answered exactly when a response was stored that has neither expired nor
been driven out since.** -/
theorem get_isSome_iff (positive : 0 < c.maxItems) {key : K}
    (empty : c.entries.lookup key = none) {calls : List (Call K R)} {start : Time}
    (clocked : Clocked start calls) (now : Time) :
    ((run step c calls).get key now).isSome = true ↔
      ∃ before resp time after, c.Stored calls key resp time before after ∧
        now ≤ time + c.ttl := by
  constructor
  · intro answered
    obtain ⟨resp, answer⟩ := Option.isSome_iff_exists.mp answered
    obtain ⟨e, found, late, rfl⟩ := get_eq_some_iff.mp answer
    obtain ⟨before, time, after, stored, expires, -⟩ := (lookup_run_iff positive empty).mp found
    exact ⟨before, e.resp, time, after, stored, late.trans expires.le⟩
  · rintro ⟨before, resp, time, after, ⟨order, t, split, stays⟩, late⟩
    rw [split] at clocked
    have limit : 0 < (run step c (before ++ [.set key resp order t time])).maxItems := by
      rwa [run_maxItems]
    have stored := lookup_set (run step c before) key resp order t time
    rw [run_ttl] at stored
    obtain ⟨e, found, late'⟩ := stays_lookup limit (clocked_after clocked)
      (show now ≤ time + (run step c (before ++ [.set key resp order t time])).ttl by
        rwa [run_ttl]) stays ⟨_, by rw [run_snoc]; exact stored, late⟩
    rw [← run_append, List.append_assoc, List.singleton_append, ← split] at found
    exact Option.isSome_iff_exists.mpr ⟨e.resp, get_eq_some_iff.mpr ⟨e, found, late', rfl⟩⟩

/-- **The answer is the latest response stored.** -/
theorem get_run_iff (positive : 0 < c.maxItems) {key : K}
    (empty : c.entries.lookup key = none) {calls : List (Call K R)} {now : Time} {resp : R} :
    (run step c calls).get key now = some resp ↔
      ∃ before time after, c.Stored calls key resp time before after ∧
        now ≤ time + c.ttl ∧ ∀ call ∈ after, ¬call.Sets key := by
  rw [get_eq_some_iff]
  constructor
  · rintro ⟨e, found, late, rfl⟩
    obtain ⟨before, time, after, stored, expires, latest⟩ :=
      (lookup_run_iff positive empty).mp found
    exact ⟨before, time, after, stored, late.trans expires.le, latest⟩
  · rintro ⟨before, time, after, stored, late, latest⟩
    exact ⟨⟨resp, time + c.ttl⟩, (lookup_run_iff positive empty).mpr
      ⟨before, time, after, stored, rfl, latest⟩, late, rfl⟩

/-! ## A full cache -/

/-- The keys that are missing after a response is stored. -/
def missingAfter (c : RouteCache K R) (key : K) (resp : R) (order : MapOrder K)
    (now later : Time) : List K :=
  c.entries.keys.filter fun k =>
    ((c.set key resp order now later).entries.lookup k).isNone

/-- **Of a cache full of live entries half is driven out**, and nothing that is driven out
expires later than what is kept. -/
theorem set_full (positive : 0 < c.maxItems) {key : K}
    (fresh : c.entries.lookup key = none) (full : c.maxItems ≤ c.entries.keys.length)
    {now : Time} (live : ∀ k, ∀ e ∈ c.entries.lookup k, now ≤ e.expiresAt) (resp : R)
    (order : MapOrder K) (later : Time) :
    (c.missingAfter key resp order now later).length = max 1 (c.entries.keys.length / 2) ∧
      ∀ k ∈ c.missingAfter key resp order now later,
        ∀ k' ∉ c.missingAfter key resp order now later,
          ∀ e ∈ c.entries.lookup k, ∀ e' ∈ c.entries.lookup k', e.expiresAt ≤ e'.expiresAt := by
  have nothing : ∀ k, (purge order now c.entries).lookup k = c.entries.lookup k := by
    intro k
    rw [lookup_purge]
    cases found : c.entries.lookup k with
    | none => rfl
    | some e =>
        have alive := not_lt.mpr (live k e found)
        rw [Option.any_some, if_neg (by simpa using alive)]
  have sameKeys : (purge order now c.entries).keys.length = c.entries.keys.length := by
    have none_ : c.entries.keys.filter (fun k =>
        (c.entries.lookup k).any fun e => decide (e.expiresAt < now)) = [] := by
      rw [List.filter_eq_nil_iff]
      intro k _ expired
      cases found : c.entries.lookup k with
      | none =>
          rw [found] at expired
          cases expired
      | some e =>
          rw [found, Option.any_some, decide_eq_true_iff] at expired
          exact absurd expired (not_lt.mpr (live k e found))
    have split := length_purge order now c.entries
    rw [none_, List.length_nil] at split
    omega
  obtain ⟨gone, half⟩ := dropHalf_half order (m := purge order now c.entries) (by omega)
  have prepared_ : c.prepared key order now = dropHalf order (purge order now c.entries) := by
    rw [prepared, if_pos ⟨by rw [fresh]; rfl, full⟩, makeRoom, if_pos (by omega)]
  have left : ∀ k ∈ c.entries.keys,
      ((c.set key resp order now later).entries.lookup k).isNone = true ↔ k ∈ gone := by
    intro k member
    have present : (c.entries.lookup k).isSome = true :=
      AList.lookup_isSome.mpr (AList.mem_keys.mpr member)
    have differ : k ≠ key := by
      rintro rfl
      rw [fresh] at present
      cases present
    rw [set, AList.lookup_insert_ne differ, prepared_, half.left k, nothing k]
    by_cases dropped : k ∈ gone
    · rw [if_pos dropped]
      exact iff_of_true rfl dropped
    · rw [if_neg dropped]
      refine iff_of_false (fun none => ?_) dropped
      rw [Option.isNone_iff_eq_none.mp none] at present
      cases present
  have members : ∀ k, k ∈ c.missingAfter key resp order now later ↔ k ∈ gone := by
    intro k
    rw [missingAfter, List.mem_filter]
    constructor
    · rintro ⟨member, none⟩
      exact (left k member).mp none
    · intro dropped
      have member : k ∈ c.entries.keys := by
        have inside := AList.lookup_isSome.mpr (half.inside k dropped)
        rw [nothing k] at inside
        exact AList.mem_keys.mp (AList.lookup_isSome.mp inside)
      exact ⟨member, (left k member).mpr dropped⟩
  have perm : (c.missingAfter key resp order now later).Perm gone :=
    (List.perm_ext_iff_of_nodup (c.entries.keys_nodup.filter _) half.distinct).mpr members
  refine ⟨by rw [perm.length_eq, half.size, sameKeys], ?_⟩
  intro k dropped k' kept e found e' found'
  refine half.sooner k ((members k).mp dropped) k' (mt (members k').mpr kept) e ?_ e' ?_
  · rwa [nothing k]
  · rwa [nothing k']

end RouteCache

/-- The cache after calls that begin with an empty cache. -/
def cacheAfter (ttl maxItems : ℤ) (calls : List (RouteCache.Call K R)) : RouteCache K R :=
  run RouteCache.step (newRouteCache ttl maxItems) calls

open RouteCache in
/-- **The cache stays bounded and fresh.** After all calls under a clock that does not go back:
the limit is kept; a request is answered exactly when a response was stored since the last
invalidation that has neither expired nor been driven out since, and then with the latest; a
response just stored is found; and a new key drives half of the entries out of a cache full of
live entries, those with the soonest deadlines. -/
theorem routeCache_bounded_fresh (ttl maxItems : ℤ) {start : Time}
    {calls : List (RouteCache.Call K R)} (clocked : Clocked start calls) :
    ((cacheAfter ttl maxItems calls).entries.keys.length : ℤ) ≤
        (cacheAfter ttl maxItems calls).maxItems ∧
      (∀ key now, ((cacheAfter ttl maxItems calls).get key now).isSome = true ↔
        ∃ before resp time after,
          (newRouteCache ttl maxItems).Stored calls key resp time before after ∧
            now ≤ time + (newRouteCache ttl maxItems : RouteCache K R).ttl) ∧
      (∀ key now resp, (cacheAfter ttl maxItems calls).get key now = some resp ↔
        ∃ before time after,
          (newRouteCache ttl maxItems).Stored calls key resp time before after ∧
            now ≤ time + (newRouteCache ttl maxItems : RouteCache K R).ttl ∧
              ∀ call ∈ after, ¬call.Sets key) ∧
      (∀ key resp order now later,
        ((cacheAfter ttl maxItems calls).set key resp order now later).entries.lookup key =
          some ⟨resp, later + (newRouteCache ttl maxItems : RouteCache K R).ttl⟩) ∧
      ∀ key, (cacheAfter ttl maxItems calls).entries.lookup key = none →
        (cacheAfter ttl maxItems calls).maxItems ≤
          (cacheAfter ttl maxItems calls).entries.keys.length →
        ∀ now, (∀ k, ∀ e ∈ (cacheAfter ttl maxItems calls).entries.lookup k,
            now ≤ e.expiresAt) → ∀ resp order later,
          ((cacheAfter ttl maxItems calls).missingAfter key resp order now later).length =
              max 1 ((cacheAfter ttl maxItems calls).entries.keys.length / 2) ∧
            ∀ k ∈ (cacheAfter ttl maxItems calls).missingAfter key resp order now later,
              ∀ k' ∉ (cacheAfter ttl maxItems calls).missingAfter key resp order now later,
                ∀ e ∈ (cacheAfter ttl maxItems calls).entries.lookup k,
                  ∀ e' ∈ (cacheAfter ttl maxItems calls).entries.lookup k',
                    e.expiresAt ≤ e'.expiresAt := by
  have positive := (newRouteCache_bounded (K := K) (R := R) ttl maxItems).1
  have bounded := run_bounded (K := K) (R := R) ttl maxItems calls
  have empty : ∀ key : K, (newRouteCache ttl maxItems : RouteCache K R).entries.lookup key = none :=
    fun key => AList.lookup_empty key
  refine ⟨bounded.2, fun key now => get_isSome_iff positive (empty key) clocked now,
    fun key now resp => get_run_iff positive (empty key), fun key resp order now later => ?_,
    fun key fresh full now live resp order later =>
      set_full bounded.1 fresh full live resp order later⟩
  have stored := lookup_set (cacheAfter ttl maxItems calls) key resp order now later
  rwa [cacheAfter, run_ttl] at stored

end Cache

/-- A cache for one response that receives two. -/
theorem routeCache_bounded_fresh_two :
    ((cacheAfter 10 1 [.set 1 'a' ⟨id, List.Perm.refl⟩ 0 0, .set 2 'b' ⟨id, List.Perm.refl⟩ 1 1] :
      RouteCache ℕ Char).entries.keys.length : ℤ) ≤ 1 := by
  have clocked : RouteCache.Clocked 0 [.set 1 'a' ⟨id, List.Perm.refl⟩ 0 0,
      .set 2 'b' ⟨id, List.Perm.refl⟩ 1 1] := by
    simp [RouteCache.Clocked]
  exact (routeCache_bounded_fresh 10 1 clocked).1

end OsmMini.Cmd

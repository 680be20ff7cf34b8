import OsmMini.Core.Types
import OsmMini.Foundations.OpenAddressing

/-!
# The labels of compact searches

A search of a compact graph keeps its labels in a table of entries with open addressing. A
key is stored one higher, so that zero marks an empty slot, and the table doubles before more
than seven eighths of it are used. A search for the cost alone keeps the distances in a map.

Every lookup ends, and the table is the map that keeps for each key the first of the least
distances relaxed so far, with its predecessor (`labels_minimum`). A search for the cost alone
has no entries, so there only distances can be read.
-/

set_option autoImplicit false

namespace OsmMini.Core

open Foundations Foundations.OpenAddressing

/-- An entry of the table. The key zero marks an empty slot. -/
structure IndexedRouteLabel (w : ℕ) (K : Type) where
  key : BitVec w
  previous : BitVec w
  distance : K
  deriving DecidableEq

structure IndexedRouteLabels (w : ℕ) (K : Type) where
  entries : List (IndexedRouteLabel w K)
  used : ℕ
  costs : Option (GoMap (BitVec w) K)

/-- Searches for the cost alone keep the distances in a map. -/
def newIndexedRouteLabels (w : ℕ) (K : Type) (wantPath : Bool) : IndexedRouteLabels w K where
  entries := []
  used := 0
  costs := if wantPath then none else some ∅

/-- The hash of a key, a number of 32 bits. -/
def labelHash {w : ℕ} (node : BitVec w) : ℕ :=
  let low : BitVec 32 := node.setWidth 32
  let high : BitVec 32 := (node.setWidth 64 >>> 32).setWidth 32
  let hash := low * 0x9e3779b1#32 ^^^ high * 0x85ebca6b#32
  (hash ^^^ (hash >>> 16)).toNat

section Labels

variable {w : ℕ} {K : Type}

/-- A slot that ends the search for a key. -/
def stopsAt (entries : List (IndexedRouteLabel w K)) (node : BitVec w) (i : ℕ) : Bool :=
  match entries[i]? with
  | some entry => entry.key = 0 || entry.key = node + 1
  | none => false

/-- The slot of a key. No result says that the search went through as many rounds as there are
slots and did not end; of a table without slots the first access fails. -/
def slotIn (entries : List (IndexedRouteLabel w K)) (node : BitVec w) : Option ℕ :=
  let mask := entries.length - 1
  probe (stopsAt entries node) mask entries.length (labelHash node &&& mask) 1

namespace IndexedRouteLabels

/-- The entry at the slot of a key. -/
def slot (labels : IndexedRouteLabels w K) (node : BitVec w) : Option (IndexedRouteLabel w K) :=
  (slotIn labels.entries node).bind (labels.entries[·]?)

/-- The distance of a key, which is zero for a key without one in a search for the cost. -/
def distance [Zero K] (labels : IndexedRouteLabels w K) (node : BitVec w) : Option K :=
  match labels.costs with
  | some costs => some ((costs.lookup node).getD 0)
  | none => (labels.slot node).map (·.distance)

/-- Move the entries to a table of twice the size. -/
def grow [Zero K] (labels : IndexedRouteLabels w K) : Option (IndexedRouteLabels w K) :=
  let fresh : List (IndexedRouteLabel w K) :=
    List.replicate (max 16 (labels.entries.length * 2)) ⟨0, 0, 0⟩
  let moved := labels.entries.foldlM (fun entries entry =>
    if entry.key ≠ 0 then (slotIn entries (entry.key - 1)).map (entries.set · entry)
    else some entries) fresh
  moved.map fun entries => { labels with entries }

variable [LinearOrder K] [Zero K]

/-- Lower or create the label of a key. -/
def relax (labels : IndexedRouteLabels w K) (node : BitVec w) (distance : K)
    (previous : BitVec w) : Option (Bool × IndexedRouteLabels w K) :=
  match labels.costs with
  | some costs =>
    if (costs.lookup node).any (· ≤ distance) then some (false, labels)
    else some (true, { labels with costs := some (costs.insert node distance) })
  | none => (if labels.entries.length = 0 then labels.grow else some labels).bind fun labels => do
    let i ← slotIn labels.entries node
    let entry ← labels.entries[i]?
    if entry.key ≠ 0 then
      if entry.distance ≤ distance then some (false, labels)
      else some (true, { labels with entries := labels.entries.set i ⟨node + 1, previous, distance⟩ })
    else if labels.entries.length * 7 / 8 ≤ labels.used then do
      let labels ← labels.grow
      let i ← slotIn labels.entries node
      some (true, { labels with
        entries := labels.entries.set i ⟨node + 1, previous, distance⟩
        used := labels.used + 1 })
    else
      some (true, { labels with
        entries := labels.entries.set i ⟨node + 1, previous, distance⟩
        used := labels.used + 1 })

end IndexedRouteLabels

/-! ## Calls -/

inductive LabelCall (w : ℕ) (K : Type) where
  | relax (node : BitVec w) (distance : K) (previous : BitVec w)
  | distance (node : BitVec w)
  | slot (node : BitVec w)

inductive LabelAnswer (w : ℕ) (K : Type) where
  | relax (changed : Bool)
  | distance (value : K)
  | slot (entry : IndexedRouteLabel w K)
  deriving DecidableEq

namespace LabelCall

def node : LabelCall w K → BitVec w
  | .relax node _ _ => node
  | .distance node => node
  | .slot node => node

/-- The distance and the predecessor that a call relaxes a key with. -/
def relaxes (key : BitVec w) : LabelCall w K → Option (K × BitVec w)
  | .relax node value previous => if node = key then some (value, previous) else none
  | .distance _ => none
  | .slot _ => none

variable [LinearOrder K] [Zero K]

/-- What a call answers, and the table after it. -/
def run (labels : IndexedRouteLabels w K) :
    LabelCall w K → Option (LabelAnswer w K × IndexedRouteLabels w K)
  | .relax node value previous =>
    (labels.relax node value previous).map fun (changed, labels) => (.relax changed, labels)
  | .distance node => (labels.distance node).map fun value => (.distance value, labels)
  | .slot node => (labels.slot node).map fun entry => (.slot entry, labels)

/-- The table after some calls. -/
def runAll (labels : IndexedRouteLabels w K) (calls : List (LabelCall w K)) :
    Option (IndexedRouteLabels w K) :=
  calls.foldlM (fun labels call => (call.run labels).map Prod.snd) labels

end LabelCall

/-- The least distance a key was relaxed with, and its predecessor. Of equal distances the
first stays. -/
def leastLabel [LinearOrder K] (calls : List (LabelCall w K)) (key : BitVec w) :
    Option (K × BitVec w) :=
  (calls.filterMap (LabelCall.relaxes key)).argmin Prod.fst

/-- The answer of the map that keeps the least distances. -/
def Answers [LinearOrder K] (before : List (LabelCall w K)) : LabelCall w K → LabelAnswer w K → Prop
  | .relax node distance _, .relax changed =>
    changed = true ↔ ∀ old ∈ leastLabel before node, distance < old.1
  | .distance node, .distance value => ∃ previous, leastLabel before node = some (value, previous)
  | .slot node, .slot entry =>
    entry.key = node + 1 ∧ leastLabel before node = some (entry.distance, entry.previous)
  | _, _ => False

/-- A call that the searches may make: its key is not the largest one, only relaxed keys are
read, and entries are read only where there are entries. -/
def Allowed (wantPath : Bool) (before : List (LabelCall w K)) (call : LabelCall w K) : Prop :=
  call.node ≠ BitVec.allOnes w ∧
    match call with
    | .relax _ _ _ => True
    | .distance node => ∃ earlier ∈ before, (earlier.relaxes node).isSome
    | .slot node => wantPath = true ∧ ∃ earlier ∈ before, (earlier.relaxes node).isSome

/-- Every call of a sequence is allowed where it stands. -/
def AllAllowed (wantPath : Bool) (calls : List (LabelCall w K)) : Prop :=
  ∀ before call after, calls = before ++ call :: after → Allowed wantPath before call

/-! ## Slots -/

/-- The key an entry holds. -/
def heldKey (entry : IndexedRouteLabel w K) : Option (BitVec w) :=
  if entry.key = 0 then none else some (entry.key - 1)

theorem add_one_ne_zero {node : BitVec w} (valid : node ≠ BitVec.allOnes w) : node + 1 ≠ 0 := by
  intro zero
  apply valid
  rw [← BitVec.neg_one_eq_allOnes]
  exact eq_neg_of_add_eq_zero_left zero

theorem heldKey_eq_none {entry : IndexedRouteLabel w K} : heldKey entry = none ↔ entry.key = 0 := by
  rw [heldKey]
  split_ifs with zero
  · exact iff_of_true rfl zero
  · exact iff_of_false nofun zero

theorem heldKey_eq_some {entry : IndexedRouteLabel w K} {node : BitVec w} :
    heldKey entry = some node ↔ entry.key = node + 1 ∧ node ≠ BitVec.allOnes w := by
  rw [heldKey]
  split_ifs with zero
  · refine iff_of_false nofun ?_
    rintro ⟨next, valid⟩
    exact add_one_ne_zero valid (next.symm.trans zero)
  · rw [Option.some_inj]
    constructor
    · rintro rfl
      have next : entry.key = entry.key - 1 + 1 := (sub_add_cancel entry.key 1).symm
      refine ⟨next, fun last => zero ?_⟩
      rw [next, last, ← BitVec.neg_one_eq_allOnes]
      exact neg_add_cancel 1
    · rintro ⟨next, -⟩
      rw [next]
      exact add_sub_cancel_right node 1

/-- The slot a search makes for a valid key. -/
theorem heldKey_entry {node previous : BitVec w} {distance : K} (valid : node ≠ BitVec.allOnes w) :
    heldKey ⟨node + 1, previous, distance⟩ = some node :=
  heldKey_eq_some.mpr ⟨rfl, valid⟩

theorem stopsAt_iff {entries : List (IndexedRouteLabel w K)} {node : BitVec w}
    (valid : node ≠ BitVec.allOnes w) {i : ℕ} :
    stopsAt entries node i = true ↔ Stops heldKey entries node i := by
  rw [stopsAt, Stops]
  cases slot : entries[i]? with
  | none => simp
  | some entry =>
      simp only [Bool.or_eq_true, decide_eq_true_eq, Option.some.injEq, exists_eq_left',
        heldKey_eq_none, heldKey_eq_some, valid, ne_eq, not_false_eq_true, and_true]

/-- **Every search for a slot ends** in a table with an empty one. -/
theorem slotIn_spec {entries : List (IndexedRouteLabel w K)}
    (sound : Sound heldKey labelHash entries) (room : occupied heldKey entries < entries.length)
    {node : BitVec w} (valid : node ≠ BitVec.allOnes w) :
    ∃ i, slotIn entries node = some i ∧ Finds heldKey labelHash entries node i := by
  obtain ⟨last, early, finds, passes⟩ := exists_finds sound.size room node
  have stops := finds
  obtain ⟨-, -, stops, -⟩ := stops
  refine ⟨_, ?_, finds⟩
  obtain ⟨k, length⟩ := sound.size
  rw [slotIn, length]
  rw [length] at stops passes early
  refine probe_eq (fun j before => ?_) ((stopsAt_iff valid).mpr stops) early
  rw [← Bool.not_eq_true, stopsAt_iff valid]
  exact passes j before

/-! ## Tables -/

namespace IndexedRouteLabels

/-- A table of entries that holds what a map holds. -/
structure Tabled (labels : IndexedRouteLabels w K)
    (held : BitVec w → Option (IndexedRouteLabel w K)) : Prop where
  sound : Sound heldKey labelHash labels.entries
  large : 16 ≤ labels.entries.length
  used : labels.used = occupied heldKey labels.entries
  load : labels.used ≤ labels.entries.length * 7 / 8
  represents : Represents heldKey labels.entries held

variable {labels : IndexedRouteLabels w K} {held : BitVec w → Option (IndexedRouteLabel w K)}

theorem Tabled.room (tabled : Tabled labels held) :
    occupied heldKey labels.entries < labels.entries.length := by
  have large := tabled.large
  have load := tabled.load
  rw [← tabled.used]
  omega

/-- A relaxed key is read from its slot. -/
theorem Tabled.slot_eq (tabled : Tabled labels held) {node : BitVec w}
    (valid : node ≠ BitVec.allOnes w) {entry : IndexedRouteLabel w K}
    (label : held node = some entry) : labels.slot node = some entry := by
  obtain ⟨member, key⟩ := (tabled.represents node entry).mp label
  obtain ⟨i, located, finds⟩ := slotIn_spec tabled.sound tabled.room valid
  rw [slot, located, Option.bind_some]
  exact finds.of_held tabled.sound member key

theorem grow_eq [Zero K] (labels : IndexedRouteLabels w K) :
    labels.grow = (refill heldKey slotIn labels.entries
      (List.replicate (max 16 (labels.entries.length * 2)) ⟨0, 0, 0⟩)).map
        fun entries => { labels with entries } := by
  rw [grow, refill]
  congr 2
  funext entries entry
  rw [heldKey]
  by_cases zero : entry.key = 0
  · rw [if_neg (not_not.mpr zero), if_pos zero]
  · rw [if_pos zero, if_neg zero]

/-- **A table grows** and holds what it held, with room for another entry. -/
theorem grow_tabled [Zero K]
    (before : (labels.entries = [] ∧ labels.used = 0 ∧ ∀ node, held node = none) ∨
      Tabled labels held) :
    ∃ grown, labels.grow = some grown ∧ grown.costs = labels.costs ∧ Tabled grown held ∧
      grown.used < grown.entries.length * 7 / 8 := by
  have free : heldKey (⟨0, 0, 0⟩ : IndexedRouteLabel w K) = none := heldKey_eq_none.mpr rfl
  have distinct : labels.entries.Pairwise fun e e' =>
      ∀ key, heldKey e = some key → heldKey e' ≠ some key := by
    rcases before with ⟨none, -, -⟩ | tabled
    · rw [none]
      exact List.Pairwise.nil
    · exact tabled.sound.distinct
  have used : labels.used = occupied heldKey labels.entries := by
    rcases before with ⟨none, unused, -⟩ | tabled
    · rw [none, unused]
      rfl
    · exact tabled.used
  have load : labels.used ≤ labels.entries.length * 7 / 8 := by
    rcases before with ⟨-, unused, -⟩ | tabled
    · rw [unused]
      exact Nat.zero_le _
    · exact tabled.load
  have represents : Represents heldKey labels.entries held := by
    rcases before with ⟨none, -, absent⟩ | tabled
    · intro key e
      rw [none, absent]
      exact iff_of_false nofun fun member => List.not_mem_nil member.1
    · exact tabled.represents
  obtain ⟨k, size⟩ : ∃ k, max 16 (labels.entries.length * 2) = 2 ^ k := by
    rcases before with ⟨none, -, -⟩ | tabled
    · exact ⟨4, by rw [none]; rfl⟩
    · obtain ⟨k, length⟩ := tabled.sound.size
      have large := tabled.large
      exact ⟨k + 1, by rw [pow_succ, ← length]; omega⟩
  have empty : occupied heldKey (List.replicate (2 ^ k) (⟨0, 0, 0⟩ : IndexedRouteLabel w K)) = 0 :=
    occupied_replicate _ free
  have locates : ∀ (table : List (IndexedRouteLabel w K)) (node : BitVec w),
      Sound heldKey labelHash table → occupied heldKey table < table.length →
      (∃ e : IndexedRouteLabel w K, heldKey e = some node) →
      ∃ i, slotIn table node = some i ∧ Finds heldKey labelHash table node i := by
    intro entries node sound room valid
    obtain ⟨e, held⟩ := valid
    exact slotIn_spec sound room (heldKey_eq_some.mp held).2
  obtain ⟨filled, run, sound, length, count, members⟩ :=
    refill_spec locates distinct (sound_replicate labelHash k free)
      (fun e _ e' member key _ => by
        rw [List.eq_of_mem_replicate member, free]
        exact nofun)
      (by
        rw [empty, List.length_replicate, ← size, ← used]
        omega)
  rw [List.length_replicate] at length
  rw [empty, Nat.zero_add] at count
  refine ⟨{ labels with entries := filled }, ?_, rfl, ⟨sound, ?_, used.trans count.symm, ?_, ?_⟩, ?_⟩
  · rw [grow_eq, size, run]
    rfl
  · rw [length, ← size]
    exact le_max_left _ _
  · rw [length, ← size]
    dsimp only
    omega
  · intro key e
    rw [represents key e]
    refine and_congr_left fun key' => ?_
    rw [members e key key']
    refine (or_iff_right fun member => ?_).symm
    rw [List.eq_of_mem_replicate member, free] at key'
    cases key'
  · rw [length, ← size]
    dsimp only
    omega

/-- A new label takes an empty slot. -/
theorem Tabled.fill (tabled : Tabled labels held) {node : BitVec w}
    (valid : node ≠ BitVec.allOnes w) (absent : held node = none)
    (room : labels.used < labels.entries.length * 7 / 8) {i : ℕ}
    (finds : Finds heldKey labelHash labels.entries node i) (distance : K) (previous : BitVec w) :
    Tabled { labels with
        entries := labels.entries.set i ⟨node + 1, previous, distance⟩
        used := labels.used + 1 }
      (Function.update held node (some ⟨node + 1, previous, distance⟩)) := by
  have holds : heldKey (⟨node + 1, previous, distance⟩ : IndexedRouteLabel w K) = some node :=
    heldKey_entry valid
  obtain ⟨old, slot, empty⟩ := finds.of_absent fun e member key => by
    rw [(tabled.represents node e).mpr ⟨member, key⟩] at absent
    cases absent
  refine ⟨tabled.sound.set finds holds, ?_, ?_, ?_, tabled.represents.set tabled.sound finds holds⟩
  · rw [List.length_set]
    exact tabled.large
  · rw [occupied_set_empty slot empty holds, ← tabled.used]
  · rw [List.length_set]
    exact room

/-- A lower label takes the slot of the old one. -/
theorem Tabled.lower (tabled : Tabled labels held) {node : BitVec w}
    (valid : node ≠ BitVec.allOnes w) {i : ℕ}
    (finds : Finds heldKey labelHash labels.entries node i) {old : IndexedRouteLabel w K}
    (slot : labels.entries[i]? = some old) (key : heldKey old = some node) (distance : K)
    (previous : BitVec w) :
    Tabled { labels with entries := labels.entries.set i ⟨node + 1, previous, distance⟩ }
      (Function.update held node (some ⟨node + 1, previous, distance⟩)) := by
  have holds : heldKey (⟨node + 1, previous, distance⟩ : IndexedRouteLabel w K) = some node :=
    heldKey_entry valid
  refine ⟨tabled.sound.set finds holds, ?_, ?_, ?_, tabled.represents.set tabled.sound finds holds⟩
  · rw [List.length_set]
    exact tabled.large
  · rw [occupied_set_held slot key holds, ← tabled.used]
  · rw [List.length_set]
    exact tabled.load

/-- **A relaxation of the table is one of the map.** -/
theorem relax_tabled [LinearOrder K] [Zero K] (paths : labels.costs = none)
    (before : (labels.entries = [] ∧ labels.used = 0 ∧ ∀ node, held node = none) ∨
      Tabled labels held)
    {node : BitVec w} (valid : node ≠ BitVec.allOnes w) (distance : K) (previous : BitVec w) :
    ∃ changed after, labels.relax node distance previous = some (changed, after) ∧
      after.costs = none ∧
      (changed = true ↔ ∀ old, held node = some old → distance < old.distance) ∧
      Tabled after (if changed then
        Function.update held node (some ⟨node + 1, previous, distance⟩) else held) := by
  obtain ⟨table, made, costs, tabled⟩ : ∃ table,
      (if labels.entries.length = 0 then labels.grow else some labels) = some table ∧
        table.costs = none ∧ Tabled table held := by
    rcases before with ⟨none, unused, absent⟩ | tabled
    · obtain ⟨grown, run, costs, tabled, -⟩ := grow_tabled (Or.inl ⟨none, unused, absent⟩)
      exact ⟨grown, by rw [if_pos (by rw [none]; rfl), run], costs.trans paths, tabled⟩
    · have large := tabled.large
      exact ⟨labels, if_neg (by omega), paths, tabled⟩
  obtain ⟨i, located, finds⟩ := slotIn_spec tabled.sound tabled.room valid
  have stops := finds
  obtain ⟨-, -, ⟨entry, slot, here⟩, -⟩ := stops
  rw [relax, paths]
  dsimp only
  rw [made, Option.bind_some, located, Option.bind_eq_bind, Option.bind_some, slot,
    Option.bind_eq_bind, Option.bind_some]
  rcases here with empty | key
  · have zero := heldKey_eq_none.mp empty
    have absent : held node = none := by
      rw [Option.eq_none_iff_forall_not_mem]
      intro e label
      obtain ⟨member, key⟩ := (tabled.represents node e).mp label
      have same := finds.of_held tabled.sound member key
      rw [slot] at same
      rw [Option.some.inj same, key] at empty
      cases empty
    rw [if_neg (not_not.mpr zero)]
    have create : true = true ↔ ∀ old, held node = some old → distance < old.distance :=
      iff_of_true rfl fun old label => by
        rw [absent] at label
        cases label
    by_cases full : table.entries.length * 7 / 8 ≤ table.used
    · obtain ⟨grown, run, costs', tabled', room⟩ := grow_tabled (Or.inr tabled)
      obtain ⟨i', located', finds'⟩ := slotIn_spec tabled'.sound tabled'.room valid
      rw [if_pos full, run, Option.bind_eq_bind, Option.bind_some, located', Option.bind_some]
      exact ⟨true, _, rfl, costs'.trans costs, create,
        tabled'.fill valid absent room finds' distance previous⟩
    · rw [if_neg full]
      exact ⟨true, _, rfl, costs, create,
        tabled.fill valid absent (not_le.mp full) finds distance previous⟩
  · have used := (heldKey_eq_some.mp key).1
    have label : held node = some entry :=
      (tabled.represents node entry).mpr ⟨List.mem_of_getElem? slot, key⟩
    rw [if_pos (used ▸ add_one_ne_zero valid)]
    by_cases higher : entry.distance ≤ distance
    · rw [if_pos higher]
      refine ⟨false, _, rfl, costs, iff_of_false Bool.false_ne_true fun lower => ?_, tabled⟩
      exact absurd higher (not_le.mpr (lower entry label))
    · rw [if_neg higher]
      refine ⟨true, _, rfl, costs, iff_of_true rfl fun old label' => ?_,
        tabled.lower valid finds slot key distance previous⟩
      rw [label] at label'
      rw [← Option.some.inj label']
      exact not_le.mp higher

end IndexedRouteLabels

/-! ## Runs -/

section Runs

variable [LinearOrder K]

/-- A relaxation that lowers or creates a label is the least one from then on. -/
theorem leastLabel_relax (calls : List (LabelCall w K)) (node previous : BitVec w) (distance : K)
    (key : BitVec w) :
    leastLabel (calls ++ [.relax node distance previous]) key =
      if node = key ∧ ∀ old ∈ leastLabel calls key, distance < old.1 then some (distance, previous)
      else leastLabel calls key := by
  rw [leastLabel, List.filterMap_append]
  by_cases mine : node = key
  · have relaxes : (LabelCall.relax node distance previous).relaxes key =
        some (distance, previous) := if_pos mine
    rw [List.filterMap_cons_some relaxes, List.filterMap_nil, List.argmin_concat, ← leastLabel]
    cases least : leastLabel calls key with
    | none => simp [mine]
    | some old => simp [mine]
  · have passes : (LabelCall.relax node distance previous).relaxes key = none := if_neg mine
    rw [List.filterMap_cons_none passes, List.filterMap_nil, List.append_nil,
      if_neg fun both => mine both.1, leastLabel]

theorem leastLabel_read (calls : List (LabelCall w K)) {call : LabelCall w K}
    (reads : ∀ key, call.relaxes key = none) (key : BitVec w) :
    leastLabel (calls ++ [call]) key = leastLabel calls key := by
  rw [leastLabel, List.filterMap_append, List.filterMap_cons_none (reads key), List.filterMap_nil,
    List.append_nil, leastLabel]

/-- A key that was relaxed has a label. -/
theorem exists_leastLabel {calls : List (LabelCall w K)} {key : BitVec w}
    (relaxed : ∃ earlier ∈ calls, (earlier.relaxes key).isSome) :
    ∃ least, leastLabel calls key = some least := by
  obtain ⟨earlier, member, relaxes⟩ := relaxed
  obtain ⟨label, relaxes⟩ := Option.isSome_iff_exists.mp relaxes
  rw [← Option.isSome_iff_exists, Option.isSome_iff_ne_none]
  intro none
  have empty := List.argmin_eq_none.mp none
  exact List.not_mem_nil (empty ▸ List.mem_filterMap.mpr ⟨earlier, member, relaxes⟩)

/-- The entry of the least label of a key. -/
def leastEntry (calls : List (LabelCall w K)) (key : BitVec w) : Option (IndexedRouteLabel w K) :=
  (leastLabel calls key).map fun least => ⟨key + 1, least.2, least.1⟩

/-- The labels keep the least ones of some calls: in entries, or the distances alone. -/
def Keeps (labels : IndexedRouteLabels w K) (calls : List (LabelCall w K)) : Bool → Prop
  | true => labels.costs = none ∧
      ((labels.entries = [] ∧ labels.used = 0 ∧ ∀ key, leastEntry calls key = none) ∨
        labels.Tabled (leastEntry calls))
  | false => ∃ costs, labels.costs = some costs ∧
      ∀ key, costs.lookup key = (leastLabel calls key).map Prod.fst

theorem Keeps.read {labels : IndexedRouteLabels w K} {calls : List (LabelCall w K)}
    {wantPath : Bool} (keeps : Keeps labels calls wantPath) {call : LabelCall w K}
    (reads : ∀ key, call.relaxes key = none) : Keeps labels (calls ++ [call]) wantPath := by
  have same : leastLabel (calls ++ [call]) = leastLabel calls :=
    funext (leastLabel_read calls reads)
  have sameEntry : leastEntry (calls ++ [call]) = leastEntry calls := by
    funext key
    rw [leastEntry, same, leastEntry]
  cases wantPath
  · rw [Keeps, same]
    exact keeps
  · rw [Keeps, sameEntry]
    exact keeps

theorem keeps_new (wantPath : Bool) :
    Keeps (newIndexedRouteLabels w K wantPath) [] wantPath := by
  cases wantPath
  · exact ⟨∅, rfl, fun key => rfl⟩
  · exact ⟨rfl, Or.inl ⟨rfl, rfl, fun key => rfl⟩⟩

variable [Zero K]

/-- **A relaxation answers as the map does** and keeps the least labels. -/
theorem Keeps.relax {labels : IndexedRouteLabels w K} {calls : List (LabelCall w K)}
    {wantPath : Bool} (keeps : Keeps labels calls wantPath) {node : BitVec w}
    (valid : node ≠ BitVec.allOnes w) (distance : K) (previous : BitVec w) :
    ∃ changed after, labels.relax node distance previous = some (changed, after) ∧
      (changed = true ↔ ∀ old ∈ leastLabel calls node, distance < old.1) ∧
      Keeps after (calls ++ [.relax node distance previous]) wantPath := by
  cases wantPath with
  | false =>
      obtain ⟨costs, isCosts, lookup⟩ := keeps
      have higher : (costs.lookup node).any (· ≤ distance) = true ↔
          ¬∀ old ∈ leastLabel calls node, distance < old.1 := by
        rw [lookup]
        cases leastLabel calls node <;> simp
      rw [IndexedRouteLabels.relax, isCosts]
      dsimp only
      by_cases lower : ∀ old ∈ leastLabel calls node, distance < old.1
      · rw [if_neg fun is => higher.mp is lower]
        refine ⟨true, _, rfl, iff_of_true rfl lower, _, rfl, fun key => ?_⟩
        rw [leastLabel_relax]
        by_cases mine : node = key
        · subst mine
          rw [AList.lookup_insert, if_pos ⟨rfl, lower⟩]
          rfl
        · rw [AList.lookup_insert_ne (Ne.symm mine), if_neg fun both => mine both.1, lookup]
      · rw [if_pos (higher.mpr lower)]
        refine ⟨false, _, rfl, iff_of_false Bool.false_ne_true lower, _, isCosts, fun key => ?_⟩
        rw [leastLabel_relax, if_neg, lookup]
        rintro ⟨rfl, lower'⟩
        exact lower lower'
  | true =>
      obtain ⟨paths, before⟩ := keeps
      obtain ⟨changed, after, run, costs, changes, tabled⟩ :=
        IndexedRouteLabels.relax_tabled paths before valid distance previous
      have lowers : changed = true ↔ ∀ old ∈ leastLabel calls node, distance < old.1 := by
        rw [changes]
        cases least : leastLabel calls node <;> simp [leastEntry, least]
      refine ⟨changed, after, run, lowers, costs, Or.inr ?_⟩
      have held : leastEntry (calls ++ [.relax node distance previous]) = if changed then
          Function.update (leastEntry calls) node (some ⟨node + 1, previous, distance⟩)
          else leastEntry calls := by
        funext key
        rw [leastEntry, leastLabel_relax]
        by_cases mine : node = key
        · subst mine
          by_cases lower : ∀ old ∈ leastLabel calls node, distance < old.1
          · rw [if_pos ⟨rfl, lower⟩, if_pos (lowers.mpr lower), Function.update_self]
            rfl
          · rw [if_neg fun both => lower both.2, if_neg fun is => lower (lowers.mp is)]
            rfl
        · rw [if_neg fun both => mine both.1]
          cases changed
          · rfl
          · rw [if_pos rfl, Function.update_of_ne (Ne.symm mine)]
            rfl
      rw [held]
      exact tabled

omit [Zero K] in
/-- A relaxed key is read as the map has it. -/
theorem Keeps.slot {labels : IndexedRouteLabels w K} {calls : List (LabelCall w K)}
    (keeps : Keeps labels calls true) {node : BitVec w} (valid : node ≠ BitVec.allOnes w)
    {least : K × BitVec w} (label : leastLabel calls node = some least) :
    labels.slot node = some ⟨node + 1, least.2, least.1⟩ := by
  have entry : leastEntry calls node = some ⟨node + 1, least.2, least.1⟩ := by
    rw [leastEntry, label]
    rfl
  rcases keeps.2 with ⟨-, -, absent⟩ | tabled
  · rw [absent] at entry
    cases entry
  · exact tabled.slot_eq valid entry

/-- **Every allowed call ends with the answer of the map.** -/
theorem Keeps.run {labels : IndexedRouteLabels w K} {calls : List (LabelCall w K)}
    {wantPath : Bool} (keeps : Keeps labels calls wantPath) {call : LabelCall w K}
    (allowed : Allowed wantPath calls call) :
    ∃ answer after, call.run labels = some (answer, after) ∧ Answers calls call answer ∧
      Keeps after (calls ++ [call]) wantPath := by
  obtain ⟨valid, allowed⟩ := allowed
  cases call with
  | relax node distance previous =>
      rw [LabelCall.node] at valid
      obtain ⟨changed, after, run, lowers, keeps'⟩ := keeps.relax valid distance previous
      exact ⟨.relax changed, after, by rw [LabelCall.run, run]; rfl, lowers, keeps'⟩
  | distance node =>
      rw [LabelCall.node] at valid
      obtain ⟨least, label⟩ := exists_leastLabel allowed
      have read : labels.distance node = some least.1 := by
        rw [IndexedRouteLabels.distance]
        cases wantPath with
        | false =>
            obtain ⟨costs, isCosts, lookup⟩ := keeps
            rw [isCosts]
            dsimp only
            rw [lookup, label]
            rfl
        | true =>
            rw [keeps.1]
            dsimp only
            rw [keeps.slot valid label]
            rfl
      exact ⟨.distance least.1, labels, by rw [LabelCall.run, read]; rfl, ⟨least.2, label⟩,
        keeps.read fun _ => rfl⟩
  | slot node =>
      rw [LabelCall.node] at valid
      obtain ⟨rfl, relaxed⟩ := allowed
      obtain ⟨least, label⟩ := exists_leastLabel relaxed
      exact ⟨.slot ⟨node + 1, least.2, least.1⟩, labels,
        by rw [LabelCall.run, keeps.slot valid label]; rfl, ⟨rfl, label⟩, keeps.read fun _ => rfl⟩

/-- The labels after any allowed calls keep the least ones. -/
theorem keeps_runAll {wantPath : Bool} {calls : List (LabelCall w K)}
    (allowed : AllAllowed wantPath calls) :
    ∃ labels, LabelCall.runAll (newIndexedRouteLabels w K wantPath) calls = some labels ∧
      Keeps labels calls wantPath := by
  induction calls using List.reverseRecOn with
  | nil => exact ⟨_, rfl, keeps_new wantPath⟩
  | append_singleton calls call ih =>
      obtain ⟨labels, run, keeps⟩ := ih fun before call' after split =>
        allowed before call' (after ++ [call]) (by rw [split]; simp)
      obtain ⟨answer, after, ends, -, keeps'⟩ := keeps.run (allowed calls call [] rfl)
      refine ⟨after, ?_, keeps'⟩
      rw [LabelCall.runAll, List.foldlM_append, ← LabelCall.runAll, run]
      simp [ends]

/-- **The labels are a map of least distances.** After any allowed calls the next one ends with
the answer of the map: a relaxation changes the labels exactly if it lowers or creates one, and
a reading gives the first of the least distances so far and its predecessor. -/
theorem labels_minimum (wantPath : Bool) (before : List (LabelCall w K)) (call : LabelCall w K)
    (allowed : AllAllowed wantPath (before ++ [call])) :
    ∃ labels answer after,
      LabelCall.runAll (newIndexedRouteLabels w K wantPath) before = some labels ∧
        call.run labels = some (answer, after) ∧ Answers before call answer := by
  have early : AllAllowed wantPath before := fun earlier call' later split =>
    allowed earlier call' (later ++ [call]) (by rw [split]; simp)
  obtain ⟨labels, run, keeps⟩ := keeps_runAll early
  obtain ⟨answer, after, ends, answers, -⟩ := keeps.run (allowed before call [] rfl)
  exact ⟨labels, answer, after, run, ends, answers⟩

/-- A search that found a shorter way to a node reads the last edge of that way. -/
theorem labels_minimum_shorter :
    ((LabelCall.runAll (newIndexedRouteLabels 32 ℚ true)
        [.relax 7 (5 / 2) 3, .relax 7 2 4]).bind fun labels =>
      (LabelCall.run labels (.slot 7)).map Prod.fst) = some (.slot ⟨8, 4, 2⟩) := by
  obtain ⟨labels, answer, after, run, ends, answers⟩ := labels_minimum true
    [.relax (7 : BitVec 32) (5 / 2 : ℚ) 3, .relax 7 2 4] (.slot 7) (by
      intro before call after split
      rcases before with _ | ⟨first, _ | ⟨second, _ | ⟨third, before⟩⟩⟩
      · obtain ⟨rfl, -⟩ := List.cons.inj split
        exact ⟨by decide, trivial⟩
      · obtain ⟨-, rest⟩ := List.cons.inj split
        obtain ⟨rfl, -⟩ := List.cons.inj rest
        exact ⟨by decide, trivial⟩
      · obtain ⟨rfl, rest⟩ := List.cons.inj split
        obtain ⟨rfl, last⟩ := List.cons.inj rest
        obtain ⟨rfl, -⟩ := List.cons.inj last
        exact ⟨by decide, rfl, _, List.mem_cons_self, rfl⟩
      · simp at split)
  have least : leastLabel [.relax (7 : BitVec 32) (5 / 2 : ℚ) 3, .relax 7 2 4] 7 = some (2, 4) := by
    decide +kernel
  rw [run, Option.bind_some, ends]
  cases answer with
  | relax _ => exact answers.elim
  | distance _ => exact answers.elim
  | slot entry =>
      obtain ⟨key, label⟩ := answers
      rw [least] at label
      obtain ⟨distance, previous⟩ := Prod.mk.inj (Option.some.inj label)
      cases entry
      subst key distance previous
      rfl

/-- A search for the cost alone has no slots to read, not even of a relaxed key. -/
theorem slot_of_costs :
    (LabelCall.runAll (newIndexedRouteLabels 32 ℚ false) [.relax 7 2 4]).isSome = true ∧
      ((LabelCall.runAll (newIndexedRouteLabels 32 ℚ false) [.relax 7 2 4]).bind fun labels =>
        LabelCall.run labels (.slot 7)).isNone = true := by
  constructor <;> decide +kernel

end Runs

end Labels

end OsmMini.Core

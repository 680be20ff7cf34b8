import Mathlib

/-!
# Open addressing

A table of slots whose size is a power of two. The slots of a key are visited in steps that
grow by one, and a search stops at the first slot that is empty or holds the key.

Triangular numbers are different modulo a power of two, so every slot is visited
(`exists_visit`) and a search ends unless the table is full (`exists_finds`). A table is sound
when the search for each key it holds stops at it. Filling the slot at which a search stopped
keeps the table sound (`Sound.set`) and changes what it holds under that key only
(`Represents.set`).
-/

set_option autoImplicit false

namespace OsmMini.Foundations.OpenAddressing

/-! ## The slots that are visited -/

/-- The slot that is visited after a number of steps. -/
def visit (size start j : ℕ) : ℕ := (start + j * (j + 1) / 2) % size

theorem visit_lt {k start j : ℕ} : visit (2 ^ k) start j < 2 ^ k :=
  Nat.mod_lt _ (Nat.two_pow_pos k)

theorem visit_zero (k start : ℕ) : visit (2 ^ k) start 0 = start % 2 ^ k := rfl

theorem triangle_succ (j : ℕ) : (j + 1) * (j + 2) / 2 = j * (j + 1) / 2 + (j + 1) := by
  have grown : (j + 1) * (j + 2) = j * (j + 1) + (j + 1) * 2 := by ring
  rw [grown, Nat.add_mul_div_right _ _ (by decide)]

theorem visit_succ (k start j : ℕ) :
    (visit (2 ^ k) start j + (j + 1)) % 2 ^ k = visit (2 ^ k) start (j + 1) := by
  rw [visit, visit, triangle_succ, Nat.mod_add_mod, Nat.add_assoc]

/-- **No slot is visited twice** before all have been visited. Of the two factors of the
difference of triangular numbers one is odd. -/
theorem visit_injective {k start a b : ℕ} (less : a < b) (last : b < 2 ^ k) :
    visit (2 ^ k) start a ≠ visit (2 ^ k) start b := by
  intro same
  have evenA : a * (a + 1) / 2 * 2 = a * (a + 1) :=
    Nat.div_mul_cancel (even_iff_two_dvd.mp (Nat.even_mul_succ_self a))
  have evenB : b * (b + 1) / 2 * 2 = b * (b + 1) :=
    Nat.div_mul_cancel (even_iff_two_dvd.mp (Nat.even_mul_succ_self b))
  have close : a * (a + 1) / 2 ≡ b * (b + 1) / 2 [MOD 2 ^ k] := Nat.ModEq.add_left_cancel' start same
  obtain ⟨d, rfl⟩ := Nat.exists_eq_add_of_lt less
  have doubled : a * (a + 1) ≡ (a + d + 1) * (a + d + 1 + 1) [MOD 2 ^ (k + 1)] := by
    have scaled := Nat.ModEq.mul_right' 2 close
    rwa [evenA, evenB, ← pow_succ] at scaled
  have factors : 2 ^ (k + 1) ∣ (d + 1) * (2 * a + d + 2) := by
    have divides := (Nat.modEq_iff_dvd' (by nlinarith)).mp doubled
    have difference : (a + d + 1) * (a + d + 1 + 1) - a * (a + 1) = (d + 1) * (2 * a + d + 2) := by
      refine Nat.sub_eq_of_eq_add ?_
      ring
    rwa [difference] at divides
  rw [pow_succ] at factors
  rcases Nat.even_or_odd (d + 1) with even | odd
  · -- The sum is odd, so the power divides the difference.
    have odd : Nat.Coprime (2 ^ k * 2) (2 * a + d + 2) := by
      rw [← pow_succ]
      refine Nat.Coprime.pow_left _ (Nat.coprime_two_left.mpr ?_)
      obtain ⟨h, split⟩ := even
      exact ⟨a + h, by omega⟩
    have bound := Nat.le_of_dvd (by omega) (odd.dvd_of_dvd_mul_right factors)
    omega
  · have coprime : Nat.Coprime (2 ^ k * 2) (d + 1) := by
      rw [← pow_succ]
      exact Nat.Coprime.pow_left _ (Nat.coprime_two_left.mpr odd)
    have bound := Nat.le_of_dvd (by omega) (coprime.dvd_of_dvd_mul_left factors)
    omega

/-- **Every slot is visited.** -/
theorem exists_visit {k i : ℕ} (start : ℕ) (slot : i < 2 ^ k) :
    ∃ j < 2 ^ k, visit (2 ^ k) start j = i := by
  have injective : Set.InjOn (visit (2 ^ k) start) (Finset.range (2 ^ k)) := by
    intro a insideA b insideB same
    rw [Finset.coe_range, Set.mem_Iio] at insideA insideB
    rcases lt_trichotomy a b with less | equal | more
    · exact absurd same (visit_injective less insideB)
    · exact equal
    · exact absurd same.symm (visit_injective more insideA)
  have onto := Finset.surj_on_of_inj_on_of_card_le (s := Finset.range (2 ^ k))
    (t := Finset.range (2 ^ k)) (fun j _ => visit (2 ^ k) start j)
    (fun _ _ => Finset.mem_range.mpr visit_lt)
    (fun a b insideA insideB same => injective insideA insideB same) le_rfl i
    (Finset.mem_range.mpr slot)
  obtain ⟨j, inside, found⟩ := onto
  exact ⟨j, Finset.mem_range.mp inside, found.symm⟩

/-! ## The search -/

/-- Search from a slot on, in steps that grow by one, for as many rounds as are left. -/
def probe (stop : ℕ → Bool) (mask : ℕ) : ℕ → ℕ → ℕ → Option ℕ
  | 0, _, _ => none
  | rounds + 1, i, step =>
    if stop i then some i else probe stop mask rounds ((i + step) &&& mask) (step + 1)

/-- **A search ends at the first slot that stops it.** -/
theorem probe_eq {stop : ℕ → Bool} {k start last : ℕ}
    (passes : ∀ j < last, stop (visit (2 ^ k) start j) = false)
    (stops : stop (visit (2 ^ k) start last) = true) {rounds : ℕ} (enough : last < rounds) :
    probe stop (2 ^ k - 1) rounds (start &&& (2 ^ k - 1)) 1 =
      some (visit (2 ^ k) start last) := by
  have run : ∀ rounds j, j ≤ last → last < rounds + j →
      probe stop (2 ^ k - 1) rounds (visit (2 ^ k) start j) (j + 1) =
        some (visit (2 ^ k) start last) := by
    intro rounds
    induction rounds with
    | zero =>
        intro j before late
        omega
    | succ rounds ih =>
        intro j before late
        rw [probe]
        rcases Nat.eq_or_lt_of_le before with rfl | earlier
        · rw [if_pos stops]
        · rw [passes j earlier, if_neg Bool.false_ne_true, Nat.and_two_pow_sub_one_eq_mod,
            visit_succ]
          exact ih (j + 1) earlier (by omega)
  rw [Nat.and_two_pow_sub_one_eq_mod, ← visit_zero]
  exact run rounds 0 (Nat.zero_le _) enough

/-! ## Tables -/

variable {α κ : Type*} [DecidableEq κ] (keyOf : α → Option κ) (hash : κ → ℕ)

/-- A slot that is empty or holds a key. -/
def Stops (table : List α) (key : κ) (i : ℕ) : Prop :=
  ∃ e, table[i]? = some e ∧ (keyOf e = none ∨ keyOf e = some key)

/-- The search for a key stops at a slot. -/
def Finds (table : List α) (key : κ) (i : ℕ) : Prop :=
  ∃ last, visit table.length (hash key) last = i ∧ Stops keyOf table key i ∧
    ∀ j < last, ¬Stops keyOf table key (visit table.length (hash key) j)

/-- A table whose size is a power of two and that finds every key it holds. -/
structure Sound (table : List α) : Prop where
  size : ∃ k, table.length = 2 ^ k
  finds : ∀ i e key, table[i]? = some e → keyOf e = some key → Finds keyOf hash table key i

/-- How many slots hold something. -/
def occupied (table : List α) : ℕ := table.countP fun e => (keyOf e).isSome

/-- A table holds what a map holds. -/
def Represents (table : List α) (held : κ → Option α) : Prop :=
  ∀ key e, held key = some e ↔ e ∈ table ∧ keyOf e = some key

variable {keyOf hash} {table : List α} {key : κ} {i : ℕ} {e : α}

omit [DecidableEq κ] in
theorem Finds.unique {i' : ℕ} (here : Finds keyOf hash table key i)
    (there : Finds keyOf hash table key i') : i = i' := by
  obtain ⟨last, rfl, stops, passes⟩ := here
  obtain ⟨last', rfl, stops', passes'⟩ := there
  rcases lt_trichotomy last last' with less | rfl | more
  · exact absurd stops (passes' last less)
  · rfl
  · exact absurd stops' (passes last' more)

omit [DecidableEq κ] in
/-- **A table with an empty slot ends every search.** -/
theorem exists_finds (size : ∃ k, table.length = 2 ^ k)
    (room : occupied keyOf table < table.length) (key : κ) :
    ∃ last < table.length, Finds keyOf hash table key (visit table.length (hash key) last) ∧
      ∀ j < last, ¬Stops keyOf table key (visit table.length (hash key) j) := by
  classical
  obtain ⟨e, member, free⟩ : ∃ e ∈ table, keyOf e = none := by
    by_contra full
    have all : occupied keyOf table = table.length := List.countP_eq_length.mpr fun e member =>
      Option.isSome_iff_ne_none.mpr fun free => full ⟨e, member, free⟩
    omega
  obtain ⟨i, slot⟩ := List.mem_iff_getElem?.mp member
  obtain ⟨k, length⟩ := size
  have inside : i < 2 ^ k := length ▸ (List.getElem?_eq_some_iff.mp slot).1
  obtain ⟨j, early, visits⟩ := exists_visit (hash key) inside
  have reached : ∃ j, Stops keyOf table key (visit table.length (hash key) j) :=
    ⟨j, by rw [length, visits]; exact ⟨e, slot, Or.inl free⟩⟩
  refine ⟨Nat.find reached, ?_, ⟨Nat.find reached, rfl, Nat.find_spec reached,
    fun j => Nat.find_min reached⟩, fun j => Nat.find_min reached⟩
  refine (Nat.find_le ?_).trans_lt (early.trans_eq length.symm)
  rw [length, visits]
  exact ⟨e, slot, Or.inl free⟩

omit [DecidableEq κ] in
theorem Finds.lt (finds : Finds keyOf hash table key i) : i < table.length := by
  obtain ⟨-, -, ⟨e, slot, -⟩, -⟩ := finds
  exact (List.getElem?_eq_some_iff.mp slot).1

omit [DecidableEq κ] in
/-- What is found under a key that is held. -/
theorem Finds.of_held (sound : Sound keyOf hash table) (finds : Finds keyOf hash table key i)
    (member : e ∈ table) (held : keyOf e = some key) : table[i]? = some e := by
  obtain ⟨i', slot⟩ := List.mem_iff_getElem?.mp member
  rw [finds.unique (sound.finds i' e key slot held)]
  exact slot

omit [DecidableEq κ] in
/-- A key that is not held is not in the slot at which its search stops. -/
theorem Finds.of_absent (finds : Finds keyOf hash table key i)
    (absent : ∀ e ∈ table, keyOf e ≠ some key) : ∃ e, table[i]? = some e ∧ keyOf e = none := by
  obtain ⟨-, -, ⟨e, slot, free | held⟩, -⟩ := finds
  · exact ⟨e, slot, free⟩
  · exact absurd held (absent e (List.mem_of_getElem? slot))

/-! ## Filling a slot -/

omit [DecidableEq κ] in
/-- **Filling the slot of a key keeps a table sound.** The searches for other keys do not stop
at the slot before they did, and they pass it as they passed it. -/
theorem Sound.set (sound : Sound keyOf hash table) (finds : Finds keyOf hash table key i)
    (holds : keyOf e = some key) : Sound keyOf hash (table.set i e) := by
  refine ⟨?_, ?_⟩
  · rw [List.length_set]
    exact sound.size
  · intro i' e' key' slot held
    rw [Finds, List.length_set]
    by_cases same : i = i'
    · subst same
      rw [List.getElem?_set_self finds.lt] at slot
      obtain rfl := Option.some.inj slot
      obtain rfl := Option.some.inj (holds.symm.trans held)
      have stops : Stops keyOf (table.set i e) key i :=
        ⟨e, List.getElem?_set_self finds.lt, Or.inr holds⟩
      obtain ⟨last, visits, here, passes⟩ := finds
      refine ⟨last, visits, stops, fun j early => ?_⟩
      rintro ⟨e', slot', free⟩
      by_cases hit : i = visit table.length (hash key) j
      · exact passes j early (hit ▸ here)
      · rw [List.getElem?_set_ne hit] at slot'
        exact passes j early ⟨e', slot', free⟩
    · rw [List.getElem?_set_ne same] at slot
      obtain ⟨last, visits, -, passes⟩ := sound.finds i' e' key' slot held
      have stops : Stops keyOf (table.set i e) key' i' :=
        ⟨e', by rw [List.getElem?_set_ne same, slot], Or.inr held⟩
      refine ⟨last, visits, stops, fun j early => ?_⟩
      rintro ⟨e'', slot', free⟩
      by_cases hit : i = visit table.length (hash key') j
      · -- The slot was passed, so it held another key, which is the key it holds now.
        subst hit
        rw [List.getElem?_set_self finds.lt] at slot'
        obtain rfl := Option.some.inj slot'
        obtain ⟨-, -, ⟨old, was, empty | other⟩, -⟩ := finds
        · exact passes j early ⟨old, was, Or.inl empty⟩
        · rw [holds] at free
          rcases free with none | equal
          · cases none
          · obtain rfl := Option.some.inj equal
            exact passes j early ⟨old, was, Or.inr other⟩
      · rw [List.getElem?_set_ne hit] at slot'
        exact passes j early ⟨e'', slot', free⟩

/-- **Filling a slot changes what is held under its key.** -/
theorem Represents.set {held : κ → Option α} (represents : Represents keyOf table held)
    (sound : Sound keyOf hash table) (finds : Finds keyOf hash table key i)
    (holds : keyOf e = some key) :
    Represents keyOf (table.set i e) (Function.update held key (some e)) := by
  have filled : (table.set i e)[i]? = some e := List.getElem?_set_self finds.lt
  intro key' e'
  by_cases same : key' = key
  · subst same
    rw [Function.update_self]
    constructor
    · intro equal
      obtain rfl := Option.some.inj equal
      exact ⟨List.mem_of_getElem? filled, holds⟩
    · rintro ⟨member, held'⟩
      have found := sound.set finds holds
      obtain ⟨i', slot⟩ := List.mem_iff_getElem?.mp member
      have here := (found.finds i e key' filled holds).unique (found.finds i' e' key' slot held')
      rw [← here, filled] at slot
      exact slot
  · rw [Function.update_of_ne same, represents key' e']
    refine and_congr_left fun held' => ?_
    rw [List.mem_iff_getElem?, List.mem_iff_getElem?]
    refine exists_congr fun i' => ?_
    by_cases hit : i = i'
    · subst hit
      rw [filled]
      obtain ⟨-, -, ⟨old, was, empty | other⟩, -⟩ := finds
      · refine iff_of_false (fun slot => ?_) fun slot => ?_
        · rw [was] at slot
          obtain rfl := Option.some.inj slot
          rw [held'] at empty
          cases empty
        · obtain rfl := Option.some.inj slot
          exact same (Option.some.inj (held'.symm.trans holds))
      · refine iff_of_false (fun slot => ?_) fun slot => ?_
        · rw [was] at slot
          obtain rfl := Option.some.inj slot
          exact same (Option.some.inj (held'.symm.trans other))
        · obtain rfl := Option.some.inj slot
          exact same (Option.some.inj (held'.symm.trans holds))
    · rw [List.getElem?_set_ne hit]

omit [DecidableEq κ] in
/-- An empty slot that is filled counts once. -/
theorem occupied_set_empty {old : α} (slot : table[i]? = some old) (empty : keyOf old = none)
    (holds : keyOf e = some key) : occupied keyOf (table.set i e) = occupied keyOf table + 1 := by
  obtain ⟨inside, rfl⟩ := List.getElem?_eq_some_iff.mp slot
  rw [occupied, List.countP_set inside, empty, holds]
  simp [occupied]

omit [DecidableEq κ] in
/-- A slot that is overwritten does not count again. -/
theorem occupied_set_held {old : α} {key' : κ} (slot : table[i]? = some old)
    (held : keyOf old = some key') (holds : keyOf e = some key) :
    occupied keyOf (table.set i e) = occupied keyOf table := by
  obtain ⟨inside, rfl⟩ := List.getElem?_eq_some_iff.mp slot
  have positive : 0 < occupied keyOf table :=
    List.countP_pos_iff.mpr ⟨_, List.getElem_mem inside, by rw [held]; rfl⟩
  rw [occupied] at positive
  rw [occupied, List.countP_set inside, held, holds]
  simp only [Option.isSome_some, if_true, occupied]
  omega

/-- A sound table holds what a search of its entries finds. -/
theorem Sound.represents (sound : Sound keyOf hash table) :
    Represents keyOf table fun key => table.find? fun e => keyOf e = some key := by
  intro key e
  dsimp only
  constructor
  · intro found
    exact ⟨List.mem_of_find?_eq_some found, by simpa using List.find?_some found⟩
  · rintro ⟨member, held⟩
    obtain ⟨e', found⟩ : ∃ e', table.find? (fun e => keyOf e = some key) = some e' := by
      rw [← Option.isSome_iff_exists, List.find?_isSome]
      exact ⟨e, member, decide_eq_true held⟩
    obtain ⟨i, slot⟩ := List.mem_iff_getElem?.mp member
    have held' : keyOf e' = some key := by simpa using List.find?_some found
    have same := (sound.finds i e key slot held).of_held sound
      (List.mem_of_find?_eq_some found) held'
    rw [found, ← same, slot]

/-- A new key adds its entry to a table. -/
theorem mem_set_absent (sound : Sound keyOf hash table) (finds : Finds keyOf hash table key i)
    (holds : keyOf e = some key) (absent : ∀ e ∈ table, keyOf e ≠ some key) {e' : α} {key' : κ}
    (held : keyOf e' = some key') : e' ∈ table.set i e ↔ e' ∈ table ∨ e' = e := by
  have before := sound.represents key' e'
  have after := (sound.represents.set sound finds holds) key' e'
  simp only [held, and_true] at before after
  rw [← after]
  by_cases same : key' = key
  · subst same
    rw [Function.update_self, Option.some_inj]
    refine ⟨fun equal => Or.inr equal.symm, ?_⟩
    rintro (member | equal)
    · exact absurd held (absent e' member)
    · exact equal.symm
  · rw [Function.update_of_ne same, before]
    refine ⟨Or.inl, ?_⟩
    rintro (member | rfl)
    · exact member
    · exact absurd (Option.some.inj (held.symm.trans holds)) same

/-! ## Moving a table -/

omit [DecidableEq κ] in
/-- A sound table holds each key once. -/
theorem Sound.distinct (sound : Sound keyOf hash table) :
    table.Pairwise fun e e' => ∀ key, keyOf e = some key → keyOf e' ≠ some key := by
  rw [List.pairwise_iff_getElem]
  intro i i' inside inside' less key held held'
  have same := (sound.finds i _ key (List.getElem?_eq_getElem inside) held).unique
    (sound.finds i' _ key (List.getElem?_eq_getElem inside') held')
  omega

variable (keyOf) in
/-- Put the entries of an old table into a new one, each where its search stops. -/
def refill (locate : List α → κ → Option ℕ) (old table : List α) : Option (List α) :=
  old.foldlM (fun table e => match keyOf e with
    | some key => (locate table key).map (table.set · e)
    | none => some table) table

/-- **A larger table takes the entries of an old one.** -/
theorem refill_spec {locate : List α → κ → Option ℕ}
    (locates : ∀ table key, Sound keyOf hash table → occupied keyOf table < table.length →
      (∃ e, keyOf e = some key) → ∃ i, locate table key = some i ∧ Finds keyOf hash table key i)
    {old : List α}
    (distinct : old.Pairwise fun e e' => ∀ key, keyOf e = some key → keyOf e' ≠ some key)
    (sound : Sound keyOf hash table)
    (fresh : ∀ e ∈ old, ∀ e' ∈ table, ∀ key, keyOf e = some key → keyOf e' ≠ some key)
    (room : occupied keyOf table + occupied keyOf old < table.length) :
    ∃ filled, refill keyOf locate old table = some filled ∧ Sound keyOf hash filled ∧
      filled.length = table.length ∧
      occupied keyOf filled = occupied keyOf table + occupied keyOf old ∧
      ∀ e key, keyOf e = some key → (e ∈ filled ↔ e ∈ table ∨ e ∈ old) := by
  induction old generalizing table with
  | nil =>
      refine ⟨table, rfl, sound, rfl, rfl, fun e key _ => ?_⟩
      rw [List.mem_nil_iff, or_false]
  | cons first old ih =>
      obtain ⟨others, distinct⟩ := List.pairwise_cons.mp distinct
      obtain ⟨freshFirst, fresh⟩ := List.forall_mem_cons.mp fresh
      rw [refill, List.foldlM_cons]
      cases held : keyOf first with
      | none =>
          have count : occupied keyOf (first :: old) = occupied keyOf old := by
            rw [occupied, List.countP_cons_of_neg (by rw [held]; exact Bool.false_ne_true)]
            rfl
          rw [count] at room
          obtain ⟨filled, run, sound', length, full, members⟩ := ih distinct sound fresh room
          refine ⟨filled, run, sound', length, full.trans (by rw [count]), fun e key held' => ?_⟩
          rw [members e key held', List.mem_cons]
          have other : e ≠ first := by
            rintro rfl
            rw [held] at held'
            cases held'
          simp only [other, false_or]
      | some key =>
          have count : occupied keyOf (first :: old) = occupied keyOf old + 1 := by
            rw [occupied, List.countP_cons_of_pos (by rw [held]; rfl)]
            rfl
          rw [count] at room ⊢
          obtain ⟨i, located, finds⟩ := locates table key sound (by omega) ⟨first, held⟩
          have absent : ∀ e ∈ table, keyOf e ≠ some key := fun e member =>
            freshFirst e member key held
          obtain ⟨was, slot, empty⟩ := finds.of_absent absent
          have counted := occupied_set_empty slot empty held
          have fresh' : ∀ e ∈ old, ∀ e' ∈ table.set i first, ∀ key', keyOf e = some key' →
              keyOf e' ≠ some key' := by
            intro e member e' member' key' held' held''
            rcases (mem_set_absent sound finds held absent held'').mp member' with inside | rfl
            · exact fresh e member e' inside key' held' held''
            · exact others e member key' held'' held'
          obtain ⟨filled, run, sound', length, full, members⟩ := ih distinct
            (sound.set finds held) fresh' (by rw [counted, List.length_set]; omega)
          refine ⟨filled, ?_, sound', length.trans List.length_set, by omega,
            fun e key' held' => ?_⟩
          · simp only [located, Option.map_some]
            exact run
          · rw [members e key' held', mem_set_absent sound finds held absent held',
              List.mem_cons, or_assoc]

/-! ## Empty tables -/

omit [DecidableEq κ] in
theorem sound_replicate (hash : κ → ℕ) (k : ℕ) (free : keyOf e = none) :
    Sound keyOf hash (List.replicate (2 ^ k) e) := by
  refine ⟨⟨k, List.length_replicate⟩, fun i e' key slot held => ?_⟩
  rw [List.eq_of_mem_replicate (List.mem_of_getElem? slot), free] at held
  cases held

omit [DecidableEq κ] in
theorem represents_replicate (n : ℕ) (free : keyOf e = none) :
    Represents keyOf (List.replicate n e) fun _ : κ => none := by
  intro key e'
  refine iff_of_false (by simp) ?_
  rintro ⟨member, held⟩
  rw [List.eq_of_mem_replicate member, free] at held
  cases held

omit [DecidableEq κ] in
theorem occupied_replicate (n : ℕ) (free : keyOf e = none) :
    occupied keyOf (List.replicate n e) = 0 := by
  rw [occupied, List.countP_eq_zero]
  intro e' member
  rw [List.eq_of_mem_replicate member, free]
  exact Bool.false_ne_true

end OsmMini.Foundations.OpenAddressing

import OsmMini.Core.Types
import OsmMini.Foundations.Machine

/-!
# The cache of prepared map tiles

The cache belongs to one engine at a time and holds the tiles of its current viewport, the
first 128 keys asked for. While the map is zoomed it may retain tiles of earlier viewports,
as long as there is room beside the needed ones. A new viewport drops every tile that is
neither needed nor retained.

After any sequence of viewports and insertions at most 128 tiles are held, each of them
needed or retained and never both (`Bounded`), and a tile that was inserted is there until a
viewport leaves it out (`stays`).
-/

set_option autoImplicit false

namespace OsmMini.Apple

open OsmMini.Core OsmMini.Foundations

variable {Owner Key Tile : Type} [DecidableEq Owner] [DecidableEq Key]

structure PreparedMapTileCache (Owner Key Tile : Type) where
  owner : Option Owner
  needed : Finset Key
  requested : List Key
  retained : List Key
  tiles : GoMap Key Tile

namespace PreparedMapTileCache

def capacity : ℕ := 128

def new : PreparedMapTileCache Owner Key Tile :=
  { owner := none, needed := ∅, requested := [], retained := [], tiles := ∅ }

/-- The keys of earlier viewports that are kept beside the needed ones: those with a tile,
each once, in the order in which they were asked for, while there is room. -/
def retain (tiles : GoMap Key Tile) (available : ℕ) : List Key → Finset Key → List Key →
    Finset Key × List Key
  | [], keeping, nextRetained => (keeping, nextRetained)
  | key :: keys, keeping, nextRetained =>
    if nextRetained.length < available then
      if key ∉ keeping ∧ (tiles.lookup key).isSome then
        retain tiles available keys (insert key keeping) (nextRetained ++ [key])
      else retain tiles available keys keeping nextRetained
    else (keeping, nextRetained)

/-- The keys that stay in the cache under new needed ones, and those of them that are only
retained. -/
def keep (c : PreparedMapTileCache Owner Key Tile) (nextNeeded : Finset Key)
    (retainingPreviousTiles : Bool) : Finset Key × List Key :=
  if retainingPreviousTiles then
    retain c.tiles (capacity - nextNeeded.card) (c.requested ++ c.retained) nextNeeded []
  else (nextNeeded, [])

/-- Remove the tiles of some keys. The order in which they are removed does not matter. -/
def removeWhere (tiles : GoMap Key Tile) (p : Key → Prop) [DecidablePred p] : GoMap Key Tile :=
  ⟨tiles.entries.filter fun e => ¬ p e.1,
    tiles.nodupKeys.sublist List.filter_sublist⟩

def updateViewport (c : PreparedMapTileCache Owner Key Tile) (owner : Owner) (keys : List Key)
    (retainingPreviousTiles : Bool) : PreparedMapTileCache Owner Key Tile :=
  let nextKeys := keys.take capacity
  let nextNeeded := nextKeys.toFinset
  if c.owner ≠ some owner then
    { owner := some owner, needed := nextNeeded, requested := nextKeys, retained := [], tiles := ∅ }
  else if nextNeeded ≠ c.needed ∨ (retainingPreviousTiles = false ∧ c.retained ≠ []) then
    let (keeping, nextRetained) := c.keep nextNeeded retainingPreviousTiles
    let tiles := removeWhere c.tiles fun key => key ∈ c.needed ∧ key ∉ keeping
    let tiles := removeWhere tiles fun key => key ∈ c.retained ∧ key ∉ keeping
    { c with needed := nextNeeded, requested := nextKeys, retained := nextRetained, tiles := tiles }
  else c

def tile (c : PreparedMapTileCache Owner Key Tile) (key : Key) (owner : Owner) : Option Tile :=
  if c.owner = some owner then c.tiles.lookup key else none

def insert (c : PreparedMapTileCache Owner Key Tile) (tile : Tile) (key : Key) (owner : Owner) :
    PreparedMapTileCache Owner Key Tile :=
  if c.owner = some owner ∧ key ∈ c.needed then { c with tiles := c.tiles.insert key tile } else c

end PreparedMapTileCache

/-- A call that changes the cache. -/
inductive CacheCall (Owner Key Tile : Type) where
  | updateViewport (owner : Owner) (keys : List Key) (retainingPreviousTiles : Bool)
  | insert (tile : Tile) (key : Key) (owner : Owner)

namespace PreparedMapTileCache

def step (c : PreparedMapTileCache Owner Key Tile) :
    CacheCall Owner Key Tile → PreparedMapTileCache Owner Key Tile
  | .updateViewport owner keys retaining => c.updateViewport owner keys retaining
  | .insert tile key owner => c.insert tile key owner

/-- The cache after a sequence of calls. -/
def run (calls : List (CacheCall Owner Key Tile)) : PreparedMapTileCache Owner Key Tile :=
  calls.foldl step new

/-! ## What one call keeps -/

@[simp] theorem lookup_removeWhere (tiles : GoMap Key Tile) (p : Key → Prop) [DecidablePred p]
    (key : Key) : (removeWhere tiles p).lookup key = if p key then none else tiles.lookup key := by
  by_cases gone : p key
  · rw [if_pos gone, AList.lookup_eq_none]
    intro held
    obtain ⟨t, member⟩ := List.mem_keys.mp held
    exact absurd gone (by simpa using (List.mem_filter.mp member).2)
  · rw [if_neg gone]
    cases found : tiles.lookup key with
    | none =>
        rw [AList.lookup_eq_none] at found ⊢
        intro held
        obtain ⟨t, member⟩ := List.mem_keys.mp held
        exact found (List.mem_keys.mpr ⟨t, List.mem_of_mem_filter member⟩)
    | some t =>
        rw [← Option.mem_def, AList.mem_lookup_iff] at found ⊢
        exact List.mem_filter.mpr ⟨found, by simpa using gone⟩

/-- **What is retained**: keys that are not needed, each once, and no more than there is room. -/
theorem retain_spec (tiles : GoMap Key Tile) {available : ℕ} {nextNeeded : Finset Key}
    (keys : List Key) {keeping : Finset Key} {nextRetained : List Key}
    (kept : ∀ key, key ∈ keeping ↔ key ∈ nextNeeded ∨ key ∈ nextRetained)
    (apart : ∀ key ∈ nextRetained, key ∉ nextNeeded) (distinct : nextRetained.Nodup)
    (room : nextRetained.length ≤ available) :
    (∀ key, key ∈ (retain tiles available keys keeping nextRetained).1 ↔
        key ∈ nextNeeded ∨ key ∈ (retain tiles available keys keeping nextRetained).2) ∧
      (∀ key ∈ (retain tiles available keys keeping nextRetained).2, key ∉ nextNeeded) ∧
      (retain tiles available keys keeping nextRetained).2.Nodup ∧
      (retain tiles available keys keeping nextRetained).2.length ≤ available := by
  induction keys generalizing keeping nextRetained with
  | nil => exact ⟨kept, apart, distinct, room⟩
  | cons key keys ih =>
      rw [retain]
      split_ifs with free fresh
      · have new : key ∉ nextNeeded ∧ key ∉ nextRetained := by
          have outside := fresh.1
          rwa [kept, not_or] at outside
        refine ih (fun x => ?_) (fun x member => ?_) ?_ ?_
        · rw [Finset.mem_insert, kept, List.mem_append, List.mem_singleton]
          tauto
        · rcases List.mem_append.mp member with old | last
          · exact apart x old
          · rw [List.mem_singleton.mp last]
            exact new.1
        · exact List.nodup_append.mpr ⟨distinct, List.nodup_singleton key, fun x old y last same => by
            rw [List.mem_singleton.mp last] at same
            exact new.2 (same ▸ old)⟩
        · rw [List.length_append, List.length_singleton]
          exact free
      · exact ih kept apart distinct room
      · exact ⟨kept, apart, distinct, room⟩

omit [DecidableEq Owner] in
theorem keep_spec (c : PreparedMapTileCache Owner Key Tile) (nextNeeded : Finset Key)
    (retaining : Bool) :
    (∀ key, key ∈ (c.keep nextNeeded retaining).1 ↔
        key ∈ nextNeeded ∨ key ∈ (c.keep nextNeeded retaining).2) ∧
      (∀ key ∈ (c.keep nextNeeded retaining).2, key ∉ nextNeeded) ∧
      (c.keep nextNeeded retaining).2.Nodup ∧
      (c.keep nextNeeded retaining).2.length ≤ capacity - nextNeeded.card ∧
      (retaining = false → (c.keep nextNeeded retaining).2 = []) := by
  cases retaining with
  | false =>
      exact ⟨fun key => by simp [keep], fun key member => absurd member List.not_mem_nil,
        List.nodup_nil, Nat.zero_le _, fun _ => rfl⟩
  | true =>
      obtain ⟨kept, apart, distinct, room⟩ := retain_spec c.tiles (c.requested ++ c.retained)
        (fun key => by simp : ∀ key, key ∈ nextNeeded ↔ key ∈ nextNeeded ∨ key ∈ ([] : List Key))
        (fun key member => absurd member List.not_mem_nil) List.nodup_nil
        (Nat.zero_le (capacity - nextNeeded.card))
      exact ⟨kept, apart, distinct, room, fun none => nomatch none⟩

/-- The cache keeps what is needed or retained, and no more than its capacity. -/
structure Bounded (c : PreparedMapTileCache Owner Key Tile) : Prop where
  held : ∀ key ∈ c.tiles, key ∈ c.needed ∨ key ∈ c.retained
  apart : ∀ key ∈ c.retained, key ∉ c.needed
  distinct : c.retained.Nodup
  room : c.needed.card + c.retained.length ≤ capacity

theorem card_take_le (keys : List Key) : (keys.take capacity).toFinset.card ≤ capacity :=
  (List.toFinset_card_le _).trans (List.length_take_le _ _)

/-- A viewport of another engine empties the cache. -/
theorem updateViewport_other {c : PreparedMapTileCache Owner Key Tile} {owner : Owner}
    {keys : List Key} {retaining : Bool} (other : c.owner ≠ some owner) :
    c.updateViewport owner keys retaining =
      { owner := some owner, needed := (keys.take capacity).toFinset,
        requested := keys.take capacity, retained := [], tiles := ∅ } := if_pos other

/-- **A viewport of the same engine** makes its keys the needed ones and keeps exactly the
tiles that are needed or retained then. -/
theorem updateViewport_same {c : PreparedMapTileCache Owner Key Tile} (bounded : c.Bounded)
    {owner : Owner} (keys : List Key) (retaining : Bool) (same : c.owner = some owner) :
    ∃ c', c.updateViewport owner keys retaining = c' ∧ c'.owner = some owner ∧
      c'.needed = (keys.take capacity).toFinset ∧
      (∀ key, c'.tiles.lookup key =
        if key ∈ c'.needed ∨ key ∈ c'.retained then c.tiles.lookup key else none) ∧
      (∀ key ∈ c'.retained, key ∉ c'.needed) ∧ c'.retained.Nodup ∧
      c'.needed.card + c'.retained.length ≤ capacity ∧ (retaining = false → c'.retained = []) := by
  refine ⟨_, rfl, ?_⟩
  obtain ⟨kept, apart, distinct, room, without⟩ := c.keep_spec (keys.take capacity).toFinset retaining
  unfold updateViewport
  dsimp only
  rw [if_neg (not_not.mpr same)]
  split_ifs with changes
  · refine ⟨same, rfl, fun key => ?_, apart, distinct, ?_, without⟩
    · rw [lookup_removeWhere, lookup_removeWhere]
      by_cases stays : key ∈ (c.keep (keys.take capacity).toFinset retaining).1
      · rw [if_pos ((kept key).mp stays)]
        simp only [stays, not_true_eq_false, and_false, if_false]
      · rw [if_neg fun known => stays ((kept key).mpr known)]
        split_ifs with retained needed
        · rfl
        · rfl
        · rw [AList.lookup_eq_none]
          intro held
          rcases bounded.held key held with first | second
          · exact needed ⟨first, stays⟩
          · exact retained ⟨second, stays⟩
    · have small := card_take_le keys
      dsimp only
      omega
  · rw [not_or, ne_eq, not_not, not_and, not_not] at changes
    refine ⟨same, changes.1.symm, fun key => ?_, bounded.apart, bounded.distinct, bounded.room,
      changes.2⟩
    split_ifs with kept
    · rfl
    · exact AList.lookup_eq_none.mpr fun held => kept (bounded.held key held)

omit [DecidableEq Owner] [DecidableEq Key] in
theorem bounded_new : (new : PreparedMapTileCache Owner Key Tile).Bounded where
  held _ held := absurd held (AList.notMem_empty _)
  apart _ member := absurd member List.not_mem_nil
  distinct := List.nodup_nil
  room := Nat.zero_le _

theorem bounded_step {c : PreparedMapTileCache Owner Key Tile} (bounded : c.Bounded)
    (call : CacheCall Owner Key Tile) : (c.step call).Bounded := by
  cases call with
  | updateViewport owner keys retaining =>
      rw [step]
      by_cases same : c.owner = some owner
      · obtain ⟨c', result, -, -, tiles, apart, distinct, room, -⟩ :=
          updateViewport_same bounded keys retaining same
        rw [result]
        refine ⟨fun key held => ?_, apart, distinct, room⟩
        by_contra dropped
        rw [← AList.lookup_isSome, tiles key, if_neg dropped] at held
        cases held
      · rw [updateViewport_other same]
        refine ⟨fun key held => absurd held (AList.notMem_empty key),
          fun key member => absurd member List.not_mem_nil, List.nodup_nil, ?_⟩
        rw [List.length_nil, Nat.add_zero]
        exact card_take_le keys
  | insert tile key owner =>
      rw [step, insert]
      split_ifs with accepted
      · refine ⟨fun x held => ?_, bounded.apart, bounded.distinct, bounded.room⟩
        rw [AList.mem_insert] at held
        rcases held with rfl | old
        · exact Or.inl accepted.2
        · exact bounded.held x old
      · exact bounded

theorem bounded_run (calls : List (CacheCall Owner Key Tile)) : (run calls).Bounded :=
  List.foldlRecOn calls step (motive := Bounded) bounded_new
    fun _ bounded call _ => bounded_step bounded call

omit [DecidableEq Owner] in
/-- No more tiles are held than fit. -/
theorem Bounded.length_tiles_le {c : PreparedMapTileCache Owner Key Tile} (bounded : c.Bounded) :
    c.tiles.entries.length ≤ capacity := by
  have distinct : c.tiles.keys.Nodup := c.tiles.keys_nodup
  have covered : c.tiles.keys.toFinset ⊆ c.needed ∪ c.retained.toFinset := fun key member => by
    rw [List.mem_toFinset] at member
    rw [Finset.mem_union, List.mem_toFinset]
    exact bounded.held key member
  calc c.tiles.entries.length = c.tiles.keys.length := (List.length_map _).symm
    _ = c.tiles.keys.toFinset.card := (List.toFinset_card_of_nodup distinct).symm
    _ ≤ (c.needed ∪ c.retained.toFinset).card := Finset.card_le_card covered
    _ ≤ c.needed.card + c.retained.toFinset.card := Finset.card_union_le _ _
    _ ≤ c.needed.card + c.retained.length :=
        Nat.add_le_add_left (List.toFinset_card_le _) _
    _ ≤ capacity := bounded.room

/-! ## Runs -/

theorem run_concat (calls : List (CacheCall Owner Key Tile)) (call : CacheCall Owner Key Tile) :
    run (calls ++ [call]) = (run calls).step call := by
  rw [run, List.foldl_append, List.foldl_cons, List.foldl_nil, run]

/-- The first keys of a viewport are the needed ones. -/
theorem needed_run (calls : List (CacheCall Owner Key Tile)) (owner : Owner) (keys : List Key)
    (retaining : Bool) : (run (calls ++ [.updateViewport owner keys retaining])).needed =
      (keys.take capacity).toFinset := by
  rw [run_concat, step]
  by_cases same : (run calls).owner = some owner
  · obtain ⟨c', result, -, needs, -⟩ := updateViewport_same (bounded_run calls) keys retaining same
    rw [result, needs]
  · rw [updateViewport_other same]

/-- The tiles after a viewport are tiles from before, if the engine is the same. -/
theorem tile_updateViewport {c : PreparedMapTileCache Owner Key Tile} (bounded : c.Bounded)
    {owner owner' : Owner} {keys : List Key} {retaining : Bool} {key : Key} {t : Tile}
    (found : (c.updateViewport owner' keys retaining).tile key owner = some t) :
    owner' = owner ∧ c.tile key owner = some t := by
  by_cases same : c.owner = some owner'
  · obtain ⟨c', result, current, -, tiles, -⟩ :=
      updateViewport_same bounded keys retaining same
    rw [result, tile, current] at found
    split_ifs at found with equal
    cases equal
    rw [tiles key] at found
    split_ifs at found
    exact ⟨rfl, by rw [tile, if_pos same, found]⟩
  · rw [updateViewport_other same, tile] at found
    split_ifs at found
    rw [AList.lookup_empty] at found
    cases found

theorem tile_insert {c : PreparedMapTileCache Owner Key Tile} {owner owner' : Owner}
    {key key' : Key} {t t' : Tile} (found : (c.insert t' key' owner').tile key owner = some t) :
    c.owner = some owner ∧ t' = t ∧ key' = key ∧ owner' = owner ∨ c.tile key owner = some t := by
  rw [insert] at found
  split_ifs at found with accepted
  · rw [tile] at found
    split_ifs at found with current
    dsimp only at found current
    by_cases here : key = key'
    · rw [here, AList.lookup_insert] at found
      rw [accepted.1] at current
      exact Or.inl ⟨by rw [accepted.1, current], Option.some.inj found, here.symm,
        Option.some.inj current⟩
    · rw [AList.lookup_insert_ne here] at found
      exact Or.inr (by rw [tile, if_pos current, found])
  · exact Or.inr found

/-- **Where a tile comes from**: it was inserted under the same engine, and no other engine had
a viewport since. -/
theorem tile_inserted {calls : List (CacheCall Owner Key Tile)} {owner : Owner} {key : Key}
    {t : Tile} (found : (run calls).tile key owner = some t) :
    ∃ before after, calls = before ++ .insert t key owner :: after ∧
      (run before).owner = some owner ∧
      ∀ owner' keys retaining, .updateViewport owner' keys retaining ∈ after → owner' = owner := by
  induction calls using List.reverseRecOn with
  | nil =>
      rw [run, List.foldl_nil, tile] at found
      split_ifs at found with current
      cases current
  | append_singleton calls call ih =>
      rw [run_concat] at found
      -- What an earlier insertion gives still holds if the last call keeps the engine.
      have earlier : (run calls).tile key owner = some t →
          (∀ owner' keys retaining, call = .updateViewport owner' keys retaining → owner' = owner) →
          ∃ before after, calls ++ [call] = before ++ .insert t key owner :: after ∧
            (run before).owner = some owner ∧ ∀ owner' keys retaining,
              .updateViewport owner' keys retaining ∈ after → owner' = owner := by
        intro known last
        obtain ⟨before, after, split, current, later⟩ := ih known
        refine ⟨before, after ++ [call], by rw [split]; simp, current, ?_⟩
        intro owner' keys retaining member
        rcases List.mem_append.mp member with old | new
        · exact later owner' keys retaining old
        · exact last owner' keys retaining (List.mem_singleton.mp new).symm
      cases call with
      | updateViewport owner' keys retaining =>
          obtain ⟨same, known⟩ := tile_updateViewport (bounded_run calls) found
          exact earlier known fun _ _ _ equal => by cases equal; exact same
      | insert t' key' owner' =>
          rcases tile_insert found with ⟨current, rfl, rfl, rfl⟩ | known
          · exact ⟨calls, [], rfl, current, fun _ _ _ member => absurd member List.not_mem_nil⟩
          · exact earlier known fun _ _ _ other => nomatch other

/-- **A tile stays** while every later viewport is of the same engine and asks for its key. -/
theorem tile_stays {before after : List (CacheCall Owner Key Tile)} {owner : Owner} {key : Key}
    {t : Tile} (current : (run before).owner = some owner) (needed : key ∈ (run before).needed)
    (viewports : ∀ owner' keys retaining, .updateViewport owner' keys retaining ∈ after →
      owner' = owner ∧ key ∈ keys.take capacity) :
    ∃ t', (run (before ++ .insert t key owner :: after)).tile key owner = some t' ∧
      ((∀ u, .insert u key owner ∉ after) → t' = t) := by
  -- The engine stays current and the key needed.
  suffices stays : (run (before ++ .insert t key owner :: after)).owner = some owner ∧
      key ∈ (run (before ++ .insert t key owner :: after)).needed ∧
      ∃ t', (run (before ++ .insert t key owner :: after)).tiles.lookup key = some t' ∧
        ((∀ u, .insert u key owner ∉ after) → t' = t) by
    obtain ⟨owned, -, t', found, unchanged⟩ := stays
    exact ⟨t', by rw [tile, if_pos owned, found], unchanged⟩
  induction after using List.reverseRecOn with
  | nil =>
      rw [run_concat, step, insert, if_pos ⟨current, needed⟩]
      exact ⟨current, needed, t, AList.lookup_insert _, fun _ => rfl⟩
  | append_singleton after call ih =>
      obtain ⟨owned, asked, t', found, unchanged⟩ := ih fun owner' keys retaining member =>
        viewports owner' keys retaining (List.mem_append_left _ member)
      have whole : before ++ .insert t key owner :: (after ++ [call]) =
          (before ++ .insert t key owner :: after) ++ [call] := by simp
      have earlier : (∀ u, .insert u key owner ∉ after ++ [call]) → t' = t := fun none =>
        unchanged fun u member => none u (List.mem_append_left _ member)
      rw [whole, run_concat]
      have bounded := bounded_run (before ++ .insert t key owner :: after)
      generalize run (before ++ .insert t key owner :: after) = c at owned asked found bounded
      cases call with
      | updateViewport owner' keys retaining =>
          obtain ⟨rfl, named⟩ := viewports owner' keys retaining
            (List.mem_append_right _ (List.mem_singleton_self _))
          obtain ⟨c', result, current', needs, tiles, -⟩ :=
            updateViewport_same bounded keys retaining owned
          have asked' : key ∈ c'.needed := by rwa [needs, List.mem_toFinset]
          rw [step, result]
          exact ⟨current', asked', t', by rw [tiles key, if_pos (Or.inl asked'), found], earlier⟩
      | insert u key' owner' =>
          rw [step, insert]
          split_ifs with accepted
          · by_cases here : key = key'
            · subst here
              refine ⟨owned, asked, u, AList.lookup_insert _, fun none => ?_⟩
              have same : owner' = owner := Option.some.inj (accepted.1.symm.trans owned)
              exact absurd (List.mem_append_right _ (List.mem_singleton.mpr (by rw [same])))
                (none u)
            · exact ⟨owned, asked, t', by rw [AList.lookup_insert_ne here, found], earlier⟩
          · exact ⟨owned, asked, t', found, earlier⟩

/-- Without retention only what the viewport asks for is held. -/
theorem held_of_not_retaining {calls : List (CacheCall Owner Key Tile)} {owner : Owner}
    {keys : List Key} {key : Key}
    (held : key ∈ (run (calls ++ [.updateViewport owner keys false])).tiles) :
    key ∈ keys.take capacity := by
  rw [run_concat, step] at held
  by_cases same : (run calls).owner = some owner
  · obtain ⟨c', result, -, needs, tiles, -, -, -, without⟩ :=
      updateViewport_same (bounded_run calls) keys false same
    rw [result, ← AList.lookup_isSome, tiles key, without rfl, needs] at held
    split_ifs at held with kept
    · rcases kept with needed | retained
      · exact List.mem_toFinset.mp needed
      · exact absurd retained List.not_mem_nil
    · cases held
  · rw [updateViewport_other same] at held
    exact absurd held (AList.notMem_empty key)

end PreparedMapTileCache

end OsmMini.Apple

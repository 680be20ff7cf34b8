import OsmMini.Cmd.Basic
import OsmMini.Cmd.Editor.Workspace

/-!
# Stored drafts can be restored

Each operation builds its new list from the old one by a few steps: a draft replaces the one
of its object or is added at the end, a draft is taken out, the members of a relation change.
The steps keep the drafts valid and their keys distinct; the references are checked at the end
of every operation. Only the number of drafts and the deletions that a merge adds are left to
chance (`Event.Fits`).
-/

set_option autoImplicit false

namespace OsmMini.Cmd.Editor

/-! ## Keys of validated drafts -/

theorem element_toValue_key {e e' : Element} {create : Bool}
    (read : element e.toValue create = .ok e') : e'.key = e.key := by
  have typeFound : (e.toValue.get "type").bind TypeName.read = some e.type := by
    rw [@Element.get_toValue e _ e.type.toValue (by simp [Element.properties]),
      Option.bind_some, TypeName.read_toValue]
  have idFound : ∀ n, e.toValue.integer "id" = some n → n = e.id := by
    intro n found
    rw [Value.integer, @Element.get_toValue e _ (.ofInt e.id) (by simp [Element.properties]),
      Option.bind_some] at found
    simp only [Value.ofInt, Value.safeInteger, Option.ite_none_right_eq_some] at found
    have same := found.2
    rw [Option.some.injEq, Rat.num_intCast] at same
    exact same.symm
  rw [element, typeFound] at read
  split at read
  · next type id version typeRead identity =>
      cases typeRead
      have sameId : id = e.id := by
        rw [readIdentity] at identity
        cases create with
        | true =>
            obtain ⟨n, found, rest⟩ := Option.bind_eq_some_iff.mp identity
            split_ifs at rest
            cases rest
            exact idFound _ found
        | false =>
            obtain ⟨n, found, rest⟩ := Option.bind_eq_some_iff.mp identity
            obtain ⟨v, -, rest⟩ := Option.bind_eq_some_iff.mp rest
            split_ifs at rest
            cases rest
            exact idFound _ found
      split_ifs at read
      cases tagsRead : readTags e.toValue with
      | error err => simp [tagsRead, bind, Except.bind] at read
      | ok t =>
          cases bodyRead : readBody e.toValue e.type with
          | error err => simp [tagsRead, bodyRead, bind, Except.bind] at read
          | ok body =>
              simp only [tagsRead, bodyRead, bind, Except.bind, Except.ok.injEq] at read
              rw [← read, Element.key, Element.key, Element.type,
                (validBody_of_readBody bodyRead).2, sameId]
  · cases read

theorem deletion_toValue_get (base : Element) :
    isDeletion (Draft.deletion base).toValue = true ∧
      truthy (Draft.deletion base).toValue "base" = some base.toValue := by
  refine ⟨?_, truthy_object ?_⟩
  · simp +decide [isDeletion, Draft.toValue, Value.get, List.find?]
  · simp +decide [Draft.toValue, Value.get, List.find?, Element.toValue]

theorem edit_toValue_get (base : Option Element) (value : Element) (center : Option (ℚ × ℚ)) :
    isDeletion (Draft.edit base value center).toValue = false ∧
      ((Draft.edit base value center).toValue.get "value").getD .null = value.toValue := by
  constructor
  · cases center <;> simp +decide [isDeletion, Draft.toValue, Value.get, List.find?]
  · cases center <;> simp +decide [Draft.toValue, Value.get, List.find?]

/-- A validated draft is one of the same object, and a deletion when it was one. -/
theorem validateDraft_toValue_key {d d' : Draft} (read : validateDraft d.toValue = .ok d') :
    d'.key = d.key ∧ d'.deleted = d.deleted := by
  cases d with
  | deletion base =>
      rw [validateDraft, if_pos (deletion_toValue_get base).1, (deletion_toValue_get base).2] at read
      cases found : element base.toValue false with
      | error e => simp [found, Except.map] at read
      | ok base' =>
          simp only [found, Except.map, Except.ok.injEq] at read
          rw [← read]
          exact ⟨element_toValue_key found, rfl⟩
  | edit base value center =>
      obtain ⟨live, valueGet⟩ := edit_toValue_get base value center
      rw [validateDraft, if_neg (by simp [live]), valueGet] at read
      cases baseFound : readBase (Draft.edit base value center).toValue with
      | error e => simp [baseFound, bind, Except.bind] at read
      | ok base' =>
          cases valueFound : element value.toValue base'.isNone with
          | error e => simp [baseFound, valueFound, bind, Except.bind] at read
          | ok value' =>
              cases checked : checkEdit base' value' with
              | error e => simp [baseFound, valueFound, checked, bind, Except.bind] at read
              | ok u =>
                  simp only [baseFound, valueFound, checked, bind, Except.bind,
                    Except.ok.injEq] at read
                  rw [← read]
                  exact ⟨element_toValue_key valueFound, rfl⟩

/-! ## Steps that keep drafts valid and keys distinct -/

/-- What every step keeps, apart from the number of drafts and the references. -/
structure Sound (drafts : List Draft) : Prop where
  valid : ∀ d ∈ drafts, ValidDraft d
  distinct : (drafts.map Draft.key).Nodup

theorem Restorable.sound {drafts : List Draft} (restorable : Restorable drafts) : Sound drafts :=
  ⟨restorable.valid, restorable.distinct⟩

theorem Sound.sublist {drafts next : List Draft} (sound : Sound drafts)
    (part : next.Sublist drafts) : Sound next :=
  ⟨fun d member => sound.valid d (part.subset member), sound.distinct.sublist (part.map _)⟩

/-- A valid draft of a new object is added at the end. -/
theorem Sound.append {drafts : List Draft} {d : Draft} (sound : Sound drafts)
    (valid : ValidDraft d) (new : d.key ∉ drafts.map Draft.key) : Sound (drafts ++ [d]) := by
  refine ⟨?_, ?_⟩
  · intro x member
    rcases List.mem_append.mp member with old | last
    · exact sound.valid x old
    · rw [List.mem_singleton.mp last]
      exact valid
  · rw [List.map_append, List.nodup_append]
    refine ⟨sound.distinct, List.nodup_singleton _, ?_⟩
    rintro key old _ last rfl
    rw [List.map_singleton, List.mem_singleton] at last
    exact new (last ▸ old)

theorem keys_set {drafts : List Draft} {d : Draft} {i : ℕ}
    (place : ∀ x, drafts[i]? = some x → x.key = d.key) :
    (drafts.set i d).map Draft.key = drafts.map Draft.key := by
  rw [List.map_set]
  refine List.ext_getElem? fun j => ?_
  rw [List.getElem?_set]
  split_ifs with same bound
  · subst same
    rw [List.getElem?_map]
    cases found : drafts[i]? with
    | none =>
        rw [List.length_map] at bound
        rw [List.getElem?_eq_none_iff] at found
        omega
    | some x => rw [Option.map_some, place x found]
  · subst same
    rw [List.getElem?_eq_none (by omega)]
  · rfl

/-- A valid draft takes the place of the one of its object. -/
theorem Sound.set {drafts : List Draft} {d : Draft} {i : ℕ} (sound : Sound drafts)
    (valid : ValidDraft d) (place : ∀ x, drafts[i]? = some x → x.key = d.key) :
    Sound (drafts.set i d) := by
  refine ⟨?_, ?_⟩
  · intro x member
    rcases List.mem_or_eq_of_mem_set member with old | rfl
    · exact sound.valid x old
    · exact valid
  · rw [keys_set place]
    exact sound.distinct

/-- The place that was found holds a draft of the object. -/
theorem key_of_findIdx? {drafts : List Draft} {key : Key} {i : ℕ}
    (found : (drafts.findIdx? fun x => x.key = key) = some i) :
    ∃ x, drafts[i]? = some x ∧ x.key = key := by
  obtain ⟨bound, same, -⟩ := List.findIdx?_eq_some_iff_getElem.mp found
  exact ⟨drafts[i], List.getElem?_eq_getElem bound, by simpa using same⟩

theorem not_mem_of_findIdx? {drafts : List Draft} {key : Key}
    (found : (drafts.findIdx? fun x => x.key = key) = none) : key ∉ drafts.map Draft.key := by
  rw [List.findIdx?_eq_none_iff] at found
  intro member
  obtain ⟨x, inDrafts, same⟩ := List.mem_map.mp member
  simpa [same] using found x inDrafts

theorem Sound.upsert {drafts : List Draft} {d : Draft} (sound : Sound drafts)
    (valid : ValidDraft d) : Sound (upsert drafts d) := by
  rw [Editor.upsert.eq_def]
  split
  · next i found =>
      obtain ⟨x, atI, same⟩ := key_of_findIdx? found
      refine sound.set valid fun y atI' => ?_
      rw [atI, Option.some.injEq] at atI'
      rw [← atI', same]
  · next found => exact sound.append valid (not_mem_of_findIdx? found)

/-- The keys after a draft was put into a list. -/
theorem keys_upsert (drafts : List Draft) (d : Draft) :
    (upsert drafts d).map Draft.key =
      drafts.map Draft.key ++ if d.key ∈ drafts.map Draft.key then [] else [d.key] := by
  rw [Editor.upsert.eq_def]
  split
  · next i found =>
      obtain ⟨x, atI, same⟩ := key_of_findIdx? found
      have member : d.key ∈ drafts.map Draft.key :=
        List.mem_map.mpr ⟨x, List.mem_of_getElem? atI, same⟩
      rw [if_pos member, List.append_nil]
      refine keys_set fun y atI' => ?_
      rw [atI, Option.some.injEq] at atI'
      rw [← atI', same]
  · next found =>
      rw [if_neg (not_mem_of_findIdx? found), List.map_append, List.map_singleton]

theorem length_upsert (drafts : List Draft) (d : Draft) :
    (upsert drafts d).length =
      drafts.length + if d.key ∈ drafts.map Draft.key then 0 else 1 := by
  have keys := congrArg List.length (keys_upsert drafts d)
  rw [List.length_map, List.length_append, List.length_map] at keys
  rw [keys]
  split_ifs <;> rfl

theorem mem_upsert {drafts : List Draft} {d x : Draft} (member : x ∈ upsert drafts d) :
    x ∈ drafts ∨ x = d := by
  rw [Editor.upsert.eq_def] at member
  split at member
  · exact List.mem_or_eq_of_mem_set member
  · rcases List.mem_append.mp member with old | last
    · exact .inl old
    · exact .inr (List.mem_singleton.mp last)

/-- A draft of another object stays. -/
theorem mem_upsert_of_ne {drafts : List Draft} {d x : Draft} (member : x ∈ drafts)
    (different : x.key ≠ d.key) : x ∈ upsert drafts d := by
  rw [Editor.upsert.eq_def]
  split
  · next i found =>
      obtain ⟨y, atI, same⟩ := key_of_findIdx? found
      obtain ⟨j, bound, rfl⟩ := List.mem_iff_getElem.mp member
      have other : i ≠ j := by
        rintro rfl
        rw [List.getElem?_eq_getElem bound, Option.some.injEq] at atI
        exact different (atI ▸ same)
      exact List.mem_iff_getElem.mpr ⟨j, by simpa using bound, by rw [List.getElem_set_ne other]⟩
  · exact List.mem_append_left _ member

theorem prune_sublist (ids : List ℤ) : ∀ (i : ℕ) (drafts : List Draft),
    (prune ids i drafts).Sublist drafts
  | 0, drafts => List.Sublist.refl _
  | i + 1, drafts => by
      rw [prune]
      split
      · split_ifs
        · exact (prune_sublist ids i _).trans (List.eraseIdx_sublist _ _)
        · exact prune_sublist ids i drafts
      · exact prune_sublist ids i drafts

/-- A patched relation is a valid draft of the same object. -/
theorem patchRelation_ok {patch : List Member → Option (List Member)} {d d' : Draft}
    (patched : patchRelation patch d = .ok d') (valid : ValidDraft d) :
    d'.key = d.key ∧ ValidDraft d' := by
  rw [patchRelation] at patched
  split at patched
  · next members found =>
      have same : (withMembers members d).key = d.key := by
        obtain ⟨old, isRelation, -⟩ := Option.bind_eq_some_iff.mp found
        cases d with
        | deletion base => cases isRelation
        | edit base value center =>
            simp only [relationMembers] at isRelation
            split at isRelation
            · next body =>
                simp [withMembers, Draft.key, Draft.element, Element.key, Element.type, body,
                  Body.type]
            · cases isRelation
      exact ⟨(validateDraft_toValue_key patched).1.trans same, validDraft_of_validateDraft patched⟩
  · cases patched
    exact ⟨rfl, valid⟩

theorem patchRelations_ok {patch : List Member → Option (List Member)} :
    ∀ {drafts next : List Draft}, patchRelations patch drafts = .ok next →
    (∀ d ∈ drafts, ValidDraft d) →
    next.map Draft.key = drafts.map Draft.key ∧ ∀ d ∈ next, ValidDraft d
  | [], next, patched, _ => by
      cases patched
      exact ⟨rfl, by simp⟩
  | d :: drafts, next, patched, valid => by
      obtain ⟨first, others⟩ := List.forall_mem_cons.mp valid
      rw [patchRelations, List.mapM_cons] at patched
      cases one : patchRelation patch d with
      | error e => simp [one, bind, Except.bind] at patched
      | ok d' =>
          cases rest : drafts.mapM (patchRelation patch) with
          | error e => simp [one, rest, bind, Except.bind] at patched
          | ok next' =>
              simp only [one, rest, bind, Except.bind, pure, Except.pure, Except.ok.injEq]
                at patched
              obtain ⟨key, valid'⟩ := patchRelation_ok one first
              obtain ⟨keys, all⟩ := patchRelations_ok rest others
              rw [← patched, List.map_cons, List.map_cons, keys, key]
              exact ⟨rfl, List.forall_mem_cons.mpr ⟨valid', all⟩⟩

theorem Sound.patchRelations {patch : List Member → Option (List Member)}
    {drafts next : List Draft} (sound : Sound drafts)
    (patched : Editor.patchRelations patch drafts = .ok next) :
    Sound next ∧ next.length = drafts.length := by
  obtain ⟨keys, valid⟩ := patchRelations_ok patched sound.valid
  refine ⟨⟨valid, keys ▸ sound.distinct⟩, ?_⟩
  simpa using congrArg List.length keys

/-- A sound list that passes the last check can be restored when it is not too long. -/
theorem restorable_of_withoutIssues {next stored : List Draft} (sound : Sound next)
    (few : next.length ≤ 100) (passed : withoutIssues next = .ok stored) :
    Restorable stored := by
  rw [withoutIssues, checkReferences, mapM_validateDraft_toValue sound.valid] at passed
  simp only [Except.map, bind, Except.bind] at passed
  split_ifs at passed with issues
  cases passed
  exact ⟨few, sound.valid, sound.distinct, not_not.mp issues⟩

/-! ## Saving -/

theorem savedDraft_ok {current : Current} {working : Tags} {members : List Member} {d : Draft}
    (read : savedDraft current working members = .ok d) :
    ValidDraft d ∧ d.key = current.value.key := by
  rw [savedDraft] at read
  cases tagsRead : tags (working.map fun tag => (tag.1, .string tag.2)) with
  | error e => simp [tagsRead, bind, Except.bind] at read
  | ok t =>
      simp only [tagsRead, bind, Except.bind] at read
      refine ⟨validDraft_of_validateDraft read, (validateDraft_toValue_key read).1.trans ?_⟩
      rw [Draft.key, Draft.element, Element.key, Element.key, Element.type, Element.type]
      split
      · next members' body => rw [body]; rfl
      · rfl

/-- The keys after the pending nodes were put in: those before, then new ones of nodes. -/
theorem upsertAll_ok : ∀ (pending : List Draft) {drafts : List Draft}, Sound drafts →
    (∀ n ∈ pending, ValidDraft n) → Sound (pending.foldl upsert drafts) ∧
      ∃ extra, (pending.foldl upsert drafts).map Draft.key = drafts.map Draft.key ++ extra ∧
        ∀ key ∈ extra, ∃ n ∈ pending, n.key = key
  | [], drafts, sound, _ => ⟨sound, [], by simp, by simp⟩
  | n :: pending, drafts, sound, valid => by
      obtain ⟨first, others⟩ := List.forall_mem_cons.mp valid
      obtain ⟨sound', extra, keys, origin⟩ := upsertAll_ok pending (sound.upsert first) others
      refine ⟨sound', _, by rw [List.foldl_cons, keys, keys_upsert, List.append_assoc], ?_⟩
      intro key member
      rcases List.mem_append.mp member with own | later
      · split_ifs at own
        · cases own
        · exact ⟨n, List.mem_cons_self .., (List.mem_singleton.mp own).symm⟩
      · obtain ⟨n', inPending, same⟩ := origin key later
        exact ⟨n', List.mem_cons_of_mem _ inPending, same⟩

theorem node_of_isNodeEdit {d : Draft} (node : isNodeEdit d = true) : d.key.1 = .node := by
  cases d with
  | deletion base => cases node
  | edit base value center =>
      have type : value.type = .plain .node := by simpa [isNodeEdit] using node
      rw [Draft.key, Draft.element, Element.key, type]
      rfl

theorem saveNext_sound {drafts : List Draft} {current : Current} {d : Draft}
    (sound : Sound drafts) (valid : ValidDraft d) (key : d.key = current.value.key) :
    Sound (saveNext drafts current d) := by
  obtain ⟨sound', extra, keys, origin⟩ :=
    upsertAll_ok current.pendingNodes sound fun n member => (current.pending n member).1
  have notExtra : d.key ∉ extra := by
    intro member
    obtain ⟨n, pending, same⟩ := origin _ member
    obtain ⟨-, node, way⟩ := current.pending n pending
    have kind := node_of_isNodeEdit node
    rw [same, key, Element.key, way] at kind
    cases kind
  -- The place that was found before the pending nodes were put in is still the right one.
  have placed : ∀ {i : ℕ}, (drafts.findIdx? fun x => x.key = d.key) = some i →
      ∀ x, (current.pendingNodes.foldl upsert drafts)[i]? = some x → x.key = d.key := by
    intro i found x atI
    obtain ⟨y, inDrafts, same⟩ := key_of_findIdx? found
    have before : (drafts.map Draft.key)[i]? = some d.key := by
      rw [List.getElem?_map, inDrafts, Option.map_some, same]
    have after : ((current.pendingNodes.foldl upsert drafts).map Draft.key)[i]? = some d.key := by
      rw [keys, List.getElem?_append_left]
      · exact before
      · exact (List.getElem?_eq_some_iff.mp before).1
    rw [List.getElem?_map, atI, Option.map_some, Option.some.injEq] at after
    exact after
  have next : ∀ unchanged : Bool, Sound (placeDraft (current.pendingNodes.foldl upsert drafts)
      (drafts.findIdx? fun x => x.key = d.key) unchanged d) := by
    intro unchanged
    rw [placeDraft.eq_def]
    split
    · next i found =>
        split_ifs
        · exact sound'.sublist (List.eraseIdx_sublist _ _)
        · exact sound'.set valid (placed found)
    · next found =>
        split_ifs
        · exact sound'
        · refine sound'.append valid ?_
          rw [keys, List.mem_append]
          exact not_or.mpr ⟨not_mem_of_findIdx? found, notExtra⟩
  rw [saveNext]
  split_ifs
  · exact (next _).sublist (prune_sublist _ _ _)
  · exact next _

theorem restorable_save {drafts stored : List Draft} {current : Current} {working : Tags}
    {members : List Member} {wayValid : Bool} (restorable : Restorable drafts)
    (done : save drafts current working members wayValid = .ok stored) : Restorable stored := by
  rw [save] at done
  split_ifs at done
  cases read : savedDraft current working members with
  | error e => simp [read, bind, Except.bind] at done
  | ok d =>
      simp only [read, bind, Except.bind] at done
      split_ifs at done with bare many
      obtain ⟨valid, key⟩ := savedDraft_ok read
      exact restorable_of_withoutIssues (saveNext_sound restorable.sound valid key)
        (Nat.not_lt.mp many) done

/-! ## Removing -/

theorem restorable_removeDraft {drafts stored : List Draft} {index : ℕ}
    (restorable : Restorable drafts) (done : removeDraft drafts index = .ok stored) :
    Restorable stored := by
  rw [removeDraft] at done
  have part := (prune_sublist ((drafts[index]?.bind Draft.value).elim [] wayNodes)
    (drafts.eraseIdx index).length (drafts.eraseIdx index)).trans (List.eraseIdx_sublist drafts index)
  exact restorable_of_withoutIssues (restorable.sound.sublist part)
    (part.length_le.trans restorable.few) done

/-- Without one deletion the other drafts still resolve. -/
theorem collectIssues_discard {before after : List Draft} {base : Element}
    (distinct : ((before ++ .deletion base :: after).map Draft.key).Nodup)
    (resolved : collectIssues (before ++ .deletion base :: after) = []) :
    collectIssues (before ++ after) = [] := by
  have values : (before ++ .deletion base :: after).filterMap Draft.value =
      (before ++ after).filterMap Draft.value := by
    simp [List.filterMap_append, List.filterMap_cons, Draft.value]
  have uses : ∀ id, vertexUsed (before ++ after) id =
      vertexUsed (before ++ .deletion base :: after) id := fun id => by
    rw [vertexUsed, vertexUsed, values]
  have usesOf' : ∀ e, usesOf (before ++ after) e =
      usesOf (before ++ .deletion base :: after) e := fun e => by
    rw [usesOf, usesOf, values]
  have stillAlive : ∀ r, alive (before ++ .deletion base :: after) r = true →
      alive (before ++ after) r = true := by
    intro r living
    by_cases same : r = base.key
    · have entry : known (before ++ .deletion base :: after) r = some true := by
        rw [known, List.reverse_append, List.reverse_cons, List.append_assoc, List.find?_append]
        have absent : after.reverse.find? (fun d => d.key = r) = none := by
          rw [List.find?_eq_none]
          intro d member
          have differs : base.key ≠ d.key := by
            rw [List.map_append, List.nodup_append, List.map_cons, List.nodup_cons] at distinct
            intro equal
            exact distinct.2.1.1
              (List.mem_map.mpr ⟨d, List.mem_reverse.mp member, equal.symm⟩)
          simpa [same] using Ne.symm differs
        rw [absent, Option.none_or, List.find?_append, List.find?_singleton]
        simp [Draft.key, Draft.element, same, Draft.deleted]
      rw [alive, entry] at living
      cases living
    · have entry : known (before ++ after) r = known (before ++ .deletion base :: after) r := by
        have skip : ((Draft.deletion base).key = r) = False := by
          simpa [Draft.key, Draft.element] using fun equal => same equal.symm
        simp [known, List.find?_append, skip]
      rw [alive, entry]
      exact living
  simp only [collectIssues, List.append_eq_nil_iff, List.flatMap_eq_nil_iff, List.map_eq_nil_iff,
    List.filter_eq_nil_iff] at resolved ⊢
  obtain ⟨⟨references, deletions⟩, vertices⟩ := resolved
  have inAll : ∀ {d}, d ∈ before ++ after → d ∈ before ++ .deletion base :: after := by
    intro d member
    rcases List.mem_append.mp member with left | right
    · exact List.mem_append_left _ left
    · exact List.mem_append_right _ (List.mem_cons_of_mem _ right)
  refine ⟨⟨?_, ?_⟩, ?_⟩
  · intro v value
    have none := references v (by rw [values]; exact value)
    rw [unresolved.eq_def] at none ⊢
    split at none
    · next nodes body =>
        simp only [List.map_eq_nil_iff, List.filter_eq_nil_iff] at none ⊢
        intro n member
        simpa using stillAlive _ (by simpa using none n member)
    · next members body =>
        simp only [List.map_eq_nil_iff, List.filter_eq_nil_iff] at none ⊢
        intro m member
        simpa using stillAlive _ (by simpa using none m member)
    · next body noRelation => exact none
  · intro d deletion
    rw [usesOf']
    obtain ⟨member, deleted⟩ := List.mem_filter.mp deletion
    exact deletions d (List.mem_filter.mpr ⟨inAll member, deleted⟩)
  · intro d member
    rw [uses]
    exact vertices d (inAll member)

theorem restorable_discardDeletion {drafts : List Draft} (index : ℕ)
    (restorable : Restorable drafts) : Restorable (discardDeletion drafts index) := by
  rw [discardDeletion]
  split
  · next base found =>
      obtain ⟨bound, atIndex⟩ := List.getElem?_eq_some_iff.mp found
      have shape : drafts = drafts.take index ++ .deletion base :: drafts.drop (index + 1) := by
        rw [← atIndex, List.getElem_cons_drop, List.take_append_drop]
      have part := List.eraseIdx_sublist drafts index
      refine ⟨part.length_le.trans restorable.few, fun d member =>
        restorable.valid d (part.subset member), restorable.distinct.sublist (part.map _), ?_⟩
      rw [List.eraseIdx_eq_take_drop_succ]
      exact collectIssues_discard (shape ▸ restorable.distinct) (shape ▸ restorable.resolved)
  · exact restorable

/-! ## Splitting and merging -/

/-- What a split or a merge would have to check: how many drafts it adds, and whether the
object it adds has a draft already. Every other operation checks it. -/
def Event.Fits (drafts : List Draft) : Event → Prop
  | .split current _ =>
    drafts.length + (if current.value.key ∈ drafts.map Draft.key then 1 else 2) ≤ 100 ∧
      (Kind.way, nextTempId drafts .way) ∉ drafts.map Draft.key
  | .merge current id _ =>
    drafts.length + (if current.value.key ∈ drafts.map Draft.key then 0 else 1) +
        (if drafts.any (isLiveWay id) then 0 else 1) ≤ 100 ∧
      ((Kind.way, id) ∈ drafts.map Draft.key → drafts.any (isLiveWay id))
  | _ => True

theorem nextTempId_neg (drafts : List Draft) (kind : Kind) : nextTempId drafts kind < 0 := by
  have least : ∀ (ids : List ℤ) (start : ℤ), ids.foldl min start ≤ start := by
    intro ids
    induction ids with
    | nil => exact fun start => le_refl start
    | cons id ids ih => exact fun start => (ih (min start id)).trans (min_le_left start id)
  have bound := least ((((drafts.filterMap Draft.value).filter fun v =>
    v.type = .plain kind && v.id < 0).map Element.id)) 0
  rw [nextTempId]
  omega

/-- The key of a draft with a base is one of OpenStreetMap. -/
theorem positive_of_base {d : Draft} {b : Element} (valid : ValidDraft d)
    (base : d.base = some b) : 0 < d.key.2 ∧ b.key = d.key := by
  cases d with
  | deletion e =>
      obtain rfl : e = b := by simpa [Draft.base] using base
      have identity := valid.identity.2
      rw [if_neg Bool.false_ne_true] at identity
      exact ⟨identity.1, rfl⟩
  | edit base' value center =>
      obtain rfl : base' = some b := base
      have identity := valid.2.1.identity.2
      rw [Option.isNone_some, if_neg Bool.false_ne_true] at identity
      refine ⟨identity.1, ?_⟩
      have checked := valid.2.2.1
      simp only [checkEdit] at checked
      split_ifs at checked with different
      push Not at different
      have type : b.type.kind = value.type.kind := by
        have same := different.1
        simp only [TypeName.same, ne_eq, Bool.not_eq_true', Bool.not_eq_false, Bool.and_eq_true,
          decide_eq_true_eq] at same
        exact same.2
      rw [Draft.key, Draft.element, Element.key, Element.key, type, different.2.1]

/-- A draft that was written with a base has one. -/
theorem base_of_validateDraft {base : Option Element} {value : Element}
    {center : Option (ℚ × ℚ)} {d : Draft} {b : Element} (some' : base = some b)
    (read : validateDraft (Draft.edit base value center).toValue = .ok d) :
    ∃ b', d.base = some b' := by
  subst some'
  obtain ⟨live, -⟩ := edit_toValue_get (some b) value center
  have found : truthy (Draft.edit (some b) value center).toValue "base" = some b.toValue := by
    refine truthy_object ?_
    cases center <;> simp +decide [Draft.toValue, Value.get, List.find?, Element.toValue]
  rw [validateDraft, if_neg (by simp [live]), readBase, found] at read
  cases baseFound : element b.toValue false with
  | error e => simp [baseFound, Except.map, bind, Except.bind] at read
  | ok b' =>
      simp only [baseFound, Except.map, bind, Except.bind] at read
      split at read
      · cases read
      · split at read
        · cases read
        · cases read
          exact ⟨b', rfl⟩

theorem eq_of_withoutIssues {next stored : List Draft} (passed : withoutIssues next = .ok stored) :
    stored = next := by
  obtain ⟨issues, -, rest⟩ := ok_of_bind passed
  split_ifs at rest
  cases rest
  rfl

/-- The steps of a split. -/
structure SplitSteps (drafts stored : List Draft) (current : Current) (nodeId : ℤ)
    (nodes : List ℤ) (first second : Draft) : Prop where
  inner : 0 < nodes.idxOf nodeId ∧ nodes.idxOf nodeId + 1 < nodes.length
  firstRead : validateDraft (Draft.edit current.base
    { current.value with body := .way (nodes.take (nodes.idxOf nodeId + 1)) }
    current.center).toValue = .ok first
  secondRead : ∃ value, element (Element.toValue
      { current.value with
        id := nextTempId drafts .way, version := none
        body := .way (nodes.drop (nodes.idxOf nodeId)) }) true = .ok value ∧
    validateDraft (Draft.edit none value current.center).toValue = .ok second
  patched : patchRelations (patchSplit current.value.id second.element.id)
    (upsert drafts first ++ [second]) = .ok stored
  passed : withoutIssues stored = .ok stored

theorem performSplit_ok {drafts stored : List Draft} {current : Current} {nodeId : ℤ}
    {nodes : List ℤ} (done : performSplit drafts current nodeId = .ok stored)
    (body : current.value.body = .way nodes) (hasBase : current.base ≠ none) :
    ∃ first second, SplitSteps drafts stored current nodeId nodes first second := by
  rw [performSplit, body] at done
  simp only [if_neg hasBase] at done
  split_ifs at done with outside
  push Not at outside
  obtain ⟨first, firstRead, done⟩ := ok_of_bind done
  obtain ⟨value, elementRead, done⟩ := ok_of_bind done
  obtain ⟨second, secondRead, done⟩ := ok_of_bind done
  obtain ⟨next, patched, passed⟩ := ok_of_bind done
  obtain rfl := eq_of_withoutIssues passed
  exact ⟨first, second, ⟨by omega, by omega⟩, firstRead, ⟨value, elementRead, secondRead⟩,
    patched, passed⟩

namespace SplitSteps

variable {drafts stored : List Draft} {current : Current} {nodeId : ℤ} {nodes : List ℤ}
  {first second : Draft}

theorem firstKey (steps : SplitSteps drafts stored current nodeId nodes first second)
    (body : current.value.body = .way nodes) : first.key = current.value.key := by
  rw [(validateDraft_toValue_key steps.firstRead).1, Draft.key, Draft.element, Element.key,
    Element.key, Element.type, Element.type, body]
  rfl

theorem secondKey (steps : SplitSteps drafts stored current nodeId nodes first second) :
    second.key = (Kind.way, nextTempId drafts .way) := by
  obtain ⟨value, elementRead, secondRead⟩ := steps.secondRead
  rw [(validateDraft_toValue_key secondRead).1]
  exact element_toValue_key elementRead

end SplitSteps

theorem restorable_performSplit {drafts stored : List Draft} {current : Current} {nodeId : ℤ}
    (restorable : Restorable drafts) (fits : (Event.split current nodeId).Fits drafts)
    (done : performSplit drafts current nodeId = .ok stored) : Restorable stored := by
  obtain ⟨room, fresh⟩ := fits
  cases body : current.value.body with
  | node | group =>
      rw [performSplit, body] at done
      cases done
      exact restorable
  | way nodes =>
      by_cases noBase : current.base = none
      · rw [performSplit, body] at done
        simp only [if_pos noBase] at done
        cases done
        exact restorable
      obtain ⟨b, hasBase⟩ := Option.ne_none_iff_exists'.mp noBase
      obtain ⟨first, second, steps⟩ := performSplit_ok done body noBase
      obtain ⟨value, -, secondRead⟩ := steps.secondRead
      have firstValid := validDraft_of_validateDraft steps.firstRead
      have secondValid := validDraft_of_validateDraft secondRead
      have new : second.key ∉ (upsert drafts first).map Draft.key := by
        rw [keys_upsert, List.mem_append, steps.secondKey]
        rintro (old | own)
        · exact fresh old
        · split_ifs at own
          · cases own
          · have same := List.mem_singleton.mp own
            obtain ⟨b', firstBase⟩ := base_of_validateDraft hasBase steps.firstRead
            have positive := (positive_of_base firstValid firstBase).1
            have negative := nextTempId_neg drafts .way
            rw [← same] at positive
            omega
      have sound := (restorable.sound.upsert firstValid).append secondValid new
      obtain ⟨sound', length⟩ := sound.patchRelations steps.patched
      refine restorable_of_withoutIssues sound' ?_ steps.passed
      rw [length, List.length_append, length_upsert, steps.firstKey body, List.length_singleton]
      split_ifs at room ⊢ <;> omega

theorem isLiveWay_key {id : ℤ} {d : Draft} (live : isLiveWay id d = true) :
    d.key = (Kind.way, id) := by
  cases d with
  | deletion base => cases live
  | edit base value center =>
      simp only [isLiveWay, Bool.and_eq_true, decide_eq_true_eq] at live
      rw [Draft.key, Draft.element, Element.key, live.1, live.2]
      rfl

theorem mergeNext_sound {drafts : List Draft} {id : ℤ} {kept removed : Draft}
    (sound : Sound drafts) (keptValid : ValidDraft kept) (removedValid : ValidDraft removed)
    (removedKey : removed.key = (Kind.way, id)) (other : kept.key ≠ (Kind.way, id))
    (single : (Kind.way, id) ∈ drafts.map Draft.key → drafts.any (isLiveWay id)) :
    Sound (mergeNext drafts id kept removed) ∧
      (mergeNext drafts id kept removed).length ≤ drafts.length +
        (if kept.key ∈ drafts.map Draft.key then 0 else 1) +
        if drafts.any (isLiveWay id) then 0 else 1 := by
  have upserted := sound.upsert keptValid
  rw [mergeNext]
  split
  · next i found =>
      obtain ⟨bound, live, -⟩ := List.findIdx?_eq_some_iff_getElem.mp found
      refine ⟨upserted.set removedValid fun x atI => ?_, ?_⟩
      · rw [List.getElem?_eq_getElem bound, Option.some.injEq] at atI
        rw [← atI, isLiveWay_key live, removedKey]
      · rw [List.length_set, length_upsert]
        omega
  · next found =>
      rw [List.findIdx?_eq_none_iff] at found
      have noLive : drafts.any (isLiveWay id) = false := by
        rw [List.any_eq_false]
        intro d member
        by_cases live : isLiveWay id d = true
        · have stays := mem_upsert_of_ne member
            (show d.key ≠ kept.key from isLiveWay_key live ▸ Ne.symm other)
          exact absurd live (by simp [found d stays])
        · exact live
      refine ⟨upserted.append removedValid ?_, ?_⟩
      · rw [keys_upsert, List.mem_append, removedKey]
        rintro (old | own)
        · exact absurd (single old) (by simp [noLive])
        · split_ifs at own
          · cases own
          · exact other (List.mem_singleton.mp own).symm
      · rw [List.length_append, length_upsert, noLive, List.length_singleton]
        simp

theorem otherBase_key {drafts : List Draft} {id : ℤ} {server : Option Value}
    {other base : Element} (valid : ∀ d ∈ drafts, ValidDraft d)
    (otherRead : otherWay drafts id server = .ok other)
    (baseRead : otherBase drafts id other = .ok base) : base.key = (Kind.way, id) := by
  rw [otherWay] at otherRead
  rw [otherBase] at baseRead
  cases found : drafts.find? (isLiveWay id) with
  | some d =>
      simp only [found] at baseRead
      split at baseRead
      · next b hasBase =>
          cases baseRead
          have member := List.mem_of_find?_eq_some found
          rw [(positive_of_base (valid d member) hasBase).2]
          exact isLiveWay_key (List.find?_some found)
      · cases baseRead
  | none =>
      simp only [found] at otherRead baseRead
      cases baseRead
      rw [serverWay.eq_def] at otherRead
      split at otherRead
      · cases otherRead
      · next raw =>
          cases read : element raw false with
          | error e => simp [read, bind, Except.bind] at otherRead
          | ok e =>
              simp only [read, bind, Except.bind] at otherRead
              split_ifs at otherRead with same
              cases otherRead
              rw [Element.key, same.1, same.2]
              rfl

/-- The steps of a merge. -/
structure MergeSteps (drafts stored : List Draft) (current : Current) (id : ℤ)
    (server : Option Value) (nodes : List ℤ) (other : Element) (merged : List ℤ)
    (kept removed : Draft) : Prop where
  different : id ≠ current.value.id
  otherRead : otherWay drafts id server = .ok other
  joined : mergedNodes nodes (wayNodes other) = some merged
  keptRead : validateDraft (Draft.edit current.base
    { current.value with
      body := .way merged
      tags := unionTags other.tags current.value.tags }
    current.center).toValue = .ok kept
  removedRead : ∃ base, otherBase drafts id other = .ok base ∧
    validateDraft (Draft.deletion base).toValue = .ok removed
  patched : patchRelations (patchMerge id kept.element.id) (mergeNext drafts id kept removed) =
    .ok stored
  passed : withoutIssues stored = .ok stored

theorem mergeWith_ok {drafts stored : List Draft} {current : Current} {id : ℤ}
    {server : Option Value} {nodes : List ℤ}
    (done : mergeWith drafts current id server = .ok stored)
    (body : current.value.body = .way nodes)
    (starts : ¬ (current.base = none ∨ !validID id ∨ id = current.value.id)) :
    ∃ other merged kept removed,
      MergeSteps drafts stored current id server nodes other merged kept removed := by
  rw [mergeWith, body] at done
  simp only [if_neg starts] at done
  push Not at starts
  obtain ⟨other, otherRead, done⟩ := ok_of_bind done
  split at done
  · cases done
  · next merged joined =>
      obtain ⟨kept, keptRead, done⟩ := ok_of_bind done
      obtain ⟨base, baseRead, done⟩ := ok_of_bind done
      obtain ⟨removed, removedRead, done⟩ := ok_of_bind done
      obtain ⟨next, patched, passed⟩ := ok_of_bind done
      obtain rfl := eq_of_withoutIssues passed
      exact ⟨other, merged, kept, removed, starts.2.2, otherRead, joined, keptRead,
        ⟨base, baseRead, removedRead⟩, patched, passed⟩

namespace MergeSteps

variable {drafts stored : List Draft} {current : Current} {id : ℤ} {server : Option Value}
  {nodes : List ℤ} {other : Element} {merged : List ℤ} {kept removed : Draft}

theorem keptKey
    (steps : MergeSteps drafts stored current id server nodes other merged kept removed)
    (body : current.value.body = .way nodes) : kept.key = current.value.key := by
  rw [(validateDraft_toValue_key steps.keptRead).1, Draft.key, Draft.element, Element.key,
    Element.key, Element.type, Element.type, body]
  rfl

end MergeSteps

theorem restorable_mergeWith {drafts stored : List Draft} {current : Current} {id : ℤ}
    {server : Option Value} (restorable : Restorable drafts)
    (fits : (Event.merge current id server).Fits drafts)
    (done : mergeWith drafts current id server = .ok stored) : Restorable stored := by
  obtain ⟨room, single⟩ := fits
  cases body : current.value.body with
  | node | group =>
      rw [mergeWith, body] at done
      cases done
      exact restorable
  | way nodes =>
      by_cases skipped : current.base = none ∨ !validID id ∨ id = current.value.id
      · rw [mergeWith, body] at done
        simp only [if_pos skipped] at done
        cases done
        exact restorable
      obtain ⟨other, merged, kept, removed, steps⟩ := mergeWith_ok done body skipped
      obtain ⟨base, baseRead, removedRead⟩ := steps.removedRead
      have removedKey : removed.key = (Kind.way, id) := by
        rw [(validateDraft_toValue_key removedRead).1]
        exact otherBase_key restorable.valid steps.otherRead baseRead
      have apart : kept.key ≠ (Kind.way, id) := by
        rw [steps.keptKey body]
        exact fun same => steps.different (congrArg Prod.snd same).symm
      obtain ⟨sound, length⟩ := mergeNext_sound restorable.sound
        (validDraft_of_validateDraft steps.keptRead) (validDraft_of_validateDraft removedRead)
        removedKey apart single
      obtain ⟨sound', same⟩ := sound.patchRelations steps.patched
      refine restorable_of_withoutIssues sound' ?_ steps.passed
      rw [same]
      rw [steps.keptKey body] at length
      exact length.trans room

/-! ## Deleting and importing -/

theorem restorable_deleteObject {drafts stored : List Draft} {current : Current}
    {parents : List Key} (restorable : Restorable drafts)
    (done : deleteObject drafts current parents = .ok stored) : Restorable stored := by
  rw [deleteObject] at done
  split at done
  · cases done
    exact restorable
  · next base hasBase =>
      split_ifs at done
      cases read : validateDraft (Draft.deletion base).toValue with
      | error e => simp [read, bind, Except.bind] at done
      | ok removed =>
          simp only [read, bind, Except.bind] at done
          split_ifs at done with many
          have key : removed.key = current.value.key :=
            (validateDraft_toValue_key read).1.trans (current.versions base hasBase)
          have others := restorable.sound.sublist
            (List.filter_sublist (p := fun d => d.key ≠ current.value.key) (l := drafts))
          refine restorable_of_withoutIssues
            (others.append (validDraft_of_validateDraft read) ?_) (Nat.not_lt.mp many) done
          rw [key]
          intro member
          obtain ⟨d, kept, same⟩ := List.mem_map.mp member
          simpa [same] using (List.mem_filter.mp kept).2

theorem valid_of_restore {raw : Value} {drafts : List Draft} (read : restore raw = .ok drafts) :
    ∀ d ∈ drafts, ValidDraft d := by
  rw [restore] at read
  split at read
  · next version list _ _ =>
      split_ifs at read
      cases all : list.mapM validateDraft with
      | error e => simp [all, bind, Except.bind] at read
      | ok validated =>
          cases exported : osc (validated.map Draft.toValue) with
          | error e => simp [all, exported, bind, Except.bind] at read
          | ok doc =>
              simp only [all, exported, bind, Except.bind, Except.ok.injEq] at read
              exact read ▸ (valid_of_mapM all).2
  · cases read

theorem restorable_importFile {drafts stored : List Draft} {file : Option Value}
    (restorable : Restorable drafts) (done : importFile drafts file = .ok stored) :
    Restorable stored := by
  rw [importFile.eq_def] at done
  split at done
  · cases done
  · next raw =>
      cases incomingRead : restore raw with
      | error e => simp [incomingRead, bind, Except.bind] at done
      | ok incoming =>
          cases exported : osc ((drafts ++ incoming).map Draft.toValue) with
          | error e =>
              rw [List.map_append] at exported
              simp [incomingRead, exported, bind, Except.bind] at done
          | ok doc =>
              have valid : ∀ d ∈ drafts ++ incoming, ValidDraft d := by
                intro d member
                rcases List.mem_append.mp member with old | new
                · exact restorable.valid d old
                · exact valid_of_restore incomingRead d new
              obtain ⟨all, read, merged, -⟩ := osc_ok_iff.mp exported
              rw [mapM_validateDraft_toValue valid, Except.ok.injEq] at read
              rw [List.map_append] at exported
              simp only [incomingRead, List.map_append, exported, bind, Except.bind,
                Except.ok.injEq] at done
              rw [← done, read]
              exact merged

/-! ## Runs -/

/-- Every list that a workspace holds can be restored. -/
structure Workspace.Restorable (s : Workspace) : Prop where
  drafts : Editor.Restorable s.drafts
  saved : Editor.Restorable s.saved
  undo : ∀ earlier ∈ s.undo, Editor.Restorable earlier
  redo : ∀ later ∈ s.redo, Editor.Restorable later

theorem restorable_nil : Restorable [] :=
  ⟨Nat.zero_le _, by simp, List.nodup_nil, rfl⟩

namespace Workspace

theorem restorable_new : new.Restorable :=
  ⟨restorable_nil, restorable_nil, by simp [new], by simp [new]⟩

theorem Restorable.persist {s : Workspace} {drafts : List Draft} (restorable : s.Restorable)
    (next : Editor.Restorable drafts) : (s.persist drafts).Restorable := by
  rw [Workspace.persist]
  split_ifs
  · exact ⟨next, next, restorable.undo, restorable.redo⟩
  · refine ⟨next, next, ?_, by simp⟩
    intro earlier member
    rcases List.mem_cons.mp (List.mem_of_mem_take member) with rfl | old
    · exact restorable.saved
    · exact restorable.undo earlier old

theorem Restorable.apply {s : Workspace} {result : Except String (List Draft)}
    (restorable : s.Restorable) (next : ∀ drafts, result = .ok drafts → Editor.Restorable drafts) :
    (s.apply result).Restorable := by
  cases result with
  | error e => exact restorable
  | ok drafts => exact restorable.persist (next drafts rfl)

/-- **One operation** that fits keeps every list restorable. -/
theorem Restorable.step {s : Workspace} {event : Event} (restorable : s.Restorable)
    (fits : event.Fits s.drafts) : (s.step event).Restorable := by
  cases event with
  | save current working members wayValid =>
      exact restorable.apply fun _ done => restorable_save restorable.drafts done
  | remove index =>
      exact restorable.apply fun _ done => restorable_removeDraft restorable.drafts done
  | discardDeletion index =>
      exact restorable.persist (restorable_discardDeletion index restorable.drafts)
  | split current nodeId =>
      exact restorable.apply fun _ done => restorable_performSplit restorable.drafts fits done
  | merge current id server =>
      exact restorable.apply fun _ done => restorable_mergeWith restorable.drafts fits done
  | delete current parents =>
      exact restorable.apply fun _ done => restorable_deleteObject restorable.drafts done
  | importFile file =>
      exact restorable.apply fun _ done => restorable_importFile restorable.drafts done
  | undo =>
      rw [Workspace.step]
      split
      · exact restorable
      · next earlier rest shape =>
          have all := restorable.undo
          rw [shape] at all
          obtain ⟨first, others⟩ := List.forall_mem_cons.mp all
          exact ⟨first, first, others,
            List.forall_mem_cons.mpr ⟨restorable.drafts, restorable.redo⟩⟩
  | redo =>
      rw [Workspace.step]
      split
      · exact restorable
      · next later rest shape =>
          have all := restorable.redo
          rw [shape] at all
          obtain ⟨first, others⟩ := List.forall_mem_cons.mp all
          exact ⟨first, first,
            List.forall_mem_cons.mpr ⟨restorable.drafts, restorable.undo⟩, others⟩

/-- Every operation of a run fits when its turn comes. -/
def FitsRun : Workspace → List Event → Prop
  | _, [] => True
  | s, event :: events => event.Fits s.drafts ∧ FitsRun (s.step event) events

theorem Restorable.run : ∀ {events : List Event} {s : Workspace}, s.Restorable →
    FitsRun s events → ∀ reached : List Event, reached <+: events → (s.run reached).Restorable
  | _, s, restorable, _, [], _ => restorable
  | [], s, restorable, _, event :: reached, part => by
      cases List.prefix_nil.mp part
  | event' :: events, s, restorable, fits, event :: reached, part => by
      obtain ⟨rfl, rest⟩ := List.cons_prefix_cons.mp part
      exact Restorable.run (restorable.step fits.1) fits.2 reached rest

end Workspace

/-- **In every state of a run whose operations fit, the stored drafts are restored** as they
are; they number at most 100, have distinct objects and are valid, and their references
resolve. -/
theorem restorable_run {events reached : List Event} (fits : Workspace.new.FitsRun events)
    (part : reached <+: events) :
    restore (persisted (Workspace.new.run reached).drafts) =
        .ok (Workspace.new.run reached).drafts ∧
      Restorable (Workspace.new.run reached).drafts := by
  have restorable := (Workspace.restorable_new.run fits reached part).drafts
  exact ⟨restore_persisted_iff.mpr restorable, restorable⟩

/-! ### Two ways that share a node -/

/-- A way of the server. -/
def wayOf (id : ℤ) (nodes : List ℤ) : Element where
  id := id
  version := some 1
  tags := [(text "highway", text "path")]
  body := .way nodes

/-- A way that was loaded and not edited. -/
def loaded (e : Element) : Current where
  base := some e
  value := e
  center := none
  pendingNodes := []
  versions := by
    rintro b same
    rw [Option.some.inj same]
  pending := by simp

def firstWay : Element := wayOf 1 [10, 11]

def secondWay : Element := wayOf 2 [11, 12]

def deleteSecond : Event := .delete (loaded secondWay) []

def mergeBoth : Event := .merge (loaded firstWay) 2 (some secondWay.toValue)

/-- The ways are merged after the deletion of one was taken back. -/
theorem restorable_mergeBoth :
    restore (persisted (Workspace.new.run [deleteSecond, .undo, mergeBoth]).drafts) =
        .ok (Workspace.new.run [deleteSecond, .undo, mergeBoth]).drafts ∧
      Restorable (Workspace.new.run [deleteSecond, .undo, mergeBoth]).drafts := by
  have room : mergeBoth.Fits (Workspace.new.run [deleteSecond, .undo]).drafts := by
    unfold mergeBoth Event.Fits
    decide +kernel
  have fits : Workspace.new.FitsRun [deleteSecond, .undo, mergeBoth] :=
    ⟨trivial, trivial, room, trivial⟩
  exact restorable_run fits (List.prefix_refl _)

/-- A way that is marked as deleted is merged with another one. -/
theorem not_restorable_mergeDeleted :
    restore (persisted (Workspace.new.run [deleteSecond, mergeBoth]).drafts) ≠
      .ok (Workspace.new.run [deleteSecond, mergeBoth]).drafts := by
  rw [ne_eq, restore_persisted_iff]
  intro restorable
  exact absurd restorable.distinct (by decide +kernel)

end OsmMini.Cmd.Editor

import OsmMini.Cmd.Editor.Restorable
import OsmMini.Foundations.Rectangles

/-!
# Splitting and merging ways

A split cuts the nodes of a way at an inner node, which ends the first part and starts the
second one. A merge joins two ways at a common end, whichever way they run, and keeps the
segments of both.

The relations among the drafts are patched. A merge replaces the removed way wherever it is a
member. A split adds the new way after the first occurrence of the way that is split, and so a
relation that contains it more than once misses the new way elsewhere (`split_merge_conserve`).
-/

set_option autoImplicit false

namespace OsmMini.Cmd.Editor

open OsmMini.Foundations

/-! ## What is read back -/

theorem safeInteger_ofInt_eq {n m : ℤ} (read : (Value.ofInt n).safeInteger = some m) : m = n := by
  simp only [Value.ofInt, Value.safeInteger, Option.ite_none_right_eq_some] at read
  have same := read.2
  rw [Option.some.injEq, Rat.num_intCast] at same
  exact same.symm

theorem readRef_ofInt_eq {n m : ℤ} (read : readRef (.ofInt n) = some m) : m = n := by
  obtain ⟨k, safe, rest⟩ := Option.bind_eq_some_iff.mp read
  split_ifs at rest
  cases rest
  exact safeInteger_ofInt_eq safe

theorem member_toValue_eq {m m' : Member} (read : member m.toValue = .ok m') : m' = m := by
  have typeFound : (m.toValue.get "type").bind TypeName.read = some m.type := by
    have found : m.toValue.get "type" = some m.type.toValue := by
      simp +decide [Member.toValue, Value.get, List.find?]
    rw [found, Option.bind_some, TypeName.read_toValue]
  have refFound : m.toValue.get "ref" = some (.ofInt m.ref) := by
    simp +decide [Member.toValue, Value.get, List.find?]
  have roleFound : readRole m.toValue = some m.role := by
    have found : m.toValue.get "role" = some (.string m.role) := by
      simp +decide [Member.toValue, Value.get, List.find?]
    rw [readRole, found]
  rw [member, typeFound, Value.integer, refFound, Option.bind_some] at read
  cases safe : (Value.ofInt m.ref).safeInteger with
  | none => simp [safe] at read
  | some ref =>
      simp only [safe, roleFound] at read
      split_ifs at read
      cases read
      rw [safeInteger_ofInt_eq safe]

/-- A list that is read back element by element is the list that was written. -/
theorem mapM_except_eq {α β ε : Type*} {f : β → Except ε α} {g : α → β}
    (back : ∀ a a', f (g a) = .ok a' → a' = a) :
    ∀ {l l' : List α}, (l.map g).mapM f = .ok l' → l' = l := by
  intro l
  induction l with
  | nil =>
      intro l' read
      cases read
      rfl
  | cons a l ih =>
      intro l' read
      rw [List.map_cons, List.mapM_cons] at read
      cases first : f (g a) with
      | error e => simp [first, bind, Except.bind] at read
      | ok a' =>
          cases rest : (l.map g).mapM f with
          | error e => simp [first, rest, bind, Except.bind] at read
          | ok l'' =>
              simp only [first, rest, bind, Except.bind, pure, Except.pure, Except.ok.injEq] at read
              rw [← read, back a a' first, ih rest]

theorem mapM_option_eq {α β : Type*} {f : β → Option α} {g : α → β}
    (back : ∀ a a', f (g a) = some a' → a' = a) :
    ∀ {l l' : List α}, (l.map g).mapM f = some l' → l' = l := by
  intro l
  induction l with
  | nil =>
      intro l' read
      cases read
      rfl
  | cons a l ih =>
      intro l' read
      rw [List.map_cons, List.mapM_cons] at read
      obtain ⟨a', first, read⟩ := Option.bind_eq_some_iff.mp read
      obtain ⟨l'', rest, read⟩ := Option.bind_eq_some_iff.mp read
      cases read
      rw [back a a' first, ih rest]

/-- The body of an object is read back as it was written. -/
theorem readBody_toValue_eq {e : Element} {body : Body}
    (read : readBody e.toValue e.type = .ok body) : body = e.body := by
  have field : ∀ property ∈ e.body.properties, ∀ name, property.1 = text name →
      e.toValue.get name = some property.2 := by
    intro property member name same
    refine Element.get_toValue ?_
    rw [← same]
    simp [Element.properties, member]
  cases shape : e.body with
  | node lon lat =>
      have type : e.type = .plain .node := by rw [Element.type, shape]; rfl
      rw [shape] at field
      have lonFound : e.toValue.get "lon" = some (.number lon) :=
        field (text "lon", .number lon) (by simp [Body.properties]) _ rfl
      have latFound : e.toValue.get "lat" = some (.number lat) :=
        field (text "lat", .number lat) (by simp [Body.properties]) _ rfl
      rw [readBody, if_pos type, Value.finite, Value.finite, lonFound, latFound] at read
      simp only at read
      split_ifs at read
      cases read
      rfl
  | way nodes =>
      have type : e.type = .plain .way := by rw [Element.type, shape]; rfl
      rw [shape] at field
      have found : e.toValue.get "nodes" = some (.array (nodes.map .ofInt)) :=
        field (text "nodes", .array (nodes.map .ofInt)) (by simp [Body.properties]) _ rfl
      rw [readBody, if_neg (by rw [type]; decide), if_pos type, found] at read
      simp only at read
      split_ifs at read
      cases refs : (nodes.map Value.ofInt).mapM readRef with
      | none => simp [refs] at read
      | some nodes' =>
          simp only [refs] at read
          cases read
          rw [mapM_option_eq (fun _ _ => readRef_ofInt_eq) refs]
  | group type members =>
      have typeEq : e.type = type.typeName := by rw [Element.type, shape]; rfl
      rw [shape] at field
      have found : e.toValue.get "members" = some (.array (members.map Member.toValue)) :=
        field (text "members", .array (members.map Member.toValue))
          (by simp [Body.properties]) _ rfl
      rw [readBody, if_neg (by rw [typeEq]; cases type <;> simp [GroupType.typeName, TypeName.plain]),
        if_neg (by rw [typeEq]; cases type <;> simp [GroupType.typeName, TypeName.plain]),
        found] at read
      simp only at read
      split_ifs at read
      cases all : (members.map Member.toValue).mapM member with
      | error message => simp [all, Except.map] at read
      | ok members' =>
          simp only [all, Except.map, Except.ok.injEq] at read
          rw [← read, mapM_except_eq (fun _ _ => member_toValue_eq) all, typeEq]
          cases type <;> rfl

theorem element_toValue_body {e e' : Element} {create : Bool}
    (read : element e.toValue create = .ok e') : e'.body = e.body := by
  have typeFound : (e.toValue.get "type").bind TypeName.read = some e.type := by
    rw [@Element.get_toValue e _ e.type.toValue (by simp [Element.properties]),
      Option.bind_some, TypeName.read_toValue]
  rw [element, typeFound] at read
  split at read
  · next type id version typeRead identity =>
      cases typeRead
      split_ifs at read
      obtain ⟨tags, -, read⟩ := ok_of_bind read
      obtain ⟨body, bodyRead, read⟩ := ok_of_bind read
      cases read
      exact readBody_toValue_eq bodyRead
  · cases read

/-- An edit is read back with the same key and body. -/
theorem edit_toValue_body {base : Option Element} {value : Element} {center : Option (ℚ × ℚ)}
    {d : Draft} (read : validateDraft (Draft.edit base value center).toValue = .ok d) :
    ∃ base' value' center', d = .edit base' value' center' ∧ value'.key = value.key ∧
      value'.body = value.body := by
  obtain ⟨live, valueGet⟩ := edit_toValue_get base value center
  rw [validateDraft, if_neg (by simp [live]), valueGet] at read
  obtain ⟨base', -, read⟩ := ok_of_bind read
  obtain ⟨value', valueRead, read⟩ := ok_of_bind read
  obtain ⟨-, -, read⟩ := ok_of_bind read
  cases read
  exact ⟨base', value', _, rfl, element_toValue_key valueRead, element_toValue_body valueRead⟩

/-! ## The lists of drafts -/

theorem getElem?_mapM_except {α β ε : Type*} {f : α → Except ε β} :
    ∀ {l : List α} {l' : List β}, l.mapM f = .ok l' → ∀ {i : ℕ} {a : α}, l[i]? = some a →
      ∃ b, l'[i]? = some b ∧ f a = .ok b := by
  intro l
  induction l with
  | nil =>
      intro l' _ i a found
      cases found
  | cons first l ih =>
      intro l' read i a found
      rw [List.mapM_cons] at read
      cases one : f first with
      | error e => simp [one, bind, Except.bind] at read
      | ok b =>
          cases rest : l.mapM f with
          | error e => simp [one, rest, bind, Except.bind] at read
          | ok bs =>
              simp only [one, rest, bind, Except.bind, pure, Except.pure, Except.ok.injEq] at read
              subst read
              cases i with
              | zero =>
                  cases found
                  exact ⟨b, rfl, one⟩
              | succ i => exact ih rest found

theorem getElem?_upsert {drafts : List Draft} {d x : Draft} {i : ℕ} (found : drafts[i]? = some x)
    (different : x.key ≠ d.key) : (upsert drafts d)[i]? = some x := by
  rw [Editor.upsert.eq_def]
  split
  · next j first =>
      obtain ⟨y, atJ, same⟩ := key_of_findIdx? first
      have other : j ≠ i := by
        rintro rfl
        rw [found, Option.some.injEq] at atJ
        exact different (atJ ▸ same)
      rw [List.getElem?_set_ne other, found]
  · rw [List.getElem?_append_left (List.getElem?_eq_some_iff.mp found).1, found]

theorem mem_upsert_self (drafts : List Draft) (d : Draft) : d ∈ upsert drafts d := by
  rw [Editor.upsert.eq_def]
  split
  · next i first =>
      obtain ⟨y, atI, -⟩ := key_of_findIdx? first
      exact List.mem_set (List.getElem?_eq_some_iff.mp atI).1 d
  · exact List.mem_append_right _ (List.mem_singleton.mpr rfl)

/-! ## Relations -/

/-- A relation among the drafts is no way. -/
theorem key_of_relationMembers {d : Draft} {members : List Member}
    (relation : relationMembers d = some members) :
    d.key.1 = .relation ∧ ∀ id, isLiveWay id d = false := by
  cases d with
  | deletion base => cases relation
  | edit base value center =>
      simp only [relationMembers] at relation
      split at relation
      · next shape =>
          have type : value.type = .plain .relation := by
            rw [Element.type, shape]
            rfl
          refine ⟨?_, fun id => ?_⟩
          · rw [Draft.key, Draft.element, Element.key, type]
            rfl
          · rw [isLiveWay, type]
            rfl
      · cases relation

/-- A patched relation has the patched members, or those it had. -/
theorem patchRelation_members {patch : List Member → Option (List Member)} {d d' : Draft}
    {members : List Member} (patched : patchRelation patch d = .ok d')
    (relation : relationMembers d = some members) :
    d'.key = d.key ∧ relationMembers d' = some ((patch members).getD members) := by
  rw [patchRelation, relation, Option.bind_some] at patched
  cases new : patch members with
  | none =>
      simp only [new] at patched
      cases patched
      exact ⟨rfl, relation⟩
  | some members' =>
      simp only [new] at patched
      cases d with
      | deletion base => cases relation
      | edit base value center =>
          obtain ⟨base', value', center', rfl, key, body⟩ := edit_toValue_body patched
          simp only [relationMembers] at relation
          split at relation
          · next shape =>
              refine ⟨?_, ?_⟩
              · rw [Draft.key, Draft.key, Draft.element, Draft.element, key, Element.key,
                  Element.key, Element.type, Element.type, shape]
                rfl
              · rw [relationMembers, body, Option.getD_some]
          · cases relation

/-- A draft that is no relation is not patched. -/
theorem patchRelation_other {patch : List Member → Option (List Member)} {d : Draft}
    (other : relationMembers d = none) : patchRelation patch d = .ok d := by
  rw [patchRelation, other]
  rfl

/-- Whether a member is a way. -/
def isWay (id : ℤ) (m : Member) : Bool := m.type = .plain .way && m.ref = id

/-- The members with a new way after every occurrence of another one, in the same role. -/
def accompanied (id new : ℤ) (members : List Member) : List Member :=
  members.flatMap fun m => if isWay id m then [m, ⟨.plain .way, new, m.role⟩] else [m]

/-- The members with one way in the place of another one. -/
def repointed (id kept : ℤ) (members : List Member) : List Member :=
  members.map fun m => if isWay id m then { m with ref := kept } else m

theorem accompanied_of_none {id new : ℤ} {members : List Member}
    (none : ∀ m ∈ members, isWay id m = false) : accompanied id new members = members := by
  induction members with
  | nil => rfl
  | cons m members ih =>
      obtain ⟨first, rest⟩ := List.forall_mem_cons.mp none
      rw [accompanied, List.flatMap_cons, if_neg (by rw [first]; exact Bool.false_ne_true)]
      exact congrArg (m :: ·) (ih rest)

theorem length_accompanied (id new : ℤ) (members : List Member) :
    (accompanied id new members).length = members.length + members.countP (isWay id) := by
  induction members with
  | nil => rfl
  | cons m members ih =>
      rw [accompanied] at ih
      rw [accompanied, List.flatMap_cons, List.length_append, ih, List.length_cons,
        List.countP_cons]
      split_ifs
      · simp only [List.length_cons, List.length_nil]
        omega
      · simp only [List.length_cons, List.length_nil]
        omega

/-- A split patches the first occurrence. -/
theorem patchSplit_append {id new : ℤ} {front rest : List Member} {m : Member}
    (before : ∀ x ∈ front, isWay id x = false) (first : isWay id m = true) :
    patchSplit id new (front ++ m :: rest) =
      some (front ++ m :: ⟨.plain .way, new, m.role⟩ :: rest) := by
  have found : (front ++ m :: rest).findIdx? (isWay id) = some front.length := by
    rw [List.findIdx?_append, List.findIdx?_eq_none_iff.mpr before, List.findIdx?_cons, first]
    simp
  have cut : (front ++ m :: rest).take (front.length + 1) = front ++ [m] := by
    rw [List.take_append, List.take_of_length_le (Nat.le_succ _), Nat.add_sub_cancel_left]
    rfl
  have left : (front ++ m :: rest).drop (front.length + 1) = rest := by
    rw [List.drop_append, List.drop_eq_nil_of_le (Nat.le_succ _), Nat.add_sub_cancel_left]
    rfl
  have here : (front ++ m :: rest)[front.length]? = some m := by
    rw [List.getElem?_append_right (le_refl _), Nat.sub_self]
    rfl
  change ((front ++ m :: rest).findIdx? (isWay id)).map _ = _
  rw [found, Option.map_some, cut, left, here]
  simp

/-- **When a split accompanies every occurrence**: when there is at most one. -/
theorem patchSplit_iff {id new : ℤ} {members : List Member} :
    (patchSplit id new members).getD members = accompanied id new members ↔
      members.countP (isWay id) ≤ 1 := by
  by_cases contains : ∃ m, members.find? (isWay id) = some m
  · obtain ⟨m, found⟩ := contains
    obtain ⟨first, front, rest, rfl, before⟩ := List.find?_eq_some_iff_append.mp found
    have none : ∀ x ∈ front, isWay id x = false := by
      intro x member
      simpa using before x member
    have count : (front ++ m :: rest).countP (isWay id) = rest.countP (isWay id) + 1 := by
      rw [List.countP_append, List.countP_eq_zero.mpr fun x member => by simp [none x member],
        List.countP_cons_of_pos first, Nat.zero_add]
    rw [patchSplit_append none first, Option.getD_some]
    constructor
    · intro same
      have lengths := congrArg List.length same
      rw [length_accompanied, List.length_append, List.length_append, List.length_cons,
        List.length_cons, List.length_cons] at lengths
      omega
    · intro once
      have after : ∀ x ∈ rest, isWay id x = false := by
        intro x member
        have zero : rest.countP (isWay id) = 0 := by omega
        simpa using List.countP_eq_zero.mp zero x member
      have left : accompanied id new front = front := accompanied_of_none none
      have right : accompanied id new rest = rest := accompanied_of_none after
      rw [accompanied] at left right
      rw [accompanied, List.flatMap_append, left, List.flatMap_cons, if_pos first, right]
      rfl
  · have none : ∀ m ∈ members, isWay id m = false := by
      intro m member
      cases is : isWay id m with
      | false => rfl
      | true =>
          cases found : members.find? (isWay id) with
          | none => exact absurd is (List.find?_eq_none.mp found m member)
          | some x => exact absurd ⟨x, found⟩ contains
    have unpatched : patchSplit id new members = Option.none := by
      change (members.findIdx? (isWay id)).map _ = _
      rw [List.findIdx?_eq_none_iff.mpr none]
      rfl
    have count : members.countP (isWay id) = 0 :=
      List.countP_eq_zero.mpr fun m member => by simp [none m member]
    rw [unpatched, Option.getD_none, accompanied_of_none none, count]
    exact iff_of_true rfl (Nat.zero_le 1)

/-- A merge patches every occurrence. -/
theorem patchMerge_eq (id kept : ℤ) (members : List Member) :
    (patchMerge id kept members).getD members = repointed id kept members := by
  change (if members.any (isWay id) then some (repointed id kept members) else none).getD members =
    repointed id kept members
  split_ifs with any
  · rfl
  · have none : ∀ m ∈ members, isWay id m = false := by
      intro m member
      cases is : isWay id m with
      | false => rfl
      | true => exact absurd (List.any_eq_true.mpr ⟨m, member, is⟩) any
    rw [repointed, Option.getD_none]
    refine (List.map_id members).symm.trans (List.map_congr_left fun m member => ?_)
    rw [if_neg (by rw [none m member]; exact Bool.false_ne_true)]
    rfl

/-! ## What a split and a merge keep -/

/-- Two paths into which the nodes of a way are cut at a node. -/
structure Cut (nodes : List ℤ) (nodeId : ℤ) (first second : List ℤ) : Prop where
  ends : first.getLast? = some nodeId
  starts : second.head? = some nodeId
  joined : first ++ second.tail = nodes
  proper : 2 ≤ first.length ∧ 2 ≤ second.length

/-- A way among the drafts. -/
def HasWay (drafts : List Draft) (key : Key) (nodes : List ℤ) : Prop :=
  ∃ base value center, .edit base value center ∈ drafts ∧ value.key = key ∧
    value.body = .way nodes

/-- Every relation among the drafts stays in its place and gets other members. -/
def RelationsBecome (drafts stored : List Draft) (change : List Member → List Member) : Prop :=
  ∀ (i : ℕ) (d : Draft) (members : List Member), drafts[i]? = some d →
    relationMembers d = some members → ∃ d', stored[i]? = some d' ∧ d'.key = d.key ∧
      relationMembers d' = some (change members)

/-- The two ways of a split. -/
def SplitCuts (drafts stored : List Draft) (current : Current) (nodes : List ℤ) (nodeId : ℤ) :
    Prop :=
  ∃ first second, Cut nodes nodeId first second ∧ HasWay stored current.value.key first ∧
    HasWay stored (.way, nextTempId drafts .way) second

/-- **What a split keeps**: the nodes of the way, and its place in every relation. -/
structure SplitKeeps (drafts stored : List Draft) (current : Current) (nodes : List ℤ)
    (nodeId : ℤ) : Prop where
  ways : SplitCuts drafts stored current nodes nodeId
  relations : RelationsBecome drafts stored
    (accompanied current.value.id (nextTempId drafts .way))

/-- **What a merge keeps**: the segments of both ways, and their places in every relation. -/
structure MergeKeeps (drafts stored : List Draft) (current : Current) (id : ℤ)
    (server : Option Value) (nodes : List ℤ) : Prop where
  ways : ∃ other merged, otherWay drafts id server = .ok other ∧
    HasWay stored current.value.key merged ∧
    (segments merged).Perm (segments nodes ++ segments (wayNodes other))
  relations : RelationsBecome drafts stored (repointed id current.value.id)

theorem way_of_read {base : Option Element} {value : Element} {center : Option (ℚ × ℚ)}
    {nodes : List ℤ} {d : Draft} {drafts : List Draft}
    (read : validateDraft (Draft.edit base value center).toValue = .ok d) (listed : d ∈ drafts)
    (body : value.body = .way nodes) :
    HasWay drafts value.key nodes ∧ relationMembers d = none := by
  obtain ⟨base', value', center', rfl, key, body'⟩ := edit_toValue_body read
  refine ⟨⟨base', value', center', listed, key, body'.trans body⟩, ?_⟩
  rw [relationMembers, body', body]

/-- A draft that is no relation is still there after the relations were patched. -/
theorem mem_patchRelations {patch : List Member → Option (List Member)}
    {drafts stored : List Draft} (patched : patchRelations patch drafts = .ok stored) {d : Draft}
    (listed : d ∈ drafts) (other : relationMembers d = none) : d ∈ stored := by
  obtain ⟨i, inside, rfl⟩ := List.mem_iff_getElem.mp listed
  obtain ⟨d', found, same⟩ := getElem?_mapM_except patched (List.getElem?_eq_getElem inside)
  rw [patchRelation_other other] at same
  cases same
  exact List.mem_of_getElem? found

/-- The relations of a list that is patched. -/
theorem relationsBecome_iff {patch : List Member → Option (List Member)}
    {change : List Member → List Member} {drafts next stored : List Draft}
    (kept : ∀ (i : ℕ) (d : Draft) (members : List Member), drafts[i]? = some d →
      relationMembers d = some members → next[i]? = some d)
    (patched : patchRelations patch next = .ok stored) :
    RelationsBecome drafts stored change ↔
      ∀ d ∈ drafts, ∀ members, relationMembers d = some members →
        (patch members).getD members = change members := by
  constructor
  · intro become d listed members relation
    obtain ⟨i, inside, rfl⟩ := List.mem_iff_getElem.mp listed
    have found := List.getElem?_eq_getElem inside
    obtain ⟨d', atI, -, changed⟩ := become i _ members found relation
    obtain ⟨d'', atI', one⟩ := getElem?_mapM_except patched (kept i _ members found relation)
    rw [atI, Option.some.injEq] at atI'
    subst atI'
    have patch' := (patchRelation_members one relation).2
    rw [changed, Option.some.injEq] at patch'
    exact patch'.symm
  · intro agree i d members found relation
    obtain ⟨d', atI, one⟩ := getElem?_mapM_except patched (kept i d members found relation)
    obtain ⟨key, members'⟩ := patchRelation_members one relation
    rw [agree d (List.mem_of_getElem? found) members relation] at members'
    exact ⟨d', atI, key, members'⟩

/-- The parts of a split are the cut way. -/
theorem splitCuts {drafts stored : List Draft} {current : Current} {nodeId : ℤ}
    {nodes : List ℤ} {first second : Draft} (body : current.value.body = .way nodes)
    (steps : SplitSteps drafts stored current nodeId nodes first second) :
    SplitCuts drafts stored current nodes nodeId := by
  obtain ⟨positive, inner⟩ := steps.inner
  have inside : nodes.idxOf nodeId < nodes.length := by omega
  obtain ⟨joined, ends, starts⟩ := append_tail_eq inside
  rw [List.getElem_idxOf inside] at ends starts
  obtain ⟨value, elementRead, secondRead⟩ := steps.secondRead
  have secondBody : value.body = .way (nodes.drop (nodes.idxOf nodeId)) :=
    element_toValue_body elementRead
  have secondKey : value.key = (Kind.way, nextTempId drafts .way) := element_toValue_key elementRead
  have firstKey : Element.key { current.value with
      body := .way (nodes.take (nodes.idxOf nodeId + 1)) } = current.value.key := by
    rw [Element.key, Element.key, Element.type, Element.type, body]
    rfl
  refine ⟨nodes.take (nodes.idxOf nodeId + 1), nodes.drop (nodes.idxOf nodeId),
    ⟨ends, starts, joined, ?_, ?_⟩, ?_, ?_⟩
  · rw [List.length_take]
    omega
  · rw [List.length_drop]
    omega
  · rw [← firstKey]
    have listed := List.mem_append_left [second] (mem_upsert_self drafts first)
    have other := (way_of_read steps.firstRead listed rfl).2
    exact (way_of_read steps.firstRead (mem_patchRelations steps.patched listed other) rfl).1
  · rw [← secondKey]
    have listed : second ∈ upsert drafts first ++ [second] :=
      List.mem_append_right _ (List.mem_singleton.mpr rfl)
    have other := (way_of_read secondRead listed secondBody).2
    exact (way_of_read secondRead (mem_patchRelations steps.patched listed other) secondBody).1

/-- **When a split keeps the relations**: when none has the way more than once. -/
theorem splitKeeps_iff {drafts stored : List Draft} {current : Current} {nodeId : ℤ}
    {nodes : List ℤ} (body : current.value.body = .way nodes) (edited : current.base ≠ none)
    (done : performSplit drafts current nodeId = .ok stored) :
    SplitCuts drafts stored current nodes nodeId ∧
      (SplitKeeps drafts stored current nodes nodeId ↔
        ∀ d ∈ drafts, ∀ members, relationMembers d = some members →
          members.countP (isWay current.value.id) ≤ 1) := by
  obtain ⟨first, second, steps⟩ := performSplit_ok done body edited
  have ways := splitCuts body steps
  have secondId : second.element.id = nextTempId drafts .way :=
    congrArg Prod.snd steps.secondKey
  have kept : ∀ (i : ℕ) (d : Draft) (members : List Member), drafts[i]? = some d →
      relationMembers d = some members → (upsert drafts first ++ [second])[i]? = some d := by
    intro i d members found relation
    have different : d.key ≠ first.key := by
      intro same
      have kind := (key_of_relationMembers relation).1
      rw [same, steps.firstKey body, Element.key, Element.type, body] at kind
      cases kind
    have there := getElem?_upsert found different
    rw [List.getElem?_append_left (List.getElem?_eq_some_iff.mp there).1, there]
  have become : RelationsBecome drafts stored
      (accompanied current.value.id (nextTempId drafts .way)) ↔ _ :=
    relationsBecome_iff kept (secondId ▸ steps.patched)
  refine ⟨ways, fun keeps => ?_, fun once => ⟨ways, ?_⟩⟩
  · intro d listed members relation
    exact patchSplit_iff.mp (become.mp keeps.relations d listed members relation)
  · refine become.mpr fun d listed members relation => ?_
    exact patchSplit_iff.mpr (once d listed members relation)

/-- Two ways that are joined have the segments of both. -/
theorem segments_mergedNodes {a b merged : List ℤ} (joined : mergedNodes a b = some merged) :
    (segments merged).Perm (segments a ++ segments b) := by
  rw [mergedNodes] at joined
  split_ifs at joined with lastHead lastLast headLast headHead
  · cases joined
    rw [segments_append lastHead]
  · cases joined
    have turned : b.dropLast.reverse = b.reverse.tail := List.tail_reverse.symm
    have shared : a.getLast? = b.reverse.head? := by rw [List.head?_reverse, lastLast]
    rw [turned, segments_append shared]
    exact (segments_reverse b).append_left _
  · cases joined
    rw [segments_append headLast.symm]
    exact List.perm_append_comm
  · cases joined
    have shared : b.reverse.getLast? = a.head? := by rw [List.getLast?_reverse, headHead]
    rw [segments_append shared]
    exact ((segments_reverse b).append_right _).trans List.perm_append_comm

theorem mergeKeeps {drafts stored : List Draft} {current : Current} {id : ℤ}
    {server : Option Value} {nodes : List ℤ} (body : current.value.body = .way nodes)
    (starts : ¬ (current.base = none ∨ !validID id ∨ id = current.value.id))
    (done : mergeWith drafts current id server = .ok stored) :
    MergeKeeps drafts stored current id server nodes := by
  obtain ⟨other, merged, kept, removed, steps⟩ := mergeWith_ok done body starts
  have keptKey := steps.keptKey body
  have keptId : kept.element.id = current.value.id := congrArg Prod.snd keptKey
  have notLive : isLiveWay id kept = false := by
    cases live : isLiveWay id kept with
    | false => rfl
    | true =>
        have same := congrArg Prod.snd (isLiveWay_key live)
        exact absurd (same.symm.trans keptId) steps.different
  -- What is no live way with the ID keeps its place.
  have stays : ∀ {i : ℕ} {d : Draft}, (upsert drafts kept)[i]? = some d → isLiveWay id d = false →
      (mergeNext drafts id kept removed)[i]? = some d := by
    intro i d found dead
    rw [mergeNext]
    split
    · next j first =>
        obtain ⟨bound, live, -⟩ := List.findIdx?_eq_some_iff_getElem.mp first
        have apart : j ≠ i := by
          rintro rfl
          rw [List.getElem?_eq_getElem bound, Option.some.injEq] at found
          rw [found, dead] at live
          cases live
        rw [List.getElem?_set_ne apart, found]
    · rw [List.getElem?_append_left (List.getElem?_eq_some_iff.mp found).1, found]
  have place : ∀ (i : ℕ) (d : Draft) (members : List Member), drafts[i]? = some d →
      relationMembers d = some members → (mergeNext drafts id kept removed)[i]? = some d := by
    intro i d members found relation
    obtain ⟨kind, dead⟩ := key_of_relationMembers relation
    refine stays (getElem?_upsert found fun same => ?_) (dead id)
    rw [same, keptKey, Element.key, Element.type, body] at kind
    cases kind
  have valueKey : Element.key { current.value with
      body := .way merged, tags := unionTags other.tags current.value.tags } =
        current.value.key := by
    rw [Element.key, Element.key, Element.type, Element.type, body]
    rfl
  refine ⟨⟨other, merged, steps.otherRead, ?_, segments_mergedNodes steps.joined⟩, ?_⟩
  · obtain ⟨i, inside, atI⟩ := List.mem_iff_getElem.mp (mem_upsert_self drafts kept)
    have found : (upsert drafts kept)[i]? = some kept := by
      rw [List.getElem?_eq_getElem inside, atI]
    have listed := List.mem_of_getElem? (stays found notLive)
    have noRelation := (way_of_read steps.keptRead listed rfl).2
    rw [← valueKey]
    exact (way_of_read steps.keptRead (mem_patchRelations steps.patched listed noRelation) rfl).1
  · refine (relationsBecome_iff place (keptId ▸ steps.patched)).mpr ?_
    intro d _ members _
    exact patchMerge_eq id current.value.id members

/-- **Splitting and merging conserve ways and memberships**: a split always cuts the nodes at
the inner node, and it keeps the relations exactly if none of them has the way more than once;
a merge always keeps the segments of both ways and every membership. -/
theorem split_merge_conserve (drafts stored : List Draft) {current : Current} {nodes : List ℤ}
    (body : current.value.body = .way nodes) :
    (∀ nodeId : ℤ, current.base ≠ none → performSplit drafts current nodeId = .ok stored →
      SplitCuts drafts stored current nodes nodeId ∧
        (SplitKeeps drafts stored current nodes nodeId ↔
          ∀ d ∈ drafts, ∀ members, relationMembers d = some members →
            members.countP (isWay current.value.id) ≤ 1)) ∧
    (∀ (id : ℤ) (server : Option Value),
      ¬ (current.base = none ∨ !validID id ∨ id = current.value.id) →
      mergeWith drafts current id server = .ok stored →
        MergeKeeps drafts stored current id server nodes) := by
  constructor
  · intro nodeId edited done
    exact splitKeeps_iff body edited done
  · intro id server starts done
    exact mergeKeeps body starts done

/-! ### A route that uses a way twice -/

/-- A way with three nodes. -/
def street : Element := wayOf 1 [10, 11, 12]

/-- A route along the way, over another one and back. -/
def thereAndBack : Element where
  id := 5
  version := some 1
  tags := [(text "type", text "route")]
  body := .group .relation [⟨.plain .way, 1, text "forward"⟩, ⟨.plain .way, 2, []⟩,
    ⟨.plain .way, 1, text "backward"⟩]

/-- A route along the way. -/
def alongStreet : Element where
  id := 6
  version := some 1
  tags := [(text "type", text "route")]
  body := .group .relation [⟨.plain .way, 1, text "forward"⟩, ⟨.plain .way, 2, []⟩]

def editOf (e : Element) : Draft := .edit (some e) e none

/-- The drafts after a split of the way at its inner node. -/
def streetParts (relation : Element) (members : List Member) : List Draft :=
  [.edit (some relation) { relation with body := .group .relation members } none,
    .edit (some street) (wayOf 1 [10, 11]) none,
    .edit none { wayOf (-1) [11, 12] with version := none } none]

theorem performSplit_alongStreet :
    performSplit [editOf alongStreet] (loaded street) 11 = .ok (streetParts alongStreet
      [⟨.plain .way, 1, text "forward"⟩, ⟨.plain .way, -1, text "forward"⟩,
        ⟨.plain .way, 2, []⟩]) := by
  decide +kernel

theorem performSplit_thereAndBack :
    performSplit [editOf thereAndBack] (loaded street) 11 = .ok (streetParts thereAndBack
      [⟨.plain .way, 1, text "forward"⟩, ⟨.plain .way, -1, text "forward"⟩,
        ⟨.plain .way, 2, []⟩, ⟨.plain .way, 1, text "backward"⟩]) := by
  decide +kernel

/-- A split keeps a route that uses the way once, and a merge keeps two ways. -/
theorem split_merge_conserve_sample :
    (∃ stored, performSplit [editOf alongStreet] (loaded street) 11 = .ok stored ∧
      SplitKeeps [editOf alongStreet] stored (loaded street) [10, 11, 12] 11) ∧
    ∃ stored, mergeWith [] (loaded firstWay) 2 (some secondWay.toValue) = .ok stored ∧
      MergeKeeps [] stored (loaded firstWay) 2 (some secondWay.toValue) [10, 11] := by
  refine ⟨⟨_, performSplit_alongStreet, ?_⟩, ?_⟩
  · have cut : (loaded street).value.body = .way [10, 11, 12] := rfl
    refine ((split_merge_conserve _ _ cut).1 11 (by simp [loaded])
      performSplit_alongStreet).2.mpr ?_
    intro d listed members relation
    obtain rfl := List.mem_singleton.mp listed
    cases relation
    decide +kernel
  · cases done : mergeWith [] (loaded firstWay) 2 (some secondWay.toValue) with
    | error message =>
        exact absurd done (by
          have passes : (mergeWith [] (loaded firstWay) 2 (some secondWay.toValue)).isOk = true := by
            decide +kernel
          intro failed
          rw [failed] at passes
          cases passes)
    | ok stored =>
        have start : (loaded firstWay).value.body = .way [10, 11] := rfl
        exact ⟨stored, rfl, (split_merge_conserve _ _ start).2 2 _
          (by simp [loaded, firstWay, wayOf, validID]) done⟩

/-- The way back misses the new part. -/
theorem split_misses_occurrence :
    ∃ stored, performSplit [editOf thereAndBack] (loaded street) 11 = .ok stored ∧
      ¬ SplitKeeps [editOf thereAndBack] stored (loaded street) [10, 11, 12] 11 := by
  refine ⟨_, performSplit_thereAndBack, fun keeps => ?_⟩
  have body : (loaded street).value.body = .way [10, 11, 12] := rfl
  have once := (splitKeeps_iff body (by simp [loaded]) performSplit_thereAndBack).2.mp keeps
    (editOf thereAndBack) (List.mem_singleton.mpr rfl) _ rfl
  exact absurd once (by decide +kernel)

end OsmMini.Cmd.Editor

import Mathlib.Data.List.Cycle
import Mathlib.Data.List.Perm.Basic

/-!
# Following arcs around rounds

A round is a cycle of arcs, each of which ends where the next one begins. No two arcs begin at
the same node, whatever rounds they are of. An arc may be turned around: then it starts at its
end and stops at its beginning.

Whoever goes from arc to arc, always on to one that starts where the last one stops and never
over an arc twice, stays on the round of the first arc and does not turn (`prefix_of_linked`).
They come back to the start exactly when they have been all around, and so only if no arc of
the round is turned against the others (`around_of_closed`, `closed_of_fresh`).
-/

set_option autoImplicit false

namespace OsmMini.Foundations

variable {ι V : Type*}

/-- Arcs between nodes, some of which are turned around. -/
structure Turned (begins ends start stop : ι → V) (along : ι → Prop) (all : ι → Prop) : Prop where
  start_along : ∀ a, all a → along a → start a = begins a
  stop_along : ∀ a, all a → along a → stop a = ends a
  start_against : ∀ a, all a → ¬along a → start a = ends a
  stop_against : ∀ a, all a → ¬along a → stop a = begins a
  begins_inj : ∀ a, all a → ∀ b, all b → begins a = begins b → a = b
  ends_inj : ∀ a, all a → ∀ b, all b → ends a = ends b → a = b

/-- A cycle of arcs. -/
structure Round (begins ends : ι → V) (l : List ι) : Prop where
  nodup : l.Nodup
  chain : (l : Cycle ι).Chain fun a b => ends a = begins b

/-- A path all around a round, in the direction of its arcs. -/
def Around (along : ι → Prop) (l path : List ι) : Prop :=
  path.IsRotated l ∧ (∀ a ∈ l, along a) ∨ path.IsRotated l.reverse ∧ ∀ a ∈ l, ¬along a

variable {begins ends start stop : ι → V} {along all : ι → Prop} {l : List ι}

/-- The same arcs seen from the other side. -/
theorem Turned.flip (turned : Turned begins ends start stop along all) :
    Turned ends begins start stop (fun a => ¬along a) all where
  start_along := turned.start_against
  stop_along := turned.stop_against
  start_against a known along' := turned.start_along a known (not_not.mp along')
  stop_against a known along' := turned.stop_along a known (not_not.mp along')
  begins_inj := turned.ends_inj
  ends_inj := turned.begins_inj

theorem Round.rotated {l' : List ι} (round : Round begins ends l) (same : l.IsRotated l') :
    Round begins ends l' where
  nodup := same.nodup_iff.mp round.nodup
  chain := Cycle.coe_eq_coe.mpr same ▸ round.chain

/-- A round the other way around. -/
theorem Round.flip (round : Round begins ends l) : Round ends begins l.reverse where
  nodup := List.nodup_reverse.mpr round.nodup
  chain := by
    obtain ⟨-, chain⟩ := round
    cases l with
    | nil => exact Cycle.Chain.nil _
    | cons a l =>
        have rotated : (((a :: l).reverse : List ι) : Cycle ι) = (a :: l.reverse : List ι) := by
          rw [List.reverse_cons]
          exact (Cycle.coe_cons_eq_coe_append _ _).symm
        have back : a :: (l.reverse ++ [a]) = (a :: (l ++ [a])).reverse := by
          rw [List.reverse_cons, List.reverse_append]
          rfl
        rw [rotated, Cycle.chain_coe_cons, back, List.isChain_reverse]
        exact (Cycle.chain_coe_cons _ a l |>.mp chain).imp fun _ _ meet => meet.symm

/-- A round may begin with any of its arcs. -/
theorem rotated_of_mem {i : ι} (member : i ∈ l) : ∃ rest, l.IsRotated (i :: rest) := by
  obtain ⟨before, after, rfl⟩ := List.append_of_mem member
  exact ⟨after ++ before, List.isRotated_append⟩

/-- What comes after the beginning of a round: the next arc, or the first one again. -/
theorem Round.next {i x : ι} {rest path more : List ι} (round : Round begins ends (i :: rest))
    (whole : path ++ more = i :: rest) (last : path.getLast? = some x) :
    ends x = begins (more.headD i) := by
  have chain := (Cycle.chain_coe_cons _ i rest).mp round.chain
  rw [← List.cons_append, ← whole, List.append_assoc] at chain
  refine (List.isChain_append.mp chain).2.2 x last _ ?_
  cases more with
  | nil => rfl
  | cons y more => rfl

/-! ## Paths -/

/-- **A path stays on its round and does not turn.** -/
theorem prefix_of_linked (turned : Turned begins ends start stop along all) {i : ι} {rest : List ι}
    (round : Round begins ends (i :: rest)) (inside : ∀ a ∈ i :: rest, all a) (forward : along i)
    {ext : List ι} : (i :: ext).Nodup → (∀ a ∈ i :: ext, all a) →
    (i :: ext).IsChain (fun a b => stop a = start b) →
    (i :: ext) <+: (i :: rest) ∧ ∀ a ∈ i :: ext, along a := by
  induction ext using List.reverseRecOn with
  | nil =>
      intro _ _ _
      refine ⟨⟨rest, rfl⟩, fun a member => ?_⟩
      rw [List.mem_singleton.mp member]
      exact forward
  | append_singleton ext y ih =>
      intro distinct known linked
      rw [← List.cons_append] at distinct known linked ⊢
      obtain ⟨distinct, -, fresh⟩ := List.nodup_append.mp distinct
      obtain ⟨linked, -, next⟩ := List.isChain_append.mp linked
      obtain ⟨⟨more, whole⟩, forwards⟩ := ih distinct
        (fun a member => known a (List.mem_append_left _ member)) linked
      obtain ⟨x, last⟩ : ∃ x, (i :: ext).getLast? = some x :=
        ⟨_, List.getLast?_eq_some_getLast (List.cons_ne_nil i ext)⟩
      have passed : x ∈ i :: ext := List.mem_of_getLast? last
      have knownX := known x (List.mem_append_left _ passed)
      have knownY := known y (List.mem_append_right _ (List.mem_singleton_self y))
      have reached : start y = ends x :=
        (next x last y rfl).symm.trans (turned.stop_along x knownX (forwards x passed))
      have same : along y := by
        by_contra against
        -- An arc that is turned stops nowhere but at an arc that was passed.
        have repeated : y = x := turned.ends_inj y knownY x knownX
          ((turned.start_against y knownY against).symm.trans reached)
        exact fresh x passed y (List.mem_singleton_self y) repeated.symm
      have follows : begins y = begins (more.headD i) :=
        ((turned.start_along y knownY same).symm.trans reached).trans (round.next whole last)
      have ahead : y = more.headD i := by
        refine turned.begins_inj y knownY _ (inside _ ?_) follows
        rw [← whole]
        cases more with
        | nil => exact List.mem_append_left _ List.mem_cons_self
        | cons z more => exact List.mem_append_right _ List.mem_cons_self
      constructor
      · cases more with
        | nil => exact absurd ahead.symm (fresh i List.mem_cons_self y (List.mem_singleton_self y))
        | cons z more =>
            refine ⟨more, ?_⟩
            rw [← whole, ahead, List.append_assoc]
            rfl
      · intro a member
        rcases List.mem_append.mp member with earlier | here
        · exact forwards a earlier
        · rw [List.mem_singleton.mp here]
          exact same

/-- A path that is not all around is followed by an arc that it does not pass. -/
theorem whole_or_next {i x : ι} {rest path more : List ι} (round : Round begins ends (i :: rest))
    (whole : path ++ more = i :: rest) (last : path.getLast? = some x) :
    path = i :: rest ∧ ends x = begins i ∨
      ∃ z ∈ i :: rest, z ∉ path ∧ ends x = begins z := by
  have follows := round.next whole last
  cases more with
  | nil => exact .inl ⟨(List.append_nil path).symm.trans whole, follows⟩
  | cons z more =>
      have distinct := round.nodup
      rw [← whole] at distinct ⊢
      refine .inr ⟨z, List.mem_append_right _ List.mem_cons_self, fun passed => ?_, follows⟩
      exact (List.nodup_append.mp distinct).2.2 z passed z List.mem_cons_self rfl

section Paths

variable (turned : Turned begins ends start stop along all) {i x : ι} {ext : List ι}
  (distinct : (i :: ext).Nodup) (known : ∀ a ∈ i :: ext, all a)
  (linked : (i :: ext).IsChain fun a b => stop a = start b)
  (last : (i :: ext).getLast? = some x)
include turned distinct known linked last

theorem whole_of_closed {rest : List ι} (round : Round begins ends (i :: rest))
    (inside : ∀ a ∈ i :: rest, all a) (forward : along i) (closed : stop x = start i) :
    i :: ext = i :: rest ∧ ∀ a ∈ i :: rest, along a := by
  obtain ⟨⟨more, whole⟩, forwards⟩ :=
    prefix_of_linked turned round inside forward distinct known linked
  have passed : x ∈ i :: ext := List.mem_of_getLast? last
  rcases whole_or_next round whole last with ⟨all, -⟩ | ⟨z, member, missed, follows⟩
  · exact ⟨all, all ▸ forwards⟩
  · have back : begins z = begins i :=
      calc begins z = ends x := follows.symm
        _ = stop x := (turned.stop_along x (known x passed) (forwards x passed)).symm
        _ = start i := closed
        _ = begins i := turned.start_along i (known i List.mem_cons_self) forward
    rw [turned.begins_inj z (inside z member) i (known i List.mem_cons_self) back] at missed
    exact absurd List.mem_cons_self missed

theorem closed_of_stuck {rest : List ι} (round : Round begins ends (i :: rest))
    (inside : ∀ a ∈ i :: rest, all a) (forward : ∀ a ∈ i :: rest, along a)
    (stuck : ∀ y ∈ i :: rest, start y = stop x → y ∈ i :: ext) : stop x = start i := by
  have first := forward i List.mem_cons_self
  obtain ⟨⟨more, whole⟩, forwards⟩ :=
    prefix_of_linked turned round inside first distinct known linked
  have passed : x ∈ i :: ext := List.mem_of_getLast? last
  have stops := turned.stop_along x (known x passed) (forwards x passed)
  rcases whole_or_next round whole last with ⟨-, back⟩ | ⟨z, member, missed, follows⟩
  · exact (stops.trans back).trans (turned.start_along i (known i List.mem_cons_self) first).symm
  · refine absurd (stuck z member ?_) missed
    exact (turned.start_along z (inside z member) (forward z member)).trans
      (follows.symm.trans stops.symm)

/-- **A closed path is all around its round**, and no arc of it is turned against the others. -/
theorem around_of_closed (round : Round begins ends l) (inside : ∀ a ∈ l, all a) (member : i ∈ l)
    (closed : stop x = start i) : Around along l (i :: ext) := by
  by_cases forward : along i
  · obtain ⟨rest, rotated⟩ := rotated_of_mem member
    obtain ⟨whole, forwards⟩ := whole_of_closed turned distinct known linked last
      (round.rotated rotated) (fun a here => inside a (rotated.mem_iff.mpr here)) forward closed
    refine .inl ⟨?_, fun a here => forwards a (rotated.mem_iff.mp here)⟩
    rw [whole]
    exact rotated.symm
  · obtain ⟨rest, rotated⟩ := rotated_of_mem (List.mem_reverse.mpr member)
    have mem_iff : ∀ a, a ∈ i :: rest ↔ a ∈ l := fun a =>
      rotated.mem_iff.symm.trans List.mem_reverse
    obtain ⟨whole, backwards⟩ := whole_of_closed turned.flip distinct known linked last
      (round.flip.rotated rotated) (fun a here => inside a ((mem_iff a).mp here)) forward closed
    refine .inr ⟨?_, fun a here => backwards a ((mem_iff a).mpr here)⟩
    rw [whole]
    exact rotated.symm

/-- **A path that ends nowhere else is closed**, if no arc of its round is turned against the
others. -/
theorem closed_of_fresh (round : Round begins ends l) (inside : ∀ a ∈ l, all a) (member : i ∈ l)
    (same : (∀ a ∈ l, along a) ∨ ∀ a ∈ l, ¬along a)
    (stuck : ∀ y ∈ l, start y = stop x → y ∈ i :: ext) : stop x = start i := by
  rcases same with forwards | backwards
  · obtain ⟨rest, rotated⟩ := rotated_of_mem member
    have mem_iff : ∀ a, a ∈ i :: rest ↔ a ∈ l := fun a => rotated.mem_iff.symm
    exact closed_of_stuck turned distinct known linked last (round.rotated rotated)
      (fun a here => inside a ((mem_iff a).mp here))
      (fun a here => forwards a ((mem_iff a).mp here))
      (fun y here => stuck y ((mem_iff y).mp here))
  · obtain ⟨rest, rotated⟩ := rotated_of_mem (List.mem_reverse.mpr member)
    have mem_iff : ∀ a, a ∈ i :: rest ↔ a ∈ l := fun a =>
      rotated.mem_iff.symm.trans List.mem_reverse
    exact closed_of_stuck turned.flip distinct known linked last (round.flip.rotated rotated)
      (fun a here => inside a ((mem_iff a).mp here))
      (fun a here => backwards a ((mem_iff a).mp here))
      (fun y here => stuck y ((mem_iff y).mp here))

end Paths

end OsmMini.Foundations

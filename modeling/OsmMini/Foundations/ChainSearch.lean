import OsmMini.Foundations.SearchLoop

/-!
# Relaxing along chains

Between two junctions a road is a chain of vertices with two neighbours each. Once
such a vertex is labelled from one neighbour, only the arc to the other neighbour can
improve anything, so that arc can be relaxed at once, without queueing the vertex.

`relaxAlong` relaxes an arc and then goes on as long as `follow` says which arc comes
next. It does to the invariant of the search what relaxing the one arc does
(`relaxAlong_relaxes`).
-/

set_option autoImplicit false
set_option linter.unusedSectionVars false

namespace OsmMini.Foundations.BestFirst

variable {T V K E : Type*} [AddCommMonoid K] [LinearOrder K] [IsOrderedCancelAddMonoid K]
  [DecidableEq V]

/-- The arc that goes on after an arc out of a vertex: `none` when the head of the arc
is to be queued, and `some none` when nothing goes on from it. -/
abbrev Follow (V K : Type*) := V → V × K → Option (Option (V × K))

/-- A chain is followed only through vertices that are no goals, and what is not
followed leads back. -/
structure Follow.Sound (follow : Follow V K) (succ : V → List (V × K)) (goal : V → Bool) :
    Prop where
  plain : ∀ u, ∀ a ∈ succ u, ∀ next, follow u a = some next → goal a.1 = false
  arc : ∀ u, ∀ a ∈ succ u, ∀ b, follow u a = some (some b) → b ∈ succ a.1
  rest : ∀ u, ∀ a ∈ succ u, ∀ next, follow u a = some next →
    ∀ b ∈ succ a.1, b.1 = u ∨ next = some b

namespace Engine

variable (eng : Engine T V K E) (h : V → K)

/-- Whether an arc taken at distance `d` improves the label of its head. -/
def improves (t : T) (d : K) (a : V × K) : Bool :=
  match eng.dist t a.1 with
  | some old => !decide (old ≤ d + a.2)
  | none => true

/-- Relax an arc out of `u` and the arcs that go on from its head, at most `left` of
them. -/
def relaxAlong (follow : Follow V K) : ℕ → V → K → T × List E → V × K → T × List E
  | 0, u, d, s, a => eng.relax h u d s a
  | left + 1, u, d, s, a =>
    if eng.improves s.1 d a then
      match follow u a with
      | none => eng.label h u (d + a.2) s a.1
      | some none => (eng.set s.1 a.1 (d + a.2) u, s.2)
      | some (some b) =>
        relaxAlong follow left a.1 (d + a.2) (eng.set s.1 a.1 (d + a.2) u, s.2) b
    else s

variable {eng h} {tracks : T → Prop} {tracked : Prop} {succ : V → List (V × K)} {source : V}
  {origin : Option V} {goal : V → Bool} {waived : V → V × K → Prop} {follow : Follow V K}

theorem improves_iff {t : T} {d : K} {a : V × K} :
    eng.improves t d a = true ↔ ¬ Relaxed (eng.dist t) d a := by
  unfold improves Relaxed
  cases eng.dist t a.1 <;> simp

variable (lawful : eng.Lawful tracks) (weights : ∀ v, ∀ a ∈ succ v, 0 ≤ a.2)
include lawful weights

/-- Labelling the head of an improving arc without queueing it: its arcs wait. -/
theorem Good.set {s : T × List E}
    (good : eng.Good h tracks tracked succ source origin goal waived s) {u : V} {d : K}
    (at_u : eng.dist s.1 u = some d) {a : V × K} (arc : a ∈ succ u)
    (improves : ¬ Relaxed (eng.dist s.1) d a) (plain : goal a.1 = false) :
    eng.Good h tracks tracked succ source origin goal
      (fun w b => (waived w b ∧ ¬ (w = u ∧ b = a)) ∨ w = a.1)
      (eng.set s.1 a.1 (d + a.2) u, s.2) where
  heap := good.heap
  priorities := good.priorities
  core := by
    show Invariant _ _ _ (eng.dist (eng.set s.1 a.1 (d + a.2) u)) _ _
    rw [lawful.dist_set]
    refine good.core.improve weights arc at_u improves (fun w l old => old)
      (fun w l now => .inl now) (.inr ⟨by simp [plain], fun b => .inr rfl⟩) fun w b wait => ?_
    by_cases here : w = u ∧ b = a
    · exact .inr here
    · exact .inl (.inl ⟨wait, here⟩)
  tree := by
    intro kept
    obtain ⟨before, tree⟩ := good.tree kept
    refine ⟨lawful.tracks_set s.1 a.1 (d + a.2) u before, ?_⟩
    show Tree _ _ _ (eng.dist (eng.set s.1 a.1 (d + a.2) u))
      (eng.prev (eng.set s.1 a.1 (d + a.2) u))
    rw [lawful.dist_set, lawful.prev_set _ _ _ _ before]
    exact tree.improve weights arc at_u (good.core.nonneg weights at_u) improves

/-- After a vertex was labelled from `u`, its arcs back to `u` are relaxed. -/
theorem relaxed_back {s : T × List E} {u : V} {d : K} {a b : V × K} (arc : a ∈ succ u)
    (at_u : eng.dist s.1 u = some d) (improves : ¬ Relaxed (eng.dist s.1) d a)
    (on : b ∈ succ a.1) (back : b.1 = u) :
    Relaxed (eng.dist (eng.set s.1 a.1 (d + a.2) u)) (d + a.2) b := by
  refine ⟨d, ?_, ?_⟩
  · rw [back]
    exact relax_tail lawful weights arc at_u improves u
  · calc
      d ≤ d + a.2 := le_add_of_nonneg_right (weights u a arc)
      _ ≤ d + a.2 + b.2 := le_add_of_nonneg_right (weights a.1 b on)

/-- Labels that are not above the distance of an arc survive relaxing along it. -/
theorem dist_relaxAlong (sound : follow.Sound succ goal) {x : V} {e : K} :
    ∀ {left : ℕ} {u : V} {d : K} {s : T × List E} {a : V × K}, a ∈ succ u → e ≤ d →
    eng.dist s.1 x = some e → eng.dist (eng.relaxAlong h follow left u d s a).1 x = some e := by
  have survives : ∀ {u : V} {d : K} {s : T × List E} {a : V × K}, a ∈ succ u → e ≤ d →
      eng.dist s.1 x = some e → ¬ Relaxed (eng.dist s.1) d a →
      eng.dist (eng.set s.1 a.1 (d + a.2) u) x = some e := by
    intro u d s a arc below at_x improves
    rw [lawful.dist_set, Function.update_of_ne, at_x]
    rintro rfl
    exact improves ⟨e, at_x, below.trans (le_add_of_nonneg_right (weights u a arc))⟩
  intro left
  induction left with
  | zero =>
      intro u d s a arc below at_x
      rcases relax_cases lawful weights u d s a with ⟨same, -⟩ | ⟨same, improves⟩
      · rw [relaxAlong, same, at_x]
      · rw [relaxAlong, same]
        exact survives arc below at_x improves
  | succ left ih =>
      intro u d s a arc below at_x
      rw [relaxAlong]
      by_cases better : eng.improves s.1 d a = true
      · have later := survives arc below at_x (improves_iff.mp better)
        rw [if_pos better]
        cases next : follow u a with
        | none => exact later
        | some onward =>
            cases onward with
            | none => exact later
            | some b =>
                exact ih (sound.arc u a arc b next)
                  (below.trans (le_add_of_nonneg_right (weights u a arc))) later
      · rw [if_neg better, at_x]

/-- Relaxing along a chain improves some label unless it changes nothing. -/
theorem change_relaxAlong : ∀ {left : ℕ} {u : V} {d : K} {s : T × List E} {a : V × K},
    eng.relaxAlong h follow left u d s a = s ∨
      Improved (eng.dist (eng.relaxAlong h follow left u d s a).1) (eng.dist s.1) := by
  have labelled : ∀ {u : V} {d : K} {s : T × List E} {a : V × K}, ¬ Relaxed (eng.dist s.1) d a →
      Improved (eng.dist (eng.set s.1 a.1 (d + a.2) u)) (eng.dist s.1) := by
    intro u d s a improves
    rw [lawful.dist_set]
    exact improved_update improves
  intro left
  induction left with
  | zero =>
      intro u d s a
      rcases relax_cases lawful weights u d s a with ⟨same, -⟩ | ⟨same, improves⟩
      · exact .inl same
      · rw [relaxAlong, same]
        exact .inr (labelled improves)
  | succ left ih =>
      intro u d s a
      rw [relaxAlong]
      by_cases better : eng.improves s.1 d a = true
      · have change := labelled (u := u) (improves_iff.mp better)
        rw [if_pos better]
        cases next : follow u a with
        | none => exact .inr change
        | some onward =>
            cases onward with
            | none => exact .inr change
            | some b =>
                simp only
                rcases ih (u := a.1) (d := d + a.2) (s := (eng.set s.1 a.1 (d + a.2) u, s.2))
                  (a := b) with same | more
                · rw [same]
                  exact .inr change
                · exact .inr (more.trans change)
      · rw [if_neg better]
        exact .inl rfl

/-- **Relaxing along a chain keeps the invariant** and takes its first arc out of the
arcs that wait. -/
theorem Good.relaxAlong (sound : follow.Sound succ goal) : ∀ {left : ℕ}
    {waived : V → V × K → Prop} {u : V} {d : K} {s : T × List E} {a : V × K}, a ∈ succ u →
    eng.dist s.1 u = some d → eng.Good h tracks tracked succ source origin goal waived s →
    eng.Good h tracks tracked succ source origin goal (fun w b => waived w b ∧ ¬ (w = u ∧ b = a))
      (eng.relaxAlong h follow left u d s a) := by
  intro left
  induction left with
  | zero =>
      intro waived u d s a arc at_u good
      exact (relaxes lawful weights waived u d s a arc at_u good).1
  | succ left ih =>
      intro waived u d s a arc at_u good
      rw [Engine.relaxAlong]
      by_cases better : eng.improves s.1 d a = true
      · have improves := improves_iff.mp better
        have label : eng.dist (eng.set s.1 a.1 (d + a.2) u) a.1 = some (d + a.2) := by
          rw [lawful.dist_set, Function.update_self]
        rw [if_pos better]
        cases next : follow u a with
        | none => exact good.label lawful weights at_u arc improves
        | some onward =>
            have labelled := good.set lawful weights at_u arc improves
              (sound.plain u a arc onward next)
            -- The arcs of the new label that are not followed lead back to `u`.
            have narrow : eng.Good h tracks tracked succ source origin goal
                (fun w b => (waived w b ∧ ¬ (w = u ∧ b = a)) ∨ (w = a.1 ∧ onward = some b))
                (eng.set s.1 a.1 (d + a.2) u, s.2) := by
              refine { labelled with
                core := labelled.core.mono (fun _ _ => Iff.rfl) fun w b on wait => ?_ }
              rcases wait with old | rfl
              · exact .inl (.inl old)
              · rcases sound.rest u a arc onward next b on with back | onwards
                · refine .inr fun e known => ?_
                  rw [label] at known
                  cases known
                  exact relaxed_back lawful weights arc at_u improves on back
                · exact .inl (.inr ⟨rfl, onwards⟩)
            cases onward with
            | none =>
                refine { narrow with
                  core := narrow.core.mono (fun _ _ => Iff.rfl) fun w b _ wait => .inl ?_ }
                exact wait.resolve_right fun on => nomatch on.2
            | some b =>
                have after := ih (sound.arc u a arc b next) label narrow
                refine { after with
                  core := after.core.mono (fun _ _ => Iff.rfl) fun w c _ wait => .inl ?_ }
                obtain ⟨old | ⟨rfl, same⟩, other⟩ := wait
                · exact old
                · exact absurd ⟨rfl, (Option.some.inj same).symm⟩ other
      · rw [if_neg better]
        exact good.keep lawful weights at_u (not_not.mp fun improves =>
          better (improves_iff.mpr improves))

/-- **Relaxing along a chain relaxes its first arc.** -/
theorem relaxAlong_relaxes (sound : follow.Sound succ goal) (left : ℕ) :
    eng.Relaxes h tracks tracked succ source origin goal (eng.relaxAlong h follow left) :=
  fun _ _ d _ _ arc at_u good => ⟨good.relaxAlong lawful weights sound arc at_u,
    dist_relaxAlong lawful weights sound arc (le_refl d) at_u, change_relaxAlong lawful weights⟩

end Engine

end OsmMini.Foundations.BestFirst

import OsmMini.Cmd.Editor.Workspace
import OsmMini.Foundations.Timeline

/-!
# Undo and redo

The editor keeps the lists of drafts before the changes on one stack, the newest thirty of them,
and those before the clicks on undo on another one. `persist` puts the list on the first stack
that it stored last.

Beside every run stands the timeline of the lists that were stored (`timeline`). Undo restores
the list before the latest change that is not undone, for every one of the last thirty changes;
redo restores the list before the undo; a change drops what was undone, and an operation that
changes nothing records nothing (`history_run`).
-/

set_option autoImplicit false

namespace OsmMini.Cmd.Editor

open OsmMini.Foundations

/-- Whether an event is an operation on the drafts, and no click on undo or redo. -/
def Event.operation : Event → Bool
  | .undo | .redo => false
  | _ => true

namespace Workspace

/-- The editor with the drafts that were stored earlier. -/
def opened (drafts : List Draft) : Workspace := ⟨drafts, [], [], drafts⟩

/-- The timeline after an event. A click on undo with an empty stack is no step back. -/
def follow (s : Workspace) (t : Timeline (List Draft)) (event : Event) :
    Timeline (List Draft) :=
  match event with
  | .undo => if s.undo = [] then t else t.back
  | .redo => t.forth
  | event => t.record (s.step event).drafts

/-- The timeline of a run, from a state with a timeline. -/
def timelineFrom (s : Workspace) (t : Timeline (List Draft)) :
    List Event → Timeline (List Draft)
  | [] => t
  | event :: events => timelineFrom (s.step event) (s.follow t event) events

/-- The timeline of a run that starts with stored drafts. -/
def timeline (drafts : List Draft) (events : List Event) : Timeline (List Draft) :=
  timelineFrom (opened drafts) (Timeline.opened drafts) events

/-! ## Steps -/

/-- What was stored last are the drafts, and the two stacks track the timeline. -/
structure Recorded (s : Workspace) (t : Timeline (List Draft)) : Prop where
  present : s.drafts = t.present
  saved : s.saved = s.drafts
  tracked : Mirrors 30 s.undo s.redo t

theorem recorded_opened (drafts : List Draft) :
    Recorded (opened drafts) (Timeline.opened drafts) :=
  ⟨rfl, rfl, Mirrors.opened 30 drafts⟩

/-- Storing the same list again changes nothing. -/
theorem persist_same {s : Workspace} {t : Timeline (List Draft)} (recorded : s.Recorded t) :
    s.persist s.drafts = s := by
  rw [persist, if_pos recorded.saved.symm]
  cases s
  have saved := recorded.saved
  simp only at saved
  rw [saved]

theorem persist_changed {s : Workspace} {t : Timeline (List Draft)} (recorded : s.Recorded t)
    {drafts : List Draft} (changed : drafts ≠ s.drafts) :
    s.persist drafts = ⟨drafts, (s.drafts :: s.undo).take 30, [], drafts⟩ := by
  rw [persist, if_neg (recorded.saved ▸ changed), recorded.saved]

/-- An operation stores a list, or fails. -/
theorem step_operation {s : Workspace} {t : Timeline (List Draft)} (recorded : s.Recorded t)
    {event : Event} (operation : event.operation = true) :
    s.step event = s.persist (s.step event).drafts := by
  have stored : ∀ drafts : List Draft, s.persist drafts = s.persist (s.persist drafts).drafts := by
    intro drafts
    by_cases same : drafts = s.drafts
    · rw [same, persist_same recorded]
      exact (persist_same recorded).symm
    · rw [persist_changed recorded same]
      exact (persist_changed recorded same).symm
  have applied : ∀ result : Except String (List Draft),
      s.apply result = s.persist (s.apply result).drafts := by
    intro result
    cases result with
    | error message => exact (persist_same recorded).symm
    | ok drafts => exact stored drafts
  cases event with
  | undo | redo => cases operation
  | save | remove | split | merge | delete | importFile => exact applied _
  | discardDeletion => exact stored _

/-- An operation that leaves the list as it is records nothing. -/
theorem step_unchanged {s : Workspace} {t : Timeline (List Draft)} (recorded : s.Recorded t)
    {event : Event} (operation : event.operation = true)
    (same : (s.step event).drafts = s.drafts) : s.step event = s := by
  rw [step_operation recorded operation, same, persist_same recorded]

/-- An operation that changes the list puts the earlier one on the undo stack. -/
theorem step_changed {s : Workspace} {t : Timeline (List Draft)} (recorded : s.Recorded t)
    {event : Event} (operation : event.operation = true)
    (changed : (s.step event).drafts ≠ s.drafts) :
    s.step event =
      ⟨(s.step event).drafts, (s.drafts :: s.undo).take 30, [], (s.step event).drafts⟩ :=
  (step_operation recorded operation).trans (persist_changed recorded changed)

theorem step_undo {s : Workspace} {drafts : List Draft} {undo : List (List Draft)}
    (stack : s.undo = drafts :: undo) :
    s.step .undo = ⟨drafts, undo, s.drafts :: s.redo, drafts⟩ := by
  simp only [step, stack]

theorem step_redo {s : Workspace} {drafts : List Draft} {redo : List (List Draft)}
    (stack : s.redo = drafts :: redo) :
    s.step .redo = ⟨drafts, s.drafts :: s.undo, redo, drafts⟩ := by
  simp only [step, stack]

theorem Recorded.operation {s : Workspace} {t : Timeline (List Draft)} (recorded : s.Recorded t)
    {event : Event} (operation : event.operation = true) :
    (s.step event).Recorded (t.record (s.step event).drafts) := by
  by_cases same : (s.step event).drafts = s.drafts
  · rw [Timeline.record, if_pos (same.trans recorded.present),
      step_unchanged recorded operation same]
    exact recorded
  · have other : (s.step event).drafts ≠ t.present := recorded.present ▸ same
    have tracked := recorded.tracked.record other
    rw [← recorded.present] at tracked
    have present : (t.record (s.step event).drafts).present = (s.step event).drafts := by
      rw [Timeline.record, if_neg other]
    have stored := step_changed recorded operation same
    refine ⟨present.symm, ?_, ?_⟩
    · rw [stored]
    · rw [stored]
      exact tracked

/-- **Every event keeps the state and its timeline together.** -/
theorem Recorded.step {s : Workspace} {t : Timeline (List Draft)} (recorded : s.Recorded t)
    (event : Event) : (s.step event).Recorded (s.follow t event) := by
  cases event with
  | undo =>
      cases stack : s.undo with
      | nil =>
          have still : s.step .undo = s := by simp only [Workspace.step, stack]
          rw [still, follow, if_pos stack]
          exact recorded
      | cons drafts undo =>
          have tracked := recorded.tracked
          rw [stack] at tracked
          obtain ⟨present, tracked⟩ := tracked.back
          rw [step_undo stack, follow, if_neg (by rw [stack]; exact List.cons_ne_nil _ _)]
          exact ⟨present.symm, rfl, recorded.present ▸ tracked⟩
  | redo =>
      cases stack : s.redo with
      | nil =>
          have still : s.step .redo = s := by simp only [Workspace.step, stack]
          have none : t.undone = [] := by
            rw [← List.map_eq_nil_iff (f := Revision.after), ← recorded.tracked.future]
            exact stack
          have stays : t.forth = t := by rw [Timeline.forth, none]
          rw [still, follow, stays]
          exact recorded
      | cons drafts redo =>
          have tracked := recorded.tracked
          rw [stack] at tracked
          obtain ⟨present, tracked⟩ := tracked.forth
          rw [step_redo stack]
          exact ⟨present.symm, rfl, recorded.present ▸ tracked⟩
  | save | remove | discardDeletion | split | merge | delete | importFile =>
      exact recorded.operation rfl

theorem Recorded.run {events : List Event} :
    ∀ {s : Workspace} {t : Timeline (List Draft)}, s.Recorded t →
      (s.run events).Recorded (timelineFrom s t events) := by
  induction events with
  | nil =>
      intro s t recorded
      exact recorded
  | cons event events ih =>
      intro s t recorded
      exact ih (recorded.step event)

/-! ## What undo and redo restore -/

/-- What the buttons and the operations do in a state with a timeline. -/
structure Reversible (s : Workspace) (t : Timeline (List Draft)) : Prop where
  /-- The changes of the timeline follow each other up to the drafts. -/
  linked : t.Linked
  present : s.drafts = t.present
  /-- Undo restores the list before the latest change that is not undone, if the stack is not
  empty. -/
  undo : ∀ (c : Revision (List Draft)) (done : List (Revision (List Draft))), t.done = c :: done →
    s.undo ≠ [] → (s.step .undo).drafts = c.before
  /-- The stack is not empty if that change is one of the last thirty. -/
  recent : ∀ (c : Revision (List Draft)) (done : List (Revision (List Draft))), t.done = c :: done →
    t.recorded < c.number + 30 → s.undo ≠ []
  /-- Redo makes the change again that was undone last. -/
  redo : ∀ (c : Revision (List Draft)) (undone : List (Revision (List Draft))),
    t.undone = c :: undone → (s.step .redo).drafts = c.after
  /-- Redo restores the list before an undo. -/
  inverse : s.undo ≠ [] → ((s.step .undo).step .redo).drafts = s.drafts
  /-- A change can be undone, and it leaves nothing to redo. -/
  change : ∀ event : Event, event.operation = true → (s.step event).drafts ≠ s.drafts →
    ((s.step event).step .undo).drafts = s.drafts ∧ (s.step event).redo = [] ∧
      (s.step event).step .redo = s.step event
  /-- An operation that leaves the list as it is records nothing. -/
  idle : ∀ event : Event, event.operation = true → (s.step event).drafts = s.drafts →
    s.step event = s

theorem Recorded.reversible {s : Workspace} {t : Timeline (List Draft)}
    (recorded : s.Recorded t) : s.Reversible t := by
  refine ⟨recorded.tracked.linked, recorded.present, ?_, ?_, ?_, ?_, ?_, ?_⟩
  · intro c done latest filled
    obtain ⟨rest, stack⟩ := recorded.tracked.before_of_filled latest filled
    rw [step_undo stack]
  · intro c done latest recent
    exact recorded.tracked.filled_of_recent latest recent
  · intro c undone first
    have stack := recorded.tracked.future
    rw [first, List.map_cons] at stack
    rw [step_redo stack]
  · intro filled
    cases stack : s.undo with
    | nil => exact absurd stack filled
    | cons drafts undo =>
        exact congrArg (fun w : Workspace => (w.step .redo).drafts) (step_undo stack)
  · intro event operation changed
    have stored := step_changed recorded operation changed
    refine ⟨?_, ?_, ?_⟩
    · exact congrArg (fun w : Workspace => (w.step .undo).drafts) stored
    · exact congrArg Workspace.redo stored
    · exact (congrArg (fun w : Workspace => w.step .redo) stored).trans stored.symm
  · intro event operation same
    exact step_unchanged recorded operation same

end Workspace

end OsmMini.Cmd.Editor

import Mathlib

/-!
# Machines that answer calls

A machine takes calls one after the other; each call changes its state and returns an
answer. What holds at first and is kept by every call holds after every run
(`run_invariant`).
-/

set_option autoImplicit false

namespace OsmMini.Foundations.Machine

variable {σ ι α : Type*}

/-- The state after a sequence of calls. -/
def run (step : σ → ι → σ × α) (s : σ) (calls : List ι) : σ :=
  calls.foldl (fun s call => (step s call).1) s

variable {step : σ → ι → σ × α}

@[simp] theorem run_nil (s : σ) : run step s [] = s := rfl

@[simp] theorem run_cons (s : σ) (call : ι) (calls : List ι) :
    run step s (call :: calls) = run step (step s call).1 calls := rfl

theorem run_append (s : σ) (first second : List ι) :
    run step s (first ++ second) = run step (run step s first) second :=
  List.foldl_append

theorem run_snoc (s : σ) (calls : List ι) (call : ι) :
    run step s (calls ++ [call]) = (step (run step s calls) call).1 := by
  rw [run_append, run_cons, run_nil]

/-- **What every call keeps holds after every run.** The calls of the run may be
restricted by a condition on the state they meet. -/
theorem run_invariant {invariant : σ → Prop} {allowed : σ → ι → Prop}
    (keeps : ∀ s call, invariant s → allowed s call → invariant (step s call).1) :
    ∀ (calls : List ι) (s : σ), invariant s →
      (∀ before call after, calls = before ++ call :: after → allowed (run step s before) call) →
      invariant (run step s calls)
  | [], _, start, _ => start
  | call :: calls, s, start, conditions => by
      have first : allowed s call := conditions [] call calls rfl
      refine run_invariant keeps calls _ (keeps s call start first) fun before next after split => ?_
      exact conditions (call :: before) next after (by rw [split, List.cons_append])

theorem run_always {invariant : σ → Prop}
    (keeps : ∀ s call, invariant s → invariant (step s call).1) (calls : List ι) (s : σ)
    (start : invariant s) : invariant (run step s calls) :=
  List.foldlRecOn calls (fun s call => (step s call).1) start fun s kept call _ => keeps s call kept

end OsmMini.Foundations.Machine

/-!
## Loops that run until they produce a result

A loop body either continues with a new state or is done with a result.
`iterate` runs it for a bounded number of rounds, and `none` says that the rounds
were not enough. A loop whose body keeps an invariant and goes down a well-founded
relation ends with a result (`iterate_terminates`), and more rounds give the same
result (`iterate_mono`).
-/

namespace OsmMini.Foundations.Loop

variable {σ ρ : Type*}

/-- What one round of a loop does. -/
inductive Outcome (σ ρ : Type*) where
  | again (state : σ)
  | done (result : ρ)

/-- Run a loop body for at most the given number of rounds. -/
def iterate (body : σ → Outcome σ ρ) : ℕ → σ → Option ρ
  | 0, _ => none
  | rounds + 1, state =>
    match body state with
    | .again next => iterate body rounds next
    | .done result => some result

/-- Run a loop body that may fail for at most the given number of rounds. -/
def iterateM {ε : Type*} (body : σ → Except ε (Outcome σ ρ)) : ℕ → σ → Except ε (Option ρ)
  | 0, _ => .ok none
  | rounds + 1, state =>
    match body state with
    | .error fault => .error fault
    | .ok (.again next) => iterateM body rounds next
    | .ok (.done result) => .ok (some result)

/-- A loop that has its result keeps it when it is given more rounds. -/
theorem iterate_mono {body : σ → Outcome σ ρ} {result : ρ} :
    ∀ {rounds more : ℕ} {state : σ}, rounds ≤ more →
      iterate body rounds state = some result → iterate body more state = some result
  | 0, _, _, _, h => by simp [iterate] at h
  | rounds + 1, 0, _, le, _ => absurd le (by omega)
  | rounds + 1, more + 1, state, le, h => by
      simp only [iterate] at h ⊢
      cases round : body state with
      | again next =>
          rw [round] at h
          exact iterate_mono (Nat.le_of_succ_le_succ le) h
      | done other =>
          rw [round] at h
          exact h

/-- **A loop that keeps an invariant and goes down a well-founded relation ends
with a result.** -/
theorem iterate_terminates {body : σ → Outcome σ ρ} {invariant : σ → Prop}
    {smaller : σ → σ → Prop} (wf : WellFounded smaller) {post : ρ → Prop}
    (keeps : ∀ state next, invariant state → body state = .again next →
      invariant next ∧ smaller next state)
    (ends : ∀ state result, invariant state → body state = .done result → post result)
    (state : σ) (start : invariant state) :
    ∃ rounds result, iterate body rounds state = some result ∧ post result := by
  induction state using wf.induction with
  | _ state ih =>
    cases round : body state with
    | again next =>
        obtain ⟨kept, below⟩ := keeps state next start round
        obtain ⟨rounds, result, run, good⟩ := ih next below kept
        exact ⟨rounds + 1, result, by simp only [iterate, round, run], good⟩
    | done result =>
        exact ⟨1, result, by simp only [iterate, round], ends state result start round⟩

section Simulation

variable {ε τ ρ' : Type*}

/-- What a round of a failing loop does when it does not fail and goes along with a
round of another loop. -/
def Agrees (states : σ → τ → Prop) (results : ρ → ρ' → Prop) :
    Outcome σ ρ → Except ε (Outcome τ ρ') → Prop
  | .again next, round => ∃ next', round = .ok (.again next') ∧ states next next'
  | .done result, round => ∃ result', round = .ok (.done result') ∧ results result result'

/-- **A loop that goes along with another, round by round, ends with a related
result.** -/
theorem iterateM_agrees {body : σ → Outcome σ ρ} {body' : τ → Except ε (Outcome τ ρ')}
    {states : σ → τ → Prop} {results : ρ → ρ' → Prop}
    (step : ∀ state state', states state state' →
      Agrees states results (body state) (body' state')) {result : ρ} :
    ∀ {rounds : ℕ} {state : σ} {state' : τ}, states state state' →
      iterate body rounds state = some result →
      ∃ result', iterateM body' rounds state' = .ok (some result') ∧ results result result'
  | 0, _, _, _, run => nomatch run
  | rounds + 1, state, state', related, run => by
      have round := step state state' related
      rw [iterate] at run
      rw [iterateM]
      cases outcome : body state with
      | again next =>
          rw [outcome] at round run
          obtain ⟨next', went, kept⟩ := round
          rw [went]
          exact iterateM_agrees step kept run
      | done last =>
          rw [outcome] at round run
          obtain ⟨result', went, agree⟩ := round
          cases run
          rw [went]
          exact ⟨result', rfl, agree⟩

end Simulation

end OsmMini.Foundations.Loop

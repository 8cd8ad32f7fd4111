import Mathlib.Logic.Relation

namespace OsProjects.Transition

/-- A system moved by labelled steps. A label without a successor is blocked in that state. -/
structure System (State Label : Type*) where
  initial : State
  step : State → Label → Option State

namespace System

variable {State Label : Type*} (S : System State Label) {allowed : State → Label → Prop} {state : State}

/-- The states of the runs whose every step is allowed in the state it starts from. -/
inductive ReachedBy (allowed : State → Label → Prop) : State → Prop
  | initial : ReachedBy allowed S.initial
  | next {before after : State} {label : Label} (previous : ReachedBy allowed before)
      (permitted : allowed before label) (action : S.step before label = some after) :
      ReachedBy allowed after

def Reachable : State → Prop := S.ReachedBy fun _ _ => True

def CanStep (state : State) (label : Label) : Prop := ∃ after, S.step state label = some after

def run : State → List Label → Option State
  | state, [] => some state
  | state, label :: rest => (S.step state label).bind fun after => run after rest

def runBy (allowed : State → Label → Prop) [∀ state label, Decidable (allowed state label)] :
    State → List Label → Option State
  | state, [] => some state
  | state, label :: rest =>
    if allowed state label then (S.step state label).bind fun after => runBy allowed after rest else none

variable {S}

theorem ReachedBy.mono {wider : State → Label → Prop}
    (reached : S.ReachedBy allowed state) (weaker : ∀ state label, allowed state label → wider state label) :
    S.ReachedBy wider state := by
  induction reached with
  | initial => exact .initial
  | next _ permitted action ih => exact .next ih (weaker _ _ permitted) action

theorem ReachedBy.reachable (reached : S.ReachedBy allowed state) : S.Reachable state :=
  reached.mono fun _ _ _ => trivial

theorem Reachable.reachedBy (reachable : S.Reachable state)
    (always : ∀ state label, S.Reachable state → allowed state label) : S.ReachedBy allowed state := by
  induction reachable with
  | initial => exact .initial
  | next previous _ action ih => exact .next ih (always _ _ previous) action

theorem ReachedBy.invariant (inv : State → Prop) (base : inv S.initial)
    (preserved : ∀ before label after, S.ReachedBy allowed before → inv before →
      allowed before label → S.step before label = some after → inv after)
    (reached : S.ReachedBy allowed state) : inv state := by
  induction reached with
  | initial => exact base
  | next previous permitted action ih => exact preserved _ _ _ previous ih permitted action

theorem Reachable.invariant (inv : State → Prop) (base : inv S.initial)
    (preserved : ∀ before label after, S.Reachable before → inv before →
      S.step before label = some after → inv after)
    (reachable : S.Reachable state) : inv state :=
  ReachedBy.invariant inv base (fun before label after reached held _ action =>
    preserved before label after reached held action) reachable

theorem ReachedBy.runBy [∀ state label, Decidable (allowed state label)]
    {before after : State} {labels : List Label} (reached : S.ReachedBy allowed before)
    (result : S.runBy allowed before labels = some after) : S.ReachedBy allowed after := by
  induction labels generalizing before with
  | nil =>
    cases result
    exact reached
  | cons label rest ih =>
    simp only [System.runBy] at result
    split at result
    · obtain ⟨middle, action, remaining⟩ := Option.bind_eq_some_iff.mp result
      exact ih (.next reached ‹_› action) remaining
    · cases result

theorem Reachable.run {before after : State} {labels : List Label}
    (reachable : S.Reachable before) (result : S.run before labels = some after) :
    S.Reachable after := by
  induction labels generalizing before with
  | nil =>
    cases result
    exact reachable
  | cons label rest ih =>
    obtain ⟨middle, action, remaining⟩ := Option.bind_eq_some_iff.mp result
    exact ih (.next reachable trivial action) remaining

theorem run_append (state : State) (labels more : List Label) :
    S.run state (labels ++ more) = (S.run state labels).bind fun after => S.run after more := by
  induction labels generalizing state with
  | nil => rfl
  | cons label rest ih => simp only [List.cons_append, run, ih, Option.bind_assoc]

theorem run_until (inv goal : State → Prop) (rank : State → Nat) (label : Label)
    (progress : ∀ state, inv state → ¬ goal state →
      ∃ after, S.step state label = some after ∧ inv after ∧ rank after < rank state)
    (held : inv state) :
    ∃ count after, S.run state (List.replicate count label) = some after ∧ inv after ∧ goal after := by
  induction bound : rank state using Nat.strongRecOn generalizing state with
  | ind bound ih =>
    by_cases done : goal state
    · exact ⟨0, state, rfl, held, done⟩
    · obtain ⟨next, action, kept, lower⟩ := progress state held done
      obtain ⟨count, after, rest, finish⟩ := ih (rank next) (bound ▸ lower) kept rfl
      refine ⟨count + 1, after, ?_, finish⟩
      simpa [List.replicate_succ, run, action] using rest

end System

end OsProjects.Transition

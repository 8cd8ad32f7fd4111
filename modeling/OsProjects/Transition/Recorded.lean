import OsProjects.Transition.System

namespace OsProjects.Transition.System

variable {State Label Record : Type*} {S : System State Label} {label : Label} {allowed : State → Label → Prop}
  {x : State × Record} {state : State}

/-- The system together with a record of its run: every step adds to the record and none reads it. -/
def recorded (S : System State Label) (start : Record) (note : State → Label → Record → Record) :
    System (State × Record) Label where
  initial := (S.initial, start)
  step := fun (state, record) label => (S.step state label).map fun after => (after, note state label record)

variable {start : Record} {note : State → Label → Record → Record}

theorem recorded_step {before after : State × Record}
    (action : (S.recorded start note).step before label = some after) :
    S.step before.1 label = some after.1 ∧ after.2 = note before.1 label before.2 := by
  obtain ⟨next, moved, rfl⟩ := Option.map_eq_some_iff.mp action
  exact ⟨moved, rfl⟩

theorem recorded_step_of {before after : State} (action : S.step before label = some after)
    (record : Record) : (S.recorded start note).step (before, record) label = some (after, note before label record) :=
  Option.map_eq_some_iff.mpr ⟨after, action, rfl⟩

theorem ReachedBy.forget
    (reached : (S.recorded start note).ReachedBy (fun x label => allowed x.1 label) x) : S.ReachedBy allowed x.1 := by
  induction reached with
  | initial => exact .initial
  | next _ permitted action ih => exact .next ih permitted (recorded_step action).1

theorem ReachedBy.record (reached : S.ReachedBy allowed state)
    (start : Record) (note : State → Label → Record → Record) :
    ∃ record, (S.recorded start note).ReachedBy (fun x label => allowed x.1 label) (state, record) := by
  induction reached with
  | initial => exact ⟨start, .initial⟩
  | next _ permitted action ih =>
    obtain ⟨record, reached⟩ := ih
    exact ⟨_, .next reached permitted (recorded_step_of action record)⟩

theorem Reachable.forget (reachable : (S.recorded start note).Reachable x) : S.Reachable x.1 :=
  ReachedBy.forget reachable

theorem Reachable.record (reachable : S.Reachable state) (start : Record)
    (note : State → Label → Record → Record) : ∃ record, (S.recorded start note).Reachable (state, record) :=
  ReachedBy.record reachable start note

end OsProjects.Transition.System

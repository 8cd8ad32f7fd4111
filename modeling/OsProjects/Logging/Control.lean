import OsProjects.Logging.Moves
import OsProjects.Transition.Count

namespace OsProjects.Logging
open Transition

variable {Thread : Type} [Fintype Thread] {s after : State Thread} {t : Thread} {c : Option Thread} {b : BufNo}
  {pc : Pc}

/-- At most one thread commits or recovers, `c`, and no operation is under way then. -/
structure Control (c : Option Thread) (s : State Thread) : Prop where
  elsewhere : ∀ t, c ≠ some t → (s.pc t).stage = .outside
  here : ∀ t, c = some t → (s.pc t).stage ≠ .outside ∧
    s.booted = !(s.pc t).stage.recovering ∧ s.committing = !(s.pc t).stage.recovering
  rest : c = none → s.booted = true ∧ s.committing = false
  ops : s.outstanding = weigh Pc.ops s.pc
  quiet : c ≠ none → s.outstanding = 0
  asleep : s.booted = false → ∀ t, c ≠ some t → s.pc t = .idle

theorem Use.ops_of_modified {use : Use} (modified : b ∈ use.modified) : use.ops = 1 := by
  cases use <;> first | rfl | simp [Use.modified] at modified

theorem Pc.ops_of_modified (modified : b ∈ pc.modified) : pc.ops = 1 := by
  induction pc with
  | bget _ use | acquiresleep _ _ use | bread _ _ use => exact Use.ops_of_modified modified
  | brelse _ next ih | brelseRef _ next ih => exact ih modified
  | op => rfl
  | _ => simp [Pc.modified] at modified

@[simp]
theorem resume_stage (lh : List BlockNo) (b : BufNo) (use : Use) : (resume lh b use).stage = use.stage := by
  cases use <;> rfl

@[simp]
theorem resume_ops (lh : List BlockNo) (b : BufNo) (use : Use) : (resume lh b use).ops = use.ops := by
  cases use <;> rfl

@[simp]
theorem resume_modified (lh : List BlockNo) (b : BufNo) (use : Use) : (resume lh b use).modified = use.modified := by
  cases use <;> rfl

def State.stage (c : Option Thread) (s : State Thread) : Stage := (c.map fun t => (s.pc t).stage).getD .outside

omit [Fintype Thread] in
theorem State.stage_move [DecidableEq Thread] (pcs : after.pc = Function.update s.pc t pc)
    (same : pc.stage = (s.pc t).stage) : after.stage c = s.stage c := by
  cases c with
  | none => rfl
  | some t' =>
    by_cases here : t' = t
    · subst here
      simpa [State.stage, pcs] using same
    · simp [State.stage, pcs, here]

namespace Control

theorem committer (control : Control c s) (stage : (s.pc t).stage ≠ .outside) : c = some t := by
  by_contra other
  exact stage (control.elsewhere t other)

theorem idle_of_committer (control : Control c s) (busy : c ≠ none) (t : Thread) : (s.pc t).ops = 0 := by
  have total := le_weigh Pc.ops s.pc t
  rw [← control.ops, control.quiet busy] at total
  omega

theorem none_of_ops (control : Control c s) (op : (s.pc t).ops ≠ 0) : c = none := by
  by_contra busy
  exact op (control.idle_of_committer busy t)

theorem not_modified (control : Control c s) (busy : c ≠ none) (t : Thread) : b ∉ (s.pc t).modified := by
  intro modified
  have := control.idle_of_committer busy t
  rw [Pc.ops_of_modified modified] at this
  cases this

theorem stage (control : Control c s) (busy : (s.pc t).stage ≠ .outside) : s.stage c = (s.pc t).stage := by
  rw [control.committer busy]
  rfl

theorem stage_op (control : Control c s) (op : (s.pc t).ops ≠ 0) : s.stage c = .outside := by
  rw [control.none_of_ops op]
  rfl

variable [DecidableEq Thread]

theorem move (control : Control c s) (pcs : after.pc = Function.update s.pc t pc)
    (booted : after.booted = s.booted) (committing : after.committing = s.committing)
    (outside : (s.pc t).stage = .outside ↔ pc.stage = .outside)
    (recovering : pc.stage.recovering = (s.pc t).stage.recovering)
    (ops : after.outstanding + (s.pc t).ops = s.outstanding + pc.ops)
    (quiet : c ≠ none → after.outstanding = 0)
    (asleep : s.booted = false → c ≠ some t → pc = .idle) : Control c after where
  elsewhere t' other := by
    rw [pcs]
    by_cases same : t' = t
    · subst same
      rw [Function.update_self]
      exact outside.mp (control.elsewhere t' other)
    · rw [Function.update_of_ne same]
      exact control.elsewhere t' other
  here t' busy := by
    rw [pcs, booted, committing]
    by_cases same : t' = t
    · subst same
      rw [Function.update_self, recovering]
      exact ⟨fun now => (control.here t' busy).1 (outside.mpr now), (control.here t' busy).2⟩
    · rw [Function.update_of_ne same]
      exact control.here t' busy
  rest nobody := by
    rw [booted, committing]
    exact control.rest nobody
  ops := by
    have total := weigh_update Pc.ops s.pc t pc
    have before := control.ops
    rw [pcs]
    omega
  quiet := quiet
  asleep down t' other := by
    rw [booted] at down
    rw [pcs]
    by_cases same : t' = t
    · subst same
      rw [Function.update_self]
      exact asleep down other
    · rw [Function.update_of_ne same]
      exact control.asleep down t' other

theorem start (control : Control none s) (pcs : after.pc = Function.update s.pc t pc)
    (busy : pc.stage ≠ .outside) (recovering : pc.stage.recovering = false) (booted : after.booted = s.booted)
    (committing : after.committing = true) (ops : after.outstanding + (s.pc t).ops = s.outstanding + pc.ops)
    (quiet : after.outstanding = 0) : Control (some t) after where
  elsewhere t' other := by
    have other : t' ≠ t := fun same => other (by rw [same])
    rw [pcs, Function.update_of_ne other]
    exact control.elsewhere t' (by simp)
  here t' same := by
    obtain rfl : t = t' := Option.some.inj same
    rw [pcs, Function.update_self, recovering, booted, committing, (control.rest rfl).1]
    exact ⟨busy, rfl, rfl⟩
  rest nobody := by cases nobody
  ops := by
    have total := weigh_update Pc.ops s.pc t pc
    have before := control.ops
    rw [pcs]
    omega
  quiet _ := quiet
  asleep down := by
    rw [booted, (control.rest rfl).1] at down
    cases down

theorem stop (control : Control (some t) s) (pcs : after.pc = Function.update s.pc t pc)
    (outside : pc.stage = .outside) (booted : after.booted = true) (committing : after.committing = false)
    (ops : after.outstanding + (s.pc t).ops = s.outstanding + pc.ops) : Control none after where
  elsewhere t' _ := by
    rw [pcs]
    by_cases same : t' = t
    · subst same
      rw [Function.update_self, outside]
    · rw [Function.update_of_ne same]
      exact control.elsewhere t' fun equal => same (Option.some.inj equal).symm
  here t' nobody := by cases nobody
  rest _ := ⟨booted, committing⟩
  ops := by
    have total := weigh_update Pc.ops s.pc t pc
    have before := control.ops
    rw [pcs]
    omega
  quiet busy := absurd rfl busy
  asleep down := by
    rw [booted] at down
    cases down

theorem boot (sb : Superblock) (disk : BlockNo → Block) (t : Thread) : Control (some t) (boot sb disk t) where
  elsewhere t' other := by
    have other : t' ≠ t := fun same => other (by rw [same])
    simp [Logging.boot, other, Pc.stage]
  here t' busy := by
    obtain rfl : t = t' := by simpa using busy
    simp [Logging.boot, Pc.stage, Use.stage, Stage.recovering]
  rest nobody := by cases nobody
  ops := by
    refine (weigh_const_zero fun t' => ?_).symm
    by_cases same : t' = t <;> simp [Logging.boot, same, Pc.ops, Use.ops]
  quiet _ := rfl
  asleep _ t' other := by
    have other : t' ≠ t := fun same => other (by rw [same])
    simp [Logging.boot, other]

end Control

end OsProjects.Logging

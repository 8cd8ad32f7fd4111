import OsProjects.Logging.Admission
import OsProjects.Logging.Crash

namespace OsProjects.Logging
open Transition

/-! A run between two crashes is, in what `log.lock` protects, a run of the critical sections alone. -/

variable {Thread : Type} [DecidableEq Thread] {sb : Superblock} {s after : State Thread} {t : Thread}

def Use.place : Use → Admission.Pc
  | .reader | .readHead => .idle
  | .op _ => .op
  | .logTo _ | .logFrom _ _ | .head | .installFrom _ _ | .installTo _ _ _ => .install
  | .erase _ => .erase

def Pc.place : Pc → Admission.Pc
  | .idle | .readHead _ => .idle
  | .op _ => .op
  | .bget _ use | .acquiresleep _ _ use | .bread _ _ use => use.place
  | .brelse _ next | .brelseRef _ next => next.place
  | .commit => .commit
  | .writeLog _ | .writeLogBlock _ _ _ | .writeHead _ | .installTrans _ _ | .installBlock _ _ _ _ | .bunpin _ _ _ => .install
  | .eraseHead _ _ => .erase
  | .finish _ => .finish

def State.view (s : State Thread) : Admission.State Thread := ⟨s.outstanding, s.committing, s.lh, none, fun t => (s.pc t).place⟩

@[simp]
theorem resume_place (lh : List BlockNo) (b : BufNo) (use : Use) : (resume lh b use).place = use.place := by
  cases use <;> rfl

theorem view_goto {pcs : Thread → Pc} {pc : Pc} :
    (fun u => (Function.update pcs t pc u).place) = Function.update (fun u => (pcs u).place) t pc.place :=
  Function.comp_update Pc.place pcs t pc

theorem view_stay {pc : Pc} (pcs : after.pc = Function.update s.pc t pc) (place : pc.place = (s.pc t).place)
    (outstanding : after.outstanding = s.outstanding) (committing : after.committing = s.committing) (lh : after.lh = s.lh) :
    after.view = s.view := by
  rw [State.view, State.view, pcs, view_goto, place, outstanding, committing, lh, Function.update_eq_self]

variable {logs : Option (BlockNo × Block)}

theorem booted_moved (down : s.booted = false) (up : after.booted = true) (moved : Moved sb s t logs after) :
    s.pc t = .finish true ∧ after = { s with booted := true }.goto t .idle := by
  cases moved with
  | booted here => exact ⟨here, rfl⟩
  | writeLogBlock _ write | writeHead _ write | installBlock _ write | eraseHead _ write =>
    obtain ⟨_, _, _, rfl⟩ := bwrite_eq_some write
    exact absurd up (by simp [State.goto, State.setBuf, down])
  | _ => exact absurd up (by simp [State.goto, State.setBuf, State.unref, down])

variable [Fintype Thread] {c : Option Thread}

theorem view_moved (control : Control c s) (up : s.booted = true) (moved : Moved sb s t logs after) :
    after.view = s.view ∨ ∃ a, Admission.step sb.nlog s.view (t, a) = some after.view := by
  have header := sb.header
  have outside : (s.pc t).stage.recovering = false := by
    by_cases stage : (s.pc t).stage = .outside
    · rw [stage]
      rfl
    · have booted := (control.here t (control.committer stage)).2.1
      rw [up] at booted
      simpa using booted.symm
  have open_op {modified : List BufNo} (here : s.pc t = .op modified) : s.committing = false ∧ 1 ≤ s.outstanding := by
    have op : (s.pc t).ops = 1 := by rw [here]; rfl
    have total := le_weigh Pc.ops s.pc t
    rw [← control.ops, op] at total
    exact ⟨(control.rest (control.none_of_ops (by rw [op]; decide))).2, total⟩
  have stay {pc : Pc} (pcs : after.pc = Function.update s.pc t pc) (place : pc.place = (s.pc t).place)
      (rest : after.outstanding = s.outstanding ∧ after.committing = s.committing ∧ after.lh = s.lh) :
      after.view = s.view ∨ ∃ a, Admission.step sb.nlog s.view (t, a) = some after.view :=
    .inl (view_stay pcs place rest.1 rest.2.1 rest.2.2)
  cases moved with
  | goto goes =>
    generalize here : s.pc t = old at goes
    cases goes with
    | commit some =>
      refine .inr ⟨.run, ?_⟩
      simp [Admission.step, Admission.State.goto, State.view, State.goto, here, Pc.place, List.length_pos_iff, some, view_goto]
    | commitNone none =>
      refine .inr ⟨.run, ?_⟩
      simp [Admission.step, Admission.State.goto, State.view, State.goto, here, Pc.place, none, view_goto]
    | _ => exact stay rfl (by rw [here]; rfl) ⟨rfl, rfl, rfl⟩
  | hit here | recycle here | acquire here | unref here => exact stay rfl (by rw [here]; rfl) ⟨rfl, rfl, rfl⟩
  | cached here | fill here => exact stay rfl (by rw [here, resume_place]; rfl) ⟨rfl, rfl, rfl⟩
  | release _ here => exact stay rfl (by rcases here with here | ⟨here, _⟩ <;> rw [here] <;> rfl) ⟨rfl, rfl, rfl⟩
  | modify here | absorb here | bunpin here => exact stay rfl (by rw [here]; rfl) ⟨rfl, rfl, rfl⟩
  | writeLogBlock here write | writeHead here write =>
    obtain ⟨_, _, _, rfl⟩ := bwrite_eq_some write
    exact stay rfl (by rw [here]; rfl) ⟨rfl, rfl, rfl⟩
  | @installBlock recovering _ _ _ here _ write =>
    obtain ⟨_, _, _, rfl⟩ := bwrite_eq_some write
    exact stay rfl (by rw [here]; cases recovering <;> rfl) ⟨rfl, rfl, rfl⟩
  | beginOp here _ free room =>
    refine .inr ⟨.beginOp, ?_⟩
    have admitted : ¬ (s.lh.length + ((s.outstanding : ℤ) + 1) * MAXOPBLOCKS > LOGSIZE) := by
      rw [not_lt]
      exact_mod_cast room
    simp [Admission.step, Admission.State.beginOp, Admission.State.goto, State.view, State.goto, here, Pc.place, free, admitted,
      view_goto]
  | @append _ blockno _ here _ block fresh room =>
    obtain ⟨_, outstanding⟩ := open_op here
    refine .inr ⟨.logWrite blockno, ?_⟩
    have begun : ¬ (s.outstanding : ℤ) < 1 := by omega
    have same : Function.update (fun u => (s.pc u).place) t .op = fun u => (s.pc u).place := by
      rw [Function.update_eq_self_iff, here]
      rfl
    simp [Admission.step, Admission.State.logWrite, State.view, State.goto, State.setBuf, here, Pc.place, fresh, begun,
      view_goto, same]
    omega
  | endLast here free last =>
    obtain ⟨_, outstanding⟩ := open_op here
    refine .inr ⟨.endOp, ?_⟩
    have counted : (s.outstanding : ℤ) - 1 = (s.outstanding - 1 : ℕ) := by omega
    simp [Admission.step, Admission.State.endOp, Admission.State.goto, State.view, State.goto, here, Pc.place, free, counted, last,
      view_goto]
  | endOp here more =>
    obtain ⟨free, outstanding⟩ := open_op here
    refine .inr ⟨.endOp, ?_⟩
    have counted : (s.outstanding : ℤ) - 1 = (s.outstanding - 1 : ℕ) := by omega
    simp [Admission.step, Admission.State.endOp, Admission.State.goto, State.view, State.goto, here, Pc.place, free, counted, more,
      view_goto]
  | installed here =>
    refine .inr ⟨.run, ?_⟩
    simp [Admission.step, Admission.State.goto, State.view, State.goto, here, Pc.place, Use.place, view_goto]
  | eraseHead here write =>
    obtain ⟨_, _, _, rfl⟩ := bwrite_eq_some write
    refine .inr ⟨.run, ?_⟩
    simp [Admission.step, Admission.State.goto, State.view, State.goto, State.setBuf, here, Pc.place, view_goto]
  | readHead here | booted here => simp [here, Pc.stage, Stage.recovering] at outside
  | committed here =>
    refine .inr ⟨.run, ?_⟩
    simp [Admission.step, Admission.State.goto, State.view, State.goto, here, Pc.place, view_goto]

/-- When `initlog` returns, the critical sections are in their initial state. -/
theorem view_booted {mem base view : BlockNo → Block} (held : Held sb c mem base view s) (down : s.booted = false)
    (here : s.pc t = .finish true) :
    ({ s with booted := true }.goto t .idle).view = (Admission.system sb.nlog).initial := by
  have committer : c = some t := held.control.committer (by rw [here]; simp [Pc.stage])
  have stage : s.stage c = .finish true := by rw [committer, State.stage, Option.map_some, here]; rfl
  have committing : s.committing = false := by simpa [here, Pc.stage, Stage.recovering] using (held.control.here t committer).2.2
  have empty : s.lh = [] := by
    have holds := held.logged.holds
    rw [stage] at holds
    exact holds.2.1
  have idle : (fun u => (Function.update s.pc t .idle u).place) = fun _ => .idle := by
    funext u
    by_cases same : u = t
    · rw [same, Function.update_self]
      rfl
    · rw [Function.update_of_ne same, held.control.asleep down u (by simpa [committer] using Ne.symm same)]
      rfl
  simp [State.view, State.goto, Admission.system, committing, empty, idle, held.control.quiet (by simp [committer])]

theorem view_reachable {disk base : BlockNo → Block} {t₀ : Thread} (durable : sb.layout.Durable disk base)
    (reached : (system sb disk t₀).ReachedBy (fun s label => LogsHome sb s label ∧ Disciplined s label) s)
    (up : s.booted = true) : (Admission.system sb.nlog).Reachable s.view := by
  obtain ⟨h, recorded⟩ := reached.record .start note
  refine recorded.invariant (fun x => x.1.booted = true → (Admission.system sb.nlog).Reachable x.1.view) ?_ ?_ up
  · simp [System.recorded, system, boot]
  · intro before label after previous ih permitted action up
    obtain ⟨moved, _⟩ := System.recorded_step action
    obtain ⟨⟨c, mem, held⟩, _⟩ := grouped_reached durable previous
    cases label with
    | crash t =>
      have booted : boot sb before.1.disk t = after.1 := Option.some.inj moved
      simp [← booted, boot] at up
    | act t a =>
      have steps := act_moved moved permitted.2
      cases was : before.1.booted with
      | true =>
        rcases view_moved held.control was steps with same | ⟨a, step⟩
        · rw [same]
          exact ih was
        · exact .next (ih was) trivial step
      | false =>
        obtain ⟨here, last⟩ := booted_moved was up steps
        rw [last, view_booted held was here]
        exact .initial

end OsProjects.Logging

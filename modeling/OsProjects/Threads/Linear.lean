import OsProjects.Threads.Semaphore
import OsProjects.Transition.Recorded

namespace OsProjects.Threads.Semaphore
open Transition

inductive Op
  | wait | post
  deriving DecidableEq, Repr

variable {Thread : Type} [Fintype Thread] [DecidableEq Thread]

def State.zem (s : State Thread) : Zem := ⟨s.value.toInt⟩

-- The semaphore whose operations are single steps, as the programs that use it see it.
def atomic (v : ℤ) : System Zem Op where
  initial := Threads.zemInit v
  step z
    | .wait => zemWait z
    | .post => some (zemPost z)

/-! ## Histories -/

inductive Event
  | call (op : Op) | effect (op : Op) | returns (op : Op)
  deriving DecidableEq, Repr

def event : Pc → Move Thread → List Event
  | _, .zemWait => [.call .wait]
  | _, .zemPost => [.call .post]
  | .waitTake, _ => [.effect .wait]
  | .postAdd, _ => [.effect .post]
  | .waitUnlock, _ => [.returns .wait]
  | .postUnlock, _ => [.returns .post]
  | _, _ => []

def note (s : State Thread) (label : Thread × Move Thread) (history : List (Thread × Event)) : List (Thread × Event) :=
  history ++ (event (s.pc label.1) label.2).map (label.1, ·)

def effects (history : List (Thread × Event)) : List Op :=
  history.filterMap fun e => match e.2 with
    | .effect op => some op
    | _ => none

def eventsOf (t : Thread) (history : List (Thread × Event)) : List Event :=
  (history.filter (·.1 = t)).map Prod.snd

omit [Fintype Thread] in
theorem eventsOf_append (t u : Thread) (history : List (Thread × Event)) (events : List Event) :
    eventsOf u (history ++ events.map (t, ·)) = eventsOf u history ++ if u = t then events else [] := by
  induction events using List.reverseRecOn with
  | nil => simp
  | append_singleton events e ih =>
    rw [List.map_append, ← List.append_assoc]
    simp only [eventsOf, List.filter_append, List.map_append] at ih ⊢
    by_cases same : u = t
    · subst same
      simp_all
    · simp_all [Ne.symm same]

def whole (op : Op) : List Event := [.call op, .effect op, .returns op]

def Pc.begun : Pc → List Event
  | .idle => []
  | .waitLock | .waitTest _ | .condWait | .blocked | .woken | .waitTake => [.call .wait]
  | .waitUnlock => [.call .wait, .effect .wait]
  | .postLock | .postAdd => [.call .post]
  | .postSignal | .postUnlock => [.call .post, .effect .post]

/-- Every call takes effect once, between its beginning and its end, and the effects are a run of the atomic semaphore. -/
structure Linear (v : ℤ) (s : State Thread) (history : List (Thread × Event)) : Prop where
  run : (atomic v).run (Threads.zemInit v) (effects history) = some s.zem
  calls : ∀ t, ∃ ops : List Op, eventsOf t history = ops.flatMap whole ++ (s.pc t).begun

section
variable {v : BitVec 32} {s after : State Thread} {t : Thread} {move : Move Thread}

theorem step_event (inv : Inv v s) (small : NoOverflow s (t, move)) (action : step s (t, move) = some after) :
    (atomic v.toInt).run s.zem (effects ((event (s.pc t) move).map (t, ·))) = some after.zem ∧
      ((after.pc t).begun = (s.pc t).begun ++ event (s.pc t) move ∨
        after.pc t = .idle ∧ ∃ op, (s.pc t).begun ++ event (s.pc t) move = whole op) := by
  cases here : s.pc t <;> cases move <;> simp only [step, here, mutexLock, condSignal, reduceCtorEq,
    Option.some.injEq, Option.map_eq_some_iff, Option.ite_none_right_eq_some] at action
  case waitTake.run =>
    subst action
    have positive := inv.taking t here
    have taken : zemWait s.zem = some ⟨(s.value - 1).toInt⟩ := zemWait_eq_some.mpr ⟨positive, toInt_sub_one positive⟩
    exact ⟨congrArg (Option.bind · some) taken, .inl (by simp only [State.goto, Function.update_self]; rfl)⟩
  case postAdd.run =>
    subst action
    exact ⟨congrArg (fun value => some (Zem.mk value)) (toInt_add_one (small here)).symm,
      .inl (by simp only [State.goto, Function.update_self]; rfl)⟩
  case waitUnlock.run | postUnlock.run =>
    subst action
    exact ⟨rfl, .inr ⟨Function.update_self .., _, rfl⟩⟩
  case waitTest.run =>
    subst action
    refine ⟨rfl, .inl ?_⟩
    simp only [State.goto, Function.update_self]
    split <;> rfl
  case idle.zemWait | idle.zemPost | condWait.run | blocked.wakeup =>
    subst action
    exact ⟨rfl, .inl (by simp only [State.goto, Function.update_self]; rfl)⟩
  case waitLock.run | woken.run | postLock.run =>
    obtain ⟨_, rfl⟩ := action
    exact ⟨rfl, .inl (by simp only [State.goto, Function.update_self]; rfl)⟩
  case postSignal.condSignal =>
    obtain ⟨_, ⟨_, rfl⟩, rfl⟩ := action
    exact ⟨rfl, .inl (by simp only [State.goto, Function.update_self]; rfl)⟩

theorem Linear.step {history : List (Thread × Event)} (linear : Linear v.toInt s history) (inv : Inv v s)
    (small : NoOverflow s (t, move)) (action : Semaphore.step s (t, move) = some after) :
    Linear v.toInt after (note s (t, move) history) := by
  obtain ⟨ran, moved⟩ := step_event inv small action
  constructor
  · rw [note, effects, List.filterMap_append, System.run_append]
    exact (congrArg (Option.bind · _) linear.run).trans ran
  · intro u
    obtain ⟨ops, before⟩ := linear.calls u
    have events := eventsOf_append t u history (event (s.pc t) move)
    by_cases same : u = t
    · subst same
      rw [if_pos rfl, before, List.append_assoc] at events
      rcases moved with goesOn | ⟨idle, op, ended⟩
      · exact ⟨ops, events.trans (by rw [goesOn])⟩
      · refine ⟨ops ++ [op], events.trans ?_⟩
        rw [ended, idle]
        simp [Pc.begun]
    · rw [if_neg same, before, List.append_nil] at events
      refine ⟨ops, events.trans ?_⟩
      rcases step_other (step_inv action) same with unmoved | ⟨blocked, woken⟩
      · rw [unmoved]
      · rw [blocked, woken]
        rfl

end

theorem zem_linearizable {v : BitVec 32} {s : State Thread} {history : List (Thread × Event)}
    (reached : ((system Thread v).recorded [] note).ReachedBy (fun x label => NoOverflow x.1 label) (s, history)) :
    Linear v.toInt s history := by
  refine reached.invariant (fun x => Linear v.toInt x.1 x.2) ⟨rfl, fun t => ⟨[], rfl⟩⟩ ?_
  rintro ⟨s, history⟩ ⟨t, move⟩ ⟨after, more⟩ reached linear small action
  obtain ⟨action, rfl⟩ := System.recorded_step action
  exact linear.step (reached_inv reached.forget) small action

-- The call that begins first takes effect last.
def overtaking : List (Fin 2 × Move (Fin 2)) :=
  [(0, .zemWait), (1, .zemPost), (1, .run), (1, .run), (1, .condSignal ∅), (1, .run), (0, .run), (0, .run), (0, .run)]

theorem zem_linearizable_overtaking : ∃ x, ((system (Fin 2) 0).recorded [] note).runBy (fun x label => NoOverflow x.1 label)
    (zemInit (Fin 2) 0, []) overtaking = some x ∧ effects x.2 = [.post, .wait] ∧ Linear 0 x.1 x.2 := by
  obtain ⟨x, result⟩ : ∃ x, ((system (Fin 2) 0).recorded [] note).runBy (fun x label => NoOverflow x.1 label)
      (zemInit (Fin 2) 0, []) overtaking = some x := ⟨_, rfl⟩
  have order : effects x.2 = [.post, .wait] := by
    cases result
    rfl
  exact ⟨x, result, order, zem_linearizable (System.ReachedBy.initial.runBy result)⟩

end OsProjects.Threads.Semaphore

import OsProjects.Shuttle.Conservation

namespace OsProjects.Shuttle
open Threads Transition

variable {attendees : ℕ} {capacity : ℤ} {s : State attendees}

/-! ## One passenger at a time

With a single attendee or a single seat a stop wakes at most one attendee, and the driver leaves only
when that attendee has told it to. -/

def AttendeePc.boarding : AttendeePc → ℕ
  | .boardWaitPassengers _ | .boardWaitDoor _ | .boardWaitHere _ | .boardTest _ | .closeDoor _
  | .postStart _ => 1
  | _ => 0

def AttendeePc.beforeClose : AttendeePc → ℕ
  | .boardWaitPassengers _ | .boardWaitDoor _ | .boardWaitHere _ | .boardTest _ | .closeDoor _ => 1
  | _ => 0

inductive Phase
  | away | opened | empty | loop (stop : Stop) | taking | counting | leaving | travelling

def DriverPc.phase : DriverPc → Phase
  | .debugWaitA | .debugWaitB | .debugWaitPassengers | .debugPostA | .debugPostB | .debugPostPassengers
  | .doorWait _ | .doorOpen _ | .wakeAll _ _ | .arrivePostPassengers _ | .arrivePostThere _ => .away
  | .doorPost _ | .pickWaitHere _ | .pickWaitOther _ | .pickWaitPassengers _ | .pickTest _ => .opened
  | .justLeave _ => .empty
  | .pickLoop stop => .loop stop
  | .pickTake _ | .pickWake _ => .taking
  | .pickCount _ => .counting
  | .pickPostPassengers _ | .pickPostHere _ | .pickPostOther _ | .waitStart _ => .leaving
  | .travel _ | .arriveWaitThere _ | .arriveWaitPassengers _ | .dropOff _ => .travelling

def Shared.woken (g : Shared) : ℤ := (g.busStop .A).value + (g.busStop .B).value

/-- One departure signal per stop: it is posted, or owed by the one attendee the driver has woken.
The numbers are those of the attendees that owe it and of those that have not closed the door. -/
def SingleBoarder (g : Shared) (boarding beforeClose : ℤ) : Phase → Prop
  | .away => g.startShuttle.value = 0 ∧ g.woken + boarding = 0 ∧ g.passengers = 0
  | .opened | .empty | .taking =>
    g.startShuttle.value = 0 ∧ g.woken + boarding = 0 ∧ g.passengers = 0 ∧ g.door = 0
  | .loop stop =>
    g.startShuttle.value = 0 ∧ g.woken + boarding = g.passengers ∧ g.door = 0 ∧
      (g.passengers = 0 ∧ 0 < g.waitingAt stop ∨ g.passengers = 1)
  | .counting => g.startShuttle.value = 0 ∧ g.woken + boarding = 1 ∧ g.passengers = 0 ∧ g.door = 0
  | .leaving =>
    0 ≤ g.startShuttle.value ∧ g.startShuttle.value + g.woken + boarding = 1 ∧
      (g.passengers = 0 ∧ g.woken + boarding = 0 ∨ g.passengers = 1) ∧
      (0 < g.woken + beforeClose → g.door = 0)
  | .travelling => g.startShuttle.value = 0 ∧ g.woken + boarding = 0

theorem beforeClose_le_boarding (pc : AttendeePc) : pc.beforeClose ≤ pc.boarding := by
  cases pc <;> simp [AttendeePc.beforeClose, AttendeePc.boarding]

theorem queued_add_boarding_le (s : State attendees) (stops : ∀ stop, Conserved s stop) :
    s.shared.waitingAt .A + s.shared.waitingAt .B + s.shared.woken +
      weigh AttendeePc.boarding s.attendee ≤ attendees := by
  have apart := weigh_le_card (fun pc : AttendeePc => pc.queued .A + pc.queued .B + pc.boarding)
    (fun pc => by cases pc <;> simp [AttendeePc.queued, AttendeePc.boarding] <;> grind) s.attendee
  rw [weigh_add, weigh_add, Fintype.card_fin] at apart
  have atA := (stops .A).queue
  have atB := (stops .B).queue
  unfold Shared.woken
  omega

/-- The picking loop stops after one attendee: the seat is taken or nobody else is there. -/
def OneAtATime (capacity : ℤ) (g : Shared) (boarding : ℤ) : Prop :=
  1 ≤ capacity ∧ (capacity = 1 ∨ ∀ stop, g.woken + boarding = 1 → g.waitingAt stop = 0)

theorem shuttleDriver_single {g g' : Shared} {pc pc' : DriverPc} {boarding beforeClose : ℤ}
    (action : shuttleDriver capacity g pc = some (g', pc')) (one : OneAtATime capacity g boarding)
    (waiting : ∀ stop, 0 ≤ g.waitingAt stop) (tokens : 0 ≤ g.woken + boarding)
    (single : SingleBoarder g boarding beforeClose pc.phase) :
    SingleBoarder g' boarding beforeClose pc'.phase := by
  cases pc <;> simp only [shuttleDriver, Option.map_eq_some_iff, zemWait_eq_some, Option.some.injEq,
    Prod.mk.injEq] at action <;> simp only [DriverPc.phase, SingleBoarder, Shared.woken] at single
  case pickTest stop =>
    have nonneg := waiting stop
    split at action <;> cases action <;> simp only [DriverPc.phase, SingleBoarder, Shared.woken]
    all_goals grind
  case pickLoop stop =>
    have noneLeft := one.2
    have seats := one.1
    simp only [Shared.woken] at noneLeft
    split at action <;> cases action <;> simp only [DriverPc.phase, SingleBoarder, Shared.woken]
    all_goals grind
  case wakeAll stop i =>
    split at action <;> cases action <;> exact single
  case debugWaitA | debugWaitB | debugWaitPassengers | doorWait | pickWaitHere | pickWaitOther
      | pickWaitPassengers | arriveWaitThere | arriveWaitPassengers =>
      obtain ⟨z, _, rfl, rfl⟩ := action
      exact single
  case waitStart stop =>
    obtain ⟨z, ⟨positive, value⟩, rfl, rfl⟩ := action
    simp only [DriverPc.phase, SingleBoarder, Shared.woken] at tokens ⊢
    omega
  case pickWake stop =>
    obtain ⟨rfl, rfl⟩ := action
    cases stop <;> simp [DriverPc.phase, SingleBoarder, Shared.woken] <;> grind
  case arrivePostThere stop =>
    obtain ⟨rfl, rfl⟩ := action
    cases stop <;> exact single
  all_goals
    obtain ⟨rfl, rfl⟩ := action
    simp only [DriverPc.phase, SingleBoarder, Shared.woken]
    grind

def Phase.unlocked : Phase → Prop
  | .loop _ | .taking | .counting | .empty => False
  | _ => True

theorem attendee_single {g g' : Shared} {pc pc' : AttendeePc} {phase : Phase}
    {boarding beforeClose boarding' beforeClose' : ℤ} (action : attendee capacity g pc = some (g', pc'))
    (one : OneAtATime capacity g boarding) (tokens : 0 ≤ g.woken) (le : beforeClose ≤ boarding)
    (counted : pc.boarding ≤ boarding) (counted' : pc.beforeClose ≤ beforeClose)
    (moved : boarding' + pc.boarding = boarding + pc'.boarding)
    (moved' : beforeClose' + pc.beforeClose = beforeClose + pc'.beforeClose)
    (excluded : Mutex.passengers ∈ pc.held → phase.unlocked)
    (single : SingleBoarder g boarding beforeClose phase) :
    SingleBoarder g' boarding' beforeClose' phase := by
  cases pc <;> simp only [attendee, Option.map_eq_some_iff, zemWait_eq_some, Option.some.injEq,
    Prod.mk.injEq] at action
  case waitBusStop stop =>
    obtain ⟨z, ⟨positive, value⟩, rfl, rfl⟩ := action
    simp only [AttendeePc.boarding, AttendeePc.beforeClose] at moved moved'
    cases phase <;> cases stop <;> simp [SingleBoarder, Shared.woken] at single ⊢ <;> grind
  case boardTest stop =>
    -- The signal is owed by this attendee alone, so it finds the stop empty or the shuttle full.
    have free : phase.unlocked := excluded (by simp [AttendeePc.held])
    simp only [OneAtATime, Shared.woken] at one tokens
    simp only [AttendeePc.boarding, AttendeePc.beforeClose] at counted counted'
    split at action <;> cases action <;>
      simp only [AttendeePc.boarding, AttendeePc.beforeClose] at moved moved' <;>
      cases phase <;> simp only [SingleBoarder, Shared.woken, Phase.unlocked] at single free ⊢ <;> grind
  case queueWait | boardWaitPassengers | boardWaitDoor | boardWaitHere | waitArrived =>
    obtain ⟨z, _, rfl, rfl⟩ := action
    simp only [AttendeePc.boarding, AttendeePc.beforeClose] at moved moved'
    cases phase <;> simp only [SingleBoarder, Shared.woken] at single ⊢ <;> grind
  all_goals
    obtain ⟨rfl, rfl⟩ := action
    simp only [AttendeePc.boarding, AttendeePc.beforeClose] at counted moved moved'
    simp only [Shared.woken] at tokens
    simp only [AttendeePc.held, List.mem_cons, true_or, forall_const] at excluded
    cases phase <;>
      simp only [SingleBoarder, Shared.woken, Phase.unlocked, Function.update_apply] at single excluded ⊢ <;>
      grind

/-! ## No circular wait -/

def Single (s : State attendees) : Prop :=
  SingleBoarder s.shared (weigh AttendeePc.boarding s.attendee) (weigh AttendeePc.beforeClose s.attendee)
    s.driver.phase

theorem oneAtATime (one : attendees = 1 ∨ capacity = 1) (seats : 1 ≤ capacity) (stops : ∀ stop, Conserved s stop) :
    OneAtATime capacity s.shared (weigh AttendeePc.boarding s.attendee) := by
  refine ⟨seats, one.symm.imp_right ?_⟩
  rintro rfl stop woken
  have people := queued_add_boarding_le s stops
  have waitingA := (stops .A).waiting
  have waitingB := (stops .B).waiting
  cases stop <;> omega

theorem phase_unlocked {pc : DriverPc} (free : Mutex.passengers ∉ pc.held) : pc.phase.unlocked := by
  cases pc <;> simp_all [DriverPc.held, DriverPc.phase, Phase.unlocked]

theorem step_single (one : attendees = 1 ∨ capacity = 1) (seats : 1 ≤ capacity)
    {after : State attendees} {t : Option (Fin attendees)}
    (reachable : (system attendees capacity).Reachable s) (single : Single s)
    (action : step capacity s t = some after) : Single after := by
  have stops := reachable_conserved reachable
  have atATime := oneAtATime one seats stops
  have tokens : 0 ≤ s.shared.woken := add_nonneg (stops .A).tokens (stops .B).tokens
  cases t with
  | none =>
    obtain ⟨⟨g, pc⟩, moved, rfl⟩ := Option.map_eq_some_iff.mp action
    exact shuttleDriver_single moved atATime (fun stop => (stops stop).waiting) (by omega) single
  | some i =>
    obtain ⟨⟨g, pc⟩, moved, rfl⟩ := Option.map_eq_some_iff.mp action
    have boarding := weigh_update AttendeePc.boarding s.attendee i pc
    have beforeClose := weigh_update AttendeePc.beforeClose s.attendee i pc
    have le := weigh_mono _ _ beforeClose_le_boarding s.attendee
    have counted := le_weigh AttendeePc.boarding s.attendee i
    have counted' := le_weigh AttendeePc.beforeClose s.attendee i
    refine attendee_single moved atATime tokens (by omega) (by omega) (by omega)
      (by exact_mod_cast boarding) (by exact_mod_cast beforeClose) (fun holds => phase_unlocked fun busy => ?_) single
    exact (reachable_mutex reachable .passengers).driver_excludes busy i holds

theorem reachable_single (one : attendees = 1 ∨ capacity = 1) (seats : 1 ≤ capacity)
    (reachable : (system attendees capacity).Reachable s) : Single s :=
  reachable.invariant Single
    (by simp [system, main, Single, SingleBoarder, DriverPc.phase, Shared.woken, weigh, AttendeePc.boarding])
    fun _ _ _ previous single action => step_single one seats previous single action

def DriverPc.first : DriverPc → Stop
  | .pickWaitOther stop => stop
  | _ => .A

def rank (s : State attendees) : Mutex → ℕ
  | .passengers => 2
  | .door => 3
  | .waiting stop =>
    if weigh AttendeePc.boarding s.attendee ≠ 0 then 4 else if s.driver.first = stop then 0 else 1

theorem Single.nobody_boards (single : Single s) (tokens : 0 ≤ s.shared.woken)
    {m held : Mutex} (blocked : s.driver.waitsOn = some m) (holds : held ∈ s.driver.held) :
    weigh AttendeePc.boarding s.attendee = 0 := by
  unfold Single at single
  cases driver : s.driver <;> simp only [driver, DriverPc.waitsOn, DriverPc.held, List.not_mem_nil,
    reduceCtorEq] at blocked holds <;>
    simp only [driver, DriverPc.phase, SingleBoarder] at single <;> omega

theorem Single.not_deadlocked (single : Single s) (tokens : 0 ≤ s.shared.woken) : ¬ Deadlocked s := by
  apply not_circularWait_of_rank (rank s)
  intro t wanted held blocked holds
  obtain ⟨waits, _⟩ := blocked
  cases t with
  | none =>
    have nobody := single.nobody_boards tokens waits holds
    simp only [Holds] at waits holds
    cases driver : s.driver <;>
      simp only [driver, DriverPc.waitsOn, DriverPc.held, Option.some.injEq, List.mem_cons,
        List.not_mem_nil, or_false, reduceCtorEq] at waits holds
    all_goals subst waits
    all_goals simp only [rank, driver, nobody, DriverPc.first, ne_eq, not_true_eq_false, if_false]
    all_goals grind [rank, DriverPc.first, Stop.ne_other]
  | some i =>
    have counted := le_weigh AttendeePc.boarding s.attendee i
    simp only [Holds] at waits holds
    cases pc : s.attendee i <;>
      simp only [pc, AttendeePc.waitsOn, AttendeePc.held, Option.some.injEq, List.mem_cons,
        List.not_mem_nil, or_false, reduceCtorEq] at waits holds
    all_goals subst waits
    all_goals rw [pc] at counted
    all_goals simp only [AttendeePc.boarding] at counted
    all_goals grind [rank]

theorem not_deadlocked_of_one (one : attendees = 1 ∨ capacity = 1) (seats : 1 ≤ capacity)
    (reachable : (system attendees capacity).Reachable s) : ¬ Deadlocked s :=
  (reachable_single one seats reachable).not_deadlocked
    (add_nonneg (reachable_conserved reachable .A).tokens (reachable_conserved reachable .B).tokens)

end OsProjects.Shuttle

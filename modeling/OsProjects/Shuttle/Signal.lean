import OsProjects.Shuttle.DeadlockRun
import OsProjects.Shuttle.Arrival
import OsProjects.Transition.Recorded

namespace OsProjects.Shuttle
open Threads Transition

variable {attendees : ℕ} {capacity : ℤ} {g g' : Shared} {s : State attendees}

inductive Poster (attendees : ℕ)
  | driver | attendee (i : Fin attendees) (boardedAt : Option Stop)
  deriving DecidableEq, Repr

/-- Where each attendee has boarded since the door was last opened, and who posted the signals in
`start_shuttle`, oldest first. -/
structure Signals (attendees : ℕ) where
  boardedAt : Fin attendees → Option Stop
  posted : List (Poster attendees)

def Signals.attendee (r : Signals attendees) (i : Fin attendees) : AttendeePc → Signals attendees
  | .waitBusStop stop => { r with boardedAt := Function.update r.boardedAt i (some stop) }
  | .postStart _ => { r with posted := r.posted ++ [.attendee i (r.boardedAt i)] }
  | _ => r

def Signals.driver (r : Signals attendees) : DriverPc → Signals attendees
  | .doorOpen _ => { r with boardedAt := fun _ => none }
  | .justLeave _ => { r with posted := r.posted ++ [.driver] }
  | .waitStart _ => { r with posted := r.posted.tail }
  | _ => r

def signals (attendees : ℕ) (capacity : ℤ) : System (State attendees × Signals attendees) (Option (Fin attendees)) :=
  (system attendees capacity).recorded ⟨fun _ => none, []⟩ fun s t r =>
    match t with
    | none => r.driver s.driver
    | some i => r.attendee i (s.attendee i)

def DriverPc.opens : DriverPc → Bool
  | .doorOpen _ => true
  | _ => false

/-- The door is opened only when every attendee woken at an earlier stop is past its test of the door. -/
def Settled (s : State attendees) (t : Option (Fin attendees)) : Prop :=
  t = none → s.driver.opens = true → s.shared.woken + weigh AttendeePc.boarding s.attendee = 0

def OneSignal (x : State attendees × Signals attendees) : Prop :=
  x.1.shared.startShuttle.value ≤ 1 ∧
  (x.1.driver.opens = true → x.1.shared.startShuttle.value = 0) ∧
  ∀ stop, x.1.driver = .waitStart stop → 0 < x.1.shared.startShuttle.value → 0 < x.1.shared.passengers →
    ∃ i, x.2.posted.head? = some (.attendee i (some stop))

/-! ## One signal for each opening of the door -/

inductive Stage
  | away | opened (stop : Stop) | looping (stop : Stop) | picking (stop : Stop) | leaving (stop : Stop)

def DriverPc.stage : DriverPc → Stage
  | .debugWaitA | .debugWaitB | .debugWaitPassengers | .debugPostA | .debugPostB | .debugPostPassengers
  | .doorWait _ | .doorOpen _ | .travel _ | .arriveWaitThere _ | .arriveWaitPassengers _ | .dropOff _ | .wakeAll _ _
  | .arrivePostPassengers _ | .arrivePostThere _ => .away
  | .doorPost stop | .pickWaitHere stop | .pickWaitOther stop | .pickWaitPassengers stop | .pickTest stop
  | .justLeave stop => .opened stop
  | .pickLoop stop => .looping stop
  | .pickTake stop | .pickWake stop | .pickCount stop => .picking stop
  | .pickPostPassengers stop | .pickPostHere stop | .pickPostOther stop | .waitStart stop => .leaving stop

def AttendeePc.posting : AttendeePc → ℕ
  | .postStart _ => 1
  | _ => 0

/-- `owing` attendees have been woken and are not past their test, `posting` have closed the door and not posted. -/
def Owed (g : Shared) (owing posting : ℤ) : Stage → Prop
  | .away => g.startShuttle.value = 0 ∧ posting = 0 ∧ (g.door = 1 ∨ owing = 0)
  | .opened _ => g.startShuttle.value = 0 ∧ posting = 0 ∧ g.door = 0 ∧ owing = 0 ∧ g.passengers = 0
  | .looping stop => g.startShuttle.value = 0 ∧ posting = 0 ∧ g.door = 0 ∧ (g.passengers = 0 → 0 < g.waitingAt stop)
  | .picking _ => g.startShuttle.value = 0 ∧ posting = 0 ∧ g.door = 0
  | .leaving _ =>
    (g.passengers = 0 ∧ owing = 0 ∧ posting = 0 ∧ g.startShuttle.value = 1) ∨
      (0 < g.passengers ∧ g.startShuttle.value + posting = g.door ∧ g.door ≤ 1)

variable {pc pc' : DriverPc} {r : Signals attendees}

theorem shuttleDriver_owed {boarding posting : ℤ}
    (action : shuttleDriver capacity g pc = some (g', pc')) (seats : 1 ≤ capacity)
    (waiting : ∀ stop, 0 ≤ g.waitingAt stop) (nonneg : 0 ≤ g.passengers)
    (idle : pc.carries = none → g.passengers = 0) (posts : 0 ≤ posting)
    (settled : pc.opens = true → g.woken + boarding = 0)
    (owed : Owed g (g.woken + boarding) posting pc.stage) :
    Owed g' (g'.woken + boarding) posting pc'.stage := by
  cases pc <;> simp only [shuttleDriver, Option.map_eq_some_iff, zemWait_eq_some, Option.some.injEq,
    Prod.mk.injEq] at action <;> simp only [DriverPc.stage, Owed, Shared.woken] at owed
  case doorOpen stop =>
    obtain ⟨rfl, rfl⟩ := action
    exact ⟨owed.1, owed.2.1, rfl, settled rfl, idle rfl⟩
  case pickTest stop =>
    have present := waiting stop
    split at action <;> cases action <;> simp only [DriverPc.stage, Owed, Shared.woken]
    · exact ⟨owed.1, owed.2.1, owed.2.2.1, fun _ => by omega⟩
    · exact owed
  case pickLoop stop =>
    split at action <;> cases action <;> simp only [DriverPc.stage, Owed, Shared.woken]
    · exact ⟨owed.1, owed.2.1, owed.2.2.1⟩
    · right
      grind
  case wakeAll stop i => split at action <;> cases action <;> exact owed
  case debugWaitA | debugWaitB | debugWaitPassengers | doorWait | pickWaitHere | pickWaitOther
      | pickWaitPassengers | arriveWaitThere | arriveWaitPassengers =>
      obtain ⟨z, _, rfl, rfl⟩ := action
      exact owed
  case waitStart stop =>
    obtain ⟨z, ⟨positive, value⟩, rfl, rfl⟩ := action
    simp only [DriverPc.stage, Owed, Shared.woken]
    omega
  case pickCount stop =>
    obtain ⟨rfl, rfl⟩ := action
    exact ⟨owed.1, owed.2.1, owed.2.2, fun none => by simp only at none; omega⟩
  case pickTake stop =>
    obtain ⟨rfl, rfl⟩ := action
    exact owed
  case justLeave stop =>
    obtain ⟨rfl, rfl⟩ := action
    exact .inl ⟨owed.2.2.2.2, owed.2.2.2.1, owed.2.1, by simp [owed.1]⟩
  case arrivePostThere stop =>
    obtain ⟨rfl, rfl⟩ := action
    cases stop <;> exact owed
  all_goals
    obtain ⟨rfl, rfl⟩ := action
    exact owed

def Stage.picks : Stage → Bool
  | .looping _ | .picking _ => true
  | _ => false

theorem attendee_owed {pc pc' : AttendeePc} {stage : Stage} {boarding posting boarding' posting' : ℤ}
    (action : attendee capacity g pc = some (g', pc')) (tokens : 0 ≤ g.woken)
    (counted : pc.boarding ≤ boarding) (counted' : pc.posting ≤ posting)
    (moved : boarding' + pc.boarding = boarding + pc'.boarding)
    (moved' : posting' + pc.posting = posting + pc'.posting)
    (closing : ∀ stop, pc = .closeDoor stop → g.door = 0 ∧ stage.picks = false)
    (owed : Owed g (g.woken + boarding) posting stage) : Owed g' (g'.woken + boarding') posting' stage := by
  cases pc <;> simp only [attendee, Option.map_eq_some_iff, zemWait_eq_some, Option.some.injEq,
    Prod.mk.injEq] at action
  case waitBusStop stop =>
    obtain ⟨z, ⟨positive, value⟩, rfl, rfl⟩ := action
    simp only [AttendeePc.boarding, AttendeePc.posting] at moved moved'
    have same : g.woken + boarding = { g with busStop := Function.update g.busStop stop z }.woken + boarding' := by
      cases stop <;> simp [Shared.woken] <;> omega
    rw [← same, show posting' = posting by omega]
    cases stage <;> exact owed
  case closeDoor stop =>
    obtain ⟨rfl, rfl⟩ := action
    obtain ⟨opened, free⟩ := closing stop rfl
    simp only [AttendeePc.boarding, AttendeePc.posting] at counted counted' moved moved'
    cases stage <;> simp only [Owed, Stage.picks, Shared.woken, Bool.true_eq_false] at owed free tokens ⊢ <;> omega
  case boardTest stop =>
    have kept : g' = g ∧ pc'.posting = 0 := by split at action <;> cases action <;> exact ⟨rfl, rfl⟩
    obtain ⟨rfl, none⟩ := kept
    have mine : (AttendeePc.boardTest stop).boarding = 1 := rfl
    have mine' : (AttendeePc.boardTest stop).posting = 0 := rfl
    cases stage <;> simp only [Owed] at owed ⊢ <;> omega
  case queueWait | boardWaitPassengers | boardWaitDoor | boardWaitHere | waitArrived =>
    obtain ⟨z, _, rfl, rfl⟩ := action
    simp only [AttendeePc.boarding, AttendeePc.posting] at moved moved'
    rw [show boarding' = boarding by omega, show posting' = posting by omega]
    cases stage <;> exact owed
  case queueCount stop =>
    obtain ⟨rfl, rfl⟩ := action
    simp only [AttendeePc.boarding, AttendeePc.posting] at moved moved'
    rw [show boarding' = boarding by omega, show posting' = posting by omega]
    cases stage <;> simp only [Owed, Shared.woken, Function.update_apply] at owed ⊢ <;> grind
  all_goals
    obtain ⟨rfl, rfl⟩ := action
    simp only [AttendeePc.boarding, AttendeePc.posting] at counted counted' moved moved'
    cases stage <;> simp only [Owed, Shared.woken, zemPost_value] at owed tokens ⊢ <;> omega

theorem attendee_door {pc pc' : AttendeePc} (action : attendee capacity g pc = some (g', pc')) :
    (∃ stop, pc = .closeDoor stop) ∨ g'.door = g.door ∧ ∀ stop, pc' = .closeDoor stop → g.door = 0 := by
  cases pc <;> simp only [attendee, Option.map_eq_some_iff, Option.some.injEq, Prod.mk.injEq] at action
  case closeDoor stop => exact .inl ⟨stop, rfl⟩
  case boardTest stop =>
    split at action
    · next closes =>
      cases action
      exact .inr ⟨rfl, fun _ _ => closes.2⟩
    · cases action
      exact .inr ⟨rfl, by simp⟩
  case queueWait | waitBusStop | boardWaitPassengers | boardWaitDoor | boardWaitHere | waitArrived =>
    obtain ⟨z, _, rfl, rfl⟩ := action
    exact .inr ⟨rfl, by simp⟩
  all_goals
    obtain ⟨rfl, rfl⟩ := action
    exact .inr ⟨rfl, by simp⟩

theorem shuttleDriver_door
    (action : shuttleDriver capacity g pc = some (g', pc')) : g'.door = g.door ∨ g'.door = 0 := by
  cases pc <;> simp only [shuttleDriver, Option.map_eq_some_iff, Option.some.injEq, Prod.mk.injEq] at action
  case pickTest | pickLoop | wakeAll => split at action <;> cases action <;> exact .inl rfl
  case debugWaitA | debugWaitB | debugWaitPassengers | doorWait | pickWaitHere | pickWaitOther
      | pickWaitPassengers | waitStart | arriveWaitThere | arriveWaitPassengers =>
      obtain ⟨z, _, rfl, rfl⟩ := action
      exact .inl rfl
  case doorOpen =>
    obtain ⟨rfl, rfl⟩ := action
    exact .inr rfl
  all_goals
    obtain ⟨rfl, rfl⟩ := action
    exact .inl rfl

structure Signalled (s : State attendees) : Prop where
  closing : ∀ i stop, s.attendee i = .closeDoor stop → s.shared.door = 0
  owed : Owed s.shared (s.shared.woken + weigh AttendeePc.boarding s.attendee) (weigh AttendeePc.posting s.attendee)
    s.driver.stage

theorem picks_holds {driver : DriverPc} (picks : driver.stage.picks = true) : Mutex.passengers ∈ driver.held := by
  cases driver <;> simp_all [DriverPc.stage, Stage.picks, DriverPc.held]

theorem step_signalled {after : State attendees} {t : Option (Fin attendees)} (seats : 1 ≤ capacity)
    (reachable : (system attendees capacity).Reachable s) (held : Signalled s) (settled : Settled s t)
    (action : step capacity s t = some after) : Signalled after := by
  obtain ⟨closing, owed⟩ := held
  have conserved := reachable_conserved reachable
  have carried := reachable_carried reachable .A
  cases t with
  | none =>
    obtain ⟨⟨g, pc⟩, moved, rfl⟩ := Option.map_eq_some_iff.mp action
    refine ⟨fun i stop closes => ?_, shuttleDriver_owed moved seats (fun stop => (conserved stop).waiting)
      carried.nonneg carried.idle (by simp) (settled rfl) owed⟩
    rcases shuttleDriver_door moved with same | opened
    · exact same.trans (closing i stop closes)
    · exact opened
  | some i =>
    obtain ⟨⟨g, pc⟩, moved, rfl⟩ := Option.map_eq_some_iff.mp action
    have boarding := weigh_update AttendeePc.boarding s.attendee i pc
    have posting := weigh_update AttendeePc.posting s.attendee i pc
    have counted := le_weigh AttendeePc.boarding s.attendee i
    have counted' := le_weigh AttendeePc.posting s.attendee i
    have tokens : 0 ≤ s.shared.woken := add_nonneg (conserved .A).tokens (conserved .B).tokens
    refine ⟨fun j stop closes => ?_, attendee_owed moved tokens (by omega) (by omega) (by exact_mod_cast boarding)
      (by exact_mod_cast posting) (fun stop closes => ⟨closing i stop closes, ?_⟩) owed⟩
    · replace closes : Function.update s.attendee i pc j = .closeDoor stop := closes
      rcases attendee_door moved with ⟨here, mine⟩ | ⟨same, tested⟩
      · by_cases same : j = i
        · subst same
          rw [Function.update_self] at closes
          simp only [mine, attendee, Option.some.injEq, Prod.mk.injEq] at moved
          rw [← moved.2] at closes
          cases closes
        · rw [Function.update_of_ne same] at closes
          have alone := (reachable_mutex reachable .door).attendee_excludes (i := j) (j := i)
            (by simp [closes, AttendeePc.held]) (by simp [mine, AttendeePc.held])
          exact absurd alone same
      · refine same.trans ?_
        by_cases same : j = i
        · subst same
          exact tested stop (by simpa using closes)
        · rw [Function.update_of_ne same] at closes
          exact closing j stop closes
    · by_contra picks
      have driver := picks_holds (Bool.of_not_eq_false picks)
      exact (reachable_mutex reachable .passengers).driver_excludes driver i (by simp [closes, AttendeePc.held])

theorem reached_signalled (seats : 1 ≤ capacity)
    (reached : (system attendees capacity).ReachedBy Settled s) : Signalled s := by
  refine reached.invariant Signalled ⟨by simp [system, main], ?_⟩
    fun _ _ _ reached held settled action => step_signalled seats reached.reachable held settled action
  simp [system, main, Owed, DriverPc.stage, Shared.woken, weigh, AttendeePc.boarding, AttendeePc.posting]

/-! ## Who posted it -/

def Stage.visit : Stage → Option Stop
  | .away => none
  | .opened stop | .looping stop | .picking stop | .leaving stop => some stop

structure Traced (s : State attendees) (r : Signals attendees) : Prop where
  count : s.shared.startShuttle.value = r.posted.length
  elsewhere : ∀ stop, s.driver.stage.visit = some stop → (s.shared.busStop stop.other).value = 0
  boarders : ∀ stop, s.driver.stage.visit = some stop → ∀ i, (s.attendee i).boarding = 1 → r.boardedAt i = some stop
  posters : ∀ stop, s.driver.stage = .leaving stop → 0 < s.shared.passengers →
    ∀ poster ∈ r.posted, ∃ i, poster = .attendee i (some stop)

theorem shuttleDriver_visit
    (action : shuttleDriver capacity g pc = some (g', pc')) {stop : Stop} (visits : pc'.stage.visit = some stop) :
    pc.opens = true ∧ g'.busStop = g.busStop ∨
      pc.stage.visit = some stop ∧ g'.busStop stop.other = g.busStop stop.other ∧ pc.opens = false := by
  cases pc <;> simp only [shuttleDriver, Option.map_eq_some_iff, Option.some.injEq, Prod.mk.injEq] at action
  case pickTest | pickLoop =>
    split at action <;> cases action <;> exact .inr ⟨visits, rfl, rfl⟩
  case wakeAll => split at action <;> cases action <;> cases visits
  case debugWaitA | debugWaitB | debugWaitPassengers | doorWait | waitStart | arriveWaitThere | arriveWaitPassengers =>
    obtain ⟨z, _, rfl, rfl⟩ := action
    cases visits
  case pickWaitHere | pickWaitOther | pickWaitPassengers =>
    obtain ⟨z, _, rfl, rfl⟩ := action
    exact .inr ⟨visits, rfl, rfl⟩
  case doorOpen =>
    obtain ⟨rfl, rfl⟩ := action
    exact .inl ⟨rfl, rfl⟩
  case pickWake here =>
    obtain ⟨rfl, rfl⟩ := action
    obtain rfl : here = stop := by simpa [DriverPc.stage, Stage.visit] using visits
    exact .inr ⟨rfl, by simp, rfl⟩
  case doorPost | pickTake | pickCount | justLeave | pickPostPassengers | pickPostHere | pickPostOther =>
    obtain ⟨rfl, rfl⟩ := action
    exact .inr ⟨visits, rfl, rfl⟩
  case arrivePostThere here =>
    obtain ⟨rfl, rfl⟩ := action
    cases here <;> cases visits
  all_goals
    obtain ⟨rfl, rfl⟩ := action
    cases visits

theorem shuttleDriver_posted
    (action : shuttleDriver capacity g pc = some (g', pc')) (count : g.startShuttle.value = r.posted.length) :
    g'.startShuttle.value = (r.driver pc).posted.length := by
  cases pc <;> simp only [shuttleDriver, Option.map_eq_some_iff, Option.some.injEq, Prod.mk.injEq] at action
  case pickTest | pickLoop | wakeAll => split at action <;> cases action <;> exact count
  case waitStart =>
    obtain ⟨z, taken, rfl, rfl⟩ := action
    obtain ⟨positive, value⟩ := zemWait_eq_some.mp taken
    simp only [Signals.driver, List.length_tail]
    omega
  case debugWaitA | debugWaitB | debugWaitPassengers | doorWait | pickWaitHere | pickWaitOther
      | pickWaitPassengers | arriveWaitThere | arriveWaitPassengers =>
      obtain ⟨z, _, rfl, rfl⟩ := action
      exact count
  case justLeave =>
    obtain ⟨rfl, rfl⟩ := action
    simp [Signals.driver, count]
  all_goals
    obtain ⟨rfl, rfl⟩ := action
    exact count

-- Whoever is aboard when the driver starts to wait was picked up in the loop, which starts without a signal.
theorem shuttleDriver_leaving
    (action : shuttleDriver capacity g pc = some (g', pc')) {stop : Stop} (leaves : pc'.stage = .leaving stop)
    (aboard : 0 < g'.passengers) :
    pc.stage = .looping stop ∧ r.driver pc = r ∨
      (∃ here, pc = .justLeave here) ∧ g'.passengers = g.passengers ∨
      pc.stage = .leaving stop ∧ g'.passengers = g.passengers ∧ r.driver pc = r := by
  cases pc <;> simp only [shuttleDriver, Option.map_eq_some_iff, Option.some.injEq, Prod.mk.injEq] at action
  case pickTest | wakeAll => split at action <;> cases action <;> cases leaves
  case pickLoop =>
    split at action <;> cases action
    · cases leaves
    · cases leaves
      exact .inl ⟨rfl, rfl⟩
  case debugWaitA | debugWaitB | debugWaitPassengers | doorWait | pickWaitHere | pickWaitOther
      | pickWaitPassengers | waitStart | arriveWaitThere | arriveWaitPassengers =>
      obtain ⟨z, _, rfl, rfl⟩ := action
      cases leaves
  case justLeave here =>
    obtain ⟨rfl, rfl⟩ := action
    exact .inr (.inl ⟨⟨here, rfl⟩, rfl⟩)
  case pickPostPassengers | pickPostHere | pickPostOther =>
    obtain ⟨rfl, rfl⟩ := action
    exact .inr (.inr ⟨leaves, rfl, rfl⟩)
  case arrivePostThere here =>
    obtain ⟨rfl, rfl⟩ := action
    cases here <;> cases leaves
  all_goals
    obtain ⟨rfl, rfl⟩ := action
    cases leaves

theorem Signals.driver_boardedAt (closed : pc.opens = false) : (r.driver pc).boardedAt = r.boardedAt := by
  cases pc <;> first | rfl | cases closed

theorem driver_traced
    (moved : shuttleDriver capacity s.shared s.driver = some (g, pc)) (signalled : Signalled s) (traced : Traced s r)
    (settled : s.driver.opens = true → s.shared.woken + weigh AttendeePc.boarding s.attendee = 0)
    (tokens : ∀ stop, 0 ≤ (s.shared.busStop stop).value) :
    Traced { s with shared := g, driver := pc, history := s.history.driver s.shared s.driver } (r.driver s.driver) := by
  obtain ⟨count, elsewhere, boarders, posters⟩ := traced
  refine ⟨shuttleDriver_posted moved count, fun stop visits => ?_, fun stop visits i boards => ?_,
    fun stop leaves aboard poster member => ?_⟩
  · rcases shuttleDriver_visit moved visits with ⟨opens, same⟩ | ⟨visited, same, _⟩
    · have none := settled opens
      have atA := tokens .A
      have atB := tokens .B
      simp only [Shared.woken] at none
      simp only [same]
      cases stop <;> simp only [Stop.other] <;> omega
    · simp only [same]
      exact elsewhere stop visited
  · rcases shuttleDriver_visit moved visits with ⟨opens, _⟩ | ⟨visited, _, closed⟩
    · have none := settled opens
      have atA := tokens .A
      have atB := tokens .B
      have counted := le_weigh AttendeePc.boarding s.attendee i
      simp only [Shared.woken] at none
      simp only at boards
      omega
    · rw [Signals.driver_boardedAt closed]
      exact boarders stop visited i boards
  · rcases shuttleDriver_leaving (r := r) moved leaves aboard with ⟨loops, same⟩ | ⟨⟨here, empty⟩, same⟩ |
      ⟨left, same, kept⟩
    · have owed := signalled.owed
      rw [loops] at owed
      have none : r.posted = [] := List.length_eq_zero_iff.mp (by have := owed.1; omega)
      rw [same, none] at member
      cases member
    · have owed := signalled.owed
      rw [empty] at owed
      have nobody : s.shared.passengers = 0 := owed.2.2.2.2
      simp only [same, nobody] at aboard
      omega
    · rw [kept] at member
      exact posters stop left (same ▸ aboard) poster member

theorem attendee_traces {pc pc' : AttendeePc} (action : attendee capacity g pc = some (g', pc'))
    (r : Signals attendees) (i : Fin attendees) :
    (∃ stop, pc = .waitBusStop stop ∧ 0 < (g.busStop stop).value ∧ g'.startShuttle = g.startShuttle ∧
      ∀ other, other ≠ stop → g'.busStop other = g.busStop other) ∨
    (∃ stop, pc = .postStart stop ∧ pc'.boarding = 0 ∧ g'.startShuttle = zemPost g.startShuttle ∧
      g'.busStop = g.busStop) ∨
    (pc'.boarding ≤ pc.boarding ∧ r.attendee i pc = r ∧ g'.startShuttle = g.startShuttle ∧ g'.busStop = g.busStop) := by
  cases pc <;> simp only [attendee, Option.map_eq_some_iff, Option.some.injEq, Prod.mk.injEq] at action
  case waitBusStop stop =>
    obtain ⟨z, taken, rfl, rfl⟩ := action
    exact .inl ⟨stop, rfl, (zemWait_eq_some.mp taken).1, rfl, fun other distinct => Function.update_of_ne distinct _ _⟩
  case postStart stop =>
    obtain ⟨rfl, rfl⟩ := action
    exact .inr (.inl ⟨stop, rfl, rfl, rfl, rfl⟩)
  case boardTest =>
    split at action <;> cases action <;> exact .inr (.inr ⟨by simp [AttendeePc.boarding], rfl, rfl, rfl⟩)
  case queueWait | boardWaitPassengers | boardWaitDoor | boardWaitHere | waitArrived =>
    obtain ⟨z, _, rfl, rfl⟩ := action
    exact .inr (.inr ⟨by simp [AttendeePc.boarding], rfl, rfl, rfl⟩)
  all_goals
    obtain ⟨rfl, rfl⟩ := action
    exact .inr (.inr ⟨by simp [AttendeePc.boarding], rfl, rfl, rfl⟩)

theorem attendee_traced {i : Fin attendees} {pc : AttendeePc}
    (moved : attendee capacity s.shared (s.attendee i) = some (g, pc)) (traced : Traced s r) :
    Traced
      { s with
        shared := g
        attendee := Function.update s.attendee i pc
        history := s.history.attendee i (s.attendee i) }
      (r.attendee i (s.attendee i)) := by
  obtain ⟨count, elsewhere, boarders, posters⟩ := traced
  have passengers : g.passengers = s.shared.passengers := by
    obtain ⟨_, _, _, _, same⟩ := attendee_tokens (h := s.history) (i := i) moved .A
    exact same
  rcases attendee_traces moved r i with ⟨here, start, token, same, kept⟩ | ⟨here, start, done, posted, kept⟩ |
    ⟨fewer, noted, same, kept⟩
  · refine ⟨by simp [same, count, start, Signals.attendee], fun stop visits => ?_, fun stop visits j boards => ?_,
      fun stop leaves aboard => ?_⟩
    · have none := elsewhere stop visits
      have apart : stop.other ≠ here := fun equal => by rw [equal] at none; omega
      simp only [kept _ apart, none]
    · have none := elsewhere stop visits
      have arrived : here = stop := by
        by_contra distinct
        have other : here = stop.other := by cases here <;> cases stop <;> simp_all [Stop.other]
        rw [← other] at none
        omega
      simp only [start, Signals.attendee, Function.update_apply]
      split
      · rw [arrived]
      · next distinct =>
        simp only [Function.update_of_ne distinct] at boards
        exact boarders stop visits j boards
    · simp only [start, Signals.attendee]
      exact posters stop leaves (passengers ▸ aboard)
  · refine ⟨?_, fun stop visits => by simp only [kept]; exact elsewhere stop visits, fun stop visits j boards => ?_,
      fun stop leaves aboard poster member => ?_⟩
    · simp [posted, count, start, Signals.attendee]
    · simp only [start, Signals.attendee]
      by_cases mine : j = i
      · subst mine
        simp only [Function.update_self] at boards
        omega
      · simp only [Function.update_of_ne mine] at boards
        exact boarders stop visits j boards
    · simp only [start, Signals.attendee, List.mem_append, List.mem_singleton] at member
      rcases member with old | rfl
      · exact posters stop leaves (passengers ▸ aboard) poster old
      · refine ⟨i, congrArg _ (boarders stop ?_ i (by rw [start]; rfl))⟩
        simp only at leaves
        simp [leaves, Stage.visit]
  · rw [noted]
    refine ⟨by simp only [same, count], fun stop visits => by simp only [kept]; exact elsewhere stop visits,
      fun stop visits j boards => ?_, fun stop leaves aboard => posters stop leaves (passengers ▸ aboard)⟩
    by_cases mine : j = i
    · subst mine
      simp only [Function.update_self] at boards
      have le : (s.attendee j).boarding ≤ 1 := by cases s.attendee j <;> simp [AttendeePc.boarding]
      exact boarders stop visits j (by omega)
    · simp only [Function.update_of_ne mine] at boards
      exact boarders stop visits j boards

theorem reached_traced (seats : 1 ≤ capacity) {x : State attendees × Signals attendees}
    (reached : (signals attendees capacity).ReachedBy (fun x t => Settled x.1 t) x) : Traced x.1 x.2 := by
  refine reached.invariant (fun x => Traced x.1 x.2) ⟨rfl, ?_, ?_, ?_⟩ ?_
  · simp [signals, System.recorded, system, main, DriverPc.stage, Stage.visit]
  · simp [signals, System.recorded, system, main, DriverPc.stage, Stage.visit]
  · simp [signals, System.recorded, system, main, DriverPc.stage]
  intro before t after previous traced settled action
  obtain ⟨moved, noted⟩ := System.recorded_step action
  have reached := previous.forget
  rw [noted]
  cases t with
  | none =>
    obtain ⟨⟨g, pc⟩, driven, same⟩ := Option.map_eq_some_iff.mp moved
    rw [← same]
    exact driver_traced driven (reached_signalled seats reached) traced (settled rfl)
      fun stop => (reachable_conserved reached.reachable stop).tokens
  | some i =>
    obtain ⟨⟨g, pc⟩, walked, same⟩ := Option.map_eq_some_iff.mp moved
    rw [← same]
    exact attendee_traced walked traced

theorem Owed.le_one {owing posting : ℤ} {stage : Stage} (owed : Owed g owing posting stage)
    (posts : 0 ≤ posting) : g.startShuttle.value ≤ 1 := by
  cases stage <;> simp only [Owed] at owed <;> omega

theorem oneSignal_of_settled (seats : 1 ≤ capacity) {x : State attendees × Signals attendees}
    (reached : (signals attendees capacity).ReachedBy (fun x t => Settled x.1 t) x) : OneSignal x := by
  have traced := reached_traced seats reached
  have owed := (reached_signalled seats reached.forget).owed
  refine ⟨owed.le_one (by simp), fun opens => ?_, fun stop waits signal aboard => ?_⟩
  · cases driver : x.1.driver <;> simp only [driver, DriverPc.opens, Bool.false_eq_true] at opens
    rw [driver] at owed
    exact owed.1
  · have posters := traced.posters stop (by rw [waits]; rfl) aboard
    have count := traced.count
    cases posted : x.2.posted with
    | nil =>
      simp only [posted, List.length_nil, Nat.cast_zero] at count
      omega
    | cons first rest =>
      obtain ⟨i, rfl⟩ := posters first (by simp [posted])
      exact ⟨i, rfl⟩

/-! ## When it holds of every run -/

theorem settled_of_one (one : attendees = 1 ∨ capacity = 1) (seats : 1 ≤ capacity)
    (reachable : (system attendees capacity).Reachable s) (t : Option (Fin attendees)) : Settled s t := by
  intro _ opens
  have single := reachable_single one seats reachable
  unfold Single at single
  cases driver : s.driver <;> simp only [driver, DriverPc.opens, Bool.false_eq_true] at opens
  rw [driver] at single
  exact single.2.1

theorem openB_scene (tokens : ℤ) :
    repeatStep (shuttleDriver capacity) 5 (scene tokens 0 1 0 1 0 0 0 1 0) (.arrivePostPassengers .A) =
      some (scene tokens 0 0 0 1 1 0 1 1 0, .pickWaitHere .B) := by
  simp [repeatStep, shuttleDriver, scene, zemWait, zemPost, Stop.other]

theorem lateSignal_scene (tokens : ℤ) :
    repeatStep (attendee capacity) 9 (scene tokens 0 0 0 1 1 0 1 1 0) (.boardWaitPassengers .A) =
      some (scene tokens 1 1 0 1 1 0 1 1 0, .waitArrived .A) := by
  simp [repeatStep, attendee, scene, zemWait, zemPost]

theorem justLeave_scene (tokens : ℤ) :
    repeatStep (shuttleDriver capacity) 5 (scene tokens 1 1 0 1 1 0 1 1 0) (.pickWaitHere .B) =
      some (scene tokens 2 1 0 0 0 0 0 1 0, .pickPostPassengers .B) := by
  simp [repeatStep, shuttleDriver, scene, zemWait, zemPost, Stop.other]

theorem two_signals_reachable (attendees : ℕ) (capacity : ℤ) (people : 2 ≤ attendees) (seats : 2 ≤ capacity) :
    ∃ x, (signals attendees capacity).Reachable x ∧ x.1.shared.startShuttle.value = 2 := by
  let i : Fin attendees := ⟨0, by omega⟩
  let j : Fin attendees := ⟨1, by omega⟩
  have distinct : i ≠ j := by simp [i, j]
  have late := visited_lateBoarder seats distinct
  have signalled := (late.drive 5 (openB_scene capacity)).moveSecond distinct 9 (lateSignal_scene capacity)
  obtain ⟨s, reachable, shared, _⟩ := signalled.drive 5 (justLeave_scene capacity)
  obtain ⟨r, recorded⟩ := System.Reachable.record reachable _ _
  exact ⟨(s, r), recorded, by simp [shared, scene]⟩

theorem one_signal_iff (people : 1 ≤ attendees) (seats : 1 ≤ capacity) :
    (∀ x, (signals attendees capacity).ReachedBy (fun x t => Settled x.1 t) x → OneSignal x) ∧
    ((∀ x, (signals attendees capacity).Reachable x → OneSignal x) ↔ attendees = 1 ∨ capacity = 1) := by
  refine ⟨fun x => oneSignal_of_settled seats, fun always => ?_, fun one x reachable => ?_⟩
  · by_contra several
    obtain ⟨x, reachable, two⟩ := two_signals_reachable attendees capacity (by omega) (by omega)
    have bound := (always x reachable).1
    omega
  · exact oneSignal_of_settled seats
      (reachable.reachedBy fun y t reached => settled_of_one one seats reached.forget t)

theorem one_signal_iff_oneSeat :
    (∀ x, (signals 100 1).Reachable x → OneSignal x) ∧
      ∀ x, (signals 100 30).ReachedBy (fun x t => Settled x.1 t) x → OneSignal x :=
  ⟨(one_signal_iff (by decide) (by decide)).2.mpr (.inr rfl), (one_signal_iff (by decide) (by decide)).1⟩

theorem shuttle_signals_twice : ∃ x, (signals 100 30).Reachable x ∧ ¬ OneSignal x := by
  obtain ⟨x, reachable, two⟩ := two_signals_reachable 100 30 (by decide) (by decide)
  refine ⟨x, reachable, fun one => ?_⟩
  have bound := one.1
  omega

end OsProjects.Shuttle

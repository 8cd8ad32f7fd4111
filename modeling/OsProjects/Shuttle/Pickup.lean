import OsProjects.Shuttle.Arrival
import OsProjects.Transition.Recorded

namespace OsProjects.Shuttle
open Threads Transition

variable {attendees : ℕ} {capacity : ℤ}

/-! ## Attendees picked up on the current trip -/

def DriverPc.stop : DriverPc → Stop
  | .debugWaitA | .debugWaitB | .debugWaitPassengers | .debugPostA | .debugPostB | .debugPostPassengers => .A
  | .doorWait stop | .doorOpen stop | .doorPost stop
  | .pickWaitHere stop | .pickWaitOther stop | .pickWaitPassengers stop | .pickTest stop | .pickLoop stop
  | .pickTake stop | .pickWake stop | .pickCount stop | .justLeave stop
  | .pickPostPassengers stop | .pickPostHere stop | .pickPostOther stop | .waitStart stop | .travel stop
  | .arriveWaitThere stop | .arriveWaitPassengers stop | .dropOff stop | .wakeAll stop _
  | .arrivePostPassengers stop | .arrivePostThere stop => stop

def DriverPc.seating : DriverPc → Bool
  | .pickTake _ | .pickWake _ | .pickCount _ => true
  | _ => false

/-- The attendees woken at each stop by `Zem_post(&bus_stop)` since `passengers` was last reset. -/
def notePickup (driver : DriverPc) (pickedUp : Stop → ℕ) : Stop → ℕ :=
  match driver with
  | .pickWake stop => Function.update pickedUp stop (pickedUp stop + 1)
  | .dropOff _ => fun _ => 0
  | _ => pickedUp

def trips (attendees : ℕ) (capacity : ℤ) : System (State attendees × (Stop → ℕ)) (Option (Fin attendees)) :=
  (system attendees capacity).recorded (fun _ => 0) fun s t pickedUp =>
    match t with
    | none => notePickup s.driver pickedUp
    | some _ => pickedUp

structure PickedUp (capacity : ℤ) (g : Shared) (driver : DriverPc) (pickedUp : Stop → ℕ) : Prop where
  seat : driver.seating = true → g.passengers < capacity
  full : g.passengers ≤ capacity
  here : g.passengers + driver.uncounted = pickedUp driver.stop
  elsewhere : pickedUp driver.stop.other = 0

theorem shuttleDriver_pickedUp {g g' : Shared} {pc pc' : DriverPc} {pickedUp : Stop → ℕ}
    (action : shuttleDriver capacity g pc = some (g', pc')) (seats : 0 ≤ capacity)
    (idle : pc.carries = none → g.passengers = 0) (held : PickedUp capacity g pc pickedUp) :
    PickedUp capacity g' pc' (notePickup pc pickedUp) := by
  obtain ⟨seat, full, here, elsewhere⟩ := held
  cases pc <;> simp only [shuttleDriver, Option.map_eq_some_iff, Option.some.injEq, Prod.mk.injEq] at action
  case pickTest | wakeAll => split at action <;> cases action <;> exact ⟨by simp [DriverPc.seating], full, here, elsewhere⟩
  case pickLoop =>
    split at action
    · next more =>
      cases action
      exact ⟨fun _ => more.2, full, here, elsewhere⟩
    · cases action
      exact ⟨by simp [DriverPc.seating], full, here, elsewhere⟩
  case pickTake stop =>
    obtain ⟨rfl, rfl⟩ := action
    exact ⟨fun _ => seat rfl, full, here, elsewhere⟩
  case pickWake stop =>
    obtain ⟨rfl, rfl⟩ := action
    refine ⟨fun _ => seat rfl, full, ?_, ?_⟩
    · simp only [DriverPc.uncounted, DriverPc.stop, notePickup, Function.update_self] at here ⊢
      omega
    · simpa [notePickup, DriverPc.stop] using elsewhere
  case pickCount stop =>
    obtain ⟨rfl, rfl⟩ := action
    have room := seat rfl
    refine ⟨by simp [DriverPc.seating], ?_, ?_, elsewhere⟩
    · simp only
      omega
    · simpa [DriverPc.uncounted, DriverPc.stop, notePickup] using here
  case dropOff stop =>
    obtain ⟨rfl, rfl⟩ := action
    exact ⟨by simp [DriverPc.seating], seats, by simp [DriverPc.uncounted, notePickup], rfl⟩
  case arrivePostThere stop =>
    obtain ⟨rfl, rfl⟩ := action
    have empty := idle rfl
    simp only [DriverPc.uncounted, DriverPc.stop] at here elsewhere
    have nobody : ∀ place, pickedUp place = 0 := by
      intro place
      cases place <;> cases stop <;> simp only [Stop.other] at here elsewhere <;> omega
    refine ⟨by cases stop <;> simp [DriverPc.seating], full, ?_, nobody _⟩
    cases stop <;> simp [DriverPc.uncounted, notePickup, nobody, empty]
  case debugWaitA | debugWaitB | debugWaitPassengers | doorWait | pickWaitHere | pickWaitOther
      | pickWaitPassengers | waitStart | arriveWaitThere | arriveWaitPassengers =>
      obtain ⟨z, _, rfl, rfl⟩ := action
      exact ⟨by simp [DriverPc.seating], full, here, elsewhere⟩
  all_goals
    obtain ⟨rfl, rfl⟩ := action
    exact ⟨by simp [DriverPc.seating], full, here, elsewhere⟩

theorem reachable_pickedUp (seats : 1 ≤ capacity) {x : State attendees × (Stop → ℕ)}
    (reachable : (trips attendees capacity).Reachable x) : PickedUp capacity x.1.shared x.1.driver x.2 := by
  refine reachable.invariant (fun x => PickedUp capacity x.1.shared x.1.driver x.2)
    ⟨by simp [trips, System.recorded, system, main, DriverPc.seating],
      by simp [trips, System.recorded, system, main]; omega,
      by simp [trips, System.recorded, system, main, DriverPc.uncounted], rfl⟩ ?_
  intro before t after previous held action
  obtain ⟨moved, noted⟩ := System.recorded_step action
  rw [noted]
  cases t with
  | none =>
    obtain ⟨⟨g, pc⟩, driven, same⟩ := Option.map_eq_some_iff.mp moved
    rw [← same]
    exact shuttleDriver_pickedUp driven (by omega) (reachable_carried previous.forget .A).idle held
  | some i =>
    obtain ⟨⟨g, pc⟩, walked, same⟩ := Option.map_eq_some_iff.mp moved
    obtain ⟨_, _, _, _, passengers⟩ := attendee_tokens (h := before.1.history) (i := i) walked .A
    rw [← same]
    exact ⟨fun sits => passengers ▸ held.seat sits, passengers ▸ held.full, by simpa [passengers] using held.here,
      held.elsewhere⟩

/-! ## Conservation -/

def queuedAt (s : State attendees) (stop : Stop) : Finset (Fin attendees) :=
  Finset.univ.filter fun i => s.attendee i = .queuePost stop ∨ s.attendee i = .waitBusStop stop

theorem weigh_queued (s : State attendees) (stop : Stop) :
    weigh (AttendeePc.queued stop) s.attendee = (queuedAt s stop).card := by
  rw [queuedAt, Finset.card_filter]
  refine Finset.sum_congr rfl fun i _ => ?_
  cases s.attendee i <;> simp [AttendeePc.queued]

theorem waking_eq_zero {driver : DriverPc} {stop : Stop} (released : Mutex.waiting stop ∉ driver.held) :
    driver.waking stop = 0 := by
  cases driver <;> simp only [DriverPc.waking]
  case pickWake here =>
    have elsewhere : here ≠ stop := by
      rintro rfl
      simp [DriverPc.held] at released
    rw [if_neg elsewhere]

theorem Conserved.queuedAt {s : State attendees} {stop : Stop} (conserved : Conserved s stop)
    (mutex : MutexAccounted s (.waiting stop)) (free : (s.shared.waitingMutex stop).value = 1) :
    s.shared.waitingAt stop + (s.shared.busStop stop).value = (queuedAt s stop).card := by
  have queue := conserved.queue
  obtain ⟨_, balance⟩ := mutex
  simp only [Shared.mutex, free] at balance
  have released : Mutex.waiting stop ∉ s.driver.held := List.count_eq_zero.mp (by omega)
  rw [weigh_queued, waking_eq_zero released] at queue
  omega

theorem uncounted_eq_zero {driver : DriverPc} (released : Mutex.passengers ∉ driver.held) : driver.uncounted = 0 := by
  cases driver <;> simp_all [DriverPc.uncounted, DriverPc.held]

theorem passengers_conserved (seats : 1 ≤ capacity) (s : State attendees)
    (pickedUp : Stop → ℕ) (reachable : (trips attendees capacity).Reachable (s, pickedUp)) :
    0 ≤ s.shared.passengers ∧ s.shared.passengers ≤ capacity ∧
    (∀ stop, 0 ≤ s.shared.waitingAt stop) ∧
    (∀ stop, (s.shared.waitingMutex stop).value = 1 →
      s.shared.waitingAt stop + (s.shared.busStop stop).value = (queuedAt s stop).card) ∧
    s.shared.passengers + s.driver.uncounted = pickedUp s.driver.stop ∧ pickedUp s.driver.stop.other = 0 ∧
    (s.shared.passengersMutex.value = 1 → s.shared.passengers = pickedUp s.driver.stop) := by
  have reached : (system attendees capacity).Reachable s := reachable.forget
  have conserved := reachable_conserved reached
  have mutex := reachable_mutex reached
  have picked : PickedUp capacity s.shared s.driver pickedUp := reachable_pickedUp seats reachable
  refine ⟨(reachable_carried reached .A).nonneg, picked.full, fun stop => (conserved stop).waiting,
    fun stop => (conserved stop).queuedAt (mutex _), picked.here, picked.elsewhere, fun free => ?_⟩
  obtain ⟨_, balance⟩ := mutex .passengers
  simp only [Shared.mutex, free] at balance
  have here := picked.here
  rw [uncounted_eq_zero (List.count_eq_zero.mp (by omega))] at here
  simpa using here

/-- Two attendees queue at A, the driver wakes one for its only seat, and the other still waits. -/
def oneSeat : List (Option (Fin 2)) :=
  List.replicate 3 (some 0) ++ List.replicate 3 (some 1) ++ List.replicate 20 none

theorem passengers_conserved_oneSeat :
    ∃ s pickedUp, (trips 2 1).run (main 2, fun _ => 0) oneSeat = some (s, pickedUp) ∧
      s.shared.passengers = 1 ∧ pickedUp .A = 1 ∧
      s.shared.waitingAt .A + (s.shared.busStop .A).value = (queuedAt s .A).card := by
  have checked : ((trips 2 1).run (main 2, fun _ => 0) oneSeat).map (fun x =>
      (x.1.shared.passengers, x.2 .A, (x.1.shared.waitingMutex .A).value)) = some (1, 1, 1) := by decide +kernel
  obtain ⟨⟨s, pickedUp⟩, result, facts⟩ := Option.map_eq_some_iff.mp checked
  simp only [Prod.mk.injEq] at facts
  have conserved := passengers_conserved (by decide) s pickedUp (System.Reachable.run .initial result)
  exact ⟨s, pickedUp, result, facts.1, facts.2.1, conserved.2.2.2.1 .A facts.2.2⟩

end OsProjects.Shuttle

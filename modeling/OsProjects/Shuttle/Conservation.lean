import OsProjects.Shuttle.Mutex

namespace OsProjects.Shuttle
open Threads Transition

variable {attendees : ℕ} {capacity : ℤ}

def AttendeePc.queued (stop : Stop) : AttendeePc → ℕ
  | .queuePost here | .waitBusStop here => if here = stop then 1 else 0
  | _ => 0

def DriverPc.waking (stop : Stop) : DriverPc → ℕ
  | .pickWake here => if here = stop then 1 else 0
  | _ => 0

theorem attendee_queue {g g' : Shared} {pc pc' : AttendeePc}
    (action : attendee capacity g pc = some (g', pc')) (stop : Stop) :
    g'.waitingAt stop + (g'.busStop stop).value + pc.queued stop =
        g.waitingAt stop + (g.busStop stop).value + pc'.queued stop ∧
      g.waitingAt stop ≤ g'.waitingAt stop ∧
      (0 ≤ (g.busStop stop).value → 0 ≤ (g'.busStop stop).value) := by
  cases pc <;> simp only [attendee, Option.map_eq_some_iff, zemWait_eq_some, Option.some.injEq,
    Prod.mk.injEq] at action
  case boardTest here => split at action <;> cases action <;> simp [AttendeePc.queued]
  case queueWait | waitBusStop | boardWaitPassengers | boardWaitDoor | boardWaitHere | waitArrived =>
    obtain ⟨z, ⟨positive, value⟩, rfl, rfl⟩ := action
    simp [AttendeePc.queued, Function.update_apply] <;> grind
  all_goals
    obtain ⟨rfl, rfl⟩ := action
    simp [AttendeePc.queued, Function.update_apply] <;> grind

theorem shuttleDriver_queue {g g' : Shared} {pc pc' : DriverPc}
    (action : shuttleDriver capacity g pc = some (g', pc')) (stop : Stop)
    (nonneg : 0 ≤ g.waitingAt stop) (taking : pc = .pickTake stop → 0 < g.waitingAt stop) :
    g'.waitingAt stop + (g'.busStop stop).value + pc'.waking stop =
        g.waitingAt stop + (g.busStop stop).value + pc.waking stop ∧
      0 ≤ g'.waitingAt stop ∧ (pc' = .pickTake stop → 0 < g'.waitingAt stop) ∧
      (g.busStop stop).value ≤ (g'.busStop stop).value := by
  cases pc <;> simp only [shuttleDriver, Option.map_eq_some_iff, zemWait_eq_some, Option.some.injEq,
    Prod.mk.injEq] at action
  case pickTest here => split at action <;> cases action <;> simp [DriverPc.waking, nonneg]
  case pickLoop here =>
    split at action <;> cases action <;> simp only [DriverPc.waking]
    all_goals grind
  case wakeAll here i => split at action <;> cases action <;> simp [DriverPc.waking, nonneg]
  case debugWaitA | debugWaitB | debugWaitPassengers | doorWait | pickWaitHere | pickWaitOther
      | pickWaitPassengers | waitStart | arriveWaitThere | arriveWaitPassengers =>
      obtain ⟨z, ⟨positive, value⟩, rfl, rfl⟩ := action
      simp [DriverPc.waking, nonneg]
  case arrivePostThere here =>
    obtain ⟨rfl, rfl⟩ := action
    cases here <;> simp [DriverPc.waking, nonneg]
  all_goals
    obtain ⟨rfl, rfl⟩ := action
    simp only [DriverPc.waking, Function.update_apply]
    grind

structure Conserved (s : State attendees) (stop : Stop) : Prop where
  waiting : 0 ≤ s.shared.waitingAt stop
  tokens : 0 ≤ (s.shared.busStop stop).value
  taking : s.driver = .pickTake stop → 0 < s.shared.waitingAt stop
  queue : s.shared.waitingAt stop + (s.shared.busStop stop).value + s.driver.waking stop =
    weigh (AttendeePc.queued stop) s.attendee

theorem main_conserved (attendees : ℕ) (stop : Stop) : Conserved (main attendees) stop where
  waiting := by simp [main]
  tokens := by simp [main]
  taking := by simp [main]
  queue := by simp [main, weigh, DriverPc.waking, AttendeePc.queued]

theorem step_conserved {s after : State attendees} {t : Option (Fin attendees)} {stop : Stop}
    (conserved : Conserved s stop) (action : step capacity s t = some after) : Conserved after stop := by
  obtain ⟨waiting, tokens, taking, queue⟩ := conserved
  cases t with
  | none =>
    obtain ⟨⟨g, pc⟩, moved, rfl⟩ := Option.map_eq_some_iff.mp action
    obtain ⟨balance, nonneg, next, posted⟩ := shuttleDriver_queue moved stop waiting taking
    exact ⟨nonneg, tokens.trans posted, next, by simp only; omega⟩
  | some i =>
    obtain ⟨⟨g, pc⟩, moved, rfl⟩ := Option.map_eq_some_iff.mp action
    obtain ⟨balance, grows, nonneg⟩ := attendee_queue moved stop
    have recount := weigh_update (AttendeePc.queued stop) s.attendee i pc
    refine ⟨waiting.trans grows, nonneg tokens, fun driver => (taking driver).trans_le grows, ?_⟩
    simp only
    omega

theorem reachable_conserved {s : State attendees} (reachable : (system attendees capacity).Reachable s)
    (stop : Stop) : Conserved s stop :=
  reachable.invariant (Conserved · stop) (main_conserved attendees stop)
    fun _ _ _ _ conserved action => step_conserved conserved action

end OsProjects.Shuttle

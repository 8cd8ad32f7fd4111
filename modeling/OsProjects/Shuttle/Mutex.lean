import OsProjects.Shuttle.Model

namespace OsProjects.Shuttle
open Threads Transition

inductive Mutex
  | waiting (stop : Stop) | passengers | door
  deriving DecidableEq, Repr

def Shared.mutex (g : Shared) : Mutex → Zem
  | .waiting stop => g.waitingMutex stop
  | .passengers => g.passengersMutex
  | .door => g.doorMutex

def AttendeePc.held : AttendeePc → List Mutex
  | .queueCount stop | .queuePost stop => [.waiting stop]
  | .boardWaitDoor _ | .boardPostPassengers _ => [.passengers]
  | .boardWaitHere _ | .boardPostDoor _ => [.passengers, .door]
  | .boardTest stop | .closeDoor stop | .postStart stop | .boardPostHere stop =>
    [.passengers, .door, .waiting stop]
  | .queueWait _ | .waitBusStop _ | .boardWaitPassengers _ | .waitArrived _ => []

def DriverPc.held : DriverPc → List Mutex
  | .debugWaitB => [.waiting .A]
  | .debugWaitPassengers => [.waiting .A, .waiting .B]
  | .debugPostA => [.waiting .A, .waiting .B, .passengers]
  | .debugPostB => [.waiting .B, .passengers]
  | .debugPostPassengers => [.passengers]
  | .doorOpen _ | .doorPost _ => [.door]
  | .pickWaitOther stop => [.waiting stop]
  | .pickWaitPassengers stop | .pickPostHere stop => [.waiting stop, .waiting stop.other]
  | .pickTest stop | .pickLoop stop | .pickTake stop | .pickWake stop | .pickCount stop
  | .justLeave stop | .pickPostPassengers stop => [.waiting stop, .waiting stop.other, .passengers]
  | .pickPostOther stop | .arriveWaitPassengers stop | .arrivePostThere stop => [.waiting stop.other]
  | .dropOff stop | .wakeAll stop _ | .arrivePostPassengers stop => [.waiting stop.other, .passengers]
  | .debugWaitA | .doorWait _ | .pickWaitHere _ | .waitStart _ | .travel _ | .arriveWaitThere _ => []

def AttendeePc.waitsOn : AttendeePc → Option Mutex
  | .queueWait stop | .boardWaitHere stop => some (.waiting stop)
  | .boardWaitPassengers _ => some .passengers
  | .boardWaitDoor _ => some .door
  | _ => none

def DriverPc.waitsOn : DriverPc → Option Mutex
  | .debugWaitA => some (.waiting .A)
  | .debugWaitB => some (.waiting .B)
  | .debugWaitPassengers | .pickWaitPassengers _ | .arriveWaitPassengers _ => some .passengers
  | .doorWait _ => some .door
  | .pickWaitHere stop => some (.waiting stop)
  | .pickWaitOther stop | .arriveWaitThere stop => some (.waiting stop.other)
  | _ => none

variable {attendees : ℕ} {capacity : ℤ} {s : State attendees} {m : Mutex}

def Holds (s : State attendees) : Option (Fin attendees) → Mutex → Prop
  | none, m => m ∈ s.driver.held
  | some i, m => m ∈ (s.attendee i).held

def BlockedOn (s : State attendees) (t : Option (Fin attendees)) (m : Mutex) : Prop :=
  (match t with | none => s.driver.waitsOn | some i => (s.attendee i).waitsOn) = some m ∧
    (s.shared.mutex m).value ≤ 0

def Deadlocked (s : State attendees) : Prop := CircularWait (BlockedOn s) (Holds s)

@[simp] theorem Stop.other_ne (stop : Stop) : stop.other ≠ stop := by cases stop <;> decide

@[simp] theorem Stop.ne_other (stop : Stop) : stop ≠ stop.other := by cases stop <;> decide

@[simp] theorem Stop.other_other (stop : Stop) : stop.other.other = stop := by cases stop <;> rfl

/-! ## Each mutex is free or with one thread -/

theorem attendee_mutex {g g' : Shared} {pc pc' : AttendeePc}
    (action : attendee capacity g pc = some (g', pc')) (m : Mutex) :
    (g'.mutex m).value + pc'.held.count m = (g.mutex m).value + pc.held.count m ∧
      (0 ≤ (g.mutex m).value → 0 ≤ (g'.mutex m).value) := by
  cases pc <;> simp only [attendee, Option.map_eq_some_iff, zemWait_eq_some, Option.some.injEq,
    Prod.mk.injEq] at action
  case boardTest stop => split at action <;> cases action <;> simp [AttendeePc.held]
  case queueWait | waitBusStop | boardWaitPassengers | boardWaitDoor | boardWaitHere | waitArrived =>
    obtain ⟨z, ⟨positive, value⟩, rfl, rfl⟩ := action
    rcases m with stop | _ | _ <;>
      simp [Shared.mutex, AttendeePc.held, Function.update_apply, List.count_cons] <;> grind
  all_goals
    obtain ⟨rfl, rfl⟩ := action
    rcases m with stop | _ | _ <;>
      simp [Shared.mutex, AttendeePc.held, Function.update_apply, List.count_cons] <;> grind

theorem shuttleDriver_mutex {g g' : Shared} {pc pc' : DriverPc}
    (action : shuttleDriver capacity g pc = some (g', pc')) (m : Mutex) :
    (g'.mutex m).value + pc'.held.count m = (g.mutex m).value + pc.held.count m ∧
      (0 ≤ (g.mutex m).value → 0 ≤ (g'.mutex m).value) := by
  cases pc <;> simp only [shuttleDriver, Option.map_eq_some_iff, zemWait_eq_some, Option.some.injEq,
    Prod.mk.injEq] at action
  case pickTest stop => split at action <;> cases action <;> simp [DriverPc.held]
  case pickLoop stop => split at action <;> cases action <;> simp [DriverPc.held]
  case wakeAll stop i => split at action <;> cases action <;> cases m <;> simp [Shared.mutex, DriverPc.held]
  case debugWaitA | debugWaitB | debugWaitPassengers | doorWait | pickWaitHere | pickWaitOther
      | pickWaitPassengers | waitStart | arriveWaitThere | arriveWaitPassengers =>
      obtain ⟨z, ⟨positive, value⟩, rfl, rfl⟩ := action
      rcases m with stop | _ | _ <;>
        simp [Shared.mutex, DriverPc.held, Function.update_apply, List.count_cons] <;> grind
  case arrivePostThere stop =>
    obtain ⟨rfl, rfl⟩ := action
    rcases m with other | _ | _ <;> cases stop <;>
      simp [Shared.mutex, DriverPc.held, Function.update_apply, List.count_cons] <;> grind
  all_goals
    obtain ⟨rfl, rfl⟩ := action
    rcases m with other | _ | _ <;>
      simp [Shared.mutex, DriverPc.held, Function.update_apply, List.count_cons] <;> grind

def MutexAccounted (s : State attendees) (m : Mutex) : Prop :=
  0 ≤ (s.shared.mutex m).value ∧
    (s.shared.mutex m).value + s.driver.held.count m + weigh (·.held.count m) s.attendee = 1

theorem step_mutex {after : State attendees} {t : Option (Fin attendees)}
    (accounted : MutexAccounted s m) (action : step capacity s t = some after) : MutexAccounted after m := by
  obtain ⟨nonneg, balance⟩ := accounted
  cases t with
  | none =>
    obtain ⟨⟨g, pc⟩, moved, rfl⟩ := Option.map_eq_some_iff.mp action
    have effect := shuttleDriver_mutex moved m
    exact ⟨effect.2 nonneg, by simp only; omega⟩
  | some i =>
    obtain ⟨⟨g, pc⟩, moved, rfl⟩ := Option.map_eq_some_iff.mp action
    have effect := attendee_mutex moved m
    have recount := weigh_update (·.held.count m) s.attendee i pc
    exact ⟨effect.2 nonneg, by simp only; omega⟩

theorem reachable_mutex (reachable : (system attendees capacity).Reachable s) (m : Mutex) : MutexAccounted s m :=
  reachable.invariant (MutexAccounted · m)
    (by cases m <;> simp [system, main, MutexAccounted, Shared.mutex, weigh, DriverPc.held, AttendeePc.held])
    fun _ _ _ _ accounted action => step_mutex accounted action

theorem MutexAccounted.driver_excludes (accounted : MutexAccounted s m)
    (mine : m ∈ s.driver.held) (i : Fin attendees) : m ∉ (s.attendee i).held := by
  intro theirs
  obtain ⟨nonneg, balance⟩ := accounted
  have one := List.count_pos_iff.mpr mine
  have other := List.count_pos_iff.mpr theirs
  have bound := le_weigh (·.held.count m) s.attendee i
  omega

theorem MutexAccounted.attendee_excludes (accounted : MutexAccounted s m)
    {i j : Fin attendees} (mine : m ∈ (s.attendee i).held) (theirs : m ∈ (s.attendee j).held) : i = j := by
  by_contra distinct
  obtain ⟨nonneg, balance⟩ := accounted
  have one := List.count_pos_iff.mpr mine
  have other := List.count_pos_iff.mpr theirs
  have both := pair_le_weigh (·.held.count m) s.attendee distinct
  omega

end OsProjects.Shuttle

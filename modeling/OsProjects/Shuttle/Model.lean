import OsProjects.Slots.Sizes
import OsProjects.Threads.Zemaphore
import OsProjects.Transition.System
import OsProjects.Transition.WaitFor
import OsProjects.Transition.Count
import Mathlib.Tactic

namespace OsProjects.Shuttle
open Threads Transition

inductive Stop
  | A | B
  deriving DecidableEq, Repr

def Stop.other : Stop → Stop
  | .A => .B
  | .B => .A

/-- The next step of an attendee. The code for the two stops differs only in the letters, so each
place names the stop the attendee waits at or has boarded at. -/
inductive AttendeePc
  | queueWait (stop : Stop) | queueCount (stop : Stop) | queuePost (stop : Stop)
  | waitBusStop (stop : Stop)
  | boardWaitPassengers (stop : Stop) | boardWaitDoor (stop : Stop) | boardWaitHere (stop : Stop)
  | boardTest (stop : Stop) | closeDoor (stop : Stop) | postStart (stop : Stop)
  | boardPostHere (stop : Stop) | boardPostDoor (stop : Stop) | boardPostPassengers (stop : Stop)
  | waitArrived (stop : Stop)
  deriving DecidableEq, Repr

inductive DriverPc
  | debugWaitA | debugWaitB | debugWaitPassengers | debugPostA | debugPostB | debugPostPassengers
  | doorWait (stop : Stop) | doorOpen (stop : Stop) | doorPost (stop : Stop)
  | pickWaitHere (stop : Stop) | pickWaitOther (stop : Stop) | pickWaitPassengers (stop : Stop)
  | pickTest (stop : Stop) | pickLoop (stop : Stop)
  | pickTake (stop : Stop) | pickWake (stop : Stop) | pickCount (stop : Stop)
  | justLeave (stop : Stop)
  | pickPostPassengers (stop : Stop) | pickPostHere (stop : Stop) | pickPostOther (stop : Stop)
  | waitStart (stop : Stop) | travel (stop : Stop)
  | arriveWaitThere (stop : Stop) | arriveWaitPassengers (stop : Stop) | dropOff (stop : Stop)
  | wakeAll (stop : Stop) (i : ℕ)
  | arrivePostPassengers (stop : Stop) | arrivePostThere (stop : Stop)
  deriving DecidableEq, Repr

/-- The global variables of `shuttles-problem.c`, with `_A` and `_B` as a function of the stop. -/
structure Shared where
  arrived : Stop → Zem
  startShuttle : Zem
  doorMutex : Zem
  door : ℤ
  busStop : Stop → Zem
  waitingMutex : Stop → Zem
  waitingAt : Stop → ℤ
  passengersMutex : Zem
  passengers : ℤ

/-- What a run has done so far; no step reads it. -/
structure History (attendees : ℕ) where
  /-- completed `Zem_wait(&bus_stop)` calls -/
  boarded : Stop → ℕ
  /-- completed `Zem_wait(&arrived)` calls -/
  left : Stop → ℕ
  /-- the values of `passengers` just before it is reset on arrival, summed up -/
  delivered : Stop → ℤ
  /-- the place of an attendee's last boarding in the order of all boardings at that stop -/
  ticket : Fin attendees → ℕ

structure State (attendees : ℕ) where
  shared : Shared
  driver : DriverPc
  attendee : Fin attendees → AttendeePc
  history : History attendees

def attendee (capacity : ℤ) (g : Shared) : AttendeePc → Option (Shared × AttendeePc)
  | .queueWait stop => (zemWait (g.waitingMutex stop)).map fun z =>
    ({ g with waitingMutex := Function.update g.waitingMutex stop z }, .queueCount stop)
  | .queueCount stop => some
      ({ g with waitingAt := Function.update g.waitingAt stop (g.waitingAt stop + 1) }, .queuePost stop)
  | .queuePost stop => some
      ({ g with waitingMutex := Function.update g.waitingMutex stop (zemPost (g.waitingMutex stop)) },
        .waitBusStop stop)
  | .waitBusStop stop => (zemWait (g.busStop stop)).map fun z =>
    ({ g with busStop := Function.update g.busStop stop z }, .boardWaitPassengers stop)
  | .boardWaitPassengers stop => (zemWait g.passengersMutex).map fun z =>
    ({ g with passengersMutex := z }, .boardWaitDoor stop)
  | .boardWaitDoor stop => (zemWait g.doorMutex).map fun z => ({ g with doorMutex := z }, .boardWaitHere stop)
  | .boardWaitHere stop => (zemWait (g.waitingMutex stop)).map fun z =>
    ({ g with waitingMutex := Function.update g.waitingMutex stop z }, .boardTest stop)
  | .boardTest stop =>
    if (g.waitingAt stop = 0 ∨ g.passengers = capacity) ∧ g.door = 0
    then some (g, .closeDoor stop) else some (g, .boardPostHere stop)
  | .closeDoor stop => some ({ g with door := 1 }, .postStart stop)
  | .postStart stop => some ({ g with startShuttle := zemPost g.startShuttle }, .boardPostHere stop)
  | .boardPostHere stop => some
      ({ g with waitingMutex := Function.update g.waitingMutex stop (zemPost (g.waitingMutex stop)) },
        .boardPostDoor stop)
  | .boardPostDoor stop => some ({ g with doorMutex := zemPost g.doorMutex }, .boardPostPassengers stop)
  | .boardPostPassengers stop => some
      ({ g with passengersMutex := zemPost g.passengersMutex }, .waitArrived stop)
  | .waitArrived stop => (zemWait (g.arrived stop.other)).map fun z =>
    ({ g with arrived := Function.update g.arrived stop.other z }, .queueWait stop.other)

/-- One step of `shuttle_driver`. The printing under the mutexes at the top of the loop is left out,
the waits and posts around it are not. -/
def shuttleDriver (capacity : ℤ) (g : Shared) : DriverPc → Option (Shared × DriverPc)
  | .debugWaitA => (zemWait (g.waitingMutex .A)).map fun z =>
    ({ g with waitingMutex := Function.update g.waitingMutex .A z }, .debugWaitB)
  | .debugWaitB => (zemWait (g.waitingMutex .B)).map fun z =>
    ({ g with waitingMutex := Function.update g.waitingMutex .B z }, .debugWaitPassengers)
  | .debugWaitPassengers => (zemWait g.passengersMutex).map fun z =>
    ({ g with passengersMutex := z }, .debugPostA)
  | .debugPostA => some
      ({ g with waitingMutex := Function.update g.waitingMutex .A (zemPost (g.waitingMutex .A)) }, .debugPostB)
  | .debugPostB => some
      ({ g with waitingMutex := Function.update g.waitingMutex .B (zemPost (g.waitingMutex .B)) },
        .debugPostPassengers)
  | .debugPostPassengers => some ({ g with passengersMutex := zemPost g.passengersMutex }, .doorWait .A)
  | .doorWait stop => (zemWait g.doorMutex).map fun z => ({ g with doorMutex := z }, .doorOpen stop)
  | .doorOpen stop => some ({ g with door := 0 }, .doorPost stop)
  | .doorPost stop => some ({ g with doorMutex := zemPost g.doorMutex }, .pickWaitHere stop)
  | .pickWaitHere stop => (zemWait (g.waitingMutex stop)).map fun z =>
    ({ g with waitingMutex := Function.update g.waitingMutex stop z }, .pickWaitOther stop)
  | .pickWaitOther stop => (zemWait (g.waitingMutex stop.other)).map fun z =>
    ({ g with waitingMutex := Function.update g.waitingMutex stop.other z }, .pickWaitPassengers stop)
  | .pickWaitPassengers stop => (zemWait g.passengersMutex).map fun z =>
    ({ g with passengersMutex := z }, .pickTest stop)
  | .pickTest stop =>
    if g.waitingAt stop ≠ 0 then some (g, .pickLoop stop) else some (g, .justLeave stop)
  | .pickLoop stop =>
    if g.waitingAt stop ≠ 0 ∧ g.passengers < capacity
    then some (g, .pickTake stop) else some (g, .pickPostPassengers stop)
  | .pickTake stop => some
      ({ g with waitingAt := Function.update g.waitingAt stop (g.waitingAt stop - 1) }, .pickWake stop)
  | .pickWake stop => some
      ({ g with busStop := Function.update g.busStop stop (zemPost (g.busStop stop)) }, .pickCount stop)
  | .pickCount stop => some ({ g with passengers := g.passengers + 1 }, .pickLoop stop)
  | .justLeave stop => some ({ g with startShuttle := zemPost g.startShuttle }, .pickPostPassengers stop)
  | .pickPostPassengers stop => some
      ({ g with passengersMutex := zemPost g.passengersMutex }, .pickPostHere stop)
  | .pickPostHere stop => some
      ({ g with waitingMutex := Function.update g.waitingMutex stop (zemPost (g.waitingMutex stop)) },
        .pickPostOther stop)
  | .pickPostOther stop => some
      ({ g with waitingMutex :=
          Function.update g.waitingMutex stop.other (zemPost (g.waitingMutex stop.other)) }, .waitStart stop)
  | .waitStart stop => (zemWait g.startShuttle).map fun z => ({ g with startShuttle := z }, .travel stop)
  | .travel stop => some (g, .arriveWaitThere stop)
  | .arriveWaitThere stop => (zemWait (g.waitingMutex stop.other)).map fun z =>
    ({ g with waitingMutex := Function.update g.waitingMutex stop.other z }, .arriveWaitPassengers stop)
  | .arriveWaitPassengers stop => (zemWait g.passengersMutex).map fun z =>
    ({ g with passengersMutex := z }, .dropOff stop)
  | .dropOff stop => some ({ g with passengers := 0 }, .wakeAll stop 0)
  | .wakeAll stop i =>
    if (i : ℤ) < capacity
    then some ({ g with arrived := Function.update g.arrived stop.other (zemPost (g.arrived stop.other)) },
      .wakeAll stop (i + 1))
    else some (g, .arrivePostPassengers stop)
  | .arrivePostPassengers stop => some
      ({ g with passengersMutex := zemPost g.passengersMutex }, .arrivePostThere stop)
  | .arrivePostThere stop => some
      ({ g with waitingMutex :=
          Function.update g.waitingMutex stop.other (zemPost (g.waitingMutex stop.other)) },
        match stop with | .A => .doorWait .B | .B => .debugWaitA)

def History.attendee {attendees : ℕ} (h : History attendees) (i : Fin attendees) :
    AttendeePc → History attendees
  | .waitBusStop stop =>
    { h with
      boarded := Function.update h.boarded stop (h.boarded stop + 1)
      ticket := Function.update h.ticket i (h.boarded stop + 1) }
  | .waitArrived stop => { h with left := Function.update h.left stop.other (h.left stop.other + 1) }
  | _ => h

def History.driver {attendees : ℕ} (h : History attendees) (g : Shared) : DriverPc → History attendees
  | .dropOff stop =>
    { h with delivered := Function.update h.delivered stop.other (h.delivered stop.other + g.passengers) }
  | _ => h

/-- A step of the driver (`none`) or of one attendee. -/
def step {attendees : ℕ} (capacity : ℤ) (s : State attendees) :
    Option (Fin attendees) → Option (State attendees)
  | none => (shuttleDriver capacity s.shared s.driver).map fun (g, pc) =>
    { s with shared := g, driver := pc, history := s.history.driver s.shared s.driver }
  | some i => (attendee capacity s.shared (s.attendee i)).map fun (g, pc) =>
    { s with
      shared := g
      attendee := Function.update s.attendee i pc
      history := s.history.attendee i (s.attendee i) }

def main (attendees : ℕ) : State attendees where
  shared := {
    arrived := fun _ => zemInit 0
    startShuttle := zemInit 0
    doorMutex := zemInit 1
    door := 0
    busStop := fun _ => zemInit 0
    waitingMutex := fun _ => zemInit 1
    waitingAt := fun _ => 0
    passengersMutex := zemInit 1
    passengers := 0 }
  driver := .debugWaitA
  attendee _ := .queueWait .A
  history := ⟨fun _ => 0, fun _ => 0, fun _ => 0, fun _ => 0⟩

def system (attendees : ℕ) (capacity : ℤ) : System (State attendees) (Option (Fin attendees)) :=
  ⟨main attendees, step capacity⟩

end OsProjects.Shuttle

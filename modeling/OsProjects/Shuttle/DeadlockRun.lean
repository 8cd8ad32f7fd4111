import OsProjects.Shuttle.Deadlock

namespace OsProjects.Shuttle
open Threads Transition

variable {attendees : ℕ} {capacity : ℤ}

/-! ## Runs of one thread at a time -/

def repeatStep {Pc : Type} (thread : Shared → Pc → Option (Shared × Pc)) :
    ℕ → Shared → Pc → Option (Shared × Pc)
  | 0, g, pc => some (g, pc)
  | k + 1, g, pc => (thread g pc).bind fun next => repeatStep thread k next.1 next.2

def Visited (capacity : ℤ) (i j : Fin attendees) (g : Shared) (driver : DriverPc) (first second : AttendeePc) :
    Prop :=
  ∃ s, (system attendees capacity).Reachable s ∧ s.shared = g ∧ s.driver = driver ∧
    s.attendee i = first ∧ s.attendee j = second

variable {i j : Fin attendees} {g g' : Shared} {driver driver' : DriverPc}
  {first first' second second' : AttendeePc}

section
variable (visited : Visited capacity i j g driver first second)
include visited

theorem Visited.drive (k : ℕ) (moves : repeatStep (shuttleDriver capacity) k g driver = some (g', driver')) :
    Visited capacity i j g' driver' first second := by
  induction k generalizing g driver with
  | zero =>
    cases moves
    exact visited
  | succ k ih =>
    obtain ⟨⟨h, pc⟩, moved, rest⟩ := Option.bind_eq_some_iff.mp moves
    obtain ⟨s, reachable, rfl, rfl, atI, atJ⟩ := visited
    have action : (system attendees capacity).step s none = some _ :=
      Option.map_eq_some_iff.mpr ⟨_, moved, rfl⟩
    exact ih ⟨_, .next reachable trivial action, rfl, rfl, atI, atJ⟩ rest

theorem Visited.moveFirst (distinct : i ≠ j) (k : ℕ)
    (moves : repeatStep (attendee capacity) k g first = some (g', first')) :
    Visited capacity i j g' driver first' second := by
  induction k generalizing g first with
  | zero =>
    cases moves
    exact visited
  | succ k ih =>
    obtain ⟨⟨h, pc⟩, moved, rest⟩ := Option.bind_eq_some_iff.mp moves
    obtain ⟨s, reachable, rfl, rfl, rfl, atJ⟩ := visited
    have action : (system attendees capacity).step s (some i) = some _ :=
      Option.map_eq_some_iff.mpr ⟨_, moved, rfl⟩
    refine ih ⟨_, .next reachable trivial action, rfl, rfl, Function.update_self .., ?_⟩ rest
    exact (Function.update_of_ne distinct.symm _ _).trans atJ

theorem Visited.swap : Visited capacity j i g driver second first := by
  obtain ⟨s, reachable, shared, atDriver, atI, atJ⟩ := visited
  exact ⟨s, reachable, shared, atDriver, atJ, atI⟩

theorem Visited.moveSecond (distinct : i ≠ j) (k : ℕ)
    (moves : repeatStep (attendee capacity) k g second = some (g', second')) :
    Visited capacity i j g' driver first second' :=
  (visited.swap.moveFirst distinct.symm k moves).swap

end

/-! ## Two attendees and two seats -/

def pair {α : Type} (a b : α) : Stop → α
  | .A => a
  | .B => b

@[simp] theorem pair_A {α : Type} (a b : α) : pair a b .A = a := rfl

@[simp] theorem pair_B {α : Type} (a b : α) : pair a b .B = b := rfl

@[simp] theorem update_pair_A {α : Type} (a b c : α) : Function.update (pair a b) .A c = pair c b := by
  funext stop
  cases stop <;> rfl

@[simp] theorem update_pair_B {α : Type} (a b c : α) : Function.update (pair a b) .B c = pair a c := by
  funext stop
  cases stop <;> rfl

def scene (arrivedB start door bus waitingMutexA waitingMutexB waitingA passengersMutex doorMutex passengers : ℤ) :
    Shared where
  arrived := pair ⟨0⟩ ⟨arrivedB⟩
  startShuttle := ⟨start⟩
  doorMutex := ⟨doorMutex⟩
  door := door
  busStop := pair ⟨bus⟩ ⟨0⟩
  waitingMutex := pair ⟨waitingMutexA⟩ ⟨waitingMutexB⟩
  waitingAt := pair waitingA 0
  passengersMutex := ⟨passengersMutex⟩
  passengers := passengers

theorem main_scene (attendees : ℕ) : (main attendees).shared = scene 0 0 0 0 1 1 0 1 1 0 := by
  simp only [main, scene, zemInit, Shared.mk.injEq, true_and, and_true]
  refine ⟨?_, ?_, ?_, ?_⟩ <;> funext stop <;> cases stop <;> rfl

theorem queue_scene (waiting : ℤ) : repeatStep (attendee capacity) 3 (scene 0 0 0 0 1 1 waiting 1 1 0) (.queueWait .A) =
    some (scene 0 0 0 0 1 1 (waiting + 1) 1 1 0, .waitBusStop .A) := by
  simp [repeatStep, attendee, scene, zemWait, zemPost]

theorem debug_scene : repeatStep (shuttleDriver capacity) 6 (scene 0 0 0 0 1 1 2 1 1 0) .debugWaitA =
    some (scene 0 0 0 0 1 1 2 1 1 0, .doorWait .A) := by
  simp [repeatStep, shuttleDriver, scene, zemWait, zemPost]

theorem open_scene : repeatStep (shuttleDriver capacity) 7 (scene 0 0 0 0 1 1 2 1 1 0) (.doorWait .A) =
    some (scene 0 0 0 0 0 0 2 0 1 0, .pickLoop .A) := by
  simp [repeatStep, shuttleDriver, scene, zemWait, zemPost, Stop.other]

theorem pick_scene {woken waiting : ℤ} (someone : waiting ≠ 0) (seat : woken < capacity) :
    repeatStep (shuttleDriver capacity) 4 (scene 0 0 0 woken 0 0 waiting 0 1 woken) (.pickLoop .A) =
      some (scene 0 0 0 (woken + 1) 0 0 (waiting - 1) 0 1 (woken + 1), .pickLoop .A) := by
  simp [repeatStep, shuttleDriver, scene, zemPost, someone, seat]

theorem ready_scene :
    repeatStep (shuttleDriver capacity) 4 (scene 0 0 0 2 0 0 0 0 1 2) (.pickLoop .A) =
      some (scene 0 0 0 2 1 1 0 1 1 2, .waitStart .A) := by
  simp [repeatStep, shuttleDriver, scene, zemPost, Stop.other]

theorem board_scene :
    repeatStep (attendee capacity) 10 (scene 0 0 0 2 1 1 0 1 1 2) (.waitBusStop .A) =
      some (scene 0 1 1 1 1 1 0 1 1 2, .waitArrived .A) := by
  simp [repeatStep, attendee, scene, zemWait, zemPost]

theorem late_scene :
    repeatStep (attendee capacity) 1 (scene 0 1 1 1 1 1 0 1 1 2) (.waitBusStop .A) =
      some (scene 0 1 1 0 1 1 0 1 1 2, .boardWaitPassengers .A) := by
  simp [repeatStep, attendee, scene, zemWait]

theorem arrive_scene :
    repeatStep (shuttleDriver capacity) 5 (scene 0 1 1 0 1 1 0 1 1 2) (.waitStart .A) =
      some (scene 0 0 1 0 1 0 0 0 1 0, .wakeAll .A 0) := by
  simp [repeatStep, shuttleDriver, scene, zemWait, Stop.other]

theorem nextStop_scene (tokens : ℤ) :
    repeatStep (shuttleDriver capacity) 7 (scene tokens 0 1 0 1 0 0 0 1 0) (.arrivePostPassengers .A) =
      some (scene tokens 0 0 0 0 0 0 1 1 0, .pickWaitPassengers .B) := by
  simp [repeatStep, shuttleDriver, scene, zemWait, zemPost, Stop.other]

theorem lateBoard_scene (tokens : ℤ) :
    repeatStep (attendee capacity) 2 (scene tokens 0 0 0 0 0 0 1 1 0) (.boardWaitPassengers .A) =
      some (scene tokens 0 0 0 0 0 0 0 0 0, .boardWaitHere .A) := by
  simp [repeatStep, attendee, scene, zemWait]

theorem Visited.wakeAll (remaining : ℕ) (index : ℕ) (count : (index : ℤ) + remaining = capacity)
    (visited : Visited capacity i j (scene index 0 1 0 1 0 0 0 1 0) (.wakeAll .A index) first second) :
    Visited capacity i j (scene capacity 0 1 0 1 0 0 0 1 0) (.arrivePostPassengers .A) first second := by
  induction remaining generalizing index with
  | zero =>
    have full : (index : ℤ) = capacity := by simpa using count
    refine visited.drive 1 ?_
    simp [repeatStep, shuttleDriver, full]
  | succ remaining ih =>
    have more : (index : ℤ) < capacity := by omega
    refine ih (index + 1) (by push_cast at count ⊢; omega) (visited.drive 1 ?_)
    simp [repeatStep, shuttleDriver, scene, zemPost, Stop.other, more]

-- Both have been woken at A, only one has boarded, and the shuttle is at B.
theorem visited_lateBoarder (seats : 2 ≤ capacity) (distinct : i ≠ j) :
    Visited capacity i j (scene capacity 0 1 0 1 0 0 0 1 0) (.arrivePostPassengers .A) (.waitArrived .A)
      (.boardWaitPassengers .A) := by
  have start : Visited capacity i j (scene 0 0 0 0 1 1 0 1 1 0) .debugWaitA (.queueWait .A) (.queueWait .A) :=
    ⟨main attendees, .initial, main_scene attendees, rfl, rfl, rfl⟩
  have queued := (start.moveFirst distinct 3 (queue_scene 0)).moveSecond distinct 3 (queue_scene 1)
  have opened := (queued.drive 6 debug_scene).drive 7 open_scene
  have picked := (opened.drive 4 (pick_scene (by decide) (by omega))).drive 4
    (pick_scene (by decide) (by omega))
  have ready := picked.drive 4 ready_scene
  have signalled := (ready.moveFirst distinct 10 board_scene).moveSecond distinct 1 late_scene
  have arrived := signalled.drive 5 arrive_scene
  exact arrived.wakeAll capacity.toNat 0 (by simp; omega)

theorem visited_deadlock (seats : 2 ≤ capacity) (distinct : i ≠ j) :
    Visited capacity i j (scene capacity 0 0 0 0 0 0 0 0 0) (.pickWaitPassengers .B) (.waitArrived .A)
      (.boardWaitHere .A) :=
  ((visited_lateBoarder seats distinct).drive 7 (nextStop_scene capacity)).moveSecond distinct 2
    (lateBoard_scene capacity)

theorem deadlock_reachable (attendees : ℕ) (capacity : ℤ) (people : 2 ≤ attendees) (seats : 2 ≤ capacity) :
    ∃ s, (system attendees capacity).Reachable s ∧ Deadlocked s := by
  let i : Fin attendees := ⟨0, by omega⟩
  let j : Fin attendees := ⟨1, by omega⟩
  have distinct : i ≠ j := by simp [i, j]
  obtain ⟨s, reachable, shared, driver, _, second⟩ := visited_deadlock seats distinct
  have driverWaits : WaitsFor (BlockedOn s) (Holds s) none (some j) := by
    refine ⟨.passengers, ?_, ?_⟩
    · simp [BlockedOn, driver, DriverPc.waitsOn, shared, Shared.mutex, scene]
    · simp [Holds, second, AttendeePc.held]
  have attendeeWaits : WaitsFor (BlockedOn s) (Holds s) (some j) none := by
    refine ⟨.waiting .A, ?_, ?_⟩
    · simp [BlockedOn, second, AttendeePc.waitsOn, shared, Shared.mutex, scene]
    · simp [Holds, driver, DriverPc.held, Stop.other]
  exact ⟨s, reachable, none, .tail (.single driverWaits) attendeeWaits⟩

theorem deadlock_free_iff (people : 1 ≤ attendees) (seats : 1 ≤ capacity) :
    (∀ s, (system attendees capacity).Reachable s → ¬ Deadlocked s) ↔ attendees = 1 ∨ capacity = 1 := by
  constructor
  · intro free
    by_contra several
    obtain ⟨s, reachable, stuck⟩ := deadlock_reachable attendees capacity (by omega) (by omega)
    exact free s reachable stuck
  · intro one s reachable
    exact not_deadlocked_of_one one seats reachable

theorem deadlock_free_iff_oneAttendee :
    (1 = 1 ∨ (30 : ℤ) = 1) ∧ ((∀ s, (system 1 30).Reachable s → ¬ Deadlocked s) ↔ 1 = 1 ∨ (30 : ℤ) = 1) :=
  ⟨.inl rfl, deadlock_free_iff (by decide) (by decide)⟩

theorem shuttle_deadlocks : ∃ s, (system 100 30).Reachable s ∧ Deadlocked s :=
  deadlock_reachable 100 30 (by decide) (by decide)

end OsProjects.Shuttle

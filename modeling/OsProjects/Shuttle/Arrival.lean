import OsProjects.Shuttle.Conservation

namespace OsProjects.Shuttle
open Threads Transition

variable {attendees : ℕ} {capacity : ℤ} {g' : Shared} {s after : State attendees} {t : Option (Fin attendees)}
  {stop : Stop}

inductive Place
  | queue (stop : Stop) | seat (stop : Stop)
  deriving DecidableEq, Repr

def AttendeePc.place : AttendeePc → Place
  | .queueWait stop | .queueCount stop | .queuePost stop | .waitBusStop stop => .queue stop
  | .boardWaitPassengers stop | .boardWaitDoor stop | .boardWaitHere stop | .boardTest stop
  | .closeDoor stop | .postStart stop | .boardPostHere stop | .boardPostDoor stop
  | .boardPostPassengers stop | .waitArrived stop => .seat stop

def AttendeePc.seated (stop : Stop) (pc : AttendeePc) : ℕ := if pc.place = .seat stop then 1 else 0

def DriverPc.picksUp : DriverPc → Option Stop
  | .pickTest stop => some stop
  | _ => none

def DriverPc.dropsOff : DriverPc → Option Stop
  | .dropOff stop => some stop
  | _ => none

def DriverPc.carries : DriverPc → Option Stop
  | .pickLoop stop | .pickTake stop | .pickWake stop | .pickCount stop | .justLeave stop
  | .pickPostPassengers stop | .pickPostHere stop | .pickPostOther stop | .waitStart stop | .travel stop
  | .arriveWaitThere stop | .arriveWaitPassengers stop | .dropOff stop => some stop
  | _ => none

def DriverPc.uncounted : DriverPc → ℤ
  | .pickCount _ => 1
  | _ => 0

def DriverPc.unposted (capacity : ℤ) (stop : Stop) : DriverPc → ℤ
  | .wakeAll start i => if start.other = stop then capacity - i else 0
  | _ => 0

def FullTrips (capacity : ℤ) (s : State attendees) (t : Option (Fin attendees)) : Prop :=
  t = none → s.driver.dropsOff ≠ none → s.shared.passengers = capacity

/-- Picking up begins only when the arrival tokens of the last trip have all been taken. -/
def TokensTaken (s : State attendees) (t : Option (Fin attendees)) : Prop :=
  t = none → ∀ stop ∈ s.driver.picksUp, (s.shared.arrived stop.other).value = 0

instance (capacity : ℤ) (s : State attendees) (t : Option (Fin attendees)) :
    Decidable (FullTrips capacity s t) :=
  inferInstanceAs (Decidable (_ → _ → _))

instance (s : State attendees) (t : Option (Fin attendees)) : Decidable (TokensTaken s t) :=
  inferInstanceAs (Decidable (_ → ∀ stop ∈ s.driver.picksUp, _))

@[simp]
theorem Stop.other_inj {here there : Stop} : here.other = there.other ↔ here = there := by
  cases here <;> cases there <;> decide

/-! ## What one step does to tokens and passengers -/

section
variable (h : History attendees) (g : Shared) (driver : DriverPc) (i : Fin attendees) (pc : AttendeePc)

@[simp]
theorem History.driver_left : (h.driver g driver).left = h.left := by cases driver <;> rfl

@[simp]
theorem History.driver_boarded : (h.driver g driver).boarded = h.boarded := by cases driver <;> rfl

@[simp]
theorem History.driver_ticket : (h.driver g driver).ticket = h.ticket := by cases driver <;> rfl

@[simp]
theorem History.attendee_delivered : (h.attendee i pc).delivered = h.delivered := by cases pc <;> rfl

end

variable {pc' : AttendeePc}

theorem attendee_tokens {g : Shared} {pc : AttendeePc} {h : History attendees} {i : Fin attendees}
    (action : attendee capacity g pc = some (g', pc')) (stop : Stop) :
    (g'.arrived stop).value + (h.attendee i pc).left stop = (g.arrived stop).value + h.left stop ∧
      (g'.arrived stop).value ≤ (g.arrived stop).value ∧
      (0 ≤ (g.arrived stop).value → 0 ≤ (g'.arrived stop).value) ∧
      (g'.busStop stop).value + (h.attendee i pc).boarded stop = (g.busStop stop).value + h.boarded stop ∧
      g'.passengers = g.passengers := by
  cases pc <;> simp only [attendee, Option.map_eq_some_iff, zemWait_eq_some, Option.some.injEq,
    Prod.mk.injEq] at action
  case boardTest here => split at action <;> cases action <;> simp [History.attendee]
  case queueWait | waitBusStop | boardWaitPassengers | boardWaitDoor | boardWaitHere | waitArrived =>
    obtain ⟨z, ⟨positive, value⟩, rfl, rfl⟩ := action
    simp [History.attendee, Function.update_apply] <;> grind
  all_goals
    obtain ⟨rfl, rfl⟩ := action
    simp [History.attendee]

theorem shuttleDriver_tokens {g : Shared} {pc pc' : DriverPc} {h : History attendees}
    (action : shuttleDriver capacity g pc = some (g', pc'))
    (full : pc.dropsOff ≠ none → g.passengers = capacity) (stop : Stop)
    (within : 0 ≤ pc.unposted capacity stop) (seats : 0 ≤ capacity) :
    (g'.arrived stop).value + pc'.unposted capacity stop - (h.driver g pc).delivered stop =
        (g.arrived stop).value + pc.unposted capacity stop - h.delivered stop ∧
      (g.arrived stop).value ≤ (g'.arrived stop).value ∧ 0 ≤ pc'.unposted capacity stop := by
  cases pc <;> simp only [shuttleDriver, Option.map_eq_some_iff, zemWait_eq_some, Option.some.injEq,
    Prod.mk.injEq] at action
  case pickTest | pickLoop =>
    split at action <;> cases action <;> simp [DriverPc.unposted, History.driver]
  case wakeAll start i =>
    simp only [DriverPc.unposted] at within ⊢
    split at action <;> cases action <;> simp only [History.driver, Function.update_apply]
    all_goals grind [DriverPc.unposted]
  case dropOff start =>
    obtain ⟨rfl, rfl⟩ := action
    simp only [DriverPc.unposted, History.driver, Function.update_apply]
    grind [DriverPc.dropsOff]
  case arrivePostThere start =>
    obtain ⟨rfl, rfl⟩ := action
    cases start <;> simp [DriverPc.unposted, History.driver]
  case debugWaitA | debugWaitB | debugWaitPassengers | doorWait | pickWaitHere | pickWaitOther
      | pickWaitPassengers | waitStart | arriveWaitThere | arriveWaitPassengers =>
      obtain ⟨z, ⟨positive, value⟩, rfl, rfl⟩ := action
      simp [DriverPc.unposted, History.driver]
  all_goals
    obtain ⟨rfl, rfl⟩ := action
    simp [DriverPc.unposted, History.driver]

def load (g : Shared) (driver : DriverPc) (stop : Stop) : ℤ :=
  if driver.carries = some stop then g.passengers + driver.uncounted else 0

theorem shuttleDriver_load {g : Shared} {pc pc' : DriverPc} {h : History attendees}
    (action : shuttleDriver capacity g pc = some (g', pc')) (stop : Stop)
    (nonneg : 0 ≤ g.passengers) (idle : pc.carries = none → g.passengers = 0) :
    (g'.busStop stop).value - (h.driver g pc).delivered stop.other - load g' pc' stop =
        (g.busStop stop).value - h.delivered stop.other - load g pc stop ∧
      0 ≤ g'.passengers ∧ (pc'.carries = none → g'.passengers = 0) ∧
      h.delivered stop.other ≤ (h.driver g pc).delivered stop.other := by
  cases pc <;> simp only [shuttleDriver, Option.map_eq_some_iff, zemWait_eq_some, Option.some.injEq,
    Prod.mk.injEq] at action
  case pickTest | pickLoop | wakeAll =>
    split at action <;> cases action <;>
      simp_all [load, DriverPc.carries, DriverPc.uncounted, History.driver]
  case debugWaitA | debugWaitB | debugWaitPassengers | doorWait | pickWaitHere | pickWaitOther
      | pickWaitPassengers | waitStart | arriveWaitThere | arriveWaitPassengers =>
      obtain ⟨z, ⟨positive, value⟩, rfl, rfl⟩ := action
      simp_all [load, DriverPc.carries, DriverPc.uncounted, History.driver]
  case arrivePostThere start =>
    obtain ⟨rfl, rfl⟩ := action
    cases start <;> simp_all [load, DriverPc.carries, History.driver]
  case dropOff start =>
    obtain ⟨rfl, rfl⟩ := action
    cases start <;> cases stop <;>
      simp_all [load, DriverPc.carries, DriverPc.uncounted, History.driver, Stop.other] <;> omega
  all_goals
    obtain ⟨rfl, rfl⟩ := action
    simp_all [load, DriverPc.carries, DriverPc.uncounted, History.driver, Function.update_apply] <;> grind

theorem shuttleDriver_drained {g : Shared} {pc pc' : DriverPc}
    (action : shuttleDriver capacity g pc = some (g', pc')) (stop : Stop)
    (taken : stop ∈ pc.picksUp → (g.arrived stop.other).value = 0)
    (drained : pc.carries = some stop → (g.arrived stop.other).value = 0) :
    pc'.carries = some stop → (g'.arrived stop.other).value = 0 := by
  cases pc <;> simp only [shuttleDriver, Option.map_eq_some_iff, zemWait_eq_some, Option.some.injEq,
    Prod.mk.injEq] at action
  case pickTest | pickLoop | wakeAll =>
    split at action <;> cases action <;> simp_all [DriverPc.carries, DriverPc.picksUp]
  case debugWaitA | debugWaitB | debugWaitPassengers | doorWait | pickWaitHere | pickWaitOther
      | pickWaitPassengers | waitStart | arriveWaitThere | arriveWaitPassengers =>
      obtain ⟨z, ⟨positive, value⟩, rfl, rfl⟩ := action
      simp_all [DriverPc.carries]
  case arrivePostThere start =>
    obtain ⟨rfl, rfl⟩ := action
    cases start <;> simp [DriverPc.carries]
  all_goals
    obtain ⟨rfl, rfl⟩ := action
    simp_all [DriverPc.carries]

theorem attendee_moves {g : Shared} {pc : AttendeePc}
    (action : attendee capacity g pc = some (g', pc')) (h : History attendees) (i : Fin attendees) :
    (pc'.place = pc.place ∧ h.attendee i pc = h) ∨ (∃ stop, pc = .waitBusStop stop ∧ pc'.place = .seat stop) ∨
      ∃ stop, pc = .waitArrived stop ∧ pc'.place = .queue stop.other ∧ 0 < (g.arrived stop.other).value := by
  cases pc <;> simp only [attendee, Option.map_eq_some_iff, zemWait_eq_some, Option.some.injEq,
    Prod.mk.injEq] at action
  case boardTest here => split at action <;> cases action <;> simp [AttendeePc.place, History.attendee]
  case queueWait | waitBusStop | boardWaitPassengers | boardWaitDoor | boardWaitHere | waitArrived =>
    obtain ⟨z, ⟨positive, value⟩, rfl, rfl⟩ := action
    simp [AttendeePc.place, History.attendee, positive]
  all_goals
    obtain ⟨rfl, rfl⟩ := action
    simp [AttendeePc.place, History.attendee]

/-! ## Tokens posted and trips completed -/

structure TokensBalance (capacity : ℤ) (s : State attendees) (stop : Stop) : Prop where
  nonneg : 0 ≤ (s.shared.arrived stop).value
  within : 0 ≤ s.driver.unposted capacity stop
  balance : (s.shared.arrived stop).value + s.history.left stop + s.driver.unposted capacity stop =
    s.history.delivered stop

theorem step_tokensBalance (seats : 0 ≤ capacity) (held : TokensBalance capacity s stop) (full : FullTrips capacity s t)
    (action : step capacity s t = some after) : TokensBalance capacity after stop := by
  obtain ⟨nonneg, within, balance⟩ := held
  cases t with
  | none =>
    obtain ⟨⟨g, pc⟩, moved, rfl⟩ := Option.map_eq_some_iff.mp action
    obtain ⟨change, posted, within'⟩ :=
      shuttleDriver_tokens (h := s.history) moved (full rfl) stop within seats
    exact ⟨nonneg.trans posted, within', by simp only [History.driver_left]; omega⟩
  | some i =>
    obtain ⟨⟨g, pc⟩, moved, rfl⟩ := Option.map_eq_some_iff.mp action
    obtain ⟨change, _, nonneg', _⟩ := attendee_tokens (h := s.history) (i := i) moved stop
    exact ⟨nonneg' nonneg, within, by simp only [History.attendee_delivered]; omega⟩

theorem left_le_delivered_of_fullTrips (seats : 1 ≤ capacity)
    (reached : (system attendees capacity).ReachedBy (FullTrips capacity) s) (stop : Stop) :
    (s.history.left stop : ℤ) ≤ s.history.delivered stop := by
  have held : TokensBalance capacity s stop :=
    reached.invariant (TokensBalance capacity · stop)
      ⟨by simp [system, main], le_rfl, by simp [system, main, DriverPc.unposted]⟩
      fun _ _ _ _ held full action => step_tokensBalance (by omega) held full action
  have := held.nonneg
  have := held.within
  have := held.balance
  omega

/-! ## Boardings and trips completed -/

structure Carried (s : State attendees) (stop : Stop) : Prop where
  nonneg : 0 ≤ s.shared.passengers
  idle : s.driver.carries = none → s.shared.passengers = 0
  posted : (s.shared.busStop stop).value + s.history.boarded stop =
    s.history.delivered stop.other + load s.shared s.driver stop
  aboard : s.history.left stop.other + weigh (AttendeePc.seated stop) s.attendee = s.history.boarded stop

theorem attendee_seated {g : Shared} {pc : AttendeePc} {h : History attendees} {i : Fin attendees}
    (action : attendee capacity g pc = some (g', pc')) (stop : Stop) :
    h.boarded stop + (h.attendee i pc).left stop.other + pc'.seated stop =
      (h.attendee i pc).boarded stop + h.left stop.other + pc.seated stop := by
  cases pc <;> simp only [attendee, Option.map_eq_some_iff, zemWait_eq_some, Option.some.injEq,
    Prod.mk.injEq] at action
  case boardTest here =>
    split at action <;> cases action <;> simp [AttendeePc.seated, AttendeePc.place, History.attendee]
  case waitBusStop here =>
    obtain ⟨z, _, rfl, rfl⟩ := action
    cases here <;> cases stop <;>
      simp [AttendeePc.seated, AttendeePc.place, History.attendee, Stop.other] <;> omega
  case waitArrived here =>
    obtain ⟨z, _, rfl, rfl⟩ := action
    cases here <;> cases stop <;>
      simp [AttendeePc.seated, AttendeePc.place, History.attendee, Stop.other] <;> omega
  case queueWait | boardWaitPassengers | boardWaitDoor | boardWaitHere =>
    obtain ⟨z, _, rfl, rfl⟩ := action
    simp [AttendeePc.seated, AttendeePc.place, History.attendee]
  all_goals
    obtain ⟨rfl, rfl⟩ := action
    simp [AttendeePc.seated, AttendeePc.place, History.attendee]

theorem step_carried (held : Carried s stop) (action : step capacity s t = some after) : Carried after stop := by
  obtain ⟨nonneg, idle, posted, aboard⟩ := held
  cases t with
  | none =>
    obtain ⟨⟨g, pc⟩, moved, rfl⟩ := Option.map_eq_some_iff.mp action
    obtain ⟨change, nonneg', idle', _⟩ := shuttleDriver_load (h := s.history) moved stop nonneg idle
    refine ⟨nonneg', idle', ?_, ?_⟩
    · simp only [History.driver_boarded]
      omega
    · simpa using aboard
  | some i =>
    obtain ⟨⟨g, pc⟩, moved, rfl⟩ := Option.map_eq_some_iff.mp action
    obtain ⟨_, _, _, tokens, passengers⟩ := attendee_tokens (h := s.history) (i := i) moved stop
    have seats := attendee_seated (h := s.history) (i := i) moved stop
    have recount := weigh_update (AttendeePc.seated stop) s.attendee i pc
    refine ⟨passengers ▸ nonneg, fun none => passengers.trans (idle none), ?_, ?_⟩
    · simp only [load, passengers, History.attendee_delivered] at posted ⊢
      omega
    · simp only
      omega

theorem reachable_carried (reachable : (system attendees capacity).Reachable s) (stop : Stop) : Carried s stop := by
  refine reachable.invariant (Carried · stop) ⟨?_, ?_, ?_, ?_⟩
    fun _ _ _ _ held action => step_carried held action
  all_goals simp [system, main, load, DriverPc.carries, weigh, AttendeePc.seated, AttendeePc.place]

structure Delivered (s : State attendees) (stop : Stop) : Prop where
  drained : s.driver.carries = some stop → (s.shared.arrived stop.other).value = 0
  left : (s.history.left stop.other : ℤ) ≤ s.history.delivered stop.other
  boarded : ∀ i, (s.attendee i).place = .seat stop → s.history.ticket i ≤ s.history.boarded stop
  delivered : ∀ i, (s.attendee i).place = .queue stop.other →
    (s.history.ticket i : ℤ) ≤ s.history.delivered stop.other

theorem boarded_le_delivered (reachable : (system attendees capacity).Reachable s) (held : Delivered s stop)
    (token : 0 < (s.shared.arrived stop.other).value) :
    (s.history.boarded stop : ℤ) ≤ s.history.delivered stop.other := by
  have landed : s.driver.carries ≠ some stop := fun carries => by
    have := held.drained carries
    omega
  have posted := (reachable_carried reachable stop).posted
  have tokens := (reachable_conserved reachable stop).tokens
  simp only [load, landed, if_false] at posted
  omega

theorem step_delivered
    (reachable : (system attendees capacity).Reachable s) (held : Delivered s stop) (taken : TokensTaken s t)
    (action : step capacity s t = some after) : Delivered after stop := by
  have carried := reachable_carried reachable stop
  cases t with
  | none =>
    obtain ⟨⟨g, pc⟩, moved, rfl⟩ := Option.map_eq_some_iff.mp action
    obtain ⟨_, _, _, grows⟩ :=
      shuttleDriver_load (h := s.history) moved stop carried.nonneg carried.idle
    refine ⟨shuttleDriver_drained moved stop (taken rfl stop) held.drained, ?_, ?_, ?_⟩
    · simpa using held.left.trans grows
    · simpa using held.boarded
    · intro i place
      simpa using (held.delivered i place).trans grows
  | some i =>
    obtain ⟨⟨g, pc⟩, moved, rfl⟩ := Option.map_eq_some_iff.mp action
    have drained : s.driver.carries = some stop → (g.arrived stop.other).value = 0 := fun carries => by
      obtain ⟨_, taken, nonneg, _⟩ := attendee_tokens (h := s.history) (i := i) moved stop.other
      have empty := held.drained carries
      have := nonneg (by omega)
      omega
    rcases attendee_moves moved s.history i with
      ⟨place, same⟩ | ⟨here, start, place⟩ | ⟨here, start, place, token⟩
    · refine ⟨drained, by simpa [same] using held.left, fun j => ?_, fun j => ?_⟩
      · have := held.boarded j
        grind
      · have := held.delivered j
        grind
    · refine ⟨drained, by simpa [start, History.attendee] using held.left, fun j => ?_, fun j => ?_⟩
      · have := held.boarded j
        simp only [start, History.attendee, Function.update_apply]
        grind
      · have := held.delivered j
        simp only [start, History.attendee, Function.update_apply]
        grind
    · by_cases same : here = stop
      · subst same
        -- a token can be taken, so the trip that carried this attendee is over
        have seat : (s.attendee i).place = .seat here := by rw [start]; rfl
        have bound := boarded_le_delivered reachable held token
        have aboard := carried.aboard
        have one := le_weigh (AttendeePc.seated here) s.attendee i
        simp only [AttendeePc.seated, seat, if_true] at one
        refine ⟨drained, ?_, fun j => ?_, fun j => ?_⟩
        · simp only [start, History.attendee, Function.update_self]
          grind
        · have := held.boarded j
          simp only [start, History.attendee, Function.update_apply]
          grind
        · have := held.delivered j
          have := held.boarded i
          simp only [start, History.attendee, Function.update_apply]
          grind
      · refine ⟨drained, ?_, fun j => ?_, fun j => ?_⟩
        · simpa [start, History.attendee, Function.update_apply, Ne.symm same] using held.left
        · have := held.boarded j
          simp only [start, History.attendee, Function.update_apply]
          grind
        · have := held.delivered j
          simp only [start, History.attendee, Function.update_apply]
          grind [Stop.other_inj]

theorem reached_delivered (reached : (system attendees capacity).ReachedBy TokensTaken s)
    (stop : Stop) : Delivered s stop := by
  refine reached.invariant (Delivered · stop) ⟨?_, ?_, ?_, ?_⟩
    fun _ _ _ reached held taken action => step_delivered reached.reachable held taken action
  all_goals simp [system, main, DriverPc.carries]

theorem left_le_delivered (attendees : ℕ) (capacity : ℤ) (seats : 1 ≤ capacity) (s : State attendees) :
    ((system attendees capacity).ReachedBy (FullTrips capacity) s →
      ∀ stop, (s.history.left stop : ℤ) ≤ s.history.delivered stop) ∧
    ((system attendees capacity).ReachedBy TokensTaken s →
      ∀ stop, (s.history.left stop : ℤ) ≤ s.history.delivered stop ∧
        ∀ i, (s.attendee i).place = .queue stop → (s.history.ticket i : ℤ) ≤ s.history.delivered stop) := by
  refine ⟨fun reached => left_le_delivered_of_fullTrips seats reached, fun reached stop => ?_⟩
  have held := reached_delivered reached stop.other
  constructor
  · simpa using held.left
  · simpa using held.delivered

def fullTrip : List (Option (Fin 1)) :=
  List.replicate 3 (some 0) ++ List.replicate 21 none ++ List.replicate 10 (some 0) ++
    List.replicate 9 none ++ [some 0]

theorem left_le_delivered_fullTrip :
    ∃ s, (system 1 1).ReachedBy (FullTrips 1) s ∧ (system 1 1).ReachedBy TokensTaken s ∧
      s.history.left .B = 1 ∧ (s.attendee 0).place = .queue .B ∧
      (s.history.left .B : ℤ) ≤ s.history.delivered .B ∧
      (s.history.ticket 0 : ℤ) ≤ s.history.delivered .B := by
  have checked : ((system 1 1).runBy (fun s t => FullTrips 1 s t ∧ TokensTaken s t) (main 1) fullTrip).map
      (fun s => (s.history.left .B, (s.attendee 0).place)) = some (1, .queue .B) := by decide +kernel
  obtain ⟨s, result, facts⟩ := Option.map_eq_some_iff.mp checked
  obtain ⟨left, place⟩ := Prod.mk.inj facts
  have reached := System.ReachedBy.runBy .initial result
  have full : (system 1 1).ReachedBy (FullTrips 1) s := reached.mono fun _ _ both => both.1
  have taken : (system 1 1).ReachedBy TokensTaken s := reached.mono fun _ _ both => both.2
  obtain ⟨ofFull, ofTaken⟩ := left_le_delivered 1 1 le_rfl s
  exact ⟨s, full, taken, left, place, ofFull full .B, (ofTaken taken .B).2 0 place⟩

def emptyTrips : List (Option (Fin 100)) :=
  List.replicate 104 none ++ List.replicate 3 (some 0) ++ List.replicate 21 none ++
    List.replicate 11 (some 0)

theorem left_before_arrival :
    ∃ s, (system 100 30).Reachable s ∧ s.history.delivered .B = 0 ∧ s.history.left .B = 1 := by
  have checked : ((system 100 30).run (main 100) emptyTrips).map
      (fun s => (s.history.delivered .B, s.history.left .B)) = some (0, 1) := by decide +kernel
  obtain ⟨s, result, facts⟩ := Option.map_eq_some_iff.mp checked
  exact ⟨s, System.Reachable.run .initial result, Prod.mk.inj facts⟩

end OsProjects.Shuttle

import OsProjects.Piping.Model
import OsProjects.Transition.Recorded

namespace OsProjects.Piping
open Transition Wrapping

variable {P : Type} [DecidableEq P] {procs : List P} {p : P}

/-! ## The bytes in the pipe -/

structure History where
  put : List Byte
  took : List Byte

def History.add (h : History) (e : Effect P) : History := ⟨h.put ++ e.put, h.took ++ e.took⟩

def note (procs : List P) (s : State P) (label : P × Input P) (h : History) : History :=
  (code procs label.1 s.pipe s.proc label.2 (s.pc label.1)).elim h h.add

def Pipe.bytes (pi : Pipe) : List Byte := contents pi.data pi.nread pi.nwrite

structure Carries (pi : Pipe) (h : History) : Prop where
  room : (pi.nwrite - pi.nread).toNat ≤ PIPESIZE
  order : h.took ++ pi.bytes = h.put

variable {pi : Pipe} {h : History}

theorem room_of_not_full (room : (pi.nwrite - pi.nread).toNat ≤ PIPESIZE) (notFull : pi.full = false) :
    (pi.nwrite - pi.nread).toNat < PIPESIZE := by
  refine lt_of_le_of_ne room fun same => ?_
  have full := add_sub_toNat pi.nread pi.nwrite
  rw [same] at full
  exact of_decide_eq_false notFull full.symm

section
variable (held : Carries pi h)
include held

theorem Carries.put (notFull : pi.full = false) (ch : Byte) : Carries (pi.put ch) ⟨h.put ++ [ch], h.took⟩ := by
  have room := room_of_not_full held.room notFull
  constructor
  · change (pi.nwrite + 1 - pi.nread).toNat ≤ PIPESIZE
    have wide : (pi.nwrite - pi.nread).toNat + 1 < 2 ^ 32 := lt_of_le_of_lt room (by decide)
    rw [toNat_succ_sub wide]
    exact room
  · change h.took ++ contents (Function.update pi.data (position PIPESIZE pi.nwrite) ch) pi.nread (pi.nwrite + 1) = _
    rw [contents_put (by decide) room (by decide), ← List.append_assoc]
    exact congrArg (· ++ [ch]) held.order

theorem Carries.takeByte (some_left : pi.empty = false) :
    Carries { pi with nread := pi.nread + 1 } ⟨h.put, h.took ++ [pi.data (position PIPESIZE pi.nread)]⟩ := by
  have left : pi.nread ≠ pi.nwrite := of_decide_eq_false some_left
  have split : pi.bytes = pi.data (position PIPESIZE pi.nread) :: contents pi.data (pi.nread + 1) pi.nwrite :=
    contents_take pi.data left
  constructor
  · have lengths := congrArg List.length split
    rw [Pipe.bytes, length_contents, List.length_cons, length_contents] at lengths
    have room := held.room
    change (pi.nwrite - (pi.nread + 1)).toNat ≤ PIPESIZE
    omega
  · have order := held.order
    rw [split] at order
    simpa [Pipe.bytes] using order

theorem Carries.take {copyout : ℕ → Bool} {left i : ℕ} :
    Carries (pi.take copyout left i).1 ⟨h.put, h.took ++ (pi.take copyout left i).2.1⟩ := by
  induction left generalizing i pi h with
  | zero => simpa [Pipe.take] using held
  | succ left ih =>
    by_cases empty : pi.empty = true
    · simpa [Pipe.take, empty] using held
    · have taken := held.takeByte (Bool.eq_false_iff.mpr empty)
      by_cases copied : copyout i = true
      · have rest := ih (i := i + 1) taken
        simpa [Pipe.take, empty, copied] using rest
      · simpa [Pipe.take, empty, copied] using taken

theorem Carries.pipewriteBody (i n : ℕ) (copyin : Option Byte) :
    Carries (pipewriteBody procs p pi i n copyin).pipe (h.add (pipewriteBody procs p pi i n copyin)) := by
  unfold Piping.pipewriteBody
  split
  · simpa [History.add] using held
  · rename_i notFull
    cases copyin with
    | none => simpa [History.add] using held
    | some ch => simpa [History.add] using held.put (Bool.eq_false_iff.mpr notFull) ch

theorem Carries.pipereadTest (n : ℕ) (copyout : ℕ → Bool) :
    Carries (pipereadTest procs p pi n copyout).pipe (h.add (pipereadTest procs p pi n copyout)) := by
  unfold Piping.pipereadTest
  split
  · simpa [History.add] using held
  · simpa [History.add] using held.take

omit [DecidableEq P] in
theorem Carries.quiet {e : Effect P} (same : e.pipe.bytes = pi.bytes)
    (counters : e.pipe.nwrite - e.pipe.nread = pi.nwrite - pi.nread) (silent : e.put = [] ∧ e.took = []) :
    Carries e.pipe (h.add e) := by
  refine ⟨counters ▸ held.room, ?_⟩
  rw [History.add, silent.1, silent.2, same, List.append_nil, List.append_nil]
  exact held.order

theorem Carries.code {proc : P → Proc} {o : Input P} {pc : Pc P} {e : Effect P}
    (action : code procs p pi proc o pc = some e) : Carries e.pipe (h.add e) := by
  cases pc <;> simp only [Piping.code, Option.some.injEq] at action
  case readAcquire n =>
    subst action
    exact held.pipereadTest n o.copyout
  case closeAcquire writable =>
    subst action
    cases writable <;> exact held.quiet rfl rfl ⟨rfl, rfl⟩
  case sleepReacquire loop =>
    subst action
    cases loop with
    | write i n => exact held.quiet rfl rfl ⟨rfl, rfl⟩
    | read n => exact held.pipereadTest n o.copyout
  case killedRelease loop k =>
    subst action
    cases k with
    | true => exact held.quiet rfl rfl ⟨rfl, rfl⟩
    | false =>
      cases loop with
      | write i n => exact held.pipewriteBody i n o.copyin
      | read n => exact held.quiet rfl rfl ⟨rfl, rfl⟩
  case asleep loop =>
    split at action
    · obtain rfl := Option.some.inj action
      exact held.quiet rfl rfl ⟨rfl, rfl⟩
    · cases action
  all_goals
    subst action
    exact held.quiet rfl rfl ⟨rfl, rfl⟩

end

/-- A pipe is a queue: the bytes taken out, followed by those between the counters, are those put in. -/
theorem pipe_is_fifo (procs : List P) (data : Fin PIPESIZE → Byte) (killed : P → Bool) {s : State P} {h : History}
    (reached : ((system procs data killed).recorded ⟨[], []⟩ (note procs)).Reachable (s, h)) :
    (s.pipe.nwrite - s.pipe.nread).toNat ≤ PIPESIZE ∧
      h.took ++ contents s.pipe.data s.pipe.nread s.pipe.nwrite = h.put := by
  have held : Carries s.pipe h := by
    refine System.Reachable.invariant (fun x => Carries x.1.pipe x.2) ⟨by simp [System.recorded, system], ?_⟩ ?_ reached
    · simp [System.recorded, system, Pipe.bytes]
    · rintro ⟨before, record⟩ label ⟨after, record'⟩ _ held action
      obtain ⟨moved, noted⟩ := System.recorded_step action
      obtain ⟨e, effect, applied⟩ := Option.bind_eq_some_iff.mp moved
      obtain ⟨lock, _, rfl⟩ := Option.map_eq_some_iff.mp applied
      have same : record' = record.add e := by
        rw [show record' = _ from noted, note, effect]
        rfl
      rw [same]
      exact held.code effect
  exact ⟨held.room, held.order⟩

def writeThenRead : List (Fin 2 × Input (Fin 2)) :=
  (List.replicate 4 (0, ⟨.pipewrite 2, some 7, fun _ => true⟩)) ++
    (List.replicate 5 (0, ⟨.pipewrite 2, some 9, fun _ => true⟩)) ++
      List.replicate 2 (1, ⟨.piperead 1, none, fun _ => true⟩)

theorem pipe_is_fifo_writeThenRead :
    ∃ (s : State (Fin 2)) (h : History),
      ((system (List.finRange 2) (fun _ => 0) fun _ => false).recorded ⟨[], []⟩ (note (List.finRange 2))).Reachable (s, h) ∧
        h.put = [7, 9] ∧ h.took = [7] ∧ (s.pipe.nwrite - s.pipe.nread).toNat ≤ PIPESIZE ∧
          h.took ++ contents s.pipe.data s.pipe.nread s.pipe.nwrite = h.put := by
  have checked : (((system (List.finRange 2) (fun _ => 0) fun _ => false).recorded ⟨[], []⟩
      (note (List.finRange 2))).run ((system (List.finRange 2) (fun _ => 0) fun _ => false).initial, ⟨[], []⟩)
        writeThenRead).map (fun x => (x.2.put, x.2.took)) = some ([7, 9], [7]) := by decide +kernel
  obtain ⟨⟨s, h⟩, ran, values⟩ := Option.map_eq_some_iff.mp checked
  have reached := System.Reachable.run .initial ran
  exact ⟨s, h, reached, congrArg Prod.fst values, congrArg Prod.snd values,
    pipe_is_fifo (List.finRange 2) (fun _ => 0) (fun _ => false) reached⟩

end OsProjects.Piping

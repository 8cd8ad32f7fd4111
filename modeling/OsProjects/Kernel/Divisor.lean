import OsProjects.Kernel.Draw
import OsProjects.Kernel.Tickets
import OsProjects.Transition.Recorded

namespace OsProjects.Kernel
open Transition

variable {ncpu : ℕ} {s after : State ncpu} {found : Fin ncpu → ℕ} {c : Fin ncpu} {count slots : ℕ} {total : ℤ}
  {o : Oracle}

/-! ## The count of a round -/

/-- How many runnable processes the scheduler of each CPU has counted in its present round. -/
def noteRunnable (s : State ncpu) (move : Fin ncpu × Input) (found : Fin ncpu → ℕ) : Fin ncpu → ℕ :=
  match move, s.stack move.1, s.scheduler move.1 with
  | (c, .run _), none, .totalAcquire i _ =>
    Function.update found c ((if i = 0 then 0 else found c) + if (s.proc i).state = .runnable then 1 else 0)
  | _, _, _ => found

structure Tally (count slots : ℕ) (total : ℤ) : Prop where
  low : (count : ℤ) ≤ total
  high : total ≤ slots * maxTickets
  zero : count = 0 → total = 0

def SchedPc.Tallied (found : ℕ) : SchedPc → Prop
  | .totalAcquire i total => Tally (if i = 0 then 0 else found) i total
  | .totalRelease i total => Tally found (i + 1) total
  | .wakeupAcquire _ _ next | .wakeupRelease _ _ next => next.Tallied found
  | _ => True

theorem tally_zero : Tally 0 0 0 := ⟨le_rfl, by simp, fun _ => rfl⟩

theorem Tally.bound (tally : Tally count slots total) (few : slots ≤ NPROC) : total ≤ 2 ^ 31 - 1 := by
  have high := tally.high
  simp only [maxTickets, NPROC] at *
  omega

theorem Tally.add {p : Proc} (tally : Tally count slots total) (few : slots < NPROC)
    (allotted : p.state = .runnable → Allotted p.tickets) :
    Tally (count + if p.state = .runnable then 1 else 0) (slots + 1) (addTickets total p) := by
  obtain ⟨low, high, zero⟩ := tally
  have most : (slots + 1) * maxTickets ≤ 2 ^ 31 - 1 := by
    simp only [maxTickets, NPROC] at *
    omega
  have step : ((slots + 1 : ℕ) : ℤ) * maxTickets = slots * maxTickets + maxTickets := by push_cast; ring
  unfold addTickets
  split
  · rename_i runnable
    obtain ⟨one, max⟩ := allotted runnable
    have sum : int (total + p.tickets) = total + p.tickets := by
      refine int_eq_self ?_ ?_
      · omega
      · linarith
    rw [sum]
    refine ⟨?_, by linarith, by omega⟩
    push_cast
    linarith
  · refine ⟨by simpa using low, ?_, by simpa using zero⟩
    have positive : 0 ≤ maxTickets := by decide
    linarith

theorem tallied_forNext {body : Slot → SchedPc} {done : SchedPc} {i : Slot}
    (more : ∀ j, nextSlot i = some j → (body j).Tallied count) (last : nextSlot i = none → done.Tallied count) :
    (forNext i body done).Tallied count := by
  unfold forNext
  cases next : nextSlot i with
  | none => exact last next
  | some j => exact more j next

theorem scheduler_tallied {pc : SchedPc} (allotment : Allotment s)
    (tallied : (s.scheduler c).Tallied count) (next : (scheduler s.proc o (s.scheduler c)).next = .goto pc) :
    pc.Tallied (match s.scheduler c with
      | .totalAcquire i _ => (if i = 0 then 0 else count) + if (s.proc i).state = .runnable then 1 else 0
      | _ => count) := by
  cases here : s.scheduler c with
  | totalAcquire i total =>
    rw [here] at tallied next
    cases next
    exact tallied.add i.isLt fun runnable => allotment.tickets i (by simp [runnable])
  | totalRelease i total =>
    rw [here] at tallied next
    cases next
    refine tallied_forNext (fun j more => ?_) fun _ => trivial
    have value := nextSlot_eq_some more
    have other : j ≠ 0 := by
      rintro rfl
      simp at value
    rw [SchedPc.Tallied, if_neg other, value]
    exact tallied
  | scanAcquire i counted winning =>
    rw [here] at next
    simp only [scheduler] at next
    split at next
    · split at next <;> cases next
      trivial
    · cases next
      trivial
  | scanRelease i counted winning =>
    rw [here] at next
    cases next
    exact tallied_forNext (fun _ _ => trivial) fun _ => tally_zero
  | swtched p =>
    rw [here] at next
    cases next
  | wakeupAcquire chan i after =>
    rw [here] at tallied next
    cases next
    exact tallied
  | wakeupRelease chan i after =>
    rw [here] at tallied next
    cases next
    exact tallied_forNext (fun _ _ => tallied) fun _ => tallied

theorem tallied_trap (tallied : (s.scheduler c).Tallied count) (i : Interrupt) :
    (schedulerTrap (s.scheduler c) i).Tallied count := by
  cases i <;> exact tallied

theorem noteRunnable_on {p : Slot} (on : s.stack c = some p) : noteRunnable s (c, .run o) found = found := by
  simp [noteRunnable, on]

theorem noteRunnable_run (o : Oracle) (off : s.stack c = none) : noteRunnable s (c, .run o) found =
    Function.update found c (match s.scheduler c with
      | .totalAcquire i _ => (if i = 0 then 0 else found c) + if (s.proc i).state = .runnable then 1 else 0
      | _ => found c) := by
  cases here : s.scheduler c <;> simp [noteRunnable, off, here]

theorem moved_tallied {move : Fin ncpu × Input} (allotment : Allotment s) (tallied : ∀ c, (s.scheduler c).Tallied (found c))
    (moved : Moved s move after) : ∀ c, (after.scheduler c).Tallied (noteRunnable s move found c) := by
  -- only the CPU of the step counts, and only with its scheduler
  have counting {c : Fin ncpu} {o : Oracle} {pc : SchedPc} (off : s.stack c = none)
      (fine : pc.Tallied (noteRunnable s (c, .run o) found c)) (c' : Fin ncpu) :
      (Function.update s.scheduler c pc c').Tallied (noteRunnable s (c, .run o) found c') := by
    by_cases same : c' = c
    · subst same
      simpa using fine
    · rw [Function.update_of_ne same, noteRunnable_run o off, Function.update_of_ne same]
      exact tallied c'
  cases moved with
  | advance on => rwa [noteRunnable_on on]
  | swtch on => rwa [noteRunnable_on on]
  | trap => exact tallied
  | @schedule c o e lock pc off code applied next =>
    refine counting off ?_
    rw [noteRunnable_run o off, Function.update_self]
    exact scheduler_tallied allotment (tallied c) (code ▸ next)
  | dispatch off => exact counting off trivial
  | idle off => exact counting off tally_zero
  | @schedulerTrap c i off enabled =>
    intro c'
    change (Function.update s.scheduler c _ c').Tallied (found c')
    by_cases same : c' = c
    · subst same
      simpa using tallied_trap (tallied c') i
    · rw [Function.update_of_ne same]
      exact tallied c'

theorem reached_tallied {x : State ncpu × (Fin ncpu → ℕ)}
    (reached : ((system ncpu).recorded (fun _ => 0) noteRunnable).ReachedBy (fun x move => SetsAllotted x.1 move) x) :
    ∀ c, (x.1.scheduler c).Tallied (x.2 c) := by
  refine reached.invariant (fun x => ∀ c, (x.1.scheduler c).Tallied (x.2 c)) (fun _ => tally_zero) ?_
  intro before move after previous tallied _ action
  obtain ⟨moved, noted⟩ := System.recorded_step action
  rw [noted]
  exact moved_tallied (reachedBy_allotment previous.forget) tallied (step_moved moved)

/-! ## The draw -/

/-- If the count of a round has met a runnable process, the divisor is positive and no operation of the draw overflows,
so that the winning ticket lies among the tickets counted. -/
theorem draw_defined (ncpu : ℕ) {s : State ncpu} {found : Fin ncpu → ℕ}
    (reached : ((system ncpu).recorded (fun _ => 0) noteRunnable).ReachedBy (fun x move => SetsAllotted x.1 move) (s, found))
    {c : Fin ncpu} {i : Slot} {total : ℤ} (counted : s.scheduler c = .totalRelease i total) (last : nextSlot i = none)
    (some : found c ≠ 0) :
    int (total - 1) = total - 1 ∧ int (int (total - 1) + 1) = total ∧ total ≠ 0 ∧
      ∀ o : Oracle, 0 ≤ o.nextRand → ∃ winningTicket, 1 ≤ winningTicket ∧ winningTicket ≤ total ∧
        scheduler s.proc o (s.scheduler c) =
          { op := .release (.proc i), next := .goto (.scanAcquire 0 0 winningTicket) } := by
  have tally : Tally (found c) (i + 1) total := by
    have tallied := reached_tallied reached c
    rwa [counted] at tallied
  have low := tally.low
  have bound := tally.bound i.isLt
  have positive : 1 ≤ total := by omega
  have less : int (total - 1) = total - 1 := int_eq_self (by omega) (by omega)
  refine ⟨less, ?_, by omega, fun o random => ⟨scaledRandom 1 total o.nextRand, ?_, ?_, ?_⟩⟩
  · rw [less, sub_add_cancel, int_eq_self (by omega) bound]
  · rw [scaledRandom_one positive bound random]
    have rest := Int.emod_nonneg o.nextRand (by omega : total ≠ 0)
    omega
  · rw [scaledRandom_one positive bound random]
    have rest := Int.emod_lt_of_pos o.nextRand (by omega : 0 < total)
    omega
  · rw [counted, scheduler, forNext, last]

def idleTurns (c : Fin 2) (n : ℕ) : List (Fin 2 × Input) := List.replicate n (c, .run ⟨.timer, true, true, true, true, 0, .done⟩)

set_option maxRecDepth 10000 in
theorem draw_defined_boot :
    ∃ (s : State 2) (found : Fin 2 → ℕ),
      ((system 2).recorded (fun _ => 0) noteRunnable).ReachedBy (fun x move => SetsAllotted x.1 move) (s, found) ∧
        s.scheduler 0 = .totalRelease 63 1 ∧ found 0 = 1 ∧ int (int (1 - 1) + 1) = 1 ∧
        ∀ o : Oracle, 0 ≤ o.nextRand → ∃ winningTicket, 1 ≤ winningTicket ∧ winningTicket ≤ 1 ∧
          scheduler s.proc o (s.scheduler 0) =
            { op := .release (.proc 63), next := .goto (.scanAcquire 0 0 winningTicket) } := by
  have checked : (((system 2).recorded (fun _ => 0) noteRunnable).runBy (fun x move => SetsAllotted x.1 move)
      (userinit 2, fun _ => 0) (idleTurns 0 127)).map (fun x => (x.1.scheduler 0, x.2 0)) = some (.totalRelease 63 1, 1) := by
    decide +kernel
  obtain ⟨⟨s, found⟩, ran, values⟩ := Option.map_eq_some_iff.mp checked
  have reached := System.ReachedBy.runBy .initial ran
  have pc : s.scheduler 0 = .totalRelease 63 1 := congrArg Prod.fst values
  have one : found 0 = 1 := congrArg Prod.snd values
  have draw := draw_defined 2 reached pc rfl (by simp [one])
  exact ⟨s, found, reached, pc, one, draw.2.1, draw.2.2.2⟩

set_option maxRecDepth 10000 in
/-- The only process runs on the first CPU while the second one counts: the divisor is zero. -/
theorem idle_draw_divides_by_zero :
    ∃ s : State 2, (system 2).Reachable s ∧ s.scheduler 1 = .totalRelease 63 0 ∧
      (∀ p, (s.proc p).state ≠ .runnable) ∧ int (int (0 - 1) + 1) = 0 := by
  have checked : ((system 2).run (userinit 2) (idleTurns 0 130 ++ idleTurns 1 127)).map
      (fun s => (s.scheduler 1, decide (∀ p, (s.proc p).state ≠ .runnable))) = some (.totalRelease 63 0, true) := by
    decide +kernel
  obtain ⟨s, ran, values⟩ := Option.map_eq_some_iff.mp checked
  have none : decide (∀ p, (s.proc p).state ≠ .runnable) = true := congrArg Prod.snd values
  exact ⟨s, System.Reachable.run .initial ran, congrArg Prod.fst values, of_decide_eq_true none, by decide⟩

end OsProjects.Kernel

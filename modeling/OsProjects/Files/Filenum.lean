import Mathlib.Data.Fintype.Pi
import OsProjects.Files.Refs
import OsProjects.Transition.Recorded

namespace OsProjects.Files
open Transition Kernel

/-! ## Processes with their numbers -/

structure Processes where
  kernel : State
  pid : Slot → ℤ
  killed : Slot → Bool
  nextpid : ℤ

namespace Processes

def freeproc (s : Processes) (p : Slot) : Processes :=
  { s with pid := Function.update s.pid p 0, killed := Function.update s.killed p false }

/-- What a call does to the numbers. A `fork` that fails after `allocproc` has used its number up. -/
def number (s : Processes) : Call → Processes
  | .fork succeeds =>
    match allocproc s.kernel with
    | none => s
    | some np =>
      let numbered := { s with pid := Function.update s.pid np s.nextpid, nextpid := int (s.nextpid + 1) }
      if succeeds then numbered else numbered.freeproc np
  | .wait child => if s.kernel.proc child = .zombie then s.freeproc child else s
  | _ => s

def find (s : Processes) (pid : ℤ) : Option Slot := (List.finRange NPROC).find? fun p => s.pid p = pid

def wake (k : State) (p : Slot) : State :=
  if k.proc p = .sleeping then { k with proc := Function.update k.proc p .runnable } else k

def kill (s : Processes) (pid : ℤ) : Processes :=
  match s.find pid with
  | none => s
  | some p => { s with kernel := wake s.kernel p, killed := Function.update s.killed p true }

def countFiles (s : Processes) (p : Slot) (fds : List (Fin NOFILE)) (count : ℤ) : ℤ :=
  fds.foldl (fun count fd => if (s.kernel.files.ofile (p, fd)).isSome then count + 1 else count) count

def sysGetfilenum (s : Processes) (targetPid : ℤ) : ℤ :=
  match s.find targetPid with
  | none => 0
  | some p => s.countFiles p (List.finRange NOFILE) 0

end Processes

inductive Request
  | call (c : Call)
  | kill (pid : ℤ)

def booted : Processes where
  kernel := start
  pid := Function.update (fun _ => 0) initproc 1
  killed := fun _ => false
  nextpid := 2

def processes : System Processes (Slot × Request) where
  initial := booted
  step s label :=
    match label.2 with
    | .call c => (system.step s.kernel (label.1, c)).map fun k => { s.number c with kernel := k }
    | .kill pid => if s.kernel.live label.1 then some (s.kill pid) else none

def noteAllocated (s : Processes) (label : Slot × Request) (allocated : ℕ) : ℕ :=
  match label.2 with
  | .call (.fork _) => if (allocproc s.kernel).isSome then allocated + 1 else allocated
  | _ => allocated

/-! ## Which slots are in use -/

variable {p : Slot} {c : Call} {k : State} {s : Processes} {n : ℕ}

theorem call_proc {s t : State} (result : call s p c = .ok t) :
    t.proc = match c with
      | .fork true => (allocproc s).elim s.proc fun np => Function.update s.proc np .runnable
      | .exit => Function.update s.proc p .zombie
      | .wait child => if s.proc child = .zombie then Function.update s.proc child .unused else s.proc
      | _ => s.proc := by
  cases c with
  | openFile found wronly rdwr =>
    cases ran : (sysOpen p found wronly rdwr).run s.files <;> simp [call, ran] at result
    simp [← result]
  | dup fd =>
    cases ran : (sysDup p fd).run s.files <;> simp [call, ran] at result
    simp [← result]
  | close fd =>
    cases ran : (sysClose p fd).run s.files <;> simp [call, ran] at result
    simp [← result]
  | pipe page copyout =>
    cases ran : (sysPipe p page copyout).run s.files <;> simp [call, ran] at result
    simp [← result]
  | fork succeeds =>
    simp only [call, fork] at result
    cases found : allocproc s with
    | none =>
      rw [found] at result
      obtain rfl := Except.ok.inj result
      cases succeeds <;> rfl
    | some np =>
      cases succeeds with
      | false =>
        rw [found] at result
        obtain rfl := Except.ok.inj result
        rfl
      | true =>
        cases ran : (dupFiles p np (List.finRange NOFILE)).run s.files <;> simp [found, ran] at result
        simp [← result]
  | exit =>
    simp only [call, exit] at result
    split at result
    · cases result
    · cases ran : (closeFiles p (List.finRange NOFILE)).run s.files <;> simp [ran] at result
      simp [← result]
  | wait child =>
    obtain rfl := Except.ok.inj result
    simp only [wait]
    split <;> rfl

theorem system_step_cases {s t : State} (action : system.step s (p, c) = some t) : s.live p ∧ call s p c = .ok t := by
  simp only [system, perform] at action
  split at action
  · rename_i allowed
    refine ⟨allowed.1, ?_⟩
    cases result : call s p c with
    | error panic => simp [result, Except.toOption] at action
    | ok after => simpa [result, Except.toOption] using action
  · simp at action

/-! ## Numbers name processes -/

/-- The processes in use have the numbers handed out so far, each its own; a free slot has number 0. -/
structure Numbered (proc : Slot → ProcState) (pid : Slot → ℤ) (nextpid : ℤ) : Prop where
  next : 1 ≤ nextpid
  free : ∀ p, proc p = .unused → pid p = 0
  used : ∀ p, proc p ≠ .unused → 1 ≤ pid p ∧ pid p < nextpid
  distinct : ∀ p q, proc p ≠ .unused → proc q ≠ .unused → pid p = pid q → p = q

variable {proc proc' : Slot → ProcState} {pid : Slot → ℤ} {nextpid : ℤ}

section
variable (numbered : Numbered proc pid nextpid)
include numbered

theorem Numbered.quiet (same : ∀ p, proc' p = .unused ↔ proc p = .unused) :
    Numbered proc' pid nextpid where
  next := numbered.next
  free p free := numbered.free p ((same p).mp free)
  used p used := numbered.used p (mt (same p).mpr used)
  distinct p q first second := numbered.distinct p q (mt (same p).mpr first) (mt (same q).mpr second)

theorem Numbered.more : Numbered proc pid (nextpid + 1) where
  next := by have := numbered.next; omega
  free := numbered.free
  used p used := by have := numbered.used p used; omega
  distinct := numbered.distinct

theorem Numbered.take (np : Slot) {state : ProcState} (live : state ≠ .unused) :
    Numbered (Function.update proc np state) (Function.update pid np nextpid) (nextpid + 1) where
  next := numbered.more.next
  free p free := by
    have other : p ≠ np := by
      rintro rfl
      exact live (by simpa using free)
    simpa [other] using numbered.free p (by simpa [other] using free)
  used p used := by
    by_cases same : p = np
    · have positive := numbered.next
      subst same
      simpa using positive
    · simpa [same] using numbered.more.used p (by simpa [same] using used)
  distinct p q first second equal := by
    have older : ∀ r, r ≠ np → Function.update proc np state r ≠ .unused → Function.update pid np nextpid r ≠ nextpid := by
      intro r other used
      have bound := numbered.used r (by simpa [other] using used)
      simp only [Function.update_of_ne other]
      omega
    by_cases same : p = np
    · subst same
      by_contra other
      exact older q (Ne.symm other) second (by simpa using equal.symm)
    · by_cases same' : q = np
      · subst same'
        exact absurd (by simpa using equal) (older p same first)
      · exact numbered.distinct p q (by simpa [same] using first) (by simpa [same'] using second)
          (by simpa [same, same'] using equal)

theorem Numbered.give (child : Slot) :
    Numbered (Function.update proc child .unused) (Function.update pid child 0) nextpid where
  next := numbered.next
  free p free := by
    by_cases same : p = child
    · simp [same]
    · simpa [same] using numbered.free p (by simpa [same] using free)
  used p used := by
    have other : p ≠ child := by
      rintro rfl
      simp at used
    simpa [other] using numbered.used p (by simpa [other] using used)
  distinct p q first second equal := by
    have other : ∀ r, Function.update proc child .unused r ≠ .unused → r ≠ child := by
      rintro r used rfl
      simp at used
    refine numbered.distinct p q (by simpa [other p first] using first) (by simpa [other q second] using second) ?_
    simpa [other p first, other q second] using equal

theorem Numbered.put_free {np : Slot} (free : proc np = .unused) (taken : ℤ) :
    Function.update (Function.update pid np taken) np 0 = pid := by
  rw [Function.update_idem]
  exact Function.update_eq_self_iff.mpr (numbered.free np free).symm

end

/-! ## Every reachable state -/

structure Processes.Inv (s : Processes) (allocated : ℕ) : Prop where
  files : Files.Inv s.kernel
  numbered : allocated < 2 ^ 31 - 1 → s.nextpid = allocated + 1 ∧ Numbered s.kernel.proc s.pid s.nextpid

theorem wake_unused (k : State) (p q : Slot) : (Processes.wake k p).proc q = .unused ↔ k.proc q = .unused := by
  unfold Processes.wake
  split
  · rename_i sleeping
    by_cases same : q = p
    · simp [same, sleeping]
    · simp [same]
  · rfl

theorem wake_files (inv : Files.Inv k) (p : Slot) : Files.Inv (Processes.wake k p) := by
  unfold Processes.wake
  split
  · rename_i sleeping
    refine ⟨inv.counted, fun q dead fd => inv.closed q (fun live => dead ?_) fd⟩
    by_cases same : q = p
    · simp [State.live, same]
    · simpa [State.live, same] using live
  · exact inv

theorem Processes.Inv.kill (inv : s.Inv n) (pid : ℤ) : (s.kill pid).Inv n := by
  unfold Processes.kill
  cases s.find pid with
  | none => exact inv
  | some p =>
    refine ⟨wake_files inv.files p, fun few => ⟨(inv.numbered few).1, ?_⟩⟩
    exact (inv.numbered few).2.quiet (wake_unused s.kernel p)

theorem int_next {nextpid : ℤ} (next : nextpid = n + 1) (few : n + 1 < 2 ^ 31 - 1) :
    int (nextpid + 1) = nextpid + 1 := int_eq_self (by omega) (by omega)

theorem Processes.Inv.fork {succeeds : Bool} (inv : s.Inv n) (result : call s.kernel p (.fork succeeds) = .ok k)
    (few : noteAllocated s (p, .call (.fork succeeds)) n < 2 ^ 31 - 1) :
    (s.number (.fork succeeds)).nextpid = noteAllocated s (p, .call (.fork succeeds)) n + 1 ∧
      Numbered k.proc (s.number (.fork succeeds)).pid (s.number (.fork succeeds)).nextpid := by
  have procs := call_proc result
  cases found : allocproc s.kernel with
  | none =>
    have same : k.proc = s.kernel.proc := by cases succeeds <;> simpa [found] using procs
    simp only [noteAllocated, found, Option.isSome_none, Bool.false_eq_true, if_false] at few
    simpa [noteAllocated, Processes.number, found, same] using inv.numbered few
  | some np =>
    simp only [noteAllocated, found, Option.isSome_some, if_true] at few
    obtain ⟨next, numbered⟩ := inv.numbered (by omega)
    have unused := allocproc_unused found
    cases succeeds with
    | false =>
      replace procs : k.proc = s.kernel.proc := procs
      simp only [noteAllocated, Processes.number, found, Option.isSome_some, if_true, Processes.freeproc,
        Bool.false_eq_true, if_false, int_next next few, procs, numbered.put_free unused]
      exact ⟨by rw [next]; push_cast; ring, numbered.more⟩
    | true =>
      replace procs : k.proc = Function.update s.kernel.proc np .runnable := by simpa [found] using procs
      simp only [noteAllocated, Processes.number, found, Option.isSome_some, if_true, int_next next few, procs]
      exact ⟨by rw [next]; push_cast; ring, numbered.take np (by simp)⟩

theorem Processes.Inv.still (inv : s.Inv n) (few : n < 2 ^ 31 - 1)
    (same : k.proc = s.kernel.proc) : s.nextpid = n + 1 ∧ Numbered k.proc s.pid s.nextpid :=
  same ▸ inv.numbered few

theorem Processes.Inv.call (inv : s.Inv n) (action : system.step s.kernel (p, c) = some k) :
    ({ s.number c with kernel := k } : Processes).Inv (noteAllocated s (p, .call c) n) := by
  obtain ⟨live, result⟩ := system_step_cases action
  have procs := call_proc result
  refine ⟨(Files.Inv.step inv.files action).inv, fun few => ?_⟩
  cases c with
  | fork succeeds => exact inv.fork result few
  | openFile found wronly rdwr => exact inv.still few procs
  | dup fd => exact inv.still few procs
  | close fd => exact inv.still few procs
  | pipe page copyout => exact inv.still few procs
  | exit =>
    refine ⟨(inv.numbered few).1, (inv.numbered few).2.quiet fun q => ?_⟩
    replace procs : k.proc = Function.update s.kernel.proc p .zombie := procs
    by_cases same : q = p
    · simp [procs, same, live.1]
    · simp [procs, same]
  | wait child =>
    obtain ⟨next, numbered⟩ := inv.numbered few
    simp only [Processes.number]
    by_cases zombie : s.kernel.proc child = .zombie
    · replace procs : k.proc = Function.update s.kernel.proc child .unused := by simpa [zombie] using procs
      simp only [zombie, if_true, Processes.freeproc, procs]
      exact ⟨next, numbered.give child⟩
    · replace procs : k.proc = s.kernel.proc := by simpa [zombie] using procs
      simp only [zombie, if_false, procs]
      exact ⟨next, numbered⟩

theorem booted_inv : booted.Inv 1 where
  files := inv_start
  numbered _ := by
    refine ⟨rfl, by decide, fun p free => ?_, fun p used => ?_, fun p q first second _ => ?_⟩
    · have other : p ≠ initproc := by
        rintro rfl
        simp [booted, start] at free
      simp [booted, other]
    · have same : p = initproc := by
        by_contra other
        simp [booted, start, other] at used
      simp [booted, same]
    · have same : ∀ r, booted.kernel.proc r ≠ .unused → r = initproc := by
        intro r used
        by_contra other
        simp [booted, start, other] at used
      rw [same p first, same q second]

theorem processes_inv {allocated : ℕ}
    (reached : (processes.recorded 1 noteAllocated).Reachable (s, allocated)) : s.Inv allocated := by
  refine System.Reachable.invariant (fun x => x.1.Inv x.2) booted_inv ?_ reached
  intro before label after _ inv action
  obtain ⟨moved, noted⟩ := System.recorded_step action
  obtain ⟨p, request⟩ := label
  rw [noted]
  cases request with
  | call c =>
    obtain ⟨k, stepped, same⟩ := Option.map_eq_some_iff.mp moved
    rw [← same]
    exact inv.call stepped
  | kill pid =>
    obtain ⟨_, same⟩ := Option.ite_none_right_eq_some.mp moved
    rw [← Option.some.inj same]
    exact inv.kill pid

/-! ## Counting the files of a process -/

theorem countFiles_eq (s : Processes) (p : Slot) (fds : List (Fin NOFILE)) (count : ℤ) :
    s.countFiles p fds count = count + fds.countP fun fd => (s.kernel.files.ofile (p, fd)).isSome := by
  induction fds generalizing count with
  | nil => simp [Processes.countFiles]
  | cons fd fds ih =>
    have step := ih (if (s.kernel.files.ofile (p, fd)).isSome then count + 1 else count)
    simp only [Processes.countFiles, List.foldl_cons, List.countP_cons] at step ⊢
    rw [step]
    split <;> simp
    ring

theorem countFiles_card (s : Processes) (p : Slot) : s.countFiles p (List.finRange NOFILE) 0 =
    (Finset.univ.filter fun fd => s.kernel.files.ofile (p, fd) ≠ none).card := by
  rw [countFiles_eq, zero_add, Nat.cast_inj, Finset.card_def, Finset.filter_val]
  change _ = (Multiset.filter _ (Multiset.ofList (List.finRange NOFILE))).card
  rw [Multiset.filter_coe, Multiset.coe_card, List.countP_eq_length_filter]
  congr 2
  funext fd
  cases s.kernel.files.ofile (p, fd) <;> simp

theorem find_pid {pid : ℤ} (found : s.find pid = some p) : s.pid p = pid := by
  simpa using List.find?_some found

theorem find_isSome {pid : ℤ} (has : s.pid p = pid) : ∃ q, s.find pid = some q := by
  rw [← Option.isSome_iff_exists, Processes.find, List.find?_isSome]
  exact ⟨p, List.mem_finRange p, by simpa using has⟩

/-- The number a call reports is the number of descriptors of the one process with that pid, and 0 where there is
none; a free slot is never the one counted. -/
theorem getfilenum_counts {s : Processes} {allocated : ℕ}
    (reached : (processes.recorded 1 noteAllocated).Reachable (s, allocated)) (few : allocated < 2 ^ 31 - 1) (pid : ℤ) :
    (∀ p, s.kernel.proc p ≠ .unused → s.pid p = pid →
      (∀ q, s.kernel.proc q ≠ .unused → s.pid q = pid → q = p) ∧
      s.sysGetfilenum pid = (Finset.univ.filter fun fd => s.kernel.files.ofile (p, fd) ≠ none).card) ∧
    ((∀ p, s.kernel.proc p ≠ .unused → s.pid p ≠ pid) → s.sysGetfilenum pid = 0) ∧
    (∀ p, s.kernel.proc p = .unused → s.pid p = 0) ∧
    (pid ≤ 0 → s.sysGetfilenum pid = 0) := by
  have inv := processes_inv reached
  obtain ⟨_, numbered⟩ := inv.numbered few
  have missing : (∀ p, s.kernel.proc p ≠ .unused → s.pid p ≠ pid) → s.sysGetfilenum pid = 0 := by
    intro absent
    unfold Processes.sysGetfilenum
    cases found : s.find pid with
    | none => rfl
    | some p =>
      -- only a free slot can match, and its descriptors are gone
      have unused : s.kernel.proc p = .unused := by
        by_contra used
        exact absent p used (find_pid found)
      have closed := inv.files.closed p fun live => live.1 unused
      simp [countFiles_card, closed]
  refine ⟨fun p used has => ⟨fun q used' has' => numbered.distinct q p used' used (has'.trans has.symm), ?_⟩,
    missing, numbered.free, fun low => missing fun p used has => ?_⟩
  · obtain ⟨q, found⟩ := find_isSome has
    have used' : s.kernel.proc q ≠ .unused := by
      intro unused
      have zero := numbered.free q unused
      have positive := (numbered.used p used).1
      have equal := find_pid found
      omega
    have same := numbered.distinct q p used' used ((find_pid found).trans has.symm)
    simp [Processes.sysGetfilenum, found, same, countFiles_card]
  · have positive := (numbered.used p used).1
    omega

def halfClosed : List (Slot × Request) :=
  [(0, .call (.pipe (some 5) true)), (0, .call (.fork false)), (0, .call (.fork true)), (1, .kill 1), (1, .call (.close 0))]

theorem getfilenum_counts_halfClosed : ∃ s, (processes.recorded 1 noteAllocated).Reachable (s, 3) ∧
    s.sysGetfilenum 1 = 2 ∧ s.sysGetfilenum 3 = 1 ∧ s.sysGetfilenum 2 = 0 ∧ s.sysGetfilenum (-1) = 0 := by
  have checked : ((processes.recorded 1 noteAllocated).run (booted, 1) halfClosed).map
      (fun x => (x.2, x.1.sysGetfilenum 1, x.1.sysGetfilenum 3, x.1.sysGetfilenum 2)) = some (3, 2, 1, 0) := by
    decide +kernel
  obtain ⟨⟨s, n⟩, ran, counts⟩ := Option.map_eq_some_iff.mp checked
  simp only [Prod.mk.injEq] at counts
  obtain ⟨rfl, first, third, second⟩ := counts
  have reached := System.Reachable.run .initial ran
  exact ⟨s, reached, first, third, second, (getfilenum_counts reached (by decide) (-1)).2.2.2 (by decide)⟩

end OsProjects.Files

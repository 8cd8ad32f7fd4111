import OsProjects.Kernel.Family

namespace OsProjects.Kernel
open Transition

variable {ncpu : ℕ} {s after : State ncpu} {t : Slot → Proc} {nextpid : ℤ} {o : Oracle} {e : Effect Next}

/-! ## The scan of wait and the loop of wakeup -/

def Pc.scanned (pc : Pc) : ℕ := match pc.base with
  | .waitScan _ _ i | .waitChildAcquire _ i => i.val
  | .waitChildRelease _ i => i.val + 1
  | .waitKilledAcquire _ | .waitKilledRelease _ _ => NPROC
  | .sleepAcquire k | .sleepRelease k => if k.lock = some .wait then NPROC else 0
  | _ => 0

def Pc.dozing (pc : Pc) : Option Sleeper := match pc.base with
  | .sleepSet k => some k
  | _ => none

def Pc.wakes (q : Slot) : Pc → Prop
  | .wakeupAcquire chan i _ => chan = some (.proc q) ∧ i ≤ q
  | .wakeupRelease chan i _ => chan = some (.proc q) ∧ i < q
  | _ => False

theorem kernel_scanned {p : Slot} {pc pc' : Pc}
    (code : kernel t nextpid p o pc = some e) (next : e.next = .goto pc') {q : Slot}
    (past : q.val < pc'.scanned) :
    q.val < pc.scanned ∨ e.table t = t ∧ ((t q).parent ≠ some p ∨ (t q).state ≠ .zombie) := by
  have leads := leads_kernel code next
  have before {i : Slot} (below : q.val < i.val + 1) : q = i ∨ q.val < i.val := by
    rcases Nat.lt_succ_iff_lt_or_eq.mp below with less | same
    · exact .inr less
    · exact .inl (Fin.ext same)
  unfold Pc.scanned at past ⊢
  generalize pc'.base = base at leads past
  rcases leads with idle | ⟨rfl, _⟩ | flow
  · cases idle <;> simp [Sleeper.lock] at past
  · exact .inl past
  cases flow
  case noChild addr havekids i j parent table succ =>
    rcases before (past.trans_eq succ) with rfl | less
    · exact .inr ⟨table, .inl parent⟩
    · exact .inl less
  case scanned addr i parent table last =>
    rcases before (past.trans_eq last.symm) with rfl | less
    · exact .inr ⟨table, .inl parent⟩
    · exact .inl less
  case alive addr i state table =>
    rcases before past with rfl | less
    · exact .inr ⟨table, .inr state⟩
    · exact .inl less
  case nextChild addr i j succ => exact .inl (past.trans_eq succ)
  case lastChild addr i last => exact .inl (past.trans_eq last.symm)
  all_goals exact .inl (past.trans_le (by simp [Sleeper.lock]))

theorem kernel_dozing {p : Slot} {pc pc' : Pc} (code : kernel t nextpid p o pc = some e) (next : e.next = .goto pc') :
    pc'.dozing = none ∨ pc'.dozing = pc.dozing ∨ ∃ k, pc = .sleepRelease k ∧ pc'.dozing = some k := by
  have leads := leads_kernel code next
  unfold Pc.dozing
  generalize pc'.base = base at leads ⊢
  rcases leads with idle | ⟨rfl, _⟩ | flow
  · cases idle <;> exact .inl rfl
  · exact .inr (.inl rfl)
  · cases flow <;> simp

theorem forNext_of_lt {Pc : Type*} {i q : Slot} (before : i < q) (body : Slot → Pc) (done : Pc) :
    ∃ j, j ≤ q ∧ forNext i body done = body j := by
  have more : i.val + 1 < NPROC := lt_of_le_of_lt before q.isLt
  exact ⟨⟨i.val + 1, more⟩, before, by simp [forNext, nextSlot, more]⟩

theorem kernel_wakes {p q : Slot} {pc pc' : Pc} (code : kernel t nextpid p o pc = some e) (next : e.next = .goto pc')
    (wakes : pc.wakes q) (locked : .wait ∈ pc.held p) :
    (.wait ∈ pc'.held p ∧ pc'.wakes q) ∨ ∃ after, pc = .wakeupAcquire (some (.proc q)) q after := by
  cases pc with
  | wakeupAcquire chan i after =>
    obtain ⟨rfl, notPast⟩ := wakes
    simp only [kernel] at code
    by_cases here : i = q
    · exact .inr ⟨after, by rw [here]⟩
    have before : i < q := lt_of_le_of_ne notPast here
    by_cases self : i = p
    · rw [if_pos self] at code
      cases code
      cases next
      obtain ⟨j, notPast, eq⟩ := forNext_of_lt before (Pc.wakeupAcquire (some (.proc q)) · after) after
      rw [eq]
      exact .inl ⟨locked, rfl, notPast⟩
    · rw [if_neg self] at code
      cases code
      cases next
      exact .inl ⟨List.mem_cons_of_mem _ locked, rfl, before⟩
  | wakeupRelease chan i after =>
    obtain ⟨rfl, before⟩ := wakes
    cases code
    cases next
    obtain ⟨j, notPast, eq⟩ := forNext_of_lt before (Pc.wakeupAcquire (some (.proc q)) · after) after
    rw [eq]
    refine .inl ⟨?_, rfl, notPast⟩
    simpa [Pc.held] using locked
  | _ => exact wakes.elim

/-! ## Locks of these threads -/

theorem held_of_base {p : Slot} {pc : Pc} {l : Lock} (wf : pc.wf p) (base : l ∈ pc.base.held p) : l ∈ pc.held p := by
  induction pc with
  | wakeupAcquire chan i next ih => exact ih wf.2 base
  | wakeupRelease chan i next ih => exact List.mem_cons_of_mem _ (ih wf.2 base)
  | yieldAcquire next ih | yieldRelease next ih | killedAcquire next ih | setkilledAcquire next ih
  | selfRelease next ih =>
    have := ih wf.2 base
    simp [wf.1] at this
  | sched resume ih =>
    cases resume with
    | yieldRelease next => exact ih wf base
    | sleepTidy => exact base
    | panic => cases base
    | _ => exact wf.elim
  | _ => exact base

theorem scanned_base {p : Slot} {pc : Pc} (scanned : 0 < pc.scanned) : .wait ∈ pc.base.held p := by
  unfold Pc.scanned at scanned
  cases base : pc.base with
  | sleepAcquire k | sleepRelease k => cases k <;> simp_all [Pc.held, Sleeper.lock]
  | _ => simp_all [Pc.held]

theorem exiting_base {p : Slot} {pc : Pc} {n : ℕ} (exiting : pc.exiting = some n) (progress : 0 < n) :
    .wait ∈ pc.base.held p := by
  unfold Pc.exiting at exiting
  cases base : pc.base with
  | sleepAcquire k | sleepRelease k | sleepSet k | sleepTidy k | sleepReacquire k => cases k <;> simp_all
  | _ => simp_all [Pc.held]

theorem dozing_base {p : Slot} {pc : Pc} {k : Sleeper} (dozing : pc.dozing = some k) : .proc p ∈ pc.base.held p := by
  unfold Pc.dozing at dozing
  split at dozing <;> simp_all [Pc.held]

theorem Pc.parked.wait {p : Slot} {pc : Pc} {state : ProcState} (parked : pc.parked state) : .wait ∉ pc.held p := by
  cases state
  case unused | zombie =>
    rw [show pc = .panic from parked]
    simp [Pc.held]
  case used | sleeping | runnable => simp [Pc.resumes.held parked]
  case running => exact parked.elim

namespace Cores

variable {p q : Slot}

theorem wait_on_stack (cores : Cores s) (held : .wait ∈ (s.kthread p).held p) :
    ∃ c, s.stack c = some p ∧ s.lock .wait = some c := by
  by_cases on : ∃ c, s.stack c = some p
  · obtain ⟨c, on⟩ := on
    exact ⟨c, on, (cores.holds c _).mpr (held_of_stack on ▸ held)⟩
  · exact absurd held (cores.parked p fun c here => on ⟨c, here⟩).wait

theorem wait_unique (cores : Cores s) (here : .wait ∈ (s.kthread p).held p)
    (there : .wait ∈ (s.kthread q).held q) : p = q := by
  obtain ⟨c, on, locked⟩ := cores.wait_on_stack here
  obtain ⟨c', on', locked'⟩ := cores.wait_on_stack there
  obtain rfl : c = c' := by simpa [locked] using locked'
  simpa [on] using on'

end Cores

end OsProjects.Kernel

import OsProjects.Piping.Model

namespace OsProjects.Piping
open Transition

variable {P : Type} [DecidableEq P] {procs : List P} {p q r : P} {pi : Pipe} {proc : P → Proc} {o : Input P} {pc : Pc P}
  {e : Effect P} {s t : State P} {value : Proc} {c : Chan} {killed : Bool} {rest : List P} {loop : Loop}
  {label : P × Input P}

/-! ## The locks -/

def Pc.held (p : P) : Pc P → Lock P → Prop
  | .killedAcquire _ | .wakeupAcquire _ _ _ _ | .sleepAcquire _ | .release _ => fun l => l = .pipe
  | .killedRelease _ _ | .sleepRelease _ => fun l => l = .pipe ∨ l = .proc p
  | .wakeupRelease _ q _ _ => fun l => l = .pipe ∨ l = .proc q
  | .sleepSet _ | .swtched _ | .sleepTidy _ => fun l => l = .proc p
  | .killRelease q => fun l => l = .proc q
  | _ => fun _ => False

omit [DecidableEq P] in
theorem held_scan (chan : Chan) (next : Then) (rest : List P) : (scan chan next rest).held p = fun l => l = .pipe := by
  cases rest with
  | nil => cases next <;> rfl
  | cons q rest => rfl

theorem held_pipewriteTest (i n : ℕ) : (pipewriteTest procs p pi i n).held p = fun l => l = .pipe := by
  unfold pipewriteTest
  split
  · split <;> rfl
  · exact held_scan _ _ _

theorem held_pipewriteBody (i n : ℕ) (copyin : Option Byte) :
    (pipewriteBody procs p pi i n copyin).next.held p = fun l => l = .pipe := by
  unfold pipewriteBody
  split
  · exact held_scan _ _ _
  · cases copyin with
    | none => exact held_scan _ _ _
    | some ch => exact held_pipewriteTest _ _

theorem held_pipereadTest (n : ℕ) (copyout : ℕ → Bool) :
    (pipereadTest procs p pi n copyout).next.held p = fun l => l = .pipe := by
  unfold pipereadTest
  split
  · rfl
  · exact held_scan _ _ _

theorem held_pipeclose (writable : Bool) : (pipeclose procs p pi writable).next.held p = fun l => l = .pipe := by
  cases writable <;> exact held_scan _ _ _

theorem held_loopTest (copyout : ℕ → Bool) (loop : Loop) :
    (loopTest procs p pi copyout loop).next.held p = fun l => l = .pipe := by
  cases loop with
  | write i n => exact held_pipewriteTest i n
  | read n => exact held_pipereadTest n copyout

theorem held_loopBody (copyin : Option Byte) (k : Bool) (loop : Loop) :
    (loopBody procs p pi copyin k loop).next.held p = fun l => l = .pipe := by
  cases k with
  | true => rfl
  | false =>
    cases loop with
    | write i n => exact held_pipewriteBody i n copyin
    | read n => rfl

theorem code_locks (action : code procs p pi proc o pc = some e) : e.op.Moves (pc.held p) (e.next.held p) := by
  cases pc <;> simp only [code, Option.some.injEq] at action
  case user ret =>
    subst action
    intro l
    cases o.call <;> rfl
  case asleep loop =>
    split at action
    · obtain rfl := Option.some.inj action
      intro l
      simp [Pc.held]
    · cases action
  case writeAcquire | readAcquire | closeAcquire | sleepReacquire =>
    subst action
    intro l
    simp only [held_pipewriteTest, held_pipereadTest, held_pipeclose, held_loopTest]
    simp [Pc.held]
  case killedRelease | wakeupRelease =>
    subst action
    intro l
    simp only [held_loopBody, held_scan]
    simp only [Pc.held]
    grind
  all_goals
    subst action
    intro l
    simp only [Pc.held] <;> grind

inductive Written (p : P) (proc : P → Proc) : Pc P → P → Proc → Prop
  | woken {chan : Chan} {q : P} {rest : List P} {next : Then} (asleep : (proc q).state = .sleeping)
      (there : (proc q).chan = some chan) :
      Written p proc (.wakeupAcquire chan q rest next) q { proc q with state := .runnable }
  | killed {q : P} : Written p proc (.killAcquire q) q { proc q with
      killed := true, state := if (proc q).state = .sleeping then .runnable else (proc q).state }
  | sleeps {loop : Loop} : Written p proc (.sleepSet loop) p { proc p with chan := some loop.chan, state := .sleeping }
  | resumed {loop : Loop} : Written p proc (.asleep loop) p { proc p with state := .running }
  | tidied {loop : Loop} : Written p proc (.sleepTidy loop) p { proc p with chan := none }

theorem write_pipewriteBody (i n : ℕ) (copyin : Option Byte) : (pipewriteBody procs p pi i n copyin).write = none := by
  unfold pipewriteBody
  split
  · rfl
  · cases copyin <;> rfl

theorem write_pipereadTest (n : ℕ) (copyout : ℕ → Bool) : (pipereadTest procs p pi n copyout).write = none := by
  unfold pipereadTest
  split <;> rfl

theorem code_written (action : code procs p pi proc o pc = some e) (write : e.write = some (q, value)) :
    Written p proc pc q value := by
  cases pc <;> simp only [code, Option.some.injEq] at action
  case asleep loop =>
    split at action
    · obtain rfl := Option.some.inj action
      obtain ⟨rfl, rfl⟩ := Prod.mk.inj (Option.some.inj write)
      exact .resumed
    · cases action
  case readAcquire n =>
    subst action
    cases (write_pipereadTest n o.copyout).symm.trans write
  case closeAcquire writable =>
    subst action
    cases writable <;> cases write
  case sleepReacquire loop =>
    subst action
    cases loop with
    | write i n => cases write
    | read n => cases (write_pipereadTest n o.copyout).symm.trans write
  case killedRelease loop k =>
    subst action
    cases k with
    | true => cases write
    | false =>
      cases loop with
      | write i n => cases (write_pipewriteBody i n o.copyin).symm.trans write
      | read n => cases write
  case wakeupAcquire chan target rest next =>
    subst action
    obtain ⟨found, equal⟩ := Option.ite_none_right_eq_some.mp write
    obtain ⟨rfl, rfl⟩ := Prod.mk.inj (Option.some.inj equal)
    exact .woken found.1 found.2
  case killAcquire target =>
    subst action
    obtain ⟨rfl, rfl⟩ := Prod.mk.inj (Option.some.inj write)
    exact .killed
  case sleepSet loop =>
    subst action
    obtain ⟨rfl, rfl⟩ := Prod.mk.inj (Option.some.inj write)
    exact .sleeps
  case sleepTidy loop =>
    subst action
    obtain ⟨rfl, rfl⟩ := Prod.mk.inj (Option.some.inj write)
    exact .tidied
  all_goals
    subst action
    cases write

theorem code_pipe (action : code procs p pi proc o pc = some e) : e.pipe = pi ∨ e.next.held p .pipe := by
  cases pc <;> simp only [code, Option.some.injEq] at action
  case asleep loop =>
    split at action
    · obtain rfl := Option.some.inj action
      exact .inl rfl
    · cases action
  case readAcquire | closeAcquire | sleepReacquire | killedRelease =>
    subst action
    simp only [held_pipereadTest, held_pipeclose, held_loopTest, held_loopBody, or_true]
  all_goals
    subst action
    exact .inl rfl

/-! ## What sleepers wait for -/

def Pipe.Idle (pi : Pipe) : Chan → Prop
  | .nread => pi.empty = true ∧ pi.writeopen = true
  | .nwrite => pi.full = true ∧ pi.readopen = true

def Then.guard (pi : Pipe) : Then → Prop
  | .release _ => True
  | .sleep loop => pi.Idle loop.chan

def Pc.guard (pi : Pipe) : Pc P → Prop
  | .killedAcquire loop | .killedRelease loop _ => match loop with
      | .write _ _ => pi.readopen = true
      | .read _ => pi.Idle .nread
  | .wakeupAcquire _ _ _ next | .wakeupRelease _ _ _ next => next.guard pi
  | .sleepAcquire loop | .sleepRelease loop => pi.Idle loop.chan
  | _ => True

variable {next : Then}

omit [DecidableEq P] in
theorem guard_scan (fits : next.guard pi) (chan : Chan) (rest : List P) : (scan chan next rest).guard pi := by
  cases rest with
  | nil => cases next <;> exact fits
  | cons q rest => exact fits

theorem guard_wakeup_release (chan : Chan) (ret : ℤ) : (wakeup procs p chan (.release ret)).guard pi := by
  have fits : (Then.release ret).guard pi := trivial
  exact guard_scan fits _ _

theorem guard_pipewriteTest (i n : ℕ) : (pipewriteTest procs p pi i n).guard pi := by
  unfold pipewriteTest
  split
  · split
    · trivial
    · rename_i isOpen
      exact Bool.eq_true_of_not_eq_false isOpen
  · exact guard_wakeup_release _ _

theorem guard_pipereadTest (n : ℕ) (copyout : ℕ → Bool) :
    (pipereadTest procs p pi n copyout).next.guard (pipereadTest procs p pi n copyout).pipe := by
  unfold pipereadTest
  split
  · rename_i idle
    exact Bool.and_eq_true_iff.mp idle
  · exact guard_wakeup_release _ _

theorem guard_pipewriteBody (i n : ℕ) (copyin : Option Byte) (isOpen : pi.readopen = true) :
    (pipewriteBody procs p pi i n copyin).next.guard (pipewriteBody procs p pi i n copyin).pipe := by
  unfold pipewriteBody
  split
  · rename_i full
    have idle : (Then.sleep (.write i n)).guard pi := ⟨full, isOpen⟩
    exact guard_scan idle _ _
  · cases copyin with
    | none => exact guard_wakeup_release _ _
    | some ch => exact guard_pipewriteTest _ _

theorem code_guard (action : code procs p pi proc o pc = some e) (guard : pc.guard pi) : e.next.guard e.pipe := by
  cases pc <;> simp only [code, Option.some.injEq] at action
  case asleep loop =>
    split at action
    · obtain rfl := Option.some.inj action
      trivial
    · cases action
  case user ret =>
    subst action
    cases o.call <;> trivial
  case writeAcquire n =>
    subst action
    exact guard_pipewriteTest 0 n
  case readAcquire n =>
    subst action
    exact guard_pipereadTest n o.copyout
  case closeAcquire writable =>
    subst action
    cases writable <;> exact guard_wakeup_release _ _
  case sleepReacquire loop =>
    subst action
    cases loop with
    | write i n => exact guard_pipewriteTest i n
    | read n => exact guard_pipereadTest n o.copyout
  case killedRelease loop k =>
    subst action
    cases k with
    | true => trivial
    | false =>
      cases loop with
      | write i n => exact guard_pipewriteBody i n o.copyin guard
      | read n => exact guard
  case wakeupRelease chan q rest next =>
    subst action
    exact guard_scan guard _ _
  all_goals
    subst action
    first | exact guard | trivial

/-! ## Who is going to wake them -/

def Owes (killed : Bool) (c : Chan) (r : P) : Pc P → Prop
  | .killedAcquire (.write i _) => c = .nread ∧ 0 < i ∧ killed = false
  | .killedRelease (.write _ _) k => c = .nread ∧ k = false
  | .wakeupAcquire chan q rest _ => c = chan ∧ r ∈ q :: rest
  | .wakeupRelease chan _ rest _ => c = chan ∧ r ∈ rest
  | _ => False

omit [DecidableEq P] in
theorem Owes.held (owes : Owes killed c r pc) : pc.held p .pipe := by
  cases pc <;> first | exact rfl | exact .inl rfl | exact owes.elim

omit [DecidableEq P] in
theorem Owes.change {killed' : Bool} (owes : Owes killed c r pc)
    (same : ∀ i n, pc = .killedAcquire (.write i n) → 0 < i → killed' = killed) : Owes killed' c r pc := by
  cases pc with
  | killedAcquire loop =>
    cases loop with
    | write i n => exact ⟨owes.1, owes.2.1, (same i n rfl owes.2.1).trans owes.2.2⟩
    | read n => exact owes
  | killedRelease loop k => cases loop <;> exact owes
  | _ => exact owes

omit [DecidableEq P] in
theorem owes_scan (killed : Bool) (chan : Chan) (next : Then) (member : r ∈ rest) :
    Owes killed chan r (scan chan next rest) := by
  cases rest with
  | nil => cases member
  | cons q rest => exact ⟨rfl, member⟩

section
variable (member : r ∈ procs) (other : r ≠ p)
include member other

theorem owes_wakeup (killed : Bool) (chan : Chan) (next : Then) : Owes killed chan r (wakeup procs p chan next) :=
  owes_scan killed chan next (List.mem_filter.mpr ⟨member, decide_eq_true other⟩)

theorem owes_pipewriteTest (isOpen : pi.readopen = true) (i n : ℕ) :
    Owes false .nread r (pipewriteTest procs p pi (i + 1) n) := by
  unfold pipewriteTest
  split
  · rw [if_neg (by simp [isOpen])]
    exact ⟨rfl, i.succ_pos, rfl⟩
  · exact owes_wakeup member other _ _ _

theorem owes_pipewriteBody (isOpen : pi.readopen = true) (i n : ℕ)
    (copyin : Option Byte) : Owes false .nread r (pipewriteBody procs p pi i n copyin).next := by
  unfold pipewriteBody
  split
  · exact owes_wakeup member other _ _ _
  · cases copyin with
    | none => exact owes_wakeup member other _ _ _
    | some ch => exact owes_pipewriteTest member other isOpen i n

theorem idle_or_owes_pipereadTest (idle : pi.Idle c) (n : ℕ) (copyout : ℕ → Bool) (killed : Bool) :
    (pipereadTest procs p pi n copyout).pipe.Idle c ∨ Owes killed c r (pipereadTest procs p pi n copyout).next := by
  unfold pipereadTest
  split
  · exact .inl idle
  · rename_i busy
    cases c with
    | nread => exact absurd (Bool.and_eq_true_iff.mpr idle) busy
    | nwrite => exact .inr (owes_wakeup member other _ _ _)

theorem idle_or_owes_pipewriteBody (isOpen : pi.readopen = true) (idle : pi.Idle c) (i n : ℕ) (copyin : Option Byte) :
    (pipewriteBody procs p pi i n copyin).pipe.Idle c ∨ Owes false c r (pipewriteBody procs p pi i n copyin).next := by
  cases c with
  | nread => exact .inr (owes_pipewriteBody member other isOpen i n copyin)
  | nwrite =>
    left
    unfold pipewriteBody
    rw [if_pos idle.1]
    exact idle

theorem code_idle (action : code procs p pi proc o pc = some e) (guard : pc.guard pi)
    (tested : ∀ loop k, pc = .killedRelease loop k → (proc p).killed = k) (idle : pi.Idle c) :
    e.pipe.Idle c ∨ Owes (writeProc proc e.write p).killed c r e.next := by
  cases pc <;> simp only [code, Option.some.injEq] at action
  case asleep loop =>
    split at action
    · obtain rfl := Option.some.inj action
      exact .inl idle
    · cases action
  case readAcquire n =>
    subst action
    exact idle_or_owes_pipereadTest member other idle n o.copyout _
  case closeAcquire writable =>
    subst action
    cases writable <;> cases c <;> first | exact .inl idle | exact .inr (owes_wakeup member other _ _ _)
  case sleepReacquire loop =>
    subst action
    cases loop with
    | write i n => exact .inl idle
    | read n => exact idle_or_owes_pipereadTest member other idle n o.copyout _
  case killedRelease loop k =>
    subst action
    have alive := tested loop k rfl
    cases k with
    | true => exact .inl idle
    | false =>
      cases loop with
      | write i n =>
        have kept : (writeProc proc (pipewriteBody procs p pi i n o.copyin).write p).killed = false := by
          rw [write_pipewriteBody]
          exact alive
        simp only [loopBody, Bool.false_eq_true, if_false, kept]
        exact idle_or_owes_pipewriteBody member other guard idle i n o.copyin
      | read n => exact .inl idle
  all_goals
    subst action
    exact .inl idle

theorem code_owes (action : code procs p pi proc o pc = some e) (guard : pc.guard pi)
    (tested : ∀ loop k, pc = .killedRelease loop k → (proc p).killed = k) (owes : Owes (proc p).killed c r pc) :
    Owes (writeProc proc e.write p).killed c r e.next ∨ ∃ rest next, pc = .wakeupAcquire c r rest next := by
  cases pc <;> simp only [code, Option.some.injEq] at action
  case killedAcquire loop =>
    subst action
    cases loop with
    | write i n => exact .inl ⟨owes.1, owes.2.2⟩
    | read n => exact owes.elim
  case killedRelease loop k =>
    subst action
    have alive := tested loop k rfl
    cases loop with
    | write i n =>
      obtain ⟨rfl, rfl⟩ := owes
      left
      have kept : (writeProc proc (pipewriteBody procs p pi i n o.copyin).write p).killed = false := by
        rw [write_pipewriteBody]
        exact alive
      simp only [loopBody, Bool.false_eq_true, if_false, kept]
      exact owes_pipewriteBody member other guard i n o.copyin
    | read n => exact owes.elim
  case wakeupAcquire chan q rest next =>
    subst action
    obtain ⟨rfl, inside⟩ := owes
    rcases List.mem_cons.mp inside with rfl | inside
    · exact .inr ⟨rest, next, rfl⟩
    · exact .inl ⟨rfl, inside⟩
  case wakeupRelease chan q rest next =>
    subst action
    obtain ⟨rfl, inside⟩ := owes
    exact .inl (owes_scan _ _ _ inside)
  all_goals exact owes.elim

end

/-! ## Going to sleep -/

def State.Waits (s : State P) (p : P) (c : Chan) : Prop :=
  (∃ loop, s.pc p = .sleepSet loop ∧ loop.chan = c) ∨ (s.proc p).state = .sleeping ∧ (s.proc p).chan = some c

theorem code_next (action : code procs p pi proc o pc = some e) (more : ¬ ∀ l, e.next.held p l ↔ l = .pipe) :
    match e.next with
    | .sleepSet loop => pc = .sleepRelease loop
    | .killedRelease loop k => pc = .killedAcquire loop ∧ (writeProc proc e.write p).killed = k
    | _ => True := by
  cases pc <;> simp only [code, Option.some.injEq] at action
  case asleep loop =>
    split at action
    · obtain rfl := Option.some.inj action
      trivial
    · cases action
  case user ret =>
    subst action
    cases o.call <;> trivial
  case writeAcquire | readAcquire | closeAcquire | sleepReacquire | killedRelease | wakeupRelease =>
    subst action
    refine absurd (fun l => ?_) more
    simp only [held_pipewriteTest, held_pipereadTest, held_pipeclose, held_loopTest, held_loopBody, held_scan]
  all_goals
    subst action
    simp [writeProc]

theorem code_sleepSet (action : code procs p pi proc o pc = some e) (next : e.next = .sleepSet loop) :
    pc = .sleepRelease loop := by
  have more : ¬ ∀ l, e.next.held p l ↔ l = .pipe := fun only => by simpa [next, Pc.held] using only .pipe
  simpa [next] using code_next action more

theorem code_killedRelease {k : Bool} (action : code procs p pi proc o pc = some e)
    (next : e.next = .killedRelease loop k) : (writeProc proc e.write p).killed = k := by
  have more : ¬ ∀ l, e.next.held p l ↔ l = .pipe := fun only => by simpa [next, Pc.held] using only (.proc p)
  have found := code_next action more
  simp only [next] at found
  exact found.2

omit [DecidableEq P] in
theorem Written.sleeps_on (written : Written p proc pc r value)
    (asleep : value.state = .sleeping) (chan : value.chan = some c) :
    r = p ∧ ∃ loop, pc = .sleepSet loop ∧ loop.chan = c := by
  cases written with
  | woken _ _ => cases asleep
  | killed =>
    simp only at asleep
    split at asleep
    · cases asleep
    · contradiction
  | sleeps => exact ⟨rfl, _, rfl, Option.some.inj chan⟩
  | resumed => cases asleep
  | tidied => cases chan

theorem Written.acquires (written : Written p proc pc q value) (other : q ≠ p)
    (action : code procs p pi proc o pc = some e) : e.op = .acquire (.proc q) := by
  cases written with
  | woken _ _ | killed =>
    obtain rfl := Option.some.inj action
    rfl
  | sleeps | resumed | tidied => exact absurd rfl other

/-! ## The invariant -/

structure Inv (s : State P) : Prop where
  locks : Accounted (fun p => (s.pc p).held p) s.lock
  guard : ∀ p, (s.pc p).guard s.pipe
  tested : ∀ p loop k, s.pc p = .killedRelease loop k → (s.proc p).killed = k
  sleeping : ∀ p, (s.proc p).state = .sleeping → ∃ loop, s.pc p = .swtched loop ∨ s.pc p = .asleep loop
  waits : ∀ p c, s.Waits p c → s.pipe.Idle c ∨ ∃ h, s.lock .pipe = some h ∧ Owes (s.proc h).killed c p (s.pc h)

def Pc.midWrite : Pc P → Bool
  | .killedAcquire (.write i _) => decide (0 < i)
  | _ => false

def Pc.victim : Pc P → Option P
  | .killAcquire q => some q
  | _ => none

/-- No process is killed between two bytes of a `pipewrite`, while it has the lock. -/
def Spared (s : State P) (label : P × Input P) : Prop := ∀ q ∈ (s.pc label.1).victim, (s.pc q).midWrite = false

instance (s : State P) (label : P × Input P) : Decidable (Spared s label) := inferInstanceAs (Decidable (∀ _ ∈ _, _))

theorem step_effect (action : step procs s label = some t) :
    ∃ e lock, code procs label.1 s.pipe s.proc label.2 (s.pc label.1) = some e ∧ e.op.apply label.1 s.lock = some lock ∧
      t = ⟨lock, e.pipe, writeProc s.proc e.write, Function.update s.pc label.1 e.next⟩ := by
  obtain ⟨e, effect, applied⟩ := Option.bind_eq_some_iff.mp action
  obtain ⟨lock, performed, rfl⟩ := Option.map_eq_some_iff.mp applied
  exact ⟨e, lock, effect, performed, rfl⟩

theorem writeProc_cases (proc : P → Proc) (write : Option (P × Proc)) (r : P) :
    writeProc proc write r = proc r ∨ write = some (r, writeProc proc write r) := by
  cases write with
  | none => exact .inl rfl
  | some change =>
    obtain ⟨q, value⟩ := change
    by_cases same : r = q
    · subst same
      exact .inr (by simp [writeProc])
    · exact .inl (Function.update_of_ne same _ _)

section step
variable {lock : Lock P → Option P} (inv : Inv s) (effect : code procs p s.pipe s.proc o (s.pc p) = some e)
  (performed : e.op.apply p s.lock = some lock)
include inv effect performed

theorem not_written_of_held (write : e.write = some (q, value)) (other : q ≠ p) : ¬ (s.pc q).held q (.proc q) := by
  have acquires := (code_written effect write).acquires other effect
  rw [acquires, LockOp.apply] at performed
  exact inv.locks.free (Option.ite_none_right_eq_some.mp performed).1 q

theorem Inv.step_locks :
    Accounted (fun q => (Function.update s.pc p e.next q).held q) lock := by
  refine inv.locks.apply performed ?_ fun u l other => ?_
  · simpa using code_locks effect
  · rw [Function.update_of_ne other]

theorem Inv.step_guard (q : P) : (Function.update s.pc p e.next q).guard e.pipe := by
  by_cases same : q = p
  · subst same
    rw [Function.update_self]
    exact code_guard effect (inv.guard q)
  · rw [Function.update_of_ne same]
    have locks := inv.step_locks effect performed
    rcases code_pipe effect with unchanged | mine
    · rw [unchanged]
      exact inv.guard q
    · have unheld : ¬ (s.pc q).held q .pipe := by
        intro held
        have holds : (Function.update s.pc p e.next q).held q .pipe := by rwa [Function.update_of_ne same]
        refine same (locks.unique holds ?_)
        simpa using mine
      cases here : s.pc q <;> first | trivial | exact absurd (by simp [here, Pc.held]) unheld

theorem Inv.step_tested (q : P) (loop : Loop) (k : Bool)
    (here : Function.update s.pc p e.next q = .killedRelease loop k) : (writeProc s.proc e.write q).killed = k := by
  by_cases same : q = p
  · subst same
    rw [Function.update_self] at here
    exact code_killedRelease effect here
  · rw [Function.update_of_ne same] at here
    rcases writeProc_cases s.proc e.write q with kept | written
    · rw [kept]
      exact inv.tested q loop k here
    · exact absurd (by rw [here]; exact .inr rfl) (not_written_of_held inv effect performed written same)

theorem Inv.step_sleeping (q : P) (asleep : (writeProc s.proc e.write q).state = .sleeping) :
    ∃ loop, Function.update s.pc p e.next q = .swtched loop ∨ Function.update s.pc p e.next q = .asleep loop := by
  rcases writeProc_cases s.proc e.write q with kept | written
  · rw [kept] at asleep
    obtain ⟨loop, here⟩ := inv.sleeping q asleep
    by_cases same : q = p
    · subst same
      rcases here with here | here
      · rw [here] at effect
        obtain rfl := Option.some.inj effect
        exact ⟨loop, .inr (Function.update_self _ _ _)⟩
      · rw [here, code, asleep] at effect
        cases effect
    · rw [Function.update_of_ne same]
      exact ⟨loop, here⟩
  · have change := code_written effect written
    generalize writeProc s.proc e.write q = value at change asleep
    generalize here : s.pc p = pc at change effect
    cases change with
    | woken _ _ => cases asleep
    | killed =>
      simp only at asleep
      split at asleep
      · cases asleep
      · contradiction
    | sleeps =>
      obtain rfl := Option.some.inj effect
      exact ⟨_, .inl (Function.update_self _ _ _)⟩
    | resumed => cases asleep
    | tidied =>
      obtain ⟨loop, here' | here'⟩ := inv.sleeping p asleep
      · cases here.symm.trans here'
      · cases here.symm.trans here'

omit inv performed in
theorem waits_before (c : Chan) {r : P}
    (waits : (⟨lock, e.pipe, writeProc s.proc e.write, Function.update s.pc p e.next⟩ : State P).Waits r c) :
    s.Waits r c ∨ r = p ∧ ∃ loop, s.pc p = .sleepRelease loop ∧ loop.chan = c := by
  rcases waits with ⟨loop, here, chan⟩ | ⟨asleep, chan⟩
  · dsimp only at here
    by_cases same : r = p
    · subst same
      rw [Function.update_self] at here
      exact .inr ⟨rfl, loop, code_sleepSet effect here, chan⟩
    · rw [Function.update_of_ne same] at here
      exact .inl (.inl ⟨loop, here, chan⟩)
  · dsimp only at asleep chan
    rcases writeProc_cases s.proc e.write r with kept | written
    · rw [kept] at asleep chan
      exact .inl (.inr ⟨asleep, chan⟩)
    · obtain ⟨rfl, loop, here, same⟩ := (code_written effect written).sleeps_on asleep chan
      exact .inl (.inl ⟨loop, here, same⟩)

theorem Inv.step_self (waits : s.Waits p c) : e.pipe = s.pipe ∧ ¬ (s.pc p).held p .pipe := by
  have here : ∃ loop, s.pc p = .sleepSet loop ∨ s.pc p = .swtched loop ∨ s.pc p = .asleep loop := by
    rcases waits with ⟨loop, here, _⟩ | ⟨asleep, _⟩
    · exact ⟨loop, .inl here⟩
    · obtain ⟨loop, here⟩ := inv.sleeping p asleep
      exact ⟨loop, .inr here⟩
  obtain ⟨loop, here | here | here⟩ := here
  all_goals rw [here] at effect ⊢
  · obtain rfl := Option.some.inj effect
    exact ⟨rfl, by simp [Pc.held]⟩
  · obtain rfl := Option.some.inj effect
    exact ⟨rfl, by simp [Pc.held]⟩
  · simp only [code] at effect
    split at effect
    · obtain rfl := Option.some.inj effect
      exact ⟨rfl, by simp [Pc.held]⟩
    · cases effect

theorem Inv.step_woken (here : s.pc p = .wakeupAcquire c r rest next) (other : r ≠ p)
    (waits : (⟨lock, e.pipe, writeProc s.proc e.write, Function.update s.pc p e.next⟩ : State P).Waits r c) : False := by
  rw [here] at effect
  obtain rfl := Option.some.inj effect
  rcases waits with ⟨loop, there, _⟩ | ⟨asleep, chan⟩
  · dsimp only at there
    rw [Function.update_of_ne other] at there
    refine inv.locks.free (Option.ite_none_right_eq_some.mp performed).1 r ?_
    rw [there]
    exact rfl
  · by_cases found : (s.proc r).state = .sleeping ∧ (s.proc r).chan = some c
    · simp [found, writeProc] at asleep
    · simp only [found, writeProc, if_false] at asleep chan
      exact found ⟨asleep, chan⟩

omit inv performed in
theorem others_owe (spared : Spared s (p, o)) {h : P} (other : h ≠ p)
    (owes : Owes (s.proc h).killed c r (s.pc h)) : Owes (writeProc s.proc e.write h).killed c r (s.pc h) := by
  refine owes.change fun i n there positive => ?_
  rcases writeProc_cases s.proc e.write h with kept | written
  · rw [kept]
  · have change := code_written effect written
    generalize writeProc s.proc e.write h = value at change
    generalize here : s.pc p = pc at change
    cases change with
    | woken _ _ => rfl
    | killed =>
      have quiet := spared h (by rw [here]; rfl)
      rw [there] at quiet
      exact absurd positive (of_decide_eq_false quiet)
    | sleeps | resumed | tidied => exact absurd rfl other

theorem Inv.step_waits (everyone : ∀ q, q ∈ procs) (spared : Spared s (p, o)) (c : Chan) (r : P)
    (waits : (⟨lock, e.pipe, writeProc s.proc e.write, Function.update s.pc p e.next⟩ : State P).Waits r c) :
    e.pipe.Idle c ∨
      ∃ h, lock .pipe = some h ∧ Owes (writeProc s.proc e.write h).killed c r (Function.update s.pc p e.next h) := by
  have locks := inv.step_locks effect performed
  have holds : ∀ {h}, Owes (writeProc s.proc e.write h).killed c r (Function.update s.pc p e.next h) →
      ∃ h, lock .pipe = some h ∧ Owes (writeProc s.proc e.write h).killed c r (Function.update s.pc p e.next h) :=
    fun owes => ⟨_, (locks .pipe _).mpr owes.held, owes⟩
  rcases waits_before effect c waits with before | ⟨rfl, loop, here, rfl⟩
  · rcases inv.waits r c before with idle | ⟨h, holder, owes⟩
    · by_cases self : r = p
      · subst self
        rw [(inv.step_self effect performed before).1]
        exact .inl idle
      · rcases code_idle (everyone r) self effect (inv.guard p) (inv.tested p) idle with idle | owes
        · exact .inl idle
        · exact .inr (holds (h := p) (by simpa using owes))
    · right
      by_cases same : h = p
      · subst same
        have self : r ≠ h := by
          rintro rfl
          exact (inv.step_self effect performed before).2 owes.held
        rcases code_owes (everyone r) self effect (inv.guard h) (inv.tested h) owes with owes | ⟨rest, next, here⟩
        · exact holds (h := h) (by simpa using owes)
        · exact (inv.step_woken effect performed here self waits).elim
      · refine holds (h := h) ?_
        rw [Function.update_of_ne same]
        exact others_owe effect spared same owes
  · left
    have idle := inv.guard r
    rw [here] at effect idle
    obtain rfl := Option.some.inj effect
    exact idle

end step

theorem Inv.step (inv : Inv s) (everyone : ∀ q, q ∈ procs) (spared : Spared s label)
    (action : step procs s label = some t) : Inv t := by
  obtain ⟨e, lock, effect, performed, rfl⟩ := step_effect action
  exact ⟨inv.step_locks effect performed, inv.step_guard effect performed, inv.step_tested effect performed,
    inv.step_sleeping effect performed, fun r c => inv.step_waits effect performed everyone spared c r⟩

theorem inv_initial (procs : List P) (data : Fin PIPESIZE → Byte) (killed : P → Bool) :
    Inv (system procs data killed).initial where
  locks l p := by simp [system, Pc.held]
  guard p := trivial
  tested p loop k here := by cases here
  sleeping p asleep := by cases asleep
  waits p c waits := by
    rcases waits with ⟨loop, here, _⟩ | ⟨asleep, _⟩
    · cases here
    · cases asleep

/-! ## Nobody sleeps with work to do -/

theorem sleepers_have_no_work (everyone : ∀ q, q ∈ procs) (data : Fin PIPESIZE → Byte) (killed : P → Bool)
    (reached : (system procs data killed).ReachedBy Spared s) (free : s.lock .pipe = none) :
    (∀ p, (s.proc p).state = .sleeping → (s.proc p).chan = some .nread →
      ¬ (s.pipe.nread ≠ s.pipe.nwrite ∨ s.pipe.writeopen = false)) ∧
    ∀ p, (s.proc p).state = .sleeping → (s.proc p).chan = some .nwrite →
      ¬ (s.pipe.nwrite ≠ s.pipe.nread + BitVec.ofNat 32 PIPESIZE ∨ s.pipe.readopen = false) := by
  have inv : Inv s := System.ReachedBy.invariant Inv (inv_initial procs data killed)
    (fun _ _ _ _ inv spared action => inv.step everyone spared action) reached
  have idle : ∀ p c, (s.proc p).state = .sleeping → (s.proc p).chan = some c → s.pipe.Idle c := by
    intro p c asleep chan
    rcases inv.waits p c (.inr ⟨asleep, chan⟩) with idle | ⟨h, holder, _⟩
    · exact idle
    · cases free.symm.trans holder
  constructor
  · intro p asleep chan
    obtain ⟨empty, isOpen⟩ := idle p .nread asleep chan
    exact not_or.mpr ⟨not_not.mpr (of_decide_eq_true empty), by simp [isOpen]⟩
  · intro p asleep chan
    obtain ⟨full, isOpen⟩ := idle p .nwrite asleep chan
    exact not_or.mpr ⟨not_not.mpr (of_decide_eq_true full), by simp [isOpen]⟩

def three : System (State (Fin 3)) (Fin 3 × Input (Fin 3)) := system (List.finRange 3) (fun _ => 0) fun _ => false

def turns (p : Fin 3) (count : ℕ) (call : Call (Fin 3)) : List (Fin 3 × Input (Fin 3)) :=
  List.replicate count (p, ⟨call, some 7, fun _ => true⟩)

def readerSleeps : List (Fin 3 × Input (Fin 3)) := turns 1 8 (.piperead 1)

theorem sleepers_have_no_work_readerSleeps :
    ∃ s, three.ReachedBy Spared s ∧ s.lock .pipe = none ∧ (s.proc 1).state = .sleeping ∧ (s.proc 1).chan = some .nread ∧
      ¬ (s.pipe.nread ≠ s.pipe.nwrite ∨ s.pipe.writeopen = false) := by
  have checked : (three.runBy Spared three.initial readerSleeps).map
      (fun s => (s.lock .pipe, (s.proc 1).state, (s.proc 1).chan)) = some (none, .sleeping, some .nread) := by
    decide +kernel
  obtain ⟨s, ran, values⟩ := Option.map_eq_some_iff.mp checked
  simp only [Prod.mk.injEq] at values
  obtain ⟨free, asleep, chan⟩ := values
  have reached := System.ReachedBy.runBy .initial ran
  exact ⟨s, reached, free, asleep, chan,
    (sleepers_have_no_work List.mem_finRange (fun _ => 0) (fun _ => false) reached free).1 1 asleep chan⟩

/-- The writer is killed after its first byte and gives up the lock without a `wakeup`. -/
def writerKilled : List (Fin 3 × Input (Fin 3)) :=
  readerSleeps ++ turns 0 4 (.pipewrite 2) ++ turns 2 3 (.kill 0) ++ turns 0 3 (.pipewrite 2)

theorem killed_writer_leaves_reader_asleep :
    ∃ s, three.Reachable s ∧ s.lock .pipe = none ∧ (s.proc 1).state = .sleeping ∧ (s.proc 1).chan = some .nread ∧
      s.pipe.nread ≠ s.pipe.nwrite := by
  have checked : (three.run three.initial writerKilled).map
      (fun s => (s.lock .pipe, (s.proc 1).state, (s.proc 1).chan, decide (s.pipe.nread ≠ s.pipe.nwrite))) =
        some (none, .sleeping, some .nread, true) := by
    decide +kernel
  obtain ⟨s, ran, values⟩ := Option.map_eq_some_iff.mp checked
  simp only [Prod.mk.injEq] at values
  obtain ⟨free, asleep, chan, unread⟩ := values
  exact ⟨s, System.Reachable.run .initial ran, free, asleep, chan, of_decide_eq_true unread⟩

end OsProjects.Piping

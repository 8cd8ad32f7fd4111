import OsProjects.Transition.Locks
import OsProjects.Transition.System

namespace OsProjects.Transition

/-! Threads that share a state under one lock and wait on channels. A thread that goes to sleep takes its own lock before
it gives the shared one back; whoever wakes a channel looks at every other thread under the lock of that thread. -/

/-- What a thread does with the shared lock, up to its next operation on a lock. -/
inductive Turn (σ C L : Type)
  | wait (c : C) | stay (s : σ) (next : L) | wake (s : σ) (c : C) (next : L) | leave (s : σ) (next : L)

/-- What a turn that does not wait leaves behind. -/
def Turn.result {σ C L : Type} : Turn σ C L → Option (σ × L)
  | .wait _ => none
  | .stay s next | .wake s _ next | .leave s next => some (s, next)

/-- The code of the threads: where a call starts, what is done at a place with the shared lock, and what changes the
shared state without the lock. -/
structure Monitor (P σ C L I D : Type) where
  enter : L → I → L
  turn : P → L → σ → Turn σ C L
  device : D → σ → Option σ

namespace Monitor

inductive Pc (P C L : Type)
  | out (l : L) | inside (l : L)
  | scan (c : C) (q : P) (rest : List P) (l : L) | woke (c : C) (q : P) (rest : List P) (l : L)
  | sleepAcquire (c : C) (l : L) | sleepRelease (c : C) (l : L) | sleepSet (c : C) (l : L)
  | swtched (c : C) (l : L) | asleep (c : C) (l : L) | tidy (l : L)

inductive Lock (P : Type)
  | shared | own (p : P)
  deriving DecidableEq

/-- `sleeping` has the channel of a thread whose state says that it sleeps. -/
structure State (P σ C L : Type) where
  lock : Lock P → Option P
  shared : σ
  sleeping : P → Option C
  pc : P → Pc P C L

inductive Label (P I D : Type)
  | thread (p : P) (input : I) | kill (q : P) | device (d : D)

variable {P σ C L I D : Type}

def Pc.loc : Pc P C L → L
  | .out l | .inside l | .scan _ _ _ l | .woke _ _ _ l | .sleepAcquire _ l | .sleepRelease _ l | .sleepSet _ l
  | .swtched _ l | .asleep _ l | .tidy l => l

def scanFrom (c : C) (l : L) : List P → Pc P C L
  | [] => .inside l
  | q :: rest => .scan c q rest l

variable [DecidableEq P] [DecidableEq C] (M : Monitor P σ C L I D) (procs : List P)

structure Effect (P σ C L : Type) where
  op : LockOp (Lock P) := .keep
  shared : σ
  sleeping : P → Option C
  next : Pc P C L

def code (s : State P σ C L) (p : P) (input : I) : Option (Effect P σ C L) :=
  match s.pc p with
  | .out l => some ⟨.acquire .shared, s.shared, s.sleeping, .inside (M.enter l input)⟩
  | .inside l =>
    match M.turn p l s.shared with
    | .wait c => some ⟨.keep, s.shared, s.sleeping, .sleepAcquire c l⟩
    | .stay s' next => some ⟨.keep, s', s.sleeping, .inside next⟩
    | .wake s' c next => some ⟨.keep, s', s.sleeping, scanFrom c next (procs.filter (· ≠ p))⟩
    | .leave s' next => some ⟨.release .shared, s', s.sleeping, .out next⟩
  | .scan c q rest l => some ⟨.acquire (.own q), s.shared,
      if s.sleeping q = some c then Function.update s.sleeping q none else s.sleeping, .woke c q rest l⟩
  | .woke c q rest l => some ⟨.release (.own q), s.shared, s.sleeping, scanFrom c l rest⟩
  | .sleepAcquire c l => some ⟨.acquire (.own p), s.shared, s.sleeping, .sleepRelease c l⟩
  | .sleepRelease c l => some ⟨.release .shared, s.shared, s.sleeping, .sleepSet c l⟩
  | .sleepSet c l => some ⟨.keep, s.shared, Function.update s.sleeping p (some c), .swtched c l⟩
  | .swtched c l => some ⟨.release (.own p), s.shared, s.sleeping, .asleep c l⟩
  | .asleep _ l => if s.sleeping p = none then some ⟨.acquire (.own p), s.shared, s.sleeping, .tidy l⟩ else none
  | .tidy l => some ⟨.release (.own p), s.shared, s.sleeping, .out l⟩

def step (s : State P σ C L) : Label P I D → Option (State P σ C L)
  | .thread p input => (code M procs s p input).bind fun e =>
    (e.op.apply p s.lock).map fun lock => ⟨lock, e.shared, e.sleeping, Function.update s.pc p e.next⟩
  | .kill q => if s.lock (.own q) = none then some { s with sleeping := Function.update s.sleeping q none } else none
  | .device d => (M.device d s.shared).map fun shared => { s with shared := shared }

def system (start : σ) (home : P → L) : System (State P σ C L) (Label P I D) where
  initial := ⟨fun _ => none, start, fun _ => none, fun p => .out (home p)⟩
  step := M.step procs

def Pc.held (p : P) : Pc P C L → Lock P → Prop
  | .inside _ | .scan _ _ _ _ | .sleepAcquire _ _ => fun l => l = .shared
  | .woke _ q _ _ => fun l => l = .shared ∨ l = .own q
  | .sleepRelease _ _ => fun l => l = .shared ∨ l = .own p
  | .sleepSet _ _ | .swtched _ _ | .tidy _ => fun l => l = .own p
  | _ => fun _ => False

/-- A thread that is still to be looked at by one that wakes a channel. -/
def Pc.Pending (c : C) (p : P) : Pc P C L → Prop
  | .scan c' q rest _ => c' = c ∧ p ∈ q :: rest
  | .woke c' _ rest _ => c' = c ∧ p ∈ rest
  | _ => False

variable {M procs} {s t : State P σ C L} {p q u : P} {c : C} {l : L} {rest : List P} {input : I} {e : Effect P σ C L}

omit [DecidableEq P] [DecidableEq C] in
theorem held_scanFrom (c : C) (l : L) (rest : List P) : (scanFrom c l rest).held p = fun l => l = .shared := by
  cases rest <;> rfl

omit [DecidableEq P] [DecidableEq C] in
theorem loc_scanFrom (c : C) (l : L) (rest : List P) : (scanFrom c l rest).loc = l := by
  cases rest <;> rfl

omit [DecidableEq P] [DecidableEq C] in
@[simp]
theorem scanFrom_ne_sleep {c' : C} {l' : L} : scanFrom c l rest ≠ .sleepAcquire c' l' ∧ scanFrom c l rest ≠ .sleepRelease c' l' ∧
    scanFrom c l rest ≠ .sleepSet c' l' := by
  cases rest <;> simp [scanFrom]

omit [DecidableEq P] [DecidableEq C] in
theorem pending_scanFrom (member : p ∈ rest) : (scanFrom c l rest).Pending c p := by
  cases rest with
  | nil => cases member
  | cons q rest => exact ⟨rfl, member⟩

omit [DecidableEq P] [DecidableEq C] in
theorem Pc.Pending.held {pc : Pc P C L} (pending : pc.Pending c p) : pc.held u .shared := by
  cases pc with
  | scan => rfl
  | woke => exact .inl rfl
  | _ => cases pending

theorem code_locks (action : code M procs s p input = some e) : e.op.Moves ((s.pc p).held p) (e.next.held p) := by
  unfold code at action
  split at action
  case h_2 l here =>
    split at action <;> obtain rfl := Option.some.inj action <;> intro l <;>
      simp only [here, held_scanFrom] <;> simp [Pc.held]
  case h_4 c q rest l here =>
    obtain rfl := Option.some.inj action
    intro l
    simp only [here, held_scanFrom]
    simp only [Pc.held]
    grind
  case h_9 c l here =>
    split at action
    · obtain rfl := Option.some.inj action
      intro l
      simp [here, Pc.held]
    · cases action
  all_goals
    rename_i here
    obtain rfl := Option.some.inj action
    intro l
    simp only [here, Pc.held] <;> grind

/-- When a channel is waited on, and which places are only reached with the lock: who ends a wait wakes its channel. -/
structure Obeys (M : Monitor P σ C L I D) (blocked : C → σ → Prop) (inner : L → Prop) : Prop where
  waits : ∀ {p l s c}, M.turn p l s = .wait c → blocked c s ∧ ¬ inner l
  stays : ∀ {p l s s' next}, M.turn p l s = .stay s' next → ∀ c, blocked c s → blocked c s'
  wakes : ∀ {p l s s' c next}, M.turn p l s = .wake s' c next → ∀ c', c' ≠ c → blocked c' s → blocked c' s'
  leaves : ∀ {p l s s' next}, M.turn p l s = .leave s' next → (∀ c, blocked c s → blocked c s') ∧ ¬ inner next
  moves : ∀ {d s s'}, M.device d s = some s' → ∀ c, blocked c s → blocked c s'

variable {blocked : C → σ → Prop} {inner : L → Prop} {lock : Lock P → Option P}

/-- A thread that sleeps is blocked, or is about to be woken. -/
structure Inv (blocked : C → σ → Prop) (inner : L → Prop) (s : State P σ C L) : Prop where
  locks : Accounted (fun p => (s.pc p).held p) s.lock
  asleep : ∀ p c, s.sleeping p = some c → ∃ l, s.pc p = .swtched c l ∨ s.pc p = .asleep c l
  about : ∀ p c l, s.pc p = .sleepAcquire c l ∨ s.pc p = .sleepRelease c l → blocked c s.shared ∧ ¬ inner l
  waits : ∀ p c, (∃ l, s.pc p = .sleepSet c l) ∨ s.sleeping p = some c → blocked c s.shared ∨ ∃ u, (s.pc u).Pending c p
  outer : ∀ p, ¬ (s.pc p).held p .shared → ¬ inner (s.pc p).loc

section
variable (action : code M procs s p input = some e)
include action

theorem code_keeps : e.shared = s.shared ∨ (s.pc p).held p .shared := by
  unfold code at action
  split at action <;> grind [Pc.held]

theorem code_asleep (sleeps : s.sleeping p = some c)
    (here : s.pc p = .swtched c l ∨ s.pc p = .asleep c l) : e.next = .asleep c l := by
  rcases here with here | here <;> simp only [code, here, sleeps] at action <;> cases action
  rfl

theorem code_sleeping (now : e.sleeping q = some c) :
    s.sleeping q = some c ∨ q = p ∧ ∃ l, s.pc p = .sleepSet c l ∧ e.next = .swtched c l := by
  unfold code at action
  split at action
  case h_2 => split at action <;> cases action <;> exact .inl now
  case h_3 c' q' rest l here =>
    cases action
    simp only at now
    split at now
    · by_cases same : q = q'
      · simp [same] at now
      · exact .inl (by rwa [Function.update_of_ne same] at now)
    · exact .inl now
  case h_7 c' l here =>
    cases action
    by_cases same : q = p
    · subst same
      obtain rfl : c' = c := by simpa using now
      exact .inr ⟨rfl, l, here, rfl⟩
    · exact .inl (by simpa [same] using now)
  case h_9 => split at action <;> cases action; exact .inl now
  all_goals cases action; exact .inl now

theorem code_pending (pending : (s.pc p).Pending c q) :
    e.next.Pending c q ∨ e.op = .acquire (.own q) ∧ e.sleeping q ≠ some c := by
  unfold code at action
  split at action <;> rename_i here <;> rw [here] at pending
  case h_3 c' q' rest l _ =>
    cases action
    obtain ⟨rfl, member⟩ := pending
    rcases List.mem_cons.mp member with rfl | member
    · refine .inr ⟨rfl, ?_⟩
      simp only
      split
      · simp
      · assumption
    · exact .inl ⟨rfl, member⟩
  case h_4 c' q' rest l _ =>
    cases action
    obtain ⟨rfl, member⟩ := pending
    exact .inl (pending_scanFrom member)
  all_goals cases pending

theorem Obeys.code_shared (obeys : Obeys M blocked inner) (before : blocked c s.shared) :
    blocked c e.shared ∨ e.sleeping = s.sleeping ∧ ∃ l next, s.pc p = .inside l ∧
      e.next = scanFrom c next (procs.filter (· ≠ p)) := by
  unfold code at action
  split at action
  case h_2 l here =>
    split at action <;> rename_i turn <;> cases action
    · exact .inl before
    · exact .inl (obeys.stays turn c before)
    · rename_i s' c' next
      by_cases same : c = c'
      · subst same
        exact .inr ⟨rfl, l, next, here, rfl⟩
      · exact .inl (obeys.wakes turn c same before)
    · exact .inl ((obeys.leaves turn).1 c before)
  case h_9 => split at action <;> cases action; exact .inl before
  all_goals cases action; exact .inl before

theorem Obeys.code_about (obeys : Obeys M blocked inner) (next : e.next = .sleepAcquire c l ∨ e.next = .sleepRelease c l) :
    e.shared = s.shared ∧ (s.pc p = .sleepAcquire c l ∨ blocked c s.shared ∧ ¬ inner l) := by
  unfold code at action
  split at action <;> grind [obeys.waits, scanFrom_ne_sleep]

theorem Obeys.code_outer (obeys : Obeys M blocked inner) (inv : Inv blocked inner s)
    (outside : ¬ e.next.held p .shared) : ¬ inner e.next.loc := by
  have old := inv.outer p
  unfold code at action
  split at action <;> rename_i here <;> rw [here] at old
  case h_2 l _ =>
    split at action <;> rename_i turn <;> cases action
    · exact absurd rfl outside
    · exact absurd rfl outside
    · rw [held_scanFrom] at outside
      exact absurd rfl outside
    · exact (obeys.leaves turn).2
  case h_4 =>
    cases action
    rw [held_scanFrom] at outside
    exact absurd rfl outside
  case h_6 c l =>
    cases action
    exact (inv.about p c l (.inr here)).2
  case h_9 => split at action <;> cases action; exact old (by simp [Pc.held])
  all_goals
    cases action
    first | exact absurd rfl outside | exact absurd (Or.inl rfl) outside | exact old (by simp [Pc.held])

theorem code_sleepSet (inv : Inv blocked inner s) (next : e.next = .sleepSet c l) : blocked c e.shared := by
  unfold code at action
  split at action
  case h_2 => split at action <;> cases action <;> simp at next
  case h_6 c' l' here =>
    cases action
    obtain ⟨rfl, rfl⟩ : c' = c ∧ l' = l := by simpa using next
    exact (inv.about p c' l' (.inr here)).1
  case h_9 => split at action <;> cases action; simp at next
  all_goals cases action; simp at next

theorem Inv.thread (inv : Inv blocked inner s) (obeys : Obeys M blocked inner) (complete : ∀ q, q ∈ procs)
    (applied : e.op.apply p s.lock = some lock) :
    Inv blocked inner ⟨lock, e.shared, e.sleeping, Function.update s.pc p e.next⟩ := by
  have others : ∀ u, u ≠ p → Function.update s.pc p e.next u = s.pc u := fun u other => Function.update_of_ne other _ _
  have own : Function.update s.pc p e.next p = e.next := Function.update_self _ _ _
  refine ⟨?_, fun q c now => ?_, fun q c l there => ?_, fun q c there => ?_, fun q outside => ?_⟩
  · refine inv.locks.apply applied ?_ fun u l other => ?_
    · simpa only [own] using code_locks action
    · simp only [others u other]
  · rcases code_sleeping action now with before | ⟨rfl, l, _, next⟩
    · obtain ⟨l, there⟩ := inv.asleep q c before
      by_cases same : q = p
      · subst same
        exact ⟨l, .inr (own.trans (code_asleep action before there))⟩
      · exact ⟨l, by simpa only [others q same] using there⟩
    · exact ⟨l, .inl (own.trans next)⟩
  · by_cases same : q = p
    · subst same
      simp only [own] at there
      obtain ⟨kept, before | waits⟩ := obeys.code_about action there
      · exact kept ▸ inv.about q c l (.inl before)
      · exact kept ▸ waits
    · simp only [others q same] at there
      have held : (s.pc q).held q .shared := by
        rcases there with there | there <;> rw [there] <;> simp [Pc.held]
      rcases code_keeps action with kept | mine
      · exact kept ▸ inv.about q c l there
      · exact absurd (inv.locks.unique held mine) same
  · -- Who wakes the channel of a thread that was blocked has it on its list.
    have old : (blocked c s.shared ∨ ∃ u, (s.pc u).Pending c q) ∧ (q = p → ∀ l, s.pc p ≠ .inside l) ∨ blocked c e.shared := by
      rcases there with ⟨l, there⟩ | now
      · by_cases same : q = p
        · subst same
          simp only [own] at there
          exact .inr (code_sleepSet action inv there)
        · simp only [others q same] at there
          exact .inl ⟨inv.waits q c (.inl ⟨l, there⟩), fun equal => absurd equal same⟩
      · rcases code_sleeping action now with before | ⟨rfl, l, here, _⟩
        · refine .inl ⟨inv.waits q c (.inr before), ?_⟩
          rintro rfl l here
          obtain ⟨l', there⟩ := inv.asleep q c before
          simp [here] at there
        · exact .inl ⟨inv.waits q c (.inl ⟨l, here⟩), fun _ l' inside => by simp [here] at inside⟩
    rcases old with ⟨still | ⟨u, pending⟩, outside⟩ | now
    · rcases obeys.code_shared action still with now | ⟨_, l, next, here, scans⟩
      · exact .inl now
      · have other : q ≠ p := fun same => outside same l here
        refine .inr ⟨p, ?_⟩
        change (Function.update s.pc p e.next p).Pending c q
        rw [own, scans]
        exact pending_scanFrom (List.mem_filter.mpr ⟨complete q, by simpa using other⟩)
    · by_cases same : u = p
      · subst same
        rcases code_pending action pending with moved | ⟨takes, woken⟩
        · exact .inr ⟨u, by simpa only [own] using moved⟩
        · -- The thread looked at does not have its own lock, so it sleeps no longer.
          exfalso
          rw [takes] at applied
          obtain ⟨free, _⟩ := Option.ite_none_right_eq_some.mp applied
          rcases there with ⟨l, there⟩ | now
          · have other : q ≠ u := by
              rintro rfl
              simp only [own] at there
              have moves := code_locks action
              rw [takes, there] at moves
              cases (moves .shared).mpr (.inr pending.held)
            simp only [others q other] at there
            exact inv.locks.free free q (by rw [there]; rfl)
          · exact woken now
      · exact .inr ⟨u, by simpa only [others u same] using pending⟩
    · exact .inl now
  · by_cases same : q = p
    · subst same
      simp only [own] at outside ⊢
      exact obeys.code_outer action inv outside
    · simp only [others q same] at outside ⊢
      exact inv.outer q outside

end

variable (obeys : Obeys M blocked inner) (complete : ∀ q, q ∈ procs)
include obeys complete

theorem Inv.step {label : Label P I D} (inv : Inv blocked inner s) (action : M.step procs s label = some t) : Inv blocked inner t := by
  cases label with
  | thread p input =>
    obtain ⟨e, ran, rest⟩ := Option.bind_eq_some_iff.mp action
    obtain ⟨lock, applied, rfl⟩ := Option.map_eq_some_iff.mp rest
    exact inv.thread ran obeys complete applied
  | kill q =>
    obtain ⟨_, equal⟩ := Option.ite_none_right_eq_some.mp action
    obtain rfl := Option.some.inj equal
    have fewer : ∀ r c, Function.update s.sleeping q none r = some c → s.sleeping r = some c := by
      intro r c now
      by_cases same : r = q
      · simp [same] at now
      · rwa [Function.update_of_ne same] at now
    exact ⟨inv.locks, fun r c now => inv.asleep r c (fewer r c now), inv.about,
      fun r c there => inv.waits r c (there.imp id (fewer r c)), inv.outer⟩
  | device d =>
    obtain ⟨shared, moved, rfl⟩ := Option.map_eq_some_iff.mp action
    have kept := obeys.moves moved
    exact ⟨inv.locks, inv.asleep, fun r c l there => (inv.about r c l there).imp (kept c) id,
      fun r c there => (inv.waits r c there).imp (kept c) id, inv.outer⟩

variable {start : σ} {home : P → L}

theorem reachable_inv (first : ∀ p, ¬ inner (home p))
    (reachable : (M.system procs start home).Reachable s) : Inv blocked inner s := by
  refine reachable.invariant (Inv blocked inner) ?_ fun _ _ _ _ inv action => inv.step obeys complete action
  exact ⟨fun l p => by simp [system, Pc.held], by simp [system], by simp [system], by simp [system], fun p _ => first p⟩

/-- No thread sleeps on a channel that is not blocked, and none is at an inner place, while the lock is free. -/
theorem sleepers_blocked (first : ∀ p, ¬ inner (home p))
    (reachable : (M.system procs start home).Reachable s) (free : s.lock .shared = none) :
    (∀ p c, s.sleeping p = some c → blocked c s.shared) ∧ ∀ p, ¬ inner (s.pc p).loc := by
  have inv := reachable_inv obeys complete first reachable
  refine ⟨fun p c sleeps => ?_, fun p => inv.outer p (inv.locks.free free p)⟩
  refine (inv.waits p c (.inr sleeps)).resolve_right ?_
  rintro ⟨u, pending⟩
  exact inv.locks.free free u pending.held

/-- What the turns and the device keep holds of the shared state and the places of the threads. During a turn no other
thread is at an inner place. -/
theorem reachable_shared (J : σ → (P → L) → Prop) (first : ∀ p, ¬ inner (home p)) (base : J start home)
    (enters : ∀ {s loc p input}, J s loc → J s (Function.update loc p (M.enter (loc p) input)))
    (turns : ∀ {s loc p s' next}, J s loc → (∀ q, q ≠ p → ¬ inner (loc q)) → (M.turn p (loc p) s).result = some (s', next) →
      J s' (Function.update loc p next))
    (moves : ∀ {s loc d s'}, J s loc → M.device d s = some s' → J s' loc)
    (reachable : (M.system procs start home).Reachable s) : J s.shared fun p => (s.pc p).loc := by
  refine reachable.invariant (fun s => J s.shared fun p => (s.pc p).loc) base fun s label t reached held action => ?_
  have inv := reachable_inv obeys complete first reached
  cases label with
  | thread p input =>
    obtain ⟨e, ran, rest⟩ := Option.bind_eq_some_iff.mp action
    obtain ⟨lock, applied, rfl⟩ := Option.map_eq_some_iff.mp rest
    have places : (fun q => (Function.update s.pc p e.next q).loc) = Function.update (fun q => (s.pc q).loc) p e.next.loc := by
      funext q
      by_cases same : q = p
      · subst same
        simp
      · simp [same]
    have same {l : L} (here : (s.pc p).loc = l) : Function.update (fun q => (s.pc q).loc) p l = fun q => (s.pc q).loc :=
      Function.update_eq_self_iff.mpr here.symm
    simp only [places]
    unfold code at ran
    split at ran <;> rename_i here
    case h_1 l =>
      cases ran
      have entered : J s.shared (Function.update _ p (M.enter _ input)) := enters held
      simpa only [here, Pc.loc] using entered
    case h_2 l =>
      have now : (s.pc p).loc = l := by rw [here]; rfl
      have alone : ∀ q, q ≠ p → ¬ inner (s.pc q).loc := fun q other => inv.outer q fun held' =>
        other (inv.locks.unique held' (show (s.pc p).held p .shared by rw [here]; rfl))
      split at ran <;> rename_i turn <;> cases ran
      · rw [same (l := Pc.loc (.sleepAcquire _ l)) now]
        exact held
      all_goals rw [← now] at turn
      · exact turns held alone (by rw [turn]; rfl)
      · simp only [loc_scanFrom]
        exact turns held alone (by rw [turn]; rfl)
      · exact turns held alone (by rw [turn]; rfl)
    case h_4 c q rest l =>
      cases ran
      rw [loc_scanFrom, same (by rw [here]; rfl)]
      exact held
    case h_9 c l =>
      split at ran <;> cases ran
      rw [same (by rw [here]; rfl)]
      exact held
    all_goals
      cases ran
      rw [same (by rw [here]; rfl)]
      exact held
  | kill q =>
    obtain ⟨_, equal⟩ := Option.ite_none_right_eq_some.mp action
    obtain rfl := Option.some.inj equal
    exact held
  | device d =>
    obtain ⟨shared, moved, rfl⟩ := Option.map_eq_some_iff.mp action
    exact moves held moved

end Monitor

end OsProjects.Transition

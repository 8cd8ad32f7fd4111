import OsProjects.Logging.Recovery
import OsProjects.Transition.Recorded

namespace OsProjects.Logging
open Transition

/-! ## What a run has logged -/

structure Entry where
  op : ℕ
  blockno : BlockNo
  data : Block

def Entry.write (e : Entry) : BlockNo × Block := (e.blockno, e.data)

/-- `op` gives the operation a thread is in or was in last, `logged` every `log_write` of the run, `current` those of
the group that gathers, and `committed` the groups whose header has reached the disk. -/
structure History (Thread : Type) where
  ops : ℕ
  op : Thread → ℕ
  logged : List Entry
  current : List Entry
  committed : List (List Entry)

namespace History

variable {Thread : Type} {op : ℕ}

def start : History Thread := ⟨0, fun _ => 0, [], [], []⟩

def log (h : History Thread) (e : Entry) : History Thread :=
  { h with logged := h.logged ++ [e], current := h.current ++ [e] }

def commit (h : History Thread) : History Thread :=
  { h with committed := h.committed ++ [h.current], current := [] }

def Present (h : History Thread) (op : ℕ) : Prop :=
  ∃ group ∈ h.committed, group.filter (·.op = op) = h.logged.filter (·.op = op)

def Absent (h : History Thread) (op : ℕ) : Prop := ∀ group ∈ h.committed, ∀ e ∈ group, e.op ≠ op

def Pending (h : History Thread) (op : ℕ) : Prop :=
  h.Absent op ∧ h.current.filter (·.op = op) = h.logged.filter (·.op = op)

variable {h : History Thread}

theorem Pending.fresh (absent : h.Absent op) (current : ∀ e ∈ h.current, e.op ≠ op)
    (logged : ∀ e ∈ h.logged, e.op ≠ op) : h.Pending op := by
  refine ⟨absent, ?_⟩
  rw [List.filter_eq_nil_iff.mpr (by simpa using current), List.filter_eq_nil_iff.mpr (by simpa using logged)]

theorem Pending.log (pending : h.Pending op) (e : Entry) : (h.log e).Pending op :=
  ⟨pending.1, by simp [History.log, pending.2]⟩

theorem Present.log (present : h.Present op) {e : Entry} (other : e.op ≠ op) : (h.log e).Present op := by
  obtain ⟨group, member, whole⟩ := present
  exact ⟨group, member, by simp [History.log, whole, other]⟩

theorem Pending.commit (pending : h.Pending op) : h.commit.Present op :=
  ⟨h.current, by simp [History.commit], pending.2⟩

theorem Present.commit (present : h.Present op) : h.commit.Present op := by
  obtain ⟨group, member, whole⟩ := present
  exact ⟨group, by simp [History.commit, member], whole⟩

theorem Absent.commit (absent : h.Absent op) (outside : ∀ e ∈ h.current, e.op ≠ op) : h.commit.Absent op := by
  intro group member
  rcases List.mem_append.mp member with before | last
  · exact absent group before
  · rw [List.mem_singleton.mp last]
    exact outside

end History

def contents (base : BlockNo → Block) (groups : List (List Entry)) : BlockNo → Block :=
  Redo.overlay base (groups.flatten.map Entry.write)

variable {Thread : Type} [DecidableEq Thread] {sb : Superblock} {s after : State Thread} {t : Thread}
  {h : History Thread} {base : BlockNo → Block} {a : Action}

def note (s : State Thread) : Label Thread → History Thread → History Thread
  | .act t .beginOp, h => { h with ops := h.ops + 1, op := Function.update h.op t h.ops }
  | .act t (.logWrite b), h => match (s.buf b).blockno with
      | some blockno => h.log ⟨h.op t, blockno, (s.buf b).data⟩
      | none => h
  | .act t .run, h => if (s.pc t).commits then h.commit else h
  | .act _ _, h => h
  | .crash _, h => { h with current := [] }

def LogsHome (sb : Superblock) (s : State Thread) : Label Thread → Prop
  | .act _ a => ∀ write ∈ a.logs s, ¬ sb.inLog write.1
  | .crash _ => True

/-! ## The groups on the disk -/

theorem contents_commit (groups : List (List Entry)) (current : List Entry) :
    contents base (groups ++ [current]) = Redo.overlay (contents base groups) (current.map Entry.write) := by
  simp [contents, Redo.overlay_append]

theorem act_commits (action : act sb s t a = some after) (commits : (s.pc t).commits = true) : a = .run := by
  obtain ⟨i, here⟩ : ∃ i, s.pc t = .writeHead i := by
    cases here : s.pc t <;> simp_all [Pc.commits]
  cases a with
  | run => rfl
  | brelse b =>
    simp only [act, here] at action
    split at action <;> cases action
  | _ => simp [act, here] at action

theorem moved_ops {logs : Option (BlockNo × Block)} (moved : Moved sb s t logs after) (awake : s.pc t ≠ .idle)
    (op : (after.pc t).ops ≠ 0) : (s.pc t).ops ≠ 0 := by
  cases moved with
  | goto goes =>
    simp only [State.goto, Function.update_self] at op
    rwa [← goes.same.2.2]
  | hit here | recycle here | acquire here | unref here =>
    simpa [State.goto, State.unref, State.setBuf, here, Pc.ops] using op
  | cached here | fill here =>
    simp only [State.goto, Function.update_self, resume_ops] at op
    rwa [here]
  | release _ here =>
    rcases here with inner | ⟨outer, _⟩
    · simpa [State.goto, inner, Pc.ops] using op
    · simpa [State.goto, outer, Pc.ops] using op
  | modify here | absorb here | append here | endLast here | endOp here => simp [here, Pc.ops]
  | beginOp here => exact absurd here awake
  | @installBlock recovering _ _ _ _ _ write =>
    cases recovering <;> simp [State.goto, Pc.ops] at op
  | _ => simp [State.goto, Pc.ops, Use.ops] at op

theorem act_ops (action : act sb s t a = some after) (disciplined : Disciplined s (.act t a))
    (op : (after.pc t).ops ≠ 0) : (s.pc t).ops ≠ 0 ∨ a = .beginOp := by
  by_cases idle : s.pc t = .idle
  · cases a with
    | beginOp => exact .inr rfl
    | bread b =>
      simp only [act, idle] at action
      split at action <;> cases action
      simp [State.goto, Pc.ops, Use.ops] at op
    | brelse i =>
      simp only [act, idle] at action
      split at action <;> cases action
      simp [State.goto, Pc.ops] at op
    | _ => simp [act, run, idle] at action
  · exact .inl (moved_ops (act_moved action disciplined) idle op)

/-! ## Whole operations -/

structure Atomic (s : State Thread) (h : History Thread) : Prop where
  running : ∀ t, (s.pc t).ops ≠ 0 → h.op t < h.ops ∧ h.Pending (h.op t)
  gathering : ∀ e ∈ h.current, h.Pending e.op
  settled : ∀ op, h.Present op ∨ h.Absent op
  begun : ∀ e ∈ h.logged, e.op < h.ops
  current : ∀ e ∈ h.current, e ∈ h.logged
  committed : ∀ group ∈ h.committed, ∀ e ∈ group, e ∈ h.logged

namespace Atomic

omit [DecidableEq Thread] in
theorem frame (atomic : Atomic s h) (ops : ∀ t, (after.pc t).ops ≠ 0 → (s.pc t).ops ≠ 0) : Atomic after h :=
  { atomic with running := fun t op => atomic.running t (ops t op) }

theorem beginOp (atomic : Atomic s h) (ops : ∀ t' ≠ t, (after.pc t').ops ≠ 0 → (s.pc t').ops ≠ 0) :
    Atomic after { h with ops := h.ops + 1, op := Function.update h.op t h.ops } where
  running t' op := by
    by_cases same : t' = t
    · subst same
      simp only [Function.update_self]
      refine ⟨Nat.lt_succ_self _, .fresh ?_ ?_ ?_⟩
      · exact fun group member e entry => Nat.ne_of_lt (atomic.begun e (atomic.committed group member e entry))
      · exact fun e entry => Nat.ne_of_lt (atomic.begun e (atomic.current e entry))
      · exact fun e entry => Nat.ne_of_lt (atomic.begun e entry)
    · simp only [Function.update_of_ne same]
      obtain ⟨before, pending⟩ := atomic.running t' (ops t' same op)
      exact ⟨Nat.lt_succ_of_lt before, pending⟩
  gathering := atomic.gathering
  settled := atomic.settled
  begun e member := Nat.lt_succ_of_lt (atomic.begun e member)
  current := atomic.current
  committed := atomic.committed

omit [DecidableEq Thread] in
theorem log (atomic : Atomic s h) (op : (s.pc t).ops ≠ 0) (ops : ∀ t, (after.pc t).ops ≠ 0 → (s.pc t).ops ≠ 0)
    {e : Entry} (mine : e.op = h.op t) : Atomic after (h.log e) := by
  obtain ⟨begun, pending⟩ := atomic.running t op
  rw [← mine] at begun pending
  refine ⟨?_, ?_, ?_, ?_, ?_, ?_⟩
  · intro t' still
    obtain ⟨before, waiting⟩ := atomic.running t' (ops t' still)
    exact ⟨before, waiting.log e⟩
  · intro e' member
    rcases List.mem_append.mp member with before | last
    · exact (atomic.gathering e' before).log e
    · rw [List.mem_singleton.mp last]
      exact pending.log e
  · intro n
    rcases atomic.settled n with present | absent
    · by_cases this : e.op = n
      · exact .inr (this ▸ pending.1)
      · exact .inl (present.log this)
    · exact .inr absent
  · intro e' member
    rcases List.mem_append.mp member with before | last
    · exact atomic.begun e' before
    · rw [List.mem_singleton.mp last]
      exact begun
  · intro e' member
    rcases List.mem_append.mp member with before | last
    · exact List.mem_append_left _ (atomic.current e' before)
    · exact List.mem_append_right _ last
  · intro group member e' entry
    exact List.mem_append_left _ (atomic.committed group member e' entry)

omit [DecidableEq Thread] in
theorem commit (atomic : Atomic s h) (quiet : ∀ t, (after.pc t).ops = 0) : Atomic after h.commit where
  running t op := absurd (quiet t) op
  gathering := by simp [History.commit]
  settled n := by
    by_cases gathered : ∃ e ∈ h.current, e.op = n
    · obtain ⟨e, member, rfl⟩ := gathered
      exact .inl (atomic.gathering e member).commit
    · refine (atomic.settled n).imp History.Present.commit fun absent => absent.commit ?_
      exact fun e member same => gathered ⟨e, member, same⟩
  begun := atomic.begun
  current := by simp [History.commit]
  committed group member := by
    rcases List.mem_append.mp member with before | last
    · exact atomic.committed group before
    · rw [List.mem_singleton.mp last]
      exact atomic.current

omit [DecidableEq Thread] in
theorem crash (atomic : Atomic s h) (quiet : ∀ t, (after.pc t).ops = 0) : Atomic after { h with current := [] } where
  running t op := absurd (quiet t) op
  gathering := by simp
  settled := atomic.settled
  begun := atomic.begun
  current := by simp
  committed := atomic.committed

theorem act (atomic : Atomic s h) (action : act sb s t a = some after) (disciplined : Disciplined s (.act t a))
    (quiet : (s.pc t).commits = true → ∀ t', (s.pc t').ops = 0) : Atomic after (note s (.act t a) h) := by
  have others : ∀ t' ≠ t, (after.pc t').ops ≠ 0 → (s.pc t').ops ≠ 0 := by
    intro t' other
    obtain ⟨pc, pcs⟩ := moved_pc (act_moved action disciplined)
    rw [pcs, Function.update_of_ne other]
    exact id
  by_cases begins : a = .beginOp
  · subst begins
    exact atomic.beginOp others
  have ops : ∀ t', (after.pc t').ops ≠ 0 → (s.pc t').ops ≠ 0 := by
    intro t' op
    by_cases same : t' = t
    · subst same
      exact (act_ops action disciplined op).resolve_right begins
    · exact others t' same op
  cases a with
  | beginOp => exact absurd rfl begins
  | run =>
    simp only [note]
    split
    · next commits =>
      refine atomic.commit fun t' => ?_
      by_contra op
      exact ops t' op (quiet commits t')
    · exact atomic.frame ops
  | logWrite b =>
    simp only [Logging.act] at action
    split at action
    · next modified blockno here block =>
      simp only [note, block]
      exact atomic.log (t := t) (by simp [here, Pc.ops]) ops rfl
    · cases action
  | _ => exact atomic.frame ops

end Atomic

/-! ## Every run -/

section run
variable [Fintype Thread] {disk : BlockNo → Block} {t₀ : Thread}

def Grouped (sb : Superblock) (base : BlockNo → Block) (s : State Thread) (h : History Thread) : Prop :=
  ∃ c mem, Held sb c mem (contents base h.committed)
    (Redo.overlay (contents base h.committed) (h.current.map Entry.write)) s

theorem Grouped.act (grouped : Grouped sb base s h) (action : act sb s t a = some after)
    (home : ∀ write ∈ a.logs s, ¬ sb.inLog write.1) (disciplined : Disciplined s (.act t a)) : Grouped sb base after (note s (.act t a) h) := by
  obtain ⟨c, mem, held⟩ := grouped
  obtain ⟨c', mem', kept⟩ := held.moved (act_moved action disciplined) home
  refine ⟨c', mem', ?_⟩
  by_cases commits : (s.pc t).commits = true
  · obtain rfl := act_commits action commits
    rw [if_pos commits, ← contents_commit] at kept
    simpa [note, commits, History.commit, Action.logs, Redo.overlay] using kept
  · rw [if_neg commits] at kept
    cases a with
    | logWrite b =>
      cases block : (s.buf b).blockno with
      | none => simpa [note, block, Action.logs, Redo.overlay] using kept
      | some blockno =>
        simp only [Action.logs, block, Option.map_some, Option.toList_some, ← Redo.overlay_append] at kept
        simpa [note, block, History.log, Entry.write] using kept
    | run => simpa [note, commits, Action.logs, Redo.overlay] using kept
    | _ => exact kept

theorem grouped_reached (durable : sb.layout.Durable disk base) {x : State Thread × History Thread}
    (reached : ((system sb disk t₀).recorded .start note).ReachedBy (fun x label => LogsHome sb x.1 label ∧ Disciplined x.1 label) x) :
    Grouped sb base x.1 x.2 ∧ Atomic x.1 x.2 := by
  have quiet : ∀ disk (t t' : Thread), ((boot sb disk t).pc t').ops = 0 := by
    intro disk t t'
    by_cases same : t' = t <;> simp [boot, same, Pc.ops, Use.ops]
  refine reached.invariant (fun x => Grouped sb base x.1 x.2 ∧ Atomic x.1 x.2) ⟨?_, ?_⟩ ?_
  · exact ⟨some t₀, disk, held_boot durable t₀⟩
  · refine ⟨fun t op => absurd (quiet disk t₀ t) op, ?_, fun op => .inr ?_, ?_, ?_, ?_⟩ <;>
      simp [System.recorded, History.start, History.Absent]
  · intro before label after _ held admitted action
    obtain ⟨home, disciplined⟩ := admitted
    obtain ⟨moved, noted⟩ := System.recorded_step action
    obtain ⟨grouped, atomic⟩ := held
    rw [noted]
    cases label with
    | act t a =>
      refine ⟨grouped.act moved home disciplined, atomic.act moved disciplined fun commits => ?_⟩
      obtain ⟨c, mem, held⟩ := grouped
      have busy : (before.1.pc t).stage ≠ .outside := by
        intro outside
        cases here : before.1.pc t <;> simp_all [Pc.commits, Pc.stage]
      exact held.control.idle_of_committer (by simp [held.control.committer busy])
    | crash t =>
      have booted : boot sb before.1.disk t = after.1 := Option.some.inj moved
      rw [← booted]
      obtain ⟨c, mem, held⟩ := grouped
      exact ⟨⟨some t, _, held_boot held.logged.durable t⟩, atomic.crash fun t' => quiet _ t t'⟩

/-- Started after a crash in any state, the recovery ends, and outside the log the disk then holds exactly the groups
whose header had reached it, each operation as a whole, if the callers log no block of the log and keep the discipline of
`log_write`. -/
theorem recovery_keeps_committed_groups (sb : Superblock) (durable : sb.layout.Durable disk base) (t₀ : Thread)
    {s : State Thread} {h : History Thread}
    (reached : ((system sb disk t₀).recorded .start note).ReachedBy (fun x label => LogsHome sb x.1 label ∧ Disciplined x.1 label) (s, h)) :
    (∀ t, ∃ count after,
      (system sb disk t₀).run s (.crash t :: List.replicate count (.act t .run)) = some after ∧
        after.booted = true ∧ ∀ b, ¬ sb.inLog b → after.disk b = contents base h.committed b) ∧
      ∀ op, h.Present op ∨ h.Absent op := by
  obtain ⟨⟨c, mem, held⟩, atomic⟩ := grouped_reached durable reached
  refine ⟨fun t => ?_, atomic.settled⟩
  obtain ⟨count, after, steps, recovered⟩ := recovers held.logged.durable disk t₀ t
  exact ⟨count, after, steps, recovered⟩

end run

/-! ## One group committed and not installed -/

def smallLog : Superblock := ⟨2, 4, by decide, by decide⟩

def blankDisk : BlockNo → Block := fun _ _ => 0

theorem smallLog_durable : smallLog.layout.Durable blankDisk blankDisk :=
  have empty : smallLog.layout.logged blankDisk = [] := rfl
  ⟨by simp [empty], by simp [empty], by simp [empty], fun _ _ _ => rfl⟩

instance (sb : Superblock) (s : State Thread) (label : Label Thread) : Decidable (LogsHome sb s label) :=
  match label with
  | .act _ a => show Decidable (∀ write ∈ a.logs s, ¬ sb.inLog write.1) from Option.decidableForallMem _
  | .crash _ => .isTrue trivial

instance (s : State Thread) (label : Label Thread) : Decidable (Disciplined s label) :=
  match label with
  | .act t (.modify b _) | .act t (.logWrite b) => show Decidable ((s.buf b).lock = some t) from inferInstance
  | .act t (.brelse b) => show Decidable (b ∉ (s.pc t).modified) from inferInstance
  | .act t .endOp => show Decidable ((s.pc t).modified = []) from inferInstance
  | .act _ .beginOp | .act _ (.bread _) | .act _ .run | .crash _ => .isTrue trivial

def turns (count : ℕ) : List (Label (Fin 2)) := List.replicate count (.act 0 .run)

def calls (actions : List Action) : List (Label (Fin 2)) := actions.map (.act 0)

/-- The first process boots, writes block 10 in an operation, and the power fails when the header is written. -/
def powerFails : List (Label (Fin 2)) :=
  turns 14 ++ calls [.beginOp, .bread 10] ++ turns 3 ++
    calls [.modify 1 fun _ => 7, .logWrite 1, .brelse 1, .run, .endOp] ++ turns 18

set_option maxRecDepth 10000 in
theorem recovery_keeps_committed_groups_powerFails :
    ∃ (s : State (Fin 2)) (h : History (Fin 2)),
      ((system smallLog blankDisk 0).recorded .start note).ReachedBy (fun x label => LogsHome smallLog x.1 label ∧ Disciplined x.1 label) (s, h) ∧
        contents blankDisk h.committed 10 0 = 7 ∧ s.disk 10 0 = 0 ∧
        (∀ t, ∃ count after,
          (system smallLog blankDisk 0).run s (.crash t :: List.replicate count (.act t .run)) = some after ∧
            after.booted = true ∧ ∀ b, ¬ smallLog.inLog b → after.disk b = contents blankDisk h.committed b) ∧
        ∀ op, h.Present op ∨ h.Absent op := by
  have checked : (((system smallLog blankDisk (0 : Fin 2)).recorded .start note).runBy
      (fun x label => LogsHome smallLog x.1 label ∧ Disciplined x.1 label) (boot smallLog blankDisk 0, .start) powerFails).map
        (fun x => (contents blankDisk x.2.committed 10 0, x.1.disk 10 0)) = some (7, 0) := by decide +kernel
  obtain ⟨⟨s, h⟩, ran, values⟩ := Option.map_eq_some_iff.mp checked
  have reached := System.ReachedBy.runBy .initial ran
  have kept := recovery_keeps_committed_groups smallLog smallLog_durable 0 reached
  exact ⟨s, h, reached, congrArg Prod.fst values, congrArg Prod.snd values, kept⟩

end OsProjects.Logging

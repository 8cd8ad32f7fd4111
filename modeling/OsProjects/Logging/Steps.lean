import OsProjects.Logging.Commit
import OsProjects.Logging.Owned

namespace OsProjects.Logging
open Transition

variable {Thread : Type} [DecidableEq Thread] {sb : Superblock} {s after : State Thread} {t : Thread}
  {logs : Option (BlockNo × Block)} {pc : Pc} {lh : List BlockNo}

/-! ## Entries of the header -/

@[simp]
theorem resume_tail (lh : List BlockNo) (b : BufNo) (use : Use) : (resume lh b use).tail = use.tail := by
  cases use <;> rfl

theorem Pc.tail_outside {pc : Pc} (outside : pc.stage = .outside) : pc.tail = none := by
  cases pc with
  | bget _ use | acquiresleep _ _ use | bread _ _ use =>
    cases use <;> first | rfl | simp [Pc.stage, Use.stage] at outside
  | _ => first | rfl | simp [Pc.stage] at outside

theorem Pc.tail_plain {pc : Pc} (plain : pc.plain = true) : pc.tail = none := by
  cases pc <;> first | rfl | simp [Pc.plain] at plain

def State.InRange (s : State Thread) : Prop := ∀ t, ∀ k ∈ (s.pc t).tail, k < s.lh.length

theorem moved_tail (owned : Owned sb s) (inRange : s.InRange) (moved : Moved sb s t logs after) :
    ∀ k ∈ (after.pc t).tail, k < after.lh.length := by
  have mine := inRange t
  cases moved with
  | goto goes =>
    simp only [State.goto, Function.update_self]
    generalize s.pc t = old at goes
    cases goes <;> simp_all [Pc.tail, Use.tail]
  | hit here | recycle here | acquire here =>
    simpa [State.goto, State.setBuf, here, Pc.tail] using mine
  | cached here | fill here =>
    rw [here] at mine
    simp only [State.goto, Function.update_self, resume_tail]
    exact mine
  | unref here =>
    have wf := (owned t).wf
    rw [here] at wf
    simp [State.goto, Pc.tail_plain wf]
  | writeLogBlock here write | writeHead here write | eraseHead here write =>
    obtain ⟨_, _, _, rfl⟩ := bwrite_eq_some write
    simp [State.goto, Pc.tail]
  | @installBlock recovering _ _ _ here _ write =>
    obtain ⟨_, _, _, rfl⟩ := bwrite_eq_some write
    rw [here] at mine
    cases recovering
    · simpa [State.goto, State.setBuf, Pc.tail] using mine
    · simp [State.goto, Pc.tail]
  | _ => simp [State.goto, State.setBuf, Pc.tail, Use.tail]

theorem Owned.awake (owned : Owned sb s) (moved : Moved sb s t logs after) (off : s.booted = false) :
    s.pc t ≠ .idle := by
  intro idle
  cases moved with
  | goto _ up => simp [off] at up; exact up idle
  | beginOp _ up => simp [off] at up
  | release holds =>
    have held := (owned t).held off _ holds
    simp [idle, Pc.locks] at held
  | _ => simp_all

def Pc.commits : Pc → Bool
  | .writeHead _ => true
  | _ => false

variable {old : Pc}

theorem Goes.same (goes : Goes sb lh old pc) :
    (∀ i, pc.refs i = old.refs i) ∧ pc.modified = old.modified ∧ pc.ops = old.ops := by
  cases goes <;> exact ⟨fun i => rfl, rfl, rfl⟩

theorem Goes.stage (goes : Goes sb lh old pc) :
    pc.stage = old.stage ∨ (old = .commit ∧ pc = .finish false ∧ lh = []) ∨
      ∃ tail, old = .writeLog tail ∧ pc = .bget sb.logstart .head ∧ lh.length ≤ tail := by
  cases goes with
  | commitNone none => exact .inr (.inl ⟨rfl, rfl, none⟩)
  | writeLogEnd done => exact .inr (.inr ⟨_, rfl, rfl, done⟩)
  | _ => exact .inl rfl

section run
variable [Fintype Thread] {c : Option Thread} {pins : List BlockNo} {mem : BlockNo → Block} {i : BufNo}
  {b : BlockNo} {d : Block} {mem' base' view' : BlockNo → Block} {c' : Option Thread}

theorem State.InRange.moved (inRange : s.InRange) (owned : Owned sb s) (control : Control c s)
    (moved : Moved sb s t logs after) : after.InRange := by
  intro t'
  by_cases same : t' = t
  · subst same
    exact moved_tail owned inRange moved
  · obtain ⟨pc, pcs⟩ := moved_pc moved
    rw [pcs, Function.update_of_ne same]
    rcases moved_lh moved with equal | busy
    · rw [equal]
      exact inRange t'
    · have outside : (s.pc t').stage = .outside := by
        refine control.elsewhere t' ?_
        rcases busy with op | stage
        · simp [control.none_of_ops op]
        · rw [control.committer stage]
          exact fun equal => same (Option.some.inj equal).symm
      simp [Pc.tail_outside outside]

/-! ## The cache -/

theorem refs_goto (pcs : after.pc = Function.update s.pc t pc) (i : BufNo) :
    after.refs i + (s.pc t).refs i = s.refs i + pc.refs i := by
  unfold State.refs
  rw [pcs]
  exact weigh_update (Pc.refs i) s.pc t pc

theorem refs_kept (pcs : after.pc = Function.update s.pc t pc) (same : pc.refs i = (s.pc t).refs i) :
    after.refs i = s.refs i := by
  have moved := refs_goto pcs i
  omega

omit [Fintype Thread] in
theorem dirty_goto (pcs : after.pc = Function.update s.pc t pc)
    (modified : i ∈ (s.pc t).modified → i ∈ pc.modified) (dirty : s.dirty i) : after.dirty i := by
  obtain ⟨t', member⟩ := dirty
  refine ⟨t', ?_⟩
  rw [pcs]
  by_cases same : t' = t
  · subst same
    rw [Function.update_self]
    exact modified member
  · rwa [Function.update_of_ne same]

namespace State.Cached

theorem bunpin {rest : List BlockNo} (cached : s.Cached (b :: rest) mem) (pcs : after.pc = Function.update s.pc t pc)
    (buf : after.buf = Function.update s.buf i { s.buf i with refcnt := (s.buf i).refcnt - 1 })
    (order : after.order = s.order) (disk : after.disk = s.disk) (block : (s.buf i).blockno = some b) (once : b ∉ rest)
    (written : s.disk b = mem b) (refs : ∀ j, pc.refs j = (s.pc t).refs j)
    (modified : pc.modified = (s.pc t).modified) : after.Cached rest mem := by
  unfold State.Cached
  rw [buf, order, disk]
  exact cached.unpin block once written (fun j => refs_kept pcs (refs j)) (fun j => dirty_goto pcs (by simp [modified])) rfl

variable {x : Buf Thread} (cached : s.Cached pins mem) (pcs : after.pc = Function.update s.pc t pc)
  (order : after.order = s.order)
include cached pcs order

theorem bwrite (buf : after.buf = Function.update s.buf i { s.buf i with data := d })
    (disk : after.disk = Function.update s.disk b d) (block : (s.buf i).blockno = some b)
    (refs : ∀ j, pc.refs j = (s.pc t).refs j) (modified : pc.modified = (s.pc t).modified) :
    after.Cached pins (Function.update mem b d) := by
  unfold State.Cached
  rw [buf, order, disk]
  exact cached.write block (fun j => refs_kept pcs (refs j)) (fun j => dirty_goto pcs (by simp [modified])) rfl

variable (disk : after.disk = s.disk)
include disk

theorem goto (buf : after.buf = s.buf) (refs : ∀ i, pc.refs i = (s.pc t).refs i)
    (modified : ∀ i ∈ (s.pc t).modified, i ∈ pc.modified) : after.Cached pins mem := by
  unfold State.Cached
  rw [buf, order, disk]
  exact cached.keep (fun i => refs_kept pcs (refs i)) fun i => dirty_goto pcs (modified i)

theorem setBuf (buf : after.buf = Function.update s.buf i x) (block : x.blockno = (s.buf i).blockno)
    (valid : (s.buf i).valid = true → x.valid = true)
    (count : x.refcnt + (s.buf i).held + (s.pc t).refs i = (s.buf i).refcnt + x.held + pc.refs i)
    (others : ∀ j ≠ i, pc.refs j = (s.pc t).refs j) (modified : ∀ j ∈ (s.pc t).modified, j ∈ pc.modified)
    (data : ∀ b, x.blockno = some b → x.valid = true → ¬ after.dirty i → x.data = mem b) : after.Cached pins mem := by
  unfold State.Cached
  rw [buf, order, disk]
  refine cached.set block valid ?_ (fun j other => refs_kept pcs (others j other)) (fun j _ => dirty_goto pcs (modified j)) data
  have counted := cached.counted i
  have moved := refs_goto pcs i
  have pinned : x.pinned pins = (s.buf i).pinned pins := by rw [Buf.pinned, block, ← Buf.pinned]
  omega

theorem recount (buf : after.buf = Function.update s.buf i x) (block : x.blockno = (s.buf i).blockno)
    (valid : x.valid = (s.buf i).valid) (data : x.data = (s.buf i).data)
    (count : x.refcnt + (s.buf i).held + (s.pc t).refs i = (s.buf i).refcnt + x.held + pc.refs i)
    (others : ∀ j ≠ i, pc.refs j = (s.pc t).refs j) (modified : pc.modified = (s.pc t).modified) :
    after.Cached pins mem := by
  refine cached.setBuf pcs order disk buf block (fun fresh => valid.trans fresh) count others (by simp [modified]) ?_
  intro b here fresh settled
  rw [data]
  refine cached.coherent i b (block ▸ here) (valid ▸ fresh) fun dirty => settled ?_
  exact dirty_goto pcs (by simp [modified]) dirty

theorem recycleBuf (buf : after.buf = Function.update s.buf i x) (missing : ∀ j, (s.buf j).blockno ≠ some b)
    (zero : (s.buf i).refcnt = 0) (block : x.blockno = some b) (valid : x.valid = false) (one : x.refcnt = 1)
    (lock : x.lock = (s.buf i).lock) (ref : pc.refs i = (s.pc t).refs i + 1)
    (others : ∀ j ≠ i, pc.refs j = (s.pc t).refs j) (modified : pc.modified = (s.pc t).modified) :
    after.Cached pins mem := by
  unfold State.Cached
  rw [buf, order, disk]
  refine cached.recycle missing zero block valid one lock ?_ (fun j other => refs_kept pcs (others j other))
    fun j => dirty_goto pcs (by simp [modified])
  have moved := refs_goto pcs i
  omega

end State.Cached

/-! ## One step -/

structure Held (sb : Superblock) (c : Option Thread) (mem base view : BlockNo → Block) (s : State Thread) : Prop where
  control : Control c s
  owned : Owned sb s
  inRange : s.InRange
  cached : s.Cached ((s.stage c).pins s.lh) mem
  logged : Logged sb (s.stage c) s.lh s.disk mem base view

variable {base view : BlockNo → Block}

theorem Held.next (held : Held sb c mem base view s) (moved : Moved sb s t logs after) (control : Control c' after)
    (cached : after.Cached ((after.stage c').pins after.lh) mem')
    (logged : Logged sb (after.stage c') after.lh after.disk mem' base' view') : Held sb c' mem' base' view' after :=
  ⟨control, held.owned.moved held.control held.cached moved, held.inRange.moved held.owned held.control moved, cached,
    logged⟩

theorem Control.stay (control : Control c s) (owned : Owned sb s) (moved : Moved sb s t logs after)
    (pcs : after.pc = Function.update s.pc t pc) (booted : after.booted = s.booted)
    (committing : after.committing = s.committing) (outside : (s.pc t).stage = .outside ↔ pc.stage = .outside)
    (recovering : pc.stage.recovering = (s.pc t).stage.recovering)
    (ops : after.outstanding + (s.pc t).ops = s.outstanding + pc.ops)
    (quiet : c ≠ none → after.outstanding = 0) : Control c after :=
  control.move pcs booted committing outside recovering ops quiet fun off other =>
    absurd (control.asleep off t other) (owned.awake moved off)

theorem Held.stay (held : Held sb c mem base view s) (moved : Moved sb s t logs after)
    (pcs : after.pc = Function.update s.pc t pc) (booted : after.booted = s.booted)
    (committing : after.committing = s.committing) (outstanding : after.outstanding = s.outstanding)
    (stage : pc.stage = (s.pc t).stage) (ops : pc.ops = (s.pc t).ops) (lh : after.lh = s.lh) (disk : after.disk = s.disk)
    (cached : after.Cached ((s.stage c).pins s.lh) mem) : Held sb c mem base view after := by
  have same := State.stage_move (c := c) pcs stage
  refine held.next moved ?_ ?_ ?_
  · refine held.control.stay held.owned moved pcs booted committing (by rw [stage]) (by rw [stage]) ?_ ?_
    · rw [outstanding, ops]
    · exact fun busy => outstanding.trans (held.control.quiet busy)
  · rw [same, lh]
    exact cached
  · rw [same, lh, disk]
    exact held.logged

theorem resume_refs (lh : List BlockNo) (b : BufNo) (use : Use) (i : BufNo) : (resume lh b use).refs i = 0 := by
  cases use <;> rfl

/-! ## `bread` and `brelse` -/

namespace Held

variable {use : Use} {modified : List BufNo} {wrote : State Thread} {k : ℕ} {recovering : Bool}
  (held : Held sb c mem base view s) {next : Pc} {lbuf dbuf : BufNo}
include held

theorem hit (here : s.pc t = .bget b use) (cached : (s.buf i).blockno = some b) :
    Held sb c mem base view ((s.setBuf i { s.buf i with refcnt := (s.buf i).refcnt + 1 }).goto t
      (.acquiresleep b i use)) := by
  refine held.stay (.hit here cached) rfl rfl rfl rfl (by rw [here]; rfl) (by rw [here]; rfl) rfl rfl ?_
  refine held.cached.recount rfl rfl rfl rfl rfl rfl rfl ?_ ?_ (by rw [here]; rfl)
  · simp [here, Buf.held, Pc.refs]
    omega
  · intro j other
    simp [here, Pc.refs, Ne.symm other]

theorem recycle (here : s.pc t = .bget b use)
    (missing : ∀ i ∈ s.order, (s.buf i).blockno ≠ some b) (unused : (s.buf i).refcnt = 0) :
    Held sb c mem base view ((s.setBuf i { s.buf i with blockno := some b, valid := false, refcnt := 1 }).goto t
      (.acquiresleep b i use)) := by
  refine held.stay (.recycle here missing unused) rfl rfl rfl rfl (by rw [here]; rfl) (by rw [here]; rfl) rfl rfl ?_
  refine held.cached.recycleBuf rfl rfl rfl rfl (fun j => missing j (held.cached.listed j)) unused rfl rfl rfl rfl ?_ ?_
    (by rw [here]; rfl)
  · simp [here, Pc.refs]
  · intro j other
    simp [here, Pc.refs, Ne.symm other]

theorem acquire (here : s.pc t = .acquiresleep b i use) (free : (s.buf i).lock = none) :
    Held sb c mem base view ((s.setBuf i { s.buf i with lock := some t }).goto t (.bread b i use)) := by
  refine held.stay (.acquire here free) rfl rfl rfl rfl (by rw [here]; rfl) (by rw [here]; rfl) rfl rfl ?_
  refine held.cached.recount rfl rfl rfl rfl rfl rfl rfl ?_ ?_ (by rw [here]; rfl)
  · simp [here, Buf.held, Pc.refs, free]
  · intro j other
    simp [here, Pc.refs, Ne.symm other]

theorem cachedBlock (here : s.pc t = .bread b i use) (valid : (s.buf i).valid = true) :
    Held sb c mem base view (s.goto t (resume s.lh i use)) := by
  refine held.stay (.cached here valid) rfl rfl rfl rfl (by rw [here]; simp [Pc.stage]) (by rw [here]; simp [Pc.ops])
    rfl rfl ?_
  refine held.cached.goto rfl rfl rfl rfl (fun j => ?_) (by rw [here, resume_modified]; exact fun j => id)
  rw [resume_refs, here]
  rfl

theorem fill (here : s.pc t = .bread b i use) (invalid : (s.buf i).valid = false) :
    Held sb c mem base view ((s.setBuf i { s.buf i with data := s.disk b, valid := true }).goto t
      (resume s.lh i use)) := by
  have block : (s.buf i).blockno = some b := (held.owned t).block b i use (.inr here)
  refine held.stay (.fill here invalid) rfl rfl rfl rfl (by rw [here]; simp [Pc.stage]) (by rw [here]; simp [Pc.ops])
    rfl rfl ?_
  refine held.cached.setBuf rfl rfl rfl rfl rfl (fun _ => rfl) ?_ (fun j _ => ?_) ?_ ?_
  · simp [here, resume_refs, Pc.refs, Buf.held]
  · rw [resume_refs, here]
    rfl
  · rw [here, resume_modified]
    exact fun j => id
  · intro b' same _ _
    obtain rfl : b = b' := Option.some.inj (block.symm.trans same)
    exact held.cached.disk_of_invalid block invalid

theorem release (holds : (s.buf i).lock = some t)
    (here : s.pc t = .brelse i next ∨ s.pc t = next ∧ i ∉ next.modified ∧ (next = .idle ∨ ∃ m, next = .op m)) :
    Held sb c mem base view ((s.setBuf i { s.buf i with lock := none }).goto t (.brelseRef i next)) := by
  have same : next.stage = (s.pc t).stage ∧ next.ops = (s.pc t).ops ∧ next.modified = (s.pc t).modified ∧
      ∀ j, (s.pc t).refs j = next.refs j := by
    rcases here with inner | ⟨outer, _⟩
    · rw [inner]
      exact ⟨rfl, rfl, rfl, fun _ => rfl⟩
    · rw [outer]
      exact ⟨rfl, rfl, rfl, fun _ => rfl⟩
  refine held.stay (.release holds here) rfl rfl rfl rfl same.1 same.2.1 rfl rfl ?_
  refine held.cached.recount rfl rfl rfl rfl rfl rfl rfl ?_ ?_ same.2.2.1
  · simp [same.2.2.2, Buf.held, Pc.refs, holds]
    omega
  · intro j other
    simp [same.2.2.2, Pc.refs, Ne.symm other]

theorem unref (here : s.pc t = .brelseRef i next) : Held sb c mem base view ((s.unref i).goto t next) := by
  refine held.stay (.unref here) rfl rfl rfl rfl (by rw [here]; rfl) (by rw [here]; rfl) rfl rfl ?_
  have referred : 1 ≤ (s.buf i).refcnt := by
    have counted := held.cached.counted i
    have mine : (s.pc t).refs i ≤ s.refs i := le_weigh (Pc.refs i) s.pc t
    simp only [here, Pc.refs, if_true] at mine
    omega
  have counted : ({ s.unref i with order := s.order }.goto t next).Cached ((s.stage c).pins s.lh) mem := by
    refine held.cached.recount rfl rfl rfl rfl rfl rfl rfl ?_ ?_ (by rw [here]; rfl)
    · simp [here, Pc.refs, Buf.held]
      omega
    · intro j other
      simp [here, Pc.refs, Ne.symm other]
  refine counted.reorder fun j => ?_
  have listed := held.cached.listed j
  simp only [State.goto, State.unref]
  split
  · by_cases this : j = i
    · simp [this]
    · exact List.mem_cons_of_mem _ ((List.mem_erase_of_ne this).mpr listed)
  · exact listed

/-! ## Operations -/

theorem beginOp (here : s.pc t = .idle) (up : s.booted = true)
    (free : s.committing = false) (room : s.lh.length + (s.outstanding + 1) * MAXOPBLOCKS ≤ LOGSIZE) :
    Held sb c mem base view ({ s with outstanding := s.outstanding + 1 }.goto t (.op [])) := by
  have nobody : c = none := by
    cases committer : c with
    | none => rfl
    | some t' =>
      have busy := (held.control.here t' committer).2
      rw [up, free] at busy
      exact absurd (busy.1.trans busy.2.symm) (by simp)
  have moved : Moved sb s t _ _ := .beginOp here up free room
  subst nobody
  refine held.next moved ?_ ?_ held.logged
  · exact held.control.stay held.owned moved rfl rfl rfl (by rw [here]; rfl) (by rw [here]; rfl) (by rw [here]; rfl)
      fun busy => absurd rfl busy
  · exact held.cached.goto rfl rfl rfl rfl (fun i => by rw [here]; rfl) (by rw [here]; exact fun i => id)

theorem endOp (here : s.pc t = .op []) (more : s.outstanding - 1 ≠ 0) :
    Held sb c mem base view ({ s with outstanding := s.outstanding - 1 }.goto t .idle) := by
  have moved : Moved sb s t _ _ := .endOp here more
  obtain rfl : c = none := held.control.none_of_ops (t := t) (by rw [here]; simp [Pc.ops])
  refine held.next moved ?_ ?_ held.logged
  · refine held.control.stay held.owned moved rfl rfl rfl (by rw [here]; rfl) (by rw [here]; rfl) ?_
      fun busy => absurd rfl busy
    have positive : s.outstanding - 1 + 1 = s.outstanding := by omega
    rw [here]
    exact positive
  · exact held.cached.goto rfl rfl rfl rfl (fun i => by rw [here]; rfl) (by rw [here]; exact fun i => id)

theorem modify (here : s.pc t = .op modified) (holds : (s.buf i).lock = some t) :
    Held sb c mem base view ((s.setBuf i { s.buf i with data := d }).goto t (.op (i :: modified))) := by
  refine held.stay (.modify here holds) rfl rfl rfl rfl (by rw [here]; rfl) (by rw [here]; rfl) rfl rfl ?_
  refine held.cached.setBuf rfl rfl rfl rfl rfl id ?_ ?_ ?_ ?_
  · simp [here, Pc.refs, Buf.held]
  · exact fun j _ => by rw [here]; rfl
  · rw [here]
    exact fun j member => List.mem_cons_of_mem _ member
  · intro b _ _ settled
    refine absurd ⟨t, ?_⟩ settled
    simp [State.goto, Pc.modified]

theorem absorb (here : s.pc t = .op modified) (holds : (s.buf i).lock = some t) (block : (s.buf i).blockno = some b)
    (logged : b ∈ s.lh) :
    Held sb c (Function.update mem b (s.buf i).data) base (Function.update view b (s.buf i).data)
      (s.goto t (.op (modified.filter (· ≠ i)))) := by
  have outside : s.stage c = .outside := held.control.stage_op (t := t) (by rw [here]; simp [Pc.ops])
  have moved : Moved sb s t _ _ := .absorb here holds block logged
  have same : (s.goto t (.op (modified.filter (· ≠ i)))).stage c = .outside := by
    rw [← outside]
    exact State.stage_move rfl (by rw [here]; rfl)
  have cached := held.cached
  have group := held.logged
  rw [outside] at cached group
  refine held.next moved ?_ ?_ ?_
  · exact held.control.stay held.owned moved rfl rfl rfl (by rw [here]; rfl) (by rw [here]; rfl) (by rw [here]; rfl)
      held.control.quiet
  · rw [same]
    refine cached.store block rfl logged (fun j => ?_) fun j other => dirty_goto rfl ?_
    · have moved : (s.goto t (.op (modified.filter (· ≠ i)))).refs j + _ = _ := refs_goto rfl j
      rw [here] at moved
      exact moved
    · rw [here]
      exact fun member => List.mem_filter.mpr ⟨member, by simpa using other⟩
  · rw [same]
    exact group.log (group.home b logged) (.inl ⟨logged, rfl⟩) group.room

theorem append (here : s.pc t = .op modified) (holds : (s.buf i).lock = some t) (block : (s.buf i).blockno = some b)
    (fresh : b ∉ s.lh) (room : s.lh.length < LOGSIZE ∧ s.lh.length < sb.nlog - 1) (home : ¬ sb.inLog b) :
    Held sb c (Function.update mem b (s.buf i).data) base (Function.update view b (s.buf i).data)
      { (s.goto t (.op (modified.filter (· ≠ i)))).setBuf i { s.buf i with refcnt := (s.buf i).refcnt + 1 } with
        lh := s.lh ++ [b] } := by
  have outside : s.stage c = .outside := held.control.stage_op (t := t) (by rw [here]; simp [Pc.ops])
  have moved : Moved sb s t _ _ := .append here holds block fresh room
  have valid : (s.buf i).valid = true := ((held.owned t).valid i holds).resolve_right (by simp [here])
  have cached := held.cached
  have group := held.logged
  rw [outside] at cached group
  obtain rfl : c = none := held.control.none_of_ops (t := t) (by rw [here]; simp [Pc.ops])
  refine held.next moved ?_ ?_ ?_
  · exact held.control.stay held.owned moved rfl rfl rfl (by rw [here]; rfl) (by rw [here]; rfl) (by rw [here]; rfl)
      held.control.quiet
  · have pinned := cached.pin block valid fresh rfl
    refine pinned.store (i := i) (b := b) (by simp [block]) (by simp) (by simp) (fun j => ?_) fun j other => dirty_goto rfl ?_
    · have moved : (s.goto t (.op (modified.filter (· ≠ i)))).refs j + _ = _ := refs_goto rfl j
      rw [here] at moved
      exact moved
    · rw [here]
      exact fun member => List.mem_filter.mpr ⟨member, by simpa using other⟩
  · refine group.log home (.inr ⟨fresh, rfl⟩) ?_
    rw [List.length_append]
    exact Nat.le_min.mpr ⟨room.1, room.2⟩

theorem endLast (here : s.pc t = .op []) (free : s.committing = false) (last : s.outstanding - 1 = 0) :
    Held sb (some t) mem base view
      ({ s with outstanding := s.outstanding - 1, committing := true }.goto t .commit) := by
  have moved : Moved sb s t _ _ := .endLast here free last
  have op : (s.pc t).ops ≠ 0 := by rw [here]; simp [Pc.ops]
  obtain rfl : c = none := held.control.none_of_ops op
  have one : s.outstanding = 1 := by
    have total := le_weigh Pc.ops s.pc t
    rw [← held.control.ops] at total
    omega
  have stage : ({ s with outstanding := s.outstanding - 1, committing := true }.goto t .commit).stage (some t) =
      .write 0 := by simp [State.stage, State.goto, Pc.stage]
  refine held.next moved ?_ ?_ ?_
  · exact held.control.start rfl (by simp [Pc.stage]) rfl rfl rfl (by rw [here, one]; rfl) last
  · rw [stage]
    exact held.cached.goto rfl rfl rfl rfl (fun i => by rw [here]; rfl) (by rw [here]; exact fun i => id)
  · rw [stage]
    exact held.logged.commit

/-! ## The commit and the recovery -/

theorem advance (moved : Moved sb s t logs after)
    (pcs : after.pc = Function.update s.pc t pc) (booted : after.booted = s.booted)
    (committing : after.committing = s.committing) (outstanding : after.outstanding = s.outstanding)
    (busy : (s.pc t).stage ≠ .outside) (still : pc.stage ≠ .outside)
    (recovering : pc.stage.recovering = (s.pc t).stage.recovering) (ops : pc.ops = (s.pc t).ops)
    (cached : after.Cached (pc.stage.pins after.lh) mem')
    (logged : Logged sb pc.stage after.lh after.disk mem' base' view') : Held sb c mem' base' view' after := by
  have stage : after.stage c = pc.stage := by
    rw [held.control.committer busy]
    simp [State.stage, pcs]
  refine held.next moved ?_ ?_ ?_
  · refine held.control.stay held.owned moved pcs booted committing ?_ recovering (by rw [outstanding, ops]) ?_
    · exact ⟨fun outside => absurd outside busy, fun outside => absurd outside still⟩
    · exact fun committer => outstanding.trans (held.control.quiet committer)
  · rw [stage]
    exact cached
  · rw [stage]
    exact logged

omit [DecidableEq Thread] in
theorem read (busy : (s.pc t).stage ≠ .outside) {x : BufNo × BlockNo}
    (read : x ∈ (s.pc t).reads sb s.lh) : (s.buf x.1).blockno = some x.2 ∧ (s.buf x.1).data = mem x.2 := by
  obtain ⟨block, valid⟩ := (held.owned t).reads x read
  refine ⟨block, held.cached.coherent x.1 x.2 block valid ?_⟩
  rintro ⟨t', modified⟩
  exact held.control.not_modified (by simp [held.control.committer busy]) t' modified

theorem goes (goes : Goes sb s.lh (s.pc t) pc)
    (up : s.pc t = .idle → s.booted = true) : Held sb c mem base view (s.goto t pc) := by
  have moved : Moved sb s t none (s.goto t pc) := .goto goes up
  obtain ⟨refs, modified, ops⟩ := goes.same
  have cached : (s.goto t pc).Cached ((s.stage c).pins s.lh) mem :=
    held.cached.goto rfl rfl rfl rfl refs (by simp [modified])
  rcases goes.stage with same | ⟨here, rfl, none⟩ | ⟨tail, here, rfl, done⟩
  · exact held.stay moved rfl rfl rfl rfl same ops rfl rfl cached
  · have busy : (s.pc t).stage ≠ .outside := by simp [here, Pc.stage]
    have logged := held.logged
    rw [held.control.stage busy, here] at cached logged
    refine held.advance moved rfl rfl rfl rfl busy (by simp [Pc.stage]) (by rw [here]; rfl) ops ?_ ?_
    · simpa [Pc.stage, Stage.pins, State.goto, none] using cached
    · simp only [State.goto, none] at logged ⊢
      exact logged.nothing
  · have busy : (s.pc t).stage ≠ .outside := by simp [here, Pc.stage]
    have logged := held.logged
    rw [held.control.stage busy, here] at cached logged
    exact held.advance moved rfl rfl rfl rfl busy (by simp [Pc.stage, Use.stage]) (by rw [here]; rfl) ops cached
      (logged.written done)

theorem bwrite (moved : Moved sb s t none (wrote.goto t pc)) (write : s.bwrite t i d = some wrote)
    (busy : (s.pc t).stage ≠ .outside) (read : (i, b) ∈ (s.pc t).reads sb s.lh) (still : pc.stage ≠ .outside)
    (recovering : pc.stage.recovering = (s.pc t).stage.recovering) (refs : ∀ j, pc.refs j = (s.pc t).refs j)
    (modified : pc.modified = (s.pc t).modified) (ops : pc.ops = (s.pc t).ops)
    (pins : pc.stage.pins s.lh = (s.pc t).stage.pins s.lh)
    (logged : Logged sb pc.stage s.lh (Function.update s.disk b d) (Function.update mem b d) base' view') :
    Held sb c (Function.update mem b d) base' view' (wrote.goto t pc) := by
  have cached := held.cached
  rw [held.control.stage busy, ← pins] at cached
  obtain ⟨b', block, _, rfl⟩ := bwrite_eq_some write
  obtain rfl : b' = b := Option.some.inj (block.symm.trans (held.read busy read).1)
  exact held.advance moved rfl rfl rfl rfl busy still recovering ops
    (cached.bwrite rfl rfl rfl rfl block refs modified) logged

theorem writeLogBlock {toBuf fromBuf : BufNo} (here : s.pc t = .writeLogBlock k toBuf fromBuf)
    (write : s.bwrite t toBuf (s.buf fromBuf).data = some wrote) :
    Held sb c (Function.update mem (sb.logBlock k) (s.buf fromBuf).data) base view
      (wrote.goto t (.brelse fromBuf (.brelse toBuf (.writeLog (k + 1))))) := by
  have busy : (s.pc t).stage ≠ .outside := by simp [here, Pc.stage]
  have source := held.read (x := (fromBuf, s.lh[k]?.getD 0)) busy (by simp [here, Pc.reads])
  have bound : k < s.lh.length := held.inRange t k (by simp [here, Pc.tail])
  have entry : s.lh[k]? = some s.lh[k] := List.getElem?_eq_getElem bound
  have logged := held.logged
  rw [held.control.stage busy, here] at logged
  refine held.bwrite (.writeLogBlock here write) write busy (by simp [here, Pc.reads]) (by simp [Pc.stage])
    (by rw [here]; rfl) (fun i => by rw [here]; rfl) (by rw [here]; rfl) (by rw [here]; rfl) (by rw [here]; rfl) ?_
  refine logged.write_block entry ?_
  rw [source.2, entry]
  rfl

theorem writeHead (here : s.pc t = .writeHead i)
    (write : s.bwrite t i (Logging.writeHead s.lh (s.buf i).data) = some wrote) :
    Held sb c (Function.update mem sb.logstart (Logging.writeHead s.lh (s.buf i).data)) view view
      (wrote.goto t (.brelse i (.installTrans false 0))) := by
  have busy : (s.pc t).stage ≠ .outside := by simp [here, Pc.stage]
  have logged := held.logged
  rw [held.control.stage busy, here] at logged
  refine held.bwrite (.writeHead here write) write busy (by simp [here, Pc.reads]) (by simp [Pc.stage])
    (by rw [here]; rfl) (fun i => by rw [here]; rfl) (by rw [here]; rfl) (by rw [here]; rfl)
    (by rw [here]; exact List.drop_zero) ?_
  exact logged.write_head (readHead_writeHead _ (logged.room.trans sb.capacity_le)) _

theorem installBlock (here : s.pc t = .installBlock recovering k lbuf dbuf)
    (write : s.bwrite t dbuf (s.buf lbuf).data = some wrote) :
    Held sb c (Function.update mem (s.lh[k]?.getD 0) (s.buf lbuf).data) base view
      (wrote.goto t (if recovering then .brelse lbuf (.brelse dbuf (.installTrans recovering (k + 1)))
        else .bunpin k lbuf dbuf)) := by
  have busy : (s.pc t).stage ≠ .outside := by simp [here, Pc.stage]
  have source := held.read (x := (lbuf, sb.logBlock k)) busy (by simp [here, Pc.reads])
  have bound : k < s.lh.length := held.inRange t k (by simp [here, Pc.tail])
  have entry : s.lh[k]? = some (s.lh[k]?.getD 0) := by rw [List.getElem?_eq_getElem bound]; rfl
  have logged := held.logged
  have clean := held.cached.clean (sb.logBlock k)
    (logged.logBlock_not_pinned (sb.layout.lt_capacity logged.room entry))
  have copy : (s.buf lbuf).data = s.disk (sb.logBlock k) := source.2.trans clean.symm
  rw [held.control.stage busy, here] at logged
  have moved : Moved sb s t _ _ := .installBlock here write
  cases recovering with
  | true =>
    exact held.bwrite moved write busy (by simp [here, Pc.reads]) (by simp [Pc.stage])
      (by rw [here]; rfl) (fun i => by rw [here]; rfl) (by rw [here]; rfl) (by rw [here]; rfl) (by rw [here]; rfl)
      (logged.recover_block entry copy _)
  | false =>
    exact held.bwrite moved write busy (by simp [here, Pc.reads]) (by simp [Pc.stage])
      (by rw [here]; rfl) (fun i => by rw [here]; rfl) (by rw [here]; rfl) (by rw [here]; rfl) (by rw [here]; rfl)
      (logged.install_block entry copy)

theorem eraseHead (here : s.pc t = .eraseHead recovering i)
    (write : s.bwrite t i (Logging.writeHead s.lh (s.buf i).data) = some wrote) :
    Held sb c (Function.update mem sb.logstart (Logging.writeHead s.lh (s.buf i).data)) base view
      (wrote.goto t (.brelse i (.finish recovering))) := by
  have busy : (s.pc t).stage ≠ .outside := by simp [here, Pc.stage]
  have logged := held.logged
  rw [held.control.stage busy, here] at logged
  refine held.bwrite (.eraseHead here write) write busy (by simp [here, Pc.reads]) (by simp [Pc.stage])
    (by rw [here]; rfl) (fun i => by rw [here]; rfl) (by rw [here]; rfl) (by rw [here]; rfl) (by rw [here]; rfl) ?_
  refine logged.erase_head ?_ _
  rw [readHead_writeHead _ (logged.room.trans sb.capacity_le)]
  exact logged.holds.2.1

theorem bunpin (here : s.pc t = .bunpin k lbuf dbuf) :
    Held sb c mem base view ((s.setBuf dbuf { s.buf dbuf with refcnt := (s.buf dbuf).refcnt - 1 }).goto t
      (.brelse lbuf (.brelse dbuf (.installTrans false (k + 1))))) := by
  have busy : (s.pc t).stage ≠ .outside := by simp [here, Pc.stage]
  have target := held.read (x := (dbuf, s.lh[k]?.getD 0)) busy (by simp [here, Pc.reads])
  have bound : k < s.lh.length := held.inRange t k (by simp [here, Pc.tail])
  have entry : s.lh[k]? = some s.lh[k] := List.getElem?_eq_getElem bound
  have cached := held.cached
  have logged := held.logged
  rw [held.control.stage busy, here] at cached logged
  rw [entry] at target
  have split : s.lh.drop k = s.lh[k] :: s.lh.drop (k + 1) := List.drop_eq_getElem_cons bound
  refine held.advance (.bunpin here) rfl rfl rfl rfl busy (by simp [Pc.stage]) (by rw [here]; rfl) (by rw [here]; rfl) ?_
    logged.unpin
  have pinned : s.Cached (s.lh[k] :: s.lh.drop (k + 1)) mem := split ▸ cached
  have once : s.lh[k] ∉ s.lh.drop (k + 1) := by
    have nodup := logged.holds.2.2.1.drop (i := k)
    rw [split] at nodup
    exact (List.nodup_cons.mp nodup).1
  exact pinned.bunpin rfl rfl rfl rfl target.1 once (logged.holds.2.2.2.1 _ entry) (fun j => by rw [here]; rfl)
    (by rw [here]; rfl)

theorem installed (here : s.pc t = .installTrans recovering k) (done : s.lh.length ≤ k) :
    Held sb c mem base view ({ s with lh := [] }.goto t (.bget sb.logstart (.erase recovering))) := by
  have busy : (s.pc t).stage ≠ .outside := by simp [here, Pc.stage]
  have cached := held.cached
  have logged := held.logged
  rw [held.control.stage busy, here] at cached logged
  have none : (Pc.installTrans recovering k).stage.pins s.lh = [] := by
    cases recovering
    · exact List.drop_eq_nil_of_le done
    · rfl
  rw [none] at cached
  refine held.advance (.installed here done) rfl rfl rfl rfl busy (by simp [Pc.stage, Use.stage]) (by rw [here]; rfl)
    (by rw [here]; rfl) ?_ (logged.installed done)
  exact cached.goto rfl rfl rfl rfl (fun i => by rw [here]; rfl) (by rw [here]; exact fun i => id)

theorem readHead (here : s.pc t = .readHead i) :
    Held sb c mem base view
      ({ s with lh := Logging.readHead (s.buf i).data }.goto t (.brelse i (.installTrans true 0))) := by
  have busy : (s.pc t).stage ≠ .outside := by simp [here, Pc.stage]
  have source := held.read (x := (i, sb.logstart)) busy (by simp [here, Pc.reads])
  have cached := held.cached
  have logged := held.logged
  have clean := cached.clean sb.logstart logged.logstart_not_pinned
  rw [held.control.stage busy, here] at cached logged
  refine held.advance (.readHead here) rfl rfl rfl rfl busy (by simp [Pc.stage]) (by rw [here]; rfl)
    (by rw [here]; rfl) ?_ ?_
  · exact cached.goto rfl rfl rfl rfl (fun i => by rw [here]; rfl) (by rw [here]; exact fun i => id)
  · have head : (s.buf i).data = s.disk sb.logstart := source.2.trans clean.symm
    simp only [State.goto, head]
    exact logged.read_head

theorem finish (here : s.pc t = .finish recovering)
    (moved : Moved sb s t none after) (pcs : after.pc = Function.update s.pc t .idle) (booted : after.booted = true)
    (committing : after.committing = false) (outstanding : after.outstanding = s.outstanding) (buf : after.buf = s.buf)
    (order : after.order = s.order) (disk : after.disk = s.disk) (lh : after.lh = s.lh) :
    Held sb none mem base view after := by
  have busy : (s.pc t).stage ≠ .outside := by simp [here, Pc.stage]
  have control := held.control
  have cached := held.cached
  have logged := held.logged
  rw [control.stage busy, here] at cached logged
  rw [control.committer busy] at control
  refine held.next moved ?_ ?_ ?_
  · exact control.stop pcs rfl booted committing (by rw [outstanding, here]; rfl)
  · have none : s.lh = [] := logged.holds.2.1
    rw [lh, none]
    exact cached.goto pcs order disk buf (fun i => by rw [here]; rfl) (by rw [here]; exact fun i => id)
  · rw [disk, lh]
    exact logged.finish

omit [DecidableEq Thread] held in
theorem quiet (held : Held sb c' mem' base view after) (quiet : (s.pc t).commits = false) :
    ∃ c' mem', Held sb c' mem' (if (s.pc t).commits then view else base) view after := by
  rw [quiet]
  exact ⟨c', mem', held⟩

theorem moved (moved : Moved sb s t logs after) (home : ∀ write ∈ logs, ¬ sb.inLog write.1) :
    ∃ c' mem', Held sb c' mem' (if (s.pc t).commits then view else base) (Redo.overlay view logs.toList) after := by
  cases moved with
  | goto moves up =>
    refine (held.goes moves up).quiet ?_
    generalize s.pc t = old at moves
    cases moves <;> rfl
  | hit here cached => exact (held.hit here cached).quiet (by rw [here]; rfl)
  | recycle here missing unused => exact (held.recycle here missing unused).quiet (by rw [here]; rfl)
  | acquire here free => exact (held.acquire here free).quiet (by rw [here]; rfl)
  | cached here valid => exact (held.cachedBlock here valid).quiet (by rw [here]; rfl)
  | fill here invalid => exact (held.fill here invalid).quiet (by rw [here]; rfl)
  | release holds here =>
    refine (held.release holds here).quiet ?_
    rcases here with inner | ⟨outer, _, rfl | ⟨m, rfl⟩⟩
    · rw [inner]
      rfl
    · rw [outer]
      rfl
    · rw [outer]
      rfl
  | unref here => exact (held.unref here).quiet (by rw [here]; rfl)
  | beginOp here up free room => exact (held.beginOp here up free room).quiet (by rw [here]; rfl)
  | modify here holds => exact (held.modify here holds).quiet (by rw [here]; rfl)
  | absorb here holds block logged =>
    rw [here]
    exact ⟨c, _, held.absorb here holds block logged⟩
  | append here holds block fresh room =>
    rw [here]
    exact ⟨c, _, held.append here holds block fresh room (home _ rfl)⟩
  | endLast here free last => exact (held.endLast here free last).quiet (by rw [here]; rfl)
  | endOp here more => exact (held.endOp here more).quiet (by rw [here]; rfl)
  | writeLogBlock here write => exact (held.writeLogBlock here write).quiet (by rw [here]; rfl)
  | writeHead here write =>
    rw [here]
    exact ⟨c, _, held.writeHead here write⟩
  | installBlock here write => exact (held.installBlock here write).quiet (by rw [here]; rfl)
  | bunpin here => exact (held.bunpin here).quiet (by rw [here]; rfl)
  | installed here done => exact (held.installed here done).quiet (by rw [here]; rfl)
  | eraseHead here write => exact (held.eraseHead here write).quiet (by rw [here]; rfl)
  | readHead here => exact (held.readHead here).quiet (by rw [here]; rfl)
  | booted here =>
    have busy : (s.pc t).stage ≠ .outside := by simp [here, Pc.stage]
    have committing := (held.control.here t (held.control.committer busy)).2.2
    rw [here] at committing
    exact (held.finish here (.booted here) rfl rfl committing rfl rfl rfl rfl rfl).quiet (by rw [here]; rfl)
  | committed here =>
    have busy : (s.pc t).stage ≠ .outside := by simp [here, Pc.stage]
    have booted := (held.control.here t (held.control.committer busy)).2.1
    rw [here] at booted
    exact (held.finish here (.committed here) rfl booted rfl rfl rfl rfl rfl rfl).quiet (by rw [here]; rfl)

end Held

theorem held_boot {disk : BlockNo → Block} (durable : sb.layout.Durable disk base) (t : Thread) :
    Held sb (some t) disk base base (boot sb disk t) := by
  have stage : (boot sb disk t).stage (some t) = .boot := by simp [State.stage, boot, Pc.stage, Use.stage]
  refine ⟨.boot sb disk t, boot_owned disk, ?_, ?_, ?_⟩
  · intro t'
    by_cases same : t' = t <;> simp [boot, same, Pc.tail, Use.tail]
  · rw [stage]
    refine ⟨?_, by simp [boot], ?_, by simp [Stage.pins], by simp [boot], fun _ _ => rfl⟩
    · intro i
      exact List.mem_ofFn.mpr ⟨i.rev, Fin.rev_rev i⟩
    · intro i
      have none : (boot sb disk t).refs i = 0 := by
        refine weigh_const_zero fun t' => ?_
        by_cases same : t' = t <;> simp [boot, same, Pc.refs]
      simp [none]
      simp [boot, Buf.held, Buf.pinned]
  · rw [stage]
    exact .boot durable disk

end run

end OsProjects.Logging

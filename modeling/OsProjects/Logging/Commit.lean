import OsProjects.Logging.Moves

namespace OsProjects.Logging

variable {sb : Superblock} {lh : List BlockNo} {disk mem base view : BlockNo → Block} {b : BlockNo} {d : Block} {k : ℕ}

/-- A group of operations gathers: the disk has the groups before, memory has the new contents of the blocks in `lh`. -/
structure Gathered (sb : Superblock) (lh : List BlockNo) (disk mem base view : BlockNo → Block) : Prop where
  empty : sb.layout.logged disk = []
  nodup : lh.Nodup
  logged : ∀ b ∈ lh, mem b = view b
  rest : ∀ b, b ∉ lh → view b = base b

def Stage.pins (lh : List BlockNo) : Stage → List BlockNo
  | .outside | .write _ | .head => lh
  | .install false tail | .unpin tail => lh.drop tail
  | _ => []

def Stage.Holds (sb : Superblock) (lh : List BlockNo) (disk mem base view : BlockNo → Block) : Stage → Prop
  | .outside => Gathered sb lh disk mem base view
  | .write tail => Gathered sb lh disk mem base view ∧
      ∀ i < tail, ∀ b, lh[i]? = some b → disk (sb.logBlock i) = view b
  | .head => Gathered sb lh disk mem base view ∧ ∀ (i : ℕ) b, lh[i]? = some b → disk (sb.logBlock i) = view b
  | .install recovering tail => view = base ∧ sb.layout.logged disk = lh ∧ (recovering = false → lh.Nodup) ∧
      ∀ i < tail, ∀ b, lh[i]? = some b → disk b = base b
  | .unpin tail => view = base ∧ sb.layout.logged disk = lh ∧ lh.Nodup ∧
      (∀ b, lh[tail]? = some b → disk b = mem b) ∧ ∀ i < tail + 1, ∀ b, lh[i]? = some b → disk b = base b
  | .erase _ => view = base ∧ lh = [] ∧ ∀ b, ¬ sb.inLog b → disk b = base b
  | .finish _ => view = base ∧ lh = [] ∧ sb.layout.logged disk = []
  | .boot => view = base ∧ lh = []

/-- The log at a stage of a commit or a recovery. `base` is what the committed groups have written, `view` adds the
group that gathers. -/
structure Logged (sb : Superblock) (stage : Stage) (lh : List BlockNo) (disk mem base view : BlockNo → Block) :
    Prop where
  durable : sb.layout.Durable disk base
  home : ∀ b ∈ lh, ¬ sb.inLog b
  room : lh.length ≤ sb.layout.capacity
  holds : stage.Holds sb lh disk mem base view

theorem Superblock.capacity_le (sb : Superblock) : sb.layout.capacity ≤ LOGSIZE := min_le_left _ _

theorem Superblock.ne_logBlock (home : ¬ sb.inLog b) (room : k < sb.layout.capacity) : b ≠ sb.logBlock k :=
  sb.layout.ne_slot home room

theorem Superblock.logBlock_ne (sb : Superblock) {i : ℕ} (small : i < sb.layout.capacity)
    (room : k < sb.layout.capacity) (other : i ≠ k) : sb.logBlock i ≠ sb.logBlock k := by
  intro equal
  have values := congrArg BitVec.toNat equal
  rw [sb.logBlock_toNat (small.trans_le (min_le_right _ _)),
    sb.logBlock_toNat (room.trans_le (min_le_right _ _))] at values
  omega

theorem Stage.pins_sublist (stage : Stage) (lh : List BlockNo) : (stage.pins lh).Sublist lh := by
  cases stage with
  | outside | write | head => exact .refl _
  | install recovering tail =>
    cases recovering
    · exact List.drop_sublist _ _
    · exact List.nil_sublist _
  | unpin => exact List.drop_sublist _ _
  | erase | finish | boot => exact List.nil_sublist _

namespace Logged

variable {stage : Stage} {tail : ℕ} {recovering : Bool}

theorem logBlock_not_pinned (logged : Logged sb stage lh disk mem base view)
    (room : k < sb.layout.capacity) : sb.logBlock k ∉ stage.pins lh := fun pinned =>
  logged.home _ ((stage.pins_sublist lh).subset pinned) (sb.layout.slot_reserved k room)

theorem logstart_not_pinned (logged : Logged sb stage lh disk mem base view) :
    sb.logstart ∉ stage.pins lh := fun pinned =>
  logged.home _ ((stage.pins_sublist lh).subset pinned) sb.layout.head_reserved

/-! ## Operations -/

theorem log (logged : Logged sb .outside lh disk mem base view) (home : ¬ sb.inLog b) {lh' : List BlockNo}
    (list : b ∈ lh ∧ lh' = lh ∨ b ∉ lh ∧ lh' = lh ++ [b]) (room : lh'.length ≤ sb.layout.capacity) :
    Logged sb .outside lh' disk (Function.update mem b d) base (Function.update view b d) := by
  obtain ⟨empty, nodup, same, rest⟩ := logged.holds
  have mem_list : ∀ b', b' ∈ lh' ↔ b' ∈ lh ∨ b' = b := by
    intro b'
    rcases list with ⟨old, rfl⟩ | ⟨_, rfl⟩
    · exact ⟨.inl, fun either => either.elim id fun equal => equal ▸ old⟩
    · simp
  refine ⟨logged.durable, ?_, room, empty, ?_, ?_, ?_⟩
  · intro b' member
    rcases (mem_list b').mp member with old | rfl
    · exact logged.home b' old
    · exact home
  · rcases list with ⟨_, rfl⟩ | ⟨fresh, rfl⟩
    · exact nodup
    · refine List.nodup_append.mpr ⟨nodup, List.nodup_singleton b, ?_⟩
      rintro b' old _ single rfl
      exact fresh (List.mem_singleton.mp single ▸ old)
  · intro b' member
    by_cases this : b' = b
    · rw [this, Function.update_self, Function.update_self]
    · rw [Function.update_of_ne this, Function.update_of_ne this]
      exact same b' (((mem_list b').mp member).resolve_right this)
  · intro b' missing
    rw [mem_list, not_or] at missing
    rw [Function.update_of_ne missing.2, rest b' missing.1]

theorem commit (logged : Logged sb .outside lh disk mem base view) : Logged sb (.write 0) lh disk mem base view :=
  { logged with holds := ⟨logged.holds, by simp⟩ }

/-! ## The commit -/

theorem nothing (logged : Logged sb (.write tail) [] disk mem base view) :
    Logged sb (.finish false) [] disk mem base view :=
  { logged with holds := ⟨funext fun b => logged.holds.1.rest b (by simp), rfl, logged.holds.1.empty⟩ }

theorem written (logged : Logged sb (.write tail) lh disk mem base view) (done : lh.length ≤ tail) :
    Logged sb .head lh disk mem base view := by
  refine { logged with holds := ⟨logged.holds.1, fun i b entry => logged.holds.2 i ?_ b entry⟩ }
  exact (List.getElem?_eq_some_iff.mp entry).1.trans_le done

theorem write_block (logged : Logged sb (.write k) lh disk mem base view) (entry : lh[k]? = some b)
    (copy : d = mem b) :
    Logged sb (.write (k + 1)) lh (Function.update disk (sb.logBlock k) d) (Function.update mem (sb.logBlock k) d)
      base view := by
  obtain ⟨gathered, copied⟩ := logged.holds
  have room : ∀ {i b}, lh[i]? = some b → i < sb.layout.capacity := sb.layout.lt_capacity logged.room
  refine ⟨logged.durable.write_slot gathered.empty (room entry), logged.home, logged.room, ?_, ?_⟩
  · refine { gathered with empty := ?_, logged := ?_ }
    · rw [← gathered.empty]
      exact Redo.Layout.logged_of_ne (sb.layout.slot_ne_head k (room entry))
    · intro b' member
      rw [Function.update_of_ne (sb.ne_logBlock (logged.home b' member) (room entry))]
      exact gathered.logged b' member
  · intro i before b' there
    rcases Nat.lt_succ_iff_lt_or_eq.mp before with earlier | rfl
    · rw [Function.update_of_ne (sb.logBlock_ne (room there) (room entry) (Nat.ne_of_lt earlier))]
      exact copied i earlier b' there
    · obtain rfl : b = b' := Option.some.inj (entry.symm.trans there)
      rw [Function.update_self, copy]
      exact gathered.logged b (List.mem_of_getElem? entry)

theorem write_head (logged : Logged sb .head lh disk mem base view) (head : readHead d = lh) (mem' : BlockNo → Block) :
    Logged sb (.install false 0) lh (Function.update disk sb.logstart d) mem' view view := by
  obtain ⟨gathered, copied⟩ := logged.holds
  have entries : sb.layout.entries d = lh := head
  refine ⟨?_, logged.home, logged.room, rfl, ?_, fun _ => gathered.nodup, by simp⟩
  · refine logged.durable.commit gathered.empty ?_ ?_ ?_ ?_
    · rw [entries]
      exact logged.room
    · rw [entries]
      exact logged.home
    · rw [entries]
      exact copied
    · rw [entries]
      exact fun b _ => gathered.rest b
  · exact Redo.Layout.logged_head.trans entries

theorem install_disk (logged : Logged sb (.install recovering k) lh disk mem base view)
    (entry : lh[k]? = some b) (copy : d = disk (sb.logBlock k)) :
    sb.layout.Durable (Function.update disk b d) base ∧ sb.layout.logged (Function.update disk b d) = lh ∧
      ∀ i < k + 1, ∀ b', lh[i]? = some b' → Function.update disk b d b' = base b' := by
  obtain ⟨_, same, _, installed⟩ := logged.holds
  have member : b ∈ sb.layout.logged disk := same ▸ List.mem_of_getElem? entry
  have value : d = base b := copy.trans (logged.durable.copied k b (same ▸ entry))
  refine ⟨logged.durable.install member, ?_, ?_⟩
  · rw [← same]
    exact Redo.Layout.logged_of_ne (Redo.Layout.ne_head (logged.durable.outside b member))
  · intro i before b' there
    by_cases this : b' = b
    · rw [this, Function.update_self, value]
    · rw [Function.update_of_ne this]
      refine installed i (Nat.lt_of_le_of_ne (Nat.lt_succ_iff.mp before) ?_) b' there
      rintro rfl
      exact this (Option.some.inj (there.symm.trans entry))

theorem recover_block (logged : Logged sb (.install true k) lh disk mem base view) (entry : lh[k]? = some b)
    (copy : d = disk (sb.logBlock k)) (mem' : BlockNo → Block) :
    Logged sb (.install true (k + 1)) lh (Function.update disk b d) mem' base view := by
  obtain ⟨durable, same, installed⟩ := logged.install_disk entry copy
  exact ⟨durable, logged.home, logged.room, logged.holds.1, same, by simp, installed⟩

theorem install_block (logged : Logged sb (.install false k) lh disk mem base view) (entry : lh[k]? = some b)
    (copy : d = disk (sb.logBlock k)) :
    Logged sb (.unpin k) lh (Function.update disk b d) (Function.update mem b d) base view := by
  obtain ⟨durable, same, installed⟩ := logged.install_disk entry copy
  refine ⟨durable, logged.home, logged.room, logged.holds.1, same, logged.holds.2.2.1 rfl, ?_, installed⟩
  intro b' there
  obtain rfl : b = b' := Option.some.inj (entry.symm.trans there)
  rw [Function.update_self, Function.update_self]

theorem unpin (logged : Logged sb (.unpin k) lh disk mem base view) :
    Logged sb (.install false (k + 1)) lh disk mem base view := by
  obtain ⟨same, list, nodup, _, installed⟩ := logged.holds
  exact { logged with holds := ⟨same, list, fun _ => nodup, installed⟩ }

theorem installed (logged : Logged sb (.install recovering k) lh disk mem base view)
    (done : lh.length ≤ k) : Logged sb (.erase recovering) [] disk mem base view := by
  obtain ⟨same, list, _, installed⟩ := logged.holds
  refine ⟨logged.durable, by simp, by simp, same, rfl, fun b home => logged.durable.installed ?_ home⟩
  intro i b entry
  rw [list] at entry
  exact installed i ((List.getElem?_eq_some_iff.mp entry).1.trans_le done) b entry

theorem erase_head (logged : Logged sb (.erase recovering) lh disk mem base view)
    (head : readHead d = []) (mem' : BlockNo → Block) :
    Logged sb (.finish recovering) lh (Function.update disk sb.logstart d) mem' base view := by
  obtain ⟨same, nothing, installed⟩ := logged.holds
  refine ⟨Redo.Layout.Durable.erase installed head, logged.home, logged.room, same, nothing, ?_⟩
  exact Redo.Layout.logged_head.trans head

theorem finish (logged : Logged sb (.finish recovering) lh disk mem base view) :
    Logged sb .outside lh disk mem base view := by
  obtain ⟨same, rfl, empty⟩ := logged.holds
  exact { logged with holds := ⟨empty, List.nodup_nil, by simp, fun b _ => by rw [same]⟩ }

/-! ## The recovery -/

theorem boot (durable : sb.layout.Durable disk base) (mem : BlockNo → Block) :
    Logged sb .boot [] disk mem base base :=
  ⟨durable, by simp, by simp, rfl, rfl⟩

theorem read_head (logged : Logged sb .boot lh disk mem base view) :
    Logged sb (.install true 0) (readHead (disk sb.logstart)) disk mem base view :=
  ⟨logged.durable, logged.durable.outside, logged.durable.room, logged.holds.1, rfl, by simp, by simp⟩

end Logged

end OsProjects.Logging

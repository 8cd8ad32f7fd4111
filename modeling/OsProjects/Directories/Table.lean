import OsProjects.Directories.Entries

namespace OsProjects.Directories
open Hoare Volume
open Inodes (Dinode Entry Kind)

/-! ## Inodes as nodes of a tree -/

/-- What the directory tree depends on in an inode: `dirents` are empty unless it is a directory. -/
structure Node where
  type : BitVec 16
  nlink : BitVec 16
  dirents : List Dirent

def Node.free : Node := ⟨0, 0, []⟩

def node (sb : Superblock) (disk : Disk) (k : ℕ) : Node :=
  if k < sb.ninodes.toNat then
    ⟨(disk.dinode k).type, (disk.dinode k).nlink,
      if (disk.dinode k).type = Kind.dir.type then dirents disk (disk.dinode k) else []⟩
  else .free

/-- A disk in order and a table that agrees with it, when the running call has a reference for every element of `l` and
there are those of `base` besides. -/
structure Held (sb : Superblock) (base : Entry → ℕ) (l : List Entry) (s : Fs) : Prop where
  blocks : Blocks sb s.disk
  unique : ∀ e e', 0 < (s.table e).ref → 0 < (s.table e').ref → (s.table e).inum = (s.table e').inum → e = e'
  known : ∀ e, 0 < (s.table e).ref → (s.table e).inum < sb.ninodes.toNat
  synced : ∀ e, 0 < (s.table e).ref → (s.table e).valid = true →
    (s.disk.dinode (s.table e).inum).type ≠ 0 ∧ (s.table e).d = s.disk.dinode (s.table e).inum
  refs : ∀ e, (s.table e).ref = base e + l.count e
  inRange : ∀ k, ∀ de ∈ (node sb s.disk k).dirents, de.inum.toNat < sb.ninodes.toNat

def Keeps (base : Entry → ℕ) (l : List Entry) (s s' : Fs) : Prop :=
  ∀ e, 0 < base e + l.count e → (s'.table e).inum = (s.table e).inum ∧ ((s.table e).valid = true → (s'.table e).valid = true)

variable {sb : Superblock} {base : Entry → ℕ} {l l' : List Entry} {s s' s'' : Fs} {e dp : Entry} {E : Panic → Prop}
  {disk disk' : Disk} {k : ℕ}

theorem Keeps.refl : Keeps base l s s := fun _ _ => ⟨rfl, id⟩

theorem Keeps.trans (first : Keeps base l s s') (second : Keeps base l s' s'') : Keeps base l s s'' := fun e used =>
  ⟨(second e used).1.trans (first e used).1, (second e used).2 ∘ (first e used).2⟩

theorem Keeps.of_cons {a : Entry} (keeps : Keeps base (a :: l) s s') : Keeps base l s s' := fun e used =>
  keeps e (by have more := List.count_le_count_cons (a := e) (b := a) (l := l); omega)

theorem node_of_lt (less : k < sb.ninodes.toNat) : node sb disk k =
    ⟨(disk.dinode k).type, (disk.dinode k).nlink,
      if (disk.dinode k).type = Kind.dir.type then dirents disk (disk.dinode k) else []⟩ := if_pos less

theorem node_congr (same : disk'.dinode k = disk.dinode k)
    (bytes : k < sb.ninodes.toNat → (disk.dinode k).type = Kind.dir.type → ∀ i, i < (disk.dinode k).size.toNat →
      byteAt disk' (disk'.dinode k) i = byteAt disk (disk.dinode k) i) : node sb disk' k = node sb disk k := by
  unfold node
  split
  · rename_i less
    rw [same]
    split
    · rename_i dir
      rw [dirents_congr rfl fun i below => same ▸ bytes less dir i below]
    · rfl
  · rfl

namespace Held

theorem ref_pos (held : Held sb base l s) (mem : e ∈ l) : 0 < (s.table e).ref := by
  rw [held.refs]
  have one := List.count_pos_iff.mpr mem
  omega

theorem perm (held : Held sb base l s) (perm : l.Perm l') : Held sb base l' s :=
  ⟨held.blocks, held.unique, held.known, held.synced, fun e => by rw [held.refs, perm.count_eq], held.inRange⟩

theorem swap {a b : Entry} (held : Held sb base (a :: b :: l) s) : Held sb base (b :: a :: l) s := held.perm (.swap b a l)

theorem open_eq (held : Held sb base l s) (mem : e ∈ l) (valid : (s.table e).valid = true) :
    s.open e = ⟨s.disk, s.disk.dinode (s.table e).inum⟩ := by
  rw [Fs.open, (held.synced e (held.ref_pos mem) valid).2]

theorem live (held : Held sb base l s) (mem : e ∈ l) (valid : (s.table e).valid = true) : Live sb s.disk (s.table e).inum :=
  ⟨held.known e (held.ref_pos mem), (held.synced e (held.ref_pos mem) valid).1⟩

end Held

/-! ## References -/

theorem Held.set (held : Held sb base l s) {inode : Inode} (refs : ∀ e', ((s.set e inode).table e').ref = base e' + l'.count e')
    (known : 0 < inode.ref → inode.inum < sb.ninodes.toNat)
    (unique : 0 < inode.ref → ∀ e', e' ≠ e → 0 < (s.table e').ref → (s.table e').inum ≠ inode.inum)
    (synced : 0 < inode.ref → inode.valid = true → (s.disk.dinode inode.inum).type ≠ 0 ∧ inode.d = s.disk.dinode inode.inum) :
    Held sb base l' (s.set e inode) := by
  have here : (s.set e inode).table e = inode := Function.update_self _ _ _
  have others : ∀ e', e' ≠ e → (s.set e inode).table e' = s.table e' := fun e' other => Function.update_of_ne other _ _
  refine ⟨held.blocks, fun e₁ e₂ used₁ used₂ same => ?_, fun e' used => ?_, fun e' used valid => ?_, refs, held.inRange⟩
  · by_cases this₁ : e₁ = e
    · by_cases this₂ : e₂ = e
      · rw [this₁, this₂]
      · subst this₁
        rw [here] at used₁ same
        rw [others e₂ this₂] at used₂ same
        exact absurd same.symm (unique used₁ e₂ this₂ used₂)
    · rw [others e₁ this₁] at used₁ same
      by_cases this₂ : e₂ = e
      · subst this₂
        rw [here] at used₂ same
        exact absurd same (unique used₂ e₁ this₁ used₁)
      · rw [others e₂ this₂] at used₂ same
        exact held.unique e₁ e₂ used₁ used₂ same
  · by_cases this : e' = e
    · subst this
      rw [here] at used ⊢
      exact known used
    · rw [others e' this] at used ⊢
      exact held.known e' used
  · by_cases this : e' = e
    · subst this
      rw [here] at used valid ⊢
      exact synced used valid
    · rw [others e' this] at used valid ⊢
      exact held.synced e' used valid

theorem Held.count (held : Held sb base l s) {ref : ℕ} (here : ref = base e + l'.count e)
    (others : ∀ e', e' ≠ e → l'.count e' = l.count e') (used : 0 < ref → 0 < (s.table e).ref) :
    Held sb base l' (s.set e { s.table e with ref := ref }) := by
  refine held.set (fun e' => ?_) (fun more => held.known e (used more)) (fun more e' other pos => ?_)
    fun more valid => held.synced e (used more) valid
  · by_cases this : e' = e
    · subst this
      simpa [Fs.set] using here
    · simp only [Fs.set, Function.update_of_ne this]
      rw [held.refs, others e' this]
  · intro same
    exact other (held.unique e' e pos (used more) same)

theorem iget_spec (held : Held sb base l s) {inum : ℕ} (less : inum < sb.ninodes.toNat)
    (full : (∀ e, 0 < base e + l.count e ∧ (s.table e).inum ≠ inum) → E .igetNoInodes) :
    wp E (iget inum) (fun e s' => s'.disk = s.disk ∧ Held sb base (e :: l) s' ∧ Keeps base l s s' ∧ (s'.table e).inum = inum) s := by
  simp only [iget, wp_bind, wp_get]
  cases found : (List.finRange Inodes.NINODE).find? fun ip => decide (0 < (s.table ip).ref ∧ (s.table ip).inum = inum) with
  | some ip =>
    obtain ⟨used, same⟩ : 0 < (s.table ip).ref ∧ (s.table ip).inum = inum := by simpa using List.find?_some found
    refine ⟨rfl, held.count ?_ (fun e' other => ?_) fun _ => used, fun e' _ => ?_, ?_⟩
    · rw [held.refs, List.count_cons_self, Nat.add_assoc]
    · rw [List.count_cons_of_ne (Ne.symm other)]
    · by_cases this : e' = ip
      · subst this
        simp [Fs.set]
      · simp [Fs.set, Function.update_of_ne this]
    · simpa [Fs.set] using same
  | none =>
    have missing : ∀ e', 0 < (s.table e').ref → (s.table e').inum ≠ inum := by
      intro e' used same
      simpa [used, same] using List.find?_eq_none.mp found e' (List.mem_finRange e')
    cases empty : (List.finRange Inodes.NINODE).find? fun ip => decide ((s.table ip).ref = 0) with
    | none =>
      refine full fun e => ?_
      have used : 0 < (s.table e).ref := by
        simpa [Nat.pos_iff_ne_zero] using List.find?_eq_none.mp empty e (List.mem_finRange e)
      exact ⟨held.refs e ▸ used, missing e used⟩
    | some ip =>
      have unused : (s.table ip).ref = 0 := by simpa using List.find?_some empty
      have none := held.refs ip
      refine ⟨rfl, held.set (fun e' => ?_) (fun _ => less) (fun _ e' _ used => missing e' used) (fun _ valid => ?_), fun e' used => ?_, ?_⟩
      · by_cases this : e' = ip
        · subst this
          simp only [Fs.set, Function.update_self, List.count_cons_self]
          omega
        · simp only [Fs.set, Function.update_of_ne this, List.count_cons_of_ne (Ne.symm this)]
          exact held.refs e'
      · cases valid
      · have this : e' ≠ ip := by
          rintro rfl
          omega
        simp [Fs.set, Function.update_of_ne this]
      · simp [Fs.set]

theorem idup_spec (held : Held sb base l s) (used : 0 < (s.table e).ref) :
    wp E (idup e) (fun e' s' => e' = e ∧ s'.disk = s.disk ∧ Held sb base (e :: l) s' ∧ Keeps base l s s' ∧
      (s'.table e).inum = (s.table e).inum) s := by
  simp only [idup, wp_bind, wp_get]
  refine ⟨rfl, rfl, held.count ?_ (fun e' other => ?_) fun _ => used, fun e' _ => ?_, ?_⟩
  · rw [held.refs, List.count_cons_self, Nat.add_assoc]
  · rw [List.count_cons_of_ne (Ne.symm other)]
  · by_cases this : e' = e
    · subst this
      simp [Fs.set]
    · simp [Fs.set, Function.update_of_ne this]
  · simp [Fs.set]

theorem ilock_spec (held : Held sb base l s) (mem : e ∈ l) (free : (s.disk.dinode (s.table e).inum).type = 0 → E .ilockNoType) :
    wp E (ilock sb e) (fun _ s' => s'.disk = s.disk ∧ Held sb base l s' ∧ Keeps base l s s' ∧ (s'.table e).valid = true ∧
      (s'.table e).inum = (s.table e).inum) s := by
  have used := held.ref_pos mem
  simp only [ilock, wp_bind, wp_get, wp_ite]
  refine ⟨fun less => by omega, fun _ => ⟨fun valid => ⟨rfl, held, .refl, valid, rfl⟩, fun invalid => ⟨fun beyond => ?_, fun _ => ?_⟩⟩⟩
  · have known := held.known e used
    omega
  · refine ⟨free, fun type => ⟨rfl, held.set (fun e' => ?_) (fun _ => held.known e used) (fun _ e' other pos same => ?_)
      fun _ _ => ⟨type, rfl⟩, fun e' _ => ?_, ?_, ?_⟩⟩
    · by_cases this : e' = e
      · subst this
        simpa [Fs.set] using held.refs e'
      · simpa [Fs.set, Function.update_of_ne this] using held.refs e'
    · exact other (held.unique e' e pos used same)
    · by_cases this : e' = e
      · subst this
        simp [Fs.set]
      · simp [Fs.set, Function.update_of_ne this]
    · simp [Fs.set]
    · simp [Fs.set]

/-! ## Changes of an inode -/

theorem node_eq_update {n : Node} (here : node sb disk' k = n)
    (others : ∀ k', k' ≠ k → node sb disk' k' = node sb disk k') : node sb disk' = Function.update (node sb disk) k n := by
  funext k'
  by_cases this : k' = k
  · rw [this, Function.update_self, here]
  · rw [Function.update_of_ne this, others k' this]

theorem node_of_block (block : disk'.block = disk.block) (same : disk'.dinode k = disk.dinode k) :
    node sb disk' k = node sb disk k := by
  refine node_congr same fun _ _ i _ => ?_
  have looks : lookup disk' (disk'.dinode k) = lookup disk (disk.dinode k) := lookup_congr (by rw [same]) fun _ => by rw [block]
  rw [byteAt, byteAt, looks, block]

theorem freeInode_spec {t : Volume.State} (mapped : Mapped sb t.disk t.ip) (inum : ℕ) :
    wp E (freeInode inum) (fun _ t' => (∀ b, t'.disk.used b = true ↔ t.disk.used b = true ∧ ∀ p, t.look p ≠ 0 → t.look p ≠ b) ∧
      t'.disk.block = t.disk.block ∧ t'.ip = { t.ip with type := 0, size := 0, addrs := fun _ => 0 } ∧
      t'.disk.dinode = Function.update t.disk.dinode inum t'.ip) t := by
  simp only [freeInode, wp_bind]
  refine (itrunc_spec mapped inum).mono ?_
  rintro _ t' ⟨used, block, ip, dinode⟩
  refine ⟨used, block, ?_, ?_⟩
  · change { t'.ip with type := 0 } = _
    rw [ip]
  · change Function.update t'.disk.dinode inum _ = _
    rw [dinode, Function.update_idem]

theorem iput_spec (held : Held sb base (e :: l) s) :
    wp E (iput e) (fun _ s' => Held sb base l s' ∧ Keeps base l s s' ∧ (s'.disk = s.disk ∨
      base e + l.count e = 0 ∧ (s.table e).valid = true ∧ (s.disk.dinode (s.table e).inum).nlink = 0 ∧
        node sb s'.disk = Function.update (node sb s.disk) (s.table e).inum .free)) s := by
  have count := held.refs e
  rw [List.count_cons_self] at count
  simp only [iput, putLast, wp_bind, wp_get, wp_ite]
  refine ⟨?_, fun _ => ?_⟩
  · rintro ⟨last, valid, nlink⟩
    have mem : e ∈ e :: l := List.mem_cons_self
    have live := held.live mem valid
    have opened := held.open_eq mem valid
    have synced := (held.synced e (held.ref_pos mem) valid).2
    rw [synced] at nlink
    have mapped := held.blocks.mapped _ live
    rw [wp_onInode, opened]
    refine (freeInode_spec (t := ⟨s.disk, s.disk.dinode (s.table e).inum⟩) mapped _).mono ?_
    rintro _ t ⟨used, block, ip, dinode⟩
    generalize number : (s.table e).inum = k at *
    have record : t.disk.dinode k = t.ip := by rw [dinode, Function.update_self]
    have rest : ∀ k', k' ≠ k → t.disk.dinode k' = s.disk.dinode k' := fun k' other => by rw [dinode, Function.update_of_ne other]
    have nodes : node sb t.disk = Function.update (node sb s.disk) k .free := by
      refine node_eq_update ?_ fun k' other => node_of_block block (rest k' other)
      rw [node_of_lt live.1, record, ip]
      simp only [nlink]
      rfl
    have blocks : Blocks sb t.disk :=
      held.blocks.truncate live used block rest (by rw [record, ip]) (by simp [record, ip])
    -- The entry is not in use any more, and no other one is for this inode.
    suffices final : ∀ s', s'.disk = t.disk → (∀ e', e' ≠ e → s'.table e' = s.table e') → (s'.table e).ref = 0 →
        Held sb base l s' ∧ Keeps base l s s' by
      have done := final (((s.close e t).set e { (s.close e t).table e with valid := false }).set e
        { ((s.close e t).set e { (s.close e t).table e with valid := false }).table e with
          ref := (((s.close e t).set e { (s.close e t).table e with valid := false }).table e).ref - 1 })
        rfl (fun e' other => by simp [Fs.close, Fs.set, other]) (by simp [Fs.close, Fs.set, last])
      exact ⟨done.1, done.2, .inr ⟨by omega, valid, nlink, nodes⟩⟩
    intro s' disk others unused
    have apart : ∀ e', 0 < (s'.table e').ref → e' ≠ e := by
      rintro e' pos rfl
      omega
    refine ⟨⟨disk ▸ blocks, fun e₁ e₂ used₁ used₂ => ?_, fun e' pos => ?_, fun e' pos valid' => ?_, fun e' => ?_, fun k' de mem' => ?_⟩,
      fun e' pos => ?_⟩
    · rw [others e₁ (apart e₁ used₁), others e₂ (apart e₂ used₂)] at *
      exact held.unique e₁ e₂ used₁ used₂
    · rw [others e' (apart e' pos)] at *
      exact held.known e' pos
    · have other := apart e' pos
      rw [others e' other] at pos valid' ⊢
      have different : (s.table e').inum ≠ k := by
        intro same
        exact other (held.unique e' e pos (held.ref_pos mem) (same.trans number.symm))
      rw [disk, rest _ different]
      exact held.synced e' pos valid'
    · by_cases this : e' = e
      · subst this
        omega
      · have refs := held.refs e'
        rw [List.count_cons_of_ne (Ne.symm this)] at refs
        rw [others e' this, refs]
    · rw [disk, nodes] at mem'
      by_cases this : k' = k
      · rw [this, Function.update_self] at mem'
        cases mem'
      · rw [Function.update_of_ne this] at mem'
        exact held.inRange k' de mem'
    · have other : e' ≠ e := by
        rintro rfl
        omega
      rw [others e' other]
      exact ⟨rfl, id⟩
  · refine ⟨held.count (by omega) (fun e' other => ?_) (by omega), fun e' _ => ?_, .inl rfl⟩
    · rw [List.count_cons_of_ne (Ne.symm other)]
    · by_cases this : e' = e
      · subst this
        simp [Fs.set]
      · simp [Fs.set, Function.update_of_ne this]

end OsProjects.Directories

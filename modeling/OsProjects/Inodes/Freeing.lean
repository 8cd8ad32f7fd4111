import OsProjects.Inodes.Held

namespace OsProjects.Inodes
open Transition

variable {Thread : Type} {s s' : State Thread} {made made' : Made Thread} {t u : Thread} {ip jp : Entry}
  {current : Stage} {key : Key} {kind : Kind}

/-! ## What is in the table and on the disk -/

def Fine (s : State Thread) (ip : Entry) : Stage → Prop
  | .sleep | .trunc | .retype => (s.table ip).ref = 1 ∧ (s.table ip).valid = true ∧ (s.table ip).d.type ≠ 0 ∧
      (s.disk (s.table ip).key).nlink = 0
  | .unlock | .again => (s.table ip).ref = 1 ∧ (s.disk (s.table ip).key).type = 0 ∧ (s.disk (s.table ip).key).nlink = 0
  | .drop => (s.table ip).ref = 1 → ¬ (s.disk (s.table ip).key).Orphan
  | _ => True

structure Secret (s : State Thread) (t : Thread) (ip : Entry) (kind : Kind) : Prop where
  mine : 1 ≤ s.refs t ip
  others : ∀ u, u ≠ t → s.refs u ip = 0
  disk : s.disk (s.table ip).key = .fresh kind
  kept : ∀ stage, s.pc t = .on stage ip → ¬ stage.puts

structure Sound (s : State Thread) (made : Made Thread) : Prop where
  unique : ∀ ip jp, 0 < (s.table ip).ref → 0 < (s.table jp).ref → (s.table ip).key = (s.table jp).key → ip = jp
  copy : ∀ ip, 0 < (s.table ip).ref → (s.table ip).valid = true → (s.table ip).d = s.disk (s.table ip).key
  typed : ∀ ip, 0 < (s.table ip).ref → (s.table ip).valid = true → (s.table ip).d.type ≠ 0 ∨ ∃ t, s.pc t = .on .unlock ip
  loaded : ∀ t ip, (s.table ip).lock = some t → (∃ stage, s.pc t = .on stage ip ∧ stage.locked) ∨ (s.table ip).valid = true
  fine : ∀ t stage ip, s.pc t = .on stage ip → Fine s ip stage
  orphan : ∀ key, (s.disk key).Orphan → (∃ ip, 0 < (s.table ip).ref ∧ (s.table ip).key = key) ∨
    ∃ t kind, s.pc t = .iget key (some kind)
  claimed : ∀ t key kind, s.pc t = .iget key (some kind) → s.disk key = .fresh kind ∧
    ∀ ip, 0 < (s.table ip).ref → (s.table ip).key ≠ key
  once : ∀ t u key kind kind', s.pc t = .iget key (some kind) → s.pc u = .iget key (some kind') → t = u
  secret : ∀ t ip kind, made t ip = some kind → Secret s t ip kind

structure Inv [Fintype Thread] (s : State Thread) (made : Made Thread) : Prop where
  held : Held s
  sound : Sound s made

def Pc.claims : Pc → Prop
  | .iget _ (some _) => True
  | _ => False

theorem Fine.congr (fine : Fine s ip current) (entry : s'.table ip = s.table ip)
    (disk : s'.disk (s.table ip).key = s.disk (s.table ip).key) : Fine s' ip current := by
  cases current <;> simp only [Fine, entry, disk] <;> exact fine

theorem Fine.one (fine : Fine s ip current) (busy : current.locked ∧ current ≠ .load ∨ current = .sleep ∨ current = .again) :
    (s.table ip).ref = 1 := by
  cases current <;> simp_all [Fine, Stage.locked]

theorem Fine.of_two (two : (s.table ip).ref ≠ 1) (idle : ¬ ((current.locked ∧ current ≠ .load) ∨ current = .sleep ∨ current = .again)) :
    Fine s ip current := by
  cases current <;> simp_all [Fine, Stage.locked]

variable [Fintype Thread]

/-- What a step of `t` leaves alone, and what is to be shown of the entries that it touches. -/
structure Settles (s : State Thread) (made : Made Thread) (s' : State Thread) (made' : Made Thread) (t : Thread)
    (touched : Entry → Prop) : Prop where
  others : ∀ u, u ≠ t → s'.pc u = s.pc u
  table : ∀ ip, ¬ touched ip → s'.table ip = s.table ip
  refs : ∀ u ip, ¬ touched ip → s'.refs u ip = s.refs u ip
  disk : ∀ ip, ¬ touched ip → 0 < (s.table ip).ref → s'.disk (s.table ip).key = s.disk (s.table ip).key
  made : ∀ u ip kind, ¬ touched ip → made' u ip = some kind → made u ip = some kind
  before : ∀ stage ip, s.pc t = .on stage ip → touched ip
  after : ∀ stage ip, s'.pc t = .on stage ip → touched ip
  unique : ∀ ip jp, touched ip → 0 < (s'.table ip).ref → 0 < (s'.table jp).ref → (s'.table ip).key = (s'.table jp).key → ip = jp
  copy : ∀ ip, touched ip → 0 < (s'.table ip).ref → (s'.table ip).valid = true → (s'.table ip).d = s'.disk (s'.table ip).key
  typed : ∀ ip, touched ip → 0 < (s'.table ip).ref → (s'.table ip).valid = true →
    (s'.table ip).d.type ≠ 0 ∨ ∃ t, s'.pc t = .on .unlock ip
  loaded : ∀ u ip, touched ip → (s'.table ip).lock = some u →
    (∃ stage, s'.pc u = .on stage ip ∧ stage.locked) ∨ (s'.table ip).valid = true
  fine : ∀ u stage ip, touched ip → s'.pc u = .on stage ip → Fine s' ip stage
  orphan : ∀ key, (s'.disk key).Orphan → (∃ ip, 0 < (s'.table ip).ref ∧ (s'.table ip).key = key) ∨
    (∃ t kind, s'.pc t = .iget key (some kind)) ∨
    (s.disk key).Orphan ∧ (∀ ip, touched ip → 0 < (s.table ip).ref → (s.table ip).key ≠ key) ∧ ∀ kind, s.pc t ≠ .iget key (some kind)
  claimed : ∀ key kind, s'.pc t = .iget key (some kind) → s'.disk key = .fresh kind ∧
    (∀ ip, 0 < (s'.table ip).ref → (s'.table ip).key ≠ key) ∧ ∀ u kind', s.pc u ≠ .iget key (some kind')
  unclaimed : ∀ u key kind, u ≠ t → s.pc u = .iget key (some kind) → s'.disk key = s.disk key ∧
    ∀ ip, touched ip → 0 < (s'.table ip).ref → (s'.table ip).key ≠ key
  secret : ∀ u ip kind, touched ip → made' u ip = some kind → Secret s' u ip kind

theorem Settles.sound {touched : Entry → Prop} (step : Settles s made s' made' t touched) (held : Held s) (sound : Sound s made) :
    Sound s' made' := by
  have back {u stage ip} (untouched : ¬ touched ip) (here : s.pc u = .on stage ip) : s'.pc u = .on stage ip := by
    rw [step.others u (by rintro rfl; exact untouched (step.before stage ip here)), here]
  have there {u stage ip} (untouched : ¬ touched ip) (here : s'.pc u = .on stage ip) : s.pc u = .on stage ip := by
    rw [← step.others u (by rintro rfl; exact untouched (step.after stage ip here)), here]
  constructor
  · intro ip jp first second equal
    by_cases mine : touched ip
    · exact step.unique ip jp mine first second equal
    by_cases theirs : touched jp
    · exact (step.unique jp ip theirs second first equal.symm).symm
    rw [step.table ip mine] at first equal
    rw [step.table jp theirs] at second equal
    exact sound.unique ip jp first second equal
  · intro ip positive valid
    by_cases mine : touched ip
    · exact step.copy ip mine positive valid
    rw [step.table ip mine] at positive valid ⊢
    rw [step.disk ip mine positive]
    exact sound.copy ip positive valid
  · intro ip positive valid
    by_cases mine : touched ip
    · exact step.typed ip mine positive valid
    rw [step.table ip mine] at positive valid ⊢
    exact (sound.typed ip positive valid).imp id fun ⟨u, here⟩ => ⟨u, back mine here⟩
  · intro u ip locked
    by_cases mine : touched ip
    · exact step.loaded u ip mine locked
    rw [step.table ip mine] at locked ⊢
    exact (sound.loaded u ip locked).imp (fun ⟨stage, here, has⟩ => ⟨stage, back mine here, has⟩) id
  · intro u stage ip here
    by_cases mine : touched ip
    · exact step.fine u stage ip mine here
    have before := there mine here
    exact (sound.fine u stage ip before).congr (step.table ip mine) (step.disk ip mine (held.ref_pos (held.stage u stage ip before).1))
  · intro key lost
    rcases step.orphan key lost with entry | claim | ⟨before, apart, unclaimed⟩
    · exact .inl entry
    · exact .inr claim
    rcases sound.orphan key before with ⟨ip, positive, equal⟩ | ⟨u, kind, here⟩
    · have mine : ¬ touched ip := fun mine => apart ip mine positive equal
      exact .inl ⟨ip, by rwa [step.table ip mine], by rwa [step.table ip mine]⟩
    · refine .inr ⟨u, kind, ?_⟩
      rw [step.others u (by rintro rfl; exact unclaimed kind here), here]
  · intro u key kind here
    by_cases me : u = t
    · subst me
      obtain ⟨fresh, free, _⟩ := step.claimed key kind here
      exact ⟨fresh, free⟩
    rw [step.others u me] at here
    obtain ⟨taken, free⟩ := sound.claimed u key kind here
    obtain ⟨disk, apart⟩ := step.unclaimed u key kind me here
    refine ⟨disk.trans taken, fun ip positive => ?_⟩
    by_cases mine : touched ip
    · exact apart ip mine positive
    rw [step.table ip mine] at positive ⊢
    exact free ip positive
  · intro u v key kind kind' first second
    by_cases me : u = t
    · subst me
      by_contra other
      rw [step.others v (Ne.symm other)] at second
      exact (step.claimed key kind first).2.2 v kind' second
    rw [step.others u me] at first
    by_cases me' : v = t
    · subst me'
      exact absurd first ((step.claimed key kind' second).2.2 u kind)
    rw [step.others v me'] at second
    exact sound.once u v key kind kind' first second
  · intro u ip kind known
    by_cases mine : touched ip
    · exact step.secret u ip kind mine known
    have old := sound.secret u ip kind (step.made u ip kind mine known)
    refine ⟨by rw [step.refs u ip mine]; exact old.mine, fun v other => by rw [step.refs v ip mine]; exact old.others v other, ?_,
      fun stage here => old.kept stage (there mine here)⟩
    rw [step.table ip mine, step.disk ip mine (held.ref_pos old.mine), old.disk]

theorem Inv.quiet (inv : Inv s made) (held : Held s') (others : ∀ u, u ≠ t → s'.pc u = s.pc u)
    (table : s'.table = s.table) (disk : s'.disk = s.disk) (refs : s'.refs = s.refs)
    (before : ¬ (s.pc t).claims ∧ ∀ stage ip, s.pc t ≠ .on stage ip)
    (after : ¬ (s'.pc t).claims ∧ ∀ stage ip, s'.pc t ≠ .on stage ip) : Inv s' made := by
  have step : Settles s made s' made t fun _ => False :=
    { others := others
      table := fun ip _ => by rw [table]
      refs := fun u ip _ => by rw [refs]
      disk := fun ip _ _ => by rw [disk]
      made := fun _ _ _ _ => id
      before := before.2
      after := after.2
      unique := nofun
      copy := nofun
      typed := nofun
      loaded := nofun
      fine := nofun
      orphan := fun key lost => .inr (.inr ⟨disk ▸ lost, nofun, fun kind here => before.1 (by rw [here]; trivial)⟩)
      claimed := fun key kind here => (after.1 (by rw [here]; trivial)).elim
      unclaimed := fun u key kind _ _ => ⟨by rw [disk], nofun⟩
      secret := nofun }
  exact ⟨held, step.sound inv.held inv.sound⟩

/-! ## Steps -/

/-- The runs in which `iput` cannot lose an inode: `ialloc` takes no number that still has an entry, `iget` is only
called for inodes that have a link, and no `iput` drops the last reference to an inode without links that was never
locked. -/
def Careful (s : State Thread) (label : Thread × Act Thread) : Prop :=
  match label.2, s.pc label.1 with
  | .go, .ialloc dev _ inum => (s.disk (dev, inum)).type = 0 → ∀ ip, 0 < (s.table ip).ref → (s.table ip).key ≠ (dev, inum)
  | .go, .iget key none => (s.disk key).nlink ≠ 0
  | .go, .on .test ip => (s.table ip).ref = 1 → (s.table ip).valid = false → ¬ (s.disk (s.table ip).key).Orphan
  | _, _ => True

def Made.claim [DecidableEq Thread] (made : Made Thread) (t : Thread) (ip : Entry) : Option Kind → Made Thread
  | none => made
  | some kind => made.set t ip (some kind)

namespace Inv

variable [DecidableEq Thread]

theorem fresh_orphan (kind : Kind) : (Dinode.fresh kind).type ≠ 0 ∧ (Dinode.fresh kind).nlink = 0 := by
  cases kind <;> decide

theorem claim (inv : Inv s made) {dev inum : ℕ} (here : s.pc t = .ialloc dev kind inum) (free : (s.disk (dev, inum)).type = 0)
    (careful : ∀ ip, 0 < (s.table ip).ref → (s.table ip).key ≠ (dev, inum)) :
    Inv ((s.write (dev, inum) (.fresh kind)).at t (.iget (dev, inum) (some kind))) made := by
  generalize next : (s.write (dev, inum) (.fresh kind)).at t (.iget (dev, inum) (some kind)) = s'
  have mine : s'.pc t = .iget (dev, inum) (some kind) := by simp [← next, State.at]
  have others : ∀ u, u ≠ t → s'.pc u = s.pc u := fun u other => by simp [← next, State.at, State.write, other]
  have table : s'.table = s.table := by rw [← next]; rfl
  have refs : s'.refs = s.refs := by rw [← next]; rfl
  have lock : s'.lock = s.lock := by rw [← next]; rfl
  have written : s'.disk (dev, inum) = .fresh kind := by simp [← next, State.at, State.write]
  have disk : ∀ key, key ≠ (dev, inum) → s'.disk key = s.disk key := fun key other => by
    simp [← next, State.at, State.write, other]
  have unclaimed : ∀ u kind', s.pc u ≠ .iget (dev, inum) (some kind') := by
    intro u kind' there
    rw [(inv.sound.claimed u _ kind' there).1] at free
    exact (fresh_orphan kind').1 free
  constructor
  · refine inv.held.keep others (.inr (.inr ⟨by rw [mine]; exact id, lock, by rw [here]; exact id⟩)) refs (fun _ => by rw [table])
      (fun _ _ _ => by rw [table]) (fun ip => by rw [table]; exact inv.held.owner t ip) fun stage ip there => ?_
    cases mine.symm.trans there
  have step : Settles s made s' made t fun _ => False :=
    { others := others
      table := fun ip _ => by rw [table]
      refs := fun u ip _ => by rw [refs]
      disk := fun ip _ positive => disk _ (careful ip positive)
      made := fun _ _ _ _ => id
      before := by simp [here]
      after := by simp [mine]
      unique := nofun
      copy := nofun
      typed := nofun
      loaded := nofun
      fine := nofun
      orphan := fun key lost => by
        by_cases same : key = (dev, inum)
        · exact .inr (.inl ⟨t, kind, by rw [same]; exact mine⟩)
        · exact .inr (.inr ⟨by rwa [disk key same] at lost, nofun, by simp [here]⟩)
      claimed := fun key kind' there => by
        obtain ⟨rfl, rfl⟩ : (dev, inum) = key ∧ kind = kind' := by simpa using mine.symm.trans there
        exact ⟨written, table ▸ careful, unclaimed⟩
      unclaimed := fun u key kind' _ there => ⟨disk key (by rintro rfl; exact unclaimed u kind' there), nofun⟩
      secret := nofun }
  exact step.sound inv.held inv.sound

theorem count (inv : Inv s made) (held : Held s') {ref : ℕ}
    (entry : s'.table = Function.update s.table ip { s.table ip with ref := ref }) (positive : 0 < (s.table ip).ref)
    (others : ∀ u, u ≠ t → s'.pc u = s.pc u ∧ s'.refs u = s.refs u) (mine : ∀ jp, jp ≠ ip → s'.refs t jp = s.refs t jp)
    (disk : s'.disk = s.disk) (before : ¬ (s.pc t).claims ∧ ∀ stage jp, s.pc t = .on stage jp → jp = ip ∧ ¬ stage.locked)
    (after : s'.pc t = .idle) (gone : ref = 0 → ¬ (s.disk (s.table ip).key).Orphan)
    (calm : ∀ u stage, u ≠ t → s.pc u = .on stage ip → Fine s' ip stage) (unmade : ∀ u, u ≠ t → made u ip = none)
    (kept : ∀ kind, made t ip = some kind → 1 ≤ s'.refs t ip) : Inv s' made := by
  have sound := inv.sound
  have here : s'.table ip = { s.table ip with ref := ref } := by rw [entry, Function.update_self]
  have entries : ∀ jp, jp ≠ ip → s'.table jp = s.table jp := fun jp other => by rw [entry, Function.update_of_ne other]
  have stays : ∀ u stage, s.pc u = .on stage ip → stage.locked → s'.pc u = .on stage ip := by
    intro u stage there has
    rw [(others u (by rintro rfl; exact (before.2 stage ip there).2 has)).1, there]
  refine ⟨held, Settles.sound (t := t) ⟨fun u other => (others u other).1, entries, fun u jp other => ?_, fun _ _ _ => by rw [disk],
    fun _ _ _ _ => id, fun stage jp there => (before.2 stage jp there).1, by simp [after], ?_, ?_, ?_, ?_, ?_, ?_, by simp [after], ?_, ?_⟩
    inv.held sound⟩
  · by_cases me : u = t
    · rw [me, mine jp other]
    · rw [(others u me).2]
  · rintro _ jp rfl _ second equal
    by_contra other
    rw [entries jp (Ne.symm other)] at second equal
    rw [here] at equal
    exact other (sound.unique _ jp positive second equal)
  · rintro _ rfl _ valid
    rw [here] at valid ⊢
    rw [disk]
    exact sound.copy _ positive valid
  · rintro _ rfl _ valid
    rw [here] at valid ⊢
    exact (sound.typed _ positive valid).imp id fun ⟨u, there⟩ => ⟨u, stays u _ there trivial⟩
  · rintro u _ rfl locked
    rw [here] at locked ⊢
    exact (sound.loaded u _ locked).imp (fun ⟨stage, there, has⟩ => ⟨stage, stays u stage there has, has⟩) id
  · rintro u stage _ rfl there
    have other : u ≠ t := by
      rintro rfl
      cases after.symm.trans there
    exact calm u stage other (by rwa [← (others u other).1])
  · intro key lost
    rw [disk] at lost
    by_cases same : (s.table ip).key = key
    · refine .inl ⟨ip, ?_, by rw [here]; exact same⟩
      rw [here]
      exact Nat.pos_of_ne_zero fun zero => gone zero (by rwa [same])
    · refine .inr (.inr ⟨lost, ?_, fun kind there => before.1 (by rw [there]; trivial)⟩)
      rintro _ rfl _
      exact same
  · intro u key kind _ there
    refine ⟨by rw [disk], ?_⟩
    rintro _ rfl _
    rw [here]
    exact (sound.claimed u key kind there).2 _ positive
  · rintro u _ kind rfl known
    have old := sound.secret u _ kind known
    obtain rfl : u = t := by
      by_contra other
      rw [unmade u other] at known
      cases known
    refine ⟨kept kind known, fun v other => by rw [(others v other).2]; exact old.others v other, by rw [here, disk]; exact old.disk, ?_⟩
    simp [after]

theorem calm (inv : Inv s made) (mine : 1 ≤ s.refs t ip) (other : u ≠ t) (there : s.pc u = .on current ip) :
    ¬ (current.locked ∧ current ≠ .load ∨ current = .sleep ∨ current = .again) := fun busy =>
  other (inv.held.only ((inv.sound.fine u current ip there).one busy) mine (inv.held.stage u current ip there).1)

omit [Fintype Thread] [DecidableEq Thread] in
theorem fine_of_calm (calm : ¬ (current.locked ∧ current ≠ .load ∨ current = .sleep ∨ current = .again)) (notLast : current ≠ .drop) :
    Fine s ip current := by
  cases current <;> simp_all [Fine, Stage.locked]

omit [DecidableEq Thread] in
theorem unmade (inv : Inv s made) (mine : 1 ≤ s.refs t ip) (other : u ≠ t) : made u ip = none := by
  cases known : made u ip with
  | none => rfl
  | some kind =>
    have none := (inv.sound.secret u ip kind known).others t (Ne.symm other)
    omega

theorem drop (inv : Inv s made) (here : s.pc t = .on .drop ip) :
    Inv ({ (s.set ip { s.table ip with ref := (s.table ip).ref - 1 }).setRefs t ip (s.refs t ip - 1) with lock := none }.at t .idle)
      made := by
  have locked : s.lock = some t := (inv.held.lock t).mpr (by rw [here]; trivial)
  obtain ⟨mine, unlocked⟩ := inv.held.stage t _ ip here
  have positive := inv.held.ref_pos mine
  refine inv.count (t := t) ?_ rfl positive ?_ ?_ rfl ?_ ?_ ?_ ?_ ?_ ?_
  · refine inv.held.recount (t := t) rfl (fun jp other => ?_) ?_ ?_ (fun has => absurd (unlocked.mp has) id)
      (fun u other => ?_) ?_ (.inl ⟨rfl, locked⟩)
    · simp [State.at, State.set, State.setRefs, other]
    · simp only [State.at, State.set, State.setRefs, Function.update_self]
      omega
    · simp [State.at, State.set, State.setRefs]
    · simp [State.at, State.set, State.setRefs, other]
    · simp [State.at]
  · intro u other
    simp [State.at, State.set, State.setRefs, other]
  · intro jp other
    simp [State.at, State.set, State.setRefs, other]
  · rw [here]
    refine ⟨id, fun stage jp there => ?_⟩
    obtain ⟨rfl, rfl⟩ : Stage.drop = stage ∧ ip = jp := by simpa using there
    exact ⟨rfl, id⟩
  · simp [State.at]
  · intro zero
    exact inv.sound.fine t _ ip here (by omega)
  · intro u stage other there
    refine fine_of_calm (inv.calm mine other there) ?_
    rintro rfl
    exact other (inv.held.alone (by rw [there]; trivial) (by rw [here]; trivial))
  · exact fun u => inv.unmade mine
  · intro kind known
    exact absurd ⟨by decide, by decide⟩ ((inv.sound.secret t ip kind known).kept .drop here)

theorem idup (inv : Inv s made) (idle : s.pc t = .idle) (mine : 0 < s.refs t ip) (free : s.lock = none) :
    Inv ((s.set ip { s.table ip with ref := (s.table ip).ref + 1 }).setRefs t ip (s.refs t ip + 1)) made := by
  refine inv.count (t := t) ?_ rfl (inv.held.ref_pos mine) ?_ ?_ rfl ?_ idle ?_ ?_ (fun u => inv.unmade mine) ?_
  · refine inv.held.recount (t := t) rfl (fun jp other => ?_) ?_ ?_ (fun _ => by omega) (fun u other => rfl) idle
      (.inr ⟨rfl, inv.held.unheld free t⟩)
    · simp [State.set, State.setRefs, other]
    · simp only [State.set, State.setRefs, Function.update_self]
      omega
    · simp [State.set, State.setRefs]
  · intro u other
    simp [State.set, State.setRefs, other]
  · intro jp other
    simp [State.set, State.setRefs, other]
  · rw [idle]
    exact ⟨id, by simp⟩
  · simp
  · intro u stage other there
    refine fine_of_calm (inv.calm mine other there) ?_
    rintro rfl
    exact inv.held.unheld free u (by rw [there]; trivial)
  · simp [State.setRefs]

theorem igetFound (inv : Inv s made) (here : s.pc t = .iget key none) (free : s.lock = none)
    (linked : (s.disk key).nlink ≠ 0) (positive : 0 < (s.table ip).ref) (found : (s.table ip).key = key) :
    Inv (((s.set ip { s.table ip with ref := (s.table ip).ref + 1 }).setRefs t ip (s.refs t ip + 1)).at t .idle) made := by
  refine inv.count (t := t) ?_ rfl positive ?_ ?_ rfl ?_ ?_ ?_ ?_ (fun u _ => ?_) ?_
  · refine inv.held.recount (t := t) rfl (fun jp other => ?_) ?_ ?_ (fun _ => by omega) (fun u other => ?_) ?_
      (.inr ⟨rfl, inv.held.unheld free t⟩)
    · simp [State.at, State.set, State.setRefs, other]
    · simp only [State.at, State.set, State.setRefs, Function.update_self]
      omega
    · simp [State.at, State.set, State.setRefs]
    · simp [State.at, State.set, State.setRefs, other]
    · simp [State.at]
  · intro u other
    simp [State.at, State.set, State.setRefs, other]
  · intro jp other
    simp [State.at, State.set, State.setRefs, other]
  · rw [here]
    exact ⟨id, by simp⟩
  · simp [State.at]
  · simp
  · intro u stage other there
    have fine := inv.sound.fine u stage ip there
    have unheld := inv.held.unheld free u
    rw [there] at unheld
    subst found
    cases stage <;> simp_all [Fine, Pc.holds, Stage.holds]
  · cases known : made u ip with
    | none => rfl
    | some kind =>
      have secret := (inv.sound.secret u ip kind known).disk
      rw [found] at secret
      rw [secret] at linked
      exact absurd (fresh_orphan kind).2 linked
  · simp [State.at, State.setRefs]

theorem igetNew (inv : Inv s made) {claim : Option Kind} (here : s.pc t = .iget key claim) (free : s.lock = none)
    (linked : claim = none → (s.disk key).nlink ≠ 0) (unused : (s.table ip).ref = 0)
    (missing : ∀ jp, 0 < (s.table jp).ref → (s.table jp).key ≠ key) :
    Inv (((s.set ip { s.table ip with key := key, ref := 1, valid := false }).setRefs t ip (s.refs t ip + 1)).at t .idle)
      (made.claim t ip claim) := by
  have sound := inv.sound
  have none := inv.held.none_left unused
  have loose : ∀ u, (s.table ip).lock ≠ some u := fun u has => by
    have one := inv.held.owner u ip has
    have zero := none u
    omega
  generalize next : ((s.set ip { s.table ip with key := key, ref := 1, valid := false }).setRefs t ip (s.refs t ip + 1)).at t .idle = s'
  have idle : s'.pc t = .idle := by simp [← next, State.at]
  have others : ∀ u, u ≠ t → s'.pc u = s.pc u := fun u other => by simp [← next, State.at, State.set, State.setRefs, other]
  have entries : ∀ jp, jp ≠ ip → s'.table jp = s.table jp := fun jp other => by
    simp [← next, State.at, State.set, State.setRefs, other]
  have entry : s'.table ip = { s.table ip with key := key, ref := 1, valid := false } := by
    simp [← next, State.at, State.set, State.setRefs]
  have disk : s'.disk = s.disk := by rw [← next]; rfl
  have refs : s'.refs = Function.update s.refs t (Function.update (s.refs t) ip (s.refs t ip + 1)) := by rw [← next]; rfl
  have lost : ∀ u kind, made u ip ≠ some kind := by
    intro u kind known
    have one := (sound.secret u ip kind known).mine
    have zero := none u
    omega
  refine ⟨?_, Settles.sound (t := t) ⟨others, entries, fun u jp other => ?_, fun _ _ _ => by rw [disk], fun u jp kind other known => ?_,
    by simp [here], by simp [idle], ?_, ?_, ?_, ?_, ?_, ?_, by simp [idle], ?_, ?_⟩ inv.held sound⟩
  · refine inv.held.recount (t := t) refs entries ?_ (by rw [entry]) (fun has => absurd has (loose t)) others idle
      (.inr ⟨by rw [← next]; rfl, inv.held.unheld free t⟩)
    rw [entry, unused, none t]
  · rw [refs]
    by_cases me : u = t
    · subst me
      simp [show jp ≠ ip from other]
    · simp [me]
  · cases claim with
    | none => exact known
    | some kind' =>
      by_cases me : u = t
      · subst me
        simpa [Made.claim, Made.set, show jp ≠ ip from other] using known
      · simpa [Made.claim, Made.set, me] using known
  · rintro _ jp rfl _ second equal
    by_contra other
    rw [entries jp (Ne.symm other)] at second equal
    rw [entry] at equal
    exact missing jp second equal.symm
  · rintro _ rfl _ valid
    rw [entry] at valid
    cases valid
  · rintro _ rfl _ valid
    rw [entry] at valid
    cases valid
  · rintro u _ rfl locked
    rw [entry] at locked
    exact absurd locked (loose u)
  · rintro u stage _ rfl there
    have other : u ≠ t := by
      rintro rfl
      cases idle.symm.trans there
    rw [others u other] at there
    have one := (inv.held.stage u stage _ there).1
    have zero := none u
    omega
  · intro k orphan
    by_cases same : key = k
    · exact .inl ⟨ip, by rw [entry]; exact Nat.one_pos, by rw [entry]; exact same⟩
    · refine .inr (.inr ⟨by rwa [disk] at orphan, ?_, by simp [here, same]⟩)
      rintro _ rfl positive
      omega
  · intro u k kind other there
    refine ⟨by rw [disk], ?_⟩
    rintro _ rfl _
    rw [entry]
    rintro rfl
    cases claim with
    | none =>
      rw [(sound.claimed u key kind there).1] at linked
      exact linked rfl (fresh_orphan kind).2
    | some kind' => exact other (sound.once u t key kind kind' there here)
  · rintro u _ kind rfl known
    cases claim with
    | none => exact absurd known (lost u kind)
    | some kind' =>
      by_cases me : u = t
      · subst me
        obtain rfl : kind' = kind := by simpa [Made.claim, Made.set] using known
        refine ⟨by simp [refs], fun v other => by simp [refs, other, none v], ?_, by simp [idle]⟩
        rw [entry, disk]
        exact (sound.claimed u key kind' here).1
      · exact absurd (by simpa [Made.claim, Made.set, me] using known) (lost u kind)

end Inv

end OsProjects.Inodes

import OsProjects.Inodes.Freeing

namespace OsProjects.Inodes
open Transition

variable {Thread : Type} [Fintype Thread] [DecidableEq Thread] {s s' : State Thread} {made made' : Made Thread} {t u : Thread}
  {ip jp : Entry} {current next : Stage} {key : Key} {kind : Kind}

namespace Inv

/-- A step of a thread that has a reference to an entry, on this entry and the inode in it. -/
theorem change (inv : Inv s made) {inode : Inode Thread} {disk : Key → Dinode} {new : Pc} {lock : Option Thread}
    (mine : 1 ≤ s.refs t ip) (before : s.pc t = .idle ∨ ∃ stage, s.pc t = .on stage ip)
    (after : new = .idle ∨ ∃ stage, new = .on stage ip) (same : inode.key = (s.table ip).key ∧ inode.ref = (s.table ip).ref)
    (written : ∀ key, key ≠ (s.table ip).key → disk key = s.disk key)
    (theirs : ∀ u, u ≠ t → (inode.lock = some u ↔ (s.table ip).lock = some u) ∧
      ((s.table ip).lock = some u → (s.table ip).valid = true → inode.valid = true))
    (taken : new.holds ∧ lock = some t ∧ (s.lock = none ∨ s.lock = some t) ∨
      ¬ new.holds ∧ lock = none ∧ s.lock = some t ∨ ¬ new.holds ∧ lock = s.lock ∧ ¬ (s.pc t).holds)
    (copy : inode.valid = true → inode.d = disk (s.table ip).key)
    (typed : inode.valid = true → inode.d.type ≠ 0 ∨ new = .on .unlock ip)
    (stage : ∀ stage, new = .on stage ip → (inode.lock = some t ↔ stage.locked))
    (loaded : new = .idle → inode.lock = some t → inode.valid = true)
    (fine : ∀ s' : State Thread, s'.table ip = inode → s'.disk = disk → ∀ stage, new = .on stage ip → Fine s' ip stage)
    (kept : ∀ jp kind, made' t jp = some kind → made t jp = some kind ∧ (jp = ip →
      disk (s.table ip).key = s.disk (s.table ip).key ∧ ∀ stage, new = .on stage ip → ¬ stage.puts))
    (cleared : ∀ u, u ≠ t → made' u = made u) :
    Inv { s with table := Function.update s.table ip inode, disk := disk, pc := Function.update s.pc t new, lock := lock } made' := by
  have sound := inv.sound
  have positive := inv.held.ref_pos mine
  have apart : ∀ jp, jp ≠ ip → 0 < (s.table jp).ref → (s.table jp).key ≠ (s.table ip).key :=
    fun jp other here equal => other (sound.unique jp ip here positive equal)
  have on {pc : Pc} (here : pc = .idle ∨ ∃ stage, pc = .on stage ip) : ¬ pc.claims ∧ ∀ stage jp, pc = .on stage jp → jp = ip := by
    rcases here with rfl | ⟨stage, rfl⟩
    · exact ⟨id, by simp⟩
    · exact ⟨id, fun _ _ there => ((Pc.on.inj there).2).symm⟩
  generalize moved : ({ s with
    table := Function.update s.table ip inode, disk := disk, pc := Function.update s.pc t new, lock := lock } : State Thread) = s'
  have entry : s'.table ip = inode := by simp [← moved]
  have entries : ∀ jp, jp ≠ ip → s'.table jp = s.table jp := fun jp other => by simp [← moved, other]
  have now : s'.pc t = new := by simp [← moved]
  have others : ∀ u, u ≠ t → s'.pc u = s.pc u := fun u other => by simp [← moved, other]
  have refs : s'.refs = s.refs := by rw [← moved]
  obtain rfl : s'.disk = disk := by rw [← moved]
  obtain rfl : s'.lock = lock := by rw [← moved]
  subst entry now
  refine ⟨inv.held.keep others taken refs (fun jp => ?_) (fun u jp other => ?_) (fun jp has => ?_) fun next jp there => ?_,
    Settles.sound (t := t) ⟨others, entries, fun _ _ _ => by rw [refs], fun jp other here => written _ (apart jp other here), ?_,
      (on before).2, (on after).2, ?_, ?_, ?_, ?_, ?_, ?_, fun key kind here => ((on after).1 (by rw [here]; trivial)).elim, ?_, ?_⟩
      inv.held sound⟩
  · by_cases this : jp = ip
    · rw [this, same.2]
    · rw [entries jp this]
  · by_cases this : jp = ip
    · rw [this]
      exact (theirs u other).1
    · rw [entries jp this]
  · by_cases this : jp = ip
    · rwa [this]
    · rw [entries jp this] at has
      exact inv.held.owner t jp has
  · obtain rfl := (on after).2 next jp there
    exact ⟨mine, stage next there⟩
  · intro u jp kind _ known
    by_cases me : u = t
    · subst me
      exact (kept jp kind known).1
    · rwa [cleared u me] at known
  · rintro _ jp rfl _ second equal
    by_contra other
    rw [entries jp (Ne.symm other)] at second equal
    exact apart jp (Ne.symm other) second (equal.symm.trans same.1)
  · rintro _ rfl _ valid
    rw [same.1]
    exact copy valid
  · rintro _ rfl _ valid
    exact (typed valid).imp id fun here => ⟨t, here⟩
  · rintro u _ rfl has
    by_cases me : u = t
    · subst me
      rcases after with idle | ⟨stage', there⟩
      · exact .inr (loaded idle has)
      · exact .inl ⟨stage', there, (stage stage' there).mp has⟩
    · obtain ⟨iff, kept⟩ := theirs u me
      rw [others u me]
      exact (sound.loaded u _ (iff.mp has)).imp id (kept (iff.mp has))
  · rintro u stage' _ rfl here
    by_cases me : u = t
    · subst me
      exact fine s' rfl rfl stage' here
    · rw [others u me] at here
      have two : (s.table _).ref ≠ 1 := fun one => me (inv.held.only one mine (inv.held.stage u stage' _ here).1)
      exact Fine.of_two (by rwa [same.2]) fun busy => two ((sound.fine u stage' _ here).one busy)
  · intro k lost
    by_cases this : k = (s.table ip).key
    · exact .inl ⟨ip, by rwa [same.2], by rw [same.1, this]⟩
    · rw [written k this] at lost
      refine .inr (.inr ⟨lost, ?_, fun kind here => (on before).1 (by rw [here]; trivial)⟩)
      rintro _ rfl _ equal
      exact this equal.symm
  · intro u k kind _ here
    have free := (sound.claimed u k kind here).2 ip positive
    refine ⟨written k (Ne.symm free), ?_⟩
    rintro _ rfl _
    rwa [same.1]
  · rintro u _ kind rfl known
    by_cases me : u = t
    · subst me
      obtain ⟨before', here⟩ := kept _ kind known
      have old := sound.secret u _ kind before'
      exact ⟨refs ▸ old.mine, refs ▸ old.others, by rw [same.1, (here rfl).1]; exact old.disk, (here rfl).2⟩
    · rw [cleared u me] at known
      have none := (sound.secret u _ kind known).others t (Ne.symm me)
      omega

omit [Fintype Thread] [DecidableEq Thread] in
theorem others_unlocked {inode : Inode Thread} (unlocked : (s.table ip).lock = none ∨ (s.table ip).lock = some t)
    (unlocked' : inode.lock = none ∨ inode.lock = some t) (u : Thread) (other : u ≠ t) :
    (inode.lock = some u ↔ (s.table ip).lock = some u) ∧
      ((s.table ip).lock = some u → (s.table ip).valid = true → inode.valid = true) := by
  have before : (s.table ip).lock ≠ some u := by
    rcases unlocked with free | has <;> simp [*, Ne.symm other]
  have now : inode.lock ≠ some u := by
    rcases unlocked' with free | has <;> simp [*, Ne.symm other]
  exact ⟨iff_of_false now before, fun has => absurd has before⟩

theorem advance (inv : Inv s made) {lock : Option Thread} (mine : 1 ≤ s.refs t ip) (notMine : (s.table ip).lock ≠ some t)
    (before : s.pc t = .idle ∨ ∃ stage, s.pc t = .on stage ip) (loose : ¬ next.locked)
    (taken : next.holds ∧ lock = some t ∧ (s.lock = none ∨ s.lock = some t) ∨
      ¬ next.holds ∧ lock = none ∧ s.lock = some t ∨ ¬ next.holds ∧ lock = s.lock ∧ ¬ (s.pc t).holds)
    (fine : Fine s ip next) (kept : ∀ jp kind, made' t jp = some kind → made t jp = some kind ∧ (jp = ip → ¬ next.puts))
    (cleared : ∀ u, u ≠ t → made' u = made u) :
    Inv { s with pc := Function.update s.pc t (.on next ip), lock := lock } made' := by
  have unchanged : s.table = Function.update s.table ip (s.table ip) := (Function.update_eq_self ..).symm
  rw [unchanged]
  refine inv.change (t := t) mine before (.inr ⟨next, rfl⟩) ⟨rfl, rfl⟩ (fun _ _ => rfl) (fun _ _ => ⟨Iff.rfl, fun _ => id⟩) taken (inv.sound.copy ip (inv.held.ref_pos mine))
    (fun valid => ?_) ?_ (by simp) ?_ ?_ cleared
  · refine (inv.sound.typed ip (inv.held.ref_pos mine) valid).imp id ?_
    rintro ⟨u, there⟩
    have same : u ≠ t := by
      rintro rfl
      exact notMine ((inv.held.stage u _ ip there).2.mpr trivial)
    exact absurd (.inl ⟨trivial, by decide⟩) (inv.calm mine same there)
  · rintro _ ⟨⟩
    exact iff_of_false notMine loose
  · rintro s' entry disk _ ⟨⟩
    exact fine.congr entry (by rw [disk])
  · intro jp kind known
    obtain ⟨old, only⟩ := kept jp kind known
    refine ⟨old, fun same => ⟨rfl, ?_⟩⟩
    rintro _ ⟨⟩
    exact only same

omit [DecidableEq Thread] in
theorem putting (inv : Inv s made) (here : s.pc t = .on current ip) (puts : current.puts) (kind : Kind) :
    made t ip ≠ some kind :=
  fun known => (inv.sound.secret t ip kind known).kept current here puts

omit [DecidableEq Thread] in
theorem kept_of_putting (inv : Inv s made) (here : s.pc t = .on current ip) (puts : current.puts) {P : Prop} (jp : Entry)
    (kind : Kind) (known : made t jp = some kind) : made t jp = some kind ∧ (jp = ip → P) :=
  ⟨known, fun same => absurd (same ▸ known) (inv.putting here puts kind)⟩

theorem stage (inv : Inv s made) (here : s.pc t = .on current ip) (careful : Careful s (t, .go))
    (action : Inodes.stage s t ip current = some (.ok s')) : Inv s' made := by
  obtain ⟨mine, locked⟩ := inv.held.stage t current ip here
  have positive := inv.held.ref_pos mine
  have fine := inv.sound.fine t current ip here
  have before : s.pc t = .idle ∨ ∃ stage, s.pc t = .on stage ip := .inr ⟨current, here⟩
  have unheld : ¬ current.holds → ¬ (s.pc t).holds := fun free => by
    rw [here]
    exact free
  have holding : current.holds → s.lock = some t := fun holds => (inv.held.lock t).mpr (by rw [here]; exact holds)
  cases current with
  | ilock =>
    simp only [Inodes.stage] at action
    split_ifs at action with dead free
    · cases Option.some.inj action
    · obtain rfl := Except.ok.inj (Option.some.inj action)
      refine inv.change (t := t) mine before (.inr ⟨_, rfl⟩) ⟨rfl, rfl⟩ (fun _ _ => rfl)
        (others_unlocked (.inl free) (.inr rfl)) (.inr (.inr ⟨id, rfl, unheld id⟩)) (inv.sound.copy ip positive) ?_ ?_ (by simp) ?_ ?_ fun _ _ => rfl
      · intro valid
        refine (inv.sound.typed ip positive valid).imp id fun ⟨u, there⟩ => ?_
        have has := (inv.held.stage u _ ip there).2.mpr trivial
        cases free.symm.trans has
      · rintro _ ⟨⟩
        simp [Stage.locked]
      · rintro s' _ _ _ ⟨⟩
        trivial
      · intro jp kind known
        refine ⟨known, fun _ => ⟨rfl, ?_⟩⟩
        rintro _ ⟨⟩ puts
        exact puts.2 rfl
  | load =>
    have has := locked.mpr trivial
    simp only [Inodes.stage] at action
    split_ifs at action with valid typed
    · obtain rfl := Except.ok.inj (Option.some.inj action)
      have same : s.at t .idle =
          ⟨Function.update s.table ip (s.table ip), s.disk, s.lock, Function.update s.pc t .idle, s.refs⟩ := by
        rw [Function.update_eq_self]
        rfl
      rw [same]
      refine inv.change (t := t) mine before (.inl rfl) ⟨rfl, rfl⟩ (fun _ _ => rfl) (others_unlocked (.inr has) (.inr has))
        (.inr (.inr ⟨id, rfl, unheld id⟩)) (inv.sound.copy ip positive) ?_ (by simp) (fun _ _ => valid) (by simp) ?_ fun _ _ => rfl
      · intro _
        refine (inv.sound.typed ip positive valid).imp id fun ⟨u, there⟩ => ?_
        have theirs := (inv.held.stage u _ ip there).2.mpr trivial
        obtain rfl := Option.some.inj (has.symm.trans theirs)
        cases here.symm.trans there
      · exact fun jp kind known => ⟨known, fun _ => ⟨rfl, by simp⟩⟩
    · cases Option.some.inj action
    · obtain rfl := Except.ok.inj (Option.some.inj action)
      refine inv.change (t := t) mine before (.inl rfl) ⟨rfl, rfl⟩ (fun _ _ => rfl) (others_unlocked (.inr has) (.inr has))
        (.inr (.inr ⟨id, rfl, unheld id⟩)) (fun _ => rfl) (fun _ => .inl typed) (by simp) (fun _ _ => rfl) (by simp) ?_ fun _ _ => rfl
      exact fun jp kind known => ⟨known, fun _ => ⟨rfl, by simp⟩⟩
  | iput =>
    obtain ⟨free, equal⟩ := Option.ite_none_right_eq_some.mp action
    obtain rfl := Except.ok.inj (Option.some.inj equal)
    exact inv.advance (t := t) mine (fun has => locked.mp has) before id (.inl ⟨trivial, rfl, .inl free⟩) trivial
      (inv.kept_of_putting here (by decide)) fun _ _ => rfl
  | test =>
    have notMine : (s.table ip).lock ≠ some t := fun has => locked.mp has
    have held := holding trivial
    simp only [Inodes.stage] at action
    split_ifs at action with last
    · obtain ⟨one, valid, unlinked⟩ := last
      obtain rfl := Except.ok.inj (Option.some.inj action)
      refine inv.advance (t := t) mine notMine before id (.inl ⟨trivial, held, .inr held⟩) ⟨one, valid, ?_, ?_⟩
        (inv.kept_of_putting here (by decide)) fun _ _ => rfl
      · refine (inv.sound.typed ip positive valid).resolve_right fun ⟨u, there⟩ => ?_
        have theirs := inv.held.stage u _ ip there
        obtain rfl := inv.held.only one mine theirs.1
        cases here.symm.trans there
      · rw [← inv.sound.copy ip positive valid]
        exact unlinked
    · obtain rfl := Except.ok.inj (Option.some.inj action)
      refine inv.advance (t := t) mine notMine before id (.inl ⟨trivial, held, .inr held⟩) ?_
        (inv.kept_of_putting here (by decide)) fun _ _ => rfl
      intro one orphan
      simp only [Careful, here] at careful
      cases valid : (s.table ip).valid with
      | false => exact careful one valid orphan
      | true =>
        refine last ⟨one, valid, ?_⟩
        rw [inv.sound.copy ip positive valid]
        exact orphan.2
  | sleep =>
    obtain ⟨free, equal⟩ := Option.ite_none_right_eq_some.mp action
    obtain rfl := Except.ok.inj (Option.some.inj equal)
    refine inv.change (t := t) mine before (.inr ⟨_, rfl⟩) ⟨rfl, rfl⟩ (fun _ _ => rfl) (others_unlocked (.inl free) (.inr rfl))
      (.inr (.inl ⟨id, rfl, holding trivial⟩)) (inv.sound.copy ip positive) (fun _ => .inl fine.2.2.1) ?_ (by simp) ?_
      (inv.kept_of_putting here (by decide)) fun _ _ => rfl
    · rintro _ ⟨⟩
      simp [Stage.locked]
    · rintro s' entry disk _ ⟨⟩
      simpa [Fine, entry, disk, State.set] using fine
  | trunc =>
    have has := locked.mpr trivial
    obtain rfl := Except.ok.inj (Option.some.inj action)
    refine inv.change (t := t) mine before (.inr ⟨_, rfl⟩) ⟨rfl, rfl⟩
      (fun key other => Function.update_of_ne other _ _) (others_unlocked (.inr has) (.inr has)) (.inr (.inr ⟨id, rfl, unheld id⟩)) (fun _ => by simp [State.set, State.write])
      (fun _ => .inl fine.2.2.1) ?_ (by simp) ?_ (inv.kept_of_putting here (by decide)) fun _ _ => rfl
    · rintro _ ⟨⟩
      simpa [Stage.locked] using has
    · rintro s' entry disk _ ⟨⟩
      have unlinked : (s.table ip).d.nlink = 0 := by
        rw [inv.sound.copy ip positive fine.2.1]
        exact fine.2.2.2
      simpa [Fine, entry, disk, State.set, State.write, unlinked] using ⟨fine.1, fine.2.1, fine.2.2.1⟩
  | retype =>
    have has := locked.mpr trivial
    obtain rfl := Except.ok.inj (Option.some.inj action)
    refine inv.change (t := t) mine before (.inr ⟨_, rfl⟩) ⟨rfl, rfl⟩
      (fun key other => Function.update_of_ne other _ _) (others_unlocked (.inr has) (.inr has)) (.inr (.inr ⟨id, rfl, unheld id⟩)) (fun _ => by simp [State.set, State.write])
      (fun _ => .inr rfl) ?_ (by simp) ?_ (inv.kept_of_putting here (by decide)) fun _ _ => rfl
    · rintro _ ⟨⟩
      simpa [Stage.locked] using has
    · rintro s' entry disk _ ⟨⟩
      have unlinked : (s.table ip).d.nlink = 0 := by
        rw [inv.sound.copy ip positive fine.2.1]
        exact fine.2.2.2
      simpa [Fine, entry, disk, State.set, State.write, unlinked] using fine.1
  | unlock =>
    have has := locked.mpr trivial
    obtain rfl := Except.ok.inj (Option.some.inj action)
    refine inv.change (t := t) mine before (.inr ⟨_, rfl⟩) ⟨rfl, rfl⟩ (fun _ _ => rfl) (others_unlocked (.inr has) (.inl rfl))
      (.inr (.inr ⟨id, rfl, unheld id⟩)) (by simp) (by simp) ?_ (by simp) ?_ (inv.kept_of_putting here (by decide)) fun _ _ => rfl
    · rintro _ ⟨⟩
      simp [Stage.locked]
    · rintro s' entry disk _ ⟨⟩
      simpa [Fine, entry, disk, State.set] using fine
  | again =>
    obtain ⟨free, equal⟩ := Option.ite_none_right_eq_some.mp action
    obtain rfl := Except.ok.inj (Option.some.inj equal)
    exact inv.advance (t := t) mine (fun has => locked.mp has) before id (.inl ⟨trivial, rfl, .inl free⟩)
      (fun _ orphan => orphan.1 fine.2.1) (inv.kept_of_putting here (by decide)) fun _ _ => rfl
  | drop =>
    obtain rfl := Except.ok.inj (Option.some.inj action)
    exact inv.drop here

end Inv

end OsProjects.Inodes

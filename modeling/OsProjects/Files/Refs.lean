import Mathlib.Algebra.Group.Pi.Basic
import OsProjects.Files.Model
import OsProjects.Hoare.Wp
import OsProjects.Transition.Count

namespace OsProjects.Files
open Transition Kernel Hoare

/-! ## Counting descriptors -/

def Table.count (s : Table) (f : Fin NFILE) : ℕ := weigh (fun slot => if slot = some f then 1 else 0) s.ofile

def Pipe.isOpen (pipe : Pipe) (writable : Bool) : Bool := if writable then pipe.writeopen else pipe.readopen

/-- `held` are the references in the hands of the running code, `b` is the table before the call. -/
structure Counted (b : Table) (held : Fin NFILE → ℤ) (s : Table) : Prop where
  refs : ∀ f, ((s.file f).ref : ℤ) = s.count f + held f
  unused : ∀ f, (s.file f).ref = 0 → (s.file f).type = .none
  ends : ∀ f g, (s.file f).type = .pipe → (s.file g).type = .pipe → (s.file f).pipe = (s.file g).pipe →
    (s.file f).writable = (s.file g).writable → f = g
  pipes : ∀ pi w, (s.pipe pi).isOpen w = true ↔
    ∃ f, (s.file f).type = .pipe ∧ (s.file f).pipe = pi ∧ (s.file f).writable = w
  kept : ∀ f, 1 ≤ (b.file f).ref → (s.file f).ref = 0 ∨ s.file f = { b.file f with ref := (s.file f).ref }

def Only (p : Slot) (s t : Table) : Prop := ∀ q, q ≠ p → ∀ fd, t.ofile (q, fd) = s.ofile (q, fd)

abbrev NoPanic : Panic → Prop := fun _ => False

variable {held : Fin NFILE → ℤ} {b s t : Table} {f g : Fin NFILE} {p : Slot} {fd : Fin NOFILE} {f0 f1 : Fin NFILE}

theorem one_le_count (here : s.ofile (p, fd) = some f) : 1 ≤ s.count f := by
  have one := le_weigh (fun slot => if slot = some f then 1 else 0) s.ofile (p, fd)
  rw [here, if_pos rfl] at one
  exact one

theorem count_setOfile (s : Table) (p : Slot) (fd : Fin NOFILE) (new : Option (Fin NFILE)) (f : Fin NFILE) :
    ({ s with ofile := Function.update s.ofile (p, fd) new } : Table).count f +
      (if s.ofile (p, fd) = some f then 1 else 0) = s.count f + if new = some f then 1 else 0 :=
  weigh_update _ _ _ _

theorem only_of_eq (same : t.ofile = s.ofile) : Only p s t := fun _ _ _ => by rw [same]

theorem only_update (same : t.ofile = s.ofile) (new : Option (Fin NFILE)) :
    Only p s { t with ofile := Function.update t.ofile (p, fd) new } := by
  intro q other fd'
  simp only [Function.update_of_ne fun equal : (q, fd') = (p, fd) => other (Prod.mk.inj equal).1, same]

theorem Only.trans {u : Table} (first : Only p s t) (second : Only p t u) : Only p s u :=
  fun q other fd => (second q other fd).trans (first q other fd)

namespace Counted

theorem rebase (counted : Counted b held s) : Counted s held s :=
  ⟨counted.refs, counted.unused, counted.ends, counted.pipes, fun _ _ => .inr rfl⟩

theorem ref_pos (counted : Counted b held s) (mine : 1 ≤ held f) : 1 ≤ (s.file f).ref := by
  have refs := counted.refs f
  omega

theorem ref_pos_of_ofile (counted : Counted b held s) (here : s.ofile (p, fd) = some f) (mine : 0 ≤ held f) :
    1 ≤ (s.file f).ref := by
  have refs := counted.refs f
  have one := one_le_count here
  omega

theorem setRef (counted : Counted b held s) (f : Fin NFILE) (ref : ℕ) (change : ℤ) (positive : 1 ≤ ref)
    (moved : (ref : ℤ) = (s.file f).ref + change) (new : (s.file f).ref = 0 → (b.file f).ref = 0) :
    Counted b (held + Pi.single f change) { s with file := Function.update s.file f { s.file f with ref := ref } } := by
  have same : ∀ g, (Function.update s.file f { s.file f with ref := ref } g).type = (s.file g).type ∧
      (Function.update s.file f { s.file f with ref := ref } g).pipe = (s.file g).pipe ∧
      (Function.update s.file f { s.file f with ref := ref } g).writable = (s.file g).writable := by
    intro g
    by_cases here : g = f
    · subst here
      simp
    · simp [here]
  constructor
  · intro g
    have refs := counted.refs g
    by_cases here : g = f
    · subst here
      simp only [Function.update_self, Pi.add_apply, Pi.single_eq_same]
      change _ = (s.count g : ℤ) + _
      omega
    · simp only [Function.update_of_ne here, Pi.add_apply, Pi.single_eq_of_ne here, add_zero]
      exact refs
  · intro g zero
    rw [(same g).1]
    by_cases here : g = f
    · subst here
      simp only [Function.update_self] at zero
      omega
    · simp only [Function.update_of_ne here] at zero
      exact counted.unused g zero
  · intro g g' pipe pipe' equal writable
    simp only [same] at pipe pipe' equal writable
    exact counted.ends g g' pipe pipe' equal writable
  · intro pi w
    simp only [same]
    exact counted.pipes pi w
  · intro g old
    by_cases here : g = f
    · subst here
      have positive : (s.file g).ref ≠ 0 := fun zero => by
        have := new zero
        omega
      have before := (counted.kept g old).resolve_left positive
      right
      simp only [Function.update_self]
      rw [before]
    · simp only [Function.update_of_ne here]
      exact counted.kept g old

theorem setOfile (counted : Counted b held s) (p : Slot) (fd : Fin NOFILE) (new : Option (Fin NFILE)) :
    Counted b (fun f => held f + (if s.ofile (p, fd) = some f then 1 else 0) - if new = some f then 1 else 0)
      { s with ofile := Function.update s.ofile (p, fd) new } := by
  refine ⟨fun f => ?_, counted.unused, counted.ends, counted.pipes, counted.kept⟩
  have refs := counted.refs f
  have count := count_setOfile s p fd new f
  simp only
  split_ifs at count ⊢ <;> omega

end Counted

section
variable (counted : Counted b held s)
include counted

theorem filedup_spec (positive : 1 ≤ (s.file f).ref) :
    wp NoPanic (filedup f) (fun _ t => Counted b (held + Pi.single f 1) t ∧ t.ofile = s.ofile) s := by
  simp only [filedup, wp_bind, wp_get, setFile]
  rw [if_neg (by omega), wp_modify]
  exact ⟨counted.setRef f _ 1 (by omega) (by push_cast; rfl) (by omega), rfl⟩

theorem filealloc_spec (new : ∀ f, (s.file f).ref = 0 → (b.file f).ref = 0) :
    wp NoPanic filealloc (fun r t => match r with
      | none => t = s
      | some f => Counted b (held + Pi.single f 1) t ∧ t.ofile = s.ofile ∧ t.pipe = s.pipe ∧ (t.file f).type = .none ∧
          (s.file f).ref = 0 ∧ ∀ g, g ≠ f → t.file g = s.file g) s := by
  simp only [filealloc, wp_bind, wp_get, setFile]
  split
  · rfl
  · rename_i f found
    have free : (s.file f).ref = 0 := by simpa using List.find?_some found
    simp only [wp_bind, wp_modify, wp_pure]
    refine ⟨counted.setRef f 1 1 le_rfl (by simp [free]) (new f), trivial, trivial, ?_, free,
      fun g other => Function.update_of_ne other _ _⟩
    simpa using counted.unused f free

theorem Counted.last (one : (s.file f).ref = 1) {pipe : ℕ → Pipe}
    (closed : ∀ pi w, (pipe pi).isOpen w = true ↔ (s.pipe pi).isOpen w = true ∧
      ¬ ((s.file f).type = .pipe ∧ (s.file f).pipe = pi ∧ (s.file f).writable = w)) :
    Counted b (held - Pi.single f 1)
      { s with file := Function.update s.file f { s.file f with ref := 0, type := .none }, pipe := pipe } := by
  have piped : ∀ g, (Function.update s.file f { s.file f with ref := 0, type := .none } g).type = .pipe →
      g ≠ f ∧ (s.file g).type = .pipe := by
    intro g type
    by_cases here : g = f
    · subst here
      simp at type
    · exact ⟨here, by simpa [here] using type⟩
  constructor
  · intro g
    have refs := counted.refs g
    by_cases here : g = f
    · subst here
      simp only [Function.update_self, Pi.sub_apply, Pi.single_eq_same]
      change _ = (s.count g : ℤ) + _
      omega
    · simp only [Function.update_of_ne here, Pi.sub_apply, Pi.single_eq_of_ne here, sub_zero]
      exact refs
  · intro g zero
    by_cases here : g = f
    · subst here
      simp
    · simp only [Function.update_of_ne here] at zero ⊢
      exact counted.unused g zero
  · intro g g' type type' equal writable
    obtain ⟨other, type⟩ := piped g type
    obtain ⟨other', type'⟩ := piped g' type'
    simp only [Function.update_of_ne other, Function.update_of_ne other'] at equal writable
    exact counted.ends g g' type type' equal writable
  · intro pi w
    rw [closed, counted.pipes]
    constructor
    · rintro ⟨⟨g, type, equal, writable⟩, notMine⟩
      have other : g ≠ f := by
        rintro rfl
        exact notMine ⟨type, equal, writable⟩
      exact ⟨g, by simpa [other] using ⟨type, equal, writable⟩⟩
    · rintro ⟨g, type, equal, writable⟩
      obtain ⟨other, type⟩ := piped g type
      simp only [Function.update_of_ne other] at equal writable
      refine ⟨⟨g, type, equal, writable⟩, fun ⟨type', equal', writable'⟩ => other ?_⟩
      exact counted.ends g f type type' (equal.trans equal'.symm) (writable.trans writable'.symm)
  · intro g old
    by_cases here : g = f
    · subst here
      simp
    · simp only [Function.update_of_ne here]
      exact counted.kept g old

theorem fileclose_spec (positive : 1 ≤ (s.file f).ref) :
    wp NoPanic (fileclose f) (fun _ t => Counted b (held - Pi.single f 1) t ∧ t.ofile = s.ofile) s := by
  simp only [fileclose, wp_bind, wp_get, setFile]
  rw [if_neg (by omega)]
  split
  · rename_i more
    simp only [wp_bind, wp_modify, wp_pure]
    refine ⟨?_, trivial⟩
    have moved := counted.setRef f ((s.file f).ref - 1) (-1) (by omega) (by omega) (by omega)
    rwa [Pi.single_neg, ← sub_eq_add_neg] at moved
  · have one : (s.file f).ref = 1 := by omega
    simp only [wp_bind, wp_modify]
    split
    · rename_i type
      simp only [pipeclose, setPipe, wp_bind, wp_get, wp_modify, wp_pure]
      refine ⟨counted.last one fun pi w => ?_, trivial⟩
      by_cases here : pi = (s.file f).pipe
      · subst here
        cases writable : (s.file f).writable <;> cases w <;> simp [Pipe.isOpen, type]
      · simp [here, type, Ne.symm here]
    · rename_i type
      simp only [wp_pure]
      exact ⟨counted.last one fun pi w => by simp [show (s.file f).type ≠ .pipe from type], trivial⟩

theorem fdalloc_spec :
    wp NoPanic (fdalloc p f) (fun r t => match r with
      | none => t = s
      | some fd => Counted b (held - Pi.single f 1) t ∧ s.ofile (p, fd) = none ∧
          t = { s with ofile := Function.update s.ofile (p, fd) (some f) }) s := by
  simp only [fdalloc, wp_bind, wp_get, Files.setOfile]
  split
  · rfl
  · rename_i fd found
    have free : s.ofile (p, fd) = none := by simpa using List.find?_some found
    simp only [wp_bind, wp_modify, wp_pure]
    refine ⟨?_, free, trivial⟩
    have moved := counted.setOfile p fd (some f)
    convert moved using 1
    funext g
    by_cases here : g = f
    · subst here
      simp [free]
    · simp [free, here, Ne.symm here]

theorem setOfile_none_spec (here : s.ofile (p, fd) = some f) :
    wp NoPanic (setOfile p fd none) (fun _ t => Counted b (held + Pi.single f 1) t ∧
      t = { s with ofile := Function.update s.ofile (p, fd) none }) s := by
  refine ⟨?_, rfl⟩
  have moved := counted.setOfile p fd none
  convert moved using 1
  funext g
  by_cases same : g = f
  · subst same
    simp [here]
  · simp [here, same, Ne.symm same]

theorem setOfile_some_spec (free : s.ofile (p, fd) = none) (f : Fin NFILE) :
    wp NoPanic (setOfile p fd (some f)) (fun _ t => Counted b (held - Pi.single f 1) t ∧
      t = { s with ofile := Function.update s.ofile (p, fd) (some f) }) s := by
  refine ⟨?_, rfl⟩
  have moved := counted.setOfile p fd (some f)
  convert moved using 1
  funext g
  by_cases same : g = f
  · subst same
    simp [free]
  · simp [free, same, Ne.symm same]

end

/-! ## System calls -/

theorem sysDup_spec (counted : Counted s 0 s) (p : Slot) (fd : Fin NOFILE) :
    wp NoPanic (sysDup p fd) (fun _ t => Counted s 0 t ∧ Only p s t) s := by
  simp only [sysDup, wp_bind, wp_get]
  split
  · exact ⟨counted, only_of_eq rfl⟩
  · rename_i f here
    simp only [wp_bind]
    refine (fdalloc_spec counted).mono fun r t found => ?_
    cases r with
    | none =>
      obtain rfl := found
      exact ⟨counted, only_of_eq rfl⟩
    | some fd' =>
      obtain ⟨counted', _, rfl⟩ := found
      have positive := counted.ref_pos_of_ofile here le_rfl
      simp only [wp_bind]
      refine (filedup_spec counted' positive).mono ?_
      rintro _ t ⟨done, same⟩
      refine ⟨by simpa using done, ?_⟩
      exact (only_update rfl _).trans (only_of_eq same)

theorem sysClose_spec (counted : Counted s 0 s) (p : Slot) (fd : Fin NOFILE) :
    wp NoPanic (sysClose p fd) (fun _ t => Counted s 0 t ∧ Only p s t) s := by
  simp only [sysClose, wp_bind, wp_get]
  split
  · exact ⟨counted, only_of_eq rfl⟩
  · rename_i f here
    simp only [wp_bind]
    refine (setOfile_none_spec counted here).mono ?_
    rintro _ t ⟨counted', equal⟩
    have positive : 1 ≤ (t.file f).ref := counted'.ref_pos (by simp)
    refine (fileclose_spec counted' positive).mono ?_
    rintro _ t' ⟨done, same⟩
    refine ⟨by simpa using done, ?_⟩
    rw [equal] at same
    exact (only_update rfl _).trans (only_of_eq same)

theorem closeBoth_spec (counted : Counted b (Pi.single f0 1 + Pi.single f1 1) s) (apart : f0 ≠ f1) :
    wp NoPanic (closeBoth f0 f1) (fun _ t => Counted b 0 t ∧ t.ofile = s.ofile) s := by
  simp only [closeBoth, wp_bind, wp_pure]
  refine (fileclose_spec counted (counted.ref_pos (by simp [apart]))).mono ?_
  rintro _ t ⟨counted', same⟩
  have positive : 1 ≤ (t.file f1).ref := counted'.ref_pos (by simp)
  refine (fileclose_spec counted' positive).mono ?_
  rintro _ t ⟨done, same'⟩
  exact ⟨by simpa using done, same'.trans same⟩

structure Paired (s : Table) (f0 f1 : Fin NFILE) (t : Table) : Prop where
  counted : Counted s (Pi.single f0 1 + Pi.single f1 1) t
  apart : f0 ≠ f1
  new : (s.file f0).ref = 0 ∧ (s.file f1).ref = 0
  untyped : (t.file f0).type = .none ∧ (t.file f1).type = .none
  ofile : t.ofile = s.ofile
  others : ∀ g, g ≠ f0 → g ≠ f1 → t.file g = s.file g

theorem pipefiles_spec (counted : Counted s 0 s) :
    wp NoPanic pipefiles (fun r t => match r with
      | none => Counted s 0 t ∧ t.ofile = s.ofile
      | some (f0, f1) => Paired s f0 f1 t) s := by
  simp only [pipefiles, wp_bind]
  refine (filealloc_spec counted fun _ free => free).mono fun r t found => ?_
  cases r with
  | none =>
    obtain rfl := found
    exact ⟨counted, rfl⟩
  | some f0 =>
    obtain ⟨counted0, ofile0, _, first, free0, others0⟩ := found
    simp only [wp_bind]
    rw [zero_add] at counted0
    have positive := counted0.ref_pos (f := f0) (by simp)
    have new : ∀ g, (t.file g).ref = 0 → (s.file g).ref = 0 := by
      intro g free
      have other : g ≠ f0 := by
        rintro rfl
        omega
      rwa [others0 g other] at free
    refine (filealloc_spec counted0 new).mono fun r t' found => ?_
    cases r with
    | none =>
      obtain rfl := found
      simp only [wp_bind]
      refine (fileclose_spec counted0 positive).mono ?_
      rintro _ t ⟨done, same⟩
      exact ⟨by simpa using done, same.trans ofile0⟩
    | some f1 =>
      obtain ⟨counted1, ofile1, _, second, free1, others1⟩ := found
      have apart : f0 ≠ f1 := by
        rintro rfl
        omega
      exact ⟨counted1, apart, ⟨free0, new f1 free1⟩, ⟨by rw [others1 f0 apart]; exact first, second⟩, ofile1.trans ofile0,
        fun g other other' => (others1 g other').trans (others0 g other)⟩

theorem Counted.pipeOpened {pi : ℕ} {t' : Table} (counted : Counted b held t) (apart : f0 ≠ f1)
    (unused : ∀ g, (t.file g).type = .pipe → (t.file g).pipe ≠ pi)
    (first : t'.file f0 = { t.file f0 with type := .pipe, readable := true, writable := false, pipe := pi })
    (second : t'.file f1 = { t.file f1 with type := .pipe, readable := false, writable := true, pipe := pi })
    (others : ∀ g, g ≠ f0 → g ≠ f1 → t'.file g = t.file g) (ofile : t'.ofile = t.ofile)
    (pipe : t'.pipe = Function.update t.pipe pi ⟨true, true⟩)
    (positive : 1 ≤ (t.file f0).ref) (positive' : 1 ≤ (t.file f1).ref)
    (untyped : (t.file f0).type = .none ∧ (t.file f1).type = .none) (new : (b.file f0).ref = 0 ∧ (b.file f1).ref = 0) :
    Counted b held t' := by
  have piped : ∀ g, (t'.file g).type = .pipe → (g = f0 ∨ g = f1) ∧ (t'.file g).pipe = pi ∧ (t'.file g).writable = decide (g = f1) ∨
      (t.file g).type = .pipe ∧ t'.file g = t.file g ∧ (t'.file g).pipe ≠ pi := by
    intro g type
    by_cases here : g = f0
    · subst here
      exact .inl ⟨.inl rfl, by simp [first], by simp [first, apart]⟩
    · by_cases there : g = f1
      · subst there
        exact .inl ⟨.inr rfl, by simp [second], by simp [second]⟩
      · rw [others g here there] at type ⊢
        exact .inr ⟨type, rfl, unused g type⟩
  have ref : ∀ g, (t'.file g).ref = (t.file g).ref := by
    intro g
    by_cases here : g = f0
    · simp [here, first]
    · by_cases there : g = f1
      · simp [there, second]
      · rw [others g here there]
  constructor
  · intro g
    rw [ref, Table.count, ofile]
    exact counted.refs g
  · intro g zero
    rw [ref] at zero
    have here : g ≠ f0 := by
      rintro rfl
      omega
    have there : g ≠ f1 := by
      rintro rfl
      omega
    rw [others g here there]
    exact counted.unused g zero
  · intro g g' type type' equal writable
    rcases piped g type with ⟨mine, here, which⟩ | ⟨before, same, elsewhere⟩
    · rcases piped g' type' with ⟨mine', _, which'⟩ | ⟨_, _, elsewhere'⟩
      · rw [which, which'] at writable
        rcases mine with rfl | rfl <;> rcases mine' with rfl | rfl <;> simp_all
      · exact absurd (equal.symm.trans here) elsewhere'
    · rcases piped g' type' with ⟨_, here', _⟩ | ⟨before', same', _⟩
      · exact absurd (equal.trans here') elsewhere
      · rw [same, same'] at equal writable
        exact counted.ends g g' before before' equal writable
  · intro pi' w
    rw [pipe]
    by_cases here : pi' = pi
    · subst here
      simp only [Function.update_self]
      constructor
      · intro _
        cases w with
        | false => exact ⟨f0, by simp [first]⟩
        | true => exact ⟨f1, by simp [second]⟩
      · intro _
        cases w <;> rfl
    · rw [Function.update_of_ne here, counted.pipes pi' w]
      constructor
      · rintro ⟨g, type, equal, writable⟩
        have other : g ≠ f0 := by
          rintro rfl
          cases untyped.1.symm.trans type
        have other' : g ≠ f1 := by
          rintro rfl
          cases untyped.2.symm.trans type
        exact ⟨g, by rw [others g other other']; exact ⟨type, equal, writable⟩⟩
      · rintro ⟨g, type, equal, writable⟩
        rcases piped g type with ⟨_, there, _⟩ | ⟨before, same, _⟩
        · exact absurd (equal.symm.trans there) here
        · exact ⟨g, by rw [← same]; exact ⟨type, equal, writable⟩⟩
  · intro g old
    have here : g ≠ f0 := by
      rintro rfl
      omega
    have there : g ≠ f1 := by
      rintro rfl
      omega
    rw [others g here there]
    exact counted.kept g old

theorem pipeinit_spec (paired : Paired s f0 f1 t) (page : Option ℕ) (fresh : ∀ pi, page = some pi → ¬ s.InUse pi) :
    wp NoPanic (pipeinit f0 f1 page) (fun r t' =>
      Counted s (if r then Pi.single f0 1 + Pi.single f1 1 else 0) t' ∧ t'.ofile = t.ofile) t := by
  cases page with
  | none =>
    simp only [pipeinit, wp_bind]
    exact (closeBoth_spec paired.counted paired.apart).mono fun _ _ done => done
  | some pi =>
    have unused : ∀ g, (t.file g).type = .pipe → (t.file g).pipe ≠ pi := by
      intro g type equal
      have other0 : g ≠ f0 := by
        rintro rfl
        cases paired.untyped.1.symm.trans type
      have other1 : g ≠ f1 := by
        rintro rfl
        cases paired.untyped.2.symm.trans type
      rw [paired.others g other0 other1] at type equal
      exact fresh pi rfl ⟨g, type, equal⟩
    simp only [pipeinit, setPipe, setFile, wp_bind, wp_modify, wp_get, wp_pure, if_true]
    refine ⟨paired.counted.pipeOpened paired.apart unused ?_ ?_ (fun g other other' => ?_) rfl rfl
      (paired.counted.ref_pos (by simp [paired.apart])) (paired.counted.ref_pos (by simp [Ne.symm paired.apart]))
      paired.untyped paired.new, trivial⟩
    · simp [paired.apart]
    · simp [Ne.symm paired.apart]
    · simp [other, other']

theorem pipefds_spec (counted : Counted b (Pi.single f0 1 + Pi.single f1 1) s) (apart : f0 ≠ f1)
    (p : Slot) (copyout : Bool) : wp NoPanic (pipefds p f0 f1 copyout) (fun _ t => Counted b 0 t ∧ Only p s t) s := by
  simp only [pipefds, wp_bind]
  refine (fdalloc_spec counted).mono fun r t found => ?_
  cases r with
  | none =>
    obtain rfl := found
    simp only [wp_bind]
    refine (closeBoth_spec counted apart).mono ?_
    rintro _ _ ⟨done, same⟩
    exact ⟨done, only_of_eq same⟩
  | some fd0 =>
    obtain ⟨counted0, free0, rfl⟩ := found
    have only0 : Only p s { s with ofile := Function.update s.ofile (p, fd0) (some f0) } := only_update rfl _
    simp only [wp_bind]
    refine (fdalloc_spec counted0).mono fun r t found => ?_
    cases r with
    | none =>
      obtain rfl := found
      simp only [wp_bind]
      refine (setOfile_none_spec counted0 (Function.update_self _ _ _)).mono ?_
      rintro _ t ⟨counted', equal⟩
      rw [sub_add_cancel] at counted'
      refine (closeBoth_spec counted' apart).mono ?_
      rintro _ _ ⟨done, same⟩
      refine ⟨done, ?_⟩
      rw [equal] at same
      exact (only0.trans (only_update rfl _)).trans (only_of_eq same)
    | some fd1 =>
      obtain ⟨counted1, free1, rfl⟩ := found
      have only1 : Only p s { s with ofile := Function.update (Function.update s.ofile (p, fd0) (some f0)) (p, fd1) (some f1) } :=
        only0.trans (only_update rfl _)
      cases copyout with
      | true => exact ⟨by simpa [sub_sub] using counted1, only1⟩
      | false =>
        simp only [Bool.false_eq_true, if_false, wp_bind]
        have other : (p, fd0) ≠ (p, fd1) := by
          intro same
          simp [same] at free1
        have here : Function.update (Function.update s.ofile (p, fd0) (some f0)) (p, fd1) (some f1) (p, fd0) = some f0 := by
          rw [Function.update_of_ne other, Function.update_self]
        refine (setOfile_none_spec counted1 here).mono ?_
        rintro _ t ⟨counted2, equal⟩
        have there : t.ofile (p, fd1) = some f1 := by
          rw [equal]
          simp only [Function.update_of_ne (Ne.symm other), Function.update_self]
        refine (setOfile_none_spec counted2 there).mono ?_
        rintro _ t' ⟨counted3, equal'⟩
        have both : Counted b (Pi.single f0 1 + Pi.single f1 1) t' := by
          convert counted3 using 1
          abel
        refine (closeBoth_spec both apart).mono ?_
        rintro _ _ ⟨done, same⟩
        refine ⟨done, ?_⟩
        rw [equal'] at same
        have only2 : Only p s t := equal ▸ only1.trans (only_update rfl _)
        exact (only2.trans (only_update rfl _)).trans (only_of_eq same)

theorem sysPipe_spec (counted : Counted s 0 s) (p : Slot) (page : Option ℕ) (copyout : Bool)
    (fresh : ∀ pi, page = some pi → ¬ s.InUse pi) :
    wp NoPanic (sysPipe p page copyout) (fun _ t => Counted s 0 t ∧ Only p s t) s := by
  simp only [sysPipe, wp_bind]
  refine (pipefiles_spec counted).mono fun r t found => ?_
  cases r with
  | none => exact ⟨found.1, only_of_eq found.2⟩
  | some files =>
    simp only [wp_bind]
    refine (pipeinit_spec found page fresh).mono ?_
    rintro r t' ⟨counted', same⟩
    have only : Only p s t' := only_of_eq (same.trans found.ofile)
    cases r with
    | false => exact ⟨counted', only⟩
    | true =>
      refine (pipefds_spec counted' found.apart p copyout).mono ?_
      rintro _ _ ⟨done, more⟩
      refine ⟨done, only.trans more⟩

theorem Counted.setInode (counted : Counted b held s) (positive : 1 ≤ (s.file f).ref) (untyped : (s.file f).type = .none)
    (new : (b.file f).ref = 0) {file : File} (ref : file.ref = (s.file f).ref) (type : file.type ≠ .pipe) :
    Counted b held { s with file := Function.update s.file f file } := by
  have piped : ∀ g, (Function.update s.file f file g).type = .pipe ↔ (s.file g).type = .pipe ∧ g ≠ f := by
    intro g
    by_cases here : g = f
    · subst here
      simp [type]
    · simp [here]
  constructor
  · intro g
    have refs := counted.refs g
    by_cases here : g = f
    · subst here
      simp only [Function.update_self, ref]
      exact refs
    · simp only [Function.update_of_ne here]
      exact refs
  · intro g zero
    have other : g ≠ f := by
      rintro rfl
      simp only [Function.update_self] at zero
      omega
    simp only [Function.update_of_ne other] at zero ⊢
    exact counted.unused g zero
  · intro g g' type type' equal writable
    obtain ⟨type, other⟩ := (piped g).mp type
    obtain ⟨type', other'⟩ := (piped g').mp type'
    simp only [Function.update_of_ne other, Function.update_of_ne other'] at equal writable
    exact counted.ends g g' type type' equal writable
  · intro pi w
    rw [counted.pipes pi w]
    refine exists_congr fun g => ?_
    by_cases here : g = f
    · subst here
      simp [type, untyped]
    · simp [here]
  · intro g old
    have other : g ≠ f := by
      rintro rfl
      omega
    simp only [Function.update_of_ne other]
    exact counted.kept g old

theorem sysOpen_spec (counted : Counted s 0 s) (p : Slot) (found : Option Inode) (wronly rdwr : Bool) :
    wp NoPanic (sysOpen p found wronly rdwr) (fun _ t => Counted s 0 t ∧ Only p s t) s := by
  cases found with
  | none => exact ⟨counted, only_of_eq rfl⟩
  | some inode =>
    simp only [sysOpen]
    split
    · exact ⟨counted, only_of_eq rfl⟩
    simp only [wp_bind]
    refine (filealloc_spec counted fun _ free => free).mono fun r t found => ?_
    cases r with
    | none =>
      obtain rfl := found
      exact ⟨counted, only_of_eq rfl⟩
    | some f =>
      obtain ⟨counted0, same, _, untyped, new, _⟩ := found
      rw [zero_add] at counted0
      have positive := counted0.ref_pos (f := f) (by simp)
      simp only [wp_bind]
      refine (fdalloc_spec counted0).mono fun r t' found => ?_
      cases r with
      | none =>
        obtain rfl := found
        simp only [wp_bind]
        refine (fileclose_spec counted0 positive).mono ?_
        rintro _ t ⟨done, same'⟩
        exact ⟨by simpa using done, only_of_eq (same'.trans same)⟩
      | some fd =>
        obtain ⟨counted1, _, rfl⟩ := found
        simp only [setFile, wp_bind, wp_get, wp_modify, wp_pure]
        rw [sub_self] at counted1
        refine ⟨counted1.setInode positive untyped new rfl ?_, only_update same (some f)⟩
        cases inode.device <;> simp

theorem dupFiles_spec {np : Slot} (rest : List (Fin NOFILE)) (counted : Counted b 0 s)
    (empty : ∀ fd ∈ rest, s.ofile (np, fd) = none) (distinct : rest.Nodup) :
    wp NoPanic (dupFiles p np rest) (fun _ t => Counted b 0 t ∧ ∀ q, q ≠ np → ∀ fd, t.ofile (q, fd) = s.ofile (q, fd)) s := by
  induction rest generalizing s with
  | nil => exact ⟨counted, fun _ _ _ => rfl⟩
  | cons fd rest ih =>
    obtain ⟨first, distinct⟩ := List.nodup_cons.mp distinct
    simp only [dupFiles, wp_bind, wp_get]
    split
    · exact ih counted (fun fd member => empty fd (List.mem_cons_of_mem _ member)) distinct
    · rename_i f here
      simp only [wp_bind]
      refine (filedup_spec counted (counted.ref_pos_of_ofile here le_rfl)).mono ?_
      rintro _ t ⟨counted', same⟩
      have free : t.ofile (np, fd) = none := by
        rw [same]
        exact empty fd List.mem_cons_self
      refine (setOfile_some_spec counted' free f).mono ?_
      rintro _ t' ⟨counted'', equal⟩
      rw [zero_add, sub_self] at counted''
      have kept : ∀ x, x ≠ (np, fd) → t'.ofile x = s.ofile x := by
        intro x other
        rw [equal]
        simp only [Function.update_of_ne other, same]
      refine (ih counted'' (fun fd' member => ?_) distinct).mono fun _ t'' got => ⟨got.1, fun q other fd' => ?_⟩
      · rw [kept _ (fun same => first ((Prod.mk.inj same).2 ▸ member))]
        exact empty fd' (List.mem_cons_of_mem _ member)
      · rw [got.2 q other fd', kept _ fun same => other (Prod.mk.inj same).1]

theorem closeFiles_spec (p : Slot) (rest : List (Fin NOFILE)) (counted : Counted b 0 s) :
    wp NoPanic (closeFiles p rest) (fun _ t => Counted b 0 t ∧ (∀ fd ∈ rest, t.ofile (p, fd) = none) ∧
      (∀ q, q ≠ p → ∀ fd, t.ofile (q, fd) = s.ofile (q, fd)) ∧
      ∀ fd, s.ofile (p, fd) = none → t.ofile (p, fd) = none) s := by
  induction rest generalizing s with
  | nil => exact ⟨counted, by simp, fun _ _ _ => rfl, fun _ none => none⟩
  | cons fd rest ih =>
    simp only [closeFiles, wp_bind, wp_get]
    split
    · rename_i none
      simp only [wp_bind, wp_pure]
      refine (ih counted).mono ?_
      rintro _ t ⟨done, closed, others, kept⟩
      refine ⟨done, fun fd' member => ?_, others, kept⟩
      rcases List.mem_cons.mp member with rfl | member
      · exact kept _ none
      · exact closed fd' member
    · rename_i f here
      simp only [wp_bind, wp_pure]
      refine (fileclose_spec counted (counted.ref_pos_of_ofile here le_rfl)).mono ?_
      rintro _ t ⟨counted', same⟩
      have here' : t.ofile (p, fd) = some f := by rw [same]; exact here
      refine (setOfile_none_spec counted' here').mono ?_
      rintro _ t' ⟨counted'', equal⟩
      rw [zero_sub, neg_add_cancel] at counted''
      have now : t'.ofile (p, fd) = none := by rw [equal]; exact Function.update_self _ _ _
      have before : ∀ x, x ≠ (p, fd) → t'.ofile x = s.ofile x := by
        intro x other
        rw [equal]
        simp only [Function.update_of_ne other, same]
      refine (ih counted'').mono ?_
      rintro _ t'' ⟨done, closed, others, kept⟩
      refine ⟨done, fun fd' member => ?_, fun q other fd' => ?_, fun fd' none => ?_⟩
      · rcases List.mem_cons.mp member with rfl | member
        · exact kept _ now
        · exact closed fd' member
      · rw [others q other fd', before _ fun same => other (Prod.mk.inj same).1]
      · by_cases this : fd' = fd
        · subst this
          exact kept _ now
        · exact kept _ (by rw [before _ fun same => this (Prod.mk.inj same).2]; exact none)

/-! ## Processes -/

theorem count_eq_card (s : Table) (f : Fin NFILE) :
    s.count f = (Finset.univ.filter fun slot : Slot × Fin NOFILE => s.ofile slot = some f).card := by
  rw [Table.count, weigh, Finset.card_filter]

theorem exists_of_count (counted : s.count f ≠ 0) : ∃ slot, s.ofile slot = some f := by
  by_contra none
  rw [not_exists] at none
  exact counted (by simp [Table.count, weigh, none])

structure Since (b : Table) (s : State) : Prop where
  counted : Counted b 0 s.files
  closed : ∀ p, ¬ s.live p → ∀ fd, s.files.ofile (p, fd) = none

abbrev Inv (s : State) : Prop := Since s.files s

theorem Since.inv {s : State} (since : Since b s) : Inv s := ⟨since.counted.rebase, since.closed⟩

theorem allocproc_unused {s : State} {np : Slot} (found : allocproc s = some np) : s.proc np = .unused := by
  simpa using List.find?_some found

theorem Inv.files {s : State} {p : Slot} {α : Type} {x : FileM α} (inv : Inv s) (live : s.live p)
    (spec : wp NoPanic x (fun _ t => Counted s.files 0 t ∧ Only p s.files t) s.files) :
    ∃ a t, x.run s.files = .ok (a, t) ∧ Since s.files { s with files := t } := by
  cases result : x.run s.files with
  | error e => exact (spec.of_error result).elim
  | ok out =>
    obtain ⟨a, t⟩ := out
    obtain ⟨counted, only⟩ := spec.of_ok result
    refine ⟨a, t, rfl, counted, fun q dead fd => ?_⟩
    have other : q ≠ p := by
      rintro rfl
      exact dead live
    rw [only q other fd]
    exact inv.closed q dead fd

theorem Inv.fork {s : State} (inv : Inv s) (p : Slot) (succeeds : Bool) :
    ∃ t, fork s p succeeds = .ok t ∧ Since s.files t := by
  unfold Files.fork
  cases found : allocproc s with
  | none => exact ⟨s, rfl, inv⟩
  | some np =>
    cases succeeds with
    | false => exact ⟨s, rfl, inv⟩
    | true =>
      have unused := allocproc_unused found
      have empty : ∀ fd, s.files.ofile (np, fd) = none := inv.closed np fun here => here.1 unused
      have spec := dupFiles_spec (p := p) (List.finRange NOFILE) inv.counted (fun fd _ => empty fd)
        (List.nodup_finRange NOFILE)
      cases result : (dupFiles p np (List.finRange NOFILE)).run s.files with
      | error e => exact (spec.of_error result).elim
      | ok out =>
        obtain ⟨counted, others⟩ := spec.of_ok result
        refine ⟨⟨out.2, Function.update s.proc np .runnable⟩, by simp [result], counted, fun q dead fd => ?_⟩
        have other : q ≠ np := by
          rintro rfl
          exact dead (by simp [State.live])
        rw [others q other fd]
        exact inv.closed q (by simpa [State.live, other] using dead) fd

theorem Inv.exit {s : State} (inv : Inv s) (p : Slot) :
    (∃ t, exit s p = .ok t ∧ Since s.files t) ∨ exit s p = .error .initExiting := by
  unfold Files.exit
  split
  · exact .inr rfl
  · have spec := closeFiles_spec p (List.finRange NOFILE) inv.counted
    left
    cases result : (closeFiles p (List.finRange NOFILE)).run s.files with
    | error e => exact (spec.of_error result).elim
    | ok out =>
      obtain ⟨counted, closed, others, _⟩ := spec.of_ok result
      refine ⟨⟨out.2, Function.update s.proc p .zombie⟩, by simp, counted, fun q dead fd => ?_⟩
      by_cases same : q = p
      · subst same
        exact closed fd (List.mem_finRange fd)
      · rw [others q same fd]
        exact inv.closed q (by simpa [State.live, same] using dead) fd

theorem Inv.wait {s : State} (inv : Inv s) (child : Slot) : Since s.files (wait s child) := by
  unfold Files.wait
  split
  · rename_i zombie
    refine ⟨inv.counted, fun q dead fd => ?_⟩
    by_cases same : q = child
    · subst same
      exact inv.closed q (by simp [State.live, zombie]) fd
    · exact inv.closed q (by simpa [State.live, same] using dead) fd
  · exact inv

theorem Inv.call {s : State} {p : Slot} {c : Call} (inv : Inv s) (live : s.live p) (fresh : c.Fresh s) :
    (∃ t, call s p c = .ok t ∧ Since s.files t) ∨ call s p c = .error .initExiting := by
  cases c with
  | openFile found wronly rdwr =>
    obtain ⟨_, t, result, done⟩ := inv.files live (sysOpen_spec inv.counted p found wronly rdwr)
    exact .inl ⟨_, by simp [Files.call, result], done⟩
  | dup fd =>
    obtain ⟨_, t, result, done⟩ := inv.files live (sysDup_spec inv.counted p fd)
    exact .inl ⟨_, by simp [Files.call, result], done⟩
  | close fd =>
    obtain ⟨_, t, result, done⟩ := inv.files live (sysClose_spec inv.counted p fd)
    exact .inl ⟨_, by simp [Files.call, result], done⟩
  | pipe page copyout =>
    have unused : ∀ pi, page = some pi → ¬ s.files.InUse pi := by
      rintro pi rfl
      exact fresh
    obtain ⟨_, t, result, done⟩ := inv.files live (sysPipe_spec inv.counted p page copyout unused)
    exact .inl ⟨_, by simp [Files.call, result], done⟩
  | fork succeeds => exact .inl (inv.fork p succeeds)
  | exit => exact inv.exit p
  | wait child => exact .inl ⟨_, rfl, inv.wait child⟩

theorem Inv.step {s t : State} {label : Slot × Call} (inv : Inv s) (step : system.step s label = some t) :
    Since s.files t := by
  simp only [system, perform] at step
  split at step
  · rename_i allowed
    rcases inv.call allowed.1 allowed.2 with ⟨t', result, since⟩ | failed
    · simp only [result, Option.bind_some, Except.toOption, Option.some.injEq] at step
      exact step ▸ since
    · simp [failed, Except.toOption] at step
  · simp at step

theorem inv_start : Inv start where
  counted :=
    { refs := fun f => by simp [start, Table.count, weigh]
      unused := fun f _ => rfl
      ends := fun f g type => by cases type
      pipes := fun pi w => by cases w <;> simp [start, Pipe.isOpen]
      kept := fun f _ => .inr rfl }
  closed := fun p _ fd => rfl

theorem inv_of_reachable {s : State} (reached : system.Reachable s) : Inv s :=
  System.Reachable.invariant Inv inv_start (fun _ _ _ _ inv step => (inv.step step).inv) reached

theorem Inv.notReused {s t : State} {label : Slot × Call} {slot : Slot × Fin NOFILE} {f : Fin NFILE} (inv : Inv s)
    (step : system.step s label = some t) (before : s.files.ofile slot = some f) (after : t.files.ofile slot = some f) :
    t.files.file f = { s.files.file f with ref := (t.files.file f).ref } := by
  have since := inv.step step
  have positive := inv.counted.ref_pos_of_ofile before le_rfl
  have positive' := since.counted.ref_pos_of_ofile after le_rfl
  exact (since.counted.kept f positive).resolve_left (by omega)

theorem Inv.isOpen_iff {s : State} (inv : Inv s) (pi : ℕ) (w : Bool) : (s.files.pipe pi).isOpen w = true ↔
    ∃ slot f, s.files.ofile slot = some f ∧ (s.files.file f).type = .pipe ∧ (s.files.file f).pipe = pi ∧
      (s.files.file f).writable = w := by
  rw [inv.counted.pipes pi w]
  constructor
  · rintro ⟨f, type, pipe, writable⟩
    have positive : (s.files.file f).ref ≠ 0 := fun zero => by
      rw [inv.counted.unused f zero] at type
      cases type
    have refs := inv.counted.refs f
    rw [Pi.zero_apply, add_zero, Nat.cast_inj] at refs
    rw [refs] at positive
    obtain ⟨slot, here⟩ := exists_of_count positive
    exact ⟨slot, f, here, type, pipe, writable⟩
  · rintro ⟨_, f, _, type, pipe, writable⟩
    exact ⟨f, type, pipe, writable⟩

/-- In every reachable state the reference counts are the numbers of descriptors, and so no call panics over them,
a pipe is open at an end exactly while a descriptor for the end is, and a file is only handed out unused. -/
theorem file_refs_exact {s : State} (reached : system.Reachable s) :
    (∀ f, (s.files.file f).ref = (Finset.univ.filter fun slot => s.files.ofile slot = some f).card) ∧
    (∀ f, (s.files.file f).ref = 0 → (s.files.file f).type = .none) ∧
    (∀ label panic, perform s label = some (.error panic) → panic = .initExiting) ∧
    (∀ pi w, (s.files.pipe pi).isOpen w = true ↔ ∃ slot f, s.files.ofile slot = some f ∧
      (s.files.file f).type = .pipe ∧ (s.files.file f).pipe = pi ∧ (s.files.file f).writable = w) ∧
    ∀ label t, system.step s label = some t → ∀ slot f, s.files.ofile slot = some f → t.files.ofile slot = some f →
      t.files.file f = { s.files.file f with ref := (t.files.file f).ref } := by
  have inv := inv_of_reachable reached
  refine ⟨fun f => ?_, inv.counted.unused, fun label panic result => ?_, inv.isOpen_iff,
    fun label t step slot f before after => inv.notReused step before after⟩
  · have refs := inv.counted.refs f
    rwa [count_eq_card, Pi.zero_apply, add_zero, Nat.cast_inj] at refs
  · simp only [perform] at result
    split at result
    · rename_i allowed
      rcases inv.call allowed.1 allowed.2 with ⟨t, done, _⟩ | failed
      · simp [done] at result
      · simpa [failed] using result.symm
    · cases result

def shared : List (Slot × Call) := [(0, .pipe (some 5) true), (0, .fork true), (1, .close 0)]

theorem file_refs_exact_shared : ∃ s, system.Reachable s ∧ (s.files.file 0).ref = 1 ∧ (s.files.file 1).ref = 2 ∧
    (s.files.file 0).ref = (Finset.univ.filter fun slot => s.files.ofile slot = some 0).card := by
  have checked : (system.run start shared).map (fun s => ((s.files.file 0).ref, (s.files.file 1).ref)) = some (1, 2) := by
    decide +kernel
  obtain ⟨s, result, refs⟩ := Option.map_eq_some_iff.mp checked
  have reached : system.Reachable s := System.Reachable.run .initial result
  obtain ⟨first, second⟩ := Prod.mk.inj refs
  exact ⟨s, reached, first, second, (file_refs_exact reached).1 0⟩

end OsProjects.Files

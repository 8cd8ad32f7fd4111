import Mathlib.Data.List.DropRight
import Mathlib.Data.List.TakeWhile
import OsProjects.Directories.Lookup

namespace OsProjects.Directories
open Hoare Volume
open Inodes (Dinode Entry Kind)

/-! ## The elements of a path -/

def components (path : List UInt8) : List (List UInt8) := (path.splitOn slash).filter (· ≠ [])

def names (path : List UInt8) : List (List UInt8) := (components path).map (·.take DIRSIZ)

/-- `skipelem` with the buffer into which it writes the name: the path after the element and the buffer. -/
def skipelemInto (path name : List UInt8) : Option (List UInt8 × List UInt8) :=
  let path := path.dropWhile (· = slash)
  if path = [] then none
  else
    let s := path.takeWhile (· ≠ slash)
    some ((path.dropWhile (· ≠ slash)).dropWhile (· = slash),
      if DIRSIZ ≤ s.length then s.take DIRSIZ ++ name.drop DIRSIZ else s ++ 0 :: name.drop (s.length + 1))

def elements : ℕ → List UInt8 → List UInt8 → Option (List (List UInt8))
  | 0, _, _ => none
  | fuel + 1, path, name =>
    match skipelemInto path name with
    | none => some []
    | some (rest, name) => (elements fuel rest name).map (name :: ·)

def Holds (elem name : List UInt8) : Prop := if DIRSIZ ≤ elem.length then elem.take DIRSIZ <+: name else elem ++ [0] <+: name

theorem components_slash (path : List UInt8) : components (slash :: path) = components path := by
  rw [components, components, List.splitOn, List.splitOn, List.splitOnP_cons_eq_if_modifyHead, if_pos (by simp)]
  rfl

theorem components_dropWhile (path : List UInt8) : components (path.dropWhile (· = slash)) = components path := by
  induction path with
  | nil => rfl
  | cons c cs ih =>
    rw [List.dropWhile_cons]
    split
    · rename_i first
      rw [ih, of_decide_eq_true first, components_slash]
    · rfl

theorem components_append {elem rest : List UInt8} (plain : ∀ c ∈ elem, c ≠ slash) (some : elem ≠ [])
    (ends : ∀ c ∈ rest.head?, c = slash) : components (elem ++ rest) = elem :: components rest := by
  have other : ∀ c ∈ elem, (c == slash) = false := fun c mem => by simpa using plain c mem
  cases rest with
  | nil =>
    rw [List.append_nil, components, List.splitOn, List.splitOnP_eq_singleton other, List.filter_cons, if_pos (by simpa using some)]
    rfl
  | cons c cs =>
    rw [ends c rfl, components_slash, components, List.splitOn, List.splitOnP_append_cons_of_forall_mem other slash (by simp),
      List.filter_cons, if_pos (by simpa using some)]
    rfl

theorem components_eq (path : List UInt8) : components path =
    if path.dropWhile (· = slash) = [] then [] else
      (path.dropWhile (· = slash)).takeWhile (· ≠ slash) ::
        components (((path.dropWhile (· = slash)).dropWhile (· ≠ slash)).dropWhile (· = slash)) := by
  rw [components_dropWhile, ← components_dropWhile path]
  have head := List.head?_dropWhile_not (fun c => decide (c = slash)) path
  generalize path.dropWhile (· = slash) = p at *
  split
  · rename_i empty
    rw [empty]
    rfl
  · rename_i some
    conv => lhs; rw [← List.takeWhile_append_dropWhile (p := fun c => decide (c ≠ slash)) (l := p)]
    refine components_append (fun c mem => by simpa using List.mem_takeWhile_imp mem) ?_ fun c mem => ?_
    · cases p with
      | nil => exact absurd rfl some
      | cons c cs =>
        have first : c ≠ slash := by simpa using head
        rw [List.takeWhile_cons, if_pos (by simpa using first)]
        exact List.cons_ne_nil _ _
    · have stop := List.head?_dropWhile_not (fun c => decide (c ≠ slash)) p
      rw [Option.mem_def.mp mem] at stop
      simpa using stop

variable {path : List UInt8}

theorem names_of_skipelem_none (none : skipelem path = none) : names path = [] := by
  unfold skipelem at none
  rw [names, components_eq, if_pos (by simpa using none)]
  rfl

theorem names_of_skipelem {name rest : List UInt8} (found : skipelem path = some (name, rest)) :
    names path = name :: names rest ∧ (rest = [] ↔ names rest = []) := by
  unfold skipelem at found
  obtain ⟨some, equal⟩ := Option.ite_none_left_eq_some.mp found
  obtain ⟨rfl, rfl⟩ := Prod.mk.inj (Option.some.inj equal)
  refine ⟨by rw [names, components_eq, if_neg some]; rfl, ?_⟩
  generalize (path.dropWhile (· = slash)).dropWhile (· ≠ slash) = tail
  rw [names, List.map_eq_nil_iff, components_eq]
  have twice : (tail.dropWhile (· = slash)).dropWhile (· = slash) = tail.dropWhile (· = slash) := List.dropWhile_idempotent _ _
  rw [twice]
  split
  · rename_i empty
    simp [empty]
  · rename_i some
    simp [some]

theorem skipelemInto_spec {name rest name' : List UInt8} (found : skipelemInto path name = some (rest, name')) :
    rest.length < path.length ∧ ∃ elem, components path = elem :: components rest ∧ Holds elem name' := by
  unfold skipelemInto at found
  obtain ⟨some, equal⟩ := Option.ite_none_left_eq_some.mp found
  obtain ⟨rfl, rfl⟩ := Prod.mk.inj (Option.some.inj equal)
  refine ⟨length_skipelem (if_neg some), _, by rw [components_eq, if_neg some], ?_⟩
  unfold Holds
  split
  · exact List.prefix_append _ _
  · exact ⟨_, List.append_assoc _ _ _⟩

theorem skipelemInto_cstr (name : List UInt8) (terminated : 0 ∉ path) :
    (skipelemInto path name).map (fun (rest, name') => (cstr name', rest)) = skipelem path := by
  simp only [skipelemInto, skipelem]
  have suffix := List.dropWhile_suffix (fun c => decide (c = slash)) (l := path)
  generalize path.dropWhile (· = slash) = p at *
  have nonzero : ∀ c ∈ p.takeWhile (· ≠ slash), c ≠ 0 := by
    intro c mem zero
    exact terminated (zero ▸ suffix.subset ((List.takeWhile_prefix _).subset mem))
  generalize p.takeWhile (· ≠ slash) = elem at *
  split
  · rfl
  · rw [Option.map_some, Option.some.injEq, Prod.mk.injEq, and_iff_left rfl]
    by_cases long : DIRSIZ ≤ elem.length
    · rw [if_pos long, cstr, List.take_append_of_le_length (by rw [List.length_take]; omega), List.take_take, Nat.min_self,
        List.takeWhile_eq_self_iff]
      exact fun c mem => by simpa using nonzero c (List.mem_of_mem_take mem)
    · have pos : DIRSIZ - elem.length = (DIRSIZ - elem.length - 1) + 1 := by omega
      rw [if_neg long, cstr, List.take_append, List.take_of_length_le (by omega), pos, List.take_succ_cons,
        List.takeWhile_append_of_pos (fun c mem => by simpa using nonzero c mem), List.takeWhile_cons_of_neg (by simp), List.append_nil]

theorem elements_spec {fuel : ℕ} (enough : path.length < fuel) (name : List UInt8) :
    ∃ found, elements fuel path name = some found ∧ List.Forall₂ Holds (components path) found := by
  induction fuel generalizing path name with
  | zero => omega
  | succ fuel ih =>
    rw [elements]
    cases elem : skipelemInto path name with
    | none =>
      refine ⟨[], rfl, ?_⟩
      unfold skipelemInto at elem
      rw [components_eq, if_pos (by simpa using elem)]
      exact .nil
    | some pair =>
      obtain ⟨rest, name'⟩ := pair
      obtain ⟨shorter, first, split, holds⟩ := skipelemInto_spec elem
      obtain ⟨found, equal, others⟩ := ih (show rest.length < fuel by omega) name'
      exact ⟨name' :: found, congrArg (Option.map (name' :: ·)) equal, split ▸ .cons holds others⟩

/-! ## Following the elements -/

def resolve (v : ℕ → Node) : ℕ → List (List UInt8) → Option ℕ := List.foldlM (find v)

def resolveParent (v : ℕ → Node) (k : ℕ) (names : List (List UInt8)) : Option (ℕ × List UInt8) := do
  let name ← names.getLast?
  let d ← resolve v k names.dropLast
  if (v d).type = Kind.dir.type then some (d, name) else none

/-- The names that are looked up. -/
def way (nameiparent : Bool) (names : List (List UInt8)) : List (List UInt8) := if nameiparent then names.dropLast else names

def goal (v : ℕ → Node) (nameiparent : Bool) (k : ℕ) (names : List (List UInt8)) : Option (ℕ × List UInt8) :=
  if nameiparent then resolveParent v k names else (resolve v k names).map (·, [])

section
variable {v : ℕ → Node} {k : ℕ} {nameiparent : Bool} {name : List UInt8} {rest : List (List UInt8)}

theorem goal_cons (more : nameiparent = false ∨ rest ≠ []) :
    goal v nameiparent k (name :: rest) = (find v k name).bind fun next => goal v nameiparent next rest := by
  cases nameiparent with
  | false =>
    simp only [goal, Bool.false_eq_true, if_false, resolve, List.foldlM_cons]
    cases find v k name <;> rfl
  | true =>
    have some : rest ≠ [] := more.resolve_left (by simp)
    simp only [goal, if_true, resolveParent, List.getLast?_cons_of_ne_nil some, List.dropLast_cons_of_ne_nil some, resolve,
      List.foldlM_cons]
    cases find v k name <;> cases rest.getLast? <;> rfl

theorem way_cons (more : nameiparent = false ∨ rest ≠ []) : way nameiparent (name :: rest) = name :: way nameiparent rest := by
  cases nameiparent with
  | false => rfl
  | true => exact List.dropLast_cons_of_ne_nil (more.resolve_left (by simp))

theorem resolve_cons {next : ℕ} (found : find v k name = some next) : resolve v k (name :: rest) = resolve v next rest := by
  rw [resolve, List.foldlM_cons, found]
  rfl

theorem goal_last : goal v true k [name] = if (v k).type = Kind.dir.type then some (k, name) else none := rfl

theorem goal_of_not_dir (other : (v k).type ≠ Kind.dir.type) : goal v nameiparent k (name :: rest) = none := by
  by_cases more : nameiparent = false ∨ rest ≠ []
  · rw [goal_cons more, find, if_neg other]
    rfl
  · simp only [not_or, Bool.not_eq_false, not_not] at more
    obtain ⟨rfl, rfl⟩ := more
    rw [goal_last, if_neg other]

end

variable {sb : Superblock} {base : Entry → ℕ} {l : List Entry} {s : Fs} {E : Panic → Prop}

/-- A disk with a tree: a directory has whole entries, and an inode with a name is in use and has links. -/
structure Tree (sb : Superblock) (disk : Disk) : Prop where
  whole : ∀ k < sb.ninodes.toNat, (disk.dinode k).type = Kind.dir.type → ENTRY ∣ (disk.dinode k).size.toNat
  named : ∀ k, ∀ de ∈ (node sb disk k).dirents, de.inum ≠ 0 →
    (node sb disk de.inum.toNat).type ≠ 0 ∧ (node sb disk de.inum.toNat).nlink ≠ 0
  root : (node sb disk ROOTINO).type ≠ 0 ∧ (node sb disk ROOTINO).nlink ≠ 0

structure Reached (sb : Superblock) (base : Entry → ℕ) (s : Fs) (goal : Option (ℕ × List UInt8)) (r : Option (Entry × List UInt8))
    (s' : Fs) : Prop where
  disk : s'.disk = s.disk
  keeps : Keeps base [] s s'
  goal : r.map (fun (ip, name) => ((s'.table ip).inum, name)) = goal
  held : Held sb base (r.map Prod.fst).toList s'

/-- Every entry is in use for another inode, but for one that may be free. -/
def Occupied (base : Entry → ℕ) (s : Fs) (n : ℕ) : Prop := ∃ held, ∀ e, 0 < base e ∧ (s.table e).inum ≠ n ∨ e = held ∧ base e = 0

theorem Occupied.keeps {s' : Fs} {n : ℕ} (occupied : Occupied base s' n) (keeps : Keeps base [] s s') : Occupied base s n := by
  obtain ⟨held, entries⟩ := occupied
  refine ⟨held, fun e => (entries e).imp_left fun ⟨used, other⟩ => ⟨used, ?_⟩⟩
  rwa [(keeps e (Nat.lt_add_right _ used)).1] at other

/-- With the reference to `ip` every entry is in use. -/
theorem occupied_of_held {ip : Entry} {n : ℕ} (entries : ∀ e, 0 < base e + [ip].count e ∧ (s.table e).inum ≠ n) : Occupied base s n := by
  refine ⟨ip, fun e => ?_⟩
  obtain ⟨used, other⟩ := entries e
  rcases Nat.eq_zero_or_pos (base e) with zero | pos
  · rw [zero, Nat.zero_add, List.count_pos_iff, List.mem_singleton] at used
    exact .inr ⟨used, zero⟩
  · exact .inl ⟨pos, other⟩

theorem iput_kept {e : Entry} (held : Held sb base (e :: l) s)
    (kept : base e + l.count e = 0 → (node sb s.disk (s.table e).inum).nlink ≠ 0) :
    wp E (iput e) (fun _ s' => Held sb base l s' ∧ Keeps base l s s' ∧ s'.disk = s.disk) s := by
  refine (iput_spec held).mono fun _ s' ⟨held', keeps, freed⟩ => ⟨held', keeps, ?_⟩
  refine freed.resolve_right fun ⟨last, _, nlink, _⟩ => kept last ?_
  rw [node_of_lt (held.known e (held.ref_pos List.mem_cons_self))]
  exact nlink

theorem namexLoop_reached (nameiparent : Bool) {fuel : ℕ} {ip : Entry} (enough : path.length < fuel)
    (tree : Tree sb s.disk) (held : Held sb base [ip] s) (live : (node sb s.disk (s.table ip).inum).type ≠ 0)
    (kept : base ip = 0 → (node sb s.disk (s.table ip).inum).nlink ≠ 0)
    (full : ∀ front n, front ≠ [] → front <+: way nameiparent (names path) →
      resolve (node sb s.disk) (s.table ip).inum front = some n → Occupied base s n → E .igetNoInodes) :
    wp E (namexLoop sb nameiparent fuel ip path)
      (Reached sb base s (goal (node sb s.disk) nameiparent (s.table ip).inum (names path))) s := by
  induction fuel generalizing ip path s with
  | zero => omega
  | succ fuel ih =>
    rw [namexLoop]
    cases elem : skipelem path with
    | none =>
      rw [names_of_skipelem_none elem]
      simp only [wp_ite, wp_bind]
      refine ⟨fun parent => ?_, fun stop => ?_⟩
      · refine (iput_kept held kept).mono ?_
        rintro _ t ⟨held', keeps, disk⟩
        refine ⟨disk, keeps, ?_, held'⟩
        rw [parent]
        rfl
      · refine ⟨rfl, .refl, ?_, held⟩
        rw [Bool.eq_false_iff.mpr stop]
        rfl
    | some pair =>
      obtain ⟨name, rest⟩ := pair
      have shorter := length_skipelem elem
      obtain ⟨split, empty⟩ := names_of_skipelem elem
      have mem : ip ∈ [ip] := List.mem_cons_self
      have known := held.known ip (held.ref_pos mem)
      rw [split] at full ⊢
      simp only [wp_bind]
      refine (ilock_spec held mem fun free => ?_).mono fun _ t locked => ?_
      · rw [node_of_lt known] at live
        exact absurd free live
      obtain ⟨disk, held₁, keeps₁, valid, number⟩ := locked
      have synced := (held₁.synced ip (held₁.ref_pos mem) valid).2
      have type : (t.table ip).d.type = (node sb s.disk (s.table ip).inum).type := by
        rw [node_of_lt known, synced, disk, number]
      have kept₁ : base ip = 0 → (node sb t.disk (t.table ip).inum).nlink ≠ 0 := by rwa [disk, number]
      simp only [wp_get, wp_ite, wp_bind]
      refine ⟨fun notDir => ?_, fun dir => ⟨fun last => ?_, fun more => ?_⟩⟩
      · rw [type] at notDir
        refine (iput_kept held₁ kept₁).mono ?_
        rintro _ u ⟨held₂, keeps₂, disk₂⟩
        exact ⟨disk₂.trans disk, keeps₁.of_cons.trans keeps₂, (goal_of_not_dir notDir).symm, held₂⟩
      · rw [not_not, type] at dir
        obtain ⟨parent, none⟩ := last
        refine ⟨disk, keeps₁.of_cons, ?_, held₁⟩
        rw [parent, empty.mp none, goal_last, if_pos dir, ← number]
        rfl
      · rw [not_not, type] at dir
        have more' : nameiparent = false ∨ names rest ≠ [] := by
          rw [not_and_or, Bool.not_eq_true, empty] at more
          exact more
        rw [goal_cons more']
        have aligned : ENTRY ∣ (t.table ip).d.size.toNat := by
          rw [synced, disk, number]
          rw [node_of_lt known] at dir
          exact tree.whole _ known dir
        rw [way_cons more'] at full
        refine (dirlookup_spec held₁ mem valid name (absurd (type.trans dir)) (absurd aligned) fun inum found entries => ?_).mono ?_
        · rw [disk, number] at found
          exact full [name] inum (by simp) (by simp) (resolve_cons found) ((occupied_of_held entries).keeps keeps₁.of_cons)
        rintro r u ⟨disk₂, got⟩
        rw [disk, number] at got
        rcases got with ⟨rfl, same, missing⟩ | ⟨next, off, de, member, used, rfl, found, number₂, held₂, keeps₂⟩
        · subst same
          rw [missing]
          simp only [wp_bind]
          refine (iput_kept held₁ kept₁).mono ?_
          rintro _ v ⟨held₂, keeps₂, disk₂⟩
          exact ⟨disk₂.trans disk, keeps₁.of_cons.trans keeps₂, rfl, held₂⟩
        · rw [found]
          have kept₂ : base ip + [next].count ip = 0 → (node sb u.disk (u.table ip).inum).nlink ≠ 0 := by
            rw [disk₂, (keeps₂ ip (by simp)).1]
            exact fun last => kept₁ (Nat.eq_zero_of_add_eq_zero_right last)
          simp only [wp_bind]
          refine (iput_kept held₂.swap kept₂).mono ?_
          rintro _ v ⟨held₃, keeps₃, disk₃⟩
          have same : v.disk = s.disk := disk₃.trans (disk₂.trans disk)
          have number₃ : (v.table next).inum = de.inum.toNat := (keeps₃ next (by simp)).1.trans number₂
          have keeps : Keeps base [] s v := keeps₁.of_cons.trans (keeps₂.of_cons.trans keeps₃.of_cons)
          have entry := tree.named _ de member used
          refine (ih (by omega) (same ▸ tree) held₃ ?_ (fun _ => ?_) fun front n some front_way resolved occupied => ?_).mono
            fun r w reached => ?_
          · rw [same, number₃]
            exact entry.1
          · rw [same, number₃]
            exact entry.2
          · rw [same, number₃] at resolved
            exact full (name :: front) n (by simp) (List.cons_prefix_cons.mpr ⟨rfl, front_way⟩) ((resolve_cons found).trans resolved)
              (occupied.keeps keeps)
          · rw [same, number₃] at reached
            exact ⟨reached.disk.trans same, keeps.trans reached.keeps, reached.goal, reached.held⟩

structure Ready (sb : Superblock) (s : Fs) (cwd : Entry) : Prop where
  tree : Tree sb s.disk
  held : Held sb (fun e => (s.table e).ref) [] s
  used : 0 < (s.table cwd).ref
  live : (node sb s.disk (s.table cwd).inum).type ≠ 0

def Fs.first (s : Fs) (cwd : Entry) (path : List UInt8) : ℕ := if path.head? = some slash then ROOTINO else (s.table cwd).inum

theorem Node.lt_of_type {disk : Disk} {k : ℕ} (type : (node sb disk k).type ≠ 0) : k < sb.ninodes.toNat := by
  by_contra beyond
  rw [node, if_neg beyond] at type
  exact type rfl

/-- No entry of the table is left for an inode on the way: all are in use for others, but for one that a directory on the
way may take. -/
def NoRoom (sb : Superblock) (s : Fs) (k : ℕ) (way : List (List UInt8)) : Prop :=
  ∃ front n, front <+: way ∧ resolve (node sb s.disk) k front = some n ∧ Occupied (fun e => (s.table e).ref) s n

theorem not_noRoom {a b : Entry} (other : a ≠ b) (first : (s.table a).ref = 0) (second : (s.table b).ref = 0) (k : ℕ)
    (way : List (List UInt8)) : ¬ NoRoom sb s k way := by
  rintro ⟨_, n, _, _, held, entries⟩
  have only {e : Entry} (unused : (s.table e).ref = 0) : e = held :=
    ((entries e).resolve_left fun used => Nat.ne_of_gt used.1 unused).1
  exact other ((only first).trans (only second).symm)

theorem namex_reached {cwd : Entry} (ready : Ready sb s cwd) (path : List UInt8) (nameiparent : Bool) :
    wp (fun p => p = .igetNoInodes ∧ NoRoom sb s (s.first cwd path) (way nameiparent (names path))) (namex sb cwd path nameiparent)
      (Reached sb (fun e => (s.table e).ref) s (goal (node sb s.disk) nameiparent (s.first cwd path) (names path))) s := by
  have rest {ip : Entry} {t : Fs} (disk : t.disk = s.disk) (number : (t.table ip).inum = s.first cwd path)
      (held : Held sb (fun e => (s.table e).ref) [ip] t) (keeps : Keeps (fun e => (s.table e).ref) [] s t)
      (live : (node sb s.disk (s.first cwd path)).type ≠ 0)
      (kept : (s.table ip).ref = 0 → (node sb s.disk (s.first cwd path)).nlink ≠ 0) :
      wp (fun p => p = .igetNoInodes ∧ NoRoom sb s (s.first cwd path) (way nameiparent (names path)))
        (namexLoop sb nameiparent (path.length + 1) ip path)
        (Reached sb (fun e => (s.table e).ref) s (goal (node sb s.disk) nameiparent (s.first cwd path) (names path))) t := by
    rw [← number, ← disk] at live kept
    refine (namexLoop_reached nameiparent (Nat.lt_succ_self _) (disk ▸ ready.tree) held live kept
      fun front n _ front_way resolved occupied => ?_).mono fun r u reached => ?_
    · rw [disk, number] at resolved
      exact ⟨rfl, front, n, front_way, resolved, occupied.keeps keeps⟩
    · rw [disk, number] at reached
      exact ⟨reached.disk.trans disk, keeps.trans reached.keeps, reached.goal, reached.held⟩
  simp only [namex, namexFirst, wp_bind, wp_ite]
  refine ⟨fun absolute => ?_, fun relative => ?_⟩
  · have root : s.first cwd path = ROOTINO := if_pos absolute
    refine (iget_spec ready.held (Node.lt_of_type ready.tree.root.1) fun entries => ?_).mono fun ip t got => ?_
    · exact ⟨rfl, [], ROOTINO, List.nil_prefix, congrArg some root, cwd, fun e => .inl (entries e)⟩
    · obtain ⟨disk, held, keeps, number⟩ := got
      exact rest disk (number.trans root.symm) held keeps (root ▸ ready.tree.root.1) fun _ => root ▸ ready.tree.root.2
  · have first : s.first cwd path = (s.table cwd).inum := if_neg relative
    refine (idup_spec ready.held ready.used).mono ?_
    rintro ip t ⟨same, disk, held, keeps, number⟩
    subst same
    exact rest disk (number.trans first.symm) held keeps (first ▸ ready.live) fun unused => absurd unused (Nat.ne_of_gt ready.used)

/-- A disk on which the root has an entry for the file 2, and a table that may be full. -/
def oneFile (full : Bool) : Fs where
  disk :=
    { used := fun b => b.toNat < 5
      block := fun _ i => [2, 0, 102].getD i 0
      dinode := fun k =>
        if k = ROOTINO then { Dinode.fresh .dir with nlink := 1, size := 16, addrs := fun i => if i = 0 then 4 else 0 }
        else { Dinode.fresh .file with nlink := 1 } }
  table ip := ⟨if ip = 0 then ROOTINO else ip.val + 2, if ip = 0 ∨ full then 1 else 0, false, .fresh .file⟩

theorem blockOf_oneFile (full : Bool) (k : ℕ) (p : Place) :
    blockOf (oneFile full).disk k p = if k = ROOTINO ∧ p = some 0 then 4 else 0 := by
  by_cases root : k = ROOTINO
  · subst root
    cases p with
    | none => rfl
    | some bn =>
      by_cases zero : bn = 0
      · subst zero
        rfl
      · rw [if_neg (by simpa using zero), blockOf, lookup]
        split
        · rename_i direct
          refine if_neg fun same => zero (Fin.ext ?_)
          have value : bn.val = (0 : Fin (NDIRECT + 1)).val := congrArg Fin.val same
          exact value
        · rfl
  · rw [if_neg (by simp [root])]
    exact lookup_empty (fun i => by simp [oneFile, root, Dinode.fresh]) p

theorem blocks_oneFile (full : Bool) : Blocks ⟨2000, 60, 3⟩ (oneFile full).disk := by
  have start : Superblock.dataStart ⟨2000, 60, 3⟩ = 4 := rfl
  have root {k : ℕ} {p : Place} (has : blockOf (oneFile full).disk k p ≠ 0) :
      k = ROOTINO ∧ p = some 0 ∧ blockOf (oneFile full).disk k p = 4 := by
    rw [blockOf_oneFile] at has ⊢
    split at has
    · rename_i here
      exact ⟨here.1, here.2, if_pos here⟩
    · exact absurd rfl has
  refine ⟨fun b less => ?_, fun k live => ⟨fun p has => ?_, fun p has => ?_, fun p q has same => ?_, fun bn below => ?_, ?_⟩,
    fun k k' p q _ _ has same => ?_, fun b low high used => ?_⟩
  · rw [start] at less
    exact decide_eq_true (by omega)
  · change (oneFile full).disk.used (blockOf (oneFile full).disk k p) = true
    rw [(root has).2.2]
    rfl
  · change _ ≤ (blockOf (oneFile full).disk k p).toNat ∧ (blockOf (oneFile full).disk k p).toNat < _
    rw [(root has).2.2]
    decide
  · rw [(root has).2.1, (root (k := k) (p := q) fun zero => has (same.trans zero)).2.1]
  · change blockOf (oneFile full).disk k (some bn) ≠ 0
    by_cases this : k = ROOTINO
    · subst this
      have zero : bn = 0 := by
        change bn.val * 1024 < 16 at below
        exact Fin.ext (by simp only [Fin.val_zero]; omega)
      rw [blockOf_oneFile, if_pos ⟨rfl, by rw [zero]⟩]
      decide
    · simp [oneFile, this, Dinode.fresh] at below
  · by_cases this : k = ROOTINO
    · subst this
      change 16 ≤ _
      decide
    · simp [oneFile, this, Dinode.fresh]
  · rw [(root has).1, (root (same ▸ has : blockOf (oneFile full).disk k' q ≠ 0)).1]
  · rw [start] at low
    have below : b.toNat < 5 := of_decide_eq_true used
    have four : b = 4 := BitVec.eq_of_toNat_eq (show b.toNat = 4 by omega)
    refine ⟨ROOTINO, some 0, ⟨by decide, show Kind.dir.type ≠ 0 by decide⟩, ?_⟩
    rw [blockOf_oneFile, if_pos ⟨rfl, rfl⟩, four]

theorem node_oneFile (full : Bool) {k : ℕ} (less : k < 60) : node ⟨2000, 60, 3⟩ (oneFile full).disk k =
    if k = ROOTINO then ⟨Kind.dir.type, 1, [⟨2, 102 :: List.replicate 13 0⟩]⟩ else ⟨Kind.file.type, 1, []⟩ := by
  rw [node_of_lt (show k < 60 from less)]
  by_cases this : k = ROOTINO
  · subst this
    have entries : dirents (oneFile full).disk ((oneFile full).disk.dinode ROOTINO) = [⟨2, 102 :: List.replicate 13 0⟩] := by
      cases full <;> decide +kernel
    rw [entries]
    rfl
  · rw [if_neg this]
    simp [oneFile, this, Dinode.fresh, Kind.type]

theorem ready_oneFile (full : Bool) : Ready ⟨2000, 60, 3⟩ (oneFile full) 0 := by
  have entry {k : ℕ} {de : Dirent} (mem : de ∈ (node ⟨2000, 60, 3⟩ (oneFile full).disk k).dirents) : de.inum = 2 := by
    by_cases less : k < 60
    · rw [node_oneFile full less] at mem
      split at mem
      · rw [List.mem_singleton.mp mem]
      · cases mem
    · have free : node ⟨2000, 60, 3⟩ (oneFile full).disk k = .free := if_neg less
      rw [free] at mem
      cases mem
  have root := node_oneFile full (k := ROOTINO) (by decide)
  have file := node_oneFile full (k := 2) (by decide)
  refine ⟨⟨fun k _ dir => ?_, fun k de mem _ => ?_, ?_⟩, ⟨blocks_oneFile full, fun e e' _ _ same => ?_, fun e _ => ?_, fun e _ valid => ?_,
    fun e => rfl, fun k de mem => ?_⟩, ?_, ?_⟩
  · by_cases this : k = ROOTINO
    · subst this
      exact ⟨1, rfl⟩
    · simp [oneFile, this, Dinode.fresh, Kind.type] at dir
  · rw [entry mem]
    change (node _ _ 2).type ≠ 0 ∧ (node _ _ 2).nlink ≠ 0
    rw [file]
    decide
  · rw [root]
    decide
  · change (if e = 0 then 1 else e.val + 2) = (if e' = 0 then 1 else e'.val + 2) at same
    by_cases this : e = 0 <;> by_cases that : e' = 0
    · rw [this, that]
    · rw [if_pos this, if_neg that] at same
      omega
    · rw [if_neg this, if_pos that] at same
      omega
    · rw [if_neg this, if_neg that] at same
      exact Fin.ext (by omega)
  · change (if e = 0 then 1 else e.val + 2) < 60
    have limit : e.val < 50 := e.isLt
    split <;> omega
  · cases valid
  · rw [entry mem]
    decide
  · exact Nat.one_pos
  · change (node _ _ ROOTINO).type ≠ 0
    rw [root]
    decide

end OsProjects.Directories

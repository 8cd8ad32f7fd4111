import Mathlib.Data.List.TakeWhile
import OsProjects.Directories.Lookup
import OsProjects.Slots.Table

namespace OsProjects.Directories
open Bytes Hoare Volume
open Inodes (Entry Kind)

/-! ## The routines of `string.c` -/

def strncmp : List UInt8 → List UInt8 → ℕ → ℤ
  | _, _, 0 => 0
  | p, q, n + 1 =>
    if p.headD 0 ≠ 0 ∧ p.headD 0 = q.headD 0 then strncmp p.tail q.tail n
    else (p.headD 0).toNat - (q.headD 0).toNat

def strncpyLoops : List UInt8 → ℕ → List UInt8
  | _, 0 => []
  | t, n + 1 => if t.headD 0 ≠ 0 then t.headD 0 :: strncpyLoops t.tail n else List.replicate (n + 1) 0

theorem take_succ_text (s : List UInt8) (n : ℕ) :
    (s.take (n + 1)).takeWhile (· ≠ 0) = if s.headD 0 ≠ 0 then s.headD 0 :: (s.tail.take n).takeWhile (· ≠ 0) else [] := by
  cases s with
  | nil => rfl
  | cons c s => simp [List.takeWhile_cons]

theorem strncmp_eq_zero (p q : List UInt8) (n : ℕ) :
    strncmp p q n = 0 ↔ (p.take n).takeWhile (· ≠ 0) = (q.take n).takeWhile (· ≠ 0) := by
  induction n generalizing p q with
  | zero => simp [strncmp]
  | succ n ih =>
    rw [strncmp, take_succ_text, take_succ_text]
    by_cases same : p.headD 0 = q.headD 0
    · by_cases zero : p.headD 0 = 0
      · rw [if_neg (fun both => both.1 zero), if_neg (not_not.mpr zero), if_neg (not_not.mpr (same ▸ zero)), same]
        simp
      · rw [if_pos ⟨zero, same⟩, if_pos zero, if_pos (same ▸ zero), ih, same]
        simp
    · have differ : ((p.headD 0).toNat : ℤ) - (q.headD 0).toNat ≠ 0 := by
        intro equal
        exact same (UInt8.toNat_inj.mp (by omega))
      rw [if_neg fun both => same both.2]
      refine iff_of_false differ fun equal => same ?_
      by_cases zero : p.headD 0 = 0 <;> by_cases zero' : q.headD 0 = 0
      · rw [zero, zero']
      · rw [if_neg (not_not.mpr zero), if_pos zero'] at equal
        cases equal
      · rw [if_pos zero, if_neg (not_not.mpr zero')] at equal
        cases equal
      · rw [if_pos zero, if_pos zero'] at equal
        exact (List.cons.inj equal).1

theorem namecmp_iff (s t : List UInt8) : namecmp s t = true ↔ strncmp s t DIRSIZ = 0 := by
  rw [strncmp_eq_zero, namecmp, decide_eq_true_iff]
  rfl

theorem strncpyLoops_eq (t : List UInt8) (n : ℕ) :
    strncpyLoops t n = (t.take n).takeWhile (· ≠ 0) ++ List.replicate (n - ((t.take n).takeWhile (· ≠ 0)).length) 0 := by
  induction n generalizing t with
  | zero => simp [strncpyLoops]
  | succ n ih =>
    rw [strncpyLoops, take_succ_text]
    by_cases zero : t.headD 0 = 0
    · rw [if_neg (not_not.mpr zero), if_neg (not_not.mpr zero)]
      simp
    · rw [if_pos zero, if_pos zero, ih, List.length_cons, Nat.add_sub_add_right]
      rfl

theorem strncpy_eq (name : List UInt8) : strncpy name = strncpyLoops name DIRSIZ := (strncpyLoops_eq name DIRSIZ).symm

theorem cstr_strncpy (name : List UInt8) : cstr (strncpy name) = cstr name := by
  have short : (strncpy name).take DIRSIZ = strncpy name := List.take_of_length_le (length_strncpy name).le
  have nonzero : ∀ c ∈ cstr name, decide (c ≠ 0) = true := by
    intro c mem
    exact List.mem_takeWhile_imp (p := fun c => decide (c ≠ 0)) mem
  rw [cstr, short, strncpy, List.takeWhile_append_of_pos nonzero]
  simp

/-! ## Directories as maps -/

def Dirent.view (de : Dirent) : Option (List UInt8 × ℕ) := if de.inum = 0 then none else some (cstr de.name, de.inum.toNat)

def Fs.entries (s : Fs) (dp : Entry) : List Dirent := dirents s.disk (s.table dp).d

def Fs.slots (s : Fs) (dp : Entry) : List (Option (List UInt8 × ℕ)) := (s.entries dp).map Dirent.view

def Fs.directory (s : Fs) (dp : Entry) : List UInt8 → Option ℕ := Slots.find (s.slots dp)

structure Directory (sb : Superblock) (s : Fs) (dp : Entry) : Prop where
  held : 0 < (s.table dp).ref
  type : (s.table dp).d.type = Kind.dir.type
  reserved : Reserved sb s.disk
  mapped : Mapped sb s.disk (s.table dp).d
  whole : ENTRY ∣ (s.table dp).d.size.toNat

def NoInodes (s : Fs) (p : Panic) : Prop := p = .igetNoInodes ∧ ∀ e, 0 < (s.table e).ref

variable {sb : Superblock} {s s' : Fs} {dp : Entry} {name : List UInt8} {inum : ℕ} {de : Dirent} {j : ℕ}
  {E : Panic → Prop}

theorem view_eq_none : de.view = none ↔ de.inum = 0 := by
  unfold Dirent.view
  split <;> simp_all

theorem view_eq_some {v : ℕ} :
    de.view = some (cstr name, v) ↔ de.inum.toNat = v ∧ de.inum ≠ 0 ∧ namecmp name de.name = true := by
  simp only [Dirent.view, namecmp, decide_eq_true_eq, Option.ite_none_left_eq_some, Option.some.injEq, Prod.mk.injEq]
  constructor
  · rintro ⟨used, same, number⟩
    exact ⟨number, used, same.symm⟩
  · rintro ⟨number, used, same⟩
    exact ⟨used, same.symm, number⟩

theorem getElem?_slots {slot : Option (List UInt8 × ℕ)} :
    (s.slots dp)[j]? = some slot ↔ ∃ de, (s.entries dp)[j]? = some de ∧ de.view = slot := by
  rw [Fs.slots, List.getElem?_map, Option.map_eq_some_iff]

theorem map_setSlot (l : List Dirent) (j : ℕ) (de : Dirent) :
    (setSlot l j de).map Dirent.view = Slots.place (l.map Dirent.view) j de.view := by
  unfold setSlot Slots.place
  rw [List.length_map]
  split
  · rw [List.map_set]
  · rw [List.map_append, List.map_singleton]

theorem Directory.length (dir : Directory sb s dp) : ENTRY * (s.entries dp).length = (s.table dp).d.size.toNat := by
  rw [Fs.entries, length_dirents, Nat.mul_div_cancel' dir.whole]

theorem Directory.congr (dir : Directory sb s dp) (disk : s'.disk = s.disk) (d : (s'.table dp).d = (s.table dp).d)
    (held : 0 < (s'.table dp).ref) : Directory sb s' dp ∧ s'.entries dp = s.entries dp := by
  refine ⟨⟨held, ?_, ?_, ?_, ?_⟩, ?_⟩
  · rw [d, dir.type]
  · rw [disk]
    exact dir.reserved
  · rw [disk, d]
    exact dir.mapped
  · rw [d]
    exact dir.whole
  · rw [Fs.entries, disk, d, Fs.entries]

/-! ## Lookup -/

theorem iget_other (used : 0 < (s.table dp).ref) :
    wp (NoInodes s) (iget inum) (fun e s' => s'.disk = s.disk ∧ (s'.table dp).d = (s.table dp).d ∧ 0 < (s'.table dp).ref ∧
      (s'.table e).inum = inum ∧ 0 < (s'.table e).ref ∧ (e = dp → 1 < (s'.table dp).ref) ∧
      ((s'.table e).ref = 1 → (s'.table e).valid = false)) s := by
  simp only [iget, wp_bind, wp_get]
  cases found : (List.finRange Inodes.NINODE).find? fun ip => decide (0 < (s.table ip).ref ∧ (s.table ip).inum = inum) with
  | some ip =>
    obtain ⟨pos, same⟩ : 0 < (s.table ip).ref ∧ (s.table ip).inum = inum := by simpa using List.find?_some found
    by_cases this : dp = ip
    · subst this
      exact ⟨rfl, by simp [Fs.set], by simp [Fs.set], by simpa [Fs.set] using same, by simp [Fs.set],
        fun _ => by simpa [Fs.set] using pos, by simp [Fs.set, pos.ne']⟩
    · exact ⟨rfl, by simp [Fs.set, this], by simpa [Fs.set, this] using used, by simpa [Fs.set] using same, by simp [Fs.set],
        fun equal => absurd equal.symm this, by simp [Fs.set, pos.ne']⟩
  | none =>
    cases empty : (List.finRange Inodes.NINODE).find? fun ip => decide ((s.table ip).ref = 0) with
    | none =>
      refine ⟨rfl, fun e => Nat.pos_of_ne_zero fun zero => ?_⟩
      simpa [zero] using List.find?_eq_none.mp empty e (List.mem_finRange e)
    | some ip =>
      have unused : (s.table ip).ref = 0 := by simpa using List.find?_some empty
      have other : dp ≠ ip := by
        rintro rfl
        omega
      exact ⟨rfl, by simp [Fs.set, other], by simpa [Fs.set, other] using used, by simp [Fs.set], by simp [Fs.set],
        fun equal => absurd equal.symm other, fun _ => by simp [Fs.set]⟩

/-- What `dirlookup` gives: nothing if there is no entry in use with the name, and otherwise such an entry, with a new
reference to its inode. -/
structure Looked (sb : Superblock) (s : Fs) (dp : Entry) (name : List UInt8) (r : Option (Entry × ℕ)) (s' : Fs) : Prop where
  disk : s'.disk = s.disk
  dir : Directory sb s' dp
  entries : s'.entries dp = s.entries dp
  missing : r = none → s' = s ∧ s.directory dp (cstr name) = none
  found : ∀ ip off, r = some (ip, off) → ∃ j v, off = ENTRY * j ∧ (s.slots dp)[j]? = some (some (cstr name, v)) ∧
    (s'.table ip).inum = v ∧ 0 < (s'.table ip).ref ∧ (ip = dp → 1 < (s'.table dp).ref) ∧
    ((s'.table ip).ref = 1 → (s'.table ip).valid = false)

theorem dirlookup_map (dir : Directory sb s dp) : wp (NoInodes s) (dirlookup sb dp name) (Looked sb s dp name) s := by
  simp only [dirlookup, wp_bind, wp_get, wp_ite]
  refine ⟨fun other => absurd dir.type other, fun _ => ?_⟩
  refine (scan_dirents dir.reserved dir.mapped _ 0 fun part => absurd dir.whole part).mono ?_
  rintro r t ⟨same, got⟩
  subst same
  rcases got with ⟨rfl, _, all⟩ | ⟨j, de, rfl, _, _, here, has, _⟩
  · refine ⟨rfl, dir, rfl, fun _ => ⟨rfl, ?_⟩, fun _ _ found => by cases found⟩
    refine Slots.find_eq_none.mpr fun j v there => ?_
    obtain ⟨de, here, view⟩ := getElem?_slots.mp there
    obtain ⟨_, used, same⟩ := view_eq_some.mp view
    have other := all j (Nat.zero_le _) de here
    rw [decide_eq_false_iff_not] at other
    exact other ⟨used, same⟩
  · obtain ⟨used, equal⟩ : de.inum ≠ 0 ∧ namecmp name de.name = true := by simpa using has
    simp only [wp_bind]
    refine (iget_other dir.held).mono ?_
    rintro e s' ⟨disk, d, held, number, pos, self, fresh⟩
    obtain ⟨dir', entries⟩ := dir.congr disk d held
    refine ⟨disk, dir', entries, (fun absent => by cases absent), fun ip off found => ?_⟩
    obtain ⟨rfl, rfl⟩ : e = ip ∧ ENTRY * j = off := by simpa using found
    exact ⟨j, _, rfl, getElem?_slots.mpr ⟨de, here, view_eq_some.mpr ⟨rfl, used, equal⟩⟩, number, pos, self, fresh⟩

theorem iput_fresh {ip : Entry} (dir : Directory sb s dp) (self : ip = dp → 1 < (s.table dp).ref)
    (fresh : (s.table ip).ref = 1 → (s.table ip).valid = false) :
    wp E (iput ip) (fun _ s' => s'.disk = s.disk ∧ Directory sb s' dp ∧ s'.entries dp = s.entries dp) s := by
  simp only [iput, putLast, wp_bind, wp_get, wp_ite]
  refine ⟨fun ⟨one, valid, _⟩ => ?_, fun _ => ?_⟩
  · rw [fresh one] at valid
    cases valid
  · refine ⟨rfl, dir.congr rfl ?_ ?_⟩
    · by_cases this : dp = ip
      · simp [Fs.set, this]
      · simp [Fs.set, this]
    · by_cases this : dp = ip
      · have more := self this.symm
        subst this
        simpa [Fs.set] using more
      · simpa [Fs.set, this] using dir.held

/-! ## Insertion and removal -/

/-- No entry can be added at the end: the directory has the size of the largest file, or there is no block for it. -/
def Stuck (sb : Superblock) (s : Fs) (dp : Entry) (disk : Disk) : Prop :=
  (s.table dp).d.size.toNat = MAXFILE * BSIZE ∨
    lookup s.disk (s.table dp).d (some (blockAt (s.table dp).d.size.toNat)) = 0 ∧ Full sb disk

theorem blockAt_entry {i : ℕ} (less : i < ENTRY) : blockAt (ENTRY * j + i) = blockAt (ENTRY * j) := by
  have same : (ENTRY * j + i) / BSIZE = ENTRY * j / BSIZE := by
    simp only [ENTRY, BSIZE] at less ⊢
    omega
  simp only [blockAt, same]

theorem Directory.close {src : Source} {k : ℕ} {t : Volume.State} (dir : Directory sb s dp)
    (wrote : Wrote sb inum src (ENTRY * j) ENTRY (s.open dp) k t) (part : k = ENTRY ∨ k = 0) : Directory sb (s.close dp t) dp := by
  have record : ((s.close dp t).table dp).d = t.ip := by simp [Fs.close, Fs.set]
  refine ⟨?_, ?_, wrote.ext.reserved dir.reserved, ?_, ?_⟩
  · simpa [Fs.close, Fs.set] using dir.held
  · rw [record, wrote.fields]
    exact dir.type
  · rw [record]
    exact wrote.mapped
  · obtain ⟨n, size⟩ : ENTRY ∣ (s.open dp).ip.size.toNat := dir.whole
    rw [record, wrote.size, size]
    rcases part with rfl | rfl
    · rw [show ENTRY * j + ENTRY = ENTRY * (j + 1) from rfl, Nat.mul_max_mul_left]
      exact Dvd.intro _ rfl
    · rw [Nat.add_zero, Nat.mul_max_mul_left]
      exact Dvd.intro _ rfl

theorem writeDirent_map (dir : Directory sb s dp) (le : j ≤ (s.entries dp).length) (length : de.name.length = DIRSIZ) :
    wp E (writeDirent sb dp (ENTRY * j) de) (fun r s' => Directory sb s' dp ∧
      (r = true ∧ s'.entries dp = setSlot (s.entries dp) j de ∧ ¬ (j = (s.entries dp).length ∧ Stuck sb s dp s.disk) ∨
        r = false ∧ s'.entries dp = s.entries dp ∧ j = (s.entries dp).length ∧ Stuck sb s dp s'.disk)) s := by
  have total := dir.length
  have inside : ENTRY * j ≤ (s.table dp).d.size.toNat := total ▸ Nat.mul_le_mul_left _ le
  have bounded := dir.mapped.bounded
  have limit : MAXFILE * BSIZE + ENTRY < 2 ^ 32 := by decide
  have pos : 0 < ENTRY := by decide
  have first : (BitVec.ofNat 32 (ENTRY * j)).toNat = ENTRY * j := by rw [BitVec.toNat_ofNat, Nat.mod_eq_of_lt (by omega)]
  have count : (BitVec.ofNat 32 ENTRY).toNat = ENTRY := rfl
  have sum : (BitVec.ofNat 32 (ENTRY * j) + BitVec.ofNat 32 ENTRY).toNat = ENTRY * j + ENTRY := by
    rw [BitVec.toNat_add, first, count, Nat.mod_eq_of_lt (by omega)]
  have last : ENTRY * j = (s.table dp).d.size.toNat → j = (s.entries dp).length := by
    intro equal
    rw [← total] at equal
    exact Nat.eq_of_mul_eq_mul_left (by decide) equal
  have whole : ∀ tot m : ℕ, m ≤ (Source.whole de.byte).copied tot m := fun _ _ => le_rfl
  simp only [writeDirent, wp_bind, wp_get, wp_onInode]
  have spec := writei_spec (E := E) (s := s.open dp) dir.reserved dir.mapped (s.table dp).inum (.whole de.byte) (.ofNat 32 (ENTRY * j))
    (.ofNat 32 ENTRY)
  by_cases rejected : Rejected (s.table dp).d.size (.ofNat 32 (ENTRY * j)) (.ofNat 32 ENTRY)
  · -- The entry would be the first one behind the largest file.
    refine spec.mono fun r t got => ?_
    obtain ⟨_, rfl, rfl⟩ := got.resolve_right fun other => other.1 rejected
    rw [close_open]
    have past : MAXFILE * BSIZE < ENTRY * j + ENTRY := by
      rcases rejected with past | wraps | past
      · rw [gt_iff_lt, BitVec.lt_def, first] at past
        omega
      · rw [BitVec.lt_def, sum, first] at wraps
        omega
      · rwa [sum] at past
    have full : (s.table dp).d.size.toNat = MAXFILE * BSIZE ∧ ENTRY * j = (s.table dp).d.size.toNat := by
      simp only [MAXFILE, NDIRECT, NINDIRECT, BSIZE, ENTRY] at *
      omega
    exact ⟨dir, .inr ⟨rfl, rfl, last full.2, .inl full.1⟩⟩
  · have entries (t : Volume.State) : (s.close dp t).entries dp = dirents t.disk t.ip := by simp [Fs.entries, Fs.close, Fs.set]
    have small : ENTRY * j + ENTRY ≤ MAXFILE * BSIZE := by
      by_contra past
      exact rejected (.inr (.inr (by rw [sum]; omega)))
    by_cases there : (s.open dp).look (some (blockAt (ENTRY * j))) ≠ 0
    · have all := writei_whole (E := E) (s := s.open dp) dir.reserved dir.mapped (s.table dp).inum whole rejected
        (by
          intro i low high
          rw [first, count] at *
          obtain ⟨i, rfl⟩ := Nat.exists_eq_add_of_le low
          rwa [blockAt_entry (by omega)])
      refine (spec.and all).mono fun r t ⟨got, value⟩ => ?_
      obtain ⟨_, k, result, wrote⟩ := got.resolve_left fun other => rejected other.1
      rw [first, count] at wrote
      obtain rfl : k = ENTRY := by
        rw [result] at value
        exact Option.some.inj value
      refine ⟨dir.close wrote (.inl rfl), .inl ⟨by simp [result], ?_, ?_⟩⟩
      · rw [entries, dirents_write wrote length inside rfl]
        rfl
      · rintro ⟨rfl, full | ⟨missing, _⟩⟩
        · omega
        · rw [← total] at missing
          exact there missing
    · rw [not_not] at there
      have equal : ENTRY * j = (s.table dp).d.size.toNat := by
        by_contra other
        exact dir.mapped.at_byte (by omega) there
      refine spec.mono fun r t got => ?_
      obtain ⟨_, k, rfl, wrote⟩ := got.resolve_left fun other => rejected other.1
      rw [first, count] at wrote
      refine ⟨dir.close wrote (write_whole wrote), ?_⟩
      rcases write_whole wrote with rfl | rfl
      · refine .inl ⟨by simp, ?_, ?_⟩
        · rw [entries, dirents_write wrote length inside rfl]
          rfl
        · rintro ⟨_, full | ⟨_, full⟩⟩
          · omega
          · -- A block that was not there is one that was free.
            have size := wrote.size
            have has : t.look (some (blockAt (ENTRY * j))) ≠ 0 := wrote.mapped.at_byte (by omega)
            obtain ⟨unused, less⟩ := wrote.ext.fresh _ there has
            cases (full _ less).symm.trans unused
      · refine .inr ⟨by simp, ?_, last equal, .inr ⟨equal ▸ there, wrote.short whole (by decide)⟩⟩
        rw [entries, dirents_write_none wrote inside rfl]
        rfl

structure LinkedTo (sb : Superblock) (s : Fs) (dp : Entry) (name : List UInt8) (inum : ℕ) (r : Bool) (s' : Fs) : Prop where
  dir : Directory sb s' dp
  unique : Slots.Unique (s'.slots dp)
  success : r = true → s'.directory dp = Function.update (s.directory dp) (cstr name) (some inum)
  failure : r = false → s'.directory dp = s.directory dp
  bound : s.directory dp (cstr name) ≠ none → r = false
  stuck : (∀ de ∈ s.entries dp, de.inum ≠ 0) → Stuck sb s dp s.disk → r = false
  reason : r = false → s.directory dp (cstr name) ≠ none ∨ (∀ de ∈ s.entries dp, de.inum ≠ 0) ∧ Stuck sb s dp s'.disk

theorem directory_of_entries (same : s'.entries dp = s.entries dp) : s'.slots dp = s.slots dp ∧ s'.directory dp = s.directory dp := by
  simp only [Fs.directory, Fs.slots, same, and_self]

section
variable (dir : Directory sb s dp) (unique : Slots.Unique (s.slots dp))
include dir unique

theorem linkAt_map (missing : s.directory dp (cstr name) = none) (low : 1 ≤ inum) (high : inum ≤ 65535)
    (le : j ≤ (s.entries dp).length) (free : ∀ de, (s.entries dp)[j]? = some de → de.inum = 0)
    (first : j = (s.entries dp).length → ∀ de ∈ s.entries dp, de.inum ≠ 0) :
    wp E (writeDirent sb dp (ENTRY * j) ⟨.ofNat 16 inum, strncpy name⟩) (LinkedTo sb s dp name inum) s := by
  have number : (BitVec.ofNat 16 inum).toNat = inum := by rw [BitVec.toNat_ofNat, Nat.mod_eq_of_lt (by omega)]
  have view : Dirent.view ⟨.ofNat 16 inum, strncpy name⟩ = some (cstr name, inum) := by
    refine view_eq_some.mpr ⟨number, fun zero => ?_, ?_⟩
    · have value : (BitVec.ofNat 16 inum).toNat = (0 : BitVec 16).toNat := congrArg BitVec.toNat zero
      rw [number] at value
      exact absurd value (by simp; omega)
    · simp [namecmp, cstr_strncpy]
  refine (writeDirent_map dir le (length_strncpy name)).mono fun r s' ⟨dir', wrote⟩ => ?_
  rcases wrote with ⟨rfl, entries, room⟩ | ⟨rfl, entries, last, stuck⟩
  · have slots : s'.slots dp = Slots.place (s.slots dp) j (some (cstr name, inum)) := by
      rw [Fs.slots, entries, map_setSlot, view]
      rfl
    have fits : j ≤ (s.slots dp).length := by simpa [Fs.slots] using le
    have unused : ∀ slot, (s.slots dp)[j]? = some slot → slot = none := by
      intro slot here
      obtain ⟨de, there, rfl⟩ := getElem?_slots.mp here
      exact view_eq_none.mpr (free de there)
    refine ⟨dir', ?_, fun _ => ?_, by simp, fun has => absurd missing has, fun all stuck => ?_, by simp⟩
    · rw [slots]
      exact Slots.unique_put unique fits missing
    · rw [Fs.directory, slots]
      exact Slots.find_put unique fits unused missing
    · refine absurd ⟨?_, stuck⟩ room
      by_contra other
      obtain ⟨de, there⟩ : ∃ de, (s.entries dp)[j]? = some de := ⟨_, List.getElem?_eq_getElem (by omega)⟩
      exact all de (List.mem_iff_getElem?.mpr ⟨j, there⟩) (free de there)
  · obtain ⟨slots, directory⟩ := directory_of_entries entries
    exact ⟨dir', slots ▸ unique, by simp, fun _ => directory, fun _ => rfl, fun _ _ => rfl, fun _ => .inr ⟨first last, stuck⟩⟩

theorem dirlink_map (low : 1 ≤ inum) (high : inum ≤ 65535) : wp (NoInodes s) (dirlink sb dp name inum) (LinkedTo sb s dp name inum) s := by
  simp only [dirlink, wp_bind]
  refine (dirlookup_map dir).mono fun r t looked => ?_
  cases r with
  | none =>
    obtain ⟨rfl, missing⟩ := looked.missing rfl
    simp only [wp_bind, wp_get]
    refine (scan_dirents dir.reserved dir.mapped _ 0 fun part => absurd dir.whole part).mono ?_
    rintro r u ⟨same, got⟩
    subst same
    rcases got with ⟨rfl, whole, all⟩ | ⟨j, de, rfl, _, below, here, has, _⟩
    · have length : slots (u.table dp).d.size = (u.entries dp).length := by
        have total := dir.length
        rcases whole with none | whole
        · simp only [slots, ENTRY] at *
          omega
        · exact whole
      refine linkAt_map dir unique missing low high length.le (fun de here => ?_) fun _ de mem used => ?_
      · obtain ⟨less, _⟩ := List.getElem?_eq_some_iff.mp here
        omega
      · obtain ⟨j, here⟩ := List.mem_iff_getElem?.mp mem
        simpa [used] using all j (Nat.zero_le _) de here
    · obtain ⟨less, _⟩ := List.getElem?_eq_some_iff.mp here
      refine linkAt_map dir unique missing low high less.le (fun de' here' => ?_) fun last => absurd last less.ne
      rw [Fs.entries, here] at here'
      obtain rfl := Option.some.inj here'
      simpa using has
  | some found =>
    obtain ⟨ip, off⟩ := found
    obtain ⟨j, v, _, here, _, _, self, fresh⟩ := looked.found ip off rfl
    have bound : s.directory dp (cstr name) ≠ none := by
      rw [Fs.directory, Slots.find_of_getElem? unique here]
      simp
    simp only [wp_bind]
    refine (iput_fresh looked.dir self fresh).mono ?_
    rintro _ u ⟨_, dir', entries⟩
    obtain ⟨slots, directory⟩ := directory_of_entries (entries.trans looked.entries)
    exact ⟨dir', slots ▸ unique, by simp, fun _ => directory, fun _ => rfl, fun _ _ => rfl, fun _ => .inl bound⟩

theorem dirlink_stuck (low : 1 ≤ inum) (high : inum ≤ 65535) (used : ∀ de ∈ s.entries dp, de.inum ≠ 0) (stuck : Stuck sb s dp s.disk)
    (ip : Entry) (free : (s.table ip).ref = 0) : ∃ s', dirlink sb dp name inum s = .ok (false, s') := by
  have linked : wp (NoInodes s) (dirlink sb dp name inum) (LinkedTo sb s dp name inum) s := dirlink_map dir unique low high
  cases run : dirlink sb dp name inum s with
  | error e =>
    have pos := (linked.of_error run).2 ip
    omega
  | ok out =>
    obtain ⟨r, s'⟩ := out
    obtain rfl := (linked.of_ok run).stuck used stuck
    exact ⟨s', rfl⟩

theorem removeEntry_map {v : ℕ} (here : (s.slots dp)[j]? = some (some (cstr name, v))) :
    wp (fun _ => False) (removeEntry sb dp (ENTRY * j)) (fun _ s' => Directory sb s' dp ∧ Slots.Unique (s'.slots dp) ∧
      s'.directory dp = Function.update (s.directory dp) (cstr name) none) s := by
  have less : j < (s.entries dp).length := by
    obtain ⟨less, _⟩ := List.getElem?_eq_some_iff.mp here
    simpa [Fs.slots] using less
  simp only [removeEntry, wp_bind]
  refine (writeDirent_map dir less.le (by simp)).mono ?_
  rintro r s' ⟨dir', wrote⟩
  rcases wrote with ⟨rfl, entries, _⟩ | ⟨_, _, last, _⟩
  · have slots : s'.slots dp = Slots.place (s.slots dp) j none := by
      rw [Fs.slots, entries, map_setSlot, view_eq_none.mpr rfl]
      rfl
    refine ⟨dir', ?_, ?_⟩
    · rw [slots]
      exact Slots.unique_clear unique here
    · rw [Fs.directory, slots]
      exact Slots.find_clear unique here
  · omega

/-- A directory is a finite map from names, told apart by `strncmp` on their first 14 bytes, to numbers. Where no two
entries in use have one name, `dirlink` binds a name that is not bound, unless no entry is free and none can be added at
the end; `dirlookup` gives the inode and the offset of a name that is bound, and nothing for any other; and the write
with which `sys_unlink` clears the entry at that offset removes the binding. -/
theorem directory_is_finite_map (name : List UInt8) :
    (∀ name', strncmp name name' DIRSIZ = 0 ↔ cstr name = cstr name') ∧
    (∀ inum, 1 ≤ inum → inum ≤ 65535 → wp (NoInodes s) (dirlink sb dp name inum) (LinkedTo sb s dp name inum) s) ∧
    wp (NoInodes s) (dirlookup sb dp name) (fun r s' => s'.disk = s.disk ∧ Directory sb s' dp ∧ s'.entries dp = s.entries dp ∧
      (r = none ↔ s.directory dp (cstr name) = none) ∧
      ∀ ip off, r = some (ip, off) → s.directory dp (cstr name) = some (s'.table ip).inum ∧
        (∃ j de, off = ENTRY * j ∧ (s.entries dp)[j]? = some de ∧ de.inum ≠ 0 ∧ namecmp name de.name = true) ∧
        wp (fun _ => False) (removeEntry sb dp off) (fun _ s'' => Directory sb s'' dp ∧ Slots.Unique (s''.slots dp) ∧
          s''.directory dp = Function.update (s.directory dp) (cstr name) none) s') s := by
  refine ⟨fun name' => strncmp_eq_zero name name' DIRSIZ, fun inum low high => dirlink_map dir unique low high, ?_⟩
  refine (dirlookup_map dir).mono fun r s' looked => ?_
  have bound (ip : Entry) (off : ℕ) (found : r = some (ip, off)) : s.directory dp (cstr name) = some (s'.table ip).inum := by
    obtain ⟨j, v, _, here, number, _⟩ := looked.found ip off found
    rw [number]
    exact Slots.find_of_getElem? unique here
  refine ⟨looked.disk, looked.dir, looked.entries, ⟨fun none => (looked.missing none).2, fun missing => ?_⟩, fun ip off found =>
    ⟨bound ip off found, ?_, ?_⟩⟩
  · cases r with
    | none => rfl
    | some pair =>
      rw [bound pair.1 pair.2 rfl] at missing
      cases missing
  · obtain ⟨j, v, equal, here, _⟩ := looked.found ip off found
    obtain ⟨de, there, view⟩ := getElem?_slots.mp here
    obtain ⟨_, used, same⟩ := view_eq_some.mp view
    exact ⟨j, de, equal, there, used, same⟩
  · obtain ⟨j, v, rfl, here, _⟩ := looked.found ip off found
    obtain ⟨slots, directory⟩ := directory_of_entries looked.entries
    rw [← directory]
    exact removeEntry_map looked.dir (slots ▸ unique) (slots ▸ here)

end

/-- A directory with the entry "." and a free one, on a disk of 16 blocks that are all in use. -/
def oneEntry : Fs where
  disk :=
    { used := fun _ => true
      block := fun _ i => if i = 0 then 1 else if i = 2 then 46 else 0
      dinode := fun _ => .fresh .dir }
  table ip := ⟨1, if ip = 0 then 1 else 0, true, { Inodes.Dinode.fresh .dir with size := 32, addrs := Function.update (fun _ => 0) 0 10 }⟩

theorem oneEntry_directory : Directory ⟨16, 10, 3⟩ oneEntry 0 :=
  ⟨by decide, rfl, fun _ _ => rfl, mapped_single rfl (by decide) rfl (by decide) (by decide), by decide⟩

theorem oneEntry_unique : Slots.Unique (oneEntry.slots 0) := by
  have slots : oneEntry.slots 0 = [some ([46], 1), none] := by decide +kernel
  intro i j k v w first second
  rw [slots] at first second
  have position (i : ℕ) (v : ℕ) (here : [some ([46], 1), none][i]? = some (some (k, v))) : i = 0 := by
    match i with
    | 0 => rfl
    | 1 => cases here
    | i + 2 => simp at here
  rw [position i v first, position j w second]

theorem directory_is_finite_map_oneEntry :
    ∃ s', dirlink ⟨16, 10, 3⟩ 0 [120] 5 oneEntry = .ok (true, s') ∧ s'.directory 0 [120] = some 5 ∧ s'.directory 0 [46] = some 1 := by
  have linked := (directory_is_finite_map oneEntry_directory oneEntry_unique [120]).2.1 5 (by decide) (by decide)
  have result : ((dirlink ⟨16, 10, 3⟩ 0 [120] 5 oneEntry).toOption.map Prod.fst) = some true := by decide +kernel
  cases run : dirlink ⟨16, 10, 3⟩ 0 [120] 5 oneEntry with
  | error e =>
    rw [run] at result
    cases result
  | ok out =>
    obtain ⟨r, s'⟩ := out
    rw [run] at result
    obtain rfl : r = true := Option.some.inj result
    have directory := (linked.of_ok run).success rfl
    refine ⟨s', rfl, ?_, ?_⟩
    · rw [directory]
      rfl
    · rw [directory]
      decide +kernel

/-! ## A directory of the largest size -/

/-- The bytes of entries with the number 1 and names that differ with the block and the position in it. -/
def nameByte (b k : ℕ) : UInt8 :=
  [1, 0, .ofNat (1 + k / ENTRY), .ofNat (1 + b % 128), .ofNat (1 + b / 128)].getD (k % ENTRY) 0

/-- A directory without a free entry in blocks 100 to 368, on a disk of 2000 blocks half of which are free. -/
def largest : Fs where
  disk :=
    { used := fun b => b.toNat < 1000
      block := fun b k => if b = 112 then .ofNat ((113 + k / 4) / 256 ^ (k % 4)) else nameByte b.toNat k
      dinode := fun _ => .fresh .dir }
  table ip := ⟨1, if ip = 0 then 1 else 0, true,
    { Inodes.Dinode.fresh .dir with size := .ofNat 32 (MAXFILE * BSIZE), addrs := fun i => .ofNat 32 (100 + i.val) }⟩

def numberOf : Place → ℕ
  | none => 112
  | some bn => if bn.val < NDIRECT then 100 + bn.val else 101 + bn.val

theorem numberOf_range (p : Place) : 100 ≤ numberOf p ∧ numberOf p < 370 := by
  cases p with
  | none => decide
  | some bn =>
    have less : bn.val < 268 := bn.isLt
    simp only [numberOf]
    split <;> omega

theorem numberOf_inj {p q : Place} (same : numberOf p = numberOf q) : p = q := by
  cases p with
  | none =>
    cases q with
    | none => rfl
    | some bn =>
      simp only [numberOf, NDIRECT] at same
      split at same <;> omega
  | some bn =>
    cases q with
    | none =>
      simp only [numberOf, NDIRECT] at same
      split at same <;> omega
    | some bn' =>
      simp only [numberOf, NDIRECT] at same
      refine congrArg some (Fin.ext ?_)
      split at same <;> split at same <;> omega

theorem look_largest (p : Place) : lookup largest.disk (largest.table 0).d p = .ofNat 32 (numberOf p) := by
  cases p with
  | none => rfl
  | some bn =>
    have less : bn.val < 268 := bn.isLt
    have bp : (largest.table 0).d.addrs indirect = 112 := rfl
    by_cases direct : bn.val < NDIRECT
    · simp only [lookup, numberOf, dif_pos direct, if_pos direct]
      rfl
    · have number : word (largest.disk.block 112) (4 * (bn.val - NDIRECT)) 4 = 101 + bn.val := by
        have bytes : word (largest.disk.block 112) (4 * (bn.val - NDIRECT)) 4 =
            word (putWord (fun _ => 0) (4 * (bn.val - NDIRECT)) 4 (101 + bn.val)) (4 * (bn.val - NDIRECT)) 4 := by
          refine word_congr fun i first last => ?_
          rw [putWord, put_of_mem first last]
          have quotient : 113 + i / 4 = 101 + bn.val := by
            simp only [NDIRECT] at *
            omega
          have rest : i % 4 = i - 4 * (bn.val - NDIRECT) := by omega
          change UInt8.ofNat ((113 + i / 4) / 256 ^ (i % 4)) = _
          rw [quotient, rest]
        rw [bytes, word_putWord (by omega)]
      simp only [lookup, numberOf, dif_neg direct, if_neg direct, bp]
      rw [if_neg (by decide), entry, number]

theorem toNat_look_largest (p : Place) : (lookup largest.disk (largest.table 0).d p).toNat = numberOf p := by
  have range := numberOf_range p
  rw [look_largest, BitVec.toNat_ofNat, Nat.mod_eq_of_lt (by omega)]

theorem largest_directory : Directory ⟨2000, 10, 3⟩ largest 0 := by
  refine ⟨by decide, rfl, fun b before => ?_, ⟨fun p _ => ?_, fun p _ => ?_, fun p q _ same => ?_, fun bn _ zero => ?_, by decide⟩, by decide⟩
  · have less : b.toNat < 4 := before
    simp only [largest, decide_eq_true_eq]
    omega
  · have range := numberOf_range p
    change decide ((lookup largest.disk (largest.table 0).d p).toNat < 1000) = true
    rw [toNat_look_largest, decide_eq_true_eq]
    omega
  · have range := numberOf_range p
    rw [toNat_look_largest]
    change 4 ≤ numberOf p ∧ numberOf p < 2000
    omega
  · exact numberOf_inj (by rw [← toNat_look_largest, ← toNat_look_largest, same])
  · have range := numberOf_range (some bn)
    have value := toNat_look_largest (some bn)
    rw [zero] at value
    change 0 = _ at value
    omega

def nameOf (j : ℕ) : List UInt8 :=
  let b := numberOf (some (blockAt (ENTRY * j)))
  [.ofNat (1 + j % 64), .ofNat (1 + b % 128), .ofNat (1 + b / 128)]

theorem slot_largest (j : ℕ) : slot largest.disk (largest.table 0).d j = ⟨1, nameOf j ++ List.replicate 11 0⟩ := by
  have bytes : ∀ i, i < ENTRY → byteAt largest.disk (largest.table 0).d (ENTRY * j + i) = (1 :: 0 :: nameOf j).getD i 0 := by
    intro i less
    have value := toNat_look_largest (some (blockAt (ENTRY * j)))
    have other : lookup largest.disk (largest.table 0).d (some (blockAt (ENTRY * j))) ≠ 112 := by
      intro same
      have equal : numberOf none = numberOf (some (blockAt (ENTRY * j))) := by rw [← value, same]; rfl
      cases numberOf_inj equal
    have rest : (ENTRY * j + i) % BSIZE % ENTRY = i := by
      simp only [ENTRY, BSIZE] at less ⊢
      omega
    have quotient : (ENTRY * j + i) % BSIZE / ENTRY = j % 64 := by
      simp only [ENTRY, BSIZE] at less ⊢
      omega
    rw [byteAt, blockAt_entry less]
    change (if lookup largest.disk (largest.table 0).d (some (blockAt (ENTRY * j))) = 112 then _ else
      nameByte (lookup largest.disk (largest.table 0).d (some (blockAt (ENTRY * j)))).toNat _) = _
    rw [if_neg other, value, nameByte, rest, quotient]
    rfl
  rw [slot, List.map_congr_left fun i mem => bytes i (List.mem_range.mp mem)]
  rfl

theorem toNat_char {n : ℕ} (small : n < 255) : (UInt8.ofNat (1 + n)).toNat = 1 + n := by
  rw [UInt8.toNat_ofNat', Nat.mod_eq_of_lt (by omega)]

theorem cstr_nameOf (j : ℕ) : cstr (nameOf j) = nameOf j := by
  have range := numberOf_range (some (blockAt (ENTRY * j)))
  have nonzero {n : ℕ} (small : n < 255) : UInt8.ofNat (1 + n) ≠ 0 := by
    intro zero
    have value := toNat_char small
    rw [zero] at value
    change 0 = 1 + n at value
    omega
  have short : (nameOf j).take DIRSIZ = nameOf j := rfl
  rw [cstr, short, List.takeWhile_eq_self_iff]
  intro c mem
  rw [decide_eq_true_eq]
  simp only [nameOf, List.mem_cons, List.not_mem_nil, or_false] at mem
  rcases mem with rfl | rfl | rfl <;> exact nonzero (by omega)

theorem view_largest (j : ℕ) : Dirent.view ⟨1, nameOf j ++ List.replicate 11 0⟩ = some (nameOf j, 1) := by
  have padded : nameOf j ++ List.replicate 11 0 = strncpy (nameOf j) := by
    rw [strncpy, cstr_nameOf]
    rfl
  rw [padded, Dirent.view, cstr_strncpy, cstr_nameOf]
  rfl

theorem nameOf_inj {i : ℕ} (first : i < 17152) (second : j < 17152) (same : nameOf i = nameOf j) : i = j := by
  have range := numberOf_range (some (blockAt (ENTRY * i)))
  have range' := numberOf_range (some (blockAt (ENTRY * j)))
  simp only [nameOf, List.cons.injEq, and_true] at same
  obtain ⟨position, low, high⟩ := same
  have position' := congrArg UInt8.toNat position
  have low' := congrArg UInt8.toNat low
  have high' := congrArg UInt8.toNat high
  rw [toNat_char (by omega), toNat_char (by omega)] at position' low' high'
  have block : blockAt (ENTRY * i) = blockAt (ENTRY * j) := Option.some.inj (numberOf_inj (by omega))
  have quotient := congrArg Fin.val block
  have limit : MAXFILE * BSIZE = 274432 := rfl
  rw [blockAt_val (by simp only [ENTRY]; omega), blockAt_val (by simp only [ENTRY]; omega)] at quotient
  simp only [ENTRY, BSIZE] at quotient
  omega

theorem getElem?_largest {slot : Option (List UInt8 × ℕ)} (here : (largest.slots 0)[j]? = some slot) :
    j < 17152 ∧ slot = some (nameOf j, 1) := by
  obtain ⟨de, there, rfl⟩ := getElem?_slots.mp here
  obtain ⟨less, equal⟩ := List.getElem?_eq_some_iff.mp there
  have same : de = Directories.slot largest.disk (largest.table 0).d j := by simpa [Fs.entries, dirents] using equal.symm
  have count : (largest.entries 0).length = 17152 := by
    rw [Fs.entries, length_dirents]
    rfl
  rw [same, slot_largest, view_largest]
  exact ⟨count ▸ less, rfl⟩

/-- A name without an entry is not bound in a directory of the largest size, although there are free blocks. -/
theorem largest_directory_full : Directory ⟨2000, 10, 3⟩ largest 0 ∧ Slots.Unique (largest.slots 0) ∧
    largest.directory 0 (cstr [120]) = none ∧ ¬ Full ⟨2000, 10, 3⟩ largest.disk ∧
    ∃ s', dirlink ⟨2000, 10, 3⟩ 0 [120] 5 largest = .ok (false, s') := by
  have unique : Slots.Unique (largest.slots 0) := by
    intro i j k v w first second
    obtain ⟨less, here⟩ := getElem?_largest first
    obtain ⟨less', there⟩ := getElem?_largest second
    exact nameOf_inj less less' ((Prod.mk.inj (Option.some.inj here)).1.symm.trans (Prod.mk.inj (Option.some.inj there)).1)
  have missing : largest.directory 0 (cstr [120]) = none := by
    rw [Fs.directory, Slots.find_eq_none]
    intro j v here
    have name : cstr [120] = nameOf j := (Prod.mk.inj (Option.some.inj (getElem?_largest here).2)).1
    have length : 1 = 3 := congrArg List.length name
    omega
  have used : ∀ de ∈ largest.entries 0, de.inum ≠ 0 := by
    intro de mem zero
    obtain ⟨j, here⟩ := List.mem_iff_getElem?.mp mem
    have none := (getElem?_largest (getElem?_slots.mpr ⟨de, here, view_eq_none.mpr zero⟩)).2
    cases none
  refine ⟨largest_directory, unique, missing, fun full => ?_, ?_⟩
  · have wrong := full 1500 (by decide)
    revert wrong
    decide
  · exact dirlink_stuck largest_directory unique (by decide) (by decide) used (.inl rfl) 1 rfl

end OsProjects.Directories

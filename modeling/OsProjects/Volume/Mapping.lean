import OsProjects.Hoare.Wp
import OsProjects.Volume.Model

namespace OsProjects.Volume
open Bytes Hoare
open Inodes (Dinode)

/-! ## The blocks of an inode -/

theorem entry_setEntry (a : Block) (j k : ℕ) (addr : Uint) : entry (setEntry a j addr) k = if k = j then addr else entry a k := by
  by_cases same : k = j
  · subst same
    rw [if_pos rfl, entry, setEntry, word_putWord addr.isLt]
    exact BitVec.ofNat_toNat _ _ |>.trans (BitVec.setWidth_eq addr)
  · rw [if_neg same, entry, setEntry, word_putWord_of_apart (by omega)]
    rfl

theorem entry_zero (j : ℕ) : entry (fun _ => 0) j = 0 := by
  rw [entry, word_zero fun _ _ _ => rfl]
  rfl

abbrev Place := Option (Fin MAXFILE)

def lookup (disk : Disk) (d : Dinode) : Place → Uint
  | none => d.addrs indirect
  | some bn =>
    if direct : bn.val < NDIRECT then d.addrs ⟨bn.val, Nat.lt_succ_of_lt direct⟩
    else if d.addrs indirect = 0 then 0
    else entry (disk.block (d.addrs indirect)) (bn.val - NDIRECT)

def State.look (s : State) (p : Place) : Uint := lookup s.disk s.ip p

variable {bn : Fin MAXFILE} {disk : Disk} {d : Dinode} {b : Uint}

theorem look_direct {s : State} (direct : bn.val < NDIRECT) :
    s.look (some bn) = s.ip.addrs ⟨bn.val, Nat.lt_succ_of_lt direct⟩ := dif_pos direct

theorem look_entry {s : State} (far : ¬ bn.val < NDIRECT) :
    s.look (some bn) = if s.ip.addrs indirect = 0 then 0 else entry (s.disk.block (s.ip.addrs indirect)) (bn.val - NDIRECT) :=
  dif_neg far

theorem lookup_congr {disk' : Disk} {d' : Dinode} (addrs : d'.addrs = d.addrs)
    (block : d.addrs indirect ≠ 0 → disk'.block (d.addrs indirect) = disk.block (d.addrs indirect)) :
    lookup disk' d' = lookup disk d := by
  funext p
  cases p with
  | none => exact congrFun addrs _
  | some bn =>
    simp only [lookup, addrs]
    split
    · rfl
    · split
      · rfl
      · rw [block ‹_›]

def Reserved (sb : Superblock) (disk : Disk) : Prop := ∀ b : Uint, b.toNat < sb.dataStart → disk.used b = true

/-- The blocks of an inode are in use and all different, and those its size reaches are there. -/
structure Mapped (sb : Superblock) (disk : Disk) (d : Dinode) : Prop where
  used : ∀ p, lookup disk d p ≠ 0 → disk.used (lookup disk d p) = true
  inside : ∀ p, lookup disk d p ≠ 0 → sb.dataStart ≤ (lookup disk d p).toNat ∧ (lookup disk d p).toNat < sb.size.toNat
  distinct : ∀ p q, lookup disk d p ≠ 0 → lookup disk d p = lookup disk d q → p = q
  covered : ∀ bn : Fin MAXFILE, bn.val * BSIZE < d.size.toNat → lookup disk d (some bn) ≠ 0
  bounded : d.size.toNat ≤ MAXFILE * BSIZE

theorem lookup_empty (addrs : ∀ i, d.addrs i = 0) (p : Place) : lookup disk d p = 0 := by
  cases p with
  | none => exact addrs _
  | some bn =>
    simp only [lookup, addrs]
    split <;> rfl

theorem mapped_empty {sb : Superblock} (size : d.size = 0) (addrs : ∀ i, d.addrs i = 0) : Mapped sb disk d := by
  have zero : ∀ p, lookup disk d p = 0 := lookup_empty addrs
  refine ⟨fun p has => absurd (zero p) has, fun p has => absurd (zero p) has, fun p _ has => absurd (zero p) has, ?_, ?_⟩ <;> simp [size]

theorem lookup_single (addrs : d.addrs = Function.update (fun _ => 0) 0 b) (p : Place) :
    lookup disk d p = if p = some 0 then b else 0 := by
  have none : d.addrs indirect = 0 := by
    rw [addrs]
    rfl
  cases p with
  | none => exact none
  | some bn =>
    by_cases first : bn = 0
    · rw [first, if_pos rfl, lookup, dif_pos (by decide), addrs]
      rfl
    · rw [if_neg (by simpa using first)]
      by_cases direct : bn.val < NDIRECT
      · have other : (⟨bn.val, Nat.lt_succ_of_lt direct⟩ : Fin (NDIRECT + 1)) ≠ 0 := by
          intro same
          exact first (Fin.ext (show bn.val = 0 from congrArg Fin.val same))
        rw [lookup, dif_pos direct, addrs]
        exact Function.update_of_ne other _ _
      · rw [lookup, dif_neg direct, if_pos none]

theorem mapped_single {sb : Superblock} (addrs : d.addrs = Function.update (fun _ => 0) 0 b)
    (has : b ≠ 0) (used : disk.used b = true) (inside : sb.dataStart ≤ b.toNat ∧ b.toNat < sb.size.toNat)
    (size : d.size.toNat ≤ BSIZE) : Mapped sb disk d := by
  have only : ∀ p, lookup disk d p ≠ 0 → p = some 0 := by
    intro p some
    by_contra other
    exact some ((lookup_single addrs p).trans (if_neg other))
  have first : lookup disk d (some 0) = b := lookup_single addrs _
  refine ⟨fun p some => ?_, fun p some => ?_, fun p q some same => ?_, fun bn below => ?_, size.trans (by decide)⟩
  · rwa [only p some, first]
  · rwa [only p some, first]
  · rw [only p some, only q (same ▸ some)]
  · have zero : bn = 0 := by
      refine Fin.ext (show bn.val = 0 from ?_)
      simp only [BSIZE] at below size
      omega
    rw [zero, first]
    exact has

/-- An inode gets blocks that were not in use, and only its own blocks are written. -/
structure Extends (sb : Superblock) (s s' : State) : Prop where
  keeps : ∀ p, s.look p ≠ 0 → s'.look p = s.look p
  fresh : ∀ p, s.look p = 0 → s'.look p ≠ 0 → s.disk.used (s'.look p) = false ∧ (s'.look p).toNat < sb.size.toNat
  apart : ∀ p q, s.look p = 0 → s.look q = 0 → s'.look p ≠ 0 → s'.look p = s'.look q → p = q
  used : ∀ b, s'.disk.used b = true ↔ s.disk.used b = true ∨ ∃ p, s.look p = 0 ∧ s'.look p = b ∧ b ≠ 0
  block : ∀ b, s.disk.used b = true → (∀ p, s.look p ≠ b) → s'.disk.block b = s.disk.block b

variable {sb : Superblock} {s s' s'' : State}

theorem Reserved.dataStart_le (reserved : Reserved sb s.disk) (unused : s.disk.used b = false) : sb.dataStart ≤ b.toNat := by
  by_contra less
  rw [reserved b (by omega)] at unused
  cases unused

theorem Reserved.ne_zero (reserved : Reserved sb s.disk) (unused : s.disk.used b = false) : b ≠ 0 := by
  rintro rfl
  have le := reserved.dataStart_le unused
  simp [Superblock.dataStart] at le

theorem Mapped.ne_of_unused {p : Place} (mapped : Mapped sb disk d) (has : lookup disk d p ≠ 0)
    (unused : disk.used b = false) : lookup disk d p ≠ b := by
  rintro rfl
  rw [mapped.used p has] at unused
  cases unused

namespace Extends

theorem refl : Extends sb s s :=
  ⟨fun _ _ => rfl, fun _ zero has => absurd zero has, fun _ _ zero _ has _ => absurd zero has,
    fun _ => ⟨.inl, fun h => h.elim id fun ⟨_, zero, same, has⟩ => absurd (same.symm.trans zero) has⟩, fun _ _ _ => rfl⟩

theorem mono (ext : Extends sb s s') (used : s.disk.used b = true) : s'.disk.used b = true := (ext.used b).mpr (.inl used)

theorem reserved (ext : Extends sb s s') (reserved : Reserved sb s.disk) : Reserved sb s'.disk :=
  fun b before => ext.mono (reserved b before)

theorem foreign (ext : Extends sb s s') (used : s.disk.used b = true) (other : ∀ p, s.look p ≠ b) (p : Place) :
    s'.look p ≠ b := by
  rintro rfl
  by_cases zero : s.look p = 0
  · by_cases zero' : s'.look p = 0
    · exact other p (zero.trans zero'.symm)
    · rw [(ext.fresh p zero zero').1] at used
      cases used
  · exact other p (ext.keeps p zero).symm

theorem congr (ext : Extends sb s s') (look : s''.look = s'.look) (used : s''.disk.used = s'.disk.used)
    (block : s''.disk.block = s'.disk.block) : Extends sb s s'' := by
  refine ⟨?_, ?_, ?_, ?_, ?_⟩ <;> simp only [look, used, block]
  · exact ext.keeps
  · exact ext.fresh
  · exact ext.apart
  · exact ext.used
  · exact ext.block

theorem unused (ext : Extends sb s s') (unused : s'.disk.used b = false) : s.disk.used b = false := by
  by_contra used
  rw [Bool.not_eq_false] at used
  rw [ext.mono used] at unused
  cases unused

theorem trans (first : Extends sb s s') (second : Extends sb s' s'') : Extends sb s s'' := by
  refine ⟨?_, ?_, ?_, ?_, ?_⟩
  · intro p has
    have same := first.keeps p has
    rw [second.keeps p (same ▸ has), same]
  · intro p zero has
    by_cases zero' : s'.look p = 0
    · have fresh := second.fresh p zero' has
      exact ⟨first.unused fresh.1, fresh.2⟩
    · rw [second.keeps p zero']
      exact first.fresh p zero zero'
  · intro p q zero zero' has same
    by_cases now : s'.look p = 0
    · by_cases now' : s'.look q = 0
      · exact second.apart p q now now' has same
      · -- One of them comes with the second step, the other one has been in use by then.
        have fresh := (second.fresh p now has).1
        rw [same, second.keeps q now', (first.used (s'.look q)).mpr (.inr ⟨q, zero', rfl, now'⟩)] at fresh
        cases fresh
    · rw [second.keeps p now] at same has
      by_cases now' : s'.look q = 0
      · have fresh := (second.fresh q now' (same ▸ has)).1
        rw [← same, (first.used (s'.look p)).mpr (.inr ⟨p, zero, rfl, now⟩)] at fresh
        cases fresh
      · rw [second.keeps q now'] at same
        exact first.apart p q zero zero' has same
  · intro b
    rw [second.used, first.used]
    constructor
    · rintro ((before | ⟨p, zero, same, has⟩) | ⟨p, zero, same, has⟩)
      · exact .inl before
      · exact .inr ⟨p, zero, (second.keeps p (same ▸ has)).trans same, has⟩
      · by_cases earlier : s.look p = 0
        · exact .inr ⟨p, earlier, same, has⟩
        · exact absurd ((first.keeps p earlier).symm.trans zero) earlier
    · rintro (before | ⟨p, zero, same, has⟩)
      · exact .inl (.inl before)
      · by_cases now : s'.look p = 0
        · exact .inr ⟨p, now, same, has⟩
        · exact .inl (.inr ⟨p, zero, (second.keeps p now).symm.trans same, has⟩)
  · intro b used other
    rw [second.block b (first.mono used) (first.foreign used other), first.block b used other]

theorem mapped (ext : Extends sb s s') (reserved : Reserved sb s.disk) (mapped : Mapped sb s.disk s.ip)
    (covered : ∀ bn : Fin MAXFILE, bn.val * BSIZE < s'.ip.size.toNat → s'.look (some bn) ≠ 0)
    (bounded : s'.ip.size.toNat ≤ MAXFILE * BSIZE) : Mapped sb s'.disk s'.ip := by
  refine ⟨fun p has => ?_, fun p has => ?_, fun p q has same => ?_, covered, bounded⟩
  · by_cases zero : s.look p = 0
    · exact (ext.used _).mpr (.inr ⟨p, zero, rfl, has⟩)
    · have same : lookup s'.disk s'.ip p = lookup s.disk s.ip p := ext.keeps p zero
      rw [same]
      exact ext.mono (mapped.used p zero)
  · by_cases zero : s.look p = 0
    · have fresh := ext.fresh p zero has
      exact ⟨reserved.dataStart_le fresh.1, fresh.2⟩
    · have same : lookup s'.disk s'.ip p = lookup s.disk s.ip p := ext.keeps p zero
      rw [same]
      exact mapped.inside p zero
  · change s'.look p ≠ 0 at has
    change s'.look p = s'.look q at same
    by_cases zero : s.look p = 0
    · by_cases zero' : s.look q = 0
      · exact ext.apart p q zero zero' has same
      · have fresh := (ext.fresh p zero has).1
        rw [same, ext.keeps q zero', State.look, mapped.used q zero'] at fresh
        cases fresh
    · rw [ext.keeps p zero] at same has
      by_cases zero' : s.look q = 0
      · have fresh := (ext.fresh q zero' (same ▸ has)).1
        rw [← same, State.look, mapped.used p zero] at fresh
        cases fresh
      · rw [ext.keeps q zero'] at same
        exact mapped.distinct p q zero same

theorem point {p : Place} (zero : s.look p = 0) (looks : s'.look = Function.update s.look p b) (has : b ≠ 0)
    (unused : s.disk.used b = false) (inside : b.toNat < sb.size.toNat) (used : s'.disk.used = Function.update s.disk.used b true)
    (block : ∀ c, s.disk.used c = true → (∀ p, s.look p ≠ c) → s'.disk.block c = s.disk.block c) : Extends sb s s' := by
  have others : ∀ q, q ≠ p → s'.look q = s.look q := fun q other => by rw [looks, Function.update_of_ne other]
  have here : s'.look p = b := by rw [looks, Function.update_self]
  refine ⟨fun q has' => ?_, fun q zero' has' => ?_, fun q r zero' zero'' has' same => ?_, fun c => ?_, block⟩
  · exact others q fun equal => has' (equal ▸ zero)
  · by_cases this : q = p
    · rw [this, here]
      exact ⟨unused, inside⟩
    · exact absurd zero' (others q this ▸ has')
  · by_cases this : q = p
    · by_cases this' : r = p
      · rw [this, this']
      · rw [others r this'] at same
        exact absurd (same.trans zero'') has'
    · exact absurd zero' (others q this ▸ has')
  · rw [used]
    by_cases this : c = b
    · subst this
      simp only [Function.update_self, true_iff]
      exact .inr ⟨p, zero, here, has⟩
    · rw [Function.update_of_ne this]
      refine ⟨.inl, fun h => h.elim id fun ⟨q, zero', same, has'⟩ => ?_⟩
      by_cases equal : q = p
      · exact absurd (same.symm.trans (equal ▸ here)) this
      · exact absurd (same.symm.trans ((others q equal).trans zero')) has'

end Extends

/-! ## Allocation -/

def Full (sb : Superblock) (disk : Disk) : Prop := ∀ b : Uint, b.toNat < sb.size.toNat → disk.used b = true

theorem freeBit_spec (sb : Superblock) (used : Uint → Bool) :
    match freeBit sb used with
    | none => ∀ b : Uint, b.toNat < sb.size.toNat → used b = true
    | some b => used b = false ∧ b.toNat < sb.size.toNat := by
  have size := sb.size.isLt
  cases found : freeBit sb used with
  | none =>
    intro b less
    simp only [freeBit, List.findSome?_eq_none_iff, List.mem_range] at found
    have number : b.toNat / BPB * BPB + b.toNat % BPB = b.toNat := Nat.div_add_mod' _ _
    have outer : b.toNat / BPB < (sb.size.toNat + BPB - 1) / BPB := by
      simp only [BPB, BSIZE]
      omega
    have inner : b.toNat % BPB < min BPB (sb.size.toNat - b.toNat / BPB * BPB) := by
      simp only [BPB, BSIZE]
      omega
    have here := found (b.toNat / BPB) outer (b.toNat % BPB) inner
    rw [number, BitVec.ofNat_toNat, BitVec.setWidth_eq] at here
    by_contra unused
    simp [unused] at here
  | some b =>
    obtain ⟨i, -, inner⟩ := List.exists_of_findSome?_eq_some found
    obtain ⟨bi, less, here⟩ := List.exists_of_findSome?_eq_some inner
    obtain ⟨unused, equal⟩ := Option.ite_none_left_eq_some.mp here
    have number := Option.some.inj equal
    rw [List.mem_range] at less
    rw [number] at unused
    refine ⟨by simpa using unused, ?_⟩
    rw [← number, BitVec.toNat_ofNat, Nat.mod_eq_of_lt (by omega)]
    omega

def alloc (s : State) (b : Uint) : State :=
  { s with disk := { s.disk with
      used := Function.update s.disk.used b true
      block := Function.update s.disk.block b fun _ => 0 } }

variable {E : Panic → Prop}

theorem balloc_spec (reserved : Reserved sb s.disk) :
    wp E (balloc sb) (fun b s' => b = 0 ∧ s' = s ∧ Full sb s.disk ∨
      b ≠ 0 ∧ s' = alloc s b ∧ s.disk.used b = false ∧ b.toNat < sb.size.toNat) s := by
  have spec := freeBit_spec sb s.disk.used
  simp only [balloc, wp_bind, wp_get]
  cases found : freeBit sb s.disk.used with
  | none =>
    rw [found] at spec
    exact .inl ⟨rfl, rfl, spec⟩
  | some b =>
    rw [found] at spec
    exact .inr ⟨reserved.ne_zero spec.1, rfl, spec.1, spec.2⟩

structure Grows (sb : Superblock) (s s' : State) : Prop where
  ext : Extends sb s s'
  fields : s'.ip = { s.ip with addrs := s'.ip.addrs }
  dinode : s'.disk.dinode = s.disk.dinode
  data : ∀ bn, s.look (some bn) ≠ 0 → s'.disk.block (s.look (some bn)) = s.disk.block (s.look (some bn))

theorem Grows.refl : Grows sb s s := ⟨.refl, rfl, rfl, fun _ _ => rfl⟩

theorem Grows.trans (first : Grows sb s s') (second : Grows sb s' s'') : Grows sb s s'' := by
  refine ⟨first.ext.trans second.ext, ?_, second.dinode.trans first.dinode, fun bn has => ?_⟩
  · rw [second.fields, first.fields]
  have same := first.ext.keeps _ has
  have later := second.data bn (same ▸ has)
  rw [same] at later
  rw [later, first.data bn has]

theorem Grows.mapped (grows : Grows sb s s') (reserved : Reserved sb s.disk) (mapped : Mapped sb s.disk s.ip) :
    Mapped sb s'.disk s'.ip := by
  have size : s'.ip.size = s.ip.size := by rw [grows.fields]
  refine grows.ext.mapped reserved mapped (fun bn reached => ?_) (size ▸ mapped.bounded)
  rw [size] at reached
  have has := mapped.covered bn reached
  rw [grows.ext.keeps _ has]
  exact has

def allocAddr (s : State) (i : Fin (NDIRECT + 1)) (b : Uint) : State :=
  { alloc s b with ip := { s.ip with addrs := Function.update s.ip.addrs i b } }

def allocEntry (s : State) (j : ℕ) (b : Uint) : State :=
  let bp := s.ip.addrs indirect
  { alloc s b with disk := { (alloc s b).disk with
      block := Function.update (alloc s b).disk.block bp (setEntry ((alloc s b).disk.block bp) j b) } }

theorem look_allocIndirect (zero : s.ip.addrs indirect = 0) :
    (allocAddr s indirect b).look = Function.update s.look none b := by
  funext q
  cases q with
  | none => simp [State.look, lookup, allocAddr]
  | some bn =>
    rw [Function.update_of_ne (by simp)]
    by_cases direct : bn.val < NDIRECT
    · have other : (⟨bn.val, Nat.lt_succ_of_lt direct⟩ : Fin (NDIRECT + 1)) ≠ indirect := by
        simp [indirect, Fin.ext_iff, direct.ne]
      rw [look_direct direct, look_direct direct]
      exact Function.update_of_ne other _ _
    · rw [look_entry direct, look_entry direct, if_pos zero]
      simp [allocAddr, alloc, entry_zero]

variable (mapped : Mapped sb s.disk s.ip)
include mapped

theorem look_allocDirect {i : Fin NDIRECT} (unused : s.disk.used b = false) :
    (allocAddr s i.castSucc b).look = Function.update s.look (some (i.castLE (Nat.le_add_right _ _))) b := by
  have other : indirect ≠ i.castSucc := (Fin.castSucc_lt_last i).ne'
  funext q
  cases q with
  | none =>
    rw [Function.update_of_ne (by simp)]
    exact Function.update_of_ne other _ _
  | some bn =>
    by_cases direct : bn.val < NDIRECT
    · rw [look_direct direct]
      by_cases same : bn.val = i.val
      · have equal : bn = i.castLE (Nat.le_add_right _ _) := Fin.ext same
        have equal' : (⟨bn.val, Nat.lt_succ_of_lt direct⟩ : Fin (NDIRECT + 1)) = i.castSucc := Fin.ext same
        have here : Function.update s.look (some (i.castLE (Nat.le_add_right _ _))) b (some bn) = b := by
          rw [equal, Function.update_self]
        rw [here, equal']
        exact Function.update_self _ _ _
      · rw [Function.update_of_ne (by simpa [Fin.ext_iff] using same), look_direct direct]
        exact Function.update_of_ne (by simpa [Fin.ext_iff] using same) _ _
    · have same : bn.val ≠ i.val := by omega
      rw [Function.update_of_ne (by simpa [Fin.ext_iff] using same), look_entry direct, look_entry direct]
      have kept : (allocAddr s i.castSucc b).ip.addrs indirect = s.ip.addrs indirect := Function.update_of_ne other _ _
      rw [kept]
      split
      · rfl
      · rename_i has
        have old : s.ip.addrs indirect ≠ b := mapped.ne_of_unused (p := none) has unused
        simp [allocAddr, alloc, old]

theorem look_allocEntry (far : ¬ bn.val < NDIRECT) (has : s.ip.addrs indirect ≠ 0) (unused : s.disk.used b = false) :
    (allocEntry s (bn.val - NDIRECT) b).look = Function.update s.look (some bn) b := by
  have old : s.ip.addrs indirect ≠ b := mapped.ne_of_unused (p := none) has unused
  funext q
  cases q with
  | none =>
    rw [Function.update_of_ne (by simp)]
    rfl
  | some bn' =>
    by_cases direct : bn'.val < NDIRECT
    · have other : bn' ≠ bn := by
        rintro rfl
        exact far direct
      rw [Function.update_of_ne (by simpa using other), look_direct direct, look_direct direct]
      rfl
    · rw [look_entry direct]
      simp only [allocEntry, alloc, Function.update_self, entry_setEntry, Function.update_of_ne old]
      rw [if_neg has]
      by_cases same : bn' = bn
      · rw [same, if_pos rfl, Function.update_self]
      · have apart : bn'.val - NDIRECT ≠ bn.val - NDIRECT := fun equal => same (Fin.ext (by omega))
        rw [if_neg apart, Function.update_of_ne (by simpa using same), look_entry direct, if_neg has]

theorem grows_allocAddr {i : Fin (NDIRECT + 1)} (zero : s.ip.addrs i = 0) (has : b ≠ 0)
    (unused : s.disk.used b = false) (inside : b.toNat < sb.size.toNat) : Grows sb s (allocAddr s i b) := by
  have old : ∀ c, s.disk.used c = true → (allocAddr s i b).disk.block c = s.disk.block c := by
    intro c used
    refine Function.update_of_ne ?_ _ _
    rintro rfl
    rw [used] at unused
    cases unused
  refine ⟨?_, rfl, rfl, fun bn some => old _ (mapped.used _ some)⟩
  refine Fin.lastCases (fun zero old => ?_) (fun i zero old => ?_) i zero old
  · exact .point (p := none) zero (look_allocIndirect zero) has unused inside rfl fun c used _ => old c used
  · refine .point ?_ (look_allocDirect mapped unused) has unused inside rfl fun c used _ => old c used
    rw [look_direct i.isLt]
    exact zero

theorem grows_allocEntry (far : ¬ bn.val < NDIRECT)
    (bp : s.ip.addrs indirect ≠ 0) (zero : s.look (some bn) = 0) (has : b ≠ 0) (unused : s.disk.used b = false)
    (inside : b.toNat < sb.size.toNat) : Grows sb s (allocEntry s (bn.val - NDIRECT) b) := by
  have old : ∀ c, s.disk.used c = true → s.look none ≠ c → (allocEntry s (bn.val - NDIRECT) b).disk.block c = s.disk.block c := by
    intro c used other
    refine (Function.update_of_ne (Ne.symm other) _ _).trans (Function.update_of_ne ?_ _ _)
    rintro rfl
    rw [used] at unused
    cases unused
  refine ⟨.point zero (look_allocEntry mapped far bp unused) has unused inside rfl fun c used other => old c used (other none),
    rfl, rfl, fun bn' has' => old _ (mapped.used _ has') fun same => ?_⟩
  cases mapped.distinct none (some bn') bp same

theorem addrOrAlloc_spec {i : Fin (NDIRECT + 1)} (reserved : Reserved sb s.disk) :
    wp E (addrOrAlloc sb i) (fun addr s' => addr = 0 ∧ s' = s ∧ s.ip.addrs i = 0 ∧ Full sb s.disk ∨
      addr ≠ 0 ∧ s'.ip.addrs i = addr ∧ Grows sb s s' ∧ (s.ip.addrs i ≠ 0 → s' = s)) s := by
  simp only [addrOrAlloc, wp_bind, wp_get, wp_ite]
  refine ⟨fun zero => ?_, fun has => .inr ⟨has, rfl, .refl, fun _ => rfl⟩⟩
  refine (balloc_spec reserved).mono fun b t got => ⟨?_, ?_⟩
  · rintro rfl
    rcases got with ⟨_, rfl, full⟩ | ⟨has, _⟩
    · exact .inl ⟨rfl, rfl, zero, full⟩
    · exact absurd rfl has
  · intro has
    rcases got with ⟨zero, _⟩ | ⟨_, rfl, unused, inside⟩
    · exact absurd zero has
    · refine .inr ⟨has, Function.update_self _ _ _, grows_allocAddr mapped zero has unused inside, fun some => absurd zero some⟩

theorem bmap_spec (reserved : Reserved sb s.disk) (bn : Fin MAXFILE) :
    wp E (bmap sb bn) (fun addr s' => Grows sb s s' ∧ (s.look (some bn) ≠ 0 → s' = s) ∧ s'.look (some bn) = addr ∧
      (addr = 0 → Full sb s'.disk)) s := by
  unfold bmap
  by_cases direct : bn.val < NDIRECT
  · rw [dif_pos direct]
    refine (addrOrAlloc_spec mapped reserved).mono fun addr t got => ?_
    rw [look_direct direct, look_direct direct]
    rcases got with ⟨rfl, rfl, zero, full⟩ | ⟨has, here, grows, same⟩
    · exact ⟨.refl, fun _ => rfl, zero, fun _ => full⟩
    · exact ⟨grows, same, here, fun zero => absurd zero has⟩
  · have small : bn.val - NDIRECT < NINDIRECT := by
      have less := bn.isLt
      simp only [MAXFILE] at less
      omega
    rw [dif_neg direct, if_pos small]
    simp only [wp_bind]
    refine (addrOrAlloc_spec mapped reserved).mono fun bp t got => ?_
    rw [wp_ite]
    rcases got with ⟨rfl, rfl, zero, full⟩ | ⟨has, rfl, grows, same⟩
    · refine ⟨fun _ => ⟨.refl, fun _ => rfl, ?_, fun _ => full⟩, fun has => absurd rfl has⟩
      rw [look_entry direct, if_pos zero]
    · refine ⟨fun zero => absurd zero has, fun _ => ?_⟩
      have mapped' := grows.mapped reserved mapped
      have back : s.look (some bn) ≠ 0 → t = s := by
        intro some
        refine same fun zero => some ?_
        rw [look_entry direct, if_pos zero]
      have here : t.look (some bn) = entry (t.disk.block (t.ip.addrs indirect)) (bn.val - NDIRECT) := by
        rw [look_entry direct, if_neg has]
      simp only [wp_bind, wp_get, wp_ite]
      rw [← here]
      refine ⟨fun zero => ?_, fun some => ⟨grows, back, rfl, fun zero => absurd zero some⟩⟩
      refine (balloc_spec (grows.ext.reserved reserved)).mono fun b u got => ⟨?_, fun has' => ?_⟩
      · rintro rfl
        rcases got with ⟨_, rfl, full⟩ | ⟨has', _⟩
        · exact ⟨grows, back, zero, fun _ => full⟩
        · exact absurd rfl has'
      · rcases got with ⟨zero', _⟩ | ⟨_, rfl, unused, inside⟩
        · exact absurd zero' has'
        · have more := grows_allocEntry mapped' direct has zero has' unused inside
          refine ⟨grows.trans more, fun some => ?_, ?_, fun zero' => absurd zero' has'⟩
          · rw [grows.ext.keeps _ some] at zero
            exact absurd zero some
          · have placed := look_allocEntry mapped' direct has unused
            exact (congrFun placed (some bn)).trans (Function.update_self _ _ _)

end OsProjects.Volume

import OsProjects.Volume.Content
import OsProjects.Volume.Logged

namespace OsProjects.Volume.Logged
open Bytes Hoare
open Logging (MAXOPBLOCKS)

variable {sb : Superblock} {E : Panic → Prop} {s s' : State} {j : Journal} {bn n tot off : ℕ} {j' : Journal}
  {D : Finset Uint} {t : State} {addr inodestart : Uint} {src : Source} {inum : ℕ}

/-! ## What an allocation logs -/

def around (sb : Superblock) (b : Uint) : Finset Uint := {b, bitmapBlock sb b}

theorem card_around (sb : Superblock) (b : Uint) : (around sb b).card ≤ 2 := Finset.card_le_two

theorem mem_around (sb : Superblock) (b : Uint) : b ∈ around sb b := Finset.mem_insert_self _ _

def Adds (j j' : Journal) (D : Finset Uint) : Prop := j'.ended = j.ended ∧ ∀ c ∈ j'.running, c ∈ j.running ∨ c ∈ D

theorem Adds.refl (j : Journal) (D : Finset Uint) : Adds j j D := ⟨rfl, fun _ => .inl⟩

theorem Adds.trans {j'' : Journal} {C : Finset Uint} (first : Adds j j' C) (second : Adds j' j'' D) : Adds j j'' (C ∪ D) := by
  refine ⟨second.1.trans first.1, fun c mem => ?_⟩
  rw [Finset.mem_union, ← or_assoc]
  exact (second.2 c mem).imp_left (first.2 c)

theorem Adds.mono {C : Finset Uint} (adds : Adds j j' C) (subset : C ⊆ D) : Adds j j' D :=
  ⟨adds.1, fun c mem => (adds.2 c mem).imp_right fun inside => subset inside⟩

theorem Adds.write {b : Uint} (adds : Adds j j' D) (inside : b ∈ D) :
    Adds j { j' with running := b :: j'.running } D := by
  refine ⟨adds.1, fun c mem => ?_⟩
  rcases List.mem_cons.mp mem with rfl | mem
  · exact .inr inside
  · exact adds.2 c mem

theorem balloc_logs : wp E (balloc sb) (fun b p => p.1.ip = s.ip ∧ Adds j p.2 (around sb b)) (s, j) := by
  simp only [balloc, wp_bind, wp_onState, wp_get]
  cases freeBit sb s.disk.used with
  | none => exact ⟨rfl, .refl _ _⟩
  | some b =>
    refine ⟨rfl, Adds.write (.write (.refl j _) ?_) (mem_around sb b)⟩
    exact Finset.mem_insert_of_mem (Finset.mem_singleton_self _)

theorem addrOrAlloc_logs {i : Fin (NDIRECT + 1)} :
    wp E (addrOrAlloc sb i) (fun addr p => p.1.ip.addrs = Function.update s.ip.addrs i addr ∧
      (s.ip.addrs i ≠ 0 → addr = s.ip.addrs i ∧ p.2 = j) ∧ Adds j p.2 (around sb addr)) (s, j) := by
  simp only [addrOrAlloc, wp_bind, wp_onState, wp_get, wp_ite]
  refine ⟨fun zero => ?_, fun has => ⟨by simp, fun _ => ⟨rfl, rfl⟩, .refl _ _⟩⟩
  refine balloc_logs.mono ?_
  rintro b p ⟨ip, adds⟩
  obtain ⟨t, j'⟩ := p
  refine ⟨fun none => ⟨?_, fun has => absurd zero has, ?_⟩, fun _ => ?_⟩
  · rw [ip, ← zero, Function.update_eq_self]
  · rwa [none] at adds
  · rw [wp_onState]
    refine ⟨?_, fun has => absurd zero has, adds⟩
    rw [← ip]

def slotOf (bn : ℕ) : Fin (NDIRECT + 1) := ⟨min bn NDIRECT, by omega⟩

def shared (sb : Superblock) (s s' : State) : Finset Uint :=
  if s.ip.addrs indirect = 0 then around sb (s'.ip.addrs indirect) else {s'.ip.addrs indirect}

theorem mem_shared (sb : Superblock) (s s' : State) : s'.ip.addrs indirect ∈ shared sb s s' := by
  unfold shared
  split
  · exact mem_around _ _
  · exact Finset.mem_singleton_self _

structure Found (sb : Superblock) (bn : ℕ) (s : State) (j : Journal) (addr : Uint) (s' : State) (j' : Journal) : Prop where
  slot : ∃ v, s'.ip.addrs = Function.update s.ip.addrs (slotOf bn) v ∧ (addr ≠ 0 → v ≠ 0) ∧ (s.ip.addrs (slotOf bn) ≠ 0 → v = s.ip.addrs (slotOf bn))
  direct : bn < NDIRECT → Adds j j' (around sb addr) ∧ (s.ip.addrs (slotOf bn) ≠ 0 → j' = j)
  far : ¬ bn < NDIRECT → Adds j j' (around sb addr ∪ shared sb s s')

theorem bmap_logs (less : bn < MAXFILE) : wp E (bmap sb bn) (fun addr p => Found sb bn s j addr p.1 p.2) (s, j) := by
  unfold bmap
  by_cases direct : bn < NDIRECT
  · have slot : slotOf bn = ⟨bn, by omega⟩ := Fin.ext (by simp only [slotOf]; omega)
    rw [dif_pos direct]
    refine addrOrAlloc_logs.mono ?_
    rintro addr p ⟨addrs, same, adds⟩
    rw [← slot] at addrs same
    exact ⟨⟨addr, addrs, id, fun has => (same has).1⟩, fun _ => ⟨adds, fun has => (same has).2⟩, fun far => absurd direct far⟩
  · have slot : slotOf bn = indirect := Fin.ext (by simp only [slotOf, indirect, Fin.val_last]; omega)
    have small : bn - NDIRECT < NINDIRECT := by
      simp only [MAXFILE] at less
      omega
    rw [dif_neg direct, if_pos small]
    simp only [wp_bind]
    refine addrOrAlloc_logs.mono ?_
    rintro bp p ⟨addrs, same, adds⟩
    obtain ⟨t, j'⟩ := p
    have here : t.ip.addrs indirect = bp := by
      change t.ip.addrs = _ at addrs
      rw [addrs, Function.update_self]
    have sharing : Adds j j' (shared sb s t) := by
      unfold shared
      split
      · rwa [here]
      · obtain ⟨_, rfl⟩ := same ‹_›
        exact .refl _ _
    have found (addr : Uint) (t' : State) (j'' : Journal) (ip : t'.ip = t.ip) (has : addr ≠ 0 → bp ≠ 0)
        (more : Adds j' j'' (around sb addr ∪ shared sb s t)) : Found sb bn s j addr t' j'' := by
      have shares : shared sb s t' = shared sb s t := by simp only [shared, ip]
      refine ⟨⟨bp, by rw [slot, ip]; exact addrs, has, fun old => ?_⟩, fun near => absurd near direct, fun _ => ?_⟩
      · rw [slot] at old ⊢
        exact (same old).1
      · rw [shares]
        exact (sharing.trans more).mono (Finset.union_subset Finset.subset_union_right (Finset.Subset.refl _))
    rw [wp_ite]
    refine ⟨fun zero => found 0 t j' rfl (fun some => absurd rfl some) (.refl _ _), fun has => ?_⟩
    simp only [wp_bind, wp_onState, wp_get, wp_ite]
    refine ⟨fun _ => ?_, fun _ => found _ t j' rfl (fun _ => has) (.refl _ _)⟩
    refine balloc_logs.mono ?_
    rintro b p ⟨ip, more⟩
    obtain ⟨u, j''⟩ := p
    have wider : Adds j' j'' (around sb b ∪ shared sb s t) := more.mono Finset.subset_union_left
    refine ⟨fun zero => ?_, fun _ => ?_⟩
    · rw [zero] at wider
      exact found 0 u j'' ip (fun some => absurd rfl some) wider
    · rw [wp_onState]
      refine found b _ _ ip (fun _ => has) (wider.write (Finset.mem_union_right _ ?_))
      rw [← here]
      exact mem_shared sb s t

/-! ## What a write logs -/

theorem shared_of_eq (same : s'.ip.addrs indirect = t.ip.addrs indirect) : shared sb s t = shared sb s s' := by
  simp only [shared, same]

theorem shared_subset (keeps : s.ip.addrs indirect ≠ 0 → t.ip.addrs indirect = s.ip.addrs indirect) :
    shared sb t s' ⊆ shared sb s s' := by
  by_cases old : s.ip.addrs indirect = 0
  · by_cases zero : t.ip.addrs indirect = 0
    · rw [shared, shared, if_pos zero, if_pos old]
    · rw [shared, if_neg zero, Finset.singleton_subset_iff]
      exact mem_shared sb s s'
  · rw [shared, shared, if_neg old, keeps old, if_neg old]

theorem Found.keeps (found : Found sb bn s j addr s' j') (i : Fin (NDIRECT + 1)) (has : s.ip.addrs i ≠ 0) :
    s'.ip.addrs i = s.ip.addrs i := by
  obtain ⟨v, addrs, _, same⟩ := found.slot
  rw [addrs]
  by_cases this : i = slotOf bn
  · rw [this, Function.update_self]
    exact same (this ▸ has)
  · exact Function.update_of_ne this _ _

/-- What is logged for one block of the contents: the block, and the one of its bit if it may be new. -/
def single (sb : Superblock) (s : State) (bn : ℕ) (addr : Uint) : Finset Uint :=
  if bn < NDIRECT ∧ s.ip.addrs (slotOf bn) ≠ 0 then {addr} else around sb addr

theorem mem_single (sb : Superblock) (s : State) (bn : ℕ) (addr : Uint) : addr ∈ single sb s bn addr := by
  unfold single
  split
  · exact Finset.mem_singleton_self _
  · exact mem_around _ _

theorem card_single (sb : Superblock) (s : State) (bn : ℕ) (addr : Uint) : (single sb s bn addr).card ≤ 2 := by
  unfold single
  split
  · rw [Finset.card_singleton]
    omega
  · exact card_around _ _

theorem Found.adds (found : Found sb bn s j addr s' j') :
    Adds j j' (single sb s bn addr ∪ if bn < NDIRECT then ∅ else shared sb s s') := by
  by_cases direct : bn < NDIRECT
  · rw [if_pos direct, Finset.union_empty]
    obtain ⟨adds, same⟩ := found.direct direct
    by_cases old : s.ip.addrs (slotOf bn) ≠ 0
    · rw [same old]
      exact .refl _ _
    · rw [single, if_neg fun both => old both.2]
      exact adds
  · rw [if_neg direct, single, if_neg fun both => direct both.1]
    exact found.far direct

def turns (off len : ℕ) : ℕ := if len = 0 then 0 else (off % BSIZE + len + BSIZE - 1) / BSIZE

theorem turns_chunk (less : tot < n) : turns off (n - tot) = turns (off + chunk n tot off) (n - (tot + chunk n tot off)) + 1 := by
  have parts : chunk n tot off = min (n - tot) (BSIZE - off % BSIZE) := rfl
  simp only [turns, BSIZE] at *
  split <;> split <;> omega

structure Passed (sb : Superblock) (n tot off : ℕ) (s : State) (j : Journal) (r : ℕ × ℕ) (s' : State) (j' : Journal) : Prop where
  bound : r.1 ≤ n
  keeps : ∀ i, s.ip.addrs i ≠ 0 → s'.ip.addrs i = s.ip.addrs i
  last : r.1 = n → r.2 = off + (n - tot) ∧ (tot < n → s'.ip.addrs (slotOf ((r.2 - 1) / BSIZE)) ≠ 0)
  logs : ∃ D : Finset Uint, D.card ≤ 2 * turns off (n - tot) ∧
    (tot < n → off / BSIZE < NDIRECT → s.ip.addrs (slotOf (off / BSIZE)) ≠ 0 → D.card + 1 ≤ 2 * turns off (n - tot)) ∧
    Adds j j' (D ∪ shared sb s s')

theorem Passed.step {u : State} {j'' : Journal} {r : ℕ × ℕ} (found : Found sb (off / BSIZE) s j addr t j') (has : addr ≠ 0)
    (less : tot < n) (ip : u.ip = t.ip)
    (rest : Passed sb n (tot + chunk n tot off) (off + chunk n tot off) u { j' with running := addr :: j'.running } r s' j'') :
    Passed sb n tot off s j r s' j'' := by
  have pos := chunk_pos off less
  have fits := chunk_le n tot off
  obtain ⟨v, addrs, some, _⟩ := found.slot
  have filled : u.ip.addrs (slotOf (off / BSIZE)) ≠ 0 := by
    rw [ip, addrs, Function.update_self]
    exact some has
  have keeps (i : Fin (NDIRECT + 1)) (old : s.ip.addrs i ≠ 0) : u.ip.addrs i = s.ip.addrs i := by
    rw [ip]
    exact found.keeps i old
  refine ⟨rest.bound, fun i old => ?_, fun all => ?_, ?_⟩
  · rw [rest.keeps i (by rwa [keeps i old]), keeps i old]
  · obtain ⟨moved, last⟩ := rest.last all
    refine ⟨by omega, fun _ => ?_⟩
    by_cases more : tot + chunk n tot off < n
    · exact last more
    · -- The last chunk is this one.
      have same : (r.2 - 1) / BSIZE = off / BSIZE := by
        have block := chunk_fits n tot off
        simp only [BSIZE] at block ⊢
        omega
      rw [same, rest.keeps _ filled]
      exact filled
  · obtain ⟨D, card, _, adds⟩ := rest.logs
    have turn : turns off (n - tot) = turns (off + chunk n tot off) (n - (tot + chunk n tot off)) + 1 := turns_chunk less
    have here := card_single sb s (off / BSIZE) addr
    refine ⟨single sb s (off / BSIZE) addr ∪ D, ?_, fun _ direct old => ?_, ?_⟩
    · have union := Finset.card_union_le (single sb s (off / BSIZE) addr) D
      omega
    · have union := Finset.card_union_le (single sb s (off / BSIZE) addr) D
      have one : (single sb s (off / BSIZE) addr).card = 1 := by
        rw [single, if_pos ⟨direct, old⟩, Finset.card_singleton]
      omega
    · have first := found.adds.write (Finset.mem_union_left _ (mem_single sb s (off / BSIZE) addr))
      refine (first.trans adds).mono ?_
      have later : shared sb u s' ⊆ shared sb s s' := shared_subset fun old => keeps _ old
      have earlier : (if off / BSIZE < NDIRECT then ∅ else shared sb s t) ⊆ shared sb s s' := by
        split
        · exact Finset.empty_subset _
        · have far : slotOf (off / BSIZE) = indirect := Fin.ext (by simp only [slotOf, indirect, Fin.val_last]; omega)
          rw [far] at filled
          have same : s'.ip.addrs indirect = t.ip.addrs indirect := by rw [rest.keeps _ filled, ip]
          rw [shared_of_eq same]
      intro c mem
      simp only [Finset.mem_union] at mem ⊢
      rcases mem with (mem | mem) | mem | mem
      · exact .inl (.inl mem)
      · exact .inr (earlier mem)
      · exact .inl (.inr mem)
      · exact .inr (later mem)

theorem Passed.stop {u : State} (found : Found sb (off / BSIZE) s j addr t j') (less : tot < n)
    (ip : u.ip = t.ip) : Passed sb n tot off s j (tot, off) u j' := by
  have some : 0 < turns off (n - tot) := by
    rw [turns_chunk less]
    omega
  have same : shared sb s u = shared sb s t := shared_of_eq (by rw [ip])
  refine ⟨less.le, fun i old => ?_, fun all => absurd all less.ne, single sb s (off / BSIZE) addr, ?_, fun _ direct old => ?_, ?_⟩
  · rw [ip]
    exact found.keeps i old
  · have card := card_single sb s (off / BSIZE) addr
    omega
  · rw [single, if_pos ⟨direct, old⟩, Finset.card_singleton]
    omega
  · refine found.adds.mono (Finset.union_subset_union_right ?_)
    split
    · exact Finset.empty_subset _
    · rw [same]

theorem writeLoop_logs {fuel : ℕ} (small : n < 2 ^ 32) (enough : n < fuel + tot) (le : tot ≤ n)
    (inside : off + (n - tot) ≤ MAXFILE * BSIZE) :
    wp E (writeLoop sb src n fuel tot off) (fun r p => Passed sb n tot off s j r p.1 p.2) (s, j) := by
  induction fuel generalizing tot off s j with
  | zero => omega
  | succ fuel ih =>
    rw [writeLoop, wp_ite]
    refine ⟨fun less => ?_, fun done => ?_⟩
    · have index : off / BSIZE < MAXFILE := Nat.div_lt_of_lt_mul (by rw [Nat.mul_comm]; omega)
      have limit : MAXFILE * BSIZE < 2 ^ 32 := by decide
      have pos := chunk_pos off less
      have fits := chunk_le n tot off
      rw [wp_bind]
      refine (bmap_logs index).mono fun addr p found => ?_
      obtain ⟨t, j'⟩ := p
      rw [wp_ite]
      refine ⟨fun _ => .stop found less rfl, fun has => ?_⟩
      simp only [wp_bind, wp_onState, wp_get, wp_ite]
      refine ⟨fun _ => .stop found less rfl, fun _ => ?_⟩
      rw [uadd_eq (by omega), uadd_eq (by omega)]
      exact (ih (by omega) (by omega) (by omega)).mono fun r p rest => .step found has less (by rfl) rest
    · obtain rfl : tot = n := by omega
      refine ⟨le_rfl, fun _ _ => rfl, fun _ => ⟨by omega, fun less => absurd less (lt_irrefl _)⟩, ∅, ?_, fun less => absurd less (lt_irrefl _), .refl _ _⟩
      exact Nat.zero_le _

def Started (addrs : Fin (NDIRECT + 1) → Uint) (off : ℕ) : Prop :=
  off % BSIZE ≠ 0 → off / BSIZE < MAXFILE → addrs (slotOf (off / BSIZE)) ≠ 0

theorem card_logged {ib : Uint} (started : Started s.ip.addrs off) (few : n ≤ maxBytes) (index : off / BSIZE < MAXFILE)
    (some : 0 < n) (card : D.card ≤ 2 * turns off n)
    (first : off / BSIZE < NDIRECT → s.ip.addrs (slotOf (off / BSIZE)) ≠ 0 → D.card + 1 ≤ 2 * turns off n) :
    (insert ib (D ∪ shared sb s s')).card ≤ MAXOPBLOCKS := by
  have all := Finset.card_insert_le ib (D ∪ shared sb s s')
  have union := Finset.card_union_le D (shared sb s s')
  have limit : n ≤ 3072 := few
  have blocks : turns off n ≤ 3 ∨ off % BSIZE ≠ 0 ∧ turns off n ≤ 4 := by
    simp only [turns, BSIZE]
    split <;> omega
  change _ ≤ 10
  by_cases old : s.ip.addrs indirect = 0
  · -- The block of addresses may be new: then the write starts before it.
    have two : (shared sb s s').card ≤ 2 := by
      rw [shared, if_pos old]
      exact card_around _ _
    rcases blocks with three | ⟨unaligned, four⟩
    · omega
    · have filled := started unaligned index
      have direct : off / BSIZE < NDIRECT := by
        by_contra far
        have last : slotOf (off / BSIZE) = indirect := Fin.ext (by simp only [slotOf, indirect, Fin.val_last]; omega)
        rw [last] at filled
        exact filled old
      have less := first direct filled
      omega
  · have one : (shared sb s s').card = 1 := by rw [shared, if_neg old, Finset.card_singleton]
    omega

theorem writei_logs {off n : Uint} (started : Started s.ip.addrs off.toNat)
    (few : n.toNat ≤ maxBytes) (pos : 0 < n.toNat) :
    wp E (writei sb inodestart inum src off n) (fun r p => (∃ D : Finset Uint, D.card ≤ MAXOPBLOCKS ∧ Adds j p.2 D) ∧
      (r = some n.toNat → Started p.1.ip.addrs (off + n).toNat)) (s, j) := by
  simp only [writei, wp_bind, wp_onState, wp_get, wp_ite]
  have refused : (∃ D : Finset Uint, D.card ≤ MAXOPBLOCKS ∧ Adds j j D) ∧
      (none = some n.toNat → Started s.ip.addrs (off + n).toNat) := ⟨⟨∅, by decide, .refl _ _⟩, by simp⟩
  refine ⟨fun _ => refused, fun accepted => ⟨fun _ => refused, fun bounded => ?_⟩⟩
  rw [not_or] at accepted
  have total : (off + n).toNat = off.toNat + n.toNat := by bv_omega
  have index : off.toNat / BSIZE < MAXFILE := Nat.div_lt_of_lt_mul (by rw [Nat.mul_comm]; omega)
  refine (writeLoop_logs n.isLt (by omega) (by omega) (by omega)).mono fun r p passed => ?_
  obtain ⟨t, j'⟩ := p
  obtain ⟨D, card, first, adds⟩ := passed.logs
  rw [Nat.sub_zero] at card first
  constructor
  · refine ⟨insert (inodeBlock inodestart inum) (D ∪ shared sb s t), card_logged started few index pos card (first pos), ?_⟩
    exact (adds.mono (Finset.subset_insert _ _)).write (Finset.mem_insert_self _ _)
  · rintro whole unaligned inside
    obtain ⟨moved, last⟩ := passed.last (Option.some.inj whole)
    have same : (r.2 - 1) / BSIZE = (off + n).toNat / BSIZE := by
      rw [moved, total]
      rw [total] at unaligned
      simp only [BSIZE] at unaligned ⊢
      omega
    rw [← same]
    exact last pos

theorem writeTurn_logs {n1 : ℕ} {off : Uint} (started : Started s.ip.addrs off.toNat)
    (few : n1 ≤ maxBytes) (pos : 0 < n1) :
    wp E (writeTurn sb inodestart inum src off n1) (fun r p => (∃ l, p.2.ended = l :: j.ended ∧ l.toFinset.card ≤ MAXOPBLOCKS) ∧
      (r.1 = some n1 → Started p.1.ip.addrs r.2.toNat)) (s, j) := by
  have limit : n1 ≤ 3072 := few
  have number : (BitVec.ofNat 32 n1).toNat = n1 := by rw [BitVec.toNat_ofNat, Nat.mod_eq_of_lt (by omega)]
  simp only [writeTurn, beginOp, endOp, wp_bind, wp_note]
  refine (writei_logs started (by rwa [number]) (by rwa [number])).mono ?_
  rintro r p ⟨⟨D, card, ended, adds⟩, next⟩
  obtain ⟨t, j'⟩ := p
  refine ⟨⟨j'.running, congrArg _ ended, ?_⟩, ?_⟩
  · refine (Finset.card_le_card fun c mem => ?_).trans card
    exact (adds c (List.mem_toFinset.mp mem)).resolve_left (List.not_mem_nil)
  · rintro whole
    have value : r = some n1 := whole
    rw [number] at next
    have started' := next value
    rw [value]
    exact started'

/-! ## The whole call -/

theorem filewriteLoop_logs {n i fuel : ℕ} {src : ℕ → Source} {off : Uint} (started : Started s.ip.addrs off.toNat)
    (fits : ∀ l ∈ j.ended, l.toFinset.card ≤ MAXOPBLOCKS) (enough : n < fuel + i) (le : i ≤ n) :
    wp E (filewriteLoop sb inodestart inum src n fuel i off) (fun _ p => ∀ l ∈ p.2.ended, l.toFinset.card ≤ MAXOPBLOCKS) (s, j) := by
  induction fuel generalizing i off s j with
  | zero => omega
  | succ fuel ih =>
    rw [filewriteLoop, wp_ite]
    refine ⟨fun less => ?_, fun _ => fits⟩
    have some : 0 < maxBytes := by decide
    simp only [wp_bind]
    refine (writeTurn_logs started (Nat.min_le_right _ _) (by omega)).mono ?_
    rintro r p ⟨⟨l, ended, card⟩, next⟩
    obtain ⟨t, j'⟩ := p
    have fits' : ∀ l ∈ j'.ended, l.toFinset.card ≤ MAXOPBLOCKS := by
      intro l' mem
      change j'.ended = _ at ended
      rw [ended] at mem
      rcases List.mem_cons.mp mem with rfl | mem
      · exact card
      · exact fits l' mem
    rw [wp_ite]
    refine ⟨fun whole => ih (next whole) fits' (by omega) (by omega), fun _ => fits'⟩

/-- Each transaction of a write to a file logs at most as many blocks as are reserved for it: any one turn of the loop, and
all of them in a call, from an inode that has all its blocks and an offset in the file. -/
theorem filewrite_fits_reservation (sb : Superblock) (inodestart : Uint) (inum : ℕ) (s : State) (off : Uint)
    (allocated : ∀ bn : Fin MAXFILE, bn.val * BSIZE < s.ip.size.toNat → s.look (some bn) ≠ 0) (before : off.toNat ≤ s.ip.size.toNat) :
    (∀ src n1 j, 0 < n1 → n1 ≤ maxBytes → wp (fun _ => False) (writeTurn sb inodestart inum src off n1)
      (fun _ p => ∃ l, p.2.ended = l :: j.ended ∧ l.toFinset.card ≤ MAXOPBLOCKS) (s, j)) ∧
    ∀ src n, wp (fun _ => False) (filewrite sb inodestart inum src n off)
      (fun _ p => ∀ l ∈ p.2.ended, l.toFinset.card ≤ MAXOPBLOCKS) (s, ⟨[], []⟩) := by
  have started : Started s.ip.addrs off.toNat := by
    intro unaligned inside zero
    have has := allocated ⟨off.toNat / BSIZE, inside⟩ (by
      simp only [BSIZE] at unaligned ⊢
      omega)
    by_cases direct : off.toNat / BSIZE < NDIRECT
    · have slot : slotOf (off.toNat / BSIZE) = ⟨off.toNat / BSIZE, by omega⟩ := Fin.ext (by simp only [slotOf]; omega)
      rw [look_direct direct] at has
      exact has (slot ▸ zero)
    · have slot : slotOf (off.toNat / BSIZE) = indirect := Fin.ext (by simp only [slotOf, indirect, Fin.val_last]; omega)
      rw [look_entry direct, ← slot, if_pos zero] at has
      exact has rfl
  refine ⟨fun src n1 j pos few => ?_, fun src n => ?_⟩
  · exact (writeTurn_logs started few pos).mono fun r p done => done.1
  · rw [filewrite, wp_bind]
    exact (filewriteLoop_logs started (by simp) (by omega) (Nat.zero_le _)).mono fun _ _ all => all

def tenBytes : State where
  disk :=
    { used := fun b => b.toNat < 13
      block := fun _ _ => 0
      dinode := fun _ => .fresh .file }
  ip := { Inodes.Dinode.fresh .file with size := 10, addrs := Function.update (fun _ => 0) 0 10 }

theorem filewrite_fits_reservation_tenBytes :
    ∃ r p, filewrite ⟨16, 10, 3⟩ 2 1 (fun _ => .whole fun _ => 1) 5000 10 (tenBytes, ⟨[], []⟩) = .ok (r, p) ∧
      ∀ l ∈ p.2.ended, l.toFinset.card ≤ MAXOPBLOCKS := by
  have mapped : Mapped ⟨16, 10, 3⟩ tenBytes.disk tenBytes.ip :=
    mapped_single rfl (by decide) (by decide) (by decide) (by decide)
  exact ((filewrite_fits_reservation ⟨16, 10, 3⟩ 2 1 tenBytes 10 mapped.covered (by decide)).2 _ 5000).exists_ok

end OsProjects.Volume.Logged

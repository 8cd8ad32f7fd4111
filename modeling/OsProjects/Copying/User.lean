import OsProjects.Copying.Out

namespace OsProjects.Copying
open Bytes
open Paging hiding Proc

/-! ## Copies from user space -/

abbrev Buffer := ℕ → UInt8

def copyinLoop (m : Mem) (pagetable : Page) : ℕ → ℕ → ℕ → ℕ → Buffer → Option (ℤ × Buffer)
  | 0, _, _, len, buf => if len = 0 then some (0, buf) else none
  | fuel + 1, dst, srcva, len, buf =>
    if len = 0 then some (0, buf)
    else
      let va0 := pgRoundDown srcva
      match walkaddr m pagetable va0 with
      | none => some (-1, buf)
      | some pa0 =>
        let n := min (PGSIZE - (srcva - va0)) len
        copyinLoop m pagetable fuel (dst + n) ((va0 + PGSIZE) % 2 ^ 64) (len - n)
          (put buf dst n fun k => m.byte (pa0 + (srcva - va0) + k))

def copyin (m : Mem) (pagetable : Page) (srcva len : BitVec 64) (buf : Buffer) : Option (ℤ × Buffer) :=
  copyinLoop m pagetable len.toNat 0 srcva.toNat len.toNat buf

/-- The inner loop of `copyinstr`: whether a NUL came, how often the pointers moved, and the buffer. -/
def copyChars (m : Mem) : ℕ → ℕ → ℕ → Buffer → Bool × ℕ × Buffer
  | 0, _, _, buf => (false, 0, buf)
  | n + 1, p, dst, buf =>
    if m.byte p = 0 then (true, 0, Function.update buf dst 0)
    else
      let (gotNull, moved, buf) := copyChars m n (p + 1) (dst + 1) (Function.update buf dst (m.byte p))
      (gotNull, moved + 1, buf)

def copyinstrLoop (m : Mem) (pagetable : Page) : ℕ → ℕ → ℕ → ℕ → Buffer → Option (ℤ × Buffer)
  | 0, _, _, max, buf => if max = 0 then some (-1, buf) else none
  | fuel + 1, dst, srcva, max, buf =>
    if max = 0 then some (-1, buf)
    else
      let va0 := pgRoundDown srcva
      match walkaddr m pagetable va0 with
      | none => some (-1, buf)
      | some pa0 =>
        let n := min (PGSIZE - (srcva - va0)) max
        match copyChars m n (pa0 + (srcva - va0)) dst buf with
        | (true, _, buf) => some (0, buf)
        | (false, moved, buf) =>
          copyinstrLoop m pagetable fuel (dst + moved) ((va0 + PGSIZE) % 2 ^ 64) (max - moved) buf

def copyinstr (m : Mem) (pagetable : Page) (srcva max : BitVec 64) (buf : Buffer) : Option (ℤ × Buffer) :=
  copyinstrLoop m pagetable max.toNat 0 srcva.toNat max.toNat buf

variable {m : Mem} {pagetable : Page} {va pa : ℕ}

def byteAfter (m : Mem) (pagetable : Page) (va k : ℕ) : Option UInt8 := (physAfter m pagetable va k).map m.byte

theorem byteAfter_page {k : ℕ} (page : walkaddr m pagetable (pgRoundDown va) = some pa) (fits : va % PGSIZE + k < PGSIZE)
    (same : (va + k) % 2 ^ 64 = va + k) : byteAfter m pagetable va k = some (m.byte (pa + va % PGSIZE + k)) := by
  rw [byteAfter, physAfter_page page fits same, Option.map_some]

theorem byteAfter_rest {n k next : ℕ} (same : (va + (n + k)) % 2 ^ 64 = (next + k) % 2 ^ 64) :
    byteAfter m pagetable va (n + k) = byteAfter m pagetable next k := by
  rw [byteAfter, physAfter_rest same, byteAfter]

theorem byteAfter_none (none : walkaddr m pagetable (pgRoundDown va) = none) (small : va < 2 ^ 64) :
    byteAfter m pagetable va 0 = .none := by
  rw [byteAfter, physAfter_none none small, Option.map_none]

/-! ## How far a copy gets -/

def mappedRun (m : Mem) (pagetable : Page) : ℕ → ℕ → ℕ
  | _, 0 => 0
  | va, len + 1 => if (byteAfter m pagetable va 0).isSome then mappedRun m pagetable (va + 1) len + 1 else 0

theorem byteAfter_succ (k : ℕ) : byteAfter m pagetable (va + 1) k = byteAfter m pagetable va (k + 1) := by
  rw [byteAfter, byteAfter, physAfter, physAfter, Nat.add_assoc, Nat.add_comm 1 k]

theorem mappedRun_spec (m : Mem) (pagetable : Page) (va len : ℕ) : mappedRun m pagetable va len ≤ len ∧
    (∀ k < mappedRun m pagetable va len, (byteAfter m pagetable va k).isSome) ∧
    (mappedRun m pagetable va len < len → byteAfter m pagetable va (mappedRun m pagetable va len) = none) := by
  induction len generalizing va with
  | zero => simp [mappedRun]
  | succ len ih =>
    obtain ⟨most, all, last⟩ := ih (va + 1)
    simp only [byteAfter_succ] at all last
    by_cases first : (byteAfter m pagetable va 0).isSome
    · rw [mappedRun, if_pos first]
      refine ⟨by omega, fun k less => ?_, fun less => last (by omega)⟩
      cases k with
      | zero => exact first
      | succ k => exact all k (by omega)
    · rw [mappedRun, if_neg first]
      exact ⟨by omega, by simp, fun _ => by simpa using first⟩

theorem mappedRun_eq {len c : ℕ} (most : c ≤ len) (all : ∀ k < c, (byteAfter m pagetable va k).isSome)
    (last : c < len → byteAfter m pagetable va c = none) : mappedRun m pagetable va len = c := by
  obtain ⟨most', all', last'⟩ := mappedRun_spec m pagetable va len
  rcases Nat.lt_trichotomy (mappedRun m pagetable va len) c with less | equal | more
  · have some := all _ less
    rw [last' (by omega)] at some
    cases some
  · exact equal
  · have some := all' _ more
    rw [last (by omega)] at some
    cases some

/-! ## `copyin` -/

theorem copyinLoop_run {fuel srcva len : ℕ} (dst : ℕ) (buf : Buffer) (small : srcva < 2 ^ 64) (enough : len ≤ fuel) :
    copyinLoop m pagetable fuel dst srcva len buf =
      some (if mappedRun m pagetable srcva len = len then 0 else -1,
        put buf dst (mappedRun m pagetable srcva len) fun k => (byteAfter m pagetable srcva k).getD 0) := by
  induction fuel generalizing srcva len dst buf with
  | zero =>
    obtain rfl : len = 0 := by omega
    simp [copyinLoop, mappedRun, put_none]
  | succ fuel ih =>
    rw [copyinLoop]
    by_cases none : len = 0
    · subst none
      simp [mappedRun, put_none]
    rw [if_neg none]
    cases page : walkaddr m pagetable (pgRoundDown srcva) with
    | none =>
      have run : mappedRun m pagetable srcva len = 0 :=
        mappedRun_eq (Nat.zero_le _) (by simp) fun _ => byteAfter_none page small
      rw [run, if_neg (Ne.symm none), put_none]
      simp only [page]
    | some pa =>
      obtain ⟨n, size, positive, most, start, inside, rest⟩ := turn_split small none
      have here : ∀ k < n, byteAfter m pagetable srcva k = some (m.byte (pa + srcva % PGSIZE + k)) :=
        fun k less => byteAfter_page page (inside k less).1 (inside k less).2
      have after : ∀ k < len - n, byteAfter m pagetable srcva (n + k) =
          byteAfter m pagetable ((pgRoundDown srcva + PGSIZE) % 2 ^ 64) k := fun k less => byteAfter_rest (rest k less)
      obtain ⟨most', all, last⟩ :=
        mappedRun_spec m pagetable ((pgRoundDown srcva + PGSIZE) % 2 ^ 64) (len - n)
      have run : mappedRun m pagetable srcva len =
          n + mappedRun m pagetable ((pgRoundDown srcva + PGSIZE) % 2 ^ 64) (len - n) := by
        refine mappedRun_eq (by omega) (fun k less => ?_) fun less => ?_
        · by_cases early : k < n
          · simp [here k early]
          · obtain ⟨j, rfl⟩ := Nat.exists_eq_add_of_le (not_lt.mp early)
            rw [after j (by omega)]
            exact all j (by omega)
        · rw [after _ (by omega)]
          exact last (by omega)
      simp only [page, size, start]
      rw [ih (dst + n) _ (next_lt srcva) (by omega), run]
      congr 2
      · by_cases whole : mappedRun m pagetable ((pgRoundDown srcva + PGSIZE) % 2 ^ 64) (len - n) = len - n
        · rw [if_pos whole, if_pos (by omega)]
        · rw [if_neg whole, if_neg (by omega)]
      · refine put_append (fun k less => ?_) fun k less => ?_
        · rw [here k less]
          rfl
        · rw [after k (by omega)]

theorem copyinLoop_spec (m : Mem) (pagetable : Page) {fuel srcva len : ℕ} (dst : ℕ) (buf : Buffer) (small : srcva < 2 ^ 64) (enough : len ≤ fuel) :
    ∃ r buf', copyinLoop m pagetable fuel dst srcva len buf = some (r, buf') ∧ (r = 0 ∨ r = -1) ∧
      (r = 0 ↔ ∀ k < len, (byteAfter m pagetable srcva k).isSome) ∧
      (r = 0 → ∀ k < len, byteAfter m pagetable srcva k = some (buf' (dst + k))) ∧
      ∀ i, i < dst ∨ dst + len ≤ i → buf' i = buf i := by
  obtain ⟨most, all, last⟩ := mappedRun_spec m pagetable srcva len
  refine ⟨_, _, copyinLoop_run dst buf small enough, ?_, ?_, ?_, fun i outside => put_of_notMem (by omega)⟩
  · split <;> simp
  · by_cases whole : mappedRun m pagetable srcva len = len
    · rw [if_pos whole]
      exact ⟨fun _ k less => all k (by omega), fun _ => rfl⟩
    · rw [if_neg whole]
      refine ⟨by simp, fun every => ?_⟩
      simpa [last (by omega)] using every _ (by omega : mappedRun m pagetable srcva len < len)
  · intro zero k less
    have whole : mappedRun m pagetable srcva len = len := by
      by_contra part
      rw [if_neg part] at zero
      cases zero
    obtain ⟨c, value⟩ := Option.isSome_iff_exists.mp (all k (by omega))
    rw [put_of_mem (by omega) (by omega), Nat.add_sub_cancel_left, value, Option.getD_some]

/-! ## `copyinstr` -/

def StringAt (m : Mem) (pagetable : Page) (va k : ℕ) : Prop :=
  byteAfter m pagetable va k = some 0 ∧ ∀ i < k, ∃ c ≠ 0, byteAfter m pagetable va i = some c

theorem copyChars_spec (m : Mem) (n p dst : ℕ) (buf : Buffer) : ∃ k buf', k ≤ n ∧
    copyChars m n p dst buf = (decide (k < n), k, buf') ∧ (∀ i < k, m.byte (p + i) ≠ 0) ∧ (k < n → m.byte (p + k) = 0) ∧
    (∀ i < n, i ≤ k → buf' (dst + i) = m.byte (p + i)) ∧ ∀ i, i < dst ∨ dst + n ≤ i → buf' i = buf i := by
  induction n generalizing p dst buf with
  | zero => exact ⟨0, buf, le_rfl, rfl, by simp, by simp, by simp, fun i _ => rfl⟩
  | succ n ih =>
    by_cases null : m.byte p = 0
    · refine ⟨0, Function.update buf dst 0, by omega, by simp [copyChars, null], by simp, fun _ => null, fun i _ first => ?_,
        fun i outside => Function.update_of_ne (by omega) _ _⟩
      obtain rfl : i = 0 := by omega
      simp [null]
    · obtain ⟨k, buf', most, ran, earlier, last, bytes, frame⟩ := ih (p + 1) (dst + 1) (Function.update buf dst (m.byte p))
      have shift (a i : ℕ) : a + 1 + i = a + (i + 1) := by omega
      simp only [shift] at earlier last bytes
      refine ⟨k + 1, buf', by omega, by simp [copyChars, null, ran], ?_, fun less => last (by omega), ?_, ?_⟩
      · rintro (_ | i) less
        · exact null
        · exact earlier i (by omega)
      · rintro (_ | i) less before
        · rw [Nat.add_zero, frame dst (by omega), Function.update_self, Nat.add_zero]
        · exact bytes i (by omega) (by omega)
      · intro i outside
        rw [frame i (by omega)]
        exact Function.update_of_ne (by omega) _ _

theorem StringAt.unique {k j : ℕ} (first : StringAt m pagetable va k) (second : StringAt m pagetable va j) : k = j := by
  have before {k j : ℕ} (first : StringAt m pagetable va k) (second : StringAt m pagetable va j) : ¬ k < j := by
    intro less
    obtain ⟨c, some, byte⟩ := second.2 k less
    rw [first.1] at byte
    exact some (Option.some.inj byte).symm
  have := before first second
  have := before second first
  omega

theorem stringAt_rest {n i next : ℕ} (first : ∀ j < n, ∃ c ≠ 0, byteAfter m pagetable va j = some c)
    (rest : ∀ j ≤ i, byteAfter m pagetable va (n + j) = byteAfter m pagetable next j) :
    StringAt m pagetable va (n + i) ↔ StringAt m pagetable next i := by
  rw [StringAt, StringAt, rest i le_rfl]
  refine and_congr_right fun _ => ⟨fun all j less => ?_, fun all j less => ?_⟩
  · rw [← rest j less.le]
    exact all (n + j) (by omega)
  · by_cases early : j < n
    · exact first j early
    · obtain ⟨l, rfl⟩ := Nat.exists_eq_add_of_le (not_lt.mp early)
      rw [rest l (by omega)]
      exact all l (by omega)

theorem copyinstrLoop_spec (m : Mem) (pagetable : Page) {fuel srcva max : ℕ} (dst : ℕ) (buf : Buffer) (small : srcva < 2 ^ 64) (enough : max ≤ fuel) :
    ∃ r buf', copyinstrLoop m pagetable fuel dst srcva max buf = some (r, buf') ∧ (r = 0 ∨ r = -1) ∧
      (r = 0 ↔ ∃ k < max, StringAt m pagetable srcva k) ∧
      (∀ k < max, StringAt m pagetable srcva k → ∀ i ≤ k, byteAfter m pagetable srcva i = some (buf' (dst + i))) ∧
      ∀ i, i < dst ∨ dst + max ≤ i → buf' i = buf i := by
  induction fuel generalizing srcva max dst buf with
  | zero =>
    obtain rfl : max = 0 := by omega
    exact ⟨-1, buf, rfl, .inr rfl, by simp, by simp, fun i _ => rfl⟩
  | succ fuel ih =>
    rw [copyinstrLoop]
    by_cases none : max = 0
    · subst none
      exact ⟨-1, buf, rfl, .inr rfl, by simp, by simp, fun i _ => rfl⟩
    rw [if_neg none]
    cases page : walkaddr m pagetable (pgRoundDown srcva) with
    | none =>
      have first : byteAfter m pagetable srcva 0 = .none := byteAfter_none page small
      have never : ∀ k, ¬ StringAt m pagetable srcva k := by
        rintro (_ | k) ⟨null, earlier⟩
        · simp [first] at null
        · simpa [first] using earlier 0 (Nat.succ_pos k)
      exact ⟨-1, buf, by simp only [page], .inr rfl, by simp [never], fun k _ string => (never k string).elim, fun i _ => rfl⟩
    | some pa =>
      obtain ⟨n, size, positive, most, start, inside, rest⟩ := turn_split small none
      have here : ∀ k < n, byteAfter m pagetable srcva k = some (m.byte (pa + srcva % PGSIZE + k)) :=
        fun k less => byteAfter_page page (inside k less).1 (inside k less).2
      obtain ⟨k, buf₁, within, copied, earlier, last, bytes₁, frame₁⟩ := copyChars_spec m n (pa + srcva % PGSIZE) dst buf
      simp only [page, start, size, copied]
      by_cases null : k < n
      · have string : StringAt m pagetable srcva k := by
          refine ⟨by rw [here k null, last null], fun i less => ⟨_, earlier i less, here i (by omega)⟩⟩
        refine ⟨0, buf₁, by simp [null], .inl rfl, by simpa using ⟨k, by omega, string⟩, fun j less other i before => ?_,
          fun i outside => frame₁ i (by omega)⟩
        obtain rfl := string.unique other
        rw [here i (by omega), bytes₁ i (by omega) before]
      · obtain rfl : k = n := by omega
        obtain ⟨r, buf', ran, code, strings, bytes, frame⟩ := ih (dst + k) buf₁ (next_lt srcva) (by omega : max - k ≤ fuel)
        have shift {i : ℕ} (less : i < max - k) :
            StringAt m pagetable srcva (k + i) ↔ StringAt m pagetable ((pgRoundDown srcva + PGSIZE) % 2 ^ 64) i :=
          stringAt_rest (fun j less => ⟨_, earlier j less, here j less⟩) fun j before => byteAfter_rest (rest j (by omega))
        have reached {j : ℕ} (string : StringAt m pagetable srcva j) : ∃ i, j = k + i := by
          refine Nat.exists_eq_add_of_le (not_lt.mp fun before => ?_)
          have byte := string.1
          rw [here j before] at byte
          exact earlier j before (Option.some.inj byte)
        refine ⟨r, buf', by simpa using ran, code, strings.trans ⟨?_, ?_⟩, ?_, fun i outside => ?_⟩
        · rintro ⟨i, less, string⟩
          exact ⟨k + i, by omega, (shift less).mpr string⟩
        · rintro ⟨j, less, string⟩
          obtain ⟨i, rfl⟩ := reached string
          exact ⟨i, by omega, (shift (by omega)).mp string⟩
        · intro j less string i before
          obtain ⟨l, rfl⟩ := reached string
          by_cases early : i < k
          · rw [here i early, frame (dst + i) (by omega), bytes₁ i early (by omega)]
          · obtain ⟨x, rfl⟩ := Nat.exists_eq_add_of_le (not_lt.mp early)
            rw [byteAfter_rest (rest x (by omega)), bytes l (by omega) ((shift (by omega)).mp string) x (by omega), Nat.add_assoc]
        · rw [frame i (by omega), frame₁ i (by omega)]

/-! ## Both copies, byte by byte -/

def UserPage (m : Mem) (pagetable : Page) (a : BitVec 64) : Prop := (walkaddr m pagetable (pgRoundDown a.toNat)).isSome

def charAt (m : Mem) (pagetable : Page) (a : BitVec 64) : UInt8 := (userByte m pagetable a.toNat).getD 0

theorem userByte_iff {a : BitVec 64} {c : UInt8} :
    userByte m pagetable a.toNat = some c ↔ UserPage m pagetable a ∧ c = charAt m pagetable a := by
  rw [charAt, userByte, UserPage]
  cases walkaddr m pagetable (pgRoundDown a.toNat) <;> simp [eq_comm]

theorem toNat_after (a : BitVec 64) (k : ℕ) : (a + BitVec.ofNat 64 k).toNat = (a.toNat + k) % 2 ^ 64 := by
  rw [BitVec.toNat_add, BitVec.toNat_ofNat, Nat.add_mod_mod]

theorem byteAfter_eq (a : BitVec 64) (k : ℕ) : byteAfter m pagetable a.toNat k = userByte m pagetable (a + BitVec.ofNat 64 k).toNat := by
  rw [byteAfter, physAfter, userByte, toNat_after, Option.map_map]
  rfl

theorem stringAt_iff (a : BitVec 64) (k : ℕ) : StringAt m pagetable a.toNat k ↔
    charAt m pagetable (a + BitVec.ofNat 64 k) = 0 ∧ (∀ i < k, charAt m pagetable (a + BitVec.ofNat 64 i) ≠ 0) ∧
      ∀ i ≤ k, UserPage m pagetable (a + BitVec.ofNat 64 i) := by
  simp only [StringAt, byteAfter_eq, userByte_iff]
  constructor
  · rintro ⟨⟨last, null⟩, earlier⟩
    refine ⟨null.symm, fun i less => ?_, fun i most => ?_⟩
    · obtain ⟨c, some, _, rfl⟩ := earlier i less
      exact some
    · obtain less | rfl := Nat.lt_or_eq_of_le most
      · obtain ⟨_, _, here, _⟩ := earlier i less
        exact here
      · exact last
  · rintro ⟨null, earlier, all⟩
    exact ⟨⟨all k le_rfl, null.symm⟩, fun i less => ⟨_, earlier i less, all i less.le, rfl⟩⟩

/-- The page-wise loops do what a byte-wise translation with wrapping addresses does. -/
theorem copyin_bytewise (m : Mem) (pagetable : Page) (va len : BitVec 64) (buf : Buffer) :
    (∃ r buf', copyin m pagetable va len buf = some (r, buf') ∧ (r = 0 ∨ r = -1) ∧
      (r = 0 ↔ ∀ i < len.toNat, UserPage m pagetable (va + BitVec.ofNat 64 i)) ∧
      (r = 0 → ∀ i < len.toNat, buf' i = charAt m pagetable (va + BitVec.ofNat 64 i)) ∧
      ∀ i ≥ len.toNat, buf' i = buf i) ∧
    ∃ r buf', copyinstr m pagetable va len buf = some (r, buf') ∧ (r = 0 ∨ r = -1) ∧
      (r = 0 ↔ ∃ k < len.toNat, charAt m pagetable (va + BitVec.ofNat 64 k) = 0 ∧
        (∀ i < k, charAt m pagetable (va + BitVec.ofNat 64 i) ≠ 0) ∧
        ∀ i ≤ k, UserPage m pagetable (va + BitVec.ofNat 64 i)) ∧
      (∀ k < len.toNat, charAt m pagetable (va + BitVec.ofNat 64 k) = 0 →
        (∀ i < k, charAt m pagetable (va + BitVec.ofNat 64 i) ≠ 0) →
        (∀ i ≤ k, UserPage m pagetable (va + BitVec.ofNat 64 i)) →
        ∀ i ≤ k, buf' i = charAt m pagetable (va + BitVec.ofNat 64 i)) ∧
      ∀ i ≥ len.toNat, buf' i = buf i := by
  constructor
  · obtain ⟨r, buf', ran, code, mapped, bytes, frame⟩ := copyinLoop_spec m pagetable 0 buf va.isLt (le_refl len.toNat)
    simp only [byteAfter_eq, userByte_iff, Nat.zero_add] at mapped bytes frame
    refine ⟨r, buf', ran, code, mapped.trans ⟨fun all i less => ?_, fun all i less => ?_⟩, fun zero i less => ?_,
      fun i outside => frame i (.inr outside)⟩
    · obtain ⟨c, byte⟩ := Option.isSome_iff_exists.mp (all i less)
      exact (userByte_iff.mp byte).1
    · rw [userByte_iff.mpr ⟨all i less, rfl⟩]
      rfl
    · exact (bytes zero i less).2
  · obtain ⟨r, buf', ran, code, strings, bytes, frame⟩ := copyinstrLoop_spec m pagetable 0 buf va.isLt (le_refl len.toNat)
    simp only [stringAt_iff, byteAfter_eq, userByte_iff, Nat.zero_add] at strings bytes frame
    refine ⟨r, buf', ran, code, strings, fun k less null earlier all i most => ?_, fun i outside => frame i (.inr outside)⟩
    exact (bytes k less ⟨null, earlier, all⟩ i most).2

example : (copyin (leadingTo 5) 7 4094 4 (fun _ => 1)).map Prod.fst = some 0 ∧
    (copyin (leadingTo 0) 7 4094 4 (fun _ => 1)).map Prod.fst = some (-1) := by decide

end OsProjects.Copying

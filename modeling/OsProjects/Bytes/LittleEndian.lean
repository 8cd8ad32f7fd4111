import Mathlib.Data.Nat.Basic
import Mathlib.Tactic.Ring

namespace OsProjects.Bytes

/-! Numbers and copies in a sequence of bytes. -/

/-- The number in `w` bytes, least significant one first. -/
def word (f : ℕ → UInt8) (off : ℕ) : ℕ → ℕ
  | 0 => 0
  | w + 1 => (f off).toNat + 256 * word f (off + 1) w

/-- `n` bytes of `src`, copied to `off`. -/
def put (f : ℕ → UInt8) (off n : ℕ) (src : ℕ → UInt8) : ℕ → UInt8 :=
  fun i => if off ≤ i ∧ i < off + n then src (i - off) else f i

def putWord (f : ℕ → UInt8) (off w v : ℕ) : ℕ → UInt8 := put f off w fun k => .ofNat (v / 256 ^ k)

variable {f g src : ℕ → UInt8} {off n w v : ℕ}

theorem put_of_mem {i : ℕ} (first : off ≤ i) (last : i < off + n) : put f off n src i = src (i - off) := if_pos ⟨first, last⟩

theorem put_of_notMem {i : ℕ} (out : i < off ∨ off + n ≤ i) : put f off n src i = f i := if_neg (by omega)

theorem put_none (f src : ℕ → UInt8) (off : ℕ) : put f off 0 src = f := by
  funext i
  exact put_of_notMem (by omega)

theorem put_append {f first second all : ℕ → UInt8} {off n c : ℕ} (low : ∀ k < n, all k = first k)
    (high : ∀ k < c, all (n + k) = second k) : put (put f off n first) (off + n) c second = put f off (n + c) all := by
  funext i
  by_cases before : i < off
  · rw [put_of_notMem (by omega), put_of_notMem (by omega), put_of_notMem (by omega)]
  by_cases early : i < off + n
  · rw [put_of_notMem (by omega), put_of_mem (by omega) early, put_of_mem (by omega) (by omega), low _ (by omega)]
  by_cases late : i < off + n + c
  · rw [put_of_mem (by omega) late, put_of_mem (by omega) (by omega), ← high _ (by omega)]
    congr 1
    omega
  · rw [put_of_notMem (by omega), put_of_notMem (by omega), put_of_notMem (by omega)]

theorem word_congr (same : ∀ i, off ≤ i → i < off + w → f i = g i) : word f off w = word g off w := by
  induction w generalizing off with
  | zero => rfl
  | succ w ih =>
    simp only [word]
    rw [same off (by omega) (by omega), ih fun i first last => same i (by omega) (by omega)]

theorem word_zero (zero : ∀ i, off ≤ i → i < off + w → f i = 0) : word f off w = 0 := by
  induction w generalizing off with
  | zero => rfl
  | succ w ih =>
    simp only [word]
    rw [zero off (by omega) (by omega), ih fun i first last => zero i (by omega) (by omega)]
    rfl

theorem word_lt (f : ℕ → UInt8) (off w : ℕ) : word f off w < 256 ^ w := by
  induction w generalizing off with
  | zero => exact Nat.one_pos
  | succ w ih =>
    have rest := ih (off + 1)
    have least := (f off).toNat_lt
    rw [word, pow_succ]
    omega

/-- The bytes of the number are those it was read from. -/
theorem byte_word {k : ℕ} (less : k < w) : UInt8.ofNat (word f off w / 256 ^ k) = f (off + k) := by
  induction w generalizing off k with
  | zero => omega
  | succ w ih =>
    have least := (f off).toNat_lt
    cases k with
    | zero =>
      refine UInt8.toNat_inj.mp ?_
      simp only [UInt8.toNat_ofNat', word, pow_zero, Nat.div_one, Nat.add_zero]
      omega
    | succ k =>
      have rest : word f off (w + 1) / 256 = word f (off + 1) w := by
        rw [word]
        omega
      rw [pow_succ', ← Nat.div_div_eq_div_mul, rest, ih (by omega), Nat.add_assoc, Nat.add_comm 1]

theorem word_putWord (small : v < 256 ^ w) : word (putWord f off w v) off w = v := by
  induction w generalizing off v with
  | zero =>
    rw [pow_zero] at small
    simp only [word]
    omega
  | succ w ih =>
    have rest : word (putWord f off (w + 1) v) (off + 1) w = word (putWord f (off + 1) w (v / 256)) (off + 1) w := by
      refine word_congr fun i first last => ?_
      rw [putWord, putWord, put_of_mem (by omega) (by omega), put_of_mem first last, Nat.div_div_eq_div_mul,
        ← pow_succ', Nat.sub_add_eq, Nat.sub_add_cancel (by omega)]
    have least : putWord f off (w + 1) v off = .ofNat v := by
      rw [putWord, put_of_mem le_rfl (by omega)]
      simp
    simp only [word]
    rw [rest, ih (by rw [pow_succ] at small; omega), least, UInt8.toNat_ofNat']
    omega

theorem word_putWord_of_apart {off' w' : ℕ} (apart : off' + w' ≤ off ∨ off + w ≤ off') :
    word (putWord f off w v) off' w' = word f off' w' :=
  word_congr fun i first last => put_of_notMem (by omega)

end OsProjects.Bytes

import Mathlib.Tactic

/-!
# A byte-addressed memory with little-endian words

A word access of `n` bytes reads or writes the bytes `a, …, a + n - 1`.
Accesses to disjoint ranges commute, which is all that a memory layout
argument needs.
-/

namespace Vectra.Lib

abbrev Bytes := ℕ → BitVec 8

/-- The little-endian number in the `n` bytes at `a`. -/
def readLE (m : Bytes) (a : ℕ) : ℕ → ℕ
  | 0 => 0
  | n + 1 => (m a).toNat + 256 * readLE m (a + 1) n

/-- The memory after storing the low `n` bytes of `v` at `a`. -/
def writeLE (m : Bytes) (a n v : ℕ) : Bytes :=
  fun x => if a ≤ x ∧ x < a + n then BitVec.ofNat 8 (v / 256 ^ (x - a)) else m x

variable {m m' : Bytes} {a b n k v x : ℕ}

theorem writeLE_out (h : x < a ∨ a + n ≤ x) : writeLE m a n v x = m x := by
  unfold writeLE
  rw [if_neg (by omega)]

theorem writeLE_in (hlo : a ≤ x) (hhi : x < a + n) :
    writeLE m a n v x = BitVec.ofNat 8 (v / 256 ^ (x - a)) := by
  unfold writeLE
  rw [if_pos ⟨hlo, hhi⟩]

theorem readLE_congr (h : ∀ x, a ≤ x → x < a + n → m x = m' x) : readLE m a n = readLE m' a n := by
  induction n generalizing a with
  | zero => rfl
  | succ n ih =>
      rw [readLE, readLE, h a (le_refl a) (by omega),
        ih fun x hlo hhi => h x (by omega) (by omega)]

theorem readLE_lt (m : Bytes) (a n : ℕ) : readLE m a n < 256 ^ n := by
  induction n generalizing a with
  | zero => simp [readLE]
  | succ n ih =>
      have hbyte : (m a).toNat < 256 := (m a).isLt
      have hrest := ih (a + 1)
      rw [readLE, Nat.pow_succ]
      omega

/-- The bytes of a number, read back. -/
theorem readLE_of_bytes (h : ∀ i < n, m (a + i) = BitVec.ofNat 8 (v / 256 ^ i)) :
    readLE m a n = v % 256 ^ n := by
  induction n generalizing a v with
  | zero => simp [readLE, Nat.mod_one]
  | succ n ih =>
      have hhead : (m a).toNat = v % 256 := by
        have h0 := h 0 (by omega)
        rw [Nat.add_zero, Nat.pow_zero, Nat.div_one] at h0
        rw [h0, BitVec.toNat_ofNat]
      have htail : readLE m (a + 1) n = v / 256 % 256 ^ n := by
        apply ih
        intro i hi
        have hnext := h (i + 1) (by omega)
        rw [Nat.add_assoc, Nat.add_comm 1 i, hnext, Nat.div_div_eq_div_mul, Nat.pow_succ,
          Nat.mul_comm]
      rw [readLE, hhead, htail, Nat.pow_succ, Nat.mul_comm (256 ^ n) 256, Nat.mod_mul]

/-- Each byte can be taken from the number again. -/
theorem readLE_byte (m : Bytes) {i : ℕ} (hi : i < n) :
    BitVec.ofNat 8 (readLE m a n / 256 ^ i) = m (a + i) := by
  induction n generalizing a i with
  | zero => omega
  | succ n ih =>
      have hbyte := (m a).isLt
      rw [readLE]
      cases i with
      | zero =>
          apply BitVec.eq_of_toNat_eq
          simp only [BitVec.toNat_ofNat, Nat.pow_zero, Nat.div_one, Nat.add_zero]
          omega
      | succ i =>
          have hshift : ((m a).toNat + 256 * readLE m (a + 1) n) / 256 = readLE m (a + 1) n := by
            omega
          rw [Nat.pow_succ, Nat.mul_comm (256 ^ i), ← Nat.div_div_eq_div_mul, hshift,
            ih (by omega), Nat.add_assoc, Nat.add_comm 1 i]

@[simp] theorem readLE_writeLE_self : readLE (writeLE m a n v) a n = v % 256 ^ n := by
  apply readLE_of_bytes
  intro i hi
  rw [writeLE_in (by omega) (by omega), Nat.add_sub_cancel_left]

theorem readLE_writeLE_of_disjoint (h : b + k ≤ a ∨ a + n ≤ b) :
    readLE (writeLE m a n v) b k = readLE m b k :=
  readLE_congr fun _ _ _ => writeLE_out (by omega)

/-- The memory after setting `n` bytes from `a` on. -/
def fill (m : Bytes) (a : ℕ) (c : BitVec 8) (n : ℕ) : Bytes :=
  fun x => if a ≤ x ∧ x < a + n then c else m x

theorem fill_out {c : BitVec 8} (h : x < a ∨ a + n ≤ x) : fill m a c n x = m x := by
  unfold fill
  rw [if_neg (by omega)]

theorem readLE_zero (h : ∀ x, a ≤ x → x < a + n → m x = 0#8) : readLE m a n = 0 := by
  have hread : readLE m a n = 0 % 256 ^ n := by
    apply readLE_of_bytes
    intro i hi
    rw [h (a + i) (by omega) (by omega), Nat.zero_div]
  rw [hread, Nat.zero_mod]

theorem readLE_fill_zero (hlo : a ≤ b) (hhi : b + k ≤ a + n) :
    readLE (fill m a 0#8 n) b k = 0 := by
  apply readLE_zero
  intro x hx hx'
  exact if_pos ⟨by omega, by omega⟩

end Vectra.Lib

import Mathlib.Tactic
import Mathlib.Data.Nat.Bitwise

/-!
# Machine words and the constants of `osdef.hpp` and `mm.hpp`

Addresses and sizes are natural numbers below `2 ^ 64`; every operation of
the source that can leave that range is reduced explicitly.
-/

namespace Vectra

def pageSize : ℕ := 4096

def bitmapBitSize : ℕ := 8

/-- `a - b` on `uint64_t`. -/
def sub64 (a b : ℕ) : ℕ := (a + 2 ^ 64 - b) % 2 ^ 64

/-- `ALIGN_UP(num, align)`: `((num) + ((align) - 1)) & ~((align) - 1)` on `uint64_t`. -/
def alignUp (num align : ℕ) : ℕ :=
  ((BitVec.ofNat 64 num + (BitVec.ofNat 64 align - 1)) &&&
    ~~~(BitVec.ofNat 64 align - 1)).toNat

theorem sub64_of_le {a b : ℕ} (hab : b ≤ a) (ha : a < 2 ^ 64) : sub64 a b = a - b := by
  unfold sub64
  rw [show a + 2 ^ 64 - b = a - b + 2 ^ 64 by omega, Nat.add_mod_right]
  exact Nat.mod_eq_of_lt (by omega)

theorem and_not_mask (x : BitVec 64) (k : ℕ) :
    (x &&& ~~~(BitVec.ofNat 64 (2 ^ k - 1))).toNat = x.toNat / 2 ^ k * 2 ^ k := by
  apply Nat.eq_of_testBit_eq
  intro i
  rw [Nat.testBit_mul_two_pow, Nat.testBit_div_two_pow, BitVec.testBit_toNat]
  by_cases hi : i < 64
  · have hmask : (BitVec.ofNat 64 (2 ^ k - 1)).getLsbD i = decide (i < k) := by
      rw [BitVec.getLsbD_ofNat, Nat.testBit_two_pow_sub_one]
      simp [hi]
    rw [BitVec.getLsbD_and, BitVec.getLsbD_not, hmask]
    by_cases hik : i < k
    · simp [hik, Nat.not_le.mpr hik]
    · have hki : k ≤ i := Nat.le_of_not_lt hik
      simp [hik, hki, hi, BitVec.testBit_toNat]
  · have hx : x.getLsbD i = false := BitVec.getLsbD_of_ge x i (by omega)
    have hxi : x.toNat.testBit i = false := by rw [BitVec.testBit_toNat, hx]
    by_cases hki : k ≤ i
    · simp [hki, hxi, hx]
    · simp [hki, hx]

/-- Alignment to a power of two. -/
theorem alignUp_two_pow_mod {k : ℕ} (hk : k < 64) (num : ℕ) :
    alignUp num (2 ^ k) = (num + (2 ^ k - 1)) % 2 ^ 64 / 2 ^ k * 2 ^ k := by
  have hpow : 2 ^ k < 2 ^ 64 := Nat.pow_lt_pow_right (by omega) hk
  have hpos : 0 < 2 ^ k := Nat.two_pow_pos k
  have hmask : BitVec.ofNat 64 (2 ^ k) - 1 = BitVec.ofNat 64 (2 ^ k - 1) := by
    apply BitVec.eq_of_toNat_eq
    have hone : (1 : BitVec 64).toNat = 1 := rfl
    simp only [BitVec.toNat_sub, BitVec.toNat_ofNat, hone]
    omega
  have hsum : (BitVec.ofNat 64 num + BitVec.ofNat 64 (2 ^ k - 1)).toNat =
      (num + (2 ^ k - 1)) % 2 ^ 64 := by
    rw [BitVec.toNat_add, BitVec.toNat_ofNat, BitVec.toNat_ofNat, ← Nat.add_mod]
  unfold alignUp
  rw [hmask, and_not_mask, hsum]

/-- Alignment to a power of two, when the addition does not overflow. -/
theorem alignUp_two_pow {num k : ℕ} (hk : k < 64) (hnum : num + (2 ^ k - 1) < 2 ^ 64) :
    alignUp num (2 ^ k) = (num + (2 ^ k - 1)) / 2 ^ k * 2 ^ k := by
  rw [alignUp_two_pow_mod hk, Nat.mod_eq_of_lt hnum]

theorem alignUp_page {num : ℕ} (h : num + 4095 < 2 ^ 64) :
    alignUp num pageSize = (num + 4095) / 4096 * 4096 :=
  alignUp_two_pow (k := 12) (by omega) h

/-- Alignment to a page, when the addition wraps. -/
theorem alignUp_page_wrap {num : ℕ} (hnum : num < 2 ^ 64) (h : 2 ^ 64 ≤ num + 4095) :
    alignUp num pageSize = 0 := by
  have halign : alignUp num pageSize = (num + 4095) % 2 ^ 64 / 4096 * 4096 :=
    alignUp_two_pow_mod (k := 12) (by omega) num
  omega

theorem alignUp_eight {num : ℕ} (h : num + 7 < 2 ^ 64) :
    alignUp num 8 = (num + 7) / 8 * 8 :=
  alignUp_two_pow (k := 3) (by omega) h

theorem alignUp_lt (num align : ℕ) : alignUp num align < 2 ^ 64 := BitVec.isLt _

end Vectra

import Mathlib.Tactic
import Vectra.Lib.Bytes
import Vectra.Lib.CopyLoop

/-!
# Moving bytes

`memmove` compares the two pointers and copies upwards when the source lies
above the destination and downwards when it lies below. Either way a byte is
read before the loop writes its cell, so the ranges may overlap.
-/

namespace Vectra

open Lib

/-- The address of `p[i]`. -/
def byteAt (p : BitVec 64) (i : ℕ) : ℕ := (p + BitVec.ofNat 64 i).toNat

def memmove (m : Bytes) (dest src n : BitVec 64) : BitVec 64 × Bytes :=
  if src > dest then (dest, copyUp (byteAt dest) (byteAt src) m 0 n.toNat)
  else if src < dest then (dest, copyDown (byteAt dest) (byteAt src) m n.toNat)
  else (dest, m)

/-- The memory after moving `n` bytes at once. -/
def moved (m : Bytes) (dest src n : ℕ) : Bytes :=
  fun x => if dest ≤ x ∧ x < dest + n then m (src + (x - dest)) else m x

section

variable {m : Bytes} {dest src n i x : ℕ}

theorem moved_in (hi : i < n) : moved m dest src n (dest + i) = m (src + i) := by
  unfold moved
  rw [if_pos (by omega), Nat.add_sub_cancel_left]

theorem moved_out (hx : x < dest ∨ dest + n ≤ x) : moved m dest src n x = m x := by
  unfold moved
  rw [if_neg (by omega)]

theorem moved_self : moved m dest dest n = m := by
  funext x
  unfold moved
  split
  case isTrue hx =>
    have hback : dest + (x - dest) = x := by omega
    rw [hback]
  case isFalse => rfl

end

variable {m m' : Bytes} {dest src n p : BitVec 64} {i : ℕ}

theorem byteAt_eq (h : p.toNat + n.toNat ≤ 2 ^ 64) (hi : i < n.toNat) :
    byteAt p i = p.toNat + i := by
  have hlt : i < 2 ^ 64 := by omega
  have hsum : p.toNat + i < 2 ^ 64 := by omega
  unfold byteAt
  rw [BitVec.toNat_add, BitVec.toNat_ofNat, Nat.mod_eq_of_lt hlt, Nat.mod_eq_of_lt hsum]

/-- Every byte copied to its element is the whole move. -/
theorem moved_of_copied (hdest : dest.toNat + n.toNat ≤ 2 ^ 64)
    (hsrc : src.toNat + n.toNat ≤ 2 ^ 64)
    (h : Copied (byteAt dest) (byteAt src) m m' (Set.Iio n.toNat)) :
    m' = moved m dest.toNat src.toNat n.toNat := by
  funext x
  by_cases hx : dest.toNat ≤ x ∧ x < dest.toNat + n.toNat
  · obtain ⟨i, rfl⟩ := Nat.exists_eq_add_of_le hx.1
    have hi : i < n.toNat := by omega
    rw [moved_in hi, ← byteAt_eq hsrc hi, ← byteAt_eq hdest hi]
    exact h.element i hi
  · rw [moved_out (by omega)]
    apply h.outside
    rintro ⟨i, hi, rfl⟩
    rw [byteAt_eq hdest hi] at hx
    have hlt : i < n.toNat := hi
    omega

/-- For every overlap, the code's loops move all bytes at once. -/
theorem memmove_eq (hdest : dest.toNat + n.toNat ≤ 2 ^ 64)
    (hsrc : src.toNat + n.toNat ≤ 2 ^ 64) :
    memmove m dest src n = (dest, moved m dest.toNat src.toNat n.toNat) := by
  have hne : ∀ a b, a < n.toNat → b < n.toNat → a ≠ b → byteAt dest a ≠ byteAt dest b := by
    intro a b ha hb hab
    rw [byteAt_eq hdest ha, byteAt_eq hdest hb]
    omega
  unfold memmove
  split
  case isTrue habove =>
    have hlt : dest.toNat < src.toNat := habove
    have hstart : Copied (byteAt dest) (byteAt src) m m (Set.Iio 0) := by
      have hnone : Set.Iio 0 = (∅ : Set ℕ) := by simp
      rw [hnone]
      exact Copied.empty _ _ m
    have hcopied := hstart.copyUp (n := n.toNat)
      (fun a b hab hb => hne b a (by omega) (by omega) (by omega))
      (fun a b hab hb => by
        rw [byteAt_eq hsrc (by omega), byteAt_eq hdest (by omega)]
        omega)
    rw [Nat.zero_add] at hcopied
    rw [moved_of_copied hdest hsrc hcopied]
  case isFalse hnot =>
    split
    case isTrue hbelow =>
      have hlt : src.toNat < dest.toNat := hbelow
      have hstart : Copied (byteAt dest) (byteAt src) m m (Set.Ico n.toNat n.toNat) := by
        rw [Set.Ico_self]
        exact Copied.empty _ _ m
      have hcopied := hstart.copyDown (le_refl _)
        (fun a b hab hb => hne a b (by omega) hb (by omega))
        (fun a b hab hb => by
          rw [byteAt_eq hsrc (by omega), byteAt_eq hdest hb]
          omega)
      rw [moved_of_copied hdest hsrc hcopied]
    case isFalse hnot' =>
      -- equal pointers: the move changes nothing, and neither does the code
      have heq : src.toNat = dest.toNat := by
        have h₁ : ¬ dest.toNat < src.toNat := hnot
        have h₂ : ¬ src.toNat < dest.toNat := hnot'
        omega
      rw [heq, moved_self]

/-- Every byte of the destination is the byte its source had before the call,
and nothing else changes. -/
theorem memmove_moves (hdest : dest.toNat + n.toNat ≤ 2 ^ 64)
    (hsrc : src.toNat + n.toNat ≤ 2 ^ 64) :
    (memmove m dest src n).1 = dest ∧
      (∀ i < n.toNat, (memmove m dest src n).2 (dest.toNat + i) = m (src.toNat + i)) ∧
      ∀ x, x < dest.toNat ∨ dest.toNat + n.toNat ≤ x → (memmove m dest src n).2 x = m x := by
  rw [memmove_eq hdest hsrc]
  exact ⟨rfl, fun _ hi => moved_in hi, fun _ hx => moved_out hx⟩

/-- Four bytes moved up by two, over the last two of themselves. -/
theorem memmove_moves_overlapping :
    (memmove (fun a => BitVec.ofNat 8 a) 0x12 0x10 4).1 = 0x12 ∧
      (∀ i < 4, (memmove (fun a => BitVec.ofNat 8 a) 0x12 0x10 4).2 (0x12 + i) =
        BitVec.ofNat 8 (0x10 + i)) ∧
      ∀ x, x < 0x12 ∨ 0x12 + 4 ≤ x →
        (memmove (fun a => BitVec.ofNat 8 a) 0x12 0x10 4).2 x = BitVec.ofNat 8 x :=
  memmove_moves (by decide) (by decide)

end Vectra

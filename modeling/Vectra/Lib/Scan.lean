import Mathlib.Tactic

/-!
# Linear search for the first index that satisfies a test

The scan visits `n` consecutive indices. Its two outcomes are
characterized exactly: the least hit of the window, or a window without one.
-/

namespace Vectra.Lib

/-- The first of the `n` indices from `lo` on that passes the test. -/
def firstFrom (p : ℕ → Bool) (lo : ℕ) : ℕ → Option ℕ
  | 0 => none
  | n + 1 => if p lo then some lo else firstFrom p (lo + 1) n

variable {p : ℕ → Bool} {lo n i : ℕ}

theorem firstFrom_sound (h : firstFrom p lo n = some i) :
    lo ≤ i ∧ i < lo + n ∧ p i = true ∧ ∀ j, lo ≤ j → j < i → p j = false := by
  induction n generalizing lo with
  | zero => simp [firstFrom] at h
  | succ n ih =>
      by_cases hp : p lo = true
      · simp only [firstFrom, hp, if_true, Option.some.injEq] at h
        subst h
        exact ⟨le_refl _, by omega, hp, fun j hj hlt => absurd hj (by omega)⟩
      · simp only [firstFrom, hp] at h
        obtain ⟨hlo, hhi, hi, hmin⟩ := ih h
        refine ⟨by omega, by omega, hi, ?_⟩
        intro j hj hlt
        rcases Nat.eq_or_lt_of_le hj with rfl | hj
        · simpa using hp
        · exact hmin j hj hlt

theorem firstFrom_eq_none_iff :
    firstFrom p lo n = none ↔ ∀ j, lo ≤ j → j < lo + n → p j = false := by
  induction n generalizing lo with
  | zero =>
      simp only [firstFrom, true_iff]
      intro j hj hlt
      omega
  | succ n ih =>
      by_cases hp : p lo = true
      · simp only [firstFrom, hp, if_true, reduceCtorEq, false_iff]
        intro h
        simpa [hp] using h lo (le_refl _) (by omega)
      · simp only [firstFrom, hp]
        rw [if_neg (by simp), ih]
        constructor
        · intro h j hj hlt
          rcases Nat.eq_or_lt_of_le hj with rfl | hj
          · simpa using hp
          · exact h j hj (by omega)
        · intro h j hj hlt
          exact h j (by omega) (by omega)

/-- The scan stops at `i` when `i` is the least hit of the window. -/
theorem firstFrom_eq_some (hlo : lo ≤ i) (hhi : i < lo + n) (hi : p i = true)
    (hmin : ∀ j, lo ≤ j → j < i → p j = false) : firstFrom p lo n = some i := by
  cases h : firstFrom p lo n with
  | none =>
      have hfalse := firstFrom_eq_none_iff.mp h i hlo hhi
      simp [hi] at hfalse
  | some k =>
      obtain ⟨hk, _, hpk, hkmin⟩ := firstFrom_sound h
      rcases Nat.lt_trichotomy i k with hlt | heq | hgt
      · simpa [hi] using hkmin i hlo hlt
      · rw [heq]
      · simpa [hpk] using hmin k hk hgt

end Vectra.Lib

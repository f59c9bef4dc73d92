import Mathlib.Tactic

/-!
# Loops that copy an array element by element

A loop writes `src i` to `dst i` for every index of a range, upwards or
downwards. The elements may be cells of one memory, and the two arrays may
overlap. One iteration keeps what was copied so far as long as it writes a cell
of its own and reads a cell that no earlier iteration has written.
-/

namespace Vectra.Lib

section

variable {α β : Type*} [DecidableEq α]

/-- The iterations `i, i + 1, …` of the loop, as many as the count says. -/
def copyUp (dst src : ℕ → α) (m : α → β) (i : ℕ) : ℕ → α → β
  | 0 => m
  | n + 1 => copyUp dst src (Function.update m (dst i) (m (src i))) (i + 1) n

/-- The iterations `n - 1, …, 0` of the loop. -/
def copyDown (dst src : ℕ → α) (m : α → β) : ℕ → α → β
  | 0 => m
  | n + 1 => copyDown dst src (Function.update m (dst n) (m (src n))) n

end

section

variable {α β : Type*}

/-- The memory `m'` holds the elements `S` of the source as `m` had them, and
is `m` everywhere else. -/
structure Copied (dst src : ℕ → α) (m m' : α → β) (S : Set ℕ) : Prop where
  element : ∀ i ∈ S, m' (dst i) = m (src i)
  outside : ∀ x, x ∉ dst '' S → m' x = m x

variable {dst src : ℕ → α} {m m' : α → β} {S : Set ℕ} {i k n : ℕ}

theorem Copied.empty (dst src : ℕ → α) (m : α → β) : Copied dst src m m ∅ where
  element := by simp
  outside := fun _ _ => rfl

variable [DecidableEq α]

/-- One iteration, at an index whose cell is new and whose source is unread. -/
theorem Copied.copy (h : Copied dst src m m' S) (hnew : dst i ∉ dst '' S)
    (hread : src i ∉ dst '' S) :
    Copied dst src m (Function.update m' (dst i) (m' (src i))) (insert i S) where
  element := by
    intro j hj
    rcases hj with rfl | hj
    · rw [Function.update_self]
      exact h.outside _ hread
    · have hne : dst j ≠ dst i := fun heq => hnew ⟨j, hj, heq⟩
      rw [Function.update_of_ne hne]
      exact h.element j hj
  outside := by
    intro x hx
    rw [Set.image_insert_eq, Set.mem_insert_iff, not_or] at hx
    rw [Function.update_of_ne hx.1]
    exact h.outside x hx.2

/-- Upwards, every element has to be read before the loop reaches its cell. -/
theorem Copied.copyUp (h : Copied dst src m m' (Set.Iio i))
    (hdst : ∀ a b, a < b → b < i + n → dst b ≠ dst a)
    (hread : ∀ a b, a < b → b < i + n → src b ≠ dst a) :
    Copied dst src m (copyUp dst src m' i n) (Set.Iio (i + n)) := by
  induction n generalizing i m' with
  | zero => exact h
  | succ n ih =>
      have hnext : Copied dst src m (Function.update m' (dst i) (m' (src i)))
          (Set.Iio (i + 1)) := by
        have hinsert : Set.Iio (i + 1) = insert i (Set.Iio i) := by
          ext j
          simp only [Set.mem_Iio, Set.mem_insert_iff]
          omega
        rw [hinsert]
        apply h.copy
        · rintro ⟨a, ha, heq⟩
          exact hdst a i ha (by omega) heq.symm
        · rintro ⟨a, ha, heq⟩
          exact hread a i ha (by omega) heq.symm
      have hlen : i + (n + 1) = i + 1 + n := by omega
      rw [hlen] at hdst hread ⊢
      exact ih hnext hdst hread

/-- Downwards, no element may be read after the loop has left its cell. -/
theorem Copied.copyDown (h : Copied dst src m m' (Set.Ico k n)) (hk : k ≤ n)
    (hdst : ∀ a b, a < b → b < n → dst a ≠ dst b)
    (hread : ∀ a b, a < b → b < n → src a ≠ dst b) :
    Copied dst src m (copyDown dst src m' k) (Set.Iio n) := by
  induction k generalizing m' with
  | zero =>
      have hall : Set.Ico 0 n = Set.Iio n := by
        ext j
        simp
      rw [← hall]
      exact h
  | succ k ih =>
      apply ih _ (by omega)
      have hinsert : Set.Ico k n = insert k (Set.Ico (k + 1) n) := by
        ext j
        simp only [Set.mem_Ico, Set.mem_insert_iff]
        omega
      rw [hinsert]
      apply h.copy
      · rintro ⟨a, ⟨hka, han⟩, heq⟩
        exact hdst k a hka han heq.symm
      · rintro ⟨a, ⟨hka, han⟩, heq⟩
        exact hread k a hka han heq.symm

end

end Vectra.Lib

import Mathlib.Tactic

/-!
# Null-terminated chains of addresses

`next` is the pointer field of the nodes, as read from a memory. A chain
ends in the null pointer, so it is finite by definition; since `next` is a
function, it is also determined by its head and free of repetitions.
-/

namespace Vectra.Lib

/-- Following `next` from the head visits exactly the listed addresses. -/
def Chain (next : ℕ → ℕ) : ℕ → List ℕ → Prop
  | head, [] => head = 0
  | head, x :: xs => head = x ∧ x ≠ 0 ∧ Chain next (next x) xs

namespace Chain

variable {next next' : ℕ → ℕ} {head x : ℕ} {xs ys : List ℕ}

@[simp] theorem nil_iff : Chain next head [] ↔ head = 0 := Iff.rfl

theorem ne_zero (h : Chain next head xs) (hx : x ∈ xs) : x ≠ 0 := by
  induction xs generalizing head with
  | nil => simp at hx
  | cons y ys ih =>
      rcases List.mem_cons.mp hx with rfl | hx
      · exact h.2.1
      · exact ih h.2.2 hx

/-- Only the links of the listed nodes matter. -/
theorem congr (h : Chain next head xs) (hlink : ∀ x ∈ xs, next' x = next x) :
    Chain next' head xs := by
  induction xs generalizing head with
  | nil => exact h
  | cons x xs ih =>
      refine ⟨h.1, h.2.1, ?_⟩
      rw [hlink x (by simp)]
      exact ih h.2.2 fun y hy => hlink y (List.mem_cons_of_mem x hy)

theorem unique (h : Chain next head xs) (k : Chain next head ys) : xs = ys := by
  induction xs generalizing head ys with
  | nil =>
      cases ys with
      | nil => rfl
      | cons y ys => exact absurd (k.1.symm.trans h) k.2.1
  | cons x xs ih =>
      cases ys with
      | nil => exact absurd (h.1.symm.trans k) h.2.1
      | cons y ys =>
          have hxy : x = y := h.1.symm.trans k.1
          subst hxy
          rw [ih h.2.2 k.2.2]

theorem eq_nil_iff (h : Chain next head xs) : xs = [] ↔ head = 0 := by
  cases xs with
  | nil => simpa using h
  | cons x xs =>
      simp only [reduceCtorEq, false_iff]
      rw [h.1]
      exact h.2.1

theorem head_mem (h : Chain next head xs) (hx : head = x) (hne : x ≠ 0) : x ∈ xs := by
  cases xs with
  | nil => exact absurd (hx.symm.trans h) hne
  | cons y ys => exact List.mem_cons.mpr (.inl (hx.symm.trans h.1))

theorem of_append (h : Chain next head (xs ++ ys)) : ∃ mid, Chain next mid ys := by
  induction xs generalizing head with
  | nil => exact ⟨head, h⟩
  | cons x xs ih => exact ih h.2.2

/-- A repeated node would start two different tails. -/
theorem nodup (h : Chain next head xs) : xs.Nodup := by
  induction xs generalizing head with
  | nil => exact List.nodup_nil
  | cons x xs ih =>
      refine List.nodup_cons.mpr ⟨?_, ih h.2.2⟩
      intro hx
      obtain ⟨pre, post, rfl⟩ := List.append_of_mem hx
      obtain ⟨mid, hmid⟩ := of_append h.2.2
      have hpost : Chain next (next x) post := hmid.2.2
      have hlen := congrArg List.length (hpost.unique h.2.2)
      simp only [List.length_append, List.length_cons] at hlen
      omega

/-- The chain after the node behind `x` has been taken out. -/
theorem unlink {d : ℕ} (h : Chain next head (xs ++ x :: d :: ys)) (hx : next' x = next d)
    (hother : ∀ y, y ∈ xs ∨ y ∈ ys → next' y = next y) : Chain next' head (xs ++ x :: ys) := by
  induction xs generalizing head with
  | nil =>
      obtain ⟨hhead, hne, _, _, hrest⟩ := h
      refine ⟨hhead, hne, ?_⟩
      rw [hx]
      exact hrest.congr fun y hy => hother y (Or.inr hy)
  | cons z zs ih =>
      refine ⟨h.1, h.2.1, ?_⟩
      rw [hother z (Or.inl List.mem_cons_self)]
      apply ih h.2.2
      rintro y (hy | hy)
      · exact hother y (Or.inl (List.mem_cons_of_mem z hy))
      · exact hother y (Or.inr hy)

/-- A chain of addresses is shorter than the address space. -/
theorem length_lt {n : ℕ} (h : Chain next head xs) (hlt : ∀ x ∈ xs, x < n) (hn : 0 < n) :
    xs.length < n := by
  have hsub : xs.toFinset ⊆ (Finset.range n).erase 0 := by
    intro x hx
    rw [List.mem_toFinset] at hx
    rw [Finset.mem_erase, Finset.mem_range]
    exact ⟨h.ne_zero hx, hlt x hx⟩
  have hcard := Finset.card_le_card hsub
  rw [List.toFinset_card_of_nodup h.nodup, Finset.card_erase_of_mem (Finset.mem_range.mpr hn),
    Finset.card_range] at hcard
  omega

end Chain

end Vectra.Lib

import Vectra.Mm.FrameRuns

/-!
# Clients of the frame allocator

A client allocates frames and frees only what it has been given. Frames
below a bound that are used at the start are never handed to it. Every
frame that is clear can be reached by allocating often enough.
-/

namespace Vectra

open Lib

/-- Only allocations, and frees of addresses returned before. -/
def ClientOps (es : List (PmmOp × ℕ)) : Prop :=
  ∀ pre e post, es = pre ++ e :: post →
    e.1 = .allocFrame ∨ ∃ a, e.1 = .freeFrame a ∧ (PmmOp.allocFrame, a) ∈ pre

theorem ClientOps.of_append {es fs : List (PmmOp × ℕ)} (h : ClientOps (es ++ fs)) :
    ClientOps es := by
  intro pre e post heq
  exact h pre e (post ++ fs) (by rw [heq, List.append_assoc, List.cons_append])

variable {slack : ℕ} {s t : Pmm} {e : PmmOp × ℕ} {k : ℕ}

/-- The used frames below `k` stay used, and only frames from `k` on are
returned; `pre` is what happened before. -/
theorem run_client_after (h : PmmInv slack s) (hbase : 0 < s.memPhysBase)
    (hused : ∀ j < k, s.used j = true) (pre : List (PmmOp × ℕ))
    {es : List (PmmOp × ℕ)} (hpre : ∀ a, (PmmOp.allocFrame, a) ∈ pre → a ≠ 0 →
      ∃ i, k ≤ i ∧ i < s.totalFrames ∧ a = s.memPhysBase + i * pageSize)
    (hes : ClientOps (pre ++ es)) (hrun : Run PmmStep s es t) :
    (∀ j < k, t.used j = true) ∧ ∀ a, (PmmOp.allocFrame, a) ∈ pre ++ es → a ≠ 0 →
      ∃ i, k ≤ i ∧ i < s.totalFrames ∧ a = s.memPhysBase + i * pageSize := by
  induction es using List.reverseRecOn generalizing t with
  | nil =>
      cases hrun
      rw [List.append_nil]
      exact ⟨hused, hpre⟩
  | append_singleton es e ih =>
      obtain ⟨u, hru, hlast⟩ := hrun.of_append
      rw [← List.append_assoc] at hes
      obtain ⟨huk, hret⟩ := ih hes.of_append hru
      obtain ⟨hu, hrange⟩ := run_pmmInv hru h
      cases hlast with
      | cons hstep hnil =>
          cases hnil
          constructor
          · intro j hj
            refine hstep.used hu ?_ (huk j hj)
            rcases hes (pre ++ es) e [] rfl with halloc | ⟨a, hfree, hmem⟩
            · rw [halloc]
              exact id
            · rw [hfree]
              rintro ⟨hlo, hindex⟩
              rw [hrange.1] at hlo
              obtain ⟨i, hki, hi, rfl⟩ := hret a hmem (by omega)
              have hi' : i < u.totalFrames := by
                rw [hrange.2]
                exact hi
              have hback := hu.frameIndex_frameAddr hi' (by decide : 0 < pageSize)
              rw [hu.frameAddr_eq hi', hrange.1, Nat.add_zero, hindex] at hback
              omega
          · intro a ha hne
            rw [← List.append_assoc] at ha
            rcases List.mem_append.mp ha with ha | ha
            · exact hret a ha hne
            · have hea : (PmmOp.allocFrame, a) = e := by simpa using ha
              subst hea
              rcases hu.allocFrame_some hstep.2 with ⟨hzero, _, _⟩ | ⟨i, hi, hclear, hai, _⟩
              · exact absurd hzero hne
              · refine ⟨i, ?_, by rw [← hrange.2]; exact hi, ?_⟩
                · by_contra hlt
                  rw [huk i (by omega)] at hclear
                  cases hclear
                · rw [← hrange.1, ← hu.frameAddr_eq hi]
                  exact hai

theorem run_client (h : PmmInv slack s) (hbase : 0 < s.memPhysBase)
    (hused : ∀ j < k, s.used j = true) {es : List (PmmOp × ℕ)} (hes : ClientOps es)
    (hrun : Run PmmStep s es t) :
    (∀ j < k, t.used j = true) ∧ ∀ a, (PmmOp.allocFrame, a) ∈ es → a ≠ 0 →
      ∃ i, k ≤ i ∧ i < s.totalFrames ∧ a = s.memPhysBase + i * pageSize :=
  run_client_after h hbase hused [] (by simp) hes hrun

/-- Allocating often enough returns any given clear frame. -/
theorem alloc_reaches (h : PmmInv slack s) {j : ℕ} (hj : j < s.totalFrames)
    (hclear : s.used j = false) :
    ∃ es t, Run PmmStep s es t ∧ ClientOps es ∧
      (PmmOp.allocFrame, s.memPhysBase + j * pageSize) ∈ es := by
  have hops : ∀ (es : List (PmmOp × ℕ)), (∀ e ∈ es, e.1 = .allocFrame) → ClientOps es := by
    rintro es hes pre e post rfl
    exact Or.inl (hes e (by simp))
  suffices hall : ∀ n (s : Pmm), PmmInv slack s → j < s.totalFrames → s.used j = false →
      s.clearFrames.card = n → ∃ es t, Run PmmStep s es t ∧ (∀ e ∈ es, e.1 = .allocFrame) ∧
        (PmmOp.allocFrame, s.memPhysBase + j * pageSize) ∈ es by
    obtain ⟨es, t, hrun, hes, hmem⟩ := hall _ s h hj hclear rfl
    exact ⟨es, t, hrun, hops es hes, hmem⟩
  intro n
  induction n with
  | zero =>
      intro s _ hj hclear hcard
      have hpos := PmmInv.clear_pos hj hclear
      omega
  | succ n ih =>
      intro s h hj hclear hcard
      obtain ⟨i, hi, hiclear, halloc⟩ : ∃ i < s.totalFrames, s.used i = false ∧
          pmmAllocFrame s = some (s.frameAddr i, takeFrame s i) := by
        rcases h.allocFrame_cases with ⟨_, _, hall⟩ | ⟨_, hall⟩ | hsome
        · rw [hall j hj] at hclear
          cases hclear
        · rw [hall j hj] at hclear
          cases hclear
        · exact hsome
      have hstep : PmmStep s (.allocFrame, s.frameAddr i) (takeFrame s i) := ⟨trivial, halloc⟩
      by_cases hij : j = i
      · subst hij
        refine ⟨_, _, .cons hstep (.nil _), by simp, ?_⟩
        rw [h.frameAddr_eq hi]
        exact List.mem_singleton.mpr rfl
      · have hcard' := PmmInv.clearFrames_take hi hiclear (t := takeFrame s i) rfl
          (takeFrame_used s i)
        obtain ⟨es, t, hrun, hes, hmem⟩ := ih (takeFrame s i) (h.takeFrame hi hiclear) hj
          (by rw [takeFrame_used, hclear, Bool.or_false]; exact decide_eq_false hij) (by omega)
        refine ⟨_, t, .cons hstep hrun, ?_, List.mem_cons_of_mem _ hmem⟩
        intro e he
        rcases List.mem_cons.mp he with rfl | he
        · rfl
        · exact hes e he

end Vectra

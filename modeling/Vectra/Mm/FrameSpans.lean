import Vectra.Mm.Kheap

/-!
# Consecutive frames

`kmalloc` asks for the frames of a large block one by one and panics at the
first that does not follow its predecessor; `kfree` gives them back one by
one. Both loops are characterized by the window of bits they change.
-/

namespace Vectra

section Spans

variable {slack first n : ℕ} {p p' : Pmm}

theorem frameAddr_add (h : PmmInv slack p) (hn : first + n < p.totalFrames) :
    p.frameAddr first + n * pageSize = p.frameAddr (first + n) := by
  rw [h.frameAddr_eq hn, h.frameAddr_eq (by omega)]
  unfold pageSize
  omega

/-- The frames asked for one by one are exactly those behind the first. -/
theorem allocRun_spec (h : PmmInv slack p) (hbase : 0 < p.memPhysBase)
    (hfirst : first < p.totalFrames)
    (hrun : allocRun p (p.frameAddr first) n = some p') :
    first + n < p.totalFrames ∧ PmmInv slack p' ∧ SameRange p p' ∧
      (∀ j, first < j → j ≤ first + n → p.used j = false) ∧
      ∀ j, p'.used j = (decide (first < j ∧ j ≤ first + n) || p.used j) := by
  induction n generalizing p' with
  | zero =>
      cases hrun
      refine ⟨hfirst, h, SameRange.refl p, fun j hlo hhi => by omega, fun j => ?_⟩
      rw [decide_eq_false (by omega), Bool.false_or]
  | succ n ih =>
      rw [allocRun] at hrun
      cases hprev : allocRun p (p.frameAddr first) n with
      | none => simp [hprev] at hrun
      | some q =>
          obtain ⟨hbound, hq, hrange, hfree, hused⟩ := ih hprev
          rw [hprev] at hrun
          cases halloc : pmmAllocFrame q with
          | none => simp [halloc] at hrun
          | some r =>
              obtain ⟨a, q'⟩ := r
              simp only [halloc] at hrun
              have hexpect : (p.frameAddr first + (n + 1) * pageSize) % 2 ^ 64 =
                  p.memPhysBase + (first + n + 1) * pageSize := by
                have hrange := h.range
                rw [h.frameAddr_eq hfirst]
                unfold pageSize at *
                omega
              rw [hexpect] at hrun
              split at hrun
              · rename_i ha
                cases hrun
                rcases hq.allocFrame_some halloc with ⟨hzero, _, _⟩ | ⟨k, hk, hclear, hak, rfl⟩
                · omega
                · rw [hrange.2] at hk
                  rw [hq.frameAddr_eq (by rw [hrange.2]; exact hk), hrange.1] at hak
                  have hkn : k = first + n + 1 := by
                    unfold pageSize at hak ha
                    omega
                  subst hkn
                  have hqk := hused (first + n + 1)
                  rw [hclear] at hqk
                  refine ⟨by omega, hq.takeFrame (by rw [hrange.2]; exact hk) hclear,
                    hrange.trans (takeFrame_sameRange _ _), ?_, ?_⟩
                  · intro j hlo hhi
                    rcases Nat.lt_or_ge (first + n) j with hlt | hge
                    · have hj : j = first + n + 1 := by omega
                      subst hj
                      simpa using hqk.symm
                    · exact hfree j hlo hge
                  · intro j
                    rw [takeFrame_used, hused, ← Bool.or_assoc, ← Bool.decide_or]
                    congr 1
                    apply decide_eq_decide.mpr
                    omega
              · cases hrun

/-- Giving back a window of frames clears exactly its bits. -/
theorem freeRun_spec (h : PmmInv slack p) (hn : first + n ≤ p.totalFrames) :
    PmmInv slack (freeRun p (p.frameAddr first) n) ∧
      SameRange p (freeRun p (p.frameAddr first) n) ∧
      ∀ j, (freeRun p (p.frameAddr first) n).used j =
        (!decide (first ≤ j ∧ j < first + n) && p.used j) := by
  induction n with
  | zero =>
      refine ⟨h, SameRange.refl p, fun j => ?_⟩
      rw [decide_eq_false (by omega)]
      rfl
  | succ n ih =>
      obtain ⟨hinv, hrange, hused⟩ := ih (by omega)
      have hrange64 := h.range
      have haddr : (p.frameAddr first + n * pageSize) % 2 ^ 64 =
          (freeRun p (p.frameAddr first) n).frameAddr (first + n) + 0 := by
        rw [frameAddr_add h (by omega), Nat.add_zero, hrange.frameAddr]
        exact Nat.mod_eq_of_lt (Nat.mod_lt _ (by omega))
      rw [freeRun, haddr]
      obtain ⟨hinv', hrange'⟩ := hinv.freeFrame
        ((freeRun p (p.frameAddr first) n).frameAddr (first + n) + 0)
      refine ⟨hinv', hrange.trans hrange', fun j => ?_⟩
      rw [hinv.freeFrame_used (by rw [hrange.2]; omega) (by decide), hused, window_succ,
        Bool.not_or, Bool.and_assoc]

end Spans

end Vectra

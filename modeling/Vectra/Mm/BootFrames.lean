import Vectra.Mm.Init
import Vectra.Mm.KheapOrder

/-!
# The frames while the kernel boots

`mm_init` leaves the frames used up to some frame and clear behind it. Until the first frame
is freed it stays so: each call of `pmm_alloc_frame` returns the next frame, and a large
block is found exactly when so many frames are left.
-/

namespace Vectra

open Lib SlabMem

/-- The frames below `k` are used and the others are clear. -/
structure FilledTo (slack : ℕ) (p : Pmm) (k : ℕ) : Prop where
  pmm : PmmInv slack p
  low : CursorLow p
  le : k ≤ p.totalFrames
  used : ∀ j < p.totalFrames, p.used j = decide (j < k)

/-- Some calls of `pmm_alloc_frame`, one after another. -/
def AllocCalls (p q : Pmm) : Prop :=
  ∃ rs, Run (fun s a t => pmmAllocFrame s = some (a, t)) p rs q

section Calls

variable {a : ℕ} {p q r : Pmm}

theorem AllocCalls.refl (p : Pmm) : AllocCalls p p := ⟨[], .nil p⟩

theorem AllocCalls.trans (hpq : AllocCalls p q) (hqr : AllocCalls q r) : AllocCalls p r := by
  obtain ⟨xs, hxs⟩ := hpq
  obtain ⟨ys, hys⟩ := hqr
  exact ⟨xs ++ ys, hxs.append hys⟩

theorem AllocCalls.alloc (ha : pmmAllocFrame p = some (a, q)) : AllocCalls p q :=
  ⟨[a], .cons ha (.nil q)⟩

end Calls

namespace FilledTo

variable {slack k n a size : ℕ} {p q : Pmm} {h : Heap}

theorem clear_card (hf : FilledTo slack p k) : p.clearFrames.card = p.totalFrames - k := by
  have heq : p.clearFrames = Finset.Ico k p.totalFrames := by
    ext j
    rw [p.mem_clearFrames, Finset.mem_Ico]
    constructor
    · rintro ⟨hj, hclear⟩
      rw [hf.used j hj, decide_eq_false_iff_not] at hclear
      exact ⟨Nat.le_of_not_lt hclear, hj⟩
    · rintro ⟨hk, hj⟩
      rw [hf.used j hj]
      exact ⟨hj, decide_eq_false (Nat.not_lt.mpr hk)⟩
  rw [heq, Nat.card_Ico]

theorem freeFrames (hf : FilledTo slack p k) : p.freeFrames + k = slack + p.totalFrames := by
  have hcount := hf.pmm.count
  have hcard := hf.clear_card
  have hle := hf.le
  omega

theorem lowestFree (hf : FilledTo slack p k) (hk : k < p.totalFrames) : LowestFree p k where
  lt := hk
  clear := by rw [hf.used k hk, decide_eq_false (Nat.lt_irrefl k)]
  below j hj := by rw [hf.used j (hj.trans hk), decide_eq_true hj]

theorem takeFrame (hf : FilledTo slack p k) (hk : k < p.totalFrames) :
    FilledTo slack (takeFrame p k) (k + 1) where
  pmm := hf.pmm.takeFrame hk (hf.lowestFree hk).clear
  low := .takeFrame (hf.lowestFree hk)
  le := hk
  used j hj := by
    rw [takeFrame_used, hf.used j hj, ← Bool.decide_or]
    exact decide_eq_decide.mpr (by omega)

theorem allocFrame_eq (hf : FilledTo slack p k) (hk : k < p.totalFrames) :
    pmmAllocFrame p = some (p.frameAddr k, Vectra.takeFrame p k) :=
  hf.low.allocFrame_eq hf.pmm (hf.lowestFree hk)

/-- The next frame, or none is left. -/
theorem allocFrame (hf : FilledTo slack p k) (ha : pmmAllocFrame p = some (a, q)) :
    (a = 0 ∧ q = p ∧ k = p.totalFrames) ∨
      k < p.totalFrames ∧ a = p.frameAddr k ∧ q = Vectra.takeFrame p k := by
  rcases Nat.lt_or_ge k p.totalFrames with hk | hk
  · rw [hf.allocFrame_eq hk] at ha
    cases ha
    exact Or.inr ⟨hk, rfl, rfl⟩
  · rcases hf.low.allocFrame_some hf.pmm ha with ⟨hzero, hsame, _⟩ | ⟨i, hi, _, _⟩
    · exact Or.inl ⟨hzero, hsame, Nat.le_antisymm hf.le hk⟩
    · have hclear := hi.clear
      rw [hf.used i hi.lt, decide_eq_true (lt_of_lt_of_le hi.lt hk)] at hclear
      cases hclear

theorem calls (hf : FilledTo slack p k) (hpq : AllocCalls p q) :
    SameRange p q ∧ ∃ k', k ≤ k' ∧ FilledTo slack q k' := by
  obtain ⟨rs, hrun⟩ := hpq
  refine hrun.invariant (I := fun u => SameRange p u ∧ ∃ k', k ≤ k' ∧ FilledTo slack u k') ?_
    ⟨.refl p, k, le_refl k, hf⟩
  rintro s a t ⟨hrange, k', hle, hs⟩ ha
  rcases hs.allocFrame ha with ⟨_, rfl, _⟩ | ⟨hlt, _, rfl⟩
  · exact ⟨hrange, k', hle, hs⟩
  · exact ⟨hrange.trans (takeFrame_sameRange s k'), k' + 1, hle.trans k'.le_succ, hs.takeFrame hlt⟩

theorem clearWindow (hf : FilledTo slack p k) (hle : k + n ≤ p.totalFrames) :
    ClearWindow p k n := by
  refine ⟨hle, fun j hlo hhi => ?_⟩
  rw [hf.used j (by omega), decide_eq_false (by omega)]

/-- A large block takes the next frames when there are enough of them. With fewer, but some,
`kmalloc` panics. -/
theorem kmalloc_large (hf : FilledTo slack h.pmm k) (hready : h.kheapInitialized = true)
    (hbase : 0 < h.pmm.memPhysBase) (hlarge : 2048 < size) (hfits : FitsSize size) :
    (k + numPages size ≤ h.pmm.totalFrames → ∃ q,
      kmalloc h size = some (h.pmm.frameAddr k + allocHeaderSize,
        { h with pmm := q, mem := writeHeader h.mem (h.pmm.frameAddr k) size 0 }) ∧
      SameRange h.pmm q ∧ FilledTo slack q (k + numPages size)) ∧
    (k < h.pmm.totalFrames → h.pmm.totalFrames < k + numPages size → kmalloc h size = none) ∧
    (k = h.pmm.totalFrames → kmalloc h size = none ∨ kmalloc h size = some (0, h)) := by
  have hnext := kmalloc_next hf.pmm hready hbase hlarge hfits
  have hcovered : numPages size ≠ 0 := by
    rw [numPages_eq hfits]
    omega
  refine ⟨fun hle => ?_, fun hlt hgap => ?_, fun hfull => ?_⟩
  · have hlt : k < h.pmm.totalFrames := by omega
    have hclear := hf.clearWindow hle
    obtain ⟨q, hfound, hqinv, hrange, hused⟩ :=
      hnext.found k (hf.low.nextClear (hf.lowestFree hlt)) hclear
    refine ⟨q, hfound, hrange, hqinv, ?_, by rw [hrange.2]; exact hle, fun j hj => ?_⟩
    · exact ((kmalloc_calls hfound).low hf.pmm hf.low).2.2
    · rw [hrange.2] at hj
      rw [hused, hf.used j hj, ← Bool.decide_or]
      exact decide_eq_decide.mpr (by omega)
  · refine hnext.gap k (hf.low.nextClear (hf.lowestFree hlt)) fun hclear => ?_
    have hle := hclear.1
    omega
  · rw [hnext.full (Pmm.nextClear_none (fun j hj => ?_) hf.pmm.cursor)]
    · split
      · exact Or.inl rfl
      · exact Or.inr rfl
    · rw [hf.used j hj, decide_eq_true (by omega)]

end FilledTo

end Vectra

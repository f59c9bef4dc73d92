import Vectra.Mm.FrameInvariant

/-!
# Runs of the frame allocator

Any sequence of region and frame operations on the managed range keeps
the invariant, so the contract of `pmm_alloc_frame` and `pmm_free_frame`
holds wherever the search cursor has moved.
-/

namespace Vectra

open Lib

inductive PmmOp
  | freeRegion (base size : ℕ)
  | reserveRegion (base size : ℕ)
  | allocFrame
  | freeFrame (physAddr : ℕ)
  deriving DecidableEq

/-- One operation. The result is the returned address, 0 for a `void` function. -/
def pmmStep (s : Pmm) : PmmOp → Option (ℕ × Pmm)
  | .freeRegion base size => some (0, pmmFreeRegion s base size)
  | .reserveRegion base size => some (0, pmmReserveRegion s base size)
  | .allocFrame => pmmAllocFrame s
  | .freeFrame physAddr => some (0, pmmFreeFrame s physAddr)

/-- Region operations are called on regions of the managed range. -/
def PmmOp.Managed (s : Pmm) : PmmOp → Prop
  | .freeRegion base size | .reserveRegion base size =>
      s.memPhysBase ≤ base ∧ base + size ≤ s.memPhysBase + s.totalFrames * pageSize
  | .allocFrame | .freeFrame _ => True

/-- A completed operation, labelled with its result. -/
def PmmStep (s : Pmm) (e : PmmOp × ℕ) (t : Pmm) : Prop :=
  e.1.Managed s ∧ pmmStep s e.1 = some (e.2, t)

/-- The operations that give a frame back. -/
def PmmOp.Releases (s : Pmm) (i : ℕ) : PmmOp → Prop
  | .freeRegion base size => s.frameIndex base ≤ i ∧ i < s.frameIndex base + size / pageSize
  | .reserveRegion _ _ | .allocFrame => False
  | .freeFrame physAddr => s.memPhysBase ≤ physAddr ∧ s.frameIndex physAddr = i

variable {slack : ℕ} {s t : Pmm} {e : PmmOp × ℕ} {i : ℕ}

theorem PmmStep.inv (h : PmmInv slack s) (hstep : PmmStep s e t) :
    PmmInv slack t ∧ SameRange s t := by
  obtain ⟨op, r⟩ := e
  obtain ⟨hmanaged, hs⟩ := hstep
  cases op with
  | freeRegion base size =>
      cases hs
      exact ⟨h.freeRegion hmanaged.1 hmanaged.2,
        forFrames_sameRange freeBit_sameRange _ _ _⟩
  | reserveRegion base size =>
      cases hs
      exact ⟨h.reserveRegion hmanaged.1 hmanaged.2,
        forFrames_sameRange reserveBit_sameRange _ _ _⟩
  | allocFrame => exact h.allocFrame hs
  | freeFrame physAddr =>
      cases hs
      exact h.freeFrame physAddr

theorem run_pmmInv {es : List (PmmOp × ℕ)} (hrun : Run PmmStep s es t) (h : PmmInv slack s) :
    PmmInv slack t ∧ SameRange s t :=
  hrun.invariant (I := fun u => PmmInv slack u ∧ SameRange s u)
    (fun _ _ _ hu hstep => ⟨(hstep.inv hu.1).1, hu.2.trans (hstep.inv hu.1).2⟩)
    ⟨h, SameRange.refl s⟩

/-- A used frame stays used under every operation that does not release it. -/
theorem PmmStep.used (h : PmmInv slack s) (hstep : PmmStep s e t)
    (hkeep : ¬ e.1.Releases s i) (hset : s.used i = true) : t.used i = true := by
  obtain ⟨op, r⟩ := e
  obtain ⟨_, hs⟩ := hstep
  cases op with
  | freeRegion base size =>
      cases hs
      have hout : ¬ (s.frameIndex base ≤ i ∧ i < s.frameIndex base + size / pageSize) := hkeep
      unfold pmmFreeRegion
      rw [forFrames_freeBit_used, hset, decide_eq_false hout]
      rfl
  | reserveRegion base size =>
      cases hs
      unfold pmmReserveRegion
      rw [forFrames_reserveBit_used, hset, Bool.or_true]
  | allocFrame =>
      rcases h.allocFrame_some hs with ⟨_, rfl, _⟩ | ⟨k, _, _, _, rfl⟩
      · exact hset
      · rw [takeFrame_used, hset, Bool.or_true]
  | freeFrame physAddr =>
      cases hs
      rcases PmmInv.freeFrame_cases s physAddr with ⟨hsame, _⟩ | ⟨hbase, _, _, _, hused, _, _⟩
      · rw [hsame]
        exact hset
      · have hne : i ≠ s.frameIndex physAddr := fun hi => hkeep ⟨hbase, hi.symm⟩
        simp [hused, hne, hset]

theorem releases_sameRange (h : SameRange s t) (op : PmmOp) (i : ℕ) :
    op.Releases t i ↔ op.Releases s i := by
  cases op <;> simp [PmmOp.Releases, Pmm.frameIndex, h.1]

/-- No run hands a used frame out before some operation releases it. -/
theorem used_not_returned {u : Pmm} {es : List (PmmOp × ℕ)} (h : PmmInv slack s)
    (hbase : 0 < s.memPhysBase) (hi : i < s.totalFrames) (hset : s.used i = true)
    (hrun : Run PmmStep s es u) (hkeep : ∀ e ∈ es, ¬ e.1.Releases s i) :
    (PmmOp.allocFrame, s.frameAddr i) ∉ es := by
  induction hrun with
  | nil s => simp
  | @cons s t u e es hstep _ ih =>
      obtain ⟨ht, hrange⟩ := hstep.inv h
      have hused : t.used i = true := hstep.used h (hkeep e (by simp)) hset
      have haddr : t.frameAddr i = s.frameAddr i := by simp [Pmm.frameAddr, hrange.1]
      have htail := ih ht (by rw [hrange.1]; exact hbase) (by rw [hrange.2]; exact hi) hused
        (fun x hx => fun hrel =>
          hkeep x (List.mem_cons_of_mem e hx) ((releases_sameRange hrange x.1 i).mp hrel))
      intro hmem
      rcases List.mem_cons.mp hmem with hhead | hmem
      · subst hhead
        rcases h.allocFrame_some hstep.2 with ⟨hzero, _, _⟩ | ⟨k, hk, hclear, hak, _⟩
        · rw [h.frameAddr_eq hi] at hzero
          omega
        · rw [h.frameAddr_eq hi, h.frameAddr_eq hk] at hak
          have hki : k = i := by
            unfold pageSize at hak
            omega
          rw [hki, hset] at hclear
          cases hclear
      · exact htail (by rw [haddr]; exact hmem)

/-- The contract of the frame allocator in one state. -/
structure FrameAllocSpec (s : Pmm) : Prop where
  cursor_le : s.lastFreeIndex ≤ s.totalFrames
  alloc_takes : ∀ a t, pmmAllocFrame s = some (a, t) → a ≠ 0 →
    ∃ i < s.totalFrames, a = s.memPhysBase + i * pageSize ∧ s.used i = false ∧
      ∀ j, t.used j = (decide (j = i) || s.used j)
  alloc_fresh : ∀ i t es u, i < s.totalFrames →
    pmmAllocFrame s = some (s.memPhysBase + i * pageSize, t) → Run PmmStep t es u →
    (∀ e ∈ es, ¬ e.1.Releases t i) → (PmmOp.allocFrame, s.memPhysBase + i * pageSize) ∉ es
  alloc_fails : (pmmAllocFrame s = none ∨ ∃ t, pmmAllocFrame s = some (0, t)) →
    ∀ i < s.totalFrames, s.used i = true
  free_clears : ∀ i < s.totalFrames, ∀ off < pageSize, ∀ j,
    (pmmFreeFrame s (s.memPhysBase + i * pageSize + off)).used j =
      (!decide (j = i) && s.used j)
  free_same : ∀ a, a < 2 ^ 64 →
    (a < s.memPhysBase ∨ s.memPhysBase + s.totalFrames * pageSize ≤ a ∨
      ∃ i < s.totalFrames, ∃ off < pageSize, a = s.memPhysBase + i * pageSize + off ∧
        s.used i = false) → pmmFreeFrame s a = s

theorem frameAllocSpec_of_inv (h : PmmInv slack s) (hbase : 0 < s.memPhysBase) :
    FrameAllocSpec s where
  cursor_le := h.cursor
  alloc_takes := by
    intro a t ha hne
    rcases h.allocFrame_some ha with ⟨hzero, _, _⟩ | ⟨i, hi, hclear, hai, rfl⟩
    · exact absurd hzero hne
    · exact ⟨i, hi, by rw [hai, h.frameAddr_eq hi], hclear, takeFrame_used s i⟩
  alloc_fresh := by
    intro i t es u hi ha hrun hkeep
    obtain ⟨ht, hrange⟩ := h.allocFrame ha
    have hused : t.used i = true := by
      rcases h.allocFrame_some ha with ⟨hzero, _, _⟩ | ⟨k, hk, _, hak, rfl⟩
      · omega
      · rw [h.frameAddr_eq hk] at hak
        have hki : k = i := by
          unfold pageSize at hak
          omega
        simp [hki]
    have hnot := used_not_returned ht (by rw [hrange.1]; exact hbase)
      (by rw [hrange.2]; exact hi) hused hrun hkeep
    rwa [ht.frameAddr_eq (by rw [hrange.2]; exact hi), hrange.1] at hnot
  alloc_fails := by
    intro hfail
    rcases h.allocFrame_cases with ⟨_, _, hall⟩ | ⟨_, hall⟩ | ⟨i, hi, _, hs⟩
    · exact hall
    · exact hall
    · rw [hs, h.frameAddr_eq hi] at hfail
      rcases hfail with hfail | ⟨t, ht⟩
      · cases hfail
      · have hzero : s.memPhysBase + i * pageSize = 0 := congrArg Prod.fst (Option.some.inj ht)
        omega
  free_clears := by
    intro i hi off hoff j
    rw [← h.frameAddr_eq hi]
    exact h.freeFrame_used hi hoff j
  free_same := by
    intro a ha hwhy
    have hr := h.range
    rcases PmmInv.freeFrame_cases s a with ⟨hsame, _⟩ | ⟨hlo, hhi, hset, _⟩
    · exact hsame
    · rcases hwhy with hlt | hge | ⟨i, hi, off, hoff, rfl, hclear⟩
      · omega
      · rw [PmmInv.frameIndex_eq hlo ha] at hhi
        unfold pageSize at hhi hge
        omega
      · rw [← h.frameAddr_eq hi, h.frameIndex_frameAddr hi hoff, hclear] at hset
        cases hset

/-- The allocator meets its contract in every state that a run from
`pmm_init` reaches, on the range that `pmm_init` was given. -/
theorem pmm_run_frameAllocSpec {b b' : BootHeap} {mem : ℕ → BitVec 8} {base size : ℕ}
    {s t : Pmm} {es : List (PmmOp × ℕ)} (hbase : 0 < base) (hwrap : base + size < 2 ^ 64)
    (hinit : pmmInit Pmm.boot b mem base size = some (s, b')) (hrun : Run PmmStep s es t) :
    FrameAllocSpec t ∧ t.memPhysBase = base ∧ t.totalFrames = size / pageSize := by
  have hs := pmmInit_inv rfl (range_of_wrap hwrap) hinit
  obtain ⟨ht, hrange⟩ := run_pmmInv hrun hs
  obtain ⟨hmem, htotal, _⟩ := pmmInit_fields hinit
  have hstart : t.memPhysBase = base := hrange.1.trans hmem
  exact ⟨frameAllocSpec_of_inv ht (by rw [hstart]; exact hbase), hstart, hrange.2.trans htotal⟩

/-- What `pmm_init` leaves for 64 frames at `0x40000`. -/
def smallPmm : Pmm := ⟨fillUsed (fun _ => 0#8) 8, 64, 64, 0x40000, 0⟩

theorem smallPmm_init :
    pmmInit Pmm.boot ⟨0x10000, 0x20000⟩ (fun _ => 0#8) 0x40000 0x40000 =
      some (smallPmm, ⟨0x10010, 0x20000⟩) := rfl

theorem pmm_run_frameAllocSpec_four_steps :
    ∃ t, Run PmmStep smallPmm [(.freeRegion 0x40000 0x3000, 0), (.allocFrame, 0x40000),
      (.freeFrame 0x40010, 0), (.allocFrame, 0x40000)] t ∧ FrameAllocSpec t := by
  obtain ⟨t, hrun⟩ : ∃ t, Run PmmStep smallPmm [(.freeRegion 0x40000 0x3000, 0),
      (.allocFrame, 0x40000), (.freeFrame 0x40010, 0), (.allocFrame, 0x40000)] t :=
    ⟨_, .cons ⟨⟨by decide, by decide⟩, rfl⟩ (.cons ⟨trivial, rfl⟩ (.cons ⟨trivial, rfl⟩
      (.cons ⟨trivial, rfl⟩ (.nil _))))⟩
  exact ⟨t, hrun, (pmm_run_frameAllocSpec (by decide) (by decide) smallPmm_init hrun).1⟩

/-! ## The counter -/

/-- The counter is the number of clear bits, so the out-of-memory panic is
raised exactly when there is none, and 0 is not returned in its place. -/
structure CounterExact (s : Pmm) : Prop where
  count : s.freeFrames = s.clearFrames.card
  panics : pmmAllocFrame s = none ↔ s.clearFrames = ∅
  no_null : s.clearFrames = ∅ → ∀ t, pmmAllocFrame s ≠ some (0, t)

/-- `pmm_init` counts every frame as free and marks every frame as used, so the
counter stays ahead by the number of all frames. -/
theorem pmm_run_freeFrames {b b' : BootHeap} {mem : ℕ → BitVec 8} {base size : ℕ}
    {s t : Pmm} {es : List (PmmOp × ℕ)} (hwrap : base + size < 2 ^ 64)
    (hcover : size / pageSize ≤ pmmBitmapSize size * 8)
    (hinit : pmmInit Pmm.boot b mem base size = some (s, b')) (hrun : Run PmmStep s es t) :
    t.totalFrames = size / pageSize ∧ t.freeFrames = size / pageSize + t.clearFrames.card := by
  have hs := pmmInit_inv rfl (range_of_wrap hwrap) hinit
  rw [pmmInit_covered hcover hinit, Finset.card_empty, Nat.sub_zero] at hs
  obtain ⟨_, htotal, _⟩ := pmmInit_fields hinit
  obtain ⟨ht, hrange⟩ := run_pmmInv hrun hs
  have hcount := ht.count
  rw [htotal] at hcount
  exact ⟨hrange.2.trans htotal, hcount⟩

/-- In every state that a run from `pmm_init` reaches, the counter is exact if
and only if there is no frame at all. -/
theorem pmm_run_counterExact_iff {b b' : BootHeap} {mem : ℕ → BitVec 8} {base size : ℕ}
    {s t : Pmm} {es : List (PmmOp × ℕ)} (hwrap : base + size < 2 ^ 64)
    (hcover : size / pageSize ≤ pmmBitmapSize size * 8)
    (hinit : pmmInit Pmm.boot b mem base size = some (s, b')) (hrun : Run PmmStep s es t) :
    CounterExact t ↔ size / pageSize = 0 := by
  obtain ⟨htotal, hcount⟩ := pmm_run_freeFrames hwrap hcover hinit hrun
  constructor
  · intro h
    have hexact := h.count
    omega
  · intro hzero
    have hcard := PmmInv.card_le t
    have hempty : t.clearFrames = ∅ := Finset.card_eq_zero.mp (by omega)
    have hfree : t.freeFrames = 0 := by
      rw [hcount, hempty, Finset.card_empty, hzero]
    have hpanic : pmmAllocFrame t = none := by
      unfold pmmAllocFrame
      rw [if_pos hfree]
    refine ⟨by rw [hfree, hempty, Finset.card_empty], ?_, ?_⟩
    · simp only [hpanic, hempty]
    · intro _ u
      rw [hpanic]
      simp

theorem pmm_run_counterExact_iff_small :
    ∃ t, Run PmmStep smallPmm [(.freeRegion 0x40000 0x3000, 0), (.allocFrame, 0x40000)] t ∧
      (CounterExact t ↔ 0x40000 / pageSize = 0) := by
  obtain ⟨t, hrun⟩ : ∃ t, Run PmmStep smallPmm [(.freeRegion 0x40000 0x3000, 0),
      (.allocFrame, 0x40000)] t :=
    ⟨_, .cons ⟨⟨by decide, by decide⟩, rfl⟩ (.cons ⟨trivial, rfl⟩ (.nil _))⟩
  exact ⟨t, hrun, pmm_run_counterExact_iff (by decide) (by decide) smallPmm_init hrun⟩

/-- After `pmm_init` for 64 frames no bit is clear, the counter is 64, and the
first allocation returns 0. -/
theorem pmm_counter_ahead :
    pmmInit Pmm.boot ⟨0x10000, 0x20000⟩ (fun _ => 0#8) 0x40000 0x40000 =
        some (smallPmm, ⟨0x10010, 0x20000⟩) ∧
      smallPmm.freeFrames = 64 ∧ smallPmm.clearFrames.card = 0 ∧
      pmmAllocFrame smallPmm = some (0, smallPmm) :=
  ⟨rfl, rfl, by decide, rfl⟩

end Vectra

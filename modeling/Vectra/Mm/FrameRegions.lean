import Vectra.Mm.FrameRuns

/-!
# Regions that are not aligned to pages

Both region functions round the start down to a page; the number of pages comes from the size
alone.
-/

namespace Vectra

open Lib

/-! ## The contract -/

/-- The frame has a byte of the region. -/
def FrameMeets (s : Pmm) (i base size : ℕ) : Prop :=
  ∃ a, base ≤ a ∧ a < base + size ∧ s.memPhysBase + i * pageSize ≤ a ∧
    a < s.memPhysBase + i * pageSize + pageSize

/-- `pmm_reserve_region` marks every frame that the region meets, so that it is not returned
until it is released; `pmm_free_region` marks only frames inside the region; neither touches
other frames. -/
structure RegionContract (s : Pmm) (base size : ℕ) : Prop where
  reserved : ∀ i < s.totalFrames, FrameMeets s i base size →
    (pmmReserveRegion s base size).used i = true
  not_returned : ∀ es u, Run PmmStep (pmmReserveRegion s base size) es u →
    (∀ e ∈ es, ∀ i, FrameMeets s i base size → ¬ e.1.Releases s i) →
    ∀ a ≠ 0, (.allocFrame, a) ∈ es → ∀ x, base ≤ x → x < base + size →
      ¬ (a ≤ x ∧ x < a + pageSize)
  freed : ∀ i < s.totalFrames, s.used i = true → (pmmFreeRegion s base size).used i = false →
    base ≤ s.memPhysBase + i * pageSize ∧
      s.memPhysBase + i * pageSize + pageSize ≤ base + size
  reserve_outside : ∀ i < s.totalFrames, ¬ FrameMeets s i base size →
    (pmmReserveRegion s base size).used i = s.used i
  free_outside : ∀ i < s.totalFrames, ¬ FrameMeets s i base size →
    (pmmFreeRegion s base size).used i = s.used i

/-- The offset of the start in its page. -/
def Pmm.pageOffset (s : Pmm) (base : ℕ) : ℕ := (base - s.memPhysBase) % pageSize

/-- The pages counted from the size reach the end of the region, or its last frame is used. -/
def ReserveCovers (s : Pmm) (base size : ℕ) : Prop :=
  size = 0 ∨ s.pageOffset base = 0 ∨
    (0 < size % pageSize ∧ s.pageOffset base + size % pageSize ≤ pageSize) ∨
    s.used ((base - s.memPhysBase + size - 1) / pageSize) = true

/-- The first frame is not cut, or is free. -/
def FreeCovers (s : Pmm) (base size : ℕ) : Prop :=
  s.pageOffset base = 0 ∨ size < pageSize ∨
    s.used ((base - s.memPhysBase) / pageSize) = false

instance (s : Pmm) (base size : ℕ) : Decidable (ReserveCovers s base size) :=
  inferInstanceAs (Decidable (_ ∨ _))

instance (s : Pmm) (base size : ℕ) : Decidable (FreeCovers s base size) :=
  inferInstanceAs (Decidable (_ ∨ _))

/-! ## Frames that are not released -/

section Returned

variable {slack : ℕ} {s u : Pmm}

/-- Used frames are not returned until one of them is released. -/
theorem not_returned_of_used {F : ℕ → Prop} {es : List (PmmOp × ℕ)} (h : PmmInv slack s)
    (hused : ∀ i < s.totalFrames, F i → s.used i = true) (hrun : Run PmmStep s es u)
    (hkeep : ∀ e ∈ es, ∀ i, F i → ¬ e.1.Releases s i) :
    ∀ a ≠ 0, (PmmOp.allocFrame, a) ∈ es →
      ∃ k < s.totalFrames, a = s.memPhysBase + k * pageSize ∧ ¬ F k := by
  induction hrun with
  | nil s => exact fun _ _ hmem => nomatch hmem
  | @cons s t u e es hstep _ ih =>
      intro a ha hmem
      obtain ⟨ht, hrange⟩ := hstep.inv h
      rcases List.mem_cons.mp hmem with rfl | hmem
      · rcases h.allocFrame_some hstep.2 with ⟨hzero, _, _⟩ | ⟨k, hk, hclear, hak, _⟩
        · exact absurd hzero ha
        · refine ⟨k, hk, hak.trans (h.frameAddr_eq hk), fun hF => ?_⟩
          rw [hused k hk hF] at hclear
          cases hclear
      · have htail := ih ht (fun i hi hF => hstep.used h (hkeep e List.mem_cons_self i hF)
            (hused i (by rwa [hrange.2] at hi) hF))
          (fun x hx i hF hrel => hkeep x (List.mem_cons_of_mem e hx) i hF
            ((releases_sameRange hrange x.1 i).mp hrel)) a ha hmem
        rwa [hrange.1, hrange.2] at htail

end Returned

/-! ## The two loops on a region -/

section Region

variable {slack : ℕ} {s : Pmm} {base size i : ℕ}

theorem reserveRegion_used (h : PmmInv slack s) (hlo : s.memPhysBase ≤ base)
    (hhi : base + size ≤ s.memPhysBase + s.totalFrames * pageSize) (i : ℕ) :
    (pmmReserveRegion s base size).used i = (decide ((base - s.memPhysBase) / pageSize ≤ i ∧
      i < (base - s.memPhysBase) / pageSize + (size + 4095) / pageSize) || s.used i) := by
  have hr := h.range
  have hcount : alignUp size pageSize / pageSize = (size + 4095) / pageSize := by
    rw [alignUp_page (by unfold pageSize at *; omega)]
    unfold pageSize
    omega
  unfold pmmReserveRegion
  rw [forFrames_reserveBit_used, PmmInv.frameIndex_eq hlo (by omega), hcount]

theorem freeRegion_used (h : PmmInv slack s) (hlo : s.memPhysBase ≤ base)
    (hhi : base + size ≤ s.memPhysBase + s.totalFrames * pageSize) (i : ℕ) :
    (pmmFreeRegion s base size).used i = (!decide ((base - s.memPhysBase) / pageSize ≤ i ∧
      i < (base - s.memPhysBase) / pageSize + size / pageSize) && s.used i) := by
  have hr := h.range
  unfold pmmFreeRegion
  rw [forFrames_freeBit_used, PmmInv.frameIndex_eq hlo (by omega)]

theorem frameMeets_iff (hlo : s.memPhysBase ≤ base) :
    FrameMeets s i base size ↔ 0 < size ∧ (base - s.memPhysBase) / pageSize ≤ i ∧
      i ≤ (base - s.memPhysBase + size - 1) / pageSize := by
  unfold FrameMeets pageSize
  constructor
  · rintro ⟨a, ha, hend, hstart, hpage⟩
    omega
  · rintro ⟨hpos, hfirst, hlast⟩
    exact ⟨max base (s.memPhysBase + i * 4096), by omega, by omega, by omega, by omega⟩

/-- The frames that the loop of `pmm_reserve_region` visits meet the region. -/
theorem reserve_window_meets (hlo : s.memPhysBase ≤ base)
    (hi : (base - s.memPhysBase) / pageSize ≤ i ∧
      i < (base - s.memPhysBase) / pageSize + (size + 4095) / pageSize) :
    FrameMeets s i base size := by
  rw [frameMeets_iff hlo]
  unfold pageSize at *
  omega

/-- The loop of `pmm_reserve_region` misses at most the last frame of the region. -/
theorem reserve_misses (hlo : s.memPhysBase ≤ base) (hmeets : FrameMeets s i base size)
    (hout : ¬ ((base - s.memPhysBase) / pageSize ≤ i ∧
      i < (base - s.memPhysBase) / pageSize + (size + 4095) / pageSize)) :
    i = (base - s.memPhysBase + size - 1) / pageSize ∧ 0 < size ∧ 0 < s.pageOffset base ∧
      (size % pageSize = 0 ∨ pageSize < s.pageOffset base + size % pageSize) := by
  rw [frameMeets_iff hlo] at hmeets
  unfold Pmm.pageOffset
  unfold pageSize at *
  omega

/-- Only the first frame that `pmm_free_region` visits can be cut by the region. -/
theorem free_window_inside (hlo : s.memPhysBase ≤ base)
    (hi : (base - s.memPhysBase) / pageSize ≤ i ∧
      i < (base - s.memPhysBase) / pageSize + size / pageSize) :
    (base ≤ s.memPhysBase + i * pageSize ∧
        s.memPhysBase + i * pageSize + pageSize ≤ base + size) ∨
      (i = (base - s.memPhysBase) / pageSize ∧ 0 < s.pageOffset base ∧ pageSize ≤ size) := by
  unfold Pmm.pageOffset
  unfold pageSize at *
  omega

theorem reserveCovers_iff (h : PmmInv slack s) (hlo : s.memPhysBase ≤ base)
    (hhi : base + size ≤ s.memPhysBase + s.totalFrames * pageSize) :
    (∀ i < s.totalFrames, FrameMeets s i base size →
      (pmmReserveRegion s base size).used i = true) ↔ ReserveCovers s base size := by
  constructor
  · intro hall
    by_contra hno
    unfold ReserveCovers at hno
    rw [not_or, not_or, not_or] at hno
    obtain ⟨hsize, hoffset, hrem, hclear⟩ := hno
    have hlast := hall ((base - s.memPhysBase + size - 1) / pageSize)
      (by unfold pageSize at *; omega)
      ((frameMeets_iff hlo).mpr ⟨by omega, by unfold pageSize; omega, le_refl _⟩)
    rw [reserveRegion_used h hlo hhi, Bool.or_eq_true, decide_eq_true_eq] at hlast
    rcases hlast with hwindow | hset
    · unfold Pmm.pageOffset at hoffset hrem
      unfold pageSize at *
      omega
    · exact hclear hset
  · intro hcover i _ hmeets
    rw [reserveRegion_used h hlo hhi, Bool.or_eq_true, decide_eq_true_eq]
    by_contra hno
    rw [not_or] at hno
    obtain ⟨rfl, hsize, hoffset, hrem⟩ := reserve_misses hlo hmeets hno.1
    rcases hcover with hzero | hzero | hfit | hset
    · omega
    · omega
    · omega
    · exact hno.2 hset

theorem freeCovers_iff (h : PmmInv slack s) (hlo : s.memPhysBase ≤ base)
    (hhi : base + size ≤ s.memPhysBase + s.totalFrames * pageSize) :
    (∀ i < s.totalFrames, s.used i = true → (pmmFreeRegion s base size).used i = false →
      base ≤ s.memPhysBase + i * pageSize ∧
        s.memPhysBase + i * pageSize + pageSize ≤ base + size) ↔ FreeCovers s base size := by
  constructor
  · intro hall
    by_contra hno
    unfold FreeCovers at hno
    rw [not_or, not_or, Bool.not_eq_false] at hno
    obtain ⟨hoffset, hsize, hset⟩ := hno
    have hfirst := hall ((base - s.memPhysBase) / pageSize) (by unfold pageSize at *; omega) hset
      (by
        rw [freeRegion_used h hlo hhi, decide_eq_true (by unfold pageSize at *; omega)]
        rfl)
    unfold Pmm.pageOffset at hoffset
    unfold pageSize at *
    omega
  · intro hcover i _ hset hfree
    rw [freeRegion_used h hlo hhi, hset, Bool.and_true, Bool.not_eq_false', decide_eq_true_eq]
      at hfree
    rcases free_window_inside hlo hfree with hinside | ⟨rfl, hoffset, hsize⟩
    · exact hinside
    · rcases hcover with hzero | hlt | hclear
      · omega
      · omega
      · rw [hclear] at hset
        cases hset

theorem regionContract_iff (h : PmmInv slack s) (hlo : s.memPhysBase ≤ base)
    (hhi : base + size ≤ s.memPhysBase + s.totalFrames * pageSize) :
    RegionContract s base size ↔ ReserveCovers s base size ∧ FreeCovers s base size := by
  rw [← reserveCovers_iff h hlo hhi, ← freeCovers_iff h hlo hhi]
  constructor
  · exact fun hc => ⟨hc.reserved, hc.freed⟩
  · rintro ⟨hreserved, hfreed⟩
    refine ⟨hreserved, fun es u hrun hkeep a ha hmem x hx hend hin => ?_, hfreed,
      fun i _ hout => ?_, fun i _ hout => ?_⟩
    · have hrange : SameRange s (pmmReserveRegion s base size) :=
        forFrames_sameRange reserveBit_sameRange _ _ _
      obtain ⟨k, _, rfl, hnot⟩ := not_returned_of_used (F := fun i => FrameMeets s i base size)
        (h.reserveRegion hlo hhi) (fun i hi => hreserved i (by rwa [hrange.2] at hi)) hrun
        (fun e he i hF hrel => hkeep e he i hF ((releases_sameRange hrange e.1 i).mp hrel))
        a ha hmem
      rw [hrange.1] at hin
      exact hnot ⟨x, hx, hend, hin.1, hin.2⟩
    · rw [reserveRegion_used h hlo hhi,
        decide_eq_false fun hi => hout (reserve_window_meets hlo hi)]
      rfl
    · rw [freeRegion_used h hlo hhi, decide_eq_false]
      · rfl
      · intro hi
        refine hout (reserve_window_meets hlo ⟨hi.1, ?_⟩)
        unfold pageSize at *
        omega

end Region

/-- In every state that a run from `pmm_init` reaches, the two functions do what is expected of
them for exactly the regions and states that meet the two conditions. -/
theorem pmm_region_contract_iff {b b' : BootHeap} {mem : ℕ → BitVec 8} {ramBase ramSize : ℕ}
    {s t : Pmm} {es : List (PmmOp × ℕ)} {base size : ℕ} (hwrap : ramBase + ramSize < 2 ^ 64)
    (hinit : pmmInit Pmm.boot b mem ramBase ramSize = some (s, b')) (hrun : Run PmmStep s es t)
    (hlo : t.memPhysBase ≤ base)
    (hhi : base + size ≤ t.memPhysBase + t.totalFrames * pageSize) :
    RegionContract t base size ↔ ReserveCovers t base size ∧ FreeCovers t base size := by
  have hs := pmmInit_inv rfl (range_of_wrap hwrap) hinit
  exact regionContract_iff (run_pmmInv hrun hs).1 hlo hhi

/-- `smallPmm` with its first three frames free. -/
def threeFree : Pmm := pmmFreeRegion smallPmm 0x40000 0x3000

theorem run_threeFree : Run PmmStep smallPmm [(.freeRegion 0x40000 0x3000, 0)] threeFree :=
  .cons ⟨⟨by decide, by decide⟩, rfl⟩ (.nil _)

theorem pmm_region_contract_iff_page :
    RegionContract threeFree 0x41000 0x1000 ↔
      ReserveCovers threeFree 0x41000 0x1000 ∧ FreeCovers threeFree 0x41000 0x1000 :=
  pmm_region_contract_iff (by decide) smallPmm_init run_threeFree (by decide) (by decide)

/-- A page that starts in the middle of frame 0 is reserved; the next allocation returns
frame 1, which has its second half. -/
theorem pmm_reserve_misses_last :
    Run PmmStep smallPmm [(.freeRegion 0x40000 0x3000, 0)] threeFree ∧
      (pmmAllocFrame (pmmReserveRegion threeFree 0x40800 0x1000)).map Prod.fst = some 0x41000 ∧
      ¬ RegionContract threeFree 0x40800 0x1000 := by
  refine ⟨run_threeFree, by decide +kernel, fun h => ?_⟩
  have hused := h.reserved 1 (by decide) ⟨0x41000, by decide, by decide, by decide, by decide⟩
  exact absurd hused (by decide +kernel)

end Vectra

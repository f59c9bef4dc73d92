import Vectra.Mm.FrameClients
import Vectra.Mm.KheapBoot

/-!
# `mm_init`

The frame allocator is anchored at the start of the kernel image and sized
by the whole RAM of the machine; the image and the boot heap are reserved.
The bytes of the frame bitmap are kept in the allocator state.
-/

namespace Vectra

open Lib

/-- `boot_info_t`, as the boot code of an architecture fills it in. -/
structure BootInfo where
  earlyHeapStart : ℕ
  earlyHeapEnd : ℕ
  kernelImageStart : ℕ
  kernelReadonlyEnd : ℕ
  machineRamBase : ℕ
  machineRamTotal : ℕ

def mmBootInit (info : BootInfo) : BootHeap := ⟨info.earlyHeapStart, info.earlyHeapEnd⟩

/-- The calls into `physframe.c`. -/
def mmInitFrames (info : BootInfo) (mem : Bytes) : Option Pmm :=
  match pmmInit Pmm.boot (mmBootInit info) mem info.kernelImageStart info.machineRamTotal with
  | none => none
  | some (p, _) =>
      some (pmmReserveRegion (pmmFreeRegion p info.kernelImageStart info.machineRamTotal)
        info.kernelImageStart (sub64 info.earlyHeapEnd info.kernelImageStart))

def mmInit (info : BootInfo) (mem : Bytes) (cacheAt : ℕ → SlabCache) : Option Heap :=
  match mmInitFrames info mem with
  | none => none
  | some p => kheapInit (Heap.boot mem cacheAt p)

namespace BootInfo

/-- The number of managed frames, and of those that `mm_init` reserves. -/
def frames (info : BootInfo) : ℕ := info.machineRamTotal / pageSize

def reserved (info : BootInfo) : ℕ :=
  alignUp (sub64 info.earlyHeapEnd info.kernelImageStart) pageSize / pageSize

/-- The first byte behind the RAM. -/
def ramEnd (info : BootInfo) : ℕ := info.machineRamBase + info.machineRamTotal

/-- No address computation of `mm_init` leaves the address space. -/
structure WellFormed (info : BootInfo) : Prop where
  image_pos : 0 < info.kernelImageStart
  image_le : info.kernelImageStart ≤ info.earlyHeapEnd
  heap_room : info.earlyHeapEnd + pageSize < 2 ^ 64
  room : info.kernelImageStart + info.frames * pageSize + pageSize ≤ 2 ^ 64

variable {info : BootInfo}

theorem WellFormed.reserved_eq (hw : info.WellFormed) :
    info.reserved = (info.earlyHeapEnd - info.kernelImageStart + 4095) / 4096 := by
  have hle := hw.image_le
  have hroom := hw.heap_room
  unfold pageSize at hroom
  unfold reserved
  rw [sub64_of_le hle (by omega), alignUp_page (by omega)]
  unfold pageSize
  omega

/-- The reserved frames cover the image and the boot heap. -/
theorem WellFormed.reserved_covers (hw : info.WellFormed) :
    info.earlyHeapEnd ≤ info.kernelImageStart + info.reserved * pageSize := by
  have hle := hw.image_le
  rw [hw.reserved_eq]
  unfold pageSize
  omega

end BootInfo

variable {info : BootInfo} {mem : Bytes} {cacheAt : ℕ → SlabCache} {h : Heap}

/-- After the region calls exactly the reserved frames are used. -/
theorem mmInitFrames_spec (hw : info.WellFormed) {p : Pmm} (hp : mmInitFrames info mem = some p) :
    p.memPhysBase = info.kernelImageStart ∧ p.totalFrames = info.frames ∧ p.lastFreeIndex = 0 ∧
      (∀ j < info.frames, p.used j = decide (j < info.reserved)) ∧
      (info.reserved ≤ info.frames → ∃ slack, PmmInv slack p) := by
  have hroom := hw.room
  unfold mmInitFrames at hp
  cases hinit : pmmInit Pmm.boot (mmBootInit info) mem info.kernelImageStart
      info.machineRamTotal with
  | none => simp [hinit] at hp
  | some r =>
      obtain ⟨q, b⟩ := r
      simp only [hinit, Option.some.injEq] at hp
      obtain ⟨hbase, htotal, _, hlast, _⟩ := pmmInit_fields hinit
      have hq := pmmInit_inv rfl (by
        unfold BootInfo.frames pageSize at hroom
        unfold pageSize
        omega) hinit
      have hindex : ∀ s : Pmm, s.memPhysBase = info.kernelImageStart →
          s.frameIndex info.kernelImageStart = 0 := by
        intro s hs
        unfold BootInfo.frames pageSize at hroom
        rw [PmmInv.frameIndex_eq (by rw [hs]) (by omega), hs, Nat.sub_self, Nat.zero_div]
      have hfreed : pmmFreeRegion q info.kernelImageStart info.machineRamTotal =
          forFrames freeBit q 0 info.frames := by
        unfold pmmFreeRegion
        rw [hindex q hbase]
        rfl
      have hrange := forFrames_sameRange freeBit_sameRange q 0 info.frames
      have hreserved : p = forFrames reserveBit (forFrames freeBit q 0 info.frames) 0
          info.reserved := by
        rw [← hp, hfreed]
        unfold pmmReserveRegion
        rw [hindex _ (hrange.1.trans hbase)]
        rfl
      have hrange' := forFrames_sameRange reserveBit_sameRange
        (forFrames freeBit q 0 info.frames) 0 info.reserved
      rw [← hreserved] at hrange'
      refine ⟨hrange'.1.trans (hrange.1.trans hbase), hrange'.2.trans (hrange.2.trans htotal),
        ?_, ?_, ?_⟩
      · rw [hreserved, forFrames_lastFreeIndex reserveBit_lastFreeIndex,
          forFrames_lastFreeIndex freeBit_lastFreeIndex, hlast]
        rfl
      · intro j hj
        rw [hreserved, forFrames_reserveBit_used, forFrames_freeBit_used]
        simp [hj]
      · intro hle
        refine ⟨q.totalFrames - q.clearFrames.card, ?_⟩
        rw [hreserved]
        refine PmmInv.forFrames reserveBit_sameRange (fun _ _ hs hb => hs.reserveBit hb)
          (PmmInv.forFrames freeBit_sameRange (fun _ _ hs hb => hs.freeBit hb) hq ?_) ?_
        · rw [htotal, Nat.zero_add]
          exact le_refl _
        · rw [hrange.2, htotal, Nat.zero_add]
          exact hle

/-- The frames as `mm_init` leaves them. -/
structure MmFrames (info : BootInfo) (p : Pmm) : Prop where
  inv : ∃ slack, PmmInv slack p
  base : p.memPhysBase = info.kernelImageStart
  total : p.totalFrames = info.frames
  reserved_used : ∀ j < info.reserved, p.used j = true

/-- `mm_init` does not return when the reserved frames fill the range. -/
theorem mmInit_reserved_le (hw : info.WellFormed) (hinit : mmInit info mem cacheAt = some h) :
    info.reserved ≤ info.frames := by
  unfold mmInit at hinit
  cases hp : mmInitFrames info mem with
  | none => simp [hp] at hinit
  | some p =>
      simp only [hp] at hinit
      obtain ⟨_, htotal, hlast, hused, _⟩ := mmInitFrames_spec hw hp
      by_contra hgt
      have hfull : kheapInit (Heap.boot mem cacheAt p) = none := kheapInit_full
        (by rw [hlast]; exact Nat.zero_le _) (by
          intro j hj
          rw [htotal] at hj
          rw [hused j hj]
          exact decide_eq_true (by omega))
      rw [hfull] at hinit
      cases hinit

theorem mmInit_frames (hw : info.WellFormed) (hinit : mmInit info mem cacheAt = some h) :
    MmFrames info h.pmm := by
  have hroom := hw.room
  have hpos := hw.image_pos
  have hle := mmInit_reserved_le hw hinit
  unfold mmInit at hinit
  cases hp : mmInitFrames info mem with
  | none => simp [hp] at hinit
  | some p =>
      simp only [hp] at hinit
      obtain ⟨hbase, htotal, _, hused, hinv⟩ := mmInitFrames_spec hw hp
      obtain ⟨slack, hpi⟩ := hinv hle
      obtain ⟨hrange, o, hheap⟩ := kheapInit_heapInv hpi (by rw [hbase]; exact hpos)
        (by rw [hbase, htotal]; exact hroom) hinit
      refine ⟨⟨slack, hheap.caches.pmm⟩, hrange.1.trans hbase, hrange.2.trans htotal, ?_⟩
      intro j hj
      have hj' : j < h.pmm.totalFrames := by
        rw [hrange.2, htotal]
        omega
      have hpj : p.used j = true := by
        rw [hused j (by omega)]
        exact decide_eq_true hj
      exact hheap.caches.used_of_own hj' ((hheap.reserved_iff j hj').mpr hpj)

/-- Every frame that a client of the allocator is given lies behind the
reserved frames and inside the managed range. -/
theorem MmFrames.client {p t : Pmm} (hw : info.WellFormed) (hm : MmFrames info p)
    {es : List (PmmOp × ℕ)} (hes : ClientOps es) (hrun : Run PmmStep p es t) {a : ℕ}
    (ha : (PmmOp.allocFrame, a) ∈ es) (hne : a ≠ 0) :
    ∃ i, info.reserved ≤ i ∧ i < info.frames ∧ a = info.kernelImageStart + i * pageSize := by
  obtain ⟨slack, hp⟩ := hm.inv
  obtain ⟨i, hlo, hhi, rfl⟩ := (run_client hp (by rw [hm.base]; exact hw.image_pos)
    hm.reserved_used hes hrun).2 a ha hne
  exact ⟨i, hlo, by rw [← hm.total]; exact hhi, by rw [hm.base]⟩

/-- Every frame that is returned at all lies in the managed range. -/
theorem MmFrames.returned {p t : Pmm} (hm : MmFrames info p) {es : List (PmmOp × ℕ)}
    (hrun : Run PmmStep p es t) {a : ℕ} (ha : (PmmOp.allocFrame, a) ∈ es) (hne : a ≠ 0) :
    ∃ i < info.frames, a = info.kernelImageStart + i * pageSize := by
  obtain ⟨slack, hp⟩ := hm.inv
  obtain ⟨pre, post, rfl⟩ := List.append_of_mem ha
  obtain ⟨u, hpre, hpost⟩ := hrun.of_append
  obtain ⟨hu, hrange⟩ := run_pmmInv hpre hp
  cases hpost with
  | cons hstep _ =>
      rcases hu.allocFrame_some hstep.2 with ⟨hzero, _, _⟩ | ⟨i, hi, _, hai, _⟩
      · exact absurd hzero hne
      · refine ⟨i, by rw [← hm.total, ← hrange.2]; exact hi, ?_⟩
        rw [← hm.base, ← hrange.1, ← hu.frameAddr_eq hi]
        exact hai

/-- `mm_init` returns when enough frames are free, and leaves one of any
nine free frames free. -/
theorem mmInit_isSome (hw : info.WellFormed) {p : Pmm} (hp : mmInitFrames info mem = some p)
    (hle : info.reserved ≤ info.frames) (cacheAt : ℕ → SlabCache) {S : Finset ℕ}
    (hS : ∀ j ∈ S, info.reserved ≤ j ∧ j < info.frames) (hcard : numSlabBuckets < S.card) :
    ∃ h, mmInit info mem cacheAt = some h ∧ MmFrames info h.pmm ∧
      ∃ j ∈ S, h.pmm.used j = false := by
  obtain ⟨hbase, htotal, _, hused, hinv⟩ := mmInitFrames_spec hw hp
  obtain ⟨slack, hpi⟩ := hinv hle
  obtain ⟨h, hheap, _, _, hclear⟩ := kheapInit_isSome mem cacheAt hpi
    (by rw [hbase]; exact hw.image_pos) (by rw [hbase, htotal]; exact hw.room) (S := S) (by
      intro j hj
      obtain ⟨hlo, hhi⟩ := hS j hj
      rw [htotal, hused j hhi]
      exact ⟨hhi, decide_eq_false (by omega)⟩) hcard
  have hinit : mmInit info mem cacheAt = some h := by
    unfold mmInit
    rw [hp]
    exact hheap
  exact ⟨h, hinit, mmInit_frames hw hinit, hclear⟩

end Vectra

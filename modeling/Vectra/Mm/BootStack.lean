import Vectra.Mm.Init

/-!
# The memory in use when `mm_init` runs

The linker script puts the boot heap behind the image, and `mm_init`
reserves both. The boot stack is placed by `entry.S` at a fixed address,
and nothing reserves it.
-/

namespace Vectra

open Lib

/-- The machines the boot code is written for. `entry.S` of arm64 gives its
stack no size; `stackSize` is the part of it that is in use. -/
inductive BootTarget
  | riscv (hartid : ℕ)
  | arm64Virt (stackSize : ℕ)
  | arm64Opi (stackSize : ℕ)

namespace BootTarget

/-- `__text_start` of the linker scripts. -/
def textStart : BootTarget → ℕ
  | riscv _ => 0x80200000
  | arm64Virt _ => 0x40080000
  | arm64Opi _ => 0x00200000

def cpuGetMembase : BootTarget → ℕ
  | riscv _ => 0x80000000
  | arm64Virt _ => 0x40080000
  | arm64Opi _ => 0x00200000

/-- `MACHINE_RAM_SIZE`. -/
def cpuGetMemsize (_ : BootTarget) : ℕ := 0x8000000

/-- The stack pointer that `master_core` sets. The name under which
`entry.S` of arm64 asks for another address is never defined. -/
def stackTop : BootTarget → ℕ
  | riscv hartid => (0x82000000 + hartid * 65536) % 2 ^ 64
  | arm64Virt _ | arm64Opi _ => 0x47F00000

def stackSize : BootTarget → ℕ
  | riscv _ => 65536
  | arm64Virt size | arm64Opi size => size

/-- What `boot_main` writes into `early_info`; the heap and the end of the
read-only data are symbols of the linker. -/
def earlyInfo (target : BootTarget) (heapStart heapEnd rodataEnd : ℕ) : BootInfo where
  earlyHeapStart := heapStart
  earlyHeapEnd := heapEnd
  kernelImageStart := target.textStart
  kernelReadonlyEnd := rodataEnd
  machineRamBase := target.cpuGetMembase
  machineRamTotal := target.cpuGetMemsize

/-- The order in which the linker scripts place the heap. -/
structure Linked (target : BootTarget) (heapStart heapEnd : ℕ) : Prop where
  image_le : target.textStart ≤ heapStart
  heap_le : heapStart ≤ heapEnd
  heap_room : heapEnd + pageSize < 2 ^ 64

/-- The image with its data, the boot heap, and the boot stack. -/
def InUse (target : BootTarget) (heapStart heapEnd x : ℕ) : Prop :=
  (target.textStart ≤ x ∧ x < heapStart) ∨ (heapStart ≤ x ∧ x < heapEnd) ∨
    (target.stackTop - target.stackSize ≤ x ∧ x < target.stackTop)

/-- The boot stack lies below the end of the reserved frames or above the
managed range. -/
def StackClear (target : BootTarget) (heapStart heapEnd rodataEnd : ℕ) : Prop :=
  let info := target.earlyInfo heapStart heapEnd rodataEnd
  target.stackTop ≤ target.textStart + info.reserved * pageSize ∨
    target.textStart + info.frames * pageSize ≤ target.stackTop - target.stackSize

variable {target : BootTarget} {heapStart heapEnd rodataEnd : ℕ}

theorem textStart_bounds (target : BootTarget) :
    0 < target.textStart ∧ target.textStart ≤ 0x80200000 := by
  cases target <;> simp [textStart]

theorem wellFormed (hl : target.Linked heapStart heapEnd) :
    (target.earlyInfo heapStart heapEnd rodataEnd).WellFormed where
  image_pos := target.textStart_bounds.1
  image_le := hl.image_le.trans hl.heap_le
  heap_room := hl.heap_room
  room := by
    have hbounds := target.textStart_bounds
    change target.textStart + 0x8000000 / pageSize * pageSize + pageSize ≤ 2 ^ 64
    unfold pageSize
    omega

end BootTarget

/-- No frame that a client is given after `mm_init` meets the memory in use
at boot, provided that the boot stack is clear of the frames left free. -/
theorem boot_frames_clear_of_memory_in_use {target : BootTarget}
    {heapStart heapEnd rodataEnd : ℕ} {mem : Bytes} {cacheAt : ℕ → SlabCache} {h : Heap}
    {es : List (PmmOp × ℕ)} {t : Pmm} {a x : ℕ} (hlinked : target.Linked heapStart heapEnd)
    (hstack : target.StackClear heapStart heapEnd rodataEnd)
    (hinit : mmInit (target.earlyInfo heapStart heapEnd rodataEnd) mem cacheAt = some h)
    (hrun : Run PmmStep h.pmm es t) (hes : ClientOps es) (ha : (PmmOp.allocFrame, a) ∈ es)
    (hne : a ≠ 0) (hlo : a ≤ x) (hhi : x < a + pageSize) :
    ¬ target.InUse heapStart heapEnd x := by
  have hw : (target.earlyInfo heapStart heapEnd rodataEnd).WellFormed :=
    BootTarget.wellFormed hlinked
  obtain ⟨i, hres, hlt, rfl⟩ := (mmInit_frames hw hinit).client hw hes hrun ha hne
  have hcover := hw.reserved_covers
  obtain ⟨himage, hheap, _⟩ := hlinked
  change target.textStart + i * pageSize ≤ x at hlo
  change x < target.textStart + i * pageSize + pageSize at hhi
  change heapEnd ≤ target.textStart + _ * pageSize at hcover
  unfold BootTarget.StackClear at hstack
  unfold pageSize at *
  rintro (⟨_, huse⟩ | ⟨_, huse⟩ | ⟨hbottom, htop⟩)
  · omega
  · omega
  · rcases hstack with hbelow | habove
    · omega
    · omega

/-- `mm_init` returns on a machine whose boot heap holds the bitmap. -/
theorem mmInitFrames_isSome {info : BootInfo} {mem : Bytes} {p : ℕ} {b : BootHeap}
    (hboot : mmBootAlloc (mmBootInit info) (pmmBitmapSize info.machineRamTotal) = some (p, b))
    (hne : p ≠ 0) : ∃ q, mmInitFrames info mem = some q := by
  unfold mmInitFrames pmmInit
  simp only [hboot, hne, if_false]
  exact ⟨_, rfl⟩

/-- The boot heap of 4 MB of the linker scripts, behind an image of `size` bytes. -/
def earlyHeap (target : BootTarget) (size : ℕ) : ℕ × ℕ :=
  (target.textStart + size, target.textStart + size + 0x400000)

section EarlyHeap

variable {size : ℕ}

theorem earlyHeap_linked (target : BootTarget) (hsize : size ≤ 0x2000000) :
    target.Linked (earlyHeap target size).1 (earlyHeap target size).2 := by
  refine ⟨?_, ?_, ?_⟩
  · exact Nat.le_add_right _ _
  · exact Nat.le_add_right _ _
  · have hbounds := target.textStart_bounds
    change target.textStart + size + 0x400000 + pageSize < 2 ^ 64
    unfold pageSize
    omega

theorem earlyHeap_reserved (target : BootTarget) (rodataEnd : ℕ) (hsize : size ≤ 0x2000000) :
    (target.earlyInfo (earlyHeap target size).1 (earlyHeap target size).2 rodataEnd).reserved =
        (size + 0x400000 + 4095) / 4096 ∧
      (target.earlyInfo (earlyHeap target size).1 (earlyHeap target size).2 rodataEnd).frames =
        0x8000 := by
  have hw : (target.earlyInfo (earlyHeap target size).1 (earlyHeap target size).2
      rodataEnd).WellFormed := BootTarget.wellFormed (earlyHeap_linked target hsize)
  refine ⟨?_, ?_⟩
  · rw [hw.reserved_eq]
    change (target.textStart + size + 0x400000 - target.textStart + 4095) / 4096 = _
    congr 1
    omega
  · change 0x8000000 / pageSize = 0x8000
    decide

theorem earlyHeap_bootAlloc (target : BootTarget) (rodataEnd : ℕ) (hsize : size ≤ 0x2000000) :
    ∃ b, mmBootAlloc (mmBootInit
      (target.earlyInfo (earlyHeap target size).1 (earlyHeap target size).2 rodataEnd))
        (pmmBitmapSize 0x8000000) = some (target.textStart + size, b) := by
  have hbounds := target.textStart_bounds
  have halign : alignUp (pmmBitmapSize 0x8000000) 16 = 4096 := by decide +kernel
  have hroom : ¬ target.textStart + size + 0x400000 < (target.textStart + size + 4096) % 2 ^ 64 := by
    omega
  have hne : ¬ target.textStart + size = 0 := by omega
  change ∃ b, mmBootAlloc ⟨target.textStart + size, target.textStart + size + 0x400000⟩ _ = _
  unfold mmBootAlloc
  simp only [halign, hne, hroom, if_false]
  exact ⟨_, rfl⟩

/-- On each machine one of any nine frames behind the boot heap is handed
out by some run after `mm_init`. -/
theorem boot_run_reaches (target : BootTarget) (rodataEnd : ℕ) (mem : Bytes)
    (cacheAt : ℕ → SlabCache) (hsize : size ≤ 0x2000000) {lo n : ℕ}
    (hlo : (size + 0x400000 + 4095) / 4096 ≤ lo) (hhi : lo + n ≤ 0x8000)
    (hn : numSlabBuckets < n) :
    ∃ h es t i, mmInit (target.earlyInfo (earlyHeap target size).1 (earlyHeap target size).2
        rodataEnd) mem cacheAt = some h ∧ Run PmmStep h.pmm es t ∧ ClientOps es ∧ lo ≤ i ∧
      i < lo + n ∧ (PmmOp.allocFrame, target.textStart + i * pageSize) ∈ es := by
  have hw : (target.earlyInfo (earlyHeap target size).1 (earlyHeap target size).2
      rodataEnd).WellFormed := BootTarget.wellFormed (earlyHeap_linked target hsize)
  obtain ⟨hres, hframes⟩ := earlyHeap_reserved target rodataEnd hsize
  obtain ⟨q, hq⟩ : ∃ q, mmInitFrames (target.earlyInfo (earlyHeap target size).1
      (earlyHeap target size).2 rodataEnd) mem = some q := by
    have hbounds := target.textStart_bounds
    obtain ⟨b, hb⟩ := earlyHeap_bootAlloc target rodataEnd hsize
    exact mmInitFrames_isSome hb (by omega)
  obtain ⟨h, hinit, hm, i, hi, hclear⟩ := mmInit_isSome hw hq (by rw [hres, hframes]; omega)
    cacheAt (S := Finset.Ico lo (lo + n)) (by
      intro j hj
      obtain ⟨hjlo, hjhi⟩ := Finset.mem_Ico.mp hj
      rw [hres, hframes]
      omega) (by
      rw [Nat.card_Ico]
      omega)
  obtain ⟨hilo, hihi⟩ := Finset.mem_Ico.mp hi
  obtain ⟨slack, hp⟩ := hm.inv
  obtain ⟨es, t, hrun, hes, hmem⟩ := alloc_reaches hp (j := i)
    (by rw [hm.total, hframes]; omega) hclear
  rw [hm.base] at hmem
  exact ⟨h, es, t, i, hinit, hrun, hes, hilo, hihi, hmem⟩

end EarlyHeap

/-- On RISC-V an image of 26 MB ends, with its boot heap, at the top of the stack of hart 0. -/
theorem boot_frames_clear_behind_stack :
    ∃ h es t a, mmInit ((BootTarget.riscv 0).earlyInfo 0x81C00000 0x82000000 0x80205000)
        (fun _ => 0#8) (fun _ => ⟨0, 0, 0⟩) = some h ∧ Run PmmStep h.pmm es t ∧
      (PmmOp.allocFrame, a) ∈ es ∧ ¬ (BootTarget.riscv 0).InUse 0x81C00000 0x82000000 a := by
  obtain ⟨h, es, t, i, hinit, hrun, hes, hlo, _, hmem⟩ := boot_run_reaches (.riscv 0)
    0x80205000 (fun _ => 0#8) (fun _ => ⟨0, 0, 0⟩) (by decide : 0x1A00000 ≤ 0x2000000)
    (by decide : (0x1A00000 + 0x400000 + 4095) / 4096 ≤ 0x1E00)
    (by decide : 0x1E00 + 9 ≤ 0x8000) (by decide)
  have hpos : 0x80200000 + i * pageSize ≠ 0 := by omega
  have hlinked : (BootTarget.riscv 0).Linked 0x81C00000 0x82000000 :=
    earlyHeap_linked (.riscv 0) (by decide : 0x1A00000 ≤ 0x2000000)
  exact ⟨h, es, t, _, hinit, hrun, hmem,
    boot_frames_clear_of_memory_in_use hlinked
      (Or.inl (by decide)) hinit hrun hes hmem hpos (le_refl _) (by unfold pageSize; omega)⟩

/-- On RISC-V the stack of hart 0 is handed out. -/
theorem boot_stack_handed_out :
    ∃ h es t a, mmInit ((BootTarget.riscv 0).earlyInfo 0x80210000 0x80610000 0x80205000)
        (fun _ => 0#8) (fun _ => ⟨0, 0, 0⟩) = some h ∧ Run PmmStep h.pmm es t ∧ ClientOps es ∧
      (PmmOp.allocFrame, a) ∈ es ∧ (BootTarget.riscv 0).InUse 0x80210000 0x80610000 a := by
  obtain ⟨h, es, t, i, hinit, hrun, hes, hlo, hhi, hmem⟩ := boot_run_reaches (.riscv 0)
    0x80205000 (fun _ => 0#8) (fun _ => ⟨0, 0, 0⟩) (by decide : 0x10000 ≤ 0x2000000)
    (by decide : (0x10000 + 0x400000 + 4095) / 4096 ≤ 0x1df0)
    (by decide : 0x1df0 + 16 ≤ 0x8000) (by decide)
  refine ⟨h, es, t, _, hinit, hrun, hes, hmem, Or.inr (Or.inr ⟨?_, ?_⟩)⟩
  · change 0x82000000 - 65536 ≤ 0x80200000 + i * pageSize
    unfold pageSize
    omega
  · change 0x80200000 + i * pageSize < 0x82000000
    unfold pageSize
    omega

end Vectra

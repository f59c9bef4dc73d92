import Vectra.Mm.BootStack
import Vectra.Riscv.VmmInit

/-!
# The kernel's identity map

`vmm_init` maps each page from the end of the read-only image to the end of
the RAM to itself. The frames of the allocator are counted from the image,
so the two ranges agree only when the image leaves room for them.
-/

namespace Vectra

open Lib

/-- The kernel can use `x` through `PHYS_TO_VIRT`: the page table maps it to
itself, with a writable entry, below the addresses that Sv39 extends by sign. -/
def MappedSelf (p : Pmm) (m : Bytes) (pageTable x : ℕ) : Prop :=
  x < 2 ^ 38 ∧
    (∃ pte, vmmWalk p m pageTable x false = some (some pte, p, m) ∧
      readLE m pte 8 &&& (pteV ||| pteR ||| pteW) = pteV ||| pteR ||| pteW) ∧
    vmmVirtToPhys p m pageTable x = x

/-- A page whose leaf holds its own address and is writable is mapped to itself. -/
theorem mappedSelf {p : Pmm} {m : Bytes} {root a x flags : ℕ} (ha : a % pageSize = 0) (hlo : a ≤ x)
    (hhi : x < a + 4096) (hlt : a + 4096 ≤ 2 ^ 38) (hflags : flags < 1024)
    (hwrite : (pteV ||| flags) &&& (pteV ||| pteR ||| pteW) = pteV ||| pteR ||| pteW)
    (hleaf : vmmLeaf p m root x = some (leafEntry a flags)) : MappedSelf p m root x := by
  have ha64 : a < 2 ^ 64 := by omega
  refine ⟨by omega, ?_, kernelPage_spec ha ha64 hlo hhi hflags hleaf⟩
  unfold vmmLeaf at hleaf
  rw [vmmWalk_find] at hleaf ⊢
  cases ht : pageTableAt m root (vpnPath x) with
  | none => simp [ht] at hleaf
  | some t =>
      simp only [ht, Option.map_some] at hleaf
      refine ⟨_, rfl, ?_⟩
      unfold pteLeaf at hleaf
      split at hleaf
      · cases hleaf
      · rw [Option.some.inj hleaf, leafEntry_and ha64 hflags (by decide), hwrite]

namespace BootInfo

/-- The order of the addresses that the boot code fills in. -/
structure Shape (info : BootInfo) : Prop where
  base_le : info.machineRamBase ≤ info.kernelImageStart
  image_le : info.kernelImageStart ≤ info.earlyHeapEnd
  heap_le : info.earlyHeapEnd ≤ info.ramEnd

/-- The frames, counted from the image, end inside the RAM. -/
structure FitsRam (info : BootInfo) : Prop where
  image_pos : 0 < info.kernelImageStart
  frames_le : info.kernelImageStart + info.frames * pageSize ≤ info.ramEnd
  room : info.ramEnd + pageSize < 2 ^ 64

/-- The linker places the root table and the read-only image into reserved
frames, and the RAM lies in the lower half of the Sv39 addresses. -/
structure FitsPaging (info : BootInfo) (kernelPageTable : ℕ) : Prop where
  image_aligned : info.kernelImageStart % pageSize = 0
  readonly_le : info.kernelReadonlyEnd ≤ info.kernelImageStart + info.reserved * pageSize
  ram_le : info.ramEnd ≤ 2 ^ 38
  root_aligned : kernelPageTable % pageSize = 0
  root_ge : info.kernelImageStart ≤ kernelPageTable
  root_le : kernelPageTable + pageSize ≤ info.kernelImageStart + info.reserved * pageSize

variable {info : BootInfo}

theorem Shape.wellFormed (hs : info.Shape) (hf : info.FitsRam) : info.WellFormed where
  image_pos := hf.image_pos
  image_le := hs.image_le
  heap_room := by
    have hle := hs.heap_le
    have hroom := hf.room
    omega
  room := by
    have hle := hf.frames_le
    have hroom := hf.room
    omega

end BootInfo

variable {info : BootInfo} {p p' t : Pmm} {m m' : Bytes} {root : ℕ} {es : List (PmmOp × ℕ)}

theorem MmFrames.run (hm : MmFrames info p) (hpos : 0 < info.kernelImageStart)
    (hes : ClientOps es) (hrun : Run PmmStep p es t) : MmFrames info t := by
  obtain ⟨slack, hp⟩ := hm.inv
  obtain ⟨ht, hrange⟩ := run_pmmInv hrun hp
  obtain ⟨hkeep, _⟩ := run_client hp (by rw [hm.base]; exact hpos) hm.reserved_used hes hrun
  exact ⟨⟨slack, ht⟩, hrange.1.trans hm.base, hrange.2.trans hm.total, hkeep⟩

/-- `vmm_init` keeps the allocator's frames and maps all that are not reserved. -/
theorem vmmInit_spec (hm : MmFrames info p) (hf : info.FitsRam) (hg : info.FitsPaging root)
    (hle : info.reserved ≤ info.frames) {n : ℕ}
    (hinit : vmmInit info root p m n = .returned (p', m')) :
    MmFrames info p' ∧ ∀ i x, info.reserved ≤ i → i < info.frames →
      info.kernelImageStart + i * pageSize ≤ x →
      x < info.kernelImageStart + i * pageSize + pageSize → MappedSelf p' m' root x := by
  obtain ⟨slack, hp⟩ := hm.inv
  have hframes := hf.frames_le
  obtain ⟨halign, hro, hram, hrootAlign, hrootGe, hrootLe⟩ := hg
  have hbase : p.memPhysBase % pageSize = 0 := by rw [hm.base]; exact halign
  -- the root table lies in a reserved frame
  have htaken : ∀ f < p.totalFrames, p.used f = false → p.frameAddr f ≠ root := by
    intro f hf hclear heq
    rw [hp.frameAddr_eq hf, hm.base] at heq
    have hreserved := hm.reserved_used f (by unfold pageSize at *; omega)
    rw [hclear] at hreserved
    cases hreserved
  obtain ⟨h, hg, hread, _, L₁, L₂, _, hdata, huart⟩ := vmmInit_leaves hp hbase hrootAlign
    (by unfold pageSize at *; omega) htaken halign (by unfold pageSize at *; omega) hinit
  refine ⟨⟨⟨slack, h.pmm⟩, hg.1.1.trans hm.base, hg.1.2.trans hm.total,
    fun j hj => hg.2 j (hm.reserved_used j hj)⟩, ?_⟩
  intro i x hlo hhi hxlo hxhi
  have hstop : info.ramStop = info.ramEnd := by
    unfold BootInfo.ramStop BootInfo.ramEnd at *
    omega
  rw [hstop, alignUp_page hread] at hdata
  unfold pageSize at *
  have hbits : ∀ a b : ℕ, a % 4096 = 0 → a < 2 ^ 38 → b < 2 ^ 38 → pageBits a = pageBits b →
      a ≤ b ∧ b < a + 4096 := by
    intro a b ha hlta hltb heq
    unfold pageBits at heq
    omega
  rcases huart x with ⟨u, ⟨hu, hulo, huhi⟩, heq, hleaf⟩ | ⟨_, hleaf⟩
  · obtain ⟨hux, hxu⟩ := hbits u x hu (by omega) (by omega) heq
    exact mappedSelf hu hux hxu (by omega) (by decide) (by decide) hleaf
  · rcases hdata x with ⟨a, ⟨ha, halo, hahi⟩, heq, hleaf'⟩ | ⟨hnone, _⟩
    · obtain ⟨hax, hxa⟩ := hbits a x ha (by omega) (by omega) heq
      rw [hleaf'] at hleaf
      unfold pageSize at ha
      exact mappedSelf ha hax hxa (by omega) (by decide) (by decide) hleaf
    · exfalso
      refine hnone (info.kernelImageStart + i * 4096) ⟨?_, by omega, by omega⟩ ?_
      · unfold pageSize
        omega
      · unfold pageBits
        omega

/-- Where the frames fit into the RAM, every frame that is ever returned lies
in it, and a client's frames are mapped by `vmm_init`. -/
theorem boot_frames_in_ram_and_mapped {mem : Bytes} {cacheAt : ℕ → SlabCache} {h : Heap}
    (hs : info.Shape) (hf : info.FitsRam) (hinit : mmInit info mem cacheAt = some h) :
    (∀ es t a, Run PmmStep h.pmm es t → (PmmOp.allocFrame, a) ∈ es → a ≠ 0 →
      info.machineRamBase ≤ a ∧ a + pageSize ≤ info.ramEnd) ∧
    ∀ root es p m n p' m' es' t a x, info.FitsPaging root → Run PmmStep h.pmm es p →
      vmmInit info root p m n = .returned (p', m') → Run PmmStep p' es' t → ClientOps (es ++ es') →
      (PmmOp.allocFrame, a) ∈ es ++ es' → a ≠ 0 → a ≤ x → x < a + pageSize →
      MappedSelf p' m' root x := by
  have hw := hs.wellFormed hf
  have hm := mmInit_frames hw hinit
  refine ⟨?_, ?_⟩
  · intro es t a hrun ha hne
    obtain ⟨i, hi, rfl⟩ := hm.returned hrun ha hne
    have hle := hf.frames_le
    have hbase := hs.base_le
    unfold pageSize at *
    omega
  · intro root es p m n p' m' es' t a x hg hrun hvmm hrun' hes ha hne hlo hhi
    have hpos := hf.image_pos
    have hpm := hm.run hpos hes.of_append hrun
    obtain ⟨slack, hp⟩ := hm.inv
    obtain ⟨hpm', hmapped⟩ := vmmInit_spec hpm hf hg (mmInit_reserved_le hw hinit) hvmm
    obtain ⟨slack', hp'⟩ := hpm'.inv
    have hbefore := (run_client hp (by rw [hm.base]; exact hpos) hm.reserved_used
      hes.of_append hrun).2
    rw [hm.base, hm.total, ← hpm'.base, ← hpm'.total] at hbefore
    obtain ⟨i, hres, hi, rfl⟩ := (run_client_after hp' (by rw [hpm'.base]; exact hpos)
      hpm'.reserved_used _ hbefore hes hrun').2 a ha hne
    rw [hpm'.base] at hlo hhi
    rw [hpm'.total] at hi
    exact hmapped i x hres hi hlo hhi

theorem boot_frames_in_ram_and_mapped_small :
    ∃ h p m a t, mmInit smallBoot (fun _ => 0#8) (fun _ => ⟨0, 0, 0⟩) = some h ∧
      vmmInit smallBoot 0x80001000 h.pmm h.mem 32 = .returned (p, m) ∧
      pmmAllocFrame p = some (a, t) ∧ a + pageSize ≤ smallBoot.ramEnd ∧
      MappedSelf p m 0x80001000 a := by
  have hall : ((mmInit smallBoot (fun _ => 0#8) (fun _ => ⟨0, 0, 0⟩)).bind fun h =>
      (vmmInit smallBoot 0x80001000 h.pmm h.mem 32).result.bind fun r =>
        (pmmAllocFrame r.1).map Prod.fst) = some 0x80009000 := by decide +kernel
  obtain ⟨h, hinit, hrest⟩ := Option.bind_eq_some_iff.mp hall
  obtain ⟨⟨p, m⟩, hvmm, hlast⟩ := Option.bind_eq_some_iff.mp hrest
  obtain ⟨⟨a, t⟩, halloc, ha⟩ := Option.map_eq_some_iff.mp hlast
  rw [Outcome.result_eq_some] at hvmm
  have hshape : smallBoot.Shape := ⟨by decide, by decide, by decide⟩
  have hram : smallBoot.FitsRam := ⟨by decide, by decide, by decide⟩
  have hpaging : smallBoot.FitsPaging 0x80001000 :=
    ⟨by decide, by decide, by decide, by decide, by decide, by decide⟩
  have hne : a ≠ 0 := by
    intro hzero
    rw [hzero] at ha
    cases ha
  have hrun : Run PmmStep p [(.allocFrame, a)] t := .cons ⟨trivial, halloc⟩ (.nil t)
  have hmem : (PmmOp.allocFrame, a) ∈ [(PmmOp.allocFrame, a)] := List.mem_singleton_self _
  have hclient : ClientOps ([] ++ [(PmmOp.allocFrame, a)]) := by
    intro pre e post heq
    have he : e ∈ [(PmmOp.allocFrame, a)] := by
      rw [show [(PmmOp.allocFrame, a)] = pre ++ e :: post from heq]
      simp
    rw [List.mem_singleton.mp he]
    exact Or.inl rfl
  obtain ⟨_, hmapped⟩ := boot_frames_in_ram_and_mapped hshape hram hinit
  have hself := hmapped _ [] _ _ _ _ _ _ _ a a hpaging (.nil _) hvmm hrun hclient hmem hne
    (le_refl a) (by unfold pageSize; omega)
  refine ⟨h, p, m, a, t, hinit, hvmm, halloc, ?_, hself⟩
  have haddr : a = 0x80009000 := ha
  rw [haddr]
  decide

/-- On RISC-V the image starts 2 MB behind the RAM, and the last 512 frames of
the allocator lie outside of it. -/
theorem boot_frame_behind_ram :
    ∃ h es t a, ((BootTarget.riscv 0).earlyInfo 0x80210000 0x80610000 0x80205000).Shape ∧
      mmInit ((BootTarget.riscv 0).earlyInfo 0x80210000 0x80610000 0x80205000)
        (fun _ => 0#8) (fun _ => ⟨0, 0, 0⟩) = some h ∧
      Run PmmStep h.pmm es t ∧ ClientOps es ∧ (PmmOp.allocFrame, a) ∈ es ∧ a ≠ 0 ∧
      ((BootTarget.riscv 0).earlyInfo 0x80210000 0x80610000 0x80205000).ramEnd ≤ a := by
  obtain ⟨h, es, t, i, hinit, hrun, hes, hlo, _, hmem⟩ := boot_run_reaches (.riscv 0)
    0x80205000 (fun _ => 0#8) (fun _ => ⟨0, 0, 0⟩) (by decide : 0x10000 ≤ 0x2000000)
    (by decide : (0x10000 + 0x400000 + 4095) / 4096 ≤ 0x7e00)
    (by decide : 0x7e00 + 512 ≤ 0x8000) (by decide)
  refine ⟨h, es, t, _, ⟨by decide, by decide, by decide⟩, hinit, hrun, hes, hmem, ?_, ?_⟩
  · change 0x80200000 + i * pageSize ≠ 0
    omega
  · change 0x88000000 ≤ 0x80200000 + i * pageSize
    unfold pageSize
    omega

end Vectra

import Vectra.Mm.Init
import Vectra.Riscv.TableRoom

/-!
# The mapping loops of `vmm_init`

Three loops map pages to themselves: the read-only image, the rest of the
RAM, and the UART. A later loop wins where two pages agree in bits 38..12.
The loops return if there are frames for their tables, unless the RAM ends in
the last page of the address space: there the address wraps before the bound
is reached.
-/

namespace Vectra

open Lib

/-- The pages that a mapping loop goes through. -/
def LoopPage (addr stop a : ℕ) : Prop := a % pageSize = 0 ∧ addr ≤ a ∧ a < stop

/-- The leaves `L'` after a mapping loop over the leaves `L`. -/
def LoopMaps (addr stop flags : ℕ) (L L' : ℕ → Option ℕ) : Prop :=
  ∀ va, (∃ a, LoopPage addr stop a ∧ pageBits a = pageBits va ∧
      L' va = some (leafEntry a flags)) ∨
    ((∀ a, LoopPage addr stop a → pageBits a ≠ pageBits va) ∧ L' va = L va)

/-- The paths to the tables for the pages of a mapping loop. -/
def loopPaths (addr stop : ℕ) : Set (List (Fin 512)) :=
  {π | ∃ a ∈ {a | LoopPage addr stop a}, π ∈ pathsTo a}

/-- The address where the second loop stops, computed on `uint64_t`. -/
def BootInfo.ramStop (info : BootInfo) : ℕ := (info.machineRamBase + info.machineRamTotal) % 2 ^ 64

/-- The pages that `vmm_init` maps. -/
def BootInfo.mappedPages (info : BootInfo) : Set ℕ :=
  {a | LoopPage info.kernelImageStart info.ramStop a ∨ LoopPage 0x10000000 0x10002000 a}

/-- The frames that the tables of `vmm_init` take: one for each gigabyte and one for each two
megabytes that a mapped page lies in. -/
noncomputable def BootInfo.tablesNeeded (info : BootInfo) : ℕ :=
  (gigabyteOf '' info.mappedPages).ncard + (megabytesOf '' info.mappedPages).ncard

namespace PageTables

variable {slack : ℕ} {p p' : Pmm} {m m' : Bytes} {root addr stop flags n : ℕ}

/-- The root that `vmm_init` clears. -/
theorem of_filled (hp : PmmInv slack p) (hbase : p.memPhysBase % pageSize = 0)
    (hroot : root % pageSize = 0) (hlt : root < 2 ^ 64)
    (htaken : ∀ f < p.totalFrames, p.used f = false → p.frameAddr f ≠ root) :
    (∀ i, tableEntry (fill m root 0#8 pageSize) root i = 0) ∧
      PageTables slack p (fill m root 0#8 pageSize) root := by
  have hzero : ∀ i, tableEntry (fill m root 0#8 pageSize) root i = 0 := by
    intro i
    rw [tableEntry_fill hroot hroot, if_pos rfl]
  exact ⟨hzero, .start hp hbase hroot hlt htaken fun i => by rw [hzero i]⟩

/-- A mapping loop maps each of its pages and nothing else; it does not
return when its bound is in the last page of the address space. -/
theorem mapLoop (h : PageTables slack p m root) (hflags : flags < 1024)
    (haddr : addr % pageSize = 0) (hlt : addr < 2 ^ 64)
    (hs : mapLoop root flags stop p m addr n = .returned (p', m')) :
    PageTables slack p' m' root ∧ Grown p p' ∧ (stop ≤ addr ∨ stop + pageSize ≤ 2 ^ 64) ∧
      LoopMaps addr stop flags (vmmLeaf p m root) (vmmLeaf p' m' root) := by
  unfold pageSize at haddr
  induction n generalizing p m addr with
  | zero => cases hs
  | succ n ih =>
      rcases mapLoop_cases hs with ⟨hstop, rfl, rfl⟩ | ⟨_, q, m₁, heq, hstop, hmap, hs⟩
      · refine ⟨h, Grown.refl _, Or.inl hstop, fun va => Or.inr ⟨?_, rfl⟩⟩
        rintro a ⟨_, hlo, hhi⟩
        omega
      · cases heq
        obtain ⟨hq, hg, _, hleaf⟩ := h.mapPage hlt hflags hmap
        unfold pageSize at hs
        have hnext : (addr + 4096) % 2 ^ 64 % 4096 = 0 := by omega
        obtain ⟨hq', hg', hend, hmaps⟩ := ih hq hnext (Nat.mod_lt _ (by omega)) hs
        unfold pageSize at hend ⊢
        have hwrap : (addr + 4096) % 2 ^ 64 = addr + 4096 := by omega
        rw [hwrap] at hend hmaps
        refine ⟨hq', hg.trans hg', by omega, ?_⟩
        intro va
        rcases hmaps va with ⟨a, ⟨ha, hlo, hhi⟩, hbits, hva⟩ | ⟨hnone, hva⟩
        · exact Or.inl ⟨a, ⟨ha, by omega, hhi⟩, hbits, hva⟩
        · rw [hleaf va] at hva
          by_cases hbits : pageBits va = pageBits addr
          · rw [if_pos ⟨rfl, hbits⟩] at hva
            exact Or.inl ⟨addr, ⟨haddr, le_refl addr, hstop⟩, hbits.symm, hva⟩
          · rw [if_neg fun hh => hbits hh.2] at hva
            refine Or.inr ⟨?_, hva⟩
            rintro a ⟨ha, hlo, hhi⟩ heq
            by_cases haa : a = addr
            · exact hbits (haa ▸ heq.symm)
            · unfold pageSize at ha
              exact hnone a ⟨ha, by omega, hhi⟩ heq

/-- The tables that a mapping loop leaves: those for its pages are added, each took a frame. -/
theorem mapLoop_paths (h : PageTables slack p m root) (hnull : NoNullFrame p)
    (hflags : flags < 1024) (haddr : addr % pageSize = 0) (hlt : addr < 2 ^ 64)
    (hend : stop + pageSize ≤ 2 ^ 64)
    (hs : Vectra.mapLoop root flags stop p m addr n = .returned (p', m')) :
    Balanced root p m p' m' ∧
      pagePaths m' root = pagePaths m root ∪ loopPaths addr stop := by
  unfold pageSize at haddr hend
  induction n generalizing p m addr with
  | zero => cases hs
  | succ n ih =>
      rcases mapLoop_cases hs with ⟨hstop, rfl, rfl⟩ | ⟨_, q, m₁, heq, hstop, hmap, hs⟩
      · refine ⟨rfl, (Set.union_eq_self_of_subset_right ?_).symm⟩
        rintro π ⟨a, ⟨_, hlo, hhi⟩, _⟩
        omega
      · cases heq
        obtain ⟨hq, hg, _⟩ := h.mapPage hlt hflags hmap
        obtain ⟨hbal, hmono, hnew, hall⟩ := h.map_paths hnull hlt hflags hmap
        unfold pageSize at hs
        have hwrap : (addr + 4096) % 2 ^ 64 = addr + 4096 := by omega
        rw [hwrap] at hs
        obtain ⟨hbal', hpaths⟩ := ih hq (hnull.grown hg) (by omega) (by omega) hs
        refine ⟨hbal.trans hbal', ?_⟩
        have hone : pagePaths m₁ root = pagePaths m root ∪ pathsTo addr :=
          Set.Subset.antisymm hnew (Set.union_subset hmono (hall rfl))
        have hsplit : loopPaths addr stop = pathsTo addr ∪ loopPaths (addr + 4096) stop := by
          ext π
          constructor
          · rintro ⟨a, ⟨ha, hlo, hhi⟩, hπ⟩
            by_cases haa : a = addr
            · exact Or.inl (haa ▸ hπ)
            · unfold pageSize at ha
              exact Or.inr ⟨a, ⟨ha, by omega, hhi⟩, hπ⟩
          · rintro (hπ | ⟨a, ⟨ha, hlo, hhi⟩, hπ⟩)
            · exact ⟨addr, ⟨haddr, le_refl addr, hstop⟩, hπ⟩
            · exact ⟨a, ⟨ha, by omega, hhi⟩, hπ⟩
        rw [hpaths, hone, hsplit, Set.union_assoc]

end PageTables

namespace TableRoom

variable {need : Set (List (Fin 512))} {slack root addr stop flags n : ℕ} {p : Pmm} {m : Bytes}

/-- With room for the tables of its pages a mapping loop returns. -/
theorem mapLoop (hroom : TableRoom need root p m) (h : PageTables slack p m root)
    (hflags : flags < 1024) (haddr : addr % pageSize = 0) (hlt : addr < 2 ^ 64)
    (hend : stop + pageSize ≤ 2 ^ 64) (hneed : loopPaths addr stop ⊆ need)
    (hn : stop ≤ addr + n * pageSize) :
    ∃ p' m', mapLoop root flags stop p m addr (n + 1) = .returned (p', m') ∧
      TableRoom need root p' m' := by
  unfold pageSize at haddr hend hn
  induction n generalizing p m addr with
  | zero =>
      refine ⟨p, m, ?_, hroom⟩
      unfold Vectra.mapLoop
      exact if_neg (by omega)
  | succ n ih =>
      by_cases hstop : addr < stop
      · have hpage : LoopPage addr stop addr := ⟨haddr, le_refl addr, hstop⟩
        obtain ⟨q, m₁, hmap, hroom₁⟩ := hroom.mapPage h (fun π hπ => hneed ⟨addr, hpage, hπ⟩)
          haddr haddr hlt hflags
        have hq := (h.mapPage hlt hflags hmap).1
        have hsub : loopPaths (addr + 4096) stop ⊆ need := by
          rintro π ⟨a, ⟨ha, hlo, hhi⟩, hπ⟩
          exact hneed ⟨a, ⟨ha, by omega, hhi⟩, hπ⟩
        obtain ⟨p', m', hs, hroom'⟩ := ih hroom₁ hq (by omega) (by omega) hsub (by omega)
        refine ⟨p', m', ?_, hroom'⟩
        have hwrap : (addr + pageSize) % 2 ^ 64 = addr + 4096 := by
          unfold pageSize
          omega
        unfold Vectra.mapLoop
        simp only [if_pos hstop, hmap, hwrap]
        exact hs
      · refine ⟨p, m, ?_, hroom⟩
        unfold Vectra.mapLoop
        exact if_neg hstop

end TableRoom

/-- The leaves that `vmm_init` leaves, loop by loop. -/
theorem vmmInit_leaves {slack root : ℕ} {p p' : Pmm} {m m' : Bytes} {info : BootInfo}
    (hp : PmmInv slack p) (hbase : p.memPhysBase % pageSize = 0) (hroot : root % pageSize = 0)
    (hlt : root < 2 ^ 64)
    (htaken : ∀ f < p.totalFrames, p.used f = false → p.frameAddr f ≠ root)
    (himage : info.kernelImageStart % pageSize = 0) (himageLt : info.kernelImageStart < 2 ^ 64)
    {n : ℕ} (hinit : vmmInit info root p m n = .returned (p', m')) :
    PageTables slack p' m' root ∧ Grown p p' ∧
      info.kernelReadonlyEnd + (pageSize - 1) < 2 ^ 64 ∧ info.ramStop + pageSize ≤ 2 ^ 64 ∧
      ∃ L₁ L₂,
      LoopMaps info.kernelImageStart info.kernelReadonlyEnd pageKernelExec (fun _ => none) L₁ ∧
      LoopMaps (alignUp info.kernelReadonlyEnd pageSize) info.ramStop pageKernelData L₁ L₂ ∧
      LoopMaps 0x10000000 0x10002000 (pteR ||| pteW) L₂ (vmmLeaf p' m' root) := by
  obtain ⟨hzero, hstart⟩ := PageTables.of_filled (m := m) hp hbase hroot hlt htaken
  have hempty : vmmLeaf p (fill m root 0#8 pageSize) root = fun _ => none :=
    funext fun va => vmmLeaf_of_even (fun i => by rw [hzero i]) va
  unfold vmmInit at hinit
  obtain ⟨⟨p₁, m₁⟩, hexec, hinit⟩ := Outcome.bind_eq_returned.mp hinit
  obtain ⟨⟨p₂, m₂⟩, hdata, huart⟩ := Outcome.bind_eq_returned.mp hinit
  obtain ⟨h₁, hg₁, hend, hmaps₁⟩ := hstart.mapLoop (by decide) himage himageLt hexec
  have hread : info.kernelReadonlyEnd + (pageSize - 1) < 2 ^ 64 := by
    unfold pageSize at *
    omega
  have hup := alignUp_lt info.kernelReadonlyEnd pageSize
  have halign : alignUp info.kernelReadonlyEnd pageSize % pageSize = 0 := by
    rw [alignUp_page hread]
    exact Nat.mul_mod_left _ _
  obtain ⟨h₂, hg₂, hstop, hmaps₂⟩ := h₁.mapLoop (by decide) halign hup hdata
  obtain ⟨h₃, hg₃, _, hmaps₃⟩ := h₂.mapLoop (by decide) (by decide) (by decide) huart
  rw [hempty] at hmaps₁
  refine ⟨h₃, (hg₁.trans hg₂).trans hg₃, hread, ?_, _, _, hmaps₁, hmaps₂, hmaps₃⟩
  change info.ramStop ≤ _ ∨ info.ramStop + pageSize ≤ 2 ^ 64 at hstop
  unfold pageSize at *
  omega

/-! ## The tables -/

section Tables

variable {slack root : ℕ} {p p' : Pmm} {m m' : Bytes} {info : BootInfo}

/-- The paths to the tables for all pages that `vmm_init` maps, loop by loop. -/
theorem mappedPages_paths (himage : info.kernelImageStart ≤ info.kernelReadonlyEnd)
    (hram : info.kernelReadonlyEnd ≤ info.ramStop)
    (hread : info.kernelReadonlyEnd + (pageSize - 1) < 2 ^ 64) :
    {π | ∃ a ∈ info.mappedPages, π ∈ pathsTo a} =
      loopPaths info.kernelImageStart info.kernelReadonlyEnd ∪
        loopPaths (alignUp info.kernelReadonlyEnd pageSize) info.ramStop ∪
          loopPaths 0x10000000 0x10002000 := by
  have hup := alignUp_page hread
  unfold pageSize at hup hread
  ext π
  constructor
  · rintro ⟨a, ⟨ha, hlo, hhi⟩ | ha, hπ⟩
    · by_cases hend : a < info.kernelReadonlyEnd
      · exact Or.inl (Or.inl ⟨a, ⟨ha, hlo, hend⟩, hπ⟩)
      · refine Or.inl (Or.inr ⟨a, ⟨ha, ?_, hhi⟩, hπ⟩)
        unfold pageSize at *
        omega
    · exact Or.inr ⟨a, ha, hπ⟩
  · rintro ((⟨a, ⟨ha, hlo, hhi⟩, hπ⟩ | ⟨a, ⟨ha, hlo, hhi⟩, hπ⟩) | ⟨a, ha, hπ⟩)
    · exact ⟨a, Or.inl ⟨ha, hlo, by omega⟩, hπ⟩
    · unfold pageSize at hlo
      exact ⟨a, Or.inl ⟨ha, by omega, hhi⟩, hπ⟩
    · exact ⟨a, Or.inr ha, hπ⟩

/-- With a clear frame for each table `vmm_init` returns, and has taken just these frames. -/
theorem vmmInit_returns (hp : PmmInv slack p) (hbase : p.memPhysBase % pageSize = 0)
    (hroot : root % pageSize = 0) (hlt : root < 2 ^ 64)
    (htaken : ∀ f < p.totalFrames, p.used f = false → p.frameAddr f ≠ root)
    (hnull : NoNullFrame p) (himage : info.kernelImageStart % pageSize = 0)
    (hlow : info.kernelImageStart ≤ info.kernelReadonlyEnd)
    (hram : info.kernelReadonlyEnd ≤ info.ramStop) (hstop : info.ramStop + pageSize ≤ 2 ^ 64)
    (henough : info.tablesNeeded ≤ p.clearFrames.card) :
    ∃ n p' m', vmmInit info root p m n = .returned (p', m') := by
  obtain ⟨hzero, hstart⟩ := PageTables.of_filled (m := m) hp hbase hroot hlt htaken
  unfold pageSize at hstop
  have hread : info.kernelReadonlyEnd + (pageSize - 1) < 2 ^ 64 := by
    unfold pageSize
    omega
  have hpaths := mappedPages_paths hlow hram hread
  have hup := alignUp_page hread
  have halign : alignUp info.kernelReadonlyEnd pageSize % pageSize = 0 := by
    rw [hup]
    exact Nat.mul_mod_left _ _
  have hroom : TableRoom {π | ∃ a ∈ info.mappedPages, π ∈ pathsTo a} root p
      (fill m root 0#8 pageSize) := by
    refine ⟨(List.finite_length_le (Fin 512) 2).subset ?_, hnull, ?_, ?_⟩
    · rintro π ⟨a, _, rfl | rfl⟩
      · exact Nat.le_succ 1
      · exact le_refl 2
    · rw [pagePaths_zeroed hzero]
      exact Set.empty_subset _
    · rw [pagePaths_zeroed hzero, Set.ncard_empty, pathsTo_ncard]
      exact henough
  unfold pageSize at hup
  -- no loop has more pages than the address space
  obtain ⟨p₁, m₁, hexec, hroom₁⟩ : ∃ p₁ m₁, mapLoop root pageKernelExec
      info.kernelReadonlyEnd p (fill m root 0#8 pageSize) info.kernelImageStart (2 ^ 52 + 1) =
        .returned (p₁, m₁) ∧ TableRoom _ root p₁ m₁ :=
    hroom.mapLoop hstart (by decide) himage (by omega) (by unfold pageSize; omega)
      (by rw [hpaths]; exact fun π hπ => Or.inl (Or.inl hπ)) (by unfold pageSize; omega)
  obtain ⟨h₁, _⟩ := hstart.mapLoop (by decide) himage (by omega) hexec
  obtain ⟨p₂, m₂, hdata, hroom₂⟩ : ∃ p₂ m₂, mapLoop root pageKernelData info.ramStop p₁ m₁
      (alignUp info.kernelReadonlyEnd pageSize) (2 ^ 52 + 1) = .returned (p₂, m₂) ∧
        TableRoom _ root p₂ m₂ :=
    hroom₁.mapLoop h₁ (by decide) halign (alignUp_lt _ _) (by unfold pageSize; omega)
      (by rw [hpaths]; exact fun π hπ => Or.inl (Or.inr hπ)) (by unfold pageSize; omega)
  obtain ⟨h₂, _⟩ := h₁.mapLoop (by decide) halign (alignUp_lt _ _) hdata
  obtain ⟨p₃, m₃, huart, _⟩ : ∃ p₃ m₃, mapLoop root (pteR ||| pteW) 0x10002000 p₂ m₂
      0x10000000 (2 ^ 52 + 1) = .returned (p₃, m₃) ∧ TableRoom _ root p₃ m₃ :=
    hroom₂.mapLoop h₂ (by decide) (by decide) (by decide) (by decide)
      (by rw [hpaths]; exact fun π hπ => Or.inr hπ) (by decide)
  refine ⟨2 ^ 52 + 1, p₃, m₃, ?_⟩
  unfold vmmInit
  rw [hexec]
  change Outcome.bind (mapLoop root pageKernelData info.ramStop p₁ m₁
    (alignUp info.kernelReadonlyEnd pageSize) (2 ^ 52 + 1)) _ = _
  rw [hdata]
  exact huart

/-- What `vmm_init` has taken: one frame for each table. -/
theorem vmmInit_frames (hp : PmmInv slack p) (hbase : p.memPhysBase % pageSize = 0)
    (hroot : root % pageSize = 0) (hlt : root < 2 ^ 64)
    (htaken : ∀ f < p.totalFrames, p.used f = false → p.frameAddr f ≠ root)
    (hnull : NoNullFrame p) (himage : info.kernelImageStart % pageSize = 0)
    (hlow : info.kernelImageStart ≤ info.kernelReadonlyEnd)
    (hram : info.kernelReadonlyEnd ≤ info.ramStop) (hstop : info.ramStop + pageSize ≤ 2 ^ 64)
    {n : ℕ} (hinit : vmmInit info root p m n = .returned (p', m')) :
    p.freeFrames = p'.freeFrames + info.tablesNeeded := by
  obtain ⟨hzero, hstart⟩ := PageTables.of_filled (m := m) hp hbase hroot hlt htaken
  unfold pageSize at hstop
  have hread : info.kernelReadonlyEnd + (pageSize - 1) < 2 ^ 64 := by
    unfold pageSize
    omega
  have halign : alignUp info.kernelReadonlyEnd pageSize % pageSize = 0 := by
    rw [alignUp_page hread]
    exact Nat.mul_mod_left _ _
  unfold vmmInit at hinit
  obtain ⟨⟨p₁, m₁⟩, hexec, hinit⟩ := Outcome.bind_eq_returned.mp hinit
  obtain ⟨⟨p₂, m₂⟩, hdata, huart⟩ := Outcome.bind_eq_returned.mp hinit
  have hend : info.kernelReadonlyEnd + pageSize ≤ 2 ^ 64 := by
    unfold pageSize
    omega
  obtain ⟨h₁, hg₁, _⟩ := hstart.mapLoop (by decide) himage (by omega) hexec
  obtain ⟨hbal₁, hpaths₁⟩ :=
    hstart.mapLoop_paths hnull (by decide) himage (by omega) hend hexec
  obtain ⟨h₂, hg₂, _⟩ := h₁.mapLoop (by decide) halign (alignUp_lt _ _) hdata
  obtain ⟨hbal₂, hpaths₂⟩ :=
    h₁.mapLoop_paths (hnull.grown hg₁) (by decide) halign (alignUp_lt _ _) hstop hdata
  obtain ⟨hbal₃, hpaths₃⟩ :=
    h₂.mapLoop_paths ((hnull.grown hg₁).grown hg₂) (by decide) (by decide) (by decide)
      (by decide) huart
  have hbal := (hbal₁.trans hbal₂).trans hbal₃
  have hall : pagePaths m' root = {π | ∃ a ∈ info.mappedPages, π ∈ pathsTo a} := by
    rw [hpaths₃, hpaths₂, hpaths₁, pagePaths_zeroed hzero, Set.empty_union,
      mappedPages_paths hlow hram hread]
  unfold Balanced at hbal
  rw [hall, pathsTo_ncard, pagePaths_zeroed hzero, Set.ncard_empty] at hbal
  exact hbal

end Tables

/-! ## The permissions -/

/-- What `vmm_init` is to leave in the page table. -/
structure KernelMap (info : BootInfo) (p : Pmm) (m : Bytes) (root : ℕ) : Prop where
  readonly : ∀ x, info.kernelImageStart ≤ x → x < info.kernelReadonlyEnd →
    vmmVirtToPhys p m root x = x ∧
      ∃ pte, vmmLeaf p m root x = some pte ∧ pte &&& pteX ≠ 0 ∧ pte &&& pteW = 0
  data : ∀ x, info.kernelReadonlyEnd ≤ x → x < info.ramStop →
    vmmVirtToPhys p m root x = x ∧
      ∃ pte, vmmLeaf p m root x = some pte ∧ pte &&& pteR ≠ 0 ∧ pte &&& pteW ≠ 0 ∧
        pte &&& pteX = 0
  write_xor_exec : ∀ va pte, vmmLeaf p m root va = some pte →
    ¬ (pte &&& pteW ≠ 0 ∧ pte &&& pteX ≠ 0)

/-- No page holds bytes of both kinds, and no two pages share an entry, where the
UART may be a page of the writable range. -/
structure BootInfo.PagesApart (info : BootInfo) : Prop where
  boundary : info.kernelReadonlyEnd % pageSize = 0 ∨ info.kernelReadonlyEnd = info.ramStop
  ram : ∀ a b, LoopPage info.kernelImageStart info.ramStop a →
    LoopPage info.kernelImageStart info.ramStop b → pageBits a = pageBits b → a = b
  uart : ∀ a u, LoopPage info.kernelImageStart info.ramStop a → LoopPage 0x10000000 0x10002000 u →
    pageBits a = pageBits u → a = u ∧ info.kernelReadonlyEnd ≤ a

/-- The flag bits of an entry. -/
theorem leafEntry_and {a flags b : ℕ} (ha : a < 2 ^ 64) (hflags : flags < 1024) (hb : b < 1024) :
    leafEntry a flags &&& b = (pteV ||| flags) &&& b := by
  obtain ⟨hentry, hor, _⟩ := leafEntry_eq ha hflags
  have hlt : leafEntry a flags &&& b < 2 ^ 10 := lt_of_le_of_lt Nat.and_le_right hb
  rw [← Nat.mod_eq_of_lt hlt, Nat.and_mod_two_pow, hentry, Nat.mod_eq_of_lt hb]
  congr 1
  omega

/-- An address whose page is mapped to itself. -/
theorem kernelPage_spec {p : Pmm} {m : Bytes} {root a x flags : ℕ} (ha : a % pageSize = 0)
    (hlt : a < 2 ^ 64) (hlo : a ≤ x) (hhi : x < a + 4096) (hflags : flags < 1024)
    (hleaf : vmmLeaf p m root x = some (leafEntry a flags)) : vmmVirtToPhys p m root x = x := by
  rw [virtToPhys_of_leaf hlt ha hflags hleaf]
  unfold pageSize at ha
  omega

/-- The flags of a leaf that one of the three loops has written. -/
def KernelFlags (flags : ℕ) : Prop :=
  flags = pageKernelExec ∨ flags = pageKernelData ∨ flags = pteR ||| pteW

theorem KernelFlags.lt {flags : ℕ} (h : KernelFlags flags) : flags < 1024 := by
  rcases h with rfl | rfl | rfl <;> decide

section Leaves

variable {p : Pmm} {m : Bytes} {root a b u : ℕ} {info : BootInfo} {L L₁ L₂ : ℕ → Option ℕ}

theorem LoopPage.lt {addr stop : ℕ} (h : LoopPage addr stop a) (hstop : stop ≤ 2 ^ 64) :
    a < 2 ^ 64 :=
  lt_of_lt_of_le h.2.2 hstop

/-- Every leaf has been written by one of the loops. -/
theorem kernelLeaf_entry (hread : info.kernelReadonlyEnd ≤ 2 ^ 64)
    (h₁ : LoopMaps info.kernelImageStart info.kernelReadonlyEnd pageKernelExec (fun _ => none) L₁)
    (h₂ : LoopMaps (alignUp info.kernelReadonlyEnd pageSize) info.ramStop pageKernelData L₁ L₂)
    (h₃ : LoopMaps 0x10000000 0x10002000 (pteR ||| pteW) L₂ L) {va pte : ℕ}
    (hleaf : L va = some pte) :
    ∃ c flags, c % pageSize = 0 ∧ c < 2 ^ 64 ∧ KernelFlags flags ∧ pte = leafEntry c flags := by
  rcases h₃ va with ⟨c, hc, _, hva⟩ | ⟨_, hva⟩
  · rw [hleaf] at hva
    exact ⟨c, _, hc.1, hc.lt (by decide), Or.inr (Or.inr rfl), Option.some.inj hva⟩
  · rcases h₂ va with ⟨c, hc, _, hva₂⟩ | ⟨_, hva₂⟩
    · rw [hva, hva₂] at hleaf
      have hlt := hc.lt (Nat.mod_lt _ (by decide)).le
      exact ⟨c, _, hc.1, hlt, Or.inr (Or.inl rfl), (Option.some.inj hleaf).symm⟩
    · rcases h₁ va with ⟨c, hc, _, hva₁⟩ | ⟨_, hva₁⟩
      · rw [hva, hva₂, hva₁] at hleaf
        exact ⟨c, _, hc.1, hc.lt hread, Or.inl rfl, (Option.some.inj hleaf).symm⟩
      · rw [hva, hva₂, hva₁] at hleaf
        cases hleaf

/-- The UART loop comes last. -/
theorem kernelLeaf_uart (h₃ : LoopMaps 0x10000000 0x10002000 (pteR ||| pteW) L₂ L)
    (hu : LoopPage 0x10000000 0x10002000 u) (hbits : pageBits a = pageBits u) :
    L a = some (leafEntry u (pteR ||| pteW)) := by
  rcases h₃ a with ⟨c, ⟨hc, hlo, hhi⟩, hca, hva⟩ | ⟨hnone, _⟩
  · obtain ⟨hu, hulo, huhi⟩ := hu
    rw [hbits] at hca
    have hcu : c = u := by
      unfold pageBits at hca
      unfold pageSize at hc hu
      omega
    rw [hva, hcu]
  · exact absurd hbits.symm (hnone u hu)

/-- Where the pages are apart, each has the leaf of its own loop. -/
theorem kernelLeaf_own (hapart : info.PagesApart)
    (himage : info.kernelImageStart ≤ info.kernelReadonlyEnd)
    (hram : info.kernelReadonlyEnd ≤ info.ramStop)
    (hread : info.kernelReadonlyEnd + (pageSize - 1) < 2 ^ 64)
    (h₁ : LoopMaps info.kernelImageStart info.kernelReadonlyEnd pageKernelExec (fun _ => none) L₁)
    (h₂ : LoopMaps (alignUp info.kernelReadonlyEnd pageSize) info.ramStop pageKernelData L₁ L₂)
    (h₃ : LoopMaps 0x10000000 0x10002000 (pteR ||| pteW) L₂ L)
    (ha : LoopPage info.kernelImageStart info.ramStop a) :
    (a < info.kernelReadonlyEnd → L a = some (leafEntry a pageKernelExec)) ∧
      (info.kernelReadonlyEnd ≤ a →
        L a = some (leafEntry a pageKernelData) ∨ L a = some (leafEntry a (pteR ||| pteW))) := by
  have hup := alignUp_page hread
  have hge : info.kernelReadonlyEnd ≤ alignUp info.kernelReadonlyEnd pageSize := by
    rw [hup]
    omega
  constructor
  · intro hlo
    have huart : L a = L₂ a := by
      rcases h₃ a with ⟨u, hu, hbits, _⟩ | ⟨_, hva⟩
      · obtain ⟨rfl, hle⟩ := hapart.uart a u ha hu hbits.symm
        omega
      · exact hva
    have hdata : L₂ a = L₁ a := by
      rcases h₂ a with ⟨b, ⟨hb, hblo, hbhi⟩, hbits, _⟩ | ⟨_, hva⟩
      · have hab := hapart.ram a b ha ⟨hb, by omega, hbhi⟩ hbits.symm
        omega
      · exact hva
    rw [huart, hdata]
    rcases h₁ a with ⟨b, ⟨hb, hblo, hbhi⟩, hbits, hva⟩ | ⟨hnone, _⟩
    · have hba := hapart.ram b a ⟨hb, hblo, by omega⟩ ha hbits
      rw [hva, hba]
    · exact absurd rfl (hnone a ⟨ha.1, ha.2.1, hlo⟩)
  · intro hle
    rcases h₃ a with ⟨u, hu, hbits, hva⟩ | ⟨_, hva⟩
    · obtain ⟨rfl, _⟩ := hapart.uart a u ha hu hbits.symm
      exact Or.inr hva
    · rcases h₂ a with ⟨b, ⟨hb, hblo, hbhi⟩, hbits, hva₂⟩ | ⟨hnone, _⟩
      · have hba := hapart.ram b a ⟨hb, by omega, hbhi⟩ ha hbits
        rw [hva, hva₂, hba]
        exact Or.inl rfl
      · obtain ⟨hpage, _, hhi⟩ := ha
        refine absurd rfl (hnone a ⟨hpage, ?_, hhi⟩)
        unfold pageSize at hpage
        omega

/-- A page that is translated to itself has a leaf of its own. -/
theorem kernelLeaf_self (hread : info.kernelReadonlyEnd ≤ 2 ^ 64)
    (h₁ : LoopMaps info.kernelImageStart info.kernelReadonlyEnd pageKernelExec (fun _ => none) L₁)
    (h₂ : LoopMaps (alignUp info.kernelReadonlyEnd pageSize) info.ramStop pageKernelData L₁ L₂)
    (h₃ : LoopMaps 0x10000000 0x10002000 (pteR ||| pteW) L₂ (vmmLeaf p m root))
    (ha : a % pageSize = 0) {pte : ℕ} (hleaf : vmmLeaf p m root a = some pte)
    (hva : vmmVirtToPhys p m root a = a) :
    ∃ flags, KernelFlags flags ∧ pte = leafEntry a flags := by
  obtain ⟨c, flags, hc, hlt, hflags, hpte⟩ := kernelLeaf_entry hread h₁ h₂ h₃ hleaf
  rw [hpte] at hleaf
  have hca := virtToPhys_of_leaf hlt hc hflags.lt hleaf
  have hac : a = c := by
    unfold pageSize at ha
    omega
  exact ⟨flags, hflags, by rw [hpte, hac]⟩

theorem KernelMap.pagesApart (h : KernelMap info p m root)
    (himage : info.kernelImageStart % pageSize = 0)
    (hlow : info.kernelImageStart ≤ info.kernelReadonlyEnd)
    (hram : info.kernelReadonlyEnd ≤ info.ramStop) (hread : info.kernelReadonlyEnd ≤ 2 ^ 64)
    (h₁ : LoopMaps info.kernelImageStart info.kernelReadonlyEnd pageKernelExec (fun _ => none) L₁)
    (h₂ : LoopMaps (alignUp info.kernelReadonlyEnd pageSize) info.ramStop pageKernelData L₁ L₂)
    (h₃ : LoopMaps 0x10000000 0x10002000 (pteR ||| pteW) L₂ (vmmLeaf p m root)) :
    info.PagesApart := by
  have hself : ∀ a, LoopPage info.kernelImageStart info.ramStop a →
      ∃ flags, KernelFlags flags ∧ vmmLeaf p m root a = some (leafEntry a flags) := by
    rintro a ⟨ha, hlo, hhi⟩
    obtain ⟨hva, pte, hleaf⟩ : vmmVirtToPhys p m root a = a ∧
        ∃ pte, vmmLeaf p m root a = some pte := by
      by_cases hend : a < info.kernelReadonlyEnd
      · obtain ⟨hva, pte, hleaf, _⟩ := h.readonly a hlo hend
        exact ⟨hva, pte, hleaf⟩
      · obtain ⟨hva, pte, hleaf, _⟩ := h.data a (Nat.le_of_not_lt hend) hhi
        exact ⟨hva, pte, hleaf⟩
    obtain ⟨flags, hflags, hpte⟩ := kernelLeaf_self hread h₁ h₂ h₃ ha hleaf hva
    exact ⟨flags, hflags, hpte ▸ hleaf⟩
  have hstop : info.ramStop < 2 ^ 64 := Nat.mod_lt _ (by decide)
  have hpage : ∀ a b flags flags', LoopPage info.kernelImageStart info.ramStop a →
      b < 2 ^ 64 → b % pageSize = 0 → KernelFlags flags → KernelFlags flags' →
      leafEntry a flags = leafEntry b flags' → a = b := by
    intro a b flags flags' ha hb hbpage hflags hflags' heq
    rw [(leafEntry_eq (ha.lt hstop.le) hflags.lt).1, (leafEntry_eq hb hflags'.lt).1] at heq
    have hf := (leafEntry_eq hb hflags.lt).2.1
    have hf' := (leafEntry_eq hb hflags'.lt).2.1
    have haPage := ha.1
    unfold pageSize at haPage hbpage
    omega
  refine ⟨?_, ?_, ?_⟩
  · -- the page of an unaligned boundary would hold bytes of both kinds
    by_contra hne
    obtain ⟨hmod, hend⟩ := not_or.mp hne
    obtain ⟨a, ha⟩ : ∃ a, a = info.kernelReadonlyEnd / 4096 * 4096 := ⟨_, rfl⟩
    unfold pageSize at hmod himage
    obtain ⟨_, pte, hleaf, hexec, _⟩ := h.readonly a (by omega) (by omega)
    obtain ⟨_, pte', hleaf', _, _, hnot⟩ := h.data info.kernelReadonlyEnd (le_refl _) (by omega)
    have hbits : pageBits info.kernelReadonlyEnd = pageBits a := by
      unfold pageBits
      omega
    rw [vmmLeaf_congr hbits, hleaf] at hleaf'
    rw [← Option.some.inj hleaf'] at hnot
    exact hexec hnot
  · intro a b ha hb hbits
    obtain ⟨flags, hflags, hleaf⟩ := hself a ha
    obtain ⟨flags', hflags', hleaf'⟩ := hself b hb
    rw [vmmLeaf_congr hbits, hleaf'] at hleaf
    exact hpage a b flags flags' ha (hb.lt hstop.le) hb.1 hflags hflags'
      (Option.some.inj hleaf).symm
  · intro a u ha hu hbits
    obtain ⟨flags, hflags, hleaf⟩ := hself a ha
    have huart := kernelLeaf_uart h₃ hu hbits
    have hau : a = u := by
      rw [huart] at hleaf
      exact hpage a u flags _ ha (hu.lt (by decide)) hu.1 hflags (Or.inr (Or.inr rfl))
        (Option.some.inj hleaf).symm
    refine ⟨hau, ?_⟩
    by_contra hlt
    obtain ⟨_, pte, hleaf', hexec, _⟩ := h.readonly a ha.2.1 (Nat.lt_of_not_le hlt)
    rw [huart] at hleaf'
    rw [← Option.some.inj hleaf', leafEntry_and (hu.lt (by decide)) (by decide)
      (by decide)] at hexec
    exact hexec (by decide)

theorem BootInfo.PagesApart.kernelMap (h : info.PagesApart)
    (himage : info.kernelImageStart % pageSize = 0)
    (hlow : info.kernelImageStart ≤ info.kernelReadonlyEnd)
    (hram : info.kernelReadonlyEnd ≤ info.ramStop)
    (hread : info.kernelReadonlyEnd + (pageSize - 1) < 2 ^ 64)
    (h₁ : LoopMaps info.kernelImageStart info.kernelReadonlyEnd pageKernelExec (fun _ => none) L₁)
    (h₂ : LoopMaps (alignUp info.kernelReadonlyEnd pageSize) info.ramStop pageKernelData L₁ L₂)
    (h₃ : LoopMaps 0x10000000 0x10002000 (pteR ||| pteW) L₂ (vmmLeaf p m root)) :
    KernelMap info p m root := by
  have hstop : info.ramStop < 2 ^ 64 := Nat.mod_lt _ (by decide)
  have hbits : ∀ x, pageBits x = pageBits (x / 4096 * 4096) := by
    intro x
    unfold pageBits
    omega
  refine ⟨?_, ?_, ?_⟩
  · intro x hlo hhi
    obtain ⟨a, ha⟩ : ∃ a, a = x / 4096 * 4096 := ⟨_, rfl⟩
    have hpage : LoopPage info.kernelImageStart info.ramStop a := by
      unfold LoopPage pageSize at *
      omega
    have hleaf := (kernelLeaf_own h hlow hram hread h₁ h₂ h₃ hpage).1 (by omega)
    rw [ha, ← vmmLeaf_congr (hbits x), ← ha] at hleaf
    have hlt := hpage.lt hstop.le
    refine ⟨kernelPage_spec hpage.1 hlt (by omega) (by omega) (by decide) hleaf, _, hleaf, ?_, ?_⟩
    · rw [leafEntry_and hlt (by decide) (by decide)]
      decide
    · rw [leafEntry_and hlt (by decide) (by decide)]
      decide
  · intro x hlo hhi
    obtain ⟨a, ha⟩ : ∃ a, a = x / 4096 * 4096 := ⟨_, rfl⟩
    have hboundary : info.kernelReadonlyEnd % 4096 = 0 := by
      rcases h.boundary with hmod | heq
      · exact hmod
      · omega
    have hpage : LoopPage info.kernelImageStart info.ramStop a := by
      unfold LoopPage pageSize at *
      omega
    have hlt := hpage.lt hstop.le
    rcases (kernelLeaf_own h hlow hram hread h₁ h₂ h₃ hpage).2 (by omega) with hleaf | hleaf
    · rw [ha, ← vmmLeaf_congr (hbits x), ← ha] at hleaf
      refine ⟨kernelPage_spec hpage.1 hlt (by omega) (by omega) (by decide) hleaf, _, hleaf,
        ?_, ?_, ?_⟩ <;>
      · rw [leafEntry_and hlt (by decide) (by decide)]
        decide
    · rw [ha, ← vmmLeaf_congr (hbits x), ← ha] at hleaf
      refine ⟨kernelPage_spec hpage.1 hlt (by omega) (by omega) (by decide) hleaf, _, hleaf,
        ?_, ?_, ?_⟩ <;>
      · rw [leafEntry_and hlt (by decide) (by decide)]
        decide
  · intro va pte hleaf
    obtain ⟨c, flags, _, hlt, hflags, rfl⟩ :=
      kernelLeaf_entry (by omega) h₁ h₂ h₃ hleaf
    rw [leafEntry_and hlt hflags.lt (by decide), leafEntry_and hlt hflags.lt (by decide)]
    rcases hflags with rfl | rfl | rfl <;> decide

end Leaves

/-- With frames enough for its tables `vmm_init` returns and leaves the intended permissions if
and only if the pages are apart and the RAM does not end in the last page of the address space,
where the loops never end. -/
theorem vmm_init_kernelMap_iff {slack root : ℕ} {p : Pmm} {m : Bytes} {info : BootInfo}
    (hp : PmmInv slack p) (hbase : p.memPhysBase % pageSize = 0) (hroot : root % pageSize = 0)
    (hlt : root < 2 ^ 64)
    (htaken : ∀ f < p.totalFrames, p.used f = false → p.frameAddr f ≠ root)
    (hnull : NoNullFrame p) (himage : info.kernelImageStart % pageSize = 0)
    (hread : info.kernelImageStart ≤ info.kernelReadonlyEnd)
    (hram : info.kernelReadonlyEnd ≤ info.ramStop)
    (henough : info.tablesNeeded ≤ p.clearFrames.card) :
    (∃ n p' m', vmmInit info root p m n = .returned (p', m') ∧ KernelMap info p' m' root) ↔
      info.ramStop + pageSize ≤ 2 ^ 64 ∧ info.PagesApart := by
  have hstop : info.ramStop < 2 ^ 64 := Nat.mod_lt _ (by omega)
  constructor
  · rintro ⟨n, p', m', hinit, hmap⟩
    obtain ⟨_, _, hreadLt, hend, L₁, L₂, hmaps₁, hmaps₂, hmaps₃⟩ :=
      vmmInit_leaves hp hbase hroot hlt htaken himage (by omega) hinit
    exact ⟨hend, hmap.pagesApart himage hread hram (by omega) hmaps₁ hmaps₂ hmaps₃⟩
  · rintro ⟨hend, hapart⟩
    obtain ⟨n, p', m', hinit⟩ := vmmInit_returns (m := m) hp hbase hroot hlt htaken hnull himage
      hread hram hend henough
    obtain ⟨_, _, hreadLt, _, L₁, L₂, hmaps₁, hmaps₂, hmaps₃⟩ :=
      vmmInit_leaves hp hbase hroot hlt htaken himage (by omega) hinit
    exact ⟨n, p', m', hinit, hapart.kernelMap himage hread hram hreadLt hmaps₁ hmaps₂ hmaps₃⟩

/-- A machine with 20 frames whose image starts where the RAM starts. -/
def smallBoot : BootInfo where
  earlyHeapStart := 0x80002000
  earlyHeapEnd := 0x80004000
  kernelImageStart := 0x80000000
  kernelReadonlyEnd := 0x80001000
  machineRamBase := 0x80000000
  machineRamTotal := 0x14000

/-- The pages of a small RAM and of the UART need four tables at most. -/
theorem tablesNeeded_le_four {info : BootInfo} (himage : info.kernelImageStart = 0x80000000)
    (hstop : info.ramStop ≤ 0x80200000) : info.tablesNeeded ≤ 4 := by
  have hpage : ∀ a ∈ info.mappedPages,
      (0x80000000 ≤ a ∧ a < 0x80200000) ∨ (0x10000000 ≤ a ∧ a < 0x10002000) := by
    rintro a (⟨_, hlo, hhi⟩ | ⟨_, hlo, hhi⟩)
    · exact Or.inl ⟨by omega, by omega⟩
    · exact Or.inr ⟨hlo, hhi⟩
  have hgig : gigabyteOf '' info.mappedPages ⊆ {0, 2} := by
    rintro _ ⟨a, ha, rfl⟩
    have := hpage a ha
    simp only [gigabyteOf, Set.mem_insert_iff, Set.mem_singleton_iff]
    omega
  have hmeg : megabytesOf '' info.mappedPages ⊆ {0x80, 0x400} := by
    rintro _ ⟨a, ha, rfl⟩
    have := hpage a ha
    simp only [megabytesOf, Set.mem_insert_iff, Set.mem_singleton_iff]
    omega
  have hgigCard := (Set.ncard_le_ncard hgig (Set.toFinite _)).trans (Set.ncard_insert_le 0 {2})
  have hmegCard :=
    (Set.ncard_le_ncard hmeg (Set.toFinite _)).trans (Set.ncard_insert_le 0x80 {0x400})
  rw [Set.ncard_singleton] at hgigCard hmegCard
  unfold BootInfo.tablesNeeded
  omega

/-- Its image ends at a page. -/
theorem smallBoot_pagesApart : smallBoot.PagesApart := by
  refine ⟨by decide, ?_, ?_⟩
  · rintro a b ⟨ha, halo, hahi⟩ ⟨hb, hblo, hbhi⟩ hbits
    simp only [smallBoot, BootInfo.ramStop, pageBits, pageSize] at *
    omega
  · rintro a u ⟨ha, halo, hahi⟩ ⟨hu, hulo, huhi⟩ hbits
    simp only [smallBoot, BootInfo.ramStop, pageBits, pageSize] at *
    omega

theorem vmm_init_kernelMap_iff_small :
    ∃ n p m, vmmInit smallBoot 0x80001000 ⟨fun i => if i = 0 then 0x0f#8 else 0#8, 20, 16,
        0x80000000, 0⟩ (fun _ => 0xff#8) n = .returned (p, m) ∧
      KernelMap smallBoot p m 0x80001000 := by
  have hp : PmmInv 0 ⟨fun i => if i = 0 then 0x0f#8 else 0#8, 20, 16, 0x80000000, 0⟩ :=
    ⟨by decide, by decide, by decide, by decide⟩
  have henough : smallBoot.tablesNeeded ≤ (Pmm.clearFrames
      ⟨fun i => if i = 0 then 0x0f#8 else 0#8, 20, 16, 0x80000000, 0⟩).card :=
    (tablesNeeded_le_four rfl (by decide)).trans (by decide)
  exact (vmm_init_kernelMap_iff hp (by decide) (by decide) (by decide) (by decide)
    (.of_base hp (by decide)) (by decide) (by decide) (by decide) henough).mpr
      ⟨by decide, smallBoot_pagesApart⟩

/-- The machine with its read-only image ending within a page. -/
def unalignedBoot : BootInfo := { smallBoot with kernelReadonlyEnd := 0x80000800 }

/-- The data behind `__rodata_end` lies in an executable page that cannot be written. -/
theorem kernel_data_not_writable :
    ∃ h p m, mmInit unalignedBoot (fun _ => 0#8) (fun _ => ⟨0, 0, 0⟩) = some h ∧
      vmmInit unalignedBoot 0x80001000 h.pmm h.mem 32 = .returned (p, m) ∧
      vmmLeaf p m 0x80001000 0x80000800 = some (leafEntry 0x80000000 pageKernelExec) ∧
      ¬ KernelMap unalignedBoot p m 0x80001000 := by
  have hall : ((mmInit unalignedBoot (fun _ => 0#8) (fun _ => ⟨0, 0, 0⟩)).bind fun h =>
      (vmmInit unalignedBoot 0x80001000 h.pmm h.mem 32).result.map fun r =>
        vmmLeaf r.1 r.2 0x80001000 0x80000800) =
      some (some (leafEntry 0x80000000 pageKernelExec)) := by decide +kernel
  obtain ⟨h, hinit, hrest⟩ := Option.bind_eq_some_iff.mp hall
  obtain ⟨⟨p, m⟩, hvmm, hleaf⟩ := Option.map_eq_some_iff.mp hrest
  refine ⟨h, p, m, hinit, Outcome.result_eq_some.mp hvmm, hleaf, fun hmap => ?_⟩
  obtain ⟨_, pte, hpte, _, hwrite, _⟩ := hmap.data 0x80000800 (by decide) (by decide)
  rw [hleaf] at hpte
  rw [← Option.some.inj hpte] at hwrite
  exact hwrite (by decide)

end Vectra

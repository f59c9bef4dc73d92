import Vectra.Arm64.Pool

/-!
# The ASIDs of the live roots

Creating a root takes a block, a frame and an ASID, in this order, and a
creation that fails gives back what it has taken. The ASIDs of the live roots
are distinct, and exactly they are in use.
-/

namespace Vectra.Arm64

open Lib

/-- The first tables of the roots are empty. -/
def EmptyRoots (k : Pool) : Prop :=
  ∀ r ∈ k.roots, ∀ i, tableEntry k.heap.mem (k.ttbr0Phys r) i = 0

namespace PoolInv

variable {booted : ℕ → Prop} {B T : List ℕ} {k k' : Pool} {r t : ℕ}

theorem emptyRoots (h : PoolInv booted B T k) (hempty : EmptyRoots k) (hroots : SameRoots k k')
    (htables : SameTables k k') : EmptyRoots k' := by
  intro r hr i
  rw [hroots.roots] at hr
  rw [(hroots.root r hr).ttbr0Phys, htables.entry (h.root_table hr)]
  exact hempty r hr i

/-- A table without entries is released alone. -/
theorem freeTableRecursive_empty (hempty : ∀ i, tableEntry k.heap.mem t i = 0) (n : ℕ) :
    Pool.freeTableRecursive n t k = k.freeTablePage t := by
  cases n with
  | zero => rfl
  | succ n =>
      rw [Pool.freeTableRecursive, List.foldl_fixed']
      intro i
      rw [hempty i, if_neg]
      rintro ⟨hvalid, _⟩
      exact hvalid rfl

/-- A creation that fails takes nothing; one that succeeds makes an empty root. -/
theorem create (h : PoolInv booted B [] k) (hempty : EmptyRoots k)
    (hs : k.archPagetableCreate = some (r, k')) :
    (r = 0 ∧ PoolInv booted B [] k' ∧ EmptyRoots k' ∧ k'.asidUsed = k.asidUsed ∧
      k'.blocks = k.blocks ∧ k'.tables = k.tables) ∨
    (r ≠ 0 ∧ PoolInv booted B [] { k' with roots := r :: k'.roots } ∧
      EmptyRoots { k' with roots := r :: k'.roots }) := by
  obtain ⟨q, k₁, hblock, hcases⟩ := create_cases hs
  rcases h.kmalloc hblock with ⟨rfl, rfl⟩ |
    ⟨hq, h₁, hroots₁, hkeep₁, hsize₁, hblocks₁, htables₁, _⟩
  · obtain ⟨_, rfl, rfl⟩ | ⟨hne, _⟩ := hcases
    · exact Or.inl ⟨rfl, h, hempty, rfl, rfl, rfl⟩
    · exact absurd rfl hne
  obtain ⟨hzero, _⟩ | ⟨_, t, k₂, htable, hcases⟩ := hcases
  · exact absurd hzero hq
  have hempty₁ := h.emptyRoots hempty hroots₁ hkeep₁
  rcases h₁.allocTablePage htable with
    ⟨rfl, rfl⟩ | ⟨ht, h₂, hroots₂, hkeep₂, hzero, hsizes, htables₂, hblocks₂, _⟩
  · obtain ⟨_, rfl, rfl⟩ | ⟨hne, _⟩ := hcases
    · obtain ⟨h₃, hroots₃, hkeep₃, _⟩ := h₁.kfreeSized hsize₁
      refine Or.inl ⟨rfl, h₃, h₁.emptyRoots hempty₁ hroots₃ hkeep₃,
        hroots₃.asidUsed.trans hroots₁.asidUsed, ?_, htables₁⟩
      unfold Pool.kfreeSized
      rw [hblocks₁, List.erase_cons_head]
    · exact absurd rfl hne
  obtain ⟨hnull, _⟩ | ⟨_, hcases⟩ := hcases
  · exact absurd hnull ht
  have hempty₂ := h₁.emptyRoots hempty₁ hroots₂ hkeep₂
  have hsize₂ : k₂.heap.blockSize q = pagetableRootSize := by
    rw [hsizes q (by rw [hblocks₁]; exact List.mem_cons_self), hsize₁]
  rcases hcases with ⟨_, rfl, rfl⟩ | ⟨a, used, hasid, rfl, rfl⟩
  · obtain ⟨h₃, hroots₃⟩ := h₂.freeTablePage
    obtain ⟨h₄, hroots₄, hkeep₄, _⟩ := h₃.kfreeSized hsize₂
    have hempty₃ := h₂.emptyRoots hempty₂ hroots₃ fun _ _ _ _ _ => rfl
    refine Or.inl ⟨rfl, h₄, h₃.emptyRoots hempty₃ hroots₄ hkeep₄, ?_, ?_, ?_⟩
    · rw [hroots₄.asidUsed, hroots₃.asidUsed, hroots₂.asidUsed, hroots₁.asidUsed]
    · unfold Pool.kfreeSized Pool.freeTablePage
      rw [hblocks₂, hblocks₁, List.erase_cons_head]
    · unfold Pool.kfreeSized Pool.freeTablePage
      rw [htables₂, htables₁, List.erase_cons_head]
  · obtain ⟨h₃, hroots₃, hkeep₃, httbr, _⟩ := h₂.newRoot hsize₂ hasid
    refine Or.inr ⟨hq, h₃, ?_⟩
    intro p hp i
    rcases List.mem_cons.mp hp with rfl | hp
    · change tableEntry _ ((k₂.setRoot p t a).ttbr0Phys p) i = 0
      rw [httbr, ← hzero i]
      exact hkeep₃.entry (by rw [htables₂]; exact List.mem_cons_self) i
    · exact h₂.emptyRoots hempty₂ hroots₃ hkeep₃ p hp i

theorem destroy (h : PoolInv booted B [] k) (hempty : EmptyRoots k) (hr : r ∈ k.roots) :
    PoolInv booted B [] { k.archPagetableDestroy r with roots := k.roots.erase r } ∧
      EmptyRoots { k.archPagetableDestroy r with roots := k.roots.erase r } := by
  have hdrop := h.dropRoot hr
  have hempty₁ : EmptyRoots { k with
      asidUsed := asidFree k.asidUsed (k.asid r), roots := k.roots.erase r } :=
    fun q hq i => hempty q (List.mem_of_mem_erase hq) i
  obtain ⟨h₂, hroots₂⟩ := hdrop.freeTablePage
  have hempty₂ := hdrop.emptyRoots hempty₁ hroots₂ fun _ _ _ _ _ => rfl
  obtain ⟨h₃, hroots₃, hkeep₃, _⟩ := h₂.kfreeSized (h.size r hr)
  have heq : { k.archPagetableDestroy r with roots := k.roots.erase r } =
      (({ k with asidUsed := asidFree k.asidUsed (k.asid r), roots := k.roots.erase r } :
        Pool).freeTablePage (k.ttbr0Phys r)).kfreeSized r pagetableRootSize := by
    unfold Pool.archPagetableDestroy
    rw [freeTableRecursive_empty (hempty r hr)]
    rfl
  rw [heq]
  exact ⟨h₃, h₂.emptyRoots hempty₂ hroots₃ hkeep₃⟩

/-- The pool is exhausted only when 255 roots are live. -/
theorem length_of_exhausted (h : PoolInv booted B T k) (hnone : asidAlloc k.asidUsed = none) :
    k.roots.length = 255 := by
  have hall : ∀ i, 1 ≤ i → i < 256 → k.asidUsed i = true := by
    intro i hlo hhi
    have hset := firstFrom_eq_none_iff.mp (Option.map_eq_none_iff.mp hnone) i hlo
      (by unfold asidPoolSize; omega)
    simpa using hset
  have hset : (k.roots.map k.asid).toFinset = Finset.Ico 1 256 := by
    ext i
    rw [List.mem_toFinset, List.mem_map, Finset.mem_Ico]
    constructor
    · rintro ⟨r, hr, rfl⟩
      exact h.asid r hr
    · rintro ⟨hlo, hhi⟩
      exact (h.used i).mp (hall i hlo hhi)
  have hcard := List.toFinset_card_of_nodup h.distinct
  rw [hset, List.length_map, Nat.card_Ico] at hcard
  exact hcard.symm

theorem allocTablePage_returns (h : PoolInv booted B T k)
    (hleft : ∃ j < k.heap.pmm.totalFrames, k.heap.pmm.used j = false) :
    ∃ t k', k.allocTablePage = some (t, k') ∧ t ≠ 0 := by
  obtain ⟨slack, o, hi⟩ := h.heap
  have hp := hi.caches.pmm
  have hbase := hi.caches.base_pos
  obtain ⟨j, hj, hclear⟩ := hleft
  rcases hp.allocFrame_cases with ⟨_, _, hall⟩ | ⟨_, hall⟩ | ⟨f, hf, _, halloc⟩
  · rw [hall j hj] at hclear
    cases hclear
  · rw [hall j hj] at hclear
    cases hclear
  · have hne : k.heap.pmm.frameAddr f ≠ 0 := by
      have hbound := (frameAddr_room hp hf).2
      omega
    refine ⟨k.heap.pmm.frameAddr f, { k with
      heap := { k.heap with
        pmm := takeFrame k.heap.pmm f
        mem := fill k.heap.mem (k.heap.pmm.frameAddr f) 0#8 pageSize }
      tables := k.heap.pmm.frameAddr f :: k.tables }, ?_, hne⟩
    unfold Pool.allocTablePage Arm64.allocTablePage
    simp [halloc, hne]

/-- With room for a root and for its table, a creation returns, and fails only when the pool is
exhausted. -/
theorem create_returns (h : PoolInv booted B [] k) (hroom : k.MemoryAvailable) :
    ∃ r k', k.archPagetableCreate = some (r, k') ∧ (r = 0 → k.roots.length = 255) := by
  obtain ⟨slack, o, hi⟩ := h.heap
  have hpos : 1 ≤ k.heap.pmm.clearFrames.card := by
    rcases hroom with htwo | ⟨_, hone⟩
    · omega
    · exact hone
  obtain ⟨i, hmem⟩ := Finset.card_pos.mp hpos
  rw [Pmm.mem_clearFrames] at hmem
  obtain ⟨q, g, hk, hq, hpmm⟩ := hi.kmalloc_returns (b := 0) (by decide : pagetableRootSize ≠ 0) rfl
    (Or.inr ⟨i, hmem⟩)
  have hblock : k.kmalloc pagetableRootSize =
      some (q, { k with heap := g, blocks := q :: k.blocks }) := by
    unfold Pool.kmalloc
    rw [hk, Option.map_some, if_neg hq]
  set k₁ : Pool := { k with heap := g, blocks := q :: k.blocks } with hk₁
  obtain ⟨hzero, _⟩ | ⟨_, h₁, hroots₁, _⟩ := h.kmalloc hblock
  · exact absurd hzero hq
  -- the root has left a frame for the table
  have hleft : ∃ j < g.pmm.totalFrames, g.pmm.used j = false := by
    have hcard : 1 ≤ g.pmm.clearFrames.card := by
      rcases hpmm with hsame | ⟨hslot, j, hj, hclear, htake⟩
      · rw [hsame]
        exact hpos
      · have hdrop := PmmInv.clearFrames_take (t := takeFrame k.heap.pmm j) hj hclear rfl
          (takeFrame_used _ _)
        rw [htake]
        rcases hroom with htwo | ⟨hfree, _⟩
        · omega
        · exact absurd hslot hfree
    obtain ⟨j, hj⟩ := Finset.card_pos.mp hcard
    exact ⟨j, (Pmm.mem_clearFrames _ _).mp hj⟩
  obtain ⟨t, k₂, htable, ht⟩ := h₁.allocTablePage_returns hleft
  obtain ⟨hzero, _⟩ | ⟨_, _, hroots₂, _⟩ := h₁.allocTablePage htable
  · exact absurd hzero ht
  unfold Pool.archPagetableCreate
  simp only [hblock, hq, if_false, htable, ht]
  cases hasid : asidAlloc k₂.asidUsed with
  | none =>
      refine ⟨_, _, rfl, fun _ => h.length_of_exhausted ?_⟩
      rw [← hroots₁.asidUsed, ← hroots₂.asidUsed]
      exact hasid
  | some c => exact ⟨_, _, rfl, fun hzero => absurd hzero hq⟩

end PoolInv

/-! ## Runs -/

inductive RootOp
  | create (root : ℕ)
  | destroy (root : ℕ)
  deriving DecidableEq

/-- A call that returns; `destroy` is called on live roots only. -/
def RootStep (k : Pool) (op : RootOp) (k' : Pool) : Prop :=
  match op with
  | .create r => ∃ u, k.archPagetableCreate = some (r, u) ∧
      k' = if r = 0 then u else { u with roots := r :: u.roots }
  | .destroy r => r ∈ k.roots ∧ k' = { k.archPagetableDestroy r with roots := k.roots.erase r }

/-- What holds of the pool: the ASIDs of the live roots are distinct and exactly those in use, the
heap and the frames hold the roots and their tables beside what they held at boot, and
a creation that fails leaves all of it alone. -/
structure PoolOk (booted : ℕ → Prop) (blocks : List ℕ) (k : Pool) : Prop where
  distinct : (k.roots.map k.asid).Nodup
  range : ∀ r ∈ k.roots, 1 ≤ k.asid r ∧ k.asid r ≤ 255
  used : ∀ i, k.asidUsed i = true ↔ ∃ r ∈ k.roots, k.asid r = i
  layout : ∃ pages free, HeapLayout (k.Reserved booted) k.heap k.blocks pages free
  blocks : k.blocks.Perm (k.roots ++ blocks)
  tables : k.tables.Perm (k.roots.map k.ttbr0Phys)
  failed : ∀ k', k.archPagetableCreate = some (0, k') →
    k'.asidUsed = k.asidUsed ∧ k'.blocks = k.blocks ∧ k'.tables = k.tables
  returns : k.MemoryAvailable → ∃ r k', k.archPagetableCreate = some (r, k') ∧
    (r = 0 → k.roots.length = 255)

namespace PoolInv

variable {booted : ℕ → Prop} {B : List ℕ} {k k' : Pool} {op : RootOp}

theorem step (h : PoolInv booted B [] k) (hempty : EmptyRoots k) (hs : RootStep k op k') :
    PoolInv booted B [] k' ∧ EmptyRoots k' := by
  cases op with
  | create r =>
      obtain ⟨u, hcreate, rfl⟩ := hs
      rcases h.create hempty hcreate with ⟨rfl, hu, hempty', _⟩ | ⟨hne, hu⟩
      · rw [if_pos rfl]
        exact ⟨hu, hempty'⟩
      · rw [if_neg hne]
        exact hu
  | destroy r =>
      obtain ⟨hr, rfl⟩ := hs
      exact h.destroy hempty hr

theorem ok (h : PoolInv booted B [] k) (hempty : EmptyRoots k) : PoolOk booted B k := by
  obtain ⟨slack, o, hi⟩ := h.heap
  refine ⟨h.distinct, fun r hr => ?_, h.used, ⟨o.pages, o.free, hi.layout⟩, h.blocks, ?_, ?_,
    h.create_returns⟩
  · obtain ⟨hlo, hhi⟩ := h.asid r hr
    unfold asidPoolSize at hhi
    omega
  · simpa using h.tables
  · intro k' hs
    rcases h.create hempty hs with ⟨_, _, _, hused, hblocks, htables⟩ | ⟨hne, _⟩
    · exact ⟨hused, hblocks, htables⟩
    · exact absurd rfl hne

end PoolInv

/-- In every run of creations and destructions, on a heap and frames left by any runs of their
own, the ASID pool, the heap and the frames hold exactly the live roots. -/
theorem asid_pool_run {b b' : BootHeap} {bootMem mem : Bytes} {base size : ℕ} {s p : Pmm}
    {cacheAt : ℕ → SlabCache} {pmmOps : List (PmmOp × ℕ)} {h : Heap}
    {ops : List (KheapOp × ℕ)} {t : Heap × List ℕ} {es : List RootOp} {k : Pool} (hbase : 0 < base)
    (halign : base % pageSize = 0) (hwrap : base + size < 2 ^ 64)
    (hinit : pmmInit Pmm.boot b bootMem base size = some (s, b'))
    (hpmm : Run PmmStep s pmmOps p) (hheap : kheapInit (Heap.boot mem cacheAt p) = some h)
    (hkheap : Run KheapStep (h, []) ops t) (hrun : Run RootStep (.boot t.1 t.2) es k) :
    PoolOk (fun j => p.used j = true) t.2 k := by
  obtain ⟨slack, o, hi⟩ := kheap_run_inv hbase halign hwrap hinit hpmm hheap hkheap
  obtain ⟨hk, hempty⟩ := hrun.invariant
    (I := fun k => PoolInv (fun j => p.used j = true) t.2 [] k ∧ EmptyRoots k)
    (fun _ _ _ ⟨hk, hempty⟩ hstep => hk.step hempty hstep)
    ⟨PoolInv.boot hi, by simp [EmptyRoots, Pool.boot]⟩
  exact hk.ok hempty

theorem asid_pool_run_one_root :
    ∃ h k, kheapInit smallHeap = some h ∧
      Run RootStep (.boot h []) [.create 0x41fe0, .destroy 0x41fe0] k ∧
      PoolOk (fun j => (pmmFreeRegion smallPmm 0x40000 0x10000).used j = true) [] k := by
  have heval : (kheapInit smallHeap >>= fun h => (Pool.boot h []).archPagetableCreate >>= fun a =>
      some a.1) = some 0x41fe0 := by decide +kernel
  obtain ⟨h, hheap, hrest⟩ := Option.bind_eq_some_iff.mp heval
  obtain ⟨⟨r, u⟩, hcreate, hr⟩ := Option.bind_eq_some_iff.mp hrest
  cases hr
  have hrun : Run RootStep (.boot h []) [.create 0x41fe0, .destroy 0x41fe0] _ :=
    .cons (u := { u with roots := 0x41fe0 :: u.roots }) ⟨u, hcreate, rfl⟩
      (.cons ⟨List.mem_cons_self, rfl⟩ (.nil _))
  exact ⟨h, _, hheap, hrun, asid_pool_run (by decide) (by decide) (by decide) smallPmm_init
    smallHeap_frames hheap (.nil _) hrun⟩

end Vectra.Arm64

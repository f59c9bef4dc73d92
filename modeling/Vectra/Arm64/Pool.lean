import Vectra.Arm64.Operations
import Vectra.Mm.KheapFrames

/-!
# Roots, ASIDs and what they are made of

A root is a block of the kernel heap that holds the frame of its first table and
its ASID. The heap, the tables and the ASIDs share the frames, and each function
leaves the roots and the tables that it does not work on as they are.
-/

namespace Vectra.Arm64

open Lib

/-- `sizeof(pagetable_root_t)`. -/
def pagetableRootSize : ℕ := 16

/-- The kernel heap and the ASID pool, with the blocks that `kmalloc` has handed out, the frames
that `alloc_table_page` has, and the roots that are live. -/
structure Pool where
  heap : Heap
  asidUsed : ℕ → Bool
  blocks : List ℕ
  tables : List ℕ
  roots : List ℕ

namespace Pool

def kmalloc (k : Pool) (size : ℕ) : Option (ℕ × Pool) :=
  (Vectra.kmalloc k.heap size).map fun a =>
    (a.1, { k with heap := a.2, blocks := if a.1 = 0 then k.blocks else a.1 :: k.blocks })

def kfreeSized (k : Pool) (ptr size : ℕ) : Pool :=
  { k with heap := Vectra.kfreeSized k.heap ptr size, blocks := k.blocks.erase ptr }

def allocTablePage (k : Pool) : Option (ℕ × Pool) :=
  (Arm64.allocTablePage k.heap.pmm k.heap.mem).map fun a =>
    (a.1, { k with
      heap := { k.heap with pmm := a.2.1, mem := a.2.2 }
      tables := if a.1 = 0 then k.tables else a.1 :: k.tables })

def freeTablePage (k : Pool) (phys : ℕ) : Pool :=
  { k with
    heap := { k.heap with pmm := pmmFreeFrame k.heap.pmm phys }
    tables := k.tables.erase phys }

/-- `root->ttbr0_phys` and `root->asid`. -/
def ttbr0Phys (k : Pool) (root : ℕ) : ℕ := readLE k.heap.mem root 8

def asid (k : Pool) (root : ℕ) : ℕ := readLE k.heap.mem (root + 8) 2

/-- The stores of `arch_pagetable_create` into a new root. -/
def setRoot (k : Pool) (root l0Phys asid : ℕ) : Pool :=
  { k with heap := { k.heap with
      mem := writeLE (writeLE k.heap.mem root 8 l0Phys) (root + 8) 2 asid } }

/-- `arch_pagetable_create`, with 0 for `NULL`; the result is `none` on a panic. -/
def archPagetableCreate (k : Pool) : Option (ℕ × Pool) :=
  match k.kmalloc pagetableRootSize with
  | none => none
  | some (root, k) =>
      if root = 0 then some (0, k)
      else
        match k.allocTablePage with
        | none => none
        | some (l0Phys, k) =>
            if l0Phys = 0 then some (0, k.kfreeSized root pagetableRootSize)
            else
              match asidAlloc k.asidUsed with
              | none => some (0, (k.freeTablePage l0Phys).kfreeSized root pagetableRootSize)
              | some (asid, used) => some
                  (root, { k.setRoot root l0Phys asid with asidUsed := used })

/-- `free_table_recursive` on a table with `n` levels below it. -/
def freeTableRecursive : ℕ → ℕ → Pool → Pool
  | 0, table, k => k.freeTablePage table
  | n + 1, table, k =>
      ((List.finRange 512).foldl (fun k i =>
        if tableEntry k.heap.mem table i &&& pteValid ≠ 0 ∧
            tableEntry k.heap.mem table i &&& pteTable ≠ 0 then
          freeTableRecursive n (tableEntry k.heap.mem table i &&& pteAddrMask) k
        else k) k).freeTablePage table

def archPagetableDestroy (k : Pool) (root : ℕ) : Pool :=
  let k := freeTableRecursive (ptLevels - 1) (k.ttbr0Phys root) k
  let k := { k with asidUsed := asidFree k.asidUsed (k.asid root) }
  k.kfreeSized root pagetableRootSize

/-- The frames that the heap must leave alone: those in use at boot, and the tables. -/
def Reserved (k : Pool) (booted : ℕ → Prop) (j : ℕ) : Prop :=
  booted j ∨ k.heap.pmm.frameAddr j ∈ k.tables

/-- Room for a root and for its first table: two free frames, or one and a free slot. -/
def MemoryAvailable (k : Pool) : Prop :=
  2 ≤ k.heap.pmm.clearFrames.card ∨
    ((k.heap.cache 0).freeObjects ≠ 0 ∧ 1 ≤ k.heap.pmm.clearFrames.card)

/-- The pool before the first root, with the blocks that the heap has handed out by then. -/
def boot (h : Heap) (blocks : List ℕ) : Pool := ⟨h, fun _ => false, blocks, [], []⟩

end Pool

/-- Apart from `B` and `T`, the blocks and the tables are those of the roots, and the pool holds
the ASIDs of the roots. The tables below the first tables of the roots are in `T`. -/
structure PoolInv (booted : ℕ → Prop) (B T : List ℕ) (k : Pool) : Prop where
  heap : ∃ slack o, HeapInv slack (k.Reserved booted) k.heap k.blocks o
  blocks : k.blocks.Perm (k.roots ++ B)
  tables : k.tables.Perm (k.roots.map k.ttbr0Phys ++ T)
  nodup : k.tables.Nodup
  frame : ∀ t ∈ k.tables, ∃ f < k.heap.pmm.totalFrames, t = k.heap.pmm.frameAddr f ∧ ¬ booted f
  size : ∀ r ∈ k.roots, k.heap.blockSize r = pagetableRootSize
  asid : ∀ r ∈ k.roots, 1 ≤ k.asid r ∧ k.asid r < asidPoolSize
  distinct : (k.roots.map k.asid).Nodup
  used : ∀ i, k.asidUsed i = true ↔ ∃ r ∈ k.roots, k.asid r = i

/-- What a root consists of is what it was. -/
structure SameRoot (k k' : Pool) (r : ℕ) : Prop where
  size : k'.heap.blockSize r = k.heap.blockSize r
  ttbr0Phys : k'.ttbr0Phys r = k.ttbr0Phys r
  asid : k'.asid r = k.asid r

/-- The roots and the ASID pool are what they were. -/
structure SameRoots (k k' : Pool) : Prop where
  range : SameRange k.heap.pmm k'.heap.pmm
  roots : k'.roots = k.roots
  asidUsed : k'.asidUsed = k.asidUsed
  root : ∀ r ∈ k.roots, SameRoot k k' r

/-- The tables keep their bytes. -/
def SameTables (k k' : Pool) : Prop :=
  ∀ t ∈ k.tables, ∀ y, t ≤ y → y < t + pageSize → k'.heap.mem y = k.heap.mem y

theorem SameRoots.refl (k : Pool) : SameRoots k k :=
  ⟨SameRange.refl _, rfl, rfl, fun _ _ => ⟨rfl, rfl, rfl⟩⟩

theorem SameRoots.trans {k k' k'' : Pool} (h : SameRoots k k') (h' : SameRoots k' k'') :
    SameRoots k k'' where
  range := h.range.trans h'.range
  roots := h'.roots.trans h.roots
  asidUsed := h'.asidUsed.trans h.asidUsed
  root := by
    intro r hr
    have hmid := h'.root r (by rw [h.roots]; exact hr)
    have hold := h.root r hr
    exact ⟨hmid.size.trans hold.size, hmid.ttbr0Phys.trans hold.ttbr0Phys,
      hmid.asid.trans hold.asid⟩

theorem SameTables.trans {k k' k'' : Pool} (h : SameTables k k') (h' : SameTables k' k'')
    (htables : ∀ t ∈ k.tables, t ∈ k'.tables) : SameTables k k'' := by
  intro t ht y hlo hhi
  rw [h' t (htables t ht) y hlo hhi]
  exact h t ht y hlo hhi

theorem SameTables.entry {k k' : Pool} (h : SameTables k k') {t : ℕ} (ht : t ∈ k.tables)
    (i : Fin 512) : tableEntry k'.heap.mem t i = tableEntry k.heap.mem t i :=
  tableEntry_congr (h t ht)

namespace PoolInv

variable {booted : ℕ → Prop} {B T : List ℕ} {k k' : Pool} {r t : ℕ}

theorem boot {slack : ℕ} {h : Heap} {blocks : List ℕ} {o : Ownership}
    (hi : HeapInv slack booted h blocks o) : PoolInv booted blocks [] (.boot h blocks) := by
  refine ⟨⟨slack, o, hi.reserved_congr fun j _ => ?_⟩, List.Perm.refl _, List.Perm.refl _,
    List.nodup_nil, ?_, ?_, ?_, List.nodup_nil, ?_⟩
  · simp [Pool.Reserved, Pool.boot]
  all_goals simp [Pool.boot]

theorem root_block (h : PoolInv booted B T k) (hr : r ∈ k.roots) : r ∈ k.blocks :=
  h.blocks.mem_iff.mpr (List.mem_append_left _ hr)

theorem root_table (h : PoolInv booted B T k) (hr : r ∈ k.roots) : k.ttbr0Phys r ∈ k.tables :=
  h.tables.mem_iff.mpr (List.mem_append_left _ (List.mem_map_of_mem hr))

theorem congr_tables {T' : List ℕ} (h : PoolInv booted B T k) (hperm : T.Perm T') :
    PoolInv booted B T' k :=
  { h with tables := h.tables.trans (hperm.append_left _) }

/-- A table is a reserved frame. -/
theorem table_frame (h : PoolInv booted B T k) (ht : t ∈ k.tables) :
    ∃ f < k.heap.pmm.totalFrames, t = k.heap.pmm.frameAddr f ∧ k.Reserved booted f := by
  obtain ⟨f, hf, heq, _⟩ := h.frame t ht
  exact ⟨f, hf, heq, Or.inr (heq ▸ ht)⟩

/-- Roots whose blocks keep their bytes. -/
theorem sameRoots (h : PoolInv booted B T k) (hrange : SameRange k.heap.pmm k'.heap.pmm)
    (hroots : k'.roots = k.roots) (hused : k'.asidUsed = k.asidUsed)
    (hblock : ∀ r ∈ k.roots, ∀ y, InBlock k.heap r y → k'.heap.mem y = k.heap.mem y) :
    SameRoots k k' := by
  refine ⟨hrange, hroots, hused, fun r hr => ?_⟩
  obtain ⟨slack, o, hi⟩ := h.heap
  have hsize := h.size r hr
  unfold pagetableRootSize at hsize
  have hin : ∀ y, r ≤ y → y < r + 16 → k'.heap.mem y = k.heap.mem y := by
    intro y hlo hhi
    exact hblock r hr y ⟨by omega, by omega⟩
  refine ⟨hi.inBlock_congr (h.root_block hr) fun y hlo hhi => hblock r hr y ⟨hlo, by omega⟩,
    ?_, ?_⟩
  · exact readLE_congr fun y hlo hhi => hin y (by omega) (by omega)
  · exact readLE_congr fun y hlo hhi => hin y (by omega) (by omega)

/-- The invariant after a step that keeps the roots, whatever it does to the other blocks and
tables. -/
theorem of_same {booted' : ℕ → Prop} {B' T' : List ℕ} (h : PoolInv booted B T k)
    (hsame : SameRoots k k')
    (hheap : ∃ slack o, HeapInv slack (k'.Reserved booted') k'.heap k'.blocks o)
    (hblocks : k'.blocks.Perm (k.roots ++ B'))
    (htables : k'.tables.Perm (k.roots.map k.ttbr0Phys ++ T')) (hnodup : k'.tables.Nodup)
    (hframe : ∀ t ∈ k'.tables, ∃ f < k'.heap.pmm.totalFrames,
      t = k'.heap.pmm.frameAddr f ∧ ¬ booted' f) : PoolInv booted' B' T' k' := by
  have htt : k'.roots.map k'.ttbr0Phys = k.roots.map k.ttbr0Phys := by
    rw [hsame.roots]
    exact List.map_congr_left fun r hr => (hsame.root r hr).ttbr0Phys
  have has : k'.roots.map k'.asid = k.roots.map k.asid := by
    rw [hsame.roots]
    exact List.map_congr_left fun r hr => (hsame.root r hr).asid
  refine ⟨hheap, by rw [hsame.roots]; exact hblocks, by rw [htt]; exact htables, hnodup, hframe,
    ?_, ?_, by rw [has]; exact h.distinct, ?_⟩
  · intro r hr
    rw [hsame.roots] at hr
    rw [(hsame.root r hr).size]
    exact h.size r hr
  · intro r hr
    rw [hsame.roots] at hr
    rw [(hsame.root r hr).asid]
    exact h.asid r hr
  · intro i
    rw [hsame.asidUsed, h.used i, hsame.roots]
    constructor
    · rintro ⟨r, hr, rfl⟩
      exact ⟨r, hr, (hsame.root r hr).asid⟩
    · rintro ⟨r, hr, rfl⟩
      exact ⟨r, hr, ((hsame.root r hr).asid).symm⟩

/-! ## Taking and giving -/

theorem kmalloc_some {size : ℕ} (hs : k.kmalloc size = some (r, k')) :
    ∃ g, Vectra.kmalloc k.heap size = some (r, g) ∧
      k' = { k with heap := g, blocks := if r = 0 then k.blocks else r :: k.blocks } := by
  obtain ⟨⟨q, g⟩, hk, heq⟩ := Option.map_eq_some_iff.mp hs
  obtain ⟨rfl, rfl⟩ := Prod.mk.inj heq
  exact ⟨g, hk, rfl⟩

theorem allocTablePage_eq (hs : k.allocTablePage = some (t, k')) :
    ∃ p m, Arm64.allocTablePage k.heap.pmm k.heap.mem = some (t, p, m) ∧
      k' = { k with
        heap := { k.heap with pmm := p, mem := m }
        tables := if t = 0 then k.tables else t :: k.tables } := by
  obtain ⟨⟨a, p, m⟩, ha, heq⟩ := Option.map_eq_some_iff.mp hs
  obtain ⟨rfl, rfl⟩ := Prod.mk.inj heq
  exact ⟨p, m, ha, rfl⟩

/-- `kmalloc` of a root takes at most one frame, and none where a slot is free. -/
theorem kmalloc (h : PoolInv booted B T k) (hs : k.kmalloc pagetableRootSize = some (r, k')) :
    (r = 0 ∧ k' = k) ∨ (r ≠ 0 ∧ PoolInv booted (r :: B) T k' ∧ SameRoots k k' ∧ SameTables k k' ∧
      k'.heap.blockSize r = pagetableRootSize ∧ k'.blocks = r :: k.blocks ∧
      k'.tables = k.tables ∧
      (k'.heap.pmm = k.heap.pmm ∨ (k.heap.cache 0).freeObjects = 0 ∧
        ∃ i < k.heap.pmm.totalFrames, k.heap.pmm.used i = false ∧
          k'.heap.pmm = takeFrame k.heap.pmm i)) := by
  obtain ⟨slack, o, hi⟩ := h.heap
  have hbucket : getBucketIndex pagetableRootSize = some 0 := rfl
  obtain ⟨g, hk, hk'⟩ := kmalloc_some hs
  rcases hi.kmalloc (by decide) hk with ⟨rfl, rfl⟩ | ⟨hne, o', hi', hsize⟩
  · exact Or.inl ⟨rfl, hk'⟩
  · right
    have hrange := hi.kmalloc_range hbucket hk hne
    have hframes := hi.kmalloc_frames hbucket hk hne
    rw [if_neg hne] at hk'
    subst hk'
    have hroots : SameRoots k { k with heap := g, blocks := r :: k.blocks } :=
      h.sameRoots hrange rfl rfl fun p hp y hy =>
        hi.kmalloc_block hbucket hk hne hi' (h.root_block hp) hy
    refine ⟨hne, ?_, hroots, ?_, hsize, rfl, rfl, hframes⟩
    · refine h.of_same hroots ⟨slack, o', hi'.reserved_congr ?_⟩ ?_ h.tables h.nodup ?_
      · intro j _
        unfold Pool.Reserved
        rw [hrange.frameAddr]
      · exact (h.blocks.cons r).trans List.perm_middle.symm
      · intro t ht
        obtain ⟨f, hf, heq, hfree⟩ := h.frame t ht
        exact ⟨f, by rw [hrange.2]; exact hf, by rw [hrange.frameAddr]; exact heq, hfree⟩
    · intro t ht y hlo hhi
      obtain ⟨f, hf, rfl, hres⟩ := h.table_frame ht
      exact hi.kmalloc_frame hbucket hk hne hi' hrange hf hres hlo hhi

/-- `alloc_table_page` gives a free frame, zeroed. -/
theorem allocTablePage (h : PoolInv booted B T k) (hs : k.allocTablePage = some (t, k')) :
    (t = 0 ∧ k' = k) ∨ (t ≠ 0 ∧ PoolInv booted B (t :: T) k' ∧ SameRoots k k' ∧ SameTables k k' ∧
      (∀ i, tableEntry k'.heap.mem t i = 0) ∧
      (∀ q ∈ k.blocks, k'.heap.blockSize q = k.heap.blockSize q) ∧ k'.tables = t :: k.tables ∧
      k'.blocks = k.blocks ∧ ∃ f < k.heap.pmm.totalFrames, k.heap.pmm.used f = false ∧
        k.heap.pmm.frameAddr f = t ∧ k'.heap.pmm = takeFrame k.heap.pmm f) := by
  obtain ⟨slack, o, hi⟩ := h.heap
  obtain ⟨p, m, ha, hk'⟩ := allocTablePage_eq hs
  have hp := hi.caches.pmm
  have hbase := hi.caches.base_pos
  rcases allocTablePage_some hp ha with
    ⟨rfl, rfl, ⟨rfl, _⟩ | ⟨f, hf, _, hzero, _⟩⟩ | ⟨hne, f, hf, hclear, rfl, rfl, rfl⟩
  · exact Or.inl ⟨rfl, hk'⟩
  · have hroom := (frameAddr_room hp hf).2
    omega
  · right
    rw [if_neg hne] at hk'
    have hout : ∀ y, y < k.heap.pmm.frameAddr f ∨ k.heap.pmm.frameAddr f + pageSize ≤ y →
        fill k.heap.mem (k.heap.pmm.frameAddr f) 0#8 pageSize y = k.heap.mem y :=
      fun y hy => fill_out hy
    obtain ⟨o', hi'⟩ := hi.takeReserved hf hclear hout
    have hunbooted : ¬ booted f := by
      intro hb
      rw [hi.reserved_used hf (Or.inl hb)] at hclear
      cases hclear
    have hfresh : k.heap.pmm.frameAddr f ∉ k.tables := by
      intro ht
      rw [hi.reserved_used hf (Or.inr ht)] at hclear
      cases hclear
    have hblock : ∀ q ∈ k.blocks, ∀ y, InBlock k.heap q y →
        fill k.heap.mem (k.heap.pmm.frameAddr f) 0#8 pageSize y = k.heap.mem y :=
      fun q hq y hy => hout y (hi.off_free_of_inBlock hq hy hf hclear)
    subst hk'
    have hroots : SameRoots k { k with
        heap := { k.heap with
          pmm := takeFrame k.heap.pmm f
          mem := fill k.heap.mem (k.heap.pmm.frameAddr f) 0#8 pageSize }
        tables := k.heap.pmm.frameAddr f :: k.tables } :=
      h.sameRoots (takeFrame_sameRange _ _) rfl rfl fun q hq => hblock q (h.root_block hq)
    refine ⟨hne, ?_, hroots, ?_, ?_, ?_, rfl, rfl, f, hf, hclear, rfl, rfl⟩
    · refine h.of_same hroots ⟨slack, o', hi'.reserved_congr ?_⟩ h.blocks
        ((h.tables.cons _).trans List.perm_middle.symm) (List.nodup_cons.mpr ⟨hfresh, h.nodup⟩) ?_
      · intro j hj
        unfold Pool.Reserved
        rw [(takeFrame_sameRange k.heap.pmm f).frameAddr, List.mem_cons, frameAddr_inj hp hj hf,
          or_comm (a := j = f), or_assoc]
      · intro t ht
        rcases List.mem_cons.mp ht with rfl | ht
        · exact ⟨f, hf, rfl, hunbooted⟩
        · exact h.frame t ht
    · intro t ht y hlo hhi
      obtain ⟨g, hg, rfl, _⟩ := h.table_frame ht
      have hgf : g ≠ f := by
        rintro rfl
        exact hfresh ht
      have hsep := frameAddr_separate hp hg hf hgf
      exact hout y (by omega)
    · exact fun i => tableEntry_fill_self
    · intro q hq
      exact hi.inBlock_congr hq fun y hlo hhi => hblock q hq y ⟨hlo, by omega⟩

/-- `free_table_page` of a frame that is not the first table of a root. -/
theorem freeTablePage (h : PoolInv booted B (t :: T) k) :
    PoolInv booted B T (k.freeTablePage t) ∧ SameRoots k (k.freeTablePage t) := by
  obtain ⟨slack, o, hi⟩ := h.heap
  have ht : t ∈ k.tables := h.tables.mem_iff.mpr (by simp)
  obtain ⟨f, hf, rfl, hunbooted⟩ := h.frame t ht
  obtain ⟨o', hi'⟩ := hi.giveReserved hf (Or.inr ht)
  have hrange := (hi.caches.pmm.freeFrame (k.heap.pmm.frameAddr f)).2
  have herase : (k.tables.erase (k.heap.pmm.frameAddr f)).Perm (k.roots.map k.ttbr0Phys ++ T) := by
    have hperm := (h.tables.trans List.perm_middle).erase (k.heap.pmm.frameAddr f)
    rwa [List.erase_cons_head] at hperm
  have hroots : SameRoots k (k.freeTablePage (k.heap.pmm.frameAddr f)) :=
    ⟨hrange, rfl, rfl, fun _ _ => ⟨rfl, rfl, rfl⟩⟩
  refine ⟨?_, hroots⟩
  refine h.of_same hroots ⟨slack, o', hi'.reserved_congr ?_⟩ h.blocks herase (h.nodup.erase _) ?_
  · intro j hj
    have hj : j < k.heap.pmm.totalFrames := by
      rw [← hrange.2]
      exact hj
    unfold Pool.Reserved Pool.freeTablePage
    rw [hrange.frameAddr, h.nodup.mem_erase_iff, Ne, frameAddr_inj hi.caches.pmm hj hf]
    constructor
    · rintro (hb | ⟨hne, hmem⟩)
      · exact ⟨Or.inl hb, fun heq => hunbooted (heq ▸ hb)⟩
      · exact ⟨Or.inr hmem, hne⟩
    · rintro ⟨hb | hmem, hne⟩
      · exact Or.inl hb
      · exact Or.inr ⟨hne, hmem⟩
  · intro t ht
    obtain ⟨g, hg, heq, hfree⟩ := h.frame t (List.mem_of_mem_erase ht)
    exact ⟨g, by rw [← hrange.2] at hg; exact hg,
      by rw [heq]; exact (hrange.frameAddr g).symm, hfree⟩

/-- `kfree_sized` of a block of the size of a root that is not a root. -/
theorem kfreeSized (h : PoolInv booted (r :: B) T k)
    (hsize : k.heap.blockSize r = pagetableRootSize) :
    PoolInv booted B T (k.kfreeSized r pagetableRootSize) ∧
      SameRoots k (k.kfreeSized r pagetableRootSize) ∧
      SameTables k (k.kfreeSized r pagetableRootSize) ∧
      (k.kfreeSized r pagetableRootSize).heap.pmm = k.heap.pmm := by
  obtain ⟨slack, o, hi⟩ := h.heap
  have hr : r ∈ k.blocks := h.blocks.mem_iff.mpr (by simp)
  have hnot : r ∉ k.roots := by
    have hnodup := (h.blocks.trans List.perm_middle).nodup_iff.mp hi.nodup
    exact fun hmem => (List.nodup_cons.mp hnodup).1 (List.mem_append_left _ hmem)
  have hfree : Vectra.kfreeSized k.heap r pagetableRootSize = Vectra.kfree k.heap r := by
    rw [← hsize]
    exact hi.kfreeSized_eq hr
  obtain ⟨o', hi'⟩ := hi.kfree hr
  have hpmm : (Vectra.kfree k.heap r).pmm = k.heap.pmm := by
    rw [← hfree]
    exact HeapInv.kfreeSized_pmm rfl
  have hpool : k.kfreeSized r pagetableRootSize =
      { k with heap := Vectra.kfree k.heap r, blocks := k.blocks.erase r } := by
    unfold Pool.kfreeSized
    rw [hfree]
  have herase : (k.blocks.erase r).Perm (k.roots ++ B) := by
    have hperm := (h.blocks.trans List.perm_middle).erase r
    rwa [List.erase_cons_head] at hperm
  rw [hpool]
  have hroots : SameRoots k { k with
      heap := Vectra.kfree k.heap r
      blocks := k.blocks.erase r } :=
    h.sameRoots (by rw [hpmm]; exact SameRange.refl _) rfl rfl fun q hq y hy =>
      hi.kfree_block hr (h.root_block hq) (fun heq => hnot (heq ▸ hq)) hy
  refine ⟨?_, hroots, ?_, hpmm⟩
  · refine h.of_same hroots ⟨slack, o', hi'.reserved_congr ?_⟩ herase h.tables h.nodup ?_
    · intro j _
      unfold Pool.Reserved
      rw [hpmm]
    · intro t ht
      rw [hpmm]
      exact h.frame t ht
  · intro t ht y hlo hhi
    obtain ⟨f, hf, rfl, hres⟩ := h.table_frame ht
    exact hi.kfree_frame hr hf hres hlo hhi

/-! ## Roots come and go -/

/-- The stores into the block of a new root leave the roots and the tables alone. -/
theorem setRoot_same (h : PoolInv booted (r :: B) T k)
    (hsize : k.heap.blockSize r = pagetableRootSize) (l0Phys asid : ℕ) :
    PoolInv booted (r :: B) T (k.setRoot r l0Phys asid) ∧
      SameRoots k (k.setRoot r l0Phys asid) ∧ SameTables k (k.setRoot r l0Phys asid) ∧
      (k.setRoot r l0Phys asid).heap.blockSize r = pagetableRootSize ∧
      (k.setRoot r l0Phys asid).ttbr0Phys r = l0Phys % 2 ^ 64 ∧
      (k.setRoot r l0Phys asid).asid r = asid % 2 ^ 16 := by
  obtain ⟨slack, o, hi⟩ := h.heap
  have hr : r ∈ k.blocks := h.blocks.mem_iff.mpr (by simp)
  have hnot : r ∉ k.roots := by
    have hnodup := (h.blocks.trans List.perm_middle).nodup_iff.mp hi.nodup
    exact fun hmem => (List.nodup_cons.mp hnodup).1 (List.mem_append_left _ hmem)
  have hsixteen := hsize
  unfold pagetableRootSize at hsixteen
  have hmem : (k.setRoot r l0Phys asid).heap.mem =
    writeLE (writeLE k.heap.mem r 8 l0Phys) (r + 8) 2 asid := rfl
  have hout : ∀ y, y < r ∨ r + 16 ≤ y → (k.setRoot r l0Phys asid).heap.mem y = k.heap.mem y := by
    intro y hy
    rw [hmem, writeLE_out (by omega), writeLE_out (by omega)]
  have hi' : HeapInv slack (k.Reserved booted) (k.setRoot r l0Phys asid).heap k.blocks o := by
    refine hi.write hr fun y hy => hout y ?_
    rw [hsixteen] at hy
    exact hy
  have hroots : SameRoots k (k.setRoot r l0Phys asid) := by
    refine h.sameRoots (SameRange.refl _) rfl rfl fun q hq y hy => hout y ?_
    by_contra hin
    exact hi.layout.blocks_disjoint q (h.root_block hq) r hr (fun heq => hnot (heq ▸ hq)) y hy
      ⟨by omega, by omega⟩
  refine ⟨h.of_same hroots ⟨slack, o, hi'⟩ h.blocks h.tables h.nodup h.frame, hroots, ?_, ?_, ?_,
    ?_⟩
  · intro t ht y hlo hhi
    obtain ⟨g, hg, rfl, hres⟩ := h.table_frame ht
    refine hout y ?_
    by_contra hin
    have hoff := hi.block_off_frame (y := y) hr hg (Or.inr ((hi.reserved_iff g hg).mpr hres))
      ⟨by omega, by omega⟩
    omega
  · rw [← hsize]
    exact hi.inBlock_congr hr fun y _ hhi => hout y (Or.inl hhi)
  · unfold Pool.ttbr0Phys
    rw [hmem, readLE_writeLE_of_disjoint (by omega), readLE_writeLE_self]
    norm_num
  · unfold Pool.asid
    rw [hmem, readLE_writeLE_self]
    norm_num

/-- A block that names a table of its own and an ASID of the pool becomes a root. -/
theorem addRoot (h : PoolInv booted (r :: B) (k.ttbr0Phys r :: T) k) {used : ℕ → Bool}
    (hsize : k.heap.blockSize r = pagetableRootSize)
    (ha : asidAlloc k.asidUsed = some (k.asid r, used)) :
    PoolInv booted B T { k with asidUsed := used, roots := r :: k.roots } := by
  unfold asidAlloc at ha
  obtain ⟨i, hfirst, heq⟩ := Option.map_eq_some_iff.mp ha
  obtain ⟨rfl, rfl⟩ := Prod.mk.inj heq
  obtain ⟨hlo, hhi, hclear, _⟩ := firstFrom_sound hfirst
  unfold asidPoolSize at hhi
  have hfresh : ∀ q ∈ k.roots, k.asid q ≠ k.asid r := by
    intro q hq heq
    have hset := (h.used _).mpr ⟨q, hq, heq⟩
    rw [hset] at hclear
    cases hclear
  refine ⟨h.heap, h.blocks.trans List.perm_middle, h.tables.trans List.perm_middle, h.nodup,
    h.frame, ?_, ?_, ?_, ?_⟩
  · intro q hq
    rcases List.mem_cons.mp hq with rfl | hq
    · exact hsize
    · exact h.size q hq
  · intro q hq
    rcases List.mem_cons.mp hq with rfl | hq
    · have hlt : k.asid q < asidPoolSize := by
        unfold asidPoolSize
        omega
      exact ⟨hlo, hlt⟩
    · exact h.asid q hq
  · refine List.nodup_cons.mpr ⟨?_, h.distinct⟩
    intro hmem
    obtain ⟨q, hq, heq⟩ := List.mem_map.mp hmem
    exact hfresh q hq heq
  · intro j
    change Function.update k.asidUsed (k.asid r) true j = true ↔ ∃ q ∈ r :: k.roots, k.asid q = j
    by_cases hj : j = k.asid r
    · rw [hj, Function.update_self]
      exact ⟨fun _ => ⟨r, List.mem_cons_self, rfl⟩, fun _ => rfl⟩
    · rw [Function.update_of_ne hj, h.used j]
      constructor
      · rintro ⟨q, hq, rfl⟩
        exact ⟨q, List.mem_cons_of_mem _ hq, rfl⟩
      · rintro ⟨q, hq, rfl⟩
        rcases List.mem_cons.mp hq with rfl | hq
        · exact absurd rfl hj
        · exact ⟨q, hq, rfl⟩

/-- A block and a table become a root under the ASID that `asid_alloc` gives. -/
theorem newRoot (h : PoolInv booted (r :: B) (t :: T) k) {a : ℕ} {used : ℕ → Bool}
    (hsize : k.heap.blockSize r = pagetableRootSize)
    (ha : asidAlloc k.asidUsed = some (a, used)) :
    PoolInv booted B T { k.setRoot r t a with asidUsed := used, roots := r :: k.roots } ∧
      SameRoots k (k.setRoot r t a) ∧ SameTables k (k.setRoot r t a) ∧
      (k.setRoot r t a).ttbr0Phys r = t ∧ (k.setRoot r t a).asid r = a := by
  obtain ⟨h', hroots, htables, hsize', httbr, hasid⟩ := h.setRoot_same hsize t a
  have ht : t ∈ k.tables := h.tables.mem_iff.mpr (by simp)
  obtain ⟨f, hf, heq, _⟩ := h.table_frame ht
  have htlt : t < 2 ^ 64 := by
    rw [heq]
    exact Nat.mod_lt _ (by norm_num)
  have halt : a < 2 ^ 16 := by
    unfold asidAlloc at ha
    obtain ⟨i, hfirst, heq⟩ := Option.map_eq_some_iff.mp ha
    obtain ⟨rfl, rfl⟩ := Prod.mk.inj heq
    obtain ⟨_, hhi, _⟩ := firstFrom_sound hfirst
    unfold asidPoolSize at hhi
    omega
  rw [Nat.mod_eq_of_lt htlt] at httbr
  rw [Nat.mod_eq_of_lt halt] at hasid
  refine ⟨?_, hroots, htables, httbr, hasid⟩
  refine addRoot (k := k.setRoot r t a) ?_ hsize' ?_
  · rw [httbr]
    exact h'
  · rw [hasid]
    exact ha

/-- A root is dropped: its block and its table belong to nobody, its ASID is free. -/
theorem dropRoot (h : PoolInv booted B T k) (hr : r ∈ k.roots) :
    PoolInv booted (r :: B) (k.ttbr0Phys r :: T)
      { k with asidUsed := asidFree k.asidUsed (k.asid r), roots := k.roots.erase r } := by
  have hperm := List.perm_cons_erase hr
  have hdistinct := (hperm.map k.asid).nodup_iff.mp h.distinct
  rw [List.map_cons, List.nodup_cons] at hdistinct
  have hsub : ∀ q ∈ k.roots.erase r, q ∈ k.roots := fun q hq => List.mem_of_mem_erase hq
  refine ⟨h.heap, ?_, ?_, h.nodup, h.frame, fun q hq => h.size q (hsub q hq),
    fun q hq => h.asid q (hsub q hq), hdistinct.2, ?_⟩
  · exact h.blocks.trans ((hperm.append_right B).trans List.perm_middle.symm)
  · exact h.tables.trans (((hperm.map k.ttbr0Phys).append_right T).trans List.perm_middle.symm)
  · intro i
    change Function.update k.asidUsed (k.asid r) false i = true ↔
      ∃ q ∈ k.roots.erase r, k.asid q = i
    by_cases hir : i = k.asid r
    · rw [hir, Function.update_self]
      refine ⟨fun hh => (by cases hh), ?_⟩
      rintro ⟨q, hq, heq⟩
      exact absurd (List.mem_map.mpr ⟨q, hq, heq⟩) hdistinct.1
    · rw [Function.update_of_ne hir, h.used i]
      constructor
      · rintro ⟨q, hq, rfl⟩
        rcases List.mem_cons.mp (hperm.mem_iff.mp hq) with rfl | hq
        · exact absurd rfl hir
        · exact ⟨q, hq, rfl⟩
      · rintro ⟨q, hq, rfl⟩
        exact ⟨q, hsub q hq, rfl⟩

/-- What `arch_pagetable_create` has called when it returns. -/
theorem create_cases (hs : k.archPagetableCreate = some (r, k')) :
    ∃ q k₁, k.kmalloc pagetableRootSize = some (q, k₁) ∧
      (q = 0 ∧ r = 0 ∧ k' = k₁ ∨ q ≠ 0 ∧ ∃ t k₂, k₁.allocTablePage = some (t, k₂) ∧
        (t = 0 ∧ r = 0 ∧ k' = k₂.kfreeSized q pagetableRootSize ∨ t ≠ 0 ∧
          (asidAlloc k₂.asidUsed = none ∧ r = 0 ∧
              k' = (k₂.freeTablePage t).kfreeSized q pagetableRootSize ∨
            ∃ a used, asidAlloc k₂.asidUsed = some (a, used) ∧ r = q ∧
              k' = { k₂.setRoot q t a with asidUsed := used }))) := by
  unfold Pool.archPagetableCreate at hs
  cases hblock : k.kmalloc pagetableRootSize with
  | none => simp [hblock] at hs
  | some a =>
      obtain ⟨q, k₁⟩ := a
      refine ⟨q, k₁, rfl, ?_⟩
      simp only [hblock] at hs
      by_cases hq : q = 0
      · rw [if_pos hq] at hs
        cases hs
        exact Or.inl ⟨hq, rfl, rfl⟩
      rw [if_neg hq] at hs
      cases htable : k₁.allocTablePage with
      | none => simp [htable] at hs
      | some b =>
          obtain ⟨t, k₂⟩ := b
          refine Or.inr ⟨hq, t, k₂, rfl, ?_⟩
          simp only [htable] at hs
          by_cases ht : t = 0
          · rw [if_pos ht] at hs
            cases hs
            exact Or.inl ⟨ht, rfl, rfl⟩
          rw [if_neg ht] at hs
          refine Or.inr ⟨ht, ?_⟩
          cases hasid : asidAlloc k₂.asidUsed with
          | none =>
              simp only [hasid, Option.some.injEq, Prod.mk.injEq] at hs
              exact Or.inl ⟨rfl, hs.1.symm, hs.2.symm⟩
          | some c =>
              obtain ⟨a, used⟩ := c
              simp only [hasid, Option.some.injEq, Prod.mk.injEq] at hs
              exact Or.inr ⟨a, used, rfl, hs.1.symm, hs.2.symm⟩

end PoolInv

end Vectra.Arm64

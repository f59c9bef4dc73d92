import Vectra.Mm.BootFrames

/-!
# The caches while the kernel boots

The cache objects are slots of the metadata cache. One page has 127 of them, so the caches
of `kheap_init` and those that are created at boot lie in the first page of that cache, and
`slab_cache_create` takes a frame only once.
-/

namespace Vectra

open Lib SlabMem

theorem slotsFrom_succ (ptr objSize n : ℕ) :
    slotsFrom ptr objSize (n + 1) = slotsFrom ptr objSize n ++ [ptr + n * objSize] := by
  induction n generalizing ptr with
  | zero => simp [slotsFrom]
  | succ n ih =>
      have hlast : ptr + objSize + n * objSize = ptr + (n + 1) * objSize := by ring
      rw [slotsFrom, ih (ptr + objSize), slotsFrom, List.cons_append, hlast]

theorem length_slotsFrom (ptr objSize n : ℕ) : (slotsFrom ptr objSize n).length = n := by
  induction n generalizing ptr with
  | zero => rfl
  | succ n ih => rw [slotsFrom, List.length_cons, ih]

/-- The slots of a page with room for `n + 1` of them, the highest first. -/
theorem reverse_pageSlots {objSize page n : ℕ}
    (hn : (page + pageSize - firstSlot page) / objSize = n + 1) :
    (pageSlots objSize page).reverse =
      (firstSlot page + n * objSize) :: (slotsFrom (firstSlot page) objSize n).reverse := by
  unfold pageSlots
  rw [hn, slotsFrom_succ, List.reverse_append, List.reverse_singleton, List.singleton_append]

section Alloc

variable {M C : Type} [SlabMem M C] {m : M} {p : Pmm} {c : SlabCache} {pages free : List ℕ}
  {slack k x : ℕ}

/-- A cache without free slots takes the next frame. -/
theorem FilledTo.slabAlloc (hf : FilledTo slack p k) (hk : k < p.totalFrames)
    (hfit : SlabFits p c.objSize) (h : SlabInv m p c pages [])
    (hslots : (pageSlots c.objSize (p.frameAddr k)).reverse = x :: free) :
    (x :: free).Nodup ∧ x ≠ 0 ∧
      ∃ m' c', Vectra.slabAlloc m p c = some (x, m', Vectra.takeFrame p k, c') ∧
      c'.objSize = c.objSize ∧ SameOff m m' (p.frameAddr k) pageSize ∧
      SlabInv m' (Vectra.takeFrame p k) c' (p.frameAddr k :: pages) free := by
  have hempty : c.freeObjects = 0 := h.freeChain
  rcases h.slabGrow_cases hf.pmm hfit with ⟨_, hall⟩ | ⟨i, _, _, m', c', hgrow, hsize, hoff, hinv⟩
  · have hclear := (hf.lowestFree hk).clear
    rw [hall k hk] at hclear
    cases hclear
  · have hik : i = k := by
      have hgrow' := hgrow
      unfold slabGrow at hgrow'
      simp only [hf.allocFrame_eq hk] at hgrow'
      split at hgrow'
      · cases hgrow'
      · split at hgrow'
        · cases hgrow'
        · have hpmm := (Prod.mk.inj (Prod.mk.inj (Option.some.inj hgrow')).2).1
          have hcursor : k + 1 = i + 1 := congrArg Pmm.lastFreeIndex hpmm
          omega
    subst hik
    rw [hslots] at hinv
    obtain ⟨hx, hsize', hinv'⟩ := hinv.slabPop_cons
    refine ⟨hinv.freeChain.nodup, hinv.freeChain.ne_zero List.mem_cons_self,
      m', _, ?_, hsize'.trans hsize, hoff, hinv'⟩
    rw [← hx]
    simp only [Vectra.slabAlloc, hempty, if_true, hgrow]

/-- A free slot is handed out as it is. -/
theorem SlabInv.slabAlloc_pop (h : SlabInv m p c pages (x :: free)) :
    ∃ c', Vectra.slabAlloc m p c = some (x, m, p, c') ∧ c'.objSize = c.objSize ∧
      SlabInv m p c' pages free := by
  obtain ⟨hx, hsize, hinv⟩ := h.slabPop_cons
  have hhead : c.freeObjects = x := h.freeChain.1
  have hne : x ≠ 0 := h.freeChain.ne_zero List.mem_cons_self
  refine ⟨(slabPop m c).2, ?_, hsize, hinv⟩
  unfold Vectra.slabAlloc
  rw [if_neg (by rw [hhead]; exact hne)]
  simp only [hx]

end Alloc

/-- The cache objects lie in frame `r`, of which the slots in `free` are left, and the frames
are filled to `k`. -/
structure BootCaches (slack k r : ℕ) (h : Heap) (free : List ℕ) : Prop where
  filled : FilledTo slack h.pmm k
  behind : r < k
  base_pos : 0 < h.pmm.memPhysBase
  room : h.pmm.memPhysBase + h.pmm.totalFrames * pageSize + pageSize ≤ 2 ^ 64
  initialized : h.cacheMetaInitialized = true
  size : h.cacheMetadataCache.objSize = slabCacheStructSize
  slab : SlabInv h.mem h.pmm h.cacheMetadataCache [h.pmm.frameAddr r] free

/-- `slab_cache_create` with the slot that it took and the fields that it left. -/
def Heap.withCache (h : Heap) (m : Bytes) (p : Pmm) (c : SlabCache) (x objSize : ℕ) : Heap :=
  { h with
    mem := m
    pmm := p
    cacheMetadataCache := c
    cacheMetaInitialized := true
    cacheAt := Function.update h.cacheAt x (newSlabCache objSize) }

theorem slabCacheCreate_eq {h : Heap} {m : Bytes} {p : Pmm} {c : SlabCache} {x : ℕ} (objSize : ℕ)
    (ha : slabAlloc h.mem h.pmm h.metadata = some (x, m, p, c)) (hx : x ≠ 0) :
    slabCacheCreate h objSize = some (x, h.withCache m p c x objSize) := by
  unfold Heap.metadata at ha
  simp only [slabCacheCreate, ha, if_neg hx]
  rfl

/-- A block behind the first `k` frames. -/
structure NewBlock (slack k r : ℕ) (h : Heap) (free : List ℕ) (size ptr : ℕ) (h' : Heap) :
    Prop where
  caches : BootCaches slack (k + numPages size) r h' free
  ready : h'.kheapInitialized = true
  cacheAt : h'.cacheAt = h.cacheAt
  range : SameRange h.pmm h'.pmm
  below : ∀ x < h.pmm.memPhysBase + k * pageSize, h'.mem x = h.mem x
  start : h.pmm.memPhysBase + k * pageSize ≤ ptr
  stop : ptr + size ≤ h.pmm.memPhysBase + (k + numPages size) * pageSize

namespace BootCaches

variable {slack k k' r x n size : ℕ} {h : Heap} {free : List ℕ} {mem : Bytes} {q : Pmm}

/-- A new cache object is a free slot of the page, and nothing else is taken or written. -/
theorem create (hb : BootCaches slack k r h (x :: free)) (objSize : ℕ) :
    ∃ c, slabCacheCreate h objSize = some (x, h.withCache h.mem h.pmm c x objSize) ∧
      BootCaches slack k r (h.withCache h.mem h.pmm c x objSize) free := by
  have hmeta : h.metadata = h.cacheMetadataCache := by
    unfold Heap.metadata
    rw [hb.initialized, if_pos rfl]
  obtain ⟨c, ha, hsize, hinv⟩ := hb.slab.slabAlloc_pop
  have hx : x ≠ 0 := hb.slab.freeChain.ne_zero List.mem_cons_self
  rw [← hmeta] at ha
  exact ⟨c, slabCacheCreate_eq objSize ha hx,
    hb.filled, hb.behind, hb.base_pos, hb.room, rfl, hsize.trans hb.size, hinv⟩

theorem pointers (hb : BootCaches slack k r h free) (f : ℕ → ℕ) (ready : Bool) :
    BootCaches slack k r { h with kmallocCaches := f, kheapInitialized := ready } free :=
  ⟨hb.filled, hb.behind, hb.base_pos, hb.room, hb.initialized, hb.size, hb.slab⟩

/-- More frames may be taken, and memory outside frame `r` may be written. -/
theorem grow (hb : BootCaches slack k r h free) (hq : FilledTo slack q k') (hle : k ≤ k')
    (hrange : SameRange h.pmm q)
    (hmem : ∀ x < h.pmm.memPhysBase + (r + 1) * pageSize, h.pmm.memPhysBase + r * pageSize ≤ x →
      mem x = h.mem x) :
    BootCaches slack k' r { h with mem := mem, pmm := q } free := by
  have hr : r < h.pmm.totalFrames := lt_of_lt_of_le hb.behind hb.filled.le
  have hpage := hb.filled.pmm.frameAddr_eq hr
  rw [Nat.succ_mul] at hmem
  have hsame : ∀ x, h.pmm.frameAddr r ≤ x → x < h.pmm.frameAddr r + pageSize → mem x = h.mem x :=
    fun x hlo hhi => hmem x (by omega) (by omega)
  have hslab : SlabInv mem h.pmm h.cacheMetadataCache [h.pmm.frameAddr r] free := by
    refine hb.slab.congr (.refl _) (fun _ hi => hi) (fun page hp => ?_) fun y hy => ?_
    · rw [List.mem_singleton.mp hp]
      exact fun x hlo hhi => hsame x hlo (by unfold pageSize; omega)
    · obtain ⟨page, hp, hin⟩ := hb.slab.free_slot y hy
      have hbound := (hb.slab.page_used page hp).slot_bounds hb.filled.pmm hin
      rw [List.mem_singleton.mp hp, hb.size] at hbound
      unfold slabCacheStructSize at hbound
      exact fun x hlo hhi => hsame x (by omega) (by omega)
  have hslab : SlabInv mem q h.cacheMetadataCache [h.pmm.frameAddr r] free := by
    refine hslab.congr_used fun page hp _ => ?_
    rw [List.mem_singleton.mp hp]
    refine ⟨r, by rw [hrange.2]; exact hr, (hrange.frameAddr r).symm, ?_⟩
    rw [hq.used r (by rw [hrange.2]; exact hr)]
    exact decide_eq_true (lt_of_lt_of_le hb.behind hle)
  exact ⟨hq, lt_of_lt_of_le hb.behind hle, by rw [hrange.1]; exact hb.base_pos,
    by rw [hrange.1, hrange.2]; exact hb.room, hb.initialized, hb.size,
    by rw [hrange.frameAddr]; exact hslab⟩

/-- A large block lies behind the first `k` frames, and `kmalloc` returns it when there are
frames for it. Below them nothing is written. -/
theorem kmalloc_large (hb : BootCaches slack k r h free) (hready : h.kheapInitialized = true)
    (hlarge : 2048 < size) (hfits : FitsSize size) :
    (k + numPages size ≤ h.pmm.totalFrames → ∃ ptr h', kmalloc h size = some (ptr, h') ∧
      ptr ≠ 0 ∧ NewBlock slack k r h free size ptr h') ∧
    (h.pmm.totalFrames < k + numPages size → ∀ ptr h', kmalloc h size = some (ptr, h') →
      ptr = 0 ∧ h' = h) := by
  obtain ⟨henough, hgap, hfull⟩ := hb.filled.kmalloc_large hready hb.base_pos hlarge hfits
  refine ⟨fun hle => ?_, fun hlt ptr h' ha => ?_⟩
  · obtain ⟨q, hq, hrange, hqf⟩ := henough hle
    have hstart := hb.filled.pmm.frameAddr_eq (i := k) (by
      rw [numPages_eq hfits] at hle
      omega)
    have hrk : (r + 1) * pageSize ≤ k * pageSize := Nat.mul_le_mul_right pageSize hb.behind
    have hbelow : ∀ x < h.pmm.memPhysBase + k * pageSize,
        writeHeader h.mem (h.pmm.frameAddr k) size 0 x = h.mem x := by
      intro x hx
      unfold writeHeader
      rw [writeLE_out (by omega), writeLE_out (by omega)]
    refine ⟨_, _, hq, by unfold allocHeaderSize; omega,
      hb.grow hqf (Nat.le_add_right k _) hrange fun x hx _ => hbelow x (by omega), hready, rfl,
      hrange, hbelow, by omega, ?_⟩
    rw [hstart, Nat.add_mul, numPages_eq hfits]
    unfold allocHeaderSize pageSize
    omega
  · rcases Nat.lt_or_ge k h.pmm.totalFrames with hk | hk
    · rw [hgap hk hlt] at ha
      cases ha
    · rcases hfull (Nat.le_antisymm hb.filled.le hk) with hnone | hnull
      · rw [hnone] at ha
        cases ha
      · rw [hnull] at ha
        cases ha
        exact ⟨rfl, rfl⟩

end BootCaches

/-- Setting the block to zero. -/
theorem NewBlock.clear {slack k r size ptr : ℕ} {h h' : Heap} {free : List ℕ}
    (hb : BootCaches slack k r h free) (hn : NewBlock slack k r h free size ptr h') :
    NewBlock slack k r h free size ptr { h' with mem := fill h'.mem ptr 0#8 size } := by
  have hrk : (r + 1) * pageSize ≤ k * pageSize := Nat.mul_le_mul_right pageSize hb.behind
  have hstart := hn.start
  refine ⟨hn.caches.grow hn.caches.filled (le_refl _) (.refl _) fun x hx _ => fill_out ?_,
    hn.ready, hn.cacheAt, hn.range, fun x hx => ?_, hstart, hn.stop⟩
  · rw [hn.range.1] at hx
    exact Or.inl (by omega)
  · rw [← hn.below x hx]
    exact fill_out (Or.inl (by omega))

/-- A cache object that has been created with the size `objSize`. -/
structure CacheMade (h : Heap) (free : List ℕ) (x objSize : ℕ) : Prop where
  taken : x ∉ free
  cache : h.cacheAt x = newSlabCache objSize

section Made

variable {h : Heap} {m : Bytes} {p : Pmm} {c : SlabCache} {free : List ℕ} {x y objSize size : ℕ}

theorem CacheMade.create (hm : CacheMade h (y :: free) x objSize) :
    CacheMade (h.withCache m p c y size) free x objSize where
  taken hx := hm.taken (List.mem_cons_of_mem y hx)
  cache := by
    have hne : x ≠ y := fun heq => hm.taken (heq ▸ List.mem_cons_self)
    rw [← hm.cache]
    exact Function.update_of_ne hne _ _

theorem CacheMade.congr {h' : Heap} (hm : CacheMade h free x objSize)
    (heq : h'.cacheAt = h.cacheAt) : CacheMade h' free x objSize :=
  ⟨hm.taken, by rw [heq, hm.cache]⟩

theorem CacheMade.created (hfree : (y :: free).Nodup) :
    CacheMade (h.withCache m p c y size) free y size where
  taken := (List.nodup_cons.mp hfree).1
  cache := Function.update_self _ _ _

end Made

/-! ## `mm_init` -/

/-- The loop of `kheap_init` after `n` iterations, the first of which took frame `k`. -/
structure KheapFilled (slack k n : ℕ) (p : Pmm) (mem : Bytes) (h : Heap) (free : List ℕ) :
    Prop where
  caches : BootCaches slack (k + 1) k h free
  range : SameRange p h.pmm
  length : free.length + n = 127
  bytes : SameOff mem h.mem (p.frameAddr k) pageSize
  made : ∀ i < n, CacheMade h free (h.kmallocCaches i) (bucketObjSize i)

section Boot

variable {slack k n : ℕ} {p : Pmm} {mem : Bytes} {cacheAt : ℕ → SlabCache} {h : Heap}
  {info : BootInfo}

theorem metaSlots (page : ℕ) (hpage : page + pageSize ≤ 2 ^ 64) :
    ∃ x free, (pageSlots slabCacheStructSize page).reverse = x :: free ∧ free.length = 126 := by
  have hbounds := firstSlot_bounds hpage
  have hn : (page + pageSize - firstSlot page) / slabCacheStructSize = 126 + 1 := by
    unfold slabCacheStructSize
    unfold pageSize at *
    omega
  exact ⟨_, _, reverse_pageSlots hn, by rw [List.length_reverse, length_slotsFrom]⟩

theorem kheapInitLoop_succ {u v : Heap} {x : ℕ} (hu : kheapInitLoop h n = some u)
    (hcreate : slabCacheCreate u (bucketObjSize n) = some (x, v)) (hx : x ≠ 0) :
    kheapInitLoop h (n + 1) =
      some { v with kmallocCaches := Function.update v.kmallocCaches n x } := by
  have hcreate : slabCacheCreate u (kmallocMinSize * 2 ^ n + allocHeaderSize) = some (x, v) :=
    hcreate
  rw [kheapInitLoop, hu]
  simp only [hcreate, if_neg hx]

/-- The first cache object takes a frame. -/
theorem kheapInitLoop_one (hf : FilledTo slack p k) (hk : k < p.totalFrames)
    (hbase : 0 < p.memPhysBase)
    (hroom : p.memPhysBase + p.totalFrames * pageSize + pageSize ≤ 2 ^ 64) :
    ∃ h free, kheapInitLoop (Heap.boot mem cacheAt p) 1 = some h ∧
      h.kheapInitialized = false ∧ KheapFilled slack k 1 p mem h free := by
  have hpage := (frameAddr_room hf.pmm hk).1
  obtain ⟨x, free, hslots, hlen⟩ := metaSlots (p.frameAddr k) (by omega)
  have hstart := BootInv.start hf.pmm mem cacheAt
  obtain ⟨hnodup, hx, m, c, ha, hsize, hoff, hinv⟩ :=
    hf.slabAlloc hk (hstart.fits hbase hroom) hstart.slab (by rw [hstart.size]; exact hslots)
  have hcreate := slabCacheCreate_eq (bucketObjSize 0) ha hx
  refine ⟨_, free, kheapInitLoop_succ rfl hcreate hx, rfl,
    ⟨hf.takeFrame hk, k.lt_succ_self, hbase, hroom, rfl, hsize.trans hstart.size, hinv⟩,
    takeFrame_sameRange p k, by omega, hoff, fun i hi => ?_⟩
  obtain rfl : i = 0 := by omega
  dsimp only
  rw [Function.update_self]
  have hmade : CacheMade ((Heap.boot mem cacheAt p).withCache m (takeFrame p k) c x
      (bucketObjSize 0)) free x (bucketObjSize 0) := .created hnodup
  exact hmade.congr rfl

/-- The other cache objects take slots of the same page. -/
theorem kheapInitLoop_filled (mem : Bytes) (cacheAt : ℕ → SlabCache) (hf : FilledTo slack p k)
    (hk : k < p.totalFrames) (hbase : 0 < p.memPhysBase)
    (hroom : p.memPhysBase + p.totalFrames * pageSize + pageSize ≤ 2 ^ 64) (hn : n < 127) :
    ∃ h free, kheapInitLoop (Heap.boot mem cacheAt p) (n + 1) = some h ∧
      h.kheapInitialized = false ∧ KheapFilled slack k (n + 1) p mem h free := by
  induction n with
  | zero => exact kheapInitLoop_one hf hk hbase hroom
  | succ n ih =>
      obtain ⟨u, free, hu, hready, hfill⟩ := ih (by omega)
      have hlen := hfill.length
      obtain ⟨x, rest, rfl⟩ := List.exists_cons_of_length_pos (l := free) (by omega)
      rw [List.length_cons] at hlen
      have hx : x ≠ 0 := hfill.caches.slab.freeChain.ne_zero List.mem_cons_self
      obtain ⟨c, hcreate, hb⟩ := hfill.caches.create (bucketObjSize (n + 1))
      refine ⟨_, rest, kheapInitLoop_succ hu hcreate hx, hready,
        hb.pointers _ _, hfill.range, by omega, hfill.bytes, fun i hi => ?_⟩
      refine CacheMade.congr (h := u.withCache u.mem u.pmm c x (bucketObjSize (n + 1))) ?_ rfl
      dsimp only
      rcases Nat.lt_succ_iff_lt_or_eq.mp hi with hlt | rfl
      · have hother : Function.update u.kmallocCaches (n + 1) x i = u.kmallocCaches i :=
          Function.update_of_ne (by omega) _ _
        have hmade : CacheMade (u.withCache u.mem u.pmm c x (bucketObjSize (n + 1))) rest
            (u.kmallocCaches i) (bucketObjSize i) := (hfill.made i hlt).create
        rw [← hother] at hmade
        exact hmade
      · have hself : Function.update u.kmallocCaches (n + 1) x (n + 1) = x :=
          Function.update_self _ _ _
        show CacheMade _ rest (Function.update u.kmallocCaches (n + 1) x (n + 1)) _
        rw [hself]
        exact .created hfill.caches.slab.freeChain.nodup

/-- `mm_init` returns when a frame is left behind the reserved ones, and takes only that one. -/
theorem mmInit_filled (cacheAt : ℕ → SlabCache) (hw : info.WellFormed)
    (hp : mmInitFrames info mem = some p) (hlt : info.reserved < info.frames) :
    ∃ slack h free, mmInit info mem cacheAt = some h ∧ h.kheapInitialized = true ∧
      KheapFilled slack info.reserved numSlabBuckets p mem h free := by
  obtain ⟨hbase, htotal, hlast, hused, hinv⟩ := mmInitFrames_spec hw hp
  obtain ⟨slack, hpmm⟩ := hinv hlt.le
  have hf : FilledTo slack p info.reserved := by
    refine ⟨hpmm, fun j hj => ?_, by rw [htotal]; exact hlt.le, fun j hj => ?_⟩
    · rw [hlast] at hj
      exact absurd hj (Nat.not_lt_zero j)
    · rw [htotal] at hj
      exact hused j hj
  obtain ⟨u, free, hu, _, hfill⟩ := kheapInitLoop_filled mem cacheAt
    (n := 7) hf (by rw [htotal]; exact hlt) (by rw [hbase]; exact hw.image_pos)
    (by rw [hbase, htotal]; exact hw.room) (by decide)
  refine ⟨slack, { u with kheapInitialized := true }, free, ?_, rfl, hfill.caches.pointers _ _,
    hfill.range, hfill.length, hfill.bytes, fun i hi => (hfill.made i hi).congr rfl⟩
  unfold mmInit
  rw [hp]
  dsimp only
  unfold kheapInit
  rw [if_neg (by simp [Heap.boot])]
  change (kheapInitLoop _ (7 + 1)).map _ = _
  rw [hu]
  rfl

/-- Where `mm_init` leaves the frames and the cache objects. -/
theorem mmInit_boot (hw : info.WellFormed) (hinit : mmInit info mem cacheAt = some h) :
    ∃ slack free, BootCaches slack (info.reserved + 1) info.reserved h free ∧
      free.length = 119 ∧ h.kheapInitialized = true ∧
      h.pmm.memPhysBase = info.kernelImageStart ∧ h.pmm.totalFrames = info.frames := by
  have hle := mmInit_reserved_le hw hinit
  cases hp : mmInitFrames info mem with
  | none => simp [mmInit, hp] at hinit
  | some p =>
      obtain ⟨hbase, htotal, hlast, hused, _⟩ := mmInitFrames_spec hw hp
      have hlt : info.reserved < info.frames := by
        by_contra hge
        have hfull : kheapInit (Heap.boot mem cacheAt p) = none := by
          refine kheapInit_full (by rw [hlast]; exact Nat.zero_le _) fun j hj => ?_
          rw [htotal] at hj
          rw [hused j hj]
          exact decide_eq_true (by omega)
        simp [mmInit, hp, hfull] at hinit
      obtain ⟨slack, u, free, hu, hready, hfill⟩ :=
        mmInit_filled cacheAt hw hp hlt
      obtain rfl : u = h := Option.some.inj (hu.symm.trans hinit)
      have hlen := hfill.length
      unfold numSlabBuckets at hlen
      exact ⟨slack, free, hfill.caches, by omega, hready, hfill.range.1.trans hbase,
        hfill.range.2.trans htotal⟩

end Boot

end Vectra

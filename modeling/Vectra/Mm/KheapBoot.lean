import Vectra.Mm.KheapBlocks

/-!
# What `kheap_init` establishes

The loop creates the eight bucket caches as slots of the metadata cache.
None of them has a page yet, so the only frames it takes are the pages of
the metadata cache.
-/

namespace Vectra

open Lib SlabMem

/-- The static variables before `kheap_init` has run. -/
def Heap.boot (mem : Bytes) (cacheAt : ℕ → SlabCache) (p : Pmm) : Heap where
  mem := mem
  pmm := p
  cacheMetadataCache := ⟨0, 0, 0⟩
  cacheMetaInitialized := false
  cacheAt := cacheAt
  kmallocCaches := fun _ => 0
  kheapInitialized := false

/-- The metadata cache, as the next `slab_cache_create` sees it. -/
def Heap.metadata (h : Heap) : SlabCache :=
  if h.cacheMetaInitialized then h.cacheMetadataCache else ⟨slabCacheStructSize, 0, 0⟩

/-- The state after `n` iterations of the loop of `kheap_init` from the frames `p`. -/
structure BootInv (slack : ℕ) (p : Pmm) (h : Heap) (n : ℕ) (pages free : List ℕ) : Prop where
  pmm : PmmInv slack h.pmm
  range : SameRange p h.pmm
  ready : h.kheapInitialized = false
  initialized : 0 < n → h.cacheMetaInitialized = true
  size : h.metadata.objSize = slabCacheStructSize
  slab : SlabInv h.mem h.pmm h.metadata pages free
  used : ∀ j < p.totalFrames, h.pmm.used j = (p.used j || decide (p.frameAddr j ∈ pages))
  page_new : ∀ j < p.totalFrames, p.frameAddr j ∈ pages → p.used j = false
  few : pages.length ≤ n
  made : ∀ i < n, Allocated slabCacheStructSize pages free (h.kmallocCaches i)
  cache : ∀ i < n, h.cacheAt (h.kmallocCaches i) = newSlabCache (bucketObjSize i)
  inj : ∀ i < n, ∀ j < n, h.kmallocCaches i = h.kmallocCaches j → i = j

namespace BootInv

variable {slack n cache : ℕ} {p : Pmm} {h h' : Heap} {pages free : List ℕ}

theorem start (hp : PmmInv slack p) (mem : Bytes) (cacheAt : ℕ → SlabCache) :
    BootInv slack p (Heap.boot mem cacheAt p) 0 [] [] where
  pmm := hp
  range := SameRange.refl p
  ready := rfl
  initialized := fun h => absurd h (Nat.lt_irrefl 0)
  size := rfl
  slab := ⟨rfl, rfl, by simp, by simp⟩
  used := fun j _ => by simp [Heap.boot]
  page_new := fun j _ hmem => by simp at hmem
  few := le_refl 0
  made := fun i hi => absurd hi (Nat.not_lt_zero i)
  cache := fun i hi => absurd hi (Nat.not_lt_zero i)
  inj := fun i hi => absurd hi (Nat.not_lt_zero i)

theorem fits (hb : BootInv slack p h n pages free) (hbase : 0 < p.memPhysBase)
    (hroom : p.memPhysBase + p.totalFrames * pageSize + pageSize ≤ 2 ^ 64) :
    SlabFits h.pmm h.metadata.objSize := by
  rw [hb.size]
  refine ⟨by decide, by decide, by rw [hb.range.1]; exact hbase, ?_⟩
  rw [hb.range.1, hb.range.2]
  unfold slabCacheStructSize
  unfold pageSize at *
  omega

/-- One iteration: a new cache object, distinct from the earlier ones. -/
theorem create (hb : BootInv slack p h n pages free) (hbase : 0 < p.memPhysBase)
    (hroom : p.memPhysBase + p.totalFrames * pageSize + pageSize ≤ 2 ^ 64)
    (hs : slabCacheCreate h (bucketObjSize n) = some (cache, h')) :
    cache ≠ 0 ∧ ∃ pages' free', BootInv slack p
      { h' with kmallocCaches := Function.update h'.kmallocCaches n cache } (n + 1)
      pages' free' := by
  have hmeta : (if h.cacheMetaInitialized then h.cacheMetadataCache
      else ⟨slabCacheStructSize, 0, 0⟩) = h.metadata := rfl
  unfold slabCacheCreate at hs
  rw [hmeta] at hs
  cases halloc : slabAlloc h.mem h.pmm h.metadata with
  | none => simp [halloc] at hs
  | some a =>
      obtain ⟨x, m, q, c⟩ := a
      obtain ⟨pages', free', hres⟩ := hb.slab.slabAlloc hb.pmm (hb.fits hbase hroom) halloc
      have hne : x ≠ 0 := hres.ne_zero hb.pmm (by rw [hb.size]; decide)
        (by rw [hb.size]; decide)
      simp only [halloc, hne, if_false, Option.some.injEq, Prod.mk.injEq] at hs
      obtain ⟨rfl, rfl⟩ := hs
      have hsize : h.metadata.objSize = slabCacheStructSize := hb.size
      have hfresh : ∀ i < n, h.kmallocCaches i ≠ x := by
        intro i hi heq
        have hmade := hb.made i hi
        rw [heq, ← hsize] at hmade
        exact hres.fresh hmade
      have hother : ∀ i < n, Function.update h.kmallocCaches n x i = h.kmallocCaches i := by
        intro i hi
        rw [Function.update_of_ne (by omega)]
      refine ⟨hne, pages', free', ?_⟩
      refine
        { pmm := hres.pmmInv hb.pmm, range := hb.range.trans hres.sameRange, ready := hb.ready,
          initialized := fun _ => rfl, size := by rw [← hsize]; exact hres.objSize,
          slab := hres.inv, used := ?_, page_new := ?_, few := ?_, made := ?_, cache := ?_,
          inj := ?_ }
      · intro j hj
        change q.used j = _
        have hold := hb.used j hj
        rcases hres.grown with ⟨rfl, _, rfl⟩ | ⟨k, hk, hclear, rfl, rfl, _⟩
        · exact hold
        · have hiff : p.frameAddr j = h.pmm.frameAddr k ↔ j = k := by
            rw [← hb.range.frameAddr]
            exact frameAddr_inj hb.pmm (by rw [hb.range.2]; exact hj) hk
          rw [takeFrame_used, hold]
          simp only [List.mem_cons, hiff, Bool.decide_or]
          rw [← Bool.or_assoc, Bool.or_comm (decide (j = k)), Bool.or_assoc]
      · intro j hj hmem
        rcases hres.grown with ⟨rfl, _, _⟩ | ⟨k, hk, hclear, rfl, _, _⟩
        · exact hb.page_new j hj hmem
        · rcases List.mem_cons.mp hmem with heq | hmem
          · rw [← hb.range.frameAddr] at heq
            have hjk : j = k := (frameAddr_inj hb.pmm (by rw [hb.range.2]; exact hj) hk).mp heq
            have hold := hb.used j hj
            rw [hjk, hclear] at hold
            rw [hjk]
            exact (Bool.or_eq_false_iff.mp hold.symm).1
          · exact hb.page_new j hj hmem
      · have hfew := hb.few
        rcases hres.grown with ⟨rfl, _, _⟩ | ⟨k, _, _, rfl, _, _⟩
        · omega
        · rw [List.length_cons]
          omega
      · intro i hi
        change Allocated slabCacheStructSize pages' free' (Function.update h.kmallocCaches n x i)
        rw [← hsize]
        apply (hres.allocated _).mpr
        rcases Nat.lt_succ_iff_lt_or_eq.mp hi with hlt | rfl
        · rw [hother i hlt, hsize]
          exact Or.inr (hb.made i hlt)
        · rw [Function.update_self]
          exact Or.inl ⟨hne, rfl⟩
      · intro i hi
        change Function.update h.cacheAt x (newSlabCache (bucketObjSize n))
          (Function.update h.kmallocCaches n x i) = _
        rcases Nat.lt_succ_iff_lt_or_eq.mp hi with hlt | rfl
        · rw [hother i hlt, Function.update_of_ne (hfresh i hlt)]
          exact hb.cache i hlt
        · rw [Function.update_self, Function.update_self]
      · intro i hi j hj heq
        change Function.update h.kmallocCaches n x i = Function.update h.kmallocCaches n x j at heq
        rcases Nat.lt_succ_iff_lt_or_eq.mp hi with hin | rfl
        · rcases Nat.lt_succ_iff_lt_or_eq.mp hj with hjn | rfl
          · rw [hother i hin, hother j hjn] at heq
            exact hb.inj i hin j hjn heq
          · rw [hother i hin, Function.update_self] at heq
            exact absurd heq (hfresh i hin)
        · rcases Nat.lt_succ_iff_lt_or_eq.mp hj with hjn | rfl
          · rw [hother j hjn, Function.update_self] at heq
            exact absurd heq.symm (hfresh j hjn)
          · rfl

theorem loop (hb : BootInv slack p h 0 [] []) (hbase : 0 < p.memPhysBase)
    (hroom : p.memPhysBase + p.totalFrames * pageSize + pageSize ≤ 2 ^ 64)
    (hs : kheapInitLoop h n = some h') : ∃ pages free, BootInv slack p h' n pages free := by
  induction n generalizing h' with
  | zero =>
      cases hs
      exact ⟨[], [], hb⟩
  | succ n ih =>
      rw [kheapInitLoop] at hs
      cases hprev : kheapInitLoop h n with
      | none => simp [hprev] at hs
      | some u =>
          obtain ⟨pages, free, hu⟩ := ih hprev
          simp only [hprev] at hs
          cases hcreate : slabCacheCreate u (kmallocMinSize * 2 ^ n + allocHeaderSize) with
          | none => simp [hcreate] at hs
          | some a =>
              obtain ⟨cache, v⟩ := a
              obtain ⟨hne, pages', free', hv⟩ := hu.create hbase hroom hcreate
              simp only [hcreate, hne, if_false, Option.some.injEq] at hs
              subst hs
              exact ⟨pages', free', hv⟩

/-- The loop takes at most one frame per iteration. -/
theorem exists_clear (hb : BootInv slack p h n pages free) {S : Finset ℕ}
    (hS : ∀ j ∈ S, j < p.totalFrames ∧ p.used j = false) (hcard : n < S.card) :
    ∃ j ∈ S, h.pmm.used j = false := by
  by_contra hno
  push Not at hno
  have hmem : ∀ j ∈ S, p.frameAddr j ∈ pages.toFinset := by
    intro j hj
    obtain ⟨hlt, hclear⟩ := hS j hj
    have hused := hb.used j hlt
    rw [hclear, Bool.false_or] at hused
    have hset : h.pmm.used j = true := by simpa using hno j hj
    rw [hset] at hused
    exact List.mem_toFinset.mpr (of_decide_eq_true hused.symm)
  have hinj : Set.InjOn p.frameAddr S := by
    intro i hi j hj heq
    rw [← hb.range.frameAddr, ← hb.range.frameAddr] at heq
    exact (frameAddr_inj hb.pmm (by rw [hb.range.2]; exact (hS i hi).1)
      (by rw [hb.range.2]; exact (hS j hj).1)).mp heq
  have hle := Finset.card_le_card_of_injOn p.frameAddr hmem hinj
  have hlen := pages.toFinset_card_le
  have hfew := hb.few
  omega

theorem create_isSome (hb : BootInv slack p h n pages free) (hbase : 0 < p.memPhysBase)
    (hroom : p.memPhysBase + p.totalFrames * pageSize + pageSize ≤ 2 ^ 64) {j : ℕ}
    (hj : j < p.totalFrames) (hclear : h.pmm.used j = false) (objSize : ℕ) :
    ∃ cache h', slabCacheCreate h objSize = some (cache, h') := by
  have hcases := hb.slab.slabAlloc_cases hb.pmm (hb.fits hbase hroom)
  rcases hcases with ⟨_, _, hall⟩ | ⟨x, m, q, c, _, _, halloc, _⟩
  · rw [hall j (by rw [hb.range.2]; exact hj)] at hclear
    cases hclear
  · unfold Heap.metadata at halloc
    by_cases hx : x = 0
    · exact ⟨_, _, by simp only [slabCacheCreate, halloc, hx, if_true]; rfl⟩
    · exact ⟨_, _, by simp only [slabCacheCreate, halloc, hx, if_false]; rfl⟩

/-- Eight free frames are enough, and every larger set of free frames is
not used up. -/
theorem loop_isSome (hb : BootInv slack p h 0 [] []) (hbase : 0 < p.memPhysBase)
    (hroom : p.memPhysBase + p.totalFrames * pageSize + pageSize ≤ 2 ^ 64) {S : Finset ℕ}
    (hS : ∀ j ∈ S, j < p.totalFrames ∧ p.used j = false) (hn : n < S.card) :
    ∃ h', kheapInitLoop h n = some h' := by
  induction n with
  | zero => exact ⟨h, rfl⟩
  | succ n ih =>
      obtain ⟨u, hu⟩ := ih (by omega)
      obtain ⟨pages, free, hinv⟩ := hb.loop hbase hroom hu
      obtain ⟨j, hj, hclear⟩ := hinv.exists_clear hS (by omega)
      obtain ⟨cache, v, hv⟩ := hinv.create_isSome hbase hroom (hS j hj).1 hclear
        (kmallocMinSize * 2 ^ n + allocHeaderSize)
      have hne := (hinv.create hbase hroom hv).1
      exact ⟨_, by simp only [kheapInitLoop, hu, hv, hne, if_false]; rfl⟩

/-- The ownership when the loop is done. -/
def owners (p : Pmm) (pages free : List ℕ) : Ownership where
  own j := if p.frameAddr j ∈ pages then some (.slab numSlabBuckets)
    else if p.used j then some .reserved else none
  pages i := if i = numSlabBuckets then pages else []
  free i := if i = numSlabBuckets then free else []

theorem heapInv (hb : BootInv slack p h numSlabBuckets pages free) (hbase : 0 < p.memPhysBase)
    (hroom : p.memPhysBase + p.totalFrames * pageSize + pageSize ≤ 2 ^ 64) :
    HeapInv slack (fun j => p.used j = true) { h with kheapInitialized := true } []
      (owners p pages free) where
  caches :=
    { pmm := hb.pmm
      base_pos := by rw [hb.range.1]; exact hbase
      room := by rw [hb.range.1, hb.range.2]; exact hroom
      size := by
        intro i hi
        have hmeta := hb.size
        rw [Heap.metadata, hb.initialized (by decide)] at hmeta
        unfold Heap.cache cacheObjSize
        by_cases hlt : i < numSlabBuckets
        · rw [if_pos hlt, if_pos hlt, hb.cache i hlt]
          exact (bucketObjSize_facts hlt).2.2.2
        · rw [if_neg hlt, if_neg hlt]
          exact hmeta
      slab := by
        intro i hi
        have hmeta := hb.slab
        rw [Heap.metadata, hb.initialized (by decide)] at hmeta
        unfold Heap.cache owners
        by_cases hlt : i < numSlabBuckets
        · simp only [if_pos hlt, if_neg (by omega : ¬ i = numSlabBuckets), hb.cache i hlt]
          exact SlabInv.new _ _ _
        · simp only [if_neg hlt, if_pos (by omega : i = numSlabBuckets)]
          exact hmeta
      pointer := by
        intro i hi
        simp only [owners, if_pos]
        exact (hb.made i hi).1
      pointer_inj := hb.inj
      own_used := by
        intro j hj
        rw [hb.range.2] at hj
        change h.pmm.used j = _
        rw [hb.used j hj]
        unfold owners
        by_cases hmem : p.frameAddr j ∈ pages
        · simp [hmem]
        · cases hset : p.used j <;> simp [hmem, hset]
      own_slab := by
        intro i hi j hj
        rw [hb.range.2] at hj
        change _ ↔ h.pmm.frameAddr j ∈ _
        rw [hb.range.frameAddr]
        unfold owners
        by_cases hmem : p.frameAddr j ∈ pages
        · by_cases hib : i = numSlabBuckets
          · simp [hmem, hib]
          · simp [hmem, hib, Ne.symm hib]
        · by_cases hib : i = numSlabBuckets
          · cases hset : p.used j <;> simp [hmem, hib, hset]
          · cases hset : p.used j <;> simp [hmem, hib, hset] }
  ready := rfl
  nodup := List.nodup_nil
  block := by simp
  large_live := by
    intro j hj ptr hown
    simp only [owners] at hown
    split_ifs at hown <;> cases hown
  large_run := by
    intro j hj ptr hown
    simp only [owners] at hown
    split_ifs at hown <;> cases hown
  slab_bound := by
    intro j hj i hown
    simp only [owners] at hown
    split_ifs at hown
    · cases hown
      exact le_refl _
    · cases hown
  reserved_iff := by
    intro j hj
    have hj' : j < p.totalFrames := by
      rw [← hb.range.2]
      exact hj
    unfold owners
    by_cases hmem : p.frameAddr j ∈ pages
    · simp [hmem, hb.page_new j hj' hmem]
    · cases hset : p.used j <;> simp [hmem, hset]

end BootInv

/-- After `kheap_init` no block is live, and the reserved frames are those
that were used before. -/
theorem kheapInit_heapInv {slack : ℕ} {p : Pmm} {mem : Bytes} {cacheAt : ℕ → SlabCache}
    {h : Heap} (hp : PmmInv slack p) (hbase : 0 < p.memPhysBase)
    (hroom : p.memPhysBase + p.totalFrames * pageSize + pageSize ≤ 2 ^ 64)
    (hs : kheapInit (Heap.boot mem cacheAt p) = some h) :
    SameRange p h.pmm ∧ ∃ o, HeapInv slack (fun j => p.used j = true) h [] o := by
  unfold kheapInit at hs
  rw [if_neg (by simp [Heap.boot])] at hs
  obtain ⟨u, hu, rfl⟩ := Option.map_eq_some_iff.mp hs
  obtain ⟨pages, free, hb⟩ := (BootInv.start hp mem cacheAt).loop hbase hroom hu
  exact ⟨hb.range, _, hb.heapInv hbase hroom⟩

theorem kheapInit_isSome {slack : ℕ} {p : Pmm} (mem : Bytes) (cacheAt : ℕ → SlabCache)
    (hp : PmmInv slack p) (hbase : 0 < p.memPhysBase)
    (hroom : p.memPhysBase + p.totalFrames * pageSize + pageSize ≤ 2 ^ 64) {S : Finset ℕ}
    (hS : ∀ j ∈ S, j < p.totalFrames ∧ p.used j = false) (hcard : numSlabBuckets < S.card) :
    ∃ h, kheapInit (Heap.boot mem cacheAt p) = some h ∧ PmmInv slack h.pmm ∧
      SameRange p h.pmm ∧ ∃ j ∈ S, h.pmm.used j = false := by
  have hstart := BootInv.start hp mem cacheAt
  obtain ⟨u, hu⟩ := hstart.loop_isSome hbase hroom hS hcard
  obtain ⟨pages, free, hinv⟩ := hstart.loop hbase hroom hu
  refine ⟨{ u with kheapInitialized := true }, ?_, hinv.pmm, hinv.range,
    hinv.exists_clear hS hcard⟩
  unfold kheapInit
  rw [if_neg (by simp [Heap.boot]), hu]
  rfl

/-- Without a clear frame `kheap_init` panics. -/
theorem kheapInit_full {p : Pmm} {mem : Bytes} {cacheAt : ℕ → SlabCache}
    (hcursor : p.lastFreeIndex ≤ p.totalFrames) (hfull : ∀ j < p.totalFrames, p.used j = true) :
    kheapInit (Heap.boot mem cacheAt p) = none := by
  have halloc : pmmAllocFrame p = none ∨ pmmAllocFrame p = some (0, p) := by
    have hfwd : firstFrom (fun i => !p.used i) p.lastFreeIndex
        (p.totalFrames - p.lastFreeIndex) = none := by
      apply firstFrom_eq_none_iff.mpr
      intro j _ hj
      simp [hfull j (by omega)]
    have hwrap : firstFrom (fun i => !p.used i) 0 p.lastFreeIndex = none := by
      apply firstFrom_eq_none_iff.mpr
      intro j _ hj
      simp [hfull j (by omega)]
    unfold pmmAllocFrame
    split
    · exact Or.inl rfl
    · simp [hfwd, hwrap]
  have hgrow : ∀ c, slabGrow mem p c = none := by
    intro c
    rcases halloc with hnone | hzero
    · simp [slabGrow, hnone]
    · simp [slabGrow, hzero]
  have hcreate : ∀ size, slabCacheCreate (Heap.boot mem cacheAt p) size = none := by
    intro size
    simp [slabCacheCreate, Heap.boot, slabAlloc, hgrow]
  have hloop : ∀ n, kheapInitLoop (Heap.boot mem cacheAt p) (n + 1) = none := by
    intro n
    induction n with
    | zero => simp [kheapInitLoop, hcreate]
    | succ n ih => rw [kheapInitLoop, ih]
  unfold kheapInit
  rw [if_neg (by simp [Heap.boot])]
  unfold numSlabBuckets
  rw [hloop 7]
  rfl

end Vectra

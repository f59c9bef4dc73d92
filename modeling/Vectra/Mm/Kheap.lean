import Vectra.Mm.SlabInvariant

/-!
# The kernel heap of `kheap.c`

Small blocks come from one slab cache per bucket, large blocks are runs of
frames. Every block starts with an `alloc_header_t` of two words, the
usable size and the cache (null for a large block). The `slab_cache_t`
objects are kept by address, apart from the bytes of the memory.
-/

namespace Vectra

open Lib SlabMem

/-- The plain byte memory: a link is one word, a `frame_t` two. -/
instance : SlabMem Bytes (BitVec 8) where
  cell m a := m a
  link m a := readLE m a 8
  setLink m a v := writeLE m a 8 v
  frame m a := ⟨readLE m a 8, readLE m (a + 8) 8⟩
  setFrame m a f := writeLE (writeLE m a 8 f.physAddr) (a + 8) 8 f.next
  link_congr _ _ _ h := readLE_congr h
  frame_congr m m' a h := by
    have hphys : readLE m' a 8 = readLE m a 8 := readLE_congr fun x hlo hhi => h x hlo (by omega)
    have hnext : readLE m' (a + 8) 8 = readLE m (a + 8) 8 :=
      readLE_congr fun x hlo hhi => h x (by omega) (by omega)
    rw [hphys, hnext]
  cell_setLink _ _ _ _ h := writeLE_out h
  cell_setFrame m a f x h := by
    rw [writeLE_out (by omega), writeLE_out (by omega)]
  link_setLink m a v h := by
    rw [readLE_writeLE_self]
    exact Nat.mod_eq_of_lt h
  frame_setFrame m a f hp hn := by
    rw [readLE_writeLE_self, readLE_writeLE_of_disjoint (by omega), readLE_writeLE_self]
    simp only [Nat.reducePow] at hp hn ⊢
    rw [Nat.mod_eq_of_lt hp, Nat.mod_eq_of_lt hn]

/-- `sizeof(alloc_header_t)`. -/
def allocHeaderSize : ℕ := 16

/-- `sizeof(slab_cache_t)`. -/
def slabCacheStructSize : ℕ := 32

def kmallocMinSize : ℕ := 16

def numSlabBuckets : ℕ := 8

structure Heap where
  mem : Bytes
  pmm : Pmm
  cacheMetadataCache : SlabCache
  cacheMetaInitialized : Bool
  cacheAt : ℕ → SlabCache
  kmallocCaches : ℕ → ℕ
  kheapInitialized : Bool

/-- `slab_cache_create`: the cache object itself is a slot of the metadata
cache, which the first call sets up. -/
def slabCacheCreate (h : Heap) (objSize : ℕ) : Option (ℕ × Heap) :=
  match slabAlloc h.mem h.pmm
      (if h.cacheMetaInitialized then h.cacheMetadataCache else ⟨slabCacheStructSize, 0, 0⟩) with
  | none => none
  | some (cache, m, p, c) =>
      if cache = 0 then
        some (0, { h with
          mem := m
          pmm := p
          cacheMetadataCache := c
          cacheMetaInitialized := true })
      else
        some (cache, { h with
          mem := m
          pmm := p
          cacheMetadataCache := c
          cacheMetaInitialized := true
          cacheAt := Function.update h.cacheAt cache (newSlabCache objSize) })

/-- `slab_alloc` on a cache given by its address. -/
def slabAllocAt (h : Heap) (cache : ℕ) : Option (ℕ × Heap) :=
  if cache = 0 then some (0, h)
  else
    match slabAlloc h.mem h.pmm (h.cacheAt cache) with
    | none => none
    | some (x, m, p, c) =>
        some (x, { h with mem := m, pmm := p, cacheAt := Function.update h.cacheAt cache c })

/-- `slab_free` on a cache given by its address. -/
def slabFreeAt (h : Heap) (cache obj : ℕ) : Heap :=
  if cache = 0 then h
  else
    { h with
      mem := (slabFree h.mem (h.cacheAt cache) obj).1
      cacheAt := Function.update h.cacheAt cache (slabFree h.mem (h.cacheAt cache) obj).2 }

/-- `get_bucket_index`, with `none` for `-1`. -/
def getBucketIndex (size : ℕ) : Option ℕ :=
  if size ≤ 16 then some 0
  else if size ≤ 32 then some 1
  else if size ≤ 64 then some 2
  else if size ≤ 128 then some 3
  else if size ≤ 256 then some 4
  else if size ≤ 512 then some 5
  else if size ≤ 1024 then some 6
  else if size ≤ 2048 then some 7
  else none

/-- The first `n` iterations of the loop of `kheap_init`. -/
def kheapInitLoop (h : Heap) : ℕ → Option Heap
  | 0 => some h
  | n + 1 =>
      match kheapInitLoop h n with
      | none => none
      | some h =>
          match slabCacheCreate h (kmallocMinSize * 2 ^ n + allocHeaderSize) with
          | none => none
          | some (cache, h) =>
              if cache = 0 then none
              else some { h with kmallocCaches := Function.update h.kmallocCaches n cache }

def kheapInit (h : Heap) : Option Heap :=
  if h.kheapInitialized then some h
  else (kheapInitLoop h numSlabBuckets).map fun h => { h with kheapInitialized := true }

/-- `ALIGN_UP(total_size, PAGE_SIZE) / PAGE_SIZE` for a block of `size` usable bytes. -/
def numPages (size : ℕ) : ℕ := alignUp ((size + allocHeaderSize) % 2 ^ 64) pageSize / pageSize

/-- `header->size` and `header->cache` of the block at a pointer. -/
def Heap.blockSize (h : Heap) (ptr : ℕ) : ℕ := readLE h.mem (sub64 ptr allocHeaderSize) 8

def Heap.blockCache (h : Heap) (ptr : ℕ) : ℕ := readLE h.mem (sub64 ptr allocHeaderSize + 8) 8

/-- Writing both words of a header. -/
def writeHeader (m : Bytes) (header size cache : ℕ) : Bytes :=
  writeLE (writeLE m header 8 size) (header + 8) 8 cache

/-- The loop of `kmalloc` that asks for `n` more frames right behind the first. -/
def allocRun (p : Pmm) (phys : ℕ) : ℕ → Option Pmm
  | 0 => some p
  | n + 1 =>
      match allocRun p phys n with
      | none => none
      | some p =>
          match pmmAllocFrame p with
          | none => none
          | some (nextPhys, p) =>
              if nextPhys = (phys + (n + 1) * pageSize) % 2 ^ 64 then some p else none

def kmalloc (h : Heap) (size : ℕ) : Option (ℕ × Heap) :=
  if size = 0 then some (0, h)
  else if h.kheapInitialized = false then none
  else
    match getBucketIndex size with
    | some bucket =>
        match slabAllocAt h (h.kmallocCaches bucket) with
        | none => none
        | some (header, h') =>
            if header = 0 then some (0, h')
            else some ((header + allocHeaderSize) % 2 ^ 64,
              { h' with mem := writeHeader h'.mem header size (h.kmallocCaches bucket) })
    | none =>
        match pmmAllocFrame h.pmm with
        | none => none
        | some (phys, p) =>
            if phys = 0 then some (0, { h with pmm := p })
            else
              match allocRun p phys (numPages size - 1) with
              | none => none
              | some p =>
                  some ((phys + allocHeaderSize) % 2 ^ 64,
                    { h with pmm := p, mem := writeHeader h.mem phys size 0 })

/-- The loop of `kfree` that gives `n` consecutive frames back. -/
def freeRun (p : Pmm) (phys : ℕ) : ℕ → Pmm
  | 0 => p
  | n + 1 => pmmFreeFrame (freeRun p phys n) ((phys + n * pageSize) % 2 ^ 64)

def kfree (h : Heap) (ptr : ℕ) : Heap :=
  if ptr = 0 then h
  else if h.blockCache ptr ≠ 0 then slabFreeAt h (h.blockCache ptr) (sub64 ptr allocHeaderSize)
  else { h with
    pmm := freeRun h.pmm (sub64 ptr allocHeaderSize) (numPages (h.blockSize ptr)) }

/-- `kfree_sized`, which goes by its `size` argument and not by the header. -/
def kfreeSized (h : Heap) (ptr size : ℕ) : Heap :=
  if ptr = 0 then h
  else
    match getBucketIndex size with
    | some bucket => slabFreeAt h (h.kmallocCaches bucket) (sub64 ptr allocHeaderSize)
    | none => { h with pmm := freeRun h.pmm (sub64 ptr allocHeaderSize) (numPages size) }

/-- The loop of `kcalloc`: `n` zero bytes from `ptr` on. -/
def zeroBytes (m : Bytes) (ptr : ℕ) : ℕ → Bytes
  | 0 => m
  | n + 1 => Function.update (zeroBytes m ptr n) (ptr + n) 0#8

def kcalloc (h : Heap) (num size : ℕ) : Option (ℕ × Heap) :=
  if num ≠ 0 ∧ num * size % 2 ^ 64 / num ≠ size then some (0, h)
  else
    match kmalloc h (num * size % 2 ^ 64) with
    | none => none
    | some (ptr, h) =>
        if ptr = 0 then some (0, h)
        else some (ptr, { h with mem := zeroBytes h.mem ptr (num * size % 2 ^ 64) })

/-- The loop of `krealloc`: the first `n` bytes at `src` are copied to `dst`. -/
def copyBytes (m : Bytes) (dst src : ℕ) : ℕ → Bytes
  | 0 => m
  | n + 1 => Function.update (copyBytes m dst src n) (dst + n) (copyBytes m dst src n (src + n))

def krealloc (h : Heap) (ptr newSize : ℕ) : Option (ℕ × Heap) :=
  if ptr = 0 then kmalloc h newSize
  else if newSize = 0 then some (0, kfree h ptr)
  else if newSize ≤ h.blockSize ptr then some (ptr, h)
  else
    match kmalloc h newSize with
    | none => none
    | some (newPtr, h') =>
        if newPtr = 0 then some (0, h')
        else some (newPtr,
          kfree { h' with mem := copyBytes h'.mem newPtr ptr (h.blockSize ptr) } ptr)

/-! ## Sizes and buckets -/

/-- The slot size of a bucket's cache, as `kheap_init` passes it on. -/
def bucketObjSize (bucket : ℕ) : ℕ := kmallocMinSize * 2 ^ bucket + allocHeaderSize

/-- Each bucket is chosen only for sizes that its slots can hold behind a header. -/
theorem getBucketIndex_fits {size bucket : ℕ} (h : getBucketIndex size = some bucket) :
    bucket < numSlabBuckets ∧ allocHeaderSize + size ≤ bucketObjSize bucket := by
  unfold getBucketIndex at h
  unfold bucketObjSize kmallocMinSize allocHeaderSize numSlabBuckets
  split_ifs at h <;> cases h <;> omega

theorem bucketObjSize_facts {bucket : ℕ} (h : bucket < numSlabBuckets) :
    32 ≤ bucketObjSize bucket ∧ bucketObjSize bucket ≤ 2064 ∧ bucketObjSize bucket % 8 = 0 ∧
      slabObjSize (bucketObjSize bucket) = bucketObjSize bucket := by
  unfold numSlabBuckets at h
  interval_cases bucket <;> decide

theorem numPages_eq {size : ℕ} (h : size + allocHeaderSize + pageSize - 1 < 2 ^ 64) :
    numPages size = (size + 16 + 4095) / 4096 := by
  unfold allocHeaderSize pageSize at h
  have hmod : (size + allocHeaderSize) % 2 ^ 64 = size + 16 := by
    unfold allocHeaderSize
    omega
  unfold numPages
  rw [hmod, alignUp_page (by omega)]
  unfold pageSize
  omega

end Vectra

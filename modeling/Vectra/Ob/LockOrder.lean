import Vectra.Lib.LockCode
import Vectra.Mm.Kheap
import Vectra.Ob.Cap

/-!
# The locks of the object manager and the heap

The functions of `slab.c`, `kheap.c`, `hash.c`, `ob.c` and `cap.c` as code that takes locks.
Pointers are numbers; what is read from memory may be any number, so an object or a cache may
be stale or wrong. The operations of a type take no locks.
-/

namespace Vectra.LockOrder

open Lib

/-- The spin locks, by the structure that they are in. -/
inductive SpinlockId
  | capTable (table : ℕ)
  | object (obj : ℕ)
  | idTable
  | slabCache (cache : ℕ)
  deriving DecidableEq

/-- The order in which locks are nested. -/
def SpinlockId.rank : SpinlockId → ℕ
  | .capTable _ => 0
  | .object _ => 1
  | .idTable => 2
  | .slabCache _ => 3

abbrev Kernel (α : Type) := Code SpinlockId α

def spinLock (l : SpinlockId) : Kernel Unit := .lock l (.ret ())

def spinUnlock (l : SpinlockId) : Kernel Unit := .unlock l (.ret ())

/-- `= SPINLOCK_INIT`. -/
def spinLockInit (l : SpinlockId) : Kernel Unit := .init l (.ret ())

def panic : Kernel Unit := .panic

/-- A load, a store, an atomic operation or a call of an operation of a type, with what it
reads or returns. -/
def access : Kernel ℕ := .access .ret

/-! ## `physframe.c` and `slab.c` -/

def pmmAllocFrame : Kernel ℕ := do
  let freeFrames ← access
  let _ ← (if freeFrames = 0 then panic else pure ())
  access

def slabGrow : Kernel Unit := do
  let phys ← pmmAllocFrame
  if phys = 0 then panic
  else do
    let _slabs ← access
    let _freeObjects ← access
    pure ()

def slabAlloc (cache : ℕ) : Kernel ℕ :=
  if cache = 0 then pure 0
  else do
    let _ ← spinLock (.slabCache cache)
    let head ← access
    let _ ← (if head = 0 then slabGrow else pure ())
    let node ← access
    let _next ← (if node = 0 then pure 0 else access)
    let _ ← spinUnlock (.slabCache cache)
    pure node

def slabFree (cache obj : ℕ) : Kernel Unit :=
  if cache = 0 ∨ obj = 0 then pure ()
  else do
    let _ ← spinLock (.slabCache cache)
    let _head ← access
    spinUnlock (.slabCache cache)

/-- `slab_cache_create`; `metadataCache` is the address of `cache_metadata_cache`. -/
def slabCacheCreate (metadataCache : ℕ) : Kernel ℕ := do
  let initialized ← access
  let _ ← (if initialized = 0 then spinLockInit (.slabCache metadataCache) else pure ())
  let cache ← slabAlloc metadataCache
  if cache = 0 then pure 0
  else do
    let _ ← spinLockInit (.slabCache cache)
    pure cache

/-! ## `kheap.c` -/

/-- The loop of `kmalloc` over the frames behind the first one. -/
def allocFrames (phys i : ℕ) : ℕ → Kernel Unit
  | 0 => pure ()
  | n + 1 => do
      let nextPhys ← pmmAllocFrame
      let _ ← (if nextPhys = (phys + i * pageSize) % 2 ^ 64 then pure () else panic)
      allocFrames phys (i + 1) n

def kmalloc (size : ℕ) : Kernel ℕ :=
  if size = 0 then pure 0
  else do
    let initialized ← access
    let _ ← (if initialized = 0 then panic else pure ())
    match getBucketIndex size with
    | some _ => do
        let cache ← access
        let header ← slabAlloc cache
        if header = 0 then pure 0 else pure ((header + allocHeaderSize) % 2 ^ 64)
    | none => do
        let phys ← pmmAllocFrame
        if phys = 0 then pure 0
        else do
          let _ ← allocFrames phys 1 (numPages size - 1)
          pure ((phys + allocHeaderSize) % 2 ^ 64)

/-- The loop of `kfree` over the frames; `pmm_free_frame` only reads and writes memory. -/
def freeFrames : ℕ → Kernel Unit
  | 0 => pure ()
  | n + 1 => do
      let _frame ← access
      freeFrames n

def kfree (ptr : ℕ) : Kernel Unit :=
  if ptr = 0 then pure ()
  else do
    let cache ← access
    if cache ≠ 0 then slabFree cache (sub64 ptr allocHeaderSize)
    else do
      let size ← access
      freeFrames (numPages size)

/-! ## `hash.c` -/

def hashtableInsert : Kernel Unit := do
  let nodeCache ← access
  let _node ← slabAlloc nodeCache
  let _bucket ← access
  let _count ← access
  pure ()

/-- The loop of `hashtable_remove`, when `n` nodes are left in the bucket. -/
def removeLoop (key : ℕ) : ℕ → Kernel Unit
  | 0 => pure ()
  | n + 1 => do
      let nodeKey ← access
      if nodeKey = key then do
        let dead ← access
        let nodeCache ← access
        let _ ← slabFree nodeCache dead
        let _count ← access
        pure ()
      else removeLoop key n

def hashtableRemove (key : ℕ) : Kernel Unit := do
  let length ← access
  removeLoop key length

/-! ## `ob.c` -/

/-- The condition of `object_maybe_destroy`. -/
def isUnreferenced : Kernel Bool := do
  let refcount ← access
  if refcount ≠ 0 then pure false
  else do
    let handleCount ← access
    if handleCount ≠ 0 then pure false
    else do
      let destroyed ← access
      pure (destroyed = 0)

def objectMaybeDestroy (obj : ℕ) : Kernel Unit := do
  let _ ← spinLock (.object obj)
  let go ← isUnreferenced
  let _destroyed ← (if go then access else pure 0)
  let _ ← spinUnlock (.object obj)
  if !go then pure ()
  else do
    let _typeId ← access
    let destroy ← access
    let _ ← (if destroy = 0 then pure 0 else access)
    let _ ← spinLock .idTable
    let id ← access
    let _ ← hashtableRemove id
    let _ ← spinUnlock .idTable
    let slab ← access
    slabFree slab obj

def objectRef : Kernel Unit := do
  let _refcount ← access
  pure ()

def objectDeref (obj : ℕ) : Kernel Unit := do
  let refcount ← access
  if refcount = 1 then objectMaybeDestroy obj else pure ()

def objectCreate : Kernel ℕ := do
  let slab ← access
  let mem ← slabAlloc slab
  if mem = 0 then pure 0
  else do
    let _header ← access
    let _nextObjectId ← access
    let _ ← spinLockInit (.object mem)
    let create ← access
    let ret ← (if create = 0 then pure 0 else access)
    if ret ≠ 0 then do
      let slab ← access
      let _ ← slabFree slab mem
      pure 0
    else do
      let _ ← spinLock .idTable
      let _ ← hashtableInsert
      let _ ← spinUnlock .idTable
      pure mem

/-! ## `cap.c` -/

/-- `sizeof(cap_table_t)`. -/
def capTableSize : ℕ := 16 * capTableMax + 8

def capTableCreate : Kernel ℕ := do
  let t ← kmalloc capTableSize
  if t = 0 then pure 0
  else do
    let _ ← spinLockInit (.capTable t)
    pure t

/-- The loop of `object_grant` with `n` iterations left. -/
def grantLoop (hint : ℕ) : ℕ → Kernel ℕ
  | 0 => pure capInvalid
  | n + 1 => do
      let object ← access
      if object = 0 then do
        let _generation ← access
        let _entry ← access
        let _hint ← access
        pure ((hint + (capTableMax - (n + 1))) % 2 ^ 32 % capTableMax)
      else grantLoop hint n

def objectGrant (table rights : ℕ) : Kernel ℕ := do
  let _typeId ← access
  let defaultRights ← access
  if rights &&& defaultRights ≠ rights then pure capInvalid
  else do
    let _ ← spinLock (.capTable table)
    let hint ← access
    let slot ← grantLoop hint capTableMax
    let _ ← spinUnlock (.capTable table)
    if slot ≠ capInvalid then do
      let _handleCount ← access
      pure slot
    else pure slot

def objectClose (table handle : ℕ) : Kernel Unit :=
  if capTableMax ≤ handle then pure ()
  else do
    let _ ← spinLock (.capTable table)
    let obj ← access
    if obj = 0 then spinUnlock (.capTable table)
    else do
      let _entry ← access
      let _ ← spinUnlock (.capTable table)
      let _handleCount ← access
      objectMaybeDestroy obj

def capLookup (table handle requiredRights : ℕ) : Kernel ℕ :=
  if capTableMax ≤ handle then pure 0
  else do
    let _ ← spinLock (.capTable table)
    let obj ← access
    if obj = 0 then do
      let _ ← spinUnlock (.capTable table)
      pure 0
    else do
      let generation ← access
      let entryGeneration ← access
      if generation ≠ entryGeneration then do
        let _entry ← access
        let _ ← spinUnlock (.capTable table)
        let _handleCount ← access
        let _ ← objectMaybeDestroy obj
        pure 0
      else do
        let rights ← access
        if rights &&& requiredRights ≠ requiredRights then do
          let _ ← spinUnlock (.capTable table)
          pure 0
        else do
          let _ ← objectRef
          let _ ← spinUnlock (.capTable table)
          pure obj

/-! ## Every function keeps the order -/

section Nested

open Code SpinlockId

variable {held rest : List SpinlockId} {l : SpinlockId}

theorem spinLock_nested (h : Below rank held l) :
    (spinLock l).Nested rank held (l :: held) := ⟨h, rfl⟩

theorem spinUnlock_nested : (spinUnlock l).Nested rank (l :: held) held := ⟨held, rfl, rfl⟩

theorem spinLockInit_nested : (spinLockInit l).Nested rank held held := rfl

theorem access_nested : access.Nested rank held held := fun _ => rfl

theorem panic_nested : panic.Nested rank held rest := trivial

theorem pmmAllocFrame_nested : pmmAllocFrame.Nested rank held held := by
  refine nested_bind access_nested fun _ => ?_
  refine nested_bind (nested_ite (fun _ => panic_nested) fun _ => nested_pure ()) fun _ => ?_
  exact access_nested

theorem slabGrow_nested : slabGrow.Nested rank held held := by
  refine nested_bind pmmAllocFrame_nested fun _ => ?_
  refine nested_ite (fun _ => panic_nested) fun _ => ?_
  refine nested_bind access_nested fun _ => ?_
  exact nested_bind access_nested fun _ => nested_pure ()

/-- The lock of a cache is the innermost one: `slab_grow` takes no other. -/
theorem slabAlloc_nested {cache : ℕ} (h : Below rank held (slabCache cache)) :
    (slabAlloc cache).Nested rank held held := by
  refine nested_ite (fun _ => nested_pure 0) fun _ => ?_
  refine nested_bind (spinLock_nested h) fun _ => ?_
  refine nested_bind access_nested fun head => ?_
  refine nested_bind (nested_ite (fun _ => slabGrow_nested) fun _ => nested_pure ()) fun _ => ?_
  refine nested_bind access_nested fun node => ?_
  refine nested_bind (nested_ite (fun _ => nested_pure 0) fun _ => access_nested) fun _ => ?_
  exact nested_bind spinUnlock_nested fun _ => nested_pure node

theorem slabFree_nested {cache obj : ℕ} (h : Below rank held (slabCache cache)) :
    (slabFree cache obj).Nested rank held held := by
  refine nested_ite (fun _ => nested_pure ()) fun _ => ?_
  refine nested_bind (spinLock_nested h) fun _ => ?_
  exact nested_bind access_nested fun _ => spinUnlock_nested

theorem slabCacheCreate_nested (metadataCache : ℕ) :
    (slabCacheCreate metadataCache).Nested rank [] [] := by
  refine nested_bind access_nested fun _ => ?_
  refine nested_bind (nested_ite (fun _ => spinLockInit_nested) fun _ => nested_pure ()) fun _ => ?_
  refine nested_bind (slabAlloc_nested (below_nil _)) fun cache => ?_
  refine nested_ite (fun _ => nested_pure 0) fun _ => ?_
  exact nested_bind spinLockInit_nested fun _ => nested_pure cache

theorem allocFrames_nested (phys i n : ℕ) : (allocFrames phys i n).Nested rank held held := by
  induction n generalizing i with
  | zero => exact nested_pure ()
  | succ n ih =>
      refine nested_bind pmmAllocFrame_nested fun _ => ?_
      refine nested_bind (nested_ite (fun _ => nested_pure ()) fun _ => panic_nested) fun _ => ?_
      exact ih (i + 1)

theorem kmalloc_nested (size : ℕ) : (kmalloc size).Nested rank [] [] := by
  refine nested_ite (fun _ => nested_pure 0) fun _ => ?_
  refine nested_bind access_nested fun _ => ?_
  refine nested_bind (nested_ite (fun _ => panic_nested) fun _ => nested_pure ()) fun _ => ?_
  cases getBucketIndex size with
  | some bucket =>
      refine nested_bind access_nested fun cache => ?_
      refine nested_bind (slabAlloc_nested (below_nil _)) fun header => ?_
      exact nested_ite (fun _ => nested_pure 0)
        fun _ => nested_pure ((header + allocHeaderSize) % 2 ^ 64)
  | none =>
      refine nested_bind pmmAllocFrame_nested fun phys => ?_
      refine nested_ite (fun _ => nested_pure 0) fun _ => ?_
      refine nested_bind (allocFrames_nested phys 1 _) fun _ => ?_
      exact nested_pure ((phys + allocHeaderSize) % 2 ^ 64)

theorem freeFrames_nested (n : ℕ) : (freeFrames n).Nested rank held held := by
  induction n with
  | zero => exact nested_pure ()
  | succ n ih => exact nested_bind access_nested fun _ => ih

theorem kfree_nested (ptr : ℕ) : (kfree ptr).Nested rank [] [] := by
  refine nested_ite (fun _ => nested_pure ()) fun _ => ?_
  refine nested_bind access_nested fun _ => ?_
  refine nested_ite (fun _ => slabFree_nested (below_nil _)) fun _ => ?_
  exact nested_bind access_nested fun size => freeFrames_nested (numPages size)

/-! The id table is locked by the caller, and the cache of its nodes below that. -/

theorem below_idTable (cache : ℕ) : Below rank [idTable] (slabCache cache) := by
  intro x hx
  rw [List.mem_singleton.mp hx]
  exact Nat.lt_succ_self 2

theorem hashtableInsert_nested : hashtableInsert.Nested rank [idTable] [idTable] := by
  refine nested_bind access_nested fun nodeCache => ?_
  refine nested_bind (slabAlloc_nested (below_idTable nodeCache)) fun _ => ?_
  refine nested_bind access_nested fun _ => ?_
  exact nested_bind access_nested fun _ => nested_pure ()

theorem removeLoop_nested (key n : ℕ) : (removeLoop key n).Nested rank [idTable] [idTable] := by
  induction n with
  | zero => exact nested_pure ()
  | succ n ih =>
      refine nested_bind access_nested fun _ => ?_
      refine nested_ite (fun _ => ?_) fun _ => ih
      refine nested_bind access_nested fun dead => ?_
      refine nested_bind access_nested fun nodeCache => ?_
      refine nested_bind (slabFree_nested (below_idTable nodeCache)) fun _ => ?_
      exact nested_bind access_nested fun _ => nested_pure ()

theorem hashtableRemove_nested (key : ℕ) :
    (hashtableRemove key).Nested rank [idTable] [idTable] :=
  nested_bind access_nested fun length => removeLoop_nested key length

/-! ## The object manager -/

theorem isUnreferenced_nested : isUnreferenced.Nested rank held held := by
  refine nested_bind access_nested fun _ => ?_
  refine nested_ite (fun _ => nested_pure false) fun _ => ?_
  refine nested_bind access_nested fun _ => ?_
  refine nested_ite (fun _ => nested_pure false) fun _ => ?_
  exact nested_bind access_nested fun _ => nested_pure _

/-- The lock of the object is given back before the id table is locked. -/
theorem objectMaybeDestroy_nested (obj : ℕ) : (objectMaybeDestroy obj).Nested rank [] [] := by
  refine nested_bind (spinLock_nested (below_nil _)) fun _ => ?_
  refine nested_bind isUnreferenced_nested fun go => ?_
  refine nested_bind (nested_ite (fun _ => access_nested) fun _ => nested_pure 0) fun _ => ?_
  refine nested_bind spinUnlock_nested fun _ => ?_
  refine nested_ite (fun _ => nested_pure ()) fun _ => ?_
  refine nested_bind access_nested fun _ => ?_
  refine nested_bind access_nested fun _ => ?_
  refine nested_bind (nested_ite (fun _ => nested_pure 0) fun _ => access_nested) fun _ => ?_
  refine nested_bind (spinLock_nested (below_nil _)) fun _ => ?_
  refine nested_bind access_nested fun id => ?_
  refine nested_bind (hashtableRemove_nested id) fun _ => ?_
  refine nested_bind spinUnlock_nested fun _ => ?_
  exact nested_bind access_nested fun _ => slabFree_nested (below_nil _)

theorem objectRef_nested : objectRef.Nested rank held held :=
  nested_bind access_nested fun _ => nested_pure ()

theorem objectDeref_nested (obj : ℕ) : (objectDeref obj).Nested rank [] [] := by
  refine nested_bind access_nested fun _ => ?_
  exact nested_ite (fun _ => objectMaybeDestroy_nested obj) fun _ => nested_pure ()

theorem objectCreate_nested : objectCreate.Nested rank [] [] := by
  refine nested_bind access_nested fun slab => ?_
  refine nested_bind (slabAlloc_nested (below_nil _)) fun mem => ?_
  refine nested_ite (fun _ => nested_pure 0) fun _ => ?_
  refine nested_bind access_nested fun _ => ?_
  refine nested_bind access_nested fun _ => ?_
  refine nested_bind spinLockInit_nested fun _ => ?_
  refine nested_bind access_nested fun _ => ?_
  refine nested_bind (nested_ite (fun _ => nested_pure 0) fun _ => access_nested) fun _ => ?_
  refine nested_ite (fun _ => ?_) fun _ => ?_
  · refine nested_bind access_nested fun _ => ?_
    exact nested_bind (slabFree_nested (below_nil _)) fun _ => nested_pure 0
  · refine nested_bind (spinLock_nested (below_nil _)) fun _ => ?_
    refine nested_bind hashtableInsert_nested fun _ => ?_
    exact nested_bind spinUnlock_nested fun _ => nested_pure mem

/-! ## Capability tables -/

theorem capTableCreate_nested : capTableCreate.Nested rank [] [] := by
  refine nested_bind (kmalloc_nested capTableSize) fun t => ?_
  refine nested_ite (fun _ => nested_pure 0) fun _ => ?_
  exact nested_bind spinLockInit_nested fun _ => nested_pure t

theorem grantLoop_nested (hint n : ℕ) : (grantLoop hint n).Nested rank held held := by
  induction n with
  | zero => exact nested_pure capInvalid
  | succ n ih =>
      refine nested_bind access_nested fun _ => ?_
      refine nested_ite (fun _ => ?_) fun _ => ih
      refine nested_bind access_nested fun _ => ?_
      refine nested_bind access_nested fun _ => ?_
      exact nested_bind access_nested fun _ => nested_pure _

theorem objectGrant_nested (table rights : ℕ) : (objectGrant table rights).Nested rank [] [] := by
  refine nested_bind access_nested fun _ => ?_
  refine nested_bind access_nested fun _ => ?_
  refine nested_ite (fun _ => nested_pure capInvalid) fun _ => ?_
  refine nested_bind (spinLock_nested (below_nil _)) fun _ => ?_
  refine nested_bind access_nested fun hint => ?_
  refine nested_bind (grantLoop_nested hint capTableMax) fun slot => ?_
  refine nested_bind spinUnlock_nested fun _ => ?_
  refine nested_ite (fun _ => ?_) fun _ => nested_pure slot
  exact nested_bind access_nested fun _ => nested_pure slot

theorem objectClose_nested (table handle : ℕ) : (objectClose table handle).Nested rank [] [] := by
  refine nested_ite (fun _ => nested_pure ()) fun _ => ?_
  refine nested_bind (spinLock_nested (below_nil _)) fun _ => ?_
  refine nested_bind access_nested fun obj => ?_
  refine nested_ite (fun _ => spinUnlock_nested) fun _ => ?_
  refine nested_bind access_nested fun _ => ?_
  refine nested_bind spinUnlock_nested fun _ => ?_
  exact nested_bind access_nested fun _ => objectMaybeDestroy_nested obj

/-- Every branch gives the lock of the table back, the stale one before it destroys. -/
theorem capLookup_nested (table handle requiredRights : ℕ) :
    (capLookup table handle requiredRights).Nested rank [] [] := by
  refine nested_ite (fun _ => nested_pure 0) fun _ => ?_
  refine nested_bind (spinLock_nested (below_nil _)) fun _ => ?_
  refine nested_bind access_nested fun obj => ?_
  refine nested_ite (fun _ => nested_bind spinUnlock_nested fun _ => nested_pure 0) fun _ => ?_
  refine nested_bind access_nested fun _ => ?_
  refine nested_bind access_nested fun _ => ?_
  refine nested_ite (fun _ => ?_) fun _ => ?_
  · refine nested_bind access_nested fun _ => ?_
    refine nested_bind spinUnlock_nested fun _ => ?_
    refine nested_bind access_nested fun _ => ?_
    exact nested_bind (objectMaybeDestroy_nested obj) fun _ => nested_pure 0
  · refine nested_bind access_nested fun _ => ?_
    refine nested_ite (fun _ => nested_bind spinUnlock_nested fun _ => nested_pure 0) fun _ => ?_
    refine nested_bind objectRef_nested fun _ => ?_
    exact nested_bind spinUnlock_nested fun _ => nested_pure obj

end Nested

/-! ## Any number of threads -/

inductive KernelOp
  | objectCreate
  | objectDeref (obj : ℕ)
  | objectGrant (table rights : ℕ)
  | objectClose (table handle : ℕ)
  | capLookup (table handle requiredRights : ℕ)
  | kmalloc (size : ℕ)
  | kfree (ptr : ℕ)
  | capTableCreate
  | slabCacheCreate (metadataCache : ℕ)
  deriving DecidableEq

/-- A call; the thread does not look at the result. -/
def KernelOp.body : KernelOp → Kernel Unit
  | .objectCreate => do
      let _obj ← LockOrder.objectCreate
      pure ()
  | .objectDeref obj => LockOrder.objectDeref obj
  | .objectGrant table rights => do
      let _handle ← LockOrder.objectGrant table rights
      pure ()
  | .objectClose table handle => LockOrder.objectClose table handle
  | .capLookup table handle requiredRights => do
      let _obj ← LockOrder.capLookup table handle requiredRights
      pure ()
  | .kmalloc size => do
      let _ptr ← LockOrder.kmalloc size
      pure ()
  | .kfree ptr => LockOrder.kfree ptr
  | .capTableCreate => do
      let _table ← LockOrder.capTableCreate
      pure ()
  | .slabCacheCreate metadataCache => do
      let _cache ← LockOrder.slabCacheCreate metadataCache
      pure ()

theorem body_nested (op : KernelOp) : op.body.Nested SpinlockId.rank [] [] := by
  cases op with
  | objectCreate => exact Code.nested_bind objectCreate_nested fun _ => Code.nested_pure ()
  | objectDeref obj => exact objectDeref_nested obj
  | objectGrant table rights =>
      exact Code.nested_bind (objectGrant_nested table rights) fun _ => Code.nested_pure ()
  | objectClose table handle => exact objectClose_nested table handle
  | capLookup table handle requiredRights =>
      exact Code.nested_bind (capLookup_nested table handle requiredRights) fun _ =>
        Code.nested_pure ()
  | kmalloc size => exact Code.nested_bind (kmalloc_nested size) fun _ => Code.nested_pure ()
  | kfree ptr => exact kfree_nested ptr
  | capTableCreate => exact Code.nested_bind capTableCreate_nested fun _ => Code.nested_pure ()
  | slabCacheCreate metadataCache =>
      exact Code.nested_bind (slabCacheCreate_nested metadataCache) fun _ => Code.nested_pure ()

theorem rank_le (l : SpinlockId) : l.rank ≤ 3 := by
  cases l <;> simp [SpinlockId.rank]

/-- No threads wait for each other, whatever they call and however they are scheduled. -/
theorem lock_order_run {ι : Type*} [DecidableEq ι] {s : LockSys ι SpinlockId}
    {ops : List (ι × LockOp KernelOp)}
    (hrun : Run (Interleave (LockStep KernelOp.body)) LockSys.start ops s) :
    LocksOk SpinlockId.rank s :=
  run_locksOk rank_le body_nested hrun

/-- One CPU closes a handle of a table in which another one looks a handle up. -/
theorem lock_order_run_contended :
    ∃ s : LockSys Bool SpinlockId,
      Run (Interleave (LockStep KernelOp.body)) LockSys.start
        [(false, .call (.capLookup 7 0 1)), (true, .call (.objectClose 7 0)), (false, .exec 0)] s ∧
      (s.thread false).held = [.capTable 7] ∧ LocksOk SpinlockId.rank s := by
  obtain ⟨s, hs, hheld⟩ := Option.map_eq_some_iff.mp (by decide +kernel :
    ([(false, .call (.capLookup 7 0 1)), (true, .call (.objectClose 7 0)),
        (false, .exec 0)].foldlM (Sys.move fun _ => lockStep KernelOp.body)
      (LockSys.start : LockSys Bool SpinlockId)).map (fun s => (s.thread false).held) =
        some [SpinlockId.capTable 7])
  have hrun := Sys.run_of_foldlM hs
  exact ⟨s, hrun, hheld, lock_order_run hrun⟩

end Vectra.LockOrder

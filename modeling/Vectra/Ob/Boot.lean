import Vectra.Mm.BootCaches
import Vectra.Ob.Ledger
import Vectra.Ob.LockOrder
import Vectra.Riscv.BootTables
import Vectra.Riscv.VmmInit

/-!
# The object manager at boot

`kernel_main` sets up the memory, on RISC-V the page tables, and the object manager. Then
types are registered and capability tables are created, before there is an object. The array
of the id table and the capability tables are blocks of frames that nothing frees, and so the
runs of the object manager may keep them apart from the memory.
-/

namespace Vectra

open Lib SlabMem

/-- `hashtable_t` with the addresses of its array and of its node cache. -/
structure HashtableAt where
  buckets : ℕ
  nbuckets : ℕ
  count : ℕ
  nodeCache : ℕ

/-- `hashtable_init` writes to the array without a check, and does not return when it is null. -/
def hashtableInitAt (h : Heap) (nbuckets : ℕ) : Option (HashtableAt × Heap) :=
  match kmalloc h (8 * nbuckets % 2 ^ 64) with
  | none => none
  | some (buckets, h) =>
      if buckets = 0 then none
      else
        match slabCacheCreate { h with mem := fill h.mem buckets 0#8 (8 * nbuckets % 2 ^ 64) }
            hashNodeSize with
        | none => none
        | some (nodeCache, h) => some (⟨buckets, nbuckets, 0, nodeCache⟩, h)

/-- `object_manager_t` without its lock; `slab` has the addresses of the slabs of the types. -/
structure ObjectManager where
  types : ℕ → ObjectType
  slab : ℕ → ℕ
  typeCount : ℕ
  idTable : HashtableAt
  nextObjectId : ℕ

def obInit (h : Heap) (om : ObjectManager) : Option (Heap × ObjectManager) :=
  match hashtableInitAt h 4096 with
  | none => none
  | some (idTable, h) =>
      some (h, { om with idTable := idTable, nextObjectId := 1, typeCount := 0 })

/-- `object_type_register` leaves `default_rights` as it finds it. The index of the type is
returned. -/
def objectTypeRegister (h : Heap) (om : ObjectManager) (instanceSize : ℕ)
    (create : Option (ℕ → ℕ → Bytes → ℤ × Bytes)) (destroy : Option (ℕ → Bytes → Bytes)) :
    Option (ℕ × Heap × ObjectManager) :=
  let idx := om.typeCount
  let size := (objectHeaderSize + instanceSize) % 2 ^ 64
  if maxObjectTypes ≤ idx then none
  else
    match slabCacheCreate h size with
    | none => none
    | some (slab, h) =>
        some (idx, h, { om with
          types := Function.update om.types idx
            ⟨size, create, destroy, (om.types idx).defaultRights⟩
          slab := Function.update om.slab idx slab
          typeCount := (idx + 1) % 2 ^ 32 })

/-- `cap_table_create` with the address of the table. -/
def capTableCreateAt (h : Heap) : Option (ℕ × Heap) :=
  match kmalloc h LockOrder.capTableSize with
  | none => none
  | some (t, h) =>
      if t = 0 then some (0, h)
      else some (t, { h with mem := fill h.mem t 0#8 LockOrder.capTableSize })

/-- `kernel_main` up to `ob_init`. The loops of `vmm_init` may take `n` iterations each, and
whether `timer_wait(2330)` comes back, which depends on the timer, is `timerReturns`; neither it
nor the log writes to this memory. -/
def kernelMain (arch : Arch) (info : BootInfo) (kernelPageTable : ℕ) (om : ObjectManager)
    (mem : Bytes) (cacheAt : ℕ → SlabCache) (timerReturns : Bool) (n : ℕ) :
    Outcome (Heap × ObjectManager) :=
  (Outcome.ofOption (mmInit info mem cacheAt)).bind fun h =>
  Outcome.bind (match arch with
    | .arm64 => .returned h
    | .riscv => (vmmInit info kernelPageTable h.pmm h.mem n).bind fun (p, m) =>
        .returned { h with pmm := p, mem := m }) fun h =>
  if timerReturns then .ofOption (obInit h om) else .running

/-! ## The calls before the first object -/

inductive BootCall
  | registerType (instanceSize : ℕ) (create : Option (ℕ → ℕ → Bytes → ℤ × Bytes))
      (destroy : Option (ℕ → Bytes → Bytes))
  | setRights (idx rights : ℕ)
  | createTable

/-- The kernel with the tables that `cap_table_create` has returned. -/
structure BootState where
  heap : Heap
  om : ObjectManager
  tables : List ℕ

def BootState.call (s : BootState) : BootCall → Option BootState
  | .registerType instanceSize create destroy =>
      (objectTypeRegister s.heap s.om instanceSize create destroy).map fun r =>
        { s with heap := r.2.1, om := r.2.2 }
  | .setRights idx rights =>
      let type := { s.om.types idx with defaultRights := rights }
      some { s with om := { s.om with types := Function.update s.om.types idx type } }
  | .createTable =>
      (capTableCreateAt s.heap).map fun r =>
        { s with heap := r.2, tables := if r.1 = 0 then s.tables else s.tables ++ [r.1] }

/-! ## The state that the object manager finds -/

def HashtableAt.view (t : HashtableAt) (h : Heap) : Hashtable :=
  ⟨fun b => readLE h.mem (t.buckets + 8 * b) 8, t.nbuckets, t.count, h.cacheAt t.nodeCache⟩

/-- The capability table at an address. -/
def capTableView (m : Bytes) (t : ℕ) : CapTable where
  entries i :=
    if i < capTableMax then
      ⟨readLE m (t + 16 * i) 8, readLE m (t + 16 * i + 8) 4, readLE m (t + 16 * i + 12) 4⟩
    else ⟨0, 0, 0⟩
  nextFreeHint := readLE m (t + 16 * capTableMax) 4

namespace BootState

def types (s : BootState) (i : Fin s.om.typeCount) : ObjectType := s.om.types i

def objects (s : BootState) : ObState s.om.typeCount (Fin s.tables.length) where
  mem := s.heap.mem
  pmm := s.heap.pmm
  slabs i := s.heap.cacheAt (s.om.slab i)
  idTable := s.om.idTable.view s.heap
  nextObjectId := s.om.nextObjectId
  tables c := capTableView s.heap.mem (s.tables.get c)
  destroyCalls := []

/-- The array of the id table and the capability tables, as addresses and lengths. -/
def blocks (s : BootState) : List (ℕ × ℕ) :=
  (s.om.idTable.buckets, 8 * 4096) :: s.tables.map fun t => (t, LockOrder.capTableSize)

end BootState

/-- The objects of the type fit behind memory that ends at `stop`, and its operations write the
payload only. -/
structure TypeOk (stop : ℕ) (type : ObjectType) : Prop where
  header_le : objectHeaderSize ≤ type.instanceSize
  room : stop + type.instanceSize + 8 ≤ 2 ^ 64
  create_payload : ∀ f obj args m, type.create = some f →
    SameOff m (f obj args m).2 (obj + objectHeaderSize) (type.instanceSize - objectHeaderSize)
  destroy_payload : ∀ f obj m, type.destroy = some f →
    SameOff m (f obj m) (obj + objectHeaderSize) (type.instanceSize - objectHeaderSize)

/-- What callers of `object_type_register` keep to. -/
def BootCall.Ok (stop : ℕ) : BootCall → Prop
  | .registerType instanceSize create destroy =>
      TypeOk stop ⟨objectHeaderSize + instanceSize, create, destroy, 0⟩
  | _ => True

/-- A block that is zero and lies in the first `k` frames. -/
structure ZeroBlock (k : ℕ) (h : Heap) (b : ℕ × ℕ) : Prop where
  stop : b.1 + b.2 ≤ h.pmm.memPhysBase + k * pageSize
  zero : ∀ x, b.1 ≤ x → x < b.1 + b.2 → h.mem x = 0#8

/-- The kernel before the first object. -/
structure ObjectsReady (info : BootInfo) (slack k r : ℕ) (s : BootState) (free : List ℕ) :
    Prop where
  caches : BootCaches slack k r s.heap free
  ready : s.heap.kheapInitialized = true
  base : s.heap.pmm.memPhysBase = info.kernelImageStart
  total : s.heap.pmm.totalFrames = info.frames
  count_le : s.om.typeCount ≤ maxObjectTypes
  nextObjectId : s.om.nextObjectId = 1
  nbuckets : s.om.idTable.nbuckets = 4096
  count : s.om.idTable.count = 0
  nodeCache : CacheMade s.heap free s.om.idTable.nodeCache hashNodeSize
  length : free.length + s.om.typeCount = 118
  slab : ∀ i < s.om.typeCount, CacheMade s.heap free (s.om.slab i) (s.om.types i).instanceSize
  type : ∀ i < s.om.typeCount,
    TypeOk (info.kernelImageStart + info.frames * pageSize) (s.om.types i)
  zero : ∀ b ∈ s.blocks, ZeroBlock k s.heap b
  apart : s.blocks.Pairwise fun b c => b.1 + b.2 ≤ c.1

namespace ZeroBlock

variable {k k' n : ℕ} {h h' : Heap} {a : ℕ} {b : ℕ × ℕ}

theorem later (hz : ZeroBlock k h b) (hle : k ≤ k') (hrange : SameRange h.pmm h'.pmm)
    (hmem : ∀ x < h.pmm.memPhysBase + k * pageSize, h'.mem x = h.mem x) : ZeroBlock k' h' b := by
  have hstop := hz.stop
  have hk := Nat.mul_le_mul_right pageSize hle
  refine ⟨by rw [hrange.1]; omega, fun x hlo hhi => ?_⟩
  rw [hmem x (by omega)]
  exact hz.zero x hlo hhi

theorem read (hz : ZeroBlock k h b) (hlo : b.1 ≤ a) (hhi : a + n ≤ b.1 + b.2) :
    readLE h.mem a n = 0 :=
  readLE_zero fun x hx hx' => hz.zero x (by omega) (by omega)

theorem idTable {t : HashtableAt} (hz : ZeroBlock k h (t.buckets, 8 * 4096))
    (hnbuckets : t.nbuckets = 4096) (hcount : t.count = 0)
    (hcache : h.cacheAt t.nodeCache = newSlabCache hashNodeSize) :
    ∃ raw, t.view h = hashtableInit raw 4096 := by
  refine ⟨fun b => readLE h.mem (t.buckets + 8 * b) 8, ?_⟩
  unfold HashtableAt.view hashtableInit
  rw [hnbuckets, hcount, hcache, Hashtable.mk.injEq]
  refine ⟨funext fun b => ?_, rfl, rfl, rfl⟩
  split
  · rename_i hb
    exact hz.read (by omega) (by omega)
  · rfl

theorem capTable {t : ℕ} (hz : ZeroBlock k h (t, LockOrder.capTableSize)) :
    capTableView h.mem t = capTableCreate := by
  have hread : ∀ {a n : ℕ}, t ≤ a → a + n ≤ t + (16 * capTableMax + 8) → readLE h.mem a n = 0 :=
    fun hlo hhi => hz.read hlo hhi
  unfold capTableView capTableCreate
  rw [CapTable.mk.injEq]
  refine ⟨funext fun i => ?_, hread (by omega) (by omega)⟩
  split
  · rw [hread (by omega) (by omega), hread (by omega) (by omega), hread (by omega) (by omega)]
  · rfl

end ZeroBlock

section Ready

variable {info : BootInfo} {slack k r size ptr x : ℕ} {h h' : Heap} {free : List ℕ}
  {om om' : ObjectManager} {s t : BootState} {c : BootCall}

/-- `kmalloc` and `memset` give a block of zeros in new frames. -/
theorem BootCaches.kmalloc_zero (hb : BootCaches slack k r h free)
    (hready : h.kheapInitialized = true) (hlarge : 2048 < size) (hfits : FitsSize size)
    (ha : kmalloc h size = some (ptr, h')) (hne : ptr ≠ 0) :
    NewBlock slack k r h free size ptr { h' with mem := fill h'.mem ptr 0#8 size } ∧
      ZeroBlock (k + numPages size) { h' with mem := fill h'.mem ptr 0#8 size } (ptr, size) := by
  obtain ⟨henough, hfew⟩ := hb.kmalloc_large hready hlarge hfits
  rcases Nat.lt_or_ge h.pmm.totalFrames (k + numPages size) with hlt | hle
  · exact absurd (hfew hlt ptr h' ha).1 hne
  · obtain ⟨ptr', u, hu, _, hn⟩ := henough hle
    rw [ha] at hu
    cases hu
    refine ⟨hn.clear hb, ?_, fun x hlo hhi => if_pos ⟨hlo, hhi⟩⟩
    rw [hn.range.1]
    exact hn.stop

theorem BootCaches.kmalloc_null (hb : BootCaches slack k r h free)
    (hready : h.kheapInitialized = true) (hlarge : 2048 < size) (hfits : FitsSize size)
    (ha : kmalloc h size = some (0, h')) : h' = h := by
  obtain ⟨henough, hfew⟩ := hb.kmalloc_large hready hlarge hfits
  rcases Nat.lt_or_ge h.pmm.totalFrames (k + numPages size) with hlt | hle
  · exact (hfew hlt 0 h' ha).2
  · obtain ⟨ptr, u, hu, hne, _⟩ := henough hle
    rw [ha] at hu
    cases hu
    exact absurd rfl hne

theorem hashtableInitAt_spec (hb : BootCaches slack k r h (x :: free))
    (hready : h.kheapInitialized = true) {t : HashtableAt}
    (hs : hashtableInitAt h 4096 = some (t, h')) :
    BootCaches slack (k + 9) r h' free ∧ h'.kheapInitialized = true ∧ SameRange h.pmm h'.pmm ∧
      t.nbuckets = 4096 ∧ t.count = 0 ∧ CacheMade h' free t.nodeCache hashNodeSize ∧
      ZeroBlock (k + 9) h' (t.buckets, 8 * 4096) := by
  unfold hashtableInitAt at hs
  rw [Nat.mod_eq_of_lt (by decide)] at hs
  cases ha : kmalloc h (8 * 4096) with
  | none => simp [ha] at hs
  | some a =>
      obtain ⟨ptr, u⟩ := a
      simp only [ha] at hs
      split at hs
      · cases hs
      · rename_i hne
        obtain ⟨hn, hz⟩ := hb.kmalloc_zero hready (by decide) (by decide) ha hne
        obtain ⟨c, hcreate, hcaches⟩ := hn.caches.create hashNodeSize
        rw [hcreate] at hs
        cases hs
        exact ⟨hcaches, hn.ready, hn.range, rfl, rfl,
          .created hn.caches.slab.freeChain.nodup, hz.stop, hz.zero⟩

/-- A null table leaves everything as it was. -/
theorem capTableCreateAt_spec (hb : BootCaches slack k r h free)
    (hready : h.kheapInitialized = true) (hs : capTableCreateAt h = some (ptr, h')) :
    (ptr = 0 ∧ h' = h) ∨
      (ptr ≠ 0 ∧ NewBlock slack k r h free LockOrder.capTableSize ptr h' ∧
        ZeroBlock (k + 17) h' (ptr, LockOrder.capTableSize)) := by
  unfold capTableCreateAt at hs
  cases ha : kmalloc h LockOrder.capTableSize with
  | none => simp [ha] at hs
  | some a =>
      obtain ⟨q, u⟩ := a
      simp only [ha] at hs
      split at hs
      · rename_i hnull
        cases hs
        subst hnull
        exact Or.inl ⟨rfl, hb.kmalloc_null hready (by decide) (by decide) ha⟩
      · rename_i hne
        cases hs
        exact Or.inr ⟨hne, hb.kmalloc_zero hready (by decide) (by decide) ha hne⟩

/-- `ob_init`, when the memory is as `mm_init` and `vmm_init` leave it. -/
theorem obInit_ready (hb : BootCaches slack k r h (x :: free)) (hlen : free.length = 118)
    (hready : h.kheapInitialized = true) (hbase : h.pmm.memPhysBase = info.kernelImageStart)
    (htotal : h.pmm.totalFrames = info.frames) (hs : obInit h om = some (h', om')) :
    ObjectsReady info slack (k + 9) r ⟨h', om', []⟩ free ∧ om'.typeCount = 0 := by
  unfold obInit at hs
  cases hi : hashtableInitAt h 4096 with
  | none => simp [hi] at hs
  | some a =>
      obtain ⟨t, u⟩ := a
      simp only [hi] at hs
      cases hs
      obtain ⟨hcaches, hready', hrange, hnbuckets, hcount, hnode, hz⟩ :=
        hashtableInitAt_spec hb hready hi
      refine ⟨?_, rfl⟩
      exact
        { caches := hcaches
          ready := hready'
          base := hrange.1.trans hbase
          total := hrange.2.trans htotal
          count_le := Nat.zero_le _
          nextObjectId := rfl
          nbuckets := hnbuckets
          count := hcount
          nodeCache := hnode
          length := hlen
          slab := fun i hi => absurd hi (Nat.not_lt_zero i)
          type := fun i hi => absurd hi (Nat.not_lt_zero i)
          zero := fun b hb => List.mem_singleton.mp hb ▸ hz
          apart := List.pairwise_singleton _ _ }

namespace ObjectsReady

/-- `object_type_register` takes the next cache object. -/
theorem registerType (hr : ObjectsReady info slack k r s free) {instanceSize : ℕ}
    {create : Option (ℕ → ℕ → Bytes → ℤ × Bytes)} {destroy : Option (ℕ → Bytes → Bytes)}
    (hok : (BootCall.registerType instanceSize create destroy).Ok
      (info.kernelImageStart + info.frames * pageSize))
    (hs : s.call (.registerType instanceSize create destroy) = some t) :
    ∃ free', ObjectsReady info slack k r t free' := by
  obtain ⟨⟨idx, h', om'⟩, hreg, rfl⟩ := Option.map_eq_some_iff.mp hs
  have hlen := hr.length
  unfold objectTypeRegister at hreg
  dsimp only at hreg
  split at hreg
  · cases hreg
  · rename_i hroom
    unfold maxObjectTypes at hroom
    obtain ⟨x, rest, rfl⟩ := List.exists_cons_of_length_pos (l := free) (by omega)
    rw [List.length_cons] at hlen
    have hfit := hok.room
    have hsize : (objectHeaderSize + instanceSize) % 2 ^ 64 = objectHeaderSize + instanceSize := by
      dsimp only at hfit
      omega
    obtain ⟨c, hcreate, hcaches⟩ := hr.caches.create (objectHeaderSize + instanceSize)
    rw [hsize, hcreate] at hreg
    cases hreg
    have hcount : (s.om.typeCount + 1) % 2 ^ 32 = s.om.typeCount + 1 := by omega
    refine ⟨rest,
      { caches := hcaches
        ready := hr.ready
        base := hr.base
        total := hr.total
        count_le := ?_
        nextObjectId := hr.nextObjectId
        nbuckets := hr.nbuckets
        count := hr.count
        nodeCache := hr.nodeCache.create
        length := ?_
        slab := fun i hi => ?_
        type := fun i hi => ?_
        zero := fun b hb => ⟨(hr.zero b hb).stop, (hr.zero b hb).zero⟩
        apart := hr.apart }⟩
    · dsimp only
      unfold maxObjectTypes
      omega
    · dsimp only
      omega
    · dsimp only at hi ⊢
      rw [hcount] at hi
      rcases Nat.lt_succ_iff_lt_or_eq.mp hi with hlt | rfl
      · rw [Function.update_of_ne hlt.ne, Function.update_of_ne hlt.ne]
        exact (hr.slab i hlt).create
      · rw [Function.update_self, Function.update_self]
        exact .created hr.caches.slab.freeChain.nodup
    · dsimp only at hi ⊢
      rw [hcount] at hi
      rcases Nat.lt_succ_iff_lt_or_eq.mp hi with hlt | rfl
      · rw [Function.update_of_ne hlt.ne]
        exact hr.type i hlt
      · rw [Function.update_self]
        exact ⟨hok.header_le, hok.room, hok.create_payload, hok.destroy_payload⟩

theorem setRights (hr : ObjectsReady info slack k r s free) {idx rights : ℕ}
    (hs : s.call (.setRights idx rights) = some t) : ObjectsReady info slack k r t free := by
  cases hs
  have hupdate : ∀ i, Function.update s.om.types idx
      { s.om.types idx with defaultRights := rights } i =
        { s.om.types i with
          defaultRights := if i = idx then rights else (s.om.types i).defaultRights } := by
    intro i
    by_cases hi : i = idx
    · rw [hi, Function.update_self, if_pos rfl]
    · rw [Function.update_of_ne hi, if_neg hi]
  refine
    { caches := hr.caches
      ready := hr.ready
      base := hr.base
      total := hr.total
      count_le := hr.count_le
      nextObjectId := hr.nextObjectId
      nbuckets := hr.nbuckets
      count := hr.count
      nodeCache := hr.nodeCache
      length := hr.length
      slab := fun i hi => ?_
      type := fun i hi => ?_
      zero := hr.zero
      apart := hr.apart }
  · dsimp only
    rw [hupdate]
    exact hr.slab i hi
  · dsimp only
    rw [hupdate]
    have htype := hr.type i hi
    exact ⟨htype.header_le, htype.room, htype.create_payload, htype.destroy_payload⟩

/-- A new capability table lies behind the blocks that there are. -/
theorem addTable (hr : ObjectsReady info slack k r s free)
    (hn : NewBlock slack k r s.heap free LockOrder.capTableSize ptr h')
    (hz : ZeroBlock (k + 17) h' (ptr, LockOrder.capTableSize)) :
    ObjectsReady info slack (k + 17) r ⟨h', s.om, s.tables ++ [ptr]⟩ free := by
  have hold : ∀ b ∈ s.blocks, ZeroBlock (k + 17) h' b :=
    fun b hb => (hr.zero b hb).later (Nat.le_add_right k 17) hn.range hn.below
  have hblocks : BootState.blocks ⟨h', s.om, s.tables ++ [ptr]⟩ =
      s.blocks ++ [(ptr, LockOrder.capTableSize)] := by
    unfold BootState.blocks
    rw [List.map_append, List.cons_append]
    rfl
  refine
    { caches := hn.caches
      ready := hn.ready
      base := hn.range.1.trans hr.base
      total := hn.range.2.trans hr.total
      count_le := hr.count_le
      nextObjectId := hr.nextObjectId
      nbuckets := hr.nbuckets
      count := hr.count
      nodeCache := hr.nodeCache.congr hn.cacheAt
      length := hr.length
      slab := fun i hi => (hr.slab i hi).congr hn.cacheAt
      type := hr.type
      zero := ?_
      apart := ?_ }
  · rw [hblocks]
    intro b hb
    rcases List.mem_append.mp hb with hb | hb
    · exact hold b hb
    · exact List.mem_singleton.mp hb ▸ hz
  · rw [hblocks, List.pairwise_append]
    refine ⟨hr.apart, List.pairwise_singleton _ _, fun b hb c hc => ?_⟩
    rw [List.mem_singleton.mp hc]
    exact (hr.zero b hb).stop.trans hn.start

theorem createTable (hr : ObjectsReady info slack k r s free)
    (hs : s.call .createTable = some t) :
    ∃ k', ObjectsReady info slack k' r t free ∧
      k' + 17 * s.tables.length = k + 17 * t.tables.length := by
  obtain ⟨⟨ptr, h'⟩, hcreate, rfl⟩ := Option.map_eq_some_iff.mp hs
  dsimp only
  rcases capTableCreateAt_spec hr.caches hr.ready hcreate with ⟨rfl, rfl⟩ | ⟨hne, hn, hz⟩
  · exact ⟨k, hr, rfl⟩
  · rw [if_neg hne, List.length_append, List.length_singleton]
    exact ⟨k + 17, hr.addTable hn hz, by omega⟩

theorem call (hr : ObjectsReady info slack k r s free)
    (hok : c.Ok (info.kernelImageStart + info.frames * pageSize)) (hs : s.call c = some t) :
    ∃ k' free', ObjectsReady info slack k' r t free' ∧
      k' + 17 * s.tables.length = k + 17 * t.tables.length := by
  cases c with
  | registerType instanceSize create destroy =>
      obtain ⟨free', hfree⟩ := hr.registerType hok hs
      obtain ⟨_, _, rfl⟩ := Option.map_eq_some_iff.mp hs
      exact ⟨k, free', hfree, rfl⟩
  | setRights idx rights =>
      have hset := hr.setRights hs
      cases hs
      exact ⟨k, free, hset, rfl⟩
  | createTable =>
      obtain ⟨k', hk⟩ := hr.createTable hs
      exact ⟨k', free, hk⟩

/-- `object_type_register` returns as long as there is an entry for the type. -/
theorem registerType_returns (hr : ObjectsReady info slack k r s free) (instanceSize : ℕ)
    (create : Option (ℕ → ℕ → Bytes → ℤ × Bytes)) (destroy : Option (ℕ → Bytes → Bytes)) :
    (∃ t, s.call (.registerType instanceSize create destroy) = some t) ↔
      s.om.typeCount < maxObjectTypes := by
  have hlen := hr.length
  constructor
  · rintro ⟨t, ht⟩
    obtain ⟨_, hreg, _⟩ := Option.map_eq_some_iff.mp ht
    unfold objectTypeRegister at hreg
    dsimp only at hreg
    split at hreg
    · cases hreg
    · omega
  · intro hroom
    have hlt : ¬ maxObjectTypes ≤ s.om.typeCount := by omega
    unfold maxObjectTypes at hroom
    obtain ⟨x, rest, rfl⟩ := List.exists_cons_of_length_pos (l := free) (by omega)
    obtain ⟨c, hcreate, _⟩ := hr.caches.create ((objectHeaderSize + instanceSize) % 2 ^ 64)
    have hreg : ∃ a, objectTypeRegister s.heap s.om instanceSize create destroy = some a := by
      unfold objectTypeRegister
      simp only [if_neg hlt, hcreate]
      exact ⟨_, rfl⟩
    obtain ⟨a, ha⟩ := hreg
    exact ⟨_, Option.map_eq_some_iff.mpr ⟨a, ha, rfl⟩⟩

end ObjectsReady

/-! ## `kernel_main` -/

/-- The image starts at a page, and the root table is a page that ends below the boot heap. -/
structure RootInImage (info : BootInfo) (root : ℕ) : Prop where
  image : info.kernelImageStart % pageSize = 0
  page : root % pageSize = 0
  stop : root + pageSize ≤ info.earlyHeapEnd

variable {arch : Arch} {root : ℕ} {mem : Bytes} {cacheAt : ℕ → SlabCache} {p : Pmm}

/-- The read-only part of the image ends in the RAM. -/
structure ReadonlyInRam (info : BootInfo) : Prop where
  low : info.kernelImageStart ≤ info.kernelReadonlyEnd
  high : info.kernelReadonlyEnd ≤ info.ramStop

/-- No clear frame is the root table, which lies in the image. -/
theorem RootInImage.clear (hroot : RootInImage info root) (hw : info.WellFormed)
    (hb : BootCaches slack (info.reserved + 1) info.reserved h free)
    (hbase : h.pmm.memPhysBase = info.kernelImageStart) :
    ∀ f < h.pmm.totalFrames, h.pmm.used f = false → h.pmm.frameAddr f ≠ root := by
  intro f hf hclear
  rw [hb.filled.used f hf, decide_eq_false_iff_not] at hclear
  have hcover := hw.reserved_covers
  have hstop := hroot.stop
  have hmul := Nat.mul_le_mul_right pageSize (Nat.le_of_not_lt hclear)
  rw [Nat.succ_mul] at hmul
  rw [hb.filled.pmm.frameAddr_eq hf, hbase]
  unfold pageSize at *
  omega

/-- `vmm_init` takes frames and writes to them and to the root. -/
theorem vmmInit_caches (hw : info.WellFormed) (hroot : RootInImage info root) {m : Bytes}
    (hb : BootCaches slack (info.reserved + 1) info.reserved h free)
    (hbase : h.pmm.memPhysBase = info.kernelImageStart) {n : ℕ}
    (hv : vmmInit info root h.pmm h.mem n = .returned (p, m)) :
    SameRange h.pmm p ∧
      ∃ k, BootCaches slack k info.reserved { h with mem := m, pmm := p } free ∧
        (ReadonlyInRam info → k = info.reserved + 1 + info.tablesNeeded) := by
  have hcover := hw.reserved_covers
  have hheap := hw.heap_room
  have hle := hw.image_le
  have hstop := hroot.stop
  have hlt : info.kernelImageStart < 2 ^ 64 := by omega
  have halign : h.pmm.memPhysBase % pageSize = 0 := by
    rw [hbase]
    exact hroot.image
  obtain ⟨hcalls, hbytes⟩ := vmmInit_filled hb.filled halign hroot.page
    (by rw [hbase, Nat.succ_mul]; omega) hlt hv
  obtain ⟨hrange, k, hk, hfilled⟩ := hb.filled.calls hcalls
  refine ⟨hrange, k, hb.grow hfilled hk hrange fun x hx hlo => hbytes x hx (by omega),
    fun hro => ?_⟩
  have hrootLt : root < 2 ^ 64 := by omega
  have hclear := hroot.clear hw hb hbase
  obtain ⟨_, _, _, hend, _⟩ := vmmInit_leaves hb.filled.pmm halign hroot.page hrootLt hclear
    hroot.image hlt hv
  have hframes := vmmInit_frames hb.filled.pmm halign hroot.page hrootLt hclear
    (.of_base hb.filled.pmm hb.base_pos) hroot.image hro.low hro.high hend hv
  have hbefore := hb.filled.freeFrames
  have hafter := hfilled.freeFrames
  rw [hrange.2] at hafter
  omega

/-- On RISC-V the page tables lie between the cache objects and the id table. -/
theorem kernelMain_ready {timerReturns : Bool} {n : ℕ} (hw : info.WellFormed)
    (hroot : arch = .riscv → RootInImage info root)
    (hs : kernelMain arch info root om mem cacheAt timerReturns n = .returned (h, om')) :
    om'.typeCount = 0 ∧ ∃ slack k free,
      ObjectsReady info slack k info.reserved ⟨h, om', []⟩ free ∧
      (arch = .riscv → ReadonlyInRam info → k = info.reserved + 10 + info.tablesNeeded) := by
  unfold kernelMain at hs
  obtain ⟨u, hm, hs⟩ := Outcome.bind_eq_returned.mp hs
  rw [Outcome.ofOption_eq_returned] at hm
  obtain ⟨v, hv, hs⟩ := Outcome.bind_eq_returned.mp hs
  obtain ⟨slack, free, hb, hlen, hready, hbase, htotal⟩ := mmInit_boot hw hm
  obtain ⟨x, rest, rfl⟩ := List.exists_cons_of_length_pos (l := free) (by omega)
  have hrest : rest.length = 118 := Nat.succ.inj hlen
  split at hs
  · rw [Outcome.ofOption_eq_returned] at hs
    cases arch with
    | arm64 =>
        cases hv
        obtain ⟨hr, hzero⟩ := obInit_ready hb hrest hready hbase htotal hs
        exact ⟨hzero, slack, _, rest, hr, nofun⟩
    | riscv =>
        obtain ⟨⟨q, m⟩, hvmm, hv⟩ := Outcome.bind_eq_returned.mp hv
        cases hv
        obtain ⟨hrange, k, hgrow, hk⟩ := vmmInit_caches hw (hroot rfl) hb hbase hvmm
        obtain ⟨hr, hzero⟩ := obInit_ready hgrow hrest hready (hrange.1.trans hbase)
          (hrange.2.trans htotal) hs
        refine ⟨hzero, slack, _, rest, hr, fun _ hro => ?_⟩
        rw [hk hro]
        omega
  · cases hs

/-- A call that returns. -/
def BootCallStep (info : BootInfo) (s : BootState) (c : BootCall) (t : BootState) : Prop :=
  c.Ok (info.kernelImageStart + info.frames * pageSize) ∧ s.call c = some t

/-- The object manager starts in a good state, and its blocks are apart and in used frames. -/
structure BootOk (s : BootState) : Prop where
  boot : ObBoot s.types ⟨s.objects, ⟨fun _ => none, fun _ => 0⟩⟩
  inUse : ∀ b ∈ s.blocks, ∀ j < s.heap.pmm.totalFrames, b.1 < s.heap.pmm.frameAddr j + pageSize →
    s.heap.pmm.frameAddr j < b.1 + b.2 → s.heap.pmm.used j = true
  apart : s.blocks.Pairwise fun b c => b.1 + b.2 ≤ c.1

namespace ObjectsReady

variable {cs : List BootCall}

/-- Only the capability tables take frames. -/
theorem run (hr : ObjectsReady info slack k r s free) (hrun : Run (BootCallStep info) s cs t) :
    ∃ k' free', ObjectsReady info slack k' r t free' ∧
      k' + 17 * s.tables.length = k + 17 * t.tables.length := by
  refine hrun.invariant (I := fun u => ∃ k' free', ObjectsReady info slack k' r u free' ∧
    k' + 17 * s.tables.length = k + 17 * u.tables.length) ?_ ⟨k, free, hr, rfl⟩
  rintro u c v ⟨k', free', hu, hk⟩ ⟨hok, hs⟩
  obtain ⟨k'', free'', hv, hk'⟩ := hu.call hok hs
  exact ⟨k'', free'', hv, by omega⟩

theorem obBoot (hr : ObjectsReady info slack k r s free) :
    ObBoot s.types ⟨s.objects, ⟨fun _ => none, fun _ => 0⟩⟩ where
  ok :=
    { count_le := hr.count_le
      header_le := fun i => (hr.type i i.isLt).header_le
      create_payload := fun i f obj args m hf => (hr.type i i.isLt).create_payload f obj args m hf
      destroy_payload := fun i f obj m hf => (hr.type i i.isLt).destroy_payload f obj m hf }
  pmm := ⟨slack, hr.caches.filled.pmm⟩
  base_pos := hr.caches.base_pos
  room := hr.caches.room
  type_room i := by
    have hroom := (hr.type i i.isLt).room
    rw [← hr.base, ← hr.total] at hroom
    exact hroom
  slabs i := (hr.slab i i.isLt).cache
  idTable := (hr.zero _ List.mem_cons_self).idTable hr.nbuckets hr.count hr.nodeCache.cache
  nextObjectId := hr.nextObjectId
  tables c := by
    have hmem : s.tables.get c ∈ s.tables := List.get_mem s.tables c
    exact (hr.zero _ (List.mem_cons_of_mem _ (List.mem_map_of_mem hmem))).capTable
  destroyCalls := rfl
  ledger := rfl

theorem bootOk (hr : ObjectsReady info slack k r s free) : BootOk s where
  boot := hr.obBoot
  inUse b hb j hj _ hlt := by
    have hstop := (hr.zero b hb).stop
    rw [hr.caches.filled.pmm.frameAddr_eq hj] at hlt
    have hjk : j * pageSize < k * pageSize := by omega
    rw [hr.caches.filled.used j hj]
    exact decide_eq_true (lt_of_mul_lt_mul_right hjk (Nat.zero_le _))
  apart := hr.apart

end ObjectsReady

/-- Whatever is registered and created after `kernel_main` has called `ob_init`, the object
manager then starts in a good state. -/
theorem kernel_main_boots {cs : List BootCall} {timerReturns : Bool} {n : ℕ}
    (hw : info.WellFormed) (hroot : arch = .riscv → RootInImage info root)
    (hs : kernelMain arch info root om mem cacheAt timerReturns n = .returned (h, om'))
    (hrun : Run (BootCallStep info) ⟨h, om', []⟩ cs s) : BootOk s := by
  obtain ⟨_, slack, k, free, hr, _⟩ := kernelMain_ready hw hroot hs
  obtain ⟨k', free', hr', _⟩ := hr.run hrun
  exact hr'.bootOk

/-- `g_om` before `ob_init`. -/
def zeroManager : ObjectManager := ⟨fun _ => ⟨0, none, none, 0⟩, fun _ => 0, 0, ⟨0, 0, 0, 0⟩, 0⟩

theorem kernel_main_boots_one_type : ∃ h om' s,
    kernelMain .riscv smallBoot 0x80001000 zeroManager (fun _ => 0#8) (fun _ => ⟨0, 0, 0⟩)
      true 32 = .returned (h, om') ∧
    Run (BootCallStep smallBoot) ⟨h, om', []⟩ [.registerType 32 none none] s ∧ BootOk s := by
  obtain ⟨⟨h, om'⟩, hs⟩ := Option.isSome_iff_exists.mp (by decide +kernel :
    (kernelMain .riscv smallBoot 0x80001000 zeroManager (fun _ => 0#8)
      (fun _ => ⟨0, 0, 0⟩) true 32).result.isSome = true)
  rw [Outcome.result_eq_some] at hs
  have hw : smallBoot.WellFormed := ⟨by decide, by decide, by decide, by decide⟩
  have hroot : Arch.riscv = .riscv → RootInImage smallBoot 0x80001000 :=
    fun _ => ⟨by decide, by decide, by decide⟩
  obtain ⟨hzero, slack, k, free, hr, _⟩ := kernelMain_ready hw hroot hs
  obtain ⟨s, hcall⟩ := (hr.registerType_returns 32 none none).mpr (by
    dsimp only
    rw [hzero]
    decide)
  have hok : (BootCall.registerType 32 none none).Ok
      (smallBoot.kernelImageStart + smallBoot.frames * pageSize) :=
    ⟨by decide, by decide, nofun, nofun⟩
  have hrun : Run (BootCallStep smallBoot) ⟨h, om', []⟩ [.registerType 32 none none] s :=
    .cons ⟨hok, hcall⟩ (.nil s)
  exact ⟨h, om', s, hs, hrun, kernel_main_boots hw hroot hs hrun⟩

end Ready

end Vectra

import Vectra.Ob.Boot

/-!
# Allocations beside the objects

`object_type_register` and `cap_table_create` take memory of their own while there are objects.
They write to no frame that is in use, so the objects and the id table stay as they are. The
slab of a new type is empty, and a new table is a block of frames in a row.
-/

namespace Vectra

open Lib SlabMem

variable {n : ℕ} {T : Type} {types : Fin n → ObjectType} {type : ObjectType}
  {slack slack' size x : ℕ} {m m' : Bytes} {p p' : Pmm} {slabs : Fin n → SlabCache}
  {ht : Hashtable} {o : SlabOwn (SlabId n)} {nodes : ℕ → List ℕ} {E : ℕ → List (ℕ × ℕ)}
  {V : ℕ → Option ObjectHeader} {h h' : Heap}

/-- The objects do not notice what happens in other frames. -/
theorem ObHeap.kept (h : ObHeap types slack m p slabs ht o nodes E V)
    (hk : FramesKept slack' m m' p p') : ObHeap types slack' m' p' slabs ht o nodes E V := by
  refine ⟨h.ok, h.family.kept hk, h.table.congr rfl h.table.cache_eq rfl rfl ?_, h.size, ?_,
    h.dead⟩
  · intro b hb y hy
    have hheld := h.table.held b hb y hy
    have hsame := h.family.held_kept hk hheld
    rw [h.table.cache_eq, h.table.size] at hsame
    exact ⟨hheld, hsame⟩
  · intro i y hy
    obtain ⟨hlive, htype⟩ := h.live i y hy
    have hslot := h.slot_size (i := i)
    have hsame : SameIn m m' y objectHeaderSize :=
      fun z hz hz' => h.family.held_kept hk hy z hz (by omega)
    rw [readHeader_congr hsame, Field.get_sameIn hsame (by decide)]
    exact ⟨hlive, htype⟩

/-! ## One more type -/

/-- The index that a cache had before the last type was registered. -/
def SlabId.old : SlabId (n + 1) → Option (SlabId n)
  | .node => some .node
  | .type i => Fin.lastCases none (fun i => some (.type i)) i

theorem SlabId.old_castSucc (i : Fin n) :
    SlabId.old (.type i.castSucc) = some (.type i) := by
  simp [SlabId.old]

theorem SlabId.old_last : SlabId.old (.type (Fin.last n)) = none := by
  simp [SlabId.old]

theorem SlabId.old_inj (a b : SlabId (n + 1)) (j : SlabId n) (ha : a.old = some j)
    (hb : b.old = some j) : a = b := by
  have hold : ∀ c : SlabId (n + 1), c.old = some j →
      c = match j with
        | .node => .node
        | .type i => .type i.castSucc := by
    intro c hc
    cases c with
    | node =>
        cases hc
        rfl
    | type i =>
        induction i using Fin.lastCases with
        | last =>
            rw [SlabId.old_last] at hc
            cases hc
        | cast i =>
            rw [SlabId.old_castSucc] at hc
            cases hc
            rfl
  exact (hold a ha).trans (hold b hb).symm

theorem obCache_snoc (slabs : Fin n → SlabCache) (c : SlabCache) (ht : Hashtable) :
    obCache (Fin.snoc slabs c : Fin (n + 1) → SlabCache) ht =
      fun a => a.old.elim c (obCache slabs ht) := by
  funext a
  cases a with
  | node => rfl
  | type i =>
      induction i using Fin.lastCases with
      | last =>
          rw [SlabId.old_last]
          exact Fin.snoc_last (α := fun _ => SlabCache) c slabs
      | cast i =>
          rw [SlabId.old_castSucc]
          exact Fin.snoc_castSucc (α := fun _ => SlabCache) c slabs i

/-- A type that is registered later has no objects. -/
theorem ObHeap.addType (h : ObHeap types slack m p slabs ht o nodes E V)
    (hok : TypesOk (Fin.snoc types type : Fin (n + 1) → ObjectType))
    (hsize : type.instanceSize ≤ slabObjSize size) (hfits : SlabFits p (slabObjSize size)) :
    ObHeap (Fin.snoc types type : Fin (n + 1) → ObjectType) slack m p
      (Fin.snoc slabs (newSlabCache size) : Fin (n + 1) → SlabCache) ht (o.reindex SlabId.old)
      nodes E V := by
  have hfam := h.family.reindex SlabId.old_inj hfits
  rw [← obCache_snoc] at hfam
  have hheld : ∀ (a : SlabId (n + 1)) y, (o.reindex SlabId.old).Held
      (obCache (Fin.snoc slabs (newSlabCache size) : Fin (n + 1) → SlabCache) ht) a y ↔
        ∃ j, a.old = some j ∧ o.Held (obCache slabs ht) j y := by
    intro a y
    rw [obCache_snoc]
    exact SlabOwn.held_reindex
  refine ⟨hok, hfam, ⟨?_, h.table.size, h.table.pos, h.table.chain, fun b hb y hy => ?_,
    h.table.hash, h.table.entries⟩, fun i => ?_, fun i y hy => ?_, fun y hy => ?_⟩
  · exact h.table.cache_eq
  · exact (hheld .node y).mpr ⟨.node, rfl, h.table.held b hb y hy⟩
  · induction i using Fin.lastCases with
    | last =>
        rw [Fin.snoc_last, Fin.snoc_last]
        exact hsize
    | cast i =>
        rw [Fin.snoc_castSucc, Fin.snoc_castSucc]
        exact h.size i
  · obtain ⟨j, hj, hold⟩ := (hheld (.type i) y).mp hy
    induction i using Fin.lastCases with
    | last =>
        rw [SlabId.old_last] at hj
        cases hj
    | cast i =>
        rw [SlabId.old_castSucc] at hj
        cases hj
        exact h.live i y hold
  · refine h.dead y fun i hi => hy i.castSucc ((hheld _ y).mpr ⟨_, SlabId.old_castSucc i, hi⟩)

/-! ## The two calls -/

/-- `slab_cache_create` takes a frame for the cache object at most. -/
theorem slabCacheCreate_kept (hp : PmmInv slack h.pmm) (hfit : SlabFits h.pmm h.metadata.objSize)
    (hs : slabCacheCreate h size = some (x, h')) :
    FramesKept slack h.mem h'.mem h.pmm h'.pmm ∧ h'.kheapInitialized = h.kheapInitialized ∧
      (x ≠ 0 → h'.cacheAt x = newSlabCache size) := by
  unfold slabCacheCreate at hs
  split at hs
  · cases hs
  · rename_i ha
    have hk := slabAlloc_kept hp hfit ha
    split at hs
    · cases hs
      exact ⟨hk, rfl, fun hne => absurd rfl hne⟩
    · cases hs
      exact ⟨hk, rfl, fun _ => Function.update_self _ _ _⟩

/-- What `cap_table_create` comes to with these frames: a table, null or, as `none`, a panic. -/
def capTableRoom (p : Pmm) : Option Bool :=
  match p.nextClear with
  | none => if p.freeFrames = 0 then none else some false
  | some f => if ClearWindow p f (numPages LockOrder.capTableSize) then some true else none

section Table

variable (hp : PmmInv slack h.pmm) (hready : h.kheapInitialized = true)
  (hbase : 0 < h.pmm.memPhysBase)

include hp hready hbase

theorem capTableCreateAt_panics (hroom : capTableRoom h.pmm = none) :
    capTableCreateAt h = none := by
  have hnext : NextBlock slack h LockOrder.capTableSize :=
    kmalloc_next hp hready hbase (by decide) (by decide)
  have hnone : kmalloc h LockOrder.capTableSize = none := by
    unfold capTableRoom at hroom
    cases hf : h.pmm.nextClear with
    | none =>
        rw [hf] at hroom
        rw [hnext.full hf, if_pos]
        by_contra hcount
        simp [hcount] at hroom
    | some f =>
        rw [hf] at hroom
        refine hnext.gap f hf fun hclear => ?_
        simp [hclear] at hroom
  unfold capTableCreateAt
  rw [hnone]

theorem capTableCreateAt_null (hroom : capTableRoom h.pmm = some false) :
    capTableCreateAt h = some (0, h) := by
  have hnext : NextBlock slack h LockOrder.capTableSize :=
    kmalloc_next hp hready hbase (by decide) (by decide)
  unfold capTableRoom at hroom
  cases hf : h.pmm.nextClear with
  | none =>
      have hcount : h.pmm.freeFrames ≠ 0 := by
        intro hcount
        simp [hf, hcount] at hroom
      unfold capTableCreateAt
      rw [hnext.full hf, if_neg hcount]
      rfl
  | some f =>
      rw [hf] at hroom
      dsimp only at hroom
      split at hroom <;> simp at hroom

/-- A new table is empty, and it lies in frames that were clear. -/
theorem capTableCreateAt_table (hroom : capTableRoom h.pmm = some true) :
    ∃ t h', capTableCreateAt h = some (t, h') ∧ t ≠ 0 ∧
      FramesKept slack h.mem h'.mem h.pmm h'.pmm ∧ capTableView h'.mem t = capTableCreate := by
  have hnext : NextBlock slack h LockOrder.capTableSize :=
    kmalloc_next hp hready hbase (by decide) (by decide)
  have hpages : numPages LockOrder.capTableSize = 17 := by decide
  have hsize : LockOrder.capTableSize = 65544 := by decide
  unfold capTableRoom at hroom
  cases hf : h.pmm.nextClear with
  | none =>
      rw [hf] at hroom
      dsimp only at hroom
      split at hroom <;> simp at hroom
  | some f =>
      have hclear : ClearWindow h.pmm f (numPages LockOrder.capTableSize) := by
        by_contra hgap
        simp [hf, hgap] at hroom
      obtain ⟨q, hfound, hq, hrange, hused⟩ := hnext.found f hf hclear
      rw [hpages] at hclear hused
      have hlt : f < h.pmm.totalFrames := by
        have hbound := hclear.1
        omega
      have haddr := hp.frameAddr_eq hlt
      generalize hm : fill (writeHeader h.mem (h.pmm.frameAddr f) LockOrder.capTableSize 0)
        (h.pmm.frameAddr f + allocHeaderSize) 0#8 LockOrder.capTableSize = m'
      have hout : ∀ y, y < h.pmm.frameAddr f ∨ h.pmm.frameAddr f + 17 * pageSize ≤ y →
          m' y = h.mem y := by
        intro y hy
        unfold pageSize at hy
        rw [← hm, hsize]
        unfold allocHeaderSize
        rw [fill_out (by omega), writeHeader_out (by unfold allocHeaderSize; omega)]
      refine ⟨h.pmm.frameAddr f + allocHeaderSize, { h with pmm := q, mem := m' }, ?_, ?_, ?_, ?_⟩
      · unfold capTableCreateAt
        rw [hfound]
        dsimp only
        rw [if_neg (by unfold allocHeaderSize; omega), hm]
      · unfold allocHeaderSize
        omega
      · refine ⟨hq, hrange, fun i hi => by rw [hused, hi, Bool.or_true], fun i hi hset y hlo hhi => ?_⟩
        have hoff : ¬ (f ≤ i ∧ i < f + 17) := by
          rintro ⟨hle, hlt'⟩
          rw [hclear.2 i hle hlt'] at hset
          cases hset
        rw [hp.frameAddr_eq hi] at hlo hhi
        refine hout y ?_
        rw [haddr]
        unfold pageSize at *
        omega
      · refine ZeroBlock.capTable (k := f + 17) (h := { h with pmm := q, mem := m' })
          ⟨?_, fun y hlo hhi => ?_⟩
        · change h.pmm.frameAddr f + allocHeaderSize + LockOrder.capTableSize ≤
            q.memPhysBase + (f + 17) * pageSize
          rw [hrange.1, haddr, hsize]
          unfold allocHeaderSize pageSize
          omega
        · change m' y = 0#8
          rw [← hm]
          exact if_pos ⟨hlo, hhi⟩

end Table

end Vectra

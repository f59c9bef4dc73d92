import Vectra.Lib.Run
import Vectra.Mm.FrameRuns
import Vectra.Mm.KheapBoot
import Vectra.Mm.SlabFamily

/-!
# Runs of the slab allocator

Caches are created, and objects are allocated and released, in any order. The
caches and the metadata cache behind them form a family, whose handed-out slots
are the live objects and the cache objects.
-/

namespace Vectra

open Lib SlabMem

/-- The heap with the caches that `slab_cache_create` returned and the objects
that are handed out, each with its cache. -/
structure SlabState where
  heap : Heap
  created : List ℕ
  live : List (ℕ × ℕ)

inductive SlabOp
  | create (size result : ℕ)
  | alloc (cache result : ℕ)
  | free (cache obj : ℕ)
  | other
  deriving DecidableEq

/-- The metadata cache, or the cache at an address. A cache that has not been created
stands for an empty one. -/
def SlabState.cache (s : SlabState) : Option ℕ → SlabCache
  | none => s.heap.metadata
  | some a => if a ∈ s.created then s.heap.cacheAt a else newSlabCache 8

/-- The slots that are handed out: cache objects and live objects. -/
def SlabState.Taken (s : SlabState) : Option ℕ → ℕ → Prop
  | none, x => x ∈ s.created
  | some a, x => (a, x) ∈ s.live

/-- A page on the list of a cache. -/
def SlabState.Page (s : SlabState) (i : Option ℕ) (page : ℕ) : Prop :=
  ∃ pages, Chain (fun a => (frame s.heap.mem a).next) (s.cache i).slabs pages ∧ page ∈ pages

/-- Other kernel code takes and releases frames, but no pages of caches, and
writes to memory, but within such pages to live objects only. -/
structure OtherSlabCode (s t : SlabState) : Prop where
  pmm : ∃ slack, PmmInv slack t.heap.pmm
  range : SameRange s.heap.pmm t.heap.pmm
  used : ∀ i page, s.Page i page → UsedFrame t.heap.pmm page
  mem : ∀ i page x, s.Page i page → page ≤ x → x < page + pageSize → t.heap.mem x = s.heap.mem x ∨
    ∃ a y, (a, y) ∈ s.live ∧ y ≤ x ∧ x < y + (s.cache (some a)).objSize
  cache : t.heap.cacheAt = s.heap.cacheAt
  metadata : t.heap.cacheMetadataCache = s.heap.cacheMetadataCache
  initialized : t.heap.cacheMetaInitialized = s.heap.cacheMetaInitialized
  created : t.created = s.created
  live : t.live = s.live

/-- Sizes fit into a page, and only live objects are released. -/
def SlabStep (s : SlabState) (op : SlabOp) (t : SlabState) : Prop :=
  match op with
  | .create size r => size ≤ pageSize - frameMetaSize ∧
      slabCacheCreate s.heap size = some (r, t.heap) ∧
      t.created = (if r = 0 then s.created else r :: s.created) ∧ t.live = s.live
  | .alloc c r => c ∈ s.created ∧ slabAllocAt s.heap c = some (r, t.heap) ∧
      t.created = s.created ∧ t.live = if r = 0 then s.live else (c, r) :: s.live
  | .free c x => (c, x) ∈ s.live ∧ t.heap = slabFreeAt s.heap c x ∧ t.created = s.created ∧
      t.live = s.live.filter fun e => e ≠ (c, x)
  | .other => OtherSlabCode s t

/-- The state before the first `slab_cache_create`: a managed range with room for the
pointer arithmetic of the carving loop behind it. -/
structure SlabBoot (s : SlabState) : Prop where
  pmm : ∃ slack, PmmInv slack s.heap.pmm
  base_pos : 0 < s.heap.pmm.memPhysBase
  room : s.heap.pmm.memPhysBase + s.heap.pmm.totalFrames * pageSize + pageSize ≤ 2 ^ 64
  uninitialized : s.heap.cacheMetaInitialized = false
  created : s.created = []
  live : s.live = []

/-- The family of the caches, and what is handed out of it. -/
structure SlabRunInv (s : SlabState) (o : SlabOwn (Option ℕ)) : Prop where
  family : ∃ slack, SlabFamily slack s.heap.mem s.heap.pmm s.cache o
  base_pos : 0 < s.heap.pmm.memPhysBase
  room : s.heap.pmm.memPhysBase + s.heap.pmm.totalFrames * pageSize + pageSize ≤ 2 ^ 64
  held : ∀ i x, o.Held s.cache i x ↔ s.Taken i x
  owner : ∀ a x, (a, x) ∈ s.live → a ∈ s.created

/-- The slots of every cache: on its free list or handed out, aligned, within their pages,
off all page headers, and apart from each other. -/
structure SlabLayout (s : SlabState) (pages free : Option ℕ → List ℕ) : Prop where
  pageChain : ∀ i, Chain (fun a => (frame s.heap.mem a).next) (s.cache i).slabs (pages i)
  freeChain : ∀ i, Chain (link s.heap.mem) (s.cache i).freeObjects (free i)
  free_nodup : ∀ i, (free i).Nodup
  slots : ∀ i x, IsSlot (s.cache i).objSize (pages i) x ↔ x ∈ free i ∨ s.Taken i x
  free_not_taken : ∀ i x, x ∈ free i → ¬ s.Taken i x
  aligned : ∀ i x, IsSlot (s.cache i).objSize (pages i) x → x % 8 = 0
  inside : ∀ i x, IsSlot (s.cache i).objSize (pages i) x →
    ∃ page ∈ pages i, page + frameMetaSize ≤ x ∧ x + (s.cache i).objSize ≤ page + pageSize
  disjoint : ∀ i j x y, IsSlot (s.cache i).objSize (pages i) x →
    IsSlot (s.cache j).objSize (pages j) y → ¬ (i = j ∧ x = y) →
      x + (s.cache i).objSize ≤ y ∨ y + (s.cache j).objSize ≤ x
  headers : ∀ i j x, IsSlot (s.cache i).objSize (pages i) x → ∀ page ∈ pages j,
    x + (s.cache i).objSize ≤ page ∨ page + frameMetaSize ≤ x

section Family

variable {slack : ℕ} {s t : SlabState} {o : SlabOwn (Option ℕ)}
  {x size r c : ℕ}

namespace SlabBoot

theorem inv (h : SlabBoot s) : SlabRunInv s ⟨fun _ => [], fun _ => []⟩ := by
  obtain ⟨slack, hp⟩ := h.pmm
  have hcache : ∀ i, s.cache i = newSlabCache 32 ∨ s.cache i = newSlabCache 8 := by
    intro i
    cases i with
    | none =>
        left
        simp [SlabState.cache, Heap.metadata, h.uninitialized]
        decide
    | some a =>
        right
        simp [SlabState.cache, h.created]
  have hfits : ∀ i, SlabFits s.heap.pmm (s.cache i).objSize := by
    intro i
    rcases hcache i with heq | heq <;> rw [heq] <;>
      exact slabObjSize_fits h.base_pos h.room (by decide)
  refine ⟨⟨slack, ⟨hp, hfits, ?_, ?_⟩⟩, h.base_pos, h.room, ?_, ?_⟩
  · intro i
    rcases hcache i with heq | heq <;> rw [heq] <;> exact .new _ _ _
  · intro i j _ page hpage
    cases hpage
  · intro i x
    have hheld : ¬ SlabOwn.Held ⟨fun _ => [], fun _ => []⟩ s.cache i x := by
      rintro ⟨⟨page, hpage, _⟩, _⟩
      cases hpage
    cases i with
    | none => simpa [SlabState.Taken, h.created] using hheld
    | some a => simpa [SlabState.Taken, h.live] using hheld
  · intro a x hmem
    rw [h.live] at hmem
    cases hmem

end SlabBoot

namespace SlabRunInv

theorem live_pos (h : SlabRunInv s o) (hc : c ∈ s.created) : c ≠ 0 := by
  obtain ⟨slack, hf⟩ := h.family
  exact hf.held_pos ((h.held none c).mpr hc)

/-- Everything that `slab_cache_create` does to the heap. -/
theorem slabCacheCreate_some {h h' : Heap} (hs : slabCacheCreate h size = some (r, h')) :
    ∃ c', slabAlloc h.mem h.pmm h.metadata = some (r, h'.mem, h'.pmm, c') ∧ h'.metadata = c' ∧
      h'.cacheAt = if r = 0 then h.cacheAt else
        Function.update h.cacheAt r (newSlabCache size) := by
  have hmeta : (if h.cacheMetaInitialized then h.cacheMetadataCache
      else ⟨slabCacheStructSize, 0, 0⟩) = h.metadata := rfl
  unfold slabCacheCreate at hs
  rw [hmeta] at hs
  cases halloc : slabAlloc h.mem h.pmm h.metadata with
  | none => simp [halloc] at hs
  | some a =>
      obtain ⟨x, m, p, c'⟩ := a
      simp only [halloc] at hs
      split at hs
      · rename_i hzero
        cases hs
        exact ⟨c', by rw [hzero], rfl, (if_pos rfl).symm⟩
      · rename_i hne
        cases hs
        exact ⟨c', rfl, rfl, (if_neg hne).symm⟩

/-- The caches after a creation: the metadata cache has handed out a slot, and there is one
new cache. -/
theorem cache_create (hs : SlabStep s (.create size r) t) :
    ∃ c', slabAlloc s.heap.mem s.heap.pmm (s.cache none) =
        some (r, t.heap.mem, t.heap.pmm, c') ∧
      t.cache = if r = 0 then Function.update s.cache none c' else
        Function.update (Function.update s.cache none c') (some r) (newSlabCache size) := by
  obtain ⟨-, hcreate, hcreated, -⟩ := hs
  obtain ⟨c', halloc, hmeta, hcacheAt⟩ := slabCacheCreate_some hcreate
  refine ⟨c', halloc, ?_⟩
  by_cases hzero : r = 0
  · rw [if_pos hzero] at hcreated hcacheAt ⊢
    funext i
    cases i with
    | none =>
        rw [Function.update_self]
        exact hmeta
    | some a =>
        rw [Function.update_of_ne (by simp)]
        simp only [SlabState.cache, hcreated, hcacheAt]
  · rw [if_neg hzero] at hcreated hcacheAt ⊢
    funext i
    cases i with
    | none =>
        rw [Function.update_of_ne (by simp), Function.update_self]
        exact hmeta
    | some a =>
        by_cases har : a = r
        · rw [har, Function.update_self]
          simp [SlabState.cache, hcreated, hcacheAt]
        · rw [Function.update_of_ne (by simpa using har), Function.update_of_ne (by simp)]
          simp [SlabState.cache, hcreated, hcacheAt, har]

/-- The caches after an allocation: only its own has changed. -/
theorem cache_alloc (hne : c ≠ 0) (hs : SlabStep s (.alloc c r) t) :
    ∃ c', slabAlloc s.heap.mem s.heap.pmm (s.cache (some c)) =
        some (r, t.heap.mem, t.heap.pmm, c') ∧
      t.cache = Function.update s.cache (some c) c' := by
  obtain ⟨hc, halloc, hcreated, -⟩ := hs
  have hself : s.cache (some c) = s.heap.cacheAt c := by simp [SlabState.cache, hc]
  unfold slabAllocAt at halloc
  rw [if_neg hne, ← hself] at halloc
  cases ha : slabAlloc s.heap.mem s.heap.pmm (s.cache (some c)) with
  | none => simp [ha] at halloc
  | some a =>
      obtain ⟨x, m, p, c'⟩ := a
      simp only [ha, Option.some.injEq, Prod.mk.injEq] at halloc
      obtain ⟨rfl, hheap⟩ := halloc
      refine ⟨c', by rw [← hheap], ?_⟩
      funext i
      cases i with
      | none =>
          rw [Function.update_of_ne (by simp)]
          simp only [SlabState.cache, Heap.metadata, ← hheap]
      | some a =>
          by_cases hac : a = c
          · rw [hac, Function.update_self]
            simp [SlabState.cache, hcreated, hc, ← hheap]
          · rw [Function.update_of_ne (by simpa using hac)]
            simp [SlabState.cache, hcreated, ← hheap, hac]

/-- The memory and the caches after a release: only its own cache has changed. -/
theorem cache_free (hne : c ≠ 0) (hc : c ∈ s.created) (hs : SlabStep s (.free c x) t) :
    t.heap.mem = (slabFree s.heap.mem (s.cache (some c)) x).1 ∧ t.heap.pmm = s.heap.pmm ∧
      t.cache =
        Function.update s.cache (some c) (slabFree s.heap.mem (s.cache (some c)) x).2 := by
  obtain ⟨-, hheap, hcreated, -⟩ := hs
  have hself : s.cache (some c) = s.heap.cacheAt c := by simp [SlabState.cache, hc]
  unfold slabFreeAt at hheap
  rw [if_neg hne, ← hself] at hheap
  refine ⟨by rw [hheap], by rw [hheap], ?_⟩
  funext i
  cases i with
  | none =>
      rw [Function.update_of_ne (by simp)]
      simp only [SlabState.cache, Heap.metadata, hheap]
  | some a =>
      by_cases hac : a = c
      · rw [hac, Function.update_self]
        simp only [SlabState.cache, hcreated, hc, if_true, hheap, Function.update_self]
      · rw [Function.update_of_ne (by simpa using hac)]
        simp only [SlabState.cache, hcreated, hheap, Function.update_of_ne hac]

/-- A new cache is a fresh slot of the metadata cache. -/
theorem create (h : SlabRunInv s o) (hs : SlabStep s (.create size r) t) :
    (∃ o', SlabRunInv t o') ∧ ∀ i, ¬ s.Taken i r := by
  obtain ⟨slack, hf⟩ := h.family
  obtain ⟨c', halloc, hcache⟩ := cache_create hs
  obtain ⟨hsize, _, hcreated, hlive⟩ := hs
  obtain ⟨o', hf', _, hheld, hfresh, _⟩ := hf.alloc (i := none) halloc
  have hrange : SameRange s.heap.pmm t.heap.pmm := by
    obtain ⟨_, _, ha⟩ := (hf.slab none).slabAlloc hf.pmm (hf.fits none) halloc
    exact ha.sameRange
  have hroom := h.room
  have hbase := h.base_pos
  rw [← hrange.1, ← hrange.2] at hroom
  rw [← hrange.1] at hbase
  have hnot : ∀ i, ¬ s.Taken i r := fun i htaken => hfresh i ((h.held i r).mpr htaken)
  refine ⟨?_, hnot⟩
  by_cases hzero : r = 0
  · rw [if_pos hzero] at hcreated hcache
    refine ⟨o', ⟨⟨slack, hcache ▸ hf'⟩, hbase, hroom, fun i x => ?_, fun a x hmem => ?_⟩⟩
    · rw [hcache, hheld]
      have htaken : t.Taken i x ↔ s.Taken i x := by
        cases i <;> simp only [SlabState.Taken, hcreated, hlive]
      simp [hzero, htaken, h.held i x]
    · rw [hlive] at hmem
      rw [hcreated]
      exact h.owner a x hmem
  · rw [if_neg hzero] at hcreated hcache
    have hnew : r ∉ s.created := hnot none
    -- before its creation the cache has no page
    have hempty : Function.update s.cache none c' (some r) = newSlabCache 8 := by
      rw [Function.update_of_ne (by simp)]
      simp [SlabState.cache, hnew]
    have hinv := hf'.slab (some r)
    rw [hempty] at hinv
    have hpages : o'.pages (some r) = [] := hinv.pageChain.eq_nil_iff.mpr rfl
    have hfree : o'.free (some r) = [] := hinv.freeChain.eq_nil_iff.mpr rfl
    have hf'' := hf'.renew (slabObjSize_fits hbase hroom hsize) hpages hfree
    rw [← hcache] at hf''
    refine ⟨o', ⟨⟨slack, hf''⟩, hbase, hroom, fun i x => ?_, fun a x hmem => ?_⟩⟩
    · have hsame : o'.Held t.cache i x ↔ o'.Held (Function.update s.cache none c') i x := by
        unfold SlabOwn.Held
        by_cases hir : i = some r
        · rw [hir, hpages]
          simp [Allocated, IsSlot]
        · rw [hcache, Function.update_of_ne hir]
      rw [hsame, hheld]
      cases i with
      | none => simp [SlabState.Taken, hcreated, hzero, h.held none x]
      | some a => simp [SlabState.Taken, hlive, h.held (some a) x]
    · rw [hlive] at hmem
      rw [hcreated]
      exact List.mem_cons_of_mem r (h.owner a x hmem)

/-- An allocation hands out a slot that was not handed out, of its own cache. -/
theorem alloc (h : SlabRunInv s o) (hs : SlabStep s (.alloc c r) t) :
    (∃ o', SlabRunInv t o') ∧ ∀ i, ¬ s.Taken i r := by
  obtain ⟨slack, hf⟩ := h.family
  obtain ⟨c', ha, hcache⟩ := cache_alloc (h.live_pos hs.1) hs
  obtain ⟨hc, _, hcreated, hlive⟩ := hs
  obtain ⟨o', hf', _, hheld, hfresh, _⟩ := hf.alloc ha
  have hrange : SameRange s.heap.pmm t.heap.pmm := by
    obtain ⟨_, _, hres⟩ := (hf.slab (some c)).slabAlloc hf.pmm (hf.fits (some c)) ha
    exact hres.sameRange
  refine ⟨⟨o', ⟨⟨slack, ?_⟩, ?_, ?_, fun i y => ?_, fun a y hmem => ?_⟩⟩,
    fun i htaken => hfresh i ((h.held i r).mpr htaken)⟩
  · rw [hcache]
    exact hf'
  · rw [hrange.1]
    exact h.base_pos
  · rw [hrange.1, hrange.2]
    exact h.room
  · rw [hcache, hheld, h.held i y]
    cases i with
    | none => simp [SlabState.Taken, hcreated]
    | some a =>
        simp only [SlabState.Taken, hlive, Option.some.injEq]
        split
        · rename_i hzero
          simp [hzero]
        · rename_i hx
          simp [hx, List.mem_cons, and_comm]
  · rw [hlive] at hmem
    rw [hcreated]
    split at hmem
    · exact h.owner a y hmem
    · rcases List.mem_cons.mp hmem with heq | hmem
      · cases heq
        exact hc
      · exact h.owner a y hmem

/-- Releasing an object puts its slot back on the free list. -/
theorem free (h : SlabRunInv s o) (hs : SlabStep s (.free c x) t) : ∃ o', SlabRunInv t o' := by
  obtain ⟨slack, hf⟩ := h.family
  have hc := h.owner c x hs.1
  obtain ⟨hmem, hpmm, hcache⟩ := cache_free (h.live_pos hc) hc hs
  obtain ⟨hx, _, hcreated, hlive⟩ := hs
  obtain ⟨hf', _, hheld, _⟩ := hf.free ((h.held (some c) x).mpr hx)
  refine ⟨o.set (some c) (o.pages (some c)) (x :: o.free (some c)),
    ⟨⟨slack, ?_⟩, ?_, ?_, fun i y => ?_, fun a y hmem => ?_⟩⟩
  · rw [hcache, hmem, hpmm]
    exact hf'
  · rw [hpmm]
    exact h.base_pos
  · rw [hpmm]
    exact h.room
  · rw [hcache, hheld, h.held i y]
    cases i with
    | none =>
        have hnot : ¬ s.Taken none x := by
          intro htaken
          have heq := hf.held_inj ((h.held none x).mpr htaken) ((h.held (some c) x).mpr hx)
          cases heq
        simp only [SlabState.Taken, hcreated]
        refine ⟨fun hy => hy.1, fun hy => ⟨hy, ?_⟩⟩
        rintro rfl
        exact hnot hy
    | some a =>
        simp only [SlabState.Taken, hlive, List.mem_filter, decide_eq_true_eq, ne_eq, Prod.mk.injEq]
        refine and_congr_right fun hy => ?_
        constructor
        · exact fun hyx heq => hyx heq.2
        · rintro hnot rfl
          have heq := hf.held_inj ((h.held (some a) y).mpr hy) ((h.held (some c) y).mpr hx)
          exact hnot ⟨Option.some.inj heq, rfl⟩
  · rw [hlive] at hmem
    rw [hcreated]
    exact h.owner a y (List.mem_of_mem_filter hmem)

/-- Other code that keeps off the pages leaves the family as it is. -/
theorem other (h : SlabRunInv s o) (hs : OtherSlabCode s t) : SlabRunInv t o := by
  obtain ⟨slack, hf⟩ := h.family
  obtain ⟨slack', hp⟩ := hs.pmm
  have hcache : t.cache = s.cache := by
    funext i
    cases i with
    | none => simp only [SlabState.cache, Heap.metadata, hs.metadata, hs.initialized]
    | some a => simp only [SlabState.cache, hs.created, hs.cache]
  have hpage : ∀ i, ∀ page ∈ o.pages i, s.Page i page :=
    fun i page hmem => ⟨o.pages i, (hf.slab i).pageChain, hmem⟩
  have hlive : ∀ a y, (a, y) ∈ s.live → o.Held s.cache (some a) y :=
    fun a y hmem => (h.held (some a) y).mpr hmem
  refine ⟨⟨slack', ?_⟩, ?_, ?_, ?_, ?_⟩
  · rw [hcache]
    refine hf.congr hp hs.range (fun i page hmem => hs.used i page (hpage i page hmem)) ?_ ?_
    · intro i page hmem z hlo hhi
      rcases hs.mem i page z (hpage i page hmem) hlo (by unfold pageSize; omega) with
        hsame | ⟨a, y, hy, hylo, hyhi⟩
      · exact hsame
      · obtain ⟨page', hpage', hlo', hhi'⟩ := hf.held_page (hlive a y hy)
        by_cases hia : i = some a
        · subst hia
          have hoff := (hlive a y hy).1.off_header hf.pmm (hf.slab (some a)).page_used hmem
          omega
        · have hsep := hf.pages_separate hia hmem hpage'
          unfold pageSize at *
          omega
    · intro i x hx z hlo hhi
      obtain ⟨page, hmem, hplo, hphi⟩ :=
        ((hf.slab i).free_isSlot hx).in_page hf.pmm (hf.slab i).page_used
      have hge := (hf.fits i).size_ge
      rcases hs.mem i page z (hpage i page hmem) (by omega) (by omega) with
        hsame | ⟨a, y, hy, hylo, hyhi⟩
      · exact hsame
      · obtain ⟨page', hpage', hlo', hhi'⟩ := hf.held_page (hlive a y hy)
        by_cases hia : i = some a
        · subst hia
          have hne : x ≠ y := by
            rintro rfl
            exact (hlive a x hy).2 hx
          have hsep := ((hf.slab (some a)).free_isSlot hx).separate hf.pmm
            (hf.slab (some a)).page_used (hlive a y hy).1 hne
          omega
        · have hsep := hf.pages_separate hia hmem hpage'
          unfold pageSize at *
          omega
  · rw [hs.range.1]
    exact h.base_pos
  · rw [hs.range.1, hs.range.2]
    exact h.room
  · intro i x
    rw [hcache, h.held i x]
    cases i with
    | none => simp only [SlabState.Taken, hs.created]
    | some a => simp only [SlabState.Taken, hs.live]
  · rw [hs.live, hs.created]
    exact h.owner

/-- Every step keeps the invariant. -/
theorem step {op : SlabOp} (h : SlabRunInv s o) (hs : SlabStep s op t) : ∃ o', SlabRunInv t o' := by
  cases op with
  | create size r => exact (h.create hs).1
  | alloc c r => exact (h.alloc hs).1
  | free c x => exact h.free hs
  | other => exact ⟨o, h.other hs⟩

/-- What the invariant says about the slots. -/
theorem layout (h : SlabRunInv s o) : SlabLayout s o.pages o.free := by
  obtain ⟨slack, hf⟩ := h.family
  have hslot : ∀ i x, IsSlot (s.cache i).objSize (o.pages i) x ↔ x ∈ o.free i ∨ s.Taken i x := by
    intro i x
    rw [← h.held i x]
    constructor
    · intro hx
      by_cases hfree : x ∈ o.free i
      · exact Or.inl hfree
      · exact Or.inr ⟨hx, hfree⟩
    · rintro (hfree | hheld)
      · exact (hf.slab i).free_isSlot hfree
      · exact hheld.1
  have hpage : ∀ i x, IsSlot (s.cache i).objSize (o.pages i) x →
      ∃ page ∈ o.pages i, page + 16 ≤ x ∧ x + (s.cache i).objSize ≤ page + pageSize :=
    fun i x hx => hx.in_page hf.pmm (hf.slab i).page_used
  refine
    { pageChain := fun i => (hf.slab i).pageChain
      freeChain := fun i => (hf.slab i).freeChain
      free_nodup := fun i => (hf.slab i).freeChain.nodup
      slots := hslot
      free_not_taken := fun i x hfree htaken => ((h.held i x).mpr htaken).2 hfree
      aligned := ?_
      inside := hpage
      disjoint := ?_
      headers := ?_ }
  · rintro i x ⟨page, hmem, hx⟩
    have hbounds := ((hf.slab i).page_used page hmem).bounds hf.pmm
    have hrange := hf.pmm.range
    exact (mem_pageSlots (by omega) hx).2.2 (hf.fits i).size_dvd
  · intro i j x y hx hy hne
    by_cases hij : i = j
    · subst hij
      exact hx.separate hf.pmm (hf.slab i).page_used hy fun hxy => hne ⟨rfl, hxy⟩
    · obtain ⟨px, hpx, hxlo, hxhi⟩ := hpage i x hx
      obtain ⟨py, hpy, hylo, hyhi⟩ := hpage j y hy
      have hsep := hf.pages_separate hij hpx hpy
      omega
  · intro i j x hx page hmem
    unfold frameMetaSize
    by_cases hij : i = j
    · subst hij
      exact (hx.off_header hf.pmm (hf.slab i).page_used hmem).symm
    · obtain ⟨px, hpx, hxlo, hxhi⟩ := hpage i x hx
      have hsep := hf.pages_separate hij hpx hmem
      unfold pageSize at *
      omega

end SlabRunInv

/-- In every run the caches keep their slots apart, and a slot is never handed out twice. -/
theorem slab_run_layout {ops : List SlabOp} (hboot : SlabBoot s) (hrun : Run SlabStep s ops t) :
    (∃ pages free, SlabLayout t pages free) ∧
      (∀ c r u, SlabStep t (.alloc c r) u → ∀ i, ¬ t.Taken i r) ∧
      ∀ size r u, SlabStep t (.create size r) u → ∀ i, ¬ t.Taken i r := by
  obtain ⟨o, hinv⟩ := hrun.invariant (I := fun u => ∃ o, SlabRunInv u o)
    (fun _ _ _ hu hstep => hu.elim fun _ hi => hi.step hstep) ⟨_, hboot.inv⟩
  exact ⟨⟨o.pages, o.free, hinv.layout⟩, fun _ _ _ hstep => (hinv.alloc hstep).2,
    fun _ _ _ hstep => (hinv.create hstep).2⟩

end Family

/-- Two free frames, and no cache yet. -/
def smallSlabs : SlabState :=
  ⟨Heap.boot (fun _ => 0#8) (fun _ => ⟨0, 0, 0⟩) (pmmFreeRegion smallPmm 0x40000 0x2000), [], []⟩

theorem slab_run_layout_one_object :
    ∃ t pages free, Run SlabStep smallSlabs [.create 100 0x40fd0, .alloc 0x40fd0 0x41f80,
        .free 0x40fd0 0x41f80] t ∧
      t.created = [0x40fd0] ∧ t.live = [] ∧ SlabLayout t pages free := by
  have heval : (slabCacheCreate smallSlabs.heap 100 >>= fun a =>
      slabAllocAt a.2 0x40fd0 >>= fun b => some (a.1, b.1)) = some (0x40fd0, 0x41f80) := by
    decide +kernel
  obtain ⟨a, ha, hrest⟩ := Option.bind_eq_some_iff.mp heval
  obtain ⟨b, hb, hresult⟩ := Option.bind_eq_some_iff.mp hrest
  obtain ⟨ra, ha'⟩ := a
  obtain ⟨rb, hb'⟩ := b
  cases hresult
  have hrun : Run SlabStep smallSlabs [.create 100 0x40fd0, .alloc 0x40fd0 0x41f80,
      .free 0x40fd0 0x41f80] ⟨slabFreeAt hb' 0x40fd0 0x41f80, [0x40fd0], []⟩ :=
    .cons (u := ⟨ha', [0x40fd0], []⟩) ⟨by decide, ha, rfl, rfl⟩
      (.cons (u := ⟨hb', [0x40fd0], [(0x40fd0, 0x41f80)]⟩)
        ⟨List.mem_cons_self, hb, rfl, rfl⟩
        (.cons (u := ⟨slabFreeAt hb' 0x40fd0 0x41f80, [0x40fd0], []⟩)
          ⟨List.mem_cons_self, rfl, rfl, rfl⟩ (.nil _)))
  have hpmm : Run PmmStep smallPmm [(.freeRegion 0x40000 0x2000, 0)] smallSlabs.heap.pmm :=
    .cons ⟨⟨by decide, by decide⟩, rfl⟩ (.nil _)
  have hboot : SlabBoot smallSlabs :=
    { pmm := ⟨_, (run_pmmInv hpmm (pmmInit_inv rfl (range_of_wrap (by decide)) smallPmm_init)).1⟩
      base_pos := by decide
      room := by decide
      uninitialized := rfl
      created := rfl
      live := rfl }
  obtain ⟨pages, free, hlayout⟩ := (slab_run_layout hboot hrun).1
  exact ⟨_, pages, free, hrun, rfl, rfl, hlayout⟩

end Vectra

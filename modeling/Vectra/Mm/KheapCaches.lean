import Vectra.Mm.KheapInvariant

/-!
# The bucket caches under allocation and release

An allocation from a bucket hands out one slot and may take one free frame;
a release puts one slot back. Both leave the other caches, the owners of
all other frames, and the bytes of every other piece as they were.
-/

namespace Vectra

open Lib SlabMem

/-- The ownership after one cache has new lists of pages and free slots. -/
def Ownership.setCache (o : Ownership) (p : Pmm) (b : ℕ) (pages free : List ℕ) : Ownership where
  own j := if p.frameAddr j ∈ pages then some (.slab b) else o.own j
  pages := Function.update o.pages b pages
  free := Function.update o.free b free

/-- A heap in which only memory, frames and the cache of one bucket differ. -/
structure CacheReplaced (h h' : Heap) (b : ℕ) (c : SlabCache) : Prop where
  cacheAt : h'.cacheAt = Function.update h.cacheAt (h.kmallocCaches b) c
  caches : h'.kmallocCaches = h.kmallocCaches
  metadata : h'.cacheMetadataCache = h.cacheMetadataCache
  ready : h'.kheapInitialized = h.kheapInitialized

/-- A heap in which the cache objects are the same. -/
structure SameCaches (h h' : Heap) : Prop where
  cacheAt : h'.cacheAt = h.cacheAt
  caches : h'.kmallocCaches = h.kmallocCaches
  metadata : h'.cacheMetadataCache = h.cacheMetadataCache
  ready : h'.kheapInitialized = h.kheapInitialized

theorem SameCaches.cache {h h' : Heap} (hs : SameCaches h h') (i : ℕ) : h'.cache i = h.cache i := by
  unfold Heap.cache
  rw [hs.cacheAt, hs.caches, hs.metadata]

namespace CachesInv

variable {slack : ℕ} {h h' : Heap} {o : Ownership} {P : Piece} {b x : ℕ} {c : SlabCache}
  {pages free : List ℕ}

theorem cache_self (hb : b < numSlabBuckets) (hr : CacheReplaced h h' b c) : h'.cache b = c := by
  unfold Heap.cache
  rw [if_pos hb, hr.caches, hr.cacheAt, Function.update_self]

theorem cache_other (hc : CachesInv slack h o) (hb : b < numSlabBuckets)
    (hr : CacheReplaced h h' b c) {i : ℕ} (hne : i ≠ b) : h'.cache i = h.cache i := by
  unfold Heap.cache
  split
  · rename_i hi
    have hptr : h.kmallocCaches i ≠ h.kmallocCaches b := fun heq =>
      hne (hc.pointer_inj i hi b hb heq)
    rw [hr.caches, hr.cacheAt, Function.update_of_ne hptr]
  · exact hr.metadata

theorem used_of_own (hc : CachesInv slack h o) {j : ℕ} (hj : j < h.pmm.totalFrames)
    {w : FrameOwner} (hw : o.own j = some w) : h.pmm.used j = true := by
  rw [hc.own_used j hj, hw]
  rfl

theorem own_none (hc : CachesInv slack h o) {j : ℕ} (hj : j < h.pmm.totalFrames)
    (hclear : h.pmm.used j = false) : o.own j = none := by
  rw [hc.own_used j hj] at hclear
  simpa using hclear

/-- Putting one cache into a new state, with pages that were its own or free. -/
theorem setCache (hc : CachesInv slack h o) (hb : b < numSlabBuckets)
    (hr : CacheReplaced h h' b c) (hinv : SlabInv h'.mem h'.pmm c pages free)
    (hsize : c.objSize = cacheObjSize b) (hp : PmmInv slack h'.pmm)
    (hrange : SameRange h.pmm h'.pmm)
    (hmono : ∀ j, h.pmm.used j = true → h'.pmm.used j = true)
    (hpages : ∀ j < h.pmm.totalFrames, h.pmm.frameAddr j ∈ pages ↔
      h.pmm.frameAddr j ∈ o.pages b ∨ (o.own j = none ∧ h'.pmm.used j = true))
    (hsame : ∀ P : Piece, P.Valid h.pmm o → P.owner ≠ some (.slab b) → P.owner ≠ none →
      ∀ y, P.Mem h.pmm y → h'.mem y = h.mem y) :
    CachesInv slack h' (o.setCache h.pmm b pages free) where
  pmm := hp
  base_pos := by rw [hrange.1]; exact hc.base_pos
  room := by rw [hrange.1, hrange.2]; exact hc.room
  size := by
    intro i hi
    by_cases hib : i = b
    · rw [hib, cache_self hb hr, hsize]
    · rw [hc.cache_other hb hr hib, hc.size i hi]
  slab := by
    intro i hi
    by_cases hib : i = b
    · subst hib
      simp only [cache_self hb hr, Ownership.setCache, Function.update_self]
      exact hinv
    · simp only [hc.cache_other hb hr hib, Ownership.setCache, Function.update_of_ne hib]
      have hnb : some (FrameOwner.slab i) ≠ some (.slab b) := fun heq => hib (by cases heq; rfl)
      have hobj := hc.size i hi
      refine (hc.slab i hi).congr hrange hmono ?_ ?_
      · intro page hpage y hlo hhi
        exact hsame (.header i page) ⟨hi, hpage⟩ hnb (by simp [Piece.owner]) y ⟨hlo, hhi⟩
      · intro z hz y hlo hhi
        have hfacts := cacheObjSize_facts i
        exact hsame (.slot i z) ⟨hi, hobj ▸ (hc.slab i hi).free_isSlot hz⟩ hnb
          (by simp [Piece.owner]) y ⟨hlo, by omega⟩
  pointer := by
    intro i hi
    have hne : numSlabBuckets ≠ b := by omega
    simp only [Ownership.setCache, Function.update_of_ne hne, hr.caches]
    exact hc.pointer i hi
  pointer_inj := by
    rw [hr.caches]
    exact hc.pointer_inj
  own_used := by
    intro j hj
    rw [hrange.2] at hj
    simp only [Ownership.setCache]
    by_cases hmem : h.pmm.frameAddr j ∈ pages
    · rw [if_pos hmem]
      rcases (hpages j hj).mp hmem with hold | ⟨_, hset⟩
      · exact hmono j (hc.used_of_own hj ((hc.own_slab b (by omega) j hj).mpr hold))
      · exact hset
    · rw [if_neg hmem]
      cases hown : o.own j with
      | some w => exact hmono j (hc.used_of_own hj hown)
      | none =>
          have hnot : ¬ h'.pmm.used j = true := fun hset =>
            hmem ((hpages j hj).mpr (Or.inr ⟨hown, hset⟩))
          simpa using hnot
  own_slab := by
    intro i hi j hj
    rw [hrange.2] at hj
    rw [hrange.frameAddr]
    simp only [Ownership.setCache]
    have hold := hc.own_slab i hi j hj
    by_cases hmem : h.pmm.frameAddr j ∈ pages
    · rw [if_pos hmem]
      by_cases hib : i = b
      · subst hib
        simpa using hmem
      · have hne : b ≠ i := fun heq => hib heq.symm
        simp only [Function.update_of_ne hib, Option.some.injEq, FrameOwner.slab.injEq, hne,
          false_iff]
        intro hpi
        have howni := hold.mpr hpi
        rcases (hpages j hj).mp hmem with hpb | ⟨hnone, _⟩
        · have hownb := (hc.own_slab b (by omega) j hj).mpr hpb
          rw [howni] at hownb
          cases hownb
          exact hib rfl
        · rw [howni] at hnone
          cases hnone
    · rw [if_neg hmem]
      by_cases hib : i = b
      · subst hib
        have hnot : h.pmm.frameAddr j ∉ o.pages i := fun hin =>
          hmem ((hpages j hj).mpr (Or.inl hin))
        simp [hold, hmem, hnot]
      · rw [Function.update_of_ne hib]
        exact hold

/-- Pieces with an owner outlive the step. -/
theorem setCache_valid (hc : CachesInv slack h o) (hb : b < numSlabBuckets)
    (hrange : SameRange h.pmm h'.pmm)
    (hpages : ∀ j < h.pmm.totalFrames, h.pmm.frameAddr j ∈ pages →
      h.pmm.frameAddr j ∈ o.pages b ∨ o.own j = none)
    (hsub : ∀ page ∈ o.pages b, page ∈ pages) (hP : P.Valid h.pmm o) (hown : P.owner ≠ none) :
    P.Valid h'.pmm (o.setCache h.pmm b pages free) := by
  have hmono : ∀ i, ∀ page ∈ o.pages i, page ∈ (o.setCache h.pmm b pages free).pages i := by
    intro i page hpage
    by_cases hib : i = b
    · subst hib
      simpa [Ownership.setCache] using hsub page hpage
    · simpa [Ownership.setCache, Function.update_of_ne hib] using hpage
  cases P with
  | slot i x =>
      obtain ⟨hi, page, hpage, hx⟩ := hP
      exact ⟨hi, page, hmono i page hpage, hx⟩
  | header i page => exact ⟨hP.1, hmono i page hP.2⟩
  | run ptr first count =>
      refine ⟨hP.1, by rw [hrange.2]; exact hP.2.1, ?_⟩
      intro j hj
      rw [hrange.2] at hj
      simp only [Ownership.setCache]
      by_cases hmem : h.pmm.frameAddr j ∈ pages
      · have hnot : o.own j ≠ some (.large ptr) := by
          intro heq
          rcases hpages j hj hmem with hpb | hnone
          · have hownb := (hc.own_slab b (by omega) j hj).mpr hpb
            rw [heq] at hownb
            cases hownb
          · rw [heq] at hnone
            cases hnone
        rw [if_pos hmem, ← hP.2.2 j hj]
        simp [hnot]
      · rw [if_neg hmem]
        exact hP.2.2 j hj
  | frame j => exact absurd rfl hown

theorem bucket_ne_zero (hc : CachesInv slack h o) (hb : b < numSlabBuckets) :
    h.kmallocCaches b ≠ 0 := by
  have hinv := hc.slab numSlabBuckets (le_refl _)
  obtain ⟨page, hpage, hlo, _⟩ := (hc.pointer b hb).in_page hc.pmm hinv.page_used
  omega

/-- An address of a piece with an owner is not in a free frame. -/
theorem off_free_frame (hc : CachesInv slack h o) (hP : P.Valid h.pmm o) (hown : P.owner ≠ none)
    {y : ℕ} (hy : P.Mem h.pmm y) {i : ℕ} (hi : i < h.pmm.totalFrames)
    (hclear : h.pmm.used i = false) :
    y < h.pmm.frameAddr i ∨ h.pmm.frameAddr i + pageSize ≤ y := by
  obtain ⟨k, hk, howner, hlo, hhi⟩ := hc.owner_of_mem hP hy
  have hne : k ≠ i := by
    rintro rfl
    rw [hc.own_none hk hclear] at howner
    exact hown howner.symm
  have hsep := frameAddr_separate hc.pmm hk hi hne
  omega

/-- Frames that belong to no cache may change hands. -/
theorem setFrames (hc : CachesInv slack h o) {own : ℕ → Option FrameOwner}
    (hcs : SameCaches h h') (hp : PmmInv slack h'.pmm) (hrange : SameRange h.pmm h'.pmm)
    (hused : ∀ j < h.pmm.totalFrames, h'.pmm.used j = (own j).isSome)
    (hslab : ∀ j < h.pmm.totalFrames, ∀ i, own j = some (.slab i) ↔ o.own j = some (.slab i))
    (hsame : ∀ P : Piece, P.Valid h.pmm o → P.owner ≠ none → ∀ y, P.Mem h.pmm y →
      h'.mem y = h.mem y) :
    CachesInv slack h' { o with own := own } where
  pmm := hp
  base_pos := by rw [hrange.1]; exact hc.base_pos
  room := by rw [hrange.1, hrange.2]; exact hc.room
  size := by
    intro i hi
    rw [hcs.cache]
    exact hc.size i hi
  slab := by
    intro i hi
    have hobj := hc.size i hi
    have hfacts := cacheObjSize_facts i
    have hold := hc.slab i hi
    have hkeep : ∀ page ∈ o.pages i, UsedFrame h.pmm page → UsedFrame h'.pmm page := by
      rintro page hpage ⟨j, hj, rfl, _⟩
      have hown := (hslab j hj i).mpr ((hc.own_slab i hi j hj).mpr hpage)
      refine ⟨j, by rw [hrange.2]; exact hj, (hrange.frameAddr j).symm, ?_⟩
      rw [hused j hj, hown]
      rfl
    rw [hcs.cache]
    refine (hold.congr (SameRange.refl _) (fun _ hu => hu) ?_ ?_).congr_used hkeep
    · intro page hpage y hlo hhi
      exact hsame (.header i page) ⟨hi, hpage⟩ (by simp [Piece.owner]) y ⟨hlo, hhi⟩
    · intro z hz y hlo hhi
      exact hsame (.slot i z) ⟨hi, hobj ▸ hold.free_isSlot hz⟩ (by simp [Piece.owner]) y
        ⟨hlo, by omega⟩
  pointer := by
    intro i hi
    rw [hcs.caches]
    exact hc.pointer i hi
  pointer_inj := by
    rw [hcs.caches]
    exact hc.pointer_inj
  own_used := by
    intro j hj
    rw [hrange.2] at hj
    exact hused j hj
  own_slab := by
    intro i hi j hj
    rw [hrange.2] at hj
    rw [hrange.frameAddr]
    exact (hslab j hj i).trans (hc.own_slab i hi j hj)

end CachesInv

/-- What an allocation of the slot `x` from bucket `b` keeps. -/
structure SlotTaken (slack b x : ℕ) (h : Heap) (o : Ownership) (h' : Heap) (o' : Ownership) :
    Prop where
  inv : CachesInv slack h' o'
  range : SameRange h.pmm h'.pmm
  caches : h'.kmallocCaches = h.kmallocCaches
  ready : h'.kheapInitialized = h.kheapInitialized
  owner : ∀ j < h.pmm.totalFrames, o'.own j = o.own j ∨
    (o.own j = none ∧ o'.own j = some (.slab b))
  valid : ∀ P : Piece, P.Valid h.pmm o → P.owner ≠ none → P.Valid h'.pmm o'
  same : ∀ P : Piece, P.Valid h.pmm o → P.owner ≠ none → ∀ y, P.Mem h.pmm y →
    h'.mem y = h.mem y
  taken : ∀ i y, IsSlot (cacheObjSize i) (o.pages i) y → y ∉ o.free i → y ∉ o'.free i
  slot : IsSlot (cacheObjSize b) (o'.pages b) x
  not_free : x ∉ o'.free b
  fresh : ¬ Allocated (cacheObjSize b) (o.pages b) (o.free b) x

/-- A successful `slab_alloc` from a bucket. -/
theorem CachesInv.slabAllocAt {slack b x : ℕ} {h h' : Heap} {o : Ownership}
    (hc : CachesInv slack h o) (hb : b < numSlabBuckets)
    (hs : slabAllocAt h (h.kmallocCaches b) = some (x, h')) :
    x ≠ 0 ∧ ∃ o', SlotTaken slack b x h o h' o' := by
  have hfacts := cacheObjSize_facts b
  have hcache : h.cacheAt (h.kmallocCaches b) = h.cache b := by
    unfold Heap.cache
    rw [if_pos hb]
  unfold Vectra.slabAllocAt at hs
  rw [if_neg (hc.bucket_ne_zero hb), hcache] at hs
  cases halloc : slabAlloc h.mem h.pmm (h.cache b) with
  | none => simp [halloc] at hs
  | some r =>
      obtain ⟨y, m, p, c⟩ := r
      simp only [halloc, Option.some.injEq, Prod.mk.injEq] at hs
      obtain ⟨rfl, rfl⟩ := hs
      have hinv := hc.slab b (by omega)
      have hsize := hc.size b (by omega)
      obtain ⟨pages, free, hres⟩ := hinv.slabAlloc hc.pmm (hc.fits (by omega)) halloc
      have hne : y ≠ 0 := hres.ne_zero hc.pmm (by omega) (by unfold pageSize; omega)
      have hnew : Allocated (cacheObjSize b) pages free y := by
        rw [← hsize]
        exact (hres.allocated y).mpr (Or.inl ⟨hne, rfl⟩)
      have hp := hres.pmmInv hc.pmm
      have hpages : ∀ j < h.pmm.totalFrames, h.pmm.frameAddr j ∈ pages ↔
          h.pmm.frameAddr j ∈ o.pages b ∨ (o.own j = none ∧ p.used j = true) := by
        intro j hj
        rcases hres.grown with ⟨rfl, _, rfl⟩ | ⟨i, hi, hclear, rfl, rfl, _⟩
        · have hno : ¬ (o.own j = none ∧ h.pmm.used j = true) := by
            rintro ⟨hnone, hset⟩
            rw [hc.own_used j hj, hnone] at hset
            cases hset
          simp [hno]
        · rw [List.mem_cons, frameAddr_inj hc.pmm hj hi, takeFrame_used]
          have hnone : o.own j = none ↔ h.pmm.used j = false := by
            rw [hc.own_used j hj]
            simp
          constructor
          · rintro (rfl | hmem)
            · exact Or.inr ⟨hc.own_none hj hclear, by simp⟩
            · exact Or.inl hmem
          · rintro (hmem | ⟨hfree, hset⟩)
            · exact Or.inr hmem
            · rw [hnone.mp hfree, Bool.or_false, decide_eq_true_eq] at hset
              exact Or.inl hset
      have hsame : ∀ P : Piece, P.Valid h.pmm o → P.owner ≠ none → ∀ z, P.Mem h.pmm z →
          m z = h.mem z := by
        intro P hP hown z hz
        have hin : SameIn h.mem m z 1 := hres.sameIn fun i hi hclear => by
          have hoff := hc.off_free_frame hP hown hz hi hclear
          omega
        exact hin z (le_refl z) (by omega)
      have hsub : ∀ page ∈ o.pages b, page ∈ pages := by
        intro page hpage
        rcases hres.grown with ⟨rfl, _, _⟩ | ⟨i, _, _, rfl, _, _⟩
        · exact hpage
        · exact List.mem_cons_of_mem _ hpage
      refine ⟨hne, o.setCache h.pmm b pages free, ?_⟩
      refine
        { inv := ?_, range := hres.sameRange, caches := rfl, ready := rfl, owner := ?_,
          valid := ?_, same := hsame, taken := ?_, slot := ?_, not_free := ?_, fresh := ?_ }
      · exact hc.setCache hb ⟨rfl, rfl, rfl, rfl⟩ hres.inv (by rw [hres.objSize, hsize]) hp
          hres.sameRange (fun j hj => hres.used_mono hj) hpages
          (fun P hP _ hown => hsame P hP hown)
      · intro j hj
        simp only [Ownership.setCache]
        by_cases hmem : h.pmm.frameAddr j ∈ pages
        · rw [if_pos hmem]
          rcases (hpages j hj).mp hmem with hpb | ⟨hnone, _⟩
          · exact Or.inl ((hc.own_slab b (by omega) j hj).mpr hpb).symm
          · exact Or.inr ⟨hnone, rfl⟩
        · rw [if_neg hmem]
          exact Or.inl rfl
      · intro P hP hown
        exact hc.setCache_valid hb hres.sameRange
          (fun j hj hmem => ((hpages j hj).mp hmem).imp_right And.left) hsub hP hown
      · intro i z hz hnot
        by_cases hib : i = b
        · subst hib
          simp only [Ownership.setCache, Function.update_self]
          have hold : Allocated (h.cache i).objSize (o.pages i) (o.free i) z :=
            ⟨by rw [hsize]; exact hz, hnot⟩
          exact ((hres.allocated z).mpr (Or.inr hold)).2
        · simpa [Ownership.setCache, Function.update_of_ne hib] using hnot
      · simpa [Ownership.setCache] using hnew.1
      · simpa [Ownership.setCache] using hnew.2
      · rw [← hsize]
        exact hres.fresh

/-- What the release of the slot `x` of bucket `b` keeps. -/
structure SlotGiven (slack b x : ℕ) (h : Heap) (o : Ownership) (h' : Heap) (o' : Ownership) :
    Prop where
  inv : CachesInv slack h' o'
  frames : h'.pmm = h.pmm
  caches : h'.kmallocCaches = h.kmallocCaches
  ready : h'.kheapInitialized = h.kheapInitialized
  owner : ∀ j < h.pmm.totalFrames, o'.own j = o.own j
  pages : o'.pages = o.pages
  same : ∀ P : Piece, P.Valid h.pmm o → P ≠ .slot b x → ∀ y, P.Mem h.pmm y → h'.mem y = h.mem y
  free : o'.free = Function.update o.free b (x :: o.free b)

/-- `slab_free` of an allocated slot of a bucket. -/
theorem CachesInv.slabFreeAt {slack b x : ℕ} {h : Heap} {o : Ownership}
    (hc : CachesInv slack h o) (hb : b < numSlabBuckets)
    (hx : Allocated (cacheObjSize b) (o.pages b) (o.free b) x) :
    ∃ o', SlotGiven slack b x h o (slabFreeAt h (h.kmallocCaches b) x) o' := by
  have hfacts := cacheObjSize_facts b
  have hcache : h.cacheAt (h.kmallocCaches b) = h.cache b := by
    unfold Heap.cache
    rw [if_pos hb]
  have hsize := hc.size b (by omega)
  have hslot : (Piece.slot b x).Valid h.pmm o := ⟨by omega, hx.1⟩
  rw [← hsize] at hx
  obtain ⟨hinv, hsize', hoff⟩ := (hc.slab b (by omega)).slabFree hc.pmm (hc.fits (by omega)) hx
  have hpages : ∀ j < h.pmm.totalFrames, h.pmm.frameAddr j ∈ o.pages b ↔
      h.pmm.frameAddr j ∈ o.pages b ∨ (o.own j = none ∧ h.pmm.used j = true) := by
    intro j hj
    have hno : ¬ (o.own j = none ∧ h.pmm.used j = true) := by
      rintro ⟨hnone, hset⟩
      rw [hc.own_used j hj, hnone] at hset
      cases hset
    simp [hno]
  have hsame : ∀ P : Piece, P.Valid h.pmm o → P ≠ .slot b x → ∀ y, P.Mem h.pmm y →
      (slabFree h.mem (h.cache b) x).1 y = h.mem y := by
    intro P hP hne y hy
    apply hoff
    by_contra hin
    exact hne (hc.piece_unique hP hslot hy ⟨by omega, by omega⟩)
  have hfree : Vectra.slabFreeAt h (h.kmallocCaches b) x =
      { h with
        mem := (slabFree h.mem (h.cache b) x).1
        cacheAt := Function.update h.cacheAt (h.kmallocCaches b)
          (slabFree h.mem (h.cache b) x).2 } := by
    unfold Vectra.slabFreeAt
    rw [if_neg (hc.bucket_ne_zero hb), hcache]
  rw [hfree]
  refine ⟨o.setCache h.pmm b (o.pages b) (x :: o.free b), ?_⟩
  refine
    { inv := ?_, frames := rfl, caches := rfl, ready := rfl, owner := ?_, pages := ?_,
      same := hsame, free := rfl }
  · refine hc.setCache hb ⟨rfl, rfl, rfl, rfl⟩ hinv (by rw [hsize', hsize]) hc.pmm
      (SameRange.refl _) (fun _ hj => hj) hpages ?_
    intro P hP hown _ y hy
    exact hsame P hP (fun heq => hown (by rw [heq]; rfl)) y hy
  · intro j hj
    simp only [Ownership.setCache]
    split
    · rename_i hmem
      exact ((hc.own_slab b (by omega) j hj).mpr hmem).symm
    · rfl
  · exact Function.update_eq_self b o.pages

end Vectra

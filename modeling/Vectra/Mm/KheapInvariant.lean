import Vectra.Mm.Kheap
import Vectra.Mm.FrameSpans

/-!
# Ownership of frames and slots in the kernel heap

Every managed frame has at most one owner: the boot code, one slab cache,
or one large block. The slots, page headers, block runs and free frames cut
the managed range into pieces, and two different pieces share no address.
Every write of the heap stays inside one piece.
-/

namespace Vectra

open Lib SlabMem

inductive FrameOwner
  | reserved
  | slab (cache : ℕ)
  | large (ptr : ℕ)
  deriving DecidableEq

/-- The bucket caches by index, and the metadata cache behind them. -/
def Heap.cache (h : Heap) (i : ℕ) : SlabCache :=
  if i < numSlabBuckets then h.cacheAt (h.kmallocCaches i) else h.cacheMetadataCache

def cacheObjSize (i : ℕ) : ℕ := if i < numSlabBuckets then bucketObjSize i else slabCacheStructSize

theorem cacheObjSize_facts (i : ℕ) :
    32 ≤ cacheObjSize i ∧ cacheObjSize i ≤ 2064 ∧ cacheObjSize i % 8 = 0 := by
  unfold cacheObjSize
  split
  · rename_i hlt
    obtain ⟨hlo, hhi, hmod, _⟩ := bucketObjSize_facts hlt
    exact ⟨hlo, hhi, hmod⟩
  · decide

theorem cacheObjSize_bucket {i : ℕ} (hi : i < numSlabBuckets) :
    cacheObjSize i = bucketObjSize i := if_pos hi

/-- Who owns the frames, and the lists of pages and free slots of each cache. -/
structure Ownership where
  own : ℕ → Option FrameOwner
  pages : ℕ → List ℕ
  free : ℕ → List ℕ

/-- The allocator state below the blocks: frames and caches. -/
structure CachesInv (slack : ℕ) (h : Heap) (o : Ownership) : Prop where
  pmm : PmmInv slack h.pmm
  base_pos : 0 < h.pmm.memPhysBase
  room : h.pmm.memPhysBase + h.pmm.totalFrames * pageSize + pageSize ≤ 2 ^ 64
  size : ∀ i ≤ numSlabBuckets, (h.cache i).objSize = cacheObjSize i
  slab : ∀ i ≤ numSlabBuckets, SlabInv h.mem h.pmm (h.cache i) (o.pages i) (o.free i)
  pointer : ∀ i < numSlabBuckets, IsSlot slabCacheStructSize (o.pages numSlabBuckets)
    (h.kmallocCaches i)
  pointer_inj : ∀ i < numSlabBuckets, ∀ j < numSlabBuckets,
    h.kmallocCaches i = h.kmallocCaches j → i = j
  own_used : ∀ j < h.pmm.totalFrames, h.pmm.used j = (o.own j).isSome
  own_slab : ∀ i ≤ numSlabBuckets, ∀ j < h.pmm.totalFrames,
    o.own j = some (.slab i) ↔ h.pmm.frameAddr j ∈ o.pages i

/-! ## Pieces of the managed range -/

/-- A slot of a cache, the header of a slab page, the frames of a large
block, or a free frame. -/
inductive Piece
  | slot (cache x : ℕ)
  | header (cache page : ℕ)
  | run (ptr first count : ℕ)
  | frame (j : ℕ)

def Piece.Mem (p : Pmm) : Piece → ℕ → Prop
  | .slot i x, y => x ≤ y ∧ y < x + cacheObjSize i
  | .header _ page, y => page ≤ y ∧ y < page + frameMetaSize
  | .run _ first count, y => p.frameAddr first ≤ y ∧ y < p.frameAddr first + count * pageSize
  | .frame j, y => p.frameAddr j ≤ y ∧ y < p.frameAddr j + pageSize

def Piece.Valid (p : Pmm) (o : Ownership) : Piece → Prop
  | .slot i x => i ≤ numSlabBuckets ∧ IsSlot (cacheObjSize i) (o.pages i) x
  | .header i page => i ≤ numSlabBuckets ∧ page ∈ o.pages i
  | .run ptr first count => 0 < count ∧ first + count ≤ p.totalFrames ∧
      ∀ j < p.totalFrames, o.own j = some (.large ptr) ↔ first ≤ j ∧ j < first + count
  | .frame j => j < p.totalFrames ∧ o.own j = none

def Piece.owner : Piece → Option FrameOwner
  | .slot i _ => some (.slab i)
  | .header i _ => some (.slab i)
  | .run ptr _ _ => some (.large ptr)
  | .frame _ => none

namespace CachesInv

variable {slack : ℕ} {h : Heap} {o : Ownership} {P Q : Piece} {y i : ℕ}

theorem fits (hc : CachesInv slack h o) (hi : i ≤ numSlabBuckets) :
    SlabFits h.pmm (h.cache i).objSize := by
  have hfacts := cacheObjSize_facts i
  have hroom := hc.room
  rw [hc.size i hi]
  refine ⟨by omega, hfacts.2.2, hc.base_pos, ?_⟩
  unfold pageSize at *
  omega

theorem slot_page (hc : CachesInv slack h o) (hi : i ≤ numSlabBuckets) {x : ℕ}
    (hx : IsSlot (cacheObjSize i) (o.pages i) x) :
    ∃ j < h.pmm.totalFrames, o.own j = some (.slab i) ∧ h.pmm.frameAddr j + 16 ≤ x ∧
      x + cacheObjSize i ≤ h.pmm.frameAddr j + pageSize := by
  obtain ⟨page, hpage, hlo, hhi⟩ := hx.in_page hc.pmm (hc.slab i hi).page_used
  obtain ⟨j, hj, rfl, _⟩ := (hc.slab i hi).page_used page hpage
  exact ⟨j, hj, (hc.own_slab i hi j hj).mpr hpage, hlo, hhi⟩

/-- Each address of a piece lies in a frame of the piece's owner. -/
theorem owner_of_mem (hc : CachesInv slack h o) (hP : P.Valid h.pmm o) (hy : P.Mem h.pmm y) :
    ∃ j < h.pmm.totalFrames, o.own j = P.owner ∧ h.pmm.frameAddr j ≤ y ∧
      y < h.pmm.frameAddr j + pageSize := by
  cases P with
  | slot i x =>
      obtain ⟨j, hj, hown, hlo, hhi⟩ := hc.slot_page hP.1 hP.2
      obtain ⟨hylo, hyhi⟩ := hy
      exact ⟨j, hj, hown, by omega, by omega⟩
  | header i page =>
      obtain ⟨j, hj, rfl, _⟩ := (hc.slab i hP.1).page_used page hP.2
      obtain ⟨hylo, hyhi⟩ := hy
      refine ⟨j, hj, (hc.own_slab i hP.1 j hj).mpr hP.2, hylo, ?_⟩
      unfold frameMetaSize at hyhi
      unfold pageSize
      omega
  | run ptr first count =>
      obtain ⟨hcount, hbound, hown⟩ := hP
      obtain ⟨hylo, hyhi⟩ := hy
      have hfirst := hc.pmm.frameAddr_eq (i := first) (by omega)
      rw [hfirst] at hylo hyhi
      refine ⟨first + (y - (h.pmm.memPhysBase + first * pageSize)) / pageSize, ?_, ?_, ?_⟩
      · unfold pageSize at *
        omega
      · refine (hown _ ?_).mpr ?_
        · unfold pageSize at *
          omega
        · unfold pageSize at *
          omega
      · rw [hc.pmm.frameAddr_eq (by unfold pageSize at *; omega)]
        unfold pageSize at *
        omega
  | frame j => exact ⟨j, hP.1, hP.2, hy.1, hy.2⟩

theorem frame_unique (hc : CachesInv slack h o) {j k : ℕ} (hj : j < h.pmm.totalFrames)
    (hk : k < h.pmm.totalFrames) (hjlo : h.pmm.frameAddr j ≤ y)
    (hjhi : y < h.pmm.frameAddr j + pageSize) (hklo : h.pmm.frameAddr k ≤ y)
    (hkhi : y < h.pmm.frameAddr k + pageSize) : j = k := by
  by_contra hne
  have hsep := frameAddr_separate hc.pmm hj hk hne
  omega

/-- Two valid pieces that share an address are the same piece. -/
theorem piece_unique (hc : CachesInv slack h o) (hP : P.Valid h.pmm o) (hQ : Q.Valid h.pmm o)
    (hyP : P.Mem h.pmm y) (hyQ : Q.Mem h.pmm y) : P = Q := by
  obtain ⟨j, hj, hownP, hjlo, hjhi⟩ := hc.owner_of_mem hP hyP
  obtain ⟨k, hk, hownQ, hklo, hkhi⟩ := hc.owner_of_mem hQ hyQ
  have hjk := hc.frame_unique hj hk hjlo hjhi hklo hkhi
  subst hjk
  have howner : P.owner = Q.owner := hownP.symm.trans hownQ
  cases P with
  | slot i x =>
      have hused := (hc.slab i hP.1).page_used
      cases Q with
      | slot i' x' =>
          cases howner
          by_contra hne
          have hxx : x ≠ x' := fun heq => hne (by rw [heq])
          have hsep := hP.2.separate hc.pmm hused hQ.2 hxx
          obtain ⟨_, _⟩ := hyP
          obtain ⟨_, _⟩ := hyQ
          omega
      | header i' page =>
          cases howner
          have hoff := hP.2.off_header hc.pmm hused hQ.2
          obtain ⟨_, _⟩ := hyP
          obtain ⟨_, hyhi⟩ := hyQ
          unfold frameMetaSize at hyhi
          omega
      | run ptr first count => cases howner
      | frame j => cases howner
  | header i page =>
      have hused := (hc.slab i hP.1).page_used
      cases Q with
      | slot i' x =>
          cases howner
          have hoff := hQ.2.off_header hc.pmm hused hP.2
          obtain ⟨_, hyhi⟩ := hyP
          obtain ⟨_, _⟩ := hyQ
          unfold frameMetaSize at hyhi
          omega
      | header i' page' =>
          cases howner
          by_contra hne
          have hpp : page ≠ page' := fun heq => hne (by rw [heq])
          have hsep := (hused page hP.2).separate hc.pmm (hused page' hQ.2) hpp
          obtain ⟨_, hyhi⟩ := hyP
          obtain ⟨_, hyhi'⟩ := hyQ
          unfold frameMetaSize at hyhi hyhi'
          unfold pageSize at hsep
          omega
      | run ptr first count => cases howner
      | frame j => cases howner
  | run ptr first count =>
      cases Q with
      | slot i x => cases howner
      | header i page => cases howner
      | run ptr' first' count' =>
          cases howner
          have hin := (hP.2.2 j hj).mp hownP
          have hin' := (hQ.2.2 j hj).mp hownQ
          have hiff : ∀ k < h.pmm.totalFrames,
              (first ≤ k ∧ k < first + count) ↔ (first' ≤ k ∧ k < first' + count') :=
            fun k hk => (hP.2.2 k hk).symm.trans (hQ.2.2 k hk)
          obtain ⟨_, hbound, _⟩ := hP
          obtain ⟨_, hbound', _⟩ := hQ
          have hff := (hiff first (by omega)).mp ⟨le_refl _, by omega⟩
          have hff' := (hiff first' (by omega)).mpr ⟨le_refl _, by omega⟩
          have hee := (hiff (first + count - 1) (by omega)).mp (by omega)
          have hee' := (hiff (first' + count' - 1) (by omega)).mpr (by omega)
          have hf : first = first' := by omega
          have hn : count = count' := by omega
          rw [hf, hn]
      | frame j => cases howner
  | frame a =>
      cases Q with
      | slot i x => cases howner
      | header i page => cases howner
      | run ptr first count => cases howner
      | frame b =>
          have hab := hc.frame_unique hP.1 hQ.1 hyP.1 hyP.2 hyQ.1 hyQ.2
          rw [hab]

/-- A write inside a piece that is neither a page header nor a free slot
leaves every cache as it is. -/
theorem write (hc : CachesInv slack h o) (hP : P.Valid h.pmm o)
    (hfree : ∀ i x, x ∈ o.free i → P ≠ .slot i x) (hheader : ∀ i page, P ≠ .header i page)
    {m : Bytes} (hsame : ∀ y, ¬ P.Mem h.pmm y → m y = h.mem y) :
    CachesInv slack { h with mem := m } o where
  pmm := hc.pmm
  base_pos := hc.base_pos
  room := hc.room
  size := hc.size
  slab := by
    intro i hi
    have hsize := hc.size i hi
    refine (hc.slab i hi).congr (SameRange.refl _) (fun _ hu => hu) ?_ ?_
    · intro page hpage y hylo hyhi
      apply hsame
      intro hyP
      exact hheader i page (hc.piece_unique (Q := .header i page) hP ⟨hi, hpage⟩ hyP ⟨hylo, hyhi⟩)
    · intro x hx y hylo hyhi
      have hfacts := cacheObjSize_facts i
      have hslot : IsSlot (cacheObjSize i) (o.pages i) x := hsize ▸ (hc.slab i hi).free_isSlot hx
      apply hsame
      intro hyP
      exact hfree i x hx (hc.piece_unique (Q := .slot i x) hP ⟨hi, hslot⟩ hyP
        ⟨hylo, by omega⟩)
  pointer := hc.pointer
  pointer_inj := hc.pointer_inj
  own_used := hc.own_used
  own_slab := hc.own_slab

end CachesInv

end Vectra

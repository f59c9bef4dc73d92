import Vectra.Lib.Run
import Vectra.Mm.FrameRuns
import Vectra.Mm.KheapBoot

/-!
# Runs of the kernel heap

Any sequence of allocations, releases and stores into live blocks keeps the
invariant, from which the layout of the managed range is read off.
-/

namespace Vectra

open Lib SlabMem

/-- The sizes on which the arithmetic of `kmalloc` does not wrap. -/
def FitsSize (size : ℕ) : Prop := size + allocHeaderSize + pageSize - 1 < 2 ^ 64

instance (size : ℕ) : Decidable (FitsSize size) :=
  inferInstanceAs (Decidable (size + allocHeaderSize + pageSize - 1 < 2 ^ 64))

theorem zeroBytes_out {m : Bytes} {ptr n y : ℕ} (h : y < ptr ∨ ptr + n ≤ y) :
    zeroBytes m ptr n y = m y := by
  induction n with
  | zero => rfl
  | succ n ih => rw [zeroBytes, Function.update_of_ne (by omega), ih (by omega)]

theorem copyBytes_out {m : Bytes} {dst src n y : ℕ} (h : y < dst ∨ dst + n ≤ y) :
    copyBytes m dst src n y = m y := by
  induction n with
  | zero => rfl
  | succ n ih => rw [copyBytes, Function.update_of_ne (by omega), ih (by omega)]

/-- A product that overflows is caught by the division. -/
theorem kcalloc_cases {h h' : Heap} {num size r : ℕ} (hs : kcalloc h num size = some (r, h')) :
    (r = 0 ∧ h' = h) ∨ (num * size < 2 ^ 64 ∧ ∃ h1, kmalloc h (num * size) = some (r, h1) ∧
      h' = if r = 0 then h1 else { h1 with mem := zeroBytes h1.mem r (num * size) }) := by
  unfold kcalloc at hs
  split at hs
  · cases hs
    exact Or.inl ⟨rfl, rfl⟩
  · rename_i hcheck
    have hfits : num * size < 2 ^ 64 := by
      by_contra hbig
      have hnum : num ≠ 0 := by
        rintro rfl
        omega
      have hdiv : num * size % 2 ^ 64 / num = size := by
        by_contra hne
        exact hcheck ⟨hnum, hne⟩
      have hle := Nat.mul_div_le (num * size % 2 ^ 64) num
      rw [hdiv] at hle
      have hlt := Nat.mod_lt (num * size) (by omega : 2 ^ 64 > 0)
      omega
    rw [Nat.mod_eq_of_lt hfits] at hs
    refine Or.inr ⟨hfits, ?_⟩
    cases hk : kmalloc h (num * size) with
    | none => simp [hk] at hs
    | some a =>
        obtain ⟨q, h1⟩ := a
        simp only [hk] at hs
        by_cases hq : q = 0
        · rw [if_pos hq] at hs
          cases hs
          exact ⟨h', by rw [hq], by rw [if_pos rfl]⟩
        · rw [if_neg hq] at hs
          cases hs
          exact ⟨h1, rfl, by rw [if_neg hq]⟩

namespace HeapInv

variable {slack : ℕ} {reserved : ℕ → Prop} {h h' : Heap} {live : List ℕ} {o : Ownership}
  {ptr r : ℕ}

theorem kfree (hi : HeapInv slack reserved h live o) (hptr : ptr ∈ live) :
    ∃ o', HeapInv slack reserved (Vectra.kfree h ptr) (live.erase ptr) o' := by
  obtain ⟨P, hP, hocc⟩ := hi.block ptr hptr
  cases P with
  | slot b x => exact hi.kfree_slot hP hocc
  | header i page => exact hocc.elim
  | run q first n => exact hi.kfree_run hP hocc
  | frame j => exact hocc.elim

theorem ne_zero (hi : HeapInv slack reserved h live o) (hptr : ptr ∈ live) : ptr ≠ 0 := by
  obtain ⟨P, hP, hocc⟩ := hi.block ptr hptr
  have hbounds := hocc.ptr_bounds hi.caches hP
  omega

theorem kcalloc (hi : HeapInv slack reserved h live o) {num size : ℕ}
    (hsize : num * size < 2 ^ 64 → FitsSize (num * size))
    (hs : kcalloc h num size = some (r, h')) :
    (r = 0 ∧ h' = h) ∨ (r ≠ 0 ∧ ∃ o', HeapInv slack reserved h' (r :: live) o') := by
  rcases kcalloc_cases hs with hfail | ⟨hfits, h1, hk, hzero⟩
  · exact Or.inl hfail
  · rcases hi.kmalloc (hsize hfits) hk with ⟨hr, hsame⟩ | ⟨hne, o', hinv, hbs⟩
    · rw [if_pos hr, hsame] at hzero
      exact Or.inl ⟨hr, hzero⟩
    · rw [if_neg hne] at hzero
      subst hzero
      refine Or.inr ⟨hne, o', hinv.write List.mem_cons_self ?_⟩
      intro y hy
      rw [hbs] at hy
      exact zeroBytes_out hy

/-- The old block is kept, or replaced by the new one, or given back. -/
theorem krealloc (hi : HeapInv slack reserved h live o) {newSize : ℕ}
    (hptr : ptr = 0 ∨ ptr ∈ live) (hsize : FitsSize newSize)
    (hs : krealloc h ptr newSize = some (r, h')) :
    ∃ o', HeapInv slack reserved h' (if ptr ≠ 0 ∧ newSize = 0 then live.erase ptr
      else if r = 0 then live else r :: live.erase ptr) o' := by
  unfold Vectra.krealloc at hs
  split at hs
  · rename_i hzero
    have hnot : (0 : ℕ) ∉ live := fun hmem => hi.ne_zero hmem rfl
    subst hzero
    rcases hi.kmalloc hsize hs with ⟨rfl, rfl⟩ | ⟨hne, o', hinv, _⟩
    · exact ⟨o, by simpa using hi⟩
    · exact ⟨o', by simpa [hne, List.erase_of_not_mem hnot] using hinv⟩
  · rename_i hne
    have hlive : ptr ∈ live := hptr.resolve_left hne
    split at hs
    · rename_i hzero
      cases hs
      obtain ⟨o', hinv⟩ := hi.kfree hlive
      exact ⟨o', by simpa [hne, hzero] using hinv⟩
    · rename_i hnz
      split at hs
      · cases hs
        have hperm := List.perm_cons_erase hlive
        refine ⟨o, ?_⟩
        simp only [hnz, and_false, if_false, hne]
        exact
          { caches := hi.caches, ready := hi.ready, nodup := hperm.nodup_iff.mp hi.nodup,
            block := fun q hq => hi.block q (hperm.mem_iff.mpr hq),
            large_live := fun j hj q hq => hperm.mem_iff.mp (hi.large_live j hj q hq),
            large_run := hi.large_run, slab_bound := hi.slab_bound,
            reserved_iff := hi.reserved_iff }
      · rename_i hgrow
        cases hk : Vectra.kmalloc h newSize with
        | none => simp [hk] at hs
        | some a =>
            obtain ⟨q, h1⟩ := a
            simp only [hk] at hs
            rcases hi.kmalloc hsize hk with ⟨hzero, hsame⟩ | ⟨hq, o', hinv, hbs⟩
            · rw [if_pos hzero] at hs
              cases hs
              exact ⟨o, by simpa [hnz, hsame] using hi⟩
            · rw [if_neg hq] at hs
              cases hs
              have hcopied := hinv.write (m := copyBytes h1.mem r ptr (h.blockSize ptr))
                List.mem_cons_self (fun y hy => copyBytes_out (by omega))
              obtain ⟨o'', hfreed⟩ := hcopied.kfree (List.mem_cons_of_mem r hlive)
              have hqp : r ≠ ptr := by
                rintro rfl
                exact (List.nodup_cons.mp hinv.nodup).1 hlive
              rw [List.erase_cons_tail (by simpa using hqp)] at hfreed
              exact ⟨o'', by simpa [hnz, hq] using hfreed⟩

end HeapInv

/-! ## Runs -/

inductive KheapOp
  | kmalloc (size : ℕ)
  | kcalloc (num size : ℕ)
  | krealloc (ptr newSize : ℕ)
  | kfree (ptr : ℕ)
  | store (ptr off : ℕ) (byte : BitVec 8)
  deriving DecidableEq

/-- One operation. The result is the returned pointer, 0 for a `void`
function; `store` is the owner of a block writing one of its bytes. -/
def kheapStep (h : Heap) : KheapOp → Option (ℕ × Heap)
  | .kmalloc size => kmalloc h size
  | .kcalloc num size => kcalloc h num size
  | .krealloc ptr newSize => krealloc h ptr newSize
  | .kfree ptr => some (0, kfree h ptr)
  | .store ptr off byte => some (0, { h with mem := Function.update h.mem (ptr + off) byte })

/-- The live pointers after an operation that returned `r`. -/
def KheapOp.liveAfter (live : List ℕ) (r : ℕ) : KheapOp → List ℕ
  | .kmalloc _ | .kcalloc _ _ => if r = 0 then live else r :: live
  | .krealloc ptr newSize => if ptr ≠ 0 ∧ newSize = 0 then live.erase ptr
      else if r = 0 then live else r :: live.erase ptr
  | .kfree ptr => live.erase ptr
  | .store _ _ _ => live

/-- Sizes do not wrap, and only live pointers are used. -/
def KheapOp.Allowed (h : Heap) (live : List ℕ) : KheapOp → Prop
  | .kmalloc size => FitsSize size
  | .kcalloc num size => num * size < 2 ^ 64 → FitsSize (num * size)
  | .krealloc ptr newSize => (ptr = 0 ∨ ptr ∈ live) ∧ FitsSize newSize
  | .kfree ptr => ptr = 0 ∨ ptr ∈ live
  | .store ptr off _ => ptr ∈ live ∧ off < h.blockSize ptr

/-- A completed operation on the heap and its live pointers. -/
def KheapStep (s : Heap × List ℕ) (e : KheapOp × ℕ) (t : Heap × List ℕ) : Prop :=
  e.1.Allowed s.1 s.2 ∧ kheapStep s.1 e.1 = some (e.2, t.1) ∧ t.2 = e.1.liveAfter s.2 e.2

theorem KheapStep.inv {slack : ℕ} {reserved : ℕ → Prop} {s t : Heap × List ℕ}
    {e : KheapOp × ℕ} (hi : ∃ o, HeapInv slack reserved s.1 s.2 o) (hstep : KheapStep s e t) :
    ∃ o, HeapInv slack reserved t.1 t.2 o := by
  obtain ⟨h, live⟩ := s
  obtain ⟨h', live'⟩ := t
  obtain ⟨op, r⟩ := e
  obtain ⟨o, hi⟩ := hi
  obtain ⟨hallowed, hs, hlive⟩ := hstep
  simp only at hallowed hs hlive hi ⊢
  subst hlive
  cases op with
  | kmalloc size =>
      rcases hi.kmalloc hallowed hs with ⟨rfl, rfl⟩ | ⟨hne, o', hinv, _⟩
      · exact ⟨o, by simpa [KheapOp.liveAfter] using hi⟩
      · exact ⟨o', by simpa [KheapOp.liveAfter, hne] using hinv⟩
  | kcalloc num size =>
      rcases hi.kcalloc hallowed hs with ⟨rfl, rfl⟩ | ⟨hne, o', hinv⟩
      · exact ⟨o, by simpa [KheapOp.liveAfter] using hi⟩
      · exact ⟨o', by simpa [KheapOp.liveAfter, hne] using hinv⟩
  | krealloc ptr newSize => exact hi.krealloc hallowed.1 hallowed.2 hs
  | kfree ptr =>
      cases hs
      rcases hallowed with rfl | hmem
      · have hnot : (0 : ℕ) ∉ live := fun hmem => hi.ne_zero hmem rfl
        exact ⟨o, by simpa [KheapOp.liveAfter, kfree, List.erase_of_not_mem hnot] using hi⟩
      · exact hi.kfree hmem
  | store ptr off byte =>
      cases hs
      obtain ⟨hmem, hoff⟩ := hallowed
      refine ⟨o, hi.write hmem ?_⟩
      intro y hy
      exact Function.update_of_ne (by omega) _ _

/-! ## The layout -/

/-- The header and the usable bytes of a block. -/
def InBlock (h : Heap) (ptr y : ℕ) : Prop :=
  ptr ≤ y + allocHeaderSize ∧ y < ptr + h.blockSize ptr

/-- The frames of a large block. -/
def RunFrame (h : Heap) (ptr j : ℕ) : Prop :=
  getBucketIndex (h.blockSize ptr) = none ∧ ptr ≤ h.pmm.frameAddr j + allocHeaderSize ∧
    h.pmm.frameAddr j + allocHeaderSize < ptr + numPages (h.blockSize ptr) * pageSize

/-- A block lies in one allocated slot of the cache of its bucket, or in
a run of consecutive managed frames. -/
inductive BlockPlace (h : Heap) (pages free : ℕ → List ℕ) (ptr : ℕ) : Prop
  | small {b x : ℕ} (bucket : getBucketIndex (h.blockSize ptr) = some b)
      (cache : h.blockCache ptr = h.kmallocCaches b)
      (slot : Allocated (bucketObjSize b) (pages b) (free b) x)
      (inside : ∀ y, InBlock h ptr y → x ≤ y ∧ y < x + bucketObjSize b)
  | large {first : ℕ} (bucket : getBucketIndex (h.blockSize ptr) = none)
      (cache : h.blockCache ptr = 0)
      (managed : first + numPages (h.blockSize ptr) ≤ h.pmm.totalFrames)
      (frames : ∀ j < h.pmm.totalFrames, RunFrame h ptr j ↔
        first ≤ j ∧ j < first + numPages (h.blockSize ptr))
      (inside : ∀ y, InBlock h ptr y → h.pmm.frameAddr first ≤ y ∧
        y < h.pmm.frameAddr first + numPages (h.blockSize ptr) * pageSize)

/-- The managed range, cut into live blocks, free slots, page headers, free
frames and reserved frames. Cache `numSlabBuckets` holds the cache objects. -/
structure HeapLayout (reserved : ℕ → Prop) (h : Heap) (live : List ℕ)
    (pages free : ℕ → List ℕ) : Prop where
  pageChain : ∀ i ≤ numSlabBuckets, Chain (fun a => (frame h.mem a).next)
    (h.cache i).slabs (pages i)
  freeChain : ∀ i ≤ numSlabBuckets, Chain (link h.mem) (h.cache i).freeObjects (free i)
  nodup : live.Nodup
  place : ∀ ptr ∈ live, BlockPlace h pages free ptr
  blocks_disjoint : ∀ p ∈ live, ∀ q ∈ live, p ≠ q → ∀ y, InBlock h p y → ¬ InBlock h q y
  free_slots : ∀ p ∈ live, ∀ i ≤ numSlabBuckets, ∀ x ∈ free i, ∀ y, InBlock h p y →
    y < x ∨ x + cacheObjSize i ≤ y
  page_headers : ∀ p ∈ live, ∀ i ≤ numSlabBuckets, ∀ page ∈ pages i, ∀ y, InBlock h p y →
    y < page ∨ page + frameMetaSize ≤ y
  free_frames : ∀ p ∈ live, ∀ j < h.pmm.totalFrames, h.pmm.used j = false ∨ reserved j →
    ∀ y, InBlock h p y → y < h.pmm.frameAddr j ∨ h.pmm.frameAddr j + pageSize ≤ y
  used_frames : ∀ j < h.pmm.totalFrames, h.pmm.used j = true ↔
    reserved j ∨ (∃ i ≤ numSlabBuckets, h.pmm.frameAddr j ∈ pages i) ∨
      ∃ ptr ∈ live, RunFrame h ptr j

namespace HeapInv

variable {slack : ℕ} {reserved : ℕ → Prop} {h : Heap} {live : List ℕ} {o : Ownership}
  {ptr : ℕ}

theorem runFrame_iff (hi : HeapInv slack reserved h live o) {q first n j : ℕ}
    (hP : (Piece.run q first n).Valid h.pmm o) (hocc : Occupies h o ptr (.run q first n))
    (hj : j < h.pmm.totalFrames) : RunFrame h ptr j ↔ first ≤ j ∧ j < first + n := by
  obtain ⟨_, hbucket, _, hptr, hn, _⟩ := hocc
  obtain ⟨hcount, hbound, _⟩ := hP
  have hfirst := hi.caches.pmm.frameAddr_eq (i := first) (by omega)
  unfold RunFrame
  rw [← hn, hi.caches.pmm.frameAddr_eq hj]
  rw [hfirst] at hptr
  unfold pageSize at *
  constructor
  · rintro ⟨_, hlo, hhi⟩
    omega
  · rintro ⟨hlo, hhi⟩
    exact ⟨hbucket, by omega, by omega⟩

theorem blockPlace (hi : HeapInv slack reserved h live o) (hptr : ptr ∈ live) :
    BlockPlace h o.pages o.free ptr := by
  obtain ⟨P, hP, hocc⟩ := hi.block ptr hptr
  have hin : ∀ y, InBlock h ptr y → P.Mem h.pmm y := fun y hy => hocc.mem_piece hy.1 hy.2
  cases P with
  | slot b x =>
      have hocc' := hocc
      obtain ⟨hb, hbucket, hcache, _, hfree⟩ := hocc'
      have hsize := cacheObjSize_bucket hb
      exact .small hbucket hcache ⟨hsize ▸ hP.2, hfree⟩ fun y hy => hsize ▸ hin y hy
  | header i page => exact hocc.elim
  | run q first n =>
      have hocc' := hocc
      obtain ⟨_, hbucket, hcache, _, rfl, _⟩ := hocc'
      exact .large hbucket hcache hP.2.1 (fun j hj => hi.runFrame_iff hP hocc hj) hin
  | frame j => exact hocc.elim

/-- A block shares no address with a piece of another kind or of another owner. -/
theorem block_off_piece (hi : HeapInv slack reserved h live o) (hptr : ptr ∈ live) {Q : Piece}
    (hQ : Q.Valid h.pmm o) (hne : ∀ P : Piece, Occupies h o ptr P → P ≠ Q) {y : ℕ}
    (hy : InBlock h ptr y) : ¬ Q.Mem h.pmm y := by
  obtain ⟨P, hP, hocc⟩ := hi.block ptr hptr
  intro hyQ
  exact hne P hocc (hi.caches.piece_unique hP hQ (hocc.mem_piece hy.1 hy.2) hyQ)

theorem block_off_frame (hi : HeapInv slack reserved h live o) (hptr : ptr ∈ live) {j : ℕ}
    (hj : j < h.pmm.totalFrames) (hown : o.own j = none ∨ o.own j = some .reserved) {y : ℕ}
    (hy : InBlock h ptr y) : y < h.pmm.frameAddr j ∨ h.pmm.frameAddr j + pageSize ≤ y := by
  obtain ⟨P, hP, hocc⟩ := hi.block ptr hptr
  obtain ⟨k, hk, howner, hlo, hhi⟩ := hi.caches.owner_of_mem hP (hocc.mem_piece hy.1 hy.2)
  have hkj : k ≠ j := by
    rintro rfl
    rw [howner] at hown
    cases P with
    | slot b x => simp [Piece.owner] at hown
    | header i page => exact hocc
    | run q first n => simp [Piece.owner] at hown
    | frame j => exact hocc
  have hsep := frameAddr_separate hi.caches.pmm hk hj hkj
  omega

/-- Every used frame has an owner, and every owner uses its frames. -/
theorem used_iff (hi : HeapInv slack reserved h live o) {j : ℕ} (hj : j < h.pmm.totalFrames) :
    h.pmm.used j = true ↔ reserved j ∨
      (∃ i ≤ numSlabBuckets, h.pmm.frameAddr j ∈ o.pages i) ∨ ∃ ptr ∈ live, RunFrame h ptr j := by
  have hc := hi.caches
  rw [hc.own_used j hj]
  constructor
  · intro hsome
    cases hown : o.own j with
    | none => simp [hown] at hsome
    | some w =>
        cases w with
        | reserved => exact Or.inl ((hi.reserved_iff j hj).mp hown)
        | slab i =>
            have hbound := hi.slab_bound j hj i hown
            exact Or.inr (Or.inl ⟨i, hbound, (hc.own_slab i hbound j hj).mp hown⟩)
        | large ptr =>
            have hlive := hi.large_live j hj ptr hown
            obtain ⟨P, hP, hocc⟩ := hi.block ptr hlive
            obtain ⟨first, n, hrun, hfirst⟩ := hi.large_run j hj ptr hown
            have hmem : (Piece.run ptr first n).Mem h.pmm (ptr - allocHeaderSize) := by
              have hpage : pageSize ≤ n * pageSize := Nat.le_mul_of_pos_left pageSize hrun.1
              rw [hfirst, Nat.add_sub_cancel]
              unfold pageSize at *
              exact ⟨by omega, by unfold pageSize; omega⟩
            have hbounds := hocc.ptr_bounds hc hP
            have heq := hc.piece_unique hP hrun (hocc.header_piece (by omega)
              (by unfold allocHeaderSize at *; omega)) hmem
            subst heq
            exact Or.inr (Or.inr ⟨ptr, hlive,
              (hi.runFrame_iff hrun hocc hj).mpr ((hrun.2.2 j hj).mp hown)⟩)
  · rintro (hres | ⟨i, hbound, hmem⟩ | ⟨ptr, hlive, hframe⟩)
    · rw [(hi.reserved_iff j hj).mpr hres]
      rfl
    · rw [(hc.own_slab i hbound j hj).mpr hmem]
      rfl
    · obtain ⟨P, hP, hocc⟩ := hi.block ptr hlive
      cases P with
      | slot b x =>
          have hbucket := hocc.2.1
          rw [hframe.1] at hbucket
          cases hbucket
      | header i page => exact hocc.elim
      | run q first n =>
          have hwin := (hi.runFrame_iff hP hocc hj).mp hframe
          rw [(hP.2.2 j hj).mpr hwin]
          rfl
      | frame j => exact hocc.elim

theorem layout (hi : HeapInv slack reserved h live o) :
    HeapLayout reserved h live o.pages o.free where
  pageChain := fun i hb => (hi.caches.slab i hb).pageChain
  freeChain := fun i hb => (hi.caches.slab i hb).freeChain
  nodup := hi.nodup
  place := fun ptr hptr => hi.blockPlace hptr
  blocks_disjoint := by
    intro p hp q hq hne y hyp hyq
    obtain ⟨Q, hQ, hocc⟩ := hi.block q hq
    exact hi.block_off_piece hp hQ (fun P hoccP => piece_ne hoccP hocc hne) hyp
      (hocc.mem_piece hyq.1 hyq.2)
  free_slots := by
    intro p hp i hb x hx y hy
    have hslot : (Piece.slot i x).Valid h.pmm o :=
      ⟨hb, hi.caches.size i hb ▸ (hi.caches.slab i hb).free_isSlot hx⟩
    have hoff := hi.block_off_piece hp hslot (by
      rintro P hocc rfl
      exact hocc.2.2.2.2 hx) hy
    simp only [Piece.Mem] at hoff
    omega
  page_headers := by
    intro p hp i hb page hpage y hy
    have hoff := hi.block_off_piece hp (Q := .header i page) ⟨hb, hpage⟩ (by
      rintro P hocc rfl
      exact hocc) hy
    simp only [Piece.Mem] at hoff
    omega
  free_frames := by
    intro p hp j hj hown y hy
    exact hi.block_off_frame hp hj (hown.imp (fun hclear => hi.caches.own_none hj hclear)
      (fun hres => (hi.reserved_iff j hj).mpr hres)) hy
  used_frames := fun j hj => hi.used_iff hj

end HeapInv

/-- The heap on the frames that a run of the frame allocator has left. -/
theorem kheapInit_run_inv {b b' : BootHeap} {bootMem mem : Bytes} {base size : ℕ} {s p : Pmm}
    {cacheAt : ℕ → SlabCache} {pmmOps : List (PmmOp × ℕ)} {h : Heap} (hbase : 0 < base)
    (halign : base % pageSize = 0) (hwrap : base + size < 2 ^ 64)
    (hinit : pmmInit Pmm.boot b bootMem base size = some (s, b'))
    (hpmm : Run PmmStep s pmmOps p) (hheap : kheapInit (Heap.boot mem cacheAt p) = some h) :
    ∃ slack o, p.memPhysBase = base ∧ p.totalFrames = size / pageSize ∧ SameRange p h.pmm ∧
      HeapInv slack (fun j => p.used j = true) h [] o := by
  obtain ⟨hp, hrange⟩ := run_pmmInv hpmm (pmmInit_inv rfl (range_of_wrap hwrap) hinit)
  obtain ⟨hmem, htotal, _⟩ := pmmInit_fields hinit
  have hroom : p.memPhysBase + p.totalFrames * pageSize + pageSize ≤ 2 ^ 64 := by
    rw [hrange.1, hrange.2, hmem, htotal]
    unfold pageSize at *
    omega
  obtain ⟨hsame, o, hboot⟩ := kheapInit_heapInv hp (by rw [hrange.1, hmem]; exact hbase) hroom hheap
  exact ⟨_, o, hrange.1.trans hmem, hrange.2.trans htotal, hsame, hboot⟩

/-- The invariant holds in every run after `kheap_init`, on frames left by any run of the
frame allocator. -/
theorem kheap_run_inv {b b' : BootHeap} {bootMem mem : Bytes} {base size : ℕ} {s p : Pmm}
    {cacheAt : ℕ → SlabCache} {pmmOps : List (PmmOp × ℕ)} {h : Heap}
    {ops : List (KheapOp × ℕ)} {t : Heap × List ℕ} (hbase : 0 < base)
    (halign : base % pageSize = 0) (hwrap : base + size < 2 ^ 64)
    (hinit : pmmInit Pmm.boot b bootMem base size = some (s, b'))
    (hpmm : Run PmmStep s pmmOps p) (hheap : kheapInit (Heap.boot mem cacheAt p) = some h)
    (hrun : Run KheapStep (h, []) ops t) :
    ∃ slack o, HeapInv slack (fun j => p.used j = true) t.1 t.2 o := by
  obtain ⟨slack, o, _, _, _, hboot⟩ := kheapInit_run_inv hbase halign hwrap hinit hpmm hheap
  exact ⟨slack, hrun.invariant
    (I := fun u => ∃ o, HeapInv slack (fun j => p.used j = true) u.1 u.2 o)
    (fun _ _ _ hu hstep => hstep.inv hu) ⟨o, hboot⟩⟩

/-- The heap keeps its layout in every run after `kheap_init`, on frames
left by any run of the frame allocator. -/
theorem kheap_run_layout {b b' : BootHeap} {bootMem mem : Bytes} {base size : ℕ} {s p : Pmm}
    {cacheAt : ℕ → SlabCache} {pmmOps : List (PmmOp × ℕ)} {h : Heap}
    {ops : List (KheapOp × ℕ)} {t : Heap × List ℕ} (hbase : 0 < base)
    (halign : base % pageSize = 0) (hwrap : base + size < 2 ^ 64)
    (hinit : pmmInit Pmm.boot b bootMem base size = some (s, b'))
    (hpmm : Run PmmStep s pmmOps p) (hheap : kheapInit (Heap.boot mem cacheAt p) = some h)
    (hrun : Run KheapStep (h, []) ops t) :
    ∃ pages free, HeapLayout (fun j => p.used j = true) t.1 t.2 pages free := by
  obtain ⟨_, o, hi⟩ := kheap_run_inv hbase halign hwrap hinit hpmm hheap hrun
  exact ⟨o.pages, o.free, hi.layout⟩

/-- A heap on sixteen free frames. -/
def smallHeap : Heap :=
  Heap.boot (fun _ => 0#8) (fun _ => ⟨0, 0, 0⟩) (pmmFreeRegion smallPmm 0x40000 0x10000)

theorem smallHeap_frames : Run PmmStep smallPmm [(.freeRegion 0x40000 0x10000, 0)]
    (pmmFreeRegion smallPmm 0x40000 0x10000) :=
  .cons ⟨⟨by decide, by decide⟩, rfl⟩ (.nil _)

theorem kheap_run_layout_two_blocks :
    ∃ h t pages free, kheapInit smallHeap = some h ∧
      Run KheapStep (h, []) [(.kmalloc 100, 0x41f50), (.kmalloc 5000, 0x42010),
        (.kfree 0x41f50, 0)] t ∧ t.2 = [0x42010] ∧
      HeapLayout (fun j => (pmmFreeRegion smallPmm 0x40000 0x10000).used j = true)
        t.1 t.2 pages free := by
  have heval : (kheapInit smallHeap >>= fun h => kmalloc h 100 >>= fun a =>
      kmalloc a.2 5000 >>= fun c => some (a.1, c.1)) = some (0x41f50, 0x42010) := by
    decide +kernel
  obtain ⟨h, hheap, hrest⟩ := Option.bind_eq_some_iff.mp heval
  obtain ⟨a, ha, hrest⟩ := Option.bind_eq_some_iff.mp hrest
  obtain ⟨c, hc, hresult⟩ := Option.bind_eq_some_iff.mp hrest
  obtain ⟨ra, ha'⟩ := a
  obtain ⟨rc, hc'⟩ := c
  cases hresult
  have hrun : Run KheapStep (h, []) [(.kmalloc 100, 0x41f50), (.kmalloc 5000, 0x42010),
      (.kfree 0x41f50, 0)] (kfree hc' 0x41f50, [0x42010]) :=
    .cons (u := (ha', [0x41f50])) ⟨(by decide : FitsSize 100), ha, rfl⟩
      (.cons (u := (hc', [0x42010, 0x41f50])) ⟨(by decide : FitsSize 5000), hc, rfl⟩
        (.cons (u := (kfree hc' 0x41f50, [0x42010]))
          ⟨Or.inr (by simp), by rw [kheapStep], by simp [KheapOp.liveAfter]⟩ (.nil _)))
  obtain ⟨pages, free, hlayout⟩ := kheap_run_layout (by decide) (by decide) (by decide)
    smallPmm_init smallHeap_frames hheap hrun
  exact ⟨h, _, pages, free, hheap, hrun, rfl, hlayout⟩

end Vectra

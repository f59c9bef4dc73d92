import Vectra.Mm.KheapRuns

/-!
# The heap beside other users of the frames

Frames that the heap does not own are reserved to it. Taking a free frame for
another use and giving it back keeps the heap, and `kmalloc` and `kfree` leave
the bytes of reserved frames and of the other live blocks alone.
-/

namespace Vectra

open Lib SlabMem

namespace HeapInv

variable {slack : ℕ} {reserved reserved' : ℕ → Prop} {h h' : Heap} {live : List ℕ}
  {o : Ownership} {f ptr q y : ℕ}

theorem reserved_congr (hi : HeapInv slack reserved h live o)
    (hiff : ∀ j < h.pmm.totalFrames, reserved' j ↔ reserved j) :
    HeapInv slack reserved' h live o :=
  { hi with reserved_iff := fun j hj => (hi.reserved_iff j hj).trans (hiff j hj).symm }

/-! ## Changing the reserved frames -/

/-- Frames that no cache and no block owns may become reserved or free. -/
theorem setReserved (hi : HeapInv slack reserved h live o) (own : ℕ → Option FrameOwner)
    (hcs : SameCaches h h') (hp : PmmInv slack h'.pmm) (hrange : SameRange h.pmm h'.pmm)
    (hused : ∀ j < h.pmm.totalFrames, h'.pmm.used j = (own j).isSome)
    (hown : ∀ j < h.pmm.totalFrames, ∀ w, w ≠ .reserved → (own j = some w ↔ o.own j = some w))
    (hres : ∀ j < h.pmm.totalFrames, own j = some .reserved ↔ reserved' j)
    (hsame : ∀ P : Piece, P.Valid h.pmm o → P.owner ≠ none → ∀ y, P.Mem h.pmm y →
      h'.mem y = h.mem y) : HeapInv slack reserved' h' live { o with own := own } := by
  have hc : CachesInv slack h' { o with own := own } :=
    hi.caches.setFrames hcs hp hrange hused
      (fun j hj i => hown j hj (.slab i) (by simp)) hsame
  have hvalid : ∀ P : Piece, P.Valid h.pmm o → P.owner ≠ none →
      P.Valid h'.pmm { o with own := own } := by
    intro P hP howner
    cases P with
    | slot b x => exact hP
    | header i page => exact hP
    | run r first n =>
        refine ⟨hP.1, by rw [hrange.2]; exact hP.2.1, fun j hj => ?_⟩
        rw [hrange.2] at hj
        exact (hown j hj (.large r) (by simp)).trans (hP.2.2 j hj)
    | frame j => exact absurd rfl howner
  refine
    { caches := hc, ready := by rw [hcs.ready]; exact hi.ready, nodup := hi.nodup, block := ?_,
      large_live := ?_, large_run := ?_, slab_bound := ?_, reserved_iff := ?_ }
  · intro p hp
    obtain ⟨P, hP, hocc⟩ := hi.block p hp
    refine ⟨P, hvalid P hP hocc.owner_ne_none, hocc.congr hi.caches hP hrange hcs.caches ?_ ?_⟩
    · intro y hlo hhi
      exact hsame P hP hocc.owner_ne_none y (hocc.header_piece hlo hhi)
    · rintro b x rfl
      exact hocc.2.2.2.2
  · intro j hj p hlarge
    rw [hrange.2] at hj
    exact hi.large_live j hj p ((hown j hj _ (by simp)).mp hlarge)
  · intro j hj p hlarge
    rw [hrange.2] at hj
    obtain ⟨first, n, hrun, hp⟩ := hi.large_run j hj p ((hown j hj _ (by simp)).mp hlarge)
    exact ⟨first, n, hvalid _ hrun (by simp [Piece.owner]), by rw [hrange.frameAddr]; exact hp⟩
  · intro j hj i hslab
    rw [hrange.2] at hj
    exact hi.slab_bound j hj i ((hown j hj _ (by simp)).mp hslab)
  · intro j hj
    rw [hrange.2] at hj
    exact hres j hj

/-- A free frame is taken for another use, and only that frame is written. -/
theorem takeReserved (hi : HeapInv slack reserved h live o) (hf : f < h.pmm.totalFrames)
    (hclear : h.pmm.used f = false) {m : Bytes}
    (hm : ∀ y, y < h.pmm.frameAddr f ∨ h.pmm.frameAddr f + pageSize ≤ y → m y = h.mem y) :
    ∃ o', HeapInv slack (fun j => reserved j ∨ j = f)
      { h with pmm := takeFrame h.pmm f, mem := m } live o' := by
  have hnone := hi.caches.own_none hf hclear
  refine ⟨_, hi.setReserved (Function.update o.own f (some .reserved)) ⟨rfl, rfl, rfl, rfl⟩
    (hi.caches.pmm.takeFrame hf hclear) (takeFrame_sameRange _ _) ?_ ?_ ?_ ?_⟩
  · intro j hj
    rw [takeFrame_used]
    by_cases hjf : j = f
    · rw [hjf, Function.update_self]
      simp
    · rw [Function.update_of_ne hjf, hi.caches.own_used j hj]
      simp [hjf]
  · intro j _ w hw
    by_cases hjf : j = f
    · rw [hjf, Function.update_self, hnone]
      simp [hw.symm]
    · rw [Function.update_of_ne hjf]
  · intro j hj
    by_cases hjf : j = f
    · rw [hjf, Function.update_self]
      simp
    · rw [Function.update_of_ne hjf, hi.reserved_iff j hj]
      simp [hjf]
  · intro P hP howner y hy
    exact hm y (hi.caches.off_free_frame hP howner hy hf hclear)

/-- A reserved frame is given back. -/
theorem giveReserved (hi : HeapInv slack reserved h live o) (hf : f < h.pmm.totalFrames)
    (hres : reserved f) :
    ∃ o', HeapInv slack (fun j => reserved j ∧ j ≠ f)
      { h with pmm := pmmFreeFrame h.pmm (h.pmm.frameAddr f) } live o' := by
  have hfreed := hi.caches.pmm.freeFrame_used hf (by decide : 0 < pageSize)
  obtain ⟨hp, hrange⟩ := hi.caches.pmm.freeFrame (h.pmm.frameAddr f)
  have howned := (hi.reserved_iff f hf).mpr hres
  refine ⟨_, hi.setReserved (Function.update o.own f none) ⟨rfl, rfl, rfl, rfl⟩ hp hrange
    ?_ ?_ ?_ fun _ _ _ _ _ => rfl⟩
  · intro j hj
    have hj' := hfreed j
    rw [Nat.add_zero] at hj'
    rw [hj']
    by_cases hjf : j = f
    · rw [hjf, Function.update_self]
      simp
    · rw [Function.update_of_ne hjf, hi.caches.own_used j hj]
      simp [hjf]
  · intro j _ w hw
    by_cases hjf : j = f
    · rw [hjf, Function.update_self, howned]
      simp [hw.symm]
    · rw [Function.update_of_ne hjf]
  · intro j hj
    by_cases hjf : j = f
    · rw [hjf, Function.update_self]
      simp
    · rw [Function.update_of_ne hjf, hi.reserved_iff j hj]
      simp [hjf]

/-! ## The bytes that a call keeps -/

theorem reserved_used (hi : HeapInv slack reserved h live o) (hf : f < h.pmm.totalFrames)
    (hres : reserved f) : h.pmm.used f = true :=
  hi.caches.used_of_own hf ((hi.reserved_iff f hf).mpr hres)

theorem slabAllocAt_mem (hi : HeapInv slack reserved h live o) {b x : ℕ}
    (hb : b < numSlabBuckets) (hs : slabAllocAt h (h.kmallocCaches b) = some (x, h'))
    (hoff : ∀ i < h.pmm.totalFrames, h.pmm.used i = false →
      y < h.pmm.frameAddr i ∨ h.pmm.frameAddr i + pageSize ≤ y) : h'.mem y = h.mem y := by
  have hcache : h.cacheAt (h.kmallocCaches b) = h.cache b := by
    unfold Heap.cache
    rw [if_pos hb]
  unfold slabAllocAt at hs
  rw [if_neg (hi.caches.bucket_ne_zero hb), hcache] at hs
  cases halloc : slabAlloc h.mem h.pmm (h.cache b) with
  | none => simp [halloc] at hs
  | some r =>
      obtain ⟨z, m, p, c⟩ := r
      simp only [halloc, Option.some.injEq, Prod.mk.injEq] at hs
      obtain ⟨rfl, rfl⟩ := hs
      obtain ⟨pages, free, hres⟩ :=
        (hi.caches.slab b (by omega)).slabAlloc hi.caches.pmm (hi.caches.fits (by omega)) halloc
      have hin : SameIn h.mem m y 1 := hres.sameIn fun i hi' hclear => by
        have hi'' := hoff i hi' hclear
        omega
      exact hin y (le_refl y) (by omega)

/-- An allocation from a bucket's cache takes a frame only where the cache has no free slot. -/
theorem slabAllocAt_frames (hi : HeapInv slack reserved h live o) {b x : ℕ}
    (hb : b < numSlabBuckets) (hs : slabAllocAt h (h.kmallocCaches b) = some (x, h')) :
    h'.pmm = h.pmm ∨ (h.cache b).freeObjects = 0 ∧
      ∃ i < h.pmm.totalFrames, h.pmm.used i = false ∧ h'.pmm = takeFrame h.pmm i := by
  have hcache : h.cacheAt (h.kmallocCaches b) = h.cache b := by
    unfold Heap.cache
    rw [if_pos hb]
  unfold slabAllocAt at hs
  rw [if_neg (hi.caches.bucket_ne_zero hb), hcache] at hs
  cases halloc : slabAlloc h.mem h.pmm (h.cache b) with
  | none => simp [halloc] at hs
  | some r =>
      obtain ⟨z, m, p, c⟩ := r
      simp only [halloc, Option.some.injEq, Prod.mk.injEq] at hs
      obtain ⟨rfl, rfl⟩ := hs
      by_cases hslot : (h.cache b).freeObjects = 0
      · obtain ⟨pages, free, hres⟩ :=
          (hi.caches.slab b (by omega)).slabAlloc hi.caches.pmm (hi.caches.fits (by omega)) halloc
        rcases hres.grown with ⟨_, _, hsame⟩ | ⟨i, hlt, hclear, _, htake, _⟩
        · exact Or.inl hsame
        · exact Or.inr ⟨hslot, i, hlt, hclear, htake⟩
      · unfold slabAlloc at halloc
        rw [if_neg hslot] at halloc
        cases halloc
        exact Or.inl rfl

/-- A small block is a slot behind a header. -/
theorem kmalloc_slot (hi : HeapInv slack reserved h live o) {size b : ℕ}
    (hbucket : getBucketIndex size = some b) (hs : Vectra.kmalloc h size = some (ptr, h'))
    (hne : ptr ≠ 0) :
    ∃ x h1, slabAllocAt h (h.kmallocCaches b) = some (x, h1) ∧ ptr = x + allocHeaderSize ∧
      h' = { h1 with mem := writeHeader h1.mem x size (h.kmallocCaches b) } := by
  unfold Vectra.kmalloc at hs
  split at hs
  · cases hs
    exact absurd rfl hne
  · rw [if_neg (by simp [hi.ready])] at hs
    simp only [hbucket] at hs
    cases halloc : slabAllocAt h (h.kmallocCaches b) with
    | none => simp [halloc] at hs
    | some a =>
        obtain ⟨x, h1⟩ := a
        obtain ⟨hx, hwrap, _⟩ := hi.kmalloc_small hbucket halloc
        simp only [halloc, hx, if_false, Option.some.injEq, Prod.mk.injEq,
          Nat.mod_eq_of_lt hwrap] at hs
        exact ⟨x, h1, rfl, hs.1.symm, hs.2.symm⟩

/-- Besides the free frames, `kmalloc` writes the header of a small block only. -/
theorem kmalloc_mem (hi : HeapInv slack reserved h live o) {size b : ℕ}
    (hbucket : getBucketIndex size = some b) (hs : Vectra.kmalloc h size = some (ptr, h'))
    (hne : ptr ≠ 0)
    (hused : ∀ i < h.pmm.totalFrames, h.pmm.used i = false →
      y < h.pmm.frameAddr i ∨ h.pmm.frameAddr i + pageSize ≤ y)
    (hoff : y + allocHeaderSize < ptr ∨ ptr ≤ y) : h'.mem y = h.mem y := by
  obtain ⟨x, h1, halloc, rfl, rfl⟩ := hi.kmalloc_slot hbucket hs hne
  have hkept := hi.slabAllocAt_mem (getBucketIndex_fits hbucket).1 halloc hused
  exact (writeHeader_out (by omega)).trans hkept

theorem kmalloc_range (hi : HeapInv slack reserved h live o) {size b : ℕ}
    (hbucket : getBucketIndex size = some b) (hs : Vectra.kmalloc h size = some (ptr, h'))
    (hne : ptr ≠ 0) : SameRange h.pmm h'.pmm := by
  obtain ⟨x, h1, halloc, rfl, rfl⟩ := hi.kmalloc_slot hbucket hs hne
  obtain ⟨_, _, ht⟩ := hi.caches.slabAllocAt (getBucketIndex_fits hbucket).1 halloc
  exact ht.range

theorem kmalloc_frames (hi : HeapInv slack reserved h live o) {size b : ℕ}
    (hbucket : getBucketIndex size = some b) (hs : Vectra.kmalloc h size = some (ptr, h'))
    (hne : ptr ≠ 0) :
    h'.pmm = h.pmm ∨ (h.cache b).freeObjects = 0 ∧
      ∃ i < h.pmm.totalFrames, h.pmm.used i = false ∧ h'.pmm = takeFrame h.pmm i := by
  obtain ⟨x, h1, halloc, rfl, rfl⟩ := hi.kmalloc_slot hbucket hs hne
  have hframes := hi.slabAllocAt_frames (getBucketIndex_fits hbucket).1 halloc
  exact hframes

/-- A small block is found where its cache has a free slot or a frame is free. It takes a frame
only where the cache has no free slot. -/
theorem kmalloc_returns (hi : HeapInv slack reserved h live o) {size b : ℕ} (hsize : size ≠ 0)
    (hbucket : getBucketIndex size = some b)
    (hroom : (h.cache b).freeObjects ≠ 0 ∨ ∃ i < h.pmm.totalFrames, h.pmm.used i = false) :
    ∃ ptr h', Vectra.kmalloc h size = some (ptr, h') ∧ ptr ≠ 0 ∧
      (h'.pmm = h.pmm ∨ (h.cache b).freeObjects = 0 ∧
        ∃ i < h.pmm.totalFrames, h.pmm.used i = false ∧ h'.pmm = takeFrame h.pmm i) := by
  have hb := (getBucketIndex_fits hbucket).1
  have hcache : h.cacheAt (h.kmallocCaches b) = h.cache b := by
    unfold Heap.cache
    rw [if_pos hb]
  have hinv := hi.caches.slab b (by omega)
  rcases hinv.slabAlloc_cases hi.caches.pmm (hi.caches.fits (by omega)) with
    ⟨_, hempty, hall⟩ | ⟨x, m, p, c, pages, free, halloc, hres⟩
  · rcases hroom with hslot | ⟨i, hlt, hclear⟩
    · have hchain := hinv.freeChain
      rw [hempty] at hchain
      exact absurd hchain hslot
    · rw [hall i hlt] at hclear
      cases hclear
  · have hat : slabAllocAt h (h.kmallocCaches b) = some (x, { h with
        mem := m
        pmm := p
        cacheAt := Function.update h.cacheAt (h.kmallocCaches b) c }) := by
      unfold slabAllocAt
      rw [if_neg (hi.caches.bucket_ne_zero hb), hcache, halloc]
    obtain ⟨hx, hwrap, _⟩ := hi.kmalloc_small hbucket hat
    refine ⟨x + allocHeaderSize, { h with
        mem := writeHeader m x size (h.kmallocCaches b)
        pmm := p
        cacheAt := Function.update h.cacheAt (h.kmallocCaches b) c }, ?_, ?_, ?_⟩
    · unfold Vectra.kmalloc
      rw [if_neg hsize, if_neg (by simp [hi.ready])]
      simp only [hbucket, hat, hx, if_false, Nat.mod_eq_of_lt hwrap]
    · unfold allocHeaderSize
      omega
    · have hframes := hi.slabAllocAt_frames hb hat
      exact hframes

/-- The release of a small block writes its header only. -/
theorem kfree_mem (hi : HeapInv slack reserved h live o) (hptr : ptr ∈ live)
    (hoff : y + allocHeaderSize < ptr ∨ ptr ≤ y) : (Vectra.kfree h ptr).mem y = h.mem y := by
  obtain ⟨P, hP, hocc⟩ := hi.block ptr hptr
  obtain ⟨hlo, hhi⟩ := hocc.ptr_bounds hi.caches hP
  unfold Vectra.kfree
  split
  · rfl
  · split
    · unfold slabFreeAt slabFree
      split
      · rfl
      · split
        · rfl
        · rw [sub64_of_le (by omega) hhi]
          refine cell_setLink h.mem (ptr - allocHeaderSize) _ y ?_
          unfold allocHeaderSize at *
          omega
    · rfl

theorem kfree_range (hi : HeapInv slack reserved h live o) (hptr : ptr ∈ live) :
    SameRange h.pmm (Vectra.kfree h ptr).pmm := by
  obtain ⟨P, hP, hocc⟩ := hi.block ptr hptr
  unfold Vectra.kfree
  split
  · exact SameRange.refl _
  · split
    · unfold slabFreeAt
      split <;> exact SameRange.refl _
    · rename_i hcache
      cases P with
      | slot b x =>
          rw [hocc.2.2.1] at hcache
          exact absurd (hi.caches.bucket_ne_zero hocc.1) hcache
      | header i page => exact hocc.elim
      | run r first n =>
          have hbounds := hocc.ptr_bounds hi.caches hP
          obtain ⟨_, _, _, hr, hn, _⟩ := hocc
          have hsub : sub64 ptr allocHeaderSize = h.pmm.frameAddr first := by
            rw [sub64_of_le (by omega) hbounds.2, hr, Nat.add_sub_cancel]
          rw [hsub, ← hn]
          exact (freeRun_spec hi.caches.pmm hP.2.1).2.1
      | frame j => exact hocc.elim

theorem off_free_of_inBlock (hi : HeapInv slack reserved h live o) (hq : q ∈ live)
    (hy : InBlock h q y) {i : ℕ} (hlt : i < h.pmm.totalFrames) (hclear : h.pmm.used i = false) :
    y < h.pmm.frameAddr i ∨ h.pmm.frameAddr i + pageSize ≤ y :=
  hi.block_off_frame hq hlt (Or.inl (hi.caches.own_none hlt hclear)) hy

/-- Equal header bytes mean that the same bytes belong to the block. -/
theorem inBlock_congr (hi : HeapInv slack reserved h live o) (hq : q ∈ live)
    (hsame : ∀ y, q ≤ y + allocHeaderSize → y < q → h'.mem y = h.mem y) :
    h'.blockSize q = h.blockSize q := by
  obtain ⟨P, hP, hocc⟩ := hi.block q hq
  obtain ⟨hlo, hhi⟩ := hocc.ptr_bounds hi.caches hP
  exact (Occupies.blockSize_congr hlo hhi hsame).1

/-- A new small block leaves the header and the bytes of every live block alone. -/
theorem kmalloc_block (hi : HeapInv slack reserved h live o) {size b slack' : ℕ} {o' : Ownership}
    (hbucket : getBucketIndex size = some b) (hs : Vectra.kmalloc h size = some (ptr, h'))
    (hne : ptr ≠ 0) (hi' : HeapInv slack' reserved' h' (ptr :: live) o') (hq : q ∈ live)
    (hy : InBlock h q y) : h'.mem y = h.mem y := by
  have hqp : q ≠ ptr := by
    rintro rfl
    exact (List.nodup_cons.mp hi'.nodup).1 hq
  have hdisjoint := hi'.layout.blocks_disjoint q (List.mem_cons_of_mem _ hq) ptr
    List.mem_cons_self hqp
  have hkeep : ∀ z, InBlock h q z → InBlock h' q z → h'.mem z = h.mem z := by
    intro z hz hz'
    refine hi.kmalloc_mem hbucket hs hne
      (fun i hlt hclear => hi.off_free_of_inBlock hq hz hlt hclear)
      ?_
    by_contra hin
    exact hdisjoint z hz' ⟨by omega, by omega⟩
  have hsize : h'.blockSize q = h.blockSize q := by
    refine hi.inBlock_congr hq fun z hlo hhi => hkeep z ⟨hlo, by omega⟩ ⟨hlo, by omega⟩
  exact hkeep y hy ⟨hy.1, by rw [hsize]; exact hy.2⟩

theorem kmalloc_frame (hi : HeapInv slack reserved h live o) {size b slack' : ℕ} {o' : Ownership}
    (hbucket : getBucketIndex size = some b) (hs : Vectra.kmalloc h size = some (ptr, h'))
    (hne : ptr ≠ 0) (hi' : HeapInv slack' reserved h' (ptr :: live) o')
    (hrange : SameRange h.pmm h'.pmm) (hf : f < h.pmm.totalFrames) (hres : reserved f)
    (hlo : h.pmm.frameAddr f ≤ y) (hhi : y < h.pmm.frameAddr f + pageSize) :
    h'.mem y = h.mem y := by
  refine hi.kmalloc_mem hbucket hs hne ?_ ?_
  · intro i hlt hclear
    have hif : i ≠ f := by
      rintro rfl
      rw [hi.reserved_used hf hres] at hclear
      cases hclear
    have hsep := frameAddr_separate hi.caches.pmm hlt hf hif
    omega
  · have hf' : f < h'.pmm.totalFrames := by
      rw [hrange.2]
      exact hf
    by_contra hin
    have hoff := hi'.block_off_frame (y := y) List.mem_cons_self hf'
      (Or.inr ((hi'.reserved_iff f hf').mpr hres)) ⟨by omega, by omega⟩
    rw [hrange.frameAddr] at hoff
    omega

theorem kfree_block (hi : HeapInv slack reserved h live o) (hptr : ptr ∈ live) (hq : q ∈ live)
    (hne : q ≠ ptr) (hy : InBlock h q y) : (Vectra.kfree h ptr).mem y = h.mem y := by
  refine hi.kfree_mem hptr ?_
  by_contra hin
  exact hi.layout.blocks_disjoint q hq ptr hptr hne y hy ⟨by omega, by omega⟩

theorem kfree_frame (hi : HeapInv slack reserved h live o) (hptr : ptr ∈ live)
    (hf : f < h.pmm.totalFrames) (hres : reserved f) (hlo : h.pmm.frameAddr f ≤ y)
    (hhi : y < h.pmm.frameAddr f + pageSize) : (Vectra.kfree h ptr).mem y = h.mem y := by
  refine hi.kfree_mem hptr ?_
  by_contra hin
  have hoff := hi.block_off_frame (y := y) hptr hf (Or.inr ((hi.reserved_iff f hf).mpr hres))
    ⟨by omega, by omega⟩
  omega

/-- With the size of the block, `kfree_sized` is `kfree`. -/
theorem kfreeSized_eq (hi : HeapInv slack reserved h live o) (hptr : ptr ∈ live) :
    kfreeSized h ptr (h.blockSize ptr) = Vectra.kfree h ptr := by
  obtain ⟨P, hP, hocc⟩ := hi.block ptr hptr
  unfold kfreeSized Vectra.kfree
  cases P with
  | slot b x =>
      obtain ⟨hb, hbucket, hcache, _, _⟩ := hocc
      rw [hbucket, hcache, if_pos (hi.caches.bucket_ne_zero hb)]
  | header i page => exact hocc.elim
  | run r first n =>
      obtain ⟨_, hbucket, hcache, _, _, _⟩ := hocc
      simp [hbucket, hcache]
  | frame j => exact hocc.elim

/-- Small sizes are released without a frame. -/
theorem kfreeSized_pmm {size b : ℕ} (hbucket : getBucketIndex size = some b) :
    (kfreeSized h ptr size).pmm = h.pmm := by
  unfold kfreeSized slabFreeAt
  split
  · rfl
  · simp only [hbucket]
    split <;> rfl

end HeapInv

end Vectra

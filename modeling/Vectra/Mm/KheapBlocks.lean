import Vectra.Mm.KheapCaches

/-!
# Live blocks

Each live block occupies one allocated slot of the bucket of its size, or
the run of frames that its size needs. The four functions of `kheap.c` keep
this, the ownership of the frames, and the bytes of the other live blocks.
-/

namespace Vectra

open Lib SlabMem

/-- The piece behind a live pointer, as its header describes it. -/
def Occupies (h : Heap) (o : Ownership) (ptr : ℕ) : Piece → Prop
  | .slot b x => b < numSlabBuckets ∧ getBucketIndex (h.blockSize ptr) = some b ∧
      h.blockCache ptr = h.kmallocCaches b ∧ ptr = x + allocHeaderSize ∧ x ∉ o.free b
  | .run q first n => q = ptr ∧ getBucketIndex (h.blockSize ptr) = none ∧ h.blockCache ptr = 0 ∧
      ptr = h.pmm.frameAddr first + allocHeaderSize ∧ n = numPages (h.blockSize ptr) ∧
      h.blockSize ptr + allocHeaderSize + pageSize - 1 < 2 ^ 64
  | .header _ _ | .frame _ => False

structure HeapInv (slack : ℕ) (reserved : ℕ → Prop) (h : Heap) (live : List ℕ)
    (o : Ownership) : Prop where
  caches : CachesInv slack h o
  ready : h.kheapInitialized = true
  nodup : live.Nodup
  block : ∀ ptr ∈ live, ∃ P : Piece, P.Valid h.pmm o ∧ Occupies h o ptr P
  large_live : ∀ j < h.pmm.totalFrames, ∀ ptr, o.own j = some (.large ptr) → ptr ∈ live
  large_run : ∀ j < h.pmm.totalFrames, ∀ ptr, o.own j = some (.large ptr) →
    ∃ first n, (Piece.run ptr first n).Valid h.pmm o ∧
      ptr = h.pmm.frameAddr first + allocHeaderSize
  slab_bound : ∀ j < h.pmm.totalFrames, ∀ i, o.own j = some (.slab i) → i ≤ numSlabBuckets
  reserved_iff : ∀ j < h.pmm.totalFrames, o.own j = some .reserved ↔ reserved j

theorem numPages_pos {size : ℕ} (h : size + allocHeaderSize + pageSize - 1 < 2 ^ 64) :
    size + 16 ≤ numPages size * pageSize ∧ 0 < numPages size := by
  rw [numPages_eq h]
  unfold pageSize
  omega

namespace Occupies

variable {slack ptr q : ℕ} {h h' : Heap} {o o' : Ownership} {P : Piece}

theorem owner_ne_none (hocc : Occupies h o ptr P) : P.owner ≠ none := by
  cases P with
  | slot b x => simp [Piece.owner]
  | header i page => exact hocc.elim
  | run r first n => simp [Piece.owner]
  | frame j => exact hocc.elim

theorem ptr_unique (hp : Occupies h o ptr P) (hq : Occupies h o q P) : ptr = q := by
  cases P with
  | slot b x => exact hp.2.2.2.1.trans hq.2.2.2.1.symm
  | header i page => exact hp.elim
  | run r first n => exact hp.1.symm.trans hq.1
  | frame j => exact hp.elim

theorem ptr_bounds (hc : CachesInv slack h o) (hP : P.Valid h.pmm o)
    (hocc : Occupies h o ptr P) : allocHeaderSize < ptr ∧ ptr < 2 ^ 64 := by
  have hbase := hc.base_pos
  have hroom := hc.room
  cases P with
  | slot b x =>
      obtain ⟨j, hj, _, hlo, hhi⟩ := hc.slot_page hP.1 hP.2
      have hfacts := cacheObjSize_facts b
      have hbound := frameAddr_room hc.pmm hj
      obtain ⟨_, _, _, rfl, _⟩ := hocc
      unfold allocHeaderSize
      unfold pageSize at *
      omega
  | header i page => exact hocc.elim
  | run r first n =>
      obtain ⟨_, _, _, hptr, hn, hsize⟩ := hocc
      have hpos := (numPages_pos hsize).2
      have hbound := frameAddr_room hc.pmm (i := first) (by have hbound := hP.2.1; omega)
      rw [hptr]
      unfold allocHeaderSize
      unfold pageSize at *
      omega
  | frame j => exact hocc.elim

/-- The header and the usable bytes of a block lie inside its piece. -/
theorem mem_piece (hocc : Occupies h o ptr P) {y : ℕ}
    (hlo : ptr ≤ y + allocHeaderSize) (hhi : y < ptr + h.blockSize ptr) : P.Mem h.pmm y := by
  cases P with
  | slot b x =>
      obtain ⟨hb, hbucket, _, hptr, _⟩ := hocc
      have hfit := (getBucketIndex_fits hbucket).2
      rw [← cacheObjSize_bucket hb] at hfit
      exact ⟨by omega, by omega⟩
  | header i page => exact hocc.elim
  | run r first n =>
      obtain ⟨_, _, _, hptr, hn, hsize⟩ := hocc
      have hfit := (numPages_pos hsize).1
      rw [← hn] at hfit
      unfold allocHeaderSize at *
      exact ⟨by omega, by omega⟩
  | frame j => exact hocc.elim

theorem header_piece (hocc : Occupies h o ptr P) {y : ℕ}
    (hlo : ptr ≤ y + allocHeaderSize) (hhi : y < ptr) : P.Mem h.pmm y :=
  hocc.mem_piece hlo (by omega)

theorem blockSize_congr (hlo : allocHeaderSize < ptr) (hhi : ptr < 2 ^ 64)
    (hsame : ∀ y, ptr ≤ y + allocHeaderSize → y < ptr → h'.mem y = h.mem y) :
    h'.blockSize ptr = h.blockSize ptr ∧ h'.blockCache ptr = h.blockCache ptr := by
  unfold Heap.blockSize Heap.blockCache
  unfold allocHeaderSize at *
  rw [sub64_of_le (by omega) hhi]
  exact ⟨readLE_congr fun y hy hy' => hsame y (by omega) (by omega),
    readLE_congr fun y hy hy' => hsame y (by omega) (by omega)⟩

/-- A block stays where it is while its header bytes stay. -/
theorem congr (hc : CachesInv slack h o) (hP : P.Valid h.pmm o) (hocc : Occupies h o ptr P)
    (hrange : SameRange h.pmm h'.pmm) (hcaches : h'.kmallocCaches = h.kmallocCaches)
    (hsame : ∀ y, ptr ≤ y + allocHeaderSize → y < ptr → h'.mem y = h.mem y)
    (hfree : ∀ b x, P = .slot b x → x ∉ o'.free b) : Occupies h' o' ptr P := by
  obtain ⟨hlo, hhi⟩ := hocc.ptr_bounds hc hP
  obtain ⟨hsize, hcache⟩ := blockSize_congr hlo hhi hsame
  cases P with
  | slot b x =>
      obtain ⟨hb, hbucket, hbc, hptr, _⟩ := hocc
      exact ⟨hb, by rw [hsize]; exact hbucket, by rw [hcache, hcaches]; exact hbc, hptr,
        hfree b x rfl⟩
  | header i page => exact hocc.elim
  | run r first n =>
      obtain ⟨hr, hbucket, hbc, hptr, hn, hbound⟩ := hocc
      rw [← hsize] at hbucket hn hbound
      exact ⟨hr, hbucket, hcache.trans hbc, by rw [hrange.frameAddr]; exact hptr, hn, hbound⟩
  | frame j => exact hocc.elim

end Occupies

/-- The header just written is read back. -/
theorem writeHeader_read {h : Heap} {m : Bytes} {x size cache : ℕ}
    (hx : x + allocHeaderSize < 2 ^ 64)
    (hsize : size < 2 ^ 64) (hcache : cache < 2 ^ 64)
    (hmem : h.mem = writeHeader m x size cache) :
    h.blockSize (x + allocHeaderSize) = size ∧ h.blockCache (x + allocHeaderSize) = cache := by
  have hsub : sub64 (x + allocHeaderSize) allocHeaderSize = x := by
    rw [sub64_of_le (by omega) hx, Nat.add_sub_cancel]
  unfold Heap.blockSize Heap.blockCache
  rw [hsub, hmem]
  unfold writeHeader
  rw [readLE_writeLE_of_disjoint (by omega), readLE_writeLE_self, readLE_writeLE_self]
  simp only [Nat.reducePow] at hsize hcache ⊢
  exact ⟨Nat.mod_eq_of_lt hsize, Nat.mod_eq_of_lt hcache⟩

theorem writeHeader_out {m : Bytes} {x size cache y : ℕ}
    (hy : y < x ∨ x + allocHeaderSize ≤ y) : writeHeader m x size cache y = m y := by
  unfold allocHeaderSize at hy
  unfold writeHeader
  rw [writeLE_out (by omega), writeLE_out (by omega)]

namespace HeapInv

variable {slack : ℕ} {reserved : ℕ → Prop} {h h' : Heap} {live : List ℕ} {o o' : Ownership}
  {ptr : ℕ} {P : Piece}

/-- Live blocks in one piece are one block. -/
theorem piece_ne {q : ℕ} {Q : Piece} (hP : Occupies h o ptr P) (hQ : Occupies h o q Q)
    (hne : ptr ≠ q) : P ≠ Q := by
  rintro rfl
  exact hne (hP.ptr_unique hQ)

/-- Writing usable bytes of a live block. -/
theorem write (hi : HeapInv slack reserved h live o) (hptr : ptr ∈ live) {m : Bytes}
    (hsame : ∀ y, y < ptr ∨ ptr + h.blockSize ptr ≤ y → m y = h.mem y) :
    HeapInv slack reserved { h with mem := m } live o := by
  obtain ⟨P, hP, hocc⟩ := hi.block ptr hptr
  have hbounds := hocc.ptr_bounds hi.caches hP
  have hout : ∀ y, ¬ P.Mem h.pmm y → m y = h.mem y := by
    intro y hy
    apply hsame
    by_contra hin
    exact hy (hocc.mem_piece (by omega) (by omega))
  refine { hi with caches := ?_, block := ?_ }
  · refine hi.caches.write hP ?_ ?_ hout
    · rintro b x hx rfl
      exact hocc.2.2.2.2 hx
    · rintro i page rfl
      exact hocc
  · intro q hq
    obtain ⟨Q, hQ, hoccQ⟩ := hi.block q hq
    refine ⟨Q, hQ, hoccQ.congr hi.caches hQ (SameRange.refl _) rfl ?_ ?_⟩
    · intro y hlo hhi
      by_cases hqp : q = ptr
      · subst hqp
        exact hsame y (Or.inl hhi)
      · apply hout
        intro hyP
        exact piece_ne hoccQ hocc hqp
          (hi.caches.piece_unique hQ hP (hoccQ.header_piece hlo hhi) hyP)
    · rintro b x rfl
      exact hoccQ.2.2.2.2

/-- One more live block: its piece was not live before, the pieces of the
others are still there, and only the new piece has been written. -/
theorem push (hi : HeapInv slack reserved h live o) (hc : CachesInv slack h' o')
    (hrange : SameRange h.pmm h'.pmm) (hcaches : h'.kmallocCaches = h.kmallocCaches)
    (hready : h'.kheapInitialized = h.kheapInitialized)
    (hvalid : ∀ Q : Piece, Q.Valid h.pmm o → Q.owner ≠ none → Q.Valid h'.pmm o')
    (hsame : ∀ Q : Piece, Q.Valid h.pmm o → Q.owner ≠ none → ∀ y, Q.Mem h.pmm y →
      ¬ P.Mem h'.pmm y → h'.mem y = h.mem y)
    (htaken : ∀ b x, IsSlot (cacheObjSize b) (o.pages b) x → x ∉ o.free b → x ∉ o'.free b)
    (howner : ∀ j < h.pmm.totalFrames, o'.own j = o.own j ∨
      (o.own j = none ∧ o'.own j = P.owner))
    (hP : P.Valid h'.pmm o') (hocc : Occupies h' o' ptr P)
    (hnew : ∀ q ∈ live, ∀ Q : Piece, Q.Valid h.pmm o → Occupies h o q Q → Q ≠ P) :
    HeapInv slack reserved h' (ptr :: live) o' := by
  have hmem : ∀ Q : Piece, Q.Mem h'.pmm = Q.Mem h.pmm := by
    intro Q
    cases Q <;> funext y <;> simp only [Piece.Mem, hrange.frameAddr]
  have hoff : ∀ q ∈ live, ∀ Q : Piece, Q.Valid h.pmm o → Occupies h o q Q →
      ∀ y, Q.Mem h.pmm y → ¬ P.Mem h'.pmm y := by
    intro q hq Q hQ hoccQ y hyQ hyP
    rw [← hmem] at hyQ
    exact hnew q hq Q hQ hoccQ
      (hc.piece_unique (hvalid Q hQ hoccQ.owner_ne_none) hP hyQ hyP)
  refine
    { caches := hc, ready := by rw [hready]; exact hi.ready, nodup := ?_, block := ?_,
      large_live := ?_, large_run := ?_, slab_bound := ?_, reserved_iff := ?_ }
  · refine List.nodup_cons.mpr ⟨?_, hi.nodup⟩
    intro hlive
    obtain ⟨Q, hQ, hoccQ⟩ := hi.block ptr hlive
    have hbounds := hoccQ.ptr_bounds hi.caches hQ
    exact hoff ptr hlive Q hQ hoccQ (ptr - allocHeaderSize)
      (hoccQ.header_piece (by omega) (by unfold allocHeaderSize at *; omega))
      (hocc.header_piece (by omega) (by unfold allocHeaderSize at *; omega))
  · intro q hq
    rcases List.mem_cons.mp hq with rfl | hq
    · exact ⟨P, hP, hocc⟩
    · obtain ⟨Q, hQ, hoccQ⟩ := hi.block q hq
      refine ⟨Q, hvalid Q hQ hoccQ.owner_ne_none,
        hoccQ.congr hi.caches hQ hrange hcaches ?_ ?_⟩
      · intro y hlo hhi
        have hyQ := hoccQ.header_piece hlo hhi
        exact hsame Q hQ hoccQ.owner_ne_none y hyQ (hoff q hq Q hQ hoccQ y hyQ)
      · rintro b x rfl
        exact htaken b x hQ.2 hoccQ.2.2.2.2
  · intro j hj q hown
    rw [hrange.2] at hj
    rcases howner j hj with hold | ⟨_, hnew⟩
    · rw [hold] at hown
      exact List.mem_cons_of_mem _ (hi.large_live j hj q hown)
    · rw [hnew] at hown
      cases P with
      | slot b x => cases hown
      | header i page => cases hown
      | run r first n =>
          cases hown
          rw [hocc.1]
          exact List.mem_cons_self
      | frame k => cases hown
  · intro j hj q hown
    rw [hrange.2] at hj
    rcases howner j hj with hold | ⟨_, hnew⟩
    · rw [hold] at hown
      obtain ⟨first, n, hrun, hq⟩ := hi.large_run j hj q hown
      exact ⟨first, n, hvalid _ hrun (by simp [Piece.owner]), by rw [hrange.frameAddr]; exact hq⟩
    · rw [hnew] at hown
      cases P with
      | slot b x => cases hown
      | header i page => cases hown
      | run r first n =>
          cases hown
          exact ⟨first, n, hP, by rw [hocc.1]; exact hocc.2.2.2.1⟩
      | frame k => cases hown
  · intro j hj i hown
    rw [hrange.2] at hj
    rcases howner j hj with hold | ⟨_, hnew⟩
    · rw [hold] at hown
      exact hi.slab_bound j hj i hown
    · rw [hnew] at hown
      cases P with
      | slot b x =>
          cases hown
          exact hP.1
      | header i page => exact hocc.elim
      | run r first n => cases hown
      | frame k => cases hown
  · intro j hj
    rw [hrange.2] at hj
    rw [← hi.reserved_iff j hj]
    rcases howner j hj with hold | ⟨hnone, hnew⟩
    · rw [hold]
    · rw [hnone, hnew]
      cases P <;> simp [Piece.owner]

/-- A small block from the bucket of its size. -/
theorem kmalloc_small (hi : HeapInv slack reserved h live o) {size b x : ℕ}
    (hbucket : getBucketIndex size = some b)
    (hs : slabAllocAt h (h.kmallocCaches b) = some (x, h')) :
    x ≠ 0 ∧ x + allocHeaderSize < 2 ^ 64 ∧ ∃ o', HeapInv slack reserved
      { h' with mem := writeHeader h'.mem x size (h.kmallocCaches b) }
      ((x + allocHeaderSize) :: live) o' ∧
      Heap.blockSize { h' with mem := writeHeader h'.mem x size (h.kmallocCaches b) }
        (x + allocHeaderSize) = size := by
  obtain ⟨hb, hfit⟩ := getBucketIndex_fits hbucket
  rw [← cacheObjSize_bucket hb] at hfit
  obtain ⟨hne, o', ht⟩ := hi.caches.slabAllocAt hb hs
  have hfacts := cacheObjSize_facts b
  have hslot : (Piece.slot b x).Valid h'.pmm o' := ⟨by omega, ht.slot⟩
  obtain ⟨j, hj, _, hlo, hhi⟩ := ht.inv.slot_page (by omega) ht.slot
  have hroom := frameAddr_room ht.inv.pmm hj
  have hrange := ht.inv.room
  have hx : x + allocHeaderSize < 2 ^ 64 := by
    unfold allocHeaderSize
    omega
  have hptr : h.kmallocCaches b < 2 ^ 64 := by
    have hinv := hi.caches.slab numSlabBuckets (le_refl _)
    obtain ⟨page, hpage, hplo, hphi⟩ := (hi.caches.pointer b hb).in_page hi.caches.pmm
      hinv.page_used
    have hpage' := (hinv.page_used page hpage).bounds hi.caches.pmm
    have hr := hi.caches.room
    unfold slabCacheStructSize at hphi
    omega
  obtain ⟨hsize, hcache⟩ := writeHeader_read
    (h := { h' with mem := writeHeader h'.mem x size (h.kmallocCaches b) }) (m := h'.mem)
    hx (by omega : size < 2 ^ 64) hptr rfl
  have hout : ∀ y, ¬ (Piece.slot b x).Mem h'.pmm y →
      writeHeader h'.mem x size (h.kmallocCaches b) y = h'.mem y := by
    intro y hy
    apply writeHeader_out
    by_contra hin
    exact hy ⟨by omega, by omega⟩
  refine ⟨hne, hx, o', ?_, hsize⟩
  refine hi.push (P := .slot b x) ?_ ht.range ht.caches ht.ready ht.valid ?_ ht.taken ht.owner
    hslot ?_ ?_
  · refine ht.inv.write hslot ?_ (fun i page => by simp) hout
    rintro i y hy heq
    cases heq
    exact ht.not_free hy
  · intro Q hQ hown y hy hnot
    exact (hout y hnot).trans (ht.same Q hQ hown y hy)
  · refine ⟨hb, by rw [hsize]; exact hbucket, ?_, rfl, ht.not_free⟩
    rw [hcache]
    exact (congrFun ht.caches b).symm
  · rintro q hq Q hQ hoccQ rfl
    exact ht.fresh ⟨hQ.2, hoccQ.2.2.2.2⟩

/-- A large block on frames that were all free. -/
theorem kmalloc_large (hi : HeapInv slack reserved h live o) {size first : ℕ} {p q : Pmm}
    (hsize : size + allocHeaderSize + pageSize - 1 < 2 ^ 64)
    (hbucket : getBucketIndex size = none) (hfirst : first < h.pmm.totalFrames)
    (hclear : h.pmm.used first = false) (htake : p = takeFrame h.pmm first)
    (hrun : allocRun p (h.pmm.frameAddr first) (numPages size - 1) = some q) :
    h.pmm.frameAddr first + allocHeaderSize < 2 ^ 64 ∧ ∃ o', HeapInv slack reserved
      { h with pmm := q, mem := writeHeader h.mem (h.pmm.frameAddr first) size 0 }
      ((h.pmm.frameAddr first + allocHeaderSize) :: live) o' ∧
      Heap.blockSize { h with
        pmm := q
        mem := writeHeader h.mem (h.pmm.frameAddr first) size 0 }
        (h.pmm.frameAddr first + allocHeaderSize) = size := by
  have hc := hi.caches
  have hp : PmmInv slack p := by
    rw [htake]
    exact hc.pmm.takeFrame hfirst hclear
  have hpr : SameRange h.pmm p := by
    rw [htake]
    exact takeFrame_sameRange _ _
  have hroom := hc.room
  have hbase := hc.base_pos
  obtain ⟨hfit, hpos⟩ := numPages_pos hsize
  rw [← hpr.frameAddr] at hrun
  obtain ⟨hlast, hq, hqr, hfree, hused⟩ := allocRun_spec hp (by rw [hpr.1]; exact hbase)
    (by rw [hpr.2]; exact hfirst) hrun
  rw [hpr.2] at hlast
  have hrange : SameRange h.pmm q := hpr.trans hqr
  have hwindow : ∀ j, first ≤ j → j < first + numPages size → h.pmm.used j = false := by
    intro j hlo hhi
    rcases Nat.eq_or_lt_of_le hlo with rfl | hlt
    · exact hclear
    · have hj := hfree j hlt (by omega)
      rw [htake, takeFrame_used, Bool.or_eq_false_iff] at hj
      exact hj.2
  have hused' : ∀ j, q.used j =
      (decide (first ≤ j ∧ j < first + numPages size) || h.pmm.used j) := by
    intro j
    rw [hused, htake, takeFrame_used, ← Bool.or_assoc, ← Bool.decide_or]
    congr 1
    apply decide_eq_decide.mpr
    omega
  have haddr := frameAddr_room hc.pmm hfirst
  have hx : h.pmm.frameAddr first + allocHeaderSize < 2 ^ 64 := by
    unfold allocHeaderSize
    unfold pageSize at *
    omega
  set x := h.pmm.frameAddr first with hxdef
  set ptr := x + allocHeaderSize with hptr
  let own : ℕ → Option FrameOwner := fun j =>
    if first ≤ j ∧ j < first + numPages size then some (.large ptr) else o.own j
  set h' : Heap := { h with pmm := q, mem := writeHeader h.mem x size 0 } with hh'
  have hnone : ∀ j, first ≤ j → j < first + numPages size → o.own j = none := by
    intro j hlo hhi
    exact hc.own_none (by omega) (hwindow j hlo hhi)
  obtain ⟨hbs, hbc⟩ := writeHeader_read (h := h') (m := h.mem) hx
    (by unfold pageSize at hsize; omega : size < 2 ^ 64) (by omega : 0 < 2 ^ 64) rfl
  -- the header lies in the first frame of the window, which had no owner
  have hsame : ∀ Q : Piece, Q.Valid h.pmm o → Q.owner ≠ none → ∀ y, Q.Mem h.pmm y →
      h'.mem y = h.mem y := by
    intro Q hQ hown y hy
    have hoff := hc.off_free_frame hQ hown hy hfirst hclear
    apply writeHeader_out
    unfold allocHeaderSize
    unfold pageSize at hoff
    omega
  have hfresh : ∀ j < h.pmm.totalFrames, o.own j ≠ some (.large ptr) := by
    intro j hj hown
    obtain ⟨Q, hQ, hocc⟩ := hi.block ptr (hi.large_live j hj ptr hown)
    have hyQ := hocc.header_piece (y := x) (by omega) (by
      rw [hptr]
      unfold allocHeaderSize
      omega)
    have hoff := hc.off_free_frame hQ hocc.owner_ne_none hyQ hfirst hclear
    unfold pageSize at hoff
    omega
  have hinv : CachesInv slack h' { o with own := own } := by
    refine hc.setFrames ⟨rfl, rfl, rfl, rfl⟩ hq hrange ?_ ?_ hsame
    · intro j hj
      change q.used j = _
      rw [hused']
      by_cases hin : first ≤ j ∧ j < first + numPages size
      · simp [own, hin]
      · simp [own, hin, hc.own_used j hj]
    · intro j hj i
      by_cases hin : first ≤ j ∧ j < first + numPages size
      · simp [own, hin, hnone j hin.1 hin.2]
      · simp [own, hin]
  refine ⟨hx, { o with own := own }, ?_, hbs⟩
  refine hi.push (P := .run ptr first (numPages size)) hinv hrange rfl rfl ?_ ?_
    (fun _ _ _ hnot => hnot) ?_ ?_ ?_ ?_
  · intro Q hQ hown
    cases Q with
    | slot b z => exact hQ
    | header i page => exact hQ
    | run r start n =>
        refine ⟨hQ.1, by rw [hrange.2]; exact hQ.2.1, ?_⟩
        intro j hj
        rw [hrange.2] at hj
        rw [← hQ.2.2 j hj]
        by_cases hin : first ≤ j ∧ j < first + numPages size
        · have hrp : ptr ≠ r := by
            rintro rfl
            obtain ⟨hcount, hbound, hwin⟩ := hQ
            exact hfresh start (by omega) ((hwin start (by omega)).mpr ⟨le_refl _, by omega⟩)
          simp [own, hin, hnone j hin.1 hin.2, hrp]
        · simp [own, hin]
    | frame j => exact absurd rfl hown
  · intro Q hQ hown y hy _
    exact hsame Q hQ hown y hy
  · intro j hj
    by_cases hin : first ≤ j ∧ j < first + numPages size
    · exact Or.inr ⟨hnone j hin.1 hin.2, by simp [own, hin, Piece.owner]⟩
    · exact Or.inl (by simp [own, hin])
  · refine ⟨hpos, by rw [hrange.2]; omega, ?_⟩
    intro j hj
    rw [hrange.2] at hj
    by_cases hin : first ≤ j ∧ j < first + numPages size
    · simp [own, hin]
    · simp [own, hin, hfresh j hj]
  · exact ⟨rfl, by rw [hbs]; exact hbucket, hbc, by rw [hrange.frameAddr], by rw [hbs],
      by rw [hbs]; exact hsize⟩
  · rintro r hr Q hQ hoccQ rfl
    have hrun := (hQ.2.2 first hfirst).mpr ⟨le_refl _, by omega⟩
    exact hfresh first hfirst hrun

/-- `kmalloc` fails without a change, or adds one block of the size asked for. -/
theorem kmalloc (hi : HeapInv slack reserved h live o) {size r : ℕ}
    (hsize : size + allocHeaderSize + pageSize - 1 < 2 ^ 64)
    (hs : kmalloc h size = some (r, h')) :
    (r = 0 ∧ h' = h) ∨
      (r ≠ 0 ∧ ∃ o', HeapInv slack reserved h' (r :: live) o' ∧ h'.blockSize r = size) := by
  unfold Vectra.kmalloc at hs
  split at hs
  · cases hs
    exact Or.inl ⟨rfl, rfl⟩
  · rw [if_neg (by simp [hi.ready])] at hs
    cases hbucket : getBucketIndex size with
    | some b =>
        simp only [hbucket] at hs
        cases halloc : slabAllocAt h (h.kmallocCaches b) with
        | none => simp [halloc] at hs
        | some a =>
            obtain ⟨x, h1⟩ := a
            obtain ⟨hne, hx, o', hinv, hbs⟩ := hi.kmalloc_small hbucket halloc
            simp only [halloc, hne, if_false, Option.some.injEq, Prod.mk.injEq,
              Nat.mod_eq_of_lt hx] at hs
            obtain ⟨rfl, rfl⟩ := hs
            exact Or.inr ⟨by unfold allocHeaderSize; omega, o', hinv, hbs⟩
    | none =>
        simp only [hbucket] at hs
        cases halloc : pmmAllocFrame h.pmm with
        | none => simp [halloc] at hs
        | some a =>
            obtain ⟨phys, p⟩ := a
            simp only [halloc] at hs
            rcases hi.caches.pmm.allocFrame_some halloc with
              ⟨hzero, hsame, _⟩ | ⟨first, hfirst, hclear, hphys, htake⟩
            · rw [if_pos hzero, hsame] at hs
              cases hs
              exact Or.inl ⟨rfl, rfl⟩
            · have hne : phys ≠ 0 := by
                have hroom := frameAddr_room hi.caches.pmm hfirst
                have hbase := hi.caches.base_pos
                omega
              rw [if_neg hne] at hs
              cases hrun : allocRun p phys (numPages size - 1) with
              | none => simp [hrun] at hs
              | some q =>
                  rw [hphys] at hrun
                  obtain ⟨hx, o', hinv, hbs⟩ :=
                    hi.kmalloc_large hsize hbucket hfirst hclear htake hrun
                  rw [← hphys] at hx hinv hbs hrun
                  simp only [hrun, Option.some.injEq, Prod.mk.injEq, Nat.mod_eq_of_lt hx] at hs
                  obtain ⟨rfl, rfl⟩ := hs
                  exact Or.inr ⟨by unfold allocHeaderSize; omega, o', hinv, hbs⟩

/-- The blocks that stay live when one is given back. -/
theorem erase_block (hi : HeapInv slack reserved h live o)
    (hc : CachesInv slack h' o') (hrange : SameRange h.pmm h'.pmm)
    (hcaches : h'.kmallocCaches = h.kmallocCaches)
    (hready : h'.kheapInitialized = h.kheapInitialized)
    (hocc : Occupies h o ptr P)
    (hvalid : ∀ Q : Piece, Q.Valid h.pmm o → Q.owner ≠ none → Q ≠ P → Q.Valid h'.pmm o')
    (hsame : ∀ Q : Piece, Q.Valid h.pmm o → Q ≠ P → ∀ y, Q.Mem h.pmm y → h'.mem y = h.mem y)
    (htaken : ∀ b x, Piece.slot b x ≠ P → x ∉ o.free b → x ∉ o'.free b)
    (howner : ∀ j < h.pmm.totalFrames, (o'.own j = o.own j ∧ o.own j ≠ some (.large ptr)) ∨
      (o.own j = some (.large ptr) ∧ o'.own j = none)) :
    HeapInv slack reserved h' (live.erase ptr) o' := by
  have hkeep : ∀ q ∈ live.erase ptr, q ∈ live ∧ q ≠ ptr := fun q hq =>
    ⟨List.mem_of_mem_erase hq, (hi.nodup.mem_erase_iff.mp hq).1⟩
  refine
    { caches := hc, ready := by rw [hready]; exact hi.ready, nodup := hi.nodup.erase ptr,
      block := ?_, large_live := ?_, large_run := ?_, slab_bound := ?_, reserved_iff := ?_ }
  · intro q hq
    obtain ⟨hlive, hne⟩ := hkeep q hq
    obtain ⟨Q, hQ, hoccQ⟩ := hi.block q hlive
    have hQP : Q ≠ P := piece_ne hoccQ hocc hne
    refine ⟨Q, hvalid Q hQ hoccQ.owner_ne_none hQP,
      hoccQ.congr hi.caches hQ hrange hcaches ?_ ?_⟩
    · intro y hlo hhi
      exact hsame Q hQ hQP y (hoccQ.header_piece hlo hhi)
    · rintro b x rfl
      exact htaken b x hQP hoccQ.2.2.2.2
  · intro j hj q hown
    rw [hrange.2] at hj
    rcases howner j hj with ⟨hold, hnot⟩ | ⟨_, hnone⟩
    · rw [hold] at hown
      refine hi.nodup.mem_erase_iff.mpr ⟨?_, hi.large_live j hj q hown⟩
      rintro rfl
      exact hnot hown
    · rw [hnone] at hown
      cases hown
  · intro j hj q hown
    rw [hrange.2] at hj
    rcases howner j hj with ⟨hold, hnot⟩ | ⟨_, hnone⟩
    · rw [hold] at hown
      obtain ⟨first, n, hrun, hq⟩ := hi.large_run j hj q hown
      refine ⟨first, n, hvalid _ hrun (by simp [Piece.owner]) ?_,
        by rw [hrange.frameAddr]; exact hq⟩
      rintro rfl
      exact hnot (by rw [hown, hocc.1])
    · rw [hnone] at hown
      cases hown
  · intro j hj i hown
    rw [hrange.2] at hj
    rcases howner j hj with ⟨hold, _⟩ | ⟨_, hnone⟩
    · rw [hold] at hown
      exact hi.slab_bound j hj i hown
    · rw [hnone] at hown
      cases hown
  · intro j hj
    rw [hrange.2] at hj
    rw [← hi.reserved_iff j hj]
    rcases howner j hj with ⟨hold, _⟩ | ⟨hlarge, hnone⟩
    · rw [hold]
    · rw [hlarge, hnone]
      simp

theorem kfree_slot_eq (hi : HeapInv slack reserved h live o) {b x : ℕ}
    (hP : (Piece.slot b x).Valid h.pmm o) (hocc : Occupies h o ptr (.slot b x)) :
    Vectra.kfree h ptr = slabFreeAt h (h.kmallocCaches b) x := by
  have hbounds := hocc.ptr_bounds hi.caches hP
  obtain ⟨hb, _, hcache, hptr, _⟩ := hocc
  have hsub : sub64 ptr allocHeaderSize = x := by
    rw [sub64_of_le (by omega) hbounds.2, hptr, Nat.add_sub_cancel]
  unfold Vectra.kfree
  rw [if_neg (by omega), hcache, if_pos (hi.caches.bucket_ne_zero hb), hsub]

theorem kfree_run_eq (hi : HeapInv slack reserved h live o) {q first n : ℕ}
    (hP : (Piece.run q first n).Valid h.pmm o) (hocc : Occupies h o ptr (.run q first n)) :
    Vectra.kfree h ptr = { h with pmm := freeRun h.pmm (h.pmm.frameAddr first) n } := by
  have hbounds := hocc.ptr_bounds hi.caches hP
  obtain ⟨_, _, hcache, hptr, hn, _⟩ := hocc
  have hsub : sub64 ptr allocHeaderSize = h.pmm.frameAddr first := by
    rw [sub64_of_le (by omega) hbounds.2, hptr, Nat.add_sub_cancel]
  unfold Vectra.kfree
  rw [if_neg (by omega), hcache, if_neg (by simp), hsub, hn]

theorem kfree_slot (hi : HeapInv slack reserved h live o) {b x : ℕ}
    (hP : (Piece.slot b x).Valid h.pmm o) (hocc : Occupies h o ptr (.slot b x)) :
    ∃ o', HeapInv slack reserved (kfree h ptr) (live.erase ptr) o' := by
  have hfree := hi.kfree_slot_eq hP hocc
  have hocc' := hocc
  obtain ⟨hb, _, hcache, hptr, hnot⟩ := hocc'
  obtain ⟨o', hg⟩ := hi.caches.slabFreeAt hb ⟨hP.2, hnot⟩
  rw [← hfree] at hg
  refine ⟨o', hi.erase_block hg.inv (by rw [hg.frames]; exact SameRange.refl _) hg.caches
    hg.ready hocc ?_ hg.same ?_ ?_⟩
  · intro Q hQ hown hne
    rw [hg.frames]
    cases Q with
    | slot i z => exact ⟨hQ.1, by rw [hg.pages]; exact hQ.2⟩
    | header i page => exact ⟨hQ.1, by rw [hg.pages]; exact hQ.2⟩
    | run r first n =>
        refine ⟨hQ.1, hQ.2.1, ?_⟩
        intro j hj
        rw [hg.owner j hj]
        exact hQ.2.2 j hj
    | frame j => exact absurd rfl hown
  · intro i z hne hz
    rw [hg.free]
    by_cases hib : i = b
    · subst hib
      rw [Function.update_self]
      intro hmem
      rcases List.mem_cons.mp hmem with rfl | hmem
      · exact hne rfl
      · exact hz hmem
    · rw [Function.update_of_ne hib]
      exact hz
  · intro j hj
    refine Or.inl ⟨hg.owner j hj, ?_⟩
    intro hown
    obtain ⟨first, n, hrun, hfirst⟩ := hi.large_run j hj ptr hown
    have hcount := hrun.1
    have hxrun : (Piece.run ptr first n).Mem h.pmm x := by
      refine ⟨by omega, ?_⟩
      have hpage : pageSize ≤ n * pageSize := Nat.le_mul_of_pos_left pageSize hcount
      unfold pageSize at *
      omega
    have hxslot := hocc.header_piece (y := x) (by omega) (by unfold allocHeaderSize at hptr; omega)
    have heq := hi.caches.piece_unique hrun hP hxrun hxslot
    cases heq

theorem kfree_run (hi : HeapInv slack reserved h live o) {q first n : ℕ}
    (hP : (Piece.run q first n).Valid h.pmm o) (hocc : Occupies h o ptr (.run q first n)) :
    ∃ o', HeapInv slack reserved (Vectra.kfree h ptr) (live.erase ptr) o' := by
  have hfree := hi.kfree_run_eq hP hocc
  have hocc' := hocc
  obtain ⟨rfl, _, hcache, hptr, hn, hsize⟩ := hocc'
  obtain ⟨hcount, hbound, hwin⟩ := hP
  have hc := hi.caches
  obtain ⟨hp, hrange, hused⟩ := freeRun_spec hc.pmm hbound
  let own : ℕ → Option FrameOwner := fun j =>
    if first ≤ j ∧ j < first + n then none else o.own j
  have hinv : CachesInv slack (Vectra.kfree h q) { o with own := own } := by
    rw [hfree]
    refine hc.setFrames ⟨rfl, rfl, rfl, rfl⟩ hp hrange ?_ ?_ (fun _ _ _ _ _ => rfl)
    · intro j hj
      change (freeRun h.pmm (h.pmm.frameAddr first) n).used j = _
      rw [hused]
      by_cases hin : first ≤ j ∧ j < first + n
      · simp [own, hin]
      · simp [own, hin, hc.own_used j hj]
    · intro j hj i
      by_cases hin : first ≤ j ∧ j < first + n
      · simp [own, hin, (hwin j hj).mpr hin]
      · simp [own, hin]
  refine ⟨{ o with own := own }, hi.erase_block hinv (by rw [hfree]; exact hrange)
    (by rw [hfree]) (by rw [hfree]) hocc ?_ ?_ (fun _ _ _ hz => hz) ?_⟩
  · intro Q hQ hown hne
    have hpmm : SameRange h.pmm (Vectra.kfree h q).pmm := by
      rw [hfree]
      exact hrange
    cases Q with
    | slot i z => exact hQ
    | header i page => exact hQ
    | run r start m =>
        refine ⟨hQ.1, by rw [hpmm.2]; exact hQ.2.1, ?_⟩
        intro j hj
        rw [hpmm.2] at hj
        rw [← hQ.2.2 j hj]
        by_cases hin : first ≤ j ∧ j < first + n
        · have hrq : q ≠ r := by
            rintro rfl
            have hmem : ∀ start' m', (Piece.run q start' m').Valid h.pmm o →
                start' ≤ j ∧ j < start' + m' → (Piece.run q start' m').Mem h.pmm
                  (h.pmm.frameAddr j) := by
              intro start' m' hv hin'
              obtain ⟨_, hb', _⟩ := hv
              have hj' := hc.pmm.frameAddr_eq hj
              have hs' := hc.pmm.frameAddr_eq (i := start') (by omega)
              refine ⟨?_, ?_⟩
              · rw [hj', hs']
                unfold pageSize
                omega
              · rw [hj', hs']
                unfold pageSize
                omega
            have hin' := (hQ.2.2 j hj).mp ((hwin j hj).mpr hin)
            have hv : (Piece.run q first n).Valid h.pmm o := ⟨hcount, hbound, hwin⟩
            exact hne (hc.piece_unique hQ hv (hmem start m hQ hin') (hmem first n hv hin))
          simp [own, hin, (hwin j hj).mpr hin, hrq]
        · simp [own, hin]
    | frame j => exact absurd rfl hown
  · intro Q _ _ y _
    rw [hfree]
  · intro j hj
    by_cases hin : first ≤ j ∧ j < first + n
    · exact Or.inr ⟨(hwin j hj).mpr hin, by simp [own, hin]⟩
    · refine Or.inl ⟨by simp [own, hin], ?_⟩
      rw [Ne, hwin j hj]
      exact hin

end HeapInv

end Vectra

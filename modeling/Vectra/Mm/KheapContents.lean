import Vectra.Mm.KheapFrames

/-!
# The contents of the blocks

What each call of the heap leaves alone: the header and the bytes of the live blocks that it is
not given, the managed range, and the addresses of the caches.
-/

namespace Vectra

open Lib SlabMem

/-- The bytes of a block, its header included. -/
def SameBlock (h h' : Heap) (q : ℕ) : Prop := ∀ y, InBlock h q y → h'.mem y = h.mem y

/-- What no call changes. -/
structure HeapFixed (h h' : Heap) : Prop where
  range : SameRange h.pmm h'.pmm
  caches : h'.kmallocCaches = h.kmallocCaches

theorem HeapFixed.refl (h : Heap) : HeapFixed h h := ⟨SameRange.refl _, rfl⟩

theorem HeapFixed.trans {h h' h'' : Heap} (hf : HeapFixed h h') (hg : HeapFixed h' h'') :
    HeapFixed h h'' := ⟨hf.range.trans hg.range, hg.caches.trans hf.caches⟩

theorem HeapFixed.setMem (h : Heap) (m : Bytes) : HeapFixed h { h with mem := m } :=
  ⟨SameRange.refl _, rfl⟩

theorem copyBytes_in {m : Bytes} {dst src n i : ℕ} (hoff : dst + n ≤ src ∨ src + n ≤ dst)
    (hi : i < n) : copyBytes m dst src n (dst + i) = m (src + i) := by
  induction n with
  | zero => omega
  | succ n ih =>
      rw [copyBytes]
      rcases Nat.lt_succ_iff_lt_or_eq.mp hi with hlt | rfl
      · rw [Function.update_of_ne (by omega)]
        exact ih (by omega) hlt
      · rw [Function.update_self]
        exact copyBytes_out (by omega)

namespace HeapInv

variable {slack slack' : ℕ} {reserved reserved' : ℕ → Prop} {h h' h'' : Heap} {live live' : List ℕ}
  {o o' : Ownership} {ptr q r y size : ℕ}

theorem sameBlock_size (hi : HeapInv slack reserved h live o) (hq : q ∈ live)
    (hsame : SameBlock h h' q) : h'.blockSize q = h.blockSize q :=
  hi.inBlock_congr hq fun y hlo hhi => hsame y ⟨hlo, by omega⟩

theorem sameBlock_trans (hi : HeapInv slack reserved h live o) (hq : q ∈ live)
    (hsame : SameBlock h h' q) (hsame' : SameBlock h' h'' q) : SameBlock h h'' q := by
  intro y hy
  refine (hsame' y ⟨hy.1, ?_⟩).trans (hsame y hy)
  rw [hi.sameBlock_size hq hsame]
  exact hy.2

/-- A large block is a run of frames that starts with one that was free. -/
theorem kmalloc_run (hi : HeapInv slack reserved h live o) (hfits : FitsSize size)
    (hbucket : getBucketIndex size = none) (hs : Vectra.kmalloc h size = some (ptr, h'))
    (hne : ptr ≠ 0) :
    ∃ first q, first < h.pmm.totalFrames ∧ h.pmm.used first = false ∧
      allocRun (takeFrame h.pmm first) (h.pmm.frameAddr first) (numPages size - 1) = some q ∧
      ptr = h.pmm.frameAddr first + allocHeaderSize ∧
      h' = { h with pmm := q, mem := writeHeader h.mem (h.pmm.frameAddr first) size 0 } := by
  unfold Vectra.kmalloc at hs
  split at hs
  · cases hs
    exact absurd rfl hne
  · rw [if_neg (by simp [hi.ready])] at hs
    simp only [hbucket] at hs
    cases halloc : pmmAllocFrame h.pmm with
    | none => simp [halloc] at hs
    | some a =>
        obtain ⟨phys, p⟩ := a
        simp only [halloc] at hs
        split at hs
        · cases hs
          exact absurd rfl hne
        · rename_i hphys
          rcases hi.caches.pmm.allocFrame_some halloc with
            ⟨hzero, _, _⟩ | ⟨first, hfirst, hclear, rfl, rfl⟩
          · exact absurd hzero hphys
          · cases hrun : allocRun (takeFrame h.pmm first) (h.pmm.frameAddr first)
              (numPages size - 1) with
            | none => simp [hrun] at hs
            | some q =>
                obtain ⟨hx, _⟩ := hi.kmalloc_large hfits hbucket hfirst hclear rfl hrun
                simp only [hrun, Option.some.injEq, Prod.mk.injEq, Nat.mod_eq_of_lt hx] at hs
                exact ⟨first, q, hfirst, hclear, hrun, hs.1.symm, hs.2.symm⟩

/-- `kmalloc` leaves the live blocks alone. -/
theorem kmalloc_same (hi : HeapInv slack reserved h live o) (hfits : FitsSize size)
    (hs : Vectra.kmalloc h size = some (ptr, h')) :
    HeapFixed h h' ∧ ∀ q ∈ live, SameBlock h h' q := by
  rcases hi.kmalloc hfits hs with ⟨rfl, rfl⟩ | ⟨hne, o', hi', _⟩
  · exact ⟨HeapFixed.refl _, fun _ _ _ _ => rfl⟩
  · cases hbucket : getBucketIndex size with
    | some b =>
        refine ⟨⟨hi.kmalloc_range hbucket hs hne, ?_⟩, fun q hq y hy =>
          hi.kmalloc_block hbucket hs hne hi' hq hy⟩
        obtain ⟨x, h1, halloc, _, rfl⟩ := hi.kmalloc_slot hbucket hs hne
        obtain ⟨_, _, ht⟩ := hi.caches.slabAllocAt (getBucketIndex_fits hbucket).1 halloc
        exact ht.caches
    | none =>
        obtain ⟨first, p, hfirst, hclear, hrun, _, rfl⟩ := hi.kmalloc_run hfits hbucket hs hne
        refine ⟨⟨?_, rfl⟩, fun q hq y hy => ?_⟩
        · have hbase := hi.caches.base_pos
          have hpos := numPages_pos hfits
          rw [← (takeFrame_sameRange h.pmm first).frameAddr] at hrun
          exact (takeFrame_sameRange _ _).trans (allocRun_spec
            (hi.caches.pmm.takeFrame hfirst hclear) hbase hfirst hrun).2.2.1
        · have hoff := hi.off_free_of_inBlock hq hy hfirst hclear
          refine writeHeader_out ?_
          unfold allocHeaderSize
          unfold pageSize at hoff
          omega

/-- `kfree` leaves the other live blocks alone. -/
theorem kfree_same (hi : HeapInv slack reserved h live o) (hptr : ptr ∈ live) :
    HeapFixed h (Vectra.kfree h ptr) ∧ ∀ q ∈ live, q ≠ ptr →
      SameBlock h (Vectra.kfree h ptr) q := by
  refine ⟨⟨hi.kfree_range hptr, ?_⟩, fun q hq hne y hy => hi.kfree_block hptr hq hne hy⟩
  unfold Vectra.kfree
  split
  · rfl
  · split
    · unfold slabFreeAt
      split <;> rfl
    · rfl

/-- Writing usable bytes of a live block leaves the others alone. -/
theorem write_same (hi : HeapInv slack reserved h live o) (hptr : ptr ∈ live) {m : Bytes}
    (hout : ∀ y, y < ptr ∨ ptr + h.blockSize ptr ≤ y → m y = h.mem y) (hq : q ∈ live)
    (hne : q ≠ ptr) : SameBlock h { h with mem := m } q := by
  intro y hy
  refine hout y ?_
  by_contra hin
  exact hi.layout.blocks_disjoint q hq ptr hptr hne y hy ⟨by omega, by omega⟩

end HeapInv

/-! ## `krealloc` -/

/-- No memory for a block of `n` bytes: its cache is empty and no frame is free, or the frames
that `pmm_alloc_frame` gives do not follow each other. -/
def NoMemory (h : Heap) (n : ℕ) : Prop :=
  match getBucketIndex n with
  | some b => (h.cache b).freeObjects = 0 ∧ ∀ i < h.pmm.totalFrames, h.pmm.used i = true
  | none => (∀ i < h.pmm.totalFrames, h.pmm.used i = true) ∨
      ∃ phys p, pmmAllocFrame h.pmm = some (phys, p) ∧ allocRun p phys (numPages n - 1) = none

/-- The block has the size and the bytes that it had. -/
def Intact (h h' : Heap) (q : ℕ) : Prop :=
  h'.blockSize q = h.blockSize q ∧ ∀ i < h.blockSize q, h'.mem (q + i) = h.mem (q + i)

/-- What `krealloc` of `ptr` to `n` bytes promises, with the result `r`. -/
structure Reallocated (reserved : ℕ → Prop) (h h' : Heap) (live live' : List ℕ)
    (ptr n r : ℕ) : Prop where
  layout : ∃ pages free, HeapLayout reserved h' live' pages free
  moved : r ≠ 0 → r ∈ live' ∧ n ≤ h'.blockSize r ∧
    (∀ i < min (h.blockSize ptr) n, h'.mem (r + i) = h.mem (ptr + i)) ∧ (ptr ∈ live' → ptr = r)
  failed : r = 0 → ptr ∈ live' ∧ Intact h h' ptr
  others : ∀ q ∈ live, q ≠ ptr → q ∈ live' ∧ Intact h h' q

namespace HeapInv

variable {slack : ℕ} {reserved : ℕ → Prop} {h h' h₁ : Heap} {live : List ℕ} {o o₁ : Ownership}
  {ptr q r n : ℕ}

theorem intact (hi : HeapInv slack reserved h live o) (hq : q ∈ live)
    (hsame : SameBlock h h' q) : Intact h h' q :=
  ⟨hi.sameBlock_size hq hsame, fun i hlt => hsame (q + i) ⟨by omega, by omega⟩⟩

/-- The bytes of two live blocks do not overlap. -/
theorem blocks_apart (hi : HeapInv slack reserved h live o) (hptr : ptr ∈ live) (hq : q ∈ live)
    (hne : q ≠ ptr) {s : ℕ} (hs : s ≤ h.blockSize ptr) (hs' : s ≤ h.blockSize q) :
    q + s ≤ ptr ∨ ptr + s ≤ q := by
  by_contra hin
  exact hi.layout.blocks_disjoint q hq ptr hptr hne (max q ptr) ⟨by omega, by omega⟩
    ⟨by omega, by omega⟩

/-- The block that replaces `ptr`, after `ptr` is released. -/
theorem replace_free {h₂ : Heap} (hi : HeapInv slack reserved h live o) (hptr : ptr ∈ live)
    (hsame : ∀ q ∈ live, SameBlock h h₁ q) (hi₁ : HeapInv slack reserved h₁ (r :: live) o₁)
    (hsame₁ : ∀ q ∈ live, SameBlock h₁ h₂ q) (hi₂ : HeapInv slack reserved h₂ (r :: live) o₁)
    (hsize : h₂.blockSize r = n) (hgrow : h.blockSize ptr < n)
    (hcopied : ∀ i < h.blockSize ptr, h₂.mem (r + i) = h.mem (ptr + i)) :
    (∃ o', HeapInv slack reserved (Vectra.kfree h₂ ptr) (r :: live.erase ptr) o') ∧
      (Vectra.kfree h₂ ptr).blockSize r = n ∧
      (∀ i < h.blockSize ptr, (Vectra.kfree h₂ ptr).mem (r + i) = h.mem (ptr + i)) ∧
      ∀ q ∈ live, q ≠ ptr → SameBlock h (Vectra.kfree h₂ ptr) q := by
  have hr : r ∈ r :: live := List.mem_cons_self
  have hptr₁ : ptr ∈ r :: live := List.mem_cons_of_mem r hptr
  have hrp : r ≠ ptr := by
    rintro rfl
    exact (List.nodup_cons.mp hi₁.nodup).1 hptr
  obtain ⟨_, hkept⟩ := hi₂.kfree_same hptr₁
  have hr₃ : SameBlock h₂ (Vectra.kfree h₂ ptr) r := hkept r hr hrp
  refine ⟨?_, (hi₂.sameBlock_size hr hr₃).trans hsize, fun i hlt => ?_, fun q hq hne => ?_⟩
  · obtain ⟨o', hi₃⟩ := hi₂.kfree hptr₁
    rw [List.erase_cons_tail (by simpa using hrp)] at hi₃
    exact ⟨o', hi₃⟩
  · exact (hr₃ (r + i) ⟨by omega, by omega⟩).trans (hcopied i hlt)
  · exact hi.sameBlock_trans hq (hsame q hq) (hi₁.sameBlock_trans (List.mem_cons_of_mem r hq)
      (hsame₁ q hq) (hkept q (List.mem_cons_of_mem r hq) hne))

/-- The copy of `ptr` into the block that replaces it. -/
theorem copy_same {m : Bytes} (hi : HeapInv slack reserved h live o) (hptr : ptr ∈ live)
    (hsame : ∀ q ∈ live, SameBlock h h₁ q) (hi₁ : HeapInv slack reserved h₁ (r :: live) o₁)
    (hsize : h₁.blockSize r = n) (hgrow : h.blockSize ptr < n)
    (hm : m = copyBytes h₁.mem r ptr (h.blockSize ptr)) :
    (∀ y, y < r ∨ r + h₁.blockSize r ≤ y → m y = h₁.mem y) ∧
      ∀ i < h.blockSize ptr, m (r + i) = h.mem (ptr + i) := by
  have hrp : r ≠ ptr := by
    rintro rfl
    exact (List.nodup_cons.mp hi₁.nodup).1 hptr
  have hsize₁ : h₁.blockSize ptr = h.blockSize ptr := hi.sameBlock_size hptr (hsame ptr hptr)
  have hapart : r + h.blockSize ptr ≤ ptr ∨ ptr + h.blockSize ptr ≤ r :=
    hi₁.blocks_apart (List.mem_cons_of_mem r hptr) List.mem_cons_self hrp hsize₁.ge (by omega)
  rw [hm]
  refine ⟨fun y hy => copyBytes_out (by omega), fun i hlt => ?_⟩
  exact (copyBytes_in hapart hlt).trans (hsame ptr hptr (ptr + i) ⟨by omega, by omega⟩)

/-- The block that replaces `ptr`, after the copy and the release of `ptr`. -/
theorem copy_free {m : Bytes} (hi : HeapInv slack reserved h live o) (hptr : ptr ∈ live)
    (hsame : ∀ q ∈ live, SameBlock h h₁ q) (hi₁ : HeapInv slack reserved h₁ (r :: live) o₁)
    (hsize : h₁.blockSize r = n) (hgrow : h.blockSize ptr < n)
    (hm : m = copyBytes h₁.mem r ptr (h.blockSize ptr))
    (hh' : h' = Vectra.kfree { h₁ with mem := m } ptr) :
    (∃ o', HeapInv slack reserved h' (r :: live.erase ptr) o') ∧ h'.blockSize r = n ∧
      (∀ i < h.blockSize ptr, h'.mem (r + i) = h.mem (ptr + i)) ∧
      ∀ q ∈ live, q ≠ ptr → SameBlock h h' q := by
  obtain ⟨hout, hcopied⟩ := hi.copy_same hptr hsame hi₁ hsize hgrow hm
  have hr : r ∈ r :: live := List.mem_cons_self
  have hsize₂ : ({ h₁ with mem := m } : Heap).blockSize r = n :=
    (hi₁.inBlock_congr hr fun y _ hhi => hout y (.inl hhi)).trans hsize
  have hsame₁ : ∀ q ∈ live, SameBlock h₁ { h₁ with mem := m } q := by
    intro q hq
    refine hi₁.write_same hr hout (List.mem_cons_of_mem r hq) ?_
    rintro rfl
    exact (List.nodup_cons.mp hi₁.nodup).1 hq
  rw [hh']
  exact hi.replace_free hptr hsame hi₁ hsame₁ (hi₁.write hr hout) hsize₂ hgrow hcopied

theorem krealloc_contents (hi : HeapInv slack reserved h live o) (hptr : ptr ∈ live)
    (hn : 0 < n) (hfits : FitsSize n) (hs : Vectra.krealloc h ptr n = some (r, h')) :
    Reallocated reserved h h' live ((KheapOp.krealloc ptr n).liveAfter live r) ptr n r := by
  have hne := hi.ne_zero hptr
  have hlayout : ∃ pages free,
      HeapLayout reserved h' ((KheapOp.krealloc ptr n).liveAfter live r) pages free := by
    obtain ⟨o', hi'⟩ := hi.krealloc (.inr hptr) hfits hs
    exact ⟨o'.pages, o'.free, hi'.layout⟩
  have hlive : (KheapOp.krealloc ptr n).liveAfter live r =
      if r = 0 then live else r :: live.erase ptr := if_neg fun hzero => by omega
  rw [hlive] at hlayout ⊢
  unfold Vectra.krealloc at hs
  rw [if_neg hne, if_neg (by omega)] at hs
  split at hs
  · rename_i hshrink
    cases hs
    rw [if_neg hne] at hlayout ⊢
    exact ⟨hlayout, fun _ => ⟨List.mem_cons_self, hshrink, fun _ _ => rfl, fun _ => rfl⟩,
      fun hzero => absurd hzero hne, fun q hq hqp =>
        ⟨List.mem_cons_of_mem _ ((List.mem_erase_of_ne hqp).mpr hq), rfl, fun _ _ => rfl⟩⟩
  · rename_i hgrow
    cases hk : Vectra.kmalloc h n with
    | none => simp [hk] at hs
    | some a =>
        obtain ⟨q, h₁⟩ := a
        simp only [hk] at hs
        obtain ⟨_, hsame⟩ := hi.kmalloc_same hfits hk
        rcases hi.kmalloc hfits hk with ⟨hzero, rfl⟩ | ⟨hq, o₁, hi₁, hsize⟩
        · rw [if_pos hzero] at hs
          cases hs
          rw [if_pos rfl] at hlayout ⊢
          exact ⟨hlayout, fun hno => absurd rfl hno, fun _ => ⟨hptr, rfl, fun _ _ => rfl⟩,
            fun q hq _ => ⟨hq, rfl, fun _ _ => rfl⟩⟩
        · rw [if_neg hq] at hs
          cases hs
          rw [if_neg hq] at hlayout ⊢
          obtain ⟨_, hsize', hcopied, hothers⟩ := hi.copy_free hptr hsame hi₁ hsize
            (by omega) rfl rfl
          refine ⟨hlayout, fun _ => ⟨List.mem_cons_self, hsize'.ge, fun i hlt =>
            hcopied i (by omega), fun hmem => ?_⟩, fun hzero => absurd hzero hq, fun z hz hzp =>
              ⟨List.mem_cons_of_mem _ ((List.mem_erase_of_ne hzp).mpr hz),
                hi.intact hz (hothers z hz hzp)⟩⟩
          rcases List.mem_cons.mp hmem with heq | hmem
          · exact heq
          · exact absurd rfl (hi.nodup.mem_erase_iff.mp hmem).1

/-- A block that `krealloc` returns again has not been touched. -/
theorem krealloc_in_place (hi : HeapInv slack reserved h live o) (hptr : ptr ∈ live)
    (hn : 0 < n) (hfits : FitsSize n) (hs : Vectra.krealloc h ptr n = some (ptr, h')) :
    n ≤ h.blockSize ptr ∧ h' = h := by
  have hne := hi.ne_zero hptr
  unfold Vectra.krealloc at hs
  rw [if_neg hne, if_neg (by omega)] at hs
  split at hs
  · rename_i hshrink
    cases hs
    exact ⟨hshrink, rfl⟩
  · cases hk : Vectra.kmalloc h n with
    | none => simp [hk] at hs
    | some a =>
        obtain ⟨q, h₁⟩ := a
        simp only [hk] at hs
        rcases hi.kmalloc hfits hk with ⟨hzero, _⟩ | ⟨hq, o₁, hi₁, _⟩
        · rw [if_pos hzero] at hs
          cases hs
          exact absurd rfl hne
        · rw [if_neg hq] at hs
          cases hs
          exact absurd hptr (List.nodup_cons.mp hi₁.nodup).1

theorem krealloc_fixed (hi : HeapInv slack reserved h live o) (hptr : ptr = 0 ∨ ptr ∈ live)
    (hfits : FitsSize n) (hs : Vectra.krealloc h ptr n = some (r, h')) : HeapFixed h h' := by
  unfold Vectra.krealloc at hs
  split at hs
  · exact (hi.kmalloc_same hfits hs).1
  · rename_i hne
    have hlive : ptr ∈ live := hptr.resolve_left hne
    split at hs
    · cases hs
      exact (hi.kfree_same hlive).1
    · split at hs
      · cases hs
        exact HeapFixed.refl _
      · rename_i hgrow
        cases hk : Vectra.kmalloc h n with
        | none => simp [hk] at hs
        | some a =>
            obtain ⟨q, h₁⟩ := a
            obtain ⟨hfixed, hsame⟩ := hi.kmalloc_same hfits hk
            simp only [hk] at hs
            rcases hi.kmalloc hfits hk with ⟨hzero, _⟩ | ⟨hq, o₁, hi₁, hsize⟩
            · rw [if_pos hzero] at hs
              cases hs
              exact hfixed
            · rw [if_neg hq] at hs
              cases hs
              have hout := (hi.copy_same hlive hsame hi₁ hsize (by omega) rfl).1
              have hi₂ := hi₁.write List.mem_cons_self hout
              exact (hfixed.trans (HeapFixed.setMem h₁ _)).trans
                (hi₂.kfree_same (List.mem_cons_of_mem r hlive)).1

/-- `kmalloc` ends in a panic only for want of memory. -/
theorem kmalloc_panics (hi : HeapInv slack reserved h live o) (hn : 0 < n)
    (hs : Vectra.kmalloc h n = none) : NoMemory h n := by
  unfold NoMemory
  cases hbucket : getBucketIndex n with
  | some b =>
      simp only
      by_contra hroom
      have hroom' : (h.cache b).freeObjects ≠ 0 ∨
          ∃ i < h.pmm.totalFrames, h.pmm.used i = false := by
        by_contra hno
        simp only [not_or, not_not, not_exists, not_and, Bool.not_eq_false] at hno
        exact hroom hno
      obtain ⟨_, _, hsome, _⟩ := hi.kmalloc_returns (by omega) hbucket hroom'
      rw [hs] at hsome
      cases hsome
  | none =>
      simp only
      unfold Vectra.kmalloc at hs
      rw [if_neg (by omega), if_neg (by simp [hi.ready])] at hs
      simp only [hbucket] at hs
      rcases hi.caches.pmm.allocFrame_cases with
        ⟨_, _, hall⟩ | ⟨_, hall⟩ | ⟨i, hlt, hclear, halloc⟩
      · exact .inl hall
      · exact .inl hall
      · refine .inr ⟨_, _, halloc, ?_⟩
        have hbound := frameAddr_room hi.caches.pmm hlt
        have hbase := hi.caches.base_pos
        simp only [halloc, if_neg (by omega : h.pmm.frameAddr i ≠ 0)] at hs
        cases hrun : allocRun (takeFrame h.pmm i) (h.pmm.frameAddr i) (numPages n - 1) with
        | none => rfl
        | some q => simp [hrun] at hs

theorem krealloc_panics (hi : HeapInv slack reserved h live o) (hptr : ptr ∈ live) (hn : 0 < n)
    (hs : Vectra.krealloc h ptr n = none) : h.blockSize ptr < n ∧ NoMemory h n := by
  unfold Vectra.krealloc at hs
  rw [if_neg (hi.ne_zero hptr), if_neg (by omega)] at hs
  split at hs
  · cases hs
  · refine ⟨by omega, hi.kmalloc_panics hn ?_⟩
    cases hk : Vectra.kmalloc h n with
    | none => rfl
    | some a =>
        simp only [hk] at hs
        split at hs <;> cases hs

end HeapInv

theorem HeapInv.kcalloc_same {slack : ℕ} {reserved : ℕ → Prop} {h h' : Heap} {live : List ℕ}
    {o : Ownership} {num size r : ℕ} (hi : HeapInv slack reserved h live o)
    (hfits : num * size < 2 ^ 64 → FitsSize (num * size))
    (hs : Vectra.kcalloc h num size = some (r, h')) :
    HeapFixed h h' ∧ ∀ q ∈ live, SameBlock h h' q := by
  rcases kcalloc_cases hs with ⟨_, rfl⟩ | ⟨hlt, h₁, hk, hzero⟩
  · exact ⟨HeapFixed.refl _, fun _ _ _ _ => rfl⟩
  · obtain ⟨hfixed, hsame⟩ := hi.kmalloc_same (hfits hlt) hk
    rcases hi.kmalloc (hfits hlt) hk with ⟨hr, _⟩ | ⟨hr, o₁, hi₁, hbs⟩
    · rw [if_pos hr] at hzero
      subst hzero
      exact ⟨hfixed, hsame⟩
    · rw [if_neg hr] at hzero
      subst hzero
      refine ⟨hfixed.trans (HeapFixed.setMem h₁ _), fun q hq => ?_⟩
      refine hi.sameBlock_trans hq (hsame q hq) (hi₁.write_same List.mem_cons_self
        (fun y hy => zeroBytes_out (by omega)) (List.mem_cons_of_mem r hq) ?_)
      rintro rfl
      exact (List.nodup_cons.mp hi₁.nodup).1 hq

/-- A block from `kcalloc` has the exact product as its size. -/
theorem HeapInv.kcalloc_size {slack : ℕ} {reserved : ℕ → Prop} {h h' : Heap} {live : List ℕ}
    {o : Ownership} {num size r : ℕ} (hi : HeapInv slack reserved h live o)
    (hfits : num * size < 2 ^ 64 → FitsSize (num * size))
    (hs : Vectra.kcalloc h num size = some (r, h')) (hne : r ≠ 0) :
    ∃ o', HeapInv slack reserved h' (r :: live) o' ∧ h'.blockSize r = num * size := by
  rcases kcalloc_cases hs with ⟨hr, _⟩ | ⟨hlt, h₁, hk, hzero⟩
  · exact absurd hr hne
  · rw [if_neg hne] at hzero
    rcases hi.kmalloc (hfits hlt) hk with ⟨hr, _⟩ | ⟨_, o', hi', hblock⟩
    · exact absurd hr hne
    · have hout : ∀ y, y < r ∨ r + h₁.blockSize r ≤ y →
          zeroBytes h₁.mem r (num * size) y = h₁.mem y := fun y hy => zeroBytes_out (by omega)
      have hinv := hi'.write List.mem_cons_self hout
      have hkept : Heap.blockSize { h₁ with mem := zeroBytes h₁.mem r (num * size) } r =
          h₁.blockSize r :=
        hi'.inBlock_congr List.mem_cons_self fun y _ hhi => hout y (.inl hhi)
      rw [hzero]
      exact ⟨o', hinv, hkept.trans hblock⟩

namespace KheapStep

variable {slack : ℕ} {reserved : ℕ → Prop} {s t : Heap × List ℕ} {e : KheapOp × ℕ}
  {o : Ownership} {q : ℕ}

theorem fixed (hi : HeapInv slack reserved s.1 s.2 o) (hstep : KheapStep s e t) :
    HeapFixed s.1 t.1 := by
  obtain ⟨h, live⟩ := s
  obtain ⟨h', live'⟩ := t
  obtain ⟨op, r⟩ := e
  obtain ⟨hallowed, hs, -⟩ := hstep
  cases op with
  | kmalloc size => exact (hi.kmalloc_same hallowed hs).1
  | kcalloc num size => exact (hi.kcalloc_same hallowed hs).1
  | krealloc ptr newSize => exact hi.krealloc_fixed hallowed.1 hallowed.2 hs
  | kfree ptr =>
      cases hs
      rcases hallowed with rfl | hmem
      · exact HeapFixed.refl _
      · exact (hi.kfree_same hmem).1
  | store ptr off byte =>
      cases hs
      exact ⟨SameRange.refl _, rfl⟩

/-- A block that stays live keeps its recorded size. -/
theorem blockSize_kept (hi : HeapInv slack reserved s.1 s.2 o) (hstep : KheapStep s e t)
    (hq : q ∈ s.2) (hq' : q ∈ t.2) : t.1.blockSize q = s.1.blockSize q := by
  obtain ⟨h, live⟩ := s
  obtain ⟨h', live'⟩ := t
  obtain ⟨op, r⟩ := e
  obtain ⟨hallowed, hs, hlive⟩ := hstep
  simp only at hallowed hs hlive hq hq' hi ⊢
  subst hlive
  cases op with
  | kmalloc size => exact hi.sameBlock_size hq ((hi.kmalloc_same hallowed hs).2 q hq)
  | kcalloc num size => exact hi.sameBlock_size hq ((hi.kcalloc_same hallowed hs).2 q hq)
  | krealloc ptr newSize =>
      obtain ⟨hptr, hfits⟩ := hallowed
      by_cases hzero : ptr = 0
      · have hk : Vectra.kmalloc h newSize = some (r, h') := by
          rw [← hs, kheapStep, krealloc, if_pos hzero]
        exact hi.sameBlock_size hq ((hi.kmalloc_same hfits hk).2 q hq)
      · have hmem : ptr ∈ live := hptr.resolve_left hzero
        by_cases hn : newSize = 0
        · simp only [KheapOp.liveAfter, if_pos (And.intro hzero hn)] at hq'
          rw [kheapStep, krealloc, if_neg hzero, if_pos hn] at hs
          cases hs
          exact hi.sameBlock_size hq ((hi.kfree_same hmem).2 q hq
            (hi.nodup.mem_erase_iff.mp hq').1)
        · have hres := hi.krealloc_contents hmem (by omega) hfits hs
          by_cases hqp : q = ptr
          · subst hqp
            by_cases hr : r = 0
            · exact (hres.failed hr).2.1
            · -- the block stays live only when it is returned, and then nothing was written
              have hqr := (hres.moved hr).2.2.2 hq'
              subst hqr
              rw [(hi.krealloc_in_place hq (by omega) hfits hs).2]
          · exact (hres.others q hq hqp).2.1
  | kfree ptr =>
      cases hs
      rcases hallowed with rfl | hmem
      · rfl
      · exact hi.sameBlock_size hq ((hi.kfree_same hmem).2 q hq (hi.nodup.mem_erase_iff.mp hq').1)
  | store ptr off byte =>
      cases hs
      obtain ⟨hmem, hoff⟩ := hallowed
      refine hi.inBlock_congr hq fun y hlo hhi => ?_
      by_cases hqp : q = ptr
      · subst hqp
        exact Function.update_of_ne (by omega) _ _
      · refine Function.update_of_ne ?_ _ _
        rintro rfl
        exact hi.layout.blocks_disjoint q hq ptr hmem hqp (ptr + off) ⟨hlo, by omega⟩
          ⟨by omega, by omega⟩

end KheapStep

/-- The heap works on the managed range of `pmm_init`. -/
theorem kheap_run_range {b b' : BootHeap} {bootMem mem : Bytes} {base size : ℕ} {s p : Pmm}
    {cacheAt : ℕ → SlabCache} {pmmOps : List (PmmOp × ℕ)} {h : Heap}
    {ops : List (KheapOp × ℕ)} {t : Heap × List ℕ} (hbase : 0 < base)
    (halign : base % pageSize = 0) (hwrap : base + size < 2 ^ 64)
    (hinit : pmmInit Pmm.boot b bootMem base size = some (s, b'))
    (hpmm : Run PmmStep s pmmOps p) (hheap : kheapInit (Heap.boot mem cacheAt p) = some h)
    (hrun : Run KheapStep (h, []) ops t) :
    t.1.pmm.memPhysBase = base ∧ t.1.pmm.totalFrames = size / pageSize := by
  obtain ⟨slack, o, hmem, htotal, hboot, hi⟩ :=
    kheapInit_run_inv hbase halign hwrap hinit hpmm hheap
  obtain ⟨_, hlast⟩ := hrun.invariant
    (I := fun u => (∃ o, HeapInv slack (fun j => p.used j = true) u.1 u.2 o) ∧
      SameRange h.pmm u.1.pmm)
    (fun _ _ _ ⟨⟨_, hu⟩, hsame⟩ hstep =>
      ⟨hstep.inv ⟨_, hu⟩, hsame.trans (hstep.fixed hu).range⟩) ⟨⟨o, hi⟩, SameRange.refl _⟩
  obtain ⟨hlo, hhi⟩ := hboot.trans hlast
  exact ⟨hlo.trans hmem, hhi.trans htotal⟩

/-- In every state that a run of the heap reaches, `krealloc` keeps its promise or panics for
want of memory. -/
theorem krealloc_run {b b' : BootHeap} {bootMem mem : Bytes} {base size : ℕ} {s p : Pmm}
    {cacheAt : ℕ → SlabCache} {pmmOps : List (PmmOp × ℕ)} {h : Heap}
    {ops : List (KheapOp × ℕ)} {t : Heap × List ℕ} {ptr n : ℕ} (hbase : 0 < base)
    (halign : base % pageSize = 0) (hwrap : base + size < 2 ^ 64)
    (hinit : pmmInit Pmm.boot b bootMem base size = some (s, b'))
    (hpmm : Run PmmStep s pmmOps p) (hheap : kheapInit (Heap.boot mem cacheAt p) = some h)
    (hrun : Run KheapStep (h, []) ops t) (hptr : ptr ∈ t.2) (hn : 0 < n) (hfits : FitsSize n) :
    (krealloc t.1 ptr n = none ∧ t.1.blockSize ptr < n ∧ NoMemory t.1 n) ∨
      ∃ r h', krealloc t.1 ptr n = some (r, h') ∧
        Reallocated (fun j => p.used j = true) t.1 h' t.2
          ((KheapOp.krealloc ptr n).liveAfter t.2 r) ptr n r := by
  obtain ⟨_, _, hi⟩ := kheap_run_inv hbase halign hwrap hinit hpmm hheap hrun
  cases hs : krealloc t.1 ptr n with
  | none => exact .inl ⟨rfl, hi.krealloc_panics hptr hn hs⟩
  | some a =>
      obtain ⟨r, h'⟩ := a
      exact .inr ⟨r, h', rfl, hi.krealloc_contents hptr hn hfits hs⟩

theorem krealloc_run_moves :
    ∃ h t r h', kheapInit smallHeap = some h ∧
      Run KheapStep (h, []) [(.kmalloc 100, 0x41f50)] t ∧ 0x41f50 ∈ t.2 ∧ 0 < 5000 ∧
      FitsSize 5000 ∧ krealloc t.1 0x41f50 5000 = some (r, h') ∧
      Reallocated (fun j => (pmmFreeRegion smallPmm 0x40000 0x10000).used j = true) t.1 h' t.2
        ((KheapOp.krealloc 0x41f50 5000).liveAfter t.2 r) 0x41f50 5000 r := by
  have heval : (kheapInit smallHeap >>= fun h => kmalloc h 100 >>= fun a =>
      krealloc a.2 0x41f50 5000 >>= fun c => some (a.1, c.1)) = some (0x41f50, 0x42010) := by
    decide +kernel
  obtain ⟨h, hheap, hrest⟩ := Option.bind_eq_some_iff.mp heval
  obtain ⟨⟨ra, ha⟩, hk, hrest⟩ := Option.bind_eq_some_iff.mp hrest
  obtain ⟨⟨rc, hc⟩, hre, hresult⟩ := Option.bind_eq_some_iff.mp hrest
  cases hresult
  have hrun : Run KheapStep (h, []) [(.kmalloc 100, 0x41f50)] (ha, [0x41f50]) :=
    .cons (u := (ha, [0x41f50])) ⟨(by decide : FitsSize 100), hk, rfl⟩ (.nil _)
  rcases krealloc_run (by decide) (by decide) (by decide) smallPmm_init smallHeap_frames hheap
    hrun List.mem_cons_self (by decide) (by decide : FitsSize 5000)
      with ⟨hnone, _⟩ | ⟨r, h', hs, hm⟩
  · rw [hre] at hnone
    cases hnone
  · exact ⟨h, _, r, h', hheap, hrun, List.mem_cons_self, by decide, by decide, hs, hm⟩

/-- With one frame left, `kmalloc` panics when it does not get a second one behind it. -/
theorem krealloc_one_frame_left :
    ∃ h t, pmmInit Pmm.boot ⟨0x10000, 0x20000⟩ (fun _ => 0#8) 0x40000 0x40000 =
        some (smallPmm, ⟨0x10010, 0x20000⟩) ∧
      Run PmmStep smallPmm [(.freeRegion 0x40000 0x3000, 0)]
        (pmmFreeRegion smallPmm 0x40000 0x3000) ∧
      kheapInit (Heap.boot (fun _ => 0#8) (fun _ => ⟨0, 0, 0⟩)
        (pmmFreeRegion smallPmm 0x40000 0x3000)) = some h ∧
      Run KheapStep (h, []) [(.kmalloc 100, 0x41f50)] t ∧ 0x41f50 ∈ t.2 ∧ FitsSize 5000 ∧
      krealloc t.1 0x41f50 5000 = none := by
  have heval : (kheapInit (Heap.boot (fun _ => 0#8) (fun _ => ⟨0, 0, 0⟩)
      (pmmFreeRegion smallPmm 0x40000 0x3000)) >>= fun h => kmalloc h 100 >>= fun a =>
        some (a.1, (krealloc a.2 0x41f50 5000).isNone)) = some (0x41f50, true) := by
    decide +kernel
  obtain ⟨h, hheap, hrest⟩ := Option.bind_eq_some_iff.mp heval
  obtain ⟨⟨ra, ha⟩, hk, hresult⟩ := Option.bind_eq_some_iff.mp hrest
  simp only [Option.some.injEq, Prod.mk.injEq, Option.isNone_iff_eq_none] at hresult
  obtain ⟨rfl, hnone⟩ := hresult
  exact ⟨h, (ha, [0x41f50]), rfl, .cons ⟨⟨by decide, by decide⟩, rfl⟩ (.nil _), hheap,
    .cons (u := (ha, [0x41f50])) ⟨(by decide : FitsSize 100), hk, rfl⟩ (.nil _),
    List.mem_cons_self, by decide, hnone⟩

end Vectra


import Vectra.Lib.Refine
import Vectra.Mm.KheapContents

/-!
# The kernel heap as a store of byte blocks

Seen by its callers, the heap is a partial map from pointers to lists of bytes. The slabs, the
frames and the headers do not show: a byte that is read is the last one stored there, the zero of
`kcalloc`, or what `krealloc` moved.
-/

namespace Vectra

open Lib SlabMem

/-- What the callers see: the calls with their results, and the bytes that they read. -/
inductive HeapEvent
  | call (op : KheapOp) (r : ℕ)
  | load (ptr off : ℕ) (byte : BitVec 8)

def HeapStep (s : Heap × List ℕ) : HeapEvent → Heap × List ℕ → Prop
  | .call op r, t => KheapStep s (op, r) t
  | .load ptr off byte, t =>
      (ptr ∈ s.2 ∧ off < s.1.blockSize ptr) ∧ byte = s.1.mem (ptr + off) ∧ t = s

/-! ## The store -/

abbrev Blocks := ℕ → Option (List (BitVec 8))

/-- The largest size that has a bucket. -/
def maxBucketSize : ℕ := 2048

/-- A block is never empty, and its pointer is neither null nor in use. -/
def Blocks.Fresh (m : Blocks) (r : ℕ) (bs : List (BitVec 8)) : Prop :=
  r ≠ 0 ∧ m r = none ∧ bs ≠ []

/-- The steps of the store. The bytes of a new block are arbitrary. Null is returned only for an
empty block, for a product that overflows, and for a size that has no bucket. -/
inductive BlockStep (m : Blocks) : HeapEvent → Blocks → Prop
  | kmalloc {r : ℕ} {bs : List (BitVec 8)} (hr : m.Fresh r bs) :
      BlockStep m (.call (.kmalloc bs.length) r) (Function.update m r (some bs))
  | kmallocNull {size : ℕ} (h : size = 0 ∨ maxBucketSize < size) :
      BlockStep m (.call (.kmalloc size) 0) m
  | kcalloc {num size r : ℕ} (hr : m.Fresh r (List.replicate (num * size) 0#8)) :
      BlockStep m (.call (.kcalloc num size) r)
        (Function.update m r (some (List.replicate (num * size) 0#8)))
  | kcallocNull {num size : ℕ} (h : num * size = 0 ∨ maxBucketSize < num * size) :
      BlockStep m (.call (.kcalloc num size) 0) m
  | kreallocNew {r : ℕ} {bs : List (BitVec 8)} (hr : m.Fresh r bs) :
      BlockStep m (.call (.krealloc 0 bs.length) r) (Function.update m r (some bs))
  | kreallocNewNull {size : ℕ} (h : size = 0 ∨ maxBucketSize < size) :
      BlockStep m (.call (.krealloc 0 size) 0) m
  | kreallocFree {ptr : ℕ} {bs : List (BitVec 8)} (hptr : m ptr = some bs) :
      BlockStep m (.call (.krealloc ptr 0) 0) (Function.update m ptr none)
  | kreallocKeep {ptr size : ℕ} {bs : List (BitVec 8)} (hptr : m ptr = some bs) (hpos : 0 < size)
      (hsize : size ≤ bs.length) : BlockStep m (.call (.krealloc ptr size) ptr) m
  | kreallocMove {ptr r : ℕ} {bs rest : List (BitVec 8)} (hptr : m ptr = some bs)
      (hrest : rest ≠ []) (hr : m.Fresh r (bs ++ rest)) :
      BlockStep m (.call (.krealloc ptr (bs ++ rest).length) r)
        (Function.update (Function.update m ptr none) r (some (bs ++ rest)))
  | kreallocNull {ptr size : ℕ} {bs : List (BitVec 8)} (hptr : m ptr = some bs)
      (hsize : bs.length < size) (h : maxBucketSize < size) :
      BlockStep m (.call (.krealloc ptr size) 0) m
  | kfree {ptr : ℕ} {bs : List (BitVec 8)} (hptr : m ptr = some bs) :
      BlockStep m (.call (.kfree ptr) 0) (Function.update m ptr none)
  | kfreeNull : BlockStep m (.call (.kfree 0) 0) m
  | store {ptr off : ℕ} {byte : BitVec 8} {bs : List (BitVec 8)} (hptr : m ptr = some bs)
      (hoff : off < bs.length) :
      BlockStep m (.call (.store ptr off byte) 0) (Function.update m ptr (some (bs.set off byte)))
  | load {ptr off : ℕ} {byte : BitVec 8} {bs : List (BitVec 8)} (hptr : m ptr = some bs)
      (hbyte : bs[off]? = some byte) : BlockStep m (.load ptr off byte) m

/-! ## The blocks of a heap -/

/-- The usable bytes of a block. -/
def Heap.bytes (h : Heap) (q : ℕ) : List (BitVec 8) :=
  (List.range (h.blockSize q)).map fun i => h.mem (q + i)

def Heap.blocks (h : Heap) (live : List ℕ) : Blocks := fun q =>
  if q ∈ live then some (h.bytes q) else none

@[simp] theorem Heap.bytes_length (h : Heap) (q : ℕ) : (h.bytes q).length = h.blockSize q := by
  simp [Heap.bytes]

theorem Heap.bytes_getElem? {h : Heap} {q i : ℕ} (hi : i < h.blockSize q) :
    (h.bytes q)[i]? = some (h.mem (q + i)) := by
  simp [Heap.bytes, hi]

/-- The bytes of a block, from its size and each byte. -/
theorem Heap.bytes_eq {h : Heap} {q : ℕ} {bs : List (BitVec 8)} (hlen : h.blockSize q = bs.length)
    (hbytes : ∀ i < bs.length, bs[i]? = some (h.mem (q + i))) : h.bytes q = bs := by
  refine List.ext_getElem? fun i => ?_
  by_cases hi : i < bs.length
  · rw [Heap.bytes_getElem? (hlen ▸ hi), hbytes i hi]
  · rw [List.getElem?_eq_none (by simpa [hlen] using hi), List.getElem?_eq_none (by omega)]

theorem Intact.bytes {h h' : Heap} {q : ℕ} (hsame : Intact h h' q) : h'.bytes q = h.bytes q :=
  Heap.bytes_eq (by rw [hsame.1, Heap.bytes_length]) fun i hi => by
    rw [Heap.bytes_length] at hi
    rw [Heap.bytes_getElem? hi, hsame.2 i hi]

section Blocks

variable {h h' : Heap} {live live' : List ℕ} {ptr q r : ℕ}

theorem Heap.blocks_live (h : Heap) (hq : q ∈ live) : h.blocks live q = some (h.bytes q) :=
  if_pos hq

theorem Heap.blocks_not_live (h : Heap) (hq : q ∉ live) : h.blocks live q = none := if_neg hq

theorem Heap.blocks_congr (hlive : ∀ q, q ∈ live' ↔ q ∈ live)
    (hsame : ∀ q ∈ live, Intact h h' q) : h'.blocks live' = h.blocks live := by
  funext q
  by_cases hq : q ∈ live
  · rw [h'.blocks_live ((hlive q).mpr hq), h.blocks_live hq, (hsame q hq).bytes]
  · rw [h'.blocks_not_live fun hq' => hq ((hlive q).mp hq'), h.blocks_not_live hq]

/-- One more block. -/
theorem Heap.blocks_cons (hsame : ∀ q ∈ live, q ≠ r → Intact h h' q) :
    h'.blocks (r :: live) = Function.update (h.blocks live) r (some (h'.bytes r)) := by
  funext q
  by_cases hqr : q = r
  · subst hqr
    rw [Function.update_self, h'.blocks_live List.mem_cons_self]
  · rw [Function.update_of_ne hqr]
    by_cases hq : q ∈ live
    · rw [h'.blocks_live (List.mem_cons_of_mem r hq), h.blocks_live hq, (hsame q hq hqr).bytes]
    · rw [h'.blocks_not_live (by simp [hqr, hq]), h.blocks_not_live hq]

/-- One block less. -/
theorem Heap.blocks_erase (hnodup : live.Nodup) (hsame : ∀ q ∈ live, q ≠ ptr → Intact h h' q) :
    h'.blocks (live.erase ptr) = Function.update (h.blocks live) ptr none := by
  funext q
  by_cases hqp : q = ptr
  · subst hqp
    rw [Function.update_self, h'.blocks_not_live hnodup.not_mem_erase]
  · rw [Function.update_of_ne hqp]
    by_cases hq : q ∈ live
    · rw [h'.blocks_live ((List.mem_erase_of_ne hqp).mpr hq), h.blocks_live hq,
        (hsame q hq hqp).bytes]
    · rw [h'.blocks_not_live fun hq' => hq (List.mem_of_mem_erase hq'), h.blocks_not_live hq]

end Blocks

/-! ## The calls -/

theorem kmalloc_pos {h h' : Heap} {size r : ℕ} (hs : kmalloc h size = some (r, h')) (hr : r ≠ 0) :
    0 < size := by
  by_contra hzero
  rw [kmalloc, if_pos (by omega)] at hs
  cases hs
  exact hr rfl

theorem zeroBytes_in {m : Bytes} {q n i : ℕ} (hi : i < n) : zeroBytes m q n (q + i) = 0#8 := by
  induction n with
  | zero => omega
  | succ n ih =>
      rw [zeroBytes]
      by_cases hin : i = n
      · rw [hin, Function.update_self]
      · rw [Function.update_of_ne (by omega), ih (by omega)]

/-- A product that does not overflow is passed on to `kmalloc`. -/
theorem kcalloc_kmalloc {h h' : Heap} {num size r : ℕ} (hlt : num * size < 2 ^ 64)
    (hs : kcalloc h num size = some (r, h')) : ∃ h₁, kmalloc h (num * size) = some (r, h₁) ∧
      h' = if r = 0 then h₁ else { h₁ with mem := zeroBytes h₁.mem r (num * size) } := by
  have hcheck : ¬ (num ≠ 0 ∧ num * size % 2 ^ 64 / num ≠ size) := by
    rintro ⟨hnum, hne⟩
    rw [Nat.mod_eq_of_lt hlt, Nat.mul_div_cancel_left _ (Nat.pos_of_ne_zero hnum)] at hne
    exact hne rfl
  unfold kcalloc at hs
  rw [if_neg hcheck, Nat.mod_eq_of_lt hlt] at hs
  cases hk : kmalloc h (num * size) with
  | none => simp [hk] at hs
  | some a =>
      obtain ⟨q, h₁⟩ := a
      simp only [hk] at hs
      by_cases hq : q = 0
      · rw [if_pos hq] at hs
        cases hs
        exact ⟨h', by rw [hq], by rw [if_pos rfl]⟩
      · rw [if_neg hq] at hs
        cases hs
        exact ⟨h₁, rfl, by rw [if_neg hq]⟩

theorem getBucketIndex_none {size : ℕ} (h : getBucketIndex size = none) : maxBucketSize < size := by
  unfold getBucketIndex at h
  unfold maxBucketSize
  split_ifs at h
  omega

namespace HeapInv

variable {slack : ℕ} {reserved : ℕ → Prop} {h h' : Heap} {live : List ℕ} {o : Ownership}
  {ptr r n num size : ℕ}

/-- A size that has a bucket gets a block, or the machine stops. -/
theorem kmalloc_null (hi : HeapInv slack reserved h live o)
    (hs : Vectra.kmalloc h size = some (0, h')) : size = 0 ∨ maxBucketSize < size := by
  by_contra hno
  obtain ⟨hzero, hbig⟩ := not_or.mp hno
  unfold Vectra.kmalloc at hs
  rw [if_neg hzero, if_neg (by simp [hi.ready])] at hs
  cases hbucket : getBucketIndex size with
  | none => exact hbig (getBucketIndex_none hbucket)
  | some b =>
      simp only [hbucket] at hs
      cases halloc : slabAllocAt h (h.kmallocCaches b) with
      | none => simp [halloc] at hs
      | some a =>
          obtain ⟨x, h₁⟩ := a
          obtain ⟨hne, hx, _⟩ := hi.kmalloc_small hbucket halloc
          simp only [halloc, hne, if_false, Option.some.injEq, Prod.mk.injEq,
            Nat.mod_eq_of_lt hx] at hs
          unfold allocHeaderSize at hs
          omega

/-- What `kmalloc` does to the store: one fresh block, or nothing. -/
theorem kmalloc_blocks (hi : HeapInv slack reserved h live o) (hfits : FitsSize size)
    (hs : Vectra.kmalloc h size = some (r, h')) :
    (r = 0 ∧ h' = h ∧ (size = 0 ∨ maxBucketSize < size)) ∨
      (r ∉ live ∧ (h.blocks live).Fresh r (h'.bytes r) ∧ h'.blockSize r = size ∧
        h'.blocks (r :: live) = Function.update (h.blocks live) r (some (h'.bytes r))) := by
  obtain ⟨_, hsame⟩ := hi.kmalloc_same hfits hs
  rcases hi.kmalloc hfits hs with ⟨rfl, rfl⟩ | ⟨hr, o', hi', hsize⟩
  · exact .inl ⟨rfl, rfl, hi.kmalloc_null hs⟩
  · have hnot := (List.nodup_cons.mp hi'.nodup).1
    have hpos := kmalloc_pos hs hr
    refine .inr ⟨hnot, ⟨hr, h.blocks_not_live hnot, ?_⟩, hsize,
      Heap.blocks_cons fun q hq _ => hi.intact hq (hsame q hq)⟩
    exact List.ne_nil_of_length_pos (by rw [Heap.bytes_length]; omega)

/-- A block from `kcalloc` is all zero. -/
theorem kcalloc_bytes (hi : HeapInv slack reserved h live o)
    (hfits : num * size < 2 ^ 64 → FitsSize (num * size))
    (hs : Vectra.kcalloc h num size = some (r, h')) (hr : r ≠ 0) :
    h'.bytes r = List.replicate (num * size) 0#8 := by
  obtain ⟨_, _, hsize⟩ := hi.kcalloc_size hfits hs hr
  refine Heap.bytes_eq (by rw [hsize, List.length_replicate]) fun i hlt => ?_
  rw [List.length_replicate] at hlt
  rw [List.getElem?_replicate_of_lt hlt]
  rcases kcalloc_cases hs with ⟨hzero, _⟩ | ⟨_, h₁, _, hmem⟩
  · exact absurd hzero hr
  · rw [if_neg hr] at hmem
    subst hmem
    exact congrArg some (zeroBytes_in hlt).symm

theorem kcalloc_blocks (hi : HeapInv slack reserved h live o)
    (hfits : num * size < 2 ^ 64 → FitsSize (num * size))
    (hs : Vectra.kcalloc h num size = some (r, h')) :
    (r = 0 ∧ h' = h ∧ (num * size = 0 ∨ maxBucketSize < num * size)) ∨
      ((h.blocks live).Fresh r (List.replicate (num * size) 0#8) ∧
        h'.blocks (r :: live) =
          Function.update (h.blocks live) r (some (List.replicate (num * size) 0#8))) := by
  obtain ⟨_, hsame⟩ := hi.kcalloc_same hfits hs
  rcases hi.kcalloc hfits hs with ⟨rfl, rfl⟩ | ⟨hr, o', hi'⟩
  · refine .inl ⟨rfl, rfl, ?_⟩
    by_cases hlt : num * size < 2 ^ 64
    · obtain ⟨h₁, hk, _⟩ := kcalloc_kmalloc hlt hs
      exact hi.kmalloc_null hk
    · unfold maxBucketSize
      omega
  · have hnot := (List.nodup_cons.mp hi'.nodup).1
    have hpos : 0 < num * size := by
      rcases kcalloc_cases hs with ⟨hzero, _⟩ | ⟨_, h₁, hk, _⟩
      · exact absurd hzero hr
      · exact kmalloc_pos hk hr
    have hlen : 0 < (List.replicate (num * size) 0#8).length := by
      rw [List.length_replicate]
      exact hpos
    refine .inr ⟨⟨hr, h.blocks_not_live hnot, List.ne_nil_of_length_pos hlen⟩, ?_⟩
    rw [← hi.kcalloc_bytes hfits hs hr]
    exact Heap.blocks_cons fun q hq _ => hi.intact hq (hsame q hq)

/-- What `krealloc` does to a live block: it stays, or it moves into a larger one. -/
theorem krealloc_blocks (hi : HeapInv slack reserved h live o) (hptr : ptr ∈ live) (hn : 0 < n)
    (hfits : FitsSize n) (hs : Vectra.krealloc h ptr n = some (r, h')) :
    (n ≤ h.blockSize ptr ∧ r = ptr ∧ h' = h) ∨
      (h.blockSize ptr < n ∧ r = 0 ∧ h' = h ∧ maxBucketSize < n) ∨
      (h.blockSize ptr < n ∧ r ∉ live ∧ r ≠ 0 ∧ h'.blockSize r = n ∧
        (∃ rest, h'.bytes r = h.bytes ptr ++ rest) ∧
        ∀ q ∈ live, q ≠ ptr → Intact h h' q) := by
  unfold Vectra.krealloc at hs
  rw [if_neg (hi.ne_zero hptr), if_neg (by omega)] at hs
  split at hs
  · rename_i hshrink
    cases hs
    exact .inl ⟨hshrink, rfl, rfl⟩
  · rename_i hgrow
    cases hk : Vectra.kmalloc h n with
    | none => simp [hk] at hs
    | some a =>
        obtain ⟨q, h₁⟩ := a
        simp only [hk] at hs
        obtain ⟨_, hsame⟩ := hi.kmalloc_same hfits hk
        rcases hi.kmalloc hfits hk with ⟨rfl, rfl⟩ | ⟨hq, o₁, hi₁, hsize⟩
        · rw [if_pos rfl] at hs
          cases hs
          have hbig := (hi.kmalloc_null hk).resolve_left (by omega)
          exact .inr (.inl ⟨by omega, rfl, rfl, hbig⟩)
        · rw [if_neg hq] at hs
          cases hs
          obtain ⟨_, hsize', hcopied, hothers⟩ := hi.copy_free hptr hsame hi₁ hsize
            (by omega) rfl rfl
          have htake : h.bytes ptr = (Heap.bytes _ r).take (h.blockSize ptr) :=
            Heap.bytes_eq (by rw [List.length_take, Heap.bytes_length, hsize']; omega)
              fun i hlt => by
                rw [List.length_take, Heap.bytes_length, hsize'] at hlt
                rw [List.getElem?_take_of_lt (by omega), Heap.bytes_getElem? (by omega),
                  hcopied i (by omega)]
          refine .inr (.inr ⟨by omega, (List.nodup_cons.mp hi₁.nodup).1, hq, hsize', ?_,
            fun z hz hzp => hi.intact hz (hothers z hz hzp)⟩)
          rw [htake]
          exact ⟨_, (List.take_append_drop _ _).symm⟩

/-- A byte stored in a live block shows in that block only. -/
theorem store_blocks (hi : HeapInv slack reserved h live o) (hptr : ptr ∈ live) {off : ℕ}
    (hoff : off < h.blockSize ptr) (byte : BitVec 8) :
    Heap.blocks { h with mem := Function.update h.mem (ptr + off) byte } live =
      Function.update (h.blocks live) ptr (some ((h.bytes ptr).set off byte)) := by
  have hout : ∀ y, y < ptr ∨ ptr + h.blockSize ptr ≤ y →
      Function.update h.mem (ptr + off) byte y = h.mem y :=
    fun y hy => Function.update_of_ne (by omega) _ _
  have hsize : Heap.blockSize { h with mem := Function.update h.mem (ptr + off) byte } ptr =
      h.blockSize ptr := hi.inBlock_congr hptr fun y _ hhi => hout y (.inl hhi)
  funext q
  by_cases hqp : q = ptr
  · subst hqp
    rw [Function.update_self, Heap.blocks_live _ hptr]
    refine congrArg some (Heap.bytes_eq (by rw [hsize, List.length_set, Heap.bytes_length]) ?_)
    intro i hlt
    rw [List.length_set, Heap.bytes_length] at hlt
    by_cases hio : off = i
    · subst hio
      rw [List.getElem?_set_self (by rwa [Heap.bytes_length])]
      exact congrArg some (Function.update_self (q + off) byte h.mem).symm
    · rw [List.getElem?_set_ne hio, Heap.bytes_getElem? hlt]
      exact congrArg some (Function.update_of_ne (by omega) _ _).symm
  · rw [Function.update_of_ne hqp]
    by_cases hq : q ∈ live
    · rw [Heap.blocks_live _ hq, h.blocks_live hq,
        (hi.intact hq (hi.write_same hptr hout hq hqp)).bytes]
    · rw [Heap.blocks_not_live _ hq, h.blocks_not_live hq]

end HeapInv

namespace KheapStep

variable {slack : ℕ} {reserved : ℕ → Prop} {h h' : Heap} {live live' : List ℕ} {o : Ownership}
  {op : KheapOp} {ptr n r : ℕ}

/-- `krealloc` of a live block is a step of the store. -/
theorem krealloc_block (hi : HeapInv slack reserved h live o) (hptr : ptr ∈ live)
    (hfits : FitsSize n) (hs : krealloc h ptr n = some (r, h')) :
    BlockStep (h.blocks live) (.call (.krealloc ptr n) r)
      (h'.blocks ((KheapOp.krealloc ptr n).liveAfter live r)) := by
  have hne := hi.ne_zero hptr
  have hblock := h.blocks_live hptr
  by_cases hn : n = 0
  · subst hn
    rw [krealloc, if_neg hne, if_pos rfl] at hs
    cases hs
    rw [KheapOp.liveAfter, if_pos ⟨hne, rfl⟩, Heap.blocks_erase hi.nodup fun q hq hqp =>
      hi.intact hq ((hi.kfree_same hptr).2 q hq hqp)]
    exact .kreallocFree hblock
  · rw [KheapOp.liveAfter, if_neg fun hzero => hn hzero.2]
    rcases hi.krealloc_blocks hptr (by omega) hfits hs with
      ⟨hsize, rfl, rfl⟩ | ⟨hsize, rfl, rfl, hbig⟩ | ⟨hsize, hnot, hr, hlen, ⟨rest, hbytes⟩, hsame⟩
    · rw [if_neg hne, Heap.blocks_congr (fun q => (List.perm_cons_erase hptr).mem_iff.symm)
        fun q _ => ⟨rfl, fun _ _ => rfl⟩]
      exact .kreallocKeep hblock (by omega) (by rwa [Heap.bytes_length])
    · rw [if_pos rfl]
      exact .kreallocNull hblock (by rwa [Heap.bytes_length]) hbig
    · have hrest : (h.bytes ptr ++ rest).length = n := by rw [← hbytes, Heap.bytes_length, hlen]
      have hgrown : rest ≠ [] := by
        rintro rfl
        rw [List.append_nil, Heap.bytes_length] at hrest
        omega
      have hfresh : (h.blocks live).Fresh r (h.bytes ptr ++ rest) :=
        ⟨hr, h.blocks_not_live hnot, by simp [hgrown]⟩
      rw [if_neg hr, Heap.blocks_cons fun q _ _ => ⟨rfl, fun _ _ => rfl⟩,
        Heap.blocks_erase hi.nodup hsame, hbytes]
      have hstep := BlockStep.kreallocMove hblock hgrown hfresh
      rwa [hrest] at hstep

/-- Each call of the heap is a step of the store. -/
theorem blockStep (hi : HeapInv slack reserved h live o)
    (hstep : KheapStep (h, live) (op, r) (h', live')) :
    BlockStep (h.blocks live) (.call op r) (h'.blocks live') := by
  obtain ⟨hallowed, hs, hlive⟩ := hstep
  simp only at hallowed hs hlive
  subst hlive
  have hzero : (0 : ℕ) ∉ live := fun hmem => hi.ne_zero hmem rfl
  cases op with
  | kmalloc size =>
      rcases hi.kmalloc_blocks hallowed hs with ⟨rfl, rfl, hnull⟩ | ⟨_, hr, hsize, hblocks⟩
      · exact .kmallocNull hnull
      · rw [KheapOp.liveAfter, if_neg hr.1, hblocks]
        have hstep := BlockStep.kmalloc hr
        rwa [Heap.bytes_length, hsize] at hstep
  | kcalloc num size =>
      rcases hi.kcalloc_blocks hallowed hs with ⟨rfl, rfl, hnull⟩ | ⟨hr, hblocks⟩
      · exact .kcallocNull hnull
      · rw [KheapOp.liveAfter, if_neg hr.1, hblocks]
        exact .kcalloc hr
  | krealloc ptr newSize =>
      obtain ⟨rfl | hptr, hfits⟩ := hallowed
      · rw [kheapStep, krealloc, if_pos rfl] at hs
        rw [KheapOp.liveAfter, if_neg fun hno => hno.1 rfl, List.erase_of_not_mem hzero]
        rcases hi.kmalloc_blocks hfits hs with ⟨rfl, rfl, hnull⟩ | ⟨_, hr, hsize, hblocks⟩
        · exact .kreallocNewNull hnull
        · rw [if_neg hr.1, hblocks]
          have hstep := BlockStep.kreallocNew hr
          rwa [Heap.bytes_length, hsize] at hstep
      · exact krealloc_block hi hptr hfits hs
  | kfree ptr =>
      cases hs
      rcases hallowed with rfl | hptr
      · rw [KheapOp.liveAfter, List.erase_of_not_mem hzero, kfree, if_pos rfl]
        exact .kfreeNull
      · rw [KheapOp.liveAfter, Heap.blocks_erase hi.nodup fun q hq hqp =>
          hi.intact hq ((hi.kfree_same hptr).2 q hq hqp)]
        exact .kfree (h.blocks_live hptr)
  | store ptr off byte =>
      cases hs
      obtain ⟨hptr, hoff⟩ := hallowed
      rw [KheapOp.liveAfter, hi.store_blocks hptr hoff]
      exact .store (h.blocks_live hptr) (by rwa [Heap.bytes_length])

end KheapStep

/-- Each event of the heap is a step of the store. -/
theorem HeapStep.blockStep {slack : ℕ} {reserved : ℕ → Prop} {s t : Heap × List ℕ} {e : HeapEvent}
    (hi : ∃ o, HeapInv slack reserved s.1 s.2 o) (hstep : HeapStep s e t) :
    (∃ o, HeapInv slack reserved t.1 t.2 o) ∧
      BlockStep (s.1.blocks s.2) e (t.1.blocks t.2) := by
  cases e with
  | call op r => exact ⟨KheapStep.inv hi hstep, KheapStep.blockStep hi.choose_spec hstep⟩
  | load ptr off byte =>
      obtain ⟨⟨hptr, hoff⟩, rfl, rfl⟩ := hstep
      exact ⟨hi, .load (Heap.blocks_live _ hptr) (Heap.bytes_getElem? hoff)⟩

/-- Every run of the heap after `kheap_init` is a run of the store of byte blocks, with the same
calls, results and loaded bytes. -/
theorem kheap_refines_blocks {b b' : BootHeap} {bootMem mem : Bytes} {base size : ℕ} {s p : Pmm}
    {cacheAt : ℕ → SlabCache} {pmmOps : List (PmmOp × ℕ)} {h : Heap} {es : List HeapEvent}
    {t : Heap × List ℕ} (hbase : 0 < base) (halign : base % pageSize = 0)
    (hwrap : base + size < 2 ^ 64) (hinit : pmmInit Pmm.boot b bootMem base size = some (s, b'))
    (hpmm : Run PmmStep s pmmOps p) (hheap : kheapInit (Heap.boot mem cacheAt p) = some h)
    (hrun : Run HeapStep (h, []) es t) :
    Run BlockStep (fun _ => none) es (t.1.blocks t.2) := by
  obtain ⟨slack, hinv⟩ := kheap_run_inv hbase halign hwrap hinit hpmm hheap (.nil (h, []))
  have hempty : (fun _ => none) = h.blocks [] :=
    funext fun q => (h.blocks_not_live List.not_mem_nil).symm
  rw [hempty]
  exact hrun.mapped (f := fun u => u.1.blocks u.2) (fun _ _ _ hu hstep => hstep.blockStep hu) hinv

theorem smallHeap_moves : (kheapInit smallHeap >>= fun h => kcalloc h 4 1 >>= fun a =>
    krealloc { a.2 with mem := Function.update a.2.mem (0x41fe0 + 2) 7#8 } 0x41fe0 5000 >>=
      fun c => some ((a.1, a.2.blockSize 0x41fe0), c.1, c.2.blockSize 0x42010,
        c.2.mem (0x42010 + 2), c.2.mem (0x42010 + 1))) =
    some ((0x41fe0, 4), 0x42010, 5000, 7#8, 0#8) := by
  decide +kernel

/-- A zeroed block is written and then moves to a run of frames; its bytes are read there. -/
theorem kheap_refines_blocks_moved :
    ∃ h t, kheapInit smallHeap = some h ∧ t.2 = [0x42010] ∧
      Run HeapStep (h, []) [.call (.kcalloc 4 1) 0x41fe0, .call (.store 0x41fe0 2 7#8) 0,
        .call (.krealloc 0x41fe0 5000) 0x42010, .load 0x42010 2 7#8, .load 0x42010 1 0#8] t ∧
      Run BlockStep (fun _ => none) [.call (.kcalloc 4 1) 0x41fe0, .call (.store 0x41fe0 2 7#8) 0,
        .call (.krealloc 0x41fe0 5000) 0x42010, .load 0x42010 2 7#8, .load 0x42010 1 0#8]
        (t.1.blocks t.2) := by
  obtain ⟨h, hheap, hrest⟩ := Option.bind_eq_some_iff.mp smallHeap_moves
  obtain ⟨⟨ra, ha⟩, hk, hrest⟩ := Option.bind_eq_some_iff.mp hrest
  obtain ⟨⟨rc, hc⟩, hre, hresult⟩ := Option.bind_eq_some_iff.mp hrest
  simp only [Option.some.injEq, Prod.mk.injEq] at hresult
  obtain ⟨⟨rfl, hsize⟩, rfl, hsize', hbyte, hbyte'⟩ := hresult
  have hoff : 2 < ha.blockSize 0x41fe0 := by omega
  have hoff' : 2 < hc.blockSize 0x42010 := by omega
  have hstore : HeapStep (ha, [0x41fe0]) (.call (.store 0x41fe0 2 7#8) 0)
      ({ ha with mem := Function.update ha.mem (0x41fe0 + 2) 7#8 }, [0x41fe0]) :=
    ⟨⟨List.mem_cons_self, hoff⟩, rfl, rfl⟩
  have hmove : HeapStep ({ ha with mem := Function.update ha.mem (0x41fe0 + 2) 7#8 }, [0x41fe0])
      (.call (.krealloc 0x41fe0 5000) 0x42010) (hc, [0x42010]) :=
    ⟨⟨.inr List.mem_cons_self, (by decide : FitsSize 5000)⟩, hre, by simp [KheapOp.liveAfter]⟩
  have hrun : Run HeapStep (h, []) [.call (.kcalloc 4 1) 0x41fe0, .call (.store 0x41fe0 2 7#8) 0,
      .call (.krealloc 0x41fe0 5000) 0x42010, .load 0x42010 2 7#8, .load 0x42010 1 0#8]
      (hc, [0x42010]) :=
    .cons (u := (ha, [0x41fe0])) ⟨fun _ => (by decide : FitsSize (4 * 1)), hk, rfl⟩
      (.cons hstore (.cons hmove (.cons ⟨⟨List.mem_cons_self, hoff'⟩, hbyte.symm, rfl⟩
        (.cons ⟨⟨List.mem_cons_self, Nat.lt_of_succ_lt hoff'⟩, hbyte'.symm, rfl⟩ (.nil _)))))
  exact ⟨h, _, hheap, rfl, hrun, kheap_refines_blocks (by decide) (by decide) (by decide)
    smallPmm_init smallHeap_frames hheap hrun⟩

end Vectra

import Vectra.Mm.FrameRuns

/-!
# The bytes of the bitmap

Which bytes of the bitmap an operation reads or writes, and when they are among the bytes that
`pmm_init` has obtained. The number of bytes is rounded down before it is rounded up.
-/

namespace Vectra

open Lib

/-! ## Accesses -/

/-- The bits that a scan tests, up to the first clear one. -/
def scanned (s : Pmm) (start : ℕ) : ℕ → List ℕ
  | 0 => []
  | n + 1 => start :: if s.used start then scanned s (start + 1) n else []

/-- The bits that a call tests, in order; a bit is written only after its test. -/
def pmmBits (s : Pmm) : PmmOp → List ℕ
  | .freeRegion base size =>
      (List.range (size / pageSize)).map fun i => s.frameIndex base + i
  | .reserveRegion base size =>
      (List.range (alignUp size pageSize / pageSize)).map fun i => s.frameIndex base + i
  | .allocFrame =>
      if s.freeFrames = 0 then []
      else scanned s s.lastFreeIndex (s.totalFrames - s.lastFreeIndex) ++
        match firstFrom (fun i => !s.used i) s.lastFreeIndex (s.totalFrames - s.lastFreeIndex) with
        | some _ => []
        | none => scanned s 0 s.lastFreeIndex
  | .freeFrame physAddr =>
      if physAddr < s.memPhysBase then []
      else if s.totalFrames ≤ s.frameIndex physAddr then []
      else [s.frameIndex physAddr]

/-- The bytes of the bitmap that a call reads or writes. -/
def pmmBytes (s : Pmm) (op : PmmOp) : List ℕ := (pmmBits s op).map (· / 8)

variable {s t : Pmm} {start n k : ℕ}

theorem mem_scanned (h : k ∈ scanned s start n) : start ≤ k ∧ k < start + n := by
  induction n generalizing start with
  | zero => cases h
  | succ n ih =>
      rcases List.mem_cons.mp h with rfl | h
      · omega
      · split at h
        · have hrest := ih h
          omega
        · cases h

/-- The bit at which a scan stops has been tested. -/
theorem scanned_hit {i : ℕ} (h : firstFrom (fun i => !s.used i) start n = some i) :
    i ∈ scanned s start n := by
  induction n generalizing start with
  | zero => cases h
  | succ n ih =>
      rw [firstFrom] at h
      rw [scanned]
      cases hused : s.used start with
      | false =>
          simp only [hused, Bool.not_false, if_true, Option.some.injEq] at h
          rw [h]
          exact List.mem_cons_self
      | true =>
          simp only [hused, Bool.not_true, Bool.false_eq_true, if_false] at h
          simp only [if_true]
          exact List.mem_cons_of_mem _ (ih h)

/-! ## Bytes outside the accesses -/

theorem bitmapSet_of_ne {bm : Bitmap} {bit : ℕ} (h : k ≠ bit / 8) : bitmapSet bm bit k = bm k :=
  Function.update_of_ne h _ _

theorem bitmapClear_of_ne {bm : Bitmap} {bit : ℕ} (h : k ≠ bit / 8) :
    bitmapClear bm bit k = bm k := Function.update_of_ne h _ _

theorem forFrames_bitmap {body : Pmm → ℕ → Pmm}
    (hbody : ∀ s bit, k ≠ bit / 8 → (body s bit).frameBitmap k = s.frameBitmap k)
    (h : k ∉ ((List.range n).map fun i => start + i).map (· / 8)) :
    (forFrames body s start n).frameBitmap k = s.frameBitmap k := by
  induction n with
  | zero => rfl
  | succ n ih =>
      rw [List.range_succ, List.map_append, List.map_append, List.mem_append, not_or] at h
      rw [forFrames, hbody _ _ (fun heq => h.2 (by simp [heq]))]
      exact ih h.1

/-- A call writes only bytes that it accesses. -/
theorem pmmStep_bytes {op : PmmOp} {r : ℕ} (hs : pmmStep s op = some (r, t))
    (h : k ∉ pmmBytes s op) : t.frameBitmap k = s.frameBitmap k := by
  cases op with
  | freeRegion base size =>
      cases hs
      refine forFrames_bitmap (fun s bit hk => ?_) h
      unfold freeBit
      split
      · exact bitmapClear_of_ne hk
      · rfl
  | reserveRegion base size =>
      cases hs
      refine forFrames_bitmap (fun s bit hk => ?_) h
      unfold reserveBit
      split
      · exact bitmapSet_of_ne hk
      · rfl
  | allocFrame =>
      have hout : ∀ {bit}, bit ∈ pmmBits s .allocFrame → k ≠ bit / 8 := fun hbit heq =>
        h (List.mem_map.mpr ⟨_, hbit, heq.symm⟩)
      change pmmAllocFrame s = some (r, t) at hs
      unfold pmmAllocFrame at hs
      simp only [pmmBits] at hout
      split at hs
      · cases hs
      · rename_i hfree
        rw [if_neg hfree] at hout
        split at hs
        · rename_i i hfirst
          cases hs
          exact bitmapSet_of_ne (hout (List.mem_append_left _ (scanned_hit hfirst)))
        · rename_i hnone
          rw [hnone] at hout
          split at hs
          · rename_i i hfirst
            cases hs
            exact bitmapSet_of_ne (hout (List.mem_append_right _ (scanned_hit hfirst)))
          · cases hs
            rfl
  | freeFrame physAddr =>
      cases hs
      unfold pmmBytes at h
      simp only [pmmBits] at h
      unfold pmmFreeFrame
      split
      · rfl
      · rename_i hbase
        rw [if_neg hbase] at h
        split
        · rfl
        · rename_i hrange
          rw [if_neg hrange] at h
          split
          · refine bitmapClear_of_ne fun heq => h ?_
            rw [heq]
            exact List.mem_cons_self
          · rfl

/-! ## Runs on the memory of the machine -/

/-- Region operations are called on regions of the memory given to `pmm_init`. -/
def PmmOp.InRam (ramBase ramSize : ℕ) : PmmOp → Prop
  | .freeRegion base size | .reserveRegion base size =>
      ramBase ≤ base ∧ base + size ≤ ramBase + ramSize
  | .allocFrame | .freeFrame _ => True

def RamStep (ramBase ramSize : ℕ) (s : Pmm) (e : PmmOp × ℕ) (t : Pmm) : Prop :=
  e.1.InRam ramBase ramSize ∧ pmmStep s e.1 = some (e.2, t)

/-- What the bounds of the accesses rest on. -/
structure RamState (ramBase ramSize : ℕ) (s : Pmm) : Prop where
  base : s.memPhysBase = ramBase
  total : s.totalFrames = ramSize / pageSize
  cursor : s.lastFreeIndex ≤ ramSize / pageSize

section Ram

variable {ramBase ramSize : ℕ}

theorem RamState.of_sameRange (h : RamState ramBase ramSize s) (hsame : SameRange s t)
    (hcursor : t.lastFreeIndex ≤ ramSize / pageSize) : RamState ramBase ramSize t :=
  ⟨hsame.1.trans h.base, hsame.2.trans h.total, hcursor⟩

theorem RamStep.state {e : PmmOp × ℕ} (h : RamState ramBase ramSize s)
    (hs : RamStep ramBase ramSize s e t) : RamState ramBase ramSize t := by
  obtain ⟨op, r⟩ := e
  obtain ⟨_, hs⟩ := hs
  cases op with
  | freeRegion base size =>
      cases hs
      refine h.of_sameRange (forFrames_sameRange freeBit_sameRange _ _ _) ?_
      exact (forFrames_lastFreeIndex freeBit_lastFreeIndex _ _ _).trans_le h.cursor
  | reserveRegion base size =>
      cases hs
      refine h.of_sameRange (forFrames_sameRange reserveBit_sameRange _ _ _) ?_
      exact (forFrames_lastFreeIndex reserveBit_lastFreeIndex _ _ _).trans_le h.cursor
  | allocFrame =>
      change pmmAllocFrame s = some (r, t) at hs
      have hcursor := h.cursor
      have htotal := h.total
      unfold pmmAllocFrame at hs
      split at hs
      · cases hs
      · split at hs
        · rename_i i hfirst
          cases hs
          have hi := (firstFrom_sound hfirst).2.1
          refine h.of_sameRange (takeFrame_sameRange s i) ?_
          change i + 1 ≤ _
          omega
        · split at hs
          · rename_i i hfirst
            cases hs
            have hi := (firstFrom_sound hfirst).2.1
            refine h.of_sameRange (takeFrame_sameRange s i) ?_
            change i + 1 ≤ _
            omega
          · cases hs
            exact h
  | freeFrame physAddr =>
      cases hs
      rcases PmmInv.freeFrame_cases s physAddr with ⟨hsame, _⟩ | ⟨_, _, _, hrange, _, _, hle⟩
      · rw [hsame]
        exact h
      · exact h.of_sameRange hrange (hle.trans h.cursor)

theorem RamState.frameIndex (h : RamState ramBase ramSize s) (hsize : ramSize < 2 ^ 64) {base : ℕ}
    (hlo : ramBase ≤ base) (hhi : base ≤ ramBase + ramSize) :
    s.frameIndex base = (base - ramBase) / pageSize := by
  unfold Pmm.frameIndex sub64
  rw [h.base]
  congr 1
  omega

/-- Only the bits of frames are accessed, and the one behind them when the memory ends inside
a page. -/
theorem RamState.bits (h : RamState ramBase ramSize s) (hsize : ramSize < 2 ^ 64) {op : PmmOp}
    (hop : op.InRam ramBase ramSize) {bit : ℕ} (hbit : bit ∈ pmmBits s op) :
    bit < ramSize / pageSize ∨ bit = ramSize / pageSize ∧ ramSize % pageSize ≠ 0 := by
  have hcursor := h.cursor
  have htotal := h.total
  cases op with
  | freeRegion base size =>
      obtain ⟨hlo, hhi⟩ := hop
      obtain ⟨i, hi, rfl⟩ := List.mem_map.mp hbit
      rw [List.mem_range] at hi
      rw [h.frameIndex hsize hlo (by omega)]
      unfold pageSize at *
      omega
  | reserveRegion base size =>
      obtain ⟨hlo, hhi⟩ := hop
      obtain ⟨i, hi, rfl⟩ := List.mem_map.mp hbit
      rw [List.mem_range] at hi
      rw [h.frameIndex hsize hlo (by omega)]
      by_cases hwrap : size + 4095 < 2 ^ 64
      · rw [alignUp_page hwrap] at hi
        unfold pageSize at *
        omega
      · have hzero : alignUp size pageSize = 0 := alignUp_page_wrap (by omega) (by omega)
        rw [hzero, Nat.zero_div] at hi
        omega
  | allocFrame =>
      left
      simp only [pmmBits] at hbit
      split at hbit
      · cases hbit
      · rcases List.mem_append.mp hbit with hbit | hbit
        · have hrange := mem_scanned hbit
          omega
        · split at hbit
          · cases hbit
          · have hrange := mem_scanned hbit
            omega
  | freeFrame physAddr =>
      left
      simp only [pmmBits] at hbit
      split at hbit
      · cases hbit
      · split at hbit
        · cases hbit
        · rename_i hrange
          rw [List.mem_singleton.mp hbit]
          omega

/-- The bytes of `pmm_init`, when the number of frames is not in the first eighth of 64. -/
theorem pmmBitmapSize_covers (hsize : ramSize < 2 ^ 64)
    (hrem : 8 ≤ ramSize / pageSize % 64 ∨
      ramSize / pageSize % 64 = 0 ∧ ramSize % pageSize = 0) {bit : ℕ}
    (hbit : bit < ramSize / pageSize ∨ bit = ramSize / pageSize ∧ ramSize % pageSize ≠ 0) :
    bit / 8 < pmmBitmapSize ramSize := by
  unfold pmmBitmapSize bitmapBitSize
  unfold pageSize at *
  rw [alignUp_eight (by omega)]
  omega

/-- Every access of every run stays in the bitmap exactly when the number of frames, modulo 64,
is at least 8, or 0 with the memory ending at a page. -/
theorem pmm_run_bytes_iff {b b' : BootHeap} {mem : ℕ → BitVec 8} {s : Pmm}
    (hsize : ramSize < 2 ^ 64)
    (hinit : pmmInit Pmm.boot b mem ramBase ramSize = some (s, b')) :
    (∀ es t op, Run (RamStep ramBase ramSize) s es t → op.InRam ramBase ramSize →
        ∀ k ∈ pmmBytes t op, k < pmmBitmapSize ramSize) ↔
      (8 ≤ ramSize / pageSize % 64 ∨
        ramSize / pageSize % 64 = 0 ∧ ramSize % pageSize = 0) := by
  obtain ⟨hbase, htotal, _, hlast, _⟩ := pmmInit_fields hinit
  have hs : RamState ramBase ramSize s := ⟨hbase, htotal, by rw [hlast]; exact Nat.zero_le _⟩
  constructor
  · intro h
    have hindex : s.frameIndex ramBase = 0 := by
      rw [hs.frameIndex hsize (le_refl _) (Nat.le_add_right _ _), Nat.sub_self, Nat.zero_div]
    by_contra hrem
    rw [not_or, not_and, Nat.not_le] at hrem
    have hbytes : pmmBitmapSize ramSize = (ramSize / pageSize / 8 + 7) / 8 * 8 := by
      unfold pmmBitmapSize bitmapBitSize
      exact alignUp_eight (by unfold pageSize; omega)
    by_cases hzero : ramSize / pageSize % 64 = 0
    · -- the memory ends inside a page, whose bit is reserved with the last frame
      have hpart := hrem.2 hzero
      have hbit : ramSize / pageSize ∈ pmmBits s (.reserveRegion ramBase ramSize) := by
        refine List.mem_map.mpr ⟨ramSize / pageSize, List.mem_range.mpr ?_, by
          rw [hindex, Nat.zero_add]⟩
        have hwrap : ramSize + 4095 < 2 ^ 64 := by
          unfold pageSize at hzero
          omega
        rw [alignUp_page hwrap]
        unfold pageSize at *
        omega
      have hlt := h [] s (.reserveRegion ramBase ramSize) (.nil s) ⟨le_refl _, le_refl _⟩ _
        (List.mem_map.mpr ⟨_, hbit, rfl⟩)
      rw [hbytes] at hlt
      omega
    · have hbit : ramSize / pageSize - 1 ∈ pmmBits s (.freeRegion ramBase ramSize) := by
        refine List.mem_map.mpr ⟨ramSize / pageSize - 1, List.mem_range.mpr (by omega), by
          rw [hindex, Nat.zero_add]⟩
      have hlt := h [] s (.freeRegion ramBase ramSize) (.nil s) ⟨le_refl _, le_refl _⟩ _
        (List.mem_map.mpr ⟨_, hbit, rfl⟩)
      rw [hbytes] at hlt
      omega
  · intro hrem es t op hrun hop k hk
    have ht : RamState ramBase ramSize t := hrun.invariant (fun _ _ _ => RamStep.state) hs
    obtain ⟨bit, hbit, rfl⟩ := List.mem_map.mp hk
    exact pmmBitmapSize_covers hsize hrem (ht.bits hsize hop hbit)

end Ram

/-- 64 frames have a bitmap of 8 bytes, which every run stays in. -/
theorem pmm_run_bytes_iff_small :
    (∀ es t op, Run (RamStep 0x40000 0x40000) smallPmm es t → op.InRam 0x40000 0x40000 →
        ∀ k ∈ pmmBytes t op, k < pmmBitmapSize 0x40000) ↔
      (8 ≤ 0x40000 / pageSize % 64 ∨ 0x40000 / pageSize % 64 = 0 ∧ 0x40000 % pageSize = 0) :=
  pmm_run_bytes_iff (by decide) smallPmm_init

/-- What `pmm_init` leaves for 65 frames at `0x40000`. -/
def overrunPmm : Pmm := ⟨fillUsed (fun _ => 0#8) 8, 65, 65, 0x40000, 0⟩

/-- With 65 frames the bitmap has 8 bytes, and `pmm_free_region` for all of the memory accesses
a ninth. -/
theorem pmm_bitmap_overrun :
    pmmInit Pmm.boot ⟨0x10000, 0x20000⟩ (fun _ => 0#8) 0x40000 0x41000 =
        some (overrunPmm, ⟨0x10010, 0x20000⟩) ∧
      pmmBitmapSize 0x41000 = 8 ∧ (PmmOp.freeRegion 0x40000 0x41000).InRam 0x40000 0x41000 ∧
      8 ∈ pmmBytes overrunPmm (.freeRegion 0x40000 0x41000) :=
  ⟨rfl, by decide, ⟨by decide, by decide⟩, by decide⟩

end Vectra

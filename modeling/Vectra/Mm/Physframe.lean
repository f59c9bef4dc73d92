import Vectra.Basic
import Vectra.Lib.Scan

/-!
# The physical frame allocator of `physframe.c`

One bit per frame, set while the frame is used. The bitmap is the memory
from `frame_bitmap` on, so that a bit past the bytes obtained from the
boot heap is still read and written where the source does it. A panic
halts the kernel and is modelled by `none`.
-/

namespace Vectra

/-! ## The boot heap of `bootalloc.c` -/

structure BootHeap where
  bootHeapPtr : ℕ
  bootHeapEnd : ℕ

/-- `mm_boot_alloc`: bump allocation in units of 16 bytes. -/
def mmBootAlloc (b : BootHeap) (size : ℕ) : Option (ℕ × BootHeap) :=
  if b.bootHeapPtr = 0 then none
  else if b.bootHeapEnd < (b.bootHeapPtr + alignUp size 16) % 2 ^ 64 then none
  else some (b.bootHeapPtr,
    { b with bootHeapPtr := (b.bootHeapPtr + alignUp size 16) % 2 ^ 64 })

/-! ## The bitmap -/

abbrev Bitmap := ℕ → BitVec 8

def bitmapSet (bm : Bitmap) (bit : ℕ) : Bitmap :=
  Function.update bm (bit / 8) (bm (bit / 8) ||| (1#8 <<< (bit % 8)))

def bitmapClear (bm : Bitmap) (bit : ℕ) : Bitmap :=
  Function.update bm (bit / 8) (bm (bit / 8) &&& ~~~(1#8 <<< (bit % 8)))

def bitmapTest (bm : Bitmap) (bit : ℕ) : Bool :=
  (bm (bit / 8) &&& (1#8 <<< (bit % 8))) != 0#8

theorem bitmapTest_eq_getLsbD (bm : Bitmap) (bit : ℕ) :
    bitmapTest bm bit = (bm (bit / 8)).getLsbD (bit % 8) := by
  have hlt : bit % 8 < 8 := Nat.mod_lt _ (by omega)
  have hne : BitVec.twoPow 8 (bit % 8) ≠ 0#8 := by
    intro h
    have hbit := congrArg (fun x => x.getLsbD (bit % 8)) h
    simp [hlt] at hbit
  unfold bitmapTest
  rw [← BitVec.twoPow_eq, BitVec.and_twoPow]
  cases (bm (bit / 8)).getLsbD (bit % 8) with
  | false => simp
  | true => simpa using hne

theorem shifted_one_getLsbD {j k : ℕ} (hj : j < 8) :
    (1#8 <<< k).getLsbD j = decide (j = k) := by
  rw [← BitVec.twoPow_eq, BitVec.getLsbD_twoPow]
  by_cases h : j = k
  · subst h
    simp [hj]
  · have h' : k ≠ j := fun hk => h hk.symm
    simp [h, h']

@[simp] theorem bitmapTest_bitmapSet (bm : Bitmap) (bit j : ℕ) :
    bitmapTest (bitmapSet bm bit) j = (decide (j = bit) || bitmapTest bm j) := by
  have hj : j % 8 < 8 := Nat.mod_lt _ (by omega)
  rw [bitmapTest_eq_getLsbD, bitmapTest_eq_getLsbD]
  unfold bitmapSet
  by_cases hbyte : j / 8 = bit / 8
  · rw [hbyte, Function.update_self, BitVec.getLsbD_or, shifted_one_getLsbD hj, Bool.or_comm]
    congr 1
    apply decide_eq_decide.mpr
    omega
  · rw [Function.update_of_ne hbyte]
    have hne : j ≠ bit := fun h => hbyte (by rw [h])
    simp [hne]

@[simp] theorem bitmapTest_bitmapClear (bm : Bitmap) (bit j : ℕ) :
    bitmapTest (bitmapClear bm bit) j = (!decide (j = bit) && bitmapTest bm j) := by
  have hj : j % 8 < 8 := Nat.mod_lt _ (by omega)
  rw [bitmapTest_eq_getLsbD, bitmapTest_eq_getLsbD]
  unfold bitmapClear
  by_cases hbyte : j / 8 = bit / 8
  · rw [hbyte, Function.update_self, BitVec.getLsbD_and, BitVec.getLsbD_not,
      shifted_one_getLsbD hj, Bool.and_comm]
    have hiff : (j % 8 = bit % 8) ↔ j = bit := by omega
    simp [hj, hiff]
  · rw [Function.update_of_ne hbyte]
    have hne : j ≠ bit := fun h => hbyte (by rw [h])
    simp [hne]

/-! ## The allocator state -/

structure Pmm where
  frameBitmap : Bitmap
  totalFrames : ℕ
  freeFrames : ℕ
  memPhysBase : ℕ
  lastFreeIndex : ℕ

/-- The static variables before `pmm_init` has run. -/
def Pmm.boot : Pmm := ⟨fun _ => 0#8, 0, 0, 0, 0⟩

/-- The bit of a frame. -/
def Pmm.used (s : Pmm) (i : ℕ) : Bool := bitmapTest s.frameBitmap i

/-- The first byte of a frame, as `pmm_alloc_frame` computes it. -/
def Pmm.frameAddr (s : Pmm) (i : ℕ) : ℕ := (s.memPhysBase + i * pageSize) % 2 ^ 64

/-- The frame that an address falls into. -/
def Pmm.frameIndex (s : Pmm) (addr : ℕ) : ℕ := sub64 addr s.memPhysBase / pageSize

/-- The loop of `pmm_init` that marks the first bytes of the bitmap used. -/
def fillUsed (bm : Bitmap) : ℕ → Bitmap
  | 0 => bm
  | n + 1 => Function.update (fillUsed bm n) n 0xFF#8

def pmmBitmapSize (ramSize : ℕ) : ℕ := alignUp (ramSize / pageSize / bitmapBitSize) 8

/-- `pmm_init`; `mem` is the memory of the boot heap before the call. -/
def pmmInit (s : Pmm) (b : BootHeap) (mem : ℕ → BitVec 8) (ramBase ramSize : ℕ) :
    Option (Pmm × BootHeap) :=
  match mmBootAlloc b (pmmBitmapSize ramSize) with
  | none => none
  | some (p, b') =>
      if p = 0 then none
      else some ({ s with
        frameBitmap := fillUsed (fun i => mem (p + i)) (pmmBitmapSize ramSize)
        totalFrames := ramSize / pageSize
        freeFrames := ramSize / pageSize
        memPhysBase := ramBase }, b')

/-- The body of the loop of `pmm_free_region`. -/
def freeBit (s : Pmm) (bit : ℕ) : Pmm :=
  if s.used bit then
    { s with
      frameBitmap := bitmapClear s.frameBitmap bit
      freeFrames := (s.freeFrames + 1) % 2 ^ 64 }
  else s

/-- The body of the loop of `pmm_reserve_region`. -/
def reserveBit (s : Pmm) (bit : ℕ) : Pmm :=
  if !s.used bit then
    { s with
      frameBitmap := bitmapSet s.frameBitmap bit
      freeFrames := if 0 < s.freeFrames then s.freeFrames - 1 else s.freeFrames }
  else s

/-- `for (i = 0; i < count; i++) body(start + i)`. -/
def forFrames (body : Pmm → ℕ → Pmm) (s : Pmm) (start : ℕ) : ℕ → Pmm
  | 0 => s
  | n + 1 => body (forFrames body s start n) (start + n)

def pmmFreeRegion (s : Pmm) (base size : ℕ) : Pmm :=
  forFrames freeBit s (s.frameIndex base) (size / pageSize)

def pmmReserveRegion (s : Pmm) (base size : ℕ) : Pmm :=
  forFrames reserveBit s (s.frameIndex base) (alignUp size pageSize / pageSize)

/-- What both loops of `pmm_alloc_frame` do at the clear bit they stop at. -/
def takeFrame (s : Pmm) (i : ℕ) : Pmm :=
  { s with
    frameBitmap := bitmapSet s.frameBitmap i
    freeFrames := s.freeFrames - 1
    lastFreeIndex := i + 1 }

/-- `pmm_alloc_frame`: the scan from the cursor to the end, then the
wrapped scan from the start to the cursor. -/
def pmmAllocFrame (s : Pmm) : Option (ℕ × Pmm) :=
  if s.freeFrames = 0 then none
  else
    match Lib.firstFrom (fun i => !s.used i) s.lastFreeIndex
        (s.totalFrames - s.lastFreeIndex) with
    | some i => some (s.frameAddr i, takeFrame s i)
    | none =>
        match Lib.firstFrom (fun i => !s.used i) 0 s.lastFreeIndex with
        | some i => some (s.frameAddr i, takeFrame s i)
        | none => some (0, s)

def pmmFreeFrame (s : Pmm) (physAddr : ℕ) : Pmm :=
  if physAddr < s.memPhysBase then s
  else if s.totalFrames ≤ s.frameIndex physAddr then s
  else if s.used (s.frameIndex physAddr) then
    { s with
      frameBitmap := bitmapClear s.frameBitmap (s.frameIndex physAddr)
      freeFrames := (s.freeFrames + 1) % 2 ^ 64
      lastFreeIndex := if s.frameIndex physAddr < s.lastFreeIndex then s.frameIndex physAddr
        else s.lastFreeIndex }
  else s

/-! ## What each function does to the bits -/

theorem fillUsed_apply (bm : Bitmap) (n i : ℕ) :
    fillUsed bm n i = if i < n then 0xFF#8 else bm i := by
  induction n with
  | zero => simp [fillUsed]
  | succ n ih =>
      by_cases hi : i = n
      · subst hi
        simp [fillUsed]
      · have hiff : i < n + 1 ↔ i < n := by omega
        rw [fillUsed, Function.update_of_ne hi, ih]
        simp [hiff]

theorem bitmapTest_fillUsed (bm : Bitmap) {n bit : ℕ} (h : bit < n * 8) :
    bitmapTest (fillUsed bm n) bit = true := by
  have hbyte : bit / 8 < n := by omega
  have hbit : bit % 8 < 8 := Nat.mod_lt _ (by omega)
  rw [bitmapTest_eq_getLsbD, fillUsed_apply, if_pos hbyte]
  generalize bit % 8 = k at hbit
  interval_cases k <;> rfl

@[simp] theorem freeBit_used (s : Pmm) (bit j : ℕ) :
    (freeBit s bit).used j = (!decide (j = bit) && s.used j) := by
  unfold freeBit
  split
  · exact bitmapTest_bitmapClear _ _ _
  · rename_i h
    by_cases hj : j = bit
    · subst hj
      simpa using h
    · simp [hj]

@[simp] theorem reserveBit_used (s : Pmm) (bit j : ℕ) :
    (reserveBit s bit).used j = (decide (j = bit) || s.used j) := by
  unfold reserveBit
  split
  · exact bitmapTest_bitmapSet _ _ _
  · rename_i h
    by_cases hj : j = bit
    · subst hj
      simpa using h
    · simp [hj]

@[simp] theorem takeFrame_used (s : Pmm) (i j : ℕ) :
    (takeFrame s i).used j = (decide (j = i) || s.used j) :=
  bitmapTest_bitmapSet _ _ _

/-- The fields that no function but `pmm_init` writes. -/
def SameRange (s t : Pmm) : Prop :=
  t.memPhysBase = s.memPhysBase ∧ t.totalFrames = s.totalFrames

theorem SameRange.refl (s : Pmm) : SameRange s s := ⟨rfl, rfl⟩

theorem SameRange.trans {s t u : Pmm} (h : SameRange s t) (k : SameRange t u) : SameRange s u :=
  ⟨k.1.trans h.1, k.2.trans h.2⟩

theorem SameRange.frameAddr {s t : Pmm} (h : SameRange s t) (i : ℕ) :
    t.frameAddr i = s.frameAddr i := by
  unfold Pmm.frameAddr
  rw [h.1]

theorem SameRange.frameIndex {s t : Pmm} (h : SameRange s t) (addr : ℕ) :
    t.frameIndex addr = s.frameIndex addr := by
  unfold Pmm.frameIndex
  rw [h.1]

theorem freeBit_sameRange (s : Pmm) (bit : ℕ) : SameRange s (freeBit s bit) := by
  unfold freeBit
  split <;> exact ⟨rfl, rfl⟩

theorem reserveBit_sameRange (s : Pmm) (bit : ℕ) : SameRange s (reserveBit s bit) := by
  unfold reserveBit
  split <;> exact ⟨rfl, rfl⟩

theorem takeFrame_sameRange (s : Pmm) (i : ℕ) : SameRange s (takeFrame s i) := ⟨rfl, rfl⟩

theorem freeBit_lastFreeIndex (s : Pmm) (bit : ℕ) :
    (freeBit s bit).lastFreeIndex = s.lastFreeIndex := by
  unfold freeBit
  split <;> rfl

theorem reserveBit_lastFreeIndex (s : Pmm) (bit : ℕ) :
    (reserveBit s bit).lastFreeIndex = s.lastFreeIndex := by
  unfold reserveBit
  split <;> rfl

theorem forFrames_sameRange {body : Pmm → ℕ → Pmm} (hbody : ∀ s bit, SameRange s (body s bit))
    (s : Pmm) (start n : ℕ) : SameRange s (forFrames body s start n) := by
  induction n with
  | zero => exact SameRange.refl s
  | succ n ih => exact ih.trans (hbody _ _)

theorem forFrames_lastFreeIndex {body : Pmm → ℕ → Pmm}
    (hbody : ∀ s bit, (body s bit).lastFreeIndex = s.lastFreeIndex) (s : Pmm) (start n : ℕ) :
    (forFrames body s start n).lastFreeIndex = s.lastFreeIndex := by
  induction n with
  | zero => rfl
  | succ n ih => exact (hbody _ _).trans ih

theorem window_succ (start n j : ℕ) :
    decide (start ≤ j ∧ j < start + (n + 1)) =
      (decide (j = start + n) || decide (start ≤ j ∧ j < start + n)) := by
  rw [← Bool.decide_or]
  apply decide_eq_decide.mpr
  omega

/-- A freeing loop clears exactly the bits of its window. -/
theorem forFrames_freeBit_used (s : Pmm) (start n j : ℕ) :
    (forFrames freeBit s start n).used j =
      (!decide (start ≤ j ∧ j < start + n) && s.used j) := by
  induction n with
  | zero =>
      have hno : decide (start ≤ j ∧ j < start + 0) = false := decide_eq_false (by omega)
      rw [hno]
      rfl
  | succ n ih => rw [forFrames, freeBit_used, ih, window_succ, Bool.not_or, Bool.and_assoc]

/-- A reserving loop sets exactly the bits of its window. -/
theorem forFrames_reserveBit_used (s : Pmm) (start n j : ℕ) :
    (forFrames reserveBit s start n).used j =
      (decide (start ≤ j ∧ j < start + n) || s.used j) := by
  induction n with
  | zero =>
      have hno : decide (start ≤ j ∧ j < start + 0) = false := decide_eq_false (by omega)
      rw [hno]
      rfl
  | succ n ih => rw [forFrames, reserveBit_used, ih, window_succ, Bool.or_assoc]

end Vectra

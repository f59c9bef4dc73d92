import Vectra.Mm.FrameOrder
import Vectra.Mm.KheapRuns

/-!
# When a large block is found

A large block is asked for frame by frame. The frame allocator is first fit, so the block
is found exactly when the frames behind the lowest clear frame are clear; a gap there is a
panic, even where enough frames in a row are clear further up.
-/

namespace Vectra

open Lib SlabMem

/-! ## The heap takes and returns single frames -/

/-- One call of `pmm_alloc_frame` or of `pmm_free_frame`. -/
def FrameStep (s : Pmm) (e : PmmOp × ℕ) (t : Pmm) : Prop :=
  PmmStep s e t ∧ (e.1 = .allocFrame ∨ ∃ a, e.1 = .freeFrame a)

/-- Some calls, one after another. -/
def FrameCalls (s t : Pmm) : Prop := ∃ es, Run FrameStep s es t

section Calls

variable {p q r : Pmm} {h h' : Heap} {n x size num ptr : ℕ}

theorem FrameCalls.refl (p : Pmm) : FrameCalls p p := ⟨[], .nil p⟩

theorem FrameCalls.trans (hpq : FrameCalls p q) (hqr : FrameCalls q r) : FrameCalls p r := by
  obtain ⟨es, hes⟩ := hpq
  obtain ⟨fs, hfs⟩ := hqr
  exact ⟨es ++ fs, hes.append hfs⟩

theorem FrameCalls.alloc (ha : pmmAllocFrame p = some (x, q)) : FrameCalls p q :=
  ⟨[(.allocFrame, x)], .cons ⟨⟨trivial, ha⟩, Or.inl rfl⟩ (.nil q)⟩

theorem FrameCalls.free (p : Pmm) (a : ℕ) : FrameCalls p (pmmFreeFrame p a) :=
  ⟨[(.freeFrame a, 0)], .cons ⟨⟨trivial, rfl⟩, Or.inr ⟨a, rfl⟩⟩ (.nil _)⟩

/-- Single frames are no regions. -/
theorem FrameCalls.low {slack : ℕ} (hpq : FrameCalls p q) (hp : PmmInv slack p)
    (low : CursorLow p) : PmmInv slack q ∧ SameRange p q ∧ CursorLow q := by
  obtain ⟨es, hes⟩ := hpq
  refine run_cursorLow (hes.mono fun s e t hstep => ⟨hstep.1, ?_⟩) hp low
  rcases hstep.2 with hop | ⟨a, hop⟩ <;> rw [hop] <;> exact trivial

theorem slabAlloc_calls {M C : Type} [SlabMem M C] {m m' : M} {c c' : SlabCache}
    (hs : slabAlloc m p c = some (x, m', q, c')) : FrameCalls p q := by
  unfold slabAlloc at hs
  split at hs
  · cases hgrow : slabGrow m p c with
    | none => simp [hgrow] at hs
    | some g =>
        simp only [hgrow, Option.some.injEq, Prod.mk.injEq] at hs
        obtain ⟨_, _, hq, _⟩ := hs
        obtain ⟨gm, gp, gc⟩ := g
        subst hq
        unfold slabGrow at hgrow
        cases ha : pmmAllocFrame p with
        | none => simp [ha] at hgrow
        | some a =>
            obtain ⟨phys, p'⟩ := a
            simp only [ha] at hgrow
            split at hgrow
            · cases hgrow
            · split at hgrow
              · cases hgrow
              · cases hgrow
                exact .alloc ha
  · cases hs
    exact .refl p

theorem slabAllocAt_calls {cache : ℕ} (hs : slabAllocAt h cache = some (x, h')) :
    FrameCalls h.pmm h'.pmm := by
  unfold slabAllocAt at hs
  split at hs
  · cases hs
    exact .refl _
  · cases ha : slabAlloc h.mem h.pmm (h.cacheAt cache) with
    | none => simp [ha] at hs
    | some a =>
        obtain ⟨y, m, p, c⟩ := a
        simp only [ha, Option.some.injEq, Prod.mk.injEq] at hs
        rw [← hs.2]
        exact slabAlloc_calls ha

theorem slabCacheCreate_calls (hs : slabCacheCreate h size = some (x, h')) :
    FrameCalls h.pmm h'.pmm := by
  unfold slabCacheCreate at hs
  split at hs
  · cases hs
  · rename_i ha
    split at hs <;> cases hs <;> exact slabAlloc_calls ha

theorem kheapInitLoop_calls (hs : kheapInitLoop h n = some h') : FrameCalls h.pmm h'.pmm := by
  induction n generalizing h' with
  | zero =>
      cases hs
      exact .refl _
  | succ n ih =>
      rw [kheapInitLoop] at hs
      cases hprev : kheapInitLoop h n with
      | none => simp [hprev] at hs
      | some u =>
          simp only [hprev] at hs
          cases hcreate : slabCacheCreate u (kmallocMinSize * 2 ^ n + allocHeaderSize) with
          | none => simp [hcreate] at hs
          | some a =>
              obtain ⟨cache, v⟩ := a
              simp only [hcreate] at hs
              split at hs
              · cases hs
              · have hcalls := (ih hprev).trans (slabCacheCreate_calls hcreate)
                cases hs
                exact hcalls

theorem kheapInit_calls (hs : kheapInit h = some h') : FrameCalls h.pmm h'.pmm := by
  unfold kheapInit at hs
  split at hs
  · cases hs
    exact .refl _
  · obtain ⟨u, hu, rfl⟩ := Option.map_eq_some_iff.mp hs
    have hcalls := kheapInitLoop_calls hu
    exact hcalls

theorem allocRun_calls {phys : ℕ} (hs : allocRun p phys n = some q) : FrameCalls p q := by
  induction n generalizing q with
  | zero =>
      cases hs
      exact .refl p
  | succ n ih =>
      rw [allocRun] at hs
      cases hprev : allocRun p phys n with
      | none => simp [hprev] at hs
      | some u =>
          simp only [hprev] at hs
          cases ha : pmmAllocFrame u with
          | none => simp [ha] at hs
          | some a =>
              simp only [ha] at hs
              split at hs
              · cases hs
                exact (ih hprev).trans (.alloc ha)
              · cases hs

theorem freeRun_calls (p : Pmm) (phys n : ℕ) : FrameCalls p (freeRun p phys n) := by
  induction n with
  | zero => exact .refl p
  | succ n ih => exact ih.trans (.free _ _)

theorem kmalloc_calls (hs : kmalloc h size = some (x, h')) : FrameCalls h.pmm h'.pmm := by
  unfold kmalloc at hs
  split at hs
  · cases hs
    exact .refl _
  · split at hs
    · cases hs
    · split at hs
      · split at hs
        · cases hs
        · rename_i ha
          have hcalls := slabAllocAt_calls ha
          split at hs <;> cases hs <;> exact hcalls
      · split at hs
        · cases hs
        · rename_i ha
          split at hs
          · cases hs
            exact .alloc ha
          · split at hs
            · cases hs
            · rename_i hrun
              cases hs
              exact (FrameCalls.alloc ha).trans (allocRun_calls hrun)

theorem kfree_calls (h : Heap) (ptr : ℕ) : FrameCalls h.pmm (kfree h ptr).pmm := by
  unfold kfree
  split
  · exact .refl _
  · split
    · unfold slabFreeAt
      split <;> exact .refl _
    · exact freeRun_calls _ _ _

theorem krealloc_calls (hs : krealloc h ptr size = some (x, h')) : FrameCalls h.pmm h'.pmm := by
  unfold krealloc at hs
  split at hs
  · exact kmalloc_calls hs
  · split at hs
    · have hfree := kfree_calls h ptr
      cases hs
      exact hfree
    · split at hs
      · cases hs
        exact .refl _
      · cases hk : kmalloc h size with
        | none => simp [hk] at hs
        | some a =>
            obtain ⟨new, h1⟩ := a
            have hcalls := kmalloc_calls hk
            simp only [hk] at hs
            split at hs
            · cases hs
              exact hcalls
            · have hfree := kfree_calls
                { h1 with mem := copyBytes h1.mem new ptr (h.blockSize ptr) } ptr
              cases hs
              exact hcalls.trans hfree

theorem kheapStep_calls {op : KheapOp} (hs : kheapStep h op = some (x, h')) :
    FrameCalls h.pmm h'.pmm := by
  cases op with
  | kmalloc size => exact kmalloc_calls hs
  | kcalloc num size =>
      rcases kcalloc_cases hs with ⟨_, rfl⟩ | ⟨_, h1, hk, rfl⟩
      · exact .refl _
      · have hcalls := kmalloc_calls hk
        split <;> exact hcalls
  | krealloc ptr newSize =>
      have hre : krealloc h ptr newSize = some (x, h') := hs
      exact krealloc_calls hre
  | kfree ptr =>
      have hfree := kfree_calls h ptr
      cases hs
      exact hfree
  | store ptr off byte =>
      simp only [kheapStep, Option.some.injEq, Prod.mk.injEq] at hs
      rw [← hs.2]
      exact .refl _

end Calls

/-! ## Frames in a row -/

section Window

variable {slack first f n : ℕ} {p : Pmm}

/-- `n` clear frames from `first` on. -/
def ClearWindow (p : Pmm) (first n : ℕ) : Prop :=
  first + n ≤ p.totalFrames ∧ ∀ j, first ≤ j → j < first + n → p.used j = false

instance (p : Pmm) (first n : ℕ) : Decidable (ClearWindow p first n) :=
  decidable_of_iff (first + n ≤ p.totalFrames ∧ ∀ j < first + n, first ≤ j → p.used j = false)
    (and_congr_right fun _ => forall_congr' fun _ => forall_comm)

/-- The clear frame that both scans of `pmm_alloc_frame` stop at. -/
def Pmm.nextClear (p : Pmm) : Option ℕ :=
  match firstFrom (fun i => !p.used i) p.lastFreeIndex (p.totalFrames - p.lastFreeIndex) with
  | some i => some i
  | none => firstFrom (fun i => !p.used i) 0 p.lastFreeIndex

theorem allocFrame_nextClear (p : Pmm) (hcount : p.freeFrames ≠ 0) :
    pmmAllocFrame p = match p.nextClear with
      | some i => some (p.frameAddr i, takeFrame p i)
      | none => some (0, p) := by
  unfold pmmAllocFrame Pmm.nextClear
  rw [if_neg hcount]
  cases firstFrom (fun i => !p.used i) p.lastFreeIndex (p.totalFrames - p.lastFreeIndex) <;> rfl

theorem PmmInv.allocFrame_next (h : PmmInv slack p) (hf : p.nextClear = some f) :
    f < p.totalFrames ∧ p.used f = false ∧
      pmmAllocFrame p = some (p.frameAddr f, Vectra.takeFrame p f) := by
  have hclear : f < p.totalFrames ∧ p.used f = false := by
    have hcursor := h.cursor
    unfold Pmm.nextClear at hf
    split at hf
    · rename_i hscan
      cases hf
      obtain ⟨_, hhi, hbit, _⟩ := firstFrom_sound hscan
      exact ⟨by omega, by simpa using hbit⟩
    · obtain ⟨_, hhi, hbit, _⟩ := firstFrom_sound hf
      exact ⟨by omega, by simpa using hbit⟩
  have hcount : p.freeFrames ≠ 0 := by
    have hpos := PmmInv.clear_pos hclear.1 hclear.2
    have hc := h.count
    omega
  refine ⟨hclear.1, hclear.2, ?_⟩
  rw [allocFrame_nextClear p hcount, hf]

theorem Pmm.nextClear_none (hall : ∀ j < p.totalFrames, p.used j = true)
    (hcursor : p.lastFreeIndex ≤ p.totalFrames) : p.nextClear = none := by
  have hscan : ∀ lo n, lo + n ≤ p.totalFrames → firstFrom (fun i => !p.used i) lo n = none := by
    intro lo n hle
    exact firstFrom_eq_none_iff.mpr fun j _ hj => by simp [hall j (by omega)]
  unfold Pmm.nextClear
  rw [hscan _ _ (by omega)]
  exact hscan _ _ (by omega)

/-- A clear frame at the cursor is the next one. -/
theorem Pmm.nextClear_cursor (hlt : p.lastFreeIndex < p.totalFrames)
    (hclear : p.used p.lastFreeIndex = false) : p.nextClear = some p.lastFreeIndex := by
  have hscan : firstFrom (fun i => !p.used i) p.lastFreeIndex
      (p.totalFrames - p.lastFreeIndex) = some p.lastFreeIndex :=
    firstFrom_eq_some (le_refl _) (by omega) (by simp [hclear]) fun j hlo hhi => by omega
  unfold Pmm.nextClear
  rw [hscan]

theorem CursorLow.nextClear (low : CursorLow p) (hf : LowestFree p f) : p.nextClear = some f := by
  have hcursor : p.lastFreeIndex ≤ f := by
    by_contra hlt
    have hused := low f (by omega)
    rw [hf.clear] at hused
    cases hused
  have hscan : firstFrom (fun i => !p.used i) p.lastFreeIndex
      (p.totalFrames - p.lastFreeIndex) = some f := by
    have hlt := hf.lt
    exact firstFrom_eq_some hcursor (by omega) (by simp [hf.clear])
      fun j _ hj => by simp [hf.below j hj]
  unfold Pmm.nextClear
  rw [hscan]

/-- Behind the first frame they are found one after another: each leaves the cursor on the
next. -/
theorem allocRun_window (h : PmmInv slack p) (hbase : 0 < p.memPhysBase)
    (hfirst : first < p.totalFrames) (hcursor : p.lastFreeIndex = first + 1)
    (hclear : ClearWindow p (first + 1) n) :
    ∃ q, allocRun p (p.frameAddr first) n = some q ∧ q.lastFreeIndex = first + n + 1 := by
  induction n with
  | zero => exact ⟨p, rfl, hcursor⟩
  | succ n ih =>
      have hbound := hclear.1
      obtain ⟨q, hq, hcursor'⟩ := ih ⟨by omega, fun j hlo hhi => hclear.2 j hlo (by omega)⟩
      obtain ⟨_, hqinv, hrange, _, hused⟩ := allocRun_spec h hbase hfirst hq
      have hbit : q.used q.lastFreeIndex = false := by
        rw [hcursor', hused, hclear.2 _ (by omega) (by omega), decide_eq_false (by omega)]
        rfl
      obtain ⟨_, _, halloc⟩ := hqinv.allocFrame_next
        (Pmm.nextClear_cursor (by rw [hcursor', hrange.2]; omega) hbit)
      have haddr : q.frameAddr q.lastFreeIndex =
          (p.frameAddr first + (n + 1) * pageSize) % 2 ^ 64 := by
        have hadd : p.frameAddr first + (n + 1) * pageSize = p.frameAddr (first + (n + 1)) :=
          frameAddr_add h (by omega)
        rw [hcursor', hrange.frameAddr, hadd, Nat.add_assoc]
        exact (Nat.mod_eq_of_lt (Nat.mod_lt _ (by decide))).symm
      refine ⟨takeFrame q q.lastFreeIndex, ?_, ?_⟩
      · rw [allocRun, hq]
        simp only [halloc, haddr, if_true]
      · change q.lastFreeIndex + 1 = first + (n + 1) + 1
        omega

/-- What the frames behind a clear frame decide, once that frame is taken. -/
theorem allocRun_first (h : PmmInv slack p) (hbase : 0 < p.memPhysBase) (hlt : f < p.totalFrames)
    (hf : p.used f = false) :
    (ClearWindow p f (n + 1) →
      ∃ q, allocRun (takeFrame p f) (p.frameAddr f) n = some q ∧ PmmInv slack q ∧
        SameRange p q ∧ ∀ j, q.used j = (decide (f ≤ j ∧ j < f + (n + 1)) || p.used j)) ∧
      (¬ ClearWindow p f (n + 1) →
        allocRun (takeFrame p f) (p.frameAddr f) n = none) := by
  have hp := h.takeFrame hlt hf
  have hbase : 0 < (takeFrame p f).memPhysBase := hbase
  have hlt' : f < (takeFrame p f).totalFrames := hlt
  have haddr : (takeFrame p f).frameAddr f = p.frameAddr f :=
    (takeFrame_sameRange p f).frameAddr f
  have hused : ∀ j, f < j → (takeFrame p f).used j = p.used j := by
    intro j hj
    rw [takeFrame_used, decide_eq_false (by omega), Bool.false_or]
  rw [← haddr]
  refine ⟨fun hclear => ?_, fun hgap => ?_⟩
  · have hwindow : ClearWindow (takeFrame p f) (f + 1) n := by
      refine ⟨?_, fun j hlo hhi => ?_⟩
      · change f + 1 + n ≤ p.totalFrames
        have hle := hclear.1
        omega
      · rw [hused j (by omega)]
        exact hclear.2 j (by omega) (by omega)
    obtain ⟨q, hq, _⟩ := allocRun_window hp hbase hlt' rfl hwindow
    obtain ⟨_, hqinv, hrange, _, hq'⟩ := allocRun_spec hp hbase hlt' hq
    refine ⟨q, hq, hqinv, (takeFrame_sameRange p f).trans hrange, fun j => ?_⟩
    rw [hq', takeFrame_used, ← Bool.or_assoc, ← Bool.decide_or]
    congr 1
    apply decide_eq_decide.mpr
    omega
  · cases hq : allocRun (takeFrame p f) ((takeFrame p f).frameAddr f) n with
    | none => rfl
    | some q =>
        obtain ⟨hbound, _, _, hclear, _⟩ := allocRun_spec hp hbase hlt' hq
        refine absurd ⟨?_, fun j hlo hhi => ?_⟩ hgap
        · have hle : f + n < p.totalFrames := hbound
          omega
        · rcases Nat.lt_or_eq_of_le hlo with hj | rfl
          · rw [← hused j hj]
            exact hclear j hj (by omega)
          · exact hf

end Window

section Large

variable {h : Heap} {size phys : ℕ} {p q : Pmm}

/-- The branch of `kmalloc` for large blocks. -/
theorem kmalloc_large_found (hready : h.kheapInitialized = true) (hsize : size ≠ 0)
    (hbucket : getBucketIndex size = none) (halloc : pmmAllocFrame h.pmm = some (phys, p))
    (hphys : phys ≠ 0) (hrun : allocRun p phys (numPages size - 1) = some q) :
    kmalloc h size = some ((phys + allocHeaderSize) % 2 ^ 64,
      { h with pmm := q, mem := writeHeader h.mem phys size 0 }) := by
  unfold kmalloc
  rw [if_neg hsize, if_neg (by simp [hready])]
  simp only [hbucket, halloc, if_neg hphys, hrun]

theorem kmalloc_large_gap (hready : h.kheapInitialized = true) (hsize : size ≠ 0)
    (hbucket : getBucketIndex size = none) (halloc : pmmAllocFrame h.pmm = some (phys, p))
    (hphys : phys ≠ 0) (hrun : allocRun p phys (numPages size - 1) = none) :
    kmalloc h size = none := by
  unfold kmalloc
  rw [if_neg hsize, if_neg (by simp [hready])]
  simp only [hbucket, halloc, if_neg hphys, hrun]

theorem kmalloc_large_full (hready : h.kheapInitialized = true) (hsize : size ≠ 0)
    (hbucket : getBucketIndex size = none) (hnone : h.pmm.nextClear = none) :
    kmalloc h size = if h.pmm.freeFrames = 0 then none else some (0, h) := by
  unfold kmalloc
  rw [if_neg hsize, if_neg (by simp [hready])]
  by_cases hcount : h.pmm.freeFrames = 0
  · have halloc : pmmAllocFrame h.pmm = none := if_pos hcount
    simp only [hbucket, halloc, if_pos hcount]
  · simp only [hbucket, allocFrame_nextClear h.pmm hcount, hnone, if_true, if_neg hcount]

theorem getBucketIndex_large (hlarge : 2048 < size) : getBucketIndex size = none := by
  unfold getBucketIndex
  rw [if_neg (by omega), if_neg (by omega), if_neg (by omega), if_neg (by omega),
    if_neg (by omega), if_neg (by omega), if_neg (by omega), if_neg (by omega)]

/-- A large block at the next clear frame: the frames behind that frame decide whether the call
returns. -/
structure NextBlock (slack : ℕ) (h : Heap) (size : ℕ) : Prop where
  found : ∀ f, h.pmm.nextClear = some f → ClearWindow h.pmm f (numPages size) → ∃ q,
    kmalloc h size = some (h.pmm.frameAddr f + allocHeaderSize,
      { h with pmm := q, mem := writeHeader h.mem (h.pmm.frameAddr f) size 0 }) ∧
    PmmInv slack q ∧ SameRange h.pmm q ∧
    ∀ j, q.used j = (decide (f ≤ j ∧ j < f + numPages size) || h.pmm.used j)
  gap : ∀ f, h.pmm.nextClear = some f → ¬ ClearWindow h.pmm f (numPages size) →
    kmalloc h size = none
  full : h.pmm.nextClear = none →
    kmalloc h size = if h.pmm.freeFrames = 0 then none else some (0, h)

theorem kmalloc_next {slack : ℕ} (hp : PmmInv slack h.pmm) (hready : h.kheapInitialized = true)
    (hbase : 0 < h.pmm.memPhysBase) (hlarge : 2048 < size) (hfits : FitsSize size) :
    NextBlock slack h size := by
  have hbucket := getBucketIndex_large hlarge
  have hsize : size ≠ 0 := by omega
  have hpages : numPages size - 1 + 1 = numPages size := by
    rw [numPages_eq hfits]
    omega
  have hrange := hp.range
  have hpos : ∀ f < h.pmm.totalFrames, h.pmm.frameAddr f ≠ 0 := by
    intro f hf
    rw [hp.frameAddr_eq hf]
    omega
  refine ⟨fun f hf hclear => ?_, fun f hf hgap => ?_, kmalloc_large_full hready hsize hbucket⟩
  · obtain ⟨hlt, hbit, halloc⟩ := hp.allocFrame_next hf
    rw [← hpages] at hclear
    obtain ⟨q, hq, hqinv, hsame, hused⟩ := (allocRun_first hp hbase hlt hbit).1 hclear
    have hfound := kmalloc_large_found hready hsize hbucket halloc (hpos f hlt) hq
    have hheader : (h.pmm.frameAddr f + allocHeaderSize) % 2 ^ 64 =
        h.pmm.frameAddr f + allocHeaderSize := by
      rw [hp.frameAddr_eq hlt]
      unfold allocHeaderSize
      unfold pageSize at *
      omega
    rw [hheader] at hfound
    rw [hpages] at hused
    exact ⟨q, hfound, hqinv, hsame, hused⟩
  · obtain ⟨hlt, hbit, halloc⟩ := hp.allocFrame_next hf
    rw [← hpages] at hgap
    exact kmalloc_large_gap hready hsize hbucket halloc (hpos f hlt)
      ((allocRun_first hp hbase hlt hbit).2 hgap)

end Large

/-- A large block in a state of the heap. With the lowest clear frame it is found exactly
when the frames behind it are clear; otherwise the call panics. -/
structure LargeBlock (h : Heap) (size : ℕ) : Prop where
  found : ∀ f, LowestFree h.pmm f → ClearWindow h.pmm f (numPages size) →
    ∃ h', kmalloc h size = some (h.pmm.frameAddr f + allocHeaderSize, h') ∧
      ∀ j, h'.pmm.used j = (decide (f ≤ j ∧ j < f + numPages size) || h.pmm.used j)
  gap : ∀ f, LowestFree h.pmm f → ¬ ClearWindow h.pmm f (numPages size) → kmalloc h size = none
  full : (∀ j < h.pmm.totalFrames, h.pmm.used j = true) →
    kmalloc h size = none ∨ kmalloc h size = some (0, h)

namespace HeapInv

variable {slack : ℕ} {reserved : ℕ → Prop} {h : Heap} {live : List ℕ} {o : Ownership} {size f : ℕ}

theorem largeBlock (hi : HeapInv slack reserved h live o) (low : CursorLow h.pmm)
    (hlarge : 2048 < size) (hfits : FitsSize size) : LargeBlock h size := by
  have hnext := kmalloc_next hi.caches.pmm hi.ready hi.caches.base_pos hlarge hfits
  refine ⟨fun f hf hclear => ?_, fun f hf => hnext.gap f (low.nextClear hf), fun hall => ?_⟩
  · obtain ⟨q, hfound, _, _, hused⟩ := hnext.found f (low.nextClear hf) hclear
    exact ⟨_, hfound, hused⟩
  · rw [hnext.full (Pmm.nextClear_none hall hi.caches.pmm.cursor)]
    split
    · exact Or.inl rfl
    · exact Or.inr rfl

end HeapInv

/-- In every state of every run of the heap, on frames left by a run of the frame allocator
that released regions behind the cursor only. -/
theorem kmalloc_large_run {b b' : BootHeap} {bootMem mem : Bytes} {base size : ℕ} {s p : Pmm}
    {cacheAt : ℕ → SlabCache} {pmmOps : List (PmmOp × ℕ)} {h : Heap}
    {ops : List (KheapOp × ℕ)} {t : Heap × List ℕ} {n : ℕ} (hbase : 0 < base)
    (halign : base % pageSize = 0) (hwrap : base + size < 2 ^ 64)
    (hinit : pmmInit Pmm.boot b bootMem base size = some (s, b'))
    (hpmm : Run LowStep s pmmOps p) (hheap : kheapInit (Heap.boot mem cacheAt p) = some h)
    (hrun : Run KheapStep (h, []) ops t) (hlarge : 2048 < n) (hfits : FitsSize n) :
    LargeBlock t.1 n := by
  obtain ⟨_, o, hi⟩ := kheap_run_inv hbase halign hwrap hinit
    (hpmm.mono fun _ _ _ hstep => hstep.1) hheap hrun
  obtain ⟨hp, _, low⟩ := run_cursorLow hpmm (pmmInit_inv rfl (range_of_wrap hwrap) hinit)
    (pmmInit_cursorLow hinit)
  obtain ⟨hh, _, hlow⟩ := (kheapInit_calls hheap).low hp low
  refine hi.largeBlock ?_ hlarge hfits
  have hmoved : FrameCalls h.pmm t.1.pmm :=
    hrun.invariant (I := fun u => FrameCalls h.pmm u.1.pmm)
      (fun _ _ _ hu hstep => hu.trans (kheapStep_calls hstep.2.1)) (.refl _)
  exact (hmoved.low hh hlow).2.2

/-- Two large blocks, and the first one is released: its two frames are the lowest clear
ones, and the next frame is used. -/
theorem smallHeap_gap :
    (kheapInit smallHeap >>= fun h => kmalloc h 5000 >>= fun a => kmalloc a.2 5000 >>= fun b =>
      some (a.1, b.1, (kfree b.2 a.1).pmm.frameAddr 1, (kfree b.2 a.1).pmm.totalFrames,
        (List.range 4).map (kfree b.2 a.1).pmm.used)) =
      some (0x41010, 0x43010, 0x41000, 64, [true, false, false, true]) := by
  decide +kernel

theorem kmalloc_large_run_gap :
    ∃ h t, kheapInit smallHeap = some h ∧ Run KheapStep (h, [])
        [(.kmalloc 5000, 0x41010), (.kmalloc 5000, 0x43010), (.kfree 0x41010, 0)] t ∧
      kmalloc t.1 9000 = none := by
  obtain ⟨h, hheap, hrest⟩ := Option.bind_eq_some_iff.mp smallHeap_gap
  obtain ⟨⟨ra, ha⟩, halloca, hrest⟩ := Option.bind_eq_some_iff.mp hrest
  obtain ⟨⟨rb, hb⟩, hallocb, hrest⟩ := Option.bind_eq_some_iff.mp hrest
  simp only [Option.some.injEq, Prod.mk.injEq] at hrest
  obtain ⟨rfl, rfl, _, htotal, hused⟩ := hrest
  have hbits : (kfree hb 0x41010).pmm.used 0 = true ∧ (kfree hb 0x41010).pmm.used 1 = false ∧
      (kfree hb 0x41010).pmm.used 3 = true := by
    simp only [List.range, List.range.loop, List.map_cons, List.cons.injEq] at hused
    exact ⟨hused.1, hused.2.1, hused.2.2.2.1⟩
  have hpmm : Run LowStep smallPmm [(.freeRegion 0x40000 0x10000, 0)]
      (pmmFreeRegion smallPmm 0x40000 0x10000) :=
    .cons ⟨⟨⟨by decide, by decide⟩, rfl⟩, Nat.zero_le _⟩ (.nil _)
  have hrun : Run KheapStep (h, [])
      [(.kmalloc 5000, 0x41010), (.kmalloc 5000, 0x43010), (.kfree 0x41010, 0)]
      (kfree hb 0x41010, [0x43010]) :=
    .cons (u := (ha, [0x41010])) ⟨(by decide : FitsSize 5000), halloca, rfl⟩
      (.cons (u := (hb, [0x43010, 0x41010])) ⟨(by decide : FitsSize 5000), hallocb, rfl⟩
        (.cons (u := (kfree hb 0x41010, [0x43010]))
          ⟨Or.inr (by simp), by rw [kheapStep], by simp [KheapOp.liveAfter]⟩ (.nil _)))
  have hlowest : LowestFree (kfree hb 0x41010).pmm 1 := by
    refine ⟨by rw [htotal]; decide, hbits.2.1, fun j hj => ?_⟩
    rw [Nat.lt_one_iff.mp hj]
    exact hbits.1
  have hlarge := kmalloc_large_run (by decide) (by decide) (by decide) smallPmm_init hpmm hheap
    hrun (by decide : 2048 < 9000) (by decide)
  refine ⟨h, _, hheap, hrun, hlarge.gap 1 hlowest fun hclear => ?_⟩
  have hthree := hclear.2 3 (by decide) (by decide)
  rw [hbits.2.2] at hthree
  cases hthree

end Vectra

import Mathlib.Data.Finset.Card
import Vectra.Lib.Run
import Vectra.Mm.Physframe

/-!
# The invariant of the frame allocator

The counter runs ahead of the clear bits by a constant amount, fixed by
`pmm_init`. Nothing else is needed to show that the gate in front of the
scan never hides a free frame.
-/

namespace Vectra

/-- The managed frames whose bit is clear. -/
def Pmm.clearFrames (s : Pmm) : Finset ℕ :=
  (Finset.range s.totalFrames).filter fun i => s.used i = false

theorem Pmm.mem_clearFrames (s : Pmm) (i : ℕ) :
    i ∈ s.clearFrames ↔ i < s.totalFrames ∧ s.used i = false := by
  simp [Pmm.clearFrames]

/-- `slack` is the lead of `free_frames` over the number of clear bits. -/
structure PmmInv (slack : ℕ) (s : Pmm) : Prop where
  range : s.memPhysBase + s.totalFrames * pageSize < 2 ^ 64
  cursor : s.lastFreeIndex ≤ s.totalFrames
  count : s.freeFrames = slack + s.clearFrames.card
  slack_le : slack ≤ s.totalFrames

namespace PmmInv

variable {slack : ℕ} {s t : Pmm} {i : ℕ}

theorem card_le (s : Pmm) : s.clearFrames.card ≤ s.totalFrames := by
  calc
    s.clearFrames.card ≤ (Finset.range s.totalFrames).card := Finset.card_filter_le _ _
    _ = s.totalFrames := Finset.card_range _

theorem totalFrames_lt (h : PmmInv slack s) : s.totalFrames < 2 ^ 52 := by
  have hr := h.range
  unfold pageSize at hr
  omega

theorem frameAddr_eq (h : PmmInv slack s) (hi : i < s.totalFrames) :
    s.frameAddr i = s.memPhysBase + i * pageSize := by
  have hr := h.range
  unfold pageSize at hr
  unfold Pmm.frameAddr pageSize
  omega

theorem frameIndex_eq {addr : ℕ} (hlo : s.memPhysBase ≤ addr) (hhi : addr < 2 ^ 64) :
    s.frameIndex addr = (addr - s.memPhysBase) / pageSize := by
  unfold Pmm.frameIndex
  rw [sub64_of_le hlo hhi]

/-- The index of a frame is recovered from any address inside it. -/
theorem frameIndex_frameAddr (h : PmmInv slack s) (hi : i < s.totalFrames) {off : ℕ}
    (hoff : off < pageSize) : s.frameIndex (s.frameAddr i + off) = i := by
  have hr := h.range
  rw [h.frameAddr_eq hi]
  unfold pageSize at *
  rw [frameIndex_eq (by omega) (by omega)]
  unfold pageSize
  omega

/-! ## One bit at a time -/

theorem clearFrames_take (hi : i < s.totalFrames) (hclear : s.used i = false)
    (hrange : t.totalFrames = s.totalFrames)
    (hused : ∀ j, t.used j = (decide (j = i) || s.used j)) :
    t.clearFrames.card + 1 = s.clearFrames.card := by
  have heq : t.clearFrames = s.clearFrames.erase i := by
    ext j
    simp only [Pmm.mem_clearFrames, Finset.mem_erase, hrange, hused, Bool.or_eq_false_iff,
      decide_eq_false_iff_not]
    tauto
  rw [heq]
  exact Finset.card_erase_add_one ((s.mem_clearFrames i).mpr ⟨hi, hclear⟩)

theorem clearFrames_give (hi : i < s.totalFrames) (hset : s.used i = true)
    (hrange : t.totalFrames = s.totalFrames)
    (hused : ∀ j, t.used j = (!decide (j = i) && s.used j)) :
    t.clearFrames.card = s.clearFrames.card + 1 := by
  have hnot : i ∉ s.clearFrames := by simp [Pmm.mem_clearFrames, hset]
  have heq : t.clearFrames = insert i s.clearFrames := by
    ext j
    simp only [Pmm.mem_clearFrames, Finset.mem_insert, hrange, hused, Bool.and_eq_false_iff,
      Bool.not_eq_false', decide_eq_true_eq]
    constructor
    · tauto
    · rintro (rfl | h)
      · exact ⟨hi, Or.inl rfl⟩
      · tauto
  rw [heq, Finset.card_insert_of_notMem hnot]

theorem clear_pos (hi : i < s.totalFrames) (hclear : s.used i = false) :
    0 < s.clearFrames.card :=
  Finset.card_pos.mpr ⟨i, (s.mem_clearFrames i).mpr ⟨hi, hclear⟩⟩

/-- Setting one clear bit and lowering the counter keeps the invariant. -/
theorem take (h : PmmInv slack s) (hi : i < s.totalFrames) (hclear : s.used i = false)
    (hrange : SameRange s t) (hused : ∀ j, t.used j = (decide (j = i) || s.used j))
    (hcount : t.freeFrames = s.freeFrames - 1) (hcursor : t.lastFreeIndex ≤ s.totalFrames) :
    PmmInv slack t where
  range := by rw [hrange.1, hrange.2]; exact h.range
  cursor := by rw [hrange.2]; exact hcursor
  count := by
    have hc := h.count
    have hcard := clearFrames_take hi hclear hrange.2 hused
    omega
  slack_le := by rw [hrange.2]; exact h.slack_le

/-- Clearing one set bit and raising the counter keeps the invariant. -/
theorem give (h : PmmInv slack s) (hi : i < s.totalFrames) (hset : s.used i = true)
    (hrange : SameRange s t) (hused : ∀ j, t.used j = (!decide (j = i) && s.used j))
    (hcount : t.freeFrames = (s.freeFrames + 1) % 2 ^ 64)
    (hcursor : t.lastFreeIndex ≤ s.totalFrames) : PmmInv slack t where
  range := by rw [hrange.1, hrange.2]; exact h.range
  cursor := by rw [hrange.2]; exact hcursor
  count := by
    have hc := h.count
    have hcard := clearFrames_give hi hset hrange.2 hused
    have hle := card_le s
    have htotal := h.totalFrames_lt
    have hslack := h.slack_le
    rw [hcount, hcard, hc]
    exact Nat.mod_eq_of_lt (by omega)
  slack_le := by rw [hrange.2]; exact h.slack_le

theorem freeBit (h : PmmInv slack s) (hi : i < s.totalFrames) : PmmInv slack (freeBit s i) := by
  by_cases hset : s.used i = true
  · refine h.give hi hset (freeBit_sameRange s i) (freeBit_used s i) ?_ ?_
    · simp [Vectra.freeBit, hset]
    · rw [freeBit_lastFreeIndex]
      exact h.cursor
  · have hsame : Vectra.freeBit s i = s := by simp [Vectra.freeBit, hset]
    rw [hsame]
    exact h

theorem reserveBit (h : PmmInv slack s) (hi : i < s.totalFrames) :
    PmmInv slack (reserveBit s i) := by
  by_cases hset : s.used i = true
  · have hsame : Vectra.reserveBit s i = s := by simp [Vectra.reserveBit, hset]
    rw [hsame]
    exact h
  · have hclear : s.used i = false := by simpa using hset
    refine h.take hi hclear (reserveBit_sameRange s i) (reserveBit_used s i) ?_ ?_
    · have hpos : 0 < s.freeFrames := by
        have hcard := clear_pos hi hclear
        rw [h.count]
        omega
      simp [Vectra.reserveBit, hclear, hpos]
    · rw [reserveBit_lastFreeIndex]
      exact h.cursor

/-! ## Regions -/

theorem forFrames {body : Pmm → ℕ → Pmm} (hsame : ∀ s bit, SameRange s (body s bit))
    (hbody : ∀ s bit, PmmInv slack s → bit < s.totalFrames → PmmInv slack (body s bit))
    (h : PmmInv slack s) {start n : ℕ} (hn : start + n ≤ s.totalFrames) :
    PmmInv slack (forFrames body s start n) := by
  induction n with
  | zero => exact h
  | succ n ih =>
      apply hbody _ _ (ih (by omega))
      rw [(forFrames_sameRange hsame s start n).2]
      omega

/-- A region inside the managed range spans only managed frames. -/
theorem region_bound (h : PmmInv slack s) {base size : ℕ} (hlo : s.memPhysBase ≤ base)
    (hhi : base + size ≤ s.memPhysBase + s.totalFrames * pageSize) :
    s.frameIndex base + alignUp size pageSize / pageSize ≤ s.totalFrames := by
  have hr := h.range
  unfold pageSize at *
  rw [frameIndex_eq hlo (by omega)]
  by_cases hsize : size + 4095 < 2 ^ 64
  · have halign := alignUp_page hsize
    unfold pageSize at *
    rw [halign]
    omega
  · have hlt := alignUp_lt size 4096
    unfold pageSize at *
    omega

theorem region_bound_floor (h : PmmInv slack s) {base size : ℕ} (hlo : s.memPhysBase ≤ base)
    (hhi : base + size ≤ s.memPhysBase + s.totalFrames * pageSize) :
    s.frameIndex base + size / pageSize ≤ s.totalFrames := by
  have hr := h.range
  unfold pageSize at *
  rw [frameIndex_eq hlo (by omega)]
  unfold pageSize
  omega

theorem freeRegion (h : PmmInv slack s) {base size : ℕ} (hlo : s.memPhysBase ≤ base)
    (hhi : base + size ≤ s.memPhysBase + s.totalFrames * pageSize) :
    PmmInv slack (pmmFreeRegion s base size) :=
  forFrames freeBit_sameRange (fun _ _ hs hbit => hs.freeBit hbit) h
    (h.region_bound_floor hlo hhi)

theorem reserveRegion (h : PmmInv slack s) {base size : ℕ} (hlo : s.memPhysBase ≤ base)
    (hhi : base + size ≤ s.memPhysBase + s.totalFrames * pageSize) :
    PmmInv slack (pmmReserveRegion s base size) :=
  forFrames reserveBit_sameRange (fun _ _ hs hbit => hs.reserveBit hbit) h
    (h.region_bound hlo hhi)

/-! ## Single frames -/

/-- Everything `pmm_alloc_frame` can do. A failure, by panic or by the
address 0, means that both scans together met no clear bit. -/
theorem allocFrame_cases (h : PmmInv slack s) :
    (pmmAllocFrame s = none ∧ s.freeFrames = 0 ∧ ∀ i < s.totalFrames, s.used i = true) ∨
      (pmmAllocFrame s = some (0, s) ∧ ∀ i < s.totalFrames, s.used i = true) ∨
        ∃ i < s.totalFrames, s.used i = false ∧
          pmmAllocFrame s = some (s.frameAddr i, takeFrame s i) := by
  by_cases hzero : s.freeFrames = 0
  · left
    refine ⟨by simp [pmmAllocFrame, hzero], hzero, ?_⟩
    intro i hi
    by_contra hset
    have hpos := clear_pos hi (by simpa using hset)
    have hc := h.count
    omega
  · right
    cases hfwd : Lib.firstFrom (fun i => !s.used i) s.lastFreeIndex
        (s.totalFrames - s.lastFreeIndex) with
    | some i =>
        obtain ⟨hlo, hhi, hclear, _⟩ := Lib.firstFrom_sound hfwd
        have hcursor := h.cursor
        exact Or.inr ⟨i, by omega, by simpa using hclear, by simp [pmmAllocFrame, hzero, hfwd]⟩
    | none =>
        cases hwrap : Lib.firstFrom (fun i => !s.used i) 0 s.lastFreeIndex with
        | some i =>
            obtain ⟨_, hhi, hclear, _⟩ := Lib.firstFrom_sound hwrap
            have hcursor := h.cursor
            exact Or.inr ⟨i, by omega, by simpa using hclear,
              by simp [pmmAllocFrame, hzero, hfwd, hwrap]⟩
        | none =>
            refine Or.inl ⟨by simp [pmmAllocFrame, hzero, hfwd, hwrap], ?_⟩
            intro i hi
            rcases Nat.lt_or_ge i s.lastFreeIndex with hlt | hge
            · simpa using Lib.firstFrom_eq_none_iff.mp hwrap i (Nat.zero_le _) (by omega)
            · simpa using Lib.firstFrom_eq_none_iff.mp hfwd i hge (by omega)

theorem takeFrame (h : PmmInv slack s) (hi : i < s.totalFrames) (hclear : s.used i = false) :
    PmmInv slack (takeFrame s i) :=
  h.take hi hclear (takeFrame_sameRange s i) (takeFrame_used s i) rfl (by
    change i + 1 ≤ s.totalFrames
    omega)

/-- A successful allocation, read off the result alone. -/
theorem allocFrame_some (h : PmmInv slack s) {a : ℕ} (ha : pmmAllocFrame s = some (a, t)) :
    (a = 0 ∧ t = s ∧ ∀ i < s.totalFrames, s.used i = true) ∨
      ∃ i < s.totalFrames, s.used i = false ∧ a = s.frameAddr i ∧ t = Vectra.takeFrame s i := by
  rcases h.allocFrame_cases with ⟨hn, _, _⟩ | ⟨hz, hall⟩ | ⟨i, hi, hclear, hs⟩
  · rw [hn] at ha
    cases ha
  · rw [hz] at ha
    cases ha
    exact Or.inl ⟨rfl, rfl, hall⟩
  · rw [hs] at ha
    cases ha
    exact Or.inr ⟨i, hi, hclear, rfl, rfl⟩

theorem allocFrame (h : PmmInv slack s) {a : ℕ} (ha : pmmAllocFrame s = some (a, t)) :
    PmmInv slack t ∧ SameRange s t := by
  rcases h.allocFrame_some ha with ⟨_, rfl, _⟩ | ⟨i, hi, hclear, _, rfl⟩
  · exact ⟨h, SameRange.refl _⟩
  · exact ⟨h.takeFrame hi hclear, takeFrame_sameRange _ _⟩

/-- `pmm_free_frame` either changes nothing or clears the one set bit of
the managed frame it was given. -/
theorem freeFrame_cases (s : Pmm) (addr : ℕ) :
    (pmmFreeFrame s addr = s ∧ (addr < s.memPhysBase ∨ s.totalFrames ≤ s.frameIndex addr ∨
        s.used (s.frameIndex addr) = false)) ∨
      (s.memPhysBase ≤ addr ∧ s.frameIndex addr < s.totalFrames ∧
        s.used (s.frameIndex addr) = true ∧ SameRange s (pmmFreeFrame s addr) ∧
        (∀ j, (pmmFreeFrame s addr).used j = (!decide (j = s.frameIndex addr) && s.used j)) ∧
        (pmmFreeFrame s addr).freeFrames = (s.freeFrames + 1) % 2 ^ 64 ∧
        (pmmFreeFrame s addr).lastFreeIndex ≤ s.lastFreeIndex) := by
  unfold pmmFreeFrame
  split
  · rename_i hbase
    exact Or.inl ⟨rfl, Or.inl hbase⟩
  · rename_i hbase
    split
    · rename_i hrange
      exact Or.inl ⟨rfl, Or.inr (Or.inl hrange)⟩
    · rename_i hrange
      split
      · rename_i hset
        refine Or.inr ⟨by omega, by omega, hset, ⟨rfl, rfl⟩, ?_, rfl, ?_⟩
        · intro j
          exact bitmapTest_bitmapClear _ _ _
        · dsimp only
          split <;> omega
      · rename_i hset
        exact Or.inl ⟨rfl, Or.inr (Or.inr (by simpa using hset))⟩

/-- Freeing any address of a managed frame clears the bit of that frame. -/
theorem freeFrame_used (h : PmmInv slack s) (hi : i < s.totalFrames) {off : ℕ}
    (hoff : off < pageSize) (j : ℕ) :
    (pmmFreeFrame s (s.frameAddr i + off)).used j = (!decide (j = i) && s.used j) := by
  have hindex := h.frameIndex_frameAddr hi hoff
  rcases freeFrame_cases s (s.frameAddr i + off) with
    ⟨hsame, hwhy⟩ | ⟨_, _, _, _, hused, _, _⟩
  · rw [hindex, h.frameAddr_eq hi] at hwhy
    rcases hwhy with hlt | hge | hclear
    · omega
    · omega
    · rw [hsame]
      by_cases hj : j = i
      · rw [hj, hclear, Bool.and_false]
      · simp [hj]
  · rw [hused, hindex]

theorem freeFrame (h : PmmInv slack s) (addr : ℕ) :
    PmmInv slack (pmmFreeFrame s addr) ∧ SameRange s (pmmFreeFrame s addr) := by
  rcases freeFrame_cases s addr with ⟨hsame, _⟩ | ⟨_, hi, hset, hrange, hused, hcount, hcur⟩
  · rw [hsame]
    exact ⟨h, SameRange.refl s⟩
  · exact ⟨h.give hi hset hrange hused hcount (hcur.trans h.cursor), hrange⟩

end PmmInv

section Addresses

variable {slack i j : ℕ} {p : Pmm}

theorem frameAddr_separate (h : PmmInv slack p) (hi : i < p.totalFrames)
    (hj : j < p.totalFrames) (hne : i ≠ j) :
    p.frameAddr i + pageSize ≤ p.frameAddr j ∨ p.frameAddr j + pageSize ≤ p.frameAddr i := by
  rw [h.frameAddr_eq hi, h.frameAddr_eq hj]
  unfold pageSize
  omega

theorem frameAddr_inj (h : PmmInv slack p) (hi : i < p.totalFrames) (hj : j < p.totalFrames) :
    p.frameAddr i = p.frameAddr j ↔ i = j := by
  constructor
  · intro heq
    by_contra hne
    have hsep := frameAddr_separate h hi hj hne
    unfold pageSize at hsep
    omega
  · rintro rfl
    rfl

end Addresses

/-! ## The state left by `pmm_init` -/

/-- What `pmm_init` establishes, whatever the memory held before. -/
theorem pmmInit_fields {s t : Pmm} {b b' : BootHeap} {mem : ℕ → BitVec 8} {base size : ℕ}
    (h : pmmInit s b mem base size = some (t, b')) :
    t.memPhysBase = base ∧ t.totalFrames = size / pageSize ∧ t.freeFrames = size / pageSize ∧
      t.lastFreeIndex = s.lastFreeIndex ∧
      ∀ i < pmmBitmapSize size * 8, t.used i = true := by
  unfold pmmInit at h
  split at h
  · cases h
  · split at h
    · cases h
    · cases h
      exact ⟨rfl, rfl, rfl, rfl, fun i hi => bitmapTest_fillUsed _ hi⟩

theorem pmmInit_inv {s t : Pmm} {b b' : BootHeap} {mem : ℕ → BitVec 8} {base size : ℕ}
    (hs : s.lastFreeIndex = 0) (hwrap : base + size / pageSize * pageSize < 2 ^ 64)
    (h : pmmInit s b mem base size = some (t, b')) :
    PmmInv (t.totalFrames - t.clearFrames.card) t := by
  obtain ⟨hbase, htotal, hfree, hlast, _⟩ := pmmInit_fields h
  have hcard := PmmInv.card_le t
  refine ⟨?_, ?_, ?_, by omega⟩
  · rw [hbase, htotal]
    exact hwrap
  · rw [hlast, hs]
    exact Nat.zero_le _
  · rw [htotal] at hcard ⊢
    omega

theorem range_of_wrap {base size : ℕ} (h : base + size < 2 ^ 64) :
    base + size / pageSize * pageSize < 2 ^ 64 := by
  have hmul := Nat.div_mul_le_self size pageSize
  omega

/-- A bitmap that covers every frame starts without a clear bit. -/
theorem pmmInit_covered {s t : Pmm} {b b' : BootHeap} {mem : ℕ → BitVec 8} {base size : ℕ}
    (hcover : size / pageSize ≤ pmmBitmapSize size * 8)
    (h : pmmInit s b mem base size = some (t, b')) : t.clearFrames = ∅ := by
  obtain ⟨_, htotal, _, _, hused⟩ := pmmInit_fields h
  apply Finset.eq_empty_of_forall_notMem
  intro i hi
  obtain ⟨hlt, hclear⟩ := (t.mem_clearFrames i).mp hi
  have hset := hused i (by omega)
  rw [hset] at hclear
  cases hclear

end Vectra

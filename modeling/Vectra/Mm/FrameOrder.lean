import Vectra.Mm.FrameRuns

/-!
# The order in which frames are handed out

A frame that is freed below the search cursor pulls the cursor down to it. So as long as
whole regions are released behind the cursor only, every frame below the cursor is used,
the wrapped scan finds nothing, and the allocator is first fit by address.
-/

namespace Vectra

open Lib

/-- Every frame below the cursor is used. -/
def CursorLow (s : Pmm) : Prop := ∀ i < s.lastFreeIndex, s.used i = true

/-- The clear frame with the lowest address. -/
structure LowestFree (s : Pmm) (i : ℕ) : Prop where
  lt : i < s.totalFrames
  clear : s.used i = false
  below : ∀ j < i, s.used j = true

/-- The clear frames, by address. -/
def Pmm.freeList (s : Pmm) : List ℕ := (List.range s.totalFrames).filter fun i => !s.used i

/-- A region is released behind the cursor. -/
def PmmOp.Ahead (s : Pmm) : PmmOp → Prop
  | .freeRegion base _ => s.lastFreeIndex ≤ s.frameIndex base
  | _ => True

def LowStep (s : Pmm) (e : PmmOp × ℕ) (t : Pmm) : Prop := PmmStep s e t ∧ e.1.Ahead s

section Order

variable {slack a i n : ℕ} {s t u : Pmm} {e : PmmOp × ℕ}

/-- The wrapped scan only sees used frames. -/
theorem CursorLow.wrapped (low : CursorLow s) :
    firstFrom (fun i => !s.used i) 0 s.lastFreeIndex = none :=
  firstFrom_eq_none_iff.mpr fun j _ hj => by
    rw [low j (by omega)]
    rfl

/-- So an allocation takes the lowest clear frame. -/
theorem CursorLow.allocFrame_eq (low : CursorLow s) (h : PmmInv slack s) (hi : LowestFree s i) :
    pmmAllocFrame s = some (s.frameAddr i, takeFrame s i) := by
  have hcount : s.freeFrames ≠ 0 := by
    have hpos := PmmInv.clear_pos hi.lt hi.clear
    have hc := h.count
    omega
  have hcursor : s.lastFreeIndex ≤ i := by
    by_contra hlt
    have hused := low i (by omega)
    rw [hi.clear] at hused
    cases hused
  have hscan : firstFrom (fun i => !s.used i) s.lastFreeIndex
      (s.totalFrames - s.lastFreeIndex) = some i := by
    have hlt := hi.lt
    exact firstFrom_eq_some hcursor (by omega) (by simp [hi.clear])
      fun j _ hj => by simp [hi.below j hj]
  unfold pmmAllocFrame
  rw [if_neg hcount, hscan]

theorem exists_lowestFree (hclear : s.used i = false) (hi : i < s.totalFrames) :
    ∃ k, LowestFree s k := by
  have hex : ∃ k, k < s.totalFrames ∧ s.used k = false := ⟨i, hi, hclear⟩
  obtain ⟨hlt, hk⟩ := Nat.find_spec hex
  refine ⟨Nat.find hex, hlt, hk, fun j hj => ?_⟩
  have hmin := Nat.find_min hex hj
  by_contra hset
  exact hmin ⟨by omega, by simpa using hset⟩

theorem CursorLow.allocFrame_some (low : CursorLow s) (h : PmmInv slack s)
    (ha : pmmAllocFrame s = some (a, t)) :
    (a = 0 ∧ t = s ∧ ∀ i < s.totalFrames, s.used i = true) ∨
      ∃ i, LowestFree s i ∧ a = s.frameAddr i ∧ t = takeFrame s i := by
  rcases h.allocFrame_some ha with hnone | ⟨j, hj, hclear, _⟩
  · exact Or.inl hnone
  · obtain ⟨i, hi⟩ := exists_lowestFree hclear hj
    rw [low.allocFrame_eq h hi] at ha
    cases ha
    exact Or.inr ⟨i, hi, rfl, rfl⟩

theorem CursorLow.takeFrame (hi : LowestFree s i) : CursorLow (takeFrame s i) := by
  intro j hj
  have hlt : j < i + 1 := hj
  rw [takeFrame_used]
  rcases Nat.lt_succ_iff_lt_or_eq.mp hlt with hlt | rfl
  · rw [hi.below j hlt, Bool.or_true]
  · simp

theorem CursorLow.allocFrame (low : CursorLow s) (h : PmmInv slack s)
    (ha : pmmAllocFrame s = some (a, t)) : CursorLow t := by
  rcases low.allocFrame_some h ha with ⟨_, rfl, _⟩ | ⟨i, hi, _, rfl⟩
  · exact low
  · exact .takeFrame hi

/-- A frame that is freed below the cursor becomes the cursor. -/
theorem CursorLow.freeFrame (low : CursorLow s) (addr : ℕ) : CursorLow (pmmFreeFrame s addr) := by
  unfold pmmFreeFrame
  split
  · exact low
  · split
    · exact low
    · split
      · intro j hj
        have hclear : ({ s with frameBitmap := bitmapClear s.frameBitmap (s.frameIndex addr) } :
            Pmm).used j = (!decide (j = s.frameIndex addr) && s.used j) :=
          bitmapTest_bitmapClear _ _ _
        refine hclear.trans ?_
        dsimp only at hj
        split at hj
        · rename_i hbelow
          rw [low j (by omega)]
          simp [show j ≠ s.frameIndex addr by omega]
        · rename_i habove
          rw [low j hj]
          simp [show j ≠ s.frameIndex addr by omega]
      · exact low

theorem CursorLow.step (low : CursorLow s) (h : PmmInv slack s) (hstep : LowStep s e t) :
    CursorLow t := by
  obtain ⟨op, r⟩ := e
  obtain ⟨⟨_, hs⟩, hahead⟩ := hstep
  cases op with
  | freeRegion base size =>
      cases hs
      intro j hj
      have hcursor : (pmmFreeRegion s base size).lastFreeIndex = s.lastFreeIndex :=
        forFrames_lastFreeIndex freeBit_lastFreeIndex _ _ _
      have hle : s.lastFreeIndex ≤ s.frameIndex base := hahead
      rw [hcursor] at hj
      unfold pmmFreeRegion
      rw [forFrames_freeBit_used, low j hj, decide_eq_false (by omega)]
      rfl
  | reserveRegion base size =>
      cases hs
      intro j hj
      have hcursor : (pmmReserveRegion s base size).lastFreeIndex = s.lastFreeIndex :=
        forFrames_lastFreeIndex reserveBit_lastFreeIndex _ _ _
      rw [hcursor] at hj
      unfold pmmReserveRegion
      rw [forFrames_reserveBit_used, low j hj, Bool.or_true]
  | allocFrame => exact low.allocFrame h hs
  | freeFrame physAddr =>
      cases hs
      exact low.freeFrame physAddr

theorem run_cursorLow {es : List (PmmOp × ℕ)} (hrun : Run LowStep s es t) (h : PmmInv slack s)
    (low : CursorLow s) : PmmInv slack t ∧ SameRange s t ∧ CursorLow t :=
  hrun.invariant (I := fun u => PmmInv slack u ∧ SameRange s u ∧ CursorLow u)
    (fun _ _ _ hu hstep => ⟨(hstep.1.inv hu.1).1, hu.2.1.trans (hstep.1.inv hu.1).2,
      hu.2.2.step hu.1 hstep⟩) ⟨h, SameRange.refl s, low⟩

/-! ## The list of clear frames -/

/-- Taking the lowest clear frame takes the head of the list. -/
theorem LowestFree.freeList (hi : LowestFree s i) :
    s.freeList = i :: (Vectra.takeFrame s i).freeList := by
  have hlt := hi.lt
  have hrange : List.range s.totalFrames =
      List.range i ++ i :: (List.range (s.totalFrames - i - 1)).map (i + 1 + ·) := by
    have hsum : s.totalFrames = i + 1 + (s.totalFrames - i - 1) := by omega
    conv_lhs => rw [hsum, List.range_add, List.range_succ]
    rw [List.append_assoc]
    rfl
  have hbelow : ∀ p : Pmm, (∀ j < i, p.used j = true) →
      (List.range i).filter (fun j => !p.used j) = [] := by
    intro p hp
    refine List.filter_eq_nil_iff.mpr fun j hj => ?_
    simp [hp j (List.mem_range.mp hj)]
  have habove : ∀ j ∈ (List.range (s.totalFrames - i - 1)).map (i + 1 + ·),
      (!(Vectra.takeFrame s i).used j) = !s.used j := by
    intro j hj
    obtain ⟨k, _, rfl⟩ := List.mem_map.mp hj
    rw [takeFrame_used, decide_eq_false (by omega), Bool.false_or]
  have hsame : (Vectra.takeFrame s i).totalFrames = s.totalFrames := rfl
  have htaken : (Vectra.takeFrame s i).used i = true := by simp
  unfold Pmm.freeList
  rw [hsame, hrange, List.filter_append, List.filter_append, hbelow s hi.below,
    hbelow _ fun j hj => by rw [takeFrame_used, hi.below j hj, Bool.or_true],
    List.filter_cons_of_pos (by simp [hi.clear]), List.filter_cons_of_neg (by simp),
    List.filter_congr habove]
  rfl

theorem freeList_eq_nil_iff : s.freeList = [] ↔ ∀ i < s.totalFrames, s.used i = true := by
  unfold Pmm.freeList
  rw [List.filter_eq_nil_iff]
  simp

theorem lowestFree_of_cons {rest : List ℕ} (h : s.freeList = i :: rest) : LowestFree s i := by
  have hmem : i ∈ s.freeList := by simp [h]
  unfold Pmm.freeList at hmem
  rw [List.mem_filter, List.mem_range] at hmem
  obtain ⟨k, hk⟩ := exists_lowestFree (s := s) (i := i) (by simpa using hmem.2) hmem.1
  rw [hk.freeList, List.cons.injEq] at h
  exact h.1 ▸ hk

/-- Allocations in a row take the clear frames from the lowest on, and 0 once there is none. -/
theorem CursorLow.allocs (low : CursorLow s) (h : PmmInv slack s) {rs : List ℕ}
    (hrun : Run PmmStep s (rs.map fun r => (.allocFrame, r)) t) :
    rs = (s.freeList.take rs.length).map s.frameAddr ++
        List.replicate (rs.length - s.freeList.length) 0 ∧
      t.freeList = s.freeList.drop rs.length := by
  induction rs generalizing s with
  | nil =>
      cases hrun
      simp
  | cons r rs ih =>
      cases hrun with
      | cons head tail =>
          rcases low.allocFrame_some h head.2 with ⟨rfl, rfl, hall⟩ | ⟨i, hi, rfl, rfl⟩
          · have hnil := freeList_eq_nil_iff.mpr hall
            have hrest := ih low h tail
            rw [hnil] at hrest ⊢
            refine ⟨?_, hrest.2.trans List.drop_nil⟩
            simpa [List.replicate_succ] using hrest.1
          · have hrest := ih (.takeFrame hi) (h.takeFrame hi.lt hi.clear) tail
            have haddr : (Vectra.takeFrame s i).frameAddr = s.frameAddr :=
              funext (takeFrame_sameRange s i).frameAddr
            rw [haddr] at hrest
            rw [hi.freeList]
            refine ⟨?_, hrest.2⟩
            simpa using hrest.1

/-- They do not panic before. -/
theorem CursorLow.exists_allocs (low : CursorLow s) (h : PmmInv slack s)
    (hn : n ≤ s.freeList.length) : ∃ (rs : List ℕ) (t : Pmm), rs.length = n ∧
      Run PmmStep s (rs.map fun r => (.allocFrame, r)) t := by
  induction n generalizing s with
  | zero => exact ⟨[], s, rfl, .nil s⟩
  | succ n ih =>
      obtain ⟨i, rest, hlist⟩ := List.exists_cons_of_length_pos (l := s.freeList) (by omega)
      have hi := lowestFree_of_cons hlist
      rw [hi.freeList, List.length_cons] at hn
      obtain ⟨rs, t, hlen, hrun⟩ := ih (.takeFrame hi) (h.takeFrame hi.lt hi.clear) (by omega)
      exact ⟨s.frameAddr i :: rs, t, by simp [hlen],
        .cons ⟨trivial, low.allocFrame_eq h hi⟩ hrun⟩

end Order

/-- Before the first allocation there is no frame below the cursor. -/
theorem pmmInit_cursorLow {b b' : BootHeap} {mem : ℕ → BitVec 8} {base size : ℕ} {s : Pmm}
    (hinit : pmmInit Pmm.boot b mem base size = some (s, b')) : CursorLow s := by
  intro i hi
  rw [(pmmInit_fields hinit).2.2.2.1] at hi
  cases hi

/-- The allocator is first fit by address. In every run in which regions are released behind
the cursor only, the frames below the cursor are used, so that the wrapped scan finds nothing;
`n` allocations in a row return the `n` lowest clear frames in ascending order, and they do not
panic while there are so many. -/
theorem pmm_run_lowest {b b' : BootHeap} {mem : ℕ → BitVec 8} {base size : ℕ} {s t : Pmm}
    {es : List (PmmOp × ℕ)} (hwrap : base + size < 2 ^ 64)
    (hinit : pmmInit Pmm.boot b mem base size = some (s, b')) (hrun : Run LowStep s es t) :
    CursorLow t ∧ firstFrom (fun i => !t.used i) 0 t.lastFreeIndex = none ∧
      (∀ (rs : List ℕ) (u : Pmm), Run PmmStep t (rs.map fun r => (.allocFrame, r)) u →
        rs = (t.freeList.take rs.length).map t.frameAddr ++
            List.replicate (rs.length - t.freeList.length) 0 ∧
          u.freeList = t.freeList.drop rs.length) ∧
      ∀ n ≤ t.freeList.length, ∃ (rs : List ℕ) (u : Pmm), rs.length = n ∧
        Run PmmStep t (rs.map fun r => (.allocFrame, r)) u := by
  have hinv := pmmInit_inv rfl (range_of_wrap hwrap) hinit
  obtain ⟨ht, _, low⟩ := run_cursorLow hrun hinv (pmmInit_cursorLow hinit)
  exact ⟨low, low.wrapped, fun rs u h => low.allocs ht h, fun n hn => low.exists_allocs ht hn⟩

/-- A frame that is freed below the cursor is handed out next. -/
theorem pmm_run_lowest_freed :
    ∃ t u, Run LowStep smallPmm [(.freeRegion 0x40000 0x3000, 0), (.allocFrame, 0x40000),
        (.allocFrame, 0x41000), (.freeFrame 0x40000, 0)] t ∧
      Run PmmStep t [(.allocFrame, 0x40000), (.allocFrame, 0x42000)] u ∧
      CursorLow t ∧ [0x40000, 0x42000] = (t.freeList.take 2).map t.frameAddr ++
        List.replicate (2 - t.freeList.length) 0 := by
  obtain ⟨t, u, hrun, hallocs⟩ : ∃ t u, Run LowStep smallPmm [(.freeRegion 0x40000 0x3000, 0),
      (.allocFrame, 0x40000), (.allocFrame, 0x41000), (.freeFrame 0x40000, 0)] t ∧
      Run PmmStep t [(.allocFrame, 0x40000), (.allocFrame, 0x42000)] u :=
    ⟨_, _, .cons ⟨⟨⟨by decide, by decide⟩, rfl⟩, Nat.zero_le _⟩ (.cons ⟨⟨trivial, rfl⟩, trivial⟩
      (.cons ⟨⟨trivial, rfl⟩, trivial⟩ (.cons ⟨⟨trivial, rfl⟩, trivial⟩ (.nil _)))),
      .cons ⟨trivial, rfl⟩ (.cons ⟨trivial, rfl⟩ (.nil _))⟩
  obtain ⟨low, _, hlist, _⟩ := pmm_run_lowest (by decide) smallPmm_init hrun
  exact ⟨t, u, hrun, hallocs, low, (hlist [0x40000, 0x42000] u hallocs).1⟩

end Vectra

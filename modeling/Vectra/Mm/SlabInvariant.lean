import Vectra.Mm.Slab

/-!
# The invariant of one slab cache

A cache owns used frames, threads its free list through slots of these
frames, and never writes anywhere else. The slots that are not on the free
list are the allocated ones; each operation changes that set by exactly
the object it returns or receives.
-/

namespace Vectra

open Lib SlabMem

/-- The memory is unchanged on `len` addresses from `lo` on. -/
def SameIn {M C : Type} [SlabMem M C] (m m' : M) (lo len : ℕ) : Prop :=
  ∀ x, lo ≤ x → x < lo + len → cell m' x = cell m x

/-- The memory is unchanged off `len` addresses from `lo` on. -/
def SameOff {M C : Type} [SlabMem M C] (m m' : M) (lo len : ℕ) : Prop :=
  ∀ x, x < lo ∨ lo + len ≤ x → cell m' x = cell m x

/-- A managed frame whose bit is set. -/
def UsedFrame (p : Pmm) (page : ℕ) : Prop :=
  ∃ i < p.totalFrames, page = p.frameAddr i ∧ p.used i = true

/-- An object size and an address range on which the carving loop of
`slab_grow` computes without overflow. -/
structure SlabFits (p : Pmm) (objSize : ℕ) : Prop where
  size_ge : 8 ≤ objSize
  size_dvd : objSize % 8 = 0
  base_pos : 0 < p.memPhysBase
  room : p.memPhysBase + p.totalFrames * pageSize + objSize < 2 ^ 64

/-- The state of a cache with the pages and the free slots it has. -/
structure SlabInv {M C : Type} [SlabMem M C] (m : M) (p : Pmm) (c : SlabCache)
    (pages free : List ℕ) : Prop where
  pageChain : Chain (fun a => (frame m a).next) c.slabs pages
  freeChain : Chain (link m) c.freeObjects free
  free_slot : ∀ x ∈ free, ∃ page ∈ pages, x ∈ pageSlots c.objSize page
  page_used : ∀ page ∈ pages, UsedFrame p page

/-- A slot that has been carved from the pages of the cache. -/
def IsSlot (objSize : ℕ) (pages : List ℕ) (x : ℕ) : Prop :=
  ∃ page ∈ pages, x ∈ pageSlots objSize page

/-- A slot that is handed out. -/
def Allocated (objSize : ℕ) (pages free : List ℕ) (x : ℕ) : Prop :=
  IsSlot objSize pages x ∧ x ∉ free

section Frames

variable {slack i j : ℕ} {p p' : Pmm} {page page' : ℕ}

theorem frameAddr_room (h : PmmInv slack p) (hi : i < p.totalFrames) :
    p.frameAddr i + pageSize ≤ p.memPhysBase + p.totalFrames * pageSize ∧
      p.memPhysBase ≤ p.frameAddr i := by
  rw [h.frameAddr_eq hi]
  unfold pageSize
  omega

theorem UsedFrame.bounds (h : PmmInv slack p) (hp : UsedFrame p page) :
    p.memPhysBase ≤ page ∧ page + pageSize ≤ p.memPhysBase + p.totalFrames * pageSize := by
  obtain ⟨i, hi, rfl, _⟩ := hp
  have hroom := frameAddr_room h hi
  exact ⟨hroom.2, hroom.1⟩

theorem UsedFrame.separate (h : PmmInv slack p) (hp : UsedFrame p page)
    (hp' : UsedFrame p page') (hne : page ≠ page') :
    page + pageSize ≤ page' ∨ page' + pageSize ≤ page := by
  obtain ⟨i, hi, rfl, _⟩ := hp
  obtain ⟨j, hj, rfl, _⟩ := hp'
  exact frameAddr_separate h hi hj fun hij => hne (by rw [hij])

theorem UsedFrame.ne_of_clear (h : PmmInv slack p) (hp : UsedFrame p page)
    (hi : i < p.totalFrames) (hclear : p.used i = false) : page ≠ p.frameAddr i := by
  obtain ⟨j, hj, rfl, hset⟩ := hp
  intro heq
  rw [(frameAddr_inj h hj hi).mp heq, hclear] at hset
  cases hset

/-- Used frames stay used while bits are only set. -/
theorem UsedFrame.mono (hp : UsedFrame p page) (hrange : SameRange p p')
    (hused : ∀ i, p.used i = true → p'.used i = true) : UsedFrame p' page := by
  obtain ⟨i, hi, rfl, hset⟩ := hp
  exact ⟨i, by rw [hrange.2]; exact hi, by simp [Pmm.frameAddr, hrange.1], hused i hset⟩

theorem SlabFits.sameRange {objSize : ℕ} (h : SlabFits p objSize) (hrange : SameRange p p') :
    SlabFits p' objSize where
  size_ge := h.size_ge
  size_dvd := h.size_dvd
  base_pos := by rw [hrange.1]; exact h.base_pos
  room := by rw [hrange.1, hrange.2]; exact h.room

/-- The object size of a new cache, when it fits into a page. -/
theorem slabObjSize_fits {size : ℕ} (hbase : 0 < p.memPhysBase)
    (hroom : p.memPhysBase + p.totalFrames * pageSize + pageSize ≤ 2 ^ 64)
    (hsize : size ≤ pageSize - frameMetaSize) : SlabFits p (slabObjSize size) := by
  have hobj : slabObjSize size = ((if size < 8 then 8 else size) + 7) / 8 * 8 := by
    unfold slabObjSize
    exact alignUp_eight (by unfold pageSize frameMetaSize at hsize; split <;> omega)
  unfold pageSize frameMetaSize at hsize
  unfold pageSize at hroom
  refine ⟨?_, ?_, hbase, ?_⟩
  · rw [hobj]
    split <;> omega
  · rw [hobj]
    omega
  · rw [hobj]
    unfold pageSize
    split <;> omega

theorem UsedFrame.slot_bounds {objSize x : ℕ} (h : PmmInv slack p) (hp : UsedFrame p page)
    (hx : x ∈ pageSlots objSize page) : page + 16 ≤ x ∧ x + objSize ≤ page + pageSize := by
  have hb := hp.bounds h
  have hr := h.range
  have hslot := mem_pageSlots (by omega) hx
  exact ⟨hslot.1, hslot.2.1⟩

end Frames

section Slots

variable {slack objSize x y : ℕ} {p : Pmm} {pages : List ℕ}

/-- Distinct slots of one cache do not overlap. -/
theorem IsSlot.separate (h : PmmInv slack p) (hpages : ∀ page ∈ pages, UsedFrame p page)
    (hx : IsSlot objSize pages x) (hy : IsSlot objSize pages y) (hne : x ≠ y) :
    x + objSize ≤ y ∨ y + objSize ≤ x := by
  obtain ⟨px, hpx, hxs⟩ := hx
  obtain ⟨py, hpy, hys⟩ := hy
  by_cases heq : px = py
  · subst heq
    exact pageSlots_separate hxs hys hne
  · have hsep := (hpages px hpx).separate h (hpages py hpy) heq
    have hbx := (hpages px hpx).slot_bounds h hxs
    have hby := (hpages py hpy).slot_bounds h hys
    omega

/-- No slot overlaps the header of a page of its cache. -/
theorem IsSlot.off_header (h : PmmInv slack p) (hpages : ∀ page ∈ pages, UsedFrame p page)
    (hx : IsSlot objSize pages x) {page : ℕ} (hpage : page ∈ pages) :
    page + 16 ≤ x ∨ x + objSize ≤ page := by
  obtain ⟨px, hpx, hxs⟩ := hx
  have hbx := (hpages px hpx).slot_bounds h hxs
  by_cases heq : px = page
  · rw [heq] at hbx
    omega
  · have hsep := (hpages px hpx).separate h (hpages page hpage) heq
    unfold pageSize at *
    omega

theorem IsSlot.in_page (h : PmmInv slack p) (hpages : ∀ page ∈ pages, UsedFrame p page)
    (hx : IsSlot objSize pages x) :
    ∃ page ∈ pages, page + 16 ≤ x ∧ x + objSize ≤ page + pageSize := by
  obtain ⟨page, hpage, hxs⟩ := hx
  exact ⟨page, hpage, (hpages page hpage).slot_bounds h hxs⟩

end Slots

namespace SlabInv

variable {M C : Type} [SlabMem M C] {m m' : M} {p p' : Pmm} {c c' : SlabCache}
  {pages free : List ℕ} {slack x : ℕ}

theorem new (m : M) (p : Pmm) (objSize : ℕ) : SlabInv m p (newSlabCache objSize) [] [] where
  pageChain := rfl
  freeChain := rfl
  free_slot := by simp
  page_used := by simp

theorem free_isSlot (h : SlabInv m p c pages free) (hx : x ∈ free) : IsSlot c.objSize pages x :=
  h.free_slot x hx

/-- Only the page headers and the links of the free slots carry the state
of a cache. -/
theorem congr (h : SlabInv m p c pages free) (hrange : SameRange p p')
    (hused : ∀ i, p.used i = true → p'.used i = true)
    (hheader : ∀ page ∈ pages, SameIn m m' page 16)
    (hlink : ∀ x ∈ free, SameIn m m' x 8) : SlabInv m' p' c pages free where
  pageChain := h.pageChain.congr fun page hpage => by
    rw [frame_congr m m' page (hheader page hpage)]
  freeChain := h.freeChain.congr fun x hx => link_congr m m' x (hlink x hx)
  free_slot := h.free_slot
  page_used := fun page hpage => (h.page_used page hpage).mono hrange hused

/-- Giving back frames the cache does not own keeps its state. -/
theorem congr_used (h : SlabInv m p c pages free)
    (hused : ∀ page ∈ pages, UsedFrame p page → UsedFrame p' page) :
    SlabInv m p' c pages free where
  pageChain := h.pageChain
  freeChain := h.freeChain
  free_slot := h.free_slot
  page_used := fun page hpage => hused page hpage (h.page_used page hpage)

/-- A write into an allocated slot leaves the cache as it is. -/
theorem write_slot (hp : PmmInv slack p) (hfit : SlabFits p c.objSize)
    (h : SlabInv m p c pages free) (hx : Allocated c.objSize pages free x) {lo len : ℕ}
    (hlo : x ≤ lo) (hhi : lo + len ≤ x + c.objSize) (hsame : SameOff m m' lo len) :
    SlabInv m' p c pages free := by
  have hge := hfit.size_ge
  refine h.congr (SameRange.refl p) (fun _ hi => hi) ?_ ?_
  · intro page hpage y hy hy'
    have hoff := hx.1.off_header hp h.page_used hpage
    exact hsame y (by omega)
  · intro y hy z hz hz'
    have hne : x ≠ y := fun heq => hx.2 (heq ▸ hy)
    have hsep := hx.1.separate hp h.page_used (h.free_isSlot hy) hne
    exact hsame z (by omega)

/-- `slab_free` of an allocated object. -/
theorem slabFree (hp : PmmInv slack p) (hfit : SlabFits p c.objSize)
    (h : SlabInv m p c pages free) (hx : Allocated c.objSize pages free x) :
    SlabInv (slabFree m c x).1 p (slabFree m c x).2 pages (x :: free) ∧
      (slabFree m c x).2.objSize = c.objSize ∧ SameOff m (slabFree m c x).1 x 8 := by
  have hge := hfit.size_ge
  have hr := hp.range
  obtain ⟨page, hpage, hin⟩ := hx.1.in_page hp h.page_used
  have hbound := (h.page_used page hpage).bounds hp
  have hne : x ≠ 0 := by omega
  have hfree : Vectra.slabFree m c x =
      (setLink m x c.freeObjects, { c with freeObjects := x }) := by
    simp [Vectra.slabFree, hne]
  have hhead : c.freeObjects < 2 ^ 64 := by
    cases free with
    | nil =>
        have hzero : c.freeObjects = 0 := h.freeChain
        omega
    | cons y ys =>
        obtain ⟨py, hpy, hyin⟩ := (h.free_isSlot (List.mem_cons_self)).in_page hp h.page_used
        have hby := (h.page_used py hpy).bounds hp
        have hy : c.freeObjects = y := h.freeChain.1
        omega
  have hsame : SameOff m (setLink m x c.freeObjects) x 8 := fun y hy => cell_setLink _ _ _ _ hy
  have hkeep := h.write_slot hp hfit hx (le_refl x) (by omega) hsame
  rw [hfree]
  refine ⟨⟨hkeep.pageChain, ⟨rfl, hne, ?_⟩, ?_, hkeep.page_used⟩, rfl, hsame⟩
  · rw [link_setLink _ _ _ hhead]
    exact hkeep.freeChain
  · intro y hy
    rcases List.mem_cons.mp hy with rfl | hy
    · exact hx.1
    · exact h.free_slot y hy

theorem slabs_lt (hp : PmmInv slack p) (h : SlabInv m p c pages free) : c.slabs < 2 ^ 64 := by
  have hr := hp.range
  cases pages with
  | nil =>
      have hzero : c.slabs = 0 := h.pageChain
      omega
  | cons page pages =>
      have hb := (h.page_used page (List.mem_cons_self)).bounds hp
      have hpage : c.slabs = page := h.pageChain.1
      unfold pageSize at *
      omega

/-- `slab_grow` on an empty free list: it gets no frame, or it adds one
page, all of whose slots are free, and writes nothing off that page. -/
theorem slabGrow_cases (hp : PmmInv slack p) (hfit : SlabFits p c.objSize)
    (h : SlabInv m p c pages []) :
    (slabGrow m p c = none ∧ ∀ i < p.totalFrames, p.used i = true) ∨
      ∃ i < p.totalFrames, p.used i = false ∧ ∃ m' c',
        slabGrow m p c = some (m', takeFrame p i, c') ∧ c'.objSize = c.objSize ∧
          SameOff m m' (p.frameAddr i) pageSize ∧
          SlabInv m' (takeFrame p i) c' (p.frameAddr i :: pages)
            (pageSlots c.objSize (p.frameAddr i)).reverse := by
  rcases hp.allocFrame_cases with ⟨hnone, _, hall⟩ | ⟨hzero, hall⟩ | ⟨i, hi, hclear, halloc⟩
  · exact Or.inl ⟨by simp [slabGrow, hnone], hall⟩
  · exact Or.inl ⟨by simp [slabGrow, hzero], hall⟩
  · right
    have hge := hfit.size_ge
    have hroom := hfit.room
    have hbase := hfit.base_pos
    obtain ⟨hpage, hlow⟩ := frameAddr_room hp hi
    generalize hpg : p.frameAddr i = page at *
    have hwrap : page + pageSize ≤ 2 ^ 64 := by omega
    have hpage64 : page < 2 ^ 64 := by
      unfold pageSize at *
      omega
    obtain ⟨hfirst, hfirst', _⟩ := firstSlot_bounds hwrap
    have hstop : (page + pageSize) % 2 ^ 64 = page + pageSize := Nat.mod_eq_of_lt (by omega)
    have hslack : firstSlot page ≤ page + pageSize := by
      unfold pageSize
      omega
    have hdiv := Nat.div_mul_le_self (page + pageSize - firstSlot page) c.objSize
    have hdiv' := Nat.lt_mul_of_div_lt
      (Nat.lt_add_one ((page + pageSize - firstSlot page) / c.objSize)) (by omega : 0 < c.objSize)
    have hn : (page + pageSize - firstSlot page) / c.objSize < 2 ^ 64 :=
      lt_of_le_of_lt (Nat.div_le_self _ _) (by omega)
    have hempty : c.freeObjects = 0 := h.freeChain
    have hchain : Chain (link (setFrame m page ⟨page, c.slabs⟩)) 0 [] := rfl
    obtain ⟨m', head', hcarve, _, hslots, hsame⟩ :=
      carve_spec hge (by omega : page + pageSize + c.objSize < 2 ^ 64)
        (by omega : 0 < firstSlot page) (by omega) (by omega) hn (by omega) hchain (by simp)
    have hoff : SameOff m m' page pageSize := by
      intro x hx
      unfold pageSize at hx hslack hsame
      rw [hsame x (by omega), cell_setFrame _ _ _ _ (by omega)]
    have hmeta : frame m' page = ⟨page, c.slabs⟩ := by
      rw [frame_congr _ m' page fun x hx hx' => hsame x (by omega)]
      exact frame_setFrame _ _ _ hpage64 (h.slabs_lt hp)
    have hgrow : slabGrow m p c =
        some (m', takeFrame p i, { c with slabs := page, freeObjects := head' }) := by
      have hne : page ≠ 0 := by omega
      simp only [slabGrow, halloc, hne, if_false, hstop, hempty, hcarve]
    have hclean : ∀ page' ∈ pages, page' + pageSize ≤ page ∨ page + pageSize ≤ page' := by
      intro page' hpage'
      have hne := (h.page_used page' hpage').ne_of_clear hp hi hclear
      obtain ⟨j, hj, hjpage, _⟩ := h.page_used page' hpage'
      rw [hpg] at hne
      rw [← hpg, hjpage]
      rw [← hpg, hjpage] at hne
      exact frameAddr_separate hp hj hi fun hji => hne (by rw [hji])
    have hold : SlabInv m' (takeFrame p i) c pages [] :=
      h.congr (takeFrame_sameRange p i) (fun j hj => by rw [takeFrame_used, hj, Bool.or_true])
        (by
          intro page' hpage' x hx hx'
          have hsep := hclean page' hpage'
          unfold pageSize at hsep hoff
          exact hoff x (by omega))
        (by simp)
    subst hpg
    refine ⟨i, hi, hclear, m', _, hgrow, rfl, hoff, ?_, ?_, ?_, ?_⟩
    · refine ⟨rfl, by omega, ?_⟩
      simp only [hmeta]
      exact hold.pageChain
    · simpa [pageSlots] using hslots
    · intro x hx
      exact ⟨_, List.mem_cons_self, List.mem_reverse.mp hx⟩
    · intro page' hpage'
      rcases List.mem_cons.mp hpage' with rfl | hpage'
      · exact ⟨i, hi, rfl, by simp⟩
      · exact hold.page_used page' hpage'

/-- Popping the free list hands out its head. -/
theorem slabPop_cons {xs : List ℕ} (h : SlabInv m p c pages (x :: xs)) :
    (slabPop m c).1 = x ∧ (slabPop m c).2.objSize = c.objSize ∧
      SlabInv m p (slabPop m c).2 pages xs := by
  obtain ⟨hhead, hne, hrest⟩ := h.freeChain
  have hpop : slabPop m c = (x, { c with freeObjects := link m x }) := by
    simp [slabPop, hhead, hne]
  rw [hpop]
  exact ⟨rfl, rfl, h.pageChain, hrest, fun y hy => h.free_slot y (List.mem_cons_of_mem x hy),
    h.page_used⟩

theorem slabPop_nil (h : SlabInv m p c pages []) : slabPop m c = (0, c) := by
  have hempty : c.freeObjects = 0 := h.freeChain
  simp [slabPop, hempty]

end SlabInv

/-! ## `slab_alloc` -/

/-- How `slab_alloc` changes a cache: it may add one page, and it hands out
at most the one slot that it returns. -/
structure SlabAllocated {M C : Type} [SlabMem M C] (m : M) (p : Pmm) (c : SlabCache)
    (pages free : List ℕ) (x : ℕ) (m' : M) (p' : Pmm) (c' : SlabCache)
    (pages' free' : List ℕ) : Prop where
  inv : SlabInv m' p' c' pages' free'
  objSize : c'.objSize = c.objSize
  grown : (pages' = pages ∧ m' = m ∧ p' = p) ∨
    ∃ i < p.totalFrames, p.used i = false ∧ pages' = p.frameAddr i :: pages ∧
      p' = takeFrame p i ∧ SameOff m m' (p.frameAddr i) pageSize
  fresh : ¬ Allocated c.objSize pages free x
  allocated : ∀ y, Allocated c.objSize pages' free' y ↔
    (x ≠ 0 ∧ y = x) ∨ Allocated c.objSize pages free y
  null : x = 0 → free = [] ∧ ∃ i < p.totalFrames, p.used i = false ∧
    pageSlots c.objSize (p.frameAddr i) = []

section Alloc

variable {M C : Type} [SlabMem M C] {m m' : M} {p p' : Pmm} {c c' : SlabCache}
  {pages free pages' free' : List ℕ} {slack x : ℕ}

theorem not_allocated_zero (hp : PmmInv slack p) (h : SlabInv m p c pages free) :
    ¬ Allocated c.objSize pages free 0 := by
  rintro ⟨hslot, _⟩
  obtain ⟨page, _, hin⟩ := hslot.in_page hp h.page_used
  omega

/-- Everything `slab_alloc` can do. -/
theorem SlabInv.slabAlloc_cases (hp : PmmInv slack p) (hfit : SlabFits p c.objSize)
    (h : SlabInv m p c pages free) :
    (slabAlloc m p c = none ∧ free = [] ∧ ∀ i < p.totalFrames, p.used i = true) ∨
      ∃ x m' p' c' pages' free', slabAlloc m p c = some (x, m', p', c') ∧
        SlabAllocated m p c pages free x m' p' c' pages' free' := by
  cases free with
  | cons y ys =>
      right
      obtain ⟨hy, hsize, hinv⟩ := h.slabPop_cons
      have hnodup := List.nodup_cons.mp h.freeChain.nodup
      have hne : y ≠ 0 := h.freeChain.ne_zero List.mem_cons_self
      have halloc : slabAlloc m p c = some (y, m, p, (slabPop m c).2) := by
        have hhead : c.freeObjects = y := h.freeChain.1
        rw [← hy]
        simp [slabAlloc, hhead, hne]
      refine ⟨y, m, p, (slabPop m c).2, pages, ys, halloc, hinv, hsize, Or.inl ⟨rfl, rfl, rfl⟩,
        fun hy => hy.2 List.mem_cons_self, ?_, fun hzero => absurd hzero hne⟩
      intro z
      constructor
      · rintro ⟨hslot, hz⟩
        by_cases hzy : z = y
        · exact Or.inl ⟨hne, hzy⟩
        · refine Or.inr ⟨hslot, ?_⟩
          intro hmem
          rcases List.mem_cons.mp hmem with hmem | hmem
          · exact hzy hmem
          · exact hz hmem
      · rintro (⟨_, rfl⟩ | ⟨hslot, hz⟩)
        · exact ⟨h.free_isSlot List.mem_cons_self, hnodup.1⟩
        · exact ⟨hslot, fun hmem => hz (List.mem_cons_of_mem y hmem)⟩
  | nil =>
      have hempty : c.freeObjects = 0 := h.freeChain
      rcases h.slabGrow_cases hp hfit with ⟨hnone, hall⟩ |
        ⟨i, hi, hclear, m', c', hgrow, hsize, hoff, hinv⟩
      · exact Or.inl ⟨by simp [slabAlloc, hempty, hnone], rfl, hall⟩
      · right
        have hslots : ∀ z, IsSlot c.objSize (p.frameAddr i :: pages) z ↔
            z ∈ pageSlots c.objSize (p.frameAddr i) ∨ IsSlot c.objSize pages z := by
          intro z
          simp [IsSlot]
        have hnew : ∀ z, z ∈ pageSlots c.objSize (p.frameAddr i) → ¬ IsSlot c.objSize pages z := by
          rintro z hz ⟨page, hpage, hzp⟩
          have hused := hinv.page_used
          have hp' := hp.takeFrame hi hclear
          have hb := (hused _ List.mem_cons_self).slot_bounds hp' hz
          have hb' := (hused page (List.mem_cons_of_mem _ hpage)).slot_bounds hp' hzp
          have hne : page ≠ p.frameAddr i := (h.page_used page hpage).ne_of_clear hp hi hclear
          have hsep := (hused page (List.mem_cons_of_mem _ hpage)).separate hp'
            (hused _ List.mem_cons_self) hne
          have hge := hfit.size_ge
          unfold pageSize at *
          omega
        have hgrown : ∃ j < p.totalFrames, p.used j = false ∧
            p.frameAddr i :: pages = p.frameAddr j :: pages ∧ takeFrame p i = takeFrame p j ∧
              SameOff m m' (p.frameAddr j) pageSize :=
          ⟨i, hi, hclear, rfl, rfl, hoff⟩
        cases hrev : (pageSlots c.objSize (p.frameAddr i)).reverse with
        | nil =>
            have hnil : pageSlots c.objSize (p.frameAddr i) = [] := List.reverse_eq_nil_iff.mp hrev
            rw [hrev] at hinv
            have hpop := hinv.slabPop_nil
            refine ⟨0, m', takeFrame p i, c', _, [], ?_, hinv, hsize, Or.inr hgrown,
              not_allocated_zero hp h, ?_, fun _ => ⟨rfl, i, hi, hclear, hnil⟩⟩
            · simp [slabAlloc, hempty, hgrow, hpop]
            · intro z
              simp only [Allocated, hslots, hnil, List.not_mem_nil, false_or]
              simp
        | cons y ys =>
            rw [hrev] at hinv
            obtain ⟨hy, hsize', hinv'⟩ := hinv.slabPop_cons
            have hmem : ∀ z, z ∈ pageSlots c.objSize (p.frameAddr i) ↔ z = y ∨ z ∈ ys := by
              intro z
              rw [← List.mem_reverse, hrev, List.mem_cons]
            have hnodup := List.nodup_cons.mp hinv.freeChain.nodup
            have hne : y ≠ 0 := hinv.freeChain.ne_zero List.mem_cons_self
            refine ⟨y, m', takeFrame p i, (slabPop m' c').2, _, ys, ?_, hinv',
              by rw [hsize', hsize],
              Or.inr hgrown, ?_, ?_, fun hzero => absurd hzero hne⟩
            · simp [slabAlloc, hempty, hgrow, hy]
            · rintro ⟨hslot, _⟩
              exact hnew y ((hmem y).mpr (Or.inl rfl)) hslot
            · intro z
              simp only [Allocated, hslots, hmem, List.not_mem_nil, not_false_eq_true, and_true]
              constructor
              · rintro ⟨(rfl | hz) | hz, hnot⟩
                · exact Or.inl ⟨hne, rfl⟩
                · exact absurd hz hnot
                · exact Or.inr hz
              · rintro (⟨_, rfl⟩ | hz)
                · exact ⟨Or.inl (Or.inl rfl), hnodup.1⟩
                · exact ⟨Or.inr hz, fun hys => hnew z ((hmem z).mpr (Or.inr hys)) hz⟩

theorem SlabInv.slabAlloc (hp : PmmInv slack p) (hfit : SlabFits p c.objSize)
    (h : SlabInv m p c pages free) (hs : Vectra.slabAlloc m p c = some (x, m', p', c')) :
    ∃ pages' free', SlabAllocated m p c pages free x m' p' c' pages' free' := by
  rcases h.slabAlloc_cases hp hfit with ⟨hnone, _⟩ | ⟨y, n, q, d, pages', free', hsome, hres⟩
  · rw [hnone] at hs
    cases hs
  · rw [hsome] at hs
    cases hs
    exact ⟨pages', free', hres⟩

/-- A growth writes to a clear frame: the `frame_t`, and the first words of the new slots. -/
theorem slabGrow_writes (hp : PmmInv slack p) (hfit : SlabFits p c.objSize)
    (hs : slabGrow m p c = some (m', p', c')) :
    ∃ i < p.totalFrames, p.used i = false ∧ p' = takeFrame p i ∧ c'.slabs = p.frameAddr i ∧
      ∀ y, (y < p.frameAddr i ∨ p.frameAddr i + 16 ≤ y) →
        (∀ x ∈ pageSlots c.objSize (p.frameAddr i), y < x ∨ x + 8 ≤ y) →
        cell m' y = cell m y := by
  have hge := hfit.size_ge
  have hroom := hfit.room
  have hbase := hfit.base_pos
  rcases hp.allocFrame_cases with ⟨hnone, _, _⟩ | ⟨hzero, _⟩ | ⟨i, hi, hclear, halloc⟩
  · simp [slabGrow, hnone] at hs
  · simp [slabGrow, hzero] at hs
  · obtain ⟨hpage, hlow⟩ := frameAddr_room hp hi
    refine ⟨i, hi, hclear, ?_⟩
    generalize p.frameAddr i = page at *
    have hne : page ≠ 0 := by omega
    obtain ⟨hfirst, hfirst', _⟩ := firstSlot_bounds (by omega : page + pageSize ≤ 2 ^ 64)
    have hstop : (page + pageSize) % 2 ^ 64 = page + pageSize := Nat.mod_eq_of_lt (by omega)
    have hslack : firstSlot page ≤ page + pageSize := by
      unfold pageSize
      omega
    have hdiv := Nat.div_mul_le_self (page + pageSize - firstSlot page) c.objSize
    have hdiv' := Nat.lt_mul_of_div_lt
      (Nat.lt_add_one ((page + pageSize - firstSlot page) / c.objSize)) (by omega : 0 < c.objSize)
    unfold slabGrow at hs
    rw [halloc] at hs
    dsimp only at hs
    rw [if_neg hne, hstop] at hs
    cases hcarve : carve (setFrame m page ⟨page, c.slabs⟩) c.freeObjects c.objSize
        (page + pageSize) (firstSlot page) (2 ^ 64) with
    | none =>
        rw [hcarve] at hs
        cases hs
    | some a =>
        obtain ⟨m₁, head⟩ := a
        rw [hcarve] at hs
        simp only [Option.some.injEq, Prod.mk.injEq] at hs
        obtain ⟨rfl, rfl, rfl⟩ := hs
        refine ⟨rfl, rfl, fun y hy hword => ?_⟩
        have hstep : page + pageSize + c.objSize < 2 ^ 64 := by omega
        rw [carve_cell hstep (by omega) (by omega) hcarve hword]
        exact cell_setFrame _ _ _ _ hy

/-- A growth writes the new slots in their first words only. -/
theorem slabGrow_cell (hp : PmmInv slack p) (hfit : SlabFits p c.objSize)
    (hs : slabGrow m p c = some (m', p', c')) (hx : x ∈ pageSlots c.objSize c'.slabs) :
    SameIn m m' (x + 8) (c.objSize - 8) := by
  have hge := hfit.size_ge
  obtain ⟨i, hi, _, _, hslabs, hsame⟩ := slabGrow_writes hp hfit hs
  have hpage := (frameAddr_room hp hi).1
  have hrange := hp.range
  rw [hslabs] at hx
  have hslot := mem_pageSlots (by omega) hx
  intro y hlo hhi
  refine hsame y (by omega) fun z hz => ?_
  by_cases hzx : z = x
  · omega
  · have hsep := pageSlots_separate hz hx hzx
    omega

/-- What the rest of the kernel may do meanwhile: the frames in use stay in use, with their
bytes. -/
structure FramesKept {M C : Type} [SlabMem M C] (slack : ℕ) (m m' : M) (p p' : Pmm) : Prop where
  pmm : PmmInv slack p'
  range : SameRange p p'
  used : ∀ i, p.used i = true → p'.used i = true
  bytes : ∀ i < p.totalFrames, p.used i = true → SameIn m m' (p.frameAddr i) pageSize

/-- An allocation on any cache of this object size, whatever its lists are. -/
theorem slabAlloc_kept (hp : PmmInv slack p) (hfit : SlabFits p c.objSize)
    (hs : Vectra.slabAlloc m p c = some (x, m', p', c')) : FramesKept slack m m' p p' := by
  unfold Vectra.slabAlloc at hs
  split at hs
  · cases hgrow : slabGrow m p c with
    | none => simp [hgrow] at hs
    | some g =>
        obtain ⟨gm, gp, gc⟩ := g
        simp only [hgrow, Option.some.injEq, Prod.mk.injEq] at hs
        obtain ⟨_, rfl, rfl, _⟩ := hs
        obtain ⟨i, hi, hclear, rfl, _, hsame⟩ := slabGrow_writes hp hfit hgrow
        have hpage := (frameAddr_room hp hi).1
        have hrange := hp.range
        have hge := hfit.size_ge
        refine ⟨hp.takeFrame hi hclear, takeFrame_sameRange p i, fun j hj => ?_,
          fun j hj hset y hlo hhi => ?_⟩
        · rw [takeFrame_used, hj, Bool.or_true]
        · have hsep := frameAddr_separate hp hi hj (by
            rintro rfl
            rw [hclear] at hset
            cases hset)
          have hoff : y < p.frameAddr i ∨ p.frameAddr i + pageSize ≤ y := by omega
          refine hsame y (by unfold pageSize at hoff; omega) fun z hz => ?_
          have hslot := mem_pageSlots (by omega) hz
          omega
  · cases hs
    exact ⟨hp, .refl p, fun _ hj => hj, fun _ _ _ _ _ _ => rfl⟩

/-- An allocation hands out a slot with its old bytes, but for the first word. -/
theorem SlabInv.slabAlloc_cell (hp : PmmInv slack p) (hfit : SlabFits p c.objSize)
    (h : SlabInv m p c pages free) (hs : Vectra.slabAlloc m p c = some (x, m', p', c'))
    (hne : x ≠ 0) : SameIn m m' (x + 8) (c.objSize - 8) := by
  unfold Vectra.slabAlloc at hs
  by_cases hhead : c.freeObjects = 0
  · rw [if_pos hhead] at hs
    have hnil := h.freeChain.eq_nil_iff.mpr hhead
    rw [hnil] at h
    rcases h.slabGrow_cases hp hfit with ⟨hnone, _⟩ | ⟨i, _, _, m₁, c₁, hgrow, _, _, hinv⟩
    · simp [hnone] at hs
    · simp only [hgrow, Option.some.injEq, Prod.mk.injEq] at hs
      obtain ⟨hx, rfl, _, _⟩ := hs
      have hpage : c₁.slabs = p.frameAddr i := hinv.pageChain.1
      cases hrev : (pageSlots c.objSize (p.frameAddr i)).reverse with
      | nil =>
          rw [hrev] at hinv
          rw [hinv.slabPop_nil] at hx
          exact absurd hx.symm hne
      | cons y ys =>
          rw [hrev] at hinv
          rw [hinv.slabPop_cons.1] at hx
          subst hx
          refine slabGrow_cell hp hfit hgrow ?_
          rw [hpage, ← List.mem_reverse, hrev]
          exact List.mem_cons_self
  · rw [if_neg hhead] at hs
    cases hs
    exact fun _ _ _ => rfl

namespace SlabAllocated

variable (h : SlabAllocated m p c pages free x m' p' c' pages' free')

include h

theorem sameRange : SameRange p p' := by
  rcases h.grown with ⟨_, _, rfl⟩ | ⟨i, _, _, _, rfl, _⟩
  · exact SameRange.refl _
  · exact takeFrame_sameRange _ _

theorem pmmInv (hp : PmmInv slack p) : PmmInv slack p' := by
  rcases h.grown with ⟨_, _, rfl⟩ | ⟨i, hi, hclear, _, rfl, _⟩
  · exact hp
  · exact hp.takeFrame hi hclear

theorem used_mono {i : ℕ} (hi : p.used i = true) : p'.used i = true := by
  rcases h.grown with ⟨_, _, rfl⟩ | ⟨j, _, _, _, rfl, _⟩
  · exact hi
  · rw [takeFrame_used, hi, Bool.or_true]

/-- The other free slots stay free. -/
theorem free_kept (hinv : SlabInv m p c pages free) {y : ℕ} (hy : y ∈ free) :
    y = x ∨ y ∈ free' := by
  by_cases hfree : y ∈ free'
  · exact Or.inr hfree
  · obtain ⟨page, hpage, hslot⟩ := hinv.free_slot y hy
    have hpage' : page ∈ pages' := by
      rcases h.grown with ⟨rfl, _⟩ | ⟨i, _, _, rfl, _⟩
      · exact hpage
      · exact List.mem_cons_of_mem _ hpage
    rcases (h.allocated y).mp ⟨⟨page, hpage', hslot⟩, hfree⟩ with ⟨_, hyx⟩ | hold
    · exact Or.inl hyx
    · exact absurd hy hold.2

/-- Only a fresh page is written. -/
theorem sameIn {lo len : ℕ}
    (hoff : ∀ i < p.totalFrames, p.used i = false →
      lo + len ≤ p.frameAddr i ∨ p.frameAddr i + pageSize ≤ lo) : SameIn m m' lo len := by
  intro y hlo hhi
  rcases h.grown with ⟨_, rfl, _⟩ | ⟨i, hi, hclear, _, _, hsame⟩
  · rfl
  · have hsep := hoff i hi hclear
    exact hsame y (by omega)

/-- A cache whose slots fit into a page never returns `NULL`. -/
theorem ne_zero (hp : PmmInv slack p) (hge : 0 < c.objSize) (hsmall : c.objSize + 23 ≤ pageSize) :
    x ≠ 0 := by
  intro hzero
  obtain ⟨_, i, hi, _, hnil⟩ := h.null hzero
  have hroom := (frameAddr_room hp hi).1
  have hrange := hp.range
  have hfirst := (firstSlot_bounds (by omega : p.frameAddr i + pageSize ≤ 2 ^ 64)).2.1
  have hcount : 1 ≤ (p.frameAddr i + pageSize - firstSlot (p.frameAddr i)) / c.objSize :=
    (Nat.one_le_div_iff hge).mpr (by omega)
  have hmem : firstSlot (p.frameAddr i) ∈ pageSlots c.objSize (p.frameAddr i) :=
    mem_slotsFrom.mpr ⟨0, by omega, by simp⟩
  rw [hnil] at hmem
  simp at hmem

end SlabAllocated

end Alloc

end Vectra

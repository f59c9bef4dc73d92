import Vectra.Mm.SlabInvariant

/-!
# Several slab caches over one frame allocator

The caches own disjoint sets of frames, so an operation on one of them
leaves the lists of the others and the bytes of every other object alone.
-/

namespace Vectra

open Lib SlabMem

/-- The pages and the free slots of each cache of a family. -/
structure SlabOwn (ι : Type) where
  pages : ι → List ℕ
  free : ι → List ℕ

/-- The invariant of a family of caches. -/
structure SlabFamily {M C ι : Type} [SlabMem M C] (slack : ℕ) (m : M) (p : Pmm)
    (cache : ι → SlabCache) (o : SlabOwn ι) : Prop where
  pmm : PmmInv slack p
  fits : ∀ i, SlabFits p (cache i).objSize
  slab : ∀ i, SlabInv m p (cache i) (o.pages i) (o.free i)
  apart : ∀ i j, i ≠ j → ∀ page ∈ o.pages i, page ∉ o.pages j

/-- Slot `x` of cache `i` is handed out. -/
def SlabOwn.Held {ι : Type} (o : SlabOwn ι) (cache : ι → SlabCache) (i : ι) (x : ℕ) : Prop :=
  Allocated (cache i).objSize (o.pages i) (o.free i) x

/-- The owners after one cache has new lists. -/
def SlabOwn.set {ι : Type} [DecidableEq ι] (o : SlabOwn ι) (i : ι) (pages free : List ℕ) :
    SlabOwn ι where
  pages := Function.update o.pages i pages
  free := Function.update o.free i free

/-- The owners over other indices; those that `f` takes to no old one own nothing. -/
def SlabOwn.reindex {ι κ : Type} (o : SlabOwn ι) (f : κ → Option ι) : SlabOwn κ where
  pages a := (f a).elim [] o.pages
  free a := (f a).elim [] o.free

namespace SlabOwn

variable {ι : Type} [DecidableEq ι] {o : SlabOwn ι} {i j : ι} {pages free : List ℕ}

theorem set_self : (o.set i pages free).pages i = pages ∧ (o.set i pages free).free i = free := by
  simp [set]

theorem set_of_ne (h : j ≠ i) :
    (o.set i pages free).pages j = o.pages j ∧ (o.set i pages free).free j = o.free j := by
  simp [set, h]

omit [DecidableEq ι] in
theorem held_reindex {κ : Type} {f : κ → Option ι} {cache : ι → SlabCache} {c : SlabCache} {a : κ}
    {x : ℕ} : (o.reindex f).Held (fun a => (f a).elim c cache) a x ↔
      ∃ j, f a = some j ∧ o.Held cache j x := by
  unfold Held reindex
  cases hfa : f a with
  | none => simp [hfa, Allocated, IsSlot]
  | some j => simp [hfa]

end SlabOwn

namespace SlabFamily

variable {M C ι : Type} [SlabMem M C] {slack x y : ℕ} {m m' : M} {p p' : Pmm}
  {cache : ι → SlabCache} {o : SlabOwn ι} {i j : ι} {c' : SlabCache}

/-- A slot lies in a page of its cache. -/
theorem held_page (h : SlabFamily slack m p cache o) (hx : o.Held cache i x) :
    ∃ page ∈ o.pages i, page + 16 ≤ x ∧ x + (cache i).objSize ≤ page + pageSize :=
  hx.1.in_page h.pmm (h.slab i).page_used

theorem held_pos (h : SlabFamily slack m p cache o) (hx : o.Held cache i x) : x ≠ 0 := by
  obtain ⟨page, _, hlo, _⟩ := h.held_page hx
  omega

theorem held_lt (h : SlabFamily slack m p cache o) (hx : o.Held cache i x) :
    x + (cache i).objSize < 2 ^ 64 := by
  obtain ⟨page, hpage, _, hhi⟩ := h.held_page hx
  have hb := ((h.slab i).page_used page hpage).bounds h.pmm
  have hroom := (h.fits i).room
  have hge := (h.fits i).size_ge
  omega

theorem pages_separate (h : SlabFamily slack m p cache o) {page page' : ℕ}
    (hne : i ≠ j) (hpage : page ∈ o.pages i) (hpage' : page' ∈ o.pages j) :
    page + pageSize ≤ page' ∨ page' + pageSize ≤ page := by
  apply ((h.slab i).page_used page hpage).separate h.pmm ((h.slab j).page_used page' hpage')
  rintro rfl
  exact h.apart i j hne page hpage hpage'

/-- Distinct objects do not overlap. -/
theorem held_separate (h : SlabFamily slack m p cache o) (hx : o.Held cache i x)
    (hy : o.Held cache j y) (hne : x ≠ y) :
    x + (cache i).objSize ≤ y ∨ y + (cache j).objSize ≤ x := by
  by_cases hij : i = j
  · subst hij
    exact hx.1.separate h.pmm (h.slab i).page_used hy.1 hne
  · obtain ⟨page, hpage, hlo, hhi⟩ := h.held_page hx
    obtain ⟨page', hpage', hlo', hhi'⟩ := h.held_page hy
    have hsep := h.pages_separate hij hpage hpage'
    omega

/-- An object belongs to one cache. -/
theorem held_inj (h : SlabFamily slack m p cache o) (hx : o.Held cache i x)
    (hy : o.Held cache j x) : i = j := by
  by_contra hij
  obtain ⟨page, hpage, hlo, hhi⟩ := h.held_page hx
  obtain ⟨page', hpage', hlo', hhi'⟩ := h.held_page hy
  have hsep := h.pages_separate hij hpage hpage'
  have hge := (h.fits i).size_ge
  have hge' := (h.fits j).size_ge
  omega

/-- An object is not a free slot. -/
theorem held_not_free (h : SlabFamily slack m p cache o) (hx : o.Held cache i x) :
    x ∉ o.free j := by
  intro hfree
  by_cases hij : i = j
  · subst hij
    exact hx.2 hfree
  · obtain ⟨page, hpage, hlo, hhi⟩ := h.held_page hx
    obtain ⟨page', hpage', hlo', hhi'⟩ :=
      ((h.slab j).free_isSlot hfree).in_page h.pmm (h.slab j).page_used
    have hsep := h.pages_separate hij hpage hpage'
    have hge := (h.fits i).size_ge
    have hge' := (h.fits j).size_ge
    omega

/-- A write into one page of a cache leaves the other caches as they are. -/
theorem other_cache (h : SlabFamily slack m p cache o) (hij : i ≠ j) {page lo len : ℕ}
    (hpage : page ∈ o.pages i) (hlo : page ≤ lo) (hhi : lo + len ≤ page + pageSize)
    (hsame : SameOff m m' lo len) : SlabInv m' p (cache j) (o.pages j) (o.free j) := by
  have hge := (h.fits j).size_ge
  refine (h.slab j).congr (SameRange.refl p) (fun _ hi => hi) ?_ ?_
  · intro page' hpage' z hz hz'
    have hsep := h.pages_separate hij hpage hpage'
    unfold pageSize at *
    exact hsame z (by omega)
  · intro z hz w hw hw'
    obtain ⟨page', hpage', hlo', hhi'⟩ :=
      ((h.slab j).free_isSlot hz).in_page h.pmm (h.slab j).page_used
    have hsep := h.pages_separate hij hpage hpage'
    exact hsame w (by omega)

/-- A write into an object. -/
theorem write (h : SlabFamily slack m p cache o) (hx : o.Held cache i x) {lo len : ℕ}
    (hlo : x ≤ lo) (hhi : lo + len ≤ x + (cache i).objSize) (hsame : SameOff m m' lo len) :
    SlabFamily slack m' p cache o where
  pmm := h.pmm
  fits := h.fits
  apart := h.apart
  slab := by
    intro j
    by_cases hij : i = j
    · subst hij
      exact (h.slab i).write_slot h.pmm (h.fits i) hx hlo hhi hsame
    · obtain ⟨page, hpage, hlo', hhi'⟩ := h.held_page hx
      exact h.other_cache hij hpage (by omega) (by omega) hsame

/-- Only the page headers and the links of the free slots carry the state of the caches. -/
theorem congr (h : SlabFamily slack m p cache o) {slack' : ℕ} (hp : PmmInv slack' p')
    (hrange : SameRange p p') (hused : ∀ i, ∀ page ∈ o.pages i, UsedFrame p' page)
    (hheader : ∀ i, ∀ page ∈ o.pages i, SameIn m m' page 16)
    (hlink : ∀ i, ∀ x ∈ o.free i, SameIn m m' x 8) : SlabFamily slack' m' p' cache o where
  pmm := hp
  fits := fun i => (h.fits i).sameRange hrange
  apart := h.apart
  slab := fun i => ((h.slab i).congr (SameRange.refl p) (fun _ hset => hset) (hheader i)
    (hlink i)).congr_used fun page hpage _ => hused i page hpage

/-- The bytes of the objects are in frames in use. -/
theorem held_kept (h : SlabFamily slack m p cache o) {slack' : ℕ}
    (hk : FramesKept slack' m m' p p') (hx : o.Held cache i x) :
    SameIn m m' x (cache i).objSize := by
  obtain ⟨page, hpage, hlo, hhi⟩ := h.held_page hx
  obtain ⟨j, hj, rfl, hset⟩ := (h.slab i).page_used page hpage
  exact fun y hy hy' => hk.bytes j hj hset y (by omega) (by omega)

/-- A family does not notice what happens in other frames. -/
theorem kept (h : SlabFamily slack m p cache o) {slack' : ℕ} (hk : FramesKept slack' m m' p p') :
    SlabFamily slack' m' p' cache o := by
  have hbytes : ∀ i, ∀ page ∈ o.pages i, SameIn m m' page pageSize := by
    intro i page hpage
    obtain ⟨j, hj, rfl, hset⟩ := (h.slab i).page_used page hpage
    exact hk.bytes j hj hset
  refine h.congr hk.pmm hk.range
    (fun i page hpage => ((h.slab i).page_used page hpage).mono hk.range hk.used)
    (fun i page hpage y hlo hhi => hbytes i page hpage y hlo (by unfold pageSize; omega)) ?_
  intro i x hx y hlo hhi
  have hge := (h.fits i).size_ge
  obtain ⟨page, hpage, hlo', hhi'⟩ :=
    ((h.slab i).free_isSlot hx).in_page h.pmm (h.slab i).page_used
  exact hbytes i page hpage y (by omega) (by omega)

/-- The family over more indices, with new caches at those that `f` takes to no old one. -/
theorem reindex {κ : Type} {f : κ → Option ι} (h : SlabFamily slack m p cache o)
    (hf : ∀ a b j, f a = some j → f b = some j → a = b) {size : ℕ}
    (hfits : SlabFits p (slabObjSize size)) :
    SlabFamily slack m p (fun a => (f a).elim (newSlabCache size) cache) (o.reindex f) := by
  refine ⟨h.pmm, fun a => ?_, fun a => ?_, fun a b hab page hpage hpage' => ?_⟩
  · cases f a with
    | none => exact hfits
    | some j => exact h.fits j
  · unfold SlabOwn.reindex
    dsimp only
    cases f a with
    | none => exact .new m p size
    | some j => exact h.slab j
  · unfold SlabOwn.reindex at hpage hpage'
    cases hfa : f a with
    | none => simp [hfa] at hpage
    | some i =>
        cases hfb : f b with
        | none => simp [hfb] at hpage'
        | some j =>
            simp only [hfa, hfb, Option.elim_some] at hpage hpage'
            refine h.apart i j ?_ page hpage hpage'
            rintro rfl
            exact hab (hf a b i hfa hfb)

variable [DecidableEq ι]

/-- A cache without pages may be replaced by a new one. -/
theorem renew (h : SlabFamily slack m p cache o) {size : ℕ} (hfits : SlabFits p (slabObjSize size))
    (hpages : o.pages i = []) (hfree : o.free i = []) :
    SlabFamily slack m p (Function.update cache i (newSlabCache size)) o := by
  refine ⟨h.pmm, ?_, ?_, h.apart⟩
  · intro j
    by_cases hij : j = i
    · rw [hij, Function.update_self]
      exact hfits
    · rw [Function.update_of_ne hij]
      exact h.fits j
  · intro j
    by_cases hij : j = i
    · rw [hij, Function.update_self, hpages, hfree]
      exact .new m p size
    · rw [Function.update_of_ne hij]
      exact h.slab j

/-- Releasing an object gives it back to its cache, and writes its first word. -/
theorem free (h : SlabFamily slack m p cache o) (hx : o.Held cache i x) :
    SlabFamily slack (slabFree m (cache i) x).1 p
        (Function.update cache i (slabFree m (cache i) x).2)
        (o.set i (o.pages i) (x :: o.free i)) ∧
      (∀ j, (Function.update cache i (slabFree m (cache i) x).2 j).objSize = (cache j).objSize) ∧
      (∀ j y, (o.set i (o.pages i) (x :: o.free i)).Held
          (Function.update cache i (slabFree m (cache i) x).2) j y ↔
        o.Held cache j y ∧ y ≠ x) ∧
      SameOff m (slabFree m (cache i) x).1 x 8 := by
  obtain ⟨hinv, hsize, hoff⟩ := (h.slab i).slabFree h.pmm (h.fits i) hx
  have hsizes : ∀ j, (Function.update cache i (slabFree m (cache i) x).2 j).objSize =
      (cache j).objSize := by
    intro j
    by_cases hij : j = i
    · rw [hij, Function.update_self, hsize]
    · rw [Function.update_of_ne hij]
  have hpages : ∀ j, (o.set i (o.pages i) (x :: o.free i)).pages j = o.pages j := by
    intro j
    by_cases hij : j = i
    · rw [hij, SlabOwn.set_self.1]
    · rw [(SlabOwn.set_of_ne hij).1]
  obtain ⟨page, hpage, hlo, hhi⟩ := h.held_page hx
  have hge := (h.fits i).size_ge
  refine ⟨⟨h.pmm, ?_, ?_, ?_⟩, hsizes, ?_, hoff⟩
  · intro j
    rw [hsizes j]
    exact h.fits j
  · intro j
    rw [hpages j]
    by_cases hij : j = i
    · subst hij
      rw [SlabOwn.set_self.2, Function.update_self]
      exact hinv
    · rw [(SlabOwn.set_of_ne hij).2, Function.update_of_ne hij]
      exact h.other_cache (Ne.symm hij) hpage (by omega) (by omega) hoff
  · intro j k hjk
    rw [hpages j, hpages k]
    exact h.apart j k hjk
  · intro j y
    unfold SlabOwn.Held
    rw [hsizes j, hpages j]
    by_cases hij : j = i
    · subst hij
      unfold Allocated
      rw [SlabOwn.set_self.2, List.mem_cons]
      tauto
    · rw [(SlabOwn.set_of_ne hij).2]
      refine ⟨fun hy => ⟨hy, ?_⟩, fun hy => hy.1⟩
      rintro rfl
      exact hij (h.held_inj hy hx)

/-- An allocation gives new lists to its own cache only. -/
theorem alloc_set (h : SlabFamily slack m p cache o)
    (hs : slabAlloc m p (cache i) = some (x, m', p', c')) :
    ∃ pages' free', SlabFamily slack m' p' (Function.update cache i c') (o.set i pages' free') ∧
      (∀ j, (Function.update cache i c' j).objSize = (cache j).objSize) ∧
      (∀ j y, (o.set i pages' free').Held (Function.update cache i c') j y ↔
        (x ≠ 0 ∧ j = i ∧ y = x) ∨ o.Held cache j y) ∧
      (∀ j, ¬ o.Held cache j x) ∧
      (∀ j y, o.Held cache j y → SameIn m m' y (cache j).objSize) ∧
      ∀ y ∈ o.free i, y = x ∨ y ∈ free' := by
  obtain ⟨pages', free', ha⟩ := (h.slab i).slabAlloc h.pmm (h.fits i) hs
  have hpmm := ha.pmmInv h.pmm
  have hsizes : ∀ j, (Function.update cache i c' j).objSize = (cache j).objSize := by
    intro j
    by_cases hij : j = i
    · rw [hij, Function.update_self, ha.objSize]
    · rw [Function.update_of_ne hij]
  -- a page that is not new was a page before, and a new page was a clear frame
  have hclear : ∀ q < p.totalFrames, p.used q = false → ∀ j, ∀ page ∈ o.pages j,
      page + pageSize ≤ p.frameAddr q ∨ p.frameAddr q + pageSize ≤ page := by
    intro q hq hqc j page hpage
    obtain ⟨r, hr, rfl, hset⟩ := (h.slab j).page_used page hpage
    apply frameAddr_separate h.pmm hr hq
    rintro rfl
    rw [hqc] at hset
    cases hset
  have hnew : ∀ j page, j ≠ i → page ∈ o.pages j → page ∉ pages' := by
    intro j page hji hpage hmem
    rcases ha.grown with ⟨rfl, _, _⟩ | ⟨q, hq, hqc, rfl, _, _⟩
    · exact h.apart j i hji page hpage hmem
    · rcases List.mem_cons.mp hmem with rfl | hmem
      · have hsep := hclear q hq hqc j _ hpage
        unfold pageSize at hsep
        omega
      · exact h.apart j i hji page hpage hmem
  have hsame : ∀ j, ∀ page ∈ o.pages j, ∀ lo len, page ≤ lo → lo + len ≤ page + pageSize →
      SameIn m m' lo len := by
    intro j page hpage lo len hlo hhi
    apply ha.sameIn
    intro q hq hqc
    have hsep := hclear q hq hqc j page hpage
    omega
  have hheld : ∀ j y, (o.set i pages' free').Held (Function.update cache i c') j y ↔
      (x ≠ 0 ∧ j = i ∧ y = x) ∨ o.Held cache j y := by
    intro j y
    unfold SlabOwn.Held
    rw [hsizes j]
    by_cases hij : j = i
    · subst hij
      rw [SlabOwn.set_self.1, SlabOwn.set_self.2, ← ha.objSize]
      have hiff := ha.allocated y
      rw [← ha.objSize] at hiff
      rw [hiff]
      tauto
    · rw [(SlabOwn.set_of_ne hij).1, (SlabOwn.set_of_ne hij).2]
      tauto
  refine ⟨pages', free', ⟨hpmm, ?_, ?_, ?_⟩, hsizes, hheld, ?_, ?_,
    fun y hy => ha.free_kept (h.slab i) hy⟩
  · intro j
    rw [hsizes j]
    exact (h.fits j).sameRange ha.sameRange
  · intro j
    by_cases hij : j = i
    · subst hij
      rw [SlabOwn.set_self.1, SlabOwn.set_self.2, Function.update_self]
      exact ha.inv
    · rw [(SlabOwn.set_of_ne hij).1, (SlabOwn.set_of_ne hij).2, Function.update_of_ne hij]
      refine (h.slab j).congr ha.sameRange (fun _ hq => ha.used_mono hq) ?_ ?_
      · intro page hpage
        exact hsame j page hpage page 16 (le_refl _) (by unfold pageSize; omega)
      · intro z hz
        obtain ⟨page, hpage, hlo, hhi⟩ :=
          ((h.slab j).free_isSlot hz).in_page h.pmm (h.slab j).page_used
        have hge := (h.fits j).size_ge
        exact hsame j page hpage z 8 (by omega) (by omega)
  · intro j k hjk page hpage hpage'
    by_cases hji : j = i
    · subst hji
      rw [SlabOwn.set_self.1] at hpage
      rw [(SlabOwn.set_of_ne (Ne.symm hjk)).1] at hpage'
      exact hnew k page (Ne.symm hjk) hpage' hpage
    · rw [(SlabOwn.set_of_ne hji).1] at hpage
      by_cases hki : k = i
      · subst hki
        rw [SlabOwn.set_self.1] at hpage'
        exact hnew j page hji hpage hpage'
      · rw [(SlabOwn.set_of_ne hki).1] at hpage'
        exact h.apart j k hjk page hpage hpage'
  · intro j hx
    by_cases hij : j = i
    · subst hij
      exact ha.fresh hx
    · have hx0 := h.held_pos hx
      have hxi : o.Held cache i x ∨ (o.set i pages' free').Held (Function.update cache i c') i x :=
        Or.inr ((hheld i x).mpr (Or.inl ⟨hx0, rfl, rfl⟩))
      rcases hxi with hxi | hxi
      · exact ha.fresh hxi
      · -- the slot would lie in a page of `j` and in one of `i`
        obtain ⟨page, hpage, hlo, hhi⟩ := h.held_page hx
        unfold SlabOwn.Held at hxi
        rw [SlabOwn.set_self.1, SlabOwn.set_self.2, Function.update_self] at hxi
        obtain ⟨page', hpage', hlo', hhi'⟩ := hxi.1.in_page hpmm ha.inv.page_used
        have hge := (h.fits j).size_ge
        have hge' := (h.fits i).size_ge
        rw [ha.objSize] at hhi'
        rcases ha.grown with ⟨rfl, _, _⟩ | ⟨q, hq, hqc, rfl, _, _⟩
        · have hsep := h.pages_separate hij hpage hpage'
          omega
        · rcases List.mem_cons.mp hpage' with rfl | hpage'
          · have hsep := hclear q hq hqc j page hpage
            omega
          · have hsep := h.pages_separate hij hpage hpage'
            omega
  · intro j y hy
    obtain ⟨page, hpage, hlo, hhi⟩ := h.held_page hy
    exact hsame j page hpage y _ (by omega) hhi

/-- Everything an allocation does to a family. -/
theorem alloc (h : SlabFamily slack m p cache o)
    (hs : slabAlloc m p (cache i) = some (x, m', p', c')) :
    ∃ o', SlabFamily slack m' p' (Function.update cache i c') o' ∧
      (∀ j, (Function.update cache i c' j).objSize = (cache j).objSize) ∧
      (∀ j y, o'.Held (Function.update cache i c') j y ↔
        (x ≠ 0 ∧ j = i ∧ y = x) ∨ o.Held cache j y) ∧
      (∀ j, ¬ o.Held cache j x) ∧
      (∀ j y, o.Held cache j y → SameIn m m' y (cache j).objSize) := by
  obtain ⟨pages', free', hf, hsizes, hheld, hfresh, hbytes, _⟩ := h.alloc_set hs
  exact ⟨_, hf, hsizes, hheld, hfresh, hbytes⟩

end SlabFamily

end Vectra

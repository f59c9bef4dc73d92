import Vectra.Mm.SlabRuns

/-!
# The peak use of a cache

Pages are never given back, so the number of pages of a cache tells how many of its
slots were handed out at one time: a page is added only when every slot carved so far
is handed out, and a slot of the new page is handed out at once.
-/

namespace Vectra

open Lib SlabMem

/-- The slots of some pages. -/
def carvedOf (objSize : ℕ) (pages : List ℕ) : List ℕ := pages.flatMap (pageSlots objSize)

theorem mem_carvedOf {objSize x : ℕ} {pages : List ℕ} :
    x ∈ carvedOf objSize pages ↔ IsSlot objSize pages x := List.mem_flatMap

@[simp] theorem carvedOf_nil (objSize : ℕ) : carvedOf objSize [] = [] := rfl

theorem carvedOf_cons (objSize page : ℕ) (pages : List ℕ) :
    carvedOf objSize (page :: pages) = pageSlots objSize page ++ carvedOf objSize pages := rfl

theorem slotsFrom_nodup {ptr objSize n : ℕ} (hsize : 0 < objSize) :
    (slotsFrom ptr objSize n).Nodup := by
  induction n generalizing ptr with
  | zero => exact List.nodup_nil
  | succ n ih =>
      rw [slotsFrom, List.nodup_cons]
      refine ⟨fun hmem => ?_, ih⟩
      obtain ⟨k, _, heq⟩ := mem_slotsFrom.mp hmem
      omega

theorem carvedOf_nodup {slack objSize : ℕ} {p : Pmm} {pages : List ℕ} (hp : PmmInv slack p)
    (hsize : 0 < objSize) (hused : ∀ page ∈ pages, UsedFrame p page) (hnodup : pages.Nodup) :
    (carvedOf objSize pages).Nodup := by
  refine List.nodup_flatMap.mpr ⟨fun page _ => slotsFrom_nodup hsize, ?_⟩
  refine hnodup.imp_of_mem fun {page page'} hpage hpage' hne x hx hx' => ?_
  have hb := (hused page hpage).slot_bounds hp hx
  have hb' := (hused page' hpage').slot_bounds hp hx'
  have hsep := (hused page hpage).separate hp (hused page' hpage') hne
  omega

section Family

variable {M C ι : Type} [SlabMem M C] [DecidableEq ι] {slack x : ℕ} {m m' : M} {p p' : Pmm}
  {cache : ι → SlabCache} {o : SlabOwn ι} {i j : ι} {c' : SlabCache} {pages : List ℕ}

/-- An allocation adds at most one page, to its own cache, and only when the free list of
that cache is empty. -/
theorem SlabFamily.alloc_chain (h : SlabFamily slack m p cache o)
    (hs : slabAlloc m p (cache i) = some (x, m', p', c'))
    (hpages : Chain (fun a => (frame m' a).next) (Function.update cache i c' j).slabs pages) :
    pages = o.pages j ∨ j = i ∧ o.free j = [] ∧ ∃ page, pages = page :: o.pages j := by
  obtain ⟨pages', free', hf', _⟩ := h.alloc_set hs
  have hsame := hpages.unique (hf'.slab j).pageChain
  by_cases hji : j = i
  · subst hji
    rw [SlabOwn.set_self.1] at hsame
    obtain ⟨pages'', free'', ha⟩ := (h.slab j).slabAlloc h.pmm (h.fits j) hs
    rw [Function.update_self] at hpages
    have hgrown := ha.grown
    rw [← hpages.unique ha.inv.pageChain] at hgrown
    cases hfree : o.free j with
    | nil =>
        rcases hgrown with ⟨heq, _⟩ | ⟨q, _, _, heq, _⟩
        · exact Or.inl heq
        · exact Or.inr ⟨rfl, rfl, _, heq⟩
    | cons y ys =>
        -- the head of the free list is taken, and nothing grows
        have hchain := (h.slab j).freeChain
        rw [hfree] at hchain
        have hhead : (cache j).freeObjects = y := hchain.1
        have hne : y ≠ 0 := hchain.ne_zero List.mem_cons_self
        simp only [slabAlloc, hhead, if_neg hne, slabPop, Option.some.injEq, Prod.mk.injEq] at hs
        obtain ⟨_, rfl, _, rfl⟩ := hs
        exact Or.inl (hpages.unique (h.slab j).pageChain)
  · rw [(SlabOwn.set_of_ne hji).1] at hsame
    exact Or.inl hsame

omit [DecidableEq ι] in
/-- Only an empty free list makes an allocation return null. -/
theorem slabAlloc_null {c : SlabCache} (hs : slabAlloc m p c = some (0, m', p', c')) :
    c'.freeObjects = 0 := by
  have hpop : ∀ (n : M) (d : SlabCache), (slabPop n d).1 = 0 → (slabPop n d).2.freeObjects = 0 := by
    intro n d hd
    unfold slabPop at hd ⊢
    split
    · assumption
    · rename_i hne
      rw [if_neg hne] at hd
      exact absurd hd hne
  unfold slabAlloc at hs
  split at hs
  · cases hgrow : slabGrow m p c with
    | none => simp [hgrow] at hs
    | some g =>
        simp only [hgrow, Option.some.injEq, Prod.mk.injEq] at hs
        rw [← hs.2.2.2]
        exact hpop _ _ hs.1
  · simp only [Option.some.injEq, Prod.mk.injEq] at hs
    rw [← hs.2.2.2]
    exact hpop _ _ hs.1

end Family

section Run

variable {s t u : SlabState} {o o' : SlabOwn (Option ℕ)} {ops : List SlabOp} {op : SlabOp}
  {i j : Option ℕ} {page r : ℕ} {pages rest : List ℕ}

namespace SlabRunInv

theorem isSlot_iff (h : SlabRunInv s o) {x : ℕ} :
    IsSlot (s.cache i).objSize (o.pages i) x ↔ x ∈ o.free i ∨ s.Taken i x := h.layout.slots i x

theorem carved_nodup (h : SlabRunInv s o) (i : Option ℕ) :
    (carvedOf (s.cache i).objSize (o.pages i)).Nodup := by
  obtain ⟨slack, hf⟩ := h.family
  have hge := (hf.fits i).size_ge
  exact carvedOf_nodup hf.pmm (by omega) (hf.slab i).page_used (hf.slab i).pageChain.nodup

theorem taken_subset (h : SlabRunInv s o) (i : Option ℕ) :
    {x | s.Taken i x} ⊆ ((carvedOf (s.cache i).objSize (o.pages i)).toFinset : Set ℕ) := by
  intro x hx
  rw [Finset.mem_coe, List.mem_toFinset, mem_carvedOf, h.isSlot_iff]
  exact Or.inr hx

theorem taken_finite (h : SlabRunInv s o) (i : Option ℕ) : {x | s.Taken i x}.Finite :=
  (Finset.finite_toSet _).subset (h.taken_subset i)

/-- No more slots are handed out than the pages hold. -/
theorem taken_le (h : SlabRunInv s o) (i : Option ℕ) :
    {x | s.Taken i x}.ncard ≤ (carvedOf (s.cache i).objSize (o.pages i)).length := by
  calc {x | s.Taken i x}.ncard
      ≤ ((carvedOf (s.cache i).objSize (o.pages i)).toFinset : Set ℕ).ncard :=
        Set.ncard_le_ncard (h.taken_subset i) (Finset.finite_toSet _)
    _ = (carvedOf (s.cache i).objSize (o.pages i)).toFinset.card := Set.ncard_coe_finset _
    _ ≤ (carvedOf (s.cache i).objSize (o.pages i)).length := List.toFinset_card_le _

/-- When the slots of some pages are handed out, and one other slot is, the number of
slots that are handed out is larger than those pages hold. -/
theorem lt_taken (h : SlabRunInv s o) {objSize x : ℕ} (hnodup : (carvedOf objSize rest).Nodup)
    (hall : ∀ y ∈ carvedOf objSize rest, s.Taken i y) (hx : s.Taken i x)
    (hnot : x ∉ carvedOf objSize rest) :
    (carvedOf objSize rest).length < {y | s.Taken i y}.ncard := by
  have hcons : (x :: carvedOf objSize rest).Nodup := List.nodup_cons.mpr ⟨hnot, hnodup⟩
  have hsub : ((x :: carvedOf objSize rest).toFinset : Set ℕ) ⊆ {y | s.Taken i y} := by
    intro y hy
    rw [Finset.mem_coe, List.mem_toFinset, List.mem_cons] at hy
    rcases hy with rfl | hy
    · exact hx
    · exact hall y hy
  have hle := Set.ncard_le_ncard hsub (h.taken_finite i)
  rw [Set.ncard_coe_finset, List.toFinset_card_of_nodup hcons, List.length_cons] at hle
  exact hle

/-- What an allocation from a cache that grows leaves handed out: every slot of the old
pages, and one of the new page. -/
theorem grown_taken (h : SlabRunInv s o) (h' : SlabRunInv t o') {c' : SlabCache}
    (hs : slabAlloc s.heap.mem s.heap.pmm (s.cache i) = some (r, t.heap.mem, t.heap.pmm, c'))
    (hcache : t.cache i = c') (hfresh : ¬ s.Taken i r)
    (htaken : ∀ x, t.Taken i x ↔ (r ≠ 0 ∧ x = r) ∨ s.Taken i x) (hfree : o.free i = [])
    (hpages : o'.pages i = page :: o.pages i) (hslots : pageSlots (t.cache i).objSize page ≠ []) :
    (carvedOf (t.cache i).objSize (o.pages i)).length < {x | t.Taken i x}.ncard := by
  obtain ⟨slack, hf⟩ := h.family
  have hsize : (t.cache i).objSize = (s.cache i).objSize := by
    obtain ⟨_, _, ha⟩ := (hf.slab i).slabAlloc hf.pmm (hf.fits i) hs
    rw [hcache, ha.objSize]
  have hold : ∀ y, y ∈ carvedOf (t.cache i).objSize (o.pages i) ↔ s.Taken i y := by
    intro y
    rw [hsize, mem_carvedOf, h.isSlot_iff, hfree]
    simp
  have hnodup : (carvedOf (t.cache i).objSize (o.pages i)).Nodup := hsize ▸ h.carved_nodup i
  have hall : ∀ y ∈ carvedOf (t.cache i).objSize (o.pages i), t.Taken i y :=
    fun y hy => (htaken y).mpr (Or.inr ((hold y).mp hy))
  by_cases hr : r = 0
  · -- the free list is empty after the call, so the slots of the new page are handed out
    subst hr
    have hnull : (t.cache i).freeObjects = 0 := by
      rw [hcache]
      exact slabAlloc_null hs
    have hfree' : o'.free i = [] := (h'.layout.freeChain i).eq_nil_iff.mpr hnull
    obtain ⟨x, hx⟩ := List.exists_mem_of_ne_nil _ hslots
    have hx' : t.Taken i x := by
      have hslot : IsSlot (t.cache i).objSize (o'.pages i) x := by
        rw [hpages]
        exact ⟨page, List.mem_cons_self, hx⟩
      rw [h'.isSlot_iff, hfree'] at hslot
      exact hslot.resolve_left List.not_mem_nil
    refine h'.lt_taken hnodup hall hx' fun hmem => ?_
    have hboth := h'.carved_nodup i
    rw [hpages, carvedOf_cons] at hboth
    exact List.disjoint_of_nodup_append hboth hx hmem
  · exact h'.lt_taken hnodup hall ((htaken r).mpr (Or.inl ⟨hr, rfl⟩))
      fun hmem => hfresh ((hold r).mp hmem)

/-- One step adds at most one page to a cache. It does so when all slots of the cache are
handed out, and hands out one slot more. -/
theorem pages_step (h : SlabRunInv s o) (h' : SlabRunInv t o') (hs : SlabStep s op t)
    (i : Option ℕ) :
    (o'.pages i ≠ [] → (t.cache i).objSize = (s.cache i).objSize) ∧
      (o'.pages i = o.pages i ∨ ∃ page, o'.pages i = page :: o.pages i ∧
        (pageSlots (t.cache i).objSize page ≠ [] →
          (carvedOf (t.cache i).objSize (o.pages i)).length < {x | t.Taken i x}.ncard)) := by
  obtain ⟨slack, hf⟩ := h.family
  have hchain := h'.layout.pageChain i
  cases op with
  | create size r =>
      obtain ⟨c', halloc, hcache⟩ := cache_create hs
      have hfresh := (h.create hs).2
      by_cases hir : r ≠ 0 ∧ i = some r
      · -- the new cache has no page, and had none before
        obtain ⟨hr, rfl⟩ := hir
        rw [if_neg hr] at hcache
        have hnew : r ∉ s.created := hfresh none
        have hold : o.pages (some r) = [] := by
          rw [(h.layout.pageChain (some r)).eq_nil_iff]
          simp [SlabState.cache, hnew, newSlabCache]
        have hnone : o'.pages (some r) = [] := by
          rw [hchain.eq_nil_iff, hcache, Function.update_self]
          rfl
        exact ⟨fun hne => absurd hnone hne, Or.inl (hnone.trans hold.symm)⟩
      · have hother : t.cache i = Function.update s.cache none c' i := by
          rw [hcache]
          split
          · rfl
          · rename_i hr
            exact Function.update_of_ne (fun heq => hir ⟨hr, heq⟩) _ _
        rw [hother] at hchain
        rw [hother]
        obtain ⟨_, _, _, hsizes, _⟩ := hf.alloc_set halloc
        refine ⟨fun _ => hsizes i, ?_⟩
        rcases hf.alloc_chain halloc hchain with hsame | ⟨rfl, hfree, page, hpage⟩
        · exact Or.inl hsame
        · refine Or.inr ⟨page, hpage, fun hslots => ?_⟩
          rw [← hother] at hslots ⊢
          rw [Function.update_self] at hother
          refine h.grown_taken h' halloc hother (hfresh none) (fun x => ?_) hfree hpage hslots
          obtain ⟨_, _, hcreated, _⟩ := hs
          by_cases hr : r = 0 <;> simp [SlabState.Taken, hcreated, hr]
  | alloc c r =>
      obtain ⟨c', halloc, hcache⟩ := cache_alloc (h.live_pos hs.1) hs
      have hfresh := (h.alloc hs).2
      rw [hcache] at hchain
      obtain ⟨_, _, _, hsizes, _⟩ := hf.alloc_set halloc
      refine ⟨fun _ => by rw [hcache, hsizes i], ?_⟩
      rcases hf.alloc_chain halloc hchain with hsame | ⟨rfl, hfree, page, hpage⟩
      · exact Or.inl hsame
      · refine Or.inr ⟨page, hpage, fun hslots => ?_⟩
        refine h.grown_taken h' halloc (by rw [hcache, Function.update_self]) (hfresh (some c))
          (fun x => ?_) hfree hpage hslots
        obtain ⟨_, _, _, hlive⟩ := hs
        by_cases hr : r = 0 <;> simp [SlabState.Taken, hlive, hr]
  | free c x =>
      have hc := h.owner c x hs.1
      obtain ⟨hmem, _, hcache⟩ := cache_free (h.live_pos hc) hc hs
      have hfree := (hf.free ((h.held (some c) x).mpr hs.1)).1
      rw [hmem, hcache] at hchain
      have hpages := hchain.unique (hfree.slab i).pageChain
      have hsame : (o.set (some c) (o.pages (some c)) (x :: o.free (some c))).pages i =
          o.pages i := by
        by_cases hic : i = some c
        · rw [hic, SlabOwn.set_self.1]
        · rw [(SlabOwn.set_of_ne hic).1]
      refine ⟨fun _ => ?_, Or.inl (hpages.trans hsame)⟩
      rw [hcache]
      by_cases hic : i = some c
      · rw [hic, Function.update_self]
        unfold slabFree
        split <;> rfl
      · rw [Function.update_of_ne hic]
  | other =>
      have hcode : OtherSlabCode s t := hs
      have hsame := hchain.unique ((h.other hcode).layout.pageChain i)
      refine ⟨fun _ => ?_, Or.inl hsame⟩
      cases i with
      | none => simp only [SlabState.cache, Heap.metadata, hcode.metadata, hcode.initialized]
      | some a => simp only [SlabState.cache, hcode.created, hcode.cache]

/-- The slots of a cache are never fewer than before. -/
theorem carved_mono (h : SlabRunInv s o) (h' : SlabRunInv t o') (hs : SlabStep s op t)
    (i : Option ℕ) :
    (carvedOf (s.cache i).objSize (o.pages i)).length ≤
      (carvedOf (t.cache i).objSize (o'.pages i)).length := by
  obtain ⟨hsize, hsame | ⟨page, hpage, _⟩⟩ := h.pages_step h' hs i
  · by_cases hnil : o'.pages i = []
    · rw [← hsame, hnil]
      simp
    · rw [hsize hnil, hsame]
  · rw [hsize (by simp [hpage]), hpage, carvedOf_cons, List.length_append]
    exact Nat.le_add_left _ _

theorem carved_mono_run (h : SlabRunInv s o) (h' : SlabRunInv t o') (hrun : Run SlabStep s ops t)
    (i : Option ℕ) :
    (carvedOf (s.cache i).objSize (o.pages i)).length ≤
      (carvedOf (t.cache i).objSize (o'.pages i)).length := by
  induction hrun generalizing o with
  | nil s =>
      rw [(h.layout.pageChain i).unique (h'.layout.pageChain i)]
  | cons head _ ih =>
      obtain ⟨o'', hu⟩ := h.step head
      exact (h.carved_mono hu head i).trans (ih hu h')

end SlabRunInv

/-- For every cache, a state of the run in which more slots were handed out than its
pages but the newest hold. -/
def PeakSeen (s : SlabState) (ops : List SlabOp) (t : SlabState) (o : SlabOwn (Option ℕ)) : Prop :=
  ∀ i page rest, o.pages i = page :: rest → pageSlots (t.cache i).objSize page ≠ [] →
    ∃ before after u, ops = before ++ after ∧ Run SlabStep s before u ∧ Run SlabStep u after t ∧
      (carvedOf (t.cache i).objSize rest).length < {x | u.Taken i x}.ncard

theorem PeakSeen.step (h : PeakSeen s ops t o) (hrun : Run SlabStep s ops t)
    (hinv : SlabRunInv t o) (hinv' : SlabRunInv u o') (hs : SlabStep t op u) :
    PeakSeen s (ops ++ [op]) u o' := by
  intro i page rest hpages hslots
  obtain ⟨hsize, hgrown⟩ := hinv.pages_step hinv' hs i
  have hobj := hsize (by simp [hpages])
  rcases hgrown with hsame | ⟨page', hpage', hnew⟩
  · rw [hobj] at hslots ⊢
    obtain ⟨before, after, v, rfl, hbefore, hafter, hlt⟩ :=
      h i page rest (hsame.symm.trans hpages) hslots
    exact ⟨before, after ++ [op], v, by rw [List.append_assoc], hbefore, hafter.snoc hs, hlt⟩
  · -- the newest page came in this step: the peak is its result
    rw [hpage', List.cons.injEq] at hpages
    obtain ⟨rfl, rfl⟩ := hpages
    exact ⟨ops ++ [op], [], u, (List.append_nil _).symm, hrun.snoc hs, .nil u, hnew hslots⟩

theorem PeakSeen.of_run (hboot : SlabBoot s) (hrun : Run SlabStep s ops t) :
    ∃ o, SlabRunInv t o ∧ PeakSeen s ops t o := by
  have hall : Run SlabStep s ops t ∧ ∃ o, SlabRunInv t o ∧ PeakSeen s ops t o := by
    refine hrun.invariant_labels
      (I := fun xs u => Run SlabStep s xs u ∧ ∃ o, SlabRunInv u o ∧ PeakSeen s xs u o) ?_ ?_
    · rintro xs u op v ⟨hu, o, hinv, hpeak⟩ hstep
      obtain ⟨o', hinv'⟩ := hinv.step hstep
      exact ⟨hu.snoc hstep, o', hinv', hpeak.step hu hinv hinv' hstep⟩
    · refine ⟨.nil s, _, hboot.inv, ?_⟩
      intro i page rest hpages
      cases hpages
  exact hall.2

/-- The pages of a cache measure its peak use. In no state of a run are more of its slots
handed out than its last pages hold, and in some state more were than its last pages hold
without the newest. -/
theorem slab_run_peak (hboot : SlabBoot s) (hrun : Run SlabStep s ops t)
    (hpages : Chain (fun a => (frame t.heap.mem a).next) (t.cache i).slabs pages) :
    (∀ before after u, ops = before ++ after → Run SlabStep s before u → Run SlabStep u after t →
      {x | u.Taken i x}.ncard ≤ (carvedOf (t.cache i).objSize pages).length) ∧
    ∀ page rest, pages = page :: rest → pageSlots (t.cache i).objSize page ≠ [] →
      ∃ before after u, ops = before ++ after ∧ Run SlabStep s before u ∧
        Run SlabStep u after t ∧
          (carvedOf (t.cache i).objSize rest).length < {x | u.Taken i x}.ncard := by
  obtain ⟨o, hinv, hpeak⟩ := PeakSeen.of_run hboot hrun
  have hsame : o.pages i = pages := (hinv.layout.pageChain i).unique hpages
  refine ⟨fun before after u _ hbefore hafter => ?_, fun page rest heq hslots => ?_⟩
  · obtain ⟨o', hu⟩ := hbefore.invariant (I := fun v => ∃ o, SlabRunInv v o)
      (fun _ _ _ hv hstep => hv.elim fun _ hi => hi.step hstep) ⟨_, hboot.inv⟩
    rw [← hsame]
    exact (hu.taken_le i).trans (hu.carved_mono_run hinv hafter i)
  · exact hpeak i page rest (hsame.trans heq) hslots

end Run

/-- Three free frames, and no cache yet. -/
def peakSlabs : SlabState :=
  ⟨Heap.boot (fun _ => 0#8) (fun _ => ⟨0, 0, 0⟩) (pmmFreeRegion smallPmm 0x40000 0x3000), [], []⟩

theorem peakSlabs_boot : SlabBoot peakSlabs where
  pmm := by
    have hpmm : Run PmmStep smallPmm [(.freeRegion 0x40000 0x3000, 0)] peakSlabs.heap.pmm :=
      .cons ⟨⟨by decide, by decide⟩, rfl⟩ (.nil _)
    exact ⟨_,
      (run_pmmInv hpmm (pmmInit_inv rfl (range_of_wrap (by decide)) smallPmm_init)).1⟩
  base_pos := by decide
  room := by decide
  uninitialized := rfl
  created := rfl
  live := rfl

/-- Two objects fit into a page: the third one takes a second page. -/
theorem peakSlabs_eval :
    (slabCacheCreate peakSlabs.heap 2000 >>= fun a => slabAllocAt a.2 a.1 >>= fun b =>
      slabAllocAt b.2 a.1 >>= fun c => slabAllocAt c.2 a.1 >>= fun d =>
        some ([a.1, b.1, c.1, d.1], (d.2.cacheAt a.1).slabs, (frame d.2.mem 0x42000).next,
          (frame d.2.mem 0x41000).next, (pageSlots (d.2.cacheAt a.1).objSize 0x42000).length,
          (pageSlots (d.2.cacheAt a.1).objSize 0x41000).length)) =
      some ([0x40fd0, 0x417e0, 0x41010, 0x427e0], 0x42000, 0x41000, 0, 2, 2) := by
  decide +kernel

theorem slab_run_peak_three_objects :
    ∃ (t : SlabState) (before after : List SlabOp) (u : SlabState),
      Run SlabStep peakSlabs (before ++ after) t ∧ Run SlabStep peakSlabs before u ∧
        Run SlabStep u after t ∧ 2 < {x | u.Taken (some 0x40fd0) x}.ncard := by
  obtain ⟨⟨ra, ha⟩, hcreate, hrest⟩ := Option.bind_eq_some_iff.mp peakSlabs_eval
  obtain ⟨⟨rb, hb⟩, hallocb, hrest⟩ := Option.bind_eq_some_iff.mp hrest
  obtain ⟨⟨rc, hc⟩, hallocc, hrest⟩ := Option.bind_eq_some_iff.mp hrest
  obtain ⟨⟨rd, hd⟩, hallocd, hrest⟩ := Option.bind_eq_some_iff.mp hrest
  simp only [Option.some.injEq, Prod.mk.injEq, List.cons.injEq, and_true] at hrest
  obtain ⟨⟨rfl, rfl, rfl, rfl⟩, hslabs, hnext, hlast, hnew, hold⟩ := hrest
  have hrun : Run SlabStep peakSlabs [.create 2000 0x40fd0, .alloc 0x40fd0 0x417e0,
      .alloc 0x40fd0 0x41010, .alloc 0x40fd0 0x427e0]
      ⟨hd, [0x40fd0], [(0x40fd0, 0x427e0), (0x40fd0, 0x41010), (0x40fd0, 0x417e0)]⟩ :=
    .cons (u := ⟨ha, [0x40fd0], []⟩) ⟨by decide, hcreate, rfl, rfl⟩
      (.cons (u := ⟨hb, [0x40fd0], [(0x40fd0, 0x417e0)]⟩) ⟨List.mem_cons_self, hallocb, rfl, rfl⟩
        (.cons (u := ⟨hc, [0x40fd0], [(0x40fd0, 0x41010), (0x40fd0, 0x417e0)]⟩)
          ⟨List.mem_cons_self, hallocc, rfl, rfl⟩
          (.cons (u := ⟨hd, [0x40fd0],
              [(0x40fd0, 0x427e0), (0x40fd0, 0x41010), (0x40fd0, 0x417e0)]⟩)
            ⟨List.mem_cons_self, hallocd, rfl, rfl⟩ (.nil _))))
  have hcache : (SlabState.mk hd [0x40fd0]
      [(0x40fd0, 0x427e0), (0x40fd0, 0x41010), (0x40fd0, 0x417e0)]).cache (some 0x40fd0) =
        hd.cacheAt 0x40fd0 := by
    simp [SlabState.cache]
  have hchain : Chain (fun a => (frame hd.mem a).next) (hd.cacheAt 0x40fd0).slabs
      [0x42000, 0x41000] := ⟨hslabs, by decide, hnext, by decide, hlast⟩
  rw [← hcache] at hchain hnew hold
  have hpages := (slab_run_peak peakSlabs_boot hrun hchain).2 0x42000 [0x41000] rfl
    (List.ne_nil_of_length_pos (by rw [hnew]; decide))
  rw [carvedOf_cons, carvedOf_nil, List.append_nil, hold] at hpages
  obtain ⟨before, after, u, heq, hbefore, hafter, hlt⟩ := hpages
  exact ⟨_, before, after, u, heq ▸ hrun, hbefore, hafter, hlt⟩

end Vectra

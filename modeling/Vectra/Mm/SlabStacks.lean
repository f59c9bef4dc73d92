import Vectra.Lib.Stacks
import Vectra.Mm.SlabPeak

/-!
# The caches as stacks

The free list of a cache is a stack: a release pushes, an allocation pops, and a cache
whose stack is empty fills it with the slots of one new page, the highest address on top.
The metadata cache, from which the caches come, is one of the stacks.
-/

namespace Vectra

open Lib SlabMem

/-- What a step of the slab allocator does to the free slots, as its callers see it. -/
def SlabOp.stackOp : SlabOp → Option (StackOp (Option ℕ) ℕ)
  | .create _ r => if r = 0 then none else some (.pop none r)
  | .alloc c r => if r = 0 then none else some (.pop (some c) r)
  | .free c x => some (.push (some c) x)
  | .other => none

/-- Between two steps as many objects of a cache are released as are allocated from it, and
never fewer so far. -/
def SlabMatched (c : ℕ) (ops : List SlabOp) : Prop :=
  stackHeight (some c) 0 (ops.filterMap SlabOp.stackOp) = some 0

section Cache

variable {M C ι : Type} [SlabMem M C] {slack x : ℕ} {m m' : M} {p p' : Pmm} {c c' : SlabCache}
  {pages free pages' free' : List ℕ}

/-- An allocation pops the free list, or an empty free list that one new page has filled. -/
theorem SlabInv.slabAlloc_stack (hp : PmmInv slack p) (hfit : SlabFits p c.objSize)
    (h : SlabInv m p c pages free) (hs : Vectra.slabAlloc m p c = some (x, m', p', c'))
    (hfree : Chain (link m') c'.freeObjects free')
    (hpages : Chain (fun a => (frame m' a).next) c'.slabs pages') :
    (x ≠ 0 ∧ free = x :: free' ∧ pages' = pages) ∨
      free = [] ∧ ∃ page, pages' = page :: pages ∧
        (pageSlots c.objSize page).reverse = if x = 0 then free' else x :: free' := by
  cases hlist : free with
  | cons y ys =>
      subst hlist
      obtain ⟨hy, _, hinv⟩ := h.slabPop_cons
      have hhead : c.freeObjects = y := h.freeChain.1
      have hne : y ≠ 0 := h.freeChain.ne_zero List.mem_cons_self
      unfold Vectra.slabAlloc at hs
      rw [if_neg (by rw [hhead]; exact hne)] at hs
      cases hs
      left
      rw [hy]
      exact ⟨hne, by rw [hfree.unique hinv.freeChain], hpages.unique hinv.pageChain⟩
  | nil =>
      subst hlist
      have hempty : c.freeObjects = 0 := h.freeChain
      unfold Vectra.slabAlloc at hs
      rw [if_pos hempty] at hs
      rcases h.slabGrow_cases hp hfit with ⟨hnone, _⟩ | ⟨i, _, _, m₁, c₁, hgrow, _, _, hinv⟩
      · simp [hnone] at hs
      · simp only [hgrow, Option.some.injEq, Prod.mk.injEq] at hs
        obtain ⟨hx, rfl, _, rfl⟩ := hs
        refine Or.inr ⟨rfl, p.frameAddr i, ?_⟩
        cases hrev : (pageSlots c.objSize (p.frameAddr i)).reverse with
        | nil =>
            rw [hrev] at hinv
            rw [hinv.slabPop_nil] at hx hfree hpages
            rw [if_pos hx.symm]
            exact ⟨hpages.unique hinv.pageChain, (hfree.unique hinv.freeChain).symm⟩
        | cons y ys =>
            rw [hrev] at hinv
            obtain ⟨hy, _, hinv'⟩ := hinv.slabPop_cons
            have hne : y ≠ 0 := hinv.freeChain.ne_zero List.mem_cons_self
            rw [hy] at hx
            subst hx
            rw [if_neg hne, hfree.unique hinv'.freeChain]
            exact ⟨hpages.unique hinv'.pageChain, rfl⟩

end Cache

/-- The pages that a cache has got, in order, are what its stack has been filled with. -/
def FilledFrom (objSize : ℕ) (pages : List ℕ) : List (List ℕ) :=
  (pages.map fun page => (pageSlots objSize page).reverse).reverse

theorem filledFrom_append (objSize : ℕ) (new pages : List ℕ) :
    FilledFrom objSize (new ++ pages) = FilledFrom objSize pages ++ FilledFrom objSize new := by
  simp [FilledFrom]

section Family

variable {M C ι : Type} [SlabMem M C] [DecidableEq ι] {slack x : ℕ} {m m' : M} {p p' : Pmm}
  {cache : ι → SlabCache} {o o' : SlabOwn ι} {i : ι} {c' : SlabCache}

/-- An allocation from one cache of a family, on the stacks. -/
theorem SlabFamily.alloc_stacks (h : SlabFamily slack m p cache o)
    (hs : slabAlloc m p (cache i) = some (x, m', p', c'))
    (hfree : ∀ j, Chain (link m') (Function.update cache i c' j).freeObjects (o'.free j))
    (hpages : ∀ j, Chain (fun a => (frame m' a).next) (Function.update cache i c' j).slabs
      (o'.pages j)) :
    ∃ ys, Run StackStep o.free ys o'.free ∧
      ys.filterMap StackOp.visible = (if x = 0 then [] else [.pop i x]) ∧
      ∀ j, ∃ new, o'.pages j = new ++ o.pages j ∧
        refills j ys = FilledFrom (cache j).objSize new := by
  obtain ⟨pages', free', hf', _⟩ := h.alloc_set hs
  have hfrees : o'.free = Function.update o.free i free' := by
    funext j
    exact (hfree j).unique (hf'.slab j).freeChain
  have hothers : ∀ j, j ≠ i → o'.pages j = o.pages j := by
    intro j hji
    rw [(hpages j).unique (hf'.slab j).pageChain, (SlabOwn.set_of_ne hji).1]
  have hown := hfree i
  have hownPages := hpages i
  rw [Function.update_self] at hown hownPages
  rw [hfrees, Function.update_self] at hown
  rcases (h.slab i).slabAlloc_stack h.pmm (h.fits i) hs hown hownPages with
    ⟨hx, hpop, hsame⟩ | ⟨hempty, page, hgrown, hslots⟩
  · refine ⟨[.pop i x], ?_, by rw [if_neg hx]; rfl, fun j => ⟨[], ?_, rfl⟩⟩
    · rw [hfrees]
      exact .cons (.pop hpop) (.nil _)
    · by_cases hji : j = i
      · rw [hji, hsame]
        rfl
      · rw [hothers j hji]
        rfl
  · have hpage : ∀ j ys,
        refills j ys = (if i = j then [(pageSlots (cache i).objSize page).reverse] else []) →
          ∃ new, o'.pages j = new ++ o.pages j ∧
            refills j ys = FilledFrom (cache j).objSize new := by
      intro j ys hys
      by_cases hij : i = j
      · subst hij
        rw [if_pos rfl] at hys
        exact ⟨[page], hgrown, hys⟩
      · rw [if_neg hij] at hys
        exact ⟨[], hothers j (Ne.symm hij), hys⟩
    by_cases hx : x = 0
    · rw [if_pos hx] at hslots
      refine ⟨[.refill i free'], ?_, by rw [if_pos hx]; rfl, fun j => hpage j _ ?_⟩
      · rw [hfrees]
        exact .cons (.refill free' hempty) (.nil _)
      · rw [hslots]
        by_cases hij : i = j <;> simp [refills, hij]
    · rw [if_neg hx] at hslots
      refine ⟨[.refill i (x :: free'), .pop i x], ?_, by rw [if_neg hx]; rfl,
        fun j => hpage j _ ?_⟩
      · have hpop : StackStep (Function.update o.free i (x :: free')) (.pop i x)
            (Function.update (Function.update o.free i (x :: free')) i free') :=
          .pop (Function.update_self _ _ _)
        rw [Function.update_idem] at hpop
        rw [hfrees]
        exact .cons (.refill (x :: free') hempty) (.cons hpop (.nil _))
      · rw [hslots]
        by_cases hij : i = j <;> simp [refills, hij]

end Family

section Run

variable {s t u : SlabState} {o o' : SlabOwn (Option ℕ)} {ops : List SlabOp} {op : SlabOp}

namespace SlabRunInv

/-- One step, on the stacks. -/
theorem stack_step (h : SlabRunInv s o) (h' : SlabRunInv t o') (hs : SlabStep s op t) :
    ∃ ys, Run StackStep o.free ys o'.free ∧
      ys.filterMap StackOp.visible = [op].filterMap SlabOp.stackOp ∧
      ∀ i, ∃ new, o'.pages i = new ++ o.pages i ∧
        refills i ys = FilledFrom (t.cache i).objSize new := by
  obtain ⟨slack, hf⟩ := h.family
  have hfree := h'.layout.freeChain
  have hpages := h'.layout.pageChain
  have hsize : ∀ i new, o'.pages i = new ++ o.pages i →
      FilledFrom (t.cache i).objSize new = FilledFrom (s.cache i).objSize new := by
    intro i new hnew
    cases new with
    | nil => rfl
    | cons page new => rw [(h.pages_step h' hs i).1 (by simp [hnew])]
  cases op with
  | create size r =>
      obtain ⟨c', halloc, hcache⟩ := cache_create hs
      have hlists : ∀ i, (t.cache i).freeObjects = (Function.update s.cache none c' i).freeObjects ∧
          (t.cache i).slabs = (Function.update s.cache none c' i).slabs := by
        intro i
        by_cases hir : r ≠ 0 ∧ i = some r
        · -- a cache that has not been created stands for an empty one
          obtain ⟨hr, rfl⟩ := hir
          have hnew : r ∉ s.created := (h.create hs).2 none
          rw [hcache, if_neg hr, Function.update_self, Function.update_of_ne (by simp)]
          simp [SlabState.cache, hnew, newSlabCache]
        · rw [hcache]
          split
          · exact ⟨rfl, rfl⟩
          · rename_i hr
            rw [Function.update_of_ne fun heq => hir ⟨hr, heq⟩]
            exact ⟨rfl, rfl⟩
      obtain ⟨ys, hrun, hvis, hnew⟩ := hf.alloc_stacks halloc
        (fun i => (hlists i).1 ▸ hfree i) (fun i => (hlists i).2 ▸ hpages i)
      refine ⟨ys, hrun, ?_, fun i => ?_⟩
      · rw [hvis]
        by_cases hr : r = 0 <;> simp [SlabOp.stackOp, hr]
      · obtain ⟨new, hgrown, hfilled⟩ := hnew i
        exact ⟨new, hgrown, by rw [hfilled, hsize i new hgrown]⟩
  | alloc c r =>
      obtain ⟨c', halloc, hcache⟩ := cache_alloc (h.live_pos hs.1) hs
      obtain ⟨ys, hrun, hvis, hnew⟩ := hf.alloc_stacks halloc
        (fun i => hcache ▸ hfree i) (fun i => hcache ▸ hpages i)
      refine ⟨ys, hrun, ?_, fun i => ?_⟩
      · rw [hvis]
        by_cases hr : r = 0 <;> simp [SlabOp.stackOp, hr]
      · obtain ⟨new, hgrown, hfilled⟩ := hnew i
        exact ⟨new, hgrown, by rw [hfilled, hsize i new hgrown]⟩
  | free c x =>
      have hc := h.owner c x hs.1
      obtain ⟨hmem, _, hcache⟩ := cache_free (h.live_pos hc) hc hs
      have hf' := (hf.free ((h.held (some c) x).mpr hs.1)).1
      have hfrees : o'.free = Function.update o.free (some c) (x :: o.free (some c)) := by
        funext i
        have hchain := hfree i
        rw [hmem, hcache] at hchain
        exact hchain.unique (hf'.slab i).freeChain
      have hsame : o'.pages = o.pages := by
        funext i
        have hchain := hpages i
        rw [hmem, hcache] at hchain
        rw [hchain.unique (hf'.slab i).pageChain]
        exact congrFun (Function.update_eq_self (some c) o.pages) i
      refine ⟨[.push (some c) x], ?_, rfl, fun i => ⟨[], by rw [hsame]; rfl, rfl⟩⟩
      rw [hfrees]
      exact .cons (.push o.free (some c) x) (.nil _)
  | other =>
      have hcode : OtherSlabCode s t := hs
      have hlayout := (h.other hcode).layout
      have hfrees : o'.free = o.free := by
        funext i
        exact (hfree i).unique (hlayout.freeChain i)
      refine ⟨[], ?_, rfl, fun i => ⟨[], ?_, rfl⟩⟩
      · rw [hfrees]
        exact .nil _
      · exact (hpages i).unique (hlayout.pageChain i)

/-- A run, on the stacks. -/
theorem stack_run (h : SlabRunInv s o) (hrun : Run SlabStep s ops t) :
    ∃ o' ys, SlabRunInv t o' ∧ Run StackStep o.free ys o'.free ∧
      ys.filterMap StackOp.visible = ops.filterMap SlabOp.stackOp ∧
      ∀ i, ∃ new, o'.pages i = new ++ o.pages i ∧
        refills i ys = FilledFrom (t.cache i).objSize new := by
  refine hrun.invariant_labels (I := fun xs u => ∃ o' ys, SlabRunInv u o' ∧
    Run StackStep o.free ys o'.free ∧
      ys.filterMap StackOp.visible = xs.filterMap SlabOp.stackOp ∧
      ∀ i, ∃ new, o'.pages i = new ++ o.pages i ∧
        refills i ys = FilledFrom (u.cache i).objSize new)
    ?_ ⟨o, [], h, .nil _, rfl, fun i => ⟨[], rfl, rfl⟩⟩
  rintro xs u op v ⟨o₁, ys, hu, hstacks, hvis, hfilled⟩ hstep
  obtain ⟨o₂, hv⟩ := hu.step hstep
  obtain ⟨zs, hstacks', hvis', hfilled'⟩ := hu.stack_step hv hstep
  refine ⟨o₂, ys ++ zs, hv, hstacks.append hstacks', ?_, fun i => ?_⟩
  · rw [List.filterMap_append, List.filterMap_append, hvis, hvis']
  · obtain ⟨new, hnew, hys⟩ := hfilled i
    obtain ⟨new', hnew', hzs⟩ := hfilled' i
    refine ⟨new' ++ new, by rw [hnew', hnew, List.append_assoc], ?_⟩
    have hsize : FilledFrom (v.cache i).objSize new = FilledFrom (u.cache i).objSize new := by
      cases new with
      | nil => rfl
      | cons page new => rw [(hu.pages_step hv hstep i).1 (by simp [hnew', hnew])]
    rw [refills_append, hys, hzs, filledFrom_append, hsize]

end SlabRunInv

/-- The slab allocator refines a family of stacks: every run of it is a run of the stacks with
the same pushes and pops, and the free lists that the run leaves are these stacks. A stack is
filled only when it is empty, each time with the slots of one page, the highest address on
top, and these pages are the pages of the cache. -/
theorem slab_refines_stacks (hboot : SlabBoot s) (hrun : Run SlabStep s ops t) :
    ∃ ys pages free, Run StackStep (fun _ => []) ys free ∧
      ys.filterMap StackOp.visible = ops.filterMap SlabOp.stackOp ∧
      SlabLayout t pages free ∧
      ∀ i, refills i ys = FilledFrom (t.cache i).objSize (pages i) := by
  obtain ⟨o, ys, hinv, hstacks, hvis, hfilled⟩ := hboot.inv.stack_run hrun
  refine ⟨ys, o.pages, o.free, hstacks, hvis, hinv.layout, fun i => ?_⟩
  obtain ⟨new, hnew, hys⟩ := hfilled i
  rw [hys, hnew, List.append_nil]

end Run

/-- Two objects of 2000 bytes, of which the older one is released last. -/
theorem peakSlabs_reuse :
    (slabCacheCreate peakSlabs.heap 2000 >>= fun a => slabAllocAt a.2 a.1 >>= fun b =>
      slabAllocAt b.2 a.1 >>= fun c =>
        slabAllocAt (slabFreeAt (slabFreeAt c.2 a.1 c.1) a.1 b.1) a.1 >>= fun d =>
          slabAllocAt d.2 a.1 >>= fun e => some [a.1, b.1, c.1, d.1, e.1]) =
      some [0x40fd0, 0x417e0, 0x41010, 0x417e0, 0x41010] := by
  decide +kernel

theorem peakSlabs_run :
    ∃ (t u : SlabState) (y : ℕ), Run SlabStep peakSlabs [.create 2000 0x40fd0,
        .alloc 0x40fd0 0x417e0, .alloc 0x40fd0 0x41010] t ∧
      Run SlabStep t (.free 0x40fd0 0x41010 ::
        [.free 0x40fd0 0x417e0, .alloc 0x40fd0 0x417e0] ++ [.alloc 0x40fd0 y]) u ∧ y ≠ 0 := by
  obtain ⟨⟨ra, ha⟩, hcreate, hrest⟩ := Option.bind_eq_some_iff.mp peakSlabs_reuse
  obtain ⟨⟨rb, hb⟩, hallocb, hrest⟩ := Option.bind_eq_some_iff.mp hrest
  obtain ⟨⟨rc, hc⟩, hallocc, hrest⟩ := Option.bind_eq_some_iff.mp hrest
  obtain ⟨⟨rd, hd⟩, hallocd, hrest⟩ := Option.bind_eq_some_iff.mp hrest
  obtain ⟨⟨re, he⟩, halloce, hrest⟩ := Option.bind_eq_some_iff.mp hrest
  simp only [Option.some.injEq, List.cons.injEq, and_true] at hrest
  obtain ⟨rfl, rfl, rfl, rfl, hlast⟩ := hrest
  have hne : re ≠ 0 := by
    rw [hlast]
    decide
  refine ⟨⟨hc, [0x40fd0], [(0x40fd0, 0x41010), (0x40fd0, 0x417e0)]⟩,
    ⟨he, [0x40fd0], [(0x40fd0, re), (0x40fd0, 0x417e0)]⟩, re, ?_, ?_, hne⟩
  · exact .cons (u := ⟨ha, [0x40fd0], []⟩) ⟨by decide, hcreate, rfl, rfl⟩
      (.cons (u := ⟨hb, [0x40fd0], [(0x40fd0, 0x417e0)]⟩) ⟨List.mem_cons_self, hallocb, rfl, rfl⟩
        (.cons (u := ⟨hc, [0x40fd0], [(0x40fd0, 0x41010), (0x40fd0, 0x417e0)]⟩)
          ⟨List.mem_cons_self, hallocc, rfl, rfl⟩ (.nil _)))
  · exact .cons (u := ⟨slabFreeAt hc 0x40fd0 0x41010, [0x40fd0], [(0x40fd0, 0x417e0)]⟩)
      ⟨List.mem_cons_self, rfl, rfl, by simp⟩
      (.cons (u := ⟨slabFreeAt (slabFreeAt hc 0x40fd0 0x41010) 0x40fd0 0x417e0, [0x40fd0], []⟩)
        ⟨List.mem_cons_self, rfl, rfl, by simp⟩
        (.cons (u := ⟨hd, [0x40fd0], [(0x40fd0, 0x417e0)]⟩)
          ⟨List.mem_cons_self, hallocd, rfl, rfl⟩
          (.cons (u := ⟨he, [0x40fd0], [(0x40fd0, re), (0x40fd0, 0x417e0)]⟩)
            ⟨List.mem_cons_self, halloce, rfl, by simp [hne]⟩ (.nil _))))

theorem slab_refines_stacks_two_objects :
    ∃ t ys pages free, Run SlabStep peakSlabs [.create 2000 0x40fd0, .alloc 0x40fd0 0x417e0,
        .alloc 0x40fd0 0x41010] t ∧ Run StackStep (fun _ => []) ys free ∧
      ys.filterMap StackOp.visible =
        [.pop none 0x40fd0, .pop (some 0x40fd0) 0x417e0, .pop (some 0x40fd0) 0x41010] ∧
      SlabLayout t pages free := by
  obtain ⟨t, _, _, hrun, _⟩ := peakSlabs_run
  obtain ⟨ys, pages, free, hpiles, hvis, hlayout, _⟩ := slab_refines_stacks peakSlabs_boot hrun
  exact ⟨t, ys, pages, free, hrun, hpiles, hvis, hlayout⟩

section Reuse

variable {s t u : SlabState} {ops : List SlabOp}

/-- The slot that is released last is handed out first: an allocation from a cache returns the
object whose release it matches, whatever happened to the cache and to others in between. -/
theorem slab_run_reuse {mid : List SlabOp} {c x y : ℕ} (hboot : SlabBoot s)
    (hrun : Run SlabStep s ops t)
    (hreuse : Run SlabStep t (.free c x :: mid ++ [.alloc c y]) u) (hmid : SlabMatched c mid)
    (hy : y ≠ 0) : y = x := by
  obtain ⟨o, hinv⟩ := hrun.invariant (I := fun v => ∃ o, SlabRunInv v o)
    (fun _ _ _ hv hstep => hv.elim fun _ hi => hi.step hstep) ⟨_, hboot.inv⟩
  obtain ⟨_, ys, _, hstacks, hvis, _⟩ := hinv.stack_run hreuse
  refine hstacks.last_in_first_out ?_ hmid
  rw [hvis, List.filterMap_append]
  simp [SlabOp.stackOp, hy]

end Reuse

theorem slab_run_reuse_two_objects :
    ∃ (t u : SlabState) (y : ℕ), Run SlabStep peakSlabs [.create 2000 0x40fd0,
        .alloc 0x40fd0 0x417e0, .alloc 0x40fd0 0x41010] t ∧
      Run SlabStep t (.free 0x40fd0 0x41010 ::
        [.free 0x40fd0 0x417e0, .alloc 0x40fd0 0x417e0] ++ [.alloc 0x40fd0 y]) u ∧
      y = 0x41010 := by
  obtain ⟨t, u, y, hrun, hreuse, hne⟩ := peakSlabs_run
  exact ⟨t, u, y, hrun, hreuse, slab_run_reuse peakSlabs_boot hrun hreuse rfl hne⟩

end Vectra

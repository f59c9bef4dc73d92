import Vectra.Arm64.RootSteps
import Vectra.Mm.KheapContents

/-!
# Runs of the roots

Destroying a root releases the frames that became tables for it, each once. Of
the frames that its creation took, a slab page of the heap stays behind.
-/

namespace Vectra.Arm64

open Lib

/-- An operation with the frames that become tables, and those whose bits it sets and clears. -/
structure PoolEvent where
  op : PoolOp
  tables : Finset ℕ
  took : Finset ℕ
  gave : Finset ℕ

def newFrames (p q : Pmm) : Finset ℕ :=
  (Finset.range p.totalFrames).filter fun f => p.used f = false ∧ q.used f = true

/-- The frames that `alloc_table_page` has given in between. -/
def tableFrames (k k' : Pool) : Finset ℕ :=
  (Finset.range k.heap.pmm.totalFrames).filter fun f =>
    k.heap.pmm.frameAddr f ∉ k.tables ∧ k.heap.pmm.frameAddr f ∈ k'.tables

def EventStep (k : Pool) (e : PoolEvent) (k' : Pool) : Prop :=
  PoolStep k e.op k' ∧ e.tables = tableFrames k k' ∧ e.took = newFrames k.heap.pmm k'.heap.pmm ∧
    e.gave = newFrames k'.heap.pmm k.heap.pmm

/-- The operations that allocate tables for `r`. -/
def PoolOp.takesFor (r : ℕ) : PoolOp → Bool
  | .create r' => decide (r' = r)
  | op => op.walksFor r

/-- A frame that `arch_pagetable_create` or `walk_create` took as a table for `r`. -/
def TableFrame (r : ℕ) (es : List PoolEvent) (f : ℕ) : Prop :=
  ∃ e ∈ es, e.op.takesFor r = true ∧ f ∈ e.tables

/-- The frames that a creation takes besides its table, for the block of the root. -/
def PoolEvent.slab (c : PoolEvent) : Finset ℕ := c.took \ c.tables

/-- What `arch_pagetable_destroy` releases, and in which order, after the run `c :: es` of which
`c` created the root in the state `s`. -/
structure Releases (r : ℕ) (s : Pool) (c : PoolEvent) (es : List PoolEvent) (v t : Pool) :
    Prop where
  calls : t.heap.pmm = (freedTables v.heap.mem 3 (v.ttbr0Phys r)).foldl pmmFreeFrame v.heap.pmm
  once : (freedTables v.heap.mem 3 (v.ttbr0Phys r)).Nodup
  exact : ∀ a, a ∈ freedTables v.heap.mem 3 (v.ttbr0Phys r) ↔
    ∃ f, TableFrame r (c :: es) f ∧ v.heap.pmm.frameAddr f = a
  others : ∀ j < v.heap.pmm.totalFrames, t.heap.pmm.used j = true ↔
    v.heap.pmm.used j = true ∧ ¬ TableFrame r (c :: es) j
  data : ∀ es₁ es₂ w f, c :: es = es₁ ++ es₂ → Run EventStep s es₁ w → Run EventStep w es₂ v →
    f < w.heap.pmm.totalFrames → w.heap.pmm.used f = true → ¬ TableFrame r es₁ f →
    (∀ e ∈ es₂, f ∉ e.gave) →
    v.heap.pmm.frameAddr f ∉ freedTables v.heap.mem 3 (v.ttbr0Phys r)
  slab : c.slab.card ≤ 1 ∧ ((s.heap.cache 0).freeObjects ≠ 0 → c.slab = ∅)
  returns : ∀ j < s.heap.pmm.totalFrames,
    (∀ e ∈ es, e.op.walksFor r = false → j ∉ e.took ∧ j ∉ e.gave) →
    (t.heap.pmm.used j = true ↔ s.heap.pmm.used j = true ∨ j ∈ c.slab)

section Frames

variable {s t u v w : Pool} {es es₁ es₂ : List PoolEvent} {op : PoolOp} {c e : PoolEvent}
  {r f : ℕ} {P : ℕ → Prop}

theorem mem_newFrames {p q : Pmm} :
    f ∈ newFrames p q ↔ f < p.totalFrames ∧ p.used f = false ∧ q.used f = true := by
  unfold newFrames
  rw [Finset.mem_filter, Finset.mem_range]

theorem mem_tableFrames {k k' : Pool} : f ∈ tableFrames k k' ↔ f < k.heap.pmm.totalFrames ∧
    k.heap.pmm.frameAddr f ∉ k.tables ∧ k.heap.pmm.frameAddr f ∈ k'.tables := by
  unfold tableFrames
  rw [Finset.mem_filter, Finset.mem_range]

theorem tableFrame_cons : TableFrame r (c :: es) f ↔
    (c.op.takesFor r = true ∧ f ∈ c.tables) ∨ TableFrame r es f := by
  unfold TableFrame
  rw [List.exists_mem_cons_iff]

theorem tableFrame_append :
    TableFrame r (es₁ ++ es₂) f ↔ TableFrame r es₁ f ∨ TableFrame r es₂ f := by
  unfold TableFrame
  simp only [List.mem_append, or_and_right, exists_or]

theorem run_rootsInv (h : RootsInv s) (hrun : Run EventStep s es t) :
    RootsInv t ∧ SameRange s.heap.pmm t.heap.pmm := by
  induction hrun with
  | nil s => exact ⟨h, SameRange.refl _⟩
  | cons head tail ih =>
      have hspec := h.step head.1
      obtain ⟨ht, hrest⟩ := ih hspec.inv
      exact ⟨ht, hspec.range.trans hrest⟩

/-- The frames that become tables were free. -/
theorem EventStep.fresh (h : RootsInv s) (hs : EventStep s e t) (hf : f ∈ e.tables) :
    f < s.heap.pmm.totalFrames ∧ s.heap.pmm.used f = false ∧ t.heap.pmm.used f = true := by
  rw [hs.2.1, mem_tableFrames] at hf
  exact ⟨hf.1, (h.step hs.1).fresh f hf.1 hf.2.1 hf.2.2⟩

/-- A walk takes its tables only. -/
theorem EventStep.walk (h : RootsInv s) (hs : EventStep s e t) (hop : e.op.walksFor r = true)
    (hf : f < s.heap.pmm.totalFrames) :
    f ∈ e.tables ↔ s.heap.pmm.used f = false ∧ t.heap.pmm.used f = true := by
  refine ⟨fun hmem => (hs.fresh h hmem).2, fun ⟨hclear, hset⟩ => ?_⟩
  rw [hs.2.1, mem_tableFrames]
  exact ⟨hf, ((h.step hs.1).walk r hop).2 f hf hclear hset⟩

theorem run_tableFrame_lt (h : RootsInv s) (hrun : Run EventStep s es t)
    (hf : TableFrame r es f) : f < t.heap.pmm.totalFrames := by
  induction hrun with
  | nil s =>
      obtain ⟨_, he, _⟩ := hf
      cases he
  | cons head tail ih =>
      have hspec := h.step head.1
      rcases tableFrame_cons.mp hf with ⟨_, hmem⟩ | hmem
      · rw [(run_rootsInv hspec.inv tail).2.2, hspec.range.2]
        exact (head.fresh h hmem).1
      · exact ih hspec.inv hmem

theorem takesFor_of_ne_create (hop : op ≠ .create r) : op.takesFor r = op.walksFor r := by
  cases op with
  | create r' =>
      have hne : r' ≠ r := fun heq => hop (by rw [heq])
      simp [PoolOp.takesFor, PoolOp.walksFor, hne]
  | map => rfl
  | unmap => rfl
  | destroy => rfl
  | other => rfl

/-- On a live root, the walks are what allocates tables. -/
theorem EventStep.takesFor (h : RootsInv s) (hr : r ∈ s.roots) (hs : EventStep s e t) :
    e.op.takesFor r = e.op.walksFor r :=
  takesFor_of_ne_create fun heq => h.create_fresh hr (heq ▸ hs.1)

/-- The tables of a live root are the frames taken for it. -/
theorem run_tables (h : RootsInv s) (hr : r ∈ s.roots)
    (hP : ∀ a, TableOf s.spaces (s.root r) a ↔
      ∃ f < s.heap.pmm.totalFrames, P f ∧ s.heap.pmm.frameAddr f = a)
    (hrun : Run EventStep s es t) (hlive : ∀ e ∈ es, e.op ≠ .destroy r) :
    r ∈ t.roots ∧ ∀ a, TableOf t.spaces (t.root r) a ↔
      ∃ f < t.heap.pmm.totalFrames, (P f ∨ TableFrame r es f) ∧ t.heap.pmm.frameAddr f = a := by
  induction hrun generalizing P with
  | nil s =>
      refine ⟨hr, fun a => ?_⟩
      rw [hP a]
      simp [TableFrame]
  | @cons s u t e es head tail ih =>
      have hspec := h.step head.1
      have hserve := hspec.serves r hr (hlive e List.mem_cons_self)
      have htakes := head.takesFor h hr
      have hP' : ∀ a, TableOf u.spaces (u.root r) a ↔ ∃ f < u.heap.pmm.totalFrames,
          (P f ∨ e.op.takesFor r = true ∧ f ∈ e.tables) ∧ u.heap.pmm.frameAddr f = a := by
        intro a
        rw [hserve.root, hserve.tables a, hP a, hspec.range.2, htakes]
        simp only [hspec.range.frameAddr]
        constructor
        · rintro (⟨f, hf, hPf, heq⟩ | ⟨hwalks, f, hf, hclear, hset, heq⟩)
          · exact ⟨f, hf, Or.inl hPf, heq⟩
          · exact ⟨f, hf, Or.inr ⟨hwalks, (head.walk h hwalks hf).mpr ⟨hclear, hset⟩⟩, heq⟩
        · rintro ⟨f, hf, hPf | ⟨hwalks, hmem⟩, heq⟩
          · exact Or.inl ⟨f, hf, hPf, heq⟩
          · obtain ⟨hclear, hset⟩ := (head.walk h hwalks hf).mp hmem
            exact Or.inr ⟨hwalks, f, hf, hclear, hset, heq⟩
      obtain ⟨hmem, htables⟩ := ih hspec.inv hserve.live hP'
        fun e he => hlive e (List.mem_cons_of_mem _ he)
      refine ⟨hmem, fun a => ?_⟩
      rw [htables a]
      simp only [tableFrame_cons, or_assoc]

/-- A used frame that nobody releases does not become a table. -/
theorem run_used (h : RootsInv s) (hrun : Run EventStep s es t) (hf : f < s.heap.pmm.totalFrames)
    (hused : s.heap.pmm.used f = true) (hgave : ∀ e ∈ es, f ∉ e.gave) : ¬ TableFrame r es f := by
  induction hrun with
  | nil s => simp [TableFrame]
  | @cons s u t e es head tail ih =>
      have hspec := h.step head.1
      have hset : u.heap.pmm.used f = true := by
        have hnot := hgave e List.mem_cons_self
        rw [head.2.2.2, mem_newFrames, hspec.range.2] at hnot
        cases huf : u.heap.pmm.used f with
        | true => rfl
        | false => exact absurd ⟨hf, huf, hused⟩ hnot
      rw [tableFrame_cons]
      rintro (⟨_, hmem⟩ | hmem)
      · have hclear := (head.fresh h hmem).2.1
        rw [hused] at hclear
        cases hclear
      · exact ih hspec.inv (by rw [hspec.range.2]; exact hf) hset
          (fun e he => hgave e (List.mem_cons_of_mem _ he)) hmem

/-- A frame that only the walks below `r` touch is used at the end if it was, or is a table. -/
theorem run_untouched (h : RootsInv s) (hr : r ∈ s.roots) (hrun : Run EventStep s es t)
    (hlive : ∀ e ∈ es, e.op ≠ .destroy r) (hf : f < s.heap.pmm.totalFrames)
    (hother : ∀ e ∈ es, e.op.walksFor r = false → f ∉ e.took ∧ f ∉ e.gave) :
    (t.heap.pmm.used f = true ↔ s.heap.pmm.used f = true ∨ TableFrame r es f) ∧
      (TableFrame r es f → s.heap.pmm.used f = false) := by
  induction hrun with
  | nil s => simp [TableFrame]
  | @cons s u t e es head tail ih =>
      have hspec := h.step head.1
      have hserve := hspec.serves r hr (hlive e List.mem_cons_self)
      obtain ⟨hrest, hfresh⟩ := ih hspec.inv hserve.live
        (fun e he => hlive e (List.mem_cons_of_mem _ he)) (by rw [hspec.range.2]; exact hf)
        (fun e he => hother e (List.mem_cons_of_mem _ he))
      -- the frame changes in this step only if it becomes a table of the root
      have hstep : u.heap.pmm.used f = true ↔
          s.heap.pmm.used f = true ∨ e.op.takesFor r = true ∧ f ∈ e.tables := by
        rw [head.takesFor h hr]
        cases hwalks : e.op.walksFor r with
        | true =>
            rw [head.walk h hwalks hf]
            cases hsf : s.heap.pmm.used f with
            | true => simp [(hspec.walk r hwalks).1.2 f hsf]
            | false => simp
        | false =>
            obtain ⟨htook, hgave⟩ := hother e List.mem_cons_self hwalks
            rw [head.2.2.1, mem_newFrames] at htook
            rw [head.2.2.2, mem_newFrames, hspec.range.2] at hgave
            cases hsf : s.heap.pmm.used f with
            | true => simpa [hf, hsf] using hgave
            | false => simpa [hf, hsf] using htook
      rw [hrest, tableFrame_cons, hstep, or_assoc]
      refine ⟨Iff.rfl, ?_⟩
      rintro (⟨_, hmem⟩ | hmem)
      · exact (head.fresh h hmem).2.1
      · have hclear := hfresh hmem
        cases hsf : s.heap.pmm.used f with
        | false => rfl
        | true =>
            rw [hstep.mpr (Or.inl hsf)] at hclear
            cases hclear

/-- What the event of a creation has taken: the table, and at most one frame for the block. -/
theorem EventStep.create (h : RootsInv s) (hs : EventStep s c u) (hc : c.op = .create r)
    (hr : r ≠ 0) : NewRoot s r u ∧ (∀ f, f ∈ c.tables ↔ f < s.heap.pmm.totalFrames ∧
        s.heap.pmm.frameAddr f = u.ttbr0Phys r) ∧
      (c.slab.card ≤ 1 ∧ ((s.heap.cache 0).freeObjects ≠ 0 → c.slab = ∅)) ∧
      ∀ f < s.heap.pmm.totalFrames, u.heap.pmm.used f = true ↔
        s.heap.pmm.used f = true ∨ f ∈ c.tables ∨ f ∈ c.slab := by
  obtain ⟨hstep, htables, htook, _⟩ := hs
  obtain ⟨slack, hp⟩ := h.pmmInv
  rw [hc] at hstep
  obtain ⟨hzero, _⟩ | ⟨_, hnew⟩ := h.create hstep
  · exact absurd hzero hr
  obtain ⟨p, f₀, hkmalloc, hf₀, hclear, haddr, hpmm⟩ := hnew.frames
  have hold : s.heap.pmm.used f₀ = false := by
    rcases hkmalloc with rfl | ⟨_, i, _, _, rfl⟩
    · exact hclear
    · rw [takeFrame_used, Bool.or_eq_false_iff] at hclear
      exact hclear.2
  have hmine : ∀ f, f ∈ c.tables ↔ f < s.heap.pmm.totalFrames ∧
      s.heap.pmm.frameAddr f = u.ttbr0Phys r := by
    intro f
    rw [htables, mem_tableFrames, hnew.tables, ← haddr]
    constructor
    · rintro ⟨hf, hnot, hmem⟩
      exact ⟨hf, (List.mem_cons.mp hmem).resolve_right hnot⟩
    · rintro ⟨hf, heq⟩
      rw [heq]
      refine ⟨hf, fun hmem => ?_, List.mem_cons_self⟩
      rw [h.table_used hf₀ hmem] at hold
      cases hold
  have hfirst : ∀ f, f ∈ c.tables ↔ f = f₀ := by
    intro f
    rw [hmine, ← haddr]
    constructor
    · rintro ⟨hf, heq⟩
      exact (frameAddr_inj hp hf hf₀).mp heq
    · rintro rfl
      exact ⟨hf₀, rfl⟩
  have hslab : ∀ f, f ∈ c.slab ↔ f < s.heap.pmm.totalFrames ∧ s.heap.pmm.used f = false ∧
      p.used f = true ∧ f ≠ f₀ := by
    intro f
    unfold PoolEvent.slab
    rw [Finset.mem_sdiff, htook, mem_newFrames, hfirst, hpmm, takeFrame_used]
    by_cases hff : f = f₀ <;> simp [hff]
  refine ⟨hnew, hmine, ?_, fun f hf => ?_⟩
  · rcases hkmalloc with rfl | ⟨hslot, i, _, _, rfl⟩
    · have hempty : c.slab = ∅ := by
        ext f
        rw [hslab]
        simp only [Finset.notMem_empty, iff_false]
        rintro ⟨_, hcl, hset, _⟩
        rw [hcl] at hset
        cases hset
      rw [hempty]
      exact ⟨by simp, fun _ => rfl⟩
    · refine ⟨?_, fun hne => absurd hslot hne⟩
      have hsub : c.slab ⊆ {i} := by
        intro f hf
        obtain ⟨_, hcl, hset, _⟩ := (hslab f).mp hf
        rw [takeFrame_used, hcl, Bool.or_false, decide_eq_true_eq] at hset
        rw [Finset.mem_singleton]
        exact hset
      exact (Finset.card_le_card hsub).trans (by simp)
  · have hgrown : s.heap.pmm.used f = true → p.used f = true := by
      intro hset
      rcases hkmalloc with rfl | ⟨_, i, _, _, rfl⟩
      · exact hset
      · rw [takeFrame_used, hset, Bool.or_true]
    rw [hpmm, takeFrame_used, hfirst, hslab, Bool.or_eq_true, decide_eq_true_eq]
    by_cases hff : f = f₀
    · simp [hff]
    · cases hsf : s.heap.pmm.used f with
      | true => simp [hgrown hsf]
      | false => simp [hf, hff]

/-- The heap and the frames before the first root, after any runs of their own. -/
theorem kheap_run_rootsInv {b b' : BootHeap} {bootMem mem : Bytes} {base size : ℕ} {s₀ p : Pmm}
    {cacheAt : ℕ → SlabCache} {pmmOps : List (PmmOp × ℕ)} {h : Heap}
    {ops : List (KheapOp × ℕ)} {w : Heap × List ℕ} (hbase : 0 < base)
    (halign : base % pageSize = 0) (htop : base + size ≤ 2 ^ 48)
    (hinit : pmmInit Pmm.boot b bootMem base size = some (s₀, b'))
    (hpmm : Run PmmStep s₀ pmmOps p) (hheap : kheapInit (Heap.boot mem cacheAt p) = some h)
    (hkheap : Run KheapStep (h, []) ops w) : RootsInv (.boot w.1 w.2) := by
  have hwrap : base + size < 2 ^ 64 := by omega
  obtain ⟨slack, o, hi⟩ := kheap_run_inv hbase halign hwrap hinit hpmm hheap hkheap
  obtain ⟨hmem, htotal⟩ := kheap_run_range hbase halign hwrap hinit hpmm hheap hkheap
  refine RootsInv.boot hi (by rw [hmem]; exact halign) ?_
  rw [hmem, htotal]
  have hdiv := Nat.div_mul_le_self size pageSize
  omega

/-- Destroying a root passes the frames that were taken for it to `pmm_free_frame`, each once, and
no data frame. The used frames are then what they were before the root, but for a slab page that
its block has taken. -/
theorem arch_pagetable_destroy_run {b b' : BootHeap} {bootMem mem : Bytes} {base size : ℕ}
    {s₀ p : Pmm} {cacheAt : ℕ → SlabCache} {pmmOps : List (PmmOp × ℕ)} {h : Heap}
    {ops : List (KheapOp × ℕ)} {w : Heap × List ℕ} {es₀ : List PoolOp} (hbase : 0 < base)
    (halign : base % pageSize = 0) (htop : base + size ≤ 2 ^ 48)
    (hinit : pmmInit Pmm.boot b bootMem base size = some (s₀, b'))
    (hpmm : Run PmmStep s₀ pmmOps p) (hheap : kheapInit (Heap.boot mem cacheAt p) = some h)
    (hkheap : Run KheapStep (h, []) ops w) (hrun₀ : Run PoolStep (.boot w.1 w.2) es₀ s)
    (hc : c.op = .create r) (hr : r ≠ 0) (hrun : Run EventStep s (c :: es) v)
    (hlive : ∀ e ∈ es, e.op ≠ .destroy r) (hdestroy : PoolStep v (.destroy r) t) :
    Releases r s c es v t := by
  have hboot := kheap_run_rootsInv hbase halign htop hinit hpmm hheap hkheap
  have hs : RootsInv s := hrun₀.invariant (fun _ _ _ hk hstep => (hk.step hstep).inv) hboot
  have hall := hrun
  cases hrun with
  | @cons _ u _ _ _ head tail =>
      obtain ⟨hnew, hmine, hslab, hused⟩ := head.create hs hc hr
      have hspec := hs.step head.1
      have hru : r ∈ u.roots := by
        rw [hnew.roots]
        exact List.mem_cons_self
      have hP : ∀ a, TableOf u.spaces (u.root r) a ↔
          ∃ f < u.heap.pmm.totalFrames, f ∈ c.tables ∧ u.heap.pmm.frameAddr f = a := by
        intro a
        rw [hnew.own a, hspec.range.2]
        simp only [hmine, hspec.range.frameAddr]
        constructor
        · rintro rfl
          obtain ⟨_, f, _, hf, _, haddr, _⟩ := hnew.frames
          exact ⟨f, hf, ⟨hf, haddr⟩, haddr⟩
        · rintro ⟨f, _, ⟨_, haddr⟩, rfl⟩
          exact haddr
      obtain ⟨_, htables⟩ := run_tables hnew.inv hru hP tail hlive
      obtain ⟨hv, hrangeV⟩ := run_rootsInv hs hall
      have hdrop := hv.destroy hdestroy
      obtain ⟨slackV, hpV⟩ := hv.pmmInv
      have htakes : c.op.takesFor r = true := by simp [hc, PoolOp.takesFor]
      have hframe : ∀ f, TableFrame r (c :: es) f ↔ f ∈ c.tables ∨ TableFrame r es f := by
        intro f
        rw [tableFrame_cons, htakes]
        simp
      have hbound : ∀ f, TableFrame r (c :: es) f → f < v.heap.pmm.totalFrames :=
        fun f hf => run_tableFrame_lt hs hall hf
      have hexact : ∀ a, a ∈ freedTables v.heap.mem 3 (v.ttbr0Phys r) ↔
          ∃ f, TableFrame r (c :: es) f ∧ v.heap.pmm.frameAddr f = a := by
        intro a
        rw [hdrop.exact a, htables a]
        constructor
        · rintro ⟨f, _, hf, heq⟩
          exact ⟨f, (hframe f).mpr hf, heq⟩
        · rintro ⟨f, hf, heq⟩
          exact ⟨f, hbound f hf, (hframe f).mp hf, heq⟩
      have hfreed : ∀ j < v.heap.pmm.totalFrames,
          v.heap.pmm.frameAddr j ∈ freedTables v.heap.mem 3 (v.ttbr0Phys r) ↔
            TableFrame r (c :: es) j := by
        intro j hj
        rw [hexact]
        constructor
        · rintro ⟨f, hf, heq⟩
          rwa [← (frameAddr_inj hpV (hbound f hf) hj).mp heq]
        · intro hf
          exact ⟨j, hf, rfl⟩
      have hothers : ∀ j < v.heap.pmm.totalFrames, t.heap.pmm.used j = true ↔
          v.heap.pmm.used j = true ∧ ¬ TableFrame r (c :: es) j := by
        intro j hj
        rw [hdrop.used j hj, Bool.and_eq_true, Bool.not_eq_true', decide_eq_false_iff_not,
          hfreed j hj]
      refine ⟨hdrop.calls, hdrop.once, hexact, hothers, ?_, hslab, ?_⟩
      · intro es₁ es₂ w f heq hrun₁ hrun₂ hf hset hnot hgave
        obtain ⟨hw, _⟩ := run_rootsInv hs hrun₁
        have hlater := run_used (r := r) hw hrun₂ hf hset hgave
        rw [hfreed f (by rw [(run_rootsInv hw hrun₂).2.2]; exact hf), heq, tableFrame_append]
        exact fun hh => hh.elim hnot hlater
      · intro j hj hother
        obtain ⟨hvused, hfresh⟩ := run_untouched hnew.inv hru tail hlive
          (by rw [hspec.range.2]; exact hj) hother
        have huused := hused j hj
        rw [hothers j (by rw [hrangeV.2]; exact hj), hvused, huused, hframe]
        -- a table was free before it was taken, and the slab page is no table
        have hlate : TableFrame r es j → ¬ (s.heap.pmm.used j = true ∨ j ∈ c.tables ∨
            j ∈ c.slab) := by
          intro hmem hset
          rw [huused.mpr hset] at hfresh
          cases hfresh hmem
        constructor
        · rintro ⟨(hset | hmem | hmem) | hmem, hnot⟩
          · exact Or.inl hset
          · exact absurd (Or.inl hmem) hnot
          · exact Or.inr hmem
          · exact absurd (Or.inr hmem) hnot
        · rintro (hset | hmem)
          · refine ⟨Or.inl (Or.inl hset), ?_⟩
            rintro (htable | hmem)
            · rw [(head.fresh hs htable).2.1] at hset
              cases hset
            · exact hlate hmem (Or.inl hset)
          · refine ⟨Or.inl (Or.inr (Or.inr hmem)), ?_⟩
            rintro (htable | hmem')
            · exact (Finset.mem_sdiff.mp hmem).2 htable
            · exact hlate hmem' (Or.inr (Or.inr hmem))

/-! ## A small heap -/

/-- The event of a step. -/
def Pool.event (k : Pool) (op : PoolOp) (k' : Pool) : PoolEvent :=
  ⟨op, tableFrames k k', newFrames k.heap.pmm k'.heap.pmm, newFrames k'.heap.pmm k.heap.pmm⟩

/-- A root, a data frame and its page. -/
theorem arch_pagetable_destroy_run_one_page : ∃ h c d e v t, kheapInit smallHeap = some h ∧
    Run EventStep (.boot h []) [c, d, e] v ∧ c.op = .create 0x41fe0 ∧ d.op = .other ∧
      e.op = .map 0x41fe0 0x1000 0x43000 3 0 ∧ PoolStep v (.destroy 0x41fe0) t ∧
        Releases 0x41fe0 (.boot h []) c [d, e] v t := by
  have heval : (kheapInit smallHeap >>= fun h => (Pool.boot h []).archPagetableCreate >>= fun a =>
      (({ a.2 with
        roots := 0x41fe0 :: a.2.roots
        heap := { a.2.heap with pmm := takeFrame a.2.heap.pmm 3 } } : Pool).archMapPage
          0x41fe0 0x1000 0x43000 3).map fun b =>
            (a.1, decide (3 < a.2.heap.pmm.totalFrames), a.2.heap.pmm.used 3, b.1)) =
      some (0x41fe0, true, false, 0) := by decide +kernel
  obtain ⟨h, hheap, hrest⟩ := Option.bind_eq_some_iff.mp heval
  obtain ⟨⟨r, u⟩, hcreate, hrest⟩ := Option.bind_eq_some_iff.mp hrest
  obtain ⟨⟨res, v⟩, hmap, heq⟩ := Option.map_eq_some_iff.mp hrest
  simp only [Prod.mk.injEq, decide_eq_true_eq] at heq
  obtain ⟨rfl, hlt, hclear, rfl⟩ := heq
  obtain ⟨k, hk⟩ : ∃ k : Pool, k = { u with roots := 0x41fe0 :: u.roots } := ⟨_, rfl⟩
  have hstep : PoolStep (.boot h []) (.create 0x41fe0) k := ⟨u, hcreate, hk⟩
  have hboot : RootsInv (.boot h []) := kheap_run_rootsInv (by decide) (by decide) (by decide)
    smallPmm_init smallHeap_frames hheap (.nil _)
  have hother : PoolStep k .other { k with heap := { k.heap with pmm := takeFrame k.heap.pmm 3 } } :=
    (hboot.step hstep).inv.allocFrame (by rw [hk]; exact hlt) (by rw [hk]; exact hclear)
  have hroot : 0x41fe0 ∈ k.roots := by
    rw [hk]
    exact List.mem_cons_self
  have hpage : PoolStep { k with heap := { k.heap with pmm := takeFrame k.heap.pmm 3 } }
      (.map 0x41fe0 0x1000 0x43000 3 0) v := by
    refine ⟨hroot, ?_⟩
    rw [hk]
    exact hmap
  have hlive : 0x41fe0 ∈ v.roots :=
    (((hboot.step hstep).inv.step hother).inv.step hpage).serves 0x41fe0 hroot nofun |>.live
  have hrun : Run EventStep (.boot h []) [Pool.event _ _ _, Pool.event _ _ _,
      Pool.event _ _ _] v :=
    .cons ⟨hstep, rfl, rfl, rfl⟩ (.cons ⟨hother, rfl, rfl, rfl⟩ (.cons ⟨hpage, rfl, rfl, rfl⟩
      (.nil v)))
  have hdestroy : PoolStep v (.destroy 0x41fe0)
      { v.archPagetableDestroy 0x41fe0 with roots := v.roots.erase 0x41fe0 } := ⟨hlive, rfl⟩
  exact ⟨h, _, _, _, v, _, hheap, hrun, rfl, rfl, rfl, hdestroy,
    arch_pagetable_destroy_run (by decide) (by decide) (by decide) smallPmm_init smallHeap_frames
      hheap (.nil _) (.nil _) rfl (by decide) hrun (by simp [Pool.event]) hdestroy⟩

/-- The page that `kmalloc` grows for the first root is used after the root is gone. -/
theorem slab_page_stays : ∃ h k f, kheapInit smallHeap = some h ∧
    Run PoolStep (.boot h []) [.create 0x41fe0, .destroy 0x41fe0] k ∧
      h.pmm.used f = false ∧ k.heap.pmm.used f = true := by
  have heval : (kheapInit smallHeap >>= fun h => (Pool.boot h []).archPagetableCreate >>= fun a =>
      some (a.1, h.pmm.used 1, a.2.heap.pmm.used 1, decide (1 < a.2.heap.pmm.totalFrames),
        decide (a.2.heap.pmm.frameAddr 1 = a.2.ttbr0Phys 0x41fe0))) =
      some (0x41fe0, false, true, true, false) := by decide +kernel
  obtain ⟨h, hheap, hrest⟩ := Option.bind_eq_some_iff.mp heval
  obtain ⟨⟨r, u⟩, hcreate, heq⟩ := Option.bind_eq_some_iff.mp hrest
  simp only [Option.some.injEq, Prod.mk.injEq, decide_eq_true_eq, decide_eq_false_iff_not] at heq
  obtain ⟨rfl, hclear, hset, hlt, hne⟩ := heq
  obtain ⟨k, hk⟩ : ∃ k : Pool, k = { u with roots := 0x41fe0 :: u.roots } := ⟨_, rfl⟩
  have hcall : RootStep (.boot h []) (.create 0x41fe0) k := ⟨u, hcreate, hk⟩
  have hboot : RootsInv (.boot h []) := kheap_run_rootsInv (by decide) (by decide) (by decide)
    smallPmm_init smallHeap_frames hheap (.nil _)
  obtain ⟨hzero, _⟩ | ⟨_, hnew⟩ := hboot.create hcall
  · cases hzero
  have hdestroy : RootStep k (.destroy 0x41fe0)
      { k.archPagetableDestroy 0x41fe0 with roots := k.roots.erase 0x41fe0 } :=
    ⟨by rw [hnew.roots]; exact List.mem_cons_self, rfl⟩
  have hdrop := hnew.inv.destroy hdestroy
  have hkept : k.heap.pmm.frameAddr 1 ∉ freedTables k.heap.mem 3 (k.ttbr0Phys 0x41fe0) := by
    rw [hdrop.exact, hnew.own, hk]
    exact hne
  have hused := hdrop.used 1 (by rw [hk]; exact hlt)
  have hset' : k.heap.pmm.used 1 = true := by
    rw [hk]
    exact hset
  rw [hset', decide_eq_false hkept] at hused
  exact ⟨h, _, 1, hheap, .cons hcall (.cons hdestroy (.nil _)), hclear, hused⟩

end Frames

end Vectra.Arm64

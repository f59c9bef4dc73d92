import Vectra.Arm64.AsidPool
import Vectra.Arm64.Spaces

/-!
# Address spaces whose roots are heap blocks

The functions of the arm64 port on the roots of the kernel heap. Each call is a
run of the address spaces whose roots are given from outside: there, the calls
of `kmalloc` and `kfree_sized` and the stores into a root are other code.
-/

namespace Vectra.Arm64

open Lib

namespace Pool

/-- `*root`. -/
def root (k : Pool) (r : ℕ) : PagetableRoot := ⟨k.ttbr0Phys r, k.asid r⟩

/-- What the walks work on, without a TLB. -/
def machine (k : Pool) : Machine := ⟨k.heap.pmm, k.heap.mem, k.asidUsed, []⟩

def spaces (k : Pool) : Spaces := ⟨k.machine, k.roots.map k.root⟩

/-- The frames that are used in `q` and were not in `p`, by their addresses. -/
def newTables (p q : Pmm) : List ℕ :=
  ((List.range p.totalFrames).filter fun f => !p.used f && q.used f).map p.frameAddr

/-- The pool after a walk, whose frames have become tables. -/
def walked (k : Pool) (s : Machine) : Pool :=
  { k with
    heap := { k.heap with pmm := s.pmm, mem := s.mem }
    tables := newTables k.heap.pmm s.pmm ++ k.tables }

def archMapPage (k : Pool) (root va phys prot : ℕ) : Option (ℤ × Pool) :=
  (Arm64.archMapPage k.machine (k.root root) va phys prot).map fun a => (a.1, k.walked a.2)

def archUnmapPage (k : Pool) (root va : ℕ) : Option (ℤ × Pool) :=
  (Arm64.archUnmapPage k.machine (k.root root) va).map fun a => (a.1, k.walked a.2)

end Pool

inductive PoolOp
  | create (root : ℕ)
  | map (root va phys prot : ℕ) (result : ℤ)
  | unmap (root va : ℕ) (result : ℤ)
  | destroy (root : ℕ)
  | other
  deriving DecidableEq

/-- The operations that walk below `r` with `walk_create`. -/
def PoolOp.walksFor (r : ℕ) : PoolOp → Bool
  | .map r' _ _ _ _ => decide (r' = r)
  | .unmap r' _ _ => decide (r' = r)
  | _ => false

/-- Other kernel code takes and releases blocks and frames and writes to what it has. The tables
stay reserved, and the roots and the tables keep their bytes. -/
structure PoolOther (k k' : Pool) : Prop where
  heap : ∃ slack reserved o, HeapInv slack reserved k'.heap k'.blocks o ∧
    ∀ f < k'.heap.pmm.totalFrames, k'.heap.pmm.frameAddr f ∈ k.tables → reserved f
  blocks : ∃ B, k'.blocks.Perm (k.roots ++ B)
  roots : SameRoots k k'
  bytes : SameTables k k'
  tables : k'.tables = k.tables

/-- A call that returns; mappings and destructions are of live roots. -/
def PoolStep (k : Pool) (op : PoolOp) (k' : Pool) : Prop :=
  match op with
  | .create r => RootStep k (.create r) k'
  | .map r va phys prot res => r ∈ k.roots ∧ k.archMapPage r va phys prot = some (res, k')
  | .unmap r va res => r ∈ k.roots ∧ k.archUnmapPage r va = some (res, k')
  | .destroy r => RootStep k (.destroy r) k'
  | .other => PoolOther k k'

/-- The heap and the forest of the tables agree on the tables. -/
structure RootsInv (k : Pool) : Prop where
  pool : ∃ booted B T, PoolInv booted B T k
  spaces : SpacesInv k.spaces
  tables : ∀ u, u ∈ k.tables ↔ ∃ ρ, TableOf k.spaces ρ u

/-- What an operation does to a root that it does not destroy: it gives it the frames that it
takes below it as tables. -/
structure PoolServes (k : Pool) (op : PoolOp) (k' : Pool) (r : ℕ) : Prop where
  live : r ∈ k'.roots
  root : k'.root r = k.root r
  tables : ∀ u, TableOf k'.spaces (k.root r) u ↔ TableOf k.spaces (k.root r) u ∨
    op.walksFor r = true ∧ ∃ f < k.heap.pmm.totalFrames, k.heap.pmm.used f = false ∧
      k'.heap.pmm.used f = true ∧ k.heap.pmm.frameAddr f = u

section Roots

variable {booted : ℕ → Prop} {B T : List ℕ} {k k' k'' : Pool} {r t u : ℕ} {s : Spaces}
  {ρ : PagetableRoot} {m : Machine}

theorem TableOf.live (h : TableOf s ρ u) : ρ ∈ s.live := by
  obtain ⟨π, _, hu⟩ := h
  by_contra hnot
  unfold rootAt liveRoot at hu
  rw [if_neg hnot] at hu
  cases hu

theorem Pool.root_mem (hr : r ∈ k.roots) : k.root r ∈ k.spaces.live :=
  List.mem_map_of_mem hr

theorem SameRoots.root_eq (h : SameRoots k k') (hr : r ∈ k.roots) : k'.root r = k.root r := by
  unfold Pool.root
  rw [(h.root r hr).ttbr0Phys, (h.root r hr).asid]

theorem SameRoots.live (h : SameRoots k k') : k'.spaces.live = k.spaces.live := by
  unfold Pool.spaces
  rw [h.roots]
  exact List.map_congr_left fun r hr => h.root_eq hr

/-- Live roots have different ASIDs. -/
theorem PoolInv.root_inj (h : PoolInv booted B T k) {q : ℕ} (hr : r ∈ k.roots) (hq : q ∈ k.roots)
    (heq : k.root r = k.root q) : r = q :=
  List.inj_on_of_nodup_map h.distinct hr hq (congrArg PagetableRoot.asid heq)

/-- Code that keeps the tables and their bytes is other code to the address spaces. -/
theorem PoolInv.otherCode {s t : Spaces} (h' : PoolInv booted B T k')
    (hrange : SameRange k.heap.pmm k'.heap.pmm) (hbytes : SameTables k k')
    (htables : ∀ u ∈ k.tables, u ∈ k'.tables) (hs : ∀ ρ u, TableOf s ρ u → u ∈ k.tables)
    (hpmm : s.pmm = k.heap.pmm) (hmem : s.mem = k.heap.mem) (hpmm' : t.pmm = k'.heap.pmm)
    (hmem' : t.mem = k'.heap.mem) (hasids : t.asidUsed = s.asidUsed) (htlb : t.tlb = s.tlb)
    (hlive : t.live = s.live) : OtherCode s t := by
  obtain ⟨slack, o, hi⟩ := h'.heap
  refine ⟨⟨slack, by rw [hpmm']; exact hi.caches.pmm⟩, by rw [hpmm, hpmm']; exact hrange, ?_, ?_,
    hasids, htlb, hlive⟩
  · rintro ρ u f hu hf hclear rfl
    rw [hpmm'] at hf hclear hu
    rw [hi.reserved_used hf (Or.inr (htables _ (hs ρ _ hu)))] at hclear
    cases hclear
  · intro ρ u x hu hlo hhi
    rw [hmem, hmem']
    exact hbytes u (hs ρ u hu) x hlo hhi

/-! ## Steps that leave the roots alone -/

/-- A step that the roots do not notice. -/
structure Quiet (k k' : Pool) : Prop where
  inv : RootsInv k'
  step : SpaceStep k.spaces .other k'.spaces
  roots : SameRoots k k'
  same : k'.tables = k.tables
  tables : ∀ r ∈ k.roots, ∀ u, TableOf k'.spaces (k.root r) u ↔ TableOf k.spaces (k.root r) u

theorem RootsInv.quiet (h : RootsInv k) (h' : PoolInv booted B T k') (hroots : SameRoots k k')
    (hbytes : SameTables k k') (htables : k'.tables = k.tables) : Quiet k k' := by
  have hother : OtherCode k.spaces k'.spaces :=
    h'.otherCode hroots.range hbytes (fun u hu => by rw [htables]; exact hu)
      (fun ρ u hu => (h.tables u).mpr ⟨ρ, hu⟩) rfl rfl rfl rfl hroots.asidUsed rfl hroots.live
  obtain ⟨hspaces, hkeeps⟩ := h.spaces.other hother
  refine ⟨⟨⟨booted, B, T, h'⟩, hspaces, fun u => ?_⟩, hother, hroots, htables,
    fun r hr => (hkeeps _ (Pool.root_mem hr)).tables⟩
  rw [htables, h.tables u]
  constructor
  · rintro ⟨ρ, hu⟩
    exact ⟨ρ, ((hkeeps ρ hu.live).tables u).mpr hu⟩
  · rintro ⟨ρ, hu⟩
    exact ⟨ρ, ((hkeeps ρ (hroots.live ▸ hu.live)).tables u).mp hu⟩

theorem Quiet.serves (h : Quiet k k') {op : PoolOp} (hr : r ∈ k.roots)
    (hop : op.walksFor r = false) : PoolServes k op k' r where
  live := by rw [h.roots.roots]; exact hr
  root := h.roots.root_eq hr
  tables := by
    intro u
    rw [h.tables r hr, hop]
    simp

theorem PoolOther.poolInv (h : PoolInv booted B T k) (hother : PoolOther k k') :
    ∃ booted' B', PoolInv booted' B' T k' := by
  obtain ⟨slack, reserved, o, hi, hreserved⟩ := hother.heap
  obtain ⟨B', hblocks⟩ := hother.blocks
  have hrange := hother.roots.range
  have htables := hother.tables
  refine ⟨fun j => reserved j ∧ k'.heap.pmm.frameAddr j ∉ k'.tables, B',
    h.of_same hother.roots ⟨slack, o, hi.reserved_congr fun j hj => ?_⟩ hblocks
      (by rw [htables]; exact h.tables) (by rw [htables]; exact h.nodup) ?_⟩
  · unfold Pool.Reserved
    rw [htables]
    constructor
    · rintro (⟨hres, _⟩ | hmem)
      · exact hres
      · exact hreserved j hj hmem
    · intro hres
      by_cases hmem : k'.heap.pmm.frameAddr j ∈ k.tables
      · exact Or.inr hmem
      · exact Or.inl ⟨hres, hmem⟩
  · intro t ht
    obtain ⟨f, hf, heq, _⟩ := h.frame t (htables ▸ ht)
    rw [← hrange.frameAddr] at heq
    exact ⟨f, by rw [hrange.2]; exact hf, heq, fun hres => hres.2 (heq ▸ ht)⟩

theorem RootsInv.other (h : RootsInv k) (hother : PoolOther k k') : Quiet k k' := by
  obtain ⟨booted, B, T, hk⟩ := h.pool
  obtain ⟨booted', B', hk'⟩ := hother.poolInv hk
  exact h.quiet hk' hother.roots hother.bytes hother.tables

/-- Taking a frame for other use is such code. -/
theorem RootsInv.allocFrame (h : RootsInv k) {f : ℕ} (hf : f < k.heap.pmm.totalFrames)
    (hclear : k.heap.pmm.used f = false) :
    PoolOther k { k with heap := { k.heap with pmm := takeFrame k.heap.pmm f } } := by
  obtain ⟨booted, B, T, hk⟩ := h.pool
  obtain ⟨slack, o, hi⟩ := hk.heap
  obtain ⟨o', hi'⟩ := hi.takeReserved hf hclear fun _ _ => rfl
  exact ⟨⟨slack, _, o', hi', fun j _ hmem => Or.inl (Or.inr hmem)⟩, ⟨B, hk.blocks⟩,
    ⟨takeFrame_sameRange _ _, rfl, rfl, fun _ _ => ⟨rfl, rfl, rfl⟩⟩, fun _ _ _ _ _ => rfl, rfl⟩

/-! ## Walks -/

theorem Pool.mem_newTables {p q : Pmm} :
    u ∈ newTables p q ↔ ∃ f < p.totalFrames, p.used f = false ∧ q.used f = true ∧
      p.frameAddr f = u := by
  unfold newTables
  simp only [List.mem_map, List.mem_filter, List.mem_range, Bool.and_eq_true, Bool.not_eq_true',
    and_assoc]

/-- A walk writes to tables only, old and new. -/
theorem PoolInv.walk_bytes (h : PoolInv booted B T k)
    (htakes : Takes (liveRoot k.spaces.live) ρ k.heap.pmm k.heap.mem m.pmm m.mem)
    (hold : ∀ u, TableOf k.spaces ρ u → u ∈ k.tables) {y : ℕ}
    (hoff : ∀ f < k.heap.pmm.totalFrames, k.heap.pmm.used f = false ∨ k.Reserved booted f →
      y < k.heap.pmm.frameAddr f ∨ k.heap.pmm.frameAddr f + pageSize ≤ y) :
    m.mem y = k.heap.mem y := by
  refine htakes.bytes y fun u hu => ?_
  rcases (htakes.took u).mp hu with hu | ⟨f, hf, hclear, _, rfl, _⟩
  · obtain ⟨f, hf, rfl, hres⟩ := h.table_frame (hold u hu)
    exact hoff f hf (Or.inr hres)
  · exact hoff f hf (Or.inl hclear)

/-- The frames that a walk takes become tables of the pool. -/
theorem PoolInv.walk (h : PoolInv booted B T k)
    (hpmm : ∀ slack, PmmInv slack k.heap.pmm → PmmInv slack m.pmm)
    (htakes : Takes (liveRoot k.spaces.live) ρ k.heap.pmm k.heap.mem m.pmm m.mem)
    (hold : ∀ u, TableOf k.spaces ρ u → u ∈ k.tables) :
    PoolInv booted B (Pool.newTables k.heap.pmm m.pmm ++ T) (k.walked m) ∧
      SameRoots k (k.walked m) := by
  obtain ⟨slack, o, hi⟩ := h.heap
  have hp := hi.caches.pmm
  have hgrown := htakes.grown
  have hrange := hgrown.1
  have hroots : SameRoots k (k.walked m) := by
    refine h.sameRoots hrange rfl rfl fun r hr y hy => ?_
    refine h.walk_bytes htakes hold fun f hf hown => ?_
    refine hi.block_off_frame (h.root_block hr) hf ?_ hy
    exact hown.imp (hi.caches.own_none hf) (hi.reserved_iff f hf).mpr
  refine ⟨?_, hroots⟩
  have hheap : HeapInv slack ((k.walked m).Reserved booted) (k.walked m).heap k.blocks
      { o with own := fun j =>
        if k.heap.pmm.used j = false ∧ m.pmm.used j = true then some .reserved else o.own j } := by
    refine hi.setReserved _ ⟨rfl, rfl, rfl, rfl⟩ (hpmm slack hp) hrange ?_ ?_ ?_ ?_
    · intro j hj
      change m.pmm.used j = _
      have hown := hi.caches.own_used j hj
      cases hold : k.heap.pmm.used j with
      | true =>
          rw [hold] at hown
          rw [hgrown.2 j hold, if_neg (fun hh => (by cases hh.1))]
          exact hown
      | false =>
          rw [hold] at hown
          cases hnew : m.pmm.used j with
          | true => rfl
          | false =>
              rw [if_neg (fun hh => (by cases hh.2))]
              exact hown
    · intro j hj w hw
      by_cases hnew : k.heap.pmm.used j = false ∧ m.pmm.used j = true
      · rw [if_pos hnew, hi.caches.own_none hj hnew.1]
        simp [hw.symm]
      · rw [if_neg hnew]
    · intro j hj
      have hmem : (k.walked m).Reserved booted j ↔
          (k.heap.pmm.used j = false ∧ m.pmm.used j = true) ∨ k.Reserved booted j := by
        unfold Pool.Reserved Pool.walked
        rw [hrange.frameAddr, List.mem_append, Pool.mem_newTables, or_left_comm]
        refine or_congr_left ⟨?_, fun hh => ⟨j, hj, hh.1, hh.2, rfl⟩⟩
        rintro ⟨f, hf, hclear, hset, heq⟩
        rw [← (frameAddr_inj hp hf hj).mp heq]
        exact ⟨hclear, hset⟩
      rw [hmem]
      by_cases hnew : k.heap.pmm.used j = false ∧ m.pmm.used j = true
      · simp [hnew]
      · rw [if_neg hnew, hi.reserved_iff j hj]
        simp [hnew]
    · intro P hP howner y hy
      refine h.walk_bytes htakes hold fun f hf hown => ?_
      rcases hown with hclear | hres
      · exact hi.caches.off_free_frame hP howner hy hf hclear
      · by_contra hin
        obtain ⟨j, hj, hjown, hlo, hhi⟩ := hi.caches.owner_of_mem hP hy
        have hjf := hi.caches.frame_unique hj hf hlo hhi (by omega) (by omega)
        rw [hjf, (hi.reserved_iff f hf).mpr hres] at hjown
        cases P <;> cases hjown
  have hnew : ∀ t ∈ Pool.newTables k.heap.pmm m.pmm, ∃ f < k.heap.pmm.totalFrames,
      t = k.heap.pmm.frameAddr f ∧ ¬ k.Reserved booted f := by
    intro t ht
    obtain ⟨f, hf, hclear, _, rfl⟩ := Pool.mem_newTables.mp ht
    refine ⟨f, hf, rfl, fun hres => ?_⟩
    rw [hi.reserved_used hf hres] at hclear
    cases hclear
  refine h.of_same hroots ⟨slack, _, hheap⟩ h.blocks ?_ ?_ ?_
  · refine (h.tables.append_left _).trans ?_
    rw [← List.append_assoc, ← List.append_assoc]
    exact List.perm_append_comm.append_right T
  · refine List.Nodup.append ?_ h.nodup ?_
    · refine List.Nodup.map_on ?_ ((List.nodup_range).filter _)
      intro f hf g hg heq
      rw [List.mem_filter, List.mem_range] at hf hg
      exact (frameAddr_inj hp hf.1 hg.1).mp heq
    · intro t ht hmem
      obtain ⟨f, _, rfl, hunreserved⟩ := hnew t ht
      exact hunreserved (Or.inr hmem)
  · intro t ht
    rcases List.mem_append.mp ht with ht | ht
    · obtain ⟨f, hf, rfl, hunreserved⟩ := hnew t ht
      exact ⟨f, by rw [show (k.walked m).heap.pmm.totalFrames = _ from hrange.2]; exact hf,
        (hrange.frameAddr f).symm, fun hb => hunreserved (Or.inl hb)⟩
    · obtain ⟨f, hf, rfl, hfree⟩ := h.frame t ht
      exact ⟨f, by rw [show (k.walked m).heap.pmm.totalFrames = _ from hrange.2]; exact hf,
        (hrange.frameAddr f).symm, hfree⟩

/-- A walk below a root is a call on that root. -/
theorem RootsInv.walk (h : RootsInv k) {f : Machine → Option (ℤ × Machine)} {res : ℤ} {va : ℕ}
    {d : Option ℕ} {op : PoolOp} (hr : r ∈ k.roots)
    (hop : ∀ q, op.walksFor q = decide (r = q))
    (hspec : ∀ slack u v, ArmTables slack u.pmm u.mem (liveRoot k.spaces.live) →
      f u = some (res, v) → ArmTables slack v.pmm v.mem (liveRoot k.spaces.live) ∧
        (res = 0 ∨ res = -1) ∧
        Binds (liveRoot k.spaces.live) (k.root r) va d (decide (res = 0)) u v)
    (hf : f k.machine = some (res, m)) :
    RootsInv (k.walked m) ∧ Calls f (k.root r) res k.spaces (k.walked m).spaces ∧
      Grown k.heap.pmm m.pmm ∧ ∀ q ∈ k.roots, PoolServes k op (k.walked m) q := by
  obtain ⟨booted, B, T, hk⟩ := h.pool
  obtain ⟨slack, ha⟩ := h.spaces.tables
  obtain ⟨_, _, hbinds⟩ := hspec slack k.machine m ha hf
  have htakes := hbinds.takes
  have hpmm : ∀ slack, PmmInv slack k.heap.pmm → PmmInv slack m.pmm := fun slack hp =>
    (hspec slack k.machine m (ha.grown hp (Grown.refl _)) hf).1.tables.pmm
  obtain ⟨hk', hroots⟩ := hk.walk hpmm htakes fun u hu => (h.tables u).mpr ⟨_, hu⟩
  have hmachine : (k.walked m).spaces.toMachine = m := by
    have htlb : m.tlb = [] := by
      rw [hbinds.tlb]
      split <;> rfl
    have hasids : m.asidUsed = k.asidUsed := hbinds.asids
    obtain ⟨pmm, mem, asidUsed, tlb⟩ := m
    cases hasids
    cases htlb
    rfl
  have hcalls : Calls f (k.root r) res k.spaces (k.walked m).spaces := by
    refine ⟨Pool.root_mem hr, hroots.live, [], [], fun e he => Or.inl he, fun e he => Or.inl he, ?_⟩
    rw [hmachine]
    exact hf
  obtain ⟨slackHeap, o, hi⟩ := hk.heap
  have hne : ∀ f < k.heap.pmm.totalFrames, k.heap.pmm.frameAddr f ≠ 0 := by
    intro f hf
    have hbound := (frameAddr_room hi.caches.pmm hf).2
    have hbase := hi.caches.base_pos
    omega
  have hmine : ∀ u, TableOf (k.walked m).spaces (k.root r) u ↔
      TableOf k.spaces (k.root r) u ∨ u ∈ Pool.newTables k.heap.pmm m.pmm := by
    intro u
    unfold TableOf
    rw [hroots.live, Pool.mem_newTables]
    refine (htakes.took u).trans (or_congr_right ⟨?_, ?_⟩)
    · rintro ⟨f, hf, hclear, hset, heq, _⟩
      exact ⟨f, hf, hclear, hset, heq⟩
    · rintro ⟨f, hf, hclear, hset, heq⟩
      exact ⟨f, hf, hclear, hset, heq, heq ▸ hne f hf⟩
  have hothers : ∀ ρ, ρ ≠ k.root r → ∀ u,
      TableOf (k.walked m).spaces ρ u ↔ TableOf k.spaces ρ u := by
    intro ρ hρ u
    unfold TableOf
    rw [hroots.live]
    exact htakes.others ρ hρ u
  refine ⟨⟨⟨booted, B, _, hk'⟩, (h.spaces.calls hspec hcalls).1, fun u => ?_⟩, hcalls,
    htakes.grown, fun q hq => ⟨by rw [hroots.roots]; exact hq, hroots.root_eq hq, fun u => ?_⟩⟩
  · change u ∈ Pool.newTables k.heap.pmm m.pmm ++ k.tables ↔ _
    rw [List.mem_append, h.tables u]
    constructor
    · rintro (hnew | ⟨ρ, hu⟩)
      · exact ⟨k.root r, (hmine u).mpr (Or.inr hnew)⟩
      · by_cases hρ : ρ = k.root r
        · exact ⟨k.root r, (hmine u).mpr (Or.inl (hρ ▸ hu))⟩
        · exact ⟨ρ, (hothers ρ hρ u).mpr hu⟩
    · rintro ⟨ρ, hu⟩
      by_cases hρ : ρ = k.root r
      · subst hρ
        exact ((hmine u).mp hu).symm.imp_right fun hold => ⟨_, hold⟩
      · exact Or.inr ⟨ρ, (hothers ρ hρ u).mp hu⟩
  · by_cases hqr : r = q
    · subst hqr
      rw [hmine u, Pool.mem_newTables, hop]
      simp only [decide_true, true_and]
      exact Iff.rfl
    · rw [hothers _ (fun heq => hqr (hk.root_inj hq hr heq).symm) u, hop]
      simp [hqr]

/-! ## Creation -/

theorem Pool.create_space {a : ℕ} {used : ℕ → Bool} (ht : t ≠ 0)
    (hs : k.allocTablePage = some (t, k')) (ha : asidAlloc k.asidUsed = some (a, used)) :
    Arm64.archPagetableCreate true k.machine =
      some (some ⟨t, a⟩, ⟨k'.heap.pmm, k'.heap.mem, used, []⟩) := by
  obtain ⟨p, m, halloc, rfl⟩ := PoolInv.allocTablePage_eq hs
  simp [Arm64.archPagetableCreate, Pool.machine, halloc, ht, ha]

theorem Pool.create_space_none (hs : k.allocTablePage = some (t, k'))
    (hnone : t = 0 ∨ asidAlloc k.asidUsed = none) :
    Arm64.archPagetableCreate true k.machine =
      some (none, if t = 0 then k'.machine else (k'.freeTablePage t).machine) := by
  obtain ⟨p, m, halloc, rfl⟩ := PoolInv.allocTablePage_eq hs
  by_cases ht : t = 0
  · simp [Arm64.archPagetableCreate, Pool.machine, halloc, ht]
  · simp [Arm64.archPagetableCreate, Pool.machine, Pool.freeTablePage, halloc, ht,
      hnone.resolve_left ht]

/-- What a creation does that returns a root. -/
structure NewRoot (k : Pool) (r : ℕ) (k' : Pool) : Prop where
  inv : RootsInv k'
  roots : k'.roots = r :: k.roots
  run : Run SpaceStep k.spaces [.other, .create true (some (k'.root r)), .other] k'.spaces
  kept : ∀ q ∈ k.roots, k'.root q = k.root q ∧
    ∀ u, TableOf k'.spaces (k.root q) u ↔ TableOf k.spaces (k.root q) u
  own : ∀ u, TableOf k'.spaces (k'.root r) u ↔ u = k'.ttbr0Phys r
  tables : k'.tables = k'.ttbr0Phys r :: k.tables
  frames : ∃ p f, (p = k.heap.pmm ∨ (k.heap.cache 0).freeObjects = 0 ∧
      ∃ i < k.heap.pmm.totalFrames, k.heap.pmm.used i = false ∧ p = takeFrame k.heap.pmm i) ∧
    f < k.heap.pmm.totalFrames ∧ p.used f = false ∧ k.heap.pmm.frameAddr f = k'.ttbr0Phys r ∧
      k'.heap.pmm = takeFrame p f

/-- The creation of the address spaces, from the block of the new root on, and then the stores
into the block. -/
theorem RootsInv.fillRoot {a : ℕ} {used : ℕ → Bool} (h : RootsInv k)
    (hk : PoolInv booted (r :: B) T k) (hr : r ∈ k.blocks)
    (hsize : k.heap.blockSize r = pagetableRootSize) (htable : k.allocTablePage = some (t, k'))
    (ht : t ≠ 0) (hasid : asidAlloc k'.asidUsed = some (a, used))
    (hk'' : k'' = { k'.setRoot r t a with asidUsed := used, roots := r :: k'.roots }) :
    RootsInv k'' ∧ k''.roots = r :: k.roots ∧ k''.root r = ⟨t, a⟩ ∧
      Run SpaceStep k.spaces [.create true (some ⟨t, a⟩), .other] k''.spaces ∧
      (∀ q ∈ k.roots, k''.root q = k.root q ∧
        ∀ u, TableOf k''.spaces (k.root q) u ↔ TableOf k.spaces (k.root q) u) ∧
      (∀ u, TableOf k''.spaces ⟨t, a⟩ u ↔ u = t) ∧ k''.tables = t :: k.tables ∧
      ∃ f < k.heap.pmm.totalFrames, k.heap.pmm.used f = false ∧ k.heap.pmm.frameAddr f = t ∧
        k''.heap.pmm = takeFrame k.heap.pmm f := by
  rcases hk.allocTablePage htable with
    ⟨hzero, _⟩ | ⟨_, h', hroots, hkeep, _, hsizes, htables, _, f, hf, hclear, haddr, hpmm⟩
  · exact absurd hzero ht
  obtain ⟨hk₂, hroots₂, hkeep₂, httbr, hroot⟩ := h'.newRoot ((hsizes r hr).trans hsize) hasid
  rw [← hk''] at hk₂
  have hnew : k''.root r = ⟨t, a⟩ := by
    calc k''.root r = ⟨(k'.setRoot r t a).ttbr0Phys r, (k'.setRoot r t a).asid r⟩ := by
          rw [hk'']
          rfl
      _ = ⟨t, a⟩ := by rw [httbr, hroot]
  have hrootsNew : k''.roots = r :: k.roots := by
    rw [hk'', ← hroots.roots]
  have hkept : ∀ q ∈ k.roots, k''.root q = k.root q := by
    intro q hq
    have hq' : q ∈ k'.roots := by rw [hroots.roots]; exact hq
    rw [← hroots.root_eq hq, ← hroots₂.root_eq hq', hk'']
    rfl
  have hlive : k''.spaces.live = ⟨t, a⟩ :: k.spaces.live := by
    unfold Pool.spaces
    rw [hrootsNew, List.map_cons, hnew, List.map_congr_left hkept]
  have htablesNew : k''.tables = t :: k.tables := by
    rw [hk'', ← htables]
    rfl
  obtain ⟨s, hs⟩ : ∃ s : Spaces,
    s = ⟨⟨k'.heap.pmm, k'.heap.mem, used, []⟩, ⟨t, a⟩ :: k.spaces.live⟩ := ⟨_, rfl⟩
  have hcreate : SpaceStep k.spaces (.create true (some ⟨t, a⟩)) s := by
    rw [hroots.asidUsed] at hasid
    rw [hs]
    exact ⟨Pool.create_space ht htable hasid, rfl⟩
  obtain ⟨hinv, _, _, hlive', _, hkeeps, _, _, _, _, _, _, _, hown⟩ :=
    h.spaces.create_some hcreate
  have hsub : ∀ ρ u, TableOf s ρ u → u ∈ k'.tables := by
    intro ρ u hu
    have hρ := hu.live
    rw [hlive'] at hρ
    rw [htables]
    rcases List.mem_cons.mp hρ with rfl | hρ
    · rw [(hown u).mp hu]
      exact List.mem_cons_self
    · exact List.mem_cons_of_mem _ ((h.tables u).mpr ⟨ρ, ((hkeeps ρ hρ).tables u).mp hu⟩)
  have hother : OtherCode s k''.spaces := by
    refine hk₂.otherCode (k := k') ?_ ?_ ?_ hsub ?_ ?_ rfl rfl ?_ ?_ ?_
    · rw [hk'']
      exact hroots₂.range
    · rw [hk'']
      exact hkeep₂
    · rw [hk'']
      exact fun u hu => hu
    · rw [hs]
    · rw [hs]
    · rw [hs, hk'']
      rfl
    · rw [hs]
      rfl
    · rw [hlive, hs]
  obtain ⟨hinv', hkeeps'⟩ := hinv.other hother
  have hold : ∀ q ∈ k.roots, ∀ u,
      TableOf k''.spaces (k.root q) u ↔ TableOf k.spaces (k.root q) u := by
    intro q hq u
    have hmem := Pool.root_mem hq
    rw [(hkeeps' _ (by rw [hlive']; exact List.mem_cons_of_mem _ hmem)).tables u,
      (hkeeps _ hmem).tables u]
  have hmine : ∀ u, TableOf k''.spaces ⟨t, a⟩ u ↔ u = t := by
    intro u
    rw [(hkeeps' _ (by rw [hlive']; exact List.mem_cons_self)).tables u, hown u]
  refine ⟨⟨⟨booted, B, T, hk₂⟩, hinv', fun u => ?_⟩, hrootsNew, hnew,
    .cons hcreate (.cons hother (.nil _)), fun q hq => ⟨hkept q hq, hold q hq⟩, hmine, htablesNew,
    f, hf, hclear, haddr, ?_⟩
  · rw [htablesNew, List.mem_cons, h.tables u]
    constructor
    · rintro (rfl | ⟨ρ, hu⟩)
      · exact ⟨_, (hmine u).mpr rfl⟩
      · obtain ⟨q, hq, rfl⟩ := List.mem_map.mp hu.live
        exact ⟨_, (hold q hq u).mpr hu⟩
    · rintro ⟨ρ, hu⟩
      have hρ := hu.live
      rw [hlive] at hρ
      rcases List.mem_cons.mp hρ with rfl | hρ
      · exact Or.inl ((hmine u).mp hu)
      · obtain ⟨q, hq, rfl⟩ := List.mem_map.mp hρ
        exact Or.inr ⟨_, (hold q hq u).mp hu⟩
  · rw [← hpmm, hk'']
    rfl

/-- `arch_pagetable_create` on the heap is the creation of the address spaces, between calls of
the heap. -/
theorem RootsInv.create (h : RootsInv k) (hs : RootStep k (.create r) k') :
    (r = 0 ∧ Quiet k k' ∧ ∃ es, Run SpaceStep k.spaces es k'.spaces) ∨
      (r ≠ 0 ∧ NewRoot k r k') := by
  obtain ⟨booted, B, T, hk⟩ := h.pool
  obtain ⟨v, hs, hv⟩ := hs
  obtain ⟨q, k₁, hblock, hcases⟩ := PoolInv.create_cases hs
  rcases hk.kmalloc hblock with ⟨rfl, rfl⟩ |
    ⟨hq, h₁, hroots₁, hkeep₁, hsize₁, hblocks₁, htables₁, hframes₁⟩
  · obtain ⟨_, rfl, rfl⟩ | ⟨hne, _⟩ := hcases
    · rw [if_pos rfl] at hv
      subst hv
      exact Or.inl ⟨rfl, h.quiet hk (SameRoots.refl _) (fun _ _ _ _ _ => rfl) rfl,
        [.create false none], .cons ⟨rfl, rfl⟩ (.nil _)⟩
    · exact absurd rfl hne
  obtain ⟨hzero, _⟩ | ⟨_, t, k₂, htable, hcases⟩ := hcases
  · exact absurd hzero hq
  have hquiet₁ := h.quiet h₁ hroots₁ hkeep₁ htables₁
  have hsub₁ : ∀ u ∈ k.tables, u ∈ k₁.tables := by
    rw [htables₁]
    exact fun u hu => hu
  have hq₁ : q ∈ k₁.blocks := by
    rw [hblocks₁]
    exact List.mem_cons_self
  rcases h₁.allocTablePage htable with
    ⟨rfl, rfl⟩ | ⟨ht, h₂, hroots₂, hkeep₂, _, hsizes, htables₂, _⟩
  · obtain ⟨_, rfl, rfl⟩ | ⟨hne, _⟩ := hcases
    · rw [if_pos rfl] at hv
      subst hv
      obtain ⟨h₃, hroots₃, hkeep₃, _⟩ := h₁.kfreeSized hsize₁
      have hquiet₃ := hquiet₁.inv.quiet h₃ hroots₃ hkeep₃ rfl
      have hcreate : SpaceStep k₂.spaces (.create true none) k₂.spaces :=
        ⟨Pool.create_space_none htable (Or.inl rfl), rfl⟩
      exact Or.inl ⟨rfl, h.quiet h₃ (hroots₁.trans hroots₃) (hkeep₁.trans hkeep₃ hsub₁) htables₁,
        _, .cons hquiet₁.step (.cons hcreate (.cons hquiet₃.step (.nil _)))⟩
    · exact absurd rfl hne
  obtain ⟨hnull, _⟩ | ⟨_, hcases⟩ := hcases
  · exact absurd hnull ht
  rcases hcases with ⟨hasid, rfl, rfl⟩ | ⟨a, used, hasid, rfl, rfl⟩
  · rw [if_pos rfl] at hv
    subst hv
    -- the frame of the table is given back
    obtain ⟨h₃, hroots₃⟩ := h₂.freeTablePage
    obtain ⟨h₄, hroots₄, hkeep₄, _⟩ := h₃.kfreeSized ((hsizes q hq₁).trans hsize₁)
    have hkeep₃ : SameTables k₁ (k₂.freeTablePage t) := hkeep₂
    have htables₃ : (k₂.freeTablePage t).tables = k₁.tables := by
      unfold Pool.freeTablePage
      rw [htables₂, List.erase_cons_head]
    have hquiet₃ := hquiet₁.inv.quiet h₃ (hroots₂.trans hroots₃) hkeep₃ htables₃
    have hquiet₄ := hquiet₃.inv.quiet h₄ hroots₄ hkeep₄ rfl
    have hcreate : SpaceStep k₁.spaces (.create true none) (k₂.freeTablePage t).spaces := by
      rw [hroots₂.asidUsed] at hasid
      have hspace := Pool.create_space_none htable (Or.inr hasid)
      rw [if_neg ht] at hspace
      exact ⟨hspace, hquiet₃.roots.live⟩
    have hkeep : SameTables k ((k₂.freeTablePage t).kfreeSized q pagetableRootSize) := by
      refine (hkeep₁.trans hkeep₃ hsub₁).trans hkeep₄ fun u hu => ?_
      rw [htables₃]
      exact hsub₁ u hu
    exact Or.inl ⟨rfl, h.quiet h₄ (hroots₁.trans (hquiet₃.roots.trans hroots₄)) hkeep
      (htables₃.trans htables₁), _,
      .cons hquiet₁.step (.cons hcreate (.cons hquiet₄.step (.nil _)))⟩
  · rw [if_neg hq] at hv
    obtain ⟨hinv, hroots, hnew, hrun, hkept, hown, htables, f, hf, hclear, haddr, hpmm⟩ :=
      hquiet₁.inv.fillRoot h₁ hq₁ hsize₁ htable ht hasid hv
    have httbr : k'.ttbr0Phys r = t := congrArg PagetableRoot.ttbr0Phys hnew
    refine Or.inr ⟨hq, hinv, by rw [hroots, hroots₁.roots], ?_, ?_, ?_, ?_, ?_⟩
    · rw [hnew]
      exact .cons hquiet₁.step hrun
    · intro p hp
      obtain ⟨hroot, hsame⟩ := hkept p (by rw [hroots₁.roots]; exact hp)
      rw [hroots₁.root_eq hp] at hroot hsame
      exact ⟨hroot, fun u => (hsame u).trans (hquiet₁.tables p hp u)⟩
    · intro u
      rw [hnew, hown u, httbr]
    · rw [htables, htables₁, httbr]
    · refine ⟨k₁.heap.pmm, f, hframes₁, ?_, hclear, ?_, hpmm⟩
      · rw [← hroots₁.range.2]
        exact hf
      · rw [← hroots₁.range.frameAddr, haddr, httbr]

/-! ## Destruction -/

theorem Pool.foldl_freeTablePage {L : List ℕ} : L.foldl Pool.freeTablePage k =
    { k with
      heap := { k.heap with pmm := L.foldl pmmFreeFrame k.heap.pmm }
      tables := L.foldl List.erase k.tables } := by
  induction L generalizing k with
  | nil => rfl
  | cons a L ih =>
      rw [List.foldl_cons, ih]
      rfl

/-- The tables are read while they are released, and are not written. -/
theorem Pool.freeTableRecursive_eq {n : ℕ} : Pool.freeTableRecursive n t k =
    (freedTables k.heap.mem n t).foldl Pool.freeTablePage k := by
  induction n generalizing t k with
  | zero => rfl
  | succ n ih =>
      rw [Pool.freeTableRecursive, freedTables, List.foldl_append, List.foldl_flatMap,
        List.foldl_cons, List.foldl_nil]
      refine congrArg (Pool.freeTablePage · t) ?_
      obtain ⟨m, hm⟩ : ∃ m, k.heap.mem = m := ⟨_, rfl⟩
      simp only [hm]
      generalize List.finRange 512 = l
      induction l generalizing k with
      | nil => rfl
      | cons i l ihl =>
          rw [List.foldl_cons, List.foldl_cons, hm]
          split
          · rw [ih, hm]
            exact ihl (by rw [Pool.foldl_freeTablePage]; exact hm)
          · exact ihl hm

theorem PoolInv.freeTables {L : List ℕ} (h : PoolInv booted B (L ++ T) k) :
    PoolInv booted B T (L.foldl Pool.freeTablePage k) ∧
      SameRoots k (L.foldl Pool.freeTablePage k) := by
  induction L generalizing k with
  | nil => exact ⟨h, SameRoots.refl k⟩
  | cons a L ih =>
      obtain ⟨ha, hroots⟩ := h.freeTablePage
      obtain ⟨hL, hrest⟩ := ih ha
      exact ⟨hL, hroots.trans hrest⟩

/-- The other roots of the pool. -/
theorem PoolInv.erase_live (h : PoolInv booted B T k) (hr : r ∈ k.roots) :
    (k.roots.erase r).map k.root = k.spaces.live.filter fun ρ => ρ ≠ k.root r := by
  have hnodup := List.Nodup.of_map _ h.distinct
  unfold Pool.spaces
  rw [List.filter_map, hnodup.erase_eq_filter]
  refine congrArg (List.map k.root) (List.filter_congr fun q hq => ?_)
  have hiff : k.root q = k.root r ↔ q = r :=
    ⟨fun heq => h.root_inj hq hr heq, fun heq => by rw [heq]⟩
  simp [hiff, bne, beq_eq_decide]

/-- What a destruction does. -/
structure DropRoot (k : Pool) (r : ℕ) (k' : Pool) : Prop where
  inv : RootsInv k'
  range : SameRange k.heap.pmm k'.heap.pmm
  tables : ∀ u ∈ k'.tables, u ∈ k.tables
  run : Run SpaceStep k.spaces [.destroy (k.root r), .other] k'.spaces
  kept : ∀ q ∈ k.roots, q ≠ r → q ∈ k'.roots ∧ k'.root q = k.root q ∧
    ∀ u, TableOf k'.spaces (k.root q) u ↔ TableOf k.spaces (k.root q) u
  calls : k'.heap.pmm = (freedTables k.heap.mem 3 (k.ttbr0Phys r)).foldl pmmFreeFrame k.heap.pmm
  once : (freedTables k.heap.mem 3 (k.ttbr0Phys r)).Nodup
  exact : ∀ u, u ∈ freedTables k.heap.mem 3 (k.ttbr0Phys r) ↔ TableOf k.spaces (k.root r) u
  used : ∀ j < k.heap.pmm.totalFrames, k'.heap.pmm.used j = (k.heap.pmm.used j &&
    !decide (k.heap.pmm.frameAddr j ∈ freedTables k.heap.mem 3 (k.ttbr0Phys r)))

/-- `arch_pagetable_destroy` on the heap is the destruction of the address spaces and then a call
of the heap. -/
theorem RootsInv.destroy (h : RootsInv k) (hs : RootStep k (.destroy r) k') : DropRoot k r k' := by
  obtain ⟨booted, B, T, hk⟩ := h.pool
  obtain ⟨hr, hk'⟩ := hs
  obtain ⟨slack, ha⟩ := h.spaces.tables
  have hlive := Pool.root_mem hr
  obtain ⟨L, hL⟩ : ∃ L, freedTables k.heap.mem 3 (k.ttbr0Phys r) = L := ⟨_, rfl⟩
  obtain ⟨hnodup, hmem⟩ := ha.freedTables_spec (liveRoot_of_mem hlive)
  have hmine : ∀ u, u ∈ L ↔ TableOf k.spaces (k.root r) u := by
    rw [← hL]
    exact hmem
  -- the tables of the root are not the first tables of others
  have hsub : ∀ u ∈ L, u ∈ k.ttbr0Phys r :: T := by
    intro u hu
    obtain ⟨π, hπ, hat⟩ := (hmine u).mp hu
    rcases List.mem_append.mp (hk.tables.mem_iff.mp ((h.tables u).mpr ⟨_, π, hπ, hat⟩)) with
      hfirst | hinner
    · obtain ⟨q, hq, rfl⟩ := List.mem_map.mp hfirst
      have hroot : rootAt armTable (tableEntry k.heap.mem) (liveRoot k.spaces.live) (k.root q) [] =
          some (k.ttbr0Phys q) := by
        rw [rootAt_nil, liveRoot_of_mem (Pool.root_mem hq)]
        rfl
      have hsame := (ha.tables.forest _ _ [] π _ (by simp) hπ hroot hat).1
      rw [hk.root_inj hq hr hsame]
      exact List.mem_cons_self
    · exact List.mem_cons_of_mem _ hinner
  obtain ⟨T', hT'⟩ : ∃ T', (k.ttbr0Phys r :: T).Perm (L ++ T') := by
    obtain ⟨l, hperm, hl⟩ := (hL ▸ hnodup).subperm hsub
    obtain ⟨T', hT'⟩ := hl.exists_perm_append
    exact ⟨T', hT'.trans (hperm.append_right T')⟩
  obtain ⟨k₁, hk₁⟩ : ∃ k₁ : Pool, k₁ = { k with
    asidUsed := asidFree k.asidUsed (k.asid r), roots := k.roots.erase r } := ⟨_, rfl⟩
  have h₁ : PoolInv booted (r :: B) (L ++ T') k₁ := by
    rw [hk₁]
    exact (hk.dropRoot hr).congr_tables hT'
  obtain ⟨h₂, hroots₂⟩ := h₁.freeTables
  obtain ⟨k₂, hk₂⟩ : ∃ k₂, k₂ = L.foldl Pool.freeTablePage k₁ := ⟨_, rfl⟩
  rw [← hk₂] at h₂ hroots₂
  have hfold : k₂ = { k₁ with
      heap := { k.heap with pmm := L.foldl pmmFreeFrame k.heap.pmm }
      tables := L.foldl List.erase k.tables } := by
    rw [hk₂, Pool.foldl_freeTablePage, hk₁]
  have hspace : SpaceStep k.spaces (.destroy (k.root r)) k₂.spaces := by
    refine ⟨hlive, ?_⟩
    have hlive₂ : k₂.spaces.live = k.spaces.live.filter fun ρ => ρ ≠ k.root r := by
      rw [hroots₂.live, hk₁]
      exact hk.erase_live hr
    have hmachine : k₂.spaces.toMachine =
        Arm64.archPagetableDestroy k.spaces.toMachine (k.root r) := by
      have hfreed : freedTables k.spaces.mem (ptLevels - 1) (k.root r).ttbr0Phys = L := hL
      unfold Arm64.archPagetableDestroy
      rw [freeTableRecursive_eq, hfreed, hfold, hk₁]
      rfl
    rw [← hlive₂, ← hmachine]
  obtain ⟨hinv₂, hrange₂, hkeeps, hcalls, honce, hexact, hused⟩ := h.spaces.destroy hspace
  have hcalls₂ : k₂.heap.pmm = L.foldl pmmFreeFrame k.heap.pmm := by rw [hfold]
  have htables₂ : ∀ u, u ∈ k₂.tables ↔ u ∈ k.tables ∧ u ∉ L := by
    intro u
    rw [hfold, ← List.diff_eq_foldl]
    exact hk.nodup.mem_sdiff_iff
  have hinv : RootsInv k₂ := by
    refine ⟨⟨booted, _, _, h₂⟩, hinv₂, fun u => ?_⟩
    rw [htables₂, h.tables u, hmine u]
    constructor
    · rintro ⟨⟨ρ, hu⟩, hnot⟩
      have hne : ρ ≠ k.root r := by
        rintro rfl
        exact hnot hu
      exact ⟨ρ, ((hkeeps ρ hu.live hne).tables u).mpr hu⟩
    · rintro ⟨ρ, hu⟩
      have hρ := hu.live
      rw [hspace.2] at hρ
      obtain ⟨hρ, hne⟩ := List.mem_filter.mp hρ
      have hne : ρ ≠ k.root r := by simpa using hne
      have hold := ((hkeeps ρ hρ hne).tables u).mp hu
      refine ⟨⟨ρ, hold⟩, fun hroot => hne ?_⟩
      obtain ⟨π, hπ, hat⟩ := hold
      obtain ⟨σ, hσ, hat'⟩ := hroot
      exact (ha.tables.forest _ _ π σ u hπ hσ hat hat').1
  have hsize₂ : k₂.heap.blockSize r = pagetableRootSize := by
    rw [hfold]
    exact hk.size r hr
  obtain ⟨h₃, hroots₃, hkeep₃, hpmm₃⟩ := h₂.kfreeSized hsize₂
  have hquiet := hinv.quiet h₃ hroots₃ hkeep₃ rfl
  have hdestroy : k' = k₂.kfreeSized r pagetableRootSize := by
    rw [hk', hfold, hk₁]
    unfold Pool.archPagetableDestroy
    rw [Pool.freeTableRecursive_eq, Pool.foldl_freeTablePage, show ptLevels - 1 = 3 from rfl, hL]
    rfl
  rw [hdestroy]
  refine ⟨hquiet.inv, hrange₂.trans hquiet.roots.range, fun u hu => ((htables₂ u).mp hu).1,
    .cons hspace (.cons hquiet.step (.nil _)), ?_, ?_, honce, hexact, ?_⟩
  · intro q hq hne
    have hqr : k.root q ≠ k.root r := fun heq => hne (hk.root_inj hq hr heq)
    have hroot₂ : k₂.root q = k.root q := by rw [hfold]; rfl
    have hq₂ : q ∈ k₂.roots := by
      rw [hfold, hk₁]
      exact (List.mem_erase_of_ne hne).mpr hq
    refine ⟨by rw [hquiet.roots.roots]; exact hq₂, (hquiet.roots.root_eq hq₂).trans hroot₂,
      fun u => ?_⟩
    rw [← hroot₂, hquiet.tables q hq₂ u, hroot₂]
    exact (hkeeps _ (Pool.root_mem hq) hqr).tables u
  · rw [hpmm₃, hL]
    exact hcalls₂
  · intro j hj
    rw [hpmm₃]
    exact hused j hj

/-! ## One step -/

/-- Everything that a step does: it is a run of the address spaces, and the frames that become
tables were free. A walk takes no other frames. -/
structure PoolStepSpec (k : Pool) (op : PoolOp) (k' : Pool) : Prop where
  inv : RootsInv k'
  range : SameRange k.heap.pmm k'.heap.pmm
  run : ∃ es, Run SpaceStep k.spaces es k'.spaces
  serves : ∀ r ∈ k.roots, op ≠ .destroy r → PoolServes k op k' r
  fresh : ∀ f < k.heap.pmm.totalFrames, k.heap.pmm.frameAddr f ∉ k.tables →
    k.heap.pmm.frameAddr f ∈ k'.tables →
    k.heap.pmm.used f = false ∧ k'.heap.pmm.used f = true
  walk : ∀ r, op.walksFor r = true → Grown k.heap.pmm k'.heap.pmm ∧
    ∀ f < k.heap.pmm.totalFrames, k.heap.pmm.used f = false → k'.heap.pmm.used f = true →
      k.heap.pmm.frameAddr f ∉ k.tables ∧ k.heap.pmm.frameAddr f ∈ k'.tables

theorem RootsInv.table_used (h : RootsInv k) {f : ℕ} (hf : f < k.heap.pmm.totalFrames)
    (hmem : k.heap.pmm.frameAddr f ∈ k.tables) : k.heap.pmm.used f = true := by
  obtain ⟨booted, B, T, hk⟩ := h.pool
  obtain ⟨slack, o, hi⟩ := hk.heap
  exact hi.reserved_used hf (Or.inr hmem)

theorem RootsInv.pmmInv (h : RootsInv k) : ∃ slack, PmmInv slack k.heap.pmm := by
  obtain ⟨booted, B, T, hk⟩ := h.pool
  obtain ⟨slack, o, hi⟩ := hk.heap
  exact ⟨slack, hi.caches.pmm⟩

theorem Quiet.spec {op : PoolOp} (h : Quiet k k') (hop : ∀ r, op.walksFor r = false)
    (hrun : ∃ es, Run SpaceStep k.spaces es k'.spaces) : PoolStepSpec k op k' where
  inv := h.inv
  range := h.roots.range
  run := hrun
  serves := fun r hr _ => h.serves hr (hop r)
  fresh := by
    intro f _ hnot hmem
    rw [h.same] at hmem
    exact absurd hmem hnot
  walk := by
    intro r hr
    rw [hop r] at hr
    cases hr

theorem RootsInv.walk_spec (h : RootsInv k) {f : Machine → Option (ℤ × Machine)} {res : ℤ}
    {va : ℕ} {d : Option ℕ} {op : PoolOp} {e : SpaceOp} (hr : r ∈ k.roots)
    (hop : ∀ q, op.walksFor q = decide (r = q))
    (he : ∀ t, Calls f (k.root r) res k.spaces t → SpaceStep k.spaces e t)
    (hspec : ∀ slack u v, ArmTables slack u.pmm u.mem (liveRoot k.spaces.live) →
      f u = some (res, v) → ArmTables slack v.pmm v.mem (liveRoot k.spaces.live) ∧
        (res = 0 ∨ res = -1) ∧
        Binds (liveRoot k.spaces.live) (k.root r) va d (decide (res = 0)) u v)
    (hf : f k.machine = some (res, m)) : PoolStepSpec k op (k.walked m) := by
  obtain ⟨hinv, hcalls, hgrown, hserves⟩ := h.walk hr hop hspec hf
  obtain ⟨slack, hp⟩ := h.pmmInv
  refine ⟨hinv, hgrown.1, ⟨_, .cons (he _ hcalls) (.nil _)⟩, fun q hq _ => hserves q hq, ?_,
    fun _ _ => ⟨hgrown, ?_⟩⟩
  · intro f hf hnot hmem
    obtain ⟨g, hg, hclear, hset, heq⟩ :=
      Pool.mem_newTables.mp ((List.mem_append.mp hmem).resolve_right hnot)
    rw [← (frameAddr_inj hp hg hf).mp heq]
    exact ⟨hclear, hset⟩
  · intro f hf hclear hset
    refine ⟨fun hmem => ?_, List.mem_append_left _ (Pool.mem_newTables.mpr ⟨f, hf, hclear, hset, rfl⟩)⟩
    rw [h.table_used hf hmem] at hclear
    cases hclear

theorem RootsInv.step {op : PoolOp} (h : RootsInv k) (hs : PoolStep k op k') :
    PoolStepSpec k op k' := by
  cases op with
  | create r =>
      rcases h.create hs with ⟨_, hquiet, hrun⟩ | ⟨_, hnew⟩
      · exact hquiet.spec (fun _ => rfl) hrun
      · obtain ⟨p, f, hp, hf, hclear, haddr, hpmm⟩ := hnew.frames
        obtain ⟨slack, hinv⟩ := h.pmmInv
        have hgrown : Grown k.heap.pmm k'.heap.pmm := by
          rw [hpmm]
          rcases hp with rfl | ⟨_, i, _, _, rfl⟩
          · exact Grown.takeFrame _ _
          · exact (Grown.takeFrame _ _).trans (Grown.takeFrame _ _)
        have hold : k.heap.pmm.used f = false := by
          rcases hp with rfl | ⟨_, i, _, _, rfl⟩
          · exact hclear
          · rw [takeFrame_used, Bool.or_eq_false_iff] at hclear
            exact hclear.2
        refine ⟨hnew.inv, hgrown.1, ⟨_, hnew.run⟩, fun q hq _ => ?_, ?_, nofun⟩
        · obtain ⟨hroot, hsame⟩ := hnew.kept q hq
          refine ⟨by rw [hnew.roots]; exact List.mem_cons_of_mem _ hq, hroot, fun u => ?_⟩
          rw [hsame u]
          simp [PoolOp.walksFor]
        · intro g hg hnot hmem
          rw [hnew.tables, ← haddr, List.mem_cons] at hmem
          rw [(frameAddr_inj hinv hg hf).mp (hmem.resolve_right hnot)]
          refine ⟨hold, ?_⟩
          rw [hpmm, takeFrame_used]
          simp
  | map r va phys prot res =>
      obtain ⟨hr, hcall⟩ := hs
      obtain ⟨⟨y, m⟩, hf, heq⟩ := Option.map_eq_some_iff.mp hcall
      obtain ⟨rfl, rfl⟩ := Prod.mk.inj heq
      exact h.walk_spec (f := fun u => Arm64.archMapPage u (k.root r) va phys prot)
        (e := .map (k.root r) va phys prot y) hr (fun _ => rfl) (fun _ hcalls => hcalls)
        (fun _ _ _ hu hf => archMapPage_spec hu (liveRoot_of_mem (Pool.root_mem hr)) hf) hf
  | unmap r va res =>
      obtain ⟨hr, hcall⟩ := hs
      obtain ⟨⟨y, m⟩, hf, heq⟩ := Option.map_eq_some_iff.mp hcall
      obtain ⟨rfl, rfl⟩ := Prod.mk.inj heq
      exact h.walk_spec (f := fun u => Arm64.archUnmapPage u (k.root r) va)
        (e := .unmap (k.root r) va y) hr (fun _ => rfl) (fun _ hcalls => hcalls)
        (fun _ _ _ hu hf => archUnmapPage_spec hu (liveRoot_of_mem (Pool.root_mem hr)) hf) hf
  | destroy r =>
      have hdrop := h.destroy hs
      refine ⟨hdrop.inv, hdrop.range, ⟨_, hdrop.run⟩, fun q hq hne => ?_, ?_, nofun⟩
      · obtain ⟨hlive, hroot, hsame⟩ := hdrop.kept q hq fun heq => hne (by rw [heq])
        refine ⟨hlive, hroot, fun u => ?_⟩
        rw [hsame u]
        simp [PoolOp.walksFor]
      · intro f _ hnot hmem
        exact absurd (hdrop.tables _ hmem) hnot
  | other =>
      have hquiet := h.other hs
      exact hquiet.spec (fun _ => rfl) ⟨_, .cons hquiet.step (.nil _)⟩

/-- A live root is not created again. -/
theorem RootsInv.create_fresh (h : RootsInv k) (hr : r ∈ k.roots)
    (hs : PoolStep k (.create r) k') : False := by
  obtain ⟨booted, B, T, hk⟩ := h.pool
  obtain ⟨slack, o, hi⟩ := hk.heap
  rcases h.create hs with ⟨hzero, _⟩ | ⟨_, hnew⟩
  · exact hi.ne_zero (hk.root_block hr) hzero
  · obtain ⟨_, _, _, hk'⟩ := hnew.inv.pool
    have hnodup := List.Nodup.of_map _ hk'.distinct
    rw [hnew.roots] at hnodup
    exact (List.nodup_cons.mp hnodup).1 hr

/-- The pool before the first root. -/
theorem RootsInv.boot {slack : ℕ} {h : Heap} {blocks : List ℕ} {o : Ownership}
    (hi : HeapInv slack booted h blocks o) (halign : h.pmm.memPhysBase % pageSize = 0)
    (htop : h.pmm.memPhysBase + h.pmm.totalFrames * pageSize ≤ 2 ^ 48) :
    RootsInv (.boot h blocks) := by
  have hboot : SpacesBoot (Pool.boot h blocks).spaces := ⟨⟨slack, hi.caches.pmm⟩, halign, htop, rfl⟩
  refine ⟨⟨booted, _, _, PoolInv.boot hi⟩, hboot.inv, fun u => ?_⟩
  constructor
  · intro hu
    cases hu
  · rintro ⟨ρ, hu⟩
    cases hu.live

end Roots

end Vectra.Arm64

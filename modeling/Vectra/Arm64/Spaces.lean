import Mathlib.Order.Bounds.Basic
import Vectra.Arm64.Operations
import Vectra.Lib.Run

/-!
# Live address spaces

Roots are created, mapped into, unmapped from and destroyed in any order, while
the hardware caches translations and other kernel code runs in between. The
ASIDs of the live roots are distinct and in use.
-/

namespace Vectra.Arm64

open Lib

structure Spaces extends Machine where
  live : List PagetableRoot

inductive SpaceOp
  | create (kmallocOk : Bool) (result : Option PagetableRoot)
  | map (root : PagetableRoot) (va phys prot : ℕ) (result : ℤ)
  | unmap (root : PagetableRoot) (va : ℕ) (result : ℤ)
  | destroy (root : PagetableRoot)
  | hardware
  | other
  deriving DecidableEq

def liveRoot (live : List PagetableRoot) (r : PagetableRoot) : Option ℕ :=
  if r ∈ live then some r.ttbr0Phys else none

/-- The tables of a live root. -/
def TableOf (s : Spaces) (r : PagetableRoot) (u : ℕ) : Prop :=
  Reaches armTable (tableEntry s.mem) 3 (liveRoot s.live) r u

/-- The hardware drops entries as it likes, and caches valid leaves of live roots. -/
def Fills (live : List PagetableRoot) (m : Bytes) (tlb tlb' : List TlbEntry) : Prop :=
  ∀ e ∈ tlb', e ∈ tlb ∨ ∃ r ∈ live, e.asid = r.asid ∧
    hwWalk m r.ttbr0Phys e.page = some e.descriptor

/-- Other kernel code, the kernel heap included, takes and releases frames and writes
memory, but it does not release or write the tables of live roots. -/
structure OtherCode (s t : Spaces) : Prop where
  pmm : ∃ slack, PmmInv slack t.pmm
  range : SameRange s.pmm t.pmm
  taken : ∀ r u f, TableOf s r u → f < t.pmm.totalFrames → t.pmm.used f = false →
    t.pmm.frameAddr f ≠ u
  bytes : ∀ r u x, TableOf s r u → u ≤ x → x < u + pageSize → t.mem x = s.mem x
  asids : t.asidUsed = s.asidUsed
  tlb : t.tlb = s.tlb
  live : t.live = s.live

/-- A call of `arch_map_page` or `arch_unmap_page` on a live root, during which the
hardware caches leaves of the tables before and after the one write of the call. -/
def Calls (f : Machine → Option (ℤ × Machine)) (r : PagetableRoot) (res : ℤ) (s t : Spaces) :
    Prop :=
  r ∈ s.live ∧ t.live = s.live ∧ ∃ tlb₁ tlb₂, Fills s.live s.mem s.tlb tlb₁ ∧
    Fills s.live t.mem tlb₁ tlb₂ ∧ f { s.toMachine with tlb := tlb₂ } = some (res, t.toMachine)

def SpaceStep (s : Spaces) (op : SpaceOp) (t : Spaces) : Prop :=
  match op with
  | .create ok res => archPagetableCreate ok s.toMachine = some (res, t.toMachine) ∧
      t.live = res.elim s.live (· :: s.live)
  | .map r va phys prot res => Calls (archMapPage · r va phys prot) r res s t
  | .unmap r va res => Calls (archUnmapPage · r va) r res s t
  | .destroy r => r ∈ s.live ∧
      t = ⟨archPagetableDestroy s.toMachine r, s.live.filter fun r' => r' ≠ r⟩
  | .hardware => Fills s.live s.mem s.tlb t.tlb ∧ t = { s with tlb := t.tlb }
  | .other => OtherCode s t

/-- The state before the first root: the frame allocator is up, and its frames are
addressable by descriptors. -/
structure SpacesBoot (s : Spaces) : Prop where
  pmm : ∃ slack, PmmInv slack s.pmm
  aligned : s.pmm.memPhysBase % pageSize = 0
  top : s.pmm.memPhysBase + s.pmm.totalFrames * pageSize ≤ 2 ^ 48
  live : s.live = []

structure SpacesInv (s : Spaces) : Prop where
  tables : ∃ slack, ArmTables slack s.pmm s.mem (liveRoot s.live)
  asidUsed : ∀ r ∈ s.live, s.asidUsed r.asid = true
  asidLt : ∀ r ∈ s.live, r.asid < asidPoolSize
  asidInj : ∀ r ∈ s.live, ∀ r' ∈ s.live, r.asid = r'.asid → r = r'

/-- The least ASID that `asid_alloc` may hand out. -/
def LowestAsid (used : ℕ → Bool) (a : ℕ) : Prop :=
  IsLeast {i | 1 ≤ i ∧ i < asidPoolSize ∧ used i = false} a

/-- What an operation does to the translations of `r`, as a finite map. -/
def bindOp (r : PagetableRoot) (f : PageNumber → Option ℕ) : SpaceOp → PageNumber → Option ℕ
  | .map r' va phys prot res =>
      if r' = r ∧ res = 0 then Function.update f (pageNumber va) (some (leafDescriptor phys prot))
      else f
  | .unmap r' va res => if r' = r ∧ res = 0 then Function.update f (pageNumber va) none else f
  | _ => f

/-- The translations and the tables of a root are what they were. -/
structure Keeps (r : PagetableRoot) (s t : Spaces) : Prop where
  walk : hwWalk t.mem r.ttbr0Phys = hwWalk s.mem r.ttbr0Phys
  tables : ∀ u, TableOf t r u ↔ TableOf s r u

/-- What an operation does to a root that it does not destroy: it rebinds its pages as
`bindOp` says. -/
structure Serves (s : Spaces) (op : SpaceOp) (t : Spaces) (r : PagetableRoot) : Prop where
  live : r ∈ t.live
  walk : hwWalk t.mem r.ttbr0Phys = bindOp r (hwWalk s.mem r.ttbr0Phys) op

section Roots

variable {live : List PagetableRoot} {r r' : PagetableRoot} {used used' : ℕ → Bool} {a : ℕ}

theorem liveRoot_of_mem (h : r ∈ live) : liveRoot live r = some r.ttbr0Phys := if_pos h

theorem liveRoot_cons :
    liveRoot (r :: live) = Function.update (liveRoot live) r (some r.ttbr0Phys) := by
  funext r'
  unfold liveRoot
  by_cases hr : r' = r
  · rw [hr, Function.update_self, if_pos List.mem_cons_self]
  · rw [Function.update_of_ne hr]
    simp [hr]

theorem liveRoot_filter :
    liveRoot (live.filter fun r' => r' ≠ r) = Function.update (liveRoot live) r none := by
  funext r'
  unfold liveRoot
  by_cases hr : r' = r
  · rw [hr, Function.update_self]
    simp
  · rw [Function.update_of_ne hr]
    simp [hr]

theorem asidAlloc_some (h : asidAlloc used = some (a, used')) :
    LowestAsid used a ∧ used' = Function.update used a true := by
  unfold asidAlloc at h
  obtain ⟨i, hi, heq⟩ := Option.map_eq_some_iff.mp h
  cases heq
  obtain ⟨hlo, hhi, hfree, hmin⟩ := firstFrom_sound hi
  unfold asidPoolSize at hhi
  refine ⟨⟨⟨hlo, by unfold asidPoolSize; omega, by simpa using hfree⟩, ?_⟩, rfl⟩
  rintro j ⟨hj, _, hclear⟩
  by_contra hlt
  have hset := hmin j hj (by omega)
  rw [hclear] at hset
  cases hset

end Roots

section Steps

variable {slack slack' : ℕ} {s t : Spaces} {op : SpaceOp} {r : PagetableRoot} {res : ℤ}

/-- Equal entries in the tables mean equal translations and equal tables. -/
theorem Keeps.of_entries (h : ArmTables slack s.pmm s.mem (liveRoot s.live))
    (h' : ArmTables slack' t.pmm t.mem (liveRoot t.live))
    (hkeep : ∀ u, IsTable armTable (tableEntry s.mem) 3 (liveRoot s.live) u → ∀ j,
      tableEntry t.mem u j = tableEntry s.mem u j)
    (hs : r ∈ s.live) (ht : r ∈ t.live) : Keeps r s t := by
  have hroot : liveRoot t.live r = liveRoot s.live r := by
    rw [liveRoot_of_mem hs, liveRoot_of_mem ht]
  have hpath : ∀ π : List (Fin 512), π.length ≤ 3 →
      rootAt armTable (tableEntry t.mem) (liveRoot t.live) r π =
        rootAt armTable (tableEntry s.mem) (liveRoot s.live) r π := by
    intro π hπ
    rw [rootAt_of_root_eq hroot, rootAt_keep hkeep hπ]
  refine ⟨?_, ?_⟩
  · funext page
    have hlen := pagePath_length page 3
    rw [h.hwWalk_eq (liveRoot_of_mem hs), h'.hwWalk_eq (liveRoot_of_mem ht),
      lookupAt_of_root_eq hroot, lookupAt_keep hkeep hlen.le]
  · intro u
    constructor
    · rintro ⟨π, hπ, hu⟩
      rw [hpath π hπ] at hu
      exact ⟨π, hπ, hu⟩
    · rintro ⟨π, hπ, hu⟩
      exact ⟨π, hπ, by rwa [hpath π hπ]⟩

theorem SpacesBoot.inv (h : SpacesBoot s) : SpacesInv s := by
  obtain ⟨slack, hp⟩ := h.pmm
  have hnone : ∀ u, ¬ IsTable armTable (tableEntry s.mem) 3 (liveRoot s.live) u := by
    rintro u ⟨r, π, _, hu⟩
    rw [h.live] at hu
    cases hu
  refine ⟨⟨slack, ⟨⟨hp, h.aligned, ?_, fun u hu => absurd hu (hnone u),
    fun u f hu => absurd hu (hnone u)⟩, h.top, fun u hu => absurd hu (hnone u),
    fun u hu => absurd hu (hnone u)⟩⟩, ?_, ?_, ?_⟩
  · intro r r' π π' u hπ _ hu
    exact absurd ⟨r, π, hπ, hu⟩ (hnone u)
  all_goals
    rw [h.live]
    intro r hr
    cases hr

namespace SpacesInv

/-- A root that is created is an empty table in a free frame, under the least free ASID. -/
theorem create_some (h : SpacesInv s) {ok : Bool} (hs : SpaceStep s (.create ok (some r)) t) :
    SpacesInv t ∧ LowestAsid s.asidUsed r.asid ∧ t.tlb = s.tlb ∧ t.live = r :: s.live ∧
      r ∉ s.live ∧ (∀ r' ∈ s.live, Keeps r' s t) ∧ (∀ page, hwWalk t.mem r.ttbr0Phys page = none) ∧
      ∃ f < s.pmm.totalFrames, s.pmm.used f = false ∧ t.pmm = takeFrame s.pmm f ∧
        r.ttbr0Phys = s.pmm.frameAddr f ∧ r.ttbr0Phys ≠ 0 ∧
        ∀ u, TableOf t r u ↔ u = r.ttbr0Phys := by
  obtain ⟨⟨pmm, mem, asidUsed, tlb⟩, live⟩ := t
  obtain ⟨slack, ha⟩ := h.tables
  obtain ⟨hs, hlive⟩ := hs
  simp only [Option.elim_some] at hlive hs
  subst hlive
  unfold archPagetableCreate at hs
  split at hs
  · cases halloc : allocTablePage s.pmm s.mem with
    | none => simp [halloc] at hs
    | some b =>
        obtain ⟨l0Phys, p, m⟩ := b
        simp only [halloc] at hs
        split at hs
        · simp at hs
        · rename_i hne
          cases hasid : asidAlloc s.asidUsed with
          | none => simp [hasid] at hs
          | some c =>
              obtain ⟨asid, used⟩ := c
              simp only [hasid, Option.some.injEq, Prod.mk.injEq, Machine.mk.injEq] at hs
              obtain ⟨rfl, rfl, rfl, rfl, rfl⟩ := hs
              obtain ⟨hlowest, rfl⟩ := asidAlloc_some hasid
              rcases allocTablePage_some ha.tables.pmm halloc with
                ⟨hzero, _⟩ | ⟨_, f, hf, hclear, rfl, rfl, rfl⟩
              · exact absurd hzero hne
              · have hfree : ∀ r' ∈ s.live, r'.asid ≠ asid := by
                  intro r' hr' heq
                  have hset := h.asidUsed r' hr'
                  rw [heq, hlowest.1.2.2] at hset
                  cases hset
                have hnot : ⟨s.pmm.frameAddr f, asid⟩ ∉ s.live := fun hmem => hfree _ hmem rfl
                obtain ⟨ha', hkeep, hzero⟩ := ha.addRoot hf hclear ⟨s.pmm.frameAddr f, asid⟩ rfl
                rw [← liveRoot_cons (r := ⟨s.pmm.frameAddr f, asid⟩)] at ha'
                refine ⟨⟨⟨slack, ha'⟩, ?_, ?_, ?_⟩, hlowest, rfl, rfl, hnot, ?_, ?_, f, hf, hclear,
                  rfl, rfl, hne, ?_⟩
                · intro r' hr'
                  rcases List.mem_cons.mp hr' with rfl | hr'
                  · exact Function.update_self _ _ _
                  · exact (Function.update_of_ne (hfree r' hr') _ _).trans (h.asidUsed r' hr')
                · intro r' hr'
                  rcases List.mem_cons.mp hr' with rfl | hr'
                  · exact hlowest.1.2.1
                  · exact h.asidLt r' hr'
                · intro r₁ h₁ r₂ h₂ heq
                  rcases List.mem_cons.mp h₁ with rfl | h₁
                  · rcases List.mem_cons.mp h₂ with rfl | h₂
                    · rfl
                    · exact absurd heq.symm (hfree r₂ h₂)
                  · rcases List.mem_cons.mp h₂ with rfl | h₂
                    · exact absurd heq (hfree r₁ h₁)
                    · exact h.asidInj r₁ h₁ r₂ h₂ heq
                · intro r' hr'
                  exact Keeps.of_entries ha ha' hkeep hr' (List.mem_cons_of_mem _ hr')
                · intro page
                  have hentry := hzero (pageIndex page 3)
                  unfold tableEntry pageIndex at hentry
                  rw [hwWalk, hwWalkFrom, hentry]
                  rfl
                · intro u
                  have hempty : ∀ j, armTable (tableEntry
                      (fill s.mem (s.pmm.frameAddr f) 0#8 pageSize) (s.pmm.frameAddr f) j) =
                        none := by
                    intro j
                    rw [hzero j]
                    rfl
                  unfold TableOf Reaches
                  simp only [liveRoot_cons, rootAt_add hempty]
                  constructor
                  · rintro ⟨_, _, _, heq⟩
                    exact heq
                  · intro heq
                    exact ⟨[], by simp, rfl, heq⟩
  · simp at hs

/-- A root can be created while a frame and an ASID are free. -/
theorem create_succeeds (h : SpacesInv s) (hbase : 0 < s.pmm.memPhysBase) {f a : ℕ}
    (hf : f < s.pmm.totalFrames) (hclear : s.pmm.used f = false) (ha : LowestAsid s.asidUsed a) :
    ∃ r t, SpaceStep s (.create true (some r)) t ∧ r.asid = a := by
  obtain ⟨slack, htables⟩ := h.tables
  have hused : ¬ ∀ i < s.pmm.totalFrames, s.pmm.used i = true := by
    intro hall
    rw [hall f hf] at hclear
    cases hclear
  have hasid : firstFrom (fun i => !s.asidUsed i) 1 (asidPoolSize - 1) = some a := by
    obtain ⟨⟨hlo, hhi, hfree⟩, hmin⟩ := ha
    unfold asidPoolSize at *
    refine firstFrom_eq_some hlo (by omega) (by simpa using hfree) fun j hj hlt => ?_
    cases hset : s.asidUsed j with
    | true => rfl
    | false =>
        have hle := hmin ⟨hj, by omega, hset⟩
        omega
  rcases htables.tables.pmm.allocFrame_cases with ⟨_, _, hall⟩ | ⟨_, hall⟩ | ⟨i, hi, _, halloc⟩
  · exact absurd hall hused
  · exact absurd hall hused
  · have hne : s.pmm.frameAddr i ≠ 0 := by
      rw [htables.tables.pmm.frameAddr_eq hi]
      omega
    refine ⟨⟨s.pmm.frameAddr i, a⟩, ⟨{ s.toMachine with
      pmm := takeFrame s.pmm i
      mem := fill s.mem (s.pmm.frameAddr i) 0#8 pageSize
      asidUsed := Function.update s.asidUsed a true }, ⟨s.pmm.frameAddr i, a⟩ :: s.live⟩, ⟨?_, rfl⟩,
      rfl⟩
    simp [archPagetableCreate, allocTablePage, halloc, hne, asidAlloc, hasid]

/-- Where no root is created, nothing is lost but a frame that cannot be addressed. -/
theorem create_none (h : SpacesInv s) {ok : Bool} (hs : SpaceStep s (.create ok none) t) :
    SpacesInv t ∧ SameRange s.pmm t.pmm ∧ t.tlb = s.tlb ∧ t.live = s.live ∧
      ∀ r ∈ s.live, Keeps r s t := by
  obtain ⟨⟨pmm, mem, asidUsed, tlb⟩, live⟩ := t
  obtain ⟨slack, ha⟩ := h.tables
  obtain ⟨hs, hlive⟩ := hs
  simp only [Option.elim_none] at hlive hs
  subst hlive
  unfold archPagetableCreate at hs
  split at hs
  · cases halloc : allocTablePage s.pmm s.mem with
    | none => simp [halloc] at hs
    | some b =>
        obtain ⟨l0Phys, p, m⟩ := b
        simp only [halloc] at hs
        rcases allocTablePage_some ha.tables.pmm halloc with
          ⟨rfl, rfl, hp⟩ | ⟨hne, f, hf, hclear, rfl, rfl, rfl⟩
        · rw [if_pos rfl] at hs
          simp only [Option.some.injEq, Prod.mk.injEq, Machine.mk.injEq, true_and] at hs
          obtain ⟨rfl, rfl, rfl, rfl⟩ := hs
          have hgrown : Grown s.pmm p ∧ PmmInv slack p := by
            rcases hp with ⟨rfl, _⟩ | ⟨f, hf, hclear, _, rfl⟩
            · exact ⟨Grown.refl _, ha.tables.pmm⟩
            · exact ⟨Grown.takeFrame _ _, ha.tables.pmm.takeFrame hf hclear⟩
          have ha' := ha.grown hgrown.2 hgrown.1
          exact ⟨⟨⟨slack, ha'⟩, h.asidUsed, h.asidLt, h.asidInj⟩, hgrown.1.1, rfl, rfl,
            fun r hr => Keeps.of_entries ha ha' (fun _ _ _ => rfl) hr hr⟩
        · rw [if_neg hne] at hs
          cases hasid : asidAlloc s.asidUsed with
          | some c => simp [hasid] at hs
          | none =>
              simp only [hasid, Option.some.injEq, Prod.mk.injEq, Machine.mk.injEq, true_and] at hs
              obtain ⟨rfl, rfl, rfl, rfl⟩ := hs
              -- the frame of the root is given back
              have htaken := ha.tables.pmm.takeFrame hf hclear
              have haddr : s.pmm.frameAddr f = (takeFrame s.pmm f).frameAddr f := rfl
              obtain ⟨hinv, hrange⟩ := htaken.freeFrame (s.pmm.frameAddr f)
              have hused : ∀ j, (pmmFreeFrame (takeFrame s.pmm f) (s.pmm.frameAddr f)).used j =
                  s.pmm.used j := by
                intro j
                have hfreed := htaken.freeFrame_used (i := f) hf (by decide : 0 < pageSize) j
                rw [Nat.add_zero, ← haddr, takeFrame_used] at hfreed
                rw [hfreed]
                by_cases hj : j = f
                · rw [hj, hclear]
                  simp
                · simp [hj]
              have hpage := (ha.tables.frame_page hf).1
              have hout : ∀ u, IsTable armTable (tableEntry s.mem) 3 (liveRoot s.live) u → ∀ x,
                  u ≤ x → x < u + pageSize →
                  fill s.mem (s.pmm.frameAddr f) 0#8 pageSize x = s.mem x := by
                intro u hu x hlo hhi
                have hup := (ha.tables.page u hu).1
                have hne := ha.tables.taken u f hu hf hclear
                apply fill_out
                unfold pageSize at *
                omega
              obtain ⟨ha', hkeep⟩ := ha.congr hinv ((takeFrame_sameRange s.pmm f).trans hrange) (by
                intro u g hu hg hgclear
                rw [hused] at hgclear
                rw [hrange.frameAddr]
                exact ha.tables.taken u g hu (by rw [hrange.2] at hg; exact hg) hgclear) hout
              exact ⟨⟨⟨slack, ha'⟩, h.asidUsed, h.asidLt, h.asidInj⟩,
                (takeFrame_sameRange s.pmm f).trans hrange, rfl, rfl,
                fun r hr => Keeps.of_entries ha ha' hkeep hr hr⟩
  · simp only [Option.some.injEq, Prod.mk.injEq, true_and] at hs
    have heq : s = ⟨⟨pmm, mem, asidUsed, tlb⟩, s.live⟩ := by rw [← hs]
    rw [← heq]
    exact ⟨h, SameRange.refl _, rfl, rfl, fun r _ => ⟨rfl, fun _ => Iff.rfl⟩⟩

/-- The tables of a destroyed root are released, each once, and no other frame is. -/
theorem destroy (h : SpacesInv s) (hs : SpaceStep s (.destroy r) t) :
    SpacesInv t ∧ SameRange s.pmm t.pmm ∧ (∀ r' ∈ s.live, r' ≠ r → Keeps r' s t) ∧
      t.pmm = (freedTables s.mem 3 r.ttbr0Phys).foldl pmmFreeFrame s.pmm ∧
      (freedTables s.mem 3 r.ttbr0Phys).Nodup ∧
      (∀ u, u ∈ freedTables s.mem 3 r.ttbr0Phys ↔ TableOf s r u) ∧
      ∀ j < s.pmm.totalFrames, t.pmm.used j =
        (s.pmm.used j && !decide (s.pmm.frameAddr j ∈ freedTables s.mem 3 r.ttbr0Phys)) := by
  obtain ⟨slack, ha⟩ := h.tables
  obtain ⟨hr, heq⟩ := hs
  have hroot := liveRoot_of_mem hr
  obtain ⟨hnodup, hmem⟩ := ha.freedTables_spec hroot
  obtain ⟨ha', hrange, hused⟩ := ha.dropRoot hroot
  have hpmm : t.pmm = (freedTables s.mem 3 r.ttbr0Phys).foldl pmmFreeFrame s.pmm := by
    simp only [heq, ← freeTableRecursive_eq, archPagetableDestroy, ptLevels]
  have hmemory : t.mem = s.mem := by simp only [heq, archPagetableDestroy]
  have hasids : t.asidUsed = Function.update s.asidUsed r.asid false := by
    simp only [heq, archPagetableDestroy, asidFree]
  have hroots : t.live = s.live.filter fun r' => r' ≠ r := by rw [heq]
  rw [← hpmm] at hrange hused
  rw [← liveRoot_filter (r := r), ← hpmm, ← hroots, ← hmemory] at ha'
  have hlive : ∀ r', r' ∈ t.live ↔ r' ∈ s.live ∧ r' ≠ r := by
    intro r'
    rw [hroots]
    simp
  refine ⟨⟨⟨slack, ha'⟩, ?_, ?_, ?_⟩, hrange, ?_, hpmm, hnodup, hmem, hused⟩
  · intro r' hr'
    obtain ⟨hr', hne⟩ := (hlive r').mp hr'
    rw [hasids, Function.update_of_ne (fun heq => hne (h.asidInj r' hr' r hr heq))]
    exact h.asidUsed r' hr'
  · exact fun r' hr' => h.asidLt r' ((hlive r').mp hr').1
  · exact fun r₁ h₁ r₂ h₂ => h.asidInj r₁ ((hlive r₁).mp h₁).1 r₂ ((hlive r₂).mp h₂).1
  · intro r' hr' hne
    exact Keeps.of_entries ha ha' (fun _ _ _ => by rw [hmemory]) hr' ((hlive r').mpr ⟨hr', hne⟩)

theorem other (h : SpacesInv s) (hs : OtherCode s t) :
    SpacesInv t ∧ ∀ r ∈ s.live, Keeps r s t := by
  obtain ⟨slack, ha⟩ := h.tables
  obtain ⟨slack', hp⟩ := hs.pmm
  obtain ⟨ha', hkeep⟩ := ha.congr hp hs.range
    (fun u f ⟨r, hu⟩ hf hclear => hs.taken r u f hu hf hclear)
    (fun u ⟨r, hu⟩ x hlo hhi => hs.bytes r u x hu hlo hhi)
  rw [← hs.live] at ha'
  refine ⟨⟨⟨slack', ha'⟩, ?_, ?_, ?_⟩, fun r hr => Keeps.of_entries ha ha' hkeep hr (hs.live ▸ hr)⟩
  · rw [hs.live, hs.asids]
    exact h.asidUsed
  · rw [hs.live]
    exact h.asidLt
  · rw [hs.live]
    exact h.asidInj

/-- A call on a live root rebinds one page of it. -/
theorem calls (h : SpacesInv s) {f : Machine → Option (ℤ × Machine)} {va : ℕ} {d : Option ℕ}
    (hspec : ∀ slack u v, ArmTables slack u.pmm u.mem (liveRoot s.live) → f u = some (res, v) →
      ArmTables slack v.pmm v.mem (liveRoot s.live) ∧ (res = 0 ∨ res = -1) ∧
        Binds (liveRoot s.live) r va d (decide (res = 0)) u v)
    (hs : Calls f r res s t) :
    SpacesInv t ∧ ∃ tlb₁ tlb₂, Fills s.live s.mem s.tlb tlb₁ ∧ Fills s.live t.mem tlb₁ tlb₂ ∧
      Binds (liveRoot s.live) r va d (decide (res = 0)) { s.toMachine with tlb := tlb₂ }
        t.toMachine := by
  obtain ⟨slack, ha⟩ := h.tables
  obtain ⟨hr, hlive, tlb₁, tlb₂, hfill₁, hfill₂, hf⟩ := hs
  obtain ⟨ha', _, hbinds⟩ := hspec slack { s.toMachine with tlb := tlb₂ } _ ha hf
  rw [← hlive] at ha'
  refine ⟨⟨⟨slack, ha'⟩, ?_, ?_, ?_⟩, tlb₁, tlb₂, hfill₁, hfill₂, hbinds⟩
  · rw [hlive, hbinds.asids]
    exact h.asidUsed
  · rw [hlive]
    exact h.asidLt
  · rw [hlive]
    exact h.asidInj

end SpacesInv

/-! ## One step -/

theorem Keeps.serves (h : Keeps r s t) (hlive : r ∈ t.live) (hbind : ∀ f, bindOp r f op = f) :
    Serves s op t r where
  live := hlive
  walk := by rw [hbind, h.walk]

theorem Binds.serves {r' : PagetableRoot} {va : ℕ} {d : Option ℕ} {tlb : List TlbEntry}
    (h : Binds (liveRoot s.live) r va d (decide (res = 0))
      { s.toMachine with tlb := tlb } t.toMachine)
    (hlive : t.live = s.live) (hr' : r' ∈ s.live)
    (hbind : ∀ f, bindOp r' f op =
      if r = r' ∧ res = 0 then Function.update f (pageNumber va) d else f) :
    Serves s op t r' where
  live := hlive ▸ hr'
  walk := by
    funext page
    have hpage := h.walk r' _ (liveRoot_of_mem hr') page
    rw [hbind, hpage]
    by_cases hsame : r = r' ∧ res = 0
    · rw [if_pos hsame]
      by_cases hp : page = pageNumber va
      · rw [hp, Function.update_self, if_pos ⟨decide_eq_true hsame.2, hsame.1.symm, rfl⟩]
      · rw [Function.update_of_ne hp, if_neg (fun hh => hp hh.2.2)]
    · rw [if_neg hsame, if_neg]
      rintro ⟨hres, hrr, _⟩
      exact hsame ⟨hrr.symm, of_decide_eq_true hres⟩

/-- Every operation keeps the invariant and serves every root that it does not destroy. -/
theorem SpacesInv.step (h : SpacesInv s) (hs : SpaceStep s op t) :
    SpacesInv t ∧ SameRange s.pmm t.pmm ∧
      ∀ r ∈ s.live, op ≠ .destroy r → Serves s op t r := by
  cases op with
  | create ok result =>
      cases result with
      | none =>
          obtain ⟨ht, hrange, _, hlive, hkeeps⟩ := h.create_none hs
          exact ⟨ht, hrange, fun r hr _ =>
            (hkeeps r hr).serves (hlive ▸ hr) fun _ => rfl⟩
      | some r₀ =>
          obtain ⟨ht, _, _, hlive, _, hkeeps, _, f, _, _, hpmm, _⟩ := h.create_some hs
          refine ⟨ht, ?_, fun r hr _ => (hkeeps r hr).serves ?_ fun _ => rfl⟩
          · rw [hpmm]
            exact takeFrame_sameRange _ _
          · rw [hlive]
            exact List.mem_cons_of_mem _ hr
  | map r₀ va phys prot res =>
      have hcalls : Calls (archMapPage · r₀ va phys prot) r₀ res s t := hs
      obtain ⟨ht, _, _, _, _, hbinds⟩ := h.calls
        (fun _ _ _ hu hf => archMapPage_spec hu (liveRoot_of_mem hcalls.1) hf) hcalls
      exact ⟨ht, hbinds.takes.grown.1, fun r hr _ =>
        hbinds.serves hcalls.2.1 hr fun _ => rfl⟩
  | unmap r₀ va res =>
      have hcalls : Calls (archUnmapPage · r₀ va) r₀ res s t := hs
      obtain ⟨ht, _, _, _, _, hbinds⟩ := h.calls
        (fun _ _ _ hu hf => archUnmapPage_spec hu (liveRoot_of_mem hcalls.1) hf) hcalls
      exact ⟨ht, hbinds.takes.grown.1, fun r hr _ =>
        hbinds.serves hcalls.2.1 hr fun _ => rfl⟩
  | destroy r₀ =>
      obtain ⟨ht, hrange, hkeeps, _⟩ := h.destroy hs
      obtain ⟨_, heq⟩ := hs
      refine ⟨ht, hrange, fun r hr hne => ?_⟩
      have hrr : r ≠ r₀ := fun heq => hne (by rw [heq])
      refine (hkeeps r hr hrr).serves ?_ fun _ => rfl
      rw [heq]
      simpa using ⟨hr, hrr⟩
  | hardware =>
      obtain ⟨_, heq⟩ := hs
      rw [heq]
      exact ⟨⟨h.tables, h.asidUsed, h.asidLt, h.asidInj⟩, SameRange.refl _, fun r hr _ =>
        Keeps.serves ⟨rfl, fun _ => Iff.rfl⟩ hr fun _ => rfl⟩
  | other =>
      have hother : OtherCode s t := hs
      obtain ⟨ht, hkeeps⟩ := h.other hother
      exact ⟨ht, hother.range, fun r hr _ =>
        (hkeeps r hr).serves (hother.live ▸ hr) fun _ => rfl⟩

end Steps

end Vectra.Arm64

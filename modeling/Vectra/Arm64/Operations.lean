import Vectra.Arm64.Tables

/-!
# What the operations do to the forest

A successful `arch_map_page` or `arch_unmap_page` rebinds one page of its root,
and a failed one rebinds nothing. A new root is one empty table. Destroying a
root releases its tables, each once.
-/

namespace Vectra.Arm64

open Lib

/-- An operation on `r` that binds the page of `va` to `d` where it is `ok`. -/
structure Binds (root : PagetableRoot → Option ℕ) (r : PagetableRoot) (va : ℕ) (d : Option ℕ)
    (ok : Bool) (s t : Machine) : Prop where
  takes : Takes root r s.pmm s.mem t.pmm t.mem
  asids : t.asidUsed = s.asidUsed
  tlb : t.tlb = if ok then tlbInvalidateVaAsid s.tlb va r.asid else s.tlb
  walk : ∀ r' u, root r' = some u → ∀ page, hwWalk t.mem u page =
    if ok = true ∧ r' = r ∧ page = pageNumber va then d else hwWalk s.mem u page

/-- The arguments of `pmm_free_frame` in the order of the calls. -/
def freedTables (m : Bytes) : ℕ → ℕ → List ℕ
  | 0, table => [table]
  | n + 1, table =>
      ((List.finRange 512).flatMap fun i =>
        if tableEntry m table i &&& pteValid ≠ 0 ∧ tableEntry m table i &&& pteTable ≠ 0 then
          freedTables m n (tableEntry m table i &&& pteAddrMask)
        else []) ++ [table]

section Binding

variable {slack va phys prot : ℕ} {s t : Machine} {root : PagetableRoot → Option ℕ}
  {r : PagetableRoot} {res : ℤ} {p : Pmm} {m : Bytes} {x : Option ℕ}

/-- A walk that is not followed by a write binds nothing. -/
theorem Binds.of_walk (h : ArmTables slack s.pmm s.mem root) (h' : ArmTables slack p m root)
    (hext : Extends root r s.pmm s.mem p m) (d : Option ℕ) :
    Binds root r va d false s { s with pmm := p, mem := m } where
  takes := hext.toTakes
  asids := rfl
  tlb := rfl
  walk := by
    intro r' u hu page
    rw [if_neg (fun hh => (by cases hh.1))]
    exact h.hwWalk_extends h' hext hu

/-- A walk and then a write at its end. -/
theorem Binds.of_write (h : ArmTables slack s.pmm s.mem root) (h' : ArmTables slack p m root)
    (hext : Extends root r s.pmm s.mem p m) {u d : ℕ}
    (hu : rootAt armTable (tableEntry m) root r (pagePath (pageNumber va) 3) = some u)
    (hd : d < 2 ^ 64) (hshape : d = 0 ∨ d % 4 = 3) :
    ArmTables slack p (writeLE m (u + 8 * (pageIndex (pageNumber va) 0).val) 8 d) root ∧
      Binds root r va (armLeaf d) true s { s with
        pmm := p
        mem := writeLE m (u + 8 * (pageIndex (pageNumber va) 0).val) 8 d
        tlb := tlbInvalidateVaAsid s.tlb va r.asid } := by
  obtain ⟨htables, hreaches, hwalk⟩ := h'.writeLeaf hu hd hshape rfl
  refine ⟨htables, ⟨hext.grown, ?_, ?_, ?_⟩, rfl, rfl, ?_⟩
  · intro r' hr v
    exact (hreaches r' v).trans (hext.others r' hr v)
  · intro v
    exact (hreaches r v).trans (hext.took v)
  · intro y hoff
    have hlast := hoff u ((hreaches r u).mpr ⟨_, (pagePath_length _ 3).le, hu⟩)
    have hi := (pageIndex (pageNumber va) 0).isLt
    unfold pageSize at hlast
    have hkept : writeLE m (u + 8 * (pageIndex (pageNumber va) 0).val) 8 d y = m y :=
      writeLE_out (by omega)
    exact hkept.trans (hext.bytes y fun v hv => hoff v ((hreaches r v).mpr hv))
  · intro r' v hv page
    have hpage := hwalk r' v hv page
    rw [h.hwWalk_extends h' hext hv] at hpage
    simp only [true_and]
    exact hpage

/-- Everything that `arch_map_page` does. -/
theorem archMapPage_spec (h : ArmTables slack s.pmm s.mem root)
    (hr : root r = some r.ttbr0Phys) (hs : archMapPage s r va phys prot = some (res, t)) :
    ArmTables slack t.pmm t.mem root ∧ (res = 0 ∨ res = -1) ∧
      Binds root r va (some (leafDescriptor phys prot)) (decide (res = 0)) s t := by
  have hroot : rootAt armTable (tableEntry s.mem) root r [] = some r.ttbr0Phys := by
    rw [rootAt_nil, hr]
  unfold archMapPage at hs
  cases hwalk : walkCreate va (ptLevels - 1) r.ttbr0Phys s.pmm s.mem with
  | none => simp [hwalk] at hs
  | some b =>
      obtain ⟨x, p, m⟩ := b
      obtain ⟨h', hext, hat⟩ := h.walk hroot rfl hwalk
      cases x with
      | none =>
          simp only [hwalk, Option.some.injEq, Prod.mk.injEq] at hs
          obtain ⟨rfl, rfl⟩ := hs
          exact ⟨h', Or.inr rfl, Binds.of_walk h h' hext _⟩
      | some pte =>
          simp only [hwalk, Option.some.injEq, Prod.mk.injEq] at hs
          obtain ⟨rfl, rfl⟩ := hs
          obtain ⟨u, hu, rfl⟩ := hat pte rfl
          obtain ⟨hlt, hpage⟩ := leafDescriptor_lt phys prot
          obtain ⟨htables, hbinds⟩ := Binds.of_write h h' hext hu hlt (Or.inr hpage)
          rw [armLeaf, if_pos hpage] at hbinds
          exact ⟨htables, Or.inl rfl, hbinds⟩

/-- Everything that `arch_unmap_page` does. -/
theorem archUnmapPage_spec (h : ArmTables slack s.pmm s.mem root)
    (hr : root r = some r.ttbr0Phys) (hs : archUnmapPage s r va = some (res, t)) :
    ArmTables slack t.pmm t.mem root ∧ (res = 0 ∨ res = -1) ∧
      Binds root r va none (decide (res = 0)) s t := by
  have hroot : rootAt armTable (tableEntry s.mem) root r [] = some r.ttbr0Phys := by
    rw [rootAt_nil, hr]
  unfold archUnmapPage at hs
  cases hwalk : walkCreate va (ptLevels - 1) r.ttbr0Phys s.pmm s.mem with
  | none => simp [hwalk] at hs
  | some b =>
      obtain ⟨x, p, m⟩ := b
      obtain ⟨h', hext, hat⟩ := h.walk hroot rfl hwalk
      cases x with
      | none =>
          simp only [hwalk, Option.some.injEq, Prod.mk.injEq] at hs
          obtain ⟨rfl, rfl⟩ := hs
          exact ⟨h', Or.inr rfl, Binds.of_walk h h' hext _⟩
      | some pte =>
          simp only [hwalk] at hs
          split at hs
          · cases hs
            exact ⟨h', Or.inr rfl, Binds.of_walk h h' hext _⟩
          · cases hs
            obtain ⟨u, hu, rfl⟩ := hat pte rfl
            obtain ⟨htables, hbinds⟩ :=
              Binds.of_write h h' hext hu (d := 0) (by norm_num) (Or.inl rfl)
            exact ⟨htables, Or.inl rfl, hbinds⟩

end Binding

/-! ## Releasing the tables of a root -/

section Freeing

variable {slack n t : ℕ} {p : Pmm} {m : Bytes} {root : PagetableRoot → Option ℕ}
  {r : PagetableRoot} {L : List ℕ}

theorem freeTableRecursive_eq :
    freeTableRecursive m n t p = (freedTables m n t).foldl pmmFreeFrame p := by
  induction n generalizing t p with
  | zero => rfl
  | succ n ih =>
      rw [freeTableRecursive, freedTables, List.foldl_append, List.foldl_flatMap, List.foldl_cons,
        List.foldl_nil]
      refine congrArg (pmmFreeFrame · t) (congrArg (fun f => List.foldl f p _) ?_)
      funext q i
      split
      · exact ih
      · rfl

theorem freedTables_eq :
    freedTables m n t = postorder armTable (tableEntry m) (List.finRange 512) n t := by
  induction n generalizing t with
  | zero => rfl
  | succ n ih =>
      rw [freedTables, postorder]
      refine congrArg (· ++ [t]) (congrArg (fun f => List.flatMap f _) ?_)
      funext i
      have hbits : (tableEntry m t i &&& pteValid ≠ 0 ∧ tableEntry m t i &&& pteTable ≠ 0) ↔
          tableEntry m t i % 4 = 3 := by
        rw [and_valid, Ne, Ne, and_table]
        omega
      unfold armTable
      by_cases hentry : tableEntry m t i % 4 = 3
      · rw [if_pos (hbits.mpr hentry), if_pos hentry, ih, and_addrMask]
        rfl
      · rw [if_neg (fun hh => hentry (hbits.mp hh)), if_neg hentry]
        rfl

/-- Giving back frames clears their bits. -/
theorem foldl_freeFrame (h : PmmInv slack p)
    (hL : ∀ a ∈ L, ∃ f < p.totalFrames, p.frameAddr f = a) :
    PmmInv slack (L.foldl pmmFreeFrame p) ∧ SameRange p (L.foldl pmmFreeFrame p) ∧
      ∀ j < p.totalFrames, (L.foldl pmmFreeFrame p).used j =
        (p.used j && !decide (p.frameAddr j ∈ L)) := by
  induction L generalizing p with
  | nil => exact ⟨h, SameRange.refl p, fun j _ => by simp⟩
  | cons a L ih =>
      obtain ⟨f, hf, rfl⟩ := hL a List.mem_cons_self
      obtain ⟨hq, hrange⟩ := h.freeFrame (p.frameAddr f)
      have hfreed := h.freeFrame_used hf (by decide : 0 < pageSize)
      rw [Nat.add_zero] at hfreed
      obtain ⟨hinv, hsame, hused⟩ := ih hq fun b hb => by
        obtain ⟨g, hg, heq⟩ := hL b (List.mem_cons_of_mem _ hb)
        exact ⟨g, by rw [hrange.2]; exact hg, by rw [hrange.frameAddr]; exact heq⟩
      rw [List.foldl_cons]
      refine ⟨hinv, hrange.trans hsame, fun j hj => ?_⟩
      rw [hused j (by rw [hrange.2]; exact hj), hfreed, hrange.frameAddr]
      by_cases hjf : j = f
      · subst hjf
        simp
      · have hne : p.frameAddr j ≠ p.frameAddr f := fun heq => hjf ((frameAddr_inj h hj hf).mp heq)
        simp [hjf, hne]

namespace ArmTables

/-- The released tables are those of the root, each once. -/
theorem freedTables_spec (h : ArmTables slack p m root) (hr : root r = some t) :
    (freedTables m 3 t).Nodup ∧
      ∀ u, u ∈ freedTables m 3 t ↔ Reaches armTable (tableEntry m) 3 root r u := by
  rw [freedTables_eq]
  refine ⟨nodup_postorder List.mem_finRange (List.nodup_finRange 512) ?_, ?_⟩
  · intro π σ u hπ hσ hu hu'
    rw [← rootAt_of_root hr] at hu hu'
    exact (h.tables.forest r r π σ u hπ hσ hu hu').2
  · intro u
    rw [mem_postorder List.mem_finRange]
    simp only [Reaches, rootAt_of_root hr]

theorem dropRoot (h : ArmTables slack p m root) (hr : root r = some t) :
    ArmTables slack ((freedTables m 3 t).foldl pmmFreeFrame p) m (Function.update root r none) ∧
      SameRange p ((freedTables m 3 t).foldl pmmFreeFrame p) ∧
      ∀ j < p.totalFrames, ((freedTables m 3 t).foldl pmmFreeFrame p).used j =
        (p.used j && !decide (p.frameAddr j ∈ freedTables m 3 t)) := by
  have hmem := (h.freedTables_spec hr).2
  have hpool : ∀ a ∈ freedTables m 3 t, ∃ f < p.totalFrames, p.frameAddr f = a :=
    fun a ha => h.pool a ⟨r, (hmem a).mp ha⟩
  obtain ⟨hinv, hrange, hused⟩ := foldl_freeFrame h.tables.pmm hpool
  refine ⟨⟨⟨hinv, ?_, h.tables.forest.drop r, fun u hu => h.tables.page u hu.of_drop,
      ?_⟩, ?_, ?_, ?_⟩,
    hrange, hused⟩
  · rw [hrange.1]
    exact h.tables.aligned
  · intro u f hu hf hclear heq
    rw [hrange.2] at hf
    rw [hrange.frameAddr] at heq
    rw [hused f hf, heq, Bool.and_eq_false_iff] at hclear
    rcases hclear with hclear | hfreed
    · exact h.tables.taken u f hu.of_drop hf hclear heq
    · -- a table of another root is not a table of this one
      simp only [Bool.not_eq_false', decide_eq_true_eq, hmem] at hfreed
      obtain ⟨π, hπ, hat⟩ := hfreed
      obtain ⟨r', σ, hσ, hu⟩ := hu
      by_cases hrr : r' = r
      · rw [hrr, rootAt_update_none] at hu
        cases hu
      · rw [rootAt_update_of_ne hrr] at hu
        exact hrr (h.tables.forest r' r σ π u hσ hπ hu hat).1
  · rw [hrange.1, hrange.2]
    exact h.top
  · intro u hu
    obtain ⟨f, hf, heq⟩ := h.pool u hu.of_drop
    exact ⟨f, by rw [hrange.2]; exact hf, by rw [hrange.frameAddr]; exact heq⟩
  · exact fun u hu => h.shape u hu.of_drop

/-- A zeroed frame as a new root. -/
theorem addRoot (h : ArmTables slack p m root) {f : ℕ} (hf : f < p.totalFrames)
    (hclear : p.used f = false) (r : PagetableRoot) {m' : Bytes}
    (hm' : m' = fill m (p.frameAddr f) 0#8 pageSize) :
    ArmTables slack (takeFrame p f) m' (Function.update root r (some (p.frameAddr f))) ∧
      (∀ s, IsTable armTable (tableEntry m) 3 root s → ∀ j, tableEntry m' s j = tableEntry m s j) ∧
      ∀ j, tableEntry m' (p.frameAddr f) j = 0 := by
  have hpage := (h.tables.frame_page hf).1
  have hkeep : ∀ s, IsTable armTable (tableEntry m) 3 root s → ∀ j,
      tableEntry m' s j = tableEntry m s j := by
    intro s hs j
    rw [hm', tableEntry_fill hpage (h.tables.page s hs).1,
      if_neg (fun heq => h.tables.taken s f hs hf hclear heq.symm)]
  have hzero : ∀ j, tableEntry m' (p.frameAddr f) j = 0 := by
    intro j
    rw [hm', tableEntry_fill hpage hpage, if_pos rfl]
  have hempty : ∀ j, armTable (tableEntry m' (p.frameAddr f) j) = none := by
    intro j
    rw [hzero j]
    rfl
  have hback : ∀ s, IsTable armTable (tableEntry m') 3 root s →
      IsTable armTable (tableEntry m) 3 root s := by
    rintro s ⟨r', hs⟩
    exact ⟨r', (reaches_keep hkeep).mp hs⟩
  have hcases : ∀ s, IsTable armTable (tableEntry m') 3
      (Function.update root r (some (p.frameAddr f))) s →
      IsTable armTable (tableEntry m) 3 root s ∨ s = p.frameAddr f := by
    intro s hs
    exact (hs.of_add hempty).imp_left (hback s)
  have hfresh : ¬ IsTable armTable (tableEntry m') 3 root (p.frameAddr f) :=
    fun hs => h.tables.taken _ f (hback _ hs) hf hclear rfl
  refine ⟨⟨⟨h.tables.pmm.takeFrame hf hclear, h.tables.aligned,
    (h.tables.forest.keep hkeep).add hempty hfresh, ?_, ?_⟩, h.top, ?_, ?_⟩, hkeep, hzero⟩
  · intro u hu
    rcases hcases u hu with hu | rfl
    · exact h.tables.page u hu
    · have hlt := (h.tables.frame_page hf).2
      unfold pageSize at *
      exact ⟨hpage, by omega⟩
  · intro u g hu hg hgclear
    rw [takeFrame_used, Bool.or_eq_false_iff, decide_eq_false_iff_not] at hgclear
    rcases hcases u hu with hu | rfl
    · exact h.tables.taken u g hu hg hgclear.2
    · intro heq
      exact hgclear.1 ((frameAddr_inj h.tables.pmm hg hf).mp heq)
  · intro u hu
    rcases hcases u hu with hu | rfl
    · exact h.pool u hu
    · exact ⟨f, hf, rfl⟩
  · intro u hu j
    rcases hcases u hu with hu | rfl
    · rw [hkeep u hu]
      exact h.shape u hu j
    · exact Or.inl (hzero j)

end ArmTables

end Freeing

end Vectra.Arm64

import Vectra.Arm64.SpaceRuns

/-!
# Unmapping a page that is not mapped

`arch_unmap_page` looks for its leaf with `walk_create`, which hangs the tables that are missing
on the way. A call that fails leaves everything as it was where no table is missing, and where
there is no frame for one.
-/

namespace Vectra.Arm64

open Lib

/-- The tables of the live roots, the frame bitmap and the number of free frames are the same. -/
structure Untouched (s : Spaces) (t : Machine) : Prop where
  tables : ∀ r ∈ s.live, ∀ u, TableOf s r u → ∀ i, tableEntry t.mem u i = tableEntry s.mem u i
  frameBitmap : t.pmm.frameBitmap = s.pmm.frameBitmap
  freeFrames : t.pmm.freeFrames = s.pmm.freeFrames

/-- The table at the end of the walk to a page, if all the tables on the way are there. -/
def leafTable (m : Bytes) (ttbr0 : ℕ) (page : PageNumber) : Option ℕ :=
  tableAt armTable (tableEntry m) ttbr0 (pagePath page 3)

section Walks

variable {ι : Type} {slack n t va : ℕ} {p p' : Pmm} {m m' : Bytes} {root : ι → Option ℕ} {r : ι}
  {π : List (Fin 512)} {i : Fin 512} {x : Option ℕ} {u : ℕ}

theorem childTable_found (hu : armTable (tableEntry m t i) = some u) :
    childTable p m (t + 8 * i.val) = some (some u, p, m) := by
  have hentry : readLE m (t + 8 * i.val) 8 = tableEntry m t i := rfl
  unfold armTable at hu
  split at hu
  · rename_i hvalid
    unfold childTable
    rw [hentry, and_valid, if_neg (by omega), and_addrMask, ← Option.some.inj hu]
  · cases hu

/-- A walk on which no table is missing changes nothing. -/
theorem walkCreate_found (hn : n < 4)
    (hu : tableAt armTable (tableEntry m) t (pagePath (pageNumber va) n) = some u) :
    walkCreate va n t p m = some (some (u + 8 * (pageIndex (pageNumber va) 0).val), p, m) := by
  induction n generalizing t with
  | zero =>
      rw [pagePath, tableAt, Option.some.injEq] at hu
      rw [walkCreate, hu, ← levelIndex_eq (by norm_num)]
      rfl
  | succ n ih =>
      rw [pagePath, tableAt] at hu
      obtain ⟨v, hv, hu⟩ := Option.bind_eq_some_iff.mp hu
      rw [walkCreate, levelIndex_eq hn, childTable_found hv]
      exact ih (by omega) hu

namespace ArmTables

/-- A table that is missing takes a frame, unless there is none. -/
theorem childTable_missing (h : ArmTables slack p m root)
    (ht : rootAt armTable (tableEntry m) root r π = some t) (hπ : π.length < 3)
    (hnone : armTable (tableEntry m t i) = none)
    (hs : childTable p m (t + 8 * i.val) = some (x, p', m')) :
    (x = none ∧ p' = p ∧ m' = m ∧ ∀ f < p.totalFrames, p.used f = true) ∨
      ∃ f < p.totalFrames, p.used f = false ∧ p'.used f = true := by
  have hentry : readLE m (t + 8 * i.val) 8 = tableEntry m t i := rfl
  have hzero : tableEntry m t i = 0 := by
    refine (h.shape t ⟨r, π, hπ.le, ht⟩ i).resolve_right fun htable => ?_
    rw [armTable, if_pos htable] at hnone
    cases hnone
  have htaken : ∀ f, (takeFrame p f).used f = true := fun f => by simp
  unfold childTable at hs
  rw [hentry, hzero, if_pos (by rfl)] at hs
  cases halloc : allocTablePage p m with
  | none => simp [halloc] at hs
  | some b =>
      obtain ⟨a, q, k⟩ := b
      simp only [halloc] at hs
      rcases allocTablePage_some h.tables.pmm halloc with
        ⟨rfl, rfl, hq⟩ | ⟨hne, f, hf, hclear, _, rfl, _⟩
      · rw [if_pos rfl] at hs
        cases hs
        rcases hq with ⟨rfl, hall⟩ | ⟨f, hf, hclear, _, rfl⟩
        · exact .inl ⟨rfl, rfl, rfl, hall⟩
        · exact .inr ⟨f, hf, hclear, htaken f⟩
      · rw [if_neg hne] at hs
        cases hs
        exact .inr ⟨f, hf, hclear, htaken f⟩

/-- So does a walk on which a table is missing. -/
theorem walkCreate_missing (h : ArmTables slack p m root)
    (ht : rootAt armTable (tableEntry m) root r π = some t) (hπ : π.length + n = 3)
    (hnone : tableAt armTable (tableEntry m) t (pagePath (pageNumber va) n) = none)
    (hs : walkCreate va n t p m = some (x, p', m')) :
    (x = none ∧ p' = p ∧ m' = m ∧ ∀ f < p.totalFrames, p.used f = true) ∨
      ∃ f < p.totalFrames, p.used f = false ∧ p'.used f = true := by
  induction n generalizing t π with
  | zero =>
      rw [pagePath, tableAt] at hnone
      cases hnone
  | succ n ih =>
      rw [walkCreate, levelIndex_eq (by omega)] at hs
      cases hentry : armTable (tableEntry m t (pageIndex (pageNumber va) (n + 1))) with
      | some v =>
          simp only [childTable_found hentry] at hs
          rw [pagePath, tableAt, hentry, Option.bind_some] at hnone
          refine ih (π := π ++ [pageIndex (pageNumber va) (n + 1)]) ?_ ?_ hnone hs
          · simp only [rootAt_concat, ht, Option.bind_some]
            exact hentry
          · rw [List.length_append, List.length_singleton]
            omega
      | none =>
          cases hc : childTable p m (t + 8 * (pageIndex (pageNumber va) (n + 1)).val) with
          | none => simp [hc] at hs
          | some b =>
              obtain ⟨y, q, k⟩ := b
              have hchild := h.childTable_missing ht (by omega) hentry hc
              obtain ⟨hq, _, hat⟩ := h.child ht (by omega) hc
              cases y with
              | none =>
                  simp only [hc, Option.some.injEq, Prod.mk.injEq] at hs
                  obtain ⟨rfl, rfl, rfl⟩ := hs
                  exact hchild
              | some v =>
                  simp only [hc] at hs
                  rcases hchild with ⟨hy, _⟩ | ⟨f, hf, hclear, hset⟩
                  · cases hy
                  · obtain ⟨_, hext, _⟩ := hq.walk (hat v rfl)
                      (by rw [List.length_append, List.length_singleton]; omega) hs
                    exact .inr ⟨f, hf, hclear, hext.grown.2 f hset⟩

end ArmTables

end Walks

section Unmap

variable {s₀ s : Spaces} {es : List SpaceOp} {r : PagetableRoot} {va : ℕ} {t : Machine}

theorem SpacesInv.unmap_failed_iff (h : SpacesInv s) (hr : r ∈ s.live)
    (hs : archUnmapPage s.toMachine r va = some (-1, t)) :
    Untouched s t ↔ (leafTable s.mem r.ttbr0Phys (pageNumber va)).isSome = true ∨
      ∀ f < s.pmm.totalFrames, s.pmm.used f = true := by
  obtain ⟨slack, ha⟩ := h.tables
  have hsame : t = s.toMachine → Untouched s t := by
    rintro rfl
    exact ⟨fun _ _ _ _ _ => rfl, rfl, rfl⟩
  unfold archUnmapPage at hs
  cases hwalk : walkCreate va (ptLevels - 1) r.ttbr0Phys s.pmm s.mem with
  | none => simp [hwalk] at hs
  | some b =>
      obtain ⟨x, p, m⟩ := b
      have ht : t = { s.toMachine with pmm := p, mem := m } := by
        cases x with
        | none =>
            simp only [hwalk, Option.some.injEq, Prod.mk.injEq, true_and] at hs
            exact hs.symm
        | some pte =>
            simp only [hwalk] at hs
            split at hs
            · simp only [Option.some.injEq, Prod.mk.injEq, true_and] at hs
              exact hs.symm
            · simp at hs
      cases hleaf : leafTable s.mem r.ttbr0Phys (pageNumber va) with
      | some u =>
          have hfound := walkCreate_found (p := s.pmm) (by norm_num : 3 < 4) hleaf
          simp only [show ptLevels - 1 = 3 from rfl, hfound, Option.some.injEq,
            Prod.mk.injEq] at hwalk
          obtain ⟨_, rfl, rfl⟩ := hwalk
          exact iff_of_true (hsame ht) (.inl rfl)
      | none =>
          have hroot : rootAt armTable (tableEntry s.mem) (liveRoot s.live) r [] =
              some r.ttbr0Phys := by
            rw [rootAt_nil, liveRoot_of_mem hr]
          rcases ha.walkCreate_missing hroot rfl hleaf hwalk with
            ⟨_, rfl, rfl, hall⟩ | ⟨f, hf, hclear, hset⟩
          · exact iff_of_true (hsame ht) (.inr hall)
          · refine iff_of_false (fun hun => ?_) (fun hor => ?_)
            · have hbit : t.pmm.used f = s.pmm.used f := by
                unfold Pmm.used
                rw [hun.frameBitmap]
              rw [ht, hclear] at hbit
              exact absurd (hset.symm.trans hbit) (by decide)
            · rcases hor with hsome | hall
              · cases hsome
              · rw [hall f hf] at hclear
                cases hclear

/-- For every page of every root that a run reaches, a failed `arch_unmap_page` leaves everything
as it was just when the tables of the page are there or no frame is free. -/
theorem arch_unmap_failed_iff (hboot : SpacesBoot s₀) (hrun : Run SpaceStep s₀ es s)
    (hr : r ∈ s.live) (hs : archUnmapPage s.toMachine r va = some (-1, t)) :
    Untouched s t ↔ (leafTable s.mem r.ttbr0Phys (pageNumber va)).isSome = true ∨
      ∀ f < s.pmm.totalFrames, s.pmm.used f = true :=
  (run_spacesInv hboot.inv hrun).unmap_failed_iff hr hs

theorem arch_unmap_failed_iff_neighbour : ∃ es s t, SpacesBoot smallSpaces ∧
    Run SpaceStep smallSpaces es s ∧ firstRoot ∈ s.live ∧
      archUnmapPage s.toMachine firstRoot 0x2000 = some (-1, t) ∧ Untouched s t := by
  have heval : ((archPagetableCreate true smallSpaces.toMachine).bind fun a =>
      (archMapPage a.2 firstRoot 0x1000 0x80000000 3).bind fun b =>
        (archUnmapPage b.2 firstRoot 0x2000).map fun c => (a.1, b.1, c.1,
          (leafTable b.2.mem firstRoot.ttbr0Phys (pageNumber 0x2000)).isSome)) =
      some (some firstRoot, 0, -1, true) := by
    decide +kernel
  obtain ⟨⟨x, m₁⟩, hcreate, hrest⟩ := Option.bind_eq_some_iff.mp heval
  obtain ⟨⟨y, m₂⟩, hmap, hrest⟩ := Option.bind_eq_some_iff.mp hrest
  obtain ⟨⟨z, m₃⟩, hunmap, hresult⟩ := Option.map_eq_some_iff.mp hrest
  simp only [Prod.mk.injEq] at hresult
  obtain ⟨rfl, rfl, rfl, hleaf⟩ := hresult
  have hstep : SpaceStep ⟨m₁, [firstRoot]⟩ (.map firstRoot 0x1000 0x80000000 3 0)
      ⟨m₂, [firstRoot]⟩ :=
    ⟨List.mem_singleton.mpr rfl, rfl, m₁.tlb, m₁.tlb, fun e he => Or.inl he,
      fun e he => Or.inl he, hmap⟩
  have hrun : Run SpaceStep smallSpaces
      [.create true (some firstRoot), .map firstRoot 0x1000 0x80000000 3 0]
      ⟨m₂, [firstRoot]⟩ :=
    .cons (u := ⟨m₁, [firstRoot]⟩) ⟨hcreate, rfl⟩ (.cons hstep (.nil _))
  have hlive : firstRoot ∈ [firstRoot] := List.mem_singleton.mpr rfl
  exact ⟨_, _, m₃, smallSpaces_boot, hrun, hlive, hunmap,
    (arch_unmap_failed_iff smallSpaces_boot hrun hlive hunmap).mpr (.inl hleaf)⟩

/-- A page that was never mapped costs three frames. -/
theorem unmap_takes_frames : ∃ s t, SpacesBoot smallSpaces ∧
    Run SpaceStep smallSpaces [.create true (some firstRoot)] s ∧ firstRoot ∈ s.live ∧
      archUnmapPage s.toMachine firstRoot 0x1000 = some (-1, t) ∧
      s.pmm.freeFrames = 7 ∧ t.pmm.freeFrames = 4 ∧ ¬ Untouched s t := by
  have heval : ((archPagetableCreate true smallSpaces.toMachine).bind fun a =>
      (archUnmapPage a.2 firstRoot 0x1000).map fun b =>
        (a.1, b.1, a.2.pmm.freeFrames, b.2.pmm.freeFrames)) =
      some (some firstRoot, -1, 7, 4) := by
    decide +kernel
  obtain ⟨⟨x, m₁⟩, hcreate, hrest⟩ := Option.bind_eq_some_iff.mp heval
  obtain ⟨⟨y, m₂⟩, hunmap, hresult⟩ := Option.map_eq_some_iff.mp hrest
  simp only [Prod.mk.injEq] at hresult
  obtain ⟨rfl, rfl, hbefore, hafter⟩ := hresult
  have hrun : Run SpaceStep smallSpaces [.create true (some firstRoot)] ⟨m₁, [firstRoot]⟩ :=
    .cons (u := ⟨m₁, [firstRoot]⟩) ⟨hcreate, rfl⟩ (.nil _)
  refine ⟨⟨m₁, [firstRoot]⟩, m₂, smallSpaces_boot, hrun, List.mem_singleton.mpr rfl,
    hunmap, hbefore, hafter, fun hun => ?_⟩
  have hcount := hun.freeFrames
  rw [hafter, hbefore] at hcount
  exact absurd hcount (by decide)

end Unmap

end Vectra.Arm64

import Vectra.Riscv.TableCount

/-!
# Frames enough for the tables

A mapping asks `pmm_alloc_frame` for each table that its walk misses. As long as there is a
clear frame for every table that is still to come, no mapping fails and none panics.
-/

namespace Vectra

open Lib

/-- The clear frames suffice for the tables that are missing of those at the ends of the
paths `need`. -/
structure TableRoom (need : Set (List (Fin 512))) (root : ℕ) (p : Pmm) (m : Bytes) : Prop where
  finite : need.Finite
  null : NoNullFrame p
  paths : pagePaths m root ⊆ need
  room : need.ncard ≤ p.clearFrames.card + (pagePaths m root).ncard

namespace TableRoom

variable {need : Set (List (Fin 512))} {slack root t va pa flags : ℕ} {p p' : Pmm}
  {m m' : Bytes} {i : Fin 512} {π : List (Fin 512)}

/-- Where each new table takes one frame, the room is kept. -/
theorem grown (h : TableRoom need root p m) (hp : PmmInv slack p) (hp' : PmmInv slack p')
    (hg : Grown p p') (hbal : Balanced root p m p' m') (hpaths : pagePaths m' root ⊆ need) :
    TableRoom need root p' m' := by
  refine ⟨h.finite, h.null.grown hg, hpaths, ?_⟩
  have hroom := h.room
  have hcount := hp.count
  have hcount' := hp'.count
  unfold Balanced at hbal
  omega

/-- A table that is needed and missing finds a clear frame. -/
theorem clear_pos (h : TableRoom need root p m) (hneed : π ∈ need)
    (hmiss : π ∉ pagePaths m root) : 0 < p.clearFrames.card := by
  have hlt : (pagePaths m root).ncard < need.ncard :=
    Set.ncard_lt_ncard ⟨h.paths, fun hsub => hmiss (hsub hneed)⟩ h.finite
  have hroom := h.room
  omega

theorem level (hroom : TableRoom need root p m) (h : PageTables slack p m root)
    (ht : pageTableAt m root π = some t) (hπ : π.length < 2) (hneed : π ++ [i] ∈ need) :
    ∃ u p' m', vmmWalkLevel p m (t + 8 * i.val) true = some (some u, p', m') ∧
      TableRoom need root p' m' := by
  obtain ⟨u, p', m', hs⟩ : ∃ u p' m',
      vmmWalkLevel p m (t + 8 * i.val) true = some (some u, p', m') := by
    by_cases heven : readLE m (t + 8 * i.val) 8 &&& pteV = 0
    · have hmiss : π ++ [i] ∉ pagePaths m root := by
        rintro ⟨_, _, hsome⟩
        have hnone : pageTableAt m root (π ++ [i]) = none := by
          rw [pageTableAt_concat, ht, Option.bind_some]
          exact if_pos heven
        change (pageTableAt m root (π ++ [i])).isSome = true at hsome
        rw [hnone] at hsome
        cases hsome
      obtain ⟨f, hf⟩ := Finset.card_pos.mp (hroom.clear_pos hneed hmiss)
      obtain ⟨hf, hclear⟩ := (p.mem_clearFrames f).mp hf
      have hnot : ¬ ∀ j < p.totalFrames, p.used j = true := by
        intro hall
        rw [hall f hf] at hclear
        cases hclear
      rcases h.pmm.allocFrame_cases with ⟨_, _, hall⟩ | ⟨_, hall⟩ | ⟨g, hg, hclear', halloc⟩
      · exact absurd hall hnot
      · exact absurd hall hnot
      · refine ⟨p.frameAddr g, takeFrame p g, writeLE (fill m (p.frameAddr g) 0#8 pageSize)
          (t + 8 * i.val) 8 (paToPtePpn (p.frameAddr g) ||| pageTableNode), ?_⟩
        unfold vmmWalkLevel
        rw [if_pos heven, if_pos rfl, halloc]
        exact if_neg (hroom.null g hg hclear')
    · exact ⟨_, p, m, if_neg heven⟩
  refine ⟨u, p', m', hs, ?_⟩
  obtain ⟨htables, hg, _⟩ := h.level ht hπ hs
  obtain ⟨hbal, hcase⟩ := h.level_paths hroom.null ht hπ hs
  refine hroom.grown h.pmm htables.pmm hg hbal ?_
  obtain ⟨_, hpaths⟩ := hcase.resolve_left fun hnone => by cases hnone.1
  rw [hpaths]
  exact Set.insert_subset hneed hroom.paths

theorem walk (hroom : TableRoom need root p m) (h : PageTables slack p m root)
    (hneed : pathsTo va ⊆ need) :
    ∃ pte p' m', vmmWalk p m root va true = some (some pte, p', m') := by
  obtain ⟨t1, p1, m1, hl2, hroom1⟩ := hroom.level h (π := []) (i := ⟨vpn2 va, (vpn_lt va).1⟩)
    rootAt_nil (by simp) (hneed (Or.inl rfl))
  obtain ⟨h1, _, _, _, hat1⟩ := h.level (π := []) rootAt_nil (by simp) hl2
  obtain ⟨t0, p2, m2, hl1, _⟩ := hroom1.level h1 (i := ⟨vpn1 va, (vpn_lt va).2.1⟩)
    (hat1 t1 rfl) (by simp) (hneed (Or.inr rfl))
  refine ⟨t0 + 8 * vpn0 va, p2, m2, ?_⟩
  simp only [vmmWalk, hl2, hl1]

/-- With room for its tables an aligned page is mapped, and the room is kept. -/
theorem mapPage (hroom : TableRoom need root p m) (h : PageTables slack p m root)
    (hneed : pathsTo va ⊆ need) (hva : va % pageSize = 0) (hpa : pa % pageSize = 0)
    (hlt : pa < 2 ^ 64) (hflags : flags < 1024) :
    ∃ p' m', vmmMapPage p m root va pa flags = some (true, p', m') ∧
      TableRoom need root p' m' := by
  obtain ⟨pte, p', m', hwalk⟩ := hroom.walk h hneed
  have hs : vmmMapPage p m root va pa flags =
      some (true, p', writeLE m' pte 8 (paToPtePpn pa ||| pteV ||| flags)) := by
    simp only [vmmMapPage, hva, hpa, hwalk, ne_eq, not_true_eq_false, or_self, if_false]
  refine ⟨p', _, hs, ?_⟩
  obtain ⟨htables, hg, _⟩ := h.mapPage hlt hflags hs
  obtain ⟨hbal, _, hnew, _⟩ := h.map_paths hroom.null hlt hflags hs
  refine hroom.grown h.pmm htables.pmm hg hbal (hnew.trans ?_)
  exact Set.union_subset hroom.paths hneed

end TableRoom

end Vectra

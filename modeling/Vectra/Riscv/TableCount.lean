import Vectra.Riscv.PageRuns
import Mathlib.Data.Set.Finite.List

/-!
# What the page tables cost

A call of `vmm_map_page` takes a frame for each table that it misses on the way to its
address, also when it fails further down. So the frames that a run of mappings has taken are
counted by the tables, and the tables by the regions of the addresses: one for each gigabyte
and one for each two megabytes that a mapping lies in.
-/

namespace Vectra

open Lib

/-- The paths to the tables below the root. -/
abbrev pagePaths (m : Bytes) (root : ℕ) : Set (List (Fin 512)) :=
  tablePaths pteTable (tableEntry m) 2 (fun _ : Unit => some root) ()

theorem vpn2_lt (va : ℕ) : vpn2 va < 512 := (vpn_lt va).1

/-- The paths to the tables that a walk to `va` passes. -/
def pathsTo (va : ℕ) : Set (List (Fin 512)) := {[⟨vpn2 va, vpn2_lt va⟩], vpnPath va}

/-- The gigabyte and the two megabytes that an address lies in, of the 39 bits that the
walk looks at. -/
def gigabyteOf (va : ℕ) : ℕ := va / 2 ^ 30 % 512

def megabytesOf (va : ℕ) : ℕ := va / 2 ^ 21 % 2 ^ 18

/-- The path to the table of a gigabyte. -/
def gigabytePath (g : ℕ) : List (Fin 512) := [⟨g % 512, Nat.mod_lt g (by norm_num)⟩]

/-- The path to the table of two megabytes. -/
def megabytesPath (k : ℕ) : List (Fin 512) :=
  [⟨k / 512 % 512, Nat.mod_lt _ (by norm_num)⟩, ⟨k % 512, Nat.mod_lt k (by norm_num)⟩]

/-- The address that a call of `vmm_map_page` maps. -/
def VmmOp.address : VmmOp → Option ℕ
  | .map va _ _ _ => some va
  | .other => none

/-- No clear frame has the address 0, which a walk takes for a failure of `pmm_alloc_frame`. -/
def NoNullFrame (p : Pmm) : Prop := ∀ f < p.totalFrames, p.used f = false → p.frameAddr f ≠ 0

/-- Each table that was added took one frame. -/
def Balanced (root : ℕ) (p : Pmm) (m : Bytes) (p' : Pmm) (m' : Bytes) : Prop :=
  p.freeFrames + (pagePaths m root).ncard = p'.freeFrames + (pagePaths m' root).ncard

theorem Balanced.trans {root : ℕ} {p₁ p₂ p₃ : Pmm} {m₁ m₂ m₃ : Bytes}
    (h : Balanced root p₁ m₁ p₂ m₂) (k : Balanced root p₂ m₂ p₃ m₃) :
    Balanced root p₁ m₁ p₃ m₃ := by
  unfold Balanced at *
  omega

theorem NoNullFrame.of_base {slack : ℕ} {p : Pmm} (hp : PmmInv slack p)
    (hbase : 0 < p.memPhysBase) : NoNullFrame p := by
  intro f hf _
  rw [hp.frameAddr_eq hf]
  omega

theorem NoNullFrame.grown {p p' : Pmm} (h : NoNullFrame p) (hg : Grown p p') :
    NoNullFrame p' := by
  intro f hf hclear
  obtain ⟨hrange, hkeep⟩ := hg
  have haddr : p'.frameAddr f = p.frameAddr f := by simp only [Pmm.frameAddr, hrange.1]
  rw [haddr]
  refine h f (by rw [← hrange.2]; exact hf) ?_
  by_contra hset
  rw [hkeep f (by simpa using hset)] at hclear
  cases hclear

theorem pagePaths_finite (m : Bytes) (root : ℕ) : (pagePaths m root).Finite :=
  (List.finite_length_le (Fin 512) 2).subset fun _ h => h.2.1

namespace PageTables

variable {slack root t va pa flags : ℕ} {p p' : Pmm} {m m' : Bytes} {i : Fin 512}
  {π : List (Fin 512)} {x : Option ℕ} {ok : Bool}

/-- What one level of an allocating walk adds to the paths. -/
theorem level_paths (h : PageTables slack p m root) (hnull : NoNullFrame p)
    (ht : pageTableAt m root π = some t) (hπ : π.length < 2)
    (hs : vmmWalkLevel p m (t + 8 * i.val) true = some (x, p', m')) :
    Balanced root p m p' m' ∧
      (x = none ∧ pagePaths m' root = pagePaths m root ∨
        x ≠ none ∧ pagePaths m' root = insert (π ++ [i]) (pagePaths m root)) := by
  unfold vmmWalkLevel at hs
  split at hs
  · rename_i heven
    rw [if_pos rfl] at hs
    cases halloc : pmmAllocFrame p with
    | none => simp [halloc] at hs
    | some r =>
        obtain ⟨a, q⟩ := r
        simp only [halloc] at hs
        rcases h.pmm.allocFrame_some halloc with ⟨rfl, rfl, _⟩ | ⟨f, hf, hclear, rfl, rfl⟩
        · rw [if_pos rfl] at hs
          cases hs
          exact ⟨rfl, Or.inl ⟨rfl, rfl⟩⟩
        · rw [if_neg (hnull f hf hclear)] at hs
          cases hs
          have hempty : pteTable (tableEntry m t i) = none := if_pos heven
          obtain ⟨hhang, _⟩ := h.hangFrame ht hπ hf hclear hempty rfl
          obtain ⟨hnew, hpaths⟩ := h.forest.tablePaths_hang hhang
          have hpaths : pagePaths _ root = insert (π ++ [i]) (pagePaths m root) := hpaths
          refine ⟨?_, Or.inr ⟨by simp, hpaths⟩⟩
          have hcard : (insert (π ++ [i]) (pagePaths m root)).ncard =
              (pagePaths m root).ncard + 1 :=
            Set.ncard_insert_of_notMem hnew (pagePaths_finite m root)
          have hcount : 0 < p.freeFrames := by
            have hclear' := PmmInv.clear_pos hf hclear
            have hsum := h.pmm.count
            omega
          have hfree : (takeFrame p f).freeFrames = p.freeFrames - 1 := rfl
          unfold Balanced
          rw [hfree, hpaths, hcard]
          omega
  · rename_i hodd
    cases hs
    -- the table is there already
    have hmem : π ++ [i] ∈ pagePaths m root := by
      refine ⟨by simp, by rw [List.length_append, List.length_singleton]; omega, ?_⟩
      change (pageTableAt m root (π ++ [i])).isSome
      have htable : pteTable (tableEntry m t i) = some (pteToPa (tableEntry m t i)) := if_neg hodd
      rw [pageTableAt_concat, ht, Option.bind_some, htable]
      rfl
    exact ⟨rfl, Or.inr ⟨by simp, (Set.insert_eq_of_mem hmem).symm⟩⟩

/-- What an allocating walk adds to the paths: some of those to its address, and all of them
where it succeeds. -/
theorem walk_paths (h : PageTables slack p m root) (hnull : NoNullFrame p)
    (hs : vmmWalk p m root va true = some (x, p', m')) :
    Balanced root p m p' m' ∧ pagePaths m root ⊆ pagePaths m' root ∧
      pagePaths m' root ⊆ pagePaths m root ∪ pathsTo va ∧
      (x ≠ none → pathsTo va ⊆ pagePaths m' root) := by
  have hroot : pageTableAt m root [] = some root := rootAt_nil
  unfold vmmWalk at hs
  cases hl2 : vmmWalkLevel p m (root + 8 * vpn2 va) true with
  | none => simp [hl2] at hs
  | some r =>
      obtain ⟨t1, p1, m1⟩ := r
      have hl2' : vmmWalkLevel p m (root + 8 * (⟨vpn2 va, (vpn_lt va).1⟩ : Fin 512).val) true =
        some (t1, p1, m1) := hl2
      obtain ⟨h1, hg1, _, _, hat1⟩ := h.level hroot (by simp) hl2'
      obtain ⟨hbal1, hcase1⟩ := h.level_paths hnull hroot (by simp) hl2'
      cases t1 with
      | none =>
          simp only [hl2, Option.some.injEq, Prod.mk.injEq] at hs
          obtain ⟨rfl, rfl, rfl⟩ := hs
          obtain ⟨_, hpaths⟩ := hcase1.resolve_right fun hne => hne.1 rfl
          rw [hpaths]
          exact ⟨hbal1, Set.Subset.refl _, Set.subset_union_left, fun hne => absurd rfl hne⟩
      | some t1 =>
          obtain ⟨_, hpaths1⟩ := hcase1.resolve_left fun heq => by cases heq.1
          simp only [hl2] at hs
          cases hl1 : vmmWalkLevel p1 m1 (t1 + 8 * vpn1 va) true with
          | none => simp [hl1] at hs
          | some r =>
              obtain ⟨t0, p2, m2⟩ := r
              have hl1' : vmmWalkLevel p1 m1
                  (t1 + 8 * (⟨vpn1 va, (vpn_lt va).2.1⟩ : Fin 512).val) true =
                    some (t0, p2, m2) := hl1
              obtain ⟨hbal2, hcase2⟩ :=
                h1.level_paths (hnull.grown hg1) (hat1 t1 rfl) (by simp) hl1'
              cases t0 with
              | none =>
                  simp only [hl1, Option.some.injEq, Prod.mk.injEq] at hs
                  obtain ⟨rfl, rfl, rfl⟩ := hs
                  obtain ⟨_, hpaths2⟩ := hcase2.resolve_right fun hne => hne.1 rfl
                  rw [hpaths2, hpaths1]
                  refine ⟨hbal1.trans hbal2, Set.subset_insert _ _, ?_, fun hne => absurd rfl hne⟩
                  rintro π (rfl | hπ)
                  · exact Or.inr (Or.inl rfl)
                  · exact Or.inl hπ
              | some t0 =>
                  simp only [hl1, Option.some.injEq, Prod.mk.injEq] at hs
                  obtain ⟨rfl, rfl, rfl⟩ := hs
                  obtain ⟨_, hpaths2⟩ := hcase2.resolve_left fun heq => by cases heq.1
                  rw [hpaths2, hpaths1]
                  refine ⟨hbal1.trans hbal2,
                    (Set.subset_insert _ _).trans (Set.subset_insert _ _), ?_, fun _ => ?_⟩
                  · rintro π (rfl | rfl | hπ)
                    · exact Or.inr (Or.inr rfl)
                    · exact Or.inr (Or.inl rfl)
                    · exact Or.inl hπ
                  · rintro π (rfl | rfl)
                    · exact Or.inr (Or.inl rfl)
                    · exact Or.inl rfl

/-- What a call of `vmm_map_page` adds to the paths. -/
theorem map_paths (h : PageTables slack p m root) (hnull : NoNullFrame p) (hpa : pa < 2 ^ 64)
    (hflags : flags < 1024) (hs : vmmMapPage p m root va pa flags = some (ok, p', m')) :
    Balanced root p m p' m' ∧ pagePaths m root ⊆ pagePaths m' root ∧
      pagePaths m' root ⊆ pagePaths m root ∪ pathsTo va ∧
      (ok = true → pathsTo va ⊆ pagePaths m' root) := by
  unfold vmmMapPage at hs
  split at hs
  · cases hs
    exact ⟨rfl, Set.Subset.refl _, Set.subset_union_left, fun hok => by cases hok⟩
  · cases hwalk : vmmWalk p m root va true with
    | none => simp [hwalk] at hs
    | some r =>
        obtain ⟨x, q, n⟩ := r
        obtain ⟨hq, _, _, _, hat⟩ := h.walk hwalk
        obtain ⟨hbal, hmono, hnew, hall⟩ := h.walk_paths hnull hwalk
        cases x with
        | none =>
            simp only [hwalk, Option.some.injEq, Prod.mk.injEq] at hs
            obtain ⟨rfl, rfl, rfl⟩ := hs
            exact ⟨hbal, hmono, hnew, fun hok => by cases hok⟩
        | some pte =>
            simp only [hwalk, Option.some.injEq, Prod.mk.injEq] at hs
            obtain ⟨rfl, rfl, rfl⟩ := hs
            obtain ⟨t, ht, rfl⟩ := hat pte rfl
            -- the leaf is on no path
            have hleaf : writeLE n (t + 8 * vpn0 va) 8 (leafEntry pa flags) =
                writeLE n (t + 8 * (vpnLast va).val) 8 (leafEntry pa flags) := rfl
            obtain ⟨_, _, _, hother⟩ := hq.leaf ht rfl (pteLeaf_leafEntry hpa hflags).1 hleaf
            have hsame : pagePaths (writeLE n (t + 8 * vpn0 va) 8 (leafEntry pa flags)) root =
                pagePaths n root := hq.forest.tablePaths_leaf ht rfl hother ()
            have hwrite : writeLE n (t + 8 * vpn0 va) 8 (paToPtePpn pa ||| pteV ||| flags) =
                writeLE n (t + 8 * vpn0 va) 8 (leafEntry pa flags) := rfl
            unfold Balanced at hbal ⊢
            rw [hwrite, hsame]
            exact ⟨hbal, hmono, hnew, fun _ => hall (by simp)⟩

end PageTables

/-! ## Runs -/

/-- The tables after a run of mappings. -/
structure TableCount (root : ℕ) (p : Pmm) (es : List VmmOp) (s : VmmState) : Prop where
  /-- Every frame that is gone is a table. -/
  frames : p.freeFrames = s.pmm.freeFrames + (pagePaths s.mem root).ncard
  /-- The way to every mapped address is there. -/
  mapped : ∀ va pa flags, .map va pa flags true ∈ es → pathsTo va ⊆ pagePaths s.mem root
  /-- Every table is on the way to an address that was to be mapped. -/
  asked : ∀ π ∈ pagePaths s.mem root, ∃ va ∈ es.filterMap VmmOp.address, π ∈ pathsTo va

section Runs

variable {slack root : ℕ} {p : Pmm} {m : Bytes} {s t : VmmState} {es : List VmmOp} {op : VmmOp}

theorem pagePaths_zeroed (hzero : ∀ i, tableEntry m root i = 0) : pagePaths m root = ∅ := by
  refine Set.eq_empty_iff_forall_notMem.mpr ?_
  rintro π ⟨hne, _, hsome⟩
  cases π with
  | nil => exact hne rfl
  | cons i π =>
      have hroot : tableAt pteTable (tableEntry m) root (i :: π) = none := by
        rw [tableAt, hzero i]
        rfl
      change (tableAt pteTable (tableEntry m) root (i :: π)).isSome = true at hsome
      rw [hroot] at hsome
      cases hsome

theorem TableCount.step (h : TableCount root p es s) (htables : PageTables slack s.pmm s.mem root)
    (hnull : NoNullFrame s.pmm) (hop : op ≠ .other) (hs : VmmStep root s op t) :
    TableCount root p (es ++ [op]) t := by
  cases op with
  | other => exact absurd rfl hop
  | map va pa flags ok =>
      obtain ⟨hpa, hflags, hcall⟩ := hs
      obtain ⟨hbal, hmono, hnew, hall⟩ := htables.map_paths hnull hpa hflags hcall
      refine ⟨h.frames.trans hbal, fun va' pa' flags' hmem => ?_, fun π hπ => ?_⟩
      · rcases List.mem_append.mp hmem with hmem | hmem
        · exact (h.mapped va' pa' flags' hmem).trans hmono
        · cases List.mem_singleton.mp hmem
          exact hall rfl
      · rw [List.filterMap_append]
        rcases hnew hπ with hold | hto
        · obtain ⟨va', hmem, hva'⟩ := h.asked π hold
          exact ⟨va', List.mem_append_left _ hmem, hva'⟩
        · exact ⟨va, List.mem_append_right _ List.mem_cons_self, hto⟩

theorem tableCount_run (htables : PageTables slack p m root) (hnull : NoNullFrame p)
    (hzero : ∀ i, tableEntry m root i = 0)
    (hrun : Run (fun s op t => op ≠ .other ∧ VmmStep root s op t) ⟨p, m⟩ es s) :
    TableCount root p es s := by
  have hstart : TableCount root p [] ⟨p, m⟩ := by
    have hpaths := pagePaths_zeroed hzero
    refine ⟨?_, fun _ _ _ hmem => absurd hmem List.not_mem_nil, fun π hπ => ?_⟩
    · simp only [hpaths, Set.ncard_empty, Nat.add_zero]
    · simp only [hpaths] at hπ
      exact hπ.elim
  refine (hrun.invariant_labels (I := fun xs u => TableCount root p xs u ∧
    (∃ slack, PageTables slack u.pmm u.mem root) ∧ NoNullFrame u.pmm) ?_
    ⟨hstart, ⟨slack, htables⟩, hnull⟩).1
  rintro xs u op v ⟨hcount, ⟨slack', hu⟩, hnull'⟩ ⟨hop, hstep⟩
  refine ⟨hcount.step hu hnull' hop hstep, hu.step hstep, ?_⟩
  cases op with
  | other => exact absurd rfl hop
  | map va pa flags ok =>
      obtain ⟨hpa, hflags, hcall⟩ := hstep
      exact hnull'.grown (hu.mapPage hpa hflags hcall).2.1

end Runs

section Regions

theorem gigabytePath_of (va : ℕ) : gigabytePath (gigabyteOf va) = [⟨vpn2 va, (vpn_lt va).1⟩] := by
  have heq : gigabyteOf va % 512 = vpn2 va := by
    unfold gigabyteOf
    rw [vpn2_eq]
    omega
  simp only [gigabytePath, heq]

theorem megabytesPath_of (va : ℕ) : megabytesPath (megabytesOf va) = vpnPath va := by
  have heq2 : megabytesOf va / 512 % 512 = vpn2 va := by
    unfold megabytesOf
    rw [vpn2_eq]
    omega
  have heq1 : megabytesOf va % 512 = vpn1 va := by
    unfold megabytesOf
    rw [vpn1_eq]
    omega
  simp only [megabytesPath, vpnPath, heq2, heq1]

theorem gigabytePath_injOn (A : Set ℕ) : Set.InjOn gigabytePath (gigabyteOf '' A) := by
  rintro _ ⟨va, _, rfl⟩ _ ⟨va', _, rfl⟩ heq
  have hfst := congrArg Fin.val (List.cons.inj heq).1
  simp only [gigabyteOf] at hfst ⊢
  omega

theorem megabytesPath_injOn (A : Set ℕ) : Set.InjOn megabytesPath (megabytesOf '' A) := by
  rintro _ ⟨va, _, rfl⟩ _ ⟨va', _, rfl⟩ heq
  have hfst := congrArg Fin.val (List.cons.inj heq).1
  have hsnd := congrArg Fin.val (List.cons.inj (List.cons.inj heq).2).1
  simp only [megabytesOf] at hfst hsnd ⊢
  omega

/-- The paths that the walks to a set of addresses pass: one for each gigabyte and one for each
two megabytes that an address lies in. -/
theorem pathsTo_ncard (A : Set ℕ) : {π | ∃ va ∈ A, π ∈ pathsTo va}.ncard =
    (gigabyteOf '' A).ncard + (megabytesOf '' A).ncard := by
  have hunion : {π | ∃ va ∈ A, π ∈ pathsTo va} =
      gigabytePath '' (gigabyteOf '' A) ∪ megabytesPath '' (megabytesOf '' A) := by
    ext π
    constructor
    · rintro ⟨va, hva, rfl | rfl⟩
      · exact Or.inl ⟨_, ⟨va, hva, rfl⟩, gigabytePath_of va⟩
      · exact Or.inr ⟨_, ⟨va, hva, rfl⟩, megabytesPath_of va⟩
    · rintro (⟨_, ⟨va, hva, rfl⟩, rfl⟩ | ⟨_, ⟨va, hva, rfl⟩, rfl⟩)
      · exact ⟨va, hva, Or.inl (gigabytePath_of va)⟩
      · exact ⟨va, hva, Or.inr (megabytesPath_of va)⟩
  have hdisj : Disjoint (gigabytePath '' (gigabyteOf '' A))
      (megabytesPath '' (megabytesOf '' A)) := by
    refine Set.disjoint_left.mpr ?_
    rintro π ⟨g, _, rfl⟩ ⟨k, _, hk⟩
    have hlen := congrArg List.length hk
    simp [gigabytePath, megabytesPath] at hlen
  have hgig : (gigabyteOf '' A).Finite := by
    refine (Set.finite_lt_nat 512).subset ?_
    rintro _ ⟨va, _, rfl⟩
    exact Nat.mod_lt _ (by norm_num)
  have hmeg : (megabytesOf '' A).Finite := by
    refine (Set.finite_lt_nat (2 ^ 18)).subset ?_
    rintro _ ⟨va, _, rfl⟩
    exact Nat.mod_lt _ (by norm_num)
  rw [hunion, Set.ncard_union_eq hdisj (hgig.image _) (hmeg.image _),
    (gigabytePath_injOn A).ncard_image, (megabytesPath_injOn A).ncard_image]

variable {root : ℕ} {p : Pmm} {s : VmmState} {es : List VmmOp}

/-- Where every call succeeds, the paths are those to the addresses. -/
theorem TableCount.paths_eq (h : TableCount root p es s)
    (hok : ∀ op ∈ es, ∃ va pa flags, op = .map va pa flags true) :
    pagePaths s.mem root = {π | ∃ va ∈ {va | va ∈ es.filterMap VmmOp.address}, π ∈ pathsTo va} := by
  refine Set.Subset.antisymm h.asked ?_
  rintro π ⟨va, hva, hto⟩
  obtain ⟨op, hop, haddr⟩ := List.mem_filterMap.mp hva
  obtain ⟨va', pa, flags, rfl⟩ := hok op hop
  cases haddr
  exact h.mapped va pa flags hop hto

theorem TableCount.card_eq (h : TableCount root p es s)
    (hok : ∀ op ∈ es, ∃ va pa flags, op = .map va pa flags true) :
    (pagePaths s.mem root).ncard =
      ((es.filterMap VmmOp.address).map gigabyteOf).toFinset.card +
        ((es.filterMap VmmOp.address).map megabytesOf).toFinset.card := by
  have hset : ∀ f : ℕ → ℕ, (f '' {va | va ∈ es.filterMap VmmOp.address}).ncard =
      ((es.filterMap VmmOp.address).map f).toFinset.card := by
    intro f
    rw [← Set.ncard_coe_finset, List.coe_toFinset]
    congr 1
    ext x
    simp only [Set.mem_image, Set.mem_ofPred_eq, List.mem_map]
  rw [h.paths_eq hok, pathsTo_ncard, hset, hset]

end Regions

/-- In every run of mappings of a page table from a zeroed root, every frame that the calls
have taken is a table on the way to an address that they were to map, no frame is lost, and
the ways to all mapped addresses are there. Where no call fails, the run has taken one frame
for each gigabyte and one for each two megabytes that some address lies in. -/
theorem vmm_table_count_run {slack root : ℕ} {p : Pmm} {m : Bytes} {es : List VmmOp}
    {s : VmmState} (hp : PmmInv slack p) (halign : p.memPhysBase % pageSize = 0)
    (hbase : 0 < p.memPhysBase) (hroot : root % pageSize = 0) (hlt : root < 2 ^ 64)
    (hout : root < p.memPhysBase ∨ p.memPhysBase + p.totalFrames * pageSize ≤ root)
    (hzero : ∀ i, tableEntry m root i = 0)
    (hrun : Run (fun s op t => op ≠ .other ∧ VmmStep root s op t) ⟨p, m⟩ es s) :
    TableCount root p es s ∧
      ((∀ op ∈ es, ∃ va pa flags, op = .map va pa flags true) →
        p.freeFrames = s.pmm.freeFrames +
          (((es.filterMap VmmOp.address).map gigabyteOf).toFinset.card +
            ((es.filterMap VmmOp.address).map megabytesOf).toFinset.card)) := by
  have htables := PageTables.of_zeroed hp halign hroot hlt hout hzero
  have hcount := tableCount_run htables (.of_base hp hbase) hzero hrun
  exact ⟨hcount, fun hok => hcount.card_eq hok ▸ hcount.frames⟩

/-- Two pages in different gigabytes take four frames. -/
theorem vmm_table_count_run_two_pages :
    ∃ s, Run (fun s op t => op ≠ .other ∧ VmmStep 0x8000 s op t)
        ⟨⟨fun _ => 0#8, 4, 4, 0x1000, 0⟩, fun _ => 0#8⟩
        [.map 0x3000 0x5000 7 true, .map 0x40003000 0x6000 3 true] s ∧ s.pmm.freeFrames = 0 := by
  have hp : PmmInv 0 ⟨fun _ => 0#8, 4, 4, 0x1000, 0⟩ := ⟨by decide, by decide, by decide, by decide⟩
  have hall : ((vmmMapPage ⟨fun _ => 0#8, 4, 4, 0x1000, 0⟩ (fun _ => 0#8)
      0x8000 0x3000 0x5000 7).bind
      fun a => (vmmMapPage a.2.1 a.2.2 0x8000 0x40003000 0x6000 3).map
        fun b => (a.1, b.1)) = some (true, true) := by decide +kernel
  obtain ⟨⟨x, q, n⟩, ha, hall⟩ := Option.bind_eq_some_iff.mp hall
  obtain ⟨⟨y, q', n'⟩, hb, hxy⟩ := Option.map_eq_some_iff.mp hall
  obtain ⟨rfl, rfl⟩ := Prod.mk.inj hxy
  have hsecond : Run (fun s op t => op ≠ .other ∧ VmmStep 0x8000 s op t) ⟨q, n⟩
      [.map 0x40003000 0x6000 3 true] ⟨q', n'⟩ :=
    .cons (u := ⟨q', n'⟩) ⟨by decide, by decide, by decide, hb⟩ (.nil _)
  have hrun : Run (fun s op t => op ≠ .other ∧ VmmStep 0x8000 s op t)
      ⟨⟨fun _ => 0#8, 4, 4, 0x1000, 0⟩, fun _ => 0#8⟩
      [.map 0x3000 0x5000 7 true, .map 0x40003000 0x6000 3 true] ⟨q', n'⟩ :=
    .cons (u := ⟨q, n⟩) ⟨by decide, by decide, by decide, ha⟩ hsecond
  have hcount := (vmm_table_count_run hp (by decide) (by decide) (by decide) (by decide)
    (by decide) (tableEntry_zeros _) hrun).2 (by simp)
  have hregions : (([0x3000, 0x40003000] : List ℕ).map gigabyteOf).toFinset.card +
      (([0x3000, 0x40003000] : List ℕ).map megabytesOf).toFinset.card = 4 := by decide
  simp only [List.filterMap_cons, List.filterMap_nil, VmmOp.address] at hcount
  have hfree : q'.freeFrames = 0 := by omega
  exact ⟨⟨q', n'⟩, hrun, hfree⟩

end Vectra

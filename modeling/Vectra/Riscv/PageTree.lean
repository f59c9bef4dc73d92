import Vectra.Mm.Tables
import Vectra.Riscv.Paging

/-!
# The tree of page tables

The tables of three levels below a root form a tree. A walk that allocates
hangs empty tables and changes no leaf; a mapping writes exactly one of them.
-/

namespace Vectra

open Lib

/-- The table that a valid entry leads to. -/
def pteTable (pte : ℕ) : Option ℕ := if pte &&& pteV = 0 then none else some (pteToPa pte)

def pteLeaf (pte : ℕ) : Option ℕ := if pte &&& pteV = 0 then none else some pte

/-- The entry that `vmm_map_page` writes. -/
def leafEntry (pa flags : ℕ) : ℕ := paToPtePpn pa ||| pteV ||| flags

/-- The bits 38..12 of an address. -/
def pageBits (va : ℕ) : ℕ := va / 4096 % 2 ^ 27

/-- The indices of the inner tables on the way to `va`. -/
def vpnPath (va : ℕ) : List (Fin 512) :=
  [⟨vpn2 va, (vpn_lt va).1⟩, ⟨vpn1 va, (vpn_lt va).2.1⟩]

def vpnLast (va : ℕ) : Fin 512 := ⟨vpn0 va, (vpn_lt va).2.2⟩

/-- The valid entry of the last level that translates `va`. -/
def vmmLeaf (p : Pmm) (m : Bytes) (pageTable va : ℕ) : Option ℕ :=
  match vmmWalk p m pageTable va false with
  | some (some pte, _, _) => pteLeaf (readLE m pte 8)
  | _ => none

/-- The tables below one root. -/
abbrev PageTables (slack : ℕ) (p : Pmm) (m : Bytes) (root : ℕ) : Prop :=
  Tables slack p m pteTable 2 fun _ : Unit => some root

/-- The table at the end of a path below one root. -/
abbrev pageTableAt (m : Bytes) (root : ℕ) (π : List (Fin 512)) : Option ℕ :=
  rootAt pteTable (tableEntry m) (fun _ : Unit => some root) () π

abbrev pageLookup (m : Bytes) (root : ℕ) (π : List (Fin 512)) (i : Fin 512) : Option ℕ :=
  lookupAt pteTable pteLeaf (tableEntry m) (fun _ : Unit => some root) () π i

/-- A valid entry holds the address of a page and its valid bit, nothing else. -/
def NodeEntry (pte : ℕ) : Prop :=
  ∀ u, pteTable pte = some u → u % pageSize = 0 ∧ u < 2 ^ 64 ∧
    pte = paToPtePpn u ||| pageTableNode

/-- The valid entries above the last level are those that a walk writes. -/
abbrev NodeTables (m : Bytes) (root : ℕ) : Prop :=
  InnerAll NodeEntry pteTable (tableEntry m) 2 fun _ : Unit => some root

/-- The tables form a tree: no table is reached in two ways. -/
def PageTree (m : Bytes) (root : ℕ) : Prop :=
  ∀ π σ : List (Fin 512), π.length ≤ 2 → σ.length ≤ 2 → ∀ u,
    tableAt pteTable (tableEntry m) root π = some u →
    tableAt pteTable (tableEntry m) root σ = some u → π = σ

section Walks

variable {p : Pmm} {m : Bytes} {root t va va' pte : ℕ} {i : Fin 512}

theorem vpn_eq_of_pageBits (h : pageBits va' = pageBits va) :
    vpnPath va' = vpnPath va ∧ vpnLast va' = vpnLast va := by
  unfold pageBits at h
  have h2 : vpn2 va' = vpn2 va := by
    rw [vpn2_eq, vpn2_eq]
    omega
  have h1 : vpn1 va' = vpn1 va := by
    rw [vpn1_eq, vpn1_eq]
    omega
  have h0 : vpn0 va' = vpn0 va := by
    rw [vpn0_eq, vpn0_eq]
    omega
  exact ⟨by simp only [vpnPath, h2, h1], by simp only [vpnLast, h0]⟩

theorem pageBits_of_vpn (hpath : vpnPath va' = vpnPath va) (hlast : vpnLast va' = vpnLast va) :
    pageBits va' = pageBits va := by
  have h2 : vpn2 va' = vpn2 va := congrArg Fin.val (List.cons.inj hpath).1
  have h1 : vpn1 va' = vpn1 va :=
    congrArg Fin.val (List.cons.inj (List.cons.inj hpath).2).1
  have h0 : vpn0 va' = vpn0 va := congrArg Fin.val hlast
  rw [vpn2_eq, vpn2_eq] at h2
  rw [vpn1_eq, vpn1_eq] at h1
  rw [vpn0_eq, vpn0_eq] at h0
  unfold pageBits
  omega

theorem pageTableAt_eq (m : Bytes) (root : ℕ) (π : List (Fin 512)) :
    pageTableAt m root π = tableAt pteTable (tableEntry m) root π := rfl

theorem pageTableAt_concat (m : Bytes) (root : ℕ) (π : List (Fin 512)) (i : Fin 512) :
    pageTableAt m root (π ++ [i]) =
      (pageTableAt m root π).bind fun u => pteTable (tableEntry m u i) :=
  rootAt_concat π i

theorem pageLookup_eq (m : Bytes) (root : ℕ) (π : List (Fin 512)) (i : Fin 512) :
    pageLookup m root π i = (pageTableAt m root π).bind fun u => pteLeaf (tableEntry m u i) := rfl

theorem pteTable_zero : pteTable 0 = none := rfl

theorem pteLeaf_eq_none : pteLeaf pte = none ↔ pteTable pte = none := by
  unfold pteLeaf pteTable
  split <;> simp

theorem vmmWalkLevel_find (p : Pmm) (m : Bytes) (t : ℕ) (i : Fin 512) :
    vmmWalkLevel p m (t + 8 * i.val) false = some (pteTable (tableEntry m t i), p, m) := by
  unfold vmmWalkLevel pteTable tableEntry
  split
  · rfl
  · rfl

/-- A walk that does not allocate follows the path of its address. -/
theorem vmmWalk_find (p : Pmm) (m : Bytes) (root va : ℕ) :
    vmmWalk p m root va false =
      some ((pageTableAt m root (vpnPath va)).map fun t => t + 8 * vpn0 va, p, m) := by
  have h2 := vmmWalkLevel_find p m root ⟨vpn2 va, (vpn_lt va).1⟩
  have hpath : pageTableAt m root (vpnPath va) =
      (pteTable (tableEntry m root ⟨vpn2 va, (vpn_lt va).1⟩)).bind fun t =>
        (pteTable (tableEntry m t ⟨vpn1 va, (vpn_lt va).2.1⟩)).bind some := rfl
  unfold vmmWalk
  rw [h2, hpath]
  cases pteTable (tableEntry m root ⟨vpn2 va, (vpn_lt va).1⟩) with
  | none => rfl
  | some t =>
      have h1 := vmmWalkLevel_find p m t ⟨vpn1 va, (vpn_lt va).2.1⟩
      simp only [h1, Option.bind_some]
      cases pteTable (tableEntry m t ⟨vpn1 va, (vpn_lt va).2.1⟩) with
      | none => rfl
      | some u => rfl

theorem vmmLeaf_eq (p : Pmm) (m : Bytes) (root va : ℕ) :
    vmmLeaf p m root va = pageLookup m root (vpnPath va) (vpnLast va) := by
  unfold vmmLeaf
  rw [vmmWalk_find, pageLookup_eq]
  cases pageTableAt m root (vpnPath va) with
  | none => rfl
  | some t => rfl

theorem vmmVirtToPhys_eq (p : Pmm) (m : Bytes) (root va : ℕ) :
    vmmVirtToPhys p m root va =
      (vmmLeaf p m root va).elim 0 fun pte => pteToPa pte ||| (va &&& 0xFFF) := by
  unfold vmmVirtToPhys vmmLeaf
  rw [vmmWalk_find]
  cases pageTableAt m root (vpnPath va) with
  | none => rfl
  | some t =>
      simp only [Option.map_some, pteLeaf]
      split
      · rfl
      · rfl

/-- A root without valid entries translates nothing. -/
theorem vmmLeaf_of_even (heven : ∀ i, tableEntry m root i % 2 = 0) (va : ℕ) :
    vmmLeaf p m root va = none := by
  have hat : pageTableAt m root (vpnPath va) = none := by
    rw [pageTableAt_eq, vpnPath, tableAt, pteTable, if_pos ((valid_iff _).mpr (heven _))]
    rfl
  rw [vmmLeaf_eq, pageLookup_eq, hat]
  rfl

/-- Addresses of one page share their leaf. -/
theorem vmmLeaf_congr (h : pageBits va' = pageBits va) :
    vmmLeaf p m root va' = vmmLeaf p m root va := by
  obtain ⟨hpath, hlast⟩ := vpn_eq_of_pageBits h
  rw [vmmLeaf_eq, vmmLeaf_eq, hpath, hlast]

/-- The entry that points to a page-aligned table. -/
theorem nodeEntry_spec {u : ℕ} (halign : u % pageSize = 0) (hlt : u < 2 ^ 64) :
    paToPtePpn u ||| pageTableNode < 2 ^ 64 ∧
      pteTable (paToPtePpn u ||| pageTableNode) = some u := by
  have hnode : pageTableNode < 1024 := by decide
  have hone : pageTableNode = 1 := rfl
  have hvalue := entry_eq hlt hnode
  unfold pteTable
  rw [if_neg (by rw [valid_iff]; omega), pteToPa_entry hlt halign hnode]
  exact ⟨by omega, rfl⟩

theorem NodeEntry.of_none (h : pteTable pte = none) : NodeEntry pte := by
  intro u hu
  rw [h] at hu
  cases hu

theorem NodeEntry.of_page {u : ℕ} (halign : u % pageSize = 0) (hlt : u < 2 ^ 64) :
    NodeEntry (paToPtePpn u ||| pageTableNode) := by
  intro v hv
  rw [(nodeEntry_spec halign hlt).2] at hv
  rw [← Option.some.inj hv]
  exact ⟨halign, hlt, rfl⟩

theorem nodeTables_of_even (heven : ∀ i, tableEntry m root i % 2 = 0) : NodeTables m root := by
  have hempty : ∀ i, pteTable (tableEntry m root i) = none :=
    fun i => if_pos ((valid_iff _).mpr (heven i))
  intro _ π u i _ hu
  have hu : tableAt pteTable (tableEntry m) root π = some u := hu
  cases π with
  | nil =>
      rw [← Option.some.inj hu]
      exact .of_none (hempty i)
  | cons j π =>
      rw [tableAt, hempty j] at hu
      cases hu

section LeafEntry

variable {flags pa : ℕ}

theorem leafEntry_eq (hpa : pa < 2 ^ 64) (hflags : flags < 1024) :
    leafEntry pa flags = pa / 4096 * 1024 + (pteV ||| flags) ∧ pteV ||| flags < 1024 ∧
      (pteV ||| flags) % 2 = 1 := by
  have hor : pteV ||| flags < 1024 := Nat.or_lt_two_pow (n := 10) (by decide) hflags
  have hodd : (pteV ||| flags) % 2 = 1 := by
    rw [show (2 : ℕ) = 2 ^ 1 from rfl, Nat.or_mod_two_pow]
    rcases Nat.mod_two_eq_zero_or_one flags with h0 | h0
    · simp [h0, pteV]
    · simp [h0, pteV]
  refine ⟨?_, hor, hodd⟩
  unfold leafEntry
  rw [Nat.or_assoc, entry_eq hpa hor]

theorem pteLeaf_leafEntry (hpa : pa < 2 ^ 64) (hflags : flags < 1024) :
    leafEntry pa flags < 2 ^ 64 ∧ pteLeaf (leafEntry pa flags) = some (leafEntry pa flags) := by
  obtain ⟨hentry, hor, hodd⟩ := leafEntry_eq hpa hflags
  refine ⟨by omega, if_neg ?_⟩
  rw [valid_iff]
  omega

/-- An address whose leaf holds `pa` is translated to its offset in that page. -/
theorem virtToPhys_of_leaf (hpa : pa < 2 ^ 64) (halign : pa % pageSize = 0) (hflags : flags < 1024)
    (hleaf : vmmLeaf p m root va = some (leafEntry pa flags)) :
    vmmVirtToPhys p m root va = pa + va % 4096 := by
  have hor := (leafEntry_eq hpa hflags).2.1
  rw [vmmVirtToPhys_eq, hleaf, Option.elim_some, leafEntry, Nat.or_assoc,
    pteToPa_entry hpa halign hor, Nat.and_two_pow_sub_one_eq_mod va 12]
  unfold pageSize at halign
  rw [show pa = 2 ^ 12 * (pa / 4096) by omega, ← Nat.two_pow_add_eq_or_of_lt (by omega)]

end LeafEntry

end Walks

namespace PageTables

variable {slack : ℕ} {p p' : Pmm} {m m' : Bytes} {root t va va' pa flags : ℕ} {i : Fin 512}
  {π : List (Fin 512)} {x : Option ℕ} {ok : Bool}

/-- A root of zeros starts a tree. -/
theorem start (hp : PmmInv slack p) (halign : p.memPhysBase % pageSize = 0)
    (hroot : root % pageSize = 0) (hlt : root < 2 ^ 64)
    (htaken : ∀ f < p.totalFrames, p.used f = false → p.frameAddr f ≠ root)
    (hzero : ∀ i, tableEntry m root i % 2 = 0) : PageTables slack p m root := by
  have hempty : ∀ i, pteTable (tableEntry m root i) = none :=
    fun i => if_pos ((valid_iff _).mpr (hzero i))
  have honly : ∀ π u, pageTableAt m root π = some u → π = [] ∧ u = root := by
    intro π u hu
    rw [pageTableAt_eq] at hu
    cases π with
    | nil => exact ⟨rfl, (Option.some.inj hu).symm⟩
    | cons j π =>
        rw [tableAt, hempty j] at hu
        cases hu
  have htable : ∀ u, IsTable pteTable (tableEntry m) 2 (fun _ : Unit => some root) u →
      u = root := by
    rintro u ⟨_, π, _, hu⟩
    exact (honly π u hu).2
  refine ⟨hp, halign, ?_, ?_, ?_⟩
  · intro _ _ π σ u _ _ hπ hσ
    exact ⟨rfl, (honly π u hπ).1.trans (honly σ u hσ).1.symm⟩
  · intro u hu
    rw [htable u hu]
    exact ⟨hroot, hlt⟩
  · intro u f hu hf hclear
    rw [htable u hu]
    exact htaken f hf hclear

theorem tree (h : PageTables slack p m root) : PageTree m root := by
  intro π σ hπ hσ u hu hu'
  rw [← pageTableAt_eq] at hu hu'
  exact (h.forest () () π σ u hπ hσ hu hu').2

/-- The ways one level of an allocating walk goes: the entry is valid, there is no frame
for it, or a zeroed frame is hung below it. -/
theorem level_cases (h : PageTables slack p m root)
    (hs : vmmWalkLevel p m (t + 8 * i.val) true = some (x, p', m')) :
    (tableEntry m t i &&& pteV ≠ 0 ∧ x = some (pteToPa (tableEntry m t i)) ∧ p' = p ∧ m' = m) ∨
      (x = none ∧ m' = m ∧ PmmInv slack p' ∧ Grown p p') ∨
      ∃ f, f < p.totalFrames ∧ p.used f = false ∧ pteTable (tableEntry m t i) = none ∧
        x = some (p.frameAddr f) ∧ p' = takeFrame p f ∧
        m' = writeLE (fill m (p.frameAddr f) 0#8 pageSize) (t + 8 * i.val) 8
          (paToPtePpn (p.frameAddr f) ||| pageTableNode) := by
  unfold vmmWalkLevel at hs
  split at hs
  · rename_i heven
    rw [if_pos rfl] at hs
    cases halloc : pmmAllocFrame p with
    | none => simp [halloc] at hs
    | some r =>
        obtain ⟨a, q⟩ := r
        simp only [halloc] at hs
        have hframe := h.pmm.allocFrame_some halloc
        split at hs
        · cases hs
          rcases hframe with ⟨_, rfl, _⟩ | ⟨f, hf, hclear, _, rfl⟩
          · exact Or.inr (Or.inl ⟨rfl, rfl, h.pmm, Grown.refl _⟩)
          · exact Or.inr (Or.inl ⟨rfl, rfl, h.pmm.takeFrame hf hclear, Grown.takeFrame p f⟩)
        · rename_i hne
          cases hs
          rcases hframe with ⟨hzero, _, _⟩ | ⟨f, hf, hclear, rfl, rfl⟩
          · exact absurd hzero hne
          · exact Or.inr (Or.inr ⟨f, hf, hclear, if_pos heven, rfl, rfl, rfl⟩)
  · rename_i hodd
    cases hs
    exact Or.inl ⟨hodd, rfl, rfl, rfl⟩

/-- The frame that a level hangs, as an operation on the forest. -/
theorem hangFrame (h : PageTables slack p m root) (ht : pageTableAt m root π = some t)
    (hπ : π.length < 2) {f : ℕ} (hf : f < p.totalFrames) (hclear : p.used f = false)
    (hfree : pteTable (tableEntry m t i) = none)
    (hm' : m' = writeLE (fill m (p.frameAddr f) 0#8 pageSize) (t + 8 * i.val) 8
      (paToPtePpn (p.frameAddr f) ||| pageTableNode)) :
    Forest.Hang pteTable (tableEntry m) (tableEntry m') 2 (fun _ : Unit => some root) () π i t
        (p.frameAddr f) ∧
      (∀ j, tableEntry m' (p.frameAddr f) j = 0) ∧ PageTables slack (takeFrame p f) m' root ∧
      (NodeTables m root → NodeTables m' root) := by
  obtain ⟨hpage, hlt⟩ := h.frame_page hf
  have hlt : p.frameAddr f < 2 ^ 64 := by
    unfold pageSize at hlt
    omega
  obtain ⟨hentry, hlink⟩ := nodeEntry_spec hpage hlt
  obtain ⟨hhang, hempty, htables⟩ := h.hang ht hπ hfree hf hclear hentry hlink pteTable_zero hm'
  have hnew : tableEntry m' t i = paToPtePpn (p.frameAddr f) ||| pageTableNode := by
    rw [hm', tableEntry_write (h.page t ⟨(), π, hπ.le, ht⟩).1 (h.page t ⟨(), π, hπ.le, ht⟩).1
      hentry, if_pos ⟨rfl, rfl⟩]
  refine ⟨hhang, hempty, htables, fun hnodes => h.forest.innerAll_hang hhang hnodes ?_ ?_⟩
  · rw [hnew]
    exact .of_page hpage hlt
  · intro j
    rw [hempty j]
    exact .of_none pteTable_zero

/-- Everything that one level of an allocating walk does. -/
theorem level (h : PageTables slack p m root) (ht : pageTableAt m root π = some t)
    (hπ : π.length < 2) (hs : vmmWalkLevel p m (t + 8 * i.val) true = some (x, p', m')) :
    PageTables slack p' m' root ∧ Grown p p' ∧
      (∀ σ j, σ.length = 2 → pageLookup m' root σ j = pageLookup m root σ j) ∧
      (NodeTables m root → NodeTables m' root) ∧
      ∀ u, x = some u → pageTableAt m' root (π ++ [i]) = some u := by
  rcases h.level_cases hs with ⟨hodd, hx, rfl, rfl⟩ | ⟨rfl, rfl, hp', hg⟩ |
    ⟨f, hf, hclear, hfree, rfl, rfl, hm'⟩
  · refine ⟨h, Grown.refl _, fun _ _ _ => rfl, id, ?_⟩
    intro u hu
    rw [pageTableAt_concat, ht, ← hu, hx]
    exact if_neg hodd
  · exact ⟨h.grown hp' hg, hg, fun _ _ _ => rfl, id, fun u hu => by cases hu⟩
  · obtain ⟨hhang, hempty, htables, hnodes⟩ := h.hangFrame ht hπ hf hclear hfree hm'
    refine ⟨htables, Grown.takeFrame p f, ?_, hnodes, ?_⟩
    · intro σ j hσ
      refine h.forest.lookupAt_hang hhang ?_ hσ
      intro k
      rw [hempty k]
      rfl
    · intro u hu
      rw [← hu]
      exact h.forest.rootAt_hang_new hhang

/-- An allocating walk changes no leaf; where it succeeds it ends at the table
of its path. -/
theorem walk (h : PageTables slack p m root) (hs : vmmWalk p m root va true = some (x, p', m')) :
    PageTables slack p' m' root ∧ Grown p p' ∧
      (∀ σ j, σ.length = 2 → pageLookup m' root σ j = pageLookup m root σ j) ∧
      (NodeTables m root → NodeTables m' root) ∧
      ∀ pte, x = some pte → ∃ t, pageTableAt m' root (vpnPath va) = some t ∧
        pte = t + 8 * vpn0 va := by
  have hroot : pageTableAt m root [] = some root := rootAt_nil
  unfold vmmWalk at hs
  cases hl2 : vmmWalkLevel p m (root + 8 * vpn2 va) true with
  | none => simp [hl2] at hs
  | some r =>
      obtain ⟨t1, p1, m1⟩ := r
      obtain ⟨h1, hg1, hsame1, hnodes1, hat1⟩ :=
        h.level (i := ⟨vpn2 va, (vpn_lt va).1⟩) hroot (by simp) hl2
      cases t1 with
      | none =>
          simp only [hl2, Option.some.injEq, Prod.mk.injEq] at hs
          obtain ⟨rfl, rfl, rfl⟩ := hs
          exact ⟨h1, hg1, hsame1, hnodes1, fun pte hpte => by cases hpte⟩
      | some t1 =>
          simp only [hl2] at hs
          cases hl1 : vmmWalkLevel p1 m1 (t1 + 8 * vpn1 va) true with
          | none => simp [hl1] at hs
          | some r =>
              obtain ⟨t0, p2, m2⟩ := r
              obtain ⟨h2, hg2, hsame2, hnodes2, hat2⟩ :=
                h1.level (i := ⟨vpn1 va, (vpn_lt va).2.1⟩) (hat1 t1 rfl) (by simp) hl1
              cases t0 with
              | none =>
                  simp only [hl1, Option.some.injEq, Prod.mk.injEq] at hs
                  obtain ⟨rfl, rfl, rfl⟩ := hs
                  exact ⟨h2, hg1.trans hg2,
                    fun σ j hσ => (hsame2 σ j hσ).trans (hsame1 σ j hσ), hnodes2 ∘ hnodes1,
                    fun pte hpte => by cases hpte⟩
              | some t0 =>
                  simp only [hl1, Option.some.injEq, Prod.mk.injEq] at hs
                  obtain ⟨rfl, rfl, rfl⟩ := hs
                  refine ⟨h2, hg1.trans hg2,
                    fun σ j hσ => (hsame2 σ j hσ).trans (hsame1 σ j hσ), hnodes2 ∘ hnodes1, ?_⟩
                  intro pte hpte
                  exact ⟨t0, hat2 t0 rfl, (Option.some.inj hpte).symm⟩

/-- What `vmm_map_page` does to the leaf of every address, whatever the flags. -/
theorem mapEntry (h : PageTables slack p m root) (hlt : leafEntry pa flags < 2 ^ 64)
    (hvalid : pteLeaf (leafEntry pa flags) = some (leafEntry pa flags))
    (hs : vmmMapPage p m root va pa flags = some (ok, p', m')) :
    PageTables slack p' m' root ∧ Grown p p' ∧
      (ok = true → va % pageSize = 0 ∧ pa % pageSize = 0) ∧
      (NodeTables m root → NodeTables m' root) ∧
      ∀ va', vmmLeaf p' m' root va' =
        if ok = true ∧ pageBits va' = pageBits va then some (leafEntry pa flags)
        else vmmLeaf p m root va' := by
  unfold vmmMapPage at hs
  split at hs
  · cases hs
    exact ⟨h, Grown.refl _, fun hok => (by cases hok), id,
      fun va' => (if_neg fun hh => (by cases hh.1)).symm⟩
  · rename_i halign
    cases hwalk : vmmWalk p m root va true with
    | none => simp [hwalk] at hs
    | some r =>
        obtain ⟨x, q, n⟩ := r
        obtain ⟨hq, hg, hsame, hnodes, hat⟩ := h.walk hwalk
        have hkeep : ∀ va', vmmLeaf q n root va' = vmmLeaf p m root va' := by
          intro va'
          rw [vmmLeaf_eq, vmmLeaf_eq, hsame _ _ rfl]
        cases x with
        | none =>
            simp only [hwalk, Option.some.injEq, Prod.mk.injEq] at hs
            obtain ⟨rfl, rfl, rfl⟩ := hs
            refine ⟨hq, hg, fun hok => (by cases hok), hnodes, fun va' => ?_⟩
            rw [if_neg (fun hh => (by cases hh.1)), hkeep]
        | some pte =>
            simp only [hwalk, Option.some.injEq, Prod.mk.injEq] at hs
            obtain ⟨rfl, rfl, rfl⟩ := hs
            obtain ⟨t, ht, rfl⟩ := hat pte rfl
            have hm' : writeLE n (t + 8 * vpn0 va) 8 (leafEntry pa flags) =
                writeLE n (t + 8 * (vpnLast va).val) 8 (leafEntry pa flags) := rfl
            obtain ⟨htables, hnew, hrow, hother⟩ := hq.leaf ht rfl hlt hm'
            refine ⟨htables, hg, fun _ => by omega,
              fun hall => hq.forest.innerAll_leaf ht rfl hother (hnodes hall), fun va' => ?_⟩
            rw [vmmLeaf_eq, ← hkeep, vmmLeaf_eq]
            by_cases hbits : pageBits va' = pageBits va
            · obtain ⟨hpath, hlast⟩ := vpn_eq_of_pageBits hbits
              rw [if_pos ⟨rfl, hbits⟩, hpath, hlast, ← hvalid]
              exact (hq.forest.lookupAt_leaf_self ht rfl hother).trans (congrArg pteLeaf hnew)
            · rw [if_neg (fun hh => hbits hh.2)]
              refine hq.forest.lookupAt_leaf ht rfl hother hrow rfl ?_
              rintro ⟨_, hpath, hlast⟩
              exact hbits (pageBits_of_vpn hpath hlast)

theorem mapPage (h : PageTables slack p m root) (hpa : pa < 2 ^ 64) (hflags : flags < 1024)
    (hs : vmmMapPage p m root va pa flags = some (ok, p', m')) :
    PageTables slack p' m' root ∧ Grown p p' ∧
      (ok = true → va % pageSize = 0 ∧ pa % pageSize = 0) ∧
      ∀ va', vmmLeaf p' m' root va' =
        if ok = true ∧ pageBits va' = pageBits va then some (leafEntry pa flags)
        else vmmLeaf p m root va' := by
  obtain ⟨hlt, hvalid⟩ := pteLeaf_leafEntry hpa hflags
  obtain ⟨htables, hg, halign, _, hleaf⟩ := h.mapEntry hlt hvalid hs
  exact ⟨htables, hg, halign, hleaf⟩

end PageTables

end Vectra

import Vectra.Riscv.PageRuns

/-!
# The Sv39 translation of the tables

The walk of the hardware, as the privileged architecture defines it, on the
tables that `vmm_map_page` builds. Where it finds a page, the software walk of
`vmm_virt_to_phys` finds the same one.
-/

namespace Vectra

open Lib

/-! ## The hardware walk -/

/-- What an entry is to the hardware. -/
inductive Sv39Entry
  | fault
  | pointer (table : ℕ)
  | leaf (ppn : ℕ)
  deriving DecidableEq

/-- The 44 bits of the page number. -/
def ptePpn (pte : ℕ) : ℕ := pte / 2 ^ 10 % 2 ^ 44

/-- Bits 0 to 3 are V, R, W and X; bits 4, 6 and 7 (U, A and D) are reserved in a
pointer, bits 54 to 63 in every entry. -/
def sv39Entry (pte : ℕ) : Sv39Entry :=
  if pte.testBit 0 = false ∨ (pte.testBit 1 = false ∧ pte.testBit 2 = true) ∨ 2 ^ 54 ≤ pte then
    .fault
  else if pte.testBit 1 = true ∨ pte.testBit 3 = true then .leaf (ptePpn pte)
  else if pte.testBit 4 = true ∨ pte.testBit 6 = true ∨ pte.testBit 7 = true then .fault
  else .pointer (ptePpn pte * 4096)

/-- The address that a leaf of the given level makes of `va`; a superpage must be aligned. -/
def sv39Page (va level ppn : ℕ) : Option ℕ :=
  if ppn % 512 ^ level ≠ 0 then none
  else some ((ppn + va / 4096 % 512 ^ level) * 4096 + va % 4096)

def sv39Walk (m : Bytes) (va : ℕ) : ℕ → ℕ → Option ℕ
  | 0, table =>
      match sv39Entry (readLE m (table + 8 * (va / 4096 % 512)) 8) with
      | .leaf ppn => sv39Page va 0 ppn
      | _ => none
  | level + 1, table =>
      match sv39Entry (readLE m (table + 8 * (va / 4096 / 512 ^ (level + 1) % 512)) 8) with
      | .fault => none
      | .pointer below => sv39Walk m va level below
      | .leaf ppn => sv39Page va (level + 1) ppn

/-- Bits 63 to 39 are copies of bit 38. -/
def Canonical (va : ℕ) : Prop := ∀ k < 64, 39 ≤ k → va.testBit k = va.testBit 38

instance (va : ℕ) : Decidable (Canonical va) := inferInstanceAs (Decidable (∀ k < 64, _))

def sv39Translate (m : Bytes) (root va : ℕ) : Option ℕ :=
  if Canonical va then sv39Walk m va 2 root else none

/-! ## Runs with any flags -/

/-- `vmm_map_page` with any 64-bit arguments, and other code that keeps off the tables. -/
def MapStep (root : ℕ) (s : VmmState) (op : VmmOp) (t : VmmState) : Prop :=
  match op with
  | .map va pa flags ok => pa < 2 ^ 64 ∧ flags < 2 ^ 64 ∧
      vmmMapPage s.pmm s.mem root va pa flags = some (ok, t.pmm, t.mem)
  | .other => OtherCode root s t

/-- The address and the flags that each page was last mapped with. -/
def recordMap (maps : ℕ → Option (ℕ × ℕ)) : VmmOp → ℕ → Option (ℕ × ℕ)
  | .map va pa flags true => fun va' =>
      if pageBits va' = pageBits va then some (pa, flags) else maps va'
  | _ => maps

def lastMap (es : List VmmOp) : ℕ → Option (ℕ × ℕ) := es.foldl recordMap fun _ => none

/-- The tables below the root on the way to `va`. -/
def pathTables (m : Bytes) (root va : ℕ) : List ℕ :=
  (pageTableAt m root ((vpnPath va).take 1)).toList ++ (pageTableAt m root (vpnPath va)).toList

/-- A mapping that the hardware takes as a page. -/
def Sv39Mapping (pa flags : ℕ) : Prop :=
  pa < 2 ^ 56 ∧ flags < 2 ^ 54 ∧ (flags.testBit 1 = true ∨ flags.testBit 3 = true) ∧
    (flags.testBit 2 = true → flags.testBit 1 = true)

section Entries

variable {pte pa flags u va : ℕ}

theorem paToPtePpn_testBit_low (pa : ℕ) {k : ℕ} (hk : k < 10) :
    (paToPtePpn pa).testBit k = false := by
  unfold paToPtePpn
  rw [Nat.testBit_mod_two_pow, Nat.testBit_shiftLeft]
  simp [Nat.not_le.mpr hk]

theorem paToPtePpn_lt (hpa : pa < 2 ^ 64) : paToPtePpn pa < 2 ^ 54 ↔ pa < 2 ^ 56 := by
  rw [paToPtePpn_eq hpa]
  omega

theorem or_lt_iff {a b n : ℕ} : a ||| b < 2 ^ n ↔ a < 2 ^ n ∧ b < 2 ^ n := by
  constructor
  · intro h
    exact ⟨Nat.left_le_or.trans_lt h, Nat.right_le_or.trans_lt h⟩
  · rintro ⟨ha, hb⟩
    exact Nat.or_lt_two_pow ha hb

/-- The low bits of a leaf are its flags and V. -/
theorem leafEntry_testBit_low {k : ℕ} (hk : k < 10) :
    (leafEntry pa flags).testBit k = (decide (k = 0) || flags.testBit k) := by
  unfold leafEntry
  rw [Nat.testBit_or, Nat.testBit_or, paToPtePpn_testBit_low pa hk, Bool.false_or,
    show pteV = 2 ^ 0 from rfl, Nat.testBit_two_pow]
  simp [eq_comm]

theorem leafEntry_lt (hpa : pa < 2 ^ 64) :
    leafEntry pa flags < 2 ^ 54 ↔ pa < 2 ^ 56 ∧ flags < 2 ^ 54 := by
  unfold leafEntry
  rw [or_lt_iff, or_lt_iff, paToPtePpn_lt hpa, and_assoc]
  simp [pteV]

/-- Whatever the flags, `vmm_map_page` writes a 64-bit entry that is valid. -/
theorem leafEntry_valid (hpa : pa < 2 ^ 64) (hflags : flags < 2 ^ 64) :
    leafEntry pa flags < 2 ^ 64 ∧ pteLeaf (leafEntry pa flags) = some (leafEntry pa flags) := by
  constructor
  · unfold leafEntry
    refine or_lt_iff.mpr ⟨or_lt_iff.mpr ⟨?_, by decide⟩, hflags⟩
    rw [paToPtePpn_eq hpa]
    omega
  · refine if_neg ?_
    rw [valid_iff]
    have hbit : (leafEntry pa flags).testBit 0 = true := by
      rw [leafEntry_testBit_low (by decide)]
      rfl
    rw [Nat.testBit_zero, decide_eq_true_eq] at hbit
    omega

theorem sv39Entry_leaf {ppn : ℕ} :
    sv39Entry pte = .leaf ppn ↔ ptePpn pte = ppn ∧ pte < 2 ^ 54 ∧ pte.testBit 0 = true ∧
      (pte.testBit 1 = true ∨ pte.testBit 3 = true) ∧
      (pte.testBit 2 = true → pte.testBit 1 = true) := by
  unfold sv39Entry
  generalize 2 ^ 54 = top
  by_cases hbig : top ≤ pte
  · simp [hbig, not_lt.mpr hbig]
  · have hsmall : pte < top := not_le.mp hbig
    cases pte.testBit 0 <;> cases pte.testBit 1 <;> cases pte.testBit 2 <;>
      cases pte.testBit 3 <;> simp [hbig, hsmall]
    all_goals split <;> simp

/-- A leaf is a page to the hardware exactly when the mapping is one. -/
theorem sv39Entry_leafEntry (hpa : pa < 2 ^ 64) {ppn : ℕ} :
    sv39Entry (leafEntry pa flags) = .leaf ppn ↔
      ptePpn (leafEntry pa flags) = ppn ∧ Sv39Mapping pa flags := by
  rw [sv39Entry_leaf, leafEntry_lt hpa, leafEntry_testBit_low (by decide : 0 < 10),
    leafEntry_testBit_low (by decide : 1 < 10), leafEntry_testBit_low (by decide : 2 < 10),
    leafEntry_testBit_low (by decide : 3 < 10)]
  unfold Sv39Mapping
  simp [and_assoc]

/-- The entry of a table that a walk hung, if the table lies where the hardware can reach it. -/
theorem sv39Entry_node (halign : u % 4096 = 0) (hlt : u < 2 ^ 64) :
    sv39Entry (paToPtePpn u ||| pageTableNode) = if u < 2 ^ 56 then .pointer u else .fault := by
  have hlow : ∀ k < 10, (paToPtePpn u ||| pageTableNode).testBit k = decide (k = 0) := by
    intro k hk
    rw [Nat.testBit_or, paToPtePpn_testBit_low u hk, Bool.false_or,
      show pageTableNode = 2 ^ 0 from rfl, Nat.testBit_two_pow]
    simp [eq_comm]
  have hvalue : paToPtePpn u ||| pageTableNode = u / 4096 * 1024 + 1 :=
    entry_eq hlt (by decide : pageTableNode < 1024)
  unfold sv39Entry
  rw [hlow 0 (by decide), hlow 1 (by decide), hlow 2 (by decide), hlow 3 (by decide),
    hlow 4 (by decide), hlow 6 (by decide), hlow 7 (by decide), hvalue]
  by_cases hhigh : u < 2 ^ 56
  · have hsmall : ¬ 2 ^ 54 ≤ u / 4096 * 1024 + 1 := by omega
    have hppn : ptePpn (u / 4096 * 1024 + 1) * 4096 = u := by
      unfold ptePpn
      omega
    rw [if_pos hhigh, hppn]
    generalize 2 ^ 54 = top at *
    simp [hsmall]
  · have hbig : 2 ^ 54 ≤ u / 4096 * 1024 + 1 := by omega
    rw [if_neg hhigh, if_pos (Or.inr (Or.inr hbig))]

/-- The leaf of a page gives the software walk and the hardware walk one address. -/
theorem sv39Page_leaf (hlt : pte < 2 ^ 54) :
    sv39Page va 0 (ptePpn pte) = some (pteToPa pte ||| (va &&& 0xFFF)) := by
  have hpage : pteToPa pte = pte / 1024 * 4096 := by
    unfold pteToPa
    rw [Nat.shiftRight_eq_div_pow, Nat.shiftLeft_eq]
    omega
  have hppn : ptePpn pte = pte / 1024 := by
    unfold ptePpn
    omega
  have hsum : pte / 1024 * 4096 ||| va % 4096 = pte / 1024 * 4096 + va % 4096 := by
    rw [Nat.mul_comm, show (4096 : ℕ) = 2 ^ 12 from rfl, Nat.two_pow_add_eq_or_of_lt (by omega)]
  unfold sv39Page
  rw [pow_zero, Nat.mod_one, Nat.mod_one, if_neg (by simp), hppn, hpage,
    Nat.and_two_pow_sub_one_eq_mod va 12, hsum, Nat.add_zero]

end Entries

/-! ## The two walks -/

section Walks

variable {m : Bytes} {root va u t : ℕ} {p : Pmm}

/-- One level of the hardware walk above the last. -/
theorem sv39Walk_node {level : ℕ} {i : Fin 512} (hi : va / 4096 / 512 ^ (level + 1) % 512 = i.val)
    (hnode : NodeEntry (tableEntry m t i)) (hu : pteTable (tableEntry m t i) = some u) :
    sv39Walk m va (level + 1) t = if u < 2 ^ 56 then sv39Walk m va level u else none := by
  obtain ⟨halign, hlt, hentry⟩ := hnode u hu
  have hread : readLE m (t + 8 * i.val) 8 = paToPtePpn u ||| pageTableNode := hentry
  rw [sv39Walk, hi, hread, sv39Entry_node halign hlt]
  by_cases hhigh : u < 2 ^ 56
  · rw [if_pos hhigh, if_pos hhigh]
  · rw [if_neg hhigh, if_neg hhigh]

/-- The hardware walk of an address whose tables all exist. -/
theorem sv39Walk_path (hnodes : NodeTables m root)
    (ht : pageTableAt m root (vpnPath va) = some t) :
    sv39Walk m va 2 root =
      if ∀ u ∈ pathTables m root va, u < 2 ^ 56 then
        match sv39Entry (tableEntry m t (vpnLast va)) with
        | .leaf ppn => sv39Page va 0 ppn
        | _ => none
      else none := by
  have hroot : pageTableAt m root [] = some root := rootAt_nil
  have hsplit := pageTableAt_concat m root [⟨vpn2 va, (vpn_lt va).1⟩] ⟨vpn1 va, (vpn_lt va).2.1⟩
  have hpath : vpnPath va = [⟨vpn2 va, (vpn_lt va).1⟩] ++ [⟨vpn1 va, (vpn_lt va).2.1⟩] := rfl
  have hfirst := pageTableAt_concat m root [] ⟨vpn2 va, (vpn_lt va).1⟩
  rw [List.nil_append, hroot, Option.bind_some] at hfirst
  rw [hpath, hsplit] at ht
  obtain ⟨u, hu, ht⟩ := Option.bind_eq_some_iff.mp ht
  have htables : pathTables m root va = [u, t] := by
    unfold pathTables
    rw [hpath, hsplit, hu, Option.bind_some, ht, List.take_append_of_le_length (by simp)]
    simp [hu]
  have hindex2 : va / 4096 / 512 ^ 2 % 512 = vpn2 va := by
    rw [vpn2_eq, Nat.div_div_eq_div_mul]
    rfl
  have hindex1 : va / 4096 / 512 ^ 1 % 512 = vpn1 va := by
    rw [vpn1_eq, Nat.div_div_eq_div_mul]
    rfl
  have hnode2 : NodeEntry (tableEntry m root ⟨vpn2 va, (vpn_lt va).1⟩) :=
    hnodes () [] root _ Nat.two_pos hroot
  have hnode1 : NodeEntry (tableEntry m u ⟨vpn1 va, (vpn_lt va).2.1⟩) :=
    hnodes () [_] u _ Nat.one_lt_two hu
  have h2 := sv39Walk_node hindex2 hnode2 (hfirst.symm.trans hu)
  have h1 := sv39Walk_node hindex1 hnode1 ht
  have h0 : va / 4096 % 512 = (vpnLast va).val := (vpn0_eq va).symm
  have hboth : (∀ x ∈ [u, t], x < 2 ^ 56) ↔ u < 2 ^ 56 ∧ t < 2 ^ 56 := by simp
  rw [h2, h1, htables]
  by_cases hhigh : u < 2 ^ 56
  · by_cases hhigh' : t < 2 ^ 56
    · rw [if_pos hhigh, if_pos hhigh', if_pos (hboth.mpr ⟨hhigh, hhigh'⟩), sv39Walk, h0]
      rfl
    · rw [if_pos hhigh, if_neg hhigh', if_neg (fun h => hhigh' (hboth.mp h).2)]
  · rw [if_neg hhigh, if_neg (fun h => hhigh (hboth.mp h).1)]

/-- The hardware translates an address with a leaf of `vmm_map_page` exactly when the address,
the tables and the leaf are those of the architecture. -/
theorem sv39Translate_leaf {pa flags x : ℕ} (hnodes : NodeTables m root)
    (ht : pageTableAt m root (vpnPath va) = some t)
    (hentry : tableEntry m t (vpnLast va) = leafEntry pa flags) (hpa : pa < 2 ^ 64) :
    sv39Translate m root va = some x ↔
      (Canonical va ∧ (∀ u ∈ pathTables m root va, u < 2 ^ 56) ∧ Sv39Mapping pa flags) ∧
        pteToPa (leafEntry pa flags) ||| (va &&& 0xFFF) = x := by
  have hwalk := sv39Walk_path hnodes ht
  rw [hentry] at hwalk
  unfold sv39Translate
  rw [hwalk]
  by_cases hcanon : Canonical va
  · by_cases hhigh : ∀ u ∈ pathTables m root va, u < 2 ^ 56
    · rw [if_pos hcanon, if_pos hhigh]
      by_cases hm : Sv39Mapping pa flags
      · rw [(sv39Entry_leafEntry hpa).mpr ⟨rfl, hm⟩]
        simp only [sv39Page_leaf ((leafEntry_lt hpa).mpr ⟨hm.1, hm.2.1⟩), Option.some.injEq]
        exact ⟨fun hx => ⟨⟨hcanon, hhigh, hm⟩, hx⟩, fun hx => hx.2⟩
      · refine ⟨fun hx => ?_, fun hx => absurd hx.1.2.2 hm⟩
        cases he : sv39Entry (leafEntry pa flags) with
        | fault =>
            rw [he] at hx
            cases hx
        | pointer u =>
            rw [he] at hx
            cases hx
        | leaf ppn => exact absurd ((sv39Entry_leafEntry hpa).mp he).2 hm
    · rw [if_pos hcanon, if_neg hhigh]
      exact ⟨fun hx => (by cases hx), fun hx => absurd hx.1.2.1 hhigh⟩
  · rw [if_neg hcanon]
    exact ⟨fun hx => (by cases hx), fun hx => absurd hx.1.1 hcanon⟩

end Walks

/-! ## The tables of a run -/

/-- The leaves are the last mappings of their pages. -/
structure MapInv (root : ℕ) (maps : ℕ → Option (ℕ × ℕ)) (s : VmmState) : Prop where
  tables : ∃ slack, PageTables slack s.pmm s.mem root
  nodes : NodeTables s.mem root
  leaf : ∀ va, vmmLeaf s.pmm s.mem root va = (maps va).map fun c => leafEntry c.1 c.2
  words : ∀ va pa flags, maps va = some (pa, flags) → pa < 2 ^ 64 ∧ flags < 2 ^ 64

namespace MapInv

variable {root : ℕ} {maps : ℕ → Option (ℕ × ℕ)} {s t : VmmState} {op : VmmOp}

theorem map {va pa flags : ℕ} {ok : Bool} (h : MapInv root maps s)
    (hs : MapStep root s (.map va pa flags ok) t) :
    MapInv root (recordMap maps (.map va pa flags ok)) t := by
  obtain ⟨hpa, hflags, hs⟩ := hs
  obtain ⟨slack, htables⟩ := h.tables
  obtain ⟨hlt, hvalid⟩ := leafEntry_valid hpa hflags
  obtain ⟨ht, _, _, hnodes, hleaf⟩ := htables.mapEntry hlt hvalid hs
  refine ⟨⟨slack, ht⟩, hnodes h.nodes, ?_, ?_⟩
  · intro va'
    rw [hleaf va', h.leaf va']
    cases ok with
    | false => simp [recordMap]
    | true =>
        by_cases hbits : pageBits va' = pageBits va
        · simp [recordMap, hbits]
        · simp [recordMap, hbits]
  · intro va' pa' flags' hmap
    cases ok with
    | false => exact h.words va' pa' flags' hmap
    | true =>
        simp only [recordMap] at hmap
        split at hmap
        · cases hmap
          exact ⟨hpa, hflags⟩
        · exact h.words va' pa' flags' hmap

/-- Other code leaves the bytes of the tables alone. -/
theorem other (h : MapInv root maps s) (hs : OtherCode root s t) : MapInv root maps t := by
  obtain ⟨slack, htables⟩ := h.tables
  have hkeep : ∀ u, IsTable pteTable (tableEntry s.mem) 2 (fun _ : Unit => some root) u →
      ∀ j, tableEntry t.mem u j = tableEntry s.mem u j := by
    intro u hu j
    obtain ⟨π, hπ, hu⟩ := PageTables.isTable_path hu
    exact tableEntry_congr fun x hlo hhi => hs.bytes π u x hπ hu hlo hhi
  have hstep : VmmStep root s .other t := hs
  refine ⟨htables.step hstep, h.nodes.keep hkeep, fun va => ?_, h.words⟩
  rw [← h.leaf va, vmmLeaf_eq, vmmLeaf_eq]
  exact lookupAt_keep hkeep (le_refl 2)

theorem step (h : MapInv root maps s) (hs : MapStep root s op t) :
    MapInv root (recordMap maps op) t := by
  cases op with
  | map va pa flags ok => exact h.map hs
  | other => exact h.other hs

/-- An address that the software walk translates was mapped, and the hardware walk agrees
with it or faults. -/
theorem translate {va : ℕ} (h : MapInv root maps s)
    (hne : vmmVirtToPhys s.pmm s.mem root va ≠ 0) :
    ∃ pa flags, maps va = some (pa, flags) ∧
      (sv39Translate s.mem root va = some (vmmVirtToPhys s.pmm s.mem root va) ↔
        Canonical va ∧ (∀ u ∈ pathTables s.mem root va, u < 2 ^ 56) ∧ Sv39Mapping pa flags) ∧
      ∀ x, sv39Translate s.mem root va = some x →
        x = vmmVirtToPhys s.pmm s.mem root va := by
  have hleaf := h.leaf va
  cases hmap : maps va with
  | none =>
      rw [hmap, Option.map_none] at hleaf
      rw [vmmVirtToPhys_eq, hleaf] at hne
      exact absurd rfl hne
  | some c =>
      obtain ⟨pa, flags⟩ := c
      obtain ⟨hpa, hflags⟩ := h.words va pa flags hmap
      rw [hmap, Option.map_some] at hleaf
      have hphys : vmmVirtToPhys s.pmm s.mem root va =
          pteToPa (leafEntry pa flags) ||| (va &&& 0xFFF) := by
        rw [vmmVirtToPhys_eq, hleaf, Option.elim_some]
      rw [vmmLeaf_eq, pageLookup_eq] at hleaf
      obtain ⟨t, ht, hentry⟩ := Option.bind_eq_some_iff.mp hleaf
      have hentry : tableEntry s.mem t (vpnLast va) = leafEntry pa flags := by
        unfold pteLeaf at hentry
        split at hentry
        · cases hentry
        · exact Option.some.inj hentry
      have hiff : ∀ x, sv39Translate s.mem root va = some x ↔ _ :=
        fun x => sv39Translate_leaf h.nodes ht hentry hpa
      rw [← hphys] at hiff
      refine ⟨pa, flags, rfl, ?_, fun x hx => ((hiff x).mp hx).2.symm⟩
      rw [hiff]
      exact ⟨fun hx => hx.1, fun hx => ⟨hx, rfl⟩⟩

end MapInv

/-- In every run of `vmm_map_page` from a zeroed root that `satp` can hold, with any flags, an
address that the software walk translates is translated by the hardware to the same address
exactly when it is canonical, its tables lie in the physical address space of the hardware, and its page was
last mapped as a page of the architecture; the hardware never finds another address. -/
theorem sv39_run {slack root : ℕ} {p : Pmm} {m : Bytes} {es : List VmmOp} {s : VmmState}
    (hp : PmmInv slack p) (halign : p.memPhysBase % pageSize = 0) (hroot : root % pageSize = 0)
    (hlt : root < 2 ^ 56)
    (hout : root < p.memPhysBase ∨ p.memPhysBase + p.totalFrames * pageSize ≤ root)
    (hzero : ∀ i, tableEntry m root i = 0) (hrun : Run (MapStep root) ⟨p, m⟩ es s) {va : ℕ}
    (hne : vmmVirtToPhys s.pmm s.mem root va ≠ 0) :
    ∃ pa flags, lastMap es va = some (pa, flags) ∧
      (sv39Translate s.mem root va = some (vmmVirtToPhys s.pmm s.mem root va) ↔
        Canonical va ∧ (∀ u ∈ pathTables s.mem root va, u < 2 ^ 56) ∧ Sv39Mapping pa flags) ∧
      ∀ x, sv39Translate s.mem root va = some x →
        x = vmmVirtToPhys s.pmm s.mem root va := by
  have hstart := PageTables.of_zeroed hp halign hroot (by omega) hout hzero
  have hinv : MapInv root (fun _ => none) ⟨p, m⟩ := by
    refine ⟨⟨slack, hstart⟩, ?_, ?_, fun va pa flags hmap => (by cases hmap)⟩
    · exact nodeTables_of_even fun i => by rw [hzero i]
    · exact vmmLeaf_of_even fun i => by rw [hzero i]
  exact (hrun.invariant_foldl (fun _ _ _ _ h hs => h.step hs) hinv).translate hne

/-- One mapping and the two translations of an address after it. -/
theorem run_map_once {root va pa flags va' x : ℕ} {y : Option ℕ} {p : Pmm} {m : Bytes}
    (hpa : pa < 2 ^ 64) (hflags : flags < 2 ^ 64)
    (h : ((vmmMapPage p m root va pa flags).map fun a =>
      (a.1, vmmVirtToPhys a.2.1 a.2.2 root va', sv39Translate a.2.2 root va')) =
        some (true, x, y)) :
    ∃ s, Run (MapStep root) ⟨p, m⟩ [.map va pa flags true] s ∧
      vmmVirtToPhys s.pmm s.mem root va' = x ∧ sv39Translate s.mem root va' = y := by
  obtain ⟨⟨ok, q, n⟩, ha, hxy⟩ := Option.map_eq_some_iff.mp h
  simp only [Prod.mk.injEq] at hxy
  obtain ⟨rfl, hx, hy⟩ := hxy
  exact ⟨⟨q, n⟩, .cons (u := ⟨q, n⟩) ⟨hpa, hflags, ha⟩ (.nil _), hx, hy⟩

theorem sv39_run_one_page :
    ∃ s pa flags, Run (MapStep 0x8000) ⟨⟨fun _ => 0#8, 4, 4, 0x1000, 0⟩, fun _ => 0#8⟩
        [.map 0x3000 0x5000 7 true] s ∧ lastMap [.map 0x3000 0x5000 7 true] 0x3008 =
          some (pa, flags) ∧
      (sv39Translate s.mem 0x8000 0x3008 = some (vmmVirtToPhys s.pmm s.mem 0x8000 0x3008) ↔
        Canonical 0x3008 ∧ (∀ u ∈ pathTables s.mem 0x8000 0x3008, u < 2 ^ 56) ∧
          Sv39Mapping pa flags) := by
  have hp : PmmInv 0 ⟨fun _ => 0#8, 4, 4, 0x1000, 0⟩ := ⟨by decide, by decide, by decide, by decide⟩
  have hmapped : ∃ s, Run (MapStep 0x8000) ⟨⟨fun _ => 0#8, 4, 4, 0x1000, 0⟩, fun _ => 0#8⟩
        [.map 0x3000 0x5000 7 true] s ∧
      vmmVirtToPhys s.pmm s.mem 0x8000 0x3008 = 0x5008 ∧
      sv39Translate s.mem 0x8000 0x3008 = some 0x5008 :=
    run_map_once (by decide) (by decide) (by decide +kernel)
  obtain ⟨s, hrun, hx, _⟩ := hmapped
  have hout : 0x8000 < 0x1000 ∨ 0x1000 + 4 * pageSize ≤ 0x8000 := by decide
  have hne : vmmVirtToPhys s.pmm s.mem 0x8000 0x3008 ≠ 0 := by
    rw [hx]
    decide
  obtain ⟨pa, flags, hlast, hiff, _⟩ := sv39_run hp (by decide) (by decide) (by decide) hout
    (tableEntry_zeros _) hrun hne
  exact ⟨s, pa, flags, hrun, hlast, hiff⟩

/-- An address with bit 39 set alone, a leaf without R, W and X, a page and a table beyond
the physical address space: the software walk translates, the hardware faults. -/
theorem sv39_run_faults :
    (∃ s, Run (MapStep 0x8000) ⟨⟨fun _ => 0#8, 4, 4, 0x1000, 0⟩, fun _ => 0#8⟩
        [.map 0x3000 0x5000 7 true] s ∧
      vmmVirtToPhys s.pmm s.mem 0x8000 (2 ^ 39 + 0x3000) = 0x5000 ∧
      sv39Translate s.mem 0x8000 (2 ^ 39 + 0x3000) = none) ∧
    (∃ s, Run (MapStep 0x8000) ⟨⟨fun _ => 0#8, 4, 4, 0x1000, 0⟩, fun _ => 0#8⟩
        [.map 0x3000 0x5000 0 true] s ∧
      vmmVirtToPhys s.pmm s.mem 0x8000 0x3000 = 0x5000 ∧
      sv39Translate s.mem 0x8000 0x3000 = none) ∧
    (∃ s, Run (MapStep 0x8000) ⟨⟨fun _ => 0#8, 4, 4, 0x1000, 0⟩, fun _ => 0#8⟩
        [.map 0x3000 (2 ^ 56) 7 true] s ∧
      vmmVirtToPhys s.pmm s.mem 0x8000 0x3000 = 2 ^ 56 ∧
      sv39Translate s.mem 0x8000 0x3000 = none) ∧
    ∃ s, Run (MapStep 0x8000) ⟨⟨fun _ => 0#8, 4, 4, 2 ^ 56, 0⟩, fun _ => 0#8⟩
        [.map 0x3000 0x5000 7 true] s ∧
      vmmVirtToPhys s.pmm s.mem 0x8000 0x3000 = 0x5000 ∧
      sv39Translate s.mem 0x8000 0x3000 = none := by
  refine ⟨?_, ?_, ?_, ?_⟩
  · exact run_map_once (by decide) (by decide) (by decide +kernel)
  · exact run_map_once (by decide) (by decide) (by decide +kernel)
  · exact run_map_once (by decide) (by decide) (by decide +kernel)
  · exact run_map_once (by decide) (by decide) (by decide +kernel)

end Vectra

import Vectra.Lib.Run
import Vectra.Riscv.PageTree

/-!
# Runs of `vmm_map_page`

Mappings of one page table, from a zeroed root on, in any order, with other
kernel code in between that keeps off the tables.
-/

namespace Vectra

open Lib

structure VmmState where
  pmm : Pmm
  mem : Bytes

inductive VmmOp
  | map (va pa flags : ℕ) (ok : Bool)
  | other
  deriving DecidableEq

/-- Other kernel code takes and releases frames and writes memory, but it does not
release or write the tables below `root`. -/
structure OtherCode (root : ℕ) (s t : VmmState) : Prop where
  pmm : ∃ slack, PmmInv slack t.pmm
  range : SameRange s.pmm t.pmm
  taken : ∀ π u f, π.length ≤ 2 → tableAt pteTable (tableEntry s.mem) root π = some u →
    f < t.pmm.totalFrames → t.pmm.used f = false → t.pmm.frameAddr f ≠ u
  bytes : ∀ π u x, π.length ≤ 2 → tableAt pteTable (tableEntry s.mem) root π = some u →
    u ≤ x → x < u + pageSize → t.mem x = s.mem x

def VmmStep (root : ℕ) (s : VmmState) (op : VmmOp) (t : VmmState) : Prop :=
  match op with
  | .map va pa flags ok => pa < 2 ^ 64 ∧ flags < 1024 ∧
      vmmMapPage s.pmm s.mem root va pa flags = some (ok, t.pmm, t.mem)
  | .other => OtherCode root s t

/-- The translation and the leaf of an address are what they were. -/
def SameTranslation (root : ℕ) (s t : VmmState) (va : ℕ) : Prop :=
  vmmVirtToPhys t.pmm t.mem root va = vmmVirtToPhys s.pmm s.mem root va ∧
    vmmLeaf t.pmm t.mem root va = vmmLeaf s.pmm s.mem root va

/-- What a call of `vmm_map_page` that returns `ok` does to the translations. -/
structure MapEffect (root va pa flags : ℕ) (ok : Bool) (s t : VmmState) : Prop where
  translates : ok = true → ∀ off < 4096, vmmVirtToPhys t.pmm t.mem root (va + off) = pa + off
  leaf : ok = true → ∃ pte, vmmLeaf t.pmm t.mem root va = some pte ∧
    pte % 1024 = pteV ||| flags ∧ pteToPa pte = pa
  others : ok = true → ∀ va', pageBits va' ≠ pageBits va → SameTranslation root s t va'
  failed : ok = false → ∀ va', SameTranslation root s t va'

namespace PageTables

variable {slack root va pa flags : ℕ} {ok : Bool} {s t : VmmState} {op : VmmOp}

theorem isTable_path {m : Bytes} {u : ℕ}
    (h : IsTable pteTable (tableEntry m) 2 (fun _ : Unit => some root) u) :
    ∃ π, π.length ≤ 2 ∧ tableAt pteTable (tableEntry m) root π = some u := by
  obtain ⟨_, π, hπ, hu⟩ := h
  exact ⟨π, hπ, hu⟩

theorem step (h : PageTables slack s.pmm s.mem root) (hs : VmmStep root s op t) :
    ∃ slack', PageTables slack' t.pmm t.mem root := by
  cases op with
  | map va pa flags ok =>
      obtain ⟨hpa, hflags, hs⟩ := hs
      exact ⟨slack, (h.mapPage hpa hflags hs).1⟩
  | other =>
      have hother : OtherCode root s t := hs
      obtain ⟨slack', hp⟩ := hother.pmm
      refine ⟨slack', h.congr hp hother.range ?_ ?_⟩
      · intro u f hu hf hclear
        obtain ⟨π, hπ, hu⟩ := isTable_path hu
        exact hother.taken π u f hπ hu hf hclear
      · intro u hu x hlo hhi
        obtain ⟨π, hπ, hu⟩ := isTable_path hu
        exact hother.bytes π u x hπ hu hlo hhi

theorem mapEffect (h : PageTables slack s.pmm s.mem root)
    (hs : VmmStep root s (.map va pa flags ok) t) :
    MapEffect root va pa flags ok s t := by
  obtain ⟨hpa, hflags, hs⟩ := hs
  obtain ⟨_, _, halign, hleaf⟩ := h.mapPage hpa hflags hs
  have hsame : ∀ va', ¬ (ok = true ∧ pageBits va' = pageBits va) →
      SameTranslation root s t va' := by
    intro va' hne
    have hkeep := hleaf va'
    rw [if_neg hne] at hkeep
    exact ⟨by rw [vmmVirtToPhys_eq, vmmVirtToPhys_eq, hkeep], hkeep⟩
  have hnew : ok = true → ∀ va', pageBits va' = pageBits va →
      vmmLeaf t.pmm t.mem root va' = some (leafEntry pa flags) := by
    intro hok va' hbits
    rw [hleaf va', if_pos ⟨hok, hbits⟩]
  obtain ⟨hentry, hor, _⟩ := leafEntry_eq hpa hflags
  refine ⟨?_, ?_, fun _ va' hne => hsame va' fun hh => hne hh.2,
    fun hok va' => hsame va' fun hh => by rw [hok] at hh; cases hh.1⟩
  · intro hok off hoff
    obtain ⟨hva, hpaAlign⟩ := halign hok
    have hva' : va % 4096 = 0 := hva
    have hbits : pageBits (va + off) = pageBits va := by
      unfold pageBits
      omega
    rw [virtToPhys_of_leaf hpa hpaAlign hflags (hnew hok _ hbits)]
    omega
  · intro hok
    refine ⟨_, hnew hok va rfl, ?_, ?_⟩
    · rw [hentry]
      omega
    · rw [leafEntry, Nat.or_assoc]
      exact pteToPa_entry hpa (halign hok).2 hor

/-- A zeroed root outside the frames starts a tree. -/
theorem of_zeroed {p : Pmm} {m : Bytes} (hp : PmmInv slack p)
    (halign : p.memPhysBase % pageSize = 0) (hroot : root % pageSize = 0) (hlt : root < 2 ^ 64)
    (hout : root < p.memPhysBase ∨ p.memPhysBase + p.totalFrames * pageSize ≤ root)
    (hzero : ∀ i, tableEntry m root i = 0) : PageTables slack p m root := by
  refine .start hp halign hroot hlt ?_ fun i => by rw [hzero i]
  intro f hf _
  rw [hp.frameAddr_eq hf]
  unfold pageSize at *
  omega

end PageTables

/-- In every run from a zeroed root the tables are a tree, and a call of
`vmm_map_page` maps one page or nothing. -/
theorem vmm_map_run {slack root : ℕ} {p : Pmm} {m : Bytes} {es : List VmmOp} {s : VmmState}
    (hp : PmmInv slack p) (halign : p.memPhysBase % pageSize = 0) (hroot : root % pageSize = 0)
    (hlt : root < 2 ^ 64)
    (hout : root < p.memPhysBase ∨ p.memPhysBase + p.totalFrames * pageSize ≤ root)
    (hzero : ∀ i, tableEntry m root i = 0) (hrun : Run (VmmStep root) ⟨p, m⟩ es s) :
    PageTree s.mem root ∧ ∀ va pa flags ok t, VmmStep root s (.map va pa flags ok) t →
      MapEffect root va pa flags ok s t ∧ PageTree t.mem root := by
  have hstart := PageTables.of_zeroed hp halign hroot hlt hout hzero
  obtain ⟨slack', hs⟩ := hrun.invariant
    (fun s _ t ⟨_, h⟩ hst => h.step hst : ∀ s op t, (∃ slack, PageTables slack s.pmm s.mem root) →
      VmmStep root s op t → ∃ slack, PageTables slack t.pmm t.mem root) ⟨slack, hstart⟩
  refine ⟨hs.tree, fun va pa flags ok t hst => ⟨hs.mapEffect hst, ?_⟩⟩
  obtain ⟨_, ht⟩ := hs.step hst
  exact ht.tree

theorem vmm_map_run_two_pages :
    ∃ s t, Run (VmmStep 0x8000) ⟨⟨fun _ => 0#8, 4, 4, 0x1000, 0⟩, fun _ => 0#8⟩
        [.map 0x3000 0x5000 7 true] s ∧ VmmStep 0x8000 s (.map 0x40003000 0x6000 3 true) t ∧
      MapEffect 0x8000 0x40003000 0x6000 3 true s t ∧ PageTree t.mem 0x8000 := by
  have hp : PmmInv 0 ⟨fun _ => 0#8, 4, 4, 0x1000, 0⟩ := ⟨by decide, by decide, by decide, by decide⟩
  have hall : ((vmmMapPage ⟨fun _ => 0#8, 4, 4, 0x1000, 0⟩ (fun _ => 0#8)
      0x8000 0x3000 0x5000 7).bind
      fun a => (vmmMapPage a.2.1 a.2.2 0x8000 0x40003000 0x6000 3).map
        fun b => (a.1, b.1)) = some (true, true) := by decide +kernel
  obtain ⟨⟨x, q, n⟩, ha, hall⟩ := Option.bind_eq_some_iff.mp hall
  obtain ⟨⟨y, q', n'⟩, hb, hxy⟩ := Option.map_eq_some_iff.mp hall
  obtain ⟨rfl, rfl⟩ := Prod.mk.inj hxy
  have hrun : Run (VmmStep 0x8000) ⟨⟨fun _ => 0#8, 4, 4, 0x1000, 0⟩, fun _ => 0#8⟩
      [.map 0x3000 0x5000 7 true] ⟨q, n⟩ :=
    .cons (u := ⟨q, n⟩) ⟨by decide, by decide, ha⟩ (.nil _)
  have hst : VmmStep 0x8000 ⟨q, n⟩ (.map 0x40003000 0x6000 3 true) ⟨q', n'⟩ :=
    ⟨by decide, by decide, hb⟩
  exact ⟨_, _, hrun, hst,
    (vmm_map_run hp (by decide) (by decide) (by decide) (by decide) (tableEntry_zeros _) hrun).2
      _ _ _ _ _ hst⟩

end Vectra

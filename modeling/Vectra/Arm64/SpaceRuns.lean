import Vectra.Arm64.Spaces

/-!
# Runs of the address spaces

The translations of a root are the finite map that its successful calls build.
The cached translations agree with it as long as no ASID is handed out while
the TLB still holds entries under it.
-/

namespace Vectra.Arm64

open Lib

/-! ## Translations as a finite map -/

section Translations

variable {s₀ s u v : Spaces} {es₀ es : List SpaceOp} {op : SpaceOp} {r : PagetableRoot}

theorem run_spacesInv (h : SpacesInv s) (hrun : Run SpaceStep s es u) : SpacesInv u :=
  hrun.invariant (fun _ _ _ h hs => (h.step hs).1) h

/-- A root that is not destroyed stays live, and its translations are folded up. -/
theorem run_walk (h : SpacesInv s) (hr : r ∈ s.live) (hrun : Run SpaceStep s es u)
    (hlive : SpaceOp.destroy r ∉ es) :
    r ∈ u.live ∧
      hwWalk u.mem r.ttbr0Phys = es.foldl (bindOp r) (hwWalk s.mem r.ttbr0Phys) := by
  induction hrun with
  | nil s => exact ⟨hr, by rw [List.foldl_nil]⟩
  | cons head tail ih =>
      rw [List.mem_cons, not_or] at hlive
      obtain ⟨ht, _, hserves⟩ := h.step head
      have hserve := hserves r hr (fun heq => hlive.1 heq.symm)
      obtain ⟨hmem, hwalk⟩ := ih ht hserve.live hlive.2
      exact ⟨hmem, by rw [hwalk, hserve.walk, List.foldl_cons]⟩

/-- From its creation on, the hardware translates the pages of a root as the finite
map to which `arch_map_page` and `arch_unmap_page` add and remove single pages. -/
theorem arch_map_run {ok : Bool} (hboot : SpacesBoot s₀) (hrun₀ : Run SpaceStep s₀ es₀ s)
    (hcreate : SpaceStep s (.create ok (some r)) u) (hrun : Run SpaceStep u es v)
    (hlive : SpaceOp.destroy r ∉ es) :
    hwWalk v.mem r.ttbr0Phys = es.foldl (bindOp r) (fun _ => none) ∧
      ∀ phys prot, phys % pageSize = 0 → phys < 2 ^ 48 →
        LeafSpec phys prot (leafDescriptor phys prot) := by
  obtain ⟨hu, _, _, hroots, _, _, hempty, _⟩ := (run_spacesInv hboot.inv hrun₀).create_some hcreate
  have hmem : r ∈ u.live := by
    rw [hroots]
    exact List.mem_cons_self
  have hwalk := (run_walk hu hmem hrun hlive).2
  rw [show hwWalk u.mem r.ttbr0Phys = fun _ => none from funext hempty] at hwalk
  exact ⟨hwalk, fun phys prot halign hlt => leafSpec halign hlt prot⟩

/-- Eight free frames, and no root yet. -/
def smallSpaces : Spaces :=
  ⟨⟨⟨fun _ => 0#8, 8, 8, 0x40000000, 0⟩, fun _ => 0#8, fun _ => false, []⟩, []⟩

def firstRoot : PagetableRoot := ⟨0x40000000, 1⟩

theorem smallSpaces_boot : SpacesBoot smallSpaces :=
  ⟨⟨0, by decide, by decide, by decide, by decide⟩, by decide, by decide, rfl⟩

/-- The first root, and a first page in it. -/
theorem smallSpaces_map : ∃ u v, SpaceStep smallSpaces (.create true (some firstRoot)) u ∧
    SpaceStep u (.map firstRoot 0x1000 0x80000000 3 0) v ∧ v.live = [firstRoot] ∧
      v.pmm.used 7 = false ∧ v.tlb = [] := by
  have heval : ((archPagetableCreate true smallSpaces.toMachine).bind fun a =>
      (archMapPage a.2 firstRoot 0x1000 0x80000000 3).map fun b =>
        (a.1, b.1, b.2.pmm.used 7, b.2.tlb)) = some (some firstRoot, 0, false, []) := by
    decide +kernel
  obtain ⟨⟨x, m₁⟩, hcreate, hrest⟩ := Option.bind_eq_some_iff.mp heval
  obtain ⟨⟨y, m₂⟩, hmap, hresult⟩ := Option.map_eq_some_iff.mp hrest
  simp only [Prod.mk.injEq] at hresult
  obtain ⟨rfl, rfl, hused, htlb⟩ := hresult
  exact ⟨⟨m₁, [firstRoot]⟩, ⟨m₂, [firstRoot]⟩, ⟨hcreate, rfl⟩,
    ⟨List.mem_singleton.mpr rfl, rfl, m₁.tlb, m₁.tlb, fun e he => Or.inl he, fun e he => Or.inl he,
      hmap⟩, rfl, hused, htlb⟩

theorem arch_map_run_one_page : ∃ u v, SpaceStep smallSpaces (.create true (some firstRoot)) u ∧
    Run SpaceStep u [.map firstRoot 0x1000 0x80000000 3 0] v ∧
      hwWalk v.mem firstRoot.ttbr0Phys 1 = some (leafDescriptor 0x80000000 3) ∧
      hwWalk v.mem firstRoot.ttbr0Phys 2 = none := by
  obtain ⟨u, v, hcreate, hmap, _⟩ := smallSpaces_map
  have hrun : Run SpaceStep u [.map firstRoot 0x1000 0x80000000 3 0] v := .cons hmap (.nil v)
  have hwalk := (arch_map_run smallSpaces_boot (.nil _) hcreate hrun (by simp)).1
  refine ⟨u, v, hcreate, hrun, ?_, ?_⟩
  · rw [hwalk]
    rfl
  · rw [hwalk]
    rfl

end Translations

/-! ## The TLB -/

/-- No cached entry of a live root disagrees with its tables. -/
def Coherent (s : Spaces) : Prop :=
  ∀ e ∈ s.tlb, ∀ r ∈ s.live, e.asid = r.asid → hwWalk s.mem r.ttbr0Phys e.page = some e.descriptor

/-- No entry is left under the ASID that a new root gets, and where a call succeeds the argument
of `tlbi` names the page whose leaf is replaced. -/
def Flushed (s : Spaces) : SpaceOp → Prop
  | .create _ (some _) => ∀ a, LowestAsid s.asidUsed a → ∀ e ∈ s.tlb, e.asid ≠ a
  | .map r va _ _ res | .unmap r va res => res = 0 →
      va / 2 ^ 48 % 2 ^ 8 = 0 ∨ hwWalk s.mem r.ttbr0Phys (pageNumber va) = none
  | _ => True

section Tlb

variable {s₀ s t : Spaces} {es : List SpaceOp} {op : SpaceOp} {r : PagetableRoot}
  {tlb : List TlbEntry} {e : TlbEntry} {va asid : ℕ}

theorem mem_tlbInvalidate :
    e ∈ tlbInvalidateVaAsid tlb va asid ↔
      e ∈ tlb ∧ ¬ (e.asid = asid ∧ e.page.val = va / 2 ^ 12 % 2 ^ 44) := by
  obtain ⟨x, hx⟩ : ∃ x, x = va / 2 ^ 12 % 2 ^ 44 := ⟨_, rfl⟩
  have hlt : x < 2 ^ 48 := by omega
  have harg : (asid <<< 48) ||| ((va >>> 12) &&& 0xFFFFFFFFFFF) = 2 ^ 48 * asid + x := by
    rw [Nat.shiftRight_eq_div_pow, show 0xFFFFFFFFFFF = 2 ^ 44 - 1 from rfl,
      Nat.and_two_pow_sub_one_eq_mod, ← hx, Nat.shiftLeft_eq, Nat.mul_comm,
      Nat.two_pow_add_eq_or_of_lt hlt]
  have hasid : (2 ^ 48 * asid + x) >>> 48 = asid := by
    rw [Nat.shiftRight_eq_div_pow]
    omega
  have hpage : (2 ^ 48 * asid + x) % 2 ^ 44 = x := by omega
  unfold tlbInvalidateVaAsid
  simp only [harg, hasid, hpage, ← hx, List.mem_filter, Bool.not_eq_true', Bool.and_eq_false_iff,
    beq_eq_false_iff_ne, not_and_or, ne_eq]

theorem Coherent.fill (h : Coherent s) (hi : SpacesInv s) (hfill : Fills s.live s.mem s.tlb tlb)
    (he : e ∈ tlb) (hr : r ∈ s.live) (hasid : e.asid = r.asid) :
    hwWalk s.mem r.ttbr0Phys e.page = some e.descriptor := by
  rcases hfill e he with hold | ⟨r', hr', hasid', hwalk⟩
  · exact h e hold r hr hasid
  · rw [hi.asidInj r hr r' hr' (hasid.symm.trans hasid')]
    exact hwalk

/-- A call that rebinds a page keeps the TLB coherent if its `tlbi` names that page. -/
theorem Coherent.calls (h : Coherent s) (hi : SpacesInv s) {d : Option ℕ} {res : ℤ}
    {tlb₁ tlb₂ : List TlbEntry} (hr : r ∈ s.live) (hlive : t.live = s.live)
    (hfill₁ : Fills s.live s.mem s.tlb tlb₁) (hfill₂ : Fills s.live t.mem tlb₁ tlb₂)
    (hbinds : Binds (liveRoot s.live) r va d (decide (res = 0)) { s.toMachine with tlb := tlb₂ }
      t.toMachine)
    (hflush : res = 0 →
      va / 2 ^ 48 % 2 ^ 8 = 0 ∨ hwWalk s.mem r.ttbr0Phys (pageNumber va) = none) :
    Coherent t := by
  intro e he r' hr' hasid
  rw [hlive] at hr'
  have hwalk := hbinds.walk r' _ (liveRoot_of_mem hr') e.page
  rw [hbinds.tlb] at he
  have he₂ : e ∈ tlb₂ := by
    split at he
    · exact (mem_tlbInvalidate.mp he).1
    · exact he
  rcases hfill₂ e he₂ with he₁ | ⟨r'', hr'', hasid'', hnew⟩
  · have hold := h.fill hi hfill₁ he₁ hr' hasid
    rw [hwalk, if_neg]
    · exact hold
    · rintro ⟨hres, rfl, hpage⟩
      rw [if_pos hres] at he
      rcases hflush (of_decide_eq_true hres) with hva | hnone
      · refine (mem_tlbInvalidate.mp he).2 ⟨hasid, ?_⟩
        have hval := congrArg Fin.val hpage
        change e.page.val = va / 4096 % 2 ^ 36 at hval
        omega
      · rw [hpage, hnone] at hold
        cases hold
  · rw [hi.asidInj r' hr' r'' hr'' (hasid.symm.trans hasid'')]
    exact hnew

theorem Coherent.step (h : Coherent s) (hi : SpacesInv s) (hflush : Flushed s op)
    (hs : SpaceStep s op t) : Coherent t := by
  cases op with
  | create ok result =>
      cases result with
      | none =>
          obtain ⟨_, _, htlb, hlive, hkeeps⟩ := hi.create_none hs
          intro e he r hr hasid
          rw [htlb] at he
          rw [hlive] at hr
          rw [(hkeeps r hr).walk]
          exact h e he r hr hasid
      | some r₀ =>
          obtain ⟨_, hlowest, htlb, hlive, _, hkeeps, _⟩ := hi.create_some hs
          intro e he r hr hasid
          rw [htlb] at he
          rw [hlive] at hr
          rcases List.mem_cons.mp hr with rfl | hr
          · exact absurd hasid (hflush _ hlowest e he)
          · rw [(hkeeps r hr).walk]
            exact h e he r hr hasid
  | map r₀ va phys prot res =>
      have hcalls : Calls (archMapPage · r₀ va phys prot) r₀ res s t := hs
      obtain ⟨_, _, _, hfill₁, hfill₂, hbinds⟩ := hi.calls
        (fun _ _ _ hu hf => archMapPage_spec hu (liveRoot_of_mem hcalls.1) hf) hcalls
      exact h.calls hi hcalls.1 hcalls.2.1 hfill₁ hfill₂ hbinds hflush
  | unmap r₀ va res =>
      have hcalls : Calls (archUnmapPage · r₀ va) r₀ res s t := hs
      obtain ⟨_, _, _, hfill₁, hfill₂, hbinds⟩ := hi.calls
        (fun _ _ _ hu hf => archUnmapPage_spec hu (liveRoot_of_mem hcalls.1) hf) hcalls
      exact h.calls hi hcalls.1 hcalls.2.1 hfill₁ hfill₂ hbinds hflush
  | destroy r₀ =>
      obtain ⟨_, heq⟩ := hs
      intro e he r hr hasid
      rw [heq] at he hr
      simp only [archPagetableDestroy, List.mem_filter] at he hr
      rw [heq]
      simp only [archPagetableDestroy]
      exact h e he r hr.1 hasid
  | hardware =>
      obtain ⟨hfill, heq⟩ := hs
      intro e he r hr hasid
      rw [heq] at hr ⊢
      exact h.fill hi hfill he hr hasid
  | other =>
      have hother : OtherCode s t := hs
      obtain ⟨_, hkeeps⟩ := hi.other hother
      intro e he r hr hasid
      rw [hother.tlb] at he
      rw [hother.live] at hr
      rw [(hkeeps r hr).walk]
      exact h e he r hr hasid

/-- The hardware may cache the first page of the first root. -/
theorem smallSpaces_fills {u v : Spaces}
    (hcreate : SpaceStep smallSpaces (.create true (some firstRoot)) u)
    (hmap : SpaceStep u (.map firstRoot 0x1000 0x80000000 3 0) v) (hlive : v.live = [firstRoot]) :
    Fills v.live v.mem v.tlb [⟨1, 1, leafDescriptor 0x80000000 3⟩] := by
  obtain ⟨hu, _, _, hroots, _⟩ := smallSpaces_boot.inv.create_some hcreate
  have hserve := (hu.step hmap).2.2 firstRoot (by rw [hroots]; exact List.mem_cons_self) nofun
  intro e he
  rw [List.mem_singleton.mp he]
  refine Or.inr ⟨firstRoot, by rw [hlive]; exact List.mem_cons_self, rfl, ?_⟩
  have hpage : pageNumber 0x1000 = 1 := by decide
  rw [hserve.walk, bindOp, if_pos ⟨rfl, rfl⟩, hpage, Function.update_self]

/-- The TLB stays coherent in every run that reuses no ASID too early. -/
theorem tlb_coherent_run (hboot : SpacesBoot s₀)
    (hrun : Run (fun s op t => Flushed s op ∧ SpaceStep s op t) s₀ es t) : Coherent t := by
  have hstart : SpacesInv s₀ ∧ Coherent s₀ := by
    refine ⟨hboot.inv, ?_⟩
    intro e _ r hr
    rw [hboot.live] at hr
    cases hr
  exact (hrun.invariant (I := fun s => SpacesInv s ∧ Coherent s)
    (fun s op t ⟨hi, h⟩ ⟨hflush, hs⟩ => ⟨(hi.step hs).1, h.step hi hflush hs⟩) hstart).2

theorem tlb_coherent_run_one_page : ∃ t, Run (fun s op t => Flushed s op ∧ SpaceStep s op t)
    smallSpaces [.create true (some firstRoot), .map firstRoot 0x1000 0x80000000 3 0, .hardware] t ∧
      t.tlb = [⟨1, 1, leafDescriptor 0x80000000 3⟩] ∧ Coherent t := by
  obtain ⟨u, v, hcreate, hmap, hlive, _⟩ := smallSpaces_map
  have hfill := smallSpaces_fills hcreate hmap hlive
  have hrun : Run (fun s op t => Flushed s op ∧ SpaceStep s op t) smallSpaces
      [.create true (some firstRoot), .map firstRoot 0x1000 0x80000000 3 0, .hardware]
      { v with tlb := [⟨1, 1, leafDescriptor 0x80000000 3⟩] } :=
    .cons ⟨fun _ _ e he => (by cases he), hcreate⟩
      (.cons ⟨fun _ => Or.inl (by decide), hmap⟩ (.cons ⟨trivial, hfill, rfl⟩ (.nil _)))
  exact ⟨_, hrun, rfl, tlb_coherent_run smallSpaces_boot hrun⟩

/-- An entry under the ASID of a new root is stale. -/
theorem create_stale (hi : SpacesInv s) {ok : Bool} (hs : SpaceStep s (.create ok (some r)) t)
    (he : e ∈ s.tlb) (hasid : LowestAsid s.asidUsed e.asid) : ¬ Coherent t := by
  obtain ⟨_, hlowest, htlb, hlive, _, _, hempty, _⟩ := hi.create_some hs
  intro hcoherent
  have hwalk := hcoherent e (by rw [htlb]; exact he) r (by rw [hlive]; exact List.mem_cons_self)
    (hasid.unique hlowest)
  rw [hempty] at hwalk
  cases hwalk

/-- A second root gets the ASID of a destroyed one, and with it the cached page. -/
theorem recycled_asid_stale : ∃ r t, SpacesBoot smallSpaces ∧ smallSpaces.tlb = [] ∧
    Run SpaceStep smallSpaces [.create true (some firstRoot),
      .map firstRoot 0x1000 0x80000000 3 0, .hardware,
        .destroy firstRoot, .create true (some r)] t ∧
      ¬ Coherent t := by
  obtain ⟨u, v, hcreate, hmap, hlive, hclear, _⟩ := smallSpaces_map
  have hfill := smallSpaces_fills hcreate hmap hlive
  obtain ⟨w, hw⟩ : ∃ w : Spaces, w = { v with tlb := [⟨1, 1, leafDescriptor 0x80000000 3⟩] } :=
    ⟨_, rfl⟩
  have hhardware : SpaceStep v .hardware w := by
    rw [hw]
    exact ⟨hfill, rfl⟩
  obtain ⟨x, hx⟩ : ∃ x : Spaces, x = ⟨archPagetableDestroy w.toMachine firstRoot,
    w.live.filter fun r' => r' ≠ firstRoot⟩ := ⟨_, rfl⟩
  have hdestroy : SpaceStep w (.destroy firstRoot) x := by
    refine ⟨?_, hx⟩
    rw [hw, hlive]
    exact List.mem_cons_self
  have hrun : Run SpaceStep smallSpaces [.create true (some firstRoot),
      .map firstRoot 0x1000 0x80000000 3 0, .hardware] w :=
    .cons hcreate (.cons hmap (.cons hhardware (.nil w)))
  obtain ⟨hinv, hrange⟩ := hrun.invariant
    (I := fun s => SpacesInv s ∧ SameRange smallSpaces.pmm s.pmm)
    (fun _ _ _ ⟨h, hrange⟩ hs => ⟨(h.step hs).1, hrange.trans (h.step hs).2.1⟩)
    ⟨smallSpaces_boot.inv, SameRange.refl _⟩
  obtain ⟨hxinv, hxrange, _, _, _, _, hused⟩ := hinv.destroy hdestroy
  have hrangeX := hrange.trans hxrange
  have hclearX : x.pmm.used 7 = false := by
    rw [hused 7 (by rw [hrange.2]; decide), hw, hclear, Bool.false_and]
  have hlowest : LowestAsid x.asidUsed 1 := by
    refine ⟨⟨le_refl 1, by decide, ?_⟩, fun _ hi => hi.1⟩
    simp only [hx, archPagetableDestroy, asidFree, firstRoot, Function.update_self]
  obtain ⟨r, t, ht, _⟩ := hxinv.create_succeeds (by rw [hrangeX.1]; decide)
    (by rw [hrangeX.2]; decide) hclearX hlowest
  refine ⟨r, t, smallSpaces_boot, rfl, hrun.append (.cons hdestroy (.cons ht (.nil t))), ?_⟩
  refine create_stale hxinv ht (e := ⟨1, 1, leafDescriptor 0x80000000 3⟩) ?_ hlowest
  rw [hx, hw]
  exact List.mem_cons_self

end Tlb

end Vectra.Arm64

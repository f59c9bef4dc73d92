import Vectra.Mm.BootFrames
import Vectra.Riscv.PageTree

/-!
# What `vmm_init` takes and writes

On RISC-V `vmm_init` runs between `mm_init` and `ob_init`. Its tables are the root, a part of
the image, and frames that it takes itself, and it writes nothing else. So the frames that
were in use before it keep what they hold.
-/

namespace Vectra

open Lib

/-- The page tables between `p₀` with `m₀` and `p` with `m`: frames are only taken, each of them
at `bound` or above, and below `bound` only the root is written. -/
structure BootTables (slack bound root : ℕ) (p₀ : Pmm) (m₀ : Bytes) (p : Pmm) (m : Bytes) :
    Prop where
  tables : PageTables slack p m root
  calls : AllocCalls p₀ p
  clear : ∀ f < p.totalFrames, p.used f = false → bound ≤ p.frameAddr f
  above : ∀ u, IsTable pteTable (tableEntry m) 2 (fun _ : Unit => some root) u →
    u = root ∨ bound ≤ u
  bytes : ∀ x < bound, x < root ∨ root + pageSize ≤ x → m x = m₀ x

namespace BootTables

variable {slack bound root t va pa flags addr stop n : ℕ} {p₀ p p' : Pmm} {m₀ m m' : Bytes}
  {i : Fin 512} {π : List (Fin 512)} {x : Option ℕ} {ok : Bool}

theorem clear_take (h : BootTables slack bound root p₀ m₀ p m) (f : ℕ) :
    ∀ g < (takeFrame p f).totalFrames, (takeFrame p f).used g = false →
      bound ≤ (takeFrame p f).frameAddr g := by
  intro g hg hclear
  rw [takeFrame_used, Bool.or_eq_false_iff] at hclear
  exact h.clear g hg hclear.2

/-- An entry of a table is written. -/
theorem write_entry (h : BootTables slack bound root p₀ m₀ p m) (ht : pageTableAt m root π = some t)
    (hπ : π.length ≤ 2) (i : Fin 512) (n : Bytes) (e : ℕ) {y : ℕ} (hy : y < bound)
    (hroot : y < root ∨ root + pageSize ≤ y) : writeLE n (t + 8 * i.val) 8 e y = n y := by
  have hi := i.isLt
  unfold pageSize at hroot
  apply writeLE_out
  rcases h.above t ⟨(), π, hπ, ht⟩ with rfl | hle
  · omega
  · omega

/-- One level of an allocating walk. -/
theorem level (h : BootTables slack bound root p₀ m₀ p m) (ht : pageTableAt m root π = some t)
    (hπ : π.length < 2) (hs : vmmWalkLevel p m (t + 8 * i.val) true = some (x, p', m')) :
    BootTables slack bound root p₀ m₀ p' m' := by
  have htables := (h.tables.level ht hπ hs).1
  unfold vmmWalkLevel at hs
  split at hs
  · rename_i heven
    rw [if_pos rfl] at hs
    cases halloc : pmmAllocFrame p with
    | none => simp [halloc] at hs
    | some r =>
        obtain ⟨a, q⟩ := r
        simp only [halloc] at hs
        have hcalls := h.calls.trans (.alloc halloc)
        rcases h.tables.pmm.allocFrame_some halloc with ⟨rfl, rfl, _⟩ | ⟨f, hf, hclear, rfl, rfl⟩
        · rw [if_pos rfl] at hs
          cases hs
          exact h
        · split at hs
          · cases hs
            exact ⟨htables, hcalls, h.clear_take f, h.above, h.bytes⟩
          · cases hs
            have hfree : pteTable (tableEntry m t i) = none := if_pos heven
            obtain ⟨hhang, _⟩ := h.tables.hangFrame ht hπ hf hclear hfree rfl
            have hframe := h.clear f hf hclear
            refine ⟨htables, hcalls, h.clear_take f, fun u hu => ?_, fun y hy hroot => ?_⟩
            · rcases (h.tables.forest.isTable_hang hhang).mp hu with hu | rfl
              · exact h.above u hu
              · exact Or.inr hframe
            · rw [h.write_entry ht hπ.le i _ _ hy hroot, fill_out (Or.inl (by omega))]
              exact h.bytes y hy hroot
  · cases hs
    exact h

theorem walk (h : BootTables slack bound root p₀ m₀ p m)
    (hs : vmmWalk p m root va true = some (x, p', m')) :
    BootTables slack bound root p₀ m₀ p' m' := by
  have hroot : pageTableAt m root [] = some root := rootAt_nil
  unfold vmmWalk at hs
  cases hl2 : vmmWalkLevel p m (root + 8 * vpn2 va) true with
  | none => simp [hl2] at hs
  | some r =>
      obtain ⟨t1, p1, m1⟩ := r
      have h1 := h.level (i := ⟨vpn2 va, (vpn_lt va).1⟩) hroot (by simp) hl2
      obtain ⟨_, _, _, _, hat1⟩ :=
        h.tables.level (i := ⟨vpn2 va, (vpn_lt va).1⟩) hroot (by simp) hl2
      cases t1 with
      | none =>
          simp only [hl2, Option.some.injEq, Prod.mk.injEq] at hs
          obtain ⟨rfl, rfl, rfl⟩ := hs
          exact h1
      | some t1 =>
          simp only [hl2] at hs
          cases hl1 : vmmWalkLevel p1 m1 (t1 + 8 * vpn1 va) true with
          | none => simp [hl1] at hs
          | some r =>
              obtain ⟨t0, p2, m2⟩ := r
              have h2 := h1.level (i := ⟨vpn1 va, (vpn_lt va).2.1⟩) (hat1 t1 rfl) (by simp) hl1
              simp only [hl1] at hs
              split at hs
              · cases hs
              · rename_i heq
                cases heq
                cases hs
                exact h2
              · rename_i heq
                cases heq
                cases hs
                exact h2

theorem mapPage (h : BootTables slack bound root p₀ m₀ p m) (hpa : pa < 2 ^ 64)
    (hflags : flags < 1024) (hs : vmmMapPage p m root va pa flags = some (ok, p', m')) :
    BootTables slack bound root p₀ m₀ p' m' := by
  have htables := (h.tables.mapPage hpa hflags hs).1
  unfold vmmMapPage at hs
  split at hs
  · cases hs
    exact h
  · cases hwalk : vmmWalk p m root va true with
    | none => simp [hwalk] at hs
    | some r =>
        obtain ⟨y, q, n⟩ := r
        have hq := h.walk hwalk
        obtain ⟨_, _, _, _, hat⟩ := h.tables.walk hwalk
        cases y with
        | none =>
            simp only [hwalk, Option.some.injEq, Prod.mk.injEq] at hs
            obtain ⟨rfl, rfl, rfl⟩ := hs
            exact hq
        | some pte =>
            simp only [hwalk, Option.some.injEq, Prod.mk.injEq] at hs
            obtain ⟨rfl, rfl, rfl⟩ := hs
            obtain ⟨t, ht, rfl⟩ := hat pte rfl
            obtain ⟨hlt, _⟩ := pteLeaf_leafEntry hpa hflags
            have hm' : writeLE n (t + 8 * vpn0 va) 8 (leafEntry pa flags) =
                writeLE n (t + 8 * (vpnLast va).val) 8 (leafEntry pa flags) := rfl
            obtain ⟨_, _, _, hother⟩ := hq.tables.leaf ht rfl hlt hm'
            refine ⟨htables, hq.calls, hq.clear, fun u hu => ?_, fun y hy hroot => ?_⟩
            · obtain ⟨r, hu⟩ := hu
              exact hq.above u ⟨r, (hq.tables.forest.reaches_leaf ht rfl hother).mp hu⟩
            · exact (hq.write_entry ht (le_refl 2) (vpnLast va) n (leafEntry pa flags) hy
                hroot).trans (hq.bytes y hy hroot)

theorem mapLoop (h : BootTables slack bound root p₀ m₀ p m) (hflags : flags < 1024)
    (haddr : addr < 2 ^ 64) (hs : mapLoop root flags stop p m addr n = .returned (p', m')) :
    BootTables slack bound root p₀ m₀ p' m' := by
  induction n generalizing p m addr with
  | zero => cases hs
  | succ n ih =>
      rcases mapLoop_cases hs with ⟨_, rfl, rfl⟩ | ⟨_, q, m₁, heq, _, hmap, hs⟩
      · exact h
      · cases heq
        exact ih (h.mapPage haddr hflags hmap) (Nat.mod_lt _ (by decide)) hs

end BootTables

/-- `vmm_init` from frames that are filled to `k`, with its root below them. -/
theorem vmmInit_filled {slack root k : ℕ} {p p' : Pmm} {m m' : Bytes} {info : BootInfo}
    (hf : FilledTo slack p k) (hbase : p.memPhysBase % pageSize = 0) (hroot : root % pageSize = 0)
    (hhi : root + pageSize ≤ p.memPhysBase + k * pageSize)
    (himage : info.kernelImageStart < 2 ^ 64) {n : ℕ}
    (hs : vmmInit info root p m n = .returned (p', m')) :
    AllocCalls p p' ∧ ∀ x < p.memPhysBase + k * pageSize, root + pageSize ≤ x → m' x = m x := by
  have hrange := hf.pmm.range
  have hle := Nat.mul_le_mul_right pageSize hf.le
  have hzero : ∀ i, tableEntry (fill m root 0#8 pageSize) root i = 0 := by
    intro i
    rw [tableEntry_fill hroot hroot, if_pos rfl]
  have hclear : ∀ f < p.totalFrames, p.used f = false →
      p.memPhysBase + k * pageSize ≤ p.frameAddr f := by
    intro f hlt hused
    rw [hf.used f hlt, decide_eq_false_iff_not] at hused
    have hkf := Nat.mul_le_mul_right pageSize (Nat.le_of_not_lt hused)
    rw [hf.pmm.frameAddr_eq hlt]
    omega
  have hstart : BootTables slack (p.memPhysBase + k * pageSize) root p m p
      (fill m root 0#8 pageSize) := by
    refine ⟨.start hf.pmm hbase hroot (by unfold pageSize at *; omega) ?_
      fun i => by rw [hzero i], .refl p, hclear, ?_, ?_⟩
    · intro f hlt hused heq
      have hge := hclear f hlt hused
      unfold pageSize at *
      omega
    · rintro u ⟨_, π, _, hu⟩
      have hu : tableAt pteTable (tableEntry (fill m root 0#8 pageSize)) root π = some u := hu
      cases π with
      | nil => exact Or.inl (Option.some.inj hu).symm
      | cons j π =>
          rw [tableAt, hzero j] at hu
          cases hu
    · intro y _ hy
      exact fill_out hy
  unfold vmmInit at hs
  obtain ⟨⟨p₁, m₁⟩, hexec, hs⟩ := Outcome.bind_eq_returned.mp hs
  obtain ⟨⟨p₂, m₂⟩, hdata, huart⟩ := Outcome.bind_eq_returned.mp hs
  have h₁ := hstart.mapLoop (by decide) himage hexec
  have h₂ := h₁.mapLoop (by decide) (alignUp_lt _ _) hdata
  have h₃ := h₂.mapLoop (by decide) (by decide) huart
  exact ⟨h₃.calls, fun x hx hge => h₃.bytes x hx (Or.inr hge)⟩

end Vectra

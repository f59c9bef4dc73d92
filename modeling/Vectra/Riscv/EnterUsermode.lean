import Vectra.Riscv.TrapVector

/-!
# `enter_usermode` of `exceptions.S` under an interrupt

A supervisor timer interrupt is taken at one instruction boundary of `enter_usermode`;
`trap_vector` runs to its `sret`, and `enter_usermode` goes on from there. The state at the
final `sret` is compared with that of the run without the interrupt.
-/

namespace Vectra

open Lib Lib.Rv64

/-! ## The program text -/

/-- `mv t0, zero` … `mv a2, zero`. -/
def clearedRegs : List Reg := [5, 6, 7, 28, 29, 30, 31, 10, 11, 12]

def enterUsermodeText : List Instr :=
  [.li 5 0x100, .csrc .sstatus 5, .csrw .sscratch 2, .csrw .sepc 10, .mv 2 11, .mv 6 12,
    .srli 6 6 12, .li 7 8, .slli 7 7 60, .or 6 6 7, .csrw .satp 6, .sfenceVma] ++
    clearedRegs.map fun r => .mv r 0

def enterUsermode : List Instr := enterUsermodeText ++ [.sret]

/-- The addresses of the instructions. -/
structure UsermodeLayout where
  addr : ℕ → Word
  inj : ∀ i < enterUsermode.length, ∀ j < enterUsermode.length, addr i = addr j → i = j

/-! ## The interrupt -/

/-- The hardware takes a trap from supervisor mode: `SPP` is set, `SPIE` is `SIE`, `SIE` is
cleared. -/
def interruptStatus (s : Word) : Word :=
  (s &&& ~~~0x22) ||| 0x100 ||| (if s.getLsbD 1 then 0x20 else 0)

/-- `sret`: `SIE` is `SPIE`, `SPIE` is set, `SPP` is cleared. -/
def sretStatus (s : Word) : Word :=
  (s &&& ~~~0x102) ||| 0x20 ||| (if s.getLsbD 5 then 0x2 else 0)

def takeInterrupt (m : Machine) (epc : Word) : Machine :=
  { (m.setCsr .sepc epc).setCsr .sstatus (interruptStatus (m.csr .sstatus)) with pc := 0 }

def resume (m : Machine) (pc : ℕ) : Machine :=
  { m.setCsr .sstatus (sretStatus (m.csr .sstatus)) with pc := pc }

/-- `enter_usermode` runs from `entry` to its `sret` in `final`. -/
structure UsermodeRun (env : Env) (entry final : Machine) : Prop where
  run : Steps enterUsermode env entry final
  at_sret : enterUsermode[final.pc]? = some .sret

/-- The run with an interrupt in front of instruction `k`. -/
inductive InterruptedRun (env : Env) (layout : UsermodeLayout) (k : ℕ) (entry final : Machine) :
    Prop
  | intro {boundary call back : Machine} {j : ℕ}
      (to_boundary : Steps enterUsermode env entry boundary)
      (at_boundary : boundary.pc = k) (enabled : (boundary.csr .sstatus).getLsbD 1 = true)
      (trap : TrapRun env (takeInterrupt boundary (layout.addr k)) call back)
      (supervisor : (back.csr .sstatus).getLsbD 8 = true) (inside : j < enterUsermode.length)
      (target : back.csr .sepc = layout.addr j) (rest : UsermodeRun env (resume back j) final)

/-- The user program that the final `sret` starts is the same. -/
structure SameAtSret (m n : Machine) : Prop where
  sepc : m.csr .sepc = n.csr .sepc
  satp : m.csr .satp = n.csr .satp
  sscratch : m.csr .sscratch = n.csr .sscratch
  spp : (m.csr .sstatus).getLsbD 8 = (n.csr .sstatus).getLsbD 8
  regs : ∀ r, m.x r = n.x r

structure InterruptTransparent (env : Env) (layout : UsermodeLayout) (k : ℕ) (entry : Machine) :
    Prop where
  returns : ∃ final, InterruptedRun env layout k entry final
  same : ∀ plain final, UsermodeRun env entry plain → InterruptedRun env layout k entry final →
    SameAtSret final plain

/-- Up to `csrw sscratch, sp` the trap vector must find 0 in `sscratch`, or the stack pointer
itself. From there on it finds the stack pointer, and leaves 0 in its place. -/
def SafeBoundary (layout : UsermodeLayout) (k : ℕ) (entry : Machine) : Prop :=
  if k ≤ 2 then entry.csr .sscratch = 0 ∨ entry.csr .sscratch = entry.x 2
  else entry.x 2 = 0 ∧ (k = 3 ∨ layout.addr k = entry.x 10)

/-! ## The runs -/

variable {env : Env} {layout : UsermodeLayout} {k : ℕ} {entry m n : Machine}

theorem enterUsermodeText_straight : ∀ i ∈ enterUsermodeText, i.straight = true := by decide

theorem drop_straight (k : ℕ) : ∀ i ∈ enterUsermodeText.drop k, i.straight = true :=
  fun i hi => enterUsermodeText_straight i (List.mem_of_mem_drop hi)

theorem enterUsermode_drop (hk : k ≤ enterUsermodeText.length) :
    enterUsermode.drop k = enterUsermodeText.drop k ++ [.sret] :=
  List.drop_append_of_le_length hk

/-- From instruction `k` on, the run comes to the `sret`. -/
theorem usermodeRun_line (env : Env) (hk : k ≤ enterUsermodeText.length) (hpc : m.pc = k) :
    UsermodeRun env m (line env m (enterUsermodeText.drop k)) where
  run := steps_line (by rw [hpc, enterUsermode_drop hk]) (drop_straight k)
  at_sret := by
    have hend : (line env m (enterUsermodeText.drop k)).pc = enterUsermodeText.length := by
      rw [line_pc, hpc, List.length_drop]
      omega
    rw [hend]
    rfl

theorem UsermodeRun.eq (h : UsermodeRun env m n) (hk : k ≤ enterUsermodeText.length)
    (hpc : m.pc = k) : n = line env m (enterUsermodeText.drop k) :=
  Steps.unique_of_stopped h.run (usermodeRun_line env hk hpc).run (step_sret h.at_sret)
    (step_sret (usermodeRun_line env hk hpc).at_sret)

/-- The state in front of instruction `k`. -/
def atBoundary (env : Env) (k : ℕ) (entry : Machine) : Machine :=
  line env entry (enterUsermodeText.take k)

theorem atBoundary_pc (hpc : entry.pc = 0) (hk : k ≤ enterUsermodeText.length) :
    (atBoundary env k entry).pc = k := by
  unfold atBoundary
  rw [line_pc, hpc, List.length_take]
  omega

theorem steps_atBoundary (hpc : entry.pc = 0) :
    Steps enterUsermode env entry (atBoundary env k entry) := by
  apply steps_line (k := enterUsermodeText.drop k ++ [.sret])
  · rw [hpc, ← List.append_assoc, List.take_append_drop]
    rfl
  · exact fun i hi => enterUsermodeText_straight i (List.mem_of_mem_take hi)

theorem eq_atBoundary (hpc : entry.pc = 0) (h : Steps enterUsermode env entry m) (hm : m.pc = k) :
    m = atBoundary env k entry := by
  obtain ⟨j, hj, hline, _⟩ := h.in_line (by rw [hpc]; rfl) enterUsermodeText_straight
  have hjk : j = k := by
    rw [← hm, hline, line_pc, hpc, List.length_take]
    omega
  rw [hline, hjk]
  rfl

theorem line_atBoundary (env : Env) (k : ℕ) (entry : Machine) :
    line env (atBoundary env k entry) (enterUsermodeText.drop k) =
      line env entry enterUsermodeText := by
  unfold atBoundary
  rw [← line_append, List.take_append_drop]

/-- What the trap vector brings back from an interrupt at a boundary. -/
structure Back (env : Env) (layout : UsermodeLayout) (k : ℕ) (boundary back : Machine) : Prop where
  trap : ∃ call, TrapRun env (takeInterrupt boundary (layout.addr k)) call back
  sepc : back.csr .sepc = layout.addr k
  sstatus : back.csr .sstatus = interruptStatus (boundary.csr .sstatus)

theorem Back.unique {back : Machine} {boundary call : Machine} (h : Back env layout k boundary back)
    (hrun : TrapRun env (takeInterrupt boundary (layout.addr k)) call n) : n = back := by
  obtain ⟨call', hrun'⟩ := h.trap
  exact Steps.unique_of_stopped (hrun.to_call.trans hrun.to_sret)
    (hrun'.to_call.trans hrun'.to_sret) (step_sret hrun.at_sret) (step_sret hrun'.at_sret)

/-- With a known result of the trap `InterruptTransparent` compares two straight lines: from the
boundary on, with what the trap brings back and with what was there. -/
theorem interruptTransparent_iff {back : Machine} (hpc : entry.pc = 0)
    (hsie : ((atBoundary env k entry).csr .sstatus).getLsbD 1 = true)
    (hk : k < enterUsermode.length) (hback : Back env layout k (atBoundary env k entry) back) :
    InterruptTransparent env layout k entry ↔
      SameAtSret (line env (resume back k) (enterUsermodeText.drop k))
        (line env (atBoundary env k entry) (enterUsermodeText.drop k)) := by
  have hk' : k ≤ enterUsermodeText.length := Nat.lt_succ_iff.mp hk
  have hrun := usermodeRun_line env hk' (rfl : (resume back k).pc = k)
  have hspp : (back.csr .sstatus).getLsbD 8 = true := by
    rw [hback.sstatus]
    unfold interruptStatus
    split <;> simp
  obtain ⟨call, htrap⟩ := hback.trap
  have hint : InterruptedRun env layout k entry _ :=
    .intro (steps_atBoundary hpc) (atBoundary_pc hpc hk') hsie htrap hspp hk hback.sepc hrun
  rw [line_atBoundary]
  constructor
  · intro h
    exact h.same _ _ (usermodeRun_line env (Nat.zero_le _) hpc) hint
  · intro h
    refine ⟨⟨_, hint⟩, ?_⟩
    rintro plain final hplain ⟨hto, hat, _, htrap', _, hinside, htarget, hrest⟩
    rw [eq_atBoundary hpc hto hat] at htrap'
    rw [hback.unique htrap'] at htarget hrest
    have hjk := layout.inj _ hinside _ hk (htarget.symm.trans hback.sepc)
    subst hjk
    rw [hplain.eq (Nat.zero_le _) hpc, hrest.eq hk' rfl]
    exact h

/-! ## The control registers at a boundary -/

/-- A control register that is not written from instruction `j` on. -/
theorem atBoundary_csr {c : Csr} {j : ℕ} (hjk : j ≤ k)
    (hne : ∀ i ∈ enterUsermodeText.drop j, i.csrDest ≠ some c) :
    (atBoundary env k entry).csr c = (atBoundary env j entry).csr c := by
  obtain ⟨d, rfl⟩ := Nat.exists_eq_add_of_le hjk
  unfold atBoundary
  rw [List.take_add, line_append]
  exact line_csr_of_ne fun i hi => hne i (List.mem_of_mem_take hi)

theorem rest_csr {c : Csr} {j : ℕ} (hjk : j ≤ k)
    (hne : ∀ i ∈ enterUsermodeText.drop j, i.csrDest ≠ some c) :
    (line env m (enterUsermodeText.drop k)).csr c = m.csr c := by
  obtain ⟨d, rfl⟩ := Nat.exists_eq_add_of_le hjk
  rw [← List.drop_drop]
  exact line_csr_of_ne fun i hi => hne i (List.mem_of_mem_drop hi)

theorem sscratch_before (hk : k ≤ 2) :
    (atBoundary env k entry).csr .sscratch = entry.csr .sscratch := by
  interval_cases k <;> rfl

theorem sp_before (hk : k ≤ 2) : (atBoundary env k entry).x 2 = entry.x 2 := by
  interval_cases k <;> rfl

theorem sscratch_after (hk : 3 ≤ k) : (atBoundary env k entry).csr .sscratch = entry.x 2 :=
  (atBoundary_csr hk (by decide)).trans rfl

theorem sepc_after (hk : 4 ≤ k) : (atBoundary env k entry).csr .sepc = entry.x 10 :=
  (atBoundary_csr hk (by decide)).trans rfl

theorem sstatus_after (hk : 2 ≤ k) :
    (atBoundary env k entry).csr .sstatus = entry.csr .sstatus &&& ~~~0x100 :=
  (atBoundary_csr hk (by decide)).trans rfl

/-- The interrupt is enabled at every boundary. -/
theorem atBoundary_sie (env : Env) (k : ℕ) (hsie : (entry.csr .sstatus).getLsbD 1 = true) :
    ((atBoundary env k entry).csr .sstatus).getLsbD 1 = true := by
  by_cases hk : 2 ≤ k
  · rw [sstatus_after hk]
    simpa using hsie
  · have hlt : k < 2 := Nat.lt_of_not_le hk
    interval_cases k <;> exact hsie

/-- `csrc sstatus, t0` clears `SPP`, and nothing sets it again. -/
theorem rest_spp (h5 : k = 1 → m.x 5 = 0x100)
    (hspp : 2 ≤ k → (m.csr .sstatus).getLsbD 8 = false) :
    ((line env m (enterUsermodeText.drop k)).csr .sstatus).getLsbD 8 = false := by
  by_cases hk : 2 ≤ k
  · rw [rest_csr hk (by decide)]
    exact hspp hk
  · have hlt : k < 2 := Nat.lt_of_not_le hk
    interval_cases k
    · have hvalue : (line env m (enterUsermodeText.drop 0)).csr .sstatus =
          m.csr .sstatus &&& ~~~0x100 := rfl
      rw [hvalue]
      simp
    · have hvalue : (line env m (enterUsermodeText.drop 1)).csr .sstatus =
          m.csr .sstatus &&& ~~~m.x 5 := rfl
      rw [hvalue, h5 rfl]
      simp

theorem rest_sscratch (hk : k ≤ 2) :
    (line env m (enterUsermodeText.drop k)).csr .sscratch = m.x 2 := by
  interval_cases k <;> rfl

/-! ## The comparison -/

/-- All that the rest of `enter_usermode` does not overwrite must be the same. -/
theorem sameAtSret_of_agree (known : Known) {back : Machine}
    (hagree : Agree known (resume back k) (atBoundary env k entry))
    (hregs : ∀ r, ((enterUsermodeText.drop k).foldl Known.after known).reg r = true)
    (hcsrs : ∀ c ∈ [Csr.sepc, .sscratch, .satp],
      ((enterUsermodeText.drop k).foldl Known.after known).csr c = true)
    (h5 : known.reg 5 = true) :
    SameAtSret (line env (resume back k) (enterUsermodeText.drop k))
      (line env (atBoundary env k entry) (enterUsermodeText.drop k)) := by
  have hline := hagree.line env (enterUsermodeText.drop k)
  have hmask : k = 1 → (atBoundary env k entry).x 5 = 0x100 := by
    rintro rfl
    rfl
  refine
    { sepc := hline.csr _ (hcsrs _ (by decide)), satp := hline.csr _ (hcsrs _ (by decide)),
      sscratch := hline.csr _ (hcsrs _ (by decide)), spp := ?_,
      regs := fun r => hline.reg r (hregs r) }
  rw [rest_spp (m := resume back k) (fun hk => (hagree.reg 5 h5).trans (hmask hk)) fun _ => ?_,
    rest_spp hmask fun hk => ?_]
  · rw [sstatus_after hk]
    simp
  · have hvalue : (resume back k).csr .sstatus = sretStatus (back.csr .sstatus) := by simp [resume]
    rw [hvalue]
    unfold sretStatus
    split <;> simp

/-- Known after a trap that lost `t1` and `t2`. -/
def earlyKnown : Known := ⟨fun r => r ≠ 6 && r ≠ 7, fun _ => false⟩

/-- Known after a trap that lost nothing, when the hardware has overwritten `sepc`. -/
def lateKnown (sepc : Bool) : Known :=
  ⟨fun _ => true, fun c => c ≠ .sstatus && (c ≠ .sepc || sepc)⟩

theorem earlyKnown_rest : ∀ k ≤ 2,
    (∀ r, ((enterUsermodeText.drop k).foldl Known.after earlyKnown).reg r = true) ∧
      ∀ c ∈ [Csr.sepc, .sscratch, .satp],
        ((enterUsermodeText.drop k).foldl Known.after earlyKnown).csr c = true := by
  decide +kernel

theorem lateKnown_rest : ∀ k < 23, 3 ≤ k → ∀ sepc, (sepc = true ∨ k = 3) →
    (∀ r, ((enterUsermodeText.drop k).foldl Known.after (lateKnown sepc)).reg r = true) ∧
      ∀ c ∈ [Csr.sepc, .sscratch, .satp],
        ((enterUsermodeText.drop k).foldl Known.after (lateKnown sepc)).csr c = true := by
  decide +kernel

/-- With 0 in `sscratch` the trap loses nothing but `sepc`. -/
theorem back_of_kernel (layout : UsermodeLayout) (k : ℕ) (hh : HandlerObeys env.callee)
    (hs : m.csr .sscratch = 0) :
    ∃ back, Back env layout k m back ∧ (∀ r, back.x r = m.x r) ∧
      back.csr .sscratch = m.csr .sscratch ∧ back.csr .satp = m.csr .satp := by
  obtain ⟨call, back, hrun, hcsr, hregs⟩ :=
    trapVector_outcome_kernel env (takeInterrupt m (layout.addr k)) hh rfl hs
  refine ⟨back, ⟨⟨call, hrun⟩, ?_, ?_⟩, hregs, ?_, ?_⟩
  · rw [hcsr]
    rfl
  · rw [hcsr]
    rfl
  · rw [hcsr]
    rfl
  · rw [hcsr]
    rfl

/-- Otherwise it takes `sscratch` for the kernel stack. -/
theorem back_of_user (layout : UsermodeLayout) (k : ℕ) (hh : HandlerObeys env.callee)
    (hs : m.csr .sscratch ≠ 0) :
    ∃ back, Back env layout k m back ∧ back.x 2 = m.csr .sscratch ∧ back.csr .sscratch = 0 ∧
      ∀ r : Reg, r ≠ 2 → r ≠ 6 → r ≠ 7 → back.x r = m.x r := by
  obtain ⟨call, back, hrun, _, hsret⟩ :=
    trapVector_outcome env (takeInterrupt m (layout.addr k)) hh rfl hs
  exact ⟨back, ⟨⟨call, hrun⟩, hsret.sepc, hsret.sstatus⟩, hsret.sp, hsret.sscratch, hsret.regs⟩

/-- Nothing writes `sscratch` again once it holds the stack pointer. -/
theorem not_sameAtSret_of_lost {back : Machine} (hk : 3 ≤ k)
    (hs : (atBoundary env k entry).csr .sscratch ≠ 0) (hlost : back.csr .sscratch = 0) :
    ¬ SameAtSret (line env (resume back k) (enterUsermodeText.drop k))
      (line env (atBoundary env k entry) (enterUsermodeText.drop k)) := by
  intro hsame
  have hscratch := hsame.sscratch
  rw [rest_csr hk (by decide), rest_csr hk (by decide)] at hscratch
  exact hs (hscratch.symm.trans hlost)

/-- Exactly when an interrupt at a boundary of `enter_usermode` cannot be noticed. -/
theorem enter_usermode_interrupted_iff (env : Env) (layout : UsermodeLayout) (entry : Machine)
    (hh : HandlerObeys env.callee) (hpc : entry.pc = 0)
    (hsie : (entry.csr .sstatus).getLsbD 1 = true) {k : ℕ} (hk : k < enterUsermode.length) :
    InterruptTransparent env layout k entry ↔ SafeBoundary layout k entry := by
  have henabled := atBoundary_sie env k hsie
  by_cases hs : (atBoundary env k entry).csr .sscratch = 0
  · obtain ⟨back, hback, hregs, hscratch, hsatp⟩ := back_of_kernel layout k hh hs
    rw [interruptTransparent_iff hpc henabled hk hback]
    rcases Nat.lt_or_ge 2 k with hlate | hearly
    · have hzero : entry.x 2 = 0 := (sscratch_after hlate).symm.trans hs
      constructor
      · intro hsame
        unfold SafeBoundary
        rw [if_neg (by omega)]
        refine ⟨hzero, ?_⟩
        by_cases h3 : k = 3
        · exact .inl h3
        · have h4 : 4 ≤ k := by omega
          have hsepc := hsame.sepc
          rw [rest_csr h4 (by decide), rest_csr h4 (by decide), sepc_after h4] at hsepc
          exact .inr (hback.sepc.symm.trans hsepc)
      · intro hsafe
        unfold SafeBoundary at hsafe
        rw [if_neg (by omega)] at hsafe
        have hknown : Agree (lateKnown (decide (layout.addr k = entry.x 10 ∧ 4 ≤ k)))
            (resume back k) (atBoundary env k entry) := by
          refine ⟨fun r _ => hregs r, fun c hc => ?_⟩
          cases c with
          | sstatus => simp [lateKnown] at hc
          | sepc =>
              have hboth : layout.addr k = entry.x 10 ∧ 4 ≤ k := by simpa [lateKnown] using hc
              rw [sepc_after hboth.2, ← hboth.1]
              exact hback.sepc
          | sscratch => exact hscratch
          | satp => exact hsatp
        have hrest := lateKnown_rest k hk hlate (decide (layout.addr k = entry.x 10 ∧ 4 ≤ k)) (by
          rcases hsafe.2 with h3 | haddr
          · exact .inr h3
          · by_cases h3 : k = 3
            · exact .inr h3
            · exact .inl (decide_eq_true ⟨haddr, by omega⟩))
        exact sameAtSret_of_agree _ hknown hrest.1 hrest.2 rfl
    · have hsafe : SafeBoundary layout k entry := by
        unfold SafeBoundary
        rw [if_pos hearly]
        exact .inl ((sscratch_before hearly).symm.trans hs)
      have hrest := earlyKnown_rest k hearly
      refine iff_of_true (sameAtSret_of_agree earlyKnown ?_ hrest.1 hrest.2 rfl) hsafe
      exact ⟨fun r _ => hregs r, fun c hc => absurd hc Bool.false_ne_true⟩
  · obtain ⟨back, hback, hsp, hscratch, hregs⟩ := back_of_user layout k hh hs
    rw [interruptTransparent_iff hpc henabled hk hback]
    rcases Nat.lt_or_ge 2 k with hlate | hearly
    · refine iff_of_false (not_sameAtSret_of_lost hlate hs hscratch) fun hsafe => ?_
      · unfold SafeBoundary at hsafe
        rw [if_neg (by omega)] at hsafe
        exact hs ((sscratch_after hlate).trans hsafe.1)
    · rw [sscratch_before hearly] at hs hsp
      constructor
      · intro hsame
        have hstack := hsame.sscratch
        rw [rest_sscratch hearly, rest_sscratch hearly, sp_before hearly] at hstack
        unfold SafeBoundary
        rw [if_pos hearly]
        exact .inr (hsp.symm.trans hstack)
      · intro hsafe
        unfold SafeBoundary at hsafe
        rw [if_pos hearly] at hsafe
        have hstack := hsafe.resolve_left hs
        have hrest := earlyKnown_rest k hearly
        refine sameAtSret_of_agree earlyKnown ⟨fun r hr => ?_, fun c hc =>
          absurd hc Bool.false_ne_true⟩ hrest.1 hrest.2 rfl
        by_cases hr2 : r = 2
        · rw [hr2, sp_before hearly, ← hstack]
          exact hsp
        · have hne : r ≠ 6 ∧ r ≠ 7 := by simpa [earlyKnown] using hr
          exact hregs r hr2 hne.1 hne.2

/-- The kernel calls `enter_usermode(0x1000, 0x2000, 0x80300000)` on the stack at `0x80100000`. -/
def demoKernel : Machine where
  pc := 0
  reg r := if r = 2 then 0x80100000 else if r = 10 then 0x1000 else if r = 11 then 0x2000
    else if r = 12 then 0x80300000 else BitVec.ofNat 64 r.val
  csr c := if c = .sstatus then 0x102 else 0
  mem _ := 0

/-- Four bytes for each instruction. -/
def demoLayout : UsermodeLayout where
  addr i := BitVec.ofNat 64 (0x80001000 + 4 * i)
  inj := by decide +kernel

theorem enter_usermode_interrupted_iff_first :
    InterruptTransparent demoEnv demoLayout 0 demoKernel ↔ SafeBoundary demoLayout 0 demoKernel :=
  enter_usermode_interrupted_iff demoEnv demoLayout demoKernel demoEnv_handlerObeys rfl (by decide)
    (by decide)

/-- An interrupt right after `csrw sscratch, sp` is noticed: user mode is entered with 0 in
`sscratch`. -/
theorem enter_usermode_loses_stack :
    (demoKernel.csr .sstatus).getLsbD 1 = true ∧ demoKernel.csr .sscratch = 0 ∧
      ¬ InterruptTransparent demoEnv demoLayout 3 demoKernel := by
  have hs : (atBoundary demoEnv 3 demoKernel).csr .sscratch ≠ 0 := by
    rw [sscratch_after le_rfl]
    decide
  obtain ⟨back, hback, _, hscratch, _⟩ :=
    back_of_user demoLayout 3 demoEnv_handlerObeys hs
  refine ⟨by decide, by decide, ?_⟩
  rw [interruptTransparent_iff rfl (atBoundary_sie demoEnv 3 (by decide)) (by decide) hback]
  exact not_sameAtSret_of_lost le_rfl hs hscratch

end Vectra

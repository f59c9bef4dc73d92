import Vectra.Riscv.TrapVector

/-!
# Traps out of kernel mode

A trap with 0 in `sscratch` interrupts the kernel itself. The handler gets a frame of the
interrupted code, all registers are back at `sret`, and the frame is all that the trap code writes.
-/

namespace Vectra

open Lib Lib.Rv64

/-- What the interrupted kernel code is promised: `usermode` and the frame that the handler is
called with, the registers and control registers at `sret`, and the memory in between. -/
structure KernelTrap (env : Env) (entry call final : Machine) : Prop where
  usermode : call.x 10 = 0
  frame : ∀ r : Reg, slot call.mem (call.x 11) r.val = entry.x r
  regs : ∀ r, final.x r = entry.x r
  csr_eq : final.csr = entry.csr
  stored : SameOutside (entry.x 2 + -272) 272 entry.mem call.mem
  above : 272 ≤ (entry.x 2).toNat → ∀ a, entry.x 2 ≤ a → call.mem a = entry.mem a
  returned : final.mem = (env.callee (call.setX 1 env.returnAddr)).mem

/-- Every trap with 0 in `sscratch` runs through the handler to `sret`, and keeps the promise. -/
theorem kernel_trap (env : Env) (entry : Machine) (hh : HandlerObeys env.callee)
    (hpc : entry.pc = 0) (hk : entry.csr .sscratch = 0) :
    ∃ call final, TrapRun env entry call final ∧ KernelTrap env entry call final := by
  obtain ⟨m, hm, hmpc, hmsp, hmcsr, hmregs, hmode, hstored⟩ := steps_from_kernel env hpc hk
  obtain ⟨c, hc, hcall, ha0, hframe⟩ := steps_framed_call env hmpc hmsp
  obtain ⟨n, hn, hsret, hreturned⟩ := steps_framed_sret hh hcall
  refine ⟨c, n, ⟨hm.trans hc, hcall.at_call, hn, hsret.at_sret⟩, ?_⟩
  refine
    { usermode := ha0.trans hmode, frame := fun r => ?_, regs := fun r => ?_,
      csr_eq := hsret.csr_eq.trans hmcsr, stored := hstored.trans hframe, above := ?_,
      returned := hreturned }
  · rw [hcall.a1, hcall.slots]
    exact hmregs r
  · by_cases hr0 : r = 0
    · rw [hr0]
      rfl
    · by_cases hr2 : r = 2
      · rw [hr2, hsret.sp, frame_top]
      · exact (hsret.regs_eq r hr0 hr2).trans (hmregs r)
  · intro hroom a ha
    exact (hstored.trans hframe).above (frame_top _).symm hroom ha

/-- Kernel code with its stack at `sp`. -/
def kernelAt (sp : Word) : Machine where
  pc := 0
  reg r := if r = 2 then sp else BitVec.ofNat 64 (r.val + 0x1000)
  csr _ := 0
  mem _ := 0

theorem kernel_trap_demo :
    ∃ call final, TrapRun demoEnv (kernelAt 0x80100000) call final ∧
      KernelTrap demoEnv (kernelAt 0x80100000) call final :=
  kernel_trap demoEnv (kernelAt 0x80100000) demoEnv_handlerObeys rfl rfl

/-- A stack with less room than the frame: `ra` is saved in the last eight bytes of memory. -/
theorem kernel_trap_wraps :
    ∃ call final, TrapRun demoEnv (kernelAt 0x100) call final ∧
      ¬ ∀ a, (kernelAt 0x100).x 2 ≤ a → call.mem a = (kernelAt 0x100).mem a := by
  obtain ⟨m, hm, hmpc, hmsp, _, hmregs, _, _⟩ :=
    steps_from_kernel demoEnv (rfl : (kernelAt 0x100).pc = 0) rfl
  obtain ⟨c, hc, hcall, _, _⟩ := steps_framed_call demoEnv hmpc hmsp
  obtain ⟨n, hn, hsret, _⟩ := steps_framed_sret demoEnv_handlerObeys hcall
  refine ⟨c, n, ⟨hm.trans hc, hcall.at_call, hn, hsret.at_sret⟩, fun habove => ?_⟩
  have hra : slot c.mem ((kernelAt 0x100).x 2 + -272) 1 = 0x1001 :=
    (hcall.slots 1).trans (hmregs 1)
  have hsame : slot c.mem ((kernelAt 0x100).x 2 + -272) 1 =
      slot (kernelAt 0x100).mem ((kernelAt 0x100).x 2 + -272) 1 := by
    refine congrArg (BitVec.ofNat 64) (readLE_congr fun i _ hi => habove _ ?_)
    interval_cases i <;> decide
  rw [hsame] at hra
  exact absurd hra (by decide)

end Vectra

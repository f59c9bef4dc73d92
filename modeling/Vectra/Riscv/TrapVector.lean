import Vectra.Lib.Rv64

/-!
# The trap vector of `exceptions.S`

The text of `trap_vector` and both exit paths, followed from a trap out of
user mode to the `sret`. The called `interrupt_exception_handler` is any
function that obeys the calling convention and leaves the saved frame alone.

Register numbers: `ra` 1, `sp` 2, `gp` 3, `tp` 4, `t0`-`t2` 5-7, `a0` 10, `a1` 11.
-/

namespace Vectra

open Lib Lib.Rv64

/-! ## The program text -/

def fromUsermode : ℕ := 11

def enterInterrupt : ℕ := 20

def stackframeCreate : ℕ := 28

def toUserMode : ℕ := 70

def toKernelMode : ℕ := 105

/-- `sd x0, 0(sp)` … `sd x31, 248(sp)` in the order of `stackframe_create`. -/
def framedRegs : List Reg :=
  [0, 1, 3, 4, 8, 9, 10, 11, 12, 13, 14, 15, 16, 17, 18, 19, 20, 21, 22, 23, 24, 25, 26, 27, 28,
    29, 30, 31]

/-- `ld x31, 248(sp)` … `ld x1, 8(sp)` in the order of both exit paths. -/
def restoredRegs : List Reg :=
  [31, 30, 29, 28, 27, 26, 25, 24, 23, 22, 21, 20, 19, 18, 17, 16, 15, 14, 13, 12, 11, 10, 9, 8,
    7, 6, 5, 4, 3, 1]

def trapEntryText : List Instr :=
  [.csrrw 2 .sscratch 2, .bnez 2 fromUsermode, .csrrw 2 .sscratch 2, .addi 2 2 (-272),
    .sd 5 40 2, .sd 6 48 2, .sd 7 56 2, .addi 5 2 272, .sd 5 16 2, .li 5 0, .j stackframeCreate]

def kernelTableText : List Instr :=
  [.la 6, .srli 6 6 12, .li 7 8, .slli 7 7 60, .or 6 6 7, .csrw .satp 6, .sfenceVma]

def enterInterruptText : List Instr :=
  [.addi 2 2 (-272), .sd 5 40 2, .sd 6 48 2, .sd 7 56 2, .csrrw 5 .sscratch 0, .sd 5 16 2,
    .ld 5 40 2, .li 5 1]

def frameTailText : List Instr :=
  [.csrr 6 .sstatus, .sd 6 256 2, .csrr 7 .sepc, .sd 7 264 2, .mv 10 5, .mv 11 2]

def exitText : List Instr :=
  [.ld 6 256 2, .csrw .sstatus 6, .ld 7 264 2, .csrw .sepc 7, .li 6 0x100, .and 5 6 6]

def trapVector : List Instr :=
  trapEntryText ++ ([.csrr 6 .satp, .beqz 6 enterInterrupt] ++ (kernelTableText ++
    (enterInterruptText ++ (framedRegs.map saveReg ++ (frameTailText ++ ([.call] ++ (exitText ++
      ([.bnez 5 toKernelMode] ++ ([.addi 5 2 272, .csrw .sscratch 5, .ld 5 16 2] ++
        (restoredRegs.map loadReg ++ ([.mv 2 5, .sret] ++
          (restoredRegs.map loadReg ++ [.addi 2 2 272, .sret]))))))))))))

/-- The labels stand where the text puts them. -/
theorem trapVector_labels :
    trapVector.drop fromUsermode = [.csrr 6 .satp, .beqz 6 enterInterrupt] ++
        (kernelTableText ++ trapVector.drop enterInterrupt) ∧
      trapVector.drop enterInterrupt = enterInterruptText ++ trapVector.drop stackframeCreate ∧
      trapVector.drop stackframeCreate = framedRegs.map saveReg ++ (frameTailText ++ ([.call] ++
        (exitText ++ ([.bnez 5 toKernelMode] ++ trapVector.drop toUserMode)))) ∧
      trapVector.drop toKernelMode = restoredRegs.map loadReg ++ [.addi 2 2 272, .sret] := by
  decide +kernel

/-! ## Traps out of user mode -/

/-- A trap out of user mode: the hardware saves the program counter and
clears `SPP`, and the program starts at `trap_vector`. -/
def takeTrap (user : Machine) (userPc : Word) : Machine :=
  { (user.setCsr .sepc userPc).setCsr .sstatus (user.csr .sstatus &&& ~~~0x100) with pc := 0 }

/-- What the handler is trusted with: it keeps the registers that the
calling convention reserves for its caller, the frame it was given, and
the control registers that hold the kernel stack and the address space. -/
structure HandlerObeys (handler : Machine → Machine) : Prop where
  saved : ∀ m, ∀ r ∈ ([2, 3, 4, 8, 9, 18, 19, 20, 21, 22, 23, 24, 25, 26, 27] : List Reg),
    (handler m).x r = m.x r
  frame : ∀ m, ∀ k < 34, slot (handler m).mem (m.x 11) k = slot m.mem (m.x 11) k
  sscratch : ∀ m, (handler m).csr .sscratch = m.csr .sscratch
  satp : ∀ m, (handler m).csr .satp = m.csr .satp

/-- The program runs from `entry` to the call in `call`, and on to the `sret` in `final`. -/
structure TrapRun (env : Env) (entry call final : Machine) : Prop where
  to_call : Steps trapVector env entry call
  at_call : trapVector[call.pc]? = some .call
  to_sret : Steps trapVector env call final
  at_sret : trapVector[final.pc]? = some .sret

/-- The user program cannot observe the trap: the handler sees its
registers, and all of them are back, with the control registers, at `sret`. -/
structure TrapTransparent (entry call final : Machine) : Prop where
  frame : ∀ r : Reg, slot call.mem (call.x 11) r.val = entry.x r
  regs : ∀ r, final.x r = entry.x r
  satp : final.csr .satp = entry.csr .satp
  sscratch : final.csr .sscratch = entry.csr .sscratch
  sepc : final.csr .sepc = entry.csr .sepc
  spp : (final.csr .sstatus).getLsbD 8 = (entry.csr .sstatus).getLsbD 8

/-! ## Following the program -/

/-- The frame lies below the stack pointer that it saves. -/
theorem frame_top (sp : Word) : sp + -272 + 272 = sp := by
  rw [BitVec.add_assoc]
  exact BitVec.add_zero _

/-- The four slots that are written before `stackframe_create`. -/
theorem slot_savedEarly (mem : Word → BitVec 8) (base t0 t1 t2 sp : Word) {k : ℕ} (hk : k < 512) :
    slot (storeDouble (storeDouble (storeDouble (storeDouble mem
      (base + BitVec.ofNat 64 (8 * 5)) t0) (base + BitVec.ofNat 64 (8 * 6)) t1)
      (base + BitVec.ofNat 64 (8 * 7)) t2) (base + BitVec.ofNat 64 (8 * 2)) sp) base k =
      if k = 2 then sp else if k = 7 then t2 else if k = 6 then t1 else if k = 5 then t0
      else slot mem base k := by
  rw [slot_storeDouble _ _ _ (by omega) hk, slot_storeDouble _ _ _ (by omega) hk,
    slot_storeDouble _ _ _ (by omega) hk, slot_storeDouble _ _ _ (by omega) hk]

variable {env : Env} {m entry : Machine}

/-- The `satp` value of `kernel_page_table` in mode Sv39. -/
def kernelSatp (env : Env) : Word := (env.symbol >>> 12) ||| (8 <<< 60)

/-- The state at `enter_interrupt`: the kernel stack is in `sp` and the
user's stack pointer in `sscratch`; `t1` and `t2` have been used. -/
structure AtInterrupt (env : Env) (entry m : Machine) : Prop where
  pc : m.pc = enterInterrupt
  sp : m.x 2 = entry.csr .sscratch
  sscratch : m.csr .sscratch = entry.x 2
  sepc : m.csr .sepc = entry.csr .sepc
  sstatus : m.csr .sstatus = entry.csr .sstatus
  satp : m.csr .satp = if entry.csr .satp = 0 then 0 else kernelSatp env
  t1 : m.x 6 = m.csr .satp
  regs : ∀ r : Reg, r ≠ 2 → r ≠ 6 → r ≠ 7 → m.x r = entry.x r

theorem steps_kernelTable (hat : m.pc = fromUsermode + 2) :
    Steps trapVector env m (line env m kernelTableText) := by
  apply steps_line (k := trapVector.drop enterInterrupt)
  · rw [hat, ← List.drop_drop, trapVector_labels.1]
    rfl
  · decide

/-- A trap with a kernel stack in `sscratch` comes to `enter_interrupt`,
whether or not the user runs with an address space of its own. -/
theorem steps_to_interrupt (hpc : entry.pc = 0) (hk : entry.csr .sscratch ≠ 0) :
    ∃ m, Steps trapVector env entry m ∧ AtInterrupt env entry m := by
  obtain ⟨m1, hm1⟩ : ∃ m1, m1 = exec env entry (.csrrw 2 .sscratch 2) := ⟨_, rfl⟩
  have hx1 : ∀ r : Reg, m1.x r = if r = 2 ∧ r ≠ 0 then entry.csr .sscratch else entry.x r := by
    intro r
    rw [hm1]
    exact entry.x_setX 2 r _
  have hsp1 : m1.x 2 = entry.csr .sscratch := by simp [hx1]
  have h1 : step trapVector env entry = some m1 := by
    rw [hm1]
    exact step_straight (i := .csrrw 2 .sscratch 2) (by rw [hpc]; rfl) rfl
  have h2 : step trapVector env m1 = some { m1 with pc := fromUsermode } := by
    have hfetch : trapVector[m1.pc]? = some (.bnez 2 fromUsermode) := by
      rw [hm1, exec_pc, hpc]
      rfl
    unfold step
    simp only [hfetch, hsp1, if_pos hk]
  obtain ⟨m3, hm3⟩ : ∃ m3, m3 = exec env { m1 with pc := fromUsermode } (.csrr 6 .satp) :=
    ⟨_, rfl⟩
  have hx3 : ∀ r : Reg, m3.x r = if r = 6 ∧ r ≠ 0 then entry.csr .satp else m1.x r := by
    intro r
    rw [hm3]
    refine (Machine.x_setX { m1 with pc := fromUsermode } 6 r _).trans ?_
    rw [hm1]
    rfl
  have h3 : step trapVector env { m1 with pc := fromUsermode } = some m3 := by
    rw [hm3]
    exact step_straight (i := .csrr 6 .satp) rfl rfl
  have hpc3 : m3.pc = fromUsermode + 1 := by
    rw [hm3, exec_pc]
  have hfetch3 : trapVector[m3.pc]? = some (.beqz 6 enterInterrupt) := by
    rw [hpc3]
    rfl
  have hto3 : Steps trapVector env entry m3 := .head h1 (.head h2 (.head h3 .refl))
  have hcsr3 : ∀ c, m3.csr c = if c = .sscratch then entry.x 2 else entry.csr c := by
    intro c
    rw [hm3, hm1]
    exact Machine.setCsr_csr _ _ _ _
  have hother : ∀ r : Reg, r ≠ 2 → r ≠ 6 → m3.x r = entry.x r := by
    intro r hr2 hr6
    rw [hx3, if_neg (fun h => hr6 h.1), hx1, if_neg (fun h => hr2 h.1)]
  have hsp3 : m3.x 2 = entry.csr .sscratch := by simp [hx3, hsp1]
  have ht3 : m3.x 6 = entry.csr .satp := by simp [hx3]
  by_cases hsatp : m3.x 6 = 0
  · refine ⟨{ m3 with pc := enterInterrupt }, hto3.tail ?_, ⟨rfl, hsp3, ?_, ?_, ?_, ?_, ?_, ?_⟩⟩
    · unfold step
      simp only [hfetch3, if_pos hsatp]
    · exact hcsr3 .sscratch
    · exact hcsr3 .sepc
    · exact hcsr3 .sstatus
    · rw [← ht3, if_pos hsatp]
      exact (hcsr3 .satp).trans (ht3.symm.trans hsatp)
    · exact ht3.trans (hcsr3 .satp).symm
    · intro r hr2 hr6 _
      exact hother r hr2 hr6
  · have h4 : step trapVector env m3 = some m3.next := by
      unfold step
      simp only [hfetch3, if_neg hsatp]
    have h5 : Steps trapVector env m3.next (line env m3.next kernelTableText) :=
      steps_kernelTable (by rw [Machine.next_pc, hpc3])
    refine ⟨line env m3.next kernelTableText, (hto3.tail h4).trans h5,
      ⟨?_, ?_, ?_, ?_, ?_, ?_, ?_, ?_⟩⟩
    · rw [line_pc, Machine.next_pc, hpc3]
      rfl
    · rw [← hsp3]
      exact line_x_of_ne (by decide)
    · exact hcsr3 .sscratch
    · exact hcsr3 .sepc
    · exact hcsr3 .sstatus
    · rw [← ht3, if_neg hsatp]
      rfl
    · rfl
    · intro r hr2 hr6 hr7
      rw [← hother r hr2 hr6]
      apply line_x_of_ne
      simp [kernelTableText, Instr.dest, hr6.symm, hr7.symm]

/-- The base of the frame that the trap vector builds. -/
def frameBase (entry : Machine) : Word := entry.csr .sscratch + -272

/-- The state at `stackframe_create`: the scratch register has been
cleared, and the registers that the code has used since are in the frame. -/
structure AtFrame (env : Env) (entry m : Machine) : Prop where
  pc : m.pc = stackframeCreate
  sp : m.x 2 = frameBase entry
  sscratch : m.csr .sscratch = 0
  sepc : m.csr .sepc = entry.csr .sepc
  sstatus : m.csr .sstatus = entry.csr .sstatus
  satp : m.csr .satp = if entry.csr .satp = 0 then 0 else kernelSatp env
  slot_sp : slot m.mem (frameBase entry) 2 = entry.x 2
  slot_t0 : slot m.mem (frameBase entry) 5 = entry.x 5
  slot_t1 : slot m.mem (frameBase entry) 6 = m.csr .satp
  regs : ∀ r : Reg, r ≠ 2 → r ≠ 5 → r ≠ 6 → r ≠ 7 → m.x r = entry.x r

theorem steps_to_frame (h : AtInterrupt env entry m) :
    ∃ n, Steps trapVector env m n ∧ AtFrame env entry n := by
  have hrun : Steps trapVector env m (line env m enterInterruptText) := by
    apply steps_line (k := trapVector.drop stackframeCreate)
    · rw [h.pc]
      exact trapVector_labels.2.1
    · decide
  have hmem : (line env m enterInterruptText).mem =
      storeDouble (storeDouble (storeDouble (storeDouble m.mem
        (m.x 2 + -272 + BitVec.ofNat 64 (8 * 5)) (m.x 5))
        (m.x 2 + -272 + BitVec.ofNat 64 (8 * 6)) (m.x 6))
        (m.x 2 + -272 + BitVec.ofNat 64 (8 * 7)) (m.x 7))
        (m.x 2 + -272 + BitVec.ofNat 64 (8 * 2)) (m.csr .sscratch) := rfl
  have hbase : m.x 2 + -272 = frameBase entry := by
    rw [h.sp]
    rfl
  rw [hbase] at hmem
  have hslot : ∀ k < 512, slot (line env m enterInterruptText).mem (frameBase entry) k =
      if k = 2 then m.csr .sscratch else if k = 7 then m.x 7 else if k = 6 then m.x 6
      else if k = 5 then m.x 5 else slot m.mem (frameBase entry) k := by
    intro k hk
    rw [hmem]
    exact slot_savedEarly _ _ _ _ _ _ hk
  refine ⟨line env m enterInterruptText, hrun, ?_⟩
  refine
    { pc := by rw [line_pc, h.pc]; rfl, sp := ?_, sscratch := rfl, sepc := h.sepc,
      sstatus := h.sstatus, satp := h.satp, slot_sp := ?_, slot_t0 := ?_, slot_t1 := ?_,
      regs := ?_ }
  · rw [← hbase]
    rfl
  · rw [hslot 2 (by omega), if_pos rfl, h.sscratch]
  · rw [hslot 5 (by omega)]
    exact h.regs 5 (by decide) (by decide) (by decide)
  · rw [hslot 6 (by omega)]
    exact h.t1
  · intro r hr2 hr5 hr6 hr7
    rw [← h.regs r hr2 hr6 hr7]
    apply line_x_of_ne
    simp [enterInterruptText, Instr.dest, hr2.symm, hr5.symm]

/-! ## The common path -/

/-- What the frame at `base` will hold for each register at `stackframe_create`: four are saved
already, the others are saved from here on. -/
def frameContents (base : Word) (m : Machine) (r : Reg) : Word :=
  if r ∈ ([2, 5, 6, 7] : List Reg) then slot m.mem base r.val else m.x r

/-- The state in which the handler is called, with a frame of `regs`. -/
structure FramedCall (base : Word) (regs : Reg → Word) (csr : Csr → Word) (m : Machine) :
    Prop where
  at_call : trapVector[m.pc]? = some .call
  pc : m.pc = stackframeCreate + framedRegs.length + frameTailText.length
  sp : m.x 2 = base
  a1 : m.x 11 = base
  csr_eq : m.csr = csr
  slots : ∀ r : Reg, slot m.mem base r.val = regs r
  sstatus : slot m.mem base 32 = csr .sstatus
  sepc : slot m.mem base 33 = csr .sepc

theorem steps_framed_call (env : Env) {base : Word} (hpc : m.pc = stackframeCreate)
    (hsp : m.x 2 = base) :
    ∃ n, Steps trapVector env m n ∧ FramedCall base (frameContents base m) m.csr n ∧
      n.x 10 = m.x 5 ∧ SameOutside base 272 m.mem n.mem := by
  obtain ⟨hx, hcsr, hsaved⟩ := line_saveReg env m framedRegs
  obtain ⟨n, hn⟩ : ∃ n, n = line env m (framedRegs.map saveReg) := ⟨_, rfl⟩
  rw [← hn] at hx hcsr hsaved
  rw [hsp] at hsaved
  have hrun : Steps trapVector env m (line env m (framedRegs.map saveReg ++ frameTailText)) := by
    apply steps_line (k := [.call] ++ (exitText ++ ([.bnez 5 toKernelMode] ++
      trapVector.drop toUserMode)))
    · rw [hpc, trapVector_labels.2.2.1, List.append_assoc]
    · decide
  rw [line_append, ← hn] at hrun
  have hmem : (line env n frameTailText).mem =
      storeDouble (storeDouble n.mem (n.x 2 + BitVec.ofNat 64 (8 * 32)) (n.csr .sstatus))
        (n.x 2 + BitVec.ofNat 64 (8 * 33)) (n.csr .sepc) := rfl
  rw [hx, hcsr, hsp] at hmem
  have hslot : ∀ k < 512, slot (line env n frameTailText).mem base k =
      if k = 33 then m.csr .sepc else if k = 32 then m.csr .sstatus else slot n.mem base k := by
    intro k hk
    rw [hmem, slot_storeDouble _ _ _ (by omega) hk, slot_storeDouble _ _ _ (by omega) hk]
  have hframed : ∀ r : Reg, slot (line env n frameTailText).mem base r.val =
      if r ∈ framedRegs then m.x r else slot m.mem base r.val := by
    intro r
    have hr := r.isLt
    rw [hslot r.val (by omega), if_neg (by omega), if_neg (by omega),
      hsaved r.val (by omega), dif_pos hr]
  have hmissing : ∀ r : Reg, r ∈ framedRegs ↔ r ∉ ([2, 5, 6, 7] : List Reg) := by decide
  have hpc' : (line env n frameTailText).pc =
      stackframeCreate + framedRegs.length + frameTailText.length := by
    rw [line_pc, hn, line_pc, hpc, List.length_map]
  have hframe : SameOutside base 272 m.mem (line env n frameTailText).mem := by
    rw [hn, ← line_append, ← hsp]
    exact line_sameOutside (by decide)
  refine ⟨line env n frameTailText, hrun, ?_, ?_, hframe⟩
  rotate_left
  · rw [← hx]
    rfl
  refine
    { at_call := by rw [hpc']; rfl, pc := hpc', sp := ?_, a1 := ?_, csr_eq := ?_, slots := ?_,
      sstatus := ?_, sepc := ?_ }
  · rw [← hsp, ← hx]
    rfl
  · rw [← hsp, ← hx]
    rfl
  · rw [← hcsr]
    rfl
  · intro r
    rw [hframed]
    unfold frameContents
    by_cases hr : r ∈ framedRegs
    · rw [if_pos hr, if_neg ((hmissing r).mp hr)]
    · rw [if_neg hr, if_pos (not_not.mp fun hno => hr ((hmissing r).mpr hno))]
  · rw [hslot 32 (by omega), if_neg (by omega), if_pos rfl]
  · rw [hslot 33 (by omega), if_pos rfl]

/-- The state at `sret`: the exit path for kernel traps has been taken, whatever `sstatus` is. -/
structure FramedSret (base : Word) (regs : Reg → Word) (csr : Csr → Word) (m : Machine) :
    Prop where
  at_sret : trapVector[m.pc]? = some .sret
  sp : m.x 2 = base + 272
  csr_eq : m.csr = csr
  regs_eq : ∀ r : Reg, r ≠ 0 → r ≠ 2 → m.x r = regs r

/-- The state behind the call of a handler that has kept its promise. -/
structure HandlerReturned (base : Word) (regs : Reg → Word) (csr : Csr → Word) (m : Machine) :
    Prop where
  pc : m.pc = stackframeCreate + framedRegs.length + frameTailText.length + 1
  sp : m.x 2 = base
  sscratch : m.csr .sscratch = csr .sscratch
  satp : m.csr .satp = csr .satp
  slots : ∀ r : Reg, slot m.mem base r.val = regs r
  sstatus : slot m.mem base 32 = csr .sstatus
  sepc : slot m.mem base 33 = csr .sepc

section Exit

variable {base : Word} {regs : Reg → Word} {csr : Csr → Word}

theorem step_handler (hh : HandlerObeys env.callee) (h : FramedCall base regs csr m) :
    ∃ c, step trapVector env m = some c ∧ HandlerReturned base regs csr c ∧
      c.mem = (env.callee (m.setX 1 env.returnAddr)).mem := by
  obtain ⟨c, hc⟩ : ∃ c : Machine,
      c = { env.callee (m.setX 1 env.returnAddr) with pc := m.pc + 1 } := ⟨_, rfl⟩
  have hcall : step trapVector env m = some c := by
    rw [hc]
    unfold step
    simp only [h.at_call]
  have hslot : ∀ k < 34, slot c.mem base k = slot m.mem base k := by
    intro k hk
    have hframe := hh.frame (m.setX 1 env.returnAddr) k hk
    have ha1 : (m.setX 1 env.returnAddr).x 11 = base := h.a1
    rw [ha1] at hframe
    rw [hc]
    exact hframe
  refine ⟨c, hcall, ?_, by rw [hc]⟩
  refine
    { pc := by rw [hc, ← h.pc], sp := ?_, sscratch := ?_, satp := ?_, slots := fun r => ?_,
      sstatus := (hslot 32 (by omega)).trans h.sstatus, sepc := (hslot 33 (by omega)).trans h.sepc }
  · rw [hc]
    exact (hh.saved (m.setX 1 env.returnAddr) 2 (by decide)).trans h.sp
  · rw [hc, ← h.csr_eq]
    exact hh.sscratch _
  · rw [hc, ← h.csr_eq]
    exact hh.satp _
  · have hr := r.isLt
    exact (hslot r.val (by omega)).trans (h.slots r)

/-- The frame gives `sstatus` and `sepc` back, and the branch is always taken. -/
theorem steps_to_kernelMode (env : Env) (h : HandlerReturned base regs csr m) :
    ∃ k, Steps trapVector env m k ∧ k.pc = toKernelMode ∧ k.x 2 = base ∧ k.csr = csr ∧
      k.mem = m.mem := by
  have hexit : Steps trapVector env m (line env m exitText) := by
    apply steps_line (k := [.bnez 5 toKernelMode] ++ trapVector.drop toUserMode)
    · rw [h.pc]
      decide +kernel
    · decide
  obtain ⟨e, he⟩ : ∃ e, e = line env m exitText := ⟨_, rfl⟩
  rw [← he] at hexit
  have hbnez : step trapVector env e = some { e with pc := toKernelMode } := by
    have hfetch : trapVector[e.pc]? = some (.bnez 5 toKernelMode) := by
      rw [he, line_pc, h.pc]
      rfl
    -- `and t0, t1, t1` leaves the mask itself, so the branch does not depend on `sstatus`
    have htest : e.x 5 ≠ 0 := by
      have hvalue : e.x 5 = 0x100 &&& 0x100 := by
        rw [he]
        rfl
      rw [hvalue]
      decide
    unfold step
    simp only [hfetch, if_pos htest]
  refine ⟨{ e with pc := toKernelMode }, hexit.tail hbnez, rfl, ?_, ?_, ?_⟩
  · change e.x 2 = base
    rw [← h.sp, he]
    exact line_x_of_ne (by decide)
  · funext x
    change e.csr x = csr x
    cases x with
    | sstatus =>
        have hvalue : e.csr .sstatus = slot m.mem (m.x 2) 32 := by
          rw [he]
          rfl
        rw [hvalue, h.sp, h.sstatus]
    | sepc =>
        have hvalue : e.csr .sepc = slot m.mem (m.x 2) 33 := by
          rw [he]
          rfl
        rw [hvalue, h.sp, h.sepc]
    | sscratch =>
        rw [← h.sscratch, he]
        rfl
    | satp =>
        rw [← h.satp, he]
        rfl
  · change e.mem = m.mem
    rw [he]
    rfl

/-- `to_kernel_mode` loads the registers of the frame and gives its room back. -/
theorem steps_restore (env : Env) (hpc : m.pc = toKernelMode) (hsp : m.x 2 = base) :
    ∃ n, Steps trapVector env m n ∧ trapVector[n.pc]? = some .sret ∧ n.x 2 = base + 272 ∧
      n.csr = m.csr ∧ n.mem = m.mem ∧
      ∀ r : Reg, r ≠ 0 → r ≠ 2 → n.x r = slot m.mem base r.val := by
  have hrestore : Steps trapVector env m
      (line env m (restoredRegs.map loadReg ++ [.addi 2 2 272])) := by
    apply steps_line (k := [.sret])
    · rw [hpc, trapVector_labels.2.2.2, List.append_assoc]
      rfl
    · decide
  rw [line_append] at hrestore
  obtain ⟨hlmem, hlcsr, hlregs⟩ := line_loadReg env m (by decide : (2 : Reg) ∉ restoredRegs)
  obtain ⟨l, hl⟩ : ∃ l, l = line env m (restoredRegs.map loadReg) := ⟨_, rfl⟩
  rw [← hl] at hlmem hlcsr hlregs hrestore
  rw [hsp] at hlregs
  have hlsp : l.x 2 = base := by
    rw [hlregs 2, if_neg (by decide)]
    exact hsp
  obtain ⟨n, hn⟩ : ∃ n, n = line env l [.addi 2 2 272] := ⟨_, rfl⟩
  rw [← hn] at hrestore
  refine ⟨n, hrestore, ?_, ?_, ?_, ?_, fun r hr0 hr2 => ?_⟩
  · rw [hn, line_pc, hl, line_pc, hpc]
    rfl
  · rw [hn, ← hlsp]
    rfl
  · rw [hn, ← hlcsr]
    rfl
  · rw [hn, ← hlmem]
    rfl
  · have hrestored : r ∈ restoredRegs := by
      revert hr0 hr2
      revert r
      decide
    have hnx : n.x r = l.x r := by
      rw [hn]
      apply line_x_of_ne
      simp [Instr.dest, hr2.symm]
    rw [hnx, hlregs, if_pos ⟨hrestored, hr0⟩]

theorem steps_framed_sret (hh : HandlerObeys env.callee) (h : FramedCall base regs csr m) :
    ∃ n, Steps trapVector env m n ∧ FramedSret base regs csr n ∧
      n.mem = (env.callee (m.setX 1 env.returnAddr)).mem := by
  obtain ⟨c, hcall, hc, hcmem⟩ := step_handler hh h
  obtain ⟨k, hexit, hkpc, hksp, hkcsr, hkmem⟩ := steps_to_kernelMode env hc
  obtain ⟨n, hrestore, hsret, hnsp, hncsr, hnmem, hregs⟩ := steps_restore env hkpc hksp
  refine ⟨n, .head hcall (hexit.trans hrestore), ⟨hsret, hnsp, hncsr.trans hkcsr, ?_⟩,
    hnmem.trans (hkmem.trans hcmem)⟩
  intro r hr0 hr2
  rw [hregs r hr0 hr2, hkmem, hc.slots]

end Exit

/-! ## The outcome of a trap out of user mode -/

/-- The state in which the handler is called: its frame holds every
register of the user but `t1` and `t2`. -/
structure AtCall (env : Env) (entry m : Machine) : Prop where
  at_call : trapVector[m.pc]? = some .call
  pc : m.pc = stackframeCreate + framedRegs.length + frameTailText.length
  sp : m.x 2 = frameBase entry
  a1 : m.x 11 = frameBase entry
  sscratch : m.csr .sscratch = 0
  satp : m.csr .satp = if entry.csr .satp = 0 then 0 else kernelSatp env
  slot_t1 : slot m.mem (frameBase entry) 6 = m.csr .satp
  regs : ∀ r : Reg, r ≠ 6 → r ≠ 7 → slot m.mem (frameBase entry) r.val = entry.x r
  sstatus : slot m.mem (frameBase entry) 32 = entry.csr .sstatus
  sepc : slot m.mem (frameBase entry) 33 = entry.csr .sepc

/-- The state at `sret`. Both counters of the frame are back, but the exit
path for kernel traps was taken: `sp` is the kernel stack, `sscratch` zero. -/
structure AtSret (env : Env) (entry final : Machine) : Prop where
  at_sret : trapVector[final.pc]? = some .sret
  sp : final.x 2 = entry.csr .sscratch
  sscratch : final.csr .sscratch = 0
  satp : final.csr .satp = if entry.csr .satp = 0 then 0 else kernelSatp env
  sepc : final.csr .sepc = entry.csr .sepc
  sstatus : final.csr .sstatus = entry.csr .sstatus
  t1 : final.x 6 = final.csr .satp
  regs : ∀ r : Reg, r ≠ 2 → r ≠ 6 → r ≠ 7 → final.x r = entry.x r

namespace AtFrame

variable {call final : Machine}

/-- All registers of the user but `t1` and `t2` are in the frame. -/
theorem contents (h : AtFrame env entry m) {r : Reg} (hr6 : r ≠ 6) (hr7 : r ≠ 7) :
    frameContents (frameBase entry) m r = entry.x r := by
  unfold frameContents
  by_cases hr2 : r = 2
  · subst hr2
    exact h.slot_sp
  · by_cases hr5 : r = 5
    · subst hr5
      exact h.slot_t0
    · rw [if_neg (by simp [hr2, hr5, hr6, hr7])]
      exact h.regs r hr2 hr5 hr6 hr7

theorem atCall (h : AtFrame env entry m)
    (hcall : FramedCall (frameBase entry) (frameContents (frameBase entry) m) m.csr call) :
    AtCall env entry call where
  at_call := hcall.at_call
  pc := hcall.pc
  sp := hcall.sp
  a1 := hcall.a1
  sscratch := by rw [hcall.csr_eq, h.sscratch]
  satp := by rw [hcall.csr_eq, h.satp]
  slot_t1 := by
    rw [hcall.csr_eq, ← h.slot_t1]
    exact hcall.slots 6
  regs := fun r hr6 hr7 => (hcall.slots r).trans (h.contents hr6 hr7)
  sstatus := by rw [hcall.sstatus, h.sstatus]
  sepc := by rw [hcall.sepc, h.sepc]

theorem atSret (h : AtFrame env entry m)
    (hsret : FramedSret (frameBase entry) (frameContents (frameBase entry) m) m.csr final) :
    AtSret env entry final where
  at_sret := hsret.at_sret
  sp := by
    rw [hsret.sp]
    unfold frameBase
    rw [BitVec.add_assoc]
    exact BitVec.add_zero _
  sscratch := by rw [hsret.csr_eq, h.sscratch]
  satp := by rw [hsret.csr_eq, h.satp]
  sepc := by rw [hsret.csr_eq, h.sepc]
  sstatus := by rw [hsret.csr_eq, h.sstatus]
  t1 := by
    rw [hsret.csr_eq, ← h.slot_t1]
    exact hsret.regs_eq 6 (by decide) (by decide)
  regs := by
    intro r hr2 hr6 hr7
    by_cases hr0 : r = 0
    · rw [hr0]
      rfl
    · exact (hsret.regs_eq r hr0 hr2).trans (h.contents hr6 hr7)

end AtFrame

/-- What `trap_vector` does with every trap out of user mode. -/
theorem trapVector_outcome (env : Env) (entry : Machine) (hh : HandlerObeys env.callee)
    (hpc : entry.pc = 0)
    (hk : entry.csr .sscratch ≠ 0) :
    ∃ call final, TrapRun env entry call final ∧ AtCall env entry call ∧
      AtSret env entry final := by
  obtain ⟨m, hm, hint⟩ : ∃ m, Steps trapVector env entry m ∧ AtInterrupt env entry m :=
    steps_to_interrupt hpc hk
  obtain ⟨f, hf, hframe⟩ := steps_to_frame hint
  obtain ⟨c, hc, hcall, _⟩ := steps_framed_call env hframe.pc hframe.sp
  obtain ⟨n, hn, hsret, _⟩ := steps_framed_sret hh hcall
  exact ⟨c, n, ⟨(hm.trans hf).trans hc, hcall.at_call, hn, hsret.at_sret⟩, hframe.atCall hcall,
    hframe.atSret hsret⟩

/-- A trap with 0 in `sscratch` builds its frame on the stack in use and changes no register but
those that it saves first. -/
theorem steps_from_kernel (env : Env) (hpc : entry.pc = 0) (hk : entry.csr .sscratch = 0) :
    ∃ m, Steps trapVector env entry m ∧ m.pc = stackframeCreate ∧ m.x 2 = entry.x 2 + -272 ∧
      m.csr = entry.csr ∧ (∀ r, frameContents (entry.x 2 + -272) m r = entry.x r) ∧ m.x 5 = 0 ∧
      SameOutside (entry.x 2 + -272) 272 entry.mem m.mem := by
  obtain ⟨m, hm⟩ : ∃ m, m = exec env entry (.csrrw 2 .sscratch 2) := ⟨_, rfl⟩
  have hsp : m.x 2 = 0 := by
    rw [hm, ← hk]
    rfl
  have hscratch : m.csr .sscratch = entry.x 2 := by
    rw [hm]
    rfl
  have hmx : ∀ r : Reg, r ≠ 2 → m.x r = entry.x r := by
    intro r hr
    rw [hm]
    exact exec_x_of_ne (by simp [Instr.dest, hr.symm])
  have h1 : step trapVector env entry = some m := by
    rw [hm]
    exact step_straight (i := .csrrw 2 .sscratch 2) (by rw [hpc]; rfl) rfl
  have h2 : step trapVector env m = some m.next := by
    have hfetch : trapVector[m.pc]? = some (.bnez 2 fromUsermode) := by
      rw [hm, exec_pc, hpc]
      rfl
    unfold step
    simp only [hfetch, if_neg (not_not.mpr hsp)]
  obtain ⟨n, hn⟩ : ∃ n, n = line env m.next ((trapEntryText.drop 2).take 8) := ⟨_, rfl⟩
  have h3 : Steps trapVector env m.next n := by
    rw [hn]
    apply steps_line (k := trapVector.drop 10)
    · rw [Machine.next_pc, hm, exec_pc, hpc]
      decide +kernel
    · decide
  have h4 : step trapVector env n = some { n with pc := stackframeCreate } := by
    have hfetch : trapVector[n.pc]? = some (.j stackframeCreate) := by
      rw [hn, line_pc, Machine.next_pc, hm, exec_pc, hpc]
      rfl
    unfold step
    simp only [hfetch]
  have hnsp : n.x 2 = entry.x 2 + -272 := by
    rw [hn, ← hscratch]
    rfl
  have hncsr : n.csr = entry.csr := by
    funext c
    cases c with
    | sscratch =>
        rw [hk, ← hsp, hn]
        rfl
    | _ =>
        rw [hn, hm]
        rfl
  have hnmem : n.mem = storeDouble (storeDouble (storeDouble (storeDouble m.mem
      (m.csr .sscratch + -272 + BitVec.ofNat 64 (8 * 5)) (m.x 5))
      (m.csr .sscratch + -272 + BitVec.ofNat 64 (8 * 6)) (m.x 6))
      (m.csr .sscratch + -272 + BitVec.ofNat 64 (8 * 7)) (m.x 7))
      (m.csr .sscratch + -272 + BitVec.ofNat 64 (8 * 2)) (m.csr .sscratch + -272 + 272) := by
    rw [hn]
    rfl
  rw [hscratch, frame_top] at hnmem
  have hslot : ∀ k < 512, slot n.mem (entry.x 2 + -272) k =
      if k = 2 then entry.x 2 else if k = 7 then m.x 7 else if k = 6 then m.x 6
      else if k = 5 then m.x 5 else slot m.mem (entry.x 2 + -272) k := by
    intro k hk
    rw [hnmem]
    exact slot_savedEarly _ _ _ _ _ _ hk
  have hrun : Steps trapVector env entry n := .head h1 (.head h2 h3)
  have hframe : SameOutside (entry.x 2 + -272) 272 entry.mem n.mem := by
    rw [hnmem, show m.mem = entry.mem by rw [hm]; rfl]
    exact ((((SameOutside.refl _ _ _).storeDouble (by decide) _).storeDouble (by decide)
      _).storeDouble (by decide) _).storeDouble (by decide) _
  have hmode : n.x 5 = 0 := by
    rw [hn]
    rfl
  refine ⟨{ n with pc := stackframeCreate }, hrun.tail h4, rfl, hnsp, hncsr, fun r => ?_, hmode,
    hframe⟩
  unfold frameContents
  by_cases hr : r ∈ ([2, 5, 6, 7] : List Reg)
  · rw [if_pos hr]
    refine (hslot r.val (by omega)).trans ?_
    simp only [List.mem_cons, List.not_mem_nil, or_false] at hr
    rcases hr with rfl | rfl | rfl | rfl
    · rfl
    · exact hmx 5 (by decide)
    · exact hmx 6 (by decide)
    · exact hmx 7 (by decide)
  · rw [if_neg hr]
    simp only [List.mem_cons, List.not_mem_nil, or_false, not_or] at hr
    rw [← hmx r hr.1]
    change n.x r = m.x r
    rw [hn]
    refine (line_x_of_ne ?_).trans rfl
    simp [trapEntryText, Instr.dest, Ne.symm hr.1, Ne.symm hr.2.1]

/-- What `trap_vector` does with every trap taken with 0 in `sscratch`: nothing is lost. -/
theorem trapVector_outcome_kernel (env : Env) (entry : Machine) (hh : HandlerObeys env.callee)
    (hpc : entry.pc = 0) (hk : entry.csr .sscratch = 0) :
    ∃ call final, TrapRun env entry call final ∧ final.csr = entry.csr ∧
      ∀ r, final.x r = entry.x r := by
  obtain ⟨m, hm, hmpc, hmsp, hmcsr, hmregs, _⟩ := steps_from_kernel env hpc hk
  obtain ⟨c, hc, hcall, _⟩ := steps_framed_call env hmpc hmsp
  obtain ⟨n, hn, hsret, _⟩ := steps_framed_sret hh hcall
  refine ⟨c, n, ⟨hm.trans hc, hcall.at_call, hn, hsret.at_sret⟩, hsret.csr_eq.trans hmcsr, ?_⟩
  intro r
  by_cases hr0 : r = 0
  · rw [hr0]
    rfl
  · by_cases hr2 : r = 2
    · rw [hr2, hsret.sp, frame_top]
    · exact (hsret.regs_eq r hr0 hr2).trans (hmregs r)

/-- The trap is never transparent: the stack pointer of the kernel has been
taken out of `sscratch` and is not put back. -/
theorem trap_not_transparent (env : Env) (user : Machine) (userPc : Word)
    (hh : HandlerObeys env.callee) (hk : user.csr .sscratch ≠ 0) :
    (∃ call final, TrapRun env (takeTrap user userPc) call final) ∧
      ∀ call final, TrapRun env (takeTrap user userPc) call final →
        ¬ TrapTransparent (takeTrap user userPc) call final := by
  obtain ⟨c, n, hrun, _, hsret⟩ :=
    trapVector_outcome env (takeTrap user userPc) hh rfl hk
  refine ⟨⟨c, n, hrun⟩, fun call final hrun' htrans => hk ?_⟩
  have hsame : final = n :=
    Steps.unique_of_stopped (hrun'.to_call.trans hrun'.to_sret) (hrun.to_call.trans hrun.to_sret)
      (step_sret hrun'.at_sret) (step_sret hrun.at_sret)
  rw [hsame] at htrans
  exact htrans.sscratch.symm.trans hsret.sscratch

/-- A user context with distinct registers and a kernel stack at `0x80100000`. -/
def demoUser : Machine where
  pc := 0
  reg r := BitVec.ofNat 64 (r.val + 1)
  csr c := if c = .sscratch then 0x80100000 else 0
  mem _ := 0

/-- A handler that returns at once. -/
def demoEnv : Env := ⟨0x80200000, 0x80000100, fun m => m⟩

theorem demoEnv_handlerObeys : HandlerObeys demoEnv.callee :=
  ⟨fun _ _ _ => rfl, fun _ _ _ => rfl, fun _ => rfl, fun _ => rfl⟩

theorem trap_not_transparent_demo :
    (∃ call final, TrapRun demoEnv (takeTrap demoUser 0x1000) call final) ∧
      ∀ call final, TrapRun demoEnv (takeTrap demoUser 0x1000) call final →
        ¬ TrapTransparent (takeTrap demoUser 0x1000) call final :=
  trap_not_transparent demoEnv demoUser 0x1000 demoEnv_handlerObeys (by decide)

/-- In this run the user's `t1` has been lost, and `sp` is the kernel stack. -/
theorem trap_loses_registers :
    ∃ call final, TrapRun demoEnv (takeTrap demoUser 0x1000) call final ∧
      slot call.mem (call.x 11) 6 = 0 ∧ final.x 6 = 0 ∧ final.x 2 = 0x80100000 ∧
      final.csr .sscratch = 0 ∧ ¬ TrapTransparent (takeTrap demoUser 0x1000) call final := by
  obtain ⟨call, final, hrun, hcall, hsret⟩ :=
    trapVector_outcome demoEnv (takeTrap demoUser 0x1000) demoEnv_handlerObeys rfl (by decide)
  have hsatp : final.csr .satp = 0 := hsret.satp
  have ht1 : final.x 6 = 0 := hsret.t1.trans hsatp
  refine ⟨call, final, hrun, ?_, ht1, hsret.sp, hsret.sscratch, ?_⟩
  · rw [hcall.a1]
    exact hcall.slot_t1.trans hcall.satp
  · intro htrans
    have hback : final.x 6 = 7 := htrans.regs 6
    rw [ht1] at hback
    revert hback
    decide

end Vectra

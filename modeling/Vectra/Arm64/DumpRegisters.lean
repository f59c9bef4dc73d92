import Vectra.Arm64.Vectors
import Vectra.Riscv.DumpRegisters

/-!
# `dump_registers` on arm64

The routine moves the stack pointer below the registers that it stores, so the caller's stack
stays as it is. It calls the same `regs_dump` as the other architecture, which copies 256 bytes
from the address of its own parameter: the record shows the registers as many places too high as
the parameter lies below the dump. The last load takes `x1` from the place of `x0`. The text ends
where `ret` stands.
-/

namespace Vectra.Arm64

open Lib Lib.A64
open Lib.Rv64 (Word slot storeDouble loadDouble_eq_iff wordByte)

/-! ## The program text -/

/-- `sub sp, sp, #256` up to `mov x0, sp`; the pairs are saved in ascending order. -/
def dumpEntry : List Instr :=
  [.subImm sp sp 256] ++ ((List.finRange 15).map savePair ++
    [.str 30 sp 240, .addImm 0 sp 256, .str 0 sp 248, .mov 0 sp])

/-- `ldr x30, [sp, #240]` up to `add sp, sp, #256`; the pairs are restored in descending order,
and of the first one `x1` alone. -/
def dumpExit : List Instr :=
  [.ldr 30 sp 240] ++ ((List.finRange 15).tail.reverse.map loadPair ++
    [.ldr 1 sp 0, .addImm sp sp 256])

def dumpRegisters : List Instr := dumpEntry ++ ([.bl] ++ dumpExit)

/-! ## `regs_dump` -/

def calleeSaved : List Reg := [19, 20, 21, 22, 23, 24, 25, 26, 27, 28, 29, sp]

/-- What `regs_dump` starts from, under the register numbers of the other architecture: the
stack pointer, the argument and the memory. -/
def dumpArgs (m : A64.Machine) : Rv64.Machine where
  pc := 0
  reg := fun r => if r = 2 then m.x sp else m.x 0
  csr := fun _ => 0
  mem := m.mem

/-- `memcpy(&regframe, &regs, sizeof(arm64_registers_t)); return &regframe;` -/
def regsDump (regframe : Word) (c : DumpFrame) (m : A64.Machine) : A64.Machine :=
  { m with
    x := fun r => if r = 0 then regframe else if r ∈ calleeSaved then m.x r else c.temps r
    mem := copyUp (fun i => regframe + BitVec.ofNat 64 i)
      (fun i => m.x sp - BitVec.ofNat 64 c.param + BitVec.ofNat 64 i) (c.enter (dumpArgs m))
      0 256 }

/-! ## What the routine does -/

/-- The word `k` from the parameter on, as far as it lies in the frame of `regs_dump`. -/
def scratchWord (c : DumpFrame) (k : ℕ) : Word :=
  BitVec.ofNat 64 (readLE c.scratch (c.size - c.param + 8 * k) 8)

/-- The state at `ret`, where the parameter lies `p` words below the dump. -/
structure DumpReturns (c : DumpFrame) (regframe : Word) (p : ℕ) (entry final : A64.Machine) :
    Prop where
  pc : final.pc = dumpRegisters.length
  result : final.x 0 = regframe
  /-- `x1` is lost. -/
  first : final.x 1 = entry.x 0
  kept : ∀ r : Reg, 2 ≤ r.val → final.x r = entry.x r
  /-- Nothing is written but the record and the stack below the caller's. -/
  memory : ∀ a, c.size + 256 ≤ (a - (entry.x sp - 256 - BitVec.ofNat 64 c.size)).toNat →
    (∀ i < 256, a ≠ regframe + BitVec.ofNat 64 i) → final.mem a = entry.mem a
  /-- The field of `x0` holds the address of the dump. -/
  record_first : slot final.mem regframe 0 = entry.x sp - 256
  record_frame : ∀ k, 0 < k → k < p → k < 32 → slot final.mem regframe k = scratchWord c k
  /-- From field `p` on, each field holds the register `p` places below its own. -/
  record : ∀ r s : Reg, r.val = s.val + p → slot final.mem regframe r.val = entry.x s

/-! ## Following the code -/

section Lines

variable {m n : A64.Machine} {a : Word}

/-- The pairs are stored in the first 240 bytes above the stack pointer. -/
theorem line_savePair_mem (m : A64.Machine) (is : List (Fin 15))
    (ha : 240 ≤ (a - m.x sp).toNat) : (line m (is.map savePair)).mem a = m.mem a := by
  induction is generalizing m with
  | nil => rfl
  | cons i is ih =>
      have hi := i.isLt
      rw [List.map_cons, line_cons, ih (exec m (savePair i)) ha]
      obtain ⟨heven, hodd⟩ := pair_offset (m.x sp) i.val
      have hfar : ∀ k < 30, ¬ (a - (m.x sp + BitVec.ofNat 64 (8 * k))).toNat < 8 := by
        intro k hk hlt
        simp only [BitVec.toNat_sub, BitVec.toNat_add, BitVec.toNat_ofNat] at ha hlt
        omega
      unfold savePair exec
      simp only [Machine.next_mem]
      rw [hodd, heven]
      unfold storeDouble
      rw [if_neg (hfar _ (by omega)), if_neg (hfar _ (by omega))]

/-- The dump and its call. -/
theorem line_dumpEntry (m : A64.Machine) :
    (line m dumpEntry).x 0 = m.x sp - 256 ∧ (line m dumpEntry).x sp = m.x sp - 256 ∧
      (∀ r : Reg, slot (line m dumpEntry).mem (m.x sp - 256) r.val = m.x r) ∧
      ∀ a, 256 ≤ (a - (m.x sp - 256)).toNat → (line m dumpEntry).mem a = m.mem a := by
  obtain ⟨m1, hm1⟩ : ∃ m1, m1 = exec m (.subImm sp sp 256) := ⟨_, rfl⟩
  obtain ⟨m2, hm2⟩ : ∃ m2, m2 = line m1 ((List.finRange 15).map savePair) := ⟨_, rfl⟩
  have hsp1 : m1.x sp = m.x sp - 256 := by
    rw [hm1]
    exact (m.setX_x sp sp _).trans (if_pos rfl)
  have hsp2 : m2.x sp = m.x sp - 256 := by
    rw [hm2, (line_savePair m1 _).1, hsp1]
  have hline : line m dumpEntry = line m2
      [.str 30 sp 240, .addImm 0 sp 256, .str 0 sp 248, .mov 0 sp] := by
    rw [hm2, hm1]
    simp only [dumpEntry, line_append, line_cons, line_nil]
  have hmem : (line m dumpEntry).mem = (line m (vectorEntry 0)).mem := by
    rw [hline]
    have hvector : line m (vectorEntry 0) = line m2
        [.str 30 sp 240, .addImm 0 sp 256, .str 0 sp 248, .movImm 0 0, .mov 1 sp] := by
      rw [hm2, hm1]
      simp only [vectorEntry, line_append, line_cons, line_nil]
    rw [hvector]
    rfl
  refine ⟨?_, ?_, fun r => ?_, fun a ha => ?_⟩
  · rw [hline, ← hsp2]
    rfl
  · rw [hline, ← hsp2]
    rfl
  · rw [hmem]
    exact (line_vectorEntry m 0).2.2.2 r
  · have hfar : ∀ k, k + 8 ≤ 256 → ¬ (a - (m2.x sp + BitVec.ofNat 64 k)).toNat < 8 := by
      intro k hk hlt
      rw [hsp2] at hlt
      simp only [BitVec.toNat_sub, BitVec.toNat_add, BitVec.toNat_ofNat] at ha hlt
      omega
    have hstored : (line m dumpEntry).mem a = m2.mem a := by
      rw [hline]
      change storeDouble (storeDouble m2.mem (m2.x sp + BitVec.ofNat 64 240) (m2.x 30))
        (m2.x sp + BitVec.ofNat 64 248) (m2.x sp + 256) a = m2.mem a
      unfold storeDouble
      rw [if_neg (hfar _ (by norm_num)), if_neg (hfar _ (by norm_num))]
    rw [hstored, hm2, line_savePair_mem m1 _ (by rw [hsp1]; omega), hm1]
    rfl

theorem tailPair_cover (r : Reg) :
    (∃ i ∈ (List.finRange 15).tail, r.val / 2 = i.val) ↔ 2 ≤ r.val ∧ r.val < 30 := by
  have hall : ∀ r : Reg, (∃ i ∈ (List.finRange 15).tail, r.val / 2 = i.val) ↔
      2 ≤ r.val ∧ r.val < 30 := by decide
  exact hall r

/-- The registers behind the call. -/
theorem line_dumpExit (n : A64.Machine) :
    (line n dumpExit).mem = n.mem ∧ (line n dumpExit).x 0 = n.x 0 ∧
      (line n dumpExit).x 1 = slot n.mem (n.x sp) 0 ∧
      (line n dumpExit).x sp = n.x sp + 256 ∧
      ∀ r : Reg, 2 ≤ r.val → r.val < 31 → (line n dumpExit).x r = slot n.mem (n.x sp) r.val := by
  obtain ⟨n1, hn1⟩ : ∃ n1, n1 = exec n (.ldr 30 sp 240) := ⟨_, rfl⟩
  have hx1 : ∀ r, n1.x r = if r = 30 then slot n.mem (n.x sp) 30 else n.x r := by
    intro r
    rw [hn1]
    exact n.setX_x 30 r _
  have hmem1 : n1.mem = n.mem := by rw [hn1]; rfl
  have hsp1 : n1.x sp = n.x sp := by rw [hx1, if_neg (by decide)]
  obtain ⟨n2, hn2⟩ : ∃ n2, n2 = line n1 ((List.finRange 15).tail.reverse.map loadPair) := ⟨_, rfl⟩
  obtain ⟨hmem2, hx2⟩ := line_loadPair n1 (List.finRange 15).tail.reverse
  rw [← hn2] at hmem2 hx2
  simp only [List.mem_reverse, tailPair_cover] at hx2
  rw [hsp1, hmem1] at hx2
  rw [hmem1] at hmem2
  have hsp2 : n2.x sp = n.x sp := by rw [hx2, if_neg (by decide), hsp1]
  have hline : line n dumpExit = exec (exec n2 (.ldr 1 sp 0)) (.addImm sp sp 256) := by
    rw [hn2, hn1]
    simp only [dumpExit, line_append, line_cons, line_nil]
  have hload : ∀ r, (exec n2 (.ldr 1 sp 0)).x r =
      if r = 1 then slot n.mem (n.x sp) 0 else n2.x r := by
    intro r
    refine (n2.setX_x 1 r _).trans ?_
    rw [hmem2, hsp2]
    rfl
  have hbase : (exec n2 (.ldr 1 sp 0)).x sp = n.x sp := by
    rw [hload, if_neg (by decide), hsp2]
  have hlast : ∀ r, (line n dumpExit).x r = if r = sp then n.x sp + 256
      else if r = 1 then slot n.mem (n.x sp) 0 else n2.x r := by
    intro r
    rw [hline]
    refine ((exec n2 (.ldr 1 sp 0)).setX_x sp r _).trans ?_
    rw [hbase, hload]
  refine ⟨?_, ?_, ?_, ?_, fun r hlo hhi => ?_⟩
  · rw [hline, ← hmem2]
    rfl
  · rw [hlast, if_neg (by decide), if_neg (by decide), hx2, if_neg (by decide), hx1,
      if_neg (by decide)]
  · rw [hlast, if_neg (by decide), if_pos rfl]
  · rw [hlast, if_pos rfl]
  · have hr31 : r ≠ sp := fun heq => by
      rw [heq] at hhi
      exact absurd hhi (by decide)
    have hr1 : r ≠ 1 := fun heq => by
      rw [heq] at hlo
      exact absurd hlo (by decide)
    rw [hlast, if_neg hr31, if_neg hr1, hx2]
    by_cases h30 : r.val < 30
    · rw [if_pos ⟨hlo, h30⟩]
    · have heq : r = 30 := Fin.ext (by omega)
      rw [if_neg (fun h => h30 h.2), hx1, if_pos heq, heq]
      rfl

end Lines

section Run

variable {env : Env} {c : DumpFrame} {regframe : Word} {p : ℕ} {entry m n : A64.Machine}

/-- The state at the call of `regs_dump`. -/
structure DumpCall (entry m : A64.Machine) : Prop where
  arg : m.x 0 = entry.x sp - 256
  stack : m.x sp = entry.x sp - 256
  dump : ∀ r : Reg, slot m.mem (entry.x sp - 256) r.val = entry.x r
  outside : ∀ a, 256 ≤ (a - (entry.x sp - 256)).toNat → m.mem a = entry.mem a

theorem steps_to_dump (hpc : entry.pc = 0) :
    ∃ m, Steps dumpRegisters env entry m ∧ m.pc = 20 ∧ DumpCall entry m := by
  obtain ⟨harg, hstack, hdump, houtside⟩ := line_dumpEntry entry
  refine ⟨line entry dumpEntry, steps_line (k := [.bl] ++ dumpExit) ?_ (by decide), ?_,
    ⟨harg, hstack, hdump, houtside⟩⟩
  · rw [hpc]
    rfl
  · rw [line_pc, hpc]
    rfl

theorem wordByte_scratchWord (c : DumpFrame) (k : ℕ) {i : ℕ} (hi : i < 8) :
    wordByte (scratchWord c k) i = c.scratch (c.size - c.param + 8 * k + i) := by
  have hlt := readLE_lt c.scratch (c.size - c.param + 8 * k) 8
  unfold wordByte scratchWord
  rw [BitVec.toNat_ofNat, Nat.mod_eq_of_lt (hlt.trans_le (by decide)), readLE_byte c.scratch hi]

/-- The record, from the machine that `regs_dump` is called in. -/
theorem DumpCall.record (hm : DumpCall entry m) (hparam : c.param = 8 * p)
    (h : DumpLayout c regframe (entry.x sp - 256) 256) :
    slot (regsDump regframe c m).mem regframe 0 = entry.x sp - 256 ∧
      (∀ k, 0 < k → k < p → k < 32 →
        slot (regsDump regframe c m).mem regframe k = scratchWord c k) ∧
      ∀ r s : Reg, r.val = s.val + p →
        slot (regsDump regframe c m).mem regframe r.val = entry.x s := by
  have hp : 0 < p := by
    have hlow := h.param.1
    omega
  have hargs : (dumpArgs m).x 2 = entry.x sp - 256 := hm.stack
  have harg : (dumpArgs m).x 10 = entry.x sp - 256 := hm.arg
  have hbytes : ∀ i < 256, (regsDump regframe c m).mem (regframe + BitVec.ofNat 64 i) =
      if i < 8 then wordByte (entry.x sp - 256) i
      else if i < c.param then c.scratch (c.size - c.param + i)
      else m.mem (entry.x sp - 256 + BitVec.ofNat 64 (i - c.param)) := by
    intro i hi
    rw [← hargs] at h
    have hcopied := regsDump_record h hi
    rw [harg, hargs] at hcopied
    exact hcopied
  have hslot : ∀ k < 32, ∀ v, (∀ i < 8,
      (regsDump regframe c m).mem (regframe + BitVec.ofNat 64 (8 * k + i)) = wordByte v i) →
      slot (regsDump regframe c m).mem regframe k = v := by
    intro k hk v hv
    refine loadDouble_eq_iff.mpr fun i hi => ?_
    rw [BitVec.add_assoc, ← BitVec.ofNat_add]
    exact hv i hi
  refine ⟨hslot 0 (by norm_num) _ fun i hi => ?_, fun k hlo hkp hk => ?_, fun r s hrs => ?_⟩
  · rw [hbytes _ (by omega), if_pos (by omega), Nat.mul_zero, Nat.zero_add]
  · refine hslot k hk _ fun i hi => ?_
    rw [hbytes _ (by omega), if_neg (by omega), if_pos (by omega), wordByte_scratchWord c k hi,
      Nat.add_assoc]
  · have hr := r.isLt
    refine hslot r.val r.isLt _ fun i hi => ?_
    have hindex : 8 * r.val + i - c.param = 8 * s.val + i := by omega
    rw [hbytes _ (by omega), if_neg (by omega), if_neg (by omega), hindex, BitVec.ofNat_add,
      ← BitVec.add_assoc]
    exact loadDouble_eq_iff.mp (hm.dump s) i hi

/-- What `regs_dump` leaves behind the call. -/
structure DumpReturned (c : DumpFrame) (regframe : Word) (p : ℕ) (entry n : A64.Machine) :
    Prop where
  pc : n.pc = 21
  result : n.x 0 = regframe
  stack : n.x sp = entry.x sp - 256
  dump : ∀ r : Reg, slot n.mem (entry.x sp - 256) r.val = entry.x r
  memory : ∀ a, c.size + 256 ≤ (a - (entry.x sp - 256 - BitVec.ofNat 64 c.size)).toNat →
    (∀ i < 256, a ≠ regframe + BitVec.ofNat 64 i) → n.mem a = entry.mem a
  record_first : slot n.mem regframe 0 = entry.x sp - 256
  record_frame : ∀ k, 0 < k → k < p → k < 32 → slot n.mem regframe k = scratchWord c k
  record : ∀ r s : Reg, r.val = s.val + p → slot n.mem regframe r.val = entry.x s

theorem steps_dump (hcallee : env.callee = regsDump regframe c) (hparam : c.param = 8 * p)
    (h : DumpLayout c regframe (entry.x sp - 256) 256) (hpc : m.pc = 20)
    (hm : DumpCall entry m) :
    ∃ n, Steps dumpRegisters env m n ∧ DumpReturned c regframe p entry n := by
  obtain ⟨k, hk⟩ : ∃ k, k = m.setX 30 env.returnAddr := ⟨_, rfl⟩
  have hkx : ∀ r : Reg, r ≠ 30 → k.x r = m.x r := by
    intro r hr
    rw [hk, Machine.setX_x, if_neg hr]
  have hkmem : k.mem = m.mem := by rw [hk]; rfl
  have hcall : DumpCall entry k :=
    ⟨(hkx 0 (by decide)).trans hm.arg, (hkx sp (by decide)).trans hm.stack,
      by rw [hkmem]; exact hm.dump, by rw [hkmem]; exact hm.outside⟩
  obtain ⟨hfirst, hframe, hrecord⟩ := hcall.record hparam h
  have hstep : step dumpRegisters env m = some { regsDump regframe c k with pc := m.pc + 1 } := by
    have hfetch : dumpRegisters[m.pc]? = some .bl := by
      rw [hpc]
      rfl
    unfold step
    simp only [hfetch, hcallee, hk]
  obtain ⟨n, hn⟩ : ∃ n : A64.Machine, n = { regsDump regframe c k with pc := m.pc + 1 } := ⟨_, rfl⟩
  have hnx : n.x = (regsDump regframe c k).x := by rw [hn]
  have hnmem : n.mem = (regsDump regframe c k).mem := by rw [hn]
  rw [← hn] at hstep
  have hsp : (dumpArgs k).x 2 = entry.x sp - 256 := hcall.stack
  have hstack : ∀ j < 256, (regsDump regframe c k).mem
      (entry.x sp - 256 + BitVec.ofNat 64 j) = k.mem (entry.x sp - 256 + BitVec.ofNat 64 j) := by
    intro j hj
    rw [← hsp] at h
    have hkept := regsDump_stack h (j := j) (by omega)
    rw [hsp] at hkept
    exact hkept
  refine ⟨n, .single hstep, by rw [hn, hpc], by rw [hnx]; rfl, by rw [hnx]; exact hcall.stack,
    fun r => ?_, fun a ha hout => ?_, by rw [hnmem]; exact hfirst, by rw [hnmem]; exact hframe,
    by rw [hnmem]; exact hrecord⟩
  · have hr := r.isLt
    refine (slot_congr fun i hi => ?_).trans (hcall.dump r)
    rw [hnmem]
    exact hstack _ (by omega)
  · have hfits := h.fits
    have hcopied := regsDump_copied (m := dumpArgs k) (by rw [hsp]; exact h)
    have hrest : (regsDump regframe c k).mem a = c.enter (dumpArgs k) a := by
      refine hcopied.outside a ?_
      rintro ⟨i, hi, heq⟩
      exact hout i hi heq.symm
    obtain ⟨d, hd⟩ : ∃ d, d = (a - (entry.x sp - 256 - BitVec.ofNat 64 c.size)).toNat := ⟨_, rfl⟩
    have hat : a = entry.x sp - 256 - BitVec.ofNat 64 c.size + BitVec.ofNat 64 d := by
      rw [hd, BitVec.ofNat_toNat, BitVec.setWidth_eq, BitVec.add_comm, BitVec.sub_add_cancel]
    have hdlt : d < 2 ^ 64 := by
      rw [hd]
      exact (a - _).isLt
    have hparam' := h.param
    have henter := enter_byte (m := dumpArgs k) (by rw [hsp]; exact h) hdlt
    rw [hsp, ← hat, if_neg (by omega), if_neg (by omega)] at henter
    rw [hnmem, hrest, henter]
    refine hcall.outside a ?_
    rw [hat]
    simp only [BitVec.toNat_sub, BitVec.toNat_add, BitVec.toNat_ofNat] at ha hd ⊢
    omega

/-- Whatever the registers and the memory hold, the routine comes to its `ret`, keeps the stack
and all registers but `x0` and `x1`, and returns a record in which the registers are shifted. -/
theorem dump_registers_run (hpc : entry.pc = 0) (hcallee : env.callee = regsDump regframe c)
    (hparam : c.param = 8 * p) (h : DumpLayout c regframe (entry.x sp - 256) 256) :
    ∃ final, Steps dumpRegisters env entry final ∧ DumpReturns c regframe p entry final := by
  obtain ⟨m, hto, hmpc, hm⟩ :
      ∃ m, Steps dumpRegisters env entry m ∧ m.pc = 20 ∧ DumpCall entry m := steps_to_dump hpc
  obtain ⟨n, hcall, hn⟩ := steps_dump hcallee hparam h hmpc hm
  have hfrom : Steps dumpRegisters env n (line n dumpExit) := by
    apply steps_line (k := [])
    · rw [hn.pc, List.append_nil]
      rfl
    · decide
  obtain ⟨hmem, hx0, hx1, hsp, hrest⟩ := line_dumpExit n
  refine ⟨line n dumpExit, hto.trans (hcall.trans hfrom), ?_, hx0.trans hn.result, ?_,
    fun r hr => ?_, ?_, ?_, ?_, ?_⟩
  · rw [line_pc, hn.pc]
    rfl
  · rw [hx1, hn.stack]
    exact hn.dump 0
  · by_cases hr31 : r.val < 31
    · rw [hrest r hr hr31, hn.stack]
      exact hn.dump r
    · have hlt := r.isLt
      have heq : r = sp := Fin.ext (by change r.val = 31; omega)
      rw [heq, hsp, hn.stack, BitVec.sub_add_cancel]
  all_goals rw [hmem]
  · exact hn.memory
  · exact hn.record_first
  · exact hn.record_frame
  · exact hn.record

end Run

/-- A call with `1000 + r` in register `r`. -/
def dumpCaller : A64.Machine where
  pc := 0
  x := fun r => if r = sp then 0x1100 else BitVec.ofNat 64 (1000 + r.val)
  mem := fun _ => 0

/-- With the parameter two words below the dump, `x1` comes back as `x0` and the field of the
link register shows `x28`. -/
theorem dump_registers_run_two_words :
    ∃ final, Steps dumpRegisters ⟨0, regsDump 0x8000 smallDumpFrame⟩ dumpCaller final ∧
      final.x 1 = 1000 ∧ slot final.mem 0x8000 30 = 1028 := by
  have hlayout : DumpLayout smallDumpFrame 0x8000 (dumpCaller.x sp - 256) 256 :=
    dumpCall_layout (by decide : (0x1000 : Word).toNat ≤ 0x1000)
  have hcallee : (⟨0, regsDump 0x8000 smallDumpFrame⟩ : Env).callee =
      regsDump 0x8000 smallDumpFrame := rfl
  obtain ⟨final, hrun, hfinal⟩ := dump_registers_run (p := 2) rfl hcallee rfl hlayout
  exact ⟨final, hrun, hfinal.first, hfinal.record 30 28 rfl⟩

end Vectra.Arm64

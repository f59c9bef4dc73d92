import Vectra.Lib.CopyLoop
import Vectra.Lib.Rv64

/-!
# `dump_registers`

The routine stores the registers above the stack pointer, in the memory of its caller, and
calls `regs_dump`, which copies 256 bytes from the address of its own parameter. It then loads
the stack pointer from a slot that it has not stored. The text ends where `ret` stands, which
goes to the address in `ra`.

Register numbers: `ra` 1, `sp` 2, `gp` 3, `tp` 4, `t0`-`t2` 5-7, `s0`-`s1` 8-9, `a0`-`a7` 10-17,
`s2`-`s11` 18-27, `t3`-`t6` 28-31.
-/

namespace Vectra

open Lib Lib.Rv64

/-! ## The program text -/

/-- `sd x1, 8(sp)` … `sd x31, 248(sp)`: all but `x0`, `sp` and `t0`. -/
def dumpedRegs : List Reg :=
  [1, 3, 4, 6, 7, 8, 9, 10, 11, 12, 13, 14, 15, 16, 17, 18, 19, 20, 21, 22, 23, 24, 25, 26, 27, 28,
    29, 30, 31]

/-- `ld x31, 248(sp)` … `ld x1, 8(sp)`: all but `x0`, `sp` and `a0`. -/
def reloadedRegs : List Reg :=
  [31, 30, 29, 28, 27, 26, 25, 24, 23, 22, 21, 20, 19, 18, 17, 16, 15, 14, 13, 12, 11, 9, 8, 7, 6,
    5, 4, 3, 1]

def dumpRegisters : List Instr :=
  dumpedRegs.map saveReg ++ ([.csrw .sscratch 0, .mv 10 5, .mv 11 2] ++ ([.call] ++
    (reloadedRegs.map loadReg ++ [.ld 2 16 2])))

/-! ## `regs_dump` -/

def calleeSaved : List Reg := [2, 3, 4, 8, 9, 18, 19, 20, 21, 22, 23, 24, 25, 26, 27]

/-- What the source leaves to the compiler: the size of the stack frame, the distance of the
parameter `regs` from the stack pointer of the caller, what else the frame holds, and what is
left in the registers that a function may overwrite. -/
structure DumpFrame where
  size : ℕ
  param : ℕ
  scratch : ℕ → BitVec 8
  temps : Reg → Word

/-- The memory when `memcpy` is called: `regs` is `a0`, stored in the frame. -/
def DumpFrame.enter (c : DumpFrame) (m : Machine) : Word → BitVec 8 :=
  let bottom := m.x 2 - BitVec.ofNat 64 c.size
  storeDouble (fun a => if (a - bottom).toNat < c.size then c.scratch (a - bottom).toNat
    else m.mem a) (m.x 2 - BitVec.ofNat 64 c.param) (m.x 10)

/-- `memcpy(&regframe, &regs, sizeof(riscv_registers_t)); return &regframe;` -/
def regsDump (regframe : Word) (c : DumpFrame) (m : Machine) : Machine :=
  { m with
    reg := fun r => if r = 10 then regframe else if r ∈ calleeSaved then m.reg r else c.temps r
    mem := copyUp (fun i => regframe + BitVec.ofNat 64 i)
      (fun i => m.x 2 - BitVec.ofNat 64 c.param + BitVec.ofNat 64 i) (c.enter m) 0 256 }

/-! ## The contract -/

/-- The frame of `regs_dump` and `room` bytes of the stack from `sp` on do not wrap, the
parameter is in the frame, and `regframe` is elsewhere. -/
structure DumpLayout (c : DumpFrame) (regframe sp : Word) (room : ℕ) : Prop where
  param : 8 ≤ c.param ∧ c.param ≤ c.size
  fits : c.size + max room 256 ≤ 2 ^ 64
  apart : ∀ i < 256, c.size + max room 256 ≤
    (regframe + BitVec.ofNat 64 i - (sp - BitVec.ofNat 64 c.size)).toNat

/-- The routine comes to its `ret` with the registers of its caller, has not changed `room`
bytes of the stack, and returns a record of all registers. -/
structure DumpEnd (entry final : Machine) (room : ℕ) : Prop where
  pc : final.pc = dumpRegisters.length
  saved : ∀ r ∈ ([1, 2, 8, 9, 18, 19, 20, 21, 22, 23, 24, 25, 26, 27] : List Reg),
    final.x r = entry.x r
  stack : ∀ j < room, final.mem (entry.x 2 + BitVec.ofNat 64 j) =
    entry.mem (entry.x 2 + BitVec.ofNat 64 j)
  record : ∀ r : Reg, r ≠ 0 → slot final.mem (final.x 10) r.val = entry.x r

def DumpOk (env : Env) (entry : Machine) (room : ℕ) : Prop :=
  ∃ final, Steps dumpRegisters env entry final ∧ DumpEnd entry final room

/-- The bytes that `memcpy` reads, from the address of `regs` on. -/
def dumpImage (c : DumpFrame) (entry : Machine) (i : ℕ) : BitVec 8 :=
  if i < 8 then wordByte (entry.x 5) i
  else if i < c.param then c.scratch (c.size - c.param + i)
  else
    let k := i - c.param
    if k / 8 ∈ dumpedRegs.map Fin.val then wordByte (entry.x (Fin.ofNat 32 (k / 8))) (k % 8)
    else entry.mem (entry.x 2 + BitVec.ofNat 64 k)

/-- The stores write what is there already, the word loaded into `sp` is `sp`, and the bytes
from the address of `regs` on are the record. -/
structure DumpCondition (c : DumpFrame) (entry : Machine) (room : ℕ) : Prop where
  stored : ∀ r ∈ dumpedRegs, ∀ i < 8, 8 * r.val + i < room →
    entry.mem (entry.x 2 + BitVec.ofNat 64 (8 * r.val + i)) = wordByte (entry.x r) i
  sp : slot entry.mem (entry.x 2) 2 = entry.x 2
  image : ∀ r : Reg, r ≠ 0 → ∀ i < 8, dumpImage c entry (8 * r.val + i) = wordByte (entry.x r) i

/-! ## Distances from the bottom of the frame -/

section Layout

variable {c : DumpFrame} {regframe sp : Word} {room i j k : ℕ} {m : Machine}

theorem bottom_dist {b : Word} (hk : k < 2 ^ 64) : (b + BitVec.ofNat 64 k - b).toNat = k := by
  simp only [BitVec.toNat_sub, BitVec.toNat_add, BitVec.toNat_ofNat]
  omega

namespace DumpLayout

theorem stack_eq (h : DumpLayout c regframe sp room) (j : ℕ) :
    sp + BitVec.ofNat 64 j = sp - BitVec.ofNat 64 c.size + BitVec.ofNat 64 (c.size + j) := by
  have hfits := h.fits
  apply BitVec.eq_of_toNat_eq
  simp only [BitVec.toNat_sub, BitVec.toNat_add, BitVec.toNat_ofNat]
  omega

theorem source_eq (h : DumpLayout c regframe sp room) (i : ℕ) :
    sp - BitVec.ofNat 64 c.param + BitVec.ofNat 64 i =
      sp - BitVec.ofNat 64 c.size + BitVec.ofNat 64 (c.size - c.param + i) := by
  have hfits := h.fits
  have hparam := h.param
  apply BitVec.eq_of_toNat_eq
  simp only [BitVec.toNat_sub, BitVec.toNat_add, BitVec.toNat_ofNat]
  omega

/-- Nothing in the frame or on the stack is a byte of `regframe`. -/
theorem not_record (h : DumpLayout c regframe sp room) (hk : k < c.size + max room 256)
    (hi : i < 256) :
    sp - BitVec.ofNat 64 c.size + BitVec.ofNat 64 k ≠ regframe + BitVec.ofNat 64 i := by
  intro heq
  have hapart := h.apart i hi
  have hfits := h.fits
  rw [← heq, bottom_dist (by omega)] at hapart
  omega

end DumpLayout

/-- The memory that `memcpy` is called with, by the distance from the bottom of the frame. -/
theorem enter_byte (h : DumpLayout c regframe (m.x 2) room) (hk : k < 2 ^ 64) :
    c.enter m (m.x 2 - BitVec.ofNat 64 c.size + BitVec.ofNat 64 k) =
      if c.size - c.param ≤ k ∧ k < c.size - c.param + 8 then
        wordByte (m.x 10) (k - (c.size - c.param))
      else if k < c.size then c.scratch k
      else m.mem (m.x 2 - BitVec.ofNat 64 c.size + BitVec.ofNat 64 k) := by
  have hparam := h.param
  have hfits := h.fits
  have hat : m.x 2 - BitVec.ofNat 64 c.param =
      m.x 2 - BitVec.ofNat 64 c.size + BitVec.ofNat 64 (c.size - c.param) := by
    have hsource := h.source_eq 0
    rwa [BitVec.add_zero, Nat.add_zero] at hsource
  unfold DumpFrame.enter
  rw [hat, storeDouble_byte _ _ _ (by omega) hk]
  simp only [bottom_dist hk]

/-- `memcpy` copies the bytes from the address of `regs` on. -/
theorem regsDump_copied (h : DumpLayout c regframe (m.x 2) room) :
    Copied (fun i => regframe + BitVec.ofNat 64 i)
      (fun i => m.x 2 - BitVec.ofNat 64 c.param + BitVec.ofNat 64 i) (c.enter m)
      (regsDump regframe c m).mem (Set.Iio 256) := by
  have hstart : Copied (fun i => regframe + BitVec.ofNat 64 i)
      (fun i => m.x 2 - BitVec.ofNat 64 c.param + BitVec.ofNat 64 i) (c.enter m) (c.enter m)
      (Set.Iio 0) := by
    have hnone : Set.Iio 0 = (∅ : Set ℕ) := by simp
    rw [hnone]
    exact Copied.empty _ _ _
  have hcopied := hstart.copyUp (n := 256)
    (fun a b hab hb heq => by
      have hnat := congrArg BitVec.toNat heq
      simp only [BitVec.toNat_add, BitVec.toNat_ofNat] at hnat
      omega)
    (fun a b hab hb heq => by
      have hparam := h.param
      rw [h.source_eq b] at heq
      exact h.not_record (by omega) (by omega) heq)
  have hmem : (regsDump regframe c m).mem = copyUp (fun i => regframe + BitVec.ofNat 64 i)
      (fun i => m.x 2 - BitVec.ofNat 64 c.param + BitVec.ofNat 64 i) (c.enter m) 0 256 := by
    unfold regsDump
    simp only
  rw [hmem]
  rw [Nat.zero_add] at hcopied
  exact hcopied

/-- What is left on the stack of the caller. -/
theorem regsDump_stack (h : DumpLayout c regframe (m.x 2) room) (hj : j < max room 256) :
    (regsDump regframe c m).mem (m.x 2 + BitVec.ofNat 64 j) =
      m.mem (m.x 2 + BitVec.ofNat 64 j) := by
  have hfits := h.fits
  have hparam := h.param
  have hout : m.x 2 + BitVec.ofNat 64 j ∉
      (fun i => regframe + BitVec.ofNat 64 i) '' Set.Iio 256 := by
    rintro ⟨i, hi, heq⟩
    rw [h.stack_eq j] at heq
    exact h.not_record (by omega) hi heq.symm
  rw [(regsDump_copied h).outside _ hout, h.stack_eq j, enter_byte h (by omega),
    if_neg (by omega), if_neg (by omega)]

/-- What is in the record, when the registers of `m` are those that `dump_registers` has
stored. -/
theorem regsDump_record (h : DumpLayout c regframe (m.x 2) room) (hi : i < 256) :
    (regsDump regframe c m).mem (regframe + BitVec.ofNat 64 i) =
      if i < 8 then wordByte (m.x 10) i
      else if i < c.param then c.scratch (c.size - c.param + i)
      else m.mem (m.x 2 + BitVec.ofNat 64 (i - c.param)) := by
  have hfits := h.fits
  have hparam := h.param
  have helement := (regsDump_copied h).element i hi
  rw [h.source_eq i, enter_byte h (by omega)] at helement
  rw [helement]
  by_cases hfirst : i < 8
  · rw [if_pos (by omega), if_pos hfirst, Nat.add_sub_cancel_left]
  · rw [if_neg (by omega), if_neg hfirst]
    by_cases hframe : i < c.param
    · rw [if_pos (by omega), if_pos hframe]
    · have hindex : c.size - c.param + i = c.size + (i - c.param) := by omega
      rw [if_neg (by omega), if_neg hframe, hindex, ← h.stack_eq]

end Layout

/-! ## The run -/

section Run

variable {env : Env} {c : DumpFrame} {regframe : Word} {room k : ℕ} {entry : Machine}

/-- The memory when all registers are stored. -/
def dumpedMem (env : Env) (entry : Machine) : Word → BitVec 8 :=
  (line env entry (dumpedRegs.map saveReg)).mem

/-- The byte `k` of the frame belongs to a stored register. -/
theorem exists_dumped (hmem : k / 8 ∈ dumpedRegs.map Fin.val) :
    ∃ r ∈ dumpedRegs, Fin.ofNat 32 (k / 8) = r ∧ 8 * r.val + k % 8 = k := by
  obtain ⟨r, hr, hval⟩ := List.mem_map.mp hmem
  refine ⟨r, hr, ?_, by omega⟩
  rw [← hval]
  exact Fin.ext (Nat.mod_eq_of_lt r.isLt)

theorem dumpedMem_byte (hk : k < 2 ^ 64) :
    dumpedMem env entry (entry.x 2 + BitVec.ofNat 64 k) =
      if k / 8 ∈ dumpedRegs.map Fin.val then wordByte (entry.x (Fin.ofNat 32 (k / 8))) (k % 8)
      else entry.mem (entry.x 2 + BitVec.ofNat 64 k) := by
  obtain ⟨hslots, hothers⟩ := line_saveReg_bytes env entry dumpedRegs
  unfold dumpedMem
  split
  case isTrue hmem =>
    obtain ⟨r, hr, hreg, hindex⟩ := exists_dumped hmem
    have hbyte := hslots r hr (k % 8) (Nat.mod_lt _ (by decide))
    rw [hindex] at hbyte
    rw [hbyte, hreg]
  case isFalse hmem =>
    apply hothers k hk
    intro r hr
    by_contra hin
    exact hmem (List.mem_map.mpr ⟨r, hr, by omega⟩)

/-- The state at `ret`: what the routine does, right or wrong. -/
structure DumpFinal (env : Env) (c : DumpFrame) (regframe : Word) (entry final : Machine)
    (room : ℕ) : Prop where
  pc : final.pc = dumpRegisters.length
  reloaded : ∀ r ∈ ([1, 8, 9, 18, 19, 20, 21, 22, 23, 24, 25, 26, 27] : List Reg),
    final.x r = entry.x r
  sp : final.x 2 = slot entry.mem (entry.x 2) 2
  a0 : final.x 10 = regframe
  stack : ∀ j < max room 256, final.mem (entry.x 2 + BitVec.ofNat 64 j) =
    dumpedMem env entry (entry.x 2 + BitVec.ofNat 64 j)
  record : ∀ i < 256, final.mem (regframe + BitVec.ofNat 64 i) = dumpImage c entry i

theorem slot_congr {mem mem' : Word → BitVec 8} {base : Word}
    (h : ∀ i < 8, mem (base + BitVec.ofNat 64 (8 * k + i)) =
      mem' (base + BitVec.ofNat 64 (8 * k + i))) : slot mem base k = slot mem' base k := by
  refine loadDouble_eq_iff.mpr fun i hi => ?_
  have hbyte : slot mem' base k = slot mem' base k := rfl
  unfold slot at hbyte
  have hread := loadDouble_eq_iff.mp hbyte i hi
  rw [BitVec.add_assoc, ← BitVec.ofNat_add] at hread ⊢
  rw [h i hi]
  exact hread

/-- The state at the call. -/
structure DumpCall (env : Env) (entry m : Machine) : Prop where
  pc : m.pc = dumpedRegs.length + 3
  sp : m.x 2 = entry.x 2
  a0 : m.x 10 = entry.x 5
  mem : m.mem = dumpedMem env entry

theorem steps_to_call (hpc : entry.pc = 0) :
    ∃ m, Steps dumpRegisters env entry m ∧ DumpCall env entry m := by
  obtain ⟨hx, _, _⟩ := line_saveReg env entry dumpedRegs
  have hrun : Steps dumpRegisters env entry (line env entry (dumpedRegs.map saveReg ++
      [.csrw .sscratch 0, .mv 10 5, .mv 11 2])) := by
    apply steps_line (k := [.call] ++ (reloadedRegs.map loadReg ++ [.ld 2 16 2]))
    · rw [hpc, List.append_assoc]
      rfl
    · decide
  obtain ⟨m, hm⟩ : ∃ m, m = line env entry (dumpedRegs.map saveReg) := ⟨_, rfl⟩
  have hpc' : m.pc = dumpedRegs.length := by
    rw [hm, line_pc, hpc, List.length_map, Nat.zero_add]
  have hmem : m.mem = dumpedMem env entry := by
    rw [hm]
    rfl
  rw [line_append, ← hm] at hrun
  rw [← hm] at hx
  refine ⟨_, hrun, ?_, ?_, ?_, hmem⟩
  · rw [line_pc, hpc']
    rfl
  · rw [line_x_of_ne (by decide), hx]
  · rw [← hx]
    rfl

/-- The state behind the call. -/
structure DumpReturned (env : Env) (c : DumpFrame) (regframe : Word) (entry n : Machine)
    (room : ℕ) : Prop where
  pc : n.pc = dumpedRegs.length + 4
  sp : n.x 2 = entry.x 2
  a0 : n.x 10 = regframe
  stack : ∀ j < max room 256, n.mem (entry.x 2 + BitVec.ofNat 64 j) =
    dumpedMem env entry (entry.x 2 + BitVec.ofNat 64 j)
  record : ∀ i < 256, n.mem (regframe + BitVec.ofNat 64 i) = dumpImage c entry i

theorem steps_call {m : Machine} (hcallee : env.callee = regsDump regframe c)
    (h : DumpLayout c regframe (entry.x 2) room) (hm : DumpCall env entry m) :
    ∃ n, Steps dumpRegisters env m n ∧ DumpReturned env c regframe entry n room := by
  obtain ⟨k, hk⟩ : ∃ k, k = m.setX 1 env.returnAddr := ⟨_, rfl⟩
  have hsp : k.x 2 = entry.x 2 := by
    rw [hk]
    exact hm.sp
  have ha0 : k.x 10 = entry.x 5 := by
    rw [hk]
    exact hm.a0
  have hmem : k.mem = dumpedMem env entry := by
    rw [hk]
    exact hm.mem
  have hcall : step dumpRegisters env m = some { regsDump regframe c k with pc := m.pc + 1 } := by
    have hfetch : dumpRegisters[m.pc]? = some .call := by
      rw [hm.pc]
      rfl
    unfold step
    simp only [hfetch, hcallee, hk]
  obtain ⟨n, hn⟩ : ∃ n, n = { regsDump regframe c k with pc := m.pc + 1 } := ⟨_, rfl⟩
  have hn_mem : n.mem = (regsDump regframe c k).mem := by rw [hn]
  rw [← hn] at hcall
  rw [← hsp] at h
  refine ⟨n, .single hcall, ?_, ?_, ?_, fun j hj => ?_, fun i hi => ?_⟩
  · rw [hn, hm.pc]
  · rw [hn]
    exact hsp
  · rw [hn]
    rfl
  · rw [hn_mem, ← hmem, ← hsp]
    exact regsDump_stack h hj
  · have hcopied := regsDump_record h hi
    rw [hsp, ha0, hmem, dumpedMem_byte (by omega)] at hcopied
    rw [hn_mem, hcopied]
    rfl

theorem steps_reload {n : Machine} (hn : DumpReturned env c regframe entry n room) :
    ∃ final, Steps dumpRegisters env n final ∧ DumpFinal env c regframe entry final room := by
  have hrun : Steps dumpRegisters env n
      (line env n (reloadedRegs.map loadReg ++ [.ld 2 16 2])) := by
    apply steps_line (k := [])
    · rw [hn.pc, List.append_nil]
      rfl
    · decide
  have hslot : ∀ k < 32, slot n.mem (n.x 2) k = slot (dumpedMem env entry) (entry.x 2) k := by
    intro k hk
    rw [hn.sp]
    exact slot_congr fun i hi => hn.stack _ (by omega)
  obtain ⟨_, _, hdumped⟩ := line_saveReg env entry dumpedRegs
  have hnot : (2 : Reg) ∉ reloadedRegs := by decide
  obtain ⟨hkept, _, hloaded⟩ := line_loadReg env n hnot
  obtain ⟨q, hq⟩ : ∃ q, q = line env n (reloadedRegs.map loadReg) := ⟨_, rfl⟩
  rw [line_append, ← hq] at hrun
  rw [← hq] at hkept hloaded
  have hfinal : ∀ r, (line env q [.ld 2 16 2]).x r =
      if r = 2 ∧ r ≠ 0 then slot q.mem (q.x 2) 2 else q.x r := fun r => q.x_setX 2 r _
  have hqsp : q.x 2 = n.x 2 := by
    rw [hloaded, if_neg (fun h => hnot h.1)]
  have hpc : (line env q [.ld 2 16 2]).pc = dumpRegisters.length := by
    rw [line_pc, hq, line_pc, hn.pc]
    rfl
  have hmem : (line env q [.ld 2 16 2]).mem = n.mem := hkept
  refine ⟨_, hrun, hpc, fun r hr => ?_, ?_, ?_, ?_, ?_⟩
  · have hreg : r ≠ 2 ∧ r ≠ 0 ∧ r ∈ reloadedRegs ∧ r ∈ dumpedRegs := by
      revert r
      decide
    have hr32 := r.isLt
    rw [hfinal, if_neg (fun h => hreg.1 h.1), hloaded, if_pos ⟨hreg.2.2.1, hreg.2.1⟩,
      hslot _ r.isLt]
    refine (hdumped r.val (by omega)).trans ?_
    rw [dif_pos r.isLt, if_pos hreg.2.2.2]
  · rw [hfinal, if_pos ⟨rfl, by decide⟩, hkept, hqsp, hslot 2 (by decide)]
    refine (hdumped 2 (by decide)).trans ?_
    rw [dif_pos (by decide), if_neg (by decide)]
  · rw [hfinal, if_neg (by decide), hloaded, if_neg (by decide)]
    exact hn.a0
  · rw [hmem]
    exact hn.stack
  · rw [hmem]
    exact hn.record

theorem dump_run (hpc : entry.pc = 0) (hcallee : env.callee = regsDump regframe c)
    (h : DumpLayout c regframe (entry.x 2) room) :
    ∃ final, Steps dumpRegisters env entry final ∧ DumpFinal env c regframe entry final room := by
  obtain ⟨m, hto, hm⟩ : ∃ m, Steps dumpRegisters env entry m ∧ DumpCall env entry m :=
    steps_to_call hpc
  obtain ⟨n, hcall, hn⟩ := steps_call hcallee h hm
  obtain ⟨final, hfrom, hfinal⟩ := steps_reload hn
  exact ⟨final, hto.trans (hcall.trans hfrom), hfinal⟩

/-- Right or wrong is decided by the registers and the memory at the call. -/
theorem DumpFinal.end_iff {final : Machine} (h : DumpLayout c regframe (entry.x 2) room)
    (hfinal : DumpFinal env c regframe entry final room) :
    DumpEnd entry final room ↔ DumpCondition c entry room := by
  have hfits := h.fits
  have hrecord : ∀ r : Reg, slot final.mem regframe r.val = entry.x r ↔
      ∀ i < 8, dumpImage c entry (8 * r.val + i) = wordByte (entry.x r) i := by
    intro r
    have hr := r.isLt
    unfold slot
    rw [loadDouble_eq_iff]
    refine forall₂_congr fun i hi => ?_
    rw [BitVec.add_assoc, ← BitVec.ofNat_add, hfinal.record _ (by omega)]
  constructor
  · intro hend
    refine ⟨fun r hr i hi hroom => ?_, ?_, fun r hr => ?_⟩
    · rw [← hend.stack _ hroom, hfinal.stack _ (by omega)]
      exact (line_saveReg_bytes env entry dumpedRegs).1 r hr i hi
    · rw [← hfinal.sp]
      exact hend.saved 2 (by decide)
    · rw [← hrecord, ← hfinal.a0]
      exact hend.record r hr
  · intro hcond
    refine ⟨hfinal.pc, fun r hr => ?_, fun j hj => ?_, fun r hr => ?_⟩
    · by_cases hsp : r = 2
      · rw [hsp, hfinal.sp]
        exact hcond.sp
      · apply hfinal.reloaded
        simpa [hsp] using hr
    · rw [hfinal.stack j (by omega), dumpedMem_byte (by omega)]
      split
      case isTrue hmem =>
        obtain ⟨r, hr, hreg, hindex⟩ := exists_dumped hmem
        have hbyte := hcond.stored r hr (j % 8) (Nat.mod_lt _ (by decide)) (by omega)
        rw [hindex] at hbyte
        rw [hreg, hbyte]
      case isFalse => rfl
    · rw [hfinal.a0, hrecord]
      exact hcond.image r hr

theorem step_ret {m : Machine} (hm : m.pc = dumpRegisters.length) :
    step dumpRegisters env m = none := by
  have hfetch : dumpRegisters[m.pc]? = none := List.getElem?_eq_none hm.ge
  unfold step
  rw [hfetch]

/-- The state that the run ends in has to meet the contract. -/
theorem DumpOk.end_of_final {final : Machine} (hok : DumpOk env entry room)
    (hrun : Steps dumpRegisters env entry final)
    (hfinal : DumpFinal env c regframe entry final room) : DumpEnd entry final room := by
  obtain ⟨final', hrun', hend⟩ := hok
  have hsame := hrun'.unique_of_stopped hrun (step_ret hend.pc) (step_ret hfinal.pc)
  rwa [← hsame]

/-- The routine keeps its contract exactly when its stores change nothing, the word at
`16(sp)` is the stack pointer, and the bytes at `&regs` are the record already. -/
theorem dump_registers_ok_iff (hpc : entry.pc = 0) (hcallee : env.callee = regsDump regframe c)
    (h : DumpLayout c regframe (entry.x 2) room) :
    DumpOk env entry room ↔ DumpCondition c entry room := by
  obtain ⟨final, hrun, hfinal⟩ := dump_run hpc hcallee h
  rw [← hfinal.end_iff h]
  exact ⟨fun hok => hok.end_of_final hrun hfinal, fun hend => ⟨final, hrun, hend⟩⟩

end Run

/-! ## Two calls -/

/-- A frame of 16 bytes with the parameter at its bottom. -/
def smallDumpFrame : DumpFrame := ⟨16, 16, fun _ => 0, fun _ => 0⟩

def dumpEnv : Env := ⟨0, 0, regsDump 0x8000 smallDumpFrame⟩

/-- A call with a stack of zeros, `sp` as given, and all other registers zero. -/
def dumpCall (sp : Word) : Machine where
  pc := 0
  reg := fun r => if r = 2 then sp else 0
  csr := fun _ => 0
  mem := fun _ => 0

theorem dumpCall_layout {sp : Word} (hsp : sp.toNat ≤ 0x1000) :
    DumpLayout smallDumpFrame 0x8000 ((dumpCall sp).x 2) 256 := by
  refine ⟨by decide, by decide, fun i hi => ?_⟩
  have hframe : (0x8000 : Word).toNat = 0x8000 := rfl
  change 272 ≤ ((0x8000 : Word) + BitVec.ofNat 64 i - (sp - BitVec.ofNat 64 16)).toNat
  simp only [BitVec.toNat_sub, BitVec.toNat_add, BitVec.toNat_ofNat, hframe]
  omega

theorem wordByte_zero (i : ℕ) : wordByte 0 i = 0 := by
  unfold wordByte
  simp

theorem slot_zero (base : Word) (k : ℕ) : slot (fun _ => 0) base k = 0 := by
  refine loadDouble_eq_iff.mpr fun i _ => ?_
  rw [wordByte_zero]

/-- A value for each register. -/
def registerValue (k : ℕ) : Word := BitVec.ofNat 64 (0x1000 + 0x100 * k)

/-- A frame of 256 bytes in which an earlier call has left these values. -/
def staleDumpFrame : DumpFrame :=
  ⟨256, 256, fun i => wordByte (registerValue (i / 8)) (i % 8), fun _ => 0⟩

def staleDumpEnv : Env := ⟨0, 0, regsDump 0x8000 staleDumpFrame⟩

/-- A call with these values in the registers and, from `sp` on, in memory. -/
def staleDumpCall : Machine where
  pc := 0
  reg := fun r => registerValue r.val
  csr := fun _ => 0
  mem := fun a =>
    let offset := (a - registerValue 2).toNat
    wordByte (registerValue (offset / 8)) (offset % 8)

theorem staleDumpCall_x {r : Reg} (hr : r ≠ 0) : staleDumpCall.x r = registerValue r.val := by
  unfold Machine.x staleDumpCall
  rw [if_neg hr]

theorem staleDumpCall_mem {k i : ℕ} (hk : k < 32) (hi : i < 8) :
    staleDumpCall.mem (staleDumpCall.x 2 + BitVec.ofNat 64 (8 * k + i)) =
      wordByte (registerValue k) i := by
  have hoffset : (staleDumpCall.x 2 + BitVec.ofNat 64 (8 * k + i) - registerValue 2).toNat =
      8 * k + i := by
    rw [staleDumpCall_x (by decide)]
    exact bottom_dist (by omega)
  unfold staleDumpCall at hoffset ⊢
  simp only [hoffset]
  congr 2 <;> omega

/-- All registers differ, and the stack and the frame hold what they hold. -/
theorem dump_registers_ok_stale : DumpOk staleDumpEnv staleDumpCall 256 := by
  have hlayout : DumpLayout staleDumpFrame 0x8000 (staleDumpCall.x 2) 256 := by
    refine ⟨by decide, by decide, fun i hi => ?_⟩
    have hframe : (0x8000 : Word).toNat = 0x8000 := rfl
    have hsp : (registerValue 2).toNat = 0x1200 := rfl
    rw [staleDumpCall_x (by decide)]
    change 512 ≤ ((0x8000 : Word) + BitVec.ofNat 64 i -
      (registerValue 2 - BitVec.ofNat 64 256)).toNat
    simp only [BitVec.toNat_sub, BitVec.toNat_add, BitVec.toNat_ofNat, hframe, hsp]
    omega
  refine (dump_registers_ok_iff rfl rfl hlayout).mpr ⟨fun r hr i hi _ => ?_, ?_, fun r hr i hi => ?_⟩
  · have hne : r ≠ 0 := by
      rintro rfl
      revert hr
      decide
    rw [staleDumpCall_mem r.isLt hi, staleDumpCall_x hne]
  · refine loadDouble_eq_iff.mpr fun i hi => ?_
    rw [BitVec.add_assoc, ← BitVec.ofNat_add]
    exact (staleDumpCall_mem (k := 2) (by decide) hi).trans
      (by rw [staleDumpCall_x (by decide)]; rfl)
  · have hr' := r.isLt
    have hpos : 0 < r.val := Nat.pos_of_ne_zero fun h => hr (Fin.ext h)
    unfold dumpImage
    rw [if_neg (by omega), if_pos (by simp only [staleDumpFrame]; omega), staleDumpCall_x hr]
    simp only [staleDumpFrame]
    congr 2 <;> omega

/-- A stack of zeros at 0x1000: the routine returns with a stack pointer of 0. -/
theorem dump_registers_loses_sp :
    ¬ ∀ (env : Env) (c : DumpFrame) (regframe : Word) (entry : Machine) (room : ℕ),
      entry.pc = 0 → env.callee = regsDump regframe c →
      DumpLayout c regframe (entry.x 2) room → DumpOk env entry room := by
  intro h
  have hlayout : DumpLayout smallDumpFrame 0x8000 ((dumpCall 0x1000).x 2) 256 :=
    dumpCall_layout (by decide)
  have hcallee : dumpEnv.callee = regsDump 0x8000 smallDumpFrame := rfl
  have hok := h dumpEnv smallDumpFrame 0x8000 (dumpCall 0x1000) 256 rfl hcallee hlayout
  obtain ⟨final, hrun, hfinal⟩ := dump_run rfl hcallee hlayout
  have hsp := (hok.end_of_final hrun hfinal).saved 2 (by decide)
  rw [hfinal.sp] at hsp
  have hzero : slot (dumpCall 0x1000).mem ((dumpCall 0x1000).x 2) 2 = 0 := slot_zero _ _
  rw [hzero] at hsp
  revert hsp
  decide

end Vectra

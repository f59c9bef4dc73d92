import Vectra.Lib.A64

/-!
# The exception vectors of `exceptions.S`

The expansion of `vector` takes 160 bytes, so consecutive stubs are 256 bytes
apart, while the CPU enters slot `k` at `vectors + 0x80 * k`: every second slot
lies in the middle of a stub, behind its call.
-/

namespace Vectra.Arm64

open Lib Lib.A64
open Lib.Rv64 (Word slot slot_storeDouble storeDouble)

/-! ## The program text -/

/-- `sub sp, sp, #256` up to `mov x1, sp`; the pairs are saved in ascending order. -/
def vectorEntry (type : Word) : List Instr :=
  [.subImm sp sp 256] ++ ((List.finRange 15).map savePair ++
    [.str 30 sp 240, .addImm 0 sp 256, .str 0 sp 248, .movImm 0 type, .mov 1 sp])

/-- `ldr x30, [sp, #240]` up to `add sp, sp, #256`; the pairs are restored in descending
order. -/
def vectorExit : List Instr :=
  [.ldr 30 sp 240] ++ ((List.finRange 15).reverse.map loadPair ++ [.addImm sp sp 256])

/-- The macro `vector`, behind its `.p2align 7`. -/
def vectorStub (type : Word) : List Instr := vectorEntry type ++ ([.bl] ++ (vectorExit ++ [.eret]))

def vectorTypes : List Word := [1, 2, 3, 4, 1, 2, 3, 4, 1, 2, 3, 4, 1, 2, 3, 4]

/-- The text from `vectors` on, which itself is aligned to 2048 bytes. -/
def vectors : List Instr :=
  vectorTypes.foldl (fun code type => p2align 7 code ++ vectorStub type) []

/-- The hardware takes an exception to slot `k` of the table at `VBAR`. -/
def takeException (k : Fin 16) (m : A64.Machine) : A64.Machine := { m with pc := 0x80 * k.val / 4 }

/-! ## What a slot has to do -/

/-- The run comes to the call of `interrupt_exception_handler`, with `exc_type` in `w0` and
the address of a frame of all registers in `x1`. -/
structure CallsHandler (env : Env) (k : Fin 16) (entry call : A64.Machine) : Prop where
  steps : Steps vectors env entry call
  at_bl : vectors[call.pc]? = some .bl
  type : (call.x 0).toNat % 2 ^ 32 = k.val % 4 + 1
  frame : ∀ r : Reg, slot call.mem (call.x 1) r.val = entry.x r

/-- The handler that is called in `m` leaves the frame and the registers that the calling
convention reserves for its caller. -/
structure HandlerObeys (handler : A64.Machine → A64.Machine) (m : A64.Machine) : Prop where
  frame : ∀ r : Reg, slot (handler m).mem (m.x 1) r.val = slot m.mem (m.x 1) r.val
  saved : ∀ r : Reg, 19 ≤ r.val → r.val ≤ 29 → (handler m).x r = m.x r
  stack : (handler m).x sp = m.x sp

/-- The run goes on from the call to `eret`, where all registers are back. -/
def Restores (env : Env) (entry call : A64.Machine) : Prop :=
  ∃ final, Steps vectors env call final ∧ vectors[final.pc]? = some .eret ∧
    ∀ r, final.x r = entry.x r

/-- Slot `k` serves an exception that the machine `entry` takes. -/
def SlotServes (env : Env) (k : Fin 16) (entry : A64.Machine) : Prop :=
  ∃ call, CallsHandler env k entry call ∧
    (HandlerObeys env.callee (call.setX 30 env.returnAddr) → Restores env entry call)

/-! ## The layout -/

section Layout

variable {j i : ℕ} {type : Word}

/-- Stub `j` is the instructions from `64 * j` on. -/
theorem vectors_drop : ∀ j < 16, vectors.drop (64 * j) =
    vectorStub (BitVec.ofNat 64 (j % 4 + 1)) ++ vectors.drop (64 * j + 40) := by
  decide +kernel

theorem vectorStub_length (type : Word) : (vectorStub type).length = 40 := rfl

theorem vectors_get (hj : j < 16) (hi : i < 40) :
    vectors[64 * j + i]? = (vectorStub (BitVec.ofNat 64 (j % 4 + 1)))[i]? := by
  rw [← List.getElem?_drop, vectors_drop j hj,
    List.getElem?_append_left (by rw [vectorStub_length]; exact hi)]

/-- A stub has one call, and ends with `eret`. -/
theorem vectorStub_get : ∀ j < 4, (vectorStub (BitVec.ofNat 64 (j + 1)))[39]? = some .eret ∧
    ∀ i < 40, (vectorStub (BitVec.ofNat 64 (j + 1)))[i]? = some .bl ↔ i = 21 := by
  decide +kernel

theorem vectors_eret (hj : j < 16) : vectors[64 * j + 39]? = some .eret := by
  rw [vectors_get hj (by norm_num)]
  exact (vectorStub_get (j % 4) (Nat.mod_lt _ (by norm_num))).1

theorem vectors_bl (hj : j < 16) (hi : i < 40) : vectors[64 * j + i]? = some .bl ↔ i = 21 := by
  rw [vectors_get hj hi]
  exact (vectorStub_get (j % 4) (Nat.mod_lt _ (by norm_num))).2 i hi

end Layout

/-! ## Following a stub -/

section Stub

variable {env : Env} {m n : A64.Machine} {j : ℕ} {type : Word}

theorem pair_cover (r : Reg) : (∃ i ∈ List.finRange 15, r.val / 2 = i.val) ↔ r.val < 30 := by
  constructor
  · rintro ⟨i, _, hi⟩
    have hlt := i.isLt
    omega
  · intro hr
    exact ⟨⟨r.val / 2, by omega⟩, List.mem_finRange _, rfl⟩

/-- The saving half of a stub. -/
theorem line_vectorEntry (m : A64.Machine) (type : Word) :
    (line m (vectorEntry type)).x 0 = type ∧ (line m (vectorEntry type)).x 1 = m.x sp - 256 ∧
      (line m (vectorEntry type)).x sp = m.x sp - 256 ∧
      ∀ r : Reg, slot (line m (vectorEntry type)).mem (m.x sp - 256) r.val = m.x r := by
  obtain ⟨m1, hm1⟩ : ∃ m1, m1 = exec m (.subImm sp sp 256) := ⟨_, rfl⟩
  have hx1 : ∀ r, m1.x r = if r = sp then m.x sp - 256 else m.x r := by
    intro r
    rw [hm1]
    exact m.setX_x sp r _
  obtain ⟨m2, hm2⟩ : ∃ m2, m2 = line m1 ((List.finRange 15).map savePair) := ⟨_, rfl⟩
  obtain ⟨hx2, hslot2⟩ := line_savePair m1 (List.finRange 15)
  rw [← hm2] at hx2 hslot2
  have hbase : m1.x sp = m.x sp - 256 := by rw [hx1, if_pos rfl]
  rw [hbase] at hslot2
  have hline : line m (vectorEntry type) = line m2
      [.str 30 sp 240, .addImm 0 sp 256, .str 0 sp 248, .movImm 0 type, .mov 1 sp] := by
    rw [hm2, hm1]
    simp only [vectorEntry, line_append, line_cons, line_nil]
  have hx30 : m2.x 30 = m.x 30 := by
    rw [hx2, hx1, if_neg (by decide)]
  have hsp2 : m2.x sp = m.x sp - 256 := by rw [hx2, hbase]
  obtain ⟨n, hn⟩ : ∃ n, n = line m2
      [.str 30 sp 240, .addImm 0 sp 256, .str 0 sp 248, .movImm 0 type, .mov 1 sp] := ⟨_, rfl⟩
  have hmem : n.mem = storeDouble (storeDouble m2.mem
      (m.x sp - 256 + BitVec.ofNat 64 (8 * 30)) (m.x 30))
      (m.x sp - 256 + BitVec.ofNat 64 (8 * 31)) (m.x sp) := by
    rw [hn, ← hsp2, ← hx30]
    have hback : m.x sp = m2.x sp + 256 := by
      rw [hsp2, BitVec.sub_add_cancel]
    rw [hback]
    rfl
  rw [hline, ← hn]
  refine ⟨?_, ?_, ?_, ?_⟩
  · rw [hn]
    rfl
  · rw [hn, ← hsp2]
    rfl
  · rw [hn, ← hsp2]
    rfl
  · intro r
    have hr := r.isLt
    rw [hmem, slot_storeDouble _ _ _ (by norm_num) (by omega),
      slot_storeDouble _ _ _ (by norm_num) (by omega), hslot2 r.val hr]
    simp only [pair_cover]
    by_cases h31 : r.val = 31
    · rw [if_pos h31, show r = sp from Fin.ext h31]
    · rw [if_neg h31]
      by_cases h30 : r.val = 30
      · rw [if_pos h30, show r = 30 from Fin.ext h30]
      · rw [if_neg h30, if_pos (by omega), hx1, if_neg (fun heq => h31 (congrArg Fin.val heq))]

/-- The restoring half of a stub. -/
theorem line_vectorExit (n : A64.Machine) (r : Reg) : (line n vectorExit).x r =
    if r = sp then n.x sp + 256 else slot n.mem (n.x sp) r.val := by
  obtain ⟨n1, hn1⟩ : ∃ n1, n1 = exec n (.ldr 30 sp 240) := ⟨_, rfl⟩
  have hx1 : ∀ r, n1.x r = if r = 30 then slot n.mem (n.x sp) 30 else n.x r := by
    intro r
    rw [hn1]
    exact n.setX_x 30 r _
  have hmem1 : n1.mem = n.mem := by rw [hn1]; rfl
  obtain ⟨n2, hn2⟩ : ∃ n2, n2 = line n1 ((List.finRange 15).reverse.map loadPair) := ⟨_, rfl⟩
  have hx2 := (line_loadPair n1 (List.finRange 15).reverse).2
  rw [← hn2] at hx2
  simp only [List.mem_reverse, pair_cover] at hx2
  have hline : (line n vectorExit).x r = if r = sp then n2.x sp + 256 else n2.x r := by
    have hlast : line n vectorExit = exec n2 (.addImm sp sp 256) := by
      rw [hn2, hn1]
      simp only [vectorExit, line_append, line_cons, line_nil]
    rw [hlast]
    exact n2.setX_x sp r _
  have hsp1 : n1.x sp = n.x sp := by rw [hx1, if_neg (by decide)]
  rw [hline]
  by_cases hr : r = sp
  · rw [if_pos hr, if_pos hr, hx2, if_neg (by decide), hsp1]
  · rw [if_neg hr, if_neg hr, hx2, hsp1, hmem1]
    by_cases h30 : r.val < 30
    · rw [if_pos h30]
    · have hval : r.val ≠ 31 := fun heq => hr (Fin.ext heq)
      have hlt := r.isLt
      have heq : r = 30 := Fin.ext (by omega)
      rw [if_neg h30, hx1, if_pos heq, heq]
      rfl

/-- A stub that is entered at its start calls the handler with its type. -/
theorem steps_to_call (env : Env) (hj : j < 16) (hpc : m.pc = 64 * j) :
    ∃ call, Steps vectors env m call ∧ call.pc = 64 * j + 21 ∧
      call.x 0 = BitVec.ofNat 64 (j % 4 + 1) ∧ call.x 1 = m.x sp - 256 ∧
      call.x sp = m.x sp - 256 ∧ ∀ r : Reg, slot call.mem (call.x 1) r.val = m.x r := by
  obtain ⟨hx0, hx1, hsp, hslot⟩ := line_vectorEntry m (BitVec.ofNat 64 (j % 4 + 1))
  refine ⟨_, steps_line (k := [.bl] ++ (vectorExit ++ [.eret]) ++ vectors.drop (64 * j + 40)) ?_ ?_,
    ?_, hx0, hx1, hsp, by rw [hx1]; exact hslot⟩
  · rw [hpc, vectors_drop j hj, vectorStub, List.append_assoc]
  · intro i hi
    simp only [vectorEntry, List.mem_append, List.mem_cons, List.mem_map, List.not_mem_nil,
      or_false] at hi
    rcases hi with rfl | ⟨k, _, rfl⟩ | rfl | rfl | rfl | rfl | rfl <;> rfl
  · rw [line_pc, hpc]
    rfl

/-- Behind the call the registers are restored from the frame. -/
theorem steps_to_eret (env : Env) (hj : j < 16) (hpc : n.pc = 64 * j + 22) :
    ∃ final, Steps vectors env n final ∧ final.pc = 64 * j + 39 ∧
      ∀ r, final.x r = if r = sp then n.x sp + 256 else slot n.mem (n.x sp) r.val := by
  refine ⟨_, steps_line (k := [.eret] ++ vectors.drop (64 * j + 40)) ?_ ?_, ?_, line_vectorExit n⟩
  · rw [hpc, ← List.drop_drop, vectors_drop j hj, vectorStub]
    rfl
  · intro i hi
    simp only [vectorExit, List.mem_append, List.mem_cons, List.mem_map, List.not_mem_nil,
      or_false] at hi
    rcases hi with rfl | ⟨k, _, rfl⟩ | rfl <;> rfl
  · rw [line_pc, hpc]
    rfl

/-- The only call that is reached from within a stub is the one of that stub. -/
theorem call_in_stub (hj : j < 16) (hlo : 64 * j ≤ m.pc) (hhi : m.pc ≤ 64 * j + 39)
    (hsteps : Steps vectors env m n) (hbl : vectors[n.pc]? = some .bl) :
    n.pc = 64 * j + 21 ∧ m.pc ≤ 64 * j + 21 := by
  have hle := hsteps.pc_le
  have hbound := hsteps.pc_le_eret (vectors_eret hj) hhi
  obtain ⟨i, hi⟩ : ∃ i, n.pc = 64 * j + i := ⟨n.pc - 64 * j, by omega⟩
  rw [hi] at hbl
  have hcall := (vectors_bl hj (i := i) (by omega)).mp hbl
  omega

end Stub

/-! ## The slots -/

section Slots

variable {env : Env} {k : Fin 16} {m : A64.Machine}

/-- Every second slot lies behind the call of a stub: no handler is called. -/
theorem odd_slot_no_call (hodd : k.val % 2 = 1) {call : A64.Machine}
    (hsteps : Steps vectors env (takeException k m) call) : vectors[call.pc]? ≠ some .bl := by
  intro hbl
  have hk := k.isLt
  have hpc : (takeException k m).pc = 64 * (k.val / 2) + 32 := by
    change 0x80 * k.val / 4 = _
    omega
  have hcall := call_in_stub (j := k.val / 2) (by omega) (by omega) (by omega) hsteps hbl
  omega

/-- The other slots pass the type of the stub that stands there. -/
theorem even_slot_serves (heven : k.val % 2 = 0) :
    SlotServes env k (takeException k m) ↔ k.val / 2 % 4 = k.val % 4 := by
  have hk := k.isLt
  have hj : k.val / 2 < 16 := by omega
  have hpc : (takeException k m).pc = 64 * (k.val / 2) := by
    change 0x80 * k.val / 4 = _
    omega
  obtain ⟨call, hsteps, hcall, hx0, hx1, hsp, hframe⟩ := steps_to_call env hj hpc
  have htype : (call.x 0).toNat % 2 ^ 32 = k.val / 2 % 4 + 1 := by
    rw [hx0, BitVec.toNat_ofNat]
    omega
  have hbl : vectors[call.pc]? = some .bl := by
    rw [hcall]
    exact (vectors_bl hj (by norm_num)).mpr rfl
  constructor
  · rintro ⟨call', ⟨hsteps', hbl', htype', _⟩, _⟩
    have hcall' := (call_in_stub hj (by omega) (by omega) hsteps' hbl').1
    rw [← hsteps.unique hsteps' (by rw [hcall, hcall']), htype] at htype'
    omega
  · intro hmatch
    refine ⟨call, ⟨hsteps, hbl, by omega, hframe⟩, fun hobeys => ?_⟩
    obtain ⟨n, hn⟩ : ∃ n : A64.Machine, n = { env.callee (call.setX 30 env.returnAddr) with
      pc := call.pc + 1 } := ⟨_, rfl⟩
    have hstep : step vectors env call = some n := by
      unfold step
      rw [hbl, hn]
    have hspn : n.x sp = call.x sp := by
      rw [hn]
      change (env.callee (call.setX 30 env.returnAddr)).x sp = _
      rw [hobeys.stack, A64.Machine.setX_x, if_neg (by decide)]
    obtain ⟨final, hfinal, hpcf, hregs⟩ := steps_to_eret env (n := n) hj (by
      rw [hn]
      change call.pc + 1 = _
      omega)
    refine ⟨final, .head hstep hfinal, by rw [hpcf]; exact vectors_eret hj, fun r => ?_⟩
    rw [hregs r, hspn, hsp]
    by_cases hr : r = sp
    · rw [if_pos hr, hr, BitVec.sub_add_cancel]
    · have hslot := hobeys.frame r
      rw [A64.Machine.setX_x, if_neg (by decide), A64.Machine.setX_mem, hframe r, hx1] at hslot
      rw [if_neg hr, hn]
      exact hslot

/-- Only the slots 0 and 8 serve their exceptions, whatever the registers hold. -/
theorem vector_slot_iff (env : Env) (k : Fin 16) (m : A64.Machine) :
    SlotServes env k (takeException k m) ↔ k.val = 0 ∨ k.val = 8 := by
  have hk := k.isLt
  rcases Nat.mod_two_eq_zero_or_one k.val with heven | hodd
  · rw [even_slot_serves heven]
    omega
  · constructor
    · rintro ⟨call, hcalls, _⟩
      exact absurd hcalls.at_bl (odd_slot_no_call hodd hcalls.steps)
    · omega

/-- An exception of slot 5 never comes to the handler. -/
theorem slot_five_no_handler :
    ¬ SlotServes ⟨0, id⟩ 5 (takeException 5 ⟨0, fun _ => 0, fun _ => 0⟩) := by
  rintro ⟨call, hcalls, _⟩
  exact odd_slot_no_call (by decide) hcalls.steps hcalls.at_bl

end Slots

end Vectra.Arm64

import Vectra.Lib.Rv64

/-!
# A fragment of A64 for exception entry

General registers, the stack pointer and a byte memory; a program is a list
of instructions of four bytes each, and the program counter an index into it.
Without branches every step moves on by one instruction. A call leaves the
program: its effect is a parameter.
-/

namespace Vectra.Lib.A64

open Rv64 (Word loadDouble storeDouble slot slot_storeDouble)

/-- `x0` to `x30`, and the stack pointer as register 31. -/
abbrev Reg := Fin 32

inductive Instr
  | addImm (rd rn : Reg) (imm : Word)
  | subImm (rd rn : Reg) (imm : Word)
  | movImm (rd : Reg) (imm : Word)
  | mov (rd rn : Reg)
  | stp (rt rt2 rn : Reg) (off : Word)
  | ldp (rt rt2 rn : Reg) (off : Word)
  | str (rt rn : Reg) (off : Word)
  | ldr (rt rn : Reg) (off : Word)
  | bl
  | eret
  | nop
  deriving DecidableEq

structure Machine where
  pc : ℕ
  x : Reg → Word
  mem : Word → BitVec 8

/-- The return address of `bl`, and what the called function does. -/
structure Env where
  returnAddr : Word
  callee : Machine → Machine

/-- `.p2align n`: the code is padded to a multiple of `2 ^ n` bytes. -/
def p2align (n : ℕ) (code : List Instr) : List Instr :=
  code ++ List.replicate ((2 ^ n - 4 * code.length % 2 ^ n) % 2 ^ n / 4) .nop

namespace Machine

def setX (m : Machine) (r : Reg) (v : Word) : Machine := { m with x := Function.update m.x r v }

def next (m : Machine) : Machine := { m with pc := m.pc + 1 }

theorem setX_x (m : Machine) (r s : Reg) (v : Word) :
    (m.setX r v).x s = if s = r then v else m.x s := Function.update_apply _ _ _ _

@[simp] theorem setX_mem (m : Machine) (r : Reg) (v : Word) : (m.setX r v).mem = m.mem := rfl
@[simp] theorem setX_pc (m : Machine) (r : Reg) (v : Word) : (m.setX r v).pc = m.pc := rfl
@[simp] theorem next_x (m : Machine) : m.next.x = m.x := rfl
@[simp] theorem next_mem (m : Machine) : m.next.mem = m.mem := rfl
@[simp] theorem next_pc (m : Machine) : m.next.pc = m.pc + 1 := rfl

end Machine

/-- An instruction other than `bl` and `eret`. -/
def exec (m : Machine) : Instr → Machine
  | .addImm rd rn imm => (m.setX rd (m.x rn + imm)).next
  | .subImm rd rn imm => (m.setX rd (m.x rn - imm)).next
  | .movImm rd imm => (m.setX rd imm).next
  | .mov rd rn => (m.setX rd (m.x rn)).next
  | .stp rt rt2 rn off =>
      let mem := storeDouble m.mem (m.x rn + off) (m.x rt)
      { m with mem := storeDouble mem (m.x rn + off + 8) (m.x rt2) }.next
  | .ldp rt rt2 rn off =>
      ((m.setX rt (loadDouble m.mem (m.x rn + off))).setX rt2
        (loadDouble m.mem (m.x rn + off + 8))).next
  | .str rt rn off => { m with mem := storeDouble m.mem (m.x rn + off) (m.x rt) }.next
  | .ldr rt rn off => (m.setX rt (loadDouble m.mem (m.x rn + off))).next
  | .bl | .eret | .nop => m.next

def Instr.straight : Instr → Bool
  | .bl | .eret => false
  | _ => true

/-- One step; the machine leaves the program at `eret`. -/
def step (prog : List Instr) (env : Env) (m : Machine) : Option Machine :=
  match prog[m.pc]? with
  | none => none
  | some .eret => none
  | some .bl => some { env.callee (m.setX 30 env.returnAddr) with pc := m.pc + 1 }
  | some i => some (exec m i)

def Steps (prog : List Instr) (env : Env) : Machine → Machine → Prop :=
  Relation.ReflTransGen fun m n => step prog env m = some n

section Steps

variable {prog : List Instr} {env : Env} {m n : Machine} {i : Instr} {blk : List Instr}

theorem exec_pc (m : Machine) (i : Instr) : (exec m i).pc = m.pc + 1 := by
  cases i <;> rfl

theorem step_straight (hat : prog[m.pc]? = some i) (hi : i.straight = true) :
    step prog env m = some (exec m i) := by
  unfold step
  rw [hat]
  cases i with
  | bl => cases hi
  | eret => cases hi
  | _ => rfl

theorem step_pc (h : step prog env m = some n) : n.pc = m.pc + 1 := by
  unfold step at h
  split at h
  · cases h
  · cases h
  · cases h
    rfl
  · cases h
    exact exec_pc m _

theorem Steps.pc_le (h : Steps prog env m n) : m.pc ≤ n.pc := by
  induction h with
  | refl => exact le_refl _
  | tail _ hstep ih =>
      rw [step_pc hstep]
      omega

/-- No run goes past an `eret`. -/
theorem Steps.pc_le_eret {hi : ℕ} (h : Steps prog env m n) (heret : prog[hi]? = some .eret)
    (hm : m.pc ≤ hi) : n.pc ≤ hi := by
  induction h with
  | refl => exact hm
  | @tail a b hma hstep ih =>
      have hne : a.pc ≠ hi := by
        intro heq
        unfold step at hstep
        rw [heq, heret] at hstep
        cases hstep
      have hpc := step_pc hstep
      omega

/-- A run passes each place once. -/
theorem Steps.unique {a b : Machine} (ha : Steps prog env m a) (hb : Steps prog env m b)
    (hpc : a.pc = b.pc) : a = b := by
  have hsame : ∀ {u v : Machine}, Steps prog env u v → u.pc = v.pc → u = v := by
    intro u v huv heq
    cases Relation.ReflTransGen.cases_head huv with
    | inl h => exact h
    | inr h =>
        obtain ⟨w, hw, hwv⟩ := h
        have hnext := step_pc hw
        have hle := Steps.pc_le hwv
        omega
  have hdet : Relator.RightUnique fun m n => step prog env m = some n := by
    intro u v w hv hw
    exact Option.some.inj (hv.symm.trans hw)
  rcases Relation.ReflTransGen.total_of_right_unique hdet ha hb with hab | hba
  · exact hsame hab hpc
  · exact (hsame hba hpc.symm).symm

/-- A straight line, folded over the machine. -/
def line (m : Machine) (blk : List Instr) : Machine := blk.foldl exec m

@[simp] theorem line_nil (m : Machine) : line m [] = m := rfl

@[simp] theorem line_cons (m : Machine) (i : Instr) (blk : List Instr) :
    line m (i :: blk) = line (exec m i) blk := rfl

theorem line_append (m : Machine) (a b : List Instr) : line m (a ++ b) = line (line m a) b :=
  List.foldl_append

theorem line_pc (m : Machine) (blk : List Instr) : (line m blk).pc = m.pc + blk.length := by
  induction blk generalizing m with
  | nil => rfl
  | cons i blk ih =>
      rw [line_cons, ih, exec_pc, List.length_cons]
      omega

/-- Code that stands at the program counter as a straight line is run in one go. -/
theorem steps_line {k : List Instr} (hat : prog.drop m.pc = blk ++ k)
    (hblk : ∀ i ∈ blk, i.straight = true) : Steps prog env m (line m blk) := by
  induction blk generalizing m with
  | nil => exact .refl
  | cons i blk ih =>
      have hfetch : prog[m.pc]? = some i := by
        rw [← List.head?_drop, hat]
        rfl
      have hnext : prog.drop (exec m i).pc = blk ++ k := by
        rw [exec_pc, ← List.drop_drop, hat]
        rfl
      exact .head (step_straight hfetch (hblk i List.mem_cons_self))
        (ih hnext fun j hj => hblk j (List.mem_cons_of_mem i hj))

end Steps

/-! ## Register frames -/

def sp : Reg := 31

/-- The registers `x(2 i)` and `x(2 i + 1)` saved to, and restored from, their
doublewords of the frame at the stack pointer. -/
def savePair (i : Fin 15) : Instr :=
  .stp ⟨2 * i.val, by omega⟩ ⟨2 * i.val + 1, by omega⟩ sp (BitVec.ofNat 64 (16 * i.val))

def loadPair (i : Fin 15) : Instr :=
  .ldp ⟨2 * i.val, by omega⟩ ⟨2 * i.val + 1, by omega⟩ sp (BitVec.ofNat 64 (16 * i.val))

section Frames

variable {m : Machine} {k : ℕ}

theorem pair_offset (base : Word) (i : ℕ) :
    base + BitVec.ofNat 64 (16 * i) = base + BitVec.ofNat 64 (8 * (2 * i)) ∧
      base + BitVec.ofNat 64 (16 * i) + 8 = base + BitVec.ofNat 64 (8 * (2 * i + 1)) := by
  refine ⟨by rw [← Nat.mul_assoc], ?_⟩
  rw [BitVec.add_assoc, show (8 : Word) = BitVec.ofNat 64 8 from rfl, ← BitVec.ofNat_add]
  congr 2
  omega

theorem savePair_slot (m : Machine) (i : Fin 15) {k : ℕ} (hk : k < 32) :
    slot (exec m (savePair i)).mem (m.x sp) k =
      if k / 2 = i.val then m.x ⟨k, hk⟩ else slot m.mem (m.x sp) k := by
  obtain ⟨heven, hodd⟩ := pair_offset (m.x sp) i.val
  have hi := i.isLt
  unfold savePair exec
  simp only [Machine.next_mem]
  rw [hodd, heven, slot_storeDouble _ _ _ (by omega) (by omega),
    slot_storeDouble _ _ _ (by omega) (by omega)]
  by_cases hlast : k = 2 * i.val + 1
  · rw [if_pos hlast, if_pos (by omega)]
    simp only [hlast]
  · rw [if_neg hlast]
    by_cases hfirst : k = 2 * i.val
    · rw [if_pos hfirst, if_pos (by omega)]
      simp only [hfirst]
    · rw [if_neg hfirst, if_neg (by omega)]

/-- Saving pairs of registers fills exactly their slots. -/
theorem line_savePair (m : Machine) (is : List (Fin 15)) :
    (line m (is.map savePair)).x = m.x ∧ ∀ k, ∀ hk : k < 32,
      slot (line m (is.map savePair)).mem (m.x sp) k =
        if ∃ i ∈ is, k / 2 = i.val then m.x ⟨k, hk⟩ else slot m.mem (m.x sp) k := by
  induction is generalizing m with
  | nil => simp
  | cons i is ih =>
      obtain ⟨hx, hmem⟩ := ih (exec m (savePair i))
      refine ⟨hx, fun k hk => ?_⟩
      have hrest := hmem k hk
      change slot _ (m.x sp) k = if _ then m.x ⟨k, hk⟩ else slot _ (m.x sp) k at hrest
      rw [savePair_slot m i hk] at hrest
      rw [List.map_cons, line_cons, hrest]
      by_cases hlater : ∃ j ∈ is, k / 2 = j.val
      · obtain ⟨j, hj, heq⟩ := hlater
        rw [if_pos ⟨j, hj, heq⟩, if_pos ⟨j, List.mem_cons_of_mem i hj, heq⟩]
      · rw [if_neg hlater]
        simp only [List.exists_mem_cons_iff, hlater, or_false]

theorem loadPair_x (m : Machine) (i : Fin 15) (r : Reg) :
    (exec m (loadPair i)).x r =
      if r.val / 2 = i.val then slot m.mem (m.x sp) r.val else m.x r := by
  obtain ⟨heven, hodd⟩ := pair_offset (m.x sp) i.val
  have hi := i.isLt
  unfold loadPair exec
  simp only [Machine.next_x]
  rw [Machine.setX_x, Machine.setX_x, hodd, heven]
  by_cases hlast : r.val = 2 * i.val + 1
  · rw [if_pos (Fin.ext hlast), if_pos (by omega), hlast]
    rfl
  · rw [if_neg (fun heq => hlast (congrArg Fin.val heq))]
    by_cases hfirst : r.val = 2 * i.val
    · rw [if_pos (Fin.ext hfirst), if_pos (by omega), hfirst]
      rfl
    · rw [if_neg (fun heq => hfirst (congrArg Fin.val heq)), if_neg (by omega)]

/-- Restoring pairs of registers, none of which is the stack pointer. -/
theorem line_loadPair (m : Machine) (is : List (Fin 15)) :
    (line m (is.map loadPair)).mem = m.mem ∧ ∀ r, (line m (is.map loadPair)).x r =
      if ∃ i ∈ is, r.val / 2 = i.val then slot m.mem (m.x sp) r.val else m.x r := by
  induction is generalizing m with
  | nil => simp
  | cons i is ih =>
      obtain ⟨hmem, hregs⟩ := ih (exec m (loadPair i))
      have hsp : (exec m (loadPair i)).x sp = m.x sp := by
        have hi := i.isLt
        rw [loadPair_x, if_neg]
        change ¬ 31 / 2 = i.val
        omega
      refine ⟨hmem, fun r => ?_⟩
      rw [List.map_cons, line_cons, hregs r, hsp, loadPair_x]
      change (if _ then slot m.mem (m.x sp) r.val else _) = _
      by_cases hlater : ∃ j ∈ is, r.val / 2 = j.val
      · obtain ⟨j, hj, heq⟩ := hlater
        rw [if_pos ⟨j, hj, heq⟩, if_pos ⟨j, List.mem_cons_of_mem i hj, heq⟩]
      · rw [if_neg hlater]
        simp only [List.exists_mem_cons_iff, hlater, or_false]

end Frames

end Vectra.Lib.A64

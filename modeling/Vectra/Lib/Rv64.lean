import Vectra.Lib.Bytes
import Mathlib.Logic.Relation

/-!
# A fragment of RV64 for supervisor assembly

Registers, four control registers and a byte memory; a program is a list of
instructions and the program counter an index into it. Addresses wrap at
`2 ^ 64`. A call leaves the program: its effect is a parameter.
-/

namespace Vectra.Lib.Rv64

abbrev Word := BitVec 64

abbrev Reg := Fin 32

-- With names of their own, register literals and tests mean the same term in every module.
instance reg_neZero : NeZero 32 := ⟨by decide⟩

instance reg_lawfulBEq : LawfulBEq Reg := inferInstance

inductive Csr
  | sstatus | sepc | sscratch | satp
  deriving DecidableEq

inductive Instr
  | csrrw (rd : Reg) (csr : Csr) (rs : Reg)
  | csrr (rd : Reg) (csr : Csr)
  | csrw (csr : Csr) (rs : Reg)
  | csrc (csr : Csr) (rs : Reg)
  | addi (rd rs : Reg) (imm : Word)
  | mv (rd rs : Reg)
  | li (rd : Reg) (imm : Word)
  | la (rd : Reg)
  | srli (rd rs : Reg) (shamt : ℕ)
  | slli (rd rs : Reg) (shamt : ℕ)
  | or (rd rs1 rs2 : Reg)
  | and (rd rs1 rs2 : Reg)
  | sd (rs2 : Reg) (off : Word) (rs1 : Reg)
  | ld (rd : Reg) (off : Word) (rs1 : Reg)
  | sfenceVma
  | beqz (rs : Reg) (target : ℕ)
  | bnez (rs : Reg) (target : ℕ)
  | j (target : ℕ)
  | call
  | sret
  deriving DecidableEq

structure Machine where
  pc : ℕ
  reg : Reg → Word
  csr : Csr → Word
  mem : Word → BitVec 8

/-- What the program links to: the symbol that `la` loads, the return
address of `call`, and what the called function does. -/
structure Env where
  symbol : Word
  returnAddr : Word
  callee : Machine → Machine

/-! ## Doublewords -/

def loadDouble (mem : Word → BitVec 8) (a : Word) : Word :=
  BitVec.ofNat 64 (readLE (fun i => mem (a + BitVec.ofNat 64 i)) 0 8)

def storeDouble (mem : Word → BitVec 8) (a v : Word) : Word → BitVec 8 :=
  fun x => if (x - a).toNat < 8 then BitVec.ofNat 8 (v.toNat / 256 ^ (x - a).toNat) else mem x

@[simp] theorem loadDouble_storeDouble (mem : Word → BitVec 8) (a v : Word) :
    loadDouble (storeDouble mem a v) a = v := by
  have hread : readLE (fun i => storeDouble mem a v (a + BitVec.ofNat 64 i)) 0 8 =
      v.toNat % 256 ^ 8 := by
    apply readLE_of_bytes
    intro i hi
    have hoff : (a + BitVec.ofNat 64 (0 + i) - a).toNat = i := by
      simp only [BitVec.toNat_sub, BitVec.toNat_add, BitVec.toNat_ofNat]
      omega
    simp only [storeDouble, hoff, if_pos hi]
  unfold loadDouble
  rw [hread]
  apply BitVec.eq_of_toNat_eq
  have hv := v.isLt
  simp only [BitVec.toNat_ofNat]
  omega

/-- A store is not seen by a load at least eight bytes away. -/
theorem loadDouble_storeDouble_of_far (mem : Word → BitVec 8) {a b : Word} (v : Word)
    (hlo : 8 ≤ (b - a).toNat) (hhi : (b - a).toNat + 8 ≤ 2 ^ 64) :
    loadDouble (storeDouble mem a v) b = loadDouble mem b := by
  have hread : readLE (fun i => storeDouble mem a v (b + BitVec.ofNat 64 i)) 0 8 =
      readLE (fun i => mem (b + BitVec.ofNat 64 i)) 0 8 := by
    apply readLE_congr
    intro i _ hi
    have hoff : (b + BitVec.ofNat 64 i - a).toNat = (b - a).toNat + i := by
      simp only [BitVec.toNat_sub, BitVec.toNat_add, BitVec.toNat_ofNat] at *
      omega
    simp only [storeDouble, hoff]
    rw [if_neg (by omega)]
  unfold loadDouble
  rw [hread]

/-- The `i`-th byte of a doubleword. -/
def wordByte (v : Word) (i : ℕ) : BitVec 8 := BitVec.ofNat 8 (v.toNat / 256 ^ i)

theorem loadDouble_eq_iff {mem : Word → BitVec 8} {a v : Word} :
    loadDouble mem a = v ↔ ∀ i < 8, mem (a + BitVec.ofNat 64 i) = wordByte v i := by
  unfold loadDouble wordByte
  constructor
  · rintro rfl i hi
    have hlt := readLE_lt (fun i => mem (a + BitVec.ofNat 64 i)) 0 8
    have hbyte := readLE_byte (fun i => mem (a + BitVec.ofNat 64 i)) (a := 0) hi
    rw [BitVec.toNat_ofNat, Nat.mod_eq_of_lt (hlt.trans_le (by decide)), hbyte, Nat.zero_add]
  · intro h
    have hread : readLE (fun i => mem (a + BitVec.ofNat 64 i)) 0 8 = v.toNat % 256 ^ 8 := by
      apply readLE_of_bytes
      intro i hi
      rw [Nat.zero_add]
      exact h i hi
    apply BitVec.eq_of_toNat_eq
    have hv := v.isLt
    rw [hread, BitVec.toNat_ofNat]
    omega

/-- A store seen byte by byte, with both addresses as distances from a base. -/
theorem storeDouble_byte (mem : Word → BitVec 8) (base v : Word) {j k : ℕ} (hj : j + 8 ≤ 2 ^ 64)
    (hk : k < 2 ^ 64) :
    storeDouble mem (base + BitVec.ofNat 64 j) v (base + BitVec.ofNat 64 k) =
      if j ≤ k ∧ k < j + 8 then wordByte v (k - j) else mem (base + BitVec.ofNat 64 k) := by
  have hoff : (base + BitVec.ofNat 64 k - (base + BitVec.ofNat 64 j)).toNat =
      (2 ^ 64 - j + k) % 2 ^ 64 := by
    simp only [BitVec.toNat_sub, BitVec.toNat_add, BitVec.toNat_ofNat]
    omega
  unfold storeDouble wordByte
  rw [hoff]
  by_cases hin : j ≤ k ∧ k < j + 8
  · have hdist : (2 ^ 64 - j + k) % 2 ^ 64 = k - j := by omega
    rw [if_pos hin, hdist, if_pos (by omega)]
  · rw [if_neg hin, if_neg (by omega)]

namespace Machine

/-- Register `x0` reads as zero. -/
def x (m : Machine) (r : Reg) : Word := if r = 0 then 0 else m.reg r

/-- Writes to `x0` are dropped by `x`. -/
def setX (m : Machine) (r : Reg) (v : Word) : Machine :=
  { m with reg := Function.update m.reg r v }

def setCsr (m : Machine) (c : Csr) (v : Word) : Machine :=
  { m with csr := Function.update m.csr c v }

def next (m : Machine) : Machine := { m with pc := m.pc + 1 }

@[simp] theorem x_zero (m : Machine) : m.x 0 = 0 := rfl

theorem x_setX (m : Machine) (r s : Reg) (v : Word) :
    (m.setX r v).x s = if s = r ∧ s ≠ 0 then v else m.x s := by
  unfold x setX
  by_cases hs : s = 0
  · simp [hs]
  · by_cases hsr : s = r
    · subst hsr
      simp [hs]
    · simp [hs, hsr]

@[simp] theorem setX_csr (m : Machine) (r : Reg) (v : Word) : (m.setX r v).csr = m.csr := rfl
@[simp] theorem setX_mem (m : Machine) (r : Reg) (v : Word) : (m.setX r v).mem = m.mem := rfl
@[simp] theorem setX_pc (m : Machine) (r : Reg) (v : Word) : (m.setX r v).pc = m.pc := rfl
@[simp] theorem setCsr_x (m : Machine) (c : Csr) (v : Word) : (m.setCsr c v).x = m.x := rfl
@[simp] theorem setCsr_mem (m : Machine) (c : Csr) (v : Word) : (m.setCsr c v).mem = m.mem := rfl
@[simp] theorem setCsr_pc (m : Machine) (c : Csr) (v : Word) : (m.setCsr c v).pc = m.pc := rfl
@[simp] theorem setCsr_csr (m : Machine) (c d : Csr) (v : Word) :
    (m.setCsr c v).csr d = if d = c then v else m.csr d := by
  unfold setCsr
  exact Function.update_apply _ _ _ _
@[simp] theorem next_x (m : Machine) : m.next.x = m.x := rfl
@[simp] theorem next_csr (m : Machine) : m.next.csr = m.csr := rfl
@[simp] theorem next_mem (m : Machine) : m.next.mem = m.mem := rfl
@[simp] theorem next_pc (m : Machine) : m.next.pc = m.pc + 1 := rfl

end Machine

/-! ## Execution -/

/-- An instruction that goes on to the next one. -/
def exec (env : Env) (m : Machine) : Instr → Machine
  | .csrrw rd c rs => ((m.setX rd (m.csr c)).setCsr c (m.x rs)).next
  | .csrr rd c => (m.setX rd (m.csr c)).next
  | .csrw c rs => (m.setCsr c (m.x rs)).next
  | .csrc c rs => (m.setCsr c (m.csr c &&& ~~~m.x rs)).next
  | .addi rd rs imm => (m.setX rd (m.x rs + imm)).next
  | .mv rd rs => (m.setX rd (m.x rs)).next
  | .li rd imm => (m.setX rd imm).next
  | .la rd => (m.setX rd env.symbol).next
  | .srli rd rs n => (m.setX rd (m.x rs >>> n)).next
  | .slli rd rs n => (m.setX rd (m.x rs <<< n)).next
  | .or rd rs1 rs2 => (m.setX rd (m.x rs1 ||| m.x rs2)).next
  | .and rd rs1 rs2 => (m.setX rd (m.x rs1 &&& m.x rs2)).next
  | .sd rs2 off rs1 => { m with mem := storeDouble m.mem (m.x rs1 + off) (m.x rs2) }.next
  | .ld rd off rs1 => (m.setX rd (loadDouble m.mem (m.x rs1 + off))).next
  | .sfenceVma | .beqz _ _ | .bnez _ _ | .j _ | .call | .sret => m.next

def Instr.straight : Instr → Bool
  | .beqz _ _ | .bnez _ _ | .j _ | .call | .sret => false
  | _ => true

/-- One step; the machine leaves the program at `sret`. -/
def step (prog : List Instr) (env : Env) (m : Machine) : Option Machine :=
  match prog[m.pc]? with
  | none => none
  | some .sret => none
  | some (.beqz rs target) => some (if m.x rs = 0 then { m with pc := target } else m.next)
  | some (.bnez rs target) => some (if m.x rs ≠ 0 then { m with pc := target } else m.next)
  | some (.j target) => some { m with pc := target }
  | some .call => some { env.callee (m.setX 1 env.returnAddr) with pc := m.pc + 1 }
  | some i => some (exec env m i)

def Steps (prog : List Instr) (env : Env) : Machine → Machine → Prop :=
  Relation.ReflTransGen fun m n => step prog env m = some n

variable {prog : List Instr} {env : Env} {m : Machine} {i : Instr} {blk : List Instr}

/-- A run that has stopped has nowhere else to go. -/
theorem Steps.unique_of_stopped {a b : Machine} (ha : Steps prog env m a) (hb : Steps prog env m b)
    (hsa : step prog env a = none) (hsb : step prog env b = none) : a = b := by
  have hdet : Relator.RightUnique fun m n => step prog env m = some n := by
    intro u v w hv hw
    exact Option.some.inj (hv.symm.trans hw)
  have hstuck : ∀ {u v : Machine}, step prog env u = none → Steps prog env u v → u = v := by
    intro u v hu huv
    cases Relation.ReflTransGen.cases_head huv with
    | inl heq => exact heq
    | inr hstep =>
        obtain ⟨w, hw, _⟩ := hstep
        rw [hu] at hw
        cases hw
  rcases Relation.ReflTransGen.total_of_right_unique hdet ha hb with hab | hba
  · exact hstuck hsa hab
  · exact (hstuck hsb hba).symm

theorem step_sret (hat : prog[m.pc]? = some .sret) : step prog env m = none := by
  unfold step
  rw [hat]

theorem step_straight (hat : prog[m.pc]? = some i) (hi : i.straight = true) :
    step prog env m = some (exec env m i) := by
  unfold step
  rw [hat]
  cases i with
  | beqz rs target => cases hi
  | bnez rs target => cases hi
  | j target => cases hi
  | call => cases hi
  | sret => cases hi
  | _ => rfl

theorem exec_pc (env : Env) (m : Machine) (i : Instr) : (exec env m i).pc = m.pc + 1 := by
  cases i <;> rfl

/-- A straight line, folded over the machine. -/
def line (env : Env) (m : Machine) (blk : List Instr) : Machine := blk.foldl (exec env) m

@[simp] theorem line_nil (env : Env) (m : Machine) : line env m [] = m := rfl

@[simp] theorem line_cons (env : Env) (m : Machine) (i : Instr) (blk : List Instr) :
    line env m (i :: blk) = line env (exec env m i) blk := rfl

theorem line_append (env : Env) (m : Machine) (a b : List Instr) :
    line env m (a ++ b) = line env (line env m a) b := List.foldl_append

theorem line_pc (env : Env) (m : Machine) (blk : List Instr) :
    (line env m blk).pc = m.pc + blk.length := by
  induction blk generalizing m with
  | nil => rfl
  | cons i blk ih =>
      rw [line_cons, ih, exec_pc, List.length_cons]
      omega

/-- The register that an instruction writes. -/
def Instr.dest : Instr → Option Reg
  | .csrrw rd _ _ | .csrr rd _ | .addi rd _ _ | .mv rd _ | .li rd _ | .la rd | .srli rd _ _
  | .slli rd _ _ | .or rd _ _ | .and rd _ _ | .ld rd _ _ => some rd
  | _ => none

theorem exec_x_of_ne {r : Reg} (h : i.dest ≠ some r) : (exec env m i).x r = m.x r := by
  have hset : ∀ rd v, rd ≠ r → (m.setX rd v).x r = m.x r := by
    intro rd v hne
    rw [Machine.x_setX, if_neg (fun heq => hne heq.1.symm)]
  have hne : ∀ rd, some rd ≠ some r → rd ≠ r := fun rd hsome heq => hsome (by rw [heq])
  cases i <;> first | rfl | exact hset _ _ (hne _ h)

/-- A register that no instruction of a line writes. -/
theorem line_x_of_ne {r : Reg} (h : ∀ i ∈ blk, i.dest ≠ some r) :
    (line env m blk).x r = m.x r := by
  induction blk generalizing m with
  | nil => rfl
  | cons i blk ih =>
      rw [line_cons, ih fun k hk => h k (List.mem_cons_of_mem i hk)]
      exact exec_x_of_ne (h i List.mem_cons_self)

/-- The control register that an instruction writes. -/
def Instr.csrDest : Instr → Option Csr
  | .csrrw _ c _ | .csrw c _ | .csrc c _ => some c
  | _ => none

/-- A control register that no instruction of a line writes. -/
theorem line_csr_of_ne {c : Csr} (h : ∀ i ∈ blk, i.csrDest ≠ some c) :
    (line env m blk).csr c = m.csr c := by
  induction blk generalizing m with
  | nil => rfl
  | cons i blk ih =>
      rw [line_cons, ih fun k hk => h k (List.mem_cons_of_mem i hk)]
      have hi := h i List.mem_cons_self
      have hne : ∀ d, some d ≠ some c → c ≠ d := fun d hsome heq => hsome (by rw [heq])
      cases i <;> first | rfl | exact Function.update_of_ne (hne _ hi) _ _

/-- Code that stands at the program counter as a straight line is run in one go. -/
theorem steps_line {k : List Instr} (hat : prog.drop m.pc = blk ++ k)
    (hblk : ∀ i ∈ blk, i.straight = true) : Steps prog env m (line env m blk) := by
  induction blk generalizing m with
  | nil => exact .refl
  | cons i blk ih =>
      have hfetch : prog[m.pc]? = some i := by
        rw [← List.head?_drop, hat]
        rfl
      have hnext : prog.drop (exec env m i).pc = blk ++ k := by
        rw [exec_pc, ← List.drop_drop, hat]
        rfl
      exact .head (step_straight hfetch (hblk i List.mem_cons_self))
        (ih hnext fun j hj => hblk j (List.mem_cons_of_mem i hj))

/-- A run from the start of a straight line that ends with `sret` is still inside the line. -/
theorem Steps.in_line {n : Machine} (h : Steps prog env m n) (hat : prog.drop m.pc = blk ++ [.sret])
    (hblk : ∀ i ∈ blk, i.straight = true) :
    ∃ j ≤ blk.length, n = line env m (blk.take j) ∧ prog.drop n.pc = blk.drop j ++ [.sret] := by
  induction h with
  | refl => exact ⟨0, Nat.zero_le _, rfl, hat⟩
  | @tail u v _ hstep ih =>
      obtain ⟨j, hj, hu, hdrop⟩ := ih
      have hfetch : prog[u.pc]? = (blk.drop j ++ [Instr.sret]).head? := by
        rw [← hdrop, List.head?_drop]
      rcases Nat.lt_or_ge j blk.length with hlt | hge
      · rw [List.drop_eq_getElem_cons hlt] at hfetch hdrop
        rw [step_straight hfetch (hblk _ (List.getElem_mem hlt))] at hstep
        cases hstep
        refine ⟨j + 1, hlt, ?_, ?_⟩
        · rw [List.take_succ_eq_append_getElem hlt, line_append, ← hu]
          rfl
        · rw [exec_pc, ← List.drop_drop, hdrop]
          rfl
      · rw [List.drop_eq_nil_of_le hge] at hfetch
        rw [step_sret hfetch] at hstep
        cases hstep

/-! ## Memory off a frame -/

/-- Two memories that are the same but for the `n` bytes from `base` on. -/
def SameOutside (base : Word) (n : ℕ) (mem mem' : Word → BitVec 8) : Prop :=
  ∀ a : Word, n ≤ (a - base).toNat → mem' a = mem a

namespace SameOutside

variable {base : Word} {n : ℕ} {mem mem' mem'' : Word → BitVec 8}

theorem refl (base : Word) (n : ℕ) (mem : Word → BitVec 8) : SameOutside base n mem mem :=
  fun _ _ => rfl

theorem trans (h : SameOutside base n mem mem') (k : SameOutside base n mem' mem'') :
    SameOutside base n mem mem'' := fun a ha => (k a ha).trans (h a ha)

theorem storeDouble (h : SameOutside base n mem mem') {off : Word} (hoff : off.toNat + 8 ≤ n)
    (v : Word) : SameOutside base n mem (storeDouble mem' (base + off) v) := by
  intro a ha
  have hfar : ¬ (a - (base + off)).toNat < 8 := by
    simp only [BitVec.toNat_sub, BitVec.toNat_add] at *
    omega
  unfold Rv64.storeDouble
  rw [if_neg hfar]
  exact h a ha

/-- Nothing at or above the end of a frame that does not wrap. -/
theorem above (h : SameOutside base n mem mem')
    {top a : Word} (htop : top = base + BitVec.ofNat 64 n)
    (hn : n ≤ top.toNat) (ha : top ≤ a) : mem' a = mem a := by
  refine h a ?_
  have hlt := top.isLt
  rw [BitVec.le_def] at ha
  subst htop
  simp only [BitVec.toNat_sub, BitVec.toNat_add, BitVec.toNat_ofNat] at *
  omega

end SameOutside

/-- Leaves `x2` alone, and stores in the `n` bytes from `x2` on only. -/
def Instr.inFrame (n : ℕ) : Instr → Bool
  | .sd _ off rs1 => rs1 = 2 && off.toNat + 8 ≤ n
  | i => i.dest ≠ some 2

theorem line_sameOutside {n : ℕ} (h : ∀ i ∈ blk, i.inFrame n = true) :
    SameOutside (m.x 2) n m.mem (line env m blk).mem := by
  induction blk generalizing m with
  | nil => exact SameOutside.refl _ _ _
  | cons i blk ih =>
      have hi := h i List.mem_cons_self
      have hsp : (exec env m i).x 2 = m.x 2 := by
        refine exec_x_of_ne ?_
        cases i with
        | sd rs2 off rs1 => exact fun hsome => by cases hsome
        | _ => exact of_decide_eq_true hi
      have hfirst : SameOutside (m.x 2) n m.mem (exec env m i).mem := by
        cases i with
        | sd rs2 off rs1 =>
            simp only [Instr.inFrame, Bool.and_eq_true, decide_eq_true_eq] at hi
            rw [← hi.1]
            exact (SameOutside.refl _ _ _).storeDouble hi.2 _
        | _ => exact SameOutside.refl _ _ _
      have hrest := ih (m := exec env m i) fun k hk => h k (List.mem_cons_of_mem i hk)
      rw [hsp] at hrest
      exact hfirst.trans hrest

/-! ## Two runs of one line -/

/-- The registers and control registers that are known to be the same in two machines. -/
structure Known where
  reg : Reg → Bool
  csr : Csr → Bool

structure Agree (k : Known) (m n : Machine) : Prop where
  reg : ∀ r, k.reg r = true → m.x r = n.x r
  csr : ∀ c, k.csr c = true → m.csr c = n.csr c

/-- A result is known when everything that it is computed from is; the memory never is. -/
def Known.after (k : Known) : Instr → Known
  | .csrrw rd c rs => ⟨Function.update k.reg rd (k.csr c), Function.update k.csr c (k.reg rs)⟩
  | .csrr rd c => ⟨Function.update k.reg rd (k.csr c), k.csr⟩
  | .csrw c rs => ⟨k.reg, Function.update k.csr c (k.reg rs)⟩
  | .csrc c rs => ⟨k.reg, Function.update k.csr c (k.csr c && k.reg rs)⟩
  | .addi rd rs _ | .mv rd rs | .srli rd rs _ | .slli rd rs _ =>
      ⟨Function.update k.reg rd (k.reg rs), k.csr⟩
  | .or rd rs1 rs2 | .and rd rs1 rs2 =>
      ⟨Function.update k.reg rd (k.reg rs1 && k.reg rs2), k.csr⟩
  | .li rd _ | .la rd => ⟨Function.update k.reg rd true, k.csr⟩
  | .ld rd _ _ => ⟨Function.update k.reg rd false, k.csr⟩
  | .sd _ _ _ | .sfenceVma | .beqz _ _ | .bnez _ _ | .j _ | .call | .sret => k

namespace Agree

variable {k : Known} {n : Machine} {b : Bool} {v w : Word}

theorem setX (h : Agree k m n) (r : Reg) (hv : b = true → v = w) :
    Agree ⟨Function.update k.reg r b, k.csr⟩ (m.setX r v) (n.setX r w) := by
  refine ⟨fun s hs => ?_, h.csr⟩
  rw [Machine.x_setX, Machine.x_setX]
  by_cases hsr : s = r
  · subst hsr
    rw [hv (by simpa using hs)]
    by_cases hzero : s = 0
    · simp [hzero]
    · simp [hzero]
  · rw [if_neg fun heq => hsr heq.1, if_neg fun heq => hsr heq.1]
    exact h.reg s (by simpa [hsr] using hs)

theorem setCsr (h : Agree k m n) (c : Csr) (hv : b = true → v = w) :
    Agree ⟨k.reg, Function.update k.csr c b⟩ (m.setCsr c v) (n.setCsr c w) := by
  refine ⟨h.reg, fun d hd => ?_⟩
  rw [Machine.setCsr_csr, Machine.setCsr_csr]
  by_cases hdc : d = c
  · subst hdc
    rw [if_pos rfl, if_pos rfl]
    exact hv (by simpa using hd)
  · rw [if_neg hdc, if_neg hdc]
    exact h.csr d (by simpa [hdc] using hd)

theorem next (h : Agree k m n) : Agree k m.next n.next := ⟨h.reg, h.csr⟩

theorem exec (h : Agree k m n) (i : Instr) :
    Agree (k.after i) (exec env m i) (exec env n i) := by
  cases i with
  | csrrw rd c rs => exact ((h.setX rd (h.csr c)).setCsr c (h.reg rs)).next
  | csrr rd c => exact (h.setX rd (h.csr c)).next
  | csrw c rs => exact (h.setCsr c (h.reg rs)).next
  | csrc c rs =>
      refine (h.setCsr c fun hboth => ?_).next
      obtain ⟨hc, hrs⟩ := Bool.and_eq_true_iff.mp hboth
      rw [h.csr c hc, h.reg rs hrs]
  | addi rd rs imm => exact (h.setX rd fun hrs => by rw [h.reg rs hrs]).next
  | mv rd rs => exact (h.setX rd (h.reg rs)).next
  | srli rd rs shamt => exact (h.setX rd fun hrs => by rw [h.reg rs hrs]).next
  | slli rd rs shamt => exact (h.setX rd fun hrs => by rw [h.reg rs hrs]).next
  | or rd rs1 rs2 =>
      refine (h.setX rd fun hboth => ?_).next
      obtain ⟨h1, h2⟩ := Bool.and_eq_true_iff.mp hboth
      rw [h.reg rs1 h1, h.reg rs2 h2]
  | and rd rs1 rs2 =>
      refine (h.setX rd fun hboth => ?_).next
      obtain ⟨h1, h2⟩ := Bool.and_eq_true_iff.mp hboth
      rw [h.reg rs1 h1, h.reg rs2 h2]
  | li rd imm => exact (h.setX rd fun _ => rfl).next
  | la rd => exact (h.setX rd fun _ => rfl).next
  | ld rd off rs => exact (h.setX rd fun hfalse => absurd hfalse Bool.false_ne_true).next
  | _ => exact ⟨h.reg, h.csr⟩

/-- What is known after a line is computed from the line alone. -/
theorem line (h : Agree k m n) (env : Env) (blk : List Instr) :
    Agree (blk.foldl Known.after k) (line env m blk) (line env n blk) := by
  induction blk generalizing k m n with
  | nil => exact h
  | cons i blk ih => exact ih (h.exec i)

end Agree

/-! ## Register frames -/

/-- The `k`-th doubleword of a frame. -/
def slot (mem : Word → BitVec 8) (base : Word) (k : ℕ) : Word :=
  loadDouble mem (base + BitVec.ofNat 64 (8 * k))

/-- Register `r` saved to, and restored from, the doubleword `r` of the frame at `x2`. -/
def saveReg (r : Reg) : Instr := .sd r (BitVec.ofNat 64 (8 * r.val)) 2

def loadReg (r : Reg) : Instr := .ld r (BitVec.ofNat 64 (8 * r.val)) 2

theorem slot_storeDouble (mem : Word → BitVec 8) (base v : Word) {j k : ℕ} (hj : j < 512)
    (hk : k < 512) : slot (storeDouble mem (base + BitVec.ofNat 64 (8 * j)) v) base k =
      if k = j then v else slot mem base k := by
  unfold slot
  by_cases hkj : k = j
  · rw [hkj, if_pos rfl, loadDouble_storeDouble]
  · rw [if_neg hkj]
    apply loadDouble_storeDouble_of_far
    all_goals
      simp only [BitVec.toNat_sub, BitVec.toNat_add, BitVec.toNat_ofNat]
      omega

/-- Saving a list of registers fills exactly their slots. -/
theorem line_saveReg (env : Env) (m : Machine) (rs : List Reg) :
    (line env m (rs.map saveReg)).x = m.x ∧ (line env m (rs.map saveReg)).csr = m.csr ∧
      ∀ k < 512, slot (line env m (rs.map saveReg)).mem (m.x 2) k =
        if h : k < 32 then (if (⟨k, h⟩ : Reg) ∈ rs then m.x ⟨k, h⟩ else slot m.mem (m.x 2) k)
        else slot m.mem (m.x 2) k := by
  induction rs generalizing m with
  | nil => simp
  | cons r rs ih =>
      obtain ⟨hx, hcsr, hmem⟩ := ih (exec env m (saveReg r))
      refine ⟨hx, hcsr, ?_⟩
      intro k hk
      have hfirst : slot (exec env m (saveReg r)).mem (m.x 2) k =
          if k = r.val then m.x r else slot m.mem (m.x 2) k :=
        slot_storeDouble m.mem (m.x 2) (m.x r) (by omega) hk
      have hstep := hmem k hk
      change slot (line env (exec env m (saveReg r)) (rs.map saveReg)).mem (m.x 2) k = _ at hstep
      rw [List.map_cons, line_cons, hstep]
      change (if h : k < 32 then (if (⟨k, h⟩ : Reg) ∈ rs then m.x ⟨k, h⟩
        else slot (exec env m (saveReg r)).mem (m.x 2) k)
        else slot (exec env m (saveReg r)).mem (m.x 2) k) = _
      rw [hfirst]
      by_cases hk32 : k < 32
      · rw [dif_pos hk32, dif_pos hk32]
        by_cases hkr : k = r.val
        · have heq : (⟨k, hk32⟩ : Reg) = r := Fin.ext hkr
          simp [hkr]
        · have hne : (⟨k, hk32⟩ : Reg) ≠ r := fun heq => hkr (by rw [← heq])
          simp [hkr, hne]
      · have hkr : k ≠ r.val := by omega
        rw [dif_neg hk32, dif_neg hk32, if_neg hkr]

/-- Saving a list of registers, byte by byte: the bytes of the slots, and all others. -/
theorem line_saveReg_bytes (env : Env) (m : Machine) (rs : List Reg) :
    (∀ r ∈ rs, ∀ i < 8, (line env m (rs.map saveReg)).mem
      (m.x 2 + BitVec.ofNat 64 (8 * r.val + i)) = wordByte (m.x r) i) ∧
    ∀ k < 2 ^ 64, (∀ r ∈ rs, k < 8 * r.val ∨ 8 * r.val + 8 ≤ k) →
      (line env m (rs.map saveReg)).mem (m.x 2 + BitVec.ofNat 64 k) =
        m.mem (m.x 2 + BitVec.ofNat 64 k) := by
  induction rs generalizing m with
  | nil => exact ⟨by simp, fun _ _ _ => rfl⟩
  | cons r rs ih =>
      obtain ⟨hslots, hothers⟩ := ih (exec env m (saveReg r))
      have hr := r.isLt
      have hfirst : ∀ k < 2 ^ 64, (exec env m (saveReg r)).mem (m.x 2 + BitVec.ofNat 64 k) =
          if 8 * r.val ≤ k ∧ k < 8 * r.val + 8 then wordByte (m.x r) (k - 8 * r.val)
          else m.mem (m.x 2 + BitVec.ofNat 64 k) := fun k hk =>
        storeDouble_byte m.mem (m.x 2) (m.x r) (by omega) hk
      refine ⟨fun s hs i hi => ?_, fun k hk hout => ?_⟩
      · have hlt := s.isLt
        by_cases hmem : s ∈ rs
        · exact hslots s hmem i hi
        · have hsr : s = r := (List.mem_cons.mp hs).resolve_right hmem
          subst hsr
          have hsame := hothers (8 * s.val + i) (by omega) fun t ht => by
            have hne : t.val ≠ s.val := fun heq => hmem (Fin.ext heq ▸ ht)
            omega
          rw [List.map_cons, line_cons]
          refine hsame.trans ((hfirst _ (by omega)).trans ?_)
          rw [if_pos (by omega), Nat.add_sub_cancel_left]
      · have hsame := hothers k hk fun s hs => hout s (List.mem_cons_of_mem r hs)
        have hhead := hout r List.mem_cons_self
        rw [List.map_cons, line_cons]
        refine hsame.trans ((hfirst k hk).trans ?_)
        rw [if_neg (by omega)]

/-- Restoring a list of registers, the stack pointer not among them. -/
theorem line_loadReg (env : Env) (m : Machine) {rs : List Reg} (hrs : (2 : Reg) ∉ rs) :
    (line env m (rs.map loadReg)).mem = m.mem ∧ (line env m (rs.map loadReg)).csr = m.csr ∧
      ∀ r, (line env m (rs.map loadReg)).x r =
        if r ∈ rs ∧ r ≠ 0 then slot m.mem (m.x 2) r.val else m.x r := by
  induction rs generalizing m with
  | nil => simp
  | cons s rs ih =>
      have hs : (2 : Reg) ≠ s := fun heq => hrs (by rw [heq]; exact List.mem_cons_self)
      have hx : ∀ r, (exec env m (loadReg s)).x r =
          if r = s ∧ r ≠ 0 then slot m.mem (m.x 2) s.val else m.x r := fun r =>
        m.x_setX s r _
      have hsp : (exec env m (loadReg s)).x 2 = m.x 2 := by
        rw [hx, if_neg (fun h => hs h.1)]
      obtain ⟨hmem, hcsr, hregs⟩ := ih (exec env m (loadReg s))
        fun h => hrs (List.mem_cons_of_mem s h)
      refine ⟨hmem, hcsr, ?_⟩
      intro r
      rw [List.map_cons, line_cons, hregs, hsp, hx]
      change (if r ∈ rs ∧ r ≠ 0 then slot m.mem (m.x 2) r.val else _) = _
      by_cases hr : r = 0
      · simp [hr]
      · by_cases hrs' : r ∈ rs
        · simp [hr, hrs']
        · by_cases hrs'' : r = s
          · subst hrs''
            simp [hr]
          · simp [hrs', hrs'']

end Vectra.Lib.Rv64

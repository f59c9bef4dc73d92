import Vectra.Lib.Threads
import Vectra.Ob.Cap

/-!
# The atomic primitives: `a64lock.hpp` and `rvlock.hpp`

Each primitive is the list of the instructions of its inline assembly, which work on one
32-bit word of memory. The CPUs share the word and the exclusive monitors; memory is
sequentially consistent, so that fences do nothing.
-/

namespace Vectra

open Lib

/-! ## Instructions -/

/-- The registers of the inline assembly, by the names of the C variables. -/
inductive AtomicReg
  | oldVal
  | newVal
  | status
  | val
  deriving DecidableEq

/-- The instructions on the word, and the branches between them. -/
inductive AtomicInstr
  -- arm64
  | ldaxr (rd : AtomicReg)
  | stxr (rs rt : AtomicReg)
  | ldar (rd : AtomicReg)
  | ldr (rd : AtomicReg)
  | stlr (rt : AtomicReg)
  | add (rd rn rm : AtomicReg)
  | sub (rd rn rm : AtomicReg)
  | wfe
  | sev
  -- RISC-V
  | amoswap (rd rs : AtomicReg)
  | amoadd (rd rs : AtomicReg)
  | lw (rd : AtomicReg)
  | swZero
  | neg (rd rs : AtomicReg)
  | fence
  -- branches
  | cbz (rt : AtomicReg) (target : ℕ)
  | cbnz (rt : AtomicReg) (target : ℕ)
  | b (target : ℕ)
  deriving DecidableEq

/-- A CPU inside a primitive. -/
structure Core where
  pc : ℕ
  reg : AtomicReg → ℕ

def Core.set (c : Core) (r : AtomicReg) (v : ℕ) : Core :=
  ⟨c.pc + 1, Function.update c.reg r v⟩

def Core.next (c : Core) : Core := { c with pc := c.pc + 1 }

/-- The word, and whether the exclusive monitor of each CPU is set for it. -/
structure SharedWord (ι : Type*) where
  word : ℕ
  monitor : ι → Bool

variable {ι : Type*} [DecidableEq ι]

/-- A store clears the monitors of the other CPUs. -/
def SharedWord.store (g : SharedWord ι) (i : ι) (v : ℕ) : SharedWord ι :=
  ⟨v, fun j => if j = i then g.monitor j else false⟩

/-- One instruction of CPU `i`. A store-exclusive may fail at any time; `ok` says whether this
one succeeds when the monitor is set. -/
def AtomicInstr.exec (i : ι) (ok : Bool) (g : SharedWord ι) (c : Core) :
    AtomicInstr → SharedWord ι × Core
  | .ldaxr rd => ({ g with monitor := Function.update g.monitor i true }, c.set rd g.word)
  | .stxr rs rt =>
      if g.monitor i && ok then (⟨c.reg rt, fun _ => false⟩, c.set rs 0)
      else ({ g with monitor := Function.update g.monitor i false }, c.set rs 1)
  | .ldar rd | .ldr rd | .lw rd => (g, c.set rd g.word)
  | .stlr rt => (g.store i (c.reg rt), c.next)
  | .swZero => (g.store i 0, c.next)
  | .add rd rn rm => (g, c.set rd ((c.reg rn + c.reg rm) % 2 ^ 32))
  | .sub rd rn rm => (g, c.set rd ((c.reg rn + 2 ^ 32 - c.reg rm) % 2 ^ 32))
  | .neg rd rs => (g, c.set rd ((2 ^ 32 - c.reg rs) % 2 ^ 32))
  | .amoswap rd rs => (g.store i (c.reg rs), c.set rd g.word)
  | .amoadd rd rs => (g.store i ((g.word + c.reg rs) % 2 ^ 32), c.set rd g.word)
  | .wfe | .sev | .fence => (g, c.next)
  | .cbz rt target => (g, if c.reg rt = 0 then { c with pc := target } else c.next)
  | .cbnz rt target => (g, if c.reg rt = 0 then c.next else { c with pc := target })
  | .b target => (g, { c with pc := target })

/-! ## The primitives -/

/-- `atomic_exchange_acquire`, from index `start` of the program on. -/
def atomicExchangeAcquire (start : ℕ) : Arch → List AtomicInstr
  | .arm64 => [.ldaxr .oldVal, .stxr .status .newVal, .cbnz .status start]
  | .riscv => [.amoswap .oldVal .newVal]

def atomicStoreReleaseCode : Arch → List AtomicInstr
  | .arm64 => [.stlr .newVal, .sev]
  | .riscv => [.fence, .swZero]

def atomicLoadCode : Arch → List AtomicInstr
  | .arm64 => [.ldar .val]
  | .riscv => [.lw .val, .fence]

def atomicFetchAddCode : Arch → List AtomicInstr
  | .arm64 => [.ldaxr .oldVal, .add .newVal .oldVal .val, .stxr .status .newVal, .cbnz .status 0]
  | .riscv => [.amoadd .oldVal .val]

def atomicFetchSubCode : Arch → List AtomicInstr
  | .arm64 => [.ldaxr .oldVal, .sub .newVal .oldVal .val, .stxr .status .newVal, .cbnz .status 0]
  | .riscv => [.neg .newVal .val, .amoadd .oldVal .newVal]

def cpuRelax : Arch → List AtomicInstr
  | .arm64 => [.wfe]
  | .riscv => [.fence]

/-! ## The effect of a primitive that runs alone -/

/-- One instruction of a primitive on a CPU that nobody interrupts. -/
def soloExec (code : List AtomicInstr) (s : SharedWord Unit × Core) (ok : Bool) :
    Option (SharedWord Unit × Core) :=
  (code[s.2.pc]?).map fun instr => instr.exec () ok s.1 s.2

/-- From the word `w` and the registers `reg` every run of the code to its end leaves the word
`w'`, and `res` in the register `rd`; the store-exclusives fail any number of times. -/
def Leaves (code : List AtomicInstr) (reg : AtomicReg → ℕ) (w w' : ℕ) (rd : AtomicReg)
    (res : ℕ) : Prop :=
  ∀ monitor oks t, Run (StepOf (soloExec code)) (⟨w, monitor⟩, ⟨0, reg⟩) oks t →
    t.2.pc = code.length → t.1.word = w' ∧ t.2.reg rd = res

section Solo

variable {code : List AtomicInstr} {reg : AtomicReg → ℕ} {w w' res : ℕ} {rd : AtomicReg}

/-- An assertion before each instruction proves what the code leaves. -/
theorem Leaves.of_points (P : ℕ → SharedWord Unit → (AtomicReg → ℕ) → Prop)
    (hstart : ∀ monitor, P 0 ⟨w, monitor⟩ reg)
    (hstep : ∀ pc instr ok g r, code[pc]? = some instr → P pc g r →
      P (instr.exec () ok g ⟨pc, r⟩).2.pc (instr.exec () ok g ⟨pc, r⟩).1
        (instr.exec () ok g ⟨pc, r⟩).2.reg)
    (hend : ∀ g r, P code.length g r → g.word = w' ∧ r rd = res) : Leaves code reg w w' rd res := by
  intro monitor oks t hrun hpc
  have hpoint : P t.2.pc t.1 t.2.reg := by
    refine hrun.invariant (I := fun s => P s.2.pc s.1 s.2.reg) ?_ (hstart monitor)
    intro s ok u hs hstep'
    obtain ⟨instr, hat, rfl⟩ := Option.map_eq_some_iff.mp hstep'
    exact hstep s.2.pc instr ok s.1 s.2.reg hat hs
  rw [hpc] at hpoint
  exact hend _ _ hpoint

theorem Leaves.store_release (arch : Arch) (rd : AtomicReg) :
    Leaves (atomicStoreReleaseCode arch) reg w (atomicStoreRelease arch (reg .newVal)) rd
      (reg rd) := by
  cases arch with
  | arm64 =>
      refine .of_points (fun pc g r => r = reg ∧ (pc ≠ 0 → g.word = reg .newVal))
        (fun _ => ⟨rfl, fun h => absurd rfl h⟩) ?_ fun g r h => ⟨h.2 (by decide), by rw [h.1]⟩
      rintro pc instr ok g r hat ⟨rfl, hword⟩
      match pc, hat with
      | 0, hat => cases hat; exact ⟨rfl, fun _ => rfl⟩
      | 1, hat => cases hat; exact ⟨rfl, fun _ => hword (by decide)⟩
      | _ + 2, hat => cases hat
  | riscv =>
      refine .of_points (fun pc g r => r = reg ∧ (2 ≤ pc → g.word = 0))
        (fun _ => ⟨rfl, fun h => absurd h (by decide)⟩) ?_ fun g r h =>
          ⟨h.2 (by decide), by rw [h.1]⟩
      rintro pc instr ok g r hat ⟨rfl, hword⟩
      match pc, hat with
      | 0, hat => cases hat; exact ⟨rfl, fun h => absurd h (by simp [AtomicInstr.exec, Core.next])⟩
      | 1, hat => cases hat; exact ⟨rfl, fun _ => rfl⟩
      | _ + 2, hat => cases hat

theorem Leaves.load (arch : Arch) : Leaves (atomicLoadCode arch) reg w w .val w := by
  cases arch with
  | arm64 =>
      refine .of_points (fun pc g r => g.word = w ∧ (pc ≠ 0 → r .val = w))
        (fun _ => ⟨rfl, fun h => absurd rfl h⟩) ?_ fun g r h => ⟨h.1, h.2 (by decide)⟩
      rintro pc instr ok g r hat ⟨rfl, hval⟩
      match pc, hat with
      | 0, hat => cases hat; exact ⟨rfl, fun _ => by simp [AtomicInstr.exec, Core.set]⟩
      | _ + 1, hat => cases hat
  | riscv =>
      refine .of_points (fun pc g r => g.word = w ∧ (pc ≠ 0 → r .val = w))
        (fun _ => ⟨rfl, fun h => absurd rfl h⟩) ?_ fun g r h => ⟨h.1, h.2 (by decide)⟩
      rintro pc instr ok g r hat ⟨rfl, hval⟩
      match pc, hat with
      | 0, hat => cases hat; exact ⟨rfl, fun _ => by simp [AtomicInstr.exec, Core.set]⟩
      | 1, hat => cases hat; exact ⟨rfl, fun _ => hval (by decide)⟩
      | _ + 2, hat => cases hat

/-- The load-exclusive loop around an instruction `op` that computes `newVal` from `oldVal`. -/
theorem Leaves.exclusive {op : AtomicInstr} {f : ℕ → ℕ}
    (hop : ∀ ok (g : SharedWord Unit) (c : Core), c.reg .val = reg .val →
      op.exec () ok g c = (g, c.set .newVal (f (c.reg .oldVal)))) :
    Leaves [.ldaxr .oldVal, op, .stxr .status .newVal, .cbnz .status 0] reg w (f w) .oldVal w := by
  refine .of_points (fun pc g r => r .val = reg .val ∧ match pc with
    | 0 => g.word = w
    | 1 => g.word = w ∧ r .oldVal = w
    | 2 => g.word = w ∧ r .oldVal = w ∧ r .newVal = f w
    | 3 => r .oldVal = w ∧ (r .status = 0 ∧ g.word = f w ∨ r .status = 1 ∧ g.word = w)
    | _ => r .oldVal = w ∧ g.word = f w) (fun _ => ⟨rfl, rfl⟩) ?_ fun g r h => ⟨h.2.2, h.2.1⟩
  rintro pc instr ok g r hat ⟨hval, hpoint⟩
  match pc, hat with
  | 0, hat =>
      cases hat
      refine ⟨hval, hpoint, ?_⟩
      simp only [Core.set, AtomicInstr.exec, Function.update_self]
      exact hpoint
  | 1, hat =>
      cases hat
      rw [hop ok g ⟨1, r⟩ hval]
      refine ⟨hval, hpoint.1, hpoint.2, ?_⟩
      simp only [Core.set, Function.update_self, hpoint.2]
  | 2, hat =>
      cases hat
      obtain ⟨hword, hold, hnew⟩ := hpoint
      simp only [AtomicInstr.exec]
      split
      · exact ⟨hval, hold, Or.inl ⟨rfl, hnew⟩⟩
      · exact ⟨hval, hold, Or.inr ⟨rfl, hword⟩⟩
  | 3, hat =>
      cases hat
      obtain ⟨hold, ⟨hstatus, hword⟩ | ⟨hstatus, hword⟩⟩ := hpoint
      · simp only [AtomicInstr.exec, if_pos hstatus]
        exact ⟨hval, hold, hword⟩
      · simp only [AtomicInstr.exec, hstatus]
        exact ⟨hval, hword⟩
  | _ + 4, hat => cases hat

theorem Leaves.fetch_add (arch : Arch) :
    Leaves (atomicFetchAddCode arch) reg w ((w + reg .val) % 2 ^ 32) .oldVal w := by
  cases arch with
  | arm64 =>
      refine .exclusive (f := fun v => (v + reg .val) % 2 ^ 32) fun ok g c hc => ?_
      simp only [AtomicInstr.exec, hc]
  | riscv =>
      refine .of_points (fun pc g r => r .val = reg .val ∧ match pc with
        | 0 => g.word = w
        | _ => g.word = (w + reg .val) % 2 ^ 32 ∧ r .oldVal = w) (fun _ => ⟨rfl, rfl⟩) ?_
        fun g r h => h.2
      rintro pc instr ok g r hat ⟨hval, hpoint⟩
      match pc, hat with
      | 0, hat =>
          cases hat
          have hword : g.word = w := hpoint
          refine ⟨hval, ?_, ?_⟩
          · simp only [AtomicInstr.exec, SharedWord.store, hword, hval]
          · simp only [AtomicInstr.exec, Core.set, Function.update_self, hword]
      | _ + 1, hat => cases hat

theorem Leaves.fetch_sub (arch : Arch) (hw : w < 2 ^ 32) (hv : reg .val < 2 ^ 32) :
    Leaves (atomicFetchSubCode arch) reg w ((w + 2 ^ 32 - reg .val) % 2 ^ 32) .oldVal w := by
  cases arch with
  | arm64 =>
      refine .exclusive (f := fun v => (v + 2 ^ 32 - reg .val) % 2 ^ 32) fun ok g c hc => ?_
      simp only [AtomicInstr.exec, hc]
  | riscv =>
      refine .of_points (fun pc g r => r .val = reg .val ∧ match pc with
        | 0 => g.word = w
        | 1 => g.word = w ∧ r .newVal = (2 ^ 32 - reg .val) % 2 ^ 32
        | _ => g.word = (w + 2 ^ 32 - reg .val) % 2 ^ 32 ∧ r .oldVal = w) (fun _ => ⟨rfl, rfl⟩) ?_
        fun g r h => h.2
      rintro pc instr ok g r hat ⟨hval, hpoint⟩
      match pc, hat with
      | 0, hat =>
          cases hat
          refine ⟨hval, hpoint, ?_⟩
          simp only [AtomicInstr.exec, Core.set, Function.update_self, hval]
      | 1, hat =>
          cases hat
          obtain ⟨hword, hnew⟩ := hpoint
          refine ⟨hval, ?_, ?_⟩
          · simp only [AtomicInstr.exec, SharedWord.store, hword, hnew]
            omega
          · simp only [AtomicInstr.exec, Core.set, Function.update_self, hword]
      | _ + 2, hat => cases hat

end Solo

end Vectra

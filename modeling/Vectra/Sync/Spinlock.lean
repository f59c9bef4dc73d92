import Vectra.Sync.Atomic

/-!
# The spin lock of `atomic.hpp`

Any number of CPUs run `spin_lock` and `spin_unlock` on one lock, one instruction at a time
in any order.
-/

namespace Vectra

open Lib

/-- `spin_lock` with its loops compiled to branches; it returns at the end of the list. -/
def spinLockCode : Arch → List AtomicInstr
  | .arm64 =>
      atomicExchangeAcquire 0 .arm64 ++ [.cbz .oldVal 8, .ldr .val, .cbz .val 0] ++
        cpuRelax .arm64 ++ [.b 4]
  | .riscv =>
      atomicExchangeAcquire 0 .riscv ++ [.cbz .oldVal 9] ++ atomicLoadCode .riscv ++
        [.cbnz .val 7] ++ atomicExchangeAcquire 5 .riscv ++ [.cbz .oldVal 9] ++
        cpuRelax .riscv ++ [.b 2]

/-- Where a CPU is: in one of the two functions, or outside, before or after it has got the
lock. -/
inductive SpinMode
  | outside
  | inLock
  | critical
  | inUnlock
  deriving DecidableEq

/-- `owner` says that the exchange of this CPU has returned 0 and its release store is still to
come; no instruction reads it. -/
structure SpinCpu where
  mode : SpinMode
  core : Core
  owner : Bool

/-- The calls, with what the registers hold, the instructions and the returns. -/
inductive SpinOp
  | lock (reg : AtomicReg → ℕ)
  | unlock (reg : AtomicReg → ℕ)
  | exec (ok : Bool)
  | ret

def SpinMode.code (arch : Arch) : SpinMode → List AtomicInstr
  | .inLock => spinLockCode arch
  | .inUnlock => atomicStoreReleaseCode arch
  | .outside | .critical => []

variable {ι : Type*} [DecidableEq ι]

/-- The instruction is the store of an exchange that returns 0. -/
def AtomicInstr.wins (i : ι) (ok : Bool) (g : SharedWord ι) (c : Core) : AtomicInstr → Bool
  | .stxr _ _ => g.monitor i && ok && c.reg .oldVal == 0
  | .amoswap _ _ => g.word == 0
  | _ => false

def AtomicInstr.releases : AtomicInstr → Bool
  | .stlr _ | .swZero => true
  | _ => false

/-- A step of CPU `i`; only the CPU that returned from `spin_lock` calls `spin_unlock`. -/
def spinStep (arch : Arch) (i : ι) (g : SharedWord ι) (l : SpinCpu) :
    SpinOp → Option (SharedWord ι × SpinCpu)
  | .lock reg =>
      if l.mode = .outside then
        some (g, { l with mode := .inLock, core := ⟨0, Function.update reg .newVal 1⟩ })
      else none
  | .unlock reg =>
      if l.mode = .critical then
        some (g, { l with mode := .inUnlock, core := ⟨0, Function.update reg .newVal 0⟩ })
      else none
  | .exec ok =>
      match (l.mode.code arch)[l.core.pc]? with
      | none => none
      | some instr =>
          some ((instr.exec i ok g l.core).1, { l with
            core := (instr.exec i ok g l.core).2
            owner := (l.owner || instr.wins i ok g l.core) && !instr.releases })
  | .ret =>
      if l.core.pc = (l.mode.code arch).length then
        match l.mode with
        | .inLock => some (g, { l with mode := .critical })
        | .inUnlock => some (g, { l with mode := .outside })
        | _ => none
      else none

def SpinStep (arch : Arch) (i : ι) (g : SharedWord ι) (l : SpinCpu) (op : SpinOp)
    (g' : SharedWord ι) (l' : SpinCpu) : Prop :=
  spinStep arch i g l op = some (g', l')

abbrev SpinSys (ι : Type*) := Sys ι (SharedWord ι) SpinCpu

/-- A lock after `spin_lock_init`, and CPUs that have not used it. -/
structure SpinBoot (s : SpinSys ι) : Prop where
  word : s.shared.word = 0
  mode : ∀ i, (s.thread i).mode = .outside
  owner : ∀ i, (s.thread i).owner = false

/-- The lock has at most one owner, only the owner returns from `spin_lock`, and `locked` is
1 exactly while there is one. -/
structure LockOk (s : SpinSys ι) : Prop where
  exclusive : ∀ i j, (s.thread i).owner = true → (s.thread j).owner = true → i = j
  returned : ∀ i, (s.thread i).mode = .critical → (s.thread i).owner = true
  locked : s.shared.word = 1 ↔ ∃ i, (s.thread i).owner = true
  values : s.shared.word = 0 ∨ s.shared.word = 1

/-! ## The invariant -/

/-- What holds of a CPU before each instruction of `spin_lock`. -/
def LockPoint (i : ι) (g : SharedWord ι) (l : SpinCpu) : Arch → ℕ → Prop
  | .arm64, 0 => l.owner = false
  | .arm64, 1 => l.owner = false ∧ (g.monitor i = true → l.core.reg .oldVal = g.word)
  | .arm64, 2 => l.owner = true ↔ l.core.reg .status = 0 ∧ l.core.reg .oldVal = 0
  | .arm64, 3 => l.owner = true ↔ l.core.reg .oldVal = 0
  | .arm64, 4 | .arm64, 5 | .arm64, 6 | .arm64, 7 => l.owner = false
  | .arm64, 8 => l.owner = true
  | .riscv, 0 => l.owner = false
  | .riscv, 1 => l.owner = true ↔ l.core.reg .oldVal = 0
  | .riscv, 2 | .riscv, 3 | .riscv, 4 | .riscv, 5 => l.owner = false
  | .riscv, 6 => l.owner = true ↔ l.core.reg .oldVal = 0
  | .riscv, 7 | .riscv, 8 => l.owner = false
  | .riscv, 9 => l.owner = true
  | _, _ => False

/-- And before each instruction of `spin_unlock`. -/
def UnlockPoint (l : SpinCpu) : Arch → ℕ → Prop
  | .arm64, 0 => l.owner = true ∧ l.core.reg .newVal = 0
  | .riscv, 0 | .riscv, 1 => l.owner = true
  | .arm64, 1 | .arm64, 2 | .riscv, 2 => l.owner = false
  | _, _ => False

def SpinPoint (arch : Arch) (g : SharedWord ι) (i : ι) (l : SpinCpu) : Prop :=
  match l.mode with
  | .outside => l.owner = false
  | .inLock => l.core.reg .newVal = 1 ∧ LockPoint i g l arch l.core.pc
  | .critical => l.owner = true
  | .inUnlock => UnlockPoint l arch l.core.pc

/-- What a step does to the word and to the ownership of its CPU. -/
inductive SpinEffect (g : SharedWord ι) (l : SpinCpu) (g' : SharedWord ι) (l' : SpinCpu) : Prop
  | keep (word : g'.word = g.word) (owner : l'.owner = l.owner)
  | take (free : g.word = 0) (word : g'.word = 1) (owner : l'.owner = true)
  | give (owned : l.owner = true) (word : g'.word = 0) (owner : l'.owner = false)

/-! ## One step -/

section Step

variable {arch : Arch} {i : ι} {g g' : SharedWord ι} {l l' : SpinCpu} {ok : Bool} {op : SpinOp}
  {instr : AtomicInstr}

/-- What the other CPUs notice of a step: their monitors only stay set while the word does. -/
def MonitorsOk (i : ι) (g g' : SharedWord ι) : Prop :=
  ∀ j, j ≠ i → g'.monitor j = true → g.monitor j = true ∧ g'.word = g.word

/-- The invariant after a step, with the effect of the step. -/
structure SpinNext (arch : Arch) (i : ι) (g : SharedWord ι) (l : SpinCpu) (g' : SharedWord ι)
    (l' : SpinCpu) : Prop where
  point : SpinPoint arch g' i l'
  effect : SpinEffect g l g' l'
  monitors : MonitorsOk i g g'

def AtomicInstr.writes : AtomicInstr → Bool
  | .stxr .. | .stlr _ | .amoswap .. | .amoadd .. | .swZero => true
  | _ => false

theorem spinStep_exec (instr : AtomicInstr) (hs : spinStep arch i g l (.exec ok) = some (g', l'))
    (hat : (l.mode.code arch)[l.core.pc]? = some instr) :
    instr.exec i ok g l.core = (g', l'.core) ∧ l'.mode = l.mode ∧
      l'.owner = ((l.owner || instr.wins i ok g l.core) && !instr.releases) := by
  unfold spinStep at hs
  simp only [hat, Option.some.injEq, Prod.mk.injEq] at hs
  obtain ⟨rfl, rfl⟩ := hs
  exact ⟨rfl, rfl, rfl⟩

/-- An instruction that does not write to memory. -/
theorem exec_quiet (ok : Bool) (hw : instr.writes = false) (c : Core) :
    (instr.exec i ok g c).1.word = g.word ∧ MonitorsOk i g (instr.exec i ok g c).1 ∧
      instr.wins i ok g c = false ∧ instr.releases = false := by
  have hrefl : MonitorsOk i g g := fun _ _ hmon => ⟨hmon, rfl⟩
  cases instr with
  | ldaxr rd =>
      refine ⟨rfl, fun j hj hmon => ⟨?_, rfl⟩, rfl, rfl⟩
      simpa [AtomicInstr.exec, hj] using hmon
  | stxr | stlr | amoswap | amoadd | swZero => cases hw
  | _ => exact ⟨rfl, hrefl, rfl, rfl⟩

/-- A step that does not write to memory. -/
theorem SpinNext.quiet (instr : AtomicInstr) (hs : spinStep arch i g l (.exec ok) = some (g', l'))
    (hat : (l.mode.code arch)[l.core.pc]? = some instr) (hw : instr.writes = false)
    (hpoint : ∀ g' c', instr.exec i ok g l.core = (g', c') →
      SpinPoint arch g' i ⟨l.mode, c', l.owner⟩) :
    SpinNext arch i g l g' l' := by
  obtain ⟨hexec, hmode, howner⟩ := spinStep_exec _ hs hat
  obtain ⟨hword, hmon, hwins, hrel⟩ := exec_quiet (i := i) (g := g) ok hw l.core
  rw [hexec] at hword hmon
  rw [hwins, hrel, Bool.or_false, Bool.not_false, Bool.and_true] at howner
  refine ⟨?_, .keep hword howner, hmon⟩
  have hp := hpoint g' l'.core hexec
  rw [← hmode, ← howner] at hp
  exact hp

theorem arm64_lock (hp : SpinPoint .arm64 g i l) (hm : l.mode = .inLock)
    (hword : g.word = 0 ∨ g.word = 1)
    (hs : spinStep .arm64 i g l (.exec ok) = some (g', l')) : SpinNext .arm64 i g l g' l' := by
  obtain ⟨mode, ⟨pc, reg⟩, owner⟩ := l
  cases hm
  obtain ⟨hnew, hpoint⟩ := hp
  simp only at hnew hpoint
  match pc, hpoint with
  | 0, hpoint =>
      refine .quiet (i := i) (.ldaxr .oldVal) hs rfl rfl ?_
      rintro _ _ ⟨⟩
      refine ⟨hnew, hpoint, fun _ => ?_⟩
      simp [Core.set]
  | 1, hpoint =>
      obtain ⟨hnone, hmon⟩ := hpoint
      simp only at hnone hmon
      obtain ⟨hexec, hmode, howner⟩ := spinStep_exec (.stxr .status .newVal) hs rfl
      simp only [AtomicInstr.exec] at hexec
      simp only [hnone, AtomicInstr.wins, AtomicInstr.releases, Bool.false_or, Bool.not_false,
        Bool.and_true] at howner
      obtain ⟨mode', c', owner'⟩ := l'
      cases hmode
      simp only at howner
      split at hexec
      · rename_i hok
        have hold := hmon (Bool.and_eq_true_iff.mp hok).1
        rw [hok, Bool.true_and, hold] at howner
        cases hexec
        refine ⟨⟨hnew, ?_⟩, ?_, fun j _ hmon => by cases hmon⟩
        · change owner' = true ↔ (0 = 0 ∧ reg .oldVal = 0)
          rw [howner, hold]
          simp
        · rcases hword with hzero | hone
          · exact .take hzero hnew (by simp [howner, hzero])
          · exact .keep (hnew.trans hone.symm) (by simp [howner, hone, hnone])
      · rename_i hok
        have hok' : (g.monitor i && ok) = false := by simpa using hok
        rw [hok', Bool.false_and] at howner
        cases hexec
        refine ⟨⟨hnew, ?_⟩, .keep rfl (howner.trans hnone.symm), fun j hj hmon => ⟨?_, rfl⟩⟩
        · change owner' = true ↔ (1 = 0 ∧ reg .oldVal = 0)
          simp [howner]
        · simpa [hj] using hmon
  | 2, hpoint =>
      refine .quiet (i := i) (.cbnz .status 0) hs rfl rfl ?_
      rintro _ _ ⟨⟩
      simp only [LockPoint] at hpoint
      by_cases hst : reg .status = 0
      · simp only [if_pos hst]
        refine ⟨hnew, ?_⟩
        change owner = true ↔ reg .oldVal = 0
        rw [hpoint]
        simp [hst]
      · simp only [if_neg hst]
        refine ⟨hnew, ?_⟩
        change owner = false
        simpa [hst] using hpoint
  | 3, hpoint =>
      refine .quiet (i := i) (.cbz .oldVal 8) hs rfl rfl ?_
      rintro _ _ ⟨⟩
      simp only [LockPoint] at hpoint
      by_cases hold : reg .oldVal = 0
      · simp only [if_pos hold]
        exact ⟨hnew, hpoint.mpr hold⟩
      · simp only [if_neg hold]
        exact ⟨hnew, show owner = false by simpa [hold] using hpoint⟩
  | 4, hpoint =>
      refine .quiet (i := i) (.ldr .val) hs rfl rfl ?_
      rintro _ _ ⟨⟩
      exact ⟨hnew, hpoint⟩
  | 5, hpoint =>
      refine .quiet (i := i) (.cbz .val 0) hs rfl rfl ?_
      rintro _ _ ⟨⟩
      by_cases hval : reg .val = 0
      · simp only [if_pos hval]
        exact ⟨hnew, hpoint⟩
      · simp only [if_neg hval]
        exact ⟨hnew, hpoint⟩
  | 6, hpoint =>
      refine .quiet (i := i) .wfe hs rfl rfl ?_
      rintro _ _ ⟨⟩
      exact ⟨hnew, hpoint⟩
  | 7, hpoint =>
      refine .quiet (i := i) (.b 4) hs rfl rfl ?_
      rintro _ _ ⟨⟩
      exact ⟨hnew, hpoint⟩
  | 8, hpoint => cases hs
  | _ + 9, hpoint => exact hpoint.elim

/-- The exchange of RISC-V. -/
theorem SpinNext.swap (hs : spinStep arch i g l (.exec ok) = some (g', l'))
    (hat : (l.mode.code arch)[l.core.pc]? = some (.amoswap .oldVal .newVal))
    (hnew : l.core.reg .newVal = 1) (hnone : l.owner = false) (hword : g.word = 0 ∨ g.word = 1)
    (hpoint : ∀ g' owner', (owner' = true ↔ g.word = 0) →
      SpinPoint arch g' i ⟨l.mode, l.core.set .oldVal g.word, owner'⟩) :
    SpinNext arch i g l g' l' := by
  obtain ⟨hexec, hmode, howner⟩ := spinStep_exec _ hs hat
  simp only [hnone, AtomicInstr.wins, AtomicInstr.releases, Bool.false_or, Bool.not_false,
    Bool.and_true] at howner
  obtain ⟨mode', c', owner'⟩ := l'
  cases hmode
  simp only at howner
  obtain ⟨hg, hc⟩ := Prod.mk.inj hexec
  simp only at hc
  refine ⟨?_, ?_, ?_⟩
  · rw [← hc]
    exact hpoint g' owner' (by simp [howner])
  · have hone' : g'.word = 1 := by
      rw [← hg]
      exact hnew
    rcases hword with hzero | hone
    · exact .take hzero hone' (by simp [howner, hzero])
    · exact .keep (hone'.trans hone.symm) (by simp [howner, hone, hnone])
  · intro j hj hmon
    rw [← hg] at hmon
    simp [SharedWord.store, hj] at hmon

theorem riscv_lock (hp : SpinPoint .riscv g i l) (hm : l.mode = .inLock)
    (hword : g.word = 0 ∨ g.word = 1)
    (hs : spinStep .riscv i g l (.exec ok) = some (g', l')) : SpinNext .riscv i g l g' l' := by
  obtain ⟨mode, ⟨pc, reg⟩, owner⟩ := l
  cases hm
  obtain ⟨hnew, hpoint⟩ := hp
  simp only at hnew hpoint
  match pc, hpoint with
  | 0, hpoint =>
      refine .swap hs rfl hnew hpoint hword fun g' owner' hiff => ⟨hnew, ?_⟩
      change owner' = true ↔ Function.update reg .oldVal g.word .oldVal = 0
      rw [Function.update_self, hiff]
  | 1, hpoint =>
      refine .quiet (i := i) (.cbz .oldVal 9) hs rfl rfl ?_
      rintro _ _ ⟨⟩
      simp only [LockPoint] at hpoint
      by_cases hold : reg .oldVal = 0
      · simp only [if_pos hold]
        exact ⟨hnew, hpoint.mpr hold⟩
      · simp only [if_neg hold]
        exact ⟨hnew, show owner = false by simpa [hold] using hpoint⟩
  | 2, hpoint =>
      refine .quiet (i := i) (.lw .val) hs rfl rfl ?_
      rintro _ _ ⟨⟩
      exact ⟨hnew, hpoint⟩
  | 3, hpoint =>
      refine .quiet (i := i) .fence hs rfl rfl ?_
      rintro _ _ ⟨⟩
      exact ⟨hnew, hpoint⟩
  | 4, hpoint =>
      refine .quiet (i := i) (.cbnz .val 7) hs rfl rfl ?_
      rintro _ _ ⟨⟩
      by_cases hval : reg .val = 0
      · simp only [if_pos hval]
        exact ⟨hnew, hpoint⟩
      · simp only [if_neg hval]
        exact ⟨hnew, hpoint⟩
  | 5, hpoint =>
      refine .swap hs rfl hnew hpoint hword fun g' owner' hiff => ⟨hnew, ?_⟩
      change owner' = true ↔ Function.update reg .oldVal g.word .oldVal = 0
      rw [Function.update_self, hiff]
  | 6, hpoint =>
      refine .quiet (i := i) (.cbz .oldVal 9) hs rfl rfl ?_
      rintro _ _ ⟨⟩
      simp only [LockPoint] at hpoint
      by_cases hold : reg .oldVal = 0
      · simp only [if_pos hold]
        exact ⟨hnew, hpoint.mpr hold⟩
      · simp only [if_neg hold]
        exact ⟨hnew, show owner = false by simpa [hold] using hpoint⟩
  | 7, hpoint =>
      refine .quiet (i := i) .fence hs rfl rfl ?_
      rintro _ _ ⟨⟩
      exact ⟨hnew, hpoint⟩
  | 8, hpoint =>
      refine .quiet (i := i) (.b 2) hs rfl rfl ?_
      rintro _ _ ⟨⟩
      exact ⟨hnew, hpoint⟩
  | 9, hpoint => cases hs
  | _ + 10, hpoint => exact hpoint.elim

/-- The release store. -/
theorem SpinNext.release (instr : AtomicInstr) (hs : spinStep arch i g l (.exec ok) = some (g', l'))
    (hat : (l.mode.code arch)[l.core.pc]? = some instr) (hrel : instr.releases = true)
    (hexec : instr.exec i ok g l.core = (g.store i 0, l.core.next)) (howner : l.owner = true)
    (hpoint : SpinPoint arch (g.store i 0) i ⟨l.mode, l.core.next, false⟩) :
    SpinNext arch i g l g' l' := by
  obtain ⟨hexec', hmode, howner'⟩ := spinStep_exec _ hs hat
  rw [hexec] at hexec'
  obtain ⟨rfl, hc⟩ := Prod.mk.inj hexec'
  rw [hrel, Bool.not_true, Bool.and_false] at howner'
  refine ⟨?_, .give howner rfl howner', fun j hj hmon => ?_⟩
  · rw [← hmode, hc, ← howner'] at hpoint
    exact hpoint
  · simp [SharedWord.store, hj] at hmon

theorem spin_unlock (hp : SpinPoint arch g i l) (hm : l.mode = .inUnlock)
    (hs : spinStep arch i g l (.exec ok) = some (g', l')) : SpinNext arch i g l g' l' := by
  obtain ⟨mode, ⟨pc, reg⟩, owner⟩ := l
  cases hm
  have hpoint : UnlockPoint ⟨.inUnlock, ⟨pc, reg⟩, owner⟩ arch pc := hp
  match arch, pc, hpoint with
  | .arm64, 0, hpoint =>
      refine .release (.stlr .newVal) hs rfl rfl ?_ hpoint.1 rfl
      have hzero : reg .newVal = 0 := hpoint.2
      simp [AtomicInstr.exec, hzero]
  | .arm64, 1, hpoint =>
      refine .quiet (i := i) .sev hs rfl rfl ?_
      rintro _ _ ⟨⟩
      exact hpoint
  | .arm64, 2, hpoint => cases hs
  | .arm64, _ + 3, hpoint => exact hpoint.elim
  | .riscv, 0, hpoint =>
      refine .quiet (i := i) .fence hs rfl rfl ?_
      rintro _ _ ⟨⟩
      exact hpoint
  | .riscv, 1, hpoint => exact .release .swZero hs rfl rfl rfl hpoint rfl
  | .riscv, 2, hpoint => cases hs
  | .riscv, _ + 3, hpoint => exact hpoint.elim

/-- Every step keeps the invariant of its CPU. -/
theorem SpinStep.next (hp : SpinPoint arch g i l) (hword : g.word = 0 ∨ g.word = 1)
    (hs : SpinStep arch i g l op g' l') : SpinNext arch i g l g' l' := by
  have hrefl : MonitorsOk i g g := fun _ _ hmon => ⟨hmon, rfl⟩
  have hstep : spinStep arch i g l op = some (g', l') := hs
  cases op with
  | lock reg =>
      simp only [spinStep] at hstep
      split at hstep
      · rename_i hm
        cases hstep
        unfold SpinPoint at hp
        rw [hm] at hp
        refine ⟨⟨by simp, ?_⟩, .keep rfl rfl, hrefl⟩
        cases arch <;> exact hp
      · cases hstep
  | unlock reg =>
      simp only [spinStep] at hstep
      split at hstep
      · rename_i hm
        cases hstep
        unfold SpinPoint at hp
        rw [hm] at hp
        refine ⟨?_, .keep rfl rfl, hrefl⟩
        cases arch with
        | arm64 => exact ⟨hp, by simp⟩
        | riscv => exact hp
      · cases hstep
  | exec ok =>
      cases hm : l.mode with
      | outside | critical =>
          unfold spinStep at hstep
          rw [hm] at hstep
          simp [SpinMode.code] at hstep
      | inLock =>
          cases arch with
          | arm64 => exact arm64_lock hp hm hword hstep
          | riscv => exact riscv_lock hp hm hword hstep
      | inUnlock => exact spin_unlock hp hm hstep
  | ret =>
      simp only [spinStep] at hstep
      split at hstep
      · rename_i hpc
        unfold SpinPoint at hp
        split at hstep
        · rename_i hm
          cases hstep
          rw [hm] at hp hpc
          have hpoint := hp.2
          rw [hpc] at hpoint
          refine ⟨?_, .keep rfl rfl, hrefl⟩
          cases arch <;> exact hpoint
        · rename_i hm
          cases hstep
          rw [hm] at hp hpc
          simp only at hp
          rw [hpc] at hp
          refine ⟨?_, .keep rfl rfl, hrefl⟩
          cases arch <;> exact hp
        · cases hstep
      · cases hstep

end Step

/-! ## Runs -/

/-- The invariant of the runs: every CPU is at a point of its code, and `locked` is 1 exactly
while there is an owner. -/
structure SpinInv (arch : Arch) (s : SpinSys ι) : Prop where
  point : ∀ i, SpinPoint arch s.shared i (s.thread i)
  exclusive : Exclusive (s.shared.word = 1) fun i => (s.thread i).owner = true
  values : s.shared.word = 0 ∨ s.shared.word = 1

section Runs

variable {arch : Arch} {s t : SpinSys ι} {i : ι} {op : SpinOp}

omit [DecidableEq ι] in
/-- A CPU does not notice the steps of another, except that its monitor may be cleared. -/
theorem SpinPoint.other {g g' : SharedWord ι} {j : ι} {l : SpinCpu} (h : SpinPoint arch g j l)
    (hmon : g'.monitor j = true → g.monitor j = true ∧ g'.word = g.word) :
    SpinPoint arch g' j l := by
  unfold SpinPoint at h ⊢
  split at h
  · exact h
  · refine ⟨h.1, ?_⟩
    have hpoint := h.2
    unfold LockPoint at hpoint ⊢
    split at hpoint
    case h_2 =>
      refine ⟨hpoint.1, fun hset => ?_⟩
      obtain ⟨hset', hword⟩ := hmon hset
      rw [hword]
      exact hpoint.2 hset'
    all_goals exact hpoint
  · exact h
  · exact h

theorem SpinInv.step (h : SpinInv arch s) (hs : Interleave (SpinStep arch) s (i, op) t) :
    SpinInv arch t := by
  obtain ⟨hpoint, heff, hmon⟩ := SpinStep.next (h.point i) h.values hs.self
  have hother : ∀ j, j ≠ i → ((t.thread j).owner = true ↔ (s.thread j).owner = true) := by
    intro j hj
    rw [hs.other hj]
  refine ⟨hs.forall_thread h.point hpoint fun j hj hp => hp.other (hmon j hj), ?_, ?_⟩
  · cases heff with
    | keep hword howner =>
        refine h.exclusive.congr (by rw [hword]) fun j => ?_
        by_cases hj : j = i
        · rw [hj, howner]
        · exact hother j hj
    | take hfree hword howner =>
        exact h.exclusive.acquire (by omega) hword howner hother
    | give howned hword howner =>
        exact h.exclusive.release howned (by omega) (by simp [howner]) hother
  · cases heff with
    | keep hword => rw [hword]; exact h.values
    | take _ hword => exact Or.inr hword
    | give _ hword => exact Or.inl hword

omit [DecidableEq ι] in
theorem SpinBoot.inv (h : SpinBoot s) : SpinInv arch s := by
  refine ⟨fun i => ?_, ⟨iff_of_false ?_ ?_, fun i j hi => ?_⟩, Or.inl h.word⟩
  · unfold SpinPoint
    rw [h.mode i]
    exact h.owner i
  · rw [h.word]
    decide
  · rintro ⟨i, hi⟩
    rw [h.owner i] at hi
    cases hi
  · rw [h.owner i] at hi
    cases hi

end Runs

/-- The spin lock excludes, whatever the order of the instructions of the CPUs. -/
theorem spin_lock_exclusive {arch : Arch} {s₀ s : SpinSys ι} {ops : List (ι × SpinOp)}
    (hboot : SpinBoot s₀) (hrun : Run (Interleave (SpinStep arch)) s₀ ops s) : LockOk s := by
  have hinv : SpinInv arch s :=
    hrun.invariant (fun _ _ _ h hs => h.step hs) hboot.inv
  refine ⟨hinv.exclusive.unique, fun i hi => ?_, hinv.exclusive.taken_iff, hinv.values⟩
  have hpoint := hinv.point i
  unfold SpinPoint at hpoint
  rw [hi] at hpoint
  exact hpoint

/-- Two CPUs on arm64. The first monitor is cleared by the store of the second CPU, which gets
the lock. -/
theorem spin_lock_exclusive_two_cpus :
    ∃ s, Run (Interleave (SpinStep .arm64))
        (⟨⟨0, fun _ => false⟩, fun _ => ⟨.outside, ⟨0, fun _ => 0⟩, false⟩⟩ : SpinSys ℕ)
        [(0, .lock fun _ => 0), (1, .lock fun _ => 0), (0, .exec true), (1, .exec true),
          (1, .exec true), (0, .exec true), (1, .exec true), (1, .exec true), (1, .ret)] s ∧
      (s.thread 1).mode = .critical ∧ LockOk s := by
  have hboot : SpinBoot (⟨⟨0, fun _ => false⟩, fun _ => ⟨.outside, ⟨0, fun _ => 0⟩, false⟩⟩ :
    SpinSys ℕ) := ⟨rfl, fun _ => rfl, fun _ => rfl⟩
  obtain ⟨s, hs, hmode⟩ := Option.map_eq_some_iff.mp (by decide :
    ([(0, .lock fun _ => 0), (1, .lock fun _ => 0), (0, .exec true), (1, .exec true),
        (1, .exec true), (0, .exec true), (1, .exec true), (1, .exec true), (1, .ret)].foldlM
      (Sys.move (spinStep .arm64))
      (⟨⟨0, fun _ => false⟩, fun _ => ⟨.outside, ⟨0, fun _ => 0⟩, false⟩⟩ : SpinSys ℕ)).map
        (fun s => (s.thread 1).mode) = some SpinMode.critical)
  have hrun : Run (Interleave (SpinStep .arm64)) _ _ s := Sys.run_of_foldlM hs
  exact ⟨s, hrun, hmode, spin_lock_exclusive hboot hrun⟩

end Vectra

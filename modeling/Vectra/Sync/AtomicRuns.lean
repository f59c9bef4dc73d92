import Vectra.Lib.Refine
import Vectra.Sync.Spinlock

/-!
# The primitives in any interleaving

Any number of CPUs call the primitives on one word, one instruction at a time in any order,
and store-exclusives may fail at any time. Each call takes effect at one instant between the
call and the return.
-/

namespace Vectra

open Lib

/-- A call, with its argument. -/
inductive AtomicCall
  | exchangeAcquire (newVal : BitVec 32)
  | storeRelease (newVal : BitVec 32)
  | load
  | fetchAdd (val : BitVec 32)
  | fetchSub (val : BitVec 32)
  deriving DecidableEq

namespace AtomicCall

def code (arch : Arch) : AtomicCall → List AtomicInstr
  | exchangeAcquire _ => atomicExchangeAcquire 0 arch
  | storeRelease _ => atomicStoreReleaseCode arch
  | load => atomicLoadCode arch
  | fetchAdd _ => atomicFetchAddCode arch
  | fetchSub _ => atomicFetchSubCode arch

/-- The registers at the start; only the argument is known. -/
def args (reg : AtomicReg → ℕ) : AtomicCall → AtomicReg → ℕ
  | exchangeAcquire v | storeRelease v => Function.update reg .newVal v.toNat
  | load => reg
  | fetchAdd v | fetchSub v => Function.update reg .val v.toNat

/-- The value that the function returns from the registers at the end. -/
def returned (reg : AtomicReg → ℕ) : AtomicCall → Option ℕ
  | exchangeAcquire _ | fetchAdd _ | fetchSub _ => some (reg .oldVal)
  | storeRelease _ => none
  | load => some (reg .val)

/-- What the call does to the word. -/
def after (arch : Arch) (w : ℕ) : AtomicCall → ℕ
  | exchangeAcquire v => v.toNat
  | storeRelease v => atomicStoreRelease arch v.toNat
  | load => w
  | fetchAdd v => (w + v.toNat) % 2 ^ 32
  | fetchSub v => (w + 2 ^ 32 - v.toNat) % 2 ^ 32

/-- What the call returns. -/
def value (w : ℕ) : AtomicCall → Option ℕ
  | storeRelease _ => none
  | _ => some w

end AtomicCall

/-! ## The CPUs, instruction by instruction -/

/-- A call with the registers it finds, an instruction, and a return. -/
inductive AtomicOp
  | call (c : AtomicCall) (reg : AtomicReg → ℕ)
  | exec (ok : Bool)
  | ret (v : Option ℕ)

/-- What the callers see. -/
inductive AtomicEvent
  | call (c : AtomicCall)
  | ret (v : Option ℕ)
  deriving DecidableEq

variable {ι : Type*}

def AtomicOp.event (a : ι × AtomicOp) : Option (ι × AtomicEvent) :=
  match a.2 with
  | .call c _ => some (a.1, .call c)
  | .exec _ => none
  | .ret v => some (a.1, .ret v)

/-- A CPU is outside, or inside a call. -/
abbrev AtomicCpu := Option (AtomicCall × Core)

section Steps

variable [DecidableEq ι]

def atomicStep (arch : Arch) (i : ι) (g : SharedWord ι) (l : AtomicCpu) :
    AtomicOp → Option (SharedWord ι × AtomicCpu)
  | .call c reg => if l = none then some (g, some (c, ⟨0, c.args reg⟩)) else none
  | .exec ok =>
      match l with
      | none => none
      | some (c, core) =>
          ((c.code arch)[core.pc]?).map fun instr =>
            ((instr.exec i ok g core).1, some (c, (instr.exec i ok g core).2))
  | .ret v =>
      match l with
      | none => none
      | some (c, core) =>
          if core.pc = (c.code arch).length ∧ v = c.returned core.reg then some (g, none) else none

def AtomicStep (arch : Arch) (i : ι) (g : SharedWord ι) (l : AtomicCpu) (op : AtomicOp)
    (g' : SharedWord ι) (l' : AtomicCpu) : Prop :=
  atomicStep arch i g l op = some (g', l')

/-! ## Calls that take effect at one instant -/

inductive CallStatus
  | outside
  | called (c : AtomicCall)
  | done (v : Option ℕ)
  deriving DecidableEq

inductive InstantOp
  | call (c : AtomicCall)
  | effect
  | ret (v : Option ℕ)

omit [DecidableEq ι] in
def InstantOp.event (a : ι × InstantOp) : Option (ι × AtomicEvent) :=
  match a.2 with
  | .call c => some (a.1, .call c)
  | .effect => none
  | .ret v => some (a.1, .ret v)

/-- The word is all that the CPUs share. -/
def instantStep (arch : Arch) (w : ℕ) (l : CallStatus) : InstantOp → Option (ℕ × CallStatus)
  | .call c => if l = .outside then some (w, .called c) else none
  | .effect =>
      match l with
      | .called c => some (c.after arch w, .done (c.value w))
      | _ => none
  | .ret v => if l = .done v then some (w, .outside) else none

def InstantStep (arch : Arch) (_ : ι) (w : ℕ) (l : CallStatus) (op : InstantOp) (w' : ℕ)
    (l' : CallStatus) : Prop :=
  instantStep arch w l op = some (w', l')

/-! ## The points of the code -/

/-- The argument is in its register. -/
def AtomicCall.Args (reg : AtomicReg → ℕ) : AtomicCall → Prop
  | .exchangeAcquire v | .storeRelease v => reg .newVal = v.toNat
  | .load => True
  | .fetchAdd v | .fetchSub v => reg .val = v.toNat

/-- What holds at the points of a primitive: before it has done anything, after the
load-exclusive, at the store-exclusive and behind it, before the `amoadd` of
`atomic_fetch_sub`, and after the effect. -/
inductive Mark
  | start
  | loaded
  | atStore
  | tried
  | negated
  | finished

/-- The points of each primitive, one before each instruction and one at the end. -/
def AtomicCall.marks : Arch → AtomicCall → List Mark
  | .arm64, .exchangeAcquire _ => [.start, .atStore, .tried, .finished]
  | .arm64, .storeRelease _ => [.start, .finished, .finished]
  | .arm64, .load => [.start, .finished]
  | .arm64, .fetchAdd _ | .arm64, .fetchSub _ => [.start, .loaded, .atStore, .tried, .finished]
  | .riscv, .exchangeAcquire _ | .riscv, .fetchAdd _ => [.start, .finished]
  | .riscv, .storeRelease _ => [.start, .start, .finished]
  | .riscv, .load => [.start, .finished, .finished]
  | .riscv, .fetchSub _ => [.start, .negated, .finished]

/-- The store-exclusive succeeds only while the value that was loaded is still there. -/
def Mark.Holds (arch : Arch) (i : ι) (g : SharedWord ι) (c : AtomicCall) (reg : AtomicReg → ℕ)
    (st : CallStatus) : Mark → Prop
  | .start => st = .called c ∧ c.Args reg
  | .loaded => (st = .called c ∧ c.Args reg) ∧ (g.monitor i = true → reg .oldVal = g.word)
  | .atStore => (st = .called c ∧ c.Args reg) ∧ (g.monitor i = true → reg .oldVal = g.word) ∧
      reg .newVal = c.after arch (reg .oldVal)
  | .tried => c.Args reg ∧
      (reg .status = 0 ∧ st = .done (c.returned reg) ∨ reg .status = 1 ∧ st = .called c)
  | .negated => (st = .called c ∧ c.Args reg) ∧ reg .newVal = (2 ^ 32 - reg .val) % 2 ^ 32
  | .finished => st = .done (c.returned reg)

/-- A CPU is at a point of its call. -/
def CallPoint (arch : Arch) (g : SharedWord ι) (i : ι) : AtomicCpu → CallStatus → Prop
  | none, st => st = .outside
  | some (c, core), st => ∃ m, (c.marks arch)[core.pc]? = some m ∧ m.Holds arch i g c core.reg st

/-- A step does nothing that shows, or it is the effect of the call. -/
inductive InstantEffect (arch : Arch) (c : AtomicCall) (w : ℕ) (st : CallStatus) (w' : ℕ)
    (st' : CallStatus) : Prop
  | none (word : w' = w) (status : st' = st)
  | effect (called : st = .called c) (word : w' = c.after arch w) (status : st' = .done (c.value w))

/-- What an instruction establishes for the point `m` behind it. -/
structure CallNext (arch : Arch) (i : ι) (g : SharedWord ι) (c : AtomicCall) (st : CallStatus)
    (r : SharedWord ι × Core) (m : Mark) : Prop where
  status : ∃ st', m.Holds arch i r.1 c r.2.reg st' ∧ InstantEffect arch c g.word st r.1.word st'
  monitors : MonitorsOk i g r.1

section Instructions

variable {arch : Arch} {i : ι} {b : Bool} {g : SharedWord ι} {c : AtomicCall} {core : Core}
  {st : CallStatus} {instr : AtomicInstr} {m : Mark}

/-- An instruction that does not write, and leaves the status as it is. -/
theorem CallNext.quiet (hw : instr.writes = false)
    (hm : m.Holds arch i (instr.exec i b g core).1 c (instr.exec i b g core).2.reg st) :
    CallNext arch i g c st (instr.exec i b g core) m := by
  obtain ⟨hword, hmon, _, _⟩ := exec_quiet (i := i) (g := g) b hw core
  exact ⟨⟨st, hm, .none hword rfl⟩, hmon⟩

theorem AtomicCall.Args.update {reg : AtomicReg → ℕ} (h : c.Args reg) {r : AtomicReg} (v : ℕ)
    (hr : r = .oldVal ∨ r = .status) : c.Args (Function.update reg r v) := by
  cases c with
  | load => trivial
  | _ => rcases hr with rfl | rfl <;> simpa [AtomicCall.Args] using h

theorem exec_ldaxr (h : Mark.start.Holds arch i g c core.reg st) :
    CallNext arch i g c st (AtomicInstr.exec i b g core (.ldaxr .oldVal)) .loaded := by
  refine .quiet rfl ⟨⟨h.1, h.2.update _ (.inl rfl)⟩, fun _ => ?_⟩
  simp [AtomicInstr.exec, Core.set]

/-- An exchange stores its argument, whatever it has loaded. -/
theorem exec_ldaxr_exchange {v : BitVec 32}
    (h : Mark.start.Holds arch i g (.exchangeAcquire v) core.reg st) :
    CallNext arch i g (.exchangeAcquire v) st (AtomicInstr.exec i b g core (.ldaxr .oldVal))
      .atStore := by
  obtain ⟨⟨st', hloaded, heffect⟩, hmon⟩ := exec_ldaxr (b := b) h
  exact ⟨⟨st', ⟨hloaded.1, hloaded.2, hloaded.1.2⟩, heffect⟩, hmon⟩

/-- The instruction between the load-exclusive and the store-exclusive. -/
theorem exec_compute {f : ℕ → ℕ}
    (hargs : ∀ reg v, c.Args reg → c.Args (Function.update reg .newVal v))
    (hw : instr.writes = false) (h : Mark.loaded.Holds arch i g c core.reg st)
    (hinstr : instr.exec i b g core = (g, core.set .newVal (f (core.reg .oldVal))))
    (hf : ∀ w, f w = c.after arch w) :
    CallNext arch i g c st (instr.exec i b g core) .atStore := by
  refine .quiet hw ?_
  rw [hinstr]
  refine ⟨⟨h.1.1, hargs _ _ h.1.2⟩, fun hset => ?_, ?_⟩
  · simpa [Core.set] using h.2 hset
  · simp [Core.set, hf]

theorem exec_add {v : BitVec 32} (h : Mark.loaded.Holds arch i g (.fetchAdd v) core.reg st) :
    CallNext arch i g (.fetchAdd v) st
      (AtomicInstr.exec i b g core (.add .newVal .oldVal .val)) .atStore := by
  have hval : core.reg .val = v.toNat := h.1.2
  refine exec_compute (f := fun w => (w + v.toNat) % 2 ^ 32) (fun reg w hreg => ?_) rfl h ?_
    fun _ => rfl
  · simpa [AtomicCall.Args] using hreg
  · simp only [AtomicInstr.exec, hval]

theorem exec_sub {v : BitVec 32} (h : Mark.loaded.Holds arch i g (.fetchSub v) core.reg st) :
    CallNext arch i g (.fetchSub v) st
      (AtomicInstr.exec i b g core (.sub .newVal .oldVal .val)) .atStore := by
  have hval : core.reg .val = v.toNat := h.1.2
  refine exec_compute (f := fun w => (w + 2 ^ 32 - v.toNat) % 2 ^ 32) (fun reg w hreg => ?_) rfl h
    ?_ fun _ => rfl
  · simpa [AtomicCall.Args] using hreg
  · simp only [AtomicInstr.exec, hval]

/-- The store-exclusive takes effect, or fails and leaves the call pending. -/
theorem exec_stxr (hret : ∀ reg, c.returned reg = some (reg .oldVal))
    (hvalue : ∀ w, c.value w = some w) (h : Mark.atStore.Holds arch i g c core.reg st) :
    CallNext arch i g c st (AtomicInstr.exec i b g core (.stxr .status .newVal)) .tried := by
  obtain ⟨⟨hcalled, hargs⟩, hcurrent, hresult⟩ := h
  simp only [AtomicInstr.exec]
  split
  · rename_i hok
    have hold := hcurrent (Bool.and_eq_true_iff.mp hok).1
    refine ⟨⟨.done (c.value g.word), ⟨hargs.update _ (.inr rfl), .inl ⟨?_, ?_⟩⟩,
      .effect hcalled ?_ rfl⟩, fun j _ hmon => by cases hmon⟩
    · simp [Core.set]
    · rw [hret, hvalue, ← hold]
      simp [Core.set]
    · rw [← hold]
      exact hresult
  · refine ⟨⟨st, ⟨hargs.update _ (.inr rfl), .inr ⟨?_, hcalled⟩⟩, .none rfl rfl⟩,
      fun j hj hmon => ⟨?_, rfl⟩⟩
    · simp [Core.set]
    · simpa [hj] using hmon

/-- The branch behind the store-exclusive. -/
theorem exec_cbnz (h : Mark.tried.Holds arch i g c core.reg st) :
    CallNext arch i g c st (AtomicInstr.exec i b g core (.cbnz .status 0))
      (if core.reg .status = 0 then .finished else .start) := by
  refine .quiet rfl ?_
  obtain ⟨hargs, ⟨hstatus, hdone⟩ | ⟨hstatus, hcalled⟩⟩ := h
  · rw [if_pos hstatus]
    simp only [AtomicInstr.exec, if_pos hstatus]
    exact hdone
  · have hne : core.reg .status ≠ 0 := by omega
    rw [if_neg hne]
    simp only [AtomicInstr.exec, if_neg hne]
    exact ⟨hcalled, hargs⟩

/-- A load takes effect at once. -/
theorem exec_load (hinstr : instr = .ldar .val ∨ instr = .lw .val)
    (h : Mark.start.Holds arch i g .load core.reg st) :
    CallNext arch i g .load st (instr.exec i b g core) .finished := by
  have hexec : instr.exec i b g core = (g, core.set .val g.word) := by
    rcases hinstr with rfl | rfl <;> rfl
  rw [hexec]
  refine ⟨⟨.done (some g.word), ?_, .effect h.1 rfl rfl⟩, fun _ _ hmon => ⟨hmon, rfl⟩⟩
  simp [Mark.Holds, AtomicCall.returned, Core.set]

/-- So does a store. -/
theorem exec_store {w : ℕ} (hexec : instr.exec i b g core = (g.store i w, core.next))
    {v : BitVec 32} (hw : w = atomicStoreRelease arch v.toNat)
    (h : Mark.start.Holds arch i g (.storeRelease v) core.reg st) :
    CallNext arch i g (.storeRelease v) st (instr.exec i b g core) .finished := by
  rw [hexec]
  refine ⟨⟨.done none, rfl, .effect h.1 hw rfl⟩, fun j hj hmon => ?_⟩
  simp [SharedWord.store, hj] at hmon

/-- And an instruction that exchanges or adds. -/
theorem exec_amo {w : ℕ} (hexec : instr.exec i b g core = (g.store i w, core.set .oldVal g.word))
    (hw : w = c.after arch g.word) (hret : ∀ reg, c.returned reg = some (reg .oldVal))
    (hvalue : c.value g.word = some g.word) (hcalled : st = .called c) :
    CallNext arch i g c st (instr.exec i b g core) .finished := by
  rw [hexec]
  refine ⟨⟨.done (c.value g.word), ?_, .effect hcalled hw rfl⟩, fun j hj hmon => ?_⟩
  · simp [Mark.Holds, hret, hvalue, Core.set]
  · simp [SharedWord.store, hj] at hmon

/-- Nothing happens behind the effect. -/
theorem exec_idle (hexec : instr.exec i b g core = (g, core.next))
    (h : m.Holds arch i g c core.reg st) : CallNext arch i g c st (instr.exec i b g core) m := by
  rw [hexec]
  exact ⟨⟨st, h, .none rfl rfl⟩, fun _ _ hmon => ⟨hmon, rfl⟩⟩

omit [DecidableEq ι] in
theorem CallNext.point {r : SharedWord ι × Core} (h : CallNext arch i g c st r m)
    (hpc : (c.marks arch)[r.2.pc]? = some m) :
    ∃ st', CallPoint arch r.1 i (some (c, r.2)) st' ∧
      InstantEffect arch c g.word st r.1.word st' ∧ MonitorsOk i g r.1 := by
  obtain ⟨⟨st', hm, heffect⟩, hmon⟩ := h
  exact ⟨st', ⟨m, hpc, hm⟩, heffect, hmon⟩

theorem stxr_pc {rs rt : AtomicReg} :
    (AtomicInstr.exec i b g core (.stxr rs rt)).2.pc = core.pc + 1 := by
  simp only [AtomicInstr.exec]
  split <;> rfl

/-- The load-exclusive loop of `atomic_fetch_add` and `atomic_fetch_sub` ends where it should. -/
theorem cbnz_pc {reg : AtomicReg → ℕ} {pc : ℕ}
    (hfinished : (c.marks arch)[pc + 1]? = some .finished)
    (hstart : (c.marks arch)[0]? = some .start) :
    (c.marks arch)[(AtomicInstr.exec i b g ⟨pc, reg⟩ (.cbnz .status 0)).2.pc]? =
      some (if reg .status = 0 then .finished else .start) := by
  simp only [AtomicInstr.exec]
  split
  · exact hfinished
  · exact hstart

/-- Every instruction leads from a point of the call to a point of the call. -/
theorem call_exec (hp : CallPoint arch g i (some (c, core)) st)
    (hat : (c.code arch)[core.pc]? = some instr) :
    ∃ st', CallPoint arch (instr.exec i b g core).1 i (some (c, (instr.exec i b g core).2)) st' ∧
      InstantEffect arch c g.word st (instr.exec i b g core).1.word st' ∧
      MonitorsOk i g (instr.exec i b g core).1 := by
  obtain ⟨m, hm, h⟩ := hp
  obtain ⟨pc, reg⟩ := core
  cases arch with
  | arm64 =>
      cases c with
      | exchangeAcquire v =>
          match pc, hat, hm with
          | 0, rfl, rfl => exact (exec_ldaxr_exchange h).point rfl
          | 1, rfl, rfl =>
              refine (exec_stxr (fun _ => rfl) (fun _ => rfl) h).point ?_
              rw [stxr_pc]
              rfl
          | 2, rfl, rfl => exact (exec_cbnz h).point (cbnz_pc rfl rfl)
      | storeRelease v =>
          match pc, hat, hm with
          | 0, rfl, rfl =>
              have hnew : reg .newVal = v.toNat := h.2
              refine (exec_store (w := reg .newVal) rfl ?_ h).point rfl
              exact hnew
          | 1, rfl, rfl => exact (exec_idle rfl h).point rfl
      | load =>
          match pc, hat, hm with
          | 0, rfl, rfl => exact (exec_load (.inl rfl) h).point rfl
      | fetchAdd v =>
          match pc, hat, hm with
          | 0, rfl, rfl => exact (exec_ldaxr h).point rfl
          | 1, rfl, rfl => exact (exec_add h).point rfl
          | 2, rfl, rfl =>
              refine (exec_stxr (fun _ => rfl) (fun _ => rfl) h).point ?_
              rw [stxr_pc]
              rfl
          | 3, rfl, rfl => exact (exec_cbnz h).point (cbnz_pc rfl rfl)
      | fetchSub v =>
          match pc, hat, hm with
          | 0, rfl, rfl => exact (exec_ldaxr h).point rfl
          | 1, rfl, rfl => exact (exec_sub h).point rfl
          | 2, rfl, rfl =>
              refine (exec_stxr (fun _ => rfl) (fun _ => rfl) h).point ?_
              rw [stxr_pc]
              rfl
          | 3, rfl, rfl => exact (exec_cbnz h).point (cbnz_pc rfl rfl)
  | riscv =>
      cases c with
      | exchangeAcquire v =>
          match pc, hat, hm with
          | 0, rfl, rfl =>
              have hnew : reg .newVal = v.toNat := h.2
              refine (exec_amo (w := reg .newVal) rfl ?_ (fun _ => rfl) rfl h.1).point rfl
              exact hnew
      | storeRelease v =>
          match pc, hat, hm with
          | 0, rfl, rfl => exact (exec_idle rfl h).point rfl
          | 1, rfl, rfl => exact (exec_store (w := 0) rfl rfl h).point rfl
      | load =>
          match pc, hat, hm with
          | 0, rfl, rfl => exact (exec_load (.inr rfl) h).point rfl
          | 1, rfl, rfl => exact (exec_idle rfl h).point rfl
      | fetchAdd v =>
          match pc, hat, hm with
          | 0, rfl, rfl =>
              have hval : reg .val = v.toNat := h.2
              refine (exec_amo (w := (g.word + reg .val) % 2 ^ 32) rfl ?_ (fun _ => rfl) rfl
                h.1).point rfl
              rw [hval]
              rfl
      | fetchSub v =>
          match pc, hat, hm with
          | 0, rfl, rfl =>
              refine (CallNext.quiet (m := .negated) rfl ⟨⟨h.1, ?_⟩, ?_⟩).point rfl
              · simpa [AtomicInstr.exec, Core.set, AtomicCall.Args] using h.2
              · simp [AtomicInstr.exec, Core.set]
          | 1, rfl, rfl =>
              have hval : reg .val = v.toNat := h.1.2
              have hnew : reg .newVal = (2 ^ 32 - reg .val) % 2 ^ 32 := h.2
              have hlt := v.isLt
              refine (exec_amo (w := (g.word + reg .newVal) % 2 ^ 32) rfl ?_ (fun _ => rfl) rfl
                h.1.1).point rfl
              simp only [hnew, hval, AtomicCall.after]
              omega

end Instructions

/-! ## Runs -/

/-- The CPUs with the same word, and each one at a point of its call. -/
structure AtomicRel (arch : Arch) (s : Sys ι (SharedWord ι) AtomicCpu) (t : Sys ι ℕ CallStatus) :
    Prop where
  word : t.shared = s.shared.word
  point : ∀ i, CallPoint arch s.shared i (s.thread i) (t.thread i)

section Runs

variable {arch : Arch} {s s' : Sys ι (SharedWord ι) AtomicCpu} {t : Sys ι ℕ CallStatus}

omit [DecidableEq ι] in
/-- A CPU does not notice the steps of another, except that its monitor may be cleared. -/
theorem CallPoint.other {g g' : SharedWord ι} {j : ι} {l : AtomicCpu} {st : CallStatus}
    (h : CallPoint arch g j l st)
    (hmon : g'.monitor j = true → g.monitor j = true ∧ g'.word = g.word) :
    CallPoint arch g' j l st := by
  match l, h with
  | none, h => exact h
  | some (c, core), ⟨m, hm, h⟩ =>
      have hcurrent : (g.monitor j = true → core.reg .oldVal = g.word) →
          g'.monitor j = true → core.reg .oldVal = g'.word := by
        intro hold hset
        obtain ⟨hset', hword⟩ := hmon hset
        rw [hword]
        exact hold hset'
      refine ⟨m, hm, ?_⟩
      cases m with
      | loaded => exact ⟨h.1, hcurrent h.2⟩
      | atStore => exact ⟨h.1, hcurrent h.2.1, h.2.2⟩
      | start | tried | negated | finished => exact h

omit [DecidableEq ι] in
theorem AtomicCall.marks_start (c : AtomicCall) : (c.marks arch)[0]? = some .start := by
  cases arch <;> cases c <;> rfl

omit [DecidableEq ι] in
theorem AtomicCall.marks_end (c : AtomicCall) :
    (c.marks arch)[(c.code arch).length]? = some .finished := by
  cases arch <;> cases c <;> rfl

omit [DecidableEq ι] in
theorem AtomicCall.args_args (c : AtomicCall) (reg : AtomicReg → ℕ) : c.Args (c.args reg) := by
  cases c <;> simp [Args, args]

omit [DecidableEq ι] in
theorem AtomicRel.start (h : ∀ i, s.thread i = none) :
    AtomicRel arch s ⟨s.shared.word, fun _ => .outside⟩ := by
  refine ⟨rfl, fun i => ?_⟩
  rw [h i]
  rfl

/-- The relation after a step of CPU `i`. -/
theorem AtomicRel.next {i : ι} {op : AtomicOp} {st : CallStatus} {w : ℕ} (h : AtomicRel arch s t)
    (hs : Interleave (AtomicStep arch) s (i, op) s') (hmon : MonitorsOk i s.shared s'.shared)
    (hword : w = s'.shared.word) (hpoint : CallPoint arch s'.shared i (s'.thread i) st) :
    AtomicRel arch s' ⟨w, Function.update t.thread i st⟩ where
  word := hword
  point j := by
    by_cases hji : j = i
    · subst hji
      simp only [Function.update_self]
      exact hpoint
    · simp only [Function.update_of_ne hji, hs.other hji]
      exact (h.point j).other (hmon j hji)

/-- Instruction by instruction, the CPUs do what calls do that take effect at one instant. -/
theorem atomic_simulation (arch : Arch) :
    Simulation (Interleave (AtomicStep arch)) (Interleave (InstantStep (ι := ι) arch))
      AtomicOp.event InstantOp.event (AtomicRel arch) where
  answer := by
    rintro s ⟨i, op⟩ s' t hR hs
    have hself : atomicStep arch i s.shared (s.thread i) op = some (s'.shared, s'.thread i) :=
      hs.self
    have hpoint := hR.point i
    have hrefl : MonitorsOk i s.shared s.shared := fun _ _ hmon => ⟨hmon, rfl⟩
    cases op with
    | call c reg =>
        simp only [atomicStep] at hself
        split at hself
        · rename_i hnone
          obtain ⟨hshared, hthread⟩ := Prod.mk.inj (Option.some.inj hself)
          rw [hnone] at hpoint
          have hstep : InstantStep arch i t.shared (t.thread i) (.call c) t.shared (.called c) :=
            if_pos hpoint
          refine answer_step (b := (i, .call c)) rfl (.move hstep) (hR.next hs ?_ ?_ ?_)
          · rw [← hshared]
            exact hrefl
          · rw [← hshared]
            exact hR.word
          · rw [← hthread]
            exact ⟨.start, c.marks_start, rfl, c.args_args reg⟩
        · cases hself
    | exec ok =>
        cases hl : s.thread i with
        | none => simp [atomicStep, hl] at hself
        | some l =>
            obtain ⟨c, core⟩ := l
            rw [hl] at hpoint hself
            obtain ⟨instr, hat, hexec⟩ := Option.map_eq_some_iff.mp hself
            obtain ⟨hshared, hthread⟩ := Prod.mk.inj hexec
            obtain ⟨st', hpoint', heffect, hmon⟩ := call_exec (b := ok) hpoint hat
            rw [hshared] at hpoint' heffect hmon
            rw [hthread] at hpoint'
            cases heffect with
            | none hword hstatus =>
                have hnext := hR.next hs hmon (w := t.shared) (hR.word.trans hword.symm) hpoint'
                rw [hstatus, Function.update_eq_self] at hnext
                exact answer_stutter rfl hnext
            | effect hcalled hword hstatus =>
                have hstep : InstantStep arch i t.shared (t.thread i) .effect
                    (c.after arch t.shared) (.done (c.value t.shared)) := by
                  unfold InstantStep instantStep
                  rw [hcalled]
                rw [hstatus, ← hR.word] at hpoint'
                refine answer_step (b := (i, .effect)) rfl (.move hstep)
                  (hR.next hs hmon ?_ hpoint')
                rw [hword, hR.word]
    | ret v =>
        cases hl : s.thread i with
        | none => simp [atomicStep, hl] at hself
        | some l =>
            obtain ⟨c, core⟩ := l
            rw [hl] at hpoint hself
            simp only [atomicStep] at hself
            split at hself
            · rename_i hend
              obtain ⟨hshared, hthread⟩ := Prod.mk.inj (Option.some.inj hself)
              obtain ⟨m, hm, hmark⟩ := hpoint
              rw [hend.1, c.marks_end] at hm
              obtain rfl := Option.some.inj hm
              have hstep : InstantStep arch i t.shared (t.thread i) (.ret v) t.shared .outside := by
                refine if_pos ?_
                rw [hend.2]
                exact hmark
              refine answer_step (b := (i, .ret v)) rfl (.move hstep) (hR.next hs ?_ ?_ ?_)
              · rw [← hshared]
                exact hrefl
              · rw [← hshared]
                exact hR.word
              · rw [← hthread]
                rfl
            · cases hself

/-- Whatever the order of the instructions, the callers see what they would see if each call
took effect at one instant between the call and the return, and the word is what it would be. -/
theorem atomic_calls_instant {ops : List (ι × AtomicOp)} (hstart : ∀ i, s.thread i = none)
    (hrun : Run (Interleave (AtomicStep arch)) s ops s') :
    ∃ ys t, Run (Interleave (InstantStep arch)) ⟨s.shared.word, fun _ => .outside⟩ ys t ∧
      ys.filterMap InstantOp.event = ops.filterMap AtomicOp.event ∧
      t.shared = s'.shared.word := by
  obtain ⟨ys, t, hys, hvis, hR⟩ := (atomic_simulation arch).run hrun (.start hstart)
  exact ⟨ys, t, hys, hvis, hR.word⟩

/-- Two CPUs on arm64. The store of the second one makes the first one load again. -/
theorem atomic_calls_instant_two_cpus :
    ∃ (s : Sys ℕ (SharedWord ℕ) AtomicCpu) (ys : List (ℕ × InstantOp)) (t : Sys ℕ ℕ CallStatus),
      s.shared.word = 8 ∧ Run (Interleave (InstantStep .arm64)) ⟨5, fun _ => .outside⟩ ys t ∧
      ys.filterMap InstantOp.event = [(0, .call (.fetchAdd 1)), (1, .call (.fetchAdd 2)),
        (1, .ret (some 5)), (0, .ret (some 7))] ∧ t.shared = s.shared.word := by
  let ops : List (ℕ × AtomicOp) :=
    [(0, .call (.fetchAdd 1) fun _ => 0), (1, .call (.fetchAdd 2) fun _ => 0), (0, .exec true),
      (1, .exec true), (1, .exec true), (0, .exec true), (1, .exec true), (0, .exec true),
      (1, .exec true), (1, .ret (some 5)), (0, .exec true), (0, .exec true), (0, .exec true),
      (0, .exec true), (0, .exec true), (0, .ret (some 7))]
  obtain ⟨s, hs, hword⟩ := Option.map_eq_some_iff.mp (by decide :
    (ops.foldlM (Sys.move (atomicStep .arm64))
      (⟨⟨5, fun _ => false⟩, fun _ => none⟩ : Sys ℕ (SharedWord ℕ) AtomicCpu)).map
        (fun s => s.shared.word) = some 8)
  have hrun : Run (Interleave (AtomicStep .arm64)) _ _ s := Sys.run_of_foldlM hs
  obtain ⟨ys, t, hys, hvis, hend⟩ := atomic_calls_instant (fun _ => rfl) hrun
  exact ⟨s, ys, t, hword, hys, hvis, hend⟩

end Runs

/-! ## Counters -/

/-- What a call adds to the word; calls that set it are not used on a counter. -/
def AtomicCall.added : AtomicCall → Option ℕ
  | .exchangeAcquire _ | .storeRelease _ => none
  | .load => some 0
  | .fetchAdd v => some v.toNat
  | .fetchSub v => some (2 ^ 32 - v.toNat)

/-- What the call of an event adds. -/
def AtomicEvent.added : AtomicEvent → ℕ
  | .call c => c.added.getD 0
  | .ret _ => 0

/-- What a CPU has called for and not done yet. -/
def CallStatus.due : CallStatus → ℕ
  | .called c => c.added.getD 0
  | _ => 0

def AtomicEvent.onCounter : AtomicEvent → Bool
  | .call c => c.added.isSome
  | .ret _ => true

/-- All calls are on a counter. -/
def OnCounter (es : List (ι × AtomicEvent)) : Prop := ∀ e ∈ es, e.2.onCounter

section Counters

variable {arch : Arch} {s s' : Sys ι ℕ CallStatus} {ys : List (ι × InstantOp)}

theorem AtomicCall.after_added {c : AtomicCall} {n : ℕ} (w : ℕ) (h : c.added = some n) :
    c.after arch w ≡ w + n [MOD 2 ^ 32] := by
  cases c with
  | exchangeAcquire v | storeRelease v => cases h
  | load =>
      cases h
      rfl
  | fetchAdd v =>
      cases h
      exact Nat.mod_modEq _ _
  | fetchSub v =>
      cases h
      have hlt := v.isLt
      have heq : w + 2 ^ 32 - v.toNat = w + (2 ^ 32 - v.toNat) := by omega
      rw [← heq]
      exact Nat.mod_modEq _ _

/-- The word, together with what is still due, grows by what is called for. -/
theorem InstantStep.due {D : Finset ι} {i : ι} {op : InstantOp} (hi : i ∈ D)
    (hdue : ∀ c, s.thread i = .called c → c.added.isSome)
    (hs : Interleave (InstantStep arch) s (i, op) s') :
    s'.shared + ∑ j ∈ D, (s'.thread j).due ≡
      s.shared + ∑ j ∈ D, (s.thread j).due +
        (((InstantOp.event (i, op)).map fun e => e.2.added).getD 0) [MOD 2 ^ 32] := by
  cases hs with
  | move h =>
      rename_i w l
      have hsum := sum_update hi s.thread l CallStatus.due
      simp only at hsum ⊢
      cases op with
      | call c =>
          simp only [InstantStep, instantStep] at h
          split at h
          · rename_i houtside
            obtain ⟨rfl, rfl⟩ := Prod.mk.inj (Option.some.inj h)
            rw [houtside] at hsum
            have heq : ∑ j ∈ D, (Function.update s.thread i (.called c) j).due =
                ∑ j ∈ D, (s.thread j).due + c.added.getD 0 := hsum
            rw [heq, ← Nat.add_assoc]
            rfl
          · cases h
      | effect =>
          cases hl : s.thread i with
          | outside | done => simp [InstantStep, instantStep, hl] at h
          | called c =>
              simp only [InstantStep, instantStep, hl, Option.some.injEq, Prod.mk.injEq] at h
              obtain ⟨rfl, rfl⟩ := h
              obtain ⟨n, hn⟩ := Option.isSome_iff_exists.mp (hdue c hl)
              have hdue' : (CallStatus.called c).due = n := by
                unfold CallStatus.due
                simp only [hn, Option.getD_some]
              rw [hl, hdue'] at hsum
              have heq : ∑ j ∈ D, (s.thread j).due =
                  n + ∑ j ∈ D, (Function.update s.thread i (.done (c.value s.shared)) j).due := by
                rw [Nat.add_comm, hsum]
                rfl
              rw [heq, ← Nat.add_assoc]
              exact Nat.ModEq.add_right _ (AtomicCall.after_added s.shared hn)
      | ret v =>
          simp only [InstantStep, instantStep] at h
          split at h
          · rename_i hdone
            obtain ⟨rfl, rfl⟩ := Prod.mk.inj (Option.some.inj h)
            rw [hdone] at hsum
            have heq : ∑ j ∈ D, (Function.update s.thread i .outside j).due =
                ∑ j ∈ D, (s.thread j).due := hsum
            rw [heq]
            rfl
          · cases h

/-- Calls on a counter stay calls on a counter. -/
theorem InstantStep.onCounter {i : ι} {op : InstantOp}
    (hs : Interleave (InstantStep arch) s (i, op) s')
    (hdue : ∀ j c, s.thread j = .called c → c.added.isSome)
    (hop : ∀ c, op = .call c → c.added.isSome) :
    ∀ j c, s'.thread j = .called c → c.added.isSome := by
  intro j c hj
  by_cases hji : j = i
  · subst hji
    have hself : instantStep arch s.shared (s.thread j) op = some (s'.shared, s'.thread j) :=
      hs.self
    rw [hj] at hself
    cases op with
    | call d =>
        simp only [instantStep] at hself
        split at hself
        · obtain ⟨_, hc⟩ := Prod.mk.inj (Option.some.inj hself)
          cases hc
          exact hop c rfl
        · cases hself
    | effect =>
        simp only [instantStep] at hself
        split at hself <;> simp at hself
    | ret v =>
        simp only [instantStep] at hself
        split at hself <;> simp at hself
  · rw [hs.other hji] at hj
    exact hdue j c hj

theorem run_due {D : Finset ι} (hrun : Run (Interleave (InstantStep arch)) s ys s')
    (hD : ∀ a ∈ ys, a.1 ∈ D) (hdue : ∀ j c, s.thread j = .called c → c.added.isSome)
    (hcounter : OnCounter (ys.filterMap InstantOp.event)) :
    s'.shared + ∑ j ∈ D, (s'.thread j).due ≡
      s.shared + ∑ j ∈ D, (s.thread j).due +
        ((ys.filterMap InstantOp.event).map fun e => e.2.added).sum [MOD 2 ^ 32] := by
  induction hrun with
  | nil s => rfl
  | @cons s u s' a ys head tail ih =>
      obtain ⟨i, op⟩ := a
      have hstep := InstantStep.due (hD (i, op) List.mem_cons_self) (hdue i) head
      have hevents : (((i, op) :: ys).filterMap InstantOp.event) =
          (InstantOp.event (i, op)).toList ++ ys.filterMap InstantOp.event := by
        rw [List.filterMap_cons]
        split <;> rename_i heq <;> rw [heq] <;> rfl
      rw [hevents] at hcounter ⊢
      have hop : ∀ c, op = .call c → c.added.isSome := by
        rintro c rfl
        exact hcounter (i, .call c) (by simp [InstantOp.event])
      have htail := ih (fun a ha => hD a (List.mem_cons_of_mem _ ha))
        (InstantStep.onCounter head hdue hop)
        fun e he => hcounter e (List.mem_append_right _ he)
      refine htail.trans ?_
      rw [List.map_append, List.sum_append, ← Nat.add_assoc]
      refine Nat.ModEq.add_right _ (hstep.trans ?_)
      cases InstantOp.event (i, op) <;> rfl

/-- No update of a counter is lost: once all calls have returned, the word has changed by the
sum of what was added and subtracted. -/
theorem fetch_counts {s s' : Sys ι (SharedWord ι) AtomicCpu} {ops : List (ι × AtomicOp)}
    (hstart : ∀ i, s.thread i = none) (hrun : Run (Interleave (AtomicStep arch)) s ops s')
    (hcounter : OnCounter (ops.filterMap AtomicOp.event)) (hend : ∀ i, s'.thread i = none) :
    s'.shared.word ≡ s.shared.word +
      ((ops.filterMap AtomicOp.event).map fun e => e.2.added).sum [MOD 2 ^ 32] := by
  obtain ⟨ys, t, hys, hvis, hR⟩ := (atomic_simulation arch).run hrun (.start hstart)
  have hdone : ∀ j, (t.thread j).due = 0 := by
    intro j
    have hpoint := hR.point j
    rw [hend j] at hpoint
    rw [show t.thread j = .outside from hpoint]
    rfl
  rw [← hvis] at hcounter ⊢
  have hsum := run_due (D := (ys.map Prod.fst).toFinset) hys
    (fun a ha => List.mem_toFinset.mpr (List.mem_map_of_mem ha)) (fun j c hj => by cases hj)
    hcounter
  have hzero : ∑ j ∈ (ys.map Prod.fst).toFinset, (t.thread j).due = 0 :=
    Finset.sum_eq_zero fun j _ => hdone j
  have hzero' : ∑ j ∈ (ys.map Prod.fst).toFinset, CallStatus.outside.due = 0 :=
    Finset.sum_eq_zero fun _ _ => rfl
  rw [hzero, hzero', hR.word] at hsum
  exact hsum

/-- Two references are taken and one is given up, all at the same time. -/
theorem fetch_counts_references :
    ∃ (s : Sys (Fin 3) (SharedWord (Fin 3)) AtomicCpu) (es : List (Fin 3 × AtomicEvent)),
      s.shared.word = 2 ∧ es.length = 6 ∧
        s.shared.word ≡ 1 + (es.map fun e => e.2.added).sum [MOD 2 ^ 32] := by
  let ops : List (Fin 3 × AtomicOp) :=
    [(0, .call (.fetchAdd 1) fun _ => 0), (1, .call (.fetchSub 1) fun _ => 0),
      (2, .call (.fetchAdd 1) fun _ => 0), (1, .exec true), (2, .exec true), (1, .exec true),
      (0, .exec true), (0, .ret (some 1)), (2, .ret (some 1)), (1, .ret (some 2))]
  obtain ⟨s, hs, hword⟩ := Option.map_eq_some_iff.mp (by decide :
    (ops.foldlM (Sys.move (atomicStep .riscv))
      (⟨⟨1, fun _ => false⟩, fun _ => none⟩ : Sys (Fin 3) (SharedWord (Fin 3)) AtomicCpu)).map
        (fun s => (s.shared.word, decide (∀ i, (s.thread i).isNone))) = some (2, true))
  obtain ⟨hword, hidle⟩ := Prod.mk.inj hword
  have hrun : Run (Interleave (AtomicStep .riscv)) _ _ s := Sys.run_of_foldlM hs
  have hcounter : OnCounter (ops.filterMap AtomicOp.event) := by
    unfold OnCounter
    decide
  exact ⟨s, ops.filterMap AtomicOp.event, hword, rfl, fetch_counts (fun _ => rfl) hrun hcounter
    fun i => Option.isNone_iff_eq_none.mp (of_decide_eq_true hidle i)⟩

end Counters

end Steps

end Vectra

import Vectra.Lib.Run

/-!
# The timer of `timer.c` and its interrupts (arm64)

The handler masks the timer, and only `timer_init` unmasks it again. So every unmasking is
good for one tick at most, and a wait for more ticks than that does not end.
-/

namespace Vectra.Arm64

open Lib

/-! ## The timer -/

/-- The physical counter since the reset, the compare value and the control register of
the timer, whether `gic_handlers[TIMER_IRQ_ID]` is set, and `global_ticks`. While the CPU is
inside `timer_wait`, `waitEnd` is its local `end`. -/
structure TimerCpu where
  cntpct : ℕ
  cntpCval : BitVec 64
  cntpCtl : BitVec 64
  cntfrq : BitVec 64
  registered : Bool
  globalTicks : BitVec 64
  waitEnd : Option (BitVec 64)
  halted : Bool
  deriving DecidableEq

def timerIrqId : BitVec 32 := 30#32

def timerFreq : BitVec 64 := 100#64

namespace TimerCpu

def timerGetCoreFrequency (c : TimerCpu) : BitVec 64 := c.cntfrq

/-- A write of `cntp_tval_el0` sets the compare value relative to the counter; the value is
a signed 32-bit one. -/
def timerSetFrequency (c : TimerCpu) (freq : BitVec 64) : TimerCpu :=
  { c with cntpCval := BitVec.ofNat 64 c.cntpct + (freq.setWidth 32).signExtend 64 }

def timerDisable (c : TimerCpu) : TimerCpu := { c with cntpCtl := c.cntpCtl &&& ~~~1#64 }

def timerEnable (c : TimerCpu) : TimerCpu := { c with cntpCtl := c.cntpCtl ||| 1#64 }

def timerUnmask (c : TimerCpu) : TimerCpu := { c with cntpCtl := c.cntpCtl &&& ~~~2#64 }

def timerMask (c : TimerCpu) : TimerCpu := { c with cntpCtl := c.cntpCtl ||| 2#64 }

/-- The handler returns 0. -/
def timerHandler (c : TimerCpu) : TimerCpu :=
  let c := c.timerMask
  let c := { c with globalTicks := c.globalTicks + 1 }
  let freq := c.timerGetCoreFrequency
  c.timerSetFrequency (freq / timerFreq)

/-- Without the enable bit and the priority in the distributor. -/
def timerInit (c : TimerCpu) : TimerCpu :=
  let freq := c.timerGetCoreFrequency
  let c := { c with registered := true }
  ((c.timerSetFrequency (freq / timerFreq)).timerUnmask).timerEnable

/-- `gic_handle_interrupts` for a value of the acknowledge register. No other driver has a
handler, and an interrupt without one ends in `panic`. -/
def gicHandleInterrupts (c : TimerCpu) (iar : BitVec 32) : TimerCpu :=
  let irqId := iar &&& 0x3FF#32
  if irqId.toNat ≥ 1022 then c
  else if irqId = timerIrqId ∧ c.registered = true then c.timerHandler
  else { c with halted := true }

/-- The timer asserts its interrupt. -/
def Asserted (c : TimerCpu) : Prop :=
  c.cntpCtl.getLsbD 0 = true ∧ c.cntpCtl.getLsbD 1 = false ∧
    c.cntpCval ≤ BitVec.ofNat 64 c.cntpct

instance (c : TimerCpu) : Decidable c.Asserted := inferInstanceAs (Decidable (_ ∧ _ ∧ _))

/-- What the interrupt controller can hand over: the timer's interrupt while it is
asserted, and any other one. -/
def Forwards (c : TimerCpu) (iar : BitVec 32) : Prop :=
  iar &&& 0x3FF#32 = timerIrqId → c.Asserted

instance (c : TimerCpu) (iar : BitVec 32) : Decidable (c.Forwards iar) :=
  inferInstanceAs (Decidable (_ → _))

end TimerCpu

/-- Time goes by; an interrupt; the calls of the kernel, and one test of the loop of
`timer_wait`. -/
inductive TimerEvent
  | clock (cycles : ℕ)
  | fiq (iar : BitVec 32)
  | timerInit
  | timerUnmask
  | timerMask
  | timerEnable
  | timerDisable
  | timerWait (ticks : BitVec 64)
  | test
  deriving DecidableEq

/-- The calls that clear the mask of the timer. -/
def TimerEvent.unmasks : TimerEvent → Bool
  | .timerInit | .timerUnmask => true
  | _ => false

/-- A call is made by a CPU that is not in `timer_wait` and has not stopped. -/
def TimerCpu.call (c : TimerCpu) (f : TimerCpu → TimerCpu) : Option TimerCpu :=
  if c.halted = false ∧ c.waitEnd = none then some (f c) else none

def timerStep (c : TimerCpu) : TimerEvent → Option TimerCpu
  | .clock cycles => some { c with cntpct := c.cntpct + cycles }
  | .fiq iar =>
      if c.halted = false ∧ c.Forwards iar then some (c.gicHandleInterrupts iar) else none
  | .timerInit => c.call TimerCpu.timerInit
  | .timerUnmask => c.call TimerCpu.timerUnmask
  | .timerMask => c.call TimerCpu.timerMask
  | .timerEnable => c.call TimerCpu.timerEnable
  | .timerDisable => c.call TimerCpu.timerDisable
  | .timerWait ticks => c.call fun c => { c with waitEnd := some (c.globalTicks + ticks) }
  | .test =>
      if c.halted then none
      else c.waitEnd.map fun stop => if c.globalTicks < stop then c else { c with waitEnd := none }

/-! ## One tick for each unmasking -/

/-- At most `n` ticks, and fewer while the timer can still interrupt. -/
structure TicksLeft (n : ℕ) (c : TimerCpu) : Prop where
  ticks_le : c.globalTicks.toNat ≤ n
  ticks_lt : c.registered = true → c.cntpCtl.getLsbD 1 = false → c.globalTicks.toNat < n

section Cpu

variable {c s t u v w : TimerCpu} {n : ℕ} {iar : BitVec 32} {ticks : BitVec 64}
  {events xs ys : List TimerEvent} {event : TimerEvent}

theorem getLsbD_mask (ctl : BitVec 64) : (ctl ||| 2#64).getLsbD 1 = true := by
  rw [BitVec.getLsbD_or]
  simp

theorem call_some {f : TimerCpu → TimerCpu} (h : c.call f = some t) : t = f c := by
  unfold TimerCpu.call at h
  rw [Option.ite_none_right_eq_some] at h
  exact (Option.some.inj h.2).symm

theorem timerWait_some (h : timerStep c (.timerWait ticks) = some t) :
    t = { c with waitEnd := some (c.globalTicks + ticks) } :=
  call_some (f := fun c => { c with waitEnd := some (c.globalTicks + ticks) }) h

namespace TicksLeft

/-- What changes neither the ticks nor the handler, and clears no mask. -/
theorem kept (h : TicksLeft n s) (hticks : t.globalTicks = s.globalTicks)
    (hreg : t.registered = s.registered)
    (hmask : t.cntpCtl.getLsbD 1 = false → s.cntpCtl.getLsbD 1 = false) : TicksLeft n t := by
  refine ⟨hticks ▸ h.ticks_le, fun hr hm => ?_⟩
  rw [hticks]
  exact h.ticks_lt (hreg ▸ hr) (hmask hm)

theorem unmask (h : TicksLeft n s) (hticks : t.globalTicks = s.globalTicks) :
    TicksLeft (n + 1) t := by
  have hle := h.ticks_le
  rw [← hticks] at hle
  exact ⟨by omega, fun _ _ => by omega⟩

/-- The handler takes the one tick that an unmasking leaves. -/
theorem timerHandler (h : TicksLeft n s) (hreg : s.registered = true)
    (hmask : s.cntpCtl.getLsbD 1 = false) : TicksLeft n s.timerHandler := by
  have hlt := h.ticks_lt hreg hmask
  have hcount : s.timerHandler.globalTicks.toNat = (s.globalTicks.toNat + 1) % 2 ^ 64 := by
    unfold TimerCpu.timerHandler TimerCpu.timerSetFrequency TimerCpu.timerMask
    rw [BitVec.toNat_add]
    rfl
  refine ⟨by omega, fun _ hclear => ?_⟩
  have hset : s.timerHandler.cntpCtl.getLsbD 1 = true := getLsbD_mask s.cntpCtl
  rw [hset] at hclear
  cases hclear

theorem fiq (h : TicksLeft n s) (hforward : s.Forwards iar) :
    TicksLeft n (s.gicHandleInterrupts iar) := by
  simp only [TimerCpu.gicHandleInterrupts]
  split
  · exact h
  · split
    · rename_i htimer
      exact h.timerHandler htimer.2 (hforward htimer.1).2.1
    · exact h.kept rfl rfl id

theorem step (h : TicksLeft n s) (hs : timerStep s event = some t) :
    TicksLeft (if event.unmasks then n + 1 else n) t := by
  cases event with
  | clock cycles =>
      cases Option.some.inj hs
      exact h.kept rfl rfl id
  | fiq iar =>
      simp only [timerStep, Option.ite_none_right_eq_some, Option.some.injEq] at hs
      rw [← hs.2]
      exact h.fiq hs.1.2
  | timerInit =>
      rw [call_some hs]
      exact h.unmask rfl
  | timerUnmask =>
      rw [call_some hs]
      exact h.unmask rfl
  | timerMask =>
      rw [call_some hs]
      refine h.kept rfl rfl fun hclear => ?_
      rw [show s.timerMask.cntpCtl.getLsbD 1 = true from getLsbD_mask s.cntpCtl] at hclear
      cases hclear
  | timerEnable =>
      rw [call_some hs]
      refine h.kept rfl rfl fun hclear => ?_
      rw [TimerCpu.timerEnable, BitVec.getLsbD_or, Bool.or_eq_false_iff] at hclear
      exact hclear.1
  | timerDisable =>
      rw [call_some hs]
      refine h.kept rfl rfl fun hclear => ?_
      have hkeep : (~~~1#64).getLsbD 1 = true := by decide
      rwa [TimerCpu.timerDisable, BitVec.getLsbD_and, hkeep, Bool.and_true] at hclear
  | timerWait ticks =>
      rw [timerWait_some hs]
      exact h.kept rfl rfl id
  | test =>
      simp only [timerStep, Option.ite_none_left_eq_some, Option.map_eq_some_iff] at hs
      obtain ⟨_, stop, _, rfl⟩ := hs
      by_cases hlt : s.globalTicks < stop
      · rw [if_pos hlt]
        exact h
      · rw [if_neg hlt]
        exact h.kept rfl rfl id

theorem run (hrun : Run (StepOf timerStep) s events t) (hticks : s.globalTicks = 0)
    (hreg : s.registered = false) : TicksLeft (events.countP TimerEvent.unmasks) t := by
  refine hrun.invariant_labels (I := fun xs u => TicksLeft (xs.countP TimerEvent.unmasks) u)
    (fun xs u event v hu hstep => ?_) ⟨by rw [hticks]; decide, fun hr => ?_⟩
  · have hnext := hu.step hstep
    rw [List.countP_append, List.countP_singleton]
    by_cases hunmask : event.unmasks
    · simpa [hunmask] using hnext
    · simpa [hunmask] using hnext
  · rw [hreg] at hr
    cases hr

end TicksLeft

/-- A wait for more ticks than there have been unmaskings does not end. -/
theorem timer_wait_stuck (hticks : s.globalTicks = 0) (hreg : s.registered = false)
    (hxs : Run (StepOf timerStep) s xs u) (hcall : timerStep u (.timerWait ticks) = some v)
    (hys : Run (StepOf timerStep) v ys w) (hwait : w.waitEnd = v.waitEnd)
    (hwrap : u.globalTicks.toNat + ticks.toNat < 2 ^ 64)
    (hfew : (xs ++ ys).countP TimerEvent.unmasks < u.globalTicks.toNat + ticks.toNat) :
    w.globalTicks.toNat ≤ (xs ++ ys).countP TimerEvent.unmasks ∧
      (w.halted = false → timerStep w .test = some w) := by
  have hall := (TicksLeft.run ((hxs.snoc hcall).append hys) hticks hreg).ticks_le
  have hcount : (xs ++ [TimerEvent.timerWait ticks] ++ ys).countP TimerEvent.unmasks =
      (xs ++ ys).countP TimerEvent.unmasks := by
    simp [TimerEvent.unmasks]
  rw [hcount] at hall
  refine ⟨hall, fun hrunning => ?_⟩
  have hstop : w.waitEnd = some (u.globalTicks + ticks) := by
    rw [hwait, timerWait_some hcall]
  have hlt : w.globalTicks < u.globalTicks + ticks := by
    rw [BitVec.lt_def, BitVec.toNat_add, Nat.mod_eq_of_lt hwrap]
    omega
  simp [timerStep, hrunning, hstop, hlt]

/-- The boot of the CPU with the timer, and a wait for two ticks. -/
theorem timer_wait_stuck_two_ticks :
    ∃ u v w : TimerCpu,
      Run (StepOf timerStep) ⟨5, 0, 0, 6400, false, 0, none, false⟩ [.timerInit] u ∧
      timerStep u (.timerWait 2) = some v ∧
      Run (StepOf timerStep) v [.clock 64, .fiq 30, .test, .clock 1000] w ∧
      w.globalTicks = 1 ∧ timerStep w .test = some w := by
  have hxs : Run (StepOf timerStep) ⟨5, 0, 0, 6400, false, 0, none, false⟩ [.timerInit]
      ⟨5, 69, 1, 6400, true, 0, none, false⟩ := (run_stepOf_iff _ _ _ _).mpr (by decide +kernel)
  have hcall : timerStep ⟨5, 69, 1, 6400, true, 0, none, false⟩ (.timerWait 2) =
      some ⟨5, 69, 1, 6400, true, 0, some 2, false⟩ := by decide +kernel
  have hys : Run (StepOf timerStep) ⟨5, 69, 1, 6400, true, 0, some 2, false⟩
      [.clock 64, .fiq 30, .test, .clock 1000] ⟨1069, 133, 3, 6400, true, 1, some 2, false⟩ :=
    (run_stepOf_iff _ _ _ _).mpr (by decide +kernel)
  exact ⟨_, _, _, hxs, hcall, hys, rfl,
    (timer_wait_stuck rfl rfl hxs hcall hys rfl (by decide) (by decide)).2 rfl⟩

end Cpu

end Vectra.Arm64

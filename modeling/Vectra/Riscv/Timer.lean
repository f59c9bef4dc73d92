import Vectra.Lib.Run

/-!
# The timer of `timer.c` and its interrupts (RISC-V)

The hart counts the timer interrupts it takes and moves `stimecmp` by one interval with
each of them. The comparison is with the counter that runs on, so the count of ticks can
be told from the clock, however late the interrupts are taken.
-/

namespace Vectra

open Lib

/-! ## The hart -/

/-- The cycles since the reset, of which the `time` register shows the low 64 bits, the
registers that decide about interrupts, and `global_ticks`. While the hart is inside
`timer_wait`, `waitEnd` is its local `end`. -/
structure TimerHart where
  clock : ℕ
  stimecmp : BitVec 64
  sie : BitVec 64
  sip : BitVec 64
  globalTicks : BitVec 64
  waitEnd : Option (BitVec 64)
  halted : Bool
  deriving DecidableEq

def timerFreq : BitVec 64 := 100#64

def excTypeSsi : BitVec 64 := 1#64

def excTypeSti : BitVec 64 := 5#64

/-- `SCAUSE_IS_IRQ`. -/
def scauseIsIrq (scause : BitVec 64) : Bool := (scause &&& 0x8000000000000000#64) >>> 63 ≠ 0#64

def scauseCode (scause : BitVec 64) : BitVec 64 := scause &&& 0x7FFFFFFFFFFFFFFF#64

/-- The cause of a supervisor timer interrupt. -/
def timerCause : BitVec 64 := 0x8000000000000005#64

namespace TimerHart

def timerGetTime (h : TimerHart) : BitVec 64 := BitVec.ofNat 64 h.clock

def timerGetCmp (h : TimerHart) : BitVec 64 := h.stimecmp

def timerSetCmp (h : TimerHart) (cmpValue : BitVec 64) : TimerHart :=
  { h with stimecmp := cmpValue }

def timerDisable (h : TimerHart) : TimerHart := { h with sie := h.sie &&& ~~~0x20#64 }

def timerEnable (h : TimerHart) : TimerHart := { h with sie := h.sie ||| 0x20#64 }

def timerHandler (h : TimerHart) : TimerHart :=
  let h := { h with globalTicks := h.globalTicks + 1 }
  h.timerSetCmp (h.timerGetCmp + timerFreq * 100)

def timerInit (h : TimerHart) : TimerHart :=
  let timerValue := h.timerGetTime
  let h := { h with globalTicks := 0 }
  (h.timerSetCmp (timerValue + timerFreq * 100)).timerEnable

/-- `interrupt_exception_handler`, without what it prints: an exception ends in `panic`, and
a software interrupt in `halt`. -/
def interruptExceptionHandler (h : TimerHart) (scause : BitVec 64) : TimerHart :=
  let h := { h with sip := h.sip &&& ~~~2#64 }
  if !scauseIsIrq scause then { h with halted := true }
  else if scauseCode scause = excTypeSsi then { h with halted := true }
  else if scauseCode scause = excTypeSti then h.timerHandler
  else h

/-- The timer interrupt is pending. -/
def Pending (h : TimerHart) : Prop := h.stimecmp ≤ h.timerGetTime

instance (h : TimerHart) : Decidable h.Pending := inferInstanceAs (Decidable (_ ≤ _))

/-- What the hardware can trap for: any exception, and an interrupt that is enabled and
pending. When `sstatus` lets it through is left open. -/
def Raised (h : TimerHart) (scause : BitVec 64) : Prop :=
  scauseIsIrq scause = true → h.sie.getLsbD (scauseCode scause).toNat = true ∧
    if scauseCode scause = excTypeSti then h.Pending
    else h.sip.getLsbD (scauseCode scause).toNat = true

instance (h : TimerHart) (scause : BitVec 64) : Decidable (h.Raised scause) := by
  unfold Raised
  infer_instance

end TimerHart

/-- Time goes by, or another hart raises software interrupts; a trap; the calls of the
kernel, and one test of the loop of `timer_wait`. -/
inductive TimerEvent
  | clock (cycles : ℕ)
  | raise (bits : BitVec 64)
  | trap (scause : BitVec 64)
  | timerDisable
  | timerEnable
  | timerWait (ticks : BitVec 64)
  | test
  deriving DecidableEq

/-- A hart that is halted does nothing more. -/
def timerStep (h : TimerHart) : TimerEvent → Option TimerHart
  | .clock cycles => some { h with clock := h.clock + cycles }
  | .raise bits => some { h with sip := h.sip ||| bits }
  | .trap scause =>
      if h.halted = false ∧ h.Raised scause then some (h.interruptExceptionHandler scause) else none
  | .timerDisable => if h.halted = false ∧ h.waitEnd = none then some h.timerDisable else none
  | .timerEnable => if h.halted = false ∧ h.waitEnd = none then some h.timerEnable else none
  | .timerWait ticks =>
      if h.halted = false ∧ h.waitEnd = none then
        some { h with waitEnd := some (h.globalTicks + ticks) }
      else none
  | .test =>
      if h.halted then none
      else h.waitEnd.map fun stop => if h.globalTicks < stop then h else { h with waitEnd := none }

/-! ## The ticks and the clock -/

/-- `TIMER_FREQ * 100`. -/
def tickCycles : ℕ := 10000

/-- After `n` ticks since the clock showed `start`. -/
structure Ticked (start n : ℕ) (h : TimerHart) : Prop where
  ticks : h.globalTicks.toNat = n
  alarm : h.stimecmp.toNat = start + (n + 1) * tickCycles
  due : start + n * tickCycles ≤ h.clock

section Hart

variable {h h' s t u v w : TimerHart} {scause ticks : BitVec 64} {start n : ℕ}
  {events xs ys : List TimerEvent} {event : TimerEvent}

theorem timerGetTime_toNat (hclock : h.clock < 2 ^ 64) : h.timerGetTime.toNat = h.clock :=
  Nat.mod_eq_of_lt hclock

theorem pending_iff (hclock : h.clock < 2 ^ 64) : h.Pending ↔ h.stimecmp.toNat ≤ h.clock := by
  unfold TimerHart.Pending
  rw [BitVec.le_def, timerGetTime_toNat hclock]

theorem scause_eq_timerCause (hirq : scauseIsIrq scause = true)
    (hcode : scauseCode scause = excTypeSti) : scause = timerCause := by
  have htop : scause &&& 0x8000000000000000#64 =
      if scause.getLsbD 63 then 0x8000000000000000#64 else 0#64 := BitVec.and_twoPow scause 63
  have hset : scause.getLsbD 63 = true := by
    by_contra hclear
    rw [if_neg hclear] at htop
    simp [scauseIsIrq, htop] at hirq
  calc scause
      = scause &&& (0x7FFFFFFFFFFFFFFF#64 ||| 0x8000000000000000#64) := BitVec.and_allOnes.symm
    _ = scauseCode scause ||| (scause &&& 0x8000000000000000#64) := BitVec.and_or_distrib_left
    _ = timerCause := by
        rw [hcode, htop, if_pos hset]
        rfl

theorem timerFreq_interval : timerFreq * 100 = BitVec.ofNat 64 tickCycles := by decide

theorem interruptExceptionHandler_timer :
    (h.interruptExceptionHandler timerCause).clock = h.clock ∧
      (h.interruptExceptionHandler timerCause).stimecmp =
        h.stimecmp + BitVec.ofNat 64 tickCycles ∧
      (h.interruptExceptionHandler timerCause).globalTicks = h.globalTicks + 1 := by
  have hirq : scauseIsIrq timerCause = true := by decide
  have hssi : excTypeSti ≠ excTypeSsi := by decide
  have hsti : scauseCode timerCause = excTypeSti := by decide
  unfold TimerHart.interruptExceptionHandler
  simp only [hirq, hssi, hsti, Bool.not_true, Bool.false_eq_true, if_false, if_true,
    TimerHart.timerHandler, TimerHart.timerSetCmp, TimerHart.timerGetCmp, timerFreq_interval,
    and_self]

/-- The handler counts a tick for a timer interrupt only. -/
theorem interruptExceptionHandler_of_ne (hcause : scause ≠ timerCause) :
    (h.interruptExceptionHandler scause).clock = h.clock ∧
      (h.interruptExceptionHandler scause).stimecmp = h.stimecmp ∧
      (h.interruptExceptionHandler scause).globalTicks = h.globalTicks := by
  have hsti : scauseIsIrq scause = true → scauseCode scause ≠ excTypeSti :=
    fun hirq hcode => hcause (scause_eq_timerCause hirq hcode)
  unfold TimerHart.interruptExceptionHandler
  cases hirq : scauseIsIrq scause with
  | false => exact ⟨rfl, rfl, rfl⟩
  | true =>
      simp only [hsti hirq, Bool.not_true, Bool.false_eq_true, if_false]
      split <;> exact ⟨rfl, rfl, rfl⟩

theorem timerStep_trap (hs : timerStep s (.trap scause) = some t) :
    s.Raised scause ∧ t = s.interruptExceptionHandler scause := by
  simp only [timerStep, Option.ite_none_right_eq_some, Option.some.injEq] at hs
  exact ⟨hs.1.2, hs.2.symm⟩

/-- Only a trap changes the alarm and the ticks. -/
theorem timerStep_kept (hs : timerStep s event = some t) (hevent : ∀ c, event ≠ .trap c) :
    s.clock ≤ t.clock ∧ t.stimecmp = s.stimecmp ∧ t.globalTicks = s.globalTicks := by
  cases event with
  | trap c => exact absurd rfl (hevent c)
  | clock cycles =>
      cases Option.some.inj hs
      exact ⟨Nat.le_add_right _ _, rfl, rfl⟩
  | raise bits =>
      cases Option.some.inj hs
      exact ⟨le_refl _, rfl, rfl⟩
  | timerDisable =>
      simp only [timerStep, Option.ite_none_right_eq_some, Option.some.injEq] at hs
      rw [← hs.2]
      exact ⟨le_refl _, rfl, rfl⟩
  | timerEnable =>
      simp only [timerStep, Option.ite_none_right_eq_some, Option.some.injEq] at hs
      rw [← hs.2]
      exact ⟨le_refl _, rfl, rfl⟩
  | timerWait ticks =>
      simp only [timerStep, Option.ite_none_right_eq_some, Option.some.injEq] at hs
      rw [← hs.2]
      exact ⟨le_refl _, rfl, rfl⟩
  | test =>
      simp only [timerStep, Option.ite_none_left_eq_some, Option.map_eq_some_iff] at hs
      obtain ⟨_, stop, _, rfl⟩ := hs
      split <;> exact ⟨le_refl _, rfl, rfl⟩

theorem timerStep_clock (hs : timerStep s event = some t) : s.clock ≤ t.clock := by
  by_cases htrap : ∃ c, event = .trap c
  · obtain ⟨c, rfl⟩ := htrap
    rw [(timerStep_trap hs).2]
    by_cases hc : c = timerCause
    · rw [hc]
      exact interruptExceptionHandler_timer.1.ge
    · exact (interruptExceptionHandler_of_ne hc).1.ge
  · exact (timerStep_kept hs fun c hc => htrap ⟨c, hc⟩).1

theorem run_clock (hrun : Run (StepOf timerStep) s events t) : s.clock ≤ t.clock :=
  hrun.invariant (I := fun u => s.clock ≤ u.clock)
    (fun _ _ _ hu hstep => hu.trans (timerStep_clock hstep)) (le_refl _)

theorem timerInit_clock (h : TimerHart) : h.timerInit.clock = h.clock := by
  simp only [TimerHart.timerInit, TimerHart.timerSetCmp, TimerHart.timerEnable]

namespace Ticked

theorem init (hclock : s.clock + tickCycles < 2 ^ 64) : Ticked s.clock 0 s.timerInit := by
  have halarm : s.timerInit.stimecmp = s.timerGetTime + BitVec.ofNat 64 tickCycles := by
    simp only [TimerHart.timerInit, TimerHart.timerSetCmp, TimerHart.timerEnable,
      timerFreq_interval]
  refine ⟨?_, ?_, ?_⟩
  · simp [TimerHart.timerInit, TimerHart.timerSetCmp, TimerHart.timerEnable]
  · rw [halarm, BitVec.toNat_add, timerGetTime_toNat (by omega), BitVec.toNat_ofNat]
    omega
  · rw [timerInit_clock, Nat.zero_mul, Nat.add_zero]

/-- A timer interrupt is one tick, and nothing else is. -/
theorem step (h : Ticked start n s) (hclock : s.clock + tickCycles < 2 ^ 64)
    (hs : timerStep s event = some t) :
    Ticked start (if event = .trap timerCause then n + 1 else n) t := by
  by_cases htick : event = .trap timerCause
  · subst htick
    obtain ⟨hraised, rfl⟩ := timerStep_trap hs
    obtain ⟨hsame, hcmp, hcount⟩ := interruptExceptionHandler_timer (h := s)
    have hpending : s.stimecmp.toNat ≤ s.clock :=
      (pending_iff (by omega)).mp (hraised (by decide)).2
    have halarm := h.alarm
    have hticks := h.ticks
    rw [if_pos rfl]
    refine ⟨?_, ?_, ?_⟩
    · rw [hcount, BitVec.toNat_add, hticks]
      unfold tickCycles at *
      exact Nat.mod_eq_of_lt (by change n + 1 < 2 ^ 64; omega)
    · rw [hcmp, BitVec.toNat_add, BitVec.toNat_ofNat,
        Nat.mod_eq_of_lt (a := tickCycles) (by decide), Nat.mod_eq_of_lt (by omega), halarm]
      ring
    · rw [hsame]
      omega
  · rw [if_neg htick]
    have hkept : s.clock ≤ t.clock ∧ t.stimecmp = s.stimecmp ∧ t.globalTicks = s.globalTicks := by
      by_cases htrap : ∃ c, event = .trap c
      · obtain ⟨c, rfl⟩ := htrap
        have hne : c ≠ timerCause := fun hc => htick (by rw [hc])
        obtain ⟨hsame, hcmp, hcount⟩ := interruptExceptionHandler_of_ne (h := s) hne
        rw [(timerStep_trap hs).2]
        exact ⟨hsame.ge, hcmp, hcount⟩
      · exact timerStep_kept hs fun c hc => htrap ⟨c, hc⟩
    refine ⟨?_, ?_, h.due.trans hkept.1⟩
    · rw [hkept.2.2, h.ticks]
    · rw [hkept.2.1, h.alarm]

/-- While the clock has not wrapped around, every run keeps the ticks in step with it. -/
theorem run (hrun : Run (StepOf timerStep) s.timerInit events t)
    (hclock : t.clock + tickCycles < 2 ^ 64) :
    Ticked s.clock (events.count (.trap timerCause)) t := by
  have hall : t.clock + tickCycles < 2 ^ 64 →
      Ticked s.clock (events.count (.trap timerCause)) t := by
    refine hrun.invariant_labels
      (I := fun xs u => u.clock + tickCycles < 2 ^ 64 →
        Ticked s.clock (xs.count (.trap timerCause)) u) ?_ fun hstart => ?_
    intro xs u event v hu hstep hv
    have hle := timerStep_clock hstep
    have hnext := (hu (by omega)).step (by omega) hstep
    rw [List.count_append, List.count_singleton]
    by_cases htick : event = .trap timerCause
    · simpa [htick] using hnext
    · simpa [htick] using hnext
    · rw [timerInit_clock] at hstart
      exact init hstart
  exact hall hclock

/-- When no timer interrupt is pending, no tick is missing. -/
theorem exact (h : Ticked start n t) (hclock : t.clock < 2 ^ 64) (hidle : ¬ t.Pending) :
    n = (t.clock - start) / tickCycles := by
  rw [pending_iff hclock, h.alarm] at hidle
  have hdue := h.due
  refine (Nat.div_eq_of_lt_le ?_ ?_).symm
  · omega
  · omega

end Ticked

/-- The ticks and the clock. A tick is never early; each timer interrupt is one tick, and no
other trap is; the alarm is set for the next multiple of the interval; and when no timer
interrupt is pending, the ticks are the whole intervals that have passed. -/
theorem timer_run (hrun : Run (StepOf timerStep) s.timerInit events t)
    (hclock : t.clock + tickCycles < 2 ^ 64) :
    t.globalTicks.toNat = events.count (.trap timerCause) ∧
      s.clock + t.globalTicks.toNat * tickCycles ≤ t.clock ∧
      t.stimecmp.toNat = s.clock + (t.globalTicks.toNat + 1) * tickCycles ∧
      (¬ t.Pending → t.globalTicks.toNat = (t.clock - s.clock) / tickCycles) := by
  have h := Ticked.run hrun hclock
  refine ⟨h.ticks, ?_, ?_, fun hidle => ?_⟩
  · rw [h.ticks]
    exact h.due
  · rw [h.ticks]
    exact h.alarm
  · rw [h.ticks]
    exact h.exact (by omega) hidle

/-- Two intervals pass before the first interrupt is taken: the second one is taken at once. -/
theorem timer_run_late :
    ∃ t : TimerHart, Run (StepOf timerStep) (TimerHart.mk 5 0 0 0 7 none false).timerInit
        [.clock 20001, .trap timerCause, .trap timerCause, .clock 50] t ∧
      t.globalTicks = 2 ∧ ¬ t.Pending ∧ t.globalTicks.toNat = (t.clock - 5) / tickCycles := by
  have hrun : Run (StepOf timerStep) (TimerHart.mk 5 0 0 0 7 none false).timerInit
      [.clock 20001, .trap timerCause, .trap timerCause, .clock 50]
      ⟨20056, 30005, 0x20, 0, 2, none, false⟩ :=
    (run_stepOf_iff _ _ _ _).mpr (by decide +kernel)
  exact ⟨_, hrun, rfl, by decide, (timer_run hrun (by decide)).2.2.2 (by decide)⟩

/-! ## The wait -/

/-- `timer_wait`. It returns when its ticks have come, so at least all but one of its
intervals pass, and it has to be called with no interrupt pending for that. Once they all
have passed and no interrupt is pending, the next test ends it. -/
theorem timer_wait_run (hxs : Run (StepOf timerStep) s.timerInit xs u)
    (hcall : timerStep u (.timerWait ticks) = some v) (hys : Run (StepOf timerStep) v ys w)
    (hwait : w.waitEnd = v.waitEnd) (htest : timerStep w .test = some t)
    (hticks : u.globalTicks.toNat + ticks.toNat < 2 ^ 64)
    (hclock : w.clock + tickCycles < 2 ^ 64) :
    (t.waitEnd = none → s.clock + (u.globalTicks.toNat + ticks.toNat) * tickCycles ≤ t.clock) ∧
      (t.waitEnd = none → ¬ u.Pending →
        u.clock + ticks.toNat * tickCycles < t.clock + tickCycles) ∧
      (¬ w.Pending → u.clock + ticks.toNat * tickCycles ≤ w.clock → t.waitEnd = none) := by
  have hu := run_clock hys
  have huv := timerStep_clock hcall
  have hleft := Ticked.run hxs (by omega)
  have hright := Ticked.run ((hxs.snoc hcall).append hys) hclock
  have hstop : w.waitEnd = some (u.globalTicks + ticks) := by
    simp only [timerStep, Option.ite_none_right_eq_some, Option.some.injEq] at hcall
    rw [hwait, ← hcall.2]
  have hsum : (u.globalTicks + ticks).toNat = u.globalTicks.toNat + ticks.toNat := by
    rw [BitVec.toNat_add]
    exact Nat.mod_eq_of_lt hticks
  have ht : t.clock = w.clock ∧ (t.waitEnd = none ↔
      u.globalTicks.toNat + ticks.toNat ≤ w.globalTicks.toNat) := by
    simp only [timerStep, Option.ite_none_left_eq_some, hstop, Option.map_some,
      Option.some.injEq] at htest
    by_cases hlt : w.globalTicks < u.globalTicks + ticks
    · rw [← htest.2, if_pos hlt, hstop]
      rw [BitVec.lt_def, hsum] at hlt
      exact ⟨rfl, fun hnone => (nomatch hnone), fun hle => absurd hle (Nat.not_le.mpr hlt)⟩
    · rw [← htest.2, if_neg hlt]
      rw [BitVec.lt_def, hsum] at hlt
      exact ⟨rfl, fun _ => Nat.not_lt.mp hlt, fun _ => rfl⟩
  have hstart := hleft.due
  have hdue := hright.due
  rw [ht.1, ht.2, hleft.ticks, hright.ticks]
  refine ⟨fun hle => ?_, fun hle hidle => ?_, fun hidle hpassed => ?_⟩
  · have hmul := Nat.mul_le_mul_right tickCycles hle
    omega
  · rw [pending_iff (by omega), hleft.alarm] at hidle
    have hmul := Nat.mul_le_mul_right tickCycles hle
    rw [Nat.add_mul] at hmul
    rw [Nat.add_mul, Nat.one_mul] at hidle
    omega
  · rw [pending_iff (by omega), hright.alarm] at hidle
    unfold tickCycles at *
    omega

theorem timer_wait_run_three_ticks :
    ∃ u v w t : TimerHart, Run (StepOf timerStep) (TimerHart.mk 5 0 0 0 7 none false).timerInit
        [.clock 9000] u ∧
      timerStep u (.timerWait 3) = some v ∧
      Run (StepOf timerStep) v [.clock 1000, .trap timerCause, .test, .clock 10000,
        .trap timerCause, .test, .clock 10000, .trap timerCause] w ∧
      timerStep w .test = some t ∧ t.waitEnd = none ∧
      u.clock + 3 * tickCycles < t.clock + tickCycles := by
  have hxs : Run (StepOf timerStep) (TimerHart.mk 5 0 0 0 7 none false).timerInit [.clock 9000]
      ⟨9005, 10005, 0x20, 0, 0, none, false⟩ := (run_stepOf_iff _ _ _ _).mpr (by decide +kernel)
  have hcall : timerStep ⟨9005, 10005, 0x20, 0, 0, none, false⟩ (.timerWait 3) =
      some ⟨9005, 10005, 0x20, 0, 0, some 3, false⟩ := by decide +kernel
  have hys : Run (StepOf timerStep) ⟨9005, 10005, 0x20, 0, 0, some 3, false⟩
      [.clock 1000, .trap timerCause, .test, .clock 10000, .trap timerCause, .test, .clock 10000,
        .trap timerCause] ⟨30005, 40005, 0x20, 0, 3, some 3, false⟩ :=
    (run_stepOf_iff _ _ _ _).mpr (by decide +kernel)
  have htest : timerStep ⟨30005, 40005, 0x20, 0, 3, some 3, false⟩ .test =
      some ⟨30005, 40005, 0x20, 0, 3, none, false⟩ := by decide +kernel
  exact ⟨_, _, _, _, hxs, hcall, hys, htest, rfl,
    (timer_wait_run hxs hcall hys rfl htest (by decide) (by decide)).2.1 rfl (by decide)⟩

end Hart

end Vectra

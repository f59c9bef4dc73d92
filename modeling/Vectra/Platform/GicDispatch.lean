import Vectra.Lib.Run

/-!
# Interrupt dispatch: `gic_handle_interrupts`

The driver keeps the value read from `GICC_IAR` in a global and writes it back to
`GICC_EOIR` when the handler has returned. A handler may be interrupted by another
dispatch, which reads `GICC_IAR` into the same global. The table of handlers has 255
entries, while the interrupt numbers that reach it go up to 1021 and the registered
ones up to 255.
-/

namespace Vectra

open Lib

def gicMaxIrqs : ℕ := 0xFF

def gicUnknownInterrupt : ℕ := 1022

def gicSpuriousInterrupt : ℕ := 1023

/-- The memory from `gic_handlers` on, one function pointer each, and `gicc_iar`. The
rest is the history: which dispatches are inside their handler, innermost first, what
each dispatch read from the IAR, what it wrote to the EOIR, and every index used. -/
structure GicDispatch where
  gicHandlers : ℕ → ℕ
  giccIar : BitVec 32
  running : List ℕ
  acked : List (BitVec 32)
  eoirs : List (ℕ × BitVec 32)
  indexed : List ℕ
  halted : Bool

/-- The interrupt number in a value of the IAR. -/
def gicIrqId (iar : BitVec 32) : ℕ := (iar &&& 0x3FF#32).toNat

namespace GicDispatch

/-- `gic_interrupt_ack`: the next dispatch reads `iar`. -/
def gicInterruptAck (g : GicDispatch) (iar : BitVec 32) : GicDispatch :=
  { g with
    giccIar := iar
    acked := g.acked ++ [iar] }

/-- `gic_eoi` as dispatch `k` calls it. -/
def gicEoi (g : GicDispatch) (k : ℕ) : GicDispatch :=
  { g with eoirs := g.eoirs ++ [(k, g.giccIar)] }

/-- The end of dispatch `k`, once its handler has returned `ret`. -/
def gicFinish (g : GicDispatch) (k : ℕ) (ret : ℤ) : GicDispatch :=
  if ret = -1 then { g.gicEoi k with halted := true } else g.gicEoi k

/-- `gic_handle_interrupts` up to the call of the handler, or to the end if there is
none. -/
def gicHandleInterrupts (g : GicDispatch) (iar : BitVec 32) : GicDispatch :=
  let k := g.acked.length
  let irqId := gicIrqId iar
  let g := g.gicInterruptAck iar
  if irqId ≥ gicUnknownInterrupt then g.gicEoi k
  else if irqId = gicSpuriousInterrupt then g
  else
    let g := { g with indexed := g.indexed ++ [irqId] }
    if g.gicHandlers irqId ≠ 0 then { g with running := k :: g.running }
    else g.gicFinish k (-1)

def gicRegisterInterruptHandler (g : GicDispatch) (irq : BitVec 8) (handler : ℕ) : GicDispatch :=
  { g with
    gicHandlers := Function.update g.gicHandlers irq.toNat handler
    indexed := g.indexed ++ [irq.toNat] }

/-- What dispatch `k` has written to the EOIR. -/
def writes (g : GicDispatch) (k : ℕ) : List (BitVec 32) :=
  (g.eoirs.filter fun w => w.1 = k).map Prod.snd

end GicDispatch

/-- A registration, an interrupt whose IAR value is `iar`, or the return of the
innermost handler. -/
inductive GicEvent
  | register (irq : BitVec 8) (handler : ℕ)
  | interrupt (iar : BitVec 32)
  | handlerReturns (ret : ℤ)

/-- Interrupts also arrive while handlers run; after a panic nothing does. -/
def gicStep (g : GicDispatch) : GicEvent → Option GicDispatch
  | .register irq handler =>
      if g.halted then none else some (g.gicRegisterInterruptHandler irq handler)
  | .interrupt iar => if g.halted then none else some (g.gicHandleInterrupts iar)
  | .handlerReturns ret =>
      match g.running with
      | [] => none
      | k :: rest =>
          if g.halted then none else some ({ g with running := rest }.gicFinish k ret)

/-- Before the first event; the handlers may be any. -/
def GicFresh (g : GicDispatch) : Prop :=
  g.running = [] ∧ g.acked = [] ∧ g.eoirs = [] ∧ g.indexed = [] ∧ g.halted = false

/-- The driver as it is loaded. -/
def gicReset : GicDispatch where
  gicHandlers := fun _ => 0
  giccIar := 0
  running := []
  acked := []
  eoirs := []
  indexed := []
  halted := false

theorem gicReset_fresh : GicFresh gicReset := ⟨rfl, rfl, rfl, rfl, rfl⟩

/-- Indices are in the table, and a dispatch of a number below 1022 writes the value it
has read exactly once: not before its handler has returned, and then no other value. -/
structure GicOk (g : GicDispatch) : Prop where
  indexed : ∀ i ∈ g.indexed, i < gicMaxIrqs
  eoi : ∀ k iar, g.acked[k]? = some iar → gicIrqId iar < gicUnknownInterrupt →
    g.writes k = if k ∈ g.running then [] else [iar]

/-- Numbers in the table or not dispatched at all, and no handler returns while
`gicc_iar` holds what another dispatch has read. -/
def GicDispatch.Meets (g : GicDispatch) : GicEvent → Prop
  | .register irq _ => irq.toNat < gicMaxIrqs
  | .interrupt iar => gicIrqId iar < gicMaxIrqs ∨ gicUnknownInterrupt ≤ gicIrqId iar
  | .handlerReturns _ => ∀ k ∈ g.running.head?, g.acked[k]? = some g.giccIar

/-- The dispatches inside their handler are distinct, acknowledged and have written
nothing, and neither have those to come. -/
structure GicWf (g : GicDispatch) : Prop where
  nodup : g.running.Nodup
  active : ∀ k ∈ g.running, ∃ iar, g.acked[k]? = some iar ∧ gicIrqId iar < gicUnknownInterrupt
  silent : ∀ k, k ∈ g.running ∨ g.acked.length ≤ k → g.writes k = []

variable {g t : GicDispatch} {iar : BitVec 32} {k j : ℕ} {ret : ℤ} {rest : List ℕ}

theorem getElem?_snoc {α : Type*} {l : List α} {a b : α} :
    (l ++ [a])[k]? = some b ↔ l[k]? = some b ∨ k = l.length ∧ a = b := by
  rcases Nat.lt_trichotomy k l.length with hlt | rfl | hgt
  · rw [List.getElem?_append_left hlt]
    simp [hlt.ne]
  · simp
  · rw [List.getElem?_eq_none (by simpa using hgt), List.getElem?_eq_none hgt.le]
    simp [hgt.ne']

theorem indexed_snoc {l : List ℕ} {a : ℕ} :
    (∀ i ∈ l ++ [a], i < gicMaxIrqs) ↔ (∀ i ∈ l, i < gicMaxIrqs) ∧ a < gicMaxIrqs := by
  rw [List.forall_mem_append, List.forall_mem_singleton]

theorem writes_gicEoi :
    (g.gicEoi k).writes = Function.update g.writes k (g.writes k ++ [g.giccIar]) := by
  funext j
  unfold GicDispatch.writes GicDispatch.gicEoi
  by_cases hj : j = k
  · subst hj
    simp [List.filter_append]
  · rw [Function.update_of_ne hj]
    simp [List.filter_append, Ne.symm hj]

/-! ## One dispatch

Entering a handler, leaving one, and answering a number from 1022 on. A dispatch without
a handler enters and leaves at once.
-/

namespace GicDispatch

def enter (g : GicDispatch) (iar : BitVec 32) : GicDispatch :=
  { g.gicInterruptAck iar with
    indexed := g.indexed ++ [gicIrqId iar]
    running := g.acked.length :: g.running }

def leave (g : GicDispatch) (k : ℕ) (rest : List ℕ) (ret : ℤ) : GicDispatch :=
  { g with running := rest }.gicFinish k ret

def answer (g : GicDispatch) (iar : BitVec 32) : GicDispatch :=
  (g.gicInterruptAck iar).gicEoi g.acked.length

theorem gicHandleInterrupts_cases (g : GicDispatch) (iar : BitVec 32) :
    gicUnknownInterrupt ≤ gicIrqId iar ∧ g.gicHandleInterrupts iar = g.answer iar ∨
      gicIrqId iar < gicUnknownInterrupt ∧
        (g.gicHandleInterrupts iar = g.enter iar ∨
          g.gicHandleInterrupts iar = (g.enter iar).leave g.acked.length g.running (-1)) := by
  unfold gicHandleInterrupts
  by_cases hid : gicIrqId iar ≥ gicUnknownInterrupt
  · left
    refine ⟨hid, ?_⟩
    simp only [if_pos hid]
    rfl
  · right
    have hspurious : gicIrqId iar ≠ gicSpuriousInterrupt := by
      unfold gicUnknownInterrupt at hid
      unfold gicSpuriousInterrupt
      omega
    refine ⟨by omega, ?_⟩
    simp only [if_neg hid, if_neg hspurious]
    split
    · exact .inl rfl
    · exact .inr rfl

@[simp] theorem leave_acked : (g.leave k rest ret).acked = g.acked := by
  unfold leave gicFinish
  split <;> rfl

@[simp] theorem leave_running : (g.leave k rest ret).running = rest := by
  unfold leave gicFinish
  split <;> rfl

@[simp] theorem leave_indexed : (g.leave k rest ret).indexed = g.indexed := by
  unfold leave gicFinish
  split <;> rfl

theorem leave_writes : (g.leave k rest ret).writes =
    Function.update g.writes k (g.writes k ++ [g.giccIar]) := by
  have heoi : ({ g with running := rest }.gicEoi k).writes = _ := writes_gicEoi
  unfold leave gicFinish
  split
  · exact heoi
  · exact heoi

theorem answer_writes : (g.answer iar).writes =
    Function.update g.writes g.acked.length (g.writes g.acked.length ++ [iar]) :=
  writes_gicEoi

end GicDispatch

namespace GicWf

theorem lt_length (h : GicWf g) (hk : k ∈ g.running) : k < g.acked.length := by
  obtain ⟨iar, hiar, _⟩ := h.active k hk
  exact (List.getElem?_eq_some_iff.mp hiar).1

theorem enter (h : GicWf g) (hid : gicIrqId iar < gicUnknownInterrupt) : GicWf (g.enter iar) where
  nodup := List.nodup_cons.mpr ⟨fun hk => (h.lt_length hk).false, h.nodup⟩
  active := by
    intro k hk
    rcases List.mem_cons.mp hk with rfl | hk
    · exact ⟨iar, getElem?_snoc.mpr (.inr ⟨rfl, rfl⟩), hid⟩
    · obtain ⟨v, hv, hlt⟩ := h.active k hk
      exact ⟨v, getElem?_snoc.mpr (.inl hv), hlt⟩
  silent := by
    intro k hk
    apply h.silent
    rcases hk with hk | hk
    · rcases List.mem_cons.mp hk with rfl | hk
      · exact .inr (le_refl _)
      · exact .inl hk
    · have hlen : (g.enter iar).acked.length = g.acked.length + 1 := by
        unfold GicDispatch.enter GicDispatch.gicInterruptAck
        simp
      exact .inr (by omega)

theorem answer (h : GicWf g) : GicWf (g.answer iar) where
  nodup := h.nodup
  active := by
    intro k hk
    obtain ⟨v, hv, hlt⟩ := h.active k hk
    exact ⟨v, getElem?_snoc.mpr (.inl hv), hlt⟩
  silent := by
    intro k hk
    have hne : k ≠ g.acked.length ∧ (k ∈ g.running ∨ g.acked.length ≤ k) := by
      rcases hk with hk | hk
      · have hlt := h.lt_length hk
        exact ⟨hlt.ne, .inl hk⟩
      · have hlen : (g.answer iar).acked.length = g.acked.length + 1 := by
          unfold GicDispatch.answer GicDispatch.gicEoi GicDispatch.gicInterruptAck
          simp
        exact ⟨by omega, .inr (by omega)⟩
    rw [GicDispatch.answer_writes, Function.update_of_ne hne.1]
    exact h.silent k hne.2

theorem leave (h : GicWf g) (hk : g.running = k :: rest) : GicWf (g.leave k rest ret) where
  nodup := by
    have hnodup := h.nodup
    rw [hk] at hnodup
    simpa using hnodup.of_cons
  active := by
    intro j hj
    rw [GicDispatch.leave_running] at hj
    rw [GicDispatch.leave_acked]
    apply h.active
    rw [hk]
    exact List.mem_cons_of_mem k hj
  silent := by
    intro j hj
    rw [GicDispatch.leave_running, GicDispatch.leave_acked] at hj
    have hnodup := h.nodup
    rw [hk] at hnodup
    have hlt : k < g.acked.length := h.lt_length (by rw [hk]; exact List.mem_cons_self)
    have hne : j ≠ k := by
      rintro rfl
      rcases hj with hj | hj
      · exact (List.nodup_cons.mp hnodup).1 hj
      · omega
    rw [GicDispatch.leave_writes, Function.update_of_ne hne]
    apply h.silent
    rcases hj with hj | hj
    · left
      rw [hk]
      exact List.mem_cons_of_mem k hj
    · exact .inr hj

theorem enter_ok (h : GicWf g) :
    GicOk (g.enter iar) ↔ GicOk g ∧ gicIrqId iar < gicMaxIrqs := by
  have hin : ∀ k, k ≠ g.acked.length → (k ∈ (g.enter iar).running ↔ k ∈ g.running) := by
    intro k hk
    change k ∈ g.acked.length :: g.running ↔ _
    simp [hk]
  constructor
  · intro hok
    obtain ⟨hindexed, hid⟩ := indexed_snoc.mp hok.indexed
    refine ⟨⟨hindexed, fun k v hv hlt => ?_⟩, hid⟩
    have hk : k < g.acked.length := (List.getElem?_eq_some_iff.mp hv).1
    have hentered := hok.eoi k v (getElem?_snoc.mpr (.inl hv)) hlt
    rw [if_congr (hin k hk.ne) rfl rfl] at hentered
    exact hentered
  · rintro ⟨hok, hid⟩
    refine ⟨indexed_snoc.mpr ⟨hok.indexed, hid⟩, fun k v hv hlt => ?_⟩
    rcases getElem?_snoc.mp hv with hv | ⟨rfl, rfl⟩
    · have hk : k < g.acked.length := (List.getElem?_eq_some_iff.mp hv).1
      rw [if_congr (hin k hk.ne) rfl rfl]
      exact hok.eoi k v hv hlt
    · have hself : g.acked.length ∈ (g.enter iar).running := List.mem_cons_self
      rw [if_pos hself]
      exact h.silent _ (.inr (le_refl _))

theorem answer_ok (hid : gicUnknownInterrupt ≤ gicIrqId iar) :
    GicOk (g.answer iar) ↔ GicOk g := by
  have hwrites : ∀ k, k ≠ g.acked.length → (g.answer iar).writes k = g.writes k := by
    intro k hk
    rw [GicDispatch.answer_writes, Function.update_of_ne hk]
  constructor
  · intro hok
    refine ⟨hok.indexed, fun k v hv hlt => ?_⟩
    have hk : k < g.acked.length := (List.getElem?_eq_some_iff.mp hv).1
    rw [← hwrites k hk.ne]
    exact hok.eoi k v (getElem?_snoc.mpr (.inl hv)) hlt
  · intro hok
    refine ⟨hok.indexed, fun k v hv hlt => ?_⟩
    rcases getElem?_snoc.mp hv with hv | ⟨_, rfl⟩
    · have hk : k < g.acked.length := (List.getElem?_eq_some_iff.mp hv).1
      rw [hwrites k hk.ne]
      exact hok.eoi k v hv hlt
    · omega

/-- The write is right exactly if `gicc_iar` still holds what this dispatch has read. -/
theorem leave_ok (h : GicWf g) (hk : g.running = k :: rest) :
    GicOk (g.leave k rest ret) ↔ GicOk g ∧ g.acked[k]? = some g.giccIar := by
  have hmem : k ∈ g.running := by
    rw [hk]
    exact List.mem_cons_self
  have hnot : k ∉ rest := by
    have hnodup := h.nodup
    rw [hk] at hnodup
    exact (List.nodup_cons.mp hnodup).1
  have hempty := h.silent k (.inl hmem)
  have hown : (g.leave k rest ret).writes k = [g.giccIar] := by
    rw [GicDispatch.leave_writes, Function.update_self, hempty, List.nil_append]
  have hother : ∀ j, j ≠ k → (g.leave k rest ret).writes j = g.writes j ∧
      (j ∈ rest ↔ j ∈ g.running) := by
    intro j hj
    rw [GicDispatch.leave_writes, Function.update_of_ne hj, hk]
    exact ⟨rfl, by simp [hj]⟩
  constructor
  · intro hok
    refine ⟨⟨fun i hi => hok.indexed i (by simpa using hi), fun j v hv hlt => ?_⟩, ?_⟩
    · by_cases hj : j = k
      · subst hj
        rw [if_pos hmem, hempty]
      · have hleft := hok.eoi j v (by simpa using hv) hlt
        rw [GicDispatch.leave_running, (hother j hj).1,
          if_congr (hother j hj).2 rfl rfl] at hleft
        exact hleft
    · obtain ⟨v, hv, hlt⟩ := h.active k hmem
      have hleft := hok.eoi k v (by simpa using hv) hlt
      rw [hown, GicDispatch.leave_running, if_neg hnot] at hleft
      rw [hv, List.singleton_inj.mp hleft]
  · rintro ⟨hok, hiar⟩
    refine ⟨fun i hi => hok.indexed i (by simpa using hi), fun j v hv hlt => ?_⟩
    rw [GicDispatch.leave_acked] at hv
    rw [GicDispatch.leave_running]
    by_cases hj : j = k
    · subst hj
      rw [hown, if_neg hnot, Option.some.inj (hiar.symm.trans hv)]
    · rw [(hother j hj).1, if_congr (hother j hj).2 rfl rfl]
      exact hok.eoi j v hv hlt

end GicWf

/-! ## Runs -/

/-- What a step can do. -/
theorem gicStep_cases {e : GicEvent} (h : gicStep g e = some t) :
    (∃ irq handler, e = .register irq handler ∧ t = g.gicRegisterInterruptHandler irq handler) ∨
      (∃ iar, e = .interrupt iar ∧ t = g.gicHandleInterrupts iar) ∨
      ∃ ret k rest, e = .handlerReturns ret ∧ g.running = k :: rest ∧ t = g.leave k rest ret := by
  cases e with
  | register irq handler =>
      simp only [gicStep] at h
      split at h
      · cases h
      · exact .inl ⟨irq, handler, rfl, (Option.some.inj h).symm⟩
  | interrupt iar =>
      simp only [gicStep] at h
      split at h
      · cases h
      · exact .inr (.inl ⟨iar, rfl, (Option.some.inj h).symm⟩)
  | handlerReturns ret =>
      simp only [gicStep] at h
      split at h
      · cases h
      · next k rest hk =>
          split at h
          · cases h
          · exact .inr (.inr ⟨ret, k, rest, rfl, hk, (Option.some.inj h).symm⟩)

/-- A step keeps the history well formed, and right exactly if it meets the condition. -/
theorem GicWf.step {e : GicEvent} (h : GicWf g) (hstep : gicStep g e = some t) :
    GicWf t ∧ (GicOk t ↔ GicOk g ∧ g.Meets e) := by
  rcases gicStep_cases hstep with ⟨irq, handler, rfl, rfl⟩ | ⟨iar, rfl, rfl⟩ |
    ⟨ret, k, rest, rfl, hk, rfl⟩
  · refine ⟨⟨h.nodup, h.active, h.silent⟩, fun hok => ?_, fun ⟨hok, hirq⟩ => ?_⟩
    · obtain ⟨hindexed, hirq⟩ := indexed_snoc.mp hok.indexed
      exact ⟨⟨hindexed, hok.eoi⟩, hirq⟩
    · exact ⟨indexed_snoc.mpr ⟨hok.indexed, hirq⟩, hok.eoi⟩
  · have hgap : gicMaxIrqs < gicUnknownInterrupt := by decide
    rcases g.gicHandleInterrupts_cases iar with ⟨hid, heq⟩ | ⟨hid, heq | heq⟩
    · rw [heq, GicWf.answer_ok hid]
      refine ⟨h.answer, ?_⟩
      unfold GicDispatch.Meets
      simp [hid]
    · rw [heq, h.enter_ok]
      refine ⟨h.enter hid, and_congr_right fun _ => ?_⟩
      unfold GicDispatch.Meets
      omega
    · -- without a handler the dispatch leaves with what it has just read
      have hread : (g.enter iar).acked[g.acked.length]? = some (g.enter iar).giccIar :=
        getElem?_snoc.mpr (.inr ⟨rfl, rfl⟩)
      rw [heq, (h.enter hid).leave_ok rfl, h.enter_ok]
      refine ⟨(h.enter hid).leave rfl, ?_⟩
      unfold GicDispatch.Meets
      constructor
      · rintro ⟨⟨hok, hlt⟩, _⟩
        exact ⟨hok, .inl hlt⟩
      · rintro ⟨hok, hlt⟩
        exact ⟨⟨hok, by omega⟩, hread⟩
  · have hmeets : g.Meets (.handlerReturns ret) ↔ g.acked[k]? = some g.giccIar := by
      unfold GicDispatch.Meets
      simp [hk]
    rw [hmeets]
    exact ⟨h.leave hk, h.leave_ok hk⟩

theorem gic_run_wf_ok {es : List GicEvent} (h : GicWf g) (hrun : Run (StepOf gicStep) g es t) :
    GicOk t ↔ GicOk g ∧ Run (fun u e v => u.Meets e ∧ StepOf gicStep u e v) g es t := by
  induction hrun with
  | nil g => simp [Run.nil g]
  | cons head tail ih =>
      obtain ⟨hwf, hok⟩ := h.step head
      rw [ih hwf, hok, and_assoc]
      refine and_congr_right fun _ => ⟨fun ⟨hmeets, hrest⟩ => .cons ⟨hmeets, head⟩ hrest, ?_⟩
      intro hall
      cases hall with
      | cons head' tail' =>
          have hsame := Option.some.inj (head.symm.trans head'.2)
          subst hsame
          exact ⟨head'.1, tail'⟩

theorem GicFresh.wf_ok (hfresh : GicFresh g) : GicWf g ∧ GicOk g := by
  obtain ⟨hrunning, hacked, heoirs, hindexed, _⟩ := hfresh
  have hsilent : ∀ k, g.writes k = [] := by
    intro k
    unfold GicDispatch.writes
    simp [heoirs]
  exact ⟨⟨by simp [hrunning], by simp [hrunning], fun k _ => hsilent k⟩,
    ⟨by simp [hindexed], by simp [hacked]⟩⟩

/-- The accesses and the acknowledgements of a run are right exactly when every step of it
meets the condition. -/
theorem gic_run_ok_iff {es : List GicEvent} (hfresh : GicFresh g)
    (hrun : Run (StepOf gicStep) g es t) :
    GicOk t ↔ Run (fun u e v => u.Meets e ∧ StepOf gicStep u e v) g es t := by
  obtain ⟨hwf, hok⟩ := hfresh.wf_ok
  rw [gic_run_wf_ok hwf hrun, and_iff_right hok]

/-- The timer interrupt arrives again inside its handler: the nested dispatch reads the same IAR
value, so the outer one still writes what it has acknowledged. -/
theorem gic_run_ok_iff_nested :
    ∃ t, Run (StepOf gicStep) gicReset [.register 30 0x1000, .interrupt 30, .interrupt 30,
        .handlerReturns 0, .handlerReturns 0] t ∧ t.acked = [30, 30] ∧ GicOk t := by
  have hrun : ∃ t, Run (fun u e v => u.Meets e ∧ StepOf gicStep u e v) gicReset
      [.register 30 0x1000, .interrupt 30, .interrupt 30, .handlerReturns 0,
        .handlerReturns 0] t ∧ t.acked = [30, 30] := by
    refine ⟨_, .cons ⟨?_, rfl⟩ (.cons ⟨.inl (by decide), rfl⟩ (.cons ⟨.inl (by decide), rfl⟩
      (.cons ⟨?_, rfl⟩ (.cons ⟨?_, rfl⟩ (.nil _))))), rfl⟩
    · change (30 : ℕ) < gicMaxIrqs
      decide
    · intro k hk
      cases hk
      rfl
    · intro k hk
      cases hk
      rfl
  obtain ⟨t, ht, hacked⟩ := hrun
  have hsteps := ht.mono fun _ _ _ hs => hs.2
  exact ⟨t, hsteps, hacked, (gic_run_ok_iff gicReset_fresh hsteps).mpr ht⟩

/-- Interrupt 11 arrives inside the handler of interrupt 10, and both dispatches write 11. -/
theorem gic_nested_eoi :
    ¬ ∀ (g t : GicDispatch) (es : List GicEvent), GicFresh g → Run (StepOf gicStep) g es t →
      GicOk t := by
  intro h
  have hrun : ∃ t, Run (StepOf gicStep) gicReset [.register 10 0x1000, .register 11 0x2000,
      .interrupt 10, .interrupt 11, .handlerReturns 0, .handlerReturns 0] t ∧
      t.acked[0]? = some 10 ∧ t.running = [] ∧ t.writes 0 = [11] :=
    ⟨_, .cons rfl (.cons rfl (.cons rfl (.cons rfl (.cons rfl (.cons rfl (.nil _)))))),
      rfl, rfl, rfl⟩
  obtain ⟨t, hrun, hacked, hrunning, hwrites⟩ := hrun
  have hok := (h gicReset t _ gicReset_fresh hrun).eoi 0 10 hacked (by decide)
  rw [hwrites, hrunning, if_neg List.not_mem_nil] at hok
  revert hok
  decide

/-! ## Interrupts that do not nest -/

/-- One handler at a time, and the IAR value in `gicc_iar` is the one it was entered with. -/
def GicDispatch.Alone (g : GicDispatch) : Prop :=
  g.running = [] ∨ ∃ k, g.running = [k] ∧ g.acked[k]? = some g.giccIar

/-- The condition for a kernel that leaves interrupts masked in its handlers. -/
def GicDispatch.Masked (g : GicDispatch) : GicEvent → Prop
  | .register irq _ => irq.toNat < gicMaxIrqs
  | .interrupt iar =>
      g.running = [] ∧ (gicIrqId iar < gicMaxIrqs ∨ gicUnknownInterrupt ≤ gicIrqId iar)
  | .handlerReturns _ => True

theorem GicDispatch.Alone.step {e : GicEvent} (h : g.Alone) (he : g.Masked e)
    (hstep : gicStep g e = some t) : t.Alone ∧ g.Meets e := by
  rcases gicStep_cases hstep with ⟨irq, handler, rfl, rfl⟩ | ⟨iar, rfl, rfl⟩ |
    ⟨ret, k, rest, rfl, hk, rfl⟩
  · exact ⟨h, he⟩
  · obtain ⟨hnone, hid⟩ := he
    refine ⟨?_, hid⟩
    rcases g.gicHandleInterrupts_cases iar with ⟨_, heq⟩ | ⟨_, heq | heq⟩
    · rw [heq]
      exact .inl hnone
    · rw [heq]
      refine .inr ⟨g.acked.length, ?_, getElem?_snoc.mpr (.inr ⟨rfl, rfl⟩)⟩
      change g.acked.length :: g.running = _
      rw [hnone]
    · rw [heq]
      left
      rw [GicDispatch.leave_running, hnone]
  · rcases h with h | ⟨j, hj, hiar⟩
    · rw [h] at hk
      cases hk
    · rw [hj] at hk
      obtain ⟨rfl, rfl⟩ := List.cons.inj hk
      refine ⟨.inl GicDispatch.leave_running, ?_⟩
      intro i hi
      rw [hj] at hi
      cases hi
      exact hiar

/-- With interrupts masked in handlers the dispatcher is right for every number in its table. -/
theorem gic_masked_run_ok {es : List GicEvent} (hfresh : GicFresh g)
    (hrun : Run (fun u e v => u.Masked e ∧ StepOf gicStep u e v) g es t) : GicOk t := by
  have halone : g.Alone := .inl hfresh.1
  have hmeets : Run (fun u e v => u.Meets e ∧ StepOf gicStep u e v) g es t := by
    clear hfresh
    induction hrun with
    | nil g => exact .nil g
    | cons head _ ih =>
        obtain ⟨hnext, hmeets⟩ := halone.step head.1 head.2
        exact .cons ⟨hmeets, head.2⟩ (ih hnext)
  obtain ⟨hwf, hok⟩ := hfresh.wf_ok
  exact (gic_run_wf_ok hwf (hrun.mono fun _ _ _ hs => hs.2)).mpr ⟨hok, hmeets⟩

end Vectra

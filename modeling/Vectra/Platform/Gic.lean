import Mathlib.Tactic

/-!
# The interrupt controller driver: `gic.c`

The driver writes four kinds of distributor registers. A write to `GICD_ISENABLERn` sets the
enable bits that are written as 1, and a write to `GICD_ICENABLERn` clears them; the other
registers hold what is written.
-/

namespace Vectra

/-! ## The distributor -/

/-- The registers of the distributor by their index; `GICD_ISENABLERn` and `GICD_ICENABLERn`
are two views of `enabler`. -/
structure Gicd where
  enabler : ℕ → BitVec 32
  ipriorityr : ℕ → BitVec 32
  igroupr : ℕ → BitVec 32

def gicdIgroupr (n : ℕ) : ℕ := 0x080 + n * 4

def gicdIsenabler (n : ℕ) : ℕ := 0x100 + n * 4

def gicdIcenabler (n : ℕ) : ℕ := 0x180 + n * 4

def gicdIpriorityr (n : ℕ) : ℕ := 0x400 + n * 4

/-- What the distributor does on a write; the kind of register follows from the offset. -/
def Gicd.ioWrite32 (d : Gicd) (off : ℕ) (v : BitVec 32) : Gicd :=
  if off < 0x080 then d
  else if off < 0x100 then
    let n := (off - 0x080) / 4
    { d with igroupr := Function.update d.igroupr n v }
  else if off < 0x180 then
    let n := (off - 0x100) / 4
    { d with enabler := Function.update d.enabler n (d.enabler n ||| v) }
  else if off < 0x200 then
    let n := (off - 0x180) / 4
    { d with enabler := Function.update d.enabler n (d.enabler n &&& ~~~v) }
  else if off < 0x400 then d
  else if off < 0x800 then
    let n := (off - 0x400) / 4
    { d with ipriorityr := Function.update d.ipriorityr n v }
  else d

def Gicd.ioRead32 (d : Gicd) (off : ℕ) : BitVec 32 :=
  if off < 0x080 then 0
  else if off < 0x100 then d.igroupr ((off - 0x080) / 4)
  else if off < 0x180 then d.enabler ((off - 0x100) / 4)
  else if off < 0x200 then d.enabler ((off - 0x180) / 4)
  else if off < 0x400 then 0
  else if off < 0x800 then d.ipriorityr ((off - 0x400) / 4)
  else 0

/-! ## The driver -/

def gicDisableInterrupts (d : Gicd) : Gicd :=
  (d.ioWrite32 (gicdIsenabler 0) 0xFFFFFFFF#32).ioWrite32 (gicdIsenabler 1) 0xFFFFFFFF#32

def gicDisableInterrupt (d : Gicd) (irq : BitVec 8) : Gicd :=
  d.ioWrite32 (gicdIcenabler (irq.toNat / 32)) (1#32 <<< (irq.toNat % 32))

def gicEnableInterrupt (d : Gicd) (irq : BitVec 8) : Gicd :=
  d.ioWrite32 (gicdIsenabler (irq.toNat / 32)) (1#32 <<< (irq.toNat % 32))

def gicSetInterruptPriority (d : Gicd) (irq priority : BitVec 8) : Gicd :=
  let prio := d.ioRead32 (gicdIpriorityr (irq.toNat / 4))
  let prio := prio &&& ~~~(0xFF#32 <<< (irq.toNat % 4 * 8))
  let prio := prio ||| (priority.setWidth 32 <<< (irq.toNat % 4 * 8))
  d.ioWrite32 (gicdIpriorityr (irq.toNat / 4)) prio

def gicRedirectIrq (d : Gicd) (irq : BitVec 8) : Gicd :=
  let group := d.ioRead32 (gicdIgroupr (irq.toNat / 32))
  let group := group ||| (1#32 <<< (irq.toNat % 32))
  d.ioWrite32 (gicdIgroupr (irq.toNat / 32)) group

inductive GicOp
  | enableInterrupt (irq : BitVec 8)
  | disableInterrupt (irq : BitVec 8)
  | disableInterrupts
  | setInterruptPriority (irq priority : BitVec 8)
  | redirectIrq (irq : BitVec 8)

def gicCall (d : Gicd) : GicOp → Gicd
  | .enableInterrupt irq => gicEnableInterrupt d irq
  | .disableInterrupt irq => gicDisableInterrupt d irq
  | .disableInterrupts => gicDisableInterrupts d
  | .setInterruptPriority irq priority => gicSetInterruptPriority d irq priority
  | .redirectIrq irq => gicRedirectIrq d irq

/-! ## Interrupts -/

/-- The distributor as a state of each interrupt. -/
structure GicState where
  enabled : ℕ → Bool
  priority : ℕ → BitVec 8
  group : ℕ → Bool

def Gicd.state (d : Gicd) : GicState where
  enabled i := (d.enabler (i / 32)).getLsbD (i % 32)
  priority i := (d.ipriorityr (i / 4)).extractLsb' (i % 4 * 8) 8
  group i := (d.igroupr (i / 32)).getLsbD (i % 32)

/-- What the name of each function says: it changes one bit or byte of the interrupt `irq`;
`gic_disable_interrupts` enables nothing, and it disables those that the driver has enabled. -/
def GicSpec (driver : ℕ → Bool) (s : GicState) : GicOp → GicState → Prop
  | .enableInterrupt irq, t => t = { s with enabled := Function.update s.enabled irq.toNat true }
  | .disableInterrupt irq, t => t = { s with enabled := Function.update s.enabled irq.toNat false }
  | .disableInterrupts, t =>
      (∀ i, t.enabled i = true → s.enabled i = true ∧ driver i = false) ∧
        t.priority = s.priority ∧ t.group = s.group
  | .setInterruptPriority irq priority, t =>
      t = { s with priority := Function.update s.priority irq.toNat priority }
  | .redirectIrq irq, t => t = { s with group := Function.update s.group irq.toNat true }

/-- The interrupts that the driver has enabled and not disabled since. -/
def driverAfter (driver : ℕ → Bool) : GicOp → ℕ → Bool
  | .enableInterrupt irq => Function.update driver irq.toNat true
  | .disableInterrupt irq => Function.update driver irq.toNat false
  | .disableInterrupts => fun _ => false
  | _ => driver

section Registers

variable {d : Gicd} {n : ℕ} {v : BitVec 32}

theorem ioWrite32_igroupr (hn : n < 32) : d.ioWrite32 (gicdIgroupr n) v =
    { d with igroupr := Function.update d.igroupr n v } := by
  have hindex : (0x080 + n * 4 - 0x080) / 4 = n := by omega
  unfold Gicd.ioWrite32 gicdIgroupr
  rw [if_neg (by omega), if_pos (by omega), hindex]

theorem ioWrite32_isenabler (hn : n < 32) : d.ioWrite32 (gicdIsenabler n) v =
    { d with enabler := Function.update d.enabler n (d.enabler n ||| v) } := by
  have hindex : (0x100 + n * 4 - 0x100) / 4 = n := by omega
  unfold Gicd.ioWrite32 gicdIsenabler
  rw [if_neg (by omega), if_neg (by omega), if_pos (by omega), hindex]

theorem ioWrite32_icenabler (hn : n < 32) : d.ioWrite32 (gicdIcenabler n) v =
    { d with enabler := Function.update d.enabler n (d.enabler n &&& ~~~v) } := by
  have hindex : (0x180 + n * 4 - 0x180) / 4 = n := by omega
  unfold Gicd.ioWrite32 gicdIcenabler
  rw [if_neg (by omega), if_neg (by omega), if_neg (by omega), if_pos (by omega), hindex]

theorem ioWrite32_ipriorityr (hn : n < 256) : d.ioWrite32 (gicdIpriorityr n) v =
    { d with ipriorityr := Function.update d.ipriorityr n v } := by
  have hindex : (0x400 + n * 4 - 0x400) / 4 = n := by omega
  unfold Gicd.ioWrite32 gicdIpriorityr
  rw [if_neg (by omega), if_neg (by omega), if_neg (by omega), if_neg (by omega), if_neg (by omega),
    if_pos (by omega), hindex]

theorem ioRead32_igroupr (hn : n < 32) : d.ioRead32 (gicdIgroupr n) = d.igroupr n := by
  have hindex : (0x080 + n * 4 - 0x080) / 4 = n := by omega
  unfold Gicd.ioRead32 gicdIgroupr
  rw [if_neg (by omega), if_pos (by omega), hindex]

theorem ioRead32_ipriorityr (hn : n < 256) : d.ioRead32 (gicdIpriorityr n) = d.ipriorityr n := by
  have hindex : (0x400 + n * 4 - 0x400) / 4 = n := by omega
  unfold Gicd.ioRead32 gicdIpriorityr
  rw [if_neg (by omega), if_neg (by omega), if_neg (by omega), if_neg (by omega), if_neg (by omega),
    if_pos (by omega), hindex]

end Registers

/-! ## Bits and lanes -/

/-- Changing one bit of one register changes the bit of one interrupt. -/
theorem bits_update (f : ℕ → BitVec 32) (irq : ℕ) (b : Bool) (w : BitVec 32)
    (hw : ∀ k < 32, w.getLsbD k = if k = irq % 32 then b else (f (irq / 32)).getLsbD k) :
    (fun i => (Function.update f (irq / 32) w (i / 32)).getLsbD (i % 32)) =
      Function.update (fun i => (f (i / 32)).getLsbD (i % 32)) irq b := by
  funext i
  by_cases hi : i = irq
  · subst hi
    rw [Function.update_self, Function.update_self, hw _ (Nat.mod_lt _ (by decide)), if_pos rfl]
  · rw [Function.update_of_ne hi]
    by_cases hdiv : i / 32 = irq / 32
    · rw [hdiv, Function.update_self, hw _ (Nat.mod_lt _ (by decide)), if_neg (by omega)]
    · rw [Function.update_of_ne hdiv]

theorem getLsbD_one_shiftLeft {j k : ℕ} (hk : k < 32) :
    (1#32 <<< j).getLsbD k = decide (k = j) := by
  rw [BitVec.getLsbD_shiftLeft, BitVec.getLsbD_one]
  by_cases hkj : k = j
  · subst hkj
    simp [hk]
  · have hne : k < j ∨ k - j ≠ 0 := by omega
    rcases hne with hlt | hne
    · simp [hlt, hkj]
    · simp [hne, hkj]

theorem getLsbD_byte_mask (k : ℕ) : (0xFF#32).getLsbD k = decide (k < 8) := by
  by_cases hk : k < 32
  · interval_cases k <;> rfl
  · rw [BitVec.getLsbD_of_ge _ _ (by omega)]
    exact (decide_eq_false (by omega)).symm

/-- Replacing one byte of a word. -/
theorem lane_update (w : BitVec 32) (p : BitVec 8) {j k : ℕ} (hj : j < 4) (hk : k < 4) :
    ((w &&& ~~~(0xFF#32 <<< (j * 8))) ||| (p.setWidth 32 <<< (j * 8))).extractLsb' (k * 8) 8 =
      if k = j then p else w.extractLsb' (k * 8) 8 := by
  apply BitVec.eq_of_getLsbD_eq
  intro b hb
  have ht : k * 8 + b < 32 := by omega
  rw [BitVec.getLsbD_extractLsb', BitVec.getLsbD_or, BitVec.getLsbD_and, BitVec.getLsbD_not,
    BitVec.getLsbD_shiftLeft, BitVec.getLsbD_shiftLeft, getLsbD_byte_mask, BitVec.getLsbD_setWidth]
  by_cases hkj : k = j
  · subst hkj
    have hsub : k * 8 + b - k * 8 = b := by omega
    have hb32 : b < 32 := by omega
    simp [hsub, hb, ht, hb32]
  · rw [if_neg hkj, BitVec.getLsbD_extractLsb']
    have hout : k * 8 + b < j * 8 ∨ 8 ≤ k * 8 + b - j * 8 := by omega
    rcases hout with hlt | hge
    · simp [hlt, hb, ht]
    · have hp : p.getLsbD (k * 8 + b - j * 8) = false := BitVec.getLsbD_of_ge _ _ hge
      simp [hb, ht, hp, Nat.not_lt.mpr hge]

/-! ## The driver against the names of its functions -/

section Calls

variable {d : Gicd} {driver : ℕ → Bool}

/-- Every function but `gic_disable_interrupts` does what its name says. -/
theorem gicCall_spec {op : GicOp} (hop : op ≠ .disableInterrupts) :
    GicSpec driver d.state op (gicCall d op).state := by
  cases op with
  | enableInterrupt irq =>
      have hirq := irq.isLt
      simp only [gicCall, gicEnableInterrupt, GicSpec]
      rw [ioWrite32_isenabler (by omega)]
      refine GicState.mk.injEq .. ▸ ⟨?_, rfl, rfl⟩
      refine bits_update d.enabler irq.toNat true _ fun k hk => ?_
      rw [BitVec.getLsbD_or, getLsbD_one_shiftLeft hk]
      by_cases hkj : k = irq.toNat % 32 <;> simp [hkj]
  | disableInterrupt irq =>
      have hirq := irq.isLt
      simp only [gicCall, gicDisableInterrupt, GicSpec]
      rw [ioWrite32_icenabler (by omega)]
      refine GicState.mk.injEq .. ▸ ⟨?_, rfl, rfl⟩
      refine bits_update d.enabler irq.toNat false _ fun k hk => ?_
      rw [BitVec.getLsbD_and, BitVec.getLsbD_not, getLsbD_one_shiftLeft hk]
      by_cases hkj : k = irq.toNat % 32 <;> simp [hkj, hk]
  | disableInterrupts => exact absurd rfl hop
  | setInterruptPriority irq priority =>
      have hirq := irq.isLt
      simp only [gicCall, gicSetInterruptPriority, GicSpec]
      rw [ioRead32_ipriorityr (by omega), ioWrite32_ipriorityr (by omega)]
      refine GicState.mk.injEq .. ▸ ⟨rfl, ?_, rfl⟩
      funext i
      have hlane := lane_update (d.ipriorityr (irq.toNat / 4)) priority
        (Nat.mod_lt irq.toNat (by decide)) (Nat.mod_lt i (by decide))
      simp only [Gicd.state]
      by_cases hi : i = irq.toNat
      · subst hi
        rw [Function.update_self, Function.update_self, hlane, if_pos rfl]
      · rw [Function.update_of_ne hi]
        by_cases hdiv : i / 4 = irq.toNat / 4
        · rw [hdiv, Function.update_self, hlane, if_neg (by omega)]
        · rw [Function.update_of_ne hdiv]
  | redirectIrq irq =>
      have hirq := irq.isLt
      simp only [gicCall, gicRedirectIrq, GicSpec]
      rw [ioRead32_igroupr (by omega), ioWrite32_igroupr (by omega)]
      refine GicState.mk.injEq .. ▸ ⟨rfl, rfl, ?_⟩
      refine bits_update d.igroupr irq.toNat true _ fun k hk => ?_
      rw [BitVec.getLsbD_or, getLsbD_one_shiftLeft hk]
      by_cases hkj : k = irq.toNat % 32 <;> simp [hkj]

/-- `gic_disable_interrupts` sets the enable bits of the interrupts below 64. -/
theorem gicDisableInterrupts_state : (gicDisableInterrupts d).state =
    { d.state with enabled := fun i => d.state.enabled i || decide (i < 64) } := by
  unfold gicDisableInterrupts
  rw [ioWrite32_isenabler (by decide), ioWrite32_isenabler (by decide)]
  refine GicState.mk.injEq .. ▸ ⟨?_, rfl, rfl⟩
  funext i
  have hbit : (0xFFFFFFFF#32).getLsbD (i % 32) = true := by
    have hlt : i % 32 < 32 := Nat.mod_lt i (by decide)
    generalize i % 32 = k at hlt ⊢
    interval_cases k <;> rfl
  simp only [Gicd.state]
  by_cases h1 : i / 32 = 1
  · rw [h1, Function.update_self, BitVec.getLsbD_or, hbit]
    simp [show i < 64 by omega]
  · rw [Function.update_of_ne h1]
    by_cases h0 : i / 32 = 0
    · rw [h0, Function.update_self, BitVec.getLsbD_or, hbit]
      simp [show i < 64 by omega]
    · rw [Function.update_of_ne h0]
      simp [show ¬ i < 64 by omega]

/-- So it does what its name says only where it has nothing to do. -/
theorem gicDisableInterrupts_spec_iff :
    GicSpec driver d.state .disableInterrupts (gicCall d .disableInterrupts).state ↔
      (∀ i < 64, d.state.enabled i = true) ∧ ∀ i, d.state.enabled i = true → driver i = false := by
  simp only [GicSpec, gicCall, gicDisableInterrupts_state, and_true]
  constructor
  · intro h
    exact ⟨fun i hi => (h i (by simp [hi])).1, fun i hi => (h i (by simp [hi])).2⟩
  · rintro ⟨hlow, hdriver⟩ i hi
    have hen : d.state.enabled i = true := by
      rcases Bool.or_eq_true_iff.mp hi with hen | hlt
      · exact hen
      · exact hlow i (by simpa using hlt)
    exact ⟨hen, hdriver i hen⟩

end Calls

/-! ## Sequences of calls -/

/-- The distributor and the interrupts that the driver has enabled, after some calls. -/
def gicRun : Gicd × (ℕ → Bool) → List GicOp → Gicd × (ℕ → Bool) :=
  List.foldl fun s op => (gicCall s.1 op, driverAfter s.2 op)

/-- Each call of a sequence does to the hardware what its name says. -/
def GicRefines (d : Gicd) (ops : List GicOp) : Prop :=
  ∀ k op, ops[k]? = some op →
    GicSpec (gicRun (d, fun _ => false) (ops.take k)).2
      (gicRun (d, fun _ => false) (ops.take k)).1.state op
      (gicRun (d, fun _ => false) (ops.take (k + 1))).1.state

/-- The hardware follows the abstract state exactly in the sequences in which
`gic_disable_interrupts` is only called while the interrupts below 64 are enabled and none of
the enabled ones was enabled by the driver. -/
theorem gic_refines_iff (d : Gicd) (ops : List GicOp) :
    GicRefines d ops ↔ ∀ k, ops[k]? = some .disableInterrupts →
      (∀ i < 64, (gicRun (d, fun _ => false) (ops.take k)).1.state.enabled i = true) ∧
        ∀ i, (gicRun (d, fun _ => false) (ops.take k)).1.state.enabled i = true →
          (gicRun (d, fun _ => false) (ops.take k)).2 i = false := by
  have hnext : ∀ k op, ops[k]? = some op →
      (gicRun (d, fun _ => false) (ops.take (k + 1))).1 =
        gicCall (gicRun (d, fun _ => false) (ops.take k)).1 op := by
    intro k op hop
    rw [List.take_add_one, hop]
    simp [gicRun]
  constructor
  · intro h k hk
    have hspec := h k _ hk
    rw [hnext k _ hk] at hspec
    exact gicDisableInterrupts_spec_iff.mp hspec
  · intro h k op hop
    rw [hnext k op hop]
    by_cases hdis : op = .disableInterrupts
    · subst hdis
      exact gicDisableInterrupts_spec_iff.mpr (h k hop)
    · exact gicCall_spec hdis

/-- After `gic_enable_interrupt(30)` and `gic_disable_interrupts` interrupt 30 is enabled. -/
theorem gic_disable_interrupts_enables :
    ¬ GicRefines ⟨fun _ => 0, fun _ => 0, fun _ => 0⟩
      [.enableInterrupt 30, .disableInterrupts] := by
  intro h
  obtain ⟨hoff, _⟩ := h 1 .disableInterrupts rfl
  exact absurd (hoff 30 (by decide)).2 (by decide)

end Vectra

import Vectra.Ob.Counts
import Vectra.Sync.Atomic

/-!
# `object_grant` and `object_close` on the two architectures

The C code is the same for both. Their primitives leave the same words in memory
(`Leaves.fetch_add`, `Leaves.fetch_sub`, `Leaves.load`) except for `atomic_store_release`
(`Leaves.store_release`), with which `object_grant` stores the next hint.
-/

namespace Vectra

open Lib

variable {n : ℕ} {T : Type} [DecidableEq T]

inductive TableOp
  | grant (obj rights : ℕ)
  | close (handle : ℕ)

/-- A call on the table `c`, with the handle or the result that it returns. -/
def tableStep (types : Fin n → ObjectType) (arch : Arch) (c : T) (s : ObState n T) :
    TableOp → Option (ℤ × ObState n T)
  | .grant obj rights => (objectGrant types arch s c obj rights).map fun r => ((r.1 : ℤ), r.2)
  | .close handle => objectClose types s c handle

def tableRun (types : Fin n → ObjectType) (arch : Arch) (c : T) :
    ObState n T → List TableOp → Option (List ℤ × ObState n T)
  | s, [] => some ([], s)
  | s, op :: ops =>
      match tableStep types arch c s op with
      | none => none
      | some (r, s) => (tableRun types arch c s ops).map fun t => (r :: t.1, t.2)

/-- What can be seen of a run: the results and the table with its hint at the end. -/
def tableTrace (types : Fin n → ObjectType) (arch : Arch) (c : T) (s : ObState n T)
    (ops : List TableOp) : Option (List ℤ × CapTable) :=
  (tableRun types arch c s ops).map fun t => (t.1, t.2.tables c)

/-- Both kernels return the same handles and hold the same table after every step. -/
def SameTables (types : Fin n → ObjectType) (c : T) (s : ObState n T) (ops : List TableOp) : Prop :=
  ∀ k, tableTrace types .riscv c s (ops.take k) = tableTrace types .arm64 c s (ops.take k)

/-- The type allows the rights, and the table has an empty entry. -/
def GrantFits (types : Fin n → ObjectType) (c : T) (s : ObState n T) : TableOp → Prop
  | .grant obj rights =>
      (∃ h : objTypeId.get s.mem obj < n,
        rights &&& (types ⟨objTypeId.get s.mem obj, h⟩).defaultRights = rights) ∧
      ∃ k < capTableMax, ((s.tables c).entries k).object = 0
  | .close _ => False

/-- No call of the run is a grant that fits. -/
def NoGrantFits (types : Fin n → ObjectType) (c : T) : ObState n T → List TableOp → Prop
  | _, [] => True
  | s, op :: ops =>
      ¬ GrantFits types c s op ∧
        ∀ r t, tableStep types .arm64 c s op = some (r, t) → NoGrantFits types c t ops

variable {types : Fin n → ObjectType} {c : T} {s : ObState n T} {op : TableOp}

omit [DecidableEq T] in
/-- The search finds a slot when there is an empty one. -/
theorem freeSlot_of_empty (h : ∃ k < capTableMax, ((s.tables c).entries k).object = 0) :
    ∃ k, (s.tables c).freeSlot = some k := by
  cases hslot : (s.tables c).freeSlot with
  | none =>
      obtain ⟨k, hk, hobj⟩ := h
      exact absurd hobj (CapTable.freeSlot_none hslot hk)
  | some k => exact ⟨k, rfl⟩

/-- A call that is not a grant that fits is the same on both. -/
theorem tableStep_same (h : ¬ GrantFits types c s op) :
    tableStep types .riscv c s op = tableStep types .arm64 c s op := by
  cases op with
  | close handle => rfl
  | grant obj rights =>
      simp only [tableStep]
      congr 1
      unfold objectGrant
      by_cases htype : objTypeId.get s.mem obj < n
      · rw [dif_pos htype, dif_pos htype]
        by_cases hrights : rights &&& (types ⟨objTypeId.get s.mem obj, htype⟩).defaultRights
            = rights
        · rw [if_neg (not_not.mpr hrights), if_neg (not_not.mpr hrights)]
          cases hslot : (s.tables c).freeSlot with
          | none => rfl
          | some k =>
              obtain ⟨hk, hobj⟩ := CapTable.freeSlot_some hslot
              exact absurd ⟨⟨htype, hrights⟩, k, hk, hobj⟩ h
        · rw [if_pos hrights, if_pos hrights]
      · rw [dif_neg htype, dif_neg htype]

/-- A grant that fits leaves the hint 0 on RISC-V and another one on arm64. -/
theorem tableStep_fits (h : GrantFits types c s op) :
    ∃ r t t', tableStep types .riscv c s op = some (r, t) ∧
      tableStep types .arm64 c s op = some (r, t') ∧
      (t.tables c).nextFreeHint = 0 ∧ (t'.tables c).nextFreeHint ≠ 0 := by
  cases op with
  | close handle => exact h.elim
  | grant obj rights =>
      obtain ⟨⟨htype, hrights⟩, hempty⟩ := h
      obtain ⟨k, hslot⟩ := freeSlot_of_empty hempty
      have hgrant : ∀ arch, tableStep types arch c s (.grant obj rights) =
          some ((k : ℤ), { s with
            tables := Function.update s.tables c
              ((s.tables c).fillSlot arch k obj rights (objGeneration.get s.mem obj))
            mem := atomicFetchAdd objHandleCount s.mem obj 1 }) := by
        intro arch
        simp only [tableStep]
        unfold objectGrant
        rw [dif_pos htype, if_neg (not_not.mpr hrights), hslot]
        rfl
      refine ⟨_, _, _, hgrant .riscv, hgrant .arm64, ?_, ?_⟩
      · simp [CapTable.fillSlot, atomicStoreRelease]
      · simp [CapTable.fillSlot, atomicStoreRelease]

/-- A run of one more call, seen from outside. -/
theorem tableTrace_cons (arch : Arch) (ops : List TableOp) :
    tableTrace types arch c s (op :: ops) =
      match tableStep types arch c s op with
      | none => none
      | some (r, t) => (tableTrace types arch c t ops).map fun p => (r :: p.1, p.2) := by
  unfold tableTrace
  rw [tableRun]
  cases tableStep types arch c s op with
  | none => rfl
  | some a => simp [Option.map_map, Function.comp_def]

theorem sameTables_cons (h : ¬ GrantFits types c s op) (ops : List TableOp) :
    SameTables types c s (op :: ops) ↔
      ∀ r t, tableStep types .arm64 c s op = some (r, t) → SameTables types c t ops := by
  constructor
  · intro hsame r t hs k
    have hk := hsame (k + 1)
    rw [List.take_succ_cons, tableTrace_cons, tableTrace_cons, tableStep_same h, hs] at hk
    refine Option.map_injective (fun p q hpq => ?_) hk
    obtain ⟨hr, ht⟩ := Prod.mk.inj hpq
    exact Prod.ext (List.cons.inj hr).2 ht
  · intro hsame k
    cases k with
    | zero => rfl
    | succ k =>
        rw [List.take_succ_cons, tableTrace_cons, tableTrace_cons, tableStep_same h]
        cases hs : tableStep types .arm64 c s op with
        | none => rfl
        | some a =>
            simp only
            rw [hsame a.1 a.2 hs k]

/-- The two kernels agree exactly in the runs in which no grant fits. -/
theorem same_tables_iff (types : Fin n → ObjectType) (c : T) (s : ObState n T)
    (ops : List TableOp) : SameTables types c s ops ↔ NoGrantFits types c s ops := by
  induction ops generalizing s with
  | nil => exact iff_of_true (fun k => by rw [List.take_nil]; rfl) trivial
  | cons op ops ih =>
      rw [NoGrantFits]
      by_cases hfits : GrantFits types c s op
      · refine iff_of_false (fun hsame => ?_) fun hno => hno.1 hfits
        obtain ⟨r, t, t', hr, ha, hzero, hone⟩ := tableStep_fits hfits
        have hk := hsame 1
        rw [List.take_succ_cons, List.take_zero, tableTrace_cons, tableTrace_cons, hr, ha] at hk
        have htable : t.tables c = t'.tables c := (Prod.mk.inj (Option.some.inj hk)).2
        rw [htable] at hzero
        exact hone hzero
      · rw [sameTables_cons hfits, and_iff_right hfits]
        exact forall_congr' fun r => forall_congr' fun t => imp_congr_right fun _ => ih t

/-- After a grant and a close the next grant returns another handle on RISC-V than on arm64. -/
theorem same_tables_regrant :
    ∃ s, objectCreate pageType pageObjects.state 0 0 = some (0x1010, s) ∧
      (tableTrace pageType .riscv () s [.grant 0x1010 1, .close 0, .grant 0x1010 1]).map Prod.fst =
        some [0, 0, 0] ∧
      (tableTrace pageType .arm64 () s [.grant 0x1010 1, .close 0, .grant 0x1010 1]).map Prod.fst =
        some [0, 0, 1] := by
  obtain ⟨⟨r, s⟩, hs, hr⟩ := Option.bind_eq_some_iff.mp (by decide +kernel :
    (objectCreate pageType pageObjects.state 0 0 >>= fun a => some (a.1,
      (tableTrace pageType .riscv () a.2 [.grant 0x1010 1, .close 0, .grant 0x1010 1]).map Prod.fst,
      (tableTrace pageType .arm64 () a.2 [.grant 0x1010 1, .close 0, .grant 0x1010 1]).map
        Prod.fst)) = some (0x1010, some [0, 0, 0], some [0, 0, 1]))
  simp only [Option.some.injEq, Prod.mk.injEq] at hr
  obtain ⟨rfl, hriscv, harm⟩ := hr
  exact ⟨s, hs, hriscv, harm⟩

end Vectra

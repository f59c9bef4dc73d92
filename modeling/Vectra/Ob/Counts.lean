import Mathlib.Data.Set.Finite.Lattice
import Vectra.Libkern.HashRuns
import Vectra.Ob.LedgerSteps

/-!
# The counts in the headers

In every run the header of an object that is not destroyed holds what the ledger and the
tables say: the references that are outstanding, and the entries that name the object.
-/

namespace Vectra

open Lib SlabMem

variable {n : ℕ} {T : Type}

structure ObCounts (u : ObRun n T) : Prop where
  handles : ∀ x a, u.Live x a → (u.state.naming x).Finite ∧
    objHandleCount.get u.state.mem x = (u.state.naming x).ncard
  refs : ∀ x a, u.Live x a →
    objRefcount.get u.state.mem x + a.derefs = 1 + a.refs + a.lookups
  entries : ∀ c k, k < capTableMax → ((u.state.tables c).entries k).object ≠ 0 →
    ∃ a, u.Live ((u.state.tables c).entries k).object a

/-- A call that returned an error. -/
def ObOp.Failed : ObOp n T → Prop
  | .grant _ _ _ r => r = capInvalid
  | .close _ _ r => r ≠ 0
  | .lookup _ _ _ r => r = 0
  | _ => False

namespace ObInv

variable {types : Fin n → ObjectType} {slack : ℕ} {u v : ObRun n T} {o : SlabOwn (SlabId n)}
  {nodes : ℕ → List ℕ} {E : ℕ → List (ℕ × ℕ)} {V : ℕ → Option ObjectHeader}

theorem obCounts (h : ObInv types slack u o nodes E V) : ObCounts u := by
  have hread : ∀ x a, u.Live x a → ∃ hd, V x = some hd ∧ Counts u.state a x hd ∧ x ≠ 0 := by
    intro x a hlive
    obtain ⟨ha, hd, hx⟩ := h.live_iff.mp hlive
    obtain ⟨b, hb, hcounts⟩ := h.counts x hd hx
    cases ha.symm.trans hb
    exact ⟨hd, hx, hcounts, (ObHeap.addr h.heap hx).1⟩
  refine ⟨fun x a hlive => ?_, fun x a hlive => ?_, fun c k hk hobj => ?_⟩
  · obtain ⟨hd, hx, hcounts, hx0⟩ := hread x a hlive
    refine ⟨h.finite x hx0, ?_⟩
    rw [(h.read hx).2.2.1, hcounts.handleCount]
  · obtain ⟨hd, hx, hcounts, _⟩ := hread x a hlive
    rw [(h.read hx).2.1, hcounts.refcount]
    exact Tally.held_add (h.derefs x a hlive.1)
  · obtain ⟨hsome, _⟩ := h.entry c k hk hobj
    obtain ⟨hd, hx⟩ := Option.isSome_iff_exists.mp hsome
    obtain ⟨a, hlive, _⟩ := h.live_of_some hx
    exact ⟨a, hlive⟩

/-- A call that fails changes nothing. -/
theorem failed [DecidableEq T] {arch : Arch} {op : ObOp n T} (h : ObInv types slack u o nodes E V)
    (hs : ObStep types arch u op v) (hfail : op.Failed) : v.state = u.state := by
  obtain ⟨hcaller, hcall, _⟩ := hs
  cases op with
  | create i args r => exact hfail.elim
  | ref x => exact hfail.elim
  | deref x => exact hfail.elim
  | grant c x rights r =>
      have hr : r = capInvalid := hfail
      obtain ⟨a, _, ⟨_, hs⟩ | ⟨_, k, hk, hs⟩⟩ :=
        h.grant_cases arch c rights hcaller
      · exact (Prod.mk.inj (Option.some.inj (hs.symm.trans hcall))).2.symm
      · have hkr := (Prod.mk.inj (Option.some.inj (hs.symm.trans hcall))).1
        have hlt := (CapTable.freeSlot_some hk).1
        unfold capTableMax at hlt
        unfold capInvalid at hr
        omega
  | close c k r =>
      have hcall' : objectClose types u.state c k = some (r, v.state) := hcall
      rw [close_eq] at hcall'
      split at hcall'
      · cases hclose : Vectra.closeSlot types u.state c k with
        | none => simp [hclose] at hcall'
        | some t =>
            rw [hclose] at hcall'
            exact absurd (Prod.mk.inj (Option.some.inj hcall')).1.symm hfail
      · exact (Prod.mk.inj (Option.some.inj hcall')).2.symm
  | lookup c k rights r =>
      have hcall' : capLookup types u.state c k rights = some (r, v.state) := hcall
      rw [h.lookup_eq] at hcall'
      split at hcall'
      · rename_i hbound
        exact absurd ((Prod.mk.inj (Option.some.inj hcall')).1.trans hfail) hbound.2.1
      · exact (Prod.mk.inj (Option.some.inj hcall')).2.symm

end ObInv

/-- In every state of a run both counts of every object that is not destroyed are right, the
tables name no destroyed object, a call that fails changes nothing, and a lookup never
returns a destroyed object. -/
theorem object_counts_run [DecidableEq T] {types : Fin n → ObjectType} {arch : Arch}
    {u₀ u : ObRun n T} {ops : List (ObOp n T)} (hboot : ObBoot types u₀)
    (hrun : Run (BoundedStep types arch) u₀ ops u) :
    ObCounts u ∧ (∀ op v, ObStep types arch u op v → op.Failed → v.state = u.state) ∧
      ∀ c k rights r v, ObStep types arch u (.lookup c k rights r) v → r ≠ 0 →
        ∃ a, u.Live r a := by
  obtain ⟨slack, o, nodes, E, V, hinv⟩ := hboot.run hrun
  refine ⟨hinv.obCounts, fun op v hs hfail => hinv.failed hs hfail, ?_⟩
  intro c k rights r v hs hr
  have hcall : capLookup types u.state c k rights = some (r, v.state) := hs.call
  rw [hinv.lookup_eq] at hcall
  split at hcall
  · rename_i hbound
    obtain ⟨a, hlive⟩ := hinv.obCounts.entries c k hbound.1 hbound.2.1
    rw [(Prod.mk.inj (Option.some.inj hcall)).1] at hlive
    exact ⟨a, hlive⟩
  · exact absurd (Prod.mk.inj (Option.some.inj hcall)).1.symm hr

/-- A finite number of tables bounds the handles of each object. -/
theorem ObRun.bounded_of_card [Fintype T] {u : ObRun n T} (hcard : Fintype.card T * 4096 < 2 ^ 32)
    (hheld : ∀ x a, u.ledger.tally x = some a → a.held < 2 ^ 32) : u.Bounded := by
  intro x a hlive
  refine ⟨hheld x a hlive.1, lt_of_le_of_lt ?_ hcard⟩
  have hsub : u.state.naming x ⊆ ((Finset.univ : Finset T) ×ˢ
      Finset.range 4096 : Finset (T × ℕ)) := by
    rintro ⟨c, k⟩ ⟨hk, _⟩
    simp only [Finset.coe_product, Finset.coe_univ, Finset.coe_range, Set.mem_prod, Set.mem_univ,
      Set.mem_Iio, true_and]
    exact hk
  have hle := Set.ncard_le_ncard hsub (Finset.finite_toSet _)
  rw [Set.ncard_coe_finset, Finset.card_product, Finset.card_univ, Finset.card_range] at hle
  exact hle

/-- The same with one object in the ledger. -/
theorem ObRun.bounded_of_single [Fintype T] {s : ObState n T} {x : ℕ} {a : Tally n}
    {born : ℕ → ℕ} (hcard : Fintype.card T * 4096 < 2 ^ 32) (ha : a.held < 2 ^ 32) :
    (⟨s, Function.update (fun _ => none) x (some a), born⟩ : ObRun n T).Bounded := by
  refine bounded_of_card hcard fun y b hb => ?_
  simp only at hb
  by_cases hy : y = x
  · rw [hy, Function.update_self] at hb
    rw [← Option.some.inj hb]
    exact ha
  · rw [Function.update_of_ne hy] at hb
    cases hb

/-! ## Evaluation -/

instance (u : ObRun n T) (x : ℕ) : Decidable (u.Owned x) :=
  decidable_of_iff ((u.ledger.tally x).any fun a => decide (0 < a.held)) (by
    simp [ObRun.Owned, Option.any_eq_true])

def expect {ρ σ : Type} [DecidableEq ρ] (r : ρ) : Option (ρ × σ) → Option σ
  | none => none
  | some (r', s) => if r' = r then some s else none

theorem expect_eq_some {ρ σ : Type} [DecidableEq ρ] {r : ρ} {a : Option (ρ × σ)} {s : σ} :
    expect r a = some s ↔ a = some (r, s) := by
  cases a with
  | none => simp [expect]
  | some b =>
      simp only [expect, Option.ite_none_right_eq_some, Option.some.injEq, Prod.ext_iff]

/-- One call by somebody who holds the object, if it comes back with the result of its label. -/
def ObRun.call [DecidableEq T] (types : Fin n → ObjectType) (arch : Arch) (u : ObRun n T) :
    ObOp n T → Option (ObState n T)
  | .create i args r => expect r (objectCreate types u.state i args)
  | .ref x => if u.Owned x then some (objectRef u.state x) else none
  | .deref x => if u.Owned x then objectDeref types u.state x else none
  | .grant c x rights r =>
      if u.Owned x then expect r (objectGrant types arch u.state c x rights) else none
  | .close c h r => expect r (objectClose types u.state c h)
  | .lookup c h rights r => expect r (capLookup types u.state c h rights)

def ObRun.calls [DecidableEq T] (types : Fin n → ObjectType) (arch : Arch) :
    ObRun n T → List (ObOp n T) → Option (ObRun n T)
  | u, [] => some u
  | u, op :: ops => (u.call types arch op).bind fun s =>
      ObRun.calls types arch ⟨s, u.ledger.after u.state.nextObjectId op⟩ ops

/-- A call adds one reference at most. -/
theorem Ledger.held_after {L : Ledger n} {id m : ℕ} (op : ObOp n T)
    (h : ∀ x a, L.tally x = some a → a.held ≤ m) :
    ∀ x a, (L.after id op).tally x = some a → a.held ≤ m + 1 := by
  have hkeep : ∀ x a, L.tally x = some a → a.held ≤ m + 1 := fun x a ha =>
    (h x a ha).trans (Nat.le_succ m)
  have hcount : ∀ y (f : Tally n → Tally n), (∀ a, (f a).held ≤ a.held + 1) →
      ∀ x a, (L.count y f).tally x = some a → a.held ≤ m + 1 := by
    intro y f hf x a ha
    by_cases hxy : x = y
    · simp only [Ledger.count, hxy, Function.update_self, Option.map_eq_some_iff] at ha
      obtain ⟨b, hb, rfl⟩ := ha
      exact (hf b).trans (Nat.succ_le_succ (h y b hb))
    · rw [Ledger.count_of_ne hxy] at ha
      exact hkeep x a ha
  cases op with
  | create i args r =>
      intro x a ha
      simp only [after] at ha
      split at ha
      · exact hkeep x a ha
      · by_cases hxr : x = r
        · simp only [hxr, Function.update_self, Option.some.injEq] at ha
          simp only [← ha, Tally.held]
          omega
        · simp only [Function.update_of_ne hxr] at ha
          exact hkeep x a ha
  | ref y => exact hcount y _ fun a => by simp only [Tally.held]; omega
  | deref y => exact hcount y _ fun a => by simp only [Tally.held]; omega
  | lookup c k rights r =>
      simp only [after]
      split
      · exact hkeep
      · exact hcount r _ fun a => by simp only [Tally.held]; omega
  | _ => exact hkeep

namespace ObInv

variable [DecidableEq T] {types : Fin n → ObjectType} {arch : Arch} {slack : ℕ} {u v : ObRun n T}
  {o : SlabOwn (SlabId n)} {nodes : ℕ → List ℕ} {E : ℕ → List (ℕ × ℕ)}
  {V : ℕ → Option ObjectHeader} {s : ObState n T} {op : ObOp n T} {ops : List (ObOp n T)}

theorem call_step (h : ObInv types slack u o nodes E V) (hs : u.call types arch op = some s) :
    ObStep types arch u op ⟨s, u.ledger.after u.state.nextObjectId op⟩ := by
  cases op with
  | create i args r => exact ⟨trivial, expect_eq_some.mp hs, rfl⟩
  | ref x =>
      obtain ⟨howned, hstate⟩ := Option.ite_none_right_eq_some.mp hs
      obtain ⟨a, hd, ha, hx, _⟩ := h.owned howned
      exact ⟨⟨a, h.live_iff.mpr ⟨ha, hd, hx⟩⟩, (Option.some.inj hstate).symm, rfl⟩
  | deref x =>
      obtain ⟨howned, hcall⟩ := Option.ite_none_right_eq_some.mp hs
      exact ⟨howned, hcall, rfl⟩
  | grant c x rights r =>
      obtain ⟨howned, hcall⟩ := Option.ite_none_right_eq_some.mp hs
      exact ⟨howned, expect_eq_some.mp hcall, rfl⟩
  | close c k r => exact ⟨trivial, expect_eq_some.mp hs, rfl⟩
  | lookup c k rights r => exact ⟨trivial, expect_eq_some.mp hs, rfl⟩

theorem calls_run [Fintype T] {m : ℕ} (hcard : Fintype.card T * 4096 < 2 ^ 32)
    (h : ObInv types slack u o nodes E V)
    (hheld : ∀ x a, u.ledger.tally x = some a → a.held ≤ m) (hlen : m + ops.length < 2 ^ 32)
    (hs : u.calls types arch ops = some v) : Run (BoundedStep types arch) u ops v := by
  induction ops generalizing u o nodes E V m with
  | nil =>
      rw [← Option.some.inj hs]
      exact .nil u
  | cons op ops ih =>
      obtain ⟨s, hcall, hrest⟩ := Option.bind_eq_some_iff.mp hs
      have hstep := h.call_step hcall
      have hheld' : ∀ x a, (u.ledger.after u.state.nextObjectId op).tally x = some a →
          a.held ≤ m + 1 := Ledger.held_after op hheld
      rw [List.length_cons] at hlen
      have hb : ObRun.Bounded ⟨s, u.ledger.after u.state.nextObjectId op⟩ :=
        ObRun.bounded_of_card hcard fun x a ha => lt_of_le_of_lt (hheld' x a ha) (by omega)
      obtain ⟨_, o', nodes', E', V', hinv, _⟩ := h.next hstep hb
      exact .cons ⟨hstep, hb⟩ (ih hinv hheld' (by omega) hrest)

end ObInv

/-- Calls that come back with these results are a run: so few of them stay within the bounds. -/
theorem ObBoot.calls_run [DecidableEq T] [Fintype T] {types : Fin n → ObjectType} {arch : Arch}
    {u v : ObRun n T} {ops : List (ObOp n T)} (h : ObBoot types u)
    (hcard : Fintype.card T * 4096 < 2 ^ 32) (hlen : ops.length < 2 ^ 32)
    (hs : u.calls types arch ops = some v) : Run (BoundedStep types arch) u ops v := by
  obtain ⟨slack, hinv⟩ := h.inv
  refine hinv.calls_run (m := 0) hcard (fun x a ha => ?_) (by omega) hs
  rw [h.ledger] at ha
  cases ha

/-- One type whose objects fill a page each, with a `destroy` operation. -/
def pageType : Fin 1 → ObjectType := fun _ => ⟨3000, none, some fun _ m => m, 3⟩

/-- The state after `ob_init` with one type, one table and four free frames. -/
def pageObjects : ObRun 1 Unit :=
  ⟨⟨fun _ => 0#8, fourFrames, fun _ => newSlabCache 3000, hashtableInit (fun _ => 1) 4096, 1,
    fun _ => capTableCreate, []⟩, ⟨fun _ => none, fun _ => 0⟩⟩

theorem pageObjects_boot : ObBoot pageType pageObjects where
  ok := by
    refine ⟨by decide, fun _ => by simp [pageType, objectHeaderSize], ?_, ?_⟩
    · intro i f obj args m hf
      cases hf
    · intro i f obj m hf
      cases hf
      exact fun _ _ => rfl
  pmm := ⟨0, by decide, by decide, by decide, by decide⟩
  base_pos := by decide
  room := by decide
  type_room := fun _ => by
    simp only [pageType]
    decide
  slabs := fun _ => rfl
  idTable := ⟨_, rfl⟩
  nextObjectId := rfl
  tables := fun _ => rfl
  destroyCalls := rfl
  ledger := rfl

theorem object_counts_run_one_object :
    ∃ u, Run (BoundedStep pageType .arm64) pageObjects
        [.create 0 0 0x1010, .grant () 0x1010 1 0, .lookup () 0 1 0x1010, .deref 0x1010] u ∧
      ObCounts u := by
  obtain ⟨u, hu⟩ := Option.isSome_iff_exists.mp (by decide +kernel :
    (pageObjects.calls pageType .arm64 [.create 0 0 0x1010, .grant () 0x1010 1 0,
      .lookup () 0 1 0x1010, .deref 0x1010]).isSome = true)
  have hrun := pageObjects_boot.calls_run (by decide) (by decide) hu
  exact ⟨u, hrun, (object_counts_run pageObjects_boot hrun).1⟩

end Vectra

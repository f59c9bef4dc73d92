import Vectra.Ob.CapRuns

/-!
# Where the rights come from

What a lookup returns is decided by the calls that were made, and not by the state: the last call
that changed the handle must be a grant. While the handle is bound, its object is not replaced by
another one at the same address.
-/

namespace Vectra

open Lib SlabMem

variable {n : ℕ} {T : Type} [DecidableEq T]

/-- What a call sets handle `k` of table `c` to. -/
def ObOp.binds (c : T) (k : ℕ) : ObOp n T → Option (Option (ℕ × ℕ))
  | .grant d x rights r =>
      if d = c ∧ r = k ∧ r ≠ capInvalid then some (some (x, rights)) else none
  | .close d j r => if d = c ∧ j = k ∧ r = 0 then some none else none
  | _ => none

/-- The last of the calls that changed the handle granted the object with these rights. -/
def GrantedLast (ops : List (ObOp n T)) (c : T) (k x rights : ℕ) : Prop :=
  ∃ before after, ops = before ++ .grant c x rights k :: after ∧ k ≠ capInvalid ∧
    ∀ op ∈ after, op.binds c k = none

/-- What the calls so far say about the handles. -/
structure CapTrace (types : Fin n → ObjectType) (ops : List (ObOp n T)) (u : ObRun n T) : Prop where
  lookup : ∀ c k rights, ∃ x t, capLookup types u.state c k rights = some (x, t) ∧
    ∀ y, y ≠ 0 → (x = y ↔
      ∃ granted, GrantedLast ops c k y granted ∧ granted &&& rights = rights)
  allowed : ∀ c k x rights, GrantedLast ops c k x rights →
    ∃ a, u.Live x a ∧ rights &&& (types a.type).defaultRights = rights
  same : ∀ before c x rights k after, ops = before ++ .grant c x rights k :: after →
    k ≠ capInvalid → (∀ op ∈ after, op.binds c k = none) →
      ∀ i args, .create i args x ∉ after

section Steps

variable {types : Fin n → ObjectType} {arch : Arch} {u v : ObRun n T} {op : ObOp n T} {c : T}
  {k x rights slack : ℕ} {ops : List (ObOp n T)}

theorem grantedLast_iff : GrantedLast ops c k x rights ↔
    lastSet (ObOp.binds c k) ops = some (some (x, rights)) := by
  rw [lastSet_eq_some]
  constructor
  · rintro ⟨before, after, hops, hk, hafter⟩
    exact ⟨before, _, after, hops, if_pos ⟨rfl, rfl, hk⟩, hafter⟩
  · rintro ⟨before, a, after, hops, ha, hafter⟩
    cases a with
    | grant d y granted r =>
        obtain ⟨⟨rfl, rfl, hk⟩, heq⟩ := Option.ite_none_right_eq_some.mp ha
        cases heq
        exact ⟨before, after, hops, hk, hafter⟩
    | close d j r =>
        obtain ⟨_, heq⟩ := Option.ite_none_right_eq_some.mp ha
        cases heq
    | create i args r => cases ha
    | ref y => cases ha
    | deref y => cases ha
    | lookup d j granted r => cases ha

/-- A call changes the bindings as it says. -/
theorem CapSpec.binding_step {slack : ℕ} {o : SlabOwn (SlabId n)} {nodes : ℕ → List ℕ}
    {E : ℕ → List (ℕ × ℕ)} {V : ℕ → Option ObjectHeader} (h : CapSpec types arch u)
    (hinv : ObInv types slack u o nodes E V) (hs : ObStep types arch u op v) (c : T) (k : ℕ) :
    (v.state.tables c).binding k = (op.binds c k).getD ((u.state.tables c).binding k) := by
  obtain ⟨hcaller, hcall, _⟩ := hs
  cases op with
  | create i args r =>
      obtain ⟨_, _, hcreated, _⟩ := ObHeap.objectCreate hinv.heap hinv.next_lt hcall
      rw [hcreated.tables]
      rfl
  | ref x =>
      have hstate : v.state = objectRef u.state x := hcall
      rw [hstate]
      rfl
  | deref x =>
      rw [(objectDeref_frame hcall).1]
      rfl
  | grant d x rights r =>
      obtain ⟨a, ha, hheld⟩ := hcaller
      obtain ⟨r', t, ht, _, hfail, hok⟩ := h.grant d x rights a ha hheld
      obtain ⟨rfl, rfl⟩ := Prod.mk.inj (Option.some.inj (ht.symm.trans hcall))
      simp only [ObOp.binds]
      by_cases hr : r' = capInvalid
      · rw [if_neg fun hand => hand.2.2 hr, hfail hr]
        rfl
      · rw [(hok hr).2.2 c k]
        by_cases hk : d = c ∧ r' = k
        · rw [if_pos ⟨hk.1.symm, hk.2.symm⟩, if_pos ⟨hk.1, hk.2, hr⟩]
          rfl
        · rw [if_neg fun hand => hk ⟨hand.1.symm, hand.2.symm⟩,
            if_neg fun hand => hk ⟨hand.1, hand.2.1⟩]
          rfl
  | close d j r =>
      obtain ⟨r', t, ht, _, hfail, hok⟩ := h.close d j
      obtain ⟨rfl, rfl⟩ := Prod.mk.inj (Option.some.inj (ht.symm.trans hcall))
      simp only [ObOp.binds]
      by_cases hr : r' = 0
      · rw [hok hr c k]
        by_cases hk : d = c ∧ j = k
        · rw [if_pos ⟨hk.1.symm, hk.2.symm⟩, if_pos ⟨hk.1, hk.2, hr⟩]
          rfl
        · rw [if_neg fun hand => hk ⟨hand.1.symm, hand.2.symm⟩,
            if_neg fun hand => hk ⟨hand.1, hand.2.1⟩]
          rfl
      · rw [if_neg fun hand => hr hand.2.2, hfail hr]
        rfl
  | lookup d j rights r =>
      obtain ⟨x, t, ht, htables, _⟩ := h.lookup d j rights
      obtain ⟨rfl, rfl⟩ := Prod.mk.inj (Option.some.inj (ht.symm.trans hcall))
      rw [htables]
      rfl

/-- The invariant of the runs, with what was called so far. -/
structure TraceInv (types : Fin n → ObjectType) (slack : ℕ) (ops : List (ObOp n T))
    (u : ObRun n T) : Prop where
  inv : ∃ o nodes E V, ObInv types slack u o nodes E V
  allowed : u.Allowed types
  bound : ∀ c k, (u.state.tables c).binding k = (lastSet (ObOp.binds c k) ops).getD none
  same : ∀ before c x rights k after, ops = before ++ .grant c x rights k :: after →
    k ≠ capInvalid → (∀ op ∈ after, op.binds c k = none) →
      ∀ i args, .create i args x ∉ after

theorem TraceInv.bound_iff (h : TraceInv types slack ops u) :
    (u.state.tables c).binding k = some (x, rights) ↔ GrantedLast ops c k x rights := by
  rw [grantedLast_iff, h.bound]
  cases lastSet (ObOp.binds c k) ops with
  | none => simp
  | some b => rw [Option.getD_some, Option.some.injEq]

theorem TraceInv.step (h : TraceInv types slack ops u) (hs : BoundedStep types arch u op v) :
    TraceInv types slack (ops ++ [op]) v := by
  obtain ⟨⟨o, nodes, E, V, hinv⟩, hallowed, hbound, hsame⟩ := h
  obtain ⟨hstep, hb⟩ := hs
  have hspec : CapSpec types arch u := hinv.capSpec hallowed
  obtain ⟨_, o', nodes', E', V', hinv', _⟩ := hinv.next hstep hb
  refine ⟨⟨o', nodes', E', V', hinv'⟩, hinv.allowed_step hallowed hstep, fun c k => ?_, ?_⟩
  · rw [hspec.binding_step hinv hstep, hbound, lastSet_concat]
    cases op.binds c k <;> rfl
  · intro before c x rights k after hops hk hafter i args hmem
    rcases List.eq_nil_or_concat' after with rfl | ⟨after', last, rfl⟩
    · cases hmem
    · rw [← List.cons_append, ← List.append_assoc] at hops
      obtain ⟨hops', hlast⟩ := List.append_inj' hops rfl
      cases hlast
      have hafter' : ∀ op ∈ after', op.binds c k = none :=
        fun op' hop => hafter op' (List.mem_append_left _ hop)
      rcases List.mem_append.mp hmem with hold | hnew
      · exact hsame before c x rights k after' hops' hk hafter' i args hold
      · -- the new object is not one that the handle names
        have heq : ObOp.create i args x = op := List.mem_singleton.mp hnew
        subst heq
        have hlive : (u.state.tables c).binding k = some (x, rights) :=
          (TraceInv.bound_iff ⟨⟨o, nodes, E, V, hinv⟩, hallowed, hbound, hsame⟩).mpr
            ⟨before, after', hops', hk, hafter'⟩
        obtain ⟨hx, hsome, _⟩ := hinv.bound_live hlive
        obtain ⟨_, _, _, _, hok⟩ := ObHeap.objectCreate hinv.heap hinv.next_lt hstep.call
        rw [(hok hx).1] at hsome
        cases hsome

/-- In every run, a lookup returns what the last change of the handle granted, as far as the rights
go, and the handle still means the object that was granted. -/
theorem cap_trace_run {u₀ : ObRun n T} (hboot : ObBoot types u₀)
    (hrun : Run (BoundedStep types arch) u₀ ops u) : CapTrace types ops u := by
  obtain ⟨slack, hinv⟩ := hboot.inv
  have hstart : TraceInv types slack [] u₀ := by
    refine ⟨⟨_, _, _, _, hinv⟩, ?_, fun c k => ?_, ?_⟩
    · intro c k x rights a _ ha
      rw [hboot.ledger] at ha
      cases ha
    · rw [hboot.tables c]
      exact CapTable.binding_eq_none.mpr fun hand => hand.2 rfl
    · intro before c x rights k after hops
      exact absurd hops (by simp)
  have hend := hrun.invariant_labels (I := TraceInv types slack)
    (fun xs s a t hs hst => hs.step hst) hstart
  obtain ⟨o, nodes, E, V, hu⟩ := hend.inv
  have hspec : CapSpec types arch u := hu.capSpec hend.allowed
  refine ⟨fun c k rights => ?_, fun c k x rights hlast => ?_, hend.same⟩
  · obtain ⟨x, t, ht, _, hiff⟩ := hspec.lookup c k rights
    refine ⟨x, t, ht, fun y hy => (hiff y hy).trans ?_⟩
    exact exists_congr fun granted => and_congr_left fun _ => hend.bound_iff
  · exact hspec.allowed c k x rights (hend.bound_iff.mpr hlast)

end Steps

/-- A handle that was granted with one right is looked up with it. -/
theorem cap_trace_run_one_grant :
    ∃ (u : ObRun 1 Unit) (ops : List (ObOp 1 Unit)), ops.length = 2 ∧
      GrantedLast ops () 0 0x1010 1 ∧ CapTrace pageType ops u := by
  obtain ⟨u, hu⟩ := Option.isSome_iff_exists.mp (by decide +kernel :
    (pageObjects.calls pageType .arm64
      [.create 0 0 0x1010, .grant () 0x1010 1 0]).isSome = true)
  have hrun := pageObjects_boot.calls_run (by decide) (by decide) hu
  exact ⟨u, _, rfl, ⟨[.create 0 0 0x1010], [], rfl, by decide, fun _ hop => by cases hop⟩,
    cap_trace_run pageObjects_boot hrun⟩

end Vectra

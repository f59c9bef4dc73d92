import Vectra.Ob.Registry

/-!
# Lifetimes of objects

An object lives from `object_create` until both of its counts are zero. This needs ids that
are not in use and slots whose `destroyed` byte is clear, and `object_create` sees to neither.
-/

namespace Vectra

open Lib SlabMem

variable {n : ℕ} {T : Type}

/-- The invariant in every state of a run whose calls meet a condition, with whatever the
effects of these calls preserve. -/
theorem ObBoot.run_effect [DecidableEq T] {types : Fin n → ObjectType} {arch : Arch}
    {u₀ u : ObRun n T} {ops : List (ObOp n T)} {C : ObRun n T → ObOp n T → Prop}
    {P : ObRun n T → (ℕ → List (ℕ × ℕ)) → (ℕ → Option ObjectHeader) → Prop}
    (hboot : ObBoot types u₀) (hinit : P u₀ (fun _ => []) fun _ => none)
    (hstep : ∀ u op v slack o nodes E V E' V', ObInv types slack u o nodes E V →
      ObStep types arch u op v → C u op →
      v.state.idTable.nbuckets = u.state.idTable.nbuckets → ObEffect types u v E V E' V' →
      P u E V → P v E' V')
    (hrun : Run (fun u op v => BoundedStep types arch u op v ∧ C u op) u₀ ops u) :
    ∃ slack o nodes E V, ObInv types slack u o nodes E V ∧ P u E V := by
  obtain ⟨slack, hinv⟩ := hboot.inv
  obtain ⟨o, nodes, E, V, hu, hp⟩ := hrun.invariant
    (I := fun w => ∃ o nodes E V, ObInv types slack w o nodes E V ∧ P w E V) (by
      rintro w op w' ⟨o, nodes, E, V, hw, hp⟩ ⟨⟨hs, hb⟩, hc⟩
      obtain ⟨hnb, o', nodes', E', V', hinv', heff⟩ := hw.next hs hb
      exact ⟨o', nodes', E', V', hinv', hstep w op w' slack o nodes E V E' V' hw hs hc hnb heff hp⟩)
    ⟨_, _, _, _, hinv, hinit⟩
  exact ⟨slack, o, nodes, E, V, hu, hp⟩

/-- With fresh ids the entries of the id table stay the live objects. -/
theorem IdsOk.step [DecidableEq T] {types : Fin n → ObjectType} {arch : Arch} {slack : ℕ}
    {u v : ObRun n T} {op : ObOp n T} {o : SlabOwn (SlabId n)} {nodes : ℕ → List ℕ}
    {E E' : ℕ → List (ℕ × ℕ)} {V V' : ℕ → Option ObjectHeader} (h : IdsOk u.state E V)
    (hinv : ObInv types slack u o nodes E V) (hs : ObStep types arch u op v) (hfresh : IdFresh u op)
    (hnb : v.state.idTable.nbuckets = u.state.idTable.nbuckets)
    (heff : ObEffect types u v E V E' V') : IdsOk v.state E' V' := by
  refine h.next heff hnb fun hborn y hd hy => ?_
  rw [hs.ledger] at hborn
  obtain ⟨i, args, r, rfl, hr⟩ := Ledger.born_after hborn
  obtain ⟨a, hlive, hcounts⟩ := hinv.live_of_some hy
  rw [hcounts.id]
  exact hfresh hr y a hlive

/-! ## Ids -/

/-- An `object_create` that returns an object draws an id that is not 0 and that no live object
has. -/
def IdValid (u : ObRun n T) (op : ObOp n T) : Prop :=
  IdFresh u op ∧ match op with
    | .create _ _ r => r ≠ 0 → u.state.nextObjectId ≠ 0
    | _ => True

/-- The ids of the objects that are not destroyed are not 0 and differ from each other, and
the id table finds each of these objects. -/
structure IdsUnique (u : ObRun n T) : Prop where
  nonzero : ∀ x a, u.Live x a → objObjectId.get u.state.mem x ≠ 0
  distinct : ∀ x y a b, u.Live x a → u.Live y b →
    objObjectId.get u.state.mem x = objObjectId.get u.state.mem y → x = y
  listed : ∀ x a, u.Live x a →
    hashtableLookup u.state.idTable u.state.mem (objObjectId.get u.state.mem x) = some x

theorem ObEffect.ids_nonzero {types : Fin n → ObjectType} {u v : ObRun n T}
    {E E' : ℕ → List (ℕ × ℕ)} {V V' : ℕ → Option ObjectHeader} (heff : ObEffect types u v E V E' V')
    (h : ∀ y hd, V y = some hd → hd.objectId ≠ 0)
    (hnext : v.ledger.born ≠ u.ledger.born → u.state.nextObjectId ≠ 0) :
    ∀ y hd, V' y = some hd → hd.objectId ≠ 0 := by
  intro y hdy hy
  cases heff with
  | keep => exact h y hdy hy
  | count x hd hd' hx hid =>
      by_cases hyx : y = x
      · subst hyx
        rw [Function.update_self] at hy
        cases hy
        rw [hid]
        exact h y hd hx
      · rw [Function.update_of_ne hyx] at hy
        exact h y hdy hy
  | created i x _ _ _ hl =>
      by_cases hyx : y = x
      · subst hyx
        rw [Function.update_self] at hy
        cases hy
        refine hnext fun heq => ?_
        rw [hl] at heq
        have hborn := congrFun heq y
        simp at hborn
      · rw [Function.update_of_ne hyx] at hy
        exact h y hdy hy
  | destroyed i x hd =>
      by_cases hyx : y = x
      · subst hyx
        rw [Function.update_self] at hy
        cases hy
      · rw [Function.update_of_ne hyx] at hy
        exact h y hdy hy

/-- When every `object_create` that returns an object draws a valid id, live objects have
different ids and the table finds them, in every state of a run. -/
theorem ids_unique_run [DecidableEq T] {types : Fin n → ObjectType} {arch : Arch}
    {u₀ u : ObRun n T} {ops : List (ObOp n T)} (hboot : ObBoot types u₀)
    (hrun : Run (fun u op v => BoundedStep types arch u op v ∧ IdValid u op) u₀ ops u) :
    IdsUnique u := by
  have hnone : ∀ (_ : ℕ) (hd : ObjectHeader), (none : Option ObjectHeader) = some hd →
      hd.objectId ≠ 0 :=
    fun _ hd hy => by cases hy
  obtain ⟨slack, o, nodes, E, V, hinv, hids, hzero⟩ := hboot.run_effect
    (P := fun w E V => IdsOk w.state E V ∧ ∀ y hd, V y = some hd → hd.objectId ≠ 0)
    ⟨hboot.ids.1, hnone⟩ (by
      rintro u op v slack o nodes E V E' V' hinv hs ⟨hfresh, hnext⟩ hnb heff ⟨hids, hzero⟩
      refine ⟨hids.step hinv hs hfresh hnb heff, heff.ids_nonzero hzero fun hborn => ?_⟩
      rw [hs.ledger] at hborn
      obtain ⟨i, args, r, rfl, hr⟩ := Ledger.born_after hborn
      exact hnext hr) hrun
  have hread : ∀ x a, u.Live x a → ∃ hd, V x = some hd ∧ hd.objectId = a.id ∧
      objObjectId.get u.state.mem x = hd.objectId := by
    intro x a hlive
    obtain ⟨ha, hd, hx⟩ := hinv.live_iff.mp hlive
    obtain ⟨b, hb, hcounts⟩ := hinv.counts x hd hx
    cases ha.symm.trans hb
    exact ⟨hd, hx, hcounts.id, (hinv.read hx).2.2.2.2.1⟩
  refine ⟨fun x a hx => ?_, fun x y a b hx hy heq => ?_, fun x a hx => ?_⟩
  · obtain ⟨hd, hV, _, hget⟩ := hread x a hx
    rw [hget]
    exact hzero x hd hV
  · obtain ⟨hd, hV, _, hget⟩ := hread x a hx
    obtain ⟨hd', hV', _, hget'⟩ := hread y b hy
    exact hids.inj hV hV' (by rw [← hget, heq, hget'])
  · obtain ⟨hd, hV, hid, hget⟩ := hread x a hx
    rw [hget, hid]
    exact (hids.lookup hinv (ObHeap.addr hinv.heap hV).1).mpr ⟨a, hx, rfl⟩

theorem ObState.not_freed_of_empty {s : ObState n T} {i : Fin n} {x : ℕ}
    (h : (s.slabs i).freeObjects = 0) : ¬ s.Freed i x := by
  rintro ⟨free, hchain, hmem⟩
  rw [h] at hchain
  cases free with
  | nil => cases hmem
  | cons y free => exact hchain.2.1 hchain.1.symm

/-- Two objects that are live at the same time. -/
theorem ids_unique_run_two_objects :
    ∃ u, Run (fun u op v => BoundedStep pageType .arm64 u op v ∧ IdValid u op) pageObjects
        [.create 0 0 0x1010, .create 0 0 0x3010] u ∧ u.Live 0x1010 ⟨0, 1, 0, 0, 0⟩ ∧
      u.Live 0x3010 ⟨0, 2, 0, 0, 0⟩ ∧ IdsUnique u := by
  have heval : (objectCreate pageType pageObjects.state 0 0 >>= fun a =>
      objectCreate pageType a.2 0 0 >>= fun b =>
        some (a.1, b.1, a.2.nextObjectId, (b.2.slabs 0).freeObjects)) =
      some (0x1010, 0x3010, 2, 0) := by
    decide +kernel
  obtain ⟨⟨ra, sa⟩, ha, hrest⟩ := Option.bind_eq_some_iff.mp heval
  obtain ⟨⟨rb, sb⟩, hb, hresult⟩ := Option.bind_eq_some_iff.mp hrest
  simp only [Option.some.injEq, Prod.mk.injEq] at hresult
  obtain ⟨rfl, rfl, hnext, hfree⟩ := hresult
  let L : Ledger 1 := pageObjects.ledger.after 1 (.create 0 0 0x1010 : ObOp 1 Unit)
  let L' : Ledger 1 := L.after 2 (.create 0 0 0x3010 : ObOp 1 Unit)
  have hempty : ∀ x (a : Tally 1), pageObjects.ledger.tally x = some a → a.held ≤ 0 :=
    fun x a ha => by cases ha
  have hheld : ∀ x a, L.tally x = some a → a.held ≤ 1 := Ledger.held_after _ hempty
  have hheld' : ∀ x a, L'.tally x = some a → a.held ≤ 2 := Ledger.held_after _ hheld
  have h₁ : BoundedStep pageType .arm64 pageObjects (.create 0 0 0x1010) ⟨sa, L⟩ :=
    ⟨⟨trivial, ha, rfl⟩, ObRun.bounded_of_card (by decide) fun x a ha =>
      (hheld x a ha).trans_lt (by decide)⟩
  have h₂ : BoundedStep pageType .arm64 ⟨sa, L⟩ (.create 0 0 0x3010) ⟨sb, L'⟩ :=
    ⟨⟨trivial, hb, by simp only [L', hnext]⟩, ObRun.bounded_of_card (by decide) fun x a ha =>
      (hheld' x a ha).trans_lt (by decide)⟩
  have hvalid₁ : IdValid pageObjects (.create 0 0 0x1010 : ObOp 1 Unit) :=
    ⟨fun _ y a hlive => by simp [ObRun.Live, pageObjects] at hlive, fun _ => by decide⟩
  have hvalid₂ : IdValid ⟨sa, L⟩ (.create 0 0 0x3010 : ObOp 1 Unit) := by
    refine ⟨fun _ y a hlive => ?_, fun _ => by simp only [hnext]; decide⟩
    have htally : L.tally y = some a := hlive.1
    have hupdate : L.tally = Function.update (fun _ => none) 0x1010 (some ⟨0, 1, 0, 0, 0⟩) := rfl
    rw [hupdate] at htally
    by_cases hy : y = 0x1010
    · rw [hy, Function.update_self] at htally
      cases htally
      simp only [hnext]
      decide
    · rw [Function.update_of_ne hy] at htally
      cases htally
  have hrun : Run (fun u op v => BoundedStep pageType .arm64 u op v ∧ IdValid u op) pageObjects
      [.create 0 0 0x1010, .create 0 0 0x3010] ⟨sb, L'⟩ :=
    .cons ⟨h₁, hvalid₁⟩ (.cons ⟨h₂, hvalid₂⟩ (.nil _))
  refine ⟨_, hrun, ⟨?_, ObState.not_freed_of_empty hfree⟩, ⟨?_, ObState.not_freed_of_empty hfree⟩,
    ids_unique_run pageObjects_boot hrun⟩
  · simp [L', L, Ledger.after]
  · simp [L', Ledger.after]

section Picky

variable {s : ObState 1 Unit} {x : ℕ}

theorem slabAlloc_recycled (hx : x ≠ 0) (hfree : (s.slabs 0).freeObjects = x) :
    slabAlloc s.mem s.pmm (s.slabs 0) =
      some (x, s.mem, s.pmm, { s.slabs 0 with freeObjects := link s.mem x }) := by
  unfold slabAlloc slabPop
  rw [hfree, if_neg hx, if_neg hx]

/-- A creation that fails draws an id all the same. -/
theorem objectCreate_picky (hx : x ≠ 0) (hfree : (s.slabs 0).freeObjects = x) :
    ∃ t, objectCreate pickyType s 0 1 = some (0, t) ∧ t.idTable = s.idTable ∧
      (t.slabs 0).freeObjects = x ∧ t.nextObjectId = (s.nextObjectId + 1) % 2 ^ 32 := by
  generalize hc : { s.slabs 0 with freeObjects := link s.mem x } = c
  generalize hf : slabFree (initHeader s.mem x (0 : Fin 1) s.nextObjectId) c x = f
  have hfx : f.2.freeObjects = x := by
    rw [← hf]
    simp [slabFree, hx]
  refine ⟨{ s with
    mem := f.1, slabs := Function.update (Function.update s.slabs 0 c) 0 f.2
    nextObjectId := (s.nextObjectId + 1) % 2 ^ 32 }, ?_, rfl, by simpa using hfx, rfl⟩
  unfold objectCreate
  rw [slabAlloc_recycled hx hfree, hc]
  simp only [if_neg hx, pickyType]
  refine (if_pos (by decide)).trans ?_
  rw [hf]

theorem objectCreate_recycled (hx : x ≠ 0) (hfree : (s.slabs 0).freeObjects = x)
    (hnode : s.idTable.nodeCache.freeObjects ≠ 0) :
    ∃ t, objectCreate pickyType s 0 0 = some (x, t) := by
  have hinsert : ∀ m key, ∃ b, hashtableInsert s.idTable m s.pmm key x = some b := by
    intro m key
    unfold hashtableInsert slabAlloc slabPop
    rw [if_neg hnode, if_neg hnode]
    simp only [if_neg hnode]
    exact ⟨_, rfl⟩
  obtain ⟨⟨ht, m, p⟩, hb⟩ := hinsert (initHeader s.mem x (0 : Fin 1) s.nextObjectId)
    (objObjectId.get (initHeader s.mem x (0 : Fin 1) s.nextObjectId) x)
  refine ⟨{ s with
    mem := m, pmm := p
    slabs := Function.update s.slabs 0 { s.slabs 0 with freeObjects := link s.mem x }
    idTable := ht, nextObjectId := (s.nextObjectId + 1) % 2 ^ 32 }, ?_⟩
  unfold objectCreate
  rw [slabAlloc_recycled hx hfree]
  simp only [if_neg hx, pickyType]
  refine (if_neg (by decide)).trans ?_
  rw [hb]

end Picky

/-- After 2^32 - 2 creations that fail the next id is 0. -/
theorem ids_wrapped_zero :
    ObBoot pickyType pickyObjects ∧
      ∃ u, Run (BoundedStep pickyType .arm64) pickyObjects
          ([.create 0 0 0x1010, .deref 0x1010] ++ List.replicate (2 ^ 32 - 2) (.create 0 1 0) ++
            [.create 0 0 0x1010]) u ∧ ¬ IdsUnique u := by
  have hboot := pickyObjects_boot
  refine ⟨hboot, ?_⟩
  have heval : (objectCreate pickyType pickyObjects.state 0 0 >>= fun a =>
      objectDeref pickyType a.2 0x1010 >>= fun b => some (a.1, (b.slabs 0).freeObjects,
        b.nextObjectId, b.idTable.nodeCache.freeObjects)) = some (0x1010, 0x1010, 2, 0x2fe8) := by
    decide +kernel
  obtain ⟨⟨ra, sa⟩, ha, hrest⟩ := Option.bind_eq_some_iff.mp heval
  obtain ⟨sb, hb, hresult⟩ := Option.bind_eq_some_iff.mp hrest
  simp only [Option.some.injEq, Prod.mk.injEq] at hresult
  obtain ⟨rfl, hfree, hnext, hnode⟩ := hresult
  generalize hborn : Function.update (fun _ : ℕ => 0) 0x1010 1 = born
  let L (a : Tally 1) : Ledger 1 := ⟨Function.update (fun _ => none) 0x1010 (some a), born⟩
  have h₁ : BoundedStep pickyType .arm64 pickyObjects (.create 0 0 0x1010)
      ⟨sa, L ⟨0, 1, 0, 0, 0⟩⟩ := by
    refine ⟨⟨trivial, ha, ?_⟩, ObRun.bounded_of_single (by decide) (by decide)⟩
    simp only [L, ← hborn]
    rfl
  have h₂ : BoundedStep pickyType .arm64 ⟨sa, L ⟨0, 1, 0, 0, 0⟩⟩ (.deref 0x1010)
      ⟨sb, L ⟨0, 1, 0, 0, 1⟩⟩ :=
    ⟨⟨⟨⟨0, 1, 0, 0, 0⟩, by simp [L], by decide⟩, hb,
      by simp [L, Ledger.after, Ledger.count_update]⟩,
      ObRun.bounded_of_single (by decide) (by decide)⟩
  -- each of the failing calls takes an identifier
  let Counted (k : ℕ) (u : ObRun 1 Unit) : Prop :=
    u.ledger = L ⟨0, 1, 0, 0, 1⟩ ∧ u.state.idTable.nodeCache.freeObjects = 0x2fe8 ∧
      (u.state.slabs 0).freeObjects = 0x1010 ∧ u.state.nextObjectId = (2 + k) % 2 ^ 32
  have hcreate : ∀ k < 2 ^ 32 - 2, ∀ u, Counted k u →
      ∃ v, BoundedStep pickyType .arm64 u (.create 0 1 0) v ∧ Counted (k + 1) v := by
    rintro k _ ⟨s, _⟩ ⟨rfl, hnode, hfree, hnext⟩
    obtain ⟨t, ht, hid, hfree', hnext'⟩ := objectCreate_picky (by decide) hfree
    refine ⟨⟨t, L ⟨0, 1, 0, 0, 1⟩⟩, ⟨⟨trivial, ht, rfl⟩,
      ObRun.bounded_of_single (by decide) (by decide)⟩, rfl, ?_, hfree', ?_⟩
    · simp only [hid]
      exact hnode
    · simp only at hnext
      simp only [hnext', hnext]
      omega
  have hstart : Counted 0 ⟨sb, L ⟨0, 1, 0, 0, 1⟩⟩ := ⟨rfl, hnode, hfree, hnext⟩
  obtain ⟨⟨s, _⟩, hrun, rfl, hnode', hfree', hnext'⟩ := Run.replicate_of hcreate hstart
  obtain ⟨t, ht⟩ := objectCreate_recycled (by decide) hfree' (by rw [hnode']; decide)
  generalize hm : 2 ^ 32 - 2 = m at hrun hnext' ⊢
  have hzero : s.nextObjectId = 0 := by
    simp only at hnext'
    omega
  have hl : (L ⟨0, 1, 0, 0, 1⟩).after 0 (.create 0 0 0x1010 : ObOp 1 Unit) =
      ⟨Function.update (fun _ => none) 0x1010 (some ⟨0, 0, 0, 0, 0⟩),
        Function.update born 0x1010 (born 0x1010 + 1)⟩ := by
    simp [L, Ledger.after]
  have h₃ : BoundedStep pickyType .arm64 ⟨s, L ⟨0, 1, 0, 0, 1⟩⟩ (.create 0 0 0x1010)
      ⟨t, ⟨Function.update (fun _ => none) 0x1010 (some ⟨0, 0, 0, 0, 0⟩),
        Function.update born 0x1010 (born 0x1010 + 1)⟩⟩ :=
    ⟨⟨trivial, ht, by simp only [hzero, hl]⟩, ObRun.bounded_of_single (by decide) (by decide)⟩
  have hrun' := Run.append (.append (.cons h₁ (.cons h₂ (.nil _))) hrun) (.cons h₃ (.nil _))
  refine ⟨_, hrun', fun hids => ?_⟩
  obtain ⟨slack, o, nodes, E, V, hinv⟩ := hboot.run hrun'
  have htally : Function.update (fun _ => none) 0x1010 (some ⟨0, 0, 0, 0, 0⟩) 0x1010 =
      some (⟨0, 0, 0, 0, 0⟩ : Tally 1) := Function.update_self _ _ _
  cases hV : V 0x1010 with
  | none => exact absurd (hinv.freed _ _ htally hV).2 (by decide)
  | some hd =>
      obtain ⟨a, hlive, hcounts⟩ := hinv.live_of_some hV
      have ha : a = ⟨0, 0, 0, 0, 0⟩ := Option.some.inj (hlive.1.symm.trans htally)
      refine hids.nonzero _ _ hlive ?_
      rw [(hinv.read hV).2.2.2.2.1, hcounts.id, ha]

/-! ## Lifetimes -/

/-- An `object_create` that returns an object gets a slot whose `destroyed` byte is clear, and
draws an id that no live object has. -/
def SlotClear (u : ObRun n T) (op : ObOp n T) : Prop :=
  IdFresh u op ∧ match op with
    | .create i _ r => r ≠ 0 → ∀ x m p c,
        slabAlloc u.state.mem u.state.pmm (u.state.slabs i) = some (x, m, p, c) →
          objDestroyed.get u.state.mem x = 0
    | _ => True

/-- An object is destroyed as soon as nobody holds a reference and no table names it, and not
before: its slot is back in the slab, its id is out of the table, and its `destroy` operation
has run once for each time an object was created in the slot. The calls that take a holder away
return. -/
structure LifetimeOk [DecidableEq T] (types : Fin n → ObjectType) (u : ObRun n T) : Prop where
  freed : ∀ x a, u.ledger.tally x = some a →
    (u.state.Freed a.type x ↔ a.held = 0 ∧ u.state.naming x = ∅)
  listed : ∀ x a, u.ledger.tally x = some a →
    (hashtableLookup u.state.idTable u.state.mem a.id = some x ↔ ¬ u.state.Freed a.type x)
  live_calls : ∀ x a, u.ledger.tally x = some a → (types a.type).destroy.isSome →
    ¬ u.state.Freed a.type x → u.state.destroyCalls.count x + 1 = u.ledger.born x
  freed_calls : ∀ x a, u.ledger.tally x = some a → (types a.type).destroy.isSome →
    u.state.Freed a.type x → u.state.destroyCalls.count x = u.ledger.born x
  deref : ∀ x, u.Owned x → ∃ s, objectDeref types u.state x = some s
  close : ∀ c k, ∃ r s, objectClose types u.state c k = some (r, s)

/-- Live objects are not marked and somebody holds them; `destroy` has run for all the
others. -/
structure Busy (types : Fin n → ObjectType) (u : ObRun n T) (V : ℕ → Option ObjectHeader) :
    Prop where
  clear : ∀ x hd, V x = some hd → hd.destroyed = 0
  busy : ∀ x hd, V x = some hd → 0 < hd.refcount ∨ 0 < hd.handleCount
  calls : ∀ x a, u.ledger.tally x = some a → (types a.type).destroy.isSome →
    u.state.destroyCalls.count x + (if (V x).isSome then 1 else 0) = u.ledger.born x
  unborn : ∀ x, u.ledger.tally x = none → u.ledger.born x = 0 ∧ u.state.destroyCalls.count x = 0

theorem objectCreate_slot {types : Fin n → ObjectType} {s t : ObState n T} {i : Fin n}
    {args r : ℕ} (hs : objectCreate types s i args = some (r, t)) (hr : r ≠ 0) :
    ∃ m p c, slabAlloc s.mem s.pmm (s.slabs i) = some (r, m, p, c) := by
  unfold objectCreate at hs
  cases ha : slabAlloc s.mem s.pmm (s.slabs i) with
  | none => simp [ha] at hs
  | some a =>
      obtain ⟨x, m, p, c⟩ := a
      rw [ha] at hs
      dsimp only at hs
      split at hs
      · exact absurd (Prod.mk.inj (Option.some.inj hs)).1.symm hr
      · cases hf : (types i).create with
        | none =>
            simp only [hf] at hs
            rw [if_neg (by simp)] at hs
            split at hs
            · cases hs
            · obtain ⟨rfl, _⟩ := Prod.mk.inj (Option.some.inj hs)
              exact ⟨m, p, c, rfl⟩
        | some f =>
            simp only [hf] at hs
            split at hs
            · exact absurd (Prod.mk.inj (Option.some.inj hs)).1.symm hr
            · split at hs
              · cases hs
              · obtain ⟨rfl, _⟩ := Prod.mk.inj (Option.some.inj hs)
                exact ⟨m, p, c, rfl⟩

/-- The call that adds an object to the ledger. -/
theorem ObStep.created [DecidableEq T] {types : Fin n → ObjectType} {arch : Arch} {u v : ObRun n T}
    {op : ObOp n T} {x : ℕ} (hs : ObStep types arch u op v)
    (hborn : v.ledger.born = Function.update u.ledger.born x (u.ledger.born x + 1)) :
    ∃ i args, op = .create i args x ∧ x ≠ 0 := by
  have hat := congrFun hborn x
  rw [Function.update_self, hs.ledger] at hat
  have hnew : (u.ledger.after u.state.nextObjectId op).born ≠ u.ledger.born := by
    intro heq
    rw [heq] at hat
    omega
  obtain ⟨i, args, r, rfl, hr⟩ := Ledger.born_after hnew
  have hrx : r = x := by
    by_contra hne
    simp only [Ledger.after, if_neg hr, Function.update_of_ne (Ne.symm hne)] at hat
    omega
  exact ⟨i, args, by rw [hrx], hrx ▸ hr⟩

/-- Apart from a creation, a call keeps what was created, with its type. -/
theorem Ledger.tally_after {L : Ledger n} {id x : ℕ} {op : ObOp n T}
    (hborn : (L.after id op).born x = L.born x) :
    ((L.after id op).tally x).map Tally.type = (L.tally x).map Tally.type := by
  have hcount : ∀ y (f : Tally n → Tally n), (∀ a, (f a).type = a.type) →
      ((L.count y f).tally x).map Tally.type = (L.tally x).map Tally.type := by
    intro y f hf
    by_cases hxy : x = y
    · subst hxy
      cases ha : L.tally x with
      | none => simp [Ledger.count, ha]
      | some a => simp [Ledger.count, ha, hf a]
    · rw [Ledger.count_of_ne hxy]
  cases op with
  | create i args r =>
      simp only [after] at hborn ⊢
      split
      · rfl
      · rename_i hr
        rw [if_neg hr] at hborn
        have hxr : x ≠ r := by
          rintro rfl
          simp at hborn
        simp only [Function.update_of_ne hxr]
  | ref y => exact hcount y _ fun _ => rfl
  | deref y => exact hcount y _ fun _ => rfl
  | lookup c k rights r =>
      simp only [after]
      split
      · rfl
      · exact hcount r _ fun _ => rfl
  | _ => rfl

namespace Busy

variable {types : Fin n → ObjectType} {arch : Arch} {slack : ℕ} {u v : ObRun n T} {op : ObOp n T}
  {o : SlabOwn (SlabId n)} {nodes : ℕ → List ℕ} {E E' : ℕ → List (ℕ × ℕ)}
  {V V' : ℕ → Option ObjectHeader}

/-- A call that adds no object keeps the account of the `destroy` operations, when it runs
the operation of those that it destroys. -/
theorem calls_step (h : Busy types u V) (V' : ℕ → Option ObjectHeader)
    (hl : v.ledger = u.ledger.after u.state.nextObjectId op)
    (hborn : v.ledger.born = u.ledger.born)
    (hcalls : ∀ x a, u.ledger.tally x = some a → (types a.type).destroy.isSome →
      v.state.destroyCalls.count x + (if (V' x).isSome then 1 else 0) =
        u.state.destroyCalls.count x + if (V x).isSome then 1 else 0)
    (hunborn : ∀ x, u.ledger.tally x = none →
      v.state.destroyCalls.count x = u.state.destroyCalls.count x) :
    (∀ x a, v.ledger.tally x = some a → (types a.type).destroy.isSome →
      v.state.destroyCalls.count x + (if (V' x).isSome then 1 else 0) = v.ledger.born x) ∧
    ∀ x, v.ledger.tally x = none → v.ledger.born x = 0 ∧ v.state.destroyCalls.count x = 0 := by
  have htype : ∀ x, (v.ledger.tally x).map Tally.type = (u.ledger.tally x).map Tally.type := by
    intro x
    rw [hl] at hborn ⊢
    exact Ledger.tally_after (congrFun hborn x)
  refine ⟨fun x a ha hd => ?_, fun x hx => ?_⟩
  · have hmap := htype x
    rw [ha] at hmap
    obtain ⟨b, hb, hba⟩ := Option.map_eq_some_iff.mp hmap.symm
    rw [← hba] at hd
    rw [hborn, hcalls x b hb hd, h.calls x b hb hd]
  · have hmap := htype x
    rw [hx] at hmap
    have hnone : u.ledger.tally x = none := Option.map_eq_none_iff.mp hmap.symm
    rw [hborn, hunborn x hnone]
    exact h.unborn x hnone

theorem next [DecidableEq T] (h : Busy types u V) (hinv : ObInv types slack u o nodes E V)
    (hs : ObStep types arch u op v) (hclear : SlotClear u op)
    (heff : ObEffect types u v E V E' V') : Busy types v V' := by
  cases heff with
  | keep _ hcalls hl =>
      refine ⟨h.clear, h.busy, ?_, ?_⟩
      · rw [hl, hcalls]
        exact h.calls
      · rw [hl, hcalls]
        exact h.unborn
  | count x hd hd' hx _ hdest hbusy _ hcalls hborn =>
      have hzero : hd'.destroyed = 0 := hdest.trans (h.clear x hd hx)
      have hsome : ∀ y, (Function.update V x (some hd') y).isSome = (V y).isSome := by
        intro y
        by_cases hyx : y = x
        · rw [hyx, Function.update_self, hx]
          rfl
        · rw [Function.update_of_ne hyx]
      obtain ⟨hcalls', hunborn⟩ := h.calls_step (Function.update V x (some hd')) hs.ledger
        hborn
        (fun y a _ _ => by rw [hcalls, hsome]) fun y _ => by rw [hcalls]
      refine ⟨fun y hdy hy => ?_, fun y hdy hy => ?_, hcalls', hunborn⟩ <;> by_cases hyx : y = x
      · subst hyx
        rw [Function.update_self] at hy
        cases hy
        exact hzero
      · rw [Function.update_of_ne hyx] at hy
        exact h.clear y hdy hy
      · subst hyx
        rw [Function.update_self] at hy
        cases hy
        exact hbusy hzero
      · rw [Function.update_of_ne hyx] at hy
        exact h.busy y hdy hy
  | created i x hx _ hcalls hl hsame =>
      have hslot : objDestroyed.get u.state.mem x = 0 := by
        obtain ⟨j, args, rfl, hx0⟩ := hs.created (x := x) (by rw [hl])
        obtain ⟨m, p, c, ha⟩ := objectCreate_slot hs.call hx0
        exact hclear.2 hx0 x m p c ha
      have htally : ∀ y, y ≠ x → v.ledger.tally y = u.ledger.tally y ∧
          v.ledger.born y = u.ledger.born y := by
        intro y hyx
        rw [hl]
        exact ⟨Function.update_of_ne hyx _ _, Function.update_of_ne hyx _ _⟩
      refine ⟨fun y hdy hy => ?_, fun y hdy hy => ?_, fun y a ha hd => ?_, fun y hy => ?_⟩ <;>
        by_cases hyx : y = x
      · subst hyx
        rw [Function.update_self] at hy
        cases hy
        exact hslot
      · rw [Function.update_of_ne hyx] at hy
        exact h.clear y hdy hy
      · subst hyx
        rw [Function.update_self] at hy
        cases hy
        exact Or.inl Nat.one_pos
      · rw [Function.update_of_ne hyx] at hy
        exact h.busy y hdy hy
      · subst hyx
        have hborn : u.state.destroyCalls.count y = u.ledger.born y := by
          cases hold : u.ledger.tally y with
          | none =>
              obtain ⟨hb, hc⟩ := h.unborn y hold
              rw [hb, hc]
          | some b =>
              have hab : a.type = b.type := by
                rw [hl] at ha
                simp only [Function.update_self, Option.some.injEq] at ha
                rw [← ha, hsame b hold]
              have hbefore := h.calls y b hold (hab ▸ hd)
              rw [hx] at hbefore
              exact hbefore
        rw [hl, hcalls, Function.update_self]
        simp [hborn]
      · rw [(htally y hyx).1] at ha
        rw [(htally y hyx).2, hcalls, Function.update_of_ne hyx]
        exact h.calls y a ha hd
      · subst hyx
        rw [hl] at hy
        simp at hy
      · rw [(htally y hyx).1] at hy
        rw [(htally y hyx).2, hcalls]
        exact h.unborn y hy
  | destroyed i x hd hx htype _ _ hcalls hborn =>
      obtain ⟨a, ha, hcounts⟩ := hinv.counts x hd hx
      have hai : a.type = i := Fin.ext (hcounts.type.symm.trans htype)
      have hother : ∀ y, y ≠ x → v.state.destroyCalls.count y = u.state.destroyCalls.count y := by
        intro y hyx
        rw [hcalls, List.count_append]
        refine Nat.add_eq_left.mpr (List.count_eq_zero_of_not_mem ?_)
        split <;> simp [hyx]
      obtain ⟨hcalls', hunborn⟩ := h.calls_step (Function.update V x none) hs.ledger hborn
        (fun y b hb hd' => by
          by_cases hyx : y = x
          · subst hyx
            cases ha.symm.trans hb
            rw [hai] at hd'
            rw [hcalls, if_pos hd', Function.update_self, hx]
            simp
          · rw [hother y hyx, Function.update_of_ne hyx])
        fun y hy => hother y fun hyx => by
          rw [hyx, ha] at hy
          cases hy
      refine ⟨fun y hdy hy => ?_, fun y hdy hy => ?_, hcalls', hunborn⟩ <;> by_cases hyx : y = x
      · subst hyx
        rw [Function.update_self] at hy
        cases hy
      · rw [Function.update_of_ne hyx] at hy
        exact h.clear y hdy hy
      · subst hyx
        rw [Function.update_self] at hy
        cases hy
      · rw [Function.update_of_ne hyx] at hy
        exact h.busy y hdy hy

end Busy

/-- When every `object_create` gets a clear slot and a fresh id, every object is destroyed
exactly once, as soon as both counts are zero. -/
theorem object_lifetime_run [DecidableEq T] {types : Fin n → ObjectType} {arch : Arch}
    {u₀ u : ObRun n T} {ops : List (ObOp n T)} (hboot : ObBoot types u₀)
    (hrun : Run (fun u op v => BoundedStep types arch u op v ∧ SlotClear u op) u₀ ops u) :
    LifetimeOk types u := by
  have hbusy : Busy types u₀ fun _ => none := by
    refine ⟨?_, ?_, fun x a ha => ?_, fun x _ => ?_⟩
    · intro x hd hx
      cases hx
    · intro x hd hx
      cases hx
    · rw [hboot.ledger] at ha
      cases ha
    · rw [hboot.ledger, hboot.destroyCalls]
      exact ⟨rfl, rfl⟩
  obtain ⟨slack, o, nodes, E, V, hinv, hids, hbusy⟩ := hboot.run_effect
    (P := fun w E V => IdsOk w.state E V ∧ Busy types w V) ⟨hboot.ids.1, hbusy⟩ (by
      rintro u op v slack o nodes E V E' V' hinv hs hclear hnb heff ⟨hids, hbusy⟩
      exact ⟨hids.step hinv hs hclear.1 hnb heff, hbusy.next hinv hs hclear heff⟩) hrun
  refine ⟨fun x a ha => ?_, fun x a ha => ?_, fun x a ha hd hfreed => ?_,
    fun x a ha hd hfreed => ?_, fun x howned => ?_, fun c k => ?_⟩
  · rw [hinv.freed_iff ha]
    constructor
    · intro hV
      obtain ⟨hfree, hheld⟩ := hinv.freed x a ha hV
      have hx0 : x ≠ 0 := (hinv.heap.family.slab (.type a.type)).freeChain.ne_zero hfree
      exact ⟨hheld, hinv.naming_eq_empty hx0 hV⟩
    · rintro ⟨hheld, hnaming⟩
      cases hV : V x with
      | none => rfl
      | some hd =>
          obtain ⟨b, hb, hcounts⟩ := hinv.counts x hd hV
          cases ha.symm.trans hb
          have hpos := hbusy.busy x hd hV
          rw [hcounts.refcount, hcounts.handleCount, hheld, hnaming, Set.ncard_empty] at hpos
          omega
  · have hx0 : x ≠ 0 := by
      cases hV : V x with
      | none =>
          exact (hinv.heap.family.slab (.type a.type)).freeChain.ne_zero (hinv.freed x a ha hV).1
      | some hd => exact (ObHeap.addr hinv.heap hV).1
    rw [hids.lookup hinv hx0]
    constructor
    · rintro ⟨b, hlive, _⟩
      cases ha.symm.trans hlive.1
      exact hlive.2
    · exact fun hfreed => ⟨a, ⟨ha, hfreed⟩, rfl⟩
  · have hcalls := hbusy.calls x a ha hd
    rw [hinv.freed_iff ha] at hfreed
    rw [if_pos (Option.isSome_iff_ne_none.mpr hfreed)] at hcalls
    exact hcalls
  · have hcalls := hbusy.calls x a ha hd
    rw [hinv.freed_iff ha] at hfreed
    rw [hfreed] at hcalls
    exact hcalls
  · obtain ⟨s, hs, _⟩ := hinv.deref howned
    exact ⟨s, hs⟩
  · exact hinv.close_returns c k

/-- Two objects one after the other in the same slot. -/
theorem pageObjects_twice :
    ∃ u v w z, BoundedStep pageType .arm64 pageObjects (.create 0 0 0x1010) u ∧
      BoundedStep pageType .arm64 u (.deref 0x1010) v ∧
      BoundedStep pageType .arm64 v (.create 0 0 0x1010) w ∧
      BoundedStep pageType .arm64 w (.deref 0x1010) z ∧
      z.ledger.tally 0x1010 = some ⟨0, 2, 0, 0, 1⟩ ∧ (z.state.slabs 0).freeObjects = 0 ∧
      objHandleCount.get z.state.mem 0x1010 = 0 := by
  have heval : (objectCreate pageType pageObjects.state 0 0 >>= fun a =>
      objectDeref pageType a.2 0x1010 >>= fun b => objectCreate pageType b 0 0 >>= fun c =>
        objectDeref pageType c.2 0x1010 >>= fun d => some (a.1, c.1, b.nextObjectId,
          (d.slabs 0).freeObjects, objHandleCount.get d.mem 0x1010)) =
      some (0x1010, 0x1010, 2, 0, 0) := by
    decide +kernel
  obtain ⟨⟨ra, sa⟩, ha, hrest⟩ := Option.bind_eq_some_iff.mp heval
  obtain ⟨sb, hb, hrest⟩ := Option.bind_eq_some_iff.mp hrest
  obtain ⟨⟨rc, sc⟩, hc, hrest⟩ := Option.bind_eq_some_iff.mp hrest
  obtain ⟨sd, hd, hresult⟩ := Option.bind_eq_some_iff.mp hrest
  simp only [Option.some.injEq, Prod.mk.injEq] at hresult
  obtain ⟨rfl, rfl, hnext, hfree, hhandle⟩ := hresult
  let L (a : Tally 1) (born : ℕ → ℕ) : Ledger 1 :=
    ⟨Function.update (fun _ => none) 0x1010 (some a), born⟩
  generalize hborn : Function.update (fun _ : ℕ => 0) 0x1010 1 = born
  generalize hborn' : Function.update born 0x1010 (born 0x1010 + 1) = born'
  have h₁ : BoundedStep pageType .arm64 pageObjects (.create 0 0 0x1010)
      ⟨sa, L ⟨0, 1, 0, 0, 0⟩ born⟩ := by
    refine ⟨⟨trivial, ha, ?_⟩, ObRun.bounded_of_single (by decide) (by decide)⟩
    simp only [L, ← hborn]
    rfl
  have h₂ : BoundedStep pageType .arm64 ⟨sa, L ⟨0, 1, 0, 0, 0⟩ born⟩ (.deref 0x1010)
      ⟨sb, L ⟨0, 1, 0, 0, 1⟩ born⟩ :=
    ⟨⟨⟨⟨0, 1, 0, 0, 0⟩, by simp [L], by decide⟩, hb,
      by simp [L, Ledger.after, Ledger.count_update]⟩,
      ObRun.bounded_of_single (by decide) (by decide)⟩
  have h₃ : BoundedStep pageType .arm64 ⟨sb, L ⟨0, 1, 0, 0, 1⟩ born⟩ (.create 0 0 0x1010)
      ⟨sc, L ⟨0, 2, 0, 0, 0⟩ born'⟩ :=
    ⟨⟨trivial, hc, by simp [L, Ledger.after, hnext, ← hborn']⟩,
      ObRun.bounded_of_single (by decide) (by decide)⟩
  have h₄ : BoundedStep pageType .arm64 ⟨sc, L ⟨0, 2, 0, 0, 0⟩ born'⟩ (.deref 0x1010)
      ⟨sd, L ⟨0, 2, 0, 0, 1⟩ born'⟩ :=
    ⟨⟨⟨⟨0, 2, 0, 0, 0⟩, by simp [L], by decide⟩, hd,
      by simp [L, Ledger.after, Ledger.count_update]⟩,
      ObRun.bounded_of_single (by decide) (by decide)⟩
  exact ⟨_, _, _, _, h₁, h₂, h₃, h₄, by simp [L], hfree, hhandle⟩

theorem object_lifetime_run_one_object :
    ∃ u, Run (fun u op v => BoundedStep pageType .arm64 u op v ∧ SlotClear u op) pageObjects
        [.create 0 0 0x1010, .deref 0x1010] u ∧ LifetimeOk pageType u := by
  obtain ⟨u, v, _, _, h₁, h₂, _⟩ := pageObjects_twice
  have hclear : SlotClear pageObjects (.create 0 0 0x1010 : ObOp 1 Unit) := by
    refine ⟨fun _ y a hlive => by simp [ObRun.Live, pageObjects] at hlive, fun _ x m p c _ => ?_⟩
    simp [pageObjects, objDestroyed, Field.get, readLE]
  have hrun : Run (fun u op v => BoundedStep pageType .arm64 u op v ∧ SlotClear u op) pageObjects
      [.create 0 0 0x1010, .deref 0x1010] v :=
    .cons ⟨h₁, hclear⟩ (.cons ⟨h₂, trivial, trivial⟩ (.nil v))
  exact ⟨v, hrun, object_lifetime_run pageObjects_boot hrun⟩

/-- The second object in a slot is not destroyed: its `destroyed` byte is set from the start. -/
theorem object_lifetime_recycled :
    ∃ u, Run (BoundedStep pageType .arm64) pageObjects
        [.create 0 0 0x1010, .deref 0x1010, .create 0 0 0x1010, .deref 0x1010] u ∧
      ¬ LifetimeOk pageType u := by
  obtain ⟨_, _, _, u, h₁, h₂, h₃, h₄, htally, hfree, hhandle⟩ := pageObjects_twice
  have hrun := Run.cons h₁ (.cons h₂ (.cons h₃ (.cons h₄ (.nil u))))
  refine ⟨u, hrun, fun hok => ?_⟩
  have hnot : ¬ u.state.Freed 0 0x1010 := ObState.not_freed_of_empty hfree
  obtain ⟨slack, o, nodes, E, V, hinv⟩ := pageObjects_boot.run hrun
  obtain ⟨hfin, hcount⟩ := hinv.obCounts.handles _ _ ⟨htally, hnot⟩
  rw [hhandle] at hcount
  refine hnot ((hok.freed _ _ htally).mpr ⟨by decide, ?_⟩)
  exact (Set.ncard_eq_zero hfin).mp hcount.symm

end Vectra

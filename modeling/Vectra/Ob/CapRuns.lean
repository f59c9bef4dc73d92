import Vectra.Ob.Counts

/-!
# Capability tables as partial maps

Seen through `binding`, a table is a map from handles to objects with rights. In every
reachable state the calls of `cap.c` act on these maps, and on nothing else of them.
-/

namespace Vectra

open Lib SlabMem

variable {n : ℕ} {T : Type}

/-- The object and the rights that a handle is bound to. -/
def CapTable.binding (table : CapTable) (k : ℕ) : Option (ℕ × ℕ) :=
  if k < capTableMax ∧ (table.entries k).object ≠ 0 then
    some ((table.entries k).object, (table.entries k).rights)
  else none

/-- What the calls do from a state, on the maps of the tables. -/
structure CapSpec [DecidableEq T] (types : Fin n → ObjectType) (arch : Arch) (u : ObRun n T) :
    Prop where
  /-- A handle is bound to a live object, with rights that its type allows. -/
  allowed : ∀ c k x rights, (u.state.tables c).binding k = some (x, rights) →
    ∃ a, u.Live x a ∧ rights &&& (types a.type).defaultRights = rights
  grant : ∀ c x rights a, u.ledger.tally x = some a → 0 < a.held →
    ∃ r t, objectGrant types arch u.state c x rights = some (r, t) ∧
      (r = capInvalid ↔ rights &&& (types a.type).defaultRights ≠ rights ∨
        ∀ k < capTableMax, (u.state.tables c).binding k ≠ none) ∧
      (r = capInvalid → t = u.state) ∧
      (r ≠ capInvalid → r < capTableMax ∧ (u.state.tables c).binding r = none ∧
        ∀ d j, (t.tables d).binding j =
          if d = c ∧ j = r then some (x, rights) else (u.state.tables d).binding j)
  lookup : ∀ c k rights, ∃ x t, capLookup types u.state c k rights = some (x, t) ∧
    t.tables = u.state.tables ∧ ∀ y, y ≠ 0 → (x = y ↔
      ∃ granted, (u.state.tables c).binding k = some (y, granted) ∧ granted &&& rights = rights)
  close : ∀ c k, ∃ r t, objectClose types u.state c k = some (r, t) ∧
    (r = 0 ↔ (u.state.tables c).binding k ≠ none) ∧ (r ≠ 0 → t = u.state) ∧
    (r = 0 → ∀ d j, (t.tables d).binding j =
      if d = c ∧ j = k then none else (u.state.tables d).binding j)

namespace CapTable

variable {table : CapTable} {k x rights : ℕ}

theorem binding_eq_some : table.binding k = some (x, rights) ↔
    k < capTableMax ∧ x ≠ 0 ∧ (table.entries k).object = x ∧ (table.entries k).rights = rights := by
  unfold binding
  split
  · rename_i hbound
    rw [Option.some.injEq, Prod.mk.injEq]
    constructor
    · rintro ⟨rfl, rfl⟩
      exact ⟨hbound.1, hbound.2, rfl, rfl⟩
    · exact fun hand => hand.2.2
  · rename_i hbound
    refine iff_of_false (by simp) ?_
    rintro ⟨hk, hx, hobj, _⟩
    exact hbound ⟨hk, hobj ▸ hx⟩

theorem binding_eq_none : table.binding k = none ↔
    ¬ (k < capTableMax ∧ (table.entries k).object ≠ 0) := by
  unfold binding
  split <;> simp_all

end CapTable

section Tables

variable {types : Fin n → ObjectType} {s t : ObState n T} {c : T} {k : ℕ} {tb : CapTable}
  {e : CapEntry}

/-- The maps after one entry is written. -/
theorem binding_set [DecidableEq T] (ht : t.tables = Function.update s.tables c tb)
    (hk : k < capTableMax)
    (htb : tb.entries = Function.update (s.tables c).entries k e) (d : T) (j : ℕ) :
    (t.tables d).binding j =
      if d = c ∧ j = k then (if e.object = 0 then none else some (e.object, e.rights))
      else (s.tables d).binding j := by
  unfold CapTable.binding
  rw [ht, entries_set htb]
  by_cases hdj : d = c ∧ j = k
  · rw [if_pos hdj, if_pos hdj, hdj.2]
    by_cases hobj : e.object = 0
    · rw [if_pos hobj, if_neg fun hand => hand.2 hobj]
    · rw [if_neg hobj, if_pos ⟨hk, hobj⟩]
  · rw [if_neg hdj, if_neg hdj]

theorem objectDestroy_frame {x : ℕ} (hs : objectDestroy types s x = some t) :
    t.tables = s.tables ∧ t.nextObjectId = s.nextObjectId := by
  unfold objectDestroy at hs
  split at hs
  · dsimp only at hs
    split at hs
    · cases hs
    · cases hs
      exact ⟨rfl, rfl⟩
  · cases hs

theorem objectMaybeDestroy_frame {x : ℕ} (hs : objectMaybeDestroy types s x = some t) :
    t.tables = s.tables ∧ t.nextObjectId = s.nextObjectId := by
  unfold objectMaybeDestroy at hs
  split at hs
  · have hframe := objectDestroy_frame hs
    exact hframe
  · cases hs
    exact ⟨rfl, rfl⟩

theorem objectDeref_frame {x : ℕ} (hs : objectDeref types s x = some t) :
    t.tables = s.tables ∧ t.nextObjectId = s.nextObjectId := by
  unfold objectDeref at hs
  dsimp only at hs
  split at hs
  · have hframe := objectMaybeDestroy_frame hs
    exact hframe
  · cases hs
    exact ⟨rfl, rfl⟩

theorem closeSlot_next [DecidableEq T] (hs : closeSlot types s c k = some t) :
    t.nextObjectId = s.nextObjectId := by
  unfold closeSlot at hs
  have hframe := (objectMaybeDestroy_frame hs).2
  exact hframe

/-- Only `object_create` draws an id. -/
theorem ObCall.next [DecidableEq T] {arch : Arch} {op : ObOp n T} (h : ObCall types arch s op t)
    (hop : ∀ i args r, op ≠ .create i args r) : t.nextObjectId = s.nextObjectId := by
  cases op with
  | create i args r => exact absurd rfl (hop i args r)
  | ref x =>
      have hstate : t = objectRef s x := h
      rw [hstate]
      rfl
  | deref x => exact (objectDeref_frame h).2
  | grant c x rights r =>
      have hcall : objectGrant types arch s c x rights = some (r, t) := h
      unfold objectGrant at hcall
      split at hcall
      · split at hcall
        · rw [← (Prod.mk.inj (Option.some.inj hcall)).2]
        · split at hcall
          · rw [← (Prod.mk.inj (Option.some.inj hcall)).2]
          · rw [← (Prod.mk.inj (Option.some.inj hcall)).2]
      · cases hcall
  | close c k r =>
      have hcall : objectClose types s c k = some (r, t) := h
      unfold objectClose at hcall
      split at hcall
      · rw [← (Prod.mk.inj (Option.some.inj hcall)).2]
      · split at hcall
        · rw [← (Prod.mk.inj (Option.some.inj hcall)).2]
        · obtain ⟨t', ht', heq⟩ := Option.map_eq_some_iff.mp hcall
          rw [← (Prod.mk.inj heq).2]
          exact closeSlot_next ht'
  | lookup c k rights r =>
      have hcall : capLookup types s c k rights = some (r, t) := h
      unfold capLookup at hcall
      dsimp only at hcall
      split at hcall
      · rw [← (Prod.mk.inj (Option.some.inj hcall)).2]
      · split at hcall
        · rw [← (Prod.mk.inj (Option.some.inj hcall)).2]
        · split at hcall
          · obtain ⟨t', ht', heq⟩ := Option.map_eq_some_iff.mp hcall
            rw [← (Prod.mk.inj heq).2]
            exact closeSlot_next ht'
          · split at hcall
            · rw [← (Prod.mk.inj (Option.some.inj hcall)).2]
            · rw [← (Prod.mk.inj (Option.some.inj hcall)).2]
              rfl

end Tables

/-- The rights of every entry are allowed by the type of its object. -/
def ObRun.Allowed (types : Fin n → ObjectType) (u : ObRun n T) : Prop :=
  ∀ c k x rights a, (u.state.tables c).binding k = some (x, rights) → u.ledger.tally x = some a →
    rights &&& (types a.type).defaultRights = rights

namespace ObInv

variable {types : Fin n → ObjectType} {arch : Arch} {slack : ℕ} {u v : ObRun n T}
  {o : SlabOwn (SlabId n)} {nodes : ℕ → List ℕ} {E : ℕ → List (ℕ × ℕ)}
  {V : ℕ → Option ObjectHeader} {op : ObOp n T} {c : T} {k x rights : ℕ}

theorem bound_live (h : ObInv types slack u o nodes E V)
    (hbound : (u.state.tables c).binding k = some (x, rights)) :
    x ≠ 0 ∧ (V x).isSome ∧ ∃ a, u.Live x a := by
  obtain ⟨hk, hx, hobj, _⟩ := CapTable.binding_eq_some.mp hbound
  obtain ⟨hsome, _⟩ := h.entry c k hk (by rw [hobj]; exact hx)
  obtain ⟨a, hlive⟩ := h.obCounts.entries c k hk (by rw [hobj]; exact hx)
  rw [hobj] at hsome hlive
  exact ⟨hx, hsome, a, hlive⟩

/-- A call on the tables of the state before leaves no entry with other rights. -/
theorem allowed_of_tables (h : ObInv types slack u o nodes E V) (hu : u.Allowed types)
    (hl : v.ledger = u.ledger.after u.state.nextObjectId op)
    (hfresh : ∀ i args r, op = .create i args r → r ≠ 0 → V r = none)
    (htables : ∀ d j x rights, (v.state.tables d).binding j = some (x, rights) →
      (u.state.tables d).binding j = some (x, rights) ∨
        ∃ a, u.ledger.tally x = some a ∧ (V x).isSome ∧
          rights &&& (types a.type).defaultRights = rights) :
    v.Allowed types := by
  have hold : ∀ d j x rights, (v.state.tables d).binding j = some (x, rights) →
      ∃ a, u.ledger.tally x = some a ∧ (V x).isSome ∧
        rights &&& (types a.type).defaultRights = rights := by
    intro d j x rights hbound
    rcases htables d j x rights hbound with hbound' | hnew
    · obtain ⟨_, hsome, a, hlive⟩ := h.bound_live hbound'
      exact ⟨a, hlive.1, hsome, hu d j x rights a hbound' hlive.1⟩
    · exact hnew
  intro d j x rights b hbound hb
  obtain ⟨a, ha, hsome, hrights⟩ := hold d j x rights hbound
  have hcount : ∀ {y} {f : Tally n → Tally n}, v.ledger = u.ledger.count y f →
      (∀ a, (f a).type = a.type) → b.type = a.type := by
    intro y f heq hf
    rw [heq] at hb
    by_cases hxy : x = y
    · subst hxy
      rw [Ledger.count_self ha] at hb
      rw [← Option.some.inj hb]
      exact hf a
    · rw [Ledger.count_of_ne hxy, ha] at hb
      rw [← Option.some.inj hb]
  have hkeep : v.ledger = u.ledger → b.type = a.type := by
    intro heq
    rw [heq, ha] at hb
    rw [← Option.some.inj hb]
  have htype : b.type = a.type := by
    cases op with
    | create i args r =>
        simp only [Ledger.after] at hl
        split at hl
        · exact hkeep hl
        · rename_i hr
          have hxr : x ≠ r := by
            rintro rfl
            rw [hfresh i args x rfl hr] at hsome
            cases hsome
          rw [hl] at hb
          simp only [Function.update_of_ne hxr] at hb
          exact congrArg Tally.type (Option.some.inj (hb.symm.trans ha))
    | ref y => exact hcount hl fun _ => rfl
    | deref y => exact hcount hl fun _ => rfl
    | grant d y rights r => exact hkeep hl
    | close d j r => exact hkeep hl
    | lookup d j rights r =>
        simp only [Ledger.after] at hl
        split at hl
        · exact hkeep hl
        · exact hcount hl fun _ => rfl
  rw [htype]
  exact hrights

variable [DecidableEq T]

/-- The maps after a grant that succeeds. -/
theorem binding_grant {s : ObState n T} (hk : (s.tables c).freeSlot = some k) (hx : x ≠ 0) (d : T)
    (j : ℕ) : ((grantState arch s c k x rights).tables d).binding j =
      if d = c ∧ j = k then some (x, rights) else (s.tables d).binding j := by
  have hentries : ((s.tables c).fillSlot arch k x rights 0).entries =
      Function.update (s.tables c).entries k ⟨x, rights, 0⟩ := rfl
  have htables : (grantState arch s c k x rights).tables =
      Function.update s.tables c ((s.tables c).fillSlot arch k x rights 0) := rfl
  rw [binding_set htables (CapTable.freeSlot_some hk).1 hentries]
  exact if_congr Iff.rfl (if_neg hx) rfl

/-- The maps after a close that succeeds. -/
theorem binding_clear {s t : ObState n T} (hk : k < capTableMax)
    (ht : t.tables = Function.update s.tables c ((s.tables c).clearSlot k)) (d : T) (j : ℕ) :
    (t.tables d).binding j = if d = c ∧ j = k then none else (s.tables d).binding j := by
  have hentries : ((s.tables c).clearSlot k).entries =
      Function.update (s.tables c).entries k { (s.tables c).entries k with object := 0 } := rfl
  rw [binding_set ht hk hentries]
  exact if_congr Iff.rfl (if_pos rfl) rfl

theorem allowed_step (h : ObInv types slack u o nodes E V) (hu : u.Allowed types)
    (hs : ObStep types arch u op v) : v.Allowed types := by
  obtain ⟨hcaller, hcall, hl⟩ := hs
  have hsame : v.state.tables = u.state.tables → ∀ d j x rights,
      (v.state.tables d).binding j = some (x, rights) →
        (u.state.tables d).binding j = some (x, rights) ∨
          ∃ a, u.ledger.tally x = some a ∧ (V x).isSome ∧
            rights &&& (types a.type).defaultRights = rights := by
    intro htables d j x rights hbound
    rw [htables] at hbound
    exact Or.inl hbound
  cases op with
  | create i args r =>
      obtain ⟨_, _, hcr, _, hok⟩ := ObHeap.objectCreate h.heap h.next_lt hcall
      refine h.allowed_of_tables hu hl ?_ (hsame hcr.tables)
      intro _ _ _ heq hr
      cases heq
      exact (hok hr).1
  | ref x =>
      have hstate : v.state = objectRef u.state x := hcall
      exact h.allowed_of_tables hu hl (fun _ _ _ heq => by cases heq) (hsame (by rw [hstate]; rfl))
  | deref x =>
      exact h.allowed_of_tables hu hl (fun _ _ _ heq => by cases heq)
        (hsame ((objectDeref_frame hcall).1))
  | grant c x rights r =>
      refine h.allowed_of_tables hu hl (fun _ _ _ heq => by cases heq) ?_
      obtain ⟨a, hd, ha, hx, _, _⟩ := h.owned hcaller
      obtain ⟨b, hb, ⟨_, hs⟩ | ⟨hrights, k, hk, hs⟩⟩ :=
        h.grant_cases arch c rights hcaller
      · have hstate := (Prod.mk.inj (Option.some.inj (hs.symm.trans hcall))).2
        exact hsame (by rw [hstate])
      · have hstate := (Prod.mk.inj (Option.some.inj (hs.symm.trans hcall))).2
        intro d j y granted hbound
        rw [← hstate, binding_grant hk (ObHeap.addr h.heap hx).1] at hbound
        split at hbound
        · cases hbound
          exact Or.inr ⟨b, hb, by rw [hx]; rfl, hrights⟩
        · exact Or.inl hbound
  | close c k r =>
      refine h.allowed_of_tables hu hl (fun _ _ _ heq => by cases heq) ?_
      have hcall' : objectClose types u.state c k = some (r, v.state) := hcall
      rw [close_eq] at hcall'
      split at hcall'
      · rename_i hbound
        obtain ⟨t, ht, htables, _⟩ := h.closeSlot hbound.1 hbound.2
        rw [ht] at hcall'
        have hstate := (Prod.mk.inj (Option.some.inj hcall')).2
        intro d j y granted hbind
        rw [← hstate, binding_clear hbound.1 htables] at hbind
        split at hbind
        · cases hbind
        · exact Or.inl hbind
      · have hstate := (Prod.mk.inj (Option.some.inj hcall')).2
        exact hsame (by rw [hstate])
  | lookup c k rights r =>
      have hcall' : capLookup types u.state c k rights = some (r, v.state) := hcall
      rw [h.lookup_eq] at hcall'
      refine h.allowed_of_tables hu hl (fun _ _ _ heq => by cases heq) (hsame ?_)
      split at hcall'
      · rw [← (Prod.mk.inj (Option.some.inj hcall')).2]
        rfl
      · rw [(Prod.mk.inj (Option.some.inj hcall')).2]

theorem capSpec (h : ObInv types slack u o nodes E V) (hu : u.Allowed types) :
    CapSpec types arch u where
  allowed c k x rights hbound := by
    obtain ⟨_, _, a, hlive⟩ := h.bound_live hbound
    exact ⟨a, hlive, hu c k x rights a hbound hlive.1⟩
  grant c x rights a ha hheld := by
    have howned : u.Owned x := ⟨a, ha, hheld⟩
    obtain ⟨_, hd, _, hx, _, _⟩ := h.owned howned
    obtain ⟨b, hb, hcase⟩ := h.grant_cases arch c rights howned
    cases ha.symm.trans hb
    rcases hcase with ⟨hfail, hs⟩ | ⟨hrights, k, hk, hs⟩
    · refine ⟨capInvalid, u.state, hs, iff_of_true rfl ?_, fun _ => rfl, fun hne => absurd rfl hne⟩
      refine hfail.imp id fun hnone k hk => ?_
      rw [Ne, CapTable.binding_eq_none]
      exact not_not.mpr ⟨hk, CapTable.freeSlot_none hnone hk⟩
    · obtain ⟨hklt, hkfree⟩ := CapTable.freeSlot_some hk
      have hnone : (u.state.tables c).binding k = none :=
        CapTable.binding_eq_none.mpr fun hand => hand.2 hkfree
      have hne : k ≠ capInvalid := by
        unfold capTableMax at hklt
        unfold capInvalid
        omega
      refine ⟨k, _, hs, iff_of_false hne ?_, fun heq => absurd heq hne, fun _ => ⟨hklt, hnone,
        binding_grant hk (ObHeap.addr h.heap hx).1⟩⟩
      rintro (hbad | hfull)
      · exact hbad hrights
      · exact hfull k hklt hnone
  lookup c k rights := by
    rw [h.lookup_eq]
    split
    · rename_i hbound
      refine ⟨_, _, rfl, rfl, fun y hy => ?_⟩
      constructor
      · intro heq
        exact ⟨_, CapTable.binding_eq_some.mpr ⟨hbound.1, hy, heq, rfl⟩, hbound.2.2⟩
      · rintro ⟨granted, hbind, _⟩
        exact (CapTable.binding_eq_some.mp hbind).2.2.1
    · rename_i hbound
      refine ⟨0, u.state, rfl, rfl, fun y hy => iff_of_false (Ne.symm hy) ?_⟩
      rintro ⟨granted, hbind, hgranted⟩
      obtain ⟨hk, hy0, hobj, hrights⟩ := CapTable.binding_eq_some.mp hbind
      exact hbound ⟨hk, by rw [hobj]; exact hy0, by rw [hrights]; exact hgranted⟩
  close c k := by
    rw [close_eq]
    split
    · rename_i hbound
      obtain ⟨t, ht, htables, _⟩ := h.closeSlot hbound.1 hbound.2
      rw [ht]
      refine ⟨0, t, rfl, iff_of_true rfl ?_, fun hne => absurd rfl hne, fun _ =>
        binding_clear hbound.1 htables⟩
      rw [Ne, CapTable.binding_eq_none]
      exact not_not.mpr hbound
    · rename_i hbound
      refine ⟨-1, u.state, rfl, iff_of_false (by decide) ?_, fun _ => rfl, fun hzero => ?_⟩
      · rw [Ne, not_not]
        exact CapTable.binding_eq_none.mpr hbound
      · exact absurd hzero (by decide)

end ObInv

/-- Every capability table behaves as a partial map in every run with fewer than 2^32
references and handles of each object. -/
theorem cap_tables_run [DecidableEq T] {types : Fin n → ObjectType} {arch : Arch}
    {u₀ u : ObRun n T} {ops : List (ObOp n T)} (hboot : ObBoot types u₀)
    (hrun : Run (BoundedStep types arch) u₀ ops u) : CapSpec types arch u := by
  obtain ⟨slack, hinv⟩ := hboot.inv
  have hallowed : u₀.Allowed types := by
    intro c k x rights a _ ha
    rw [hboot.ledger] at ha
    cases ha
  obtain ⟨⟨o, nodes, E, V, hu⟩, hok⟩ := hrun.invariant
    (I := fun w => (∃ o nodes E V, ObInv types slack w o nodes E V) ∧ w.Allowed types) (by
      rintro w op w' ⟨⟨o, nodes, E, V, hw⟩, hok⟩ ⟨hstep, hb⟩
      obtain ⟨_, o', nodes', E', V', hinv', _⟩ := hw.next hstep hb
      exact ⟨⟨o', nodes', E', V', hinv'⟩, hw.allowed_step hok hstep⟩)
    ⟨⟨_, _, _, _, hinv⟩, hallowed⟩
  exact hu.capSpec hok

/-- Two handles of one object, of which the first is closed and no longer found. -/
theorem cap_tables_run_closed :
    ∃ u, Run (BoundedStep pageType .arm64) pageObjects
        [.create 0 0 0x1010, .grant () 0x1010 1 0, .grant () 0x1010 3 1, .lookup () 0 1 0x1010,
          .lookup () 0 2 0, .close () 0 0, .lookup () 0 1 0, .lookup () 1 3 0x1010] u ∧
      CapSpec pageType .arm64 u := by
  obtain ⟨u, hu⟩ := Option.isSome_iff_exists.mp (by decide +kernel :
    (pageObjects.calls pageType .arm64 [.create 0 0 0x1010, .grant () 0x1010 1 0,
      .grant () 0x1010 3 1, .lookup () 0 1 0x1010, .lookup () 0 2 0, .close () 0 0,
      .lookup () 0 1 0, .lookup () 1 3 0x1010]).isSome = true)
  have hrun := pageObjects_boot.calls_run (by decide) (by decide) hu
  exact ⟨u, hrun, cap_tables_run pageObjects_boot hrun⟩

/-- A lookup of a handle that is not stale adds 1 to the reference count, modulo 2^32. -/
theorem capLookup_entry [DecidableEq T] {types : Fin n → ObjectType} {s : ObState n T} {c : T}
    {k x rights generation v : ℕ} (hk : k < capTableMax) (hx : x ≠ 0)
    (hentry : (s.tables c).entries k = ⟨x, rights, generation⟩)
    (hgen : objGeneration.get s.mem x = generation) (hcount : objRefcount.get s.mem x = v) :
    capLookup types s c k rights =
      some (x, { s with mem := objRefcount.set s.mem x ((v + 1) % 2 ^ 32) }) := by
  unfold capLookup objectRef atomicFetchAdd
  rw [if_neg (Nat.not_le_of_lt hk)]
  dsimp only
  rw [hentry, if_neg hx, if_neg (not_not.mpr hgen), if_neg (not_not.mpr (Nat.and_self rights)),
    hcount]

/-- The same for a count that has just been written. -/
theorem capLookup_again [DecidableEq T] {types : Fin n → ObjectType} {s : ObState n T} {c : T}
    {k x rights generation : ℕ} (hk : k < capTableMax) (hx : x ≠ 0)
    (hentry : (s.tables c).entries k = ⟨x, rights, generation⟩)
    (hgen : objGeneration.get s.mem x = generation) (v : ℕ) :
    capLookup types { s with mem := objRefcount.set s.mem x (v % 2 ^ 32) } c k rights =
      some (x, { s with mem := objRefcount.set s.mem x ((v + 1) % 2 ^ 32) }) := by
  have hcount : objRefcount.get (objRefcount.set s.mem x (v % 2 ^ 32)) x = v % 2 ^ 32 :=
    Field.get_set_four rfl (Nat.mod_lt _ (by norm_num))
  refine (capLookup_entry (s := { s with mem := objRefcount.set s.mem x (v % 2 ^ 32) }) hk hx
    hentry ?_ hcount).trans ?_
  · rw [get_set_header (by decide)]
    exact hgen
  · rw [Field.set_set, Nat.mod_add_mod]

/-- Two types whose objects fill a page each; the second allows less. -/
def twoTypes : Fin 2 → ObjectType := fun i => ⟨3000, none, none, if i = 0 then 3 else 1⟩

def twoTypeObjects : ObRun 2 Unit :=
  ⟨⟨fun _ => 0#8, fourFrames, fun _ => newSlabCache 3000, hashtableInit (fun _ => 1) 4096, 1,
    fun _ => capTableCreate, []⟩, ⟨fun _ => none, fun _ => 0⟩⟩

/-- After 2^32 - 1 lookups the reference count is 0 again, closing the handle destroys the
object, and a grant by somebody who holds a reference reads the type of another object. -/
theorem cap_table_wrapped_refcount :
    ∃ u, Run (ObStep twoTypes .arm64) twoTypeObjects
        ([.create 1 0 0x1010, .grant () 0x1010 1 0, .lookup () 0 1 0x1010] ++
          List.replicate (2 ^ 32 - 2) (.lookup () 0 1 0x1010) ++ [.close () 0 0]) u ∧
      ¬ CapSpec twoTypes .arm64 u := by
  have heval : (objectCreate twoTypes twoTypeObjects.state 1 0 >>= fun a =>
      objectGrant twoTypes .arm64 a.2 () 0x1010 1 >>= fun b =>
        objectClose twoTypes { b.2 with mem := objRefcount.set b.2.mem 0x1010 0 } () 0 >>= fun c =>
          objectGrant twoTypes .arm64 c.2 () 0x1010 2 >>= fun d =>
            some ((a.1, b.1, objRefcount.get b.2.mem 0x1010), (b.2.tables ()).entries 0,
              objGeneration.get b.2.mem 0x1010, c.1, d.1)) =
      some ((0x1010, 0, 1), ⟨0x1010, 1, 0⟩, 0, 0, 1) := by
    decide +kernel
  obtain ⟨⟨ra, sa⟩, ha, hrest⟩ := Option.bind_eq_some_iff.mp heval
  obtain ⟨⟨rb, sb⟩, hb, hrest⟩ := Option.bind_eq_some_iff.mp hrest
  obtain ⟨⟨rc, sc⟩, hc, hrest⟩ := Option.bind_eq_some_iff.mp hrest
  obtain ⟨⟨rd, sd⟩, hd, hresult⟩ := Option.bind_eq_some_iff.mp hrest
  simp only [Option.some.injEq, Prod.mk.injEq] at hresult
  obtain ⟨⟨rfl, rfl, hcount⟩, hentry, hgen, rfl, rfl⟩ := hresult
  generalize hborn : Function.update (fun _ : ℕ => 0) 0x1010 1 = born
  let L (k : ℕ) : Ledger 2 := ⟨Function.update (fun _ => none) 0x1010 (some ⟨1, 1, 0, k, 0⟩), born⟩
  -- the state after `k + 1` lookups
  let S (k : ℕ) : ObRun 2 Unit :=
    ⟨{ sb with mem := objRefcount.set sb.mem 0x1010 ((2 + k) % 2 ^ 32) }, L (k + 1)⟩
  have howned : ∀ (s : ObState 2 Unit) k, ObRun.Owned ⟨s, L k⟩ 0x1010 :=
    fun _ k => ⟨⟨1, 1, 0, k, 0⟩, by simp [L], by simp [Tally.held]⟩
  have hledger : ∀ k id, L (k + 1) = (L k).after id (.lookup () 0 1 0x1010 : ObOp 2 Unit) := by
    intro k id
    simp [L, Ledger.after, Ledger.count_update]
  have h₁ : ObStep twoTypes .arm64 twoTypeObjects (.create 1 0 0x1010) ⟨sa, L 0⟩ := by
    refine ⟨trivial, ha, ?_⟩
    simp only [L, ← hborn]
    rfl
  have h₂ : ObStep twoTypes .arm64 ⟨sa, L 0⟩ (.grant () 0x1010 1 0) ⟨sb, L 0⟩ :=
    ⟨howned _ _, hb, rfl⟩
  have h₃ : ObStep twoTypes .arm64 ⟨sb, L 0⟩ (.lookup () 0 1 0x1010) (S 0) :=
    ⟨trivial, capLookup_entry (by decide) (by decide) hentry hgen hcount, hledger 0 _⟩
  have h₄ : ∀ k, ObStep twoTypes .arm64 (S k) (.lookup () 0 1 0x1010) (S (k + 1)) := fun k =>
    ⟨trivial, capLookup_again (by decide) (by decide) hentry hgen (2 + k), hledger (k + 1) _⟩
  generalize hm : 2 ^ 32 - 2 = m
  have hzero : (2 + m) % 2 ^ 32 = 0 := by
    rw [← hm]
    norm_num
  have h₅ : ObStep twoTypes .arm64 (S m) (.close () 0 0) ⟨sc, L (m + 1)⟩ := by
    refine ⟨trivial, ?_, rfl⟩
    simp only [S, hzero]
    exact hc
  refine ⟨⟨sc, L (m + 1)⟩, .append (.append (.cons h₁ (.cons h₂ (.cons h₃ (.nil _))))
    (Run.replicate fun k (_ : k < m) => h₄ k)) (.cons h₅ (.nil _)), fun hspec => ?_⟩
  obtain ⟨r, t, hr, hiff, _⟩ := hspec.grant () 0x1010 2 ⟨1, 1, 0, m + 1, 0⟩ (by simp [L])
    (by simp [Tally.held])
  have hone := (Prod.mk.inj (Option.some.inj (hr.symm.trans hd))).1
  have hrights : 2 &&& (twoTypes 1).defaultRights ≠ 2 := by decide
  have hinvalid := hiff.mpr (Or.inl hrights)
  rw [hone] at hinvalid
  exact absurd hinvalid (by decide)

end Vectra

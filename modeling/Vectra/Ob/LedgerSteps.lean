import Vectra.Ob.Ledger

/-!
# The effect of one object call

Whatever the call is, it leaves the live headers and the id table alone, changes the
counts in one header, adds one object or destroys one object.
-/

namespace Vectra

open Lib SlabMem

variable {n : ℕ} {T : Type}

/-- What a call does to the live headers and the id table. -/
inductive ObEffect (types : Fin n → ObjectType) (u v : ObRun n T) (E : ℕ → List (ℕ × ℕ))
    (V : ℕ → Option ObjectHeader) : (ℕ → List (ℕ × ℕ)) → (ℕ → Option ObjectHeader) → Prop
  | keep (next : v.state.nextObjectId = u.state.nextObjectId ∨
        v.state.nextObjectId = (u.state.nextObjectId + 1) % 2 ^ 32)
      (calls : v.state.destroyCalls = u.state.destroyCalls) (ledger : v.ledger = u.ledger) :
      ObEffect types u v E V E V
  | count (x : ℕ) (hd hd' : ObjectHeader) (live : V x = some hd)
      (id : hd'.objectId = hd.objectId) (destroyed : hd'.destroyed = hd.destroyed)
      (busy : hd'.destroyed = 0 → 0 < hd'.refcount ∨ 0 < hd'.handleCount)
      (next : v.state.nextObjectId = u.state.nextObjectId)
      (calls : v.state.destroyCalls = u.state.destroyCalls) (born : v.ledger.born = u.ledger.born) :
      ObEffect types u v E V E (Function.update V x (some hd'))
  | created (i : Fin n) (x : ℕ) (dead : V x = none)
      (next : v.state.nextObjectId = (u.state.nextObjectId + 1) % 2 ^ 32)
      (calls : v.state.destroyCalls = u.state.destroyCalls)
      (ledger : v.ledger = ⟨Function.update u.ledger.tally x
          (some ⟨i, u.state.nextObjectId, 0, 0, 0⟩),
        Function.update u.ledger.born x (u.ledger.born x + 1)⟩)
      (same : ∀ a, u.ledger.tally x = some a → a.type = i) :
      ObEffect types u v E V
        (Function.update E (u.state.bucket u.state.nextObjectId)
          ((u.state.nextObjectId, x) :: E (u.state.bucket u.state.nextObjectId)))
        (Function.update V x
          (some ⟨i, 1, 0, 0, u.state.nextObjectId, objDestroyed.get u.state.mem x⟩))
  | destroyed (i : Fin n) (x : ℕ) (hd : ObjectHeader) (live : V x = some hd) (type : hd.typeId = i)
      (clear : hd.destroyed = 0)
      (next : v.state.nextObjectId = u.state.nextObjectId)
      (calls : v.state.destroyCalls =
        u.state.destroyCalls ++ if (types i).destroy.isSome then [x] else [])
      (born : v.ledger.born = u.ledger.born) :
      ObEffect types u v E V
        (Function.update E (u.state.bucket hd.objectId)
          ((E (u.state.bucket hd.objectId)).eraseP fun e => e.1 = hd.objectId))
        (Function.update V x none)

/-- The invariant holds after a call, with the effect of the call. -/
def ObNext (types : Fin n → ObjectType) (slack : ℕ) (u v : ObRun n T) (E : ℕ → List (ℕ × ℕ))
    (V : ℕ → Option ObjectHeader) : Prop :=
  v.state.idTable.nbuckets = u.state.idTable.nbuckets ∧
    ∃ o nodes E' V', ObInv types slack v o nodes E' V' ∧ ObEffect types u v E V E' V'

namespace ObInv

variable {types : Fin n → ObjectType} {slack x r args : ℕ} {s t : ObState n T} {u v : ObRun n T}
  {o o' : SlabOwn (SlabId n)} {nodes nodes' : ℕ → List ℕ} {E E' : ℕ → List (ℕ × ℕ)}
  {V : ℕ → Option ObjectHeader} {hd hd' : ObjectHeader} {a : Tally n} {i : Fin n}

/-- The fields of a live header, as the code reads them. -/
theorem read (h : ObInv types slack u o nodes E V) (hx : V x = some hd) :
    objTypeId.get u.state.mem x = hd.typeId ∧ objRefcount.get u.state.mem x = hd.refcount ∧
      objHandleCount.get u.state.mem x = hd.handleCount ∧
      objGeneration.get u.state.mem x = hd.generation ∧
      objObjectId.get u.state.mem x = hd.objectId ∧
      objDestroyed.get u.state.mem x = hd.destroyed :=
  ObHeap.fields h.heap hx

/-- `object_maybe_destroy` on a live object destroys it when both counts are zero and it is
not marked yet, and else it does nothing. -/
theorem maybeDestroy (h : ObInv types slack u o nodes E V) (hx : V x = some hd)
    (ha : u.ledger.tally x = some a) :
    ∃ t, objectMaybeDestroy types u.state x = some t ∧
      ((¬ (hd.refcount = 0 ∧ hd.handleCount = 0 ∧ hd.destroyed = 0) ∧ t = u.state) ∨
        (hd.refcount = 0 ∧ hd.handleCount = 0 ∧ hd.destroyed = 0) ∧
          ∃ o' nodes', ObDestroyed types u.state t a.type x o o' ∧
            ObInv types slack ⟨t, u.ledger⟩ o' nodes'
              (Function.update E (u.state.bucket hd.objectId)
                ((E (u.state.bucket hd.objectId)).eraseP fun e => e.1 = hd.objectId))
              (Function.update V x none)) := by
  obtain ⟨_, href, hhandle, _, _, hdest⟩ := h.read hx
  obtain ⟨b, hb, hcounts⟩ := h.counts x hd hx
  cases ha.symm.trans hb
  unfold objectMaybeDestroy
  rw [href, hhandle, hdest]
  by_cases hgo : hd.refcount = 0 ∧ hd.handleCount = 0 ∧ hd.destroyed = 0
  · rw [if_pos hgo]
    have hmark := ObHeap.setDestroyed h.heap hx 1
    have hx' : Function.update V x (some { hd with destroyed := 1 % 256 }) x =
        some { hd with destroyed := 1 % 256 } := Function.update_self _ _ _
    obtain ⟨t, o', nodes', i, hs, htype, hheap, hd'⟩ :=
      ObHeap.objectDestroy (s := { u.state with mem := objDestroyed.set u.state.mem x 1 }) hmark hx'
    have hi : i = a.type := Fin.ext (htype.symm.trans hcounts.type)
    subst hi
    rw [Function.update_idem] at hheap
    have hx0 := (ObHeap.addr h.heap hx).1
    have hheld : a.held = 0 := hcounts.refcount.symm.trans hgo.1
    have hnaming : u.state.naming x = ∅ := by
      have hzero := hcounts.handleCount.symm.trans hgo.2.1
      exact (Set.ncard_eq_zero (h.finite x hx0)).mp hzero
    have hsame : ∀ y, (⟨t, u.ledger⟩ : ObRun n T).state.naming y = u.state.naming y := by
      intro y
      simp only [ObState.naming, hd'.tables]
    refine ⟨t, hs, Or.inr ⟨hgo, o', nodes', ⟨hd'.tables, hd'.nextObjectId, hd'.pmm, hd'.nbuckets,
      hd'.free, hd'.other, hd'.calls⟩, ⟨hheap, ?_, ?_, ?_, h.derefs, ?_, ?_⟩⟩⟩
    · simp only [hd'.nextObjectId]
      exact h.next_lt
    · intro y hdy hy
      by_cases hyx : y = x
      · subst hyx
        rw [Function.update_self] at hy
        cases hy
      · rw [Function.update_of_ne hyx] at hy
        obtain ⟨b, hb, hc⟩ := h.counts y hdy hy
        refine ⟨b, hb, hc.type, hc.id, hc.generation, hc.refcount, ?_⟩
        rw [hsame]
        exact hc.handleCount
    · intro y b hyb hy
      by_cases hyx : y = x
      · subst hyx
        have hba : b = a := Option.some.inj (hyb.symm.trans ha)
        subst hba
        rw [hd'.free]
        exact ⟨List.mem_cons_self, hheld⟩
      · rw [Function.update_of_ne hyx] at hy
        obtain ⟨hfree, hzero⟩ := h.freed y b hyb hy
        refine ⟨?_, hzero⟩
        by_cases hbt : b.type = a.type
        · rw [hbt] at hfree ⊢
          rw [hd'.free]
          exact List.mem_cons_of_mem x hfree
        · rw [hd'.other b.type hbt]
          exact hfree
    · intro c k hk hobj
      simp only [hd'.tables] at hobj ⊢
      obtain ⟨hsome, hgen⟩ := h.entry c k hk hobj
      refine ⟨?_, hgen⟩
      have hne : ((u.state.tables c).entries k).object ≠ x := by
        intro heq
        have hmem : (c, k) ∈ u.state.naming x := ⟨hk, heq⟩
        rw [hnaming] at hmem
        exact hmem
      rw [Function.update_of_ne hne]
      exact hsome
    · intro y hy
      rw [hsame]
      exact h.finite y hy
  · rw [if_neg hgo]
    exact ⟨u.state, rfl, Or.inl ⟨hgo, rfl⟩⟩

theorem bounded (hheap : v.state.Holds types slack o nodes E V) (hx : V x = some hd)
    (htype : hd.typeId = a.type) (ha : v.ledger.tally x = some a) (hb : v.Bounded) :
    a.held < 2 ^ 32 ∧ (v.state.naming x).ncard < 2 ^ 32 :=
  hb x a ⟨ha, ObState.not_freed hheap hx htype⟩

/-- `object_ref`, and the end of a `cap_lookup` that succeeds. -/
theorem addRef {f : Tally n → Tally n} (h : ObInv types slack u o nodes E V)
    (hlive : u.Live x a) (hs : v.state = objectRef u.state x) (hl : v.ledger = u.ledger.count x f)
    (htype : (f a).type = a.type) (hid : (f a).id = a.id) (hheld : (f a).held = a.held + 1)
    (hderefs : (f a).derefs ≤ 1 + (f a).refs + (f a).lookups) (hb : v.Bounded) :
    ObNext types slack u v E V := by
  obtain ⟨s, L⟩ := v
  obtain rfl : s = objectRef u.state x := hs
  obtain rfl : L = u.ledger.count x f := hl
  obtain ⟨ha, hd, hx⟩ := h.live_iff.mp hlive
  obtain ⟨b, hba, hcounts⟩ := h.counts x hd hx
  have hab : b = a := Option.some.inj (hba.symm.trans ha)
  subst hab
  have href := (h.read hx).2.1
  have hheap := ObHeap.setRefcount h.heap hx
    ((objRefcount.get u.state.mem x + 1) % 2 ^ 32)
  have hx' := Function.update_self x
    (some { hd with refcount := (objRefcount.get u.state.mem x + 1) % 2 ^ 32 % 2 ^ 32 }) V
  have htally : (u.ledger.count x f).tally x = some (f b) := Ledger.count_self ha
  have hlt := (bounded (v := ⟨objectRef u.state x, u.ledger.count x f⟩) hheap hx'
    (hcounts.type.trans (by rw [htype])) htally hb).1
  have hval : (objRefcount.get u.state.mem x + 1) % 2 ^ 32 % 2 ^ 32 = (f b).held := by
    rw [href, hcounts.refcount, hheld, Nat.mod_mod]
    exact Nat.mod_eq_of_lt (by omega)
  rw [hval] at hheap
  refine ⟨rfl, o, nodes, E, _, h.touch hx hheap h.next_lt htally
    ⟨by rw [htype]; exact hcounts.type, by rw [hid]; exact hcounts.id, hcounts.generation, rfl,
      hcounts.handleCount⟩ hderefs (h.finite x (ObHeap.addr h.heap hx).1)
    (fun y hy => ⟨Ledger.count_of_ne hy, fun _ => rfl⟩) (fun _ _ _ _ => Or.inl rfl), ?_⟩
  exact .count x hd _ hx rfl rfl (fun _ => Or.inl (by simp only; omega)) rfl rfl rfl

/-- `object_deref` by somebody who holds a reference. -/
theorem deref (h : ObInv types slack u o nodes E V) (howned : u.Owned x) :
    ∃ t, objectDeref types u.state x = some t ∧ ObNext types slack u
      ⟨t, u.ledger.count x fun a => { a with derefs := a.derefs + 1 }⟩ E V := by
  obtain ⟨a, hd, ha, hx, hcounts, hheld⟩ := h.owned howned
  obtain ⟨_, href, _⟩ := h.read hx
  have hlt : hd.refcount < 2 ^ 32 := by
    rw [← href]
    exact lt_of_lt_of_eq (objRefcount.get_lt _ _) (by norm_num [objRefcount])
  have hpos : 0 < hd.refcount := by
    rw [hcounts.refcount]
    exact hheld
  have hval : (objRefcount.get u.state.mem x + 2 ^ 32 - 1) % 2 ^ 32 % 2 ^ 32 = hd.refcount - 1 := by
    rw [href, Nat.mod_mod]
    omega
  have hheap := ObHeap.setRefcount h.heap hx ((objRefcount.get u.state.mem x + 2 ^ 32 - 1) % 2 ^ 32)
  rw [hval] at hheap
  have htally : (u.ledger.count x fun a => { a with derefs := a.derefs + 1 }).tally x =
      some { a with derefs := a.derefs + 1 } := Ledger.count_self ha
  have hsum := Tally.held_add (h.derefs x a ha)
  have htouch : ObInv types slack
      ⟨{ u.state with mem := atomicFetchSub objRefcount u.state.mem x 1 },
        u.ledger.count x fun a => { a with derefs := a.derefs + 1 }⟩ o nodes E
      (Function.update V x (some { hd with refcount := hd.refcount - 1 })) := by
    refine h.touch hx hheap h.next_lt htally
      ⟨hcounts.type, hcounts.id, hcounts.generation, ?_, hcounts.handleCount⟩ ?_
      (h.finite x (ObHeap.addr h.heap hx).1) (fun y hy => ⟨Ledger.count_of_ne hy, fun _ => rfl⟩)
      (fun _ _ _ _ => Or.inl rfl)
    · rw [hcounts.refcount]
      simp only [Tally.held]
      omega
    · simp only
      omega
  have hx' := Function.update_self x (some { hd with refcount := hd.refcount - 1 }) V
  unfold objectDeref
  rw [href]
  by_cases hone : hd.refcount = 1
  · rw [if_pos hone]
    obtain ⟨t, hs, hcase⟩ := htouch.maybeDestroy hx' htally
    refine ⟨t, hs, ?_⟩
    rcases hcase with ⟨hgo, rfl⟩ | ⟨hgo, o', nodes', hdes, hinv⟩
    · refine ⟨rfl, o, nodes, E, _, htouch, .count x hd _ hx rfl rfl ?_ rfl rfl rfl⟩
      intro hzero
      simp only at hgo hzero ⊢
      omega
    · rw [Function.update_idem] at hinv
      exact ⟨hdes.nbuckets, o', nodes', _, _, hinv,
        .destroyed a.type x hd hx hcounts.type hgo.2.2 hdes.nextObjectId hdes.calls rfl⟩
  · rw [if_neg hone]
    refine ⟨_, rfl, rfl, o, nodes, E, _, htouch,
      .count x hd _ hx rfl rfl (fun _ => Or.inl ?_) rfl rfl rfl⟩
    simp only
    omega

/-- A failed call. -/
theorem keep (h : ObInv types slack u o nodes E V) (hs : v.state = u.state)
    (hl : v.ledger = u.ledger) : ObNext types slack u v E V := by
  obtain ⟨s, L⟩ := v
  obtain rfl : s = u.state := hs
  obtain rfl : L = u.ledger := hl
  exact ⟨rfl, o, nodes, E, V, h, .keep (Or.inl rfl) rfl rfl⟩

/-- `object_create`, whether it fails or not. -/
theorem create (h : ObInv types slack u o nodes E V)
    (hs : objectCreate types u.state i args = some (r, v.state))
    (hl : v.ledger = u.ledger.after u.state.nextObjectId (.create i args r : ObOp n T)) :
    ObNext types slack u v E V := by
  obtain ⟨t, L⟩ := v
  simp only [Ledger.after] at hl
  obtain ⟨o', nodes', hcr, hfail, hok⟩ := ObHeap.objectCreate h.heap h.next_lt hs
  have hnext : t.nextObjectId < 2 ^ 32 := by
    rcases hcr.next with heq | heq
    · rw [heq]
      exact h.next_lt
    · rw [heq]
      exact Nat.mod_lt _ (by norm_num)
  have htables : t.tables = u.state.tables := hcr.tables
  have hnaming : ∀ y, t.naming y = u.state.naming y := by
    intro y
    simp only [ObState.naming, htables]
  have hfree : ∀ j y, y ≠ r → y ∈ o.free (.type j) → y ∈ o'.free (.type j) := by
    intro j y hyr hy
    by_cases hj : j = i
    · subst hj
      exact (hcr.free y hy).resolve_left hyr
    · rw [hcr.other j hj]
      exact hy
  by_cases hr : r = 0
  · rw [if_pos hr] at hl
    subst hl
    refine ⟨hcr.nbuckets, o', nodes', E, V, ⟨(hfail hr).1, hnext, ?_, ?_, h.derefs, ?_, ?_⟩,
      .keep hcr.next hcr.calls rfl⟩
    · intro y hdy hy
      obtain ⟨b, hb, hc⟩ := h.counts y hdy hy
      refine ⟨b, hb, hc.type, hc.id, hc.generation, hc.refcount, ?_⟩
      rw [hnaming]
      exact hc.handleCount
    · intro y b hb hy
      obtain ⟨hyfree, hzero⟩ := h.freed y b hb hy
      have hy0 : y ≠ 0 := (h.heap.family.slab (.type b.type)).freeChain.ne_zero hyfree
      exact ⟨hfree b.type y (by rw [hr]; exact hy0) hyfree, hzero⟩
    · intro c k hk hobj
      simp only [htables] at hobj ⊢
      exact h.entry c k hk hobj
    · intro y hy
      rw [hnaming]
      exact h.finite y hy
  · rw [if_neg hr] at hl
    subst hl
    obtain ⟨hdead, hheap⟩ := hok hr
    have hsame : ∀ a, u.ledger.tally r = some a → a.type = i := by
      intro a ha
      by_contra hne
      have hrfree := (h.freed r a ha hdead).1
      rw [← hcr.other a.type hne] at hrfree
      obtain ⟨_, _, hheld, _⟩ := ObHeap.typeOf hheap (Function.update_self _ _ _)
      exact hheap.family.held_not_free hheld hrfree
    refine ⟨hcr.nbuckets, o', nodes', _, _, ⟨hheap, hnext, ?_, ?_, ?_, ?_, ?_⟩,
      .created i r hdead (hcr.advanced hr) hcr.calls rfl hsame⟩
    · intro y hdy hy
      by_cases hyr : y = r
      · subst hyr
        rw [Function.update_self] at hy
        cases hy
        refine ⟨⟨i, u.state.nextObjectId, 0, 0, 0⟩, Function.update_self _ _ _, rfl, rfl, rfl,
          rfl, ?_⟩
        rw [hnaming, h.naming_eq_empty hr hdead, Set.ncard_empty]
      · rw [Function.update_of_ne hyr] at hy
        obtain ⟨b, hb, hc⟩ := h.counts y hdy hy
        refine ⟨b, (Function.update_of_ne hyr _ _).trans hb, hc.type, hc.id, hc.generation,
          hc.refcount, ?_⟩
        rw [hnaming]
        exact hc.handleCount
    · intro y b hb hy
      by_cases hyr : y = r
      · subst hyr
        rw [Function.update_self] at hy
        cases hy
      · change (Function.update u.ledger.tally r _) y = some b at hb
        rw [Function.update_of_ne hyr] at hb hy
        obtain ⟨hyfree, hzero⟩ := h.freed y b hb hy
        exact ⟨hfree b.type y hyr hyfree, hzero⟩
    · intro y b hb
      change (Function.update u.ledger.tally r _) y = some b at hb
      by_cases hyr : y = r
      · rw [hyr, Function.update_self] at hb
        obtain rfl := Option.some.inj hb
        simp
      · rw [Function.update_of_ne hyr] at hb
        exact h.derefs y b hb
    · intro c k hk hobj
      simp only [htables] at hobj ⊢
      obtain ⟨hsome, hgen⟩ := h.entry c k hk hobj
      refine ⟨?_, hgen⟩
      have hne : ((u.state.tables c).entries k).object ≠ r := by
        intro heq
        rw [heq, hdead] at hsome
        cases hsome
      rw [Function.update_of_ne hne]
      exact hsome
    · intro y hy
      rw [hnaming]
      exact h.finite y hy

variable [DecidableEq T] {arch : Arch} {c : T} {k rights : ℕ}

/-- Clearing an entry, with what follows: the common end of `object_close` and of a stale lookup. -/
theorem closeSlot (h : ObInv types slack u o nodes E V) (hk : k < capTableMax)
    (hobj : ((u.state.tables c).entries k).object ≠ 0) :
    ∃ t, Vectra.closeSlot types u.state c k = some t ∧
      t.tables = Function.update u.state.tables c ((u.state.tables c).clearSlot k) ∧
      ObNext types slack u ⟨t, u.ledger⟩ E V := by
  obtain ⟨hsome, _⟩ := h.entry c k hk hobj
  unfold Vectra.closeSlot
  dsimp only
  generalize hx₀ : ((u.state.tables c).entries k).object = x at *
  obtain ⟨hd, hx⟩ := Option.isSome_iff_exists.mp hsome
  obtain ⟨a, ha, hcounts⟩ := h.counts x hd hx
  obtain ⟨_, _, hhandle, _⟩ := h.read hx
  have hmem : (c, k) ∈ u.state.naming x := ⟨hk, hx₀⟩
  have hfin := h.finite x hobj
  have hpos : 0 < (u.state.naming x).ncard := (Set.ncard_pos hfin).mpr ⟨_, hmem⟩
  have hlt : hd.handleCount < 2 ^ 32 := by
    rw [← hhandle]
    exact lt_of_lt_of_eq (objHandleCount.get_lt _ _) (by norm_num [objHandleCount])
  have hval : (objHandleCount.get u.state.mem x + 2 ^ 32 - 1) % 2 ^ 32 % 2 ^ 32 =
      hd.handleCount - 1 := by
    have hcount := hcounts.handleCount
    rw [hhandle, Nat.mod_mod]
    omega
  have hheap := ObHeap.setHandleCount h.heap hx
    ((objHandleCount.get u.state.mem x + 2 ^ 32 - 1) % 2 ^ 32)
  rw [hval] at hheap
  generalize hs₁ : ({ u.state with
    tables := Function.update u.state.tables c ((u.state.tables c).clearSlot k)
    mem := atomicFetchSub objHandleCount u.state.mem x 1 } : ObState n T) = s₁
  have htables : s₁.tables =
      Function.update u.state.tables c ((u.state.tables c).clearSlot k) := by rw [← hs₁]
  have hentries : ((u.state.tables c).clearSlot k).entries =
      Function.update (u.state.tables c).entries
      k { (u.state.tables c).entries k with object := 0 } := rfl
  have hnaming : s₁.naming x = u.state.naming x \ {(c, k)} :=
    naming_clear hobj htables hentries rfl
  have htouch : ObInv types slack ⟨s₁, u.ledger⟩ o nodes E
      (Function.update V x (some { hd with handleCount := hd.handleCount - 1 })) := by
    refine h.touch hx (by rw [← hs₁]; exact hheap) (by rw [← hs₁]; exact h.next_lt) ha
      ⟨hcounts.type, hcounts.id, hcounts.generation, hcounts.refcount, ?_⟩ (h.derefs x a ha)
        ?_ ?_ ?_
    · simp only [hnaming]
      rw [Set.ncard_sdiff_singleton_of_mem hmem, hcounts.handleCount]
    · simp only [hnaming]
      exact hfin.subset Set.sdiff_subset
    · intro y hy
      exact ⟨rfl, fun hy0 => naming_set_other htables hentries (by rw [hx₀]; exact Ne.symm hy)
        (Ne.symm hy0)⟩
    · intro d j hj hne
      simp only [htables, entries_set hentries] at hne ⊢
      split at hne
      · exact absurd rfl hne
      · rename_i hdj
        exact Or.inl (if_neg hdj)
  have hx' := Function.update_self x (some { hd with handleCount := hd.handleCount - 1 }) V
  obtain ⟨t, hs, hcase⟩ := htouch.maybeDestroy hx' ha
  simp only at hs
  rcases hcase with ⟨hgo, rfl⟩ | ⟨hgo, o', nodes', hdes, hinv⟩
  · refine ⟨_, hs, htables, by simp only [← hs₁], o, nodes, E, _, htouch,
      .count x hd _ hx rfl rfl ?_ (by simp only [← hs₁]) (by simp only [← hs₁]) rfl⟩
    intro hzero
    simp only at hgo hzero ⊢
    omega
  · rw [Function.update_idem] at hinv
    simp only at hdes
    have hbucket : s₁.bucket = u.state.bucket := by rw [← hs₁]; rfl
    simp only [hbucket] at hinv
    refine ⟨t, hs, hdes.tables.trans htables, ?_, o', nodes', _, _, hinv,
      .destroyed a.type x hd hx hcounts.type hgo.2.2 ?_ ?_ rfl⟩
    · simp only [hdes.nbuckets, ← hs₁]
    · simp only [hdes.nextObjectId, ← hs₁]
    · simp only [hdes.calls, ← hs₁]

/-- The state after a grant of the object `x` in the free slot `k`. -/
def grantState (arch : Arch) (s : ObState n T) (c : T) (k x rights : ℕ) : ObState n T :=
  { s with
    tables := Function.update s.tables c ((s.tables c).fillSlot arch k x rights 0)
    mem := atomicFetchAdd objHandleCount s.mem x 1 }

/-- `object_grant` fails when the rights are too many or no slot is free, and else fills
a free slot. -/
theorem grant_cases (h : ObInv types slack u o nodes E V) (arch : Arch) (c : T) (rights : ℕ)
    (howned : u.Owned x) :
    ∃ a, u.ledger.tally x = some a ∧
      ((rights &&& (types a.type).defaultRights ≠ rights ∨ (u.state.tables c).freeSlot = none) ∧
          objectGrant types arch u.state c x rights = some (capInvalid, u.state) ∨
        rights &&& (types a.type).defaultRights = rights ∧
          ∃ k, (u.state.tables c).freeSlot = some k ∧
            objectGrant types arch u.state c x rights =
              some (k, grantState arch u.state c k x rights)) := by
  obtain ⟨a, hd, ha, hx, hcounts, _⟩ := h.owned howned
  obtain ⟨htype, _, _, hgen, _⟩ := h.read hx
  rw [hcounts.type] at htype
  rw [hcounts.generation] at hgen
  have hlt : objTypeId.get u.state.mem x < n := htype ▸ a.type.isLt
  have hfin : (⟨objTypeId.get u.state.mem x, hlt⟩ : Fin n) = a.type := Fin.ext htype
  refine ⟨a, ha, ?_⟩
  unfold objectGrant
  rw [dif_pos hlt, hfin]
  by_cases hrights : rights &&& (types a.type).defaultRights = rights
  · rw [if_neg (not_not.mpr hrights)]
    cases hslot : (u.state.tables c).freeSlot with
    | none => exact Or.inl ⟨Or.inr rfl, rfl⟩
    | some k =>
        refine Or.inr ⟨hrights, k, rfl, ?_⟩
        simp only [hgen, grantState]
  · rw [if_pos hrights]
    exact Or.inl ⟨Or.inl hrights, rfl⟩

/-- A grant that succeeds. -/
theorem grant (h : ObInv types slack u o nodes E V) (howned : u.Owned x)
    (hk : (u.state.tables c).freeSlot = some k)
    (hs : v.state = grantState arch u.state c k x rights)
    (hl : v.ledger = u.ledger) (hb : v.Bounded) : ObNext types slack u v E V := by
  obtain ⟨s, L⟩ := v
  obtain rfl : s = grantState arch u.state c k x rights := hs
  obtain rfl : L = u.ledger := hl
  obtain ⟨a, hd, ha, hx, hcounts, hheld⟩ := h.owned howned
  obtain ⟨hklt, hkfree⟩ := CapTable.freeSlot_some hk
  have hx0 := (ObHeap.addr h.heap hx).1
  obtain ⟨_, _, hhandle, _⟩ := h.read hx
  have hheap := ObHeap.setHandleCount h.heap hx
    ((objHandleCount.get u.state.mem x + 1) % 2 ^ 32)
  have hx' := Function.update_self x
    (some { hd with handleCount := (objHandleCount.get u.state.mem x + 1) % 2 ^ 32 % 2 ^ 32 }) V
  have hlt := (bounded (v := ⟨grantState arch u.state c k x rights, u.ledger⟩) hheap hx'
    hcounts.type ha hb).2
  have hentries : ((u.state.tables c).fillSlot arch k x rights 0).entries =
      Function.update (u.state.tables c).entries k ⟨x, rights, 0⟩ := rfl
  have htables : (grantState arch u.state c k x rights).tables =
      Function.update u.state.tables c ((u.state.tables c).fillSlot arch k x rights 0) := rfl
  have hnaming : (grantState arch u.state c k x rights).naming x =
      insert (c, k) (u.state.naming x) := naming_fill hklt htables hentries rfl
  have hnot : (c, k) ∉ u.state.naming x := by
    rintro ⟨_, hobj⟩
    exact hx0 (hobj.symm.trans hkfree)
  have hfin := h.finite x hx0
  have hcard : ((grantState arch u.state c k x rights).naming x).ncard =
      (u.state.naming x).ncard + 1 := by
    rw [hnaming]
    exact Set.ncard_insert_of_notMem hnot hfin
  have hval : (objHandleCount.get u.state.mem x + 1) % 2 ^ 32 % 2 ^ 32 =
      ((grantState arch u.state c k x rights).naming x).ncard := by
    simp only at hlt
    rw [hhandle, hcounts.handleCount, Nat.mod_mod, hcard]
    exact Nat.mod_eq_of_lt (by omega)
  rw [hval] at hheap
  refine ⟨rfl, o, nodes, E, _, h.touch hx hheap h.next_lt ha
    ⟨hcounts.type, hcounts.id, hcounts.generation, hcounts.refcount, rfl⟩ (h.derefs x a ha)
      ?_ ?_ ?_,
    .count x hd _ hx rfl rfl (fun _ => Or.inl ?_) rfl rfl rfl⟩
  · simp only [hnaming]
    exact hfin.insert _
  · intro y hy
    refine ⟨rfl, fun hy0 => naming_set_other htables hentries ?_ (Ne.symm hy)⟩
    rw [hkfree]
    exact Ne.symm hy0
  · intro d j hj hne
    simp only [htables, entries_set hentries] at hne ⊢
    by_cases hdj : d = c ∧ j = k
    · refine Or.inr ?_
      rw [if_pos hdj]
      exact ⟨rfl, rfl⟩
    · exact Or.inl (if_neg hdj)
  · simp only [hcounts.refcount]
    exact hheld

/-- `cap_lookup` finds the object of a bound entry that has the rights, and else fails; no
entry is stale. -/
theorem lookup_eq (h : ObInv types slack u o nodes E V) :
    capLookup types u.state c k rights =
      if k < capTableMax ∧ ((u.state.tables c).entries k).object ≠ 0 ∧
          ((u.state.tables c).entries k).rights &&& rights = rights then
        some (((u.state.tables c).entries k).object,
          objectRef u.state ((u.state.tables c).entries k).object)
      else some (0, u.state) := by
  unfold capLookup
  by_cases hk : k < capTableMax
  · rw [if_neg (by omega)]
    dsimp only
    by_cases hobj : ((u.state.tables c).entries k).object = 0
    · rw [if_pos hobj, if_neg fun hand => hand.2.1 hobj]
    · obtain ⟨hsome, hgen⟩ := h.entry c k hk hobj
      obtain ⟨hd, hx⟩ := Option.isSome_iff_exists.mp hsome
      obtain ⟨a, _, hcounts⟩ := h.counts _ hd hx
      have hread := (h.read hx).2.2.2.1
      rw [if_neg hobj, if_neg (by rw [hread, hcounts.generation, hgen]; exact not_not.mpr rfl)]
      by_cases hrights : ((u.state.tables c).entries k).rights &&& rights = rights
      · rw [if_neg (not_not.mpr hrights), if_pos ⟨hk, hobj, hrights⟩]
      · rw [if_pos hrights, if_neg fun hand => hrights hand.2.2]
  · rw [if_pos (by omega), if_neg fun hand => hk hand.1]

/-- `object_close` fails on an unbound handle. -/
theorem close_eq (s : ObState n T) :
    objectClose types s c k =
      if k < capTableMax ∧ ((s.tables c).entries k).object ≠ 0 then
        (Vectra.closeSlot types s c k).map fun s => (0, s)
      else some (-1, s) := by
  unfold objectClose
  by_cases hk : k < capTableMax
  · rw [if_neg (by omega)]
    by_cases hobj : ((s.tables c).entries k).object = 0
    · rw [if_pos hobj, if_neg fun hand => hand.2 hobj]
    · rw [if_neg hobj, if_pos ⟨hk, hobj⟩]
  · rw [if_pos (by omega), if_neg fun hand => hk hand.1]

theorem close_returns (h : ObInv types slack u o nodes E V) (c : T) (k : ℕ) :
    ∃ r t, objectClose types u.state c k = some (r, t) := by
  rw [close_eq]
  split
  · rename_i hbound
    obtain ⟨t, ht, _⟩ := h.closeSlot hbound.1 hbound.2
    rw [ht]
    exact ⟨_, _, rfl⟩
  · exact ⟨_, _, rfl⟩

/-- Every call keeps the invariant and has one of the effects. -/
theorem next {op : ObOp n T} (h : ObInv types slack u o nodes E V)
    (hs : ObStep types arch u op v) (hb : v.Bounded) : ObNext types slack u v E V := by
  obtain ⟨hcaller, hcall, hl⟩ := hs
  cases op with
  | create i args r => exact h.create hcall hl
  | ref x =>
      obtain ⟨a, hlive⟩ := hcaller
      have hderefs := h.derefs x a hlive.1
      refine h.addRef hlive hcall hl rfl rfl ?_ ?_ hb
      · simp only [Tally.held]
        omega
      · simp only
        omega
  | deref x =>
      obtain ⟨t, hs, hnext⟩ := h.deref hcaller
      obtain ⟨s, L⟩ := v
      obtain rfl : t = s := Option.some.inj (hs.symm.trans hcall)
      obtain rfl : L = u.ledger.after u.state.nextObjectId (.deref x : ObOp n T) := hl
      exact hnext
  | grant c x rights r =>
      obtain ⟨a, _, ⟨_, hs⟩ | ⟨_, k, hk, hs⟩⟩ :=
        h.grant_cases arch c rights hcaller
      · have hstate := (Prod.mk.inj (Option.some.inj (hs.symm.trans hcall))).2
        exact h.keep hstate.symm hl
      · have hstate := (Prod.mk.inj (Option.some.inj (hs.symm.trans hcall))).2
        exact h.grant hcaller hk hstate.symm hl hb
  | close c k r =>
      have hcall' : objectClose types u.state c k = some (r, v.state) := hcall
      rw [close_eq] at hcall'
      split at hcall'
      · rename_i hbound
        obtain ⟨t, ht, _, hnext⟩ := h.closeSlot hbound.1 hbound.2
        rw [ht] at hcall'
        have hstate := (Prod.mk.inj (Option.some.inj hcall')).2
        obtain ⟨s, L⟩ := v
        obtain rfl : t = s := hstate
        obtain rfl : L = u.ledger := hl
        exact hnext
      · exact h.keep (Prod.mk.inj (Option.some.inj hcall')).2.symm hl
  | lookup c k rights r =>
      have hcall' : capLookup types u.state c k rights = some (r, v.state) := hcall
      rw [h.lookup_eq] at hcall'
      split at hcall'
      · rename_i hbound
        obtain ⟨hk, hobj, _⟩ := hbound
        obtain ⟨hr, hstate⟩ := Prod.mk.inj (Option.some.inj hcall')
        obtain ⟨hsome, _⟩ := h.entry c k hk hobj
        rw [hr] at hobj hsome hstate
        obtain ⟨hd, hx⟩ := Option.isSome_iff_exists.mp hsome
        obtain ⟨a, hlive, _⟩ := h.live_of_some hx
        have hderefs := h.derefs r a hlive.1
        simp only [Ledger.after, if_neg hobj] at hl
        refine h.addRef hlive hstate.symm hl rfl rfl ?_ ?_ hb
        · simp only [Tally.held]
          omega
        · simp only
          omega
      · obtain ⟨hr, hstate⟩ := Prod.mk.inj (Option.some.inj hcall')
        subst hr
        exact h.keep hstate.symm hl

end ObInv

/-- The invariant holds of the state after `ob_init`. -/
theorem ObBoot.inv {types : Fin n → ObjectType} {u : ObRun n T} (h : ObBoot types u) :
    ∃ slack, ObInv types slack u ⟨fun _ => [], fun _ => []⟩ (fun _ => []) (fun _ => [])
      fun _ => none := by
  obtain ⟨slack, hp⟩ := h.pmm
  obtain ⟨raw, ht⟩ := h.idTable
  have hbase := h.base_pos
  have hroom := h.room
  have hnode : u.state.idTable.nodeCache = newSlabCache hashNodeSize := by
    rw [ht]
    rfl
  have hnew : ∀ i, ∃ size, obCache u.state.slabs u.state.idTable i = newSlabCache size ∧
      SlabFits u.state.pmm (slabObjSize size) := by
    intro i
    cases i with
    | node => exact ⟨hashNodeSize, hnode, slabObjSize_fits hbase hroom (by decide)⟩
    | type i =>
        refine ⟨(types i).instanceSize, h.slabs i, ?_⟩
        have hroom' := h.type_room i
        have hge := h.ok.header_le i
        have hsize : slabObjSize (types i).instanceSize = ((types i).instanceSize + 7) / 8 * 8 := by
          unfold objectHeaderSize at hge
          unfold slabObjSize
          rw [if_neg (by omega), alignUp_eight (by omega)]
        unfold objectHeaderSize at hge
        refine ⟨?_, ?_, hbase, ?_⟩ <;> rw [hsize] <;> omega
  have hheld : ∀ i x, ¬ SlabOwn.Held ⟨fun _ => [], fun _ => []⟩
      (obCache u.state.slabs u.state.idTable) i x := by
    rintro i x ⟨⟨page, hpage, _⟩, _⟩
    cases hpage
  have hempty : ∀ x, x ≠ 0 → u.state.naming x = ∅ := by
    intro x hx
    ext ⟨c, k⟩
    simp only [ObState.naming, Set.mem_ofPred_eq, h.tables c, Set.mem_empty_iff_false, iff_false]
    exact fun hand => hx hand.2.symm
  refine ⟨slack, ⟨⟨h.ok, ⟨hp, ?_, ?_, ?_⟩, ⟨rfl, ?_, ?_, ?_, ?_, ?_, ?_⟩,
    ?_, ?_, fun _ _ => rfl⟩, ?_,
    ?_, ?_, ?_, ?_, ?_⟩⟩
  · intro i
    obtain ⟨size, hi, hfits⟩ := hnew i
    rw [hi]
    exact hfits
  · intro i
    obtain ⟨size, hi, _⟩ := hnew i
    rw [hi]
    exact .new _ _ _
  · intro i j _ page hpage
    cases hpage
  · rw [hnode]
    rfl
  · rw [ht]
    exact Nat.succ_pos 4095
  · intro b hb
    rw [ht] at hb ⊢
    have hlt : b < 4096 := hb
    exact if_pos (by omega)
  · intro b _ x hx
    cases hx
  · intro b _ x hx
    cases hx
  · exact fun _ _ => rfl
  · intro i
    rw [h.slabs i]
    have hge := h.ok.header_le i
    have hroom' := h.type_room i
    unfold objectHeaderSize at hge
    change _ ≤ slabObjSize (types i).instanceSize
    unfold slabObjSize
    rw [if_neg (by omega), alignUp_eight (by omega)]
    omega
  · intro i x hx
    exact absurd hx (hheld _ x)
  · rw [h.nextObjectId]
    norm_num
  · intro x hd hx
    cases hx
  · intro x a ha
    rw [h.ledger] at ha
    cases ha
  · intro x a ha
    rw [h.ledger] at ha
    cases ha
  · intro c k _ hobj
    rw [h.tables c] at hobj
    exact absurd rfl hobj
  · intro x hx
    rw [hempty x hx]
    exact Set.finite_empty

/-- The invariant in every reachable state. -/
theorem ObBoot.run [DecidableEq T] {types : Fin n → ObjectType} {arch : Arch} {u v : ObRun n T}
    {ops : List (ObOp n T)} (hboot : ObBoot types u)
    (hrun : Run (BoundedStep types arch) u ops v) :
    ∃ slack o nodes E V, ObInv types slack v o nodes E V := by
  obtain ⟨slack, hinv⟩ := hboot.inv
  obtain ⟨o, nodes, E, V, hv⟩ := hrun.invariant
    (I := fun w => ∃ o nodes E V, ObInv types slack w o nodes E V) (by
      rintro w op w' ⟨o, nodes, E, V, hw⟩ ⟨hstep, hb⟩
      obtain ⟨_, o', nodes', E', V', hinv', _⟩ := hw.next hstep hb
      exact ⟨o', nodes', E', V', hinv'⟩) ⟨_, _, _, _, hinv⟩
  exact ⟨slack, o, nodes, E, V, hv⟩

section Range

variable {types : Fin n → ObjectType} {x : ℕ} {s t : ObState n T}

/-- The destruction of an object takes no frame. -/
theorem objectMaybeDestroy_pmm (hs : objectMaybeDestroy types s x = some t) : t.pmm = s.pmm := by
  unfold objectMaybeDestroy objectDestroy at hs
  split at hs
  · split at hs
    · dsimp only at hs
      split at hs
      · cases hs
      · cases hs
        rfl
    · cases hs
  · cases hs
    rfl

theorem closeSlot_pmm [DecidableEq T] {c : T} {k : ℕ} (hs : closeSlot types s c k = some t) :
    t.pmm = s.pmm := by
  unfold closeSlot at hs
  have hpmm := objectMaybeDestroy_pmm hs
  exact hpmm

/-- A call takes frames of the same range. -/
theorem ObCall.sameRange [DecidableEq T] {slack : ℕ} {arch : Arch} {u : ObRun n T}
    {o : SlabOwn (SlabId n)} {nodes : ℕ → List ℕ} {E : ℕ → List (ℕ × ℕ)}
    {V : ℕ → Option ObjectHeader} {op : ObOp n T} (h : ObInv types slack u o nodes E V) (hs : ObCall types arch u.state op t) :
    SameRange u.state.pmm t.pmm := by
  suffices heq : t.pmm = u.state.pmm ∨ SameRange u.state.pmm t.pmm by
    rcases heq with heq | hrange
    · rw [heq]
      exact .refl _
    · exact hrange
  cases op with
  | create i args r =>
      obtain ⟨_, _, hcr, _⟩ := ObHeap.objectCreate h.heap h.next_lt hs
      exact Or.inr hcr.sameRange
  | ref y =>
      cases hs
      exact Or.inl rfl
  | deref y =>
      simp only [ObCall, objectDeref] at hs
      split at hs
      · have hpmm := objectMaybeDestroy_pmm hs
        exact Or.inl hpmm
      · cases hs
        exact Or.inl rfl
  | grant c y rights r =>
      simp only [ObCall, objectGrant] at hs
      split at hs
      · split at hs
        · cases hs
          exact Or.inl rfl
        · split at hs <;> cases hs <;> exact Or.inl rfl
      · cases hs
  | close c k r =>
      simp only [ObCall, objectClose] at hs
      split at hs
      · cases hs
        exact Or.inl rfl
      · split at hs
        · cases hs
          exact Or.inl rfl
        · obtain ⟨v, hv, hvt⟩ := Option.map_eq_some_iff.mp hs
          cases hvt
          exact Or.inl (closeSlot_pmm hv)
  | lookup c k rights r =>
      simp only [ObCall, capLookup] at hs
      split at hs
      · cases hs
        exact Or.inl rfl
      · split at hs
        · cases hs
          exact Or.inl rfl
        · split at hs
          · obtain ⟨v, hv, hvt⟩ := Option.map_eq_some_iff.mp hs
            cases hvt
            exact Or.inl (closeSlot_pmm hv)
          · split at hs <;> cases hs <;> exact Or.inl rfl

theorem ObBoot.run_range [DecidableEq T] {arch : Arch} {u v : ObRun n T}
    {ops : List (ObOp n T)} (hboot : ObBoot types u)
    (hrun : Run (BoundedStep types arch) u ops v) : SameRange u.state.pmm v.state.pmm := by
  obtain ⟨slack, hinv⟩ := hboot.inv
  have hall := hrun.invariant (I := fun w => SameRange u.state.pmm w.state.pmm ∧
    ∃ o nodes E V, ObInv types slack w o nodes E V) (by
      rintro w op w' ⟨hrange, o, nodes, E, V, hw⟩ ⟨hstep, hb⟩
      obtain ⟨_, o', nodes', E', V', hinv', _⟩ := hw.next hstep hb
      exact ⟨hrange.trans (ObCall.sameRange hw hstep.call), o', nodes', E', V', hinv'⟩)
      ⟨.refl _, _, _, _, _, hinv⟩
  exact hall.1

end Range

end Vectra

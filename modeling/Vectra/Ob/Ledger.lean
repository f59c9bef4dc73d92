import Mathlib.Data.Set.Card
import Vectra.Ob.Steps

/-!
# The ledger of the object calls

Next to the state of the object manager a ledger keeps the calls and their results:
which addresses `object_create` returned, and how often each object was referenced,
looked up and dereferenced since. It knows nothing about the counts in the headers.
-/

namespace Vectra

open Lib SlabMem

inductive ObOp (n : ℕ) (T : Type)
  | create (type : Fin n) (createArgs result : ℕ)
  | ref (obj : ℕ)
  | deref (obj : ℕ)
  | grant (table : T) (obj rights result : ℕ)
  | close (table : T) (handle : ℕ) (result : ℤ)
  | lookup (table : T) (handle rights result : ℕ)

/-- The calls on an object since it was created with this type and id. -/
structure Tally (n : ℕ) where
  type : Fin n
  id : ℕ
  refs : ℕ
  lookups : ℕ
  derefs : ℕ

/-- The references that are held: one from `object_create`, and one from each
`object_ref` and each successful `cap_lookup`, less the `object_deref` calls. -/
def Tally.held {n : ℕ} (a : Tally n) : ℕ := 1 + a.refs + a.lookups - a.derefs

/-- The tally of the last object created at each address, and how often an object was
created there. -/
structure Ledger (n : ℕ) where
  tally : ℕ → Option (Tally n)
  born : ℕ → ℕ

structure ObRun (n : ℕ) (T : Type) where
  state : ObState n T
  ledger : Ledger n

variable {n : ℕ} {T : Type}

def Ledger.count (L : Ledger n) (x : ℕ) (f : Tally n → Tally n) : Ledger n :=
  { L with tally := Function.update L.tally x ((L.tally x).map f) }

/-- The ledger after a call; `id` is the next object id. -/
def Ledger.after (L : Ledger n) (id : ℕ) : ObOp n T → Ledger n
  | .create i _ r =>
      if r = 0 then L
      else ⟨Function.update L.tally r (some ⟨i, id, 0, 0, 0⟩),
        Function.update L.born r (L.born r + 1)⟩
  | .ref x => L.count x fun a => { a with refs := a.refs + 1 }
  | .deref x => L.count x fun a => { a with derefs := a.derefs + 1 }
  | .lookup _ _ _ r => if r = 0 then L else L.count r fun a => { a with lookups := a.lookups + 1 }
  | .grant .. | .close .. => L

/-- The slot `x` is back in the slab of type `i`. -/
def ObState.Freed (s : ObState n T) (i : Fin n) (x : ℕ) : Prop :=
  ∃ free, Chain (link s.mem) (s.slabs i).freeObjects free ∧ x ∈ free

/-- The table entries that name an object. -/
def ObState.naming (s : ObState n T) (x : ℕ) : Set (T × ℕ) :=
  {p | p.2 < capTableMax ∧ ((s.tables p.1).entries p.2).object = x}

/-- An object that was created and is not destroyed. -/
def ObRun.Live (u : ObRun n T) (x : ℕ) (a : Tally n) : Prop :=
  u.ledger.tally x = some a ∧ ¬ u.state.Freed a.type x

/-- Somebody holds a reference to the object. -/
def ObRun.Owned (u : ObRun n T) (x : ℕ) : Prop := ∃ a, u.ledger.tally x = some a ∧ 0 < a.held

/-- Callers reference objects that exist, and dereference and grant objects they hold. -/
def CallerOk (u : ObRun n T) : ObOp n T → Prop
  | .ref x => ∃ a, u.Live x a
  | .deref x => u.Owned x
  | .grant _ x _ _ => u.Owned x
  | _ => True

/-- The call returns, with this result and state. -/
def ObCall [DecidableEq T] (types : Fin n → ObjectType) (arch : Arch) (s : ObState n T)
    (op : ObOp n T) (t : ObState n T) : Prop :=
  match op with
  | .create i args r => objectCreate types s i args = some (r, t)
  | .ref x => t = objectRef s x
  | .deref x => objectDeref types s x = some t
  | .grant c x rights r => objectGrant types arch s c x rights = some (r, t)
  | .close c h r => objectClose types s c h = some (r, t)
  | .lookup c h rights r => capLookup types s c h rights = some (r, t)

structure ObStep [DecidableEq T] (types : Fin n → ObjectType) (arch : Arch) (u : ObRun n T)
    (op : ObOp n T) (v : ObRun n T) : Prop where
  caller : CallerOk u op
  call : ObCall types arch u.state op v.state
  ledger : v.ledger = u.ledger.after u.state.nextObjectId op

/-- Fewer than 2^32 references and handles of each object are outstanding. -/
def ObRun.Bounded (u : ObRun n T) : Prop :=
  ∀ x a, u.Live x a → a.held < 2 ^ 32 ∧ (u.state.naming x).ncard < 2 ^ 32

def BoundedStep [DecidableEq T] (types : Fin n → ObjectType) (arch : Arch) (u : ObRun n T)
    (op : ObOp n T) (v : ObRun n T) : Prop :=
  ObStep types arch u op v ∧ v.Bounded

/-- The state after `ob_init` and the registration of the types, with new capability
tables; the frames and all memory are as they happen to be. -/
structure ObBoot (types : Fin n → ObjectType) (u : ObRun n T) : Prop where
  ok : TypesOk types
  pmm : ∃ slack, PmmInv slack u.state.pmm
  base_pos : 0 < u.state.pmm.memPhysBase
  room : u.state.pmm.memPhysBase + u.state.pmm.totalFrames * pageSize + pageSize ≤ 2 ^ 64
  type_room : ∀ i, u.state.pmm.memPhysBase + u.state.pmm.totalFrames * pageSize +
    (types i).instanceSize + 8 ≤ 2 ^ 64
  slabs : ∀ i, u.state.slabs i = newSlabCache (types i).instanceSize
  idTable : ∃ raw, u.state.idTable = hashtableInit raw 4096
  nextObjectId : u.state.nextObjectId = 1
  tables : ∀ c, u.state.tables c = capTableCreate
  destroyCalls : u.state.destroyCalls = []
  ledger : u.ledger = ⟨fun _ => none, fun _ => 0⟩

/-- The header of an object agrees with its tally. -/
structure Counts (s : ObState n T) (a : Tally n) (x : ℕ) (hd : ObjectHeader) : Prop where
  type : hd.typeId = a.type
  id : hd.objectId = a.id
  generation : hd.generation = 0
  refcount : hd.refcount = a.held
  handleCount : hd.handleCount = (s.naming x).ncard

/-- The invariant of the runs: `V` maps the live objects to their headers. -/
structure ObInv (types : Fin n → ObjectType) (slack : ℕ) (u : ObRun n T)
    (o : SlabOwn (SlabId n)) (nodes : ℕ → List ℕ) (E : ℕ → List (ℕ × ℕ))
    (V : ℕ → Option ObjectHeader) : Prop where
  heap : u.state.Holds types slack o nodes E V
  next_lt : u.state.nextObjectId < 2 ^ 32
  counts : ∀ x hd, V x = some hd → ∃ a, u.ledger.tally x = some a ∧ Counts u.state a x hd
  freed : ∀ x a, u.ledger.tally x = some a → V x = none →
    x ∈ o.free (.type a.type) ∧ a.held = 0
  derefs : ∀ x a, u.ledger.tally x = some a → a.derefs ≤ 1 + a.refs + a.lookups
  entry : ∀ c h, h < capTableMax → ((u.state.tables c).entries h).object ≠ 0 →
    (V ((u.state.tables c).entries h).object).isSome ∧ ((u.state.tables c).entries h).generation = 0
  finite : ∀ x, x ≠ 0 → (u.state.naming x).Finite
/-- The slot of a live object is not in the slab. -/
theorem ObState.not_freed {types : Fin n → ObjectType} {slack x : ℕ} {s : ObState n T}
    {o : SlabOwn (SlabId n)} {nodes : ℕ → List ℕ} {E : ℕ → List (ℕ × ℕ)}
    {V : ℕ → Option ObjectHeader} {hd : ObjectHeader} {i : Fin n}
    (h : s.Holds types slack o nodes E V) (hx : V x = some hd) (hi : hd.typeId = i) :
    ¬ s.Freed i x := by
  rintro ⟨free, hchain, hmem⟩
  obtain ⟨j, htype, hheld, _⟩ := ObHeap.typeOf h hx
  have hij : j = i := Fin.ext (htype.symm.trans hi)
  subst hij
  have hfree := (h.family.slab (.type j)).freeChain
  rw [hchain.unique hfree] at hmem
  exact hheld.2 hmem

theorem Tally.held_add {n : ℕ} {a : Tally n} (h : a.derefs ≤ 1 + a.refs + a.lookups) :
    a.held + a.derefs = 1 + a.refs + a.lookups :=
  Nat.sub_add_cancel h

namespace Ledger

variable {L : Ledger n} {x y : ℕ} {f : Tally n → Tally n} {a : Tally n}

theorem count_self (h : L.tally x = some a) : (L.count x f).tally x = some (f a) := by
  simp [count, h]

theorem count_update (g : ℕ → Option (Tally n)) (born : ℕ → ℕ) :
    (⟨Function.update g x (some a), born⟩ : Ledger n).count x f =
      ⟨Function.update g x (some (f a)), born⟩ := by
  simp [count]

theorem count_of_ne (h : y ≠ x) : (L.count x f).tally y = L.tally y :=
  Function.update_of_ne h _ _

end Ledger

namespace ObInv

variable {types : Fin n → ObjectType} {slack x y : ℕ} {u v : ObRun n T}
  {o o' : SlabOwn (SlabId n)} {nodes nodes' : ℕ → List ℕ} {E E' : ℕ → List (ℕ × ℕ)}
  {V : ℕ → Option ObjectHeader} {hd hd' : ObjectHeader} {a : Tally n}

theorem freed_iff (h : ObInv types slack u o nodes E V) (ha : u.ledger.tally x = some a) :
    u.state.Freed a.type x ↔ V x = none := by
  constructor
  · intro hfreed
    cases hx : V x with
    | none => rfl
    | some hd =>
        obtain ⟨b, hb, hcounts⟩ := h.counts x hd hx
        cases ha.symm.trans hb
        exact absurd hfreed (ObState.not_freed h.heap hx hcounts.type)
  · intro hx
    exact ⟨_, (h.heap.family.slab (.type a.type)).freeChain, (h.freed x a ha hx).1⟩

theorem live_iff (h : ObInv types slack u o nodes E V) :
    u.Live x a ↔ u.ledger.tally x = some a ∧ ∃ hd, V x = some hd := by
  refine and_congr_right fun ha => ?_
  rw [h.freed_iff ha, ← Ne, Option.ne_none_iff_exists']

theorem live_of_some (h : ObInv types slack u o nodes E V) (hx : V x = some hd) :
    ∃ a, u.Live x a ∧ Counts u.state a x hd := by
  obtain ⟨a, ha, hcounts⟩ := h.counts x hd hx
  exact ⟨a, h.live_iff.mpr ⟨ha, hd, hx⟩, hcounts⟩

/-- Who holds a reference holds it to a live object. -/
theorem owned (h : ObInv types slack u o nodes E V) (hx : u.Owned x) :
    ∃ a hd, u.ledger.tally x = some a ∧ V x = some hd ∧ Counts u.state a x hd ∧ 0 < a.held := by
  obtain ⟨a, ha, hheld⟩ := hx
  cases hV : V x with
  | none =>
      have hzero := (h.freed x a ha hV).2
      omega
  | some hd =>
      obtain ⟨b, hb, hcounts⟩ := h.counts x hd hV
      cases ha.symm.trans hb
      exact ⟨a, hd, ha, rfl, hcounts, hheld⟩

/-- Tables name live objects only. -/
theorem naming_eq_empty (h : ObInv types slack u o nodes E V) (hx : x ≠ 0) (hV : V x = none) :
    u.state.naming x = ∅ := by
  ext ⟨c, hdl⟩
  simp only [ObState.naming, Set.mem_ofPred_eq, Set.mem_empty_iff_false, iff_false, not_and]
  intro hlt hobj
  obtain ⟨hsome, _⟩ := h.entry c hdl hlt (by rw [hobj]; exact hx)
  rw [hobj, hV] at hsome
  cases hsome

/-- A call that changes the counts of one live object, and entries that name it. -/
theorem touch (h : ObInv types slack u o nodes E V) (hx : V x = some hd)
    (hheap : v.state.Holds types slack o nodes E (Function.update V x (some hd')))
    (hnext : v.state.nextObjectId < 2 ^ 32)
    (ha : v.ledger.tally x = some a) (hcounts : Counts v.state a x hd')
    (hderefs : a.derefs ≤ 1 + a.refs + a.lookups) (hfin : (v.state.naming x).Finite)
    (hother : ∀ y, y ≠ x → v.ledger.tally y = u.ledger.tally y ∧
      (y ≠ 0 → v.state.naming y = u.state.naming y))
    (hentry : ∀ c k, k < capTableMax → ((v.state.tables c).entries k).object ≠ 0 →
      (v.state.tables c).entries k = (u.state.tables c).entries k ∨
        ((v.state.tables c).entries k).object = x ∧ ((v.state.tables c).entries k).generation = 0) :
    ObInv types slack v o nodes E (Function.update V x (some hd')) where
  heap := hheap
  next_lt := hnext
  counts y hd'' hy := by
    by_cases hyx : y = x
    · subst hyx
      rw [Function.update_self] at hy
      cases hy
      exact ⟨a, ha, hcounts⟩
    · rw [Function.update_of_ne hyx] at hy
      obtain ⟨b, hb, hc⟩ := h.counts y hd'' hy
      have hy0 := (ObHeap.addr h.heap hy).1
      refine ⟨b, by rw [(hother y hyx).1, hb], hc.type, hc.id, hc.generation, hc.refcount, ?_⟩
      rw [(hother y hyx).2 hy0]
      exact hc.handleCount
  freed y b hb hy := by
    by_cases hyx : y = x
    · subst hyx
      rw [Function.update_self] at hy
      cases hy
    · rw [Function.update_of_ne hyx] at hy
      rw [(hother y hyx).1] at hb
      exact h.freed y b hb hy
  derefs y b hb := by
    by_cases hyx : y = x
    · subst hyx
      cases ha.symm.trans hb
      exact hderefs
    · rw [(hother y hyx).1] at hb
      exact h.derefs y b hb
  entry c k hk hobj := by
    rcases hentry c k hk hobj with heq | ⟨hxk, hgen⟩
    · rw [heq] at hobj ⊢
      obtain ⟨hsome, hgen⟩ := h.entry c k hk hobj
      refine ⟨?_, hgen⟩
      by_cases hyx : ((u.state.tables c).entries k).object = x
      · rw [hyx, Function.update_self]
        rfl
      · rw [Function.update_of_ne hyx]
        exact hsome
    · rw [hxk, Function.update_self]
      exact ⟨rfl, hgen⟩
  finite y hy := by
    by_cases hyx : y = x
    · subst hyx
      exact hfin
    · rw [(hother y hyx).2 hy]
      exact h.finite y hy
end ObInv

/-! ## Table entries -/

section Entries

variable [DecidableEq T] {s t : ObState n T} {c : T} {k x y : ℕ} {tb : CapTable} {e : CapEntry}

theorem entries_set (htb : tb.entries = Function.update (s.tables c).entries k e) (d : T) (j : ℕ) :
    (Function.update s.tables c tb d).entries j =
      if d = c ∧ j = k then e else (s.tables d).entries j := by
  by_cases hd : d = c
  · subst hd
    rw [Function.update_self, htb]
    by_cases hj : j = k
    · rw [hj, Function.update_self, if_pos ⟨rfl, rfl⟩]
    · rw [Function.update_of_ne hj, if_neg fun hand => hj hand.2]
  · rw [Function.update_of_ne hd, if_neg fun hand => hd hand.1]

/-- The entries that name an object after one entry is written. -/
theorem mem_naming_set (ht : t.tables = Function.update s.tables c tb)
    (htb : tb.entries = Function.update (s.tables c).entries k e) (p : T × ℕ) :
    p ∈ t.naming x ↔ p.2 < capTableMax ∧
      (p = (c, k) ∧ e.object = x ∨ p ≠ (c, k) ∧ ((s.tables p.1).entries p.2).object = x) := by
  obtain ⟨d, j⟩ := p
  unfold ObState.naming
  rw [Set.mem_ofPred_eq, ht, entries_set htb]
  refine and_congr_right fun _ => ?_
  split
  · rename_i hp
    obtain ⟨rfl, rfl⟩ := hp
    simp
  · rename_i hp
    simp [hp]

theorem naming_set_other (ht : t.tables = Function.update s.tables c tb)
    (htb : tb.entries = Function.update (s.tables c).entries k e)
    (hold : ((s.tables c).entries k).object ≠ y) (hnew : e.object ≠ y) :
    t.naming y = s.naming y := by
  ext p
  rw [mem_naming_set ht htb]
  refine and_congr_right fun _ => ?_
  by_cases hp : p = (c, k)
  · subst hp
    simp [hold, hnew]
  · simp [hp]

theorem naming_fill (hk : k < capTableMax) (ht : t.tables = Function.update s.tables c tb)
    (htb : tb.entries = Function.update (s.tables c).entries k e) (hnew : e.object = x) :
    t.naming x = insert (c, k) (s.naming x) := by
  ext p
  rw [mem_naming_set ht htb, Set.mem_insert_iff]
  by_cases hp : p = (c, k)
  · subst hp
    simp [hk, hnew]
  · simp [hp, ObState.naming]

theorem naming_clear (hx : x ≠ 0) (ht : t.tables = Function.update s.tables c tb)
    (htb : tb.entries = Function.update (s.tables c).entries k e) (hnew : e.object = 0) :
    t.naming x = s.naming x \ {(c, k)} := by
  ext p
  rw [mem_naming_set ht htb, Set.mem_sdiff, Set.mem_singleton_iff]
  by_cases hp : p = (c, k)
  · subst hp
    simp [hnew, Ne.symm hx]
  · simp [hp, ObState.naming]

end Entries

/-! ## The free slot of a table -/

theorem CapTable.freeSlot_some {table : CapTable} {k : ℕ} (h : table.freeSlot = some k) :
    k < capTableMax ∧ (table.entries k).object = 0 := by
  obtain ⟨i, hi, rfl⟩ := Option.map_eq_some_iff.mp h
  obtain ⟨_, _, hfree, _⟩ := firstFrom_sound hi
  exact ⟨Nat.mod_lt _ (by decide), by simpa using hfree⟩

/-- From any hint the search looks at every slot. -/
theorem CapTable.freeSlot_none {table : CapTable} (h : table.freeSlot = none) {k : ℕ}
    (hk : k < capTableMax) : (table.entries k).object ≠ 0 := by
  have hall := firstFrom_eq_none_iff.mp (Option.map_eq_none_iff.mp h)
  obtain ⟨i, hi, hprobe⟩ : ∃ i < capTableMax, table.probe i = k := by
    unfold capTableMax at *
    refine ⟨(k + 4096 - table.nextFreeHint % 4096) % 4096, Nat.mod_lt _ (by decide), ?_⟩
    unfold CapTable.probe capTableMax
    omega
  have hfalse := hall i (Nat.zero_le i) (by omega)
  rw [hprobe] at hfalse
  simpa using hfalse

end Vectra

import Vectra.Ob.Allocations
import Vectra.Ob.Counts

/-!
# The test of the object manager

`object_test` registers a type, creates an object of it and a capability table, grants a handle
to the object, looks the handle up, drops its references and closes the handle, and after each
call it checks what it can see. From every reachable state its outcome is decided by three
things: what the calls that take memory give it, the flag that an earlier test may have left,
and one byte of the slot that the object gets.
-/

namespace Vectra

open Lib SlabMem

def rightRead : ℕ := 1 <<< 0

def rightWrite : ℕ := 1 <<< 1

/-- Where `object_test` ends. -/
inductive TestOutcome
  | creation
  | initialRefcount
  | capTableCreate
  | grant
  | handleCount
  | writeAllowed
  | readFailed
  | destroyedEarly
  | close
  | notDestroyed
  | passed
  deriving DecidableEq

/-- The last line that `object_test` logs. -/
def TestOutcome.line : TestOutcome → String
  | .creation => "[ob] FAIL: object creation"
  | .initialRefcount => "[ob] FAIL: initial refcount"
  | .capTableCreate => "[ob] FAIL: cap_table_create"
  | .grant => "[ob] FAIL: object_grant with RIGHT_READ"
  | .handleCount => "[ob] FAIL: handle_count after grant"
  | .writeAllowed => "[ob] FAIL: cap_lookup allowed RIGHT_WRITE when only RIGHT_READ granted"
  | .readFailed => "[ob] FAIL: cap_lookup RIGHT_READ failed"
  | .destroyedEarly => "[ob] FAIL: object destroyed early while handle_count > 0"
  | .close => "[ob] FAIL: object_close failed"
  | .notDestroyed => "[ob] FAIL: destroy callback did not fire after closing handle"
  | .passed => "[ob] PASS: handle_count dropped and destroy callback triggered"

/-- `test_object_create` only logs a line. -/
def testObjectCreate (_obj _args : ℕ) (m : Bytes) : ℤ × Bytes := (0, m)

/-- `test_object_destroy` on memory; that it sets `g_test_destroyed` shows in the calls. -/
def testObjectDestroy (_obj : ℕ) (m : Bytes) : Bytes := m

/-- The type that `object_test` registers, with 32 bytes of payload. -/
def testType : ObjectType where
  instanceSize := objectHeaderSize + 32
  create := some testObjectCreate
  destroy := some testObjectDestroy
  defaultRights := rightRead ||| rightWrite

variable {n : ℕ} {T : Type} [DecidableEq T]

/-- `g_test_destroyed` during the test, which starts with the flag as it is left and with
`calls` calls of `destroy` before it. -/
def testDestroyed (flag : Bool) (calls : ℕ) (s : ObState n T) : Bool :=
  flag || decide (calls < s.destroyCalls.length)

/-- The part of `object_test` behind the lookups. -/
def objectTestEnd (types : Fin n → ObjectType) (flag : Bool) (calls : ℕ) (s : ObState n T)
    (table : T) (obj handle : ℕ) : Option (TestOutcome × ObState n T) :=
  match objectDeref types s obj with
  | none => none
  | some s =>
      if testDestroyed flag calls s then some (.destroyedEarly, s)
      else
        match objectClose types s table handle with
        | none => none
        | some (ret, s) =>
            if ret ≠ 0 then some (.close, s)
            else if testDestroyed flag calls s then some (.passed, s)
            else some (.notDestroyed, s)

/-- The part of `object_test` behind the grant. -/
def objectTestHandle (types : Fin n → ObjectType) (flag : Bool) (calls : ℕ) (s : ObState n T)
    (table : T) (obj handle : ℕ) : Option (TestOutcome × ObState n T) :=
  if objHandleCount.get s.mem obj ≠ 1 then some (.handleCount, s)
  else
    match capLookup types s table handle rightWrite with
    | none => none
    | some (writeLookup, s) =>
        if writeLookup ≠ 0 then some (.writeAllowed, s)
        else
          match capLookup types s table handle rightRead with
          | none => none
          | some (readLookup, s) =>
              if readLookup ≠ obj then some (.readFailed, s)
              else
                match objectDeref types s readLookup with
                | none => none
                | some s => objectTestEnd types flag calls s table obj handle

/-- The heap over the memory of the objects. -/
def Heap.under (h : Heap) (s : ObState n T) : Heap := { h with mem := s.mem, pmm := s.pmm }

/-- The objects in the memory that a call of the heap has left. -/
def ObState.over (s : ObState n T) (h : Heap) : ObState n T := { s with mem := h.mem, pmm := h.pmm }

/-- The objects once one more type is registered. -/
def ObState.addType (s : ObState n T) (slab : SlabCache) : ObState (n + 1) T where
  mem := s.mem
  pmm := s.pmm
  slabs := Fin.snoc s.slabs slab
  idTable := s.idTable
  nextObjectId := s.nextObjectId
  tables := s.tables
  destroyCalls := s.destroyCalls

/-- The part of `object_test` behind the registration of its type. The new table is kept at
`table`. -/
def objectTestTyped (types : Fin n → ObjectType) (arch : Arch) (h : Heap) (s : ObState n T)
    (type : Fin n) (table : T) (flag : Bool) : Option (TestOutcome × ObState n T) :=
  let calls := s.destroyCalls.length
  match objectCreate types s type 0 with
  | none => none
  | some (obj, s) =>
      if obj = 0 then some (.creation, s)
      else if objRefcount.get s.mem obj ≠ 1 then some (.initialRefcount, s)
      else
        match capTableCreateAt (h.under s) with
        | none => none
        | some (capTable, h) =>
            if capTable = 0 then some (.capTableCreate, s.over h)
            else
              let s := { s.over h with
                tables := Function.update s.tables table (capTableView h.mem capTable) }
              match objectGrant types arch s table obj rightRead with
              | none => none
              | some (handle, s) =>
                  if handle = capInvalid then some (.grant, s)
                  else objectTestHandle types flag calls s table obj handle

/-- `object_test` in a kernel with the heap `h` and the types of `om`; `flag` is
`g_test_destroyed` before the call. -/
def objectTest (arch : Arch) (h : Heap) (om : ObjectManager) (s : ObState n T) (table : T)
    (flag : Bool) : Option (TestOutcome × ObState (n + 1) T) :=
  match objectTypeRegister (h.under s) om 32 (some testObjectCreate) (some testObjectDestroy) with
  | none => none
  | some (idx, h, om) =>
      let type := { om.types idx with defaultRights := rightRead ||| rightWrite }
      let types := Function.update om.types idx type
      let s := (s.over h).addType (h.cacheAt (om.slab idx))
      -- `slab_alloc` of a null cache returns null
      if om.slab idx = 0 then some (.creation, s)
      else objectTestTyped (fun i => types i) arch h s (Fin.last n) table flag

/-- What decides the outcome: the object that the test gets, whether there is room for a
table, the flag, and the `destroyed` byte of the object's slot. -/
def testOutcome (obj : ℕ) (room flag : Bool) (stale : ℕ) : TestOutcome :=
  if obj = 0 then .creation
  else if room = false then .capTableCreate
  else if flag then .destroyedEarly
  else if stale = 0 then .passed
  else .notDestroyed

/-- What the calls that take memory give the test: the object, whether there is room for a
table, and the `destroyed` byte of the object's slot. It is `none` when one of them panics. -/
def testMemory (types : Fin n → ObjectType) (h : Heap) (s : ObState n T) :
    Option (ℕ × Bool × ℕ) :=
  if maxObjectTypes ≤ n then none
  else
    match slabCacheCreate (h.under s) testType.instanceSize with
    | none => none
    | some (slab, h) =>
        if slab = 0 then some (0, false, 0)
        else
          let s := (s.over h).addType (newSlabCache testType.instanceSize)
          match objectCreate (Fin.snoc types testType : Fin (n + 1) → ObjectType) s
              (Fin.last n) 0 with
          | none => none
          | some (obj, t) =>
              if obj = 0 then some (0, false, 0)
              else (capTableRoom t.pmm).map fun room => (obj, room, objDestroyed.get s.mem obj)

section Steps

variable {types : Fin n → ObjectType} {arch : Arch} {slack x v k : ℕ} {s t : ObState n T}
  {o : SlabOwn (SlabId n)} {nodes : ℕ → List ℕ} {E : ℕ → List (ℕ × ℕ)}
  {V : ℕ → Option ObjectHeader} {i : Fin n} {hd : ObjectHeader} {c : T}

/-- A new table gives out its first entry. -/
theorem freeSlot_capTableCreate : capTableCreate.freeSlot = some 0 := by
  have hfirst : firstFrom (fun i => (capTableCreate.entries (capTableCreate.probe i)).object == 0)
      0 capTableMax = some 0 :=
    firstFrom_eq_some (le_refl 0) (by decide) rfl fun j _ hj => absurd hj (Nat.not_lt_zero j)
  unfold CapTable.freeSlot
  rw [hfirst]
  rfl

omit [DecidableEq T] in
/-- A dereference that leaves a reference or a handle. -/
theorem ObHeap.objectDeref_keep (h : s.Holds types slack o nodes E V) (hx : V x = some hd)
    (hpos : 0 < hd.refcount) (hkeep : hd.refcount ≠ 1 ∨ hd.handleCount ≠ 0) :
    ∃ m, objectDeref types s x = some { s with mem := m } ∧
      ({ s with mem := m } : ObState n T).Holds types slack o nodes E
        (Function.update V x (some { hd with refcount := hd.refcount - 1 })) := by
  obtain ⟨_, href, _⟩ := ObHeap.fields h hx
  have hlt : hd.refcount < 2 ^ 32 := by
    rw [← href]
    exact lt_of_lt_of_eq (objRefcount.get_lt _ _) (by norm_num [objRefcount])
  have hval : (objRefcount.get s.mem x + 2 ^ 32 - 1) % 2 ^ 32 % 2 ^ 32 = hd.refcount - 1 := by
    rw [href, Nat.mod_mod]
    omega
  have hheap := ObHeap.setRefcount h hx ((objRefcount.get s.mem x + 2 ^ 32 - 1) % 2 ^ 32)
  rw [hval] at hheap
  refine ⟨atomicFetchSub objRefcount s.mem x 1, ?_, hheap⟩
  unfold objectDeref
  rw [href]
  by_cases hone : hd.refcount = 1
  · obtain ⟨_, _, hhandle, _⟩ := ObHeap.fields (s := { s with
      mem := atomicFetchSub objRefcount s.mem x 1 }) hheap (Function.update_self _ _ _)
    rw [if_pos hone]
    unfold objectMaybeDestroy
    rw [if_neg]
    rintro ⟨_, hzero, _⟩
    rw [hhandle] at hzero
    exact hkeep.elim (fun hne => hne hone) fun hne => hne hzero
  · rw [if_neg hone]

/-- A lookup of a handle that is bound to a live object, of which no entry is stale. -/
theorem ObHeap.capLookup_eq (h : s.Holds types slack o nodes E V) (hx : V x = some hd)
    (hgen : hd.generation = 0) {rights required : ℕ} (hk : k < capTableMax)
    (hentry : (s.tables c).entries k = ⟨x, rights, 0⟩) :
    capLookup types s c k required =
      if rights &&& required = required then some (x, objectRef s x) else some (0, s) := by
  have hx0 := (ObHeap.addr h hx).1
  have hread := (ObHeap.fields h hx).2.2.2.1
  unfold capLookup
  rw [if_neg (by omega), hentry]
  dsimp only
  rw [if_neg hx0, hread, hgen, if_neg (not_not.mpr rfl)]
  by_cases hrights : rights &&& required = required
  · rw [if_pos hrights, if_neg (not_not.mpr hrights)]
  · rw [if_neg hrights, if_pos hrights]

omit [DecidableEq T] in
theorem ObHeap.objectRef (h : s.Holds types slack o nodes E V) (hx : V x = some hd)
    (hlt : hd.refcount + 1 < 2 ^ 32) :
    (Vectra.objectRef s x).Holds types slack o nodes E
      (Function.update V x (some { hd with refcount := hd.refcount + 1 })) := by
  obtain ⟨_, href, _⟩ := ObHeap.fields h hx
  have hval : (objRefcount.get s.mem x + 1) % 2 ^ 32 % 2 ^ 32 = hd.refcount + 1 := by
    rw [href, Nat.mod_mod]
    omega
  have hheap := ObHeap.setRefcount h hx ((objRefcount.get s.mem x + 1) % 2 ^ 32)
  rw [hval] at hheap
  exact hheap

/-- The end of the test: the last reference goes, and then the last handle. -/
theorem ObHeap.objectTestEnd {id stale calls : ℕ} (flag : Bool)
    (h : s.Holds types slack o nodes E V) (hx : V x = some ⟨i, 1, 1, 0, id, stale⟩)
    (hentry : (s.tables c).entries 0 = ⟨x, rightRead, 0⟩)
    (htype : types i = testType)
    (hcalls : s.destroyCalls.length = calls) :
    ∃ t o' nodes' E', Vectra.objectTestEnd types flag calls s c x 0 = some
        (if flag then .destroyedEarly else if stale = 0 then .passed else .notDestroyed, t) ∧
      t.Holds types slack o' nodes' E' (Function.update V x
        (if flag then some ⟨i, 0, 1, 0, id, stale⟩
          else if stale = 0 then none else some ⟨i, 0, 0, 0, id, stale⟩)) ∧
      (flag = false → stale = 0 → x ∈ o'.free (.type i)) ∧
      t.destroyCalls = s.destroyCalls ++ if flag = false ∧ stale = 0 then [x] else [] := by
  obtain ⟨m, hderef, hheap⟩ := ObHeap.objectDeref_keep h hx Nat.one_pos (Or.inr Nat.one_ne_zero)
  have hx0 := (ObHeap.addr h hx).1
  simp only [Vectra.objectTestEnd, hderef, testDestroyed, hcalls, lt_irrefl, decide_false,
    Bool.or_false]
  cases flag with
  | true => exact ⟨_, o, nodes, E, rfl, hheap, by simp, by simp⟩
  | false =>
      have hx' : Function.update V x (some (⟨i, 0, 1, 0, id, stale⟩ : ObjectHeader)) x =
          some ⟨i, 0, 1, 0, id, stale⟩ := Function.update_self _ _ _
      obtain ⟨_, _, hhandle, _⟩ := ObHeap.fields (s := { s with mem := m }) hheap hx'
      have hset := ObHeap.setHandleCount hheap hx' ((objHandleCount.get m x + 2 ^ 32 - 1) % 2 ^ 32)
      rw [Function.update_idem] at hset
      have hval : (objHandleCount.get m x + 2 ^ 32 - 1) % 2 ^ 32 % 2 ^ 32 = 0 := by
        rw [hhandle]
        norm_num
      rw [hval] at hset
      -- the state in `object_maybe_destroy`, with both counts at zero
      generalize hs₁ : ({ s with
        tables := Function.update s.tables c ((s.tables c).clearSlot 0)
        mem := atomicFetchSub objHandleCount m x 1 } : ObState n T) = s₁
      have hheap₁ : s₁.Holds types slack o nodes E
          (Function.update V x (some ⟨i, 0, 0, 0, id, stale⟩)) := by
        rw [← hs₁]
        exact hset
      have hcalls₁ : s₁.destroyCalls = s.destroyCalls := by rw [← hs₁]
      have hclose : objectClose types { s with mem := m } c 0 =
          (objectMaybeDestroy types s₁ x).map fun s => (0, s) := by
        unfold objectClose closeSlot
        rw [if_neg (by decide)]
        simp only [hentry, if_neg hx0, hs₁]
      have hx₁ : Function.update V x (some (⟨i, 0, 0, 0, id, stale⟩ : ObjectHeader)) x =
          some ⟨i, 0, 0, 0, id, stale⟩ := Function.update_self _ _ _
      obtain ⟨_, href₁, hhandle₁, _, _, hstale₁⟩ := ObHeap.fields hheap₁ hx₁
      by_cases hstale : stale = 0
      · subst hstale
        have hmark := ObHeap.setDestroyed hheap₁ hx₁ 1
        rw [Function.update_idem] at hmark
        obtain ⟨t, o', nodes', j, hgone, hidx, hholds, hdes⟩ := ObHeap.objectDestroy
          (s := { s₁ with mem := objDestroyed.set s₁.mem x 1 }) hmark (Function.update_self _ _ _)
        have hij : i = j := Fin.ext hidx
        subst hij
        have hmaybe : objectMaybeDestroy types s₁ x = some t := by
          unfold objectMaybeDestroy
          rw [if_pos ⟨href₁, hhandle₁, hstale₁⟩]
          exact hgone
        rw [Function.update_idem] at hholds
        have hafter : t.destroyCalls = s.destroyCalls ++ [x] := by
          rw [hdes.calls, htype, ← hcalls₁]
          rfl
        refine ⟨t, o', nodes', _, ?_, hholds, fun _ _ => ?_, by simp [hafter]⟩
        · simp [hclose, hmaybe, hafter, hcalls]
        · rw [hdes.free]
          exact List.mem_cons_self
      · have hmaybe : objectMaybeDestroy types s₁ x = some s₁ := by
          unfold objectMaybeDestroy
          rw [if_neg]
          rintro ⟨_, _, hzero⟩
          exact hstale (hstale₁.symm.trans hzero)
        refine ⟨s₁, o, nodes, E, ?_, by simpa [hstale] using hheap₁, fun _ h0 => absurd h0 hstale,
          by simp [hstale, hcalls₁]⟩
        simp [hclose, hmaybe, hcalls₁, hcalls, hstale]

/-- The test from the grant on: both lookups do what they should. -/
theorem ObHeap.objectTestHandle {id stale : ℕ} (calls : ℕ) (flag : Bool)
    (h : s.Holds types slack o nodes E V) (hx : V x = some ⟨i, 1, 1, 0, id, stale⟩)
    (hentry : (s.tables c).entries 0 = ⟨x, rightRead, 0⟩) :
    ∃ m, Vectra.objectTestHandle types flag calls s c x 0 =
        Vectra.objectTestEnd types flag calls { s with mem := m } c x 0 ∧
      ({ s with mem := m } : ObState n T).Holds types slack o nodes E V := by
  obtain ⟨_, _, hhandle, _⟩ := ObHeap.fields h hx
  have hwrite : capLookup types s c 0 rightWrite = some (0, s) := by
    rw [ObHeap.capLookup_eq h hx rfl (by decide) hentry]
    exact if_neg (by decide)
  have hread : capLookup types s c 0 rightRead = some (x, Vectra.objectRef s x) := by
    rw [ObHeap.capLookup_eq h hx rfl (by decide) hentry]
    exact if_pos (by decide)
  have href := ObHeap.objectRef h hx (by norm_num)
  obtain ⟨m, hderef, hheap⟩ := ObHeap.objectDeref_keep href (Function.update_self _ _ _)
    (Nat.succ_pos 1) (Or.inl (Nat.succ_ne_self 1))
  have hsame : Function.update (Function.update V x
      (some (⟨i, 2, 1, 0, id, stale⟩ : ObjectHeader))) x (some ⟨i, 1, 1, 0, id, stale⟩) = V := by
    rw [Function.update_idem, ← hx, Function.update_eq_self]
  refine ⟨m, ?_, ?_⟩
  · unfold Vectra.objectTestHandle
    rw [if_neg (by simp [hhandle]), hwrite]
    simp only [ne_eq, not_true_eq_false, if_false, hread, hderef]
    rfl
  · rw [← hsame]
    exact hheap

/-- The grant takes the first entry of the new table. -/
theorem ObHeap.grant_new {id stale : ℕ} (arch : Arch) (c : T)
    (h : s.Holds types slack o nodes E V)
    (hx : V x = some ⟨i, 1, 0, 0, id, stale⟩) (htype : types i = testType) :
    ∃ t, objectGrant types arch
        { s with tables := Function.update s.tables c capTableCreate } c x rightRead =
          some (0, t) ∧
      t.Holds types slack o nodes E (Function.update V x (some ⟨i, 1, 1, 0, id, stale⟩)) ∧
      (t.tables c).entries 0 = ⟨x, rightRead, 0⟩ ∧ t.destroyCalls = s.destroyCalls := by
  obtain ⟨htid, _, hhandle, hgen, _⟩ := ObHeap.fields h hx
  have hset := ObHeap.setHandleCount h hx ((objHandleCount.get s.mem x + 1) % 2 ^ 32)
  have hval : (objHandleCount.get s.mem x + 1) % 2 ^ 32 % 2 ^ 32 = 1 := by
    rw [hhandle]
    norm_num
  rw [hval] at hset
  have hlt : objTypeId.get s.mem x < n := lt_of_eq_of_lt htid i.isLt
  have hfin : (⟨objTypeId.get s.mem x, hlt⟩ : Fin n) = i := Fin.ext htid
  refine ⟨{ s with
    tables := Function.update (Function.update s.tables c capTableCreate) c
      (capTableCreate.fillSlot arch 0 x rightRead 0)
    mem := atomicFetchAdd objHandleCount s.mem x 1 }, ?_, hset, ?_, rfl⟩
  · unfold objectGrant
    rw [dif_pos hlt, hfin, htype, if_neg (by decide)]
    simp only [Function.update_self, freeSlot_capTableCreate, hgen]
  · simp [CapTable.fillSlot]

/-- What is known of the state in which a test with this outcome ends: the object `x` of type `i`
is destroyed, or it stays behind without references and handles. Before the test `destroy` was
called on `calls`. -/
structure TestEnd (outcome : TestOutcome) (calls : List ℕ) (t : ObState n T) (i : Fin n) (x : ℕ) :
    Prop where
  passed : outcome = .passed → t.Freed i x ∧ t.destroyCalls = calls ++ [x]
  notDestroyed : outcome = .notDestroyed →
    ¬ t.Freed i x ∧ objRefcount.get t.mem x = 0 ∧ objHandleCount.get t.mem x = 0 ∧
      t.destroyCalls = calls

/-- The test with its object and its table, from the grant on. -/
theorem ObHeap.objectTestGranted {id stale : ℕ} (arch : Arch) (c : T) (flag : Bool)
    (h : s.Holds types slack o nodes E V) (hx : V x = some ⟨i, 1, 0, 0, id, stale⟩)
    (htype : types i = testType) :
    ∃ s₁ t, objectGrant types arch
        { s with tables := Function.update s.tables c capTableCreate } c x rightRead =
          some (0, s₁) ∧
      Vectra.objectTestHandle types flag s.destroyCalls.length s₁ c x 0 =
        some (if flag then .destroyedEarly else if stale = 0 then .passed else .notDestroyed, t) ∧
      TestEnd (if flag then .destroyedEarly else if stale = 0 then .passed else .notDestroyed)
        s.destroyCalls t i x := by
  obtain ⟨s₂, hgrant, hheap₂, hentry, hcalls⟩ := ObHeap.grant_new arch c h hx htype
  obtain ⟨m, htest, hheap₃⟩ := ObHeap.objectTestHandle s.destroyCalls.length flag hheap₂
    (Function.update_self _ _ _) hentry
  obtain ⟨t, o', nodes', E', hend, hholds, hfree, hafter⟩ := ObHeap.objectTestEnd flag
    hheap₃ (Function.update_self _ _ _) hentry htype (congrArg List.length hcalls)
  rw [Function.update_idem] at hholds
  dsimp only at hafter
  rw [hcalls] at hafter
  refine ⟨s₂, t, hgrant, htest.trans hend, fun hpass => ?_, fun hnot => ?_⟩
  · have hflag : flag = false := by
      cases flag with
      | true => simp at hpass
      | false => rfl
    subst hflag
    have hstale : stale = 0 := by
      by_contra hne
      simp [hne] at hpass
    exact ⟨⟨_, (hholds.family.slab (.type i)).freeChain, hfree rfl hstale⟩,
      by simpa [hstale] using hafter⟩
  · have hflag : flag = false := by
      cases flag with
      | true => simp at hnot
      | false => rfl
    subst hflag
    have hstale : stale ≠ 0 := by
      intro heq
      simp [heq] at hnot
    simp only [Bool.false_eq_true, if_false, if_neg hstale] at hholds
    obtain ⟨_, hzero, hzero', _⟩ := ObHeap.fields hholds (Function.update_self _ _ _)
    exact ⟨ObState.not_freed hholds (Function.update_self _ _ _) rfl, hzero, hzero',
      by simpa [hstale] using hafter⟩

/-- The test behind the registration, from a state whose memory holds the objects. -/
theorem ObHeap.objectTestTyped {s' : ObState n T} {h : Heap} (arch : Arch) (c : T) (flag : Bool)
    (hheap : s.Holds types slack o nodes E V) (hid : s.nextObjectId < 2 ^ 32)
    (hready : h.kheapInitialized = true) (htype : types i = testType)
    (hs : Vectra.objectCreate types s i 0 = some (x, s')) :
    (x ≠ 0 → capTableRoom s'.pmm = none →
      Vectra.objectTestTyped types arch h s i c flag = none) ∧
    ∀ room, (x ≠ 0 → capTableRoom s'.pmm = some room) →
      ∃ t, Vectra.objectTestTyped types arch h s i c flag =
          some (testOutcome x room flag (objDestroyed.get s.mem x), t) ∧
        TestEnd (testOutcome x room flag (objDestroyed.get s.mem x)) s.destroyCalls t i x := by
  obtain ⟨o₁, nodes₁, hcr, _, hok⟩ := ObHeap.objectCreate hheap hid hs
  generalize objDestroyed.get s.mem x = stale at hok ⊢
  unfold testOutcome Vectra.objectTestTyped
  rw [hs]
  dsimp only
  by_cases hx0 : x = 0
  · refine ⟨fun hne => absurd hx0 hne, fun room _ => ?_⟩
    rw [if_pos hx0, if_pos hx0]
    exact ⟨s', rfl, by simp, by simp⟩
  · obtain ⟨_, hheap₁⟩ := hok hx0
    generalize Function.update E (s.bucket s.nextObjectId)
      ((s.nextObjectId, x) :: E (s.bucket s.nextObjectId)) = E₁ at hheap₁
    obtain ⟨_, href, _⟩ := ObHeap.fields hheap₁ (Function.update_self _ _ _)
    rw [if_neg hx0, if_neg (not_not.mpr href)]
    have hp : PmmInv slack (h.under s').pmm := hheap₁.family.pmm
    have hbase : 0 < (h.under s').pmm.memPhysBase := (hheap₁.family.fits .node).base_pos
    have hready' : (h.under s').kheapInitialized = true := hready
    refine ⟨fun _ hroom => ?_, fun room hroom => ?_⟩
    · rw [capTableCreateAt_panics hp hready' hbase hroom]
    · rw [if_neg hx0]
      cases room with
      | false =>
          rw [capTableCreateAt_null hp hready' hbase (hroom hx0)]
          exact ⟨_, rfl, by simp, by simp⟩
      | true =>
          obtain ⟨table, h', htable, hne, hkept, hview⟩ :=
            capTableCreateAt_table hp hready' hbase (hroom hx0)
          have hheap₂ : (s'.over h').Holds types slack o₁ nodes₁ E₁ _ := hheap₁.kept hkept
          obtain ⟨s₂, t, hgrant, htest, hend⟩ := ObHeap.objectTestGranted arch c flag hheap₂
            (Function.update_self _ _ _) htype
          have hcalls : (s'.over h').destroyCalls = s.destroyCalls := hcr.calls
          have hgrant' : objectGrant types arch { s'.over h' with
              tables := Function.update s'.tables c Vectra.capTableCreate } c x rightRead =
            some (0, s₂) := hgrant
          rw [hcalls] at htest hend
          rw [htable]
          dsimp only
          rw [if_neg hne, hview, if_neg (by simp), hgrant']
          dsimp only
          rw [if_neg (by decide)]
          exact ⟨t, htest, hend⟩

end Steps

section Registration

variable {types : Fin n → ObjectType} {h : Heap} {om : ObjectManager} {s : ObState n T}

omit [DecidableEq T] in
/-- The types with the one of the test are as good as the types without it. -/
theorem TypesOk.addTest (hok : TypesOk types) (hlt : n < maxObjectTypes) :
    TypesOk (Fin.snoc types testType : Fin (n + 1) → ObjectType) := by
  have hsnoc : ∀ P : ObjectType → Prop, (∀ i, P (types i)) → P testType →
      ∀ i, P ((Fin.snoc types testType : Fin (n + 1) → ObjectType) i) := by
    intro P hold hnew i
    induction i using Fin.lastCases with
    | last =>
        rw [Fin.snoc_last]
        exact hnew
    | cast i =>
        rw [Fin.snoc_castSucc]
        exact hold i
  refine ⟨hlt, hsnoc (fun type => objectHeaderSize ≤ type.instanceSize) hok.header_le (by decide),
    hsnoc (fun type => ∀ f obj args m, type.create = some f → SameOff m (f obj args m).2
      (obj + objectHeaderSize) (type.instanceSize - objectHeaderSize)) hok.create_payload ?_,
    hsnoc (fun type => ∀ f obj m, type.destroy = some f → SameOff m (f obj m)
      (obj + objectHeaderSize) (type.instanceSize - objectHeaderSize)) hok.destroy_payload ?_⟩
  · intro f obj args m hf
    cases hf
    exact fun _ _ => rfl
  · intro f obj m hf
    cases hf
    exact fun _ _ => rfl

/-- The test is the one with its type, once the type has a slab. -/
theorem objectTest_eq {arch : Arch} {c : T} {flag : Bool} (hcount : om.typeCount = n)
    (htypes : ∀ i : Fin n, om.types i = types i) :
    objectTest arch h om s c flag =
      if maxObjectTypes ≤ n then none
      else
        match slabCacheCreate (h.under s) testType.instanceSize with
        | none => none
        | some (slab, h) =>
            let s := (s.over h).addType (h.cacheAt slab)
            if slab = 0 then some (.creation, s)
            else objectTestTyped (Fin.snoc types testType : Fin (n + 1) → ObjectType) arch h s
              (Fin.last n) c flag := by
  have hsize : (objectHeaderSize + 32) % 2 ^ 64 = testType.instanceSize := by decide
  unfold objectTest objectTypeRegister
  rw [hsize, hcount]
  by_cases hfull : maxObjectTypes ≤ n
  · rw [if_pos hfull, if_pos hfull]
  · rw [if_neg hfull, if_neg hfull]
    cases slabCacheCreate (h.under s) testType.instanceSize with
    | none => rfl
    | some a =>
        obtain ⟨slab, h'⟩ := a
        have hall : (fun i : Fin (n + 1) => Function.update (Function.update om.types n
            ⟨testType.instanceSize, some testObjectCreate, some testObjectDestroy,
              (om.types n).defaultRights⟩) n
            ⟨testType.instanceSize, some testObjectCreate, some testObjectDestroy,
              rightRead ||| rightWrite⟩ (i : ℕ)) = Fin.snoc types testType := by
          funext i
          induction i using Fin.lastCases with
          | last =>
              rw [Fin.snoc_last, Fin.val_last, Function.update_self]
              rfl
          | cast i =>
              have hne : (i.castSucc : ℕ) ≠ n := i.isLt.ne
              rw [Fin.snoc_castSucc, Function.update_of_ne hne, Function.update_of_ne hne]
              exact htypes i
        simp only [Function.update_self]
        rw [← hall]

end Registration

/-- The test panics just if one of the calls does that take memory, and otherwise it has the
outcome that these calls, the flag and the byte decide. -/
@[mk_iff]
structure TestDecided (types : Fin n → ObjectType) (arch : Arch) (h : Heap) (om : ObjectManager)
    (s : ObState n T) (c : T) (flag : Bool) : Prop where
  panics : testMemory types h s = none → objectTest arch h om s c flag = none
  ends : ∀ x room stale, testMemory types h s = some (x, room, stale) →
    ∃ t, objectTest arch h om s c flag = some (testOutcome x room flag stale, t) ∧
      TestEnd (testOutcome x room flag stale) s.destroyCalls t (Fin.last n) x

/-- The test from a state that satisfies the invariant. -/
theorem ObInv.testDecided {types : Fin n → ObjectType} {arch : Arch} {u : ObRun n T} {slack : ℕ}
    {o : SlabOwn (SlabId n)} {nodes : ℕ → List ℕ} {E : ℕ → List (ℕ × ℕ)}
    {V : ℕ → Option ObjectHeader} {h : Heap} {om : ObjectManager} {c : T} {flag : Bool}
    (hinv : ObInv types slack u o nodes E V) (hbase : 0 < u.state.pmm.memPhysBase)
    (hroom : u.state.pmm.memPhysBase + u.state.pmm.totalFrames * pageSize + pageSize ≤ 2 ^ 64)
    (hready : h.kheapInitialized = true) (hmeta : h.metadata.objSize = slabCacheStructSize)
    (hcount : om.typeCount = n) (htypes : ∀ i : Fin n, om.types i = types i) :
    TestDecided types arch h om u.state c flag := by
  rw [testDecided_iff, objectTest_eq hcount htypes]
  unfold testMemory
  by_cases hfull : maxObjectTypes ≤ n
  · rw [if_pos hfull, if_pos hfull]
    exact ⟨fun _ => rfl, nofun⟩
  rw [if_neg hfull, if_neg hfull]
  cases hslab : slabCacheCreate (h.under u.state) testType.instanceSize with
  | none => exact ⟨fun _ => rfl, nofun⟩
  | some a =>
      obtain ⟨slab, h'⟩ := a
      have hmeta' : (h.under u.state).metadata.objSize = slabObjSize slabCacheStructSize := hmeta
      obtain ⟨hkept, hready', hcache⟩ := slabCacheCreate_kept (h := h.under u.state)
        hinv.heap.family.pmm (by
          rw [hmeta']
          exact slabObjSize_fits hbase hroom (by decide)) hslab
      dsimp only
      by_cases hnull : slab = 0
      · rw [if_pos hnull, if_pos hnull]
        refine ⟨nofun, fun x room stale hsome => ?_⟩
        cases hsome
        exact ⟨_, rfl, by simp [testOutcome], by simp [testOutcome]⟩
      · rw [if_neg hnull, if_neg hnull, hcache hnull]
        have hheap : ((u.state.over h').addType (newSlabCache testType.instanceSize)).Holds
            (Fin.snoc types testType : Fin (n + 1) → ObjectType) slack (o.reindex SlabId.old)
            nodes E V :=
          (hinv.heap.kept hkept).addType (hinv.heap.ok.addTest (Nat.lt_of_not_le hfull))
            (by decide) ((slabObjSize_fits hbase hroom (by decide)).sameRange hkept.range)
        generalize hs : (u.state.over h').addType (newSlabCache testType.instanceSize) = s at *
        have hcalls : s.destroyCalls = u.state.destroyCalls := by
          rw [← hs]
          rfl
        have hid : s.nextObjectId < 2 ^ 32 := by
          rw [← hs]
          exact hinv.next_lt
        cases hcreate : objectCreate (Fin.snoc types testType : Fin (n + 1) → ObjectType) s
            (Fin.last n) 0 with
        | none =>
            refine ⟨fun _ => ?_, nofun⟩
            unfold objectTestTyped
            rw [hcreate]
        | some b =>
            obtain ⟨y, s'⟩ := b
            obtain ⟨hpanic, htest⟩ := ObHeap.objectTestTyped arch c flag hheap hid
              (hready'.trans hready) (Fin.snoc_last _ _) hcreate
            dsimp only
            by_cases hy : y = 0
            · rw [if_pos hy]
              refine ⟨nofun, fun x room stale hsome => ?_⟩
              cases hsome
              obtain ⟨t, hrun', hend⟩ := htest false fun hne => absurd hy hne
              have hout : testOutcome y false flag (objDestroyed.get s.mem y) =
                  testOutcome 0 false flag 0 := by simp [testOutcome, hy]
              rw [hout] at hrun'
              exact ⟨t, hrun', by simp [testOutcome], by simp [testOutcome]⟩
            · rw [if_neg hy]
              refine ⟨fun hnone => hpanic hy (Option.map_eq_none_iff.mp hnone),
                fun x room stale hsome => ?_⟩
              obtain ⟨room', hroom', heq⟩ := Option.map_eq_some_iff.mp hsome
              cases heq
              obtain ⟨t, hrun', hend⟩ := htest room fun _ => hroom'
              rw [hcalls] at hend
              exact ⟨t, hrun', hend⟩

/-- The outcome of the test of the object manager, from every reachable state and with every
initialized heap. It passes just if the test gets an object and a table, `g_test_destroyed` is
clear, and the slot of the object has a zero where its `destroyed` byte will be: then the object
is destroyed and its slot is free again. Where that byte is set, the test fails at its last
check, and the object stays behind without references or handles. -/
theorem object_test_run {types : Fin n → ObjectType} {arch : Arch} {u₀ u : ObRun n T}
    {ops : List (ObOp n T)} {h : Heap} {om : ObjectManager} {c : T} {flag : Bool}
    (hboot : ObBoot types u₀) (hrun : Run (BoundedStep types arch) u₀ ops u)
    (hready : h.kheapInitialized = true) (hmeta : h.metadata.objSize = slabCacheStructSize)
    (hcount : om.typeCount = n) (htypes : ∀ i : Fin n, om.types i = types i) :
    TestDecided types arch h om u.state c flag := by
  obtain ⟨_, _, _, _, _, hinv⟩ := hboot.run hrun
  obtain ⟨hsame, htotal⟩ := hboot.run_range hrun
  refine hinv.testDecided ?_ ?_ hready hmeta hcount htypes
  · rw [hsame]
    exact hboot.base_pos
  · rw [hsame, htotal]
    exact hboot.room

/-- A heap after `kheap_init` whose metadata cache is empty. -/
def testHeap : Heap :=
  ⟨fun _ => 0#8, Pmm.boot, ⟨slabCacheStructSize, 0, 0⟩, true, fun _ => ⟨0, 0, 0⟩, fun _ => 0, true⟩

/-- The objects after `ob_init`, with `k` clear frames in memory that is all zero. -/
def testObjects (k : ℕ) : ObRun 0 Unit :=
  ⟨⟨fun _ => 0#8, ⟨fun _ => 0#8, k, k, 0x1000, 0⟩, Fin.elim0, hashtableInit (fun _ => 1) 4096, 1,
    fun _ => capTableCreate, []⟩, ⟨fun _ => none, fun _ => 0⟩⟩

theorem testObjects_boot {k : ℕ} (hk : k ≤ 20) : ObBoot Fin.elim0 (testObjects k) where
  ok := ⟨by decide, fun i => i.elim0, fun i => i.elim0, fun i => i.elim0⟩
  pmm := by
    have hcard : (testObjects k).state.pmm.clearFrames.card ≤ k := PmmInv.card_le _
    refine ⟨k - (testObjects k).state.pmm.clearFrames.card, ?_, Nat.zero_le k, ?_, Nat.sub_le _ _⟩
    · change 0x1000 + k * pageSize < 2 ^ 64
      unfold pageSize
      omega
    · change k = _
      omega
  base_pos := Nat.succ_pos _
  room := by
    change 0x1000 + k * pageSize + pageSize ≤ 2 ^ 64
    unfold pageSize
    omega
  type_room := fun i => i.elim0
  slabs := fun i => i.elim0
  idTable := ⟨_, rfl⟩
  nextObjectId := rfl
  tables := fun _ => rfl
  destroyCalls := rfl
  ledger := rfl

/-- The first test takes 20 frames: one each for the slab of its type, for the object and for
the node of its id, and 17 for the table. With one frame less it panics. -/
theorem object_test_run_twenty_frames :
    (∃ t, objectTest .riscv testHeap zeroManager (testObjects 20).state () false =
        some (.passed, t) ∧ t.Freed 0 0x2fb0 ∧ t.destroyCalls = [0x2fb0]) ∧
      objectTest .riscv testHeap zeroManager (testObjects 19).state () false = none := by
  have hlast : testMemory Fin.elim0 testHeap (testObjects 20).state = some (0x2fb0, true, 0) := by
    decide +kernel
  have hfew : testMemory Fin.elim0 testHeap (testObjects 19).state = none := by
    decide +kernel
  have htest : ∀ k ≤ 20,
      TestDecided Fin.elim0 .riscv testHeap zeroManager (testObjects k).state () false :=
    fun k hk => object_test_run (testObjects_boot hk) (.nil (testObjects k)) rfl rfl rfl
      fun i => i.elim0
  obtain ⟨t, hpassed, hend⟩ := (htest 20 (le_refl 20)).ends 0x2fb0 true 0 hlast
  exact ⟨⟨t, hpassed, hend.passed rfl⟩, (htest 19 (by decide)).panics hfew⟩

/-! ## The call in `kernel_main` -/

/-- The same objects with other capability tables. -/
def ObState.withTables {U : Type} (s : ObState n T) (tables : U → CapTable) : ObState n U where
  mem := s.mem
  pmm := s.pmm
  slabs := s.slabs
  idTable := s.idTable
  nextObjectId := s.nextObjectId
  tables := tables
  destroyCalls := s.destroyCalls

omit [DecidableEq T] in
theorem ObBoot.withTables {U : Type} {types : Fin n → ObjectType} {s : ObState n T} {L : Ledger n}
    (hboot : ObBoot types ⟨s, L⟩) :
    ObBoot types ⟨s.withTables fun _ : U => capTableCreate, L⟩ where
  ok := hboot.ok
  pmm := hboot.pmm
  base_pos := hboot.base_pos
  room := hboot.room
  type_room := hboot.type_room
  slabs := hboot.slabs
  idTable := hboot.idTable
  nextObjectId := hboot.nextObjectId
  tables := fun _ => rfl
  destroyCalls := hboot.destroyCalls
  ledger := hboot.ledger

/-- `kernel_main` calls the test with everything that the test relies on: the heap and the object
manager are set up, whatever has been registered and created before. -/
theorem object_test_boot {arch : Arch} {info : BootInfo} {root k : ℕ} {om om' : ObjectManager}
    {mem : Bytes} {cacheAt : ℕ → SlabCache} {timerReturns flag : Bool} {h : Heap}
    {cs : List BootCall} {s : BootState} (hw : info.WellFormed)
    (hroot : arch = .riscv → RootInImage info root)
    (hs : kernelMain arch info root om mem cacheAt timerReturns k = .returned (h, om'))
    (hcalls : Run (BootCallStep info) ⟨h, om', []⟩ cs s) :
    TestDecided s.types arch s.heap s.om (s.objects.withTables fun _ : Unit => capTableCreate) ()
      flag := by
  obtain ⟨_, slack, r, free, hr, _⟩ := kernelMain_ready hw hroot hs
  obtain ⟨r', free', hready, _⟩ := hr.run hcalls
  have hmeta : s.heap.metadata = s.heap.cacheMetadataCache := by
    unfold Heap.metadata
    rw [hready.caches.initialized, if_pos rfl]
  have hboot := hready.obBoot.withTables (U := Unit)
  obtain ⟨_, hinv⟩ := hboot.inv
  exact hinv.testDecided hboot.base_pos hboot.room hready.ready
    (by rw [hmeta, hready.caches.size]) rfl fun i => rfl

end Vectra

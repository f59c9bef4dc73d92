import Vectra.Lib.Threads
import Vectra.Ob.Ledger

/-!
# Several threads on the counters of an object

`object_ref`, `object_deref`, `object_grant`, `object_close`, `cap_lookup` and
`object_maybe_destroy` with each atomic operation and each locked section as one step; the
loads of the two counters in `object_maybe_destroy` are two steps. `slab_free` leaves the head
of the free list in the first eight bytes of the slot.
-/

namespace Vectra

open Lib

/-! ## The threads -/

/-- The next access of a thread in a call. -/
inductive RefPoint (T : Type)
  | idle
  | grantSection (table : T) (obj rights : ℕ)
  | handleAdd (obj : ℕ)
  | closeSection (table : T) (handle : ℕ)
  | lookupSection (table : T) (handle requiredRights : ℕ)
  | handleSub (obj : ℕ)
  | lock (obj : ℕ)
  | loadRef (obj : ℕ)
  | loadHandle (obj : ℕ)
  | unlock (obj : ℕ) (go : Bool)
  | destroyOp (obj : ℕ)
  | removeId (obj : ℕ)
  | free (obj : ℕ)
  deriving DecidableEq

/-- `owned` counts the references that the thread got and has not given back. -/
structure RefCpu (T : Type) where
  point : RefPoint T
  owned : ℕ → ℕ

/-- The headers, the locks of the objects, the capability tables, and the slots that have been
given back to their slab. -/
structure RefShared (T : Type) where
  header : ℕ → ObjectHeader
  locked : ℕ → Bool
  tables : T → CapTable
  freed : ℕ → Bool

/-- `next` is the head of the free list, for the `slab_free` at the end. -/
inductive RefOp (T : Type)
  | ref (obj : ℕ)
  | deref (obj : ℕ)
  | maybeDestroy (obj : ℕ)
  | grant (table : T) (obj rights : ℕ)
  | close (table : T) (handle : ℕ)
  | lookup (table : T) (handle requiredRights : ℕ)
  | exec (next : ℕ)
  deriving DecidableEq

namespace ObjectHeader

def addRef (h : ObjectHeader) : ObjectHeader := { h with refcount := (h.refcount + 1) % 2 ^ 32 }

def subRef (h : ObjectHeader) : ObjectHeader :=
  { h with refcount := (h.refcount + 2 ^ 32 - 1) % 2 ^ 32 }

def addHandle (h : ObjectHeader) : ObjectHeader :=
  { h with handleCount := (h.handleCount + 1) % 2 ^ 32 }

def subHandle (h : ObjectHeader) : ObjectHeader :=
  { h with handleCount := (h.handleCount + 2 ^ 32 - 1) % 2 ^ 32 }

def mark (h : ObjectHeader) : ObjectHeader := { h with destroyed := 1 }

/-- `node->next = next` at the start of the slot. -/
def link (h : ObjectHeader) (next : ℕ) : ObjectHeader :=
  { h with typeId := next % 2 ^ 32, refcount := next / 2 ^ 32 % 2 ^ 32 }

section Fields

variable (h : ObjectHeader)

theorem addRef_destroyed : h.addRef.destroyed = h.destroyed := by
  unfold addRef
  rfl

theorem subRef_destroyed : h.subRef.destroyed = h.destroyed := by
  unfold subRef
  rfl

theorem addHandle_destroyed : h.addHandle.destroyed = h.destroyed := by
  unfold addHandle
  rfl

theorem subHandle_destroyed : h.subHandle.destroyed = h.destroyed := by
  unfold subHandle
  rfl

theorem link_destroyed (next : ℕ) : (h.link next).destroyed = h.destroyed := by
  unfold link
  rfl

end Fields

end ObjectHeader

section Step

variable {T : Type} [DecidableEq T]

def RefShared.update (g : RefShared T) (obj : ℕ) (f : ObjectHeader → ObjectHeader) : RefShared T :=
  { g with header := Function.update g.header obj (f (g.header obj)) }

/-- `entries[handle].object = NULL`. -/
def RefShared.clear (g : RefShared T) (table : T) (handle : ℕ) : RefShared T :=
  { g with tables := Function.update g.tables table ((g.tables table).clearSlot handle) }

def RefShared.entry (g : RefShared T) (table : T) (handle : ℕ) : CapEntry :=
  (g.tables table).entries handle

def RefCpu.at (l : RefCpu T) (point : RefPoint T) : RefCpu T := { l with point := point }

/-- The thread gets a reference and returns. -/
def RefCpu.take (l : RefCpu T) (obj : ℕ) : RefCpu T :=
  ⟨.idle, Function.update l.owned obj (l.owned obj + 1)⟩

def RefCpu.drop (l : RefCpu T) (obj : ℕ) (point : RefPoint T) : RefCpu T :=
  ⟨point, Function.update l.owned obj (l.owned obj - 1)⟩

/-- The next access of a call. -/
def refExec (arch : Arch) (next : ℕ) (g : RefShared T) (l : RefCpu T) :
    Option (RefShared T × RefCpu T) :=
  match l.point with
  | .idle => none
  | .grantSection table obj rights =>
      match (g.tables table).freeSlot with
      | none => some (g, l.at .idle)
      | some idx => some ({ g with
          tables := Function.update g.tables table
            ((g.tables table).fillSlot arch idx obj rights (g.header obj).generation) },
          l.at (.handleAdd obj))
  | .handleAdd obj => some (g.update obj .addHandle, l.at .idle)
  | .closeSection table handle =>
      if (g.entry table handle).object = 0 then some (g, l.at .idle)
      else some (g.clear table handle, l.at (.handleSub (g.entry table handle).object))
  | .lookupSection table handle requiredRights =>
      if (g.entry table handle).object = 0 then some (g, l.at .idle)
      else if (g.header (g.entry table handle).object).generation ≠
          (g.entry table handle).generation then
        -- the entry is stale
        some (g.clear table handle, l.at (.handleSub (g.entry table handle).object))
      else if (g.entry table handle).rights &&& requiredRights ≠ requiredRights then
        some (g, l.at .idle)
      else some (g.update (g.entry table handle).object .addRef,
        l.take (g.entry table handle).object)
  | .handleSub obj => some (g.update obj .subHandle, l.at (.lock obj))
  | .lock obj =>
      if g.locked obj then none
      else some ({ g with locked := Function.update g.locked obj true }, l.at (.loadRef obj))
  | .loadRef obj =>
      if (g.header obj).refcount = 0 then some (g, l.at (.loadHandle obj))
      else some (g, l.at (.unlock obj false))
  | .loadHandle obj =>
      if (g.header obj).handleCount = 0 ∧ (g.header obj).destroyed = 0 then
        some (g.update obj .mark, l.at (.unlock obj true))
      else some (g, l.at (.unlock obj false))
  | .unlock obj go =>
      some ({ g with locked := Function.update g.locked obj false },
        l.at (if go then .destroyOp obj else .idle))
  | .destroyOp obj => some (g, l.at (.removeId obj))
  | .removeId obj => some (g, l.at (.free obj))
  | .free obj =>
      some ({ g.update obj (·.link next) with freed := Function.update g.freed obj true },
        l.at .idle)

/-- A step of a thread: a call, or the next access of the call it is in. Objects are not null,
a thread derefs only references that it owns, and grants only objects it owns a reference to. -/
def refStep (arch : Arch) (defaultRights : ℕ → ℕ) (g : RefShared T) (l : RefCpu T) :
    RefOp T → Option (RefShared T × RefCpu T)
  | .ref obj =>
      if l.point = .idle ∧ obj ≠ 0 then some (g.update obj .addRef, l.take obj) else none
  | .deref obj =>
      if l.point = .idle ∧ 0 < l.owned obj then
        some (g.update obj .subRef,
          l.drop obj (if (g.header obj).refcount = 1 then .lock obj else .idle))
      else none
  | .maybeDestroy obj =>
      if l.point = .idle ∧ obj ≠ 0 then some (g, l.at (.lock obj)) else none
  | .grant table obj rights =>
      if l.point = .idle ∧ 0 < l.owned obj then
        if rights &&& defaultRights (g.header obj).typeId ≠ rights then some (g, l)
        else some (g, l.at (.grantSection table obj rights))
      else none
  | .close table handle =>
      if l.point = .idle then
        if capTableMax ≤ handle then some (g, l) else some (g, l.at (.closeSection table handle))
      else none
  | .lookup table handle requiredRights =>
      if l.point = .idle then
        if capTableMax ≤ handle then some (g, l)
        else some (g, l.at (.lookupSection table handle requiredRights))
      else none
  | .exec next => refExec arch next g l

variable {ι : Type*} [DecidableEq ι]

abbrev RefSys (ι : Type*) (T : Type) := Sys ι (RefShared T) (RefCpu T)

def RefStep (arch : Arch) (defaultRights : ℕ → ℕ) (_ : ι) (g : RefShared T) (l : RefCpu T)
    (op : RefOp T) (g' : RefShared T) (l' : RefCpu T) : Prop :=
  refStep arch defaultRights g l op = some (g', l')

/-- The objects have just been created, each by one thread, which owns the reference; the
tables are empty. -/
def RefSys.start (creator : ℕ → Option ι) (typeId objectId : ℕ → ℕ) : RefSys ι T where
  shared :=
    { header := fun obj =>
        ⟨typeId obj, if obj ≠ 0 ∧ (creator obj).isSome then 1 else 0, 0, 0, objectId obj, 0⟩
      locked := fun _ => false
      tables := fun _ => capTableCreate
      freed := fun _ => false }
  thread := fun i => ⟨.idle, fun obj => if obj ≠ 0 ∧ creator obj = some i then 1 else 0⟩

/-! ## The two contracts -/

/-- No thread owns a reference to the object, and no entry names it. -/
def Unreferenced (s : RefSys ι T) (obj : ℕ) : Prop :=
  (∀ i, (s.thread i).owned obj = 0) ∧
    ∀ table, ∀ handle < capTableMax, (s.shared.entry table handle).object ≠ obj

/-- Objects that are marked destroyed, and those whose `destroy` operation is run, are not
referenced. -/
structure DestroyedUnreferenced (s : RefSys ι T) : Prop where
  marked : ∀ obj ≠ 0, (s.shared.header obj).destroyed ≠ 0 → Unreferenced s obj
  run : ∀ i obj, (s.thread i).point = .destroyOp obj → Unreferenced s obj

/-- The object whose header or lock the next access uses. -/
def RefPoint.obj : RefPoint T → Option ℕ
  | .idle | .closeSection _ _ | .lookupSection _ _ _ => none
  | .grantSection _ obj _ | .handleAdd obj | .handleSub obj | .lock obj | .loadRef obj
  | .loadHandle obj | .unlock obj _ | .destroyOp obj | .removeId obj | .free obj => some obj

/-- No thread is about to use the header or the lock of an object that has been freed: not in
the middle of a call, not with `object_deref` on a reference, not with an entry of a table. -/
structure NoUseAfterFree (s : RefSys ι T) : Prop where
  point : ∀ i obj, (s.thread i).point.obj = some obj → s.shared.freed obj = false
  deref : ∀ i obj, 0 < (s.thread i).owned obj → s.shared.freed obj = false
  lookup : ∀ table, ∀ handle < capTableMax, (s.shared.entry table handle).object ≠ 0 →
    s.shared.freed (s.shared.entry table handle).object = false

end Step

/-! ## The counts of one object -/

/-- The two counters with what they count: references, entries, and the threads between the two
steps of `object_grant` and of `object_close`. -/
@[ext] structure ObjCounts where
  refcount : ℕ
  handleCount : ℕ
  destroyed : ℕ
  freed : Bool
  owned : ℕ
  named : ℕ
  granting : ℕ
  closing : ℕ

namespace ObjCounts

/-- What a step of a thread can do to the counts of one object. -/
inductive Step (c : ObjCounts) : ObjCounts → Prop
  | keep : Step c c
  | take (alive : c.destroyed = 0 ∨ 0 < c.named) (room : c.refcount + 1 < 2 ^ 32) :
      Step c { c with refcount := (c.refcount + 1) % 2 ^ 32, owned := c.owned + 1 }
  | drop (owner : 0 < c.owned) :
      Step c { c with refcount := (c.refcount + 2 ^ 32 - 1) % 2 ^ 32, owned := c.owned - 1 }
  | fill (owner : 0 < c.owned) (room : c.named + c.closing + 1 < 2 ^ 32) :
      Step c { c with named := c.named + 1, granting := c.granting + 1 }
  | add (pending : 0 < c.granting) :
      Step c { c with handleCount := (c.handleCount + 1) % 2 ^ 32, granting := c.granting - 1 }
  | clear (entry : 0 < c.named) : Step c { c with named := c.named - 1, closing := c.closing + 1 }
  | sub (pending : 0 < c.closing) :
      Step c { c with
        handleCount := (c.handleCount + 2 ^ 32 - 1) % 2 ^ 32
        closing := c.closing - 1 }
  | mark (refs : c.refcount = 0) (handles : c.handleCount = 0) (grants : c.granting ≤ c.owned) :
      Step c { c with destroyed := 1 }
  | free (dead : c.destroyed ≠ 0) (refcount : ℕ) :
      Step c { c with refcount := refcount, freed := true }

/-- `handle_count` lags behind the entries by the closes under way, and ahead of them by the
grants under way; a destroyed object has neither references nor entries. -/
structure Good (c : ObjCounts) : Prop where
  refs : c.freed = false → c.refcount = c.owned
  refs_lt : c.freed = false → c.refcount < 2 ^ 32
  handles : c.freed = false →
    (c.handleCount + c.granting) % 2 ^ 32 = (c.named + c.closing) % 2 ^ 32
  entries_lt : c.named + c.closing < 2 ^ 32
  dead : c.destroyed ≠ 0 → c.owned = 0 ∧ c.named = 0
  freed_dead : c.freed = true → c.destroyed ≠ 0

theorem Good.step {c d : ObjCounts} (h : Good c) (hs : Step c d) : Good d := by
  obtain ⟨hrefs, hlt, hhandles, hentries, hdead, hfreed⟩ := h
  cases hs with
  | keep => exact ⟨hrefs, hlt, hhandles, hentries, hdead, hfreed⟩
  | take alive room =>
      have hlive : c.destroyed = 0 := by
        by_contra hno
        have hnone := hdead hno
        omega
      have hmod : (c.refcount + 1) % 2 ^ 32 = c.refcount + 1 := Nat.mod_eq_of_lt room
      refine ⟨fun hf => ?_, fun _ => Nat.mod_lt _ (by decide), hhandles, hentries,
        fun hno => absurd hlive hno, hfreed⟩
      have hcount := hrefs hf
      change (c.refcount + 1) % 2 ^ 32 = c.owned + 1
      omega
  | drop owner =>
      have hlive : c.destroyed = 0 := by
        by_contra hno
        have hnone := hdead hno
        omega
      refine ⟨fun hf => ?_, fun _ => Nat.mod_lt _ (by decide), hhandles, hentries,
        fun hno => absurd hlive hno, hfreed⟩
      have hcount := hrefs hf
      have hsmall := hlt hf
      change (c.refcount + 2 ^ 32 - 1) % 2 ^ 32 = c.owned - 1
      omega
  | fill owner room =>
      have hlive : c.destroyed = 0 := by
        by_contra hno
        have hnone := hdead hno
        omega
      refine ⟨hrefs, hlt, fun hf => ?_, ?_, fun hno => absurd hlive hno, hfreed⟩
      · have heq := hhandles hf
        change (c.handleCount + (c.granting + 1)) % 2 ^ 32 = (c.named + 1 + c.closing) % 2 ^ 32
        omega
      · change c.named + 1 + c.closing < 2 ^ 32
        omega
  | add pending =>
      refine ⟨hrefs, hlt, fun hf => ?_, hentries, hdead, hfreed⟩
      have heq := hhandles hf
      change ((c.handleCount + 1) % 2 ^ 32 + (c.granting - 1)) % 2 ^ 32 =
        (c.named + c.closing) % 2 ^ 32
      omega
  | clear entry =>
      refine ⟨hrefs, hlt, fun hf => ?_, ?_, fun hno => ?_, hfreed⟩
      · have heq := hhandles hf
        change (c.handleCount + c.granting) % 2 ^ 32 = (c.named - 1 + (c.closing + 1)) % 2 ^ 32
        have hsum : c.named - 1 + (c.closing + 1) = c.named + c.closing := by omega
        rw [hsum]
        exact heq
      · change c.named - 1 + (c.closing + 1) < 2 ^ 32
        omega
      · have hnone := hdead hno
        omega
  | sub pending =>
      refine ⟨hrefs, hlt, fun hf => ?_, ?_, hdead, hfreed⟩
      · have heq := hhandles hf
        change ((c.handleCount + 2 ^ 32 - 1) % 2 ^ 32 + c.granting) % 2 ^ 32 =
          (c.named + (c.closing - 1)) % 2 ^ 32
        omega
      · change c.named + (c.closing - 1) < 2 ^ 32
        omega
  | mark refs handles grants =>
      refine ⟨hrefs, hlt, hhandles, hentries, fun _ => ?_, fun _ => Nat.one_ne_zero⟩
      change c.owned = 0 ∧ c.named = 0
      cases hf : c.freed with
      | true => exact hdead (hfreed hf)
      | false =>
          have hcount := hrefs hf
          have heq := hhandles hf
          omega
  | free dead refcount =>
      exact ⟨fun hf => absurd hf (by simp), fun hf => absurd hf (by simp),
        fun hf => absurd hf (by simp), hentries, hdead, fun _ => dead⟩

end ObjCounts

/-! ## The points of a call -/

section Points

variable {T : Type}

/-- The object of which the thread must own a reference. -/
def RefPoint.owner : RefPoint T → Option ℕ
  | .grantSection _ obj _ | .handleAdd obj => some obj
  | _ => none

/-- The object that the thread has marked. -/
def RefPoint.doomed : RefPoint T → Option ℕ
  | .unlock obj true | .destroyOp obj | .removeId obj | .free obj => some obj
  | _ => none

def RefPoint.InTable : RefPoint T → Prop
  | .closeSection _ handle | .lookupSection _ handle _ => handle < capTableMax
  | _ => True

/-- Not between two steps that change a counter and what it counts. -/
def RefPoint.Plain (p : RefPoint T) : Prop := ∀ obj, p ≠ .handleAdd obj ∧ p ≠ .handleSub obj

structure PointOk (g : RefShared T) (owned : ℕ → ℕ) (p : RefPoint T) : Prop where
  owner : ∀ obj, p.owner = some obj → 0 < owned obj
  doomed : ∀ obj, p.doomed = some obj → (g.header obj).destroyed ≠ 0
  nonzero : p.obj ≠ some 0
  inTable : p.InTable

structure CpuOk (g : RefShared T) (l : RefCpu T) : Prop where
  null : l.owned 0 = 0
  point : PointOk g l.owned l.point

variable {g g' : RefShared T} {owned owned' : ℕ → ℕ} {l : RefCpu T} {p : RefPoint T} {obj : ℕ}

theorem pointOk_idle (g : RefShared T) (owned : ℕ → ℕ) : PointOk g owned .idle :=
  ⟨nofun, nofun, nofun, trivial⟩

/-- A point on an object that needs no reference and that has not marked the object. -/
theorem pointOk_of_obj (hp : p.obj = some obj) (hobj : obj ≠ 0) (howner : p.owner = none)
    (hdoomed : p.doomed = none) (htable : p.InTable) : PointOk g owned p := by
  refine ⟨fun _ h => ?_, fun _ h => ?_, fun h => ?_, htable⟩
  · rw [howner] at h
    cases h
  · rw [hdoomed] at h
    cases h
  · rw [hp] at h
    cases h
    exact hobj rfl

/-- A point behind the mark. -/
theorem pointOk_of_doomed (hp : p.doomed = some obj) (hobj : p.obj = some obj) (hne : obj ≠ 0)
    (howner : p.owner = none) (htable : p.InTable) (hd : (g.header obj).destroyed ≠ 0) :
    PointOk g owned p := by
  refine ⟨fun _ h => ?_, fun _ h => ?_, fun h => ?_, htable⟩
  · rw [howner] at h
    cases h
  · rw [hp] at h
    cases h
    exact hd
  · rw [hobj] at h
    cases h
    exact hne rfl

theorem CpuOk.obj_ne (h : CpuOk g l) (hp : l.point.obj = some obj) : obj ≠ 0 := by
  rintro rfl
  exact h.point.nonzero hp

theorem CpuOk.idle (h : CpuOk g l) : CpuOk g' (l.at .idle) := ⟨h.null, pointOk_idle g' l.owned⟩

/-- A destroyed object stays destroyed. -/
theorem CpuOk.mono (h : CpuOk g l)
    (hmono : ∀ obj, (g.header obj).destroyed ≠ 0 → (g'.header obj).destroyed ≠ 0) : CpuOk g' l :=
  ⟨h.null, h.point.owner, fun obj hobj => hmono obj (h.point.doomed obj hobj), h.point.nonzero,
    h.point.inTable⟩

theorem CpuOk.take (h : CpuOk g l) (hobj : obj ≠ 0) : CpuOk g' (l.take obj) := by
  refine ⟨?_, pointOk_idle _ _⟩
  change Function.update l.owned obj (l.owned obj + 1) 0 = 0
  rw [Function.update_of_ne hobj.symm]
  exact h.null

theorem RefShared.update_header_of_ne {o : ℕ} {f : ObjectHeader → ObjectHeader}
    (h : obj ≠ o) : (g.update o f).header obj = g.header obj := Function.update_of_ne h _ _

theorem RefShared.update_header_self {f : ObjectHeader → ObjectHeader} :
    (g.update obj f).header obj = f (g.header obj) := Function.update_self _ _ _

theorem plain_idle : (RefPoint.idle : RefPoint T).Plain := fun _ => ⟨nofun, nofun⟩

theorem plain_of_eq {p q : RefPoint T} (h : p = q) (hq : q.Plain) : p.Plain := by
  rw [h]
  exact hq

variable [DecidableEq T]

/-- 1 between the two steps of `object_grant`. -/
def RefCpu.granting (obj : ℕ) (l : RefCpu T) : ℕ := if l.point = .handleAdd obj then 1 else 0

/-- 1 between the two steps of `object_close`. -/
def RefCpu.closing (obj : ℕ) (l : RefCpu T) : ℕ := if l.point = .handleSub obj then 1 else 0

theorem granting_of_plain {l : RefCpu T} (h : l.point.Plain) (obj : ℕ) : l.granting obj = 0 :=
  if_neg (h obj).1

theorem closing_of_plain {l : RefCpu T} (h : l.point.Plain) (obj : ℕ) : l.closing obj = 0 :=
  if_neg (h obj).2

end Points

/-! ## The object of the next access -/

section InUse

variable {T : Type} [DecidableEq T] {g g' : RefShared T} {l l' : RefCpu T}
  {arch : Arch} {defaultRights : ℕ → ℕ} {obj : ℕ}

/-- A slot is freed by the last access of a call only. -/
theorem refStep_freed {op : RefOp T}
    (hs : refStep arch defaultRights g l op = some (g', l')) :
    g'.freed = g.freed ∨ ∃ next o, op = .exec next ∧ l.point = .free o ∧
      g'.freed = Function.update g.freed o true := by
  cases op with
  | exec next =>
      simp only [refStep] at hs
      unfold refExec at hs
      cases hpoint : l.point with
      | free o =>
          simp only [hpoint] at hs
          cases hs
          exact .inr ⟨next, o, rfl, rfl, rfl⟩
      | _ =>
          simp only [hpoint] at hs
          repeat' split at hs
          all_goals cases hs
          all_goals exact .inl rfl
  | _ =>
      simp only [refStep] at hs
      repeat' split at hs
      all_goals cases hs
      all_goals exact .inl rfl

theorem refStep_free_idle {op : RefOp T} {next o : ℕ} (hpoint : l.point = .free o)
    (hop : op = .exec next) (hs : refStep arch defaultRights g l op = some (g', l')) :
    l'.point = .idle := by
  subst hop
  simp only [refStep, refExec, hpoint] at hs
  cases hs
  rfl

/-- Where the object of the next access comes from. -/
theorem refStep_obj {op : RefOp T} (hin : l.point.InTable)
    (hs : refStep arch defaultRights g l op = some (g', l')) (hobj : l'.point.obj = some obj) :
    l.point.obj = some obj ∨ 0 < l.owned obj ∨ op = .maybeDestroy obj ∨
      ∃ table, ∃ handle < capTableMax, (g.entry table handle).object ≠ 0 ∧
        (g.entry table handle).object = obj := by
  cases op with
  | ref o =>
      simp only [refStep] at hs
      split at hs
      all_goals cases hs
      cases hobj
  | deref o =>
      simp only [refStep] at hs
      split at hs
      · rename_i howner
        cases hs
        unfold RefCpu.drop at hobj
        dsimp only at hobj
        split at hobj
        · cases hobj
          exact .inr (.inl howner.2)
        · cases hobj
      · cases hs
  | maybeDestroy o =>
      simp only [refStep] at hs
      split at hs
      all_goals cases hs
      cases hobj
      exact .inr (.inr (.inl rfl))
  | grant table o rights =>
      simp only [refStep] at hs
      split at hs
      · rename_i howner
        split at hs
        all_goals cases hs
        · exact .inl hobj
        · cases hobj
          exact .inr (.inl howner.2)
      · cases hs
  | close table handle =>
      simp only [refStep] at hs
      repeat' split at hs
      all_goals cases hs
      · exact .inl hobj
      · cases hobj
  | lookup table handle requiredRights =>
      simp only [refStep] at hs
      repeat' split at hs
      all_goals cases hs
      · exact .inl hobj
      · cases hobj
  | exec next =>
      simp only [refStep] at hs
      unfold refExec at hs
      cases hpoint : l.point with
      | closeSection table handle =>
          rw [hpoint] at hin
          simp only [hpoint] at hs
          split at hs
          all_goals cases hs
          · cases hobj
          · rename_i hentry
            cases hobj
            exact .inr (.inr (.inr ⟨table, handle, hin, hentry, rfl⟩))
      | lookupSection table handle requiredRights =>
          rw [hpoint] at hin
          simp only [hpoint] at hs
          split at hs
          · cases hs
            cases hobj
          · rename_i hentry
            split at hs
            · cases hs
              cases hobj
              exact .inr (.inr (.inr ⟨table, handle, hin, hentry, rfl⟩))
            · split at hs
              all_goals cases hs
              all_goals cases hobj
      | unlock o go =>
          simp only [hpoint] at hs
          cases hs
          cases go with
          | false => cases hobj
          | true => exact .inl hobj
      | _ =>
          simp only [hpoint] at hs
          repeat' split at hs
          all_goals cases hs
          all_goals cases hobj
          all_goals exact .inl rfl

end InUse

/-! ## The counts in a state -/

def CapTable.named (table : CapTable) (obj : ℕ) : ℕ :=
  ∑ handle ∈ Finset.range capTableMax, if (table.entries handle).object = obj then 1 else 0

theorem CapTable.named_update {table table' : CapTable} {idx : ℕ} {e : CapEntry}
    (hidx : idx < capTableMax) (hentries : table'.entries = Function.update table.entries idx e)
    (obj : ℕ) : table'.named obj + (if (table.entries idx).object = obj then 1 else 0) =
      table.named obj + (if e.object = obj then 1 else 0) := by
  unfold CapTable.named
  rw [hentries]
  exact sum_update (Finset.mem_range.mpr hidx) table.entries e
    fun x => if x.object = obj then 1 else 0

section Counts

variable {T : Type} [Fintype T] {ι : Type*} [Fintype ι]

/-- The number of entries that name the object. -/
def RefShared.named (g : RefShared T) (obj : ℕ) : ℕ := ∑ table, (g.tables table).named obj

theorem RefShared.named_eq_zero {g : RefShared T} {obj : ℕ} : g.named obj = 0 ↔
    ∀ table, ∀ handle < capTableMax, (g.entry table handle).object ≠ obj := by
  unfold RefShared.named CapTable.named RefShared.entry
  simp only [Finset.sum_eq_zero_iff, Finset.mem_univ, Finset.mem_range, true_imp_iff,
    ite_eq_right_iff, one_ne_zero, imp_false, ne_eq]

/-- An object that an entry names. -/
theorem named_pos {g : RefShared T} {table : T} {handle : ℕ} (hhandle : handle < capTableMax) :
    0 < g.named (g.entry table handle).object :=
  Nat.pos_of_ne_zero fun hnone => RefShared.named_eq_zero.mp hnone table handle hhandle rfl

theorem named_of_tables {g g' : RefShared T} (h : g'.tables = g.tables) : g'.named = g.named := by
  funext obj
  unfold RefShared.named
  rw [h]

variable [DecidableEq T]

def RefSys.counts (s : RefSys ι T) (obj : ℕ) : ObjCounts where
  refcount := (s.shared.header obj).refcount
  handleCount := (s.shared.header obj).handleCount
  destroyed := (s.shared.header obj).destroyed
  freed := s.shared.freed obj
  owned := s.sum fun l => l.owned obj
  named := s.shared.named obj
  granting := s.sum (RefCpu.granting obj)
  closing := s.sum (RefCpu.closing obj)

/-- The entry that `cap_lookup` returns the object of: not empty, not stale, with the rights. -/
def RefShared.Found (g : RefShared T) (table : T) (handle requiredRights : ℕ) : Prop :=
  (g.entry table handle).object ≠ 0 ∧
    (g.header (g.entry table handle).object).generation = (g.entry table handle).generation ∧
    (g.entry table handle).rights &&& requiredRights = requiredRights

instance (g : RefShared T) (table : T) (handle requiredRights : ℕ) :
    Decidable (g.Found table handle requiredRights) :=
  inferInstanceAs (Decidable (_ ∧ _ ∧ _))

/-- What the code relies on at a step and does not check: the counter that was read as 0 is
still 0 when the object is marked, `object_ref` is called on no destroyed object, and no
counter that is counted up is at the end of its range. -/
structure Undisturbed (s : RefSys ι T) (e : ι × RefOp T) : Prop where
  mark : ∀ obj, (s.thread e.1).point = .loadHandle obj → (s.shared.header obj).handleCount = 0 →
    (s.shared.header obj).destroyed = 0 → (s.shared.header obj).refcount = 0
  ref : ∀ obj, e.2 = .ref obj →
    (s.shared.header obj).destroyed = 0 ∧ (s.shared.header obj).refcount + 1 < 2 ^ 32
  lookup : ∀ table handle rights, (s.thread e.1).point = .lookupSection table handle rights →
    s.shared.Found table handle rights →
    (s.shared.header (s.shared.entry table handle).object).refcount + 1 < 2 ^ 32
  grant : ∀ table obj rights, (s.thread e.1).point = .grantSection table obj rights →
    (s.shared.tables table).freeSlot ≠ none →
    s.shared.named obj + s.sum (RefCpu.closing obj) + 1 < 2 ^ 32

/-! ## What a step does -/

/-- The steps, with what holds before them. -/
inductive RefEffect (s : RefSys ι T) (i : ι) (g' : RefShared T) (l' : RefCpu T) : Prop
  | keep (header : g'.header = s.shared.header) (tables : g'.tables = s.shared.tables)
      (freed : g'.freed = s.shared.freed) (owned : l'.owned = (s.thread i).owned)
      (before : (s.thread i).point.Plain) (after : l'.point.Plain)
  | take (obj : ℕ) (before : (s.thread i).point.Plain)
      (alive : (s.shared.header obj).destroyed = 0 ∨ 0 < s.shared.named obj)
      (room : (s.shared.header obj).refcount + 1 < 2 ^ 32)
      (shared : g' = s.shared.update obj .addRef) (after : l' = (s.thread i).take obj)
  | drop (obj : ℕ) (point : RefPoint T) (before : (s.thread i).point.Plain) (plain : point.Plain)
      (owner : 0 < (s.thread i).owned obj) (shared : g' = s.shared.update obj .subRef)
      (after : l' = (s.thread i).drop obj point)
  | fill (table : T) (idx obj : ℕ) (table' : CapTable) (e : CapEntry)
      (before : (s.thread i).point.Plain) (owner : 0 < (s.thread i).owned obj)
      (room : s.shared.named obj + s.sum (RefCpu.closing obj) + 1 < 2 ^ 32)
      (slot : (s.shared.tables table).freeSlot = some idx)
      (entries : table'.entries = Function.update (s.shared.tables table).entries idx e)
      (object : e.object = obj)
      (shared : g' = { s.shared with tables := Function.update s.shared.tables table table' })
      (after : l' = (s.thread i).at (.handleAdd obj))
  | add (obj : ℕ) (before : (s.thread i).point = .handleAdd obj)
      (shared : g' = s.shared.update obj .addHandle) (after : l' = (s.thread i).at .idle)
  | clear (table : T) (handle : ℕ) (before : (s.thread i).point.Plain)
      (inTable : handle < capTableMax) (shared : g' = s.shared.clear table handle)
      (after : l' = (s.thread i).at (.handleSub (s.shared.entry table handle).object))
  | sub (obj : ℕ) (before : (s.thread i).point = .handleSub obj)
      (shared : g' = s.shared.update obj .subHandle) (after : l' = (s.thread i).at (.lock obj))
  | mark (obj : ℕ) (before : (s.thread i).point.Plain) (refs : (s.shared.header obj).refcount = 0)
      (handles : (s.shared.header obj).handleCount = 0) (shared : g' = s.shared.update obj .mark)
      (after : l' = (s.thread i).at (.unlock obj true))
  | free (obj next : ℕ) (before : (s.thread i).point.Plain)
      (dead : (s.shared.header obj).destroyed ≠ 0)
      (shared : g' = { s.shared.update obj (·.link next) with
        freed := Function.update s.shared.freed obj true })
      (after : l' = (s.thread i).at .idle)

theorem refExec_effect {arch : Arch} {next : ℕ} {s : RefSys ι T} {i : ι} {g' : RefShared T}
    {l' : RefCpu T} (hl : CpuOk s.shared (s.thread i)) (hu : Undisturbed s (i, .exec next))
    (hs : refExec arch next s.shared (s.thread i) = some (g', l')) :
    CpuOk g' l' ∧ RefEffect s i g' l' := by
  cases hpoint : (s.thread i).point with
  | idle =>
      simp only [refExec, hpoint] at hs
      cases hs
  | grantSection table obj rights =>
      have howner := hl.point.owner obj (by rw [hpoint]; rfl)
      have hobj := hl.obj_ne (by rw [hpoint]; rfl)
      have hplain := plain_of_eq hpoint fun _ => ⟨nofun, nofun⟩
      simp only [refExec, hpoint] at hs
      cases hslot : (s.shared.tables table).freeSlot with
      | none =>
          simp only [hslot, Option.some.injEq, Prod.mk.injEq] at hs
          obtain ⟨rfl, rfl⟩ := hs
          exact ⟨hl.idle, .keep rfl rfl rfl rfl hplain plain_idle⟩
      | some idx =>
          simp only [hslot, Option.some.injEq, Prod.mk.injEq] at hs
          obtain ⟨rfl, rfl⟩ := hs
          refine ⟨⟨hl.null, ?_, nofun, ?_, trivial⟩,
            .fill table idx obj _ ⟨obj, rights, (s.shared.header obj).generation⟩ hplain howner
              (hu.grant table obj rights hpoint (by simp [hslot])) hslot rfl rfl rfl rfl⟩
          · intro _ h
            cases h
            exact howner
          · intro h
            cases h
            exact hobj rfl
  | handleAdd obj =>
      simp only [refExec, hpoint, Option.some.injEq, Prod.mk.injEq] at hs
      obtain ⟨rfl, rfl⟩ := hs
      exact ⟨hl.idle, .add obj hpoint rfl rfl⟩
  | closeSection table handle =>
      have hhandle : handle < capTableMax := by
        have htable := hl.point.inTable
        rw [hpoint] at htable
        exact htable
      have hplain := plain_of_eq hpoint fun _ => ⟨nofun, nofun⟩
      simp only [refExec, hpoint] at hs
      split at hs
      · cases hs
        exact ⟨hl.idle, .keep rfl rfl rfl rfl hplain plain_idle⟩
      · rename_i hobj
        cases hs
        exact ⟨⟨hl.null, pointOk_of_obj rfl hobj rfl rfl trivial⟩,
          .clear table handle hplain hhandle rfl rfl⟩
  | lookupSection table handle requiredRights =>
      have hhandle : handle < capTableMax := by
        have htable := hl.point.inTable
        rw [hpoint] at htable
        exact htable
      have hplain := plain_of_eq hpoint fun _ => ⟨nofun, nofun⟩
      simp only [refExec, hpoint] at hs
      split at hs
      · cases hs
        exact ⟨hl.idle, .keep rfl rfl rfl rfl hplain plain_idle⟩
      · rename_i hobj
        split at hs
        · cases hs
          exact ⟨⟨hl.null, pointOk_of_obj rfl hobj rfl rfl trivial⟩,
            .clear table handle hplain hhandle rfl rfl⟩
        · rename_i hgen
          split at hs
          · cases hs
            exact ⟨hl.idle, .keep rfl rfl rfl rfl hplain plain_idle⟩
          · rename_i hrights
            cases hs
            have hfound : s.shared.Found table handle requiredRights :=
              ⟨hobj, not_not.mp hgen, not_not.mp hrights⟩
            exact ⟨hl.take hobj, .take _ hplain (.inr (named_pos hhandle))
              (hu.lookup table handle requiredRights hpoint hfound) rfl rfl⟩
  | handleSub obj =>
      simp only [refExec, hpoint, Option.some.injEq, Prod.mk.injEq] at hs
      obtain ⟨rfl, rfl⟩ := hs
      have hobj := hl.obj_ne (by rw [hpoint]; rfl)
      exact ⟨⟨hl.null, pointOk_of_obj rfl hobj rfl rfl trivial⟩, .sub obj hpoint rfl rfl⟩
  | lock obj =>
      have hobj := hl.obj_ne (by rw [hpoint]; rfl)
      have hplain := plain_of_eq hpoint fun _ => ⟨nofun, nofun⟩
      simp only [refExec, hpoint] at hs
      split at hs
      · cases hs
      · cases hs
        exact ⟨⟨hl.null, pointOk_of_obj rfl hobj rfl rfl trivial⟩,
          .keep rfl rfl rfl rfl hplain fun _ => ⟨nofun, nofun⟩⟩
  | loadRef obj =>
      have hobj := hl.obj_ne (by rw [hpoint]; rfl)
      have hplain := plain_of_eq hpoint fun _ => ⟨nofun, nofun⟩
      simp only [refExec, hpoint] at hs
      split at hs
      · cases hs
        exact ⟨⟨hl.null, pointOk_of_obj rfl hobj rfl rfl trivial⟩,
          .keep rfl rfl rfl rfl hplain fun _ => ⟨nofun, nofun⟩⟩
      · cases hs
        exact ⟨⟨hl.null, pointOk_of_obj rfl hobj rfl rfl trivial⟩,
          .keep rfl rfl rfl rfl hplain fun _ => ⟨nofun, nofun⟩⟩
  | loadHandle obj =>
      have hobj := hl.obj_ne (by rw [hpoint]; rfl)
      have hplain := plain_of_eq hpoint fun _ => ⟨nofun, nofun⟩
      simp only [refExec, hpoint] at hs
      split at hs
      · rename_i hgo
        cases hs
        refine ⟨⟨hl.null, pointOk_of_doomed rfl rfl hobj rfl trivial ?_⟩,
          .mark obj hplain (hu.mark obj hpoint hgo.1 hgo.2) hgo.1 rfl rfl⟩
        change (Function.update s.shared.header obj _ obj).destroyed ≠ 0
        rw [Function.update_self]
        exact Nat.one_ne_zero
      · cases hs
        exact ⟨⟨hl.null, pointOk_of_obj rfl hobj rfl rfl trivial⟩,
          .keep rfl rfl rfl rfl hplain fun _ => ⟨nofun, nofun⟩⟩
  | unlock obj go =>
      have hobj := hl.obj_ne (by rw [hpoint]; rfl)
      have hplain := plain_of_eq hpoint fun _ => ⟨nofun, nofun⟩
      simp only [refExec, hpoint, Option.some.injEq, Prod.mk.injEq] at hs
      obtain ⟨rfl, rfl⟩ := hs
      cases go with
      | false => exact ⟨hl.idle, .keep rfl rfl rfl rfl hplain plain_idle⟩
      | true =>
          have hdead := hl.point.doomed obj (by rw [hpoint]; rfl)
          exact ⟨⟨hl.null, pointOk_of_doomed rfl rfl hobj rfl trivial hdead⟩,
            .keep rfl rfl rfl rfl hplain fun _ => ⟨nofun, nofun⟩⟩
  | destroyOp obj =>
      have hobj := hl.obj_ne (by rw [hpoint]; rfl)
      have hdead := hl.point.doomed obj (by rw [hpoint]; rfl)
      have hplain := plain_of_eq hpoint fun _ => ⟨nofun, nofun⟩
      simp only [refExec, hpoint, Option.some.injEq, Prod.mk.injEq] at hs
      obtain ⟨rfl, rfl⟩ := hs
      exact ⟨⟨hl.null, pointOk_of_doomed rfl rfl hobj rfl trivial hdead⟩,
        .keep rfl rfl rfl rfl hplain fun _ => ⟨nofun, nofun⟩⟩
  | removeId obj =>
      have hobj := hl.obj_ne (by rw [hpoint]; rfl)
      have hdead := hl.point.doomed obj (by rw [hpoint]; rfl)
      have hplain := plain_of_eq hpoint fun _ => ⟨nofun, nofun⟩
      simp only [refExec, hpoint, Option.some.injEq, Prod.mk.injEq] at hs
      obtain ⟨rfl, rfl⟩ := hs
      exact ⟨⟨hl.null, pointOk_of_doomed rfl rfl hobj rfl trivial hdead⟩,
        .keep rfl rfl rfl rfl hplain fun _ => ⟨nofun, nofun⟩⟩
  | free obj =>
      have hdead := hl.point.doomed obj (by rw [hpoint]; rfl)
      have hplain := plain_of_eq hpoint fun _ => ⟨nofun, nofun⟩
      simp only [refExec, hpoint, Option.some.injEq, Prod.mk.injEq] at hs
      obtain ⟨rfl, rfl⟩ := hs
      exact ⟨hl.idle, .free obj next hplain hdead rfl rfl⟩

/-- Everything that a step can do. -/
theorem refStep_effect {arch : Arch} {defaultRights : ℕ → ℕ} {s : RefSys ι T} {i : ι}
    {op : RefOp T} {g' : RefShared T} {l' : RefCpu T} (hl : CpuOk s.shared (s.thread i))
    (hu : Undisturbed s (i, op))
    (hs : refStep arch defaultRights s.shared (s.thread i) op = some (g', l')) :
    CpuOk g' l' ∧ RefEffect s i g' l' := by
  have hplain : (s.thread i).point = .idle → (s.thread i).point.Plain :=
    fun hidle => plain_of_eq hidle plain_idle
  cases op with
  | ref obj =>
      simp only [refStep] at hs
      split at hs
      · rename_i hidle
        cases hs
        exact ⟨hl.take hidle.2, .take obj (hplain hidle.1) (.inl (hu.ref obj rfl).1)
          (hu.ref obj rfl).2 rfl rfl⟩
      · cases hs
  | deref obj =>
      simp only [refStep] at hs
      split at hs
      · rename_i hidle
        have hobj : obj ≠ 0 := by
          rintro rfl
          rw [hl.null] at hidle
          exact absurd hidle.2 (lt_irrefl 0)
        cases hs
        refine ⟨⟨?_, ?_⟩, .drop obj _ (hplain hidle.1) ?_ hidle.2 rfl rfl⟩
        · change Function.update (s.thread i).owned obj _ 0 = 0
          rw [Function.update_of_ne hobj.symm]
          exact hl.null
        · change PointOk _ _ (if _ then _ else _)
          split
          · exact pointOk_of_obj rfl hobj rfl rfl trivial
          · exact pointOk_idle _ _
        · split
          · exact fun _ => ⟨nofun, nofun⟩
          · exact plain_idle
      · cases hs
  | maybeDestroy obj =>
      simp only [refStep] at hs
      split at hs
      · rename_i hidle
        cases hs
        exact ⟨⟨hl.null, pointOk_of_obj rfl hidle.2 rfl rfl trivial⟩,
          .keep rfl rfl rfl rfl (hplain hidle.1) fun _ => ⟨nofun, nofun⟩⟩
      · cases hs
  | grant table obj rights =>
      simp only [refStep] at hs
      split at hs
      · rename_i hidle
        have hobj : obj ≠ 0 := by
          rintro rfl
          rw [hl.null] at hidle
          exact absurd hidle.2 (lt_irrefl 0)
        split at hs
        · cases hs
          exact ⟨hl, .keep rfl rfl rfl rfl (hplain hidle.1) (hplain hidle.1)⟩
        · cases hs
          refine ⟨⟨hl.null, ?_, nofun, ?_, trivial⟩,
            .keep rfl rfl rfl rfl (hplain hidle.1) fun _ => ⟨nofun, nofun⟩⟩
          · intro _ h
            cases h
            exact hidle.2
          · intro h
            cases h
            exact hobj rfl
      · cases hs
  | close table handle =>
      simp only [refStep] at hs
      split at hs
      · rename_i hidle
        split at hs
        · cases hs
          exact ⟨hl, .keep rfl rfl rfl rfl (hplain hidle) (hplain hidle)⟩
        · rename_i hhandle
          cases hs
          exact ⟨⟨hl.null, nofun, nofun, nofun, Nat.lt_of_not_le hhandle⟩,
            .keep rfl rfl rfl rfl (hplain hidle) fun _ => ⟨nofun, nofun⟩⟩
      · cases hs
  | lookup table handle requiredRights =>
      simp only [refStep] at hs
      split at hs
      · rename_i hidle
        split at hs
        · cases hs
          exact ⟨hl, .keep rfl rfl rfl rfl (hplain hidle) (hplain hidle)⟩
        · rename_i hhandle
          cases hs
          exact ⟨⟨hl.null, nofun, nofun, nofun, Nat.lt_of_not_le hhandle⟩,
            .keep rfl rfl rfl rfl (hplain hidle) fun _ => ⟨nofun, nofun⟩⟩
      · cases hs
  | exec next => exact refExec_effect hl hu hs

/-! ## Each step is a step of the counts -/

section Simulation

variable {s t : RefSys ι T} {i : ι} {op : RefOp T} {obj : ℕ} {arch : Arch} {defaultRights : ℕ → ℕ}

/-- No step takes the mark away. -/
theorem RefEffect.mono {g' : RefShared T} {l' : RefCpu T} (h : RefEffect s i g' l')
    (hd : (s.shared.header obj).destroyed ≠ 0) : (g'.header obj).destroyed ≠ 0 := by
  have hupdate : ∀ o f, (∀ x : ObjectHeader, x.destroyed ≠ 0 → (f x).destroyed ≠ 0) →
      ((s.shared.update o f).header obj).destroyed ≠ 0 := by
    intro o f hf
    by_cases ho : obj = o
    · rw [ho, RefShared.update_header_self]
      exact hf _ (ho ▸ hd)
    · rw [RefShared.update_header_of_ne ho]
      exact hd
  cases h with
  | keep header tables freed owned before after =>
      rw [header]
      exact hd
  | take o before alive room shared after =>
      exact shared ▸ hupdate o .addRef fun x hx => by rwa [x.addRef_destroyed]
  | drop o point before plain owner shared after =>
      exact shared ▸ hupdate o .subRef fun x hx => by rwa [x.subRef_destroyed]
  | fill table idx o table' e before owner room slot entries object shared after =>
      rw [shared]
      exact hd
  | add o before shared after =>
      exact shared ▸ hupdate o .addHandle fun x hx => by rwa [x.addHandle_destroyed]
  | clear table handle before inTable shared after =>
      rw [shared]
      exact hd
  | sub o before shared after =>
      exact shared ▸ hupdate o .subHandle fun x hx => by rwa [x.subHandle_destroyed]
  | mark o before refs handles shared after =>
      exact shared ▸ hupdate o .mark fun _ _ => Nat.one_ne_zero
  | free o next before dead shared after =>
      rw [shared]
      exact hupdate o (·.link next) fun x hx => by rwa [x.link_destroyed]

/-- The counts of an object of which a step changes nothing. -/
theorem counts_same (hheader : t.shared.header obj = s.shared.header obj)
    (hfreed : t.shared.freed obj = s.shared.freed obj)
    (hnamed : t.shared.named obj = s.shared.named obj)
    (howned : (t.sum fun l => l.owned obj) = s.sum fun l => l.owned obj)
    (hgranting : t.sum (RefCpu.granting obj) = s.sum (RefCpu.granting obj))
    (hclosing : t.sum (RefCpu.closing obj) = s.sum (RefCpu.closing obj)) :
    t.counts obj = s.counts obj := by
  unfold RefSys.counts
  rw [hheader, hfreed, hnamed, howned, hgranting, hclosing]

/-- Writing an entry changes the number of entries of the old and of the new object. -/
theorem named_update {g : RefShared T} (g' : RefShared T) {table : T}
    {table' : CapTable} {idx : ℕ} {e : CapEntry}
    (hidx : idx < capTableMax) (htables : g'.tables = Function.update g.tables table table')
    (hentries : table'.entries = Function.update (g.tables table).entries idx e) (obj : ℕ) :
    g'.named obj + (if (g.entry table idx).object = obj then 1 else 0) =
      g.named obj + (if e.object = obj then 1 else 0) := by
  have hone := CapTable.named_update hidx hentries obj
  have hall := sum_update (Finset.mem_univ table) g.tables table' fun x => x.named obj
  unfold RefShared.named RefShared.entry
  rw [htables]
  omega

/-- A step that changes one header. -/
theorem counts_of_update {o : ℕ} {f : ObjectHeader → ObjectHeader}
    (hshared : t.shared = s.shared.update o f) (hne : obj ≠ o)
    (howned : (t.sum fun l => l.owned obj) = s.sum fun l => l.owned obj)
    (hgranting : t.sum (RefCpu.granting obj) = s.sum (RefCpu.granting obj))
    (hclosing : t.sum (RefCpu.closing obj) = s.sum (RefCpu.closing obj)) :
    t.counts obj = s.counts obj :=
  counts_same (by rw [hshared, RefShared.update_header_of_ne hne]) (by rw [hshared]; rfl)
    (by rw [hshared]; rfl) howned hgranting hclosing

variable (hsum : ∀ w : RefCpu T → ℕ, t.sum w + w (s.thread i) = s.sum w + w (t.thread i))

include hsum

omit [Fintype T] in
/-- Outside the two steps of `object_grant` and of `object_close` nothing is under way. -/
theorem sums_of_plain (obj : ℕ) (before : (s.thread i).point.Plain)
    (after : (t.thread i).point.Plain) :
    t.sum (RefCpu.granting obj) = s.sum (RefCpu.granting obj) ∧
      t.sum (RefCpu.closing obj) = s.sum (RefCpu.closing obj) := by
  have hgranting := hsum (RefCpu.granting obj)
  have hclosing := hsum (RefCpu.closing obj)
  rw [granting_of_plain before, granting_of_plain after] at hgranting
  rw [closing_of_plain before, closing_of_plain after] at hclosing
  exact ⟨hgranting, hclosing⟩

omit [Fintype T] [DecidableEq T] in
theorem sum_owned_of_eq (obj : ℕ) (h : (t.thread i).owned = (s.thread i).owned) :
    (t.sum fun l => l.owned obj) = s.sum fun l => l.owned obj := by
  have howned := hsum fun l => l.owned obj
  rw [h] at howned
  exact Nat.add_right_cancel howned

omit [Fintype T] [DecidableEq T] in
theorem sum_owned_of_at {point : RefPoint T} (obj : ℕ)
    (after : t.thread i = (s.thread i).at point) :
    (t.sum fun l => l.owned obj) = s.sum fun l => l.owned obj := by
  refine sum_owned_of_eq hsum obj ?_
  rw [after]
  rfl

theorem counts_take {o : ℕ} (before : (s.thread i).point.Plain)
    (alive : (s.shared.header o).destroyed = 0 ∨ 0 < s.shared.named o)
    (room : (s.shared.header o).refcount + 1 < 2 ^ 32)
    (shared : t.shared = s.shared.update o .addRef) (after : t.thread i = (s.thread i).take o) :
    (s.counts obj).Step (t.counts obj) := by
  obtain ⟨hgranting, hclosing⟩ := sums_of_plain hsum obj before (after ▸ plain_idle)
  have howned := hsum fun l => l.owned obj
  by_cases ho : obj = o
  · subst ho
    have hmine : (t.thread i).owned obj = (s.thread i).owned obj + 1 := by
      rw [after]
      exact Function.update_self _ _ _
    have hmore : (t.sum fun l => l.owned obj) = (s.sum fun l => l.owned obj) + 1 := by omega
    have heq : t.counts obj = { s.counts obj with
        refcount := ((s.counts obj).refcount + 1) % 2 ^ 32
        owned := (s.counts obj).owned + 1 } := by
      unfold RefSys.counts
      rw [shared, RefShared.update_header_self, hmore, hgranting, hclosing]
      unfold ObjectHeader.addRef
      rfl
    rw [heq]
    exact .take alive room
  · have hmine : (t.thread i).owned obj = (s.thread i).owned obj := by
      rw [after]
      exact Function.update_of_ne ho _ _
    rw [counts_of_update shared ho (by omega) hgranting hclosing]
    exact .keep

theorem counts_drop {o : ℕ} {point : RefPoint T} (before : (s.thread i).point.Plain)
    (plain : point.Plain) (owner : 0 < (s.thread i).owned o)
    (shared : t.shared = s.shared.update o .subRef)
    (after : t.thread i = (s.thread i).drop o point) : (s.counts obj).Step (t.counts obj) := by
  obtain ⟨hgranting, hclosing⟩ := sums_of_plain hsum obj before (after ▸ plain)
  have howned := hsum fun l => l.owned obj
  by_cases ho : obj = o
  · subst ho
    have hmine : (t.thread i).owned obj = (s.thread i).owned obj - 1 := by
      rw [after]
      exact Function.update_self _ _ _
    have hless : (t.sum fun l => l.owned obj) = (s.sum fun l => l.owned obj) - 1 := by omega
    have heq : t.counts obj = { s.counts obj with
        refcount := ((s.counts obj).refcount + 2 ^ 32 - 1) % 2 ^ 32
        owned := (s.counts obj).owned - 1 } := by
      unfold RefSys.counts
      rw [shared, RefShared.update_header_self, hless, hgranting, hclosing]
      unfold ObjectHeader.subRef
      rfl
    have hpos : 0 < s.sum fun l => l.owned obj := by omega
    rw [heq]
    exact .drop hpos
  · have hmine : (t.thread i).owned obj = (s.thread i).owned obj := by
      rw [after]
      exact Function.update_of_ne ho _ _
    rw [counts_of_update shared ho (by omega) hgranting hclosing]
    exact .keep

/-- The entry is written before `handle_count` is raised. -/
theorem counts_fill {table : T} {idx o : ℕ} {table' : CapTable} {e : CapEntry} (hobj : obj ≠ 0)
    (before : (s.thread i).point.Plain) (owner : 0 < (s.thread i).owned o)
    (room : s.shared.named o + s.sum (RefCpu.closing o) + 1 < 2 ^ 32)
    (slot : (s.shared.tables table).freeSlot = some idx)
    (entries : table'.entries = Function.update (s.shared.tables table).entries idx e)
    (object : e.object = o)
    (shared : t.shared = { s.shared with tables := Function.update s.shared.tables table table' })
    (after : t.thread i = (s.thread i).at (.handleAdd o)) :
    (s.counts obj).Step (t.counts obj) := by
  obtain ⟨hidx, hfree⟩ := CapTable.freeSlot_some slot
  have hsame := sum_owned_of_at hsum obj after
  have hgranting := hsum (RefCpu.granting obj)
  have hclosing := hsum (RefCpu.closing obj)
  have hc : (t.thread i).closing obj = 0 := by
    rw [after]
    exact if_neg nofun
  have hg : (t.thread i).granting obj = if o = obj then 1 else 0 := by
    rw [after]
    unfold RefCpu.granting RefCpu.at
    simp only [RefPoint.handleAdd.injEq]
  rw [closing_of_plain before, hc, Nat.add_zero, Nat.add_zero] at hclosing
  rw [granting_of_plain before, hg] at hgranting
  have hnamed := named_update t.shared hidx (by rw [shared]) entries obj
  have hempty : (s.shared.entry table idx).object = 0 := hfree
  rw [object, hempty, if_neg hobj.symm, Nat.add_zero] at hnamed
  by_cases ho : o = obj
  · subst ho
    rw [if_pos rfl] at hgranting hnamed
    have hpos : 0 < s.sum fun l => l.owned o :=
      owner.trans_le (s.le_sum (fun l => l.owned o) i)
    have heq : t.counts o = { s.counts o with
        named := (s.counts o).named + 1
        granting := (s.counts o).granting + 1 } := by
      have hmore : t.sum (RefCpu.granting o) = s.sum (RefCpu.granting o) + 1 := hgranting
      unfold RefSys.counts
      rw [hnamed, hmore, hsame, hclosing, shared]
    rw [heq]
    exact .fill hpos room
  · rw [if_neg ho] at hgranting hnamed
    have hkeep : t.counts obj = s.counts obj :=
      counts_same (by rw [shared]) (by rw [shared]) hnamed hsame hgranting hclosing
    rw [hkeep]
    exact .keep

theorem counts_add {o : ℕ} (before : (s.thread i).point = .handleAdd o)
    (shared : t.shared = s.shared.update o .addHandle)
    (after : t.thread i = (s.thread i).at .idle) :
    (s.counts obj).Step (t.counts obj) := by
  have hsame := sum_owned_of_at hsum obj after
  have hgranting := hsum (RefCpu.granting obj)
  have hclosing := hsum (RefCpu.closing obj)
  have hc : (t.thread i).closing obj = 0 := after ▸ closing_of_plain plain_idle obj
  have hc' : (s.thread i).closing obj = 0 := by
    unfold RefCpu.closing
    rw [before]
    exact if_neg nofun
  have hg : (t.thread i).granting obj = 0 := after ▸ granting_of_plain plain_idle obj
  have hg' : (s.thread i).granting obj = if o = obj then 1 else 0 := by
    unfold RefCpu.granting
    rw [before]
    simp only [RefPoint.handleAdd.injEq]
  rw [hc, hc', Nat.add_zero, Nat.add_zero] at hclosing
  rw [hg, hg', Nat.add_zero] at hgranting
  by_cases ho : obj = o
  · subst ho
    rw [if_pos rfl] at hgranting
    have hless : t.sum (RefCpu.granting obj) = s.sum (RefCpu.granting obj) - 1 := by omega
    have hpos : 0 < s.sum (RefCpu.granting obj) := by omega
    have heq : t.counts obj = { s.counts obj with
        handleCount := ((s.counts obj).handleCount + 1) % 2 ^ 32
        granting := (s.counts obj).granting - 1 } := by
      unfold RefSys.counts
      rw [shared, RefShared.update_header_self, hless, hsame, hclosing]
      unfold ObjectHeader.addHandle
      rfl
    rw [heq]
    exact .add hpos
  · rw [if_neg fun heq => ho heq.symm] at hgranting
    rw [counts_of_update shared ho hsame hgranting hclosing]
    exact .keep

/-- The entry is cleared before `handle_count` is lowered. -/
theorem counts_clear {table : T} {handle : ℕ} (hobj : obj ≠ 0)
    (before : (s.thread i).point.Plain) (inTable : handle < capTableMax)
    (shared : t.shared = s.shared.clear table handle)
    (after : t.thread i = (s.thread i).at (.handleSub (s.shared.entry table handle).object)) :
    (s.counts obj).Step (t.counts obj) := by
  have hsame := sum_owned_of_at hsum obj after
  have hgranting := hsum (RefCpu.granting obj)
  have hclosing := hsum (RefCpu.closing obj)
  have hg : (t.thread i).granting obj = 0 := by
    rw [after]
    exact if_neg nofun
  have hc : (t.thread i).closing obj =
      if (s.shared.entry table handle).object = obj then 1 else 0 := by
    rw [after]
    unfold RefCpu.closing RefCpu.at
    simp only [RefPoint.handleSub.injEq]
  rw [granting_of_plain before, hg, Nat.add_zero, Nat.add_zero] at hgranting
  rw [closing_of_plain before, hc] at hclosing
  have hnamed := named_update t.shared inTable (by rw [shared]; rfl)
    (rfl : ((s.shared.tables table).clearSlot handle).entries = _) obj
  rw [if_neg hobj.symm, Nat.add_zero] at hnamed
  by_cases ho : (s.shared.entry table handle).object = obj
  · rw [if_pos ho] at hclosing hnamed
    have hpos : 0 < s.shared.named obj := by omega
    have heq : t.counts obj = { s.counts obj with
        named := (s.counts obj).named - 1
        closing := (s.counts obj).closing + 1 } := by
      have hmore : t.sum (RefCpu.closing obj) = s.sum (RefCpu.closing obj) + 1 := hclosing
      have hless : t.shared.named obj = s.shared.named obj - 1 := by omega
      unfold RefSys.counts
      rw [hless, hmore, hsame, hgranting, shared]
      rfl
    rw [heq]
    exact .clear hpos
  · rw [if_neg ho] at hclosing hnamed
    have hkeep : t.counts obj = s.counts obj :=
      counts_same (by rw [shared]; rfl) (by rw [shared]; rfl) hnamed hsame hgranting hclosing
    rw [hkeep]
    exact .keep

theorem counts_sub {o : ℕ} (before : (s.thread i).point = .handleSub o)
    (shared : t.shared = s.shared.update o .subHandle)
    (after : t.thread i = (s.thread i).at (.lock o)) : (s.counts obj).Step (t.counts obj) := by
  have hsame := sum_owned_of_at hsum obj after
  have hgranting := hsum (RefCpu.granting obj)
  have hclosing := hsum (RefCpu.closing obj)
  have hg : (t.thread i).granting obj = 0 := by
    rw [after]
    exact if_neg nofun
  have hg' : (s.thread i).granting obj = 0 := by
    unfold RefCpu.granting
    rw [before]
    exact if_neg nofun
  have hc : (t.thread i).closing obj = 0 := by
    rw [after]
    exact if_neg nofun
  have hc' : (s.thread i).closing obj = if o = obj then 1 else 0 := by
    unfold RefCpu.closing
    rw [before]
    simp only [RefPoint.handleSub.injEq]
  rw [hg, hg', Nat.add_zero, Nat.add_zero] at hgranting
  rw [hc, hc', Nat.add_zero] at hclosing
  by_cases ho : obj = o
  · subst ho
    rw [if_pos rfl] at hclosing
    have hless : t.sum (RefCpu.closing obj) = s.sum (RefCpu.closing obj) - 1 := by omega
    have hpos : 0 < s.sum (RefCpu.closing obj) := by omega
    have heq : t.counts obj = { s.counts obj with
        handleCount := ((s.counts obj).handleCount + 2 ^ 32 - 1) % 2 ^ 32
        closing := (s.counts obj).closing - 1 } := by
      unfold RefSys.counts
      rw [shared, RefShared.update_header_self, hless, hsame, hgranting]
      unfold ObjectHeader.subHandle
      rfl
    rw [heq]
    exact .sub hpos
  · rw [if_neg fun heq => ho heq.symm] at hclosing
    rw [counts_of_update shared ho hsame hgranting hclosing]
    exact .keep

theorem counts_mark {o : ℕ} (hgrants : s.sum (RefCpu.granting obj) ≤ s.sum fun l => l.owned obj)
    (before : (s.thread i).point.Plain) (refs : (s.shared.header o).refcount = 0)
    (handles : (s.shared.header o).handleCount = 0) (shared : t.shared = s.shared.update o .mark)
    (after : t.thread i = (s.thread i).at (.unlock o true)) :
    (s.counts obj).Step (t.counts obj) := by
  obtain ⟨hgranting, hclosing⟩ := sums_of_plain hsum obj before
    (plain_of_eq (congrArg RefCpu.point after) fun _ => ⟨nofun, nofun⟩)
  have hsame := sum_owned_of_at hsum obj after
  by_cases ho : obj = o
  · subst ho
    have heq : t.counts obj = { s.counts obj with destroyed := 1 } := by
      unfold RefSys.counts
      rw [shared, RefShared.update_header_self, hsame, hgranting, hclosing]
      rfl
    rw [heq]
    exact .mark refs handles hgrants
  · rw [counts_of_update shared ho hsame hgranting hclosing]
    exact .keep

/-- `slab_free` writes the link of the free list into the header. -/
theorem counts_free {o next : ℕ} (before : (s.thread i).point.Plain)
    (dead : (s.shared.header o).destroyed ≠ 0)
    (shared : t.shared = { s.shared.update o (·.link next) with
      freed := Function.update s.shared.freed o true })
    (after : t.thread i = (s.thread i).at .idle) : (s.counts obj).Step (t.counts obj) := by
  obtain ⟨hgranting, hclosing⟩ := sums_of_plain hsum obj before (after ▸ plain_idle)
  have hsame := sum_owned_of_at hsum obj after
  have hheader : t.shared.header = (s.shared.update o (·.link next)).header := by rw [shared]
  have hfreed : t.shared.freed = Function.update s.shared.freed o true := by rw [shared]
  have htables : t.shared.tables = s.shared.tables := by
    rw [shared]
    rfl
  have hnamed : t.shared.named obj = s.shared.named obj := by rw [named_of_tables htables]
  by_cases ho : obj = o
  · subst ho
    have heq : t.counts obj = { s.counts obj with
        refcount := next / 2 ^ 32 % 2 ^ 32
        freed := true } := by
      unfold RefSys.counts
      rw [hheader, RefShared.update_header_self, hfreed, Function.update_self, hnamed, hsame,
        hgranting, hclosing]
      unfold ObjectHeader.link
      rfl
    rw [heq]
    exact .free dead _
  · have hkeep : t.counts obj = s.counts obj :=
      counts_same (by rw [hheader, RefShared.update_header_of_ne ho])
        (by rw [hfreed, Function.update_of_ne ho]) hnamed hsame hgranting hclosing
    rw [hkeep]
    exact .keep

/-- A step of a thread, seen from one object. -/
theorem RefEffect.counts (h : RefEffect s i t.shared (t.thread i)) (hobj : obj ≠ 0)
    (hgrants : s.sum (RefCpu.granting obj) ≤ s.sum fun l => l.owned obj) :
    (s.counts obj).Step (t.counts obj) := by
  cases h with
  | keep header tables freed owned before after =>
      obtain ⟨hgranting, hclosing⟩ := sums_of_plain hsum obj before after
      have hsame : t.counts obj = s.counts obj :=
        counts_same (by rw [header]) (by rw [freed]) (by rw [named_of_tables tables])
          (sum_owned_of_eq hsum obj owned) hgranting hclosing
      rw [hsame]
      exact .keep
  | take o before alive room shared after => exact counts_take hsum before alive room shared after
  | drop o point before plain owner shared after =>
      exact counts_drop hsum before plain owner shared after
  | fill table idx o table' e before owner room slot entries object shared after =>
      exact counts_fill hsum hobj before owner room slot entries object shared after
  | add o before shared after => exact counts_add hsum before shared after
  | clear table handle before inTable shared after =>
      exact counts_clear hsum hobj before inTable shared after
  | sub o before shared after => exact counts_sub hsum before shared after
  | mark o before refs handles shared after =>
      exact counts_mark hsum hgrants before refs handles shared after
  | free o next before dead shared after => exact counts_free hsum before dead shared after

end Simulation

/-! ## The invariant -/

structure RefInv (s : RefSys ι T) : Prop where
  cpu : ∀ i, CpuOk s.shared (s.thread i)
  good : ∀ obj ≠ 0, (s.counts obj).Good

namespace RefInv

variable {s : RefSys ι T} {obj : ℕ}

/-- A thread between the two steps of `object_grant` owns a reference. -/
theorem granting_le (h : RefInv s) (obj : ℕ) :
    s.sum (RefCpu.granting obj) ≤ s.sum fun l => l.owned obj := by
  refine Sys.sum_le_sum fun i => ?_
  unfold RefCpu.granting
  split
  · rename_i hpoint
    exact (h.cpu i).point.owner obj (by rw [hpoint]; rfl)
  · exact Nat.zero_le _

theorem dead (h : RefInv s) (hobj : obj ≠ 0) (hd : (s.shared.header obj).destroyed ≠ 0) :
    (s.sum fun l => l.owned obj) = 0 ∧ s.shared.named obj = 0 :=
  (h.good obj hobj).dead hd

theorem unreferenced (h : RefInv s) (hobj : obj ≠ 0) (hd : (s.shared.header obj).destroyed ≠ 0) :
    Unreferenced s obj := by
  obtain ⟨howned, hnamed⟩ := h.dead hobj hd
  exact ⟨Sys.sum_eq_zero.mp howned, RefShared.named_eq_zero.mp hnamed⟩

theorem ok (h : RefInv s) : DestroyedUnreferenced s where
  marked _ hobj hd := h.unreferenced hobj hd
  run i obj hpoint :=
    h.unreferenced ((h.cpu i).obj_ne (by rw [hpoint]; rfl))
      ((h.cpu i).point.doomed obj (by rw [hpoint]; rfl))

/-- An object that is referenced has not been freed. -/
theorem not_freed (h : RefInv s) (hobj : obj ≠ 0)
    (href : (∃ i, 0 < (s.thread i).owned obj) ∨ 0 < s.shared.named obj) :
    s.shared.freed obj = false := by
  cases hf : s.shared.freed obj with
  | false => rfl
  | true =>
      obtain ⟨howned, hnamed⟩ := h.dead hobj ((h.good obj hobj).freed_dead hf)
      rcases href with ⟨i, hi⟩ | hpos
      · have hnone := Sys.sum_eq_zero.mp howned i
        omega
      · omega

theorem owned_ne (h : RefInv s) {i : ι} (howned : 0 < (s.thread i).owned obj) : obj ≠ 0 := by
  rintro rfl
  rw [(h.cpu i).null] at howned
  exact lt_irrefl 0 howned

variable [DecidableEq ι] {t : RefSys ι T} {arch : Arch} {defaultRights : ℕ → ℕ} {a : ι × RefOp T}

theorem start (creator : ℕ → Option ι) (typeId objectId : ℕ → ℕ) :
    RefInv (RefSys.start creator typeId objectId : RefSys ι T) where
  cpu _ := ⟨by simp [RefSys.start], pointOk_idle _ _⟩
  good obj hobj := by
    have hnamed : (RefSys.start creator typeId objectId : RefSys ι T).shared.named obj = 0 :=
      RefShared.named_eq_zero.mpr fun _ _ _ heq => hobj heq.symm
    have hgranting : (RefSys.start creator typeId objectId : RefSys ι T).sum
        (RefCpu.granting obj) = 0 := Sys.sum_eq_zero.mpr fun _ => if_neg nofun
    have hclosing : (RefSys.start creator typeId objectId : RefSys ι T).sum
        (RefCpu.closing obj) = 0 := Sys.sum_eq_zero.mpr fun _ => if_neg nofun
    have howned : ((RefSys.start creator typeId objectId : RefSys ι T).sum fun l => l.owned obj) =
        if (creator obj).isSome then 1 else 0 := by
      unfold Sys.sum RefSys.start
      simp only [hobj, ne_eq, not_false_eq_true, true_and]
      cases creator obj with
      | none => simp
      | some i => simp
    have hcounts : (RefSys.start creator typeId objectId : RefSys ι T).counts obj =
        ⟨if (creator obj).isSome then 1 else 0, 0, 0, false,
          if (creator obj).isSome then 1 else 0, 0, 0, 0⟩ := by
      unfold RefSys.counts
      rw [howned, hnamed, hgranting, hclosing]
      simp [RefSys.start, hobj]
    rw [hcounts]
    refine ⟨fun _ => rfl, fun _ => ?_, fun _ => rfl, ?_, fun hd => absurd rfl hd, nofun⟩
    · change (if (creator obj).isSome then 1 else 0) < 2 ^ 32
      split <;> decide
    · change 0 + 0 < 2 ^ 32
      decide

theorem step (h : RefInv s) (hu : Undisturbed s a)
    (hs : Interleave (RefStep arch defaultRights) s a t) : RefInv t := by
  obtain ⟨i, op⟩ := a
  obtain ⟨hcpu, heffect⟩ := refStep_effect (h.cpu i) hu hs.self
  refine ⟨hs.forall_thread (P := fun g _ l => CpuOk g l) h.cpu hcpu fun _ _ hj =>
    hj.mono fun _ => heffect.mono, fun obj hobj => ?_⟩
  exact (h.good obj hobj).step (heffect.counts hs.sum hobj (h.granting_le obj))

end RefInv

/-! ## Destroyed objects -/

section Runs

variable [DecidableEq ι] {s : RefSys ι T} {arch : Arch} {defaultRights : ℕ → ℕ}
  {creator : ℕ → Option ι} {typeId objectId : ℕ → ℕ} {ops : List (ι × RefOp T)}

/-- In every interleaving whose steps are undisturbed, an object that is marked destroyed, or
whose `destroy` operation is run, is not referenced. -/
theorem destroy_race_run
    (hrun : Run (fun s e t => Undisturbed s e ∧ Interleave (RefStep arch defaultRights) s e t)
      (RefSys.start creator typeId objectId) ops s) : DestroyedUnreferenced s := by
  have hinv : RefInv s := hrun.invariant (fun _ _ _ h hs => h.step hs.1 hs.2) (RefInv.start _ _ _)
  exact hinv.ok

end Runs

/-- No other thread is in a call on the object whose slot is given back, and
`object_maybe_destroy` is called on no freed object. -/
structure FreedAlone (s : RefSys ι T) (e : ι × RefOp T) : Prop where
  free : ∀ next obj, e.2 = .exec next → (s.thread e.1).point = .free obj →
    ∀ i, i ≠ e.1 → (s.thread i).point.obj ≠ some obj
  call : ∀ obj, e.2 = .maybeDestroy obj → s.shared.freed obj = false

/-- Objects in use have not been freed. -/
structure InUseInv (s : RefSys ι T) : Prop where
  refs : RefInv s
  point : ∀ i obj, (s.thread i).point.obj = some obj → s.shared.freed obj = false

namespace InUseInv

variable [DecidableEq ι] {s t : RefSys ι T} {arch : Arch} {defaultRights : ℕ → ℕ}
  {a : ι × RefOp T}

omit [DecidableEq ι] in
theorem ok (h : InUseInv s) : NoUseAfterFree s where
  point := h.point
  deref i _ howned := h.refs.not_freed (h.refs.owned_ne howned) (.inl ⟨i, howned⟩)
  lookup _ _ hhandle hobj := h.refs.not_freed hobj (.inr (named_pos hhandle))

theorem start (creator : ℕ → Option ι) (typeId objectId : ℕ → ℕ) :
    InUseInv (RefSys.start creator typeId objectId : RefSys ι T) :=
  ⟨RefInv.start creator typeId objectId, fun _ _ _ => rfl⟩

theorem step (h : InUseInv s) (hu : Undisturbed s a) (hf : FreedAlone s a)
    (hs : Interleave (RefStep arch defaultRights) s a t) : InUseInv t := by
  obtain ⟨i, op⟩ := a
  refine ⟨h.refs.step hu hs, fun j obj hobj => ?_⟩
  have hself := hs.self
  -- the object of the next access was in use before the step
  have hbefore : s.shared.freed obj = false := by
    by_cases hj : j = i
    · subst hj
      rcases refStep_obj (h.refs.cpu j).point.inTable hself hobj with
        hpoint | howned | hcall | ⟨table, handle, hhandle, hne, rfl⟩
      · exact h.point j obj hpoint
      · exact h.ok.deref j obj howned
      · exact hf.call obj hcall
      · exact h.ok.lookup table handle hhandle hne
    · rw [hs.other hj] at hobj
      exact h.point j obj hobj
  rcases refStep_freed hself with hsame | ⟨next, o, hop, hpoint, hfreed⟩
  · rw [hsame]
    exact hbefore
  · by_cases ho : obj = o
    · subst ho
      by_cases hj : j = i
      · subst hj
        have hidle := refStep_free_idle hpoint hop hself
        rw [hidle] at hobj
        cases hobj
      · rw [hs.other hj] at hobj
        exact absurd hobj (hf.free next obj hop hpoint j hj)
    · rw [hfreed, Function.update_of_ne ho]
      exact hbefore

end InUseInv

section FreeRuns

variable [DecidableEq ι] {s : RefSys ι T} {arch : Arch} {defaultRights : ℕ → ℕ}
  {creator : ℕ → Option ι} {typeId objectId : ℕ → ℕ} {ops : List (ι × RefOp T)}

/-- When, besides, an object is freed only while no other thread is in a call on it, freed
objects are not used. -/
theorem free_race_run
    (hrun : Run (fun s e t => (Undisturbed s e ∧ FreedAlone s e) ∧
        Interleave (RefStep arch defaultRights) s e t)
      (RefSys.start creator typeId objectId) ops s) : NoUseAfterFree s := by
  have hinv : InUseInv s := hrun.invariant
    (fun _ _ _ h hs => h.step hs.1.1 hs.1.2 hs.2) (InUseInv.start _ _ _)
  exact hinv.ok

end FreeRuns

/-- The counters of the entries do not wrap while the tables have few slots. -/
theorem grant_room (hsmall : Fintype.card T * capTableMax + Fintype.card ι + 1 < 2 ^ 32)
    (s : RefSys ι T) (obj : ℕ) : s.shared.named obj + s.sum (RefCpu.closing obj) + 1 < 2 ^ 32 := by
  have hnamed : s.shared.named obj ≤ Fintype.card T * capTableMax := by
    unfold RefShared.named
    refine (Finset.sum_le_card_nsmul _ _ capTableMax fun table _ => ?_).trans_eq (by simp)
    unfold CapTable.named
    refine (Finset.sum_le_card_nsmul _ _ 1 fun _ _ => ?_).trans_eq (by simp)
    split <;> decide
  have hclosing : s.sum (RefCpu.closing obj) ≤ Fintype.card ι := by
    unfold Sys.sum
    refine (Finset.sum_le_card_nsmul _ _ 1 fun _ _ => ?_).trans_eq (by simp)
    unfold RefCpu.closing
    split <;> decide
  omega

/-- `Undisturbed` without the range of the handle counter, as a check. -/
def undisturbed (s : RefSys ι T) (e : ι × RefOp T) : Bool :=
  (match (s.thread e.1).point with
    | .loadHandle obj =>
        (s.shared.header obj).handleCount != 0 || (s.shared.header obj).destroyed != 0 ||
          (s.shared.header obj).refcount == 0
    | .lookupSection table handle rights =>
        !decide (s.shared.Found table handle rights) ||
          decide ((s.shared.header (s.shared.entry table handle).object).refcount + 1 < 2 ^ 32)
    | _ => true) &&
  match e.2 with
    | .ref obj => (s.shared.header obj).destroyed == 0 &&
        decide ((s.shared.header obj).refcount + 1 < 2 ^ 32)
    | _ => true

theorem undisturbed_sound (hsmall : Fintype.card T * capTableMax + Fintype.card ι + 1 < 2 ^ 32)
    {s : RefSys ι T} {e : ι × RefOp T} (h : undisturbed s e = true) : Undisturbed s e := by
  unfold undisturbed at h
  rw [Bool.and_eq_true] at h
  obtain ⟨hpoint, hop⟩ := h
  refine ⟨fun obj hobj hhandle hlive => ?_, fun obj hobj => ?_,
    fun table handle rights hobj hfound => ?_, fun _ obj _ _ _ => grant_room hsmall s obj⟩
  · rw [hobj] at hpoint
    simpa [hhandle, hlive] using hpoint
  · rw [hobj] at hop
    simpa using hop
  · rw [hobj] at hpoint
    simpa [hfound] using hpoint

/-- `FreedAlone` as a check. -/
def freedAlone [DecidableEq ι] (s : RefSys ι T) (e : ι × RefOp T) : Bool :=
  (match (s.thread e.1).point with
    | .free obj => decide (∀ i, i ≠ e.1 → (s.thread i).point.obj ≠ some obj)
    | _ => true) &&
  match e.2 with
    | .maybeDestroy obj => !s.shared.freed obj
    | _ => true

omit [Fintype T] [DecidableEq T] in
theorem freedAlone_sound [DecidableEq ι] {s : RefSys ι T} {e : ι × RefOp T}
    (h : freedAlone s e = true) : FreedAlone s e := by
  unfold freedAlone at h
  rw [Bool.and_eq_true] at h
  obtain ⟨hpoint, hop⟩ := h
  refine ⟨fun _ obj _ hobj => ?_, fun obj hobj => ?_⟩
  · rw [hobj] at hpoint
    simpa using hpoint
  · rw [hobj] at hop
    simpa using hop

end Counts

/-! ## Runs of two threads -/

/-- Thread `false` creates object 1. -/
def oneObject : RefSys Bool Unit :=
  RefSys.start (fun obj => if obj = 1 then some false else none) (fun _ => 0) fun obj => obj

/-- The object is granted, looked up, dereferenced, closed and dereferenced again. -/
def inTurnOps : List (Bool × RefOp Unit) :=
  [(false, .grant () 1 0), (false, .exec 0), (false, .exec 0),
    (true, .lookup () 0 0), (true, .exec 0), (false, .deref 1),
    (true, .close () 0)] ++ List.replicate 5 (true, .exec 0) ++
  [(true, .deref 1)] ++ List.replicate 7 (true, .exec 0)

theorem destroy_race_run_in_turn :
    ∃ s : RefSys Bool Unit,
      Run (fun s e t => Undisturbed s e ∧ Interleave (RefStep .riscv fun _ => 0) s e t)
        oneObject inTurnOps s ∧
      (s.shared.header 1).destroyed = 1 ∧ DestroyedUnreferenced s := by
  obtain ⟨s, hs, hdestroyed⟩ := Option.map_eq_some_iff.mp (by decide +kernel :
    (inTurnOps.foldlM (fun s e => if undisturbed s e then
        Sys.move (fun _ => refStep .riscv fun _ => 0) s e else none) oneObject).map
      (fun s => (s.shared.header 1).destroyed) = some 1)
  have hrun := (Sys.run_of_foldlM_if hs).mono fun _ _ _ hs =>
    And.imp_left (undisturbed_sound (by decide)) hs
  exact ⟨s, hrun, hdestroyed, destroy_race_run hrun⟩

/-- Between the load of `refcount` and the load of `handle_count`, the other thread looks the
object up and closes the handle. -/
def lookupBetween : List (Bool × RefOp Unit) :=
  [(false, .grant () 1 0), (false, .exec 0), (false, .exec 0), (false, .deref 1), (false, .exec 0),
    (false, .exec 0), (true, .lookup () 0 0), (true, .exec 0), (true, .close () 0),
    (true, .exec 0), (true, .exec 0), (false, .exec 0)]

/-- The object is marked destroyed while the other thread owns a reference that `cap_lookup`
has given it. -/
theorem lookup_then_destroyed :
    ∃ s : RefSys Bool Unit,
      Run (Interleave (RefStep .riscv fun _ => 0)) oneObject lookupBetween s ∧
      (s.shared.header 1).destroyed = 1 ∧ (s.thread true).owned 1 = 1 ∧
      ¬ DestroyedUnreferenced s := by
  obtain ⟨s, hs, hstate⟩ := Option.map_eq_some_iff.mp (by decide +kernel :
    (lookupBetween.foldlM (Sys.move fun _ => refStep .riscv fun _ => 0) oneObject).map
      (fun s => ((s.shared.header 1).destroyed, (s.thread true).owned 1)) = some (1, 1))
  obtain ⟨hdestroyed, howned⟩ := Prod.mk.inj hstate
  refine ⟨s, Sys.run_of_foldlM hs, hdestroyed, howned, fun hok => ?_⟩
  have hnone := (hok.marked 1 one_ne_zero (by rw [hdestroyed]; exact one_ne_zero)).1 true
  omega

theorem free_race_run_in_turn :
    ∃ s : RefSys Bool Unit,
      Run (fun s e t => (Undisturbed s e ∧ FreedAlone s e) ∧
          Interleave (RefStep .riscv fun _ => 0) s e t) oneObject inTurnOps s ∧
      s.shared.freed 1 = true ∧ NoUseAfterFree s := by
  obtain ⟨s, hs, hfreed⟩ := Option.map_eq_some_iff.mp (by decide +kernel :
    (inTurnOps.foldlM (fun s e => if undisturbed s e && freedAlone s e then
        Sys.move (fun _ => refStep .riscv fun _ => 0) s e else none) oneObject).map
      (fun s => s.shared.freed 1) = some true)
  have hcheck : ∀ (s : RefSys Bool Unit) e, (undisturbed s e && freedAlone s e) = true →
      Undisturbed s e ∧ FreedAlone s e := by
    intro s e h
    rw [Bool.and_eq_true] at h
    exact ⟨undisturbed_sound (by decide) h.1, freedAlone_sound h.2⟩
  have hrun := (Sys.run_of_foldlM_if hs).mono fun _ _ _ hs => And.imp_left (hcheck _ _) hs
  exact ⟨s, hrun, hfreed, free_race_run hrun⟩

/-- Thread `true` closes the handle and is about to take the lock of the object, which thread
`false` destroys and frees meanwhile. -/
def closeMeanwhile : List (Bool × RefOp Unit) :=
  [(false, .grant () 1 0), (false, .exec 0), (false, .exec 0), (false, .deref 1),
    (true, .close () 0), (true, .exec 0), (true, .exec 0)] ++
  List.replicate 7 (false, .exec 0) ++ [(true, .exec 0)]

/-- `object_close` takes the lock of an object that has been freed. -/
theorem close_locks_freed :
    ∃ s : RefSys Bool Unit,
      Run (Interleave (RefStep .riscv fun _ => 0)) oneObject closeMeanwhile s ∧
      s.shared.freed 1 = true ∧ (s.thread true).point = .loadRef 1 ∧ ¬ NoUseAfterFree s := by
  obtain ⟨s, hs, hstate⟩ := Option.map_eq_some_iff.mp (by decide +kernel :
    (closeMeanwhile.foldlM (Sys.move fun _ => refStep .riscv fun _ => 0) oneObject).map
      (fun s => (s.shared.freed 1, (s.thread true).point)) = some (true, .loadRef 1))
  obtain ⟨hfreed, hpoint⟩ := Prod.mk.inj hstate
  refine ⟨s, Sys.run_of_foldlM hs, hfreed, hpoint, fun hok => ?_⟩
  have hlive := hok.point true 1 (by rw [hpoint]; rfl)
  rw [hfreed] at hlive
  cases hlive

end Vectra

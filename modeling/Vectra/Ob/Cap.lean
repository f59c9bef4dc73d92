import Vectra.Ob.Object

/-!
# Capability tables: `cap.c`

A table has 4096 entries and a hint where the search for a free one starts.
Each function is run without interruption here.
-/

namespace Vectra

open Lib SlabMem

def capTableMax : ℕ := 4096

def capInvalid : ℕ := 2 ^ 32 - 1

inductive Arch
  | riscv
  | arm64
  deriving DecidableEq

/-- What `atomic_store_release` stores: `rvlock.hpp` stores zero, whatever the
value is. -/
def atomicStoreRelease : Arch → ℕ → ℕ
  | .riscv, _ => 0
  | .arm64, newVal => newVal

/-- The table that `cap_table_create` returns. -/
def capTableCreate : CapTable := ⟨fun _ => ⟨0, 0, 0⟩, 0⟩

/-- The index that iteration `i` of the loop in `object_grant` looks at. -/
def CapTable.probe (table : CapTable) (i : ℕ) : ℕ :=
  (table.nextFreeHint + i) % 2 ^ 32 % capTableMax

/-- The slot that the loop in `object_grant` finds. -/
def CapTable.freeSlot (table : CapTable) : Option ℕ :=
  (firstFrom (fun i => (table.entries (table.probe i)).object == 0) 0 capTableMax).map table.probe

/-- The stores of the loop in `object_grant`. -/
def CapTable.fillSlot (arch : Arch) (table : CapTable) (idx obj rights generation : ℕ) :
    CapTable where
  entries := Function.update table.entries idx ⟨obj, rights, generation⟩
  nextFreeHint := atomicStoreRelease arch (idx + 1)

/-- `entries[handle].object = NULL`. -/
def CapTable.clearSlot (table : CapTable) (handle : ℕ) : CapTable :=
  { table with
    entries := Function.update table.entries handle { table.entries handle with object := 0 } }

variable {n : ℕ} {T : Type} [DecidableEq T]

/-- `object_grant` does not return when the type index of the object leaves
the array of types. -/
def objectGrant (types : Fin n → ObjectType) (arch : Arch) (s : ObState n T) (table : T)
    (obj rights : ℕ) : Option (ℕ × ObState n T) :=
  if h : objTypeId.get s.mem obj < n then
    if rights &&& (types ⟨objTypeId.get s.mem obj, h⟩).defaultRights ≠ rights then
      some (capInvalid, s)
    else
      match (s.tables table).freeSlot with
      | none => some (capInvalid, s)
      | some idx =>
          some (idx, { s with
            tables := Function.update s.tables table
              ((s.tables table).fillSlot arch idx obj rights (objGeneration.get s.mem obj))
            mem := atomicFetchAdd objHandleCount s.mem obj 1 })
  else none

/-- The common end of `object_close` and of the stale branch of `cap_lookup`. -/
def closeSlot (types : Fin n → ObjectType) (s : ObState n T) (table : T) (handle : ℕ) :
    Option (ObState n T) :=
  let obj := ((s.tables table).entries handle).object
  objectMaybeDestroy types { s with
    tables := Function.update s.tables table ((s.tables table).clearSlot handle)
    mem := atomicFetchSub objHandleCount s.mem obj 1 } obj

def objectClose (types : Fin n → ObjectType) (s : ObState n T) (table : T) (handle : ℕ) :
    Option (ℤ × ObState n T) :=
  if capTableMax ≤ handle then some (-1, s)
  else if ((s.tables table).entries handle).object = 0 then some (-1, s)
  else (closeSlot types s table handle).map fun s => (0, s)

def capLookup (types : Fin n → ObjectType) (s : ObState n T) (table : T)
    (handle requiredRights : ℕ) : Option (ℕ × ObState n T) :=
  if capTableMax ≤ handle then some (0, s)
  else
    let e := (s.tables table).entries handle
    if e.object = 0 then some (0, s)
    else if objGeneration.get s.mem e.object ≠ e.generation then
      -- the entry is stale
      (closeSlot types s table handle).map fun s => (0, s)
    else if e.rights &&& requiredRights ≠ requiredRights then some (0, s)
    else some (e.object, objectRef s e.object)

end Vectra

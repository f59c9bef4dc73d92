import Vectra.Lib.Run
import Vectra.Lib.Scan
import Vectra.Libkern.Hash

/-!
# Objects: `ob.c`

An object is a slot of the slab of its type: a header, then the payload.
The header is read from and written to memory field by field, so a recycled
slot keeps what nobody writes. The types are registered before the run; their
`create` and `destroy` operations are given as functions on memory.
-/

namespace Vectra

open Lib SlabMem

/-! ## Data -/

/-- The fields of `object_header_t` that the functions use. -/
def objTypeId : Field := ⟨0, 4⟩

def objRefcount : Field := ⟨4, 4⟩

def objHandleCount : Field := ⟨8, 4⟩

def objGeneration : Field := ⟨12, 4⟩

def objObjectId : Field := ⟨16, 8⟩

def objLock : Field := ⟨24, 4⟩

def objDestroyed : Field := ⟨28, 1⟩

/-- `sizeof(object_header_t)`. -/
def objectHeaderSize : ℕ := 48

def maxObjectTypes : ℕ := 64

/-- `object_type_t` without its slab. An operation that is absent is a null
pointer; the arguments are the object, then `create_args`. -/
structure ObjectType where
  instanceSize : ℕ
  create : Option (ℕ → ℕ → Bytes → ℤ × Bytes)
  destroy : Option (ℕ → Bytes → Bytes)
  defaultRights : ℕ

structure CapEntry where
  object : ℕ
  rights : ℕ
  generation : ℕ
  deriving DecidableEq

/-- `cap_table_t` without its lock, which is free between two operations. -/
structure CapTable where
  entries : ℕ → CapEntry
  nextFreeHint : ℕ

/-- The object manager with the memory below it, and the capability tables.
`destroyCalls` lists the objects on which `ops.destroy` has been called. -/
structure ObState (n : ℕ) (T : Type) where
  mem : Bytes
  pmm : Pmm
  slabs : Fin n → SlabCache
  idTable : Hashtable
  nextObjectId : ℕ
  tables : T → CapTable
  destroyCalls : List ℕ

/-! ## The functions -/

def atomicFetchAdd (f : Field) (m : Bytes) (obj val : ℕ) : Bytes :=
  f.set m obj ((f.get m obj + val) % 2 ^ 32)

def atomicFetchSub (f : Field) (m : Bytes) (obj val : ℕ) : Bytes :=
  f.set m obj ((f.get m obj + 2 ^ 32 - val) % 2 ^ 32)

variable {n : ℕ} {T : Type}

/-- The stores of `object_create` into the header; `destroyed` is not among them. -/
def initHeader (m : Bytes) (obj typeId id : ℕ) : Bytes :=
  objLock.set
    (objObjectId.set
      (objGeneration.set
        (objHandleCount.set
          (objRefcount.set (objTypeId.set m obj typeId) obj 1) obj 0) obj 0) obj id) obj 0

/-- `object_create`; the result 0 is the null pointer. -/
def objectCreate (types : Fin n → ObjectType) (s : ObState n T) (type : Fin n)
    (createArgs : ℕ) : Option (ℕ × ObState n T) :=
  match slabAlloc s.mem s.pmm (s.slabs type) with
  | none => none
  | some (obj, m, p, c) =>
      let slabs := Function.update s.slabs type c
      if obj = 0 then some (0, { s with mem := m, pmm := p, slabs := slabs })
      else
        let m := initHeader m obj type s.nextObjectId
        let next := (s.nextObjectId + 1) % 2 ^ 32
        let (ret, m) := match (types type).create with
          | none => (0, m)
          | some f => f obj createArgs m
        if ret ≠ 0 then
          let (m, c) := slabFree m c obj
          some (0, { s with
            mem := m, pmm := p, slabs := Function.update slabs type c, nextObjectId := next })
        else
          match hashtableInsert s.idTable m p (objObjectId.get m obj) obj with
          | none => none
          | some (ht, m, p) =>
              some (obj, { s with
                mem := m, pmm := p, slabs := slabs, idTable := ht, nextObjectId := next })

def objectRef (s : ObState n T) (obj : ℕ) : ObState n T :=
  { s with mem := atomicFetchAdd objRefcount s.mem obj 1 }

/-- The part of `object_maybe_destroy` behind the lock. It does not return
when the type index leaves the array of types. -/
def objectDestroy (types : Fin n → ObjectType) (s : ObState n T) (obj : ℕ) :
    Option (ObState n T) :=
  if h : objTypeId.get s.mem obj < n then
    let type : Fin n := ⟨objTypeId.get s.mem obj, h⟩
    let (m, calls) := match (types type).destroy with
      | none => (s.mem, s.destroyCalls)
      | some f => (f obj s.mem, s.destroyCalls ++ [obj])
    match hashtableRemove s.idTable m (objObjectId.get m obj) with
    | none => none
    | some (ht, m) =>
        let (m, c) := slabFree m (s.slabs type) obj
        some { s with
          mem := m, slabs := Function.update s.slabs type c, idTable := ht, destroyCalls := calls }
  else none

def objectMaybeDestroy (types : Fin n → ObjectType) (s : ObState n T) (obj : ℕ) :
    Option (ObState n T) :=
  if objRefcount.get s.mem obj = 0 ∧ objHandleCount.get s.mem obj = 0 ∧
      objDestroyed.get s.mem obj = 0 then
    objectDestroy types { s with mem := objDestroyed.set s.mem obj 1 } obj
  else some s

def objectDeref (types : Fin n → ObjectType) (s : ObState n T) (obj : ℕ) :
    Option (ObState n T) :=
  let s' := { s with mem := atomicFetchSub objRefcount s.mem obj 1 }
  if objRefcount.get s.mem obj = 1 then objectMaybeDestroy types s' obj else some s'

end Vectra

import Vectra.Lib.Scan
import Vectra.Mm.Tables

/-!
# Address spaces of the arm64 port

Four levels of 512 descriptors each, the ASID pool, and the TLB as the set
of translations that the hardware has cached. The tables are addressed
physically, since `PHYS_TO_VIRT` is the identity.
-/

namespace Vectra.Arm64

open Lib

/-! ## Descriptors and indices -/

def ptLevels : ℕ := 4

def pteValid : ℕ := 1 <<< 0

def pteTable : ℕ := 1 <<< 1

def pteAttrIdx (i : ℕ) : ℕ := (i &&& 0x7) <<< 2

def pteApRwAll : ℕ := 1 <<< 6

def pteApRoAll : ℕ := 3 <<< 6

def pteShInner : ℕ := 3 <<< 8

def pteAf : ℕ := 1 <<< 10

def pteNg : ℕ := 1 <<< 11

def ptePxn : ℕ := 1 <<< 53

def pteUxn : ℕ := 1 <<< 54

def pteAddrMask : ℕ := 0x0000FFFFFFFFF000

def pteAddr (phys : ℕ) : ℕ := phys &&& pteAddrMask

def mairIdxNormal : ℕ := 0

def protWrite : ℕ := 1 <<< 1

def protExec : ℕ := 1 <<< 2

def levelIndex (va level : ℕ) : ℕ := (va >>> (12 + 9 * (ptLevels - 1 - level))) &&& (512 - 1)

/-! ## The ASID pool -/

def asidPoolSize : ℕ := 256

/-- `asid_alloc`, with `none` for `-1`. -/
def asidAlloc (used : ℕ → Bool) : Option (ℕ × (ℕ → Bool)) :=
  (firstFrom (fun i => !used i) 1 (asidPoolSize - 1)).map fun i => (i, Function.update used i true)

def asidFree (used : ℕ → Bool) (asid : ℕ) : ℕ → Bool := Function.update used asid false

/-! ## The machine -/

/-- A page number, the bits 47..12 of an address. -/
abbrev PageNumber : Type := Fin (2 ^ 36)

def pageNumber (va : ℕ) : PageNumber := ⟨va / 4096 % 2 ^ 36, Nat.mod_lt _ (by norm_num)⟩

structure TlbEntry where
  asid : ℕ
  page : PageNumber
  descriptor : ℕ
  deriving DecidableEq

/-- `pagetable_root_t`. Nothing writes to it after `arch_pagetable_create`. -/
structure PagetableRoot where
  ttbr0Phys : ℕ
  asid : ℕ
  deriving DecidableEq

structure Machine where
  pmm : Pmm
  mem : Bytes
  asidUsed : ℕ → Bool
  tlb : List TlbEntry

/-- `tlb_invalidate_va_asid`: `tlbi vae1is` drops the entries whose ASID is in
the bits 63..48 of its argument and whose page is in the bits 43..0. -/
def tlbInvalidateVaAsid (tlb : List TlbEntry) (va asid : ℕ) : List TlbEntry :=
  let arg := (asid <<< 48) ||| ((va >>> 12) &&& 0xFFFFFFFFFFF)
  tlb.filter fun e => !(e.asid == arg >>> 48 && e.page.val == arg % 2 ^ 44)

/-! ## The functions -/

/-- `alloc_table_page`; the result is `none` on a panic, and the address 0 when
there is no frame. -/
def allocTablePage (p : Pmm) (m : Bytes) : Option (ℕ × Pmm × Bytes) :=
  match pmmAllocFrame p with
  | none => none
  | some (phys, p') =>
      if phys = 0 then some (0, p', m) else some (phys, p', fill m phys 0#8 pageSize)

/-- What `arch_pagetable_create` does to the tables and the ASIDs; `kmallocOk` tells whether
`kmalloc` found room for the root. `Pool.archPagetableCreate` has the calls on the kernel heap
too, and between other steps of the kernel it comes to this. -/
def archPagetableCreate (kmallocOk : Bool) (s : Machine) :
    Option (Option PagetableRoot × Machine) :=
  if kmallocOk then
    match allocTablePage s.pmm s.mem with
    | none => none
    | some (l0Phys, p, m) =>
        if l0Phys = 0 then some (none, { s with pmm := p, mem := m })
        else
          match asidAlloc s.asidUsed with
          | none => some (none, { s with pmm := pmmFreeFrame p l0Phys, mem := m })
          | some (asid, used) =>
              some (some ⟨l0Phys, asid⟩, { s with pmm := p, mem := m, asidUsed := used })
  else some (none, s)

/-- `free_table_recursive` on a table with `n` levels below it. -/
def freeTableRecursive (m : Bytes) : ℕ → ℕ → Pmm → Pmm
  | 0, table, p => pmmFreeFrame p table
  | n + 1, table, p =>
      pmmFreeFrame
        ((List.finRange 512).foldl (fun p i =>
          if tableEntry m table i &&& pteValid ≠ 0 ∧ tableEntry m table i &&& pteTable ≠ 0 then
            freeTableRecursive m n (tableEntry m table i &&& pteAddrMask) p
          else p) p) table

def archPagetableDestroy (s : Machine) (root : PagetableRoot) : Machine :=
  { s with
    pmm := freeTableRecursive s.mem (ptLevels - 1) root.ttbr0Phys s.pmm
    asidUsed := asidFree s.asidUsed root.asid }

/-- The table below the entry at `entry`, which `walk_create` hangs there if there is
none. -/
def childTable (p : Pmm) (m : Bytes) (entry : ℕ) : Option (Option ℕ × Pmm × Bytes) :=
  if readLE m entry 8 &&& pteValid = 0 then
    match allocTablePage p m with
    | none => none
    | some (childPhys, p, m) =>
        if childPhys = 0 then some (none, p, m)
        else
          let m := writeLE m entry 8 (pteAddr childPhys ||| pteTable ||| pteValid)
          some (some (readLE m entry 8 &&& pteAddrMask), p, m)
  else some (some (readLE m entry 8 &&& pteAddrMask), p, m)

/-- `walk_create` from a table with `n` levels below it; the result is `some none` for
the null pointer. -/
def walkCreate (va : ℕ) : ℕ → ℕ → Pmm → Bytes → Option (Option ℕ × Pmm × Bytes)
  | 0, table, p, m => some (some (table + 8 * levelIndex va (ptLevels - 1)), p, m)
  | n + 1, table, p, m =>
      match childTable p m (table + 8 * levelIndex va (ptLevels - 1 - (n + 1))) with
      | none => none
      | some (none, p, m) => some (none, p, m)
      | some (some child, p, m) => walkCreate va n child p m

/-- The descriptor that `arch_map_page` writes. -/
def leafDescriptor (phys prot : ℕ) : ℕ :=
  let attrs := pteAttrIdx mairIdxNormal ||| pteShInner ||| pteAf ||| pteNg
  let attrs := attrs ||| if prot &&& protWrite ≠ 0 then pteApRwAll else pteApRoAll
  let attrs := if prot &&& protExec = 0 then attrs ||| (pteUxn ||| ptePxn) else attrs ||| ptePxn
  pteAddr phys ||| pteTable ||| pteValid ||| attrs

def archMapPage (s : Machine) (root : PagetableRoot) (va phys prot : ℕ) : Option (ℤ × Machine) :=
  match walkCreate va (ptLevels - 1) root.ttbr0Phys s.pmm s.mem with
  | none => none
  | some (none, p, m) => some (-1, { s with pmm := p, mem := m })
  | some (some pte, p, m) =>
      some (0, { s with
        pmm := p
        mem := writeLE m pte 8 (leafDescriptor phys prot)
        tlb := tlbInvalidateVaAsid s.tlb va root.asid })

def archUnmapPage (s : Machine) (root : PagetableRoot) (va : ℕ) : Option (ℤ × Machine) :=
  match walkCreate va (ptLevels - 1) root.ttbr0Phys s.pmm s.mem with
  | none => none
  | some (none, p, m) => some (-1, { s with pmm := p, mem := m })
  | some (some pte, p, m) =>
      if readLE m pte 8 &&& pteValid = 0 then some (-1, { s with pmm := p, mem := m })
      else
        some (0, { s with
          pmm := p
          mem := writeLE m pte 8 0
          tlb := tlbInvalidateVaAsid s.tlb va root.asid })

/-! ## The hardware walk -/

/-- The architecture's walk from a table with `n` levels below it: the bits 1..0 of a
descriptor are 3 for a table, or for a page at the last level, and 1 for a block
at the two levels in between. -/
def hwWalkFrom (m : Bytes) (page : PageNumber) : ℕ → ℕ → Option ℕ
  | 0, table =>
      let d := readLE m (table + 8 * (page.val % 512)) 8
      if d % 4 = 3 then some d else none
  | n + 1, table =>
      let d := readLE m (table + 8 * (page.val / 512 ^ (n + 1) % 512)) 8
      if d % 4 = 3 then hwWalkFrom m page n (d / 4096 % 2 ^ 36 * 4096)
      else if d % 4 = 1 ∧ n < 2 then some d
      else none

/-- The leaf descriptor that translates a page. -/
def hwWalk (m : Bytes) (ttbr0 : ℕ) (page : PageNumber) : Option ℕ := hwWalkFrom m page 3 ttbr0

/-- The address that a leaf descriptor translates its page to. -/
def outputAddress (d : ℕ) : ℕ := d / 4096 % 2 ^ 36 * 4096

end Vectra.Arm64

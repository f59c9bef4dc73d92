import Vectra.Lib.Chain
import Vectra.Lib.Bytes
import Vectra.Mm.FrameInvariant

/-!
# The slab allocator of `slab.c`

A cache is a list of pages, linked through the `frame_t` at the start of
each page, and a free list threaded through the first word of the free
slots. Both lists live in memory. The memory itself is a parameter: the
kernel heap uses plain bytes, the object and hash slabs records of their
own, and all of them share the functions and proofs of this file.
-/

namespace Vectra

open Lib

/-- `frame_t`. -/
structure FrameMeta where
  physAddr : ℕ
  next : ℕ
  deriving DecidableEq

/-- `sizeof(frame_t)`. -/
def frameMetaSize : ℕ := 16

/-- `slab_cache_t` without its lock, which is free between two operations. -/
structure SlabCache where
  objSize : ℕ
  slabs : ℕ
  freeObjects : ℕ
  deriving DecidableEq

/-- A memory in which a slab can thread its two lists. A `free_node` covers
the eight bytes from its address, a `frame_t` sixteen. -/
class SlabMem (M : Type) (C : outParam Type) where
  cell : M → ℕ → C
  link : M → ℕ → ℕ
  setLink : M → ℕ → ℕ → M
  frame : M → ℕ → FrameMeta
  setFrame : M → ℕ → FrameMeta → M
  link_congr : ∀ (m m' : M) (a : ℕ), (∀ x, a ≤ x → x < a + 8 → cell m' x = cell m x) →
    link m' a = link m a
  frame_congr : ∀ (m m' : M) (a : ℕ), (∀ x, a ≤ x → x < a + 16 → cell m' x = cell m x) →
    frame m' a = frame m a
  cell_setLink : ∀ (m : M) (a v x : ℕ), x < a ∨ a + 8 ≤ x → cell (setLink m a v) x = cell m x
  cell_setFrame : ∀ (m : M) (a : ℕ) (f : FrameMeta) (x : ℕ), x < a ∨ a + 16 ≤ x →
    cell (setFrame m a f) x = cell m x
  link_setLink : ∀ (m : M) (a v : ℕ), v < 2 ^ 64 → link (setLink m a v) a = v
  frame_setFrame : ∀ (m : M) (a : ℕ) (f : FrameMeta), f.physAddr < 2 ^ 64 → f.next < 2 ^ 64 →
    frame (setFrame m a f) a = f

open SlabMem

section Functions

variable {M C : Type} [SlabMem M C]

/-- The carving loop of `slab_grow`, with the pointer arithmetic of the
source. The fuel counts iterations; a loop that outlasts the number of
pointer values never ends. -/
def carve (m : M) (head objSize stop ptr : ℕ) : ℕ → Option (M × ℕ)
  | 0 => none
  | n + 1 =>
      if (ptr + objSize) % 2 ^ 64 ≤ stop then
        carve (setLink m ptr head) ptr objSize stop ((ptr + objSize) % 2 ^ 64) n
      else some (m, head)

/-- The first slot of a page. -/
def firstSlot (page : ℕ) : ℕ := alignUp ((page + frameMetaSize) % 2 ^ 64) 8

/-- `slab_grow`. The result is `none` when the call does not return. -/
def slabGrow (m : M) (p : Pmm) (c : SlabCache) : Option (M × Pmm × SlabCache) :=
  match pmmAllocFrame p with
  | none => none
  | some (phys, p') =>
      if phys = 0 then none
      else
        match carve (setFrame m phys ⟨phys, c.slabs⟩) c.freeObjects c.objSize
            ((phys + pageSize) % 2 ^ 64) (firstSlot phys) (2 ^ 64) with
        | none => none
        | some (m', head) => some (m', p', { c with slabs := phys, freeObjects := head })

/-- The part of `slab_alloc` after the growth: pop the head of the free list. -/
def slabPop (m : M) (c : SlabCache) : ℕ × SlabCache :=
  if c.freeObjects = 0 then (0, c)
  else (c.freeObjects, { c with freeObjects := link m c.freeObjects })

/-- `slab_alloc` on an existing cache; the address 0 stands for `NULL`. -/
def slabAlloc (m : M) (p : Pmm) (c : SlabCache) : Option (ℕ × M × Pmm × SlabCache) :=
  if c.freeObjects = 0 then
    match slabGrow m p c with
    | none => none
    | some (m', p', c') => some ((slabPop m' c').1, m', p', (slabPop m' c').2)
  else some ((slabPop m c).1, m, p, (slabPop m c).2)

/-- `slab_free` on an existing cache. -/
def slabFree (m : M) (c : SlabCache) (obj : ℕ) : M × SlabCache :=
  if obj = 0 then (m, c)
  else (setLink m obj c.freeObjects, { c with freeObjects := obj })

end Functions

/-- The object size that `slab_cache_create` stores. -/
def slabObjSize (objSize : ℕ) : ℕ := alignUp (if objSize < 8 then 8 else objSize) 8

/-- The fields that `slab_cache_create` gives a new cache. -/
def newSlabCache (objSize : ℕ) : SlabCache := ⟨slabObjSize objSize, 0, 0⟩

/-! ## The slots of a page -/

/-- `n` consecutive slots. -/
def slotsFrom (ptr objSize : ℕ) : ℕ → List ℕ
  | 0 => []
  | n + 1 => ptr :: slotsFrom (ptr + objSize) objSize n

/-- The slots that the carving loop cuts out of a page. -/
def pageSlots (objSize page : ℕ) : List ℕ :=
  slotsFrom (firstSlot page) objSize ((page + pageSize - firstSlot page) / objSize)

theorem mem_slotsFrom {ptr objSize n x : ℕ} :
    x ∈ slotsFrom ptr objSize n ↔ ∃ k < n, x = ptr + k * objSize := by
  induction n generalizing ptr with
  | zero => simp [slotsFrom]
  | succ n ih =>
      rw [slotsFrom, List.mem_cons, ih]
      constructor
      · rintro (rfl | ⟨k, hk, rfl⟩)
        · exact ⟨0, by omega, by simp⟩
        · exact ⟨k + 1, by omega, by rw [Nat.add_mul]; omega⟩
      · rintro ⟨k, hk, rfl⟩
        cases k with
        | zero => exact Or.inl (by simp)
        | succ k => exact Or.inr ⟨k, by omega, by rw [Nat.add_mul]; omega⟩

theorem firstSlot_bounds {page : ℕ} (h : page + pageSize ≤ 2 ^ 64) :
    page + 16 ≤ firstSlot page ∧ firstSlot page ≤ page + 23 ∧ firstSlot page % 8 = 0 := by
  unfold pageSize at h
  have hmod : (page + frameMetaSize) % 2 ^ 64 = page + 16 := Nat.mod_eq_of_lt (by
    unfold frameMetaSize
    omega)
  have heq : firstSlot page = (page + 16 + 7) / 8 * 8 := by
    unfold firstSlot
    rw [hmod, alignUp_eight (by omega)]
  omega

section Slots

variable {page objSize x y : ℕ}

theorem mem_pageSlots (h : page + pageSize ≤ 2 ^ 64)
    (hx : x ∈ pageSlots objSize page) :
    page + 16 ≤ x ∧ x + objSize ≤ page + pageSize ∧ (objSize % 8 = 0 → x % 8 = 0) := by
  obtain ⟨hlo, hhi, halign⟩ := firstSlot_bounds h
  obtain ⟨k, hk, rfl⟩ := mem_slotsFrom.mp hx
  have hle : (k + 1) * objSize ≤ page + pageSize - firstSlot page :=
    (Nat.mul_le_mul_right objSize hk).trans (Nat.div_mul_le_self _ _)
  rw [Nat.add_mul, Nat.one_mul] at hle
  have hpage : firstSlot page ≤ page + pageSize := by
    unfold pageSize
    omega
  refine ⟨by omega, by omega, ?_⟩
  intro hdvd
  rw [Nat.add_mod, halign, Nat.mul_mod, hdvd]
  simp

theorem pageSlots_separate (hx : x ∈ pageSlots objSize page) (hy : y ∈ pageSlots objSize page)
    (hne : x ≠ y) : x + objSize ≤ y ∨ y + objSize ≤ x := by
  obtain ⟨j, _, rfl⟩ := mem_slotsFrom.mp hx
  obtain ⟨k, _, rfl⟩ := mem_slotsFrom.mp hy
  rcases Nat.lt_trichotomy j k with hlt | heq | hgt
  · have hle := Nat.mul_le_mul_right objSize hlt
    rw [Nat.succ_mul] at hle
    omega
  · exact absurd (by rw [heq]) hne
  · have hle := Nat.mul_le_mul_right objSize hgt
    rw [Nat.succ_mul] at hle
    omega

end Slots

/-! ## The carving loop -/

section Carve

variable {M C : Type} [SlabMem M C]

/-- The loop pushes the slots one by one, in increasing order, and writes
nothing outside them. -/
theorem carve_spec {m : M} {head objSize stop ptr n fuel : ℕ} {free : List ℕ}
    (hsize : 8 ≤ objSize) (hroom : stop + objSize < 2 ^ 64) (hptr : 0 < ptr)
    (hlo : ptr + n * objSize ≤ stop) (hhi : stop < ptr + (n + 1) * objSize) (hfuel : n < fuel)
    (hhead : head < 2 ^ 64) (hchain : Chain (link m) head free)
    (hsep : ∀ x ∈ free, x + 8 ≤ ptr ∨ stop ≤ x) :
    ∃ m' head', carve m head objSize stop ptr fuel = some (m', head') ∧ head' < 2 ^ 64 ∧
      Chain (link m') head' ((slotsFrom ptr objSize n).reverse ++ free) ∧
      ∀ x, x < ptr ∨ stop ≤ x → cell m' x = cell m x := by
  induction n generalizing m head ptr fuel free with
  | zero =>
      obtain ⟨fuel, rfl⟩ := Nat.exists_eq_add_of_lt hfuel
      have hnext : ¬ (ptr + objSize) % 2 ^ 64 ≤ stop := by
        rw [Nat.mod_eq_of_lt (by omega)]
        omega
      refine ⟨m, head, ?_, hhead, hchain, fun _ _ => rfl⟩
      rw [Nat.zero_add, carve, if_neg hnext]
  | succ n ih =>
      obtain ⟨fuel, rfl⟩ := Nat.exists_eq_add_of_lt hfuel
      have hmul : (n + 1) * objSize = n * objSize + objSize := Nat.succ_mul n objSize
      have hmul' : (n + 1 + 1) * objSize = n * objSize + objSize + objSize := by
        rw [Nat.succ_mul, hmul]
      have hmod : (ptr + objSize) % 2 ^ 64 = ptr + objSize := Nat.mod_eq_of_lt (by omega)
      have hlink : ∀ x ∈ free, link (setLink m ptr head) x = link m x := by
        intro x hx
        have hx' := hsep x hx
        exact link_congr _ _ _ fun y hy hy' => cell_setLink _ _ _ _ (by omega)
      have hchain' : Chain (link (setLink m ptr head)) ptr (ptr :: free) := by
        refine ⟨rfl, by omega, ?_⟩
        rw [link_setLink _ _ _ hhead]
        exact hchain.congr hlink
      obtain ⟨m', head', hcarve, hhead', hslots, hsame⟩ :=
        ih (by omega : 0 < ptr + objSize) (by omega) (by omega) (by omega : n < n + fuel + 1)
          (by omega) hchain' (by
            intro x hx
            rcases List.mem_cons.mp hx with rfl | hx
            · omega
            · have hx' := hsep x hx
              omega)
      refine ⟨m', head', ?_, hhead', ?_, ?_⟩
      · rw [show n + 1 + fuel + 1 = n + fuel + 1 + 1 by omega, carve, if_pos (by omega), hmod]
        exact hcarve
      · rw [slotsFrom, List.reverse_cons, List.append_assoc]
        exact hslots
      · intro x hx
        rw [hsame x (by omega), cell_setLink _ _ _ _ (by omega)]

/-- The loop writes the first words of the slots only. -/
theorem carve_cell {m m' : M} {head head' objSize stop ptr n fuel y : ℕ}
    (hroom : stop + objSize < 2 ^ 64) (hlo : ptr + n * objSize ≤ stop)
    (hhi : stop < ptr + (n + 1) * objSize)
    (hs : carve m head objSize stop ptr fuel = some (m', head'))
    (hy : ∀ x ∈ slotsFrom ptr objSize n, y < x ∨ x + 8 ≤ y) : cell m' y = cell m y := by
  induction n generalizing m head ptr fuel with
  | zero =>
      cases fuel with
      | zero => cases hs
      | succ fuel =>
          have hnext : ¬ (ptr + objSize) % 2 ^ 64 ≤ stop := by
            rw [Nat.mod_eq_of_lt (by omega)]
            omega
          rw [carve, if_neg hnext] at hs
          cases hs
          rfl
  | succ n ih =>
      cases fuel with
      | zero => cases hs
      | succ fuel =>
          have hmul : (n + 1) * objSize = n * objSize + objSize := Nat.succ_mul n objSize
          have hmul' : (n + 1 + 1) * objSize = n * objSize + objSize + objSize := by
            rw [Nat.succ_mul, hmul]
          have hmod : (ptr + objSize) % 2 ^ 64 = ptr + objSize := Nat.mod_eq_of_lt (by omega)
          rw [carve, if_pos (by omega), hmod] at hs
          rw [ih (by omega) (by omega) hs fun x hx => hy x (List.mem_cons_of_mem _ hx)]
          exact cell_setLink _ _ _ _ (hy ptr List.mem_cons_self)

end Carve

end Vectra

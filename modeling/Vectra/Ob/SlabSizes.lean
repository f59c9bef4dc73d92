import Vectra.Mm.FrameRegions
import Vectra.Mm.SlabCarving
import Vectra.Ob.Object

/-!
# Objects of every size

`object_type_register` adds the header to the size that it is given and passes the sum on;
`object_create` takes its objects from the slab of the type.
-/

namespace Vectra

open Lib SlabMem

/-! ## Failing allocations -/

section Failing

variable {n : ℕ} {T : Type}

/-- An `object_create` that gets no object leaves the frames and the pages as they were. -/
def CreateNullKeepsFrames (types : Fin n → ObjectType) (s : ObState n T) (type : Fin n) : Prop :=
  ∀ createArgs s', objectCreate types s type createArgs = some (0, s') →
    (∃ m p c, slabAlloc s.mem s.pmm (s.slabs type) = some (0, m, p, c)) →
    s'.pmm.frameBitmap = s.pmm.frameBitmap ∧ s'.pmm.freeFrames = s.pmm.freeFrames ∧
      (s'.slabs type).slabs = (s.slabs type).slabs

theorem createNullKeepsFrames (types : Fin n → ObjectType) {s : ObState n T} {type : Fin n}
    (h : NullKeepsFrames s.mem s.pmm (s.slabs type)) : CreateNullKeepsFrames types s type := by
  rintro createArgs s' hs ⟨m, p, c, halloc⟩
  unfold objectCreate at hs
  rw [halloc] at hs
  simp only [if_true] at hs
  cases hs
  obtain ⟨hbitmap, hfree, hslabs⟩ := h m p c halloc
  refine ⟨hbitmap, hfree, ?_⟩
  change (Function.update s.slabs type c type).slabs = _
  rw [Function.update_self]
  exact hslabs

/-- `slab_alloc` on a cache, and `object_create` for every type with that cache, keep the
frames when they return `NULL`, exactly when the free list is not empty, or there is no frame,
or the page of the frame yields an object. -/
theorem null_frames_iff {m : Bytes} {p : Pmm} {c : SlabCache} :
    (NullKeepsFrames m p c ∧
        ∀ (n : ℕ) (T : Type) (types : Fin n → ObjectType) (s : ObState n T) (type : Fin n),
          s.mem = m → s.pmm = p → s.slabs type = c → CreateNullKeepsFrames types s type) ↔
      (c.freeObjects ≠ 0 ∨
        ∀ phys p', pmmAllocFrame p = some (phys, p') → phys ≠ 0 →
          ¬ YieldsNone c.objSize phys) := by
  rw [← nullKeepsFrames_iff (m := m)]
  constructor
  · exact fun h => h.1
  · refine fun h => ⟨h, fun n T types s type hm hp hc => createNullKeepsFrames types ?_⟩
    rw [hm, hp, hc]
    exact h

end Failing

def zeroMem : Bytes := fun _ => 0#8

/-- The cache of a type with `instance_size` 4050. -/
def bigObjects : SlabCache := newSlabCache (objectHeaderSize + 4050)

theorem alloc_threeFree : pmmAllocFrame threeFree = some (0x40000, takeFrame threeFree 0) := by
  rfl

/-- An object that is larger than a page: `slab_alloc` returns `NULL` and keeps the frame. -/
theorem null_takes_frame :
    ∃ m' p' c', slabAlloc zeroMem threeFree bigObjects = some (0, m', p', c') ∧
      p'.freeFrames + 1 = threeFree.freeFrames ∧ c'.slabs = 0x40000 ∧
      ¬ NullKeepsFrames zeroMem threeFree bigObjects := by
  have hnone : YieldsNone bigObjects.objSize 0x40000 :=
    ⟨0, by decide, carvesSlots_zero.mpr (by decide +kernel), .inl rfl⟩
  obtain ⟨m', hnull⟩ := slabAlloc_yieldsNone (m := zeroMem) rfl (by decide) alloc_threeFree hnone
  refine ⟨m', _, _, hnull, by decide +kernel, rfl, fun h => ?_⟩
  exact absurd (h _ _ _ hnull).2.1 (by decide +kernel)

/-! ## Requested sizes -/

/-- Where a size comes from: `slab_cache_create`, or `object_type_register`. -/
inductive SizeRequest
  | cache (size : BitVec 64)
  | type (instanceSize : BitVec 64)

/-- The bytes that are meant, as an exact number. -/
def SizeRequest.bytes : SizeRequest → ℕ
  | .cache size => size.toNat
  | .type instanceSize => objectHeaderSize + instanceSize.toNat

/-- The argument of `slab_cache_create`. -/
def SizeRequest.objSize (r : SizeRequest) : ℕ := r.bytes % 2 ^ 64

theorem SizeRequest.bytes_lt (r : SizeRequest) : r.bytes < 2 ^ 64 + 48 := by
  cases r with
  | cache size =>
      have hlt := size.isLt
      change size.toNat < _
      omega
  | type instanceSize =>
      have hlt := instanceSize.isLt
      change 48 + instanceSize.toNat < _
      omega

/-- The next growth of a cache for a requested size: the loop ends, stays in its page and
carves slots with room for the bytes that are meant, for exactly the sizes that are not
reduced, and whose pointer does not wrap behind the page. -/
theorem slab_sizes_iff {slack : ℕ} {m : Bytes} {p p' : Pmm} {c : SlabCache} {phys : ℕ}
    (r : SizeRequest) (hp : PmmInv slack p) (halloc : pmmAllocFrame p = some (phys, p'))
    (hphys : phys ≠ 0) (hfree : c.freeObjects = 0)
    (hsize : c.objSize = (newSlabCache r.objSize).objSize) :
    CarvesWell m p c phys r.bytes ↔ SizeCarvable phys r.bytes :=
  carvesWell_iff hp halloc hphys hfree r.bytes_lt hsize

theorem threeFree_inv : ∃ slack, PmmInv slack threeFree :=
  ⟨_, (run_pmmInv run_threeFree (pmmInit_inv rfl (by decide) smallPmm_init)).1⟩

theorem slab_sizes_iff_type :
    CarvesWell zeroMem threeFree (newSlabCache 64) 0x40000
        (SizeRequest.type 16).bytes ↔
      SizeCarvable 0x40000 (SizeRequest.type 16).bytes :=
  slab_sizes_iff (.type 16) threeFree_inv.choose_spec alloc_threeFree (by decide) rfl
    (by decide +kernel)

/-- The size `2 ^ 64 - 1` is rounded up to 0, and the loop does not end. -/
theorem carve_never_ends :
    slabGrow zeroMem threeFree
        (newSlabCache (SizeRequest.cache 0xFFFFFFFFFFFFFFFF).objSize) = none ∧
      ¬ CarvesWell zeroMem threeFree
        (newSlabCache (SizeRequest.cache 0xFFFFFFFFFFFFFFFF).objSize) 0x40000
        (SizeRequest.cache 0xFFFFFFFFFFFFFFFF).bytes := by
  have hnone : ¬ (slabGrow zeroMem threeFree
      (newSlabCache (SizeRequest.cache 0xFFFFFFFFFFFFFFFF).objSize)).isSome = true := by
    rw [slabGrow_isSome alloc_threeFree (by decide)]
    rintro ⟨n, _, _, hout⟩
    have hzero : (newSlabCache (SizeRequest.cache 0xFFFFFFFFFFFFFFFF).objSize).objSize = 0 := by
      decide +kernel
    rw [hzero] at hout
    unfold carvePtr at hout
    rw [Nat.mul_zero, Nat.add_zero] at hout
    exact absurd hout (by decide +kernel)
  exact ⟨Option.not_isSome_iff_eq_none.mp hnone, fun h => hnone h.ends⟩

end Vectra

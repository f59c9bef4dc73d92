import Vectra.Mm.KheapContents

/-!
# Requests and the memory behind them

What `kmalloc` and `kcalloc` acquire for a request, and what `kfree` and `kfree_sized` give back.
The first goes wrong for the sizes on which the page count wraps, the last for a size that
`krealloc` has lowered without moving the block.
-/

namespace Vectra

open Lib SlabMem

/-- A slot of the cache of a bucket, or consecutive frames. -/
inductive Memory
  | slot (bucket x : ℕ)
  | frames (first n : ℕ)

namespace Memory

def start (h : Heap) : Memory → ℕ
  | .slot _ x => x
  | .frames first _ => h.pmm.frameAddr first

def bytes (h : Heap) : Memory → ℕ
  | .slot b _ => (h.cache b).objSize
  | .frames _ n => n * pageSize

/-- From `h` to `h'`, the slab or the frame allocator handed out this memory and no other. -/
def Acquired (h h' : Heap) : Memory → Prop
  | .slot b x => b < numSlabBuckets ∧ x ≠ 0 ∧
      ∃ h₁, slabAllocAt h (h.kmallocCaches b) = some (x, h₁) ∧ h'.pmm = h₁.pmm ∧
        h'.cacheAt = h₁.cacheAt
  | .frames first n => h'.cacheAt = h.cacheAt ∧ first + n ≤ h.pmm.totalFrames ∧
      ∀ j, h'.pmm.used j = (decide (first ≤ j ∧ j < first + n) || h.pmm.used j) ∧
        (first ≤ j → j < first + n → h.pmm.used j = false)

/-- From `h` to `h'`, the slab or the frame allocator got this memory back and no other. -/
def GivenBack (h h' : Heap) : Memory → Prop
  | .slot b x => b < numSlabBuckets ∧ h' = slabFreeAt h (h.kmallocCaches b) x
  | .frames first n => h'.cacheAt = h.cacheAt ∧ h'.mem = h.mem ∧
      ∀ j, h'.pmm.used j = (!decide (first ≤ j ∧ j < first + n) && h.pmm.used j) ∧
        (first ≤ j → j < first + n → h.pmm.used j = true)

/-- The memory that a block of `size` bytes at `ptr` needs. -/
def Serves (h : Heap) (ptr size : ℕ) : Memory → Prop
  | .slot b x => getBucketIndex size = some b ∧ ptr = x + allocHeaderSize
  | .frames first n => getBucketIndex size = none ∧ n = numPages size ∧
      first + n ≤ h.pmm.totalFrames ∧ ptr = h.pmm.frameAddr first + allocHeaderSize

theorem Serves.congr {h h' : Heap} {ptr size : ℕ} {M : Memory} (hM : M.Serves h ptr size)
    (hrange : SameRange h.pmm h'.pmm) : M.Serves h' ptr size := by
  cases M with
  | slot b x => exact hM
  | frames first n =>
      obtain ⟨hbucket, hn, hbound, hptr⟩ := hM
      exact ⟨hbucket, hn, by rw [hrange.2]; exact hbound, by rw [hrange.frameAddr]; exact hptr⟩

end Memory

/-- A step of the heap that leaves the block at `ptr` live. -/
def LiveStep (ptr : ℕ) (s : Heap × List ℕ) (e : KheapOp × ℕ) (t : Heap × List ℕ) : Prop :=
  KheapStep s e t ∧ ptr ∈ t.2

/-- The call that went from `s` to `h'` and returned `ptr` acquired memory for a header and `need`
bytes behind it, and a later `kfree` of `ptr` gives exactly this memory back. -/
def Granted (s : Heap × List ℕ) (h' : Heap) (ptr need : ℕ) : Prop :=
  ∃ M : Memory, M.Acquired s.1 h' ∧ ptr = M.start s.1 + allocHeaderSize ∧
    need + allocHeaderSize ≤ M.bytes s.1 ∧
    ∀ ops t, Run (LiveStep ptr) (h', ptr :: s.2) ops t → M.GivenBack t.1 (kfree t.1 ptr)

/-- The heap invariant, with a live block at `ptr` in the memory `M`. -/
structure HeapKept (slack : ℕ) (reserved : ℕ → Prop) (ptr : ℕ) (M : Memory)
    (s : Heap × List ℕ) : Prop where
  inv : ∃ o, HeapInv slack reserved s.1 s.2 o
  live : ptr ∈ s.2
  serves : M.Serves s.1 ptr (s.1.blockSize ptr)

namespace HeapInv

variable {slack slack' : ℕ} {reserved : ℕ → Prop} {h h' : Heap} {live : List ℕ}
  {o o' : Ownership} {ptr size : ℕ} {M : Memory}

theorem kfree_givenBack (hi : HeapInv slack reserved h live o) (hptr : ptr ∈ live)
    (hM : M.Serves h ptr (h.blockSize ptr)) : M.GivenBack h (Vectra.kfree h ptr) := by
  obtain ⟨P, hP, hocc⟩ := hi.block ptr hptr
  cases P with
  | slot b x =>
      have hfree := hi.kfree_slot_eq hP hocc
      obtain ⟨hb, hbucket, _, hx, _⟩ := hocc
      cases M with
      | slot c y =>
          obtain ⟨hc, hy⟩ := hM
          rw [hbucket] at hc
          cases hc
          have hxy : x = y := by omega
          exact ⟨hb, hxy ▸ hfree⟩
      | frames first n =>
          have hc := hM.1
          rw [hbucket] at hc
          cases hc
  | header i page => exact hocc.elim
  | run r first n =>
      have hfree := hi.kfree_run_eq hP hocc
      obtain ⟨rfl, hbucket, _, hfirst, hn, _⟩ := hocc
      obtain ⟨hpos, hmanaged, hwin⟩ := hP
      cases M with
      | slot c y =>
          have hc := hM.1
          rw [hbucket] at hc
          cases hc
      | frames first' n' =>
          obtain ⟨_, hn', hbound, hfirst'⟩ := hM
          have hcount : n' = n := hn'.trans hn.symm
          have hsame : first = first' :=
            (frameAddr_inj hi.caches.pmm (by omega) (by omega)).mp (by omega)
          subst hsame hcount
          have hused := (freeRun_spec hi.caches.pmm hmanaged).2.2
          rw [hfree]
          refine ⟨rfl, rfl, fun j => ⟨hused j, fun hlo hhi => ?_⟩⟩
          exact hi.caches.used_of_own (by omega) ((hwin j (by omega)).mpr ⟨hlo, hhi⟩)
  | frame j => exact hocc.elim

/-- The memory stays that of the block while the block is live. -/
theorem run_givenBack {s t : Heap × List ℕ} {ops : List (KheapOp × ℕ)}
    (hi : HeapInv slack reserved s.1 s.2 o) (hptr : ptr ∈ s.2)
    (hM : M.Serves s.1 ptr (s.1.blockSize ptr)) (hrun : Run (LiveStep ptr) s ops t) :
    M.GivenBack t.1 (Vectra.kfree t.1 ptr) := by
  have hkept : HeapKept slack reserved ptr M t := by
    refine hrun.invariant (fun u e v hu hstep => ?_) (⟨⟨o, hi⟩, hptr, hM⟩ : HeapKept _ _ _ _ s)
    obtain ⟨⟨o, hu⟩, hmem, hserves⟩ := hu
    obtain ⟨hstep, hmem'⟩ := hstep
    refine ⟨hstep.inv ⟨o, hu⟩, hmem', ?_⟩
    rw [hstep.blockSize_kept hu hmem hmem']
    exact hserves.congr (hstep.fixed hu).range
  obtain ⟨⟨o', hi'⟩, hptr', hM'⟩ := hkept
  exact hi'.kfree_givenBack hptr' hM'

/-- A request whose page count does not wrap acquires the memory that its block needs. -/
theorem kmalloc_acquired (hi : HeapInv slack reserved h live o) (hfits : FitsSize size)
    (hs : Vectra.kmalloc h size = some (ptr, h')) (hne : ptr ≠ 0) :
    ∃ M : Memory, M.Acquired h h' ∧ M.Serves h ptr size ∧ ptr = M.start h + allocHeaderSize ∧
      size + allocHeaderSize ≤ M.bytes h := by
  cases hbucket : getBucketIndex size with
  | some b =>
      obtain ⟨x, h₁, halloc, rfl, rfl⟩ := hi.kmalloc_slot hbucket hs hne
      obtain ⟨hb, hfit⟩ := getBucketIndex_fits hbucket
      have hx := (hi.kmalloc_small hbucket halloc).1
      refine ⟨.slot b x, ⟨hb, hx, h₁, halloc, rfl, rfl⟩, ⟨hbucket, rfl⟩, rfl, ?_⟩
      change size + allocHeaderSize ≤ (h.cache b).objSize
      rw [hi.caches.size b (by omega), cacheObjSize_bucket hb]
      omega
  | none =>
      obtain ⟨first, q, hfirst, hclear, hrun, rfl, rfl⟩ := hi.kmalloc_run hfits hbucket hs hne
      obtain ⟨hfit, hpos⟩ := numPages_pos hfits
      have hrange := takeFrame_sameRange h.pmm first
      have hbase := hi.caches.base_pos
      rw [← hrange.frameAddr] at hrun
      obtain ⟨hlast, _, _, hfree, hused⟩ := allocRun_spec
        (hi.caches.pmm.takeFrame hfirst hclear) hbase hfirst hrun
      have hlast' : first + (numPages size - 1) < h.pmm.totalFrames := hlast
      refine ⟨.frames first (numPages size), ⟨rfl, by omega, fun j => ⟨?_, fun hlo hhi => ?_⟩⟩,
        ⟨hbucket, rfl, by omega, rfl⟩, rfl, hfit⟩
      · change q.used j = _
        rw [hused, takeFrame_used, ← Bool.or_assoc, ← Bool.decide_or]
        congr 1
        apply decide_eq_decide.mpr
        omega
      · rcases Nat.eq_or_lt_of_le hlo with rfl | hlt
        · exact hclear
        · have hj := hfree j hlt (by omega)
          rw [takeFrame_used, Bool.or_eq_false_iff] at hj
          exact hj.2

/-- A request whose page count wraps takes one frame. -/
theorem kmalloc_wraps (hi : HeapInv slack reserved h live o) (hsize : size < 2 ^ 64)
    (hwrap : ¬ FitsSize size) (hs : Vectra.kmalloc h size = some (ptr, h')) (hne : ptr ≠ 0) :
    ∃ first, h'.pmm = takeFrame h.pmm first := by
  have hpages : numPages size - 1 = 0 := by
    unfold FitsSize allocHeaderSize pageSize at hwrap
    unfold numPages allocHeaderSize
    by_cases hhigh : size + 16 < 2 ^ 64
    · rw [Nat.mod_eq_of_lt hhigh, alignUp_page_wrap hhigh (by omega), Nat.zero_div]
    · rw [alignUp_page (by omega)]
      unfold pageSize
      omega
  have hbucket : getBucketIndex size = none := by
    cases hb : getBucketIndex size with
    | none => rfl
    | some b =>
        obtain ⟨hlt, hfit⟩ := getBucketIndex_fits hb
        have hfacts := bucketObjSize_facts hlt
        unfold FitsSize allocHeaderSize pageSize at hwrap
        omega
  unfold Vectra.kmalloc at hs
  split at hs
  · cases hs
    exact absurd rfl hne
  · rw [if_neg (by simp [hi.ready])] at hs
    simp only [hbucket] at hs
    cases halloc : pmmAllocFrame h.pmm with
    | none => simp [halloc] at hs
    | some a =>
        obtain ⟨phys, p⟩ := a
        simp only [halloc, hpages, allocRun] at hs
        rcases hi.caches.pmm.allocFrame_some halloc with
          ⟨hzero, _, _⟩ | ⟨first, _, _, _, rfl⟩
        · rw [if_pos hzero] at hs
          cases hs
          exact absurd rfl hne
        · split at hs
          · cases hs
            exact absurd rfl hne
          · cases hs
            exact ⟨first, rfl⟩

/-- After a call that took one frame, no memory that it acquired is larger than a frame. -/
theorem acquired_frame (hi : HeapInv slack reserved h live o) {first : ℕ}
    (htake : h'.pmm = takeFrame h.pmm first) (hM : M.Acquired h h') : M.bytes h ≤ pageSize := by
  cases M with
  | slot b x =>
      have hfacts := cacheObjSize_facts b
      change (h.cache b).objSize ≤ pageSize
      rw [hi.caches.size b hM.1.le]
      unfold pageSize
      omega
  | frames start n =>
      have honly : ∀ j, start ≤ j → j < start + n → j = first := by
        intro j hlo hhi
        obtain ⟨hused, hclear⟩ := hM.2.2 j
        rw [htake, takeFrame_used, hclear hlo hhi] at hused
        simpa [hlo, hhi] using hused
      have hn : n ≤ 1 := by
        by_contra hmany
        have hstart := honly start le_rfl (by omega)
        have hnext := honly (start + 1) (by omega) (by omega)
        omega
      change n * pageSize ≤ pageSize
      exact Nat.mul_le_of_le_div _ _ _ (by rw [Nat.div_self (by decide)]; exact hn)

theorem granted (hi' : HeapInv slack reserved h' (ptr :: live) o') (hfixed : HeapFixed h h')
    (hM : M.Acquired h h') (hserves : M.Serves h ptr size)
    (hstart : ptr = M.start h + allocHeaderSize) (hbytes : size + allocHeaderSize ≤ M.bytes h)
    (hsize : h'.blockSize ptr = size) : Granted (h, live) h' ptr size := by
  refine ⟨M, hM, hstart, hbytes, fun ops t hrun => ?_⟩
  refine hi'.run_givenBack (s := (h', ptr :: live)) List.mem_cons_self ?_ hrun
  rw [hsize]
  exact hserves.congr hfixed.range

theorem not_granted (hi : HeapInv slack reserved h live o) {first : ℕ} (hwrap : ¬ FitsSize size)
    (htake : h'.pmm = takeFrame h.pmm first) : ¬ Granted (h, live) h' ptr size := by
  rintro ⟨M, hM, _, hbytes, _⟩
  have hframe := hi.acquired_frame htake hM
  have hbig : M.bytes h < size + allocHeaderSize := by
    unfold FitsSize allocHeaderSize at hwrap
    unfold allocHeaderSize
    unfold pageSize at *
    omega
  exact absurd hbytes (by simpa using hbig)

theorem kmalloc_granted_iff (hi : HeapInv slack reserved h live o) (hsize : size < 2 ^ 64)
    (hs : Vectra.kmalloc h size = some (ptr, h')) (hne : ptr ≠ 0) :
    Granted (h, live) h' ptr size ↔ FitsSize size := by
  constructor
  · intro hgranted
    by_contra hwrap
    obtain ⟨first, htake⟩ := hi.kmalloc_wraps hsize hwrap hs hne
    exact hi.not_granted hwrap htake hgranted
  · intro hfits
    obtain ⟨M, hM, hserves, hstart, hbytes⟩ := hi.kmalloc_acquired hfits hs hne
    rcases hi.kmalloc hfits hs with ⟨hzero, _⟩ | ⟨_, o', hi', hblock⟩
    · exact absurd hzero hne
    · exact hi'.granted (hi.kmalloc_same hfits hs).1 hM hserves hstart hbytes hblock

/-- The check of `kcalloc` leaves the size as the only thing that can wrap. -/
theorem kcalloc_granted_iff (hi : HeapInv slack reserved h live o) {num : ℕ}
    (hs : Vectra.kcalloc h num size = some (ptr, h')) (hne : ptr ≠ 0) :
    Granted (h, live) h' ptr (num * size) ↔ FitsSize (num * size) := by
  rcases kcalloc_cases hs with ⟨hzero, _⟩ | ⟨hlt, h₁, hk, hzeroed⟩
  · exact absurd hzero hne
  · rw [if_neg hne] at hzeroed
    constructor
    · intro hgranted
      by_contra hwrap
      obtain ⟨first, htake⟩ := hi.kmalloc_wraps hlt hwrap hk hne
      have htake' : h'.pmm = takeFrame h.pmm first := by
        rw [hzeroed]
        exact htake
      exact hi.not_granted hwrap htake' hgranted
    · intro hfits
      obtain ⟨M, hM, hserves, hstart, hbytes⟩ := hi.kmalloc_acquired hfits hk hne
      obtain ⟨o', hi', hblock⟩ := hi.kcalloc_size (fun _ => hfits) hs hne
      have hfixed := (hi.kcalloc_same (fun _ => hfits) hs).1
      refine hi'.granted hfixed ?_ hserves hstart hbytes hblock
      rw [hzeroed]
      cases M with
      | slot b x => exact hM
      | frames first n => exact hM

end HeapInv

/-- In every state that a run of the heap reaches, a block that `kmalloc` or `kcalloc` returns is
backed by the memory asked for just when the page count does not wrap. -/
theorem kmalloc_run_iff {b b' : BootHeap} {bootMem mem : Bytes} {base size : ℕ} {s p : Pmm}
    {cacheAt : ℕ → SlabCache} {pmmOps : List (PmmOp × ℕ)} {h : Heap}
    {ops : List (KheapOp × ℕ)} {t : Heap × List ℕ} (hbase : 0 < base)
    (halign : base % pageSize = 0) (hwrap : base + size < 2 ^ 64)
    (hinit : pmmInit Pmm.boot b bootMem base size = some (s, b'))
    (hpmm : Run PmmStep s pmmOps p) (hheap : kheapInit (Heap.boot mem cacheAt p) = some h)
    (hrun : Run KheapStep (h, []) ops t) :
    (∀ n ptr h', n < 2 ^ 64 → kmalloc t.1 n = some (ptr, h') → ptr ≠ 0 →
      (Granted t h' ptr n ↔ FitsSize n)) ∧
    ∀ num n ptr h', num < 2 ^ 64 → n < 2 ^ 64 → kcalloc t.1 num n = some (ptr, h') → ptr ≠ 0 →
      (Granted t h' ptr (num * n) ↔ FitsSize (num * n)) := by
  obtain ⟨_, _, hi⟩ := kheap_run_inv hbase halign hwrap hinit hpmm hheap hrun
  exact ⟨fun n ptr h' hn hs hne => hi.kmalloc_granted_iff hn hs hne,
    fun num n ptr h' _ _ hs hne => hi.kcalloc_granted_iff hs hne⟩

theorem kmalloc_run_iff_two_frames :
    ∃ h t h₁ h₂, kheapInit smallHeap = some h ∧
      Run KheapStep (h, []) [(.kmalloc 100, 0x41f50)] t ∧
      kmalloc t.1 5000 = some (0x42010, h₁) ∧ Granted t h₁ 0x42010 5000 ∧
      kcalloc t.1 2 2500 = some (0x42010, h₂) ∧ Granted t h₂ 0x42010 (2 * 2500) := by
  have heval : (kheapInit smallHeap >>= fun h => kmalloc h 100 >>= fun a =>
      kmalloc a.2 5000 >>= fun c => kcalloc a.2 2 2500 >>= fun d =>
        some (a.1, c.1, d.1)) = some (0x41f50, 0x42010, 0x42010) := by
    decide +kernel
  obtain ⟨h, hheap, hrest⟩ := Option.bind_eq_some_iff.mp heval
  obtain ⟨⟨ra, ha⟩, hk, hrest⟩ := Option.bind_eq_some_iff.mp hrest
  obtain ⟨⟨rc, hc⟩, hlarge, hrest⟩ := Option.bind_eq_some_iff.mp hrest
  obtain ⟨⟨rd, hd⟩, hzeroed, hresult⟩ := Option.bind_eq_some_iff.mp hrest
  cases hresult
  have hrun : Run KheapStep (h, []) [(.kmalloc 100, 0x41f50)] (ha, [0x41f50]) :=
    .cons (u := (ha, [0x41f50])) ⟨(by decide : FitsSize 100), hk, rfl⟩ (.nil _)
  obtain ⟨hmalloc, hcalloc⟩ := kmalloc_run_iff (by decide) (by decide) (by decide) smallPmm_init
    smallHeap_frames hheap hrun
  exact ⟨h, _, hc, hd, hheap, hrun, hlarge,
    (hmalloc 5000 _ _ (by decide) hlarge (by decide)).mpr (by decide), hzeroed,
    (hcalloc 2 2500 _ _ (by decide) (by decide) hzeroed (by decide)).mpr (by decide)⟩

/-- The page count of this request is 0, so it gets the one frame that is taken first. -/
theorem kmalloc_labels_frame :
    ∃ h h', kheapInit smallHeap = some h ∧ kmalloc h 0xfffffffffffffff0 = some (0x41010, h') ∧
      h'.blockSize 0x41010 = 0xfffffffffffffff0 ∧
      ¬ Granted (h, []) h' 0x41010 0xfffffffffffffff0 := by
  have heval : (kheapInit smallHeap >>= fun h => kmalloc h 0xfffffffffffffff0 >>= fun a =>
      some (a.1, a.2.blockSize 0x41010)) = some (0x41010, 0xfffffffffffffff0) := by
    decide +kernel
  obtain ⟨h, hheap, hrest⟩ := Option.bind_eq_some_iff.mp heval
  obtain ⟨⟨ra, ha⟩, hk, hresult⟩ := Option.bind_eq_some_iff.mp hrest
  simp only [Option.some.injEq, Prod.mk.injEq] at hresult
  obtain ⟨rfl, hsize⟩ := hresult
  obtain ⟨_, _, hi⟩ := kheap_run_inv (by decide) (by decide) (by decide) smallPmm_init
    smallHeap_frames hheap (.nil (h, []))
  have hwrap : ¬ FitsSize 0xfffffffffffffff0 := by decide
  obtain ⟨first, htake⟩ := hi.kmalloc_wraps (by decide) hwrap hk (by decide)
  exact ⟨h, ha, hheap, hk, hsize, hi.not_granted hwrap htake⟩

/-! ## `kfree_sized` -/

/-- The same frame bitmap, and the same free list in every cache. -/
def SameFree (h h' : Heap) : Prop :=
  h'.pmm.frameBitmap = h.pmm.frameBitmap ∧ ∀ i ≤ numSlabBuckets, ∀ xs,
    Chain (link h'.mem) (h'.cache i).freeObjects xs ↔ Chain (link h.mem) (h.cache i).freeObjects xs

/-- Sizes with the same bucket, or else with the same number of pages. -/
def SameClass (n size : ℕ) : Prop :=
  getBucketIndex n = getBucketIndex size ∧ (getBucketIndex size = none → numPages n = numPages size)

theorem numPages_mono {n size : ℕ} (hle : n ≤ size) (hfits : FitsSize size) :
    numPages n ≤ numPages size := by
  unfold FitsSize at hfits
  rw [numPages_eq hfits, numPages_eq (by omega)]
  exact Nat.div_le_div_right (by omega)

namespace HeapInv

variable {slack : ℕ} {reserved : ℕ → Prop} {h : Heap} {live : List ℕ} {o : Ownership}
  {ptr n b : ℕ}

/-- The free list of another cache keeps its head. -/
theorem kfreeSized_head (hi : HeapInv slack reserved h live o) (hb : b < numSlabBuckets)
    (hne : getBucketIndex n ≠ some b) :
    ((kfreeSized h ptr n).cache b).freeObjects = (h.cache b).freeObjects := by
  unfold kfreeSized
  split
  · rfl
  · cases hbucket : getBucketIndex n with
    | none => rfl
    | some c =>
        have hc := (getBucketIndex_fits hbucket).1
        have hcb : h.kmallocCaches b ≠ h.kmallocCaches c := by
          intro heq
          have hbc := hi.caches.pointer_inj b hb c hc heq
          exact hne (hbc ▸ hbucket)
        simp only [slabFreeAt, if_neg (hi.caches.bucket_ne_zero hc), Heap.cache, if_pos hb,
          Function.update_of_ne hcb]

/-- The slot of a small block is the new head of the free list of its cache. -/
theorem kfree_head (hi : HeapInv slack reserved h live o) {x : ℕ}
    (hP : (Piece.slot b x).Valid h.pmm o) (hocc : Occupies h o ptr (.slot b x)) :
    Chain (link (Vectra.kfree h ptr).mem) ((Vectra.kfree h ptr).cache b).freeObjects
      (x :: o.free b) := by
  obtain ⟨o', hg⟩ := hi.caches.slabFreeAt hocc.1 ⟨hP.2, hocc.2.2.2.2⟩
  have hchain := (hg.inv.slab b hocc.1.le).freeChain
  rw [hg.free, Function.update_self] at hchain
  rw [hi.kfree_slot_eq hP hocc]
  exact hchain

theorem sameClass_of_sameFree (hi : HeapInv slack reserved h live o) (hptr : ptr ∈ live)
    (hle : n ≤ h.blockSize ptr) (hsame : SameFree (Vectra.kfree h ptr) (kfreeSized h ptr n)) :
    SameClass n (h.blockSize ptr) := by
  obtain ⟨P, hP, hocc⟩ := hi.block ptr hptr
  have hne := hi.ne_zero hptr
  cases P with
  | slot b x =>
      have hb := hocc.1
      have hbucket := hocc.2.1
      by_cases hn : getBucketIndex n = some b
      · exact ⟨hn.trans hbucket.symm, fun hnone => by simp [hbucket] at hnone⟩
      · have hchain := (hsame.2 b hb.le _).mpr (hi.kfree_head hP hocc)
        have hhead : (h.cache b).freeObjects = x :=
          (hi.kfreeSized_head hb hn).symm.trans hchain.1
        exact absurd ((hi.caches.slab b hb.le).freeChain.head_mem hhead hchain.2.1)
          hocc.2.2.2.2
  | header i page => exact hocc.elim
  | run r first count =>
      have hfree := hi.kfree_run_eq hP hocc
      have hbounds := hocc.ptr_bounds hi.caches hP
      obtain ⟨_, hbucket, _, hfirst, hcount, hfits⟩ := hocc
      obtain ⟨hpos, hmanaged, hwin⟩ := hP
      have hsub : sub64 ptr allocHeaderSize = h.pmm.frameAddr first := by
        rw [sub64_of_le (by omega) hbounds.2, hfirst, Nat.add_sub_cancel]
      have hused : ∀ j, (kfreeSized h ptr n).pmm.used j = (Vectra.kfree h ptr).pmm.used j := by
        intro j
        unfold Pmm.used
        rw [hsame.1]
      have hkfree := (freeRun_spec hi.caches.pmm hmanaged).2.2
      have hown : ∀ j, first ≤ j → j < first + count → h.pmm.used j = true := fun j hlo hhi =>
        hi.caches.used_of_own (by omega) ((hwin j (by omega)).mpr ⟨hlo, hhi⟩)
      cases hn : getBucketIndex n with
      | some c =>
          have hkept : (kfreeSized h ptr n).pmm = h.pmm := by
            unfold kfreeSized
            simp only [if_neg hne, hn]
            unfold slabFreeAt
            split <;> rfl
          have hfirst' := hused first
          rw [hkept, hfree, hown first le_rfl (by omega)] at hfirst'
          simp only [hkfree] at hfirst'
          simp [hpos] at hfirst'
      | none =>
          have hpages : numPages n ≤ count := by
            rw [hcount]
            exact numPages_mono hle hfits
          have hsized : (kfreeSized h ptr n).pmm =
              freeRun h.pmm (h.pmm.frameAddr first) (numPages n) := by
            unfold kfreeSized
            simp only [if_neg hne, hn, hsub]
          refine ⟨hn.trans hbucket.symm, fun _ => ?_⟩
          by_contra hdiff
          -- the first frame that `kfree_sized` leaves in use
          have hlast := hused (first + numPages n)
          rw [hsized, (freeRun_spec hi.caches.pmm (by omega)).2.2, hfree,
            hown _ (by omega) (by omega)] at hlast
          simp only [hkfree] at hlast
          have hlt : numPages n < count := by omega
          simp [hlt] at hlast
  | frame j => exact hocc.elim

theorem sameFree_iff (hi : HeapInv slack reserved h live o) (hptr : ptr ∈ live)
    (hle : n ≤ h.blockSize ptr) :
    SameFree (Vectra.kfree h ptr) (kfreeSized h ptr n) ↔ SameClass n (h.blockSize ptr) := by
  refine ⟨hi.sameClass_of_sameFree hptr hle, fun ⟨hbucket, hpages⟩ => ?_⟩
  have hsized : kfreeSized h ptr n = kfreeSized h ptr (h.blockSize ptr) := by
    unfold kfreeSized
    rw [hbucket]
    cases hsize : getBucketIndex (h.blockSize ptr) with
    | some c => rfl
    | none => rw [hpages hsize]
  rw [hsized, hi.kfreeSized_eq hptr]
  exact ⟨rfl, fun _ _ _ => Iff.rfl⟩

end HeapInv

/-- The bytes that an operation asks for. -/
def KheapOp.asksFor : KheapOp → Option ℕ
  | .kmalloc size => some size
  | .kcalloc num size => some (num * size)
  | .krealloc _ newSize => some newSize
  | .kfree _ | .store _ _ _ => none

/-- A step of the heap, with what the last call that returned a pointer asked for. -/
def AskedStep (s : (Heap × List ℕ) × (ℕ → ℕ)) (e : KheapOp × ℕ)
    (t : (Heap × List ℕ) × (ℕ → ℕ)) : Prop :=
  KheapStep s.1 e t.1 ∧ t.2 = e.1.asksFor.elim s.2 (Function.update s.2 e.2)

namespace KheapStep

variable {slack : ℕ} {reserved : ℕ → Prop} {s t : Heap × List ℕ} {e : KheapOp × ℕ}
  {o : Ownership} {q n : ℕ}

theorem live_or_returned (hstep : KheapStep s e t) (hq : q ∈ t.2) :
    q ∈ s.2 ∨ q = e.2 ∧ e.1.asksFor.isSome = true := by
  obtain ⟨op, r⟩ := e
  obtain ⟨-, -, hlive⟩ := hstep
  rw [hlive] at hq
  cases op with
  | kmalloc size | kcalloc num size =>
      simp only [KheapOp.liveAfter] at hq
      split at hq
      · exact .inl hq
      · exact (List.mem_cons.mp hq).symm.imp_right fun heq => ⟨heq, rfl⟩
  | krealloc ptr newSize =>
      simp only [KheapOp.liveAfter] at hq
      split at hq
      · exact .inl (List.mem_of_mem_erase hq)
      · split at hq
        · exact .inl hq
        · exact (List.mem_cons.mp hq).symm.imp List.mem_of_mem_erase fun heq => ⟨heq, rfl⟩
  | kfree ptr => exact .inl (List.mem_of_mem_erase hq)
  | store ptr off byte => exact .inl hq

/-- A block that has been asked for has at least the size asked for. -/
theorem asked_le (hi : HeapInv slack reserved s.1 s.2 o) (hstep : KheapStep s e t)
    (hn : e.1.asksFor = some n) (hne : e.2 ≠ 0) : n ≤ t.1.blockSize e.2 := by
  obtain ⟨h, live⟩ := s
  obtain ⟨h', live'⟩ := t
  obtain ⟨op, r⟩ := e
  obtain ⟨hallowed, hs, -⟩ := hstep
  simp only at hallowed hs hi hne ⊢
  cases op with
  | kmalloc size =>
      cases hn
      rcases hi.kmalloc hallowed hs with ⟨hzero, _⟩ | ⟨_, _, _, hsize⟩
      · exact absurd hzero hne
      · exact hsize.ge
  | kcalloc num size =>
      cases hn
      obtain ⟨_, _, hsize⟩ := hi.kcalloc_size hallowed hs hne
      exact hsize.ge
  | krealloc ptr newSize =>
      cases hn
      obtain ⟨hptr, hfits⟩ := hallowed
      by_cases hzero : ptr = 0
      · have hk : Vectra.kmalloc h n = some (r, h') := by
          rw [← hs, kheapStep, krealloc, if_pos hzero]
        rcases hi.kmalloc hfits hk with ⟨hr, _⟩ | ⟨_, _, _, hsize⟩
        · exact absurd hr hne
        · exact hsize.ge
      · rcases Nat.eq_zero_or_pos n with rfl | hpos
        · exact Nat.zero_le _
        · exact ((hi.krealloc_contents (hptr.resolve_left hzero) hpos hfits hs).moved hne).2.1
  | kfree ptr => cases hn
  | store ptr off byte => cases hn

end KheapStep

/-- The heap invariant, with no block smaller than what was last asked for. -/
structure AskedInv (slack : ℕ) (reserved : ℕ → Prop) (s : (Heap × List ℕ) × (ℕ → ℕ)) : Prop where
  inv : ∃ o, HeapInv slack reserved s.1.1 s.1.2 o
  asked : ∀ q ∈ s.1.2, s.2 q ≤ s.1.1.blockSize q

theorem AskedInv.step {slack : ℕ} {reserved : ℕ → Prop} {s t : (Heap × List ℕ) × (ℕ → ℕ)}
    {e : KheapOp × ℕ} (hs : AskedInv slack reserved s) (hstep : AskedStep s e t) :
    AskedInv slack reserved t := by
  obtain ⟨⟨o, hi⟩, hle⟩ := hs
  obtain ⟨hstep, hasked⟩ := hstep
  obtain ⟨o', hi'⟩ := hstep.inv ⟨o, hi⟩
  refine ⟨⟨o', hi'⟩, fun q hq => ?_⟩
  have hkept : q ∈ s.1.2 → s.2 q ≤ t.1.1.blockSize q := fun hlive => by
    rw [hstep.blockSize_kept hi hlive hq]
    exact hle q hlive
  rw [hasked]
  cases hn : e.1.asksFor with
  | none =>
      refine hkept ((hstep.live_or_returned hq).resolve_right ?_)
      rintro ⟨_, hsome⟩
      simp [hn] at hsome
  | some n =>
      simp only [Option.elim_some]
      by_cases hqr : q = e.2
      · rw [hqr, Function.update_self]
        exact hstep.asked_le hi hn (hqr ▸ hi'.ne_zero hq)
      · rw [Function.update_of_ne hqr]
        exact hkept ((hstep.live_or_returned hq).resolve_right fun hret => hqr hret.1)

/-- In every state that a run of the heap reaches, `kfree_sized` with the size last asked for is
`kfree` just when that size and the one in the header fall in the same class. -/
theorem kfree_sized_run_iff {b b' : BootHeap} {bootMem mem : Bytes} {base size : ℕ} {s p : Pmm}
    {cacheAt : ℕ → SlabCache} {pmmOps : List (PmmOp × ℕ)} {h : Heap}
    {ops : List (KheapOp × ℕ)} {t : (Heap × List ℕ) × (ℕ → ℕ)} {ptr : ℕ} (hbase : 0 < base)
    (halign : base % pageSize = 0) (hwrap : base + size < 2 ^ 64)
    (hinit : pmmInit Pmm.boot b bootMem base size = some (s, b'))
    (hpmm : Run PmmStep s pmmOps p) (hheap : kheapInit (Heap.boot mem cacheAt p) = some h)
    (hrun : Run AskedStep ((h, []), fun _ => 0) ops t) (hptr : ptr ∈ t.1.2) :
    SameFree (kfree t.1.1 ptr) (kfreeSized t.1.1 ptr (t.2 ptr)) ↔
      SameClass (t.2 ptr) (t.1.1.blockSize ptr) := by
  obtain ⟨slack, o, hboot⟩ := kheap_run_inv hbase halign hwrap hinit hpmm hheap (.nil (h, []))
  have hstart : AskedInv slack (fun j => p.used j = true) ((h, []), fun _ => 0) :=
    ⟨⟨o, hboot⟩, fun q hq => absurd hq List.not_mem_nil⟩
  obtain ⟨⟨o', hi⟩, hle⟩ := hrun.invariant (fun _ _ _ hu hstep => hu.step hstep) hstart
  exact hi.sameFree_iff hptr (hle ptr hptr)

theorem kfree_sized_run_iff_block :
    ∃ h t, kheapInit smallHeap = some h ∧
      Run AskedStep ((h, []), fun _ => 0) [(.kmalloc 100, 0x41f50)] t ∧ 0x41f50 ∈ t.1.2 ∧
      t.2 0x41f50 = 100 ∧
      (SameFree (kfree t.1.1 0x41f50) (kfreeSized t.1.1 0x41f50 (t.2 0x41f50)) ↔
        SameClass (t.2 0x41f50) (t.1.1.blockSize 0x41f50)) := by
  have heval : (kheapInit smallHeap >>= fun h => kmalloc h 100 >>= fun a => some a.1) =
      some 0x41f50 := by
    decide +kernel
  obtain ⟨h, hheap, hrest⟩ := Option.bind_eq_some_iff.mp heval
  obtain ⟨⟨ra, ha⟩, hk, hresult⟩ := Option.bind_eq_some_iff.mp hrest
  cases hresult
  have hrun : Run AskedStep ((h, []), fun _ => 0) [(.kmalloc 100, 0x41f50)]
      ((ha, [0x41f50]), Function.update (fun _ => 0) 0x41f50 100) :=
    .cons (u := ((ha, [0x41f50]), Function.update (fun _ => 0) 0x41f50 100))
      ⟨⟨(by decide : FitsSize 100), hk, rfl⟩, rfl⟩ (.nil _)
  have hasked : Function.update (fun _ => 0) 0x41f50 100 0x41f50 = 100 := Function.update_self ..
  exact ⟨h, _, hheap, hrun, List.mem_cons_self, hasked, kfree_sized_run_iff (by decide)
    (by decide) (by decide) smallPmm_init smallHeap_frames hheap hrun List.mem_cons_self⟩

/-- A block of 128 bytes that `krealloc` has left in place for 10 goes to the cache for 16. -/
theorem kfree_sized_shrunk :
    ∃ h t, kheapInit smallHeap = some h ∧
      Run AskedStep ((h, []), fun _ => 0)
        [(.kmalloc 100, 0x41f50), (.krealloc 0x41f50 10, 0x41f50)] t ∧ 0x41f50 ∈ t.1.2 ∧
      t.2 0x41f50 = 10 ∧
      ¬ SameFree (kfree t.1.1 0x41f50) (kfreeSized t.1.1 0x41f50 (t.2 0x41f50)) := by
  have heval : (kheapInit smallHeap >>= fun h => kmalloc h 100 >>= fun a =>
      krealloc a.2 0x41f50 10 >>= fun c => some (a.1, c.1,
        ((kfree c.2 0x41f50).cache 0).freeObjects,
        ((kfreeSized c.2 0x41f50 10).cache 0).freeObjects)) =
      some (0x41f50, 0x41f50, 0, 0x41f40) := by
    decide +kernel
  obtain ⟨h, hheap, hrest⟩ := Option.bind_eq_some_iff.mp heval
  obtain ⟨⟨ra, ha⟩, hk, hrest⟩ := Option.bind_eq_some_iff.mp hrest
  obtain ⟨⟨rc, hc⟩, hre, hresult⟩ := Option.bind_eq_some_iff.mp hrest
  simp only [Option.some.injEq, Prod.mk.injEq] at hresult
  obtain ⟨rfl, rfl, hfree, hsized⟩ := hresult
  have hasked : Function.update (Function.update (fun _ => 0) 0x41f50 100) 0x41f50 10 0x41f50 =
      10 := Function.update_self ..
  refine ⟨h, ((hc, [0x41f50]),
    Function.update (Function.update (fun _ => 0) 0x41f50 100) 0x41f50 10), hheap, ?_,
    List.mem_cons_self, hasked, ?_⟩
  · exact .cons (u := ((ha, [0x41f50]), Function.update (fun _ => 0) 0x41f50 100))
      ⟨⟨(by decide : FitsSize 100), hk, rfl⟩, rfl⟩
      (.cons (u := ((hc, [0x41f50]),
        Function.update (Function.update (fun _ => 0) 0x41f50 100) 0x41f50 10))
        ⟨⟨⟨.inr List.mem_cons_self, (by decide : FitsSize 10)⟩, hre, rfl⟩, rfl⟩ (.nil _))
  · rintro ⟨_, hlists⟩
    simp only [hasked] at hlists
    have hempty := (hlists 0 (by decide) []).mpr hfree
    rw [Chain.nil_iff, hsized] at hempty
    exact absurd hempty (by decide)

end Vectra

import Vectra.Lib.Threads
import Vectra.Mm.FrameRuns
import Vectra.Mm.Kheap

/-!
# Several CPUs in `pmm_alloc_frame`

The frame allocator has no lock of its own. CPUs come to it from `slab_grow`, under
the lock of one cache, and from `kmalloc`, under no lock. A step of a CPU is one access to
the bitmap, the counter or the cursor.
-/

namespace Vectra

open Lib

/-- The accesses of `pmm_alloc_frame`: the gate, the load of the cursor, the tests of the two
loops with the bound of the second, and what is done at a clear bit. -/
inductive AllocPoint
  | gate
  | load
  | scan (i : ℕ)
  | bound (i : ℕ)
  | wrap (i : ℕ)
  | set (i : ℕ)
  | count (i : ℕ)
  | cursor (i : ℕ)
  deriving DecidableEq

/-- One access; it leads to another one or to the return, with `none` for the address 0.
The result is `none` on a panic. -/
def AllocPoint.exec (p : Pmm) : AllocPoint → Option (Pmm × (AllocPoint ⊕ Option ℕ))
  | .gate => if p.freeFrames = 0 then none else some (p, .inl .load)
  | .load => some (p, .inl (.scan p.lastFreeIndex))
  | .scan i =>
      if i < p.totalFrames then some (p, .inl (if p.used i then .scan (i + 1) else .set i))
      else some (p, .inl (.bound 0))
  | .bound i => if i < p.lastFreeIndex then some (p, .inl (.wrap i)) else some (p, .inr none)
  | .wrap i => some (p, .inl (if p.used i then .bound (i + 1) else .set i))
  | .set i => some ({ p with frameBitmap := bitmapSet p.frameBitmap i }, .inl (.count i))
  | .count i => some ({ p with freeFrames := sub64 p.freeFrames 1 }, .inl (.cursor i))
  | .cursor i => some ({ p with lastFreeIndex := i + 1 }, .inr (some i))

/-- Who called: `slab_grow` for a cache, or `kmalloc` for the frame `k` of the `n` from
`phys` on. -/
inductive AllocCaller
  | slabGrow (cache : ℕ)
  | kmalloc (phys k n : ℕ)
  deriving DecidableEq

/-- `locked` and `pop` are in `slab_alloc`, before and after the growth. -/
inductive AllocCpu
  | idle
  | locked (cache : ℕ)
  | pop (cache : ℕ)
  | alloc (caller : AllocCaller) (point : AllocPoint)
  deriving DecidableEq

/-- The frame allocator, the lock and the length of the free list of each cache, and the
frames that have been returned and not given back since. -/
structure AllocShared where
  pmm : Pmm
  locked : ℕ → Bool
  freeObjects : ℕ → ℕ
  held : List ℕ

inductive AllocOp
  | slabAlloc (cache : ℕ)
  | kmalloc (size : ℕ)
  | freeFrame (i : ℕ)
  | exec
  deriving DecidableEq

/-- What the caller does with the address that it gets; `slots` is the number of slots in a page
of each cache. -/
def AllocCaller.resume (slots : ℕ → ℕ) (g : AllocShared) (phys : ℕ) :
    AllocCaller → Option (AllocShared × AllocCpu)
  | .slabGrow cache =>
      if phys = 0 then none
      else some ({ g with
        freeObjects := Function.update g.freeObjects cache (g.freeObjects cache + slots cache) },
        .pop cache)
  | .kmalloc first k n =>
      if k = 0 then
        if phys = 0 ∨ n ≤ 1 then some (g, .idle) else some (g, .alloc (.kmalloc phys 1 n) .gate)
      else if phys ≠ (first + k * pageSize) % 2 ^ 64 then none
      else if n ≤ k + 1 then some (g, .idle)
      else some (g, .alloc (.kmalloc first (k + 1) n) .gate)

/-- A step of a CPU: a call, or the next access of the call it is in. -/
def allocStep (slots : ℕ → ℕ) (g : AllocShared) (l : AllocCpu) :
    AllocOp → Option (AllocShared × AllocCpu)
  | .slabAlloc cache =>
      if l = .idle ∧ g.locked cache = false then
        some ({ g with locked := Function.update g.locked cache true }, .locked cache)
      else none
  | .kmalloc size =>
      if l = .idle ∧ getBucketIndex size = none then
        some (g, .alloc (.kmalloc 0 0 (numPages size)) .gate)
      else none
  | .freeFrame i =>
      if l = .idle ∧ i ∈ g.held then
        some ({ g with
          pmm := pmmFreeFrame g.pmm (g.pmm.frameAddr i)
          held := g.held.erase i }, .idle)
      else none
  | .exec =>
      match l with
      | .idle => none
      | .locked cache =>
          some (g, if g.freeObjects cache = 0 then .alloc (.slabGrow cache) .gate else .pop cache)
      | .pop cache =>
          some ({ g with
            locked := Function.update g.locked cache false
            freeObjects := Function.update g.freeObjects cache (g.freeObjects cache - 1) }, .idle)
      | .alloc caller point =>
          match point.exec g.pmm with
          | none => none
          | some (p, .inl next) => some ({ g with pmm := p }, .alloc caller next)
          | some (p, .inr none) => caller.resume slots { g with pmm := p } 0
          | some (p, .inr (some i)) =>
              caller.resume slots { g with pmm := p, held := i :: g.held } (p.frameAddr i)

variable {ι : Type*} [DecidableEq ι]

abbrev AllocSys (ι : Type*) := Sys ι AllocShared AllocCpu

def AllocStep (slots : ℕ → ℕ) (_ : ι) (g : AllocShared) (l : AllocCpu) (op : AllocOp)
    (g' : AllocShared) (l' : AllocCpu) : Prop :=
  allocStep slots g l op = some (g', l')

/-- The bit that the CPU is about to set is still clear. -/
def StillClear (s : AllocSys ι) (e : ι × AllocOp) : Prop :=
  ∀ caller i, s.thread e.1 = .alloc caller (.set i) → s.shared.pmm.used i = false

/-- The CPUs before their first call, with no frame returned yet. -/
def AllocSys.start (p : Pmm) (freeObjects : ℕ → ℕ) : AllocSys ι :=
  ⟨⟨p, fun _ => false, freeObjects, []⟩, fun _ => .idle⟩

/-- The frame between the set of its bit and the return. -/
def AllocCpu.frame : AllocCpu → Option ℕ
  | .alloc _ (.count i) | .alloc _ (.cursor i) => some i
  | _ => none

/-- 1 between the set of a bit and the update of the counter. -/
def AllocCpu.uncounted : AllocCpu → ℕ
  | .alloc _ (.count _) => 1
  | _ => 0

/-- 1 between the update of the counter and the return. -/
def AllocCpu.unreturned : AllocCpu → ℕ
  | .alloc _ (.cursor _) => 1
  | _ => 0

/-- No frame has been returned twice without being given back in between, and the counter has
gone down by one for each frame returned, those about to be included. -/
structure FramesOk [Fintype ι] (p : Pmm) (s : AllocSys ι) : Prop where
  distinct : (s.shared.held.map s.shared.pmm.frameAddr).Nodup
  counter : s.shared.pmm.freeFrames + s.shared.held.length + s.sum AllocCpu.unreturned =
    p.freeFrames

/-! ## One CPU alone -/

/-- `pmm_alloc_frame` run by one CPU without interruption. -/
def allocAlone (p : Pmm) (point : AllocPoint) : ℕ → Option (Pmm × Option ℕ)
  | 0 => none
  | n + 1 =>
      match point.exec p with
      | none => none
      | some (p, .inl next) => allocAlone p next n
      | some (p, .inr r) => some (p, r)

section Alone

variable {p : Pmm} {i j k : ℕ}

theorem scan_alone_some (h : firstFrom (fun j => !p.used j) i k = some j)
    (hk : i + k ≤ p.totalFrames) :
    ∃ d, ∀ n, allocAlone p (.scan i) (n + d) = allocAlone p (.set j) n := by
  induction k generalizing i with
  | zero => cases h
  | succ k ih =>
      have hlt : i < p.totalFrames := by omega
      cases hused : p.used i with
      | false =>
          simp only [firstFrom, hused, Bool.not_false, if_true, Option.some.injEq] at h
          subst h
          exact ⟨1, fun n => by simp [allocAlone, AllocPoint.exec, hlt, hused]⟩
      | true =>
          simp only [firstFrom, hused, Bool.not_true, Bool.false_eq_true, if_false] at h
          obtain ⟨d, hd⟩ := ih h (by omega)
          refine ⟨d + 1, fun n => ?_⟩
          rw [← hd n, ← Nat.add_assoc]
          simp [allocAlone, AllocPoint.exec, hlt, hused]

theorem scan_alone_none (h : firstFrom (fun j => !p.used j) i k = none)
    (hk : p.totalFrames ≤ i + k) (hle : i + k ≤ max i p.totalFrames) :
    ∃ d, ∀ n, allocAlone p (.scan i) (n + d) = allocAlone p (.bound 0) n := by
  induction k generalizing i with
  | zero =>
      have hge : ¬ i < p.totalFrames := by omega
      exact ⟨1, fun n => by simp [allocAlone, AllocPoint.exec, hge]⟩
  | succ k ih =>
      have hlt : i < p.totalFrames := by omega
      cases hused : p.used i with
      | false => simp [firstFrom, hused] at h
      | true =>
          simp only [firstFrom, hused, Bool.not_true, Bool.false_eq_true, if_false] at h
          obtain ⟨d, hd⟩ := ih h (by omega) (by omega)
          refine ⟨d + 1, fun n => ?_⟩
          rw [← hd n, ← Nat.add_assoc]
          simp [allocAlone, AllocPoint.exec, hlt, hused]

theorem wrap_alone_some (h : firstFrom (fun j => !p.used j) i k = some j)
    (hk : i + k = p.lastFreeIndex) :
    ∃ d, ∀ n, allocAlone p (.bound i) (n + d) = allocAlone p (.set j) n := by
  induction k generalizing i with
  | zero => cases h
  | succ k ih =>
      have hlt : i < p.lastFreeIndex := by omega
      cases hused : p.used i with
      | false =>
          simp only [firstFrom, hused, Bool.not_false, if_true, Option.some.injEq] at h
          subst h
          exact ⟨2, fun n => by simp [allocAlone, AllocPoint.exec, hlt, hused]⟩
      | true =>
          simp only [firstFrom, hused, Bool.not_true, Bool.false_eq_true, if_false] at h
          obtain ⟨d, hd⟩ := ih h (by omega)
          refine ⟨d + 2, fun n => ?_⟩
          rw [← hd n, ← Nat.add_assoc]
          simp [allocAlone, AllocPoint.exec, hlt, hused]

theorem wrap_alone_none (h : firstFrom (fun j => !p.used j) i k = none)
    (hk : i + k = p.lastFreeIndex) : ∃ n, allocAlone p (.bound i) n = some (p, none) := by
  induction k generalizing i with
  | zero =>
      have hge : ¬ i < p.lastFreeIndex := by omega
      exact ⟨1, by simp [allocAlone, AllocPoint.exec, hge]⟩
  | succ k ih =>
      have hlt : i < p.lastFreeIndex := by omega
      cases hused : p.used i with
      | false => simp [firstFrom, hused] at h
      | true =>
          simp only [firstFrom, hused, Bool.not_true, Bool.false_eq_true, if_false] at h
          obtain ⟨n, hn⟩ := ih h (by omega)
          exact ⟨n + 2, by simp [allocAlone, AllocPoint.exec, hlt, hused, hn]⟩

/-- The accesses from the set of a clear bit on are `takeFrame`. -/
theorem set_alone (hpos : p.freeFrames ≠ 0) (hlt : p.freeFrames < 2 ^ 64) :
    allocAlone p (.set i) 3 = some (takeFrame p i, some i) := by
  have hsub : sub64 p.freeFrames 1 = p.freeFrames - 1 := sub64_of_le (by omega) hlt
  simp [allocAlone, AllocPoint.exec, takeFrame, hsub]

/-- Alone, the accesses compute `pmm_alloc_frame`. -/
theorem allocAlone_gate {a : ℕ} {q : Pmm} (hcursor : p.lastFreeIndex ≤ p.totalFrames)
    (hfree : p.freeFrames < 2 ^ 64) (h : pmmAllocFrame p = some (a, q)) :
    ∃ n r, allocAlone p .gate n = some (q, r) ∧ a = r.elim 0 p.frameAddr := by
  unfold pmmAllocFrame at h
  split at h
  · cases h
  · rename_i hpos
    have hgate : ∀ n, allocAlone p .gate (n + 2) = allocAlone p (.scan p.lastFreeIndex) n := by
      intro n
      simp [allocAlone, AllocPoint.exec, hpos]
    cases hfwd : firstFrom (fun i => !p.used i) p.lastFreeIndex
        (p.totalFrames - p.lastFreeIndex) with
    | some i =>
        obtain ⟨d, hd⟩ := scan_alone_some hfwd (by omega)
        simp only [hfwd, Option.some.injEq, Prod.mk.injEq] at h
        obtain ⟨rfl, rfl⟩ := h
        refine ⟨3 + d + 2, some i, ?_, rfl⟩
        rw [hgate, hd, set_alone hpos hfree]
    | none =>
        obtain ⟨d, hd⟩ := scan_alone_none hfwd (by omega) (by omega)
        simp only [hfwd] at h
        cases hwrap : firstFrom (fun i => !p.used i) 0 p.lastFreeIndex with
        | some i =>
            obtain ⟨e, he⟩ := wrap_alone_some hwrap (Nat.zero_add _)
            simp only [hwrap, Option.some.injEq, Prod.mk.injEq] at h
            obtain ⟨rfl, rfl⟩ := h
            refine ⟨3 + e + d + 2, some i, ?_, rfl⟩
            rw [hgate, hd, he, set_alone hpos hfree]
        | none =>
            obtain ⟨e, he⟩ := wrap_alone_none hwrap (Nat.zero_add _)
            simp only [hwrap, Option.some.injEq, Prod.mk.injEq] at h
            obtain ⟨rfl, rfl⟩ := h
            refine ⟨e + d + 2, none, ?_, rfl⟩
            rw [hgate, hd, he]

end Alone

/-! ## What a step does -/

/-- The frame of a point is in range. -/
def AllocPoint.InRange (total : ℕ) : AllocPoint → Prop
  | .wrap i | .set i | .count i | .cursor i => i < total
  | _ => True

def AllocCpu.InRange (total : ℕ) : AllocCpu → Prop
  | .alloc _ point => point.InRange total
  | _ => True

/-- The CPU is not between the set of a bit and the return. -/
def AllocCpu.Outside (l : AllocCpu) : Prop :=
  l.frame = none ∧ l.uncounted = 0 ∧ l.unreturned = 0

/-- The phases of a frame: its bit is set, it is counted, it is returned, it is given back. -/
inductive AllocEffect (g : AllocShared) (l : AllocCpu) (g' : AllocShared) (l' : AllocCpu) : Prop
  | keep (pmm : g'.pmm = g.pmm) (held : g'.held = g.held) (before : l.Outside) (after : l'.Outside)
  | set (caller : AllocCaller) (i : ℕ) (before : l = .alloc caller (.set i))
      (after : l' = .alloc caller (.count i))
      (pmm : g'.pmm = { g.pmm with frameBitmap := bitmapSet g.pmm.frameBitmap i })
      (held : g'.held = g.held)
  | count (caller : AllocCaller) (i : ℕ) (before : l = .alloc caller (.count i))
      (after : l' = .alloc caller (.cursor i))
      (pmm : g'.pmm = { g.pmm with freeFrames := sub64 g.pmm.freeFrames 1 })
      (held : g'.held = g.held)
  | ret (caller : AllocCaller) (i : ℕ) (before : l = .alloc caller (.cursor i))
      (after : l'.Outside) (pmm : g'.pmm = { g.pmm with lastFreeIndex := i + 1 })
      (held : g'.held = i :: g.held)
  | give (i : ℕ) (mem : i ∈ g.held) (before : l.Outside) (after : l'.Outside)
      (pmm : g'.pmm = pmmFreeFrame g.pmm (g.pmm.frameAddr i)) (held : g'.held = g.held.erase i)

section Step

variable {slots : ℕ → ℕ} {g g' : AllocShared} {l l' : AllocCpu} {op : AllocOp}

/-- The caller touches neither the allocator nor the returned frames. -/
theorem resume_spec {caller : AllocCaller} {phys total : ℕ}
    (hs : caller.resume slots g phys = some (g', l')) :
    g'.pmm = g.pmm ∧ g'.held = g.held ∧ l'.Outside ∧ l'.InRange total := by
  cases caller with
  | slabGrow cache =>
      simp only [AllocCaller.resume] at hs
      split at hs
      · cases hs
      · cases hs
        exact ⟨rfl, rfl, ⟨rfl, rfl, rfl⟩, trivial⟩
  | kmalloc first k n =>
      simp only [AllocCaller.resume] at hs
      split at hs
      · split at hs
        · cases hs
          exact ⟨rfl, rfl, ⟨rfl, rfl, rfl⟩, trivial⟩
        · cases hs
          exact ⟨rfl, rfl, ⟨rfl, rfl, rfl⟩, trivial⟩
      · split at hs
        · cases hs
        · split at hs
          · cases hs
            exact ⟨rfl, rfl, ⟨rfl, rfl, rfl⟩, trivial⟩
          · cases hs
            exact ⟨rfl, rfl, ⟨rfl, rfl, rfl⟩, trivial⟩

/-- An access of `pmm_alloc_frame`. -/
theorem access_effect {caller : AllocCaller} {point : AllocPoint}
    (hpoint : point.InRange g.pmm.totalFrames) (hcursor : g.pmm.lastFreeIndex ≤ g.pmm.totalFrames)
    (hs : allocStep slots g (.alloc caller point) .exec = some (g', l')) :
    l'.InRange g.pmm.totalFrames ∧ AllocEffect g (.alloc caller point) g' l' := by
  cases point with
  | gate =>
      simp only [allocStep, AllocPoint.exec] at hs
      split at hs
      · cases hs
      · rename_i hgate
        split at hgate
        · cases hgate
        · cases hgate
          cases hs
          exact ⟨trivial, .keep rfl rfl ⟨rfl, rfl, rfl⟩ ⟨rfl, rfl, rfl⟩⟩
      all_goals
        rename_i hgate
        split at hgate <;> cases hgate
  | load =>
      cases hs
      exact ⟨trivial, .keep rfl rfl ⟨rfl, rfl, rfl⟩ ⟨rfl, rfl, rfl⟩⟩
  | scan i =>
      by_cases hlt : i < g.pmm.totalFrames
      · simp only [allocStep, AllocPoint.exec, if_pos hlt, Option.some.injEq, Prod.mk.injEq] at hs
        obtain ⟨rfl, rfl⟩ := hs
        cases hused : g.pmm.used i with
        | true => exact ⟨trivial, .keep rfl rfl ⟨rfl, rfl, rfl⟩ ⟨rfl, rfl, rfl⟩⟩
        | false => exact ⟨hlt, .keep rfl rfl ⟨rfl, rfl, rfl⟩ ⟨rfl, rfl, rfl⟩⟩
      · simp only [allocStep, AllocPoint.exec, if_neg hlt, Option.some.injEq, Prod.mk.injEq] at hs
        obtain ⟨rfl, rfl⟩ := hs
        exact ⟨trivial, .keep rfl rfl ⟨rfl, rfl, rfl⟩ ⟨rfl, rfl, rfl⟩⟩
  | bound i =>
      by_cases hlt : i < g.pmm.lastFreeIndex
      · simp only [allocStep, AllocPoint.exec, if_pos hlt, Option.some.injEq, Prod.mk.injEq] at hs
        obtain ⟨rfl, rfl⟩ := hs
        exact ⟨hlt.trans_le hcursor, .keep rfl rfl ⟨rfl, rfl, rfl⟩ ⟨rfl, rfl, rfl⟩⟩
      · simp only [allocStep, AllocPoint.exec, if_neg hlt] at hs
        obtain ⟨hpmm, hheld, hout, hin⟩ := resume_spec hs
        exact ⟨hin, .keep hpmm hheld ⟨rfl, rfl, rfl⟩ hout⟩
  | wrap i =>
      simp only [allocStep, AllocPoint.exec, Option.some.injEq, Prod.mk.injEq] at hs
      obtain ⟨rfl, rfl⟩ := hs
      cases hused : g.pmm.used i with
      | true => exact ⟨trivial, .keep rfl rfl ⟨rfl, rfl, rfl⟩ ⟨rfl, rfl, rfl⟩⟩
      | false => exact ⟨hpoint, .keep rfl rfl ⟨rfl, rfl, rfl⟩ ⟨rfl, rfl, rfl⟩⟩
  | set i =>
      cases hs
      exact ⟨hpoint, .set caller i rfl rfl rfl rfl⟩
  | count i =>
      cases hs
      exact ⟨hpoint, .count caller i rfl rfl rfl rfl⟩
  | cursor i =>
      simp only [allocStep, AllocPoint.exec] at hs
      obtain ⟨hpmm, hheld, hout, hin⟩ := resume_spec hs
      exact ⟨hin, .ret caller i rfl hout hpmm hheld⟩

/-- Everything that a step of a CPU can do to the frames. -/
theorem allocStep_effect (hpoint : l.InRange g.pmm.totalFrames)
    (hcursor : g.pmm.lastFreeIndex ≤ g.pmm.totalFrames)
    (hs : allocStep slots g l op = some (g', l')) :
    l'.InRange g.pmm.totalFrames ∧ AllocEffect g l g' l' := by
  cases op with
  | slabAlloc cache =>
      simp only [allocStep] at hs
      split at hs
      · rename_i hidle
        rw [hidle.1]
        cases hs
        exact ⟨trivial, .keep rfl rfl ⟨rfl, rfl, rfl⟩ ⟨rfl, rfl, rfl⟩⟩
      · cases hs
  | kmalloc size =>
      simp only [allocStep] at hs
      split at hs
      · rename_i hidle
        rw [hidle.1]
        cases hs
        exact ⟨trivial, .keep rfl rfl ⟨rfl, rfl, rfl⟩ ⟨rfl, rfl, rfl⟩⟩
      · cases hs
  | freeFrame i =>
      simp only [allocStep] at hs
      split at hs
      · rename_i hidle
        rw [hidle.1]
        cases hs
        exact ⟨trivial, .give i hidle.2 ⟨rfl, rfl, rfl⟩ ⟨rfl, rfl, rfl⟩ rfl rfl⟩
      · cases hs
  | exec =>
      cases l with
      | idle => cases hs
      | locked cache =>
          simp only [allocStep, Option.some.injEq, Prod.mk.injEq] at hs
          obtain ⟨rfl, rfl⟩ := hs
          by_cases hempty : g.freeObjects cache = 0
          · rw [if_pos hempty]
            exact ⟨trivial, .keep rfl rfl ⟨rfl, rfl, rfl⟩ ⟨rfl, rfl, rfl⟩⟩
          · rw [if_neg hempty]
            exact ⟨trivial, .keep rfl rfl ⟨rfl, rfl, rfl⟩ ⟨rfl, rfl, rfl⟩⟩
      | pop cache =>
          cases hs
          exact ⟨trivial, .keep rfl rfl ⟨rfl, rfl, rfl⟩ ⟨rfl, rfl, rfl⟩⟩
      | alloc caller point => exact access_effect hpoint hcursor hs

end Step

/-! ## The invariant -/

/-- A used frame has at most one owner: a CPU that is about to return it, or who got it. -/
structure FrameOwners (total : ℕ) (used : ℕ → Bool) (returned : List ℕ) (owned : ι → Option ℕ) :
    Prop where
  frame : ∀ i f, owned i = some f → f < total ∧ used f = true ∧ f ∉ returned
  unique : ∀ i j f, owned i = some f → owned j = some f → i = j
  held : ∀ f ∈ returned, f < total ∧ used f = true
  nodup : returned.Nodup

namespace FrameOwners

variable {total f : ℕ} {used used' : ℕ → Bool} {returned : List ℕ} {owned owned' : ι → Option ℕ}
  {i : ι}

omit [DecidableEq ι] in
theorem keep (h : FrameOwners total used returned owned) (hself : owned' i = owned i)
    (hother : ∀ j, j ≠ i → owned' j = owned j) : FrameOwners total used returned owned' := by
  have howned : owned' = owned := by
    funext j
    by_cases hji : j = i
    · rw [hji, hself]
    · exact hother j hji
  rwa [howned]

omit [DecidableEq ι] in
/-- A CPU sets a clear bit. -/
theorem set (h : FrameOwners total used returned owned) (hf : f < total) (hclear : used f = false)
    (hused : ∀ j, used' j = (decide (j = f) || used j)) (hself : owned' i = some f)
    (hother : ∀ j, j ≠ i → owned' j = owned j) : FrameOwners total used' returned owned' := by
  have hne : ∀ f', used f' = true → f' ≠ f := by
    rintro f' hset rfl
    rw [hclear] at hset
    cases hset
  have hkeep : ∀ f', used f' = true → used' f' = true := fun f' hset => by
    rw [hused, hset, Bool.or_true]
  have hown : ∀ j f', owned' j = some f' → (j = i ∧ f' = f) ∨ (j ≠ i ∧ owned j = some f') := by
    intro j f' hj
    by_cases hji : j = i
    · rw [hji, hself] at hj
      exact .inl ⟨hji, (Option.some.inj hj).symm⟩
    · rw [hother j hji] at hj
      exact .inr ⟨hji, hj⟩
  refine ⟨fun j f' hj => ?_, fun j k f' hj hk => ?_, fun f' hmem => ?_, h.nodup⟩
  · rcases hown j f' hj with ⟨_, rfl⟩ | ⟨_, hj⟩
    · exact ⟨hf, by simp [hused], fun hmem => hne f' (h.held f' hmem).2 rfl⟩
    · obtain ⟨hlt, hset, hnot⟩ := h.frame j f' hj
      exact ⟨hlt, hkeep f' hset, hnot⟩
  · rcases hown j f' hj with ⟨hji, rfl⟩ | ⟨_, hj⟩
    · rcases hown k f' hk with ⟨hki, _⟩ | ⟨_, hk⟩
      · exact hji.trans hki.symm
      · exact absurd rfl (hne f' (h.frame k f' hk).2.1)
    · rcases hown k f' hk with ⟨_, rfl⟩ | ⟨_, hk⟩
      · exact absurd rfl (hne f' (h.frame j f' hj).2.1)
      · exact h.unique j k f' hj hk
  · exact ⟨(h.held f' hmem).1, hkeep f' (h.held f' hmem).2⟩

omit [DecidableEq ι] in
/-- A CPU returns its frame. -/
theorem ret (h : FrameOwners total used returned owned) (hi : owned i = some f)
    (hself : owned' i = none) (hother : ∀ j, j ≠ i → owned' j = owned j) :
    FrameOwners total used (f :: returned) owned' := by
  have hown : ∀ j f', owned' j = some f' → j ≠ i ∧ owned j = some f' := by
    intro j f' hj
    by_cases hji : j = i
    · rw [hji, hself] at hj
      cases hj
    · rw [hother j hji] at hj
      exact ⟨hji, hj⟩
  obtain ⟨hf, hset, hnot⟩ := h.frame i f hi
  refine ⟨fun j f' hj => ?_, fun j k f' hj hk => ?_, fun f' hmem => ?_, h.nodup.cons hnot⟩
  · obtain ⟨hji, hj⟩ := hown j f' hj
    obtain ⟨hlt, hset', hnot'⟩ := h.frame j f' hj
    refine ⟨hlt, hset', fun hmem => ?_⟩
    rcases List.mem_cons.mp hmem with rfl | hmem
    · exact hji (h.unique j i f' hj hi)
    · exact hnot' hmem
  · exact h.unique j k f' (hown j f' hj).2 (hown k f' hk).2
  · rcases List.mem_cons.mp hmem with rfl | hmem
    · exact ⟨hf, hset⟩
    · exact h.held f' hmem

omit [DecidableEq ι] in
/-- A frame is given back. -/
theorem give (h : FrameOwners total used returned owned) (hf : f ∈ returned)
    (hused : ∀ j, used' j = (!decide (j = f) && used j)) :
    FrameOwners total used' (returned.erase f) owned := by
  have hkeep : ∀ f', f' ≠ f → used f' = true → used' f' = true := by
    intro f' hne hset
    simp [hused, hne, hset]
  refine ⟨fun j f' hj => ?_, h.unique, fun f' hmem => ?_, h.nodup.erase f⟩
  · obtain ⟨hlt, hset, hnot⟩ := h.frame j f' hj
    have hne : f' ≠ f := fun heq => hnot (heq ▸ hf)
    exact ⟨hlt, hkeep f' hne hset, fun hmem => hnot (List.mem_of_mem_erase hmem)⟩
  · obtain ⟨hne, hmem⟩ := h.nodup.mem_erase_iff.mp hmem
    exact ⟨(h.held f' hmem).1, hkeep f' hne (h.held f' hmem).2⟩

end FrameOwners

structure AllocInv [Fintype ι] (slack : ℕ) (p : Pmm) (s : AllocSys ι) : Prop where
  range : SameRange p s.shared.pmm
  cursor : s.shared.pmm.lastFreeIndex ≤ p.totalFrames
  inRange : ∀ i, (s.thread i).InRange p.totalFrames
  owners : FrameOwners p.totalFrames s.shared.pmm.used s.shared.held fun i => (s.thread i).frame
  ahead : s.shared.pmm.freeFrames =
    slack + s.shared.pmm.clearFrames.card + s.sum AllocCpu.uncounted
  total : s.shared.pmm.freeFrames + s.shared.held.length + s.sum AllocCpu.unreturned =
    p.freeFrames

namespace AllocInv

variable [Fintype ι] {slots : ℕ → ℕ} {slack : ℕ} {p : Pmm} {s t : AllocSys ι} {i : ι}
  {op : AllocOp}

omit [DecidableEq ι] in
theorem start (hp : PmmInv slack p) (freeObjects : ℕ → ℕ) :
    AllocInv slack p (AllocSys.start (ι := ι) p freeObjects) where
  range := .refl p
  cursor := hp.cursor
  inRange := fun _ => trivial
  owners := by
    refine ⟨?_, ?_, ?_, List.nodup_nil⟩
    · intro _ _ hf
      cases hf
    · intro _ _ _ hf
      cases hf
    · intro _ hf
      cases hf
  ahead := by
    have hsum : (AllocSys.start (ι := ι) p freeObjects).sum AllocCpu.uncounted = 0 :=
      Finset.sum_eq_zero fun _ _ => rfl
    rw [hsum]
    exact hp.count
  total := by
    have hsum : (AllocSys.start (ι := ι) p freeObjects).sum AllocCpu.unreturned = 0 :=
      Finset.sum_eq_zero fun _ _ => rfl
    rw [hsum]
    rfl

theorem step (hp : PmmInv slack p) (h : AllocInv slack p s) (hclear : StillClear s (i, op))
    (hs : Interleave (AllocStep slots) s (i, op) t) : AllocInv slack p t := by
  have htotal := h.range.2
  obtain ⟨hin, heffect⟩ := allocStep_effect (by rw [htotal]; exact h.inRange i)
    (by rw [htotal]; exact h.cursor) hs.self
  rw [htotal] at hin
  have hinRange : ∀ j, (t.thread j).InRange p.totalFrames :=
    hs.forall_thread (P := fun _ _ l => l.InRange p.totalFrames) h.inRange hin fun _ _ hj => hj
  have hframes : ∀ j, j ≠ i → (t.thread j).frame = (s.thread j).frame := fun j hji => by
    rw [hs.other hji]
  have huncounted := hs.sum AllocCpu.uncounted
  have hunreturned := hs.sum AllocCpu.unreturned
  have hahead := h.ahead
  have hreturned := h.total
  have hp64 : p.freeFrames < 2 ^ 64 := by
    have hcount := hp.count
    have hcard := PmmInv.card_le p
    have hlt := hp.totalFrames_lt
    have hle := hp.slack_le
    omega
  cases heffect with
  | keep pmm held before after =>
      obtain ⟨hframe, hu, hr⟩ := before
      obtain ⟨hframe', hu', hr'⟩ := after
      refine ⟨pmm ▸ h.range, pmm ▸ h.cursor, hinRange, ?_, ?_, ?_⟩
      · rw [pmm, held]
        exact h.owners.keep (hframe'.trans hframe.symm) hframes
      · rw [pmm]
        omega
      · rw [pmm, held]
        omega
  | set caller f before after pmm held =>
      have hf : f < p.totalFrames := by
        have hi := h.inRange i
        rw [before] at hi
        exact hi
      have hbit := hclear caller f before
      have hused : ∀ j, t.shared.pmm.used j = (decide (j = f) || s.shared.pmm.used j) := by
        intro j
        rw [pmm]
        exact bitmapTest_bitmapSet _ _ _
      have hcard := PmmInv.clearFrames_take (htotal ▸ hf) hbit (by rw [pmm]) hused
      rw [before, after] at huncounted hunreturned
      simp only [AllocCpu.uncounted, AllocCpu.unreturned] at huncounted hunreturned
      refine ⟨?_, ?_, hinRange, ?_, ?_, ?_⟩
      · rw [pmm]
        exact h.range
      · rw [pmm]
        exact h.cursor
      · rw [held]
        exact h.owners.set hf hbit hused (by rw [after]; rfl) hframes
      · have hsame : t.shared.pmm.freeFrames = s.shared.pmm.freeFrames := by rw [pmm]
        omega
      · have hsame : t.shared.pmm.freeFrames = s.shared.pmm.freeFrames := by rw [pmm]
        rw [held]
        omega
  | count caller f before after pmm held =>
      rw [before, after] at huncounted hunreturned
      simp only [AllocCpu.uncounted, AllocCpu.unreturned] at huncounted hunreturned
      have hcount : t.shared.pmm.freeFrames = s.shared.pmm.freeFrames - 1 := by
        rw [pmm]
        exact sub64_of_le (by omega) (by omega)
      have hused : t.shared.pmm.used = s.shared.pmm.used := by
        funext f
        unfold Pmm.used
        rw [pmm]
      have hsame : t.shared.pmm.clearFrames = s.shared.pmm.clearFrames := by
        unfold Pmm.clearFrames
        rw [hused, pmm]
      refine ⟨?_, ?_, hinRange, ?_, ?_, ?_⟩
      · rw [pmm]
        exact ⟨h.range.1, h.range.2⟩
      · rw [pmm]
        exact h.cursor
      · rw [hused, held]
        exact h.owners.keep (by rw [before, after]; rfl) hframes
      · rw [hcount, hsame]
        omega
      · rw [hcount, held]
        omega
  | ret caller f before after pmm held =>
      obtain ⟨hframe', hu', hr'⟩ := after
      have hf : f < p.totalFrames := by
        have hi := h.inRange i
        rw [before] at hi
        exact hi
      have hfree : t.shared.pmm.freeFrames = s.shared.pmm.freeFrames := by rw [pmm]
      have hsame : t.shared.pmm.clearFrames = s.shared.pmm.clearFrames := by
        rw [pmm]
        rfl
      rw [before] at huncounted hunreturned
      simp only [AllocCpu.uncounted, AllocCpu.unreturned] at huncounted hunreturned hu' hr'
      refine ⟨?_, ?_, hinRange, ?_, ?_, ?_⟩
      · rw [pmm]
        exact h.range
      · rw [pmm]
        exact hf
      · rw [pmm, held]
        exact h.owners.ret (by rw [before]; rfl) hframe' hframes
      · rw [hfree, hsame]
        omega
      · rw [hfree, held, List.length_cons]
        omega
  | give f mem before after pmm held =>
      obtain ⟨hframe, hu, hr⟩ := before
      obtain ⟨hframe', hu', hr'⟩ := after
      obtain ⟨hf, hset⟩ := h.owners.held f mem
      have hindex : s.shared.pmm.frameIndex (s.shared.pmm.frameAddr f) = f := by
        rw [h.range.frameAddr, h.range.frameIndex]
        exact hp.frameIndex_frameAddr hf (show 0 < pageSize by decide)
      have haddr : s.shared.pmm.memPhysBase ≤ s.shared.pmm.frameAddr f := by
        rw [h.range.frameAddr, h.range.1, hp.frameAddr_eq hf]
        exact Nat.le_add_right _ _
      have hlength := List.length_erase_of_mem mem
      have hpos := List.length_pos_of_mem mem
      rcases PmmInv.freeFrame_cases s.shared.pmm (s.shared.pmm.frameAddr f) with
        ⟨_, hwhy⟩ | ⟨_, _, _, hrange, hused, hcount, hcur⟩
      · rw [hindex, hset] at hwhy
        rcases hwhy with hlt | hge | hno
        · omega
        · omega
        · cases hno
      · rw [hindex] at hused
        rw [← pmm] at hrange hused hcount hcur
        have hcard := PmmInv.clearFrames_give (htotal ▸ hf) hset hrange.2 hused
        have hfree : t.shared.pmm.freeFrames = s.shared.pmm.freeFrames + 1 := by
          rw [hcount]
          exact Nat.mod_eq_of_lt (by omega)
        refine ⟨h.range.trans hrange, hcur.trans h.cursor, hinRange, ?_, ?_, ?_⟩
        · rw [held]
          exact (h.owners.give mem hused).keep (hframe'.trans hframe.symm) hframes
        · omega
        · rw [held, hfree]
          omega

omit [DecidableEq ι] in
theorem ok (hp : PmmInv slack p) (h : AllocInv slack p s) : FramesOk p s where
  distinct := by
    refine h.owners.nodup.map_on fun f hf g hg heq => ?_
    rw [h.range.frameAddr, h.range.frameAddr] at heq
    exact (frameAddr_inj hp (h.owners.held f hf).1 (h.owners.held g hg).1).mp heq
  counter := h.total

end AllocInv

/-! ## The race -/

/-- After the boot CPU alone has set the allocator up, the frames of any run of the CPUs are
in order if every bit that is set is still clear. -/
theorem frame_race_run [Fintype ι] {slots freeObjects : ℕ → ℕ} {b b' : BootHeap}
    {mem : ℕ → BitVec 8} {base size : ℕ} {p₀ p : Pmm} {es : List (PmmOp × ℕ)}
    {s : AllocSys ι} {ops : List (ι × AllocOp)} (hwrap : base + size < 2 ^ 64)
    (hinit : pmmInit Pmm.boot b mem base size = some (p₀, b')) (hboot : Run PmmStep p₀ es p)
    (hrun : Run (fun s e t => StillClear s e ∧ Interleave (AllocStep slots) s e t)
      (AllocSys.start p freeObjects) ops s) : FramesOk p s := by
  have hp := (run_pmmInv hboot (pmmInit_inv rfl (range_of_wrap hwrap) hinit)).1
  have hinv : AllocInv _ p s := hrun.invariant
    (fun _ _ _ h hstep => h.step hp hstep.1 hstep.2) (.start hp freeObjects)
  exact hinv.ok hp

/-- 64 frames, of which the first three are free. -/
def threeFrames : Pmm := pmmFreeRegion smallPmm 0x40000 0x3000

theorem threeFrames_boot : Run PmmStep smallPmm [(.freeRegion 0x40000 0x3000, 0)] threeFrames :=
  .cons ⟨⟨by decide, by decide⟩, rfl⟩ (.nil _)

instance (s : AllocSys ι) (e : ι × AllocOp) : Decidable (StillClear s e) :=
  decidable_of_iff ((match s.thread e.1 with
    | .alloc _ (.set i) => s.shared.pmm.used i
    | _ => false) = false) (by
      unfold StillClear
      cases s.thread e.1 with
      | alloc caller point => cases point <;> simp
      | _ => simp)

/-- All accesses of `slab_alloc` on an empty cache when the `n`-th bit tested is clear. -/
def slabAllocOps (cpu : Bool) (cache n : ℕ) : List (Bool × AllocOp) :=
  (cpu, .slabAlloc cache) :: List.replicate (n + 7) (cpu, .exec)

theorem frame_race_run_in_turn :
    ∃ s : AllocSys Bool,
      Run (fun s e t => StillClear s e ∧ Interleave (AllocStep fun _ => 8) s e t)
        (AllocSys.start threeFrames fun _ => 0)
        (slabAllocOps false 0 1 ++ slabAllocOps true 1 1) s ∧
      s.shared.held = [1, 0] ∧ FramesOk threeFrames s := by
  obtain ⟨s, hs, hheld⟩ := Option.map_eq_some_iff.mp (by decide +kernel :
    ((slabAllocOps false 0 1 ++ slabAllocOps true 1 1).foldlM
      (fun s e => if StillClear s e then Sys.move (fun _ => allocStep fun _ => 8) s e else none)
      (AllocSys.start threeFrames fun _ => 0)).map (fun s => s.shared.held) = some [1, 0])
  have hrun := Sys.run_of_foldlM_if hs
  exact ⟨s, hrun, hheld, frame_race_run (by decide) smallPmm_init threeFrames_boot hrun⟩

/-- Two CPUs, each under the lock of its own cache, test the bit of frame 0 before one of them
sets it, and both get the frame. -/
theorem frame_race_returned_twice :
    ∃ s : AllocSys Bool,
      Run (Interleave (AllocStep fun _ => 8)) (AllocSys.start threeFrames fun _ => 0)
        ((slabAllocOps false 0 1).take 5 ++ (slabAllocOps true 1 1).take 5 ++
          (slabAllocOps false 0 1).drop 5 ++ (slabAllocOps true 1 1).drop 5) s ∧
      s.shared.held = [0, 0] ∧ ¬ FramesOk threeFrames s := by
  obtain ⟨s, hs, hheld⟩ := Option.map_eq_some_iff.mp (by decide +kernel :
    (((slabAllocOps false 0 1).take 5 ++ (slabAllocOps true 1 1).take 5 ++
        (slabAllocOps false 0 1).drop 5 ++ (slabAllocOps true 1 1).drop 5).foldlM
      (Sys.move fun _ => allocStep fun _ => 8)
      (AllocSys.start threeFrames fun _ => 0)).map (fun s => s.shared.held) = some [0, 0])
  refine ⟨s, Sys.run_of_foldlM hs, hheld, fun hok => ?_⟩
  have hdistinct := hok.distinct
  rw [hheld] at hdistinct
  simp at hdistinct

end Vectra

import Vectra.Lib.Run
import Vectra.Mm.Physframe
import Mathlib.Order.CompletePartialOrder

/-!
# Runs of the boot allocator

`mm_boot_alloc` rounds the size up and adds it to the pointer before it looks
at the end of the heap, and both may pass 2^64. As long as neither does, the
blocks lie one after the other in the heap. A size that rounds to zero is
answered with a block that does not fit, and an addition that wraps moves the
pointer back.
-/

namespace Vectra

open Lib

/-- A call with the size requested and the pointer returned. A panic ends the run. -/
def BootStep (b : BootHeap) (e : ℕ × ℕ) (b' : BootHeap) : Prop :=
  e.1 < 2 ^ 64 ∧ mmBootAlloc b e.1 = some (e.2, b')

/-- The bytes of the block that a call returned. -/
def bootBlock (e : ℕ × ℕ) : Set ℕ := Set.Ico e.2 (e.2 + e.1)

/-- `boot_heap_ptr` stays where it is or moves up, and not past the end. -/
def PtrGrows (b b' : BootHeap) : Prop :=
  b.bootHeapPtr ≤ b'.bootHeapPtr ∧ b'.bootHeapPtr ≤ b.bootHeapEnd

/-- Neither the rounding nor the addition wraps. -/
def BootHeap.NoWrap (b : BootHeap) (size : ℕ) : Prop :=
  size + 15 < 2 ^ 64 ∧ b.bootHeapPtr + alignUp size 16 < 2 ^ 64

/-- The blocks of a run lie in the heap and apart, and its pointer only grows. -/
structure BootRunOk (b : BootHeap) (es : List (ℕ × ℕ)) (t : BootHeap) : Prop where
  inside : ∀ e ∈ es, bootBlock e ⊆ Set.Ico b.bootHeapPtr b.bootHeapEnd
  apart : es.Pairwise fun e e' => Disjoint (bootBlock e) (bootBlock e')
  grows : Run (fun u e v => PtrGrows u v ∧ BootStep u e v) b es t

variable {b b' t : BootHeap} {e : ℕ × ℕ} {es : List (ℕ × ℕ)} {size lo : ℕ}

theorem alignUp_sixteen (h : size + 15 < 2 ^ 64) : alignUp size 16 = (size + 15) / 16 * 16 :=
  alignUp_two_pow (k := 4) (by omega) h

theorem mmBootAlloc_cases (h : mmBootAlloc b e.1 = some (e.2, b')) :
    e.2 = b.bootHeapPtr ∧ b'.bootHeapPtr = (b.bootHeapPtr + alignUp e.1 16) % 2 ^ 64 ∧
      b'.bootHeapPtr ≤ b.bootHeapEnd ∧ b'.bootHeapEnd = b.bootHeapEnd := by
  unfold mmBootAlloc at h
  split_ifs at h with hnull hroom
  obtain ⟨hp, rfl⟩ := Prod.mk.inj (Option.some.inj h)
  exact ⟨hp.symm, rfl, Nat.le_of_not_lt hroom, rfl⟩

namespace BootStep

/-- Without a wrap the block ends at or below the new pointer. -/
theorem advance (h : BootStep b e b') (hno : b.NoWrap e.1) :
    e.2 = b.bootHeapPtr ∧ b.bootHeapPtr + e.1 ≤ b'.bootHeapPtr ∧
      b'.bootHeapPtr ≤ b.bootHeapEnd ∧ b'.bootHeapEnd = b.bootHeapEnd := by
  obtain ⟨_, halloc⟩ := h
  obtain ⟨hround, hadd⟩ := hno
  obtain ⟨hp, hptr, hle, hend⟩ := mmBootAlloc_cases halloc
  have hup : e.1 ≤ alignUp e.1 16 := by
    rw [alignUp_sixteen hround]
    omega
  rw [Nat.mod_eq_of_lt hadd] at hptr
  exact ⟨hp, by omega, hle, hend⟩

/-- A block that fits and a pointer that has not moved back show that nothing
wrapped. -/
theorem noWrap (h : BootStep b e b') (hptr : b.bootHeapPtr < 2 ^ 64)
    (hend : b.bootHeapEnd < 2 ^ 64) (hlow : 16 ≤ b.bootHeapPtr)
    (hfit : bootBlock e ⊆ Set.Ico lo b.bootHeapEnd) (hgrows : PtrGrows b b') :
    b.NoWrap e.1 := by
  obtain ⟨hsize, halloc⟩ := h
  obtain ⟨hp, hnew, _, _⟩ := mmBootAlloc_cases halloc
  have hround : e.1 + 15 < 2 ^ 64 := by
    by_contra hwrap
    have hlast : e.2 + (e.1 - 1) ∈ bootBlock e := ⟨by omega, by omega⟩
    have hbelow := (hfit hlast).2
    omega
  refine ⟨hround, ?_⟩
  by_contra hwrap
  have hup : alignUp e.1 16 < 2 ^ 64 := alignUp_lt _ _
  have hback := hgrows.1
  omega

end BootStep

/-- Without a wrap the blocks follow one another between the first and the last
pointer. -/
theorem boot_run_advance
    (hrun : Run (fun u e v => u.NoWrap e.1 ∧ BootStep u e v) b es t) :
    b.bootHeapPtr ≤ t.bootHeapPtr ∧
      (∀ e ∈ es, b.bootHeapPtr ≤ e.2 ∧ e.2 + e.1 ≤ b.bootHeapEnd) ∧
      es.Pairwise fun e e' => Disjoint (bootBlock e) (bootBlock e') := by
  induction hrun with
  | nil b => exact ⟨le_refl _, by simp, List.Pairwise.nil⟩
  | cons head _ ih =>
      obtain ⟨hp, hadv, hle, hend⟩ := head.2.advance head.1
      obtain ⟨hup, hin, hapart⟩ := ih
      refine ⟨by omega, ?_, ?_⟩
      · intro e he
        rcases List.mem_cons.mp he with rfl | he
        · exact ⟨by omega, by omega⟩
        · have hlater := hin e he
          exact ⟨by omega, by omega⟩
      · refine List.pairwise_cons.mpr ⟨fun e he => ?_, hapart⟩
        have hlater := (hin e he).1
        unfold bootBlock
        rw [Set.disjoint_left]
        rintro x ⟨_, hx⟩ ⟨hx', _⟩
        omega

theorem boot_run_grows (hrun : Run (fun u e v => u.NoWrap e.1 ∧ BootStep u e v) b es t) :
    Run (fun u e v => PtrGrows u v ∧ BootStep u e v) b es t := by
  apply hrun.mono
  rintro u e v ⟨hno, hstep⟩
  obtain ⟨_, hadv, hle, _⟩ := hstep.advance hno
  exact ⟨⟨by omega, hle⟩, hstep⟩

/-- Blocks that fit and a pointer that only grows come from a run without a wrap. -/
theorem boot_run_noWrap (hrun : Run (fun u e v => PtrGrows u v ∧ BootStep u e v) b es t)
    (hptr : b.bootHeapPtr < 2 ^ 64) (hend : b.bootHeapEnd < 2 ^ 64) (hlow : 16 ≤ b.bootHeapPtr)
    (hfit : ∀ e ∈ es, bootBlock e ⊆ Set.Ico lo b.bootHeapEnd) :
    Run (fun u e v => u.NoWrap e.1 ∧ BootStep u e v) b es t := by
  induction hrun with
  | nil b => exact .nil b
  | cons head _ ih =>
      obtain ⟨hgrows, hstep⟩ := head
      obtain ⟨_, _, hle, hsame⟩ := mmBootAlloc_cases hstep.2
      have hno := hstep.noWrap hptr hend hlow (hfit _ List.mem_cons_self) hgrows
      have hup := hgrows.1
      refine .cons ⟨hno, hstep⟩ (ih (by omega) (by omega) (by omega) ?_)
      intro e he
      rw [hsame]
      exact hfit e (List.mem_cons_of_mem _ he)

/-- A run whose calls do not wrap keeps its blocks in the heap and apart. In a heap
that starts at 16 or above, no other run does. -/
theorem boot_run_ok (hle : b.bootHeapPtr ≤ b.bootHeapEnd) (hend : b.bootHeapEnd < 2 ^ 64) :
    (Run (fun u e v => u.NoWrap e.1 ∧ BootStep u e v) b es t → BootRunOk b es t) ∧
      (16 ≤ b.bootHeapPtr → BootRunOk b es t →
        Run (fun u e v => u.NoWrap e.1 ∧ BootStep u e v) b es t) := by
  refine ⟨fun h => ?_, fun hlow h => ?_⟩
  · obtain ⟨_, hin, hapart⟩ := boot_run_advance h
    refine ⟨fun e he x hx => ?_, hapart, boot_run_grows h⟩
    obtain ⟨hlo, hhi⟩ := hin e he
    exact ⟨hlo.trans hx.1, hx.2.trans_le hhi⟩
  · exact boot_run_noWrap h.grows (by omega) hend hlow h.inside

/-- A heap of one page at 0x1000 after two calls, for 24 and for 100 bytes. -/
theorem boot_run_ok_two :
    BootRunOk ⟨0x1000, 0x2000⟩ [(24, 0x1000), (100, 0x1020)] ⟨0x1090, 0x2000⟩ := by
  have hrun : Run (fun u e v => u.NoWrap e.1 ∧ BootStep u e v) ⟨0x1000, 0x2000⟩
      [(24, 0x1000), (100, 0x1020)] ⟨0x1090, 0x2000⟩ := by
    refine .cons (u := ⟨0x1020, 0x2000⟩) ⟨?_, ?_⟩ (.cons ⟨?_, ?_⟩ (.nil _))
    · exact ⟨by decide, by decide⟩
    · exact ⟨by decide, rfl⟩
    · exact ⟨by decide, by decide⟩
    · exact ⟨by decide, rfl⟩
  exact (boot_run_ok (by decide) (by decide)).1 hrun

/-- A request for all but the last sixteen bytes of the address space is granted, and
the pointer moves back below the heap. -/
theorem boot_alloc_moves_back :
    ¬ ∀ (b t : BootHeap) (es : List (ℕ × ℕ)), b.bootHeapPtr ≤ b.bootHeapEnd →
      b.bootHeapEnd < 2 ^ 64 → Run BootStep b es t → BootRunOk b es t := by
  intro h
  have hstep : BootStep ⟨0x1000, 0x2000⟩ (2 ^ 64 - 16, 0x1000) ⟨0xff0, 0x2000⟩ :=
    ⟨by decide, rfl⟩
  have hok := h ⟨0x1000, 0x2000⟩ ⟨0xff0, 0x2000⟩ [(2 ^ 64 - 16, 0x1000)] (by decide) (by decide)
    (.cons hstep (.nil _))
  have hfirst : 0x3000 ∈ bootBlock (2 ^ 64 - 16, 0x1000) := ⟨by decide, by decide⟩
  have hlast := (hok.inside _ List.mem_cons_self hfirst).2
  revert hlast
  decide

end Vectra

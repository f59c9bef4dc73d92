import Vectra.Lib.Run

/-!
# Threads over a shared state

Each thread has a local state; a step of one thread may read and write the shared state and
its own local state. A run takes the steps of the threads in any order.
-/

namespace Vectra.Lib

variable {ι : Type*}

/-! ## Exclusive ownership -/

/-- At most one thread is an owner, and `taken` tells whether there is one. -/
structure Exclusive (taken : Prop) (owns : ι → Prop) : Prop where
  taken_iff : taken ↔ ∃ i, owns i
  unique : ∀ i j, owns i → owns j → i = j

namespace Exclusive

variable {taken taken' : Prop} {owns owns' : ι → Prop} {i : ι}

theorem congr (h : Exclusive taken owns) (htaken : taken' ↔ taken)
    (howns : ∀ j, owns' j ↔ owns j) : Exclusive taken' owns' := by
  refine ⟨?_, fun j k hj hk => h.unique j k ((howns j).mp hj) ((howns k).mp hk)⟩
  rw [htaken, h.taken_iff]
  exact exists_congr fun j => (howns j).symm

/-- The resource is free and a thread takes it. -/
theorem acquire (h : Exclusive taken owns) (hfree : ¬ taken) (htaken : taken')
    (hself : owns' i) (hother : ∀ j, j ≠ i → (owns' j ↔ owns j)) : Exclusive taken' owns' := by
  have hnone : ∀ j, ¬ owns j := fun j hj => hfree (h.taken_iff.mpr ⟨j, hj⟩)
  have honly : ∀ j, owns' j → j = i := by
    intro j hj
    by_contra hji
    exact hnone j ((hother j hji).mp hj)
  exact ⟨iff_of_true htaken ⟨i, hself⟩, fun j k hj hk => (honly j hj).trans (honly k hk).symm⟩

/-- The owner gives the resource back. -/
theorem release (h : Exclusive taken owns) (hi : owns i) (htaken : ¬ taken') (hself : ¬ owns' i)
    (hother : ∀ j, j ≠ i → (owns' j ↔ owns j)) : Exclusive taken' owns' := by
  have hnone : ∀ j, ¬ owns' j := by
    intro j hj
    by_cases hji : j = i
    · exact hself (hji ▸ hj)
    · exact hji (h.unique j i ((hother j hji).mp hj) hi)
  exact ⟨iff_of_false htaken fun hex => hnone _ hex.choose_spec, fun j _ hj => absurd hj (hnone j)⟩

end Exclusive

/-! ## Interleaving -/

/-- A shared state and the local states of the threads. -/
structure Sys (ι G L : Type*) where
  shared : G
  thread : ι → L

variable {G L α : Type*}

/-- The sum of a weight of the local states. -/
def Sys.sum [Fintype ι] (w : L → ℕ) (s : Sys ι G L) : ℕ := ∑ i, w (s.thread i)

theorem Sys.le_sum [Fintype ι] (w : L → ℕ) (s : Sys ι G L) (i : ι) : w (s.thread i) ≤ s.sum w :=
  Finset.single_le_sum (f := fun j => w (s.thread j)) (fun _ _ => Nat.zero_le _) (Finset.mem_univ i)

theorem Sys.sum_le_sum [Fintype ι] {w v : L → ℕ} {s : Sys ι G L}
    (h : ∀ i, w (s.thread i) ≤ v (s.thread i)) : s.sum w ≤ s.sum v :=
  Finset.sum_le_sum fun i _ => h i

theorem Sys.sum_eq_zero [Fintype ι] {w : L → ℕ} {s : Sys ι G L} :
    s.sum w = 0 ↔ ∀ i, w (s.thread i) = 0 := by
  unfold Sys.sum
  simp

variable [DecidableEq ι]

/-- One thread takes a step. -/
inductive Interleave (step : ι → G → L → α → G → L → Prop) : Sys ι G L → ι × α → Sys ι G L → Prop
  | move {s : Sys ι G L} {i : ι} {a : α} {g : G} {l : L} (h : step i s.shared (s.thread i) a g l) :
      Interleave step s (i, a) ⟨g, Function.update s.thread i l⟩

namespace Interleave

variable {step : ι → G → L → α → G → L → Prop} {s t : Sys ι G L} {i j : ι} {a : α}

theorem self (h : Interleave step s (i, a) t) :
    step i s.shared (s.thread i) a t.shared (t.thread i) := by
  cases h with
  | move h => simpa using h

theorem other (h : Interleave step s (i, a) t) (hji : j ≠ i) : t.thread j = s.thread j := by
  cases h with
  | move h => exact Function.update_of_ne hji _ _

/-- What the moving thread establishes for itself and keeps for the others holds of all. -/
theorem forall_thread {P : G → ι → L → Prop} (h : Interleave step s (i, a) t)
    (hs : ∀ j, P s.shared j (s.thread j)) (hself : P t.shared i (t.thread i))
    (hother : ∀ j, j ≠ i → P s.shared j (s.thread j) → P t.shared j (s.thread j)) :
    ∀ j, P t.shared j (t.thread j) := by
  intro j
  by_cases hji : j = i
  · rw [hji]
    exact hself
  · rw [h.other hji]
    exact hother j hji (hs j)

end Interleave

/-! ## Sums over the threads -/

/-- An update changes one summand. -/
theorem sum_update {β : Type*} {D : Finset ι} {i : ι} (hi : i ∈ D) (f : ι → β) (x : β) (w : β → ℕ) :
    ∑ j ∈ D, w (Function.update f i x j) + w (f i) = ∑ j ∈ D, w (f j) + w x := by
  have hnew := Finset.add_sum_erase D (fun j => w (Function.update f i x j)) hi
  have hold := Finset.add_sum_erase D (fun j => w (f j)) hi
  have hothers : ∑ j ∈ D.erase i, w (Function.update f i x j) = ∑ j ∈ D.erase i, w (f j) :=
    Finset.sum_congr rfl fun j hj => by
      rw [Function.update_of_ne (Finset.ne_of_mem_erase hj)]
  rw [Function.update_self] at hnew
  omega

/-- A step changes the weight of the moving thread only. -/
theorem Interleave.sum [Fintype ι] {step : ι → G → L → α → G → L → Prop} {s t : Sys ι G L} {i : ι}
    {a : α} (h : Interleave step s (i, a) t) (w : L → ℕ) :
    t.sum w + w (s.thread i) = s.sum w + w (t.thread i) := by
  have hsum := sum_update (Finset.mem_univ i) s.thread (t.thread i) w
  have hthread : t.thread = Function.update s.thread i (t.thread i) := by
    funext j
    by_cases hji : j = i
    · rw [hji, Function.update_self]
    · rw [Function.update_of_ne hji, h.other hji]
  rw [← hthread] at hsum
  exact hsum

/-! ## Steps that are functions -/

/-- The system after a step of one thread. -/
def Sys.move (f : ι → G → L → α → Option (G × L)) (s : Sys ι G L) (a : ι × α) :
    Option (Sys ι G L) :=
  (f a.1 s.shared (s.thread a.1) a.2).map fun r => ⟨r.1, Function.update s.thread a.1 r.2⟩

theorem Sys.interleave_of_move {f : ι → G → L → α → Option (G × L)} {s t : Sys ι G L} {a : ι × α}
    (h : s.move f a = some t) :
    Interleave (fun i g l a g' l' => f i g l a = some (g', l')) s a t := by
  obtain ⟨r, hr, rfl⟩ := Option.map_eq_some_iff.mp h
  exact .move hr

/-- A schedule, taken step by step, is a run. -/
theorem Sys.run_of_foldlM {f : ι → G → L → α → Option (G × L)} {s t : Sys ι G L}
    {ops : List (ι × α)} (h : ops.foldlM (Sys.move f) s = some t) :
    Run (Interleave fun i g l a g' l' => f i g l a = some (g', l')) s ops t :=
  ((run_stepOf_iff (Sys.move f) s t ops).mpr h).mono fun _ _ _ hs => Sys.interleave_of_move hs

/-- The same for steps that meet a condition. -/
theorem Sys.run_of_foldlM_if {f : ι → G → L → α → Option (G × L)} {P : Sys ι G L → ι × α → Prop}
    [∀ s a, Decidable (P s a)] {s t : Sys ι G L} {ops : List (ι × α)}
    (h : ops.foldlM (fun s a => if P s a then s.move f a else none) s = some t) :
    Run (fun s a t => P s a ∧ Interleave (fun i g l a g' l' => f i g l a = some (g', l')) s a t)
      s ops t := by
  refine ((run_stepOf_iff _ s t ops).mpr h).mono fun s a t hs => ?_
  simp only [StepOf] at hs
  split at hs
  · rename_i hP
    exact ⟨hP, Sys.interleave_of_move hs⟩
  · cases hs

end Vectra.Lib

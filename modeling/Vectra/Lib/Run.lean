import Mathlib.Tactic

/-!
# Runs of a labelled transition relation

A run is a finite sequence of labels taken one after another. Invariants
are proved for one step and lifted here, once, to every run; a deterministic
partial step function is run by folding it over the list of labels.
-/

namespace Vectra.Lib

variable {σ ι : Type*}

/-- The labels `xs`, taken in order from `s`, lead to `t`. -/
inductive Run (step : σ → ι → σ → Prop) : σ → List ι → σ → Prop
  | nil (s : σ) : Run step s [] s
  | cons {s u t : σ} {a : ι} {xs : List ι} (head : step s a u) (tail : Run step u xs t) :
      Run step s (a :: xs) t

namespace Run

variable {step : σ → ι → σ → Prop} {s t u : σ} {a : ι} {xs ys : List ι}

theorem append (h : Run step s xs t) (k : Run step t ys u) : Run step s (xs ++ ys) u := by
  induction h with
  | nil _ => exact k
  | cons head _ ih => exact .cons head (ih k)

theorem snoc (h : Run step s xs t) (k : step t a u) : Run step s (xs ++ [a]) u :=
  h.append (.cons k (.nil u))

/-- The same label over and over. -/
theorem replicate {f : ℕ → σ} {n : ℕ} (h : ∀ k < n, step (f k) a (f (k + 1))) :
    Run step (f 0) (List.replicate n a) (f n) := by
  induction n with
  | zero => exact .nil (f 0)
  | succ n ih =>
      rw [List.replicate_succ']
      exact (ih fun k hk => h k (hk.trans n.lt_succ_self)).snoc (h n n.lt_succ_self)

/-- The same label over and over, when only a property of the states is known. -/
theorem replicate_of {P : ℕ → σ → Prop} {n : ℕ}
    (h : ∀ k < n, ∀ s, P k s → ∃ t, step s a t ∧ P (k + 1) t) (hs : P 0 s) :
    ∃ t, Run step s (List.replicate n a) t ∧ P n t := by
  induction n with
  | zero => exact ⟨s, .nil s, hs⟩
  | succ n ih =>
      obtain ⟨t, hrun, ht⟩ := ih fun k hk => h k (hk.trans n.lt_succ_self)
      obtain ⟨u, hstep, hu⟩ := h n n.lt_succ_self t ht
      rw [List.replicate_succ']
      exact ⟨u, hrun.snoc hstep, hu⟩

theorem of_append (h : Run step s (xs ++ ys) u) : ∃ t, Run step s xs t ∧ Run step t ys u := by
  induction xs generalizing s with
  | nil => exact ⟨s, .nil s, h⟩
  | cons x xs ih =>
      cases h with
      | cons head tail =>
          obtain ⟨t, hxs, hys⟩ := ih tail
          exact ⟨t, .cons head hxs, hys⟩

/-- A property that every step preserves holds at the end of every run. -/
theorem invariant {I : σ → Prop} (hstep : ∀ s a t, I s → step s a t → I t)
    (h : Run step s xs t) (hs : I s) : I t := by
  induction h with
  | nil _ => exact hs
  | cons head _ ih => exact ih (hstep _ _ _ hs head)

/-- An invariant that also speaks of a record kept of the labels. -/
theorem invariant_foldl {γ : Type*} {f : γ → ι → γ} {I : γ → σ → Prop}
    (hstep : ∀ g s a t, I g s → step s a t → I (f g a) t) (h : Run step s xs t) {g : γ}
    (hs : I g s) : I (xs.foldl f g) t := by
  induction h generalizing g with
  | nil _ => exact hs
  | cons head _ ih => exact ih (hstep _ _ _ _ hs head)

/-- An invariant that also speaks of the labels so far. -/
theorem invariant_labels {I : List ι → σ → Prop}
    (hstep : ∀ xs s a t, I xs s → step s a t → I (xs ++ [a]) t) (h : Run step s xs t)
    (hs : I [] s) : I xs t := by
  have hrest : ∀ ys, I ys s → I (ys ++ xs) t := by
    clear hs
    induction h with
    | nil _ =>
        intro ys hys
        rwa [List.append_nil]
    | @cons s u t a xs head _ ih =>
        intro ys hys
        have hu := ih (ys ++ [a]) (hstep ys s a u hys head)
        rwa [List.append_assoc] at hu
  exact hrest [] hs

/-- Restricting the steps of a run to those that meet a condition. -/
theorem mono {step' : σ → ι → σ → Prop} (hle : ∀ s a t, step s a t → step' s a t)
    (h : Run step s xs t) : Run step' s xs t := by
  induction h with
  | nil s => exact .nil s
  | cons head _ ih => exact .cons (hle _ _ _ head) ih

end Run

/-! ## The last label that sets a value -/

section Last

variable {β : Type*} {f : ι → Option β} {step : σ → ι → σ → Prop} {s t : σ} {xs : List ι} {b : β}

/-- What the last of the labels sets that sets anything. -/
def lastSet (f : ι → Option β) (xs : List ι) : Option β := xs.reverse.findSome? f

theorem lastSet_concat (xs : List ι) (a : ι) :
    lastSet f (xs ++ [a]) = (f a).or (lastSet f xs) := by
  unfold lastSet
  rw [List.reverse_append, List.reverse_singleton, List.singleton_append, List.findSome?_cons]
  cases f a <;> rfl

theorem lastSet_eq_some : lastSet f xs = some b ↔
    ∃ before a after, xs = before ++ a :: after ∧ f a = some b ∧ ∀ c ∈ after, f c = none := by
  unfold lastSet
  rw [List.findSome?_eq_some_iff]
  constructor
  · rintro ⟨after, a, before, hxs, ha, hafter⟩
    refine ⟨before.reverse, a, after.reverse, ?_, ha, fun c hc => hafter c (List.mem_reverse.mp hc)⟩
    rw [← xs.reverse_reverse, hxs]
    simp
  · rintro ⟨before, a, after, rfl, ha, hafter⟩
    exact ⟨after.reverse, a, before.reverse, by simp, ha,
      fun c hc => hafter c (List.mem_reverse.mp hc)⟩

end Last

/-- The states that some run from an initial state reaches. -/
def Reachable (init : σ → Prop) (step : σ → ι → σ → Prop) (t : σ) : Prop :=
  ∃ s xs, init s ∧ Run step s xs t

namespace Reachable

variable {init : σ → Prop} {step : σ → ι → σ → Prop} {s t : σ} {a : ι}

theorem start (h : init s) : Reachable init step s := ⟨s, [], h, .nil s⟩

theorem next (h : Reachable init step s) (k : step s a t) : Reachable init step t := by
  obtain ⟨r, xs, hr, hrun⟩ := h
  exact ⟨r, xs ++ [a], hr, hrun.snoc k⟩

theorem invariant {I : σ → Prop} (hinit : ∀ s, init s → I s)
    (hstep : ∀ s a t, I s → step s a t → I t) (h : Reachable init step t) : I t := by
  obtain ⟨s, xs, hs, hrun⟩ := h
  exact hrun.invariant hstep (hinit s hs)

end Reachable

/-- The relation of a partial step function. -/
def StepOf (f : σ → ι → Option σ) (s : σ) (a : ι) (t : σ) : Prop := f s a = some t

/-- Folding a partial step function over a list of labels is exactly a run
of its relation. -/
theorem run_stepOf_iff (f : σ → ι → Option σ) (s t : σ) (xs : List ι) :
    Run (StepOf f) s xs t ↔ xs.foldlM f s = some t := by
  induction xs generalizing s with
  | nil =>
      constructor
      · intro h
        cases h
        rfl
      · intro h
        cases Option.some.inj h
        exact .nil _
  | cons a xs ih =>
      rw [List.foldlM_cons]
      constructor
      · intro h
        cases h with
        | cons head tail =>
            have hhead : f s a = some _ := head
            rw [hhead]
            exact (ih _).mp tail
      · intro h
        obtain ⟨u, hu, hrest⟩ := Option.bind_eq_some_iff.mp h
        exact .cons hu ((ih u).mpr hrest)

end Vectra.Lib

import Vectra.Lib.Run

/-!
# Refinement of runs

A system refines another one when each of its runs is matched by a run of the other with the
same visible events. A simulation gives the match step by step; a refinement mapping gives it as
a function of the state.
-/

namespace Vectra.Lib

variable {σ τ α β ε : Type*}

/-- Each step from a state is answered, from every related state, by a run that shows the same
events and ends in related states. -/
structure Simulation (step : σ → α → σ → Prop) (spec : τ → β → τ → Prop) (vis : α → Option ε)
    (vis' : β → Option ε) (R : σ → τ → Prop) : Prop where
  answer : ∀ {s a s' t}, R s t → step s a s' →
    ∃ ys t', Run spec t ys t' ∧ ys.filterMap vis' = [a].filterMap vis ∧ R s' t'

namespace Simulation

variable {step : σ → α → σ → Prop} {spec : τ → β → τ → Prop} {vis : α → Option ε}
  {vis' : β → Option ε} {R : σ → τ → Prop} {s s' : σ} {t : τ} {xs : List α}

theorem run (h : Simulation step spec vis vis' R) (hrun : Run step s xs s') (hR : R s t) :
    ∃ ys t', Run spec t ys t' ∧ ys.filterMap vis' = xs.filterMap vis ∧ R s' t' := by
  induction hrun generalizing t with
  | nil s => exact ⟨[], t, .nil t, rfl, hR⟩
  | cons head tail ih =>
      obtain ⟨ys, u, hys, hvis, hu⟩ := h.answer hR head
      obtain ⟨zs, t', hzs, hvis', ht'⟩ := ih hu
      refine ⟨ys ++ zs, t', hys.append hzs, ?_, ht'⟩
      rw [List.filterMap_append, hvis, hvis', ← List.filterMap_append, List.singleton_append]

end Simulation

/-- A refinement mapping: a function of the state that turns each step, under an invariant, into a
step with the same label. -/
theorem Run.mapped {step : σ → α → σ → Prop} {spec : τ → α → τ → Prop} {f : σ → τ} {I : σ → Prop}
    {s s' : σ} {xs : List α} (hstep : ∀ s a s', I s → step s a s' → I s' ∧ spec (f s) a (f s'))
    (h : Run step s xs s') (hs : I s) : Run spec (f s) xs (f s') := by
  induction h with
  | nil s => exact .nil (f s)
  | cons head _ ih =>
      obtain ⟨hu, hspec⟩ := hstep _ _ _ hs head
      exact .cons hspec (ih hu)

/-- A step without visible events is answered by doing nothing. -/
theorem answer_stutter {spec : τ → β → τ → Prop} {vis : α → Option ε} {vis' : β → Option ε}
    {R : σ → τ → Prop} {s' : σ} {t : τ} {a : α} (hvis : vis a = none) (hR : R s' t) :
    ∃ ys t', Run spec t ys t' ∧ ys.filterMap vis' = [a].filterMap vis ∧ R s' t' :=
  ⟨[], t, .nil t, by simp [hvis], hR⟩

/-- A step is answered by one step with the same event. -/
theorem answer_step {spec : τ → β → τ → Prop} {vis : α → Option ε} {vis' : β → Option ε}
    {R : σ → τ → Prop} {s' : σ} {t t' : τ} {a : α} {b : β} (hvis : vis' b = vis a)
    (hstep : spec t b t') (hR : R s' t') :
    ∃ ys t', Run spec t ys t' ∧ ys.filterMap vis' = [a].filterMap vis ∧ R s' t' :=
  ⟨[b], t', .cons hstep (.nil t'), by rw [List.filterMap_cons, List.filterMap_cons, hvis]; rfl, hR⟩

end Vectra.Lib

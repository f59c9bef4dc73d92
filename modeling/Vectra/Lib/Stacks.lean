import Vectra.Lib.Run

/-!
# A family of stacks

Values are pushed on the stacks of a family and popped off them, and a stack that has run
empty is filled again from outside. What lies below a mark stays there until the stack has
sunk to the mark, so the pop that matches a push returns the value that was pushed.
-/

namespace Vectra.Lib

variable {ι α : Type*}

inductive StackOp (ι α : Type*)
  | push (i : ι) (x : α)
  | pop (i : ι) (x : α)
  | refill (i : ι) (xs : List α)

/-- Refills are silent. -/
def StackOp.visible : StackOp ι α → Option (StackOp ι α)
  | .refill _ _ => none
  | op => some op

variable [DecidableEq ι]

/-- The next state of the stacks. Only an empty stack is filled again. -/
inductive StackStep : (ι → List α) → StackOp ι α → (ι → List α) → Prop
  | push (s : ι → List α) (i : ι) (x : α) :
      StackStep s (.push i x) (Function.update s i (x :: s i))
  | pop {s : ι → List α} {i : ι} {x : α} {xs : List α} (h : s i = x :: xs) :
      StackStep s (.pop i x) (Function.update s i xs)
  | refill {s : ι → List α} {i : ι} (xs : List α) (h : s i = []) :
      StackStep s (.refill i xs) (Function.update s i xs)

/-- How an operation changes the height of stack `i` over a mark. There is no height once a
value below the mark has been popped. -/
def StackOp.rise (i : ι) (n : ℕ) : StackOp ι α → Option ℕ
  | .push j _ => some (if j = i then n + 1 else n)
  | .pop j _ => if j = i then (if n = 0 then none else some (n - 1)) else some n
  | .refill _ _ => some n

/-- The height of stack `i` over a mark after some operations. -/
def stackHeight (i : ι) (n : ℕ) (ops : List (StackOp ι α)) : Option ℕ :=
  ops.foldlM (StackOp.rise i) n

/-- What stack `i` has been filled with, in order. -/
def refills (i : ι) (ops : List (StackOp ι α)) : List (List α) :=
  ops.filterMap fun op => match op with
    | .refill j xs => if j = i then some xs else none
    | _ => none

variable {s t u : ι → List α} {i : ι} {n : ℕ} {ops : List (StackOp ι α)} {x y : α}

theorem refills_append (i : ι) (xs ys : List (StackOp ι α)) :
    refills i (xs ++ ys) = refills i xs ++ refills i ys := List.filterMap_append

theorem stackHeight_cons (i : ι) (n : ℕ) (op : StackOp ι α) (ops : List (StackOp ι α)) :
    stackHeight i n (op :: ops) = (op.rise i n).bind fun k => stackHeight i k ops :=
  List.foldlM_cons

/-- Silent operations do not count. -/
theorem stackHeight_visible (i : ι) (n : ℕ) (ops : List (StackOp ι α)) :
    stackHeight i n (ops.filterMap StackOp.visible) = stackHeight i n ops := by
  induction ops generalizing n with
  | nil => rfl
  | cons op ops ih =>
      cases op with
      | push j x => simp [StackOp.visible, stackHeight_cons, ih]
      | pop j x => simp [StackOp.visible, stackHeight_cons, ih]
      | refill j xs => simp [List.filterMap_cons, StackOp.visible, stackHeight_cons, ih,
          StackOp.rise]

/-- A step at a height over the mark keeps what lies below it. -/
theorem StackStep.keeps_mark {op : StackOp ι α} {above mark : List α} (h : StackStep s op t)
    (hs : s i = above ++ mark) (hmark : mark ≠ []) (hrise : op.rise i above.length = some n) :
    ∃ above', t i = above' ++ mark ∧ above'.length = n := by
  cases h with
  | push j x =>
      simp only [StackOp.rise, Option.some.injEq] at hrise
      by_cases hji : j = i
      · subst hji
        rw [if_pos rfl] at hrise
        exact ⟨x :: above, by rw [Function.update_self, hs]; rfl, hrise⟩
      · rw [if_neg hji] at hrise
        exact ⟨above, by rw [Function.update_of_ne (Ne.symm hji), hs], hrise⟩
  | @pop j x xs hj =>
      simp only [StackOp.rise] at hrise
      by_cases hji : j = i
      · subst hji
        rw [if_pos rfl] at hrise
        cases above with
        | nil => simp at hrise
        | cons y above =>
            rw [hj, List.cons_append, List.cons.injEq] at hs
            refine ⟨above, by rw [Function.update_self, hs.2], ?_⟩
            simpa using hrise
      · rw [if_neg hji, Option.some.injEq] at hrise
        exact ⟨above, by rw [Function.update_of_ne (Ne.symm hji), hs], hrise⟩
  | @refill j xs hj =>
      simp only [StackOp.rise, Option.some.injEq] at hrise
      by_cases hji : j = i
      · subst hji
        rw [hj] at hs
        exact absurd (List.append_eq_nil_iff.mp hs.symm).2 hmark
      · exact ⟨above, by rw [Function.update_of_ne (Ne.symm hji), hs], hrise⟩

theorem Run.keeps_mark {above mark : List α} (h : Run StackStep s ops t)
    (hs : s i = above ++ mark) (hmark : mark ≠ [])
    (hheight : stackHeight i above.length ops = some n) :
    ∃ above', t i = above' ++ mark ∧ above'.length = n := by
  induction h generalizing above with
  | nil s => exact ⟨above, hs, Option.some.inj hheight⟩
  | cons head _ ih =>
      rw [stackHeight_cons] at hheight
      obtain ⟨k, hrise, hrest⟩ := Option.bind_eq_some_iff.mp hheight
      obtain ⟨above', hu, rfl⟩ := head.keeps_mark hs hmark hrise
      exact ih hu hrest

omit [DecidableEq ι] in
theorem visible_eq_some {op op' : StackOp ι α} (h : op.visible = some op') : op = op' := by
  cases op with
  | push j x => exact Option.some.inj h
  | pop j x => exact Option.some.inj h
  | refill j xs => cases h

/-- The pop that matches a push returns its value. -/
theorem Run.last_in_first_out {mid : List (StackOp ι α)} (h : Run StackStep s ops t)
    (hops : ops.filterMap StackOp.visible = .push i x :: mid ++ [.pop i y])
    (hheight : stackHeight i 0 mid = some 0) : y = x := by
  obtain ⟨front, back, rfl, hfront, hback⟩ := List.filterMap_eq_append_iff.mp hops
  obtain ⟨before, push, ops, rfl, _, hpush, rfl⟩ := List.filterMap_eq_cons_iff.mp hfront
  obtain ⟨silent, pop, after, rfl, hsilent, hpop, _⟩ := List.filterMap_eq_cons_iff.mp hback
  obtain rfl := visible_eq_some hpush
  obtain rfl := visible_eq_some hpop
  obtain ⟨u, hfront, hback⟩ := h.of_append
  obtain ⟨v, _, hfront⟩ := hfront.of_append
  obtain ⟨w, hsil, hback⟩ := hback.of_append
  rw [stackHeight_visible] at hheight
  -- the silent operations before the pop keep the height too
  have hzero : stackHeight i 0 silent = some 0 := by
    rw [← stackHeight_visible, List.filterMap_eq_nil_iff.mpr hsilent]
    rfl
  cases hfront with
  | cons head hmid =>
      cases head
      have hmark : Function.update v i (x :: v i) i = [] ++ x :: v i :=
        Function.update_self i (x :: v i) v
      obtain ⟨above, hu, hlen⟩ := hmid.keeps_mark hmark (List.cons_ne_nil _ _) hheight
      obtain ⟨above', hw, hlen'⟩ := hsil.keeps_mark hu (List.cons_ne_nil _ _)
        (by rw [hlen]; exact hzero)
      rw [List.eq_nil_of_length_eq_zero hlen', List.nil_append] at hw
      cases hback with
      | cons head _ =>
          cases head with
          | pop hx =>
              rw [hw] at hx
              exact (List.cons.inj hx).1.symm

end Vectra.Lib

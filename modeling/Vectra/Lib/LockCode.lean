import Mathlib.Data.Set.Basic
import Vectra.Lib.Threads

/-!
# Code that takes locks

The control flow of a function between its calls of `lock` and `unlock`. Memory is not
modelled: an access may read any value, so every branch that depends on memory can be taken.
Threads run such code over shared lock words. When every thread takes a lock only above those
that it holds, in one order of the locks, no threads wait for each other.
-/

namespace Vectra.Lib

/-! ## Code -/

/-- `init` makes the lock word free, whoever holds the lock; `panic` halts all threads. -/
inductive Code (Λ α : Type)
  | ret (a : α)
  | panic
  | lock (l : Λ) (k : Code Λ α)
  | unlock (l : Λ) (k : Code Λ α)
  | init (l : Λ) (k : Code Λ α)
  | access (k : ℕ → Code Λ α)

namespace Code

variable {Λ α β : Type}

def bind : Code Λ α → (α → Code Λ β) → Code Λ β
  | .ret a, f => f a
  | .panic, _ => .panic
  | .lock l k, f => .lock l (k.bind f)
  | .unlock l k, f => .unlock l (k.bind f)
  | .init l k, f => .init l (k.bind f)
  | .access k, f => .access fun v => (k v).bind f

instance : Monad (Code Λ) where
  pure := .ret
  bind := bind

/-! ## Lock order -/

/-- Every lock of `held` is below `l`. -/
def Below (rank : Λ → ℕ) (held : List Λ) (l : Λ) : Prop := ∀ x ∈ held, rank x < rank l

/-- Started with the locks of `held`, innermost first, the code takes locks in order and gives
them back in reverse, until those of `rest` are left. -/
def Nested (rank : Λ → ℕ) (held rest : List Λ) : Code Λ α → Prop
  | .ret _ => held = rest
  | .panic => True
  | .lock l k => Below rank held l ∧ k.Nested rank (l :: held) rest
  | .unlock l k => ∃ outer, held = l :: outer ∧ k.Nested rank outer rest
  | .init _ k => k.Nested rank held rest
  | .access k => ∀ v, (k v).Nested rank held rest

section Nested

variable {rank : Λ → ℕ} {held inner rest : List Λ} {l : Λ}

theorem below_nil (l : Λ) : Below rank [] l := fun _ h => nomatch h

theorem nested_bind {c : Code Λ α} {f : α → Code Λ β} (hc : c.Nested rank held inner)
    (hf : ∀ a, (f a).Nested rank inner rest) : (c >>= f).Nested rank held rest := by
  change (c.bind f).Nested rank held rest
  induction c generalizing held with
  | ret a =>
      have heq : held = inner := hc
      rw [heq]
      exact hf a
  | panic => trivial
  | lock l k ih => exact ⟨hc.1, ih hc.2⟩
  | unlock l k ih =>
      obtain ⟨outer, rfl, hk⟩ := hc
      exact ⟨outer, rfl, ih hk⟩
  | init l k ih => exact ih hc
  | access k ih => exact fun v => ih v (hc v)

theorem nested_pure (a : α) : (pure a : Code Λ α).Nested rank held held := rfl

theorem nested_ite {c : Prop} {_ : Decidable c} {a b : Code Λ α} (ha : c → a.Nested rank held rest)
    (hb : ¬ c → b.Nested rank held rest) : (if c then a else b).Nested rank held rest := by
  by_cases hc : c
  · rw [if_pos hc]
    exact ha hc
  · rw [if_neg hc]
    exact hb hc

end Nested

end Code

/-! ## Threads -/

/-- The lock words, and whether a panic has halted everything. -/
structure LockWords (Λ : Type) where
  taken : Λ → Bool
  halted : Bool

/-- The code that a thread still has to run, if it is in a call; `held` lists the locks that it
has taken and not given back. -/
structure LockThread (Λ : Type) where
  code : Option (Code Λ Unit)
  held : List Λ

inductive LockOp (Op : Type)
  | call (op : Op)
  | exec (read : ℕ)
  deriving DecidableEq

variable {Λ Op : Type} {ι : Type*}

abbrev LockSys (ι : Type*) (Λ : Type) := Sys ι (LockWords Λ) (LockThread Λ)

/-- All locks are free and no thread is in a call. -/
def LockSys.start : LockSys ι Λ := ⟨⟨fun _ => false, false⟩, fun _ => ⟨none, []⟩⟩

/-- The thread is in `lock`. -/
def LockThread.Waits (l : LockThread Λ) (x : Λ) : Prop := ∃ k, l.code = some (.lock x k)

/-- The thread is in `lock` and the word is taken, so it cannot go on. -/
def LockThread.Blocked (g : LockWords Λ) (l : LockThread Λ) : Prop :=
  ∃ x, l.Waits x ∧ g.taken x = true

/-- The thread is about to return from a call. -/
def LockThread.Returns (l : LockThread Λ) : Prop := ∃ a, l.code = some (.ret a)

/-- What a thread holds fits the code that is left. -/
def LockThread.InOrder (rank : Λ → ℕ) (l : LockThread Λ) : Prop :=
  match l.code with
  | none => l.held = []
  | some c => c.Nested rank l.held []

structure LockInv (rank : Λ → ℕ) (s : LockSys ι Λ) : Prop where
  inOrder : ∀ i, (s.thread i).InOrder rank
  holder : ∀ x, s.shared.taken x = true → ∃ i, x ∈ (s.thread i).held

/-- The lock discipline in one state: the order in which locks are nested, a return without
locks, and no threads that wait for each other, so that some thread in a call can go on. -/
structure LocksOk (rank : Λ → ℕ) (s : LockSys ι Λ) : Prop where
  ordered : ∀ i x, (s.thread i).Waits x → ∀ y ∈ (s.thread i).held, rank y < rank x
  not_held : ∀ i x, (s.thread i).Waits x → x ∉ (s.thread i).held
  returns : ∀ i, (s.thread i).Returns → (s.thread i).held = []
  idle : ∀ i, (s.thread i).code = none → (s.thread i).held = []
  no_cycle : ∀ D : Set ι, D.Nonempty →
    ¬ ∀ i ∈ D, ∃ x, (s.thread i).Waits x ∧ ∃ j ∈ D, x ∈ (s.thread j).held
  live : ∀ i, (s.thread i).code ≠ none →
    ∃ j, (s.thread j).code ≠ none ∧ ¬ (s.thread j).Blocked s.shared

namespace LockInv

variable {rank : Λ → ℕ} {s : LockSys ι Λ} {bound : ℕ}

theorem start : LockInv rank (LockSys.start : LockSys ι Λ) :=
  ⟨fun _ => rfl, fun _ hx => nomatch hx⟩

theorem below (h : LockInv rank s) {i : ι} {x : Λ} (hx : (s.thread i).Waits x) :
    Code.Below rank (s.thread i).held x := by
  obtain ⟨k, hk⟩ := hx
  have horder := h.inOrder i
  unfold LockThread.InOrder at horder
  rw [hk] at horder
  exact horder.1

/-- The threads of a cycle would wait for higher and higher locks. -/
theorem no_cycle (hbound : ∀ x, rank x ≤ bound) (h : LockInv rank s) (D : Set ι) (hD : D.Nonempty) :
    ¬ ∀ i ∈ D, ∃ x, (s.thread i).Waits x ∧ ∃ j ∈ D, x ∈ (s.thread j).held := by
  intro hall
  have hclimb : ∀ n, ∃ i ∈ D, ∃ x, (s.thread i).Waits x ∧ n ≤ rank x := by
    intro n
    induction n with
    | zero =>
        obtain ⟨i, hi⟩ := hD
        obtain ⟨x, hx, _⟩ := hall i hi
        exact ⟨i, hi, x, hx, Nat.zero_le _⟩
    | succ n ih =>
        obtain ⟨i, hi, x, hx, hn⟩ := ih
        obtain ⟨y, hy, j, hj, hheld⟩ := hall i hi
        obtain ⟨z, hz, _⟩ := hall j hj
        have hlt := h.below hz y hheld
        obtain ⟨k, hk⟩ := hx
        obtain ⟨k', hk'⟩ := hy
        have hxy : x = y := by
          rw [hk] at hk'
          cases hk'
          rfl
        exact ⟨j, hj, z, hz, by rw [hxy] at hn; omega⟩
  obtain ⟨_, _, x, _, hn⟩ := hclimb (bound + 1)
  have hle := hbound x
  omega

theorem held_of_idle (h : LockInv rank s) {i : ι} (hi : (s.thread i).code = none) :
    (s.thread i).held = [] := by
  have horder := h.inOrder i
  unfold LockThread.InOrder at horder
  rw [hi] at horder
  exact horder

/-- If all threads in a call were blocked, they would wait for each other. -/
theorem live (hbound : ∀ x, rank x ≤ bound) (h : LockInv rank s) {i : ι}
    (hi : (s.thread i).code ≠ none) :
    ∃ j, (s.thread j).code ≠ none ∧ ¬ (s.thread j).Blocked s.shared := by
  by_contra hno
  push Not at hno
  refine h.no_cycle hbound {j | (s.thread j).code ≠ none} ⟨i, hi⟩ fun j hj => ?_
  obtain ⟨x, hx, htaken⟩ := hno j hj
  obtain ⟨k, hk⟩ := h.holder x htaken
  refine ⟨x, hx, k, fun hidle => ?_, hk⟩
  rw [h.held_of_idle hidle] at hk
  cases hk

theorem ok (hbound : ∀ x, rank x ≤ bound) (h : LockInv rank s) : LocksOk rank s where
  ordered _ _ hx := h.below hx
  not_held _ _ hx hmem := absurd (h.below hx _ hmem) (lt_irrefl _)
  returns i hi := by
    obtain ⟨a, ha⟩ := hi
    have horder := h.inOrder i
    unfold LockThread.InOrder at horder
    rw [ha] at horder
    exact horder
  idle _ := h.held_of_idle
  no_cycle := h.no_cycle hbound
  live _ := h.live hbound

end LockInv

/-! ## Steps -/

variable [DecidableEq Λ] [DecidableEq ι]

/-- A thread that finds the lock taken stays in `lock`. -/
def lockStep (body : Op → Code Λ Unit) (g : LockWords Λ) (l : LockThread Λ) :
    LockOp Op → Option (LockWords Λ × LockThread Λ)
  | .call op =>
      if g.halted = true ∨ l.code.isSome then none else some (g, { l with code := some (body op) })
  | .exec read =>
      if g.halted = true then none
      else match l.code with
        | none => none
        | some (.ret _) => some (g, { l with code := none })
        | some .panic => some ({ g with halted := true }, l)
        | some (.lock x k) =>
            if g.taken x = true then none
            else some ({ g with taken := Function.update g.taken x true }, ⟨some k, x :: l.held⟩)
        | some (.unlock x k) =>
            some ({ g with taken := Function.update g.taken x false }, ⟨some k, l.held.erase x⟩)
        | some (.init x k) =>
            some ({ g with taken := Function.update g.taken x false }, ⟨some k, l.held⟩)
        | some (.access k) => some (g, ⟨some (k read), l.held⟩)

def LockStep (body : Op → Code Λ Unit) (_ : ι) (g : LockWords Λ) (l : LockThread Λ)
    (op : LockOp Op) (g' : LockWords Λ) (l' : LockThread Λ) : Prop :=
  lockStep body g l op = some (g', l')

/-! ## Every run is in order -/

section Step

variable {rank : Λ → ℕ} {body : Op → Code Λ Unit} {g g' : LockWords Λ} {l l' : LockThread Λ}
  {op : LockOp Op}

theorem taken_of_freed {taken : Λ → Bool} {x y : Λ} (h : Function.update taken y false x = true) :
    x ≠ y ∧ taken x = true := by
  have hxy : x ≠ y := by
    rintro rfl
    rw [Function.update_self] at h
    cases h
  rw [Function.update_of_ne hxy] at h
  exact ⟨hxy, h⟩

/-- A step keeps the order. A word that is taken after it has been taken by this thread, or
before; in that case this thread does not lose it. -/
theorem lockStep_spec (hbody : ∀ op, (body op).Nested rank [] []) (h : l.InOrder rank)
    (hs : lockStep body g l op = some (g', l')) :
    l'.InOrder rank ∧ ∀ x, g'.taken x = true →
      x ∈ l'.held ∨ (g.taken x = true ∧ (x ∈ l.held → x ∈ l'.held)) := by
  obtain ⟨code, held⟩ := l
  cases op with
  | call op =>
      simp only [lockStep] at hs
      split at hs
      · cases hs
      · rename_i hidle
        cases code with
        | some c => exact absurd (Or.inr rfl) hidle
        | none =>
            have hheld : held = [] := h
            cases hs
            exact ⟨hheld ▸ hbody op, fun x hx => .inr ⟨hx, id⟩⟩
  | exec read =>
      simp only [lockStep] at hs
      split at hs
      · cases hs
      · cases code with
        | none => cases hs
        | some c =>
            cases c with
            | ret a =>
                cases hs
                exact ⟨h, fun x hx => .inr ⟨hx, id⟩⟩
            | panic =>
                cases hs
                exact ⟨h, fun x hx => .inr ⟨hx, id⟩⟩
            | lock y k =>
                dsimp only at hs
                split at hs
                · cases hs
                · cases hs
                  refine ⟨h.2, fun x hx => ?_⟩
                  by_cases hxy : x = y
                  · exact .inl (hxy ▸ List.mem_cons_self)
                  · have hx' : Function.update g.taken y true x = true := hx
                    rw [Function.update_of_ne hxy] at hx'
                    exact .inr ⟨hx', List.mem_cons_of_mem y⟩
            | unlock y k =>
                obtain ⟨outer, rfl, hk⟩ := h
                cases hs
                refine ⟨?_, fun x hx => ?_⟩
                · change k.Nested rank ((y :: outer).erase y) []
                  rw [List.erase_cons_head]
                  exact hk
                · obtain ⟨hxy, hx⟩ := taken_of_freed hx
                  exact .inr ⟨hx, (List.mem_erase_of_ne hxy).mpr⟩
            | init y k =>
                cases hs
                refine ⟨h, fun x hx => ?_⟩
                exact .inr ⟨(taken_of_freed hx).2, id⟩
            | access k =>
                cases hs
                exact ⟨h read, fun x hx => .inr ⟨hx, id⟩⟩

end Step

namespace LockInv

variable {rank : Λ → ℕ} {body : Op → Code Λ Unit} {s t : LockSys ι Λ} {a : ι × LockOp Op}

theorem step (hbody : ∀ op, (body op).Nested rank [] []) (h : LockInv rank s)
    (hs : Interleave (LockStep body) s a t) : LockInv rank t := by
  obtain ⟨i, op⟩ := a
  obtain ⟨horder, hwords⟩ := lockStep_spec hbody (h.inOrder i) hs.self
  refine ⟨hs.forall_thread (P := fun _ _ l => l.InOrder rank) h.inOrder horder fun _ _ hj => hj,
    fun x hx => ?_⟩
  rcases hwords x hx with hmine | ⟨hbefore, hkeep⟩
  · exact ⟨i, hmine⟩
  · obtain ⟨j, hj⟩ := h.holder x hbefore
    by_cases hji : j = i
    · exact ⟨i, hkeep (hji ▸ hj)⟩
    · refine ⟨j, ?_⟩
      rw [hs.other hji]
      exact hj

end LockInv

/-- A thread in a call that is not blocked can take a step, unless there has been a panic. -/
theorem exists_step_of_not_blocked {body : Op → Code Λ Unit} {g : LockWords Λ} {l : LockThread Λ}
    (hrunning : g.halted = false) (hcall : l.code ≠ none) (hfree : ¬ l.Blocked g) (read : ℕ) :
    ∃ g' l', lockStep body g l (.exec read) = some (g', l') := by
  obtain ⟨code, held⟩ := l
  have hgo : ¬ g.halted = true := by simp [hrunning]
  simp only [lockStep, if_neg hgo]
  cases code with
  | none => exact absurd rfl hcall
  | some c =>
      cases c with
      | lock x k =>
          have hword : ¬ g.taken x = true := fun htaken => hfree ⟨x, ⟨k, rfl⟩, htaken⟩
          exact ⟨_, _, if_neg hword⟩
      | _ => exact ⟨_, _, rfl⟩

/-- Code that takes its locks in order never deadlocks, however many threads run it. -/
theorem run_locksOk {rank : Λ → ℕ} {bound : ℕ} {body : Op → Code Λ Unit} {s : LockSys ι Λ}
    {ops : List (ι × LockOp Op)} (hbound : ∀ x, rank x ≤ bound)
    (hbody : ∀ op, (body op).Nested rank [] [])
    (hrun : Run (Interleave (LockStep body)) LockSys.start ops s) : LocksOk rank s := by
  have hinv : LockInv rank s := hrun.invariant (fun _ _ _ h hs => h.step hbody hs) .start
  exact hinv.ok hbound

end Vectra.Lib

import Mathlib.Data.List.Basic
import Mathlib.Data.List.Nodup
import Mathlib.Tactic

/-!
# Radix trees of tables

A table has an entry for each index. The pointer of an entry leads to a table
of the next level, so a path of indices leads from a root to a table. In a
forest each table is reached in one way, up to the given depth; entries
can then be written one at a time without disturbing the other paths.
-/

namespace Vectra.Lib

variable {A κ E B ι : Type*}

/-- The table that a path leads to from `t`. -/
def tableAt (ptr : E → Option A) (ent : A → κ → E) (t : A) : List κ → Option A
  | [] => some t
  | i :: is => (ptr (ent t i)).bind fun u => tableAt ptr ent u is

/-- The table that a path leads to from root `r`. -/
def rootAt (ptr : E → Option A) (ent : A → κ → E) (root : ι → Option A) (r : ι) (π : List κ) :
    Option A :=
  (root r).bind fun t => tableAt ptr ent t π

/-- What the entry at the end of a path is worth. -/
def lookupAt (ptr : E → Option A) (val : E → Option B) (ent : A → κ → E) (root : ι → Option A)
    (r : ι) (π : List κ) (i : κ) : Option B :=
  (rootAt ptr ent root r π).bind fun u => val (ent u i)

def IsTable (ptr : E → Option A) (ent : A → κ → E) (depth : ℕ) (root : ι → Option A) (u : A) :
    Prop :=
  ∃ r π, π.length ≤ depth ∧ rootAt ptr ent root r π = some u

/-- The tables of one root. -/
def Reaches (ptr : E → Option A) (ent : A → κ → E) (depth : ℕ) (root : ι → Option A) (r : ι)
    (u : A) : Prop :=
  ∃ π, π.length ≤ depth ∧ rootAt ptr ent root r π = some u

/-- The paths from one root to the tables below it. -/
def tablePaths (ptr : E → Option A) (ent : A → κ → E) (depth : ℕ) (root : ι → Option A) (r : ι) :
    Set (List κ) :=
  {π | π ≠ [] ∧ π.length ≤ depth ∧ (rootAt ptr ent root r π).isSome}

/-- No table is reached in two ways. -/
def Forest (ptr : E → Option A) (ent : A → κ → E) (depth : ℕ) (root : ι → Option A) : Prop :=
  ∀ r r' π π' u, π.length ≤ depth → π'.length ≤ depth → rootAt ptr ent root r π = some u →
    rootAt ptr ent root r' π' = some u → r = r' ∧ π = π'

section Paths

variable {ptr : E → Option A} {ent ent' : A → κ → E} {root : ι → Option A} {r : ι} {t : A}
  {π σ : List κ} {i : κ}

theorem tableAt_append (π σ : List κ) :
    tableAt ptr ent t (π ++ σ) = (tableAt ptr ent t π).bind fun u => tableAt ptr ent u σ := by
  induction π generalizing t with
  | nil => rfl
  | cons i is ih =>
      rw [List.cons_append, tableAt, tableAt, Option.bind_assoc]
      exact congrArg _ (funext fun u => ih)

theorem rootAt_nil : rootAt ptr ent root r [] = root r := by
  unfold rootAt
  cases root r <;> rfl

theorem rootAt_concat (π : List κ) (i : κ) :
    rootAt ptr ent root r (π ++ [i]) =
      (rootAt ptr ent root r π).bind fun u => ptr (ent u i) := by
  unfold rootAt
  rw [Option.bind_assoc]
  refine congrArg _ (funext fun t => ?_)
  rw [tableAt_append]
  refine congrArg _ (funext fun u => ?_)
  cases h : ptr (ent u i) with
  | none => simp [tableAt, h]
  | some v => simp [tableAt, h]

theorem rootAt_of_root (ht : root r = some t) (π : List κ) :
    rootAt ptr ent root r π = tableAt ptr ent t π := by
  unfold rootAt
  rw [ht]
  rfl

theorem rootAt_of_root_eq {root' : ι → Option A} (h : root' r = root r) (π : List κ) :
    rootAt ptr ent root' r π = rootAt ptr ent root r π := by
  unfold rootAt
  rw [h]

theorem lookupAt_of_root_eq {val : E → Option B} {root' : ι → Option A} (h : root' r = root r)
    (π : List κ) (i : κ) : lookupAt ptr val ent root' r π i = lookupAt ptr val ent root r π i := by
  unfold lookupAt
  rw [rootAt_of_root_eq h]

/-- A path depends on the pointers along it only. -/
theorem rootAt_congr (h : ∀ σ i τ u, π = σ ++ i :: τ → rootAt ptr ent root r σ = some u →
      ptr (ent' u i) = ptr (ent u i)) :
    rootAt ptr ent' root r π = rootAt ptr ent root r π := by
  induction π using List.reverseRecOn with
  | nil => rw [rootAt_nil, rootAt_nil]
  | append_singleton π i ih =>
      have hprefix : rootAt ptr ent' root r π = rootAt ptr ent root r π := by
        apply ih
        intro σ j τ u heq hu
        exact h σ j (τ ++ [i]) u (by rw [heq, List.append_assoc, List.cons_append]) hu
      rw [rootAt_concat, rootAt_concat, hprefix]
      cases hu : rootAt ptr ent root r π with
      | none => rfl
      | some u => exact h π i [] u rfl hu

end Paths

section Keep

variable {ptr : E → Option A} {ent ent' : A → κ → E} {depth : ℕ} {root : ι → Option A} {r : ι}
  {σ : List κ}

/-- The entries of the tables decide where a path leads. -/
theorem rootAt_keep (hkeep : ∀ s, IsTable ptr ent depth root s → ∀ j, ent' s j = ent s j)
    (hσ : σ.length ≤ depth) : rootAt ptr ent' root r σ = rootAt ptr ent root r σ := by
  apply rootAt_congr
  intro ρ j τ s heq hs
  rw [hkeep s ⟨r, ρ, by rw [heq, List.length_append] at hσ; omega, hs⟩]

theorem Forest.keep (h : Forest ptr ent depth root)
    (hkeep : ∀ s, IsTable ptr ent depth root s → ∀ j, ent' s j = ent s j) :
    Forest ptr ent' depth root := by
  intro r₁ r₂ π₁ π₂ s h₁ h₂ hs₁ hs₂
  rw [rootAt_keep hkeep h₁] at hs₁
  rw [rootAt_keep hkeep h₂] at hs₂
  exact h r₁ r₂ π₁ π₂ s h₁ h₂ hs₁ hs₂

theorem reaches_keep (hkeep : ∀ s, IsTable ptr ent depth root s → ∀ j, ent' s j = ent s j) {u : A} :
    Reaches ptr ent' depth root r u ↔ Reaches ptr ent depth root r u := by
  constructor
  · rintro ⟨σ, hσ, hu⟩
    rw [rootAt_keep hkeep hσ] at hu
    exact ⟨σ, hσ, hu⟩
  · rintro ⟨σ, hσ, hu⟩
    exact ⟨σ, hσ, by rwa [rootAt_keep hkeep hσ]⟩

/-- The entries of every table that is not of the last level. -/
def InnerAll (P : E → Prop) (ptr : E → Option A) (ent : A → κ → E) (depth : ℕ)
    (root : ι → Option A) : Prop :=
  ∀ r π t i, π.length < depth → rootAt ptr ent root r π = some t → P (ent t i)

theorem InnerAll.keep {P : E → Prop} (h : InnerAll P ptr ent depth root)
    (hkeep : ∀ s, IsTable ptr ent depth root s → ∀ j, ent' s j = ent s j) :
    InnerAll P ptr ent' depth root := by
  intro r' π s i hπ hs
  rw [rootAt_keep hkeep hπ.le] at hs
  rw [hkeep s ⟨r', π, hπ.le, hs⟩]
  exact h r' π s i hπ hs

theorem lookupAt_keep {val : E → Option B} {j : κ}
    (hkeep : ∀ s, IsTable ptr ent depth root s → ∀ j, ent' s j = ent s j)
    (hσ : σ.length ≤ depth) :
    lookupAt ptr val ent' root r σ j = lookupAt ptr val ent root r σ j := by
  unfold lookupAt
  rw [rootAt_keep hkeep hσ]
  cases hs : rootAt ptr ent root r σ with
  | none => rfl
  | some s => exact congrArg val (hkeep s ⟨r, σ, hσ, hs⟩ j)

end Keep

namespace Forest

variable {ptr : E → Option A} {val : E → Option B} {ent ent' : A → κ → E} {depth : ℕ}
  {root : ι → Option A} {r : ι} {t u : A} {π : List κ} {i : κ}

/-! ## Writing an entry of the last level -/

/-- The entries of a table of the last level are on no path. -/
theorem rootAt_leaf (h : Forest ptr ent depth root) (ht : rootAt ptr ent root r π = some t)
    (hπ : π.length = depth)
    (hkeep : ∀ s, IsTable ptr ent depth root s → s ≠ t → ∀ j, ent' s j = ent s j) {r' : ι}
    {σ : List κ} (hσ : σ.length ≤ depth) :
    rootAt ptr ent' root r' σ = rootAt ptr ent root r' σ := by
  apply rootAt_congr
  intro ρ j τ s heq hs
  have hlen : ρ.length < depth := by
    rw [heq, List.length_append, List.length_cons] at hσ
    omega
  have hne : s ≠ t := by
    rintro rfl
    have hpath := (h r' r ρ π s (by omega) (by omega) hs ht).2
    rw [hpath] at hlen
    omega
  rw [hkeep s ⟨r', ρ, by omega, hs⟩ hne]

theorem leaf (h : Forest ptr ent depth root) (ht : rootAt ptr ent root r π = some t)
    (hπ : π.length = depth)
    (hkeep : ∀ s, IsTable ptr ent depth root s → s ≠ t → ∀ j, ent' s j = ent s j) :
    Forest ptr ent' depth root := by
  intro r₁ r₂ π₁ π₂ s h₁ h₂ hs₁ hs₂
  rw [h.rootAt_leaf ht hπ hkeep h₁] at hs₁
  rw [h.rootAt_leaf ht hπ hkeep h₂] at hs₂
  exact h r₁ r₂ π₁ π₂ s h₁ h₂ hs₁ hs₂

theorem reaches_leaf (h : Forest ptr ent depth root) (ht : rootAt ptr ent root r π = some t)
    (hπ : π.length = depth)
    (hkeep : ∀ s, IsTable ptr ent depth root s → s ≠ t → ∀ j, ent' s j = ent s j) {r' : ι} {s : A} :
    Reaches ptr ent' depth root r' s ↔ Reaches ptr ent depth root r' s := by
  constructor
  · rintro ⟨σ, hσ, hs⟩
    rw [h.rootAt_leaf ht hπ hkeep hσ] at hs
    exact ⟨σ, hσ, hs⟩
  · rintro ⟨σ, hσ, hs⟩
    exact ⟨σ, hσ, by rwa [h.rootAt_leaf ht hπ hkeep hσ]⟩

theorem tablePaths_leaf (h : Forest ptr ent depth root) (ht : rootAt ptr ent root r π = some t)
    (hπ : π.length = depth)
    (hkeep : ∀ s, IsTable ptr ent depth root s → s ≠ t → ∀ j, ent' s j = ent s j) (r' : ι) :
    tablePaths ptr ent' depth root r' = tablePaths ptr ent depth root r' := by
  ext σ
  refine and_congr_right fun _ => and_congr_right fun hσ => ?_
  rw [h.rootAt_leaf ht hπ hkeep hσ]

theorem lookupAt_leaf_self (h : Forest ptr ent depth root)
    (ht : rootAt ptr ent root r π = some t) (hπ : π.length = depth)
    (hkeep : ∀ s, IsTable ptr ent depth root s → s ≠ t → ∀ j, ent' s j = ent s j) :
    lookupAt ptr val ent' root r π i = val (ent' t i) := by
  unfold lookupAt
  rw [h.rootAt_leaf ht hπ hkeep hπ.le, ht]
  rfl

/-- The other entries are worth what they were. -/
theorem lookupAt_leaf (h : Forest ptr ent depth root) (ht : rootAt ptr ent root r π = some t)
    (hπ : π.length = depth)
    (hkeep : ∀ s, IsTable ptr ent depth root s → s ≠ t → ∀ j, ent' s j = ent s j)
    (hrow : ∀ j, j ≠ i → ent' t j = ent t j) {r' : ι} {σ : List κ} {j : κ}
    (hσ : σ.length = depth) (hne : ¬ (r' = r ∧ σ = π ∧ j = i)) :
    lookupAt ptr val ent' root r' σ j = lookupAt ptr val ent root r' σ j := by
  unfold lookupAt
  rw [h.rootAt_leaf ht hπ hkeep hσ.le]
  cases hs : rootAt ptr ent root r' σ with
  | none => rfl
  | some s =>
      change val (ent' s j) = val (ent s j)
      by_cases hst : s = t
      · subst hst
        obtain ⟨hr, hpath⟩ := h r' r σ π s hσ.le hπ.le hs ht
        rw [hrow j fun hj => hne ⟨hr, hpath, hj⟩]
      · rw [hkeep s ⟨r', σ, hσ.le, hs⟩ hst]

/-- The inner tables are not written. -/
theorem innerAll_leaf {P : E → Prop} (h : Forest ptr ent depth root)
    (ht : rootAt ptr ent root r π = some t) (hπ : π.length = depth)
    (hkeep : ∀ s, IsTable ptr ent depth root s → s ≠ t → ∀ j, ent' s j = ent s j)
    (hall : InnerAll P ptr ent depth root) : InnerAll P ptr ent' depth root := by
  intro r' σ s j hσ hs
  rw [h.rootAt_leaf ht hπ hkeep hσ.le] at hs
  have hne : s ≠ t := by
    rintro rfl
    have hpath := (h r' r σ π s hσ.le hπ.le hs ht).2
    rw [hpath] at hσ
    omega
  rw [hkeep s ⟨r', σ, hσ.le, hs⟩ hne]
  exact hall r' σ s j hσ hs

/-! ## Hanging a table below an entry -/

/-- The table `t` at the end of `π` gets a new table `u` below its entry `i`. -/
structure Hang (ptr : E → Option A) (ent ent' : A → κ → E) (depth : ℕ) (root : ι → Option A)
    (r : ι) (π : List κ) (i : κ) (t u : A) : Prop where
  parent : rootAt ptr ent root r π = some t
  inner : π.length < depth
  free : ptr (ent t i) = none
  fresh : ¬ IsTable ptr ent depth root u
  link : ptr (ent' t i) = some u
  row : ∀ j, j ≠ i → ent' t j = ent t j
  empty : ∀ j, ptr (ent' u j) = none
  keep : ∀ s, IsTable ptr ent depth root s → s ≠ t → ∀ j, ent' s j = ent s j

variable (h : Forest ptr ent depth root) (k : Hang ptr ent ent' depth root r π i t u)

include h k

theorem rootAt_hang {r' : ι} {σ : List κ} (hσ : σ.length ≤ depth)
    (hne : ¬ (r' = r ∧ σ = π ++ [i])) :
    rootAt ptr ent' root r' σ = rootAt ptr ent root r' σ := by
  induction σ using List.reverseRecOn with
  | nil => rw [rootAt_nil, rootAt_nil]
  | append_singleton σ j ih =>
      rw [List.length_append, List.length_singleton] at hσ
      by_cases hnew : r' = r ∧ σ = π ++ [i]
      · -- the new table is empty, and there was none in its place
        obtain ⟨rfl, rfl⟩ := hnew
        have hold : rootAt ptr ent root r' (π ++ [i]) = none := by
          rw [rootAt_concat, k.parent]
          exact k.free
        have hparent : rootAt ptr ent' root r' π = some t := by
          rw [← k.parent]
          apply rootAt_congr
          intro ρ j' τ s heq hs
          by_cases hst : s = t
          · subst hst
            have hlen := congrArg List.length
              (h r' r' ρ π s (by rw [heq] at hσ; simp at hσ; omega) k.inner.le hs k.parent).2
            rw [heq, List.length_append, List.length_cons] at hlen
            omega
          · rw [k.keep s ⟨r', ρ, by rw [heq] at hσ; simp at hσ; omega, hs⟩ hst]
        rw [rootAt_concat, rootAt_concat, rootAt_concat, hparent, rootAt_concat, k.parent]
        change ((ptr (ent' t i)).bind fun u => ptr (ent' u j)) =
          (ptr (ent t i)).bind fun u => ptr (ent u j)
        rw [k.link, k.free]
        exact k.empty j
      · rw [rootAt_concat, rootAt_concat, ih (by omega) hnew]
        cases hs : rootAt ptr ent root r' σ with
        | none => rfl
        | some s =>
            change ptr (ent' s j) = ptr (ent s j)
            by_cases hst : s = t
            · subst hst
              obtain ⟨hr, hpath⟩ := h r' r σ π s (by omega) k.inner.le hs k.parent
              rw [k.row j]
              rintro rfl
              exact hne ⟨hr, by rw [hpath]⟩
            · rw [k.keep s ⟨r', σ, by omega, hs⟩ hst]

theorem rootAt_hang_new : rootAt ptr ent' root r (π ++ [i]) = some u := by
  have hparent : rootAt ptr ent' root r π = some t := by
    rw [h.rootAt_hang k k.inner.le, k.parent]
    rintro ⟨_, hpath⟩
    have hlen := congrArg List.length hpath
    simp at hlen
  rw [rootAt_concat, hparent]
  exact k.link

theorem reaches_hang {r' : ι} {s : A} :
    Reaches ptr ent' depth root r' s ↔ Reaches ptr ent depth root r' s ∨ r' = r ∧ s = u := by
  constructor
  · rintro ⟨σ, hσ, hs⟩
    by_cases hnew : r' = r ∧ σ = π ++ [i]
    · obtain ⟨rfl, rfl⟩ := hnew
      rw [h.rootAt_hang_new k] at hs
      exact Or.inr ⟨rfl, (Option.some.inj hs).symm⟩
    · rw [h.rootAt_hang k hσ hnew] at hs
      exact Or.inl ⟨σ, hσ, hs⟩
  · rintro (⟨σ, hσ, hs⟩ | ⟨rfl, rfl⟩)
    · refine ⟨σ, hσ, ?_⟩
      rw [h.rootAt_hang k hσ, hs]
      rintro ⟨rfl, rfl⟩
      rw [rootAt_concat, k.parent] at hs
      exact absurd (k.free.symm.trans hs) (by simp)
    · exact ⟨π ++ [i], by have := k.inner; simp; omega, h.rootAt_hang_new k⟩

theorem isTable_hang {s : A} :
    IsTable ptr ent' depth root s ↔ IsTable ptr ent depth root s ∨ s = u := by
  constructor
  · rintro ⟨r', hs⟩
    rcases (h.reaches_hang k).mp hs with hs | ⟨_, heq⟩
    · exact Or.inl ⟨r', hs⟩
    · exact Or.inr heq
  · rintro (⟨r', hs⟩ | heq)
    · exact ⟨r', (h.reaches_hang k).mpr (Or.inl hs)⟩
    · exact ⟨r, (h.reaches_hang k).mpr (Or.inr ⟨rfl, heq⟩)⟩

/-- A new table is one new path. -/
theorem tablePaths_hang : π ++ [i] ∉ tablePaths ptr ent depth root r ∧
    tablePaths ptr ent' depth root r = insert (π ++ [i]) (tablePaths ptr ent depth root r) := by
  have hlen : (π ++ [i]).length ≤ depth := by
    rw [List.length_append, List.length_singleton]
    exact k.inner
  refine ⟨?_, ?_⟩
  · rintro ⟨_, _, hsome⟩
    rw [rootAt_concat, k.parent, Option.bind_some, k.free] at hsome
    cases hsome
  · ext σ
    rw [Set.mem_insert_iff]
    by_cases hnew : σ = π ++ [i]
    · subst hnew
      refine iff_of_true ⟨by simp, hlen, ?_⟩ (Or.inl rfl)
      rw [h.rootAt_hang_new k]
      rfl
    · constructor
      · rintro ⟨hne, hσ, hsome⟩
        rw [h.rootAt_hang k hσ fun heq => hnew heq.2] at hsome
        exact Or.inr ⟨hne, hσ, hsome⟩
      · rintro (heq | ⟨hne, hσ, hsome⟩)
        · exact absurd heq hnew
        · exact ⟨hne, hσ, by rw [h.rootAt_hang k hσ fun heq => hnew heq.2]; exact hsome⟩

theorem hang : Forest ptr ent' depth root := by
  have hcases : ∀ r' σ s, σ.length ≤ depth → rootAt ptr ent' root r' σ = some s →
      (r' = r ∧ σ = π ++ [i] ∧ s = u) ∨ (s ≠ u ∧ rootAt ptr ent root r' σ = some s) := by
    intro r' σ s hσ hs
    by_cases hnew : r' = r ∧ σ = π ++ [i]
    · obtain ⟨rfl, rfl⟩ := hnew
      rw [h.rootAt_hang_new k] at hs
      exact Or.inl ⟨rfl, rfl, (Option.some.inj hs).symm⟩
    · rw [h.rootAt_hang k hσ hnew] at hs
      refine Or.inr ⟨?_, hs⟩
      rintro rfl
      exact k.fresh ⟨r', σ, hσ, hs⟩
  intro r₁ r₂ π₁ π₂ s h₁ h₂ hs₁ hs₂
  rcases hcases r₁ π₁ s h₁ hs₁ with ⟨rfl, rfl, rfl⟩ | ⟨hne, hs₁⟩
  · rcases hcases r₂ π₂ s h₂ hs₂ with ⟨rfl, rfl, _⟩ | ⟨hne, _⟩
    · exact ⟨rfl, rfl⟩
    · exact absurd rfl hne
  · rcases hcases r₂ π₂ s h₂ hs₂ with ⟨_, _, rfl⟩ | ⟨_, hs₂⟩
    · exact absurd rfl hne
    · exact h r₁ r₂ π₁ π₂ s h₁ h₂ hs₁ hs₂

/-- A new table without entries changes no lookup. -/
theorem lookupAt_hang (hval : ∀ j, val (ent' u j) = none) {r' : ι} {σ : List κ} {j : κ}
    (hσ : σ.length = depth) :
    lookupAt ptr val ent' root r' σ j = lookupAt ptr val ent root r' σ j := by
  unfold lookupAt
  by_cases hnew : r' = r ∧ σ = π ++ [i]
  · obtain ⟨rfl, rfl⟩ := hnew
    rw [h.rootAt_hang_new k, rootAt_concat, k.parent]
    change val (ent' u j) = (ptr (ent t i)).bind _
    rw [k.free, hval j]
    rfl
  · rw [h.rootAt_hang k hσ.le hnew]
    cases hs : rootAt ptr ent root r' σ with
    | none => rfl
    | some s =>
        have hst : s ≠ t := by
          rintro rfl
          have hpath := (h r' r σ π s hσ.le k.inner.le hs k.parent).2
          have hinner := k.inner
          rw [← hpath] at hinner
          omega
        change val (ent' s j) = val (ent s j)
        rw [k.keep s ⟨r', σ, hσ.le, hs⟩ hst]

theorem innerAll_hang {P : E → Prop} (hall : InnerAll P ptr ent depth root)
    (hlink : P (ent' t i)) (hempty : ∀ j, P (ent' u j)) : InnerAll P ptr ent' depth root := by
  intro r' σ s j hσ hs
  by_cases hnew : r' = r ∧ σ = π ++ [i]
  · obtain ⟨rfl, rfl⟩ := hnew
    rw [h.rootAt_hang_new k] at hs
    rw [← Option.some.inj hs]
    exact hempty j
  · rw [h.rootAt_hang k hσ.le hnew] at hs
    by_cases hst : s = t
    · subst hst
      by_cases hij : j = i
      · rw [hij]
        exact hlink
      · rw [k.row j hij]
        exact hall r' σ s j hσ hs
    · rw [k.keep s ⟨r', σ, hσ.le, hs⟩ hst]
      exact hall r' σ s j hσ hs

end Forest

/-! ## Adding and dropping roots -/

section Roots

variable {ptr : E → Option A} {ent ent' : A → κ → E} {depth : ℕ} [DecidableEq ι]
  {root : ι → Option A} {r r' : ι} {u s : A} {σ : List κ}

theorem rootAt_update_of_ne (hr : r' ≠ r) (x : Option A) (σ : List κ) :
    rootAt ptr ent (Function.update root r x) r' σ = rootAt ptr ent root r' σ := by
  unfold rootAt
  rw [Function.update_of_ne hr]

theorem rootAt_update_none (σ : List κ) :
    rootAt ptr ent (Function.update root r none) r σ = none := by
  unfold rootAt
  rw [Function.update_self]
  rfl

theorem IsTable.of_drop (h : IsTable ptr ent depth (Function.update root r none) s) :
    IsTable ptr ent depth root s := by
  obtain ⟨r', σ, hσ, hs⟩ := h
  by_cases hr : r' = r
  · rw [hr, rootAt_update_none] at hs
    cases hs
  · rw [rootAt_update_of_ne hr] at hs
    exact ⟨r', σ, hσ, hs⟩

theorem Forest.drop (h : Forest ptr ent depth root) (r : ι) :
    Forest ptr ent depth (Function.update root r none) := by
  have hold : ∀ r' σ s, rootAt ptr ent (Function.update root r none) r' σ = some s →
      rootAt ptr ent root r' σ = some s := by
    intro r' σ s hs
    by_cases hr : r' = r
    · rw [hr, rootAt_update_none] at hs
      cases hs
    · rwa [rootAt_update_of_ne hr] at hs
  intro r₁ r₂ π₁ π₂ s h₁ h₂ hs₁ hs₂
  exact h r₁ r₂ π₁ π₂ s h₁ h₂ (hold _ _ _ hs₁) (hold _ _ _ hs₂)

/-- An empty table as a new root. -/
theorem rootAt_add (hempty : ∀ j, ptr (ent u j) = none) :
    rootAt ptr ent (Function.update root r (some u)) r σ = some s ↔ σ = [] ∧ s = u := by
  rw [rootAt_of_root (Function.update_self _ _ _)]
  cases σ with
  | nil =>
      rw [tableAt, Option.some.injEq]
      exact ⟨fun h => ⟨rfl, h.symm⟩, fun h => h.2.symm⟩
  | cons j σ =>
      rw [tableAt, hempty j]
      simp

theorem IsTable.of_add (hempty : ∀ j, ptr (ent u j) = none)
    (h : IsTable ptr ent depth (Function.update root r (some u)) s) :
    IsTable ptr ent depth root s ∨ s = u := by
  obtain ⟨r', σ, hσ, hs⟩ := h
  by_cases hr : r' = r
  · rw [hr, rootAt_add hempty] at hs
    exact Or.inr hs.2
  · rw [rootAt_update_of_ne hr] at hs
    exact Or.inl ⟨r', σ, hσ, hs⟩

theorem Forest.add (h : Forest ptr ent depth root) (hempty : ∀ j, ptr (ent u j) = none)
    (hfresh : ¬ IsTable ptr ent depth root u) :
    Forest ptr ent depth (Function.update root r (some u)) := by
  intro r₁ r₂ π₁ π₂ s h₁ h₂ hs₁ hs₂
  by_cases hr₁ : r₁ = r
  · rw [hr₁, rootAt_add hempty] at hs₁
    by_cases hr₂ : r₂ = r
    · rw [hr₂, rootAt_add hempty] at hs₂
      exact ⟨hr₁.trans hr₂.symm, hs₁.1.trans hs₂.1.symm⟩
    · rw [rootAt_update_of_ne hr₂] at hs₂
      exact absurd ⟨r₂, π₂, h₂, hs₁.2 ▸ hs₂⟩ hfresh
  · rw [rootAt_update_of_ne hr₁] at hs₁
    by_cases hr₂ : r₂ = r
    · rw [hr₂, rootAt_add hempty] at hs₂
      exact absurd ⟨r₁, π₁, h₁, hs₂.2 ▸ hs₁⟩ hfresh
    · rw [rootAt_update_of_ne hr₂] at hs₂
      exact h r₁ r₂ π₁ π₂ s h₁ h₂ hs₁ hs₂

end Roots

/-! ## Visiting every table -/

/-- The tables below `t`, each after its children; `n` is the number of levels below. -/
def postorder (ptr : E → Option A) (ent : A → κ → E) (indices : List κ) : ℕ → A → List A
  | 0, t => [t]
  | n + 1, t =>
      (indices.flatMap fun i => (ptr (ent t i)).elim [] (postorder ptr ent indices n)) ++ [t]

section Postorder

variable {ptr : E → Option A} {ent : A → κ → E} {indices : List κ} {n : ℕ} {t u : A}

theorem mem_postorder (hall : ∀ i, i ∈ indices) :
    u ∈ postorder ptr ent indices n t ↔ ∃ π, π.length ≤ n ∧ tableAt ptr ent t π = some u := by
  induction n generalizing t with
  | zero =>
      rw [postorder, List.mem_singleton]
      constructor
      · rintro rfl
        exact ⟨[], le_refl _, rfl⟩
      · rintro ⟨π, hπ, hu⟩
        rw [List.length_eq_zero_iff.mp (Nat.le_zero.mp hπ)] at hu
        exact (Option.some.inj hu).symm
  | succ n ih =>
      rw [postorder, List.mem_append, List.mem_flatMap, List.mem_singleton]
      constructor
      · rintro (⟨i, _, hu⟩ | rfl)
        · cases hv : ptr (ent t i) with
          | none =>
              rw [hv] at hu
              cases hu
          | some v =>
              rw [hv] at hu
              obtain ⟨π, hπ, hu⟩ := ih.mp hu
              refine ⟨i :: π, Nat.succ_le_succ hπ, ?_⟩
              rw [tableAt, hv]
              exact hu
        · exact ⟨[], Nat.zero_le _, rfl⟩
      · rintro ⟨π, hπ, hu⟩
        cases π with
        | nil => exact Or.inr (Option.some.inj hu).symm
        | cons i π =>
            rw [tableAt] at hu
            obtain ⟨v, hv, hu⟩ := Option.bind_eq_some_iff.mp hu
            refine Or.inl ⟨i, hall i, ?_⟩
            rw [hv]
            exact ih.mpr ⟨π, Nat.le_of_succ_le_succ hπ, hu⟩

/-- Where each table is reached in one way, each is visited once. -/
theorem nodup_postorder (hall : ∀ i, i ∈ indices) (hnodup : indices.Nodup)
    (hinj : ∀ π σ u, π.length ≤ n → σ.length ≤ n → tableAt ptr ent t π = some u →
      tableAt ptr ent t σ = some u → π = σ) :
    (postorder ptr ent indices n t).Nodup := by
  induction n generalizing t with
  | zero => exact List.nodup_singleton t
  | succ n ih =>
      have hbelow : ∀ i v, ptr (ent t i) = some v → ∀ x ∈ postorder ptr ent indices n v,
          ∃ π, π.length ≤ n ∧ tableAt ptr ent t (i :: π) = some x := by
        intro i v hv x hx
        obtain ⟨π, hπ, hx⟩ := (mem_postorder hall).mp hx
        refine ⟨π, hπ, ?_⟩
        rw [tableAt, hv]
        exact hx
      have hchild : ∀ i x, x ∈ (ptr (ent t i)).elim [] (postorder ptr ent indices n) →
          ∃ π, π.length ≤ n ∧ tableAt ptr ent t (i :: π) = some x := by
        intro i x hx
        cases hv : ptr (ent t i) with
        | none =>
            rw [hv] at hx
            cases hx
        | some v =>
            rw [hv] at hx
            exact hbelow i v hv x hx
      rw [postorder, List.nodup_append]
      refine ⟨List.nodup_flatMap.mpr ⟨?_, ?_⟩, List.nodup_singleton t, ?_⟩
      · intro i _
        cases hv : ptr (ent t i) with
        | none => exact List.nodup_nil
        | some v =>
            apply ih
            intro π σ u hπ hσ hu hu'
            have hpath := hinj (i :: π) (i :: σ) u (Nat.succ_le_succ hπ) (Nat.succ_le_succ hσ)
              (by rw [tableAt, hv]; exact hu) (by rw [tableAt, hv]; exact hu')
            exact (List.cons.inj hpath).2
      · refine hnodup.imp fun {i j} hij x hx hx' => ?_
        obtain ⟨π, hπ, hxi⟩ := hchild i x hx
        obtain ⟨σ, hσ, hxj⟩ := hchild j x hx'
        exact hij (List.cons.inj (hinj _ _ x (Nat.succ_le_succ hπ) (Nat.succ_le_succ hσ)
          hxi hxj)).1
      · intro x hx y hy
        obtain ⟨i, _, hx⟩ := List.mem_flatMap.mp hx
        obtain ⟨π, hπ, hxi⟩ := hchild i x hx
        rw [List.mem_singleton] at hy
        rintro rfl
        rw [hy] at hxi
        have hpath := hinj (i :: π) [] t (Nat.succ_le_succ hπ) (Nat.zero_le _) hxi rfl
        cases hpath

end Postorder

end Vectra.Lib

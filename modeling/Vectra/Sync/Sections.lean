import Vectra.Sync.Spinlock

/-!
# Data under the spin lock

The CPUs that have returned from `spin_lock` access data that they share, one access at a time,
until they call `spin_unlock`. Whatever the order of the instructions, the sections take place
one after the other.
-/

namespace Vectra

open Lib

variable {ι D L : Type*}

/-- An access to the shared data and to the local data of the CPU. -/
abbrev Access (D L : Type*) := D → L → D × L

inductive SectionOp (D L : Type*)
  | spin (op : SpinOp)
  | access (f : Access D L)

/-- The lock and the data; each CPU has local data besides. -/
abbrev SectionSys (ι D L : Type*) := Sys ι (SharedWord ι × D) (SpinCpu × L)

def SectionSys.lock (s : SectionSys ι D L) : SpinSys ι := ⟨s.shared.1, fun i => (s.thread i).1⟩

/-- The shared data and the local data of all CPUs. -/
def SectionSys.data (s : SectionSys ι D L) : D × (ι → L) := (s.shared.2, fun i => (s.thread i).2)

/-- The CPU has returned from `spin_lock` and not called `spin_unlock`. -/
def SectionSys.Inside (s : SectionSys ι D L) (i : ι) : Prop := (s.lock.thread i).mode = .critical

/-- The accesses of a run, each with its CPU. -/
def SectionOp.accessed (a : ι × SectionOp D L) : Option (ι × Access D L) :=
  match a.2 with
  | .access f => some (a.1, f)
  | .spin _ => none

/-- The calls of `spin_unlock`. -/
def SectionOp.unlocked (a : ι × SectionOp D L) : Option ι :=
  match a.2 with
  | .spin (.unlock _) => some a.1
  | _ => none

/-- The accesses of one CPU from `spin_lock` to `spin_unlock`. -/
abbrev Section (ι D L : Type*) := ι × List (Access D L)

def Section.accesses (b : Section ι D L) : List (ι × Access D L) := b.2.map fun f => (b.1, f)

section Steps

variable [DecidableEq ι]

def sectionStep (arch : Arch) (i : ι) (g : SharedWord ι × D) (l : SpinCpu × L) :
    SectionOp D L → Option ((SharedWord ι × D) × (SpinCpu × L))
  | .spin op => (spinStep arch i g.1 l.1 op).map fun r => ((r.1, g.2), (r.2, l.2))
  | .access f =>
      if l.1.mode = .critical then some ((g.1, (f g.2 l.2).1), (l.1, (f g.2 l.2).2)) else none

def SectionStep (arch : Arch) (i : ι) (g : SharedWord ι × D) (l : SpinCpu × L)
    (op : SectionOp D L) (g' : SharedWord ι × D) (l' : SpinCpu × L) : Prop :=
  sectionStep arch i g l op = some (g', l')

/-- A section that nobody interrupts. -/
def Section.run (b : Section ι D L) (d : D × (ι → L)) : D × (ι → L) :=
  let r := b.2.foldl (fun r f => f r.1 r.2) (d.1, d.2 b.1)
  (r.1, Function.update d.2 b.1 r.2)

/-- The sections, one after the other. -/
def runSections (bs : List (Section ι D L)) (d : D × (ι → L)) : D × (ι → L) :=
  bs.foldl (fun d b => b.run d) d

/-- The accesses of a run, taken section by section: those that are closed, in the order of the
calls of `spin_unlock`, and the one that is open while a CPU is inside. -/
structure Serialized (d : D × (ι → L)) (ops : List (ι × SectionOp D L)) (s : SectionSys ι D L)
    (closed : List (Section ι D L)) (opened : Option (Section ι D L)) : Prop where
  order : (closed ++ opened.toList).flatMap Section.accesses = ops.filterMap SectionOp.accessed
  unlocks : closed.map Prod.fst = ops.filterMap SectionOp.unlocked
  inside : ∀ i, s.Inside i ↔ ∃ fs, opened = some (i, fs)
  data : s.data = runSections (closed ++ opened.toList) d

variable {arch : Arch} {i : ι} {d : D × (ι → L)} {s t : SectionSys ι D L}
  {ops : List (ι × SectionOp D L)} {closed : List (Section ι D L)} {opened : Option (Section ι D L)}

/-! ## Sections that run alone -/

theorem Section.run_nil (i : ι) (d : D × (ι → L)) : Section.run (i, []) d = d :=
  Prod.ext rfl (Function.update_eq_self i d.2)

theorem Section.run_snoc (i : ι) (fs : List (Access D L)) (f : Access D L) (d : D × (ι → L)) :
    Section.run (i, fs ++ [f]) d =
      let e := Section.run (i, fs) d
      ((f e.1 (e.2 i)).1, Function.update e.2 i (f e.1 (e.2 i)).2) := by
  simp only [Section.run, List.foldl_append, List.foldl_cons, List.foldl_nil,
    Function.update_self, Function.update_idem]

/-- The section that is still open, if any, runs last. -/
theorem runSections_opened (d : D × (ι → L)) :
    runSections (closed ++ opened.toList) d =
      opened.elim (runSections closed d) fun b => b.run (runSections closed d) := by
  unfold runSections
  rw [List.foldl_append]
  cases opened <;> rfl

/-! ## One step -/

/-- The steps of the lock are those of the spin lock. -/
theorem spin_of_section {op : SpinOp}
    (hs : Interleave (SectionStep arch) s (i, .spin op) t) :
    Interleave (SpinStep arch) s.lock (i, op) t.lock ∧ t.data = s.data := by
  cases hs with
  | move h =>
      obtain ⟨⟨g, l⟩, hr, heq⟩ := Option.map_eq_some_iff.mp h
      obtain ⟨rfl, rfl⟩ := Prod.mk.inj heq
      have hlock :
          SectionSys.lock ⟨(g, s.shared.2), Function.update s.thread i (l, (s.thread i).2)⟩ =
            ⟨g, Function.update s.lock.thread i l⟩ := by
        unfold SectionSys.lock
        congr 1
        funext j
        by_cases hji : j = i
        · subst hji
          simp
        · simp [hji]
      refine ⟨by rw [hlock]; exact .move hr, Prod.ext rfl (funext fun j => ?_)⟩
      by_cases hji : j = i
      · subst hji
        simp [SectionSys.data]
      · simp [SectionSys.data, hji]

/-- An access leaves the lock alone, and applies to the data of its CPU. -/
theorem access_of_section {f : Access D L} (hs : Interleave (SectionStep arch) s (i, .access f) t) :
    s.Inside i ∧ t.lock = s.lock ∧ t.data =
      ((f s.data.1 (s.data.2 i)).1, Function.update s.data.2 i (f s.data.1 (s.data.2 i)).2) := by
  cases hs with
  | move h =>
      simp only [SectionStep, sectionStep] at h
      split at h
      · rename_i hinside
        obtain ⟨rfl, rfl⟩ := Prod.mk.inj (Option.some.inj h)
        refine ⟨hinside, ?_, Prod.ext rfl (funext fun j => ?_)⟩
        · unfold SectionSys.lock
          congr 1
          funext j
          by_cases hji : j = i
          · subst hji
            simp
          · simp [hji]
        · by_cases hji : j = i
          · subst hji
            simp [SectionSys.data]
          · simp [SectionSys.data, hji]
      · cases h

omit [DecidableEq ι] in
/-- At most one CPU is inside. -/
theorem SpinInv.inside_unique (h : SpinInv arch s.lock) {j : ι} (hi : s.Inside i)
    (hj : s.Inside j) : i = j := by
  have howner : ∀ k, s.Inside k → (s.lock.thread k).owner = true := by
    intro k hk
    have hpoint := h.point k
    unfold SpinPoint at hpoint
    rw [show (s.lock.thread k).mode = .critical from hk] at hpoint
    exact hpoint
  exact h.exclusive.unique i j (howner i hi) (howner j hj)

/-- Which CPUs are inside after a step of the lock. -/
inductive InsideStep (s t : SectionSys ι D L) (i : ι) (op : SpinOp) : Prop
  | enter (hop : ∀ reg, op ≠ .unlock reg) (out : ¬ s.Inside i) (self : t.Inside i)
  | leave (reg : AtomicReg → ℕ) (hop : op = .unlock reg) (self : s.Inside i) (out : ¬ t.Inside i)
  | stay (hop : ∀ reg, op ≠ .unlock reg) (self : t.Inside i ↔ s.Inside i)

theorem insideStep {op : SpinOp} (hs : Interleave (SectionStep arch) s (i, .spin op) t) :
    InsideStep s t i op := by
  have hspin : spinStep arch i s.lock.shared (s.lock.thread i) op =
      some (t.lock.shared, t.lock.thread i) := (spin_of_section hs).1.self
  cases op with
  | lock reg =>
      simp only [spinStep] at hspin
      split at hspin
      · rename_i hm
        have hl := (Prod.mk.inj (Option.some.inj hspin)).2
        refine .stay (fun _ h => by cases h) ?_
        simp [SectionSys.Inside, ← hl, hm]
      · cases hspin
  | unlock reg =>
      simp only [spinStep] at hspin
      split at hspin
      · rename_i hm
        have hl := (Prod.mk.inj (Option.some.inj hspin)).2
        exact .leave reg rfl hm (by simp [SectionSys.Inside, ← hl])
      · cases hspin
  | exec ok =>
      simp only [spinStep] at hspin
      split at hspin
      · cases hspin
      · have hl := (Prod.mk.inj (Option.some.inj hspin)).2
        refine .stay (fun _ h => by cases h) ?_
        simp [SectionSys.Inside, ← hl]
  | ret =>
      simp only [spinStep] at hspin
      split at hspin
      · split at hspin
        · rename_i hm
          have hl := (Prod.mk.inj (Option.some.inj hspin)).2
          exact .enter (fun _ h => by cases h) (by simp [SectionSys.Inside, hm])
            (by simp [SectionSys.Inside, ← hl])
        · rename_i hm
          have hl := (Prod.mk.inj (Option.some.inj hspin)).2
          refine .stay (fun _ h => by cases h) ?_
          simp [SectionSys.Inside, ← hl, hm]
        · cases hspin
      · cases hspin

theorem Inside.other {a : SectionOp D L} (hs : Interleave (SectionStep arch) s (i, a) t) {j : ι}
    (hj : j ≠ i) : t.Inside j ↔ s.Inside j := by
  have heq : t.lock.thread j = s.lock.thread j := congrArg Prod.fst (hs.other hj)
  unfold SectionSys.Inside
  rw [heq]

/-- A step of the lock opens a section, closes it, or does neither. -/
theorem Serialized.spin {op : SpinOp} (h : Serialized d ops s closed opened)
    (ht : SpinInv arch t.lock) (hs : Interleave (SectionStep arch) s (i, .spin op) t) :
    ∃ closed' opened', Serialized d (ops ++ [(i, .spin op)]) t closed' opened' := by
  have hdata := (spin_of_section hs).2
  have horder : (ops ++ [(i, (.spin op : SectionOp D L))]).filterMap SectionOp.accessed =
      ops.filterMap SectionOp.accessed := by
    rw [List.filterMap_append]
    exact List.append_nil _
  have hunlocks : (∀ reg, op ≠ .unlock reg) →
      (ops ++ [(i, (.spin op : SectionOp D L))]).filterMap SectionOp.unlocked =
        ops.filterMap SectionOp.unlocked := by
    intro hop
    rw [List.filterMap_append]
    cases op with
    | unlock reg => exact absurd rfl (hop reg)
    | lock | exec | ret => exact List.append_nil _
  cases insideStep hs with
  | enter hop hout hself =>
      have hnone : opened = none := by
        by_contra hne
        obtain ⟨⟨j, fs⟩, hopened⟩ := Option.ne_none_iff_exists'.mp hne
        have hj := (h.inside j).mpr ⟨fs, hopened⟩
        by_cases hji : j = i
        · exact hout (hji ▸ hj)
        · exact hji (ht.inside_unique ((Inside.other hs hji).mpr hj) hself)
      subst hnone
      refine ⟨closed, some (i, []), ?_, ?_, fun j => ?_, ?_⟩
      · rw [horder, ← h.order]
        simp [Section.accesses]
      · rw [hunlocks hop]
        exact h.unlocks
      · by_cases hji : j = i
        · subst hji
          exact iff_of_true hself ⟨[], rfl⟩
        · rw [Inside.other hs hji, h.inside j]
          simp [Ne.symm hji]
      · rw [hdata, h.data, runSections_opened, runSections_opened]
        exact (Section.run_nil i _).symm
  | leave reg hop hself hout =>
      subst hop
      obtain ⟨fs, rfl⟩ := (h.inside i).mp hself
      refine ⟨closed ++ [(i, fs)], none, ?_, ?_, fun j => ?_, ?_⟩
      · rw [horder, ← h.order]
        simp
      · rw [List.map_append, h.unlocks, List.filterMap_append]
        rfl
      · by_cases hji : j = i
        · subst hji
          exact iff_of_false hout (by simp)
        · rw [Inside.other hs hji, h.inside j]
          simp [Ne.symm hji]
      · rw [hdata, h.data]
        simp
  | stay hop hself =>
      refine ⟨closed, opened, ?_, ?_, fun j => ?_, ?_⟩
      · rw [horder]
        exact h.order
      · rw [hunlocks hop]
        exact h.unlocks
      · by_cases hji : j = i
        · subst hji
          rw [hself]
          exact h.inside j
        · rw [Inside.other hs hji]
          exact h.inside j
      · rw [hdata]
        exact h.data

/-- An access belongs to the section that is open. -/
theorem Serialized.access {f : Access D L} (h : Serialized d ops s closed opened)
    (hs : Interleave (SectionStep arch) s (i, .access f) t) :
    ∃ closed' opened', Serialized d (ops ++ [(i, .access f)]) t closed' opened' := by
  obtain ⟨hinside, hlock, hdata⟩ := access_of_section hs
  obtain ⟨fs, rfl⟩ := (h.inside i).mp hinside
  have hsame : ∀ j, t.Inside j ↔ s.Inside j := by
    intro j
    unfold SectionSys.Inside
    rw [hlock]
  have hold := h.data
  rw [runSections_opened] at hold
  refine ⟨closed, some (i, fs ++ [f]), ?_, ?_, fun j => ?_, ?_⟩
  · have horder := h.order
    rw [List.filterMap_append, ← horder]
    simp [Section.accesses, SectionOp.accessed]
  · rw [List.filterMap_append, ← h.unlocks]
    exact (List.append_nil _).symm
  · rw [hsame j, h.inside j]
    constructor
    · rintro ⟨gs, heq⟩
      cases heq
      exact ⟨_, rfl⟩
    · rintro ⟨gs, heq⟩
      cases heq
      exact ⟨_, rfl⟩
  · rw [hdata, hold, runSections_opened]
    exact (Section.run_snoc i fs f _).symm

/-- Whatever the order of the instructions, the accesses of a run are those of sections that
take place one after the other, each without interruption. -/
theorem spin_lock_serializes {ops : List (ι × SectionOp D L)} (hboot : SpinBoot s.lock)
    (hrun : Run (Interleave (SectionStep arch)) s ops t) :
    ∃ closed opened, Serialized s.data ops t closed opened := by
  have hstart : Serialized s.data [] s [] none := by
    refine ⟨rfl, rfl, fun i => ?_, rfl⟩
    unfold SectionSys.Inside
    rw [hboot.mode i]
    simp
  refine (hrun.invariant_labels (I := fun xs u => SpinInv arch u.lock ∧
    ∃ closed opened, Serialized s.data xs u closed opened) ?_ ⟨hboot.inv, [], none, hstart⟩).2
  rintro xs u ⟨i, op⟩ v ⟨hinv, closed, opened, h⟩ hs
  cases op with
  | spin op =>
      have hinv' := hinv.step (spin_of_section hs).1
      exact ⟨hinv', h.spin hinv' hs⟩
  | access f =>
      obtain ⟨_, hlock, _⟩ := access_of_section hs
      exact ⟨hlock ▸ hinv, h.access hs⟩

/-- Two CPUs on RISC-V increment a number; the second one waits for the first. -/
theorem spin_lock_serializes_increments :
    ∃ (s : SectionSys ℕ ℕ ℕ) (ops : List (ℕ × SectionOp ℕ ℕ)) (closed : List (Section ℕ ℕ ℕ))
      (opened : Option (Section ℕ ℕ ℕ)), s.data.1 = 2 ∧
      (ops.filterMap SectionOp.accessed).map Prod.fst = [0, 0, 1, 1] ∧
      Serialized (0, fun _ => 0) ops s closed opened := by
  let start : SectionSys ℕ ℕ ℕ :=
    ⟨(⟨0, fun _ => false⟩, 0), fun _ => (⟨.outside, ⟨0, fun _ => 0⟩, false⟩, 0)⟩
  let load : SectionOp ℕ ℕ := .access fun d _ => (d, d)
  let store : SectionOp ℕ ℕ := .access fun _ l => (l + 1, l)
  let exec : SectionOp ℕ ℕ := .spin (.exec true)
  let ops : List (ℕ × SectionOp ℕ ℕ) :=
    [(0, .spin (.lock fun _ => 0)), (0, exec), (0, exec), (0, .spin .ret), (0, load),
      (1, .spin (.lock fun _ => 0)), (1, exec), (1, exec), (0, store),
      (0, .spin (.unlock fun _ => 0)), (0, exec), (0, exec), (1, exec), (1, exec), (1, exec),
      (1, exec), (1, exec), (1, .spin .ret), (1, load), (1, store)]
  obtain ⟨s, hs, hdata⟩ := Option.map_eq_some_iff.mp (by decide :
    (ops.foldlM (Sys.move (sectionStep .riscv)) start).map (fun s => s.shared.2) = some 2)
  have hrun : Run (Interleave (SectionStep .riscv)) start ops s := Sys.run_of_foldlM hs
  have hboot : SpinBoot start.lock := ⟨rfl, fun _ => rfl, fun _ => rfl⟩
  obtain ⟨closed, opened, h⟩ := spin_lock_serializes hboot hrun
  exact ⟨s, ops, closed, opened, hdata, rfl, h⟩

end Steps

end Vectra

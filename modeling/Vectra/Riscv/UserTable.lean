import Vectra.Riscv.PageTree

/-!
# The page table of the user process

`create_user_process` builds a page table in a local array that it does not
clear. The walk trusts every valid bit in it, so what the process can reach
is decided by what the stack held before.
-/

namespace Vectra

open Lib

/-! ## The function -/

def pteU : ℕ := 16

def usercode : List (BitVec 8) :=
  [0x37, 0x05, 0x00, 0x10, 0x93, 0x05, 0x10, 0x06, 0x23, 0x00, 0xb5, 0x00, 0x23, 0x80, 0xb5, 0x00]

/-- `memcpy` of the bytes `src` to `dst`. -/
def memcpy (m : Bytes) (dst : ℕ) (src : List (BitVec 8)) : Bytes :=
  fun x => if dst ≤ x ∧ x < dst + src.length then src.getD (x - dst) 0#8 else m x

/-- What `create_user_process` hands to `enter_usermode`, and what its calls of
`vmm_map_page` returned. -/
structure UserProcess where
  code : ℕ
  mapped : Bool
  pmm : Pmm
  mem : Bytes

def createUserProcess (p : Pmm) (m : Bytes) (userPageTable trampolineStart : ℕ) :
    Option UserProcess :=
  match pmmAllocFrame p with
  | none => none
  | some (code, p) =>
      match vmmMapPage p (memcpy m code usercode) userPageTable code code
          (pageKernelExec ||| pteU) with
      | none => none
      | some (ok₁, p, m) =>
          match vmmMapPage p m userPageTable trampolineStart trampolineStart pageKernelExec with
          | none => none
          | some (ok₂, p, m) =>
              match vmmMapPage p m userPageTable 0x10000000 0x10000000
                  (pteR ||| pteW ||| pteU) with
              | none => none
              | some (ok₃, p, m) => some ⟨code, ok₁ && ok₂ && ok₃, p, m⟩

/-! ## Three pages -/

/-- The leaves of the three pages. -/
def userLeaf (code trampolineStart va : ℕ) : Option ℕ :=
  if pageBits va = pageBits 0x10000000 then some (leafEntry 0x10000000 (pteR ||| pteW ||| pteU))
  else if pageBits va = pageBits trampolineStart then
    some (leafEntry trampolineStart pageKernelExec)
  else if pageBits va = pageBits code then some (leafEntry code (pageKernelExec ||| pteU))
  else none

/-- What the kernel sees to before: the array is a page of the stack, and the
trampoline has an address. -/
structure UserSetup (p : Pmm) (userPageTable trampolineStart : ℕ) : Prop where
  pmm : ∃ slack, PmmInv slack p
  aligned : p.memPhysBase % pageSize = 0
  table_aligned : userPageTable % pageSize = 0
  table_pos : 0 < userPageTable
  table_lt : userPageTable < 2 ^ 64
  trampoline_lt : trampolineStart < 2 ^ 64

/-- The page of the array is none of the frames that were taken for the process. Nothing
reserves the stack, so it may be a clear frame before and after. -/
def ArrayUntaken (p : Pmm) (r : UserProcess) (userPageTable : ℕ) : Prop :=
  ∀ f < p.totalFrames, p.used f = false → r.pmm.used f = true → p.frameAddr f ≠ userPageTable

/-- The process has the three pages and nothing else. -/
def ThreePages (r : UserProcess) (userPageTable trampolineStart : ℕ) : Prop :=
  ∀ va, vmmLeaf r.pmm r.mem userPageTable va = userLeaf r.code trampolineStart va

theorem memcpy_out {m : Bytes} {dst x : ℕ} {src : List (BitVec 8)}
    (h : x < dst ∨ dst + src.length ≤ x) : memcpy m dst src x = m x := by
  unfold memcpy
  rw [if_neg (by omega)]

section Sufficient

variable {p : Pmm} {m : Bytes} {upt tramp : ℕ} {r : UserProcess}

/-- The code frame is apart from the array. -/
theorem UserSetup.memcpy_table (h : UserSetup p upt tramp)
    (htaken : ∀ f < p.totalFrames, p.used f = false → p.frameAddr f ≠ upt) {code : ℕ} {q : Pmm}
    (halloc : pmmAllocFrame p = some (code, q)) (i : Fin 512) :
    tableEntry (memcpy m code usercode) upt i = tableEntry m upt i := by
  obtain ⟨slack, hp⟩ := h.pmm
  have hlen : usercode.length = 16 := rfl
  have htable := h.table_aligned
  have hpos := h.table_pos
  apply tableEntry_congr
  intro x hlo hhi
  apply memcpy_out
  rw [hlen]
  unfold pageSize at *
  rcases hp.allocFrame_some halloc with ⟨rfl, _, _⟩ | ⟨f, hf, hclear, rfl, _⟩
  · omega
  · have hne := htaken f hf hclear
    have halign := h.aligned
    have hrange := hp.range
    unfold pageSize at halign hrange
    rw [hp.frameAddr_eq hf] at hne ⊢
    unfold pageSize at *
    omega

/-- With no valid bit in the array, and no clear frame in its place, the process has exactly
the three pages. -/
theorem createUserProcess_of_taken (h : UserSetup p upt tramp)
    (htaken : ∀ f < p.totalFrames, p.used f = false → p.frameAddr f ≠ upt)
    (heven : ∀ i, tableEntry m upt i % 2 = 0)
    (hs : createUserProcess p m upt tramp = some r) (hok : r.mapped = true) :
    ThreePages r upt tramp := by
  obtain ⟨slack, hp⟩ := h.pmm
  unfold createUserProcess at hs
  cases halloc : pmmAllocFrame p with
  | none => simp [halloc] at hs
  | some a =>
      obtain ⟨code, q⟩ := a
      simp only [halloc] at hs
      have htable := h.memcpy_table htaken (m := m) halloc
      have hq : PmmInv slack q ∧ Grown p q ∧ code < 2 ^ 64 := by
        rcases hp.allocFrame_some halloc with ⟨rfl, rfl, _⟩ | ⟨f, hf, hclear, rfl, rfl⟩
        · exact ⟨hp, Grown.refl _, by decide⟩
        · exact ⟨hp.takeFrame hf hclear, Grown.takeFrame p f, Nat.mod_lt _ (by decide)⟩
      obtain ⟨hqp, hg, hcode⟩ := hq
      have hstart : PageTables slack q (memcpy m code usercode) upt := by
        have hp' : PageTables slack p (memcpy m code usercode) upt :=
          .start hp h.aligned h.table_aligned h.table_lt htaken fun i => by
            rw [htable i]
            exact heven i
        exact hp'.grown hqp hg
      have hnone : ∀ va, vmmLeaf q (memcpy m code usercode) upt va = none :=
        vmmLeaf_of_even fun i => by
          rw [htable i]
          exact heven i
      cases hmap₁ : vmmMapPage q (memcpy m code usercode) upt code code
          (pageKernelExec ||| pteU) with
      | none => simp [hmap₁] at hs
      | some r₁ =>
          obtain ⟨ok₁, p₁, m₁⟩ := r₁
          simp only [hmap₁] at hs
          obtain ⟨h₁, _, _, hleaf₁⟩ := hstart.mapPage hcode (by decide) hmap₁
          cases hmap₂ : vmmMapPage p₁ m₁ upt tramp tramp pageKernelExec with
          | none => simp [hmap₂] at hs
          | some r₂ =>
              obtain ⟨ok₂, p₂, m₂⟩ := r₂
              simp only [hmap₂] at hs
              obtain ⟨h₂, _, _, hleaf₂⟩ := h₁.mapPage h.trampoline_lt (by decide) hmap₂
              cases hmap₃ : vmmMapPage p₂ m₂ upt 0x10000000 0x10000000
                  (pteR ||| pteW ||| pteU) with
              | none => simp [hmap₃] at hs
              | some r₃ =>
                  obtain ⟨ok₃, p₃, m₃⟩ := r₃
                  simp only [hmap₃, Option.some.injEq] at hs
                  obtain ⟨_, _, _, hleaf₃⟩ := h₂.mapPage (by decide) (by decide) hmap₃
                  rw [← hs] at hok ⊢
                  obtain ⟨hok₁₂, rfl⟩ := Bool.and_eq_true_iff.mp hok
                  obtain ⟨rfl, rfl⟩ := Bool.and_eq_true_iff.mp hok₁₂
                  intro va
                  change vmmLeaf p₃ m₃ upt va = userLeaf code tramp va
                  rw [hleaf₃, hleaf₂, hleaf₁, hnone]
                  simp only [true_and]
                  rfl

end Sufficient

/-! ## Calls that only take frames -/

section Taking

variable {a pte t va pa flags : ℕ} {p q : Pmm} {m n : Bytes} {x : Option ℕ} {alloc ok : Bool}

theorem allocFrame_grown (hs : pmmAllocFrame p = some (a, q)) : Grown p q := by
  unfold pmmAllocFrame at hs
  split at hs
  · cases hs
  · split at hs
    · cases hs
      exact .takeFrame p _
    · split at hs
      · cases hs
        exact .takeFrame p _
      · cases hs
        exact .refl p

theorem walkLevel_grown (hs : vmmWalkLevel p m pte alloc = some (x, q, n)) : Grown p q := by
  unfold vmmWalkLevel at hs
  split at hs
  · split at hs
    · cases halloc : pmmAllocFrame p with
      | none => simp [halloc] at hs
      | some s =>
          have hg := allocFrame_grown (a := s.1) (q := s.2) halloc
          simp only [halloc] at hs
          split at hs
          · cases hs
            exact hg
          · cases hs
            exact hg
    · cases hs
      exact .refl p
  · cases hs
    exact .refl p

theorem walk_grown (hs : vmmWalk p m t va alloc = some (x, q, n)) : Grown p q := by
  unfold vmmWalk at hs
  cases hl2 : vmmWalkLevel p m (t + 8 * vpn2 va) alloc with
  | none => simp [hl2] at hs
  | some r =>
      obtain ⟨t1, p1, m1⟩ := r
      have hg1 := walkLevel_grown hl2
      cases t1 with
      | none =>
          simp only [hl2] at hs
          cases hs
          exact hg1
      | some t1 =>
          simp only [hl2] at hs
          cases hl1 : vmmWalkLevel p1 m1 (t1 + 8 * vpn1 va) alloc with
          | none => simp [hl1] at hs
          | some r =>
              obtain ⟨t0, p2, m2⟩ := r
              have hg2 := walkLevel_grown hl1
              cases t0 with
              | none =>
                  simp only [hl1] at hs
                  cases hs
                  exact hg1.trans hg2
              | some t0 =>
                  simp only [hl1] at hs
                  cases hs
                  exact hg1.trans hg2

theorem mapPage_grown (hs : vmmMapPage p m t va pa flags = some (ok, q, n)) : Grown p q := by
  unfold vmmMapPage at hs
  split at hs
  · cases hs
    exact .refl p
  · cases hwalk : vmmWalk p m t va true with
    | none => simp [hwalk] at hs
    | some r =>
        obtain ⟨x, p1, m1⟩ := r
        have hg := walk_grown hwalk
        cases x with
        | none =>
            simp only [hwalk] at hs
            cases hs
            exact hg
        | some pte =>
            simp only [hwalk] at hs
            cases hs
            exact hg

/-- A frame that is clear at the end was clear before. -/
theorem Grown.clear (hg : Grown p q) {f : ℕ} (hf : q.used f = false) : p.used f = false := by
  by_contra hset
  rw [hg.2 f (by simpa using hset)] at hf
  cases hf

end Taking

/-! ## A frame that is held back

As long as a clear frame is not taken, the allocator does what it would do if the frame were
used. So the array may lie in a clear frame that the process does not get.
-/

/-- `p'` is `p` with the clear frame `f` marked as used. -/
structure HeldBack (slack f : ℕ) (p p' : Pmm) : Prop where
  inv : PmmInv slack p'
  range : SameRange p p'
  cursor : p'.lastFreeIndex = p.lastFreeIndex
  lt : f < p.totalFrames
  clear : p.used f = false
  used : ∀ j, p'.used j = (decide (j = f) || p.used j)
  count : p.freeFrames = p'.freeFrames + 1

namespace HeldBack

variable {slack f a pte t va pa flags upt tramp : ℕ} {p p' q : Pmm} {m n : Bytes} {x : Option ℕ}
  {ok : Bool} {r : UserProcess}

theorem reserve (hp : PmmInv slack p) (hf : f < p.totalFrames) (hclear : p.used f = false) :
    HeldBack slack f p (reserveBit p f) := by
  have hpos : 0 < p.freeFrames := by
    have hcard := PmmInv.clear_pos hf hclear
    have hcount := hp.count
    omega
  refine ⟨hp.reserveBit hf, reserveBit_sameRange p f, reserveBit_lastFreeIndex p f, hf, hclear,
    reserveBit_used p f, ?_⟩
  simp only [reserveBit, hclear, Bool.not_false, if_true, if_pos hpos]
  omega

/-- Both take the same other frame. -/
theorem takeFrame (h : HeldBack slack f p p') {i : ℕ} (hi : i < p.totalFrames)
    (hclear : p.used i = false) (hne : i ≠ f) :
    p'.frameAddr i = p.frameAddr i ∧
      HeldBack slack f (Vectra.takeFrame p i) (Vectra.takeFrame p' i) := by
  have hclear' : p'.used i = false := by
    rw [h.used, hclear, decide_eq_false hne]
    rfl
  have hi' : i < p'.totalFrames := by
    rw [h.range.2]
    exact hi
  have hpos := PmmInv.clear_pos hi' hclear'
  have hcount := h.inv.count
  have hfree := h.count
  refine ⟨h.range.frameAddr i, h.inv.takeFrame hi' hclear', ⟨h.range.1, h.range.2⟩, rfl,
    h.lt, ?_, fun j => ?_, ?_⟩
  · rw [takeFrame_used, h.clear, decide_eq_false (Ne.symm hne)]
    rfl
  · rw [takeFrame_used, takeFrame_used, h.used, Bool.or_left_comm]
  · change p.freeFrames - 1 = p'.freeFrames - 1 + 1
    omega

theorem allocFrame (h : HeldBack slack f p p')
    (hs : pmmAllocFrame p = some (a, q)) (hq : q.used f = false) :
    ∃ q', pmmAllocFrame p' = some (a, q') ∧ HeldBack slack f q q' := by
  have hcursor : p.lastFreeIndex ≤ p.totalFrames := by
    rw [← h.cursor, ← h.range.2]
    exact h.inv.cursor
  have hscan : ∀ lo n i, firstFrom (fun i => !p.used i) lo n = some i → i ≠ f →
      firstFrom (fun i => !p'.used i) lo n = some i := by
    intro lo n i hi hne
    obtain ⟨hlo, hhi, hclear, hmin⟩ := firstFrom_sound hi
    refine firstFrom_eq_some hlo hhi ?_ fun j hj hlt => ?_
    · rw [h.used, decide_eq_false hne]
      exact hclear
    · rw [h.used, Bool.not_or, hmin j hj hlt, Bool.and_false]
  have hnone : ∀ lo n, firstFrom (fun i => !p.used i) lo n = none →
      firstFrom (fun i => !p'.used i) lo n = none := by
    intro lo n hn
    rw [firstFrom_eq_none_iff] at hn ⊢
    intro j hj hlt
    rw [h.used, Bool.not_or, hn j hj hlt, Bool.and_false]
  -- the frame that is taken is another one, and it is clear in both
  have htake : ∀ i, i < p.totalFrames → (!p.used i) = true → q = Vectra.takeFrame p i → i ≠ f ∧
      p'.freeFrames ≠ 0 ∧ p'.frameAddr i = p.frameAddr i ∧
        HeldBack slack f q (Vectra.takeFrame p' i) := by
    rintro i hi hclear rfl
    have hclear : p.used i = false := by simpa using hclear
    have hne : i ≠ f := by
      rintro rfl
      rw [takeFrame_used, decide_eq_true rfl] at hq
      cases hq
    obtain ⟨haddr, hheld⟩ := h.takeFrame hi hclear hne
    have hpos : 0 < p'.clearFrames.card := by
      refine PmmInv.clear_pos (i := i) (by rw [h.range.2]; exact hi) ?_
      rw [h.used, hclear, decide_eq_false hne]
      rfl
    have hcount := h.inv.count
    exact ⟨hne, by omega, haddr, hheld⟩
  unfold pmmAllocFrame at hs
  split at hs
  · cases hs
  · split at hs
    · rename_i i hfwd
      cases hs
      obtain ⟨_, hhi, hclear, _⟩ := firstFrom_sound hfwd
      obtain ⟨hne, hfree, haddr, hheld⟩ := htake i (by omega) hclear rfl
      refine ⟨_, ?_, hheld⟩
      simp only [pmmAllocFrame, if_neg hfree, h.cursor, h.range.2, hscan _ _ i hfwd hne, haddr]
    · rename_i hfwd
      split at hs
      · rename_i i hwrap
        cases hs
        obtain ⟨_, hhi, hclear, _⟩ := firstFrom_sound hwrap
        obtain ⟨hne, hfree, haddr, hheld⟩ := htake i (by omega) hclear rfl
        refine ⟨_, ?_, hheld⟩
        simp only [pmmAllocFrame, if_neg hfree, h.cursor, h.range.2, hnone _ _ hfwd,
          hscan _ _ i hwrap hne, haddr]
      · -- the clear frame itself would have been found
        rename_i hwrap
        have hlt := h.lt
        have hset : (!p.used f) = false := by
          rcases Nat.lt_or_ge f p.lastFreeIndex with hlow | hhigh
          · exact firstFrom_eq_none_iff.mp hwrap f (Nat.zero_le f) (by omega)
          · exact firstFrom_eq_none_iff.mp hfwd f hhigh (by omega)
        rw [h.clear] at hset
        cases hset

theorem level (h : HeldBack slack f p p')
    (hs : vmmWalkLevel p m pte true = some (x, q, n)) (hq : q.used f = false) :
    ∃ q', vmmWalkLevel p' m pte true = some (x, q', n) ∧ HeldBack slack f q q' := by
  unfold vmmWalkLevel at hs ⊢
  by_cases heven : readLE m pte 8 &&& pteV = 0
  · simp only [if_pos heven, if_true] at hs ⊢
    cases halloc : pmmAllocFrame p with
    | none => simp [halloc] at hs
    | some s =>
        obtain ⟨a, u⟩ := s
        simp only [halloc] at hs
        have hu : u = q := by
          split at hs
          · cases hs
            rfl
          · cases hs
            rfl
        subst hu
        obtain ⟨u', halloc', hheld⟩ := h.allocFrame halloc hq
        rw [halloc']
        refine ⟨u', ?_, hheld⟩
        dsimp only
        split at hs
        · rename_i hzero
          cases hs
          rw [if_pos hzero]
        · rename_i hzero
          cases hs
          rw [if_neg hzero]
  · simp only [if_neg heven] at hs ⊢
    cases hs
    exact ⟨p', rfl, h⟩

theorem walk (h : HeldBack slack f p p') (hs : vmmWalk p m t va true = some (x, q, n))
    (hq : q.used f = false) :
    ∃ q', vmmWalk p' m t va true = some (x, q', n) ∧ HeldBack slack f q q' := by
  unfold vmmWalk at hs ⊢
  cases hl2 : vmmWalkLevel p m (t + 8 * vpn2 va) true with
  | none => simp [hl2] at hs
  | some r =>
      obtain ⟨t1, p1, m1⟩ := r
      cases t1 with
      | none =>
          simp only [hl2] at hs
          cases hs
          obtain ⟨q', hl2', hheld⟩ := h.level hl2 hq
          simp only [hl2']
          exact ⟨q', rfl, hheld⟩
      | some t1 =>
          simp only [hl2] at hs
          cases hl1 : vmmWalkLevel p1 m1 (t1 + 8 * vpn1 va) true with
          | none => simp [hl1] at hs
          | some r =>
              obtain ⟨t0, p2, m2⟩ := r
              have hq2 : p2 = q := by
                cases t0 with
                | none =>
                    simp only [hl1] at hs
                    cases hs
                    rfl
                | some t0 =>
                    simp only [hl1] at hs
                    cases hs
                    rfl
              subst hq2
              obtain ⟨p1', hl2', hheld1⟩ := h.level hl2 ((walkLevel_grown hl1).clear hq)
              obtain ⟨p2', hl1', hheld2⟩ := hheld1.level hl1 hq
              simp only [hl2', hl1']
              cases t0 with
              | none =>
                  simp only [hl1] at hs
                  cases hs
                  exact ⟨p2', rfl, hheld2⟩
              | some t0 =>
                  simp only [hl1] at hs
                  cases hs
                  exact ⟨p2', rfl, hheld2⟩

theorem mapPage (h : HeldBack slack f p p')
    (hs : vmmMapPage p m t va pa flags = some (ok, q, n)) (hq : q.used f = false) :
    ∃ q', vmmMapPage p' m t va pa flags = some (ok, q', n) ∧ HeldBack slack f q q' := by
  unfold vmmMapPage at hs ⊢
  by_cases halign : va % pageSize ≠ 0 ∨ pa % pageSize ≠ 0
  · rw [if_pos halign] at hs ⊢
    cases hs
    exact ⟨p', rfl, h⟩
  · rw [if_neg halign] at hs ⊢
    cases hwalk : vmmWalk p m t va true with
    | none => simp [hwalk] at hs
    | some r =>
        obtain ⟨x, p1, m1⟩ := r
        cases x with
        | none =>
            simp only [hwalk] at hs
            cases hs
            obtain ⟨q', hwalk', hheld⟩ := h.walk hwalk hq
            simp only [hwalk']
            exact ⟨q', rfl, hheld⟩
        | some pte =>
            simp only [hwalk] at hs
            cases hs
            obtain ⟨q', hwalk', hheld⟩ := h.walk hwalk hq
            simp only [hwalk']
            exact ⟨q', rfl, hheld⟩

/-- The process does not change when a frame that it does not take is held back. -/
theorem createUserProcess (h : HeldBack slack f p p')
    (hs : Vectra.createUserProcess p m upt tramp = some r) (hr : r.pmm.used f = false) :
    ∃ q', Vectra.createUserProcess p' m upt tramp = some { r with pmm := q' } := by
  unfold Vectra.createUserProcess at hs ⊢
  cases halloc : pmmAllocFrame p with
  | none => simp [halloc] at hs
  | some a =>
      obtain ⟨code, q⟩ := a
      simp only [halloc] at hs
      cases hmap₁ : vmmMapPage q (memcpy m code usercode) upt code code
          (pageKernelExec ||| pteU) with
      | none => simp [hmap₁] at hs
      | some r₁ =>
          obtain ⟨ok₁, p₁, m₁⟩ := r₁
          simp only [hmap₁] at hs
          cases hmap₂ : vmmMapPage p₁ m₁ upt tramp tramp pageKernelExec with
          | none => simp [hmap₂] at hs
          | some r₂ =>
              obtain ⟨ok₂, p₂, m₂⟩ := r₂
              simp only [hmap₂] at hs
              cases hmap₃ : vmmMapPage p₂ m₂ upt 0x10000000 0x10000000
                  (pteR ||| pteW ||| pteU) with
              | none => simp [hmap₃] at hs
              | some r₃ =>
                  obtain ⟨ok₃, p₃, m₃⟩ := r₃
                  simp only [hmap₃, Option.some.injEq] at hs
                  subst hs
                  have hclear₂ := (mapPage_grown hmap₃).clear hr
                  have hclear₁ := (mapPage_grown hmap₂).clear hclear₂
                  obtain ⟨q', halloc', hheld⟩ :=
                    h.allocFrame halloc ((mapPage_grown hmap₁).clear hclear₁)
                  obtain ⟨p₁', hmap₁', hheld₁⟩ := hheld.mapPage hmap₁ hclear₁
                  obtain ⟨p₂', hmap₂', hheld₂⟩ := hheld₁.mapPage hmap₂ hclear₂
                  obtain ⟨p₃', hmap₃', _⟩ := hheld₂.mapPage hmap₃ hr
                  simp only [halloc', hmap₁', hmap₂', hmap₃']
                  exact ⟨p₃', rfl⟩

end HeldBack

/-- With no valid bit in the array the process has exactly the three pages, if it does not get
the page of the array. -/
theorem createUserProcess_threePages {p : Pmm} {m : Bytes} {upt tramp : ℕ} {r : UserProcess}
    (h : UserSetup p upt tramp) (huntaken : ArrayUntaken p r upt)
    (heven : ∀ i, tableEntry m upt i % 2 = 0)
    (hs : createUserProcess p m upt tramp = some r) (hok : r.mapped = true) :
    ThreePages r upt tramp := by
  by_cases htaken : ∀ f < p.totalFrames, p.used f = false → p.frameAddr f ≠ upt
  · exact createUserProcess_of_taken h htaken heven hs hok
  · push Not at htaken
    obtain ⟨f, hf, hclear, haddr⟩ := htaken
    obtain ⟨slack, hp⟩ := h.pmm
    have hheld := HeldBack.reserve hp hf hclear
    have hend : r.pmm.used f = false := by
      by_contra hset
      exact huntaken f hf hclear (by simpa using hset) haddr
    obtain ⟨q', hs'⟩ := hheld.createUserProcess hs hend
    have hsetup : UserSetup (reserveBit p f) upt tramp :=
      { h with
        pmm := ⟨slack, hheld.inv⟩
        aligned := by
          rw [hheld.range.1]
          exact h.aligned }
    have htaken' : ∀ g < (reserveBit p f).totalFrames, (reserveBit p f).used g = false →
        (reserveBit p f).frameAddr g ≠ upt := by
      intro g hg hgclear heq
      rw [hheld.used, Bool.or_eq_false_iff, decide_eq_false_iff_not] at hgclear
      rw [hheld.range.2] at hg
      rw [hheld.range.frameAddr, ← haddr, frameAddr_inj hp hg hf] at heq
      exact hgclear.1 heq
    have hthree := createUserProcess_of_taken hsetup htaken' heven hs' hok
    intro va
    rw [← hthree va, vmmLeaf_eq, vmmLeaf_eq]

/-! ## A valid bit in the array

One stale valid entry is enough for a fourth page: the rest of memory may be
such that every entry behind it is valid as well, and stays so.
-/

/-- Eight free frames at `base`. -/
def userPool (base : ℕ) : Pmm := ⟨fun _ => 0#8, 8, 8, base, 0⟩

/-- A page that is neither the array at `0x70000000` nor a frame that is allocated
after the code frame, the first of the pool. -/
def FullPage (base q : ℕ) : Prop :=
  q % 4096 = 0 ∧ q < 2 ^ 64 ∧ q ≠ 0x70000000 ∧ (q < base + 4096 ∨ base + 8 * 4096 ≤ q)

/-- Entry `i` of the array is valid, and so is every entry of every full page; none
of them leads into the frames that are still free. -/
structure Trusting (base : ℕ) (i : Fin 512) (m : Bytes) : Prop where
  valid : tableEntry m 0x70000000 i % 2 = 1
  target : pteToPa (tableEntry m 0x70000000 i) = 0x70000000 ∨
    FullPage base (pteToPa (tableEntry m 0x70000000 i))
  full : ∀ q, FullPage base q → ∀ j,
    tableEntry m q j % 2 = 1 ∧ FullPage base (pteToPa (tableEntry m q j))

/-- The pool with `n` free frames, the first one used. -/
structure PoolLeft (base n : ℕ) (p : Pmm) : Prop where
  pmm : PmmInv 0 p
  base_eq : p.memPhysBase = base
  total_eq : p.totalFrames = 8
  first : p.used 0 = true
  left : n ≤ p.clearFrames.card

namespace Trusting

variable {base n t e va pa flags : ℕ} {i j : Fin 512} {p : Pmm} {m : Bytes}

theorem write_leaf (h : Trusting base i m) (ht : t % pageSize = 0) (he : e < 2 ^ 64)
    (hodd : e % 2 = 1) (hfull : FullPage base (pteToPa e)) :
    Trusting base i (writeLE m (t + 8 * j.val) 8 e) := by
  have hroot : (0x70000000 : ℕ) % pageSize = 0 := by decide
  refine ⟨?_, ?_, ?_⟩
  · rw [tableEntry_write ht hroot he]
    split
    · exact hodd
    · exact h.valid
  · rw [tableEntry_write ht hroot he]
    split
    · exact Or.inr hfull
    · exact h.target
  · intro q hq k
    rw [tableEntry_write ht hq.1 he]
    split
    · exact ⟨hodd, hfull⟩
    · exact h.full q hq k

/-- An invalid entry lies elsewhere. -/
theorem write_even (h : Trusting base i m) (ht : t % pageSize = 0) (he : e < 2 ^ 64)
    (heven : tableEntry m t j % 2 = 0) : Trusting base i (writeLE m (t + 8 * j.val) 8 e) := by
  have hroot : (0x70000000 : ℕ) % pageSize = 0 := by decide
  have hother : ¬ ((0x70000000 : ℕ) = t ∧ i = j) := by
    rintro ⟨rfl, rfl⟩
    have hvalid := h.valid
    omega
  refine ⟨?_, ?_, ?_⟩
  · rw [tableEntry_write ht hroot he, if_neg hother]
    exact h.valid
  · rw [tableEntry_write ht hroot he, if_neg hother]
    exact h.target
  · intro q hq k
    have hne : ¬ (q = t ∧ k = j) := by
      rintro ⟨rfl, rfl⟩
      have hvalid := (h.full q hq k).1
      omega
    rw [tableEntry_write ht hq.1 he, if_neg hne]
    exact h.full q hq k

theorem fill (h : Trusting base i m) (ht : t % pageSize = 0) (hroot : t ≠ 0x70000000)
    (hnot : ¬ FullPage base t) : Trusting base i (fill m t 0#8 pageSize) := by
  have hpage : (0x70000000 : ℕ) % pageSize = 0 := by decide
  refine ⟨?_, ?_, ?_⟩
  · rw [tableEntry_fill ht hpage, if_neg (Ne.symm hroot)]
    exact h.valid
  · rw [tableEntry_fill ht hpage, if_neg (Ne.symm hroot)]
    exact h.target
  · intro q hq k
    have hne : q ≠ t := fun heq => hnot (heq ▸ hq)
    rw [tableEntry_fill ht hq.1, if_neg hne]
    exact h.full q hq k

end Trusting

/-- The addresses at which the pool may start. -/
def PoolBase (base : ℕ) : Prop := base = 0x80000000 ∨ base = 0x90000000

namespace PoolLeft

variable {base n : ℕ} {p : Pmm}

theorem mono (h : PoolLeft base (n + 1) p) : PoolLeft base n p :=
  { h with left := by have := h.left; omega }

theorem alloc (h : PoolLeft base (n + 1) p) :
    ∃ f, 0 < f ∧ f < 8 ∧ pmmAllocFrame p = some (base + f * 4096, takeFrame p f) ∧
      PoolLeft base n (takeFrame p f) := by
  have hsome : ∃ f < p.totalFrames, p.used f = false := by
    obtain ⟨f, hf⟩ := Finset.card_pos.mp (Nat.lt_of_lt_of_le (Nat.succ_pos n) h.left)
    exact ⟨f, (p.mem_clearFrames f).mp hf⟩
  obtain ⟨g, hg, hgclear⟩ := hsome
  have hfull : ¬ ∀ i < p.totalFrames, p.used i = true := by
    intro hall
    rw [hall g hg] at hgclear
    cases hgclear
  rcases h.pmm.allocFrame_cases with ⟨_, _, hall⟩ | ⟨_, hall⟩ | ⟨f, hf, hclear, halloc⟩
  · exact absurd hall hfull
  · exact absurd hall hfull
  · have hne : f ≠ 0 := by
      rintro rfl
      rw [h.first] at hclear
      cases hclear
    have hcard := PmmInv.clearFrames_take hf hclear (t := takeFrame p f) rfl (takeFrame_used p f)
    have hleft := h.left
    rw [h.pmm.frameAddr_eq hf, h.base_eq] at halloc
    refine ⟨f, Nat.pos_of_ne_zero hne, by rw [← h.total_eq]; exact hf, halloc,
      h.pmm.takeFrame hf hclear, h.base_eq, h.total_eq, ?_, by omega⟩
    rw [takeFrame_used, h.first, Bool.or_true]

end PoolLeft

namespace Trusting

variable {base n t va pa flags : ℕ} {i j : Fin 512} {p : Pmm} {m : Bytes}

/-- A level of the walk keeps trusting what it finds. -/
theorem level (h : Trusting base i m) (hp : PoolLeft base (n + 1) p) (hbase : PoolBase base)
    (ht : t % pageSize = 0) :
    ∃ u p' m', vmmWalkLevel p m (t + 8 * j.val) true = some (some u, p', m') ∧
      u % pageSize = 0 ∧ Trusting base i m' ∧ PoolLeft base n p' := by
  by_cases heven : tableEntry m t j % 2 = 0
  · obtain ⟨f, hf, hf8, halloc, hleft⟩ := hp.alloc
    have hpage : (base + f * 4096) % pageSize = 0 := by
      unfold pageSize
      rcases hbase with rfl | rfl <;> omega
    have hlt : base + f * 4096 < 2 ^ 64 := by
      rcases hbase with rfl | rfl <;> omega
    have hroot : base + f * 4096 ≠ 0x70000000 := by
      rcases hbase with rfl | rfl <;> omega
    have hnot : ¬ FullPage base (base + f * 4096) := by
      rintro ⟨_, _, _, hout⟩
      omega
    have hfill := h.fill hpage hroot hnot
    have heven' : tableEntry (Lib.fill m (base + f * 4096) 0#8 pageSize) t j % 2 = 0 := by
      rw [tableEntry_fill hpage ht]
      split
      · rfl
      · exact heven
    refine ⟨base + f * 4096, takeFrame p f, _, ?_, hpage,
      hfill.write_even ht (nodeEntry_spec hpage hlt).1 heven', hleft⟩
    have hne : base + f * 4096 ≠ 0 := by omega
    have hinvalid : readLE m (t + 8 * j.val) 8 &&& pteV = 0 := (valid_iff _).mpr heven
    unfold vmmWalkLevel
    rw [if_pos hinvalid, if_pos rfl, halloc]
    exact if_neg hne
  · refine ⟨pteToPa (tableEntry m t j), p, m, ?_, ?_, h, hp.mono⟩
    · have hvalid : ¬ readLE m (t + 8 * j.val) 8 &&& pteV = 0 :=
        fun hz => heven ((valid_iff _).mp hz)
      unfold vmmWalkLevel
      rw [if_neg hvalid]
      rfl
    · unfold pteToPa pageSize
      rw [Nat.shiftLeft_eq]
      omega

/-- A mapping succeeds, and leaves the valid entries valid. -/
theorem mapPage (h : Trusting base i m) (hp : PoolLeft base (n + 2) p) (hbase : PoolBase base)
    (hva : va % pageSize = 0) (hpa : FullPage base pa) (hflags : flags < 1024) :
    ∃ p' m', vmmMapPage p m 0x70000000 va pa flags = some (true, p', m') ∧
      Trusting base i m' ∧ PoolLeft base n p' := by
  obtain ⟨t₁, p₁, m₁, hl2, ht₁, h₁, hp₁⟩ :=
    h.level (j := ⟨vpn2 va, (vpn_lt va).1⟩) hp hbase (by decide : 0x70000000 % pageSize = 0)
  obtain ⟨t₀, p₀, m₀, hl1, ht₀, h₀, hp₀⟩ :=
    h₁.level (j := ⟨vpn1 va, (vpn_lt va).2.1⟩) hp₁ hbase ht₁
  obtain ⟨hentry, hor, hodd⟩ := leafEntry_eq hpa.2.1 hflags
  have hlt := (pteLeaf_leafEntry hpa.2.1 hflags).1
  have htarget : pteToPa (leafEntry pa flags) = pa := by
    rw [leafEntry, Nat.or_assoc]
    exact pteToPa_entry hpa.2.1 hpa.1 hor
  refine ⟨p₀, _, ?_, h₀.write_leaf (j := vpnLast va) ht₀ hlt (by omega)
    (by rw [htarget]; exact hpa),
    hp₀⟩
  have halign : ¬ (va % pageSize ≠ 0 ∨ pa % pageSize ≠ 0) := by
    rintro (hne | hne)
    · exact hne hva
    · exact hne hpa.1
  have hwalk : vmmWalk p m 0x70000000 va true = some (some (t₀ + 8 * vpn0 va), p₀, m₀) := by
    unfold vmmWalk
    simp only [hl2, hl1]
  unfold vmmMapPage
  rw [if_neg halign, hwalk]
  rfl

/-- Three valid entries translate a page. -/
theorem leaf_ne_none (h : Trusting base i m) {k : Fin 512} (hpath : vpnPath va = [i, j])
    (hlast : vpnLast va = k)
    (hodd₁ : tableEntry m (pteToPa (tableEntry m 0x70000000 i)) j % 2 = 1)
    (hodd₀ : tableEntry m (pteToPa (tableEntry m (pteToPa (tableEntry m 0x70000000 i)) j)) k % 2 =
      1) : vmmLeaf p m 0x70000000 va ≠ none := by
  have hstep : ∀ e, e % 2 = 1 → pteTable e = some (pteToPa e) := by
    intro e hodd
    refine if_neg fun hz => ?_
    rw [valid_iff] at hz
    omega
  have hat : pageTableAt m 0x70000000 [i, j] =
      some (pteToPa (tableEntry m (pteToPa (tableEntry m 0x70000000 i)) j)) := by
    rw [pageTableAt_eq, tableAt, hstep _ h.valid, Option.bind_some, tableAt, hstep _ hodd₁]
    rfl
  rw [vmmLeaf_eq, hpath, hlast]
  rw [pageLookup_eq, hat, Option.bind_some, Ne, pteLeaf_eq_none, hstep _ hodd₀]
  exact Option.some_ne_none _

end Trusting

/-- The address with the given indices. -/
def addressOf (i j k : Fin 512) : ℕ := i.val * 2 ^ 30 + j.val * 2 ^ 21 + k.val * 2 ^ 12

theorem vpn_addressOf (i j k : Fin 512) :
    vpnPath (addressOf i j k) = [i, j] ∧ vpnLast (addressOf i j k) = k ∧
      pageBits (addressOf i j k) = i.val * 2 ^ 18 + j.val * 2 ^ 9 + k.val := by
  have hi := i.isLt
  have hj := j.isLt
  have hk := k.isLt
  have h2 : vpn2 (addressOf i j k) = i.val := by
    rw [vpn2_eq, addressOf]
    omega
  have h1 : vpn1 (addressOf i j k) = j.val := by
    rw [vpn1_eq, addressOf]
    omega
  have h0 : vpn0 (addressOf i j k) = k.val := by
    rw [vpn0_eq, addressOf]
    omega
  refine ⟨?_, Fin.ext h0, ?_⟩
  · unfold vpnPath
    rw [show (⟨vpn2 (addressOf i j k), (vpn_lt _).1⟩ : Fin 512) = i from Fin.ext h2,
      show (⟨vpn1 (addressOf i j k), (vpn_lt _).2.1⟩ : Fin 512) = j from Fin.ext h1]
  · unfold pageBits addressOf
    omega

/-- A page besides the three is translated. -/
theorem Trusting.fourth_page {base : ℕ} {i : Fin 512} {m : Bytes} (h : Trusting base i m)
    (hbase : PoolBase base) (p : Pmm) :
    ∃ va, vmmLeaf p m 0x70000000 va ≠ none ∧ userLeaf base 0x60000000 va = none := by
  have hi := i.isLt
  have hbits : ∀ j k : Fin 512, i.val * 2 ^ 18 + j.val * 2 ^ 9 + k.val ≠ 65536 →
      i.val * 2 ^ 18 + j.val * 2 ^ 9 + k.val ≠ 393216 →
      i.val * 2 ^ 18 + j.val * 2 ^ 9 + k.val ≠ pageBits base →
      userLeaf base 0x60000000 (addressOf i j k) = none := by
    intro j k h₁ h₂ h₃
    rw [← (vpn_addressOf i j k).2.2] at h₁ h₂ h₃
    have huart : pageBits 0x10000000 = 65536 := rfl
    have htramp : pageBits 0x60000000 = 393216 := rfl
    unfold userLeaf
    rw [huart, htramp, if_neg h₁, if_neg h₂, if_neg h₃]
  have hpool : pageBits base = 524288 ∨ pageBits base = 589824 := by
    rcases hbase with rfl | rfl
    · exact Or.inl rfl
    · exact Or.inr rfl
  rcases h.target with hself | hfull
  · -- the array is its own table
    obtain ⟨hpath, hlast, _⟩ := vpn_addressOf i i i
    refine ⟨addressOf i i i, h.leaf_ne_none hpath hlast ?_ ?_, hbits i i ?_ ?_ ?_⟩
    · rw [hself]
      exact h.valid
    · rw [hself, hself]
      exact h.valid
    · omega
    · omega
    · omega
  · obtain ⟨hodd₁, hfull₁⟩ := h.full _ hfull 0
    obtain ⟨hpath, hlast, _⟩ := vpn_addressOf i 0 1
    refine ⟨addressOf i 0 1, h.leaf_ne_none hpath hlast hodd₁ (h.full _ hfull₁ 1).1,
      hbits 0 1 ?_ ?_ ?_⟩
    · simp only [Fin.val_zero, Fin.val_one]
      omega
    · simp only [Fin.val_zero, Fin.val_one]
      omega
    · simp only [Fin.val_zero, Fin.val_one]
      omega

/-- The stale array at `0x70000000`, and everywhere else valid entries that lead to
the page of the trampoline. -/
def staleMem (stale : Fin 512 → BitVec 64) : Bytes := fun x =>
  if h : 0x70000000 ≤ x ∧ x < 0x70000000 + 4096 then
    BitVec.ofNat 8 ((stale ⟨(x - 0x70000000) / 8, by omega⟩).toNat / 256 ^ (x % 8))
  else BitVec.ofNat 8 (leafEntry 0x60000000 0 / 256 ^ (x % 8))

section StaleMem

variable {stale : Fin 512 → BitVec 64} {base q : ℕ} {m : Bytes} {i j : Fin 512}

theorem staleMem_table (j : Fin 512) :
    tableEntry (staleMem stale) 0x70000000 j = (stale j).toNat := by
  have hj := j.isLt
  have hread : readLE (staleMem stale) (0x70000000 + 8 * j.val) 8 = (stale j).toNat % 256 ^ 8 := by
    apply readLE_of_bytes
    intro k hk
    have hin : 0x70000000 ≤ 0x70000000 + 8 * j.val + k ∧
        0x70000000 + 8 * j.val + k < 0x70000000 + 4096 := by omega
    have hidx : (⟨(0x70000000 + 8 * j.val + k - 0x70000000) / 8, by omega⟩ : Fin 512) = j :=
      Fin.ext (by change _ / 8 = _; omega)
    have hmod : (0x70000000 + 8 * j.val + k) % 8 = k := by omega
    unfold staleMem
    rw [dif_pos hin, hidx, hmod]
  have hlt : (stale j).toNat < 256 ^ 8 := lt_of_lt_of_eq (stale j).isLt (by norm_num)
  unfold tableEntry
  rw [hread, Nat.mod_eq_of_lt hlt]

theorem staleMem_full (hq : q % 4096 = 0) (hne : q ≠ 0x70000000) (j : Fin 512) :
    tableEntry (staleMem stale) q j = leafEntry 0x60000000 0 := by
  have hj := j.isLt
  have hread : readLE (staleMem stale) (q + 8 * j.val) 8 = leafEntry 0x60000000 0 % 256 ^ 8 := by
    apply readLE_of_bytes
    intro k hk
    have hout : ¬ (0x70000000 ≤ q + 8 * j.val + k ∧ q + 8 * j.val + k < 0x70000000 + 4096) := by
      omega
    have hmod : (q + 8 * j.val + k) % 8 = k := by omega
    unfold staleMem
    rw [dif_neg hout, hmod]
  unfold tableEntry
  rw [hread]
  decide

/-- The code covers the first two words of its page. -/
theorem memcpy_entry (hbase : base % 4096 = 0) (hq : q % 4096 = 0) (j : Fin 512) :
    tableEntry (memcpy m base usercode) q j = 0x0610059310000537 ∨
      tableEntry (memcpy m base usercode) q j = 0x00b5802300b50023 ∨
      tableEntry (memcpy m base usercode) q j = tableEntry m q j := by
  have hj := j.isLt
  have hlen : usercode.length = 16 := rfl
  by_cases hcode : q = base ∧ j.val < 2
  · obtain ⟨rfl, hj2⟩ := hcode
    have hbyte : ∀ k, k < 16 → memcpy m q usercode (q + k) = usercode.getD k 0#8 := by
      intro k hk
      unfold memcpy
      rw [if_pos (by omega), Nat.add_sub_cancel_left]
    unfold tableEntry
    rcases (by omega : j.val = 0 ∨ j.val = 1) with h0 | h1
    · left
      have hread : readLE (memcpy m q usercode) (q + 8 * j.val) 8 =
          0x0610059310000537 % 256 ^ 8 := by
        apply readLE_of_bytes
        intro k hk
        rw [h0, Nat.mul_zero, Nat.add_zero, hbyte k (by omega)]
        interval_cases k <;> rfl
      rw [hread]
      norm_num
    · right
      left
      have hread : readLE (memcpy m q usercode) (q + 8 * j.val) 8 =
          0x00b5802300b50023 % 256 ^ 8 := by
        apply readLE_of_bytes
        intro k hk
        rw [h1, Nat.mul_one, Nat.add_assoc, hbyte (8 + k) (by omega)]
        interval_cases k <;> rfl
      rw [hread]
      norm_num
  · right
    right
    unfold tableEntry
    apply readLE_congr
    intro x hlo hhi
    apply memcpy_out
    omega

theorem trusting_start (hbase : PoolBase base) (hodd : (stale i).toNat % 2 = 1)
    (htarget : pteToPa (stale i).toNat < base + 4096 ∨
      base + 8 * 4096 ≤ pteToPa (stale i).toNat) :
    Trusting base i (memcpy (staleMem stale) base usercode) := by
  have hpage : base % 4096 = 0 := by
    rcases hbase with rfl | rfl <;> rfl
  have htable : tableEntry (memcpy (staleMem stale) base usercode) 0x70000000 i =
      (stale i).toNat := by
    rw [← staleMem_table i]
    apply tableEntry_congr
    intro x hlo hhi
    apply memcpy_out
    have hlen : usercode.length = 16 := rfl
    unfold pageSize at hhi
    rcases hbase with rfl | rfl <;> omega
  refine ⟨by rw [htable]; exact hodd, ?_, ?_⟩
  · rw [htable]
    by_cases hself : pteToPa (stale i).toNat = 0x70000000
    · exact Or.inl hself
    · refine Or.inr ⟨?_, Nat.mod_lt _ (by decide), hself, htarget⟩
      unfold pteToPa
      rw [Nat.shiftLeft_eq]
      omega
  · intro q hq j
    rcases memcpy_entry (m := staleMem stale) hpage hq.1 j with hw | hw | hw
    · rw [hw]
      refine ⟨by decide, by decide, by decide, by decide, ?_⟩
      rcases hbase with rfl | rfl <;> decide
    · rw [hw]
      refine ⟨by decide, by decide, by decide, by decide, ?_⟩
      rcases hbase with rfl | rfl <;> decide
    · rw [hw, staleMem_full hq.1 hq.2.2.1]
      refine ⟨by decide, by decide, by decide, by decide, ?_⟩
      rcases hbase with rfl | rfl <;> decide

end StaleMem

/-- A stale valid bit, and a memory in which it leads to a fourth page. -/
theorem createUserProcess_fourth_page {stale : Fin 512 → BitVec 64} {i : Fin 512}
    (hodd : (stale i).toNat % 2 = 1) :
    ∃ p m upt tramp r, UserSetup p upt tramp ∧ ArrayUntaken p r upt ∧
      (∀ j, tableEntry m upt j = (stale j).toNat) ∧
      createUserProcess p m upt tramp = some r ∧ r.mapped = true ∧ ¬ ThreePages r upt tramp := by
  obtain ⟨base, hbase, htarget⟩ : ∃ base, PoolBase base ∧
      (pteToPa (stale i).toNat < base + 4096 ∨ base + 8 * 4096 ≤ pteToPa (stale i).toNat) := by
    by_cases hlow : pteToPa (stale i).toNat < 0x90000000
    · exact ⟨0x90000000, Or.inr rfl, Or.inl (by omega)⟩
    · exact ⟨0x80000000, Or.inl rfl, Or.inr (by omega)⟩
  have hstart := trusting_start hbase hodd htarget
  have hsetup : UserSetup (userPool base) 0x70000000 0x60000000 := by
    rcases hbase with rfl | rfl
    · exact ⟨⟨0, by decide, by decide, by decide, by decide⟩, by decide, by decide, by decide,
        by decide, by decide⟩
    · exact ⟨⟨0, by decide, by decide, by decide, by decide⟩, by decide, by decide, by decide,
        by decide, by decide⟩
  have hframes : ∀ f < (userPool base).totalFrames, (userPool base).frameAddr f ≠ 0x70000000 := by
    rcases hbase with rfl | rfl <;> decide
  have halloc : pmmAllocFrame (userPool base) = some (base, takeFrame (userPool base) 0) := by
    rcases hbase with rfl | rfl <;> rfl
  have hpool : PoolLeft base 6 (takeFrame (userPool base) 0) := by
    rcases hbase with rfl | rfl
    · exact ⟨⟨by decide, by decide, by decide, by decide⟩, rfl, rfl, by decide, by decide⟩
    · exact ⟨⟨by decide, by decide, by decide, by decide⟩, rfl, rfl, by decide, by decide⟩
  have hcode : FullPage base base := by
    rcases hbase with rfl | rfl
    · exact ⟨by decide, by decide, by decide, by decide⟩
    · exact ⟨by decide, by decide, by decide, by decide⟩
  have htramp : FullPage base 0x60000000 := by
    rcases hbase with rfl | rfl
    · exact ⟨by decide, by decide, by decide, by decide⟩
    · exact ⟨by decide, by decide, by decide, by decide⟩
  have huart : FullPage base 0x10000000 := by
    rcases hbase with rfl | rfl
    · exact ⟨by decide, by decide, by decide, by decide⟩
    · exact ⟨by decide, by decide, by decide, by decide⟩
  obtain ⟨p₁, m₁, hmap₁, h₁, hp₁⟩ :=
    hstart.mapPage hpool hbase hcode.1 hcode (by decide : pageKernelExec ||| pteU < 1024)
  obtain ⟨p₂, m₂, hmap₂, h₂, hp₂⟩ :=
    h₁.mapPage hp₁ hbase htramp.1 htramp (by decide : pageKernelExec < 1024)
  obtain ⟨p₃, m₃, hmap₃, h₃, _⟩ :=
    h₂.mapPage hp₂ hbase huart.1 huart (by decide : pteR ||| pteW ||| pteU < 1024)
  refine ⟨userPool base, staleMem stale, 0x70000000, 0x60000000, ⟨base, true, p₃, m₃⟩, hsetup,
    fun f hf _ _ => hframes f hf, staleMem_table, ?_, rfl, ?_⟩
  · unfold createUserProcess
    simp only [halloc, hmap₁, hmap₂, hmap₃, Bool.and_self]
  · intro hthree
    obtain ⟨va, hleaf, hnone⟩ := h₃.fourth_page hbase p₃
    exact hleaf ((hthree va).trans hnone)

/-- Whatever else the memory and the allocator hold, the process has exactly the
three pages, if and only if no stale entry of the array has its valid bit set. The one thing
asked of the allocator is that it does not hand out the page of the array meanwhile. -/
theorem user_page_table_iff (stale : Fin 512 → BitVec 64) :
    (∀ p m upt tramp r, UserSetup p upt tramp → ArrayUntaken p r upt →
      (∀ i, tableEntry m upt i = (stale i).toNat) →
      createUserProcess p m upt tramp = some r → r.mapped = true → ThreePages r upt tramp) ↔
    ∀ i, (stale i).toNat &&& pteV = 0 := by
  constructor
  · intro h i
    rw [valid_iff]
    by_contra hne
    obtain ⟨p, m, upt, tramp, r, hsetup, huntaken, hstale, hs, hok, hnot⟩ :=
      createUserProcess_fourth_page (by omega : (stale i).toNat % 2 = 1)
    exact hnot (h p m upt tramp r hsetup huntaken hstale hs hok)
  · intro heven p m upt tramp r hsetup huntaken hstale hs hok
    refine createUserProcess_threePages hsetup huntaken (fun i => ?_) hs hok
    rw [hstale i]
    exact (valid_iff _).mp (heven i)

/-- A stack whose entry 5 leads to the tables of an older page table, which maps the
page at `0x40000000` for the user. -/
def staleStack : Bytes :=
  writeLE (writeLE (writeLE (fun _ => 0#8) 0x70000028 8 (paToPtePpn 0x50000000 ||| pteV))
    0x50000000 8 (paToPtePpn 0x50001000 ||| pteV)) 0x50001000 8 (leafEntry 0x40000000 22)

/-- The process of this stack can write the page at `0x40000000`. -/
theorem stale_entry_translates :
    ∃ r, createUserProcess (userPool 0x80000000) staleStack 0x70000000 0x60000000 = some r ∧
      r.mapped = true ∧
      vmmLeaf r.pmm r.mem 0x70000000 0x140000000 = some (leafEntry 0x40000000 22) ∧
      ¬ ThreePages r 0x70000000 0x60000000 := by
  have hall : (createUserProcess (userPool 0x80000000) staleStack 0x70000000 0x60000000).map
      (fun r => (r.mapped, vmmLeaf r.pmm r.mem 0x70000000 0x140000000,
        userLeaf r.code 0x60000000 0x140000000)) =
      some (true, some (leafEntry 0x40000000 22), none) := by decide +kernel
  obtain ⟨r, hr, hvalues⟩ := Option.map_eq_some_iff.mp hall
  obtain ⟨hok, hrest⟩ := Prod.mk.inj hvalues
  obtain ⟨hleaf, hnone⟩ := Prod.mk.inj hrest
  refine ⟨r, hr, hok, hleaf, fun hthree => ?_⟩
  have heq := hthree 0x140000000
  rw [hleaf, hnone] at heq
  cases heq

end Vectra

import Vectra.Mm.SlabInvariant

/-!
# The carving loop on every object size

The pointer of the loop is reduced modulo `2 ^ 64`. Which slots the loop writes, whether it
ends, and what a `slab_alloc` that finds no object leaves behind.
-/

namespace Vectra

open Lib SlabMem

/-! ## The slots of the loop -/

/-- The slots at which the loop of `slab_grow` writes a node, in order. -/
def carvedSlots (objSize stop ptr : ℕ) : ℕ → List ℕ
  | 0 => []
  | n + 1 =>
      if (ptr + objSize) % 2 ^ 64 ≤ stop then
        ptr :: carvedSlots objSize stop ((ptr + objSize) % 2 ^ 64) n
      else []

/-- Writing the nodes of a list of slots. -/
def pushSlots {M C : Type} [SlabMem M C] (m : M) (head : ℕ) : List ℕ → M × ℕ
  | [] => (m, head)
  | x :: xs => pushSlots (setLink m x head) x xs

/-- The pointer of the loop in round `j`. -/
def carvePtr (ptr objSize j : ℕ) : ℕ := (ptr + j * objSize) % 2 ^ 64

/-- The loop carves `n` slots and ends. -/
def CarvesSlots (objSize stop ptr n : ℕ) : Prop :=
  (∀ j < n, carvePtr ptr objSize (j + 1) ≤ stop) ∧ stop < carvePtr ptr objSize (n + 1)

section Loop

variable {M C : Type} [SlabMem M C] {m : M} {head objSize stop ptr fuel n : ℕ}

theorem carvePtr_next (ptr objSize j : ℕ) :
    carvePtr ((ptr + objSize) % 2 ^ 64) objSize j = carvePtr ptr objSize (j + 1) := by
  unfold carvePtr
  rw [Nat.mod_add_mod, Nat.add_assoc, Nat.add_comm objSize, ← Nat.succ_mul]

theorem carvePtr_one (ptr objSize : ℕ) : carvePtr ptr objSize 1 = (ptr + objSize) % 2 ^ 64 := by
  unfold carvePtr
  rw [Nat.one_mul]

theorem carvePtr_succ (ptr objSize j : ℕ) :
    carvePtr ptr objSize (j + 1) = (carvePtr ptr objSize j + objSize) % 2 ^ 64 := by
  unfold carvePtr
  rw [Nat.mod_add_mod, Nat.succ_mul, Nat.add_assoc]

theorem carvesSlots_succ : CarvesSlots objSize stop ptr (n + 1) ↔
    (ptr + objSize) % 2 ^ 64 ≤ stop ∧ CarvesSlots objSize stop ((ptr + objSize) % 2 ^ 64) n := by
  unfold CarvesSlots
  simp only [carvePtr_next]
  constructor
  · rintro ⟨hin, hout⟩
    refine ⟨?_, fun j hj => hin (j + 1) (Nat.succ_lt_succ hj), hout⟩
    rw [← carvePtr_one]
    exact hin 0 (Nat.succ_pos n)
  · rintro ⟨hfirst, hin, hout⟩
    refine ⟨fun j hj => ?_, hout⟩
    cases j with
    | zero =>
        rw [Nat.zero_add, carvePtr_one]
        exact hfirst
    | succ j => exact hin j (Nat.lt_of_succ_lt_succ hj)

theorem carvesSlots_zero : CarvesSlots objSize stop ptr 0 ↔ stop < (ptr + objSize) % 2 ^ 64 := by
  unfold CarvesSlots
  rw [Nat.zero_add, carvePtr_one]
  exact ⟨fun h => h.2, fun h => ⟨fun _ hj => absurd hj (Nat.not_lt_zero _), h⟩⟩

/-- The loop ends exactly when it carves a number of slots that the fuel covers. -/
theorem carve_isSome_iff (m : M) (head : ℕ) :
    (carve m head objSize stop ptr fuel).isSome = true ↔
      ∃ n < fuel, CarvesSlots objSize stop ptr n := by
  induction fuel generalizing m head ptr with
  | zero => simp [carve]
  | succ fuel ih =>
      rw [carve]
      split
      · rename_i hle
        rw [ih]
        constructor
        · rintro ⟨n, hn, hcarves⟩
          exact ⟨n + 1, Nat.succ_lt_succ hn, carvesSlots_succ.mpr ⟨hle, hcarves⟩⟩
        · rintro ⟨n, hn, hcarves⟩
          cases n with
          | zero => exact absurd hle (Nat.not_le.mpr (carvesSlots_zero.mp hcarves))
          | succ n => exact ⟨n, Nat.lt_of_succ_lt_succ hn, (carvesSlots_succ.mp hcarves).2⟩
      · rename_i hle
        exact iff_of_true rfl ⟨0, Nat.succ_pos fuel, carvesSlots_zero.mpr (Nat.lt_of_not_le hle)⟩

/-- The loop writes the nodes of its slots. -/
theorem carve_eq {r : M × ℕ} (h : carve m head objSize stop ptr fuel = some r) :
    r = pushSlots m head (carvedSlots objSize stop ptr fuel) := by
  induction fuel generalizing m head ptr with
  | zero => cases h
  | succ fuel ih =>
      rw [carve] at h
      rw [carvedSlots]
      split at h
      · rename_i hle
        rw [if_pos hle]
        exact ih h
      · rename_i hle
        rw [if_neg hle]
        cases h
        rfl

theorem carvedSlots_eq (h : CarvesSlots objSize stop ptr n) (hfuel : n < fuel)
    (hptr : ptr < 2 ^ 64) :
    carvedSlots objSize stop ptr fuel = (List.range n).map (carvePtr ptr objSize) := by
  induction n generalizing ptr fuel with
  | zero =>
      obtain ⟨fuel, rfl⟩ := Nat.exists_eq_succ_of_ne_zero (Nat.ne_zero_of_lt hfuel)
      exact if_neg (Nat.not_le.mpr (carvesSlots_zero.mp h))
  | succ n ih =>
      obtain ⟨fuel, rfl⟩ := Nat.exists_eq_succ_of_ne_zero (Nat.ne_zero_of_lt hfuel)
      obtain ⟨hle, hrest⟩ := carvesSlots_succ.mp h
      rw [carvedSlots, if_pos hle,
        ih hrest (Nat.lt_of_succ_lt_succ hfuel) (Nat.mod_lt _ (Nat.two_pow_pos 64)),
        List.range_succ_eq_map, List.map_cons, List.map_map]
      refine congrArg₂ List.cons ?_ (List.map_congr_left fun j _ => carvePtr_next ptr objSize j)
      unfold carvePtr
      rw [Nat.zero_mul, Nat.add_zero, Nat.mod_eq_of_lt hptr]

/-- The free list starts with the last slot. -/
theorem pushSlots_head (m : M) (head : ℕ) (f : ℕ → ℕ) (n : ℕ) :
    (pushSlots m head ((List.range (n + 1)).map f)).2 = f n := by
  have hsnoc : ∀ (xs : List ℕ) (x : ℕ) (m : M) (head : ℕ),
      (pushSlots m head (xs ++ [x])).2 = x := by
    intro xs x
    induction xs with
    | nil => exact fun _ _ => rfl
    | cons y ys ih => exact fun m _ => ih (setLink m y _) y
  rw [List.range_succ, List.map_append]
  exact hsnoc _ _ _ _

end Loop

/-! ## A failing allocation -/

/-- The page at `phys` yields no object: not one slot is carved, or the last one is at
address 0, which the pointer reaches only by wrapping. -/
def YieldsNone (objSize phys : ℕ) : Prop :=
  ∃ n < 2 ^ 64, CarvesSlots objSize ((phys + pageSize) % 2 ^ 64) (firstSlot phys) n ∧
    (n = 0 ∨ carvePtr (firstSlot phys) objSize (n - 1) = 0)

/-- A `slab_alloc` that returns `NULL` leaves the frames and the pages as they were. -/
def NullKeepsFrames {M C : Type} [SlabMem M C] (m : M) (p : Pmm) (c : SlabCache) : Prop :=
  ∀ m' p' c', slabAlloc m p c = some (0, m', p', c') →
    p'.frameBitmap = p.frameBitmap ∧ p'.freeFrames = p.freeFrames ∧ c'.slabs = c.slabs

section Failing

variable {M C : Type} [SlabMem M C] {m m' : M} {p p' : Pmm} {c c' : SlabCache} {phys : ℕ}

/-- A frame that is handed out was clear and is used afterwards. -/
theorem pmmAllocFrame_changes (h : pmmAllocFrame p = some (phys, p')) (hphys : phys ≠ 0) :
    p'.frameBitmap ≠ p.frameBitmap := by
  have htake : ∀ i, p.used i = false → (takeFrame p i).frameBitmap ≠ p.frameBitmap := by
    intro i hclear heq
    have hset := takeFrame_used p i i
    unfold Pmm.used at hset hclear
    rw [heq, hclear] at hset
    simp at hset
  unfold pmmAllocFrame at h
  split at h
  · cases h
  · split at h
    · rename_i i hfirst
      cases h
      exact htake i (by simpa using (firstFrom_sound hfirst).2.2.1)
    · split at h
      · rename_i i hfirst
        cases h
        exact htake i (by simpa using (firstFrom_sound hfirst).2.2.1)
      · cases h
        exact absurd rfl hphys

theorem firstSlot_lt (phys : ℕ) : firstSlot phys < 2 ^ 64 := alignUp_lt _ _

/-- A growth takes the frame, and leaves no object exactly when the page yields none. -/
theorem slabGrow_frame (hs : slabGrow m p c = some (m', p', c')) :
    ∃ phys, phys ≠ 0 ∧ pmmAllocFrame p = some (phys, p') ∧
      (c'.freeObjects = 0 → YieldsNone c.objSize phys) := by
  unfold slabGrow at hs
  split at hs
  · cases hs
  · rename_i phys q halloc
    split at hs
    · cases hs
    · rename_i hphys
      split at hs
      · cases hs
      · rename_i m₁ head hcarve
        cases hs
        refine ⟨phys, hphys, halloc, fun hhead => ?_⟩
        obtain ⟨n, hn, hstops⟩ := (carve_isSome_iff _ _).mp (Option.isSome_of_eq_some hcarve)
        have hr := congrArg Prod.snd (carve_eq hcarve)
        rw [carvedSlots_eq hstops hn (firstSlot_lt phys)] at hr
        refine ⟨n, hn, hstops, ?_⟩
        cases n with
        | zero => exact .inl rfl
        | succ n =>
            rw [pushSlots_head] at hr
            exact .inr (hr.symm.trans hhead)

theorem slabGrow_yieldsNone (hfree : c.freeObjects = 0) (hphys : phys ≠ 0)
    (halloc : pmmAllocFrame p = some (phys, p')) (hnone : YieldsNone c.objSize phys) :
    ∃ m', slabGrow m p c = some (m', p', { c with slabs := phys, freeObjects := 0 }) := by
  obtain ⟨n, hn, hstops, hlast⟩ := hnone
  obtain ⟨r, hcarve⟩ := Option.isSome_iff_exists.mp ((carve_isSome_iff _ _).mpr ⟨n, hn, hstops⟩ :
    (carve (setFrame m phys ⟨phys, c.slabs⟩) c.freeObjects c.objSize
      ((phys + pageSize) % 2 ^ 64) (firstSlot phys) (2 ^ 64)).isSome = true)
  have hr := congrArg Prod.snd (carve_eq hcarve)
  rw [carvedSlots_eq hstops hn (firstSlot_lt phys)] at hr
  have hhead : r.2 = 0 := by
    cases n with
    | zero => exact hr.trans hfree
    | succ n =>
        rw [pushSlots_head] at hr
        exact hr.trans (hlast.resolve_left (Nat.succ_ne_zero n))
  refine ⟨r.1, ?_⟩
  unfold slabGrow
  rw [halloc]
  simp only [if_neg hphys, hcarve]
  rw [hhead]

theorem slabAlloc_yieldsNone (hfree : c.freeObjects = 0) (hphys : phys ≠ 0)
    (halloc : pmmAllocFrame p = some (phys, p')) (hnone : YieldsNone c.objSize phys) :
    ∃ m', slabAlloc m p c = some (0, m', p', { c with slabs := phys, freeObjects := 0 }) := by
  obtain ⟨m', hgrow⟩ := slabGrow_yieldsNone (m := m) hfree hphys halloc hnone
  refine ⟨m', ?_⟩
  unfold slabAlloc
  rw [if_pos hfree, hgrow]
  rfl

/-- Exactly the allocations that find an object on the list, or get no frame, or carve an
object, leave the frames alone when they return `NULL`: the others return `NULL` with a frame
taken. -/
theorem nullKeepsFrames_iff :
    NullKeepsFrames m p c ↔ c.freeObjects ≠ 0 ∨
      ∀ phys p', pmmAllocFrame p = some (phys, p') → phys ≠ 0 → ¬ YieldsNone c.objSize phys := by
  constructor
  · intro hkeep
    by_contra hno
    rw [not_or, not_not] at hno
    obtain ⟨hfree, hno⟩ := hno
    push Not at hno
    obtain ⟨phys, p', halloc, hphys, hnone⟩ := hno
    obtain ⟨m', hnull⟩ := slabAlloc_yieldsNone (m := m) hfree hphys halloc hnone
    exact pmmAllocFrame_changes halloc hphys (hkeep _ _ _ hnull).1
  · intro hcond m' p' c' hs
    unfold slabAlloc at hs
    split at hs
    · rename_i hfree
      split at hs
      · cases hs
      · rename_i m₁ p₁ c₁ hgrow
        obtain ⟨phys, hphys, halloc, hnone⟩ := slabGrow_frame hgrow
        have hempty : c₁.freeObjects = 0 := by
          by_contra hne
          unfold slabPop at hs
          rw [if_neg hne] at hs
          exact hne (congrArg Prod.fst (Option.some.inj hs))
        rcases hcond with hne | hyields
        · exact absurd hfree hne
        · exact absurd (hnone hempty) (hyields phys p₁ halloc hphys)
    · rename_i hne
      unfold slabPop at hs
      rw [if_neg hne] at hs
      exact absurd (congrArg Prod.fst (Option.some.inj hs)) hne

/-- In the lower half of the address space the pointer does not wrap to 0. -/
theorem yieldsNone_iff_of_low {objSize : ℕ} (hlow : phys + pageSize < 2 ^ 63)
    (hsize : objSize < 2 ^ 64) :
    YieldsNone objSize phys ↔ phys + pageSize < (firstSlot phys + objSize) % 2 ^ 64 := by
  have hstop : (phys + pageSize) % 2 ^ 64 = phys + pageSize := Nat.mod_eq_of_lt (by omega)
  obtain ⟨hlo, hhi, _⟩ := firstSlot_bounds (by omega : phys + pageSize ≤ 2 ^ 64)
  have hfirst : carvePtr (firstSlot phys) objSize 0 = firstSlot phys := by
    unfold carvePtr
    rw [Nat.zero_mul, Nat.add_zero, Nat.mod_eq_of_lt (firstSlot_lt phys)]
  unfold YieldsNone
  rw [hstop]
  constructor
  · rintro ⟨n, _, hstops, hlast⟩
    cases n with
    | zero => exact carvesSlots_zero.mp hstops
    | succ n =>
        -- both the pointer before 0 and the size would be in the lower half
        exfalso
        have hzero := hlast.resolve_left (Nat.succ_ne_zero n)
        rw [Nat.add_sub_cancel] at hzero
        have hnext := hstops.1 n (Nat.lt_succ_self n)
        rw [carvePtr_succ, hzero, Nat.zero_add, Nat.mod_eq_of_lt hsize] at hnext
        cases n with
        | zero =>
            rw [hfirst] at hzero
            omega
        | succ k =>
            have hbefore : carvePtr (firstSlot phys) objSize k ≤ phys + pageSize := by
              cases k with
              | zero =>
                  rw [hfirst]
                  unfold pageSize
                  omega
              | succ k => exact hstops.1 k (by omega)
            have hpos : 0 < objSize := by
              rw [carvePtr_succ] at hzero
              by_contra hno
              have hnone : objSize = 0 := by omega
              subst hnone
              have hsame : carvePtr (firstSlot phys) 0 k = firstSlot phys := by
                unfold carvePtr
                rw [Nat.mul_zero, Nat.add_zero, Nat.mod_eq_of_lt (firstSlot_lt phys)]
              rw [hsame] at hzero
              omega
            rw [carvePtr_succ] at hzero
            omega
  · intro hout
    exact ⟨0, Nat.two_pow_pos 64, carvesSlots_zero.mpr hout, .inl rfl⟩

end Failing

/-! ## Every requested size -/

/-- The loop of the growth of a cache for objects of `requested` bytes ends, stays in the page
behind its header, and carves slots that have the room. -/
structure CarvesWell {M C : Type} [SlabMem M C] (m : M) (p : Pmm) (c : SlabCache)
    (phys requested : ℕ) : Prop where
  ends : (slabGrow m p c).isSome = true
  inside : ∀ x ∈ carvedSlots c.objSize ((phys + pageSize) % 2 ^ 64) (firstSlot phys) (2 ^ 64),
    phys + frameMetaSize ≤ x ∧ x + c.objSize ≤ phys + pageSize
  room : ∀ x ∈ carvedSlots c.objSize ((phys + pageSize) % 2 ^ 64) (firstSlot phys) (2 ^ 64),
    requested ≤ c.objSize
  returned : ∀ x m' p' c', slabAlloc m p c = some (x, m', p', c') → x ≠ 0 →
    x ∈ carvedSlots c.objSize ((phys + pageSize) % 2 ^ 64) (firstSlot phys) (2 ^ 64)

/-- The size is not reduced on its way to the loop, and the pointer behind the page does not
wrap. -/
def SizeCarvable (phys requested : ℕ) : Prop :=
  requested + 7 < 2 ^ 64 ∧
    firstSlot phys + ((phys + pageSize - firstSlot phys) / slabObjSize requested + 1) *
      slabObjSize requested < 2 ^ 64

instance (phys requested : ℕ) : Decidable (SizeCarvable phys requested) :=
  inferInstanceAs (Decidable (_ ∧ _))

section Sizes

variable {slack objSize stop ptr n : ℕ}

theorem slabObjSize_eq {size : ℕ} (h : size + 7 < 2 ^ 64) :
    slabObjSize size = (max size 8 + 7) / 8 * 8 := by
  unfold slabObjSize
  have hmax : (if size < 8 then 8 else size) = max size 8 := by
    split <;> omega
  rw [hmax]
  exact alignUp_eight (by omega)

theorem slabObjSize_wrap {size : ℕ} (h : 2 ^ 64 ≤ size + 7) (hsize : size < 2 ^ 64) :
    slabObjSize size = 0 := by
  unfold slabObjSize
  rw [if_neg (by omega)]
  have halign : alignUp size 8 = (size + 7) % 2 ^ 64 / 8 * 8 :=
    alignUp_two_pow_mod (k := 3) (by omega) size
  omega

/-- The pointers up to the last slot of the page, and the first one behind. -/
theorem carvePtr_page (hptr : ptr ≤ stop) (hstop : stop < 2 ^ 64) {j : ℕ}
    (hj : j ≤ (stop - ptr) / objSize) : carvePtr ptr objSize j = ptr + j * objSize ∧
      ptr + j * objSize ≤ stop := by
  have hmul := Nat.mul_le_mul_right objSize hj
  have hdiv := Nat.div_mul_le_self (stop - ptr) objSize
  unfold carvePtr
  rw [Nat.mod_eq_of_lt (by omega)]
  omega

theorem carvesSlots_page (hptr : ptr ≤ stop) (hstop : stop < 2 ^ 64)
    (hnext : ptr + ((stop - ptr) / objSize + 1) * objSize < 2 ^ 64) (hsize : 0 < objSize) :
    CarvesSlots objSize stop ptr ((stop - ptr) / objSize) := by
  refine ⟨fun j hj => ?_, ?_⟩
  · obtain ⟨heq, hle⟩ := carvePtr_page hptr hstop (Nat.succ_le_of_lt hj)
    rw [heq]
    exact hle
  · have hlt := Nat.lt_mul_div_succ (stop - ptr) hsize
    unfold carvePtr
    rw [Nat.mod_eq_of_lt hnext, Nat.mul_comm]
    omega

variable {M C : Type} [SlabMem M C] {m : M} {p p' : Pmm} {c : SlabCache} {phys requested : ℕ}

theorem slabGrow_isSome (halloc : pmmAllocFrame p = some (phys, p')) (hphys : phys ≠ 0) :
    (slabGrow m p c).isSome = true ↔
      ∃ n < 2 ^ 64, CarvesSlots c.objSize ((phys + pageSize) % 2 ^ 64) (firstSlot phys) n := by
  rw [← carve_isSome_iff (setFrame m phys ⟨phys, c.slabs⟩) c.freeObjects]
  unfold slabGrow
  rw [halloc]
  simp only [if_neg hphys]
  split
  · rename_i hnone
    rw [hnone]
    rfl
  · rename_i hsome
    rw [hsome]
    rfl

/-- A cache without objects returns one of the slots that it carves. -/
theorem slabAlloc_carved (hfree : c.freeObjects = 0)
    (halloc : pmmAllocFrame p = some (phys, p')) {x : ℕ} {m' : M} {q : Pmm} {c' : SlabCache}
    (hs : slabAlloc m p c = some (x, m', q, c')) (hx : x ≠ 0) :
    x ∈ carvedSlots c.objSize ((phys + pageSize) % 2 ^ 64) (firstSlot phys) (2 ^ 64) := by
  unfold slabAlloc slabGrow at hs
  rw [if_pos hfree, halloc] at hs
  simp only at hs
  split at hs
  · cases hs
  · rename_i m₁ p₁ c₁ hgrow
    split at hgrow
    · cases hgrow
    · split at hgrow
      · cases hgrow
      · rename_i m₂ head hcarve
        cases hgrow
        obtain ⟨n, hn, hstops⟩ := (carve_isSome_iff _ _).mp (Option.isSome_of_eq_some hcarve)
        have hr := congrArg Prod.snd (carve_eq hcarve)
        rw [carvedSlots_eq hstops hn (firstSlot_lt phys)] at hr ⊢
        have hhead : x = head := by
          unfold slabPop at hs
          split at hs
          · rename_i hzero
            exact absurd (congrArg Prod.fst (Option.some.inj hs)).symm hx
          · exact (congrArg Prod.fst (Option.some.inj hs)).symm
        cases n with
        | zero =>
            rw [hhead] at hx
            exact absurd (hr.trans hfree) hx
        | succ n =>
            rw [pushSlots_head] at hr
            rw [hhead, List.mem_map]
            exact ⟨n, List.mem_range.mpr (Nat.lt_succ_self n), hr.symm⟩

theorem allocFrame_page (hp : PmmInv slack p) (halloc : pmmAllocFrame p = some (phys, p'))
    (hphys : phys ≠ 0) : phys + pageSize < 2 ^ 64 := by
  rcases hp.allocFrame_some halloc with ⟨hzero, _⟩ | ⟨i, hi, _, rfl, _⟩
  · exact absurd hzero hphys
  · rw [hp.frameAddr_eq hi]
    have hrange := hp.range
    unfold pageSize at *
    omega

theorem firstSlot_le (hpage : phys + pageSize < 2 ^ 64) : firstSlot phys ≤ phys + pageSize := by
  obtain ⟨_, hhi, _⟩ := firstSlot_bounds hpage.le
  unfold pageSize
  omega

/-- A loop whose pointer wraps behind the page does not stop at the last slot of the page. -/
theorem lastSlot_carved (hptr : ptr ≤ stop) (hstop : stop < 2 ^ 64) (hsize : objSize < 2 ^ 64)
    (hstops : CarvesSlots objSize stop ptr n)
    (hwrap : 2 ^ 64 ≤ ptr + ((stop - ptr) / objSize + 1) * objSize) :
    (stop - ptr) / objSize < n := by
  obtain ⟨hat, hle⟩ := carvePtr_page hptr hstop (le_refl ((stop - ptr) / objSize))
  rw [Nat.succ_mul] at hwrap
  by_contra hge
  have hout := hstops.2
  rcases Nat.lt_or_eq_of_le (Nat.le_of_not_lt hge) with hlt | rfl
  · obtain ⟨heq, hin⟩ := carvePtr_page hptr hstop (Nat.succ_le_of_lt hlt)
    rw [heq] at hout
    omega
  · rw [carvePtr_succ, hat] at hout
    omega

theorem CarvesWell.sizeCarvable (h : CarvesWell m p c phys requested)
    (halloc : pmmAllocFrame p = some (phys, p')) (hphys : phys ≠ 0)
    (hpage : phys + pageSize < 2 ^ 64) (hreq : requested < 2 ^ 64 + 48)
    (hsize : c.objSize = slabObjSize (requested % 2 ^ 64)) : SizeCarvable phys requested := by
  have hstop : (phys + pageSize) % 2 ^ 64 = phys + pageSize := Nat.mod_eq_of_lt hpage
  have hptr := firstSlot_le hpage
  obtain ⟨hlo, hhi, _⟩ := firstSlot_bounds hpage.le
  obtain ⟨n, hn, hstops⟩ := (slabGrow_isSome halloc hphys).mp h.ends
  have hinside := h.inside
  have hroom := h.room
  rw [carvedSlots_eq hstops hn (firstSlot_lt phys)] at hinside hroom
  rw [hstop] at hstops
  have hslot : ∀ j < n, carvePtr (firstSlot phys) c.objSize j ∈
      (List.range n).map (carvePtr (firstSlot phys) c.objSize) := fun j hj =>
    List.mem_map.mpr ⟨j, List.mem_range.mpr hj, rfl⟩
  have hreduced : requested < 2 ^ 64 := by
    by_contra hge
    -- a small slot is carved, which has not the room
    have hobj : c.objSize ≤ 48 := by
      rw [hsize, slabObjSize_eq (by omega)]
      omega
    have hpos : 0 < n := by
      by_contra hno
      have hzero : n = 0 := by omega
      subst hzero
      have hout := carvesSlots_zero.mp hstops
      unfold pageSize at *
      omega
    have hle := hroom _ (hslot 0 hpos)
    omega
  rw [Nat.mod_eq_of_lt hreduced] at hsize
  have haligned : requested + 7 < 2 ^ 64 := by
    by_contra hge
    -- the pointer does not move
    have hzero : c.objSize = 0 := by
      rw [hsize]
      exact slabObjSize_wrap (by omega) hreduced
    have hout := hstops.2
    rw [hzero] at hout
    unfold carvePtr at hout
    rw [Nat.mul_zero, Nat.add_zero, Nat.mod_eq_of_lt (firstSlot_lt phys)] at hout
    omega
  refine ⟨haligned, ?_⟩
  rw [← hsize]
  by_contra hwrap
  -- the pointer behind the last slot wraps to an address in or before the page
  have hobj : c.objSize < 2 ^ 64 := by
    rw [hsize]
    exact alignUp_lt _ _
  obtain ⟨hat, _⟩ := carvePtr_page hptr hpage (le_refl
    ((phys + pageSize - firstSlot phys) / c.objSize))
  have hlast := lastSlot_carved hptr hpage hobj hstops (Nat.le_of_not_lt hwrap)
  have hend := (hinside _ (hslot _ hlast)).2
  rw [hat] at hend
  rw [Nat.succ_mul] at hwrap
  omega

theorem SizeCarvable.carvesWell (h : SizeCarvable phys requested)
    (halloc : pmmAllocFrame p = some (phys, p')) (hphys : phys ≠ 0)
    (hpage : phys + pageSize < 2 ^ 64) (hfree : c.freeObjects = 0)
    (hsize : c.objSize = slabObjSize (requested % 2 ^ 64)) : CarvesWell m p c phys requested := by
  have hstop : (phys + pageSize) % 2 ^ 64 = phys + pageSize := Nat.mod_eq_of_lt hpage
  have hptr := firstSlot_le hpage
  obtain ⟨hlo, _, _⟩ := firstSlot_bounds hpage.le
  obtain ⟨hwrap, hnext⟩ := h
  rw [Nat.mod_eq_of_lt (by omega)] at hsize
  rw [← hsize] at hnext
  have hobj : requested ≤ c.objSize ∧ 0 < c.objSize := by
    rw [hsize, slabObjSize_eq hwrap]
    omega
  have hstops := carvesSlots_page hptr hpage hnext hobj.2
  have hfuel : (phys + pageSize - firstSlot phys) / c.objSize < 2 ^ 64 :=
    (Nat.div_le_self _ _).trans_lt (by omega)
  have hslots := carvedSlots_eq hstops hfuel (firstSlot_lt phys)
  refine ⟨(slabGrow_isSome halloc hphys).mpr ⟨_, hfuel, by rw [hstop]; exact hstops⟩,
    fun x hx => ?_, fun _ _ => hobj.1, fun x _ _ _ hs => slabAlloc_carved hfree halloc hs⟩
  rw [hstop, hslots] at hx
  obtain ⟨j, hj, rfl⟩ := List.mem_map.mp hx
  obtain ⟨_, hle⟩ := carvePtr_page hptr hpage (Nat.succ_le_of_lt (List.mem_range.mp hj))
  obtain ⟨heq, _⟩ := carvePtr_page hptr hpage (List.mem_range.mp hj).le
  rw [heq]
  rw [Nat.succ_mul] at hle
  unfold frameMetaSize
  omega

/-- The loop is well behaved for exactly the sizes that are not reduced and whose pointer does
not wrap behind the page. -/
theorem carvesWell_iff (hp : PmmInv slack p) (halloc : pmmAllocFrame p = some (phys, p'))
    (hphys : phys ≠ 0) (hfree : c.freeObjects = 0) (hreq : requested < 2 ^ 64 + 48)
    (hsize : c.objSize = slabObjSize (requested % 2 ^ 64)) :
    CarvesWell m p c phys requested ↔ SizeCarvable phys requested := by
  have hpage := allocFrame_page hp halloc hphys
  exact ⟨fun h => h.sizeCarvable halloc hphys hpage hreq hsize,
    fun h => h.carvesWell halloc hphys hpage hfree hsize⟩

end Sizes

end Vectra

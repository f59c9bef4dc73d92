import Vectra.Arm64.Paging

/-!
# The forest of arm64 page tables

The tables of four levels below the roots form a forest, whose inner entries
are zero or table descriptors. A walk that allocates hangs empty tables below
its root and changes no translation, whether it succeeds or not.
-/

namespace Vectra.Arm64

open Lib

/-- The table that a descriptor leads to. -/
def armTable (d : ℕ) : Option ℕ := if d % 4 = 3 then some (outputAddress d) else none

def armLeaf (d : ℕ) : Option ℕ := if d % 4 = 3 then some d else none

/-- The index of a page in a table with `n` levels below it. -/
def pageIndex (page : PageNumber) (n : ℕ) : Fin 512 :=
  ⟨page.val / 512 ^ n % 512, Nat.mod_lt _ (by norm_num)⟩

/-- The indices of a page from a table with `n` levels below it to the last level. -/
def pagePath (page : PageNumber) : ℕ → List (Fin 512)
  | 0 => []
  | n + 1 => pageIndex page (n + 1) :: pagePath page n

section Arithmetic

variable {d phys prot va n : ℕ} {page page' : PageNumber}

theorem pageIndex_ext (h : ∀ n < 4, pageIndex page n = pageIndex page' n) : page = page' := by
  have h0 := congrArg Fin.val (h 0 (by norm_num))
  have h1 := congrArg Fin.val (h 1 (by norm_num))
  have h2 := congrArg Fin.val (h 2 (by norm_num))
  have h3 := congrArg Fin.val (h 3 (by norm_num))
  have hlt := page.isLt
  have hlt' := page'.isLt
  simp only [pageIndex, Nat.reducePow, Nat.div_one] at h0 h1 h2 h3
  exact Fin.ext (by omega)

theorem pagePath_length (page : PageNumber) (n : ℕ) : (pagePath page n).length = n := by
  induction n with
  | zero => rfl
  | succ n ih => rw [pagePath, List.length_cons, ih]

/-- A path and a last index determine their page. -/
theorem page_eq_of_path (hpath : pagePath page 3 = pagePath page' 3)
    (hlast : pageIndex page 0 = pageIndex page' 0) : page = page' := by
  simp only [pagePath, List.cons.injEq] at hpath
  apply pageIndex_ext
  intro n hn
  interval_cases n
  · exact hlast
  · exact hpath.2.2.1
  · exact hpath.2.1
  · exact hpath.1

theorem levelIndex_eq (hn : n < 4) :
    levelIndex va (ptLevels - 1 - n) = (pageIndex (pageNumber va) n).val := by
  have hmask := Nat.and_two_pow_sub_one_eq_mod
    (va >>> (12 + 9 * (ptLevels - 1 - (ptLevels - 1 - n)))) 9
  unfold levelIndex pageIndex pageNumber
  rw [show 512 - 1 = 2 ^ 9 - 1 from rfl, hmask, Nat.shiftRight_eq_div_pow]
  unfold ptLevels
  interval_cases n <;> simp <;> omega

theorem and_addrMask (d : ℕ) : d &&& pteAddrMask = outputAddress d := by
  have hmask : pteAddrMask = (2 ^ 36 - 1) * 2 ^ 12 := by decide
  unfold outputAddress
  rw [hmask, show (4096 : ℕ) = 2 ^ 12 from rfl, ← Nat.and_two_pow_sub_one_eq_mod]
  apply Nat.eq_of_testBit_eq
  intro i
  rw [Nat.testBit_and, Nat.testBit_mul_two_pow, Nat.testBit_mul_two_pow, Nat.testBit_and,
    Nat.testBit_div_two_pow]
  by_cases hi : 12 ≤ i
  · simp [hi]
  · simp [hi]

theorem and_valid : d &&& pteValid = d % 2 := Nat.and_two_pow_sub_one_eq_mod d 1

theorem and_table : d &&& pteTable = 0 ↔ d / 2 % 2 = 0 := by
  have hbit := Nat.testBit_eq_decide_div_mod_eq (x := d) (i := 1)
  have hand := Nat.and_two_pow d 1
  change d &&& 2 ^ 1 = 0 ↔ _
  rw [hand, hbit]
  by_cases h : d / 2 % 2 = 1
  · simp [h]
  · simp [h]
    omega

theorem outputAddress_of_aligned (halign : phys % 4096 = 0) (hlt : phys < 2 ^ 48) :
    outputAddress phys = phys := by
  unfold outputAddress
  omega

/-- The bits of an address and the bits around it. -/
theorem or_outputAddress (phys hi : ℕ) {lo : ℕ} (hlo : lo < 4096) :
    outputAddress phys ||| (2 ^ 48 * hi + lo) = outputAddress phys + (2 ^ 48 * hi + lo) := by
  obtain ⟨a, ha⟩ : ∃ a, a = phys / 4096 % 2 ^ 36 := ⟨_, rfl⟩
  have hlt : a < 2 ^ 36 := by omega
  have haddr : outputAddress phys = 2 ^ 12 * a := by
    unfold outputAddress
    omega
  have hbelow := Nat.two_pow_add_eq_or_of_lt (show lo < 2 ^ 48 by omega) hi
  have hpage := Nat.two_pow_add_eq_or_of_lt (show lo < 2 ^ 12 by omega) a
  have habove := Nat.two_pow_add_eq_or_of_lt (show 2 ^ 12 * a + lo < 2 ^ 48 by omega) hi
  calc outputAddress phys ||| (2 ^ 48 * hi + lo)
      = 2 ^ 48 * hi ||| (2 ^ 12 * a ||| lo) := by
        rw [haddr, hbelow, ← Nat.or_assoc, ← Nat.or_assoc, Nat.or_comm (2 ^ 12 * a)]
    _ = 2 ^ 48 * hi + (2 ^ 12 * a + lo) := by rw [← hpage, ← habove]
    _ = outputAddress phys + (2 ^ 48 * hi + lo) := by omega

theorem link_eq (halign : phys % 4096 = 0) (hlt : phys < 2 ^ 48) :
    pteAddr phys ||| pteTable ||| pteValid = phys + 3 := by
  have hor := or_outputAddress phys 0 (show 3 < 4096 by norm_num)
  rw [outputAddress_of_aligned halign hlt] at hor
  unfold pteAddr
  rw [and_addrMask, outputAddress_of_aligned halign hlt, Nat.or_assoc]
  exact hor

end Arithmetic

/-! ## Leaf descriptors -/

/-- The attributes that `arch_map_page` chooses: readable by user code, writable if
asked for, never executable by the kernel, and by user code only if asked for. -/
structure LeafSpec (phys prot d : ℕ) : Prop where
  page : d % 4 = 3
  output : outputAddress d = phys
  attrIndex : d / 2 ^ 2 % 8 = mairIdxNormal
  notSecure : d / 2 ^ 5 % 2 = 0
  access : d / 2 ^ 6 % 4 = if prot.testBit 1 then 1 else 3
  shareable : d / 2 ^ 8 % 4 = 3
  accessFlag : d / 2 ^ 10 % 2 = 1
  notGlobal : d / 2 ^ 11 % 2 = 1
  reserved : d / 2 ^ 48 % 2 ^ 5 = 0
  pxn : d / 2 ^ 53 % 2 = 1
  uxn : d / 2 ^ 54 = if prot.testBit 2 then 0 else 1

theorem leafDescriptor_eq (phys prot : ℕ) :
    leafDescriptor phys prot = outputAddress phys +
      (2 ^ 48 * (if prot.testBit 2 then 32 else 96) + if prot.testBit 1 then 0xf43 else 0xfc3) := by
  have hwrite : (prot &&& protWrite ≠ 0) = (prot.testBit 1 = true) := by
    rw [show protWrite = 2 ^ 1 from rfl, Nat.and_two_pow]
    cases prot.testBit 1 <;> simp
  have hexec : (prot &&& protExec = 0) = (prot.testBit 2 = false) := by
    rw [show protExec = 2 ^ 2 from rfl, Nat.and_two_pow]
    cases prot.testBit 2 <;> simp
  unfold leafDescriptor
  simp only [hwrite, hexec]
  cases prot.testBit 1 <;> cases prot.testBit 2 <;>
    simp only [Nat.or_assoc, pteAddr, and_addrMask, if_true, Bool.false_eq_true, if_false,
      reduceCtorEq]
  · exact or_outputAddress phys 96 (show 0xfc3 < 4096 by norm_num)
  · exact or_outputAddress phys 32 (show 0xfc3 < 4096 by norm_num)
  · exact or_outputAddress phys 96 (show 0xf43 < 4096 by norm_num)
  · exact or_outputAddress phys 32 (show 0xf43 < 4096 by norm_num)

theorem leafDescriptor_lt (phys prot : ℕ) :
    leafDescriptor phys prot < 2 ^ 64 ∧ leafDescriptor phys prot % 4 = 3 := by
  rw [leafDescriptor_eq]
  unfold outputAddress
  cases prot.testBit 1 <;> cases prot.testBit 2 <;> simp <;> omega

theorem leafSpec {phys : ℕ} (halign : phys % pageSize = 0) (hlt : phys < 2 ^ 48) (prot : ℕ) :
    LeafSpec phys prot (leafDescriptor phys prot) := by
  unfold pageSize at halign
  rw [leafDescriptor_eq, outputAddress_of_aligned halign hlt]
  constructor <;> cases prot.testBit 1 <;> cases prot.testBit 2 <;>
    simp [outputAddress, mairIdxNormal] <;> omega

/-! ## The forest -/

/-- The tables of the live roots: frames of the allocator, with empty entries and
entries that the hardware follows. -/
structure ArmTables {ι : Type} (slack : ℕ) (p : Pmm) (m : Bytes) (root : ι → Option ℕ) : Prop where
  tables : Tables slack p m armTable 3 root
  top : p.memPhysBase + p.totalFrames * pageSize ≤ 2 ^ 48
  pool : ∀ u, IsTable armTable (tableEntry m) 3 root u → ∃ f < p.totalFrames, p.frameAddr f = u
  shape : ∀ u, IsTable armTable (tableEntry m) 3 root u → ∀ i,
    tableEntry m u i = 0 ∨ tableEntry m u i % 4 = 3

/-- The frames that are taken are the new tables below `r`, and only tables below `r` are
written. -/
structure Takes {ι : Type} (root : ι → Option ℕ) (r : ι) (p : Pmm) (m : Bytes) (p' : Pmm)
    (m' : Bytes) : Prop where
  grown : Grown p p'
  others : ∀ r', r' ≠ r → ∀ u, Reaches armTable (tableEntry m') 3 root r' u ↔
    Reaches armTable (tableEntry m) 3 root r' u
  took : ∀ u, Reaches armTable (tableEntry m') 3 root r u ↔
    Reaches armTable (tableEntry m) 3 root r u ∨ ∃ f < p.totalFrames, p.used f = false ∧
      p'.used f = true ∧ p.frameAddr f = u ∧ u ≠ 0
  bytes : ∀ y, (∀ u, Reaches armTable (tableEntry m') 3 root r u → y < u ∨ u + pageSize ≤ y) →
    m' y = m y

/-- What a walk below `r` may do: hang empty tables. -/
structure Extends {ι : Type} (root : ι → Option ℕ) (r : ι) (p : Pmm) (m : Bytes) (p' : Pmm)
    (m' : Bytes) : Prop extends Takes root r p m p' m' where
  leaves : ∀ r' σ j, σ.length = 3 → lookupAt armTable armLeaf (tableEntry m') root r' σ j =
    lookupAt armTable armLeaf (tableEntry m) root r' σ j

section Forest

variable {ι : Type} {slack n : ℕ} {p p' p'' : Pmm} {m m' m'' : Bytes} {root : ι → Option ℕ} {r : ι}
  {t a : ℕ} {π : List (Fin 512)} {i : Fin 512} {page : PageNumber} {x : Option ℕ}

theorem armTable_zero : armTable 0 = none := rfl

theorem Extends.refl : Extends root r p m p m where
  grown := Grown.refl p
  leaves := fun _ _ _ _ => rfl
  others := fun _ _ _ => Iff.rfl
  took := by
    intro u
    refine ⟨Or.inl, ?_⟩
    rintro (h | ⟨f, _, hclear, hset, _⟩)
    · exact h
    · rw [hclear] at hset
      cases hset
  bytes := fun _ _ => rfl

theorem Extends.trans (h : Extends root r p m p' m') (k : Extends root r p' m' p'' m'') :
    Extends root r p m p'' m'' where
  grown := h.grown.trans k.grown
  leaves := fun r' σ j hσ => (k.leaves r' σ j hσ).trans (h.leaves r' σ j hσ)
  others := fun r' hr u => (k.others r' hr u).trans (h.others r' hr u)
  took := by
    intro u
    have htotal := h.grown.1.2
    have haddr := h.grown.1.frameAddr
    rw [k.took u, h.took u]
    constructor
    · rintro ((hu | ⟨f, hf, hclear, hset, heq⟩) | ⟨f, hf, hclear, hset, heq⟩)
      · exact Or.inl hu
      · exact Or.inr ⟨f, hf, hclear, k.grown.2 f hset, heq⟩
      · refine Or.inr ⟨f, by omega, ?_, hset, by rw [← haddr]; exact heq⟩
        cases hold : p.used f with
        | false => rfl
        | true =>
            rw [h.grown.2 f hold] at hclear
            cases hclear
    · rintro (hu | ⟨f, hf, hclear, hset, heq⟩)
      · exact Or.inl (Or.inl hu)
      · cases hmid : p'.used f with
        | false => exact Or.inr ⟨f, by omega, hmid, hset, by rw [haddr]; exact heq⟩
        | true => exact Or.inl (Or.inr ⟨f, hf, hclear, hmid, heq⟩)
  bytes := by
    intro y hoff
    rw [k.bytes y hoff]
    exact h.bytes y fun u hu => hoff u ((k.took u).mpr (Or.inl hu))

/-- A frame that is not linked to anything leaves the tables as they are. -/
theorem Extends.lost {f : ℕ} (hzero : p.frameAddr f = 0) :
    Extends root r p m (takeFrame p f) m where
  grown := Grown.takeFrame p f
  leaves := fun _ _ _ _ => rfl
  others := fun _ _ _ => Iff.rfl
  took := by
    intro u
    refine ⟨Or.inl, ?_⟩
    rintro (hu | ⟨g, hg, hgclear, hset, heq, hne⟩)
    · exact hu
    · rw [takeFrame_used, hgclear, Bool.or_false, decide_eq_true_iff] at hset
      rw [hset, hzero] at heq
      exact absurd heq.symm hne
  bytes := fun _ _ => rfl

/-- Everything that `alloc_table_page` does. -/
theorem allocTablePage_some (h : PmmInv slack p)
    (hs : allocTablePage p m = some (a, p', m')) :
    (a = 0 ∧ m' = m ∧ (p' = p ∧ (∀ f < p.totalFrames, p.used f = true) ∨
        ∃ f < p.totalFrames, p.used f = false ∧ p.frameAddr f = 0 ∧ p' = takeFrame p f)) ∨
      (a ≠ 0 ∧ ∃ f < p.totalFrames, p.used f = false ∧ a = p.frameAddr f ∧ p' = takeFrame p f ∧
        m' = fill m a 0#8 pageSize) := by
  unfold allocTablePage at hs
  cases halloc : pmmAllocFrame p with
  | none => simp [halloc] at hs
  | some b =>
      obtain ⟨phys, q⟩ := b
      simp only [halloc] at hs
      have hframe := h.allocFrame_some halloc
      split at hs
      · rename_i hzero
        cases hs
        rcases hframe with ⟨_, rfl, hall⟩ | ⟨f, hf, hclear, rfl, rfl⟩
        · exact Or.inl ⟨rfl, rfl, Or.inl ⟨rfl, hall⟩⟩
        · exact Or.inl ⟨rfl, rfl, Or.inr ⟨f, hf, hclear, hzero, rfl⟩⟩
      · rename_i hne
        cases hs
        rcases hframe with ⟨hzero, _, _⟩ | ⟨f, hf, hclear, hphys, rfl⟩
        · exact absurd hzero hne
        · exact Or.inr ⟨hne, f, hf, hclear, hphys, rfl, rfl⟩

namespace ArmTables

/-- Other memory and other frames do not matter. -/
theorem congr (h : ArmTables slack p m root) {slack' : ℕ} (hp : PmmInv slack' p')
    (hrange : SameRange p p')
    (hused : ∀ u f, IsTable armTable (tableEntry m) 3 root u → f < p'.totalFrames →
      p'.used f = false → p'.frameAddr f ≠ u)
    (hbytes : ∀ u, IsTable armTable (tableEntry m) 3 root u → ∀ x, u ≤ x → x < u + pageSize →
      m' x = m x) :
    ArmTables slack' p' m' root ∧
      ∀ u, IsTable armTable (tableEntry m) 3 root u →
        ∀ j, tableEntry m' u j = tableEntry m u j := by
  have hkeep : ∀ u, IsTable armTable (tableEntry m) 3 root u → ∀ j,
      tableEntry m' u j = tableEntry m u j := fun u hu j => tableEntry_congr (hbytes u hu)
  have hback : ∀ u, IsTable armTable (tableEntry m') 3 root u →
      IsTable armTable (tableEntry m) 3 root u := by
    rintro u ⟨r, hu⟩
    exact ⟨r, (reaches_keep hkeep).mp hu⟩
  refine ⟨⟨h.tables.congr hp hrange hused hbytes, ?_, ?_, ?_⟩, hkeep⟩
  · rw [hrange.1, hrange.2]
    exact h.top
  · intro u hu
    obtain ⟨f, hf, heq⟩ := h.pool u (hback u hu)
    exact ⟨f, by rw [hrange.2]; exact hf, by rw [hrange.frameAddr]; exact heq⟩
  · intro u hu j
    rw [hkeep u (hback u hu)]
    exact h.shape u (hback u hu) j

/-- Frames that are taken otherwise do not matter either. -/
theorem grown (h : ArmTables slack p m root) {slack' : ℕ} (hp : PmmInv slack' p')
    (hg : Grown p p') : ArmTables slack' p' m root where
  tables := h.tables.grown hp hg
  top := by rw [hg.1.1, hg.1.2]; exact h.top
  pool := by
    intro u hu
    obtain ⟨f, hf, heq⟩ := h.pool u hu
    exact ⟨f, by rw [hg.1.2]; exact hf, by rw [hg.1.frameAddr]; exact heq⟩
  shape := h.shape

theorem address (h : ArmTables slack p m root) {f : ℕ} (hf : f < p.totalFrames) :
    p.frameAddr f % 4096 = 0 ∧ p.frameAddr f < 2 ^ 48 := by
  have htop := h.top
  have hpage := (h.tables.frame_page hf).1
  rw [h.tables.pmm.frameAddr_eq hf] at hpage ⊢
  unfold pageSize at *
  omega

/-- Everything that one level of `walk_create` does. -/
theorem child (h : ArmTables slack p m root)
    (ht : rootAt armTable (tableEntry m) root r π = some t) (hπ : π.length < 3)
    (hs : childTable p m (t + 8 * i.val) = some (x, p', m')) :
    ArmTables slack p' m' root ∧ Extends root r p m p' m' ∧
      ∀ u, x = some u → rootAt armTable (tableEntry m') root r (π ++ [i]) = some u := by
  have htable : IsTable armTable (tableEntry m) 3 root t := ⟨r, π, hπ.le, ht⟩
  have hentry : readLE m (t + 8 * i.val) 8 = tableEntry m t i := rfl
  have hshape := h.shape t htable i
  unfold childTable at hs
  rw [hentry, and_valid] at hs
  split at hs
  · rename_i heven
    have hfree : armTable (tableEntry m t i) = none := if_neg (by omega)
    cases halloc : allocTablePage p m with
    | none => simp [halloc] at hs
    | some b =>
        obtain ⟨a, q, n⟩ := b
        simp only [halloc] at hs
        rcases allocTablePage_some h.tables.pmm halloc with
          ⟨rfl, rfl, hq⟩ | ⟨hne, f, hf, hclear, rfl, rfl, rfl⟩
        · rw [if_pos rfl] at hs
          cases hs
          rcases hq with ⟨rfl, _⟩ | ⟨f, hf, hclear, hzero, rfl⟩
          · exact ⟨h, Extends.refl, fun u hu => by cases hu⟩
          · exact ⟨h.grown (h.tables.pmm.takeFrame hf hclear) (Grown.takeFrame p f),
              Extends.lost hzero, fun u hu => by cases hu⟩
        · rw [if_neg hne] at hs
          cases hs
          obtain ⟨hpage, hlt⟩ := h.address hf
          have hlink : armTable (p.frameAddr f + 3) = some (p.frameAddr f) := by
            unfold armTable outputAddress
            rw [if_pos (by omega)]
            exact congrArg some (by omega)
          rw [link_eq hpage hlt]
          obtain ⟨m', hm'⟩ : ∃ m', m' = writeLE (fill m (p.frameAddr f) 0#8 pageSize)
              (t + 8 * i.val) 8 (p.frameAddr f + 3) := ⟨_, rfl⟩
          rw [← hm']
          obtain ⟨hhang, hempty, htables⟩ :=
            h.tables.hang ht hπ hfree hf hclear (by omega) hlink armTable_zero hm'
          have hback : readLE m' (t + 8 * i.val) 8 = p.frameAddr f + 3 := by
            rw [hm', readLE_writeLE_self]
            exact Nat.mod_eq_of_lt (lt_of_lt_of_eq (show _ < 2 ^ 64 by omega) (by norm_num))
          refine ⟨⟨htables, h.top, ?_, ?_⟩, ⟨⟨Grown.takeFrame p f, ?_, ?_, ?_⟩, ?_⟩, ?_⟩
          · intro u hu
            rcases (h.tables.forest.isTable_hang hhang).mp hu with hu | rfl
            · exact h.pool u hu
            · exact ⟨f, hf, rfl⟩
          · intro u hu j
            rcases (h.tables.forest.isTable_hang hhang).mp hu with hu | rfl
            · by_cases hut : u = t
              · subst hut
                by_cases hj : j = i
                · rw [hj, show tableEntry m' u i = _ from hback]
                  exact Or.inr (by omega)
                · rw [hhang.row j hj]
                  exact h.shape u hu j
              · rw [hhang.keep u hu hut]
                exact h.shape u hu j
            · exact Or.inl (hempty j)
          · intro r' hr u
            rw [h.tables.forest.reaches_hang hhang]
            exact ⟨fun hu => hu.resolve_right fun hh => hr hh.1, Or.inl⟩
          · intro u
            rw [h.tables.forest.reaches_hang hhang]
            constructor
            · rintro (hu | ⟨_, rfl⟩)
              · exact Or.inl hu
              · exact Or.inr ⟨f, hf, hclear, by rw [takeFrame_used]; simp, rfl, hne⟩
            · rintro (hu | ⟨g, hg, hgclear, hset, rfl, _⟩)
              · exact Or.inl hu
              · rw [takeFrame_used, hgclear, Bool.or_false, decide_eq_true_iff] at hset
                exact Or.inr ⟨rfl, by rw [hset]⟩
          · intro y hoff
            have hnew := hoff (p.frameAddr f)
              ((h.tables.forest.reaches_hang hhang).mpr (Or.inr ⟨rfl, rfl⟩))
            have hrow := hoff t
              ((h.tables.forest.reaches_hang hhang).mpr (Or.inl ⟨π, hπ.le, ht⟩))
            have hi := i.isLt
            unfold pageSize at hrow
            rw [hm', writeLE_out (by omega), fill_out hnew]
          · intro r' σ j hσ
            refine h.tables.forest.lookupAt_hang hhang ?_ hσ
            intro k
            rw [hempty k]
            rfl
          · intro u hu
            rw [hback, and_addrMask] at hu
            rw [h.tables.forest.rootAt_hang_new hhang, ← hu]
            unfold outputAddress
            exact congrArg some (by omega)
  · rename_i hodd
    cases hs
    refine ⟨h, Extends.refl, ?_⟩
    intro u hu
    rw [rootAt_concat, ht, ← hu, and_addrMask, Option.bind_some]
    exact if_pos (hshape.resolve_left fun hzero => hodd (by rw [hzero]))

/-- A walk ends at the table of its path, or fails for want of a frame. -/
theorem walk (h : ArmTables slack p m root)
    (ht : rootAt armTable (tableEntry m) root r π = some t) (hπ : π.length + n = 3) {va : ℕ}
    (hs : walkCreate va n t p m = some (x, p', m')) :
    ArmTables slack p' m' root ∧ Extends root r p m p' m' ∧
      ∀ pte, x = some pte → ∃ u, rootAt armTable (tableEntry m') root r
          (π ++ pagePath (pageNumber va) n) = some u ∧
        pte = u + 8 * (pageIndex (pageNumber va) 0).val := by
  induction n generalizing t p m π with
  | zero =>
      cases hs
      refine ⟨h, Extends.refl, ?_⟩
      intro pte hpte
      refine ⟨t, by rw [pagePath, List.append_nil]; exact ht, ?_⟩
      rw [← Option.some.inj hpte, ← levelIndex_eq (by norm_num)]
      rfl
  | succ n ih =>
      rw [walkCreate, levelIndex_eq (by omega)] at hs
      cases hc : childTable p m (t + 8 * (pageIndex (pageNumber va) (n + 1)).val) with
      | none => simp [hc] at hs
      | some b =>
          obtain ⟨y, q, k⟩ := b
          obtain ⟨hq, hext, hat⟩ := h.child ht (by omega) hc
          cases y with
          | none =>
              simp only [hc, Option.some.injEq, Prod.mk.injEq] at hs
              obtain ⟨rfl, rfl, rfl⟩ := hs
              exact ⟨hq, hext, fun pte hpte => by cases hpte⟩
          | some u =>
              simp only [hc] at hs
              obtain ⟨h', hext', hat'⟩ := ih hq (hat u rfl)
                (by rw [List.length_append, List.length_singleton]; omega) hs
              refine ⟨h', hext.trans hext', fun pte hpte => ?_⟩
              obtain ⟨v, hv, hpte⟩ := hat' pte hpte
              refine ⟨v, ?_, hpte⟩
              rw [pagePath, List.append_cons]
              exact hv

/-! ## The hardware walk -/

/-- The hardware follows the path of its page. -/
theorem hwWalkFrom_eq (h : ArmTables slack p m root)
    (ht : rootAt armTable (tableEntry m) root r π = some t) (hπ : π.length + n = 3) :
    hwWalkFrom m page n t =
      lookupAt armTable armLeaf (tableEntry m) root r (π ++ pagePath page n)
        (pageIndex page 0) := by
  have hshape := h.shape t ⟨r, π, by omega, ht⟩
  induction n generalizing t π with
  | zero =>
      have hlast : (pageIndex page 0).val = page.val % 512 := by
        change page.val / 512 ^ 0 % 512 = page.val % 512
        rw [pow_zero, Nat.div_one]
      unfold lookupAt
      rw [pagePath, List.append_nil, ht, hwWalkFrom, Option.bind_some, armLeaf, tableEntry, hlast]
  | succ n ih =>
      have hentry : readLE m (t + 8 * (page.val / 512 ^ (n + 1) % 512)) 8 =
          tableEntry m t (pageIndex page (n + 1)) := rfl
      have hstep : rootAt armTable (tableEntry m) root r (π ++ [pageIndex page (n + 1)]) =
          armTable (tableEntry m t (pageIndex page (n + 1))) := by
        rw [rootAt_concat, ht, Option.bind_some]
      rw [hwWalkFrom, hentry, pagePath, List.append_cons]
      rcases hshape (pageIndex page (n + 1)) with hzero | htable
      · rw [hzero] at hstep ⊢
        have hnone : rootAt armTable (tableEntry m) root r
            ((π ++ [pageIndex page (n + 1)]) ++ pagePath page n) = none := by
          cases hroot : root r with
          | none =>
              unfold rootAt
              rw [hroot]
              rfl
          | some t₀ =>
              rw [rootAt_of_root hroot] at hstep ⊢
              rw [tableAt_append, hstep]
              rfl
        unfold lookupAt
        rw [hnone]
        rfl
      · have hchild : rootAt armTable (tableEntry m) root r (π ++ [pageIndex page (n + 1)]) =
            some (outputAddress (tableEntry m t (pageIndex page (n + 1)))) := by
          rw [hstep, armTable, if_pos htable]
        have hlen : (π ++ [pageIndex page (n + 1)]).length + n = 3 := by
          rw [List.length_append, List.length_singleton]
          omega
        rw [if_pos htable]
        exact ih hchild hlen (h.shape _ ⟨r, _, by omega, hchild⟩)

theorem hwWalk_eq (h : ArmTables slack p m root) (ht : root r = some t) :
    hwWalk m t page =
      lookupAt armTable armLeaf (tableEntry m) root r (pagePath page 3) (pageIndex page 0) :=
  h.hwWalkFrom_eq (π := []) (by rw [rootAt_nil, ht]) rfl

/-- A walk changes no translation. -/
theorem hwWalk_extends (h : ArmTables slack p m root) (h' : ArmTables slack p' m' root)
    (hext : Extends root r p m p' m') {r' : ι} (ht : root r' = some t) :
    hwWalk m' t page = hwWalk m t page := by
  rw [h.hwWalk_eq ht, h'.hwWalk_eq ht, hext.leaves _ _ _ (pagePath_length page 3)]

/-- Writing the leaf of a page binds that page below `r`, and nothing else. -/
theorem writeLeaf [DecidableEq ι] (h : ArmTables slack p m root) {u d : ℕ}
    (hu : rootAt armTable (tableEntry m) root r (pagePath page 3) = some u)
    (hd : d < 2 ^ 64) (hshape : d = 0 ∨ d % 4 = 3)
    (hm' : m' = writeLE m (u + 8 * (pageIndex page 0).val) 8 d) :
    ArmTables slack p m' root ∧
      (∀ r' s, Reaches armTable (tableEntry m') 3 root r' s ↔
        Reaches armTable (tableEntry m) 3 root r' s) ∧
      ∀ r' t, root r' = some t → ∀ page', hwWalk m' t page' =
        if r' = r ∧ page' = page then armLeaf d else hwWalk m t page' := by
  have hlen := pagePath_length page 3
  obtain ⟨htables, hnew, hrow, hother⟩ := h.tables.leaf hu hlen hd hm'
  have hback : ∀ s, IsTable armTable (tableEntry m') 3 root s →
      IsTable armTable (tableEntry m) 3 root s := by
    rintro s ⟨r', hs⟩
    exact ⟨r', (h.tables.forest.reaches_leaf hu hlen hother).mp hs⟩
  have h' : ArmTables slack p m' root := by
    refine ⟨htables, h.top, fun s hs => h.pool s (hback s hs), ?_⟩
    intro s hs i
    by_cases hsu : s = u
    · subst hsu
      by_cases hi : i = pageIndex page 0
      · rw [hi, hnew]
        exact hshape
      · rw [hrow i hi]
        exact h.shape s (hback s hs) i
    · rw [hother s (hback s hs) hsu]
      exact h.shape s (hback s hs) i
  refine ⟨h', fun r' s => h.tables.forest.reaches_leaf hu hlen hother, ?_⟩
  intro r' t ht page'
  rw [h'.hwWalk_eq ht, h.hwWalk_eq ht]
  by_cases hsame : r' = r ∧ page' = page
  · obtain ⟨rfl, rfl⟩ := hsame
    rw [if_pos ⟨rfl, rfl⟩, ← hnew]
    exact h.tables.forest.lookupAt_leaf_self hu hlen hother
  · rw [if_neg hsame]
    refine h.tables.forest.lookupAt_leaf hu hlen hother hrow (pagePath_length page' 3) ?_
    rintro ⟨hr, hpath, hlast⟩
    exact hsame ⟨hr, page_eq_of_path hpath hlast⟩

end ArmTables

end Forest

end Vectra.Arm64

import Vectra.Lib.Bytes
import Vectra.Lib.RadixTree
import Vectra.Mm.SlabInvariant

/-!
# Page tables over the frame allocator

A table is a page of 512 words. The tables below a set of roots form a
forest, and none of them is a frame that the allocator may still hand out.
-/

namespace Vectra

open Lib

/-- Entry `i` of the table at `t`. -/
def tableEntry (m : Bytes) (t : ℕ) (i : Fin 512) : ℕ := readLE m (t + 8 * i.val) 8

/-- The tables below `root`, in the memory `m` and with the frames of `p`. -/
structure Tables {ι : Type} (slack : ℕ) (p : Pmm) (m : Bytes) (ptr : ℕ → Option ℕ) (depth : ℕ)
    (root : ι → Option ℕ) : Prop where
  pmm : PmmInv slack p
  aligned : p.memPhysBase % pageSize = 0
  forest : Forest ptr (tableEntry m) depth root
  page : ∀ u, IsTable ptr (tableEntry m) depth root u → u % pageSize = 0 ∧ u < 2 ^ 64
  taken : ∀ u f, IsTable ptr (tableEntry m) depth root u → f < p.totalFrames →
    p.used f = false → p.frameAddr f ≠ u

/-- The allocator has its range and every used frame still. -/
def Grown (p p' : Pmm) : Prop :=
  SameRange p p' ∧ ∀ j, p.used j = true → p'.used j = true

theorem Grown.refl (p : Pmm) : Grown p p := ⟨SameRange.refl p, fun _ h => h⟩

theorem Grown.trans {p q r : Pmm} (h : Grown p q) (k : Grown q r) : Grown p r :=
  ⟨h.1.trans k.1, fun j hj => k.2 j (h.2 j hj)⟩

theorem Grown.takeFrame (p : Pmm) (f : ℕ) : Grown p (takeFrame p f) := by
  refine ⟨takeFrame_sameRange p f, fun j hj => ?_⟩
  rw [takeFrame_used, hj, Bool.or_true]

section Entries

variable {m : Bytes} {s t e : ℕ} {i j : Fin 512}

theorem tableEntry_zeros (t : ℕ) (i : Fin 512) : tableEntry (fun _ => 0#8) t i = 0 := by
  simp [tableEntry, readLE]

theorem tableEntry_write (ht : t % pageSize = 0) (hs : s % pageSize = 0) (he : e < 2 ^ 64) :
    tableEntry (writeLE m (t + 8 * i.val) 8 e) s j =
      if s = t ∧ j = i then e else tableEntry m s j := by
  unfold tableEntry
  by_cases heq : s = t ∧ j = i
  · rw [if_pos heq, heq.1, heq.2, readLE_writeLE_self]
    exact Nat.mod_eq_of_lt (by simpa using he)
  · rw [if_neg heq]
    apply readLE_writeLE_of_disjoint
    have hi := i.isLt
    have hj := j.isLt
    unfold pageSize at ht hs
    by_cases hst : s = t
    · have hij : j.val ≠ i.val := fun h => heq ⟨hst, Fin.ext h⟩
      omega
    · omega

theorem tableEntry_fill_self : tableEntry (fill m t 0#8 pageSize) t j = 0 := by
  have hj := j.isLt
  exact readLE_fill_zero (by omega) (by unfold pageSize; omega)

theorem tableEntry_fill (ht : t % pageSize = 0) (hs : s % pageSize = 0) :
    tableEntry (fill m t 0#8 pageSize) s j = if s = t then 0 else tableEntry m s j := by
  have hj := j.isLt
  by_cases heq : s = t
  · rw [if_pos heq, heq]
    exact tableEntry_fill_self
  · rw [if_neg heq]
    unfold tableEntry
    apply readLE_congr
    intro x hlo hhi
    apply fill_out
    unfold pageSize at *
    omega

/-- Entries in equal bytes are equal. -/
theorem tableEntry_congr {m' : Bytes} (h : ∀ x, t ≤ x → x < t + pageSize → m' x = m x) :
    tableEntry m' t j = tableEntry m t j := by
  have hj := j.isLt
  apply readLE_congr
  intro x hlo hhi
  exact h x (by omega) (by unfold pageSize; omega)

end Entries

namespace Tables

variable {ι : Type} {slack depth f t e : ℕ} {p p' : Pmm} {m m' : Bytes} {ptr : ℕ → Option ℕ}
  {root : ι → Option ℕ} {r : ι} {π : List (Fin 512)} {i : Fin 512}

theorem frame_page (h : Tables slack p m ptr depth root) (hf : f < p.totalFrames) :
    p.frameAddr f % pageSize = 0 ∧ p.frameAddr f + pageSize ≤ 2 ^ 64 := by
  have hr := h.pmm.range
  have ha := h.aligned
  rw [h.pmm.frameAddr_eq hf]
  unfold pageSize at *
  omega

/-- Other memory and other frames do not matter. -/
theorem congr (h : Tables slack p m ptr depth root) {slack' : ℕ} (hp : PmmInv slack' p')
    (hrange : SameRange p p')
    (hused : ∀ u f, IsTable ptr (tableEntry m) depth root u → f < p'.totalFrames →
      p'.used f = false → p'.frameAddr f ≠ u)
    (hbytes : ∀ u, IsTable ptr (tableEntry m) depth root u → ∀ x, u ≤ x → x < u + pageSize →
      m' x = m x) :
    Tables slack' p' m' ptr depth root := by
  have hkeep : ∀ s, IsTable ptr (tableEntry m) depth root s → ∀ j,
      tableEntry m' s j = tableEntry m s j := fun s hs j => tableEntry_congr (hbytes s hs)
  have hback : ∀ u, IsTable ptr (tableEntry m') depth root u →
      IsTable ptr (tableEntry m) depth root u := by
    rintro u ⟨r, σ, hσ, hu⟩
    rw [rootAt_keep hkeep hσ] at hu
    exact ⟨r, σ, hσ, hu⟩
  exact
    { pmm := hp
      aligned := by rw [hrange.1]; exact h.aligned
      forest := h.forest.keep hkeep
      page := fun u hu => h.page u (hback u hu)
      taken := fun u f hu => hused u f (hback u hu) }

/-- Fewer free frames do not matter either. -/
theorem grown (h : Tables slack p m ptr depth root) {slack' : ℕ} (hp : PmmInv slack' p')
    (hg : Grown p p') : Tables slack' p' m ptr depth root := by
  refine h.congr hp hg.1 ?_ fun _ _ _ _ _ => rfl
  intro u f hu hf hclear
  rw [hg.1.frameAddr]
  refine h.taken u f hu (by rw [← hg.1.2]; exact hf) ?_
  cases hset : p.used f with
  | false => rfl
  | true =>
      rw [hg.2 f hset] at hclear
      cases hclear

/-- A zeroed frame is hung below an entry that pointed nowhere. -/
theorem hang (h : Tables slack p m ptr depth root)
    (ht : rootAt ptr (tableEntry m) root r π = some t) (hπ : π.length < depth)
    (hfree : ptr (tableEntry m t i) = none) (hf : f < p.totalFrames) (hclear : p.used f = false)
    (he : e < 2 ^ 64) (hlink : ptr e = some (p.frameAddr f)) (hzero : ptr 0 = none)
    (hm' : m' = writeLE (fill m (p.frameAddr f) 0#8 pageSize) (t + 8 * i.val) 8 e) :
    Forest.Hang ptr (tableEntry m) (tableEntry m') depth root r π i t (p.frameAddr f) ∧
      (∀ j, tableEntry m' (p.frameAddr f) j = 0) ∧
      Tables slack (takeFrame p f) m' ptr depth root := by
  have htable : IsTable ptr (tableEntry m) depth root t := ⟨r, π, hπ.le, ht⟩
  have hpage := (h.page t htable).1
  have hnew := (h.frame_page hf).1
  have hne : t ≠ p.frameAddr f := fun heq => h.taken t f htable hf hclear heq.symm
  have hentry : ∀ s j, s % pageSize = 0 → tableEntry m' s j =
      if s = t ∧ j = i then e else if s = p.frameAddr f then 0 else tableEntry m s j := by
    intro s j hs
    rw [hm', tableEntry_write hpage hs he, tableEntry_fill hnew hs]
  have hempty : ∀ j, tableEntry m' (p.frameAddr f) j = 0 := by
    intro j
    rw [hentry _ j hnew, if_neg (fun hh => hne hh.1.symm), if_pos rfl]
  have hhang : Forest.Hang ptr (tableEntry m) (tableEntry m') depth root r π i t
      (p.frameAddr f) := by
    refine ⟨ht, hπ, hfree, fun hu => h.taken _ f hu hf hclear rfl, ?_, ?_, ?_, ?_⟩
    · rw [hentry t i hpage, if_pos ⟨rfl, rfl⟩]
      exact hlink
    · intro j hj
      rw [hentry t j hpage, if_neg (fun hh => hj hh.2), if_neg hne]
    · intro j
      rw [hempty j]
      exact hzero
    · intro s hs hst j
      rw [hentry s j (h.page s hs).1, if_neg (fun hh => hst hh.1),
        if_neg (fun heq => h.taken s f hs hf hclear heq.symm)]
  refine ⟨hhang, hempty, ?_⟩
  exact
    { pmm := h.pmm.takeFrame hf hclear
      aligned := h.aligned
      forest := h.forest.hang hhang
      page := by
        intro u hu
        rcases (h.forest.isTable_hang hhang).mp hu with hu | rfl
        · exact h.page u hu
        · have hlt := (h.frame_page hf).2
          unfold pageSize at *
          omega
      taken := by
        intro u g hu hg hgclear
        rw [takeFrame_used, Bool.or_eq_false_iff, decide_eq_false_iff_not] at hgclear
        rcases (h.forest.isTable_hang hhang).mp hu with hu | rfl
        · exact h.taken u g hu hg hgclear.2
        · intro heq
          exact hgclear.1 ((frameAddr_inj h.pmm hg hf).mp heq) }

/-- An entry of the last level is written. -/
theorem leaf (h : Tables slack p m ptr depth root)
    (ht : rootAt ptr (tableEntry m) root r π = some t) (hπ : π.length = depth) (he : e < 2 ^ 64)
    (hm' : m' = writeLE m (t + 8 * i.val) 8 e) :
    Tables slack p m' ptr depth root ∧ tableEntry m' t i = e ∧
      (∀ j, j ≠ i → tableEntry m' t j = tableEntry m t j) ∧
      ∀ s, IsTable ptr (tableEntry m) depth root s → s ≠ t → ∀ j,
        tableEntry m' s j = tableEntry m s j := by
  have htable : IsTable ptr (tableEntry m) depth root t := ⟨r, π, hπ.le, ht⟩
  have hpage := (h.page t htable).1
  have hentry : ∀ s j, s % pageSize = 0 → tableEntry m' s j =
      if s = t ∧ j = i then e else tableEntry m s j := by
    intro s j hs
    rw [hm', tableEntry_write hpage hs he]
  have hkeep : ∀ s, IsTable ptr (tableEntry m) depth root s → s ≠ t → ∀ j,
      tableEntry m' s j = tableEntry m s j := by
    intro s hs hst j
    rw [hentry s j (h.page s hs).1, if_neg (fun hh => hst hh.1)]
  have hback : ∀ u, IsTable ptr (tableEntry m') depth root u →
      IsTable ptr (tableEntry m) depth root u := by
    rintro u ⟨r', σ, hσ, hu⟩
    rw [h.forest.rootAt_leaf ht hπ hkeep hσ] at hu
    exact ⟨r', σ, hσ, hu⟩
  refine ⟨⟨h.pmm, h.aligned, h.forest.leaf ht hπ hkeep, fun u hu => h.page u (hback u hu),
    fun u f hu => h.taken u f (hback u hu)⟩, ?_, ?_, hkeep⟩
  · rw [hentry t i hpage, if_pos ⟨rfl, rfl⟩]
  · intro j hj
    rw [hentry t j hpage, if_neg (fun hh => hj hh.2)]

end Tables

end Vectra

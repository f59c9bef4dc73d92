import Vectra.Ob.Cap

/-!
# The objects in memory

The invariant of the memory below the object manager, over the headers of
the live objects as a partial map. Every store and every call into the slab
or the id table is one change of that map.
-/

namespace Vectra

open Lib SlabMem

/-- The caches of the object manager: the one of the id table, and one for
each type. -/
inductive SlabId (n : ℕ)
  | node
  | type (i : Fin n)
  deriving DecidableEq

variable {n : ℕ} {T : Type}

def obCache (slabs : Fin n → SlabCache) (ht : Hashtable) : SlabId n → SlabCache
  | .node => ht.nodeCache
  | .type i => slabs i

structure ObjectHeader where
  typeId : ℕ
  refcount : ℕ
  handleCount : ℕ
  generation : ℕ
  objectId : ℕ
  destroyed : ℕ
  deriving DecidableEq

def readHeader (m : Bytes) (obj : ℕ) : ObjectHeader :=
  ⟨objTypeId.get m obj, objRefcount.get m obj, objHandleCount.get m obj, objGeneration.get m obj,
    objObjectId.get m obj, objDestroyed.get m obj⟩

/-- What the registration of the types guarantees: there are at most 64, a
slot holds the header, and the operations write the payload only. -/
structure TypesOk (types : Fin n → ObjectType) : Prop where
  count_le : n ≤ maxObjectTypes
  header_le : ∀ i, objectHeaderSize ≤ (types i).instanceSize
  create_payload : ∀ i f obj args m, (types i).create = some f →
    SameOff m (f obj args m).2 (obj + objectHeaderSize) ((types i).instanceSize - objectHeaderSize)
  destroy_payload : ∀ i f obj m, (types i).destroy = some f →
    SameOff m (f obj m) (obj + objectHeaderSize) ((types i).instanceSize - objectHeaderSize)

/-- The memory of the object manager; `V` maps the live objects to their
headers, and `E` lists the entries of the id table. -/
structure ObHeap (types : Fin n → ObjectType) (slack : ℕ) (m : Bytes) (p : Pmm)
    (slabs : Fin n → SlabCache) (ht : Hashtable) (o : SlabOwn (SlabId n)) (nodes : ℕ → List ℕ)
    (E : ℕ → List (ℕ × ℕ)) (V : ℕ → Option ObjectHeader) : Prop where
  ok : TypesOk types
  family : SlabFamily slack m p (obCache slabs ht) o
  table : HashRep m (obCache slabs ht) o .node ht nodes E
  size : ∀ i, (types i).instanceSize ≤ (slabs i).objSize
  live : ∀ i x, o.Held (obCache slabs ht) (.type i) x →
    V x = some (readHeader m x) ∧ objTypeId.get m x = i
  dead : ∀ x, (∀ i, ¬ o.Held (obCache slabs ht) (.type i) x) → V x = none

theorem obCache_type (slabs : Fin n → SlabCache) (ht : Hashtable)
    (i : Fin n) (c : SlabCache) :
    obCache (Function.update slabs i c) ht =
      Function.update (obCache slabs ht) (.type i) c := by
  funext j
  cases j with
  | node => rw [Function.update_of_ne (by simp)]; rfl
  | type j =>
      by_cases hij : j = i
      · rw [hij, Function.update_self]
        exact Function.update_self _ _ _
      · rw [Function.update_of_ne (by simpa using hij)]
        exact Function.update_of_ne hij _ _

theorem obCache_node (slabs : Fin n → SlabCache) (ht ht' : Hashtable) :
    obCache slabs ht' = Function.update (obCache slabs ht) .node ht'.nodeCache := by
  funext j
  cases j with
  | node => rw [Function.update_self]; rfl
  | type j => rw [Function.update_of_ne (by simp)]; rfl

/-! ## Headers -/

section Headers

variable {m m' : Bytes} {x v lo len : ℕ}

theorem readHeader_congr (h : SameIn m m' x objectHeaderSize) :
    readHeader m' x = readHeader m x := by
  unfold readHeader
  rw [Field.get_sameIn h (by decide), Field.get_sameIn h (by decide),
    Field.get_sameIn h (by decide), Field.get_sameIn h (by decide),
    Field.get_sameIn h (by decide), Field.get_sameIn h (by decide)]

/-- Two different fields of the header. -/
def HeaderApart (f g : Field) : Prop :=
  f.offset + f.size ≤ g.offset ∨ g.offset + g.size ≤ f.offset

instance (f g : Field) : Decidable (HeaderApart f g) :=
  inferInstanceAs (Decidable (_ ∨ _))

theorem get_set_header {f g : Field} (h : HeaderApart f g) :
    g.get (f.set m x v) x = g.get m x :=
  Field.get_set_of_apart (by unfold HeaderApart at h; unfold Field.Apart; omega)

theorem readHeader_setRefcount :
    readHeader (objRefcount.set m x v) x = { readHeader m x with refcount := v % 2 ^ 32 } := by
  unfold readHeader
  rw [ObjectHeader.mk.injEq]
  exact ⟨get_set_header (by decide), Field.get_set, get_set_header (by decide),
    get_set_header (by decide), get_set_header (by decide), get_set_header (by decide)⟩

theorem readHeader_setHandleCount :
    readHeader (objHandleCount.set m x v) x =
      { readHeader m x with handleCount := v % 2 ^ 32 } := by
  unfold readHeader
  rw [ObjectHeader.mk.injEq]
  exact ⟨get_set_header (by decide), get_set_header (by decide), Field.get_set,
    get_set_header (by decide), get_set_header (by decide), get_set_header (by decide)⟩

theorem readHeader_setDestroyed :
    readHeader (objDestroyed.set m x v) x = { readHeader m x with destroyed := v % 256 } := by
  unfold readHeader
  rw [ObjectHeader.mk.injEq]
  exact ⟨get_set_header (by decide), get_set_header (by decide), get_set_header (by decide),
    get_set_header (by decide), get_set_header (by decide), Field.get_set⟩

/-- The header that `object_create` writes; `destroyed` is what the slot held. -/
theorem readHeader_initHeader {typeId id : ℕ} (htype : typeId < 2 ^ 32) (hid : id < 2 ^ 64) :
    readHeader (initHeader m x typeId id) x =
      ⟨typeId, 1, 0, 0, id, objDestroyed.get m x⟩ := by
  unfold readHeader initHeader
  rw [ObjectHeader.mk.injEq]
  refine ⟨?_, ?_, ?_, ?_, ?_, ?_⟩
  · rw [get_set_header (by decide), get_set_header (by decide), get_set_header (by decide),
      get_set_header (by decide), get_set_header (by decide), Field.get_set_four rfl htype]
  · rw [get_set_header (by decide), get_set_header (by decide), get_set_header (by decide),
      get_set_header (by decide), Field.get_set_four rfl (by decide)]
  · rw [get_set_header (by decide), get_set_header (by decide), get_set_header (by decide),
      Field.get_set_four rfl (by decide)]
  · rw [get_set_header (by decide), get_set_header (by decide),
      Field.get_set_four rfl (by decide)]
  · rw [get_set_header (by decide), Field.get_set_eight rfl hid]
  · rw [get_set_header (by decide), get_set_header (by decide), get_set_header (by decide),
      get_set_header (by decide), get_set_header (by decide), get_set_header (by decide)]

theorem initHeader_sameOff (typeId id : ℕ) :
    SameOff m (initHeader m x typeId id) x objectHeaderSize := by
  intro y hy
  unfold objectHeaderSize at hy
  unfold initHeader
  change objLock.set _ _ _ y = m y
  rw [Field.set_out (by unfold objLock; dsimp only; omega),
    Field.set_out (by unfold objObjectId; dsimp only; omega),
    Field.set_out (by unfold objGeneration; dsimp only; omega),
    Field.set_out (by unfold objHandleCount; dsimp only; omega),
    Field.set_out (by unfold objRefcount; dsimp only; omega),
    Field.set_out (by unfold objTypeId; dsimp only; omega)]

end Headers

namespace ObHeap

variable {types : Fin n → ObjectType} {slack x : ℕ} {m m' m₁ : Bytes} {p p' : Pmm}
  {slabs : Fin n → SlabCache} {ht ht' : Hashtable} {o o' : SlabOwn (SlabId n)}
  {nodes nodes' : ℕ → List ℕ} {E E' : ℕ → List (ℕ × ℕ)} {V : ℕ → Option ObjectHeader} {i : Fin n}
  {hd : ObjectHeader} {c : SlabCache}

theorem held (h : ObHeap types slack m p slabs ht o nodes E V) (hx : V x = some hd) :
    ∃ i, o.Held (obCache slabs ht) (.type i) x ∧ hd = readHeader m x ∧ hd.typeId = i := by
  by_contra hno
  have hdead : ∀ i, ¬ o.Held (obCache slabs ht) (.type i) x := by
    intro i hheld
    obtain ⟨hlive, htype⟩ := h.live i x hheld
    rw [hx] at hlive
    cases hlive
    exact hno ⟨i, hheld, rfl, htype⟩
  rw [h.dead x hdead] at hx
  cases hx

theorem slot_size (h : ObHeap types slack m p slabs ht o nodes E V) (i : Fin n) :
    objectHeaderSize ≤ (obCache slabs ht (.type i)).objSize :=
  (h.ok.header_le i).trans (h.size i)

/-- Objects are at addresses below the end of the address space, and not null. -/
theorem addr (h : ObHeap types slack m p slabs ht o nodes E V) (hx : V x = some hd) :
    x ≠ 0 ∧ x < 2 ^ 64 := by
  obtain ⟨i, hheld, _⟩ := h.held hx
  have hlt := h.family.held_lt hheld
  exact ⟨h.family.held_pos hheld, by omega⟩

/-- A write into the slot of an object, apart from its type index. -/
theorem write (h : ObHeap types slack m p slabs ht o nodes E V)
    (hx : o.Held (obCache slabs ht) (.type i) x) {lo len : ℕ} (hlo : x ≤ lo)
    (hhi : lo + len ≤ x + (types i).instanceSize) (hsame : SameOff m m' lo len)
    (htype : objTypeId.get m' x = i) :
    ObHeap types slack m' p slabs ht o nodes E
      (Function.update V x (some (readHeader m' x))) := by
  have hsize := h.size i
  have hhi' : lo + len ≤ x + (obCache slabs ht (.type i)).objSize := hhi.trans (by
    change x + _ ≤ x + (slabs i).objSize
    omega)
  have hother : ∀ j y, o.Held (obCache slabs ht) j y → y ≠ x →
      SameIn m m' y (obCache slabs ht j).objSize := by
    intro j y hy hne
    have hsep := h.family.held_separate hy hx hne
    exact hsame.sameIn (by omega)
  refine ⟨h.ok, h.family.write hx hlo hhi' hsame,
    h.table.congr rfl h.table.cache_eq rfl rfl ?_, h.size, ?_, ?_⟩
  · intro b hb y hy
    have hheld := h.table.held b hb y hy
    have hne : y ≠ x := by
      rintro rfl
      have hij := h.family.held_inj hheld hx
      cases hij
    have hsame' := hother .node y hheld hne
    rw [h.table.cache_eq, h.table.size] at hsame'
    exact ⟨hheld, hsame'⟩
  · intro j y hy
    by_cases hyx : y = x
    · subst hyx
      have hij := h.family.held_inj hy hx
      cases hij
      exact ⟨Function.update_self _ _ _, htype⟩
    · obtain ⟨hlive, htype'⟩ := h.live j y hy
      have hslot := h.slot_size (i := j)
      have hsame' : SameIn m m' y objectHeaderSize :=
        fun z hz hz' => hother _ y hy hyx z hz (by omega)
      rw [Function.update_of_ne hyx, readHeader_congr hsame']
      exact ⟨hlive, by rw [Field.get_sameIn hsame' (by decide), htype']⟩
  · intro y hy
    have hyx : y ≠ x := by
      rintro rfl
      exact hy i hx
    rw [Function.update_of_ne hyx]
    exact h.dead y hy

/-- A store into a field of the header. -/
theorem setField (h : ObHeap types slack m p slabs ht o nodes E V) (hx : V x = some hd)
    {f : Field} (hf : HeaderApart f objTypeId) (hin : f.offset + f.size ≤ objectHeaderSize)
    (v : ℕ) :
    ObHeap types slack (f.set m x v) p slabs ht o nodes E
      (Function.update V x (some (readHeader (f.set m x v) x))) := by
  obtain ⟨i, hheld, rfl, htype⟩ := h.held hx
  have hle := h.ok.header_le i
  refine h.write hheld (Nat.le_add_right x f.offset) (by omega) (Field.sameOff_set v) ?_
  rw [get_set_header hf]
  exact htype

/-- A write into the payload. -/
theorem payload (h : ObHeap types slack m p slabs ht o nodes E V)
    (hx : o.Held (obCache slabs ht) (.type i) x)
    (hsame : SameOff m m' (x + objectHeaderSize) ((types i).instanceSize - objectHeaderSize)) :
    ObHeap types slack m' p slabs ht o nodes E V ∧ readHeader m' x = readHeader m x := by
  have hle := h.ok.header_le i
  have hhead : SameIn m m' x objectHeaderSize := hsame.sameIn (Or.inl (le_refl _))
  obtain ⟨hlive, htype⟩ := h.live i x hx
  have hwrite := h.write hx (Nat.le_add_right x _) (by omega) hsame (by
    rw [Field.get_sameIn hhead (by decide), htype])
  rw [readHeader_congr hhead, ← hlive, Function.update_eq_self] at hwrite
  exact ⟨hwrite, readHeader_congr hhead⟩

/-- A step of the id table. -/
theorem tableStep (h : ObHeap types slack m p slabs ht o nodes E V)
    (hfam : SlabFamily slack m' p' (Function.update (obCache slabs ht) .node ht'.nodeCache) o')
    (hrep : HashRep m' (Function.update (obCache slabs ht) .node ht'.nodeCache) o' .node ht'
      nodes' E')
    (hkept : OthersKept m m' (obCache slabs ht)
      (Function.update (obCache slabs ht) .node ht'.nodeCache) o o' .node) :
    ObHeap types slack m' p' slabs ht' o' nodes' E' V ∧
      ∀ i, o'.free (.type i) = o.free (.type i) := by
  rw [← obCache_node slabs ht ht'] at hfam hrep hkept
  refine ⟨⟨h.ok, hfam, hrep, h.size, ?_, ?_⟩, fun i => hkept.free_eq (.type i) (by simp)⟩
  · intro i x hx
    have hold := (hkept.held (.type i) (by simp) x).mp hx
    obtain ⟨hlive, htype⟩ := h.live i x hold
    have hslot := h.slot_size (i := i)
    have hsame : SameIn m m' x objectHeaderSize :=
      fun z hz hz' => hkept.bytes (.type i) (by simp) x hold z hz (by omega)
    rw [readHeader_congr hsame, Field.get_sameIn hsame (by decide)]
    exact ⟨hlive, htype⟩
  · intro x hx
    exact h.dead x fun i hi => hx i ((hkept.held (.type i) (by simp) x).mpr hi)

/-- A store into the reference count. -/
theorem setRefcount (h : ObHeap types slack m p slabs ht o nodes E V) (hx : V x = some hd)
    (v : ℕ) : ObHeap types slack (objRefcount.set m x v) p slabs ht o nodes E
      (Function.update V x (some { hd with refcount := v % 2 ^ 32 })) := by
  have hset := h.setField hx (f := objRefcount) (by decide) (by decide) v
  obtain ⟨_, _, hread, _⟩ := h.held hx
  rw [readHeader_setRefcount, ← hread] at hset
  exact hset

/-- A store into the handle count. -/
theorem setHandleCount (h : ObHeap types slack m p slabs ht o nodes E V) (hx : V x = some hd)
    (v : ℕ) : ObHeap types slack (objHandleCount.set m x v) p slabs ht o nodes E
      (Function.update V x (some { hd with handleCount := v % 2 ^ 32 })) := by
  have hset := h.setField hx (f := objHandleCount) (by decide) (by decide) v
  obtain ⟨_, _, hread, _⟩ := h.held hx
  rw [readHeader_setHandleCount, ← hread] at hset
  exact hset

/-- A store into the `destroyed` byte. -/
theorem setDestroyed (h : ObHeap types slack m p slabs ht o nodes E V) (hx : V x = some hd)
    (v : ℕ) : ObHeap types slack (objDestroyed.set m x v) p slabs ht o nodes E
      (Function.update V x (some { hd with destroyed := v % 256 })) := by
  have hset := h.setField hx (f := objDestroyed) (by decide) (by decide) v
  obtain ⟨_, _, hread, _⟩ := h.held hx
  rw [readHeader_setDestroyed, ← hread] at hset
  exact hset

/-- Giving the slot of an object back. -/
theorem free (h : ObHeap types slack m p slabs ht o nodes E V)
    (hx : o.Held (obCache slabs ht) (.type i) x) :
    ∃ o', ObHeap types slack (slabFree m (slabs i) x).1 p
        (Function.update slabs i (slabFree m (slabs i) x).2) ht o' nodes E
        (Function.update V x none) ∧
      o'.free (.type i) = x :: o.free (.type i) ∧
      ∀ j, j ≠ i → o'.free (.type j) = o.free (.type j) := by
  obtain ⟨hfam, hsizes, hheld, hoff⟩ := h.family.free hx
  have hcache : obCache slabs ht (.type i) = slabs i := rfl
  rw [hcache] at hfam hsizes hheld hoff
  rw [← obCache_type] at hfam hsizes hheld
  have hge := (h.family.fits (.type i)).size_ge
  have hother : ∀ j y, o.Held (obCache slabs ht) j y → y ≠ x →
      SameIn m (slabFree m (slabs i) x).1 y (obCache slabs ht j).objSize := by
    intro j y hy hne
    have hsep := h.family.held_separate hy hx hne
    exact hoff.sameIn (by omega)
  refine ⟨_, ⟨h.ok, hfam, h.table.congr rfl h.table.cache_eq rfl rfl ?_, ?_, ?_, ?_⟩, ?_, ?_⟩
  · intro b hb y hy
    have hnode := h.table.held b hb y hy
    have hne : y ≠ x := by
      rintro rfl
      have hij := h.family.held_inj hnode hx
      cases hij
    have hsame := hother .node y hnode hne
    rw [h.table.cache_eq, h.table.size] at hsame
    exact ⟨(hheld _ y).mpr ⟨hnode, hne⟩, hsame⟩
  · intro j
    have hj := hsizes (.type j)
    change (Function.update slabs i (slabFree m (slabs i) x).2 j).objSize = (slabs j).objSize at hj
    rw [hj]
    exact h.size j
  · intro j y hy
    obtain ⟨hold, hne⟩ := (hheld _ y).mp hy
    obtain ⟨hlive, htype⟩ := h.live j y hold
    have hslot := h.slot_size (i := j)
    have hsame : SameIn m (slabFree m (slabs i) x).1 y objectHeaderSize :=
      fun z hz hz' => hother _ y hold hne z hz (by omega)
    rw [Function.update_of_ne hne, readHeader_congr hsame, Field.get_sameIn hsame (by decide)]
    exact ⟨hlive, htype⟩
  · intro y hy
    by_cases hyx : y = x
    · rw [hyx, Function.update_self]
    · rw [Function.update_of_ne hyx]
      exact h.dead y fun j hj => hy j ((hheld _ y).mpr ⟨hj, hyx⟩)
  · exact SlabOwn.set_self.2
  · exact fun j hj => (SlabOwn.set_of_ne (by simpa using hj)).2

/-- Taking a slot for an object of type `i`, and writing its header. -/
theorem alloc (h : ObHeap types slack m p slabs ht o nodes E V)
    (hs : slabAlloc m p (slabs i) = some (x, m₁, p', c)) :
    ∃ o', SameRange p p' ∧
      (∀ y ∈ o.free (.type i), y = x ∨ y ∈ o'.free (.type i)) ∧
      (∀ j, j ≠ i → o'.free (.type j) = o.free (.type j)) ∧
      (x = 0 → ObHeap types slack m₁ p' (Function.update slabs i c) ht o' nodes E V) ∧
      (x ≠ 0 → V x = none ∧ o'.Held (obCache (Function.update slabs i c) ht) (.type i) x ∧
        ∀ m', SameOff m₁ m' x objectHeaderSize → objTypeId.get m' x = i →
          ObHeap types slack m' p' (Function.update slabs i c) ht o' nodes E
            (Function.update V x (some (readHeader m' x)))) := by
  have hs' : slabAlloc m p (obCache slabs ht (.type i)) = some (x, m₁, p', c) := hs
  obtain ⟨pages', free', hfam, hsizes, hheld, hfresh, hbytes, hkept⟩ := h.family.alloc_set hs'
  have hself : (o.set (.type i) pages' free').free (.type i) = free' := SlabOwn.set_self.2
  have hother : ∀ j, j ≠ i → (o.set (.type i) pages' free').free (.type j) = o.free (.type j) :=
    fun j hj => (SlabOwn.set_of_ne (by simpa using hj)).2
  rw [← hself] at hkept
  generalize o.set (.type i) pages' free' = o' at *
  have hrange : SameRange p p' := by
    obtain ⟨_, _, ha⟩ := (h.family.slab (.type i)).slabAlloc h.family.pmm (h.family.fits _) hs'
    exact ha.sameRange
  rw [← obCache_type] at hfam hsizes hheld
  have hsize : ∀ j, (types j).instanceSize ≤ (Function.update slabs i c j).objSize := by
    intro j
    have hj := hsizes (.type j)
    change (Function.update slabs i c j).objSize = (slabs j).objSize at hj
    rw [hj]
    exact h.size j
  have hnode : ∀ m', (∀ y, o.Held (obCache slabs ht) .node y → SameIn m₁ m' y hashNodeSize) →
      HashRep m' (obCache (Function.update slabs i c) ht) o' .node ht nodes E := by
    intro m' hm'
    refine h.table.congr rfl h.table.cache_eq rfl rfl ?_
    intro b hb y hy
    have hold := h.table.held b hb y hy
    have hsame := hbytes .node y hold
    rw [h.table.cache_eq, h.table.size] at hsame
    refine ⟨(hheld _ y).mpr (Or.inr hold), fun z hz hz' => ?_⟩
    rw [hm' y hold z hz hz', hsame z hz hz']
  have hlive : ∀ m' j y, o.Held (obCache slabs ht) (.type j) y →
      SameIn m₁ m' y objectHeaderSize →
      V y = some (readHeader m' y) ∧ objTypeId.get m' y = j := by
    intro m' j y hold hm'
    obtain ⟨hlive, htype⟩ := h.live j y hold
    have hslot := h.slot_size (i := j)
    have hsame : SameIn m m' y objectHeaderSize := by
      intro z hz hz'
      rw [hm' z hz hz', hbytes _ y hold z hz (by omega)]
    rw [readHeader_congr hsame, Field.get_sameIn hsame (by decide)]
    exact ⟨hlive, htype⟩
  refine ⟨o', hrange, hkept, hother, ?_, ?_⟩
  · rintro rfl
    have hiff : ∀ j y, o'.Held (obCache (Function.update slabs i c) ht) j y ↔
        o.Held (obCache slabs ht) j y := by
      intro j y
      rw [hheld j y]
      simp
    exact ⟨h.ok, hfam, hnode m₁ fun _ _ _ _ _ => rfl, hsize,
      fun j y hy => hlive m₁ j y ((hiff _ y).mp hy) fun _ _ _ => rfl,
      fun y hy => h.dead y fun j hj => hy j ((hiff _ y).mpr hj)⟩
  · intro hx
    have hnew := (hheld (.type i) x).mpr (Or.inl ⟨hx, rfl, rfl⟩)
    refine ⟨h.dead x fun j => hfresh (.type j), hnew, ?_⟩
    intro m' hoff htype
    have hslot : objectHeaderSize ≤ (obCache (Function.update slabs i c) ht (.type i)).objSize := by
      rw [hsizes]
      exact h.slot_size i
    have hsep : ∀ j y, o.Held (obCache slabs ht) j y →
        SameIn m₁ m' y (obCache slabs ht j).objSize := by
      intro j y hy
      have hne : y ≠ x := fun heq => hfresh j (heq ▸ hy)
      have hs := hfam.held_separate ((hheld j y).mpr (Or.inr hy)) hnew hne
      rw [hsizes j] at hs
      exact hoff.sameIn (by omega)
    refine ⟨h.ok, hfam.write hnew (le_refl x) (by omega) hoff, hnode m' ?_, hsize, ?_, ?_⟩
    · intro y hy
      have hsame := hsep .node y hy
      rw [h.table.cache_eq, h.table.size] at hsame
      exact hsame
    · intro j y hy
      rcases (hheld _ y).mp hy with ⟨_, hji, rfl⟩ | hold
      · cases hji
        exact ⟨Function.update_self _ _ _, htype⟩
      · have hne : y ≠ x := fun heq => hfresh _ (heq ▸ hold)
        have hslot' := h.slot_size (i := j)
        rw [Function.update_of_ne hne]
        exact hlive m' j y hold fun z hz hz' => hsep _ y hold z hz (by omega)
    · intro y hy
      have hne : y ≠ x := by
        rintro rfl
        exact hy i hnew
      rw [Function.update_of_ne hne]
      exact h.dead y fun j hj => hy j ((hheld _ y).mpr (Or.inr hj))

end ObHeap

end Vectra

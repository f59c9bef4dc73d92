import Vectra.Ob.Heap

/-!
# What `object_create` and `object_maybe_destroy` do

Each call is one change of the map of the live headers and of the entries of the
id table.
-/

namespace Vectra

open Lib SlabMem

variable {n : ℕ} {T : Type} {types : Fin n → ObjectType} {slack x r args : ℕ} {s t : ObState n T}
  {o o' : SlabOwn (SlabId n)} {nodes : ℕ → List ℕ} {E : ℕ → List (ℕ × ℕ)}
  {V : ℕ → Option ObjectHeader} {i : Fin n} {hd : ObjectHeader}

/-- The memory of a state holds the live headers `V` and the id table `E`. -/
def ObState.Holds (types : Fin n → ObjectType) (slack : ℕ) (s : ObState n T)
    (o : SlabOwn (SlabId n)) (nodes : ℕ → List ℕ) (E : ℕ → List (ℕ × ℕ))
    (V : ℕ → Option ObjectHeader) : Prop :=
  ObHeap types slack s.mem s.pmm s.slabs s.idTable o nodes E V

/-- The bucket of an object id. -/
def ObState.bucket (s : ObState n T) (id : ℕ) : ℕ := hashU64 id s.idTable.nbuckets

/-- What the destruction of the object `x` of type `i` changes besides the headers
and the id table. -/
structure ObDestroyed (types : Fin n → ObjectType) (s t : ObState n T) (i : Fin n) (x : ℕ)
    (o o' : SlabOwn (SlabId n)) : Prop where
  tables : t.tables = s.tables
  nextObjectId : t.nextObjectId = s.nextObjectId
  pmm : t.pmm = s.pmm
  nbuckets : t.idTable.nbuckets = s.idTable.nbuckets
  free : o'.free (.type i) = x :: o.free (.type i)
  other : ∀ j, j ≠ i → o'.free (.type j) = o.free (.type j)
  calls : t.destroyCalls = s.destroyCalls ++ if (types i).destroy.isSome then [x] else []

/-- What `object_create` changes besides the headers and the id table. -/
structure ObCreated (s t : ObState n T) (i : Fin n) (r : ℕ) (o o' : SlabOwn (SlabId n)) : Prop where
  tables : t.tables = s.tables
  next : t.nextObjectId = s.nextObjectId ∨ t.nextObjectId = (s.nextObjectId + 1) % 2 ^ 32
  advanced : r ≠ 0 → t.nextObjectId = (s.nextObjectId + 1) % 2 ^ 32
  sameRange : SameRange s.pmm t.pmm
  nbuckets : t.idTable.nbuckets = s.idTable.nbuckets
  free : ∀ y ∈ o.free (.type i), y = r ∨ y ∈ o'.free (.type i)
  other : ∀ j, j ≠ i → o'.free (.type j) = o.free (.type j)
  calls : t.destroyCalls = s.destroyCalls

namespace ObHeap

/-- A live object is a slot of the cache of its type. -/
theorem typeOf (h : s.Holds types slack o nodes E V) (hx : V x = some hd) :
    ∃ i : Fin n, hd.typeId = i ∧ o.Held (obCache s.slabs s.idTable) (.type i) x ∧
      hd = readHeader s.mem x := by
  obtain ⟨i, hheld, hread, htype⟩ := ObHeap.held h hx
  exact ⟨i, htype, hheld, hread⟩

/-- The fields of a live header, as the code reads them. -/
theorem fields (h : s.Holds types slack o nodes E V) (hx : V x = some hd) :
    objTypeId.get s.mem x = hd.typeId ∧ objRefcount.get s.mem x = hd.refcount ∧
      objHandleCount.get s.mem x = hd.handleCount ∧ objGeneration.get s.mem x = hd.generation ∧
      objObjectId.get s.mem x = hd.objectId ∧ objDestroyed.get s.mem x = hd.destroyed := by
  obtain ⟨_, _, _, hread⟩ := typeOf h hx
  rw [hread]
  exact ⟨rfl, rfl, rfl, rfl, rfl, rfl⟩

/-- The end of `object_maybe_destroy` runs the `destroy` operation, takes the id out of the
table and gives the slot back. -/
theorem objectDestroy (h : s.Holds types slack o nodes E V) (hx : V x = some hd) :
    ∃ t o' nodes' i, Vectra.objectDestroy types s x = some t ∧ hd.typeId = (i : Fin n) ∧
      t.Holds types slack o' nodes'
        (Function.update E (s.bucket hd.objectId)
          ((E (s.bucket hd.objectId)).eraseP fun e => e.1 = hd.objectId))
        (Function.update V x none) ∧
      ObDestroyed types s t i x o o' := by
  obtain ⟨i, htype, hheld, hread⟩ := ObHeap.typeOf h hx
  have hid : objTypeId.get s.mem x = i := by
    rw [← htype, hread]
    rfl
  -- the `destroy` operation writes the payload
  obtain ⟨m₁, hm₁, hpay, hhead⟩ : ∃ m₁, m₁ = (types i).destroy.elim s.mem (fun f => f x s.mem) ∧
      ObHeap types slack m₁ s.pmm s.slabs s.idTable o nodes E V ∧
      readHeader m₁ x = readHeader s.mem x := by
    cases hf : (types i).destroy with
    | none => exact ⟨s.mem, rfl, h, rfl⟩
    | some f =>
        obtain ⟨hpay, hhead⟩ := ObHeap.payload h hheld (h.ok.destroy_payload i f x s.mem hf)
        exact ⟨f x s.mem, rfl, hpay, hhead⟩
  have hobj : objObjectId.get m₁ x = hd.objectId := by
    rw [hread]
    exact congrArg ObjectHeader.objectId hhead
  obtain ⟨ht', m₂, o₂, hrem, hfam, hrep, hkept, hnb, _, _⟩ :=
    hpay.table.remove hpay.family hd.objectId
  obtain ⟨hstep, hfree₂⟩ := hpay.tableStep hfam hrep hkept
  obtain ⟨i', hheld', _, htype'⟩ := hstep.held hx
  have hii : i' = i := Fin.ext (htype'.symm.trans htype)
  subst hii
  obtain ⟨o₃, hheap, hself, hother⟩ := hstep.free hheld'
  refine ⟨{ s with
      mem := (slabFree m₂ (s.slabs i') x).1
      slabs := Function.update s.slabs i' (slabFree m₂ (s.slabs i') x).2
      idTable := ht'
      destroyCalls := s.destroyCalls ++ if (types i').destroy.isSome then [x] else [] },
    o₃, _, i', ?_, htype, hheap, ⟨rfl, rfl, rfl, hnb, ?_, ?_, rfl⟩⟩
  · have hlt : objTypeId.get s.mem x < n := hid ▸ i'.isLt
    have hfin : (⟨objTypeId.get s.mem x, hlt⟩ : Fin n) = i' := Fin.ext hid
    unfold Vectra.objectDestroy
    rw [dif_pos hlt, hfin]
    cases hf : (types i').destroy with
    | none =>
        rw [hf, Option.elim_none] at hm₁
        subst hm₁
        simp [hf, hobj, hrem]
    | some f =>
        rw [hf, Option.elim_some] at hm₁
        subst hm₁
        simp [hf, hobj, hrem]
  · rw [hself, hfree₂]
  · intro j hj
    rw [hother j hj, hfree₂]

/-- The part of `object_create` behind the `create` operation, which returned `ret`. -/
theorem createEnd {m₁ : Bytes} {p₁ : Pmm} {slabs : Fin n → SlabCache} {next : ℕ} {ret : ℤ}
    {c : SlabCache}
    (h : ObHeap types slack m₁ p₁ slabs s.idTable o nodes E (Function.update V x (some hd)))
    (hheld : o.Held (obCache slabs s.idTable) (.type i) x) (hdead : V x = none)
    (hid : hd.objectId < 2 ^ 64) (hrange : SameRange s.pmm p₁)
    (hc : slabs i = c) (hfail : ret ≠ 0 → r = 0 ∧ t = { s with
      mem := (slabFree m₁ c x).1, pmm := p₁
      slabs := Function.update slabs i (slabFree m₁ c x).2, nextObjectId := next })
    (hok : ret = 0 → ∃ ht m p,
      hashtableInsert s.idTable m₁ p₁ (objObjectId.get m₁ x) x = some (ht, m, p) ∧ r = x ∧
        t = { s with mem := m, pmm := p, slabs := slabs, idTable := ht, nextObjectId := next }) :
    ∃ o' nodes', t.tables = s.tables ∧ t.nextObjectId = next ∧ SameRange s.pmm t.pmm ∧
      t.idTable.nbuckets = s.idTable.nbuckets ∧ t.destroyCalls = s.destroyCalls ∧
      (∀ j, j ≠ i → o'.free (.type j) = o.free (.type j)) ∧
      (r = 0 → t.Holds types slack o' nodes' E V ∧ o'.free (.type i) = x :: o.free (.type i)) ∧
      (r ≠ 0 → r = x ∧ o'.free (.type i) = o.free (.type i) ∧
        t.Holds types slack o' nodes'
          (Function.update E (s.bucket hd.objectId)
            ((hd.objectId, x) :: E (s.bucket hd.objectId)))
          (Function.update V x (some hd))) := by
  subst hc
  by_cases hret : ret = 0
  · obtain ⟨ht', m₂, p₂, hins, rfl, rfl⟩ := hok hret
    have hx : Function.update V r (some hd) r = some hd := Function.update_self _ _ _
    obtain ⟨_, _, hread, _⟩ := h.held hx
    obtain ⟨hne, hlt⟩ := h.addr hx
    have hobj : objObjectId.get m₁ r = hd.objectId := by
      rw [hread]
      rfl
    rw [hobj] at hins
    obtain ⟨o₂, _, hfam, hrep, hkept, hnb, hrange₂, _⟩ := h.table.insert h.family hid hlt hins
    obtain ⟨hheap, hfree⟩ := h.tableStep hfam hrep hkept
    exact ⟨o₂, _, rfl, rfl, hrange.trans hrange₂, hnb, rfl, fun j _ => hfree j,
      fun hzero => absurd hzero hne, fun _ => ⟨rfl, hfree i, hheap⟩⟩
  · obtain ⟨rfl, rfl⟩ := hfail hret
    obtain ⟨o', hheap, hself, hother⟩ := h.free hheld
    rw [Function.update_idem, ← hdead, Function.update_eq_self] at hheap
    exact ⟨o', nodes, rfl, rfl, hrange, rfl, rfl, hother, fun _ => ⟨hheap, hself⟩,
      fun hne => absurd rfl hne⟩

/-- `object_create` gives a fresh slot a header whose `destroyed` byte is left from before,
and enters its id into the table; a call that fails leaves the objects as they are. -/
theorem objectCreate (h : s.Holds types slack o nodes E V) (hid : s.nextObjectId < 2 ^ 32)
    (hs : Vectra.objectCreate types s i args = some (r, t)) :
    ∃ o' nodes', ObCreated s t i r o o' ∧
      (r = 0 → t.Holds types slack o' nodes' E V ∧ ∀ x m p c,
        slabAlloc s.mem s.pmm (s.slabs i) = some (x, m, p, c) → x ≠ 0 → x ∈ o'.free (.type i)) ∧
      (r ≠ 0 → V r = none ∧
        t.Holds types slack o' nodes'
          (Function.update E (s.bucket s.nextObjectId)
            ((s.nextObjectId, r) :: E (s.bucket s.nextObjectId)))
          (Function.update V r
            (some ⟨i, 1, 0, 0, s.nextObjectId, objDestroyed.get s.mem r⟩))) := by
  unfold Vectra.objectCreate at hs
  cases ha : slabAlloc s.mem s.pmm (s.slabs i) with
  | none => simp [ha] at hs
  | some a =>
      obtain ⟨x, m₁, p₁, c⟩ := a
      rw [ha] at hs
      dsimp only at hs
      obtain ⟨o₁, hrange, hfree, hother, hnull, hnew⟩ := ObHeap.alloc h ha
      by_cases hx : x = 0
      · rw [if_pos hx] at hs
        obtain ⟨rfl, rfl⟩ := Prod.mk.inj (Option.some.inj hs)
        refine ⟨o₁, nodes, ⟨rfl, Or.inl rfl, fun hne => absurd rfl hne, hrange, rfl,
          ?_, hother, rfl⟩,
          fun _ => ⟨hnull hx, ?_⟩, fun hne => absurd rfl hne⟩
        swap
        · intro y m p d hy hne
          cases hy
          exact absurd hx hne
        rw [← hx]
        exact hfree
      · rw [if_neg hx] at hs
        obtain ⟨hdead, hheld, hheap⟩ := hnew hx
        have hi : (i : ℕ) < 2 ^ 32 := by
          have hcount := h.ok.count_le
          unfold maxObjectTypes at hcount
          omega
        have hhead : readHeader (initHeader m₁ x i s.nextObjectId) x =
            ⟨i, 1, 0, 0, s.nextObjectId, objDestroyed.get m₁ x⟩ :=
          readHeader_initHeader hi (by omega)
        have hbyte : objDestroyed.get m₁ x = objDestroyed.get s.mem x := by
          have hsize := h.slot_size (i := i)
          have hcell := (h.family.slab (.type i)).slabAlloc_cell h.family.pmm (h.family.fits _)
            ha hx
          unfold objectHeaderSize at hsize
          refine Field.get_congr fun y hlo hhi => hcell y ?_ ?_ <;>
            simp only [objDestroyed] at hlo hhi ⊢ <;> omega
        have hinit := hheap (initHeader m₁ x i s.nextObjectId) (initHeader_sameOff i s.nextObjectId)
          (congrArg ObjectHeader.typeId hhead)
        rw [hhead, hbyte] at hinit
        generalize hn : (s.nextObjectId + 1) % 2 ^ 32 = next at hs
        have hid64 : s.nextObjectId < 2 ^ 64 := by omega
        have hself : Function.update s.slabs i c i = c := Function.update_self _ _ _
        obtain ⟨m₂, ret, hpay, hfail, hret⟩ : ∃ m₂ ret,
            ObHeap types slack m₂ p₁ (Function.update s.slabs i c) s.idTable o₁ nodes E
              (Function.update V x
                (some ⟨i, 1, 0, 0, s.nextObjectId, objDestroyed.get s.mem x⟩)) ∧
            (ret ≠ (0 : ℤ) → r = 0 ∧ t = { s with
              mem := (slabFree m₂ c x).1, pmm := p₁
              slabs := Function.update (Function.update s.slabs i c) i (slabFree m₂ c x).2
              nextObjectId := next }) ∧
            (ret = 0 → ∃ ht m p,
              hashtableInsert s.idTable m₂ p₁ (objObjectId.get m₂ x) x = some (ht, m, p) ∧
                r = x ∧ t = { s with
                  mem := m, pmm := p, slabs := Function.update s.slabs i c, idTable := ht
                  nextObjectId := next }) := by
          cases hf : (types i).create with
          | none =>
              simp only [hf] at hs
              refine ⟨_, 0, hinit, fun hne => absurd rfl hne, fun _ => ?_⟩
              rw [if_neg (by simp)] at hs
              split at hs
              · cases hs
              · rename_i ht m p hins
                obtain ⟨rfl, rfl⟩ := Prod.mk.inj (Option.some.inj hs)
                exact ⟨ht, m, p, hins, rfl, rfl⟩
          | some f =>
              simp only [hf] at hs
              refine ⟨_, (f x args (initHeader m₁ x i s.nextObjectId)).1,
                (ObHeap.payload hinit hheld (h.ok.create_payload i f x args _ hf)).1,
                fun hne => ?_, fun hzero => ?_⟩
              · rw [if_pos hne] at hs
                obtain ⟨rfl, rfl⟩ := Prod.mk.inj (Option.some.inj hs)
                exact ⟨rfl, rfl⟩
              · rw [if_neg (by simpa using hzero)] at hs
                split at hs
                · cases hs
                · rename_i ht m p hins
                  obtain ⟨rfl, rfl⟩ := Prod.mk.inj (Option.some.inj hs)
                  exact ⟨ht, m, p, hins, rfl, rfl⟩
        obtain ⟨o', nodes', htables, hnext, hrange', hnb, hcalls, hother', hzero, hok⟩ :=
          createEnd hpay hheld hdead hid64 hrange hself hfail hret
        rw [← hn] at hnext
        refine ⟨o', nodes', ⟨htables, Or.inr hnext, fun _ => hnext, hrange', hnb, ?_, ?_, hcalls⟩,
          fun hr => ⟨(hzero hr).1, ?_⟩, fun hr => ?_⟩
        · intro y hy
          by_cases hr : r = 0
          · rw [(hzero hr).2]
            refine Or.inr ?_
            rcases hfree y hy with rfl | hy'
            · exact List.mem_cons_self
            · exact List.mem_cons_of_mem x hy'
          · rw [(hok hr).1, (hok hr).2.1]
            exact hfree y hy
        · intro j hj
          rw [hother' j hj, hother j hj]
        · intro y m p d hy hne
          cases hy
          rw [(hzero hr).2]
          exact List.mem_cons_self
        · rw [(hok hr).1]
          exact ⟨hdead, (hok hr).2.2⟩

/-- An `object_create` that fails writes the slot that it drew and gave back, and no other
object. -/
theorem objectCreate_failed (h : s.Holds types slack o nodes E V)
    (hs : Vectra.objectCreate types s i args = some (0, t)) :
    t.idTable = s.idTable ∧ ∀ j y, o.Held (obCache s.slabs s.idTable) j y →
      SameIn s.mem t.mem y (obCache s.slabs s.idTable j).objSize := by
  unfold Vectra.objectCreate at hs
  cases ha : slabAlloc s.mem s.pmm (s.slabs i) with
  | none => simp [ha] at hs
  | some a =>
      obtain ⟨x, m₁, p₁, c⟩ := a
      rw [ha] at hs
      dsimp only at hs
      obtain ⟨o₁, hfam, hsizes, hheld, hfresh, hbytes⟩ :=
        h.family.alloc (i := SlabId.type i) (show slabAlloc s.mem s.pmm
          (obCache s.slabs s.idTable (.type i)) = some (x, m₁, p₁, c) from ha)
      by_cases hx : x = 0
      · rw [if_pos hx] at hs
        obtain ⟨_, rfl⟩ := Prod.mk.inj (Option.some.inj hs)
        exact ⟨rfl, hbytes⟩
      · rw [if_neg hx] at hs
        have hnew := (hheld (.type i) x).mpr (Or.inl ⟨hx, rfl, rfl⟩)
        have hsize : (types i).instanceSize ≤
            (Function.update (obCache s.slabs s.idTable) (.type i) c (.type i)).objSize := by
          rw [hsizes]
          exact h.size i
        have hle := h.ok.header_le i
        -- what is written off the slot is not written at all
        have hslot : ∀ m₂, SameOff m₁ m₂ x (types i).instanceSize → ∀ j y,
            o.Held (obCache s.slabs s.idTable) j y →
              SameIn s.mem m₂ y (obCache s.slabs s.idTable j).objSize := by
          intro m₂ hoff j y hy z hlo hhi
          have hne : y ≠ x := fun heq => hfresh j (heq ▸ hy)
          have hsep := hfam.held_separate ((hheld j y).mpr (Or.inr hy)) hnew hne
          rw [hsizes j] at hsep
          have hz : m₂ z = m₁ z := hoff z (by omega)
          exact hz.trans (hbytes j y hy z hlo hhi)
        have hheader := initHeader_sameOff (m := m₁) (x := x) i s.nextObjectId
        unfold objectHeaderSize at hheader hle
        have hfree : ∀ m₂ : Bytes, SameOff m₂ (slabFree m₂ c x).1 x 8 := by
          intro m₂ z hz
          unfold slabFree
          rw [if_neg hx]
          exact cell_setLink _ _ _ _ hz
        cases hf : (types i).create with
        | none =>
            simp only [hf] at hs
            rw [if_neg (by simp)] at hs
            split at hs
            · cases hs
            · exact absurd (Prod.mk.inj (Option.some.inj hs)).1 hx
        | some f =>
            simp only [hf] at hs
            have hpay := h.ok.create_payload i f x args (initHeader m₁ x i s.nextObjectId) hf
            unfold objectHeaderSize at hpay
            split at hs
            · obtain ⟨_, rfl⟩ := Prod.mk.inj (Option.some.inj hs)
              refine ⟨rfl, hslot _ fun z hz => ?_⟩
              have h₁ : initHeader m₁ x i s.nextObjectId z = m₁ z := hheader z (by omega)
              have h₂ : (f x args (initHeader m₁ x i s.nextObjectId)).2 z = _ := hpay z (by omega)
              have h₃ := hfree (f x args (initHeader m₁ x i s.nextObjectId)).2 z (by omega)
              exact h₃.trans (h₂.trans h₁)
            · split at hs
              · cases hs
              · exact absurd (Prod.mk.inj (Option.some.inj hs)).1 hx

end ObHeap

end Vectra

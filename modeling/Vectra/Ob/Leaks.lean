import Vectra.Ob.Registry

/-!
# No slot is lost

Every slot that the caches of the object manager have handed out is in use: a slot of a type is a
live object, and a slot of the id table is the node of one. With no object left, every slot that
was ever carved is free again.
-/

namespace Vectra

open Lib SlabMem

variable {n : ℕ} {T : Type}

/-- A slot of a cache that is not on the free list. -/
def ObState.Taken (s : ObState n T) (k : SlabId n) (x : ℕ) : Prop :=
  ∃ pages free, Chain (fun a => (frame s.mem a).next) (obCache s.slabs s.idTable k).slabs pages ∧
    Chain (link s.mem) (obCache s.slabs s.idTable k).freeObjects free ∧
    Allocated (obCache s.slabs s.idTable k).objSize pages free x

/-- A node that the id table reaches. -/
def ObState.Linked (s : ObState n T) (y : ℕ) : Prop :=
  ∃ b < s.idTable.nbuckets, ∃ xs, Chain (nodeNext.get s.mem) (s.idTable.buckets b) xs ∧ y ∈ xs

/-- The slots in use: the live objects of a type, and one node for each live object. -/
structure NoLeak (u : ObRun n T) : Prop where
  objects : ∀ i x, u.state.Taken (.type i) x ↔ ∃ a, u.Live x a ∧ a.type = i
  linked : ∀ y, u.state.Taken .node y ↔ u.state.Linked y
  nodes : Set.BijOn (nodeValue.get u.state.mem) {y | u.state.Taken .node y}
    {x | ∃ a, u.Live x a}
  keys : ∀ y, u.state.Taken .node y →
    ∃ a, u.Live (nodeValue.get u.state.mem y) a ∧ a.id = nodeKey.get u.state.mem y

/-- The lists of a family are determined by its caches and the memory. -/
theorem SlabFamily.held_unique {M C ι : Type} [SlabMem M C] {slack slack' x : ℕ} {m : M}
    {p p' : Pmm} {cache : ι → SlabCache} {o o' : SlabOwn ι} {k : ι}
    (h : SlabFamily slack m p cache o) (h' : SlabFamily slack' m p' cache o') :
    o.Held cache k x ↔ o'.Held cache k x := by
  unfold SlabOwn.Held
  rw [(h.slab k).pageChain.unique (h'.slab k).pageChain,
    (h.slab k).freeChain.unique (h'.slab k).freeChain]

/-- The nodes in use are in the lists. -/
def Listed (cache : SlabId n → SlabCache) (o : SlabOwn (SlabId n)) (nbuckets : ℕ)
    (nodes : ℕ → List ℕ) : Prop :=
  ∀ y, o.Held cache .node y → ∃ b < nbuckets, y ∈ nodes b

section Heap

variable {types : Fin n → ObjectType} {slack x y : ℕ} {s : ObState n T} {m m' m₁ : Bytes}
  {p p' : Pmm} {slabs : Fin n → SlabCache} {ht ht' : Hashtable} {o o' : SlabOwn (SlabId n)}
  {nodes nodes' : ℕ → List ℕ} {E E' : ℕ → List (ℕ × ℕ)} {V : ℕ → Option ObjectHeader} {i : Fin n}
  {V' : ℕ → Option ObjectHeader} {c : SlabCache} {k : SlabId n}

theorem ObHeap.taken_iff (h : s.Holds types slack o nodes E V) :
    s.Taken k x ↔ o.Held (obCache s.slabs s.idTable) k x := by
  have hslab := SlabFamily.slab (ObHeap.family h) k
  constructor
  · rintro ⟨pages, free, hpages, hfree, hx⟩
    rwa [hpages.unique hslab.pageChain, hfree.unique hslab.freeChain] at hx
  · exact fun hx => ⟨_, _, hslab.pageChain, hslab.freeChain, hx⟩

theorem ObHeap.linked_iff (h : s.Holds types slack o nodes E V) :
    s.Linked y ↔ ∃ b < s.idTable.nbuckets, y ∈ nodes b := by
  refine exists_congr fun b => and_congr_right fun hb => ?_
  have hchain := (ObHeap.table h).chain b hb
  constructor
  · rintro ⟨xs, hxs, hy⟩
    rwa [hxs.unique hchain] at hy
  · exact fun hy => ⟨_, hchain, hy⟩

theorem Listed.congr {cache : SlabId n → SlabCache} {nbuckets slack' : ℕ}
    (hl : Listed cache o nbuckets nodes) (h : SlabFamily slack m p cache o)
    (h' : SlabFamily slack' m p' cache o') : Listed cache o' nbuckets nodes :=
  fun y hy => hl y ((h.held_unique h').mpr hy)

/-- Giving back the slot of an object leaves the nodes in use. -/
theorem ObHeap.free_listed (h : ObHeap types slack m p slabs ht o nodes E V)
    (hx : o.Held (obCache slabs ht) (.type i) x)
    (hl : Listed (obCache slabs ht) o ht.nbuckets nodes)
    (h' : ObHeap types slack (slabFree m (slabs i) x).1 p
      (Function.update slabs i (slabFree m (slabs i) x).2) ht o' nodes E' V') :
    Listed (obCache (Function.update slabs i (slabFree m (slabs i) x).2) ht) o' ht.nbuckets
      nodes := by
  obtain ⟨hfam, _, hheld, _⟩ := h.family.free hx
  have hcache : obCache slabs ht (.type i) = slabs i := rfl
  rw [hcache, ← obCache_type] at hfam hheld
  exact Listed.congr (fun y hy => hl y ((hheld .node y).mp hy).1) hfam h'.family

/-- Taking a slot for an object leaves the nodes in use. -/
theorem ObHeap.alloc_listed (h : ObHeap types slack m p slabs ht o nodes E V)
    (hs : slabAlloc m p (slabs i) = some (x, m₁, p', c))
    (hl : Listed (obCache slabs ht) o ht.nbuckets nodes) :
    ∃ o', SlabFamily slack m₁ p' (obCache (Function.update slabs i c) ht) o' ∧
      Listed (obCache (Function.update slabs i c) ht) o' ht.nbuckets nodes ∧
      (x ≠ 0 → o'.Held (obCache (Function.update slabs i c) ht) (.type i) x) := by
  obtain ⟨o', hfam, _, hheld, _, _⟩ := h.family.alloc (i := SlabId.type i)
    (show slabAlloc m p (obCache slabs ht (.type i)) = some (x, m₁, p', c) from hs)
  rw [← obCache_type] at hfam hheld
  refine ⟨o', hfam, fun y hy => ?_, fun hx => (hheld _ x).mpr (.inl ⟨hx, rfl, rfl⟩)⟩
  rcases (hheld .node y).mp hy with ⟨_, hno, _⟩ | hold
  · cases hno
  · exact hl y hold

/-- A new entry of the table takes one node, and lists it. -/
theorem insert_listed {cache cache' : SlabId n → SlabCache} {b new : ℕ}
    (hchanged : NodesChanged m m' cache cache' o o' .node ht nodes (· = new) fun _ => False)
    (hnb : ht'.nbuckets = ht.nbuckets) (hb : b < ht.nbuckets)
    (hl : Listed cache o ht.nbuckets nodes) :
    Listed cache' o' ht'.nbuckets (Function.update nodes b (new :: nodes b)) := by
  rw [hnb]
  intro y hy
  rcases (hchanged.held y).mp hy with ⟨hold, _⟩ | rfl
  · obtain ⟨b', hb', hmem⟩ := hl y hold
    refine ⟨b', hb', ?_⟩
    by_cases hbb : b' = b
    · subst hbb
      rw [Function.update_self]
      exact List.mem_cons_of_mem new hmem
    · rwa [Function.update_of_ne hbb]
  · exact ⟨b, hb, by rw [Function.update_self]; exact List.mem_cons_self⟩

/-- The node of a removed entry is given back, and the others stay listed. -/
theorem remove_listed {cache cache' : SlabId n → SlabCache} {b key : ℕ}
    (hchanged : NodesChanged m m' cache cache' o o' .node ht nodes (fun _ => False)
      fun y => (nodes b).find? (fun n => nodeKey.get m n = key) = some y)
    (hnb : ht'.nbuckets = ht.nbuckets) (hl : Listed cache o ht.nbuckets nodes) :
    Listed cache' o' ht'.nbuckets
      (Function.update nodes b ((nodes b).eraseP fun n => nodeKey.get m n = key)) := by
  rw [hnb]
  intro y hy
  obtain ⟨hold, hkept⟩ := ((hchanged.held y).mp hy).resolve_right id
  obtain ⟨b', hb', hmem⟩ := hl y hold
  refine ⟨b', hb', ?_⟩
  by_cases hbb : b' = b
  · subst hbb
    rw [Function.update_self]
    rcases List.exists_or_eq_self_of_eraseP (fun n => decide (nodeKey.get m n = key)) (nodes b')
      with heq | ⟨d, pre, post, hpre, hd, hnodes, heq⟩
    · rwa [heq]
    · rw [heq, List.mem_append]
      rw [hnodes, List.mem_append, List.mem_cons] at hmem
      rcases hmem with hmem | rfl | hmem
      · exact .inl hmem
      · have hfind : (nodes b').find? (fun n => nodeKey.get m n = key) = some y :=
          List.find?_eq_some_iff_append.mpr
            ⟨hd, pre, post, hnodes, fun z hz => by simpa using hpre z hz⟩
        exact absurd hfind hkept
      · exact .inr hmem
  · rwa [Function.update_of_ne hbb]

end Heap

/-! ## The calls -/

/-- No node is lost. -/
def ObState.AllLinked (s : ObState n T) : Prop := ∀ y, s.Taken .node y → s.Linked y

section Calls

variable {types : Fin n → ObjectType} {slack x : ℕ} {s t : ObState n T} {o o' : SlabOwn (SlabId n)}
  {nodes : ℕ → List ℕ} {E E' : ℕ → List (ℕ × ℕ)} {V V' : ℕ → Option ObjectHeader} {i : Fin n}
  {hd : ObjectHeader} {args r : ℕ}

theorem ObHeap.allLinked_iff (h : s.Holds types slack o nodes E V) :
    s.AllLinked ↔ Listed (obCache s.slabs s.idTable) o s.idTable.nbuckets nodes :=
  forall_congr' fun _ => imp_congr (ObHeap.taken_iff h) (ObHeap.linked_iff h)

theorem ObHeap.allLinked (h : s.Holds types slack o nodes E V)
    (hl : Listed (obCache s.slabs s.idTable) o s.idTable.nbuckets nodes) : s.AllLinked :=
  (ObHeap.allLinked_iff h).mpr hl

/-- A call that leaves the caches and the id table alone. -/
theorem ObState.AllLinked.congr (hl : s.AllLinked) (h : s.Holds types slack o nodes E V)
    (h' : t.Holds types slack o nodes E' V') (hslabs : t.slabs = s.slabs)
    (htable : t.idTable = s.idTable) : t.AllLinked := by
  rw [ObHeap.allLinked_iff h', hslabs, htable]
  exact (ObHeap.allLinked_iff h).mp hl

theorem ObState.AllLinked.objectDestroy (hl : s.AllLinked) (h : s.Holds types slack o nodes E V)
    (hx : V x = some hd) (hs : Vectra.objectDestroy types s x = some t) : t.AllLinked := by
  obtain ⟨i, htype, hheld, hread⟩ := ObHeap.typeOf h hx
  have hid : objTypeId.get s.mem x = i := by
    rw [← htype, hread]
    rfl
  have hlt : objTypeId.get s.mem x < n := hid ▸ i.isLt
  have hfin : (⟨objTypeId.get s.mem x, hlt⟩ : Fin n) = i := Fin.ext hid
  unfold Vectra.objectDestroy at hs
  rw [dif_pos hlt, hfin] at hs
  obtain ⟨m₁, ht', m₂, hpay, hrem, hmem, hpmm, hslabs, htable⟩ : ∃ m₁ ht' m₂,
      ObHeap types slack m₁ s.pmm s.slabs s.idTable o nodes E V ∧
      hashtableRemove s.idTable m₁ (objObjectId.get m₁ x) = some (ht', m₂) ∧
      t.mem = (slabFree m₂ (s.slabs i) x).1 ∧ t.pmm = s.pmm ∧
      t.slabs = Function.update s.slabs i (slabFree m₂ (s.slabs i) x).2 ∧ t.idTable = ht' := by
    cases hf : (types i).destroy with
    | none =>
        simp only [hf] at hs
        split at hs
        · cases hs
        · rename_i ht' m₂ hrem
          cases hs
          exact ⟨_, ht', m₂, h, hrem, rfl, rfl, rfl, rfl⟩
    | some f =>
        simp only [hf] at hs
        split at hs
        · cases hs
        · rename_i ht' m₂ hrem
          cases hs
          exact ⟨_, ht', m₂, (ObHeap.payload h hheld (h.ok.destroy_payload i f x s.mem hf)).1, hrem,
            rfl, rfl, rfl, rfl⟩
  obtain ⟨ht₂, m₃, o₂, hrem', hfam, hrep, hkept, hnb, _, hchanged⟩ :=
    hpay.table.remove hpay.family (objObjectId.get m₁ x)
  obtain ⟨rfl, rfl⟩ := Prod.mk.inj (Option.some.inj (hrem.symm.trans hrem'))
  have hlisted := remove_listed hchanged hnb ((ObHeap.allLinked_iff h).mp hl)
  obtain ⟨hstep, _⟩ := hpay.tableStep hfam hrep hkept
  rw [← obCache_node] at hlisted
  obtain ⟨j, hheld', _, htype'⟩ := hstep.held hx
  obtain rfl : j = i := Fin.ext (htype'.symm.trans htype)
  obtain ⟨o₃, hheap, _, _⟩ := hstep.free hheld'
  have hfree := hstep.free_listed hheld' hlisted hheap
  rw [← hslabs, ← htable] at hfree
  rw [← hslabs, ← htable, ← hpmm, ← hmem] at hheap
  exact (ObHeap.allLinked_iff hheap).mpr hfree

theorem ObState.AllLinked.objectMaybeDestroy (hl : s.AllLinked)
    (h : s.Holds types slack o nodes E V) (hx : V x = some hd)
    (hs : Vectra.objectMaybeDestroy types s x = some t) : t.AllLinked := by
  unfold Vectra.objectMaybeDestroy at hs
  split at hs
  · have hmark := ObHeap.setDestroyed h hx 1
    have hl' : ObState.AllLinked { s with mem := objDestroyed.set s.mem x 1 } :=
      hl.congr h hmark rfl rfl
    exact hl'.objectDestroy hmark (Function.update_self _ _ _) hs
  · cases hs
    exact hl

/-- The end of an `object_create` that succeeds. -/
theorem ObState.AllLinked.inserted {m₁ m₂ : Bytes} {p₁ p₂ : Pmm} {slabs : Fin n → SlabCache}
    {ht ht' : Hashtable} {key : ℕ} (h : ObHeap types slack m₁ p₁ slabs ht o nodes E V)
    (hl : Listed (obCache slabs ht) o ht.nbuckets nodes) (hkey : key < 2 ^ 64) (hx : x < 2 ^ 64)
    (hs : hashtableInsert ht m₁ p₁ key x = some (ht', m₂, p₂)) (hmem : t.mem = m₂)
    (hpmm : t.pmm = p₂) (hslabs : t.slabs = slabs) (htable : t.idTable = ht') : t.AllLinked := by
  obtain ⟨o₂, new, hfam, hrep, hkept, hnb, _, _, hchanged, _⟩ := h.table.insert h.family hkey hx hs
  have hlisted := insert_listed hchanged hnb (hashU64_lt h.table.pos key) hl
  obtain ⟨hstep, _⟩ := h.tableStep hfam hrep hkept
  rw [← obCache_node, ← hslabs, ← htable] at hlisted
  rw [← hslabs, ← htable, ← hpmm, ← hmem] at hstep
  exact ObHeap.allLinked hstep hlisted

theorem ObState.AllLinked.objectCreate (hl : s.AllLinked) (h : s.Holds types slack o nodes E V)
    (hid : s.nextObjectId < 2 ^ 32) (hs : Vectra.objectCreate types s i args = some (r, t)) :
    t.AllLinked := by
  have hlisted := (ObHeap.allLinked_iff h).mp hl
  unfold Vectra.objectCreate at hs
  cases ha : slabAlloc s.mem s.pmm (s.slabs i) with
  | none => simp [ha] at hs
  | some a =>
      obtain ⟨x, m₁, p₁, c⟩ := a
      rw [ha] at hs
      dsimp only at hs
      obtain ⟨o₁, _, _, _, hnull, hnew⟩ := ObHeap.alloc h ha
      obtain ⟨o₂, hfam₂, hlisted₂, hheld₂⟩ := ObHeap.alloc_listed h ha hlisted
      by_cases hx : x = 0
      · rw [if_pos hx] at hs
        obtain ⟨rfl, rfl⟩ := Prod.mk.inj (Option.some.inj hs)
        exact ObHeap.allLinked (hnull hx) (hlisted₂.congr hfam₂ (hnull hx).family)
      · rw [if_neg hx] at hs
        obtain ⟨_, hheld, hheap⟩ := hnew hx
        have hi : (i : ℕ) < 2 ^ 32 := by
          have hcount := h.ok.count_le
          unfold maxObjectTypes at hcount
          omega
        have hhead := readHeader_initHeader (m := m₁) (x := x) hi
          (by omega : s.nextObjectId < 2 ^ 64)
        have hoff := initHeader_sameOff (m := m₁) (x := x) i s.nextObjectId
        have hinit := hheap _ hoff (congrArg ObjectHeader.typeId hhead)
        have hsize := hinit.slot_size (i := i)
        have hinit₂ := hlisted₂.congr (hfam₂.write (hheld₂ hx) (le_refl x) (by omega) hoff)
          hinit.family
        have hself : Function.update s.slabs i c i = c := Function.update_self _ _ _
        have hxlt : x < 2 ^ 64 := (hinit.addr (Function.update_self _ _ _)).2
        cases hf : (types i).create with
        | none =>
            simp only [hf] at hs
            rw [if_neg (by simp)] at hs
            split at hs
            · cases hs
            · rename_i ht m p hins
              obtain ⟨rfl, rfl⟩ := Prod.mk.inj (Option.some.inj hs)
              exact .inserted hinit hinit₂ (objObjectId.get_lt _ _) hxlt hins rfl rfl rfl rfl
        | some f =>
            simp only [hf] at hs
            have hpay := (ObHeap.payload hinit hheld (h.ok.create_payload i f x args _ hf)).1
            split at hs
            · obtain ⟨rfl, rfl⟩ := Prod.mk.inj (Option.some.inj hs)
              obtain ⟨o₃, hheap₃, _, _⟩ := hpay.free hheld
              have hfree := hpay.free_listed hheld hinit₂ hheap₃
              rw [hself] at hheap₃ hfree
              exact ObHeap.allLinked hheap₃ hfree
            · split at hs
              · cases hs
              · rename_i ht m p hins
                obtain ⟨rfl, rfl⟩ := Prod.mk.inj (Option.some.inj hs)
                exact .inserted hpay hinit₂ (objObjectId.get_lt _ _) hxlt hins rfl rfl rfl rfl

end Calls

/-! ## The runs -/

section Runs

variable [DecidableEq T] {types : Fin n → ObjectType} {arch : Arch} {slack : ℕ} {u v : ObRun n T}
  {op : ObOp n T} {ops : List (ObOp n T)} {o : SlabOwn (SlabId n)} {nodes : ℕ → List ℕ}
  {E : ℕ → List (ℕ × ℕ)} {V : ℕ → Option ObjectHeader}

theorem ObState.AllLinked.step (hl : u.state.AllLinked) (h : ObInv types slack u o nodes E V)
    (hs : ObStep types arch u op v) : v.state.AllLinked := by
  obtain ⟨hcaller, hcall, _⟩ := hs
  have hkeep : v.state = u.state → v.state.AllLinked := fun heq => heq ▸ hl
  have hclose : ∀ c k, k < capTableMax → ((u.state.tables c).entries k).object ≠ 0 →
      Vectra.closeSlot types u.state c k = some v.state → v.state.AllLinked := by
    intro c k hk hobj hs
    obtain ⟨hsome, _⟩ := h.entry c k hk hobj
    obtain ⟨hd, hx⟩ := Option.isSome_iff_exists.mp hsome
    have hheap := ObHeap.setHandleCount h.heap hx ((objHandleCount.get u.state.mem
      ((u.state.tables c).entries k).object + 2 ^ 32 - 1) % 2 ^ 32)
    exact (hl.congr h.heap hheap rfl rfl : ObState.AllLinked { u.state with
      tables := Function.update u.state.tables c ((u.state.tables c).clearSlot k)
      mem := atomicFetchSub objHandleCount u.state.mem
        ((u.state.tables c).entries k).object 1 }).objectMaybeDestroy hheap
          (Function.update_self _ _ _) hs
  have href : ∀ x a, u.Live x a → v.state = objectRef u.state x → v.state.AllLinked := by
    intro x a hlive heq
    obtain ⟨_, hd, hx⟩ := h.live_iff.mp hlive
    rw [heq]
    exact hl.congr h.heap (ObHeap.setRefcount h.heap hx _) rfl rfl
  cases op with
  | create i args r => exact hl.objectCreate h.heap h.next_lt hcall
  | ref x =>
      obtain ⟨a, hlive⟩ := hcaller
      exact href x a hlive hcall
  | deref x =>
      obtain ⟨a, hd, _, hx, _⟩ := h.owned hcaller
      have hheap := ObHeap.setRefcount h.heap hx
        ((objRefcount.get u.state.mem x + 2 ^ 32 - 1) % 2 ^ 32)
      have hl' : ObState.AllLinked { u.state with
          mem := atomicFetchSub objRefcount u.state.mem x 1 } := hl.congr h.heap hheap rfl rfl
      have hs : objectDeref types u.state x = some v.state := hcall
      unfold objectDeref at hs
      split at hs
      · exact hl'.objectMaybeDestroy hheap (Function.update_self _ _ _) hs
      · rwa [← Option.some.inj hs]
  | grant c x rights r =>
      obtain ⟨a, hd, _, hx, _⟩ := h.owned hcaller
      obtain ⟨_, _, ⟨_, hs⟩ | ⟨_, k, _, hs⟩⟩ := h.grant_cases arch c rights hcaller
      · exact hkeep (Prod.mk.inj (Option.some.inj (hs.symm.trans hcall))).2.symm
      · rw [← (Prod.mk.inj (Option.some.inj (hs.symm.trans hcall))).2]
        exact hl.congr h.heap (ObHeap.setHandleCount h.heap hx _) rfl rfl
  | close c k r =>
      have hs : objectClose types u.state c k = some (r, v.state) := hcall
      rw [ObInv.close_eq] at hs
      split at hs
      · rename_i hbound
        obtain ⟨t, ht, heq⟩ := Option.map_eq_some_iff.mp hs
        rw [← (Prod.mk.inj heq).2] at hclose ⊢
        exact hclose c k hbound.1 hbound.2 ht
      · exact hkeep (Prod.mk.inj (Option.some.inj hs)).2.symm
  | lookup c k rights r =>
      have hs : capLookup types u.state c k rights = some (r, v.state) := hcall
      rw [h.lookup_eq] at hs
      split at hs
      · rename_i hbound
        obtain ⟨hsome, _⟩ := h.entry c k hbound.1 hbound.2.1
        obtain ⟨hd, hx⟩ := Option.isSome_iff_exists.mp hsome
        obtain ⟨a, hlive, _⟩ := h.live_of_some hx
        exact href _ a hlive (Prod.mk.inj (Option.some.inj hs)).2.symm
      · exact hkeep (Prod.mk.inj (Option.some.inj hs)).2.symm

omit [DecidableEq T] in
theorem ObBoot.allLinked (h : ObBoot types u) : u.state.AllLinked := by
  obtain ⟨slack, hinv⟩ := h.inv
  refine ObHeap.allLinked hinv.heap fun y hy => ?_
  obtain ⟨⟨page, hpage, _⟩, _⟩ := hy
  cases hpage

theorem allLinked_run (hboot : ObBoot types u) (hrun : Run (BoundedStep types arch) u ops v) :
    v.state.AllLinked := by
  obtain ⟨slack, hinv⟩ := hboot.inv
  refine (hrun.invariant (I := fun w => (∃ o nodes E V, ObInv types slack w o nodes E V) ∧
    w.state.AllLinked) ?_ ⟨⟨_, _, _, _, hinv⟩, hboot.allLinked⟩).2
  rintro w op w' ⟨⟨o, nodes, E, V, hw⟩, hl⟩ ⟨hstep, hb⟩
  obtain ⟨_, o', nodes', E', V', hinv', _⟩ := hw.next hstep hb
  exact ⟨⟨o', nodes', E', V', hinv'⟩, hl.step hw hstep⟩

omit [DecidableEq T] in
/-- The slots of a type in use are its live objects. -/
theorem ObInv.taken_object (h : ObInv types slack u o nodes E V) {i : Fin n} {x : ℕ} :
    u.state.Taken (.type i) x ↔ ∃ a, u.Live x a ∧ a.type = i := by
  rw [ObHeap.taken_iff h.heap]
  constructor
  · intro hheld
    obtain ⟨hx, htype⟩ := ObHeap.live h.heap i x hheld
    obtain ⟨a, hlive, hcounts⟩ := h.live_of_some hx
    exact ⟨a, hlive, Fin.ext (hcounts.type.symm.trans htype)⟩
  · rintro ⟨a, hlive, rfl⟩
    obtain ⟨ha, hd, hx⟩ := h.live_iff.mp hlive
    obtain ⟨b, hb, hcounts⟩ := h.counts x hd hx
    obtain rfl : b = a := Option.some.inj (hb.symm.trans ha)
    obtain ⟨j, htype, hheld, _⟩ := ObHeap.typeOf h.heap hx
    obtain rfl : j = b.type := Fin.ext (htype.symm.trans hcounts.type)
    exact hheld

omit [DecidableEq T] in
/-- A node in a list holds a live object under its id. -/
theorem IdsOk.node_live (hids : IdsOk u.state E V) (h : ObInv types slack u o nodes E V) {b y : ℕ}
    (hb : b < u.state.idTable.nbuckets) (hy : y ∈ nodes b) :
    ∃ hd, V (nodeValue.get u.state.mem y) = some hd ∧ hd.objectId = nodeKey.get u.state.mem y := by
  have htable := ObHeap.table h.heap
  refine (hids.listed _ _).mp ?_
  have hbucket : u.state.bucket (nodeKey.get u.state.mem y) = b := htable.hash b hb y hy
  rw [hbucket, ← htable.entries b hb]
  exact List.mem_map.mpr ⟨y, hy, rfl⟩

omit [DecidableEq T] in
/-- Two nodes do not hold the same key. -/
theorem IdsOk.node_unique (hids : IdsOk u.state E V) (h : ObInv types slack u o nodes E V)
    {b b' y y' : ℕ} (hb : b < u.state.idTable.nbuckets) (hb' : b' < u.state.idTable.nbuckets)
    (hy : y ∈ nodes b) (hy' : y' ∈ nodes b')
    (hkey : nodeKey.get u.state.mem y = nodeKey.get u.state.mem y') : y = y' := by
  have htable := ObHeap.table h.heap
  have hbb : b = b' := by
    rw [← htable.hash b hb y hy, hkey, htable.hash b' hb' y' hy']
  subst hbb
  have hnodup := hids.nodup b
  rw [← htable.entries b hb, List.map_map] at hnodup
  exact List.inj_on_of_nodup_map hnodup hy hy' hkey

omit [DecidableEq T] in
/-- The nodes in use list the live objects, each once. -/
theorem ObInv.noLeak (h : ObInv types slack u o nodes E V) (hids : IdsOk u.state E V)
    (hl : u.state.AllLinked) : NoLeak u := by
  have htable := ObHeap.table h.heap
  have hnode : ∀ y, u.state.Taken .node y → ∃ b < u.state.idTable.nbuckets, y ∈ nodes b :=
    fun y hy => (ObHeap.linked_iff h.heap).mp (hl y hy)
  have htaken : ∀ b < u.state.idTable.nbuckets, ∀ y ∈ nodes b, u.state.Taken .node y :=
    fun b hb y hy => (ObHeap.taken_iff h.heap).mpr (htable.held b hb y hy)
  refine ⟨fun i x => h.taken_object, fun y => ⟨hl y, fun hy => ?_⟩, ⟨?_, ?_, ?_⟩, fun y hy => ?_⟩
  · obtain ⟨b, hb, hmem⟩ := (ObHeap.linked_iff h.heap).mp hy
    exact htaken b hb y hmem
  · intro y hy
    obtain ⟨b, hb, hmem⟩ := hnode y hy
    obtain ⟨hd, hx, _⟩ := hids.node_live h hb hmem
    obtain ⟨a, hlive, _⟩ := h.live_of_some hx
    exact ⟨a, hlive⟩
  · intro y hy y' hy' hvalue
    obtain ⟨b, hb, hmem⟩ := hnode y hy
    obtain ⟨b', hb', hmem'⟩ := hnode y' hy'
    obtain ⟨hd, hx, hkey⟩ := hids.node_live h hb hmem
    obtain ⟨hd', hx', hkey'⟩ := hids.node_live h hb' hmem'
    rw [hvalue, hx'] at hx
    cases hx
    exact hids.node_unique h hb hb' hmem hmem' (hkey.symm.trans hkey')
  · rintro x ⟨a, hlive⟩
    obtain ⟨_, hd, hx⟩ := h.live_iff.mp hlive
    have hb : u.state.bucket hd.objectId < u.state.idTable.nbuckets :=
      hashU64_lt htable.pos hd.objectId
    have hentry := (hids.listed hd.objectId x).mpr ⟨hd, hx, rfl⟩
    rw [← htable.entries _ hb] at hentry
    obtain ⟨y, hy, heq⟩ := List.mem_map.mp hentry
    exact ⟨y, htaken _ hb y hy, congrArg Prod.snd heq⟩
  · obtain ⟨b, hb, hmem⟩ := hnode y hy
    obtain ⟨hd, hx, hkey⟩ := hids.node_live h hb hmem
    obtain ⟨a, hlive, hcounts⟩ := h.live_of_some hx
    exact ⟨a, hlive, hcounts.id.symm.trans hkey⟩

/-- With fewer than 2^32 `object_create` calls, no call of a run loses a slot. -/
theorem object_slots_run (hboot : ObBoot types u) (hrun : Run (BoundedStep types arch) u ops v)
    (hcount : ops.countP ObOp.isCreate < 2 ^ 32) : NoLeak v := by
  obtain ⟨slack, hinv⟩ := hboot.inv
  obtain ⟨hids, hnum⟩ := hboot.ids
  obtain ⟨o, nodes, E, V, hv, hidsv⟩ := ObInv.idsOk_run hrun hinv hids hnum (by omega)
  exact hv.noLeak hidsv (allLinked_run hboot hrun)

end Runs

theorem object_slots_run_one_object :
    ∃ u, Run (BoundedStep pageType .arm64) pageObjects [.create 0 0 0x1010] u ∧ NoLeak u := by
  obtain ⟨u, hu⟩ := Option.isSome_iff_exists.mp (by decide +kernel :
    (pageObjects.calls pageType .arm64 [.create 0 0 0x1010]).isSome = true)
  have hrun := pageObjects_boot.calls_run (by decide) (by decide) hu
  exact ⟨u, hrun, object_slots_run pageObjects_boot hrun (by decide)⟩

end Vectra

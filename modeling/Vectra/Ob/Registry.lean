import Vectra.Ob.CapRuns

/-!
# The registry of live objects

The id table lists the live objects by their ids, as long as `object_create` draws an id
that no live object has.
-/

namespace Vectra

open Lib SlabMem

variable {n : ℕ} {T : Type}

/-- The entries `E` are the live objects with their ids, each id once. -/
structure IdsOk (s : ObState n T) (E : ℕ → List (ℕ × ℕ)) (V : ℕ → Option ObjectHeader) : Prop where
  nodup : ∀ b, ((E b).map Prod.fst).Nodup
  listed : ∀ id y, (id, y) ∈ E (s.bucket id) ↔ ∃ hd, V y = some hd ∧ hd.objectId = id

/-- An `object_create` that returns an object draws an id that no live object has. -/
def IdFresh (u : ObRun n T) : ObOp n T → Prop
  | .create _ _ r => r ≠ 0 → ∀ y a, u.Live y a → a.id ≠ u.state.nextObjectId
  | _ => True

section Assoc

variable {L : List (ℕ × ℕ)} {id y : ℕ}

theorem find_of_mem (hnodup : (L.map Prod.fst).Nodup) (hmem : (id, y) ∈ L) :
    L.find? (fun e => e.1 = id) = some (id, y) := by
  induction L with
  | nil => cases hmem
  | cons e L ih =>
      obtain ⟨hnot, htail⟩ := List.nodup_cons.mp hnodup
      rcases List.mem_cons.mp hmem with rfl | hmem
      · simp
      · have hne : e.1 ≠ id := by
          rintro rfl
          exact hnot (List.mem_map.mpr ⟨_, hmem, rfl⟩)
        rw [List.find?_cons_of_neg (by simpa using hne)]
        exact ih htail hmem

theorem mem_eraseP_iff (hnodup : (L.map Prod.fst).Nodup) {key : ℕ} :
    (id, y) ∈ L.eraseP (fun e => e.1 = key) ↔ (id, y) ∈ L ∧ id ≠ key := by
  induction L with
  | nil => simp
  | cons e L ih =>
      obtain ⟨hnot, htail⟩ := List.nodup_cons.mp hnodup
      by_cases hkey : e.1 = key
      · rw [List.eraseP_cons_of_pos (by simpa using hkey)]
        constructor
        · intro hmem
          refine ⟨List.mem_cons_of_mem e hmem, ?_⟩
          rintro rfl
          rw [hkey] at hnot
          exact hnot (List.mem_map.mpr ⟨_, hmem, rfl⟩)
        · rintro ⟨hmem, hne⟩
          rcases List.mem_cons.mp hmem with rfl | hmem
          · exact absurd hkey hne
          · exact hmem
      · rw [List.eraseP_cons_of_neg (by simpa using hkey), List.mem_cons, List.mem_cons, ih htail]
        constructor
        · rintro (rfl | ⟨hmem, hne⟩)
          · exact ⟨Or.inl rfl, hkey⟩
          · exact ⟨Or.inr hmem, hne⟩
        · rintro ⟨rfl | hmem, hne⟩
          · exact Or.inl rfl
          · exact Or.inr ⟨hmem, hne⟩

end Assoc

namespace IdsOk

variable {types : Fin n → ObjectType} {slack : ℕ} {u v : ObRun n T} {o : SlabOwn (SlabId n)}
  {nodes : ℕ → List ℕ} {E E' : ℕ → List (ℕ × ℕ)} {V V' : ℕ → Option ObjectHeader} {id y : ℕ}
  {a b : Tally n}

/-- Live objects have different ids. -/
theorem inj (h : IdsOk u.state E V) {x : ℕ} {hd hd' : ObjectHeader} (hx : V x = some hd)
    (hy : V y = some hd') (hid : hd.objectId = hd'.objectId) : x = y := by
  have hmx := (h.listed hd.objectId x).mpr ⟨hd, hx, rfl⟩
  have hmy := (h.listed hd.objectId y).mpr ⟨hd', hy, hid.symm⟩
  have hx' := find_of_mem (h.nodup _) hmx
  rw [find_of_mem (h.nodup _) hmy] at hx'
  exact (Prod.mk.inj (Option.some.inj hx')).2.symm

/-- `hashtable_lookup` returns the live object with the id. -/
theorem lookup (h : IdsOk u.state E V) (hinv : ObInv types slack u o nodes E V) (hy : y ≠ 0) :
    hashtableLookup u.state.idTable u.state.mem id = some y ↔ ∃ a, u.Live y a ∧ a.id = id := by
  have hlook := hinv.heap.table.lookup hinv.heap.family id
  have hlist : hashtableLookup u.state.idTable u.state.mem id = some y ↔
      (id, y) ∈ E (u.state.bucket id) := by
    rw [hlook, Option.some.injEq]
    constructor
    · intro hfound
      cases hfind : (E (hashU64 id u.state.idTable.nbuckets)).find? fun e => e.1 = id with
      | none =>
          rw [hfind] at hfound
          exact absurd hfound.symm hy
      | some e =>
          rw [hfind] at hfound
          have hkey := List.find?_some hfind
          have hmem := List.mem_of_find?_eq_some hfind
          obtain ⟨k, x⟩ := e
          obtain rfl : x = y := hfound
          obtain rfl : k = id := by simpa using hkey
          exact hmem
    · intro hmem
      have hfind := find_of_mem (h.nodup _) hmem
      unfold ObState.bucket at hfind
      rw [hfind]
      rfl
  rw [hlist, h.listed]
  constructor
  · rintro ⟨hd, hx, rfl⟩
    obtain ⟨a, hlive, hcounts⟩ := hinv.live_of_some hx
    exact ⟨a, hlive, hcounts.id.symm⟩
  · rintro ⟨a, hlive, rfl⟩
    obtain ⟨ha, hd, hx⟩ := hinv.live_iff.mp hlive
    obtain ⟨b, hb, hcounts⟩ := hinv.counts y hd hx
    cases ha.symm.trans hb
    exact ⟨hd, hx, hcounts.id⟩

theorem next (h : IdsOk u.state E V) (heff : ObEffect types u v E V E' V')
    (hnb : v.state.idTable.nbuckets = u.state.idTable.nbuckets)
    (hfresh : v.ledger.born ≠ u.ledger.born →
      ∀ y hd, V y = some hd → hd.objectId ≠ u.state.nextObjectId) : IdsOk v.state E' V' := by
  have hbucket : v.state.bucket = u.state.bucket := by
    unfold ObState.bucket
    rw [hnb]
  cases heff with
  | keep hnext hcalls hl =>
      refine ⟨h.nodup, ?_⟩
      rw [hbucket]
      exact h.listed
  | count x hd hd' hx hid =>
      refine ⟨h.nodup, fun id y => ?_⟩
      rw [hbucket, h.listed]
      by_cases hyx : y = x
      · subst hyx
        rw [Function.update_self, hx]
        simp [hid]
      · rw [Function.update_of_ne hyx]
  | created i x hx hnext hcalls hl hsame =>
      have hnew := hfresh (by
        rw [hl]
        intro heq
        have hborn := congrFun heq x
        simp at hborn)
      refine ⟨fun b => ?_, fun id y => ?_⟩
      · by_cases hb : b = u.state.bucket u.state.nextObjectId
        · rw [hb, Function.update_self, List.map_cons, List.nodup_cons]
          refine ⟨?_, h.nodup _⟩
          intro hmem
          obtain ⟨⟨k, y⟩, hmem, hk⟩ := List.mem_map.mp hmem
          obtain rfl : k = u.state.nextObjectId := hk
          obtain ⟨hd, hy, hid⟩ := (h.listed _ y).mp hmem
          exact hnew y hd hy hid
        · rw [Function.update_of_ne hb]
          exact h.nodup b
      · have hold : (id, y) ∈ Function.update E (u.state.bucket u.state.nextObjectId)
            ((u.state.nextObjectId, x) :: E (u.state.bucket u.state.nextObjectId))
              (u.state.bucket id) ↔
            (id = u.state.nextObjectId ∧ y = x) ∨ (id, y) ∈ E (u.state.bucket id) := by
          by_cases hb : u.state.bucket id = u.state.bucket u.state.nextObjectId
          · rw [hb, Function.update_self, List.mem_cons, Prod.mk.injEq]
          · rw [Function.update_of_ne hb]
            refine ⟨Or.inr, fun hor => hor.resolve_left ?_⟩
            rintro ⟨rfl, _⟩
            exact hb rfl
        rw [hbucket, hold, h.listed]
        by_cases hyx : y = x
        · subst hyx
          rw [Function.update_self, hx]
          simp [eq_comm]
        · rw [Function.update_of_ne hyx]
          simp [hyx]
  | destroyed i x hd hx =>
      refine ⟨fun b => ?_, fun id y => ?_⟩
      · by_cases hb : b = u.state.bucket hd.objectId
        · rw [hb, Function.update_self]
          exact (h.nodup _).sublist (List.Sublist.map _ List.eraseP_sublist)
        · rw [Function.update_of_ne hb]
          exact h.nodup b
      · have hold : (id, y) ∈ Function.update E (u.state.bucket hd.objectId)
            ((E (u.state.bucket hd.objectId)).eraseP fun e => e.1 = hd.objectId)
              (u.state.bucket id) ↔ (id, y) ∈ E (u.state.bucket id) ∧ id ≠ hd.objectId := by
          by_cases hb : u.state.bucket id = u.state.bucket hd.objectId
          · rw [hb, Function.update_self, mem_eraseP_iff (h.nodup _)]
          · rw [Function.update_of_ne hb]
            refine (and_iff_left ?_).symm
            rintro rfl
            exact hb rfl
        rw [hbucket, hold, h.listed]
        by_cases hyx : y = x
        · subst hyx
          rw [Function.update_self, hx]
          simp [eq_comm]
        · rw [Function.update_of_ne hyx]
          refine and_iff_left_of_imp ?_
          rintro ⟨hd', hy, rfl⟩ heq
          exact hyx (h.inj hy hx heq)

end IdsOk

/-! ## Few creations -/

def ObOp.isCreate : ObOp n T → Bool
  | .create .. => true
  | _ => false

/-- Only an `object_create` that returns an object adds one to the ledger. -/
theorem Ledger.born_after {L : Ledger n} {id : ℕ} {op : ObOp n T}
    (h : (L.after id op).born ≠ L.born) : ∃ i args r, op = .create i args r ∧ r ≠ 0 := by
  cases op with
  | create i args r =>
      refine ⟨i, args, r, rfl, fun hr => h ?_⟩
      simp only [after, if_pos hr]
  | lookup c k rights r =>
      refine absurd ?_ h
      simp only [after]
      split <;> rfl
  | _ => exact absurd rfl h

/-- The id table lists every object that is created and not destroyed, by the id that it
carries, and nothing else; lookups return. -/
structure Registered (u : ObRun n T) : Prop where
  lookup : ∀ id y, y ≠ 0 → (hashtableLookup u.state.idTable u.state.mem id = some y ↔
    ∃ a, u.Live y a ∧ a.id = id)
  carries : ∀ y a, u.Live y a → objObjectId.get u.state.mem y = a.id
  returns : ∀ id, (hashtableLookup u.state.idTable u.state.mem id).isSome

/-- An `object_create` that fails keeps the id table and the objects, and the slot that it
drew is back in the slab. -/
structure CreateFailed (types : Fin n → ObjectType) (u v : ObRun n T) (i : Fin n) : Prop where
  idTable : v.state.idTable = u.state.idTable
  lookup : ∀ id, hashtableLookup v.state.idTable v.state.mem id =
    hashtableLookup u.state.idTable u.state.mem id
  live : ∀ y a, v.Live y a ↔ u.Live y a
  same : ∀ y a, u.Live y a → SameIn u.state.mem v.state.mem y (types a.type).instanceSize
  slot : ∀ x m p c, slabAlloc u.state.mem u.state.pmm (u.state.slabs i) = some (x, m, p, c) →
    x ≠ 0 → v.state.Freed i x

/-- At most `c` ids have been drawn; they are the numbers from 1 on, and the next one is the
number after them modulo 2^32. -/
def Numbered (s : ObState n T) (V : ℕ → Option ObjectHeader) (c : ℕ) : Prop :=
  ∃ d ≤ c, s.nextObjectId = (1 + d) % 2 ^ 32 ∧
    ∀ y hd, V y = some hd → 1 ≤ hd.objectId ∧ hd.objectId ≤ d

namespace ObInv

variable {types : Fin n → ObjectType} {slack c : ℕ} {u v : ObRun n T} {o o' : SlabOwn (SlabId n)}
  {nodes nodes' : ℕ → List ℕ} {E E' : ℕ → List (ℕ × ℕ)} {V V' : ℕ → Option ObjectHeader}

theorem registered (h : ObInv types slack u o nodes E V) (hids : IdsOk u.state E V) :
    Registered u where
  lookup id y hy := hids.lookup h hy
  carries y a hlive := by
    obtain ⟨ha, hd, hx⟩ := h.live_iff.mp hlive
    obtain ⟨b, hb, hcounts⟩ := h.counts y hd hx
    cases ha.symm.trans hb
    rw [(h.read hx).2.2.2.2.1, hcounts.id]
  returns id := by
    rw [h.heap.table.lookup h.heap.family id]
    rfl

theorem createFailed [DecidableEq T] {arch : Arch} {i : Fin n} {args : ℕ}
    (h : ObInv types slack u o nodes E V)
    (hs : ObStep types arch u (.create i args 0) v) : CreateFailed types u v i := by
  obtain ⟨_, hcall, hl⟩ := hs
  have hcall' : objectCreate types u.state i args = some (0, v.state) := hcall
  obtain ⟨hid, hsame⟩ := ObHeap.objectCreate_failed h.heap hcall'
  obtain ⟨o', nodes', hcr, hfail, _⟩ := ObHeap.objectCreate h.heap h.next_lt hcall'
  obtain ⟨hheap, hslot⟩ := hfail rfl
  have hledger : v.ledger = u.ledger := hl
  have hlookup : ∀ id, hashtableLookup v.state.idTable v.state.mem id =
      hashtableLookup u.state.idTable u.state.mem id := by
    intro id
    rw [hheap.table.lookup hheap.family, h.heap.table.lookup h.heap.family, hid]
  have hlive : ∀ y a, v.Live y a ↔ u.Live y a := by
    intro y a
    unfold ObRun.Live
    rw [hledger]
    refine and_congr_right fun ha => not_congr ?_
    rw [h.freed_iff ha]
    constructor
    · intro hfreed
      cases hy : V y with
      | none => rfl
      | some hd =>
          obtain ⟨b, hb, hcounts⟩ := h.counts y hd hy
          cases ha.symm.trans hb
          exact absurd hfreed (ObState.not_freed hheap hy hcounts.type)
    · intro hy
      obtain ⟨hyfree, _⟩ := h.freed y a ha hy
      have hy0 : y ≠ 0 := (h.heap.family.slab (.type a.type)).freeChain.ne_zero hyfree
      refine ⟨_, (hheap.family.slab (.type a.type)).freeChain, ?_⟩
      by_cases hi : a.type = i
      · rw [hi] at hyfree ⊢
        exact (hcr.free y hyfree).resolve_left hy0
      · rw [hcr.other a.type hi]
        exact hyfree
  refine ⟨hid, hlookup, hlive, fun y a hy z hlo hhi => ?_, fun x m p c hx hx0 =>
    ⟨_, (hheap.family.slab (.type i)).freeChain, hslot x m p c hx hx0⟩⟩
  obtain ⟨ha, hd, hyV⟩ := h.live_iff.mp hy
  obtain ⟨b, hb, hcounts⟩ := h.counts y hd hyV
  cases ha.symm.trans hb
  obtain ⟨j, htype, hheld, _⟩ := ObHeap.typeOf h.heap hyV
  have hja : j = a.type := Fin.ext (htype.symm.trans hcounts.type)
  subst hja
  exact hsame _ y hheld z hlo (hhi.trans_le (Nat.add_le_add_left (h.heap.size a.type) y))

/-- A call draws at most one id, and only when it is `object_create`. -/
theorem numbered [DecidableEq T] {arch : Arch} {op : ObOp n T}
    (hs : ObStep types arch u op v) (heff : ObEffect types u v E V E' V')
    (hnum : Numbered u.state V c) (hc : c + (if op.isCreate then 1 else 0) < 2 ^ 32) :
    Numbered v.state V' (c + if op.isCreate then 1 else 0) := by
  obtain ⟨d, hd, hnext, hids⟩ := hnum
  have hop : op.isCreate = false → v.state.nextObjectId = u.state.nextObjectId := by
    intro hop
    refine hs.call.next fun i args r heq => ?_
    rw [heq] at hop
    cases hop
  have hle : d ≤ c + if op.isCreate then 1 else 0 := hd.trans (Nat.le_add_right _ _)
  -- a call that draws an id is a creation
  have hdraw : v.state.nextObjectId = (u.state.nextObjectId + 1) % 2 ^ 32 →
      d + 1 ≤ c + (if op.isCreate then 1 else 0) ∧
        v.state.nextObjectId = (1 + (d + 1)) % 2 ^ 32 := by
    intro heq
    cases hcr : op.isCreate with
    | false =>
        have hsame := hop hcr
        rw [hcr] at hc
        simp only [Bool.false_eq_true, if_false] at hc
        omega
    | true =>
        simp only [if_true]
        omega
  cases heff with
  | keep hnext' =>
      rcases hnext' with heq | heq
      · exact ⟨d, hle, heq.trans hnext, hids⟩
      · obtain ⟨hle', heq'⟩ := hdraw heq
        exact ⟨d + 1, hle', heq', fun y hd hy => by
          have hold := hids y hd hy
          omega⟩
  | count x hd hd' hx hid _ _ heq =>
      refine ⟨d, hle, heq.trans hnext, fun y hdy hy => ?_⟩
      by_cases hyx : y = x
      · subst hyx
        rw [Function.update_self] at hy
        cases hy
        rw [hid]
        exact hids y hd hx
      · rw [Function.update_of_ne hyx] at hy
        exact hids y hdy hy
  | created i x _ heq =>
      obtain ⟨hle', heq'⟩ := hdraw heq
      refine ⟨d + 1, hle', heq', fun y hdy hy => ?_⟩
      by_cases hyx : y = x
      · subst hyx
        rw [Function.update_self] at hy
        cases hy
        simp only
        omega
      · rw [Function.update_of_ne hyx] at hy
        have hold := hids y hdy hy
        omega
  | destroyed i x hd hx _ _ heq =>
      refine ⟨d, hle, heq.trans hnext, fun y hdy hy => ?_⟩
      by_cases hyx : y = x
      · subst hyx
        rw [Function.update_self] at hy
        cases hy
      · rw [Function.update_of_ne hyx] at hy
        exact hids y hdy hy

/-- With fewer than 2^32 creations every id is fresh. -/
theorem idsOk_run [DecidableEq T] {arch : Arch} {ops : List (ObOp n T)}
    (hrun : Run (BoundedStep types arch) u ops v) (h : ObInv types slack u o nodes E V)
    (hids : IdsOk u.state E V) (hnum : Numbered u.state V c)
    (hc : c + ops.countP ObOp.isCreate < 2 ^ 32) :
    ∃ o nodes E V, ObInv types slack v o nodes E V ∧ IdsOk v.state E V := by
  induction hrun generalizing o nodes E V c with
  | nil u => exact ⟨o, nodes, E, V, h, hids⟩
  | @cons u w v op ops hstep _ ih =>
      obtain ⟨hs, hb⟩ := hstep
      rw [List.countP_cons] at hc
      obtain ⟨hnb, o', nodes', E', V', hinv, heff⟩ := h.next hs hb
      have hnum' := numbered hs heff hnum (by omega)
      have hfresh : ∀ y hd, V y = some hd → w.ledger.born ≠ u.ledger.born →
          hd.objectId ≠ u.state.nextObjectId := by
        intro y hd hy hborn
        obtain ⟨d, hd', hnext, hle⟩ := hnum
        have hy' := hle y hd hy
        rw [hs.ledger] at hborn
        obtain ⟨i, args, r, rfl, _⟩ := Ledger.born_after hborn
        simp only [ObOp.isCreate, if_true] at hc
        omega
      exact ih hinv (hids.next heff hnb fun hborn y hd hy => hfresh y hd hy hborn) hnum' (by omega)

end ObInv

theorem ObBoot.ids {types : Fin n → ObjectType} {u : ObRun n T} (h : ObBoot types u) :
    IdsOk u.state (fun _ => []) (fun _ => none) ∧ Numbered u.state (fun _ => none) 0 := by
  refine ⟨⟨fun _ => List.nodup_nil, fun id y => ?_⟩, ⟨0, le_refl 0, ?_, fun y hd hy => ?_⟩⟩
  · simp
  · rw [h.nextObjectId]
    norm_num
  · cases hy

/-- With fewer than 2^32 `object_create` calls the id table is exact in every state of a run,
and a creation that fails leaves everything as it was. -/
theorem registry_run [DecidableEq T] {types : Fin n → ObjectType} {arch : Arch} {u₀ u : ObRun n T}
    {ops : List (ObOp n T)} (hboot : ObBoot types u₀) (hrun : Run (BoundedStep types arch) u₀ ops u)
    (hcount : ops.countP ObOp.isCreate < 2 ^ 32) :
    Registered u ∧ ∀ i args v, ObStep types arch u (.create i args 0) v →
      CreateFailed types u v i := by
  obtain ⟨slack, hinv⟩ := hboot.inv
  obtain ⟨hids, hnum⟩ := hboot.ids
  obtain ⟨o, nodes, E, V, hu, hidsu⟩ := ObInv.idsOk_run hrun hinv hids hnum (by omega)
  exact ⟨hu.registered hidsu, fun i args v hs => hu.createFailed hs⟩

/-- One type whose `create` operation fails unless its argument is 0. -/
def pickyType : Fin 1 → ObjectType :=
  fun _ => ⟨3000, some fun _ args m => (if args = 0 then 0 else -1, m), none, 3⟩

def pickyObjects : ObRun 1 Unit :=
  ⟨⟨fun _ => 0#8, fourFrames, fun _ => newSlabCache 3000, hashtableInit (fun _ => 1) 4096, 1,
    fun _ => capTableCreate, []⟩, ⟨fun _ => none, fun _ => 0⟩⟩

theorem pickyObjects_boot : ObBoot pickyType pickyObjects := by
  refine ⟨⟨by decide, fun _ => by simp [pickyType, objectHeaderSize], ?_, ?_⟩,
    ⟨0, by decide, by decide, by decide, by decide⟩, by decide, by decide,
    fun _ => by simp only [pickyType]; decide, fun _ => rfl, ⟨_, rfl⟩, rfl, fun _ => rfl, rfl,
      rfl⟩
  · intro i f obj args m hf
    cases hf
    exact fun _ _ => rfl
  · intro i f obj m hf
    cases hf

/-- A creation that fails, and a destroyed object whose slot is drawn again. -/
theorem registry_run_destroyed :
    ∃ u v, Run (BoundedStep pickyType .arm64) pickyObjects
        [.create 0 0 0x1010, .create 0 1 0, .deref 0x1010, .create 0 0 0x1010] u ∧ Registered u ∧
      ObStep pickyType .arm64 u (.create 0 1 0) v ∧ CreateFailed pickyType u v 0 := by
  obtain ⟨v, hv⟩ := Option.isSome_iff_exists.mp (by decide +kernel :
    (pickyObjects.calls pickyType .arm64 [.create 0 0 0x1010, .create 0 1 0, .deref 0x1010,
      .create 0 0 0x1010, .create 0 1 0]).isSome = true)
  have hall : Run (BoundedStep pickyType .arm64) pickyObjects
      ([.create 0 0 0x1010, .create 0 1 0, .deref 0x1010, .create 0 0 0x1010] ++
        [.create 0 1 0]) v := pickyObjects_boot.calls_run (by decide) (by decide) hv
  obtain ⟨u, hrun, hlast⟩ := hall.of_append
  cases hlast with
  | cons hstep htail =>
      cases htail
      obtain ⟨hreg, hfailed⟩ := registry_run pickyObjects_boot hrun (by decide)
      exact ⟨u, v, hrun, hreg, hstep.1, hfailed 0 1 v hstep.1⟩

/-- One type whose objects fill the slot of a page; its `create` operation clears the payload. -/
def wideType : Fin 1 → ObjectType :=
  fun _ => ⟨4080, some fun obj _ m => (0, fill m (obj + 48) 0#8 4032), none, 3⟩

/-- The state after `ob_init` with one type, one table and four free frames around 2^32. -/
def wideObjects : ObRun 1 Unit :=
  ⟨⟨fun _ => 0#8, ⟨fun _ => 0#8, 4, 4, 0xfffff000, 0⟩, fun _ => newSlabCache 4080,
    hashtableInit (fun _ => 1) 4096, 1, fun _ => capTableCreate, []⟩, ⟨fun _ => none, fun _ => 0⟩⟩

/-- After 2^32 lookups the reference count is 1 again, and the object dies under those who hold
references. Their calls of `object_deref` change the link of the free slot into the address of
the page of nodes, and the object that is created there overwrites the node of a live one. -/
theorem registry_wrapped_refcount :
    ObBoot wideType wideObjects ∧
      ∃ u, Run (ObStep wideType .arm64) wideObjects
          ([.create 0 0 0xfffff010, .grant () 0xfffff010 1 0, .lookup () 0 1 0xfffff010] ++
            List.replicate (2 ^ 32 - 1) (.lookup () 0 1 0xfffff010) ++
            [.close () 0 0, .deref 0xfffff010, .deref 0xfffff010] ++
            List.replicate (2 ^ 32 - 2) (.deref 0xfffff010) ++
            [.create 0 0 0xfffff010, .create 0 0 0x100000000]) u ∧
        u.Live 0xfffff010 ⟨0, 2, 0, 0, 0⟩ ∧
        hashtableLookup u.state.idTable u.state.mem 2 = some 0 := by
  refine ⟨⟨⟨by decide, fun _ => by simp [wideType, objectHeaderSize], ?_, ?_⟩,
    ⟨0, by decide, by decide, by decide, by decide⟩, by decide, by decide,
    fun _ => by simp only [wideType]; decide, fun _ => rfl, ⟨_, rfl⟩, rfl, fun _ => rfl, rfl, rfl⟩,
    ?_⟩
  · rintro i f obj args m hf
    cases hf
    exact fun x hx => fill_out hx
  · intro i f obj m hf
    cases hf
  have heval : (objectCreate wideType wideObjects.state 0 0 >>= fun a =>
      objectGrant wideType .arm64 a.2 () 0xfffff010 1 >>= fun b =>
        objectClose wideType { b.2 with mem := objRefcount.set b.2.mem 0xfffff010 1 } () 0 >>=
          fun c => objectDeref wideType c.2 0xfffff010 >>= fun d =>
            objectCreate wideType { d with mem := objRefcount.set d.mem 0xfffff010 1 } 0 0 >>=
              fun e => objectCreate wideType e.2 0 0 >>= fun f =>
                some ([a.1, b.1, e.1, f.1, objRefcount.get b.2.mem 0xfffff010,
                  objGeneration.get b.2.mem 0xfffff010, objRefcount.get d.mem 0xfffff010,
                  d.nextObjectId, (f.2.slabs 0).freeObjects, link f.2.mem 0x100000000], c.1,
                  (b.2.tables ()).entries 0, hashtableLookup f.2.idTable f.2.mem 2)) =
      some ([0xfffff010, 0, 0xfffff010, 0x100000000, 1, 0, 0, 2, 0x100000000, 0x100000000], 0,
        ⟨0xfffff010, 1, 0⟩, some 0) := by
    decide +kernel
  obtain ⟨⟨ra, sa⟩, ha, hrest⟩ := Option.bind_eq_some_iff.mp heval
  obtain ⟨⟨rb, sb⟩, hb, hrest⟩ := Option.bind_eq_some_iff.mp hrest
  obtain ⟨⟨rc, sc⟩, hc, hrest⟩ := Option.bind_eq_some_iff.mp hrest
  obtain ⟨sd, hd, hrest⟩ := Option.bind_eq_some_iff.mp hrest
  obtain ⟨⟨re, se⟩, he, hrest⟩ := Option.bind_eq_some_iff.mp hrest
  obtain ⟨⟨rf, sf⟩, hf, hresult⟩ := Option.bind_eq_some_iff.mp hrest
  simp only [Option.some.injEq, Prod.mk.injEq, List.cons.injEq, and_true] at hresult
  obtain ⟨⟨rfl, rfl, rfl, rfl, hcount, hgen, hzero, hnext, hhead, hlink⟩, rfl, hentry, hfound⟩ :=
    hresult
  generalize hborn : Function.update (fun _ : ℕ => 0) 0xfffff010 1 = born
  -- the ledger after `k` lookups and `j` calls of `object_deref`
  let L (k j : ℕ) : Ledger 1 :=
    ⟨Function.update (fun _ => none) 0xfffff010 (some ⟨0, 1, 0, k, j⟩), born⟩
  have howned : ∀ (s : ObState 1 Unit) k j, j ≤ k → ObRun.Owned ⟨s, L k j⟩ 0xfffff010 :=
    fun _ k j hjk => ⟨⟨0, 1, 0, k, j⟩, by simp [L], by simp only [Tally.held]; omega⟩
  -- the state after `k + 1` lookups
  let S (k : ℕ) : ObRun 1 Unit :=
    ⟨{ sb with mem := objRefcount.set sb.mem 0xfffff010 ((2 + k) % 2 ^ 32) }, L (k + 1) 0⟩
  have hlooked : ∀ k id, L (k + 1) 0 =
      (L k 0).after id (.lookup () 0 1 0xfffff010 : ObOp 1 Unit) := by
    intro k id
    simp [L, Ledger.after, Ledger.count_update]
  have hderefd : ∀ k j id, L k (j + 1) = (L k j).after id (.deref 0xfffff010 : ObOp 1 Unit) := by
    intro k j id
    simp [L, Ledger.after, Ledger.count_update]
  have h₁ : ObStep wideType .arm64 wideObjects (.create 0 0 0xfffff010) ⟨sa, L 0 0⟩ := by
    refine ⟨trivial, ha, ?_⟩
    simp only [L, ← hborn]
    rfl
  have h₂ : ObStep wideType .arm64 ⟨sa, L 0 0⟩ (.grant () 0xfffff010 1 0) ⟨sb, L 0 0⟩ :=
    ⟨howned _ _ _ (le_refl 0), hb, rfl⟩
  have h₃ : ObStep wideType .arm64 ⟨sb, L 0 0⟩ (.lookup () 0 1 0xfffff010) (S 0) :=
    ⟨trivial, capLookup_entry (by decide) (by decide) hentry hgen hcount, hlooked 0 _⟩
  have h₄ : ∀ k, ObStep wideType .arm64 (S k) (.lookup () 0 1 0xfffff010) (S (k + 1)) := fun k =>
    ⟨trivial, capLookup_again (by decide) (by decide) hentry hgen (2 + k), hlooked (k + 1) _⟩
  generalize hm : 2 ^ 32 - 1 = m
  have hone : (2 + m) % 2 ^ 32 = 1 := by
    rw [← hm]
    norm_num
  have h₅ : ObStep wideType .arm64 (S m) (.close () 0 0) ⟨sc, L (m + 1) 0⟩ := by
    refine ⟨trivial, ?_, rfl⟩
    simp only [S, hone]
    exact hc
  have h₆ : ObStep wideType .arm64 ⟨sc, L (m + 1) 0⟩ (.deref 0xfffff010) ⟨sd, L (m + 1) 1⟩ :=
    ⟨howned _ _ _ (by omega), hd, hderefd _ _ _⟩
  -- the free slot after `j + 1` more calls of `object_deref`
  let D (j : ℕ) : ObRun 1 Unit :=
    ⟨{ sd with mem := objRefcount.set sd.mem 0xfffff010 (2 ^ 32 - 1 - j) }, L (m + 1) (j + 2)⟩
  have hsub : ∀ (s : ObState 1 Unit), objRefcount.get s.mem 0xfffff010 ≠ 1 →
      objectDeref wideType s 0xfffff010 =
        some { s with mem := atomicFetchSub objRefcount s.mem 0xfffff010 1 } := by
    intro s hs
    unfold objectDeref
    rw [if_neg hs]
  have h₇ : ObStep wideType .arm64 ⟨sd, L (m + 1) 1⟩ (.deref 0xfffff010) (D 0) := by
    refine ⟨howned _ _ _ (by omega), ?_, hderefd _ _ _⟩
    have hs := hsub sd (by rw [hzero]; decide)
    unfold atomicFetchSub at hs
    rw [hzero] at hs
    exact hs
  have h₈ : ∀ j < 2 ^ 32 - 2, ObStep wideType .arm64 (D j) (.deref 0xfffff010) (D (j + 1)) := by
    intro j hj
    refine ⟨howned _ _ _ (by omega), ?_, hderefd _ _ _⟩
    have hget : objRefcount.get (objRefcount.set sd.mem 0xfffff010 (2 ^ 32 - 1 - j)) 0xfffff010 =
        2 ^ 32 - 1 - j := Field.get_set_four rfl (by omega)
    have hs := hsub (D j).state (by
      simp only [D]
      rw [hget]
      omega)
    have hval : (2 ^ 32 - 1 - j + 2 ^ 32 - 1) % 2 ^ 32 = 2 ^ 32 - 1 - (j + 1) := by omega
    simp only [D, atomicFetchSub, hget, Field.set_set, hval] at hs
    exact hs
  generalize hd' : 2 ^ 32 - 2 = d at h₈ ⊢
  have h₉ : ObStep wideType .arm64 (D d) (.create 0 0 0xfffff010)
      ⟨se, (L (m + 1) (d + 2)).after 2 (.create 0 0 0xfffff010 : ObOp 1 Unit)⟩ := by
    have hval : 2 ^ 32 - 1 - d = 1 := by omega
    refine ⟨trivial, ?_, ?_⟩
    · simp only [D, hval]
      exact he
    · simp only [D, hnext]
  obtain ⟨v, h₁₀, hv⟩ : ∃ v, ObStep wideType .arm64
      ⟨se, (L (m + 1) (d + 2)).after 2 (.create 0 0 0xfffff010 : ObOp 1 Unit)⟩
      (.create 0 0 0x100000000) v ∧ v.state = sf := ⟨⟨sf, _⟩, ⟨trivial, hf, rfl⟩, rfl⟩
  -- the free list of the type runs in a circle
  have hcircle : ∀ free, ¬ Chain (link sf.mem) 0x100000000 free := by
    intro free
    induction free with
    | nil => exact fun hchain => by cases hchain
    | cons y free ih =>
        rintro ⟨rfl, _, hchain⟩
        rw [hlink] at hchain
        exact ih hchain
  refine ⟨v, .append (.append (.append (.append (.cons h₁ (.cons h₂ (.cons h₃ (.nil _))))
    (Run.replicate fun k (_ : k < m) => h₄ k)) (.cons h₅ (.cons h₆ (.cons h₇ (.nil _)))))
    (Run.replicate h₈)) (.cons h₉ (.cons h₁₀ (.nil _))), ⟨?_, ?_⟩, ?_⟩
  · rw [h₁₀.ledger]
    simp [Ledger.after]
  · rintro ⟨free, hchain, _⟩
    rw [hv, hhead] at hchain
    exact hcircle free hchain
  · rw [hv]
    exact hfound

end Vectra

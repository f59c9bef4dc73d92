import Vectra.Lib.Run
import Vectra.Libkern.Hash

/-!
# Runs of the hash table

The table refines a list of entries with the newest first: an insertion puts
an entry in front, a removal takes the first entry of its key, a lookup reads it.
-/

namespace Vectra

open Lib SlabMem

/-! ## The list of entries -/

def assocLookup (L : List (ℕ × ℕ)) (key : ℕ) : ℕ := (L.find? fun e => e.1 = key).elim 0 Prod.snd

def assocRemove (L : List (ℕ × ℕ)) (key : ℕ) : List (ℕ × ℕ) := L.eraseP fun e => e.1 = key

inductive HashOp
  | insert (key value : ℕ)
  | remove (key : ℕ)
  | lookup (key result : ℕ)
  deriving DecidableEq

def HashOp.key : HashOp → ℕ
  | .insert key _ | .remove key | .lookup key _ => key

def assocOp (L : List (ℕ × ℕ)) : HashOp → List (ℕ × ℕ)
  | .insert key value => (key, value) :: L
  | .remove key => assocRemove L key
  | .lookup _ _ => L

theorem assocLookup_cons (L : List (ℕ × ℕ)) (key value k : ℕ) :
    assocLookup ((key, value) :: L) k = if key = k then value else assocLookup L k := by
  unfold assocLookup
  rw [List.find?_cons]
  by_cases hk : key = k
  · simp [hk]
  · simp [hk]

theorem assocRemove_cons (L : List (ℕ × ℕ)) (key value k : ℕ) :
    assocRemove ((key, value) :: L) k =
      if key = k then L else (key, value) :: assocRemove L k := by
  unfold assocRemove
  rw [List.eraseP_cons]
  by_cases hk : key = k
  · simp [hk]
  · simp [hk]

theorem assocLookup_assocRemove_of_ne (L : List (ℕ × ℕ)) {key k : ℕ} (h : key ≠ k) :
    assocLookup (assocRemove L key) k = assocLookup L k := by
  induction L with
  | nil => rfl
  | cons e L ih =>
      obtain ⟨a, v⟩ := e
      rw [assocRemove_cons, assocLookup_cons]
      by_cases ha : a = key
      · have hak : ¬ a = k := fun hk => h (ha.symm.trans hk)
        rw [if_pos ha, if_neg hak]
      · rw [if_neg ha, assocLookup_cons, ih]

/-- An operation on one key does not change the result for another. -/
theorem assocLookup_assocOp_of_ne (L : List (ℕ × ℕ)) (op : HashOp) {k : ℕ} (h : op.key ≠ k) :
    assocLookup (assocOp L op) k = assocLookup L k := by
  cases op with
  | insert key value =>
      have hne : ¬ key = k := h
      rw [assocOp, assocLookup_cons, if_neg hne]
  | remove key => exact assocLookup_assocRemove_of_ne L h
  | lookup key result => rfl

/-! ## The table -/

structure HashState where
  table : Hashtable
  mem : Bytes
  pmm : Pmm

/-- A completed operation; keys and values are 64-bit words. -/
def HashStep (s : HashState) (op : HashOp) (t : HashState) : Prop :=
  match op with
  | .insert key value => key < 2 ^ 64 ∧ value < 2 ^ 64 ∧
      hashtableInsert s.table s.mem s.pmm key value = some (t.table, t.mem, t.pmm)
  | .remove key => hashtableRemove s.table s.mem key = some (t.table, t.mem) ∧ t.pmm = s.pmm
  | .lookup key result => hashtableLookup s.table s.mem key = some result ∧ t = s

/-- A slot of the node cache that is handed out. -/
def HashState.NodeOut (s : HashState) (x : ℕ) : Prop :=
  ∃ pages free, SlabInv s.mem s.pmm s.table.nodeCache pages free ∧
    Allocated s.table.nodeCache.objSize pages free x

/-- The nodes of the table, newest first, hold the entries of the list; they
are exactly the slots that are handed out. -/
structure HashRefines (s : HashState) (N : List ℕ) (L : List (ℕ × ℕ)) : Prop where
  nodup : N.Nodup
  nodeOut : ∀ x, s.NodeOut x ↔ x ∈ N
  entries : N.map (nodeEntry s.mem) = L
  lookup : ∀ key, hashtableLookup s.table s.mem key = some (assocLookup L key)
  count : s.table.count = L.length % 2 ^ 32

/-- The nodes of bucket `b`. -/
def bucketNodes (s : HashState) (N : List ℕ) (b : ℕ) : List ℕ :=
  N.filter fun x => hashU64 (nodeKey.get s.mem x) s.table.nbuckets = b

theorem bucketNodes_cons (s : HashState) (N : List ℕ) (x b : ℕ) :
    bucketNodes s (x :: N) b =
      if hashU64 (nodeKey.get s.mem x) s.table.nbuckets = b then x :: bucketNodes s N b
      else bucketNodes s N b := by
  unfold bucketNodes
  rw [List.filter_cons]
  by_cases hb : hashU64 (nodeKey.get s.mem x) s.table.nbuckets = b
  · rw [if_pos hb, if_pos (decide_eq_true hb)]
  · rw [if_neg hb, decide_eq_false hb, if_neg Bool.false_ne_true]

/-- The buckets depend on the keys of the nodes only. -/
theorem bucketNodes_congr {s t : HashState} {N : List ℕ} (hnb : t.table.nbuckets = s.table.nbuckets)
    (hkey : ∀ x ∈ N, nodeKey.get t.mem x = nodeKey.get s.mem x) :
    bucketNodes t N = bucketNodes s N := by
  funext b
  apply List.filter_congr
  intro x hx
  rw [hkey x hx, hnb]

/-- Taking the first node of a key out changes the bucket of the key only. -/
theorem bucketNodes_erase (s : HashState) (N : List ℕ) (key b : ℕ) :
    bucketNodes s (N.eraseP fun x => nodeKey.get s.mem x = key) b =
      if b = hashU64 key s.table.nbuckets then
        (bucketNodes s N b).eraseP fun x => nodeKey.get s.mem x = key
      else bucketNodes s N b := by
  induction N with
  | nil => exact (ite_self _).symm
  | cons x N ih =>
      rw [List.eraseP_cons, bucketNodes_cons]
      by_cases hx : nodeKey.get s.mem x = key
      · rw [decide_eq_true hx, cond_true, hx]
        by_cases hb : b = hashU64 key s.table.nbuckets
        · rw [if_pos hb, if_pos hb.symm, List.eraseP_cons, decide_eq_true hx, cond_true]
        · rw [if_neg hb, if_neg (Ne.symm hb)]
      · rw [decide_eq_false hx, cond_false, bucketNodes_cons, ih]
        by_cases hb : b = hashU64 key s.table.nbuckets
        · rw [if_pos hb, if_pos hb]
          split
          · rw [List.eraseP_cons, decide_eq_false hx, cond_false]
          · rfl
        · rw [if_neg hb, if_neg hb]

/-- The invariant of a run; the table has the only cache of the family. -/
structure HashInv (slack : ℕ) (s : HashState) (o : SlabOwn Unit) (N : List ℕ)
    (E : ℕ → List (ℕ × ℕ)) : Prop where
  family : SlabFamily slack s.mem s.pmm (fun _ => s.table.nodeCache) o
  rep : HashRep s.mem (fun _ => s.table.nodeCache) o () s.table (bucketNodes s N) E
  nodup : N.Nodup
  held : ∀ x, o.Held (fun _ => s.table.nodeCache) () x ↔ x ∈ N
  count : s.table.count = N.length % 2 ^ 32

theorem update_unit (c d : SlabCache) :
    Function.update (fun _ : Unit => c) () d = fun _ => d := by
  funext x
  exact Function.update_self _ _ _

theorem SlabInv.unique {M C : Type} [SlabMem M C] {m : M} {p : Pmm} {c : SlabCache}
    {pages free pages' free' : List ℕ} (h : SlabInv m p c pages free)
    (k : SlabInv m p c pages' free') : pages = pages' ∧ free = free' :=
  ⟨h.pageChain.unique k.pageChain, h.freeChain.unique k.freeChain⟩

namespace HashInv

variable {slack n key value : ℕ} {s t : HashState} {o : SlabOwn Unit} {N : List ℕ}
  {E : ℕ → List (ℕ × ℕ)} {op : HashOp}

theorem mem_bucket (N : List ℕ) {b x : ℕ} (hx : x ∈ bucketNodes s N b) : x ∈ N :=
  (List.mem_filter.mp hx).1

theorem mem_own_bucket (h : HashInv slack s o N E) {x : ℕ} (hx : x ∈ N) :
    ∃ b < s.table.nbuckets, x ∈ bucketNodes s N b :=
  ⟨_, hashU64_lt h.rep.pos _, List.mem_filter.mpr ⟨hx, decide_eq_true rfl⟩⟩

/-- Searching the bucket of a key is searching all nodes. -/
theorem find_bucket (s : HashState) (N : List ℕ) (key : ℕ) :
    (bucketNodes s N (hashU64 key s.table.nbuckets)).find? (fun x => nodeKey.get s.mem x = key) =
      N.find? fun x => nodeKey.get s.mem x = key := by
  unfold bucketNodes
  induction N with
  | nil => rfl
  | cons x N ih =>
      rw [List.filter_cons, List.find?_cons]
      by_cases hx : nodeKey.get s.mem x = key
      · rw [hx, decide_eq_true rfl, if_pos rfl, List.find?_cons, hx, decide_eq_true rfl]
      · rw [decide_eq_false hx, ← ih]
        split
        · rw [List.find?_cons, decide_eq_false hx]
        · rfl

theorem find_entries (m : Bytes) (N : List ℕ) (key : ℕ) :
    (N.map (nodeEntry m)).find? (fun e => e.1 = key) =
      (N.find? fun x => nodeKey.get m x = key).map (nodeEntry m) := by
  induction N with
  | nil => rfl
  | cons x N ih =>
      rw [List.map_cons, List.find?_cons, List.find?_cons, nodeEntry_fst]
      by_cases hx : nodeKey.get m x = key
      · rw [decide_eq_true hx, Option.map_some]
      · rw [decide_eq_false hx, ih]

theorem erase_entries (m : Bytes) (N : List ℕ) (key : ℕ) :
    (N.eraseP fun x => nodeKey.get m x = key).map (nodeEntry m) =
      assocRemove (N.map (nodeEntry m)) key := by
  induction N with
  | nil => rfl
  | cons x N ih =>
      rw [List.map_cons, List.eraseP_cons]
      change _ = assocRemove ((nodeKey.get m x, nodeValue.get m x) :: N.map (nodeEntry m)) key
      rw [assocRemove_cons]
      by_cases hx : nodeKey.get m x = key
      · rw [decide_eq_true hx, cond_true, if_pos hx]
      · rw [decide_eq_false hx, cond_false, if_neg hx, List.map_cons, ih]
        rfl

theorem refines (h : HashInv slack s o N E) : HashRefines s N (N.map (nodeEntry s.mem)) where
  nodup := h.nodup
  nodeOut x := by
    rw [← h.held x]
    have hslab := h.family.slab ()
    constructor
    · rintro ⟨pages, free, hinv, hall⟩
      obtain ⟨rfl, rfl⟩ := hinv.unique hslab
      exact hall
    · intro hheld
      exact ⟨_, _, hslab, hheld⟩
  entries := rfl
  lookup key := by
    rw [h.rep.lookup h.family, ← h.rep.entries _ (hashU64_lt h.rep.pos key), find_entries,
      find_bucket, ← find_entries]
    rfl
  count := by rw [List.length_map]; exact h.count

theorem init (mem : Bytes) {p : Pmm} (hp : PmmInv slack p) (hbase : 0 < p.memPhysBase)
    (hroom : p.memPhysBase + p.totalFrames * pageSize + hashNodeSize < 2 ^ 64) (raw : ℕ → ℕ)
    {nbuckets : ℕ} (hn : 0 < nbuckets) (hwrap : 8 * nbuckets < 2 ^ 64) :
    HashInv slack ⟨hashtableInit raw nbuckets, mem, p⟩ ⟨fun _ => [], fun _ => []⟩ []
      (fun _ => []) where
  family := by
    have hge : 8 ≤ hashNodeSize := by decide
    have hmod : hashNodeSize % 8 = 0 := by decide
    refine ⟨hp, fun _ => ⟨hge, hmod, hbase, hroom⟩, fun _ => SlabInv.new mem p hashNodeSize, ?_⟩
    intro i j hij
    exact absurd rfl hij
  rep := by
    refine ⟨rfl, rfl, hn, ?_, by simp [bucketNodes], by simp [bucketNodes], fun _ _ => rfl⟩
    intro b hb
    have hcleared : 8 * b + 8 ≤ 8 * nbuckets % 2 ^ 64 := by
      have hlt : b < nbuckets := hb
      rw [Nat.mod_eq_of_lt hwrap]
      omega
    exact if_pos hcleared
  nodup := List.nodup_nil
  held x := by
    simp [SlabOwn.Held, Allocated, IsSlot]
  count := rfl

/-- An insertion puts a fresh node in front. -/
theorem insert (h : HashInv slack s o N E) (hkey : key < 2 ^ 64) (hvalue : value < 2 ^ 64)
    (hs : hashtableInsert s.table s.mem s.pmm key value = some (t.table, t.mem, t.pmm)) :
    ∃ o' n E', n ∉ N ∧ HashInv slack t o' (n :: N) E' ∧
      (n :: N).map (nodeEntry t.mem) = (key, value) :: N.map (nodeEntry s.mem) := by
  obtain ⟨o', n, hfam, hrep, _, hnb, _, hcount, hchange, hentry⟩ :=
    h.rep.insert h.family hkey hvalue hs
  rw [update_unit] at hfam hrep hchange
  have hfresh : n ∉ N := fun hn => hchange.fresh n rfl ((h.held n).mpr hn)
  have hold : ∀ x ∈ N, nodeEntry t.mem x = nodeEntry s.mem x := by
    intro x hx
    obtain ⟨b, hb, hxb⟩ := h.mem_own_bucket hx
    exact hchange.entry b hb x hxb id
  have hkeyNew : nodeKey.get t.mem n = key := by rw [← nodeEntry_fst, hentry]
  have hnodes : Function.update (bucketNodes s N) (hashU64 key s.table.nbuckets)
      (n :: bucketNodes s N (hashU64 key s.table.nbuckets)) = bucketNodes t (n :: N) := by
    have htail : bucketNodes t N = bucketNodes s N :=
      bucketNodes_congr hnb fun x hx => by rw [← nodeEntry_fst, hold x hx, nodeEntry_fst]
    funext b
    rw [bucketNodes_cons, htail, hkeyNew, hnb]
    by_cases hb : b = hashU64 key s.table.nbuckets
    · rw [if_pos hb.symm, hb, Function.update_self]
    · rw [if_neg (Ne.symm hb), Function.update_of_ne hb]
  rw [hnodes] at hrep
  refine ⟨o', n, _, hfresh, ⟨hfam, hrep, List.nodup_cons.mpr ⟨hfresh, h.nodup⟩, ?_, ?_⟩, ?_⟩
  · intro x
    rw [hchange.held x, h.held x, List.mem_cons]
    exact ⟨fun hx => hx.elim (fun hx => Or.inr hx.1) Or.inl,
      fun hx => hx.elim Or.inr fun hx => Or.inl ⟨hx, id⟩⟩
  · rw [hcount, h.count, List.length_cons]
    omega
  · rw [List.map_cons, hentry, List.map_congr_left hold]

/-- A removal takes the first node of the key, and no other. -/
theorem remove (h : HashInv slack s o N E) (key : ℕ) :
    ∃ table mem o' E', hashtableRemove s.table s.mem key = some (table, mem) ∧
      HashInv slack ⟨table, mem, s.pmm⟩ o' (N.eraseP fun x => nodeKey.get s.mem x = key) E' ∧
      (N.eraseP fun x => nodeKey.get s.mem x = key).map (nodeEntry mem) =
        assocRemove (N.map (nodeEntry s.mem)) key := by
  obtain ⟨table, mem, o', hs, hfam, hrep, _, hnb, hcount, hchange⟩ := h.rep.remove h.family key
  rw [update_unit] at hfam hrep hchange
  have hkept : ∀ x, x ∈ N.eraseP (fun x => nodeKey.get s.mem x = key) ↔
      x ∈ N ∧ N.find? (fun x => nodeKey.get s.mem x = key) ≠ some x := by
    intro x
    by_cases hex : ∃ d ∈ N, nodeKey.get s.mem d = key
    · obtain ⟨d, hd, hdk⟩ := hex
      obtain ⟨y, pre, post, hpre, hy, hN, herase⟩ :=
        List.exists_of_eraseP (p := fun x => decide (nodeKey.get s.mem x = key)) hd
          (decide_eq_true hdk)
      have hnodup := h.nodup
      rw [hN, List.nodup_append] at hnodup
      rw [herase, hN, List.find?_append, List.find?_eq_none.mpr hpre, Option.none_or,
        List.find?_cons, hy, Option.some_inj.ne, List.mem_append, List.mem_append, List.mem_cons]
      constructor
      · rintro (hx | hx)
        · exact ⟨Or.inl hx, fun heq => hnodup.2.2 x hx y List.mem_cons_self heq.symm⟩
        · exact ⟨Or.inr (Or.inr hx), fun heq =>
            (List.nodup_cons.mp hnodup.2.1).1 (heq ▸ hx)⟩
      · rintro ⟨hx | rfl | hx, hne⟩
        · exact Or.inl hx
        · exact absurd rfl hne
        · exact Or.inr hx
    · have hnot : ∀ x ∈ N, ¬ decide (nodeKey.get s.mem x = key) = true :=
        fun x hx heq => hex ⟨x, hx, of_decide_eq_true heq⟩
      rw [List.eraseP_of_forall_not hnot, List.find?_eq_none.mpr hnot]
      simp
  have hold : ∀ x ∈ N.eraseP (fun x => nodeKey.get s.mem x = key),
      nodeEntry mem x = nodeEntry s.mem x := by
    intro x hx
    obtain ⟨hxN, hne⟩ := (hkept x).mp hx
    obtain ⟨b, hb, hxb⟩ := h.mem_own_bucket hxN
    refine hchange.entry b hb x hxb ?_
    rw [find_bucket]
    exact hne
  have hnodes : Function.update (bucketNodes s N) (hashU64 key s.table.nbuckets)
      ((bucketNodes s N (hashU64 key s.table.nbuckets)).eraseP
        fun x => nodeKey.get s.mem x = key) =
      bucketNodes ⟨table, mem, s.pmm⟩ (N.eraseP fun x => nodeKey.get s.mem x = key) := by
    have hcongr : bucketNodes ⟨table, mem, s.pmm⟩
        (N.eraseP fun x => nodeKey.get s.mem x = key) =
          bucketNodes s (N.eraseP fun x => nodeKey.get s.mem x = key) :=
      bucketNodes_congr hnb fun x hx => by rw [← nodeEntry_fst, hold x hx, nodeEntry_fst]
    rw [hcongr]
    funext b
    rw [bucketNodes_erase]
    by_cases hb : b = hashU64 key s.table.nbuckets
    · rw [if_pos hb, hb, Function.update_self]
    · rw [if_neg hb, Function.update_of_ne hb]
  rw [hnodes] at hrep
  refine ⟨table, mem, o', _, hs, ⟨hfam, hrep, h.nodup.sublist List.eraseP_sublist, ?_, ?_⟩, ?_⟩
  · intro x
    rw [hchange.held x, h.held x, hkept x, find_bucket]
    exact ⟨fun hx => hx.elim id False.elim, Or.inl⟩
  · rw [hcount, h.count]
    by_cases hex : ∃ n ∈ bucketNodes s N (hashU64 key s.table.nbuckets), nodeKey.get s.mem n = key
    · obtain ⟨d, hd, hdk⟩ := hex
      have hlen := List.length_eraseP_of_mem (p := fun x => decide (nodeKey.get s.mem x = key))
        (mem_bucket N hd) (decide_eq_true hdk)
      have hpos := List.length_pos_of_mem (mem_bucket N hd)
      rw [if_pos ⟨d, hd, hdk⟩, hlen]
      omega
    · have hnot : ∀ x ∈ N, ¬ decide (nodeKey.get s.mem x = key) = true := by
        intro x hx hxk
        have hxk' := of_decide_eq_true hxk
        refine hex ⟨x, List.mem_filter.mpr ⟨hx, decide_eq_true ?_⟩, hxk'⟩
        rw [hxk']
      rw [if_neg hex, List.eraseP_of_forall_not hnot]
  · rw [List.map_congr_left hold, erase_entries]

/-- Every operation keeps the invariant, and acts on the entries as on the list. -/
theorem step (h : HashInv slack s o N E) (hs : HashStep s op t) :
    ∃ o' N' E', HashInv slack t o' N' E' ∧
      N'.map (nodeEntry t.mem) = assocOp (N.map (nodeEntry s.mem)) op := by
  cases op with
  | insert key value =>
      obtain ⟨hkey, hvalue, hs⟩ := hs
      obtain ⟨o', n, E', _, hinv, hentries⟩ := h.insert hkey hvalue hs
      exact ⟨o', n :: N, E', hinv, hentries⟩
  | remove key =>
      obtain ⟨hs, hpmm⟩ := hs
      obtain ⟨table, mem, o', E', hrem, hinv, hentries⟩ := h.remove key
      rw [hs] at hrem
      obtain ⟨rfl, rfl⟩ := Prod.mk.inj (Option.some.inj hrem)
      rw [← hpmm] at hinv
      exact ⟨o', _, E', hinv, hentries⟩
  | lookup key result =>
      obtain ⟨_, rfl⟩ := hs
      exact ⟨o, N, E, h, rfl⟩

theorem run {es : List HashOp} (hrun : Run HashStep s es t) (h : HashInv slack s o N E) :
    ∃ o' N' E', HashInv slack t o' N' E' ∧
      N'.map (nodeEntry t.mem) = es.foldl assocOp (N.map (nodeEntry s.mem)) := by
  induction hrun generalizing o N E with
  | nil s => exact ⟨o, N, E, h, rfl⟩
  | cons head _ ih =>
      obtain ⟨o', N', E', hinv, hentries⟩ := h.step head
      rw [List.foldl_cons, ← hentries]
      exact ih hinv

end HashInv

/-- The result of an operation on a table that holds the entries `L` in the nodes `N`. -/
structure HashOpsRefine (s : HashState) (N : List ℕ) (L : List (ℕ × ℕ)) : Prop where
  insert : ∀ key value t, HashStep s (.insert key value) t →
    ∃ n, n ∉ N ∧ HashRefines t (n :: N) ((key, value) :: L)
  remove : ∀ key, ∃ t, HashStep s (.remove key) t ∧
    HashRefines t (N.eraseP fun n => nodeKey.get s.mem n = key) (assocRemove L key)
  lookup : ∀ key, HashStep s (.lookup key (assocLookup L key)) s
  other : ∀ op t key, HashStep s op t → op.key ≠ key →
    hashtableLookup t.table t.mem key = hashtableLookup s.table s.mem key

theorem HashInv.opsRefine {slack : ℕ} {s : HashState} {o : SlabOwn Unit} {N : List ℕ}
    {E : ℕ → List (ℕ × ℕ)} (h : HashInv slack s o N E) :
    HashOpsRefine s N (N.map (nodeEntry s.mem)) where
  insert key value t hs := by
    obtain ⟨hkey, hvalue, hs⟩ := hs
    obtain ⟨_, n, _, hfresh, hinv, hentries⟩ := h.insert hkey hvalue hs
    exact ⟨n, hfresh, hentries ▸ hinv.refines⟩
  remove key := by
    obtain ⟨table, mem, o', E', hs, hinv, hentries⟩ := h.remove key
    exact ⟨⟨table, mem, s.pmm⟩, ⟨hs, rfl⟩, hentries ▸ hinv.refines⟩
  lookup key := ⟨h.refines.lookup key, rfl⟩
  other op t key hs hne := by
    obtain ⟨_, N', _, hinv, hentries⟩ := h.step hs
    rw [hinv.refines.lookup, h.refines.lookup, hentries, assocLookup_assocOp_of_ne _ op hne]

/-- Every run from `hashtable_init` leaves a table that refines the list of its
entries, and so does every operation after it. -/
theorem hashtable_run_refines {slack nbuckets : ℕ} {p : Pmm} (mem : Bytes) (raw : ℕ → ℕ)
    (hn : 0 < nbuckets) (hwrap : 8 * nbuckets < 2 ^ 64) (hp : PmmInv slack p)
    (hbase : 0 < p.memPhysBase)
    (hroom : p.memPhysBase + p.totalFrames * pageSize + hashNodeSize < 2 ^ 64)
    {es : List HashOp} {t : HashState}
    (hrun : Run HashStep ⟨hashtableInit raw nbuckets, mem, p⟩ es t) :
    ∃ N, HashRefines t N (es.foldl assocOp []) ∧ HashOpsRefine t N (es.foldl assocOp []) := by
  obtain ⟨_, N, _, hinv, hentries⟩ :=
    HashInv.run hrun (HashInv.init mem hp hbase hroom raw hn hwrap)
  rw [List.map_nil] at hentries
  rw [← hentries]
  exact ⟨N, hinv.refines, hinv.opsRefine⟩

/-- Four clear frames from `0x1000` on. -/
def fourFrames : Pmm := ⟨fun _ => 0#8, 4, 4, 0x1000, 0⟩

theorem hashtable_run_refines_same_key :
    ∃ t, Run HashStep ⟨hashtableInit (fun _ => 1) 4, fun _ => 0xff#8, fourFrames⟩
        [.insert 5 7, .insert 5 8, .remove 5] t ∧
      ∃ N, HashRefines t N [(5, 7)] ∧ HashOpsRefine t N [(5, 7)] := by
  have hp : PmmInv 0 fourFrames := ⟨by decide, by decide, by decide, by decide⟩
  obtain ⟨b, hb⟩ := Option.isSome_iff_exists.mp (by decide +kernel :
    ((hashtableInsert (hashtableInit (fun _ => 1) 4) (fun _ => 0xff#8) fourFrames 5 7).bind
      fun a => (hashtableInsert a.1 a.2.1 a.2.2 5 8).bind
        fun b => (hashtableRemove b.1 b.2.1 5).map fun c => (c, b.2.2)).isSome = true)
  obtain ⟨a, ha, hb⟩ := Option.bind_eq_some_iff.mp hb
  obtain ⟨b, hb, hc⟩ := Option.bind_eq_some_iff.mp hb
  obtain ⟨c, hc, _⟩ := Option.map_eq_some_iff.mp hc
  have hrun : Run HashStep ⟨hashtableInit (fun _ => 1) 4, fun _ => 0xff#8, fourFrames⟩
      [.insert 5 7, .insert 5 8, .remove 5] ⟨c.1, c.2, b.2.2⟩ :=
    .cons (u := ⟨a.1, a.2.1, a.2.2⟩) ⟨by decide, by decide, ha⟩
      (.cons (u := ⟨b.1, b.2.1, b.2.2⟩) ⟨by decide, by decide, hb⟩
        (.cons (u := ⟨c.1, c.2, b.2.2⟩) ⟨hc, rfl⟩ (.nil _)))
  exact ⟨_, hrun, hashtable_run_refines _ _ (by decide) (by decide) hp (by decide) (by decide) hrun⟩

end Vectra

import Vectra.Lib.Record
import Vectra.Mm.Kheap
import Vectra.Mm.SlabFamily

/-!
# The hash table of `hash.c`

Buckets of singly linked nodes; the nodes are slots of the table's own
cache. The array of buckets is kept apart from the memory of the slabs.
-/

namespace Vectra

open Lib SlabMem

/-! ## The functions -/

/-- The fields of `hash_node_t`. -/
def nodeKey : Field := ⟨0, 8⟩

def nodeValue : Field := ⟨8, 8⟩

def nodeNext : Field := ⟨16, 8⟩

/-- `sizeof(hash_node_t)`. -/
def hashNodeSize : ℕ := 24

structure Hashtable where
  buckets : ℕ → ℕ
  nbuckets : ℕ
  count : ℕ
  nodeCache : SlabCache

def hashU64 (key nbuckets : ℕ) : ℕ :=
  let key := key ^^^ (key >>> 33)
  let key := key * 0xff51afd7ed558ccd % 2 ^ 64
  let key := key ^^^ (key >>> 33)
  key % nbuckets

/-- The table that `hashtable_init` leaves, once its array is allocated; `raw` is
what the array held. The length that `memset` clears is computed on `uint64_t`. -/
def hashtableInit (raw : ℕ → ℕ) (nbuckets : ℕ) : Hashtable :=
  ⟨fun b => if 8 * b + 8 ≤ 8 * nbuckets % 2 ^ 64 then 0 else raw b, nbuckets, 0,
    newSlabCache hashNodeSize⟩

/-- `hashtable_insert` does not return when there is no memory for the node. -/
def hashtableInsert (ht : Hashtable) (m : Bytes) (p : Pmm) (key value : ℕ) :
    Option (Hashtable × Bytes × Pmm) :=
  match slabAlloc m p ht.nodeCache with
  | none => none
  | some (n, m, p, c) =>
      if n = 0 then none
      else
        let m := nodeValue.set (nodeKey.set m n key) n value
        let b := hashU64 key ht.nbuckets
        some ({ ht with
            buckets := Function.update ht.buckets b n
            count := (ht.count + 1) % 2 ^ 32
            nodeCache := c },
          nodeNext.set m n (ht.buckets b), p)

/-- The loop of `hashtable_lookup`. The fuel counts nodes. -/
def lookupLoop (m : Bytes) (key n : ℕ) : ℕ → Option ℕ
  | 0 => none
  | fuel + 1 =>
      if n = 0 then some 0
      else if nodeKey.get m n = key then some (nodeValue.get m n)
      else lookupLoop m key (nodeNext.get m n) fuel

def hashtableLookup (ht : Hashtable) (m : Bytes) (key : ℕ) : Option ℕ :=
  lookupLoop m key (ht.buckets (hashU64 key ht.nbuckets)) (2 ^ 64)

/-- What `pp` of `hashtable_remove` points to: a bucket, or the `next` field
of a node. -/
inductive NodeRef
  | bucket (b : ℕ)
  | next (n : ℕ)

def NodeRef.load (ht : Hashtable) (m : Bytes) : NodeRef → ℕ
  | .bucket b => ht.buckets b
  | .next n => nodeNext.get m n

def NodeRef.store (ht : Hashtable) (m : Bytes) (v : ℕ) : NodeRef → Hashtable × Bytes
  | .bucket b => ({ ht with buckets := Function.update ht.buckets b v }, m)
  | .next n => (ht, nodeNext.set m n v)

/-- Taking the node `dead` out of its list, when `pp` points to it. -/
def removeNode (ht : Hashtable) (m : Bytes) (pp : NodeRef) (dead : ℕ) : Hashtable × Bytes :=
  let r := pp.store ht m (nodeNext.get m dead)
  let f := slabFree r.2 r.1.nodeCache dead
  ({ r.1 with nodeCache := f.2, count := (r.1.count + 2 ^ 32 - 1) % 2 ^ 32 }, f.1)

/-- The loop of `hashtable_remove`. The fuel counts nodes. -/
def removeLoop (ht : Hashtable) (m : Bytes) (key : ℕ) (pp : NodeRef) :
    ℕ → Option (Hashtable × Bytes)
  | 0 => none
  | fuel + 1 =>
      if pp.load ht m = 0 then some (ht, m)
      else if nodeKey.get m (pp.load ht m) = key then some (removeNode ht m pp (pp.load ht m))
      else removeLoop ht m key (.next (pp.load ht m)) fuel

def hashtableRemove (ht : Hashtable) (m : Bytes) (key : ℕ) : Option (Hashtable × Bytes) :=
  removeLoop ht m key (.bucket (hashU64 key ht.nbuckets)) (2 ^ 64)

/-- Where `pp` points after it has passed the nodes of a list. -/
def NodeRef.after (pp : NodeRef) : List ℕ → NodeRef
  | [] => pp
  | x :: xs => NodeRef.after (.next x) xs

/-! ## The table in memory -/

/-- The entry that a node holds. -/
def nodeEntry (m : Bytes) (n : ℕ) : ℕ × ℕ := (nodeKey.get m n, nodeValue.get m n)

theorem nodeEntry_fst (m : Bytes) (n : ℕ) : (nodeEntry m n).1 = nodeKey.get m n := rfl

/-- The table in memory with its nodes, bucket by bucket, and their entries;
`nd` names the cache of the nodes. -/
structure HashRep {ι : Type} (m : Bytes) (cache : ι → SlabCache) (o : SlabOwn ι) (nd : ι)
    (ht : Hashtable) (nodes : ℕ → List ℕ) (E : ℕ → List (ℕ × ℕ)) : Prop where
  cache_eq : cache nd = ht.nodeCache
  size : ht.nodeCache.objSize = hashNodeSize
  pos : 0 < ht.nbuckets
  chain : ∀ b < ht.nbuckets, Chain (nodeNext.get m) (ht.buckets b) (nodes b)
  held : ∀ b < ht.nbuckets, ∀ n ∈ nodes b, o.Held cache nd n
  hash : ∀ b < ht.nbuckets, ∀ n ∈ nodes b, hashU64 (nodeKey.get m n) ht.nbuckets = b
  entries : ∀ b < ht.nbuckets, (nodes b).map (nodeEntry m) = E b

/-- The caches and objects of a family other than `nd` are as they were. -/
structure OthersKept {ι : Type} (m m' : Bytes) (cache cache' : ι → SlabCache)
    (o o' : SlabOwn ι) (nd : ι) : Prop where
  same : ∀ j, j ≠ nd → cache' j = cache j
  held : ∀ j, j ≠ nd → ∀ y, o'.Held cache' j y ↔ o.Held cache j y
  bytes : ∀ j, j ≠ nd → ∀ y, o.Held cache j y → SameIn m m' y (cache j).objSize
  free_eq : ∀ j, j ≠ nd → o'.free j = o.free j

/-- The slots of the nodes after the nodes in `new` have been taken and those in
`gone` given back; the others keep their entries. -/
structure NodesChanged {ι : Type} (m m' : Bytes) (cache cache' : ι → SlabCache)
    (o o' : SlabOwn ι) (nd : ι) (ht : Hashtable) (nodes : ℕ → List ℕ) (new gone : ℕ → Prop) :
    Prop where
  held : ∀ y, o'.Held cache' nd y ↔ (o.Held cache nd y ∧ ¬ gone y) ∨ new y
  fresh : ∀ y, new y → ¬ o.Held cache nd y
  entry : ∀ b < ht.nbuckets, ∀ y ∈ nodes b, ¬ gone y → nodeEntry m' y = nodeEntry m y

theorem hashU64_lt {nbuckets : ℕ} (h : 0 < nbuckets) (key : ℕ) : hashU64 key nbuckets < nbuckets :=
  Nat.mod_lt _ h

section Fields

variable {m m' : Bytes} {f : Field} {a n lo len : ℕ}

/-- A field reads the bytes of its record only. -/
theorem Field.get_sameIn (h : SameIn m m' a len) (hf : f.offset + f.size ≤ len) :
    f.get m' a = f.get m a :=
  Field.get_congr fun x hlo hhi => h x (by omega) (by omega)

theorem Field.sameOff_set (v : ℕ) : SameOff m (f.set m a v) (a + f.offset) f.size :=
  fun _ hx => Field.set_out hx

/-- A write off a range keeps it. -/
theorem SameOff.sameIn (h : SameOff m m' lo len) (hoff : a + n ≤ lo ∨ lo + len ≤ a) :
    SameIn m m' a n :=
  fun x hlo hhi => h x (by omega)

theorem node_congr (h : SameIn m m' n hashNodeSize) :
    nodeNext.get m' n = nodeNext.get m n ∧ nodeEntry m' n = nodeEntry m n :=
  ⟨Field.get_sameIn h (by decide), Prod.ext (Field.get_sameIn h (by decide))
    (Field.get_sameIn h (by decide))⟩

end Fields

namespace OthersKept

variable {ι : Type} {m m' m'' : Bytes} {cache cache' cache'' : ι → SlabCache}
  {o o' o'' : SlabOwn ι} {nd : ι}

theorem trans (h : OthersKept m m' cache cache' o o' nd)
    (k : OthersKept m' m'' cache' cache'' o' o'' nd) :
    OthersKept m m'' cache cache'' o o'' nd where
  same j hj := (k.same j hj).trans (h.same j hj)
  held j hj y := (k.held j hj y).trans (h.held j hj y)
  bytes j hj y hy := by
    intro x hlo hhi
    have hsize : (cache' j).objSize = (cache j).objSize := by rw [h.same j hj]
    rw [k.bytes j hj y ((h.held j hj y).mpr hy) x hlo (by omega), h.bytes j hj y hy x hlo hhi]
  free_eq j hj := (k.free_eq j hj).trans (h.free_eq j hj)

/-- A write into a slot of the cache `nd`. -/
theorem write {slack x lo len : ℕ} {p : Pmm} (h : SlabFamily slack m p cache o)
    (hx : o.Held cache nd x) (hlo : x ≤ lo) (hhi : lo + len ≤ x + (cache nd).objSize)
    (hsame : SameOff m m' lo len) : OthersKept m m' cache cache o o nd where
  same _ _ := rfl
  held _ _ _ := Iff.rfl
  bytes j hj y hy := by
    have hne : y ≠ x := by
      rintro rfl
      exact hj (h.held_inj hy hx)
    have hsep := h.held_separate hy hx hne
    exact hsame.sameIn (by omega)
  free_eq _ _ := rfl

/-- The release of a slot of the cache `nd`. -/
theorem free [DecidableEq ι] {slack x : ℕ} {p : Pmm} (h : SlabFamily slack m p cache o)
    (hx : o.Held cache nd x) :
    OthersKept m (slabFree m (cache nd) x).1 cache
      (Function.update cache nd (slabFree m (cache nd) x).2) o
      (o.set nd (o.pages nd) (x :: o.free nd)) nd where
  same j hj := Function.update_of_ne hj _ _
  held j hj y := by
    rw [(h.free hx).2.2.1 j y]
    refine ⟨fun hy => hy.1, fun hy => ⟨hy, ?_⟩⟩
    rintro rfl
    exact hj (h.held_inj hy hx)
  bytes j hj y hy := by
    have hge := (h.fits nd).size_ge
    have hne : y ≠ x := by
      rintro rfl
      exact hj (h.held_inj hy hx)
    have hsep := h.held_separate hy hx hne
    exact (h.free hx).2.2.2.sameIn (by omega)
  free_eq j hj := (SlabOwn.set_of_ne hj).2

end OthersKept

theorem eraseP_split {α : Type} {f : α → Bool} {d : α} {pre post : List α}
    (hpre : ∀ x ∈ pre, ¬ f x = true) (hd : f d = true) :
    (pre ++ d :: post).eraseP f = pre ++ post := by
  rw [List.eraseP_append_right _ hpre, List.eraseP_cons_of_pos hd]

namespace HashRep

variable {ι : Type} {slack key value n d : ℕ} {m m' : Bytes} {p p' : Pmm}
  {cache : ι → SlabCache} {o : SlabOwn ι} {nd : ι} {ht ht' : Hashtable} {nodes : ℕ → List ℕ}
  {E : ℕ → List (ℕ × ℕ)} {pre post : List ℕ}

theorem node_lt (h : SlabFamily slack m p cache o) (r : HashRep m cache o nd ht nodes E) {b : ℕ}
    (hb : b < ht.nbuckets) (hn : n ∈ nodes b) : n + hashNodeSize < 2 ^ 64 := by
  have hlt := h.held_lt (r.held b hb n hn)
  rw [r.cache_eq, r.size] at hlt
  exact hlt

theorem length_lt (h : SlabFamily slack m p cache o) (r : HashRep m cache o nd ht nodes E) {b : ℕ}
    (hb : b < ht.nbuckets) : (nodes b).length < 2 ^ 64 :=
  (r.chain b hb).length_lt (fun n hn => by
    have hlt := r.node_lt h hb hn
    omega) (by omega)

theorem bucket_lt (h : SlabFamily slack m p cache o) (r : HashRep m cache o nd ht nodes E) {b : ℕ}
    (hb : b < ht.nbuckets) : ht.buckets b < 2 ^ 64 := by
  have hchain := r.chain b hb
  cases hnodes : nodes b with
  | nil =>
      rw [hnodes] at hchain
      have hzero : ht.buckets b = 0 := hchain
      omega
  | cons n ns =>
      rw [hnodes] at hchain
      have hhead : ht.buckets b = n := hchain.1
      have hlt := r.node_lt h hb (n := n) (by rw [hnodes]; exact List.mem_cons_self)
      omega

/-! ### Lookup -/

theorem lookupLoop_eq {fuel : ℕ} {xs : List ℕ} (hchain : Chain (nodeNext.get m) n xs)
    (hlen : xs.length < fuel) :
    lookupLoop m key n fuel =
      some (((xs.map (nodeEntry m)).find? fun e => e.1 = key).elim 0 Prod.snd) := by
  induction xs generalizing n fuel with
  | nil =>
      cases fuel with
      | zero => cases hlen
      | succ fuel =>
          have hzero : n = 0 := hchain
          rw [lookupLoop, if_pos hzero]
          rfl
  | cons x xs ih =>
      cases fuel with
      | zero => cases hlen
      | succ fuel =>
          obtain ⟨rfl, hne, hrest⟩ := hchain
          rw [lookupLoop, if_neg hne, List.map_cons, List.find?_cons]
          by_cases hkey : nodeKey.get m n = key
          · rw [if_pos hkey]
            simp only [nodeEntry, hkey, decide_true, Option.elim_some]
          · rw [if_neg hkey, ih hrest (Nat.lt_of_succ_lt_succ hlen)]
            simp only [nodeEntry, hkey, decide_false]

/-- `hashtable_lookup` finds the first entry of the key. -/
theorem lookup (h : SlabFamily slack m p cache o) (r : HashRep m cache o nd ht nodes E)
    (key : ℕ) :
    hashtableLookup ht m key =
      some (((E (hashU64 key ht.nbuckets)).find? fun e => e.1 = key).elim 0 Prod.snd) := by
  have hb := hashU64_lt r.pos key
  unfold hashtableLookup
  rw [lookupLoop_eq (r.chain _ hb) (r.length_lt h hb), r.entries _ hb]

/-! ### Insertion -/

/-- The table is the same in a memory and a family that keep the nodes. -/
theorem congr {cache' : ι → SlabCache} {o' : SlabOwn ι} (r : HashRep m cache o nd ht nodes E)
    (hsize : ht'.nodeCache.objSize = ht.nodeCache.objSize) (hcache : cache' nd = ht'.nodeCache)
    (hbuckets : ht'.buckets = ht.buckets) (hnb : ht'.nbuckets = ht.nbuckets)
    (hkeep : ∀ b < ht.nbuckets, ∀ n ∈ nodes b,
      o'.Held cache' nd n ∧ SameIn m m' n hashNodeSize) :
    HashRep m' cache' o' nd ht' nodes E where
  cache_eq := hcache
  size := hsize.trans r.size
  pos := by rw [hnb]; exact r.pos
  chain b hb := by
    rw [hnb] at hb
    rw [hbuckets]
    exact (r.chain b hb).congr fun n hn => (node_congr (hkeep b hb n hn).2).1
  held b hb n hn := by
    rw [hnb] at hb
    exact (hkeep b hb n hn).1
  hash b hb n hn := by
    rw [hnb] at hb ⊢
    rw [← nodeEntry_fst, (node_congr (hkeep b hb n hn).2).2, nodeEntry_fst]
    exact r.hash b hb n hn
  entries b hb := by
    rw [hnb] at hb
    rw [← r.entries b hb]
    exact List.map_congr_left fun n hn => (node_congr (hkeep b hb n hn).2).2

/-- A new first node of a bucket. -/
theorem push (r : HashRep m cache o nd ht nodes E) (hn : n ≠ 0) (hheld : o.Held cache nd n)
    (hkey : nodeKey.get m n = key) (hvalue : nodeValue.get m n = value)
    (hnext : nodeNext.get m n = ht.buckets (hashU64 key ht.nbuckets)) {count : ℕ} :
    HashRep m cache o nd
      { ht with buckets := Function.update ht.buckets (hashU64 key ht.nbuckets) n, count := count }
      (Function.update nodes (hashU64 key ht.nbuckets) (n :: nodes (hashU64 key ht.nbuckets)))
      (Function.update E (hashU64 key ht.nbuckets)
        ((key, value) :: E (hashU64 key ht.nbuckets))) where
  cache_eq := r.cache_eq
  size := r.size
  pos := r.pos
  chain b hb := by
    by_cases hbk : b = hashU64 key ht.nbuckets
    · subst hbk
      simp only [Function.update_self]
      refine ⟨rfl, hn, ?_⟩
      rw [hnext]
      exact r.chain _ hb
    · simp only [Function.update_of_ne hbk]
      exact r.chain b hb
  held b hb x hx := by
    by_cases hbk : b = hashU64 key ht.nbuckets
    · subst hbk
      rw [Function.update_self] at hx
      rcases List.mem_cons.mp hx with rfl | hx
      · exact hheld
      · exact r.held _ hb x hx
    · rw [Function.update_of_ne hbk] at hx
      exact r.held b hb x hx
  hash b hb x hx := by
    by_cases hbk : b = hashU64 key ht.nbuckets
    · subst hbk
      rw [Function.update_self] at hx
      rcases List.mem_cons.mp hx with rfl | hx
      · rw [hkey]
      · exact r.hash _ hb x hx
    · rw [Function.update_of_ne hbk] at hx
      exact r.hash b hb x hx
  entries b hb := by
    by_cases hbk : b = hashU64 key ht.nbuckets
    · subst hbk
      rw [Function.update_self, Function.update_self, List.map_cons, r.entries _ hb]
      simp only [nodeEntry, hkey, hvalue]
    · rw [Function.update_of_ne hbk, Function.update_of_ne hbk]
      exact r.entries b hb

variable [DecidableEq ι]

/-- `hashtable_insert` puts the entry in front of its bucket. -/
theorem insert (h : SlabFamily slack m p cache o) (r : HashRep m cache o nd ht nodes E)
    (hkey : key < 2 ^ 64) (hvalue : value < 2 ^ 64)
    (hs : hashtableInsert ht m p key value = some (ht', m', p')) :
    ∃ o' n, SlabFamily slack m' p' (Function.update cache nd ht'.nodeCache) o' ∧
      HashRep m' (Function.update cache nd ht'.nodeCache) o' nd ht'
        (Function.update nodes (hashU64 key ht.nbuckets) (n :: nodes (hashU64 key ht.nbuckets)))
        (Function.update E (hashU64 key ht.nbuckets)
          ((key, value) :: E (hashU64 key ht.nbuckets))) ∧
      OthersKept m m' cache (Function.update cache nd ht'.nodeCache) o o' nd ∧
      ht'.nbuckets = ht.nbuckets ∧ SameRange p p' ∧ ht'.count = (ht.count + 1) % 2 ^ 32 ∧
      NodesChanged m m' cache (Function.update cache nd ht'.nodeCache) o o' nd ht nodes
        (· = n) (fun _ => False) ∧ nodeEntry m' n = (key, value) := by
  unfold hashtableInsert at hs
  cases halloc : slabAlloc m p ht.nodeCache with
  | none => simp [halloc] at hs
  | some a =>
      obtain ⟨n, m₁, p₁, c⟩ := a
      simp only [halloc] at hs
      split at hs
      · cases hs
      · rename_i hn
        simp only [Option.some.injEq, Prod.mk.injEq] at hs
        obtain ⟨rfl, rfl, rfl⟩ := hs
        rw [← r.cache_eq] at halloc
        obtain ⟨pages', free', hfam, hsizes, hheld, hfresh, hbytes, _⟩ := h.alloc_set halloc
        generalize ho : o.set nd pages' free' = o' at *
        have hrange : SameRange p p₁ := by
          obtain ⟨_, _, ha⟩ := (h.slab nd).slabAlloc h.pmm (h.fits nd) halloc
          exact ha.sameRange
        have hheldn := (hheld nd n).mpr (Or.inl ⟨hn, rfl, rfl⟩)
        have hsize : (Function.update cache nd c nd).objSize = hashNodeSize := by
          rw [hsizes nd, r.cache_eq, r.size]
        generalize hm₂ : nodeValue.set (nodeKey.set m₁ n key) n value = m₂
        generalize hv : ht.buckets (hashU64 key ht.nbuckets) = v
        have hvlt : v < 2 ^ 64 := by
          rw [← hv]
          exact r.bucket_lt h (hashU64_lt r.pos key)
        have hoff : SameOff m₁ (nodeNext.set m₂ n v) n hashNodeSize := by
          intro x hx
          unfold hashNodeSize at hx
          rw [← hm₂]
          change nodeNext.set _ _ _ x = m₁ x
          rw [Field.set_out (by unfold nodeNext; dsimp only; omega),
            Field.set_out (by unfold nodeValue; dsimp only; omega),
            Field.set_out (by unfold nodeKey; dsimp only; omega)]
        have hfam' := hfam.write hheldn (le_refl n) (by rw [hsize]) hoff
        have hkeep : ∀ b < ht.nbuckets, ∀ x ∈ nodes b,
            o'.Held (Function.update cache nd c) nd x ∧
              SameIn m (nodeNext.set m₂ n v) x hashNodeSize := by
          intro b hb x hx
          have hold := r.held b hb x hx
          have hnew := (hheld nd x).mpr (Or.inr hold)
          have hne : x ≠ n := fun heq => hfresh nd (heq ▸ hold)
          have hsep := hfam.held_separate hnew hheldn hne
          rw [hsize] at hsep
          have hsame := hbytes nd x hold
          rw [r.cache_eq, r.size] at hsame
          refine ⟨hnew, fun y hlo hhi => ?_⟩
          rw [hoff.sameIn (a := x) (n := hashNodeSize) (by omega) y hlo hhi, hsame y hlo hhi]
        have hkeyGet : nodeKey.get (nodeNext.set m₂ n v) n = key := by
          rw [Field.get_set_of_apart (by unfold Field.Apart nodeNext nodeKey; dsimp only; omega),
            ← hm₂,
            Field.get_set_of_apart (by unfold Field.Apart nodeValue nodeKey; dsimp only; omega),
            Field.get_set_eight rfl hkey]
        have hvalueGet : nodeValue.get (nodeNext.set m₂ n v) n = value := by
          rw [Field.get_set_of_apart (by unfold Field.Apart nodeNext nodeValue; dsimp only; omega),
            ← hm₂, Field.get_set_eight rfl hvalue]
        have hnextGet : nodeNext.get (nodeNext.set m₂ n v) n = v :=
          Field.get_set_eight rfl hvlt
        have hr : HashRep (nodeNext.set m₂ n v) (Function.update cache nd c) o' nd
            { ht with nodeCache := c } nodes E :=
          r.congr (by rw [← r.cache_eq, ← hsizes nd, Function.update_self])
            (Function.update_self _ _ _) rfl rfl hkeep
        refine ⟨o', n, hfam', hr.push hn hheldn hkeyGet hvalueGet (by rw [hnextGet, ← hv]), ?_, rfl,
          hrange, rfl, ⟨?_, ?_, ?_⟩, Prod.ext hkeyGet hvalueGet⟩
        · have halloc' : OthersKept m m₁ cache (Function.update cache nd c) o o' nd := by
            refine ⟨fun j hj => Function.update_of_ne hj _ _, fun j hj y => ?_,
              fun j _ y hy => hbytes j y hy, fun j hj => ?_⟩
            · rw [hheld j y]
              refine ⟨?_, Or.inr⟩
              rintro (⟨_, hji, _⟩ | hy)
              · exact absurd hji hj
              · exact hy
            · rw [← ho]
              exact (SlabOwn.set_of_ne hj).2
          exact halloc'.trans (.write hfam hheldn (le_refl n) (by rw [hsize]) hoff)
        · intro y
          rw [hheld nd y]
          constructor
          · rintro (⟨_, _, rfl⟩ | hy)
            · exact Or.inr rfl
            · exact Or.inl ⟨hy, id⟩
          · rintro (⟨hy, _⟩ | rfl)
            · exact Or.inr hy
            · exact Or.inl ⟨hn, rfl, rfl⟩
        · rintro y rfl
          exact hfresh nd
        · intro b hb y hy _
          exact (node_congr (hkeep b hb y hy).2).2

/-! ### Removal -/

omit [DecidableEq ι] in
theorem removeLoop_absent {fuel : ℕ} {pp : NodeRef} {xs : List ℕ}
    (hchain : Chain (nodeNext.get m) (pp.load ht m) xs) (hkey : ∀ x ∈ xs, nodeKey.get m x ≠ key)
    (hlen : xs.length < fuel) : removeLoop ht m key pp fuel = some (ht, m) := by
  induction xs generalizing pp fuel with
  | nil =>
      cases fuel with
      | zero => cases hlen
      | succ fuel =>
          have hzero : pp.load ht m = 0 := hchain
          rw [removeLoop, if_pos hzero]
  | cons x xs ih =>
      cases fuel with
      | zero => cases hlen
      | succ fuel =>
          obtain ⟨hhead, hne, hrest⟩ := hchain
          rw [removeLoop, hhead, if_neg hne, if_neg (hkey x List.mem_cons_self)]
          exact ih hrest (fun y hy => hkey y (List.mem_cons_of_mem x hy))
            (Nat.lt_of_succ_lt_succ hlen)

omit [DecidableEq ι] in
theorem removeLoop_found {fuel : ℕ} {pp : NodeRef}
    (hchain : Chain (nodeNext.get m) (pp.load ht m) (pre ++ d :: post))
    (hpre : ∀ x ∈ pre, nodeKey.get m x ≠ key) (hd : nodeKey.get m d = key)
    (hlen : pre.length < fuel) :
    removeLoop ht m key pp fuel = some (removeNode ht m (pp.after pre) d) := by
  induction pre generalizing pp fuel with
  | nil =>
      cases fuel with
      | zero => cases hlen
      | succ fuel =>
          obtain ⟨hhead, hne, _⟩ := hchain
          rw [removeLoop, hhead, if_neg hne, if_pos hd]
          rfl
  | cons x xs ih =>
      cases fuel with
      | zero => cases hlen
      | succ fuel =>
          obtain ⟨hhead, hne, hrest⟩ := hchain
          rw [removeLoop, hhead, if_neg hne, if_neg (hpre x List.mem_cons_self)]
          exact ih hrest (fun y hy => hpre y (List.mem_cons_of_mem x hy))
            (Nat.lt_of_succ_lt_succ hlen)

omit [DecidableEq ι] in
theorem after_concat (pp : NodeRef) (xs : List ℕ) (x : ℕ) : pp.after (xs ++ [x]) = .next x := by
  induction xs generalizing pp with
  | nil => rfl
  | cons y ys ih => exact ih _

omit [DecidableEq ι] in
/-- A node is in one bucket only. -/
theorem bucket_eq (r : HashRep m cache o nd ht nodes E) {b b' : ℕ} (hb : b < ht.nbuckets)
    (hb' : b' < ht.nbuckets) (hn : n ∈ nodes b) (hn' : n ∈ nodes b') : b = b' :=
  (r.hash b hb n hn).symm.trans (r.hash b' hb' n hn')

omit [DecidableEq ι] in
/-- What is left in the lists when `d` is taken out of its list. -/
theorem mem_unlinked (r : HashRep m cache o nd ht nodes E) {b b' x : ℕ} (hb : b < ht.nbuckets)
    (hb' : b' < ht.nbuckets) (hnodes : nodes b = pre ++ d :: post) :
    x ∈ Function.update nodes b (pre ++ post) b' ↔ x ∈ nodes b' ∧ x ≠ d := by
  have hnodup := (r.chain b hb).nodup
  rw [hnodes, List.nodup_append] at hnodup
  by_cases hbb : b' = b
  · subst hbb
    rw [Function.update_self, hnodes, List.mem_append, List.mem_append, List.mem_cons]
    constructor
    · rintro (hx | hx)
      · exact ⟨.inl hx, hnodup.2.2 x hx d List.mem_cons_self⟩
      · refine ⟨.inr (.inr hx), ?_⟩
        rintro rfl
        exact (List.nodup_cons.mp hnodup.2.1).1 hx
    · rintro ⟨hx | rfl | hx, hne⟩
      · exact .inl hx
      · exact absurd rfl hne
      · exact .inr hx
  · rw [Function.update_of_ne hbb]
    refine ⟨fun hx => ⟨hx, ?_⟩, fun hx => hx.1⟩
    rintro rfl
    exact hbb (r.bucket_eq hb' hb hx (by rw [hnodes]; simp))

omit [DecidableEq ι] in
/-- Taking a node out of its list. -/
theorem unlink {b : ℕ} {m₁ : Bytes} {ht₁ : Hashtable} (h : SlabFamily slack m p cache o)
    (r : HashRep m cache o nd ht nodes E) (hb : b < ht.nbuckets)
    (hnodes : nodes b = pre ++ d :: post)
    (hs : (NodeRef.after (.bucket b) pre).store ht m (nodeNext.get m d) = (ht₁, m₁)) :
    SlabFamily slack m₁ p cache o ∧
      HashRep m₁ cache o nd ht₁ (Function.update nodes b (pre ++ post))
        (Function.update E b ((pre ++ post).map (nodeEntry m))) ∧
      OthersKept m m₁ cache cache o o nd ∧ ht₁.nbuckets = ht.nbuckets ∧
      ∀ b' < ht.nbuckets, ∀ y ∈ nodes b', nodeEntry m₁ y = nodeEntry m y := by
  have hchain := r.chain b hb
  have hmem : ∀ x ∈ pre ++ post, x ∈ nodes b := by
    intro x hx
    rw [hnodes]
    rcases List.mem_append.mp hx with hx | hx
    · exact List.mem_append_left _ hx
    · exact List.mem_append_right _ (List.mem_cons_of_mem d hx)
  have hmem' : ∀ b' < ht.nbuckets, ∀ x ∈ Function.update nodes b (pre ++ post) b', x ∈ nodes b' :=
    fun b' hb' x hx => ((r.mem_unlinked hb hb' hnodes).mp hx).1
  rw [hnodes] at hchain
  rcases List.eq_nil_or_concat pre with rfl | ⟨xs, x, rfl⟩
  · -- the bucket itself is written
    simp only [NodeRef.after, NodeRef.store, Prod.mk.injEq] at hs
    obtain ⟨rfl, rfl⟩ := hs
    have hsame : SameOff m m d 0 := fun _ _ => rfl
    refine ⟨h, ⟨r.cache_eq, r.size, r.pos, ?_, ?_, ?_, ?_⟩, .write h
      (r.held b hb d (by rw [hnodes]; exact List.mem_cons_self)) (le_refl d) (Nat.le_add_right d _)
      hsame, rfl, fun _ _ _ _ => rfl⟩
    · intro b' hb'
      by_cases hbb : b' = b
      · subst hbb
        simp only [Function.update_self]
        exact hchain.2.2
      · simp only [Function.update_of_ne hbb]
        exact r.chain b' hb'
    · exact fun b' hb' y hy => r.held b' hb' y (hmem' b' hb' y hy)
    · exact fun b' hb' y hy => r.hash b' hb' y (hmem' b' hb' y hy)
    · intro b' hb'
      by_cases hbb : b' = b
      · subst hbb
        rw [Function.update_self, Function.update_self]
      · rw [Function.update_of_ne hbb, Function.update_of_ne hbb]
        exact r.entries b' hb'
  · -- the link of the node before is written
    rw [List.concat_eq_append] at *
    rw [after_concat] at hs
    simp only [NodeRef.store, Prod.mk.injEq] at hs
    obtain ⟨rfl, rfl⟩ := hs
    generalize hv : nodeNext.get m d = v at *
    have hx : x ∈ nodes b := hmem x (by simp)
    have hheld := r.held b hb x hx
    have hxsize : (cache nd).objSize = hashNodeSize := by rw [r.cache_eq, r.size]
    have hv64 : v < 2 ^ 64 := by
      have hlt := nodeNext.get_lt m d
      rw [hv] at hlt
      exact lt_of_lt_of_eq hlt (by norm_num [nodeNext])
    have hoff : SameOff m (nodeNext.set m x v) (x + 16) 8 := Field.sameOff_set v
    have hfam := h.write hheld (by omega) (by rw [hxsize]; unfold hashNodeSize; omega) hoff
    have hother : ∀ b' < ht.nbuckets, ∀ y ∈ nodes b', y ≠ x →
        SameIn m (nodeNext.set m x v) y hashNodeSize := by
      intro b' hb' y hy hne
      have hsep := h.held_separate (r.held b' hb' y hy) hheld hne
      rw [hxsize] at hsep
      unfold hashNodeSize at *
      exact hoff.sameIn (by omega)
    have hentry : ∀ b' < ht.nbuckets, ∀ y ∈ nodes b',
        nodeEntry (nodeNext.set m x v) y = nodeEntry m y := by
      intro b' hb' y hy
      by_cases hyx : y = x
      · subst hyx
        exact Prod.ext
          (Field.get_set_of_apart (by unfold Field.Apart nodeNext nodeKey; dsimp only; omega))
          (Field.get_set_of_apart (by unfold Field.Apart nodeNext nodeValue; dsimp only; omega))
      · exact (node_congr (hother b' hb' y hy hyx)).2
    refine ⟨hfam, ⟨r.cache_eq, r.size, r.pos, ?_, ?_, ?_, ?_⟩, .write h hheld (by omega)
      (by rw [hxsize]; unfold hashNodeSize; omega) hoff, rfl, hentry⟩
    · intro b' hb'
      by_cases hbb : b' = b
      · subst hbb
        rw [Function.update_self]
        rw [List.append_assoc, List.singleton_append] at hchain
        rw [List.append_assoc, List.singleton_append]
        refine hchain.unlink ?_ ?_
        · rw [hv]
          exact Field.get_set_eight rfl hv64
        · intro y hy
          have hyx : y ≠ x := by
            rintro rfl
            have hnodup := hchain.nodup
            rw [List.nodup_append] at hnodup
            rcases hy with hy | hy
            · exact hnodup.2.2 y hy y List.mem_cons_self rfl
            · exact (List.nodup_cons.mp hnodup.2.1).1 (List.mem_cons_of_mem d hy)
          have hyb : y ∈ nodes b' := hmem y (by
            rcases hy with hy | hy
            · simp [hy]
            · simp [hy])
          exact (node_congr (hother b' hb' y hyb hyx)).1
      · rw [Function.update_of_ne hbb]
        refine (r.chain b' hb').congr fun y hy => (node_congr (hother b' hb' y hy ?_)).1
        rintro rfl
        exact hbb (r.bucket_eq hb' hb hy hx)
    · exact fun b' hb' y hy => r.held b' hb' y (hmem' b' hb' y hy)
    · intro b' hb' y hy
      have hy' := hmem' b' hb' y hy
      rw [← nodeEntry_fst, hentry b' hb' y hy', nodeEntry_fst]
      exact r.hash b' hb' y hy'
    · intro b' hb'
      by_cases hbb : b' = b
      · subst hbb
        rw [Function.update_self, Function.update_self]
        exact List.map_congr_left fun y hy => hentry b' hb' y (hmem y hy)
      · rw [Function.update_of_ne hbb, Function.update_of_ne hbb, ← r.entries b' hb']
        exact List.map_congr_left fun y hy => hentry b' hb' y hy

/-- `hashtable_remove` takes the first entry of the key out of its bucket. -/
theorem remove (h : SlabFamily slack m p cache o) (r : HashRep m cache o nd ht nodes E)
    (key : ℕ) :
    ∃ ht' m' o', hashtableRemove ht m key = some (ht', m') ∧
      SlabFamily slack m' p (Function.update cache nd ht'.nodeCache) o' ∧
      HashRep m' (Function.update cache nd ht'.nodeCache) o' nd ht'
        (Function.update nodes (hashU64 key ht.nbuckets)
          ((nodes (hashU64 key ht.nbuckets)).eraseP fun n => nodeKey.get m n = key))
        (Function.update E (hashU64 key ht.nbuckets)
          ((E (hashU64 key ht.nbuckets)).eraseP fun e => e.1 = key)) ∧
      OthersKept m m' cache (Function.update cache nd ht'.nodeCache) o o' nd ∧
      ht'.nbuckets = ht.nbuckets ∧
      ht'.count = (if ∃ n ∈ nodes (hashU64 key ht.nbuckets), nodeKey.get m n = key then
        (ht.count + 2 ^ 32 - 1) % 2 ^ 32 else ht.count) ∧
      NodesChanged m m' cache (Function.update cache nd ht'.nodeCache) o o' nd ht nodes
        (fun _ => False) (fun n => (nodes (hashU64 key ht.nbuckets)).find?
          (fun n => nodeKey.get m n = key) = some n) := by
  have hb := hashU64_lt r.pos key
  generalize hbk : hashU64 key ht.nbuckets = b at *
  have hchain := r.chain b hb
  have hlen := r.length_lt h hb
  unfold hashtableRemove
  rw [hbk]
  by_cases hex : ∃ d ∈ nodes b, nodeKey.get m d = key
  · rw [if_pos hex]
    obtain ⟨d, pre, post, hnodes, hd, hpre⟩ :
        ∃ d pre post, nodes b = pre ++ d :: post ∧ nodeKey.get m d = key ∧
          ∀ x ∈ pre, nodeKey.get m x ≠ key := by
      obtain ⟨d, hd, hkey⟩ := hex
      obtain ⟨x, pre, post, hpre, hx, hnodes, _⟩ := List.exists_of_eraseP
        (p := fun n => decide (nodeKey.get m n = key)) hd (decide_eq_true hkey)
      exact ⟨x, pre, post, hnodes, of_decide_eq_true hx,
        fun y hy heq => hpre y hy (decide_eq_true heq)⟩
    have hdheld := r.held b hb d (by rw [hnodes]; simp)
    have hchain' : Chain (nodeNext.get m) (NodeRef.load ht m (.bucket b)) (pre ++ d :: post) := by
      rw [← hnodes]
      exact hchain
    have hfound : removeLoop ht m key (.bucket b) (2 ^ 64) =
        some (removeNode ht m (NodeRef.after (.bucket b) pre) d) :=
      removeLoop_found hchain' hpre hd (by
        rw [hnodes, List.length_append] at hlen
        omega)
    obtain ⟨⟨ht₁, m₁⟩, hst⟩ :
        ∃ q, (NodeRef.after (.bucket b) pre).store ht m (nodeNext.get m d) = q := ⟨_, rfl⟩
    obtain ⟨hfam, hrep, hkept, hnb, hentryUnlink⟩ := r.unlink h hb hnodes hst
    have hremoved : removeNode ht m (NodeRef.after (.bucket b) pre) d =
        ({ ht₁ with nodeCache := (slabFree m₁ (cache nd) d).2
                    count := (ht₁.count + 2 ^ 32 - 1) % 2 ^ 32 },
          (slabFree m₁ (cache nd) d).1) := by
      unfold removeNode
      rw [hst, hrep.cache_eq]
    rw [hremoved] at hfound
    obtain ⟨hfam', hsizes, hheld, hoff⟩ := hfam.free hdheld
    have hentries : ((pre ++ post).map (nodeEntry m)) =
        (E b).eraseP fun e => e.1 = key := by
      have hhead : decide ((nodeEntry m d).1 = key) = true := decide_eq_true hd
      have hbefore : ∀ e ∈ pre.map (nodeEntry m), ¬ decide (e.1 = key) = true := by
        intro e he
        obtain ⟨x, hx, rfl⟩ := List.mem_map.mp he
        exact fun heq => hpre x hx (of_decide_eq_true heq)
      rw [← r.entries b hb, hnodes, List.map_append, List.map_append, List.map_cons,
        eraseP_split hbefore hhead]
    have hpreNot : ∀ x ∈ pre, ¬ decide (nodeKey.get m x = key) = true :=
      fun x hx heq => hpre x hx (of_decide_eq_true heq)
    have herase : pre ++ post = (nodes b).eraseP fun n => nodeKey.get m n = key := by
      rw [hnodes, eraseP_split hpreNot (decide_eq_true hd)]
    have hfind : (nodes b).find? (fun n => nodeKey.get m n = key) = some d := by
      rw [hnodes, List.find?_append, List.find?_eq_none.mpr hpreNot, Option.none_or,
        List.find?_cons, decide_eq_true hd]
    have hcount : ht₁.count = ht.count := by
      have hst' := congrArg (fun q => q.1.count) hst
      rw [← hst']
      cases NodeRef.after (.bucket b) pre <;> rfl
    rw [hentries] at hrep
    have hkeepNode : ∀ b' < ht₁.nbuckets,
        ∀ x ∈ Function.update nodes b (pre ++ post) b', o.Held cache nd x ∧ x ≠ d ∧
          SameIn m₁ (slabFree m₁ (cache nd) d).1 x hashNodeSize := by
      intro b' hb' x hx
      have hxheld := hrep.held b' hb' x hx
      have hne : x ≠ d := ((r.mem_unlinked hb (by rw [← hnb]; exact hb') hnodes).mp hx).2
      have hsep := hfam.held_separate hxheld hdheld hne
      rw [hrep.cache_eq, hrep.size] at hsep
      have hge := (hfam.fits nd).size_ge
      refine ⟨hxheld, hne, hoff.sameIn ?_⟩
      unfold hashNodeSize at *
      omega
    have hfinal : HashRep (slabFree m₁ (cache nd) d).1 _ _ nd
        { ht₁ with nodeCache := (slabFree m₁ (cache nd) d).2
                   count := (ht₁.count + 2 ^ 32 - 1) % 2 ^ 32 } _ _ :=
      hrep.congr (by rw [← hrep.cache_eq, ← hsizes nd, Function.update_self])
        (Function.update_self _ _ _) rfl rfl fun b' hb' x hx =>
          ⟨(hheld nd x).mpr ⟨(hkeepNode b' hb' x hx).1, (hkeepNode b' hb' x hx).2.1⟩,
            (hkeepNode b' hb' x hx).2.2⟩
    refine ⟨_, _, _, hfound, hfam', herase ▸ hfinal, hkept.trans (.free hfam hdheld), hnb,
      by rw [hcount], ⟨?_, fun _ h => h.elim, ?_⟩⟩
    · intro y
      rw [hheld nd y, hfind, Option.some.injEq]
      refine ⟨fun hy => Or.inl ⟨hy.1, fun heq => hy.2 heq.symm⟩, ?_⟩
      rintro (⟨hy, hne⟩ | hy)
      · exact ⟨hy, fun heq => hne heq.symm⟩
      · exact hy.elim
    · intro b' hb' y hy hne
      rw [hfind, Option.some.injEq] at hne
      rw [← hentryUnlink b' hb' y hy]
      have hy' : y ∈ Function.update nodes b (pre ++ post) b' :=
        (r.mem_unlinked hb hb' hnodes).mpr ⟨hy, fun heq => hne heq.symm⟩
      exact (node_congr (hkeepNode b' (by rw [hnb]; exact hb') y hy').2.2).2
  · have habsent : ∀ x ∈ nodes b, nodeKey.get m x ≠ key := fun x hx heq => hex ⟨x, hx, heq⟩
    have hsame : Function.update cache nd ht.nodeCache = cache := by
      rw [← r.cache_eq, Function.update_eq_self]
    have herase : (E b).eraseP (fun e => e.1 = key) = E b := by
      apply List.eraseP_of_forall_not
      intro e he
      rw [← r.entries b hb] at he
      obtain ⟨x, hx, rfl⟩ := List.mem_map.mp he
      exact fun heq => habsent x hx (of_decide_eq_true heq)
    have hnot : ∀ x ∈ nodes b, ¬ decide (nodeKey.get m x = key) = true :=
      fun x hx heq => habsent x hx (of_decide_eq_true heq)
    have heraseNodes : (nodes b).eraseP (fun n => nodeKey.get m n = key) = nodes b :=
      List.eraseP_of_forall_not hnot
    refine ⟨ht, m, o, removeLoop_absent hchain habsent hlen, ?_, ?_, ?_, rfl, by rw [if_neg hex],
      ⟨?_, fun _ h => h.elim, fun _ _ _ _ _ => rfl⟩⟩
    · rw [hsame]
      exact h
    · rw [hsame, herase, heraseNodes, Function.update_eq_self, Function.update_eq_self]
      exact r
    · rw [hsame]
      exact ⟨fun _ _ => rfl, fun _ _ _ => Iff.rfl, fun _ _ _ _ _ _ _ => rfl, fun _ _ => rfl⟩
    · intro y
      rw [hsame, List.find?_eq_none.mpr hnot]
      simp

end HashRep

end Vectra

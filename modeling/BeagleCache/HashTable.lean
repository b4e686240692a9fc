import BeagleCache.Outcome
import BeagleCache.Chains
import BeagleCache.Dictionary

/-! The chained hash table of hashtable.c, which is under every table of waprox, in the memory that its entries are allocated in. A call
that follows a pointer to an entry that has been freed does not return. -/

namespace BeagleCache.HashTable

open Chains Transition Dictionary Function Run

/-- The address of an entry. -/
abbrev Ptr := Nat

variable {K V : Type}

/-- `struct entry` without `next`. -/
structure Entry (K V : Type) where
  k : K
  v : V
  h : BitVec 32

/-- `struct hashtable`, with the memory of its entries. -/
structure Hashtable (K V : Type) where
  nodes : Heap Ptr (Entry K V)
  table : Nat → Option Ptr
  tablelength : Nat
  entrycount : Nat
  loadlimit : Nat
  primeindex : Nat

def primes : List Nat := [53, 97, 193, 389, 769, 1543, 3079, 6151, 12289, 24593, 49157, 98317, 196613, 393241, 786433, 1572869, 3145739,
  6291469, 12582917, 25165843, 50331653, 100663319, 201326611, 402653189, 805306457, 1610612741]

/-- `hash`, from what the hash function of the table gives. -/
def hash (hashfn : K → BitVec 32) (k : K) : BitVec 32 :=
  let i := hashfn k
  let i := i + ~~~(i <<< 9)
  let i := i ^^^ (i >>> 14 ||| i <<< 18)
  let i := i + (i <<< 4)
  i ^^^ (i >>> 10 ||| i <<< 22)

def indexFor (tablelength : Nat) (hashvalue : BitVec 32) : Nat := hashvalue.toNat % tablelength

/-- A read of an entry. -/
def Hashtable.entry (h : Hashtable K V) (e : Ptr) : Run (Cell Ptr (Entry K V)) :=
  match h.nodes e with
  | some c => .ok c
  | none => .error .overrun

/-- A read of the table. -/
def Hashtable.slot (h : Hashtable K V) (index : Nat) : Run (Option Ptr) := do
  inBounds (index < h.tablelength)
  return h.table index

/-- `*pE = next`, where `pE` is the address of a pointer of the table, or of the `next` of an entry. -/
def Hashtable.setLink (h : Hashtable K V) (index : Nat) (pE next : Option Ptr) : Run (Hashtable K V) :=
  match pE with
  | none => do
      inBounds (index < h.tablelength)
      return { h with table := update h.table index next }
  | some p => do
      let c ← h.entry p
      return { h with nodes := update h.nodes p (some { c with next := next }) }

/-- `free` of an entry. -/
def Hashtable.free (h : Hashtable K V) (e : Ptr) : Run (Hashtable K V) := do
  let _ ← h.entry e
  return { h with nodes := update h.nodes e none }

/-! ## The functions -/

section Functions

variable (hashfn : K → BitVec 32) (limit : Nat → Nat)

/-- `create_hashtable`; no result is `NULL`. `limit` is what `ceil` makes of the size times `max_load_factor`. -/
def createHashtable (minsize : Nat) : Option (Hashtable K V) :=
  if 2 ^ 30 < minsize then none
  else
    let primeindex := primes.findIdx fun prime => minsize < prime
    let size := primes.getD primeindex 53
    some ⟨fun _ => none, fun _ => none, size, 0, limit size, primeindex⟩

/-- What `malloc` and `realloc` give `hashtable_expand`. -/
inductive TableMemory
  | malloced
  /-- `malloc` gave nothing and `realloc` a table. -/
  | realloced
  | refused
  deriving DecidableEq

/-- The tables while `hashtable_expand` runs. -/
structure Moving (K V : Type) where
  nodes : Heap Ptr (Entry K V)
  table : Nat → Option Ptr
  newtable : Nat → Option Ptr

/-- The inner loop of `hashtable_expand`. -/
def moveChain (newsize i : Nat) : Nat → Moving K V → Run (Moving K V)
  | 0, _ => .error .hang
  | fuel + 1, m =>
      match m.table i with
      | none => .ok m
      | some e =>
          match m.nodes e with
          | none => .error .overrun
          | some c => do
              let index := indexFor newsize c.body.h
              inBounds (index < newsize)
              let nodes := update m.nodes e (some { c with next := m.newtable index })
              moveChain newsize i fuel ⟨nodes, update m.table i c.next, update m.newtable index (some e)⟩

/-- `hashtable_expand`. A chain has no more than `entrycount` entries. Where `realloc` gave the table, `memset` gets what stands behind the
old table for an address. -/
def hashtableExpand (h : Hashtable K V) (memory : TableMemory) : Run (Int × Hashtable K V) :=
  if h.primeindex = primes.length - 1 then return (0, h)
  else do
    inBounds (h.primeindex + 1 < primes.length)
    let newsize := primes.getD (h.primeindex + 1) 0
    match memory with
    | .malloced => do
        let m ← (List.range h.tablelength).foldlM (fun m i => moveChain newsize i (h.entrycount + 1) m) ⟨h.nodes, h.table, fun _ => none⟩
        return (-1, ⟨m.nodes, m.newtable, newsize, h.entrycount, limit newsize, h.primeindex + 1⟩)
    | .realloced => .error .overrun
    | .refused => return (0, h)

/-- The start of `hashtable_insert`: one entry more, and a larger table if there are too many. -/
def countEntry (h : Hashtable K V) (memory : TableMemory) : Run (Hashtable K V) :=
  let h := { h with entrycount := h.entrycount + 1 }
  if h.loadlimit < h.entrycount then do
    let r ← hashtableExpand limit h memory
    return r.2
  else return h

/-- `hashtable_insert`, with the address of the new entry that `malloc` gave. -/
def hashtableInsert (h : Hashtable K V) (k : K) (v : V) (memory : TableMemory) (e : Option Ptr) : Run (Int × Hashtable K V) := do
  let h ← countEntry limit h memory
  match e with
  | none => return (0, { h with entrycount := h.entrycount - 1 })
  | some e => do
      let hashvalue := hash hashfn k
      let index := indexFor h.tablelength hashvalue
      let next ← h.slot index
      return (-1, { h with nodes := update h.nodes e (some ⟨⟨k, v, hashvalue⟩, next⟩)
                           table := update h.table index (some e) })

variable [DecidableEq K]

/-- The loop of `hashtable_search`. -/
def searchChain (h : Hashtable K V) (hashvalue : BitVec 32) (k : K) : Nat → Option Ptr → Run (Option V)
  | 0, _ => .error .hang
  | _ + 1, none => .ok none
  | fuel + 1, some e => do
      let c ← h.entry e
      if hashvalue = c.body.h ∧ k = c.body.k then return some c.body.v else searchChain h hashvalue k fuel c.next

/-- `hashtable_search`; no result is `NULL`. -/
def hashtableSearch (h : Hashtable K V) (k : K) : Run (Option V) := do
  let hashvalue := hash hashfn k
  let e ← h.slot (indexFor h.tablelength hashvalue)
  searchChain h hashvalue k (h.entrycount + 1) e

/-- The loop of `hashtable_remove`. -/
def removeChain (h : Hashtable K V) (hashvalue : BitVec 32) (k : K) (index : Nat) :
    Nat → Option Ptr → Option Ptr → Run (Option V × Hashtable K V)
  | 0, _, _ => .error .hang
  | _ + 1, _, none => .ok (none, h)
  | fuel + 1, pE, some e => do
      let c ← h.entry e
      if hashvalue = c.body.h ∧ k = c.body.k then do
        let h ← h.setLink index pE c.next
        let h ← { h with entrycount := h.entrycount - 1 }.free e
        return (some c.body.v, h)
      else removeChain h hashvalue k index fuel (some e) c.next

/-- `hashtable_remove`; no result is `NULL`. -/
def hashtableRemove (h : Hashtable K V) (k : K) : Run (Option V × Hashtable K V) := do
  let hashvalue := hash hashfn k
  let index := indexFor h.tablelength hashvalue
  let e ← h.slot index
  removeChain h hashvalue k index (h.entrycount + 1) none e

end Functions

def hashtableCount (h : Hashtable K V) : Nat := h.entrycount

/-- The inner loop of `hashtable_destroy`. -/
def destroyChain : Nat → Hashtable K V → Option Ptr → Run (Hashtable K V)
  | 0, _, _ => .error .hang
  | _ + 1, h, none => .ok h
  | fuel + 1, h, some f => do
      let c ← h.entry f
      let h ← h.free f
      destroyChain fuel h c.next

/-- `hashtable_destroy`, with the memory it leaves. -/
def hashtableDestroy (h : Hashtable K V) : Run (Heap Ptr (Entry K V)) := do
  let h ← (List.range h.tablelength).foldlM (fun h i => destroyChain (h.entrycount + 1) h (h.table i)) h
  return h.nodes

/-! ## What a table has -/

def pairs (xs : List (Ptr × Entry K V)) : List (K × V) := xs.map fun x => (x.2.k, x.2.v)

/-- A table with the chains at its places: every entry is in the chain of its hash value. -/
structure Shaped (hashfn : K → BitVec 32) (h : Hashtable K V) (chains : Nat → List (Ptr × Entry K V)) : Prop where
  layout : Layout (· < h.tablelength) h.nodes h.table chains
  hashed : ∀ i < h.tablelength, ∀ x ∈ chains i, x.2.h = hash hashfn x.2.k
  placed : ∀ i < h.tablelength, ∀ x ∈ chains i, indexFor h.tablelength x.2.h = i
  size : primes[h.primeindex]? = some h.tablelength

/-- A table between two calls. -/
structure Linked (hashfn : K → BitVec 32) (h : Hashtable K V) (chains : Nat → List (Ptr × Entry K V)) : Prop
    extends Shaped hashfn h chains where
  count : h.entrycount = (items h.tablelength chains).length

section Linked

variable {hashfn : K → BitVec 32} {limit : Nat → Nat} {h : Hashtable K V} {chains : Nat → List (Ptr × Entry K V)} {k : K} {v : V}
  {e : Ptr} {i fuel : Nat}

theorem primes_pos : ∀ prime ∈ primes, 0 < prime := by decide

theorem Shaped.pos (hs : Shaped hashfn h chains) : 0 < h.tablelength := primes_pos _ (List.mem_of_getElem? hs.size)

theorem Shaped.index_lt (hs : Shaped hashfn h chains) (hashvalue : BitVec 32) : indexFor h.tablelength hashvalue < h.tablelength :=
  Nat.mod_lt _ hs.pos

theorem slot_of_lt (hi : i < h.tablelength) : h.slot i = .ok (h.table i) := by
  unfold Hashtable.slot
  rw [inBounds_of hi]
  rfl

theorem entry_of {c : Cell Ptr (Entry K V)} (hc : h.nodes e = some c) : h.entry e = .ok c := by
  unfold Hashtable.entry
  rw [hc]

theorem free_of {c : Cell Ptr (Entry K V)} (hc : h.nodes e = some c) :
    h.free e = .ok { h with nodes := update h.nodes e none } := by
  unfold Hashtable.free
  rw [entry_of hc]
  rfl

theorem length_le_items (hi : i < h.tablelength) (chains : Nat → List (Ptr × Entry K V)) :
    (chains i).length ≤ (items h.tablelength chains).length := by
  rw [(flatMap_perm (List.mem_range.mpr hi) chains).length_eq, List.length_append]
  exact Nat.le_add_right _ _

theorem linked_create {minsize : Nat} (hcreate : createHashtable limit minsize = some h) : Linked hashfn h fun _ => [] := by
  unfold createHashtable at hcreate
  split at hcreate
  · cases hcreate
  · rename_i hsize
    cases hcreate
    have hlast : minsize < 1610612741 := by omega
    have hfind : (primes.findIdx fun prime => minsize < prime) < primes.length := by
      refine List.findIdx_lt_length_of_exists ⟨1610612741, by decide, ?_⟩
      exact decide_eq_true hlast
    refine ⟨⟨.empty _, ?_, ?_, ?_⟩, ?_⟩
    · intro i _ x hx
      exact absurd hx List.not_mem_nil
    · intro i _ x hx
      exact absurd hx List.not_mem_nil
    · simp only [List.getD_eq_getElem?_getD, List.getElem?_eq_getElem hfind, Option.getD_some]
    · simp

theorem Linked.mem_chain (hl : Linked hashfn h chains) {x : Ptr × Entry K V} (hx : x ∈ items h.tablelength chains) :
    x ∈ chains (indexFor h.tablelength (hash hashfn x.2.k)) := by
  obtain ⟨i, hi, hmem⟩ := List.mem_flatMap.mp hx
  have hlt := List.mem_range.mp hi
  rwa [← hl.hashed i hlt x hmem, hl.placed i hlt x hmem]

/-! ## An entry is taken out -/

/-- What `*pE = next` leaves of a table, where `e` is the entry that is taken out. -/
structure Kept (h h' : Hashtable K V) (index : Nat) (e : Ptr) : Prop where
  tablelength : h'.tablelength = h.tablelength
  entrycount : h'.entrycount = h.entrycount
  entry : h'.nodes e = h.nodes e
  slots : ∀ j, j ≠ index → h'.table j = h.table j

/-- The chains behind `hashtable_remove`, with the memory of the entry that it frees. -/
theorem Shaped.unlink (hs : Shaped hashfn h chains) (hi : i < h.tablelength) {before after : List (Ptr × Entry K V)}
    {x : Ptr × Entry K V} (hchain : chains i = before ++ x :: after) (count : Nat) : ∃ h' h'',
    h.setLink i (linkBehind before) (first after) = .ok h' ∧ Kept h h' i x.1 ∧
      { h' with entrycount := count }.free x.1 = .ok h'' ∧ h''.tablelength = h.tablelength ∧ h''.entrycount = count ∧
      Shaped hashfn h'' (update chains i (before ++ after)) := by
  have hall := hs.layout.chain i hi
  rw [hchain] at hall
  have hstill : ∀ j < h.tablelength, ∀ y ∈ update chains i (before ++ after) j, y ∈ chains j := by
    intro j _ y hy
    by_cases hj : j = i
    · subst hj
      rw [update_self] at hy
      rw [hchain]
      exact List.Sublist.subset ((List.Sublist.refl before).append (List.sublist_cons_self x after)) hy
    · rwa [update_of_ne hj] at hy
  obtain rfl | ⟨xs, y, rfl⟩ := List.eq_nil_or_concat' before
  · have hlayout := hs.layout.pop hi hchain
    have hset : h.setLink i (linkBehind ([] : List (Ptr × Entry K V))) (first after) =
        .ok { h with table := update h.table i (first after) } := by
      rw [linkBehind, List.getLast?_nil, Option.map_none, Hashtable.setLink, inBounds_of hi]
      rfl
    have hkept : Kept h { h with table := update h.table i (first after) } i x.1 :=
      ⟨rfl, rfl, rfl, fun j hj => update_of_ne hj _ _⟩
    have hfree : Hashtable.free { h with table := update h.table i (first after), entrycount := count } x.1 =
        .ok { h with nodes := update h.nodes x.1 none, table := update h.table i (first after), entrycount := count } :=
      free_of hall.cell
    exact ⟨_, _, hset, hkept, hfree, rfl, rfl, hlayout, fun j hj z hz => hs.hashed j hj z (hstill j hj z hz),
      fun j hj z hz => hs.placed j hj z (hstill j hj z hz), hs.size⟩
  · rw [List.append_assoc] at hchain hall hstill
    have hlayout := hs.layout.unlink hi hchain
    have hset : h.setLink i (linkBehind (xs ++ [y])) (first after) =
        .ok { h with nodes := update h.nodes y.1 (some ⟨y.2, first after⟩) } := by
      rw [linkBehind, List.getLast?_concat, Option.map_some, Hashtable.setLink, entry_of hall.cell]
      rfl
    have hne : x.1 ≠ y.1 := by
      have hnodup := hs.layout.nodup i hi
      rw [hchain] at hnodup
      have hnot : y.1 ∉ keys (x :: after) := by
        rw [keys, List.map_append] at hnodup
        exact (List.nodup_cons.mp (List.nodup_append.mp hnodup).2.1).1
      exact fun heq => hnot (heq ▸ List.mem_cons_self)
    have hkept : Kept h { h with nodes := update h.nodes y.1 (some ⟨y.2, first after⟩) } i x.1 :=
      ⟨rfl, rfl, update_of_ne hne _ _, fun _ _ => rfl⟩
    have hcell : update h.nodes y.1 (some ⟨y.2, first after⟩) x.1 = some ⟨x.2, first after⟩ := by
      have hsplit : Chain h.nodes ((xs ++ [y]) ++ x :: after) := by rwa [List.append_assoc]
      rw [update_of_ne hne]
      exact hsplit.right.1
    have hfree : Hashtable.free { h with nodes := update h.nodes y.1 (some ⟨y.2, first after⟩), entrycount := count } x.1 =
        .ok { h with nodes := update (update h.nodes y.1 (some ⟨y.2, first after⟩)) x.1 none, entrycount := count } :=
      free_of hcell
    rw [List.append_assoc]
    exact ⟨_, _, hset, hkept, hfree, rfl, rfl, hlayout, fun j hj z hz => hs.hashed j hj z (hstill j hj z hz),
      fun j hj z hz => hs.placed j hj z (hstill j hj z hz), hs.size⟩

/-! ## The table grows -/

theorem moveChain_spec {n newsize : Nat} (hpos : 0 < newsize) {xs : List (Ptr × Entry K V)} {m : Moving K V}
    {old new : Nat → List (Ptr × Entry K V)}
    (hl : Layout (Sum.elim (· < n) (· < newsize)) m.nodes (Sum.elim m.table m.newtable) (Sum.elim old new)) (hi : i < n)
    (hold : old i = xs) (hfuel : xs.length < fuel) : ∃ m', moveChain newsize i fuel m = .ok m' ∧
      Layout (Sum.elim (· < n) (· < newsize)) m'.nodes (Sum.elim m'.table m'.newtable)
        (Sum.elim (update old i []) (rehash (fun b => indexFor newsize b.h) xs new)) := by
  induction xs generalizing fuel m old new with
  | nil =>
      obtain ⟨fuel, rfl⟩ := Nat.exists_eq_add_one.mpr hfuel
      have hhead : m.table i = none := by
        rw [show m.table i = first (old i) from hl.heads (.inl i) hi, hold]
        rfl
      have hsame : update old i [] = old := by rw [← hold, update_eq_self]
      refine ⟨m, by rw [moveChain, hhead], ?_⟩
      rw [hsame]
      exact hl
  | cons x xs ih =>
      obtain ⟨fuel, rfl⟩ := Nat.exists_eq_add_one.mpr hfuel.pos
      have hhead : m.table i = some x.1 := by
        rw [show m.table i = first (old i) from hl.heads (.inl i) hi, hold]
        rfl
      have hcell : m.nodes x.1 = some ⟨x.2, first xs⟩ := by
        have hchain : Chain m.nodes (old i) := hl.chain (.inl i) hi
        rw [hold] at hchain
        exact hchain.1
      have hindex : indexFor newsize x.2.h < newsize := Nat.mod_lt _ hpos
      have hmoved := hl.moveFirst hi hindex hold
      obtain ⟨m', hm', hlayout⟩ := ih (m := ⟨_, _, _⟩) hmoved (update_self ..) (Nat.lt_of_succ_lt_succ hfuel)
      refine ⟨m', ?_, ?_⟩
      · simp only [moveChain, hhead, hcell, inBounds_of hindex, ok_bind]
        exact hm'
      · rwa [update_idem] at hlayout

theorem moveChains_spec {n newsize : Nat} (hpos : 0 < newsize) {l : List Nat} (hnodup : l.Nodup) {m : Moving K V}
    {old new : Nat → List (Ptr × Entry K V)}
    (hl : Layout (Sum.elim (· < n) (· < newsize)) m.nodes (Sum.elim m.table m.newtable) (Sum.elim old new)) (hlt : ∀ i ∈ l, i < n)
    (hfuel : ∀ i, (old i).length < fuel) : ∃ m', l.foldlM (fun m i => moveChain newsize i fuel m) m = .ok m' ∧
      Layout (Sum.elim (· < n) (· < newsize)) m'.nodes (Sum.elim m'.table m'.newtable)
        (Sum.elim (fun j => if j ∈ l then [] else old j) (rehash (fun b => indexFor newsize b.h) (l.flatMap old) new)) := by
  induction l generalizing m old new with
  | nil =>
      refine ⟨m, rfl, ?_⟩
      rw [emptied_nil]
      exact hl
  | cons i l ih =>
      obtain ⟨hi, hrest⟩ := List.nodup_cons.mp hnodup
      obtain ⟨m₁, hm₁, hl₁⟩ := moveChain_spec hpos hl (hlt i List.mem_cons_self) rfl (hfuel i)
      have hfuel₁ : ∀ j, (update old i [] j).length < fuel := by
        intro j
        by_cases hj : j = i
        · subst hj
          rw [update_self]
          exact Nat.zero_lt_of_lt (hfuel j)
        · rw [update_of_ne hj]
          exact hfuel j
      obtain ⟨m', hm', hl'⟩ := ih hrest hl₁ (fun j hj => hlt j (List.mem_cons_of_mem _ hj)) hfuel₁
      refine ⟨m', ?_, ?_⟩
      · rw [List.foldlM_cons, hm₁]
        exact hm'
      · have hflat : l.flatMap (update old i []) = l.flatMap old := by
          refine List.flatMap_congr fun j hj => update_of_ne ?_ _ _
          exact ne_of_mem_of_not_mem hj hi
        rwa [hflat, emptied_cons, ← rehash_append, ← List.flatMap_cons] at hl'

/-- `hashtable_expand` keeps the entries, wherever their chains are afterwards. -/
theorem Shaped.expand (hs : Shaped hashfn h chains) (hcount : (items h.tablelength chains).length ≤ h.entrycount)
    {memory : TableMemory} (hmemory : memory ≠ .realloced) : ∃ r h' chains', hashtableExpand limit h memory = .ok (r, h') ∧
      Shaped hashfn h' chains' ∧ (items h'.tablelength chains').Perm (items h.tablelength chains) ∧ h'.entrycount = h.entrycount := by
  unfold hashtableExpand
  by_cases hlast : h.primeindex = primes.length - 1
  · rw [if_pos hlast]
    exact ⟨0, h, chains, rfl, hs, .refl _, rfl⟩
  have hlt : h.primeindex < primes.length := (List.getElem?_eq_some_iff.mp hs.size).1
  have hmore : h.primeindex + 1 < primes.length := by omega
  rw [if_neg hlast, inBounds_of hmore, ok_bind]
  cases memory with
  | realloced => exact absurd rfl hmemory
  | refused => exact ⟨0, h, chains, rfl, hs, .refl _, rfl⟩
  | malloced =>
      have hsize : primes[h.primeindex + 1]? = some (primes.getD (h.primeindex + 1) 0) := by
        rw [List.getD_eq_getElem?_getD, List.getElem?_eq_getElem hmore, Option.getD_some]
      generalize primes.getD (h.primeindex + 1) 0 = newsize at hsize
      have hpos : 0 < newsize := primes_pos _ (List.mem_of_getElem? hsize)
      have hfuel : ∀ i, (if i < h.tablelength then chains i else []).length < h.entrycount + 1 := by
        intro i
        split
        · rename_i hi
          exact Nat.lt_succ_of_le ((length_le_items hi chains).trans hcount)
        · exact Nat.succ_pos _
      have hchains : Layout (· < h.tablelength) h.nodes h.table fun i => if i < h.tablelength then chains i else [] :=
        hs.layout.congr fun i hi => (if_pos hi).symm
      obtain ⟨m, hm, hl⟩ := moveChains_spec hpos List.nodup_range (m := ⟨h.nodes, h.table, fun _ => none⟩)
        (hchains.beside (· < newsize)) (fun i hi => List.mem_range.mp hi) hfuel
      have hflat : ((List.range h.tablelength).flatMap fun i => if i < h.tablelength then chains i else []) =
          items h.tablelength chains := by
        refine List.flatMap_congr fun i hi => if_pos (List.mem_range.mp hi)
      rw [hflat] at hl
      have hright := hl.right fun i hi => if_pos (List.mem_range.mpr hi)
      have hperm : (items newsize (rehash (fun b : Entry K V => indexFor newsize b.h) (items h.tablelength chains) fun _ => [])).Perm
          (items h.tablelength chains ++ items newsize fun _ => []) := rehash_perm _ _ _ fun _ _ => Nat.mod_lt _ hpos
      rw [show (items newsize fun _ => ([] : List (Ptr × Entry K V))) = [] by simp, List.append_nil] at hperm
      refine ⟨-1, ⟨m.nodes, m.newtable, newsize, h.entrycount, limit newsize, h.primeindex + 1⟩, _, ?_, ?_, hperm, rfl⟩
      · simp only [hm, ok_bind]
        rfl
      · refine ⟨hright, ?_, ?_, hsize⟩
        · intro i _ x hx
          obtain hnone | ⟨hmem, -⟩ := rehash_placed hx
          · exact absurd hnone List.not_mem_nil
          · obtain ⟨j, hj, hmem⟩ := List.mem_flatMap.mp hmem
            exact hs.hashed j (List.mem_range.mp hj) x hmem
        · intro i _ x hx
          obtain hnone | ⟨-, hplaced⟩ := rehash_placed hx
          · exact absurd hnone List.not_mem_nil
          · exact hplaced

/-! ## An entry is added -/

theorem Shaped.fresh_iff (hs : Shaped hashfn h chains) : h.nodes e = none ↔ e ∉ keys (items h.tablelength chains) := by
  rw [← not_iff_not, not_not, ← ne_eq, hs.layout.allocated]
  simp only [keys, items, List.mem_map, List.mem_flatMap, List.mem_range]
  constructor
  · rintro ⟨i, hi, x, hx, rfl⟩
    exact ⟨x, ⟨i, hi, hx⟩, rfl⟩
  · rintro ⟨x, ⟨i, hi, hx⟩, rfl⟩
    exact ⟨i, hi, x, hx, rfl⟩

theorem Linked.countEntry (hl : Linked hashfn h chains) (limit : Nat → Nat) {memory : TableMemory} (hmemory : memory ≠ .realloced) :
    ∃ h' chains', countEntry limit h memory = .ok h' ∧
      Shaped hashfn h' chains' ∧ (items h'.tablelength chains').Perm (items h.tablelength chains) ∧ h'.entrycount = h.entrycount + 1 := by
  have hs : Shaped hashfn { h with entrycount := h.entrycount + 1 } chains := ⟨hl.layout, hl.hashed, hl.placed, hl.size⟩
  simp only [HashTable.countEntry]
  split
  · obtain ⟨r, h', chains', hr, hrest⟩ := hs.expand (hl.count ▸ Nat.le_succ _) hmemory
    refine ⟨h', chains', ?_, hrest⟩
    rw [hr]
    rfl
  · exact ⟨_, chains, rfl, hs, .refl _, rfl⟩

variable (limit) in
theorem Linked.insert (hl : Linked hashfn h chains) (hfresh : h.nodes e = none) {memory : TableMemory} (hmemory : memory ≠ .realloced)
    (k : K) (v : V) : ∃ h' chains', hashtableInsert hashfn limit h k v memory (some e) = .ok (-1, h') ∧ Linked hashfn h' chains' ∧
      (items h'.tablelength chains').Perm ((e, ⟨k, v, hash hashfn k⟩) :: items h.tablelength chains) := by
  obtain ⟨h₁, chains₁, hcounted, hs, hperm, hcount⟩ := hl.countEntry limit hmemory
  have hi := hs.index_lt (hash hashfn k)
  have hfree : h₁.nodes e = none := by
    rw [hs.fresh_iff]
    rw [hl.fresh_iff] at hfresh
    exact fun hmem => hfresh ((hperm.map Prod.fst).mem_iff.mp hmem)
  have hpush := hs.layout.push hfree hi ⟨k, v, hash hashfn k⟩
  have hitems : (items h₁.tablelength (update chains₁ (indexFor h₁.tablelength (hash hashfn k))
      ((e, ⟨k, v, hash hashfn k⟩) :: chains₁ (indexFor h₁.tablelength (hash hashfn k))))).Perm
      ((e, ⟨k, v, hash hashfn k⟩) :: items h₁.tablelength chains₁) :=
    flatMap_update_more List.nodup_range (List.mem_range.mpr hi) (.refl _)
  have hcall : hashtableInsert hashfn limit h k v memory (some e) = .ok (-1, { h₁ with
      nodes := update h₁.nodes e (some ⟨⟨k, v, hash hashfn k⟩, h₁.table (indexFor h₁.tablelength (hash hashfn k))⟩)
      table := update h₁.table (indexFor h₁.tablelength (hash hashfn k)) (some e) }) := by
    simp only [hashtableInsert, hcounted, ok_bind, slot_of_lt hi]
    rfl
  refine ⟨_, _, hcall, ⟨⟨hpush, ?_, ?_, hs.size⟩, ?_⟩, hitems.trans (hperm.cons _)⟩
  · intro j hj x hx
    by_cases hne : j = indexFor h₁.tablelength (hash hashfn k)
    · subst hne
      rw [update_self] at hx
      obtain rfl | hx := List.mem_cons.mp hx
      · rfl
      · exact hs.hashed _ hj x hx
    · rw [update_of_ne hne] at hx
      exact hs.hashed j hj x hx
  · intro j hj x hx
    by_cases hne : j = indexFor h₁.tablelength (hash hashfn k)
    · subst hne
      rw [update_self] at hx
      obtain rfl | hx := List.mem_cons.mp hx
      · rfl
      · exact hs.placed _ hj x hx
    · rw [update_of_ne hne] at hx
      exact hs.placed j hj x hx
  · rw [hcount, hl.count, ← hperm.length_eq]
    exact hitems.length_eq.symm

variable (limit) in
theorem Linked.insert_refused (hl : Linked hashfn h chains) {memory : TableMemory} (hmemory : memory ≠ .realloced) (k : K) (v : V) :
    ∃ h' chains', hashtableInsert hashfn limit h k v memory none = .ok (0, h') ∧ Linked hashfn h' chains' ∧
      (items h'.tablelength chains').Perm (items h.tablelength chains) := by
  obtain ⟨h₁, chains₁, hcounted, hs, hperm, hcount⟩ := hl.countEntry limit hmemory
  have hcall : hashtableInsert hashfn limit h k v memory none = .ok (0, { h₁ with entrycount := h₁.entrycount - 1 }) := by
    simp only [hashtableInsert, hcounted, ok_bind]
    rfl
  refine ⟨_, chains₁, hcall, ⟨⟨hs.layout, hs.hashed, hs.placed, hs.size⟩, ?_⟩, hperm⟩
  show h₁.entrycount - 1 = (items h₁.tablelength chains₁).length
  rw [hcount, hl.count, hperm.length_eq, Nat.add_sub_cancel]

/-! ## The table is destroyed -/

theorem destroyChain_spec {inTable : Nat → Prop} {heads : Nat → Option Ptr} {xs : List (Ptr × Entry K V)}
    (hl : Layout inTable h.nodes heads chains) (hi : inTable i) (hchain : chains i = xs) (hfuel : xs.length < fuel) :
    ∃ nodes heads', destroyChain fuel h (first xs) = .ok { h with nodes := nodes } ∧
      Layout inTable nodes heads' (update chains i []) := by
  induction xs generalizing fuel h heads chains with
  | nil =>
      obtain ⟨fuel, rfl⟩ := Nat.exists_eq_add_one.mpr hfuel
      have hsame : update chains i [] = chains := by rw [← hchain, update_eq_self]
      refine ⟨h.nodes, heads, rfl, ?_⟩
      rwa [hsame]
  | cons x xs ih =>
      obtain ⟨fuel, rfl⟩ := Nat.exists_eq_add_one.mpr hfuel.pos
      have hcell : h.nodes x.1 = some ⟨x.2, first xs⟩ := by
        have hall := hl.chain i hi
        rw [hchain] at hall
        exact hall.1
      have hpop := hl.pop hi hchain
      obtain ⟨nodes, heads', hrest, hlayout⟩ := ih (h := { h with nodes := update h.nodes x.1 none }) hpop
        (update_self ..) (Nat.lt_of_succ_lt_succ hfuel)
      refine ⟨nodes, heads', ?_, ?_⟩
      · simp only [first_cons, destroyChain, entry_of hcell, free_of hcell, ok_bind]
        exact hrest
      · rwa [update_idem] at hlayout

theorem destroyChains_spec {inTable : Nat → Prop} {heads : Nat → Option Ptr} {l : List Nat} (hnodup : l.Nodup)
    (hl : Layout inTable h.nodes heads chains) (hin : ∀ i ∈ l, inTable i) (htable : ∀ i ∈ l, h.table i = first (chains i))
    (hfuel : ∀ i ∈ l, (chains i).length ≤ h.entrycount) :
    ∃ nodes heads', l.foldlM (fun h i => destroyChain (h.entrycount + 1) h (h.table i)) h = .ok { h with nodes := nodes } ∧
      Layout inTable nodes heads' fun i => if i ∈ l then [] else chains i := by
  induction l generalizing h heads chains with
  | nil =>
      have hsame : (fun i => if i ∈ [] then [] else chains i) = chains := funext fun i => if_neg List.not_mem_nil
      refine ⟨h.nodes, heads, rfl, ?_⟩
      rwa [hsame]
  | cons i l ih =>
      obtain ⟨hi, hrest⟩ := List.nodup_cons.mp hnodup
      have hother : ∀ j ∈ l, update chains i [] j = chains j :=
        fun j hj => update_of_ne (ne_of_mem_of_not_mem hj hi) _ _
      obtain ⟨nodes₁, heads₁, hfirst, hl₁⟩ := destroyChain_spec hl (hin i List.mem_cons_self) rfl
        (Nat.lt_succ_of_le (hfuel i List.mem_cons_self))
      obtain ⟨nodes, heads', hthen, hl'⟩ := ih (h := { h with nodes := nodes₁ }) hrest hl₁
        (fun j hj => hin j (List.mem_cons_of_mem _ hj))
        (fun j hj => (htable j (List.mem_cons_of_mem _ hj)).trans (congrArg first (hother j hj).symm))
        (fun j hj => (hother j hj) ▸ hfuel j (List.mem_cons_of_mem _ hj))
      refine ⟨nodes, heads', ?_, ?_⟩
      · rw [List.foldlM_cons, htable i List.mem_cons_self, hfirst]
        exact hthen
      · refine hl'.congr fun j _ => ?_
        by_cases hj : j = i
        · subst hj
          simp
        · simp [hj]

theorem Linked.destroy (hl : Linked hashfn h chains) : hashtableDestroy h = .ok fun _ => none := by
  obtain ⟨nodes, heads, hcall, hlayout⟩ := destroyChains_spec List.nodup_range hl.layout (fun i hi => List.mem_range.mp hi)
    (fun i hi => hl.layout.heads i (List.mem_range.mp hi))
    (fun i hi => hl.count ▸ length_le_items (List.mem_range.mp hi) chains)
  have hnone : nodes = fun _ => none := by
    funext e
    by_contra he
    obtain ⟨i, hi, hmem⟩ := hlayout.only e he
    rw [if_pos (List.mem_range.mpr hi)] at hmem
    exact List.not_mem_nil hmem
  rw [hashtableDestroy, hcall, ok_bind, hnone]
  rfl

/-! ## Lookups -/

variable [DecidableEq K]

theorem searchChain_spec {xs : List (Ptr × Entry K V)} (hchain : Chain h.nodes xs) (hhash : ∀ x ∈ xs, x.2.h = hash hashfn x.2.k)
    (hfuel : xs.length < fuel) :
    searchChain h (hash hashfn k) k fuel (first xs) = .ok ((xs.find? fun x => k = x.2.k).map fun x => x.2.v) := by
  induction xs generalizing fuel with
  | nil =>
      obtain ⟨fuel, rfl⟩ := Nat.exists_eq_add_one.mpr hfuel
      rfl
  | cons x xs ih =>
      obtain ⟨fuel, rfl⟩ := Nat.exists_eq_add_one.mpr hfuel.pos
      have hx := hhash x List.mem_cons_self
      rw [first_cons, searchChain, entry_of hchain.1, ok_bind]
      by_cases hk : k = x.2.k
      · have hmatch : hash hashfn k = x.2.h ∧ k = x.2.k := ⟨by rw [hx, hk], hk⟩
        rw [if_pos hmatch, List.find?_cons_of_pos (by simpa using hk)]
        rfl
      · have hrest : searchChain h (hash hashfn k) k fuel (first xs) = .ok ((xs.find? fun x => k = x.2.k).map fun x => x.2.v) :=
          ih hchain.2 (fun y hy => hhash y (List.mem_cons_of_mem _ hy)) (Nat.lt_of_succ_lt_succ hfuel)
        rw [if_neg fun hmatch => hk hmatch.2, List.find?_cons_of_neg (by simpa using hk)]
        exact hrest

theorem Linked.search (hl : Linked hashfn h chains) (k : K) : hashtableSearch hashfn h k =
    .ok (((chains (indexFor h.tablelength (hash hashfn k))).find? fun x => k = x.2.k).map fun x => x.2.v) := by
  have hi := hl.index_lt (hash hashfn k)
  simp only [hashtableSearch, slot_of_lt hi, ok_bind, hl.layout.heads _ hi]
  refine searchChain_spec (hl.layout.chain _ hi) (hl.hashed _ hi) ?_
  rw [hl.count]
  exact Nat.lt_succ_of_le (length_le_items hi chains)

/-- What `hashtable_search` answers is the value of an entry with the key, and it is `NULL` only if there is none. -/
theorem Linked.search_answer (hl : Linked hashfn h chains) (k : K) : ∃ r, hashtableSearch hashfn h k = .ok r ∧
    (∀ v, r = some v → (k, v) ∈ pairs (items h.tablelength chains)) ∧ (r = none → ∀ v, (k, v) ∉ pairs (items h.tablelength chains)) := by
  refine ⟨_, hl.search k, ?_, ?_⟩
  · intro v hv
    obtain ⟨x, hfound, rfl⟩ := Option.map_eq_some_iff.mp hv
    have hk : k = x.2.k := by simpa using List.find?_some hfound
    have hmem := List.mem_of_find?_eq_some hfound
    subst hk
    exact List.mem_map.mpr ⟨x, List.mem_flatMap.mpr ⟨_, List.mem_range.mpr (hl.index_lt _), hmem⟩, rfl⟩
  · intro hnone v hmem
    rw [Option.map_eq_none_iff, List.find?_eq_none] at hnone
    obtain ⟨x, hx, hpair⟩ := List.mem_map.mp hmem
    cases hpair
    exact hnone x (hl.mem_chain hx) (by simp)

/-! ## An entry is removed -/

theorem removeChain_spec (hl : Linked hashfn h chains) (hi : i < h.tablelength) {xs before : List (Ptr × Entry K V)}
    (hchain : chains i = before ++ xs) (hfuel : xs.length < fuel) :
    ∃ r, removeChain h (hash hashfn k) k i fuel (linkBehind before) (first xs) = .ok r ∧
      ((r = (none, h) ∧ ∀ x ∈ xs, k ≠ x.2.k) ∨
        ∃ x ys zs, chains i = ys ++ x :: zs ∧ k = x.2.k ∧ r.1 = some x.2.v ∧ r.2.tablelength = h.tablelength ∧
          Linked hashfn r.2 (update chains i (ys ++ zs))) := by
  induction xs generalizing before fuel with
  | nil =>
      obtain ⟨fuel, rfl⟩ := Nat.exists_eq_add_one.mpr hfuel
      exact ⟨(none, h), rfl, .inl ⟨rfl, fun x hx => absurd hx List.not_mem_nil⟩⟩
  | cons x xs ih =>
      obtain ⟨fuel, rfl⟩ := Nat.exists_eq_add_one.mpr hfuel.pos
      have hcell : h.nodes x.1 = some ⟨x.2, first xs⟩ := by
        have hall := hl.layout.chain i hi
        rw [hchain] at hall
        exact hall.cell
      have hx : x.2.h = hash hashfn x.2.k := by
        refine hl.hashed i hi x ?_
        rw [hchain]
        exact List.mem_append_right _ List.mem_cons_self
      simp only [first_cons, removeChain, entry_of hcell, ok_bind]
      by_cases hk : k = x.2.k
      · obtain ⟨h', h'', hset, hkept, hfree, hlength, hcount, hshaped⟩ := hl.unlink hi hchain (h.entrycount - 1)
        have hmatch : hash hashfn k = x.2.h ∧ k = x.2.k := ⟨by rw [hx, hk], hk⟩
        rw [if_pos hmatch, hset, ok_bind, hkept.entrycount, hfree]
        refine ⟨_, rfl, .inr ⟨x, before, xs, hchain, hk, rfl, hlength, hshaped, ?_⟩⟩
        have hmiddle : (chains i).Perm (x :: (before ++ xs)) := by
          rw [hchain]
          exact List.perm_middle
        have hless := (flatMap_update_less List.nodup_range (List.mem_range.mpr hi) hmiddle).length_eq
        rw [List.length_cons, ← hl.count] at hless
        rw [hcount, hless, hlength]
        rfl
      · rw [if_neg fun hmatch => hk hmatch.2]
        have hbehind : linkBehind (before ++ [x]) = some x.1 := by
          rw [linkBehind, List.getLast?_concat]
          rfl
        rw [← hbehind]
        have hsplit : chains i = (before ++ [x]) ++ xs := by
          rw [hchain, List.append_assoc]
          rfl
        obtain ⟨r, hr, hcases⟩ := ih hsplit (Nat.lt_of_succ_lt_succ hfuel)
        refine ⟨r, hr, hcases.imp_left fun hrest => ⟨hrest.1, ?_⟩⟩
        intro y hy
        obtain rfl | hy := List.mem_cons.mp hy
        · exact hk
        · exact hrest.2 y hy

theorem Linked.remove (hl : Linked hashfn h chains) (k : K) : ∃ r h' chains', hashtableRemove hashfn h k = .ok (r, h') ∧
    Linked hashfn h' chains' ∧
    ((r = none ∧ h' = h ∧ chains' = chains ∧ ∀ v, (k, v) ∉ pairs (items h.tablelength chains)) ∨
      ∃ e v, r = some v ∧ ((items h.tablelength chains).Perm ((e, ⟨k, v, hash hashfn k⟩) :: items h'.tablelength chains'))) := by
  have hi := hl.index_lt (hash hashfn k)
  have hwhole : chains (indexFor h.tablelength (hash hashfn k)) = [] ++ chains (indexFor h.tablelength (hash hashfn k)) := rfl
  have hfuel := Nat.lt_succ_of_le (length_le_items hi chains)
  rw [← hl.count] at hfuel
  obtain ⟨⟨r, h'⟩, hr, hcases⟩ := removeChain_spec (k := k) hl hi hwhole hfuel
  have hcall : hashtableRemove hashfn h k = .ok (r, h') := by
    simp only [hashtableRemove, slot_of_lt hi, ok_bind, hl.layout.heads _ hi]
    exact hr
  obtain ⟨heq, hnone⟩ | ⟨x, ys, zs, hchain, hk, hv, hlength, hlinked⟩ := hcases
  · cases heq
    refine ⟨none, h, chains, hcall, hl, .inl ⟨rfl, rfl, rfl, fun v hmem => ?_⟩⟩
    obtain ⟨x, hx, hpair⟩ := List.mem_map.mp hmem
    cases hpair
    exact hnone x (hl.mem_chain hx) rfl
  · refine ⟨r, h', _, hcall, hlinked, .inr ⟨x.1, x.2.v, hv, ?_⟩⟩
    have hx : x = (x.1, ⟨k, x.2.v, hash hashfn k⟩) := by
      have hhash := hl.hashed _ hi x (by rw [hchain]; exact List.mem_append_right _ List.mem_cons_self)
      rw [hk, ← hhash]
    rw [← hx, hlength]
    exact flatMap_update_less List.nodup_range (List.mem_range.mpr hi) (by rw [hchain]; exact List.perm_middle)

end Linked

/-! ## The table is a dictionary -/

section Dictionary

variable (hashfn : K → BitVec 32) (limit : Nat → Nat) [DecidableEq K]

/-- A call that returns. A new entry is at an address that is not in use. -/
inductive TableStep : Hashtable K V → Event K V → Hashtable K V → Prop
  | inserted {h h' : Hashtable K V} {k : K} {v : V} {memory : TableMemory} {e : Ptr} :
      h.nodes e = none → hashtableInsert hashfn limit h k v memory (some e) = .ok (-1, h') → TableStep h (.inserted k v) h'
  | refused {h h' : Hashtable K V} {k : K} {v : V} {memory : TableMemory} :
      hashtableInsert hashfn limit h k v memory none = .ok (0, h') → TableStep h (.refused k v) h'
  | searched {h : Hashtable K V} {k : K} {answer : Option V} :
      hashtableSearch hashfn h k = .ok answer → TableStep h (.searched k answer) h
  | removed {h h' : Hashtable K V} {k : K} {answer : Option V} :
      hashtableRemove hashfn h k = .ok (answer, h') → TableStep h (.removed k answer) h'
  | counted {h : Hashtable K V} : TableStep h (.counted (hashtableCount h)) h

def tableSystem : System (Hashtable K V) (Event K V) where
  init := fun h => ∃ minsize, createHashtable limit minsize = some h
  step := TableStep hashfn limit

/-- The table has the pairs of a bag. -/
def Holds (h : Hashtable K V) (m : Multiset (K × V)) : Prop :=
  ∃ chains, Linked hashfn h chains ∧ m = ↑(pairs (items h.tablelength chains))

variable {hashfn limit} {h h' : Hashtable K V} {m : Multiset (K × V)}

omit [DecidableEq K] in
/-- Where `hashtable_insert` returns, it is as if `realloc` had given nothing. -/
theorem countEntry_realloced (hcall : countEntry limit h .realloced = .ok h') : countEntry limit h .refused = .ok h' := by
  simp only [countEntry] at hcall ⊢
  split at hcall
  · rename_i hfull
    rw [if_pos hfull]
    unfold hashtableExpand at hcall ⊢
    split at hcall
    · rename_i hlast
      rw [if_pos hlast]
      exact hcall
    · obtain ⟨r, hr, -⟩ := bind_eq_ok.mp hcall
      obtain ⟨u, -, hr⟩ := bind_eq_ok.mp hr
      cases hr
  · rename_i hfull
    rw [if_neg hfull]
    exact hcall

omit [DecidableEq K] in
theorem insert_memory {k : K} {v : V} {memory : TableMemory} {e : Option Ptr} {r : Int × Hashtable K V}
    (hcall : hashtableInsert hashfn limit h k v memory e = .ok r) :
    ∃ memory', memory' ≠ .realloced ∧ hashtableInsert hashfn limit h k v memory' e = .ok r := by
  cases memory with
  | malloced => exact ⟨_, by decide, hcall⟩
  | refused => exact ⟨_, by decide, hcall⟩
  | realloced =>
      refine ⟨.refused, by decide, ?_⟩
      unfold hashtableInsert at hcall ⊢
      obtain ⟨h₁, hcounted, hcall⟩ := bind_eq_ok.mp hcall
      rw [countEntry_realloced hcounted]
      exact hcall

theorem Holds.step (hh : Holds hashfn h m) {event : Event K V} (hstep : TableStep hashfn limit h event h') :
    ∃ m', BagStep m event m' ∧ Holds hashfn h' m' := by
  obtain ⟨chains, hl, rfl⟩ := hh
  cases hstep with
  | inserted hfresh hcall =>
      obtain ⟨memory, hmemory, hcall⟩ := insert_memory hcall
      obtain ⟨h₁, chains₁, hdone, hl₁, hperm⟩ := hl.insert limit hfresh hmemory _ _
      cases hdone.symm.trans hcall
      refine ⟨_, ?_, chains₁, hl₁, rfl⟩
      exact Multiset.coe_eq_coe.mpr (hperm.map _)
  | refused hcall =>
      obtain ⟨memory, hmemory, hcall⟩ := insert_memory hcall
      obtain ⟨h₁, chains₁, hdone, hl₁, hperm⟩ := hl.insert_refused limit hmemory _ _
      cases hdone.symm.trans hcall
      refine ⟨_, ?_, chains₁, hl₁, rfl⟩
      exact Multiset.coe_eq_coe.mpr (hperm.map _)
  | @searched k r hcall =>
      obtain ⟨answer, hdone, hsome, hnone⟩ := hl.search_answer k
      cases hdone.symm.trans hcall
      refine ⟨_, ?_, chains, hl, rfl⟩
      cases r with
      | none => exact ⟨hnone rfl, rfl⟩
      | some v => exact ⟨hsome v rfl, rfl⟩
  | removed hcall =>
      obtain ⟨answer, h₁, chains₁, hdone, hl₁, hcases⟩ := hl.remove _
      cases hdone.symm.trans hcall
      obtain ⟨rfl, rfl, rfl, hnone⟩ | ⟨e, v, rfl, hperm⟩ := hcases
      · exact ⟨_, ⟨hnone, rfl⟩, _, hl, rfl⟩
      · refine ⟨_, ?_, chains₁, hl₁, rfl⟩
        exact Multiset.coe_eq_coe.mpr (hperm.map _)
  | counted =>
      refine ⟨_, ⟨?_, rfl⟩, chains, hl, rfl⟩
      rw [Multiset.coe_card, pairs, List.length_map]
      exact hl.count

theorem table_simulates_bag : System.Simulation (tableSystem hashfn limit) (bag : System (Multiset (K × V)) _) (Holds hashfn) where
  init := by
    rintro h ⟨minsize, hcreate⟩
    have hempty : items h.tablelength (fun _ => ([] : List (Ptr × Entry K V))) = [] := List.flatMap_eq_nil_iff.mpr fun _ _ => rfl
    refine ⟨0, rfl, fun _ => [], linked_create hcreate, ?_⟩
    rw [hempty, pairs, List.map_nil, Multiset.coe_nil]
  step := fun _ _ _ _ hh hstep => hh.step hstep

/-- The table has the pairs of a map. -/
def HoldsMap (hashfn : K → BitVec 32) (h : Hashtable K V) (f : K → Option V) : Prop := ∃ m, Holds hashfn h m ∧ BagOf m f

theorem HoldsMap.search {f : K → Option V} (hh : HoldsMap hashfn h f) (k : K) : hashtableSearch hashfn h k = .ok (f k) := by
  obtain ⟨m, ⟨chains, hl, rfl⟩, hbag⟩ := hh
  obtain ⟨answer, hdone, hsome, hnone⟩ := hl.search_answer k
  rw [hdone]
  cases answer with
  | none => rw [hbag.none_iff.mp (hnone rfl)]
  | some v => rw [(hbag.mem k v).mp (hsome v rfl)]

variable (limit) in
theorem HoldsMap.insert {f : K → Option V} (hh : HoldsMap hashfn h f) {k : K} (hnone : f k = none) {e : Ptr} (hfresh : h.nodes e = none)
    {memory : TableMemory} (hmemory : memory ≠ .realloced) (v : V) :
    ∃ h', hashtableInsert hashfn limit h k v memory (some e) = .ok (-1, h') ∧ HoldsMap hashfn h' (update f k (some v)) := by
  obtain ⟨m, ⟨chains, hl, rfl⟩, hbag⟩ := hh
  obtain ⟨h', chains', hcall, hl', hperm⟩ := hl.insert limit hfresh hmemory k v
  refine ⟨h', hcall, _, ⟨chains', hl', rfl⟩, ?_⟩
  have hpairs : ↑(pairs (items h'.tablelength chains')) = (k, v) ::ₘ (↑(pairs (items h.tablelength chains)) : Multiset (K × V)) :=
    Multiset.coe_eq_coe.mpr (hperm.map _)
  rw [hpairs]
  exact hbag.insert hnone v

theorem HoldsMap.remove {f : K → Option V} (hh : HoldsMap hashfn h f) (k : K) :
    ∃ h', hashtableRemove hashfn h k = .ok (f k, h') ∧ HoldsMap hashfn h' (update f k none) := by
  obtain ⟨m, ⟨chains, hl, rfl⟩, hbag⟩ := hh
  obtain ⟨answer, h', chains', hcall, hl', ⟨rfl, rfl, rfl, hnone⟩ | ⟨e, v, rfl, hperm⟩⟩ := hl.remove k
  · have habsent := hbag.none_iff.mp hnone
    refine ⟨h', ?_, _, ⟨chains', hl', rfl⟩, ?_⟩
    · rw [hcall, habsent]
    · rwa [← habsent, update_eq_self]
  · have hpairs : (↑(pairs (items h.tablelength chains)) : Multiset (K × V)) = (k, v) ::ₘ ↑(pairs (items h'.tablelength chains')) :=
      Multiset.coe_eq_coe.mpr (hperm.map _)
    rw [hpairs] at hbag
    obtain ⟨hsome, hrest⟩ := hbag.remove
    refine ⟨h', ?_, _, ⟨chains', hl', rfl⟩, hrest⟩
    rw [hcall, hsome]

omit [DecidableEq K] in
theorem HoldsMap.count {f : K → Option V} (hh : HoldsMap hashfn h f) : hashtableCount h = {k | f k ≠ none}.ncard := by
  obtain ⟨m, ⟨chains, hl, rfl⟩, hbag⟩ := hh
  rw [← hbag.card, Multiset.coe_card, pairs, List.length_map]
  exact hl.count

/-- After any calls, with growth in between or not, the table answers as the bag of what was added, every further call returns, and
`hashtable_destroy` leaves none of its entries. Only where the larger table is the old one made longer is this not so. -/
theorem hashtable_dictionary {calls : List (Event K V)} (hrun : (tableSystem hashfn limit).Runs calls h) :
    (∃ m, bag.Runs calls m ∧ Holds hashfn h m) ∧
      (∀ k, ∃ answer, hashtableSearch hashfn h k = .ok answer) ∧
      (∀ k, ∃ answer h', hashtableRemove hashfn h k = .ok (answer, h')) ∧
      (∀ k v e memory, h.nodes e = none → memory ≠ .realloced →
        ∃ h', hashtableInsert hashfn limit h k v memory (some e) = .ok (-1, h')) ∧
      (∀ k v memory, memory ≠ .realloced → ∃ h', hashtableInsert hashfn limit h k v memory none = .ok (0, h')) ∧
      hashtableDestroy h = .ok fun _ => none := by
  obtain ⟨m, hbag, hholds⟩ := table_simulates_bag.runs hrun
  obtain ⟨chains, hl, -⟩ := id hholds
  refine ⟨⟨m, hbag, hholds⟩, fun k => ⟨_, hl.search k⟩, ?_, ?_, ?_, hl.destroy⟩
  · intro k
    obtain ⟨answer, h', chains', hcall, -⟩ := hl.remove k
    exact ⟨answer, h', hcall⟩
  · intro k v e memory hfresh hmemory
    obtain ⟨h', chains', hcall, -⟩ := hl.insert limit hfresh hmemory k v
    exact ⟨h', hcall⟩
  · intro k v memory hmemory
    obtain ⟨h', chains', hcall, -⟩ := hl.insert_refused limit hmemory k v
    exact ⟨h', hcall⟩

/-- Two entries of one chain, the first of them taken out again. -/
theorem hashtable_dictionary_pair : ∃ h : Hashtable Nat Nat,
    (∃ m, bag.Runs [.inserted 1 10, .inserted 54 20, .removed 1 (some 10)] m ∧ Holds (fun _ => 0) h m) ∧
      hashtableDestroy h = .ok fun _ => none := by
  have hstart : (tableSystem (fun _ => 0) id).Runs [] (⟨fun _ => none, fun _ => none, 53, 0, 53, 0⟩ : Hashtable Nat Nat) :=
    .start ⟨16, rfl⟩
  have hone := hstart.step (@TableStep.inserted _ _ _ _ _ _ _ 1 10 .malloced 0 rfl rfl)
  have htwo := hone.step (@TableStep.inserted _ _ _ _ _ _ _ 54 20 .malloced 1 rfl rfl)
  have hthree := htwo.step (@TableStep.removed _ _ _ _ _ _ _ 1 (some 10) rfl)
  obtain ⟨hbag, -, -, -, -, hdestroy⟩ := hashtable_dictionary hthree
  exact ⟨_, hbag, hdestroy⟩

end Dictionary

end BeagleCache.HashTable

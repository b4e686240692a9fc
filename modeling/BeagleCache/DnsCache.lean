import BeagleCache.Bytes
import BeagleCache.Recency

/-! The DNS cache of `dns.c`: 2000 entries in a list that has the one used longest ago at its head, and a hash table
from the servers to the list. The keys of the table are the strings in the entries, so an entry has to leave the table
before another server is written into it. -/

namespace BeagleCache

open Function

namespace Dns

/-- `DNSRep`; `entry` is the address of the request it answers. -/
structure DNSRep where
  presentHost : Bytes
  status : Int
  entry : Nat
  deriving DecidableEq

/-- `DNSListEntry`, with the string in its `server`. -/
structure DNSListEntry where
  dnsEntry : DNSRep
  server : Bytes

/-- An item of the hash table: the length and the hash of the key it was added with. Its key is the `server` of an
entry, and its stuff is the list element of that entry. -/
structure HItem where
  keyl : Nat
  hval : BitVec 32
  entry : Nat
  deriving DecidableEq

/-- `entries`, `dnsList` from the head to the tail, and `dnsCache`. -/
structure DNSCache where
  entries : Nat → DNSListEntry
  dnsList : List Nat
  dnsCache : List HItem

/-- The length of `entries`. -/
@[irreducible] def numEntries : Nat := 2000

/-- The size of the arrays `server` of `DNSListEntry` and `DNSRequest`. -/
def serverSize : Nat := 100

/-- The byte that stands in `server[ 0 ]` of an entry without a server. -/
def noServer : Byte := 0xff

/-- `initDNSCache`, which adds the entries at the head one after the other. -/
def initDNSCache (memory : Nat → DNSRep) : DNSCache where
  entries i := ⟨memory i, [noServer]⟩
  dnsList := (List.range numEntries).reverse
  dnsCache := []

section Functions

variable (lookup : Bytes → BitVec 32) (c : DNSCache)

/-- The comparison of `hfind` and `hadd`, with the bytes that are in the entry now. -/
def HItem.Matches (key : Bytes) (item : HItem) : Prop :=
  lookup key = item.hval ∧ key.length = item.keyl ∧ (c.entries item.entry).server.take item.keyl = key

instance (key : Bytes) (item : HItem) : Decidable (item.Matches lookup c key) := inferInstanceAs (Decidable (_ ∧ _ ∧ _))

def hfind (key : Bytes) : Option HItem := c.dnsCache.find? fun item => item.Matches lookup c key

/-- `hdel` of the item that `hfind` came to. -/
def hdel (key : Bytes) : DNSCache := { c with dnsCache := c.dnsCache.eraseP fun item => item.Matches lookup c key }

/-- `hadd` of the string in the entry `num`, with its list element. -/
def hadd (num : Nat) : DNSCache :=
  let key := (c.entries num).server
  match hfind lookup c key with
  | some _ => c
  | none => { c with dnsCache := ⟨key.length, lookup key, num⟩ :: c.dnsCache }

/-- `movePresentToTail` -/
def movePresentToTail (num : Nat) : DNSCache := { c with dnsList := c.dnsList.erase num ++ [num] }

/-- The test `num->server[ 0 ] != -1`. -/
def Used (num : Nat) : Prop := (c.entries num).server.head? ≠ some noServer

instance (num : Nat) : Decidable (Used c num) := inferInstanceAs (Decidable (_ ≠ _))

/-- `updateDNSCache`; no result is the answer `-1`. -/
def updateDNSCache (server : Bytes) (rep : DNSRep) : Run (Option DNSCache) :=
  match c.dnsList with
  | [] => .error .overrun
  | num :: _ =>
      if Used c num ∧ hfind lookup c (c.entries num).server = none then return none
      else do
        let c := if Used c num then hdel lookup c (c.entries num).server else c
        inBounds (server.length + 1 ≤ serverSize)
        let c := { c with entries := update c.entries num { c.entries num with server := server } }
        let c := hadd lookup c num
        let c := { c with entries := update c.entries num { c.entries num with dnsEntry := rep } }
        return some (movePresentToTail c num)

/-- `updateDNSUsage`; no result is the answer `-1`. -/
def updateDNSUsage (server : Bytes) : Option DNSCache :=
  (hfind lookup c server).map fun item => movePresentToTail c item.entry

/-- `getDNSInfo`; no result is the answer `-1`. -/
def getDNSInfo (server : Bytes) : Option DNSRep :=
  (hfind lookup c server).map fun item => (c.entries item.entry).dnsEntry

end Functions

/-! ## The table and the list -/

/-- The servers in the cache, in the order of the list. -/
def servers (c : DNSCache) : List Bytes := (c.dnsList.filter fun num => Used c num).map fun num => (c.entries num).server

/-- The table has one item for every entry in use, and the entries in use stand behind the others. -/
structure Linked (lookup : Bytes → BitVec 32) (c : DNSCache) : Prop where
  all : c.dnsList.Perm (List.range numEntries)
  behind : ∃ free used, c.dnsList = free ++ used ∧ (∀ num ∈ free, ¬ Used c num) ∧ ∀ num ∈ used, Used c num
  table : ∀ num, num ∈ c.dnsCache.map HItem.entry ↔ num ∈ c.dnsList ∧ Used c num
  once : (c.dnsCache.map HItem.entry).Nodup
  keys : ∀ item ∈ c.dnsCache, item.keyl = (c.entries item.entry).server.length ∧ item.hval = lookup (c.entries item.entry).server
  apart : (servers c).Nodup

variable {lookup : Bytes → BitVec 32} {c : DNSCache}

theorem used_init (memory : Nat → DNSRep) (num : Nat) : ¬ Used (initDNSCache memory) num := by
  intro h
  exact h rfl

theorem servers_init (memory : Nat → DNSRep) : servers (initDNSCache memory) = [] := by
  have hnone : ((initDNSCache memory).dnsList.filter fun num => Used (initDNSCache memory) num) = [] := by
    rw [List.filter_eq_nil_iff]
    intro num _
    simpa using used_init memory num
  rw [servers, hnone, List.map_nil]

theorem linked_init (lookup : Bytes → BitVec 32) (memory : Nat → DNSRep) : Linked lookup (initDNSCache memory) := by
  have hlist : (initDNSCache memory).dnsList = (List.range numEntries).reverse := rfl
  have htable : (initDNSCache memory).dnsCache = [] := rfl
  refine ⟨?_, ⟨(initDNSCache memory).dnsList, [], ?_, fun num _ => used_init memory num, ?_⟩, ?_, ?_, ?_, ?_⟩
  · rw [hlist]
    exact List.reverse_perm _
  · rw [List.append_nil]
  · intro num h
    exact (List.not_mem_nil h).elim
  · intro num
    rw [htable, List.map_nil]
    exact iff_of_false List.not_mem_nil fun h => used_init memory num h.2
  · rw [htable]
    exact List.nodup_nil
  · intro item h
    rw [htable] at h
    exact (List.not_mem_nil h).elim
  · rw [servers_init]
    exact List.nodup_nil

theorem Linked.nodup (h : Linked lookup c) : c.dnsList.Nodup := h.all.nodup_iff.mpr List.nodup_range

theorem mem_servers {key : Bytes} : key ∈ servers c ↔ ∃ num, num ∈ c.dnsList ∧ Used c num ∧ (c.entries num).server = key := by
  simp [servers, and_assoc]

theorem Linked.server_inj (h : Linked lookup c) {i j : Nat} (hi : i ∈ c.dnsList) (hui : Used c i) (hj : j ∈ c.dnsList)
    (huj : Used c j) (hserver : (c.entries i).server = (c.entries j).server) : i = j :=
  List.inj_on_of_nodup_map h.apart (by simp [hi, hui]) (by simp [hj, huj]) hserver

theorem Linked.matches_iff (h : Linked lookup c) {item : HItem} (hitem : item ∈ c.dnsCache) (key : Bytes) :
    item.Matches lookup c key ↔ (c.entries item.entry).server = key := by
  obtain ⟨hkeyl, hhval⟩ := h.keys item hitem
  constructor
  · rintro ⟨-, -, hbytes⟩
    rwa [hkeyl, List.take_length] at hbytes
  · rintro rfl
    exact ⟨hhval.symm, hkeyl.symm, by rw [hkeyl, List.take_length]⟩

theorem Linked.item_inj (h : Linked lookup c) {item item' : HItem} (hitem : item ∈ c.dnsCache) (hitem' : item' ∈ c.dnsCache)
    (hentry : item.entry = item'.entry) : item = item' := List.inj_on_of_nodup_map h.once hitem hitem' hentry

theorem Linked.hfind_iff (h : Linked lookup c) {key : Bytes} {item : HItem} :
    hfind lookup c key = some item ↔ item ∈ c.dnsCache ∧ (c.entries item.entry).server = key := by
  constructor
  · intro hfound
    have hitem := List.mem_of_find?_eq_some hfound
    have hmatch := List.find?_some hfound
    exact ⟨hitem, (h.matches_iff hitem key).mp (of_decide_eq_true hmatch)⟩
  · rintro ⟨hitem, hserver⟩
    cases hfound : hfind lookup c key with
    | none =>
        have hnone := List.find?_eq_none.mp hfound item hitem
        exact (hnone (decide_eq_true ((h.matches_iff hitem key).mpr hserver))).elim
    | some item' =>
        have hitem' := List.mem_of_find?_eq_some hfound
        have hmatch' := List.find?_some hfound
        have hserver' := (h.matches_iff hitem' key).mp (of_decide_eq_true hmatch')
        have hin := (h.table item.entry).mp (List.mem_map_of_mem hitem)
        have hin' := (h.table item'.entry).mp (List.mem_map_of_mem hitem')
        have hentry := h.server_inj hin'.1 hin'.2 hin.1 hin.2 (hserver'.trans hserver.symm)
        rw [h.item_inj hitem' hitem hentry]

theorem Linked.hfind_none_iff (h : Linked lookup c) {key : Bytes} : hfind lookup c key = none ↔ key ∉ servers c := by
  rw [mem_servers, ← not_iff_not, not_not, ← ne_eq, Option.ne_none_iff_exists']
  constructor
  · rintro ⟨item, hfound⟩
    obtain ⟨hitem, hserver⟩ := h.hfind_iff.mp hfound
    obtain ⟨hin, hused⟩ := (h.table item.entry).mp (List.mem_map_of_mem hitem)
    exact ⟨item.entry, hin, hused, hserver⟩
  · rintro ⟨num, hin, hused, hserver⟩
    obtain ⟨item, hitem, rfl⟩ := List.mem_map.mp ((h.table num).mpr ⟨hin, hused⟩)
    exact ⟨item, h.hfind_iff.mpr ⟨hitem, hserver⟩⟩

theorem Linked.getDNSInfo_iff (h : Linked lookup c) {key : Bytes} {rep : DNSRep} : getDNSInfo lookup c key = some rep ↔
    ∃ num, num ∈ c.dnsList ∧ Used c num ∧ (c.entries num).server = key ∧ (c.entries num).dnsEntry = rep := by
  rw [getDNSInfo, Option.map_eq_some_iff]
  constructor
  · rintro ⟨item, hfound, rfl⟩
    obtain ⟨hitem, hserver⟩ := h.hfind_iff.mp hfound
    obtain ⟨hin, hused⟩ := (h.table item.entry).mp (List.mem_map_of_mem hitem)
    exact ⟨item.entry, hin, hused, hserver, rfl⟩
  · rintro ⟨num, hin, hused, hserver, rfl⟩
    obtain ⟨item, hitem, rfl⟩ := List.mem_map.mp ((h.table num).mpr ⟨hin, hused⟩)
    exact ⟨item, h.hfind_iff.mpr ⟨hitem, hserver⟩, rfl⟩

theorem Linked.getDNSInfo_none_iff (h : Linked lookup c) {key : Bytes} : getDNSInfo lookup c key = none ↔ key ∉ servers c := by
  rw [getDNSInfo, Option.map_eq_none_iff, h.hfind_none_iff]

/-! ## What the operations do -/

theorem Linked.move (h : Linked lookup c) {num : Nat} (hin : num ∈ c.dnsList) (hused : Used c num) :
    Linked lookup (movePresentToTail c num) := by
  have hperm : (c.dnsList.erase num ++ [num]).Perm c.dnsList :=
    (List.perm_append_singleton num _).trans (List.perm_cons_erase hin).symm
  obtain ⟨free, used, hlist, hfree, husedall⟩ := h.behind
  have hnum : num ∉ free := fun hmem => hfree num hmem hused
  refine ⟨hperm.trans h.all, ⟨free, used.erase num ++ [num], ?_, hfree, ?_⟩, ?_, h.once, h.keys, ?_⟩
  · refine (congrArg (fun l => l ++ [num]) ?_).trans (List.append_assoc ..)
    rw [hlist, List.erase_append_right _ hnum]
  · intro i hi
    obtain hi | hi := List.mem_append.mp hi
    · exact husedall i (List.mem_of_mem_erase hi)
    · rw [List.mem_singleton.mp hi]
      exact hused
  · intro i
    exact (h.table i).trans (and_congr_left' hperm.mem_iff.symm)
  · exact ((hperm.filter _).map _).nodup_iff.mpr h.apart

theorem Linked.servers_move (h : Linked lookup c) {num : Nat} (hin : num ∈ c.dnsList) (hused : Used c num) :
    servers (movePresentToTail c num) = (servers c).erase (c.entries num).server ++ [(c.entries num).server] := by
  obtain ⟨before, after, hlist⟩ := List.append_of_mem hin
  have hnodup := h.nodup
  rw [hlist, List.nodup_append] at hnodup
  have hnum : num ∉ before := fun hmem => hnodup.2.2 num hmem num List.mem_cons_self rfl
  have hmoved : (movePresentToTail c num).dnsList = before ++ after ++ [num] := by
    rw [movePresentToTail, hlist, List.erase_append_right _ hnum, List.erase_cons_head]
  have hservers : servers c = (before.filter fun i => Used c i).map (fun i => (c.entries i).server) ++
      (c.entries num).server :: (after.filter fun i => Used c i).map fun i => (c.entries i).server := by
    rw [servers, hlist, List.filter_append, List.filter_cons_of_pos (by simpa using hused), List.map_append, List.map_cons]
  have hnew : (c.entries num).server ∉ (before.filter fun i => Used c i).map fun i => (c.entries i).server := by
    intro hmem
    have hapart := h.apart
    rw [hservers, List.nodup_append] at hapart
    exact hapart.2.2 _ hmem _ List.mem_cons_self rfl
  rw [hservers, List.erase_append_right _ hnew, List.erase_cons_head, servers, hmoved]
  have hsame : ∀ i, Used (movePresentToTail c num) i ↔ Used c i := fun i => Iff.rfl
  simp only [List.filter_append, List.map_append, hsame, List.filter_singleton, decide_eq_true hused]
  rfl

theorem Linked.updateDNSUsage_spec (h : Linked lookup c) {server : Bytes} (hserver : server ∈ servers c) :
    ∃ c', updateDNSUsage lookup c server = some c' ∧ Linked lookup c' ∧ servers c' = (servers c).erase server ++ [server] ∧
      ∀ key, getDNSInfo lookup c' key = getDNSInfo lookup c key := by
  obtain ⟨item, hfound⟩ := Option.ne_none_iff_exists'.mp fun hnone => h.hfind_none_iff.mp hnone hserver
  obtain ⟨hitem, rfl⟩ := h.hfind_iff.mp hfound
  obtain ⟨hin, hused⟩ := (h.table item.entry).mp (List.mem_map_of_mem hitem)
  refine ⟨movePresentToTail c item.entry, ?_, h.move hin hused, h.servers_move hin hused, fun key => rfl⟩
  rw [updateDNSUsage, hfound, Option.map_some]

/-- The cache after `server` and its reply were written into the entry `num`, with the items `items` in the table. -/
def stored (c : DNSCache) (num : Nat) (items : List HItem) (server : Bytes) (rep : DNSRep) : DNSCache where
  entries := update c.entries num ⟨rep, server⟩
  dnsList := c.dnsList.erase num ++ [num]
  dnsCache := items

theorem stored_entries_of_ne {num i : Nat} {items : List HItem} {server : Bytes} {rep : DNSRep} (hne : i ≠ num) :
    (stored c num items server rep).entries i = c.entries i := update_of_ne hne ..

theorem stored_entries_self {num : Nat} {items : List HItem} {server : Bytes} {rep : DNSRep} :
    (stored c num items server rep).entries num = ⟨rep, server⟩ := update_self ..

theorem stored_used_iff {num i : Nat} {items : List HItem} {server : Bytes} {rep : DNSRep} (hne : i ≠ num) :
    Used (stored c num items server rep) i ↔ Used c i := by
  rw [Used, Used, stored_entries_of_ne hne]

/-- What is left of the table when the server of the entry `num` was taken out, if it had one. -/
theorem Linked.mem_without (h : Linked lookup c) {num : Nat} (hin : num ∈ c.dnsList) (item : HItem) :
    item ∈ (if Used c num then hdel lookup c (c.entries num).server else c).dnsCache ↔
      item ∈ c.dnsCache ∧ item.entry ≠ num := by
  by_cases hused : Used c num
  · obtain ⟨mine, hmine, rfl⟩ := List.mem_map.mp ((h.table num).mpr ⟨hin, hused⟩)
    obtain ⟨before, after, hsplit⟩ := List.append_of_mem hmine
    have honce := h.once
    rw [hsplit, List.map_append, List.map_cons, List.nodup_append, List.nodup_cons] at honce
    obtain ⟨-, ⟨hafter, -⟩, hapart⟩ := honce
    have hbefore : ∀ other ∈ before, other.entry ≠ mine.entry := fun other hother =>
      hapart _ (List.mem_map_of_mem hother) _ List.mem_cons_self
    have hmatch : ∀ other ∈ c.dnsCache, other.Matches lookup c (c.entries mine.entry).server → other.entry = mine.entry := by
      intro other hother hmatches
      have hserver := (h.matches_iff hother _).mp hmatches
      have hother' := (h.table other.entry).mp (List.mem_map_of_mem hother)
      exact h.server_inj hother'.1 hother'.2 hin hused hserver
    have herase : c.dnsCache.eraseP (fun item => item.Matches lookup c (c.entries mine.entry).server) = before ++ after := by
      have hhead := (h.matches_iff hmine (c.entries mine.entry).server).mpr rfl
      rw [hsplit, List.eraseP_append_right, List.eraseP_cons_of_pos (by simpa using hhead)]
      intro other hother hmatches
      refine hbefore other hother (hmatch other ?_ (of_decide_eq_true hmatches))
      rw [hsplit]
      exact List.mem_append_left _ hother
    rw [if_pos hused, hdel, herase, hsplit, List.mem_append, List.mem_append, List.mem_cons]
    constructor
    · rintro (hother | hother)
      · exact ⟨.inl hother, hbefore item hother⟩
      · exact ⟨.inr (.inr hother), fun hentry => hafter (hentry ▸ List.mem_map_of_mem hother)⟩
    · rintro ⟨hother | rfl | hother, hne⟩
      · exact .inl hother
      · exact (hne rfl).elim
      · exact .inr hother
  · rw [if_neg hused]
    refine ⟨fun hitem => ⟨hitem, ?_⟩, fun hitem => hitem.1⟩
    rintro rfl
    exact hused ((h.table item.entry).mp (List.mem_map_of_mem hitem)).2

theorem sublist_without (lookup : Bytes → BitVec 32) (c : DNSCache) (num : Nat) :
    ((if Used c num then hdel lookup c (c.entries num).server else c).dnsCache).Sublist c.dnsCache := by
  split
  · exact List.eraseP_sublist
  · exact List.Sublist.refl _

section Store

variable {num : Nat} {rest : List Nat} {items : List HItem} {server : Bytes} {rep : DNSRep}

theorem stored_list (hlist : c.dnsList = num :: rest) : (stored c num items server rep).dnsList = rest ++ [num] := by
  rw [stored, hlist, List.erase_cons_head]

theorem stored_used_self (hfirst : server.head? ≠ some noServer) : Used (stored c num items server rep) num := by
  rw [Used, stored_entries_self]
  exact hfirst

/-- The servers after the server at the head, if there is one, has made room for another. -/
theorem servers_stored (h : Linked lookup c) (hlist : c.dnsList = num :: rest) (hfirst : server.head? ≠ some noServer) :
    servers (stored c num items server rep) = (if Used c num then (servers c).tail else servers c) ++ [server] := by
  have hnew : num ∉ rest := (List.nodup_cons.mp (hlist ▸ h.nodup)).1
  have hrest : ∀ i ∈ rest, i ≠ num := fun i hi heq => hnew (heq ▸ hi)
  have hfilter : (rest.filter fun i => Used (stored c num items server rep) i) = rest.filter fun i => Used c i := by
    apply List.filter_congr
    intro i hi
    exact decide_eq_decide.mpr (stored_used_iff (hrest i hi))
  have hkept : ((rest.filter fun i => Used c i).map fun i => ((stored c num items server rep).entries i).server) =
      (rest.filter fun i => Used c i).map fun i => (c.entries i).server := by
    apply List.map_congr_left
    intro i hi
    rw [stored_entries_of_ne (hrest i (List.mem_of_mem_filter hi))]
  have hold : (if Used c num then (servers c).tail else servers c) =
      (rest.filter fun i => Used c i).map fun i => (c.entries i).server := by
    by_cases hused : Used c num
    · rw [if_pos hused, servers, hlist, List.filter_cons_of_pos (by simpa using hused), List.map_cons, List.tail_cons]
    · rw [if_neg hused, servers, hlist, List.filter_cons_of_neg (by simpa using hused)]
  have hlast : ([num].filter fun i => Used (stored c num items server rep) i) = [num] := by
    simp [stored_used_self hfirst]
  rw [hold, servers, stored_list hlist, List.filter_append, hfilter, List.map_append, hkept, hlast, List.map_cons,
    List.map_nil, stored_entries_self]

theorem Linked.stored (h : Linked lookup c) (rep : DNSRep) (hlist : c.dnsList = num :: rest) (hfirst : server.head? ≠ some noServer)
    (habsent : server ∉ servers c)
    (hitems : ∀ item, item ∈ items ↔ item = ⟨server.length, lookup server, num⟩ ∨ item ∈ c.dnsCache ∧ item.entry ≠ num)
    (honce : (items.map HItem.entry).Nodup) : Linked lookup (stored c num items server rep) := by
  have hnew : num ∉ rest := (List.nodup_cons.mp (hlist ▸ h.nodup)).1
  have hperm : (rest ++ [num]).Perm c.dnsList := by
    rw [hlist]
    exact List.perm_append_singleton num rest
  have hself : Used (Dns.stored c num items server rep) num := stored_used_self hfirst
  refine ⟨?_, ?_, ?_, honce, ?_, ?_⟩
  · rw [stored_list hlist]
    exact hperm.trans h.all
  · obtain ⟨free, used, hsplit, hfree, hused⟩ := h.behind
    rw [hlist] at hsplit
    rw [stored_list hlist]
    cases free with
    | nil =>
        refine ⟨[], rest ++ [num], rfl, fun i hi => (List.not_mem_nil hi).elim, ?_⟩
        intro i hi
        obtain hi | hi := List.mem_append.mp hi
        · have hne : i ≠ num := fun heq => hnew (heq ▸ hi)
          refine (stored_used_iff hne).mpr (hused i ?_)
          rw [← hsplit.trans (List.nil_append used)]
          exact List.mem_cons_of_mem num hi
        · rw [List.mem_singleton.mp hi]
          exact hself
    | cons first free =>
        obtain ⟨rfl, rfl⟩ := List.cons.inj (hsplit.trans (List.cons_append ..))
        refine ⟨free, used ++ [num], by rw [List.append_assoc], ?_, ?_⟩
        · intro i hi
          have hne : i ≠ num := fun heq => hnew (heq ▸ List.mem_append_left used hi)
          rw [stored_used_iff hne]
          exact hfree i (List.mem_cons_of_mem num hi)
        · intro i hi
          obtain hi | hi := List.mem_append.mp hi
          · have hne : i ≠ num := fun heq => hnew (heq ▸ List.mem_append_right free hi)
            exact (stored_used_iff hne).mpr (hused i hi)
          · rw [List.mem_singleton.mp hi]
            exact hself
  · intro i
    rw [stored_list hlist, hperm.mem_iff]
    constructor
    · intro hi
      obtain ⟨item, hitem, rfl⟩ := List.mem_map.mp hi
      obtain rfl | ⟨hitem, hne⟩ := (hitems item).mp hitem
      · exact ⟨hlist ▸ List.mem_cons_self, hself⟩
      · obtain ⟨hin, hused⟩ := (h.table item.entry).mp (List.mem_map_of_mem hitem)
        exact ⟨hin, (stored_used_iff hne).mpr hused⟩
    · rintro ⟨hin, hused⟩
      by_cases hne : i = num
      · subst hne
        exact List.mem_map.mpr ⟨_, (hitems _).mpr (.inl rfl), rfl⟩
      · obtain ⟨item, hitem, rfl⟩ := List.mem_map.mp ((h.table i).mpr ⟨hin, (stored_used_iff hne).mp hused⟩)
        exact List.mem_map_of_mem ((hitems item).mpr (.inr ⟨hitem, hne⟩))
  · intro item hitem
    obtain rfl | ⟨hitem, hne⟩ := (hitems item).mp hitem
    · simp only
      rw [stored_entries_self]
      exact ⟨rfl, rfl⟩
    · rw [stored_entries_of_ne hne]
      exact h.keys item hitem
  · rw [servers_stored h hlist hfirst, List.nodup_append]
    have hsub : (if Used c num then (servers c).tail else servers c).Sublist (servers c) := by
      split
      · exact List.tail_sublist _
      · exact List.Sublist.refl _
    refine ⟨h.apart.sublist hsub, List.nodup_singleton server, ?_⟩
    rintro key hkey _ hserver rfl
    rw [List.mem_singleton] at hserver
    exact habsent (hserver ▸ hsub.mem hkey)

/-- `updateDNSCache` of a server that fits and is not in the cache puts it at the head, whose server leaves the table. -/
theorem Linked.updateDNSCache_eq (h : Linked lookup c) (hlist : c.dnsList = num :: rest) (hfits : server.length < serverSize)
    (habsent : server ∉ servers c) (rep : DNSRep) :
    ∃ items, updateDNSCache lookup c server rep = .ok (some (Dns.stored c num items server rep)) ∧
      (∀ item, item ∈ items ↔ item = ⟨server.length, lookup server, num⟩ ∨ item ∈ c.dnsCache ∧ item.entry ≠ num) ∧
      (items.map HItem.entry).Nodup := by
  have hin : num ∈ c.dnsList := hlist ▸ List.mem_cons_self
  have hgo : ¬ (Used c num ∧ hfind lookup c (c.entries num).server = none) := by
    rintro ⟨hused, hnone⟩
    exact h.hfind_none_iff.mp hnone (mem_servers.mpr ⟨num, hin, hused, rfl⟩)
  -- the table once the head has left it
  obtain ⟨left, hleft⟩ : ∃ left, left = (if Used c num then hdel lookup c (c.entries num).server else c) := ⟨_, rfl⟩
  have hentries : left.entries = c.entries := by
    rw [hleft]
    split <;> rfl
  have hdnsList : left.dnsList = c.dnsList := by
    rw [hleft]
    split <;> rfl
  have hwithout : ∀ item, item ∈ left.dnsCache ↔ item ∈ c.dnsCache ∧ item.entry ≠ num := by
    rw [hleft]
    exact h.mem_without hin
  have hsub : left.dnsCache.Sublist c.dnsCache := by
    rw [hleft]
    exact sublist_without lookup c num
  have hadded : hadd lookup { left with entries := update left.entries num { left.entries num with server := server } } num =
      { left with
        entries := update left.entries num { left.entries num with server := server }
        dnsCache := ⟨server.length, lookup server, num⟩ :: left.dnsCache } := by
    have hnone : hfind lookup { left with
        entries := update left.entries num { left.entries num with server := server } } server = none := by
      rw [hfind, List.find?_eq_none]
      intro item hitem hmatch
      obtain ⟨hitem, hne⟩ := (hwithout item).mp hitem
      obtain ⟨hhval, hkeyl, hbytes⟩ := of_decide_eq_true hmatch
      simp only [update_of_ne hne, hentries] at hbytes
      have hserver := (h.matches_iff hitem server).mp ⟨hhval, hkeyl, hbytes⟩
      have hitem' := (h.table item.entry).mp (List.mem_map_of_mem hitem)
      exact habsent (mem_servers.mpr ⟨item.entry, hitem'.1, hitem'.2, hserver⟩)
    unfold hadd
    simp only [update_self, hnone]
  refine ⟨⟨server.length, lookup server, num⟩ :: left.dnsCache, ?_, ?_, ?_⟩
  · unfold updateDNSCache
    rw [hlist]
    simp only
    rw [if_neg hgo, inBounds_of (by omega), Run.ok_bind, ← hleft, hadded]
    simp only [update_self, update_idem, movePresentToTail, hentries, hdnsList]
    rfl
  · intro item
    rw [List.mem_cons, hwithout item]
  · rw [List.map_cons, List.nodup_cons]
    refine ⟨?_, h.once.sublist (hsub.map _)⟩
    intro hmem
    obtain ⟨item, hitem, hentry⟩ := List.mem_map.mp hmem
    exact ((hwithout item).mp hitem).2 hentry

theorem Linked.exists_head (h : Linked lookup c) : ∃ num rest, c.dnsList = num :: rest := by
  cases hlist : c.dnsList with
  | nil =>
      have hlength := h.all.length_eq
      rw [hlist, List.length_range] at hlength
      unfold numEntries at hlength
      cases hlength
  | cons num rest => exact ⟨num, rest, rfl⟩

/-- What `updateDNSCache` does with a server that fits, does not look like no server and is not in the cache: where all
places are taken, it evicts the server at the head. -/
theorem Linked.updateDNSCache_spec (h : Linked lookup c) (hfits : server.length < serverSize)
    (hfirst : server.head? ≠ some noServer) (habsent : server ∉ servers c) (rep : DNSRep) :
    ∃ c', updateDNSCache lookup c server rep = .ok (some c') ∧ Linked lookup c' ∧
      ((servers c' = servers c ++ [server]) ∨ ∃ evicted held, servers c = evicted :: held ∧ servers c' = held ++ [server]) ∧
      getDNSInfo lookup c' server = some rep ∧
      ∀ key ∈ servers c', key ≠ server → getDNSInfo lookup c' key = getDNSInfo lookup c key := by
  obtain ⟨num, rest, hlist⟩ := h.exists_head
  obtain ⟨items, hrun, hitems, honce⟩ := h.updateDNSCache_eq hlist hfits habsent rep
  have hlinked := h.stored rep hlist hfirst habsent hitems honce
  refine ⟨_, hrun, hlinked, ?_, ?_, ?_⟩
  · rw [servers_stored h hlist hfirst]
    by_cases hused : Used c num
    · rw [if_pos hused]
      refine .inr ⟨(c.entries num).server, (servers c).tail, ?_, rfl⟩
      rw [servers, hlist, List.filter_cons_of_pos (by simpa using hused), List.map_cons, List.tail_cons]
    · rw [if_neg hused]
      exact .inl rfl
  · rw [hlinked.getDNSInfo_iff]
    refine ⟨num, ?_, stored_used_self hfirst, by rw [stored_entries_self], by rw [stored_entries_self]⟩
    rw [stored_list hlist]
    exact List.mem_append_right rest List.mem_cons_self
  · intro key hkey hne
    obtain ⟨i, hi, hused, hserver⟩ := mem_servers.mp hkey
    have hnum : i ≠ num := by
      rintro rfl
      rw [stored_entries_self] at hserver
      exact hne hserver.symm
    have hi' : i ∈ c.dnsList := by
      rw [stored_list hlist, List.mem_append, List.mem_singleton] at hi
      rw [hlist]
      exact List.mem_cons_of_mem num (hi.resolve_right hnum)
    have hold : getDNSInfo lookup c key = some (c.entries i).dnsEntry :=
      h.getDNSInfo_iff.mpr ⟨i, hi', (stored_used_iff hnum).mp hused, by rwa [stored_entries_of_ne hnum] at hserver, rfl⟩
    have hnow := hlinked.getDNSInfo_iff.mpr ⟨i, hi, hused, hserver, rfl⟩
    rw [hnow, hold, stored_entries_of_ne hnum]

/-- A server that looks like no server leaves an item in the table whose entry is not in use. -/
theorem Linked.updateDNSCache_unlinked (h : Linked lookup c) (hfits : server.length < serverSize)
    (hfirst : server.head? = some noServer) (habsent : server ∉ servers c) {c' : DNSCache}
    (hrun : updateDNSCache lookup c server rep = .ok (some c')) : ¬ Linked lookup c' := by
  obtain ⟨num, rest, hlist⟩ := h.exists_head
  obtain ⟨items, hrun', hitems, -⟩ := h.updateDNSCache_eq hlist hfits habsent rep
  rw [hrun'] at hrun
  cases hrun
  intro hlinked
  have hitem : num ∈ items.map HItem.entry := List.mem_map.mpr ⟨_, (hitems _).mpr (.inl rfl), rfl⟩
  have hused := ((hlinked.table num).mp hitem).2
  rw [Used, stored_entries_self] at hused
  exact hused hfirst

end Store

end Dns

end BeagleCache

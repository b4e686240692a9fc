import BeagleCache.TempTable
import BeagleCache.ChunkRequests

/-! The tables of requests of chunkrequest.c as they are in the memory: a hash table of pointers to lists. `chunk_request_ht` and
`peek_request_ht` differ in what a request is. The loops of `DestroyChunkRequestTable` free the entry that their iterator is at. -/

namespace BeagleCache.RequestTable

open Chains HashTable TableStore TempTable Transition Function Run

variable {σ α : Type}

/-- `chunk_request_ht` with `g_NumChunkRequestsInFlight`, or `peek_request_ht` with `g_NumPeekRequestsInFlight`. `stats` is what
putting a request changes besides. -/
structure Requests (σ α : Type) where
  table : Store Sha1Name (List α)
  inFlight : Int
  stats : σ

/-- A `ChunkRequestInfo` as it stands in a list. -/
structure ChunkEntry where
  cid : ConnectionID
  isRedirected : Bool
  pxyAddr : BitVec 32
  length : BitVec 32
  peerIdx : Int
  isNetwork : Bool
  sentTime : Int

/-- A `PeekRequestInfo`, with the addresses of its two records. -/
structure PeekEntry where
  cid : ConnectionID
  ri : Option Ptr
  cni : Option Ptr
  sentTime : Int

/-- The load of the peers in `g_PeerInfo`. -/
structure PeerLoads where
  networkPendingBytes : Nat → BitVec 32
  diskPendingChunks : Nat → BitVec 32

/-- `MAX_PEER_SIZE` -/
def maxPeerSize : Nat := 1024

/-- What `PutChunkRequest` does between the two lists: the index is asserted and the load is counted. -/
def fillChunkRequest (cri : ChunkEntry) (loads : PeerLoads) : Run PeerLoads := do
  check (cri.peerIdx ≠ -1)
  inBounds (0 ≤ cri.peerIdx ∧ cri.peerIdx < maxPeerSize)
  let i := cri.peerIdx.toNat
  if cri.isNetwork then
    let load := loads.networkPendingBytes i + (cri.length + BitVec.ofNat 32 perChunkResponseOverhead)
    return { loads with networkPendingBytes := update loads.networkPendingBytes i load }
  else return { loads with diskPendingChunks := update loads.diskPendingChunks i (loads.diskPendingChunks i + 1) }

/-- What `PutPeekRequest` asserts of a new entry. -/
def fillPeekRequest (pri : PeekEntry) (_ : Unit) : Run Unit := do
  check (pri.ri ≠ none)
  check (pri.cni ≠ none)

section Functions

variable (limit : Nat → Nat) (fill : α → σ → Run σ)

/-- `CreateChunkRequestTable`, for one of the tables. -/
def createRequestTable (stats : σ) : Run (Requests σ α) :=
  match createHashtable limit 65536 with
  | none => .error .exit
  | some h => .ok ⟨⟨h, fun _ => none⟩, 0, stats⟩

/-- What `PutChunkRequest` and `PutPeekRequest` have in common. The entry holds the other arguments and the time. -/
def putRequest (r : Requests σ α) (sha1name : Sha1Name) (info : α) (m : Malloc) : Run (Requests σ α) := do
  let found ← r.table.search chunkHashFromKeyFnRaw sha1name
  let listed ← match found with
    | some list => pure (list, r.table)
    | none => do
        let table ← r.table.insert chunkHashFromKeyFnRaw limit sha1name [] m
        pure (m.value, table)
  let stats ← fill info r.stats
  let infos ← listed.2.read listed.1
  let table ← listed.2.write listed.1 (infos ++ [info])
  return ⟨table, r.inFlight + 1, stats⟩

/-- The loop of `DestroyChunkRequestList` and `DestroyPeekRequestList`. -/
def freeInfos : List α → Int → Run Int
  | [], inFlight => .ok inFlight
  | _ :: infos, inFlight => do
      check (0 ≤ inFlight - 1)
      freeInfos infos (inFlight - 1)

/-- `DestroyChunkRequestList` and `DestroyPeekRequestList`. -/
def destroyRequestList (r : Requests σ α) (sha1name : Sha1Name) : Run (Requests σ α) := do
  let removed ← r.table.remove chunkHashFromKeyFnRaw sha1name
  match removed.1 with
  | none => .error .exit
  | some list => do
      let infos ← removed.2.read list
      let inFlight ← freeInfos infos r.inFlight
      let table ← removed.2.free list
      return ⟨table, inFlight, r.stats⟩

/-- A loop of `DestroyChunkRequestTable`. -/
def destroyLists : Nat → Requests σ α → Itr → Run (Requests σ α)
  | 0, _, _ => .error .hang
  | fuel + 1, r, itr => do
      let k ← hashtableIteratorKey r.table.ht itr
      let r ← destroyRequestList r k
      let next ← hashtableIteratorAdvance r.table.ht itr
      if next.1 then destroyLists fuel r next.2 else return r

/-- The half of `DestroyChunkRequestTable` for one of the tables, with the memory that it leaves. -/
def destroyRequests (r : Requests σ α) : Run (Heap Ptr (Entry Sha1Name Ptr)) := do
  let r ← if 0 < hashtableCount r.table.ht then
      destroyLists (hashtableCount r.table.ht + 1) r (hashtableIterator r.table.ht)
    else pure r
  hashtableDestroy r.table.ht

/-- A call on a table of requests. -/
inductive RequestCall (α : Type)
  | put (sha1name : Sha1Name) (info : α) (m : Malloc)
  | destroy (sha1name : Sha1Name)

def tableNext (r : Requests σ α) : RequestCall α → Run (Requests σ α)
  | .put sha1name info m => putRequest limit fill r sha1name info m
  | .destroy sha1name => destroyRequestList r sha1name

/-- What a call allocates is new. -/
def Allocates (r : Requests σ α) : RequestCall α → Prop
  | .put _ _ m => m.Fresh r.table
  | .destroy _ => True

def tableSystem (stats : σ) : System (Requests σ α) (RequestCall α) :=
  (System.ofNext (fun r => createRequestTable limit stats = .ok r) (tableNext limit fill)).restrict Allocates

end Functions

section Members

variable (limit : Nat → Nat)

/-- `PutChunkRequest`. -/
def putChunkRequest (r : Requests PeerLoads ChunkEntry) (sha1name : Sha1Name) (cri : ChunkEntry) (m : Malloc) :
    Run (Requests PeerLoads ChunkEntry) :=
  putRequest limit fillChunkRequest r sha1name cri m

/-- `PutPeekRequest`. -/
def putPeekRequest (r : Requests Unit PeekEntry) (sha1name : Sha1Name) (pri : PeekEntry) (m : Malloc) : Run (Requests Unit PeekEntry) :=
  putRequest limit fillPeekRequest r sha1name pri m

/-- `DestroyChunkRequestList`. -/
def destroyChunkRequestList (r : Requests PeerLoads ChunkEntry) (sha1name : Sha1Name) : Run (Requests PeerLoads ChunkEntry) :=
  destroyRequestList r sha1name

/-- `DestroyPeekRequestList`. -/
def destroyPeekRequestList (r : Requests Unit PeekEntry) (sha1name : Sha1Name) : Run (Requests Unit PeekEntry) :=
  destroyRequestList r sha1name

/-- `DestroyChunkRequestTable`. -/
def destroyChunkRequestTable (chunk : Requests PeerLoads ChunkEntry) (peek : Requests Unit PeekEntry) : Run Unit := do
  let _ ← destroyRequests chunk
  let _ ← destroyRequests peek
  return ()

/-- A call on `chunk_request_ht`. -/
def chunkNext (r : Requests PeerLoads ChunkEntry) : RequestCall ChunkEntry → Run (Requests PeerLoads ChunkEntry)
  | .put sha1name cri m => putChunkRequest limit r sha1name cri m
  | .destroy sha1name => destroyChunkRequestList r sha1name

/-- A call on `peek_request_ht`. -/
def peekNext (r : Requests Unit PeekEntry) : RequestCall PeekEntry → Run (Requests Unit PeekEntry)
  | .put sha1name pri m => putPeekRequest limit r sha1name pri m
  | .destroy sha1name => destroyPeekRequestList r sha1name

def chunkSystem (loads : PeerLoads) : System (Requests PeerLoads ChunkEntry) (RequestCall ChunkEntry) :=
  (System.ofNext (fun r => createRequestTable limit loads = .ok r) (chunkNext limit)).restrict Allocates

def peekSystem : System (Requests Unit PeekEntry) (RequestCall PeekEntry) :=
  (System.ofNext (fun r => createRequestTable limit () = .ok r) (peekNext limit)).restrict Allocates

theorem chunkNext_eq : chunkNext limit = tableNext limit fillChunkRequest := by
  funext r call
  cases call <;> rfl

theorem peekNext_eq : peekNext limit = tableNext limit fillPeekRequest := by
  funext r call
  cases call <;> rfl

end Members

/-! ## The table is a queue -/

section Queue

/-- The requests for a name. -/
def requestsFor (sha1name : Sha1Name) (queue : List (Sha1Name × α)) : List α :=
  (queue.filter fun request => request.1 = sha1name).map Prod.snd

/-- The requests of all names in the order in which they were put. -/
structure Queue (σ α : Type) where
  requests : List (Sha1Name × α)
  stats : σ

/-- The call on the queue. -/
def queueNext (fill : α → σ → Run σ) (queue : Queue σ α) : RequestCall α → Run (Queue σ α)
  | .put sha1name info _ => do
      let stats ← fill info queue.stats
      return ⟨queue.requests ++ [(sha1name, info)], stats⟩
  | .destroy sha1name =>
      if requestsFor sha1name queue.requests = [] then .error .exit
      else .ok ⟨queue.requests.filter fun request => request.1 ≠ sha1name, queue.stats⟩

def queueSystem (fill : α → σ → Run σ) (stats : σ) : System (Queue σ α) (RequestCall α) := .ofNext (· = ⟨[], stats⟩) (queueNext fill)

/-- The lists of the names that have requests. -/
def listsOf (queue : List (Sha1Name × α)) (sha1name : Sha1Name) : Option (List α) :=
  if requestsFor sha1name queue = [] then none else some (requestsFor sha1name queue)

/-- The table has the requests of a queue. -/
structure Keeps (r : Requests σ α) (queue : Queue σ α) : Prop where
  stores : Stores chunkHashFromKeyFnRaw r.table (listsOf queue.requests)
  inFlight : r.inFlight = queue.requests.length
  stats : r.stats = queue.stats

section Lists

variable {queue : List (Sha1Name × α)} {sha1name : Sha1Name} {info : α}

theorem requestsFor_append : requestsFor sha1name (queue ++ [(sha1name, info)]) = requestsFor sha1name queue ++ [info] := by
  simp [requestsFor]

theorem requestsFor_append_of_ne {n : Sha1Name} (hne : n ≠ sha1name) :
    requestsFor n (queue ++ [(sha1name, info)]) = requestsFor n queue := by
  simp [requestsFor, hne.symm]

theorem listsOf_append : listsOf (queue ++ [(sha1name, info)]) =
    update (listsOf queue) sha1name (some (requestsFor sha1name queue ++ [info])) := by
  funext n
  by_cases hn : n = sha1name
  · subst hn
    rw [update_self, listsOf, requestsFor_append, if_neg (List.append_ne_nil_of_right_ne_nil _ (List.cons_ne_nil _ _))]
  · rw [update_of_ne hn, listsOf, requestsFor_append_of_ne hn]
    rfl

theorem listsOf_filter : listsOf (queue.filter fun request => request.1 ≠ sha1name) = update (listsOf queue) sha1name none := by
  funext n
  have hcompose : requestsFor n (queue.filter fun request => request.1 ≠ sha1name) =
      (queue.filter fun request => request.1 = n ∧ request.1 ≠ sha1name).map Prod.snd := by
    rw [requestsFor, List.filter_filter]
    simp only [Bool.decide_and]
  by_cases hn : n = sha1name
  · subst hn
    have hnone : requestsFor n (queue.filter fun request => request.1 ≠ n) = [] := by
      rw [hcompose, List.map_eq_nil_iff, List.filter_eq_nil_iff]
      intro request _ hboth
      exact (of_decide_eq_true hboth).2 (of_decide_eq_true hboth).1
    rw [update_self, listsOf, if_pos hnone]
  · have hsame : requestsFor n (queue.filter fun request => request.1 ≠ sha1name) = requestsFor n queue := by
      rw [hcompose, requestsFor]
      refine congrArg (List.map Prod.snd) (List.filter_congr fun request _ => ?_)
      refine decide_eq_decide.mpr (and_iff_left_of_imp fun heq => ?_)
      rw [heq]
      exact hn
    rw [update_of_ne hn, listsOf, hsame]
    rfl

variable (queue sha1name) in
theorem length_filter : ((queue.filter fun request => request.1 ≠ sha1name).length : Int) =
    queue.length - (requestsFor sha1name queue).length := by
  have hsplit := List.length_eq_length_filter_add (l := queue) fun request => decide (request.1 = sha1name)
  have hnot : (queue.filter fun request => !decide (request.1 = sha1name)) = queue.filter fun request => request.1 ≠ sha1name := by
    refine List.filter_congr fun request _ => ?_
    exact (decide_not ..).symm
  rw [hnot] at hsplit
  rw [requestsFor, List.length_map]
  omega

theorem freeInfos_eq {infos : List α} {inFlight : Int} (hle : (infos.length : Int) ≤ inFlight) :
    freeInfos infos inFlight = .ok (inFlight - infos.length) := by
  induction infos generalizing inFlight with
  | nil =>
      rw [freeInfos, List.length_nil, Int.ofNat_zero, Int.sub_zero]
  | cons info infos ih =>
      rw [List.length_cons] at hle
      push_cast at hle
      have hpos : 0 ≤ inFlight - 1 := by omega
      rw [freeInfos, check_of hpos, ok_bind, ih (by omega), List.length_cons]
      push_cast
      rw [Int.sub_sub, Int.add_comm 1]

end Lists

variable {limit : Nat → Nat} {fill : α → σ → Run σ} {stats : σ} {r : Requests σ α} {queue : Queue σ α} {sha1name : Sha1Name} {info : α}

variable (limit fill sha1name info) in
/-- The new entry comes behind those of its name, if it can be filled. -/
theorem putRequest_eq (h : Keeps r queue) {m : Malloc} (hfresh : m.Fresh r.table) :
    ∃ table, Stores chunkHashFromKeyFnRaw table (listsOf (queue.requests ++ [(sha1name, info)])) ∧
      putRequest limit fill r sha1name info m = (fill info r.stats >>= fun stats => .ok ⟨table, r.inFlight + 1, stats⟩) := by
  obtain ⟨hnone, hsearch⟩ | ⟨infos, list, hsearch, hhas⟩ := h.stores.search sha1name
  · have hempty : requestsFor sha1name queue.requests = [] := by
      unfold listsOf at hnone
      split at hnone
      · assumption
      · cases hnone
    obtain ⟨table, hinsert, -, hhas⟩ := h.stores.insert limit hnone hfresh []
    obtain ⟨table', hwrite, hstores⟩ := hhas.write ([] ++ [info])
    refine ⟨table', ?_, ?_⟩
    · rw [listsOf_append, hempty]
      rwa [update_idem] at hstores
    · simp only [putRequest, hsearch, ok_bind, hinsert, pure_eq_ok, hhas.read, hwrite]
  · have hinfos : infos = requestsFor sha1name queue.requests := by
      have hvalue := hhas.value
      unfold listsOf at hvalue
      split at hvalue
      · cases hvalue
      · exact (Option.some.inj hvalue).symm
    obtain ⟨table', hwrite, hstores⟩ := hhas.write (infos ++ [info])
    refine ⟨table', ?_, ?_⟩
    · rw [listsOf_append, ← hinfos]
      exact hstores
    · simp only [putRequest, hsearch, ok_bind, pure_eq_ok, hhas.read, hwrite]

theorem inFlight_append (h : Keeps r queue) : r.inFlight + 1 = ((queue.requests ++ [(sha1name, info)]).length : Int) := by
  rw [List.length_append, List.length_singleton, h.inFlight]
  rfl

theorem put_keeps (h : Keeps r queue) {m : Malloc} (hfresh : m.Fresh r.table) :
    Agree Keeps (putRequest limit fill r sha1name info m) (queueNext fill queue (.put sha1name info m)) := by
  obtain ⟨table, hstores, hput⟩ := putRequest_eq limit fill sha1name info h hfresh
  rw [hput, queueNext, h.stats]
  cases fill info queue.stats with
  | error f => exact .failed f
  | ok stats => exact .returned ⟨hstores, inFlight_append h, rfl⟩

variable (limit fill sha1name info) in
theorem exists_put (h : Keeps r queue) (hfill : fill info r.stats = .ok stats) :
    ∃ m r', m.Fresh r.table ∧ putRequest limit fill r sha1name info m = .ok r' ∧
      Keeps r' ⟨queue.requests ++ [(sha1name, info)], stats⟩ := by
  obtain ⟨m, hfresh⟩ := h.stores.fresh
  obtain ⟨table, hstores, hput⟩ := putRequest_eq limit fill sha1name info h hfresh
  rw [hfill] at hput
  exact ⟨m, _, hfresh, hput, hstores, inFlight_append h, rfl⟩

theorem destroy_cases (h : Keeps r queue) (sha1name : Sha1Name) :
    (requestsFor sha1name queue.requests = [] ∧ (∃ table, r.table.remove chunkHashFromKeyFnRaw sha1name = .ok (none, table)) ∧
        destroyRequestList r sha1name = .error .exit) ∨
      ∃ list table r', requestsFor sha1name queue.requests ≠ [] ∧ r.table.remove chunkHashFromKeyFnRaw sha1name = .ok (some list, table) ∧
        destroyRequestList r sha1name = .ok r' ∧ r'.table.ht = table.ht ∧
        Keeps r' ⟨queue.requests.filter fun request => request.1 ≠ sha1name, queue.stats⟩ := by
  obtain ⟨hnone, table, hremove, -⟩ | ⟨infos, list, table, table', hsome, hremove, hread, hfree, hstores⟩ := h.stores.remove sha1name
  · refine .inl ⟨?_, ⟨table, hremove⟩, ?_⟩
    · unfold listsOf at hnone
      split at hnone
      · assumption
      · cases hnone
    · rw [destroyRequestList, hremove]
      rfl
  · have hinfos : requestsFor sha1name queue.requests ≠ [] ∧ infos = requestsFor sha1name queue.requests := by
      unfold listsOf at hsome
      split at hsome
      · cases hsome
      · rename_i hne
        exact ⟨hne, (Option.some.inj hsome).symm⟩
    have hlength := length_filter queue.requests sha1name
    have hle : (infos.length : Int) ≤ r.inFlight := by
      rw [h.inFlight, hinfos.2]
      omega
    have hht : table'.ht = table.ht := by
      obtain ⟨value, -, hfreed⟩ := bind_eq_ok.mp hfree
      cases hfreed
      rfl
    refine .inr ⟨list, table, ⟨table', r.inFlight - infos.length, r.stats⟩, hinfos.1, hremove, ?_, hht, ?_, ?_, h.stats⟩
    · simp only [destroyRequestList, hremove, ok_bind, hread, freeInfos_eq hle, hfree, pure_eq_ok]
    · rw [listsOf_filter]
      exact hstores
    · rw [hlength, h.inFlight, hinfos.2]

theorem destroy_keeps (h : Keeps r queue) (sha1name : Sha1Name) :
    Agree Keeps (destroyRequestList r sha1name) (queueNext fill queue (.destroy sha1name)) := by
  show Agree Keeps _ (if requestsFor sha1name queue.requests = [] then .error .exit
    else .ok ⟨queue.requests.filter fun request => request.1 ≠ sha1name, queue.stats⟩)
  obtain ⟨hempty, -, hexit⟩ | ⟨list, table, r', hne, -, hdestroy, -, hkeeps⟩ := destroy_cases h sha1name
  · rw [if_pos hempty, hexit]
    exact .failed _
  · rw [if_neg hne, hdestroy]
    exact .returned hkeeps

theorem table_keeps (h : Keeps r queue) {call : RequestCall α} (hcall : Allocates r call) :
    Agree Keeps (tableNext limit fill r call) (queueNext fill queue call) := by
  cases call with
  | put sha1name info m => exact put_keeps h hcall
  | destroy sha1name => exact destroy_keeps h sha1name

theorem table_simulates_queue : System.Simulation (tableSystem limit fill stats) (queueSystem fill stats) Keeps where
  init := by
    intro r hcreate
    refine ⟨⟨[], stats⟩, rfl, ?_⟩
    unfold tableSystem System.ofNext System.restrict createRequestTable at hcreate
    cases hinit : (createHashtable limit 65536 : Option (Hashtable Sha1Name Ptr)) with
    | none => simp [hinit] at hcreate
    | some h =>
        simp only [hinit, Except.ok.injEq] at hcreate
        subst hcreate
        exact ⟨stores_create hinit, rfl, rfl⟩
  step := by
    rintro r queue call r' hkeeps ⟨hallocates, hstep⟩
    have hagree : Agree Keeps (tableNext limit fill r call) (queueNext fill queue call) := table_keeps hkeeps hallocates
    rw [show tableNext limit fill r call = .ok r' from hstep] at hagree
    generalize hnext : queueNext fill queue call = result at hagree
    cases hagree with
    | returned hkeeps' => exact ⟨_, hnext, hkeeps'⟩

/-! ## The table is destroyed -/

theorem remove_head {K V : Type} [DecidableEq K] {hashfn : K → BitVec 32} {h : Hashtable K V} {chains : Nat → List (Ptr × Entry K V)}
    (hl : Linked hashfn h chains) {i : Nat} (hi : i < h.tablelength) {x : Ptr × Entry K V} {after : List (Ptr × Entry K V)}
    (hchain : chains i = x :: after) : ∃ h', hashtableRemove hashfn h x.2.k = .ok (some x.2.v, h') ∧ h'.nodes x.1 = none := by
  have hmem : x ∈ chains i := by
    rw [hchain]
    exact List.mem_cons_self
  have hhash : x.2.h = hash hashfn x.2.k := hl.hashed i hi x hmem
  have hindex : indexFor h.tablelength (hash hashfn x.2.k) = i := hhash ▸ hl.placed i hi x hmem
  have hall := hl.layout.chain i hi
  rw [hchain] at hall
  have hslot : h.slot i = .ok (some x.1) := by rw [slot_of_lt hi, hl.layout.heads i hi, hchain, first_cons]
  refine ⟨{ h with
    nodes := update h.nodes x.1 none
    table := update h.table i (first after)
    entrycount := h.entrycount - 1 }, ?_, update_self ..⟩
  have hfree : Hashtable.free { h with table := update h.table i (first after), entrycount := h.entrycount - 1 } x.1 =
      .ok { h with
        nodes := update h.nodes x.1 none
        table := update h.table i (first after)
        entrycount := h.entrycount - 1 } := HashTable.free_of hall.1
  simp only [hashtableRemove, hindex, hslot, ok_bind, removeChain, entry_of hall.1, hhash, and_self, if_true, Hashtable.setLink,
    inBounds_of hi, pure_eq_ok, hfree]

/-- `DestroyChunkRequestTable` reads the entry of a request behind the free of it. -/
theorem destroyRequests_of_ne_nil (h : Keeps r queue) (hne : queue.requests ≠ []) : destroyRequests r = .error .overrun := by
  have hcount : hashtableCount r.table.ht ≠ 0 := by
    intro hzero
    obtain ⟨hnone, -⟩ := h.stores.of_count hzero
    obtain ⟨request, hrequest⟩ := List.exists_mem_of_ne_nil queue.requests hne
    have hlist := congrFun hnone request.1
    unfold listsOf at hlist
    split at hlist
    · rename_i hempty
      rw [requestsFor, List.map_eq_nil_iff, List.filter_eq_nil_iff] at hempty
      exact hempty request hrequest (decide_eq_true rfl)
    · cases hlist
  obtain ⟨f, ⟨bag, ⟨chains, hl, -⟩, -⟩, -⟩ := id h.stores
  obtain ⟨x, rest, hat⟩ := iterator_spec hl hcount
  obtain ⟨next, hentry⟩ := hat.entry hl
  obtain ⟨i, before, after, hi, hchain, hitr, hpassed, -⟩ := hat.at_entry
  obtain ⟨-, rfl⟩ := List.append_eq_nil_iff.mp hpassed.symm
  obtain ⟨ht, hcall, hfreed⟩ := remove_head hl hi hchain
  have hremove : r.table.remove chunkHashFromKeyFnRaw x.2.k = .ok (some x.2.v, { r.table with ht := ht }) := by
    rw [Store.remove, hcall]
    rfl
  obtain ⟨-, ⟨table, hgone⟩, -⟩ | ⟨list, table, r', -, hremoved, hdestroy, hht, -⟩ := destroy_cases h x.2.k
  · cases hremove.symm.trans hgone
  · cases hremove.symm.trans hremoved
    have hread : r'.table.ht.entry x.1 = .error .overrun := by
      unfold Hashtable.entry
      rw [hht, hfreed]
    have hadvance : hashtableIteratorAdvance r'.table.ht (hashtableIterator r.table.ht) = .error .overrun := by
      rw [hitr, hashtableIteratorAdvance]
      show (r'.table.ht.entry x.1 >>= _) = _
      rw [hread]
      rfl
    have hloop : destroyLists (hashtableCount r.table.ht + 1) r (hashtableIterator r.table.ht) = .error .overrun := by
      simp only [destroyLists, hashtableIteratorKey, hentry, ok_bind, pure_eq_ok, hdestroy, hadvance, error_bind]
    rw [destroyRequests, if_pos (Nat.pos_of_ne_zero hcount), hloop]
    rfl

theorem destroyRequests_nil (h : Keeps r queue) (hnil : queue.requests = []) : destroyRequests r = .ok fun _ => none := by
  have hnone : listsOf queue.requests = fun _ => none := by
    rw [hnil]
    rfl
  have hzero : hashtableCount r.table.ht = 0 := by
    rw [h.stores.count, hnone]
    simp
  obtain ⟨f, ⟨bag, ⟨chains, hl, -⟩, -⟩, -⟩ := id h.stores
  rw [destroyRequests, if_neg (by omega)]
  exact hl.destroy

end Queue

section Tables

variable {limit : Nat → Nat} {loads : PeerLoads}

/-- In any run of calls, `chunk_request_ht` and `peek_request_ht` have the requests in the order in which they were put, each list until
it is destroyed, and the counts of requests in flight and the loads of the peers are theirs; every further call does as on such a queue.
Then `DestroyChunkRequestTable` returns exactly if there are none; else it reads an entry that it freed. -/
theorem request_tables {calls : List (RequestCall ChunkEntry)} {peekCalls : List (RequestCall PeekEntry)}
    {chunk : Requests PeerLoads ChunkEntry} {peek : Requests Unit PeekEntry} (hrun : (chunkSystem limit loads).Runs calls chunk)
    (hpeek : (peekSystem limit).Runs peekCalls peek) :
    ∃ chunks peeks, (queueSystem fillChunkRequest loads).Runs calls chunks ∧ Keeps chunk chunks ∧
      (queueSystem fillPeekRequest ()).Runs peekCalls peeks ∧ Keeps peek peeks ∧
      (∀ call, Allocates chunk call → Agree Keeps (chunkNext limit chunk call) (queueNext fillChunkRequest chunks call)) ∧
      (∀ call, Allocates peek call → Agree Keeps (peekNext limit peek call) (queueNext fillPeekRequest peeks call)) ∧
      destroyChunkRequestTable chunk peek = if chunks.requests = [] ∧ peeks.requests = [] then .ok () else .error .overrun := by
  rw [chunkSystem, chunkNext_eq] at hrun
  rw [peekSystem, peekNext_eq] at hpeek
  rw [chunkNext_eq, peekNext_eq]
  obtain ⟨chunks, hchunks, hkeeps⟩ := table_simulates_queue.runs hrun
  obtain ⟨peeks, hpeeks, hkeeps'⟩ := table_simulates_queue.runs hpeek
  refine ⟨chunks, peeks, hchunks, hkeeps, hpeeks, hkeeps', fun call => table_keeps hkeeps, fun call => table_keeps hkeeps', ?_⟩
  by_cases hnil : chunks.requests = []
  · rw [destroyChunkRequestTable, destroyRequests_nil hkeeps hnil, ok_bind]
    by_cases hnil' : peeks.requests = []
    · rw [destroyRequests_nil hkeeps' hnil', if_pos ⟨hnil, hnil'⟩]
      rfl
    · rw [destroyRequests_of_ne_nil hkeeps' hnil', if_neg fun hboth => hnil' hboth.2]
      rfl
  · rw [destroyChunkRequestTable, destroyRequests_of_ne_nil hkeeps hnil, if_neg fun hboth => hnil hboth.1]
    rfl

def idlePeers : PeerLoads := ⟨fun _ => 0, fun _ => 0⟩

/-- A request to the network of peer 3, and one to its own disk. -/
def networkRequest : ChunkEntry := ⟨⟨1, 2, 3, 4⟩, false, 5, 1000, 3, true, 7⟩

def diskRequest : ChunkEntry := ⟨⟨1, 2, 3, 4⟩, false, 5, 1000, 0, false, 8⟩

def peekRequest : PeekEntry := ⟨⟨1, 2, 3, 4⟩, some 1, some 2, 9⟩

/-- Two requests for a chunk are in flight, and one for a peek is answered. -/
theorem request_tables_two : ∃ m₁ m₂ m₃ m₄ chunk peek,
    (chunkSystem id idlePeers).Runs [.put default networkRequest m₁, .put default diskRequest m₂] chunk ∧
      (peekSystem id).Runs [.put default peekRequest m₃, .destroy default] peek ∧
      destroyChunkRequestTable chunk peek = .error .overrun ∧
      chunkNext id chunk (.put default { networkRequest with peerIdx := -1 } m₄) = .error .assertion := by
  obtain ⟨h, hcreate⟩ : ∃ h : Hashtable Sha1Name Ptr, createHashtable id 65536 = some h := ⟨_, rfl⟩
  have hempty {σ α : Type} (stats : σ) : createRequestTable id stats = .ok (⟨⟨h, fun _ => none⟩, 0, stats⟩ : Requests σ α) := by
    unfold createRequestTable
    rw [hcreate]
  have hnew {σ α : Type} (stats : σ) : Keeps (⟨⟨h, fun _ => none⟩, 0, stats⟩ : Requests σ α) ⟨[], stats⟩ :=
    ⟨stores_create hcreate, rfl, rfl⟩
  have hstart : (chunkSystem id idlePeers).Runs [] _ := .start (hempty idlePeers)
  have hpeekStart : (peekSystem id).Runs [] _ := .start (hempty ())
  obtain ⟨m₁, r₁, hfresh₁, hput₁, hkeeps₁⟩ := exists_put id fillChunkRequest default networkRequest (hnew idlePeers) rfl
  obtain ⟨m₂, chunk, hfresh₂, hput₂, hkeeps₂⟩ := exists_put id fillChunkRequest default diskRequest hkeeps₁
    (show fillChunkRequest diskRequest r₁.stats = .ok _ from rfl)
  obtain ⟨m₃, r₃, hfresh₃, hput₃, hkeeps₃⟩ := exists_put id fillPeekRequest default peekRequest (hnew ()) rfl
  obtain ⟨hnone, -⟩ | ⟨-, -, peek, -, -, hdestroy, -, -⟩ := destroy_cases hkeeps₃ default
  · cases hnone
  replace hfresh₁ : Allocates _ (.put default networkRequest m₁) := hfresh₁
  replace hfresh₂ : Allocates _ (.put default diskRequest m₂) := hfresh₂
  replace hfresh₃ : Allocates _ (.put default peekRequest m₃) := hfresh₃
  have hrun : (chunkSystem id idlePeers).Runs [.put default networkRequest m₁, .put default diskRequest m₂] chunk :=
    (hstart.step ⟨hfresh₁, hput₁⟩).step ⟨hfresh₂, hput₂⟩
  have hpeek : (peekSystem id).Runs [.put default peekRequest m₃, .destroy default] peek :=
    (hpeekStart.step ⟨hfresh₃, hput₃⟩).step ⟨trivial, hdestroy⟩
  obtain ⟨chunks, peeks, -, hkeeps, -, -, hnext, -, hall⟩ := request_tables hrun hpeek
  have hne : chunks.requests ≠ [] := by
    intro hnil
    have htwo : chunk.inFlight = 2 := hkeeps₂.inFlight
    have hnone := hkeeps.inFlight
    rw [htwo, hnil] at hnone
    exact absurd hnone (by decide)
  obtain ⟨m₄, hfresh⟩ := hkeeps.stores.fresh
  have hagree := hnext (.put default { networkRequest with peerIdx := -1 } m₄) hfresh
  rw [show queueNext fillChunkRequest chunks (.put default { networkRequest with peerIdx := -1 } m₄) = .error .assertion from rfl]
    at hagree
  refine ⟨m₁, m₂, m₃, m₄, chunk, peek, hrun, hpeek, hall.trans (if_neg fun hboth => hne hboth.1), ?_⟩
  generalize chunkNext id chunk (.put default { networkRequest with peerIdx := -1 } m₄) = result at hagree
  cases hagree with
  | failed => rfl

end Tables

end BeagleCache.RequestTable

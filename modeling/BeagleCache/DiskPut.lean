import BeagleCache.HintTables
import BeagleCache.MemoryCache
import BeagleCache.CacheHistory
import BeagleCache.UserRun

/-! How a proxy stores what it delivered. `QueuePutMessage` queues a delivered block, `ActualPutMissingChunks` cuts it into chunks
again and puts those whose names are not in `disk_hint_ht`, here or at the peer that is responsible, and each of them is recorded in
`disk_hint_ht`. Whether the put is made is decided elsewhere: `PutDisk` drops a chunk when too many puts are waiting. -/

namespace BeagleCache

open Transition Function Run

/-- `MAX_PUT_DISK_QUEUE`. -/
def maxPutDiskQueue : Int := 1024

/-- `PutMessageInfo`. -/
structure PutMessageInfo where
  msg : Bytes
  dstPxyId : Int

/-- A `WAPutRequest` that was written to a peer. -/
structure PutRequest where
  peerIdx : Nat
  sha1name : Sha1Name
  block : Bytes

/-- What the configuration and the peer file say about storing. -/
structure PutConfig where
  chunking : Config
  memCacheOnly : Bool
  /-- `g_PutQueueSize`, in megabytes. -/
  putQueueSize : Nat
  maxCacheSize : Int
  isLocalHost : Nat → Bool

/-- The state of `QueuePutMessage` and the functions behind it. `walk`, `lowLevel` and `dstPxyId` are the loop of
`ActualPutMissingChunks`: the names it did not get to yet. `requests` are the put requests written to peers and `memoryPuts` the
arguments of the calls of `PutMemory`; both are not in the source. -/
structure PutState where
  diskHints : HintTable
  putTmp : TempCache
  cache : CacheState
  memory : MemCache
  rctx : RabinCtx
  messages : List PutMessageInfo
  curPutQueueSize : Nat
  walk : List OneChunkName
  lowLevel : Nat
  dstPxyId : Int
  requests : List PutRequest
  memoryPuts : List (Sha1Name × Bytes)

/-- `PutTempDiskCache`; `buf_len` is the length of `buffer`. -/
def putTempDiskCache (cfg : Config) (sha1 : Bytes → Sha1Name) (tmp : TempCache) (sha1name : Sha1Name) (buffer : Bytes) :
    Run TempCache := do
  check (verifySHA1 cfg sha1 buffer sha1name)
  if buffer.length = 0 then return tmp
  else match tmp sha1name with
    | none => do
        check (buffer.length ≤ maxChunkSize)
        return update tmp sha1name (some ⟨buffer, 1⟩)
    | some _ => .error .exit

/-- `PutDone`. -/
def putDone (tmp : TempCache) (sha1name : Sha1Name) : Run TempCache :=
  match tmp sha1name with
  | none => .ok tmp
  | some value => do
      check (0 < value.pBlock.length)
      return update tmp sha1name none

section Put

variable (pc : PutConfig) (sha1 : Bytes → Sha1Name)

def putDisk (s : PutState) (digest : Sha1Name) (buffer : Bytes) : Run PutState :=
  if s.putTmp digest ≠ none then .ok s
  else if maxPutDiskQueue < s.cache.numPendingSecond then .ok s
  else do
    let putTmp ← putTempDiskCache pc.chunking sha1 s.putTmp digest buffer
    let cache ← sendCacheRequest s.cache ⟨.put, digest.bytes, buffer.length, some buffer⟩
    return { s with putTmp := putTmp, cache := cache }

/-- A put into the local cache. -/
def putLocal (s : PutState) (sha1name : Sha1Name) (block : Bytes) : Run PutState :=
  if pc.memCacheOnly then do
    let memory ← putMemory pc.maxCacheSize s.memory sha1name block
    return { s with memory := memory, memoryPuts := s.memoryPuts ++ [(sha1name, block)] }
  else putDisk pc sha1 s sha1name block

/-- `DistributePutRequest`; `pick` is `PickPeerToRedirect` at the time of the call. -/
def distributePutRequest (pick : Sha1Name → Option Nat) (s : PutState) (sha1name : Sha1Name) (block : Bytes) (dstPxyId : Int) :
    Run PutState :=
  match pick sha1name with
  | none => .error .exit
  | some idx =>
      if pc.isLocalHost idx = true ∨ (idx : Int) = dstPxyId then putLocal pc sha1 s sha1name block
      else do
        let s := { s with requests := s.requests ++ [⟨idx, sha1name, block⟩] }
        if s.putTmp sha1name = none then
          let putTmp ← putTempDiskCache pc.chunking sha1 s.putTmp sha1name block
          return { s with putTmp := putTmp }
        else return s

/-- `QueuePutMessage`; `root` is the first name of the reassembled block with its length. -/
def queuePutMessage (s : PutState) (buffer : Bytes) (dstPxyId : Int) (seqNo : Nat) (root : Option (Sha1Name × Nat)) : Run PutState :=
  if pc.chunking.skipFirstChunk = true ∧ seqNo = 0 then .ok s
  else if root.any (fun cni => cni.2 = buffer.length ∧ getDiskHint s.diskHints cni.1 = true) then .ok s
  else if pc.putQueueSize * 1024 * 1024 < s.curPutQueueSize + buffer.length then .ok s
  else do
    let curPutQueueSize := s.curPutQueueSize + buffer.length
    check (curPutQueueSize ≤ pc.putQueueSize * 1024 * 1024)
    return { s with messages := s.messages ++ [⟨buffer, dstPxyId⟩], curPutQueueSize := curPutQueueSize }

/-- `ProcessPutMessageQueue` takes the oldest message, and `ActualPutMissingChunks` up to its loop; the static table of names holds
`table`. -/
def startPutMessage (table : NameTable) (s : PutState) : Run PutState :=
  match s.messages with
  | [] => .ok s
  | message :: messages => do
      let r ← rechunkBlock pc.chunking table s.rctx message.msg
      let names ← makeTree r.pNames.length r.pli (tableOf table r.pNames)
      let resolved ← resolveWithHint pc.chunking sha1 (getDiskHint s.diskHints) r.pNames.length message.msg r.rbSize r.pli names
      return { s with
        messages := messages
        curPutQueueSize := s.curPutQueueSize - message.msg.length
        rctx := r.rctx
        walk := (List.range r.pNames.length).map resolved.1
        lowLevel := resolved.2
        dstPxyId := message.dstPxyId }

/-- A round of the loop of `ActualPutMissingChunks`. -/
def putMissingChunk (pick : Sha1Name → Option Nat) (s : PutState) : Run PutState :=
  match s.walk with
  | [] => .ok s
  | name :: walk =>
      if s.lowLevel < name.level then .ok { s with walk := [] }
      else if name.isHit = false then do
        check (name.isSha1Ready)
        if getDiskHint s.diskHints name.sha1name = false then
          let s ← distributePutRequest pc sha1 pick s name.sha1name name.content s.dstPxyId
          let diskHints ← putDiskHint s.diskHints name.sha1name
          return { s with diskHints := diskHints, walk := walk }
        else return { s with walk := walk }
      else return { s with walk := walk }

/-- What happens: a block was delivered, a message is taken from the queue, its loop makes a round, a peer sent a put request or a
chunk that is kept, a peer answered a put request, or something happens at the disk cache. -/
inductive PutEvent
  | delivered (buffer : Bytes) (dstPxyId : Int) (seqNo : Nat) (root : Option (Sha1Name × Nat))
  | start (table : NameTable)
  | round (pick : Sha1Name → Option Nat)
  | putRequest (sha1name : Sha1Name) (block : Bytes)
  | putResponse (sha1name : Sha1Name)
  | cache (event : CacheEvent)

/-- The names of the puts among some transactions. -/
def putNames (transactions : List CacheTransactionInfo) : List Bytes :=
  (transactions.filter fun t => t.request.method = .put).map fun t => t.request.sha1name

/-- `PostProcessCachePUT` of the puts whose response was processed. -/
def putsDone (tmp : TempCache) (names : List Bytes) : TempCache := fun name => if name.bytes ∈ names then none else tmp name

def putNext (s : PutState) : PutEvent → Run PutState
  | .delivered buffer dstPxyId seqNo root => queuePutMessage pc s buffer dstPxyId seqNo root
  | .start table => startPutMessage pc sha1 table s
  | .round pick => putMissingChunk pc sha1 pick s
  | .putRequest sha1name block => putLocal pc sha1 s sha1name block
  | .putResponse sha1name => do
      let putTmp ← putDone s.putTmp sha1name
      return { s with putTmp := putTmp }
  | .cache event => do
      let cache ← cacheNext s.cache event
      return { s with cache := cache, putTmp := putsDone s.putTmp (putNames (cache.processed.drop s.cache.processed.length)) }

/-- The state before the first message, with the context `InitRabinCtx` returns. -/
def putInit (s : PutState) : Prop :=
  s.diskHints = ⟨[], []⟩ ∧ s.putTmp = emptyTempCache ∧ s.walk = [] ∧ startRabinCtx pc.chunking = .ok s.rctx

def putSystem : System PutState PutEvent := System.ofNext (putInit pc) (putNext pc sha1)

end Put

/-- A put of the block under the name was sent to the disk cache or to a peer, or it went to the memory cache where this takes the
place of the disk cache. -/
def Issued (s : PutState) (name : Sha1Name) (block : Bytes) : Prop :=
  (∃ t ∈ s.cache.created, t.request = ⟨.put, name.bytes, block.length, some block⟩) ∨
    (∃ idx, ⟨idx, name, block⟩ ∈ s.requests) ∨ (name, block) ∈ s.memoryPuts

/-- A put of every chunk recorded in `disk_hint_ht` was issued. -/
def HintsSound (sha1 : Bytes → Sha1Name) (s : PutState) : Prop :=
  ∀ name ∈ s.diskHints.keys, ∃ block, sha1 block = name ∧ Issued s name block

/-- The chunk of a round is not dropped: where `PutDisk` is called for it, either a put of its content is in progress or the queue
is not too long. -/
def PutAccepted (pc : PutConfig) (sha1 : Bytes → Sha1Name) (s : PutState) : PutEvent → Prop
  | .round pick => ∀ name ∈ s.walk.head?, name.level ≤ s.lowLevel → name.isHit = false → name.sha1name ∉ s.diskHints.keys →
      ∀ idx, pick name.sha1name = some idx → (pc.isLocalHost idx = true ∨ (idx : Int) = s.dstPxyId) → pc.memCacheOnly = false →
        match s.putTmp name.sha1name with
        | some value => sha1 value.pBlock = name.sha1name
        | none => s.cache.numPendingSecond ≤ maxPutDiskQueue
  | _ => True

/-! ## What a put does -/

theorem Issued.mono {s s' : PutState} {name : Sha1Name} {block : Bytes} (h : Issued s name block)
    (hcreated : s.cache.created ⊆ s'.cache.created) (hrequests : s.requests ⊆ s'.requests)
    (hmemory : s.memoryPuts ⊆ s'.memoryPuts) : Issued s' name block := by
  rcases h with ⟨t, ht, heq⟩ | ⟨idx, hidx⟩ | hmem
  · exact .inl ⟨t, hcreated ht, heq⟩
  · exact .inr (.inl ⟨idx, hrequests hidx⟩)
  · exact .inr (.inr (hmemory hmem))

/-- What every put leaves as it is: the hints and the loop; the histories grow, and what is new in `put_tmp_ht` was issued. -/
structure PutKeeps (s s' : PutState) : Prop where
  hints : s'.diskHints = s.diskHints
  rctx : s'.rctx = s.rctx
  walk : s'.walk = s.walk
  lowLevel : s'.lowLevel = s.lowLevel
  created : s.cache.created ⊆ s'.cache.created
  requests : s.requests ⊆ s'.requests
  memoryPuts : s.memoryPuts ⊆ s'.memoryPuts
  tmp : ∀ name value, s'.putTmp name = some value → s.putTmp name = some value ∨ Issued s' name value.pBlock

theorem PutKeeps.refl (s : PutState) : PutKeeps s s :=
  ⟨rfl, rfl, rfl, rfl, List.Subset.refl _, List.Subset.refl _, List.Subset.refl _, fun _ _ h => .inl h⟩

theorem putTempDiskCache_ok {cfg : Config} {sha1 : Bytes → Sha1Name} {tmp tmp' : TempCache} {sha1name : Sha1Name} {buffer : Bytes}
    (h : putTempDiskCache cfg sha1 tmp sha1name buffer = .ok tmp') {name : Sha1Name} {value : CacheValue}
    (hvalue : tmp' name = some value) : tmp name = some value ∨ (name = sha1name ∧ value.pBlock = buffer) := by
  obtain ⟨_, _, h⟩ := bind_eq_ok.mp h
  split at h
  · cases h
    exact .inl hvalue
  · split at h
    · obtain ⟨_, _, h⟩ := bind_eq_ok.mp h
      cases h
      by_cases hname : name = sha1name
      · rw [hname, update_self] at hvalue
        cases hvalue
        exact .inr ⟨hname, rfl⟩
      · rw [update_of_ne hname] at hvalue
        exact .inl hvalue
    · cases h

section PutSteps

variable {pc : PutConfig} {sha1 : Bytes → Sha1Name} {s s' : PutState} {sha1name : Sha1Name} {block : Bytes}

/-- `PutDisk` sends a put unless one is in progress or too many are waiting. -/
theorem putDisk_ok (h : putDisk pc sha1 s sha1name block = .ok s') :
    PutKeeps s s' ∧ (s.putTmp sha1name = none → s.cache.numPendingSecond ≤ maxPutDiskQueue → Issued s' sha1name block) := by
  rw [putDisk] at h
  by_cases hprogress : s.putTmp sha1name ≠ none
  · rw [if_pos hprogress] at h
    cases h
    exact ⟨.refl s, fun hnone => absurd hnone hprogress⟩
  · rw [if_neg hprogress] at h
    by_cases hfull : maxPutDiskQueue < s.cache.numPendingSecond
    · rw [if_pos hfull] at h
      cases h
      exact ⟨.refl s, fun _ hle => absurd hle (not_le.mpr hfull)⟩
    · rw [if_neg hfull] at h
      obtain ⟨putTmp, htmp, h⟩ := bind_eq_ok.mp h
      obtain ⟨cache, hsend, hret⟩ := bind_eq_ok.mp h
      cases hret
      have hcreated := (CacheState.sendCacheRequest_histories hsend).1
      have hissued : Issued { s with putTmp := putTmp, cache := cache } sha1name block := by
        refine .inl ⟨⟨s.cache.created.length, ⟨.put, sha1name.bytes, block.length, some block⟩⟩, ?_, rfl⟩
        show _ ∈ cache.created
        rw [hcreated]
        exact List.mem_append_right _ List.mem_cons_self
      have hgrow : s.cache.created ⊆ cache.created := by
        rw [hcreated]
        exact List.subset_append_left _ _
      refine ⟨⟨rfl, rfl, rfl, rfl, hgrow, List.Subset.refl _, List.Subset.refl _, ?_⟩, fun _ _ => hissued⟩
      intro name value hvalue
      rcases putTempDiskCache_ok htmp hvalue with hold | ⟨rfl, rfl⟩
      · exact .inl hold
      · exact .inr hissued

theorem putLocal_ok (h : putLocal pc sha1 s sha1name block = .ok s') :
    PutKeeps s s' ∧ (pc.memCacheOnly = true ∨ (s.putTmp sha1name = none ∧ s.cache.numPendingSecond ≤ maxPutDiskQueue) →
      Issued s' sha1name block) := by
  rw [putLocal] at h
  by_cases hmode : pc.memCacheOnly = true
  · rw [if_pos hmode] at h
    obtain ⟨memory, _, hret⟩ := bind_eq_ok.mp h
    cases hret
    refine ⟨⟨rfl, rfl, rfl, rfl, List.Subset.refl _, List.Subset.refl _, List.subset_append_left _ _, fun _ _ h => .inl h⟩, fun _ => ?_⟩
    exact .inr (.inr (List.mem_append_right _ List.mem_cons_self))
  · rw [if_neg hmode] at h
    obtain ⟨hkeeps, hissued⟩ := putDisk_ok h
    refine ⟨hkeeps, ?_⟩
    rintro (htrue | ⟨hnone, hle⟩)
    · exact absurd htrue hmode
    · exact hissued hnone hle

/-- `DistributePutRequest` issues a put, unless `PutDisk` is called and drops it. -/
theorem distributePutRequest_ok {pick : Sha1Name → Option Nat} {dstPxyId : Int}
    (h : distributePutRequest pc sha1 pick s sha1name block dstPxyId = .ok s') :
    PutKeeps s s' ∧ ((∀ idx, pick sha1name = some idx → (pc.isLocalHost idx = true ∨ (idx : Int) = dstPxyId) →
      pc.memCacheOnly = true ∨ (s.putTmp sha1name = none ∧ s.cache.numPendingSecond ≤ maxPutDiskQueue)) →
        Issued s' sha1name block) := by
  rw [distributePutRequest] at h
  cases hpick : pick sha1name with
  | none =>
      rw [hpick] at h
      cases h
  | some idx =>
      rw [hpick] at h
      simp only at h
      by_cases hlocal : pc.isLocalHost idx = true ∨ (idx : Int) = dstPxyId
      · rw [if_pos hlocal] at h
        obtain ⟨hkeeps, hissued⟩ := putLocal_ok h
        exact ⟨hkeeps, fun haccept => hissued (haccept idx rfl hlocal)⟩
      · rw [if_neg hlocal] at h
        have hrequest : ∀ putTmp, Issued { s with requests := s.requests ++ [⟨idx, sha1name, block⟩], putTmp := putTmp } sha1name block :=
          fun _ => .inr (.inl ⟨idx, List.mem_append_right _ List.mem_cons_self⟩)
        split at h
        · obtain ⟨putTmp, htmp, hret⟩ := bind_eq_ok.mp h
          cases hret
          refine ⟨⟨rfl, rfl, rfl, rfl, List.Subset.refl _, List.subset_append_left _ _, List.Subset.refl _, ?_⟩, fun _ => hrequest putTmp⟩
          intro name value hvalue
          rcases putTempDiskCache_ok htmp hvalue with hold | ⟨rfl, rfl⟩
          · exact .inl hold
          · exact .inr (hrequest putTmp)
        · cases h
          exact ⟨⟨rfl, rfl, rfl, rfl, List.Subset.refl _, List.subset_append_left _ _, List.Subset.refl _, fun _ _ h => .inl h⟩,
            fun _ => hrequest s.putTmp⟩

end PutSteps

/-! ## Soundness of the hints -/

/-- What holds in every state: the names of the loop are the hashes of their chunks, what is in progress was issued, and so was
what is recorded. -/
structure PutInv (sha1 : Bytes → Sha1Name) (s : PutState) : Prop where
  ready : s.rctx.Ready waproxRabinWindow waproxMrcMin waproxMrcMax
  names : ∀ name ∈ s.walk, name.level ≤ s.lowLevel → name.isSha1Ready = true → name.sha1name = sha1 name.content
  tmp : ∀ name value, s.putTmp name = some value → Issued s name value.pBlock
  sound : HintsSound sha1 s

namespace PutInv

variable {pc : PutConfig} {sha1 : Bytes → Sha1Name} {s s' : PutState}

theorem keeps (h : PutInv sha1 s) (hkeeps : PutKeeps s s') : PutInv sha1 s' := by
  have hmono : ∀ {name block}, Issued s name block → Issued s' name block :=
    fun hissued => hissued.mono hkeeps.created hkeeps.requests hkeeps.memoryPuts
  refine ⟨?_, ?_, ?_, ?_⟩
  · rw [hkeeps.rctx]
    exact h.ready
  · rw [hkeeps.walk, hkeeps.lowLevel]
    exact h.names
  · intro name value hvalue
    rcases hkeeps.tmp name value hvalue with hold | hnew
    · exact hmono (h.tmp name value hold)
    · exact hnew
  · intro name hname
    rw [hkeeps.hints] at hname
    obtain ⟨block, hblock, hissued⟩ := h.sound name hname
    exact ⟨block, hblock, hmono hissued⟩

theorem record (h : PutInv sha1 s) {name : Sha1Name} {block : Bytes} (hblock : sha1 block = name) (hissued : Issued s name block)
    {diskHints : HintTable} (hput : putDiskHint s.diskHints name = .ok diskHints) {walk : List OneChunkName} (hwalk : walk ⊆ s.walk) :
    PutInv sha1 { s with diskHints := diskHints, walk := walk } := by
  refine ⟨h.ready, fun other hother => h.names other (hwalk hother), h.tmp, ?_⟩
  intro other hother
  rcases putSendHintNoDisk_keys hput hother with rfl | hold
  · exact ⟨block, hblock, hissued⟩
  · exact h.sound other hold

theorem advance (h : PutInv sha1 s) {walk : List OneChunkName} (hwalk : walk ⊆ s.walk) : PutInv sha1 { s with walk := walk } :=
  ⟨h.ready, fun name hname => h.names name (hwalk hname), h.tmp, h.sound⟩

/-- A message is cut into chunks: the names of the loop are hashes of their chunks. -/
theorem start (hcfg : pc.chunking.Sized) (h : PutInv sha1 s) {table : NameTable} (hstart : startPutMessage pc sha1 table s = .ok s') :
    PutInv sha1 s' := by
  rw [startPutMessage] at hstart
  split at hstart
  case h_1 =>
      cases hstart
      exact h
  case h_2 message messages _ =>
      obtain ⟨r, hrechunk, hstart⟩ := bind_eq_ok.mp hstart
      obtain ⟨names, htree, hstart⟩ := bind_eq_ok.mp hstart
      obtain ⟨resolved, hresolve, hret⟩ := bind_eq_ok.mp hstart
      cases hret
      have hpre : doPreMRC pc.chunking table s.rctx message.msg = .ok r := by
        obtain ⟨r', hpre, hrechunk⟩ := bind_eq_ok.mp hrechunk
        obtain ⟨_, _, hrechunk⟩ := bind_eq_ok.mp hrechunk
        obtain ⟨_, _, hret⟩ := bind_eq_ok.mp hrechunk
        cases hret
        exact hpre
      obtain ⟨names', htree', hchunks, hfresh, -⟩ := doPreMRC_chunkTree hcfg h.ready hpre
      cases htree.symm.trans htree'
      obtain ⟨names₁, low, hresolve', -, -, -, hresolved⟩ :=
        resolveWithHint_eq pc.chunking sha1 (getDiskHint s.diskHints) hchunks hfresh
      cases hresolve.symm.trans hresolve'
      refine ⟨(doPreMRC_spec hcfg h.ready hpre).1, ?_, h.tmp, h.sound⟩
      intro name hname hlevel hready
      obtain ⟨k, hk, rfl⟩ := List.mem_map.mp hname
      exact (hresolved k (List.mem_range.mp hk) hlevel).name_eq hready

theorem round (h : PutInv sha1 s) {pick : Sha1Name → Option Nat} (haccept : PutAccepted pc sha1 s (.round pick))
    (hround : putMissingChunk pc sha1 pick s = .ok s') : PutInv sha1 s' := by
  rw [putMissingChunk] at hround
  split at hround
  case h_1 =>
      cases hround
      exact h
  case h_2 name walk hwalk =>
      have hsub : walk ⊆ s.walk := by
        rw [hwalk]
        exact List.subset_cons_self _ _
      have hmem : name ∈ s.walk := by
        rw [hwalk]
        exact List.mem_cons_self
      by_cases hlevel : s.lowLevel < name.level
      · rw [if_pos hlevel] at hround
        cases hround
        exact h.advance (List.nil_subset _)
      · rw [if_neg hlevel] at hround
        by_cases hhit : name.isHit = false
        · rw [if_pos hhit] at hround
          obtain ⟨_, hready, hround⟩ := bind_eq_ok.mp hround
          by_cases hhint : getDiskHint s.diskHints name.sha1name = false
          · rw [if_pos hhint] at hround
            obtain ⟨s₁, hdistribute, hround⟩ := bind_eq_ok.mp hround
            obtain ⟨diskHints, hput, hret⟩ := bind_eq_ok.mp hround
            cases hret
            obtain ⟨hkeeps, hissued⟩ := distributePutRequest_ok hdistribute
            have hinv₁ := h.keeps hkeeps
            have hname := h.names name hmem (not_lt.mp hlevel) (check_eq_ok.mp hready)
            have hsub₁ : walk ⊆ s₁.walk := by
              rw [hkeeps.walk]
              exact hsub
            have haccept' := haccept name (by rw [hwalk]; rfl) (not_lt.mp hlevel) hhit (of_decide_eq_false hhint)
            by_cases hprogress : pc.memCacheOnly = false ∧ ∃ idx, pick name.sha1name = some idx ∧
                (pc.isLocalHost idx = true ∨ (idx : Int) = s.dstPxyId) ∧ s.putTmp name.sha1name ≠ none
            · obtain ⟨hmode, idx, hpick, hlocal, hnone⟩ := hprogress
              obtain ⟨value, hvalue⟩ := Option.ne_none_iff_exists'.mp hnone
              have hhash := haccept' idx hpick hlocal hmode
              rw [hvalue] at hhash
              have hold : Issued s₁ name.sha1name value.pBlock :=
                (h.tmp _ value hvalue).mono hkeeps.created hkeeps.requests hkeeps.memoryPuts
              exact hinv₁.record hhash hold hput hsub₁
            · refine hinv₁.record hname.symm (hissued fun idx hpick hlocal => ?_) hput hsub₁
              by_cases hmode : pc.memCacheOnly = true
              · exact .inl hmode
              · have hdisk : pc.memCacheOnly = false := by simpa using hmode
                have hnone : s.putTmp name.sha1name = none := by
                  by_contra hsome
                  exact hprogress ⟨hdisk, idx, hpick, hlocal, hsome⟩
                have hroom := haccept' idx hpick hlocal hdisk
                rw [hnone] at hroom
                exact .inr ⟨hnone, hroom⟩
          · rw [if_neg hhint] at hround
            cases hround
            exact h.advance hsub
        · rw [if_neg hhit] at hround
          cases hround
          exact h.advance hsub

theorem forget (h : PutInv sha1 s) {putTmp : TempCache} (htmp : ∀ name value, putTmp name = some value → s.putTmp name = some value)
    {cache : CacheState} (hcreated : s.cache.created ⊆ cache.created) : PutInv sha1 { s with cache := cache, putTmp := putTmp } :=
  have hmono : ∀ {name block}, Issued s name block → Issued { s with cache := cache, putTmp := putTmp } name block :=
    fun hissued => hissued.mono hcreated (List.Subset.refl _) (List.Subset.refl _)
  ⟨h.ready, h.names, fun name value hvalue => hmono (h.tmp name value (htmp name value hvalue)), fun name hname => by
    obtain ⟨block, hblock, hissued⟩ := h.sound name hname
    exact ⟨block, hblock, hmono hissued⟩⟩

theorem next (hcfg : pc.chunking.Sized) (h : PutInv sha1 s) {event : PutEvent} (haccept : PutAccepted pc sha1 s event)
    (hnext : putNext pc sha1 s event = .ok s') : PutInv sha1 s' := by
  cases event with
  | delivered buffer dstPxyId seqNo root =>
      have hqueue : queuePutMessage pc s buffer dstPxyId seqNo root = .ok s' := hnext
      rw [queuePutMessage] at hqueue
      split at hqueue
      · cases hqueue
        exact h
      · split at hqueue
        · cases hqueue
          exact h
        · split at hqueue
          · cases hqueue
            exact h
          · obtain ⟨_, _, hret⟩ := bind_eq_ok.mp hqueue
            cases hret
            exact ⟨h.ready, h.names, h.tmp, h.sound⟩
  | start table => exact h.start hcfg hnext
  | round pick => exact h.round haccept hnext
  | putRequest sha1name block => exact h.keeps (putLocal_ok hnext).1
  | putResponse sha1name =>
      obtain ⟨putTmp, hdone, hret⟩ := bind_eq_ok.mp hnext
      cases hret
      refine h.forget ?_ (List.Subset.refl _)
      intro name value hvalue
      rw [putDone] at hdone
      split at hdone
      · cases hdone
        exact hvalue
      · obtain ⟨_, _, hret⟩ := bind_eq_ok.mp hdone
        cases hret
        by_cases hname : name = sha1name
        · rw [hname, update_self] at hvalue
          cases hvalue
        · rwa [update_of_ne hname] at hvalue
  | cache event =>
      obtain ⟨cache, hcache, hret⟩ := bind_eq_ok.mp hnext
      cases hret
      refine h.forget ?_ (CacheState.cacheNext_grown hcache).created.subset
      intro name value hvalue
      rw [putsDone] at hvalue
      split at hvalue
      · cases hvalue
      · exact hvalue

theorem init (hinit : putInit pc s) : PutInv sha1 s := by
  obtain ⟨hhints, htmp, hwalk, hctx⟩ := hinit
  refine ⟨initRabinCtx_ready (by decide) hctx, ?_, ?_, ?_⟩
  · rw [hwalk]
    exact fun name hname => absurd hname List.not_mem_nil
  · rw [htmp]
    intro name value hvalue
    cases hvalue
  · intro name hname
    rw [hhints] at hname
    exact absurd hname List.not_mem_nil

end PutInv

/-- In every run in which `ActualPutMissingChunks` never puts a chunk that `PutDisk` drops, a put of every chunk recorded in
`disk_hint_ht` was issued. -/
theorem disk_hints_sound {pc : PutConfig} {sha1 : Bytes → Sha1Name} (hcfg : pc.chunking.Sized) {events : List PutEvent} {s : PutState}
    (hrun : ((putSystem pc sha1).restrict (PutAccepted pc sha1)).Runs events s) : HintsSound sha1 s := by
  have hinv : ((putSystem pc sha1).restrict (PutAccepted pc sha1)).Invariant (PutInv sha1) :=
    ⟨fun s hinit => PutInv.init hinit, fun s event s' h hstep => h.next hcfg hstep.1 hstep.2⟩
  exact (hinv.holds hrun).sound

/-! ## A queue that is too long -/

/-- Some names, all different. -/
def floodName (k : Nat) : Sha1Name := ⟨[BitVec.ofNat 8 (k / 256), BitVec.ofNat 8 (k % 256)] ++ List.replicate 18 0, rfl⟩

def floodTransactions (n : Nat) : List CacheTransactionInfo :=
  (List.range n).map fun k => ⟨k, ⟨.put, (floodName k).bytes, 1, some [0]⟩⟩

/-- The disk cache is away, and `n` chunks of peers wait for it. -/
def flooded (rctx : RabinCtx) (n : Nat) : PutState where
  diskHints := ⟨[], []⟩
  putTmp := fun name => if ∃ k < n, floodName k = name then some ⟨[0], 1⟩ else none
  cache := { initDiskCache 0 with secondClass := floodTransactions n, numPendingSecond := n, created := floodTransactions n }
  memory := emptyMemCache
  rctx := rctx
  messages := []
  curPutQueueSize := 0
  walk := []
  lowLevel := 0
  dstPxyId := 0
  requests := []
  memoryPuts := []

/-- A proxy that is the peer with index 0. -/
def samplePutConfig : PutConfig where
  chunking := sampleConfig
  memCacheOnly := false
  putQueueSize := 10
  maxCacheSize := 0
  isLocalHost := fun idx => idx = 0

theorem floodName_inj {k n : Nat} (hk : k < 65536) (hn : n < 65536) (h : floodName k = floodName n) : k = n := by
  have hbytes := congrArg Sha1Name.bytes h
  simp only [floodName, List.cons_append, List.cons.injEq] at hbytes
  have hhigh := congrArg BitVec.toNat hbytes.1
  have hlow := congrArg BitVec.toNat hbytes.2.1
  rw [BitVec.toNat_ofNat, BitVec.toNat_ofNat] at hhigh hlow
  omega

theorem issuePendingCacheRequests_away {s : CacheState} (h : s.connections = []) : issuePendingCacheRequests s = .ok s := by
  have hlist : ∀ walks numPending, issueList walks numPending [] = .ok (walks, numPending, []) := by
    intro walks numPending
    cases walks <;> rfl
  rw [issuePendingCacheRequests, h, hlist, ok_bind]
  dsimp only
  rw [hlist, ok_bind, pure_eq_ok, ← h]

theorem flooded_step (rctx : RabinCtx) {n : Nat} (hn : n ≤ 1024) :
    putNext samplePutConfig calcSHA1Sig (flooded rctx n) (.putRequest (floodName n) [0]) = .ok (flooded rctx (n + 1)) := by
  have hnew : (flooded rctx n).putTmp (floodName n) = none := by
    refine if_neg ?_
    rintro ⟨k, hk, heq⟩
    exact absurd (floodName_inj (by omega) (by omega) heq) (by omega)
  have htmp : update (flooded rctx n).putTmp (floodName n) (some ⟨[0], 1⟩) = (flooded rctx (n + 1)).putTmp := by
    funext name
    by_cases hname : name = floodName n
    · have hsome : ∃ k < n + 1, floodName k = name := ⟨n, Nat.lt_succ_self n, hname.symm⟩
      rw [hname, update_self, ← hname]
      exact (if_pos hsome).symm
    · rw [update_of_ne hname]
      have hiff : (∃ k < n, floodName k = name) ↔ ∃ k < n + 1, floodName k = name := by
        constructor
        · rintro ⟨k, hk, heq⟩
          exact ⟨k, Nat.lt_succ_of_lt hk, heq⟩
        · rintro ⟨k, hk, heq⟩
          have hne : k ≠ n := by
            rintro rfl
            exact hname heq.symm
          exact ⟨k, by omega, heq⟩
      simp only [flooded, hiff]
  have hlength : (floodTransactions n).length = n := by simp [floodTransactions]
  have hsend : sendCacheRequest (flooded rctx n).cache ⟨.put, (floodName n).bytes, 1, some [0]⟩ = .ok (flooded rctx (n + 1)).cache := by
    have hpos : (0 : Int) < 1 := by decide
    rw [sendCacheRequest, check_of (fun _ => hpos), ok_bind]
    dsimp only
    rw [scheduleCacheRequest]
    dsimp only
    rw [issuePendingCacheRequests_away rfl]
    have happend : floodTransactions n ++ [⟨(floodTransactions n).length, ⟨.put, (floodName n).bytes, 1, some [0]⟩⟩] =
        floodTransactions (n + 1) := by
      rw [hlength, floodTransactions, floodTransactions, List.range_succ, List.map_append, List.map_singleton]
    simp only [flooded, happend]
    rfl
  show putDisk samplePutConfig calcSHA1Sig (flooded rctx n) (floodName n) [0] = _
  have hroom : ¬ maxPutDiskQueue < (flooded rctx n).cache.numPendingSecond := by
    show ¬ (1024 : Int) < n
    omega
  have hput : putTempDiskCache samplePutConfig.chunking calcSHA1Sig (flooded rctx n).putTmp (floodName n) [0] =
      .ok (flooded rctx (n + 1)).putTmp := by
    have hverify : verifySHA1 samplePutConfig.chunking calcSHA1Sig [0] (floodName n) = true := rfl
    have hsize : ([0] : Bytes).length ≤ maxChunkSize := by decide
    rw [putTempDiskCache, check_of hverify, ok_bind, if_neg (by decide), hnew]
    dsimp only
    rw [check_of hsize, ok_bind, pure_eq_ok, htmp]
  rw [putDisk, if_neg (not_not.mpr hnew), if_neg hroom, hput, ok_bind]
  have hlen : (([0] : Bytes).length : Int) = 1 := rfl
  rw [hlen, hsend, ok_bind]
  rfl

/-- The requests of the peers. -/
def floodEvents (n : Nat) : List PutEvent := (List.range n).map fun k => .putRequest (floodName k) [0]

theorem flooded_runs {rctx : RabinCtx} (hctx : startRabinCtx sampleConfig = .ok rctx) {n : Nat} (hn : n ≤ 1025) :
    (putSystem samplePutConfig calcSHA1Sig).Runs (floodEvents n) (flooded rctx n) := by
  induction n with
  | zero =>
      have hempty : (flooded rctx 0).putTmp = emptyTempCache := by
        funext name
        simp [flooded, emptyTempCache]
      exact .start ⟨rfl, hempty, rfl, hctx⟩
  | succ n ih =>
      have hevents : floodEvents (n + 1) = floodEvents n ++ [.putRequest (floodName n) [0]] := by
        rw [floodEvents, List.range_succ, List.map_append]
        rfl
      rw [hevents]
      exact (ih (by omega)).step (flooded_step rctx (by omega))

/-- A block of 33 bytes that is one chunk tree. -/
def putBlock : Bytes := sampleData.take 33

/-- `ActualPutMissingChunks` of `putBlock` up to its loop, with an empty `disk_hint_ht`. -/
def putBlockRun : Run (RabinCtx × PreMRC × NameTable × NameTable × Nat) := do
  let rctx ← startRabinCtx sampleConfig
  let r ← rechunkBlock sampleConfig default rctx putBlock
  let names ← makeTree r.pNames.length r.pli (tableOf default r.pNames)
  let resolved ← resolveWithHint sampleConfig calcSHA1Sig (getDiskHint ⟨[], []⟩) r.pNames.length putBlock r.rbSize r.pli names
  return (rctx, r, names, resolved)

/-- The state `flooded` after the block was delivered and its message taken from the queue. -/
theorem putBlock_started {n : Nat} (hn : n ≤ 1025) :
    ∃ (s : PutState) (name : OneChunkName) (walk : List OneChunkName),
      (putSystem samplePutConfig calcSHA1Sig).Runs (floodEvents n ++ [.delivered putBlock 9 1 none] ++ [.start default]) s ∧
      (∃ rctx, s.diskHints = ⟨[], []⟩ ∧ s.putTmp = (flooded rctx n).putTmp ∧ s.cache = (flooded rctx n).cache) ∧ s.dstPxyId = 9 ∧
      s.requests = [] ∧ s.memoryPuts = [] ∧ s.walk = name :: walk ∧ name.level ≤ s.lowLevel ∧ name.isHit = false ∧
      name.isSha1Ready = true ∧ name.sha1name.bytes[2]? = some 37 ∧ name.content.length ≤ maxChunkSize := by
  have hlook : putBlockRun.toOption.map (fun (_, r, _, names, low) =>
      ((r.pNames.length, low, (names 0).level, (names 0).content.length), (names 0).isHit, (names 0).isSha1Ready,
        (names 0).sha1name.bytes[2]?)) = some ((3, 1, 0, 33), false, true, some 37) := by decide +kernel
  obtain ⟨⟨rctx, r, names, names₁, low⟩, hrun, hlook⟩ := Run.exists_of_map hlook
  simp only [Prod.mk.injEq] at hlook
  obtain ⟨⟨hnum, hlow, hlevel, hcontent⟩, hhit, hready, hbyte⟩ := hlook
  obtain ⟨rctx', hctx, hrun⟩ := bind_eq_ok.mp hrun
  obtain ⟨r', hrechunk, hrun⟩ := bind_eq_ok.mp hrun
  obtain ⟨names', htree, hrun⟩ := bind_eq_ok.mp hrun
  obtain ⟨resolved, hresolve, hret⟩ := bind_eq_ok.mp hrun
  cases hret
  have hdelivered : putNext samplePutConfig calcSHA1Sig (flooded rctx n) (.delivered putBlock 9 1 none) =
      .ok { flooded rctx n with messages := [⟨putBlock, 9⟩], curPutQueueSize := 33 } := by
    show queuePutMessage samplePutConfig (flooded rctx n) putBlock 9 1 none = _
    have hfirst : ¬ (samplePutConfig.chunking.skipFirstChunk = true ∧ 1 = 0) := by decide
    have hlength : (flooded rctx n).curPutQueueSize + putBlock.length = 33 := Nat.zero_add 33
    have hroom : ¬ samplePutConfig.putQueueSize * 1024 * 1024 < 33 := by decide
    rw [queuePutMessage, if_neg hfirst, Option.any_none, if_neg Bool.false_ne_true, hlength, if_neg hroom]
    dsimp only
    rw [check_of (not_lt.mp hroom), ok_bind]
    rfl
  have hstart : startPutMessage samplePutConfig calcSHA1Sig default
      { flooded rctx n with messages := [⟨putBlock, 9⟩], curPutQueueSize := 33 } = .ok { flooded rctx n with
        rctx := r.rctx
        walk := (List.range r.pNames.length).map names₁
        lowLevel := low
        dstPxyId := 9 } := by
    rw [startPutMessage]
    dsimp only
    have hrechunk' : rechunkBlock samplePutConfig.chunking default (flooded rctx n).rctx putBlock = .ok r := hrechunk
    have hresolve' : resolveWithHint samplePutConfig.chunking calcSHA1Sig (getDiskHint (flooded rctx n).diskHints) r.pNames.length
        putBlock r.rbSize r.pli names = .ok (names₁, low) := hresolve
    rw [hrechunk', ok_bind, htree, ok_bind, hresolve', ok_bind]
    rfl
  have hwalk : (List.range r.pNames.length).map names₁ = names₁ 0 :: [names₁ 1, names₁ 2] := by
    rw [hnum]
    rfl
  refine ⟨_, names₁ 0, [names₁ 1, names₁ 2], ((flooded_runs hctx hn).step hdelivered).step hstart, ⟨rctx, rfl, rfl, rfl⟩, rfl, rfl,
    rfl, hwalk,
    ?_, hhit, hready, hbyte, ?_⟩
  · show (names₁ 0).level ≤ low
    omega
  · rw [hcontent]
    decide

theorem flooded_other {rctx : RabinCtx} {n : Nat} {name : Sha1Name} (h : ∀ k, floodName k ≠ name) :
    (flooded rctx n).putTmp name = none := by
  refine if_neg ?_
  rintro ⟨k, _, heq⟩
  exact h k heq

theorem putDiskHint_first (name : Sha1Name) : putDiskHint ⟨[], []⟩ name = .ok ⟨[name], [name]⟩ := by
  have hroom : ¬ maxHintNames ≤ ([] : List Sha1Name).length := Nat.not_le.mpr maxHintNames_pos
  rw [putDiskHint, putSendHintNoDisk, if_neg hroom]
  rfl

/-- With 1025 puts waiting the chunk is dropped and recorded. -/
theorem disk_hint_of_dropped_chunk :
    ∃ s, (putSystem samplePutConfig calcSHA1Sig).Runs
      (floodEvents 1025 ++ [.delivered putBlock 9 1 none] ++ [.start default] ++ [.round fun _ => some 0]) s ∧
      ¬ HintsSound calcSHA1Sig s := by
  obtain ⟨s, name, walk, hrun, ⟨rctx, hhints, htmp, hcache⟩, hdst, hrequests, hmemory, hwalk, hlevel, hhit, hready, hbyte, -⟩ :=
    putBlock_started (n := 1025) (le_refl _)
  have hother : ∀ k, floodName k ≠ name.sha1name := by
    intro k heq
    rw [← heq] at hbyte
    exact absurd (Option.some.inj hbyte) (by decide)
  have hnone : s.putTmp name.sha1name = none := by
    rw [htmp]
    exact flooded_other hother
  have hdrop : distributePutRequest samplePutConfig calcSHA1Sig (fun _ => some 0) s name.sha1name name.content s.dstPxyId = .ok s := by
    have hfull : maxPutDiskQueue < s.cache.numPendingSecond := by
      have hwaiting : ∀ n, (flooded rctx n).cache.numPendingSecond = n := fun _ => rfl
      rw [hcache, hwaiting]
      decide
    show putDisk samplePutConfig calcSHA1Sig s name.sha1name name.content = .ok s
    rw [putDisk, if_neg (not_not.mpr hnone), if_pos hfull]
  have hround : putNext samplePutConfig calcSHA1Sig s (.round fun _ => some 0) =
      .ok { s with diskHints := ⟨[name.sha1name], [name.sha1name]⟩, walk := walk } := by
    show putMissingChunk samplePutConfig calcSHA1Sig (fun _ => some 0) s = _
    rw [putMissingChunk, hwalk]
    dsimp only
    have hmissing : getDiskHint s.diskHints name.sha1name = false := by
      rw [hhints]
      rfl
    rw [if_neg (not_lt.mpr hlevel), if_pos hhit, check_of hready, ok_bind, if_pos hmissing, hdrop, ok_bind, hhints,
      putDiskHint_first, ok_bind]
    rfl
  refine ⟨_, hrun.step hround, ?_⟩
  intro hsound
  obtain ⟨block, _, ⟨t, ht, hput⟩ | ⟨idx, hidx⟩ | hput⟩ := hsound name.sha1name List.mem_cons_self
  · have hmem : t ∈ floodTransactions 1025 := by
      have hcreated : t ∈ s.cache.created := ht
      have hwaiting : ∀ n, (flooded rctx n).cache.created = floodTransactions n := fun _ => rfl
      rwa [hcache, hwaiting] at hcreated
    obtain ⟨k, _, rfl⟩ := List.mem_map.mp hmem
    have hname := congrArg CacheRequest.sha1name hput
    have hbytes : (floodName k).bytes[2]? = some 37 := by
      rw [show (floodName k).bytes = name.sha1name.bytes from hname]
      exact hbyte
    exact absurd (Option.some.inj hbytes) (by decide)
  · have hrequest : _ ∈ s.requests := hidx
    rw [hrequests] at hrequest
    exact absurd hrequest List.not_mem_nil
  · have hmem : _ ∈ s.memoryPuts := hput
    rw [hmemory] at hmem
    exact absurd hmem List.not_mem_nil

/-- With nothing waiting and another peer responsible, the chunk is recorded and its put request is on the way. -/
theorem disk_hints_sound_sample :
    ∃ s, ((putSystem samplePutConfig calcSHA1Sig).restrict (PutAccepted samplePutConfig calcSHA1Sig)).Runs
      ([.delivered putBlock 9 1 none] ++ [.start default] ++ [.round fun _ => some 1]) s ∧ s.diskHints.keys ≠ [] ∧
      HintsSound calcSHA1Sig s := by
  obtain ⟨s, name, walk, hrun, ⟨rctx, hhints, htmp, hcache⟩, hdst, hrequests, hmemory, hwalk, hlevel, hhit, hready, hbyte, hlength⟩ :=
    putBlock_started (n := 0) (Nat.zero_le _)
  have hstarted : ((putSystem samplePutConfig calcSHA1Sig).restrict (PutAccepted samplePutConfig calcSHA1Sig)).Runs
      (floodEvents 0 ++ [.delivered putBlock 9 1 none] ++ [.start default]) s := by
    apply hrun.restrict
    intro event hevent s
    rcases List.mem_append.mp hevent with hevent | hevent
    · rw [List.mem_singleton.mp hevent]
      exact trivial
    · rw [List.mem_singleton.mp hevent]
      exact trivial
  have hmissing : getDiskHint s.diskHints name.sha1name = false := by
    rw [hhints]
    rfl
  have hother : ∀ k, floodName k ≠ name.sha1name := by
    intro k heq
    rw [← heq] at hbyte
    exact absurd (Option.some.inj hbyte) (by decide)
  have hnone : s.putTmp name.sha1name = none := by
    rw [htmp]
    exact flooded_other hother
  have hlocal : ¬ (samplePutConfig.isLocalHost 1 = true ∨ ((1 : Nat) : Int) = s.dstPxyId) := by
    rw [hdst]
    decide
  obtain ⟨putTmp, htmp'⟩ : ∃ putTmp, putTempDiskCache sampleConfig calcSHA1Sig s.putTmp name.sha1name name.content = .ok putTmp := by
    have hverify : verifySHA1 sampleConfig calcSHA1Sig name.content name.sha1name = true := rfl
    rw [putTempDiskCache, check_of hverify, ok_bind, hnone]
    split
    · exact ⟨_, rfl⟩
    · dsimp only
      rw [check_of hlength]
      exact ⟨_, rfl⟩
  have hdistribute : distributePutRequest samplePutConfig calcSHA1Sig (fun _ => some 1) s name.sha1name name.content s.dstPxyId =
      .ok { s with requests := s.requests ++ [⟨1, name.sha1name, name.content⟩], putTmp := putTmp } := by
    rw [distributePutRequest]
    dsimp only
    have hremote : putTempDiskCache samplePutConfig.chunking calcSHA1Sig s.putTmp name.sha1name name.content = .ok putTmp := htmp'
    rw [if_neg hlocal, if_pos hnone, hremote, ok_bind]
    rfl
  have hround : putMissingChunk samplePutConfig calcSHA1Sig (fun _ => some 1) s = .ok { s with
      requests := s.requests ++ [⟨1, name.sha1name, name.content⟩]
      putTmp := putTmp
      diskHints := ⟨[name.sha1name], [name.sha1name]⟩
      walk := walk } := by
    rw [putMissingChunk, hwalk]
    dsimp only
    rw [if_neg (not_lt.mpr hlevel), if_pos hhit, check_of hready, ok_bind, if_pos hmissing, hdistribute, ok_bind]
    dsimp only
    rw [hhints, putDiskHint_first, ok_bind]
    rfl
  have haccept : PutAccepted samplePutConfig calcSHA1Sig s (.round fun _ => some 1) := by
    intro other _ _ _ _ idx hpick hhere
    cases hpick
    exact absurd hhere hlocal
  have hfinal := hstarted.step ⟨haccept, hround⟩
  exact ⟨_, hfinal, List.cons_ne_nil _ _, disk_hints_sound sampleConfig_sized hfinal⟩

end BeagleCache

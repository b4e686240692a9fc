import BeagleCache.ChunkChannel
import BeagleCache.TempCache
import BeagleCache.Transition

/-! The requests for chunk bodies that are in flight, `chunkrequest.c` and the handlers of `waprox.c` that use it. A proxy asks
for chunks of its own connections, and passes on requests of other proxies for chunks that it does not have. -/

namespace BeagleCache

open Transition Run

/-- A `ChunkRequestInfo` with the name it is listed under. `number` tells two requests apart, as their addresses do in the
source. -/
structure ChunkRequestInfo where
  number : Nat
  sha1name : Sha1Name
  isRedirected : Bool
  pxyAddr : BitVec 32
  length : BitVec 32
  isNetwork : Bool
  peerIdx : Nat
  deriving DecidableEq

/-- The peers of a proxy: `GetPeerInfoByAddr`, `netAddr` and the index of `g_LocalInfo`. -/
structure Peers where
  peerOf : BitVec 32 → Option Nat
  netAddr : Nat → BitVec 32
  localIdx : Nat

/-- What the requests of a proxy work on. `chunk_request_ht` is one list here; the list of a name is the part of it with
that name, and the name is not in the table where that part is empty. The last four fields are not in the source: the
responses that were passed on, the requests that were put, those that were answered, each with its block, and the names that
were stored without a request of the proxy's own. -/
structure RequestProxy where
  requests : List ChunkRequestInfo
  numInFlight : Int
  networkPendingBytes : Nat → BitVec 32
  diskPendingChunks : Nat → BitVec 32
  tmp : TempCache
  forwarded : List (Nat × Sha1Name × Bytes)
  asked : List ChunkRequestInfo
  answered : List (ChunkRequestInfo × Bytes)
  brought : List Sha1Name

/-- A proxy without requests, after a ping set its load statistics. -/
def newRequestProxy (network disk : Nat → BitVec 32) : RequestProxy where
  requests := []
  numInFlight := 0
  networkPendingBytes := network
  diskPendingChunks := disk
  tmp := emptyTempCache
  forwarded := []
  asked := []
  answered := []
  brought := []

/-- `PerChunkResponseOverhead`. -/
def perChunkResponseOverhead : Nat := sizeofWABodyResponse + sizeofWAOneResponse

/-- `GetChunkRequestList`; the empty list stands for `NULL`. -/
def getChunkRequestList (s : RequestProxy) (sha1name : Sha1Name) : List ChunkRequestInfo :=
  s.requests.filter fun cri => cri.sha1name = sha1name

/-- What `PutChunkRequest` adds to `networkPendingBytes` of a peer. -/
def networkLoad (cri : ChunkRequestInfo) : BitVec 32 :=
  if cri.isNetwork then cri.length + BitVec.ofNat 32 perChunkResponseOverhead else 0

/-- What `PutChunkRequest` adds to `diskPendingChunks` of a peer. -/
def diskLoad (cri : ChunkRequestInfo) : BitVec 32 := if cri.isNetwork then 0 else 1

/-- `PutChunkRequest`. -/
def putChunkRequest (s : RequestProxy) (sha1name : Sha1Name) (isRedirected : Bool) (pxyAddr length : BitVec 32) (peerIdx : Nat)
    (isNetwork : Bool) : RequestProxy :=
  let cri : ChunkRequestInfo := ⟨s.asked.length, sha1name, isRedirected, pxyAddr, length, isNetwork, peerIdx⟩
  { s with
    requests := s.requests ++ [cri]
    numInFlight := s.numInFlight + 1
    networkPendingBytes := Function.update s.networkPendingBytes peerIdx (s.networkPendingBytes peerIdx + networkLoad cri)
    diskPendingChunks := Function.update s.diskPendingChunks peerIdx (s.diskPendingChunks peerIdx + diskLoad cri)
    asked := s.asked ++ [cri] }

/-- `DestroyChunkRequestList`. -/
def destroyChunkRequestList (s : RequestProxy) (sha1name : Sha1Name) : Run RequestProxy := do
  let list := getChunkRequestList s sha1name
  check (0 ≤ s.numInFlight - list.length)
  return { s with
    requests := s.requests.filter fun cri => cri.sha1name ≠ sha1name
    numInFlight := s.numInFlight - list.length }

section Handlers

variable (cfg : Config) (sha1 : Bytes → Sha1Name) (peers : Peers)

/-- `PostProcessBodyRequest` of a request that came from the proxy `fromIdx`. `block` is what was found, a miss is passed on
to the proxy the request names. -/
def postProcessBodyRequest (s : RequestProxy) (fromIdx : Nat) (orgPxyAddr : BitVec 32) (sha1name : Sha1Name) (length : BitVec 32)
    (block : Option Bytes) : Run RequestProxy := do
  check (0 < length.toInt)
  match block with
  | some _ => return s
  | none =>
      match peers.peerOf orgPxyAddr with
      | none => .error .overrun
      | some idx =>
          if idx = peers.localIdx then return s
          else return putChunkRequest s sha1name true (peers.netAddr fromIdx) length idx true

/-- What `ProcessBodyRequest` does with one request when there is no disk cache. `diskTmp` and `memory` are what
`GetTempDiskCache` and `GetMemory` find. -/
def handleBodyRequest (s : RequestProxy) (fromIdx : Nat) (diskTmp memory : Option Bytes) (orgPxyAddr : BitVec 32) (sha1name : Sha1Name)
    (length : BitVec 32) : Run RequestProxy :=
  match searchCache s.tmp sha1name, diskTmp with
  | some value, _ => do
      check (value.pBlock.length = length.toInt)
      postProcessBodyRequest peers s fromIdx orgPxyAddr sha1name length (some value.pBlock)
  | none, some block => do
      check (0 < block.length)
      let tmp ← refPutChunkCallback cfg sha1 s.tmp sha1name block
      check (block.length = length.toInt)
      postProcessBodyRequest peers { s with tmp := tmp, brought := s.brought ++ [sha1name] } fromIdx orgPxyAddr sha1name length
        (some block)
  | none, none => do
      check (∀ block ∈ memory, (block.length : Int) = length.toInt)
      postProcessBodyRequest peers s fromIdx orgPxyAddr sha1name length memory

/-- `ProcessOneChunkRequest`. -/
def processOneChunkRequest (s : RequestProxy) (cri : ChunkRequestInfo) (block : Bytes) : Run RequestProxy :=
  if cri.isRedirected then
    match peers.peerOf cri.pxyAddr with
    | none => .error .overrun
    | some idx => return { s with
        forwarded := s.forwarded ++ [(idx, cri.sha1name, block)]
        answered := s.answered ++ [(cri, block)] }
  else do
    let tmp ← refPutChunkCallback cfg sha1 s.tmp cri.sha1name block
    let s := { s with tmp := tmp, answered := s.answered ++ [(cri, block)] }
    if cri.isNetwork then return { s with
      networkPendingBytes := Function.update s.networkPendingBytes cri.peerIdx
        (s.networkPendingBytes cri.peerIdx - cri.length) }
    else return { s with
      diskPendingChunks := Function.update s.diskPendingChunks cri.peerIdx (s.diskPendingChunks cri.peerIdx - 1) }

/-- What `ProcessBodyResponse` does with one response: the first request of the list is answered, and the list destroyed. -/
def handleBodyResponse (s : RequestProxy) (sha1name : Sha1Name) (block : Bytes) : Run RequestProxy := do
  check (0 < block.length)
  match getChunkRequestList s sha1name with
  | [] => do
      let tmp ← refPutChunkCallback cfg sha1 s.tmp sha1name block
      return { s with tmp := tmp, brought := s.brought ++ [sha1name] }
  | req_walk :: _ => do
      check (req_walk.length = BitVec.ofNat 32 block.length)
      let s ← processOneChunkRequest cfg sha1 peers s req_walk block
      destroyChunkRequestList s sha1name

/-- What happens to the requests: the proxy asks for a chunk itself, a request or a response comes from a peer, or the disk
cache was asked for a request of a peer. -/
inductive RequestEvent
  | ask (sha1name : Sha1Name) (length : BitVec 32) (peerIdx : Nat) (isNetwork : Bool)
  | bodyRequest (fromIdx : Nat) (diskTmp memory : Option Bytes) (orgPxyAddr : BitVec 32) (sha1name : Sha1Name) (length : BitVec 32)
  | lookedUp (fromIdx : Nat) (orgPxyAddr : BitVec 32) (sha1name : Sha1Name) (length : BitVec 32) (block : Option Bytes)
  | bodyResponse (sha1name : Sha1Name) (block : Bytes)

def requestNext (s : RequestProxy) : RequestEvent → Run RequestProxy
  | .ask sha1name length peerIdx isNetwork =>
      .ok (putChunkRequest s sha1name false (peers.netAddr peerIdx) length peerIdx isNetwork)
  | .bodyRequest fromIdx diskTmp memory orgPxyAddr sha1name length =>
      handleBodyRequest cfg sha1 peers s fromIdx diskTmp memory orgPxyAddr sha1name length
  | .lookedUp fromIdx orgPxyAddr sha1name length block =>
      postProcessBodyRequest peers s fromIdx orgPxyAddr sha1name length block
  | .bodyResponse sha1name block => handleBodyResponse cfg sha1 peers s sha1name block

/-- The requests of a proxy, from a time with none of them in flight on. -/
def requestSystem (network disk : Nat → BitVec 32) : System RequestProxy RequestEvent :=
  .ofNext (· = newRequestProxy network disk) (requestNext cfg sha1 peers)

end Handlers

/-! ## What a step can do -/

section Steps

variable {cfg : Config} {sha1 : Bytes → Sha1Name} {peers : Peers} {s s' : RequestProxy} {e : RequestEvent}

/-- The state after an answer to `cri`, before its list is destroyed. -/
inductive AnswerStep (cfg : Config) (sha1 : Bytes → Sha1Name) (peers : Peers) (s : RequestProxy) (cri : ChunkRequestInfo)
    (block : Bytes) : RequestProxy → Prop
  | forward {idx : Nat} : cri.isRedirected = true → peers.peerOf cri.pxyAddr = some idx →
      AnswerStep cfg sha1 peers s cri block { s with
        forwarded := s.forwarded ++ [(idx, cri.sha1name, block)]
        answered := s.answered ++ [(cri, block)] }
  | network {tmp : TempCache} : cri.isRedirected = false → cri.isNetwork = true →
      refPutChunkCallback cfg sha1 s.tmp cri.sha1name block = .ok tmp →
      AnswerStep cfg sha1 peers s cri block { s with
        tmp := tmp
        answered := s.answered ++ [(cri, block)]
        networkPendingBytes := Function.update s.networkPendingBytes cri.peerIdx
          (s.networkPendingBytes cri.peerIdx - cri.length) }
  | disk {tmp : TempCache} : cri.isRedirected = false → cri.isNetwork = false →
      refPutChunkCallback cfg sha1 s.tmp cri.sha1name block = .ok tmp →
      AnswerStep cfg sha1 peers s cri block { s with
        tmp := tmp
        answered := s.answered ++ [(cri, block)]
        diskPendingChunks := Function.update s.diskPendingChunks cri.peerIdx (s.diskPendingChunks cri.peerIdx - 1) }

/-- The state after the list of a name was destroyed. -/
def withoutName (s : RequestProxy) (sha1name : Sha1Name) (numInFlight : Int) : RequestProxy :=
  { s with requests := s.requests.filter fun cri => cri.sha1name ≠ sha1name, numInFlight := numInFlight }

/-- The steps of the requests. -/
inductive RequestStep (cfg : Config) (sha1 : Bytes → Sha1Name) (peers : Peers) (s : RequestProxy) : RequestEvent → RequestProxy → Prop
  | none {e : RequestEvent} : RequestStep cfg sha1 peers s e s
  | put {e : RequestEvent} (sha1name : Sha1Name) (isRedirected : Bool) (pxyAddr length : BitVec 32) (peerIdx : Nat)
      (isNetwork : Bool) :
      RequestStep cfg sha1 peers s e (putChunkRequest s sha1name isRedirected pxyAddr length peerIdx isNetwork)
  | store {e : RequestEvent} {sha1name : Sha1Name} {block : Bytes} {tmp : TempCache} : 0 < block.length →
      refPutChunkCallback cfg sha1 s.tmp sha1name block = .ok tmp →
      RequestStep cfg sha1 peers s e { s with tmp := tmp, brought := s.brought ++ [sha1name] }
  | answer {sha1name : Sha1Name} {block : Bytes} {cri : ChunkRequestInfo} {rest : List ChunkRequestInfo} {s₁ : RequestProxy}
      {numInFlight : Int} : 0 < block.length → getChunkRequestList s sha1name = cri :: rest →
      AnswerStep cfg sha1 peers s cri block s₁ →
      RequestStep cfg sha1 peers s (.bodyResponse sha1name block) (withoutName s₁ sha1name numInFlight)

theorem postProcessBodyRequest_step {fromIdx : Nat} {orgPxyAddr : BitVec 32} {sha1name : Sha1Name} {length : BitVec 32}
    {block : Option Bytes} (h : postProcessBodyRequest peers s fromIdx orgPxyAddr sha1name length block = .ok s') :
    RequestStep cfg sha1 peers s e s' := by
  obtain ⟨_, _, h⟩ := bind_eq_ok.mp h
  split at h
  case h_1 =>
      cases h
      exact .none
  case h_2 =>
      split at h
      case h_1 => cases h
      case h_2 idx hidx =>
          split at h
          case isTrue =>
              cases h
              exact .none
          case isFalse =>
              cases h
              exact .put sha1name true _ length idx true

theorem postProcessBodyRequest_hit {fromIdx : Nat} {orgPxyAddr : BitVec 32} {sha1name : Sha1Name} {length : BitVec 32}
    {block : Bytes} (h : postProcessBodyRequest peers s fromIdx orgPxyAddr sha1name length (some block) = .ok s') :
    s' = s := by
  obtain ⟨_, _, h⟩ := bind_eq_ok.mp h
  cases h
  rfl

theorem processOneChunkRequest_step {cri : ChunkRequestInfo} {block : Bytes}
    (h : processOneChunkRequest cfg sha1 peers s cri block = .ok s') : AnswerStep cfg sha1 peers s cri block s' := by
  unfold processOneChunkRequest at h
  split at h
  case isTrue hredirected =>
      split at h
      case h_1 => cases h
      case h_2 idx hidx =>
          cases h
          exact .forward hredirected hidx
  case isFalse hredirected =>
      obtain ⟨tmp, hput, h⟩ := bind_eq_ok.mp h
      rw [Bool.not_eq_true] at hredirected
      simp only at h
      split at h
      case isTrue hnetwork =>
          cases h
          exact .network hredirected hnetwork hput
      case isFalse hnetwork =>
          cases h
          exact .disk hredirected (Bool.eq_false_iff.mpr hnetwork) hput

theorem requestNext_step (h : requestNext cfg sha1 peers s e = .ok s') : RequestStep cfg sha1 peers s e s' := by
  cases e with
  | ask sha1name length peerIdx isNetwork =>
      cases h
      exact .put sha1name false _ length peerIdx isNetwork
  | lookedUp fromIdx orgPxyAddr sha1name length block => exact postProcessBodyRequest_step h
  | bodyRequest fromIdx diskTmp memory orgPxyAddr sha1name length =>
      simp only [requestNext, handleBodyRequest] at h
      split at h
      case h_1 =>
          obtain ⟨_, _, h⟩ := bind_eq_ok.mp h
          exact postProcessBodyRequest_step h
      case h_2 block =>
          obtain ⟨_, hlength, h⟩ := bind_eq_ok.mp h
          obtain ⟨tmp, hput, h⟩ := bind_eq_ok.mp h
          obtain ⟨_, _, h⟩ := bind_eq_ok.mp h
          rw [postProcessBodyRequest_hit h]
          exact .store (check_eq_ok.mp hlength) hput
      case h_3 =>
          obtain ⟨_, _, h⟩ := bind_eq_ok.mp h
          exact postProcessBodyRequest_step h
  | bodyResponse sha1name block =>
      obtain ⟨_, hlength, h⟩ := bind_eq_ok.mp h
      split at h
      case h_1 =>
          obtain ⟨tmp, hput, h⟩ := bind_eq_ok.mp h
          cases h
          exact .store (check_eq_ok.mp hlength) hput
      case h_2 cri rest hlist =>
          obtain ⟨_, _, h⟩ := bind_eq_ok.mp h
          obtain ⟨s₁, hone, h⟩ := bind_eq_ok.mp h
          obtain ⟨_, _, h⟩ := bind_eq_ok.mp h
          cases h
          exact .answer (check_eq_ok.mp hlength) hlist (processOneChunkRequest_step hone)

end Steps

end BeagleCache

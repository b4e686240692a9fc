import BeagleCache.ChunkCache
import BeagleCache.Protocol

/-! The receiving side of a user connection, `reassemble.c` and the handlers of `waprox.c` that feed it. A
name delivery appends an entry to the connection's reassemble list and stores the contents it carries; when
every name of the first entry is in the temporary cache, its chunks are taken from there and sent to the
user. The build is the default one: names are not peeked, and an entry is reconstructed only after its
missing chunks were asked for. -/

namespace BeagleCache

/-- `ChunkNameInfo`. -/
structure ChunkNameInfo where
  sha1name : Sha1Name
  length : Nat
  isHit : Bool
  inMemory : Bool
  peerIdx : Int
  deriving DecidableEq

/-- `ReassembleInfo`; `inReadyList` says that the connection's `readyList` holds the entry. -/
structure ReassembleInfo where
  seqNo : BitVec 32
  numNames : Nat
  numPeekResolved : Nat
  getSent : Bool
  nameList : List ChunkNameInfo
  inReadyList : Bool

inductive ConnectionStatus
  | active
  | block
  | done
  | finsent
  | closed
  deriving DecidableEq

/-- A `ConnectionInfo` of a user with its `UserConnectionInfo`. `sent` collects what was handed to `SendData`. -/
structure UserConnection where
  status : ConnectionStatus
  bufRead : Bytes
  /-- `sip`, `sport`, `dip` and `dport`. -/
  key : ConnectionID
  isForward : Bool
  isHttpProxy : Bool
  rctx : RabinCtx
  bytesTX : BitVec 32
  numChunks : BitVec 32
  numSent : BitVec 32
  maxWindowSize : BitVec 32
  chunkBufferList : List ChunkBuffer
  seqNo : BitVec 32
  reassembleList : List ReassembleInfo
  sent : Bytes

def createNewReassembleInfo (seqNo : BitVec 32) : ReassembleInfo where
  seqNo := seqNo
  numNames := 0
  numPeekResolved := 0
  getSent := false
  nameList := []
  inReadyList := false

/-! ## Reconstruction -/

/-- The first loop of `CheckOneChunkTree`: it takes a reference for every name until one is missing. The
results are `complete`, `buf_len`, `numChecked` and the table. -/
def takeRefs : List ChunkNameInfo → Nat → Nat → TempCache → Bool × Nat × Nat × TempCache
  | [], bufLen, numChecked, tmp => (true, bufLen, numChecked, tmp)
  | walk :: rest, bufLen, numChecked, tmp =>
      match searchCache tmp walk.sha1name with
      | none => (false, bufLen, numChecked, tmp)
      | some value =>
          let value := { value with refCount := value.refCount - 1 }
          let tmp := Function.update tmp walk.sha1name (some value)
          if value.refCount < 0 then (false, bufLen + value.pBlock.length, numChecked + 1, tmp)
          else takeRefs rest (bufLen + value.pBlock.length) (numChecked + 1) tmp

/-- The second loop of `CheckOneChunkTree`: it gives `numChecked` references back. -/
def giveRefs : List ChunkNameInfo → Nat → TempCache → Run TempCache
  | [], numChecked, tmp => do
      check (numChecked = 0)
      return tmp
  | _ :: _, 0, tmp => .ok tmp
  | walk :: rest, numChecked + 1, tmp =>
      match searchCache tmp walk.sha1name with
      | none => .error .assertion
      | some value => do
          let value := { value with refCount := value.refCount + 1 }
          check (0 ≤ value.refCount)
          giveRefs rest numChecked (Function.update tmp walk.sha1name (some value))

/-- `CheckOneChunkTree`: the length of the block, zero when a chunk is missing, and the table. -/
def checkOneChunkTree (ri : ReassembleInfo) (tmp : TempCache) : Run (Nat × TempCache) := do
  let taken := takeRefs ri.nameList 0 0 tmp
  let tmp ← giveRefs ri.nameList taken.2.2.1 taken.2.2.2
  return (if taken.1 then taken.2.1 else 0, tmp)

/-- The loop of `ReconstructOneChunkTree` that copies the chunks and flushes them. -/
def copyChunks (cfg : Config) (sha1 : Bytes → Sha1Name) : List ChunkNameInfo → TempCache → Run (Bytes × TempCache)
  | [], tmp => .ok ([], tmp)
  | walk :: rest, tmp =>
      match searchCache tmp walk.sha1name with
      | none => .error .assertion
      | some value => do
          check (value.pBlock.length = walk.length)
          check (verifySHA1 cfg sha1 value.pBlock walk.sha1name)
          let tmp ← refFlushChunk tmp walk.sha1name
          let r ← copyChunks cfg sha1 rest tmp
          return (value.pBlock ++ r.1, r.2)

/-- `ReconstructOneChunkTree`: the block it sends, or `none` where it returns `FALSE`. -/
def reconstructOneChunkTree (cfg : Config) (sha1 : Bytes → Sha1Name) (ri : ReassembleInfo) (tmp : TempCache) :
    Run (Option Bytes × TempCache) := do
  if ri.getSent = false then return (none, tmp)
  else if ri.nameList = [] then return (none, tmp)
  else do
    let r ← checkOneChunkTree ri tmp
    if r.1 = 0 then return (none, r.2)
    else do
      check (r.1 ≤ maxChunkSize)
      let copied ← copyChunks cfg sha1 ri.nameList r.2
      check (copied.1.length = r.1)
      return (some copied.1, copied.2)

/-- The loop of `ReconstructOriginalData`: what it sends, the entries that are left, and the table. -/
def reconstructEntries (cfg : Config) (sha1 : Bytes → Sha1Name) :
    List ReassembleInfo → TempCache → Run (Bytes × List ReassembleInfo × TempCache)
  | [], tmp => .ok ([], [], tmp)
  | ri :: rest, tmp => do
      let r ← reconstructOneChunkTree cfg sha1 ri tmp
      match r.1 with
      | none => return ([], ri :: rest, r.2)
      | some block => do
          let next ← reconstructEntries cfg sha1 rest r.2
          return (block ++ next.1, next.2)

/-- `ReconstructOriginalData`. -/
def reconstructOriginalData (cfg : Config) (sha1 : Bytes → Sha1Name) (ci : UserConnection) (tmp : TempCache) :
    Run (UserConnection × TempCache) := do
  let r ← reconstructEntries cfg sha1 ci.reassembleList tmp
  return ({ ci with reassembleList := r.2.1, sent := ci.sent ++ r.1 }, r.2.2)

/-- `PopulateILSQueue` for one connection: the entries of the ready list get their `getSent`. -/
def populateEntries : List ReassembleInfo → Run (List ReassembleInfo)
  | [] => .ok []
  | ri :: rest =>
      if ri.inReadyList then do
        check (ri.numPeekResolved = ri.numNames)
        check (ri.getSent = false)
        let rest ← populateEntries rest
        return { ri with getSent := true, inReadyList := false } :: rest
      else do
        let rest ← populateEntries rest
        return ri :: rest

def populateILSQueue (ci : UserConnection) : Run UserConnection :=
  if ci.status = .closed then .ok ci
  else do
    let entries ← populateEntries ci.reassembleList
    return { ci with reassembleList := entries }

/-! ## Name deliveries and raw messages -/

/-- A `WAOneChunk` of a name delivery, with the content where it has one. -/
structure WireChunk where
  sha1name : Sha1Name
  length : BitVec 32
  content : Option Bytes
  deriving DecidableEq

/-- Reads a SHA1 name. -/
def readSha1Name (buffer : Bytes) (off : Nat) : Run Sha1Name :=
  if h : off + 20 ≤ buffer.length then .ok ⟨(buffer.drop off).take 20, by simp; omega⟩ else .error .overrun

/-- Reads the chunk at `offset`; the second result is where the next one starts. A length that is negative
as an `int` asks for more bytes than any buffer has. -/
def readOneChunk (buffer : Bytes) (offset : Nat) : Run (WireChunk × Nat) := do
  let sha1name ← readSha1Name buffer offset
  let length ← readU32 buffer (offset + 20)
  let flag ← readAt buffer (offset + 24) 1
  if flag = [1] then do
    let content ← readAt buffer (offset + sizeofWAOneChunk) length.toNat
    return (⟨sha1name, length, some content⟩, offset + sizeofWAOneChunk + length.toNat)
  else return (⟨sha1name, length, none⟩, offset + sizeofWAOneChunk)

/-- `AppendChunkName`. -/
def appendChunkName (ri : ReassembleInfo) (cni : ChunkNameInfo) : Run ReassembleInfo := do
  check (0 < cni.length)
  return { ri with nameList := ri.nameList ++ [cni] }

/-- `UpdatePeekResult`, as far as the entry goes. -/
def updatePeekResult (ri : ReassembleInfo) : Run ReassembleInfo := do
  check (ri.numPeekResolved + 1 ≤ ri.numNames)
  return { ri with numPeekResolved := ri.numPeekResolved + 1 }

/-- What the loop of `ProcessNameTreeDelivery2` does with one chunk. `pickPeer` is `PickPeerToRedirect`,
which answers `-1` when no peer is alive. -/
def deliverChunk (cfg : Config) (sha1 : Bytes → Sha1Name) (pickPeer : Sha1Name → Int) (c : WireChunk)
    (ri : ReassembleInfo) (tmp : TempCache) : Run (ReassembleInfo × TempCache) := do
  let ri ← appendChunkName ri ⟨c.sha1name, c.length.toNat, true, c.content.isSome, pickPeer c.sha1name⟩
  let ri := { ri with numNames := ri.numNames + 1 }
  if pickPeer c.sha1name = -1 then .error .exit
  else match c.content with
    | some content => do
        let tmp ← refPutChunkCallback cfg sha1 tmp c.sha1name content
        let ri ← updatePeekResult ri
        return (ri, tmp)
    | none => do
        let ri ← updatePeekResult ri
        return (ri, tmp)

/-- The loop of `ProcessNameTreeDelivery2` over the chunks of a tree: the entry, the table, and the offset
behind the last chunk. -/
def deliverTree (cfg : Config) (sha1 : Bytes → Sha1Name) (pickPeer : Sha1Name → Int) (buffer : Bytes) :
    Nat → Nat → ReassembleInfo → TempCache → Run (ReassembleInfo × TempCache × Nat)
  | 0, offset, ri, tmp => .ok (ri, tmp, offset)
  | n + 1, offset, ri, tmp => do
      let c ← readOneChunk buffer offset
      let r ← deliverChunk cfg sha1 pickPeer c.1 ri tmp
      deliverTree cfg sha1 pickPeer buffer n c.2 r.1 r.2

/-- `CheckPeek`. -/
def checkPeek (ri : ReassembleInfo) : ReassembleInfo :=
  if ri.numPeekResolved = ri.numNames then { ri with inReadyList := true } else ri

def ConnectionID.reverse (id : ConnectionID) : ConnectionID := ⟨id.dstIP, id.dstPort, id.srcIP, id.srcPort⟩

/-- `GetDestinationConnection` in the list of user connections: the index of the connection found. -/
def getDestinationConnection (users : List UserConnection) (id : ConnectionID) : Option Nat :=
  match users.findIdx? (fun ci => ci.key = id.reverse) with
  | some i => some i
  | none => users.findIdx? (fun ci => ci.key = id)

/-- The body of `ProcessNameTreeDelivery2` for the connection it found: the connection, the table, and the
offset behind the tree. -/
def deliverNames (cfg : Config) (sha1 : Bytes → Sha1Name) (pickPeer : Sha1Name → Int) (buffer : Bytes) (ci : UserConnection)
    (tmp : TempCache) : Run (UserConnection × TempCache × Nat) := do
  let numNames ← readU32 buffer (sizeofWANameDelivery + 1)
  let r ← deliverTree cfg sha1 pickPeer buffer numNames.toInt.toNat (sizeofWANameDelivery + sizeofWAOneTree)
    (createNewReassembleInfo ci.seqNo) tmp
  return ({ ci with seqNo := ci.seqNo + 1, reassembleList := ci.reassembleList ++ [checkPeek r.1] }, r.2.1, r.2.2)

/-- `ProcessNameTreeDelivery2`; `buf_len` is the length of `buffer`. -/
def processNameTreeDelivery2 (cfg : Config) (sha1 : Bytes → Sha1Name) (pickPeer : Sha1Name → Int) (buffer : Bytes)
    (users : List UserConnection) (tmp : TempCache) : Run (List UserConnection × TempCache × Int) := do
  let totLength ← headerLength buffer
  let numTrees ← readU32 buffer (sizeofWAControlHeader + 1)
  check (totLength.toInt ≤ buffer.length)
  check (0 ≤ numTrees.toInt)
  check (numTrees.toInt = 1)
  let id ← headerConnID buffer
  check id.Known
  match getDestinationConnection users id with
  | none => return (users, tmp, totLength.toInt)
  | some i =>
      match users[i]? with
      | none => return (users, tmp, totLength.toInt)
      | some ci => do
          let r ← deliverNames cfg sha1 pickPeer buffer ci tmp
          check ((r.2.2 : Int) = totLength.toInt)
          return (users.set i r.1, r.2.1, totLength.toInt)

/-- `ProcessRawMessage`; `buf_len` is the length of `buffer`. -/
def processRawMessage (buffer : Bytes) (users : List UserConnection) : Run (List UserConnection × Int) := do
  let id ← headerConnID buffer
  let msgLen ← readU32 buffer (sizeofWAControlHeader + 1)
  check (0 < msgLen.toInt)
  let totLength ← headerLength buffer
  check (totLength.toInt ≤ buffer.length)
  check id.Known
  match getDestinationConnection users id with
  | none => return (users, totLength.toInt)
  | some i =>
      match users[i]? with
      | none => return (users, totLength.toInt)
      | some ci => do
          let data ← readAt buffer sizeofWARawMessage msgLen.toNat
          return (users.set i { ci with sent := ci.sent ++ data, seqNo := ci.seqNo + 1 }, totLength.toInt)

end BeagleCache

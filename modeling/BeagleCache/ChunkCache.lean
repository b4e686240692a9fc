import BeagleCache.Candidates
import BeagleCache.Bytes

/-! The chunk tables of a proxy, `chunkcache.c`: `tmp_ht`, which holds the chunks somebody still needs with
the number of references to each, the table of send hints, and the buffers a sender keeps until its data
was acknowledged. -/

namespace BeagleCache

/-- `CacheValue`; `block_length` is the length of the block. -/
structure CacheValue where
  pBlock : Bytes
  refCount : Int
  deriving DecidableEq

/-- `tmp_ht`. -/
abbrev TempCache := Sha1Name → Option CacheValue

/-- `tmp_ht` as `CreateCache` leaves it. -/
def emptyTempCache : TempCache := fun _ => none

def searchCache (tmp : TempCache) (sha1name : Sha1Name) : Option CacheValue := tmp sha1name

/-- `RefPutChunkCallback`; `buf_len` is the length of `buffer`. -/
def refPutChunkCallback (cfg : Config) (sha1 : Bytes → Sha1Name) (tmp : TempCache) (sha1name : Sha1Name) (buffer : Bytes) :
    Run TempCache := do
  check (verifySHA1 cfg sha1 buffer sha1name)
  if buffer.length = 0 then return tmp
  else match searchCache tmp sha1name with
    | none => do
        check (buffer.length ≤ maxChunkSize)
        return Function.update tmp sha1name (some ⟨buffer, 1⟩)
    | some value => do
        check (1 ≤ value.refCount)
        return Function.update tmp sha1name (some { value with refCount := value.refCount + 1 })

def refFlushChunk (tmp : TempCache) (sha1name : Sha1Name) : Run TempCache :=
  match searchCache tmp sha1name with
  | none => .error .assertion
  | some value => do
      check (0 < value.pBlock.length)
      let value := { value with refCount := value.refCount - 1 }
      check (0 ≤ value.refCount)
      if value.refCount = 0 then return Function.update tmp sha1name none
      else return Function.update tmp sha1name (some value)

/-- `PutTempCacheCandidateList`, the walk having reached `offset`. -/
def putTempCacheCandidateList (cfg : Config) (sha1 : Bytes → Sha1Name) (buffer : Bytes) (buflen : Nat) :
    Nat → List OneCandidate → TempCache → Run TempCache
  | offset, [], tmp => do
      check (offset = buflen)
      return tmp
  | offset, walk :: rest, tmp => do
      let chunk ← readAt buffer offset walk.length
      let tmp ← refPutChunkCallback cfg sha1 tmp walk.sha1name chunk
      check (offset + walk.length ≤ buflen)
      putTempCacheCandidateList cfg sha1 buffer buflen (offset + walk.length) rest tmp

/-- `ChunkBuffer`; `numNames` is the length of `pMRC`. -/
structure ChunkBuffer where
  pMRC : List OneChunkName
  chunkList : List OneCandidate
  seqNo : BitVec 32
  length : Nat
  lowLevel : Int

def createNewChunkBuffer (cfg : Config) (length : Nat) (seqNo : BitVec 32) (pMRC : NameTable) (numNames : Nat) :
    Run ChunkBuffer := do
  check (0 < length)
  check (0 < numNames)
  check (numNames ≤ cfg.maxNames)
  return { pMRC := (List.range numNames).map pMRC, chunkList := [], seqNo := seqNo, length := length, lowLevel := -1 }

def createNewChunkBuffer2 (cfg : Config) (sha1 : Bytes → Sha1Name) (pBlock : Bytes) (length : Nat) (seqNo : BitVec 32)
    (pMRC : NameTable) (numNames : Nat) (list : List OneCandidate) (lowLevel : Nat) (tmp : TempCache) :
    Run (ChunkBuffer × TempCache) := do
  let newChunk ← createNewChunkBuffer cfg length seqNo pMRC numNames
  let tmp ← putTempCacheCandidateList cfg sha1 pBlock length 0 list tmp
  return ({ newChunk with lowLevel := lowLevel, chunkList := list }, tmp)

/-- A hint table: the keys of `send_hint_ht` and the queue `g_NameFifo`. -/
structure HintTable where
  keys : List Sha1Name
  fifo : List Sha1Name

/-- `MAX_NAMES`. -/
def maxHintNames : Nat := 1024 * 1024

def getSendHint (hints : HintTable) (sha1name : Sha1Name) : Bool := decide (sha1name ∈ hints.keys)

/-- The eviction at the head of `PutSendHintNoDisk`. -/
def evictHint (hints : HintTable) : Run HintTable :=
  match hints.fifo with
  | [] => .error .overrun
  | victim :: rest => do
      check (victim ∈ hints.keys)
      return ⟨hints.keys.erase victim, rest⟩

def putSendHintNoDisk (hints : HintTable) (sha1name : Sha1Name) : Run HintTable := do
  let hints ← if maxHintNames ≤ hints.keys.length then evictHint hints else pure hints
  check (sha1name ∉ hints.keys)
  return ⟨sha1name :: hints.keys, hints.fifo ++ [sha1name]⟩

/-- The first loop of `DestroyChunkBuffer2`. -/
def flushCandidates : List OneCandidate → TempCache → Run TempCache
  | [], tmp => .ok tmp
  | walk :: rest, tmp => do
      let tmp ← refFlushChunk tmp walk.sha1name
      flushCandidates rest tmp

/-- The second loop of `DestroyChunkBuffer2`. -/
def putMissingNames (lowLevel : Int) : List OneChunkName → HintTable → Run HintTable
  | [], hints => .ok hints
  | name :: rest, hints =>
      if lowLevel < name.level then .ok hints
      else if name.isHit = false then do
        check (name.isSha1Ready)
        let hints ← if getSendHint hints name.sha1name = false then putSendHintNoDisk hints name.sha1name else pure hints
        putMissingNames lowLevel rest hints
      else putMissingNames lowLevel rest hints

def destroyChunkBuffer2 (cb : ChunkBuffer) (updateHint : Bool) (tmp : TempCache) (hints : HintTable) :
    Run (TempCache × HintTable) := do
  check (0 ≤ cb.lowLevel)
  let tmp ← flushCandidates cb.chunkList tmp
  let hints ← if updateHint then putMissingNames cb.lowLevel cb.pMRC hints else pure hints
  return (tmp, hints)

/-- `DestroyChunkBufferList`: the buffers that are left, and the tables. The comparison with `ack` is one of
unsigned numbers. -/
def destroyChunkBufferList (ack : BitVec 32) (updateHint : Bool) :
    List ChunkBuffer → TempCache → HintTable → Run (List ChunkBuffer × TempCache × HintTable)
  | [], tmp, hints => .ok ([], tmp, hints)
  | cb :: rest, tmp, hints =>
      if ack = 0 ∨ cb.seqNo + BitVec.ofNat 32 cb.length ≤ ack then do
        let r ← destroyChunkBuffer2 cb updateHint tmp hints
        destroyChunkBufferList ack updateHint rest r.1 r.2
      else .ok (cb :: rest, tmp, hints)

end BeagleCache

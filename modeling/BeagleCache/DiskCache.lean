import BeagleCache.Transition
import BeagleCache.ControlChannel

/-! The requests to the disk cache, `disk.c` and `ProcessCacheResponse` of `waprox.c`. A transaction waits in one of two
lists until a cache connection is idle; it is the connection's own until its response came, and goes back to a list when the
connection dies first. -/

namespace BeagleCache

open Transition

inductive HcMethod
  | put
  | get
  | peek
  deriving DecidableEq

/-- The arguments of `SendCacheRequest` that the cache itself reads. -/
structure CacheRequest where
  method : HcMethod
  sha1name : Bytes
  length : Int
  pChunk : Option Bytes
  deriving DecidableEq

/-- A `CacheTransactionInfo`. The source tells two transactions apart by their addresses; here they are numbered. -/
structure CacheTransactionInfo where
  number : Nat
  request : CacheRequest
  deriving DecidableEq

/-- A cache connection. `bufRead` is the memory of its read buffer, of which `lenRead` bytes were read; the bytes after them
are what was there before. -/
structure CacheConnection where
  pCurTrans : Option CacheTransactionInfo
  isClosed : Bool
  bufRead : Nat → Byte
  lenRead : Int
  sent : List Bytes

/-- The globals of `disk.c`. The last two fields are not in the source: the transactions that were ever created, and those
whose response was processed. -/
structure CacheState where
  firstClass : List CacheTransactionInfo
  secondClass : List CacheTransactionInfo
  numPendingFirst : Int
  numPendingSecond : Int
  connections : List (Option CacheConnection)
  numCacheConns : Int
  created : List CacheTransactionInfo
  processed : List CacheTransactionInfo

/-- `InitDiskCache` with the number of connections of the configuration. -/
def initDiskCache (maxCacheConns : Nat) : CacheState where
  firstClass := []
  secondClass := []
  numPendingFirst := 0
  numPendingSecond := 0
  connections := List.replicate maxCacheConns none
  numCacheConns := 0
  created := []
  processed := []

/-- `CreateCacheConnectionInfo` on memory that `malloc` returned. -/
def createCacheConnectionInfo (memory : Nat → Byte) : CacheConnection where
  pCurTrans := none
  isClosed := false
  bufRead := memory
  lenRead := 0
  sent := []

def IsIdle (slot : Option CacheConnection) : Bool := slot.any fun ci => ci.pCurTrans.isNone

/-- `GetIdleCacheConn`. It does not ask whether the connection is dead. -/
def getIdleCacheConn (connections : List (Option CacheConnection)) : Option Nat := connections.findIdx? IsIdle

def ascii (text : String) : Bytes := text.toList.map fun c => BitVec.ofNat 8 c.toNat

/-- `SHA1Str`. -/
def sha1Str (digest : Bytes) : Bytes :=
  let digit (n : Nat) : Byte := if n < 10 then BitVec.ofNat 8 (48 + n) else BitVec.ofNat 8 (87 + n)
  digest.flatMap fun b => [digit (b.toNat / 16), digit (b.toNat % 16)]

/-- The request `IssueCacheRequest` sends. -/
def cacheRequestText (request : CacheRequest) : Run Bytes :=
  let url (method : String) : Bytes := ascii method ++ ascii " http://waprox-" ++ sha1Str request.sha1name ++ ascii " HTTP/1.1\r\n"
  match request.method, request.pChunk with
  | .put, some pChunk => do
      check (0 < request.length)
      return url "WAPROX-PUT" ++ ascii ("Content-Length: " ++ toString request.length ++ "\r\n\r\n") ++
        pChunk.take request.length.toNat
  | .put, none => .error .assertion
  | .get, none => return url "WAPROX-GET" ++ ascii "\r\n"
  | .get, some _ => .error .assertion
  | .peek, _ => return url "WAPROX-PEEK" ++ ascii "\r\n"

/-- `IssueCacheRequest`. A write that fails sets the connection dead, which is an event of its own here: nothing on the way
asks for it. -/
def issueCacheRequest (connections : List (Option CacheConnection)) (i : Nat) (cci : CacheTransactionInfo) :
    Run (List (Option CacheConnection)) :=
  match connections[i]? with
  | some (some ci) => do
      check (ci.pCurTrans = none)
      let request ← cacheRequestText cci.request
      return connections.set i (some { ci with pCurTrans := some cci, sent := ci.sent ++ [request] })
  | _ => .error .overrun

/-- One of the two loops of `IssuePendingCacheRequests`: the requests that are left, their number and the connections. -/
def issueList : List CacheTransactionInfo → Int → List (Option CacheConnection) →
    Run (List CacheTransactionInfo × Int × List (Option CacheConnection))
  | [], numPending, connections => .ok ([], numPending, connections)
  | walk :: rest, numPending, connections =>
      match getIdleCacheConn connections with
      | none => .ok (walk :: rest, numPending, connections)
      | some i => do
          let connections ← issueCacheRequest connections i walk
          check (0 ≤ numPending - 1)
          issueList rest (numPending - 1) connections

/-- `IssuePendingCacheRequests`. -/
def issuePendingCacheRequests (s : CacheState) : Run CacheState := do
  let first ← issueList s.firstClass s.numPendingFirst s.connections
  let second ← issueList s.secondClass s.numPendingSecond first.2.2
  return { s with
    firstClass := first.1
    numPendingFirst := first.2.1
    secondClass := second.1
    numPendingSecond := second.2.1
    connections := second.2.2 }

/-- `ScheduleCacheRequest`. A put goes to the tail also when it is to be tried again. -/
def scheduleCacheRequest (s : CacheState) (cache_info : CacheTransactionInfo) (addTail : Bool) : CacheState :=
  match cache_info.request.method with
  | .put => { s with
      secondClass := s.secondClass ++ [cache_info]
      numPendingSecond := s.numPendingSecond + 1 }
  | _ => { s with
      firstClass := if addTail then s.firstClass ++ [cache_info] else cache_info :: s.firstClass
      numPendingFirst := s.numPendingFirst + 1 }

/-- `SendCacheRequest`. -/
def sendCacheRequest (s : CacheState) (request : CacheRequest) : Run CacheState := do
  check (request.pChunk.isSome → 0 < request.length)
  let cache_info := ⟨s.created.length, request⟩
  let s := { s with created := s.created ++ [cache_info] }
  issuePendingCacheRequests (scheduleCacheRequest s cache_info true)

/-- `strchr` in the read buffer: it goes on to the next zero byte, whatever was read. -/
def strchr (buffer : Nat → Byte) (c : Byte) : Nat → Nat → Run (Option Nat)
  | 0, _ => .error .overrun
  | fuel + 1, pos =>
      if buffer pos = c then .ok (some pos) else if buffer pos = 0 then .ok none else strchr buffer c fuel (pos + 1)

/-- The number that starts at `pos`. -/
def digits (buffer : Nat → Byte) : Nat → Nat → Nat → Run Nat
  | 0, _, _ => .error .overrun
  | fuel + 1, pos, value =>
      let b := (buffer pos).toNat
      if 48 ≤ b ∧ b ≤ 57 then digits buffer fuel (pos + 1) (value * 10 + (b - 48)) else .ok value

/-- `isspace`. -/
def isSpace (b : Byte) : Bool := b = 32 ∨ (9 ≤ b.toNat ∧ b.toNat ≤ 13)

/-- `atoi`: the `int` of what `strtol` returns, which stops at the largest `long`. -/
def atoi (buffer : Nat → Byte) : Nat → Nat → Run Int
  | 0, _ => .error .overrun
  | fuel + 1, pos =>
      if isSpace (buffer pos) then atoi buffer fuel (pos + 1)
      else if buffer pos = 45 then do
        let value ← digits buffer fuel (pos + 1) 0
        return (-(min value (2 ^ 63) : Nat) : Int).bmod (2 ^ 32)
      else do
        let start := if buffer pos = 43 then pos + 1 else pos
        let value ← digits buffer fuel start 0
        return ((min value (2 ^ 63 - 1) : Nat) : Int).bmod (2 ^ 32)

/-- What `ProcessCacheResponse` makes of a buffer: it needs more, it gives up, or the handlers are told of a hit with its
block, or of a miss. -/
inductive CacheReply
  | more
  | giveUp
  | hit (block : Bytes)
  | miss

/-- The bytes of a response that `ProcessCacheResponse` looks at. -/
def parseCacheResponse (buffer : Nat → Byte) (buf_len : Int) (request : CacheRequest) : Run CacheReply := do
  check (0 < buf_len)
  let found ← strchr buffer 10 recvBufsize 0
  match found with
  | none => return .more
  | some pos1 => do
    let space ← strchr buffer 32 recvBufsize 0
    match space with
    | none => return .giveUp
    | some pos_space => do
      check (12 ≤ buf_len)
      let respCode ← atoi buffer (recvBufsize - (pos_space + 1)) (pos_space + 1)
      if respCode = 302 then
        match request.method with
        | .get => do
            let next ← strchr buffer 10 (recvBufsize - (pos1 + 1)) (pos1 + 1)
            match next with
            | none => return .more
            | some pos2 => do
                check (24 ≤ buf_len)
                let content_length ← atoi buffer (recvBufsize - (pos1 + 16)) (pos1 + 16)
                check (content_length = request.length)
                let header_length := pos2 + 1 + 2
                if buf_len < content_length + header_length then return .more
                else do
                  check (content_length + header_length = buf_len)
                  return .hit ((List.range content_length.toNat).map fun k => buffer (header_length + k))
        | _ => return .hit []
      else if respCode = 400 then
        match request.method with
        | .put => .error .assertion
        | _ => return .miss
      else return .giveUp

/-- What is done with the connection in slot `i`, if there is one. -/
def withConnection (s : CacheState) (i : Nat) (f : CacheConnection → Run CacheState) : Run CacheState :=
  match s.connections[i]? with
  | some (some ci) => f ci
  | _ => .ok s

/-- The end of `ProcessCacheResponse`: the handlers `PostProcessCacheGET`, `-PUT` and `-PEEK` make requests of their own,
then the connection is available again. -/
def finishCacheResponse (s : CacheState) (i : Nat) (cci : CacheTransactionInfo) (requests : List CacheRequest) :
    Run CacheState := do
  let s ← requests.foldlM sendCacheRequest s
  withConnection s i fun ci => issuePendingCacheRequests { s with
    connections := s.connections.set i (some { ci with pCurTrans := none })
    processed := s.processed ++ [cci] }

/-- `ProcessCacheResponse` of the connection `ci` in slot `i`, with the requests its handler makes. -/
def processCacheResponse (s : CacheState) (i : Nat) (ci : CacheConnection) (requests : List CacheRequest) :
    Run (CacheState × Int) :=
  match ci.pCurTrans with
  | none => .error .assertion
  | some cci => do
      let reply ← parseCacheResponse ci.bufRead ci.lenRead cci.request
      match reply with
      | .more => return (s, 0)
      | .giveUp => return (s, -1)
      | _ => do
          let s ← finishCacheResponse s i cci requests
          return (s, ci.lenRead)

/-- `SetDead` of the connection in slot `i`. -/
def setCacheDead (s : CacheState) (i : Nat) : Run CacheState :=
  withConnection s i fun ci => return { s with connections := s.connections.set i (some { ci with isClosed := true }) }

/-- `AdjustReadBuffer`. -/
def adjustCacheBuffer (s : CacheState) (i : Nat) (num_processed : Int) : Run CacheState :=
  withConnection s i fun ci => do
    check (0 ≤ num_processed)
    check (0 ≤ ci.lenRead - num_processed)
    return { s with connections := s.connections.set i (some { ci with
      bufRead := fun k => if (k : Int) < ci.lenRead - num_processed then ci.bufRead (k + num_processed.toNat) else ci.bufRead k
      lenRead := ci.lenRead - num_processed }) }

/-- What the event loop does with a connection whose buffer is not empty, `ProcessReadBuffer`. -/
def processCacheBuffer (s : CacheState) (i : Nat) (requests : List CacheRequest) : Run CacheState :=
  withConnection s i fun ci =>
    if ci.lenRead ≤ 0 then .ok s
    else do
      let r ← processCacheResponse s i ci requests
      if r.2 = -1 then setCacheDead r.1 i
      else if r.2 = 0 then return r.1
      else adjustCacheBuffer r.1 i r.2

/-- `CloseConnection` of a cache connection: a rest in the buffer is processed and stays there. -/
def closeCacheConnection (s : CacheState) (i : Nat) (requests : List CacheRequest) : Run CacheState :=
  withConnection s i fun ci =>
    if ci.isClosed then .ok s
    else if 0 < ci.lenRead then do
      let r ← processCacheResponse s i ci requests
      setCacheDead r.1 i
    else setCacheDead s i

/-- `EventReadCB` with what `read` returns: an error, or some bytes, none of them at the end of the stream. -/
def cacheEventRead (s : CacheState) (i : Nat) (input : Option Bytes) (requests : List CacheRequest) : Run CacheState :=
  withConnection s i fun ci =>
    match input with
    | none => setCacheDead { s with connections := s.connections.set i (some { ci with lenRead := ci.lenRead - 1 }) } i
    | some data =>
        let data := data.take (recvBufsize - ci.lenRead.toNat)
        if data = [] then closeCacheConnection s i requests
        else return { s with connections := s.connections.set i (some { ci with
          bufRead := fun k => if k < ci.lenRead.toNat then ci.bufRead k else data.getD (k - ci.lenRead.toNat) (ci.bufRead k)
          lenRead := ci.lenRead + data.length }) }

/-- `MakeNewCacheConnection` in an empty slot. -/
def makeNewCacheConnection (s : CacheState) (i : Nat) (memory : Nat → Byte) : CacheState :=
  match s.connections[i]? with
  | some none => { s with
      connections := s.connections.set i (some (createCacheConnectionInfo memory))
      numCacheConns := s.numCacheConns + 1 }
  | _ => s

/-- `DestroyCacheConnectionInfo`, which `CleanUpClosedConnections` calls for dead connections. -/
def destroyCacheConnectionInfo (s : CacheState) (i : Nat) : Run CacheState :=
  withConnection s i fun ci =>
    if ci.isClosed then do
      let s := { s with connections := s.connections.set i none, numCacheConns := s.numCacheConns - 1 }
      check (0 ≤ s.numCacheConns)
      match ci.pCurTrans with
      | some cache_tinfo => issuePendingCacheRequests (scheduleCacheRequest s cache_tinfo false)
      | none => issuePendingCacheRequests s
    else .ok s

/-- What happens to the disk cache. -/
inductive CacheEvent
  | send (request : CacheRequest)
  | connect (i : Nat) (memory : Nat → Byte)
  | read (i : Nat) (input : Option Bytes) (requests : List CacheRequest)
  | process (i : Nat) (requests : List CacheRequest)
  | dead (i : Nat)
  | destroy (i : Nat)

def cacheNext (s : CacheState) : CacheEvent → Run CacheState
  | .send request => sendCacheRequest s request
  | .connect i memory => .ok (makeNewCacheConnection s i memory)
  | .read i input requests => cacheEventRead s i input requests
  | .process i requests => processCacheBuffer s i requests
  | .dead i => setCacheDead s i
  | .destroy i => destroyCacheConnectionInfo s i

def cacheSystem (maxCacheConns : Nat) : System CacheState CacheEvent := .ofNext (· = initDiskCache maxCacheConns) cacheNext

end BeagleCache

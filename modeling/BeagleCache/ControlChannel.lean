import BeagleCache.ChunkChannel
import BeagleCache.UserData

/-! The control flow between two proxies: the builders of `protocol.c`, `VerifyControlHeader`, and the handlers that
`ProcessControlData` of `waprox.c` calls. What a handler does with the tables of the proxy is a parameter: `found` says
whether `GetDestinationConnection` finds the connection of a message, and `handle` gets what a message asks for. A
handler reads the bytes of its message where the source does, and returns what the source returns. -/

namespace BeagleCache

def magicWAOpenConnection : Byte := 0x70
def magicWACloseConnection : Byte := 0x72
def magicWANameAck : Byte := 0x73

/-- The letters `O`, `C` and `A`. -/
def typeWAOpenConnection : Byte := 0x4f
def typeWACloseConnection : Byte := 0x43
def typeWANameAck : Byte := 0x41

def sizeofWAOpenConnection : Nat := 19
def sizeofWACloseConnection : Nat := 23
def sizeofWANameAck : Nat := 23

/-- `RECV_BUFSIZE`, which is `MIN_RABIN_BUFSIZE * 1.1`. It is a `double`: an allocation and a read cut its fraction off. -/
def recvBufsize : Nat := minRabinBufsize * 11 / 10

def buildWAOpenConnection (id : ConnectionID) : Run Bytes := do
  let hdr ← fillControlHeader id typeWAOpenConnection sizeofWAOpenConnection
  return hdr ++ [magicWAOpenConnection]

def buildWANameAck (id : ConnectionID) (ack : BitVec 32) : Run Bytes := do
  let hdr ← fillControlHeader id typeWANameAck sizeofWANameAck
  return hdr ++ ([magicWANameAck] ++ htonl ack)

def buildWACloseConnection (id : ConnectionID) (bytesTX : BitVec 32) : Run Bytes := do
  let hdr ← fillControlHeader id typeWACloseConnection sizeofWACloseConnection
  return hdr ++ ([magicWACloseConnection] ++ htonl bytesTX)

/-! ## The handlers -/

/-- What a handler does to the proxy. A name delivery starts an entry of the reassemble list, adds its chunks one by
one, and ends it. -/
inductive ControlEvent
  | openConnection (id : ConnectionID)
  | newTree (id : ConnectionID)
  | chunk (id : ConnectionID) (c : WireChunk)
  | endTree (id : ConnectionID)
  | nameAck (id : ConnectionID) (ack : BitVec 32)
  | closeConnection (id : ConnectionID) (bytesTX : BitVec 32)
  | rawMessage (id : ConnectionID) (data : Bytes)
  deriving DecidableEq

local instance : LawfulBEq Byte := inferInstance

/-- `VerifyControlHeader`. -/
def verifyControlHeader (buffer : Bytes) : Run HeaderCheck :=
  if buffer.length < sizeofWAControlHeader then .ok .wait
  else do
    let magic ← readAt buffer 0 1
    if magic ≠ [magicWAHeader] then return .invalid
    else do
      let length ← headerLength buffer
      if buffer.length < length.toNat then return .wait
      else do
        let msgType ← readAt buffer 1 1
        if msgType.headD 0 ∈ [typeWAOpenConnection, typeWANameDelivery, typeWACloseConnection, typeWANameAck,
            typeWARawMessage] then
          return .message (msgType.headD 0)
        else return .invalid

section Process

variable {σ : Type} (found : σ → ConnectionID → Bool) (handle : σ → ControlEvent → Run σ)

/-- `ProcessOpenConnection`. -/
def processOpenConnection (buffer : Bytes) (s : σ) : Run (σ × Int) := do
  let id ← headerConnID buffer
  check id.Known
  let s ← handle s (.openConnection id)
  return (s, (sizeofWAOpenConnection : Int))

/-- `ProcessNameAck`. -/
def processNameAck (buffer : Bytes) (s : σ) : Run (σ × Int) := do
  let ack ← readU32 buffer (sizeofWAControlHeader + 1)
  let id ← headerConnID buffer
  check id.Known
  let s ← if found s id then handle s (.nameAck id ack) else pure s
  check (sizeofWANameAck ≤ buffer.length)
  return (s, (sizeofWANameAck : Int))

/-- `ProcessCloseConnection`. -/
def processCloseConnection (buffer : Bytes) (s : σ) : Run (σ × Int) := do
  let id ← headerConnID buffer
  let bytesTX ← readU32 buffer (sizeofWAControlHeader + 1)
  check id.Known
  let s ← if found s id then handle s (.closeConnection id bytesTX) else pure s
  return (s, (sizeofWACloseConnection : Int))

/-- `ProcessRawMessage`. -/
def processRaw (buffer : Bytes) (s : σ) : Run (σ × Int) := do
  let id ← headerConnID buffer
  let msgLen ← readU32 buffer (sizeofWAControlHeader + 1)
  check (0 < msgLen.toInt)
  let totLength ← headerLength buffer
  check (totLength.toInt ≤ buffer.length)
  check id.Known
  if found s id then do
    let data ← readAt buffer sizeofWARawMessage msgLen.toNat
    let s ← handle s (.rawMessage id data)
    return (s, totLength.toInt)
  else return (s, totLength.toInt)

/-- The loop of `ProcessNameTreeDelivery2` over the chunks: the state and the offset behind them. -/
def processChunks (id : ConnectionID) (buffer : Bytes) : Nat → Nat → σ → Run (σ × Nat)
  | 0, offset, s => .ok (s, offset)
  | n + 1, offset, s => do
      let c ← readOneChunk buffer offset
      let s ← handle s (.chunk id c.1)
      processChunks id buffer n c.2 s

/-- `ProcessNameTreeDelivery2`. -/
def processNames (buffer : Bytes) (s : σ) : Run (σ × Int) := do
  let totLength ← headerLength buffer
  let numTrees ← readU32 buffer (sizeofWAControlHeader + 1)
  check (totLength.toInt ≤ buffer.length)
  check (0 ≤ numTrees.toInt)
  check (numTrees.toInt = 1)
  let id ← headerConnID buffer
  check id.Known
  if found s id then do
    let s ← handle s (.newTree id)
    let numNames ← readU32 buffer (sizeofWANameDelivery + 1)
    let r ← processChunks handle id buffer numNames.toInt.toNat (sizeofWANameDelivery + sizeofWAOneTree) s
    let s ← handle r.1 (.endTree id)
    check ((r.2 : Int) = totLength.toInt)
    return (s, totLength.toInt)
  else return (s, totLength.toInt)

/-- The dispatch of `ProcessControlData` on a message type. -/
def processOneControl (msgType : Byte) (buffer : Bytes) (s : σ) : Run (σ × Int) :=
  if msgType = typeWAOpenConnection then processOpenConnection handle buffer s
  else if msgType = typeWANameDelivery then processNames found handle buffer s
  else if msgType = typeWANameAck then processNameAck found handle buffer s
  else if msgType = typeWACloseConnection then processCloseConnection found handle buffer s
  else if msgType = typeWARawMessage then processRaw found handle buffer s
  else .error .assertion

/-- The loop of `ProcessControlData`. A handler that takes more than there is ends it, `buf_len` being negative then.
Every round takes at least a byte, so it ends within `fuel = buf_len + 1` of them. -/
def controlLoop : Nat → Bytes → Int → σ → Run (σ × Int)
  | 0, _, _, _ => .error .hang
  | fuel + 1, buffer, numProcessed, s =>
      if buffer.length = 0 then .ok (s, numProcessed)
      else do
        match ← verifyControlHeader buffer with
        | .wait => return (s, numProcessed)
        | .invalid => return (s, -1)
        | .message msgType => do
            let r ← processOneControl found handle msgType buffer s
            if r.2 = 0 then return (r.1, numProcessed)
            else if r.2 = -1 then return (r.1, -1)
            else do
              -- the length in a header that was verified is not negative
              inBounds (0 ≤ r.2)
              controlLoop fuel (buffer.drop r.2.toNat) (numProcessed + r.2) r.1

/-- `ProcessControlData`: the state behind the handlers and the number of bytes it took. -/
def processControlData (buffer : Bytes) (s : σ) : Run (σ × Int) :=
  controlLoop found handle (buffer.length + 1) buffer 0 s

/-- `ProcessReadBuffer` of a control connection: the state and `bufRead`, or `none` where it gives the connection up. -/
def processReadBuffer (bufRead : Bytes) (s : σ) : Run (σ × Option Bytes) := do
  let r ← processControlData found handle bufRead s
  if r.2 = -1 then return (r.1, none)
  else if r.2 = 0 then return (r.1, some bufRead)
  else do
    check (0 < r.2)
    -- `AdjustReadBuffer`
    check (r.2 ≤ bufRead.length)
    return (r.1, some (bufRead.drop r.2.toNat))

/-- `EventReadCB` and `ProcessReadBuffer` on a connection from which `stream` is still to be read: the kernel hands out
`n` bytes, or what there is room for, or what there is. The results are the state, `bufRead` and the rest of the stream. -/
def readControl (n : Nat) (bufRead stream : Bytes) (s : σ) : Run (σ × Option Bytes × Bytes) := do
  -- the fraction of `RECV_BUFSIZE` is room enough for the assertion
  check (bufRead.length ≤ recvBufsize)
  if bufRead.length = recvBufsize then
    -- a read of no bytes is taken for the end of the stream
    return (s, none, stream)
  else do
    let numRead := min n (recvBufsize - bufRead.length)
    let r ← processReadBuffer found handle (bufRead ++ stream.take numRead) s
    return (r.1, r.2, stream.drop numRead)

/-- One read after the other. -/
def readAll : List Nat → Bytes → Bytes → σ → Run (σ × Option Bytes × Bytes)
  | [], bufRead, stream, s => .ok (s, some bufRead, stream)
  | n :: reads, bufRead, stream, s => do
      let r ← readControl found handle n bufRead stream s
      match r.2.1 with
      | none => return r
      | some bufRead => readAll reads bufRead r.2.2 r.1

end Process

end BeagleCache

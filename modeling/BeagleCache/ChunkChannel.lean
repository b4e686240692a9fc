import BeagleCache.NameDelivery

/-! The chunk flow between two proxies: the six builders of `protocol.c`, `VerifyChunkHeader`, and the parsers that
`ProcessChunkData` of `waprox.c` calls. The parsers hand what they read to the cache, the disk and the request
tables; here that is a handler, a parameter, which gets the messages one by one. -/

namespace BeagleCache

open Run

def magicWABodyRequest : Byte := 0x80
def magicWABodyResponse : Byte := 0x81
def magicWAPeekRequest : Byte := 0x82
def magicWAPeekResponse : Byte := 0x83
def magicWAPutRequest : Byte := 0x84
def magicWAPutResponse : Byte := 0x85

/-- The letters `Q`, `R`, `E`, `K`, `U` and `T`. -/
def typeWABodyRequest : Byte := 0x51
def typeWABodyResponse : Byte := 0x52
def typeWAPeekRequest : Byte := 0x45
def typeWAPeekResponse : Byte := 0x4b
def typeWAPutRequest : Byte := 0x55
def typeWAPutResponse : Byte := 0x54

def sizeofWAChunkHeader : Nat := 6

/-- The fixed part of every message is a header, a magic number and a count. -/
def sizeofWABodyRequest : Nat := 11
def sizeofWABodyResponse : Nat := 11
def sizeofWAPeekRequest : Nat := 11
def sizeofWAPeekResponse : Nat := 11
def sizeofWAPutRequest : Nat := 11
def sizeofWAPutResponse : Nat := 11

def sizeofWAOneRequest : Nat := 28
def sizeofWAOneResponse : Nat := 24
def sizeofWAOnePeekRequest : Nat := 20
def sizeofWAOnePeekResponse : Nat := 21
def sizeofWAOnePutRequest : Nat := 24
def sizeofWAOnePutResponse : Nat := 20

/-- One request or response, with the fields it carries. An address stands in memory as it came. -/
inductive ChunkMessage
  | bodyRequest (orgPxyAddr : BitVec 32) (sha1name : Sha1Name) (length : BitVec 32)
  | bodyResponse (sha1name : Sha1Name) (block : Bytes)
  | peekRequest (sha1name : Sha1Name)
  | peekResponse (sha1name : Sha1Name) (isHit : Byte)
  | putRequest (sha1name : Sha1Name) (block : Bytes)
  | putResponse (sha1name : Sha1Name)
  deriving DecidableEq

/-! ## The builders -/

/-- What a builder returns: the memory it allocated and filled, and `*len`. -/
structure Built where
  buffer : Bytes
  len : Nat
  deriving DecidableEq

/-- `FillChunkHeader`. -/
def fillChunkHeader (type : Byte) (length : Nat) : Bytes :=
  [magicWAHeader, type] ++ htonl (BitVec.ofNat 32 length)

/-- A message with one entry, whose header says `len`. -/
def fillMessage (type magic : Byte) (len : Nat) (entry : Bytes) : Built where
  buffer := fillChunkHeader type len ++ ([magic] ++ (htonl 1 ++ entry))
  len := len

def buildWABodyRequest (orgPxyAddr : BitVec 32) (sha1name : Sha1Name) (length : BitVec 32) : Run Built :=
  .ok (fillMessage typeWABodyRequest magicWABodyRequest (sizeofWABodyRequest + sizeofWAOneRequest)
    (memInt orgPxyAddr ++ (sha1name.bytes ++ htonl length)))

def buildWABodyResponse (sha1name : Sha1Name) (block : Bytes) : Run Built := do
  check (0 < block.length)
  return fillMessage typeWABodyResponse magicWABodyResponse (sizeofWABodyResponse + sizeofWAOneResponse + block.length)
    (sha1name.bytes ++ (htonl (BitVec.ofNat 32 block.length) ++ block))

def buildWAPeekRequest (sha1name : Sha1Name) : Run Built :=
  .ok (fillMessage typeWAPeekRequest magicWAPeekRequest (sizeofWAPeekRequest + sizeofWAOnePeekRequest) sha1name.bytes)

/-- `BuildWAPeekResponse`. It allocates a `WAOnePeekResponse`, and `*len` counts a `WAOneResponse`. -/
def buildWAPeekResponse (sha1name : Sha1Name) (isHit : Byte) : Run Built :=
  .ok (fillMessage typeWAPeekResponse magicWAPeekResponse (sizeofWABodyResponse + sizeofWAOneResponse) (sha1name.bytes ++ [isHit]))

def buildWAPutRequest (sha1name : Sha1Name) (block : Bytes) : Run Built := do
  check (0 < block.length)
  return fillMessage typeWAPutRequest magicWAPutRequest (sizeofWAPutRequest + sizeofWAOnePutRequest + block.length)
    (sha1name.bytes ++ (htonl (BitVec.ofNat 32 block.length) ++ block))

def buildWAPutResponse (sha1name : Sha1Name) : Run Built :=
  .ok (fillMessage typeWAPutResponse magicWAPutResponse (sizeofWAPutResponse + sizeofWAOnePutResponse) sha1name.bytes)

/-- The builder of a message. -/
def ChunkMessage.build : ChunkMessage → Run Built
  | .bodyRequest orgPxyAddr sha1name length => buildWABodyRequest orgPxyAddr sha1name length
  | .bodyResponse sha1name block => buildWABodyResponse sha1name block
  | .peekRequest sha1name => buildWAPeekRequest sha1name
  | .peekResponse sha1name isHit => buildWAPeekResponse sha1name isHit
  | .putRequest sha1name block => buildWAPutRequest sha1name block
  | .putResponse sha1name => buildWAPutResponse sha1name

/-! ## The parsers -/

/-- The field `length` of a chunk header. -/
def chunkHeaderLength (buffer : Bytes) : Run (BitVec 32) := readU32 buffer 2

/-- What `VerifyChunkHeader` returns: `0`, `-1`, or `1` with a message type. -/
inductive HeaderCheck
  | wait
  | invalid
  | message (msgType : Byte)
  deriving DecidableEq

def verifyChunkHeader (buffer : Bytes) : Run HeaderCheck :=
  if buffer.length < sizeofWAChunkHeader then .ok .wait
  else do
    let magic ← readAt buffer 0 1
    if magic ≠ [magicWAHeader] then return .invalid
    else do
      let length ← chunkHeaderLength buffer
      if buffer.length < length.toNat then return .wait
      else do
        let msgType ← readAt buffer 1 1
        if msgType.headD 0 ∈ [typeWABodyRequest, typeWABodyResponse, typeWAPeekRequest, typeWAPeekResponse, typeWAPutRequest,
            typeWAPutResponse] then
          return .message (msgType.headD 0)
        else return .invalid

/-- The entry of a `WABodyRequest` at `offset` and the offset behind it. -/
def readOneRequest (buffer : Bytes) (offset : Nat) : Run (ChunkMessage × Nat) := do
  let addr ← readInt buffer offset
  let sha1name ← readSha1Name buffer (offset + 4)
  let length ← readU32 buffer (offset + 24)
  return (.bodyRequest addr sha1name length, offset + sizeofWAOneRequest)

/-- An entry of a name, a length and a block. A negative length asks for more bytes than any buffer has. -/
def readBlock (message : Sha1Name → Bytes → ChunkMessage) (buffer : Bytes) (offset : Nat) : Run (ChunkMessage × Nat) := do
  let sha1name ← readSha1Name buffer offset
  let length ← readU32 buffer (offset + 20)
  let block ← readAt buffer (offset + 24) length.toNat
  return (message sha1name block, offset + 24 + length.toNat)

/-- The entry of a `WABodyResponse`; its block may not be empty. -/
def readOneResponse (buffer : Bytes) (offset : Nat) : Run (ChunkMessage × Nat) := do
  let length ← readU32 buffer (offset + 20)
  check (0 < length.toNat)
  readBlock .bodyResponse buffer offset

def readOnePutRequest (buffer : Bytes) (offset : Nat) : Run (ChunkMessage × Nat) := readBlock .putRequest buffer offset

/-- An entry of a name. -/
def readName (message : Sha1Name → ChunkMessage) (buffer : Bytes) (offset : Nat) : Run (ChunkMessage × Nat) := do
  let sha1name ← readSha1Name buffer offset
  return (message sha1name, offset + 20)

def readOnePeekRequest (buffer : Bytes) (offset : Nat) : Run (ChunkMessage × Nat) := readName .peekRequest buffer offset

def readOnePutResponse (buffer : Bytes) (offset : Nat) : Run (ChunkMessage × Nat) := readName .putResponse buffer offset

def readOnePeekResponse (buffer : Bytes) (offset : Nat) : Run (ChunkMessage × Nat) := do
  let sha1name ← readSha1Name buffer offset
  let isHit ← readAt buffer (offset + 20) 1
  return (.peekResponse sha1name (isHit.headD 0), offset + sizeofWAOnePeekResponse)

section Process

variable {σ : Type} (handle : σ → ChunkMessage → Run σ)

/-- The loop of a parser over its entries. -/
def processEntries (readOne : Bytes → Nat → Run (ChunkMessage × Nat)) (buffer : Bytes) : Nat → Nat → σ → Run σ
  | 0, _, s => .ok s
  | n + 1, offset, s => do
      let r ← readOne buffer offset
      let s ← handle s r.1
      processEntries readOne buffer n r.2 s

/-- A parser whose entries start at `fixed`: the state behind its handlers and `tot_len`. -/
def processMessage (fixed : Nat) (readOne : Bytes → Nat → Run (ChunkMessage × Nat)) (buffer : Bytes) (s : σ) :
    Run (σ × Int) := do
  let totLen ← chunkHeaderLength buffer
  check (totLen.toInt ≤ buffer.length)
  let count ← readU32 buffer (sizeofWAChunkHeader + 1)
  check (1 ≤ count.toInt)
  let s ← processEntries handle readOne buffer count.toNat fixed s
  return (s, totLen.toInt)

def processBodyRequest (buffer : Bytes) (s : σ) : Run (σ × Int) :=
  processMessage handle sizeofWABodyRequest readOneRequest buffer s

def processBodyResponse (buffer : Bytes) (s : σ) : Run (σ × Int) :=
  processMessage handle sizeofWABodyResponse readOneResponse buffer s

def processPeekRequest (buffer : Bytes) (s : σ) : Run (σ × Int) :=
  processMessage handle sizeofWAPeekRequest readOnePeekRequest buffer s

def processPeekResponse (buffer : Bytes) (s : σ) : Run (σ × Int) :=
  processMessage handle sizeofWAPeekResponse readOnePeekResponse buffer s

def processPutRequest (buffer : Bytes) (s : σ) : Run (σ × Int) :=
  processMessage handle sizeofWAPutRequest readOnePutRequest buffer s

def processPutResponse (buffer : Bytes) (s : σ) : Run (σ × Int) :=
  processMessage handle sizeofWAPutResponse readOnePutResponse buffer s

/-- The dispatch of `ProcessChunkData` on a message type. -/
def processOneMessage (msgType : Byte) (buffer : Bytes) (s : σ) : Run (σ × Int) :=
  if msgType = typeWABodyRequest then processBodyRequest handle buffer s
  else if msgType = typeWABodyResponse then processBodyResponse handle buffer s
  else if msgType = typeWAPeekRequest then processPeekRequest handle buffer s
  else if msgType = typeWAPeekResponse then processPeekResponse handle buffer s
  else if msgType = typeWAPutRequest then processPutRequest handle buffer s
  else if msgType = typeWAPutResponse then processPutResponse handle buffer s
  else .error .assertion

/-- The loop of `ProcessChunkData`. Every round takes at least a byte, so it ends within `fuel = buf_len + 1` of them. -/
def processLoop : Nat → Bytes → Int → σ → Run (σ × Int)
  | 0, _, _, _ => .error .hang
  | fuel + 1, buffer, numProcessed, s =>
      if buffer.length = 0 then .ok (s, numProcessed)
      else do
        match ← verifyChunkHeader buffer with
        | .wait => return (s, numProcessed)
        | .invalid => return (s, -1)
        | .message msgType => do
            let r ← processOneMessage handle msgType buffer s
            if r.2 = 0 then return (r.1, numProcessed)
            else if r.2 = -1 then return (r.1, -1)
            else do
              -- a message is never longer than the buffer, nor shorter than nothing
              inBounds (0 ≤ r.2)
              processLoop fuel (buffer.drop r.2.toNat) (numProcessed + r.2) r.1

/-- `ProcessChunkData`: the state behind the handlers and the number of bytes it took. -/
def processChunkData (buffer : Bytes) (s : σ) : Run (σ × Int) := processLoop handle (buffer.length + 1) buffer 0 s

end Process

/-! ## What a message carries -/

namespace ChunkMessage

def type : ChunkMessage → Byte
  | bodyRequest .. => typeWABodyRequest
  | bodyResponse .. => typeWABodyResponse
  | peekRequest .. => typeWAPeekRequest
  | peekResponse .. => typeWAPeekResponse
  | putRequest .. => typeWAPutRequest
  | putResponse .. => typeWAPutResponse

def magic : ChunkMessage → Byte
  | bodyRequest .. => magicWABodyRequest
  | bodyResponse .. => magicWABodyResponse
  | peekRequest .. => magicWAPeekRequest
  | peekResponse .. => magicWAPeekResponse
  | putRequest .. => magicWAPutRequest
  | putResponse .. => magicWAPutResponse

/-- The bytes behind the fixed part. -/
def entry : ChunkMessage → Bytes
  | bodyRequest orgPxyAddr sha1name length => memInt orgPxyAddr ++ (sha1name.bytes ++ htonl length)
  | bodyResponse sha1name block => sha1name.bytes ++ (htonl (BitVec.ofNat 32 block.length) ++ block)
  | peekRequest sha1name => sha1name.bytes
  | peekResponse sha1name isHit => sha1name.bytes ++ [isHit]
  | putRequest sha1name block => sha1name.bytes ++ (htonl (BitVec.ofNat 32 block.length) ++ block)
  | putResponse sha1name => sha1name.bytes

def readOne : ChunkMessage → Bytes → Nat → Run (ChunkMessage × Nat)
  | bodyRequest .. => readOneRequest
  | bodyResponse .. => readOneResponse
  | peekRequest .. => readOnePeekRequest
  | peekResponse .. => readOnePeekResponse
  | putRequest .. => readOnePutRequest
  | putResponse .. => readOnePutResponse

/-- A block is not empty. -/
def HasBlock : ChunkMessage → Prop
  | bodyResponse _ block => 0 < block.length
  | putRequest _ block => 0 < block.length
  | _ => True

def IsPeekResponse : ChunkMessage → Prop
  | peekResponse .. => True
  | _ => False

end ChunkMessage

/-- `*len` is the length in the header and the size of what was allocated and filled. -/
def Built.Exact (b : Built) : Prop :=
  chunkHeaderLength b.buffer = .ok (BitVec.ofNat 32 b.len) ∧ b.buffer.length = b.len

section Message

variable {m : ChunkMessage}

/-- The memory a builder fills. -/
def ChunkMessage.bytes (m : ChunkMessage) : Bytes :=
  fillChunkHeader m.type (sizeofWABodyRequest + m.entry.length) ++ ([m.magic] ++ (htonl 1 ++ m.entry))

theorem ChunkMessage.bytes_length (m : ChunkMessage) : m.bytes.length = sizeofWABodyRequest + m.entry.length := by
  rw [ChunkMessage.bytes]
  simp only [fillChunkHeader, List.length_append, htonl_length, List.length_cons, List.length_nil, sizeofWABodyRequest]
  omega

theorem build_eq (hblock : m.HasBlock) (hpeek : ¬ m.IsPeekResponse) : m.build = .ok ⟨m.bytes, m.bytes.length⟩ := by
  rw [ChunkMessage.bytes_length]
  cases m with
  | bodyRequest orgPxyAddr sha1name length =>
      have hlen : (ChunkMessage.bodyRequest orgPxyAddr sha1name length).entry.length = sizeofWAOneRequest := by
        simp [ChunkMessage.entry, sha1name.length_eq, sizeofWAOneRequest]
      rw [ChunkMessage.bytes, hlen]
      rfl
  | bodyResponse sha1name block =>
      have hlen : (ChunkMessage.bodyResponse sha1name block).entry.length = sizeofWAOneResponse + block.length := by
        simp [ChunkMessage.entry, sha1name.length_eq, sizeofWAOneResponse]
        omega
      have hpos : 0 < block.length := hblock
      rw [ChunkMessage.build, buildWABodyResponse, check_of hpos, ok_bind, ChunkMessage.bytes, hlen, ← Nat.add_assoc]
      rfl
  | peekRequest sha1name =>
      rw [ChunkMessage.bytes, show (ChunkMessage.peekRequest sha1name).entry.length = sizeofWAOnePeekRequest from
        sha1name.length_eq]
      rfl
  | peekResponse sha1name isHit => exact absurd trivial hpeek
  | putRequest sha1name block =>
      have hlen : (ChunkMessage.putRequest sha1name block).entry.length = sizeofWAOnePutRequest + block.length := by
        simp [ChunkMessage.entry, sha1name.length_eq, sizeofWAOnePutRequest]
        omega
      have hpos : 0 < block.length := hblock
      rw [ChunkMessage.build, buildWAPutRequest, check_of hpos, ok_bind, ChunkMessage.bytes, hlen, ← Nat.add_assoc]
      rfl
  | putResponse sha1name =>
      rw [ChunkMessage.bytes, show (ChunkMessage.putResponse sha1name).entry.length = sizeofWAOnePutResponse from
        sha1name.length_eq]
      rfl

theorem chunkHeaderLength_bytes (m : ChunkMessage) (rest : Bytes) :
    chunkHeaderLength (m.bytes ++ rest) = .ok (BitVec.ofNat 32 m.bytes.length) := by
  rw [ChunkMessage.bytes_length, chunkHeaderLength, ChunkMessage.bytes, fillChunkHeader, List.append_assoc, List.append_assoc,
    readU32_skip _ _ (show 2 = [magicWAHeader, m.type].length + 0 from rfl), readU32_head]

theorem bytes_append (m : ChunkMessage) (rest : Bytes) : ∃ fixed : Bytes, fixed.length = sizeofWABodyRequest ∧
    m.bytes ++ rest = fixed ++ (m.entry ++ rest) := by
  refine ⟨fillChunkHeader m.type (sizeofWABodyRequest + m.entry.length) ++ ([m.magic] ++ htonl 1), rfl, ?_⟩
  simp only [ChunkMessage.bytes, List.append_assoc]

theorem count_bytes (m : ChunkMessage) (rest : Bytes) : readU32 (m.bytes ++ rest) (sizeofWAChunkHeader + 1) = .ok 1 := by
  have hbytes : m.bytes ++ rest = (fillChunkHeader m.type (sizeofWABodyRequest + m.entry.length) ++ [m.magic]) ++
      (htonl 1 ++ (m.entry ++ rest)) := by
    simp only [ChunkMessage.bytes, List.append_assoc]
  rw [hbytes, readU32_skip _ _ (show sizeofWAChunkHeader + 1 =
    (fillChunkHeader m.type (sizeofWABodyRequest + m.entry.length) ++ [m.magic]).length + 0 from rfl), readU32_head]

theorem verifyChunkHeader_bytes (m : ChunkMessage) (rest : Bytes) (hsmall : (m.bytes ++ rest).length < 2 ^ 31) :
    verifyChunkHeader (m.bytes ++ rest) = .ok (.message m.type) := by
  have hlen := m.bytes_length
  have hle : m.bytes.length ≤ (m.bytes ++ rest).length := by
    rw [List.length_append]
    omega
  have hnat := toNat_ofNat_of_lt (show m.bytes.length < 2 ^ 31 by omega)
  have hmagic : readAt (m.bytes ++ rest) 0 1 = .ok [magicWAHeader] := by
    rw [ChunkMessage.bytes, fillChunkHeader, List.append_assoc, List.append_assoc]
    exact readAt_head [magicWAHeader] _ rfl
  have htype : readAt (m.bytes ++ rest) 1 1 = .ok [m.type] := by
    rw [ChunkMessage.bytes, fillChunkHeader, List.append_assoc, List.append_assoc]
    exact (readAt_skip [magicWAHeader] _ (show 1 = [magicWAHeader].length + 0 from rfl)).trans (readAt_head [m.type] _ rfl)
  unfold verifyChunkHeader
  rw [if_neg (by unfold sizeofWAChunkHeader; unfold sizeofWABodyRequest at hlen; omega), hmagic, ok_bind,
    if_neg (by simp), chunkHeaderLength_bytes, ok_bind, if_neg (by omega), htype, ok_bind, if_pos]
  · rfl
  · cases m <;> simp [ChunkMessage.type]

theorem readBlock_eq (message : Sha1Name → Bytes → ChunkMessage) (pre : Bytes) (sha1name : Sha1Name) (block rest : Bytes)
    (hsmall : block.length < 2 ^ 31) :
    readBlock message (pre ++ ((sha1name.bytes ++ (htonl (BitVec.ofNat 32 block.length) ++ block)) ++ rest)) pre.length =
      .ok (message sha1name block, pre.length + (24 + block.length)) := by
  have hname := sha1name.length_eq
  have hnat := toNat_ofNat_of_lt hsmall
  unfold readBlock
  rw [List.append_assoc, List.append_assoc, readSha1Name_skip pre _ (show pre.length = pre.length + 0 from rfl), readSha1Name_head,
    ok_bind, readU32_skip pre _ rfl, readU32_skip sha1name.bytes _ (show 20 = sha1name.bytes.length + 0 by omega), readU32_head,
    ok_bind, readAt_skip pre _ rfl, readAt_skip sha1name.bytes _ (show 24 = sha1name.bytes.length + 4 by omega),
    readAt_skip (htonl _) _ (show 4 = (htonl (BitVec.ofNat 32 block.length)).length + 0 from rfl), hnat,
    readAt_head block rest rfl, ok_bind, Nat.add_assoc]
  rfl

theorem readName_eq (message : Sha1Name → ChunkMessage) (pre : Bytes) (sha1name : Sha1Name) (rest : Bytes) :
    readName message (pre ++ (sha1name.bytes ++ rest)) pre.length = .ok (message sha1name, pre.length + 20) := by
  unfold readName
  rw [readSha1Name_skip pre _ (show pre.length = pre.length + 0 from rfl), readSha1Name_head, ok_bind]
  rfl

/-- Every parser reads the entry of its own message. -/
theorem readOne_eq (hblock : m.HasBlock) (pre rest : Bytes) (hsmall : m.entry.length < 2 ^ 31) :
    m.readOne (pre ++ (m.entry ++ rest)) pre.length = .ok (m, pre.length + m.entry.length) := by
  cases m with
  | bodyRequest orgPxyAddr sha1name length =>
      have hname := sha1name.length_eq
      show readOneRequest (pre ++ ((memInt orgPxyAddr ++ (sha1name.bytes ++ htonl length)) ++ rest)) pre.length = _
      unfold readOneRequest
      rw [List.append_assoc, List.append_assoc, readInt_skip pre _ (show pre.length = pre.length + 0 from rfl), readInt_head,
        ok_bind, readSha1Name_skip pre _ rfl,
        readSha1Name_skip (memInt orgPxyAddr) _ (show 4 = (memInt orgPxyAddr).length + 0 from rfl), readSha1Name_head, ok_bind,
        readU32_skip pre _ rfl, readU32_skip (memInt orgPxyAddr) _ (show 24 = (memInt orgPxyAddr).length + 20 from rfl),
        readU32_skip sha1name.bytes _ (show 20 = sha1name.bytes.length + 0 by omega), readU32_head, ok_bind]
      simp [ChunkMessage.entry, hname, sizeofWAOneRequest]
  | bodyResponse sha1name block =>
      have hname := sha1name.length_eq
      have hpos : 0 < block.length := hblock
      have hlen : (ChunkMessage.bodyResponse sha1name block).entry.length = 24 + block.length := by
        simp [ChunkMessage.entry, hname]
        omega
      have hnat := toNat_ofNat_of_lt (show block.length < 2 ^ 31 by omega)
      have hlength : readU32 (pre ++ ((ChunkMessage.bodyResponse sha1name block).entry ++ rest)) (pre.length + 20) =
          .ok (BitVec.ofNat 32 block.length) := by
        rw [ChunkMessage.entry, List.append_assoc, List.append_assoc, readU32_skip pre _ rfl,
          readU32_skip sha1name.bytes _ (show 20 = sha1name.bytes.length + 0 by omega), readU32_head]
      show readOneResponse _ _ = _
      unfold readOneResponse
      rw [hlength, ok_bind, check_of (hnat.symm ▸ hpos), ok_bind, hlen]
      exact readBlock_eq _ pre sha1name block rest (by omega)
  | peekRequest sha1name =>
      show readName .peekRequest (pre ++ (sha1name.bytes ++ rest)) pre.length = .ok (_, pre.length + sha1name.bytes.length)
      rw [readName_eq, sha1name.length_eq]
  | peekResponse sha1name isHit =>
      have hname := sha1name.length_eq
      show readOnePeekResponse (pre ++ ((sha1name.bytes ++ [isHit]) ++ rest)) pre.length = _
      unfold readOnePeekResponse
      rw [List.append_assoc, readSha1Name_skip pre _ (show pre.length = pre.length + 0 from rfl), readSha1Name_head, ok_bind,
        readAt_skip pre _ rfl, readAt_skip sha1name.bytes _ (show 20 = sha1name.bytes.length + 0 by omega),
        readAt_head [isHit] rest (show 1 = [isHit].length from rfl), ok_bind]
      simp [ChunkMessage.entry, hname, sizeofWAOnePeekResponse]
  | putRequest sha1name block =>
      have hlen : (ChunkMessage.putRequest sha1name block).entry.length = 24 + block.length := by
        simp [ChunkMessage.entry, sha1name.length_eq]
        omega
      show readBlock _ _ _ = _
      rw [hlen]
      exact readBlock_eq _ pre sha1name block rest (by omega)
  | putResponse sha1name =>
      show readName .putResponse (pre ++ (sha1name.bytes ++ rest)) pre.length = .ok (_, pre.length + sha1name.bytes.length)
      rw [readName_eq, sha1name.length_eq]

end Message

/-! ## Runs of messages -/

section Run

variable {σ : Type} (handle : σ → ChunkMessage → Run σ)

theorem processOneMessage_type (m : ChunkMessage) (buffer : Bytes) (s : σ) :
    processOneMessage handle m.type buffer s = processMessage handle sizeofWABodyRequest m.readOne buffer s := by
  cases m <;> rfl

/-- One message in front of the buffer goes to the handler, and its bytes are taken. -/
theorem processOneMessage_eq {m : ChunkMessage} (hblock : m.HasBlock) (rest : Bytes) (s : σ)
    (hsmall : (m.bytes ++ rest).length < 2 ^ 31) :
    processOneMessage handle m.type (m.bytes ++ rest) s = (handle s m >>= fun s' => .ok (s', (m.bytes.length : Int))) := by
  have hlen := m.bytes_length
  have htotal : (m.bytes ++ rest).length = m.bytes.length + rest.length := List.length_append
  obtain ⟨fixed, hfixed, hsplit⟩ := bytes_append m rest
  rw [processOneMessage_type]
  unfold processMessage
  rw [chunkHeaderLength_bytes, ok_bind, toInt_ofNat_of_lt (by omega), check_of (by omega), ok_bind, count_bytes, ok_bind,
    check_of (by decide), ok_bind, hsplit]
  have hread := readOne_eq hblock fixed rest (by omega)
  rw [show ((1 : BitVec 32).toNat) = 1 from rfl, processEntries, ← hfixed, hread, ok_bind]
  cases handle s m with
  | error f => rfl
  | ok s' => rfl

theorem processLoop_eq {msgs : List ChunkMessage} (hblock : ∀ m ∈ msgs, m.HasBlock) {fuel : Nat} (numProcessed : Int) (s : σ)
    (hsmall : (msgs.flatMap ChunkMessage.bytes).length < 2 ^ 31) (hfuel : (msgs.flatMap ChunkMessage.bytes).length < fuel) :
    processLoop handle fuel (msgs.flatMap ChunkMessage.bytes) numProcessed s =
      (msgs.foldlM handle s >>= fun s' => .ok (s', numProcessed + (msgs.flatMap ChunkMessage.bytes).length)) := by
  induction msgs generalizing fuel numProcessed s with
  | nil =>
      obtain ⟨fuel, rfl⟩ := Nat.exists_eq_add_one.mpr hfuel.pos
      simp [processLoop]
  | cons m rest ih =>
      obtain ⟨fuel, rfl⟩ := Nat.exists_eq_add_one.mpr hfuel.pos
      have hlen := m.bytes_length
      have hpos : 0 < m.bytes.length := by
        unfold sizeofWABodyRequest at hlen
        omega
      have htotal : ((m :: rest).flatMap ChunkMessage.bytes).length = m.bytes.length + (rest.flatMap ChunkMessage.bytes).length := by
        rw [List.flatMap_cons, List.length_append]
      rw [htotal] at hsmall hfuel ⊢
      rw [List.flatMap_cons, processLoop, if_neg (by rw [List.length_append]; omega),
        verifyChunkHeader_bytes m _ (by rw [List.length_append]; exact hsmall), ok_bind]
      simp only
      rw [processOneMessage_eq handle (hblock m (by simp)) _ s (by rw [List.length_append]; exact hsmall), List.foldlM_cons]
      cases handle s m with
      | error f => rfl
      | ok s' =>
          simp only [ok_bind]
          rw [if_neg (by omega), if_neg (by omega), inBounds_of (by omega), ok_bind, Int.toNat_natCast, List.drop_left,
            ih (fun x hx => hblock x (List.mem_cons_of_mem m hx)) _ s' (by omega) (by omega)]
          simp only [Nat.cast_add, add_assoc]

end Run

/-- The channel carries the messages: every builder's `*len` is exact, and `ProcessChunkData` on what the builders
filled hands exactly these messages to the handler, in order, and takes exactly their bytes. -/
def Carries (msgs : List ChunkMessage) : Prop :=
  ∃ built : List Built, List.Forall₂ (fun m b => m.build = .ok b ∧ b.Exact) msgs built ∧
    ∀ (σ : Type) (handle : σ → ChunkMessage → Run σ) (s : σ),
      processChunkData handle (built.flatMap Built.buffer) s =
        (msgs.foldlM handle s >>= fun s' => .ok (s', ((built.map Built.len).sum : Int)))

theorem exact_bytes (m : ChunkMessage) : (⟨m.bytes, m.bytes.length⟩ : Built).Exact := by
  have hlength := chunkHeaderLength_bytes m []
  rw [List.append_nil] at hlength
  exact ⟨hlength, rfl⟩

/-- `*len` of a peek response is three more than was allocated. -/
theorem peekResponse_not_exact (sha1name : Sha1Name) (isHit : Byte) {b : Built}
    (hbuild : (ChunkMessage.peekResponse sha1name isHit).build = .ok b) : b.buffer.length + 3 = b.len := by
  cases hbuild
  simp [fillMessage, fillChunkHeader, sha1name.length_eq, sizeofWABodyResponse, sizeofWAOneResponse]

theorem exists_related {α β : Type} {R : α → β → Prop} {xs : List α} {ys : List β} (h : List.Forall₂ R xs ys) {x : α}
    (hx : x ∈ xs) : ∃ y, R x y := by
  induction h with
  | nil => cases hx
  | cons hhead _ ih =>
      rcases List.mem_cons.mp hx with rfl | hmem
      · exact ⟨_, hhead⟩
      · exact ih hmem

/-- The messages that the channel carries are exactly those without a peek response. -/
theorem chunkChannel_carries_iff {msgs : List ChunkMessage} (hblock : ∀ m ∈ msgs, m.HasBlock)
    (hsmall : (msgs.flatMap ChunkMessage.bytes).length < 2 ^ 31) :
    Carries msgs ↔ ∀ m ∈ msgs, ¬ m.IsPeekResponse := by
  constructor
  · rintro ⟨built, hbuilt, -⟩ m hm hpeek
    obtain ⟨b, hbuild, hexact⟩ := exists_related hbuilt hm
    cases m with
    | peekResponse sha1name isHit =>
        have hlen := peekResponse_not_exact sha1name isHit hbuild
        have hfull := hexact.2
        omega
    | _ => exact hpeek
  · intro hpeek
    refine ⟨msgs.map fun m => ⟨m.bytes, m.bytes.length⟩, ?_, ?_⟩
    · rw [List.forall₂_map_right_iff]
      exact List.forall₂_same.mpr fun m hm => ⟨build_eq (hblock m hm) (hpeek m hm), exact_bytes m⟩
    · intro σ handle s
      have hlens : ((msgs.map fun m => (⟨m.bytes, m.bytes.length⟩ : Built)).map Built.len).sum =
          (msgs.flatMap ChunkMessage.bytes).length := by
        rw [List.map_map, List.length_flatMap]
        rfl
      rw [List.flatMap_map, hlens]
      have hloop := processLoop_eq handle hblock 0 s hsmall (Nat.lt_succ_self _)
      rw [Int.zero_add] at hloop
      exact hloop

/-- A request and an answer of two bytes. -/
def sampleMessages : List ChunkMessage := [.bodyRequest 0x0100000a default 2, .bodyResponse default [1, 2]]

theorem chunkChannel_carries_iff_sample : Carries sampleMessages := by
  refine (chunkChannel_carries_iff ?_ (by decide)).mpr ?_
  · intro m hm
    simp only [sampleMessages, List.mem_cons, List.not_mem_nil, or_false] at hm
    rcases hm with rfl | rfl
    · trivial
    · exact Nat.zero_lt_two
  · intro m hm
    simp only [sampleMessages, List.mem_cons, List.not_mem_nil, or_false] at hm
    rcases hm with rfl | rfl <;> exact id

theorem peekResponse_too_long : (∃ b, (ChunkMessage.peekResponse default 1).build = .ok b ∧ b.buffer.length = 32 ∧ b.len = 35) ∧
    ¬ Carries [.peekResponse default 1] := by
  refine ⟨⟨_, rfl, by decide, rfl⟩, ?_⟩
  rintro ⟨built, hbuilt, -⟩
  cases hbuilt with
  | cons hhead _ =>
      have hlen := peekResponse_not_exact default 1 hhead.1
      have hfull := hhead.2.2
      omega

end BeagleCache

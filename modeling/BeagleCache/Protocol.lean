import BeagleCache.Candidates
import BeagleCache.Bytes

/-! The messages of the control flow, `protocol.h` and `protocol.c`. The structs are packed, so a message is
the concatenation of its fields; integers travel in network order. -/

namespace BeagleCache

def magicWAHeader : Byte := 0x57
def magicWANameDelivery : Byte := 0x71
def magicWARawMessage : Byte := 0x74

/-- `'N'`. -/
def typeWANameDelivery : Byte := 0x4e

/-- `'M'`. -/
def typeWARawMessage : Byte := 0x4d

def sizeofWAControlHeader : Nat := 18
def sizeofWANameDelivery : Nat := 23
def sizeofWAOneTree : Nat := 5
def sizeofWARawMessage : Nat := 23

/-- `ConnectionID`. -/
structure ConnectionID where
  srcIP : BitVec 32
  srcPort : BitVec 16
  dstIP : BitVec 32
  dstPort : BitVec 16
  deriving DecidableEq

/-- No address and no port of the connection is zero. -/
def ConnectionID.Known (id : ConnectionID) : Prop := id.srcIP ≠ 0 ∧ id.srcPort ≠ 0 ∧ id.dstIP ≠ 0 ∧ id.dstPort ≠ 0

instance (id : ConnectionID) : Decidable id.Known := by unfold ConnectionID.Known; infer_instance

/-- The bytes of a `ConnectionID`. -/
def ConnectionID.bytes (id : ConnectionID) : Bytes :=
  htonl id.srcIP ++ (htons id.srcPort ++ (htonl id.dstIP ++ htons id.dstPort))

@[simp] theorem ConnectionID.bytes_length (id : ConnectionID) : id.bytes.length = 12 := rfl

/-- `FillControlHeader`. -/
def fillControlHeader (id : ConnectionID) (type : Byte) (length : Nat) : Run Bytes := do
  check id.Known
  return [magicWAHeader, type] ++ (htonl (BitVec.ofNat 32 length) ++ id.bytes)

/-- The loop of `BuildWANameTreeDelivery3`, with `alloc` bytes allocated and `actualLen` of them written: the
bytes it writes. The content is put behind the name of a miss and of a chunk that is too small. -/
def putChunks (cfg : Config) (sha1 : Bytes → Sha1Name) (psrc : Bytes) (pNames : NameTable) (alloc : Nat) :
    Nat → Nat → List OneCandidate → Run Bytes
  | _, _, [] => .ok []
  | actualLen, offset, walk :: rest => do
      check (offset = walk.offset)
      inBounds (actualLen + sizeofWAOneChunk ≤ alloc)
      let name := (pNames walk.index).sha1name
      if walk.isHit = false ∨ walk.length ≤ waproxMinChunkSize then do
        let content ← readAt psrc offset walk.length
        inBounds (actualLen + sizeofWAOneChunk + walk.length ≤ alloc)
        check (verifySHA1 cfg sha1 content name)
        let tail ← putChunks cfg sha1 psrc pNames alloc (actualLen + sizeofWAOneChunk + walk.length) (offset + walk.length) rest
        return name.bytes ++ (htonl (BitVec.ofNat 32 walk.length) ++ ([1] ++ (content ++ tail)))
      else do
        let tail ← putChunks cfg sha1 psrc pNames alloc (actualLen + sizeofWAOneChunk) (offset + walk.length) rest
        return name.bytes ++ (htonl (BitVec.ofNat 32 walk.length) ++ ([0] ++ tail))

/-- `BuildWANameTreeDelivery3`: the message, whose length is `*len`. -/
def buildWANameTreeDelivery3 (cfg : Config) (sha1 : Bytes → Sha1Name) (id : ConnectionID) (psrc : Bytes) (pNames : NameTable)
    (candidateList : List OneCandidate) (numCandidates newmsgLen : Nat) : Run Bytes := do
  let alloc := sizeofWANameDelivery + sizeofWAOneTree + newmsgLen
  let chunks ← putChunks cfg sha1 psrc pNames alloc (sizeofWANameDelivery + sizeofWAOneTree) 0 candidateList
  let hdr ← fillControlHeader id typeWANameDelivery (sizeofWANameDelivery + sizeofWAOneTree + chunks.length)
  return hdr ++ ([magicWANameDelivery] ++ (htonl 1 ++ ([1] ++ (htonl (BitVec.ofNat 32 numCandidates) ++ chunks))))

/-- `BuildWARawMessage`. -/
def buildWARawMessage (id : ConnectionID) (message : Bytes) : Run Bytes := do
  check (0 < message.length)
  let hdr ← fillControlHeader id typeWARawMessage (sizeofWARawMessage + message.length)
  return hdr ++ ([magicWARawMessage] ++ (htonl (BitVec.ofNat 32 message.length) ++ message))

/-! ## Reading the header -/

/-- The field `length` of a control header. -/
def headerLength (buffer : Bytes) : Run (BitVec 32) := readU32 buffer 2

/-- The field `connID` of a control header. -/
def headerConnID (buffer : Bytes) : Run ConnectionID := do
  let srcIP ← readU32 buffer 6
  let srcPort ← readU16 buffer 10
  let dstIP ← readU32 buffer 12
  let dstPort ← readU16 buffer 16
  return ⟨srcIP, srcPort, dstIP, dstPort⟩

section Header

variable {id : ConnectionID} {type : Byte} {length : Nat} {hdr : Bytes}

theorem fillControlHeader_eq (hid : id.Known) (type : Byte) (length : Nat) :
    fillControlHeader id type length = .ok ([magicWAHeader, type] ++ (htonl (BitVec.ofNat 32 length) ++ id.bytes)) := by
  rw [fillControlHeader, check_of hid]
  rfl

theorem fillControlHeader_length (h : fillControlHeader id type length = .ok hdr) : hdr.length = sizeofWAControlHeader := by
  unfold fillControlHeader at h
  obtain ⟨_, -, h⟩ := Run.bind_eq_ok.mp h
  cases h
  rfl

theorem headerLength_eq (h : fillControlHeader id type length = .ok hdr) (rest : Bytes) :
    headerLength (hdr ++ rest) = .ok (BitVec.ofNat 32 length) := by
  unfold fillControlHeader at h
  obtain ⟨_, -, h⟩ := Run.bind_eq_ok.mp h
  cases h
  rw [headerLength, List.append_assoc, List.append_assoc, readU32_skip _ _ (show 2 = [magicWAHeader, type].length + 0 from rfl),
    readU32_head]

theorem headerConnID_eq (h : fillControlHeader id type length = .ok hdr) (rest : Bytes) :
    headerConnID (hdr ++ rest) = .ok id := by
  unfold fillControlHeader at h
  obtain ⟨_, -, h⟩ := Run.bind_eq_ok.mp h
  cases h
  -- each field stands behind the fields before it
  have h1 : readU32 (id.bytes ++ rest) 0 = .ok id.srcIP := readU32_head id.srcIP _
  have h2 : readU16 (id.bytes ++ rest) 4 = .ok id.srcPort := by
    rw [ConnectionID.bytes, List.append_assoc, readU16_skip (htonl id.srcIP) _ (show 4 = (htonl id.srcIP).length + 0 from rfl),
      List.append_assoc, readU16_head]
  have h3 : readU32 (id.bytes ++ rest) 6 = .ok id.dstIP := by
    rw [ConnectionID.bytes, List.append_assoc, readU32_skip (htonl id.srcIP) _ (show 6 = (htonl id.srcIP).length + 2 from rfl),
      List.append_assoc, readU32_skip (htons id.srcPort) _ (show 2 = (htons id.srcPort).length + 0 from rfl),
      List.append_assoc, readU32_head]
  have h4 : readU16 (id.bytes ++ rest) 10 = .ok id.dstPort := by
    rw [ConnectionID.bytes, List.append_assoc, readU16_skip (htonl id.srcIP) _ (show 10 = (htonl id.srcIP).length + 6 from rfl),
      List.append_assoc, readU16_skip (htons id.srcPort) _ (show 6 = (htons id.srcPort).length + 4 from rfl),
      List.append_assoc, readU16_skip (htonl id.dstIP) _ (show 4 = (htonl id.dstIP).length + 0 from rfl), readU16_head]
  have hskip : ∀ x : BitVec 32, ([magicWAHeader, type] ++ (htonl x ++ id.bytes)) ++ rest =
      ([magicWAHeader, type] ++ htonl x) ++ (id.bytes ++ rest) := by
    intro x
    simp only [List.append_assoc]
  have hlen : ([magicWAHeader, type] ++ htonl (BitVec.ofNat 32 length)).length = 6 := rfl
  unfold headerConnID
  rw [hskip, readU32_skip _ _ (show 6 = _ + 0 by rw [hlen]), h1, Run.ok_bind, readU16_skip _ _ (show 10 = _ + 4 by rw [hlen]), h2,
    Run.ok_bind, readU32_skip _ _ (show 12 = _ + 6 by rw [hlen]), h3, Run.ok_bind,
    readU16_skip _ _ (show 16 = _ + 10 by rw [hlen]), h4]
  rfl

end Header

end BeagleCache

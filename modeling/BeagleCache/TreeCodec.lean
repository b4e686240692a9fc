import BeagleCache.Reassemble

/-! The delivery of a full chunk tree, the protocol of the build with `_WAPROX_FULL_MRC_TREE`: the size
function and the decoder of `mrc_tree.c`, and the encoder of `protocol.c`. Every entry is a type and the
fields that type calls for; unlike the other messages, integers are copied as they lie in memory. -/

namespace BeagleCache

/-- The value of an enumerator. -/
def ChunkType.code : ChunkType → BitVec 32
  | .chunkName => 0
  | .chunkBoth => 1
  | .chunkIndex => 2
  | .chunkRaw => 3

def ChunkType.ofCode (x : BitVec 32) : Option ChunkType :=
  if x = 0 then some .chunkName
  else if x = 1 then some .chunkBoth
  else if x = 2 then some .chunkIndex
  else if x = 3 then some .chunkRaw
  else none

/-- What `GetAcutalTreeSize` counts for an entry. -/
def OneChunkName.treeSize (name : OneChunkName) : Nat :=
  match name.type with
  | .chunkName => 4 + 4 + sha1Len
  | .chunkBoth => 4 + 4 + sha1Len + name.length
  | .chunkRaw => 4 + 4 + name.length
  | .chunkIndex => 4 + 4

def getAcutalTreeSize (pNames : NameTable) (numNames : Nat) : Nat :=
  ((List.range numNames).map fun k => (pNames k).treeSize).sum

/-- The body of the loop of `BuildWANameTreeDelivery2`: what it writes for an entry. The content of a
`chunk_both` is not written, and of a `chunk_raw` as many bytes as its length field has. -/
def encodeEntry (name : OneChunkName) : Run Bytes :=
  let type := memInt name.type.code
  let length := memInt (BitVec.ofNat 32 name.length)
  match name.type with
  | .chunkName => .ok (type ++ (length ++ name.sha1name.bytes))
  | .chunkBoth => .ok (type ++ (length ++ name.sha1name.bytes))
  | .chunkRaw =>
      match name.pChunk with
      | none => .error .assertion
      | some chunk => do
          let content ← readAt chunk 0 4
          return type ++ (length ++ content)
  | .chunkIndex => .ok (type ++ memInt (BitVec.ofInt 32 name.rindex))

/-- The loop of `BuildWANameTreeDelivery2`, `actualLen` of the `lenTree` bytes being written. -/
def encodeEntries (lenTree : Nat) : Nat → List OneChunkName → Run Bytes
  | actualLen, [] => do
      check (actualLen = lenTree)
      return []
  | actualLen, name :: rest => do
      let bytes ← encodeEntry name
      inBounds (actualLen + bytes.length ≤ lenTree)
      let tail ← encodeEntries lenTree (actualLen + bytes.length) rest
      return bytes ++ tail

/-- `BuildWANameTreeDelivery2`. -/
def buildWANameTreeDelivery2 (id : ConnectionID) (numNames : Nat) (pNames : NameTable) (numLevels : Nat) : Run Bytes := do
  let lenTree := getAcutalTreeSize pNames numNames + (sizeofWANameDelivery + sizeofWAOneTree)
  check (numNames = 1 → numLevels = 1)
  let entries ← encodeEntries lenTree (sizeofWANameDelivery + sizeofWAOneTree) ((List.range numNames).map pNames)
  let hdr ← fillControlHeader id typeWANameDelivery (sizeofWANameDelivery + sizeofWAOneTree + entries.length)
  return hdr ++ ([magicWANameDelivery] ++ (htonl 1 ++ ([BitVec.ofNat 8 numLevels] ++
    (htonl (BitVec.ofNat 32 numNames) ++ entries))))

/-- The body of the loop of `DecodeOneTree` for entry `j`: the entry and the offset behind it. A negative
length asks for more bytes than any buffer has. -/
def decodeEntry (pNames : NameTable) (j : Nat) (buffer : Bytes) (offset : Nat) : Run (OneChunkName × Nat) := do
  let entry := { initOneChunk (pNames j) with index := j }
  let type ← readInt buffer offset
  match ChunkType.ofCode type with
  | some .chunkName => do
      let length ← readInt buffer (offset + 4)
      let sha1name ← readSha1Name buffer (offset + 8)
      return ({ entry with type := .chunkName, length := length.toNat, sha1name := sha1name }, offset + 8 + sha1Len)
  | some .chunkBoth => do
      let length ← readInt buffer (offset + 4)
      let sha1name ← readSha1Name buffer (offset + 8)
      check (0 < length.toInt)
      let content ← readAt buffer (offset + 8 + sha1Len) length.toNat
      return ({ entry with
        type := .chunkBoth, length := length.toNat, sha1name := sha1name, pChunk := some content, freeChunk := true },
        offset + 8 + sha1Len + length.toNat)
  | some .chunkRaw => do
      let length ← readInt buffer (offset + 4)
      check (0 < length.toInt)
      let content ← readAt buffer (offset + 8) length.toNat
      return ({ entry with type := .chunkRaw, length := length.toNat, pChunk := some content, freeChunk := true },
        offset + 8 + length.toNat)
  | some .chunkIndex => do
      let rindex ← readInt buffer (offset + 4)
      check (rindex.toInt < j)
      inBounds (0 ≤ rindex.toInt)
      return ({ entry with type := .chunkIndex, rindex := rindex.toInt, length := (pNames rindex.toNat).length }, offset + 8)
  | none => .error .assertion

/-- The loop of `DecodeOneTree`; its table has room for `g_maxNames` entries. -/
def decodeEntries (cfg : Config) (buffer : Bytes) : Nat → Nat → Nat → NameTable → Run (NameTable × Nat)
  | 0, _, offset, pNames => .ok (pNames, offset)
  | n + 1, j, offset, pNames => do
      inBounds (j < cfg.maxNames)
      let r ← decodeEntry pNames j buffer offset
      check (r.2 ≤ buffer.length)
      decodeEntries cfg buffer n (j + 1) r.2 (Function.update pNames j r.1)

/-- `ChunkTreeInfo`, without the counters of a resolution, which start at fixed values. -/
structure ChunkTreeInfo where
  seqNo : Int
  numNames : Nat
  numLevels : Nat
  pNames : NameTable
  perLevelInfo : List MRCPerLevelInfo

/-- The loop of `InitChunkTreeInfo` that puts every entry where its index says. -/
def placeNames (names : NameTable) (numNames : Nat) : List Nat → NameTable → Run NameTable
  | [], table => .ok table
  | i :: rest, table => do
      check ((names i).index < numNames)
      placeNames names numNames rest (Function.update table (names i).index (names i))

/-- The inner loop of `InitChunkTreeInfo` that collects a level: the number of its entries. The assertion
ends it within `fuel = numNames + 1` rounds. -/
def countLevel (numNames totLength : Nat) (len : Nat → Nat) : Nat → Nat → Nat → Run Nat
  | 0, _, _ => .error .hang
  | fuel + 1, index, offset => do
      check (index < numNames)
      if offset + len index = totLength then return 1
      else do
        let n ← countLevel numNames totLength len fuel (index + 1) (offset + len index)
        return n + 1

/-- The loop over the levels, at most `n` of them from `index` on. -/
def countLevels (numNames totLength : Nat) (len : Nat → Nat) : Nat → Nat → Run (List MRCPerLevelInfo)
  | 0, _ => .ok []
  | n + 1, index => do
      let count ← countLevel numNames totLength len (numNames + 1) index 0
      if index + count = numNames then return [⟨count, index⟩]
      else do
        let rest ← countLevels numNames totLength len n (index + count)
        return ⟨count, index⟩ :: rest

/-- Sets `level` in the entries of the levels, the first of which is level `i`. -/
def setLevels : Nat → List MRCPerLevelInfo → NameTable → NameTable
  | _, [], names => names
  | i, info :: rest, names => setLevels (i + 1) rest fun k =>
      if info.firstIndex ≤ k ∧ k < info.firstIndex + info.numNames then { names k with level := i } else names k

/-- The loop of `InitChunkTreeInfo` that assigns the right chunk type, over the entries of the levels. -/
def assignTypes (numNames : Nat) : List Nat → NameTable → Run NameTable
  | [], names => .ok names
  | newIdx :: rest, names => do
      check (newIdx < numNames)
      let parent ← getParent2 names newIdx
      if 0 < newIdx ∧ (names parent).length = (names newIdx).length then
        assignTypes numNames rest
          (Function.update names newIdx { names newIdx with type := .chunkIndex, rindex := parent })
      else if (names newIdx).length ≤ waproxMinChunkSize then
        assignTypes numNames rest (Function.update names newIdx { names newIdx with type := .chunkRaw })
      else do
        check ((names newIdx).type = .chunkName)
        assignTypes numNames rest names

/-- `InitChunkTreeInfo`. The loops that fill in the parents are those of `MakeTree`. -/
def initChunkTreeInfo (cfg : Config) (names : NameTable) (numNames : Nat) (seqNo : Int) : Run ChunkTreeInfo := do
  check (numNames ≤ cfg.maxNames)
  let pNames ← placeNames names numNames (List.range numNames) default
  inBounds (0 < numNames)
  let totLength := (pNames 0).length
  let levels ← countLevels numNames totLength (fun k => (pNames k).length) cfg.maxLevel 0
  check (∀ info ∈ levels, ((List.range' info.firstIndex info.numNames).map fun k => (pNames k).length).sum = totLength)
  let pNames ← makeTree numNames levels (setLevels 0 levels pNames)
  let pNames ← assignTypes numNames (levels.flatMap fun info => List.range' info.firstIndex info.numNames) pNames
  check (0 < (names 0).length)
  return { seqNo := seqNo, numNames := numNames, numLevels := levels.length, pNames := pNames, perLevelInfo := levels }

/-- The assertions of `CreateNewChunkTreeInfo`; allocating a negative number of entries fails. -/
def createNewChunkTreeInfo (cfg : Config) (numNames numLevels : Int) : Run Unit := do
  check (numNames ≤ cfg.maxNames)
  check (numLevels ≤ cfg.maxLevel)
  if numNames < 0 then .error .exit else .ok ()

/-- `DecodeOneTree`: the tree and `*numConsumed`. `pNames` is its static table, `buf_len` the length of
`buffer`. -/
def decodeOneTree (cfg : Config) (pNames : NameTable) (buffer : Bytes) (seq : Int) : Run (ChunkTreeInfo × Nat) := do
  let numNames ← readU32 buffer 1
  let numLevels ← readAt buffer 0 1
  let r ← decodeEntries cfg buffer numNames.toInt.toNat 0 sizeofWAOneTree pNames
  check (r.2 ≤ buffer.length)
  createNewChunkTreeInfo cfg numNames.toInt (numLevels.headD 0).toInt
  let cti ← initChunkTreeInfo cfg r.1 numNames.toInt.toNat seq
  return (cti, r.2)

end BeagleCache

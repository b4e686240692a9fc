import BeagleCache.Rabin

/-! Multi-resolution chunking, `mrc_tree.c`: one scan finds the boundaries of the smallest chunk size,
and each level of the tree picks among them by the mask of its own chunk size. The tables
`rabinBoundaries`, `pNames`, `pRealBoundary` and `pli` are allocated once from the configuration; a
write past the end of one of them is an overrun. -/

namespace BeagleCache

/-- A SHA1 digest, `SHA1_LEN` bytes. -/
structure Sha1Name where
  bytes : Bytes
  length_eq : bytes.length = 20
  deriving DecidableEq

instance : Inhabited Sha1Name := ⟨⟨List.replicate 20 0, by simp⟩⟩

def sha1Len : Nat := 20

def waproxMinChunkSize : Nat := 30
def waproxRabinWindow : Nat := 16
def waproxMrcMin : Nat := 0
def waproxMrcMax : Nat := 128 * 1024

/-- `MAX_CHUNK_SIZE` of `connection.h`. -/
def maxChunkSize : Nat := 64 * 1024 * 5

/-- The parameters of `config.c` that the chunking and the proxy read, with their defaults. -/
structure Config where
  minChunkSize : Nat := 64
  chunkSize : Nat := 1024
  numMRCWays : Nat := 4
  bufferTimeout : Nat := 500
  clientChunking : Bool := true
  serverChunking : Bool := true
  skipFirstChunk : Bool := false
  /-- The build flag `_WAPROX_INTEGRITY_CHECK`. -/
  integrityCheck : Bool := false
  deriving DecidableEq

/-- The levels below the root that `InitMRCParams` counts: the chunk size is divided until it falls
below the minimum. A positive minimum and at least two ways end the loop within `fuel = chunkSize + 1`
rounds. -/
def levelsBelow (minChunkSize numMRCWays : Nat) : Nat → Nat → Nat
  | 0, _ => 0
  | fuel + 1, chunkSize =>
      if chunkSize / numMRCWays < minChunkSize then 0
      else levelsBelow minChunkSize numMRCWays fuel (chunkSize / numMRCWays) + 1

/-- `g_maxLevel`. -/
def Config.maxLevel (cfg : Config) : Nat :=
  if cfg.numMRCWays > 1 then
    levelsBelow cfg.minChunkSize cfg.numMRCWays (cfg.chunkSize + 1) cfg.chunkSize + 1
  else 1

/-- `g_maxNames`. The power sums `InitMRCParams` adds up before are overwritten by this product. -/
def Config.maxNames (cfg : Config) : Nat := cfg.chunkSize * cfg.maxLevel

/-- The context of a user connection, and the one of `ActualPutMissingChunks`. -/
def startRabinCtx (cfg : Config) : Run RabinCtx :=
  initRabinCtx blankRabinCtx cfg.minChunkSize waproxRabinWindow waproxMrcMin waproxMrcMax

inductive ChunkType
  | chunkName
  | chunkBoth
  | chunkIndex
  | chunkRaw
  deriving DecidableEq, Repr

/-- `OneChunkName`. `pChunk` is the memory the pointer shows, `none` for `NULL`; a `parentIdx` of `-1`
is `none`. -/
structure OneChunkName where
  type : ChunkType
  length : Nat
  sha1name : Sha1Name
  pChunk : Option Bytes
  freeChunk : Bool
  rindex : Int
  index : Nat
  parentIdx : Option Nat
  level : Nat
  isHit : Bool
  isSha1Ready : Bool
  isCandidate : Bool
  offset : Nat
  deriving DecidableEq

/-- The bytes of a chunk. -/
def OneChunkName.content (name : OneChunkName) : Bytes := (name.pChunk.getD []).take name.length

/-- `InitOneChunk` sets every field but the name, which keeps what the memory held. -/
def initOneChunk (name : OneChunkName) : OneChunkName where
  type := .chunkName
  length := 0
  sha1name := name.sha1name
  pChunk := none
  freeChunk := false
  rindex := -1
  index := 0
  parentIdx := none
  level := 0
  isHit := false
  isSha1Ready := false
  isCandidate := false
  offset := 0

instance : Inhabited OneChunkName where
  default :=
    { type := .chunkName, length := 0, sha1name := default, pChunk := none, freeChunk := false,
      rindex := 0, index := 0, parentIdx := some 0, level := 0, isHit := false, isSha1Ready := false,
      isCandidate := false, offset := 0 }

/-- `MRCPerLevelInfo`. -/
structure MRCPerLevelInfo where
  numNames : Nat
  firstIndex : Nat
  deriving DecidableEq, Repr, Inhabited

/-- The static table `pNames`. -/
abbrev NameTable := Nat → OneChunkName

/-- `(finger & (chunkSize - 1)) == (chunkSize - 1)`. -/
def matchesSize (finger : U64) (chunkSize : Nat) : Bool :=
  finger &&& BitVec.ofNat 64 (chunkSize - 1) == BitVec.ofNat 64 (chunkSize - 1)

/-- The entry `DoPreMRC` writes for a chunk. -/
def freshChunk (prev : OneChunkName) (index level offset length : Nat) (buffer : Bytes) : OneChunkName :=
  { initOneChunk prev with
    length := length
    index := index
    level := level
    type := .chunkName
    pChunk := some buffer
    offset := offset }

/-- The loop of `DoPreMRC` over the boundaries at one level, each boundary with its mark in
`pRealBoundary`: the entries written from `index` on and the new marks. -/
def fillLevel (table : NameTable) (maxNames rbSize chunkSize level : Nat) :
    List (RabinBoundary × Bool) → Nat → Nat → Bytes → Run (List OneChunkName × List Bool)
  | [], _, _, _ => .ok ([], [])
  | (b, real) :: rest, index, lastOffset, buffer =>
      if matchesSize b.finger chunkSize ∨ rest = [] then
        let length := b.offset - lastOffset
        if length ≤ waproxMinChunkSize ∧ real = false then do
          let r ← fillLevel table maxNames rbSize chunkSize level rest index lastOffset buffer
          return (r.1, real :: r.2)
        else do
          check (level = 0 → length = rbSize)
          inBounds (index < maxNames)
          check (0 < length)
          let r ← fillLevel table maxNames rbSize chunkSize level rest (index + 1) b.offset (buffer.drop length)
          return (freshChunk (table index) index level lastOffset length buffer :: r.1, true :: r.2)
      else do
        let r ← fillLevel table maxNames rbSize chunkSize level rest index lastOffset buffer
        return (r.1, real :: r.2)

/-- The `while` loop of `DoPreMRC` over the levels: for each level its entry of `pli` and its names. -/
def levelLoop (cfg : Config) (table : NameTable) (rbSize : Nat) (psrc : Bytes) (bs : List RabinBoundary) :
    Nat → Nat → Nat → Nat → List Bool → Run (List (MRCPerLevelInfo × List OneChunkName))
  | 0, _, _, _, _ => .error .hang
  | fuel + 1, chunkSize, level, index, real =>
      if chunkSize < cfg.minChunkSize then .ok []
      else do
        inBounds (level < cfg.maxLevel)
        let r ← fillLevel table cfg.maxNames rbSize chunkSize level (bs.zip real) index 0 psrc
        let here := (⟨r.1.length, index⟩, r.1)
        if cfg.numMRCWays = 1 then return [here]
        else do
          let rest ← levelLoop cfg table rbSize psrc bs fuel (chunkSize / cfg.numMRCWays) (level + 1)
            (index + r.1.length) r.2
          return here :: rest

/-- What `DoPreMRC` returns through its result and its out parameters. -/
structure PreMRC where
  pNames : List OneChunkName
  rbSize : Nat
  maxLevel : Nat
  pli : List MRCPerLevelInfo
  rctx : RabinCtx

/-- The table after a call that wrote `names` at its front. -/
def tableOf (table : NameTable) (names : List OneChunkName) : NameTable :=
  fun k => names.getD k (table k)

/-- `DoPreMRC` on the buffer `psrc`, the static table holding `table`. -/
def doPreMRC (cfg : Config) (table : NameTable) (rctx : RabinCtx) (psrc : Bytes) : Run PreMRC := do
  if waproxMinChunkSize ≤ waproxRabinWindow then throw .exit
  let rabinBufferLen := min psrc.length maxChunkSize
  let minMask ← getMRCMask cfg.minChunkSize
  let maxMask ← getMRCMask cfg.chunkSize
  let (rbSize, bs, rctx) ← getRabinChunkSizeEx rctx psrc rabinBufferLen minMask maxMask true
  -- `rabinBoundaries` has `g_ChunkSize` entries
  inBounds (bs.length ≤ cfg.chunkSize)
  check (0 < rbSize)
  check (rbSize ≤ rabinBufferLen)
  check (0 < bs.length)
  inBounds (bs.length - 1 < cfg.maxNames)
  let real := (List.replicate bs.length false).set (bs.length - 1) true
  let levels ← levelLoop cfg table rbSize psrc bs (cfg.chunkSize + 2) cfg.chunkSize 0 0 real
  let names := levels.flatMap Prod.snd
  check (0 < names.length)
  return { pNames := names, rbSize := rbSize, maxLevel := levels.length, pli := levels.map Prod.fst, rctx := rctx }

/-- The inner loop of `MakeTree`: children get the parent until their lengths add up to its end. The
assertion ends the loop within `fuel = numNames + 1` rounds. -/
def adoptChildren (numNames parentIndex parentLength : Nat) :
    Nat → NameTable → Nat → Nat → Run (NameTable × Nat × Nat)
  | 0, _, _, _ => .error .hang
  | fuel + 1, names, childIndex, childLength => do
      check (childIndex < numNames)
      let childLength := childLength + (names childIndex).length
      let names := Function.update names childIndex { names childIndex with parentIdx := some parentIndex }
      if childLength = parentLength then return (names, childIndex + 1, childLength)
      else adoptChildren numNames parentIndex parentLength fuel names (childIndex + 1) childLength

/-- The loop of `MakeTree` over the parents of one level. -/
def makeLevel (numNames : Nat) : Nat → NameTable → Nat → Nat → Nat → Nat → Run NameTable
  | 0, names, _, _, _, _ => .ok names
  | n + 1, names, parentIndex, childIndex, parentLength, childLength => do
      check (parentIndex < numNames)
      let parentLength := parentLength + (names parentIndex).length
      let r ← adoptChildren numNames parentIndex parentLength (numNames + 1) names childIndex childLength
      makeLevel numNames n r.1 (parentIndex + 1) r.2.1 parentLength r.2.2

/-- `MakeTree`: each level is matched with the next one. -/
def makeTree (numNames : Nat) : List MRCPerLevelInfo → NameTable → Run NameTable
  | upper :: lower :: rest, names => do
      let names ← makeLevel numNames upper.numNames names upper.firstIndex lower.firstIndex 0 0
      makeTree numNames (lower :: rest) names
  | _, names => .ok names

/-- `GetParent2`. The root is its own parent; an index of `-1` names no entry. -/
def getParent2 (names : NameTable) (index : Nat) : Run Nat :=
  if index = 0 then .ok 0
  else
    match (names index).parentIdx with
    | some p => .ok p
    | none => .error .overrun

end BeagleCache

import BeagleCache.Bytes
import BeagleCache.Ring
import Mathlib.Logic.Function.Basic

/-! The Rabin fingerprint of `rabinfinger2.c`: the tables, the rolling step over a circular buffer of
the last `region_size` bytes, and the scan for chunk boundaries. Polynomials over GF(2) are 64-bit
words. The two tables have 256 entries each and are written once, so they are functions of the
index; `region_buf` is the function that gives its cells. -/

namespace BeagleCache

abbrev U64 := BitVec 64

def irreduciblePoly : U64 := 0x946d1d8dcfee41e5#64

/-- `for (k = 63; (poly & (1 << k)) == 0 && k > 0; k--)`, from a given start. -/
def getDegreeFrom (poly : U64) : Nat → Nat
  | 0 => 0
  | k + 1 => if poly &&& (1#64 <<< (k + 1)) = 0 then getDegreeFrom poly k else k + 1

def getDegree (poly : U64) : Nat := getDegreeFrom poly 63

/-- The loop of `GetFingerprint` over the high word, `i` from `n - 1` down to `0`. -/
def reduceHigh (poly : U64) : Nat → U64 → U64 → U64 × U64
  | 0, h, l => (h, l)
  | i + 1, h, l =>
      if h &&& (1#64 <<< i) ≠ 0 then
        reduceHigh poly i (h ^^^ (poly >>> (63 - i))) (l ^^^ (poly <<< (i + 1)))
      else reduceHigh poly i h l

/-- The loop of `GetFingerprint` over the low word, `i` from `k + n - 1` down to `k`. -/
def reduceLow (poly : U64) (k : Nat) : Nat → U64 → U64
  | 0, l => l
  | n + 1, l =>
      reduceLow poly k n (if l &&& (1#64 <<< (k + n)) ≠ 0 then l ^^^ (poly >>> (63 - (k + n))) else l)

/-- `GetFingerprint`: the 128-bit polynomial `h:l` reduced by `poly`. -/
def getFingerprint (h l poly : U64) : U64 :=
  let k := getDegree poly
  let poly := poly <<< (63 - k)
  let l :=
    if h ≠ 0 then
      let h := if h &&& (1#64 <<< 63) ≠ 0 then h ^^^ poly else h
      (reduceHigh poly 63 h l).2
    else l
  reduceLow poly k (64 - k) l

/-- The loop of `MultiplyPoly`, `i` from `n` down to `1`. -/
def multiplyLoop (x y : U64) : Nat → U64 → U64 → U64 × U64
  | 0, ih, il => (ih, il)
  | i + 1, ih, il =>
      if x &&& (1#64 <<< (i + 1)) ≠ 0 then
        multiplyLoop x y i (ih ^^^ (y >>> (64 - (i + 1)))) (il ^^^ (y <<< (i + 1)))
      else multiplyLoop x y i ih il

/-- `MultiplyPoly`: the two words of the carry-less product. -/
def multiplyPoly (x y : U64) : U64 × U64 :=
  multiplyLoop x y 63 0 (if x &&& 1 ≠ 0 then y else 0)

/-- `RABINPOLY`. -/
structure RabinPoly where
  moduloT : Nat → U64
  regionT : Byte → U64
  regionBuf : Nat → Byte
  regionSize : Nat
  regionPos : Nat
  shift : Nat
  irPoly : U64

/-- `RabinCtx`. -/
structure RabinCtx where
  rp : RabinPoly
  mask : BitVec 32
  finger : U64
  bsize : Nat
  minSize : Nat
  maxSize : Nat

/-- The zeroed memory a context is initialised in. -/
def blankRabinPoly : RabinPoly where
  moduloT := fun _ => 0
  regionT := fun _ => 0
  regionBuf := fun _ => 0
  regionSize := 0
  regionPos := 0
  shift := 0
  irPoly := 0

def blankRabinCtx : RabinCtx where
  rp := blankRabinPoly
  mask := 0
  finger := 0
  bsize := 0
  minSize := 0
  maxSize := 0

/-- `RabinBoundary`. -/
structure RabinBoundary where
  offset : Nat
  finger : U64
  deriving DecidableEq, Repr

/-- The modulo table, `degree` being the degree of the polynomial. -/
def moduloTable (poly : U64) (degree : Nat) (i : Nat) : U64 :=
  let t := getFingerprint 0 (1#64 <<< 63) poly
  let hl := multiplyPoly (BitVec.ofNat 64 i) t
  getFingerprint hl.1 hl.2 poly ||| (BitVec.ofNat 64 i <<< degree)

/-- `sizeshift` after `n` rounds of the loop that moves it by one byte. -/
def sizeShift (moduloT : Nat → U64) (shift : Nat) : Nat → U64
  | 0 => 1
  | n + 1 =>
      let s := sizeShift moduloT shift n
      (s <<< 8) ^^^ moduloT (s >>> shift).toNat

/-- The region table: what a byte contributes after a whole window has passed. -/
def regionTable (poly : U64) (moduloT : Nat → U64) (shift regionSize : Nat) (b : Byte) : U64 :=
  let hl := multiplyPoly (b.setWidth 64) (sizeShift moduloT shift (regionSize - 1))
  getFingerprint hl.1 hl.2 poly

/-- `InitializeRabin`. -/
def initializeRabin (rp : RabinPoly) (regionSize : Nat) : RabinPoly :=
  if rp.irPoly ≠ 0 then rp
  else
    let k := getDegree irreduciblePoly
    { rp with
      irPoly := irreduciblePoly
      regionSize := regionSize
      regionPos := 0
      shift := k - 8
      moduloT := moduloTable irreduciblePoly k
      regionT := regionTable irreduciblePoly (moduloTable irreduciblePoly k) (k - 8) regionSize }

/-- `ConcatByte`: the byte that leaves the window is taken out, the new byte is shifted in. -/
def concatByte (rp : RabinPoly) (finger : U64) (b : Byte) : U64 × RabinPoly :=
  let finger := finger ^^^ rp.regionT (rp.regionBuf rp.regionPos)
  (((finger <<< 8) ||| b.setWidth 64) ^^^ rp.moduloT (finger >>> rp.shift).toNat,
    { rp with
      regionBuf := Function.update rp.regionBuf rp.regionPos b
      regionPos := (rp.regionPos + 1) % rp.regionSize })

def zeroRegionBuf (rp : RabinPoly) : RabinPoly := { rp with regionBuf := fun _ => 0 }

def chunkSizes : List Nat :=
  [32, 64, 128, 256, 512, 1024, 2 * 1024, 4 * 1024, 8 * 1024, 16 * 1024, 32 * 1024, 64 * 1024, 128 * 1024]

def masks : List (BitVec 32) := chunkSizes.map fun n => BitVec.ofNat 32 (n - 1)

/-- The first index whose size class holds `bSize`, looking at consecutive pairs of the table. -/
def sizeClass (bSize : Nat) : List Nat → Nat → Run Nat
  | lo :: hi :: rest, i =>
      if lo ≤ bSize ∧ bSize < hi then .ok i else sizeClass bSize (hi :: rest) (i + 1)
  | _, _ => .error .exit

def getMRCIndex (bSize : Nat) : Run Nat := sizeClass bSize chunkSizes 0

def getNormalizedSize (bSize : Nat) : Run Nat := do
  let i ← getMRCIndex bSize
  return chunkSizes.getD i 0

def getMRCMask (bSize : Nat) : Run (BitVec 32) := do
  let i ← getMRCIndex bSize
  return masks.getD i 0

/-- `InitRabinCtx`. -/
def initRabinCtx (rctx : RabinCtx) (bsize window min max : Nat) : Run RabinCtx := do
  let b ← getNormalizedSize bsize
  return { rctx with
    bsize := b
    mask := BitVec.ofNat 32 (b - 1)
    finger := 0
    minSize := min
    maxSize := max
    rp := initializeRabin { rctx.rp with irPoly := 0 } window }

/-- A fingerprint matches a mask when all bits of the mask are set in it. -/
def matchesMask (finger : U64) (mask : BitVec 32) : Bool := finger &&& mask.setWidth 64 == mask.setWidth 64

/-- The loop of `GetRabinChunkSizeEx` from the byte at offset `p`, with the boundaries it adds. -/
def boundaryLoop (minMask maxMask : BitVec 32) : RabinCtx → Nat → Bytes → Run (List RabinBoundary × RabinCtx)
  | rctx, _, [] => .ok ([], rctx)
  | rctx, p, b :: rest =>
      let step := concatByte rctx.rp rctx.finger b
      let rctx := { rctx with rp := step.2, finger := step.1 }
      let here := if matchesMask step.1 minMask then [⟨p + 1, step.1⟩] else []
      if maxMask ≠ 0 ∧ matchesMask step.1 maxMask then do
        check (matchesMask step.1 minMask)
        return (here, rctx)
      else do
        let r ← boundaryLoop minMask maxMask rctx (p + 1) rest
        return (here ++ r.1, r.2)

/-- `GetRabinChunkSizeEx`: the offset of the last boundary, the boundaries and the context. -/
def getRabinChunkSizeEx (rctx : RabinCtx) (src : Bytes) (srclen : Nat) (minMask maxMask : BitVec 32)
    (resetRegionBuffer : Bool) : Run (Nat × List RabinBoundary × RabinCtx) := do
  let rctx := if resetRegionBuffer then { rctx with finger := 0, rp := zeroRegionBuf rctx.rp } else rctx
  let srclen := min srclen rctx.maxSize
  let r ← boundaryLoop minMask maxMask rctx rctx.minSize ((src.take srclen).drop rctx.minSize)
  -- without any match the end of the data is the only boundary
  let bs := if r.1 = [] then [⟨srclen, r.2.finger⟩] else r.1
  return ((bs.getLastD ⟨0, 0⟩).offset, bs, r.2)

end BeagleCache

import BeagleCache.Mrc
import Mathlib.Data.List.Sort

/-! Which chunks of a tree are sent, `mrc_tree.c`: `ResolveWithHint` goes down the tree and looks the
names up in a hint table, `GetCandidateList2` goes up again and merges siblings, and the candidates that
are left are sent in the order of their offsets. SHA1 comes from a library, so it is a parameter; a hint
table is asked only whether it holds a name. -/

namespace BeagleCache

/-- `VerifySHA1`: only the build with `_WAPROX_INTEGRITY_CHECK` compares. -/
def verifySHA1 (cfg : Config) (sha1 : Bytes → Sha1Name) (buf : Bytes) (digest : Sha1Name) : Bool :=
  !cfg.integrityCheck || decide (sha1 buf = digest)

/-- `OneCandidate`. -/
structure OneCandidate where
  index : Nat
  offset : Nat
  length : Nat
  isHit : Bool
  sha1name : Sha1Name
  deriving DecidableEq

section Resolve

variable (cfg : Config) (sha1 : Bytes → Sha1Name) (hint : Sha1Name → Bool)

/-- `CheckNameHint`; `hint` is `GetSendHint` for a sender and `GetDiskHint` for a receiver. -/
def checkNameHint (cur : OneChunkName) : OneChunkName :=
  { cur with
    sha1name := sha1 cur.content
    isSha1Ready := true
    isHit := hint (sha1 cur.content) }

/-- The body of the inner loop of `ResolveWithHint` for the entry `newIdx`, found at `offset`. -/
def resolveChunk (numNames : Nat) (buffer : Bytes) (bufLen : Nat) (names : NameTable) (newIdx offset : Nat) :
    Run NameTable := do
  check (newIdx < numNames)
  let parent ← getParent2 names newIdx
  let cur := names newIdx
  let par := names parent
  check (offset + cur.length ≤ bufLen)
  check (offset = cur.offset)
  let verify (cur : OneChunkName) : Run Unit :=
    check (verifySHA1 cfg sha1 ((buffer.drop offset).take cur.length) cur.sha1name)
  if cur.length ≤ waproxMinChunkSize then
    return Function.update names newIdx { checkNameHint sha1 hint cur with isHit := true }
  else if newIdx = 0 then do
    verify (checkNameHint sha1 hint cur)
    return Function.update names newIdx (checkNameHint sha1 hint cur)
  else if par.isHit then
    return Function.update names newIdx { cur with isHit := true }
  else if par.length = cur.length then do
    check (par.isSha1Ready)
    check (par.isHit = false)
    let cur := { cur with isHit := par.isHit, sha1name := par.sha1name, isSha1Ready := true }
    verify cur
    return Function.update names newIdx cur
  else do
    verify (checkNameHint sha1 hint cur)
    return Function.update names newIdx (checkNameHint sha1 hint cur)

/-- The loop of `ResolveWithHint` over one level; the second result is `numHits`. -/
def resolveLevel (numNames : Nat) (buffer : Bytes) (bufLen : Nat) :
    Nat → NameTable → Nat → Nat → Run (NameTable × Nat)
  | 0, names, _, _ => .ok (names, 0)
  | n + 1, names, newIdx, offset => do
      let names ← resolveChunk cfg sha1 hint numNames buffer bufLen names newIdx offset
      let r ← resolveLevel numNames buffer bufLen n names (newIdx + 1) (offset + (names newIdx).length)
      return (r.1, r.2 + if (names newIdx).isHit then 1 else 0)

/-- The loop over the levels from level `i` down, `lowLevel` being the last level done. -/
def resolveLevels (numNames : Nat) (buffer : Bytes) (bufLen : Nat) :
    List MRCPerLevelInfo → Nat → Nat → NameTable → Run (NameTable × Nat)
  | [], _, lowLevel, names => .ok (names, lowLevel)
  | info :: rest, i, _, names => do
      let r ← resolveLevel cfg sha1 hint numNames buffer bufLen info.numNames names info.firstIndex 0
      if r.2 = info.numNames then return (r.1, i)
      else resolveLevels numNames buffer bufLen rest (i + 1) i r.1

/-- `ResolveWithHint`: the table with the hits, and `lowLevel`. -/
def resolveWithHint (numNames : Nat) (buffer : Bytes) (bufLen : Nat) (pli : List MRCPerLevelInfo) (names : NameTable) :
    Run (NameTable × Nat) :=
  resolveLevels cfg sha1 hint numNames buffer bufLen pli 0 0 names

end Resolve

/-- Sets `isCandidate` of the entries in `idxs`. -/
def setCandidates (names : NameTable) (idxs : List Nat) (b : Bool) : NameTable :=
  fun k => if k ∈ idxs then { names k with isCandidate := b } else names k

/-- The first loop of `FlushChildren`: every child has the parent of the first one. -/
def checkSiblings (names : NameTable) (parent : Nat) : List Nat → Run Unit
  | [] => .ok ()
  | child :: rest => do
      let p ← getParent2 names child
      check (parent = p)
      checkSiblings names parent rest

/-- `FlushChildren` on the children in `stack`. -/
def flushChildren (names : NameTable) (stack : List Nat) : Run NameTable := do
  check (1 ≤ stack.length)
  let parent ← getParent2 names (stack.headD 0)
  checkSiblings names parent stack
  let hitCount := stack.countP fun k => (names k).isHit
  let candidateCount := stack.countP fun k => (names k).isCandidate
  if candidateCount < stack.length then return names
  else do
    check (candidateCount = stack.length)
    if hitCount = 0 ∨ hitCount = stack.length then
      return setCandidates (setCandidates names stack false) [parent] true
    else
      return setCandidates (setCandidates names stack true) [parent] false

/-- The loop of `GetCandidateList2` over the chunks of one level, `stack` holding the siblings so far. -/
def flushLevel (numNames maxNames : Nat) : List Nat → List Nat → NameTable → Run NameTable
  | [], _, names => .ok names
  | child :: rest, stack, names => do
      let parent ← getParent2 names child
      check (child < numNames)
      check (parent < numNames)
      check (parent ≤ child)
      inBounds (stack.length < maxNames)
      let stack := stack ++ [child]
      check (stack.length < maxNames)
      match rest with
      | [] => flushChildren names stack
      | next :: _ => do
          let nextParent ← getParent2 names next
          if nextParent ≠ parent then do
            let names ← flushChildren names stack
            flushLevel numNames maxNames rest [] names
          else flushLevel numNames maxNames rest stack names

/-- The loop of `GetCandidateList2` over the levels, from level `n - 1` up to the root. -/
def flushLevels (numNames maxNames : Nat) (pli : List MRCPerLevelInfo) : Nat → NameTable → Run NameTable
  | 0, names => .ok names
  | n + 1, names => do
      let info := pli.getD n default
      let names ← flushLevel numNames maxNames (List.range' info.firstIndex info.numNames) [] names
      flushLevels numNames maxNames pli n names

/-- The choice of `GetCandidateList2` between single- and multi-resolution chunking. -/
def mergeCandidates (cfg : Config) (numNames : Nat) (pli : List MRCPerLevelInfo) (lowLevel : Nat) (names : NameTable) :
    Run NameTable :=
  if cfg.numMRCWays = 1 then do
    check (lowLevel = 0)
    return names
  else flushLevels numNames cfg.maxNames pli (lowLevel + 1) names

/-- The two loops over all entries of `GetCandidateList2` that collect the candidates. -/
def collectCandidates (names : NameTable) : List Nat → Run (List OneChunkName)
  | [] => .ok []
  | k :: rest =>
      if (names k).isCandidate then do
        check ((names k).isSha1Ready)
        let cs ← collectCandidates names rest
        return names k :: cs
      else collectCandidates names rest

def toCandidate (name : OneChunkName) : OneCandidate where
  index := name.index
  offset := name.offset
  length := name.length
  isHit := name.isHit
  sha1name := name.sha1name

/-- `CompareOneChunkName` as an order. -/
def compareOneChunkName (a b : OneChunkName) : Prop := a.offset ≤ b.offset

instance : DecidableRel compareOneChunkName := fun a b => inferInstanceAs (Decidable (a.offset ≤ b.offset))

/-- `qsort`. Candidates have different offsets, so how it sorts cannot be seen. -/
def qsort (names : List OneChunkName) : List OneChunkName := names.insertionSort compareOneChunkName

/-- `GetCandidateList2`: the candidate list, and the table with its candidate marks. -/
def getCandidateList2 (cfg : Config) (numNames : Nat) (pli : List MRCPerLevelInfo) (lowLevel : Nat) (names : NameTable) :
    Run (List OneCandidate × NameTable) := do
  let info := pli.getD lowLevel default
  check (info.numNames ≤ numNames)
  let names := setCandidates names (List.range' info.firstIndex info.numNames) true
  let names ← mergeCandidates cfg numNames pli lowLevel names
  let candidates ← collectCandidates names (List.range numNames)
  let sorted := qsort candidates
  check ((sorted.map OneChunkName.length).sum = (names 0).length)
  return (sorted.map toCandidate, names)

/-- Whether the content of a candidate goes into the message. -/
def OneCandidate.hasContent (c : OneCandidate) : Bool := !c.isHit || decide (c.length ≤ waproxMinChunkSize)

def sizeofWAOneChunk : Nat := 25

/-- `GetCandidateMessageLength`, the walk having reached `offset`: the length and the number of items. -/
def getCandidateMessageLength : Nat → List OneCandidate → Run (Nat × Nat)
  | _, [] => .ok (0, 0)
  | offset, c :: rest => do
      check (offset = c.offset)
      let r ← getCandidateMessageLength (offset + c.length) rest
      return (sizeofWAOneChunk + (if c.hasContent then c.length else 0) + r.1, r.2 + 1)

end BeagleCache

import BeagleCache.NameDelivery

/-! The sending side of a user connection, `ProcessUserData` of `waprox.c` and what it calls: the data that was read
from the user is cut into blocks, and each block is kept for its acknowledgement and announced in a message. -/

namespace BeagleCache

/-- `MIN_RABIN_BUFSIZE`. -/
def minRabinBufsize : Nat := 64 * 1024 * 3

/-- A message for the control channel. `block` and `chunks` are not sent: they are the data the message stands for
and, for a name delivery, the chunks it names. -/
structure Outgoing where
  message : Bytes
  block : Bytes
  chunks : List Bytes

/-- What a call works on besides its connection: `tmp_ht`, and the static table of `DoPreMRC`. -/
structure Shared where
  tmp : TempCache
  table : NameTable

/-- `ProcessOneRabinChunking2` on the buffer `psrc`: its result, the message, and the state. -/
def processOneRabinChunking2 (cfg : Config) (sha1 : Bytes → Sha1Name) (hint : Sha1Name → Bool) (ci : UserConnection) (psrc : Bytes)
    (sh : Shared) : Run (Nat × Outgoing × UserConnection × Shared) := do
  let r ← doPreMRC cfg sh.table ci.rctx psrc
  check (0 < r.pNames.length)
  check (r.rbSize ≤ psrc.length)
  let block := psrc.take r.rbSize
  let ci := { ci with rctx := r.rctx, numChunks := ci.numChunks + 1 }
  if cfg.skipFirstChunk ∧ ci.numChunks ≤ 1 then do
    let msg ← buildWARawMessage ci.key block
    return (r.rbSize, ⟨msg, block, []⟩, ci, { sh with table := tableOf sh.table r.pNames })
  else do
    let resolved ← resolveBlock cfg sha1 hint sh.table psrc r
    let lowLevel := resolved.2.1
    let candidateList := resolved.2.2.1
    let pNames := resolved.2.2.2
    check (lowLevel < r.maxLevel)
    let sizes ← getCandidateMessageLength 0 candidateList
    let created ← createNewChunkBuffer2 cfg sha1 psrc r.rbSize ci.bytesTX pNames r.pNames.length candidateList lowLevel sh.tmp
    let msg ← buildWANameTreeDelivery3 cfg sha1 ci.key psrc pNames candidateList sizes.2 sizes.1
    return (r.rbSize, ⟨msg, block, candidateList.map (OneCandidate.slice psrc)⟩,
      { ci with chunkBufferList := ci.chunkBufferList ++ [created.1] }, ⟨created.2, pNames⟩)

/-- The connection sends its data as it comes. -/
def rawMode (cfg : Config) (isForward : Bool) : Bool :=
  (!cfg.clientChunking && isForward) || (!cfg.serverChunking && !isForward)

/-- `uci->numSent > uci->maxWindowSize * 0.8`. The rounding of the product does not matter: it is off by less than
the distance of `0.8 * maxWindowSize` to an integer that it is not. -/
def windowFull (ci : UserConnection) : Bool := decide (4 * ci.maxWindowSize.toNat < 5 * ci.numSent.toNat)

/-- What `ProcessUserData` does besides returning `numProcessed`: the messages it queues, whether it blocks the
connection and so counts `g_NumBlocked` up, the number of bytes it announces when it closes, and the state. -/
structure UserDataResult where
  numProcessed : Nat
  out : List Outgoing
  blocked : Bool
  close : Option (BitVec 32)
  ci : UserConnection
  sh : Shared

section Process

variable (cfg : Config) (sha1 : Bytes → Sha1Name) (hint : Sha1Name → Bool)

/-- One round of the loop of `ProcessUserData` on the bytes in `buffer`, or `none` where it waits for more. -/
def processOneBlock (forceProcess : Bool) (ci : UserConnection) (buffer : Bytes) (sh : Shared) :
    Run (Option (Nat × Outgoing × UserConnection × Shared)) :=
  if rawMode cfg ci.isForward then do
    let msg ← buildWARawMessage ci.key buffer
    return some (buffer.length, ⟨msg, buffer, []⟩, ci, sh)
  else if ci.status = .active ∧ 0 < cfg.bufferTimeout ∧ forceProcess = false ∧ buffer.length < minRabinBufsize then
    .ok none
  else do
    let r ← processOneRabinChunking2 cfg sha1 hint ci buffer sh
    return some r

/-- The counters after `one` bytes were sent. -/
def countSent (ci : UserConnection) (one : Nat) : UserConnection :=
  { ci with bytesTX := ci.bytesTX + BitVec.ofNat 32 one, numSent := ci.numSent + BitVec.ofNat 32 one }

/-- The loop of `ProcessUserData` from `srcOff` on. A round takes at least a byte, so it ends within
`fuel = buf_len + 1` of them. -/
def userLoop (forceProcess : Bool) : Nat → Nat → UserConnection → Shared → Run UserDataResult
  | 0, _, _, _ => .error .hang
  | fuel + 1, srcOff, ci, sh =>
      if srcOff < ci.bufRead.length then do
        match ← processOneBlock cfg sha1 hint forceProcess ci (ci.bufRead.drop srcOff) sh with
        | none => return ⟨srcOff, [], false, none, ci, sh⟩
        | some r => do
            let ci := countSent r.2.2.1 r.1
            if windowFull ci then
              return ⟨srcOff + r.1, [r.2.1], true, none, { ci with status := .block }, r.2.2.2⟩
            else do
              let rest ← userLoop forceProcess fuel (srcOff + r.1) ci r.2.2.2
              return { rest with out := r.2.1 :: rest.out }
      else .ok ⟨srcOff, [], false, none, ci, sh⟩

/-- The end of `ProcessUserData`: a connection that is done announces how many bytes there are in all. -/
def finish (r : UserDataResult) : UserDataResult :=
  if r.ci.status = .done then
    { r with
      close := some (r.ci.bytesTX + BitVec.ofNat 32 (r.ci.bufRead.length - r.numProcessed))
      ci := { r.ci with status := .finsent } }
  else r

/-- `ProcessUserData` of a connection whose destination is known or waited for. -/
def processPlainData (forceProcess : Bool) (ci : UserConnection) (sh : Shared) : Run UserDataResult :=
  if ci.key.dstIP = 0 ∧ ci.key.dstPort = 0 then .ok ⟨0, [], false, none, ci, sh⟩
  else if ci.status = .block then .ok ⟨0, [], false, none, ci, sh⟩
  else do
    let r ← userLoop cfg sha1 hint forceProcess (ci.bufRead.length + 1) 0 ci sh
    return finish r

/-- `AdjustReadBuffer`. -/
def adjustReadBuffer (ci : UserConnection) (numProcessed : Nat) : Run UserConnection := do
  check (numProcessed ≤ ci.bufRead.length)
  return { ci with bufRead := ci.bufRead.drop numProcessed }

/-- `ProcessUserData`. `host` is `GetHttpHostName` with `inet_aton`: the address and port in the target header of a
request, `none` as long as there is no such header. The line that holds it is taken out of the data, the connection
is opened, and the rest is processed at once; the result is then zero. -/
def processUserData (host : Bytes → Option (BitVec 32 × BitVec 16)) (forceProcess : Bool) (ci : UserConnection) (sh : Shared) :
    Run UserDataResult :=
  if ci.isHttpProxy then
    match host ci.bufRead with
    | none => .ok ⟨0, [], false, none, ci, sh⟩
    | some target => do
        check (ci.key.dstIP = 0)
        check (ci.key.dstPort = 0)
        match ci.bufRead.findIdx? (· = 0x0a) with
        | none => .error .exit
        | some line => do
            let ci := { ci with key := { ci.key with dstIP := target.1, dstPort := target.2 }, isHttpProxy := false }
            let ci ← adjustReadBuffer ci (line + 1)
            check (ci.key.dstIP ≠ 0)
            check (ci.key.dstPort ≠ 0)
            let r ← processPlainData cfg sha1 hint true ci sh
            let ci ← adjustReadBuffer r.ci r.numProcessed
            return { r with numProcessed := 0, ci := ci }
  else processPlainData cfg sha1 hint forceProcess ci sh

end Process

end BeagleCache

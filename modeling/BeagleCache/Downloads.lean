import Mathlib
import BeagleCache.FurtherBlocks
import BeagleCache.Transition

/-! A response while it is downloaded and kept until it has been written: what `handleDownloadRead` and `resumeDownload` do with it, its
way through the lists of its batch, and when `delResponseTranLazy` and `deletePerms` take it. -/

namespace BeagleCache.Downloads

open Transition
open Hcfs (fileBlockSize actualBlockSize httpActBlockSize addlHeadSize)

inductive ResponseType where
  | CACHE
  | WEB
  | DOWN
  deriving DecidableEq

/-- The values of `status` that are told apart. -/
inductive Status where
  | ENTITY_COMPLETE
  | CLOSED
  | BAD_RESPONSE
  | COME_BACK
  | BUFFER_WAIT
  | OTHER
  deriving DecidableEq

inductive WriteStage where
  | FIRST
  | REM
  deriving DecidableEq

/-- Where the response is: in no list yet, in the `urls` of its batch, in those of a `relOb`, in `presentResponseBatch` or a `mapEntry`,
through with its write, or given up. -/
inductive Place where
  | unlisted
  | urls
  | relOb
  | batch
  | written
  | dropped
  deriving DecidableEq

/-- The handler that is set for the response, on the connection to the server or to the client. -/
inductive Handler where
  | unset
  | handleDownloadRead
  | resumeDownload
  deriving DecidableEq

/-- The result of a `write` to the client: 0, 2 or -1. -/
inductive Sent where
  | done
  | busy
  | failed
  deriving DecidableEq

/-- An `httpResponse`. `toSend` and `toWrite` have the lengths of its pieces and `allBlocks` the `readable` of its blocks; `presReq` is
that the client is there and `writing` that `checkForWrite` is in its loop. -/
structure Response where
  isPut : Bool
  type : ResponseType
  cacheable : Bool
  cacheCheck : Bool
  sendHead : Bool
  presReq : Bool
  handler : Handler
  status : Status
  con_len : Int
  block : Nat
  used : Int
  pstage : WriteStage
  toSend : List Nat
  toWrite : List Nat
  allBlocks : List Nat
  map : BitVec 8
  batchAdd : Bool
  lDel : Bool
  connWait : Bool
  writing : Bool
  place : Place
  /-- How often `prepareWrite` was called, the write lock was removed, and the response was put on `delResList`. -/
  calls : Nat
  unlocked : Nat
  delResList : Nat
  freed : Bool

/-- A batch, a `relOb` or a `mapEntry` has the response. -/
def Response.Referenced (r : Response) : Prop := r.place = .urls ∨ r.place = .relOb ∨ r.place = .batch

/-- `CONN_LESS_LIMIT` -/
def connLessLimit : Nat := 256 * 1024 / fileBlockSize

/-- `LARGE_LIMIT` -/
def largeLimit : Int := 262144

/-- The client is gone, or has its answer. -/
def delRequestTranLazy (r : Response) : Response :=
  { r with presReq := false, handler := if r.handler = .resumeDownload then .unset else r.handler }

/-- The handler on the side of the client stays. -/
def delResponseTranLazy (r : Response) : Response :=
  if r.lDel = true then r
  else
    { r with
      lDel := true
      presReq := false
      handler := if r.handler = .handleDownloadRead then .unset else r.handler
      delResList := if r.map = 0 ∧ r.connWait = false ∧ r.batchAdd = false then r.delResList + 1 else r.delResList }

/-! ## The client and the server -/

/-- The loop of `sendData`, with what the calls of `write` give; it cannot write more where they end. -/
def sendPieces : List Nat → List (Option Nat) → Sent × List Nat
  | [], _ => (.done, [])
  | 0 :: rest, writes => sendPieces rest writes
  | (size + 1) :: rest, [] => (.busy, (size + 1) :: rest)
  | (size + 1) :: rest, none :: _ => (.failed, (size + 1) :: rest)
  | (size + 1) :: rest, some sent :: writes =>
      if sent < size + 1 then (.busy, (size + 1 - sent) :: rest) else sendPieces rest writes

/-- `sendData`; the response is given up if there is something to send and no client. -/
def sendData (r : Response) (writes : List (Option Nat)) : Sent × Response :=
  if r.isPut = true then (.done, r)
  else
    let toSend := r.toSend.dropWhile (· = 0)
    if r.presReq = false ∧ toSend ≠ [] then (.done, delResponseTranLazy { r with toSend := toSend })
    else
      let s := sendPieces toSend writes
      (s.1, { r with toSend := s.2 })

/-- `sendHeader` writes nothing when there is no client. -/
def sendHeader (r : Response) (header : Sent) : Sent := if r.presReq = false then .done else header

/-- A comparison with the size of a block has no sign. -/
def Reaches (used : Int) (size : Nat) : Prop := used < 0 ∨ size ≤ used

instance (used : Int) (size : Nat) : Decidable (Reaches used size) := inferInstanceAs (Decidable (_ ∨ _))

/-- What `handleDownloadRead` does for a response that is not cached. -/
def countBlock (r : Response) : Response :=
  if r.type = .WEB then
    { r with
      used := if Reaches r.used (if r.block = 1 then actualBlockSize - addlHeadSize else actualBlockSize) then 0 else r.used
      block := r.block + 1 }
  else r

/-- The first time, the response is added to a batch if it can be cached. `cacheable` is what `checkCachability` and `noCache` leave. -/
def checkCache (r : Response) (cacheable : Bool) : Response :=
  if r.cacheCheck = false then r
  else if cacheable = true ∧ r.con_len ≤ largeLimit then
    { r with cacheCheck := false, cacheable := true, type := .DOWN, batchAdd := true, place := .urls, pstage := .FIRST }
  else { r with cacheCheck := false, cacheable := false, type := .WEB }

/-- The end of `handleDownloadRead` and `resumeDownload`. -/
def finish (r : Response) : Response :=
  if r.status = .ENTITY_COMPLETE ∨ r.status = .CLOSED then delResponseTranLazy (delRequestTranLazy r) else r

/-- The loop of `checkForWrite` runs while there is something in `toWrite`. -/
def writeLoop (r : Response) : Response := if r.toWrite = [] then finish { r with writing := false } else { r with writing := true }

/-- Enough of the buffer is in use. -/
def Full (r : Response) : Prop := Reaches r.used (if r.block = 1 then httpActBlockSize - addlHeadSize else httpActBlockSize)

instance (r : Response) : Decidable (Full r) := inferInstanceAs (Decidable (Reaches _ _))

/-- `checkForWrite` up to its loops. -/
def checkForWrite (r : Response) : Response :=
  if r.cacheable = true ∧ r.type = .DOWN ∧ (r.status = .ENTITY_COMPLETE ∨ Full r) then writeLoop r else finish r

/-- What `parseResponse` reads. The pieces go to the client and to the disk. -/
structure Parsed where
  failed : Bool
  status : Status
  con_len : Int
  used : Int
  more : List Nat

def parseResponse (r : Response) (parsed : Parsed) : Response :=
  { r with
    status := parsed.status
    con_len := parsed.con_len
    used := parsed.used
    toSend := r.toSend ++ parsed.more
    toWrite := r.toWrite ++ parsed.more }

/-- What `handleDownloadRead` and `resumeDownload` do alike. A response whose header cannot be sent is deleted, so that it does not matter
that only one of them sets `sendHead` before. -/
def passOn (r : Response) (header : Sent) (writes : List (Option Nat)) (cacheable : Bool) : Response :=
  match if r.sendHead = true then Sent.done else sendHeader r header with
  | .busy => { r with handler := .resumeDownload }
  | .failed => delResponseTranLazy (delRequestTranLazy r)
  | .done =>
      match sendData { r with sendHead := true } writes with
      | (.busy, r) => { r with handler := .resumeDownload }
      | (.failed, r) => delResponseTranLazy (delRequestTranLazy r)
      | (.done, r) => checkForWrite (checkCache (countBlock r) cacheable)

def handleDownloadRead (r : Response) (parsed : Parsed) (header : Sent) (writes : List (Option Nat)) (cacheable : Bool) : Response :=
  if r.lDel = true then { r with handler := .unset }
  else
    let r := parseResponse r parsed
    if parsed.failed = true ∨ r.status = .BAD_RESPONSE then delResponseTranLazy (delRequestTranLazy r)
    else if r.status = .COME_BACK then r
    else passOn r header writes cacheable

/-- `respTran` still has the response when it was deleted meanwhile. -/
def resumeDownload (r : Response) (header : Sent) (writes : List (Option Nat)) (cacheable : Bool) : Response :=
  passOn { r with handler := .handleDownloadRead } header writes cacheable

/-- `again` is that the connection is not ready, or has to be made once more. -/
def handleConnect (r : Response) (again : Bool) : Response :=
  let r := { r with connWait := false }
  if r.lDel = true then delResponseTranLazy r
  else { r with connWait := again, handler := if again = true then .unset else .handleDownloadRead }

/-- The server has been silent for `MSL`. -/
def checkPersistentConnection (r : Response) : Response := delResponseTranLazy { r with type := .CACHE }

/-! ## The blocks -/

/-- `writeData`: what is put into the block, and what is left. -/
def writeData : List Nat → Nat → Nat × List Nat
  | [], _ => (0, [])
  | size :: rest, remaining =>
      if size ≤ remaining then
        let w := writeData rest (remaining - size)
        (size + w.1, w.2)
      else (remaining, (size - remaining) :: rest)

/-- The loop of `prepareWrite` over the rest of the header; a round takes some of it. -/
def headerLoop : Nat → Nat → List Nat
  | 0, _ => []
  | n + 1, toWrite =>
      if 0 < toWrite then min toWrite actualBlockSize :: headerLoop n (toWrite - min toWrite actualBlockSize) else []

/-- The blocks that the header is put into. `checkHeaderLen` gives none of a header that is too long. -/
def headerBlocks (genBufferLen : Nat) : List Nat :=
  if 3000 < genBufferLen then [0]
  else
    let toWriteNow := min genBufferLen actualBlockSize
    toWriteNow :: headerLoop (genBufferLen - toWriteNow) (genBufferLen - toWriteNow)

/-- `prepareWrite`; `writeBlockHeader` and `writeData` never fail. -/
def prepareWrite (genBufferLen : Nat) (r : Response) : Response :=
  match r.pstage with
  | .FIRST =>
      let header := headerBlocks genBufferLen
      let presentUsed := header.getLast?.getD 0
      let block := r.block + (header.length - 1)
      if presentUsed = actualBlockSize then
        { r with used := 0, block := block + 1, pstage := .REM, allBlocks := r.allBlocks ++ header }
      else
        let w := writeData r.toWrite (actualBlockSize - presentUsed)
        { r with
          used := 0
          block := block + 1
          pstage := .REM
          allBlocks := r.allBlocks ++ (header.dropLast ++ [presentUsed + w.1])
          toWrite := w.2 }
  | .REM =>
      let w := writeData r.toWrite actualBlockSize
      { r with used := 0, block := r.block + 1, allBlocks := r.allBlocks ++ [w.1], toWrite := w.2 }

/-- A round of the loop of `checkForWrite`. -/
def checkForWriteRound (genBufferLen : Nat) (r : Response) : Response :=
  writeLoop (prepareWrite genBufferLen { r with map := r.map + 1, calls := r.calls + 1 })

/-! ## The lists -/

/-- What `processBatch` does with a response in the batch. -/
def processBatch (r : Response) : Response :=
  if r.type = .WEB then
    if r.lDel = true then { delResponseTranLazy { r with batchAdd := false, lDel := false, map := 0 } with place := .dropped }
    else { r with batchAdd := false }
  else if r.status = .BAD_RESPONSE then
    { delResponseTranLazy { r with batchAdd := false, map := 0, lDel := false, allBlocks := [] } with place := .dropped }
  else if r.status = .ENTITY_COMPLETE then { r with place := .relOb }
  else if r.status ≠ .BUFFER_WAIT ∧ r.con_len < 0 ∧ connLessLimit < r.allBlocks.length then
    { r with allBlocks := [], batchAdd := false, map := 0, type := .WEB, cacheable := false, place := .dropped }
  else r

/-- What `formDiskBatches` does with it. `noBlocks` is that `checkForFreeBlocks`, which is called for the first block, returned 1. -/
def formDiskBatches (r : Response) (noBlocks : Bool) : Response :=
  { r with
    type := if r.allBlocks = [] then r.type else if noBlocks = true then .WEB else .DOWN
    pstage := if r.allBlocks ≠ [] ∧ noBlocks = false then .FIRST else r.pstage
    map := r.map - BitVec.ofNat 8 r.allBlocks.length + 1
    place := .batch }

/-- The batch is given up in `checkBatchWritesNow`. -/
def versionChange (r : Response) : Response :=
  { delResponseTranLazy { r with batchAdd := false, map := 0, lDel := false } with place := .dropped }

/-- The `WRITE` case of `handleDataHelperRead`. -/
def writeDone (r : Response) : Response :=
  let r := { r with map := r.map - 1, place := .written }
  if r.map = 0 then delResponseTranLazy { r with lDel := false, unlocked := r.unlocked + 1, batchAdd := false } else r

/-! ## Runs -/

/-- How a response is made: `searchAndConnect` after a miss in the index or of the version there, `searchAndConnect` for an object that is
not cached, and `readyForPut`. -/
inductive Start where
  | miss (inIndex connWait : Bool)
  | web (connWait : Bool)
  | put (parsed : Parsed)

/-- A response for which a connection is made. -/
def connecting (type : ResponseType) (cacheCheck connWait : Bool) : Response where
  isPut := false
  type := type
  cacheable := false
  cacheCheck := cacheCheck
  sendHead := false
  presReq := true
  handler := if connWait = true then .unset else .handleDownloadRead
  status := .BAD_RESPONSE
  con_len := -1
  block := 1
  used := 0
  pstage := .FIRST
  toSend := []
  toWrite := []
  allBlocks := []
  map := 0
  batchAdd := false
  lDel := false
  connWait := connWait
  writing := false
  place := .unlisted
  calls := 0
  unlocked := 0
  delResList := 0
  freed := false

/-- `readyForPut`; `resumeDownload` follows at once, if the data can be parsed. Otherwise the client is still read from. -/
def readyForPut (parsed : Parsed) : Response :=
  { parseResponse (connecting .DOWN true false) parsed with
    isPut := true
    sendHead := true
    cacheable := true
    handler := if parsed.failed = true ∨ parsed.status = .BAD_RESPONSE then .handleDownloadRead else .resumeDownload }

def Start.response : Start → Response
  | .miss inIndex connWait => connecting (if inIndex = true then .DOWN else .CACHE) true connWait
  | .web connWait => connecting .WEB false connWait
  | .put parsed => readyForPut parsed

inductive Event where
  | handleConnect (again : Bool)
  | handleDownloadRead (parsed : Parsed) (header : Sent) (writes : List (Option Nat)) (cacheable : Bool)
  | resumeDownload (header : Sent) (writes : List (Option Nat)) (cacheable : Bool)
  | prepareWrite
  | delRequestTranLazy
  /-- The connection is lost. -/
  | delResponseTranLazy
  | checkPersistentConnection
  | processBatch
  | formDiskBatches (noBlocks : Bool)
  | versionChange
  | writeDone
  | deletePerms

/-- The response has its memory, and no handler is at work on it. -/
def Response.Idle (r : Response) : Prop := r.writing = false ∧ r.freed = false

instance (r : Response) : Decidable r.Idle := inferInstanceAs (Decidable (_ ∧ _))

/-- Nothing else happens in the loop of `checkForWrite`. While the client is waited for nothing is read from the server. -/
def next (genBufferLen : Nat) (r : Response) : Event → Option Response
  | .handleConnect again => if r.Idle ∧ r.connWait = true then some (handleConnect r again) else none
  | .handleDownloadRead parsed header writes cacheable =>
      if r.Idle ∧ r.handler = .handleDownloadRead then some (handleDownloadRead r parsed header writes cacheable) else none
  | .resumeDownload header writes cacheable =>
      if r.Idle ∧ r.handler = .resumeDownload then some (resumeDownload r header writes cacheable) else none
  | .prepareWrite => if r.writing = true then some (checkForWriteRound genBufferLen r) else none
  | .delRequestTranLazy => if r.Idle then some (delRequestTranLazy r) else none
  | .delResponseTranLazy => if r.Idle ∧ r.handler ≠ .resumeDownload then some (delResponseTranLazy r) else none
  | .checkPersistentConnection =>
      if r.Idle ∧ r.handler = .handleDownloadRead then some (checkPersistentConnection r) else none
  | .processBatch => if r.Idle ∧ r.place = .urls then some (processBatch r) else none
  | .formDiskBatches noBlocks => if r.Idle ∧ r.place = .relOb then some (formDiskBatches r noBlocks) else none
  | .versionChange => if r.Idle ∧ r.place = .batch then some (versionChange r) else none
  | .writeDone => if r.Idle ∧ r.place = .batch then some (writeDone r) else none
  | .deletePerms => if r.Idle ∧ r.delResList ≠ 0 ∧ r.map ≠ 1 then some { r with freed := true } else none

/-- What a step asks of the response, and what it makes of it. -/
inductive Step (genBufferLen : Nat) (r : Response) : Event → Response → Prop
  | handleConnect (again : Bool) (hidle : r.Idle) (hwait : r.connWait = true) :
      Step genBufferLen r (.handleConnect again) (Downloads.handleConnect r again)
  | handleDownloadRead (parsed : Parsed) (header : Sent) (writes : List (Option Nat)) (cacheable : Bool) (hidle : r.Idle)
      (hhandler : r.handler = .handleDownloadRead) :
      Step genBufferLen r (.handleDownloadRead parsed header writes cacheable)
        (Downloads.handleDownloadRead r parsed header writes cacheable)
  | resumeDownload (header : Sent) (writes : List (Option Nat)) (cacheable : Bool) (hidle : r.Idle)
      (hhandler : r.handler = .resumeDownload) :
      Step genBufferLen r (.resumeDownload header writes cacheable) (Downloads.resumeDownload r header writes cacheable)
  | prepareWrite (hwriting : r.writing = true) : Step genBufferLen r .prepareWrite (checkForWriteRound genBufferLen r)
  | delRequestTranLazy (hidle : r.Idle) : Step genBufferLen r .delRequestTranLazy (Downloads.delRequestTranLazy r)
  | delResponseTranLazy (hidle : r.Idle) (hhandler : r.handler ≠ .resumeDownload) :
      Step genBufferLen r .delResponseTranLazy (Downloads.delResponseTranLazy r)
  | checkPersistentConnection (hidle : r.Idle) (hhandler : r.handler = .handleDownloadRead) :
      Step genBufferLen r .checkPersistentConnection (Downloads.checkPersistentConnection r)
  | processBatch (hidle : r.Idle) (hplace : r.place = .urls) : Step genBufferLen r .processBatch (Downloads.processBatch r)
  | formDiskBatches (noBlocks : Bool) (hidle : r.Idle) (hplace : r.place = .relOb) :
      Step genBufferLen r (.formDiskBatches noBlocks) (Downloads.formDiskBatches r noBlocks)
  | versionChange (hidle : r.Idle) (hplace : r.place = .batch) : Step genBufferLen r .versionChange (Downloads.versionChange r)
  | writeDone (hidle : r.Idle) (hplace : r.place = .batch) : Step genBufferLen r .writeDone (Downloads.writeDone r)
  | deletePerms (hidle : r.Idle) (hlist : r.delResList ≠ 0) (hmap : r.map ≠ 1) : Step genBufferLen r .deletePerms { r with freed := true }

theorem step_of_next {genBufferLen : Nat} {r : Response} {e : Event} {r' : Response} (hnext : next genBufferLen r e = some r') :
    Step genBufferLen r e r' := by
  cases e with
  | handleConnect again =>
      obtain ⟨⟨hidle, hwait⟩, hr'⟩ := Option.ite_none_right_eq_some.mp hnext
      cases hr'
      exact .handleConnect again hidle hwait
  | handleDownloadRead parsed header writes cacheable =>
      obtain ⟨⟨hidle, hhandler⟩, hr'⟩ := Option.ite_none_right_eq_some.mp hnext
      cases hr'
      exact .handleDownloadRead parsed header writes cacheable hidle hhandler
  | resumeDownload header writes cacheable =>
      obtain ⟨⟨hidle, hhandler⟩, hr'⟩ := Option.ite_none_right_eq_some.mp hnext
      cases hr'
      exact .resumeDownload header writes cacheable hidle hhandler
  | prepareWrite =>
      obtain ⟨hwriting, hr'⟩ := Option.ite_none_right_eq_some.mp hnext
      cases hr'
      exact .prepareWrite hwriting
  | delRequestTranLazy =>
      obtain ⟨hidle, hr'⟩ := Option.ite_none_right_eq_some.mp hnext
      cases hr'
      exact .delRequestTranLazy hidle
  | delResponseTranLazy =>
      obtain ⟨⟨hidle, hhandler⟩, hr'⟩ := Option.ite_none_right_eq_some.mp hnext
      cases hr'
      exact .delResponseTranLazy hidle hhandler
  | checkPersistentConnection =>
      obtain ⟨⟨hidle, hhandler⟩, hr'⟩ := Option.ite_none_right_eq_some.mp hnext
      cases hr'
      exact .checkPersistentConnection hidle hhandler
  | processBatch =>
      obtain ⟨⟨hidle, hplace⟩, hr'⟩ := Option.ite_none_right_eq_some.mp hnext
      cases hr'
      exact .processBatch hidle hplace
  | formDiskBatches noBlocks =>
      obtain ⟨⟨hidle, hplace⟩, hr'⟩ := Option.ite_none_right_eq_some.mp hnext
      cases hr'
      exact .formDiskBatches noBlocks hidle hplace
  | versionChange =>
      obtain ⟨⟨hidle, hplace⟩, hr'⟩ := Option.ite_none_right_eq_some.mp hnext
      cases hr'
      exact .versionChange hidle hplace
  | writeDone =>
      obtain ⟨⟨hidle, hplace⟩, hr'⟩ := Option.ite_none_right_eq_some.mp hnext
      cases hr'
      exact .writeDone hidle hplace
  | deletePerms =>
      obtain ⟨⟨hidle, hlist, hmap⟩, hr'⟩ := Option.ite_none_right_eq_some.mp hnext
      cases hr'
      exact .deletePerms hidle hlist hmap

/-- One response from its start; `genBufferLen` is the length of the header that `formWriteHeader` gives for it. -/
def download (genBufferLen : Nat) (start : Start) : System Response Event where
  init := fun r => r = start.response
  step := fun r e r' => next genBufferLen r e = some r'

/-! ## What the steps do -/

section Steps

variable {r : Response}

/-- What `delResponseTranLazy` changes. A response in a batch is not put on `delResList`. -/
theorem delResponseTranLazy_eq (r : Response) :
    ∃ presReq handler puts, delResponseTranLazy r =
        { r with lDel := true, presReq := presReq, handler := handler, delResList := r.delResList + puts } ∧
      (handler = .resumeDownload → r.handler = .resumeDownload) ∧ (r.handler = .unset → handler = .unset) ∧
      (r.lDel = false → handler ≠ .handleDownloadRead) ∧ (r.batchAdd = true ∨ r.lDel = true → puts = 0) := by
  unfold delResponseTranLazy
  by_cases hdel : r.lDel = true
  · rw [if_pos hdel]
    refine ⟨r.presReq, r.handler, 0, ?_, id, id, fun hno => ?_, fun _ => rfl⟩
    · rw [← hdel, Nat.add_zero]
    · rw [hdel] at hno
      cases hno
  · rw [if_neg hdel]
    refine ⟨false, if r.handler = .handleDownloadRead then .unset else r.handler,
      if r.map = 0 ∧ r.connWait = false ∧ r.batchAdd = false then 1 else 0, ?_, ?_, ?_, fun _ => ?_, fun hadd => ?_⟩
    · by_cases hputs : r.map = 0 ∧ r.connWait = false ∧ r.batchAdd = false
      · simp only [if_pos hputs]
      · simp only [if_neg hputs, Nat.add_zero]
    · cases r.handler <;> simp
    · cases r.handler <;> simp
    · cases r.handler <;> simp
    · rw [if_neg (by simp [hadd.resolve_right hdel])]

theorem delResponseTranLazy_puts (hdel : r.lDel = false) (hmap : r.map = 0) (hwait : r.connWait = false) (hadd : r.batchAdd = false) :
    ∃ handler, delResponseTranLazy r =
      { r with lDel := true, presReq := false, handler := handler, delResList := r.delResList + 1 } := by
  refine ⟨if r.handler = .handleDownloadRead then .unset else r.handler, ?_⟩
  unfold delResponseTranLazy
  have hkept : r.map = 0 ∧ r.connWait = false ∧ r.batchAdd = false := ⟨hmap, hwait, hadd⟩
  rw [if_neg (by simp [hdel])]
  simp only [if_pos hkept]

theorem deleted_eq (r : Response) :
    ∃ handler puts, delResponseTranLazy (delRequestTranLazy r) =
        { r with lDel := true, presReq := false, handler := handler, delResList := r.delResList + puts } ∧
      handler ≠ .resumeDownload ∧ (r.handler = .unset → handler = .unset) ∧ (r.batchAdd = true ∨ r.lDel = true → puts = 0) := by
  obtain ⟨presReq, handler, puts, hdeleted, hwaits, hunset, -, hputs⟩ := delResponseTranLazy_eq (delRequestTranLazy r)
  have hpresReq : (delResponseTranLazy (delRequestTranLazy r)).presReq = false := by
    unfold delResponseTranLazy
    split <;> rfl
  refine ⟨handler, puts, ?_, fun h => ?_, fun h => hunset ?_, hputs⟩
  · rw [hdeleted] at hpresReq ⊢
    cases hpresReq
    rfl
  · have hrequest := hwaits h
    unfold delRequestTranLazy at hrequest
    cases hhandler : r.handler <;> simp [hhandler] at hrequest
  · simp [delRequestTranLazy, h]

theorem sendPieces_nil (writes : List (Option Nat)) : sendPieces [] writes = (.done, []) := by
  cases writes <;> rfl

/-- How far `handleDownloadRead` gets with a response. Only a client that is there is waited for, and the last case is the one in which
the response is deleted on the way. -/
theorem passOn_cases (r : Response) (header : Sent) (writes : List (Option Nat)) (cacheable : Bool) :
    ∃ sendHead toSend, (r.toSend = [] → toSend = []) ∧
      ((r.presReq = true ∧ passOn r header writes cacheable =
          { r with sendHead := sendHead, toSend := toSend, handler := .resumeDownload }) ∨
        passOn r header writes cacheable =
          delResponseTranLazy (delRequestTranLazy { r with sendHead := sendHead, toSend := toSend }) ∨
        passOn r header writes cacheable =
          checkForWrite (checkCache (countBlock { r with sendHead := sendHead, toSend := toSend }) cacheable) ∨
        ((r.isPut = false ∧ r.presReq = false ∧ ∃ size ∈ r.toSend, size ≠ 0) ∧ passOn r header writes cacheable =
          checkForWrite (checkCache (countBlock (delResponseTranLazy { r with sendHead := sendHead, toSend := toSend })) cacheable))) := by
  unfold passOn
  split
  · next hbusy =>
      refine ⟨r.sendHead, r.toSend, id, .inl ⟨?_, rfl⟩⟩
      by_contra hgone
      rw [Bool.not_eq_true] at hgone
      simp [sendHeader, hgone] at hbusy
  · exact ⟨r.sendHead, r.toSend, id, .inr (.inl rfl)⟩
  · unfold sendData
    by_cases hput : r.isPut = true
    · rw [if_pos hput]
      exact ⟨true, r.toSend, id, .inr (.inr (.inl rfl))⟩
    · rw [if_neg hput]
      simp only
      by_cases hgone : r.presReq = false ∧ r.toSend.dropWhile (· = 0) ≠ []
      · rw [if_pos hgone]
        refine ⟨true, r.toSend.dropWhile (· = 0), fun hnil => by rw [hnil]; rfl, .inr (.inr (.inr ⟨⟨?_, hgone.1, ?_⟩, rfl⟩))⟩
        · simpa using hput
        · have hunsent := hgone.2
          rw [Ne, List.dropWhile_eq_nil_iff] at hunsent
          push Not at hunsent
          simpa using hunsent
      · rw [if_neg hgone]
        have hnil : r.toSend = [] → (sendPieces (r.toSend.dropWhile (· = 0)) writes).2 = [] := by
          intro hnil
          rw [hnil, List.dropWhile_nil, sendPieces_nil]
        refine ⟨true, _, hnil, ?_⟩
        cases hsent : (sendPieces (r.toSend.dropWhile (· = 0)) writes).1 with
        | busy =>
            refine .inl ⟨?_, rfl⟩
            by_contra hpresReq
            rw [Bool.not_eq_true] at hpresReq
            have hunsent : r.toSend.dropWhile (· = 0) = [] := by
              by_contra hne
              exact hgone ⟨hpresReq, hne⟩
            rw [hunsent, sendPieces_nil] at hsent
            cases hsent
        | failed => exact .inr (.inl rfl)
        | done => exact .inr (.inr (.inl rfl))

theorem passOn_gone (r : Response) (header : Sent) (writes : List (Option Nat)) (cacheable : Bool) (hput : r.isPut = false)
    (hgone : r.presReq = false) (hunsent : ∃ size ∈ r.toSend, size ≠ 0) :
    passOn r header writes cacheable =
      checkForWrite (checkCache (countBlock (delResponseTranLazy
        { r with sendHead := true, toSend := r.toSend.dropWhile (· = 0) })) cacheable) := by
  have hdone : (if r.sendHead = true then Sent.done else sendHeader r header) = .done := by
    rw [sendHeader, if_pos hgone, ite_self]
  have hne : r.toSend.dropWhile (· = 0) ≠ [] := by
    rw [Ne, List.dropWhile_eq_nil_iff]
    push Not
    simpa using hunsent
  have hdata : sendData { r with sendHead := true } writes =
      (.done, delResponseTranLazy { r with sendHead := true, toSend := r.toSend.dropWhile (· = 0) }) := by
    rw [sendData, if_neg (by simp [hput]), if_pos ⟨hgone, hne⟩]
  unfold passOn
  rw [hdone, hdata]

theorem countBlock_eq (r : Response) : ∃ used block, countBlock r = { r with used := used, block := block } := by
  unfold countBlock
  split
  · exact ⟨_, _, rfl⟩
  · exact ⟨r.used, r.block, rfl⟩

theorem checkForWrite_cases (hwriting : r.writing = false) :
    (r.type = .DOWN ∧ checkForWrite r = { r with writing := true }) ∨
      ((r.cacheable = true ∧ r.type = .DOWN → r.status = .ENTITY_COMPLETE → r.toWrite = []) ∧
        (checkForWrite r = delResponseTranLazy (delRequestTranLazy r) ∨ checkForWrite r = r)) := by
  have hfinish : finish r = delResponseTranLazy (delRequestTranLazy r) ∨ finish r = r := by
    unfold finish
    split
    · exact .inl rfl
    · exact .inr rfl
  unfold checkForWrite
  split
  · next hcond =>
      unfold writeLoop
      split
      · next hnil =>
          refine .inr ⟨fun _ _ => hnil, ?_⟩
          rw [← hwriting]
          exact hfinish
      · exact .inl ⟨hcond.2.1, rfl⟩
  · next hcond => exact .inr ⟨fun hcache hstatus => absurd ⟨hcache.1, hcache.2, .inl hstatus⟩ hcond, hfinish⟩

end Steps

/-! ## Where a response is -/

/-- A response that is in no list has not been counted, and is not written. -/
structure Fresh (r : Response) : Prop where
  batchAdd : r.batchAdd = false
  writing : r.writing = false
  map : r.map = 0
  calls : r.calls = 0
  allBlocks : r.allBlocks = []
  unlocked : r.unlocked = 0
  type : r.cacheCheck = false → r.type ≠ .DOWN
  toSend : r.toWrite = [] → r.toSend = []
  delResList : r.lDel = false → r.delResList = 0

/-- What the place of a response says about it, in every run. -/
structure Placed (r : Response) : Prop where
  unlisted : r.place = .unlisted → Fresh r
  cacheCheck : r.place ≠ .unlisted → r.cacheCheck = false
  type : r.place = .urls ∨ r.place = .relOb → r.type ≠ .WEB
  batchAdd : r.Referenced → r.batchAdd = true
  connWait : r.connWait = true → r.place = .unlisted ∧ r.handler = .unset
  waiting : r.handler = .resumeDownload → r.cacheCheck = true → r.lDel = false ∧ r.presReq = true
  freed : r.freed = true → r.delResList ≠ 0

section Placed

variable {r : Response}

theorem placed_start (start : Start) : Placed start.response := by
  cases start with
  | miss inIndex connWait =>
      refine ⟨fun _ => ⟨rfl, rfl, rfl, rfl, rfl, rfl, fun h => (by cases h), fun _ => rfl, fun _ => rfl⟩, fun h => absurd rfl h,
        fun h => ?_, fun h => ?_, fun h => ⟨rfl, if_pos h⟩, fun h => ?_, fun h => (by cases h)⟩
      · obtain h | h := h <;> cases h
      · obtain h | h | h := h <;> cases h
      · exact fun _ => ⟨rfl, rfl⟩
  | web connWait =>
      refine ⟨fun _ => ⟨rfl, rfl, rfl, rfl, rfl, rfl, fun _ => ?_, fun _ => rfl, fun _ => rfl⟩, fun h => absurd rfl h,
        fun h => ?_, fun h => ?_, fun h => ⟨rfl, if_pos h⟩, fun h => ?_, fun h => (by cases h)⟩
      · show ResponseType.WEB ≠ .DOWN
        decide
      · obtain h | h := h <;> cases h
      · obtain h | h | h := h <;> cases h
      · exact fun _ => ⟨rfl, rfl⟩
  | put parsed =>
      refine ⟨fun _ => ⟨rfl, rfl, rfl, rfl, rfl, rfl, fun h => (by cases h), id, fun _ => rfl⟩, fun h => absurd rfl h,
        fun h => ?_, fun h => ?_, fun h => (by cases h), fun h => ?_, fun h => (by cases h)⟩
      · obtain h | h := h <;> cases h
      · obtain h | h | h := h <;> cases h
      · exact fun _ => ⟨rfl, rfl⟩

theorem Placed.deleted (h : Placed r) {presReq : Bool} {handler : Handler} (puts : Nat)
    (hunset : r.handler = .unset → handler = .unset) (hwaits : handler = .resumeDownload → r.cacheCheck = false) :
    Placed { r with lDel := true, presReq := presReq, handler := handler, delResList := r.delResList + puts } where
  unlisted := fun hplace =>
    let f := h.unlisted hplace
    ⟨f.batchAdd, f.writing, f.map, f.calls, f.allBlocks, f.unlocked, f.type, f.toSend, fun hno => (by cases hno)⟩
  cacheCheck := h.cacheCheck
  type := h.type
  batchAdd := h.batchAdd
  connWait := fun hwait => ⟨(h.connWait hwait).1, hunset (h.connWait hwait).2⟩
  waiting := fun hhandler hcheck => absurd ((hwaits hhandler).symm.trans hcheck) Bool.false_ne_true
  freed := fun hfreed => Nat.ne_of_gt (Nat.lt_of_lt_of_le (Nat.pos_of_ne_zero (h.freed hfreed)) (Nat.le_add_right _ _))

theorem Placed.delResponseTranLazy (h : Placed r) (hwaits : r.handler = .resumeDownload → r.cacheCheck = false) :
    Placed (delResponseTranLazy r) := by
  obtain ⟨presReq, handler, puts, hdeleted, hhandler, hunset, -, -⟩ := delResponseTranLazy_eq r
  rw [hdeleted]
  exact h.deleted puts hunset fun hwait => hwaits (hhandler hwait)

theorem Placed.through (h : Placed r) : Placed (Downloads.delResponseTranLazy (delRequestTranLazy r)) := by
  obtain ⟨handler, puts, hdeleted, hhandler, hunset, -⟩ := deleted_eq r
  rw [hdeleted]
  exact h.deleted puts hunset fun hwait => absurd hwait hhandler

theorem Placed.pieces (h : Placed r) (sendHead : Bool) {toSend toWrite : List Nat} {status : Status} {con_len : Int} (used : Int)
    (block : Nat)
    (hpieces : (r.toWrite = [] → r.toSend = []) → toWrite = [] → toSend = []) :
    Placed { r with
      sendHead := sendHead, toSend := toSend, toWrite := toWrite, status := status, con_len := con_len, used := used, block := block } where
  unlisted := fun hplace =>
    let f := h.unlisted hplace
    ⟨f.batchAdd, f.writing, f.map, f.calls, f.allBlocks, f.unlocked, f.type, hpieces f.toSend, f.delResList⟩
  cacheCheck := h.cacheCheck
  type := h.type
  batchAdd := h.batchAdd
  connWait := h.connWait
  waiting := h.waiting
  freed := h.freed

theorem Placed.parseResponse (h : Placed r) (parsed : Parsed) : Placed (parseResponse r parsed) := by
  refine h.pieces r.sendHead _ r.block fun hpieces hnil => ?_
  obtain ⟨hwrite, hmore⟩ := List.append_eq_nil_iff.mp hnil
  rw [hpieces hwrite, hmore, List.append_nil]

theorem Placed.unlisted_of_cacheCheck (h : Placed r) (hcheck : r.cacheCheck = true) : r.place = .unlisted := by
  by_contra hplace
  rw [h.cacheCheck hplace] at hcheck
  cases hcheck

theorem Placed.countBlock (h : Placed r) : Placed (countBlock r) := by
  obtain ⟨used, block, hcounted⟩ := countBlock_eq r
  rw [hcounted]
  exact h.pieces _ used block id

theorem Placed.checkCache (h : Placed r) (hnot : r.handler ≠ .resumeDownload) (hwait : r.connWait = false) (cacheable : Bool) :
    Placed (checkCache r cacheable) := by
  unfold Downloads.checkCache
  split
  · exact h
  · next hcheck =>
      have hplace := h.unlisted_of_cacheCheck (by simpa using hcheck)
      have f := h.unlisted hplace
      split
      · refine ⟨fun hno => (by cases hno), fun _ => rfl, fun _ => ?_, fun _ => rfl, fun hno => ?_, fun hno => absurd hno hnot, h.freed⟩
        · show ResponseType.DOWN ≠ .WEB
          decide
        · rw [hwait] at hno
          cases hno
      · refine ⟨fun _ => ?_, fun _ => rfl, fun hno => ?_, h.batchAdd, h.connWait, fun hno => absurd hno hnot, h.freed⟩
        · refine ⟨f.batchAdd, f.writing, f.map, f.calls, f.allBlocks, f.unlocked, fun _ => ?_, f.toSend, f.delResList⟩
          show ResponseType.WEB ≠ .DOWN
          decide
        · rw [hplace] at hno
          obtain hno | hno := hno <;> cases hno

/-- `checkCache` leaves no response that could still be found to be one for the cache. -/
theorem checkCache_cacheCheck (r : Response) (cacheable : Bool) : (checkCache r cacheable).cacheCheck = false := by
  unfold checkCache
  split
  · next hcheck => exact hcheck
  · split <;> rfl

theorem Placed.checkForWrite (h : Placed r) (hwriting : r.writing = false) (hcheck : r.cacheCheck = false) : Placed (checkForWrite r) := by
  obtain ⟨htype, hchecked⟩ | ⟨-, hchecked | hchecked⟩ := checkForWrite_cases hwriting <;> rw [hchecked]
  · refine ⟨fun hplace => absurd htype ((h.unlisted hplace).type hcheck), h.cacheCheck, h.type, h.batchAdd, h.connWait, h.waiting, h.freed⟩
  · exact h.through
  · exact h

theorem checkCache_writing (r : Response) (cacheable : Bool) : (checkCache r cacheable).writing = r.writing := by
  unfold Downloads.checkCache
  split
  · rfl
  · split <;> rfl

theorem Placed.checked (h : Placed r) (hnot : r.handler ≠ .resumeDownload) (hwait : r.connWait = false) (hwriting : r.writing = false)
    (cacheable : Bool) : Placed (Downloads.checkForWrite (Downloads.checkCache (Downloads.countBlock r) cacheable)) := by
  obtain ⟨used, block, hcounted⟩ := countBlock_eq r
  have hblock := h.countBlock
  rw [hcounted] at hblock ⊢
  exact (hblock.checkCache hnot hwait cacheable).checkForWrite ((checkCache_writing _ _).trans hwriting) (checkCache_cacheCheck _ _)

theorem Placed.connWait_of_handler (h : Placed r) (hhandler : r.handler = .handleDownloadRead) : r.connWait = false := by
  by_contra hwait
  rw [Bool.not_eq_false] at hwait
  have hunset := (h.connWait hwait).2
  rw [hhandler] at hunset
  cases hunset

theorem Placed.passOn (h : Placed r) (hhandler : r.handler = .handleDownloadRead) (hwriting : r.writing = false)
    (hdel : r.cacheCheck = true → r.lDel = false) (header : Sent) (writes : List (Option Nat)) (cacheable : Bool) :
    Placed (passOn r header writes cacheable) := by
  obtain ⟨sendHead, toSend, hnil, hcases⟩ := passOn_cases r header writes cacheable
  have hpieces : Placed { r with sendHead := sendHead, toSend := toSend } :=
    h.pieces sendHead r.used r.block fun hold hwrite => hnil (hold hwrite)
  have hnot : r.handler ≠ .resumeDownload := by
    rw [hhandler]
    decide
  have hwait := h.connWait_of_handler hhandler
  obtain ⟨hclient, hbusy⟩ | hgone | hdone | ⟨-, horphan⟩ := hcases
  · rw [hbusy]
    refine ⟨fun hplace => ?_, h.cacheCheck, h.type, h.batchAdd, fun hno => ?_, fun _ hcheck => ⟨hdel hcheck, hclient⟩, h.freed⟩
    · have f := hpieces.unlisted hplace
      exact ⟨f.batchAdd, f.writing, f.map, f.calls, f.allBlocks, f.unlocked, f.type, f.toSend, f.delResList⟩
    · rw [hwait] at hno
      cases hno
  · rw [hgone]
    exact hpieces.through
  · rw [hdone]
    exact hpieces.checked hnot hwait hwriting cacheable
  · rw [horphan]
    have hdeleted := hpieces.delResponseTranLazy fun hno => absurd hno hnot
    obtain ⟨presReq, handler, puts, heq, hsame, -⟩ := delResponseTranLazy_eq { r with sendHead := sendHead, toSend := toSend }
    rw [heq] at hdeleted ⊢
    exact hdeleted.checked (fun hno => hnot (hsame hno)) hwait hwriting cacheable

theorem Placed.connected (h : Placed r) (hhandler : r.handler = .resumeDownload) : Placed { r with handler := .handleDownloadRead } := by
  refine ⟨fun hplace => ?_, h.cacheCheck, h.type, h.batchAdd, fun hwait => ?_, fun hno => (by cases hno), h.freed⟩
  · have f := h.unlisted hplace
    exact ⟨f.batchAdd, f.writing, f.map, f.calls, f.allBlocks, f.unlocked, f.type, f.toSend, f.delResList⟩
  · have hunset := (h.connWait hwait).2
    rw [hhandler] at hunset
    cases hunset

theorem headerLoop_zero (n : Nat) : headerLoop n 0 = [] := by
  cases n with
  | zero => rfl
  | succ n => rw [headerLoop, if_neg (Nat.lt_irrefl 0)]

theorem headerLoop_last {n toWrite : Nat} (hn : toWrite ≤ n) (hpos : 0 < toWrite) (hle : toWrite ≤ actualBlockSize) :
    headerLoop n toWrite = [toWrite] := by
  cases n with
  | zero => omega
  | succ n => rw [headerLoop, if_pos hpos, min_eq_left hle, Nat.sub_self, headerLoop_zero]

/-- A header of more than `ACTUAL_BLOCK_SIZE` goes into two blocks, as it has at most 3000 characters. -/
theorem headerBlocks_length (genBufferLen : Nat) :
    (headerBlocks genBufferLen).length = 1 + if actualBlockSize < genBufferLen ∧ genBufferLen ≤ 3000 then 1 else 0 := by
  have hsize : actualBlockSize = 1908 := by decide
  unfold headerBlocks
  by_cases hlong : 3000 < genBufferLen
  · rw [if_pos hlong, if_neg (by omega), List.length_singleton]
  · rw [if_neg hlong, List.length_cons]
    by_cases hfits : genBufferLen ≤ actualBlockSize
    · rw [min_eq_left hfits, Nat.sub_self, headerLoop_zero, if_neg (by omega)]
      rfl
    · rw [min_eq_right (by omega), headerLoop_last (Nat.le_refl _) (by omega) (by omega), if_pos ⟨by omega, by omega⟩]
      rfl

/-- The blocks that a call of `prepareWrite` makes. -/
def madeBlocks (genBufferLen : Nat) : WriteStage → Nat
  | .FIRST => (headerBlocks genBufferLen).length
  | .REM => 1

theorem prepareWrite_spec (genBufferLen : Nat) (r : Response) :
    ∃ block toWrite blocks, blocks.length = madeBlocks genBufferLen r.pstage ∧
      prepareWrite genBufferLen r =
        { r with used := 0, block := block, pstage := .REM, toWrite := toWrite, allBlocks := r.allBlocks ++ blocks } := by
  have hpos : 0 < (headerBlocks genBufferLen).length := by
    rw [headerBlocks_length]
    omega
  cases hstage : r.pstage with
  | REM =>
      simp only [prepareWrite, hstage]
      exact ⟨_, _, _, List.length_singleton, rfl⟩
  | FIRST =>
      simp only [prepareWrite, hstage]
      split
      · exact ⟨_, r.toWrite, headerBlocks genBufferLen, rfl, rfl⟩
      · refine ⟨_, _, _, ?_, rfl⟩
        rw [List.length_append, List.length_dropLast, List.length_singleton, madeBlocks]
        omega

theorem writeLoop_cases (r : Response) :
    writeLoop r = { r with writing := true } ∨ writeLoop r = delResponseTranLazy (delRequestTranLazy { r with writing := false }) ∨
      writeLoop r = { r with writing := false } := by
  unfold writeLoop
  split
  · unfold finish
    split
    · exact .inr (.inl rfl)
    · exact .inr (.inr rfl)
  · exact .inl rfl

theorem checkForWriteRound_same (genBufferLen : Nat) (r : Response) :
    (checkForWriteRound genBufferLen r).place = r.place ∧ (checkForWriteRound genBufferLen r).map = r.map + 1 ∧
      (checkForWriteRound genBufferLen r).calls = r.calls + 1 ∧ r.delResList ≤ (checkForWriteRound genBufferLen r).delResList := by
  obtain ⟨block, toWrite, blocks, -, hwrite⟩ := prepareWrite_spec genBufferLen { r with map := r.map + 1, calls := r.calls + 1 }
  unfold checkForWriteRound
  rw [hwrite]
  obtain hgoes | hends | hends := writeLoop_cases { r with
      map := r.map + 1, calls := r.calls + 1, used := 0, block := block, pstage := .REM, toWrite := toWrite,
      allBlocks := r.allBlocks ++ blocks }
  · rw [hgoes]
    exact ⟨rfl, rfl, rfl, Nat.le_refl _⟩
  · obtain ⟨handler, puts, hdeleted, -⟩ := deleted_eq { r with
      map := r.map + 1, calls := r.calls + 1, used := 0, block := block, pstage := .REM, toWrite := toWrite,
      allBlocks := r.allBlocks ++ blocks, writing := false }
    rw [hends, hdeleted]
    exact ⟨rfl, rfl, rfl, Nat.le_add_right _ _⟩
  · rw [hends]
    exact ⟨rfl, rfl, rfl, Nat.le_refl _⟩

theorem Placed.checkForWriteRound (h : Placed r) (genBufferLen : Nat) (hwriting : r.writing = true) :
    Placed (checkForWriteRound genBufferLen r) := by
  have hlisted : r.place ≠ .unlisted := by
    intro hplace
    have hno := (h.unlisted hplace).writing
    rw [hwriting] at hno
    cases hno
  obtain ⟨block, toWrite, blocks, -, hwrite⟩ := prepareWrite_spec genBufferLen { r with map := r.map + 1, calls := r.calls + 1 }
  unfold Downloads.checkForWriteRound
  rw [hwrite]
  have hround (writing : Bool) : Placed { r with
      map := r.map + 1, calls := r.calls + 1, used := 0, block := block, pstage := .REM, toWrite := toWrite,
      allBlocks := r.allBlocks ++ blocks, writing := writing } :=
    ⟨fun hplace => absurd hplace hlisted, h.cacheCheck, h.type, h.batchAdd, h.connWait, h.waiting, h.freed⟩
  obtain hgoes | hends | hends := writeLoop_cases { r with
      map := r.map + 1, calls := r.calls + 1, used := 0, block := block, pstage := .REM, toWrite := toWrite,
      allBlocks := r.allBlocks ++ blocks }
  · rw [hgoes]
    exact hround true
  · rw [hends]
    exact (hround false).through
  · rw [hends]
    exact hround false

theorem Placed.left (h : Placed r) (hplace : r.place ≠ .unlisted) {place : Place} (hleft : place = .written ∨ place = .dropped)
    {type : ResponseType} {cacheable lDel batchAdd : Bool} {map : BitVec 8} {allBlocks : List Nat} {unlocked : Nat} :
    Placed { r with
      place := place, type := type, cacheable := cacheable, lDel := lDel, batchAdd := batchAdd, map := map, allBlocks := allBlocks,
      unlocked := unlocked } := by
  have hnone : place ≠ .unlisted ∧ place ≠ .urls ∧ place ≠ .relOb ∧ place ≠ .batch := by
    obtain rfl | rfl := hleft <;> decide
  refine ⟨fun hno => absurd hno hnone.1, fun _ => h.cacheCheck hplace, fun hno => ?_, fun hno => ?_, fun hwait => ?_, fun _ hcheck => ?_,
    h.freed⟩
  · obtain hno | hno := hno
    · exact absurd hno hnone.2.1
    · exact absurd hno hnone.2.2.1
  · obtain hno | hno | hno := hno
    · exact absurd hno hnone.2.1
    · exact absurd hno hnone.2.2.1
    · exact absurd hno hnone.2.2.2
  · exact absurd (h.connWait hwait).1 hplace
  · exact absurd ((h.cacheCheck hplace).symm.trans hcheck) Bool.false_ne_true

/-- It may be deleted before its place is noted. -/
theorem Placed.drop (h : Placed r) (hplace : r.place ≠ .unlisted) {allBlocks : List Nat} :
    Placed { Downloads.delResponseTranLazy { r with batchAdd := false, map := 0, lDel := false, allBlocks := allBlocks } with
      place := .dropped } := by
  have hleft : Placed { r with place := .dropped, batchAdd := false, map := 0, lDel := false, allBlocks := allBlocks } :=
    h.left hplace (.inr rfl)
  obtain ⟨presReq, handler, puts, hdeleted, -, hunset, -⟩ :=
    delResponseTranLazy_eq { r with batchAdd := false, map := 0, lDel := false, allBlocks := allBlocks }
  rw [hdeleted]
  exact hleft.deleted puts hunset fun _ => h.cacheCheck hplace

theorem Placed.processBatch (h : Placed r) (hplace : r.place = .urls) : Placed (processBatch r) := by
  have hlisted : r.place ≠ .unlisted := by
    rw [hplace]
    decide
  unfold Downloads.processBatch
  rw [if_neg (h.type (.inl hplace))]
  split
  · exact h.drop hlisted
  · split
    · refine ⟨fun hno => (by cases hno), fun _ => h.cacheCheck hlisted, fun _ => h.type (.inl hplace), fun _ => h.batchAdd (.inl hplace),
        fun hwait => absurd (h.connWait hwait).1 hlisted, h.waiting, h.freed⟩
    · split
      · exact h.left hlisted (.inr rfl)
      · exact h

theorem Placed.formDiskBatches (h : Placed r) (hplace : r.place = .relOb) (noBlocks : Bool) : Placed (formDiskBatches r noBlocks) := by
  have hlisted : r.place ≠ .unlisted := by
    rw [hplace]
    decide
  refine ⟨fun hno => (by cases hno), fun _ => h.cacheCheck hlisted, fun hno => ?_, fun _ => h.batchAdd (.inr (.inl hplace)),
    fun hwait => absurd (h.connWait hwait).1 hlisted, h.waiting, h.freed⟩
  obtain hno | hno := hno <;> cases hno

theorem Placed.writeDone (h : Placed r) (hplace : r.place = .batch) : Placed (writeDone r) := by
  have hlisted : r.place ≠ .unlisted := by
    rw [hplace]
    decide
  unfold Downloads.writeDone
  simp only
  split
  · have hwritten : Placed { r with place := .written, lDel := false, batchAdd := false, map := r.map - 1, unlocked := r.unlocked + 1 } :=
      h.left hlisted (.inl rfl)
    exact hwritten.delResponseTranLazy fun _ => h.cacheCheck hlisted
  · exact h.left hlisted (.inl rfl)

theorem Placed.cache (h : Placed r) : Placed { r with type := .CACHE } := by
  refine ⟨fun hplace => ?_, h.cacheCheck, fun _ => ?_, h.batchAdd, h.connWait, h.waiting, h.freed⟩
  · have f := h.unlisted hplace
    refine ⟨f.batchAdd, f.writing, f.map, f.calls, f.allBlocks, f.unlocked, fun _ => ?_, f.toSend, f.delResList⟩
    show ResponseType.CACHE ≠ .DOWN
    decide
  · show ResponseType.CACHE ≠ .WEB
    decide

theorem Placed.next (h : Placed r) {genBufferLen : Nat} {e : Event} {r' : Response} (hnext : next genBufferLen r e = some r') :
    Placed r' := by
  cases step_of_next hnext with
  | handleConnect again hidle hwait =>
      obtain ⟨hplace, hunset⟩ := h.connWait hwait
      have hconnected (again : Bool) (handler : Handler) (hhandler : again = true → handler = .unset) (hnot : handler ≠ .resumeDownload) :
          Placed { r with connWait := again, handler := handler } := by
        refine ⟨fun _ => ?_, h.cacheCheck, h.type, h.batchAdd, fun hagain => ⟨hplace, hhandler hagain⟩, fun hno => absurd hno hnot, h.freed⟩
        have f := h.unlisted hplace
        exact ⟨f.batchAdd, f.writing, f.map, f.calls, f.allBlocks, f.unlocked, f.type, f.toSend, f.delResList⟩
      have hnot : r.handler ≠ .resumeDownload := by
        rw [hunset]
        decide
      unfold Downloads.handleConnect
      simp only
      split
      · exact (hconnected false r.handler (fun hno => absurd hno Bool.false_ne_true) hnot).delResponseTranLazy
          fun hno => absurd hno hnot
      · cases again with
        | true => exact hconnected true .unset (fun _ => rfl) (by decide)
        | false => exact hconnected false .handleDownloadRead (fun hno => absurd hno Bool.false_ne_true) (by decide)
  | handleDownloadRead parsed header writes cacheable hidle hhandler =>
      unfold Downloads.handleDownloadRead
      split
      · refine ⟨fun hplace => ?_, h.cacheCheck, h.type, h.batchAdd, fun hwait => ⟨(h.connWait hwait).1, rfl⟩, fun hno => (by cases hno),
          h.freed⟩
        have f := h.unlisted hplace
        exact ⟨f.batchAdd, f.writing, f.map, f.calls, f.allBlocks, f.unlocked, f.type, f.toSend, f.delResList⟩
      · next hdel =>
          simp only
          split
          · exact (h.parseResponse parsed).through
          · split
            · exact h.parseResponse parsed
            · exact (h.parseResponse parsed).passOn hhandler hidle.1 (fun _ => Bool.not_eq_true _ ▸ hdel) header writes cacheable
  | resumeDownload header writes cacheable hidle hhandler =>
      exact (h.connected hhandler).passOn rfl hidle.1 (fun hcheck => (h.waiting hhandler hcheck).1) header writes cacheable
  | prepareWrite hwriting => exact h.checkForWriteRound genBufferLen hwriting
  | delRequestTranLazy hidle =>
      refine ⟨fun hplace => ?_, h.cacheCheck, h.type, h.batchAdd, fun hwait => ⟨(h.connWait hwait).1, ?_⟩, fun hno => ?_, h.freed⟩
      · have f := h.unlisted hplace
        exact ⟨f.batchAdd, f.writing, f.map, f.calls, f.allBlocks, f.unlocked, f.type, f.toSend, f.delResList⟩
      · simp [Downloads.delRequestTranLazy, (h.connWait hwait).2]
      · unfold Downloads.delRequestTranLazy at hno
        cases hhandler : r.handler <;> simp [hhandler] at hno
  | delResponseTranLazy hidle hhandler => exact h.delResponseTranLazy fun hno => absurd hno hhandler
  | checkPersistentConnection hidle hhandler =>
      have hnot : r.handler ≠ .resumeDownload := by
        rw [hhandler]
        decide
      exact h.cache.delResponseTranLazy fun hno => absurd hno hnot
  | processBatch hidle hplace => exact h.processBatch hplace
  | formDiskBatches noBlocks hidle hplace => exact h.formDiskBatches hplace noBlocks
  | versionChange hidle hplace => exact h.drop (by rw [hplace]; decide)
  | writeDone hidle hplace => exact h.writeDone hplace
  | deletePerms hidle hlist hmap =>
      refine ⟨fun hplace => ?_, h.cacheCheck, h.type, h.batchAdd, h.connWait, h.waiting, fun _ => hlist⟩
      have f := h.unlisted hplace
      exact ⟨f.batchAdd, f.writing, f.map, f.calls, f.allBlocks, f.unlocked, f.type, f.toSend, f.delResList⟩

end Placed

/-! ## A response in a batch -/

/-- The response is in a batch if it was before, and has its memory if it had. -/
structure Stays (place : Place) (freed : Bool) (r : Response) : Prop where
  batch : r.place = .batch ↔ place = .batch
  freed : r.freed = freed

/-- The steps that a batch makes with its responses, and `deletePerms`. -/
def Event.OfBatch : Event → Prop
  | .formDiskBatches _ | .versionChange | .writeDone | .deletePerms => True
  | _ => False

section Stays

variable {r r' : Response}

theorem Stays.trans {place : Place} {freed : Bool} (h : Stays place freed r) (h' : Stays r.place r.freed r') : Stays place freed r' :=
  ⟨h'.batch.trans h.batch, h'.freed.trans h.freed⟩

theorem writeDone_place (r : Response) : (writeDone r).place = .written := by
  unfold writeDone
  simp only
  split
  · obtain ⟨presReq, handler, puts, hdeleted, -⟩ := delResponseTranLazy_eq
      { r with map := r.map - 1, place := .written, lDel := false, unlocked := r.unlocked + 1, batchAdd := false }
    rw [hdeleted]
  · rfl

theorem stays_delResponseTranLazy (r : Response) : Stays r.place r.freed (delResponseTranLazy r) := by
  obtain ⟨presReq, handler, puts, hdeleted, -⟩ := delResponseTranLazy_eq r
  rw [hdeleted]
  exact ⟨Iff.rfl, rfl⟩

theorem stays_through (r : Response) : Stays r.place r.freed (delResponseTranLazy (delRequestTranLazy r)) := by
  obtain ⟨handler, puts, hdeleted, -⟩ := deleted_eq r
  rw [hdeleted]
  exact ⟨Iff.rfl, rfl⟩

theorem stays_finish (r : Response) : Stays r.place r.freed (finish r) := by
  unfold finish
  split
  · exact stays_through r
  · exact ⟨Iff.rfl, rfl⟩

theorem stays_writeLoop (r : Response) : Stays r.place r.freed (writeLoop r) := by
  unfold writeLoop
  split
  · exact stays_finish { r with writing := false }
  · exact ⟨Iff.rfl, rfl⟩

theorem stays_checkForWrite (r : Response) : Stays r.place r.freed (checkForWrite r) := by
  unfold checkForWrite
  split
  · exact stays_writeLoop r
  · exact stays_finish r

theorem stays_checkCache (hcheck : r.cacheCheck = true → r.place = .unlisted) (cacheable : Bool) :
    Stays r.place r.freed (checkCache r cacheable) := by
  unfold checkCache
  split
  · exact ⟨Iff.rfl, rfl⟩
  · next hno =>
      have hplace := hcheck (by simpa using hno)
      split
      · refine ⟨?_, rfl⟩
        rw [hplace]
        exact iff_of_false nofun nofun
      · exact ⟨Iff.rfl, rfl⟩

theorem stays_checked (hcheck : r.cacheCheck = true → r.place = .unlisted) (cacheable : Bool) :
    Stays r.place r.freed (checkForWrite (checkCache (countBlock r) cacheable)) := by
  obtain ⟨used, block, hcounted⟩ := countBlock_eq r
  have hstays := stays_checkCache (r := { r with used := used, block := block }) hcheck cacheable
  rw [hcounted]
  exact hstays.trans (stays_checkForWrite _)

theorem stays_passOn (hcheck : r.cacheCheck = true → r.place = .unlisted) (header : Sent) (writes : List (Option Nat)) (cacheable : Bool) :
    Stays r.place r.freed (passOn r header writes cacheable) := by
  obtain ⟨sendHead, toSend, -, ⟨-, hpass⟩ | hpass | hpass | ⟨-, hpass⟩⟩ := passOn_cases r header writes cacheable
  · rw [hpass]
    exact ⟨Iff.rfl, rfl⟩
  · rw [hpass]
    exact stays_through { r with sendHead := sendHead, toSend := toSend }
  · have hstays := stays_checked (r := { r with sendHead := sendHead, toSend := toSend }) hcheck cacheable
    rw [hpass]
    exact hstays
  · obtain ⟨presReq, handler, puts, hdeleted, -⟩ := delResponseTranLazy_eq { r with sendHead := sendHead, toSend := toSend }
    rw [hpass, hdeleted]
    exact stays_checked (r := { r with
      sendHead := sendHead, toSend := toSend, lDel := true, presReq := presReq, handler := handler, delResList := r.delResList + puts })
      hcheck cacheable

theorem stays_processBatch (hplace : r.place = .urls) : Stays r.place r.freed (processBatch r) := by
  have hout : r.place ≠ .batch := by
    rw [hplace]
    decide
  unfold processBatch
  split
  · split
    · exact ⟨iff_of_false nofun hout, (stays_delResponseTranLazy { r with batchAdd := false, lDel := false, map := 0 }).freed⟩
    · exact ⟨Iff.rfl, rfl⟩
  · split
    · exact ⟨iff_of_false nofun hout,
        (stays_delResponseTranLazy { r with batchAdd := false, map := 0, lDel := false, allBlocks := [] }).freed⟩
    · split
      · exact ⟨iff_of_false nofun hout, rfl⟩
      · split
        · exact ⟨iff_of_false nofun hout, rfl⟩
        · exact ⟨Iff.rfl, rfl⟩

theorem stays_checkForWriteRound (genBufferLen : Nat) (r : Response) : Stays r.place r.freed (checkForWriteRound genBufferLen r) := by
  have hwrite : Stays r.place r.freed (prepareWrite genBufferLen { r with map := r.map + 1, calls := r.calls + 1 }) := by
    unfold prepareWrite
    split
    · simp only
      split
      · exact ⟨Iff.rfl, rfl⟩
      · exact ⟨Iff.rfl, rfl⟩
    · exact ⟨Iff.rfl, rfl⟩
  exact hwrite.trans (stays_writeLoop _)

theorem stays_next (h : Placed r) {genBufferLen : Nat} {e : Event} (hevent : ¬e.OfBatch) (hnext : next genBufferLen r e = some r') :
    Stays r.place r.freed r' := by
  have hcheck := h.unlisted_of_cacheCheck
  cases step_of_next hnext with
  | handleConnect again hidle hwait =>
      unfold handleConnect
      simp only
      split
      · exact stays_delResponseTranLazy { r with connWait := false }
      · exact ⟨Iff.rfl, rfl⟩
  | handleDownloadRead parsed header writes cacheable hidle hhandler =>
      unfold handleDownloadRead
      split
      · exact ⟨Iff.rfl, rfl⟩
      · simp only
        split
        · exact stays_through (parseResponse r parsed)
        · split
          · exact ⟨Iff.rfl, rfl⟩
          · exact stays_passOn (r := parseResponse r parsed) hcheck header writes cacheable
  | resumeDownload header writes cacheable hidle hhandler =>
      exact stays_passOn (r := { r with handler := .handleDownloadRead }) hcheck header writes cacheable
  | prepareWrite hwriting => exact stays_checkForWriteRound genBufferLen r
  | delRequestTranLazy hidle => exact ⟨Iff.rfl, rfl⟩
  | delResponseTranLazy hidle hhandler => exact stays_delResponseTranLazy r
  | checkPersistentConnection hidle hhandler => exact stays_delResponseTranLazy { r with type := .CACHE }
  | processBatch hidle hplace => exact stays_processBatch hplace
  | formDiskBatches | versionChange | writeDone | deletePerms => exact absurd trivial hevent

end Stays

end BeagleCache.Downloads

import Mathlib.Tactic
import BeagleCache.LogAllocator
import BeagleCache.Outcome

/-! How HashCache's proxy serves an object it has stored (`processFurtherBlocks`). The outer loop takes one block after the
other from the hot object cache or from a dirty object; the inner loop takes a block through the stages of the response.
What the functions called for a block report is given from outside, and may be anything. -/

namespace BeagleCache.Serve

open Hcfs

/-- `URL_SIZE` -/
def urlSize : Nat := 100

/-- `END` -/
def endMark : Char := 'e'

/-- `NOT_END` -/
def notEnd : Char := 'n'

/-- `ENTITY_COMPLETE` -/
def entityComplete : Int := 2

/-- `COME_BACK` -/
def comeBack : Int := 3

/-- `BAD_RESPONSE` -/
def badResponse : Int := 7

/-- `BUFF_FULL` -/
def buffFull : Int := 12

/-- The fields of a `blockHeader` and a `blockTailer` that are read when the block is served. They may hold anything. -/
structure StoredBlock where
  URL : List UInt8
  keySec : Int
  status : Char
  readable : Int
  version : Int
  pres : Int
  next : Int
  length : Int
  deriving DecidableEq

inductive CacheType where
  | hoc
  | dob
  deriving DecidableEq

/-- `type` -/
inductive Kind where
  | down
  | cache
  | follow
  | web
  deriving DecidableEq

/-- `pstage` -/
inductive Stage where
  | sending
  | start
  | first
  | matching
  | compatibility
  deriving DecidableEq

/-- A write handler of the client's descriptor. -/
inductive Handler where
  | resumeDiskRead
  | resumeDownload
  deriving DecidableEq

/-- The fields of an `httpResponse` that decide how it is served. `waproxGet` is `method == WAPROX_GET`, `presReq` that the
client is still there. -/
structure Response where
  URL : List UInt8
  hash : Nat
  waproxGet : Bool
  cacheType : CacheType
  type : Kind
  pstage : Stage
  status : Int
  lDel : Bool
  map : Bool
  presReq : Bool
  sendHead : Bool
  block : Nat
  remOffset : Int
  version : Int
  totalLen : Int
  matchNum : Int
  writeHandler : Option Handler
  deriving DecidableEq

/-- What the functions called for a block report: `parseResponse` its result and the status it leaves, `checkExpiry`,
`checkCompatibility`, `sendHeader` and `sendData` their results, `pending` that there is data to send, and
`searchAndConnect` its result and if it deleted the response. -/
structure Outcome where
  parse : Int
  parsed : Int
  expiry : Int
  compatibility : Int
  header : Int
  pending : Bool
  sent : Int
  connect : Int
  connectDeletes : Bool
  deriving DecidableEq

/-- The calls to the hot object cache, to the locks, to the index and to the disks. `expire` is the write to the `key` of a
block. -/
inductive Call where
  | getBlock (remOffset : Int)
  | doneReading (remOffset : Int)
  | addReadLock (hash : Nat) (matchNum : Int)
  | removeReadLock (hash : Nat) (matchNum : Int)
  | discardHeaders (hash : Nat) (matchNum : Int)
  | expire (remOffset : Int)
  | diskRequest (remOffset totalLen version : Int)
  deriving DecidableEq

/-- `reInitHTTPRequest` leaves the response in the same way, as `delResponseTranLazy` follows. -/
def delRequestTranLazy (r : Response) : Response := { r with presReq := false, writeHandler := none }

def delResponseTranLazy (r : Response) : Response :=
  if r.lDel then r else { r with lDel := true, presReq := false, writeHandler := none }

def searchAndConnect (o : Outcome) (r : Response) : Int × Response :=
  if r.presReq = false then (0, delResponseTranLazy r)
  else (o.connect, if o.connectDeletes then delResponseTranLazy r else r)

def readyForDownload (o : Outcome) (r : Response) : Response :=
  let got := searchAndConnect o
    { r with
      matchNum := 0
      map := false
      lDel := false
      status := badResponse
      type := .down
      pstage := .start
      block := 1
      sendHead := false }
  let r := if got.1 = -1 then delResponseTranLazy (delRequestTranLazy { got.2 with type := .cache }) else got.2
  { r with pstage := .first }

def sendHeader (o : Outcome) (r : Response) : Int := if r.presReq then o.header else 0

def sendData (o : Outcome) (r : Response) : Int × Response :=
  if r.presReq then (o.sent, r) else if o.pending then (0, delResponseTranLazy r) else (0, r)

/-- The `strncmp` of the stored URL. -/
def urlFits (r : Response) (b : StoredBlock) : Prop :=
  b.URL.take (min r.URL.length (urlSize - 1)) = r.URL.take (min r.URL.length (urlSize - 1))

instance (r : Response) (b : StoredBlock) : Decidable (urlFits r b) := inferInstanceAs (Decidable (_ = _))

/-- All ways of the loop are the same block. -/
def getBestMatch (r : Response) (b : StoredBlock) : Int := if urlFits r b ∧ -1 < b.keySec then 0 else -1

/-- `readable` is a length that a block can have. -/
def ReadableFits (b : StoredBlock) : Prop := 0 ≤ b.readable ∧ b.readable ≤ actualBlockSize

instance (b : StoredBlock) : Decidable (ReadableFits b) := inferInstanceAs (Decidable (_ ∧ _))

/-- The locals of a call: `this`, `this2` and `match`; and the calls it made. -/
structure Pass where
  r : Response
  thisFlag : Bool
  this2 : Bool
  matchNum : Int
  calls : List Call

namespace Pass

def call (p : Pass) (c : Call) : Pass := { p with calls := p.calls ++ [c] }

/-- `doneReading`, for a block of the hot object cache -/
def doneReading (p : Pass) (presentRemOffset : Int) : Pass :=
  if p.r.cacheType = .hoc then p.call (.doneReading presentRemOffset) else p

def removeReadLock (p : Pass) : Pass := p.call (.removeReadLock p.r.hash p.matchNum)

/-- The exits that give up the response and its request. -/
def giveUp (p : Pass) : Pass := { p with r := delResponseTranLazy (delRequestTranLazy p.r), thisFlag := false }

/-- The response goes to the download of its URL. -/
def redo (o : Outcome) (p : Pass) : Pass := { p with r := readyForDownload o p.r }

/-- `parseResponse` has seen the block, which is not needed any more. -/
def parse (o : Outcome) (presentRemOffset : Int) (p : Pass) : Pass :=
  { p with r := { p.r with status := o.parsed } }.doneReading presentRemOffset

/-- Where the next block is. -/
def advance (p : Pass) (b : StoredBlock) : Pass :=
  { p with r := { p.r with version := b.version, remOffset := b.next, totalLen := b.length } }

def complete (p : Pass) : Pass := { p with r := { p.r with status := entityComplete } }

/-- The response goes on to its next block. -/
def sending (p : Pass) (writeHandler : Option Handler) : Pass :=
  { p with r := { p.r with matchNum := p.matchNum, pstage := .sending, writeHandler := writeHandler }, thisFlag := false }

end Pass

def matchPass (o : Outcome) (presentRemOffset : Int) (b : StoredBlock) (p : Pass) : Pass :=
  let p := { p with matchNum := getBestMatch p.r b }
  if p.matchNum = -1 then
    if p.r.waproxGet then p.giveUp.doneReading presentRemOffset
    else { (p.doneReading presentRemOffset).redo o with thisFlag := false }
  else { p with r := { p.r with pstage := .compatibility } }

/-- From `sendData` on. `removes` is that the read lock is removed when the data cannot be sent. -/
def deliver (removes : Bool) (o : Outcome) (b : StoredBlock) (p : Pass) : Pass :=
  let got := sendData o p.r
  let p := { p with r := got.2 }
  if got.1 = 2 then (if b.status = endMark then p.complete.removeReadLock else p.advance b).sending (some .resumeDiskRead)
  else if got.1 = -1 then (if removes then p.removeReadLock else p).giveUp
  else if b.status = endMark then p.removeReadLock.complete.giveUp
  else if b.status = notEnd then { (p.advance b).sending p.r.writeHandler with this2 := true }
  else p.giveUp

/-- From `addReadLock` on. -/
def startSending (o : Outcome) (b : StoredBlock) (p : Pass) : Pass :=
  let p := p.call (.addReadLock p.r.hash p.matchNum)
  let status := sendHeader o p.r
  if status = 2 then ((if b.status = endMark then p.complete.removeReadLock else p).advance b).sending (some .resumeDownload)
  else
    let p := { p with r := { p.r with sendHead := true } }
    if status = -1 then p.removeReadLock.giveUp
    else if p.r.presReq = false then { p.removeReadLock with r := delResponseTranLazy p.r, thisFlag := false }
    else deliver true o b p

/-- The exits that throw the block out of the index. -/
def discard (o : Outcome) (presentRemOffset : Int) (p : Pass) : Pass :=
  let p := p.call (.discardHeaders p.r.hash p.r.matchNum)
  { (if p.r.cacheType = .hoc then p.call (.expire presentRemOffset) else p).redo o with thisFlag := false }

def compatibilityPass (a : Alloc) (o : Outcome) (presentRemOffset : Int) (b : StoredBlock) (p : Pass) : Run Pass :=
  if ¬ReadableFits b ∨ b.status = notEnd ∧ ¬checkVersion a b.version b.next then
    -- `this` is left TRUE on these two exits
    .ok (((p.call (.discardHeaders p.r.hash p.r.matchNum)).doneReading presentRemOffset).redo o)
  else
    let p := p.parse o presentRemOffset
    if o.parsed = buffFull then .error .exit
    else if o.parse = -1 ∨ o.parsed = badResponse ∨ o.parsed = comeBack then .ok (discard o presentRemOffset p)
    else if o.expiry = -1 then .ok (discard o presentRemOffset p)
    else if p.r.presReq = false then .ok { p with r := delResponseTranLazy p.r, thisFlag := false }
    else if o.compatibility = -1 then .ok { p.redo o with thisFlag := false }
    else .ok (startSending o b p)

def sendingPass (o : Outcome) (presentRemOffset : Int) (b : StoredBlock) (p : Pass) : Run Pass :=
  let p := { p with matchNum := p.r.matchNum }
  if ¬urlFits p.r b ∨ ¬ReadableFits b then .ok p.giveUp
  else if o.parsed = buffFull then .error .exit
  else
    let p := p.parse o presentRemOffset
    if o.parse = -1 ∨ o.parsed = badResponse then .ok p.removeReadLock.giveUp
    else .ok (deliver false o b p)

/-- A pass of the inner loop. -/
def innerPass (a : Alloc) (o : Outcome) (presentRemOffset : Int) (b : StoredBlock) (p : Pass) : Run Pass :=
  if p.r.lDel then .ok { p with r := delResponseTranLazy p.r, thisFlag := false }
  else if p.r.type = .cache ∨ p.r.type = .follow then
    match p.r.pstage with
    | .matching => .ok (matchPass o presentRemOffset b p)
    | .compatibility => compatibilityPass a o presentRemOffset b p
    | .sending => sendingPass o presentRemOffset b p
    | _ => .ok p
  else .ok p

/-- The inner loop, for at most `n` passes. -/
def innerLoop (a : Alloc) (o : Outcome) (presentRemOffset : Int) (b : StoredBlock) : Nat → Pass → Run Pass
  | 0, _ => .error .hang
  | n + 1, p => do
      let p ← innerPass a o presentRemOffset b p
      if p.thisFlag then innerLoop a o presentRemOffset b n p else return p

/-- What a call finds: the blocks of the hot object cache by their offsets, if a dirty object is in it (`nowInHOC`), the
cursors of the log, and what is reported for its blocks. -/
structure Env where
  store : Int → Option StoredBlock
  inHOC : Bool
  alloc : Alloc
  outcomes : Nat → Outcome

/-- `getBlock` or `getNextBlock`, with the blocks the dirty object has left. -/
def fetch (env : Env) (dob : List StoredBlock) (p : Pass) : Run (Option StoredBlock × List StoredBlock × Pass) :=
  match p.r.cacheType with
  | .hoc =>
      match env.store p.r.remOffset with
      | none => .ok (none, dob, p)
      | some b => .ok (some b, dob, p.call (.getBlock p.r.remOffset))
  | .dob =>
      match dob with
      | [] => if env.inHOC then .error .overrun else .ok (none, [], p)
      | b :: rest =>
          .ok (some b, rest, if env.inHOC then { p with r := { p.r with remOffset := b.pres, version := b.version } } else p)

/-- The block is asked from the disk, if that was not done before and there is a length. `mapsize` is a `size_t`, so that a negative
length is one. -/
def askDisk (p : Pass) : Pass :=
  if p.r.map ∨ p.r.totalLen = 0 then p
  else { p.call (.diskRequest p.r.remOffset p.r.totalLen p.r.version) with r := { p.r with map := true } }

/-- The outer loop from its pass `k` on, for at most `n` passes, and `n` of the inner loop in each. -/
def outerLoop (env : Env) : Nat → Nat → List StoredBlock → Pass → Run Pass
  | 0, _, _, _ => .error .hang
  | n + 1, k, dob, p =>
      if p.r.lDel then .ok p
      else do
        let got ← fetch env dob p
        match got.1 with
        | none => return askDisk got.2.2
        | some b =>
            let p ← innerLoop env.alloc (env.outcomes k) p.r.remOffset b (n + 1)
              { got.2.2 with r := { got.2.2.r with block := got.2.2.r.block + 1 }, thisFlag := true }
            if p.this2 then outerLoop env n (k + 1) got.2.1 { p with this2 := false } else return p

/-- The response and the calls that were made. -/
def processFurtherBlocks (env : Env) (n : Nat) (dob : List StoredBlock) (r : Response) : Run (Response × List Call) := do
  let p ← outerLoop env n 0 dob ⟨r, true, false, 0, []⟩
  return (p.r, p.calls)

/-! ## What the stages leave -/

section Stages

variable {a : Alloc} {o : Outcome} {off : Int} {b : StoredBlock} {p p' : Pass}

@[simp] theorem doneReading_r : (p.doneReading off).r = p.r := by
  unfold Pass.doneReading
  split <;> rfl

@[simp] theorem doneReading_thisFlag : (p.doneReading off).thisFlag = p.thisFlag := by
  unfold Pass.doneReading
  split <;> rfl

@[simp] theorem doneReading_this2 : (p.doneReading off).this2 = p.this2 := by
  unfold Pass.doneReading
  split <;> rfl

@[simp] theorem parse_type : (p.parse o off).r.type = p.r.type := by rw [Pass.parse, doneReading_r]

@[simp] theorem parse_cacheType : (p.parse o off).r.cacheType = p.r.cacheType := by rw [Pass.parse, doneReading_r]

@[simp] theorem parse_this2 : (p.parse o off).this2 = p.this2 := by rw [Pass.parse, doneReading_this2]

@[simp] theorem delResponseTranLazy_lDel (r : Response) : (delResponseTranLazy r).lDel = true := by
  unfold delResponseTranLazy
  split
  · assumption
  · rfl

theorem sendData_same (o : Outcome) (r : Response) : (sendData o r).2 = r ∨ (sendData o r).2 = delResponseTranLazy r := by
  unfold sendData
  split
  · exact .inl rfl
  · split
    · exact .inr rfl
    · exact .inl rfl

/-- It reports 2 with a client only. -/
theorem sendData_of_waits {r : Response} (htwo : (sendData o r).1 = 2) : (sendData o r).2 = r := by
  unfold sendData at htwo ⊢
  split
  · rfl
  · rename_i hclient
    rw [if_neg hclient] at htwo
    have hzero : (0 : Int) ≠ 2 := by decide
    split at htwo
    · exact absurd htwo hzero
    · exact absurd htwo hzero

@[simp] theorem delResponseTranLazy_type (r : Response) : (delResponseTranLazy r).type = r.type := by
  unfold delResponseTranLazy
  split <;> rfl

@[simp] theorem delResponseTranLazy_cacheType (r : Response) : (delResponseTranLazy r).cacheType = r.cacheType := by
  unfold delResponseTranLazy
  split <;> rfl

@[simp] theorem sendData_type (r : Response) : (sendData o r).2.type = r.type := by
  rcases sendData_same o r with h | h <;> rw [h]
  exact delResponseTranLazy_type r

@[simp] theorem sendData_cacheType (r : Response) : (sendData o r).2.cacheType = r.cacheType := by
  rcases sendData_same o r with h | h <;> rw [h]
  exact delResponseTranLazy_cacheType r

/-- The outer loop goes on with the next block of the object. -/
structure Goes (b : StoredBlock) (p p' : Pass) : Prop where
  status : b.status = notEnd
  remOffset : p'.r.remOffset = b.next
  type : p'.r.type = p.r.type
  cacheType : p'.r.cacheType = p.r.cacheType
  pstage : p'.r.pstage = .sending

/-- The inner loop ends with the pass, and the outer one goes on only with the next block. -/
structure Leaves (b : StoredBlock) (p p' : Pass) : Prop where
  thisFlag : p'.thisFlag = false
  this2 : p'.this2 = true → p.this2 = true ∨ Goes b p p'

theorem Leaves.congr {q : Pass} (hleaves : Leaves b q p') (hthis2 : q.this2 = p.this2) (htype : q.r.type = p.r.type)
    (hcacheType : q.r.cacheType = p.r.cacheType) : Leaves b p p' where
  thisFlag := hleaves.thisFlag
  this2 := by
    intro hnext
    rcases hleaves.this2 hnext with hbefore | hgoes
    · exact .inl (hthis2.symm.trans hbefore)
    · exact .inr ⟨hgoes.status, hgoes.remOffset, hgoes.type.trans htype, hgoes.cacheType.trans hcacheType, hgoes.pstage⟩

theorem deliver_leaves (removes : Bool) (o : Outcome) (b : StoredBlock) (p : Pass) : Leaves b p (deliver removes o b p) := by
  unfold deliver
  simp only
  split
  · refine ⟨rfl, fun h => .inl ?_⟩
    split at h <;> exact h
  · split
    · refine ⟨rfl, fun h => .inl ?_⟩
      split at h <;> exact h
    · split
      · exact ⟨rfl, .inl⟩
      · split
        · rename_i hstatus
          exact ⟨rfl, fun _ => .inr ⟨hstatus, rfl, sendData_type p.r, sendData_cacheType p.r, rfl⟩⟩
        · exact ⟨rfl, .inl⟩

theorem startSending_leaves (o : Outcome) (b : StoredBlock) (p : Pass) : Leaves b p (startSending o b p) := by
  unfold startSending
  simp only
  split
  · refine ⟨rfl, fun h => .inl ?_⟩
    split at h <;> exact h
  · split
    · exact ⟨rfl, .inl⟩
    · split
      · exact ⟨rfl, .inl⟩
      · exact (deliver_leaves true o b _).congr rfl rfl rfl

/-- A stage that has served its block, or stopped the process. -/
def Served (b : StoredBlock) (p : Pass) (result : Run Pass) : Prop := result = .error .exit ∨ ∃ p', result = .ok p' ∧ Leaves b p p'

theorem sendingPass_served (o : Outcome) (off : Int) (b : StoredBlock) (p : Pass) : Served b p (sendingPass o off b p) := by
  unfold sendingPass
  simp only
  split
  · exact .inr ⟨_, rfl, rfl, .inl⟩
  · split
    · exact .inl rfl
    · split
      · exact .inr ⟨_, rfl, rfl, fun h => .inl ((parse_this2 (p := { p with matchNum := p.r.matchNum })).symm.trans h)⟩
      · exact .inr ⟨_, rfl, (deliver_leaves false o b _).congr parse_this2 parse_type parse_cacheType⟩

/-- The two exits that leave `this` TRUE are not taken. -/
def Accepted (a : Alloc) (b : StoredBlock) : Prop := ReadableFits b ∧ (b.status = notEnd → checkVersion a b.version b.next)

theorem discard_leaves (o : Outcome) (off : Int) (b : StoredBlock) (p : Pass) : Leaves b p (discard o off p) := by
  refine ⟨rfl, fun h => .inl ?_⟩
  unfold discard at h
  simp only at h
  split at h <;> exact h

theorem compatibilityPass_cases (o : Outcome) (off : Int) (p : Pass) (haccepted : Accepted a b) :
    compatibilityPass a o off b p = .error .exit ∨
    compatibilityPass a o off b p = .ok (discard o off (p.parse o off)) ∨
    compatibilityPass a o off b p = .ok { p.parse o off with r := delResponseTranLazy (p.parse o off).r, thisFlag := false } ∨
    compatibilityPass a o off b p = .ok { (p.parse o off).redo o with thisFlag := false } ∨
    (¬(o.parse = -1 ∨ o.parsed = badResponse ∨ o.parsed = comeBack) ∧ o.expiry ≠ -1 ∧ p.r.presReq = true ∧ o.compatibility ≠ -1) ∧
      compatibilityPass a o off b p = .ok (startSending o b (p.parse o off)) := by
  have hnot : ¬(¬ReadableFits b ∨ b.status = notEnd ∧ ¬checkVersion a b.version b.next) := by
    rintro (hreadable | ⟨hstatus, hversion⟩)
    · exact hreadable haccepted.1
    · exact hversion (haccepted.2 hstatus)
  have hclient : (p.parse o off).r.presReq = p.r.presReq := by rw [Pass.parse, doneReading_r]
  unfold compatibilityPass
  rw [if_neg hnot]
  simp only
  split
  · exact .inl rfl
  · split
    · exact .inr (.inl rfl)
    · rename_i hparse
      split
      · exact .inr (.inl rfl)
      · rename_i hexpiry
        split
        · exact .inr (.inr (.inl rfl))
        · rename_i hpresent
          rw [hclient, Bool.not_eq_false] at hpresent
          split
          · exact .inr (.inr (.inr (.inl rfl)))
          · rename_i hcompatible
            exact .inr (.inr (.inr (.inr ⟨⟨hparse, hexpiry, hpresent, hcompatible⟩, rfl⟩)))

theorem compatibilityPass_served (o : Outcome) (off : Int) (p : Pass) (haccepted : Accepted a b) :
    Served b p (compatibilityPass a o off b p) := by
  obtain h | h | h | h | ⟨-, h⟩ := compatibilityPass_cases o off p haccepted
  · exact .inl h
  · exact .inr ⟨_, h, (discard_leaves o off b _).congr parse_this2 parse_type parse_cacheType⟩
  · exact .inr ⟨_, h, rfl, fun h => .inl (parse_this2.symm.trans h)⟩
  · exact .inr ⟨_, h, rfl, fun h => .inl (parse_this2.symm.trans h)⟩
  · exact .inr ⟨_, h, (startSending_leaves o b _).congr parse_this2 parse_type parse_cacheType⟩

/-- `readyForDownload` gives up the response: its client is gone, or `searchAndConnect` fails or deletes it. -/
def GivenUp (o : Outcome) (r : Response) : Prop := r.presReq = false ∨ o.connect = -1 ∨ o.connectDeletes = true

/-- What is left after one of the two exits: the response is deleted, or it waits for its download. -/
theorem readyForDownload_cases (o : Outcome) (r : Response) :
    (readyForDownload o r).lDel = true ∧ GivenUp o r ∨
      ((readyForDownload o r).lDel = false ∧ (readyForDownload o r).type = .down) ∧ ¬GivenUp o r := by
  unfold readyForDownload searchAndConnect GivenUp
  cases r.presReq with
  | false => simp
  | true =>
      by_cases hconnect : o.connect = -1
      · simp [hconnect]
      · cases o.connectDeletes <;> simp [hconnect]

end Stages

/-! ## The inner loop -/

section Inner

variable {a : Alloc} {o : Outcome} {off : Int} {b : StoredBlock} {p p' : Pass} {n : Nat}

/-- The block comes to the checks of the stage COMPATIBILITY. -/
def Examined (r : Response) (b : StoredBlock) : Prop := r.pstage = .compatibility ∨ r.pstage = .matching ∧ getBestMatch r b ≠ -1

/-- The response is served from the cache, in one of the three stages of the inner loop, and a block that comes to the stage
COMPATIBILITY is accepted there or the response is given up. -/
structure Handles (a : Alloc) (o : Outcome) (b : StoredBlock) (r : Response) : Prop where
  type : r.type = .cache ∨ r.type = .follow
  pstage : r.pstage = .matching ∨ r.pstage = .compatibility ∨ r.pstage = .sending
  examined : Examined r b → Accepted a b ∨ GivenUp o r

theorem innerLoop_step (hpass : innerPass a o off b p = .ok p') (hflag : p'.thisFlag = true) :
    innerLoop a o off b (n + 1) p = innerLoop a o off b n p' := by
  rw [innerLoop, hpass, Run.ok_bind, if_pos hflag]

theorem innerLoop_served (hserved : Served b p (innerPass a o off b p)) : innerLoop a o off b (n + 1) p = innerPass a o off b p := by
  rw [innerLoop]
  rcases hserved with hexit | ⟨p', hpass, hleaves⟩
  · rw [hexit]
    rfl
  · rw [hpass, Run.ok_bind, hleaves.thisFlag]
    rfl

/-- A pass that changes nothing is made again and again. -/
theorem innerLoop_hang (hpass : innerPass a o off b p = .ok p) (hflag : p.thisFlag = true) (n : Nat) :
    innerLoop a o off b n p = .error .hang := by
  induction n with
  | zero => rfl
  | succ n ih => rw [innerLoop_step hpass hflag, ih]

theorem innerPass_of_type (hlDel : p.r.lDel = false) (htype : ¬(p.r.type = .cache ∨ p.r.type = .follow)) :
    innerPass a o off b p = .ok p := by
  rw [innerPass, hlDel, if_neg Bool.false_ne_true, if_neg htype]

theorem compatibilityPass_refused (o : Outcome) (off : Int) (p : Pass) (hrefused : ¬Accepted a b) :
    ∃ p', compatibilityPass a o off b p = .ok p' ∧
    p'.r = readyForDownload o p.r ∧ p'.thisFlag = p.thisFlag ∧ p'.this2 = p.this2 ∧
      p'.calls = ((p.call (.discardHeaders p.r.hash p.r.matchNum)).doneReading off).calls := by
  have hexit : ¬ReadableFits b ∨ b.status = notEnd ∧ ¬checkVersion a b.version b.next := by
    by_contra hnone
    obtain ⟨hreadable, hversion⟩ := not_or.mp hnone
    exact hrefused ⟨not_not.mp hreadable, fun hstatus => not_not.mp (not_and.mp hversion hstatus)⟩
  refine ⟨_, if_pos hexit, ?_, ?_, ?_, rfl⟩
  · rw [Pass.redo, doneReading_r]
    rfl
  · rw [Pass.redo, doneReading_thisFlag]
    rfl
  · rw [Pass.redo, doneReading_this2]
    rfl

theorem innerPass_stage (a : Alloc) (o : Outcome) (off : Int) (b : StoredBlock) (hlDel : p.r.lDel = false)
    (htype : p.r.type = .cache ∨ p.r.type = .follow) :
    innerPass a o off b p = match p.r.pstage with
      | .matching => .ok (matchPass o off b p)
      | .compatibility => compatibilityPass a o off b p
      | .sending => sendingPass o off b p
      | _ => .ok p := by
  rw [innerPass, hlDel, if_neg Bool.false_ne_true, if_pos htype]

theorem innerLoop_compatibility (a : Alloc) (o : Outcome) (off : Int) (b : StoredBlock) (hlDel : p.r.lDel = false)
    (htype : p.r.type = .cache ∨ p.r.type = .follow)
    (hstage : p.r.pstage = .compatibility) (hflag : p.thisFlag = true) (hthis2 : p.this2 = false) :
    ((Accepted a b ∨ GivenUp o p.r) → ∃ result, Served b p result ∧ ∀ n, innerLoop a o off b (n + 2) p = result) ∧
      (¬(Accepted a b ∨ GivenUp o p.r) → ∀ n, innerLoop a o off b n p = .error .hang) := by
  have hpass : innerPass a o off b p = compatibilityPass a o off b p := by
    rw [innerPass, hlDel, if_neg Bool.false_ne_true, if_pos htype, hstage]
  by_cases haccepted : Accepted a b
  · have hserved : Served b p (innerPass a o off b p) := by
      rw [hpass]
      exact compatibilityPass_served o off p haccepted
    exact ⟨fun _ => ⟨_, hserved, fun n => innerLoop_served hserved⟩, fun hnot => absurd (.inl haccepted) hnot⟩
  · obtain ⟨p', hp', hr', hflag', hthis2', _⟩ := compatibilityPass_refused o off p haccepted
    have hredo : innerPass a o off b p = .ok p' := hpass.trans hp'
    replace hflag' : p'.thisFlag = true := hflag'.trans hflag
    replace hthis2' : p'.this2 = false := hthis2'.trans hthis2
    rcases readyForDownload_cases o p.r with ⟨hdeleted, hgiven⟩ | ⟨⟨hkept, hdown⟩, hgiven⟩
    · refine ⟨fun _ => ⟨.ok { p' with r := delResponseTranLazy p'.r, thisFlag := false }, .inr ⟨_, rfl, rfl, fun h => ?_⟩, fun n => ?_⟩,
        fun hnot => absurd (.inr hgiven) hnot⟩
      · exact absurd h (ne_true_of_eq_false hthis2')
      · rw [innerLoop_step hredo hflag', innerLoop, innerPass, hr', hdeleted, if_pos rfl]
        rfl
    · refine ⟨fun h => absurd (h.resolve_left haccepted) hgiven, fun _ n => ?_⟩
      have hstuck : innerPass a o off b p' = .ok p' := by
        apply innerPass_of_type
        · rw [hr', hkept]
        · rw [hr', hdown]
          decide
      cases n with
      | zero => rfl
      | succ n => rw [innerLoop_step hredo hflag', innerLoop_hang hstuck hflag']

theorem innerLoop_compatibility_cases (hlDel : p.r.lDel = false) (htype : p.r.type = .cache ∨ p.r.type = .follow)
    (hstage : p.r.pstage = .compatibility) (hflag : p.thisFlag = true) (hloop : innerLoop a o off b n p = .ok p') :
    Accepted a b ∧ compatibilityPass a o off b p = .ok p' ∨
      p'.r = delResponseTranLazy (readyForDownload o p.r) ∧ p'.this2 = p.this2 ∧
        p'.calls = ((p.call (.discardHeaders p.r.hash p.r.matchNum)).doneReading off).calls := by
  have hpass : innerPass a o off b p = compatibilityPass a o off b p := by
    rw [innerPass_stage a o off b hlDel htype, hstage]
  cases n with
  | zero => cases hloop
  | succ n =>
      by_cases haccepted : Accepted a b
      · have hserved : Served b p (innerPass a o off b p) := by
          rw [hpass]
          exact compatibilityPass_served o off p haccepted
        rw [innerLoop_served hserved, hpass] at hloop
        exact .inl ⟨haccepted, hloop⟩
      · obtain ⟨q, hrefused, hr, hqflag, hthis2, hcalls⟩ := compatibilityPass_refused o off p haccepted
        rw [innerLoop_step (hpass.trans hrefused) (hqflag.trans hflag)] at hloop
        rcases readyForDownload_cases o p.r with ⟨hdeleted, _⟩ | ⟨⟨hkept, hdown⟩, _⟩
        · cases n with
          | zero => cases hloop
          | succ n =>
              rw [innerLoop, innerPass, hr, hdeleted, if_pos rfl] at hloop
              rw [← Except.ok.inj hloop]
              exact .inr ⟨rfl, hthis2, hcalls⟩
        · have hstuck : innerPass a o off b q = .ok q := by
            apply innerPass_of_type
            · rw [hr, hkept]
            · rw [hr, hdown]
              decide
          rw [innerLoop_hang hstuck (hqflag.trans hflag)] at hloop
          cases hloop

theorem matchPass_leaves (hnone : getBestMatch p.r b = -1) : Leaves b p (matchPass o off b p) := by
  unfold matchPass
  simp only [hnone, if_true]
  split
  · exact ⟨doneReading_thisFlag, fun h => .inl ((doneReading_this2 (p := { p with matchNum := -1 }.giveUp)).symm.trans h)⟩
  · exact ⟨rfl, fun h => .inl ((doneReading_this2 (p := { p with matchNum := -1 })).symm.trans h)⟩

/-- The inner loop ends with a block that is handled, and with no other. -/
theorem innerLoop_ends (a : Alloc) (o : Outcome) (off : Int) (b : StoredBlock) (hlDel : p.r.lDel = false)
    (hflag : p.thisFlag = true) (hthis2 : p.this2 = false) :
    (Handles a o b p.r → ∃ result, Served b p result ∧ ∀ n, innerLoop a o off b (n + 3) p = result) ∧
      (¬Handles a o b p.r → ∀ n, innerLoop a o off b n p = .error .hang) := by
  by_cases htype : p.r.type = .cache ∨ p.r.type = .follow
  swap
  · exact ⟨fun h => absurd h.type htype, fun _ => innerLoop_hang (innerPass_of_type hlDel htype) hflag⟩
  have hpass := innerPass_stage a o off b hlDel htype
  cases hstage : p.r.pstage with
  | start =>
      rw [hstage] at hpass
      refine ⟨fun h => ?_, fun _ => innerLoop_hang hpass hflag⟩
      rcases h.pstage with h | h | h <;> exact absurd (hstage.symm.trans h) (by decide)
  | first =>
      rw [hstage] at hpass
      refine ⟨fun h => ?_, fun _ => innerLoop_hang hpass hflag⟩
      rcases h.pstage with h | h | h <;> exact absurd (hstage.symm.trans h) (by decide)
  | sending =>
      rw [hstage] at hpass
      have hserved : Served b p (innerPass a o off b p) := by
        rw [hpass]
        exact sendingPass_served o off b p
      refine ⟨fun _ => ⟨_, hserved, fun n => innerLoop_served hserved⟩, fun hnot => absurd ⟨htype, .inr (.inr hstage), ?_⟩ hnot⟩
      rintro (h | ⟨h, _⟩) <;> exact absurd (hstage.symm.trans h) (by decide)
  | compatibility =>
      obtain ⟨hends, hhangs⟩ := innerLoop_compatibility a o off b hlDel htype hstage hflag hthis2
      constructor
      · intro h
        obtain ⟨result, hserved, hloop⟩ := hends (h.examined (.inl hstage))
        exact ⟨result, hserved, fun n => hloop (n + 1)⟩
      · intro hnot
        exact hhangs fun h => hnot ⟨htype, .inr (.inl hstage), fun _ => h⟩
  | matching =>
      rw [hstage] at hpass
      by_cases hnone : getBestMatch p.r b = -1
      · have hserved : Served b p (innerPass a o off b p) := .inr ⟨_, hpass, matchPass_leaves hnone⟩
        refine ⟨fun _ => ⟨_, hserved, fun n => innerLoop_served hserved⟩, fun hnot => absurd ⟨htype, .inl hstage, ?_⟩ hnot⟩
        rintro (h | ⟨_, h⟩)
        · exact absurd (hstage.symm.trans h) (by decide)
        · exact absurd hnone h
      · have hmatch : matchPass o off b p = { p with matchNum := getBestMatch p.r b, r := { p.r with pstage := .compatibility } } :=
          if_neg hnone
        rw [hmatch] at hpass
        obtain ⟨hends, hhangs⟩ := innerLoop_compatibility a o off b
          (p := { p with matchNum := getBestMatch p.r b, r := { p.r with pstage := .compatibility } }) hlDel htype rfl hflag hthis2
        constructor
        · intro h
          obtain ⟨result, hserved, hloop⟩ := hends (h.examined (.inr ⟨hstage, hnone⟩))
          refine ⟨result, hserved.imp_right fun ⟨p', hp', hleaves⟩ => ⟨p', hp', hleaves.congr rfl rfl rfl⟩, fun n => ?_⟩
          rw [innerLoop_step hpass hflag, hloop n]
        · intro hnot n
          cases n with
          | zero => rfl
          | succ n =>
              rw [innerLoop_step hpass hflag]
              exact hhangs (fun h => hnot ⟨htype, .inl hstage, fun _ => h⟩) n

end Inner

/-! ## The outer loop -/

/-- The blocks of the hot object cache that follow on an offset come to an end. -/
inductive ChainEnds (store : Int → Option StoredBlock) : Int → Prop
  | intro {off : Int} : (∀ b, store off = some b → b.status = notEnd → ChainEnds store b.next) → ChainEnds store off

/-- The block a call looks at first. -/
def firstBlock (env : Env) (dob : List StoredBlock) (r : Response) : Option StoredBlock :=
  match r.cacheType with
  | .hoc => env.store r.remOffset
  | .dob => dob.head?

section Outer

variable {env : Env} {k : Nat} {dob dob' : List StoredBlock} {b : StoredBlock} {p q p' : Pass}

/-- The state in which the inner loop begins. -/
def entered (q : Pass) : Pass := { q with r := { q.r with block := q.r.block + 1 }, thisFlag := true }

/-- A block was found: the first one, where it is looked for. -/
structure Fetched (env : Env) (dob : List StoredBlock) (p : Pass) (b : StoredBlock) (dob' : List StoredBlock) (q : Pass) : Prop where
  r : q.r = { p.r with remOffset := q.r.remOffset, version := q.r.version }
  this2 : q.this2 = p.this2
  first : firstBlock env dob p.r = some b
  rest : p.r.cacheType = .dob → dob = b :: dob'

theorem fetch_cases (env : Env) (dob : List StoredBlock) (p : Pass) :
    firstBlock env dob p.r = none ∧ (fetch env dob p = .error .overrun ∨ fetch env dob p = .ok (none, dob, p)) ∨
      ∃ b dob' q, fetch env dob p = .ok (some b, dob', q) ∧ Fetched env dob p b dob' q := by
  unfold fetch firstBlock
  cases hcache : p.r.cacheType with
  | hoc =>
      cases hstore : env.store p.r.remOffset with
      | none => exact .inl ⟨rfl, .inr rfl⟩
      | some b =>
          refine .inr ⟨b, dob, _, rfl, rfl, rfl, ?_, fun h => ?_⟩
          · rw [firstBlock, hcache]
            exact hstore
          · exact absurd (hcache.symm.trans h) (by decide)
  | dob =>
      cases dob with
      | nil =>
          refine .inl ⟨rfl, ?_⟩
          cases env.inHOC
          · exact .inr rfl
          · exact .inl rfl
      | cons b rest =>
          refine .inr ⟨b, rest, _, rfl, ?_, ?_, ?_, fun _ => rfl⟩
          · cases env.inHOC <;> rfl
          · cases env.inHOC <;> rfl
          · rw [firstBlock, hcache]
            rfl

theorem fetch_calls (hfetch : fetch env dob p = .ok (some b, dob', q)) :
    q.calls = if p.r.cacheType = .hoc then p.calls ++ [.getBlock p.r.remOffset] else p.calls := by
  unfold fetch at hfetch
  cases hcache : p.r.cacheType with
  | hoc =>
      rw [hcache] at hfetch
      cases hstore : env.store p.r.remOffset with
      | none =>
          rw [hstore] at hfetch
          cases hfetch
      | some c =>
          rw [hstore] at hfetch
          cases hfetch
          rfl
  | dob =>
      rw [hcache] at hfetch
      cases dob with
      | nil => cases henv : env.inHOC <;> rw [henv] at hfetch <;> cases hfetch
      | cons c rest =>
          cases hfetch
          cases env.inHOC <;> rfl

/-- Enough passes are enough for good. -/
def Ends (env : Env) (k : Nat) (dob : List StoredBlock) (p : Pass) : Prop := ∃ N, ∀ n ≥ N, outerLoop env n k dob p ≠ .error .hang

theorem ends_of_lDel (hlDel : p.r.lDel = true) : Ends env k dob p := by
  refine ⟨1, fun n hn => ?_⟩
  obtain ⟨m, rfl⟩ := Nat.exists_eq_add_of_le' hn
  rw [outerLoop, if_pos hlDel]
  intro h
  cases h

theorem ends_of_none (hlDel : p.r.lDel = false)
    (hfetch : fetch env dob p = .error .overrun ∨ fetch env dob p = .ok (none, dob, p)) : Ends env k dob p := by
  refine ⟨1, fun n hn => ?_⟩
  obtain ⟨m, rfl⟩ := Nat.exists_eq_add_of_le' hn
  rw [outerLoop, hlDel, if_neg Bool.false_ne_true]
  intro h
  rcases hfetch with hfetch | hfetch
  · rw [hfetch] at h
    cases h
  · rw [hfetch] at h
    cases h

theorem outerLoop_some (hlDel : p.r.lDel = false) (hfetch : fetch env dob p = .ok (some b, dob', q)) (n : Nat) :
    outerLoop env (n + 1) k dob p = (innerLoop env.alloc (env.outcomes k) p.r.remOffset b (n + 1) (entered q) >>= fun p' =>
      if p'.this2 then outerLoop env n (k + 1) dob' { p' with this2 := false } else return p') := by
  rw [outerLoop, hlDel, if_neg Bool.false_ne_true, hfetch]
  rfl

theorem ends_of_next (hlDel : p.r.lDel = false) (hfetch : fetch env dob p = .ok (some b, dob', q)) (hthis2 : q.this2 = false)
    {result : Run Pass} (hserved : Served b (entered q) result)
    (hinner : ∀ n, innerLoop env.alloc (env.outcomes k) p.r.remOffset b (n + 3) (entered q) = result)
    (hnext : ∀ p', Goes b (entered q) p' → Ends env (k + 1) dob' { p' with this2 := false }) : Ends env k dob p := by
  rcases hserved with hexit | ⟨p', hp', hleaves⟩
  · refine ⟨3, fun n hn => ?_⟩
    obtain ⟨m, rfl⟩ := Nat.exists_eq_add_of_le' hn
    rw [outerLoop_some hlDel hfetch, hinner m, hexit]
    intro h
    cases h
  · cases hgo : p'.this2 with
    | false =>
        refine ⟨3, fun n hn => ?_⟩
        obtain ⟨m, rfl⟩ := Nat.exists_eq_add_of_le' hn
        rw [outerLoop_some hlDel hfetch, hinner m, hp', Run.ok_bind, hgo]
        intro h
        cases h
    | true =>
        have hgoes : Goes b (entered q) p' := (hleaves.this2 hgo).resolve_left fun h => Bool.false_ne_true (hthis2.symm.trans h)
        obtain ⟨N, hN⟩ := hnext p' hgoes
        refine ⟨N + 3, fun n hn => ?_⟩
        obtain ⟨m, rfl⟩ := Nat.exists_eq_add_of_le' hn
        rw [show m + (N + 3) = m + N + 2 + 1 by omega, outerLoop_some hlDel hfetch, hinner (m + N), hp', Run.ok_bind, if_pos hgo]
        exact hN _ (by omega)

theorem handles_sending {a : Alloc} {o : Outcome} {r : Response} (htype : r.type = .cache ∨ r.type = .follow)
    (hstage : r.pstage = .sending) :
    Handles a o b r where
  type := htype
  pstage := .inr (.inr hstage)
  examined := by
    rintro (h | ⟨h, _⟩) <;> exact absurd (hstage.symm.trans h) (by decide)

theorem ends_sending (htype : p.r.type = .cache ∨ p.r.type = .follow) (hstage : p.r.pstage = .sending) (hthis2 : p.this2 = false)
    (hchain : p.r.cacheType = .hoc → ChainEnds env.store p.r.remOffset) : Ends env k dob p := by
  -- one block, if what comes after it ends
  have hblock (k : Nat) (dob : List StoredBlock) (p : Pass) (htype : p.r.type = .cache ∨ p.r.type = .follow)
      (hstage : p.r.pstage = .sending) (hthis2 : p.this2 = false)
      (hnext : ∀ b dob' q p', Fetched env dob p b dob' q → Goes b (entered q) p' → Ends env (k + 1) dob' { p' with this2 := false }) :
      Ends env k dob p := by
    cases hlDel : p.r.lDel with
    | true => exact ends_of_lDel hlDel
    | false =>
        rcases fetch_cases env dob p with ⟨_, hnone⟩ | ⟨b, dob', q, hfetch, hfetched⟩
        · exact ends_of_none hlDel hnone
        · have hq : (entered q).r.lDel = false ∧ ((entered q).r.type = .cache ∨ (entered q).r.type = .follow) ∧
              (entered q).r.pstage = .sending := by
            rw [entered, hfetched.r]
            exact ⟨hlDel, htype, hstage⟩
          have hq2 : q.this2 = false := hfetched.this2.trans hthis2
          obtain ⟨result, hserved, hinner⟩ := (innerLoop_ends env.alloc (env.outcomes k) p.r.remOffset b
            (p := entered q) hq.1 rfl hq2).1 (handles_sending hq.2.1 hq.2.2)
          exact ends_of_next hlDel hfetch hq2 hserved hinner fun p' hgoes => hnext b dob' q p' hfetched hgoes
  have hgoesType {b : StoredBlock} {dob dob' : List StoredBlock} {p q p' : Pass} (hfetched : Fetched env dob p b dob' q)
      (hgoes : Goes b (entered q) p') : p'.r.type = p.r.type ∧ p'.r.cacheType = p.r.cacheType := by
    rw [hgoes.type, hgoes.cacheType, entered, hfetched.r]
    exact ⟨rfl, rfl⟩
  cases hcache : p.r.cacheType with
  | hoc =>
      have hends := hchain hcache
      clear hchain
      generalize hoff : p.r.remOffset = off at hends
      induction hends generalizing p k dob with
      | intro _ ih =>
          refine hblock k dob p htype hstage hthis2 fun b dob' q p' hfetched hgoes => ?_
          have hsame := hgoesType hfetched hgoes
          have hfirst := hfetched.first
          rw [firstBlock, hcache, hoff] at hfirst
          exact ih b hfirst hgoes.status (hsame.1 ▸ htype) hgoes.pstage rfl (hsame.2.trans hcache) hgoes.remOffset
  | dob =>
      clear hchain
      induction dob generalizing p k with
      | nil =>
          refine hblock k [] p htype hstage hthis2 fun b dob' q p' hfetched _ => ?_
          cases hfetched.rest hcache
      | cons c rest ih =>
          refine hblock k (c :: rest) p htype hstage hthis2 fun b dob' q p' hfetched hgoes => ?_
          have hsame := hgoesType hfetched hgoes
          obtain ⟨rfl, rfl⟩ := List.cons.inj (hfetched.rest hcache)
          exact ih (hsame.1 ▸ htype) hgoes.pstage rfl (hsame.2.trans hcache)

/-- Given that the chain of blocks ends, a call ends exactly if the response was deleted before, or its first block is
handled by the inner loop. -/
theorem serving_ends_iff (env : Env) (dob : List StoredBlock) (r : Response)
    (hchain : r.cacheType = .hoc → ChainEnds env.store r.remOffset) :
    (∃ n, processFurtherBlocks env n dob r ≠ .error .hang) ↔
      r.lDel = true ∨ ∀ b ∈ firstBlock env dob r, Handles env.alloc (env.outcomes 0) b r := by
  have hcall (n : Nat) : processFurtherBlocks env n dob r ≠ .error .hang ↔
      outerLoop env n 0 dob ⟨r, true, false, 0, []⟩ ≠ .error .hang := by
    unfold processFurtherBlocks
    cases outerLoop env n 0 dob ⟨r, true, false, 0, []⟩ with
    | error f => rw [Run.error_bind, Ne, Ne, Except.error.injEq, Except.error.injEq]
    | ok p => exact ⟨fun _ h => (nomatch h), fun _ h => (nomatch h)⟩
  simp only [hcall]
  cases hlDel : r.lDel with
  | true =>
      have hends : Ends env 0 dob ⟨r, true, false, 0, []⟩ := ends_of_lDel hlDel
      obtain ⟨N, hN⟩ := hends
      exact ⟨fun _ => .inl rfl, fun _ => ⟨N, hN N le_rfl⟩⟩
  | false =>
      rcases fetch_cases env dob ⟨r, true, false, 0, []⟩ with ⟨hfirst, hnone⟩ | ⟨b, dob', q, hfetch, hfetched⟩
      · obtain ⟨N, hN⟩ := ends_of_none (k := 0) (p := ⟨r, true, false, 0, []⟩) hlDel hnone
        change firstBlock env dob r = none at hfirst
        rw [hfirst]
        exact ⟨fun _ => .inr fun _ hb => (nomatch hb), fun _ => ⟨N, hN N le_rfl⟩⟩
      · have hfirst : firstBlock env dob r = some b := hfetched.first
        have hq : (entered q).r.lDel = false := by
          rw [entered, hfetched.r]
          exact hlDel
        have hhandles : Handles env.alloc (env.outcomes 0) b (entered q).r ↔ Handles env.alloc (env.outcomes 0) b r := by
          rw [entered, hfetched.r]
          exact ⟨fun h => ⟨h.type, h.pstage, h.examined⟩, fun h => ⟨h.type, h.pstage, h.examined⟩⟩
        obtain ⟨hends, hhangs⟩ := innerLoop_ends env.alloc (env.outcomes 0) r.remOffset b (p := entered q)
          hq rfl hfetched.this2
        rw [hfirst]
        constructor
        · rintro ⟨n, hn⟩
          refine .inr fun b' hb' => ?_
          obtain rfl := Option.mem_some_iff.mp hb'
          by_contra hnot
          apply hn
          cases n with
          | zero => rfl
          | succ n =>
              rw [outerLoop_some hlDel hfetch]
              show innerLoop _ _ r.remOffset _ _ _ >>= _ = _
              rw [hhangs (mt hhandles.mp hnot)]
              rfl
        · rintro (h | h)
          · cases h
          · obtain ⟨result, hserved, hinner⟩ := hends (hhandles.mpr (h b rfl))
            have hrest : Ends env 0 dob ⟨r, true, false, 0, []⟩ := by
              refine ends_of_next hlDel hfetch hfetched.this2 hserved hinner fun p' hgoes => ?_
              have hgoesType : p'.r.type = r.type ∧ p'.r.cacheType = r.cacheType := by
                rw [hgoes.type, hgoes.cacheType, entered, hfetched.r]
                exact ⟨rfl, rfl⟩
              refine ends_sending (hgoesType.1 ▸ (h b rfl).type) hgoes.pstage rfl fun hcache => ?_
              have hhoc : r.cacheType = .hoc := hgoesType.2.symm.trans hcache
              rw [firstBlock, hhoc] at hfirst
              cases hchain hhoc with
              | intro hafter => exact hgoes.remOffset ▸ hafter b hfirst hgoes.status
            obtain ⟨N, hN⟩ := hrest
            exact ⟨N, hN N le_rfl⟩

end Outer

/-- The URL of the samples. -/
def sampleURL : List UInt8 := [104, 116, 116, 112, 58, 47, 47, 97, 47]

/-- A request that was found in the index and waits for its first block. -/
def sampleResponse : Response where
  URL := sampleURL
  hash := 7
  waproxGet := false
  cacheType := .hoc
  type := .cache
  pstage := .matching
  status := badResponse
  lDel := false
  map := false
  presReq := true
  sendHead := false
  block := 0
  remOffset := 0
  version := 0
  totalLen := 2
  matchNum := 0
  writeHandler := none

/-- The first of two blocks of an object of version 0, and the second. -/
def sampleBlock (last : Bool) : StoredBlock :=
  if last then ⟨sampleURL, 0, endMark, 100, 0, 2, 4, 1⟩ else ⟨sampleURL, 0, notEnd, 1908, 0, 0, 2, 2⟩

/-- Everything goes well. -/
def sampleOutcome : Outcome := ⟨0, 0, 0, 0, 0, true, 0, 0, false⟩

/-- The two blocks are in the hot object cache, and the log is in version `version`. -/
def sampleEnv (version : Nat) : Env where
  store := fun off => if off = 0 then some (sampleBlock false) else if off = 2 then some (sampleBlock true) else none
  inHOC := false
  alloc := { initHCFS with presentRemVersion := version }
  outcomes := fun _ => sampleOutcome

theorem sampleEnv_chainEnds (version : Nat) : ChainEnds (sampleEnv version).store 0 := by
  refine .intro fun b hb _ => ?_
  obtain rfl := Option.some.inj hb
  refine .intro fun b hb hstatus => ?_
  obtain rfl := Option.some.inj hb
  exact absurd hstatus (by decide)

theorem serving_ends_sample : ∃ n, processFurtherBlocks (sampleEnv 0) n [] sampleResponse ≠ .error .hang := by
  apply (serving_ends_iff (sampleEnv 0) [] sampleResponse fun _ => sampleEnv_chainEnds 0).mpr
  refine .inr fun b hb => ⟨.inl rfl, .inl rfl, fun _ => .inl ?_⟩
  obtain rfl := Option.some.inj hb
  exact ⟨by decide, fun _ => by decide⟩

/-- The log has begun a new version since the object was found in the index: its first block is refused, and the call does
not end. -/
theorem serving_hangs : ChainEnds (sampleEnv 1).store sampleResponse.remOffset ∧
    ∀ n, processFurtherBlocks (sampleEnv 1) n [] sampleResponse = .error .hang := by
  refine ⟨sampleEnv_chainEnds 1, fun n => ?_⟩
  have hinner := (innerLoop_ends (sampleEnv 1).alloc sampleOutcome 0 (sampleBlock false)
    (p := entered (Pass.mk sampleResponse true false 0 [.getBlock 0])) rfl rfl rfl).2
  have hrefused : ¬Handles (sampleEnv 1).alloc sampleOutcome (sampleBlock false)
      (entered (Pass.mk sampleResponse true false 0 [.getBlock 0])).r := by
    intro h
    rcases h.examined (.inr ⟨rfl, by decide⟩) with haccepted | hgiven
    · exact absurd (haccepted.2 rfl) (by decide)
    · exact absurd hgiven (by unfold GivenUp; decide)
  cases n with
  | zero => rfl
  | succ n =>
      rw [processFurtherBlocks, outerLoop_some (q := Pass.mk sampleResponse true false 0 [.getBlock 0]) rfl rfl]
      show (innerLoop _ sampleOutcome 0 _ _ _ >>= _) >>= _ = _
      rw [hinner hrefused]
      rfl

end BeagleCache.Serve

import Mathlib.Tactic
import BeagleCache.FurtherBlocks

/-! `processFurtherBlocks` with the data it sends: what `parseResponse` has put into `toSend`, what every `write` to the client takes of
it, and the bytes the client has got, each with the block it is from. The stages of the response are those of the model without data,
to which `sendHeader` and `sendData` only report. -/

namespace BeagleCache.Hits

open Hcfs Serve

/-- What a `write` to the client does: it takes at most `n` bytes, there is no room, or it fails. -/
inductive Write where
  | takes (n : Nat)
  | eagain
  | fails
  deriving DecidableEq

/-- What is done for the response, in the cache or to leave it. `table` is an access to the tables of the descriptors. -/
inductive Act where
  | sendHeader
  | sendNegReply
  | searchAndConnect
  | table (fd : Int)
  | checkCachability
  | addToBatch
  | checkForWrite
  deriving DecidableEq

/-- A byte the client has got. -/
inductive Sent where
  | header (byte : UInt8)
  | body (b : StoredBlock) (byte : UInt8)
  deriving DecidableEq

/-- A `bufBlock` of `toSend`: the bytes from `rstart` to `end`, and the block they are from. -/
abbrev Piece := StoredBlock × List UInt8

/-- What the functions called for a block report, without those that write to the client, and the pieces that `parseResponse` adds
to `toSend`. -/
structure Report where
  parse : Int
  parsed : Int
  expiry : Int
  compatibility : Int
  connect : Int
  connectDeletes : Bool
  pieces : List (List UInt8)

def Report.outcome (rep : Report) (header sent : Int) (pending : Bool) : Outcome :=
  ⟨rep.parse, rep.parsed, rep.expiry, rep.compatibility, header, pending, sent, rep.connect, rep.connectDeletes⟩

/-- The header that `formSendHeader` forms for a call of `write`, which has the date, and what that call does. -/
structure Client where
  header : Nat → List UInt8
  write : Nat → Write

/-- A response on its way to the client. `fd` is the descriptor of its server, -1 without one. -/
structure Transfer where
  pass : Pass
  dob : List StoredBlock
  toSend : List Piece
  headSent : Nat
  fd : Int
  cacheCheck : Bool
  client : List Sent
  writes : Nat
  acts : List Act
  fault : Option Fault

namespace Transfer

def act (t : Transfer) (a : Act) : Transfer := { t with acts := t.acts ++ [a] }

def stop (t : Transfer) (f : Fault) : Transfer := { t with fault := some f }

/-- A step of the response, without data. -/
def on (t : Transfer) (f : Pass → Pass) : Transfer := { t with pass := f t.pass }

def pending (t : Transfer) : Bool := t.toSend.any fun piece => piece.2 ≠ []

/-- Some of the header or of a piece was sent, by a call of `write`. -/
def sent (t : Transfer) (bytes : List Sent) : Transfer := { t with client := t.client ++ bytes, writes := t.writes + 1 }

end Transfer

/-- Without a client the descriptor of it is read through a null pointer. -/
def sendNegReply (t : Transfer) : Transfer :=
  let t := t.act .sendNegReply
  if t.pass.r.presReq then t.sent [] else t.stop .overrun

def sendHeader (c : Client) (t : Transfer) : Int × Transfer :=
  let t := t.act .sendHeader
  if t.pass.r.presReq = false then (0, t)
  else
    let rest := (c.header t.writes).drop t.headSent
    match c.write t.writes with
    | .eagain => (2, t.sent [])
    | .fails => (-1, t.sent [])
    | .takes n =>
        if n < rest.length then (2, { t.sent ((rest.take n).map .header) with headSent := t.headSent + n })
        else (0, t.sent (rest.map .header))

/-- What the loop of `sendData` gives: its result, the pieces it leaves, the bytes it sent and its calls of `write`. -/
structure Sending where
  status : Int
  left : List Piece
  bytes : List Sent
  writes : Nat

/-- The loop of `sendData`, from the call `k` of `write` on. -/
def sendPieces (write : Nat → Write) : List Piece → Nat → Sending
  | [], k => ⟨0, [], [], k⟩
  | (_, []) :: rest, k => sendPieces write rest k
  | (b, byte :: bytes) :: rest, k =>
      match write k with
      | .eagain => ⟨2, (b, byte :: bytes) :: rest, [], k + 1⟩
      | .fails => ⟨-1, (b, byte :: bytes) :: rest, [], k + 1⟩
      | .takes n =>
          if n < (byte :: bytes).length then
            ⟨2, (b, (byte :: bytes).drop n) :: rest, ((byte :: bytes).take n).map (.body b), k + 1⟩
          else
            let got := sendPieces write rest (k + 1)
            ⟨got.status, got.left, (byte :: bytes).map (.body b) ++ got.bytes, got.writes⟩

/-- Without a client the response is deleted, and its connection is looked for. -/
def sendData (c : Client) (t : Transfer) : Int × Transfer :=
  if t.pass.r.presReq then
    let got := sendPieces c.write t.toSend t.writes
    (got.status, { t with toSend := got.left, client := t.client ++ got.bytes, writes := got.writes })
  else if t.pending then
    ((0 : Int), { (t.act (.table t.fd)).on fun p => { p with r := delResponseTranLazy p.r } with
      toSend := t.toSend.dropWhile fun piece => piece.2 = [] })
  else (0, { t with toSend := [] })

/-- `readyForDownload` throws away what was to be sent. -/
def readyForDownload (rep : Report) (t : Transfer) : Transfer :=
  { (t.act .searchAndConnect).on (·.redo (rep.outcome 0 0 false)) with toSend := [], headSent := 0, cacheCheck := true }

def matchPass (rep : Report) (presentRemOffset : Int) (b : StoredBlock) (t : Transfer) : Transfer :=
  let t := t.on fun p => { p with matchNum := getBestMatch p.r b }
  if t.pass.matchNum = -1 then
    if t.pass.r.waproxGet then (sendNegReply t).on fun p => p.giveUp.doneReading presentRemOffset
    else (readyForDownload rep (t.on fun p => p.doneReading presentRemOffset)).on fun p => { p with thisFlag := false }
  else t.on fun p => { p with r := { p.r with pstage := .compatibility } }

def parseResponse (rep : Report) (presentRemOffset : Int) (b : StoredBlock) (t : Transfer) : Transfer :=
  { t.on (·.parse (rep.outcome 0 0 false) presentRemOffset) with toSend := t.toSend ++ rep.pieces.map fun bytes => (b, bytes) }

/-- From `sendData` on. -/
def deliver (removes : Bool) (c : Client) (rep : Report) (b : StoredBlock) (t : Transfer) : Transfer :=
  let got := sendData c t
  { got.2 with pass := Serve.deliver removes (rep.outcome 0 got.1 t.pending) b t.pass }

/-- From `addReadLock` on. -/
def startSending (c : Client) (rep : Report) (b : StoredBlock) (t : Transfer) : Transfer :=
  let got := sendHeader c (t.on fun p => p.call (.addReadLock p.r.hash p.matchNum))
  if got.1 = 2 then
    got.2.on fun p => ((if b.status = endMark then p.complete.removeReadLock else p).advance b).sending (some .resumeDownload)
  else
    let t := got.2.on fun p => { p with r := { p.r with sendHead := true } }
    if got.1 = -1 then t.on fun p => p.removeReadLock.giveUp
    else if t.pass.r.presReq = false then t.on fun p => { p.removeReadLock with r := delResponseTranLazy p.r, thisFlag := false }
    else deliver true c rep b t

/-- The exits that throw the block out of the index. -/
def discard (rep : Report) (presentRemOffset : Int) (t : Transfer) : Transfer :=
  let t := t.on fun p => p.call (.discardHeaders p.r.hash p.r.matchNum)
  (readyForDownload rep (t.on fun p => if p.r.cacheType = .hoc then p.call (.expire presentRemOffset) else p)).on fun p =>
    { p with thisFlag := false }

def compatibilityPass (a : Alloc) (c : Client) (rep : Report) (presentRemOffset : Int) (b : StoredBlock) (t : Transfer) : Transfer :=
  if ¬ReadableFits b ∨ b.status = notEnd ∧ ¬checkVersion a b.version b.next then
    readyForDownload rep (t.on fun p => (p.call (.discardHeaders p.r.hash p.r.matchNum)).doneReading presentRemOffset)
  else
    let t := parseResponse rep presentRemOffset b t
    if rep.parsed = buffFull then t.stop .exit
    else if rep.parse = -1 ∨ rep.parsed = badResponse ∨ rep.parsed = comeBack then discard rep presentRemOffset t
    else if rep.expiry = -1 then discard rep presentRemOffset t
    else if t.pass.r.presReq = false then t.on fun p => { p with r := delResponseTranLazy p.r, thisFlag := false }
    else if rep.compatibility = -1 then (readyForDownload rep t).on fun p => { p with thisFlag := false }
    else startSending c rep b t

def sendingPass (c : Client) (rep : Report) (presentRemOffset : Int) (b : StoredBlock) (t : Transfer) : Transfer :=
  let t := t.on fun p => { p with matchNum := p.r.matchNum }
  if ¬urlFits t.pass.r b ∨ ¬ReadableFits b then t.on (·.giveUp)
  else if rep.parsed = buffFull then t.stop .exit
  else
    let t := parseResponse rep presentRemOffset b t
    if rep.parse = -1 ∨ rep.parsed = badResponse then t.on fun p => p.removeReadLock.giveUp
    else deliver false c rep b t

/-- A pass of the inner loop. -/
def innerPass (a : Alloc) (c : Client) (rep : Report) (presentRemOffset : Int) (b : StoredBlock) (t : Transfer) : Transfer :=
  if t.pass.r.lDel then t.on fun p => { p with r := delResponseTranLazy p.r, thisFlag := false }
  else if t.pass.r.type = .cache ∨ t.pass.r.type = .follow then
    match t.pass.r.pstage with
    | .matching => matchPass rep presentRemOffset b t
    | .compatibility => compatibilityPass a c rep presentRemOffset b t
    | .sending => sendingPass c rep presentRemOffset b t
    | _ => t
  else t

/-- The inner loop, for at most `n` passes. -/
def innerLoop (a : Alloc) (c : Client) (rep : Report) (presentRemOffset : Int) (b : StoredBlock) : Nat → Transfer → Transfer
  | 0, t => t.stop .hang
  | n + 1, t =>
      let t := innerPass a c rep presentRemOffset b t
      if t.fault = none ∧ t.pass.thisFlag then innerLoop a c rep presentRemOffset b n t else t

/-- What a call finds. `report` is about the block that is the response's next one, by its number. -/
structure View where
  store : Int → Option StoredBlock
  inHOC : Bool
  alloc : Alloc
  report : Nat → Report

/-- `getBlock` or `getNextBlock` -/
def fetch (v : View) (t : Transfer) : Option StoredBlock × Transfer :=
  match t.pass.r.cacheType with
  | .hoc =>
      match v.store t.pass.r.remOffset with
      | none => (none, t)
      | some b => (some b, t.on fun p => p.call (.getBlock p.r.remOffset))
  | .dob =>
      match t.dob with
      | [] => (none, if v.inHOC then t.stop .overrun else t)
      | b :: rest =>
          (some b, { t with dob := rest }.on fun p =>
            if v.inHOC then { p with r := { p.r with remOffset := b.pres, version := b.version } } else p)

/-- The outer loop, for at most `n` passes, and `n` of the inner loop in each. -/
def outerLoop (v : View) (c : Client) : Nat → Transfer → Transfer
  | 0, t => t.stop .hang
  | n + 1, t =>
      if t.pass.r.lDel then t
      else
        let got := fetch v t
        match got.1 with
        | none => got.2.on askDisk
        | some b =>
            let t := innerLoop v.alloc c (v.report (got.2.pass.r.block + 1)) t.pass.r.remOffset b (n + 1) (got.2.on entered)
            if t.fault = none ∧ t.pass.this2 then outerLoop v c n (t.on fun p => { p with this2 := false }) else t

def processFurtherBlocks (v : View) (c : Client) (n : Nat) (t : Transfer) : Transfer :=
  outerLoop v c n (t.on fun p => ⟨p.r, true, false, 0, []⟩)

/-! ## The model without data -/

section Stages

variable {a : Alloc} {c : Client} {rep : Report} {off : Int} {b : StoredBlock} {t : Transfer}

/-- What the call gives, without the data. -/
def Transfer.result (t : Transfer) : Run Pass := t.fault.elim (.ok t.pass) .error

theorem result_ok (hfault : t.fault = none) : t.result = .ok t.pass := by rw [Transfer.result, hfault]; rfl

theorem result_error {f : Fault} (hfault : t.fault = some f) : t.result = .error f := by rw [Transfer.result, hfault]; rfl

@[simp] theorem on_fault (f : Pass → Pass) : (t.on f).fault = t.fault := rfl

@[simp] theorem on_pass (f : Pass → Pass) : (t.on f).pass = f t.pass := rfl

@[simp] theorem parseResponse_fault : (parseResponse rep off b t).fault = t.fault := rfl

@[simp] theorem readyForDownload_fault : (readyForDownload rep t).fault = t.fault := rfl

@[simp] theorem readyForDownload_pass : (readyForDownload rep t).pass = t.pass.redo (rep.outcome 0 0 false) := rfl

@[simp] theorem discard_fault : (discard rep off t).fault = t.fault := rfl

@[simp] theorem sendHeader_pass : (sendHeader c t).2.pass = t.pass := by
  unfold sendHeader
  simp only
  split
  · rfl
  · split
    · rfl
    · rfl
    · split <;> rfl

@[simp] theorem sendHeader_fault : (sendHeader c t).2.fault = t.fault := by
  unfold sendHeader
  simp only
  split
  · rfl
  · split
    · rfl
    · rfl
    · split <;> rfl

theorem sendHeader_reports (c : Client) (rep : Report) (t : Transfer) (sent : Int) (pending : Bool) :
    Serve.sendHeader (rep.outcome (sendHeader c t).1 sent pending) t.pass.r = (sendHeader c t).1 := by
  rw [Serve.sendHeader]
  split
  · rfl
  · rename_i hpresReq
    have hgone : t.pass.r.presReq = false := Bool.not_eq_true _ ▸ hpresReq
    exact (congrArg Prod.fst (show sendHeader c t = (0, t.act .sendHeader) from if_pos hgone)).symm

@[simp] theorem sendData_fault : (sendData c t).2.fault = t.fault := by
  unfold sendData
  split
  · rfl
  · split <;> rfl

@[simp] theorem deliver_fault (removes : Bool) : (deliver removes c rep b t).fault = t.fault := sendData_fault

theorem startSending_spec (c : Client) (rep : Report) (b : StoredBlock) (t : Transfer) :
    (startSending c rep b t).fault = t.fault ∧
      ∃ header sent pending, (startSending c rep b t).pass = Serve.startSending (rep.outcome header sent pending) b t.pass := by
  unfold startSending
  simp only
  generalize hlocked : t.on (fun p => p.call (.addReadLock p.r.hash p.matchNum)) = t₁
  have hpass : t₁.pass = t.pass.call (.addReadLock t.pass.r.hash t.pass.matchNum) := by rw [← hlocked, on_pass]
  have hfault : t₁.fault = t.fault := by rw [← hlocked, on_fault]
  have hheader : (sendHeader c t₁).2.pass = t₁.pass := sendHeader_pass
  have hkept : (sendHeader c t₁).2.fault = t₁.fault := sendHeader_fault
  have hreports := sendHeader_reports c rep t₁
  generalize hgot : sendHeader c t₁ = got at hheader hkept hreports ⊢
  -- the outcome of `sendData` matters only where it is called
  let t₂ := got.2.on fun p => { p with r := { p.r with sendHead := true } }
  have hstart (sent : Int) (pending : Bool) : Serve.startSending (rep.outcome got.1 sent pending) b t.pass =
      if got.1 = 2 then
        ((if b.status = endMark then got.2.pass.complete.removeReadLock else got.2.pass).advance b).sending (some .resumeDownload)
      else if got.1 = -1 then t₂.pass.removeReadLock.giveUp
      else if t₂.pass.r.presReq = false then { t₂.pass.removeReadLock with r := delResponseTranLazy t₂.pass.r, thisFlag := false }
      else Serve.deliver true (rep.outcome got.1 sent pending) b t₂.pass := by
    have hreported : Serve.sendHeader (rep.outcome got.1 sent pending)
        (t.pass.call (.addReadLock t.pass.r.hash t.pass.matchNum)).r = got.1 := by
      rw [← hpass]
      exact hreports sent pending
    unfold Serve.startSending
    simp only [hreported]
    simp only [t₂, on_pass, hheader, hpass]
  by_cases hbusy : got.1 = 2
  · rw [if_pos hbusy]
    refine ⟨hkept.trans hfault, got.1, 0, false, ?_⟩
    rw [hstart, if_pos hbusy]
    rfl
  rw [if_neg hbusy]
  by_cases hfailed : got.1 = -1
  · rw [if_pos hfailed]
    refine ⟨hkept.trans hfault, got.1, 0, false, ?_⟩
    rw [hstart, if_neg hbusy, if_pos hfailed]
    rfl
  rw [if_neg hfailed]
  by_cases hgone : got.2.pass.r.presReq = false
  · rw [on_pass, if_pos hgone]
    refine ⟨hkept.trans hfault, got.1, 0, false, ?_⟩
    rw [hstart, if_neg hbusy, if_neg hfailed]
    exact (if_pos hgone).symm
  · rw [on_pass, if_neg hgone]
    refine ⟨?_, got.1, (sendData c t₂).1, t₂.pending, ?_⟩
    · rw [deliver_fault]
      exact hkept.trans hfault
    · rw [hstart, if_neg hbusy, if_neg hfailed]
      exact (if_neg hgone).symm

theorem deliver_pass (removes : Bool) (header : Int) :
    (deliver removes c rep b t).pass = Serve.deliver removes (rep.outcome header (sendData c t).1 t.pending) b t.pass := rfl

/-- The model without data gives the same, or the descriptor of a client that is gone was read. -/
def Agrees (t : Transfer) (result : Run Pass) : Prop := t.fault = some .overrun ∨ t.result = result

theorem agrees_ok {p : Pass} (hfault : t.fault = none) (hpass : t.pass = p) : Agrees t (.ok p) :=
  .inr ((result_ok hfault).trans (congrArg _ hpass))

theorem Agrees.of_eq {x y : Run Pass} (heq : y = x) (hagrees : Agrees t x) : Agrees t y := heq ▸ hagrees

/-- A pass agrees for all that the writes may report, or for what they did report, and then it is the last one. -/
def Follows (rep : Report) (t : Transfer) (pass : Outcome → Run Pass) : Prop :=
  (∀ header sent pending, Agrees t (pass (rep.outcome header sent pending))) ∨
    t.pass.thisFlag = false ∧ ∃ header sent pending, Agrees t (pass (rep.outcome header sent pending))

/-- `match` is set. -/
def matched (b : StoredBlock) (p : Pass) : Pass := { p with matchNum := getBestMatch p.r b }

theorem matchPass_of_match (rep : Report) (off : Int) (hmatch : getBestMatch t.pass.r b ≠ -1) :
    matchPass rep off b t = (t.on (matched b)).on fun p => { p with r := { p.r with pstage := .compatibility } } := if_neg hmatch

theorem matchPass_of_get (rep : Report) (off : Int) (hnone : getBestMatch t.pass.r b = -1) (hget : t.pass.r.waproxGet = true) :
    matchPass rep off b t = (sendNegReply (t.on (matched b))).on fun p => p.giveUp.doneReading off :=
  (if_pos hnone).trans (if_pos hget)

theorem matchPass_of_not_get (rep : Report) (off : Int) (hnone : getBestMatch t.pass.r b = -1) (hget : ¬t.pass.r.waproxGet = true) :
    matchPass rep off b t = (readyForDownload rep ((t.on (matched b)).on fun p => p.doneReading off)).on fun p =>
      { p with thisFlag := false } :=
  (if_pos hnone).trans (if_neg hget)

@[simp] theorem sendNegReply_pass : (sendNegReply t).pass = t.pass := by
  unfold sendNegReply
  simp only
  split <;> rfl

theorem matchPass_follows (hfault : t.fault = none) :
    Follows rep (matchPass rep off b t) fun o => .ok (Serve.matchPass o off b t.pass) := by
  left
  intro header sent pending
  unfold Serve.matchPass
  by_cases hnone : getBestMatch t.pass.r b = -1
  swap
  · rw [matchPass_of_match rep off hnone]
    exact agrees_ok hfault (if_neg hnone).symm
  by_cases hget : t.pass.r.waproxGet = true
  swap
  · rw [matchPass_of_not_get rep off hnone hget]
    exact agrees_ok hfault ((if_pos hnone).trans (if_neg hget)).symm
  rw [matchPass_of_get rep off hnone hget]
  by_cases hpresReq : t.pass.r.presReq = true
  · refine agrees_ok ?_ ?_
    · rw [on_fault, sendNegReply]
      exact (congrArg Transfer.fault (if_pos hpresReq)).trans hfault
    · rw [on_pass, sendNegReply_pass]
      exact ((if_pos hnone).trans (if_pos hget)).symm
  · left
    rw [on_fault, sendNegReply]
    exact congrArg Transfer.fault (if_neg hpresReq)

/-- One of the two first exits of the stage COMPATIBILITY is taken. -/
def Refused (a : Alloc) (b : StoredBlock) : Prop := ¬ReadableFits b ∨ b.status = notEnd ∧ ¬checkVersion a b.version b.next

instance (a : Alloc) (b : StoredBlock) : Decidable (Refused a b) := inferInstanceAs (Decidable (_ ∨ _))

/-- The response cannot be parsed, or not to the end of its header. -/
def Unparsed (rep : Report) : Prop := rep.parse = -1 ∨ rep.parsed = badResponse ∨ rep.parsed = comeBack

instance (rep : Report) : Decidable (Unparsed rep) := inferInstanceAs (Decidable (_ ∨ _))

theorem compatibilityPass_refused (c : Client) (rep : Report) (off : Int) (t : Transfer) (hrefused : Refused a b) :
    compatibilityPass a c rep off b t =
    readyForDownload rep (t.on fun p => (p.call (.discardHeaders p.r.hash p.r.matchNum)).doneReading off) := if_pos hrefused

theorem compatibilityPass_full (c : Client) (off : Int) (t : Transfer) (hfits : ¬Refused a b) (hfull : rep.parsed = buffFull) :
    compatibilityPass a c rep off b t = (parseResponse rep off b t).stop .exit := (if_neg hfits).trans (if_pos hfull)

theorem compatibilityPass_unparsed (c : Client) (off : Int) (t : Transfer) (hfits : ¬Refused a b) (hroom : rep.parsed ≠ buffFull)
    (hbad : Unparsed rep) :
    compatibilityPass a c rep off b t = discard rep off (parseResponse rep off b t) :=
  (if_neg hfits).trans ((if_neg hroom).trans (if_pos hbad))

theorem compatibilityPass_expired (c : Client) (off : Int) (t : Transfer) (hfits : ¬Refused a b) (hroom : rep.parsed ≠ buffFull)
    (hparsed : ¬Unparsed rep)
    (hexpired : rep.expiry = -1) : compatibilityPass a c rep off b t = discard rep off (parseResponse rep off b t) :=
  (if_neg hfits).trans ((if_neg hroom).trans ((if_neg hparsed).trans (if_pos hexpired)))

theorem compatibilityPass_fresh (c : Client) (off : Int) (t : Transfer) (hfits : ¬Refused a b) (hroom : rep.parsed ≠ buffFull)
    (hparsed : ¬Unparsed rep)
    (hfresh : rep.expiry ≠ -1) : compatibilityPass a c rep off b t =
      if (t.pass.parse (rep.outcome 0 0 false) off).r.presReq = false then
        (parseResponse rep off b t).on fun p => { p with r := delResponseTranLazy p.r, thisFlag := false }
      else if rep.compatibility = -1 then (readyForDownload rep (parseResponse rep off b t)).on fun p => { p with thisFlag := false }
      else startSending c rep b (parseResponse rep off b t) :=
  (if_neg hfits).trans ((if_neg hroom).trans ((if_neg hparsed).trans (if_neg hfresh)))

theorem compatibilityPass_follows (a : Alloc) (c : Client) (rep : Report) (off : Int) (b : StoredBlock) (hfault : t.fault = none) :
    Follows rep (compatibilityPass a c rep off b t) fun o => Serve.compatibilityPass a o off b t.pass := by
  unfold Serve.compatibilityPass
  by_cases hrefused : Refused a b
  · rw [compatibilityPass_refused c rep off t hrefused]
    exact .inl fun _ _ _ => .of_eq (if_pos hrefused) (agrees_ok hfault rfl)
  by_cases hfull : rep.parsed = buffFull
  · rw [compatibilityPass_full c off t hrefused hfull]
    exact .inl fun _ _ _ => .of_eq ((if_neg hrefused).trans (if_pos hfull)) (.inr (result_error rfl))
  by_cases hbad : Unparsed rep
  · rw [compatibilityPass_unparsed c off t hrefused hfull hbad]
    exact .inl fun _ _ _ => .of_eq ((if_neg hrefused).trans ((if_neg hfull).trans (if_pos hbad))) (agrees_ok hfault rfl)
  by_cases hexpired : rep.expiry = -1
  · rw [compatibilityPass_expired c off t hrefused hfull hbad hexpired]
    exact .inl fun _ _ _ =>
      .of_eq ((if_neg hrefused).trans ((if_neg hfull).trans ((if_neg hbad).trans (if_pos hexpired)))) (agrees_ok hfault rfl)
  rw [compatibilityPass_fresh c off t hrefused hfull hbad hexpired]
  by_cases hgone : (t.pass.parse (rep.outcome 0 0 false) off).r.presReq = false
  · rw [if_pos hgone]
    exact .inl fun _ _ _ => .of_eq ((if_neg hrefused).trans ((if_neg hfull).trans ((if_neg hbad).trans ((if_neg hexpired).trans
      (if_pos hgone))))) (agrees_ok hfault rfl)
  rw [if_neg hgone]
  by_cases hincompatible : rep.compatibility = -1
  · rw [if_pos hincompatible]
    exact .inl fun _ _ _ => .of_eq ((if_neg hrefused).trans ((if_neg hfull).trans ((if_neg hbad).trans ((if_neg hexpired).trans
      ((if_neg hgone).trans (if_pos hincompatible)))))) (agrees_ok hfault rfl)
  · rw [if_neg hincompatible]
    obtain ⟨hkept, header, sent, pending, hpass⟩ := startSending_spec c rep b (parseResponse rep off b t)
    refine .inr ⟨?_, header, sent, pending, .of_eq ((if_neg hrefused).trans ((if_neg hfull).trans ((if_neg hbad).trans
      ((if_neg hexpired).trans ((if_neg hgone).trans (if_neg hincompatible)))))) (agrees_ok (hkept.trans hfault) hpass)⟩
    rw [hpass]
    exact (startSending_leaves _ b _).thisFlag

theorem sendingPass_follows (c : Client) (rep : Report) (off : Int) (b : StoredBlock) (hfault : t.fault = none) :
    Follows rep (sendingPass c rep off b t) fun o => Serve.sendingPass o off b t.pass := by
  unfold sendingPass Serve.sendingPass
  simp only [on_pass]
  by_cases hother : ¬urlFits t.pass.r b ∨ ¬ReadableFits b
  · simp only [if_pos hother]
    exact .inl fun _ _ _ => agrees_ok hfault rfl
  simp only [if_neg hother]
  by_cases hfull : rep.parsed = buffFull
  · simp only [if_pos hfull]
    exact .inl fun _ _ _ => .of_eq (if_pos hfull) (.inr (result_error rfl))
  simp only [if_neg hfull]
  by_cases hbad : rep.parse = -1 ∨ rep.parsed = badResponse
  · simp only [if_pos hbad]
    exact .inl fun _ _ _ => .of_eq ((if_neg hfull).trans (if_pos hbad)) (agrees_ok hfault rfl)
  simp only [if_neg hbad]
  generalize ht : parseResponse rep off b (t.on fun p => { p with matchNum := p.r.matchNum }) = t₁
  have hkept : t₁.fault = none := by
    rw [← ht]
    exact hfault
  have hpass : t₁.pass = Pass.parse (rep.outcome 0 0 false) off { t.pass with matchNum := t.pass.r.matchNum } := by
    rw [← ht]
    rfl
  refine .inr ⟨(deliver_leaves false _ b _).thisFlag, 0, (sendData c t₁).1, t₁.pending, .of_eq ((if_neg hfull).trans (if_neg hbad)) ?_⟩
  refine agrees_ok ((deliver_fault false).trans hkept) ?_
  rw [deliver_pass false 0, hpass]
  rfl

theorem innerPass_stage (a : Alloc) (c : Client) (rep : Report) (off : Int) (b : StoredBlock) (hlDel : t.pass.r.lDel = false)
    (htype : t.pass.r.type = .cache ∨ t.pass.r.type = .follow) : innerPass a c rep off b t = match t.pass.r.pstage with
      | .matching => matchPass rep off b t
      | .compatibility => compatibilityPass a c rep off b t
      | .sending => sendingPass c rep off b t
      | _ => t := by
  rw [innerPass, if_neg (ne_true_of_eq_false hlDel), if_pos htype]

theorem innerPass_follows (a : Alloc) (c : Client) (rep : Report) (off : Int) (b : StoredBlock) (hfault : t.fault = none) :
    Follows rep (innerPass a c rep off b t) fun o => Serve.innerPass a o off b t.pass := by
  cases hlDel : t.pass.r.lDel with
  | true =>
      rw [innerPass, if_pos hlDel]
      exact .inl fun _ _ _ => .of_eq (if_pos hlDel) (agrees_ok hfault rfl)
  | false =>
      by_cases htype : t.pass.r.type = .cache ∨ t.pass.r.type = .follow
      · rw [innerPass_stage a c rep off b hlDel htype]
        simp only [Serve.innerPass_stage a _ off b hlDel htype]
        cases t.pass.r.pstage with
        | matching => exact matchPass_follows hfault
        | compatibility => exact compatibilityPass_follows a c rep off b hfault
        | sending => exact sendingPass_follows c rep off b hfault
        | start | first => exact .inl fun _ _ _ => agrees_ok hfault rfl
      · have hkept : ¬t.pass.r.lDel = true := ne_true_of_eq_false hlDel
        rw [innerPass, if_neg hkept, if_neg htype]
        exact .inl fun _ _ _ => .of_eq ((if_neg hkept).trans (if_neg htype)) (agrees_ok hfault rfl)

theorem sendHeader_dob : (sendHeader c t).2.dob = t.dob := by
  unfold sendHeader
  simp only
  split
  · rfl
  · split
    · rfl
    · rfl
    · split <;> rfl

theorem deliver_dob (removes : Bool) : (deliver removes c rep b t).dob = t.dob := by
  show (sendData c t).2.dob = _
  unfold sendData
  split
  · rfl
  · split <;> rfl

theorem startSending_dob : (startSending c rep b t).dob = t.dob := by
  unfold startSending
  simp only
  split
  · exact sendHeader_dob
  · split
    · exact sendHeader_dob
    · split
      · exact sendHeader_dob
      · exact (deliver_dob true).trans sendHeader_dob

theorem innerPass_dob : (innerPass a c rep off b t).dob = t.dob := by
  unfold innerPass
  split
  · rfl
  · split
    · split
      · unfold matchPass
        simp only
        split
        · split
          · show (sendNegReply _).dob = _
            unfold sendNegReply
            simp only
            split <;> rfl
          · rfl
        · rfl
      · unfold compatibilityPass
        simp only
        iterate 6
          split
          · rfl
        exact startSending_dob
      · unfold sendingPass
        simp only
        iterate 3
          split
          · rfl
        exact deliver_dob false
      · rfl
    · rfl

theorem innerLoop_dob (a : Alloc) (c : Client) (rep : Report) (off : Int) (b : StoredBlock) (n : Nat) (t : Transfer) :
    (innerLoop a c rep off b n t).dob = t.dob := by
  induction n generalizing t with
  | zero => rfl
  | succ n ih =>
      rw [innerLoop]
      split
      · exact (ih _).trans innerPass_dob
      · exact innerPass_dob

theorem innerLoop_last {n : Nat} (hlast : (innerPass a c rep off b t).fault ≠ none ∨ (innerPass a c rep off b t).pass.thisFlag = false) :
    innerLoop a c rep off b (n + 1) t = innerPass a c rep off b t := by
  rw [innerLoop]
  refine if_neg fun h => ?_
  rcases hlast with hfault | hflag
  · exact hfault h.1
  · exact Bool.false_ne_true (hflag.symm.trans h.2)

theorem innerLoop_more {n : Nat} (hfault : (innerPass a c rep off b t).fault = none)
    (hflag : (innerPass a c rep off b t).pass.thisFlag = true) :
    innerLoop a c rep off b (n + 1) t = innerLoop a c rep off b n (innerPass a c rep off b t) := if_pos ⟨hfault, hflag⟩

theorem innerLoop_agrees (a : Alloc) (c : Client) (rep : Report) (off : Int) (b : StoredBlock) (n : Nat) (hfault : t.fault = none) :
    ∃ header sent pending, Agrees (innerLoop a c rep off b n t) (Serve.innerLoop a (rep.outcome header sent pending) off b n t.pass) := by
  induction n generalizing t with
  | zero => exact ⟨0, 0, false, .inr (result_error rfl)⟩
  | succ n ih =>
      have hpass := innerPass_follows a c rep off b hfault
      generalize ht : innerPass a c rep off b t = t' at hpass
      -- a pass that is the last one
      have hends {o : Outcome} (hlast : t'.fault ≠ none ∨ t'.pass.thisFlag = false)
          (hagrees : Agrees t' (Serve.innerPass a o off b t.pass)) :
          Agrees (innerLoop a c rep off b (n + 1) t) (Serve.innerLoop a o off b (n + 1) t.pass) := by
        rw [innerLoop_last (ht.symm ▸ hlast), ht]
        rcases hagrees with hcrash | hresult
        · exact .inl hcrash
        · right
          rw [Serve.innerLoop, ← hresult]
          cases hf : t'.fault with
          | some f => rw [result_error hf, Run.error_bind]
          | none =>
              have hflag : t'.pass.thisFlag = false := hlast.resolve_left fun h => h hf
              rw [result_ok hf, Run.ok_bind, hflag]
              rfl
      rcases hpass with hall | ⟨hflag, header, sent, pending, hagrees⟩
      swap
      · exact ⟨header, sent, pending, hends (.inr hflag) hagrees⟩
      by_cases hlast : t'.fault ≠ none ∨ t'.pass.thisFlag = false
      · exact ⟨0, 0, false, hends hlast (hall 0 0 false)⟩
      · obtain ⟨hf, hflag⟩ := not_or.mp hlast
        replace hf : t'.fault = none := not_not.mp hf
        replace hflag : t'.pass.thisFlag = true := Bool.not_eq_false _ ▸ hflag
        obtain ⟨header, sent, pending, hrest⟩ := ih hf
        refine ⟨header, sent, pending, ?_⟩
        have hresult : t'.result = Serve.innerPass a (rep.outcome header sent pending) off b t.pass :=
          (hall header sent pending).resolve_left fun h => by cases hf.symm.trans h
        rw [innerLoop_more (ht.symm ▸ hf) (ht.symm ▸ hflag), ht, Serve.innerLoop, ← hresult, result_ok hf, Run.ok_bind, if_pos hflag]
        exact hrest

theorem fetch_some {v : View} (hhoc : t.pass.r.cacheType = .hoc) (hstore : v.store t.pass.r.remOffset = some b) :
    fetch v t = (some b, t.on fun p => p.call (.getBlock p.r.remOffset)) := by
  rw [fetch, hhoc]
  simp only [hstore]

theorem fetch_none {v : View} (hhoc : t.pass.r.cacheType = .hoc) (hstore : v.store t.pass.r.remOffset = none) : fetch v t = (none, t) := by
  rw [fetch, hhoc]
  simp only [hstore]

/-- A block was found, in the store or as the next one of the dirty object. -/
structure Fetched (v : View) (t : Transfer) (b : StoredBlock) (t' : Transfer) : Prop where
  found : t.pass.r.cacheType = .hoc ∧ v.store t.pass.r.remOffset = some b ∧ t'.dob = t.dob ∨ t.pass.r.cacheType = .dob ∧ t.dob = b :: t'.dob
  r : t'.pass.r = { t.pass.r with remOffset := t'.pass.r.remOffset, version := t'.pass.r.version }
  same : t' = { t with pass := t'.pass, dob := t'.dob }
  this2 : t'.pass.this2 = t.pass.this2

theorem fetched_of_eq {v : View} {t' : Transfer} (hfetch : fetch v t = (some b, t')) : Fetched v t b t' := by
  unfold fetch at hfetch
  split at hfetch
  · rename_i hcache
    split at hfetch
    · cases hfetch
    · rename_i hstore
      obtain ⟨hb, rfl⟩ := Prod.mk.inj hfetch
      cases hb
      exact ⟨.inl ⟨hcache, hstore, rfl⟩, rfl, rfl, rfl⟩
  · rename_i hcache
    split at hfetch
    · cases hfetch
    · rename_i hdob
      obtain ⟨hb, rfl⟩ := Prod.mk.inj hfetch
      cases hb
      refine ⟨.inr ⟨hcache, hdob⟩, ?_, rfl, ?_⟩
      · cases v.inHOC <;> rfl
      · cases v.inHOC <;> rfl

/-- The same for the model without data, with what the calls that are left report. -/
def View.env (v : View) (outcomes : Nat → Outcome) : Env := ⟨v.store, v.inHOC, v.alloc, outcomes⟩

theorem outerLoop_congr (v : View) {outcomes outcomes' : Nat → Outcome} (n : Nat) {k : Nat} (hsame : ∀ i, k ≤ i → outcomes i = outcomes' i)
    (dob : List StoredBlock) (p : Pass) : Serve.outerLoop (v.env outcomes) n k dob p = Serve.outerLoop (v.env outcomes') n k dob p := by
  induction n generalizing k dob p with
  | zero => rfl
  | succ n ih =>
      rw [Serve.outerLoop, Serve.outerLoop]
      show (if _ then _ else Serve.fetch (v.env outcomes') dob p >>= _) = _
      congr 1
      apply bind_congr
      intro got
      cases got.1 with
      | none => rfl
      | some b =>
          simp only
          show Serve.innerLoop v.alloc (outcomes k) _ _ _ _ >>= _ = _
          rw [hsame k le_rfl]
          apply bind_congr
          intro p'
          rw [ih fun i hi => hsame i (by omega)]

theorem fetch_agrees (v : View) (outcomes : Nat → Outcome) (t : Transfer) :
    ((fetch v t).1 = none ∧ (fetch v t).2.fault = some .overrun) ∧ Serve.fetch (v.env outcomes) t.dob t.pass = .error .overrun ∨
      (fetch v t).2.fault = t.fault ∧
        Serve.fetch (v.env outcomes) t.dob t.pass = .ok ((fetch v t).1, (fetch v t).2.dob, (fetch v t).2.pass) := by
  unfold fetch Serve.fetch
  cases t.pass.r.cacheType with
  | hoc =>
      right
      show _ ∧ (match v.store t.pass.r.remOffset with | none => _ | some b => _) = _
      cases v.store t.pass.r.remOffset with
      | none => exact ⟨rfl, rfl⟩
      | some b => exact ⟨rfl, rfl⟩
  | dob =>
      cases hdob : t.dob with
      | nil =>
          show _ ∧ (if v.inHOC = true then _ else _) = _ ∨ _ ∧ (if v.inHOC = true then _ else _) = _
          cases v.inHOC with
          | true => exact .inl ⟨⟨rfl, rfl⟩, rfl⟩
          | false =>
              refine .inr ⟨rfl, ?_⟩
              show Except.ok (none, [], t.pass) = .ok (none, t.dob, t.pass)
              rw [hdob]
      | cons b rest =>
          right
          exact ⟨rfl, rfl⟩

/-- The outcomes are what the view reports and what the writes gave. -/
def Reported (v : View) (outcomes : Nat → Outcome) : Prop :=
  ∀ k, ∃ i header sent pending, outcomes k = (v.report i).outcome header sent pending

/-- A call goes as in the model without data. -/
theorem outerLoop_agrees (v : View) (c : Client) (n k : Nat) (hfault : t.fault = none) :
    ∃ outcomes, Reported v outcomes ∧ Agrees (outerLoop v c n t) (Serve.outerLoop (v.env outcomes) n k t.dob t.pass) := by
  have hblank : Reported v fun _ => (v.report 0).outcome 0 0 false := fun _ => ⟨0, 0, 0, false, rfl⟩
  induction n generalizing t k with
  | zero => exact ⟨_, hblank, .inr (result_error rfl)⟩
  | succ n ih =>
      cases hlDel : t.pass.r.lDel with
      | true =>
          refine ⟨_, hblank, ?_⟩
          rw [outerLoop, if_pos hlDel]
          exact .of_eq (if_pos hlDel) (agrees_ok hfault rfl)
      | false =>
          have hkept : ¬t.pass.r.lDel = true := ne_true_of_eq_false hlDel
          have hserve (outcomes : Nat → Outcome) : Serve.outerLoop (v.env outcomes) (n + 1) k t.dob t.pass =
              (Serve.fetch (v.env outcomes) t.dob t.pass >>= fun got =>
                match got.1 with
                | none => return askDisk got.2.2
                | some b => Serve.innerLoop v.alloc (outcomes k) t.pass.r.remOffset b (n + 1) (entered got.2.2) >>= fun p =>
                    if p.this2 then Serve.outerLoop (v.env outcomes) n (k + 1) got.2.1 { p with this2 := false } else return p) :=
            if_neg hkept
          have hfetched := fetch_agrees v (fun _ => (v.report 0).outcome 0 0 false) t
          rw [outerLoop, if_neg hkept]
          generalize fetch v t = got at hfetched ⊢
          obtain ⟨found, t₁⟩ := got
          rcases hfetched with ⟨⟨rfl, hcrash⟩, -⟩ | ⟨hkeeps, hfetch⟩
          · exact ⟨_, hblank, .inl hcrash⟩
          replace hfetch (outcomes : Nat → Outcome) : Serve.fetch (v.env outcomes) t.dob t.pass = .ok (found, t₁.dob, t₁.pass) := hfetch
          replace hkeeps : t₁.fault = none := hkeeps.trans hfault
          cases found with
          | none =>
              refine ⟨_, hblank, .of_eq ?_ (agrees_ok (p := askDisk t₁.pass) hkeeps rfl)⟩
              rw [hserve, hfetch]
              rfl
          | some b =>
              obtain ⟨header, sent, pending, hinner⟩ := innerLoop_agrees v.alloc c (v.report (t₁.pass.r.block + 1)) t.pass.r.remOffset b
                (n + 1) (t := t₁.on entered) hkeeps
              show ∃ outcomes, _ ∧ Agrees (if (innerLoop v.alloc c (v.report (t₁.pass.r.block + 1)) t.pass.r.remOffset b (n + 1)
                (t₁.on entered)).fault = none ∧ _ then _ else _) _
              have hdob := innerLoop_dob v.alloc c (v.report (t₁.pass.r.block + 1)) t.pass.r.remOffset b (n + 1) (t₁.on entered)
              generalize
                innerLoop v.alloc c (v.report (t₁.pass.r.block + 1)) t.pass.r.remOffset b (n + 1) (t₁.on entered) = t' at hinner hdob ⊢
              by_cases hmore : t'.fault = none ∧ t'.pass.this2 = true
              · rw [if_pos hmore]
                obtain ⟨outcomes, hreported, hrest⟩ := ih (k + 1) (t := t'.on fun p => { p with this2 := false }) hmore.1
                refine ⟨Function.update outcomes k ((v.report (t₁.pass.r.block + 1)).outcome header sent pending), ?_, .of_eq ?_ hrest⟩
                · intro i
                  rcases eq_or_ne i k with rfl | hne
                  · exact ⟨_, header, sent, pending, Function.update_self ..⟩
                  · rw [Function.update_of_ne hne]
                    exact hreported i
                · have hresult : Serve.innerLoop v.alloc ((v.report (t₁.pass.r.block + 1)).outcome header sent pending) t.pass.r.remOffset b
                      (n + 1) (entered t₁.pass) = .ok t'.pass :=
                    (hinner.resolve_left fun h => nomatch hmore.1.symm.trans h).symm.trans (result_ok hmore.1)
                  have hafter (i : Nat) (hi : k + 1 ≤ i) : Function.update outcomes k
                      ((v.report (t₁.pass.r.block + 1)).outcome header sent pending) i = outcomes i := Function.update_of_ne (by omega) ..
                  rw [hserve, hfetch, Run.ok_bind]
                  simp only [Function.update_self]
                  rw [hresult, Run.ok_bind, if_pos hmore.2, outerLoop_congr v n hafter]
                  exact congrArg (fun dob => Serve.outerLoop _ n (k + 1) dob _) hdob.symm
              · rw [if_neg hmore]
                refine ⟨fun _ => (v.report (t₁.pass.r.block + 1)).outcome header sent pending, fun _ => ⟨_, header, sent, pending, rfl⟩, ?_⟩
                refine hinner.imp_right fun hresult => ?_
                rw [hserve, hfetch, Run.ok_bind]
                simp only
                rw [show entered t₁.pass = (t₁.on entered).pass from rfl, ← hresult]
                cases hf : t'.fault with
                | some f => rw [result_error hf, Run.error_bind]
                | none => rw [result_ok hf, Run.ok_bind, if_neg fun h => hmore ⟨hf, h⟩, Run.pure_eq_ok]

/-- Without its data, a call is one of the model without data, unless it reads the descriptor of a client that is gone. -/
theorem processFurtherBlocks_agrees (v : View) (c : Client) (n : Nat) (hfault : t.fault = none) : ∃ outcomes, Reported v outcomes ∧
    ((processFurtherBlocks v c n t).fault = some .overrun ∨ (processFurtherBlocks v c n t).result.map (fun p => (p.r, p.calls)) =
      Serve.processFurtherBlocks (v.env outcomes) n t.dob t.pass.r) := by
  obtain ⟨outcomes, hreported, hagrees⟩ := outerLoop_agrees v c n 0 (t := t.on fun p => ⟨p.r, true, false, 0, []⟩) hfault
  refine ⟨outcomes, hreported, hagrees.imp_right fun hresult => ?_⟩
  rw [processFurtherBlocks, Serve.processFurtherBlocks, hresult]
  show Except.map _ (Serve.outerLoop (v.env outcomes) n 0 t.dob ⟨t.pass.r, true, false, 0, []⟩) = _
  cases Serve.outerLoop (v.env outcomes) n 0 t.dob ⟨t.pass.r, true, false, 0, []⟩ with
  | error f => rfl
  | ok p => rfl

end Stages

end BeagleCache.Hits

import Mathlib.Data.Nat.Nth
import Mathlib.Tactic
import BeagleCache.RightObject

/-! A cache hit whose client does not take everything at once. What is left is sent by the handler that `processFurtherBlocks` has
left for the client: `resumeDiskRead`, or, after the header, `resumeDownload`. -/

namespace BeagleCache.Hits

open Hcfs Serve

/-- `CLOSED` -/
def closed : Int := 10

/-- What is decided about a response in the download path: if it is cacheable, if it is longer than `LARGE_LIMIT`, and the result of
`checkForWrite`. -/
structure Verdict where
  cacheable : Bool
  large : Bool
  written : Int

def setHandler (handler : Option Handler) (p : Pass) : Pass := { p with r := { p.r with writeHandler := handler } }

def setSendHead (p : Pass) : Pass := { p with r := { p.r with sendHead := true } }

/-- The header, unless it was sent before. -/
def resumeHeader (c : Client) (t : Transfer) : Int × Transfer := if t.pass.r.sendHead then (0, t) else sendHeader c t

/-- `respTran` has the response until it is deleted, with the handler. -/
def resumeDiskRead (v : View) (c : Client) (n : Nat) (t : Transfer) : Transfer :=
  let head := resumeHeader c t
  if head.1 = 2 then head.2
  else if head.1 = -1 then head.2.on fun p => (p.call (.removeReadLock p.r.hash p.r.matchNum)).giveUp
  else
    let got := sendData c (head.2.on setSendHead)
    if got.1 = 2 then got.2
    else if got.1 = -1 then got.2.on Pass.giveUp
    else
      let t := got.2.on (setHandler none)
      if t.pass.r.status = entityComplete then t.on Pass.giveUp
      else processFurtherBlocks v c n (t.on fun p => { p with r := { p.r with pstage := .sending } })

/-- What `resumeDownload` does where `cacheCheck` is set. -/
def cacheCheck (verdict : Verdict) (t : Transfer) : Transfer :=
  if t.cacheCheck then
    let t := { t.act .checkCachability with cacheCheck := false }
    if verdict.cacheable ∧ ¬verdict.large then
      (t.act .addToBatch).on fun p => { p with r := { p.r with type := .down, pstage := .first } }
    else t.on fun p => { p with r := { p.r with type := .web } }
  else t

/-- The tables are read and written at the descriptor of the server. -/
def resumeDownload (verdict : Verdict) (c : Client) (t : Transfer) : Transfer :=
  let head := resumeHeader c ((t.act (.table t.fd)).on (setHandler none))
  if head.1 = 2 then head.2.on (setHandler (some .resumeDownload))
  else if head.1 = -1 then head.2.on Pass.giveUp
  else
    let got := sendData c (head.2.on setSendHead)
    if got.1 = 2 then got.2.on (setHandler (some .resumeDownload))
    else if got.1 = -1 then got.2.on Pass.giveUp
    else
      let t := got.2.on fun p => if p.r.type = .web then { p with r := { p.r with block := p.r.block + 1 } } else p
      let t := (cacheCheck verdict t).act .checkForWrite
      if verdict.written = -1 then t
      else if t.pass.r.status = entityComplete ∨ t.pass.r.status = closed then t.on Pass.giveUp
      else t.on (setHandler none)

/-- The log, what each call finds, what is decided in the download path, and the client. -/
structure Setting where
  log : Int → Option StoredBlock
  view : Nat → View
  verdict : Verdict
  client : Client

/-- The disk has read the block that was asked for. -/
def View.loaded (v : View) (log : Int → Option StoredBlock) (off : Int) : View := { v with store := Function.update v.store off (log off) }

namespace Setting

/-- What a response waits for has come, before the call `k`: its client has room again, or the disk replies. -/
def resume (s : Setting) (n k : Nat) (t : Transfer) : Transfer :=
  match t.pass.r.writeHandler with
  | some .resumeDiskRead => resumeDiskRead (s.view k) s.client n t
  | some .resumeDownload => resumeDownload s.verdict s.client t
  | none =>
      if t.pass.r.map then
        processFurtherBlocks ((s.view k).loaded s.log t.pass.r.remOffset) s.client n
          (t.on fun p => { p with r := { p.r with map := false } })
      else t

/-- A hit after `k` of what it waited for. -/
def run (s : Setting) (n : Nat) (t : Transfer) : Nat → Transfer
  | 0 => processFurtherBlocks (s.view 0) s.client n t
  | k + 1 => s.resume n (k + 1) (s.run n t k)

end Setting

/-! ## What a hit should do -/

/-- `parseResponse` and the stage SENDING take the block. -/
structure Passes (rep : Report) (r : Response) (b : StoredBlock) : Prop where
  url : urlFits r b
  readable : ReadableFits b
  parse : rep.parse ≠ -1
  good : rep.parsed ≠ badResponse
  room : rep.parsed ≠ buffFull

/-- The blocks of an object from its block `k` on. The last one and no other one is marked as the end, and `parseResponse` comes to the
end of the entity with no other one. -/
inductive Blocks (report : Nat → Report) (r : Response) : Nat → List StoredBlock → Prop
  | last {k : Nat} {b : StoredBlock} (hpasses : Passes (report k) r b) (hstatus : b.status = endMark) : Blocks report r k [b]
  | more {k : Nat} {b : StoredBlock} {rest : List StoredBlock} (hpasses : Passes (report k) r b) (hstatus : b.status = notEnd)
      (hopen : (report k).parsed ≠ entityComplete) (hrest : Blocks report r (k + 1) rest) : Blocks report r k (b :: rest)

/-- The stages before SENDING take the first block. -/
structure Opens (a : Alloc) (rep : Report) (b : StoredBlock) : Prop where
  keySec : -1 < b.keySec
  version : b.status = notEnd → checkVersion a b.version b.next
  header : rep.parsed ≠ comeBack
  expiry : rep.expiry ≠ -1
  compatibility : rep.compatibility ≠ -1

/-- The blocks are in the log, each where the one before says, the first at `off`. -/
def InLog (log : Int → Option StoredBlock) : Int → Int → List StoredBlock → Prop
  | _, _, [] => True
  | off, len, b :: rest => log off = some b ∧ 0 < len ∧ InLog log b.next b.length rest

/-- The blocks that are left of the object are in the log, or in its dirty object. -/
def Placed (log : Int → Option StoredBlock) (t : Transfer) (blocks : List StoredBlock) : Prop :=
  t.pass.r.cacheType = .hoc ∧ InLog log t.pass.r.remOffset t.pass.r.totalLen blocks ∨ t.pass.r.cacheType = .dob ∧ t.dob = blocks

/-- A response that begins to be served with an object that is stored. What is in memory is as in the log, and the client stays. -/
structure Hit (s : Setting) (report : Nat → Report) (r : Response) (dob blocks : List StoredBlock) : Prop where
  type : r.type = .cache
  pstage : r.pstage = .matching
  present : r.presReq = true
  kept : r.lDel = false
  idle : r.map = false
  unsent : r.sendHead = false
  handler : r.writeHandler = none
  object : Blocks report r (r.block + 1) blocks
  opens : ∀ b ∈ blocks.head?, ∀ k, Opens (s.view k).alloc (report (r.block + 1)) b
  placed : Placed s.log (starting r dob) blocks
  found : ∀ k off b, (s.view k).store off = some b → s.log off = some b
  report : ∀ k, (s.view k).report = report
  stays : ∀ k, s.client.write k ≠ .fails

/-- The bytes of the body that the blocks have, the first of them the block `k`. -/
def body (report : Nat → Report) : Nat → List StoredBlock → List Sent
  | _, [] => []
  | k, b :: rest => (report k).pieces.flatten.map (.body b) ++ body report (k + 1) rest

/-- What the client gets if no write ever blocks. -/
def whole (c : Client) (report : Nat → Report) (k : Nat) (blocks : List StoredBlock) : List Sent :=
  (c.header 0).map .header ++ body report k blocks

/-- Something that is only done in the download path. -/
def Act.isDownload : Act → Bool
  | .table _ | .checkCachability | .addToBatch => true
  | _ => false

/-- The client has got a beginning of `full`, all of it when the response is deleted, and the response is still a cache hit. -/
structure Undisturbed (full : List Sent) (t : Transfer) : Prop where
  fault : t.fault = none
  type : t.pass.r.type = .cache
  acts : ∀ a ∈ t.acts, a.isDownload = false
  client : t.client <+: full
  deleted : t.pass.r.lDel = true → t.client = full

def Write.some : Write → Bool
  | .takes n => 0 < n
  | _ => false

/-- The hit goes as if no write ever blocked: it is undisturbed, and ends if the client goes on to take bytes. -/
structure Unblocked (s : Setting) (n : Nat) (t : Transfer) (full : List Sent) : Prop where
  always : ∀ k, Undisturbed full (s.run n t k)
  ends : {k | (s.client.write k).some = true}.Infinite → ∃ k, (s.run n t k).pass.r.lDel = true

/-! ## Sending -/

/-- The bytes that wait. -/
def waiting (pieces : List Piece) : List Sent := pieces.flatMap fun piece => piece.2.map (.body piece.1)

/-- The calls of `write` before the call `k` that took something. -/
def taken (write : Nat → Write) (k : Nat) : Nat := Nat.count (fun i => (write i).some = true) k

/-- What the loop of `sendData` does to a client that stays. -/
structure Sends (write : Nat → Write) (pieces : List Piece) (k : Nat) (got : Sending) : Prop where
  bytes : got.bytes ++ waiting got.left = waiting pieces
  status : got.status = 0 ∧ got.left = [] ∨ got.status = 2
  grows : k ≤ got.writes
  tries : waiting pieces ≠ [] → k < got.writes
  taken : taken write got.writes ≤ taken write k + got.bytes.length
  blocks : got.status = 2 → waiting got.left ≠ []

theorem taken_le_succ (write : Nat → Write) (k : Nat) : taken write (k + 1) ≤ taken write k + 1 := by
  rw [taken, Nat.count_succ]
  refine Nat.add_le_add_left ?_ _
  split
  · exact le_rfl
  · exact zero_le_one

theorem taken_succ_le {write : Nat → Write} {k m : Nat} (hwrite : write k = .takes m) : taken write (k + 1) ≤ taken write k + m := by
  rw [taken, Nat.count_succ, hwrite]
  refine Nat.add_le_add_left ?_ _
  split
  · rename_i hsome
    exact of_decide_eq_true hsome
  · exact Nat.zero_le m

theorem taken_succ_eagain {write : Nat → Write} {k : Nat} (hwrite : write k = .eagain) : taken write (k + 1) = taken write k := by
  rw [taken, Nat.count_succ, hwrite]
  rfl

theorem sendPieces_sends (write : Nat → Write) (hstays : ∀ k, write k ≠ .fails) (pieces : List Piece) (k : Nat) :
    Sends write pieces k (sendPieces write pieces k) := by
  induction pieces generalizing k with
  | nil => exact ⟨rfl, .inl ⟨rfl, rfl⟩, le_rfl, fun h => absurd rfl h, le_rfl, fun h => absurd (show (0 : Int) = 2 from h) (by decide)⟩
  | cons piece rest ih =>
      obtain ⟨b, bytes⟩ := piece
      cases bytes with
      | nil =>
          have hrest := ih k
          exact ⟨hrest.bytes, hrest.status, hrest.grows, hrest.tries, hrest.taken, hrest.blocks⟩
      | cons byte bytes =>
          rw [sendPieces]
          split
          · rename_i hwrite
            exact ⟨rfl, .inr rfl, Nat.le_succ k, fun _ => Nat.lt_succ_self k, (taken_succ_eagain hwrite).le, fun _ h => (by cases h)⟩
          · exact absurd ‹_› (hstays k)
          · rename_i n hwrite
            split
            · rename_i hshort
              have hbytes : (((byte :: bytes).take n).map (Sent.body b)).length = n := by
                rw [List.length_map, List.length_take, min_eq_left hshort.le]
              refine ⟨?_, .inr rfl, Nat.le_succ k, fun _ => Nat.lt_succ_self k, ?_, fun _ h => ?_⟩
              · show _ ++ (((byte :: bytes).drop n).map (Sent.body b) ++ waiting rest) = (byte :: bytes).map (Sent.body b) ++ waiting rest
                rw [← List.append_assoc, ← List.map_append, List.take_append_drop]
              · show taken write (k + 1) ≤ taken write k + (((byte :: bytes).take n).map (Sent.body b)).length
                rw [hbytes]
                exact taken_succ_le hwrite
              · have hnil : (((byte :: bytes).drop n).map (Sent.body b)) = [] := (List.append_eq_nil_iff.mp h).1
                have hlen := congrArg List.length hnil
                rw [List.length_map, List.length_drop] at hlen
                exact absurd hlen (Nat.sub_pos_of_lt hshort).ne'
            · have hrest := ih (k + 1)
              refine ⟨?_, hrest.status, (Nat.le_succ k).trans hrest.grows, fun _ => hrest.grows, ?_, hrest.blocks⟩
              · show (byte :: bytes).map (Sent.body b) ++ _ ++ _ = (byte :: bytes).map (Sent.body b) ++ waiting rest
                rw [List.append_assoc, hrest.bytes]
              · refine hrest.taken.trans ?_
                have hone := taken_le_succ write k
                show _ ≤ taken write k + ((byte :: bytes).map (Sent.body b) ++ _).length
                rw [List.length_append, List.length_map, List.length_cons]
                omega

/-- A response after `sendData`, with its client. -/
def Transfer.afterData (t : Transfer) (got : Sending) : Transfer :=
  { t with toSend := got.left, client := t.client ++ got.bytes, writes := got.writes }

theorem sendData_present {c : Client} {t : Transfer} (hpresent : t.pass.r.presReq = true) :
    sendData c t = ((sendPieces c.write t.toSend t.writes).status, t.afterData (sendPieces c.write t.toSend t.writes)) := if_pos hpresent

theorem status_zero {α : Type} (x y z : α) : (if (0 : Int) = 2 then x else if (0 : Int) = -1 then y else z) = z := rfl

section Deliver

variable {o : Outcome} {b : StoredBlock} {p : Pass}

theorem deliver_waits (removes : Bool) (hpresent : p.r.presReq = true) (hsent : o.sent = 2) : Serve.deliver removes o b p =
    (if b.status = endMark then p.complete.removeReadLock else p.advance b).sending (some .resumeDiskRead) := by
  have hdata : Serve.sendData o p.r = (2, p.r) := (if_pos hpresent).trans (congrArg (·, p.r) hsent)
  rw [Serve.deliver, hdata]
  exact if_pos rfl

theorem deliver_ends (removes : Bool) (hpresent : p.r.presReq = true) (hsent : o.sent = 0) (hstatus : b.status = endMark) :
    Serve.deliver removes o b p = p.removeReadLock.complete.giveUp := by
  have hdata : Serve.sendData o p.r = (0, p.r) := (if_pos hpresent).trans (congrArg (·, p.r) hsent)
  rw [Serve.deliver, hdata]
  exact (status_zero ..).trans (if_pos hstatus)

theorem deliver_goes (removes : Bool) (hpresent : p.r.presReq = true) (hsent : o.sent = 0) (hstatus : b.status = notEnd) :
    Serve.deliver removes o b p = { (p.advance b).sending p.r.writeHandler with this2 := true } := by
  have hdata : Serve.sendData o p.r = (0, p.r) := (if_pos hpresent).trans (congrArg (·, p.r) hsent)
  have hopen : b.status ≠ endMark := by
    rw [hstatus]
    decide
  rw [Serve.deliver, hdata]
  exact (status_zero ..).trans ((if_neg hopen).trans (if_pos hstatus))

end Deliver

/-! ## The places where a hit waits -/

section Phases

variable (s : Setting) (report : Nat → Report) (r : Response) (full : List Sent)

/-- A hit whose header was sent, and whose object has the blocks `blocks` left. -/
structure Underway (t : Transfer) (blocks : List StoredBlock) : Prop where
  fault : t.fault = none
  type : t.pass.r.type = .cache
  kept : t.pass.r.lDel = false
  present : t.pass.r.presReq = true
  sendHead : t.pass.r.sendHead = true
  url : t.pass.r.URL = r.URL
  acts : ∀ a ∈ t.acts, a.isDownload = false
  counted : taken s.client.write t.writes ≤ t.client.length + 1
  full : t.client ++ waiting t.toSend ++ body report (t.pass.r.block + 1) blocks = full

/-- The next of them can be found. -/
structure Ahead (t : Transfer) (blocks : List StoredBlock) : Prop where
  object : Blocks report r (t.pass.r.block + 1) blocks
  placed : Placed s.log t blocks

/-- The outer loop comes to the next block. -/
structure Ready (t : Transfer) (blocks : List StoredBlock) : Prop where
  underway : Underway s report r full t blocks
  ahead : Ahead s report r t blocks
  pstage : t.pass.r.pstage = .sending
  idle : t.pass.r.map = false
  handler : t.pass.r.writeHandler = none
  this2 : t.pass.this2 = false
  empty : t.toSend = []

/-- Between two calls a hit is over, or it waits for the disk or for its client. -/
inductive Phase (t : Transfer) : List StoredBlock → Prop
  | ended (hfault : t.fault = none) (htype : t.pass.r.type = .cache) (hacts : ∀ a ∈ t.acts, a.isDownload = false)
      (hdeleted : t.pass.r.lDel = true) (hidle : t.pass.r.map = false) (hhandler : t.pass.r.writeHandler = none)
      (hclient : t.client = full) : Phase t []
  | atDisk {blocks : List StoredBlock} (hunderway : Underway s report r full t blocks)
      (hobject : Blocks report r (t.pass.r.block + 1) blocks)
      (hstage : t.pass.r.pstage = .sending) (hhoc : t.pass.r.cacheType = .hoc)
      (hlog : InLog s.log t.pass.r.remOffset t.pass.r.totalLen blocks)
      (hmap : t.pass.r.map = true) (hhandler : t.pass.r.writeHandler = none) (hempty : t.toSend = []) : Phase t blocks
  | atClient {blocks : List StoredBlock} (hunderway : Underway s report r full t blocks)
      (hleft : t.pass.r.status = entityComplete ∧ blocks = [] ∨ t.pass.r.status ≠ entityComplete ∧ Ahead s report r t blocks)
      (hidle : t.pass.r.map = false) (hhandler : t.pass.r.writeHandler = some .resumeDiskRead) (hwaits : waiting t.toSend ≠ []) :
      Phase t blocks

end Phases

section Steps

variable {s : Setting} {report : Nat → Report} {r : Response} {full : List Sent} {v : View} {t : Transfer} {b : StoredBlock}
  {rest : List StoredBlock}

/-- A block was parsed, and its pieces wait. -/
structure Parsed (s : Setting) (report : Nat → Report) (r : Response) (full : List Sent) (t : Transfer) (b : StoredBlock)
    (rest : List StoredBlock) : Prop where
  underway : Underway s report r full t rest
  object : Blocks report r t.pass.r.block (b :: rest)
  placed : t.pass.r.cacheType = .hoc ∧ InLog s.log b.next b.length rest ∨ t.pass.r.cacheType = .dob ∧ t.dob = rest
  status : t.pass.r.status = (report t.pass.r.block).parsed
  idle : t.pass.r.map = false
  handler : t.pass.r.writeHandler = none
  this2 : t.pass.this2 = false

/-- After a block the outer loop goes on, or the call ends. -/
inductive Delivered (s : Setting) (report : Nat → Report) (r : Response) (full : List Sent) (t : Transfer) (rest : List StoredBlock) : Prop
  | goes (hthis2 : t.pass.this2 = true) (hready : Ready s report r full (t.on fun p => { p with this2 := false }) rest) :
      Delivered s report r full t rest
  | stops (hthis2 : t.pass.this2 = false) (hphase : Phase s report r full t rest) : Delivered s report r full t rest

theorem giveUp_r {p : Pass} (hkept : p.r.lDel = false) : p.giveUp.r = { p.r with lDel := true, presReq := false, writeHandler := none } :=
  if_neg (ne_true_of_eq_false hkept)

theorem ended_of_giveUp {p : Pass} (hpass : t.pass = p.giveUp) (hfault : t.fault = none) (htype : p.r.type = .cache)
    (hkept : p.r.lDel = false)
    (hidle : p.r.map = false) (hacts : ∀ a ∈ t.acts, a.isDownload = false) (hclient : t.client = full) : Phase s report r full t [] := by
  have hr : t.pass.r = { p.r with lDel := true, presReq := false, writeHandler := none } := by rw [hpass, giveUp_r hkept]
  refine .ended hfault ?_ hacts ?_ ?_ ?_ hclient
  · rw [hr]
    exact htype
  · rw [hr]
  · rw [hr]
    exact hidle
  · rw [hr]

/-- What is sent of what waits is still what is left of the object. -/
theorem sent_full {c : Client} {blocks : List StoredBlock} (hstays : ∀ k, c.write k ≠ .fails) {k : Nat}
    (hfull : t.client ++ waiting t.toSend ++ body report k blocks = full) :
    t.client ++ (sendPieces c.write t.toSend t.writes).bytes ++ waiting (sendPieces c.write t.toSend t.writes).left ++
      body report k blocks = full := by
  have hsends := sendPieces_sends c.write hstays t.toSend t.writes
  generalize sendPieces c.write t.toSend t.writes = got at hsends ⊢
  calc t.client ++ got.bytes ++ waiting got.left ++ body report k blocks
      = t.client ++ (got.bytes ++ waiting got.left) ++ body report k blocks := by rw [List.append_assoc t.client]
    _ = t.client ++ waiting t.toSend ++ body report k blocks := by rw [hsends.bytes]
    _ = full := hfull

theorem sent_counted {c : Client} (hstays : ∀ k, c.write k ≠ .fails) (hcounted : taken c.write t.writes ≤ t.client.length + 1) :
    taken c.write (sendPieces c.write t.toSend t.writes).writes ≤
      (t.client ++ (sendPieces c.write t.toSend t.writes).bytes).length + 1 := by
  have hsends := sendPieces_sends c.write hstays t.toSend t.writes
  generalize sendPieces c.write t.toSend t.writes = got at hsends ⊢
  calc taken c.write got.writes ≤ taken c.write t.writes + got.bytes.length := hsends.taken
    _ ≤ t.client.length + 1 + got.bytes.length := Nat.add_le_add_right hcounted _
    _ = (t.client ++ got.bytes).length + 1 := by rw [List.length_append, Nat.add_right_comm]

theorem deliver_delivered (removes : Bool) (rep : Report) (hstays : ∀ k, s.client.write k ≠ .fails)
    (hparsed : Parsed s report r full t b rest) :
    Delivered s report r full (deliver removes s.client rep b t) rest ∧ (deliver removes s.client rep b t).fault = none ∧
      (deliver removes s.client rep b t).pass.thisFlag = false ∧ t.writes ≤ (deliver removes s.client rep b t).writes := by
  obtain ⟨hunder, hobject, hplaced, hstatus, hidle, hhandler, hthis2⟩ := hparsed
  have hsends := sendPieces_sends s.client.write hstays t.toSend t.writes
  have hfull := sent_full (c := s.client) hstays hunder.full
  have hcounted := sent_counted hstays hunder.counted
  have heq : deliver removes s.client rep b t = { t.afterData (sendPieces s.client.write t.toSend t.writes) with
      pass := Serve.deliver removes (rep.outcome 0 (sendPieces s.client.write t.toSend t.writes).status t.pending) b t.pass } := by
    unfold deliver
    rw [sendData_present hunder.present]
  generalize sendPieces s.client.write t.toSend t.writes = got at hsends hfull hcounted heq
  rw [heq]
  refine ⟨?_, hunder.fault, (deliver_leaves _ _ _ _).thisFlag, hsends.grows⟩
  rcases hsends.status with ⟨hsent, hleft⟩ | hsent
  · cases hobject with
    | last hpasses hend =>
        rw [deliver_ends removes hunder.present hsent hend]
        refine .stops hthis2 (ended_of_giveUp rfl hunder.fault hunder.type hunder.kept hidle hunder.acts ?_)
        rw [hleft] at hfull
        rw [← hfull]
        exact (List.append_nil _).symm.trans (List.append_nil _).symm
    | more hpasses hmore hopen hrest =>
        rw [deliver_goes removes hunder.present hsent hmore]
        refine .goes rfl ⟨⟨hunder.fault, hunder.type, hunder.kept, hunder.present, hunder.sendHead, hunder.url, hunder.acts,
            hcounted, hfull⟩,
          ⟨hrest, hplaced⟩, rfl, hidle, hhandler, rfl, hleft⟩
  · rw [deliver_waits removes hunder.present hsent]
    cases hobject with
    | last hpasses hend =>
        rw [if_pos hend]
        exact .stops hthis2 (.atClient ⟨hunder.fault, hunder.type, hunder.kept, hunder.present, hunder.sendHead, hunder.url, hunder.acts,
          hcounted, hfull⟩ (.inl ⟨rfl, rfl⟩) hidle rfl (hsends.blocks hsent))
    | more hpasses hmore hopen hrest =>
        have hopened : b.status ≠ endMark := by
          rw [hmore]
          decide
        rw [if_neg hopened]
        refine .stops hthis2 (.atClient ⟨hunder.fault, hunder.type, hunder.kept, hunder.present, hunder.sendHead, hunder.url, hunder.acts,
          hcounted, hfull⟩ (.inr ⟨?_, hrest, hplaced⟩) hidle rfl (hsends.blocks hsent))
        show t.pass.r.status ≠ _
        rw [hstatus]
        exact hopen

/-- What a call finds in memory is as in the log. -/
structure Finds (s : Setting) (report : Nat → Report) (v : View) : Prop where
  report : v.report = report
  store : ∀ off b, v.store off = some b → s.log off = some b

theorem Fetched.next {t₁ : Transfer} {blocks : List StoredBlock} (hfetched : Fetched v t b t₁) (hfinds : Finds s report v)
    (hplaced : Placed s.log t blocks) (hblocks : blocks ≠ []) : ∃ rest, blocks = b :: rest ∧
      (t.pass.r.cacheType = .hoc ∧ InLog s.log b.next b.length rest ∨ t.pass.r.cacheType = .dob ∧ t₁.dob = rest) := by
  rcases hplaced with ⟨hhoc, hlog⟩ | ⟨hdob, hleft⟩
  · rcases hfetched.found with ⟨-, hstore, -⟩ | ⟨hother, -⟩
    · cases blocks with
      | nil => exact absurd rfl hblocks
      | cons b' rest =>
          obtain ⟨hhere, -, hrest⟩ := hlog
          obtain rfl : b' = b := Option.some.inj (hhere.symm.trans (hfinds.store _ _ hstore))
          exact ⟨rest, rfl, .inl ⟨hhoc, hrest⟩⟩
    · exact nomatch hhoc.symm.trans hother
  · rcases hfetched.found with ⟨hother, -⟩ | ⟨-, hhead⟩
    · exact nomatch hdob.symm.trans hother
    · exact ⟨t₁.dob, hleft.symm.trans hhead, .inr ⟨hdob, rfl⟩⟩

theorem Blocks.ne_nil {k : Nat} {blocks : List StoredBlock} (hobject : Blocks report r k blocks) : blocks ≠ [] := by
  cases hobject <;> exact List.cons_ne_nil _ _

theorem Blocks.passes {k : Nat} (hobject : Blocks report r k (b :: rest)) : Passes (report k) r b := by
  cases hobject <;> assumption

theorem Passes.congr {rep : Report} {r r' : Response} (hpasses : Passes rep r b) (hURL : r'.URL = r.URL) : Passes rep r' b :=
  ⟨(urlFits_congr hURL).mpr hpasses.url, hpasses.readable, hpasses.parse, hpasses.good, hpasses.room⟩

theorem sendingPass_passes {c : Client} {rep : Report} {off : Int} (hpasses : Passes rep t.pass.r b) : sendingPass c rep off b t =
    deliver false c rep b (parseResponse rep off b (t.on fun p => { p with matchNum := p.r.matchNum })) := by
  have hfits : ¬(¬urlFits t.pass.r b ∨ ¬ReadableFits b) := not_or.mpr ⟨not_not.mpr hpasses.url, not_not.mpr hpasses.readable⟩
  exact (if_neg hfits).trans ((if_neg hpasses.room).trans (if_neg (not_or.mpr ⟨hpasses.parse, hpasses.good⟩)))

theorem waiting_pieces (b : StoredBlock) (pieces : List (List UInt8)) :
    waiting (pieces.map fun bytes => (b, bytes)) = pieces.flatten.map (.body b) := by
  induction pieces with
  | nil => rfl
  | cons bytes pieces ih =>
      rw [List.flatten_cons, List.map_append, ← ih]
      rfl

/-- A later block that was found, parsed. -/
def continued (rep : Report) (off : Int) (b : StoredBlock) (t : Transfer) : Transfer :=
  parseResponse rep off b ((t.on entered).on fun p => { p with matchNum := p.r.matchNum })

theorem continued_r (rep : Report) (off : Int) (b : StoredBlock) (t : Transfer) :
    (continued rep off b t).pass.r = { t.pass.r with block := t.pass.r.block + 1, status := rep.parsed } := by
  show (Pass.parse _ off _).r = _
  rw [Pass.parse, doneReading_r]
  rfl

theorem continued_this2 (rep : Report) (off : Int) (b : StoredBlock) (t : Transfer) : (continued rep off b t).pass.this2 = t.pass.this2 :=
  parse_this2

theorem innerPass_continued {c : Client} {rep : Report} (a : Alloc) (off : Int) (hlDel : t.pass.r.lDel = false)
    (htype : t.pass.r.type = .cache)
    (hstage : t.pass.r.pstage = .sending) (hpasses : Passes rep t.pass.r b) :
    innerPass a c rep off b (t.on entered) = deliver false c rep b (continued rep off b t) := by
  rw [innerPass_stage a c rep off b (show (t.on entered).pass.r.lDel = false from hlDel) (.inl htype),
    show (t.on entered).pass.r.pstage = .sending from hstage]
  exact sendingPass_passes (hpasses.congr rfl)

/-- What waits of the next block is what is left of the object, without the blocks after it. -/
theorem Ready.parsed {t₁ : Transfer} {rep : Report} (hready : Ready s report r full t (b :: rest)) (hfetched : Fetched v t b t₁)
    (hrest : t.pass.r.cacheType = .hoc ∧ InLog s.log b.next b.length rest ∨ t.pass.r.cacheType = .dob ∧ t₁.dob = rest)
    (hrep : report (t.pass.r.block + 1) = rep) (off : Int) : Parsed s report r full (continued rep off b t₁) b rest := by
  obtain ⟨hunder, ⟨hobject, -⟩, -, hidle, hhandler, hthis2, hempty⟩ := hready
  have hr := continued_r rep off b t₁
  rw [hfetched.r] at hr
  have hdata : (continued rep off b t₁).client = t.client ∧ (continued rep off b t₁).acts = t.acts ∧
      (continued rep off b t₁).writes = t.writes ∧ (continued rep off b t₁).fault = t.fault := by
    show t₁.client = _ ∧ t₁.acts = _ ∧ t₁.writes = _ ∧ t₁.fault = _
    rw [hfetched.same]
    exact ⟨rfl, rfl, rfl, rfl⟩
  obtain ⟨hclient, hacts, hwrites, hfault⟩ := hdata
  have hsend : (continued rep off b t₁).toSend = rep.pieces.map fun bytes => (b, bytes) := by
    show t₁.toSend ++ _ = _
    rw [hfetched.same]
    show t.toSend ++ _ = _
    rw [hempty]
    rfl
  have hfull : (continued rep off b t₁).client ++ waiting (continued rep off b t₁).toSend ++
      body report ((continued rep off b t₁).pass.r.block + 1) rest = full := by
    have hbefore := hunder.full
    rw [hempty] at hbefore
    rw [hclient, hsend, waiting_pieces, hr]
    calc t.client ++ rep.pieces.flatten.map (.body b) ++ body report (t.pass.r.block + 1 + 1) rest
        = t.client ++ (rep.pieces.flatten.map (.body b) ++ body report (t.pass.r.block + 1 + 1) rest) := List.append_assoc ..
      _ = t.client ++ body report (t.pass.r.block + 1) (b :: rest) := by rw [body, hrep]
      _ = t.client ++ waiting [] ++ body report (t.pass.r.block + 1) (b :: rest) := by rw [waiting, List.flatMap_nil, List.append_nil]
      _ = full := hbefore
  refine ⟨⟨hfault.trans hunder.fault, ?_, ?_, ?_, ?_, ?_, ?_, ?_, hfull⟩, ?_, ?_, ?_, ?_, ?_, ?_⟩
  · rw [hr]
    exact hunder.type
  · rw [hr]
    exact hunder.kept
  · rw [hr]
    exact hunder.present
  · rw [hr]
    exact hunder.sendHead
  · rw [hr]
    exact hunder.url
  · rw [hacts]
    exact hunder.acts
  · rw [hwrites, hclient]
    exact hunder.counted
  · rw [hr]
    exact hobject
  · rw [hr]
    exact hrest
  · rw [hr]
    exact congrArg Report.parsed hrep.symm
  · rw [hr]
    exact hidle
  · rw [hr]
    exact hhandler
  · rw [continued_this2]
    exact hfetched.this2.trans hthis2

theorem innerLoop_sending {t₁ : Transfer} {blocks : List StoredBlock} (a : Alloc) (off : Int) (n : Nat)
    (hstays : ∀ k, s.client.write k ≠ .fails) (hfinds : Finds s report v) (hready : Ready s report r full t blocks)
    (hfetched : Fetched v t b t₁) :
    ∃ rest, blocks = b :: rest ∧
      Delivered s report r full (innerLoop a s.client (report (t₁.pass.r.block + 1)) off b (n + 1) (t₁.on entered)) rest ∧
      (innerLoop a s.client (report (t₁.pass.r.block + 1)) off b (n + 1) (t₁.on entered)).fault = none ∧
      t.writes ≤ (innerLoop a s.client (report (t₁.pass.r.block + 1)) off b (n + 1) (t₁.on entered)).writes := by
  obtain ⟨rest, rfl, hrest⟩ := hfetched.next hfinds hready.ahead.placed hready.ahead.object.ne_nil
  have hr := hfetched.r
  have hblock : t₁.pass.r.block = t.pass.r.block := by rw [hr]
  rw [hblock]
  generalize hrep : report (t.pass.r.block + 1) = rep
  have hpass : innerPass a s.client rep off b (t₁.on entered) = deliver false s.client rep b (continued rep off b t₁) := by
    have hnext := hready.ahead.object.passes
    rw [hrep] at hnext
    refine innerPass_continued a off ?_ ?_ ?_ (hnext.congr ?_)
    · rw [hr]
      exact hready.underway.kept
    · rw [hr]
      exact hready.underway.type
    · rw [hr]
      exact hready.pstage
    · rw [hr]
      exact hready.underway.url
  obtain ⟨hdelivered, hfault, hflag, hwrites⟩ := deliver_delivered false rep hstays (hready.parsed hfetched hrest hrep off)
  rw [← hpass] at hdelivered hfault hflag hwrites
  rw [innerLoop_last (.inr hflag)]
  refine ⟨rest, rfl, hdelivered, hfault, le_trans (le_of_eq ?_) hwrites⟩
  show t.writes = t₁.writes
  rw [hfetched.same]

theorem askDisk_r {p : Pass} (hidle : p.r.map = false) (hlen : 0 < p.r.totalLen) : (askDisk p).r = { p.r with map := true } := by
  have hasks : ¬(p.r.map = true ∨ p.r.totalLen = 0) := not_or.mpr ⟨ne_true_of_eq_false hidle, hlen.ne'⟩
  exact congrArg Pass.r (if_neg hasks)

theorem askDisk_waits {t₁ : Transfer} {blocks : List StoredBlock} (hready : Ready s report r full t blocks)
    (hfetch : fetch v t = (none, t₁)) :
    Phase s report r full (t₁.on askDisk) blocks ∧ t₁.writes = t.writes := by
  obtain ⟨hunder, ⟨hobject, hplaced⟩, hstage, hidle, hhandler, hthis2, hempty⟩ := hready
  have hblocks := hobject.ne_nil
  unfold fetch at hfetch
  rcases hplaced with ⟨hhoc, hlog⟩ | ⟨hdob, hleft⟩
  · rw [hhoc] at hfetch
    simp only at hfetch
    split at hfetch
    swap
    · cases hfetch
    obtain rfl : t = t₁ := (Prod.mk.inj hfetch).2
    refine ⟨?_, rfl⟩
    have hlen : 0 < t.pass.r.totalLen := by
      cases blocks with
      | nil => exact absurd rfl hblocks
      | cons b rest => exact hlog.2.1
    have hr : (askDisk t.pass).r = { t.pass.r with map := true } := askDisk_r hidle hlen
    refine .atDisk ⟨hunder.fault, ?_, ?_, ?_, ?_, ?_, hunder.acts, hunder.counted, ?_⟩ ?_ ?_ ?_ ?_ ?_ ?_ hempty
    · exact (congrArg Response.type hr).trans hunder.type
    · exact (congrArg Response.lDel hr).trans hunder.kept
    · exact (congrArg Response.presReq hr).trans hunder.present
    · exact (congrArg Response.sendHead hr).trans hunder.sendHead
    · exact (congrArg Response.URL hr).trans hunder.url
    · show t.client ++ waiting t.toSend ++ body report ((askDisk t.pass).r.block + 1) blocks = full
      rw [hr]
      exact hunder.full
    · show Blocks report r ((askDisk t.pass).r.block + 1) blocks
      rw [hr]
      exact hobject
    · exact (congrArg Response.pstage hr).trans hstage
    · exact (congrArg Response.cacheType hr).trans hhoc
    · show InLog s.log (askDisk t.pass).r.remOffset (askDisk t.pass).r.totalLen blocks
      rw [hr]
      exact hlog
    · exact congrArg Response.map hr
    · exact (congrArg Response.writeHandler hr).trans hhandler
  · rw [hdob, hleft] at hfetch
    cases blocks with
    | nil => exact absurd rfl hblocks
    | cons b rest => cases hfetch

/-- From a block of the stage SENDING on, a call sends until it waits or the object is sent. With a block in memory it gets on. -/
theorem outerLoop_sending (n : Nat) (hstays : ∀ k, s.client.write k ≠ .fails) (hfinds : Finds s report v) {blocks : List StoredBlock}
    (hready : Ready s report r full t blocks) (hn : blocks.length < n) :
    ∃ left, Phase s report r full (outerLoop v s.client n t) left ∧ left.length ≤ blocks.length ∧
      t.writes ≤ (outerLoop v s.client n t).writes ∧ ((fetch v t).1.isSome = true → left.length < blocks.length) := by
  induction n generalizing t blocks with
  | zero => exact absurd hn (Nat.not_lt_zero _)
  | succ n ih =>
      have hkept : ¬t.pass.r.lDel = true := ne_true_of_eq_false hready.underway.kept
      have hfetched {b : StoredBlock} {t' : Transfer} (h : fetch v t = (some b, t')) : Fetched v t b t' := fetched_of_eq h
      have hasked {t' : Transfer} (h : fetch v t = (none, t')) := askDisk_waits hready h
      rw [outerLoop, if_neg hkept]
      generalize fetch v t = got at hfetched hasked ⊢
      obtain ⟨found, t₁⟩ := got
      cases found with
      | none =>
          obtain ⟨hphase, hwrites⟩ := hasked rfl
          exact ⟨blocks, hphase, le_rfl, hwrites.ge, fun h => by cases h⟩
      | some b =>
          obtain ⟨rest, rfl, hdelivered, hfault, hwrites⟩ :=
            innerLoop_sending v.alloc t.pass.r.remOffset n hstays hfinds hready (hfetched rfl)
          simp only
          rw [← hfinds.report] at hdelivered hfault hwrites
          generalize innerLoop v.alloc s.client (v.report (t₁.pass.r.block + 1)) t.pass.r.remOffset b (n + 1) (t₁.on entered) = t₂
            at hdelivered hfault hwrites ⊢
          rw [hfinds.report] at hdelivered
          cases hdelivered with
          | goes hthis2 hready' =>
              rw [if_pos ⟨hfault, hthis2⟩]
              obtain ⟨left, hphase, hleft, hmore, -⟩ := ih hready' (Nat.lt_of_succ_lt_succ hn)
              exact ⟨left, hphase, hleft.trans (Nat.le_succ _), hwrites.trans hmore, fun _ => Nat.lt_succ_of_le hleft⟩
          | stops hthis2 hphase =>
              rw [if_neg fun h => ne_true_of_eq_false hthis2 h.2]
              exact ⟨rest, hphase, Nat.le_succ _, hwrites, fun _ => Nat.lt_succ_self _⟩

theorem Finds.loaded (hfinds : Finds s report v) (off : Int) : Finds s report (v.loaded s.log off) where
  report := hfinds.report
  store off' b hb := by
    replace hb : Function.update v.store off (s.log off) off' = some b := hb
    rcases eq_or_ne off' off with rfl | hne
    · rwa [Function.update_self] at hb
    · rw [Function.update_of_ne hne] at hb
      exact hfinds.store off' b hb

theorem fetch_loaded (v : View) (hhoc : t.pass.r.cacheType = .hoc) (hlog : s.log t.pass.r.remOffset = some b) :
    fetch (v.loaded s.log t.pass.r.remOffset) t = (some b, t.on fun p => p.call (.getBlock p.r.remOffset)) := by
  apply fetch_some hhoc
  show Function.update v.store t.pass.r.remOffset (s.log t.pass.r.remOffset) t.pass.r.remOffset = _
  rw [Function.update_self, hlog]

theorem resumeHeader_sent {c : Client} (hsent : t.pass.r.sendHead = true) : resumeHeader c t = (0, t) := if_pos hsent

section ResumeDiskRead

variable {c : Client} {n : Nat}

theorem resumeDiskRead_waits (hsent : t.pass.r.sendHead = true) (hpresent : t.pass.r.presReq = true)
    (hstatus : (sendPieces c.write t.toSend t.writes).status = 2) :
    resumeDiskRead v c n t = (t.on setSendHead).afterData (sendPieces c.write t.toSend t.writes) := by
  have hdata : sendData c (t.on setSendHead) = (2, (t.on setSendHead).afterData (sendPieces c.write t.toSend t.writes)) :=
    (sendData_present (t := t.on setSendHead) hpresent).trans (congrArg (·, _) hstatus)
  rw [resumeDiskRead, resumeHeader_sent hsent]
  exact (status_zero ..).trans ((if_pos (congrArg Prod.fst hdata)).trans (congrArg Prod.snd hdata))

theorem resumeDiskRead_sent (hsent : t.pass.r.sendHead = true) (hpresent : t.pass.r.presReq = true)
    (hstatus : (sendPieces c.write t.toSend t.writes).status = 0) : resumeDiskRead v c n t =
      if t.pass.r.status = entityComplete then
        (((t.on setSendHead).afterData (sendPieces c.write t.toSend t.writes)).on (setHandler none)).on Pass.giveUp
      else processFurtherBlocks v c n ((((t.on setSendHead).afterData (sendPieces c.write t.toSend t.writes)).on (setHandler none)).on
        fun p => { p with r := { p.r with pstage := .sending } }) := by
  have hdata : sendData c (t.on setSendHead) = (0, (t.on setSendHead).afterData (sendPieces c.write t.toSend t.writes)) :=
    (sendData_present (t := t.on setSendHead) hpresent).trans (congrArg (·, _) hstatus)
  rw [resumeDiskRead, resumeHeader_sent hsent]
  simp only [hdata]
  exact (status_zero ..).trans (status_zero ..)

end ResumeDiskRead

/-- What a hit waits for has come. Each time it makes a call of `write`, or takes a block. -/
theorem resume_phase {n k : Nat} {blocks : List StoredBlock} (hstays : ∀ k, s.client.write k ≠ .fails)
    (hfinds : ∀ k, Finds s report (s.view k)) (hphase : Phase s report r full t blocks) (hkept : t.pass.r.lDel = false)
    (hn : blocks.length < n) :
    ∃ left, Phase s report r full (s.resume n k t) left ∧ left.length ≤ blocks.length ∧
      t.writes + left.length + 1 ≤ (s.resume n k t).writes + blocks.length := by
  cases hphase with
  | ended hfault htype hacts hdeleted => exact absurd hdeleted (ne_true_of_eq_false hkept)
  | atDisk hunder hobject hstage hhoc hlog hmap hhandler hempty =>
      let t' := (t.on fun p => { p with r := { p.r with map := false } }).on fun p => ⟨p.r, true, false, 0, []⟩
      have hresume : s.resume n k t = outerLoop ((s.view k).loaded s.log t.pass.r.remOffset) s.client n t' := by
        unfold Setting.resume
        rw [hhandler]
        exact if_pos hmap
      have hready : Ready s report r full t' blocks :=
        ⟨⟨hunder.fault, hunder.type, hunder.kept, hunder.present, hunder.sendHead, hunder.url, hunder.acts, hunder.counted, hunder.full⟩,
          ⟨hobject, .inl ⟨hhoc, hlog⟩⟩, hstage, rfl, hhandler, rfl, hempty⟩
      obtain ⟨left, hphase, hleft, hwrites, hmore⟩ :=
        outerLoop_sending n hstays ((hfinds k).loaded t.pass.r.remOffset) hready hn
      have hfetch : (fetch ((s.view k).loaded s.log t.pass.r.remOffset) t').1.isSome = true := by
        cases blocks with
        | nil => exact absurd rfl hobject.ne_nil
        | cons b rest => exact congrArg (fun got => got.1.isSome) (fetch_loaded (t := t') (s.view k) hhoc hlog.1)
      rw [hresume]
      refine ⟨left, hphase, hleft, ?_⟩
      have hless := hmore hfetch
      replace hwrites : t.writes ≤ _ := hwrites
      omega
  | atClient hunder hleft hidle hhandler hwaits =>
      have hresume : s.resume n k t = resumeDiskRead (s.view k) s.client n t := by
        unfold Setting.resume
        rw [hhandler]
      have hsends := sendPieces_sends s.client.write hstays t.toSend t.writes
      have hfull := sent_full (c := s.client) hstays hunder.full
      have hcounted := sent_counted hstays hunder.counted
      have hwait := resumeDiskRead_waits (v := s.view k) (n := n) (c := s.client) hunder.sendHead hunder.present
      have hsent := resumeDiskRead_sent (v := s.view k) (n := n) (c := s.client) hunder.sendHead hunder.present
      rw [hresume]
      generalize sendPieces s.client.write t.toSend t.writes = got at hsends hfull hcounted hwait hsent
      have htries := hsends.tries hwaits
      rcases hsends.status with ⟨hstatus, hempty⟩ | hstatus
      · rw [hsent hstatus]
        rcases hleft with ⟨hcomplete, rfl⟩ | ⟨hopen, hobject, hplaced⟩
        · rw [if_pos hcomplete]
          refine ⟨[], ended_of_giveUp rfl hunder.fault hunder.type hunder.kept hidle hunder.acts ?_, le_rfl, ?_⟩
          · rw [hempty] at hfull
            rw [← hfull]
            exact (List.append_nil _).symm.trans (List.append_nil _).symm
          · show t.writes + 0 + 1 ≤ got.writes + 0
            omega
        · rw [if_neg hopen]
          let t' := ((((t.on setSendHead).afterData got).on (setHandler none)).on
            fun p => { p with r := { p.r with pstage := .sending } }).on
            fun p => ⟨p.r, true, false, 0, []⟩
          have hready : Ready s report r full t' blocks :=
            ⟨⟨hunder.fault, hunder.type, hunder.kept, hunder.present, rfl, hunder.url, hunder.acts, hcounted, hfull⟩,
              ⟨hobject, hplaced⟩, rfl, hidle, rfl, rfl, hempty⟩
          obtain ⟨left, hphase, hless, hmore, -⟩ := outerLoop_sending n hstays (hfinds k) hready hn
          refine ⟨left, hphase, hless, ?_⟩
          replace hmore : got.writes ≤ (processFurtherBlocks (s.view k) s.client n _).writes := hmore
          omega
      · rw [hwait hstatus]
        have hunder' : Underway s report r full ((t.on setSendHead).afterData got) blocks :=
          ⟨hunder.fault, hunder.type, hunder.kept, hunder.present, rfl, hunder.url, hunder.acts, hcounted, hfull⟩
        refine ⟨blocks, .atClient hunder' ?_ hidle hhandler (hsends.blocks hstatus), le_rfl, ?_⟩
        · exact hleft.imp_right fun ⟨hopen, hobject, hplaced⟩ => ⟨hopen, hobject, hplaced⟩
        · show t.writes + _ + 1 ≤ got.writes + _
          omega

end Steps

/-! ## The first block -/

section First

variable {s : Setting} {report : Nat → Report} {r : Response} {v : View} {c : Client} {rep : Report} {off : Int} {t : Transfer}
  {b : StoredBlock}
  {blocks : List StoredBlock}

/-- The first block after the stages before SENDING, when the header is to be sent. -/
def opened (rep : Report) (off : Int) (b : StoredBlock) (t : Transfer) : Transfer :=
  parseResponse rep off b ((t.on (matched b)).on fun p => { p with r := { p.r with pstage := .compatibility } })

theorem opened_r : (opened rep off b t).pass.r = { t.pass.r with pstage := .compatibility, status := rep.parsed } := by
  show (Pass.parse _ off _).r = _
  rw [Pass.parse, doneReading_r]
  rfl

theorem opened_this2 : (opened rep off b t).pass.this2 = t.pass.this2 := parse_this2

theorem innerLoop_opens {a : Alloc} (n : Nat) (hfault : t.fault = none) (hkept : t.pass.r.lDel = false) (htype : t.pass.r.type = .cache)
    (hpresent : t.pass.r.presReq = true) (hstage : t.pass.r.pstage = .matching) (hflag : t.pass.thisFlag = true)
    (hpasses : Passes rep t.pass.r b) (hopens : Opens a rep b) :
    innerLoop a c rep off b (n + 2) t = startSending c rep b (opened rep off b t) := by
  have hmatch : getBestMatch t.pass.r b ≠ -1 := by
    rw [getBestMatch, if_pos ⟨hpasses.url, hopens.keySec⟩]
    decide
  let t₁ := (t.on (matched b)).on fun p => { p with r := { p.r with pstage := .compatibility } }
  have hfirst : innerPass a c rep off b t = t₁ := by
    rw [innerPass_stage a c rep off b hkept (.inl htype), hstage]
    exact matchPass_of_match rep off hmatch
  have hfits : ¬Refused a b := not_or.mpr ⟨not_not.mpr hpasses.readable, fun h => h.2 (hopens.version h.1)⟩
  have hparsed : ¬Unparsed rep := not_or.mpr ⟨hpasses.parse, not_or.mpr ⟨hpasses.good, hopens.header⟩⟩
  have hhere : ¬(t₁.pass.parse (rep.outcome 0 0 false) off).r.presReq = false := by
    rw [Pass.parse, doneReading_r]
    exact ne_false_of_eq_true hpresent
  have hsecond : innerPass a c rep off b t₁ = startSending c rep b (opened rep off b t) := by
    rw [innerPass_stage (t := t₁) a c rep off b hkept (.inl htype)]
    show compatibilityPass a c rep off b t₁ = _
    rw [compatibilityPass_fresh c off t₁ hfits hpasses.room hparsed hopens.expiry, if_neg hhere, if_neg hopens.compatibility]
    rfl
  have hlast : (innerPass a c rep off b t₁).pass.thisFlag = false := by
    rw [hsecond]
    obtain ⟨-, header, sent, pending, hpass⟩ := startSending_spec c rep b (opened rep off b t)
    rw [hpass]
    exact (startSending_leaves _ _ _).thisFlag
  rw [innerLoop_more (n := n + 1) (by rw [hfirst]; exact hfault) (by rw [hfirst]; exact hflag), hfirst, innerLoop_last (.inr hlast),
    hsecond]

theorem sendHeader_taken {m : Nat} (hpresent : t.pass.r.presReq = true) (hwrite : c.write t.writes = .takes m)
    (hall : ((c.header t.writes).drop t.headSent).length ≤ m) :
    sendHeader c t = (0, (t.act .sendHeader).sent (((c.header t.writes).drop t.headSent).map .header)) := by
  have hhere : ¬(t.act .sendHeader).pass.r.presReq = false := ne_false_of_eq_true hpresent
  have htakes : c.write (t.act .sendHeader).writes = .takes m := hwrite
  rw [sendHeader, if_neg hhere]
  dsimp only
  rw [htakes]
  exact if_neg (not_lt.mpr hall)

theorem sendHeader_blocked (hpresent : t.pass.r.presReq = true) (hstays : c.write t.writes ≠ .fails)
    (hblocked : ¬∃ m, c.write t.writes = .takes m ∧ ((c.header t.writes).drop t.headSent).length ≤ m) : (sendHeader c t).1 = 2 := by
  have hhere : ¬(t.act .sendHeader).pass.r.presReq = false := ne_false_of_eq_true hpresent
  rw [sendHeader, if_neg hhere]
  dsimp only
  cases hwrite : c.write (t.act .sendHeader).writes with
  | eagain => rfl
  | fails => exact absurd hwrite hstays
  | takes m =>
      have hshort : m < ((c.header t.writes).drop t.headSent).length := not_le.mp fun h => hblocked ⟨m, hwrite, h⟩
      exact congrArg Prod.fst (if_pos hshort)

theorem startSending_blocked (rep : Report) (b : StoredBlock)
    (hblocked : (sendHeader c (t.on fun p => p.call (.addReadLock p.r.hash p.matchNum))).1 = 2) :
    (startSending c rep b t).pass.r.writeHandler = some .resumeDownload ∧ (startSending c rep b t).pass.this2 = t.pass.this2 := by
  have hpass : (sendHeader c (t.on fun p => p.call (.addReadLock p.r.hash p.matchNum))).2.pass.this2 = t.pass.this2 := by
    rw [sendHeader_pass]
    rfl
  rw [startSending, if_pos hblocked, on_pass]
  refine ⟨rfl, ?_⟩
  rw [← hpass]
  by_cases hend : b.status = endMark
  · rw [if_pos hend]
    rfl
  · rw [if_neg hend]
    rfl

theorem startSending_taken {t' : Transfer} (hheader : sendHeader c (t.on fun p => p.call (.addReadLock p.r.hash p.matchNum)) = (0, t'))
    (hkept : t'.pass.r.presReq = true) : startSending c rep b t = deliver true c rep b (t'.on setSendHead) := by
  have hhere : ¬(t'.on setSendHead).pass.r.presReq = false := ne_false_of_eq_true hkept
  rw [startSending, hheader]
  exact (status_zero ..).trans (if_neg hhere)

theorem fetched_opens {dob : List StoredBlock} {t₁ : Transfer} (hhit : Hit s report r dob blocks) (hfinds : Finds s report v)
    (hfetched : Fetched v (starting r dob) b t₁) (hopens : Opens v.alloc (report (r.block + 1)) b) (off : Int) (n : Nat) :
    innerLoop v.alloc s.client (report (r.block + 1)) off b (n + 2) (t₁.on entered) =
      startSending s.client (report (r.block + 1)) b (opened (report (r.block + 1)) off b (t₁.on entered)) := by
  obtain ⟨rest, rfl, -⟩ := hfetched.next hfinds hhit.placed hhit.object.ne_nil
  have hr : t₁.pass.r = { r with remOffset := t₁.pass.r.remOffset, version := t₁.pass.r.version } := hfetched.r
  have hfault : (t₁.on entered).fault = none := by
    show t₁.fault = none
    rw [hfetched.same]
    rfl
  refine innerLoop_opens n hfault ?_ ?_ ?_ ?_ rfl (hhit.object.passes.congr ?_) hopens
  · show t₁.pass.r.lDel = _
    rw [hr]
    exact hhit.kept
  · show t₁.pass.r.type = _
    rw [hr]
    exact hhit.type
  · show t₁.pass.r.presReq = _
    rw [hr]
    exact hhit.present
  · show t₁.pass.r.pstage = _
    rw [hr]
    exact hhit.pstage
  · show t₁.pass.r.URL = _
    rw [hr]

/-- The first block, parsed, of a response of which nothing was sent. -/
structure Unsent (rep : Report) (r : Response) (dob : List StoredBlock) (b : StoredBlock) (t₁ t : Transfer) : Prop where
  response : t.pass.r = { r with
    remOffset := t₁.pass.r.remOffset, version := t₁.pass.r.version, block := r.block + 1, pstage := .compatibility, status := rep.parsed }
  this2 : t.pass.this2 = false
  data : t = { starting r dob with pass := t.pass, dob := t₁.dob, toSend := rep.pieces.map fun bytes => (b, bytes) }

theorem Unsent.nothing {dob : List StoredBlock} {t₁ : Transfer} (hunsent : Unsent rep r dob b t₁ t) : t.writes = 0 ∧ t.headSent = 0 := by
  rw [hunsent.data]
  exact ⟨rfl, rfl⟩

theorem Unsent.present {dob : List StoredBlock} {t₁ : Transfer} (hunsent : Unsent rep r dob b t₁ t) (hpresent : r.presReq = true) :
    t.pass.r.presReq = true := by
  rw [hunsent.response]
  exact hpresent

theorem opened_unsent {dob : List StoredBlock} {t₁ : Transfer} (rep : Report) (off : Int) (hfetched : Fetched v (starting r dob) b t₁) :
    Unsent rep r dob b t₁ ((opened rep off b (t₁.on entered)).on fun p => p.call (.addReadLock p.r.hash p.matchNum)) where
  response := by
    show (opened rep off b (t₁.on entered)).pass.r = _
    rw [opened_r]
    show { t₁.pass.r with block := t₁.pass.r.block + 1, pstage := .compatibility, status := rep.parsed } = _
    rw [hfetched.r]
    rfl
  this2 := by
    show (opened rep off b (t₁.on entered)).pass.this2 = false
    rw [opened_this2]
    exact hfetched.this2
  data := by
    have hsame := hfetched.same
    obtain ⟨pass, dob₁, toSend, headSent, fd, cacheCheck, client, writes, acts, fault⟩ := t₁
    cases hsame
    rfl

theorem Unsent.parsed {dob rest : List StoredBlock} {t₁ : Transfer} (hunsent : Unsent (report (r.block + 1)) r dob b t₁ t)
    (hhit : Hit s report r dob (b :: rest))
    (hrest : r.cacheType = .hoc ∧ InLog s.log b.next b.length rest ∨ r.cacheType = .dob ∧ t₁.dob = rest) :
    Parsed s report r (whole s.client report (r.block + 1) (b :: rest))
      (((t.act .sendHeader).sent ((s.client.header 0).map .header)).on setSendHead) b rest := by
  obtain ⟨hresponse, hthis2, hdata⟩ := hunsent
  let t' := ((t.act .sendHeader).sent ((s.client.header 0).map .header)).on setSendHead
  have hr : t'.pass.r = { r with
      remOffset := t₁.pass.r.remOffset, version := t₁.pass.r.version, block := r.block + 1, pstage := .compatibility,
      status := (report (r.block + 1)).parsed, sendHead := true } := by
    show { t.pass.r with sendHead := true } = _
    rw [hresponse]
  have hfull : t'.client ++ waiting t'.toSend ++ body report (t'.pass.r.block + 1) rest =
      whole s.client report (r.block + 1) (b :: rest) := by
    have hclient : t'.client = (s.client.header 0).map .header := by
      show t.client ++ _ = _
      rw [hdata]
      rfl
    have hsend : t'.toSend = (report (r.block + 1)).pieces.map fun bytes => (b, bytes) := by
      show t.toSend = _
      rw [hdata]
    rw [hclient, hsend, waiting_pieces, hr]
    exact List.append_assoc ..
  refine ⟨⟨?_, ?_, ?_, ?_, ?_, ?_, ?_, ?_, hfull⟩, ?_, ?_, ?_, ?_, ?_, hthis2⟩
  · show t.fault = none
    rw [hdata]
    rfl
  · rw [hr]
    exact hhit.type
  · rw [hr]
    exact hhit.kept
  · rw [hr]
    exact hhit.present
  · rw [hr]
  · rw [hr]
  · show ∀ a ∈ t.acts ++ [.sendHeader], a.isDownload = false
    rw [hdata]
    exact fun a ha => List.mem_singleton.mp ha ▸ rfl
  · show taken s.client.write (t.writes + 1) ≤ _
    rw [hdata]
    exact (taken_le_succ s.client.write 0).trans (Nat.add_le_add_right (Nat.zero_le _) 1)
  · rw [hr]
    exact hhit.object
  · rw [hr]
    show _ ∨ _ ∧ t.dob = rest
    rw [hdata]
    exact hrest
  · rw [hr]
  · rw [hr]
    exact hhit.idle
  · rw [hr]
    exact hhit.handler

theorem startSending_delivered {dob : List StoredBlock} {t₁ : Transfer} {m : Nat} (hhit : Hit s report r dob blocks)
    (hfinds : Finds s report v)
    (hfetched : Fetched v (starting r dob) b t₁) (hwrite : s.client.write 0 = .takes m) (hall : (s.client.header 0).length ≤ m)
    (off : Int) :
    ∃ rest, blocks = b :: rest ∧
      Delivered s report r (whole s.client report (r.block + 1) blocks)
        (startSending s.client (report (r.block + 1)) b (opened (report (r.block + 1)) off b (t₁.on entered))) rest ∧
      (startSending s.client (report (r.block + 1)) b (opened (report (r.block + 1)) off b (t₁.on entered))).fault = none := by
  obtain ⟨rest, rfl, hrest⟩ := hfetched.next hfinds hhit.placed hhit.object.ne_nil
  have hunsent := opened_unsent (report (r.block + 1)) off hfetched
  let t₂ := (opened (report (r.block + 1)) off b (t₁.on entered)).on fun p => p.call (.addReadLock p.r.hash p.matchNum)
  have hpresent : t₂.pass.r.presReq = true := hunsent.present hhit.present
  have hnothing : t₂.writes = 0 ∧ t₂.headSent = 0 := hunsent.nothing
  have hheader : sendHeader s.client t₂ = (0, (t₂.act .sendHeader).sent ((s.client.header 0).map .header)) := by
    have htaken := sendHeader_taken (c := s.client) (t := t₂) (m := m) hpresent
    rw [hnothing.1, hnothing.2] at htaken
    exact htaken hwrite hall
  obtain ⟨hdelivered, hkept, -, -⟩ := deliver_delivered true (report (r.block + 1)) hhit.stays (hunsent.parsed hhit hrest)
  rw [startSending_taken hheader hpresent]
  exact ⟨rest, rfl, hdelivered, hkept⟩

/-- The call of `write` for the header takes all of it. -/
def HeaderTaken (c : Client) : Prop := ∃ m, c.write 0 = .takes m ∧ (c.header 0).length ≤ m

/-- A call that finds the first block goes on after it, or ends with it. -/
theorem processFurtherBlocks_first {dob : List StoredBlock} {t₁ : Transfer} (hhit : Hit s report r dob blocks) (hfinds : Finds s report v)
    (hopens : ∀ b ∈ blocks.head?, Opens v.alloc (report (r.block + 1)) b) (hfetch : fetch v (starting r dob) = (some b, t₁)) (n : Nat)
    {t₂ : Transfer}
    (ht₂ : startSending s.client (report (r.block + 1)) b (opened (report (r.block + 1)) r.remOffset b (t₁.on entered)) = t₂) :
    processFurtherBlocks v s.client (n + 2) (starting r dob) =
      if t₂.fault = none ∧ t₂.pass.this2 then outerLoop v s.client (n + 1) (t₂.on fun p => { p with this2 := false }) else t₂ := by
  have hfetched := fetched_of_eq hfetch
  obtain ⟨rest, rfl, -⟩ := hfetched.next hfinds hhit.placed hhit.object.ne_nil
  have hkept : ¬(starting r dob).pass.r.lDel = true := ne_true_of_eq_false hhit.kept
  have hblock : t₁.pass.r.block = r.block := by rw [hfetched.r]; rfl
  have hinner := fetched_opens hhit hfinds hfetched (hopens b rfl) r.remOffset n
  show outerLoop v s.client (n + 2) (starting r dob) = _
  rw [outerLoop, if_neg hkept, hfetch]
  simp only
  rw [hblock, hfinds.report, show (starting r dob).pass.r.remOffset = r.remOffset from rfl, hinner, ht₂]

theorem first_taken {dob : List StoredBlock} {t₁ : Transfer} {n : Nat} (hhit : Hit s report r dob blocks) (hfinds : Finds s report v)
    (hopens : ∀ b ∈ blocks.head?, Opens v.alloc (report (r.block + 1)) b) (hfetch : fetch v (starting r dob) = (some b, t₁))
    (htaken : HeaderTaken s.client) (hn : blocks.length < n) :
    ∃ left, Phase s report r (whole s.client report (r.block + 1) blocks) (processFurtherBlocks v s.client n (starting r dob)) left ∧
      left.length ≤ blocks.length := by
  obtain ⟨m, hwrite, hall⟩ := htaken
  obtain ⟨rest, rfl, hdelivered, hfault⟩ :=
    startSending_delivered hhit hfinds (fetched_of_eq hfetch) hwrite hall r.remOffset
  obtain ⟨n, rfl⟩ : ∃ n', n = n' + 2 := ⟨n - 2, by rw [List.length_cons] at hn; omega⟩
  rw [processFurtherBlocks_first hhit hfinds hopens hfetch n rfl]
  cases hdelivered with
  | goes hthis2 hready =>
      rw [if_pos ⟨hfault, hthis2⟩]
      obtain ⟨left, hphase, hleft, -, -⟩ := outerLoop_sending (n + 1) hhit.stays hfinds hready (Nat.lt_of_succ_lt_succ hn)
      exact ⟨left, hphase, hleft.trans (Nat.le_succ _)⟩
  | stops hthis2 hphase =>
      rw [if_neg fun h => ne_true_of_eq_false hthis2 h.2]
      exact ⟨rest, hphase, Nat.le_succ _⟩

/-- Otherwise the rest is left to the handler of the download path. -/
theorem first_blocked {dob : List StoredBlock} {t₁ : Transfer} {n : Nat} (hhit : Hit s report r dob blocks) (hfinds : Finds s report v)
    (hopens : ∀ b ∈ blocks.head?, Opens v.alloc (report (r.block + 1)) b) (hfetch : fetch v (starting r dob) = (some b, t₁))
    (hblocked : ¬HeaderTaken s.client) (hn : blocks.length < n) :
    (processFurtherBlocks v s.client n (starting r dob)).pass.r.writeHandler = some .resumeDownload := by
  have hfetched := fetched_of_eq hfetch
  obtain ⟨rest, rfl, -⟩ := hfetched.next hfinds hhit.placed hhit.object.ne_nil
  obtain ⟨n, rfl⟩ : ∃ n', n = n' + 2 := ⟨n - 2, by rw [List.length_cons] at hn; omega⟩
  rw [processFurtherBlocks_first hhit hfinds hopens hfetch n rfl]
  have hunsent := opened_unsent (report (r.block + 1)) r.remOffset hfetched
  let t₂ := (opened (report (r.block + 1)) r.remOffset b (t₁.on entered)).on fun p => p.call (.addReadLock p.r.hash p.matchNum)
  have hpresent : t₂.pass.r.presReq = true := hunsent.present hhit.present
  have hnothing : t₂.writes = 0 ∧ t₂.headSent = 0 := hunsent.nothing
  have htwo : (sendHeader s.client t₂).1 = 2 := by
    apply sendHeader_blocked hpresent (hhit.stays _)
    rw [hnothing.1, hnothing.2]
    exact hblocked
  obtain ⟨hhandler, hthis2⟩ := startSending_blocked (report (r.block + 1)) b htwo
  have hstops :
      (startSending s.client (report (r.block + 1)) b
        (opened (report (r.block + 1)) r.remOffset b (t₁.on entered))).pass.this2 = false := by
    rw [hthis2]
    exact hunsent.this2
  rw [if_neg fun h => ne_true_of_eq_false hstops h.2]
  exact hhandler

end First

/-! ## Runs -/

section Runs

variable {s : Setting} {report : Nat → Report} {r : Response} {full : List Sent} {t : Transfer} {dob blocks : List StoredBlock}

theorem Underway.undisturbed (hunder : Underway s report r full t blocks) : Undisturbed full t where
  fault := hunder.fault
  type := hunder.type
  acts := hunder.acts
  client := ⟨_, (List.append_assoc ..).symm.trans hunder.full⟩
  deleted h := absurd h (ne_true_of_eq_false hunder.kept)

theorem Phase.undisturbed (hphase : Phase s report r full t blocks) : Undisturbed full t := by
  cases hphase with
  | ended hfault htype hacts hdeleted hidle hhandler hclient => exact ⟨hfault, htype, hacts, hclient ▸ List.prefix_rfl, fun _ => hclient⟩
  | atDisk hunder => exact hunder.undisturbed
  | atClient hunder => exact hunder.undisturbed

theorem resume_ended {n k : Nat} (hphase : Phase s report r full t blocks) (hdeleted : t.pass.r.lDel = true) : s.resume n k t = t := by
  cases hphase with
  | ended hfault htype hacts hdeleted hidle hhandler hclient =>
      unfold Setting.resume
      rw [hhandler]
      exact if_neg (ne_true_of_eq_false hidle)
  | atDisk hunder => exact absurd hdeleted (ne_true_of_eq_false hunder.kept)
  | atClient hunder => exact absurd hdeleted (ne_true_of_eq_false hunder.kept)

theorem Hit.finds (hhit : Hit s report r dob blocks) (k : Nat) : Finds s report (s.view k) := ⟨hhit.report k, hhit.found k⟩

/-- From a place where the hit waits on, it stays in such places, and until it is over the calls of `write` and the blocks that were
taken are as many as its steps. -/
theorem run_phase {n k₀ : Nat} (hhit : Hit s report r dob blocks) (hn : blocks.length < n)
    (hbegins : ∃ left, Phase s report r full (s.run n t k₀) left ∧ left.length ≤ blocks.length) (j : Nat) :
    ∃ left, Phase s report r full (s.run n t (k₀ + j)) left ∧ left.length ≤ blocks.length ∧
      ((s.run n t (k₀ + j)).pass.r.lDel = true ∨ j + left.length ≤ (s.run n t (k₀ + j)).writes + blocks.length) := by
  induction j with
  | zero =>
      obtain ⟨left, hphase, hleft⟩ := hbegins
      exact ⟨left, hphase, hleft, .inr (by rw [Nat.zero_add]; exact hleft.trans (Nat.le_add_left _ _))⟩
  | succ j ih =>
      obtain ⟨left, hphase, hleft, hcount⟩ := ih
      show ∃ left, Phase s report r full (s.resume n (k₀ + j + 1) (s.run n t (k₀ + j))) left ∧ _
      cases hlDel : (s.run n t (k₀ + j)).pass.r.lDel with
      | true =>
          have hsame : s.run n t (k₀ + (j + 1)) = s.run n t (k₀ + j) := resume_ended (k := k₀ + j + 1) hphase hlDel
          rw [resume_ended hphase hlDel, hsame]
          exact ⟨left, hphase, hleft, .inl hlDel⟩
      | false =>
          have hsteps := hcount.resolve_left (ne_true_of_eq_false hlDel)
          obtain ⟨left', hphase', hleft', hstep⟩ := resume_phase (k := k₀ + j + 1) hhit.stays hhit.finds hphase hlDel (hleft.trans_lt hn)
          refine ⟨left', hphase', hleft'.trans hleft, .inr ?_⟩
          show j + 1 + left'.length ≤ (s.resume n (k₀ + j + 1) (s.run n t (k₀ + j))).writes + blocks.length
          omega

/-- Only so many calls take something as there are bytes. -/
theorem Phase.counted (hphase : Phase s report r full t blocks) (hkept : t.pass.r.lDel = false) :
    taken s.client.write t.writes ≤ full.length + 1 := by
  have hlen := hphase.undisturbed.client.length_le
  cases hphase with
  | ended hfault htype hacts hdeleted => exact absurd hdeleted (ne_true_of_eq_false hkept)
  | atDisk hunder => exact hunder.counted.trans (Nat.add_le_add_right hlen 1)
  | atClient hunder => exact hunder.counted.trans (Nat.add_le_add_right hlen 1)

/-- A client that goes on to take bytes gets the hit to its end. -/
theorem run_ends {n k₀ : Nat} (hhit : Hit s report r dob blocks) (hn : blocks.length < n)
    (hbegins : ∃ left, Phase s report r full (s.run n t k₀) left ∧ left.length ≤ blocks.length)
    (htakes : {k | (s.client.write k).some = true}.Infinite) : ∃ k, (s.run n t k).pass.r.lDel = true := by
  obtain ⟨m, hm⟩ : ∃ m, taken s.client.write m = full.length + 2 := Nat.surjective_count_of_infinite_setOfPred htakes (full.length + 2)
  refine ⟨k₀ + (m + blocks.length), ?_⟩
  obtain ⟨left, hphase, -, hcount⟩ := run_phase hhit hn hbegins (m + blocks.length)
  by_contra hopen
  have hwrites := hcount.resolve_left hopen
  have hmore : taken s.client.write m ≤ taken s.client.write (s.run n t (k₀ + (m + blocks.length))).writes :=
    Nat.count_monotone _ (by omega)
  have hfew := hphase.counted (Bool.not_eq_true _ ▸ hopen)
  omega

theorem asked_again (v : View) (n : Nat) (hidle : r.map = false) (hlen : 0 < r.totalLen) :
    processFurtherBlocks v s.client n (((starting r dob).on askDisk).on fun p => { p with r := { p.r with map := false } }) =
      processFurtherBlocks v s.client n (starting r dob) := by
  have hr : { (askDisk (starting r dob).pass).r with map := false } = r := by
    rw [askDisk_r hidle hlen]
    show { r with map := false } = r
    rw [← hidle]
  exact congrArg (fun r' : Response => outerLoop v s.client n { starting r dob with pass := ⟨r', true, false, 0, []⟩ }) hr

/-- The first block is found by the first call, or by the one after the reply of the disk. -/
theorem run_begins (full : List Sent) (n : Nat) (hhit : Hit s report r dob blocks) (hn : 0 < n) :
    ∃ (k₀ : Nat) (v : View) (b : StoredBlock) (t₁ : Transfer), (∀ k < k₀, Undisturbed full (s.run n (starting r dob) k)) ∧
      Finds s report v ∧ (∀ b ∈ blocks.head?, Opens v.alloc (report (r.block + 1)) b) ∧ fetch v (starting r dob) = (some b, t₁) ∧
        s.run n (starting r dob) k₀ = processFurtherBlocks v s.client n (starting r dob) := by
  have hblocks := hhit.object.ne_nil
  have hnone (k : Nat) (hk : k < 0) : Undisturbed full (s.run n (starting r dob) k) := absurd hk (Nat.not_lt_zero k)
  rcases hhit.placed with ⟨hhoc, hlog⟩ | ⟨hdob, hleft⟩
  · cases hstore : (s.view 0).store r.remOffset with
    | some b =>
        exact ⟨0, s.view 0, b, (starting r dob).on fun p => p.call (.getBlock p.r.remOffset), hnone, hhit.finds 0,
          fun b hb => hhit.opens b hb 0, fetch_some hhoc hstore, rfl⟩
    | none =>
        obtain ⟨b, rest, rfl⟩ := List.exists_cons_of_ne_nil hblocks
        have hlen : 0 < r.totalLen := hlog.2.1
        have hr : ((starting r dob).on askDisk).pass.r = { r with map := true } := askDisk_r (p := (starting r dob).pass) hhit.idle hlen
        have hrun : s.run n (starting r dob) 0 = (starting r dob).on askDisk := by
          have hkept : ¬(starting r dob).pass.r.lDel = true := ne_true_of_eq_false hhit.kept
          have hfetch : fetch (s.view 0) (starting r dob) = (none, starting r dob) := fetch_none hhoc hstore
          obtain ⟨n, rfl⟩ := Nat.exists_eq_add_one.mpr hn
          show outerLoop (s.view 0) s.client (n + 1) (starting r dob) = _
          rw [outerLoop, if_neg hkept, hfetch]
        have hnext : s.run n (starting r dob) 1 =
            processFurtherBlocks ((s.view 1).loaded s.log r.remOffset) s.client n (starting r dob) := by
          show s.resume n 1 (s.run n (starting r dob) 0) = _
          rw [hrun, ← asked_again _ n hhit.idle hlen]
          unfold Setting.resume
          rw [hr, hhit.handler]
          rfl
        refine ⟨1, (s.view 1).loaded s.log r.remOffset, b, (starting r dob).on fun p => p.call (.getBlock p.r.remOffset), ?_,
          (hhit.finds 1).loaded _, fun b hb => hhit.opens b hb 1, fetch_loaded (t := starting r dob) (s.view 1) hhoc hlog.1, hnext⟩
        intro k hk
        obtain rfl : k = 0 := Nat.lt_one_iff.mp hk
        rw [hrun]
        refine ⟨rfl, ?_, fun _ h => (by cases h), List.nil_prefix, fun h => ?_⟩
        · rw [hr]
          exact hhit.type
        · rw [hr] at h
          exact absurd h (ne_true_of_eq_false hhit.kept)
  · obtain ⟨b, rest, rfl⟩ := List.exists_cons_of_ne_nil hblocks
    obtain ⟨t₁, hfetch⟩ : ∃ t₁, fetch (s.view 0) (starting r dob) = (some b, t₁) := by
      unfold fetch
      rw [hdob]
      simp only
      rw [hleft]
      exact ⟨_, rfl⟩
    exact ⟨0, s.view 0, b, t₁, hnone, hhit.finds 0, fun b hb => hhit.opens b hb 0, hfetch, rfl⟩

theorem resumeHeader_acts (c : Client) (t : Transfer) : t.acts <+: (resumeHeader c t).2.acts := by
  unfold resumeHeader
  split
  · exact List.prefix_rfl
  · unfold sendHeader
    simp only
    split
    · exact List.prefix_append _ _
    · split
      · exact List.prefix_append _ _
      · exact List.prefix_append _ _
      · split <;> exact List.prefix_append _ _

theorem sendData_acts (c : Client) (t : Transfer) : t.acts <+: (sendData c t).2.acts := by
  unfold sendData
  split
  · exact List.prefix_rfl
  · split
    · exact List.prefix_append _ _
    · exact List.prefix_rfl

theorem cacheCheck_acts (verdict : Verdict) (t : Transfer) : t.acts <+: (cacheCheck verdict t).acts := by
  unfold cacheCheck
  simp only
  split
  · split
    · exact (List.prefix_append _ _).trans (List.prefix_append _ _)
    · exact List.prefix_append _ _
  · exact List.prefix_rfl

theorem resumeDownload_table (verdict : Verdict) (c : Client) (t : Transfer) : .table t.fd ∈ (resumeDownload verdict c t).acts := by
  have hbegin : .table t.fd ∈ ((t.act (.table t.fd)).on (setHandler none)).acts := List.mem_append_right _ (List.mem_singleton_self _)
  have hheader := (resumeHeader_acts c ((t.act (.table t.fd)).on (setHandler none))).subset hbegin
  unfold resumeDownload
  simp only
  split
  · exact hheader
  · split
    · exact hheader
    · have hdata := (sendData_acts c ((resumeHeader c ((t.act (.table t.fd)).on (setHandler none))).2.on setSendHead)).subset hheader
      split
      · exact hdata
      · split
        · exact hdata
        · have hcheck := (cacheCheck_acts verdict ((sendData c ((resumeHeader c ((t.act (.table t.fd)).on (setHandler none))).2.on
            setSendHead)).2.on fun p => if p.r.type = .web then { p with r := { p.r with block := p.r.block + 1 } } else p)).subset hdata
          have hwrite := List.mem_append_left [.checkForWrite] hcheck
          split
          · exact hwrite
          · split <;> exact hwrite

/-- A hit goes as if no write ever blocked, for all that writes to the client may do, exactly if the call of `write` for the header takes
all of it. -/
theorem hit_unblocked_iff (s : Setting) (report : Nat → Report) (r : Response) (dob blocks : List StoredBlock) (n : Nat)
    (hhit : Hit s report r dob blocks) (hn : blocks.length < n) :
    Unblocked s n (starting r dob) (whole s.client report (r.block + 1) blocks) ↔
      ∃ m, s.client.write 0 = .takes m ∧ (s.client.header 0).length ≤ m := by
  obtain ⟨k₀, v, b, t₁, hbefore, hfinds, hopens, hfetch, hrun⟩ :=
    run_begins (whole s.client report (r.block + 1) blocks) n hhit (Nat.zero_lt_of_lt hn)
  constructor
  · intro hunblocked
    by_contra hblocked
    have hhandler := first_blocked hhit hfinds hopens hfetch hblocked hn
    have hnext : s.run n (starting r dob) (k₀ + 1) = resumeDownload s.verdict s.client (s.run n (starting r dob) k₀) := by
      show s.resume n (k₀ + 1) (s.run n (starting r dob) k₀) = _
      unfold Setting.resume
      rw [hrun, hhandler]
    have hacts := (hunblocked.always (k₀ + 1)).acts
    rw [hnext] at hacts
    exact nomatch hacts _ (resumeDownload_table s.verdict s.client _)
  · intro htaken
    have hbegins := first_taken hhit hfinds hopens hfetch htaken hn
    rw [← hrun] at hbegins
    refine ⟨fun k => ?_, fun htakes => run_ends hhit hn hbegins htakes⟩
    rcases lt_or_ge k k₀ with hk | hk
    · exact hbefore k hk
    · obtain ⟨j, rfl⟩ := Nat.exists_eq_add_of_le hk
      obtain ⟨left, hphase, -, -⟩ := run_phase hhit hn hbegins j
      exact hphase.undisturbed

end Runs

/-- The sample in memory, of which each block has one byte of the body. -/
def sampleSetting (c : Client) : Setting := ⟨(sampleEnv 0).store, fun _ => oneByte (sampleEnv 0).store, ⟨true, false, 0⟩, c⟩

def sampleBlocks : List StoredBlock := [sampleBlock false, sampleBlock true]

theorem sample_hit (c : Client) (hstays : ∀ k, c.write k ≠ .fails) :
    Hit (sampleSetting c) (fun _ => oneByteReport) sampleResponse [] sampleBlocks where
  type := rfl
  pstage := rfl
  present := rfl
  kept := rfl
  idle := rfl
  unsent := rfl
  handler := rfl
  object := .more ⟨by decide, by decide, by decide, by decide, by decide⟩ rfl (by decide)
    (.last ⟨by decide, by decide, by decide, by decide, by decide⟩ rfl)
  opens b hb k := by
    obtain rfl : sampleBlock false = b := Option.some.inj hb
    have hversion : checkVersion initHCFS (sampleBlock false).version (sampleBlock false).next := by decide
    exact ⟨by decide, fun _ => hversion, by decide, by decide, by decide⟩
  placed := .inl ⟨rfl, rfl, by decide, rfl, by decide, trivial⟩
  found _ _ _ h := h
  report _ := rfl
  stays := hstays

/-- A client that takes the header and then has room for one byte at every other time. -/
def slow : Client := ⟨fun _ => [72], fun k => if k % 2 = 0 then .takes 1 else .eagain⟩

/-- A client that has no room for the header at first. -/
def late : Client := ⟨fun _ => [72], fun k => if k = 0 then .eagain else .takes 8⟩

theorem hit_unblocked_sample :
    Unblocked (sampleSetting slow) 3 (starting sampleResponse []) (whole slow (fun _ => oneByteReport) 1 sampleBlocks) := by
  have hstays (k : Nat) : slow.write k ≠ .fails := by
    show (if k % 2 = 0 then Write.takes 1 else .eagain) ≠ .fails
    split <;> exact fun h => nomatch h
  exact (hit_unblocked_iff (sampleSetting slow) (fun _ => oneByteReport) sampleResponse [] sampleBlocks 3 (sample_hit slow hstays)
    (by decide)).mpr ⟨1, rfl, by decide⟩

/-- The header has to wait, and then the tables are read and written in front of their beginning, the stored object goes to a batch as
a download, and the client never gets its second block. -/
theorem header_waits : (∀ k, late.write k ≠ .fails) ∧
    ¬Unblocked (sampleSetting late) 3 (starting sampleResponse []) (whole late (fun _ => oneByteReport) 1 sampleBlocks) ∧
      ((sampleSetting late).run 3 (starting sampleResponse []) 1).acts =
        [.sendHeader, .table (-1), .sendHeader, .checkCachability, .addToBatch, .checkForWrite] ∧
      ∀ k, ((sampleSetting late).run 3 (starting sampleResponse []) (k + 1)).client = [.header 72, .body (sampleBlock false) 0] := by
  have hacts : ((sampleSetting late).run 3 (starting sampleResponse []) 1).acts =
      [.sendHeader, .table (-1), .sendHeader, .checkCachability, .addToBatch, .checkForWrite] := by decide
  have hidle : ((sampleSetting late).run 3 (starting sampleResponse []) 1).pass.r.writeHandler = none ∧
      ((sampleSetting late).run 3 (starting sampleResponse []) 1).pass.r.map = false := by decide
  have hsame (k : Nat) : (sampleSetting late).run 3 (starting sampleResponse []) (k + 1) =
      (sampleSetting late).run 3 (starting sampleResponse []) 1 := by
    induction k with
    | zero => rfl
    | succ k ih =>
        show (sampleSetting late).resume 3 (k + 2) ((sampleSetting late).run 3 (starting sampleResponse []) (k + 1)) = _
        rw [ih]
        unfold Setting.resume
        rw [hidle.1]
        exact if_neg (ne_true_of_eq_false hidle.2)
  refine ⟨fun k => ?_, fun hunblocked => ?_, hacts, fun k => ?_⟩
  · show (if k = 0 then Write.eagain else .takes 8) ≠ .fails
    split <;> exact fun h => nomatch h
  · have hnever := (hunblocked.always 1).acts (.table (-1)) (by rw [hacts]; decide)
    exact nomatch hnever
  · rw [hsame]
    decide

end BeagleCache.Hits

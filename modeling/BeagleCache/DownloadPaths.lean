import Mathlib.Tactic
import BeagleCache.BatchWheel
import BeagleCache.DirtyObjects
import BeagleCache.Downloads
import BeagleCache.HttpHeaders

/-! What is done with a response once its data has been sent to the client. `handleDownloadRead` has it for data that could be sent at
once and `resumeDownload`, written out a second time, for data that the client kept waiting. Only the first asks for `noCache`. -/

namespace BeagleCache.DownloadPaths

open BatchWheel (BatchKey)
open Downloads (ResponseType WriteStage largeLimit)
open Hcfs (actualBlockSize httpActBlockSize addlHeadSize)
open Serve (urlSize)

-- pointers, the blocks of a list, and what else the writes read and change
variable {ρ β ω : Type}

/-- "Close" and "close" -/
def bigClose : Bytes := [67, 108, 111, 115, 101]

def smallClose : Bytes := [99, 108, 111, 115, 101]

/-- What the two comparisons of a `conn` header give; there is none in `none`. -/
def Closing (conn : Bytes) : Prop := conn.take 5 = bigClose ∨ conn.take 5 = smallClose

instance (conn : Bytes) : Decidable (Closing conn) := inferInstanceAs (Decidable (_ ∨ _))

/-- The client. -/
structure Request where
  conn : Option Bytes

/-- A connection to a server. -/
structure Connection (ρ : Type) where
  self : ρ
  server : Option Bytes
  added : Bool
  inUse : Bool

structure Response (ρ β : Type) where
  self : ρ
  isPut : Bool
  URL : Bytes
  clientIP : BatchKey
  majVersion : Int
  code : Int
  cc : Option CacheControlResponse
  conn : Option Bytes
  con_len : Int
  status : Downloads.Status
  etype : EntityType
  type : ResponseType
  cacheable : Bool
  cacheCheck : Bool
  block : Nat
  used : Int
  pstage : WriteStage
  batchAdd : Bool
  allBlocks : List β
  /-- `logType` is `COMMONLOG`. -/
  logged : Bool
  /-- `dob` is not `NULL`. -/
  dob : Bool

/-- What is called when a response is through; none of them is asked for what it did. -/
inductive Call where
  | reInitHTTPRequest
  | delRequestTranLazy
  | delResponseTranLazy
  | manageConnection
  | delConnectionLazy
  deriving DecidableEq

structure State (ρ β ω : Type) where
  response : Response ρ β
  presReq : Option Request
  /-- `connTran` at the descriptor of the response. -/
  presentConn : Option (Connection ρ)
  connTab : Bytes → List ρ
  batches : BatchWheel.State ρ
  dirtyCache : DirtyObjects.State β
  calls : List Call
  rest : ω

def State.call (s : State ρ β ω) (c : Call) : State ρ β ω := { s with calls := s.calls ++ [c] }

def State.setInUse (s : State ρ β ω) (inUse : Bool) : State ρ β ω :=
  { s with presentConn := s.presentConn.map fun c => { c with inUse := inUse } }

/-! ## What both call -/

/-- What `checkCachability` looks for in the `Cache-Control` header. -/
def Allowed : Option CacheControlResponse → Prop
  | none => True
  | some cc =>
      (cc.ccPrivate = false ∧ cc.no_cache = false ∧ cc.no_store = false) ∧
        (cc.ccPublic = true ∨ cc.max_age ≠ -1 ∨ cc.s_maxage ≠ -1 ∨ cc.must_revalidate = true ∨ cc.proxy_revalidate = true)

instance : (cc : Option CacheControlResponse) → Decidable (Allowed cc)
  | none => inferInstanceAs (Decidable True)
  | some _ => inferInstanceAs (Decidable (_ ∧ _))

/-- What `checkCachability` looks for. -/
def Cachable (r : Response ρ β) : Prop :=
  r.isPut = true ∨ r.URL.length ≤ urlSize - 1 ∧ r.con_len < 1000000 ∧ r.code ∈ [200, 203, 206, 300, 301] ∧ Allowed r.cc

instance (r : Response ρ β) : Decidable (Cachable r) := inferInstanceAs (Decidable (_ ∨ _))

def checkCachability (r : Response ρ β) : Response ρ β :=
  if r.isPut = true then { r with cacheable := true }
  else
    let r := { r with cacheable := false }
    if urlSize - 1 < r.URL.length then r
    else if r.con_len < 1000000 then
      if r.code = 200 ∨ r.code = 203 ∨ r.code = 206 ∨ r.code = 300 ∨ r.code = 301 then
        match r.cc with
        | none => { r with cacheable := true }
        | some cc =>
            if cc.ccPrivate = true ∨ cc.no_cache = true ∨ cc.no_store = true then { r with cacheable := false }
            else if cc.ccPublic = true then { r with cacheable := true }
            else if cc.max_age ≠ -1 then { r with cacheable := true }
            else if cc.s_maxage ≠ -1 then { r with cacheable := true }
            else if cc.must_revalidate = true ∨ cc.proxy_revalidate = true then { r with cacheable := true }
            else r
      else r
    else r

/-- The part under `WEB`, which is the same in both. -/
def countBlock (s : State ρ β ω) : State ρ β ω :=
  if s.response.type = .WEB then
    let used := s.response.used
    let used :=
      if s.response.block = 1 then (if Downloads.Reaches used (actualBlockSize - addlHeadSize) then 0 else used)
      else if Downloads.Reaches used actualBlockSize then 0 else used
    { s with response := { s.response with used := used, block := s.response.block + 1 } }
  else s

/-- `false` is that -1 is returned. -/
def addConnectionToBase (s : State ρ β ω) (newConn : Connection ρ) : Bool × State ρ β ω :=
  match newConn.server with
  | none => (false, s)
  | some server =>
      if newConn.added = true then (false, s)
      else
        (true, { s with
          presentConn := some { newConn with added := true }
          connTab := Function.update s.connTab server (newConn.self :: s.connTab server) })

/-- The part under `PERSISTENT`, which is the same in both. -/
def addPersistent (s : State ρ β ω) : Bool × State ρ β ω :=
  match s.presentConn with
  | none => (true, s)
  | some presentConn =>
      if presentConn.added = false then
        if s.response.majVersion = 1 ∧ s.response.conn.any (fun conn => decide ¬Closing conn) = true then
          let presentConn := { presentConn with inUse := true }
          addConnectionToBase { s with presentConn := some presentConn } presentConn
        else (true, s)
      else (true, s)

def addToBatch (s : State ρ β ω) : State ρ β ω :=
  { s with batches := BatchWheel.addToBatch s.batches s.response.clientIP s.response.self }

/-- What the calls of `prepareWrite` in one of its loops leave of the response. -/
structure Written (β : Type) where
  failed : Bool
  block : Nat
  used : Int
  pstage : WriteStage
  allBlocks : List β

/-- Enough of the buffer is in use. -/
def Full (r : Response ρ β) : Prop := Downloads.Reaches r.used (if r.block = 1 then httpActBlockSize - addlHeadSize else httpActBlockSize)

instance (r : Response ρ β) : Decidable (Full r) := inferInstanceAs (Decidable (Downloads.Reaches _ _))

/-- Up to its loops, which end when nothing is left to write. -/
def checkForWrite (writes : Response ρ β → ω → Written β × ω) (s : State ρ β ω) : Bool × State ρ β ω :=
  let r := s.response
  if r.cacheable = true ∧ r.type = .DOWN ∧ (r.status = .ENTITY_COMPLETE ∨ Full r) then
    let w := writes r s.rest
    (!w.1.failed, { s with
      response := { r with block := w.1.block, used := w.1.used, pstage := w.1.pstage, allBlocks := w.1.allBlocks }
      rest := w.2 })
  else (true, s)

def persistentClient (presReq : Option Request) : Bool :=
  match presReq with
  | none => false
  | some q => !q.conn.any fun conn => decide (Closing conn)

def persistentConn (presentConn : Option (Connection ρ)) : Bool := presentConn.any Connection.added

/-- `none` is that the program exits. -/
def createDirtyObject (s : State ρ β ω) : Option (State ρ β ω) :=
  (DirtyObjects.createDirtyObject s.dirtyCache s.response.URL s.response.allBlocks).map fun p =>
    { s with dirtyCache := p.1, response := { s.response with dob := p.2 } }

/-! ## `handleDownloadRead` -/

/-- From where it is known whether the response can be cached. -/
def readStore (s : State ρ β ω) : State ρ β ω :=
  let r := s.response
  let s : State ρ β ω :=
    if r.cacheable = true then
      let s := { s with response := { r with type := .DOWN } }
      if largeLimit < r.con_len then { s with response := { r with type := .WEB, cacheable := false } }
      else
        let s := addToBatch s
        { s with response := { s.response with batchAdd := true } }
    else { s with response := { r with type := .WEB } }
  if s.response.type = .DOWN then { s with response := { s.response with pstage := .FIRST } } else s

/-- The part under `cacheCheck`. -/
def readCheck (noCache : Int) (s : State ρ β ω) : Bool × State ρ β ω :=
  let base := addPersistent s
  if base.1 = false then base
  else
    let r := checkCachability { base.2.response with cacheCheck := false }
    let r := if noCache = 1 then { r with cacheable := false } else r
    (true, readStore { base.2 with response := r })

/-- The part after `checkForWrite`. -/
def readEnd (s : State ρ β ω) : Option Int × State ρ β ω :=
  if s.response.status = .ENTITY_COMPLETE ∧ s.response.etype ≠ .conn then
    let s := { s with response := { s.response with logged := true } }
    let s := if persistentClient s.presReq = true then s.call .reInitHTTPRequest else s.call .delRequestTranLazy
    match if s.response.cacheable = true ∧ s.response.type ≠ .WEB then createDirtyObject s else some s with
    | none => (none, s)
    | some s =>
        let s := (s.call .delResponseTranLazy).setInUse false
        (some 0, if persistentConn s.presentConn ≠ true then s.call .delConnectionLazy else s.call .manageConnection)
  else if s.response.status = .CLOSED ∨ s.response.status = .ENTITY_COMPLETE ∧ s.response.etype = .conn then
    if s.response.etype = .conn then
      let s := { s with response := { s.response with logged := true } }
      let s := s.call .delRequestTranLazy
      match if s.response.cacheable = true ∧ s.response.type ≠ .WEB then createDirtyObject s else some s with
      | none => (none, s)
      | some s => (some 0, ((s.call .delResponseTranLazy).setInUse false).call .delConnectionLazy)
    else
      (some (-1), (((s.call .delRequestTranLazy).call .delResponseTranLazy).setInUse false).call .delConnectionLazy)
  else (some 0, s)

/-- From where `sendData` has returned 0. `none` is that the program exits. -/
def handleDownloadRead (noCache : Int) (writes : Response ρ β → ω → Written β × ω) (s : State ρ β ω) : Option Int × State ρ β ω :=
  let s := countBlock s
  let checked := if s.response.cacheCheck = true then readCheck noCache s else (true, s)
  if checked.1 = false then (some (-1), checked.2)
  else
    let written := checkForWrite writes checked.2
    if written.1 = false then (some (-1), written.2) else readEnd written.2

/-! ## `resumeDownload` -/

/-- From where it is known whether the response can be cached. -/
def resumeStore (s : State ρ β ω) : State ρ β ω :=
  let r := s.response
  let s : State ρ β ω :=
    if r.cacheable = true then
      let s := { s with response := { r with type := .DOWN } }
      if largeLimit < r.con_len then { s with response := { r with type := .WEB, cacheable := false } }
      else
        let s := addToBatch s
        { s with response := { s.response with batchAdd := true, type := .DOWN } }
    else { s with response := { r with type := .WEB } }
  if s.response.type = .DOWN then { s with response := { s.response with pstage := .FIRST } } else s

/-- The part under `cacheCheck`. -/
def resumeCheck (s : State ρ β ω) : Bool × State ρ β ω :=
  let base := addPersistent s
  if base.1 = false then base
  else
    let r := checkCachability { base.2.response with cacheCheck := false }
    (true, resumeStore { base.2 with response := r })

/-- The part after `checkForWrite`. The handlers that it sets at its end were set when it began. -/
def resumeEnd (s : State ρ β ω) : Option Int × State ρ β ω :=
  if s.response.status = .ENTITY_COMPLETE ∧ s.response.etype ≠ .conn then
    let s := { s with response := { s.response with logged := true } }
    let s := if persistentClient s.presReq = true then s.call .reInitHTTPRequest else s.call .delRequestTranLazy
    match if s.response.cacheable = true ∧ s.response.type ≠ .WEB then createDirtyObject s else some s with
    | none => (none, s)
    | some s =>
        let s := (s.call .delResponseTranLazy).setInUse false
        (some 0, if persistentConn s.presentConn ≠ true then s.call .delConnectionLazy else s.call .manageConnection)
  else if s.response.status = .CLOSED ∨ s.response.status = .ENTITY_COMPLETE ∧ s.response.etype = .conn then
    if s.response.etype = .conn then
      let s := { s with response := { s.response with logged := true } }
      let s := s.call .delRequestTranLazy
      match if s.response.cacheable = true ∧ s.response.type ≠ .WEB then createDirtyObject s else some s with
      | none => (none, s)
      | some s => (some 0, ((s.call .delResponseTranLazy).setInUse false).call .delConnectionLazy)
    else
      (some (-1), (((s.call .delRequestTranLazy).call .delResponseTranLazy).setInUse false).call .delConnectionLazy)
  else (some 0, s)

/-- From where `sendData` has returned 0. -/
def resumeDownload (writes : Response ρ β → ω → Written β × ω) (s : State ρ β ω) : Option Int × State ρ β ω :=
  let s := countBlock s
  let checked := if s.response.cacheCheck = true then resumeCheck s else (true, s)
  if checked.1 = false then (some (-1), checked.2)
  else
    let written := checkForWrite writes checked.2
    if written.1 = false then (some (-1), written.2) else resumeEnd written.2

/-! ## What they decide -/

section Decide

variable {noCache : Int} {s : State ρ β ω}

theorem checkCachability_cacheable (r : Response ρ β) : (checkCachability r).cacheable = true ↔ Cachable r := by
  unfold checkCachability Cachable Allowed
  by_cases hput : r.isPut = true
  · simp only [hput, if_true, true_or]
  · rw [if_neg hput, or_iff_right hput]
    by_cases hurl : urlSize - 1 < r.URL.length
    · simp [hurl, Nat.not_le.mpr hurl]
    · by_cases hcode : r.con_len < 1000000 ∧ r.code ∈ [200, 203, 206, 300, 301]
      · have hcode' : r.code = 200 ∨ r.code = 203 ∨ r.code = 206 ∨ r.code = 300 ∨ r.code = 301 := by simpa using hcode.2
        simp only [if_neg hurl, if_pos hcode', Nat.not_lt.mp hurl, hcode, true_and]
        cases r.cc with
        | none => exact iff_of_true rfl trivial
        | some cc =>
            dsimp only
            cases hpriv : cc.ccPrivate <;> cases hcache : cc.no_cache <;> cases hstore : cc.no_store <;>
              simp [apply_ite Response.cacheable, or_iff_not_imp_left]
      · have hno : ¬(r.con_len < 1000000 ∧ (r.code = 200 ∨ r.code = 203 ∨ r.code = 206 ∨ r.code = 300 ∨ r.code = 301)) :=
            by simpa using hcode
        refine iff_of_false ?_ fun h => hcode ⟨h.2.1, h.2.2.1⟩
        rw [if_neg hurl]
        by_cases hlen : r.con_len < 1000000
        · rw [if_pos hlen, if_neg fun hc => hno ⟨hlen, hc⟩]
          exact Bool.false_ne_true
        · rw [if_neg hlen]
          exact Bool.false_ne_true

theorem checkCachability_eq (r : Response ρ β) :
    ∃ cacheable, checkCachability r = { r with cacheable := cacheable } ∧ (cacheable = true ↔ Cachable r) := by
  have hite : ∀ (c : Prop) [Decidable c] {a b : Response ρ β}, (∃ v, a = { r with cacheable := v }) →
      (∃ v, b = { r with cacheable := v }) → ∃ v, (if c then a else b) = { r with cacheable := v } := by
    intro c _ a b ha hb
    split
    · exact ha
    · exact hb
  have hset : ∃ cacheable, checkCachability r = { r with cacheable := cacheable } := by
    refine hite _ ⟨_, rfl⟩ (hite _ ⟨_, rfl⟩ (hite _ (hite _ ?_ ⟨_, rfl⟩) ⟨_, rfl⟩))
    split
    · exact ⟨true, rfl⟩
    · exact hite _ ⟨_, rfl⟩ (hite _ ⟨_, rfl⟩ (hite _ ⟨_, rfl⟩ (hite _ ⟨_, rfl⟩ (hite _ ⟨_, rfl⟩ ⟨_, rfl⟩))))
  obtain ⟨cacheable, heq⟩ := hset
  have hiff := checkCachability_cacheable r
  rw [heq] at hiff
  exact ⟨cacheable, heq, hiff⟩

theorem checkCachability_once (r : Response ρ β) :
    ∃ cacheable, checkCachability { r with cacheCheck := false } = { r with cacheCheck := false, cacheable := cacheable } ∧
      (cacheable = true ↔ Cachable r) :=
  checkCachability_eq { r with cacheCheck := false }

/-- The connection has no name that it could be added to the base under. -/
def BaseFails (s : State ρ β ω) : Prop :=
  ∃ presentConn, s.presentConn = some presentConn ∧ presentConn.added = false ∧ presentConn.server = none ∧
    s.response.majVersion = 1 ∧ s.response.conn.any (fun conn => decide ¬Closing conn) = true

theorem addPersistent_fst (s : State ρ β ω) : (addPersistent s).1 = false ↔ BaseFails s := by
  unfold addPersistent BaseFails addConnectionToBase
  cases hconn : s.presentConn with
  | none => simp
  | some presentConn =>
      by_cases hadded : presentConn.added = false
      · simp only [Option.some.injEq, exists_eq_left', hadded, if_true, Bool.false_eq_true, if_false, true_and]
        by_cases hkeep : s.response.majVersion = 1 ∧ s.response.conn.any (fun conn => decide ¬Closing conn) = true
        · rw [if_pos hkeep]
          cases hserver : presentConn.server with
          | none => exact iff_of_true rfl ⟨rfl, hkeep⟩
          | some server => exact iff_of_false (fun h => nomatch h) fun h => nomatch h.1
        · rw [if_neg hkeep]
          exact iff_of_false (fun h => nomatch h) fun h => hkeep h.2
      · simp [hadded]

theorem addPersistent_snd (s : State ρ β ω) :
    ∃ presentConn connTab, (addPersistent s).2 = { s with presentConn := presentConn, connTab := connTab } := by
  unfold addPersistent addConnectionToBase
  dsimp only
  repeat' split
  all_goals exact ⟨_, _, rfl⟩

/-- The response goes into the batch. -/
def Stored (r : Response ρ β) : Prop := Cachable r ∧ r.con_len ≤ largeLimit

/-- What is left when the response has been put into a batch. -/
def stored (s : State ρ β ω) : State ρ β ω :=
  { addToBatch (addPersistent s).2 with
    response := { s.response with cacheCheck := false, cacheable := true, type := .DOWN, batchAdd := true, pstage := .FIRST } }

/-- What is left when it has not. -/
def unstored (s : State ρ β ω) : State ρ β ω :=
  { (addPersistent s).2 with response := { s.response with cacheCheck := false, cacheable := false, type := .WEB } }

/-- The copies of the last part differ in an assignment that does nothing. -/
theorem readStore_eq (s : State ρ β ω) : readStore s = resumeStore s := rfl

theorem resumeStore_stored (hcacheable : s.response.cacheable = true) (hsmall : s.response.con_len ≤ largeLimit) :
    resumeStore s = { addToBatch s with response := { s.response with type := .DOWN, batchAdd := true, pstage := .FIRST } } := by
  unfold resumeStore
  dsimp only
  rw [if_pos hcacheable, if_neg (Int.not_lt.mpr hsmall)]
  rfl

theorem resumeStore_unstored (h : ¬(s.response.cacheable = true ∧ s.response.con_len ≤ largeLimit)) :
    resumeStore s = { s with response := { s.response with cacheable := false, type := .WEB } } := by
  unfold resumeStore
  dsimp only
  by_cases hcacheable : s.response.cacheable = true
  · rw [if_pos hcacheable, if_pos (Int.not_le.mp fun hle => h ⟨hcacheable, hle⟩)]
    rfl
  · have hno : s.response.cacheable = false := by simpa using hcacheable
    rw [if_neg hcacheable, ← hno]
    rfl

theorem addPersistent_ok (h : ¬BaseFails s) : (addPersistent s).1 ≠ false := mt (addPersistent_fst s).mp h

theorem resumeCheck_stored (h : ¬BaseFails s) (hstored : Stored s.response) : resumeCheck s = (true, stored s) := by
  obtain ⟨presentConn, connTab, heq⟩ := addPersistent_snd s
  obtain ⟨cacheable, hcheck, hiff⟩ := checkCachability_once s.response
  obtain rfl : cacheable = true := hiff.mpr hstored.1
  unfold resumeCheck stored
  dsimp only
  rw [if_neg (addPersistent_ok h), heq, hcheck, resumeStore_stored]
  · rfl
  · rfl
  · exact hstored.2

theorem resumeCheck_unstored (h : ¬BaseFails s) (hstored : ¬Stored s.response) : resumeCheck s = (true, unstored s) := by
  obtain ⟨presentConn, connTab, heq⟩ := addPersistent_snd s
  obtain ⟨cacheable, hcheck, hiff⟩ := checkCachability_once s.response
  unfold resumeCheck unstored
  dsimp only
  rw [if_neg (addPersistent_ok h), heq, hcheck, resumeStore_unstored]
  exact fun hs => hstored ⟨hiff.mp hs.1, hs.2⟩

theorem readCheck_noCache (h : ¬BaseFails s) (hno : noCache = 1) : readCheck noCache s = (true, unstored s) := by
  obtain ⟨presentConn, connTab, heq⟩ := addPersistent_snd s
  obtain ⟨cacheable, hcheck, hiff⟩ := checkCachability_once s.response
  unfold readCheck unstored
  dsimp only
  rw [if_neg (addPersistent_ok h), if_pos hno, heq, hcheck, readStore_eq, resumeStore_unstored]
  exact fun hs => Bool.false_ne_true hs.1

theorem readCheck_cache (hno : noCache ≠ 1) : readCheck noCache s = resumeCheck s := by
  unfold readCheck resumeCheck
  dsimp only
  rw [if_neg hno, readStore_eq]

theorem readCheck_of_fails (h : BaseFails s) : readCheck noCache s = resumeCheck s := by
  unfold readCheck resumeCheck
  dsimp only
  rw [if_pos ((addPersistent_fst s).mpr h), if_pos ((addPersistent_fst s).mpr h)]

end Decide

/-! ## What the rest leaves alone -/

section Kept

variable {noCache : Int} {writes : Response ρ β → ω → Written β × ω} {s s' t : State ρ β ω}

/-- Nothing is decided about the cache. -/
structure Kept (s s' : State ρ β ω) : Prop where
  self : s'.response.self = s.response.self
  clientIP : s'.response.clientIP = s.response.clientIP
  cacheable : s'.response.cacheable = s.response.cacheable
  cacheCheck : s'.response.cacheCheck = s.response.cacheCheck
  batchAdd : s'.response.batchAdd = s.response.batchAdd
  batches : s'.batches = s.batches

theorem Kept.refl (s : State ρ β ω) : Kept s s := ⟨rfl, rfl, rfl, rfl, rfl, rfl⟩

theorem Kept.trans (h : Kept s s') (h' : Kept s' t) : Kept s t where
  self := h'.self.trans h.self
  clientIP := h'.clientIP.trans h.clientIP
  cacheable := h'.cacheable.trans h.cacheable
  cacheCheck := h'.cacheCheck.trans h.cacheCheck
  batchAdd := h'.batchAdd.trans h.batchAdd
  batches := h'.batches.trans h.batches

theorem countBlock_eq (s : State ρ β ω) :
    ∃ used block, countBlock s = { s with response := { s.response with used := used, block := block } } := by
  unfold countBlock
  dsimp only
  split
  · exact ⟨_, _, rfl⟩
  · exact ⟨_, _, rfl⟩

theorem baseFails_countBlock (s : State ρ β ω) : BaseFails (countBlock s) ↔ BaseFails s := by
  obtain ⟨used, block, heq⟩ := countBlock_eq s
  rw [heq]
  exact Iff.rfl

theorem stored_countBlock (s : State ρ β ω) : Stored (countBlock s).response ↔ Stored s.response := by
  obtain ⟨used, block, heq⟩ := countBlock_eq s
  rw [heq]
  exact Iff.rfl

theorem kept_countBlock (s : State ρ β ω) : Kept s (countBlock s) := by
  obtain ⟨used, block, heq⟩ := countBlock_eq s
  rw [heq]
  exact ⟨rfl, rfl, rfl, rfl, rfl, rfl⟩

theorem kept_addPersistent (s : State ρ β ω) : Kept s (addPersistent s).2 := by
  obtain ⟨presentConn, connTab, heq⟩ := addPersistent_snd s
  rw [heq]
  exact ⟨rfl, rfl, rfl, rfl, rfl, rfl⟩

theorem kept_checkForWrite (writes : Response ρ β → ω → Written β × ω) (s : State ρ β ω) : Kept s (checkForWrite writes s).2 := by
  unfold checkForWrite
  dsimp only
  split
  · exact ⟨rfl, rfl, rfl, rfl, rfl, rfl⟩
  · exact .refl s

theorem kept_createDirtyObject {c : Prop} [Decidable c] (h : (if c then createDirtyObject s else some s) = some s') : Kept s s' := by
  split at h
  · obtain ⟨p, -, rfl⟩ := Option.map_eq_some_iff.mp h
    exact ⟨rfl, rfl, rfl, rfl, rfl, rfl⟩
  · cases h
    exact .refl s

theorem Kept.call (h : Kept s s') (c : Call) : Kept s (s'.call c) := ⟨h.self, h.clientIP, h.cacheable, h.cacheCheck, h.batchAdd, h.batches⟩

theorem Kept.setInUse (h : Kept s s') (inUse : Bool) : Kept s (s'.setInUse inUse) :=
  ⟨h.self, h.clientIP, h.cacheable, h.cacheCheck, h.batchAdd, h.batches⟩

theorem kept_logged (s : State ρ β ω) : Kept s { s with response := { s.response with logged := true } } :=
  ⟨rfl, rfl, rfl, rfl, rfl, rfl⟩

theorem kept_resumeEnd (s : State ρ β ω) : Kept s (resumeEnd s).2 := by
  unfold resumeEnd
  dsimp only
  split
  · have hclient : Kept s (if persistentClient s.presReq = true then
        State.call { s with response := { s.response with logged := true } } .reInitHTTPRequest
      else State.call { s with response := { s.response with logged := true } } .delRequestTranLazy) := by
      split
      · exact (kept_logged s).call _
      · exact (kept_logged s).call _
    split
    · exact hclient
    · next hdirty =>
        have hkept := ((hclient.trans (kept_createDirtyObject hdirty)).call .delResponseTranLazy).setInUse false
        split
        · exact hkept.call _
        · exact hkept.call _
  · split
    · split
      · split
        · exact (kept_logged s).call _
        · next hdirty =>
            have hkept := ((kept_logged s).call .delRequestTranLazy).trans (kept_createDirtyObject hdirty)
            exact ((hkept.call _).setInUse _).call _
      · exact ((((Kept.refl s).call _).call _).setInUse _).call _
    · exact .refl s

theorem readEnd_eq (s : State ρ β ω) : readEnd s = resumeEnd s := rfl

theorem kept_handleDownloadRead (hcheck : s.response.cacheCheck = true) :
    Kept (readCheck noCache (countBlock s)).2 (handleDownloadRead noCache writes s).2 := by
  unfold handleDownloadRead
  dsimp only
  rw [(kept_countBlock s).cacheCheck, if_pos hcheck]
  split
  · exact .refl _
  · split
    · exact kept_checkForWrite writes _
    · rw [readEnd_eq]
      exact (kept_checkForWrite writes _).trans (kept_resumeEnd _)

theorem kept_resumeDownload (hcheck : s.response.cacheCheck = true) :
    Kept (resumeCheck (countBlock s)).2 (resumeDownload writes s).2 := by
  unfold resumeDownload
  dsimp only
  rw [(kept_countBlock s).cacheCheck, if_pos hcheck]
  split
  · exact .refl _
  · split
    · exact kept_checkForWrite writes _
    · exact (kept_checkForWrite writes _).trans (kept_resumeEnd _)

/-- Nothing is decided a second time. -/
theorem kept_resumeDownload_checked (hcheck : s.response.cacheCheck ≠ true) : Kept s (resumeDownload writes s).2 := by
  unfold resumeDownload
  dsimp only
  rw [(kept_countBlock s).cacheCheck, if_neg hcheck, if_neg fun h => nomatch h]
  have hwritten := (kept_countBlock s).trans (kept_checkForWrite writes _)
  split
  · exact hwritten
  · exact hwritten.trans (kept_resumeEnd _)

theorem handleDownloadRead_eq (h : s.response.cacheCheck = true → readCheck noCache (countBlock s) = resumeCheck (countBlock s)) :
    handleDownloadRead noCache writes s = resumeDownload writes s := by
  have hchecked : (if (countBlock s).response.cacheCheck = true then readCheck noCache (countBlock s) else (true, countBlock s)) =
      if (countBlock s).response.cacheCheck = true then resumeCheck (countBlock s) else (true, countBlock s) :=
    ite_congr rfl (fun hcheck => h ((kept_countBlock s).cacheCheck ▸ hcheck)) fun _ => rfl
  unfold handleDownloadRead resumeDownload
  dsimp only
  rw [hchecked]
  rfl

/-- `noCache` is set for a response that `resumeDownload` puts into its batch. -/
structure Refused (noCache : Int) (s : State ρ β ω) : Prop where
  noCache : noCache = 1
  cacheCheck : s.response.cacheCheck = true
  base : ¬BaseFails s
  stored : Stored s.response

theorem handleDownloadRead_refused (writes : Response ρ β → ω → Written β × ω) (h : Refused noCache s) :
    (handleDownloadRead noCache writes s).2.response.cacheable = false := by
  have hbase : ¬BaseFails (countBlock s) := mt (baseFails_countBlock s).mp h.base
  rw [(kept_handleDownloadRead h.cacheCheck).cacheable, readCheck_noCache hbase h.noCache]
  rfl

theorem resumeDownload_refused (writes : Response ρ β → ω → Written β × ω) (h : Refused noCache s) :
    (resumeDownload writes s).2.response.cacheable = true := by
  have hbase : ¬BaseFails (countBlock s) := mt (baseFails_countBlock s).mp h.base
  rw [(kept_resumeDownload h.cacheCheck).cacheable, resumeCheck_stored hbase ((stored_countBlock s).mpr h.stored)]
  rfl

theorem readCheck_of_not_refused (h : ¬Refused noCache s) (hcheck : s.response.cacheCheck = true) :
    readCheck noCache (countBlock s) = resumeCheck (countBlock s) := by
  by_cases hno : noCache = 1
  · by_cases hfails : BaseFails (countBlock s)
    · exact readCheck_of_fails hfails
    · have hstored : ¬Stored (countBlock s).response := fun hstored =>
        h ⟨hno, hcheck, mt (baseFails_countBlock s).mpr hfails, (stored_countBlock s).mp hstored⟩
      rw [readCheck_noCache hfails hno, resumeCheck_unstored hfails hstored]
  · exact readCheck_cache hno

end Kept

/-! ## One response in the batches -/

/-- What `parseResponse` reads of the response, and what else it changes. -/
structure Parsed (ω : Type) where
  majVersion : Int
  code : Int
  cc : Option CacheControlResponse
  conn : Option Bytes
  con_len : Int
  status : Downloads.Status
  etype : EntityType
  used : Int
  rest : ω

def parseResponse (s : State ρ β ω) (parsed : Parsed ω) : State ρ β ω :=
  { s with
    response := { s.response with
      majVersion := parsed.majVersion
      code := parsed.code
      cc := parsed.cc
      conn := parsed.conn
      con_len := parsed.con_len
      status := parsed.status
      etype := parsed.etype
      used := parsed.used }
    rest := parsed.rest }

/-- What happens to a response until it is complete; which of the last two depends on the client. -/
inductive Event (ω : Type) where
  | parseResponse (parsed : Parsed ω)
  | handleDownloadRead
  | resumeDownload

def next (noCache : Int) (writes : Response ρ β → ω → Written β × ω) (s : State ρ β ω) : Event ω → State ρ β ω
  | .parseResponse parsed => parseResponse s parsed
  | .handleDownloadRead => (handleDownloadRead noCache writes s).2
  | .resumeDownload => (resumeDownload writes s).2

section Filed

variable [DecidableEq ρ] {noCache : Int} {writes : Response ρ β → ω → Written β × ω} {s s' : State ρ β ω}

/-- What is in the batch of a client. -/
def listed (batches : BatchWheel.State ρ) (ip : BatchKey) : List ρ :=
  ((batches.currentBatches ip).elim [] BatchWheel.Batch.urls).map BatchWheel.BatchElement.dat

omit [DecidableEq ρ] in
theorem listed_addToBatch (batches : BatchWheel.State ρ) (ip ip' : BatchKey) (dat : ρ) :
    listed (BatchWheel.addToBatch batches ip dat) ip' = if ip' = ip then listed batches ip ++ [dat] else listed batches ip' := by
  unfold listed BatchWheel.addToBatch BatchWheel.formNewBatch BatchWheel.State.setBatch BatchWheel.State.setList
  by_cases hip : ip' = ip
  · subst hip
    rw [if_pos rfl]
    cases hb : batches.currentBatches ip' with
    | none => dsimp only; split <;> simp
    | some b => dsimp only; split <;> simp
  · rw [if_neg hip]
    cases hb : batches.currentBatches ip with
    | none => dsimp only; split <;> simp [hip]
    | some b => dsimp only; split <;> simp [hip]

/-- The response is in its batch once if it has been added, and in no other. -/
structure Filed (s : State ρ β ω) : Prop where
  elsewhere : ∀ ip, ip ≠ s.response.clientIP → (listed s.batches ip).count s.response.self = 0
  once : (listed s.batches s.response.clientIP).count s.response.self = if s.response.batchAdd = true then 1 else 0
  unchecked : s.response.cacheCheck = true → s.response.batchAdd = false

theorem Filed.kept (h : Filed s) (hkept : Kept s s') : Filed s' where
  elsewhere := by
    rw [hkept.clientIP, hkept.batches, hkept.self]
    exact h.elsewhere
  once := by
    rw [hkept.clientIP, hkept.batches, hkept.self, hkept.batchAdd]
    exact h.once
  unchecked := by
    rw [hkept.cacheCheck, hkept.batchAdd]
    exact h.unchecked

theorem Filed.unstored (h : Filed s) : Filed (DownloadPaths.unstored s) where
  elsewhere := by
    unfold DownloadPaths.unstored
    rw [(kept_addPersistent s).batches]
    exact h.elsewhere
  once := by
    unfold DownloadPaths.unstored
    rw [(kept_addPersistent s).batches]
    exact h.once
  unchecked := fun hcheck => nomatch hcheck

theorem Filed.stored (h : Filed s) (hcheck : s.response.cacheCheck = true) : Filed (DownloadPaths.stored s) := by
  have hbatches : (DownloadPaths.stored s).batches = BatchWheel.addToBatch s.batches s.response.clientIP s.response.self := by
    unfold DownloadPaths.stored addToBatch
    rw [(kept_addPersistent s).batches, (kept_addPersistent s).clientIP, (kept_addPersistent s).self]
  refine ⟨fun ip hip => ?_, ?_, fun hcheck' => nomatch hcheck'⟩
  · have hip' : ip ≠ s.response.clientIP := hip
    rw [hbatches, listed_addToBatch, if_neg hip']
    exact h.elsewhere ip hip'
  · have hnone : (listed s.batches s.response.clientIP).count s.response.self = 0 := by rw [h.once, h.unchecked hcheck]; rfl
    rw [hbatches, listed_addToBatch]
    show (if s.response.clientIP = s.response.clientIP then _ else _ : List ρ).count s.response.self = 1
    rw [if_pos rfl, List.count_append, hnone, List.count_singleton_self]

theorem Filed.resumeCheck (h : Filed s) (hcheck : s.response.cacheCheck = true) : Filed (resumeCheck s).2 := by
  by_cases hfails : BaseFails s
  · have heq : DownloadPaths.resumeCheck s = addPersistent s := by
      unfold DownloadPaths.resumeCheck
      dsimp only
      rw [if_pos ((addPersistent_fst s).mpr hfails)]
    rw [heq]
    exact h.kept (kept_addPersistent s)
  · by_cases hstored : Stored s.response
    · rw [resumeCheck_stored hfails hstored]
      exact h.stored hcheck
    · rw [resumeCheck_unstored hfails hstored]
      exact h.unstored

theorem Filed.readCheck (h : Filed s) (hcheck : s.response.cacheCheck = true) : Filed (readCheck noCache s).2 := by
  by_cases hno : noCache = 1
  · by_cases hfails : BaseFails s
    · rw [readCheck_of_fails hfails]
      exact h.resumeCheck hcheck
    · rw [readCheck_noCache hfails hno]
      exact h.unstored
  · rw [readCheck_cache hno]
    exact h.resumeCheck hcheck

theorem Filed.resumeDownload (h : Filed s) : Filed (resumeDownload writes s).2 := by
  by_cases hcheck : s.response.cacheCheck = true
  · have hcounted := h.kept (kept_countBlock s)
    exact (hcounted.resumeCheck ((kept_countBlock s).cacheCheck.trans hcheck)).kept (kept_resumeDownload hcheck)
  · exact h.kept (kept_resumeDownload_checked hcheck)

theorem Filed.handleDownloadRead (h : Filed s) : Filed (handleDownloadRead noCache writes s).2 := by
  by_cases hcheck : s.response.cacheCheck = true
  · have hcounted := h.kept (kept_countBlock s)
    exact (hcounted.readCheck ((kept_countBlock s).cacheCheck.trans hcheck)).kept (kept_handleDownloadRead hcheck)
  · rw [handleDownloadRead_eq fun hcheck' => absurd hcheck' hcheck]
    exact h.kept (kept_resumeDownload_checked hcheck)

theorem Filed.next (h : Filed s) (e : Event ω) : Filed (next noCache writes s e) := by
  cases e with
  | parseResponse parsed => exact h.kept ⟨rfl, rfl, rfl, rfl, rfl, rfl⟩
  | handleDownloadRead => exact h.handleDownloadRead
  | resumeDownload => exact h.resumeDownload

theorem Filed.foldl (h : Filed s) (events : List (Event ω)) : Filed (events.foldl (DownloadPaths.next noCache writes) s) := by
  induction events generalizing s with
  | nil => exact h
  | cons e events ih => exact ih (h.next e)

/-- The two return the same and leave the same of everything; and whichever of them has the data, now and later, the response is in its
batch exactly once when it has been added. -/
structure Agree (noCache : Int) (writes : Response ρ β → ω → Written β × ω) (s : State ρ β ω) : Prop where
  same : handleDownloadRead noCache writes s = resumeDownload writes s
  once : ∀ events : List (Event ω), Filed s → Filed (events.foldl (next noCache writes) s)

theorem agree_iff (noCache : Int) (writes : Response ρ β → ω → Written β × ω) (s : State ρ β ω) :
    Agree noCache writes s ↔ ¬Refused noCache s := by
  constructor
  · intro h hrefused
    have hread := handleDownloadRead_refused writes hrefused
    rw [h.same, resumeDownload_refused writes hrefused] at hread
    exact Bool.false_ne_true hread.symm
  · intro h
    exact ⟨handleDownloadRead_eq (readCheck_of_not_refused h), fun events hfiled => hfiled.foldl events⟩

/-- A page that can be stored comes in while `noCache` is set. -/
def page : State Nat Nat Unit where
  response :=
    { self := 1, isPut := false, URL := [47], clientIP := 5, majVersion := 1, code := 200, cc := none, conn := none, con_len := 10
      status := .OTHER, etype := .clen, type := .CACHE, cacheable := false, cacheCheck := true, block := 1, used := 10
      pstage := .REM, batchAdd := false, allBlocks := [], logged := false, dob := false }
  presReq := some ⟨none⟩
  presentConn := none
  connTab := fun _ => []
  batches := BatchWheel.initBatchSystem
  dirtyCache := DirtyObjects.initDirtyCache
  calls := []
  rest := ()

/-- It is stored if the client could not take its data at once, and else it is not. -/
theorem paths_differ : ∃ (noCache : Int) (writes : Response Nat Nat → Unit → Written Nat × Unit) (s : State Nat Nat Unit),
    (handleDownloadRead noCache writes s).2.response.cacheable = false ∧ (resumeDownload writes s).2.response.cacheable = true ∧
      listed (handleDownloadRead noCache writes s).2.batches 5 = [] ∧ listed (resumeDownload writes s).2.batches 5 = [1] ∧
      ¬Agree noCache writes s := by
  refine ⟨1, fun r _ => (⟨false, r.block, r.used, r.pstage, r.allBlocks⟩, ()), page, by decide, by decide, by decide, by decide, ?_⟩
  intro h
  have hread :
      (handleDownloadRead 1 (fun r _ => (⟨false, r.block, r.used, r.pstage, r.allBlocks⟩, ())) page).2.response.cacheable = false := by
    decide
  rw [h.same] at hread
  exact absurd hread (by decide)

end Filed

end BeagleCache.DownloadPaths

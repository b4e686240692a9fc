import Mathlib.Tactic
import BeagleCache.RightObject

/-! `joinFlow`, which looks for a request in the table of the flows, the dirty objects and the index, and what it and `processFurtherBlocks`
answer to a WAPROX-GET, which must not leave the cache. -/

namespace BeagleCache.Hits

open Hcfs Serve

/-! ## The answers -/

/-- A request is answered with the header of the stored object or with `sendNegReply`, or it leaves the cache. -/
def Act.isAnswer : Act → Bool
  | .sendHeader | .sendNegReply | .searchAndConnect => true
  | _ => false

def Transfer.answers (t : Transfer) : List Act := t.acts.filter Act.isAnswer

section Answers

variable {a : Alloc} {c : Client} {rep : Report} {off : Int} {b : StoredBlock} {t : Transfer} {v : View}

@[simp] theorem on_answers (f : Pass → Pass) : (t.on f).answers = t.answers := rfl

@[simp] theorem stop_answers (f : Fault) : (t.stop f).answers = t.answers := rfl

@[simp] theorem parseResponse_answers : (parseResponse rep off b t).answers = t.answers := rfl

theorem act_answers (t : Transfer) (a : Act) : (t.act a).answers = t.answers ++ [a].filter Act.isAnswer := List.filter_append ..

@[simp] theorem readyForDownload_answers (rep : Report) (t : Transfer) :
    (readyForDownload rep t).answers = t.answers ++ [.searchAndConnect] := act_answers t _

@[simp] theorem discard_answers : (discard rep off t).answers = t.answers ++ [.searchAndConnect] := act_answers t _

@[simp] theorem sendNegReply_answers : (sendNegReply t).answers = t.answers ++ [.sendNegReply] := by
  unfold sendNegReply
  simp only
  split <;> exact act_answers t _

@[simp] theorem sendHeader_answers : (sendHeader c t).2.answers = t.answers ++ [.sendHeader] := by
  have hact : (t.act .sendHeader).answers = t.answers ++ [.sendHeader] := act_answers t _
  unfold sendHeader
  simp only
  split
  · exact hact
  · split
    · exact hact
    · exact hact
    · split <;> exact hact

@[simp] theorem sendData_answers : (sendData c t).2.answers = t.answers := by
  unfold sendData
  split
  · rfl
  · split
    · exact (act_answers t (.table t.fd)).trans (List.append_nil _)
    · rfl

@[simp] theorem deliver_answers (removes : Bool) : (deliver removes c rep b t).answers = t.answers := sendData_answers

theorem startSending_answers : (startSending c rep b t).answers = t.answers ++ [.sendHeader] := by
  have hheader : (sendHeader c (t.on fun p => p.call (.addReadLock p.r.hash p.matchNum))).2.answers = t.answers ++ [.sendHeader] :=
    sendHeader_answers
  unfold startSending
  simp only
  split
  · exact hheader
  · split
    · exact hheader
    · split
      · exact hheader
      · exact (deliver_answers true).trans hheader

/-! ## Blocks after the first -/

theorem sendingPass_answers (c : Client) (rep : Report) (off : Int) (b : StoredBlock) (t : Transfer) :
    (sendingPass c rep off b t).answers = t.answers ∧
      ((sendingPass c rep off b t).fault ≠ none ∨ (sendingPass c rep off b t).pass.thisFlag = false) := by
  unfold sendingPass
  simp only [on_pass]
  split
  · exact ⟨rfl, .inr rfl⟩
  · split
    · exact ⟨rfl, .inl (fun h => nomatch h)⟩
    · split
      · exact ⟨rfl, .inr rfl⟩
      · exact ⟨deliver_answers false, .inr (deliver_leaves false _ b _).thisFlag⟩

/-- A response that is not served from the cache any more, or that is deleted. -/
def Left (t : Transfer) : Prop := t.pass.r.lDel = true ∨ ¬(t.pass.r.type = .cache ∨ t.pass.r.type = .follow)

theorem innerLoop_left (n : Nat) (hleft : Left t) : (innerLoop a c rep off b n t).answers = t.answers ∧
    (innerLoop a c rep off b n t).pass.this2 = t.pass.this2 := by
  induction n generalizing t with
  | zero => exact ⟨rfl, rfl⟩
  | succ n ih =>
      by_cases hlDel : t.pass.r.lDel = true
      · have hpass : innerPass a c rep off b t = t.on fun p => { p with r := delResponseTranLazy p.r, thisFlag := false } := if_pos hlDel
        rw [innerLoop_last (.inr (hpass ▸ rfl)), hpass]
        exact ⟨rfl, rfl⟩
      · have hpass : innerPass a c rep off b t = t := (if_neg hlDel).trans (if_neg (hleft.resolve_left hlDel))
        rw [innerLoop, hpass]
        split
        · exact ih hleft
        · exact ⟨rfl, rfl⟩

theorem innerPass_sending (hlDel : ¬t.pass.r.lDel = true) (htype : t.pass.r.type = .cache ∨ t.pass.r.type = .follow)
    (hstage : t.pass.r.pstage = .sending) : innerPass a c rep off b t = sendingPass c rep off b t := by
  rw [innerPass_stage a c rep off b (Bool.eq_false_of_not_eq_true hlDel) htype, hstage]

theorem innerLoop_sending_answers (a : Alloc) (c : Client) (rep : Report) (off : Int) (b : StoredBlock) (n : Nat)
    (hstage : t.pass.r.pstage = .sending) : (innerLoop a c rep off b n t).answers = t.answers := by
  by_cases hleft : Left t
  · exact (innerLoop_left n hleft).1
  · cases n with
    | zero => rfl
    | succ n =>
        obtain ⟨hlDel, htype⟩ := not_or.mp hleft
        have hpass : innerPass a c rep off b t = sendingPass c rep off b t := innerPass_sending hlDel (not_not.mp htype) hstage
        obtain ⟨hanswers, hlast⟩ := sendingPass_answers c rep off b t
        rw [innerLoop_last (hpass.symm ▸ hlast), hpass, hanswers]

theorem fetch_answers (v : View) (t : Transfer) : (fetch v t).2.answers = t.answers := by
  unfold fetch
  split
  · split <;> rfl
  · split
    · show (if v.inHOC = true then _ else _ : Transfer).answers = _
      split <;> rfl
    · rfl

/-- A response in the stage SENDING was answered before. -/
theorem outerLoop_sending_answers (n : Nat) (hfault : t.fault = none) (hstage : t.pass.r.pstage = .sending)
    (hthis2 : t.pass.this2 = false) :
    (outerLoop v c n t).answers = t.answers := by
  induction n generalizing t with
  | zero => rfl
  | succ n ih =>
      rw [outerLoop]
      split
      · rfl
      · have hfetch {b : StoredBlock} {t' : Transfer} (h : fetch v t = (some b, t')) : Fetched v t b t' := fetched_of_eq h
        have hanswers := fetch_answers v t
        generalize fetch v t = got at hfetch hanswers ⊢
        obtain ⟨found, t₁⟩ := got
        cases found with
        | none => exact hanswers
        | some b =>
            have hfetched := hfetch rfl
            have hfault₁ : t₁.fault = none := by rw [hfetched.same]; exact hfault
            have hstage₁ : (t₁.on entered).pass.r.pstage = .sending := by
              show t₁.pass.r.pstage = _
              rw [hfetched.r]
              exact hstage
            have hloop := (innerLoop_sending_answers v.alloc c (v.report (t₁.pass.r.block + 1)) t.pass.r.remOffset b (n + 1) hstage₁).trans
              hanswers
            have hleads := innerLoop_leads v.alloc c (v.report (t₁.pass.r.block + 1)) t.pass.r.remOffset b
              (n + 1) (t := t₁.on entered) hfault₁ rfl
            simp only
            generalize innerLoop v.alloc c (v.report (t₁.pass.r.block + 1)) t.pass.r.remOffset b (n + 1) (t₁.on entered) = t₂
              at hloop hleads ⊢
            split
            · rename_i hmore
              have hgoes := (hleads hmore.1).1.sending (hfetched.this2.trans hthis2) hmore.2
              exact (ih (t := t₂.on fun p => { p with this2 := false }) hmore.1 hgoes rfl).trans hloop
            · exact hloop

/-! ## The first block -/

/-- The first block of the object misses: it has another URL, it cannot be read, it is deleted, it cannot be parsed, it has expired, or
it is not what the request can take. -/
def Misses (a : Alloc) (rep : Report) (r : Response) (b : StoredBlock) : Prop :=
  getBestMatch r b = -1 ∨ Refused a b ∨ rep.parsed = buffFull ∨ Unparsed rep ∨ rep.expiry = -1 ∨ rep.compatibility = -1

instance (a : Alloc) (rep : Report) (r : Response) (b : StoredBlock) : Decidable (Misses a rep r b) := inferInstanceAs (Decidable (_ ∨ _))

/-- What is answered to a response that waits for its first block. -/
def firstAnswer (a : Alloc) (rep : Report) (r : Response) (b : StoredBlock) : List Act :=
  if getBestMatch r b = -1 then [.sendNegReply]
  else if Refused a b then [.searchAndConnect]
  else if rep.parsed = buffFull then []
  else if Unparsed rep ∨ rep.expiry = -1 ∨ rep.compatibility = -1 then [.searchAndConnect]
  else [.sendHeader]

/-- A response to a WAPROX-GET that waits for its first block. -/
structure Waiting (r : Response) : Prop where
  waproxGet : r.waproxGet = true
  lDel : r.lDel = false
  type : r.type = .cache
  pstage : r.pstage = .matching
  presReq : r.presReq = true

theorem readyForDownload_left : Left (readyForDownload rep t) := by
  rcases readyForDownload_cases (rep.outcome 0 0 false) t.pass.r with ⟨hdeleted, -⟩ | ⟨⟨-, hdown⟩, -⟩
  · exact .inl hdeleted
  · right
    show ¬((Serve.readyForDownload (rep.outcome 0 0 false) t.pass.r).type = .cache ∨ _)
    rw [hdown]
    rintro (h | h)
    · cases h
    · exact absurd (hdown.symm.trans h) (by decide)

/-- What the inner loop does with the first block, from the stage COMPATIBILITY on. -/
theorem innerLoop_compatibility_answers (c : Client) (rep : Report) (off : Int) (n : Nat) (hlDel : t.pass.r.lDel = false)
    (htype : t.pass.r.type = .cache)
    (hstage : t.pass.r.pstage = .compatibility) (hpresReq : t.pass.r.presReq = true) (hmatch : getBestMatch t.pass.r b ≠ -1) :
    (innerLoop a c rep off b (n + 1) t).answers = t.answers ++ firstAnswer a rep t.pass.r b := by
  have hpass : innerPass a c rep off b t = compatibilityPass a c rep off b t := by
    rw [innerPass_stage a c rep off b hlDel (.inl htype), hstage]
  rw [firstAnswer, if_neg hmatch]
  by_cases hrefused : Refused a b
  · -- the loop makes its other passes for a response that has left
    rw [if_pos hrefused]
    have hleft := compatibilityPass_refused c rep off t hrefused
    rw [innerLoop, hpass, hleft]
    split
    · exact (innerLoop_left n readyForDownload_left).1.trans (readyForDownload_answers ..)
    · exact readyForDownload_answers ..
  rw [if_neg hrefused]
  by_cases hfull : rep.parsed = buffFull
  · have hexit := compatibilityPass_full c off t hrefused hfull
    rw [if_pos hfull, innerLoop_last (.inl (by rw [hpass, hexit]; intro h; cases h)), hpass, hexit]
    exact (List.append_nil _).symm
  rw [if_neg hfull]
  by_cases hunparsed : Unparsed rep
  · have hexit := compatibilityPass_unparsed c off t hrefused hfull hunparsed
    rw [if_pos (.inl hunparsed), innerLoop_last (.inr (by rw [hpass, hexit]; rfl)), hpass, hexit]
    exact discard_answers
  by_cases hexpired : rep.expiry = -1
  · have hexit := compatibilityPass_expired c off t hrefused hfull hunparsed hexpired
    rw [if_pos (.inr (.inl hexpired)), innerLoop_last (.inr (by rw [hpass, hexit]; rfl)), hpass, hexit]
    exact discard_answers
  have hfresh := compatibilityPass_fresh c off t hrefused hfull hunparsed hexpired
  have hclient : ¬(t.pass.parse (rep.outcome 0 0 false) off).r.presReq = false := by
    rw [Pass.parse, doneReading_r]
    show ¬t.pass.r.presReq = false
    rw [hpresReq]
    exact Bool.noConfusion
  rw [if_neg hclient] at hfresh
  by_cases hincompatible : rep.compatibility = -1
  · rw [if_pos hincompatible] at hfresh
    rw [if_pos (.inr (.inr hincompatible)), innerLoop_last (.inr (by rw [hpass, hfresh]; rfl)), hpass, hfresh]
    exact readyForDownload_answers rep _
  · rw [if_neg hincompatible] at hfresh
    have hnone : ¬(Unparsed rep ∨ rep.expiry = -1 ∨ rep.compatibility = -1) := by
      rintro (h | h | h)
      · exact hunparsed h
      · exact hexpired h
      · exact hincompatible h
    have hlast : (innerPass a c rep off b t).pass.thisFlag = false := by
      obtain ⟨-, header, sent, pending, hstart⟩ := startSending_spec c rep b (parseResponse rep off b t)
      rw [hpass, hfresh, hstart]
      exact (startSending_leaves _ b _).thisFlag
    rw [if_neg hnone, innerLoop_last (.inr hlast), hpass, hfresh]
    exact startSending_answers

theorem innerLoop_first_answers (c : Client) (rep : Report) (off : Int) (n : Nat) (hfault : t.fault = none) (hflag : t.pass.thisFlag = true)
    (hr : Waiting t.pass.r) : (innerLoop a c rep off b (n + 2) t).answers = t.answers ++ firstAnswer a rep t.pass.r b := by
  have hpass : innerPass a c rep off b t = matchPass rep off b t := by
    rw [innerPass_stage a c rep off b hr.lDel (.inl hr.type), hr.pstage]
  by_cases hnone : getBestMatch t.pass.r b = -1
  · have hreply := matchPass_of_get rep off hnone hr.waproxGet
    rw [firstAnswer, if_pos hnone, innerLoop_last (.inr ?_), hpass, hreply]
    · exact sendNegReply_answers
    · rw [hpass, hreply]
      exact doneReading_thisFlag
  · have hmatch := matchPass_of_match rep off hnone
    rw [innerLoop_more (by rw [hpass, hmatch]; exact hfault) (by rw [hpass, hmatch]; exact hflag), hpass, hmatch]
    exact innerLoop_compatibility_answers (t := (t.on (matched b)).on fun p => { p with r := { p.r with pstage := .compatibility } })
      c rep off n hr.lDel hr.type rfl hr.presReq hnone

theorem waiting_congr {r r' : Response} (hr : r' = { r with remOffset := r'.remOffset, version := r'.version })
    (hwaiting : Waiting r) : Waiting r' := by
  rw [hr]
  exact ⟨hwaiting.waproxGet, hwaiting.lDel, hwaiting.type, hwaiting.pstage, hwaiting.presReq⟩

/-- A call answers as the first block says. -/
theorem outerLoop_first_answers {t₁ : Transfer} (c : Client) (n : Nat) (hfault : t.fault = none) (hthis2 : t.pass.this2 = false)
    (hr : Waiting t.pass.r)
    (hfetch : fetch v t = (some b, t₁)) :
    (outerLoop v c (n + 2) t).answers = t.answers ++ firstAnswer v.alloc (v.report (t.pass.r.block + 1)) t.pass.r b := by
  have hkept : ¬t.pass.r.lDel = true := ne_true_of_eq_false hr.lDel
  have hfetched := fetched_of_eq hfetch
  have hfault₁ : t₁.fault = none := by rw [hfetched.same]; exact hfault
  have hwaiting : Waiting (t₁.on entered).pass.r := by
    have h := waiting_congr hfetched.r hr
    exact ⟨h.waproxGet, h.lDel, h.type, h.pstage, h.presReq⟩
  have hblock : t₁.pass.r.block = t.pass.r.block := by rw [hfetched.r]
  have hsame : firstAnswer v.alloc (v.report (t₁.pass.r.block + 1)) (t₁.on entered).pass.r b =
      firstAnswer v.alloc (v.report (t.pass.r.block + 1)) t.pass.r b := by
    have hURL : (t₁.on entered).pass.r.URL = t.pass.r.URL := by
      show t₁.pass.r.URL = _
      rw [hfetched.r]
    have hbest : getBestMatch (t₁.on entered).pass.r b = getBestMatch t.pass.r b := by
      unfold getBestMatch
      simp only [urlFits_congr hURL]
    rw [hblock, firstAnswer, hbest, firstAnswer]
  have hloop := innerLoop_first_answers (a := v.alloc) (b := b) c (v.report (t₁.pass.r.block + 1)) t.pass.r.remOffset n
    (t := t₁.on entered) hfault₁ rfl hwaiting
  have hbefore := fetch_answers v t
  rw [hfetch] at hbefore
  rw [hsame, on_answers, hbefore] at hloop
  have hleads := innerLoop_leads v.alloc c (v.report (t₁.pass.r.block + 1)) t.pass.r.remOffset b
    (n + 2) (t := t₁.on entered) hfault₁ rfl
  rw [outerLoop, if_neg hkept, hfetch]
  simp only
  generalize innerLoop v.alloc c (v.report (t₁.pass.r.block + 1)) t.pass.r.remOffset b (n + 2) (t₁.on entered) = t₂ at hloop hleads ⊢
  split
  · rename_i hmore
    have hgoes := (hleads hmore.1).1.sending (hfetched.this2.trans hthis2) hmore.2
    exact (outerLoop_sending_answers (t := t₂.on fun p => { p with this2 := false }) (n + 1) hmore.1 hgoes rfl).trans hloop
  · exact hloop

end Answers

/-! ## `joinFlow` -/

/-- `PRESENT` -/
def present : Int := 1

/-- The fields of a `cache_control_request` that `checkIfAcceptsCached` reads. -/
structure CacheControlRequest where
  no_cache : Int
  no_store : Int
  max_stale : Int
  only_if_cached : Int

/-- What `joinFlow` reads of an `httpRequest`. -/
structure Request where
  URL : List UInt8
  hash : Nat
  waproxGet : Bool
  cc : Option CacheControlRequest
  if_mod_since_value : Int
  if_unmod_since_value : Int

/-- The way `getBestMatchByIndex` finds, and what the index has of the object. -/
structure IndexEntry where
  matchNum : Int
  remOffset : Int
  version : Int
  totalLen : Int

/-- The table of the flows by URL, the dirty objects with the blocks they have, the index by hash, the lengths of the files of the log, what
a call of `processFurtherBlocks` finds, and what `searchAndConnect` gives. -/
structure Proxy where
  fTab : List (List UInt8)
  dirty : List UInt8 → Option (List StoredBlock)
  index : Nat → Option IndexEntry
  numDisks : Nat
  logFileLength : Nat → Int
  view : View
  connect : Int
  connectDeletes : Bool

def checkIfAcceptsCached (cc : Option CacheControlRequest) : Int :=
  match cc with
  | none => 0
  | some cc =>
      if cc.no_cache = present then -1
      else if cc.max_stale = 0 then 0
      else if cc.only_if_cached = 0 then 0
      else if cc.no_store = present then -1
      else 0

/-- `initHTTPResponse`. The length is not set; no memory is asked for it. -/
def initHTTPResponse (q : Request) : Response where
  URL := q.URL
  hash := q.hash
  waproxGet := q.waproxGet
  cacheType := .hoc
  type := .cache
  pstage := .matching
  status := badResponse
  lDel := false
  map := false
  presReq := true
  sendHead := false
  block := 1
  remOffset := 0
  version := -1
  totalLen := 0
  matchNum := 0
  writeHandler := none

/-- With one disk there is one file. -/
def checkLogFileLength (s : Proxy) (len : Int) : Bool :=
  if s.logFileLength (if s.numDisks = 1 then 0 else len.toNat % s.numDisks) ≤ len then false else true

/-- An exit of `joinFlow` to the server, for a response of the type `type`. -/
def connectAs (s : Proxy) (type : Kind) (pstage : Stage) (t : Transfer) : Int × Transfer :=
  let got := Serve.searchAndConnect ((⟨0, 0, 0, 0, s.connect, s.connectDeletes, []⟩ : Report).outcome 0 0 false)
    { t.pass.r with type := type, pstage := pstage }
  (if got.1 = -1 then -1 else 0, (t.act .searchAndConnect).on fun p => { p with r := got.2 })

/-- An exit of `joinFlow` that answers itself. -/
def reply (t : Transfer) : Int × Transfer := (1, (sendNegReply t).on (·.giveUp))

/-- The lookup in the index, whose clocks are left out: it has the response of `initHTTPResponse`. -/
def lookIndex (s : Proxy) (c : Client) (n : Nat) (q : Request) (t : Transfer) : Int × Transfer :=
  let t := t.on fun p => { p with r := { p.r with matchNum := -1 } }
  match s.index q.hash with
  | none => if q.waproxGet then reply t else connectAs s .cache .matching t
  | some e =>
      let t := t.on fun p => { p with
        r := { p.r with
          type := .cache, cacheType := .hoc, remOffset := e.remOffset, version := e.version, totalLen := e.totalLen
          matchNum := e.matchNum } }
      if ¬checkVersion s.view.alloc e.version e.remOffset then connectAs s .down .first t
      else if e.totalLen ≤ 0 ∨ checkLogFileLength s e.remOffset = false ∧ s.view.alloc.presentRemVersion = 0 then
        if q.waproxGet then reply t else connectAs s .down .first t
      else (0, processFurtherBlocks s.view c n t)

/-- What `joinFlow` returns, and the response it makes. A dirty object without blocks stops the process. -/
def joinFlow (s : Proxy) (c : Client) (n : Nat) (q : Request) : Int × Transfer :=
  let t := starting (initHTTPResponse q) []
  if checkIfAcceptsCached q.cc = -1 then connectAs s .down .first t
  else if 0 < q.if_mod_since_value ∧ 0 < q.if_unmod_since_value then (-1, t)
  else if 0 < q.if_mod_since_value then connectAs s .down .first t
  else if 0 < q.if_unmod_since_value then connectAs s .down .first t
  else if q.URL ∈ s.fTab then connectAs s .web .matching { t with cacheCheck := false }
  else
    match s.dirty q.URL with
    | none => lookIndex s c n q t
    | some [] => (1, (sendNegReply t).stop .exit)
    | some (b :: rest) =>
        let t := { t with dob := b :: rest }
        (0, processFurtherBlocks s.view c n (t.on fun p => { p with
          r := { p.r with type := .cache, cacheType := .dob, remOffset := 0, version := 0, totalLen := 0, matchNum := 0 } }))

/-! ## A WAPROX-GET -/

/-- The object has no length, or it is not in the file of the log. -/
def TooShort (s : Proxy) (e : IndexEntry) : Prop :=
  e.totalLen ≤ 0 ∨ checkLogFileLength s e.remOffset = false ∧ s.view.alloc.presentRemVersion = 0

instance (s : Proxy) (e : IndexEntry) : Decidable (TooShort s e) := inferInstanceAs (Decidable (_ ∨ _))

/-- The first block misses. -/
def FirstMisses (v : View) (r : Response) (b : StoredBlock) : Prop := Misses v.alloc (v.report (r.block + 1)) r b

/-- The lookup of a request misses, as far as it goes without the disk. -/
def Missing (s : Proxy) (q : Request) : Prop :=
  match s.dirty q.URL with
  | some [] => True
  | some (b :: _) => FirstMisses s.view (initHTTPResponse q) b
  | none =>
      match s.index q.hash with
      | none => True
      | some e => ¬checkVersion s.view.alloc e.version e.remOffset ∨ TooShort s e ∨
          ∃ b, s.view.store e.remOffset = some b ∧ FirstMisses s.view (initHTTPResponse q) b

/-- The request is answered from the cache: a miss with one negative reply, and what is stored with the object, unless the disk is asked
for it first. -/
structure Answered (s : Proxy) (q : Request) (t : Transfer) : Prop where
  miss : Missing s q → t.answers = [.sendNegReply]
  hit : ¬Missing s q → t.answers = [.sendHeader] ∨ t.answers = [] ∧ t.pass.r.map = true

/-- The first block, if it misses, misses by its URL. -/
def FirstStays (v : View) (r : Response) (b : StoredBlock) : Prop := FirstMisses v r b → getBestMatch r b = -1

/-- The entry of the index is of a version that is still there, and the first block, if it is in memory, is not one that is
given up for another reason than its URL. -/
def LookupStays (s : Proxy) (q : Request) : Prop :=
  match s.dirty q.URL with
  | some [] => True
  | some (b :: _) => FirstStays s.view (initHTTPResponse q) b
  | none =>
      match s.index q.hash with
      | none => True
      | some e => checkVersion s.view.alloc e.version e.remOffset ∧
          (¬TooShort s e → ∀ b, s.view.store e.remOffset = some b → FirstStays s.view (initHTTPResponse q) b)

/-- The request may be answered with what is stored, its URL is not being downloaded, and the lookup stays in the cache. -/
structure Stays (s : Proxy) (q : Request) : Prop where
  accepts : checkIfAcceptsCached q.cc ≠ -1
  modified : q.if_mod_since_value ≤ 0
  unmodified : q.if_unmod_since_value ≤ 0
  flow : q.URL ∉ s.fTab
  lookup : LookupStays s q

section WaproxGet

variable {s : Proxy} {c : Client} {q : Request} {t : Transfer} {v : View} {r : Response} {b : StoredBlock} {n : Nat}

theorem connectAs_answers (s : Proxy) (type : Kind) (pstage : Stage) (t : Transfer) :
    (connectAs s type pstage t).2.answers = t.answers ++ [.searchAndConnect] := act_answers t _

theorem reply_answers (t : Transfer) : (reply t).2.answers = t.answers ++ [.sendNegReply] := sendNegReply_answers

theorem not_answered_of_connect (hanswers : t.answers = [.searchAndConnect]) : ¬Answered s q t := by
  intro h
  by_cases hmiss : Missing s q
  · have := h.miss hmiss
    rw [hanswers] at this
    exact absurd this (by decide)
  · rcases h.hit hmiss with hhead | ⟨hnone, -⟩
    · rw [hanswers] at hhead
      exact absurd hhead (by decide)
    · rw [hanswers] at hnone
      cases hnone

theorem firstAnswer_of_hit {a : Alloc} {rep : Report} (hhit : ¬Misses a rep r b) : firstAnswer a rep r b = [.sendHeader] := by
  obtain ⟨hmatch, hfits⟩ := not_or.mp hhit
  obtain ⟨hfits, hroom⟩ := not_or.mp hfits
  obtain ⟨hroom, hrest⟩ := not_or.mp hroom
  rw [firstAnswer, if_neg hmatch, if_neg hfits, if_neg hroom, if_neg hrest]

theorem firstAnswer_iff {a : Alloc} {rep : Report} :
    (Misses a rep r b → firstAnswer a rep r b = [.sendNegReply]) ∧ (¬Misses a rep r b → firstAnswer a rep r b = [.sendHeader]) ↔
      (Misses a rep r b → getBestMatch r b = -1) := by
  by_cases hnone : getBestMatch r b = -1
  · have hreply : firstAnswer a rep r b = [.sendNegReply] := if_pos hnone
    exact ⟨fun _ _ => hnone, fun _ => ⟨fun _ => hreply, firstAnswer_of_hit⟩⟩
  · constructor
    · rintro ⟨hreply, -⟩ hmisses
      have hfirst := hreply hmisses
      rw [firstAnswer, if_neg hnone] at hfirst
      split at hfirst
      · exact absurd hfirst (by decide)
      · split at hfirst
        · cases hfirst
        · split at hfirst
          · exact absurd hfirst (by decide)
          · exact absurd hfirst (by decide)
    · intro hstays
      have hhit : ¬Misses a rep r b := fun h => hnone (hstays h)
      exact ⟨fun h => absurd h hhit, fun _ => firstAnswer_of_hit hhit⟩

/-- A response that waits for its first block and finds it is answered from the cache exactly if the block stays. -/
theorem first_answers {dob : List StoredBlock} (c : Client) (n : Nat) (hr : Waiting r) (hfetch : fetch v (starting r dob) = (some b, t)) :
    (processFurtherBlocks v c (n + 2) (starting r dob)).answers = firstAnswer v.alloc (v.report (r.block + 1)) r b :=
  outerLoop_first_answers (t := starting r dob) c n rfl rfl hr hfetch

theorem first_answered_iff {dob : List StoredBlock} (c : Client) (n : Nat) (hr : Waiting r)
    (hfetch : fetch v (starting r dob) = (some b, t)) :
    (FirstMisses v r b → (processFurtherBlocks v c (n + 2) (starting r dob)).answers = [.sendNegReply]) ∧
        (¬FirstMisses v r b → (processFurtherBlocks v c (n + 2) (starting r dob)).answers = [.sendHeader]) ↔ FirstStays v r b := by
  rw [first_answers c n hr hfetch]
  exact firstAnswer_iff

theorem answered_reply (hmissing : Missing s q) (hanswers : t.answers = [.sendNegReply]) : Answered s q t :=
  ⟨fun _ => hanswers, fun h => absurd hmissing h⟩

theorem lookIndex_answered_iff (c : Client) (n : Nat) (hget : q.waproxGet = true) (hdirty : s.dirty q.URL = none) :
    Answered s q (lookIndex s c (n + 2) q (starting (initHTTPResponse q) [])).2 ↔ LookupStays s q := by
  unfold lookIndex LookupStays
  simp only [hdirty]
  cases hentry : s.index q.hash with
  | none =>
      have hmissing : Missing s q := by
        unfold Missing
        simp only [hdirty, hentry]
      simp only [hget, if_true, iff_true]
      exact answered_reply hmissing (reply_answers _)
  | some e =>
      simp only
      by_cases hversion : checkVersion s.view.alloc e.version e.remOffset
      swap
      · rw [if_pos hversion]
        exact ⟨fun h => absurd h (not_answered_of_connect (connectAs_answers s _ _ _)), fun h => absurd h.1 hversion⟩
      rw [if_neg (not_not.mpr hversion)]
      by_cases hshort : TooShort s e
      · have hmissing : Missing s q := by
          unfold Missing
          simp only [hdirty, hentry]
          exact .inr (.inl hshort)
        rw [if_pos (show e.totalLen ≤ 0 ∨ _ from hshort), if_pos hget]
        exact ⟨fun _ => ⟨hversion, fun h => absurd hshort h⟩, fun _ => answered_reply hmissing (reply_answers _)⟩
      rw [if_neg (show ¬(e.totalLen ≤ 0 ∨ _) from hshort)]
      let r : Response := { initHTTPResponse q with
        type := .cache, cacheType := .hoc, remOffset := e.remOffset, version := e.version, totalLen := e.totalLen, matchNum := e.matchNum }
      show Answered s q (processFurtherBlocks s.view c (n + 2) (starting r [])) ↔ _
      have hmissing : Missing s q ↔ ∃ b, s.view.store e.remOffset = some b ∧ FirstMisses s.view (initHTTPResponse q) b := by
        unfold Missing
        simp only [hdirty, hentry, hversion, hshort, not_true_eq_false, false_or]
      cases hstore : s.view.store e.remOffset with
      | none =>
          -- the disk is asked for the first block
          have hfetch : fetch s.view (starting r []) = (none, starting r []) := fetch_none rfl hstore
          have hcall : processFurtherBlocks s.view c (n + 2) (starting r []) = (starting r []).on askDisk := by
            show outerLoop s.view c (n + 2) (starting r []) = _
            have hkept : ¬(starting r []).pass.r.lDel = true := Bool.false_ne_true
            rw [outerLoop, if_neg hkept, hfetch]
          have hasked : (askDisk (starting r []).pass).r.map = true := by
            have hlen : ¬(false = true ∨ e.totalLen = 0) := by
              rintro (h | h)
              · cases h
              · exact hshort (.inl h.le)
            exact congrArg (fun p : Pass => p.r.map) (if_neg hlen)
          rw [hcall]
          constructor
          · exact fun _ => ⟨hversion, fun _ b hb => by cases hb⟩
          · refine fun _ => ⟨fun h => ?_, fun _ => .inr ⟨rfl, hasked⟩⟩
            obtain ⟨b, hb, -⟩ := hmissing.mp h
            cases hstore.symm.trans hb
      | some b =>
          have hfetch : fetch s.view (starting r []) = (some b, (starting r []).on fun p => p.call (.getBlock p.r.remOffset)) :=
            fetch_some rfl hstore
          have hwaiting : Waiting r := ⟨hget, rfl, rfl, rfl, rfl⟩
          have hfirst := first_answered_iff c n hwaiting hfetch
          have hmisses : Missing s q ↔ FirstMisses s.view (initHTTPResponse q) b := by
            rw [hmissing, hstore]
            simp only [Option.some.injEq, exists_eq_left']
          have hstays : FirstStays s.view r b ↔ FirstStays s.view (initHTTPResponse q) b := Iff.rfl
          constructor
          · rintro ⟨hmiss, -⟩
            refine ⟨hversion, fun _ b' hb' => ?_⟩
            obtain rfl := Option.some.inj hb'
            refine hstays.mp (hfirst.mp ⟨fun h => hmiss (hmisses.mpr h), fun h => ?_⟩)
            rw [first_answers c n hwaiting hfetch]
            exact firstAnswer_of_hit h
          · rintro ⟨-, hlookup⟩
            obtain ⟨hmiss, hhit⟩ := hfirst.mpr (hstays.mpr (hlookup hshort b rfl))
            exact ⟨fun h => hmiss (hmisses.mp h), fun h => .inl (hhit (mt hmisses.mpr h))⟩

/-- `joinFlow` answers a WAPROX-GET from the cache exactly if the request stays there. -/
theorem joinFlow_answered_iff (s : Proxy) (c : Client) (n : Nat) (hget : q.waproxGet = true) :
    Answered s q (joinFlow s c (n + 2) q).2 ↔ Stays s q := by
  unfold joinFlow
  simp only
  by_cases haccepts : checkIfAcceptsCached q.cc = -1
  · rw [if_pos haccepts]
    exact ⟨fun h => absurd h (not_answered_of_connect (connectAs_answers s _ _ _)), fun h => absurd haccepts h.accepts⟩
  rw [if_neg haccepts]
  by_cases hboth : 0 < q.if_mod_since_value ∧ 0 < q.if_unmod_since_value
  · rw [if_pos hboth]
    refine ⟨fun h => ?_, fun h => absurd hboth.1 (not_lt.mpr h.modified)⟩
    by_cases hmiss : Missing s q
    · cases h.miss hmiss
    · rcases h.hit hmiss with hhead | ⟨-, hmap⟩
      · cases hhead
      · cases hmap
  rw [if_neg hboth]
  by_cases hmodified : 0 < q.if_mod_since_value
  · rw [if_pos hmodified]
    exact ⟨fun h => absurd h (not_answered_of_connect (connectAs_answers s _ _ _)), fun h => absurd hmodified (not_lt.mpr h.modified)⟩
  rw [if_neg hmodified]
  by_cases hunmodified : 0 < q.if_unmod_since_value
  · rw [if_pos hunmodified]
    exact ⟨fun h => absurd h (not_answered_of_connect (connectAs_answers s _ _ _)), fun h => absurd hunmodified (not_lt.mpr h.unmodified)⟩
  rw [if_neg hunmodified]
  by_cases hflow : q.URL ∈ s.fTab
  · rw [if_pos hflow]
    exact ⟨fun h => absurd h (not_answered_of_connect (connectAs_answers s _ _ _)), fun h => absurd hflow h.flow⟩
  rw [if_neg hflow]
  have hstays : Stays s q ↔ LookupStays s q :=
    ⟨fun h => h.lookup, fun h => ⟨haccepts, not_lt.mp hmodified, not_lt.mp hunmodified, hflow, h⟩⟩
  rw [hstays]
  cases hdirty : s.dirty q.URL with
  | none => exact lookIndex_answered_iff c n hget hdirty
  | some blocks =>
      cases blocks with
      | nil =>
          have hmissing : Missing s q := by
            unfold Missing
            simp only [hdirty]
          have hlookup : LookupStays s q := by
            unfold LookupStays
            simp only [hdirty]
          exact ⟨fun _ => hlookup, fun _ => answered_reply hmissing sendNegReply_answers⟩
      | cons b rest =>
          let r : Response := { initHTTPResponse q with
            type := .cache, cacheType := .dob, remOffset := 0, version := 0, totalLen := 0, matchNum := 0 }
          have hwaiting : Waiting r := ⟨hget, rfl, rfl, rfl, rfl⟩
          have hfetch : fetch s.view (starting r (b :: rest)) = (some b, { starting r (b :: rest) with dob := rest }.on fun p =>
              if s.view.inHOC then { p with r := { p.r with remOffset := b.pres, version := b.version } } else p) := rfl
          have hmisses : Missing s q ↔ FirstMisses s.view r b := by
            unfold Missing
            simp only [hdirty]
            rfl
          have hlookup : LookupStays s q ↔ FirstStays s.view r b := by
            unfold LookupStays
            simp only [hdirty]
            rfl
          show Answered s q (processFurtherBlocks s.view c (n + 2) (starting r (b :: rest))) ↔ _
          rw [hlookup, ← first_answered_iff c n hwaiting hfetch]
          constructor
          · rintro ⟨hmiss, -⟩
            refine ⟨fun h => hmiss (hmisses.mpr h), fun h => ?_⟩
            rw [first_answers c n hwaiting hfetch]
            exact firstAnswer_of_hit h
          · rintro ⟨hmiss, hhit⟩
            exact ⟨fun h => hmiss (hmisses.mp h), fun h => .inl (hhit (mt hmisses.mpr h))⟩

/-- A WAPROX-GET is answered once, and from the cache, exactly if the request stays there in `joinFlow` and, where its first block comes
later, if the block stays; a response whose first block was served never leaves. -/
theorem waproxGet_answered_iff (s : Proxy) (c : Client) (n : Nat) (q : Request) (hget : q.waproxGet = true) :
    (Answered s q (joinFlow s c (n + 2) q).2 ↔ Stays s q) ∧
      (∀ (v : View) (r : Response) (dob : List StoredBlock) (b : StoredBlock) (t : Transfer), Waiting r →
        fetch v (starting r dob) = (some b, t) →
          ((FirstMisses v r b → (processFurtherBlocks v c (n + 2) (starting r dob)).answers = [.sendNegReply]) ∧
            (¬FirstMisses v r b → (processFurtherBlocks v c (n + 2) (starting r dob)).answers = [.sendHeader]) ↔ FirstStays v r b)) ∧
      ∀ (v : View) (t : Transfer), t.fault = none → t.pass.r.pstage = .sending → (processFurtherBlocks v c n t).answers = t.answers :=
  ⟨joinFlow_answered_iff s c n hget, fun _ _ _ _ _ hr hfetch => first_answered_iff c n hr hfetch,
    fun _ _ hfault hstage => outerLoop_sending_answers n hfault hstage rfl⟩

end WaproxGet

/-- A WAPROX-GET for the sample, without conditions. -/
def sampleGet : Request := ⟨sampleURL, 7, true, none, -1, -1⟩

/-- The sample is in the index, of version 0, and in memory; the log is in version `version`. -/
def sampleProxy (version : Nat) : Proxy where
  fTab := []
  dirty := fun _ => none
  index := fun _ => some ⟨0, 0, 0, 2⟩
  numDisks := 1
  logFileLength := fun _ => 10
  view := { oneByte (sampleEnv version).store with alloc := (sampleEnv version).alloc }
  connect := 0
  connectDeletes := false

theorem waproxGet_answered_sample : Answered (sampleProxy 0) sampleGet (joinFlow (sampleProxy 0) open8 2 sampleGet).2 := by
  refine (waproxGet_answered_iff (sampleProxy 0) open8 0 sampleGet rfl).1.mpr ⟨by decide, by decide, by decide, by decide, ?_, ?_⟩
  · decide
  · rintro - b hb
    obtain rfl := Option.some.inj hb
    exact fun h => absurd (show Misses _ _ _ _ from h) (by decide)

/-- The log has begun a new version since the object was stored, and a connection is made for the WAPROX-GET. -/
theorem waproxGet_leaves : sampleGet.waproxGet = true ∧
    (joinFlow (sampleProxy 1) open8 3 sampleGet).2.answers = [.searchAndConnect] ∧
      ¬Answered (sampleProxy 1) sampleGet (joinFlow (sampleProxy 1) open8 3 sampleGet).2 := by
  have hleaves : (joinFlow (sampleProxy 1) open8 3 sampleGet).2.answers = [.searchAndConnect] := by decide
  exact ⟨rfl, hleaves, not_answered_of_connect hleaves⟩

end BeagleCache.Hits

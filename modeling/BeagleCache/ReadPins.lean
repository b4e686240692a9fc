import Mathlib.Tactic
import BeagleCache.FurtherBlocks
import BeagleCache.HotLocks
import BeagleCache.Turns

/-! The blocks and the slots of the index that serving a response locks for reading. A call has at most one block of the
hot object cache, while a stage looks at it, and a response at most one slot, from `addReadLock` on until its last block is
sent. The exits that forget to give one back are named by a condition on the block and on what is reported for it. -/

namespace BeagleCache.Serve

open Hcfs Transition

/-! ## What a response has -/

def getSetFromHash (numSets hash : Nat) : Nat := hash % numSets

/-- A slot of the index, as the lock table has it: the set and the way. -/
abbrev Slot := Nat × Int

def slotOf (numSets hash : Nat) (matchNum : Int) : Slot := (getSetFromHash numSets hash, matchNum)

def pinOp : Call → Option (Turns.Op Int)
  | .getBlock remOffset => some (.take remOffset)
  | .doneReading remOffset => some (.give remOffset)
  | _ => none

def lockOp (numSets : Nat) : Call → Option (Turns.Op Slot)
  | .addReadLock hash matchNum => some (.take (slotOf numSets hash matchNum))
  | .removeReadLock hash matchNum => some (.give (slotOf numSets hash matchNum))
  | _ => none

/-- The calls take blocks and slots in turn, and leave a block and a slot; `before` is the slot the response came with. -/
structure Has (numSets : Nat) (before : Option Slot) (calls : List Call) (pin : Option Int) (lock : Option Slot) : Prop where
  pins : Turns.run none (calls.filterMap pinOp) = some pin
  locks : Turns.run before (calls.filterMap (lockOp numSets)) = some lock

section Has

variable {numSets : Nat} {before lock : Option Slot} {pin : Option Int} {calls : List Call} {off : Int} {hash : Nat} {m : Int}

theorem Has.nil (numSets : Nat) (before : Option Slot) : Has numSets before [] none before := ⟨rfl, rfl⟩

theorem Has.getBlock (h : Has numSets before calls none lock) : Has numSets before (calls ++ [.getBlock off]) (some off) lock where
  pins := by
    rw [List.filterMap_append]
    exact Turns.run_take h.pins
  locks := by
    rw [List.filterMap_append, List.filterMap_cons_none rfl, List.filterMap_nil, List.append_nil]
    exact h.locks

theorem Has.doneReading (h : Has numSets before calls (some off) lock) : Has numSets before (calls ++ [.doneReading off]) none lock where
  pins := by
    rw [List.filterMap_append]
    exact Turns.run_give h.pins
  locks := by
    rw [List.filterMap_append, List.filterMap_cons_none rfl, List.filterMap_nil, List.append_nil]
    exact h.locks

theorem Has.addReadLock (h : Has numSets before calls pin none) : Has numSets before (calls ++ [.addReadLock hash m])
    pin (some (slotOf numSets hash m)) where
  pins := by
    rw [List.filterMap_append, List.filterMap_cons_none rfl, List.filterMap_nil, List.append_nil]
    exact h.pins
  locks := by
    rw [List.filterMap_append]
    exact Turns.run_take h.locks

theorem Has.removeReadLock (h : Has numSets before calls pin (some (slotOf numSets hash m))) :
    Has numSets before (calls ++ [.removeReadLock hash m]) pin none where
  pins := by
    rw [List.filterMap_append, List.filterMap_cons_none rfl, List.filterMap_nil, List.append_nil]
    exact h.pins
  locks := by
    rw [List.filterMap_append]
    exact Turns.run_give h.locks

/-- A call that is about no lock. -/
theorem Has.other (h : Has numSets before calls pin lock) {c : Call} (hpin : pinOp c = none) (hlock : lockOp numSets c = none) :
    Has numSets before (calls ++ [c]) pin lock where
  pins := by
    rw [List.filterMap_append, List.filterMap_cons_none hpin, List.filterMap_nil, List.append_nil]
    exact h.pins
  locks := by
    rw [List.filterMap_append, List.filterMap_cons_none hlock, List.filterMap_nil, List.append_nil]
    exact h.locks

end Has

/-- A response between two calls, and the slot it has: it is deleted; it was not sent yet, or goes to the download; it waits
for the disk; it waits for its client, with more blocks to come; or without. -/
inductive Keeps (numSets : Nat) (r : Response) : Option Slot → Prop
  | gone : r.lDel = true → Keeps numSets r none
  | before : r.lDel = false → r.pstage ≠ .sending → r.writeHandler = none → Keeps numSets r none
  | sending : r.lDel = false → r.pstage = .sending → r.sendHead = true → r.writeHandler = none →
      Keeps numSets r (some (slotOf numSets r.hash r.matchNum))
  | waiting : r.lDel = false → r.pstage = .sending → r.sendHead = true → r.writeHandler = some .resumeDiskRead →
      r.status ≠ entityComplete → r.map = false → Keeps numSets r (some (slotOf numSets r.hash r.matchNum))
  | finishing : r.lDel = false → r.pstage = .sending → r.status = entityComplete → r.map = false →
      (r.writeHandler = some .resumeDiskRead → r.sendHead = true) → Keeps numSets r none

/-- A response that a pass of the outer loop begins with. -/
structure Enters (numSets : Nat) (r : Response) (lock : Option Slot) : Prop where
  gone : r.lDel = true → lock = none
  before : r.lDel = false → r.pstage ≠ .sending → lock = none
  sending : r.lDel = false → r.pstage = .sending → lock = some (slotOf numSets r.hash r.matchNum) ∧ r.sendHead = true
  idle : r.lDel = false → r.map = false ∧ r.writeHandler = none

/-- From `sendData` on, the lock is not forgotten: the last block is sent, or there are more to come for a client that is
there, and the response is not complete before its last block; the data can be sent, or the lock is removed. -/
def Delivers (removes : Bool) (o : Outcome) (b : StoredBlock) (r : Response) : Prop :=
  if (sendData o r).1 = 2 then b.status = endMark ∨ o.parsed ≠ entityComplete
  else if (sendData o r).1 = -1 then removes = true
  else b.status = endMark ∨ b.status = notEnd ∧ (r.presReq = true ∨ o.pending = false)

/-- From `addReadLock` on: the header can be sent, or it is that of the last block. -/
def Starts (o : Outcome) (b : StoredBlock) (r : Response) : Prop :=
  if o.header = 2 then b.status = endMark else o.header ≠ -1 → Delivers true o b r

/-- None of the exits is taken that forget a block or a slot. -/
structure Releases (a : Alloc) (o : Outcome) (b : StoredBlock) (r : Response) : Prop where
  sending : r.pstage = .sending → urlFits r b ∧ ReadableFits b ∧ (o.parse ≠ -1 → o.parsed ≠ badResponse → Delivers false o b r)
  examined : Examined r b → Accepted a b → ¬(o.parse = -1 ∨ o.parsed = badResponse ∨ o.parsed = comeBack) → o.expiry ≠ -1 →
    r.presReq = true → o.compatibility ≠ -1 → Starts o b r

/-- The next block is looked at in the same call: this one was sent, and there are more to come. -/
structure GoesOn (a : Alloc) (o : Outcome) (b : StoredBlock) (r : Response) : Prop where
  status : b.status = notEnd
  parse : o.parse ≠ -1 ∧ o.parsed ≠ badResponse
  sent : (sendData o r).1 ≠ 2 ∧ (sendData o r).1 ≠ -1
  started : r.pstage ≠ .sending → Examined r b ∧ Accepted a b ∧ o.parsed ≠ comeBack ∧ o.expiry ≠ -1 ∧ r.presReq = true ∧
    o.compatibility ≠ -1 ∧ o.header ≠ 2 ∧ o.header ≠ -1

/-- What the stages of a pass keep of the response that decides about its blocks. -/
structure Same (r r' : Response) : Prop where
  URL : r'.URL = r.URL
  presReq : r'.presReq = r.presReq
  cacheType : r'.cacheType = r.cacheType

/-- What a pass leaves is in order, for the next pass or for the next call; `r` is the response it began with. -/
def After (numSets : Nat) (a : Alloc) (o : Outcome) (b : StoredBlock) (r : Response) (before : Option Slot) (p : Pass) : Prop :=
  ∃ lock, Has numSets before p.calls none lock ∧
    (p.this2 = true → Enters numSets p.r lock ∧ GoesOn a o b r ∧ Same r p.r ∧ p.r.pstage = .sending ∧ p.r.remOffset = b.next) ∧
    (p.this2 = false → Keeps numSets p.r lock)

section Stages

variable {numSets : Nat} {a : Alloc} {o : Outcome} {off : Int} {b : StoredBlock} {r : Response} {p p' : Pass} {before lock : Option Slot}

/-- The block a stage has. -/
def pinOf (r : Response) (off : Int) : Option Int := if r.cacheType = .hoc then some off else none

theorem Has.doneReadingPass (h : Has numSets before p.calls (pinOf p.r off) lock) :
    Has numSets before (p.doneReading off).calls none lock := by
  unfold pinOf at h
  unfold Pass.doneReading
  split
  · rename_i hcache
    rw [if_pos hcache] at h
    exact h.doneReading
  · rename_i hcache
    rwa [if_neg hcache] at h

/-- The call ends with the pass. -/
theorem After.last (hhas : Has numSets before p.calls none lock) (hthis2 : p.this2 = false) (hkeeps : Keeps numSets p.r lock) :
    After numSets a o b r before p :=
  ⟨lock, hhas, fun hgo => absurd hgo (ne_true_of_eq_false hthis2), fun _ => hkeeps⟩

/-- The response is deleted, and nothing is left. -/
theorem after_gone (hhas : Has numSets before p.calls none none) (hlDel : p.r.lDel = true) (hthis2 : p.this2 = false) :
    After numSets a o b r before p :=
  .last hhas hthis2 (.gone hlDel)

theorem readyForDownload_keeps (o : Outcome) {r : Response} (hhandler : r.writeHandler = none) :
    Keeps numSets (readyForDownload o r) none := by
  rcases readyForDownload_cases o r with ⟨hdeleted, _⟩ | ⟨⟨hkept, _⟩, hgiven⟩
  · exact .gone hdeleted
  · refine .before hkept ?_ ?_
    · show Stage.first ≠ .sending
      decide
    · unfold GivenUp at hgiven
      unfold readyForDownload searchAndConnect
      simp only [not_or, Bool.not_eq_false, Bool.not_eq_true] at hgiven
      simp [hgiven, hhandler]

theorem after_redo (hhas : Has numSets before p.calls none none) (hhandler : p.r.writeHandler = none) (hthis2 : p.this2 = false) :
    After numSets a o b r before { p.redo o with thisFlag := false } :=
  .last (p := { p.redo o with thisFlag := false }) hhas hthis2 (readyForDownload_keeps o hhandler)

/-- Only the client matters. -/
theorem sendData_fst_congr {r' : Response} (hclient : r'.presReq = r.presReq) : (sendData o r').1 = (sendData o r).1 := by
  unfold sendData
  rw [hclient]
  split
  · rfl
  · split <;> rfl

theorem Delivers.congr {removes : Bool} {r' : Response} (h : Delivers removes o b r) (hclient : r'.presReq = r.presReq) :
    Delivers removes o b r' := by
  unfold Delivers at h ⊢
  rwa [sendData_fst_congr hclient, hclient]

theorem sendData_kept {r : Response} (hkept : r.presReq = true ∨ o.pending = false) : (sendData o r).2 = r := by
  unfold sendData
  rcases hkept with h | h
  · rw [if_pos h]
  · split
    · rfl
    · rw [if_neg (by rw [h]; decide)]

theorem deliver_after {removes : Bool} (hhas : Has numSets before p.calls none (some (slotOf numSets p.r.hash p.matchNum)))
    (hlDel : p.r.lDel = false)
    (hmap : p.r.map = false) (hhead : p.r.sendHead = true) (hhandler : p.r.writeHandler = none) (hthis2 : p.this2 = false)
    (hstatus : p.r.status = o.parsed) (hdelivers : Delivers removes o b p.r)
    (hsame : Same r p.r) (hgoes : b.status = notEnd → (sendData o r).1 ≠ 2 → (sendData o r).1 ≠ -1 → GoesOn a o b r) :
    After numSets a o b r before (deliver removes o b p) := by
  have hhash : (sendData o p.r).2.hash = p.r.hash := by
    rcases sendData_same o p.r with h | h <;> rw [h]
    unfold delResponseTranLazy
    split <;> rfl
  have hremoved : Has numSets before (p.calls ++ [.removeReadLock (sendData o p.r).2.hash p.matchNum]) none none := by
    rw [hhash]
    exact hhas.removeReadLock
  unfold Delivers at hdelivers
  unfold deliver
  simp only
  by_cases htwo : (sendData o p.r).1 = 2
  · have hleft : (sendData o p.r).2 = p.r := sendData_of_waits htwo
    rw [if_pos htwo] at hdelivers ⊢
    rw [hleft] at hremoved ⊢
    by_cases hend : b.status = endMark
    · rw [if_pos hend]
      exact .last hremoved hthis2 (.finishing hlDel rfl rfl hmap fun _ => hhead)
    · rw [if_neg hend]
      exact .last hhas hthis2 (.waiting hlDel rfl hhead rfl (fun h => hdelivers.resolve_left hend (hstatus.symm.trans h)) hmap)
  · rw [if_neg htwo] at hdelivers ⊢
    by_cases hminus : (sendData o p.r).1 = -1
    · rw [if_pos hminus] at hdelivers ⊢
      rw [if_pos hdelivers]
      exact after_gone hremoved (delResponseTranLazy_lDel _) hthis2
    · rw [if_neg hminus] at hdelivers ⊢
      by_cases hend : b.status = endMark
      · rw [if_pos hend]
        exact after_gone hremoved (delResponseTranLazy_lDel _) hthis2
      · obtain ⟨hnot, hkept⟩ := hdelivers.resolve_left hend
        rw [if_neg hend, if_pos hnot]
        rw [sendData_kept hkept]
        rw [sendData_fst_congr hsame.presReq] at htwo hminus
        refine ⟨_, hhas, fun _ => ⟨?_, hgoes hnot htwo hminus, ⟨hsame.URL, hsame.presReq, hsame.cacheType⟩, rfl, rfl⟩, fun h => nomatch h⟩
        exact ⟨fun h => absurd h (ne_true_of_eq_false hlDel), fun _ h => absurd rfl h, fun _ _ => ⟨rfl, hhead⟩,
          fun _ => ⟨hmap, hhandler⟩⟩

theorem startSending_after (hhas : Has numSets before p.calls none none) (hlDel : p.r.lDel = false) (hmap : p.r.map = false)
    (hclient : p.r.presReq = true) (hhandler : p.r.writeHandler = none) (hthis2 : p.this2 = false) (hstatus : p.r.status = o.parsed)
    (hstarts : Starts o b p.r) (hsame : Same r p.r)
    (hgoes : o.header ≠ 2 → o.header ≠ -1 → b.status = notEnd → (sendData o r).1 ≠ 2 → (sendData o r).1 ≠ -1 → GoesOn a o b r) :
    After numSets a o b r before (startSending o b p) := by
  have hlocked : Has numSets before (p.call (.addReadLock p.r.hash p.matchNum)).calls none (some (slotOf numSets p.r.hash p.matchNum)) :=
    hhas.addReadLock
  have hheader : sendHeader o (p.call (.addReadLock p.r.hash p.matchNum)).r = o.header := by
    show (if p.r.presReq = true then o.header else 0) = o.header
    rw [if_pos hclient]
  unfold Starts at hstarts
  unfold startSending
  simp only [hheader]
  by_cases htwo : o.header = 2
  · rw [if_pos htwo] at hstarts ⊢
    rw [if_pos hstarts]
    exact .last hlocked.removeReadLock hthis2 (.finishing hlDel rfl rfl hmap fun h => nomatch h)
  · rw [if_neg htwo] at hstarts ⊢
    by_cases hminus : o.header = -1
    · rw [if_pos hminus]
      exact after_gone hlocked.removeReadLock (delResponseTranLazy_lDel _) hthis2
    · have hthere : ¬(p.call (.addReadLock p.r.hash p.matchNum)).r.presReq = false := by
        show ¬p.r.presReq = false
        rw [hclient]
        decide
      rw [if_neg hminus, if_neg hthere]
      exact deliver_after hlocked hlDel hmap rfl hhandler hthis2 hstatus ((hstarts hminus).congr rfl)
        ⟨hsame.URL, hsame.presReq, hsame.cacheType⟩ (hgoes htwo hminus)

theorem Starts.congr {r r' : Response} (h : Starts o b r) (hclient : r'.presReq = r.presReq) : Starts o b r' := by
  unfold Starts at h ⊢
  split
  · rename_i htwo
    rwa [if_pos htwo] at h
  · rename_i htwo
    rw [if_neg htwo] at h
    exact fun hminus => (h hminus).congr hclient

@[simp] theorem parse_r : (p.parse o off).r = { p.r with status := o.parsed } := by rw [Pass.parse, doneReading_r]

@[simp] theorem doneReading_matchNum : (p.doneReading off).matchNum = p.matchNum := by
  unfold Pass.doneReading
  split <;> rfl

@[simp] theorem parse_matchNum : (p.parse o off).matchNum = p.matchNum := by rw [Pass.parse, doneReading_matchNum]

theorem Has.parse (h : Has numSets before p.calls (pinOf p.r off) lock) : Has numSets before (p.parse o off).calls none lock :=
  Has.doneReadingPass (p := { p with r := { p.r with status := o.parsed } }) h

theorem matchPass_after (hhas : Has numSets before p.calls (pinOf p.r off) none) (hhandler : p.r.writeHandler = none)
    (hthis2 : p.this2 = false)
    (hnone : getBestMatch p.r b = -1) : After numSets a o b r before (matchPass o off b p) := by
  unfold matchPass
  simp only [hnone, if_true]
  split
  · apply after_gone
    · apply Has.doneReadingPass
      have hcache : (Pass.giveUp { p with matchNum := -1 }).r.cacheType = p.r.cacheType := delResponseTranLazy_cacheType _
      unfold pinOf at hhas ⊢
      rw [hcache]
      exact hhas
    · rw [doneReading_r]
      exact delResponseTranLazy_lDel _
    · rw [doneReading_this2]
      exact hthis2
  · refine after_redo (p := ({ p with matchNum := -1 } : Pass).doneReading off) ?_ ?_ ?_
    · exact Has.doneReadingPass (p := { p with matchNum := -1 }) hhas
    · rw [doneReading_r]
      exact hhandler
    · rw [doneReading_this2]
      exact hthis2

theorem discard_after (hhas : Has numSets before p.calls none none) (hhandler : p.r.writeHandler = none) (hthis2 : p.this2 = false) :
    After numSets a o b r before (discard o off p) := by
  have hdiscarded : Has numSets before (p.call (.discardHeaders p.r.hash p.r.matchNum)).calls none none := hhas.other rfl rfl
  unfold discard
  simp only
  split
  · exact after_redo (p := (p.call (.discardHeaders p.r.hash p.r.matchNum)).call (.expire off)) (hdiscarded.other rfl rfl) hhandler hthis2
  · exact after_redo (p := p.call (.discardHeaders p.r.hash p.r.matchNum)) hdiscarded hhandler hthis2

theorem compatibilityPass_after (hhas : Has numSets before p.calls (pinOf p.r off) none) (hlDel : p.r.lDel = false) (hmap : p.r.map = false)
    (hhandler : p.r.writeHandler = none) (hthis2 : p.this2 = false) (haccepted : Accepted a b)
    (hstarts : ¬(o.parse = -1 ∨ o.parsed = badResponse ∨ o.parsed = comeBack) → o.expiry ≠ -1 → p.r.presReq = true →
      o.compatibility ≠ -1 → Starts o b p.r)
    (hsame : Same r p.r) (hexamined : Examined r b) (hpass : compatibilityPass a o off b p = .ok p') : After numSets a o b r before p' := by
  have hparsed : Has numSets before (p.parse o off).calls none none := hhas.parse
  have hhandler' : (p.parse o off).r.writeHandler = none := by
    rw [parse_r]
    exact hhandler
  have hthis2' : (p.parse o off).this2 = false := parse_this2.trans hthis2
  obtain h | h | h | h | ⟨⟨hparse, hexpiry, hclient, hcompatible⟩, h⟩ := compatibilityPass_cases o off p haccepted <;> rw [h] at hpass <;>
    cases hpass
  · exact discard_after hparsed hhandler' hthis2'
  · exact after_gone hparsed (delResponseTranLazy_lDel _) hthis2'
  · exact after_redo hparsed hhandler' hthis2'
  · have hready : (p.parse o off).r.lDel = false ∧ (p.parse o off).r.map = false ∧ (p.parse o off).r.presReq = true ∧
        (p.parse o off).r.status = o.parsed := by
      rw [parse_r]
      exact ⟨hlDel, hmap, hclient, rfl⟩
    have hclient' : (p.parse o off).r.presReq = p.r.presReq := hready.2.2.1.trans hclient.symm
    have hsame' : Same r (p.parse o off).r := by
      rw [parse_r]
      exact ⟨hsame.URL, hsame.presReq, hsame.cacheType⟩
    refine startSending_after hparsed hready.1 hready.2.1 hready.2.2.1 hhandler' hthis2' hready.2.2.2
      ((hstarts hparse hexpiry hclient hcompatible).congr hclient') hsame' fun htwo hminus hnotEnd hsent hsent' => ?_
    obtain ⟨hparse, hbad, hback⟩ : o.parse ≠ -1 ∧ o.parsed ≠ badResponse ∧ o.parsed ≠ comeBack := by
      rw [not_or, not_or] at hparse
      exact hparse
    exact ⟨hnotEnd, ⟨hparse, hbad⟩, ⟨hsent, hsent'⟩, fun _ =>
      ⟨hexamined, haccepted, hback, hexpiry, hsame.presReq.symm.trans hclient, hcompatible, htwo, hminus⟩⟩

theorem sendingPass_after (hhas : Has numSets before p.calls (pinOf p.r off) (some (slotOf numSets p.r.hash p.r.matchNum)))
    (hlDel : p.r.lDel = false)
    (hmap : p.r.map = false) (hhead : p.r.sendHead = true) (hhandler : p.r.writeHandler = none) (hthis2 : p.this2 = false)
    (hreleases : urlFits p.r b ∧ ReadableFits b ∧ (o.parse ≠ -1 → o.parsed ≠ badResponse → Delivers false o b p.r))
    (hsame : Same r p.r) (hstage : r.pstage = .sending) (hpass : sendingPass o off b p = .ok p') : After numSets a o b r before p' := by
  obtain ⟨hurl, hreadable, hdelivers⟩ := hreleases
  have hparsed : Has numSets before (({ p with matchNum := p.r.matchNum } : Pass).parse o off).calls none
      (some (slotOf numSets p.r.hash p.r.matchNum)) :=
    Has.parse (p := { p with matchNum := p.r.matchNum }) hhas
  generalize hq : ({ p with matchNum := p.r.matchNum } : Pass).parse o off = q at hparsed
  have hr : q.r = { p.r with status := o.parsed } := by rw [← hq, parse_r]
  have hmatch : q.matchNum = p.r.matchNum := by rw [← hq, parse_matchNum]
  have hthis2' : q.this2 = false := by rw [← hq, parse_this2]; exact hthis2
  have hheld : Has numSets before q.calls none (some (slotOf numSets q.r.hash q.matchNum)) := by
    rw [hr, hmatch]
    exact hparsed
  have hnot : ¬(¬urlFits p.r b ∨ ¬ReadableFits b) := by
    rintro (h | h)
    · exact h hurl
    · exact h hreadable
  unfold sendingPass at hpass
  simp only [hq] at hpass
  rw [if_neg hnot] at hpass
  split at hpass
  · cases hpass
  · split at hpass
    · rw [← Except.ok.inj hpass]
      exact after_gone hheld.removeReadLock (delResponseTranLazy_lDel _) hthis2'
    · rename_i hparse
      obtain ⟨hparse, hbad⟩ := not_or.mp hparse
      rw [← Except.ok.inj hpass]
      have hready : q.r.lDel = false ∧ q.r.map = false ∧ q.r.sendHead = true ∧ q.r.writeHandler = none ∧ q.r.status = o.parsed := by
        rw [hr]
        exact ⟨hlDel, hmap, hhead, hhandler, rfl⟩
      refine deliver_after hheld hready.1 hready.2.1 hready.2.2.1 hready.2.2.2.1 hthis2' hready.2.2.2.2
        ((hdelivers hparse hbad).congr ?_) ?_ fun hnotEnd hsent hsent' => ?_
      · rw [hr]
      · rw [hr]
        exact ⟨hsame.URL, hsame.presReq, hsame.cacheType⟩
      · exact ⟨hnotEnd, ⟨hparse, hbad⟩, ⟨hsent, hsent'⟩, fun hnot => absurd hstage hnot⟩

/-- The inner loop, in the stage COMPATIBILITY. -/
theorem innerLoop_compatibility_after {n : Nat} (hhas : Has numSets before p.calls (pinOf p.r off) none) (hlDel : p.r.lDel = false)
    (htype : p.r.type = .cache ∨ p.r.type = .follow) (hstage : p.r.pstage = .compatibility) (hmap : p.r.map = false)
    (hhandler : p.r.writeHandler = none) (hflag : p.thisFlag = true) (hthis2 : p.this2 = false)
    (hstarts : Accepted a b → ¬(o.parse = -1 ∨ o.parsed = badResponse ∨ o.parsed = comeBack) → o.expiry ≠ -1 → p.r.presReq = true →
      o.compatibility ≠ -1 → Starts o b p.r)
    (hsame : Same r p.r) (hexamined : Examined r b) (hloop : innerLoop a o off b n p = .ok p') : After numSets a o b r before p' := by
  rcases innerLoop_compatibility_cases hlDel htype hstage hflag hloop with ⟨haccepted, hpass⟩ | ⟨hr, hpthis2, hcalls⟩
  · exact compatibilityPass_after hhas hlDel hmap hhandler hthis2 haccepted (hstarts haccepted) hsame hexamined hpass
  · refine after_gone ?_ ?_ (hpthis2.trans hthis2)
    · rw [hcalls]
      exact Has.doneReadingPass (p := p.call (.discardHeaders p.r.hash p.r.matchNum)) (hhas.other rfl rfl)
    · rw [hr]
      exact delResponseTranLazy_lDel _

/-- The inner loop gives back the block, and the slot unless there are more blocks to come. -/
theorem innerLoop_after {n : Nat} (hhas : Has numSets before p.calls (pinOf p.r off) lock) (hlDel : p.r.lDel = false)
    (henters : Enters numSets p.r lock) (hflag : p.thisFlag = true) (hthis2 : p.this2 = false) (hreleases : Releases a o b p.r)
    (hloop : innerLoop a o off b n p = .ok p') : After numSets a o b p.r before p' := by
  have hhandles : Handles a o b p.r := by
    by_contra hnot
    rw [(innerLoop_ends a o off b hlDel hflag hthis2).2 hnot n] at hloop
    cases hloop
  obtain ⟨hmap, hhandler⟩ := henters.idle hlDel
  have hpass := innerPass_stage a o off b hlDel hhandles.type
  cases n with
  | zero => cases hloop
  | succ n =>
      rcases hhandles.pstage with hstage | hstage | hstage
      · have hlock : lock = none := henters.before hlDel (by rw [hstage]; decide)
        rw [hlock] at hhas
        rw [hstage] at hpass
        by_cases hnone : getBestMatch p.r b = -1
        · rw [innerLoop_served (.inr ⟨_, hpass, matchPass_leaves hnone⟩), hpass] at hloop
          rw [← Except.ok.inj hloop]
          exact matchPass_after hhas hhandler hthis2 hnone
        · have hmatch : matchPass o off b p = { p with matchNum := getBestMatch p.r b, r := { p.r with pstage := .compatibility } } :=
            if_neg hnone
          rw [hmatch] at hpass
          rw [innerLoop_step hpass hflag] at hloop
          refine innerLoop_compatibility_after (p := { p with matchNum := getBestMatch p.r b, r := { p.r with pstage := .compatibility } })
            hhas hlDel hhandles.type rfl hmap hhandler hflag hthis2 (fun haccepted hparse hexpiry hclient hcompatible => ?_)
            ⟨rfl, rfl, rfl⟩ (.inr ⟨hstage, hnone⟩) hloop
          exact (hreleases.examined (.inr ⟨hstage, hnone⟩) haccepted hparse hexpiry hclient hcompatible).congr rfl
      · have hlock : lock = none := henters.before hlDel (by rw [hstage]; decide)
        rw [hlock] at hhas
        exact innerLoop_compatibility_after hhas hlDel hhandles.type hstage hmap hhandler hflag hthis2 (hreleases.examined (.inl hstage))
          ⟨rfl, rfl, rfl⟩ (.inl hstage) hloop
      · obtain ⟨hlock, hhead⟩ := henters.sending hlDel hstage
        rw [hlock] at hhas
        rw [hstage] at hpass
        have hserved : Served b p (innerPass a o off b p) := by
          rw [hpass]
          exact sendingPass_served o off b p
        rw [innerLoop_served hserved, hpass] at hloop
        exact sendingPass_after hhas hlDel hmap hhead hhandler hthis2 (hreleases.sending hstage) ⟨rfl, rfl, rfl⟩ hstage hloop

end Stages

/-! ## A call -/

/-- No pass of the outer loop, from pass `k` on, takes an exit that forgets a block or a slot: the blocks that the response
is followed through are each handled by `Releases`. -/
def ReleasesAll (env : Env) : Nat → Nat → List StoredBlock → Response → Prop
  | 0, _, _, _ => True
  | n + 1, k, dob, r =>
      r.lDel = false → ∀ b ∈ firstBlock env dob r, Releases env.alloc (env.outcomes k) b r ∧
        (GoesOn env.alloc (env.outcomes k) b r → ReleasesAll env n (k + 1) dob.tail { r with pstage := .sending, remOffset := b.next })

section Call

variable {numSets : Nat} {env : Env} {before lock : Option Slot} {k n : Nat} {dob dob' : List StoredBlock} {a : Alloc} {o : Outcome}
  {b : StoredBlock} {r r' : Response} {p p' : Pass}

theorem Same.urlFits (hsame : Same r r') : urlFits r' b ↔ urlFits r b := by
  unfold Serve.urlFits
  rw [hsame.URL]

theorem Same.getBestMatch (hsame : Same r r') : getBestMatch r' b = getBestMatch r b := by
  unfold Serve.getBestMatch
  simp only [hsame.urlFits]

theorem Same.examined (hsame : Same r r') (hstage : r'.pstage = r.pstage) : Examined r' b ↔ Examined r b := by
  unfold Examined
  rw [hstage, hsame.getBestMatch]

theorem Releases.congr (h : Releases a o b r) (hsame : Same r r') (hstage : r'.pstage = r.pstage) : Releases a o b r' := by
  constructor
  · intro hsending
    obtain ⟨hurl, hreadable, hdelivers⟩ := h.sending (hstage.symm.trans hsending)
    exact ⟨hsame.urlFits.mpr hurl, hreadable, fun hparse hbad => (hdelivers hparse hbad).congr hsame.presReq⟩
  · intro hexamined haccepted hparse hexpiry hclient hcompatible
    have hstarts := h.examined ((hsame.examined hstage).mp hexamined) haccepted hparse hexpiry (hsame.presReq.symm.trans hclient)
        hcompatible
    exact hstarts.congr hsame.presReq

theorem GoesOn.congr (h : GoesOn a o b r') (hsame : Same r r') (hstage : r'.pstage = r.pstage) : GoesOn a o b r where
  status := h.status
  parse := h.parse
  sent := by
    rw [← sendData_fst_congr hsame.presReq]
    exact h.sent
  started := by
    intro hnot
    obtain ⟨hexamined, haccepted, hback, hexpiry, hclient, hrest⟩ := h.started (hstage.trans_ne hnot)
    exact ⟨(hsame.examined hstage).mp hexamined, haccepted, hback, hexpiry, hsame.presReq.symm.trans hclient, hrest⟩

/-- Only where the response is looked for, and what the stages keep of it, matters. -/
theorem ReleasesAll.congr (h : ReleasesAll env n k dob r) (hsame : Same r r') (hstage : r'.pstage = r.pstage)
    (hlDel : r'.lDel = false → r.lDel = false) (hoff : r'.cacheType = .hoc → r'.remOffset = r.remOffset)
    (hdob : r'.cacheType = .dob → dob' = dob) : ReleasesAll env n k dob' r' := by
  induction n generalizing k dob dob' r r' with
  | zero => trivial
  | succ n ih =>
      intro hkept b hb
      have hfirst : firstBlock env dob r = some b := by
        obtain hb : firstBlock env dob' r' = some b := hb
        rw [← hb]
        unfold firstBlock
        rw [← hsame.cacheType]
        cases hcache : r'.cacheType with
        | hoc => simp only [hoff hcache]
        | dob => simp only [hdob hcache]
      obtain ⟨hreleases, hnext⟩ := h (hlDel hkept) b hfirst
      refine ⟨hreleases.congr hsame hstage, fun hgoes => ?_⟩
      refine ih (hnext (hgoes.congr hsame hstage)) ⟨hsame.URL, hsame.presReq, hsame.cacheType⟩ rfl hlDel (fun _ => rfl) fun hcache => ?_
      rw [hdob hcache]

/-- The response waits for the disk, or waits already. -/
theorem askDisk_after (hhas : Has numSets before p.calls none lock) (henters : Enters numSets p.r lock) (hlDel : p.r.lDel = false) :
    Has numSets before (askDisk p).calls none lock ∧ Keeps numSets (askDisk p).r lock := by
  have hhandler := (henters.idle hlDel).2
  have hkeeps (map : Bool) : Keeps numSets { p.r with map := map } lock := by
    by_cases hstage : p.r.pstage = .sending
    · obtain ⟨hlock, hhead⟩ := henters.sending hlDel hstage
      rw [hlock]
      exact .sending hlDel hstage hhead hhandler
    · rw [henters.before hlDel hstage]
      exact .before hlDel hstage hhandler
  unfold askDisk
  split
  · exact ⟨hhas, hkeeps p.r.map⟩
  · exact ⟨hhas.other rfl rfl, hkeeps true⟩

/-- The block that is found is held while it is looked at. -/
theorem fetch_has {q : Pass} (hhas : Has numSets before p.calls none lock) (hfetch : fetch env dob p = .ok (some b, dob', q)) :
    Has numSets before q.calls (pinOf p.r p.r.remOffset) lock := by
  rw [fetch_calls hfetch]
  unfold pinOf
  split
  · exact hhas.getBlock
  · exact hhas

/-- What a call leaves is in order. -/
theorem outerLoop_after (hhas : Has numSets before p.calls none lock) (henters : Enters numSets p.r lock) (hthis2 : p.this2 = false)
    (hreleases : ReleasesAll env n k dob p.r) (hloop : outerLoop env n k dob p = .ok p') :
    ∃ lock', Has numSets before p'.calls none lock' ∧ Keeps numSets p'.r lock' := by
  induction n generalizing k dob p lock with
  | zero => cases hloop
  | succ n ih =>
      cases hlDel : p.r.lDel with
      | true =>
          rw [outerLoop, if_pos hlDel] at hloop
          rw [← Except.ok.inj hloop]
          rw [henters.gone hlDel] at hhas
          exact ⟨none, hhas, .gone hlDel⟩
      | false =>
          rcases fetch_cases env dob p with ⟨_, hnone⟩ | ⟨b, dob', q, hfetch, hfetched⟩
          · rw [outerLoop, hlDel, if_neg Bool.false_ne_true] at hloop
            rcases hnone with hnone | hnone
            · rw [hnone] at hloop
              cases hloop
            · rw [hnone] at hloop
              rw [← Except.ok.inj hloop]
              exact ⟨lock, askDisk_after hhas henters hlDel⟩
          · rw [outerLoop_some hlDel hfetch] at hloop
            obtain ⟨p₁, hinner, hloop⟩ := Run.bind_eq_ok.mp hloop
            have hr : (entered q).r = { p.r with remOffset := q.r.remOffset, version := q.r.version, block := (entered q).r.block } := by
              rw [entered, hfetched.r]
            generalize (entered q).r.block = block at hr
            have hsame : Same p.r (entered q).r := by
              rw [hr]
              exact ⟨rfl, rfl, rfl⟩
            have hentered : (entered q).r.lDel = false ∧ (entered q).r.pstage = p.r.pstage ∧ Enters numSets (entered q).r lock := by
              rw [hr]
              exact ⟨hlDel, rfl, henters.gone, henters.before, henters.sending, henters.idle⟩
            have hheld : Has numSets before (entered q).calls (pinOf (entered q).r p.r.remOffset) lock := by
              have hheld := fetch_has hhas hfetch
              unfold pinOf at hheld ⊢
              rw [hsame.cacheType]
              exact hheld
            obtain ⟨hblock, hnext⟩ := hreleases hlDel b hfetched.first
            obtain ⟨lock₁, hhas₁, hgo, hstop⟩ := innerLoop_after hheld hentered.1 hentered.2.2 rfl (hfetched.this2.trans hthis2)
              (hblock.congr hsame hentered.2.1) hinner
            cases hthis : p₁.this2 with
            | false =>
                rw [hthis] at hloop
                rw [← Except.ok.inj hloop]
                exact ⟨lock₁, hhas₁, hstop hthis⟩
            | true =>
                rw [if_pos hthis] at hloop
                obtain ⟨henters₁, hgoes, hsame₁, hstage₁, hoff₁⟩ := hgo hthis
                refine ih (p := { p₁ with this2 := false }) hhas₁ henters₁ rfl ?_ hloop
                refine (hnext (hgoes.congr hsame hentered.2.1)).congr ⟨?_, ?_, ?_⟩ hstage₁ (fun _ => hlDel) (fun _ => hoff₁)
                  fun hcache => ?_
                · exact hsame₁.URL.trans hsame.URL
                · exact hsame₁.presReq.trans hsame.presReq
                · exact hsame₁.cacheType.trans hsame.cacheType
                · rw [hfetched.rest ((hsame₁.cacheType.trans hsame.cacheType).symm.trans hcache)]
                  rfl

/-- In a call, every block is given back. -/
theorem processFurtherBlocks_after {got : Response × List Call} (henters : Enters numSets r lock) (hreleases : ReleasesAll env n 0 dob r)
    (hcall : processFurtherBlocks env n dob r = .ok got) : ∃ lock', Has numSets lock got.2 none lock' ∧ Keeps numSets got.1 lock' := by
  obtain ⟨p', hloop, hgot⟩ := Run.bind_eq_ok.mp hcall
  rw [← Except.ok.inj hgot]
  exact outerLoop_after (p := ⟨r, true, false, 0, []⟩) (.nil numSets lock) henters rfl hreleases hloop

end Call

end BeagleCache.Serve

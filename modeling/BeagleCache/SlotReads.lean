import Mathlib.Tactic
import BeagleCache.ReadLocks

/-! The slot that a response locks for reading, whatever exits serving it takes. The way is always the local match, which is 0, and it
is locked with the first block that is served. -/

namespace BeagleCache.Serve

open Hcfs Transition

/-- The locks that a call takes. -/
def lockAdds (calls : List Call) : List (Nat × Int) :=
  calls.filterMap fun
    | .addReadLock hash matchNum => some (hash, matchNum)
    | _ => none

/-- The first block is served: a response that is looked for comes to `addReadLock`. -/
def LocksFirst (a : Alloc) (o : Outcome) (b : StoredBlock) (r : Response) : Prop :=
  Examined r b ∧ Accepted a b ∧ ¬(o.parse = -1 ∨ o.parsed = badResponse ∨ o.parsed = comeBack) ∧ o.expiry ≠ -1 ∧ r.presReq = true ∧
    o.compatibility ≠ -1

/-- The slot of a response. -/
def readSlot (numSets : Nat) (r : Response) : Slot := slotOf numSets r.hash 0

/-- A response between two calls, and the slot it has: it is deleted, and may have forgotten its slot; it goes to the download; it has
more blocks to come; it waits for its client, with its header or some data; or everything was read for it. -/
inductive Holds (numSets : Nat) (r : Response) : Option Slot → Prop
  | gone {lock : Option Slot} : r.lDel = true → Holds numSets r lock
  | left : r.lDel = false → r.pstage ≠ .sending → r.type = .down → r.map = false → r.writeHandler = none → Holds numSets r none
  | sending : r.lDel = false → r.pstage = .sending → r.matchNum = 0 → (r.map = true → r.sendHead = true) → r.writeHandler = none →
      Holds numSets r (some (readSlot numSets r))
  | waiting : r.lDel = false → r.pstage = .sending → r.matchNum = 0 → r.map = false → r.writeHandler ≠ none →
      (r.writeHandler = some .resumeDiskRead → r.sendHead = true) → Holds numSets r (some (readSlot numSets r))
  | finishing : r.lDel = false → r.pstage = .sending → r.status = entityComplete → r.map = false →
      (r.writeHandler = some .resumeDiskRead → r.sendHead = true) → Holds numSets r none

/-- A response that a pass of the outer loop begins with. -/
inductive Comes (numSets : Nat) (r : Response) : Option Slot → Prop
  | gone {lock : Option Slot} : r.lDel = true → Comes numSets r lock
  | fresh : r.lDel = false → r.pstage = .matching → r.map = false → r.writeHandler = none → Comes numSets r none
  | sending : r.lDel = false → r.pstage = .sending → r.matchNum = 0 → r.sendHead = true → r.map = false → r.writeHandler = none →
      Comes numSets r (some (readSlot numSets r))

/-- What no stage changes. -/
structure Kept (r r' : Response) : Prop where
  URL : r'.URL = r.URL
  hash : r'.hash = r.hash
  cacheType : r'.cacheType = r.cacheType

/-- What a pass leaves: the slot it has, and whether it has locked one. -/
structure Reads (numSets : Nat) (before : Option Slot) (adds : Prop) (p p' : Pass) (lock : Option Slot) : Prop where
  run : Turns.run before (p'.calls.filterMap (lockOp numSets)) = some lock
  kept : Kept p.r p'.r
  adds : lockAdds p'.calls = lockAdds p.calls ∨ lockAdds p'.calls = lockAdds p.calls ++ [(p.r.hash, 0)] ∧ adds
  goes : p'.this2 = true → p'.r.lDel = true ∨ p'.r.pstage = .sending ∧ Comes numSets p'.r lock
  ends : p'.this2 = false → Holds numSets p'.r lock

section Stages

variable {numSets : Nat} {a : Alloc} {o : Outcome} {off : Int} {b : StoredBlock} {p p' : Pass} {before lock : Option Slot} {adds : Prop}

theorem run_other {calls : List Call} {c : Call} (h : lockOp numSets c = none) :
    (calls ++ [c]).filterMap (lockOp numSets) = calls.filterMap (lockOp numSets) := by
  rw [List.filterMap_append, List.filterMap_cons_none h, List.filterMap_nil, List.append_nil]

theorem lockAdds_append (calls calls' : List Call) : lockAdds (calls ++ calls') = lockAdds calls ++ lockAdds calls' :=
  List.filterMap_append

@[simp] theorem doneReading_locks : (p.doneReading off).calls.filterMap (lockOp numSets) = p.calls.filterMap (lockOp numSets) := by
  unfold Pass.doneReading
  split
  · exact run_other rfl
  · rfl

@[simp] theorem doneReading_adds : lockAdds (p.doneReading off).calls = lockAdds p.calls := by
  unfold Pass.doneReading
  split
  · exact (lockAdds_append _ _).trans (List.append_nil _)
  · rfl

theorem run_removeReadLock {calls : List Call} {hash : Nat} {m : Int}
    (h : Turns.run before (calls.filterMap (lockOp numSets)) = some (some (slotOf numSets hash m))) :
    Turns.run before ((calls ++ [Call.removeReadLock hash m]).filterMap (lockOp numSets)) = some none := by
  rw [List.filterMap_append]
  exact Turns.run_give h

theorem delResponseTranLazy_kept (r : Response) : Kept r (delResponseTranLazy r) := by
  unfold delResponseTranLazy
  split
  · exact ⟨rfl, rfl, rfl⟩
  · exact ⟨rfl, rfl, rfl⟩

theorem Kept.trans {r r' r'' : Response} (h : Kept r r') (h' : Kept r' r'') : Kept r r'' :=
  ⟨h'.URL.trans h.URL, h'.hash.trans h.hash, h'.cacheType.trans h.cacheType⟩

theorem giveUp_kept (p : Pass) : Kept p.r p.giveUp.r :=
  (Kept.mk rfl rfl rfl : Kept p.r (delRequestTranLazy p.r)).trans (delResponseTranLazy_kept _)

theorem readyForDownload_kept (o : Outcome) (r : Response) : Kept r (readyForDownload o r) := by
  unfold readyForDownload searchAndConnect delResponseTranLazy delRequestTranLazy
  simp only
  split_ifs <;> exact ⟨rfl, rfl, rfl⟩

theorem readyForDownload_holds (o : Outcome) {r : Response} (hhandler : r.writeHandler = none) :
    Holds numSets (readyForDownload o r) none := by
  rcases readyForDownload_cases o r with ⟨hdeleted, _⟩ | ⟨⟨hkept, hdown⟩, hgiven⟩
  · exact .gone hdeleted
  · have hleft : (readyForDownload o r).map = false ∧ (readyForDownload o r).writeHandler = none := by
      unfold GivenUp at hgiven
      unfold readyForDownload searchAndConnect
      simp only [not_or, Bool.not_eq_false, Bool.not_eq_true] at hgiven
      simp [hgiven, hhandler]
    refine .left hkept ?_ hdown hleft.1 hleft.2
    show Stage.first ≠ .sending
    decide

theorem deliver_reads (removes : Bool) (o : Outcome) (b : StoredBlock) (adds : Prop)
    (hrun : Turns.run before (p.calls.filterMap (lockOp numSets)) = some (some (readSlot numSets p.r)))
    (hmatch : p.matchNum = 0) (hlDel : p.r.lDel = false) (hmap : p.r.map = false) (hhead : p.r.sendHead = true)
    (hhandler : p.r.writeHandler = none) (hthis2 : p.this2 = false) : ∃ lock, Reads numSets before adds p (deliver removes o b p) lock := by
  have hsame : Kept p.r (sendData o p.r).2 := by
    rcases sendData_same o p.r with h | h <;> rw [h]
    · exact ⟨rfl, rfl, rfl⟩
    · exact delResponseTranLazy_kept p.r
  have hremoved :
      Turns.run before ((p.calls ++ [Call.removeReadLock (sendData o p.r).2.hash p.matchNum]).filterMap (lockOp numSets)) = some none := by
    rw [hsame.hash, hmatch]
    exact run_removeReadLock hrun
  have hadds : lockAdds (p.calls ++ [Call.removeReadLock (sendData o p.r).2.hash p.matchNum]) = lockAdds p.calls :=
    (lockAdds_append _ _).trans (List.append_nil _)
  have hgone (calls : List Call) (r : Response) (hkept : Kept p.r r) (lock : Option Slot)
      (hcalls : Turns.run before (calls.filterMap (lockOp numSets)) = some lock) (hno : lockAdds calls = lockAdds p.calls) :
      Reads numSets before adds p (Pass.giveUp { p with r := r, calls := calls }) lock := by
    refine ⟨hcalls, ?_, .inl hno, fun h => ?_, fun _ => .gone (delResponseTranLazy_lDel _)⟩
    · exact Kept.trans hkept (giveUp_kept { p with r := r, calls := calls })
    · exact absurd h (ne_true_of_eq_false hthis2)
  unfold deliver
  simp only
  by_cases htwo : (sendData o p.r).1 = 2
  · have hleft : (sendData o p.r).2 = p.r := sendData_of_waits htwo
    rw [if_pos htwo]
    rw [hleft] at hremoved hadds ⊢
    by_cases hend : b.status = endMark
    · rw [if_pos hend]
      refine ⟨none, hremoved, ⟨rfl, rfl, rfl⟩, .inl hadds, fun h => absurd h (ne_true_of_eq_false hthis2),
        fun _ => .finishing hlDel rfl rfl hmap fun _ => hhead⟩
    · rw [if_neg hend]
      exact ⟨_, hrun, ⟨rfl, rfl, rfl⟩, .inl rfl, fun h => absurd h (ne_true_of_eq_false hthis2),
        fun _ => .waiting hlDel rfl hmatch hmap (by simp [Pass.sending]) fun _ => hhead⟩
  · rw [if_neg htwo]
    by_cases hminus : (sendData o p.r).1 = -1
    · rw [if_pos hminus]
      cases removes with
      | true => exact ⟨_, hgone _ _ hsame _ hremoved hadds⟩
      | false => exact ⟨_, hgone _ _ hsame _ hrun rfl⟩
    · rw [if_neg hminus]
      by_cases hend : b.status = endMark
      · rw [if_pos hend]
        exact ⟨none, hgone _ { (sendData o p.r).2 with status := entityComplete } ⟨hsame.URL, hsame.hash, hsame.cacheType⟩
          none hremoved hadds⟩
      · rw [if_neg hend]
        by_cases hmore : b.status = notEnd
        · rw [if_pos hmore]
          refine ⟨_, hrun, ⟨hsame.URL, hsame.hash, hsame.cacheType⟩, .inl rfl, fun _ => ?_, fun h => nomatch h⟩
          rcases sendData_same o p.r with h | h
          · rw [h]
            exact .inr ⟨rfl, .sending hlDel rfl hmatch hhead hmap hhandler⟩
          · rw [h]
            exact .inl (delResponseTranLazy_lDel _)
        · rw [if_neg hmore]
          exact ⟨_, hgone _ _ hsame _ hrun rfl⟩

theorem startSending_reads (o : Outcome) (b : StoredBlock)
    (hrun : Turns.run before (p.calls.filterMap (lockOp numSets)) = some none) (hmatch : p.matchNum = 0)
    (hlDel : p.r.lDel = false) (hmap : p.r.map = false) (hclient : p.r.presReq = true) (hhandler : p.r.writeHandler = none)
    (hthis2 : p.this2 = false) (hadds : adds) : ∃ lock, Reads numSets before adds p (startSending o b p) lock := by
  have hlocked : Turns.run before ((p.call (.addReadLock p.r.hash p.matchNum)).calls.filterMap (lockOp numSets)) =
      some (some (readSlot numSets p.r)) := by
    rw [hmatch]
    show Turns.run before ((p.calls ++ [Call.addReadLock p.r.hash 0]).filterMap (lockOp numSets)) = _
    rw [List.filterMap_append]
    exact Turns.run_take hrun
  have hadded : lockAdds (p.call (.addReadLock p.r.hash p.matchNum)).calls = lockAdds p.calls ++ [(p.r.hash, 0)] := by
    rw [hmatch]
    exact lockAdds_append _ _
  have hremoved :
      Turns.run before ((p.call (.addReadLock p.r.hash p.matchNum)).removeReadLock.calls.filterMap (lockOp numSets)) = some none := by
    show Turns.run before (((p.call (.addReadLock p.r.hash p.matchNum)).calls ++ [Call.removeReadLock p.r.hash p.matchNum]).filterMap
      (lockOp numSets)) = some none
    refine run_removeReadLock ?_
    rw [hmatch]
    rw [hmatch] at hlocked
    exact hlocked
  have hadded' : lockAdds (p.call (.addReadLock p.r.hash p.matchNum)).removeReadLock.calls = lockAdds p.calls ++ [(p.r.hash, 0)] := by
    rw [← hadded]
    exact (lockAdds_append _ _).trans (List.append_nil _)
  have hheader : sendHeader o (p.call (.addReadLock p.r.hash p.matchNum)).r = o.header := by
    show (if p.r.presReq = true then o.header else 0) = o.header
    rw [if_pos hclient]
  unfold startSending
  simp only [hheader]
  by_cases htwo : o.header = 2
  · rw [if_pos htwo]
    by_cases hend : b.status = endMark
    · rw [if_pos hend]
      exact ⟨none, hremoved, ⟨rfl, rfl, rfl⟩, .inr ⟨hadded', hadds⟩, fun h => absurd h (ne_true_of_eq_false hthis2),
        fun _ => .finishing hlDel rfl rfl hmap fun h => nomatch h⟩
    · rw [if_neg hend]
      exact ⟨_, hlocked, ⟨rfl, rfl, rfl⟩, .inr ⟨hadded, hadds⟩, fun h => absurd h (ne_true_of_eq_false hthis2),
        fun _ => .waiting hlDel rfl hmatch hmap (by simp [Pass.sending]) fun h => nomatch h⟩
  · rw [if_neg htwo]
    by_cases hminus : o.header = -1
    · rw [if_pos hminus]
      have hdeleted := giveUp_kept { p with r := { p.r with sendHead := true } }
      exact ⟨none, hremoved, ⟨hdeleted.URL, hdeleted.hash, hdeleted.cacheType⟩, .inr ⟨hadded', hadds⟩,
        fun h => absurd h (ne_true_of_eq_false hthis2), fun _ => .gone (delResponseTranLazy_lDel _)⟩
    · have hthere : ¬(p.call (.addReadLock p.r.hash p.matchNum)).r.presReq = false := by
        show ¬p.r.presReq = false
        rw [hclient]
        decide
      rw [if_neg hminus, if_neg hthere]
      obtain ⟨lock, hreads⟩ := deliver_reads true o b False
        (p := { p.call (.addReadLock p.r.hash p.matchNum) with r := { p.r with sendHead := true } }) hlocked hmatch hlDel hmap rfl
        hhandler hthis2
      exact ⟨lock, hreads.run, ⟨hreads.kept.URL, hreads.kept.hash, hreads.kept.cacheType⟩,
        .inr ⟨(hreads.adds.resolve_right And.right).trans hadded, hadds⟩,
        hreads.goes, hreads.ends⟩

theorem redo_reads (o : Outcome) {q : Pass} (hrun : Turns.run before (q.calls.filterMap (lockOp numSets)) = some none)
    (hkept : Kept p.r q.r) (hadds : lockAdds q.calls = lockAdds p.calls) (hhandler : q.r.writeHandler = none) (hthis2 : q.this2 = false) :
    Reads numSets before adds p { q.redo o with thisFlag := false } none :=
  ⟨hrun, hkept.trans (readyForDownload_kept o q.r), .inl hadds, fun h => absurd h (ne_true_of_eq_false hthis2),
    fun _ => readyForDownload_holds o hhandler⟩

theorem matchPass_reads (o : Outcome) (off : Int) (adds : Prop) (hrun : Turns.run before (p.calls.filterMap (lockOp numSets)) = some none)
    (hhandler : p.r.writeHandler = none) (hthis2 : p.this2 = false) (hnone : getBestMatch p.r b = -1) :
    Reads numSets before adds p (matchPass o off b p) none := by
  unfold matchPass
  simp only [hnone, if_true]
  split
  · have hdeleted := giveUp_kept { p with matchNum := -1 }
    refine ⟨?_, ?_, .inl ?_, fun h => ?_, fun _ => .gone ?_⟩
    · rw [doneReading_locks]
      exact hrun
    · rw [doneReading_r]
      exact hdeleted
    · rw [doneReading_adds]
      rfl
    · rw [doneReading_this2] at h
      exact absurd h (ne_true_of_eq_false hthis2)
    · rw [doneReading_r]
      exact delResponseTranLazy_lDel _
  · refine redo_reads o (q := ({ p with matchNum := -1 } : Pass).doneReading off) ?_ ?_ ?_ ?_ ?_
    · rw [doneReading_locks]
      exact hrun
    · rw [doneReading_r]
      exact ⟨rfl, rfl, rfl⟩
    · exact doneReading_adds
    · rw [doneReading_r]
      exact hhandler
    · rw [doneReading_this2]
      exact hthis2

theorem discard_reads (o : Outcome) (off : Int) {q : Pass} (hrun : Turns.run before (q.calls.filterMap (lockOp numSets)) = some none)
    (hkept : Kept p.r q.r) (hadds : lockAdds q.calls = lockAdds p.calls) (hhandler : q.r.writeHandler = none) (hthis2 : q.this2 = false) :
    Reads numSets before adds p (discard o off q) none := by
  have hdiscarded : Turns.run before ((q.call (.discardHeaders q.r.hash q.r.matchNum)).calls.filterMap (lockOp numSets)) = some none := by
    rw [Pass.call, run_other rfl]
    exact hrun
  have hnone : lockAdds (q.call (.discardHeaders q.r.hash q.r.matchNum)).calls = lockAdds p.calls := by
    rw [← hadds]
    exact (lockAdds_append _ _).trans (List.append_nil _)
  unfold discard
  simp only
  split
  · refine redo_reads o (q := (q.call (.discardHeaders q.r.hash q.r.matchNum)).call (.expire off)) ?_ hkept ?_ hhandler hthis2
    · rw [Pass.call, run_other rfl]
      exact hdiscarded
    · rw [← hnone]
      exact (lockAdds_append _ _).trans (List.append_nil _)
  · exact redo_reads o (q := q.call (.discardHeaders q.r.hash q.r.matchNum)) hdiscarded hkept hnone hhandler hthis2

theorem parse_locks : (p.parse o off).calls.filterMap (lockOp numSets) = p.calls.filterMap (lockOp numSets) :=
  doneReading_locks (p := { p with r := { p.r with status := o.parsed } })

theorem parse_adds : lockAdds (p.parse o off).calls = lockAdds p.calls :=
  doneReading_adds (p := { p with r := { p.r with status := o.parsed } })

theorem compatibilityPass_reads (hrun : Turns.run before (p.calls.filterMap (lockOp numSets)) = some none) (hmatch : p.matchNum = 0)
    (hlDel : p.r.lDel = false) (hmap : p.r.map = false) (hhandler : p.r.writeHandler = none) (hthis2 : p.this2 = false)
    (haccepted : Accepted a b)
    (hadds : ¬(o.parse = -1 ∨ o.parsed = badResponse ∨ o.parsed = comeBack) →
      o.expiry ≠ -1 → p.r.presReq = true → o.compatibility ≠ -1 → adds)
    (hpass : compatibilityPass a o off b p = .ok p') : ∃ lock, Reads numSets before adds p p' lock := by
  have hparsed : Turns.run before ((p.parse o off).calls.filterMap (lockOp numSets)) = some none := by
    rw [parse_locks]
    exact hrun
  have hr : (p.parse o off).r = { p.r with status := o.parsed } := parse_r
  have hkept : Kept p.r (p.parse o off).r := by
    rw [hr]
    exact ⟨rfl, rfl, rfl⟩
  have hhandler' : (p.parse o off).r.writeHandler = none := by
    rw [hr]
    exact hhandler
  have hthis2' : (p.parse o off).this2 = false := parse_this2.trans hthis2
  obtain h | h | h | h | ⟨⟨hparse, hexpiry, hclient, hcompatible⟩, h⟩ := compatibilityPass_cases o off p haccepted <;> rw [h] at hpass <;>
    cases hpass
  · exact ⟨none, discard_reads o off hparsed hkept parse_adds hhandler' hthis2'⟩
  · have hdeleted := delResponseTranLazy_kept (p.parse o off).r
    exact ⟨none, hparsed, hkept.trans hdeleted, .inl parse_adds, fun h => absurd h (ne_true_of_eq_false hthis2'),
      fun _ => .gone (delResponseTranLazy_lDel _)⟩
  · exact ⟨none, redo_reads o hparsed hkept parse_adds hhandler' hthis2'⟩
  · have hready : (p.parse o off).r.lDel = false ∧ (p.parse o off).r.map = false ∧ (p.parse o off).r.presReq = true := by
      rw [hr]
      exact ⟨hlDel, hmap, hclient⟩
    obtain ⟨lock, hreads⟩ := startSending_reads o b hparsed (parse_matchNum.trans hmatch) hready.1 hready.2.1 hready.2.2 hhandler'
      hthis2' (hadds hparse hexpiry hclient hcompatible)
    have hadded := hreads.adds
    rw [parse_adds, hkept.hash] at hadded
    exact ⟨lock, hreads.run, hkept.trans hreads.kept, hadded, hreads.goes, hreads.ends⟩

theorem sendingPass_reads (adds : Prop) (hrun : Turns.run before (p.calls.filterMap (lockOp numSets)) = some (some (readSlot numSets p.r)))
    (hmatch : p.r.matchNum = 0) (hlDel : p.r.lDel = false) (hmap : p.r.map = false) (hhead : p.r.sendHead = true)
    (hhandler : p.r.writeHandler = none) (hthis2 : p.this2 = false) (hpass : sendingPass o off b p = .ok p') :
    ∃ lock, Reads numSets before adds p p' lock := by
  have hparsed : Turns.run before ((({ p with matchNum := p.r.matchNum } : Pass).parse o off).calls.filterMap (lockOp numSets)) =
      some (some (readSlot numSets p.r)) := by
    rw [parse_locks]
    exact hrun
  have hnone : lockAdds (({ p with matchNum := p.r.matchNum } : Pass).parse o off).calls = lockAdds p.calls := parse_adds
  generalize hq : ({ p with matchNum := p.r.matchNum } : Pass).parse o off = q at hparsed hnone
  have hr : q.r = { p.r with status := o.parsed } := by rw [← hq, parse_r]
  have hmatch' : q.matchNum = 0 := by rw [← hq, parse_matchNum]; exact hmatch
  have hthis2' : q.this2 = false := by rw [← hq, parse_this2]; exact hthis2
  have hkept : Kept p.r q.r := by
    rw [hr]
    exact ⟨rfl, rfl, rfl⟩
  have hheld : Turns.run before (q.calls.filterMap (lockOp numSets)) = some (some (readSlot numSets q.r)) := by
    rw [readSlot, hkept.hash]
    exact hparsed
  unfold sendingPass at hpass
  simp only [hq] at hpass
  split at hpass
  · rw [← Except.ok.inj hpass]
    have hdeleted := giveUp_kept { p with matchNum := p.r.matchNum }
    exact ⟨_, hrun, hdeleted, .inl rfl, fun h => absurd h (ne_true_of_eq_false hthis2),
      fun _ => .gone (delResponseTranLazy_lDel _)⟩
  · split at hpass
    · cases hpass
    · split at hpass
      · rw [← Except.ok.inj hpass]
        have hdeleted := giveUp_kept q.removeReadLock
        refine ⟨none, ?_, hkept.trans hdeleted, .inl ?_, fun h => absurd h (ne_true_of_eq_false hthis2'),
          fun _ => .gone (delResponseTranLazy_lDel _)⟩
        · show Turns.run before ((q.calls ++ [Call.removeReadLock q.r.hash q.matchNum]).filterMap (lockOp numSets)) = some none
          rw [hmatch']
          exact run_removeReadLock hheld
        · rw [← hnone]
          exact (lockAdds_append _ _).trans (List.append_nil _)
      · rw [← Except.ok.inj hpass]
        have hready : q.r.lDel = false ∧ q.r.map = false ∧ q.r.sendHead = true ∧ q.r.writeHandler = none := by
          rw [hr]
          exact ⟨hlDel, hmap, hhead, hhandler⟩
        obtain ⟨lock, hreads⟩ := deliver_reads false o b False hheld hmatch' hready.1 hready.2.1 hready.2.2.1 hready.2.2.2 hthis2'
        refine ⟨lock, hreads.run, hkept.trans hreads.kept, .inl ?_, hreads.goes, hreads.ends⟩
        rw [← hnone]
        exact hreads.adds.resolve_right And.right

variable (adds) in
/-- The inner loop, for a response that has a slot or comes to lock one. -/
theorem innerLoop_compatibility_reads {n : Nat} (hrun : Turns.run before (p.calls.filterMap (lockOp numSets)) = some none)
    (hmatch : p.matchNum = 0) (hlDel : p.r.lDel = false) (htype : p.r.type = .cache ∨ p.r.type = .follow)
    (hstage : p.r.pstage = .compatibility) (hmap : p.r.map = false) (hhandler : p.r.writeHandler = none) (hflag : p.thisFlag = true)
    (hthis2 : p.this2 = false)
    (hadds : Accepted a b → ¬(o.parse = -1 ∨ o.parsed = badResponse ∨ o.parsed = comeBack) → o.expiry ≠ -1 → p.r.presReq = true →
      o.compatibility ≠ -1 → adds) (hloop : innerLoop a o off b n p = .ok p') : ∃ lock, Reads numSets before adds p p' lock := by
  rcases innerLoop_compatibility_cases hlDel htype hstage hflag hloop with ⟨haccepted, hpass⟩ | ⟨hr, hpthis2, hcalls⟩
  · exact compatibilityPass_reads hrun hmatch hlDel hmap hhandler hthis2 haccepted (hadds haccepted) hpass
  · refine ⟨none, ?_, ?_, .inl ?_, fun h => absurd ((hpthis2.trans hthis2).symm.trans h) Bool.false_ne_true, fun _ => .gone ?_⟩
    · rw [hcalls, doneReading_locks, Pass.call, run_other rfl]
      exact hrun
    · rw [hr]
      exact (readyForDownload_kept o p.r).trans (delResponseTranLazy_kept _)
    · rw [hcalls, doneReading_adds]
      exact (lockAdds_append _ _).trans (List.append_nil _)
    · rw [hr]
      exact delResponseTranLazy_lDel _

/-- The inner loop takes a slot only with the first block. -/
theorem innerLoop_reads {n : Nat} (hcomes : Comes numSets p.r lock)
    (hrun : Turns.run before (p.calls.filterMap (lockOp numSets)) = some lock)
    (hlDel : p.r.lDel = false) (hflag : p.thisFlag = true) (hthis2 : p.this2 = false)
    (hloop : innerLoop a o off b n p = .ok p') :
    ∃ lock', Reads numSets before (p.r.pstage = .matching ∧ LocksFirst a o b p.r) p p' lock' := by
  have hhandles : Handles a o b p.r := by
    by_contra hnot
    rw [(innerLoop_ends a o off b hlDel hflag hthis2).2 hnot n] at hloop
    cases hloop
  have hpass := innerPass_stage a o off b hlDel hhandles.type
  cases n with
  | zero => cases hloop
  | succ n =>
      cases hcomes with
      | gone h => exact absurd h (ne_true_of_eq_false hlDel)
      | fresh _ hstage hmap hhandler =>
          rw [hstage] at hpass
          by_cases hnone : getBestMatch p.r b = -1
          · rw [innerLoop_served (.inr ⟨_, hpass, matchPass_leaves hnone⟩), hpass] at hloop
            rw [← Except.ok.inj hloop]
            exact ⟨none, matchPass_reads o off _ hrun hhandler hthis2 hnone⟩
          · have hmatch : matchPass o off b p = { p with matchNum := getBestMatch p.r b, r := { p.r with pstage := .compatibility } } :=
              if_neg hnone
            have hzero : getBestMatch p.r b = 0 := by
              unfold getBestMatch at hnone ⊢
              split at hnone
              · next hfits => rw [if_pos hfits]
              · exact absurd rfl hnone
            rw [hmatch] at hpass
            rw [innerLoop_step hpass hflag] at hloop
            obtain ⟨lock', hreads⟩ := innerLoop_compatibility_reads (p.r.pstage = .matching ∧ LocksFirst a o b p.r)
              (p := { p with matchNum := getBestMatch p.r b, r := { p.r with pstage := .compatibility } })
              hrun hzero hlDel hhandles.type rfl hmap hhandler hflag hthis2
              (fun haccepted hparse hexpiry hclient hcompatible =>
                ⟨hstage, .inr ⟨hstage, hnone⟩, haccepted, hparse, hexpiry, hclient, hcompatible⟩) hloop
            exact ⟨lock', hreads.run, ⟨hreads.kept.URL, hreads.kept.hash, hreads.kept.cacheType⟩, hreads.adds, hreads.goes, hreads.ends⟩
      | sending _ hstage hmatch hhead hmap hhandler =>
          rw [hstage] at hpass
          have hserved : Served b p (innerPass a o off b p) := by
            rw [hpass]
            exact sendingPass_served o off b p
          rw [innerLoop_served hserved, hpass] at hloop
          exact sendingPass_reads _ hrun hmatch hlDel hmap hhead hhandler hthis2 hloop

end Stages

/-! ## A call -/

/-- The response locks its slot with the first block, which the pass `k` of a call begins with. -/
def Locks (env : Env) (k : Nat) (dob : List StoredBlock) (r : Response) : Prop :=
  r.lDel = false ∧ r.pstage = .matching ∧ ∃ b ∈ firstBlock env dob r, LocksFirst env.alloc (env.outcomes k) b r

section Call

variable {numSets : Nat} {env : Env} {before lock : Option Slot} {k n : Nat} {dob dob' : List StoredBlock} {b : StoredBlock} {r : Response}
  {p p' q : Pass}

theorem LocksFirst.congr {a : Alloc} {o : Outcome} {r' : Response} (h : LocksFirst a o b r') (hsame : Same r r')
    (hstage : r'.pstage = r.pstage) : LocksFirst a o b r := by
  obtain ⟨hexamined, haccepted, hparse, hexpiry, hthere, hcompatible⟩ := h
  exact ⟨(hsame.examined hstage).mp hexamined, haccepted, hparse, hexpiry, hsame.presReq.symm.trans hthere, hcompatible⟩

theorem fetch_locks (numSets : Nat) (hfetch : fetch env dob p = .ok (some b, dob', q)) :
    q.calls.filterMap (lockOp numSets) = p.calls.filterMap (lockOp numSets) ∧ lockAdds q.calls = lockAdds p.calls := by
  rw [fetch_calls hfetch]
  split
  · exact ⟨run_other rfl, (lockAdds_append _ _).trans (List.append_nil _)⟩
  · exact ⟨rfl, rfl⟩

theorem outerLoop_reads (hcomes : Comes numSets p.r lock)
    (hfirst : p.r.lDel = false → p.r.pstage = .matching → (firstBlock env dob p.r).isSome)
    (hrun : Turns.run before (p.calls.filterMap (lockOp numSets)) = some lock) (hthis2 : p.this2 = false)
    (hloop : outerLoop env n k dob p = .ok p') :
    ∃ lock', Turns.run before (p'.calls.filterMap (lockOp numSets)) = some lock' ∧ Kept p.r p'.r ∧ Holds numSets p'.r lock' ∧
      (lockAdds p'.calls = lockAdds p.calls ∨ lockAdds p'.calls = lockAdds p.calls ++ [(p.r.hash, 0)] ∧ Locks env k dob p.r) := by
  induction n generalizing k dob p lock with
  | zero => cases hloop
  | succ n ih =>
      cases hlDel : p.r.lDel with
      | true =>
          rw [outerLoop, if_pos hlDel] at hloop
          rw [← Except.ok.inj hloop]
          exact ⟨lock, hrun, ⟨rfl, rfl, rfl⟩, .gone hlDel, .inl rfl⟩
      | false =>
          rcases fetch_cases env dob p with ⟨hempty, hnone⟩ | ⟨b, dob', q, hfetch, hfetched⟩
          · rw [outerLoop, hlDel, if_neg Bool.false_ne_true] at hloop
            rcases hnone with hnone | hnone
            · rw [hnone] at hloop
              cases hloop
            · rw [hnone] at hloop
              rw [← Except.ok.inj hloop]
              cases hcomes with
              | gone h => exact absurd h (ne_true_of_eq_false hlDel)
              | fresh _ hstage _ _ =>
                  have hsome := hfirst hlDel hstage
                  rw [hempty] at hsome
                  cases hsome
              | sending _ hstage hmatch hhead hmap hhandler =>
                  show ∃ lock', Turns.run before ((askDisk p).calls.filterMap (lockOp numSets)) = some lock' ∧ _
                  unfold askDisk
                  split
                  · exact ⟨_, hrun, ⟨rfl, rfl, rfl⟩, .sending hlDel hstage hmatch (fun _ => hhead) hhandler, .inl rfl⟩
                  · refine ⟨_, ?_, ⟨rfl, rfl, rfl⟩, .sending hlDel hstage hmatch (fun _ => hhead) hhandler, .inl ?_⟩
                    · rw [Pass.call, run_other rfl]
                      exact hrun
                    · exact (lockAdds_append _ _).trans (List.append_nil _)
          · rw [outerLoop_some hlDel hfetch] at hloop
            obtain ⟨p₁, hinner, hloop⟩ := Run.bind_eq_ok.mp hloop
            obtain ⟨hlocks, hadds⟩ := fetch_locks numSets hfetch
            have hr : (entered q).r = { p.r with remOffset := q.r.remOffset, version := q.r.version, block := (entered q).r.block } := by
              rw [entered, hfetched.r]
            generalize (entered q).r.block = block at hr
            have hkept : Kept p.r (entered q).r := by
              rw [hr]
              exact ⟨rfl, rfl, rfl⟩
            have hentered : (entered q).r.lDel = false ∧ (entered q).r.pstage = p.r.pstage ∧ (entered q).r.presReq = p.r.presReq := by
              rw [hr]
              exact ⟨hlDel, rfl, rfl⟩
            have hcomes' : Comes numSets (entered q).r lock := by
              rw [hr]
              cases hcomes with
              | gone h => exact .gone h
              | fresh h hstage hmap hhandler => exact .fresh h hstage hmap hhandler
              | sending h hstage hmatch hhead hmap hhandler => exact .sending h hstage hmatch hhead hmap hhandler
            have hrun' : Turns.run before ((entered q).calls.filterMap (lockOp numSets)) = some lock := by
              rw [← hrun]
              exact congrArg _ hlocks
            obtain ⟨lock₁, hreads⟩ := innerLoop_reads hcomes' hrun' hentered.1 rfl (hfetched.this2.trans hthis2) hinner
            have hadded : lockAdds p₁.calls = lockAdds p.calls ∨
                lockAdds p₁.calls = lockAdds p.calls ++ [(p.r.hash, 0)] ∧ Locks env k dob p.r := by
              rw [← hadds, ← hkept.hash]
              refine hreads.adds.imp_right fun hfirst => ?_
              obtain ⟨hone, hstage, hlocked⟩ := hfirst
              refine ⟨hone, hlDel, hentered.2.1.symm.trans hstage, b, hfetched.first, ?_⟩
              exact hlocked.congr ⟨hkept.URL, hentered.2.2, hkept.cacheType⟩ hentered.2.1
            cases hthis : p₁.this2 with
            | false =>
                rw [hthis] at hloop
                rw [← Except.ok.inj hloop]
                exact ⟨lock₁, hreads.run, hkept.trans hreads.kept, hreads.ends hthis, hadded⟩
            | true =>
                rw [if_pos hthis] at hloop
                have hgoes := hreads.goes hthis
                have hcomes₁ : Comes numSets p₁.r lock₁ := hgoes.elim .gone And.right
                have hlater : p₁.r.lDel = false → p₁.r.pstage ≠ .matching := by
                  intro hno hstage
                  rcases hgoes with h | ⟨h, -⟩
                  · exact absurd h (ne_true_of_eq_false hno)
                  · exact absurd (h.symm.trans hstage) (by decide)
                obtain ⟨lock₂, hrun₂, hkept₂, hholds₂, hadds₂⟩ := ih (p := { p₁ with this2 := false }) hcomes₁
                  (fun hno hstage => absurd hstage (hlater hno)) hreads.run rfl hloop
                refine ⟨lock₂, hrun₂, (hkept.trans hreads.kept).trans hkept₂, hholds₂, ?_⟩
                have hsame : lockAdds p'.calls = lockAdds p₁.calls := hadds₂.resolve_right fun h => hlater h.2.1 h.2.2.1
                rw [hsame]
                exact hadded

/-- A call locks the slot of the response, if it locks one. -/
theorem processFurtherBlocks_reads {got : Response × List Call} (hcomes : Comes numSets r lock)
    (hfirst : r.lDel = false → r.pstage = .matching → (firstBlock env dob r).isSome) (hcall : processFurtherBlocks env n dob r = .ok got) :
    ∃ lock', Turns.run lock (got.2.filterMap (lockOp numSets)) = some lock' ∧ Kept r got.1 ∧ Holds numSets got.1 lock' ∧
      (lockAdds got.2 = [] ∨ lockAdds got.2 = [(r.hash, 0)] ∧ Locks env 0 dob r) := by
  obtain ⟨p', hloop, hgot⟩ := Run.bind_eq_ok.mp hcall
  rw [← Except.ok.inj hgot]
  exact outerLoop_reads (p := ⟨r, true, false, 0, []⟩) hcomes hfirst rfl rfl hloop

end Call

/-! ## A response that is woken up -/

section Wake

variable {numSets : Nat} {env : Env} {found : Found} {lock : Option Slot} {r : Response} {got : Response × List Call}

theorem Fresh.comes (hfresh : Fresh r) : Comes numSets r none := by
  obtain ⟨hlDel, hmap, -, -, -, hstage, -, hhandler⟩ := hfresh
  exact .fresh hlDel hstage hmap hhandler

theorem Holds.diskReply (hholds : Holds numSets r lock) (hmap : r.map = true) (remOffset version : Int) :
    Comes numSets { r with remOffset := remOffset, version := version, map := false } lock := by
  cases hholds with
  | gone hlDel => exact .gone hlDel
  | left _ _ _ hno _ => exact absurd hmap (ne_true_of_eq_false hno)
  | sending hlDel hstage hmatch hhead hhandler => exact .sending hlDel hstage hmatch (hhead hmap) rfl hhandler
  | waiting _ _ _ hno _ _ => exact absurd hmap (ne_true_of_eq_false hno)
  | finishing _ _ _ hno _ => exact absurd hmap (ne_true_of_eq_false hno)

/-- What a call leaves for a response that has its slot already, or is through. -/
def Resumed (numSets : Nat) (r : Response) (lock : Option Slot) (got : Response × List Call) : Prop :=
  ∃ lock', Turns.run lock (got.2.filterMap (lockOp numSets)) = some lock' ∧ Kept r got.1 ∧ Holds numSets got.1 lock' ∧ lockAdds got.2 = []

theorem Resumed.same (hholds : Holds numSets got.1 lock) (hkept : Kept r got.1) (hcalls : got.2 = []) : Resumed numSets r lock got := by
  refine ⟨lock, ?_, hkept, hholds, ?_⟩
  · rw [hcalls]
    rfl
  · rw [hcalls]
    rfl

theorem deleted_kept (r : Response) : Kept r (delResponseTranLazy (delRequestTranLazy r)) :=
  have hkept := delResponseTranLazy_kept (delRequestTranLazy r)
  ⟨hkept.URL, hkept.hash, hkept.cacheType⟩

theorem resume_reads {o : Outcome} (hholds : Holds numSets r lock)
    (hready : r.lDel = false ∧ r.presReq = true ∧ r.writeHandler = some .resumeDiskRead)
    (hgot : (if (resumeDiskRead o r).2.2 then processFurtherBlocks env found.passes found.dob (resumeDiskRead o r).1
      else .ok ((resumeDiskRead o r).1, (resumeDiskRead o r).2.1)) = .ok got) : Resumed numSets r lock got := by
  obtain ⟨hlDel, hclient, hhandler⟩ := hready
  have hhead : r.sendHead = true := by
    cases hholds with
    | gone h => exact absurd h (ne_true_of_eq_false hlDel)
    | left _ _ _ _ h => exact absurd (h.symm.trans hhandler) (by decide)
    | sending _ _ _ _ h => exact absurd (h.symm.trans hhandler) (by decide)
    | waiting _ _ _ _ _ h => exact h hhandler
    | finishing _ _ _ _ h => exact h hhandler
  rw [resumeDiskRead_of_head hclient hhead] at hgot
  by_cases htwo : o.sent = 2
  · rw [if_pos htwo] at hgot
    rw [← Except.ok.inj hgot]
    exact .same hholds ⟨rfl, rfl, rfl⟩ rfl
  · rw [if_neg htwo] at hgot
    by_cases hminus : o.sent = -1
    · rw [if_pos hminus] at hgot
      rw [← Except.ok.inj hgot]
      exact .same (.gone (delResponseTranLazy_lDel _)) (deleted_kept r) rfl
    · rw [if_neg hminus] at hgot
      by_cases hstatus : r.status ≠ entityComplete
      · rw [if_pos hstatus] at hgot
        have hcomes : Comes numSets { r with writeHandler := none, pstage := .sending } lock := by
          cases hholds with
          | gone h => exact .gone h
          | left _ _ _ _ h => exact absurd (h.symm.trans hhandler) (by decide)
          | sending _ _ _ _ h => exact absurd (h.symm.trans hhandler) (by decide)
          | waiting _ _ hmatch hmap _ _ => exact .sending hlDel rfl hmatch hhead hmap rfl
          | finishing _ _ h _ _ => exact absurd h hstatus
        obtain ⟨lock', hrun, hkept, hholds', hadds⟩ := processFurtherBlocks_reads hcomes (fun _ h => nomatch h) hgot
        exact ⟨lock', hrun, ⟨hkept.URL, hkept.hash, hkept.cacheType⟩, hholds', hadds.resolve_right fun h => nomatch h.2.2.1⟩
      · rw [if_neg hstatus] at hgot
        rw [← Except.ok.inj hgot]
        exact .same (.gone (delResponseTranLazy_lDel _)) (deleted_kept r) rfl

theorem Holds.delRequestTranLazy (hholds : Holds numSets r lock) : Holds numSets (Serve.delRequestTranLazy r) lock := by
  cases hholds with
  | gone hlDel => exact .gone hlDel
  | left hlDel hstage htype hmap _ => exact .left hlDel hstage htype hmap rfl
  | sending hlDel hstage hmatch hhead _ => exact .sending hlDel hstage hmatch hhead rfl
  | waiting hlDel hstage hmatch hmap _ _ => exact .sending hlDel hstage hmatch (fun h => absurd h (ne_true_of_eq_false hmap)) rfl
  | finishing hlDel hstage hstatus hmap _ => exact .finishing hlDel hstage hstatus hmap fun h => nomatch h

theorem wakeUp_reads {wake : Wake} (hholds : Holds numSets r lock) (hgot : wakeUp env found r wake = .ok got) :
    Resumed numSets r lock got := by
  cases wake with
  | diskReply remOffset version =>
      rw [wakeUp] at hgot
      split at hgot
      · next hmap =>
          have hcomes := hholds.diskReply hmap remOffset version
          have hstage : r.lDel = false → r.pstage ≠ .matching := by
            intro hlDel hmatching
            cases hholds with
            | gone h => exact absurd h (ne_true_of_eq_false hlDel)
            | left _ _ _ h _ => exact absurd hmap (ne_true_of_eq_false h)
            | sending _ h _ _ _ => exact absurd (h.symm.trans hmatching) (by decide)
            | waiting _ h _ _ _ _ => exact absurd (h.symm.trans hmatching) (by decide)
            | finishing _ h _ _ _ => exact absurd (h.symm.trans hmatching) (by decide)
          obtain ⟨lock', hrun, hkept, hholds', hadds⟩ := processFurtherBlocks_reads hcomes (fun hlDel h => absurd h (hstage hlDel)) hgot
          exact ⟨lock', hrun, ⟨hkept.URL, hkept.hash, hkept.cacheType⟩, hholds', hadds.resolve_right fun h => hstage h.2.1 h.2.2.1⟩
      · rw [← Except.ok.inj hgot]
        exact .same hholds ⟨rfl, rfl, rfl⟩ rfl
  | resume o =>
      rw [wakeUp] at hgot
      split at hgot
      · next hready => exact resume_reads hholds hready hgot
      · rw [← Except.ok.inj hgot]
        exact .same hholds ⟨rfl, rfl, rfl⟩ rfl
  | clientGone =>
      rw [← Except.ok.inj hgot]
      exact .same hholds.delRequestTranLazy ⟨rfl, rfl, rfl⟩ rfl
  | clientExpiry =>
      rw [← Except.ok.inj hgot]
      by_cases hclient : r.presReq = true
      · rw [if_pos hclient]
        exact .same (.gone (delResponseTranLazy_lDel _)) (deleted_kept r) rfl
      · rw [if_neg hclient]
        exact .same hholds ⟨rfl, rfl, rfl⟩ rfl
  | leave =>
      rw [← Except.ok.inj hgot]
      by_cases hleaves : r.pstage = .first ∨ r.writeHandler = some .resumeDownload
      · rw [if_pos hleaves]
        exact .same (.gone (delResponseTranLazy_lDel _)) (delResponseTranLazy_kept r) rfl
      · rw [if_neg hleaves]
        exact .same hholds ⟨rfl, rfl, rfl⟩ rfl

end Wake

end BeagleCache.Serve

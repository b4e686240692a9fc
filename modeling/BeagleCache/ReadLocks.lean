import Mathlib.Tactic
import BeagleCache.LockTable
import BeagleCache.ReadPins
import BeagleCache.Transition

/-! The proxy serves its responses from the hot object cache and from dirty objects: a response is served when it joins, when
a disk has answered and when its client can take more (`resumeDiskRead`); in between its client may go or expire, and what
went to the download is deleted there. What the locks of all of them leave when they are deleted. -/

namespace BeagleCache.Hoc

variable {β : Type} {h : Cache β}

/-! ## Who does not read -/

theorem takeFree_globalReadLocks {got : Nat × Cache β} (hgot : takeFree h = .ok got) : got.2.globalReadLocks = h.globalReadLocks := by
  unfold takeFree at hgot
  split at hgot
  · cases hgot
  · rw [← Except.ok.inj hgot]

theorem deleteLRULoop_globalReadLocks {attempts : Nat} {got : Option Nat × Cache β} (hgot : deleteLRULoop h attempts = .ok got) :
    got.2.globalReadLocks = h.globalReadLocks := by
  induction attempts generalizing h with
  | zero => rw [← Except.ok.inj hgot]
  | succ attempts ih =>
      unfold deleteLRULoop at hgot
      split at hgot
      · cases hgot
      · simp only at hgot
        split at hgot
        · cases hgot
        · split at hgot
          · have hrest := ih hgot
            exact hrest
          · rw [← Except.ok.inj hgot]

theorem expandHOC_globalReadLocks (h : Cache β) : (expandHOC h).globalReadLocks = h.globalReadLocks := rfl

theorem getOldHOB_globalReadLocks {expandLimit : Nat} {got : Nat × Cache β} (hgot : getOldHOB expandLimit h = .ok got) :
    got.2.globalReadLocks = h.globalReadLocks := by
  unfold getOldHOB at hgot
  split at hgot
  · exact takeFree_globalReadLocks hgot
  · split at hgot
    · rw [takeFree_globalReadLocks hgot, expandHOC_globalReadLocks]
    · obtain ⟨old, hold, hgot⟩ := Run.bind_eq_ok.mp hgot
      have hdeleted := deleteLRULoop_globalReadLocks hold
      split at hgot
      · rw [← Except.ok.inj hgot]
        exact hdeleted
      · rw [takeFree_globalReadLocks hgot, expandHOC_globalReadLocks, hdeleted]

theorem insertBlock_globalReadLocks {expandLimit : Nat} {dat : β} {remOffset : Int} {got : Nat × Cache β}
    (hgot : insertBlock expandLimit h dat remOffset = .ok got) : got.2.globalReadLocks = h.globalReadLocks := by
  unfold insertBlock at hgot
  split at hgot
  · rw [← Except.ok.inj hgot]
  · obtain ⟨old, hold, hgot⟩ := Run.bind_eq_ok.mp hgot
    simp only at hgot
    split at hgot
    · cases hgot
    · have hkept := getOldHOB_globalReadLocks hold
      rw [← Except.ok.inj hgot]
      exact hkept

theorem getKBlock_globalReadLocks {expandLimit : Nat} {key : Int} {got : Nat × Cache β} (hgot : getKBlock expandLimit h key = .ok got) :
    got.2.globalReadLocks = h.globalReadLocks := by
  unfold getKBlock at hgot
  split at hgot
  · rw [← Except.ok.inj hgot]
    rfl
  · obtain ⟨old, hold, hgot⟩ := Run.bind_eq_ok.mp hgot
    have hkept := getOldHOB_globalReadLocks hold
    rw [← Except.ok.inj hgot]
    exact hkept

theorem getKBlocks_globalReadLocks {expandLimit numDisks k : Nat} {key : Int} {got : List Nat × Cache β}
    (hgot : getKBlocks expandLimit numDisks h key k = .ok got) : got.2.globalReadLocks = h.globalReadLocks := by
  induction k generalizing h key got with
  | zero => rw [← Except.ok.inj hgot]
  | succ k ih =>
      unfold getKBlocks at hgot
      obtain ⟨first, hfirst, hgot⟩ := Run.bind_eq_ok.mp hgot
      obtain ⟨rest, hrest, hgot⟩ := Run.bind_eq_ok.mp hgot
      have hkept := (ih hrest).trans (getKBlock_globalReadLocks hfirst)
      rw [← Except.ok.inj hgot]
      exact hkept

theorem doneWriting_globalReadLocks (h : Cache β) (remOffset : Int) : (doneWriting h remOffset).globalReadLocks = h.globalReadLocks := by
  unfold doneWriting
  split <;> rfl

end BeagleCache.Hoc

namespace BeagleCache.Serve

open Hcfs Transition

/-! ## The model -/

/-- A response, and the calls that were made for it. -/
structure Session where
  r : Response
  calls : List Call

/-- The hot object cache, `reads` of the locks of the slots, the responses in the order in which they joined, and the calls of
the last step. -/
structure Server where
  hoc : Hoc.Cache StoredBlock
  reads : Slot → Nat
  sessions : List Session
  last : List Call

/-- The log's cursors, the blocks a dirty object has left and if it is in the hot object cache, what is reported for the blocks,
and a bound for the passes of the loops: a call that does not return within it is not made. -/
structure Found where
  alloc : Alloc
  dob : List StoredBlock
  inHOC : Bool
  outcomes : Nat → Outcome
  passes : Nat

/-- What wakes a response up. -/
inductive Wake where
  | diskReply (remOffset version : Int)
  | resume (o : Outcome)
  | clientGone
  | clientExpiry
  | leave
  deriving DecidableEq

inductive Event where
  | join (r : Response) (found : Found)
  | wake (i : Nat) (wake : Wake) (found : Found)
  | insertBlock (dat : StoredBlock) (remOffset : Int)
  | getKBlocks (k : Nat) (offset : Int)
  | doneWriting (remOffset : Int)

def storeOf (h : Hoc.Cache StoredBlock) (remOffset : Int) : Option StoredBlock :=
  (h.whichBlocks remOffset).map fun id => (h.objects id).block

def envOf (h : Hoc.Cache StoredBlock) (found : Found) : Env := ⟨storeOf h, found.inHOC, found.alloc, found.outcomes⟩

def hocCall (h : Hoc.Cache StoredBlock) : Call → Hoc.Cache StoredBlock
  | .getBlock remOffset => (Hoc.getBlock h remOffset).2
  | .doneReading remOffset => Hoc.doneReading h remOffset
  | .expire remOffset =>
      match h.whichBlocks remOffset with
      | none => h
      | some id => Hoc.setObject h id { h.objects id with block := { (h.objects id).block with keySec := -1 } }
  | _ => h

/-- `addReadLock` and `removeReadLock`; a lock that is not there is not removed. -/
def lockCall (numSets : Nat) (reads : Slot → Nat) : Call → Slot → Nat
  | .addReadLock hash matchNum =>
      let slot := slotOf numSets hash matchNum
      Function.update reads slot (reads slot + 1)
  | .removeReadLock hash matchNum =>
      let slot := slotOf numSets hash matchNum
      Function.update reads slot (reads slot - 1)
  | _ => reads

/-- The response, the calls, and if `processFurtherBlocks` follows. -/
def resumeDiskRead (o : Outcome) (r : Response) : Response × List Call × Bool :=
  if r.sendHead = false ∧ sendHeader o r = 2 then (r, [], false)
  else if r.sendHead = false ∧ sendHeader o r = -1 then
    (delResponseTranLazy (delRequestTranLazy r), [.removeReadLock r.hash r.matchNum], false)
  else
    let got := sendData o { r with sendHead := true }
    let r := got.2
    if got.1 = 2 then (r, [], false)
    else if got.1 = -1 then (delResponseTranLazy (delRequestTranLazy r), [], false)
    else if r.status ≠ entityComplete then ({ r with writeHandler := none, pstage := .sending }, [], true)
    else (delResponseTranLazy (delRequestTranLazy r), [], false)

/-- `initHTTPResponse`, for a request that is looked for in the cache. -/
def Fresh (r : Response) : Prop :=
  r.lDel = false ∧ r.map = false ∧ r.presReq = true ∧ r.sendHead = false ∧ r.type = .cache ∧ r.pstage = .matching ∧
    r.status = badResponse ∧ r.writeHandler = none

instance : DecidablePred Fresh := fun _ => inferInstanceAs (Decidable (_ ∧ _))

/-- What happens to a response; what cannot happen to it leaves it. -/
def wakeUp (env : Env) (found : Found) (r : Response) : Wake → Run (Response × List Call)
  | .diskReply remOffset version =>
      if r.map then processFurtherBlocks env found.passes found.dob { r with remOffset := remOffset, version := version, map := false }
      else .ok (r, [])
  | .resume o =>
      if r.lDel = false ∧ r.presReq = true ∧ r.writeHandler = some .resumeDiskRead then
        let got := resumeDiskRead o r
        if got.2.2 then processFurtherBlocks env found.passes found.dob got.1 else .ok (got.1, got.2.1)
      else .ok (r, [])
  | .clientGone => .ok (delRequestTranLazy r, [])
  | .clientExpiry => .ok (if r.presReq then delResponseTranLazy (delRequestTranLazy r) else r, [])
  | .leave =>
      .ok (if r.pstage = .first ∨ r.writeHandler = some .resumeDownload then delResponseTranLazy r else r, [])

/-- The calls are made for a response, which is left as `r`. -/
def record (numSets : Nat) (s : Server) (i : Nat) (session : Session) (got : Response × List Call) : Server where
  hoc := got.2.foldl hocCall s.hoc
  reads := got.2.foldl (lockCall numSets) s.reads
  sessions := s.sessions.set i ⟨got.1, session.calls ++ got.2⟩
  last := got.2

def serverNext (numSets numDisks expandLimit : Nat) (s : Server) : Event → Run Server
  | .join r found =>
      if Fresh r then do
        let got ← processFurtherBlocks (envOf s.hoc found) found.passes found.dob r
        return record numSets { s with sessions := s.sessions ++ [⟨r, []⟩] } s.sessions.length ⟨r, []⟩ got
      else .ok s
  | .wake i wake found =>
      match s.sessions[i]? with
      | none => .ok s
      | some session => do
          let got ← wakeUp (envOf s.hoc found) found session.r wake
          return record numSets s i session got
  | .insertBlock dat remOffset => do
      let got ← Hoc.insertBlock expandLimit s.hoc dat remOffset
      return { s with hoc := got.2 }
  | .getKBlocks k offset => do
      let got ← Hoc.getKBlocks expandLimit numDisks s.hoc offset k
      return { s with hoc := got.2 }
  | .doneWriting remOffset => .ok { s with hoc := Hoc.doneWriting s.hoc remOffset }

def server (numSets numDisks expandLimit : Nat) : System Server Event :=
  .ofNext (fun s => ∃ memory, s = ⟨Hoc.initHOC memory, fun _ => 0, [], []⟩) (serverNext numSets numDisks expandLimit)

/-- A response is not woken up in a way that forgets a block or a slot: the blocks that are looked at release them; the data
can be sent, or all of it was served; and the client of a response with a slot does not expire. -/
def WakeReleases (env : Env) (found : Found) (r : Response) : Wake → Prop
  | .diskReply remOffset version =>
      r.map = true → ReleasesAll env found.passes 0 found.dob { r with remOffset := remOffset, version := version, map := false }
  | .resume o =>
      r.lDel = false ∧ r.presReq = true ∧ r.writeHandler = some .resumeDiskRead → r.status ≠ entityComplete → o.sent ≠ 2 →
        o.sent ≠ -1 ∧ ReleasesAll env found.passes 0 found.dob { r with pstage := .sending, writeHandler := none }
  | .clientExpiry => r.lDel = false → r.presReq = true → r.pstage = .sending → r.status = entityComplete ∧ r.writeHandler ≠ none
  | _ => True

def Releasing (s : Server) : Event → Prop
  | .join r found => Fresh r → ReleasesAll (envOf s.hoc found) found.passes 0 found.dob r
  | .wake i wake found => ∀ session ∈ s.sessions[i]?, WakeReleases (envOf s.hoc found) found session.r wake
  | _ => True

/-- The locks are balanced: in the last call, each block was given back as often as it was got; for a deleted response, each
slot was unlocked as often as it was locked; and with no response in progress, nothing is locked. -/
structure Balanced (numSets : Nat) (s : Server) : Prop where
  blocks : ∀ remOffset, s.last.count (.getBlock remOffset) = s.last.count (.doneReading remOffset)
  slots : ∀ session ∈ s.sessions, session.r.lDel = true → ∀ slot,
    session.calls.countP (fun c => lockOp numSets c = some (.take slot)) =
      session.calls.countP (fun c => lockOp numSets c = some (.give slot))
  readLockCount : (∀ session ∈ s.sessions, session.r.lDel = true) → s.hoc.globalReadLocks = 0
  lockTable : (∀ session ∈ s.sessions, session.r.lDel = true) → ∀ slot, s.reads slot = 0

/-! ## What a response holds -/

section Held

variable {numSets : Nat} {before lock lock' : Option Slot} {calls calls' : List Call} {h : Hoc.Cache StoredBlock} {reads : Slot → Nat}

theorem Has.append (hhas : Has numSets before calls none lock) (hhas' : Has numSets lock calls' none lock') :
    Has numSets before (calls ++ calls') none lock' where
  pins := by
    rw [List.filterMap_append, Turns.run_append, hhas.pins]
    exact hhas'.pins
  locks := by
    rw [List.filterMap_append, Turns.run_append, hhas.locks]
    exact hhas'.locks

/-- The slot a response has. -/
def held (numSets : Nat) (session : Session) : Option Slot := (Turns.run none (session.calls.filterMap (lockOp numSets))).join

theorem held_eq {session : Session} (hrun : Turns.run none (session.calls.filterMap (lockOp numSets)) = some lock) :
    held numSets session = lock := by
  unfold held
  rw [hrun]
  rfl

/-- The table of the locks is told what the calls take and give back. -/
theorem foldl_lockCall (numSets : Nat) (reads : Slot → Nat) (calls : List Call) :
    calls.foldl (lockCall numSets) reads = (calls.filterMap (lockOp numSets)).foldl LockTable.apply reads := by
  induction calls generalizing reads with
  | nil => rfl
  | cons c calls ih =>
      rw [List.foldl_cons, ih]
      cases c <;> rfl

/-- The calls of a response that keeps to its turns are counted. -/
theorem record_counts {s : Server} {i : Nat} {session : Session} {got : Response × List Call}
    (hcounts : LockTable.Counts s.reads (s.sessions.map (held numSets))) (hi : s.sessions[i]? = some session)
    (hrun : Turns.run none (session.calls.filterMap (lockOp numSets)) = some lock)
    (hgot : Turns.run lock (got.2.filterMap (lockOp numSets)) = some lock') :
    LockTable.Counts (record numSets s i session got).reads ((record numSets s i session got).sessions.map (held numSets)) := by
  have hown : (s.sessions.map (held numSets))[i]? = some lock := by
    rw [List.getElem?_map, hi]
    exact congrArg some (held_eq hrun)
  have hafter : held numSets ⟨got.1, session.calls ++ got.2⟩ = lock' := by
    apply held_eq
    rw [List.filterMap_append, Turns.run_append, hrun]
    exact hgot
  show LockTable.Counts (got.2.foldl (lockCall numSets) s.reads) ((s.sessions.set i _).map (held numSets))
  rw [List.map_set, hafter, foldl_lockCall]
  exact hcounts.run hown hgot

theorem hocCall_whichBlocks (h : Hoc.Cache StoredBlock) (c : Call) : (hocCall h c).whichBlocks = h.whichBlocks := by
  cases c with
  | getBlock remOffset =>
      show (Hoc.getBlock h remOffset).2.whichBlocks = _
      unfold Hoc.getBlock
      split <;> rfl
  | doneReading remOffset =>
      show (Hoc.doneReading h remOffset).whichBlocks = _
      unfold Hoc.doneReading
      split <;> rfl
  | expire remOffset =>
      unfold hocCall
      simp only
      split <;> rfl
  | _ => rfl

/-- What a block that is held adds to the count: it is there, or it was not counted. -/
def counted (which : Int → Option Nat) (pin : Option Int) : Int := (pin.bind which).elim 0 fun _ => 1

/-- A call leaves the count of the locks on blocks. -/
theorem foldl_hocCall (hhas : Has numSets lock calls none lock') : (calls.foldl hocCall h).globalReadLocks = h.globalReadLocks := by
  have hcounted : (calls.foldl hocCall h).whichBlocks = h.whichBlocks ∧
      (calls.foldl hocCall h).globalReadLocks = h.globalReadLocks + counted h.whichBlocks none := by
    refine Turns.run_foldl (P := fun (h' : Hoc.Cache StoredBlock) pin => h'.whichBlocks = h.whichBlocks ∧
      h'.globalReadLocks = h.globalReadLocks + counted h.whichBlocks pin) ?_ ?_ hhas.pins ⟨rfl, (add_zero _).symm⟩
    · rintro h' pin c hop ⟨hwhich, hcount⟩
      refine ⟨(hocCall_whichBlocks h' c).trans hwhich, Eq.trans ?_ hcount⟩
      cases c with
      | getBlock remOffset => cases hop
      | doneReading remOffset => cases hop
      | expire remOffset =>
          unfold hocCall
          simp only
          split <;> rfl
      | _ => rfl
    · rintro h' pin pin' c o hop hstep ⟨hwhich, hcount⟩
      refine ⟨(hocCall_whichBlocks h' c).trans hwhich, ?_⟩
      cases c with
      | getBlock remOffset =>
          obtain rfl := Option.some.inj hop
          cases pin with
          | some other => cases hstep
          | none =>
              obtain rfl := Option.some.inj hstep
              show (Hoc.getBlock h' remOffset).2.globalReadLocks = _
              unfold Hoc.getBlock counted
              rw [Option.bind_some, ← hwhich]
              cases hfound : h'.whichBlocks remOffset with
              | none => exact hcount
              | some id =>
                  show h'.globalReadLocks + 1 = h.globalReadLocks + 1
                  rw [hcount]
                  exact congrArg (· + 1) (add_zero _)
      | doneReading remOffset =>
          obtain rfl := Option.some.inj hop
          cases pin with
          | none => cases hstep
          | some other =>
              have hgive : (if other = remOffset then some none else none) = some pin' := hstep
              split at hgive
              · rename_i hsame
                obtain rfl := Option.some.inj hgive
                rw [hsame, counted, Option.bind_some, ← hwhich] at hcount
                show (Hoc.doneReading h' remOffset).globalReadLocks = h.globalReadLocks + 0
                unfold Hoc.doneReading
                cases hfound : h'.whichBlocks remOffset with
                | none =>
                    rw [hfound] at hcount
                    exact hcount
                | some id =>
                    rw [hfound] at hcount
                    show h'.globalReadLocks - 1 = _
                    rw [hcount]
                    exact (Int.add_sub_cancel _ 1).trans (Int.add_zero _).symm
              · cases hgive
      | _ => cases hop
  rw [hcounted.2]
  exact add_zero _

end Held

/-! ## A step -/

section Step

variable {numSets : Nat} {lock : Option Slot} {env : Env} {found : Found} {r : Response}

/-- A disk has answered. -/
theorem Keeps.enters (hkeeps : Keeps numSets r lock) (hmap : r.map = true) (remOffset version : Int) :
    Enters numSets { r with remOffset := remOffset, version := version, map := false } lock := by
  cases hkeeps with
  | gone hlDel =>
      exact ⟨fun _ => rfl, fun h => absurd (hlDel.symm.trans h) (by decide), fun h => absurd (hlDel.symm.trans h) (by decide),
        fun h => absurd (hlDel.symm.trans h) (by decide)⟩
  | before hlDel hstage hhandler =>
      exact ⟨fun _ => rfl, fun _ _ => rfl, fun _ h => absurd h hstage, fun _ => ⟨rfl, hhandler⟩⟩
  | sending hlDel hstage hhead hhandler =>
      exact ⟨fun h => absurd (hlDel.symm.trans h) (by decide), fun _ h => absurd hstage h, fun _ _ => ⟨rfl, hhead⟩,
        fun _ => ⟨rfl, hhandler⟩⟩
  | waiting hlDel hstage hhead hhandler hstatus hwaits => exact absurd (hwaits.symm.trans hmap) (by decide)
  | finishing hlDel hstage hstatus hwaits hhead => exact absurd (hwaits.symm.trans hmap) (by decide)

theorem delRequestTranLazy_keeps (hkeeps : Keeps numSets r lock) : Keeps numSets (delRequestTranLazy r) lock := by
  cases hkeeps with
  | gone hlDel => exact .gone hlDel
  | before hlDel hstage _ => exact .before hlDel hstage rfl
  | sending hlDel hstage hhead _ => exact .sending hlDel hstage hhead rfl
  | waiting hlDel hstage hhead _ _ _ => exact .sending hlDel hstage hhead rfl
  | finishing hlDel hstage hstatus hmap _ => exact .finishing hlDel hstage hstatus hmap fun h => nomatch h

theorem resumeDiskRead_of_head {o : Outcome} (hclient : r.presReq = true) (hhead : r.sendHead = true) :
    resumeDiskRead o r =
      if o.sent = 2 then (r, [], false)
      else if o.sent = -1 then (delResponseTranLazy (delRequestTranLazy r), [], false)
      else if r.status ≠ entityComplete then ({ r with writeHandler := none, pstage := .sending }, [], true)
      else (delResponseTranLazy (delRequestTranLazy r), [], false) := by
  have hsame : { r with sendHead := true } = r := by
    rw [← hhead]
  have hsent : sendData o { r with sendHead := true } = (o.sent, r) := by
    rw [hsame, sendData, if_pos hclient]
  unfold resumeDiskRead
  rw [if_neg fun h => absurd (hhead.symm.trans h.1) (by decide), if_neg fun h => absurd (hhead.symm.trans h.1) (by decide), hsent]

theorem resume_after {o : Outcome} (hkeeps : Keeps numSets r lock)
    (hready : r.lDel = false ∧ r.presReq = true ∧ r.writeHandler = some .resumeDiskRead)
    (hreleases : WakeReleases env found r (.resume o)) {got : Response × List Call}
    (hgot : (if (resumeDiskRead o r).2.2 then processFurtherBlocks env found.passes found.dob (resumeDiskRead o r).1
      else .ok ((resumeDiskRead o r).1, (resumeDiskRead o r).2.1)) = .ok got) :
    ∃ lock', Has numSets lock got.2 none lock' ∧ Keeps numSets got.1 lock' := by
  obtain ⟨hlDel, hclient, hhandler⟩ := hready
  cases hkeeps with
  | gone h => exact absurd (h.symm.trans hlDel) (by decide)
  | before _ _ h => exact absurd (h.symm.trans hhandler) (by decide)
  | sending _ _ _ h => exact absurd (h.symm.trans hhandler) (by decide)
  | waiting _ hstage hhead _ hstatus hmap =>
      rw [resumeDiskRead_of_head hclient hhead] at hgot
      by_cases htwo : o.sent = 2
      · rw [if_pos htwo] at hgot
        rw [← Except.ok.inj hgot]
        exact ⟨_, .nil _ _, .waiting hlDel hstage hhead hhandler hstatus hmap⟩
      · obtain ⟨hminus, hall⟩ := hreleases ⟨hlDel, hclient, hhandler⟩ hstatus htwo
        rw [if_neg htwo, if_neg hminus, if_pos hstatus] at hgot
        refine processFurtherBlocks_after ?_ hall hgot
        exact ⟨fun h => absurd (hlDel.symm.trans h) (by decide), fun _ h => absurd rfl h, fun _ _ => ⟨rfl, hhead⟩, fun _ => ⟨hmap, rfl⟩⟩
  | finishing _ hstage hstatus hmap hhead =>
      rw [resumeDiskRead_of_head hclient (hhead hhandler)] at hgot
      by_cases htwo : o.sent = 2
      · rw [if_pos htwo] at hgot
        rw [← Except.ok.inj hgot]
        exact ⟨_, .nil _ _, .finishing hlDel hstage hstatus hmap hhead⟩
      · have hdeleted : resumeDiskRead o r = (delResponseTranLazy (delRequestTranLazy r), [], false) := by
          rw [resumeDiskRead_of_head hclient (hhead hhandler), if_neg htwo]
          split
          · rfl
          · rw [if_neg (not_not.mpr hstatus)]
        rw [← resumeDiskRead_of_head hclient (hhead hhandler), hdeleted] at hgot
        rw [← Except.ok.inj hgot]
        exact ⟨_, .nil _ _, .gone (delResponseTranLazy_lDel _)⟩

theorem wakeUp_after {wake : Wake} (hkeeps : Keeps numSets r lock) (hreleases : WakeReleases env found r wake) {got : Response × List Call}
    (hgot : wakeUp env found r wake = .ok got) : ∃ lock', Has numSets lock got.2 none lock' ∧ Keeps numSets got.1 lock' := by
  cases wake with
  | diskReply remOffset version =>
      rw [wakeUp] at hgot
      split at hgot
      · rename_i hmap
        exact processFurtherBlocks_after (hkeeps.enters hmap remOffset version) (hreleases hmap) hgot
      · rw [← Except.ok.inj hgot]
        exact ⟨lock, .nil _ _, hkeeps⟩
  | resume o =>
      rw [wakeUp] at hgot
      split at hgot
      · rename_i hready
        exact resume_after hkeeps hready hreleases hgot
      · rw [← Except.ok.inj hgot]
        exact ⟨lock, .nil _ _, hkeeps⟩
  | clientGone =>
      rw [← Except.ok.inj hgot]
      exact ⟨lock, .nil _ _, delRequestTranLazy_keeps hkeeps⟩
  | clientExpiry =>
      rw [← Except.ok.inj hgot]
      refine ⟨lock, .nil _ _, ?_⟩
      show Keeps numSets (if r.presReq then delResponseTranLazy (delRequestTranLazy r) else r) lock
      split
      · rename_i hclient
        have hlock : lock = none := by
          cases hkeeps with
          | gone _ => rfl
          | before _ _ _ => rfl
          | sending hlDel hstage _ hhandler => exact absurd hhandler (hreleases hlDel hclient hstage).2
          | waiting hlDel hstage _ _ hstatus _ => exact absurd (hreleases hlDel hclient hstage).1 hstatus
          | finishing _ _ _ _ _ => rfl
        rw [hlock]
        exact .gone (delResponseTranLazy_lDel _)
      · exact hkeeps
  | leave =>
      rw [← Except.ok.inj hgot]
      refine ⟨lock, .nil _ _, ?_⟩
      show Keeps numSets (if r.pstage = .first ∨ r.writeHandler = some .resumeDownload then delResponseTranLazy r else r) lock
      split
      · rename_i hleaves
        have hlock : lock = none := by
          cases hkeeps with
          | gone _ => rfl
          | before _ _ _ => rfl
          | sending _ hstage _ hhandler =>
              rcases hleaves with h | h
              · exact absurd (h.symm.trans hstage) (by decide)
              · exact absurd (h.symm.trans hhandler) (by decide)
          | waiting _ hstage _ hhandler _ _ =>
              rcases hleaves with h | h
              · exact absurd (h.symm.trans hstage) (by decide)
              · exact absurd (h.symm.trans hhandler) (by decide)
          | finishing _ _ _ _ _ => rfl
        rw [hlock]
        exact .gone (delResponseTranLazy_lDel _)
      · exact hkeeps

end Step

/-- Every response has what it keeps, the slots are locked by the responses that have them, and no block is locked. -/
structure Inv (numSets : Nat) (s : Server) : Prop where
  sessions : ∀ session ∈ s.sessions, ∃ lock, Has numSets none session.calls none lock ∧ Keeps numSets session.r lock
  reads : ∀ slot, s.reads slot = (s.sessions.map (held numSets)).count (some slot)
  blocks : Turns.run none (s.last.filterMap pinOp) = some none
  readLockCount : s.hoc.globalReadLocks = 0

section Runs

variable {numSets numDisks expandLimit : Nat} {s s' : Server}

theorem Inv.record (hinv : Inv numSets s) {i : Nat} {session : Session} (hi : s.sessions[i]? = some session) {got : Response × List Call}
    {lock lock' : Option Slot} (hcalls : Has numSets none session.calls none lock) (hhas : Has numSets lock got.2 none lock')
    (hkeeps : Keeps numSets got.1 lock') : Inv numSets (record numSets s i session got) where
  sessions := by
    intro session' hsession'
    rcases List.mem_or_eq_of_mem_set hsession' with hold | hnew
    · exact hinv.sessions session' hold
    · rw [hnew]
      exact ⟨lock', hcalls.append hhas, hkeeps⟩
  reads := record_counts hinv.reads hi hcalls.locks hhas.locks
  blocks := hhas.pins
  readLockCount := (foldl_hocCall hhas).trans hinv.readLockCount

theorem Fresh.keeps {r : Response} (hfresh : Fresh r) : Keeps numSets r none := by
  obtain ⟨hlDel, _, _, _, _, hstage, _, hhandler⟩ := hfresh
  exact .before hlDel (by rw [hstage]; decide) hhandler

theorem Fresh.enters {r : Response} (hfresh : Fresh r) : Enters numSets r none := by
  obtain ⟨hlDel, hmap, _, _, _, hstage, _, hhandler⟩ := hfresh
  exact ⟨fun _ => rfl, fun _ _ => rfl, fun _ h => absurd (hstage.symm.trans h) (by decide), fun _ => ⟨hmap, hhandler⟩⟩

theorem Inv.join (hinv : Inv numSets s) {r : Response} (hfresh : Fresh r) :
    Inv numSets { s with sessions := s.sessions ++ [⟨r, []⟩] } where
  sessions := by
    intro session hsession
    rcases List.mem_append.mp hsession with hold | hnew
    · exact hinv.sessions session hold
    · rw [List.mem_singleton.mp hnew]
      exact ⟨none, .nil _ _, hfresh.keeps⟩
  reads := by
    intro slot
    show s.reads slot = ((s.sessions ++ [Session.mk r []]).map (held numSets)).count (some slot)
    rw [List.map_append, List.count_append, hinv.reads slot]
    rfl
  blocks := hinv.blocks
  readLockCount := hinv.readLockCount

theorem Inv.step (hinv : Inv numSets s) {e : Event} (hreleasing : Releasing s e)
    (hstep : serverNext numSets numDisks expandLimit s e = .ok s') :
    Inv numSets s' := by
  cases e with
  | join r found =>
      rw [serverNext] at hstep
      split at hstep
      · rename_i hfresh
        obtain ⟨got, hgot, hstep⟩ := Run.bind_eq_ok.mp hstep
        obtain ⟨lock, hhas, hkeeps⟩ := processFurtherBlocks_after hfresh.enters (hreleasing hfresh) hgot
        rw [← Except.ok.inj hstep]
        have hi : (s.sessions ++ [⟨r, []⟩])[s.sessions.length]? = some ⟨r, []⟩ := List.getElem?_concat_length
        exact (hinv.join hfresh).record hi (.nil _ _) hhas hkeeps
      · rw [← Except.ok.inj hstep]
        exact hinv
  | wake i wake found =>
      rw [serverNext] at hstep
      cases hi : s.sessions[i]? with
      | none =>
          rw [hi] at hstep
          rw [← Except.ok.inj hstep]
          exact hinv
      | some session =>
          rw [hi] at hstep
          obtain ⟨got, hgot, hstep⟩ := Run.bind_eq_ok.mp hstep
          obtain ⟨lock, hcalls, hkeeps⟩ := hinv.sessions session (List.mem_of_getElem? hi)
          obtain ⟨lock', hhas, hkeeps'⟩ := wakeUp_after hkeeps (hreleasing session hi) hgot
          rw [← Except.ok.inj hstep]
          exact hinv.record hi hcalls hhas hkeeps'
  | insertBlock dat remOffset =>
      obtain ⟨got, hgot, hstep⟩ := Run.bind_eq_ok.mp hstep
      rw [← Except.ok.inj hstep]
      exact ⟨hinv.sessions, hinv.reads, hinv.blocks, (Hoc.insertBlock_globalReadLocks hgot).trans hinv.readLockCount⟩
  | getKBlocks k offset =>
      obtain ⟨got, hgot, hstep⟩ := Run.bind_eq_ok.mp hstep
      rw [← Except.ok.inj hstep]
      exact ⟨hinv.sessions, hinv.reads, hinv.blocks, (Hoc.getKBlocks_globalReadLocks hgot).trans hinv.readLockCount⟩
  | doneWriting remOffset =>
      rw [← Except.ok.inj hstep]
      exact ⟨hinv.sessions, hinv.reads, hinv.blocks, (Hoc.doneWriting_globalReadLocks s.hoc remOffset).trans hinv.readLockCount⟩

theorem reads_invariant (numSets numDisks expandLimit : Nat) :
    ((server numSets numDisks expandLimit).restrict Releasing).Invariant (Inv numSets) where
  init := by
    rintro s ⟨memory, rfl⟩
    exact ⟨fun session hsession => absurd hsession List.not_mem_nil, fun _ => rfl, rfl, rfl⟩
  step := fun _ _ _ hinv hstep => hinv.step hstep.1 hstep.2

theorem count_pinOp (calls : List Call) (remOffset : Int) :
    (calls.filterMap pinOp).count (.take remOffset) = calls.count (.getBlock remOffset) ∧
      (calls.filterMap pinOp).count (.give remOffset) = calls.count (.doneReading remOffset) := by
  constructor
  · rw [List.count_filterMap]
    refine List.countP_congr fun c _ => ?_
    cases c <;> simp [pinOp]
  · rw [List.count_filterMap]
    refine List.countP_congr fun c _ => ?_
    cases c <;> simp [pinOp]

theorem count_lockOp (calls : List Call) (op : Turns.Op Slot) :
    (calls.filterMap (lockOp numSets)).count op = calls.countP fun c => lockOp numSets c = some op := by
  rw [List.count_filterMap]
  exact List.countP_congr fun c _ => by rw [beq_iff_eq, decide_eq_true_eq]

theorem Keeps.of_lDel {r : Response} {lock : Option Slot} (hkeeps : Keeps numSets r lock) (hlDel : r.lDel = true) : lock = none := by
  cases hkeeps with
  | gone _ => rfl
  | before _ _ _ => rfl
  | sending hkept _ _ _ => exact absurd (hkept.symm.trans hlDel) (by decide)
  | waiting hkept _ _ _ _ _ => exact absurd (hkept.symm.trans hlDel) (by decide)
  | finishing _ _ _ _ _ => rfl

theorem Inv.balanced (hinv : Inv numSets s) : Balanced numSets s where
  blocks := by
    intro remOffset
    rw [← (count_pinOp s.last remOffset).1, ← (count_pinOp s.last remOffset).2]
    exact Turns.count_eq hinv.blocks remOffset
  slots := by
    intro session hsession hlDel slot
    obtain ⟨lock, hcalls, hkeeps⟩ := hinv.sessions session hsession
    rw [hkeeps.of_lDel hlDel] at hcalls
    rw [← count_lockOp, ← count_lockOp]
    exact Turns.count_eq hcalls.locks slot
  readLockCount := fun _ => hinv.readLockCount
  lockTable := by
    intro hall slot
    rw [hinv.reads slot, List.count_eq_zero]
    intro hmem
    obtain ⟨session, hsession, hheld⟩ := List.mem_map.mp hmem
    obtain ⟨lock, hcalls, hkeeps⟩ := hinv.sessions session hsession
    rw [held_eq hcalls.locks, hkeeps.of_lDel (hall session hsession)] at hheld
    cases hheld

end Runs

/-! ## Samples -/

instance (a : Alloc) (b : StoredBlock) : Decidable (Accepted a b) := inferInstanceAs (Decidable (_ ∧ _))

instance (r : Response) (b : StoredBlock) : Decidable (Examined r b) := inferInstanceAs (Decidable (_ ∨ _))

instance (removes : Bool) (o : Outcome) (b : StoredBlock) (r : Response) : Decidable (Delivers removes o b r) :=
  inferInstanceAs (Decidable (if (sendData o r).1 = 2 then b.status = endMark ∨ o.parsed ≠ entityComplete
    else if (sendData o r).1 = -1 then removes = true
    else b.status = endMark ∨ b.status = notEnd ∧ (r.presReq = true ∨ o.pending = false)))

instance (o : Outcome) (b : StoredBlock) (r : Response) : Decidable (Starts o b r) :=
  inferInstanceAs (Decidable (if o.header = 2 then b.status = endMark else o.header ≠ -1 → Delivers true o b r))

instance (a : Alloc) (o : Outcome) (b : StoredBlock) (r : Response) : Decidable (Releases a o b r) :=
  let _ : Decidable (r.pstage = .sending → urlFits r b ∧ ReadableFits b ∧
    (o.parse ≠ -1 → o.parsed ≠ badResponse → Delivers false o b r)) := inferInstance
  let _ : Decidable (Examined r b → Accepted a b → ¬(o.parse = -1 ∨ o.parsed = badResponse ∨ o.parsed = comeBack) →
    o.expiry ≠ -1 → r.presReq = true → o.compatibility ≠ -1 → Starts o b r) := inferInstance
  decidable_of_iff (_ ∧ _) ⟨fun h => ⟨h.1, h.2⟩, fun h => ⟨h.1, h.2⟩⟩

instance (a : Alloc) (o : Outcome) (b : StoredBlock) (r : Response) : Decidable (GoesOn a o b r) :=
  decidable_of_iff (_ ∧ _ ∧ _ ∧ _) ⟨fun h => ⟨h.1, h.2.1, h.2.2.1, h.2.2.2⟩, fun h => ⟨h.1, h.2, h.3, h.4⟩⟩

instance decidableReleasesAll (env : Env) : ∀ n k dob r, Decidable (ReleasesAll env n k dob r)
  | 0, _, _, _ => inferInstanceAs (Decidable True)
  | n + 1, k, dob, r =>
      have (b : StoredBlock) := decidableReleasesAll env n (k + 1) dob.tail { r with pstage := .sending, remOffset := b.next }
      inferInstanceAs (Decidable (_ → ∀ b ∈ firstBlock env dob r, _ ∧ (_ → _)))

instance (env : Env) (found : Found) (r : Response) : DecidablePred (WakeReleases env found r)
  | .diskReply _ _ => inferInstanceAs (Decidable (_ → _))
  | .resume _ => inferInstanceAs (Decidable (_ → _ → _ → _ ∧ _))
  | .clientExpiry => inferInstanceAs (Decidable (_ → _ → _ → _ ∧ _))
  | .clientGone => inferInstanceAs (Decidable True)
  | .leave => inferInstanceAs (Decidable True)

instance (s : Server) : DecidablePred (Releasing s)
  | .join _ _ => inferInstanceAs (Decidable (_ → _))
  | .wake i wake found => inferInstanceAs (Decidable (∀ session ∈ s.sessions[i]?, WakeReleases (envOf s.hoc found) found session.r wake))
  | .insertBlock _ _ => inferInstanceAs (Decidable True)
  | .getKBlocks _ _ => inferInstanceAs (Decidable True)
  | .doneWriting _ => inferInstanceAs (Decidable True)

def sampleServer : Server := ⟨Hoc.initHOC fun _ => ⟨sampleBlock true, 0, 0, 0⟩, fun _ => 0, [], []⟩

def sampleFound : Found := ⟨initHCFS, [], false, fun _ => sampleOutcome, 5⟩

/-- Two blocks are brought to the hot object cache, the second of which is `last`, and a response is served from them. -/
def serveEvents (last : StoredBlock) : List Event :=
  [.insertBlock (sampleBlock false) 0, .insertBlock last 2, .join sampleResponse sampleFound]

/-- The last block of another object. -/
def otherBlock : StoredBlock := { sampleBlock true with URL := [104, 116, 116, 112, 58, 47, 47, 98, 47] }

end BeagleCache.Serve

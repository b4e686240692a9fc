import Mathlib.Tactic
import BeagleCache.Downloads
import BeagleCache.IndexSets
import BeagleCache.LockTable
import BeagleCache.SlotReads

/-! The locks of the slots of the index. `joinFlow` selects a slot for a response and `processFurtherBlocks` locks one for reading;
`checkForFreeBlocks` gives a slot to a response that is to be written and locks it, until `handleDataHelperRead` has the reply to its
write. -/

namespace BeagleCache.SlotLocks

open Serve Transition Function
open ByteMemory (Memory)
open Sets (getFreeLocation)

/-- A response that is downloaded and written, with the slot that it got from `checkForFreeBlocks`. -/
structure Writer where
  hash : Nat
  matchNum : Int
  genBufferLen : Nat
  r : Downloads.Response
  obtained : Option Slot

/-- The responses that are served, with the slots that `joinFlow` selected for them, and those that are written. The server has the
`reads` of the locks, `write` is here; `strays` counts the removals of a write lock by a response that had not taken it. -/
structure State where
  server : Server
  selected : List Slot
  writers : List Writer
  write : Slot → Nat
  strays : Nat

/-- A lock is there while it is counted. -/
def lockOn (s : State) (slot : Slot) : Bool := s.server.reads slot + s.write slot ≠ 0

/-- What is returned, and `write`. -/
def addWriteLock (s : State) (slot : Slot) : Int × (Slot → Nat) :=
  if lockOn s slot then (if s.server.reads slot = 0 then 0 else 1, s.write)
  else (0, update s.write slot 1)

/-- `write` after `removeWriteLock`, whose result nobody looks at. -/
def removeWriteLock (write : Slot → Nat) (slot : Slot) : Slot → Nat := update write slot (write slot - 1)

/-- What `checkForFreeBlocks` leaves. -/
structure Given where
  status : Int
  matchNum : Int
  obtained : Option Slot
  write : Slot → Nat

/-- `index` is the memory of the index, if it has a header for the set that is valid. -/
def checkForFreeBlocks (numSets : Nat) (index : Option Memory) (s : State) (w : Writer) : Run Given :=
  match index with
  | none => .ok ⟨1, w.matchNum, none, s.write⟩
  | some m => do
      let status ← getFreeLocation m (getSetFromHash numSets w.hash) fun way => lockOn s (slotOf numSets w.hash way)
      match status with
      | none => return ⟨1, w.matchNum, none, s.write⟩
      | some way =>
          let slot := slotOf numSets w.hash way
          let got := addWriteLock s slot
          if got.1 = 1 then return ⟨-1, way, none, got.2⟩
          else return ⟨0, way, some slot, got.2⟩

/-- `formDiskBatches` calls it for the first block of a response. -/
def formDiskBatches (numSets : Nat) (index : Option Memory) (s : State) (i : Nat) (w : Writer) : Run State := do
  let given ← (if w.r.allBlocks = [] then .ok ⟨0, w.matchNum, none, s.write⟩ else checkForFreeBlocks numSets index s w : Run Given)
  return { s with
    server := { s.server with last := [] }
    writers := s.writers.set i
      { w with matchNum := given.matchNum, obtained := given.obtained, r := Downloads.formDiskBatches w.r (given.status ≠ 0) }
    write := given.write }

/-- The `WRITE` case of `handleDataHelperRead`. -/
def writeDone (numSets : Nat) (s : State) (i : Nat) (w : Writer) : State :=
  let slot := slotOf numSets w.hash w.matchNum
  let s := { s with
    server := { s.server with last := [] }
    writers := s.writers.set i { w with r := Downloads.writeDone w.r } }
  if w.r.map - 1 = 0 then
    { s with
      write := removeWriteLock s.write slot
      strays := if s.write slot ≠ 0 ∧ w.obtained ≠ some slot then s.strays + 1 else s.strays }
  else s

inductive Event where
  | serve (e : Serve.Event)
  | start (hash : Nat) (matchNum : Int) (genBufferLen : Nat) (start : Downloads.Start)
  /-- What `formDiskBatches` and `writeDone` are not. -/
  | download (i : Nat) (e : Downloads.Event)
  | formDiskBatches (i : Nat) (index : Option Memory)
  | writeDone (i : Nat)

/-- A dirty object has blocks, and no slot: its `match` is 0. -/
def Possible : Serve.Event → Prop
  | .join r found => r.cacheType = .dob → r.matchNum = 0 ∧ found.dob ≠ []
  | _ => True

instance : DecidablePred Possible
  | .join _ _ => inferInstanceAs (Decidable (_ → _ ∧ _))
  | .wake _ _ _ | .insertBlock _ _ | .getKBlocks _ _ | .doneWriting _ => inferInstanceAs (Decidable True)

/-- The slot of a response that joins. -/
def select (numSets : Nat) : Serve.Event → List Slot
  | .join r _ => if Fresh r then [slotOf numSets r.hash r.matchNum] else []
  | _ => []

def next (numSets numDisks expandLimit : Nat) (s : State) : Event → Run State
  | .serve e =>
      if Possible e then do
        let server ← serverNext numSets numDisks expandLimit s.server e
        return { s with server := server, selected := s.selected ++ select numSets e }
      else .ok s
  | .start hash matchNum genBufferLen start =>
      .ok { s with writers := s.writers ++ [⟨hash, matchNum, genBufferLen, start.response, none⟩] }
  | .download i e =>
      match s.writers[i]? with
      | none => .ok s
      | some w =>
          match e with
          | .formDiskBatches _ | .writeDone => .ok s
          | e =>
              match Downloads.next w.genBufferLen w.r e with
              | none => .ok s
              | some r => .ok { s with writers := s.writers.set i { w with r := r } }
  | .formDiskBatches i index =>
      match s.writers[i]? with
      | none => .ok s
      | some w => if w.r.Idle ∧ w.r.place = .relOb then formDiskBatches numSets index s i w else .ok s
  | .writeDone i =>
      match s.writers[i]? with
      | none => .ok s
      | some w => if w.r.Idle ∧ w.r.place = .batch then .ok (writeDone numSets s i w) else .ok s

def system (numSets numDisks expandLimit : Nat) : System State Event :=
  .ofNext (fun s => ∃ memory, s = ⟨⟨Hoc.initHOC memory, fun _ => 0, [], []⟩, [], [], fun _ => 0, 0⟩) (next numSets numDisks expandLimit)

/-! ## What the locks are for -/

/-- The response is served from the cache, and not everything was read for it. -/
def Served (r : Response) : Prop :=
  r.lDel = false ∧ (r.type = .cache ∨ r.type = .follow) ∧ ¬(r.pstage = .sending ∧ r.status = entityComplete ∧ r.map = false)

/-- The slot that the response is being written to. -/
def Writer.pending (w : Writer) : Option Slot := if w.r.place = .batch then w.obtained else none

/-- A response that is served from `slot`: while it is, the slot is locked and given to nobody; and it locks no other. -/
structure Serves (numSets : Nat) (s : State) (session : Session) (slot : Slot) : Prop where
  lockOn : Served session.r → lockOn s slot = true
  unassigned : Served session.r → ∀ m hash way,
    getFreeLocation m (getSetFromHash numSets hash) (fun way => SlotLocks.lockOn s (slotOf numSets hash way)) = .ok (some way) →
      slotOf numSets hash way ≠ slot
  own : ∀ lock ∈ lockAdds session.calls, slotOf numSets lock.1 lock.2 = slot

/-- A slot is locked for writing exactly while the write of one response is pending that got it, and whose memory is there, and never
together with a reader; no write lock is removed by a response that has not taken it. -/
structure Locked (numSets : Nat) (s : State) : Prop where
  served : ∀ (i : Nat) session, s.server.sessions[i]? = some session → ∃ slot, s.selected[i]? = some slot ∧ Serves numSets s session slot
  shared : ∀ lock ∈ lockAdds s.server.last, s.write (slotOf numSets lock.1 lock.2) = 0
  written : ∀ slot, s.write slot = 0 ∧ (∀ w ∈ s.writers, w.pending ≠ some slot) ∨
    s.write slot = 1 ∧ s.server.reads slot = 0 ∧ ∃! i : Nat, ∃ w, s.writers[i]? = some w ∧ w.pending = some slot
  there : ∀ w ∈ s.writers, w.pending ≠ none → w.r.freed = false
  removed : s.strays = 0

/-- The first block is there when a response joins, and if it locks a slot then the one selected, which is not locked for writing. A
batch with a response that has a slot is not discarded, nor such a response freed; when the write of a response is done, its slot is
unlocked, and a response without one finds no lock. -/
def Keeps (numSets : Nat) (s : State) : Event → Prop
  | .serve (.join r found) =>
      Fresh r → (firstBlock (envOf s.server.hoc found) found.dob r).isSome ∧
        (Locks (envOf s.server.hoc found) 0 found.dob r → r.matchNum = 0 ∧ s.write (slotOf numSets r.hash 0) = 0)
  | .download i .versionChange => ∀ w ∈ s.writers[i]?, w.pending = none
  | .download i .deletePerms => ∀ w ∈ s.writers[i]?, w.pending = none
  | .writeDone i => ∀ w ∈ s.writers[i]?, w.r.place = .batch →
      (w.obtained ≠ none → w.r.map = 1) ∧ (w.obtained = none → w.r.map = 1 → s.write (slotOf numSets w.hash w.matchNum) = 0)
  | _ => True

/-! ## The responses that are served -/

/-- A response keeps to its turns, and locks no slot but the one selected for it. -/
structure Follows (numSets : Nat) (session : Session) (slot : Slot) : Prop where
  lock : ∃ lock, Turns.run none (session.calls.filterMap (lockOp numSets)) = some lock ∧ Holds numSets session.r lock
  own : ∀ lock ∈ lockAdds session.calls, slotOf numSets lock.1 lock.2 = slot

/-- The write that a response got a slot for is pending, and the response has its memory. -/
structure Writes (numSets : Nat) (w : Writer) : Prop where
  placed : Downloads.Placed w.r
  pending : ∀ slot, w.pending = some slot → slot = slotOf numSets w.hash w.matchNum ∧ w.r.freed = false

structure Inv (numSets : Nat) (s : State) : Prop where
  sessions : ∀ (i : Nat) session, s.server.sessions[i]? = some session → ∃ slot, s.selected[i]? = some slot ∧ Follows numSets session slot
  length : s.selected.length = s.server.sessions.length
  reads : LockTable.Counts s.server.reads (s.server.sessions.map (held numSets))
  shared : ∀ lock ∈ lockAdds s.server.last, s.write (slotOf numSets lock.1 lock.2) = 0
  writers : ∀ w ∈ s.writers, Writes numSets w
  write : LockTable.Counts s.write (s.writers.map Writer.pending)
  apart : ∀ slot, s.write slot ≠ 0 → s.write slot = 1 ∧ s.server.reads slot = 0
  removed : s.strays = 0

section Serving

variable {numSets numDisks expandLimit : Nat} {s : State} {session : Session} {slot : Slot} {lock lock' : Option Slot}

theorem take_mem_lockAdds {calls : List Call} (h : Turns.Op.take slot ∈ calls.filterMap (lockOp numSets)) :
    ∃ l ∈ lockAdds calls, slotOf numSets l.1 l.2 = slot := by
  obtain ⟨c, hmem, hop⟩ := List.mem_filterMap.mp h
  cases c with
  | addReadLock hash matchNum =>
      cases hop
      exact ⟨(hash, matchNum), List.mem_filterMap.mpr ⟨_, hmem, rfl⟩, rfl⟩
  | _ => cases hop

theorem Follows.held (h : Follows numSets session slot) (hserved : Served session.r) : held numSets session = some slot := by
  obtain ⟨lock, hrun, hholds⟩ := h.lock
  obtain ⟨hlDel, htype, hreads⟩ := hserved
  have hlock : lock = some (readSlot numSets session.r) := by
    cases hholds with
    | gone hdeleted => exact absurd hdeleted (ne_true_of_eq_false hlDel)
    | left _ _ hdown _ _ => rcases htype with h | h <;> exact absurd (h.symm.trans hdown) (by decide)
    | sending _ _ _ _ _ => rfl
    | waiting _ _ _ _ _ _ => rfl
    | finishing _ hstage hstatus hmap _ => exact absurd ⟨hstage, hstatus, hmap⟩ hreads
  rw [hlock] at hrun
  have htaken := (Turns.taken_of_run hrun).resolve_left (Option.some_ne_none _).symm
  obtain ⟨l, hl, heq⟩ := take_mem_lockAdds htaken
  rw [held_eq hrun, ← heq, h.own l hl]

theorem Inv.lockOn (hinv : Inv numSets s) {i : Nat} (hi : s.server.sessions[i]? = some session) (h : Follows numSets session slot)
    (hserved : Served session.r) : lockOn s slot = true := by
  have hheld : (s.server.sessions.map (Serve.held numSets))[i]? = some (some slot) := by
    rw [List.getElem?_map, hi]
    exact congrArg some (h.held hserved)
  have hreads := hinv.reads.ne_zero_iff.mpr ⟨i, hheld⟩
  unfold SlotLocks.lockOn
  rw [decide_eq_true_iff]
  omega

/-- The search for a free way skips those that are locked. -/
theorem getFreeLocation_free {m : Memory} {set : Nat} {locked : Fin Store.ways → Bool} {way : Fin Store.ways}
    (h : getFreeLocation m set locked = .ok (some way)) : locked way = false := by
  have hloop : ∀ (l : List (Fin Store.ways)) (free : Option (Fin Store.ways) × BitVec 32), (∀ way, free.1 = some way → locked way = false) →
      ∀ way, (l.foldl (fun (free : Option (Fin Store.ways) × BitVec 32) (i : Fin Store.ways) =>
        let present := Sets.getClock m set i
        if locked i then free
        else if present < free.2 then (some i, present)
        else free) free).1 = some way → locked way = false := by
    intro l
    induction l with
    | nil => exact fun _ hfree => hfree
    | cons i l ih =>
        intro free hfree
        apply ih
        intro way hway
        simp only at hway
        split at hway
        · exact hfree way hway
        · next hunlocked =>
            split at hway
            · cases hway
              exact Bool.not_eq_true _ ▸ hunlocked
            · exact hfree way hway
  unfold getFreeLocation at h
  simp only at h
  split at h
  · cases h
  · exact hloop _ _ (fun _ hno => absurd hno.symm (Option.some_ne_none _)) way (Except.ok.inj h)

theorem Inv.serves (hinv : Inv numSets s) {i : Nat} (hi : s.server.sessions[i]? = some session) (h : Follows numSets session slot) :
    Serves numSets s session slot where
  lockOn := hinv.lockOn hi h
  unassigned := by
    intro hserved m hash way hfree heq
    have hunlocked := getFreeLocation_free hfree
    rw [heq, hinv.lockOn hi h hserved] at hunlocked
    cases hunlocked
  own := h.own

theorem Inv.locked (hinv : Inv numSets s) : Locked numSets s where
  served := by
    intro i session hi
    obtain ⟨slot, hslot, hfollows⟩ := hinv.sessions i session hi
    exact ⟨slot, hslot, hinv.serves hi hfollows⟩
  shared := hinv.shared
  written := by
    intro slot
    have hpending : ∀ i : Nat, (s.writers.map Writer.pending)[i]? = some (some slot) ↔
        ∃ w, s.writers[i]? = some w ∧ w.pending = some slot := by
      intro i
      rw [List.getElem?_map, Option.map_eq_some_iff]
    by_cases hzero : s.write slot = 0
    · refine .inl ⟨hzero, fun w hw hslot => ?_⟩
      obtain ⟨i, hi⟩ := List.mem_iff_getElem?.mp hw
      exact hinv.write.ne_zero_iff.mpr ⟨i, (hpending i).mpr ⟨w, hi, hslot⟩⟩ hzero
    · obtain ⟨hone, hreads⟩ := hinv.apart slot hzero
      refine .inr ⟨hone, hreads, ?_⟩
      simp only [← hpending]
      exact hinv.write.existsUnique hone
  there := by
    intro w hw hpending
    obtain ⟨slot, hslot⟩ := Option.ne_none_iff_exists'.mp hpending
    exact ((hinv.writers w hw).pending slot hslot).2
  removed := hinv.removed

/-- A response is left by a call that locks at most its slot, and that while it is not locked for writing. -/
theorem Inv.record (hinv : Inv numSets s) (server : Server) {selected : List Slot} {i : Nat} {got : Response × List Call}
    (hsame : server.reads = s.server.reads) (hlength : selected.length = server.sessions.length)
    (hothers : ∀ (j : Nat) session, j ≠ i → server.sessions[j]? = some session →
      ∃ slot, selected[j]? = some slot ∧ Follows numSets session slot)
    (hcounts : LockTable.Counts server.reads (server.sessions.map (held numSets))) (hi : server.sessions[i]? = some session)
    (hslot : selected[i]? = some slot) (hown : ∀ l ∈ lockAdds session.calls, slotOf numSets l.1 l.2 = slot)
    (hrun : Turns.run none (session.calls.filterMap (lockOp numSets)) = some lock)
    (hgot : Turns.run lock (got.2.filterMap (lockOp numSets)) = some lock') (hholds : Holds numSets got.1 lock')
    (hadds : ∀ l ∈ lockAdds got.2, slotOf numSets l.1 l.2 = slot ∧ s.write slot = 0) :
    Inv numSets { s with server := record numSets server i session got, selected := selected } where
  sessions := by
    intro j session' hj
    have hset : (server.sessions.set i ⟨got.1, session.calls ++ got.2⟩)[j]? = some session' := hj
    by_cases hji : j = i
    · subst hji
      obtain ⟨hlt, -⟩ := List.getElem?_eq_some_iff.mp hi
      rw [List.getElem?_set_self hlt] at hset
      cases hset
      refine ⟨slot, hslot, ⟨lock', ?_, hholds⟩, fun l hl => ?_⟩
      · rw [List.filterMap_append, Turns.run_append, hrun]
        exact hgot
      · rw [lockAdds_append] at hl
        rcases List.mem_append.mp hl with hl | hl
        · exact hown l hl
        · exact (hadds l hl).1
    · rw [List.getElem?_set_ne (Ne.symm hji)] at hset
      exact hothers j session' hji hset
  length := by
    show selected.length = (server.sessions.set i _).length
    rw [List.length_set]
    exact hlength
  reads := record_counts hcounts hi hrun hgot
  shared := by
    intro l hl
    obtain ⟨heq, hzero⟩ := hadds l hl
    rw [heq]
    exact hzero
  writers := hinv.writers
  write := hinv.write
  apart := by
    intro x hx
    obtain ⟨hone, hnone⟩ := hinv.apart x hx
    refine ⟨hone, ?_⟩
    rw [← hsame] at hnone
    by_contra hreads
    obtain ⟨j, hj⟩ := (record_counts hcounts hi hrun hgot).ne_zero_iff.mp hreads
    have hbefore : ∀ k : Nat, (server.sessions.map (held numSets))[k]? ≠ some (some x) := fun k hk => hcounts.ne_zero_iff.mpr ⟨k, hk⟩ hnone
    have hall : Turns.run none ((session.calls ++ got.2).filterMap (lockOp numSets)) = some lock' := by
      rw [List.filterMap_append, Turns.run_append, hrun]
      exact hgot
    have hset : ((server.sessions.map (held numSets)).set i lock')[j]? = some (some x) := by
      have hheld : held numSets ⟨got.1, session.calls ++ got.2⟩ = lock' := held_eq hall
      rw [← hheld, ← List.map_set]
      exact hj
    by_cases hji : j = i
    · subst hji
      obtain ⟨hlt, -⟩ := List.getElem?_eq_some_iff.mp hi
      rw [List.getElem?_set_self (by rw [List.length_map]; exact hlt)] at hset
      rw [Option.some.inj hset] at hgot
      rcases Turns.taken_of_run hgot with hheld | htaken
      · apply hbefore j
        rw [List.getElem?_map, hi, Option.map_some, held_eq hrun, hheld]
      · obtain ⟨l, hl, heq⟩ := take_mem_lockAdds htaken
        obtain ⟨hown', hzero⟩ := hadds l hl
        rw [← heq, hown'] at hx
        exact hx hzero
    · rw [List.getElem?_set_ne (Ne.symm hji)] at hset
      exact hbefore j hset
  removed := hinv.removed

theorem Inv.join (hinv : Inv numSets s) {r : Response} {found : Found} {got : Response × List Call} (hfresh : Fresh r)
    (hkeeps : Keeps numSets s (.serve (.join r found)))
    (hgot : processFurtherBlocks (envOf s.server.hoc found) found.passes found.dob r = .ok got) :
    Inv numSets { s with
      server := Serve.record numSets { s.server with sessions := s.server.sessions ++ [⟨r, []⟩] } s.server.sessions.length ⟨r, []⟩ got
      selected := s.selected ++ [slotOf numSets r.hash r.matchNum] } := by
  obtain ⟨hfirst, hlocks⟩ := hkeeps hfresh
  obtain ⟨lock, hrun, -, hholds, hadds⟩ := processFurtherBlocks_reads hfresh.comes (fun _ _ => hfirst) hgot
  have hlength := hinv.length
  have hnew : (s.server.sessions ++ [(⟨r, []⟩ : Session)])[s.server.sessions.length]? = some ⟨r, []⟩ := List.getElem?_concat_length
  have hslot : (s.selected ++ [slotOf numSets r.hash r.matchNum])[s.server.sessions.length]? = some (slotOf numSets r.hash r.matchNum) := by
    rw [← hlength]
    exact List.getElem?_concat_length
  have hcounts : LockTable.Counts s.server.reads ((s.server.sessions ++ [(⟨r, []⟩ : Session)]).map (held numSets)) := by
    rw [List.map_append]
    exact hinv.reads.concat_none
  refine hinv.record { s.server with sessions := s.server.sessions ++ [⟨r, []⟩] } rfl ?_ ?_ hcounts hnew hslot
    (fun l hl => absurd hl List.not_mem_nil) rfl hrun hholds ?_
  · simp [hlength]
  · intro j session hj hget
    have hlt : j < s.server.sessions.length := by
      obtain ⟨hlt, -⟩ := List.getElem?_eq_some_iff.mp hget
      simp only [List.length_append, List.length_singleton] at hlt
      omega
    rw [List.getElem?_append_left hlt] at hget
    obtain ⟨slot, hslot, hfollows⟩ := hinv.sessions j session hget
    exact ⟨slot, by rw [List.getElem?_append_left (hlength ▸ hlt), hslot], hfollows⟩
  · intro l hl
    rcases hadds with hnone | ⟨hone, htakes⟩
    · rw [hnone] at hl
      cases hl
    · rw [hone, List.mem_singleton] at hl
      obtain ⟨hmatch, hzero⟩ := hlocks htakes
      rw [hl, hmatch]
      exact ⟨rfl, hzero⟩

theorem Inv.wake (hinv : Inv numSets s) {i : Nat} (hi : s.server.sessions[i]? = some session) {wake : Wake} {found : Found}
    {got : Response × List Call} (hgot : wakeUp (envOf s.server.hoc found) found session.r wake = .ok got) :
    Inv numSets { s with server := Serve.record numSets s.server i session got } := by
  obtain ⟨slot, hslot, hfollows⟩ := hinv.sessions i session hi
  obtain ⟨lock, hrun, hholds⟩ := hfollows.lock
  obtain ⟨lock', hrun', -, hholds', hadds⟩ := wakeUp_reads hholds hgot
  refine hinv.record s.server rfl hinv.length (fun j session _ hj => hinv.sessions j session hj) hinv.reads
    hi hslot hfollows.own hrun hrun' hholds' ?_
  intro l hl
  rw [hadds] at hl
  cases hl

theorem Inv.hoc (hinv : Inv numSets s) (hoc : Hoc.Cache StoredBlock) : Inv numSets { s with server := { s.server with hoc := hoc } } :=
  ⟨hinv.sessions, hinv.length, hinv.reads, hinv.shared, hinv.writers, hinv.write, hinv.apart, hinv.removed⟩

theorem Inv.serve (hinv : Inv numSets s) {e : Serve.Event} (hkeeps : Keeps numSets s (.serve e)) {server : Server}
    (hserve : serverNext numSets numDisks expandLimit s.server e = .ok server) :
    Inv numSets { s with server := server, selected := s.selected ++ select numSets e } := by
  have hsame : ∀ e, select numSets e = [] → s.selected ++ select numSets e = s.selected := by
    intro e hnone
    rw [hnone, List.append_nil]
  cases e with
  | join r found =>
      rw [serverNext] at hserve
      split at hserve
      · next hfresh =>
          obtain ⟨got, hgot, hserve⟩ := Run.bind_eq_ok.mp hserve
          rw [← Except.ok.inj hserve, select, if_pos hfresh]
          exact hinv.join hfresh hkeeps hgot
      · next hfresh =>
          rw [← Except.ok.inj hserve, hsame (.join r found) (if_neg hfresh)]
          exact hinv
  | wake i wake found =>
      rw [serverNext] at hserve
      rw [hsame _ rfl]
      cases hi : s.server.sessions[i]? with
      | none =>
          rw [hi] at hserve
          rw [← Except.ok.inj hserve]
          exact hinv
      | some session =>
          rw [hi] at hserve
          obtain ⟨got, hgot, hserve⟩ := Run.bind_eq_ok.mp hserve
          rw [← Except.ok.inj hserve]
          exact hinv.wake hi hgot
  | insertBlock dat remOffset =>
      obtain ⟨got, -, hserve⟩ := Run.bind_eq_ok.mp hserve
      rw [← Except.ok.inj hserve, hsame _ rfl]
      exact hinv.hoc got.2
  | getKBlocks k offset =>
      obtain ⟨got, -, hserve⟩ := Run.bind_eq_ok.mp hserve
      rw [← Except.ok.inj hserve, hsame _ rfl]
      exact hinv.hoc got.2
  | doneWriting remOffset =>
      rw [← Except.ok.inj hserve, hsame _ rfl]
      exact hinv.hoc _

end Serving

/-! ## The responses that are written -/

section Writing

variable {numSets numDisks expandLimit : Nat} {s s' : State} {w : Writer} {i : Nat}

theorem pending_set (s : State) (i : Nat) (w' : Writer) : (s.writers.set i w').map Writer.pending =
    (s.writers.map Writer.pending).set i w'.pending := List.map_set

theorem pending_get (hi : s.writers[i]? = some w) : (s.writers.map Writer.pending)[i]? = some w.pending := by
  rw [List.getElem?_map, hi]
  rfl

/-- What `checkForFreeBlocks` can do: it gives no slot, or one that nobody has locked. -/
theorem checkForFreeBlocks_cases {index : Option Memory} {given : Given} (h : checkForFreeBlocks numSets index s w = .ok given) :
    given.status ≠ -1 ∧ (given.obtained = none ∧ given.write = s.write ∨
      ∃ slot, given.obtained = some slot ∧ slot = slotOf numSets w.hash given.matchNum ∧ lockOn s slot = false ∧
        given.write = update s.write slot 1) := by
  cases index with
  | none =>
      cases h
      exact ⟨show (1 : Int) ≠ -1 by decide, .inl ⟨rfl, rfl⟩⟩
  | some m =>
      obtain ⟨status, hfree, h⟩ := Run.bind_eq_ok.mp h
      cases status with
      | none =>
          cases h
          exact ⟨show (1 : Int) ≠ -1 by decide, .inl ⟨rfl, rfl⟩⟩
      | some way =>
          have hunlocked : lockOn s (slotOf numSets w.hash way) = false := getFreeLocation_free hfree
          have hadded : addWriteLock s (slotOf numSets w.hash way) = (0, update s.write (slotOf numSets w.hash way) 1) := by
            unfold addWriteLock
            rw [hunlocked, if_neg Bool.false_ne_true]
          simp only [hadded] at h
          cases h
          exact ⟨show (0 : Int) ≠ -1 by decide, .inr ⟨_, rfl, rfl, hunlocked, rfl⟩⟩

theorem unlocked_of_lockOn {slot : Slot} (hlock : lockOn s slot = false) : s.server.reads slot = 0 ∧ s.write slot = 0 := by
  unfold lockOn at hlock
  rw [decide_eq_false_iff_not, not_not] at hlock
  omega

theorem Inv.written (hinv : Inv numSets s) {w' : Writer} {write : Slot → Nat} {last : List Call}
    (hlast : last = [] ∨ last = s.server.last ∧ write = s.write) (hwrites : Writes numSets w')
    (hcounts : LockTable.Counts write ((s.writers.map Writer.pending).set i w'.pending))
    (hapart : ∀ slot, write slot ≠ 0 → write slot = 1 ∧ s.server.reads slot = 0) :
    Inv numSets { s with server := { s.server with last := last }, writers := s.writers.set i w', write := write } where
  sessions := hinv.sessions
  length := hinv.length
  reads := hinv.reads
  shared := by
    intro l hl
    rcases hlast with hnil | ⟨hsame, hwrite⟩
    · rw [hnil] at hl
      cases hl
    · rw [hsame] at hl
      rw [hwrite]
      exact hinv.shared l hl
  writers := by
    intro w'' hw
    rcases List.mem_or_eq_of_mem_set hw with hold | hnew
    · exact hinv.writers w'' hold
    · rw [hnew]
      exact hwrites
  write := by
    show LockTable.Counts write ((s.writers.set i w').map Writer.pending)
    rw [pending_set]
    exact hcounts
  apart := hapart
  removed := hinv.removed

theorem pending_kept (hi : s.writers[i]? = some w) : (s.writers.map Writer.pending).set i w.pending = s.writers.map Writer.pending := by
  obtain ⟨hlt, hget⟩ := List.getElem?_eq_some_iff.mp (pending_get hi)
  rw [← hget, List.set_getElem_self]

theorem Inv.download (hinv : Inv numSets s) (hi : s.writers[i]? = some w) {e : Downloads.Event} {r : Downloads.Response}
    (hkeeps : Keeps numSets s (.download i e)) (hform : ∀ noBlocks, e ≠ .formDiskBatches noBlocks) (hdone : e ≠ .writeDone)
    (hnext : Downloads.next w.genBufferLen w.r e = some r) : Inv numSets { s with writers := s.writers.set i { w with r := r } } := by
  have hwrites := hinv.writers w (List.mem_of_getElem? hi)
  have hplaced := hwrites.placed.next hnext
  have hsame : Writer.pending { w with r := r } = w.pending ∧ (w.pending ≠ none → r.freed = w.r.freed) := by
    by_cases hbatch : e.OfBatch
    · have hnone : w.pending = none ∧ Writer.pending { w with r := r } = none := by
        cases e with
        | versionChange =>
            obtain ⟨-, hr⟩ := Option.ite_none_right_eq_some.mp hnext
            cases hr
            exact ⟨hkeeps w hi, rfl⟩
        | deletePerms =>
            obtain ⟨-, hr⟩ := Option.ite_none_right_eq_some.mp hnext
            cases hr
            exact ⟨hkeeps w hi, hkeeps w hi⟩
        | formDiskBatches noBlocks => exact absurd rfl (hform noBlocks)
        | writeDone => exact absurd rfl hdone
        | _ => exact absurd hbatch id
      exact ⟨hnone.2.trans hnone.1.symm, fun h => absurd hnone.1 h⟩
    · have hstays := Downloads.stays_next hwrites.placed hbatch hnext
      refine ⟨?_, fun _ => hstays.freed⟩
      unfold Writer.pending
      simp only [hstays.batch]
  refine hinv.written (.inr ⟨rfl, rfl⟩) ⟨hplaced, fun slot hslot => ?_⟩ ?_ hinv.apart
  · rw [hsame.1] at hslot
    obtain ⟨heq, hthere⟩ := hwrites.pending slot hslot
    refine ⟨heq, (hsame.2 ?_).trans hthere⟩
    rw [hslot]
    exact Option.some_ne_none slot
  · rw [hsame.1, pending_kept hi]
    exact hinv.write

theorem Inv.formDiskBatches (hinv : Inv numSets s) (hi : s.writers[i]? = some w) (hidle : w.r.Idle) (hplace : w.r.place = .relOb)
    {index : Option Memory} (hform : formDiskBatches numSets index s i w = .ok s') : Inv numSets s' := by
  obtain ⟨given, hgiven, hform⟩ := Run.bind_eq_ok.mp hform
  have hcases : given.obtained = none ∧ given.write = s.write ∨
      ∃ slot, given.obtained = some slot ∧ slot = slotOf numSets w.hash given.matchNum ∧ SlotLocks.lockOn s slot = false ∧
        given.write = update s.write slot 1 := by
    split at hgiven
    · cases hgiven
      exact .inl ⟨rfl, rfl⟩
    · exact (checkForFreeBlocks_cases hgiven).2
  have hwrites := hinv.writers w (List.mem_of_getElem? hi)
  have hnone : w.pending = none := by
    unfold Writer.pending
    rw [if_neg (by rw [hplace]; decide)]
  have hpending : Writer.pending { w with
      matchNum := given.matchNum, obtained := given.obtained, r := Downloads.formDiskBatches w.r (given.status ≠ 0) } =
        given.obtained := if_pos rfl
  have hplaced := hwrites.placed.formDiskBatches hplace (given.status ≠ 0)
  rw [← Except.ok.inj hform]
  rcases hcases with ⟨hobtained, hwrite⟩ | ⟨slot, hobtained, hslot, hunlocked, hwrite⟩
  · refine hinv.written (.inl rfl) ⟨hplaced, fun slot hslot => ?_⟩ ?_ ?_
    · rw [hpending, hobtained] at hslot
      cases hslot
    · rw [hpending, hobtained, hwrite, ← hnone, pending_kept hi]
      exact hinv.write
    · rw [hwrite]
      exact hinv.apart
  · obtain ⟨hreads, hzero⟩ := unlocked_of_lockOn hunlocked
    refine hinv.written (.inl rfl) ⟨hplaced, fun slot' hslot' => ?_⟩ ?_ fun x hx => ?_
    · rw [hpending, hobtained] at hslot'
      cases hslot'
      exact ⟨hslot, hidle.2⟩
    · have hown := pending_get hi
      rw [hnone] at hown
      have hstep := hinv.write.step hown (.take slot) rfl
      rw [hpending, hobtained, hwrite]
      rwa [LockTable.apply, hzero] at hstep
    · rw [hwrite] at hx ⊢
      by_cases heq : x = slot
      · rw [heq, update_self]
        exact ⟨rfl, hreads⟩
      · rw [update_of_ne heq] at hx ⊢
        exact hinv.apart x hx

theorem Inv.writeDone (hinv : Inv numSets s) (hi : s.writers[i]? = some w) (hplace : w.r.place = .batch)
    (hkeeps : Keeps numSets s (.writeDone i)) : Inv numSets (writeDone numSets s i w) := by
  obtain ⟨hown, hothers⟩ := hkeeps w hi hplace
  have hwrites := hinv.writers w (List.mem_of_getElem? hi)
  have hpending : w.pending = w.obtained := if_pos hplace
  have hnone : Writer.pending { w with r := Downloads.writeDone w.r } = none := by
    unfold Writer.pending
    rw [if_neg (by rw [Downloads.writeDone_place]; decide)]
  have hplaced := hwrites.placed.writeDone hplace
  have hwrites' : Writes numSets { w with r := Downloads.writeDone w.r } := by
    refine ⟨hplaced, fun slot hslot => ?_⟩
    rw [hnone] at hslot
    cases hslot
  have hzero : w.r.map - 1 = 0 ↔ w.r.map = 1 := by
    generalize w.r.map = map
    bv_omega
  unfold SlotLocks.writeDone
  simp only [hzero]
  rcases Option.eq_none_or_eq_some w.obtained with hobtained | ⟨slot, hobtained⟩
  · have hsame : LockTable.Counts s.write
        ((s.writers.map Writer.pending).set i (Writer.pending { w with r := Downloads.writeDone w.r })) := by
      rw [hnone, ← hobtained, ← hpending, pending_kept hi]
      exact hinv.write
    split
    · next hmap =>
        have hfree := hothers hobtained hmap
        have hless : s.write (slotOf numSets w.hash w.matchNum) - 1 = s.write (slotOf numSets w.hash w.matchNum) := by omega
        have hwrite : removeWriteLock s.write (slotOf numSets w.hash w.matchNum) = s.write := by
          unfold removeWriteLock
          rw [hless, update_eq_self]
        have hstrays : ¬(s.write (slotOf numSets w.hash w.matchNum) ≠ 0 ∧ w.obtained ≠ some (slotOf numSets w.hash w.matchNum)) :=
          fun h => h.1 hfree
        simp only [hwrite, if_neg hstrays]
        exact hinv.written (.inl rfl) hwrites' hsame hinv.apart
    · exact hinv.written (.inl rfl) hwrites' hsame hinv.apart
  · have hmap := hown (by rw [hobtained]; exact Option.some_ne_none slot)
    obtain ⟨hslot, -⟩ := hwrites.pending slot (hpending.trans hobtained)
    have hstrays : ¬(s.write (slotOf numSets w.hash w.matchNum) ≠ 0 ∧ w.obtained ≠ some (slotOf numSets w.hash w.matchNum)) := by
      rw [hobtained, hslot]
      exact fun h => h.2 rfl
    have hget := pending_get hi
    rw [hpending, hobtained] at hget
    have hstep := hinv.write.step hget (.give slot) (if_pos rfl)
    rw [if_pos hmap]
    simp only [if_neg hstrays]
    rw [← hslot]
    refine hinv.written (.inl rfl) hwrites' ?_ fun x hx => ?_
    · rw [hnone]
      exact hstep
    · unfold removeWriteLock at hx ⊢
      by_cases heq : x = slot
      · have hlocked := hinv.write.ne_zero_iff.mpr ⟨i, hget⟩
        rw [heq, update_self, (hinv.apart slot hlocked).1] at hx
        exact absurd rfl hx
      · rw [update_of_ne heq] at hx ⊢
        exact hinv.apart x hx

end Writing

/-! ## Runs -/

section Runs

variable {numSets numDisks expandLimit : Nat} {s s' : State}

theorem Inv.start (hinv : Inv numSets s) (hash : Nat) (matchNum : Int) (genBufferLen : Nat) (start : Downloads.Start) :
    Inv numSets { s with writers := s.writers ++ [⟨hash, matchNum, genBufferLen, start.response, none⟩] } := by
  have hnone : Writer.pending ⟨hash, matchNum, genBufferLen, start.response, none⟩ = none := ite_self none
  refine ⟨hinv.sessions, hinv.length, hinv.reads, hinv.shared, fun w hw => ?_, ?_, hinv.apart, hinv.removed⟩
  · rcases List.mem_append.mp hw with hold | hnew
    · exact hinv.writers w hold
    · rw [List.mem_singleton.mp hnew]
      refine ⟨Downloads.placed_start start, fun slot hslot => ?_⟩
      rw [hnone] at hslot
      cases hslot
  · show LockTable.Counts s.write ((s.writers ++ [_]).map Writer.pending)
    rw [List.map_append, List.map_singleton, hnone]
    exact hinv.write.concat_none

theorem Inv.next (hinv : Inv numSets s) {e : Event} (hkeeps : Keeps numSets s e)
    (hnext : next numSets numDisks expandLimit s e = .ok s') : Inv numSets s' := by
  cases e with
  | serve e =>
      rw [SlotLocks.next] at hnext
      split at hnext
      · obtain ⟨server, hserve, hnext⟩ := Run.bind_eq_ok.mp hnext
        rw [← Except.ok.inj hnext]
        exact hinv.serve hkeeps hserve
      · rw [← Except.ok.inj hnext]
        exact hinv
  | start hash matchNum genBufferLen start =>
      rw [← Except.ok.inj hnext]
      exact hinv.start hash matchNum genBufferLen start
  | download i e =>
      rw [SlotLocks.next] at hnext
      cases hi : s.writers[i]? with
      | none =>
          rw [hi] at hnext
          rw [← Except.ok.inj hnext]
          exact hinv
      | some w =>
          rw [hi] at hnext
          simp only at hnext
          split at hnext
          · rw [← Except.ok.inj hnext]
            exact hinv
          · rw [← Except.ok.inj hnext]
            exact hinv
          · next hform hdone =>
              split at hnext
              · rw [← Except.ok.inj hnext]
                exact hinv
              · next r hr =>
                  rw [← Except.ok.inj hnext]
                  exact hinv.download hi hkeeps hform hdone hr
  | formDiskBatches i index =>
      rw [SlotLocks.next] at hnext
      cases hi : s.writers[i]? with
      | none =>
          rw [hi] at hnext
          rw [← Except.ok.inj hnext]
          exact hinv
      | some w =>
          rw [hi] at hnext
          simp only at hnext
          split at hnext
          · next hready => exact hinv.formDiskBatches hi hready.1 hready.2 hnext
          · rw [← Except.ok.inj hnext]
            exact hinv
  | writeDone i =>
      rw [SlotLocks.next] at hnext
      cases hi : s.writers[i]? with
      | none =>
          rw [hi] at hnext
          rw [← Except.ok.inj hnext]
          exact hinv
      | some w =>
          rw [hi] at hnext
          simp only at hnext
          split at hnext
          · next hready =>
              rw [← Except.ok.inj hnext]
              exact hinv.writeDone hi hready.2 hkeeps
          · rw [← Except.ok.inj hnext]
            exact hinv

theorem locks_invariant (numSets numDisks expandLimit : Nat) :
    ((system numSets numDisks expandLimit).restrict (Keeps numSets)).Invariant (Inv numSets) where
  init := by
    rintro s ⟨memory, rfl⟩
    exact ⟨fun i session hi => (nomatch hi), rfl, LockTable.counts_nil, fun l hl => absurd hl List.not_mem_nil,
      fun w hw => absurd hw List.not_mem_nil, LockTable.counts_nil, fun slot hslot => absurd rfl hslot, rfl⟩
  step := fun _ _ _ hinv hstep => hinv.next hstep.1 hstep.2

/-- In every run that keeps to them, the locks do what they are for. -/
theorem slots_locked {labels : List Event} (hrun : ((system numSets numDisks expandLimit).restrict (Keeps numSets)).Runs labels s) :
    Locked numSets s := ((locks_invariant numSets numDisks expandLimit).holds hrun).locked

end Runs

/-! ## Samples -/

instance (a : Hcfs.Alloc) (o : Outcome) (b : StoredBlock) (r : Response) : Decidable (LocksFirst a o b r) :=
  inferInstanceAs (Decidable (_ ∧ _ ∧ _ ∧ _ ∧ _ ∧ _))

instance (env : Env) (k : Nat) (dob : List StoredBlock) (r : Response) : Decidable (Locks env k dob r) :=
  inferInstanceAs (Decidable (_ ∧ _ ∧ ∃ b ∈ firstBlock env dob r, _))

instance (numSets : Nat) (s : State) : DecidablePred (Keeps numSets s)
  | .serve (.join _ _) => inferInstanceAs (Decidable (_ → _ ∧ (_ → _ ∧ _)))
  | .download i .versionChange | .download i .deletePerms => inferInstanceAs (Decidable (∀ w ∈ s.writers[i]?, w.pending = none))
  | .writeDone i => inferInstanceAs (Decidable (∀ w ∈ s.writers[i]?, _ → (_ → _) ∧ (_ → _ → _)))
  | .serve (.wake _ _ _) | .serve (.insertBlock _ _) | .serve (.getKBlocks _ _) | .serve (.doneWriting _) | .start _ _ _ _
  | .download _ (.handleConnect _) | .download _ (.handleDownloadRead _ _ _ _) | .download _ (.resumeDownload _ _ _)
  | .download _ .prepareWrite | .download _ .delRequestTranLazy | .download _ .delResponseTranLazy
  | .download _ .checkPersistentConnection | .download _ .processBatch | .download _ (.formDiskBatches _) | .download _ .writeDone
  | .formDiskBatches _ _ => inferInstanceAs (Decidable True)

instance : DecidablePred Served := fun _ => inferInstanceAs (Decidable (_ ∧ _ ∧ ¬_))

def sampleState : State := ⟨sampleServer, [], [], fun _ => 0, 0⟩

/-- One set, in which the ways 0 and 3 were used longest ago. -/
def sampleIndex : Memory := fun a => if a = 32 then 0x77 else if a = 33 then 0x19 else if a = 34 then 0x0d else 0

/-- A response is selected a way and served, and its client is busy. -/
def readEvents (matchNum : Int) : List Event :=
  [.serve (.insertBlock (sampleBlock false) 0),
    .serve (.join { sampleResponse with matchNum := matchNum } { sampleFound with outcomes := fun _ => { sampleOutcome with sent := 2 } })]

/-- A response is downloaded, gets a slot and is written. -/
def writeEvents : List Event :=
  [.start 9 (-1) 300 (.miss true false), .download 0 (.handleDownloadRead ⟨false, .ENTITY_COMPLETE, 40, 60, [40]⟩ .done [some 40] true),
    .download 0 .prepareWrite, .download 0 .processBatch, .formDiskBatches 0 (some sampleIndex), .writeDone 0]

theorem slots_locked_sample : ∃ s, ((system 1 1 1).restrict (Keeps 1)).Runs (readEvents 0 ++ writeEvents) s ∧
    s.writers.map Writer.obtained = [some (0, 3)] ∧ s.server.reads (0, 0) = 1 ∧ s.write (0, 3) = 0 ∧ Locked 1 s := by
  obtain ⟨s, hfold, hstate⟩ := @Run.exists_of_map _ _
    ((readEvents 0 ++ writeEvents).foldlM (System.guarded (Keeps 1) (next 1 1 1) .exit) sampleState)
    (fun s => (s.writers.map Writer.obtained, s.server.reads (0, 0), s.write (0, 3))) ([some (0, 3)], 1, 0) (by decide +kernel)
  have hstart : ((system 1 1 1).restrict (Keeps 1)).Runs [] sampleState := .start ⟨_, rfl⟩
  have hrun := System.runs_guarded hstart hfold
  obtain ⟨hobtained, hlocks⟩ := Prod.mk.inj hstate
  obtain ⟨hreads, hwrite⟩ := Prod.mk.inj hlocks
  exact ⟨s, hrun, hobtained, hreads, hwrite, slots_locked hrun⟩

/-- The way selected was 3: the response that is served from it has locked the way 0, and the way 3 is the next to be overwritten. -/
theorem slot_not_locked : ∃ s, (system 1 1 1).Runs (readEvents 3) s ∧ s.selected = [(0, 3)] ∧ lockOn s (0, 3) = false ∧
    getFreeLocation sampleIndex 0 (fun way => lockOn s (slotOf 1 7 way)) = .ok (some ⟨3, by decide⟩) ∧ ¬Locked 1 s := by
  obtain ⟨s, hfold, hstate⟩ := @Run.exists_of_map _ _ ((readEvents 3).foldlM (next 1 1 1) sampleState)
    (fun s => (s.selected, lockOn s (0, 3), (getFreeLocation sampleIndex 0 fun way => lockOn s (slotOf 1 7 way)).toOption,
      s.server.sessions.map fun session => decide (Served session.r)))
    ([(0, 3)], false, some (some ⟨3, by decide⟩), [true]) (by decide +kernel)
  have hstart : (system 1 1 1).Runs [] sampleState := .start ⟨_, rfl⟩
  have hrun := System.runs_foldlM hstart hfold
  obtain ⟨hselected, hrest⟩ := Prod.mk.inj hstate
  obtain ⟨hunlocked, hrest⟩ := Prod.mk.inj hrest
  obtain ⟨hfree, hsessions⟩ := Prod.mk.inj hrest
  refine ⟨s, hrun, hselected, hunlocked, ?_, fun hlocked => ?_⟩
  · cases hgot : getFreeLocation sampleIndex 0 fun way => lockOn s (slotOf 1 7 way) with
    | error e =>
        rw [hgot] at hfree
        cases hfree
    | ok free =>
        rw [hgot] at hfree
        rw [Option.some.inj hfree]
  · have hsession := congrArg (fun l => l[0]?) hsessions
    simp only [List.getElem?_map, List.getElem?_cons_zero, Option.map_eq_some_iff] at hsession
    obtain ⟨session, hget, hserved⟩ := hsession
    obtain ⟨slot, hslot, hserves⟩ := hlocked.served 0 session hget
    rw [hselected] at hslot
    cases hslot
    rw [hserves.lockOn (of_decide_eq_true hserved)] at hunlocked
    cases hunlocked

end BeagleCache.SlotLocks

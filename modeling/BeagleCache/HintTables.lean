import BeagleCache.ChunkCache
import BeagleCache.Transition
import BeagleCache.Window

/-! The two tables of names, `send_hint_ht` with its queue `g_NameFifo` and `disk_hint_ht` with `g_DiskFifo`. Every insertion is
made behind a look-up, so that a table is a window over the names that came in: the last `MAX_NAMES` of them, each once. -/

namespace BeagleCache

open Transition Window Run

def getDiskHint (hints : HintTable) (sha1name : Sha1Name) : Bool := decide (sha1name ∈ hints.keys)

/-- `PutDiskHint`: the steps of `PutSendHintNoDisk` with `disk_hint_ht` and `g_DiskFifo`. -/
def putDiskHint (hints : HintTable) (sha1name : Sha1Name) : Run HintTable := putSendHintNoDisk hints sha1name

/-- `GetDiskHint` and then `PutDiskHint`, as `ActualPutMissingChunks` calls them. -/
def offerDiskHint (hints : HintTable) (sha1name : Sha1Name) : Run HintTable :=
  if getDiskHint hints sha1name = false then putDiskHint hints sha1name else .ok hints

/-- `send_hint_ht` and `disk_hint_ht`, each with its queue. -/
structure HintTables where
  send : HintTable
  disk : HintTable

/-- What puts names into the tables: a buffer that is destroyed with `updateHint`, and a chunk that is put. -/
inductive HintEvent
  | destroyed (lowLevel : Int) (pMRC : List OneChunkName)
  | put (sha1name : Sha1Name)

def hintNext (s : HintTables) : HintEvent → Run HintTables
  | .destroyed lowLevel pMRC => do
      let send ← putMissingNames lowLevel pMRC s.send
      return { s with send := send }
  | .put sha1name => do
      let disk ← offerDiskHint s.disk sha1name
      return { s with disk := disk }

/-- The tables as `CreateCache` leaves them. -/
def emptyHints : HintTables := ⟨⟨[], []⟩, ⟨[], []⟩⟩

def hintSystem : System HintTables HintEvent := System.ofNext (· = emptyHints) hintNext

/-- The names `DestroyChunkBuffer2` looks up. -/
def missingNames (lowLevel : Int) (pMRC : List OneChunkName) : List Sha1Name :=
  ((pMRC.takeWhile fun name => name.level ≤ lowLevel).filter fun name => !name.isHit).map OneChunkName.sha1name

/-- The names offered to `send_hint_ht`. -/
def sendOffers : List HintEvent → List Sha1Name
  | [] => []
  | .destroyed lowLevel pMRC :: events => missingNames lowLevel pMRC ++ sendOffers events
  | .put _ :: events => sendOffers events

/-- The names offered to `disk_hint_ht`. -/
def diskOffers : List HintEvent → List Sha1Name
  | [] => []
  | .destroyed _ _ :: events => diskOffers events
  | .put sha1name :: events => sha1name :: diskOffers events

/-- The table and its queue after the names `names` came in: the same names, each once, and these the last `MAX_NAMES`. -/
structure HoldsRecent (names : List Sha1Name) (hints : HintTable) : Prop where
  fifo_eq : hints.fifo = recent maxHintNames names
  perm : hints.keys.Perm hints.fifo
  nodup : hints.fifo.Nodup

theorem putSendHintNoDisk_keys {hints hints' : HintTable} {name other : Sha1Name} (h : putSendHintNoDisk hints name = .ok hints')
    (hother : other ∈ hints'.keys) : other = name ∨ other ∈ hints.keys := by
  rw [putSendHintNoDisk] at h
  by_cases hfull : maxHintNames ≤ hints.keys.length
  · rw [if_pos hfull] at h
    obtain ⟨hints₁, hevict, h⟩ := bind_eq_ok.mp h
    obtain ⟨_, _, hret⟩ := bind_eq_ok.mp h
    cases hret
    rcases List.mem_cons.mp hother with hname | hold
    · exact .inl hname
    · rw [evictHint] at hevict
      split at hevict
      · cases hevict
      · obtain ⟨_, _, hret⟩ := bind_eq_ok.mp hevict
        cases hret
        exact .inr (List.mem_of_mem_erase hold)
  · rw [if_neg hfull] at h
    obtain ⟨_, hpure, h⟩ := bind_eq_ok.mp h
    cases hpure
    obtain ⟨_, _, hret⟩ := bind_eq_ok.mp h
    cases hret
    exact List.mem_cons.mp hother

theorem maxHintNames_pos : 0 < maxHintNames := by decide

section Insert

variable {names : List Sha1Name} {hints hints' : HintTable}

theorem HoldsRecent.mem_iff (h : HoldsRecent names hints) {name : Sha1Name} : name ∈ hints.keys ↔ name ∈ recent maxHintNames names := by
  rw [h.perm.mem_iff, h.fifo_eq]

theorem HoldsRecent.length_le (h : HoldsRecent names hints) : hints.keys.length ≤ maxHintNames := by
  rw [h.perm.length_eq, h.fifo_eq, recent_length]
  exact Nat.min_le_right _ _

/-- A name that is not there comes in, and a full table lets its oldest name go. -/
theorem putSendHintNoDisk_holds (h : HoldsRecent names hints) {name : Sha1Name} (hnew : name ∉ hints.keys) :
    ∃ hints', putSendHintNoDisk hints name = .ok hints' ∧ HoldsRecent (names ++ [name]) hints' := by
  have hlength : hints.keys.length = (recent maxHintNames names).length := by rw [h.perm.length_eq, h.fifo_eq]
  have hoffer : offer maxHintNames names name = names ++ [name] := if_neg fun hmem => hnew (h.mem_iff.mpr hmem)
  have hnodup : (recent maxHintNames (names ++ [name])).Nodup := by
    rw [← hoffer]
    exact recent_admit_nodup maxHintNames_pos (h.fifo_eq ▸ h.nodup) name
  rw [putSendHintNoDisk]
  by_cases hfull : maxHintNames ≤ hints.keys.length
  · have hafter := recent_append_of_le maxHintNames_pos (hlength ▸ hfull) name
    rw [← h.fifo_eq] at hafter
    cases hfifo : hints.fifo with
    | nil =>
        have hempty : hints.keys.length = 0 := by rw [h.perm.length_eq, hfifo, List.length_nil]
        rw [hempty] at hfull
        exact absurd maxHintNames_pos (Nat.not_lt.mpr hfull)
    | cons victim rest =>
        have hvictim : victim ∈ hints.keys := by
          rw [h.perm.mem_iff, hfifo]
          exact List.mem_cons_self
        have hgone : name ∉ hints.keys.erase victim := fun hmem => hnew (List.mem_of_mem_erase hmem)
        rw [hfifo, List.tail_cons] at hafter
        rw [if_pos hfull, evictHint, hfifo]
        dsimp only
        rw [check_of hvictim, ok_bind, pure_eq_ok, ok_bind, check_of hgone, ok_bind]
        rw [hafter] at hnodup
        refine ⟨_, rfl, hafter.symm, ?_, hnodup⟩
        have hperm : (hints.keys.erase victim).Perm rest := by
          have herase := h.perm.erase victim
          rwa [hfifo, List.erase_cons_head] at herase
        exact (hperm.cons name).trans (List.perm_append_singleton name rest).symm
  · have hafter := recent_append_of_lt (hlength ▸ Nat.lt_of_not_le hfull) name
    rw [← h.fifo_eq] at hafter
    rw [if_neg hfull, pure_eq_ok, ok_bind]
    dsimp only
    rw [check_of hnew, ok_bind]
    rw [hafter] at hnodup
    refine ⟨_, rfl, hafter.symm, ?_, hnodup⟩
    exact (h.perm.cons name).trans (List.perm_append_singleton name hints.fifo).symm

theorem offer_holds (h : HoldsRecent names hints) (name : Sha1Name) :
    ∃ hints', (if getSendHint hints name = false then putSendHintNoDisk hints name else pure hints) = .ok hints' ∧
      HoldsRecent (offer maxHintNames names name) hints' := by
  by_cases hmem : name ∈ hints.keys
  · have hfound : getSendHint hints name = true := decide_eq_true hmem
    have hsame : offer maxHintNames names name = names := if_pos (h.mem_iff.mp hmem)
    rw [hfound, if_neg (by decide), hsame]
    exact ⟨hints, rfl, h⟩
  · have hmissing : getSendHint hints name = false := decide_eq_false hmem
    have hoffer : offer maxHintNames names name = names ++ [name] := if_neg fun hrecent => hmem (h.mem_iff.mpr hrecent)
    rw [hmissing, if_pos rfl, hoffer]
    exact putSendHintNoDisk_holds h hmem

theorem putMissingNames_missing {lowLevel : Int} {name : OneChunkName} {pMRC : List OneChunkName} (hlevel : ¬ lowLevel < name.level)
    (hhit : name.isHit = false) :
    putMissingNames lowLevel (name :: pMRC) hints = (do
      check (name.isSha1Ready)
      let hints ← (if getSendHint hints name.sha1name = false then putSendHintNoDisk hints name.sha1name else pure hints)
      putMissingNames lowLevel pMRC hints) := by
  rw [putMissingNames, if_neg hlevel, if_pos hhit]
  split <;> rfl

/-- The loop of `DestroyChunkBuffer2` offers the missing names, and only a missing name without its hash stops it. -/
theorem putMissingNames_holds {lowLevel : Int} {pMRC : List OneChunkName} (h : HoldsRecent names hints) :
    (∀ hints', putMissingNames lowLevel pMRC hints = .ok hints' →
      HoldsRecent ((missingNames lowLevel pMRC).foldl (offer maxHintNames) names) hints') ∧
    ((∀ name ∈ pMRC, name.isHit = false → name.isSha1Ready = true) → ∃ hints', putMissingNames lowLevel pMRC hints = .ok hints') := by
  induction pMRC generalizing names hints with
  | nil => exact ⟨fun hints' hret => by cases hret; exact h, fun _ => ⟨hints, rfl⟩⟩
  | cons name pMRC ih =>
      by_cases hlevel : lowLevel < name.level
      · have hnone : missingNames lowLevel (name :: pMRC) = [] := by simp [missingNames, hlevel]
        rw [putMissingNames, if_pos hlevel, hnone]
        exact ⟨fun hints' hret => by cases hret; exact h, fun _ => ⟨hints, rfl⟩⟩
      · by_cases hhit : name.isHit = false
        · have hcons : missingNames lowLevel (name :: pMRC) = name.sha1name :: missingNames lowLevel pMRC := by
            simp [missingNames, not_lt.mp hlevel, hhit]
          obtain ⟨hints₁, hoffer, hholds⟩ := offer_holds h name.sha1name
          rw [putMissingNames_missing hlevel hhit, hcons, List.foldl_cons]
          constructor
          · intro hints' hret
            obtain ⟨_, _, hret⟩ := bind_eq_ok.mp hret
            rw [hoffer, ok_bind] at hret
            exact (ih hholds).1 hints' hret
          · intro hready
            rw [check_of (hready name List.mem_cons_self hhit), ok_bind, hoffer, ok_bind]
            exact (ih hholds).2 fun other hother => hready other (List.mem_cons_of_mem _ hother)
        · have hskip : missingNames lowLevel (name :: pMRC) = missingNames lowLevel pMRC := by
            simp [missingNames, not_lt.mp hlevel, hhit]
          rw [putMissingNames, if_neg hlevel, if_neg hhit, hskip]
          exact ⟨(ih h).1, fun hready => (ih h).2 fun other hother => hready other (List.mem_cons_of_mem _ hother)⟩

end Insert

theorem sendOffers_append (events more : List HintEvent) : sendOffers (events ++ more) = sendOffers events ++ sendOffers more := by
  induction events with
  | nil => rfl
  | cons event events ih => cases event <;> simp [sendOffers, ih]

theorem diskOffers_append (events more : List HintEvent) : diskOffers (events ++ more) = diskOffers events ++ diskOffers more := by
  induction events with
  | nil => rfl
  | cons event events ih => cases event <;> simp [diskOffers, ih]

theorem hintNext_holds {s s' : HintTables} {event : HintEvent} {sent stored : List Sha1Name} (hsend : HoldsRecent sent s.send)
    (hdisk : HoldsRecent stored s.disk) (hstep : hintNext s event = .ok s') :
    HoldsRecent ((sendOffers [event]).foldl (offer maxHintNames) sent) s'.send ∧
      HoldsRecent ((diskOffers [event]).foldl (offer maxHintNames) stored) s'.disk := by
  cases event with
  | destroyed lowLevel pMRC =>
      obtain ⟨send, hput, hret⟩ := bind_eq_ok.mp hstep
      cases hret
      have hoffers : sendOffers [.destroyed lowLevel pMRC] = missingNames lowLevel pMRC := List.append_nil _
      rw [hoffers]
      exact ⟨(putMissingNames_holds hsend).1 send hput, hdisk⟩
  | put sha1name =>
      obtain ⟨disk, hput, hret⟩ := bind_eq_ok.mp hstep
      cases hret
      obtain ⟨disk', hput', hholds⟩ := offer_holds hdisk sha1name
      cases hput.symm.trans hput'
      rw [sendOffers, sendOffers, diskOffers, diskOffers, List.foldl_cons, List.foldl_nil, List.foldl_nil]
      exact ⟨hsend, hholds⟩

theorem emptyHint_holds : HoldsRecent [] ⟨[], []⟩ := ⟨List.drop_nil.symm, List.Perm.refl _, List.nodup_nil⟩

/-- In every run both tables hold exactly the last `MAX_NAMES` of the names that came in, in the queue in the order they came, each
once and never more than `MAX_NAMES`; and the next insertion is made: its assertions hold. -/
theorem hint_tables_hold_recent {events : List HintEvent} {s : HintTables} (hrun : hintSystem.Runs events s) :
    HoldsRecent (admitted maxHintNames (sendOffers events)) s.send ∧ HoldsRecent (admitted maxHintNames (diskOffers events)) s.disk ∧
      s.send.keys.length ≤ maxHintNames ∧ s.disk.keys.length ≤ maxHintNames ∧
      (∀ sha1name, ∃ s', hintSystem.step s (.put sha1name) s') ∧
      ∀ lowLevel pMRC, (∀ name ∈ pMRC, name.isHit = false → name.isSha1Ready = true) →
        ∃ s', hintSystem.step s (.destroyed lowLevel pMRC) s' := by
  have hholds : HoldsRecent (admitted maxHintNames (sendOffers events)) s.send ∧
      HoldsRecent (admitted maxHintNames (diskOffers events)) s.disk := by
    induction hrun with
    | start hinit =>
        cases hinit
        have hnone : admitted maxHintNames ([] : List Sha1Name) = [] := List.foldl_nil
        rw [sendOffers, diskOffers, hnone]
        exact ⟨emptyHint_holds, emptyHint_holds⟩
    | step _ hstep ih =>
        rw [sendOffers_append, diskOffers_append, admitted_append, admitted_append]
        exact hintNext_holds ih.1 ih.2 hstep
  obtain ⟨hsend, hdisk⟩ := hholds
  refine ⟨hsend, hdisk, hsend.length_le, hdisk.length_le, ?_, ?_⟩
  · intro sha1name
    obtain ⟨disk, hput, _⟩ := offer_holds hdisk sha1name
    refine ⟨{ s with disk := disk }, ?_⟩
    show (offerDiskHint s.disk sha1name >>= fun disk => pure { s with disk := disk }) = _
    have hput' : offerDiskHint s.disk sha1name = .ok disk := hput
    rw [hput', ok_bind, pure_eq_ok]
  · intro lowLevel pMRC hready
    obtain ⟨send, hput⟩ := (putMissingNames_holds hsend).2 hready
    refine ⟨{ s with send := send }, ?_⟩
    show (putMissingNames lowLevel pMRC s.send >>= fun send => pure { s with send := send }) = _
    rw [hput, ok_bind, pure_eq_ok]

def nameOfByte (b : Byte) : Sha1Name := ⟨List.replicate 20 b, List.length_replicate⟩

/-- The chunks of a buffer. The destination has the second of them, and the first and the last are equal. -/
def fourChunks : List OneChunkName :=
  [{ (default : OneChunkName) with sha1name := nameOfByte 1, isSha1Ready := true },
    { (default : OneChunkName) with sha1name := nameOfByte 2, isHit := true },
    { (default : OneChunkName) with sha1name := nameOfByte 3, isSha1Ready := true },
    { (default : OneChunkName) with sha1name := nameOfByte 1, isSha1Ready := true }]

theorem admitted_again (x y : Sha1Name) (hne : x ≠ y) : admitted maxHintNames [x, y, x] = [x, y] := by
  have hall {l : List Sha1Name} (h : l.length ≤ 2) : recent maxHintNames l = l := recent_eq_self (h.trans (by decide))
  simp [admitted, offer, hall, hne.symm]

theorem hint_tables_hold_recent_sample :
    ∃ s, hintSystem.Runs [.put (nameOfByte 3), .destroyed 0 fourChunks, .put (nameOfByte 2), .put (nameOfByte 3)] s ∧
      HoldsRecent [nameOfByte 1, nameOfByte 3] s.send ∧ HoldsRecent [nameOfByte 3, nameOfByte 2] s.disk := by
  obtain ⟨s, hcalls⟩ : ∃ s, [HintEvent.put (nameOfByte 3), .destroyed 0 fourChunks, .put (nameOfByte 2), .put (nameOfByte 3)].foldlM
      hintNext emptyHints = .ok s := ⟨_, rfl⟩
  have hrun : hintSystem.Runs ([] ++ [.put (nameOfByte 3), .destroyed 0 fourChunks, .put (nameOfByte 2), .put (nameOfByte 3)]) s :=
    System.runs_foldlM (.start rfl) hcalls
  obtain ⟨hsend, hdisk, -⟩ := hint_tables_hold_recent hrun
  have hmissing : sendOffers ([] ++ [.put (nameOfByte 3), .destroyed 0 fourChunks, .put (nameOfByte 2), .put (nameOfByte 3)]) =
      [nameOfByte 1, nameOfByte 3, nameOfByte 1] := rfl
  rw [hmissing, admitted_again _ _ (by decide)] at hsend
  have hput : diskOffers ([] ++ [.put (nameOfByte 3), .destroyed 0 fourChunks, .put (nameOfByte 2), .put (nameOfByte 3)]) =
      [nameOfByte 3, nameOfByte 2, nameOfByte 3] := rfl
  rw [hput, admitted_again _ _ (by decide)] at hdisk
  exact ⟨s, hrun, hsend, hdisk⟩

end BeagleCache

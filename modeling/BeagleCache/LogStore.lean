import Mathlib.Tactic
import BeagleCache.DiskBatches
import BeagleCache.HotLocks

/-! The store behind HashCache's proxy: the pending batches, the index that `updateHeaders` fills while a batch is formed,
the log on the disks, the requests under way to it, and the hot object cache in front of it. A block of the log is named by
its offset; `convertRelToAbsRead` and `convertRelToAbsWrite` find one place for it. -/

namespace BeagleCache.Store

open Hcfs Batches Transition

variable {β : Type}

/-- A slot of the index: `logOffset`, `logVersion` and `logLen`, the last two kept in a `char`, and the object
`updateHeaders` was called for. -/
structure Slot (β : Type) where
  logOffset : Int
  logVersion : Int
  logLen : Int
  object : Option (Placed β)

/-- A slot after `initIndex`. -/
def Slot.empty : Slot β := ⟨-1, -1, -1, none⟩

structure State (β : Type) where
  batches : Batches.State β
  /-- The objects of the present pass of `formDiskBatches` whose blocks it has not gone through yet. -/
  queue : List (Placed β)
  /-- The index, by set and way. -/
  index : Nat → Nat → Slot β
  hoc : Hoc.State (Block β)
  log : Nat → Block β
  /-- The writes that were issued and did not reach the log. -/
  flights : List (Write β)
  /-- The writes that reached the log and were not reported. -/
  landed : Nat
  /-- What the helpers read from the log and did not report. -/
  reads : List (List (Block β))

/-- `WAYS` -/
def ways : Nat := 8

/-- The arguments of `updateHeaders`, put into a slot. -/
def updateHeaders (numSets : Nat) (index : Nat → Nat → Slot β) (setNum matchNum : Nat) (p : Placed β) : Run (Nat → Nat → Slot β) :=
  if numSets < setNum ∨ ways ≤ matchNum then .error .exit
  else .ok (Function.update index setNum
    (Function.update (index setNum) matchNum ⟨p.start, Hoc.toChar p.version, Hoc.toChar p.length, some p⟩))

/-- The `memcpy` of the blocks of an object to the objects `getKBlocks` gave. -/
def copyBlocks (h : Hoc.Cache (Block β)) : List Nat → List (Block β) → Hoc.Cache (Block β)
  | id :: ids, b :: bs => copyBlocks (Hoc.setObject h id { h.objects id with block := b }) ids bs
  | _, _ => h

/-- The log after the helper of a disk has written a buffer. -/
def pwrite (d : Disks) (log : Nat → Block β) (w : Write β) : Nat → Block β :=
  match w.remOffset with
  | none => log
  | some r => fun off =>
      if r ≤ off ∧ (off - r) % d.numDisks = 0 then (w.buffer[(off - r) / d.numDisks]?).getD (log off) else log off

inductive Event (β : Type) where
  /-- A step of the batches. -/
  | batch (e : Batches.Event β)
  /-- `formDiskBatches` goes through the next object of its pass. `used` is `ifUsed` of its dirty object, `matchNum` the way
  `checkForFreeBlocks` found. -/
  | place (used : Bool) (matchNum : Option Nat)
  /-- A helper writes the buffer of one of the writes under way. -/
  | pwrite (k : Nat)
  /-- A helper reads `n` blocks of a disk. -/
  | pread (remOffset n : Nat)
  /-- `handleDataHelperRead` gets the report of one of the reads. -/
  | handleRead (k : Nat)
  /-- The proxy looks for a block, or is done with one. -/
  | getBlock (remOffset : Int)
  | doneReading (remOffset : Int)
  | doneWriting (remOffset : Int)
  /-- A lookup gives up a block that it cannot parse or that has expired, and marks it: `data` is that of the block with
  `key.tv_sec = -1`. -/
  | mark (remOffset : Int) (data : β)

/-- The objects that the pass of `formDiskBatches` gives a place. -/
def formed (d : Disks) (b : Batches.State β) : Batches.Event β → List (Placed β)
  | .form => (formDiskBatches d b).2
  | _ => []

/-- A step of the batches. It waits until the present pass is through its objects, and the report of a write until the
write has reached the log. -/
def batchStep (d : Disks) (s : State β) (e : Batches.Event β) (reported : Nat) : State β :=
  match batchNext d s.batches e with
  | .error _ => s
  | .ok b =>
      if s.queue = [] ∧ reported ≤ s.landed then
        { s with
          batches := b
          queue := formed d s.batches e
          flights := s.flights ++ b.issued.drop s.batches.issued.length
          landed := s.landed - reported }
      else s

/-- The `insertBlock` of the blocks of a read, each under the place in its tailer. -/
def insertBlocks (d : Disks) (expandLimit : Nat) (h : Hoc.State (Block β)) : List (Block β) → Run (Hoc.State (Block β))
  | [] => .ok h
  | b :: bs => do
      let h ← Hoc.hocNext d expandLimit h (.insertBlock b b.tail.pres)
      insertBlocks d expandLimit h bs

/-- The copy of an object that was used while it waited is made in the hot object cache. -/
def keepBlocks (d : Disks) (expandLimit : Nat) (h : Hoc.State (Block β)) (p : Placed β) : Run (Hoc.State (Block β)) := do
  let got ← Hoc.getKBlocks expandLimit d.numDisks h.cache p.start p.response.allBlocks.length
  return { h with
    cache := copyBlocks got.2 got.1 p.blocks
    writers := ((Hoc.keysFrom d.numDisks p.start p.response.allBlocks.length).zip got.1).reverse ++ h.writers }

/-- The mark goes into the block as the cache has it. -/
def markBlock (h : Hoc.Cache (Block β)) (remOffset : Int) (data : β) : Hoc.Cache (Block β) :=
  match h.whichBlocks remOffset with
  | none => h
  | some id => Hoc.setObject h id { h.objects id with block := { (h.objects id).block with data := data } }

/-- The slot of an object with blocks, if there is one for it. -/
def enterSlot (numSets : Nat) (index : Nat → Nat → Slot β) (p : Placed β) : Option Nat → Run (Nat → Nat → Slot β)
  | none => .ok index
  | some matchNum => if p.blocks = [] then .ok index else updateHeaders numSets index (p.response.hash % numSets) matchNum p

def placeStep (d : Disks) (expandLimit numSets : Nat) (s : State β) (used : Bool) (matchNum : Option Nat) : Run (State β) :=
  match s.queue with
  | [] => .ok s
  | p :: queue => do
      let hoc ← (if used then keepBlocks d expandLimit s.hoc p else .ok s.hoc : Run (Hoc.State (Block β)))
      let index ← enterSlot numSets s.index p matchNum
      return { s with queue := queue, hoc := hoc, index := index }

def pwriteStep (d : Disks) (s : State β) (k : Nat) : State β :=
  match s.flights[k]? with
  | none => s
  | some w => { s with log := pwrite d s.log w, flights := s.flights.eraseIdx k, landed := s.landed + 1 }

def handleReadStep (d : Disks) (expandLimit : Nat) (s : State β) (k : Nat) : Run (State β) :=
  match s.reads[k]? with
  | none => .ok s
  | some bs => do
      let hoc ← insertBlocks d expandLimit s.hoc bs
      return { s with hoc := hoc, reads := s.reads.eraseIdx k }

/-- A call of the proxy to the hot object cache. -/
def callStep (d : Disks) (expandLimit : Nat) (s : State β) (e : Hoc.Event (Block β)) : Run (State β) := do
  let hoc ← Hoc.hocNext d expandLimit s.hoc e
  return { s with hoc := hoc }

/-- An event that cannot happen changes nothing. -/
def storeNext (d : Disks) (expandLimit numSets : Nat) (s : State β) : Event β → Run (State β)
  | .batch .done => .ok (batchStep d s .done 1)
  | .batch e => .ok (batchStep d s e 0)
  | .place used matchNum => placeStep d expandLimit numSets s used matchNum
  | .pwrite k => .ok (pwriteStep d s k)
  | .pread remOffset n => .ok { s with reads := s.reads ++ [(Stripe.blocks d.numDisks remOffset n).map s.log] }
  | .handleRead k => handleReadStep d expandLimit s k
  | .getBlock remOffset => callStep d expandLimit s (.getBlock remOffset)
  | .doneReading remOffset => callStep d expandLimit s (.doneReading remOffset)
  | .doneWriting remOffset => callStep d expandLimit s (.doneWriting remOffset)
  | .mark remOffset data => .ok { s with hoc := { s.hoc with cache := markBlock s.hoc.cache remOffset data } }

/-- The start: nothing waits, nothing is indexed or cached; the log and the memory may hold anything. -/
def storeInit (log : Nat → Block β) (memory : Nat → Hoc.HotObject (Block β)) : State β where
  batches := .init
  queue := []
  index := fun _ _ => .empty
  hoc := ⟨Hoc.initHOC memory, [], [], []⟩
  log := log
  flights := []
  landed := 0
  reads := []

def storeSystem (d : Disks) (expandLimit numSets : Nat) : System (State β) (Event β) :=
  .ofNext (fun s => ∃ log memory, s = storeInit log memory) (storeNext d expandLimit numSets)

/-! ## Steps of the batches -/

section Batch

variable {d : Disks} {s : State β} {b b' : Batches.State β} {e : Batches.Event β}

theorem batchStep_cases (d : Disks) (s : State β) (e : Batches.Event β) (reported : Nat) :
    batchStep d s e reported = s ∨ ∃ b, batchNext d s.batches e = .ok b ∧ s.queue = [] ∧ reported ≤ s.landed ∧
      batchStep d s e reported =
        { s with
          batches := b
          queue := formed d s.batches e
          flights := s.flights ++ b.issued.drop s.batches.issued.length
          landed := s.landed - reported } := by
  unfold batchStep
  cases hnext : batchNext d s.batches e with
  | error _ => exact .inl rfl
  | ok b =>
      by_cases hready : s.queue = [] ∧ reported ≤ s.landed
      · exact .inr ⟨b, rfl, hready.1, hready.2, if_pos hready⟩
      · exact .inl (if_neg hready)

/-- A block that waits for a write waits on, or goes into a request that is issued, or its batch is dropped; the objects of
the pass have their blocks among those that wait. -/
theorem batchNext_lists (hinv : Batches.Inv d b) (hnext : batchNext d b e = .ok b') :
    (∃ writes, b'.issued = b.issued ++ writes ∧
      ∀ i x, x ∈ b.blockLists i → x ∈ b'.blockLists i ∨ (∃ w ∈ writes, x ∈ w.buffer) ∨ ∃ deadline, e = .write deadline ∧ Drops b deadline) ∧
    ∀ p ∈ formed d b e, (∃ version, Whole d version p) ∧ ∃ i, ∀ x ∈ p.blocks, x ∈ b'.blockLists i := by
  cases e with
  | arrive urls =>
      obtain ⟨_, rfl⟩ := stepIf_eq_ok hnext
      exact ⟨⟨[], (List.append_nil _).symm, fun _ _ hx => .inl hx⟩, fun p hp => absurd hp List.not_mem_nil⟩
  | check =>
      obtain ⟨_, rfl⟩ := stepIf_eq_ok hnext
      exact ⟨⟨[], (List.append_nil _).symm, fun _ _ hx => .inl hx⟩, fun p hp => absurd hp List.not_mem_nil⟩
  | form =>
      obtain ⟨_, rfl⟩ := stepIf_eq_ok hnext
      obtain ⟨hlists, hissued, hplaced⟩ := formDiskBatches_lists d b
      exact ⟨⟨[], hissued.trans (List.append_nil _).symm, fun i x hx => .inl (hlists i x hx)⟩, hplaced⟩
  | write deadline =>
      obtain ⟨_, rfl⟩ := stepIf_eq_ok hnext
      obtain ⟨writes, hissued, hlists⟩ := checkBatchWritesNow_lists hinv deadline
      refine ⟨⟨writes, hissued, fun i x hx => ?_⟩, fun p hp => absurd hp List.not_mem_nil⟩
      rcases hlists i x hx with hstays | hgoes | hdrops
      · exact .inl hstays
      · exact .inr (.inl hgoes)
      · exact .inr (.inr ⟨deadline, rfl, hdrops⟩)
  | done =>
      obtain ⟨_, rfl⟩ := stepIf_eq_ok hnext
      exact ⟨⟨[], (List.append_nil _).symm, fun _ _ hx => .inl hx⟩, fun p hp => absurd hp List.not_mem_nil⟩

end Batch

/-! ## Writes of a buffer -/

/-- A block of a buffer that is addressed is afterwards at its place, and the other places are as they were. -/
theorem pwrite_cases {d : Disks} (log : Nat → Block β) {w : Write β} (haddressed : Addressed d w) (off : Nat) :
    (∃ b ∈ w.buffer, b.tail.pres = off ∧ pwrite d log w off = b) ∨
      (∀ b ∈ w.buffer, b.tail.pres ≠ off) ∧ pwrite d log w off = log off := by
  obtain ⟨r, hr, hplace⟩ := haddressed.place
  have hwrite : pwrite d log w off =
      if r ≤ off ∧ (off - r) % d.numDisks = 0 then (w.buffer[(off - r) / d.numDisks]?).getD (log off) else log off := by
    unfold pwrite
    rw [hr]
  have hnone (hmiss : ∀ j : Nat, off = r + j * d.numDisks → w.buffer[j]? = none) : ∀ b ∈ w.buffer, b.tail.pres ≠ off := by
    intro b hb heq
    obtain ⟨j, hj⟩ := List.mem_iff_getElem?.mp hb
    have hpres := (hplace j b hj).1
    rw [hmiss j (heq.symm.trans hpres)] at hj
    cases hj
  by_cases hrow : r ≤ off ∧ (off - r) % d.numDisks = 0
  · rw [if_pos hrow] at hwrite
    have hoff : off = r + (off - r) / d.numDisks * d.numDisks := by
      have hdiv := Nat.div_mul_cancel (Nat.dvd_of_mod_eq_zero hrow.2)
      omega
    cases hget : w.buffer[(off - r) / d.numDisks]? with
    | some b =>
        rw [hget] at hwrite
        exact .inl ⟨b, List.mem_of_getElem? hget, ((hplace _ b hget).1).trans hoff.symm, hwrite⟩
    | none =>
        rw [hget] at hwrite
        refine .inr ⟨hnone fun j hj => ?_, hwrite⟩
        have hrows : j * d.numDisks = (off - r) / d.numDisks * d.numDisks := by omega
        rwa [Nat.eq_of_mul_eq_mul_right d.numDisks_pos hrows]
  · rw [if_neg hrow] at hwrite
    refine .inr ⟨hnone fun j hj => absurd ⟨by omega, ?_⟩ hrow, hwrite⟩
    rw [hj, Nat.add_sub_cancel_left, Nat.mul_mod_left]

/-- A log whose blocks name their places. -/
def sampleLog (n : Nat) : Block Nat := ⟨0, 0, n, n + 2, 0, 1⟩

def sampleStore : State Nat := storeInit sampleLog fun _ => ⟨sampleLog 0, 0, 0, 0⟩

/-- Two objects fill most of the log and a block of the first is read into the cache; the next object makes the log begin
again and is written over the first. -/
def rewriteEvents : List (Event Nat) :=
  [.batch (.arrive [sampleResponse 1 16]), .batch (.arrive [sampleResponse 2 16]), .batch .check, .batch .form, .place false (some 0),
    .batch .form, .place false (some 0), .batch .form, .batch (.write true), .pwrite 0, .pwrite 0, .batch .done, .batch .done,
    .pread 18 1, .handleRead 0,
    .batch (.arrive [sampleResponse 3 16]), .batch .check, .batch .form, .place false (some 0), .batch .form, .batch (.write true),
    .pwrite 0, .batch .done]

end BeagleCache.Store

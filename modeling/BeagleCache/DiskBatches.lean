import Mathlib.Tactic
import BeagleCache.LogAllocator

/-! How HashCache's proxy brings received objects to the log: `formDiskBatches` takes the waiting groups of objects one by
one, gets room for each on one disk, addresses the blocks and appends them to the list of that disk;
`checkBatchWritesNow` writes the lists, or drops them all if the log began a new version in between. -/

namespace BeagleCache.Batches

open Hcfs Transition Function

variable {β : Type}

/-- `MAX_BATCH_SIZE` -/
def maxBatchSize : Nat := 400 * 1024 / fileBlockSize

/-- `writeBufferSize`, as `initBuffers` sets it -/
def writeBufferSize (d : Disks) : Nat := d.numDisks * 1024 * 1024 / fileBlockSize

/-- The fields of a `blockTailer` that are written when the batch is formed. -/
structure Tailer where
  version : Nat
  pres : Nat
  next : Nat
  block : Nat
  length : Nat
  deriving DecidableEq

/-- A block in a write buffer: what the download put into it, and its tailer. -/
structure Block (β : Type) where
  data : β
  tail : Tailer
  deriving DecidableEq

/-- An object that was received completely, and its blocks. -/
structure Response (β : Type) where
  hash : Nat
  allBlocks : List β
  deriving DecidableEq

/-- The objects of a `relOb`. -/
abbrev RelOb (β : Type) := List (Response β)

/-- The field `size` of a `relOb`; `addToRelOb` and the splitting of a batch keep it at the number of blocks. -/
def size (urls : RelOb β) : Nat := (urls.map fun r => r.allBlocks.length).sum

/-- The loop that splits a batch: objects go to a new batch while that is below the limit, and there is one more new
batch while what is left is above it. The new batches and what is left. -/
def splitBatch (newBatch : RelOb β) : RelOb β → List (RelOb β) × RelOb β
  | [] => ([newBatch], [])
  | r :: urls =>
      if size newBatch < maxBatchSize then splitBatch (newBatch ++ [r]) urls
      else if maxBatchSize < size (r :: urls) then
        let rest := splitBatch [r] urls
        (newBatch :: rest.1, rest.2)
      else ([newBatch], r :: urls)

def determineSmartLength (_actLength remResponses _leftOnDisk : Nat) : Nat := remResponses

/-- An object with its place in the log: the arguments of `updateHeaders`, and the blocks as they go to the disk. -/
structure Placed (β : Type) where
  response : Response β
  start : Nat
  version : Nat
  length : Nat
  blocks : List (Block β)
  deriving DecidableEq

/-- The loop over the blocks of an object, from block `count` on. -/
def addressBlocks (d : Disks) (e : Extent) (thisTotal thisStart thisUsed count : Nat) : List β → List (Block β)
  | [] => []
  | data :: rest =>
      ⟨data, e.version, thisStart, thisStart + d.numDisks, count,
          determineSmartLength thisTotal (e.numBlocks - thisUsed) e.leftInCycle⟩ ::
        addressBlocks d e thisTotal (thisStart + d.numDisks) (thisUsed + 1) (count + 1) rest

/-- The loop over the objects of a batch. -/
def addressObjects (d : Disks) (e : Extent) (thisStart thisUsed : Nat) : RelOb β → List (Placed β)
  | [] => []
  | r :: urls =>
      let thisTotal := r.allBlocks.length
      ⟨r, thisStart, e.version, determineSmartLength thisTotal (e.numBlocks - thisUsed) e.leftInCycle,
          addressBlocks d e thisTotal thisStart thisUsed 0 r.allBlocks⟩ ::
        addressObjects d e (thisStart + thisTotal * d.numDisks) (thisUsed + thisTotal) urls

/-- A request to a disk scheduler to write a batch. -/
structure Write (β : Type) where
  remOffset : Option Nat
  version : Nat
  buffer : List (Block β)
  responses : List (Placed β)
  deriving DecidableEq

/-- Where `checkBatchWritesNow` is: not running, in the loop of `formDiskBatches`, or behind it. -/
inductive Stage where
  | idle
  | forming
  | formed
  deriving DecidableEq

/-- The globals of the write path, and the requests handed to the disk schedulers so far. -/
structure State (β : Type) where
  stage : Stage
  alloc : Alloc
  globalWriteWaitList : List (RelOb β)
  totalBatchOffsets : Nat → Option Nat
  presentBatchVersion : Nat
  versionChange : Bool
  diskBatchesReady : Bool
  totalBlocksUsed : Nat
  blockLists : Nat → List (Block β)
  presentResponseBatch : Nat → List (Placed β)
  batchWriteLock : Nat
  issued : List (Write β)

def State.init : State β where
  stage := .idle
  alloc := initHCFS
  globalWriteWaitList := []
  totalBatchOffsets := fun _ => none
  presentBatchVersion := 0
  versionChange := false
  diskBatchesReady := false
  totalBlocksUsed := 0
  blockLists := fun _ => []
  presentResponseBatch := fun _ => []
  batchWriteLock := 0
  issued := []

/-- A pass that finds room for a batch in the write buffer. -/
def formBatch (d : Disks) (s : State β) (thisBatch : RelOb β) (waiting : List (RelOb β)) : State β × List (Placed β) :=
  let got := getFromOneDisk d (beginAllocCycle d s.alloc) (size thisBatch)
  let e := got.1
  let fresh := s.totalBatchOffsets e.diskNum = none
  let presentBatchVersion := if fresh then e.version else s.presentBatchVersion
  let placed := addressObjects d e e.start 0 thisBatch
  ({ s with
      alloc := got.2
      globalWriteWaitList := waiting
      totalBlocksUsed := s.totalBlocksUsed + size thisBatch
      totalBatchOffsets := if fresh then update s.totalBatchOffsets e.diskNum (some e.start) else s.totalBatchOffsets
      presentBatchVersion := presentBatchVersion
      versionChange := s.versionChange || presentBatchVersion != e.version
      blockLists := update s.blockLists e.diskNum (s.blockLists e.diskNum ++ placed.flatMap Placed.blocks)
      presentResponseBatch := update s.presentResponseBatch e.diskNum (placed.reverse ++ s.presentResponseBatch e.diskNum) },
    placed)

/-- The batch the loop looks at, after splitting, and the batches that wait behind it. -/
def nextBatch (d : Disks) (thisBatch : RelOb β) (rest : List (RelOb β)) : RelOb β × List (RelOb β) :=
  if writeBufferSize d < size thisBatch then
    let parts := splitBatch [] thisBatch
    (parts.2, rest ++ parts.1)
  else (thisBatch, rest)

/-- One pass of the loop of `formDiskBatches`, with the objects it gives a place. -/
def formDiskBatches (d : Disks) (s : State β) : State β × List (Placed β) :=
  match s.globalWriteWaitList with
  | [] => ({ s with stage := .formed }, [])
  | thisBatch :: rest =>
      let next := nextBatch d thisBatch rest
      if writeBufferSize d < s.totalBlocksUsed + size next.1 then
        ({ s with globalWriteWaitList := next.1 :: next.2, diskBatchesReady := true, stage := .formed }, [])
      else formBatch d s next.1 next.2

/-- The requests of the branch without a version change. -/
def batchWrites (d : Disks) (s : State β) : List (Write β) :=
  (List.range d.numDisks).filterMap fun i =>
    if s.blockLists i = [] then none
    else some ⟨s.totalBatchOffsets i, s.presentBatchVersion, s.blockLists i, s.presentResponseBatch i⟩

/-- The list of responses of a disk is emptied with a version change, or together with a list of blocks that is not
empty. -/
def leftResponses (d : Disks) (s : State β) (i : Nat) : List (Placed β) :=
  if i < d.numDisks ∧ (s.versionChange ∨ s.blockLists i ≠ []) then [] else s.presentResponseBatch i

/-- What `checkBatchWritesNow` does behind `formDiskBatches`; `deadline` is the comparison with
`ULTIMATE_WRITE_DEADLINE`. -/
def checkBatchWritesNow (d : Disks) (s : State β) (deadline : Bool) : State β :=
  if (s.diskBatchesReady || deadline) && s.batchWriteLock == 0 then
    let writes := if s.versionChange then [] else batchWrites d s
    { s with
      stage := .idle
      blockLists := fun i => if i < d.numDisks then [] else s.blockLists i
      presentResponseBatch := leftResponses d s
      totalBatchOffsets := fun i => if i < d.numDisks then none else s.totalBatchOffsets i
      versionChange := false
      diskBatchesReady := false
      totalBlocksUsed := 0
      batchWriteLock := s.batchWriteLock + writes.length
      issued := s.issued ++ writes }
  else { s with stage := .idle }

/-- What can happen: `processBatch` appends a group to the list, `checkBatchWritesNow` is called and runs through its two
parts, a helper reports that a write is done. -/
inductive Event (β : Type) where
  | arrive (urls : RelOb β)
  | check
  | form
  | write (deadline : Bool)
  | done
  deriving DecidableEq

def batchNext (d : Disks) (s : State β) : Event β → Except Disabled (State β)
  | .arrive urls => stepIf (s.stage = .idle) { s with globalWriteWaitList := s.globalWriteWaitList ++ [urls] }
  | .check => stepIf (s.stage = .idle) { s with stage := .forming }
  | .form => stepIf (s.stage = .forming) (formDiskBatches d s).1
  | .write deadline => stepIf (s.stage = .formed) (checkBatchWritesNow d s deadline)
  | .done => stepIf (s.stage = .idle ∧ 0 < s.batchWriteLock) { s with batchWriteLock := s.batchWriteLock - 1 }

def batchSystem (d : Disks) : System (State β) (Event β) := .ofNext (· = .init) (batchNext d)

/-! ## Addresses -/

/-- The blocks of an object are its own, one after the other on one disk, each with the version of the batch and the
place of the next. -/
structure Whole (d : Disks) (version : Nat) (p : Placed β) : Prop where
  data : p.blocks.map Block.data = p.response.allBlocks
  pres : p.blocks.map (fun b => b.tail.pres) = Stripe.blocks d.numDisks p.start p.blocks.length
  next : ∀ b ∈ p.blocks, b.tail.next = b.tail.pres + d.numDisks
  version : ∀ b ∈ p.blocks, b.tail.version = version

theorem Whole.length {d : Disks} {version : Nat} {p : Placed β} (h : Whole d version p) :
    p.response.allBlocks.length = p.blocks.length := by
  rw [← h.data, List.length_map]

theorem addressBlocks_data (d : Disks) (e : Extent) (thisTotal thisStart thisUsed count : Nat) (l : List β) :
    (addressBlocks d e thisTotal thisStart thisUsed count l).map Block.data = l := by
  induction l generalizing thisStart thisUsed count with
  | nil => rfl
  | cons data rest ih => rw [addressBlocks, List.map_cons, ih]

theorem addressBlocks_length (d : Disks) (e : Extent) (thisTotal thisStart thisUsed count : Nat) (l : List β) :
    (addressBlocks d e thisTotal thisStart thisUsed count l).length = l.length := by
  rw [← List.length_map Block.data, addressBlocks_data]

theorem addressBlocks_pres (d : Disks) (e : Extent) (thisTotal thisStart thisUsed count : Nat) (l : List β) :
    (addressBlocks d e thisTotal thisStart thisUsed count l).map (fun b => b.tail.pres) =
      Stripe.blocks d.numDisks thisStart l.length := by
  induction l generalizing thisStart thisUsed count with
  | nil => rfl
  | cons data rest ih => rw [addressBlocks, List.map_cons, ih, List.length_cons, Stripe.blocks_succ]

theorem addressBlocks_tail {d : Disks} {e : Extent} {thisTotal thisStart thisUsed count : Nat} {l : List β} {b : Block β}
    (hb : b ∈ addressBlocks d e thisTotal thisStart thisUsed count l) :
    b.tail.next = b.tail.pres + d.numDisks ∧ b.tail.version = e.version := by
  induction l generalizing thisStart thisUsed count with
  | nil => exact absurd hb List.not_mem_nil
  | cons data rest ih =>
      rcases List.mem_cons.mp hb with hfirst | hlater
      · rw [hfirst]
        exact ⟨rfl, rfl⟩
      · exact ih hlater

theorem whole_addressBlocks (d : Disks) (e : Extent) (r : Response β) (thisStart thisUsed length : Nat) :
    Whole d e.version ⟨r, thisStart, e.version, length,
      addressBlocks d e r.allBlocks.length thisStart thisUsed 0 r.allBlocks⟩ where
  data := addressBlocks_data ..
  pres := by rw [addressBlocks_pres, addressBlocks_length]
  next := fun _ hb => (addressBlocks_tail hb).1
  version := fun _ hb => (addressBlocks_tail hb).2

theorem whole_addressObjects {d : Disks} {e : Extent} {thisStart thisUsed : Nat} {urls : RelOb β} {p : Placed β}
    (hp : p ∈ addressObjects d e thisStart thisUsed urls) : Whole d e.version p := by
  induction urls generalizing thisStart thisUsed with
  | nil => exact absurd hp List.not_mem_nil
  | cons r urls ih =>
      rcases List.mem_cons.mp hp with hfirst | hlater
      · rw [hfirst]
        exact whole_addressBlocks d e r thisStart thisUsed _
      · exact ih hlater

theorem addressObjects_pres (d : Disks) (e : Extent) (thisStart thisUsed : Nat) (urls : RelOb β) :
    ((addressObjects d e thisStart thisUsed urls).flatMap Placed.blocks).map (fun b => b.tail.pres) =
      Stripe.blocks d.numDisks thisStart (size urls) := by
  induction urls generalizing thisStart thisUsed with
  | nil => rfl
  | cons r urls ih =>
      have hsize : size (r :: urls) = r.allBlocks.length + size urls := List.sum_cons
      rw [addressObjects, List.flatMap_cons, List.map_append, ih, addressBlocks_pres, hsize, Stripe.blocks_add]

theorem addressObjects_length (d : Disks) (e : Extent) (thisStart thisUsed : Nat) (urls : RelOb β) :
    ((addressObjects d e thisStart thisUsed urls).flatMap Placed.blocks).length = size urls := by
  rw [← List.length_map (fun b : Block β => b.tail.pres), addressObjects_pres, Stripe.blocks_length]

theorem Whole.of_nil {d : Disks} {version version' : Nat} {p : Placed β} (h : Whole d version p) (hnil : p.blocks = []) :
    Whole d version' p where
  data := h.data
  pres := h.pres
  next := h.next
  version := by
    intro b hb
    rw [hnil] at hb
    exact absurd hb List.not_mem_nil

/-! ## The pending batch -/

/-- The blocks that wait for a disk, where no version change was seen: they belong to whole objects, and if the disk has
its place in the batch, they lie from there up to its cursor. -/
structure Pending (d : Disks) (s : State β) (i : Nat) : Prop where
  objects : s.blockLists i = (s.presentResponseBatch i).reverse.flatMap Placed.blocks
  whole : ∀ p ∈ s.presentResponseBatch i, Whole d s.presentBatchVersion p
  version : ∀ r, s.totalBatchOffsets i = some r → s.presentBatchVersion = s.alloc.presentRemVersion
  pres : ∀ r, s.totalBatchOffsets i = some r →
    (s.blockLists i).map (fun b => b.tail.pres) = Stripe.blocks d.numDisks r (s.blockLists i).length
  cursor : ∀ r, s.totalBatchOffsets i = some r →
    r + (s.blockLists i).length * d.numDisks = s.alloc.presentRemOffsets i

/-- What the issue of a batch promises: the `j`-th block of the buffer is written where a read looks for the place in
its tailer, its version is that of the batch, and the objects are whole. -/
structure Addressed (d : Disks) (w : Write β) : Prop where
  place : ∃ r, w.remOffset = some r ∧ ∀ j b, w.buffer[j]? = some b → b.tail.pres = r + j * d.numDisks ∧
    ∀ readLen writeLen, (convertRelToAbsRead d b.tail.pres readLen).objFd = (convertRelToAbsWrite d r writeLen).objFd ∧
      (convertRelToAbsRead d b.tail.pres readLen).offset = (convertRelToAbsWrite d r writeLen).offset + j * fileBlockSize
  version : ∀ b ∈ w.buffer, b.tail.version = w.version
  objects : w.buffer = w.responses.reverse.flatMap Placed.blocks
  data : ∀ p ∈ w.responses, p.blocks.map Block.data = p.response.allBlocks
  chain : ∀ p ∈ w.responses, ∀ j b b', p.blocks[j]? = some b → p.blocks[j + 1]? = some b' → b.tail.next = b'.tail.pres

theorem getElem?_pres {d : Disks} {bs : List (Block β)} {start j : Nat} {b : Block β}
    (hpres : bs.map (fun b => b.tail.pres) = Stripe.blocks d.numDisks start bs.length) (hj : bs[j]? = some b) :
    b.tail.pres = start + j * d.numDisks := by
  have hlt : j < bs.length := (List.getElem?_eq_some_iff.mp hj).1
  have hmap : (bs.map (fun b => b.tail.pres))[j]? = some b.tail.pres := by rw [List.getElem?_map, hj, Option.map_some]
  rw [hpres, Stripe.blocks, List.getElem?_map, List.getElem?_range hlt] at hmap
  exact (Option.some.inj hmap).symm

theorem Whole.chain {d : Disks} {version : Nat} {p : Placed β} (h : Whole d version p) {j : Nat} {b b' : Block β}
    (hb : p.blocks[j]? = some b) (hb' : p.blocks[j + 1]? = some b') : b.tail.next = b'.tail.pres := by
  rw [h.next b (List.mem_of_getElem? hb), getElem?_pres h.pres hb, getElem?_pres h.pres hb']
  ring

theorem Pending.addressed {d : Disks} {s : State β} {i : Nat} (h : Pending d s i) {r : Nat} (hr : s.totalBatchOffsets i = some r) :
    Addressed d ⟨s.totalBatchOffsets i, s.presentBatchVersion, s.blockLists i, s.presentResponseBatch i⟩ where
  place := by
    refine ⟨r, hr, fun j b hj => ?_⟩
    have hpres := getElem?_pres (h.pres r hr) hj
    refine ⟨hpres, fun readLen writeLen => ?_⟩
    rw [hpres]
    exact convert_row d r j readLen writeLen
  version := by
    intro b hb
    change b ∈ s.blockLists i at hb
    rw [h.objects] at hb
    obtain ⟨p, hp, hbp⟩ := List.mem_flatMap.mp hb
    exact (h.whole p (List.mem_reverse.mp hp)).version b hbp
  objects := h.objects
  data := fun p hp => (h.whole p hp).data
  chain := fun p hp _ _ _ hb hb' => (h.whole p hp).chain hb hb'

/-- The pass does not begin a new version of the log on a disk that has no place in the batch while another has. -/
def StartsAlone (d : Disks) (s : State β) : Event β → Prop
  | .form =>
      match s.globalWriteWaitList with
      | [] => True
      | thisBatch :: rest =>
          s.totalBlocksUsed + size (nextBatch d thisBatch rest).1 ≤ writeBufferSize d →
          Wraps d (beginAllocCycle d s.alloc) (size (nextBatch d thisBatch rest).1) →
          s.totalBatchOffsets (beginAllocCycle d s.alloc).presentDisk = none →
          ∀ i < d.numDisks, s.totalBatchOffsets i = none
  | _ => True

instance (d : Disks) (s : State β) (e : Event β) : Decidable (StartsAlone d s e) := by
  unfold StartsAlone
  split
  · split <;> infer_instance
  · infer_instance

structure Inv (d : Disks) (s : State β) : Prop where
  lanes : Lanes d s.alloc
  empty : ∀ i, s.totalBatchOffsets i = none → s.blockLists i = []
  outside : ∀ i, d.numDisks ≤ i → s.totalBatchOffsets i = none ∧ s.presentResponseBatch i = []
  pending : s.versionChange = false → ∀ i, Pending d s i
  issued : ∀ w ∈ s.issued, Addressed d w

section Form

variable {d : Disks} {s : State β} {thisBatch : RelOb β} {waiting : List (RelOb β)}

theorem formBatch_version :
    (formBatch d s thisBatch waiting).1.alloc.presentRemVersion =
      (rewind d (beginAllocCycle d s.alloc) (size thisBatch)).presentRemVersion :=
  getFromOneDisk_version ..

theorem formBatch_offset_other {i : Nat} (hother : i ≠ (beginAllocCycle d s.alloc).presentDisk) :
    (formBatch d s thisBatch waiting).1.totalBatchOffsets i = s.totalBatchOffsets i := by
  show (if _ then _ else _ : Nat → Option Nat) i = _
  split
  · exact update_of_ne hother ..
  · rfl

theorem formBatch_offset_turn :
    (formBatch d s thisBatch waiting).1.totalBatchOffsets (beginAllocCycle d s.alloc).presentDisk ≠ none := by
  show (if _ then _ else _ : Nat → Option Nat) _ ≠ none
  split
  · rw [getFromOneDisk_diskNum, update_self]
    exact Option.some_ne_none _
  · assumption

theorem formBatch_versionChange (h : (formBatch d s thisBatch waiting).1.versionChange = false) :
    s.versionChange = false ∧
      (formBatch d s thisBatch waiting).1.presentBatchVersion = (formBatch d s thisBatch waiting).1.alloc.presentRemVersion := by
  have hboth := Bool.or_eq_false_iff.mp h
  refine ⟨hboth.1, ?_⟩
  rw [formBatch_version]
  exact bne_eq_false_iff_eq.mp hboth.2

/-- If a disk has its place in the batch already, and there is no version change after the pass, then the pass stays in
the version of the batch. -/
theorem formBatch_same_version (hinv : Inv d s)
    (halone : Wraps d (beginAllocCycle d s.alloc) (size thisBatch) →
      s.totalBatchOffsets (beginAllocCycle d s.alloc).presentDisk = none → ∀ i, s.totalBatchOffsets i = none)
    (hafter : (formBatch d s thisBatch waiting).1.versionChange = false) {i r : Nat} (hr : s.totalBatchOffsets i = some r) :
    ¬Wraps d (beginAllocCycle d s.alloc) (size thisBatch) ∧
      (formBatch d s thisBatch waiting).1.presentBatchVersion = s.presentBatchVersion := by
  obtain ⟨hbefore, hversion⟩ := formBatch_versionChange hafter
  have hpending : s.presentBatchVersion = s.alloc.presentRemVersion := (hinv.pending hbefore i).version r hr
  by_cases hfresh : s.totalBatchOffsets (beginAllocCycle d s.alloc).presentDisk = none
  · have hwraps : ¬Wraps d (beginAllocCycle d s.alloc) (size thisBatch) := by
      intro hwraps
      rw [halone hwraps hfresh i] at hr
      cases hr
    refine ⟨hwraps, ?_⟩
    rw [hversion, formBatch_version, rewind_of_not_wraps _ _ _ hwraps, beginAllocCycle_version, hpending]
  · have hsame : (formBatch d s thisBatch waiting).1.presentBatchVersion = s.presentBatchVersion := if_neg hfresh
    refine ⟨fun hwraps => ?_, hsame⟩
    rw [hsame, hpending, formBatch_version, rewind_version_of_wraps _ _ _ hwraps, beginAllocCycle_version] at hversion
    omega

theorem formBatch_pending_other (hinv : Inv d s)
    (halone : Wraps d (beginAllocCycle d s.alloc) (size thisBatch) →
      s.totalBatchOffsets (beginAllocCycle d s.alloc).presentDisk = none → ∀ i, s.totalBatchOffsets i = none)
    (hafter : (formBatch d s thisBatch waiting).1.versionChange = false) {i : Nat}
    (hother : i ≠ (beginAllocCycle d s.alloc).presentDisk) : Pending d (formBatch d s thisBatch waiting).1 i := by
  have hbefore := hinv.pending (formBatch_versionChange hafter).1 i
  have hlist : (formBatch d s thisBatch waiting).1.blockLists i = s.blockLists i := update_of_ne hother ..
  have hresponses : (formBatch d s thisBatch waiting).1.presentResponseBatch i = s.presentResponseBatch i :=
    update_of_ne hother ..
  have hoffset : (formBatch d s thisBatch waiting).1.totalBatchOffsets i = s.totalBatchOffsets i := formBatch_offset_other hother
  have hcursor (hwraps : ¬Wraps d (beginAllocCycle d s.alloc) (size thisBatch)) :
      (formBatch d s thisBatch waiting).1.alloc.presentRemOffsets i = s.alloc.presentRemOffsets i := by
    show (getFromOneDisk d (beginAllocCycle d s.alloc) (size thisBatch)).2.presentRemOffsets i = _
    rw [getFromOneDisk_offsets, update_of_ne hother, rewind_of_not_wraps _ _ _ hwraps, beginAllocCycle_offsets]
  refine ⟨?_, fun p hp => ?_, fun r hr => ?_, fun r hr => ?_, fun r hr => ?_⟩
  · rw [hlist, hresponses]
    exact hbefore.objects
  · rw [hresponses] at hp
    cases hr : s.totalBatchOffsets i with
    | none =>
        have hnil : (s.presentResponseBatch i).reverse.flatMap Placed.blocks = [] := hbefore.objects ▸ hinv.empty i hr
        exact (hbefore.whole p hp).of_nil (List.flatMap_eq_nil_iff.mp hnil p (List.mem_reverse.mpr hp))
    | some r =>
        rw [(formBatch_same_version hinv halone hafter hr).2]
        exact hbefore.whole p hp
  · exact (formBatch_versionChange hafter).2
  · rw [hlist]
    exact hbefore.pres r (hoffset ▸ hr)
  · have hsame := formBatch_same_version hinv halone hafter (hoffset ▸ hr)
    rw [hlist, hcursor hsame.1]
    exact hbefore.cursor r (hoffset ▸ hr)

/-- What the disk whose turn it is had before lies from its place in the batch up to what it gets now. -/
theorem formBatch_contiguous (hinv : Inv d s)
    (halone : Wraps d (beginAllocCycle d s.alloc) (size thisBatch) →
      s.totalBatchOffsets (beginAllocCycle d s.alloc).presentDisk = none → ∀ i, s.totalBatchOffsets i = none)
    (hafter : (formBatch d s thisBatch waiting).1.versionChange = false) {r : Nat}
    (hr : (formBatch d s thisBatch waiting).1.totalBatchOffsets (beginAllocCycle d s.alloc).presentDisk = some r) :
    (getFromOneDisk d (beginAllocCycle d s.alloc) (size thisBatch)).1.start =
        r + (s.blockLists (beginAllocCycle d s.alloc).presentDisk).length * d.numDisks ∧
      (s.blockLists (beginAllocCycle d s.alloc).presentDisk).map (fun b => b.tail.pres) =
        Stripe.blocks d.numDisks r (s.blockLists (beginAllocCycle d s.alloc).presentDisk).length := by
  have hbefore := hinv.pending (formBatch_versionChange hafter).1 (beginAllocCycle d s.alloc).presentDisk
  cases hold : s.totalBatchOffsets (beginAllocCycle d s.alloc).presentDisk with
  | none =>
      have hnew : (formBatch d s thisBatch waiting).1.totalBatchOffsets =
          update s.totalBatchOffsets (beginAllocCycle d s.alloc).presentDisk
            (some (getFromOneDisk d (beginAllocCycle d s.alloc) (size thisBatch)).1.start) := if_pos hold
      rw [hnew, update_self] at hr
      rw [hinv.empty _ hold, Option.some.inj hr, List.length_nil, Nat.zero_mul, Nat.add_zero]
      exact ⟨rfl, rfl⟩
  | some r' =>
      have hkeep : (formBatch d s thisBatch waiting).1.totalBatchOffsets = s.totalBatchOffsets :=
        if_neg (by rw [getFromOneDisk_diskNum, hold]; exact Option.some_ne_none r')
      have hwraps := (formBatch_same_version hinv halone hafter hold).1
      rw [hkeep] at hr
      refine ⟨?_, hbefore.pres r hr⟩
      rw [getFromOneDisk_start, rewind_of_not_wraps _ _ _ hwraps, hbefore.cursor r hr, beginAllocCycle_offsets]

theorem formBatch_pending_turn (hinv : Inv d s)
    (halone : Wraps d (beginAllocCycle d s.alloc) (size thisBatch) →
      s.totalBatchOffsets (beginAllocCycle d s.alloc).presentDisk = none → ∀ i, s.totalBatchOffsets i = none)
    (hafter : (formBatch d s thisBatch waiting).1.versionChange = false) :
    Pending d (formBatch d s thisBatch waiting).1 (beginAllocCycle d s.alloc).presentDisk := by
  obtain ⟨hchange, hversion⟩ := formBatch_versionChange hafter
  have hbefore := hinv.pending hchange (beginAllocCycle d s.alloc).presentDisk
  have hcontiguous {r : Nat} := formBatch_contiguous (r := r) hinv halone hafter
  have hlist : (formBatch d s thisBatch waiting).1.blockLists (beginAllocCycle d s.alloc).presentDisk =
      s.blockLists (beginAllocCycle d s.alloc).presentDisk ++ (formBatch d s thisBatch waiting).2.flatMap Placed.blocks :=
    update_self ..
  have hresponses : (formBatch d s thisBatch waiting).1.presentResponseBatch (beginAllocCycle d s.alloc).presentDisk =
      (formBatch d s thisBatch waiting).2.reverse ++ s.presentResponseBatch (beginAllocCycle d s.alloc).presentDisk :=
    update_self ..
  have hlength : ((formBatch d s thisBatch waiting).2.flatMap Placed.blocks).length = size thisBatch := addressObjects_length ..
  refine ⟨?_, fun p hp => ?_, fun _ _ => hversion, fun r hr => ?_, fun r hr => ?_⟩
  · rw [hlist, hresponses, hbefore.objects, List.reverse_append, List.reverse_reverse, List.flatMap_append]
  · rw [hresponses] at hp
    rcases List.mem_append.mp hp with hnew | hold
    · rw [hversion, formBatch_version]
      exact whole_addressObjects (List.mem_reverse.mp hnew)
    · cases hr : s.totalBatchOffsets (beginAllocCycle d s.alloc).presentDisk with
      | none =>
          have hnil := hbefore.objects ▸ hinv.empty _ hr
          exact (hbefore.whole p hold).of_nil (List.flatMap_eq_nil_iff.mp hnil p (List.mem_reverse.mpr hold))
      | some r =>
          rw [(formBatch_same_version hinv halone hafter hr).2]
          exact hbefore.whole p hold
  · have hplaced : ((formBatch d s thisBatch waiting).2.flatMap Placed.blocks).map (fun b => b.tail.pres) =
        Stripe.blocks d.numDisks (getFromOneDisk d (beginAllocCycle d s.alloc) (size thisBatch)).1.start (size thisBatch) :=
      addressObjects_pres ..
    rw [hlist, List.map_append, List.length_append, Stripe.blocks_add, (hcontiguous hr).2, hplaced, (hcontiguous hr).1, hlength]
  · have hcursor : (formBatch d s thisBatch waiting).1.alloc.presentRemOffsets (beginAllocCycle d s.alloc).presentDisk =
        (getFromOneDisk d (beginAllocCycle d s.alloc) (size thisBatch)).1.start + size thisBatch * d.numDisks := by
      show (getFromOneDisk d (beginAllocCycle d s.alloc) (size thisBatch)).2.presentRemOffsets _ = _
      rw [getFromOneDisk_offsets, update_self, getFromOneDisk_start]
    rw [hcursor, (hcontiguous hr).1, hlist, List.length_append, hlength]
    ring

theorem Inv.formBatch (hinv : Inv d s)
    (halone : Wraps d (beginAllocCycle d s.alloc) (size thisBatch) →
      s.totalBatchOffsets (beginAllocCycle d s.alloc).presentDisk = none → ∀ i, s.totalBatchOffsets i = none) :
    Inv d (formBatch d s thisBatch waiting).1 where
  lanes := hinv.lanes.beginAllocCycle.getFromOneDisk _
  empty := by
    intro i hi
    have hother : i ≠ (beginAllocCycle d s.alloc).presentDisk := by
      rintro rfl
      exact formBatch_offset_turn hi
    rw [formBatch_offset_other hother] at hi
    exact (update_of_ne hother ..).trans (hinv.empty i hi)
  outside := by
    intro i hi
    have hother : i ≠ (beginAllocCycle d s.alloc).presentDisk := by
      have hturn := hinv.lanes.beginAllocCycle.turn
      omega
    rw [formBatch_offset_other hother]
    exact ⟨(hinv.outside i hi).1, (update_of_ne hother ..).trans (hinv.outside i hi).2⟩
  pending := by
    intro hafter i
    by_cases hturn : i = (beginAllocCycle d s.alloc).presentDisk
    · rw [hturn]
      exact formBatch_pending_turn hinv halone hafter
    · exact formBatch_pending_other hinv halone hafter hturn
  issued := hinv.issued

end Form

/-- The invariant says nothing about where the loop is, what waits for it, and which writes are under way. -/
theorem Inv.frame {d : Disks} {s : State β} (hinv : Inv d s) (stage : Stage) (waiting : List (RelOb β)) (ready : Bool) (lock : Nat) :
    Inv d { s with stage := stage, globalWriteWaitList := waiting, diskBatchesReady := ready, batchWriteLock := lock } where
  lanes := hinv.lanes
  empty := hinv.empty
  outside := hinv.outside
  pending := fun h i =>
    have hbefore := hinv.pending h i
    ⟨hbefore.objects, hbefore.whole, hbefore.version, hbefore.pres, hbefore.cursor⟩
  issued := hinv.issued

theorem Inv.formDiskBatches {d : Disks} {s : State β} (hinv : Inv d s) (halone : StartsAlone d s .form) :
    Inv d (formDiskBatches d s).1 := by
  unfold Batches.formDiskBatches
  unfold StartsAlone at halone
  split
  · exact hinv.frame _ _ _ _
  · rename_i thisBatch rest hlist
    rw [hlist] at halone
    simp only at halone ⊢
    split
    · exact hinv.frame _ _ _ _
    · rename_i hroom
      refine hinv.formBatch fun hwraps hfresh i => ?_
      by_cases hi : i < d.numDisks
      · exact halone (Nat.le_of_not_lt hroom) hwraps hfresh i hi
      · exact (hinv.outside i (Nat.le_of_not_lt hi)).1

theorem mem_batchWrites {d : Disks} {s : State β} {w : Write β} (hw : w ∈ batchWrites d s) :
    ∃ i < d.numDisks, s.blockLists i ≠ [] ∧
      w = ⟨s.totalBatchOffsets i, s.presentBatchVersion, s.blockLists i, s.presentResponseBatch i⟩ := by
  obtain ⟨i, hi, hsome⟩ := List.mem_filterMap.mp hw
  refine ⟨i, List.mem_range.mp hi, ?_⟩
  split at hsome
  · cases hsome
  · rename_i hne
    exact ⟨hne, (Option.some.inj hsome).symm⟩

theorem Inv.batchWrites {d : Disks} {s : State β} (hinv : Inv d s) (hchange : s.versionChange = false) {w : Write β}
    (hw : w ∈ batchWrites d s) : Addressed d w := by
  obtain ⟨i, _, hne, rfl⟩ := mem_batchWrites hw
  cases hr : s.totalBatchOffsets i with
  | none => exact absurd (hinv.empty i hr) hne
  | some r =>
      rw [← hr]
      exact (hinv.pending hchange i).addressed hr

/-- What is left of the responses of a disk: nothing, or objects without blocks. -/
theorem Inv.leftResponses {d : Disks} {s : State β} (hinv : Inv d s) (i : Nat) :
    leftResponses d s i = [] ∨
      s.versionChange = false ∧ s.blockLists i = [] ∧ leftResponses d s i = s.presentResponseBatch i := by
  unfold Batches.leftResponses
  by_cases hi : i < d.numDisks
  · by_cases htaken : s.versionChange = true ∨ s.blockLists i ≠ []
    · rw [if_pos ⟨hi, htaken⟩]
      exact .inl rfl
    · rw [if_neg fun h => htaken h.2]
      obtain ⟨hchange, hlist⟩ := not_or.mp htaken
      exact .inr ⟨Bool.not_eq_true _ ▸ hchange, not_not.mp hlist, rfl⟩
  · rw [if_neg fun h => hi h.1]
    exact .inl (hinv.outside i (Nat.le_of_not_lt hi)).2

/-- After the lists are written or dropped no disk has a place in the batch; objects without blocks may be left. -/
theorem Inv.checkBatchWritesNow {d : Disks} {s : State β} (hinv : Inv d s) (deadline : Bool) :
    Inv d (checkBatchWritesNow d s deadline) := by
  unfold Batches.checkBatchWritesNow
  split
  · have hnone (i : Nat) : (if i < d.numDisks then none else s.totalBatchOffsets i) = none := by
      split
      · rfl
      · rename_i hi
        exact (hinv.outside i (Nat.le_of_not_lt hi)).1
    have hnil (i : Nat) : (if i < d.numDisks then [] else s.blockLists i) = [] := by
      split
      · rfl
      · rename_i hi
        exact hinv.empty i (hinv.outside i (Nat.le_of_not_lt hi)).1
    refine ⟨hinv.lanes, fun i _ => hnil i, fun i hi => ⟨hnone i, ?_⟩, fun _ i => ⟨?_, fun p hp => ?_, ?_, ?_, ?_⟩,
      fun w hw => ?_⟩
    · rcases hinv.leftResponses i with hempty | ⟨_, _, hkeep⟩
      · exact hempty
      · exact hkeep.trans (hinv.outside i hi).2
    · refine (hnil i).trans (Eq.symm ?_)
      rcases hinv.leftResponses i with hempty | ⟨hchange, hlist, hkeep⟩
      · exact congrArg (fun l => l.reverse.flatMap Placed.blocks) hempty
      · exact (congrArg (fun l => l.reverse.flatMap Placed.blocks) hkeep).trans
          ((hinv.pending hchange i).objects.symm.trans hlist)
    · rcases hinv.leftResponses i with hempty | ⟨hchange, _, hkeep⟩
      · change p ∈ Batches.leftResponses d s i at hp
        rw [hempty] at hp
        exact absurd hp List.not_mem_nil
      · change p ∈ Batches.leftResponses d s i at hp
        rw [hkeep] at hp
        exact (hinv.pending hchange i).whole p hp
    · intro r hr
      exact absurd ((hnone i).symm.trans hr) (Option.some_ne_none r).symm
    · intro r hr
      exact absurd ((hnone i).symm.trans hr) (Option.some_ne_none r).symm
    · intro r hr
      exact absurd ((hnone i).symm.trans hr) (Option.some_ne_none r).symm
    · rcases List.mem_append.mp hw with hold | hnew
      · exact hinv.issued w hold
      · cases hchange : s.versionChange with
        | true =>
            rw [hchange] at hnew
            exact absurd hnew List.not_mem_nil
        | false =>
            rw [hchange] at hnew
            exact hinv.batchWrites hchange hnew
  · exact hinv.frame _ _ _ _

theorem inv_invariant (d : Disks) : ((batchSystem d).restrict (StartsAlone d)).Invariant (Inv (β := β) d) where
  init := by
    rintro s rfl
    refine ⟨lanes_init d, fun _ _ => rfl, fun _ _ => ⟨rfl, rfl⟩, fun _ i => ⟨rfl, ?_, ?_, ?_, ?_⟩, ?_⟩
    · exact fun p hp => absurd hp List.not_mem_nil
    · rintro r ⟨⟩
    · rintro r ⟨⟩
    · rintro r ⟨⟩
    · exact fun w hw => absurd hw List.not_mem_nil
  step := by
    rintro s e s' hinv ⟨halone, hstep⟩
    cases e with
    | arrive urls =>
        obtain ⟨_, rfl⟩ := stepIf_eq_ok hstep
        exact hinv.frame _ _ _ _
    | check =>
        obtain ⟨_, rfl⟩ := stepIf_eq_ok hstep
        exact hinv.frame _ _ _ _
    | form =>
        obtain ⟨_, rfl⟩ := stepIf_eq_ok hstep
        exact hinv.formDiskBatches halone
    | write deadline =>
        obtain ⟨_, rfl⟩ := stepIf_eq_ok hstep
        exact hinv.checkBatchWritesNow deadline
    | done =>
        obtain ⟨_, rfl⟩ := stepIf_eq_ok hstep
        exact hinv.frame _ _ _ _

/-- In a run in which no pass begins a new version on a disk without a place in the batch while another disk has one, all
requests that were issued are addressed as their blocks say. -/
theorem batches_addressed (d : Disks) (events : List (Event β)) (s : State β)
    (hrun : ((batchSystem d).restrict (StartsAlone d)).Runs events s) : ∀ w ∈ s.issued, Addressed d w :=
  ((inv_invariant d).holds hrun).issued

/-! ## Where the blocks of a batch go -/

theorem mem_update_append {lists : Nat → List (Block β)} {i k : Nat} {new : List (Block β)} {b : Block β} (hb : b ∈ lists i) :
    b ∈ update lists k (lists k ++ new) i := by
  by_cases hi : i = k
  · rw [hi, update_self]
    exact List.mem_append_left _ (hi ▸ hb)
  · rwa [update_of_ne hi]

/-- A pass of `formDiskBatches` adds the blocks of the objects it gives a place, and issues nothing. -/
theorem formDiskBatches_lists (d : Disks) (s : State β) :
    (∀ i b, b ∈ s.blockLists i → b ∈ (formDiskBatches d s).1.blockLists i) ∧ (formDiskBatches d s).1.issued = s.issued ∧
      ∀ p ∈ (formDiskBatches d s).2, (∃ version, Whole d version p) ∧
        ∃ i, ∀ b ∈ p.blocks, b ∈ (formDiskBatches d s).1.blockLists i := by
  unfold formDiskBatches
  split
  · exact ⟨fun _ _ hb => hb, rfl, fun p hp => absurd hp List.not_mem_nil⟩
  · rename_i thisBatch rest _
    simp only
    split
    · exact ⟨fun _ _ hb => hb, rfl, fun p hp => absurd hp List.not_mem_nil⟩
    · refine ⟨fun i b hb => mem_update_append hb, rfl, fun p hp => ⟨⟨_, whole_addressObjects hp⟩, ?_⟩⟩
      refine ⟨(beginAllocCycle d s.alloc).presentDisk, fun b hb => ?_⟩
      have hlist : (formBatch d s (nextBatch d thisBatch rest).1 (nextBatch d thisBatch rest).2).1.blockLists
            (beginAllocCycle d s.alloc).presentDisk =
          s.blockLists (beginAllocCycle d s.alloc).presentDisk ++
            (formBatch d s (nextBatch d thisBatch rest).1 (nextBatch d thisBatch rest).2).2.flatMap Placed.blocks :=
        update_self ..
      rw [hlist]
      exact List.mem_append_right _ (List.mem_flatMap.mpr ⟨p, hp, hb⟩)

/-- The version and the length an object of a batch gets: the length is what is left of the batch, this object included. -/
theorem addressObjects_fields {d : Disks} {e : Extent} {thisStart thisUsed : Nat} {urls : RelOb β}
    (hfit : thisUsed + size urls ≤ e.numBlocks) {p : Placed β} (hp : p ∈ addressObjects d e thisStart thisUsed urls) :
    p.version = e.version ∧ p.response.allBlocks.length ≤ p.length ∧ p.length ≤ e.numBlocks := by
  induction urls generalizing thisStart thisUsed with
  | nil => exact absurd hp List.not_mem_nil
  | cons r urls ih =>
      have hsize : size (r :: urls) = r.allBlocks.length + size urls := List.sum_cons
      rw [hsize] at hfit
      rcases List.mem_cons.mp hp with hfirst | hlater
      · rw [hfirst]
        exact ⟨rfl, by show r.allBlocks.length ≤ e.numBlocks - thisUsed; omega, Nat.sub_le ..⟩
      · exact ih (by omega) hlater

/-- An object is stored under the version the log has after the pass. -/
theorem formDiskBatches_fields {d : Disks} {s : State β} {p : Placed β} (hp : p ∈ (formDiskBatches d s).2) :
    p.version = (formDiskBatches d s).1.alloc.presentRemVersion ∧ p.response.allBlocks.length ≤ p.length ∧
      p.length ≤ writeBufferSize d := by
  unfold formDiskBatches at hp ⊢
  split at hp
  · exact absurd hp List.not_mem_nil
  · rename_i thisBatch rest _
    dsimp only at hp ⊢
    split at hp
    · exact absurd hp List.not_mem_nil
    · rename_i hroom
      rw [if_neg hroom]
      have hmem : p ∈ addressObjects d _ _ 0 (nextBatch d thisBatch rest).1 := hp
      have hfields := addressObjects_fields (Nat.zero_add _).le hmem
      refine ⟨hfields.1.trans (getFromOneDisk_version ..).symm, hfields.2.1, hfields.2.2.trans ?_⟩
      show size (nextBatch d thisBatch rest).1 ≤ writeBufferSize d
      omega

/-- `checkBatchWritesNow` takes the branch that drops the batch. -/
def Drops (s : State β) (deadline : Bool) : Prop :=
  ((s.diskBatchesReady || deadline) && s.batchWriteLock == 0) = true ∧ s.versionChange = true

instance (s : State β) (deadline : Bool) : Decidable (Drops s deadline) :=
  inferInstanceAs (Decidable (_ ∧ _))

/-- A block that waits for a write waits on, or goes into a request, or the batch is dropped. -/
theorem checkBatchWritesNow_lists {d : Disks} {s : State β} (hinv : Inv d s) (deadline : Bool) :
    ∃ writes, (checkBatchWritesNow d s deadline).issued = s.issued ++ writes ∧
      ∀ i b, b ∈ s.blockLists i → b ∈ (checkBatchWritesNow d s deadline).blockLists i ∨ (∃ w ∈ writes, b ∈ w.buffer) ∨
        Drops s deadline := by
  unfold checkBatchWritesNow
  split
  · rename_i hready
    refine ⟨_, rfl, fun i b hb => ?_⟩
    have hi : i < d.numDisks := by
      by_contra hout
      rw [hinv.empty i (hinv.outside i (Nat.le_of_not_lt hout)).1] at hb
      exact absurd hb List.not_mem_nil
    cases hchange : s.versionChange with
    | true => exact .inr (.inr ⟨hready, hchange⟩)
    | false =>
        refine .inr (.inl ⟨⟨s.totalBatchOffsets i, s.presentBatchVersion, s.blockLists i, s.presentResponseBatch i⟩, ?_, hb⟩)
        refine List.mem_filterMap.mpr ⟨i, List.mem_range.mpr hi, if_neg fun hnil => ?_⟩
        rw [hnil] at hb
        exact absurd hb List.not_mem_nil
  · exact ⟨[], (List.append_nil _).symm, fun _ _ hb => .inl hb⟩

/-- Two disks and 40 blocks. -/
def smallLog : Disks := .ofSize 2 40 (fun k => k) Nat.two_pos fun _ _ _ _ h => Int.ofNat.inj h

/-- An object of `n` blocks. -/
def sampleResponse (hash n : Nat) : Response Nat := ⟨hash, List.replicate n hash⟩

/-- Two objects fill most of both disks. -/
def fillEvents : List (Event Nat) :=
  [.arrive [sampleResponse 1 16], .arrive [sampleResponse 2 16], .check, .form, .form, .form, .write true, .done, .done]

/-- A small object still fits on disk 0, the next does not fit on disk 1, and the third goes to disk 0 again. -/
def wrapEvents : List (Event Nat) :=
  [.arrive [sampleResponse 3 1], .arrive [sampleResponse 4 16], .arrive [sampleResponse 5 1], .check, .form, .form, .form, .form,
    .write true]

theorem batches_addressed_fill : ∃ s, ((batchSystem smallLog).restrict (StartsAlone smallLog)).Runs fillEvents s ∧
    s.issued.length = 2 ∧ ∀ w ∈ s.issued, Addressed smallLog w := by
  obtain ⟨s, hfold, hissued⟩ := @exists_of_map _ _ _
    (fillEvents.foldlM (System.guarded (StartsAlone smallLog) (batchNext smallLog) .disabled) .init)
    (fun s => s.issued.length) 2 (by decide +kernel)
  have hstart : ((batchSystem smallLog).restrict (StartsAlone smallLog)).Runs [] (.init : State Nat) := .start rfl
  have hrun := System.runs_guarded hstart hfold
  exact ⟨s, hrun, hissued, batches_addressed smallLog fillEvents s hrun⟩

/-- The request for disk 0 is for block 32 and version 1; its first block says block 32 and version 0, its second block 0
and version 1. -/
theorem batches_misaddressed : ∃ s, (batchSystem smallLog).Runs (fillEvents ++ wrapEvents) s ∧
    ∃ w ∈ s.issued, w.remOffset = some 32 ∧ w.version = 1 ∧
      w.buffer.map (fun b => (b.tail.pres, b.tail.version)) = [(32, 0), (0, 1)] ∧ ¬Addressed smallLog w := by
  obtain ⟨s, hfold, hissued⟩ := @exists_of_map _ _ _ ((fillEvents ++ wrapEvents).foldlM (batchNext smallLog) .init)
    (fun s => (s.issued[2]?).map fun w => (w.remOffset, w.version, w.buffer.map fun b => (b.tail.pres, b.tail.version)))
    (some (some 32, 1, [(32, 0), (0, 1)])) (by decide +kernel)
  have hstart : (batchSystem smallLog).Runs [] (.init : State Nat) := .start rfl
  have hrun := System.runs_foldlM hstart hfold
  refine ⟨s, hrun, ?_⟩
  obtain ⟨w, hw, hfields⟩ := Option.map_eq_some_iff.mp hissued
  obtain ⟨hoffset, hfields⟩ := Prod.mk.inj hfields
  obtain ⟨hversion, hbuffer⟩ := Prod.mk.inj hfields
  refine ⟨w, List.mem_of_getElem? hw, hoffset, hversion, hbuffer, fun haddressed => ?_⟩
  obtain ⟨r, hr, hplace⟩ := haddressed.place
  have hsecond : (w.buffer.map fun b => (b.tail.pres, b.tail.version))[1]? = some (0, 1) := by rw [hbuffer]; rfl
  rw [List.getElem?_map] at hsecond
  obtain ⟨b, hb, hb'⟩ := Option.map_eq_some_iff.mp hsecond
  have hzero := (hplace 1 b hb).1
  rw [(Prod.mk.inj hb').1, Option.some.inj (hr.symm.trans hoffset)] at hzero
  cases hzero

end BeagleCache.Batches

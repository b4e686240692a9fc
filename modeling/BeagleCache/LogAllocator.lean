import Mathlib.Tactic
import BeagleCache.Stripe
import BeagleCache.Transition

/-! The log of HashCache's file system (hcfs.c, built with COMPLETE_LOG). Block `b` of the log is in the file of disk
`b % numDisks`. Blocks are given out at one cursor per disk; the disks take turns, and when a request does not fit
behind the cursor of the disk whose turn it is, all cursors go back to the start and a new version of the log
begins. -/

namespace BeagleCache.Hcfs

open Function

/-- `FILE_BLOCK_SIZE` -/
def fileBlockSize : Nat := 2048

/-- `ACTUAL_BLOCK_SIZE`: a block without its `blockHeader` and its `blockTailer`, which have 112 and 28 bytes in a build with `-m32`. -/
def actualBlockSize : Nat := fileBlockSize - 112 - 28

/-- `HTTP_ACT_BLOCK_SIZE` -/
def httpActBlockSize : Nat := 8192 / fileBlockSize * actualBlockSize

/-- `ADDL_HEAD_SIZE` -/
def addlHeadSize : Nat := 200

/-- `CYCLE_CHUNKS` -/
def cycleChunks : Nat := 16

/-- `THRESHOLD` -/
def threshold : Nat := 1000

/-- `FIRST_FILE_SIZE`: with COMPLETE_LOG there is no area in front of the log. -/
def firstFileSize : Nat := 0

/-- What `initHCFS` sets up once: the number of disks, the length of the log, which is rounded down to whole rows, and
the descriptors `open` gave for the log files. -/
structure Disks where
  numDisks : Nat
  remFileSize : Nat
  hcFds : Nat → Int
  numDisks_pos : 0 < numDisks
  numDisks_dvd : numDisks ∣ remFileSize
  hcFds_inj : ∀ i < numDisks, ∀ j < numDisks, hcFds i = hcFds j → i = j

/-- The log `initHCFS` makes of a cache of `cacheSize` blocks. -/
def Disks.ofSize (numDisks cacheSize : Nat) (hcFds : Nat → Int) (numDisks_pos : 0 < numDisks)
    (hcFds_inj : ∀ i < numDisks, ∀ j < numDisks, hcFds i = hcFds j → i = j) : Disks where
  numDisks := numDisks
  remFileSize := (cacheSize - firstFileSize) / numDisks * numDisks
  hcFds := hcFds
  numDisks_pos := numDisks_pos
  numDisks_dvd := Nat.dvd_mul_left _ _
  hcFds_inj := hcFds_inj

/-- `presentRemOffsets`, `presentRemVersion`, `presentDisk` and `allocStart` -/
structure Alloc where
  presentRemOffsets : Nat → Nat
  presentRemVersion : Nat
  presentDisk : Nat
  allocStart : Nat

/-- The number of blocks asked for, and what `getFromOneDisk` writes to its out parameters. -/
structure Extent where
  numBlocks : Nat
  start : Nat
  version : Nat
  diskNum : Nat
  leftInCycle : Nat
  deriving DecidableEq

/-- The cursors of `initHCFS`. -/
def initHCFS : Alloc := ⟨fun i => i, 0, 0, 0⟩

def whichRem (d : Disks) (remOffset : Nat) : Nat := if d.numDisks = 1 then 0 else remOffset % d.numDisks

/-- The request does not fit behind the cursor. -/
def Wraps (d : Disks) (a : Alloc) (numBlocks : Nat) : Prop :=
  d.remFileSize < a.presentRemOffsets a.presentDisk + numBlocks * d.numDisks

instance (d : Disks) (a : Alloc) (numBlocks : Nat) : Decidable (Wraps d a numBlocks) :=
  inferInstanceAs (Decidable (d.remFileSize < a.presentRemOffsets a.presentDisk + numBlocks * d.numDisks))

/-- The state `getFromOneDisk` takes the blocks from: a new version, with all cursors at the start, if they do not
fit. -/
def rewind (d : Disks) (a : Alloc) (numBlocks : Nat) : Alloc :=
  if Wraps d a numBlocks then
    { a with presentRemOffsets := fun i => firstFileSize + i, presentRemVersion := a.presentRemVersion + 1 }
  else a

/-- `presentDisk + 1`, and back to the first disk after the last. -/
def nextDisk (d : Disks) (disk : Nat) : Nat := if d.numDisks ≤ disk + 1 then 0 else disk + 1

def getFromOneDisk (d : Disks) (a : Alloc) (numBlocks : Nat) : Extent × Alloc :=
  let a₁ := rewind d a numBlocks
  let start := a₁.presentRemOffsets a.presentDisk
  let allocStart := a.allocStart + numBlocks
  let offsets := update a₁.presentRemOffsets a.presentDisk (start + numBlocks * d.numDisks)
  (⟨numBlocks, start, a₁.presentRemVersion, a.presentDisk, cycleChunks - allocStart⟩,
    if cycleChunks ≤ allocStart then ⟨offsets, a₁.presentRemVersion, nextDisk d a.presentDisk, 0⟩
    else ⟨offsets, a₁.presentRemVersion, a.presentDisk, allocStart⟩)

def beginAllocCycle (d : Disks) (a : Alloc) : Alloc :=
  if a.allocStart = 0 then a else { a with allocStart := 0, presentDisk := nextDisk d a.presentDisk }

/-- `checkVersion` returns 0. -/
def checkVersion (a : Alloc) (version offset : Int) : Prop :=
  version = a.presentRemVersion ∨ version = a.presentRemVersion - 1 ∧ a.presentRemOffsets 0 + threshold < offset

instance (a : Alloc) (version offset : Int) : Decidable (checkVersion a version offset) :=
  inferInstanceAs (Decidable (version = a.presentRemVersion ∨
    version = a.presentRemVersion - 1 ∧ a.presentRemOffsets 0 + threshold < offset))

/-- The check of a version and an offset of the log. -/
theorem checkVersion_natCast (a : Alloc) (version offset : Nat) :
    checkVersion a version offset ↔
      version = a.presentRemVersion ∨ version + 1 = a.presentRemVersion ∧ a.presentRemOffsets 0 + threshold < offset := by
  unfold checkVersion
  omega

structure AbsLocs where
  offset : Nat
  objFd : Int
  mapsize : Int
  remOffset : Nat
  deriving DecidableEq

/-- The first block of an object and the others are found the same way in a build with COMPLETE_LOG, where the hash and
the way are not read. -/
def convertRelToAbsRead (d : Disks) (remOffset : Nat) (readLen : Int) : AbsLocs :=
  let k := whichRem d remOffset
  ⟨(remOffset - k) / d.numDisks * fileBlockSize, d.hcFds k, readLen, remOffset⟩

def convertRelToAbsWrite (d : Disks) (remOffset : Nat) (writeLen : Int) : AbsLocs :=
  let mapsize := if writeLen = -1 then (fileBlockSize : Int) else writeLen
  let k := whichRem d remOffset
  let row := (remOffset - k) / d.numDisks
  ⟨row * fileBlockSize, d.hcFds k, mapsize, remOffset⟩

/-! ## Where a block is on disk -/

theorem whichRem_eq (d : Disks) (remOffset : Nat) : whichRem d remOffset = remOffset % d.numDisks := by
  unfold whichRem
  split
  · rename_i hone
    rw [hone, Nat.mod_one]
  · rfl

theorem whichRem_lt (d : Disks) (remOffset : Nat) : whichRem d remOffset < d.numDisks := by
  rw [whichRem_eq]
  exact Nat.mod_lt _ d.numDisks_pos

/-- Reads and writes look for a block at one place. -/
theorem convert_agree (d : Disks) (remOffset : Nat) (readLen writeLen : Int) :
    (convertRelToAbsRead d remOffset readLen).objFd = (convertRelToAbsWrite d remOffset writeLen).objFd ∧
      (convertRelToAbsRead d remOffset readLen).offset = (convertRelToAbsWrite d remOffset writeLen).offset := ⟨rfl, rfl⟩

theorem convert_injective (d : Disks) {x y : Nat} {len len' : Int}
    (hfd : (convertRelToAbsRead d x len).objFd = (convertRelToAbsRead d y len').objFd)
    (hoffset : (convertRelToAbsRead d x len).offset = (convertRelToAbsRead d y len').offset) : x = y := by
  have hdisk : whichRem d x = whichRem d y := d.hcFds_inj _ (whichRem_lt d x) _ (whichRem_lt d y) hfd
  have hrow : (x - whichRem d x) / d.numDisks = (y - whichRem d y) / d.numDisks :=
    Nat.eq_of_mul_eq_mul_right (show 0 < fileBlockSize by decide) hoffset
  rw [whichRem_eq, whichRem_eq] at hdisk hrow
  exact Stripe.eq_of_lane_row hdisk hrow

theorem convert_row (d : Disks) (remOffset j : Nat) (len len' : Int) :
    (convertRelToAbsRead d (remOffset + j * d.numDisks) len).objFd = (convertRelToAbsWrite d remOffset len').objFd ∧
      (convertRelToAbsRead d (remOffset + j * d.numDisks) len).offset =
        (convertRelToAbsWrite d remOffset len').offset + j * fileBlockSize := by
  have hlane : whichRem d (remOffset + j * d.numDisks) = whichRem d remOffset := by
    rw [whichRem_eq, whichRem_eq, Nat.add_mul_mod_self_right]
  have hle : whichRem d remOffset ≤ remOffset := by
    rw [whichRem_eq]
    exact Nat.mod_le _ _
  have hrow : (remOffset + j * d.numDisks - whichRem d remOffset) / d.numDisks = (remOffset - whichRem d remOffset) / d.numDisks + j := by
    rw [Nat.sub_add_comm hle, Nat.add_mul_div_right _ _ d.numDisks_pos]
  constructor
  · show d.hcFds (whichRem d (remOffset + j * d.numDisks)) = d.hcFds (whichRem d remOffset)
    rw [hlane]
  · show (remOffset + j * d.numDisks - whichRem d (remOffset + j * d.numDisks)) / d.numDisks * fileBlockSize = _
    rw [hlane, hrow, Nat.add_mul]
    rfl

/-! ## What an allocation does -/

section Step

variable (d : Disks) (a : Alloc) (n : Nat)

theorem nextDisk_lt (disk : Nat) : nextDisk d disk < d.numDisks := by
  unfold nextDisk
  have hpos := d.numDisks_pos
  split
  · exact hpos
  · omega

@[simp] theorem rewind_presentDisk : (rewind d a n).presentDisk = a.presentDisk := by
  unfold rewind
  split <;> rfl

theorem rewind_of_wraps (h : Wraps d a n) :
    rewind d a n = { a with presentRemOffsets := fun i => firstFileSize + i, presentRemVersion := a.presentRemVersion + 1 } :=
  if_pos h

theorem rewind_version_of_wraps (h : Wraps d a n) : (rewind d a n).presentRemVersion = a.presentRemVersion + 1 := by
  rw [rewind_of_wraps d a n h]

theorem rewind_of_not_wraps (h : ¬Wraps d a n) : rewind d a n = a := if_neg h

@[simp] theorem getFromOneDisk_start :
    (getFromOneDisk d a n).1.start = (rewind d a n).presentRemOffsets a.presentDisk := rfl

@[simp] theorem getFromOneDisk_numBlocks : (getFromOneDisk d a n).1.numBlocks = n := rfl

@[simp] theorem getFromOneDisk_extent_version :
    (getFromOneDisk d a n).1.version = (rewind d a n).presentRemVersion := rfl

@[simp] theorem getFromOneDisk_diskNum : (getFromOneDisk d a n).1.diskNum = a.presentDisk := rfl

@[simp] theorem getFromOneDisk_offsets :
    (getFromOneDisk d a n).2.presentRemOffsets =
      update (rewind d a n).presentRemOffsets a.presentDisk
        ((rewind d a n).presentRemOffsets a.presentDisk + n * d.numDisks) := by
  unfold getFromOneDisk
  simp only
  split <;> rfl

@[simp] theorem getFromOneDisk_version :
    (getFromOneDisk d a n).2.presentRemVersion = (rewind d a n).presentRemVersion := by
  unfold getFromOneDisk
  simp only
  split <;> rfl

theorem getFromOneDisk_presentDisk_lt (h : a.presentDisk < d.numDisks) :
    (getFromOneDisk d a n).2.presentDisk < d.numDisks := by
  unfold getFromOneDisk
  simp only
  split
  · exact nextDisk_lt d _
  · exact h

@[simp] theorem beginAllocCycle_offsets : (beginAllocCycle d a).presentRemOffsets = a.presentRemOffsets := by
  unfold beginAllocCycle
  split <;> rfl

@[simp] theorem beginAllocCycle_version : (beginAllocCycle d a).presentRemVersion = a.presentRemVersion := by
  unfold beginAllocCycle
  split <;> rfl

theorem beginAllocCycle_presentDisk_lt (h : a.presentDisk < d.numDisks) :
    (beginAllocCycle d a).presentDisk < d.numDisks := by
  unfold beginAllocCycle
  split
  · exact h
  · exact nextDisk_lt d _

end Step

/-- The turn is that of a disk there is, and every cursor is on a block of its own disk. -/
structure Lanes (d : Disks) (a : Alloc) : Prop where
  turn : a.presentDisk < d.numDisks
  lane : ∀ i < d.numDisks, a.presentRemOffsets i % d.numDisks = i

theorem lanes_init (d : Disks) : Lanes d initHCFS := ⟨d.numDisks_pos, fun _ hi => Nat.mod_eq_of_lt hi⟩

theorem Lanes.rewind {d : Disks} {a : Alloc} (h : Lanes d a) (n : Nat) : Lanes d (rewind d a n) := by
  by_cases hwraps : Wraps d a n
  · rw [rewind_of_wraps d a n hwraps]
    refine ⟨h.turn, fun i hi => ?_⟩
    show (0 + i) % d.numDisks = i
    rw [Nat.zero_add, Nat.mod_eq_of_lt hi]
  · rwa [rewind_of_not_wraps d a n hwraps]

theorem Lanes.getFromOneDisk {d : Disks} {a : Alloc} (h : Lanes d a) (n : Nat) : Lanes d (getFromOneDisk d a n).2 := by
  refine ⟨getFromOneDisk_presentDisk_lt d a n h.turn, fun i hi => ?_⟩
  rw [getFromOneDisk_offsets]
  by_cases hdisk : i = a.presentDisk
  · rw [hdisk, update_self, Nat.add_mul_mod_self_right]
    exact (h.rewind n).lane _ h.turn
  · rw [update_of_ne hdisk]
    exact (h.rewind n).lane i hi

theorem Lanes.beginAllocCycle {d : Disks} {a : Alloc} (h : Lanes d a) : Lanes d (beginAllocCycle d a) := by
  refine ⟨beginAllocCycle_presentDisk_lt d a h.turn, fun i hi => ?_⟩
  rw [beginAllocCycle_offsets]
  exact h.lane i hi

/-! ## Runs of the allocator -/

/-- The blocks of an allocation. -/
def Extent.blocks (d : Disks) (e : Extent) : List Nat := Stripe.blocks d.numDisks e.start e.numBlocks

inductive Call where
  | getFromOneDisk (numBlocks : Nat)
  | beginAllocCycle
  deriving DecidableEq

/-- The request leaves a row free, so that it fits in an empty log on every disk. -/
def Fits (d : Disks) : Call → Prop
  | .getFromOneDisk numBlocks => numBlocks * d.numDisks + d.numDisks ≤ d.remFileSize
  | .beginAllocCycle => True

instance (d : Disks) : DecidablePred (Fits d)
  | .getFromOneDisk numBlocks => inferInstanceAs (Decidable (numBlocks * d.numDisks + d.numDisks ≤ d.remFileSize))
  | .beginAllocCycle => inferInstanceAs (Decidable True)

/-- The allocator, and the allocations made so far in their order. -/
structure Trace where
  alloc : Alloc
  extents : List Extent

def Trace.call (d : Disks) (t : Trace) : Call → Trace
  | .getFromOneDisk numBlocks =>
      ⟨(getFromOneDisk d t.alloc numBlocks).2, t.extents ++ [(getFromOneDisk d t.alloc numBlocks).1]⟩
  | .beginAllocCycle => ⟨beginAllocCycle d t.alloc, t.extents⟩

/-- The allocator under any calls whose requests fit. -/
def logSystem (d : Disks) : Transition.System Trace Call where
  init := fun t => t = ⟨initHCFS, []⟩
  step := fun t c t' => Fits d c ∧ t' = t.call d c

theorem runs_calls {d : Disks} {calls : List Call} (hfits : ∀ c ∈ calls, Fits d c) :
    (logSystem d).Runs calls (calls.foldl (Trace.call d) ⟨initHCFS, []⟩) := by
  induction calls using List.reverseRecOn with
  | nil => exact .start rfl
  | append_singleton calls c ih =>
      rw [List.foldl_append]
      have hbefore := ih fun c' hc' => hfits c' (List.mem_append_left _ hc')
      exact hbefore.step ⟨hfits c (List.mem_append_right _ List.mem_cons_self), rfl⟩

/-- What is known of an allocation: it is in the log, on its disk, and below the cursor while its version lasts. -/
structure Placed (d : Disks) (a : Alloc) (e : Extent) : Prop where
  disk : e.diskNum < d.numDisks
  lane : e.start % d.numDisks = e.diskNum
  inside : e.start + e.numBlocks * d.numDisks ≤ d.remFileSize
  version : e.version ≤ a.presentRemVersion
  below : e.version = a.presentRemVersion → e.start + e.numBlocks * d.numDisks ≤ a.presentRemOffsets e.diskNum

/-- An earlier allocation has no block in common with a later one of the same version, which is not older. -/
def Apart (d : Disks) (e e' : Extent) : Prop :=
  e.version ≤ e'.version ∧ (e.version = e'.version → (e.blocks d).Disjoint (e'.blocks d))

structure Trace.Valid (d : Disks) (t : Trace) : Prop where
  lanes : Lanes d t.alloc
  placed : ∀ e ∈ t.extents, Placed d t.alloc e
  apart : t.extents.Pairwise (Apart d)

theorem Placed.rewind {d : Disks} {a : Alloc} {e : Extent} (h : Placed d a e) (n : Nat) : Placed d (rewind d a n) e := by
  by_cases hwraps : Wraps d a n
  · rw [rewind_of_wraps d a n hwraps]
    have hversion := h.version
    refine ⟨h.disk, h.lane, h.inside, Nat.le_succ_of_le hversion, fun heq => ?_⟩
    change e.version = a.presentRemVersion + 1 at heq
    omega
  · rwa [rewind_of_not_wraps d a n hwraps]

theorem le_getFromOneDisk_offsets (d : Disks) (a : Alloc) (n i : Nat) :
    (rewind d a n).presentRemOffsets i ≤ (getFromOneDisk d a n).2.presentRemOffsets i := by
  rw [getFromOneDisk_offsets]
  by_cases hdisk : i = a.presentDisk
  · rw [hdisk, update_self]
    exact Nat.le_add_right _ _
  · rw [update_of_ne hdisk]

theorem Placed.getFromOneDisk {d : Disks} {a : Alloc} {e : Extent} (h : Placed d a e) (n : Nat) :
    Placed d (getFromOneDisk d a n).2 e := by
  have hrewind := h.rewind n
  refine ⟨h.disk, h.lane, h.inside, ?_, fun heq => ?_⟩
  · rw [getFromOneDisk_version]
    exact hrewind.version
  · rw [getFromOneDisk_version] at heq
    exact (hrewind.below heq).trans (le_getFromOneDisk_offsets d a n _)

theorem Placed.beginAllocCycle {d : Disks} {a : Alloc} {e : Extent} (h : Placed d a e) :
    Placed d (beginAllocCycle d a) e := by
  refine ⟨h.disk, h.lane, h.inside, ?_, ?_⟩
  · rw [beginAllocCycle_version]
    exact h.version
  · rw [beginAllocCycle_version, beginAllocCycle_offsets]
    exact h.below

/-- The blocks given out end inside the log: they fit behind the cursor, or they are the first of an empty log. -/
theorem rewind_inside {d : Disks} {a : Alloc} {n : Nat} (hlanes : Lanes d a) (hfits : Fits d (.getFromOneDisk n)) :
    (rewind d a n).presentRemOffsets a.presentDisk + n * d.numDisks ≤ d.remFileSize := by
  by_cases hwraps : Wraps d a n
  · rw [rewind_of_wraps d a n hwraps]
    have hturn := hlanes.turn
    change n * d.numDisks + d.numDisks ≤ d.remFileSize at hfits
    show 0 + a.presentDisk + n * d.numDisks ≤ d.remFileSize
    omega
  · rw [rewind_of_not_wraps d a n hwraps]
    exact Nat.le_of_not_lt hwraps

theorem placed_getFromOneDisk {d : Disks} {a : Alloc} {n : Nat} (hlanes : Lanes d a) (hfits : Fits d (.getFromOneDisk n)) :
    Placed d (getFromOneDisk d a n).2 (getFromOneDisk d a n).1 where
  disk := hlanes.turn
  lane := (hlanes.rewind n).lane _ hlanes.turn
  inside := rewind_inside hlanes hfits
  version := by rw [getFromOneDisk_version, getFromOneDisk_extent_version]
  below := by
    intro _
    rw [getFromOneDisk_offsets, getFromOneDisk_diskNum, update_self]
    rfl

/-- What is given out lies behind everything given out before in this version on the disk. -/
theorem apart_getFromOneDisk {d : Disks} {a : Alloc} {e : Extent} (hlanes : Lanes d a) (h : Placed d a e) (n : Nat) :
    Apart d e (getFromOneDisk d a n).1 := by
  have hrewind := h.rewind n
  refine ⟨hrewind.version, fun heq => ?_⟩
  by_cases hdisk : e.diskNum = a.presentDisk
  · apply Stripe.disjoint_of_le d.numDisks_pos
    rw [getFromOneDisk_start, ← hdisk]
    exact hrewind.below heq
  · apply Stripe.disjoint_of_lane
    rw [h.lane, getFromOneDisk_start, (hlanes.rewind n).lane _ hlanes.turn]
    exact hdisk

theorem valid_invariant (d : Disks) : (logSystem d).Invariant (Trace.Valid d) where
  init := by
    rintro t rfl
    exact ⟨lanes_init d, fun e he => absurd he List.not_mem_nil, .nil⟩
  step := by
    rintro t c t' h ⟨hfits, rfl⟩
    cases c with
    | getFromOneDisk n =>
        refine ⟨h.lanes.getFromOneDisk n, fun e he => ?_, List.pairwise_append.mpr ⟨h.apart, List.pairwise_singleton _ _, ?_⟩⟩
        · rcases List.mem_append.mp he with hold | hnew
          · exact (h.placed e hold).getFromOneDisk n
          · rw [List.mem_singleton.mp hnew]
            exact placed_getFromOneDisk h.lanes hfits
        · intro e he e' he'
          rw [List.mem_singleton.mp he']
          exact apart_getFromOneDisk h.lanes (h.placed e he) n
    | beginAllocCycle => exact ⟨h.lanes.beginAllocCycle, fun e he => (h.placed e he).beginAllocCycle, h.apart⟩

/-- The number of blocks a call asks for. -/
def Call.asked : Call → Option Nat
  | .getFromOneDisk numBlocks => some numBlocks
  | .beginAllocCycle => none

theorem runs_eq {d : Disks} {calls : List Call} {t : Trace} (hrun : (logSystem d).Runs calls t) :
    t = calls.foldl (Trace.call d) ⟨initHCFS, []⟩ := by
  induction hrun with
  | start hinit => exact hinit
  | step _ hstep ih =>
      rw [List.foldl_append, ← ih]
      exact hstep.2

theorem extents_asked (d : Disks) (calls : List Call) (t : Trace) :
    (calls.foldl (Trace.call d) t).extents.map Extent.numBlocks = t.extents.map Extent.numBlocks ++ calls.filterMap Call.asked := by
  induction calls generalizing t with
  | nil => exact (List.append_nil _).symm
  | cons c calls ih =>
      rw [List.foldl_cons, ih]
      cases c with
      | getFromOneDisk n => simp only [Trace.call, Call.asked, List.map_append, List.map_singleton, getFromOneDisk_numBlocks,
          List.filterMap_cons, List.append_assoc, List.singleton_append]
      | beginAllocCycle => rfl

theorem extents_prefix (d : Disks) (calls : List Call) (t : Trace) : t.extents <+: (calls.foldl (Trace.call d) t).extents := by
  induction calls generalizing t with
  | nil => exact List.prefix_rfl
  | cons c calls ih =>
      refine List.IsPrefix.trans ?_ (ih (t.call d c))
      cases c with
      | getFromOneDisk n => exact List.prefix_append _ _
      | beginAllocCycle => exact List.prefix_rfl

theorem extents_getElem? (d : Disks) (before after : List Call) (n : Nat) :
    ((before ++ .getFromOneDisk n :: after).foldl (Trace.call d) ⟨initHCFS, []⟩).extents[(before.filterMap Call.asked).length]? =
      some (getFromOneDisk d (before.foldl (Trace.call d) ⟨initHCFS, []⟩).alloc n).1 := by
  have hcount := congrArg List.length (extents_asked d before ⟨initHCFS, []⟩)
  rw [List.map_nil, List.nil_append, List.length_map] at hcount
  rw [List.foldl_append, List.foldl_cons]
  generalize before.foldl (Trace.call d) ⟨initHCFS, []⟩ = t at hcount ⊢
  obtain ⟨later, hlater⟩ := extents_prefix d after (t.call d (.getFromOneDisk n))
  rw [← hlater, ← hcount, Trace.call, List.append_assoc, List.getElem?_append_right le_rfl, Nat.sub_self]
  rfl

/-- The allocations are those of the calls, of the sizes asked for. An allocation is on one disk and inside the log, allocations of
one version have no block in common, versions only grow, and a block of the log has one place on disk that is its own. -/
theorem log_allocator (d : Disks) (calls : List Call) (t : Trace) (hrun : (logSystem d).Runs calls t) :
    t.extents.map Extent.numBlocks = calls.filterMap Call.asked ∧
      (∀ before n after, calls = before ++ .getFromOneDisk n :: after → t.extents[(before.filterMap Call.asked).length]? =
        some (getFromOneDisk d (before.foldl (Trace.call d) ⟨initHCFS, []⟩).alloc n).1) ∧
      (∀ e ∈ t.extents, e.start ≡ e.diskNum [MOD d.numDisks] ∧ e.diskNum < d.numDisks ∧
        ∀ j < e.numBlocks, whichRem d (e.start + j * d.numDisks) = e.diskNum ∧
          firstFileSize ≤ e.start + j * d.numDisks ∧ e.start + j * d.numDisks < d.remFileSize) ∧
      t.extents.Pairwise (fun e e' => e.version = e'.version → (e.blocks d).Disjoint (e'.blocks d)) ∧
      t.extents.Pairwise (fun e e' => e.version ≤ e'.version) ∧
      (∀ b readLen writeLen, (convertRelToAbsRead d b readLen).objFd = (convertRelToAbsWrite d b writeLen).objFd ∧
        (convertRelToAbsRead d b readLen).offset = (convertRelToAbsWrite d b writeLen).offset) ∧
      ∀ b b' len len', (convertRelToAbsRead d b len).objFd = (convertRelToAbsRead d b' len').objFd →
        (convertRelToAbsRead d b len).offset = (convertRelToAbsRead d b' len').offset → b = b' := by
  have hvalid := (valid_invariant d).holds hrun
  have heq := runs_eq hrun
  refine ⟨?_, ?_, fun e he => ?_, hvalid.apart.imp And.right, hvalid.apart.imp And.left, convert_agree d,
    fun b b' len len' => convert_injective d⟩
  · rw [heq]
    exact extents_asked d calls _
  · rintro before n after rfl
    rw [heq]
    exact extents_getElem? d before after n
  have hplaced := hvalid.placed e he
  refine ⟨?_, hplaced.disk, fun j hj => ⟨?_, Nat.zero_le _, ?_⟩⟩
  · show e.start % d.numDisks = e.diskNum % d.numDisks
    rw [hplaced.lane, Nat.mod_eq_of_lt hplaced.disk]
  · rw [whichRem_eq, Nat.add_mul_mod_self_right, hplaced.lane]
  · have hmem : e.start + j * d.numDisks ∈ e.blocks d := Stripe.mem_blocks.mpr ⟨j, hj, rfl⟩
    exact (Stripe.lt_of_mem d.numDisks_pos hmem).trans_le hplaced.inside

/-- Two disks and 4000 blocks. -/
def twoDisks : Disks := .ofSize 2 4000 (fun k => k) Nat.two_pos fun _ _ _ _ h => Int.ofNat.inj h

/-- Small objects go to disk 0 and large ones to disk 1, until disk 1 is full. -/
def unevenCalls : List Call :=
  [.getFromOneDisk 1, .beginAllocCycle, .getFromOneDisk 800, .getFromOneDisk 1, .beginAllocCycle, .getFromOneDisk 10,
    .beginAllocCycle, .getFromOneDisk 1, .beginAllocCycle, .getFromOneDisk 1024, .getFromOneDisk 1, .beginAllocCycle,
    .getFromOneDisk 1024]

def unevenTrace : Trace := unevenCalls.foldl (Trace.call twoDisks) ⟨initHCFS, []⟩

theorem runs_uneven : (logSystem twoDisks).Runs unevenCalls unevenTrace := runs_calls (by decide)

theorem log_allocator_uneven : unevenTrace.extents.map Extent.numBlocks = [1, 800, 1, 10, 1, 1024, 1, 1024] ∧
    unevenTrace.extents.Pairwise (fun e e' => e.version = e'.version → (e.blocks twoDisks).Disjoint (e'.blocks twoDisks)) := by
  obtain ⟨hasked, -, -, hdisjoint, -⟩ := log_allocator twoDisks unevenCalls unevenTrace runs_uneven
  exact ⟨hasked, hdisjoint⟩

/-! ## What `checkVersion` promises -/

/-- The first block of an allocation that passes the check was not given out again. -/
def Sound (d : Disks) (t : Trace) : Prop :=
  t.extents.Pairwise fun e e' => 0 < e.numBlocks → checkVersion t.alloc e.version e.start → e.start ∉ e'.blocks d

/-- The step does not give out, on a disk other than the first and more than `threshold` above the cursor of the first,
a block at which an allocation of the version before starts. -/
def Spares (d : Disks) (t : Trace) : Call → Prop
  | .getFromOneDisk n =>
      t.alloc.presentDisk ≠ 0 → ∀ e ∈ t.extents, 0 < e.numBlocks →
        e.version + 1 = (rewind d t.alloc n).presentRemVersion →
        (rewind d t.alloc n).presentRemOffsets 0 + threshold < e.start →
        e.start ∉ Stripe.blocks d.numDisks ((rewind d t.alloc n).presentRemOffsets t.alloc.presentDisk) n
  | .beginAllocCycle => True

instance (d : Disks) (t : Trace) : DecidablePred (Spares d t)
  | .getFromOneDisk n => inferInstanceAs (Decidable (t.alloc.presentDisk ≠ 0 → ∀ e ∈ t.extents, 0 < e.numBlocks →
      e.version + 1 = (rewind d t.alloc n).presentRemVersion → (rewind d t.alloc n).presentRemOffsets 0 + threshold < e.start →
      e.start ∉ Stripe.blocks d.numDisks ((rewind d t.alloc n).presentRemOffsets t.alloc.presentDisk) n))
  | .beginAllocCycle => inferInstanceAs (Decidable True)

/-- An allocation that passes the check after a step passed it before, unless the step began the version after its
own. -/
theorem checkVersion_of_getFromOneDisk {d : Disks} {a : Alloc} {e : Extent} {n : Nat} (hplaced : Placed d a e)
    (hcheck : checkVersion (getFromOneDisk d a n).2 e.version e.start) :
    checkVersion a e.version e.start ∨ e.version = a.presentRemVersion ∧ Wraps d a n := by
  have hle := le_getFromOneDisk_offsets d a n 0
  rw [checkVersion_natCast, getFromOneDisk_version] at hcheck
  rw [checkVersion_natCast]
  by_cases hwraps : Wraps d a n
  · have hversion := hplaced.version
    rw [rewind_of_wraps d a n hwraps] at hcheck
    rcases hcheck with hsame | ⟨hbefore, _⟩
    · change e.version = a.presentRemVersion + 1 at hsame
      omega
    · exact .inr ⟨Nat.succ.inj hbefore, hwraps⟩
  · rw [rewind_of_not_wraps d a n hwraps] at hcheck hle
    exact .inl (hcheck.imp_right (And.imp_right fun hahead => by omega))

/-- What a step that spares gives out is not the first block of an allocation that passes the check. -/
theorem not_mem_getFromOneDisk {d : Disks} {t : Trace} {e : Extent} {n : Nat} (hvalid : t.Valid d)
    (hspares : Spares d t (.getFromOneDisk n)) (he : e ∈ t.extents) (hpos : 0 < e.numBlocks)
    (hcheck : checkVersion (getFromOneDisk d t.alloc n).2 e.version e.start) :
    e.start ∉ (getFromOneDisk d t.alloc n).1.blocks d := by
  have hplaced := hvalid.placed e he
  rw [checkVersion_natCast, getFromOneDisk_version] at hcheck
  rcases hcheck with hsame | ⟨hbefore, hahead⟩
  · intro hmem
    have hfirst : e.start ∈ e.blocks d := Stripe.mem_blocks.mpr ⟨0, hpos, by rw [Nat.zero_mul, Nat.add_zero]⟩
    exact (apart_getFromOneDisk hvalid.lanes hplaced n).2 hsame hfirst hmem
  · rw [getFromOneDisk_offsets] at hahead
    by_cases hdisk : t.alloc.presentDisk = 0
    · -- all that the first disk gives out is below its cursor
      intro hmem
      have hbelow := Stripe.lt_of_mem d.numDisks_pos hmem
      rw [hdisk, update_self] at hahead
      rw [getFromOneDisk_start, hdisk, getFromOneDisk_numBlocks] at hbelow
      omega
    · rw [update_of_ne (Ne.symm hdisk)] at hahead
      exact hspares hdisk e he hpos hbefore hahead

theorem sound_invariant (d : Disks) : ((logSystem d).restrict (Spares d)).Invariant fun t => t.Valid d ∧ Sound d t where
  init := by
    rintro t rfl
    exact ⟨(valid_invariant d).init _ rfl, .nil⟩
  step := by
    rintro t c t' ⟨hvalid, hsound⟩ ⟨hspares, hstep⟩
    refine ⟨(valid_invariant d).step _ _ _ hvalid hstep, ?_⟩
    obtain ⟨_, rfl⟩ := hstep
    cases c with
    | getFromOneDisk n =>
        refine List.pairwise_append.mpr ⟨?_, List.pairwise_singleton _ _, fun e he e' he' hpos hcheck => ?_⟩
        · refine (hsound.and hvalid.apart).imp_of_mem fun {e e'} he he' hboth hpos hcheck => ?_
          rcases checkVersion_of_getFromOneDisk (hvalid.placed e he) hcheck with hold | ⟨hversion, _⟩
          · exact hboth.1 hpos hold
          · -- both are of the version that just ended
            have hsame : e.version = e'.version := Nat.le_antisymm hboth.2.1 (hversion ▸ (hvalid.placed e' he').version)
            have hfirst : e.start ∈ e.blocks d := Stripe.mem_blocks.mpr ⟨0, hpos, by rw [Nat.zero_mul, Nat.add_zero]⟩
            exact hboth.2.2 hsame hfirst
        · rw [List.mem_singleton.mp he']
          exact not_mem_getFromOneDisk hvalid hspares he hpos hcheck
    | beginAllocCycle =>
        refine hsound.imp fun {e e'} h hpos hcheck => h hpos ?_
        change checkVersion (beginAllocCycle d t.alloc) e.version e.start at hcheck
        rwa [checkVersion, beginAllocCycle_version, beginAllocCycle_offsets] at hcheck

/-- A step that does not spare leaves an allocation that passes the check although its first block is in another one. -/
theorem spares_of_sound {d : Disks} {t t' : Trace} {c : Call} (hstep : (logSystem d).step t c t') (hsound : Sound d t') :
    Spares d t c := by
  obtain ⟨_, rfl⟩ := hstep
  cases c with
  | getFromOneDisk n =>
      intro hdisk e he hpos hbefore hahead
      refine (List.pairwise_append.mp hsound).2.2 e he _ List.mem_cons_self hpos ?_
      refine (checkVersion_natCast _ _ _).mpr (.inr ⟨?_, ?_⟩)
      · show e.version + 1 = (getFromOneDisk d t.alloc n).2.presentRemVersion
        rw [getFromOneDisk_version]
        exact hbefore
      · show (getFromOneDisk d t.alloc n).2.presentRemOffsets 0 + threshold < e.start
        rw [getFromOneDisk_offsets, update_of_ne (Ne.symm hdisk)]
        exact hahead
  | beginAllocCycle => trivial

/-- The check can be trusted in every state of a run exactly if every step of the run spares. -/
theorem checkVersion_sound_iff (d : Disks) (calls : List Call) (t : Trace) (hrun : (logSystem d).Runs calls t) :
    (∀ before s, before <+: calls → (logSystem d).Runs before s → Sound d s) ↔
      ((logSystem d).restrict (Spares d)).Runs calls t := by
  refine hrun.forall_prefix_iff ?_ ?_ ?_ ?_
  · intro s s' hs hs'
    exact hs.trans hs'.symm
  · rintro s c s₁ s₂ ⟨_, h₁⟩ ⟨_, h₂⟩
    exact h₁.trans h₂.symm
  · intro labels s hspared
    exact ((sound_invariant d).holds hspared).2
  · intro labels s c s' _ hstep hsound
    exact spares_of_sound hstep hsound

/-- Large objects, the third of which begins a new version. -/
def evenCalls : List Call := [.getFromOneDisk 1024, .getFromOneDisk 1024, .getFromOneDisk 1024, .getFromOneDisk 100]

/-- In one run every step spares, in the other one the last step does not. -/
theorem checkVersion_sound_iff_uneven :
    (∀ before s, before <+: evenCalls → (logSystem twoDisks).Runs before s → Sound twoDisks s) ∧
    ((∀ before s, before <+: unevenCalls → (logSystem twoDisks).Runs before s → Sound twoDisks s) ↔
      ((logSystem twoDisks).restrict (Spares twoDisks)).Runs unevenCalls unevenTrace) := by
  have hstep : ∀ t c, Spares twoDisks t c → Fits twoDisks c →
      ((logSystem twoDisks).restrict (Spares twoDisks)).step t c (t.call twoDisks c) := fun t c hspares hfits => ⟨hspares, hfits, rfl⟩
  have hinit : ((logSystem twoDisks).restrict (Spares twoDisks)).Runs [] ⟨initHCFS, []⟩ := .start rfl
  have hfirst := hinit.step (hstep _ (.getFromOneDisk 1024) (by decide) (by decide))
  have hsecond := hfirst.step (hstep _ (.getFromOneDisk 1024) (by decide) (by decide))
  have hthird := hsecond.step (hstep _ (.getFromOneDisk 1024) (by decide) (by decide))
  have hspared : ((logSystem twoDisks).restrict (Spares twoDisks)).Runs evenCalls
      (evenCalls.foldl (Trace.call twoDisks) ⟨initHCFS, []⟩) :=
    hthird.step (hstep _ (.getFromOneDisk 100) (by decide) (by decide))
  exact ⟨(checkVersion_sound_iff twoDisks evenCalls _ hspared.of_restrict).mpr hspared,
    checkVersion_sound_iff twoDisks unevenCalls unevenTrace runs_uneven⟩

/-- Block 1601 of the first version passes the check and is given out again: the new version is at block 2049 on disk 1
while it is still at the start of disk 0. -/
theorem checkVersion_unsound : (logSystem twoDisks).Runs unevenCalls unevenTrace ∧ ¬Sound twoDisks unevenTrace := by
  refine ⟨runs_uneven, ?_⟩
  unfold Sound
  decide +kernel

end BeagleCache.Hcfs

import Mathlib.Tactic
import BeagleCache.LogStore

/-! What the index says about the log. A slot is filled while the batch of its object is formed, long before the blocks are
on a disk, and `checkVersion` is all a reader asks. A slot it passes leads to the first block of its object as long as the
log begins a new version only with empty batches, and no pass takes a block that a slot of the preceding version names. -/

namespace BeagleCache.Store

open Hcfs Batches Transition Function

variable {β : Type}

/-! ## What a pass takes -/

section Pass

variable {d : Disks} {s : Batches.State β} {thisBatch : RelOb β} {waiting : List (RelOb β)}

/-- What `getFromOneDisk` does for a batch. -/
def passGot (d : Disks) (a : Alloc) (thisBatch : RelOb β) : Extent × Alloc := getFromOneDisk d (beginAllocCycle d a) (size thisBatch)

/-- The log begins a new version only when no disk has a place in the batch. -/
def WrapsEmpty (d : Disks) (s : Batches.State β) (thisBatch : RelOb β) : Prop :=
  Wraps d (beginAllocCycle d s.alloc) (size thisBatch) → ∀ i < d.numDisks, s.totalBatchOffsets i = none

theorem passGot_of_wraps {a : Alloc} (hwraps : Wraps d (beginAllocCycle d a) (size thisBatch)) :
    (passGot d a thisBatch).2.presentRemVersion = a.presentRemVersion + 1 := by
  rw [passGot, getFromOneDisk_version, rewind_version_of_wraps _ _ _ hwraps, beginAllocCycle_version]

theorem passGot_of_not_wraps {a : Alloc} (hwraps : ¬Wraps d (beginAllocCycle d a) (size thisBatch)) :
    (passGot d a thisBatch).2.presentRemVersion = a.presentRemVersion ∧
      (passGot d a thisBatch).1.start = a.presentRemOffsets (passGot d a thisBatch).1.diskNum ∧
      ∀ i, a.presentRemOffsets i ≤ (passGot d a thisBatch).2.presentRemOffsets i := by
  unfold passGot
  rw [getFromOneDisk_version, getFromOneDisk_start, getFromOneDisk_diskNum, getFromOneDisk_offsets,
    rewind_of_not_wraps _ _ _ hwraps, beginAllocCycle_version, beginAllocCycle_offsets]
  refine ⟨rfl, rfl, fun i => ?_⟩
  by_cases hi : i = (beginAllocCycle d a).presentDisk
  · rw [hi, update_self]
    exact Nat.le_add_right _ _
  · rw [update_of_ne hi]

theorem passGot_cursor (a : Alloc) :
    (passGot d a thisBatch).2.presentRemOffsets (passGot d a thisBatch).1.diskNum =
      (passGot d a thisBatch).1.start + (passGot d a thisBatch).1.numBlocks * d.numDisks := by
  unfold passGot
  rw [getFromOneDisk_offsets, getFromOneDisk_diskNum, update_self, getFromOneDisk_start, getFromOneDisk_numBlocks]

theorem passGot_lane (hinv : Batches.Inv d s) : (passGot d s.alloc thisBatch).1.start % d.numDisks =
    (passGot d s.alloc thisBatch).1.diskNum := by
  have hlanes := hinv.lanes.beginAllocCycle
  exact (hlanes.rewind _).lane _ hlanes.turn

theorem below_of_waiting (hinv : Batches.Inv d s) (hsteady : s.versionChange = false) {i : Nat} {b : Block β} (hb : b ∈ s.blockLists i) :
    b.tail.pres % d.numDisks = i ∧ b.tail.pres < s.alloc.presentRemOffsets i := by
  have hpending := hinv.pending hsteady i
  cases hr : s.totalBatchOffsets i with
  | none =>
      rw [hinv.empty i hr] at hb
      exact absurd hb List.not_mem_nil
  | some r =>
      have hi : i < d.numDisks := by
        by_contra hout
        rw [(hinv.outside i (Nat.le_of_not_lt hout)).1] at hr
        cases hr
      have hmem : b.tail.pres ∈ Stripe.blocks d.numDisks r (s.blockLists i).length :=
        hpending.pres r hr ▸ List.mem_map_of_mem hb
      constructor
      · calc b.tail.pres % d.numDisks = r % d.numDisks := Stripe.mod_of_mem hmem
          _ = (r + (s.blockLists i).length * d.numDisks) % d.numDisks := (Nat.add_mul_mod_self_right ..).symm
          _ = i := by rw [hpending.cursor r hr, hinv.lanes.lane i hi]
      · rw [← hpending.cursor r hr]
        exact Stripe.lt_of_mem d.numDisks_pos hmem

theorem addressObjects_version {e : Extent} {thisStart thisUsed : Nat} {urls : RelOb β} {p : Placed β}
    (hp : p ∈ addressObjects d e thisStart thisUsed urls) : p.version = e.version := by
  induction urls generalizing thisStart thisUsed with
  | nil => exact absurd hp List.not_mem_nil
  | cons r urls ih =>
      rcases List.mem_cons.mp hp with hfirst | hlater
      · rw [hfirst]
      · exact ih hlater

theorem formBatch_pres (waiting : List (RelOb β)) : ((formBatch d s thisBatch waiting).2.flatMap Placed.blocks).map (fun b => b.tail.pres) =
    (passGot d s.alloc thisBatch).1.blocks d := addressObjects_pres ..

theorem formBatch_waiting {i : Nat} {c : Block β} (hc : c ∈ (formBatch d s thisBatch waiting).1.blockLists i) :
    c ∈ s.blockLists i ∨ c ∈ (formBatch d s thisBatch waiting).2.flatMap Placed.blocks := by
  change c ∈ update s.blockLists (passGot d s.alloc thisBatch).1.diskNum
    (s.blockLists (passGot d s.alloc thisBatch).1.diskNum ++ (formBatch d s thisBatch waiting).2.flatMap Placed.blocks) i at hc
  by_cases hi : i = (passGot d s.alloc thisBatch).1.diskNum
  · rw [hi, update_self] at hc
    rw [hi]
    exact List.mem_append.mp hc
  · rw [update_of_ne hi] at hc
    exact .inl hc

theorem formBatch_apart (hinv : Batches.Inv d s) (hsteady : s.versionChange = false) (hempty : WrapsEmpty d s thisBatch) {i : Nat}
    {c : Block β} (hc : c ∈ s.blockLists i) : c.tail.pres ∉ (passGot d s.alloc thisBatch).1.blocks d := by
  intro htaken
  by_cases hwraps : Wraps d (beginAllocCycle d s.alloc) (size thisBatch)
  · have hi : i < d.numDisks := by
      by_contra hout
      rw [hinv.empty i (hinv.outside i (Nat.le_of_not_lt hout)).1] at hc
      exact absurd hc List.not_mem_nil
    rw [hinv.empty i (hempty hwraps i hi)] at hc
    exact absurd hc List.not_mem_nil
  · obtain ⟨hlane, hbelow⟩ := below_of_waiting hinv hsteady hc
    have hdisk : i = (passGot d s.alloc thisBatch).1.diskNum := by
      rw [← hlane, ← passGot_lane hinv]
      exact Stripe.mod_of_mem htaken
    have habove := Stripe.le_of_mem htaken
    rw [(passGot_of_not_wraps hwraps).2.1, ← hdisk] at habove
    omega

theorem formBatch_steady (hinv : Batches.Inv d s) (hsteady : s.versionChange = false) (hempty : WrapsEmpty d s thisBatch) :
    (formBatch d s thisBatch waiting).1.versionChange = false := by
  show (s.versionChange || _ != _) = false
  rw [hsteady, Bool.false_or, bne_eq_false_iff_eq]
  split
  · rfl
  · rename_i hplace
    obtain ⟨r, hr⟩ := Option.ne_none_iff_exists'.mp hplace
    have hwraps : ¬Wraps d (beginAllocCycle d s.alloc) (size thisBatch) :=
      fun hwraps => hplace (hempty hwraps _ hinv.lanes.beginAllocCycle.turn)
    calc s.presentBatchVersion = s.alloc.presentRemVersion := (hinv.pending hsteady _).version r hr
      _ = (passGot d s.alloc thisBatch).2.presentRemVersion := (passGot_of_not_wraps hwraps).1.symm
      _ = _ := getFromOneDisk_version ..

/-- What `checkBatchWritesNow` does with a batch of one version: it leaves the lists alone, or it issues all that is in
them. -/
theorem checkBatchWritesNow_steady (hinv : Batches.Inv d s) (hsteady : s.versionChange = false) (deadline : Bool) :
    checkBatchWritesNow d s deadline = { s with stage := .idle } ∨
      s.batchWriteLock = 0 ∧ (∀ i, (checkBatchWritesNow d s deadline).blockLists i = []) ∧
        (checkBatchWritesNow d s deadline).issued = s.issued ++ batchWrites d s ∧
        (checkBatchWritesNow d s deadline).batchWriteLock = (batchWrites d s).length ∧
        (checkBatchWritesNow d s deadline).alloc = s.alloc ∧ (checkBatchWritesNow d s deadline).versionChange = false := by
  unfold checkBatchWritesNow
  split
  · rename_i hready
    have hlock : s.batchWriteLock = 0 := by
      simpa using (Bool.and_eq_true_iff.mp hready).2
    have hwrites : (if s.versionChange = true then [] else batchWrites d s) = batchWrites d s := by
      rw [hsteady]
      rfl
    refine .inr ⟨hlock, fun i => ?_, congrArg (s.issued ++ ·) hwrites, ?_, rfl, rfl⟩
    · show (if i < d.numDisks then [] else s.blockLists i) = []
      split
      · rfl
      · rename_i hi
        exact hinv.empty i (hinv.outside i (Nat.le_of_not_lt hi)).1
    · show s.batchWriteLock + _ = _
      rw [hlock, Nat.zero_add, hwrites]
  · exact .inl rfl

theorem mem_batchWrites_buffer (hinv : Batches.Inv d s) {c : Block β} :
    (∃ w ∈ batchWrites d s, c ∈ w.buffer) ↔ ∃ i, c ∈ s.blockLists i := by
  constructor
  · rintro ⟨w, hw, hc⟩
    obtain ⟨i, _, _, rfl⟩ := mem_batchWrites hw
    exact ⟨i, hc⟩
  · rintro ⟨i, hc⟩
    have hne : s.blockLists i ≠ [] := List.ne_nil_of_mem hc
    have hi : i < d.numDisks := by
      by_contra hout
      exact hne (hinv.empty i (hinv.outside i (Nat.le_of_not_lt hout)).1)
    exact ⟨_, List.mem_filterMap.mpr ⟨i, List.mem_range.mpr hi, if_neg hne⟩, hc⟩

end Pass

/-! ## Blocks and slots -/

/-- The place of the block has it or will have it: it waits for a batch to be issued or a request to be done, or it is in
the log; and nothing else waits that would be written there after it. -/
structure Leads (s : State β) (b : Block β) : Prop where
  lists : ∀ i, ∀ c ∈ s.batches.blockLists i, c.tail.pres = b.tail.pres → c = b
  holds : (∃ i, b ∈ s.batches.blockLists i) ∨
    (∀ w ∈ s.flights, ∀ c ∈ w.buffer, c.tail.pres = b.tail.pres → c = b) ∧ (s.log b.tail.pres = b ∨ ∃ w ∈ s.flights, b ∈ w.buffer)

/-- An object that was given a place, and its first block. -/
structure Entry (d : Disks) (s : State β) (p : Placed β) (b : Block β) : Prop where
  first : p.blocks.head? = some b
  place : b.tail.pres = p.start
  age : p.version ≤ s.batches.alloc.presentRemVersion
  below : p.version = s.batches.alloc.presentRemVersion → p.start < s.batches.alloc.presentRemOffsets (p.start % d.numDisks)
  leads : checkVersion s.batches.alloc (Hoc.toChar p.version) p.start → Leads s b

/-- The pass of `formDiskBatches` begins a new version of the log only with empty batches, and takes no block that a slot of
the preceding version names and that `checkVersion` still passes after it. -/
def KeepsIndex (d : Disks) (numSets : Nat) (s : State β) : Event β → Prop
  | .batch .form =>
      match s.batches.globalWriteWaitList with
      | [] => True
      | thisBatch :: rest =>
          s.batches.totalBlocksUsed + size (nextBatch d thisBatch rest).1 ≤ writeBufferSize d →
          WrapsEmpty d s.batches (nextBatch d thisBatch rest).1 ∧
            ∀ setNum ≤ numSets, ∀ matchNum < ways,
              (s.index setNum matchNum).logVersion + 1 = (passGot d s.batches.alloc (nextBatch d thisBatch rest).1).2.presentRemVersion →
              (passGot d s.batches.alloc (nextBatch d thisBatch rest).1).2.presentRemOffsets 0 + threshold <
                (s.index setNum matchNum).logOffset →
              ∀ x ∈ (passGot d s.batches.alloc (nextBatch d thisBatch rest).1).1.blocks d, (x : Int) ≠ (s.index setNum matchNum).logOffset
  | _ => True

section Steps

variable {d : Disks} {s s' : State β} {p : Placed β} {b : Block β}

/-- A version that is stored in a `char` passes the check only if it is stored as it is. -/
theorem checkVersion_toChar {a : Alloc} {version offset : Nat} (hage : version ≤ a.presentRemVersion) :
    checkVersion a (Hoc.toChar version) offset ↔ Hoc.toChar version = version ∧
      (version = a.presentRemVersion ∨ version + 1 = a.presentRemVersion ∧ a.presentRemOffsets 0 + threshold < offset) := by
  unfold checkVersion Hoc.toChar
  omega

theorem enterSlot_cases {numSets : Nat} {index index' : Nat → Nat → Slot β} {matchNum : Option Nat}
    (henter : enterSlot numSets index p matchNum = .ok index') :
    index' = index ∨ ∃ m, p.blocks ≠ [] ∧ p.response.hash % numSets ≤ numSets ∧ m < ways ∧
      index' = update index (p.response.hash % numSets)
        (update (index (p.response.hash % numSets)) m ⟨p.start, Hoc.toChar p.version, Hoc.toChar p.length, some p⟩) := by
  cases matchNum with
  | none => exact .inl (Except.ok.inj henter).symm
  | some m =>
      simp only [enterSlot, updateHeaders] at henter
      by_cases hblocks : p.blocks = []
      · rw [if_pos hblocks] at henter
        exact .inl (Except.ok.inj henter).symm
      · rw [if_neg hblocks] at henter
        by_cases hexit : numSets < p.response.hash % numSets ∨ ways ≤ m
        · rw [if_pos hexit] at henter
          cases henter
        · rw [if_neg hexit] at henter
          obtain ⟨hset, hmatch⟩ := not_or.mp hexit
          exact .inr ⟨m, hblocks, Nat.le_of_not_lt hset, Nat.lt_of_not_le hmatch, (Except.ok.inj henter).symm⟩

theorem Leads.congr (hleads : Leads s b) (hlists : s'.batches.blockLists = s.batches.blockLists) (hflights : s'.flights = s.flights)
    (hlog : s'.log = s.log) : Leads s' b where
  lists := by
    rw [hlists]
    exact hleads.lists
  holds := by
    rw [hlists, hflights, hlog]
    exact hleads.holds

theorem Entry.congr (hentry : Entry d s p b) (halloc : s'.batches.alloc = s.batches.alloc) (hleads : Leads s b → Leads s' b) :
    Entry d s' p b where
  first := hentry.first
  place := hentry.place
  age := halloc ▸ hentry.age
  below := halloc ▸ hentry.below
  leads := fun hcheck => hleads (hentry.leads (halloc ▸ hcheck))

theorem Leads.add (hleads : Leads s b) (hflights : s'.flights = s.flights) (hlog : s'.log = s.log)
    (hkeeps : ∀ i, ∀ c ∈ s.batches.blockLists i, c ∈ s'.batches.blockLists i)
    (hnew : ∀ i, ∀ c ∈ s'.batches.blockLists i, c ∈ s.batches.blockLists i ∨ c.tail.pres ≠ b.tail.pres) : Leads s' b where
  lists := by
    intro i c hc hpres
    rcases hnew i c hc with hold | hother
    · exact hleads.lists i c hold hpres
    · exact absurd hpres hother
  holds := by
    rw [hflights, hlog]
    exact hleads.holds.imp_left fun ⟨i, hi⟩ => ⟨i, hkeeps i b hi⟩

theorem Leads.issue (hleads : Leads s b) (hnone : s.flights = []) (hlog : s'.log = s.log) (hempty : ∀ i, s'.batches.blockLists i = [])
    (hissued : ∀ c, (∃ w ∈ s'.flights, c ∈ w.buffer) ↔ ∃ i, c ∈ s.batches.blockLists i) : Leads s' b where
  lists := by
    intro i c hc
    rw [hempty i] at hc
    exact absurd hc List.not_mem_nil
  holds := by
    refine .inr ⟨fun w hw c hc hpres => ?_, ?_⟩
    · obtain ⟨i, hi⟩ := (hissued c).mp ⟨w, hw, hc⟩
      exact hleads.lists i c hi hpres
    · rw [hlog]
      rcases hleads.holds with hwaits | ⟨_, hthere | ⟨w, hw, _⟩⟩
      · exact .inr ((hissued b).mpr hwaits)
      · exact .inl hthere
      · rw [hnone] at hw
        exact absurd hw List.not_mem_nil

theorem Leads.pwrite (hleads : Leads s b) {k : Nat} {w : Write β} (hw : s.flights[k]? = some w) (haddressed : Addressed d w) :
    Leads (pwriteStep d s k) b := by
  have hstep : pwriteStep d s k = { s with log := Store.pwrite d s.log w, flights := s.flights.eraseIdx k, landed := s.landed + 1 } := by
    unfold pwriteStep
    rw [hw]
  rw [hstep]
  refine ⟨hleads.lists, hleads.holds.imp_right fun ⟨honly, hthere⟩ => ⟨fun w' hw' => honly w' (List.mem_of_mem_eraseIdx hw'), ?_⟩⟩
  rcases pwrite_cases s.log haddressed b.tail.pres with ⟨c, hc, hpres, hwritten⟩ | ⟨hother, hsame⟩
  · left
    show Store.pwrite d s.log w b.tail.pres = b
    rw [hwritten]
    exact honly w (List.mem_of_getElem? hw) c hc hpres
  · rcases hthere with hlog | ⟨w', hw', hb⟩
    · exact .inl (hsame.trans hlog)
    · right
      have hne : w' ≠ w := by
        rintro rfl
        exact hother b hb rfl
      obtain ⟨j, hj⟩ := List.mem_iff_getElem?.mp hw'
      refine ⟨w', List.mem_eraseIdx_iff_getElem?.mpr ⟨j, ?_, hj⟩, hb⟩
      rintro rfl
      exact hne (Option.some.inj (hj.symm.trans hw))

end Steps

/-! ## A pass of `formDiskBatches` -/

section Form

variable {d : Disks} {s s' : State β} {thisBatch : RelOb β} {waiting : List (RelOb β)} {p : Placed β} {b : Block β}

/-- An object that was given a place before: its slot is passed no more, or the pass took other blocks. -/
theorem Entry.pass (hentry : Entry d s p b) (hinv : Batches.Inv d s.batches)
    (hbatches : s'.batches = (formBatch d s.batches thisBatch waiting).1) (hflights : s'.flights = s.flights) (hlog : s'.log = s.log)
    (hspared : Hoc.toChar p.version + 1 = (passGot d s.batches.alloc thisBatch).2.presentRemVersion →
      (passGot d s.batches.alloc thisBatch).2.presentRemOffsets 0 + threshold < (p.start : Int) →
      ∀ x ∈ (passGot d s.batches.alloc thisBatch).1.blocks d, (x : Int) ≠ p.start) : Entry d s' p b := by
  have halloc : s'.batches.alloc = (passGot d s.batches.alloc thisBatch).2 := by rw [hbatches]; rfl
  have hkeeps : ∀ i, ∀ c ∈ s.batches.blockLists i, c ∈ s'.batches.blockLists i := by
    intro i c hc
    rw [hbatches]
    exact mem_update_append hc
  -- the blocks that join the batch are those the pass takes
  have hadd (hold : Leads s b) (hother : p.start ∉ (passGot d s.batches.alloc thisBatch).1.blocks d) : Leads s' b := by
    refine hold.add hflights hlog hkeeps fun i c hc => ?_
    rw [hbatches] at hc
    refine (formBatch_waiting hc).imp_right fun hnew hpres => hother ?_
    rw [← hentry.place, ← hpres, ← formBatch_pres waiting]
    exact List.mem_map_of_mem hnew
  by_cases hwraps : Wraps d (beginAllocCycle d s.batches.alloc) (size thisBatch)
  · have hversion := passGot_of_wraps hwraps
    have hage : p.version < (passGot d s.batches.alloc thisBatch).2.presentRemVersion := by
      rw [hversion]
      exact Nat.lt_succ_of_le hentry.age
    refine ⟨hentry.first, hentry.place, halloc ▸ hage.le, fun heq => absurd (halloc ▸ heq) hage.ne, fun hcheck => ?_⟩
    rw [halloc, checkVersion_toChar hage.le] at hcheck
    obtain ⟨hchar, hcurrent | ⟨hlast, habove⟩⟩ := hcheck
    · exact absurd hcurrent hage.ne
    · have hbefore : p.version = s.batches.alloc.presentRemVersion := by omega
      refine hadd (hentry.leads ((checkVersion_toChar hentry.age).mpr ⟨hchar, .inl hbefore⟩)) fun htaken => ?_
      exact hspared (by omega) (by omega) p.start htaken rfl
  · obtain ⟨hversion, hstart, hcursor⟩ := passGot_of_not_wraps hwraps
    refine ⟨hentry.first, hentry.place, ?_, fun heq => ?_, fun hcheck => ?_⟩
    · rw [halloc, hversion]
      exact hentry.age
    · rw [halloc, hversion] at heq
      rw [halloc]
      exact (hentry.below heq).trans_le (hcursor _)
    · rw [halloc, checkVersion_toChar (hversion ▸ hentry.age)] at hcheck
      obtain ⟨hchar, hcurrent | ⟨hlast, habove⟩⟩ := hcheck
      · have hbefore : p.version = s.batches.alloc.presentRemVersion := hcurrent.trans hversion
        refine hadd (hentry.leads ((checkVersion_toChar hentry.age).mpr ⟨hchar, .inl hbefore⟩)) fun htaken => ?_
        have hlane : p.start % d.numDisks = (passGot d s.batches.alloc thisBatch).1.diskNum :=
          (Stripe.mod_of_mem htaken).trans (passGot_lane hinv)
        have hbelow := hentry.below hbefore
        rw [hlane, ← hstart] at hbelow
        exact absurd (Stripe.le_of_mem htaken) (Nat.not_le_of_lt hbelow)
      · have hzero := hcursor 0
        refine hadd (hentry.leads ((checkVersion_toChar hentry.age).mpr ⟨hchar, .inr ⟨by omega, by omega⟩⟩)) fun htaken => ?_
        exact hspared (by omega) (by omega) p.start htaken rfl

theorem entry_formed (hinv : Batches.Inv d s.batches) (hsteady : s.batches.versionChange = false)
    (hempty : WrapsEmpty d s.batches thisBatch) (hbatches : s'.batches = (formBatch d s.batches thisBatch waiting).1)
    (hp : p ∈ (formBatch d s.batches thisBatch waiting).2) (hb : p.blocks.head? = some b) : Entry d s' p b := by
  have halloc : s'.batches.alloc = (passGot d s.batches.alloc thisBatch).2 := by rw [hbatches]; rfl
  have hversion : p.version = (passGot d s.batches.alloc thisBatch).2.presentRemVersion :=
    (addressObjects_version hp).trans (getFromOneDisk_version ..).symm
  have hfirst : p.blocks[0]? = some b := List.head?_eq_getElem? .. ▸ hb
  have hplace : b.tail.pres = p.start := by
    rw [getElem?_pres (whole_addressObjects hp).pres hfirst, Nat.zero_mul, Nat.add_zero]
  have hjoins : b ∈ (formBatch d s.batches thisBatch waiting).2.flatMap Placed.blocks :=
    List.mem_flatMap.mpr ⟨p, hp, List.mem_of_mem_head? hb⟩
  have htaken : b.tail.pres ∈ (passGot d s.batches.alloc thisBatch).1.blocks d := by
    rw [← formBatch_pres waiting]
    exact List.mem_map_of_mem hjoins
  refine ⟨hb, hplace, (halloc ▸ hversion).le, fun _ => ?_, fun _ => ⟨fun i c hc hpres => ?_, .inl ?_⟩⟩
  · rw [halloc, ← hplace, Stripe.mod_of_mem htaken, passGot_lane hinv, passGot_cursor]
    exact Stripe.lt_of_mem d.numDisks_pos htaken
  · rw [hbatches] at hc
    rcases formBatch_waiting hc with hold | hnew
    · rw [← hpres] at htaken
      exact absurd htaken (formBatch_apart hinv hsteady hempty hold)
    · have hnodup : (((formBatch d s.batches thisBatch waiting).2.flatMap Placed.blocks).map fun b => b.tail.pres).Nodup := by
        rw [formBatch_pres]
        exact Stripe.nodup_blocks d.numDisks_pos
      exact List.inj_on_of_nodup_map hnodup hnew hjoins hpres
  · refine ⟨(passGot d s.batches.alloc thisBatch).1.diskNum, ?_⟩
    rw [hbatches]
    show b ∈ update s.batches.blockLists (passGot d s.batches.alloc thisBatch).1.diskNum
      (s.batches.blockLists (passGot d s.batches.alloc thisBatch).1.diskNum ++ _) (passGot d s.batches.alloc thisBatch).1.diskNum
    rw [update_self]
    exact List.mem_append_right _ hjoins

end Form

/-! ## Runs -/

structure SoundInv (d : Disks) (numSets : Nat) (s : State β) : Prop where
  batches : Batches.Inv d s.batches
  steady : s.batches.versionChange = false
  lock : s.flights.length + s.landed = s.batches.batchWriteLock
  flights : ∀ w ∈ s.flights, w ∈ s.batches.issued
  queue : ∀ p ∈ s.queue, ∀ b, p.blocks.head? = some b → Entry d s p b
  slots : ∀ setNum matchNum p, (s.index setNum matchNum).object = some p →
    (setNum ≤ numSets ∧ matchNum < ways ∧ s.index setNum matchNum = ⟨p.start, Hoc.toChar p.version, Hoc.toChar p.length, some p⟩) ∧
      ∃ b, Entry d s p b

section Run

variable {d : Disks} {expandLimit numSets : Nat} {s s' : State β}

theorem KeepsIndex.startsAlone {e : Batches.Event β} (hkeeps : KeepsIndex d numSets s (.batch e)) : StartsAlone d s.batches e := by
  cases e with
  | form =>
      unfold KeepsIndex at hkeeps
      unfold StartsAlone
      cases hlist : s.batches.globalWriteWaitList with
      | nil => trivial
      | cons thisBatch rest =>
          rw [hlist] at hkeeps
          intro hroom hwraps _
          exact (hkeeps hroom).1 hwraps
  | _ => trivial

theorem SoundInv.of_entries (hinv : SoundInv d numSets s) (hindex : s'.index = s.index) (hbatches : Batches.Inv d s'.batches)
    (hsteady : s'.batches.versionChange = false) (hlock : s'.flights.length + s'.landed = s'.batches.batchWriteLock)
    (hflights : ∀ w ∈ s'.flights, w ∈ s'.batches.issued) (hqueue : ∀ p ∈ s'.queue, ∀ b, p.blocks.head? = some b → Entry d s' p b)
    (hentry : ∀ setNum matchNum p b, (s.index setNum matchNum).object = some p → Entry d s p b → Entry d s' p b) :
    SoundInv d numSets s' where
  batches := hbatches
  steady := hsteady
  lock := hlock
  flights := hflights
  queue := hqueue
  slots := by
    intro setNum matchNum p hp
    rw [hindex] at hp ⊢
    obtain ⟨hslot, b, hb⟩ := hinv.slots setNum matchNum p hp
    exact ⟨hslot, b, hentry setNum matchNum p b hp hb⟩

theorem SoundInv.of_moves_nothing (hinv : SoundInv d numSets s) (hindex : s'.index = s.index) (hbatches : Batches.Inv d s'.batches)
    (hsteady : s'.batches.versionChange = s.batches.versionChange) (hlock : s'.flights.length + s'.landed = s'.batches.batchWriteLock)
    (hissued : s'.batches.issued = s.batches.issued) (hqueue : ∀ p ∈ s'.queue, p ∈ s.queue)
    (halloc : s'.batches.alloc = s.batches.alloc) (hlists : s'.batches.blockLists = s.batches.blockLists)
    (hflights : s'.flights = s.flights) (hlog : s'.log = s.log) : SoundInv d numSets s' := by
  have hentry {p : Placed β} {b : Block β} (hb : Entry d s p b) : Entry d s' p b :=
    hb.congr halloc fun hleads => hleads.congr hlists hflights hlog
  refine hinv.of_entries hindex hbatches (hsteady.trans hinv.steady) hlock (fun w hw => ?_) (fun p hp b hb => ?_)
    fun _ _ _ _ _ hb => hentry hb
  · rw [hissued]
    exact hinv.flights w (hflights ▸ hw)
  · exact hentry (hinv.queue p (hqueue p hp) b hb)

theorem SoundInv.form (hinv : SoundInv d numSets s) (hkeeps : KeepsIndex d numSets s (.batch .form))
    (hbatches : s'.batches = (formDiskBatches d s.batches).1) (hformed : s'.queue = (formDiskBatches d s.batches).2)
    (hindex : s'.index = s.index) (hflights : s'.flights = s.flights) (hlanded : s'.landed = s.landed) (hlog : s'.log = s.log) :
    SoundInv d numSets s' := by
  have hbatchInv : Batches.Inv d s'.batches := by
    rw [hbatches]
    exact hinv.batches.formDiskBatches hkeeps.startsAlone
  unfold KeepsIndex at hkeeps
  unfold formDiskBatches at hbatches hformed
  cases hlist : s.batches.globalWriteWaitList with
  | nil =>
      rw [hlist] at hbatches hformed
      refine hinv.of_moves_nothing hindex hbatchInv ?_ ?_ ?_ ?_ ?_ ?_ hflights hlog
      · rw [hbatches]
      · rw [hflights, hlanded, hbatches]
        exact hinv.lock
      · rw [hbatches]
      · rw [hformed]
        exact fun p hp => absurd hp List.not_mem_nil
      · rw [hbatches]
      · rw [hbatches]
  | cons thisBatch rest =>
      rw [hlist] at hbatches hformed hkeeps
      simp only at hbatches hformed hkeeps
      by_cases hroom : writeBufferSize d < s.batches.totalBlocksUsed + size (nextBatch d thisBatch rest).1
      · rw [if_pos hroom] at hbatches hformed
        refine hinv.of_moves_nothing hindex hbatchInv ?_ ?_ ?_ ?_ ?_ ?_ hflights hlog
        · rw [hbatches]
        · rw [hflights, hlanded, hbatches]
          exact hinv.lock
        · rw [hbatches]
        · rw [hformed]
          exact fun p hp => absurd hp List.not_mem_nil
        · rw [hbatches]
        · rw [hbatches]
      · rw [if_neg hroom] at hbatches hformed
        obtain ⟨hempty, hspared⟩ := hkeeps (Nat.le_of_not_lt hroom)
        refine hinv.of_entries hindex hbatchInv ?_ ?_ ?_ (fun p hp b hb => ?_) fun setNum matchNum p b hp hentry => ?_
        · rw [hbatches]
          exact formBatch_steady hinv.batches hinv.steady hempty
        · rw [hflights, hlanded, hbatches]
          exact hinv.lock
        · rw [hflights, hbatches]
          exact hinv.flights
        · rw [hformed] at hp
          exact entry_formed hinv.batches hinv.steady hempty hbatches hp hb
        · obtain ⟨⟨hset, hmatch, hslot⟩, _⟩ := hinv.slots setNum matchNum p hp
          refine hentry.pass hinv.batches hbatches hflights hlog ?_
          have hspare := hspared setNum hset matchNum hmatch
          rwa [hslot] at hspare

theorem SoundInv.write (hinv : SoundInv d numSets s) {deadline : Bool}
    (hbatches : s'.batches = checkBatchWritesNow d s.batches deadline) (hqueue : s'.queue = []) (hindex : s'.index = s.index)
    (hflights : s'.flights = s.flights ++ s'.batches.issued.drop s.batches.issued.length) (hlanded : s'.landed = s.landed)
    (hlog : s'.log = s.log) : SoundInv d numSets s' := by
  have hbatchInv : Batches.Inv d s'.batches := by
    rw [hbatches]
    exact hinv.batches.checkBatchWritesNow deadline
  have hnone : ∀ p ∈ s'.queue, p ∈ s.queue := by
    rw [hqueue]
    exact fun p hp => absurd hp List.not_mem_nil
  rcases checkBatchWritesNow_steady hinv.batches hinv.steady deadline with hwaits | ⟨hlock, hlists, hissued, hcount, halloc, hsteady⟩
  · rw [hwaits] at hbatches
    have hsame : s'.flights = s.flights := by
      rw [hflights, hbatches, List.drop_length, List.append_nil]
    refine hinv.of_moves_nothing hindex hbatchInv ?_ ?_ ?_ hnone ?_ ?_ hsame hlog
    · rw [hbatches]
    · rw [hsame, hlanded, hbatches]
      exact hinv.lock
    · rw [hbatches]
    · rw [hbatches]
    · rw [hbatches]
  · rw [← hbatches] at hlists hissued hcount halloc hsteady
    -- the lock tells that no request is under way
    have hlocked := hinv.lock
    rw [hlock] at hlocked
    have hbefore : s.flights = [] := List.length_eq_zero_iff.mp (by omega)
    have hafter : s'.flights = batchWrites d s.batches := by
      rw [hflights, hbefore, hissued, List.drop_left, List.nil_append]
    have hentry {p : Placed β} {b : Block β} (hb : Entry d s p b) : Entry d s' p b := by
      refine hb.congr halloc fun hleads => hleads.issue hbefore hlog hlists fun c => ?_
      rw [hafter]
      exact mem_batchWrites_buffer hinv.batches
    refine hinv.of_entries hindex hbatchInv hsteady ?_ (fun w hw => ?_) (fun p hp b hb => hentry (hinv.queue p (hnone p hp) b hb))
      fun _ _ _ _ _ hb => hentry hb
    · rw [hafter, hlanded, hcount]
      omega
    · rw [hissued]
      exact List.mem_append_right _ (hafter ▸ hw)

theorem SoundInv.batchStep (hinv : SoundInv d numSets s) (e : Batches.Event β) (hkeeps : KeepsIndex d numSets s (.batch e))
    {reported : Nat} (hreported : e = .done → reported = 1) (hothers : e ≠ .done → reported = 0) :
    SoundInv d numSets (batchStep d s e reported) := by
  rcases batchStep_cases d s e reported with hsame | ⟨b, hnext, _, hlanded, hstep⟩
  · rw [hsame]
    exact hinv
  · rw [hstep]
    have hbatches : Batches.Inv d b := (Batches.inv_invariant d).step _ _ _ hinv.batches ⟨hkeeps.startsAlone, hnext⟩
    cases e with
    | arrive urls =>
        obtain ⟨_, rfl⟩ := stepIf_eq_ok hnext
        obtain rfl := hothers (fun h => by cases h)
        exact hinv.of_moves_nothing rfl hbatches rfl (by simp [hinv.lock]) rfl (by simp [formed]) rfl rfl (by simp) rfl
    | check =>
        obtain ⟨_, rfl⟩ := stepIf_eq_ok hnext
        obtain rfl := hothers (fun h => by cases h)
        exact hinv.of_moves_nothing rfl hbatches rfl (by simp [hinv.lock]) rfl (by simp [formed]) rfl rfl (by simp) rfl
    | form =>
        obtain ⟨_, rfl⟩ := stepIf_eq_ok hnext
        obtain rfl := hothers (fun h => by cases h)
        have hissued := (formDiskBatches_lists d s.batches).2.1
        exact hinv.form hkeeps rfl rfl rfl (by simp [hissued]) rfl rfl
    | write deadline =>
        obtain ⟨_, rfl⟩ := stepIf_eq_ok hnext
        obtain rfl := hothers (fun h => by cases h)
        exact hinv.write rfl rfl rfl rfl rfl rfl
    | done =>
        obtain ⟨⟨_, hlock⟩, rfl⟩ := stepIf_eq_ok hnext
        obtain rfl := hreported rfl
        have hbefore := hinv.lock
        refine hinv.of_moves_nothing rfl hbatches rfl ?_ rfl (by simp [formed]) rfl rfl (by simp) rfl
        simp only [List.drop_length, List.append_nil]
        omega

theorem SoundInv.place (hinv : SoundInv d numSets s) {used : Bool} {matchNum : Option Nat}
    (hstep : placeStep d expandLimit numSets s used matchNum = .ok s') : SoundInv d numSets s' := by
  unfold placeStep at hstep
  cases hqueue : s.queue with
  | nil =>
      rw [hqueue] at hstep
      rw [← Except.ok.inj hstep]
      exact hinv
  | cons p queue =>
      rw [hqueue] at hstep
      obtain ⟨hoc, _, hstep⟩ := Run.bind_eq_ok.mp hstep
      obtain ⟨index, henter, hstep⟩ := Run.bind_eq_ok.mp hstep
      rw [← Except.ok.inj hstep]
      have hentry {q : Placed β} {b : Block β} (hb : Entry d s q b) : Entry d { s with queue := queue, hoc := hoc, index := index } q b :=
        hb.congr rfl fun hleads => hleads.congr rfl rfl rfl
      refine ⟨hinv.batches, hinv.steady, hinv.lock, hinv.flights, fun q hq b hb => ?_, fun setNum way q hq => ?_⟩
      · exact hentry (hinv.queue q (hqueue ▸ List.mem_cons_of_mem _ hq) b hb)
      · have hkept (hsame : index setNum way = s.index setNum way) :
            (setNum ≤ numSets ∧ way < ways ∧ index setNum way = ⟨q.start, Hoc.toChar q.version, Hoc.toChar q.length, some q⟩) ∧
              ∃ b, Entry d { s with queue := queue, hoc := hoc, index := index } q b := by
          change (index setNum way).object = some q at hq
          rw [hsame] at hq ⊢
          obtain ⟨hslot, b, hb⟩ := hinv.slots setNum way q hq
          exact ⟨hslot, b, hentry hb⟩
        rcases enterSlot_cases henter with hsame | ⟨matchNum, hnonempty, hset, hmatch, hnew⟩
        · exact hkept (by rw [hsame])
        · by_cases hwhich : setNum = p.response.hash % numSets ∧ way = matchNum
          · obtain ⟨rfl, rfl⟩ := hwhich
            change (index (p.response.hash % numSets) way).object = some q at hq
            show (_ ∧ _ ∧ index (p.response.hash % numSets) way = _) ∧ _
            rw [hnew, update_self, update_self] at hq ⊢
            obtain rfl := Option.some.inj hq
            refine ⟨⟨hset, hmatch, rfl⟩, ?_⟩
            obtain ⟨b, hb⟩ := Option.ne_none_iff_exists'.mp (mt List.head?_eq_none_iff.mp hnonempty)
            have hbefore := hinv.queue p (hqueue ▸ List.mem_cons_self) b hb
            exact ⟨b, hbefore.congr rfl fun hleads => hleads.congr rfl rfl rfl⟩
          · refine hkept ?_
            rw [hnew]
            by_cases hrow : setNum = p.response.hash % numSets
            · rw [hrow, update_self, update_of_ne fun hway => hwhich ⟨hrow, hway⟩]
            · rw [update_of_ne hrow]

theorem SoundInv.pwrite (hinv : SoundInv d numSets s) (k : Nat) : SoundInv d numSets (pwriteStep d s k) := by
  cases hw : s.flights[k]? with
  | none =>
      unfold pwriteStep
      rw [hw]
      exact hinv
  | some w =>
      have haddressed : Addressed d w := hinv.batches.issued w (hinv.flights w (List.mem_of_getElem? hw))
      have hstep : pwriteStep d s k =
          { s with log := Store.pwrite d s.log w, flights := s.flights.eraseIdx k, landed := s.landed + 1 } := by
        unfold pwriteStep
        rw [hw]
      have hentry {p : Placed β} {b : Block β} (hb : Entry d s p b) : Entry d (pwriteStep d s k) p b :=
        hb.congr (by rw [hstep]) fun hleads => hleads.pwrite hw haddressed
      rw [hstep] at hentry ⊢
      refine hinv.of_entries rfl hinv.batches hinv.steady ?_ (fun w' hw' => hinv.flights w' (List.mem_of_mem_eraseIdx hw'))
        (fun p hp b hb => hentry (hinv.queue p hp b hb)) fun _ _ _ _ _ hb => hentry hb
      have hlt : k < s.flights.length := (List.getElem?_eq_some_iff.mp hw).1
      have hlock := hinv.lock
      show (s.flights.eraseIdx k).length + (s.landed + 1) = s.batches.batchWriteLock
      rw [List.length_eraseIdx_of_lt hlt]
      omega

theorem SoundInv.call (hinv : SoundInv d numSets s) {e : Hoc.Event (Block β)} (hstep : callStep d expandLimit s e = .ok s') :
    SoundInv d numSets s' := by
  obtain ⟨hoc, _, hstep⟩ := Run.bind_eq_ok.mp hstep
  rw [← Except.ok.inj hstep]
  exact hinv.of_moves_nothing rfl hinv.batches rfl hinv.lock rfl (fun _ hp => hp) rfl rfl rfl rfl

theorem SoundInv.handleRead (hinv : SoundInv d numSets s) {k : Nat} (hstep : handleReadStep d expandLimit s k = .ok s') :
    SoundInv d numSets s' := by
  unfold handleReadStep at hstep
  cases hread : s.reads[k]? with
  | none =>
      rw [hread] at hstep
      rw [← Except.ok.inj hstep]
      exact hinv
  | some bs =>
      rw [hread] at hstep
      obtain ⟨hoc, _, hstep⟩ := Run.bind_eq_ok.mp hstep
      rw [← Except.ok.inj hstep]
      exact hinv.of_moves_nothing rfl hinv.batches rfl hinv.lock rfl (fun _ hp => hp) rfl rfl rfl rfl

end Run

theorem sound_invariant (d : Disks) (expandLimit numSets : Nat) :
    ((storeSystem d expandLimit numSets).restrict (KeepsIndex (β := β) d numSets)).Invariant (SoundInv d numSets) where
  init := by
    rintro s ⟨log, memory, rfl⟩
    have hbatches : Batches.Inv d (Batches.State.init : Batches.State β) := (Batches.inv_invariant d).init _ rfl
    refine ⟨hbatches, rfl, rfl, ?_, ?_, ?_⟩
    · exact fun w hw => absurd hw List.not_mem_nil
    · exact fun p hp => absurd hp List.not_mem_nil
    · rintro setNum matchNum p ⟨⟩
  step := by
    rintro s e s' hinv ⟨hkeeps, hstep⟩
    cases e with
    | batch e =>
        cases e with
        | done =>
            rw [← Except.ok.inj hstep]
            exact hinv.batchStep .done hkeeps (fun _ => rfl) fun hne => absurd rfl hne
        | arrive urls =>
            rw [← Except.ok.inj hstep]
            exact hinv.batchStep (.arrive urls) hkeeps (fun h => nomatch h) fun _ => rfl
        | check =>
            rw [← Except.ok.inj hstep]
            exact hinv.batchStep .check hkeeps (fun h => nomatch h) fun _ => rfl
        | form =>
            rw [← Except.ok.inj hstep]
            exact hinv.batchStep .form hkeeps (fun h => nomatch h) fun _ => rfl
        | write deadline =>
            rw [← Except.ok.inj hstep]
            exact hinv.batchStep (.write deadline) hkeeps (fun h => nomatch h) fun _ => rfl
    | place used matchNum => exact hinv.place hstep
    | pwrite k =>
        rw [← Except.ok.inj hstep]
        exact hinv.pwrite k
    | pread remOffset n =>
        rw [← Except.ok.inj hstep]
        exact hinv.of_moves_nothing rfl hinv.batches rfl hinv.lock rfl (fun _ hp => hp) rfl rfl rfl rfl
    | handleRead k => exact hinv.handleRead hstep
    | getBlock remOffset => exact hinv.call hstep
    | doneReading remOffset => exact hinv.call hstep
    | doneWriting remOffset => exact hinv.call hstep
    | mark remOffset data =>
        rw [← Except.ok.inj hstep]
        exact hinv.of_moves_nothing rfl hinv.batches rfl hinv.lock rfl (fun _ hp => hp) rfl rfl rfl rfl

/-- In a run whose passes begin a new version of the log only with empty batches, and take no block that a slot of the
preceding version still names, a slot that was set and that `checkVersion` passes leads to the first block of its object, and
no batch is dropped. -/
theorem index_sound (d : Disks) (expandLimit numSets : Nat) (events : List (Event β)) (s : State β)
    (hrun : ((storeSystem d expandLimit numSets).restrict (KeepsIndex d numSets)).Runs events s) :
    (∀ setNum matchNum p, (s.index setNum matchNum).object = some p →
      checkVersion s.batches.alloc (s.index setNum matchNum).logVersion (s.index setNum matchNum).logOffset →
      ∃ b, p.blocks.head? = some b ∧ (s.index setNum matchNum).logOffset = b.tail.pres ∧ Leads s b) ∧
    ∀ deadline, ¬Drops s.batches deadline := by
  have hinv := (sound_invariant d expandLimit numSets).holds hrun
  constructor
  · intro setNum matchNum p hp hcheck
    obtain ⟨⟨_, _, hslot⟩, b, hentry⟩ := hinv.slots setNum matchNum p hp
    rw [hslot] at hcheck ⊢
    exact ⟨b, hentry.first, congrArg Nat.cast hentry.place.symm, hentry.leads hcheck⟩
  · intro deadline hdrops
    exact Bool.false_ne_true (hinv.steady.symm.trans hdrops.2)

instance (d : Disks) (s : Batches.State β) (thisBatch : RelOb β) : Decidable (WrapsEmpty d s thisBatch) :=
  inferInstanceAs (Decidable (_ → _))

instance (d : Disks) (numSets : Nat) (s : State β) (e : Event β) : Decidable (KeepsIndex d numSets s e) := by
  unfold KeepsIndex
  split
  · split <;> infer_instance
  · infer_instance

theorem index_sound_rewrite : ∃ s, ((storeSystem smallLog 1 4).restrict (KeepsIndex smallLog 4)).Runs rewriteEvents s ∧
    (s.index 3 0).logVersion = 1 ∧ (∀ setNum matchNum p, (s.index setNum matchNum).object = some p →
      checkVersion s.batches.alloc (s.index setNum matchNum).logVersion (s.index setNum matchNum).logOffset →
      ∃ b, p.blocks.head? = some b ∧ (s.index setNum matchNum).logOffset = b.tail.pres ∧ Leads s b) ∧
    ∀ deadline, ¬Drops s.batches deadline := by
  obtain ⟨s, hfold, hversion⟩ := @Run.exists_of_map _ _
    (rewriteEvents.foldlM (System.guarded (KeepsIndex smallLog 4) (storeNext smallLog 1 4) .exit) sampleStore)
    (fun s => (s.index 3 0).logVersion) 1 (by decide +kernel)
  have hstart : ((storeSystem smallLog 1 4).restrict (KeepsIndex smallLog 4)).Runs [] sampleStore := .start ⟨_, _, rfl⟩
  have hrun := System.runs_guarded hstart hfold
  exact ⟨s, hrun, hversion, index_sound smallLog 1 4 _ s hrun⟩

/-- One disk and 40 blocks. -/
def singleLog : Disks := .ofSize 1 40 (fun k => k) Nat.one_pos fun _ _ _ _ h => Int.ofNat.inj h

/-- Two objects fill most of the disk. The next two are in one batch: the first still fits, the second begins a new version,
and the batch is dropped. -/
def dropEvents : List (Event Nat) :=
  [.batch (.arrive [sampleResponse 1 16]), .batch (.arrive [sampleResponse 2 16]), .batch .check, .batch .form, .place false (some 0),
    .batch .form, .place false (some 0), .batch .form, .batch (.write true), .pwrite 0, .batch .done,
    .batch (.arrive [sampleResponse 3 4]), .batch (.arrive [sampleResponse 4 16]), .batch .check, .batch .form, .place false (some 0),
    .batch .form, .place false (some 0), .batch .form, .batch (.write true)]

/-- The slot of the dropped object is passed by `checkVersion` and leads to a block of another object, and nothing waits to be
written. -/
theorem index_unsound : ∃ s, (storeSystem singleLog 1 4).Runs dropEvents s ∧ s.flights = [] ∧
    (∀ i < singleLog.numDisks, s.batches.blockLists i = []) ∧
    checkVersion s.batches.alloc (s.index 0 0).logVersion (s.index 0 0).logOffset ∧ (s.index 0 0).logOffset = 0 ∧
    ∃ p, (s.index 0 0).object = some p ∧ p.response = sampleResponse 4 16 ∧ (s.log 0).data = 1 := by
  obtain ⟨s, hfold, hstate⟩ := @Run.exists_of_map _ _ (dropEvents.foldlM (storeNext singleLog 1 4) sampleStore)
    (fun s => ([s.flights.length, (s.batches.blockLists 0).length, (s.log 0).data], (s.index 0 0).object.map Placed.response,
      decide (checkVersion s.batches.alloc (s.index 0 0).logVersion (s.index 0 0).logOffset), (s.index 0 0).logOffset))
    ([0, 0, 1], some (sampleResponse 4 16), true, 0) (by decide +kernel)
  have hstart : (storeSystem singleLog 1 4).Runs [] sampleStore := .start ⟨_, _, rfl⟩
  have hrun := System.runs_foldlM hstart hfold
  simp only [Prod.mk.injEq, List.cons.injEq, List.length_eq_zero_iff, decide_eq_true_eq] at hstate
  obtain ⟨⟨hflights, hlist, hlog, _⟩, hobject, hcheck, hoffset⟩ := hstate
  obtain ⟨p, hp, hresponse⟩ := Option.map_eq_some_iff.mp hobject
  refine ⟨s, hrun, hflights, fun i hi => ?_, hcheck, hoffset, p, hp, hresponse, hlog⟩
  have hdisks : singleLog.numDisks = 1 := rfl
  rw [hdisks, Nat.lt_one_iff] at hi
  rw [hi]
  exact hlist

end BeagleCache.Store

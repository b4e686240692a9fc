import Mathlib.Tactic
import BeagleCache.DiskBatches
import BeagleCache.Worklist

/-! The groups that wait for the write buffer, with the sizes that are kept for them: `addToRelOb` makes them, and
`formDiskBatches` splits those that are larger than the buffer and appends the parts to the list it goes through. -/

namespace BeagleCache.Batches

open Hcfs Transition Function

variable {β : Type}

/-! ## Groups with their sizes -/

/-- A response with the fields `addToRelOb` looks at. -/
structure Received (β : Type) extends Response β where
  URL : List UInt8
  contentType : Option (List UInt8)
  con_len : Int

/-- A `relOb`; the list has a value for each response. -/
structure SizedRelOb (β : Type) where
  size : Nat
  urls : List (Int × Received β)

/-- `MAX_LENGTH` -/
def maxLength : Int := 100000

def toLower (c : UInt8) : UInt8 := if 65 ≤ c ∧ c ≤ 90 then c + 32 else c

def strcasestr (haystack needle : List UInt8) : Bool :=
  haystack.tails.any fun tail => (needle.map toLower).isPrefixOf (tail.map toLower)

/-- "htm" -/
def htm : List UInt8 := [104, 116, 109]

def addSorted {α : Type} (value : Int) (data : α) : List (Int × α) → List (Int × α)
  | [] => [(value, data)]
  | present :: rest => if present.1 < value then present :: addSorted value data rest else (value, data) :: present :: rest

def addToRelOb (relatedObjects : SizedRelOb β) (presentResponse : Received β) : SizedRelOb β :=
  let value :=
    if strcasestr presentResponse.URL htm || presentResponse.contentType.any (strcasestr · htm) then -1
    else if presentResponse.con_len < 0 then maxLength
    else presentResponse.con_len
  ⟨relatedObjects.size + presentResponse.allBlocks.length, addSorted value presentResponse relatedObjects.urls⟩

/-- The loops that split a group, with `size` the size that is left of it. When the list is at its end that is 0, and there is no
further part. -/
def splitRelOb (newBatch : SizedRelOb β) (size : Nat) : List (Int × Received β) → List (SizedRelOb β) × SizedRelOb β
  | [] => ([newBatch], ⟨size, []⟩)
  | r :: urls =>
      let n := r.2.allBlocks.length
      if newBatch.size < maxBatchSize then splitRelOb ⟨newBatch.size + n, newBatch.urls ++ [(0, r.2)]⟩ (size - n) urls
      else if maxBatchSize < size then
        let rest := splitRelOb ⟨0 + n, [(0, r.2)]⟩ (size - n) urls
        (newBatch :: rest.1, rest.2)
      else ([newBatch], ⟨size, r :: urls⟩)

def nextRelOb (d : Disks) (thisBatch : SizedRelOb β) (rest : List (SizedRelOb β)) : SizedRelOb β × List (SizedRelOb β) :=
  if writeBufferSize d < thisBatch.size then
    let parts := splitRelOb ⟨0, []⟩ thisBatch.size thisBatch.urls
    (parts.2, rest ++ parts.1)
  else (thisBatch, rest)

def SizedRelOb.relOb (b : SizedRelOb β) : RelOb β := b.urls.map fun r => r.2.toResponse

/-- The list with its sizes, and the globals of the write path. -/
structure Forming (β : Type) where
  globalWriteWaitList : List (SizedRelOb β)
  state : State β

/-- The part of a pass behind the check for room. -/
def formRelOb (d : Disks) (s : State β) (thisBatch : SizedRelOb β) (waiting : List (SizedRelOb β)) : State β :=
  let got := getFromOneDisk d (beginAllocCycle d s.alloc) thisBatch.size
  let e := got.1
  let fresh := s.totalBatchOffsets e.diskNum = none
  let presentBatchVersion := if fresh then e.version else s.presentBatchVersion
  let placed := addressObjects d e e.start 0 thisBatch.relOb
  { s with
    alloc := got.2
    globalWriteWaitList := waiting.map SizedRelOb.relOb
    totalBlocksUsed := s.totalBlocksUsed + thisBatch.size
    totalBatchOffsets := if fresh then update s.totalBatchOffsets e.diskNum (some e.start) else s.totalBatchOffsets
    presentBatchVersion := presentBatchVersion
    versionChange := s.versionChange || presentBatchVersion != e.version
    blockLists := update s.blockLists e.diskNum (s.blockLists e.diskNum ++ placed.flatMap Placed.blocks)
    presentResponseBatch := update s.presentResponseBatch e.diskNum (placed.reverse ++ s.presentResponseBatch e.diskNum) }

/-- A pass of the loop of `formDiskBatches`. -/
def formPass (d : Disks) (f : Forming β) : Forming β :=
  match f.globalWriteWaitList with
  | [] => ⟨[], { f.state with stage := .formed }⟩
  | thisBatch :: rest =>
      let next := nextRelOb d thisBatch rest
      if writeBufferSize d < f.state.totalBlocksUsed + next.1.size then
        ⟨next.1 :: next.2, { f.state with
          globalWriteWaitList := (next.1 :: next.2).map SizedRelOb.relOb, diskBatchesReady := true, stage := .formed }⟩
      else ⟨next.2, formRelOb d f.state next.1 next.2⟩

/-- A group as `processBatch` makes it. -/
def relatedObjects (responses : List (Received β)) : SizedRelOb β := responses.foldl addToRelOb ⟨0, []⟩

/-- What can happen to the list and to the write path, as in `batchSystem`; the responses of a group come one by one. -/
inductive FormEvent (β : Type) where
  | arrive (responses : List (Received β))
  | check
  | form
  | write (deadline : Bool)
  | done

def FormEvent.event : FormEvent β → Event β
  | .arrive responses => .arrive (relatedObjects responses).relOb
  | .check => .check
  | .form => .form
  | .write deadline => .write deadline
  | .done => .done

def formingNext (d : Disks) (f : Forming β) : FormEvent β → Except Disabled (Forming β)
  | .arrive responses => stepIf (f.state.stage = .idle) ⟨f.globalWriteWaitList ++ [relatedObjects responses],
      { f.state with globalWriteWaitList := f.state.globalWriteWaitList ++ [(relatedObjects responses).relOb] }⟩
  | .check => stepIf (f.state.stage = .idle) ⟨f.globalWriteWaitList, { f.state with stage := .forming }⟩
  | .form => stepIf (f.state.stage = .forming) (formPass d f)
  | .write deadline => stepIf (f.state.stage = .formed) ⟨f.globalWriteWaitList, checkBatchWritesNow d f.state deadline⟩
  | .done => stepIf (f.state.stage = .idle ∧ 0 < f.state.batchWriteLock)
      ⟨f.globalWriteWaitList, { f.state with batchWriteLock := f.state.batchWriteLock - 1 }⟩

def formingSystem (d : Disks) : System (Forming β) (FormEvent β) := .ofNext (· = ⟨[], .init⟩) (formingNext d)

/-! ## The sizes -/

/-- The size is that of the responses. -/
def SizedRelOb.WellSized (b : SizedRelOb β) : Prop := b.size = Batches.size b.relOb

theorem size_nil : size ([] : RelOb β) = 0 := rfl

theorem size_cons (r : Response β) (urls : RelOb β) : size (r :: urls) = r.allBlocks.length + size urls := List.sum_cons

theorem size_append (urls urls' : RelOb β) : size (urls ++ urls') = size urls + size urls' := by
  rw [size, List.map_append, List.sum_append]
  rfl

theorem addSorted_perm {α : Type} (value : Int) (data : α) (l : List (Int × α)) : (addSorted value data l).Perm ((value, data) :: l) := by
  induction l with
  | nil => exact .refl _
  | cons present rest ih =>
      unfold addSorted
      split
      · exact (ih.cons present).trans (.swap ..)
      · exact .refl _

theorem wellSized_empty : (⟨0, []⟩ : SizedRelOb β).WellSized := rfl

theorem wellSized_addToRelOb {b : SizedRelOb β} (h : b.WellSized) (r : Received β) : (addToRelOb b r).WellSized := by
  have hperm : ∀ value, size ((addSorted value r b.urls).map fun r => r.2.toResponse) = r.allBlocks.length + size b.relOb := by
    intro value
    have hsum := ((addSorted_perm value r b.urls).map fun r => r.2.toResponse.allBlocks.length).sum_eq
    rw [size, List.map_map]
    exact hsum.trans (by rw [List.map_cons, List.sum_cons, size, SizedRelOb.relOb, List.map_map]; rfl)
  show b.size + r.allBlocks.length = size ((addSorted _ r b.urls).map fun r => r.2.toResponse)
  rw [hperm, h, Nat.add_comm]

theorem relOb_concat (b : SizedRelOb β) (n : Nat) (r : Received β) :
    (⟨n, b.urls ++ [(0, r)]⟩ : SizedRelOb β).relOb = b.relOb ++ [r.toResponse] := by
  rw [SizedRelOb.relOb, List.map_append]
  rfl

theorem splitRelOb_spec {newBatch : SizedRelOb β} (hnew : newBatch.WellSized) {n : Nat} {urls : List (Int × Received β)}
    (hn : n = size (urls.map fun r => r.2.toResponse)) :
    (∀ b ∈ (splitRelOb newBatch n urls).1, b.WellSized) ∧ (splitRelOb newBatch n urls).2.WellSized ∧
      (splitRelOb newBatch n urls).1.map SizedRelOb.relOb = (splitBatch newBatch.relOb (urls.map fun r => r.2.toResponse)).1 ∧
      (splitRelOb newBatch n urls).2.relOb = (splitBatch newBatch.relOb (urls.map fun r => r.2.toResponse)).2 := by
  induction urls generalizing newBatch n with
  | nil => exact ⟨List.forall_mem_singleton.mpr hnew, hn, rfl, rfl⟩
  | cons r urls ih =>
      have hleft : n - r.2.allBlocks.length = size (urls.map fun r => r.2.toResponse) := by
        rw [hn, List.map_cons, size_cons]
        exact Nat.add_sub_cancel_left ..
      have hall : size (r.2.toResponse :: urls.map fun r => r.2.toResponse) = n := hn.symm
      simp only [splitRelOb, List.map_cons, splitBatch]
      rw [← hnew, hall]
      split
      · have hgrown : (⟨newBatch.size + r.2.allBlocks.length, newBatch.urls ++ [(0, r.2)]⟩ : SizedRelOb β).WellSized := by
          rw [SizedRelOb.WellSized, relOb_concat, size_append, size_cons, ← hnew]
          rfl
        have hrest := ih hgrown hleft
        rw [relOb_concat] at hrest
        exact hrest
      · split
        · have hone : (⟨0 + r.2.allBlocks.length, [(0, r.2)]⟩ : SizedRelOb β).WellSized := Nat.zero_add _
          obtain ⟨hparts, hrest, hsplit, hremain⟩ := ih hone hleft
          exact ⟨List.forall_mem_cons.mpr ⟨hnew, hparts⟩, hrest, congrArg (newBatch.relOb :: ·) hsplit, hremain⟩
        · exact ⟨List.forall_mem_singleton.mpr hnew, hn, rfl, rfl⟩

/-- The list says what the one in the state says, and its sizes are right. -/
structure Synced (f : Forming β) : Prop where
  list : f.state.globalWriteWaitList = f.globalWriteWaitList.map SizedRelOb.relOb
  sized : ∀ b ∈ f.globalWriteWaitList, b.WellSized

theorem nextRelOb_spec (d : Disks) {thisBatch : SizedRelOb β} {rest : List (SizedRelOb β)}
    (h : ∀ b ∈ thisBatch :: rest, b.WellSized) :
    (nextRelOb d thisBatch rest).1.WellSized ∧ (∀ b ∈ (nextRelOb d thisBatch rest).2, b.WellSized) ∧
      (nextRelOb d thisBatch rest).1.relOb = (nextBatch d thisBatch.relOb (rest.map SizedRelOb.relOb)).1 ∧
      (nextRelOb d thisBatch rest).2.map SizedRelOb.relOb = (nextBatch d thisBatch.relOb (rest.map SizedRelOb.relOb)).2 := by
  obtain ⟨hthis, hrest⟩ := List.forall_mem_cons.mp h
  unfold nextRelOb nextBatch
  rw [← hthis]
  split
  · obtain ⟨hparts, hleft, hsplit, hremain⟩ := @splitRelOb_spec _ _ wellSized_empty _ thisBatch.urls hthis
    refine ⟨hleft, fun b hb => (List.mem_append.mp hb).elim (hrest b) (hparts b), hremain, ?_⟩
    exact List.map_append.trans (congrArg (rest.map SizedRelOb.relOb ++ ·) hsplit)
  · exact ⟨hthis, hrest, rfl, rfl⟩

theorem formDiskBatches_nil (d : Disks) {s : State β} (h : s.globalWriteWaitList = []) :
    formDiskBatches d s = ({ s with stage := .formed }, []) := by
  unfold formDiskBatches
  split
  · rfl
  · next hcons => exact absurd (h.symm.trans hcons) (by simp)

theorem formDiskBatches_cons (d : Disks) {s : State β} {thisBatch : RelOb β} {rest : List (RelOb β)}
    (h : s.globalWriteWaitList = thisBatch :: rest) :
    formDiskBatches d s =
      if writeBufferSize d < s.totalBlocksUsed + size (nextBatch d thisBatch rest).1 then
        ({ s with
            globalWriteWaitList := (nextBatch d thisBatch rest).1 :: (nextBatch d thisBatch rest).2
            diskBatchesReady := true
            stage := .formed }, [])
      else formBatch d s (nextBatch d thisBatch rest).1 (nextBatch d thisBatch rest).2 := by
  unfold formDiskBatches
  split
  · next hnil => exact absurd (hnil.symm.trans h) (by simp)
  · next hcons =>
      obtain ⟨rfl, rfl⟩ := List.cons.inj (hcons.symm.trans h)
      rfl

theorem Synced.formPass (d : Disks) {f : Forming β} (h : Synced f) :
    Synced (formPass d f) ∧ (formPass d f).state = (formDiskBatches d f.state).1 := by
  obtain ⟨list, s⟩ := f
  obtain ⟨hlist, hsized⟩ := h
  change s.globalWriteWaitList = list.map SizedRelOb.relOb at hlist
  cases list with
  | nil =>
      rw [formDiskBatches_nil d hlist]
      exact ⟨⟨hlist, hsized⟩, rfl⟩
  | cons thisBatch rest =>
      obtain ⟨hfirst, hsecond, hnext, hwaiting⟩ := nextRelOb_spec d hsized
      rw [formDiskBatches_cons d hlist, ← hnext, ← hwaiting, ← hfirst]
      simp only [Batches.formPass]
      split
      · exact ⟨⟨rfl, List.forall_mem_cons.mpr ⟨hfirst, hsecond⟩⟩, rfl⟩
      · refine ⟨⟨rfl, hsecond⟩, ?_⟩
        simp only [formRelOb, formBatch]
        rw [hfirst]

/-! ## The parts of a group -/

theorem splitBatch_flatten (newBatch urls : RelOb β) : (splitBatch newBatch urls).1.flatten ++ (splitBatch newBatch urls).2 =
    newBatch ++ urls := by
  induction urls generalizing newBatch with
  | nil => simp [splitBatch]
  | cons r urls ih =>
      rw [splitBatch]
      split
      · rw [ih, List.append_assoc, List.singleton_append]
      · split
        · rw [List.flatten_cons, List.append_assoc, ih [r], List.singleton_append]
        · simp

/-- The objects but the last are below the limit. -/
def Open (part : RelOb β) : Prop := ∀ urls r rest, part = urls ++ r :: rest → size urls < maxBatchSize

theorem open_nil : Open ([] : RelOb β) := by
  intro urls r rest h
  simp at h

theorem size_nil_lt : size ([] : RelOb β) < maxBatchSize := show 0 < maxBatchSize by decide

theorem Open.concat {part : RelOb β} (h : Open part) (hsmall : size part < maxBatchSize) (r : Response β) : Open (part ++ [r]) := by
  intro urls x rest heq
  rcases List.eq_nil_or_concat rest with rfl | ⟨rest', y, rfl⟩
  · rwa [← (List.append_inj' heq rfl).1]
  · rw [List.concat_eq_append, ← List.cons_append, ← List.append_assoc] at heq
    exact h urls x rest' (List.append_inj' heq rfl).1

theorem open_splitBatch {newBatch : RelOb β} (h : Open newBatch) (urls : RelOb β) : ∀ part ∈ (splitBatch newBatch urls).1, Open part := by
  induction urls generalizing newBatch with
  | nil => exact List.forall_mem_singleton.mpr h
  | cons r urls ih =>
      rw [splitBatch]
      split
      · next hsmall => exact ih (h.concat hsmall r)
      · split
        · exact List.forall_mem_cons.mpr ⟨h, ih (open_nil.concat size_nil_lt r)⟩
        · exact List.forall_mem_singleton.mpr h

theorem splitBatch_of_open (urls rest : RelOb β) (h : Open (urls ++ rest)) : splitBatch urls rest = ([urls ++ rest], []) := by
  induction rest generalizing urls with
  | nil => rw [splitBatch, List.append_nil]
  | cons r rest ih =>
      have hconcat : urls ++ r :: rest = urls ++ [r] ++ rest := by simp
      rw [splitBatch, if_pos (h urls r rest rfl), hconcat]
      exact ih _ (hconcat ▸ h)

/-! ## When the loop returns -/

/-- The sizes of the objects of a group. -/
def objectSizes (urls : RelOb β) : List Nat := urls.map fun r => r.allBlocks.length

/-- A row of objects is cut after the one that reaches `MAX_BATCH_SIZE`, for as long as what is left is above that: the sizes of
the parts and of what is left. -/
def cutSizes (part : Nat) : List Nat → List Nat × Nat
  | [] => ([part], 0)
  | n :: sizes =>
      if part < maxBatchSize then cutSizes (part + n) sizes
      else if maxBatchSize < (n :: sizes).sum then
        let rest := cutSizes n sizes
        (part :: rest.1, rest.2)
      else ([part], (n :: sizes).sum)

/-- A group is cut if it is larger than the write buffer. -/
def groupSizes (d : Disks) (sizes : List Nat) : List Nat × Nat :=
  if writeBufferSize d < sizes.sum then cutSizes 0 sizes else ([], sizes.sum)

/-- What comes of a group in pieces that are not larger than the write buffer. -/
def usable (d : Disks) (sizes : List Nat) : Nat :=
  (groupSizes d sizes).2 + ((groupSizes d sizes).1.filter (· ≤ writeBufferSize d)).sum

/-- All parts of the groups fit into the write buffer, or what fits is more than the room that is left in it. -/
def FitsBuffer (d : Disks) (used : Nat) (groups : List (List Nat)) : Prop :=
  (∀ sizes ∈ groups, ∀ n ∈ (groupSizes d sizes).1, n ≤ writeBufferSize d) ∨ writeBufferSize d < used + (groups.map (usable d)).sum

instance (d : Disks) (used : Nat) (groups : List (List Nat)) : Decidable (FitsBuffer d used groups) :=
  inferInstanceAs (Decidable (_ ∨ _))

theorem cutSizes_splitBatch (newBatch urls : RelOb β) :
    cutSizes (size newBatch) (objectSizes urls) = ((splitBatch newBatch urls).1.map size, size (splitBatch newBatch urls).2) := by
  induction urls generalizing newBatch with
  | nil => rfl
  | cons r urls ih =>
      have hall : (r.allBlocks.length :: objectSizes urls).sum = size (r :: urls) := rfl
      have hgrown : size (newBatch ++ [r]) = size newBatch + r.allBlocks.length := by
        rw [size_append, size_cons, size_nil, Nat.add_zero]
      have hone : size [r] = r.allBlocks.length := by rw [size_cons, size_nil, Nat.add_zero]
      show cutSizes _ (r.allBlocks.length :: objectSizes urls) = _
      rw [cutSizes, splitBatch, hall]
      split
      · rw [← ih, hgrown]
      · split
        · have hrest := ih [r]
          rw [hone] at hrest
          simp only [hrest, List.map_cons]
        · rfl

/-- What becomes of the first group of the list, as far as sizes go. -/
def visit (d : Disks) (used : Nat) (thisBatch : RelOb β) : Option (Nat × List (RelOb β)) :=
  let next := nextBatch d thisBatch []
  if writeBufferSize d < used + size next.1 then none else some (used + size next.1, next.2)

/-- The group is as it was when it was split. -/
def Stuck (d : Disks) (part : RelOb β) : Prop := nextBatch d part [] = ([], [part]) ∧ writeBufferSize d < size part

section Parts

variable {d : Disks} {urls part : RelOb β}

theorem nextBatch_rest (d : Disks) (thisBatch : RelOb β) (rest : List (RelOb β)) :
    nextBatch d thisBatch rest = ((nextBatch d thisBatch []).1, rest ++ (nextBatch d thisBatch []).2) := by
  unfold nextBatch
  split <;> simp

theorem nextBatch_of_le (h : size part ≤ writeBufferSize d) : nextBatch d part [] = (part, []) := if_neg (Nat.not_lt.mpr h)

theorem groupSizes_nextBatch (d : Disks) (urls : RelOb β) :
    groupSizes d (objectSizes urls) = ((nextBatch d urls []).2.map size, size (nextBatch d urls []).1) := by
  have hcut := cutSizes_splitBatch [] urls
  have hsum : (objectSizes urls).sum = size urls := rfl
  rw [size_nil] at hcut
  unfold groupSizes nextBatch
  rw [hsum]
  split
  · exact hcut
  · rfl

theorem stuck_of_mem (hpart : part ∈ (nextBatch d urls []).2) (hlarge : writeBufferSize d < size part) : Stuck d part := by
  have hopen : Open part := by
    unfold nextBatch at hpart
    split at hpart
    · exact open_splitBatch open_nil urls part (by simpa using hpart)
    · exact absurd hpart List.not_mem_nil
  refine ⟨?_, hlarge⟩
  unfold nextBatch
  rw [if_pos hlarge, splitBatch_of_open [] part hopen]
  rfl

theorem Stuck.groupSizes (h : Stuck d part) : groupSizes d (objectSizes part) = ([size part], 0) := by
  rw [groupSizes_nextBatch, h.1]
  rfl

theorem Stuck.usable (h : Stuck d part) : usable d (objectSizes part) = 0 := by
  have hnot : ¬size part ≤ writeBufferSize d := Nat.not_le.mpr h.2
  rw [Batches.usable, h.groupSizes]
  simp [hnot]

theorem part_sizes (hpart : part ∈ (nextBatch d urls []).2) :
    usable d (objectSizes part) = (if size part ≤ writeBufferSize d then size part else 0) ∧
      ((∀ n ∈ (Batches.groupSizes d (objectSizes part)).1, n ≤ writeBufferSize d) ↔ size part ≤ writeBufferSize d) := by
  by_cases hsmall : size part ≤ writeBufferSize d
  · have hgroup : Batches.groupSizes d (objectSizes part) = ([], size part) := by
      rw [groupSizes_nextBatch, nextBatch_of_le hsmall]
      rfl
    rw [Batches.usable, hgroup, if_pos hsmall]
    simp [hsmall]
  · have hstuck := stuck_of_mem hpart (Nat.lt_of_not_le hsmall)
    rw [hstuck.usable, hstuck.groupSizes, if_neg hsmall]
    simp

end Parts

theorem visit_eq_some {d : Disks} {used used' : Nat} {thisBatch : RelOb β} {parts : List (RelOb β)}
    (h : visit d used thisBatch = some (used', parts)) :
    used' = used + size (nextBatch d thisBatch []).1 ∧ parts = (nextBatch d thisBatch []).2 := by
  simp only [visit] at h
  split at h
  · cases h
  · cases h
    exact ⟨rfl, rfl⟩

open Classical in
/-- A group that is not stuck counts, with its parts that are not. -/
noncomputable def weight (d : Disks) (urls : RelOb β) : Nat :=
  if Stuck d urls then 0 else ((nextBatch d urls []).2.filter fun part => ¬Stuck d part).length + 1

theorem weight_part {d : Disks} {urls part : RelOb β} (hpart : part ∈ (nextBatch d urls []).2) (hnot : ¬Stuck d part) :
    weight d part = 1 := by
  have hsmall : size part ≤ writeBufferSize d := Nat.le_of_not_lt fun hlarge => hnot (stuck_of_mem hpart hlarge)
  rw [weight, if_neg hnot, nextBatch_of_le hsmall]
  rfl

theorem weighted (d : Disks) : Worklist.Weighted (visit (β := β) d) (Stuck d) (weight d) where
  round := by
    intro used part used' parts hstuck hvisit
    obtain ⟨rfl, rfl⟩ := visit_eq_some hvisit
    rw [hstuck.1]
    exact ⟨rfl, rfl⟩
  lighter := by
    classical
    intro used urls used' parts hnot hvisit
    obtain ⟨-, rfl⟩ := visit_eq_some hvisit
    have hparts (l : List (RelOb β)) (hl : ∀ part ∈ l, part ∈ (nextBatch d urls []).2) :
        (l.map (weight d)).sum = (l.filter fun part => ¬Stuck d part).length := by
      induction l with
      | nil => rfl
      | cons part l ih =>
          obtain ⟨hpart, hrest⟩ := List.forall_mem_cons.mp hl
          rw [List.map_cons, List.sum_cons, ih hrest, List.filter_cons]
          by_cases hstuck : Stuck d part
          · simp [weight, hstuck]
          · rw [weight_part hpart hstuck]
            simp [hstuck, Nat.add_comm]
    rw [hparts _ fun _ hpart => hpart, weight, if_neg hnot]
    exact Nat.lt_succ_self _

/-- What `FitsBuffer` says of the groups on the list. -/
def Fits (d : Disks) (c : Nat × List (RelOb β)) : Prop := FitsBuffer d c.1 (c.2.map objectSizes)

/-- What is usable of the parts of a group is what is usable of the group but for what is left of it. -/
theorem usable_parts (d : Disks) (urls : RelOb β) :
    usable d (objectSizes urls) =
      size (nextBatch d urls []).1 + (((nextBatch d urls []).2.map objectSizes).map (usable d)).sum := by
  have hparts (l : List (RelOb β)) (hl : ∀ part ∈ l, part ∈ (nextBatch d urls []).2) :
      ((l.map objectSizes).map (usable d)).sum = ((l.map size).filter (· ≤ writeBufferSize d)).sum := by
    induction l with
    | nil => rfl
    | cons part l ih =>
        obtain ⟨hpart, hrest⟩ := List.forall_mem_cons.mp hl
        simp only [List.map_cons, List.sum_cons, ih hrest, (part_sizes hpart).1, List.filter_cons]
        by_cases hsmall : size part ≤ writeBufferSize d
        · simp [hsmall]
        · simp [hsmall]
  rw [hparts _ fun _ hpart => hpart, usable, groupSizes_nextBatch]

theorem fits_pass (d : Disks) (c c' : Nat × List (RelOb β)) (h : Worklist.pass (visit d) c = some c') : Fits d c ↔ Fits d c' := by
  obtain ⟨used, l⟩ := c
  obtain ⟨used', l'⟩ := c'
  cases l with
  | nil => cases h
  | cons urls l =>
      obtain ⟨parts, hvisit, rfl⟩ := Worklist.pass_cons_eq_some h
      obtain ⟨rfl, rfl⟩ := visit_eq_some hvisit
      have hgroup : (groupSizes d (objectSizes urls)).1 = (nextBatch d urls []).2.map size := by rw [groupSizes_nextBatch]
      have hall : (∀ n ∈ (groupSizes d (objectSizes urls)).1, n ≤ writeBufferSize d) ↔
          ∀ part ∈ (nextBatch d urls []).2, ∀ n ∈ (groupSizes d (objectSizes part)).1, n ≤ writeBufferSize d := by
        rw [hgroup, List.forall_mem_map]
        exact forall₂_congr fun part hpart => (part_sizes hpart).2.symm
      have hsum : used + ((objectSizes urls :: l.map objectSizes).map (usable d)).sum =
          used + size (nextBatch d urls []).1 + ((l.map objectSizes ++ (nextBatch d urls []).2.map objectSizes).map (usable d)).sum := by
        rw [List.map_cons, List.sum_cons, usable_parts, List.map_append, List.sum_append]
        omega
      unfold Fits FitsBuffer
      simp only [List.map_cons, List.map_append] at hsum ⊢
      rw [hsum, List.forall_mem_cons, List.forall_mem_append, hall, List.forall_mem_map (l := (nextBatch d urls []).2), and_comm]

theorem fits_of_stop (d : Disks) (c : Nat × List (RelOb β)) (h : Worklist.pass (visit d) c = none) : Fits d c := by
  obtain ⟨used, l⟩ := c
  cases l with
  | nil => exact .inl fun _ hsizes => absurd hsizes List.not_mem_nil
  | cons urls l =>
      have hvisit : visit d used urls = none := Option.map_eq_none_iff.mp h
      simp only [visit] at hvisit
      split at hvisit
      · next hfull =>
          refine .inr (hfull.trans_le ?_)
          simp only [List.map_cons, List.sum_cons, usable_parts]
          omega
      · cases hvisit

theorem not_fits_of_stuck (d : Disks) (used : Nat) (l : List (RelOb β)) (hne : l ≠ []) (hstuck : ∀ part ∈ l, Stuck d part)
    (hpass : Worklist.pass (visit d) (used, l) ≠ none) : ¬Fits d (used, l) := by
  obtain ⟨part, rest, rfl⟩ := List.exists_cons_of_ne_nil hne
  have hfirst := hstuck part List.mem_cons_self
  rintro (hsmall | hmore)
  · have hpart := hsmall (objectSizes part) (List.mem_map_of_mem List.mem_cons_self) (size part)
      (by rw [hfirst.groupSizes]; exact List.mem_singleton_self _)
    exact absurd hfirst.2 (Nat.not_lt.mpr hpart)
  · have hzero : (((part :: rest).map objectSizes).map (usable d)).sum = 0 := by
      rw [List.sum_eq_zero_iff]
      intro n hn
      obtain ⟨sizes, hsizes, rfl⟩ := List.mem_map.mp hn
      obtain ⟨part', hpart', rfl⟩ := List.mem_map.mp hsizes
      exact (hstuck part' hpart').usable
    refine hpass ?_
    change writeBufferSize d < used + (((part :: rest).map objectSizes).map (usable d)).sum at hmore
    rw [hzero] at hmore
    refine Option.map_eq_none_iff.mpr (if_pos ?_)
    rw [hfirst.1]
    exact hmore

theorem returns_iff_fits (d : Disks) (c : Nat × List (RelOb β)) : Worklist.Returns (visit d) c ↔ Fits d c :=
  Worklist.returns_iff (weighted d) (fits_pass d) (not_fits_of_stuck d) (fits_of_stop d) c

/-! ## What a pass keeps -/

/-- The blocks on all lists, in the order in which they are copied. -/
def waitingBlocks (d : Disks) (s : State β) : List (Block β) := (List.range d.numDisks).flatMap s.blockLists

/-- How far `writeBufferOffset` gets in `checkBatchWritesNow`. -/
def copyEnd (d : Disks) (s : State β) : Nat :=
  (List.range d.numDisks).foldl (fun writeBufferOffset i => (s.blockLists i).foldl (fun off _ => off + fileBlockSize) writeBufferOffset) 0

/-- The room of the write buffer is counted right. -/
structure Room (d : Disks) (s : State β) : Prop where
  lanes : Lanes d s.alloc
  used : (waitingBlocks d s).length = s.totalBlocksUsed
  room : s.totalBlocksUsed ≤ writeBufferSize d

/-- Objects were placed, on each disk in order and as a whole; the others wait. -/
structure Conserved (d : Disks) (s t : State β) (placed : Nat → List (Placed β)) : Prop where
  lists : ∀ i, t.blockLists i = s.blockLists i ++ (placed i).flatMap Placed.blocks
  data : ∀ i, ∀ p ∈ placed i, p.blocks.map Block.data = p.response.allBlocks
  outside : ∀ i, d.numDisks ≤ i → placed i = []
  responses : (t.globalWriteWaitList.flatten ++ ((List.range d.numDisks).flatMap placed).map Placed.response).Perm
    s.globalWriteWaitList.flatten

theorem foldl_offset {α : Type} (l : List α) (off : Nat) : l.foldl (fun off _ => off + fileBlockSize) off =
    off + l.length * fileBlockSize := by
  induction l generalizing off with
  | nil => simp
  | cons b l ih =>
      rw [List.foldl_cons, ih, List.length_cons]
      ring

theorem copyEnd_eq (d : Disks) (s : State β) : copyEnd d s = (waitingBlocks d s).length * fileBlockSize := by
  have hall (l : List Nat) (off : Nat) :
      l.foldl (fun writeBufferOffset i => (s.blockLists i).foldl (fun off _ => off + fileBlockSize) writeBufferOffset) off =
        off + (l.flatMap s.blockLists).length * fileBlockSize := by
    induction l generalizing off with
    | nil => simp
    | cons i l ih =>
        rw [List.foldl_cons, ih, foldl_offset, List.flatMap_cons, List.length_append]
        ring
  rw [copyEnd, hall, Nat.zero_add]
  rfl

theorem flatMap_update_perm {α : Type} (lists : Nat → List α) {n k : Nat} (hk : k < n) (new : List α) :
    ((List.range n).flatMap (update lists k (lists k ++ new))).Perm ((List.range n).flatMap lists ++ new) := by
  induction n with
  | zero => exact absurd hk (Nat.not_lt_zero _)
  | succ n ih =>
      rw [List.range_succ, List.flatMap_append, List.flatMap_append, List.flatMap_singleton, List.flatMap_singleton]
      by_cases heq : k = n
      · subst heq
        have hbefore : (List.range k).flatMap (update lists k (lists k ++ new)) = (List.range k).flatMap lists := by
          refine List.flatMap_congr fun i hi => ?_
          exact update_of_ne (List.mem_range.mp hi).ne _ _
        rw [hbefore, update_self, List.append_assoc]
      · rw [update_of_ne (Ne.symm heq)]
        have hrest := (ih (by omega)).append_right (lists n)
        refine hrest.trans ?_
        rw [List.append_assoc, List.append_assoc]
        exact List.perm_append_comm.append_left _

theorem addressObjects_response (d : Disks) (e : Extent) (thisStart thisUsed : Nat) (urls : RelOb β) :
    (addressObjects d e thisStart thisUsed urls).map Placed.response = urls := by
  induction urls generalizing thisStart thisUsed with
  | nil => rfl
  | cons r urls ih => rw [addressObjects, List.map_cons, ih]

theorem nextBatch_perm (d : Disks) (thisBatch : RelOb β) (rest : List (RelOb β)) :
    ((nextBatch d thisBatch rest).1 ++ (nextBatch d thisBatch rest).2.flatten).Perm (thisBatch ++ rest.flatten) := by
  unfold nextBatch
  split
  · have hsplit := splitBatch_flatten [] thisBatch
    rw [List.nil_append] at hsplit
    simp only [List.flatten_append]
    calc ((splitBatch [] thisBatch).2 ++ (rest.flatten ++ (splitBatch [] thisBatch).1.flatten)).Perm
          ((rest.flatten ++ (splitBatch [] thisBatch).1.flatten) ++ (splitBatch [] thisBatch).2) := List.perm_append_comm
      _ = rest.flatten ++ thisBatch := by rw [List.append_assoc, hsplit]
      _ |>.Perm (thisBatch ++ rest.flatten) := List.perm_append_comm
  · exact .refl _

theorem Conserved.refl (d : Disks) (s : State β) : Conserved d s s fun _ => [] where
  lists := fun i => (List.append_nil _).symm
  data := fun _ _ hp => absurd hp List.not_mem_nil
  outside := fun _ _ => rfl
  responses := by
    have hnil : (List.range d.numDisks).flatMap (fun _ => ([] : List (Placed β))) = [] := List.flatMap_eq_nil_iff.mpr fun _ _ => rfl
    rw [hnil, List.map_nil, List.append_nil]

theorem Conserved.formBatch {d : Disks} {s t : State β} {placed : Nat → List (Placed β)} (h : Conserved d s t placed)
    (hlanes : Lanes d t.alloc) {thisBatch : RelOb β} {waiting : List (RelOb β)}
    (hperm : (thisBatch ++ waiting.flatten).Perm t.globalWriteWaitList.flatten) :
    Conserved d s (formBatch d t thisBatch waiting).1
      (update placed (beginAllocCycle d t.alloc).presentDisk
        (placed (beginAllocCycle d t.alloc).presentDisk ++ (formBatch d t thisBatch waiting).2)) := by
  have hturn : (beginAllocCycle d t.alloc).presentDisk < d.numDisks := hlanes.beginAllocCycle.turn
  have hlists : (Batches.formBatch d t thisBatch waiting).1.blockLists =
      update t.blockLists (beginAllocCycle d t.alloc).presentDisk
        (t.blockLists (beginAllocCycle d t.alloc).presentDisk ++
          (Batches.formBatch d t thisBatch waiting).2.flatMap Placed.blocks) := rfl
  have hnew : (Batches.formBatch d t thisBatch waiting).2.map Placed.response = thisBatch := addressObjects_response ..
  refine ⟨fun i => ?_, fun i p hp => ?_, fun i hi => ?_, ?_⟩
  · rw [hlists]
    by_cases hdisk : i = (beginAllocCycle d t.alloc).presentDisk
    · rw [hdisk, update_self, update_self, h.lists, List.flatMap_append, List.append_assoc]
    · rw [update_of_ne hdisk, update_of_ne hdisk, h.lists]
  · by_cases hdisk : i = (beginAllocCycle d t.alloc).presentDisk
    · rw [hdisk, update_self] at hp
      rcases List.mem_append.mp hp with hold | hnew
      · exact h.data _ p hold
      · exact (whole_addressObjects hnew).data
    · rw [update_of_ne hdisk] at hp
      exact h.data i p hp
  · rw [update_of_ne (by omega)]
    exact h.outside i hi
  · have hplaced := (flatMap_update_perm placed hturn (Batches.formBatch d t thisBatch waiting).2).map Placed.response
    rw [List.map_append, hnew] at hplaced
    calc (waiting.flatten ++ _).Perm (waiting.flatten ++ (((List.range d.numDisks).flatMap placed).map Placed.response ++ thisBatch)) :=
          hplaced.append_left _
      _ |>.Perm (thisBatch ++ waiting.flatten ++ ((List.range d.numDisks).flatMap placed).map Placed.response) := by
          rw [← List.append_assoc]
          exact List.perm_append_comm.trans (List.append_assoc .. ▸ .refl _)
      _ |>.Perm (t.globalWriteWaitList.flatten ++ ((List.range d.numDisks).flatMap placed).map Placed.response) := hperm.append_right _
      _ |>.Perm s.globalWriteWaitList.flatten := h.responses

theorem Room.formBatch {d : Disks} {t : State β} (h : Room d t) {thisBatch : RelOb β} (waiting : List (RelOb β))
    (hroom : t.totalBlocksUsed + size thisBatch ≤ writeBufferSize d) : Room d (formBatch d t thisBatch waiting).1 where
  lanes := h.lanes.beginAllocCycle.getFromOneDisk _
  used := by
    have hlength : ((Batches.formBatch d t thisBatch waiting).2.flatMap Placed.blocks).length = size thisBatch := addressObjects_length ..
    have hperm := flatMap_update_perm t.blockLists h.lanes.beginAllocCycle.turn
      ((Batches.formBatch d t thisBatch waiting).2.flatMap Placed.blocks)
    calc (waitingBlocks d (Batches.formBatch d t thisBatch waiting).1).length
        = (waitingBlocks d t ++ (Batches.formBatch d t thisBatch waiting).2.flatMap Placed.blocks).length := hperm.length_eq
      _ = t.totalBlocksUsed + size thisBatch := by rw [List.length_append, h.used, hlength]
  room := hroom

theorem Conserved.formDiskBatches {d : Disks} {s t : State β} {placed : Nat → List (Placed β)} (h : Conserved d s t placed)
    (hroom : Room d t) : (∃ placed', Conserved d s (formDiskBatches d t).1 placed') ∧ Room d (formDiskBatches d t).1 := by
  cases hlist : t.globalWriteWaitList with
  | nil =>
      rw [formDiskBatches_nil d hlist]
      exact ⟨⟨placed, h.lists, h.data, h.outside, h.responses⟩, hroom.lanes, hroom.used, hroom.room⟩
  | cons thisBatch rest =>
      have hperm := nextBatch_perm d thisBatch rest
      have hall : t.globalWriteWaitList.flatten = thisBatch ++ rest.flatten := by rw [hlist, List.flatten_cons]
      rw [formDiskBatches_cons d hlist]
      split
      · refine ⟨⟨placed, h.lists, h.data, h.outside, ?_⟩, hroom.lanes, hroom.used, hroom.room⟩
        exact ((hperm.trans (hall ▸ .refl _)).append_right _).trans h.responses
      · next hfull =>
          exact ⟨⟨_, h.formBatch hroom.lanes (hperm.trans (hall ▸ .refl _))⟩, hroom.formBatch _ (Nat.le_of_not_lt hfull)⟩

theorem room_invariant (d : Disks) : (batchSystem (β := β) d).Invariant (Room d) where
  init := by
    rintro s rfl
    refine ⟨lanes_init d, ?_, Nat.zero_le _⟩
    have hnil : (List.range d.numDisks).flatMap (fun _ => ([] : List (Block β))) = [] := List.flatMap_eq_nil_iff.mpr fun _ _ => rfl
    exact congrArg List.length hnil
  step := by
    intro s e s' hroom hstep
    cases e with
    | arrive urls =>
        obtain ⟨_, rfl⟩ := stepIf_eq_ok hstep
        exact ⟨hroom.lanes, hroom.used, hroom.room⟩
    | check =>
        obtain ⟨_, rfl⟩ := stepIf_eq_ok hstep
        exact ⟨hroom.lanes, hroom.used, hroom.room⟩
    | form =>
        obtain ⟨_, rfl⟩ := stepIf_eq_ok hstep
        exact ((Conserved.refl d s).formDiskBatches hroom).2
    | write deadline =>
        obtain ⟨_, rfl⟩ := stepIf_eq_ok hstep
        unfold checkBatchWritesNow
        split
        · refine ⟨hroom.lanes, ?_, Nat.zero_le _⟩
          refine List.length_eq_zero_iff.mpr (List.flatMap_eq_nil_iff.mpr fun i hi => ?_)
          exact if_pos (List.mem_range.mp hi)
        · exact ⟨hroom.lanes, hroom.used, hroom.room⟩
    | done =>
        obtain ⟨_, rfl⟩ := stepIf_eq_ok hstep
        exact ⟨hroom.lanes, hroom.used, hroom.room⟩

/-! ## Runs of the loop -/

/-- A pass as `visit` sees it. -/
theorem formDiskBatches_visit (d : Disks) (s : State β) :
    (Worklist.pass (visit d) (s.totalBlocksUsed, s.globalWriteWaitList) = none ∧ (formDiskBatches d s).1.stage = .formed) ∨
      (Worklist.pass (visit d) (s.totalBlocksUsed, s.globalWriteWaitList) =
          some ((formDiskBatches d s).1.totalBlocksUsed, (formDiskBatches d s).1.globalWriteWaitList) ∧
        (formDiskBatches d s).1.stage = s.stage) := by
  cases hlist : s.globalWriteWaitList with
  | nil =>
      rw [formDiskBatches_nil d hlist]
      exact .inl ⟨rfl, rfl⟩
  | cons thisBatch rest =>
      rw [formDiskBatches_cons d hlist, nextBatch_rest d thisBatch rest]
      simp only [Worklist.pass, visit]
      split
      · exact .inl ⟨rfl, rfl⟩
      · exact .inr ⟨rfl, rfl⟩

/-- `n` passes. -/
def passes (d : Disks) (n : Nat) (s : State β) : State β := (fun s => (formDiskBatches d s).1)^[n] s

theorem returns_iff_formed (d : Disks) {s : State β} (hforming : s.stage = .forming) :
    Worklist.Returns (visit d) (s.totalBlocksUsed, s.globalWriteWaitList) ↔ ∃ n, (passes d n s).stage = .formed := by
  constructor
  · intro h
    generalize hc : (s.totalBlocksUsed, s.globalWriteWaitList) = c at h
    induction h generalizing s with
    | stop h =>
        subst hc
        obtain ⟨-, hformed⟩ | ⟨hsome, -⟩ := formDiskBatches_visit d s
        · exact ⟨1, hformed⟩
        · rw [h] at hsome
          cases hsome
    | step h _ ih =>
        subst hc
        obtain ⟨hnone, -⟩ | ⟨hsome, hstage⟩ := formDiskBatches_visit d s
        · rw [h] at hnone
          cases hnone
        · obtain ⟨n, hn⟩ := ih (hstage.trans hforming) (Option.some.inj (hsome.symm.trans h))
          exact ⟨n + 1, hn⟩
  · rintro ⟨n, hn⟩
    induction n generalizing s with
    | zero =>
        change s.stage = .formed at hn
        rw [hforming] at hn
        cases hn
    | succ n ih =>
        obtain ⟨hnone, -⟩ | ⟨hsome, hstage⟩ := formDiskBatches_visit d s
        · exact .stop hnone
        · exact .step hsome (ih (hstage.trans hforming) hn)

theorem Synced.iterate {d : Disks} {f : Forming β} (h : Synced f) (n : Nat) :
    Synced ((Batches.formPass d)^[n] f) ∧ ((Batches.formPass d)^[n] f).state = passes d n f.state := by
  induction n generalizing f with
  | zero => exact ⟨h, rfl⟩
  | succ n ih =>
      obtain ⟨hsynced, hstate⟩ := h.formPass d
      obtain ⟨hlast, heq⟩ := ih hsynced
      rw [hstate] at heq
      exact ⟨hlast, heq⟩

/-- What holds after any number of passes: no response is lost or placed twice, the sizes are right, and the blocks fit into the
write buffer, the copies that `checkBatchWritesNow` makes of them too. -/
structure Kept (d : Disks) (f t : Forming β) : Prop where
  placed : ∃ placed, Conserved d f.state t.state placed
  waiting : t.state.globalWriteWaitList = t.globalWriteWaitList.map SizedRelOb.relOb
  sizes : ∀ b ∈ t.globalWriteWaitList, b.size = (b.urls.map fun r => r.2.allBlocks.length).sum
  room : (waitingBlocks d t.state).length ≤ writeBufferSize d
  copy : copyEnd d t.state ≤ writeBufferSize d * fileBlockSize

theorem kept_iterate {d : Disks} {f : Forming β} (hroom : Room d f.state) (h : Synced f) (n : Nat) :
    Kept d f ((formPass d)^[n] f) := by
  have hall : (∃ placed, Conserved d f.state (passes d n f.state) placed) ∧ Room d (passes d n f.state) := by
    induction n with
    | zero => exact ⟨⟨_, .refl d f.state⟩, hroom⟩
    | succ n ih =>
        obtain ⟨⟨placed, hplaced⟩, hbefore⟩ := ih
        rw [passes, Function.iterate_succ_apply']
        exact hplaced.formDiskBatches hbefore
  obtain ⟨hsynced, hstate⟩ := h.iterate (d := d) n
  rw [← hstate] at hall
  have hlength : (waitingBlocks d ((formPass d)^[n] f).state).length ≤ writeBufferSize d := hall.2.used.trans_le hall.2.room
  refine ⟨hall.1, hsynced.list, fun b hb => ?_, hlength, ?_⟩
  · have hsize := hsynced.sized b hb
    rw [SizedRelOb.WellSized, SizedRelOb.relOb, size, List.map_map] at hsize
    exact hsize
  · rw [copyEnd_eq]
    exact Nat.mul_le_mul_right _ hlength

theorem wellSized_relatedObjects (responses : List (Received β)) : (relatedObjects responses).WellSized := by
  have hfold (b : SizedRelOb β) (hb : b.WellSized) : (responses.foldl addToRelOb b).WellSized := by
    induction responses generalizing b with
    | nil => exact hb
    | cons r responses ih => exact ih _ (wellSized_addToRelOb hb r)
  exact hfold _ wellSized_empty

theorem checkBatchWritesNow_waiting (d : Disks) (s : State β) (deadline : Bool) :
    (checkBatchWritesNow d s deadline).globalWriteWaitList = s.globalWriteWaitList := by
  unfold checkBatchWritesNow
  split <;> rfl

theorem Synced.next {d : Disks} {f f' : Forming β} {e : FormEvent β} (h : Synced f) (hnext : formingNext d f e = .ok f') :
    Synced f' ∧ batchNext d f.state e.event = .ok f'.state := by
  cases e with
  | arrive responses =>
      obtain ⟨hidle, rfl⟩ := stepIf_eq_ok hnext
      refine ⟨⟨?_, ?_⟩, if_pos hidle⟩
      · simp [h.list]
      · intro b hb
        rcases List.mem_append.mp hb with hold | hnew
        · exact h.sized b hold
        · rw [List.mem_singleton.mp hnew]
          exact wellSized_relatedObjects responses
  | check =>
      obtain ⟨hidle, rfl⟩ := stepIf_eq_ok hnext
      exact ⟨⟨h.list, h.sized⟩, if_pos hidle⟩
  | form =>
      obtain ⟨hforming, rfl⟩ := stepIf_eq_ok hnext
      obtain ⟨hsynced, hstate⟩ := h.formPass d
      rw [hstate]
      exact ⟨hsynced, if_pos hforming⟩
  | write deadline =>
      obtain ⟨hformed, rfl⟩ := stepIf_eq_ok hnext
      exact ⟨⟨(checkBatchWritesNow_waiting d f.state deadline).trans h.list, h.sized⟩, if_pos hformed⟩
  | done =>
      obtain ⟨hdone, rfl⟩ := stepIf_eq_ok hnext
      exact ⟨⟨h.list, h.sized⟩, if_pos hdone⟩

theorem forming_invariant (d : Disks) : (formingSystem (β := β) d).Invariant fun f => Synced f ∧ Room d f.state where
  init := by
    rintro f rfl
    exact ⟨⟨rfl, fun b hb => absurd hb List.not_mem_nil⟩, (room_invariant d).init _ rfl⟩
  step := by
    rintro f e f' ⟨hsynced, hroom⟩ hnext
    obtain ⟨hafter, hstep⟩ := hsynced.next hnext
    exact ⟨hafter, (room_invariant d).step _ _ _ hroom hstep⟩

/-- Whatever waits, `formDiskBatches` keeps its promises pass after pass; and it returns exactly if the parts of the groups fit into the
write buffer, or what fits is more than the room in it. -/
theorem formDiskBatches_returns_iff (d : Disks) (events : List (FormEvent β)) (f : Forming β)
    (hrun : (formingSystem d).Runs events f) (hforming : f.state.stage = .forming) :
    (∀ n, Kept d f ((formPass d)^[n] f)) ∧
      ((∃ n, ((formPass d)^[n] f).state.stage = .formed ∧ Kept d f ((formPass d)^[n] f)) ↔
        FitsBuffer d f.state.totalBlocksUsed
          (f.globalWriteWaitList.map fun thisBatch => thisBatch.urls.map fun r => r.2.allBlocks.length)) := by
  obtain ⟨hsynced, hroom⟩ := (forming_invariant d).holds hrun
  have hkept (n : Nat) := kept_iterate hroom hsynced n
  have hsizes : (f.globalWriteWaitList.map fun thisBatch => thisBatch.urls.map fun r => r.2.allBlocks.length) =
      f.state.globalWriteWaitList.map objectSizes := by
    rw [hsynced.list, List.map_map]
    refine List.map_congr_left fun b _ => ?_
    rw [Function.comp_apply, objectSizes, SizedRelOb.relOb, List.map_map]
    rfl
  refine ⟨hkept, ?_⟩
  rw [hsizes]
  calc (∃ n, ((formPass d)^[n] f).state.stage = .formed ∧ Kept d f ((formPass d)^[n] f))
      ↔ ∃ n, (passes d n f.state).stage = .formed := exists_congr fun n => by
        rw [← (hsynced.iterate n).2]
        exact and_iff_left (hkept n)
    _ ↔ Worklist.Returns (visit d) (f.state.totalBlocksUsed, f.state.globalWriteWaitList) := (returns_iff_formed d hforming).symm
    _ ↔ _ := returns_iff_fits d _

/-- One disk, and room for 512 blocks in the write buffer. -/
def singleDisk : Disks := .ofSize 1 100000 (fun k => k) Nat.one_pos fun _ _ _ _ h => Int.ofNat.inj h

/-- A response of `n` blocks that came without a length. -/
def chunkedResponse (n : Nat) : Received Nat := ⟨⟨1, List.replicate n 0⟩, [], none, -1⟩

/-- One group waits. -/
def waitingGroup (responses : List (Received Nat)) : Forming Nat :=
  ⟨[relatedObjects responses],
    { State.init with stage := .forming, globalWriteWaitList := [(relatedObjects responses).relOb] }⟩

theorem runs_waitingGroup (responses : List (Received Nat)) :
    (formingSystem singleDisk).Runs [.arrive responses, .check] (waitingGroup responses) := by
  have hstart : (formingSystem singleDisk).Runs [] (⟨[], .init⟩ : Forming Nat) := .start rfl
  exact System.runs_foldlM hstart rfl

/-- A group of 300 blocks in two objects. -/
theorem formDiskBatches_returns_small :
    ∃ n, ((formPass singleDisk)^[n] (waitingGroup [chunkedResponse 100, chunkedResponse 200])).state.stage = .formed ∧
      Kept singleDisk (waitingGroup [chunkedResponse 100, chunkedResponse 200])
        ((formPass singleDisk)^[n] (waitingGroup [chunkedResponse 100, chunkedResponse 200])) :=
  (formDiskBatches_returns_iff singleDisk _ _ (runs_waitingGroup _) rfl).2.mpr (by decide +kernel)

/-- A group of 150 and 400 blocks is split into itself, and `formDiskBatches` goes on for ever. -/
theorem formDiskBatches_spins : (formingSystem singleDisk).Runs [.arrive [chunkedResponse 400, chunkedResponse 150], .check]
      (waitingGroup [chunkedResponse 400, chunkedResponse 150]) ∧
    (∀ r ∈ [chunkedResponse 400, chunkedResponse 150], r.allBlocks.length ≤ writeBufferSize singleDisk) ∧
    ∀ n, ((formPass singleDisk)^[n] (waitingGroup [chunkedResponse 400, chunkedResponse 150])).state.stage ≠ .formed := by
  have hrun := runs_waitingGroup [chunkedResponse 400, chunkedResponse 150]
  obtain ⟨hsynced, -⟩ := (forming_invariant singleDisk).holds hrun
  refine ⟨hrun, by decide +kernel, fun n hn => ?_⟩
  rw [(hsynced.iterate n).2] at hn
  have hfits := (returns_iff_fits singleDisk _).mp ((returns_iff_formed singleDisk rfl).mpr ⟨n, hn⟩)
  revert hfits
  unfold Fits
  decide +kernel

end BeagleCache.Batches

import Mathlib.Tactic
import BeagleCache.Elevator

/-! Reads that the elevator puts together. `checkContinuity` takes a read for a continuation that starts one block behind the end
of the first read of the group, and `handleDataHelperRead` gives every response the offset and the version of the group. -/

namespace BeagleCache.Elevators

open Hcfs

variable {η : Type}

/-- `READ_BUFFER_SIZE`, in blocks. -/
def readBufferSize : Nat := 256 * 1024 / fileBlockSize

/-- The offsets of the blocks in a stretch of a disk, given with its length in bytes. -/
def extent (d : Disks) (remOffset writeLen : Nat) : List Nat :=
  (List.range (writeLen / fileBlockSize)).map fun i => remOffset + i * d.numDisks

/-- The blocks that are given to `insertBlock` when the helper has read for a group. -/
def readBlocks (d : Disks) (e : EleRequest (List η)) : List Nat := extent d e.remOffset e.writeLen

/-- The `READ` case of `handleDataHelperRead`: the responses that go on, with the `remOffset` and the `version` they get. -/
def resumed (e : EleRequest (List η)) : List (η × Nat × Int) :=
  e.requests.flatMap fun r => r.entry.map fun presentRTranPtr => (presentRTranPtr, e.remOffset, e.version)

/-- A request as `schedulePendingDiskRequests` adds it for a response that waits for a block. -/
def DiskRequest.Pending (r : DiskRequest (List η)) : Prop :=
  r.type = .READ ∧ (∃ n, 0 < n ∧ n ≤ readBufferSize ∧ r.writeLen = n * fileBlockSize) ∧ ∃ presentRTranPtr, r.entry = [presentRTranPtr]

/-- The group of a request that is executed alone. -/
def alone (d : Disks) (r : DiskRequest (List η)) : EleRequest (List η) := mergeRequest (checkContinuity d createEleRequest r).1 r

/-- A group reads the extents of its requests, one after the other, and its responses go on as if each had been read for alone. -/
structure SameAsAlone (d : Disks) (e : EleRequest (List η)) : Prop where
  covers : readBlocks d e = e.requests.flatMap fun r => extent d r.remOffset r.writeLen
  fits : e.writeLen ≤ bufferSize
  resumes : resumed e = e.requests.flatMap fun r => resumed (alone d r)
  present : ∀ r ∈ e.requests, ∀ o ∈ readBlocks d (alone d r), o ∈ readBlocks d e

/-- `r'` starts where a read is taken for the continuation of `r`. -/
def Gap (d : Disks) (r r' : DiskRequest (List η)) : Prop :=
  r.remOffset + d.numDisks * (r.writeLen / fileBlockSize) + d.numDisks = r'.remOffset ∧ r.writeLen + r'.writeLen ≤ bufferSize

instance (d : Disks) (r r' : DiskRequest (List η)) : Decidable (Gap d r r') := inferInstanceAs (Decidable (_ ∧ _))

/-- The requests in the order in which `formSchedule` looks at them. -/
def sorted (reads : List (DiskRequest (List η))) : List (DiskRequest (List η)) :=
  ListSort.sort (fun r => (r.remOffset : Int)) (reads.foldl (fun l pRequest => pRequest :: l) [])

section Alone

variable {d : Disks} {r : DiskRequest (List η)}

theorem alone_eq (d : Disks) (hread : r.type = .READ) :
    checkContinuity d createEleRequest r = (⟨[], .READ, r.remOffset, r.version, 0, r.remOffset + d.numDisks * (r.writeLen / fileBlockSize)⟩,
      .READ_MERGE) ∧
    alone d r = ⟨[r], .READ, r.remOffset, r.version, r.writeLen, r.remOffset + d.numDisks * (r.writeLen / fileBlockSize)⟩ := by
  have hcheck : checkContinuity d createEleRequest r =
      (⟨[], .READ, r.remOffset, r.version, 0, r.remOffset + d.numDisks * (r.writeLen / fileBlockSize)⟩, .READ_MERGE) := by
    have hempty : (createEleRequest : EleRequest (List η)).requests = [] := rfl
    rw [checkContinuity, if_pos hempty, if_neg (by rw [hread]; decide), hread]
    rfl
  refine ⟨hcheck, ?_⟩
  rw [alone, hcheck, mergeRequest, Nat.zero_add]
  rfl

theorem DiskRequest.Pending.len_le (h : r.Pending) : r.writeLen ≤ bufferSize := by
  obtain ⟨-, ⟨n, -, hn, hlen⟩, -⟩ := h
  have hbuffer : readBufferSize * fileBlockSize ≤ bufferSize := by decide
  rw [hlen]
  exact (Nat.mul_le_mul_right _ hn).trans hbuffer

theorem sameAsAlone_alone (d : Disks) (h : r.Pending) : SameAsAlone d (alone d r) := by
  have heq := (alone_eq d h.1).2
  have hrequests : (alone d r).requests = [r] := by rw [heq]
  refine ⟨?_, ?_, ?_, ?_⟩
  · rw [hrequests, readBlocks, heq, List.flatMap_singleton]
  · rw [heq]
    exact h.len_le
  · rw [hrequests, List.flatMap_singleton]
  · intro r' hr' o ho
    rw [hrequests, List.mem_singleton] at hr'
    rwa [hr'] at ho

/-- The request after the first is put into the group just when there is the gap. -/
theorem continues_iff {r' : DiskRequest (List η)} (h : r.Pending) (h' : r'.Pending) :
    (checkContinuity d (alone d r) r').2 = .READ_MERGE ↔ Gap d r r' := by
  have heq := (alone_eq d h.1).2
  have hsome : (alone d r).requests ≠ [] := by
    rw [heq]
    exact List.cons_ne_nil r []
  rw [(checkContinuity_further d r' hsome).2, heq, Gap]
  exact ⟨fun hc => ⟨hc.2.2, hc.2.1⟩, fun hgap => ⟨h'.1, hgap.2, hgap.1⟩⟩

theorem mergeLoop_alone (d : Disks) (h : r.Pending) (rest : List (DiskRequest (List η))) :
    mergeLoop d createEleRequest (r :: rest) = mergeLoop d (alone d r) rest := by
  rw [mergeLoop, (alone_eq d h.1).1, if_pos rfl, alone, (alone_eq d h.1).1]

theorem mergeLoop_single {rest : List (DiskRequest (List η))} (h : r.Pending) (hrest : ∀ r' ∈ rest.head?, r'.Pending ∧ ¬ Gap d r r') :
    mergeLoop d createEleRequest (r :: rest) = (alone d r, rest) := by
  rw [mergeLoop_alone d h]
  cases rest with
  | nil => rfl
  | cons r' rest =>
      obtain ⟨h', hgap⟩ := hrest r' rfl
      have hrequests : (alone d r).requests ≠ [] := by
        rw [(alone_eq d h.1).2]
        exact List.cons_ne_nil r []
      rw [mergeLoop, if_neg (fun hc => hgap ((continues_iff h h').mp hc)), checkContinuity_requests, if_neg hrequests,
        (checkContinuity_further d r' hrequests).1]

/-- Two reads in one group go on at the same offset. -/
theorem not_sameAsAlone {r' : DiskRequest (List η)} {rest : List (DiskRequest (List η))} (h : r.Pending) (h' : r'.Pending)
    (hgap : Gap d r r') : ¬ SameAsAlone d (mergeLoop d createEleRequest (r :: r' :: rest)).1 := by
  intro hsame
  have hrequests : (mergeRequest (alone d r) r').requests = [r, r'] := by
    rw [(alone_eq d h.1).2]
    rfl
  have hfurther : (checkContinuity d (alone d r) r').1 = alone d r := by
    refine (checkContinuity_further d r' ?_).1
    rw [(alone_eq d h.1).2]
    exact List.cons_ne_nil r []
  have hopen : (mergeRequest (alone d r) r').Open := by
    refine .inr ⟨⟨r, [r'], hrequests, ?_⟩, fun p hp => ?_⟩
    · rw [(alone_eq d h.1).2]
      exact ⟨h.1.symm, rfl, rfl⟩
    · rw [hrequests] at hp
      obtain rfl | hp := List.mem_cons.mp hp
      · exact h.1
      · rw [List.mem_singleton.mp hp]
        exact h'.1
  have hloop : mergeLoop d createEleRequest (r :: r' :: rest) = mergeLoop d (mergeRequest (alone d r) r') rest := by
    rw [mergeLoop_alone d h, mergeLoop, if_pos ((continues_iff h h').mpr hgap), hfurther]
  obtain ⟨-, -, hheaded, -, hprefix⟩ := mergeLoop_spec d rest hopen
  rw [← hloop, hrequests] at hprefix
  rw [← hloop] at hheaded
  obtain ⟨more, hmore⟩ := hprefix
  obtain ⟨x, hx⟩ := h.2.2
  obtain ⟨x', hx'⟩ := h'.2.2
  have hfirst : (mergeLoop d createEleRequest (r :: r' :: rest)).1.remOffset = r.remOffset := by
    obtain ⟨p, ps, hps, -, hoff, -⟩ := hheaded (by rw [← hmore]; exact List.cons_ne_nil r _)
    rw [← hmore] at hps
    rw [hoff, ← (List.cons.inj hps).1]
  have hresumes := hsame.resumes
  rw [resumed, ← hmore, hfirst] at hresumes
  -- the second response of the group goes on with the offset of the first
  have hsecond : r.remOffset = r'.remOffset := by
    simp only [List.cons_append, List.flatMap_cons, resumed, (alone_eq d h.1).2, (alone_eq d h'.1).2, hx, hx', List.map_cons,
      List.flatMap_nil, List.map_nil, List.nil_append, List.append_nil, List.cons.injEq, Prod.mk.injEq] at hresumes
    exact hresumes.2.1.2.1
  have hstep := hgap.1
  have hdisks := d.numDisks_pos
  omega

theorem scheduleLoop_alone (d : Disks) (n : Nat) (l : List (DiskRequest (List η))) (hn : l.length ≤ n) (hpending : ∀ r ∈ l, r.Pending) :
    (∀ e ∈ scheduleLoop d n l, SameAsAlone d e) ↔ l.IsChain fun r r' => ¬ Gap d r r' := by
  induction n generalizing l with
  | zero =>
      have hnil : l = [] := List.length_eq_zero_iff.mp (Nat.le_zero.mp hn)
      subst hnil
      exact ⟨fun _ => List.isChain_nil, fun _ e he => absurd he List.not_mem_nil⟩
  | succ n ih =>
      cases l with
      | nil => exact ⟨fun _ => List.isChain_nil, fun _ e he => absurd he List.not_mem_nil⟩
      | cons r rest =>
          have hr := hpending r List.mem_cons_self
          have hrest : ∀ r' ∈ rest, r'.Pending := fun r' hr' => hpending r' (List.mem_cons_of_mem r hr')
          have hlength : rest.length ≤ n := Nat.le_of_succ_le_succ hn
          have hloop : (∀ r' ∈ rest.head?, r'.Pending ∧ ¬ Gap d r r') →
              scheduleLoop d (n + 1) (r :: rest) = alone d r :: scheduleLoop d n rest := by
            intro hhead
            rw [scheduleLoop, mergeLoop_single hr hhead]
          cases rest with
          | nil =>
              refine ⟨fun _ => List.isChain_singleton r, fun _ => ?_⟩
              rw [hloop (fun r' hr' => by cases hr')]
              exact List.forall_mem_cons.mpr ⟨sameAsAlone_alone d hr, (ih [] hlength hrest).mpr List.isChain_nil⟩
          | cons r' rest =>
              have hr' := hrest r' List.mem_cons_self
              rw [List.isChain_cons_cons]
              by_cases hgap : Gap d r r'
              · refine ⟨fun hall => ?_, fun hchain => absurd hgap hchain.1⟩
                exact absurd (hall _ List.mem_cons_self) (not_sameAsAlone hr hr' hgap)
              · rw [hloop (fun p hp => by rw [← Option.some.inj hp]; exact ⟨hr', hgap⟩), List.forall_mem_cons, ih (r' :: rest)
                  hlength hrest]
                exact ⟨fun hall => ⟨hgap, hall.2⟩, fun hchain => ⟨sameAsAlone_alone d hr, hchain.2⟩⟩

end Alone

/-- The groups of a schedule do what their reads would do alone just when no read follows another with one block between them. -/
theorem merged_reads_iff (d : Disks) (reads : List (DiskRequest (List η))) (scheduled : Bool) (hpending : ∀ r ∈ reads, r.Pending) :
    (∀ e ∈ (formSchedule d ⟨reads, [], scheduled⟩).sortedList, SameAsAlone d e) ↔ (sorted reads).IsChain fun r r' => ¬ Gap d r r' := by
  have hsorted : ∀ r ∈ sorted reads, r.Pending := by
    intro r hr
    have hperm := (ListSort.sort_spec (fun r : DiskRequest (List η) => (r.remOffset : Int)) (reads.foldl (fun l p => p :: l) [])).1
    apply hpending
    simpa using hperm.mem_iff.mp hr
  exact scheduleLoop_alone d (sorted reads).length (sorted reads) (Nat.le_refl _) hsorted

/-- Two responses that wait for one block each. -/
def twoReads (remOffset : Nat) : List (DiskRequest (List Nat)) :=
  [⟨0, .READ, 0, 5, 2048, [7]⟩, ⟨1, .READ, remOffset, 6, 2048, [8]⟩]

theorem twoReads_pending (remOffset : Nat) : ∀ r ∈ twoReads remOffset, r.Pending := by
  intro r hr
  simp only [twoReads, List.mem_cons, List.not_mem_nil, or_false] at hr
  obtain rfl | rfl := hr
  · exact ⟨rfl, ⟨1, by decide, by decide, rfl⟩, 7, rfl⟩
  · exact ⟨rfl, ⟨1, by decide, by decide, rfl⟩, 8, rfl⟩

/-- Reads of blocks that follow one another are executed one by one. -/
theorem merged_reads_adjacent : (formSchedule oneDisk ⟨twoReads 1, [], false⟩).sortedList.length = 2 ∧
    ∀ e ∈ (formSchedule oneDisk ⟨twoReads 1, [], false⟩).sortedList, SameAsAlone oneDisk e :=
  ⟨by decide, (merged_reads_iff oneDisk (twoReads 1) false (twoReads_pending 1)).mpr (by decide)⟩

/-- The read of block 2 is put together with the one of block 0: blocks 0 and 1 are read, and both responses go on at block 0. -/
theorem merged_reads_skip :
    (∀ r ∈ twoReads 2, r.Pending) ∧ ∃ e ∈ (formSchedule oneDisk ⟨twoReads 2, [], false⟩).sortedList,
      readBlocks oneDisk e = [0, 1] ∧ resumed e = [(7, 0, 5), (8, 0, 5)] ∧ ¬ SameAsAlone oneDisk e := by
  refine ⟨twoReads_pending 2, (formSchedule oneDisk ⟨twoReads 2, [], false⟩).sortedList.head (by decide), List.head_mem _,
    by decide, by decide, ?_⟩
  intro hsame
  have hresumes := hsame.resumes
  revert hresumes
  decide

end BeagleCache.Elevators

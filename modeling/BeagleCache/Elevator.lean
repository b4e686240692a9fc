import Mathlib.Tactic
import BeagleCache.ListSort
import BeagleCache.LogAllocator
import BeagleCache.Transition

/-! The requests to the disks (elevator.c). The requests to a disk are collected, sorted by their offsets and put together where
they seem to continue one another; the helper of the disk gets one of the groups at a time. -/

namespace BeagleCache.Elevators

open Hcfs Transition Function

variable {ρ : Type}

inductive RequestType where
  | READ
  | WRITE
  deriving DecidableEq

/-- What the elevator and the helper use of a `diskRequest`. `id` stands for its address, and the lengths are in bytes. -/
structure DiskRequest (ρ : Type) where
  id : Nat
  type : RequestType
  remOffset : Nat
  version : Int
  writeLen : Nat
  entry : ρ

/-- `mergedRequest` has the requests' `entry` replaced by the group itself. -/
structure EleRequest (ρ : Type) where
  requests : List (DiskRequest ρ)
  type : RequestType
  remOffset : Nat
  version : Int
  writeLen : Nat
  curEnd : Nat

structure Elevator (ρ : Type) where
  currentList : List (DiskRequest ρ)
  sortedList : List (EleRequest ρ)
  scheduled : Bool

/-- What `checkContinuity` returns. -/
inductive Continuity where
  | WRITE
  | READ
  | READ_MERGE
  deriving DecidableEq

/-- The size of the buffer of an elevator. -/
def bufferSize : Nat := 1024 * 1024

def createEleRequest : EleRequest ρ := ⟨[], .READ, 0, 0, 0, 0⟩

def checkContinuity (d : Disks) (eRequest : EleRequest ρ) (pRequest : DiskRequest ρ) : EleRequest ρ × Continuity :=
  if eRequest.requests = [] then
    let e : EleRequest ρ := { eRequest with
      type := pRequest.type
      remOffset := pRequest.remOffset
      version := pRequest.version
      curEnd := pRequest.remOffset + d.numDisks * (pRequest.writeLen / fileBlockSize)
      writeLen := 0 }
    if pRequest.type = .WRITE then (e, .WRITE) else (e, .READ_MERGE)
  else if pRequest.type = .WRITE then (eRequest, .WRITE)
  else if bufferSize < eRequest.writeLen + pRequest.writeLen then (eRequest, .READ)
  else if eRequest.curEnd + d.numDisks = pRequest.remOffset then (eRequest, .READ_MERGE)
  else (eRequest, .READ)

def mergeRequest (eRequest : EleRequest ρ) (pRequest : DiskRequest ρ) : EleRequest ρ :=
  { eRequest with writeLen := eRequest.writeLen + pRequest.writeLen, requests := eRequest.requests ++ [pRequest] }

/-- The inner loop of `formSchedule`: the group, and what is left of the sorted list. -/
def mergeLoop (d : Disks) (eRequest : EleRequest ρ) : List (DiskRequest ρ) → EleRequest ρ × List (DiskRequest ρ)
  | [] => (eRequest, [])
  | pRequest :: rest =>
      let c := checkContinuity d eRequest pRequest
      if c.2 = .READ_MERGE then mergeLoop d (mergeRequest c.1 pRequest) rest
      else if c.1.requests = [] then (mergeRequest c.1 pRequest, rest)
      else (c.1, pRequest :: rest)

/-- The outer loop; every round takes something off the list, and `n` is its length. -/
def scheduleLoop (d : Disks) : Nat → List (DiskRequest ρ) → List (EleRequest ρ)
  | 0, _ => []
  | _, [] => []
  | n + 1, pRequest :: rest =>
      let s := mergeLoop d createEleRequest (pRequest :: rest)
      s.1 :: scheduleLoop d n s.2

/-- The sorted list is empty when this is called, so that only requests are sorted. -/
def formSchedule (d : Disks) (pEl : Elevator ρ) : Elevator ρ :=
  let sortedList := ListSort.sort (fun r => (r.remOffset : Int)) (pEl.currentList.foldl (fun l pRequest => pRequest :: l) [])
  { pEl with currentList := [], sortedList := scheduleLoop d sortedList.length sortedList }

def numberCutoff : Nat := 15

/-- `late` is that `TIME_CUTOFF` is over since the last sort. The second result is what is written to the helper. -/
def scheduleNextRequest (d : Disks) (pEl : Elevator ρ) (late : Bool) : Elevator ρ × Option (EleRequest ρ) :=
  let hand := fun pEl : Elevator ρ =>
    if pEl.scheduled = false then
      match pEl.sortedList with
      | [] => (pEl, none)
      | thisRequest :: rest => ({ pEl with sortedList := rest, scheduled := true }, some thisRequest)
    else (pEl, none)
  if pEl.sortedList = [] then
    if pEl.currentList.length < numberCutoff ∧ late = false then (pEl, none)
    else hand (formSchedule d pEl)
  else hand pEl

def addRequest (d : Disks) (pEl : Elevator ρ) (newRequest : DiskRequest ρ) (late : Bool) : Elevator ρ × Option (EleRequest ρ) :=
  scheduleNextRequest d { pEl with currentList := pEl.currentList ++ [newRequest] } late

def returnElevator (pEl : Elevator ρ) : Elevator ρ := { pEl with scheduled := false }

/-! ## All disks -/

structure State (ρ : Type) where
  diskSchedulers : Nat → Elevator ρ
  /-- What the helpers have and did not reply to. -/
  executing : List (EleRequest ρ)
  /-- Everything that was added, written to a helper and replied to. -/
  added : List (DiskRequest ρ)
  handed : List (EleRequest ρ)
  replied : List (EleRequest ρ)

def State.init : State ρ := ⟨fun _ => ⟨[], [], false⟩, [], [], [], []⟩

inductive Event (ρ : Type) where
  | addRequest (type : RequestType) (remOffset : Nat) (version : Int) (writeLen : Nat) (entry : ρ) (late : Bool)
  /-- The helper is through with one of the groups, and `handleDataHelperRead` gets to schedule the next. -/
  | reply (k : Nat) (late : Bool)
  /-- The loop over all disks when the main loop comes again. -/
  | again (i : Nat) (late : Bool)

/-- The elevator of a disk has changed, and its helper was written to. -/
def State.put (s : State ρ) (i : Nat) (r : Elevator ρ × Option (EleRequest ρ)) : State ρ :=
  { s with
    diskSchedulers := update s.diskSchedulers i r.1
    executing := s.executing ++ r.2.toList
    handed := s.handed ++ r.2.toList }

def next (d : Disks) (s : State ρ) : Event ρ → State ρ
  | .addRequest type remOffset version writeLen entry late =>
      let newRequest : DiskRequest ρ := ⟨s.added.length, type, remOffset, version, writeLen, entry⟩
      let i := whichRem d remOffset
      { s with added := s.added ++ [newRequest] }.put i (addRequest d (s.diskSchedulers i) newRequest late)
  | .reply k late =>
      match s.executing[k]? with
      | none => s
      | some e =>
          let i := whichRem d e.remOffset
          { s with executing := s.executing.eraseIdx k, replied := s.replied ++ [e] }.put i
            (scheduleNextRequest d (returnElevator (s.diskSchedulers i)) late)
  | .again i late => if i < d.numDisks then s.put i (scheduleNextRequest d (s.diskSchedulers i) late) else s

def diskSystem (d : Disks) : System (State ρ) (Event ρ) where
  init := fun s => s = State.init
  step := fun s e s' => s' = next d s e

/-! ## What a schedule is made of -/

/-- A group is about where its first request is. -/
def EleRequest.Headed (e : EleRequest ρ) : Prop :=
  ∃ r rest, e.requests = r :: rest ∧ e.type = r.type ∧ e.remOffset = r.remOffset ∧ e.version = r.version

/-- A write is the only request of its group. -/
def EleRequest.WriteAlone (e : EleRequest ρ) : Prop := ∀ r ∈ e.requests, r.type = .WRITE → e.requests = [r]

@[simp] theorem checkContinuity_requests (d : Disks) (e : EleRequest ρ) (p : DiskRequest ρ) :
    (checkContinuity d e p).1.requests = e.requests := by
  unfold checkContinuity
  split
  · split <;> rfl
  · split
    · rfl
    · split
      · rfl
      · split <;> rfl

theorem checkContinuity_first (d : Disks) {e : EleRequest ρ} (p : DiskRequest ρ) (h : e.requests = []) :
    (mergeRequest (checkContinuity d e p).1 p).requests = [p] ∧ (mergeRequest (checkContinuity d e p).1 p).Headed ∧
      ((checkContinuity d e p).2 = .READ_MERGE ↔ p.type = .READ) := by
  rw [checkContinuity, if_pos h]
  cases htype : p.type with
  | READ =>
      rw [if_neg (by decide)]
      refine ⟨by simp [mergeRequest, h], ⟨p, [], by simp [mergeRequest, h], htype.symm, rfl, rfl⟩, by simp⟩
  | WRITE =>
      rw [if_pos rfl]
      refine ⟨by simp [mergeRequest, h], ⟨p, [], by simp [mergeRequest, h], htype.symm, rfl, rfl⟩, by simp⟩

theorem checkContinuity_further (d : Disks) {e : EleRequest ρ} (p : DiskRequest ρ) (h : e.requests ≠ []) :
    (checkContinuity d e p).1 = e ∧ ((checkContinuity d e p).2 = .READ_MERGE ↔
      p.type = .READ ∧ e.writeLen + p.writeLen ≤ bufferSize ∧ e.curEnd + d.numDisks = p.remOffset) := by
  rw [checkContinuity, if_neg h]
  cases htype : p.type with
  | WRITE =>
      rw [if_pos rfl]
      exact ⟨rfl, by simp⟩
  | READ =>
      rw [if_neg (by decide)]
      split
      · next hbig => exact ⟨rfl, by simp; omega⟩
      · next hfits =>
          split
          · next hat => exact ⟨rfl, by simp [hat]; omega⟩
          · next hat => exact ⟨rfl, by simp [hat]⟩

/-- The group while it is put together: it is new, or it is of reads. -/
def EleRequest.Open (e : EleRequest ρ) : Prop := e.requests = [] ∨ (e.Headed ∧ ∀ r ∈ e.requests, r.type = .READ)

theorem EleRequest.Open.writeAlone {e : EleRequest ρ} (h : e.Open) : e.WriteAlone := by
  intro r hr hwrite
  obtain hnil | ⟨-, hread⟩ := h
  · rw [hnil] at hr
    cases hr
  · rw [hread r hr] at hwrite
    cases hwrite

theorem mergeLoop_spec (d : Disks) {e : EleRequest ρ} (l : List (DiskRequest ρ)) (h : e.Open) :
    (mergeLoop d e l).1.requests ++ (mergeLoop d e l).2 = e.requests ++ l ∧ (mergeLoop d e l).1.WriteAlone ∧
      ((mergeLoop d e l).1.requests ≠ [] → (mergeLoop d e l).1.Headed) ∧ (e.requests = [] → l ≠ [] → (mergeLoop d e l).1.requests ≠ []) ∧
      e.requests <+: (mergeLoop d e l).1.requests := by
  induction l generalizing e with
  | nil =>
      refine ⟨rfl, h.writeAlone, fun hne => ?_, fun _ hne => absurd rfl hne, List.prefix_refl _⟩
      exact (h.resolve_left hne).1
  | cons p rest ih =>
      rw [mergeLoop]
      by_cases hnil : e.requests = []
      · obtain ⟨hone, hheaded, hmerge⟩ := checkContinuity_first d p hnil
        split
        · next hc =>
            have hopen : (mergeRequest (checkContinuity d e p).1 p).Open := by
              refine .inr ⟨hheaded, fun r hr => ?_⟩
              rw [hone, List.mem_singleton] at hr
              rw [hr]
              exact hmerge.mp hc
            obtain ⟨hall, halone, hhead, -, hprefix⟩ := ih hopen
            refine ⟨?_, halone, hhead, fun _ _ hempty => ?_, ?_⟩
            · rw [hall, hone, hnil]
              rfl
            · rw [hone, hempty] at hprefix
              exact absurd hprefix (by simp)
            · rw [hnil]
              exact List.nil_prefix
        · rw [if_pos (by rw [checkContinuity_requests, hnil])]
          refine ⟨?_, ?_, fun _ => hheaded, fun _ _ => ?_, ?_⟩
          · rw [hone, hnil]
            rfl
          · intro r hr _
            rw [hone, List.mem_singleton] at hr
            rw [hone, hr]
          · rw [hone]
            exact List.cons_ne_nil p []
          · rw [hnil]
            exact List.nil_prefix
      · obtain ⟨hsame, hmerge⟩ := checkContinuity_further d p hnil
        rw [hsame]
        obtain ⟨hheaded, hread⟩ := h.resolve_left hnil
        split
        · next hc =>
            have hrequests : (mergeRequest e p).requests = e.requests ++ [p] := rfl
            have hopen : (mergeRequest e p).Open := by
              refine .inr ⟨?_, fun r hr => ?_⟩
              · obtain ⟨r, rs, hrs, htype, hoff, hversion⟩ := hheaded
                exact ⟨r, rs ++ [p], by rw [hrequests, hrs, List.cons_append], htype, hoff, hversion⟩
              · rw [hrequests] at hr
                obtain hold | hnew := List.mem_append.mp hr
                · exact hread r hold
                · rw [List.mem_singleton.mp hnew]
                  exact (hmerge.mp hc).1
            obtain ⟨hall, halone, hhead, -, hprefix⟩ := ih hopen
            refine ⟨?_, halone, hhead, fun hempty => absurd hempty hnil, ?_⟩
            · rw [hall, hrequests, List.append_assoc]
              rfl
            · exact (List.prefix_append _ _).trans (hrequests ▸ hprefix)
        · exact ⟨rfl, h.writeAlone, fun _ => hheaded, fun hempty => absurd hempty hnil, List.prefix_refl _⟩

/-- The groups have all requests of the list, in its order. -/
theorem scheduleLoop_spec (d : Disks) (n : Nat) (l : List (DiskRequest ρ)) (hn : l.length ≤ n) :
    (scheduleLoop d n l).flatMap EleRequest.requests = l ∧ ∀ e ∈ scheduleLoop d n l, e.WriteAlone ∧ e.Headed := by
  induction n generalizing l with
  | zero =>
      have hnil : l = [] := List.length_eq_zero_iff.mp (Nat.le_zero.mp hn)
      subst hnil
      exact ⟨rfl, fun e he => absurd he List.not_mem_nil⟩
  | succ n ih =>
      cases l with
      | nil => exact ⟨rfl, fun e he => absurd he List.not_mem_nil⟩
      | cons p rest =>
          obtain ⟨hall, halone, hhead, hne, -⟩ := mergeLoop_spec d (p :: rest) (e := createEleRequest) (.inl rfl)
          have hsome := hne rfl (List.cons_ne_nil p rest)
          have hlength := congrArg List.length hall
          simp only [List.length_append, createEleRequest, List.length_nil, Nat.zero_add] at hlength
          have hpos := List.length_pos_iff.mpr hsome
          have hshort : (mergeLoop d createEleRequest (p :: rest)).2.length ≤ n := by
            simp only [createEleRequest]
            simp only [createEleRequest] at hpos
            omega
          obtain ⟨hrest, hgroups⟩ := ih _ hshort
          rw [scheduleLoop]
          refine ⟨?_, ?_⟩
          · rw [List.flatMap_cons, hrest, hall]
            rfl
          · intro e he
            obtain rfl | he := List.mem_cons.mp he
            · exact ⟨halone, hhead hsome⟩
            · exact hgroups e he

theorem formSchedule_spec (d : Disks) (pEl : Elevator ρ) :
    (formSchedule d pEl).currentList = [] ∧ ((formSchedule d pEl).sortedList.flatMap EleRequest.requests).Perm pEl.currentList ∧
      (formSchedule d pEl).sortedList.Pairwise (fun e e' => e.remOffset ≤ e'.remOffset) ∧
      ∀ e ∈ (formSchedule d pEl).sortedList, e.WriteAlone ∧ e.Headed := by
  have hmoved : pEl.currentList.foldl (fun l pRequest => pRequest :: l) [] = pEl.currentList.reverse := by
    simp
  obtain ⟨hperm, hsorted⟩ := ListSort.sort_spec (fun r : DiskRequest ρ => (r.remOffset : Int)) pEl.currentList.reverse
  simp only [formSchedule, hmoved]
  generalize ListSort.sort (fun r : DiskRequest ρ => (r.remOffset : Int)) pEl.currentList.reverse = l at hperm hsorted ⊢
  obtain ⟨hall, hgroups⟩ := scheduleLoop_spec d l.length l (Nat.le_refl _)
  refine ⟨trivial, ?_, ?_, hgroups⟩
  · rw [hall]
    exact hperm.trans (List.reverse_perm _)
  · rw [← hall, List.pairwise_flatMap] at hsorted
    refine hsorted.2.imp_of_mem fun {e e'} he he' hall => ?_
    obtain ⟨r, rs, hrs, -, hoff, -⟩ := (hgroups e he).2
    obtain ⟨r', rs', hrs', -, hoff', -⟩ := (hgroups e' he').2
    have hle := hall r (by rw [hrs]; exact List.mem_cons_self) r' (by rw [hrs']; exact List.mem_cons_self)
    rw [hoff, hoff']
    exact_mod_cast hle

/-! ## No request is lost -/

/-- The requests that an elevator has. -/
def Elevator.requests (pEl : Elevator ρ) : Multiset (DiskRequest ρ) := pEl.currentList + pEl.sortedList.flatMap EleRequest.requests

/-- What is true of the groups of an elevator of disk `i`. -/
structure Elevator.Sound (d : Disks) (i : Nat) (pEl : Elevator ρ) : Prop where
  ascending : pEl.sortedList.Pairwise (fun e e' => e.remOffset ≤ e'.remOffset)
  groups : ∀ e ∈ pEl.sortedList, e.WriteAlone ∧ e.Headed
  onDisk : ∀ r ∈ pEl.requests, whichRem d r.remOffset = i

theorem EleRequest.Headed.mem {e : EleRequest ρ} (h : e.Headed) : ∃ r ∈ e.requests, e.remOffset = r.remOffset := by
  obtain ⟨r, rs, hrs, -, hoff, -⟩ := h
  exact ⟨r, by rw [hrs]; exact List.mem_cons_self, hoff⟩

/-- What an elevator does when it is asked for the next group: it keeps its requests but those it hands to the helper. -/
structure Schedules (d : Disks) (i : Nat) (pEl : Elevator ρ) (r : Elevator ρ × Option (EleRequest ρ)) : Prop where
  requests : pEl.requests = r.1.requests + (r.2.toList.flatMap EleRequest.requests : List (DiskRequest ρ))
  sound : r.1.Sound d i
  handed : ∀ e ∈ r.2, e.WriteAlone ∧ e.Headed ∧ whichRem d e.remOffset = i
  scheduled : r.1.scheduled = (pEl.scheduled || r.2.isSome)
  once : r.2.isSome → pEl.scheduled = false

theorem formSchedule_requests (d : Disks) {pEl : Elevator ρ} (h : pEl.sortedList = []) :
    (formSchedule d pEl).requests = pEl.requests := by
  obtain ⟨hcurrent, hperm, -, -⟩ := formSchedule_spec d pEl
  rw [Elevator.requests, Elevator.requests, hcurrent, h, Multiset.coe_eq_coe.mpr hperm]
  simp

theorem formSchedule_sound (d : Disks) {i : Nat} {pEl : Elevator ρ} (hsound : pEl.Sound d i) (h : pEl.sortedList = []) :
    (formSchedule d pEl).Sound d i := by
  obtain ⟨-, -, hascending, hgroups⟩ := formSchedule_spec d pEl
  refine ⟨hascending, hgroups, ?_⟩
  rw [formSchedule_requests d h]
  exact hsound.onDisk

theorem schedules_hand (d : Disks) {i : Nat} {pEl : Elevator ρ} (h : pEl.Sound d i) :
    Schedules d i pEl (if pEl.scheduled = false then
      match pEl.sortedList with
      | [] => (pEl, none)
      | thisRequest :: rest => ({ pEl with sortedList := rest, scheduled := true }, some thisRequest)
    else (pEl, none)) := by
  have hstay : Schedules d i pEl (pEl, none) := by
    refine ⟨by simp, h, fun e he => ?_, by simp, fun hsome => ?_⟩
    · cases he
    · cases hsome
  split
  · next hfree =>
      split
      · exact hstay
      · next e rest hsorted =>
          have hrequests : pEl.requests = ({ pEl with sortedList := rest, scheduled := true } : Elevator ρ).requests +
              (e.requests : List (DiskRequest ρ)) := by
            simp only [Elevator.requests, hsorted, List.flatMap_cons, ← Multiset.coe_add]
            rw [add_assoc, add_comm (e.requests : Multiset (DiskRequest ρ))]
          have hmem : e ∈ pEl.sortedList := by
            rw [hsorted]
            exact List.mem_cons_self
          obtain ⟨halone, hheaded⟩ := h.groups e hmem
          obtain ⟨r, hr, hoff⟩ := hheaded.mem
          refine ⟨by simpa using hrequests, ⟨?_, ?_, ?_⟩, ?_, by simp, fun _ => hfree⟩
          · have hascending := h.ascending
            rw [hsorted] at hascending
            exact hascending.of_cons
          · intro e' he'
            apply h.groups
            rw [hsorted]
            exact List.mem_cons_of_mem _ he'
          · intro r' hr'
            apply h.onDisk
            rw [hrequests]
            exact Multiset.mem_add.mpr (.inl hr')
          · rintro e' he'
            cases he'
            refine ⟨halone, hheaded, ?_⟩
            rw [hoff]
            apply h.onDisk
            rw [hrequests]
            exact Multiset.mem_add.mpr (.inr hr)
  · exact hstay

theorem schedules_next (d : Disks) {i : Nat} {pEl : Elevator ρ} (h : pEl.Sound d i) (late : Bool) :
    Schedules d i pEl (scheduleNextRequest d pEl late) := by
  rw [scheduleNextRequest]
  split
  · next hempty =>
      split
      · refine ⟨by simp, h, fun e he => ?_, by simp, fun hsome => ?_⟩
        · cases he
        · cases hsome
      · have hform := schedules_hand d (formSchedule_sound d h hempty)
        refine ⟨?_, hform.sound, hform.handed, hform.scheduled, hform.once⟩
        rw [← hform.requests, formSchedule_requests d hempty]
  · exact schedules_hand d h

/-- The requests of groups. -/
def grouped (es : List (EleRequest ρ)) : Multiset (DiskRequest ρ) := (es.flatMap EleRequest.requests : List (DiskRequest ρ))

@[simp] theorem grouped_append (es es' : List (EleRequest ρ)) : grouped (es ++ es') = grouped es + grouped es' := by
  rw [grouped, List.flatMap_append, ← Multiset.coe_add]
  rfl

/-- The groups the helper of a disk has. -/
def State.onDisk (d : Disks) (s : State ρ) (i : Nat) : List (EleRequest ρ) := s.executing.filter fun e => whichRem d e.remOffset = i

/-- Every request that was added is in one place. -/
structure Conserved (d : Disks) (s : State ρ) : Prop where
  places : (s.added : Multiset (DiskRequest ρ)) =
    ∑ i ∈ Finset.range d.numDisks, (s.diskSchedulers i).requests + grouped s.executing + grouped s.replied
  ids : s.added.map DiskRequest.id = List.range s.added.length
  handed : (s.handed : Multiset (EleRequest ρ)) = s.executing + s.replied
  sound : ∀ i, (s.diskSchedulers i).Sound d i
  groups : ∀ e ∈ s.handed, e.WriteAlone ∧ e.Headed
  busy : ∀ i, (s.onDisk d i).length = if (s.diskSchedulers i).scheduled then 1 else 0

theorem sum_update {n i : Nat} (hi : i < n) (f : Nat → Elevator ρ) (pEl : Elevator ρ) :
    ∑ j ∈ Finset.range n, (update f i pEl j).requests + (f i).requests =
      ∑ j ∈ Finset.range n, (f j).requests + pEl.requests := by
  have hmem : i ∈ Finset.range n := Finset.mem_range.mpr hi
  rw [← Finset.sum_erase_add _ _ hmem, ← Finset.sum_erase_add (Finset.range n) (fun j => (f j).requests) hmem]
  have hrest : ∑ j ∈ (Finset.range n).erase i, (update f i pEl j).requests = ∑ j ∈ (Finset.range n).erase i, (f j).requests := by
    apply Finset.sum_congr rfl
    intro j hj
    rw [update_of_ne (Finset.ne_of_mem_erase hj)]
  rw [hrest, update_self, add_assoc, add_assoc, add_comm pEl.requests]

theorem Conserved.put {d : Disks} {s : State ρ} {i : Nat} {r : Elevator ρ × Option (EleRequest ρ)} (h : Conserved d s)
    (hi : i < d.numDisks) (hr : Schedules d i (s.diskSchedulers i) r) : Conserved d (s.put i r) := by
  have hhanded : grouped (s.put i r).executing = grouped s.executing + grouped r.2.toList := grouped_append _ _
  refine ⟨?_, h.ids, ?_, ?_, ?_, ?_⟩
  · have hsum := sum_update hi s.diskSchedulers r.1
    rw [hr.requests, ← add_assoc] at hsum
    have hcancel : ∑ j ∈ Finset.range d.numDisks, (update s.diskSchedulers i r.1 j).requests + grouped r.2.toList =
        ∑ j ∈ Finset.range d.numDisks, (s.diskSchedulers j).requests := by
      apply add_right_cancel (b := r.1.requests)
      rw [← hsum]
      simp only [grouped]
      rw [add_assoc, add_assoc, add_comm r.1.requests]
    show (s.added : Multiset (DiskRequest ρ)) = _
    rw [h.places, hhanded]
    show _ = ∑ j ∈ Finset.range d.numDisks, (update s.diskSchedulers i r.1 j).requests + _ + grouped s.replied
    rw [← hcancel]
    abel
  · show ((s.handed ++ r.2.toList : List (EleRequest ρ)) : Multiset (EleRequest ρ)) =
      ((s.executing ++ r.2.toList : List (EleRequest ρ)) : Multiset (EleRequest ρ)) + s.replied
    rw [← Multiset.coe_add, ← Multiset.coe_add, h.handed]
    abel
  · intro j
    show (update s.diskSchedulers i r.1 j).Sound d j
    by_cases hj : j = i
    · subst hj
      rw [update_self]
      exact hr.sound
    · rw [update_of_ne hj]
      exact h.sound j
  · intro e he
    obtain hold | hnew := List.mem_append.mp he
    · exact h.groups e hold
    · obtain ⟨halone, hheaded, -⟩ := hr.handed e (Option.mem_toList.mp hnew)
      exact ⟨halone, hheaded⟩
  · intro j
    show ((s.executing ++ r.2.toList).filter fun e => whichRem d e.remOffset = j).length =
      if (update s.diskSchedulers i r.1 j).scheduled then 1 else 0
    have hbusy := h.busy j
    rw [List.filter_append, List.length_append]
    by_cases hj : j = i
    · subst hj
      rw [update_self, hr.scheduled]
      cases hsome : r.2 with
      | none => simpa [State.onDisk] using hbusy
      | some e =>
          obtain ⟨-, -, hdisk⟩ := hr.handed e (by rw [hsome]; rfl)
          have hfree := hr.once (by rw [hsome]; rfl)
          rw [hfree] at hbusy
          simpa [State.onDisk, hdisk, hfree] using hbusy
    · rw [update_of_ne hj]
      have hnone : (r.2.toList.filter fun e => whichRem d e.remOffset = j) = [] := by
        rw [List.filter_eq_nil_iff]
        intro e he
        obtain ⟨-, -, hdisk⟩ := hr.handed e (Option.mem_toList.mp he)
        rw [hdisk]
        simpa using Ne.symm hj
      rw [hnone]
      exact hbusy

theorem Conserved.added {d : Disks} {s : State ρ} (h : Conserved d s) (type : RequestType) (remOffset : Nat) (version : Int)
    (writeLen : Nat) (entry : ρ) :
    Conserved d { s with
      added := s.added ++ [⟨s.added.length, type, remOffset, version, writeLen, entry⟩]
      diskSchedulers := update s.diskSchedulers (whichRem d remOffset) { s.diskSchedulers (whichRem d remOffset) with
        currentList := (s.diskSchedulers (whichRem d remOffset)).currentList ++
          [⟨s.added.length, type, remOffset, version, writeLen, entry⟩] } } := by
  generalize hnew : (⟨s.added.length, type, remOffset, version, writeLen, entry⟩ : DiskRequest ρ) = newRequest
  have hoff : newRequest.remOffset = remOffset := by rw [← hnew]
  have hid : newRequest.id = s.added.length := by rw [← hnew]
  generalize hi : whichRem d remOffset = i
  have hlt : i < d.numDisks := by
    rw [← hi]
    exact whichRem_lt d remOffset
  generalize hp : ({ s.diskSchedulers i with currentList := (s.diskSchedulers i).currentList ++ [newRequest] } : Elevator ρ) = pEl
  have hrequests : pEl.requests = (s.diskSchedulers i).requests + {newRequest} := by
    rw [← hp]
    simp only [Elevator.requests, ← Multiset.coe_add, Multiset.coe_singleton]
    abel
  refine ⟨?_, ?_, h.handed, ?_, h.groups, ?_⟩
  · have hsum := sum_update hlt s.diskSchedulers pEl
    have hcancel : ∑ j ∈ Finset.range d.numDisks, (update s.diskSchedulers i pEl j).requests =
        ∑ j ∈ Finset.range d.numDisks, (s.diskSchedulers j).requests + {newRequest} := by
      apply add_right_cancel (b := (s.diskSchedulers i).requests)
      rw [hsum, hrequests]
      abel
    show ((s.added ++ [newRequest] : List (DiskRequest ρ)) : Multiset (DiskRequest ρ)) =
      ∑ j ∈ Finset.range d.numDisks, (update s.diskSchedulers i pEl j).requests + grouped s.executing + grouped s.replied
    rw [hcancel, ← Multiset.coe_add, h.places, Multiset.coe_singleton]
    abel
  · show (s.added ++ [newRequest]).map DiskRequest.id = List.range (s.added ++ [newRequest]).length
    rw [List.map_append, h.ids, List.map_singleton, hid, List.length_append, List.length_singleton, List.range_succ]
  · intro j
    show (update s.diskSchedulers i pEl j).Sound d j
    by_cases hj : j = i
    · subst hj
      rw [update_self]
      have hold := h.sound j
      refine ⟨?_, ?_, ?_⟩
      · rw [← hp]
        exact hold.ascending
      · rw [← hp]
        exact hold.groups
      · intro r hr
        rw [hrequests] at hr
        obtain hr | hr := Multiset.mem_add.mp hr
        · exact hold.onDisk r hr
        · rw [Multiset.mem_singleton.mp hr, hoff, hi]
    · rw [update_of_ne hj]
      exact h.sound j
  · intro j
    have hbusy := h.busy j
    show (s.onDisk d j).length = if (update s.diskSchedulers i pEl j).scheduled then 1 else 0
    by_cases hj : j = i
    · subst hj
      rw [update_self, ← hp]
      exact hbusy
    · rw [update_of_ne hj]
      exact hbusy

theorem Conserved.replied {d : Disks} {s : State ρ} {k : Nat} {e : EleRequest ρ} (h : Conserved d s) (hk : s.executing[k]? = some e) :
    Conserved d { s with
      executing := s.executing.eraseIdx k
      replied := s.replied ++ [e]
      diskSchedulers := update s.diskSchedulers (whichRem d e.remOffset)
        (returnElevator (s.diskSchedulers (whichRem d e.remOffset))) } := by
  obtain ⟨hlt, hget⟩ := List.getElem?_eq_some_iff.mp hk
  have hperm : s.executing.Perm (e :: s.executing.eraseIdx k) := by
    rw [← hget]
    exact (List.getElem_cons_eraseIdx_perm hlt).symm
  generalize hi : whichRem d e.remOffset = i
  have hsame : (returnElevator (s.diskSchedulers i)).requests = (s.diskSchedulers i).requests := rfl
  have hdisk : i < d.numDisks := by
    rw [← hi]
    exact whichRem_lt d _
  refine ⟨?_, h.ids, ?_, ?_, h.groups, ?_⟩
  · have hsum := sum_update hdisk s.diskSchedulers (returnElevator (s.diskSchedulers i))
    rw [hsame] at hsum
    have hall := add_right_cancel hsum
    have hexecuting : grouped s.executing = grouped [e] + grouped (s.executing.eraseIdx k) := by
      rw [← grouped_append]
      exact Multiset.coe_eq_coe.mpr (hperm.flatMap_right _)
    show (s.added : Multiset (DiskRequest ρ)) =
      ∑ j ∈ Finset.range d.numDisks, (update s.diskSchedulers i (returnElevator (s.diskSchedulers i)) j).requests +
        grouped (s.executing.eraseIdx k) + grouped (s.replied ++ [e])
    rw [hall, h.places, hexecuting, grouped_append]
    abel
  · have hexecuting : (s.executing : Multiset (EleRequest ρ)) = {e} + s.executing.eraseIdx k := Multiset.coe_eq_coe.mpr hperm
    show (s.handed : Multiset (EleRequest ρ)) =
      s.executing.eraseIdx k + ((s.replied ++ [e] : List (EleRequest ρ)) : Multiset (EleRequest ρ))
    rw [h.handed, hexecuting, ← Multiset.coe_add, Multiset.coe_singleton]
    abel
  · intro j
    show (update s.diskSchedulers i (returnElevator (s.diskSchedulers i)) j).Sound d j
    by_cases hj : j = i
    · subst hj
      rw [update_self]
      exact ⟨(h.sound j).ascending, (h.sound j).groups, (h.sound j).onDisk⟩
    · rw [update_of_ne hj]
      exact h.sound j
  · intro j
    have hbusy := h.busy j
    have hfilter := (hperm.filter fun e => whichRem d e.remOffset = j).length_eq
    show ((s.executing.eraseIdx k).filter fun e => whichRem d e.remOffset = j).length =
      if (update s.diskSchedulers i (returnElevator (s.diskSchedulers i)) j).scheduled then 1 else 0
    simp only [State.onDisk] at hbusy
    rw [hbusy] at hfilter
    by_cases hj : j = i
    · subst hj
      rw [List.filter_cons_of_pos (by simpa using hi), List.length_cons] at hfilter
      rw [update_self]
      show _ = if false = true then 1 else 0
      rw [if_neg Bool.false_ne_true]
      split at hfilter <;> omega
    · rw [List.filter_cons_of_neg (by simpa [hi] using Ne.symm hj)] at hfilter
      rw [update_of_ne hj, ← hfilter]

theorem conserved_next {d : Disks} {s : State ρ} (h : Conserved d s) (e : Event ρ) : Conserved d (next d s e) := by
  cases e with
  | addRequest type remOffset version writeLen entry late =>
      have hadded := h.added type remOffset version writeLen entry
      have hput := hadded.put (whichRem_lt d remOffset) (schedules_next d (hadded.sound (whichRem d remOffset)) late)
      simp only [State.put, update_self, update_idem] at hput
      exact hput
  | reply k late =>
      rw [next]
      cases hk : s.executing[k]? with
      | none => exact h
      | some e =>
          have hreplied := h.replied hk
          have hput := hreplied.put (whichRem_lt d e.remOffset) (schedules_next d (hreplied.sound (whichRem d e.remOffset)) late)
          simp only [State.put, update_self, update_idem] at hput
          exact hput
  | again i late =>
      rw [next]
      split
      · next hi => exact h.put hi (schedules_next d (h.sound i) late)
      · exact h

theorem conserved_init (d : Disks) : Conserved d (State.init : State ρ) where
  places := by simp [State.init, Elevator.requests, grouped]
  ids := rfl
  handed := rfl
  sound := fun i => ⟨List.Pairwise.nil, fun e he => absurd he List.not_mem_nil, fun r hr => absurd hr (Multiset.notMem_zero r)⟩
  groups := fun e he => absurd he List.not_mem_nil
  busy := fun i => rfl

theorem conserved_runs {d : Disks} {events : List (Event ρ)} {s : State ρ} (hrun : (diskSystem d).Runs events s) : Conserved d s := by
  have hinv : (diskSystem d).Invariant (Conserved (ρ := ρ) d) :=
    ⟨fun s hs => by rw [hs]; exact conserved_init d, fun s e s' h hstep => by rw [hstep]; exact conserved_next h e⟩
  exact hinv.holds hrun

theorem Conserved.nodup {d : Disks} {s : State ρ} (h : Conserved d s) : (s.added : Multiset (DiskRequest ρ)).Nodup := by
  rw [Multiset.coe_nodup]
  apply List.Nodup.of_map DiskRequest.id
  rw [h.ids]
  exact List.nodup_range

theorem Conserved.grouped_handed {d : Disks} {s : State ρ} (h : Conserved d s) :
    grouped s.handed = grouped s.executing + grouped s.replied := by
  have hperm : s.handed.Perm (s.executing ++ s.replied) := by
    apply Multiset.coe_eq_coe.mp
    rw [h.handed, Multiset.coe_add]
  rw [← grouped_append]
  exact Multiset.coe_eq_coe.mpr (hperm.flatMap_right _)

/-! ## Every request is handed over -/

section Handed

variable {d : Disks} {pEl : Elevator ρ} {r : DiskRequest ρ} {res : Elevator ρ × Option (EleRequest ρ)} {s : State ρ} {i : Nat}

theorem scheduleNextRequest_free (d : Disks) {e : EleRequest ρ} {rest : List (EleRequest ρ)} (late : Bool) (hfree : pEl.scheduled = false)
    (hsorted : pEl.sortedList = e :: rest) :
    scheduleNextRequest d pEl late = ({ pEl with sortedList := rest, scheduled := true }, some e) := by
  rw [scheduleNextRequest, if_neg (by rw [hsorted]; exact List.cons_ne_nil _ _)]
  simp only [hfree, if_true, hsorted]

/-- How far a request is from the helper: whether it has to be sorted, the groups before its own, and whether the helper is busy. -/
@[ext]
structure Distance where
  unsorted : Nat
  groups : Nat
  busy : Nat

def Distance.Less (x y : Distance) : Prop :=
  x.unsorted < y.unsorted ∨ x.unsorted = y.unsorted ∧ (x.groups < y.groups ∨ x.groups = y.groups ∧ x.busy < y.busy)

theorem Distance.wellFounded : WellFounded Distance.Less := by
  have hlex := Nat.lt_wfRel.wf.prod_lex (Nat.lt_wfRel.wf.prod_lex Nat.lt_wfRel.wf)
  apply Subrelation.wf (r := InvImage _ fun x : Distance => (x.unsorted, x.groups, x.busy)) _ (InvImage.wf _ hlex)
  intro x y h
  exact Prod.lex_def.mpr (h.imp_right fun h => ⟨h.1, Prod.lex_def.mpr h.2⟩)

theorem Distance.Less.trans {x y z : Distance} (h : x.Less y) (h' : y.Less z) : x.Less z := by
  unfold Distance.Less at *
  omega

open Classical in
noncomputable def Elevator.distance (pEl : Elevator ρ) (r : DiskRequest ρ) : Distance where
  unsorted := if r ∈ pEl.currentList then 1 else 0
  groups := pEl.sortedList.findIdx fun e => r ∈ e.requests
  busy := if pEl.scheduled then 1 else 0

theorem Elevator.mem_requests : r ∈ pEl.requests ↔ r ∈ pEl.currentList ∨ r ∈ pEl.sortedList.flatMap EleRequest.requests := by
  rw [Elevator.requests, Multiset.mem_add, Multiset.mem_coe, Multiset.mem_coe]

/-- A request that waits is handed over, or gets nearer. -/
def Advances (pEl : Elevator ρ) (r : DiskRequest ρ) (res : Elevator ρ × Option (EleRequest ρ)) : Prop :=
  (∃ e, res.2 = some e ∧ r ∈ e.requests) ∨ r ∈ res.1.requests ∧ (res.1.distance r).Less (pEl.distance r)

theorem Advances.of_less {pEl' : Elevator ρ} (h : Advances pEl' r res) (hless : (pEl'.distance r).Less (pEl.distance r)) :
    Advances pEl r res := h.imp_right fun h => ⟨h.1, h.2.trans hless⟩

theorem advances_free {e : EleRequest ρ} {rest : List (EleRequest ρ)} (hwaits : r ∈ pEl.requests) (hsorted : pEl.sortedList = e :: rest) :
    Advances pEl r ({ pEl with sortedList := rest, scheduled := true }, some e) := by
  by_cases hr : r ∈ e.requests
  · exact .inl ⟨e, rfl, hr⟩
  · rw [Elevator.mem_requests, hsorted, List.flatMap_cons, List.mem_append] at hwaits
    refine .inr ⟨Elevator.mem_requests.mpr (hwaits.imp_right fun h => h.resolve_left hr), .inr ⟨rfl, .inl ?_⟩⟩
    simp only [Elevator.distance, hsorted, List.findIdx_cons, hr, decide_false, cond_false]
    exact Nat.lt_succ_self _

theorem less_formSchedule (d : Disks) (hwaits : r ∈ pEl.requests) (hsorted : pEl.sortedList = []) :
    ((formSchedule d pEl).distance r).Less (pEl.distance r) := by
  rw [Elevator.mem_requests, hsorted, List.flatMap_nil] at hwaits
  have hcurrent := hwaits.resolve_right List.not_mem_nil
  refine .inl ?_
  simp only [Elevator.distance, (formSchedule_spec d pEl).1, List.not_mem_nil, if_false, hcurrent, if_true]
  exact Nat.one_pos

/-- A request that waits gets nearer, or nothing is done at all, which is not so when the helper is free and the time is over. -/
theorem schedules_waiting (d : Disks) (late : Bool) (hwaits : r ∈ pEl.requests) :
    Advances pEl r (scheduleNextRequest d pEl late) ∨
      scheduleNextRequest d pEl late = (pEl, none) ∧ ¬(pEl.scheduled = false ∧ late = true) := by
  cases hsorted : pEl.sortedList with
  | cons e rest =>
      cases hscheduled : pEl.scheduled with
      | false =>
          rw [scheduleNextRequest_free d late hscheduled hsorted]
          exact .inl (advances_free hwaits hsorted)
      | true =>
          refine .inr ⟨?_, fun h => absurd h.1 (by decide)⟩
          rw [scheduleNextRequest, if_neg (by rw [hsorted]; exact List.cons_ne_nil _ _)]
          beta_reduce
          rw [if_neg (by rw [hscheduled]; decide)]
  | nil =>
      rw [scheduleNextRequest, if_pos hsorted]
      by_cases hcut : pEl.currentList.length < numberCutoff ∧ late = false
      · rw [if_pos hcut, hcut.2]
        exact .inr ⟨rfl, fun h => absurd h.2 (by decide)⟩
      · rw [if_neg hcut]
        have hless := less_formSchedule d hwaits hsorted
        rw [← formSchedule_requests d hsorted] at hwaits
        generalize formSchedule d pEl = pEl' at hwaits hless
        left
        beta_reduce
        cases hscheduled : pEl'.scheduled with
        | true =>
            rw [if_neg (by decide)]
            exact .inr ⟨hwaits, hless⟩
        | false =>
            rw [if_pos rfl]
            cases hsorted' : pEl'.sortedList with
            | nil => exact .inr ⟨hwaits, hless⟩
            | cons e rest => exact (advances_free hwaits hsorted').of_less hless

/-- The same of the whole state. -/
def State.Advances (s s' : State ρ) (i : Nat) (r : DiskRequest ρ) : Prop :=
  r ∈ grouped s'.handed ∨
    r ∈ (s'.diskSchedulers i).requests ∧ ((s'.diskSchedulers i).distance r).Less ((s.diskSchedulers i).distance r)

def State.Stays (s s' : State ρ) (i : Nat) (r : DiskRequest ρ) : Prop :=
  r ∈ (s'.diskSchedulers i).requests ∧ (s'.diskSchedulers i).distance r = (s.diskSchedulers i).distance r

theorem Advances.put {s₁ : State ρ} (h : Advances pEl r res) (heq : pEl.distance r = (s.diskSchedulers i).distance r ∨
    (pEl.distance r).Less ((s.diskSchedulers i).distance r)) : s.Advances (s₁.put i res) i r := by
  rcases h with ⟨e, hsome, hr⟩ | ⟨hwaits, hless⟩
  · left
    show r ∈ grouped (s₁.handed ++ res.2.toList)
    rw [grouped_append, hsome]
    exact Multiset.mem_add.mpr (.inr (List.mem_flatMap.mpr ⟨e, List.mem_singleton_self e, hr⟩))
  · right
    have hself : (s₁.put i res).diskSchedulers i = res.1 := update_self _ _ _
    rw [hself]
    rcases heq with heq | heq
    · exact ⟨hwaits, heq ▸ hless⟩
    · exact ⟨hwaits, hless.trans heq⟩

theorem stays_put {s₁ : State ρ} {j : Nat} (hsame : s₁.diskSchedulers = s.diskSchedulers) (hj : i ≠ j)
    (hwaits : r ∈ (s.diskSchedulers i).requests) : s.Stays (s₁.put j res) i r := by
  have hother : (s₁.put j res).diskSchedulers i = s.diskSchedulers i := by
    rw [← hsame]
    exact update_of_ne hj _ _
  rw [State.Stays, hother]
  exact ⟨hwaits, rfl⟩

theorem stays_put_self {s₁ : State ρ} (hwaits : r ∈ pEl.requests) (hsame : pEl.distance r = (s.diskSchedulers i).distance r) :
    s.Stays (s₁.put i (pEl, none)) i r := by
  have hself : (s₁.put i (pEl, none)).diskSchedulers i = pEl := update_self _ _ _
  rw [State.Stays, hself]
  exact ⟨hwaits, hsame⟩

/-- The helper of the disk replies, or it is free and the main loop comes when the time is over. -/
def Serves (d : Disks) (s : State ρ) (i : Nat) : Event ρ → Prop
  | .reply k _ => ∃ e, s.executing[k]? = some e ∧ whichRem d e.remOffset = i
  | .again j late => j = i ∧ late = true ∧ (s.diskSchedulers i).scheduled = false
  | .addRequest .. => False

/-- One event: a request that waits gets nearer, or stays where it is, but not if the event serves its disk. -/
theorem next_waiting (h : Conserved d s) (hi : i < d.numDisks) (hr : r ∈ s.added) (hwaits : r ∈ (s.diskSchedulers i).requests)
    (e : Event ρ) : s.Advances (next d s e) i r ∨ s.Stays (next d s e) i r ∧ ¬Serves d s i e := by
  cases e with
  | addRequest type remOffset version writeLen entry late =>
      rw [next]
      by_cases hdisk : i = whichRem d remOffset
      · subst hdisk
        have hne : r ≠ ⟨s.added.length, type, remOffset, version, writeLen, entry⟩ := by
          rintro rfl
          have hid := List.mem_map_of_mem (f := DiskRequest.id) hr
          rw [h.ids, List.mem_range] at hid
          exact Nat.lt_irrefl _ hid
        generalize hpEl : ({ s.diskSchedulers (whichRem d remOffset) with
          currentList := (s.diskSchedulers (whichRem d remOffset)).currentList ++
            [⟨s.added.length, type, remOffset, version, writeLen, entry⟩] } : Elevator ρ) = pEl
        have hmem : r ∈ pEl.currentList ↔ r ∈ (s.diskSchedulers (whichRem d remOffset)).currentList := by
          rw [← hpEl, List.mem_append, List.mem_singleton, or_iff_left hne]
        have hdistance : pEl.distance r = (s.diskSchedulers (whichRem d remOffset)).distance r := by
          apply Distance.ext
          · by_cases hcurrent : r ∈ (s.diskSchedulers (whichRem d remOffset)).currentList
            · exact (if_pos (hmem.mpr hcurrent)).trans (if_pos hcurrent).symm
            · exact (if_neg (mt hmem.mp hcurrent)).trans (if_neg hcurrent).symm
          · rw [← hpEl]
            rfl
          · rw [← hpEl]
            rfl
        have hwaits' : r ∈ pEl.requests := by
          rw [Elevator.mem_requests, hmem, ← hpEl]
          exact Elevator.mem_requests.mp hwaits
        simp only [addRequest, hpEl]
        rcases schedules_waiting d late hwaits' with hadvances | ⟨hsame, -⟩
        · exact .inl (hadvances.put (.inl hdistance))
        · rw [hsame]
          exact .inr ⟨stays_put_self hwaits' hdistance, id⟩
      · exact .inr ⟨stays_put rfl hdisk hwaits, id⟩
  | reply k late =>
      rw [next]
      cases hk : s.executing[k]? with
      | none =>
          refine .inr ⟨⟨hwaits, rfl⟩, ?_⟩
          rintro ⟨e, hsome, -⟩
          rw [hk] at hsome
          cases hsome
      | some e =>
          by_cases hdisk : i = whichRem d e.remOffset
          · subst hdisk
            have hbusy := h.busy (whichRem d e.remOffset)
            have hmem : e ∈ s.onDisk d (whichRem d e.remOffset) := List.mem_filter.mpr ⟨List.mem_of_getElem? hk, by simp⟩
            have hscheduled : (s.diskSchedulers (whichRem d e.remOffset)).scheduled = true := by
              by_contra hfree
              rw [if_neg hfree] at hbusy
              rw [List.length_eq_zero_iff.mp hbusy] at hmem
              cases hmem
            have hless : ((returnElevator (s.diskSchedulers (whichRem d e.remOffset))).distance r).Less
                ((s.diskSchedulers (whichRem d e.remOffset)).distance r) := by
              refine .inr ⟨rfl, .inr ⟨rfl, ?_⟩⟩
              simp only [Elevator.distance, returnElevator, hscheduled, if_true, Bool.false_eq_true, if_false]
              exact Nat.one_pos
            have hwaits' : r ∈ (returnElevator (s.diskSchedulers (whichRem d e.remOffset))).requests := hwaits
            left
            rcases schedules_waiting d late hwaits' with hadvances | ⟨hsame, -⟩
            · exact hadvances.put (.inr hless)
            · refine .inr ?_
              simp only [State.put, hsame, update_self]
              exact ⟨hwaits', hless⟩
          · refine .inr ⟨stays_put rfl hdisk hwaits, ?_⟩
            rintro ⟨e', hsome, hdisk'⟩
            rw [hk] at hsome
            cases hsome
            exact hdisk hdisk'.symm
  | again j late =>
      rw [next]
      by_cases hdisk : i = j
      · subst hdisk
        rw [if_pos hi]
        rcases schedules_waiting d late hwaits with hadvances | ⟨hsame, hnot⟩
        · exact .inl (hadvances.put (.inl rfl))
        · rw [hsame]
          exact .inr ⟨stays_put_self hwaits rfl, fun hserves => hnot ⟨hserves.2.2, hserves.2.1⟩⟩
      · refine .inr ⟨?_, fun hserves => hdisk hserves.1.symm⟩
        split
        · exact stays_put rfl hdisk hwaits
        · exact ⟨hwaits, rfl⟩

theorem handed_next {e : Event ρ} (hr : r ∈ grouped s.handed) : r ∈ grouped (next d s e).handed := by
  have hput : ∀ (s₁ : State ρ) (i : Nat) (res : Elevator ρ × Option (EleRequest ρ)), s₁.handed = s.handed →
      r ∈ grouped (s₁.put i res).handed := by
    intro s₁ i res hsame
    show r ∈ grouped (s₁.handed ++ res.2.toList)
    rw [grouped_append, hsame]
    exact Multiset.mem_add.mpr (.inl hr)
  cases e with
  | addRequest => exact hput _ _ _ rfl
  | reply k late =>
      rw [next]
      split
      · exact hr
      · exact hput _ _ _ rfl
  | again j late =>
      rw [next]
      split
      · exact hput _ _ _ rfl
      · exact hr

theorem added_next {e : Event ρ} (hr : r ∈ s.added) : r ∈ (next d s e).added := by
  cases e with
  | addRequest => exact List.mem_append_left _ hr
  | reply k late =>
      rw [next]
      split <;> exact hr
  | again j late =>
      rw [next]
      split <;> exact hr

/-- The state after so many events of an endless run. -/
def stateAt (d : Disks) (event : Nat → Event ρ) : Nat → State ρ
  | 0 => .init
  | t + 1 => next d (stateAt d event t) (event t)

/-- The helpers reply to all that they were handed, and the main loop comes again and again when the time is over. -/
structure Fair (d : Disks) (event : Nat → Event ρ) : Prop where
  replies : ∀ t, ∀ e ∈ (stateAt d event t).executing, ∃ t' ≥ t, ∃ k late, event t' = .reply k late ∧
    (stateAt d event t').executing[k]? = some e
  comes : ∀ t, ∀ i < d.numDisks, ∃ t' ≥ t, event t' = .again i true

variable {event : Nat → Event ρ} {t : Nat}

theorem conserved_stateAt (d : Disks) (event : Nat → Event ρ) (t : Nat) : Conserved d (stateAt d event t) := by
  induction t with
  | zero => exact conserved_init d
  | succ t ih => exact conserved_next ih _

/-- A request that was added waits on its disk, or was handed over. -/
theorem Conserved.waits (h : Conserved d s) (hr : r ∈ s.added) :
    r ∈ grouped s.handed ∨ r ∈ (s.diskSchedulers (whichRem d r.remOffset)).requests := by
  have hplaces : r ∈ (s.added : Multiset (DiskRequest ρ)) := hr
  rw [h.places, add_assoc, ← h.grouped_handed, Multiset.mem_add, Multiset.mem_sum] at hplaces
  rcases hplaces with ⟨i, -, hwaits⟩ | hhanded
  · rw [(h.sound i).onDisk r hwaits]
    exact .inr hwaits
  · exact .inl hhanded

/-- As time goes on, a request that waits gets no further away. -/
theorem waits_on (hi : i < d.numDisks) (hr : r ∈ (stateAt d event t).added) (hwaits : r ∈ ((stateAt d event t).diskSchedulers i).requests)
    (n : Nat) : r ∈ (stateAt d event (t + n)).added ∧ ((stateAt d event t).Advances (stateAt d event (t + n)) i r ∨
      (stateAt d event t).Stays (stateAt d event (t + n)) i r) := by
  induction n with
  | zero => exact ⟨hr, .inr ⟨hwaits, rfl⟩⟩
  | succ n ih =>
      obtain ⟨hadded, ih⟩ := ih
      refine ⟨added_next hadded, ?_⟩
      have hnext {hwaits : r ∈ ((stateAt d event (t + n)).diskSchedulers i).requests} :=
        next_waiting (conserved_stateAt d event (t + n)) hi hadded hwaits (event (t + n))
      rcases ih with (hhanded | ⟨hwaits', hless⟩) | ⟨hwaits', hsame⟩
      · exact .inl (.inl (handed_next hhanded))
      · rcases @hnext hwaits' with (hhanded | ⟨hwaits'', hless'⟩) | ⟨⟨hwaits'', hsame⟩, -⟩
        · exact .inl (.inl hhanded)
        · exact .inl (.inr ⟨hwaits'', hless'.trans hless⟩)
        · exact .inl (.inr ⟨hwaits'', hsame.symm ▸ hless⟩)
      · rw [State.Advances, State.Stays, ← hsame]
        rcases @hnext hwaits' with hadvances | ⟨hstays, -⟩
        · exact .inl hadvances
        · exact .inr hstays

theorem Fair.serves (hfair : Fair d event) (hi : i < d.numDisks) (t : Nat) :
    ∃ t' ≥ t, Serves d (stateAt d event t') i (event t') := by
  obtain ⟨u, hu, hcomes⟩ := hfair.comes t i hi
  cases hscheduled : ((stateAt d event u).diskSchedulers i).scheduled with
  | false =>
      refine ⟨u, hu, ?_⟩
      rw [hcomes]
      exact ⟨rfl, rfl, hscheduled⟩
  | true =>
      have hbusy := (conserved_stateAt d event u).busy i
      rw [hscheduled, if_pos rfl] at hbusy
      obtain ⟨e, hone⟩ := List.length_eq_one_iff.mp hbusy
      obtain ⟨hmem, hdisk⟩ := List.mem_filter.mp (hone ▸ List.mem_singleton_self e : e ∈ (stateAt d event u).onDisk d i)
      obtain ⟨v, hv, k, late, hreply, hsome⟩ := hfair.replies u e hmem
      refine ⟨v, hu.trans hv, ?_⟩
      rw [hreply]
      exact ⟨e, hsome, of_decide_eq_true hdisk⟩

/-- In a fair run every request that was added is handed to the helper at some time. The induction is on its distance. -/
theorem Fair.handed (hfair : Fair d event) (hr : r ∈ (stateAt d event t).added) : ∃ t', r ∈ grouped (stateAt d event t').handed := by
  have hi := whichRem_lt d r.remOffset
  generalize hdistance : ((stateAt d event t).diskSchedulers (whichRem d r.remOffset)).distance r = x
  induction x using Distance.wellFounded.induction generalizing t with
  | _ x ih =>
      rcases (conserved_stateAt d event t).waits hr with hhanded | hwaits
      · exact ⟨t, hhanded⟩
      · obtain ⟨t', ht', hserves⟩ := hfair.serves hi t
        obtain ⟨n, rfl⟩ := Nat.exists_eq_add_of_le ht'
        obtain ⟨hadded, hon⟩ := waits_on hi hr hwaits n
        have hserved {hwaits : r ∈ ((stateAt d event (t + n)).diskSchedulers (whichRem d r.remOffset)).requests} :=
          (next_waiting (conserved_stateAt d event (t + n)) hi hadded hwaits _).resolve_right fun h => h.2 hserves
        have hagain : r ∈ (stateAt d event (t + n + 1)).added := added_next hadded
        -- the event brings the request nearer than it was before
        rcases hon with (hhanded | ⟨hwaits', hless⟩) | ⟨hwaits', hsame⟩
        · exact ⟨t + n, hhanded⟩
        · rcases @hserved hwaits' with hhanded | ⟨-, hnearer⟩
          · exact ⟨t + n + 1, hhanded⟩
          · rw [hdistance] at hless
            exact ih _ (hnearer.trans hless) hagain rfl
        · rcases @hserved hwaits' with hhanded | ⟨-, hnearer⟩
          · exact ⟨t + n + 1, hhanded⟩
          · rw [hsame, hdistance] at hnearer
            exact ih _ hnearer hagain rfl

end Handed

/-- The disks are scheduled so that no request is lost, given to a helper twice, or put together with a write. -/
structure Scheduling (d : Disks) (s : State ρ) : Prop where
  distinct : s.added.Nodup
  places : ∑ i ∈ Finset.range d.numDisks,
      (((s.diskSchedulers i).currentList : Multiset (DiskRequest ρ)) + grouped (s.diskSchedulers i).sortedList) +
    grouped s.executing + grouped s.replied = s.added
  ascending : ∀ i, (s.diskSchedulers i).sortedList.Pairwise (fun e e' => e.remOffset ≤ e'.remOffset)
  first : ∀ i, ∀ e ∈ (s.diskSchedulers i).sortedList, e.Headed
  writeAlone : (∀ i, ∀ e ∈ (s.diskSchedulers i).sortedList, e.WriteAlone) ∧ ∀ e ∈ s.handed, e.WriteAlone
  oneOutstanding : ∀ i, (s.onDisk d i).length ≤ 1
  handed : grouped s.handed = grouped s.executing + grouped s.replied
  handedOnce : (grouped s.handed).Nodup

/-- In every state of the elevators each request is in one list of its elevator, in one of its groups, or with the helper, and the
schedule that `formSchedule` forms leaves none in the list. A helper that is free gets the first group, and in a run in which the helpers
reply and the main loop comes again, every request that was added is handed to its helper, which is once by the first part. -/
theorem requests_conserved (d : Disks) :
    (∀ events (s : State ρ), (diskSystem d).Runs events s → Scheduling d s) ∧
    (∀ pEl : Elevator ρ, (formSchedule d pEl).currentList = [] ∧
      ((formSchedule d pEl).sortedList.flatMap EleRequest.requests).Perm pEl.currentList ∧
      (formSchedule d pEl).sortedList.Pairwise (fun e e' => e.remOffset ≤ e'.remOffset) ∧
      ∀ e ∈ (formSchedule d pEl).sortedList, e.WriteAlone ∧ e.Headed) ∧
    (∀ (pEl : Elevator ρ) e rest late, pEl.scheduled = false → pEl.sortedList = e :: rest →
      scheduleNextRequest d pEl late = ({ pEl with sortedList := rest, scheduled := true }, some e)) ∧
    ∀ event : Nat → Event ρ, Fair d event → ∀ t, ∀ r ∈ (stateAt d event t).added, ∃ t', r ∈ grouped (stateAt d event t').handed := by
  refine ⟨?_, formSchedule_spec d, fun pEl e rest late => scheduleNextRequest_free d late, fun event hfair t r hr => hfair.handed hr⟩
  intro events s hrun
  have h := conserved_runs hrun
  refine ⟨Multiset.coe_nodup.mp h.nodup, h.places.symm, fun i => (h.sound i).ascending, fun i e he => ((h.sound i).groups e he).2,
    ⟨fun i e he => ((h.sound i).groups e he).1, fun e he => (h.groups e he).1⟩, ?_, h.grouped_handed, ?_⟩
  · intro i
    rw [h.busy i]
    split <;> omega
  · have hnodup := h.nodup
    rw [h.places, add_assoc, ← h.grouped_handed] at hnodup
    exact (Multiset.nodup_add.mp hnodup).2.1

/-- A log on one disk. -/
def oneDisk : Disks := .ofSize 1 40 (fun k => k) Nat.one_pos fun _ _ _ _ h => Int.ofNat.inj h

/-- A read that is given to the helper at once, and a write that has to wait for it; then replies, and the main loop. -/
def sampleEvent : Nat → Event Nat
  | 0 => .addRequest .READ 4 0 2048 7 true
  | 1 => .addRequest .WRITE 9 0 4096 8 false
  | t + 2 => if t % 2 = 0 then .reply 0 false else .again 0 true

theorem stateAt_sample (t : Nat) : stateAt oneDisk sampleEvent (t + 5) = stateAt oneDisk sampleEvent 5 := by
  induction t with
  | zero => rfl
  | succ t ih =>
      have hevent : sampleEvent (t + 5) = .reply 0 false ∨ sampleEvent (t + 5) = .again 0 true := by
        rw [sampleEvent]
        split
        · exact .inl rfl
        · exact .inr rfl
      rw [Nat.add_right_comm, stateAt, ih]
      rcases hevent with hevent | hevent
      · rw [hevent]
        rfl
      · have hidle : (stateAt oneDisk sampleEvent 5).diskSchedulers =
            update (stateAt oneDisk sampleEvent 5).diskSchedulers 0 ⟨[], [], false⟩ := (update_eq_self _ _).symm
        rw [hevent]
        change { stateAt oneDisk sampleEvent 5 with
          diskSchedulers := update (stateAt oneDisk sampleEvent 5).diskSchedulers 0 ⟨[], [], false⟩ } = _
        rw [← hidle]

theorem first_executing {es : List (EleRequest ρ)} {e : EleRequest ρ} (hone : es.length = 1) (he : e ∈ es) : es[0]? = some e := by
  obtain ⟨e', rfl⟩ := List.length_eq_one_iff.mp hone
  rw [List.mem_singleton.mp he]
  rfl

theorem fair_sample : Fair oneDisk sampleEvent where
  replies := by
    intro t e he
    rcases t with _ | _ | _ | _ | _ | t
    · exact absurd he List.not_mem_nil
    · exact ⟨2, by decide, 0, false, rfl, first_executing (by decide) he⟩
    · exact ⟨2, le_rfl, 0, false, rfl, first_executing (by decide) he⟩
    · exact absurd he List.not_mem_nil
    · exact ⟨4, le_rfl, 0, false, rfl, first_executing (by decide) he⟩
    · rw [stateAt_sample] at he
      exact absurd he List.not_mem_nil
  comes := by
    intro t i hi
    have hzero : i = 0 := Nat.lt_one_iff.mp hi
    refine ⟨2 * t + 3, by omega, ?_⟩
    rw [hzero, sampleEvent, if_neg (by omega)]

theorem requests_conserved_sample :
    Scheduling oneDisk (stateAt oneDisk sampleEvent 2) ∧ (stateAt oneDisk sampleEvent 2).executing.length = 1 ∧
      ((stateAt oneDisk sampleEvent 2).diskSchedulers 0).currentList.length = 1 ∧
      ∀ r ∈ (stateAt oneDisk sampleEvent 2).added, ∃ t', r ∈ grouped (stateAt oneDisk sampleEvent t').handed := by
  obtain ⟨hruns, -, -, hall⟩ := requests_conserved (ρ := Nat) oneDisk
  refine ⟨?_, by decide, by decide, hall sampleEvent fair_sample 2⟩
  exact hruns ([] ++ [sampleEvent 0] ++ [sampleEvent 1]) _ (.step (.step (.start rfl) rfl) rfl)

end BeagleCache.Elevators

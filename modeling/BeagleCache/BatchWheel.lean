import Mathlib.Tactic
import BeagleCache.Transition

/-! The batches of responses that wait to be written (batch.c). There is a batch for each client, in the list of the time when its
oldest element was added; every second the lists of one time are gone through, and a batch that keeps elements is added back. -/

namespace BeagleCache.BatchWheel

open Transition Function

variable {ρ : Type}

/-- A list of list.c. The iterator is at the first element of `rest`, and NULL when `rest` is empty. -/
structure IterList (α : Type) where
  before : List α
  rest : List α

namespace IterList

variable {α : Type}

def all (l : IterList α) : List α := l.before ++ l.rest

def startIter (l : IterList α) : IterList α := ⟨[], l.all⟩

def deletePresent (l : IterList α) : IterList α := { l with rest := l.rest.tail }

def addToHead (x : α) (l : IterList α) : IterList α := { l with before := x :: l.before }

def addToTail (x : α) (l : IterList α) : IterList α :=
  if l.rest = [] then { l with before := l.before ++ [x] } else { l with rest := l.rest ++ [x] }

@[simp] theorem all_startIter (l : IterList α) : l.startIter.all = l.all := rfl

@[simp] theorem all_addToHead (x : α) (l : IterList α) : (l.addToHead x).all = x :: l.all := rfl

@[simp] theorem all_addToTail (x : α) (l : IterList α) : (l.addToTail x).all = l.all ++ [x] := by
  unfold addToTail
  split
  · next h => simp [all, h]
  · exact (List.append_assoc _ _ _).symm

end IterList

def batchWriteDeadline : Nat := 30

/-- The key of a batch, the address of a client. -/
abbrev BatchKey := BitVec 32

/-- 127.0.0.1, as it is in memory. -/
def localIP : BatchKey := 0x0100007f#32

structure BatchElement (ρ : Type) where
  dat : ρ
  addedTime : Fin batchWriteDeadline
  /-- The number of ticks until it was added or processed. -/
  since : Nat

/-- The lists have the keys of the batches; there is only one batch for each. -/
structure Batch (ρ : Type) where
  urls : List (BatchElement ρ)
  inList : Bool

structure State (ρ : Type) where
  currentBatches : BatchKey → Option (Batch ρ)
  timeLists : Fin batchWriteDeadline → IterList BatchKey
  currentTime : Fin batchWriteDeadline
  ticks : Nat
  /-- The batches that `processBatch` was called for in the last tick. -/
  processed : List BatchKey

def initBatchSystem : State ρ := ⟨fun _ => none, fun _ => ⟨[], []⟩, ⟨0, by decide⟩, 0, []⟩

/-- A batch and a list are replaced. -/
def State.setBatch (s : State ρ) (ip : BatchKey) (b : Batch ρ) : State ρ :=
  { s with currentBatches := update s.currentBatches ip (some b) }

def State.setList (s : State ρ) (k : Fin batchWriteDeadline) (l : IterList BatchKey) : State ρ :=
  { s with timeLists := update s.timeLists k l }

def formNewBatch (s : State ρ) (ip : BatchKey) (newElement : BatchElement ρ) : State ρ :=
  let s := s.setBatch ip ⟨[newElement], true⟩
  if ip ≠ localIP then s.setList s.currentTime ((s.timeLists s.currentTime).addToTail ip) else s

def addToBatch (s : State ρ) (ip : BatchKey) (dat : ρ) : State ρ :=
  let newElement : BatchElement ρ := ⟨dat, s.currentTime, s.ticks⟩
  match s.currentBatches ip with
  | some b =>
      let s := s.setBatch ip { b with urls := b.urls ++ [newElement] }
      if b.inList = false ∧ ip ≠ localIP then s.setList s.currentTime ((s.timeLists s.currentTime).addToTail ip) else s
  | none => formNewBatch s ip newElement

/-- The time after, as `startBatchProcess` and `processTime` count it. -/
def after (t : Fin batchWriteDeadline) : Fin batchWriteDeadline :=
  if h : t.val + 1 < batchWriteDeadline then ⟨t.val + 1, h⟩ else ⟨0, by decide⟩

def addBack (s : State ρ) (ip : BatchKey) (oldBatch : Batch ρ) : State ρ :=
  match oldBatch.urls with
  | [] => s
  | el :: _ =>
      if ip ≠ localIP then
        (s.setList el.addedTime ((s.timeLists el.addedTime).addToHead ip)).setBatch ip { oldBatch with inList := true }
      else s

def getNextEligibleBatch (s : State ρ) (oldest : Fin batchWriteDeadline) : Option (BatchKey × State ρ) :=
  match (s.timeLists oldest).rest with
  | [] => none
  | ip :: _ =>
      let oldBatch := (s.currentBatches ip).map fun b => { b with inList := false }
      some (ip, { s with
        currentBatches := update s.currentBatches ip oldBatch
        timeLists := update s.timeLists oldest (s.timeLists oldest).deletePresent })

def getLocalhostBatch (s : State ρ) : Option BatchKey := (s.currentBatches localIP).map fun _ => localIP

/-- The elements that `processBatch` leaves in the list; this is up to what their responses have come to. -/
def remaining (keep : Nat → Bool) (now : Nat) (urls : List (BatchElement ρ)) : List (BatchElement ρ) :=
  (urls.zipIdx.filter fun p => keep p.2).map fun p => { p.1 with since := now }

def processBatch (s : State ρ) (keep : Nat → Bool) (ip : BatchKey) : State ρ :=
  match s.currentBatches ip with
  | none => s
  | some b =>
      let b' := { b with urls := remaining keep (s.ticks + 1) b.urls }
      addBack { s.setBatch ip b' with processed := s.processed ++ [ip] } ip b'

/-- The loop over the batches of one list. `n` is what is left of it; `keep` is for the calls that are left. -/
def eligibleLoop (oldest : Fin batchWriteDeadline) (keep : Nat → Nat → Bool) : Nat → State ρ → State ρ
  | 0, s => s
  | n + 1, s =>
      match getNextEligibleBatch s oldest with
      | none => s
      | some (ip, s') => eligibleLoop oldest keep n (processBatch s' (keep n) ip)

/-- The tick of `checkBatchWritesNow`. `critical` is that too many buffers are in use. -/
def checkBatchWrites (s : State ρ) (keep : Nat → Nat → Bool) (critical : Bool) : State ρ :=
  let oldest := after s.currentTime
  let n := (s.timeLists oldest).all.length
  let s := { s.setList oldest (s.timeLists oldest).startIter with processed := [] }
  let s := eligibleLoop oldest keep n s
  let s := if critical then (getLocalhostBatch s).elim s (processBatch s (keep n)) else s
  { s with currentTime := after s.currentTime, ticks := s.ticks + 1 }

inductive Event (ρ : Type) where
  | addToBatch (ip : BatchKey) (dat : ρ)
  | tick (keep : Nat → Nat → Bool) (critical : Bool)

def next (s : State ρ) : Event ρ → State ρ
  | .addToBatch ip dat => addToBatch s ip dat
  | .tick keep critical => checkBatchWrites s keep critical

def batchSystem (ρ : Type) : System (State ρ) (Event ρ) where
  init := fun s => s = initBatchSystem
  step := fun s e s' => s' = next s e

/-- Every batch is in one list, once, as its `inList` says, and gets processed in time. -/
structure Turning (s : State ρ) : Prop where
  once : ∀ ip ≠ localIP, (∀ k, (s.timeLists k).all.count ip ≤ 1) ∧ ∀ k k', ip ∈ (s.timeLists k).all → ip ∈ (s.timeLists k').all → k = k'
  inList : ∀ ip ≠ localIP, ∀ b, s.currentBatches ip = some b → (b.inList = true ↔ ∃ k, ip ∈ (s.timeLists k).all)
  waiting : ∀ ip ≠ localIP, ∀ b, s.currentBatches ip = some b → b.urls ≠ [] → ∃ k, ip ∈ (s.timeLists k).all
  inTime : ∀ ip ≠ localIP, ∀ b, s.currentBatches ip = some b → ∀ el ∈ b.urls, s.ticks < el.since + batchWriteDeadline
  processed : s.processed.Nodup

/-- A response is not added to a batch that was taken off its list and has not been added back. -/
def Event.Listed (s : State ρ) : Event ρ → Prop
  | .addToBatch ip _ => ip ≠ localIP → ∀ b, s.currentBatches ip = some b → b.inList = true
  | .tick _ _ => True

/-! ## What is true of the lists -/

/-- How many ticks go by before the one that processes the list of time `k`. -/
def due (t k : Fin batchWriteDeadline) : Nat := (k.val + 29 - t.val) % 30

theorem due_lt (t k : Fin batchWriteDeadline) : due t k < batchWriteDeadline := Nat.mod_lt _ (by decide)

theorem after_val (t : Fin batchWriteDeadline) : (after t).val = if t.val + 1 < 30 then t.val + 1 else 0 := by
  unfold after
  split
  · next h => exact (if_pos h).symm
  · next h => exact (if_neg h).symm

theorem due_after {t k : Fin batchWriteDeadline} (h : k ≠ after t) : due (after t) k + 1 = due t k := by
  have ht : t.val < 30 := t.isLt
  have hk : k.val < 30 := k.isLt
  have hne : k.val ≠ (after t).val := fun heq => h (Fin.ext heq)
  have hval := after_val t
  unfold due
  split at hval <;> omega

/-- The lists when `n` ticks are over and the time is `t`; the batches of `out` are in none. What is behind the iterator is
about to be processed. -/
structure Filed (batches : BatchKey → Option (Batch ρ)) (lists : Fin batchWriteDeadline → IterList BatchKey) (n : Nat)
    (t : Fin batchWriteDeadline) (out : List BatchKey) : Prop where
  nodup : ∀ k, (lists k).all.Nodup
  unique : ∀ k k' ip, ip ∈ (lists k).all → ip ∈ (lists k').all → k = k'
  known : ∀ k ip, ip ∈ (lists k).all → ip ≠ localIP ∧ ∃ b, batches ip = some b ∧ b.inList = true
  due : ∀ k, ∀ ip ∈ (lists k).before, ∀ b, batches ip = some b → ∀ el ∈ b.urls, n + due t k < el.since + batchWriteDeadline
  waiting : ∀ ip ≠ localIP, ip ∉ out → ∀ b, batches ip = some b → b.inList = true ∨ b.urls ≠ [] → ∃ k, ip ∈ (lists k).all
  out : ∀ ip ∈ out, ∀ k, ip ∉ (lists k).all

section Filed

variable {batches : BatchKey → Option (Batch ρ)} {lists : Fin batchWriteDeadline → IterList BatchKey} {s : State ρ} {n : Nat}
  {t : Fin batchWriteDeadline} {ip : BatchKey}

theorem Filed.file (h : Filed batches lists n t [ip]) (hlocal : ip ≠ localIP) {b : Batch ρ} (hin : b.inList = true)
    (hel : ∀ el ∈ b.urls, n ≤ el.since) {k : Fin batchWriteDeadline} {l : IterList BatchKey} (hall : l.all.Perm (ip :: (lists k).all))
    (hbefore : ∀ j ∈ l.before, j = ip ∨ j ∈ (lists k).before) :
    Filed (update batches ip (some b)) (update lists k l) n t [] := by
  have hfresh : ∀ k', ip ∉ (lists k').all := h.out ip List.mem_cons_self
  have hmem : ∀ k' j, j ∈ (update lists k l k').all ↔ j ∈ (lists k').all ∨ (j = ip ∧ k' = k) := by
    intro k' j
    by_cases hk : k' = k
    · subst hk
      rw [update_self, hall.mem_iff, List.mem_cons]
      constructor
      · rintro (heq | hold)
        · exact .inr ⟨heq, rfl⟩
        · exact .inl hold
      · rintro (hold | ⟨heq, -⟩)
        · exact .inr hold
        · exact .inl heq
    · rw [update_of_ne hk]
      exact ⟨.inl, fun hor => hor.resolve_right fun hand => hk hand.2⟩
  refine ⟨fun k' => ?_, fun k₁ k₂ j h₁ h₂ => ?_, fun k' j hj => ?_, fun k' j hj b' hb' el hel' => ?_, fun j hj _ b' hb' hor => ?_,
    fun j hj => absurd hj List.not_mem_nil⟩
  · by_cases hk : k' = k
    · subst hk
      rw [update_self, hall.nodup_iff, List.nodup_cons]
      exact ⟨hfresh k', h.nodup k'⟩
    · rw [update_of_ne hk]
      exact h.nodup k'
  · obtain hold₁ | ⟨rfl, rfl⟩ := (hmem k₁ j).mp h₁
    · obtain hold₂ | ⟨rfl, rfl⟩ := (hmem k₂ j).mp h₂
      · exact h.unique k₁ k₂ j hold₁ hold₂
      · exact absurd hold₁ (hfresh k₁)
    · obtain hold₂ | ⟨-, rfl⟩ := (hmem k₂ j).mp h₂
      · exact absurd hold₂ (hfresh k₂)
      · rfl
  · obtain hold | ⟨rfl, -⟩ := (hmem k' j).mp hj
    · have hne : j ≠ ip := fun heq => hfresh k' (heq ▸ hold)
      rw [update_of_ne hne]
      exact h.known k' j hold
    · rw [update_self]
      exact ⟨hlocal, b, rfl, hin⟩
  · by_cases hne : j = ip
    · subst hne
      rw [update_self] at hb'
      rw [← Option.some.inj hb'] at hel'
      have hlt := due_lt t k'
      have hsince := hel el hel'
      omega
    · rw [update_of_ne hne] at hb'
      refine h.due k' j ?_ b' hb' el hel'
      by_cases hk : k' = k
      · subst hk
        rw [update_self] at hj
        exact (hbefore j hj).resolve_left hne
      · rwa [update_of_ne hk] at hj
  · by_cases hne : j = ip
    · subst hne
      exact ⟨k, (hmem k j).mpr (.inr ⟨rfl, rfl⟩)⟩
    · rw [update_of_ne hne] at hb'
      obtain ⟨k', hk'⟩ := h.waiting j hj (by simpa using hne) b' hb' hor
      exact ⟨k', (hmem k' j).mpr (.inl hk')⟩

theorem Filed.drop (h : Filed batches lists n t [ip]) {b : Batch ρ} (hin : b.inList = false) (hurls : b.urls = []) :
    Filed (update batches ip (some b)) lists n t [] := by
  have hother : ∀ k, ∀ j ∈ (lists k).all, j ≠ ip := fun k j hj heq => h.out ip List.mem_cons_self k (heq ▸ hj)
  refine ⟨h.nodup, h.unique, fun k j hj => ?_, fun k j hj b' hb' => ?_, fun j hj _ b' hb' hor => ?_, fun j hj => absurd hj List.not_mem_nil⟩
  · rw [update_of_ne (hother k j hj)]
    exact h.known k j hj
  · rw [update_of_ne (hother k j (List.mem_append_left _ hj))] at hb'
    exact h.due k j hj b' hb'
  · by_cases hne : j = ip
    · subst hne
      rw [update_self] at hb'
      rw [← Option.some.inj hb', hin, hurls] at hor
      simp at hor
    · rw [update_of_ne hne] at hb'
      exact h.waiting j hj (by simpa using hne) b' hb' hor

theorem Filed.take (h : Filed batches lists n t []) {oldest : Fin batchWriteDeadline} {rest : List BatchKey}
    (hrest : (lists oldest).rest = ip :: rest) (b : Option (Batch ρ)) :
    Filed (update batches ip b) (update lists oldest (lists oldest).deletePresent) n t [ip] := by
  have hpresent : ip ∈ (lists oldest).all := by
    rw [IterList.all, hrest]
    exact List.mem_append_right _ List.mem_cons_self
  have hnodup := h.nodup oldest
  rw [IterList.all, hrest, List.nodup_middle, List.nodup_cons] at hnodup
  have hdeleted : (lists oldest).deletePresent = ⟨(lists oldest).before, rest⟩ := by
    rw [IterList.deletePresent, hrest, List.tail_cons]
  have hmem : ∀ k j, j ∈ (update lists oldest (lists oldest).deletePresent k).all ↔ j ∈ (lists k).all ∧ j ≠ ip := by
    intro k j
    by_cases hk : k = oldest
    · subst hk
      rw [update_self, hdeleted, IterList.all, IterList.all, hrest]
      simp only [List.mem_append, List.mem_cons]
      constructor
      · rintro (hj | hj)
        · exact ⟨.inl hj, fun heq => hnodup.1 (heq ▸ List.mem_append_left _ hj)⟩
        · exact ⟨.inr (.inr hj), fun heq => hnodup.1 (heq ▸ List.mem_append_right _ hj)⟩
      · rintro ⟨hj | hj | hj, hne⟩
        · exact .inl hj
        · exact absurd hj hne
        · exact .inr hj
    · rw [update_of_ne hk]
      exact ⟨fun hj => ⟨hj, fun heq => hk (h.unique k oldest j hj (heq ▸ hpresent))⟩, fun hj => hj.1⟩
  refine ⟨fun k => ?_, fun k₁ k₂ j h₁ h₂ => ?_, fun k j hj => ?_, fun k j hj b' hb' => ?_, fun j hj hout b' hb' hor => ?_,
    fun j hj k hin => ?_⟩
  · by_cases hk : k = oldest
    · subst hk
      rw [update_self, hdeleted]
      exact hnodup.2
    · rw [update_of_ne hk]
      exact h.nodup k
  · exact h.unique k₁ k₂ j ((hmem k₁ j).mp h₁).1 ((hmem k₂ j).mp h₂).1
  · obtain ⟨hold, hne⟩ := (hmem k j).mp hj
    rw [update_of_ne hne]
    exact h.known k j hold
  · have hne : j ≠ ip := ((hmem k j).mp (List.mem_append_left _ hj)).2
    rw [update_of_ne hne] at hb'
    refine h.due k j ?_ b' hb'
    by_cases hk : k = oldest
    · subst hk
      rwa [update_self, hdeleted] at hj
    · rwa [update_of_ne hk] at hj
  · have hne : j ≠ ip := by simpa using hout
    rw [update_of_ne hne] at hb'
    obtain ⟨k, hk⟩ := h.waiting j hj List.not_mem_nil b' hb' hor
    exact ⟨k, (hmem k j).mpr ⟨hk, hne⟩⟩
  · exact ((hmem k j).mp hin).2 (List.mem_singleton.mp hj)

/-- A batch that is in a list, or that is of this machine, gets a further element. -/
theorem Filed.more (h : Filed batches lists n t []) {b : Batch ρ} (hb : batches ip = some b) (hor : ip = localIP ∨ b.inList = true)
    {el : BatchElement ρ} (hel : n ≤ el.since) : Filed (update batches ip (some { b with urls := b.urls ++ [el] })) lists n t [] := by
  refine ⟨h.nodup, h.unique, fun k j hj => ?_, fun k j hj b' hb' el' hel' => ?_, fun j hj hout b' hb' hwaits => ?_, h.out⟩
  · obtain ⟨hlocal, b', hb', hin⟩ := h.known k j hj
    refine ⟨hlocal, ?_⟩
    by_cases hne : j = ip
    · subst hne
      rw [update_self]
      exact ⟨_, rfl, hor.resolve_left hlocal⟩
    · rw [update_of_ne hne]
      exact ⟨b', hb', hin⟩
  · by_cases hne : j = ip
    · subst hne
      rw [update_self] at hb'
      rw [← Option.some.inj hb'] at hel'
      obtain hold | hnew := List.mem_append.mp hel'
      · exact h.due k j hj b hb el' hold
      · rw [List.mem_singleton.mp hnew]
        have hlt := due_lt t k
        omega
    · rw [update_of_ne hne] at hb'
      exact h.due k j hj b' hb' el' hel'
  · by_cases hne : j = ip
    · subst hne
      exact h.waiting j hj hout b hb (.inl (hor.resolve_left hj))
    · rw [update_of_ne hne] at hb'
      exact h.waiting j hj hout b' hb' hwaits

theorem Filed.local (h : Filed batches lists n t []) (b : Option (Batch ρ)) : Filed (update batches localIP b) lists n t [] := by
  refine ⟨h.nodup, h.unique, fun k j hj => ?_, fun k j hj b' hb' => ?_, fun j hj hout b' hb' => ?_, h.out⟩
  · rw [update_of_ne (h.known k j hj).1]
    exact h.known k j hj
  · rw [update_of_ne (h.known k j (List.mem_append_left _ hj)).1] at hb'
    exact h.due k j hj b' hb'
  · rw [update_of_ne hj] at hb'
    exact h.waiting j hj hout b' hb'

theorem Filed.unknown (h : Filed batches lists n t []) (hb : batches ip = none) : Filed batches lists n t [ip] := by
  refine ⟨h.nodup, h.unique, h.known, h.due, fun j hj _ => h.waiting j hj List.not_mem_nil, fun j hj k hin => ?_⟩
  obtain ⟨-, b, hb', -⟩ := h.known k j hin
  rw [List.mem_singleton.mp hj, hb] at hb'
  cases hb'

theorem mem_remaining {keep : Nat → Bool} {now : Nat} {urls : List (BatchElement ρ)} {el : BatchElement ρ}
    (h : el ∈ remaining keep now urls) :
    el.since = now := by
  obtain ⟨p, -, rfl⟩ := List.mem_map.mp h
  rfl

theorem Filed.process (h : Filed s.currentBatches s.timeLists n t [ip]) (hlocal : ip ≠ localIP) {b : Batch ρ}
    (hb : s.currentBatches ip = some b) (hin : b.inList = false) (hn : n = s.ticks + 1) (keep : Nat → Bool) :
    Filed (processBatch s keep ip).currentBatches (processBatch s keep ip).timeLists n t [] ∧
      (processBatch s keep ip).ticks = s.ticks ∧ (processBatch s keep ip).currentTime = s.currentTime ∧
      (processBatch s keep ip).processed = s.processed ++ [ip] ∧
      ∀ k, ((processBatch s keep ip).timeLists k).rest = (s.timeLists k).rest := by
  have hsince : ∀ el ∈ remaining keep (s.ticks + 1) b.urls, n ≤ el.since := fun el hel => by rw [mem_remaining hel, hn]
  cases hurls : remaining keep (s.ticks + 1) b.urls with
  | nil =>
      simp only [processBatch, hb, hurls, addBack]
      exact ⟨h.drop hin rfl, rfl, rfl, trivial, fun _ => rfl⟩
  | cons el rest =>
      rw [hurls] at hsince
      have hfile := h.file (b := ⟨el :: rest, true⟩) hlocal rfl hsince (k := el.addedTime)
        (l := (s.timeLists el.addedTime).addToHead ip) (by rw [IterList.all_addToHead]) (fun j hj => List.mem_cons.mp hj)
      simp only [processBatch, hb, hurls, addBack, if_pos hlocal, State.setBatch, State.setList, update_idem]
      refine ⟨hfile, trivial, trivial, trivial, fun k => ?_⟩
      by_cases hk : k = el.addedTime
      · subst hk
        rw [update_self]
        rfl
      · rw [update_of_ne hk]

theorem processBatch_local (s : State ρ) (keep : Nat → Bool) :
    (∃ b, (processBatch s keep localIP).currentBatches = update s.currentBatches localIP b) ∧
      (processBatch s keep localIP).timeLists = s.timeLists ∧ (processBatch s keep localIP).ticks = s.ticks ∧
      (processBatch s keep localIP).currentTime = s.currentTime ∧
      ((processBatch s keep localIP).processed = s.processed ∨ (processBatch s keep localIP).processed = s.processed ++ [localIP]) := by
  cases hb : s.currentBatches localIP with
  | none =>
      simp only [processBatch, hb]
      exact ⟨⟨none, by rw [← hb, update_eq_self]⟩, trivial, trivial, trivial, .inl trivial⟩
  | some b =>
      cases hurls : remaining keep (s.ticks + 1) b.urls with
      | nil =>
          simp only [processBatch, hb, hurls, addBack]
          exact ⟨⟨_, rfl⟩, rfl, rfl, rfl, .inr trivial⟩
      | cons el rest =>
          simp only [processBatch, hb, hurls, addBack, ne_eq, not_true_eq_false, if_false]
          exact ⟨⟨_, rfl⟩, rfl, rfl, rfl, .inr trivial⟩

end Filed

/-- The state between two events. -/
structure Sound (s : State ρ) : Prop where
  filed : Filed s.currentBatches s.timeLists s.ticks s.currentTime []
  atEnd : ∀ k, (s.timeLists k).rest = []
  processed : s.processed.Nodup

theorem eligibleLoop_spec (oldest t : Fin batchWriteDeadline) (keep : Nat → Nat → Bool) (n : Nat) {s : State ρ}
    (hfiled : Filed s.currentBatches s.timeLists (s.ticks + 1) t []) (hn : (s.timeLists oldest).rest.length ≤ n)
    (hothers : ∀ k ≠ oldest, (s.timeLists k).rest = []) (hnodup : (s.processed ++ (s.timeLists oldest).rest).Nodup)
    (hlocal : localIP ∉ s.processed) :
    Filed (eligibleLoop oldest keep n s).currentBatches (eligibleLoop oldest keep n s).timeLists (s.ticks + 1) t [] ∧
      (∀ k, ((eligibleLoop oldest keep n s).timeLists k).rest = []) ∧ (eligibleLoop oldest keep n s).ticks = s.ticks ∧
      (eligibleLoop oldest keep n s).currentTime = s.currentTime ∧ (eligibleLoop oldest keep n s).processed.Nodup ∧
      localIP ∉ (eligibleLoop oldest keep n s).processed := by
  induction n generalizing s with
  | zero =>
      have hnil : (s.timeLists oldest).rest = [] := List.length_eq_zero_iff.mp (Nat.le_zero.mp hn)
      rw [hnil, List.append_nil] at hnodup
      refine ⟨hfiled, fun k => ?_, rfl, rfl, hnodup, hlocal⟩
      by_cases hk : k = oldest
      · exact hk ▸ hnil
      · exact hothers k hk
  | succ n ih =>
      rw [eligibleLoop]
      unfold getNextEligibleBatch
      cases hrest : (s.timeLists oldest).rest with
      | nil =>
          rw [hrest, List.append_nil] at hnodup
          refine ⟨hfiled, fun k => ?_, rfl, rfl, hnodup, hlocal⟩
          by_cases hk : k = oldest
          · exact hk ▸ hrest
          · exact hothers k hk
      | cons ip rest =>
          obtain ⟨hne, b, hb, -⟩ := hfiled.known oldest ip (by rw [IterList.all, hrest]; exact List.mem_append_right _ List.mem_cons_self)
          have htake := hfiled.take hrest ((s.currentBatches ip).map fun b => { b with inList := false })
          have hdeleted : (s.timeLists oldest).deletePresent.rest = rest := by
            rw [IterList.deletePresent, hrest, List.tail_cons]
          have htaken : update s.currentBatches ip ((s.currentBatches ip).map fun b => { b with inList := false }) ip =
              some { b with inList := false } := by
            rw [update_self, hb]
            rfl
          obtain ⟨hback, hticks, htime, hprocessed, hrests⟩ := Filed.process (s := { s with
            currentBatches := update s.currentBatches ip ((s.currentBatches ip).map fun b => { b with inList := false })
            timeLists := update s.timeLists oldest (s.timeLists oldest).deletePresent }) htake hne htaken rfl rfl (keep n)
          simp only at hticks htime hprocessed hrests ⊢
          generalize processBatch _ (keep n) ip = s' at hback hticks htime hprocessed hrests ⊢
          have hoff : (s'.timeLists oldest).rest = rest := by rw [hrests, update_self, hdeleted]
          rw [← hticks] at hback
          rw [hrest] at hn hnodup
          obtain ⟨h₁, h₂, h₃, h₄, h₅, h₆⟩ := ih (s := s') hback (by rw [hoff]; exact Nat.le_of_succ_le_succ hn)
            (fun k hk => by rw [hrests, update_of_ne hk]; exact hothers k hk)
            (by rw [hprocessed, hoff, List.append_assoc]; exact hnodup)
            (by rw [hprocessed]; exact List.not_mem_append hlocal (fun hin => hne (List.mem_singleton.mp hin).symm))
          rw [hticks] at h₁ h₃
          exact ⟨h₁, h₂, h₃, h₄.trans htime, h₅, h₆⟩

theorem sound_tick {s : State ρ} (h : Sound s) (keep : Nat → Nat → Bool) (critical : Bool) : Sound (checkBatchWrites s keep critical) := by
  have hstart : Filed s.currentBatches (update s.timeLists (after s.currentTime) (s.timeLists (after s.currentTime)).startIter)
      (s.ticks + 1) (after s.currentTime) [] := by
    have hall : ∀ k, (update s.timeLists (after s.currentTime) (s.timeLists (after s.currentTime)).startIter k).all =
        (s.timeLists k).all := by
      intro k
      by_cases hk : k = after s.currentTime
      · rw [hk, update_self, IterList.all_startIter]
      · rw [update_of_ne hk]
    refine ⟨fun k => ?_, fun k k' j hj hj' => ?_, fun k j hj => ?_, fun k j hj b hb el hel => ?_, fun j hj hout b hb hor => ?_,
      fun j hj => absurd hj List.not_mem_nil⟩
    · rw [hall]
      exact h.filed.nodup k
    · rw [hall] at hj hj'
      exact h.filed.unique k k' j hj hj'
    · rw [hall] at hj
      exact h.filed.known k j hj
    · by_cases hk : k = after s.currentTime
      · rw [hk, update_self] at hj
        exact absurd hj List.not_mem_nil
      · rw [update_of_ne hk] at hj
        have hdue := h.filed.due k j hj b hb el hel
        have hafter := due_after hk
        omega
    · obtain ⟨k, hk⟩ := h.filed.waiting j hj hout b hb hor
      exact ⟨k, by rwa [hall]⟩
  have hloop := eligibleLoop_spec
    (s := { s.setList (after s.currentTime) (s.timeLists (after s.currentTime)).startIter with processed := [] })
    (after s.currentTime) (after s.currentTime) keep (s.timeLists (after s.currentTime)).all.length hstart
    (by
      show (update s.timeLists _ _ (after s.currentTime)).rest.length ≤ _
      rw [update_self]
      exact Nat.le_refl _)
    (fun k hk => by
      show (update s.timeLists _ _ k).rest = []
      rw [update_of_ne hk]
      exact h.atEnd k)
    (by
      show (update s.timeLists _ _ (after s.currentTime)).rest.Nodup
      rw [update_self]
      exact h.filed.nodup _)
    List.not_mem_nil
  unfold checkBatchWrites
  simp only at hloop ⊢
  generalize eligibleLoop _ keep _ _ = s' at hloop ⊢
  obtain ⟨hfiled, hend, hticks, htime, hnodup, hlocal⟩ := hloop
  have hplain : Sound { s' with currentTime := after s'.currentTime, ticks := s'.ticks + 1 } := by
    refine ⟨?_, hend, hnodup⟩
    rw [hticks, htime]
    exact hfiled
  cases critical with
  | false => exact hplain
  | true =>
      unfold getLocalhostBatch
      cases s'.currentBatches localIP with
      | none => exact hplain
      | some b =>
          obtain ⟨⟨b', hbatches⟩, hlists, hticks', htime', hprocessed⟩ :=
            processBatch_local s' (keep (s.timeLists (after s.currentTime)).all.length)
          simp only [if_true, Option.map_some, Option.elim_some]
          generalize processBatch s' _ localIP = s'' at hbatches hlists hticks' htime' hprocessed ⊢
          refine ⟨?_, fun k => ?_, ?_⟩
          · show Filed s''.currentBatches s''.timeLists (s''.ticks + 1) (after s''.currentTime) []
            rw [hbatches, hlists, hticks', htime', hticks, htime]
            exact hfiled.local b'
          · show (s''.timeLists k).rest = []
            rw [hlists]
            exact hend k
          · show s''.processed.Nodup
            obtain hsame | hmore := hprocessed
            · rw [hsame]
              exact hnodup
            · rw [hmore, List.nodup_append]
              exact ⟨hnodup, List.nodup_singleton _, fun a ha c hc hac => hlocal (by rwa [← List.mem_singleton.mp hc, ← hac])⟩

theorem sound_addToBatch {s : State ρ} (h : Sound s) (ip : BatchKey) (dat : ρ)
    (hfiled : ip ≠ localIP → ∀ b, s.currentBatches ip = some b → b.inList = true) : Sound (addToBatch s ip dat) := by
  unfold addToBatch
  cases hb : s.currentBatches ip with
  | some b =>
      have hin : ip = localIP ∨ b.inList = true := or_iff_not_imp_left.mpr fun hlocal => hfiled hlocal b hb
      have hstays : ¬ (b.inList = false ∧ ip ≠ localIP) := by
        rintro ⟨hout, hlocal⟩
        rw [hin.resolve_left hlocal] at hout
        cases hout
      simp only [if_neg hstays]
      exact ⟨h.filed.more hb hin (Nat.le_refl _), h.atEnd, h.processed⟩
  | none =>
      simp only [formNewBatch]
      by_cases hlocal : ip = localIP
      · subst hlocal
        rw [if_neg (not_not.mpr rfl)]
        exact ⟨h.filed.local _, h.atEnd, h.processed⟩
      · rw [if_pos hlocal]
        have htail : (s.timeLists s.currentTime).addToTail ip = ⟨(s.timeLists s.currentTime).before ++ [ip], []⟩ := by
          rw [IterList.addToTail, if_pos (h.atEnd _), h.atEnd]
        have hput := (h.filed.unknown hb).file (b := ⟨[⟨dat, s.currentTime, s.ticks⟩], true⟩) hlocal rfl
          (fun el hel => by rw [List.mem_singleton.mp hel]) (k := s.currentTime) (l := (s.timeLists s.currentTime).addToTail ip)
          (by rw [IterList.all_addToTail]; exact List.perm_append_singleton ip _)
          (fun j hj => by rw [htail] at hj; simpa [or_comm] using hj)
        refine ⟨hput, fun k => ?_, h.processed⟩
        show (update s.timeLists s.currentTime ((s.timeLists s.currentTime).addToTail ip) k).rest = []
        by_cases hk : k = s.currentTime
        · rw [hk, update_self, htail]
        · rw [update_of_ne hk]
          exact h.atEnd k

theorem Sound.turning {s : State ρ} (h : Sound s) : Turning s where
  once := fun ip _ => ⟨fun k => List.nodup_iff_count_le_one.mp (h.filed.nodup k) ip, fun k k' => h.filed.unique k k' ip⟩
  inList := by
    intro ip hlocal b hb
    refine ⟨fun hin => h.filed.waiting ip hlocal List.not_mem_nil b hb (.inl hin), fun ⟨k, hk⟩ => ?_⟩
    obtain ⟨-, b', hb', hin⟩ := h.filed.known k ip hk
    rwa [← Option.some.inj (hb'.symm.trans hb)]
  waiting := fun ip hlocal b hb hurls => h.filed.waiting ip hlocal List.not_mem_nil b hb (.inr hurls)
  inTime := by
    intro ip hlocal b hb el hel
    obtain ⟨k, hk⟩ := h.filed.waiting ip hlocal List.not_mem_nil b hb (.inr (List.ne_nil_of_mem hel))
    rw [IterList.all, h.atEnd, List.append_nil] at hk
    have hdue := h.filed.due k ip hk b hb el hel
    omega
  processed := h.processed

theorem sound_runs {events : List (Event ρ)} {s : State ρ} (hrun : ((batchSystem ρ).restrict Event.Listed).Runs events s) : Sound s := by
  have hinv : ((batchSystem ρ).restrict Event.Listed).Invariant (Sound (ρ := ρ)) := by
    refine ⟨fun s hs => ?_, fun s e s' h hstep => ?_⟩
    · rw [hs]
      exact ⟨⟨fun _ => List.nodup_nil, fun _ _ _ hj => absurd hj List.not_mem_nil, fun _ _ hj => absurd hj List.not_mem_nil,
        fun _ _ hj => absurd hj List.not_mem_nil, fun _ _ _ _ hb => absurd hb (by simp [initBatchSystem]),
        fun _ hj => absurd hj List.not_mem_nil⟩, fun _ => rfl, List.nodup_nil⟩
    · obtain ⟨hfiled, rfl⟩ := hstep
      cases e with
      | addToBatch ip dat => exact sound_addToBatch h ip dat hfiled
      | tick keep critical => exact sound_tick h keep critical
  exact hinv.holds hrun

/-- A batch that gets a response while it is off the lists is put into one without its flag. -/
theorem Turning.listed {s : State ρ} {e : Event ρ} (h : Turning (next s e)) : e.Listed s := by
  cases e with
  | tick keep critical => exact trivial
  | addToBatch ip dat =>
      intro hlocal b hb
      by_contra hin
      rw [Bool.not_eq_true] at hin
      have hbad : Turning (addToBatch s ip dat) := h
      simp only [addToBatch, hb, if_pos (And.intro hin hlocal)] at hbad
      have hflag := (hbad.inList ip hlocal { b with urls := b.urls ++ [⟨dat, s.currentTime, s.ticks⟩] } (update_self ..)).mpr
        ⟨s.currentTime, by
          show ip ∈ (update s.timeLists s.currentTime ((s.timeLists s.currentTime).addToTail ip) s.currentTime).all
          rw [update_self, IterList.all_addToTail]
          exact List.mem_append_right _ List.mem_cons_self⟩
      simp only [hin] at hflag
      cases hflag

/-- In a run every batch is in its list in every state just when no response is added to a batch that is off the lists. -/
theorem turning_iff {events : List (Event ρ)} {s : State ρ} (hrun : (batchSystem ρ).Runs events s) :
    (∀ before t, before <+: events → (batchSystem ρ).Runs before t → Turning t) ↔
      ((batchSystem ρ).restrict Event.Listed).Runs events s := by
  refine System.Runs.forall_prefix_iff (fun s s' hs hs' => hs.trans hs'.symm) (fun s e s₁ s₂ h₁ h₂ => h₁.trans h₂.symm)
    (fun labels s h => (sound_runs h).turning) (fun labels s e s' _ hstep h => ?_) hrun
  rw [hstep] at h
  exact h.listed

/-- Two responses for one client, and a tick. -/
theorem turning_sample : ∃ s : State Nat, Turning s ∧ s.ticks = 1 := by
  have hrun : (batchSystem Nat).Runs ([] ++ [Event.addToBatch 5 0] ++ [Event.addToBatch 5 1] ++ [Event.tick (fun _ _ => true) false]) _ :=
    .step (.step (.step (.start rfl) rfl) rfl) rfl
  refine ⟨_, (turning_iff hrun).mpr ?_ _ _ (List.prefix_refl _) hrun, rfl⟩
  refine .step (.step (.step (.start rfl) ⟨fun _ b hb => ?_, rfl⟩) ⟨fun _ b hb => ?_, rfl⟩) ⟨trivial, rfl⟩
  · cases hb
  · cases hb
    rfl

theorem runs_foldl (events : List (Event ρ)) : (batchSystem ρ).Runs events (events.foldl next initBatchSystem) := by
  induction events using List.reverseRecOn with
  | nil => exact .start rfl
  | append_singleton events e ih =>
      rw [List.foldl_append]
      exact ih.step rfl

/-- After its only response has been written a batch gets two more, and is in the list twice. -/
theorem batch_listed_twice : ∃ (events : List (Event Nat)) (s : State Nat), (batchSystem Nat).Runs events s ∧
    (∃ k, (s.timeLists k).all.count 5 = 2) ∧ ¬ Turning s := by
  have hcount : ((([Event.addToBatch 5 0] ++ List.replicate 30 (Event.tick (fun _ _ => false) false) ++ [Event.addToBatch 5 1,
      Event.addToBatch 5 2] :
      List (Event Nat)).foldl next initBatchSystem).timeLists ⟨0, by decide⟩).all.count 5 = 2 := by
    decide +kernel
  refine ⟨_, _, runs_foldl _, ⟨_, hcount⟩, fun h => ?_⟩
  have honce := (h.once 5 (by decide)).1 ⟨0, by decide⟩
  omega

end BeagleCache.BatchWheel

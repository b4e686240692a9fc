import BeagleCache.ChunkRequests
import BeagleCache.Reassemble
import Mathlib.Data.Rat.Cast.Order

/-! Intelligent load shedding, `ils.c`. The names whose lookups are done go to queues: the ones that were found to the disk queue of
their peer, the others to the network queue. As long as the slowest disk is slower than the network its smallest chunk is moved to
the network queue. The latencies are exact here. -/

namespace BeagleCache.LoadShedding

open Function Run

/-! ## Arrays -/

/-- A loop that replaces entry `i` of an array with `size` entries, then `i + 1`, `n` of them. -/
def updateEach {α : Type} (size : Nat) (f : Nat → α → α) : Nat → Nat → (Nat → α) → Run (Nat → α)
  | 0, _, a => .ok a
  | n + 1, i, a => do
      inBounds (i < size)
      updateEach size f n (i + 1) (update a i (f i (a i)))

theorem updateEach_spec {α : Type} (size : Nat) (f : Nat → α → α) (n i : Nat) (hsize : i + n ≤ size) (a : Nat → α) :
    updateEach size f n i a = .ok fun k => if i ≤ k ∧ k < i + n then f k (a k) else a k := by
  induction n generalizing i a with
  | zero =>
      rw [updateEach]
      congr 1
      funext k
      rw [if_neg (by omega)]
  | succ n ih =>
      rw [updateEach, inBounds_of (by omega), ok_bind, ih (i + 1) (by omega)]
      congr 1
      funext k
      by_cases hk : k = i
      · subst hk
        rw [if_neg (by omega), if_pos (by omega), update_self]
      · rw [update_of_ne hk]
        congr 1
        exact propext ⟨fun h => by omega, fun h => by omega⟩

/-! ## The queues -/

/-- `MAX_ILS_QUEUE`. -/
def maxIlsQueue : Nat := 65536

/-- `ILSQueue`. The names are numbered, and the number of a name stands for the pointer to it. -/
structure ILSQueue where
  q : List Nat
  totBytes : BitVec 32
  latency : ℚ

/-- What `ILSReset` makes of a queue. -/
def ilsReset : ILSQueue := ⟨[], 0, 0⟩

/-- `ILSEnqueue` of a name with `length` bytes. -/
def ilsEnqueue (queue : ILSQueue) (cni length overhead : Nat) : Run ILSQueue := do
  check (queue.q.length + 1 < maxIlsQueue)
  return { queue with q := queue.q ++ [cni], totBytes := queue.totBytes + BitVec.ofNat 32 (length + overhead) }

/-- `ILSDequeue`: the last name, `length` gives its bytes. -/
def ilsDequeue (length : Nat → Nat) (queue : ILSQueue) : Option (Nat × ILSQueue) :=
  match queue.q.getLast? with
  | none => none
  | some cni => some (cni, { queue with q := queue.q.dropLast, totBytes := queue.totBytes - BitVec.ofNat 32 (length cni) })

/-- The configuration: `g_SeekLatency`, which the product with an unsigned number takes as unsigned, `g_WanLinkBW` in Kbps and
`g_WanLinkRTT` in ms, and the build flag `_WAPROX_ILS_NOHISTORY`, which the Makefile sets. -/
structure LinkConfig where
  seekLatency : Nat
  wanLinkBW : Int
  wanLinkRTT : Int
  noHistory : Bool

/-- `networkPendingBytes` and `diskPendingChunks` of a peer. -/
structure PeerLoad where
  networkPendingBytes : Nat
  diskPendingChunks : Nat

/-- `ILSUpdateDiskLatency`. -/
def updateDiskLatency (cfg : LinkConfig) (queue : ILSQueue) (pendingChunks : Nat) : ILSQueue :=
  let pendingChunks := if cfg.noHistory then 0 else pendingChunks
  { queue with latency := cfg.seekLatency * (queue.q.length + pendingChunks) }

/-- `ILSUpdateNetworkLatency`. -/
def updateNetworkLatency (cfg : LinkConfig) (queue : ILSQueue) (pendingBytes : Nat) : Run ILSQueue := do
  check (0 < cfg.wanLinkBW)
  let pendingBytes := if cfg.noHistory then 0 else pendingBytes
  return { queue with latency := (queue.totBytes.toNat + pendingBytes) * 8 / cfg.wanLinkBW + cfg.wanLinkRTT }

/-- `diskQueue`, `networkQueue` and `sendQueue`, and `isNetwork` of the names. -/
structure Queues where
  disk : Nat → ILSQueue
  network : ILSQueue
  send : ILSQueue
  isNetwork : Nat → Bool

/-- `qsort` with `CompareChunkSizes`: the longest chunk comes first, and nothing is said about chunks of the same length. -/
structure SizeSort (length : Nat → Nat) where
  sort : List Nat → List Nat
  perm : ∀ q, (sort q).Perm q
  descends : ∀ q, (sort q).Pairwise fun a b => length b ≤ length a

section Code

/-! `allocated` is the number of entries that `diskQueue` was allocated with and `numPeers` is `g_NumPeers`. -/

variable (allocated numPeers : Nat)

/-- `InitILS` after the allocations. -/
def resetQueues (s : Queues) : Run Queues := do
  let disk ← updateEach allocated (fun _ _ => ilsReset) numPeers 0 s.disk
  return { s with disk := disk, network := ilsReset, send := ilsReset }

variable (cnis : Nat → ChunkNameInfo)

/-- `PopulateILSQueue`, from the names of the ready entries in their order. -/
def populateQueues : List Nat → Queues → Run Queues
  | [], s => .ok s
  | cni :: rest, s =>
      if (cnis cni).inMemory = true then populateQueues rest s
      else do
        check ((cnis cni).peerIdx ≠ -1)
        let s ←
          if (cnis cni).isHit = true then do
            inBounds (0 ≤ (cnis cni).peerIdx ∧ (cnis cni).peerIdx < allocated)
            let queue ← ilsEnqueue (s.disk (cnis cni).peerIdx.toNat) cni (cnis cni).length 0
            pure { s with
              disk := update s.disk (cnis cni).peerIdx.toNat queue
              isNetwork := update s.isNetwork cni false }
          else do
            let network ← ilsEnqueue s.network cni (cnis cni).length perChunkResponseOverhead
            pure { s with network := network, isNetwork := update s.isNetwork cni true }
        let send ← ilsEnqueue s.send cni (cnis cni).length 0
        populateQueues rest { s with send := send }

/-- The loop that finds the disk queue with the highest latency. -/
def slowestDisk (disk : Nat → ILSQueue) : Nat → Nat → ℚ → Nat → Run (ℚ × Nat)
  | 0, _, maxLatency, maxPeer => .ok (maxLatency, maxPeer)
  | n + 1, i, maxLatency, maxPeer => do
      inBounds (i < allocated)
      if maxLatency < (disk i).latency then slowestDisk disk n (i + 1) (disk i).latency i
      else slowestDisk disk n (i + 1) maxLatency maxPeer

variable (cfg : LinkConfig) (load : Nat → PeerLoad)

/-- The pending bytes of all peers. -/
def networkPendingBytes : Nat := ((List.range numPeers).map fun i => (load i).networkPendingBytes).sum

/-- The loop of `FindBestSchedule`, with `numMove`. The two statistics of the user connection are left out. -/
def moveChunks : Nat → Queues → Nat → Run (Queues × Nat)
  | 0, _, _ => .error .hang
  | n + 1, s, numMove => do
      let (maxLatency, maxPeer) ← slowestDisk allocated s.disk numPeers 0 (-1) 0
      if maxLatency ≤ s.network.latency then return (s, numMove)
      else do
        inBounds (maxPeer < allocated)
        match ilsDequeue (fun cni => (cnis cni).length) (s.disk maxPeer) with
        | none => return (s, numMove)
        | some (cni, queue) => do
            let network ← ilsEnqueue s.network cni (cnis cni).length perChunkResponseOverhead
            check (s.isNetwork cni = false)
            let network ← updateNetworkLatency cfg network (networkPendingBytes numPeers load)
            moveChunks n
              { s with
                disk := update s.disk maxPeer (updateDiskLatency cfg queue (load maxPeer).diskPendingChunks)
                network := network
                isNetwork := update s.isNetwork cni true }
              (numMove + 1)

variable (qsort : SizeSort fun cni => (cnis cni).length)

/-- `FindBestSchedule` before the loop. -/
def sortQueues (s : Queues) : Run Queues := do
  let disk ← updateEach allocated
    (fun i queue => updateDiskLatency cfg { queue with q := qsort.sort queue.q } (load i).diskPendingChunks) numPeers 0 s.disk
  let network ← updateNetworkLatency cfg { s.network with q := qsort.sort s.network.q } (networkPendingBytes numPeers load)
  return { s with disk := disk, network := network }

/-- `FindBestSchedule`; `fuel` bounds the rounds of its loop. -/
def findBestSchedule (fuel : Nat) (s : Queues) : Run (Queues × Nat) := do
  let s ← sortQueues allocated numPeers cnis cfg load qsort s
  moveChunks allocated numPeers cnis cfg load fuel s 0

/-- `IntelligentLoadShedding` up to the requests, for the names `0`, …, `numNames - 1` of the ready entries. -/
def scheduleChunks (fuel numNames : Nat) (s : Queues) : Run (Queues × Nat) := do
  let s ← resetQueues allocated numPeers s
  let s ← populateQueues allocated cnis (List.range numNames) s
  if 0 < s.send.q.length then findBestSchedule allocated numPeers cnis cfg load qsort fuel s
  else return (s, 0)

end Code

/-! ## Where the names are -/

section Filed

variable (numPeers : Nat) (cnis : Nat → ChunkNameInfo)

/-- The bytes of a queue, each name with its overhead, as the unsigned counter has them. -/
def total (overhead : Nat) (q : List Nat) : BitVec 32 := BitVec.ofNat 32 (q.map fun c => (cnis c).length + overhead).sum

/-- The names `ids` are in the queues, each in one of them: a name in a disk queue was found, and at that peer; the names in the
network queue are the ones marked so. -/
structure Filed (ids : List Nat) (s : Queues) : Prop where
  mem : ∀ c, c ∈ ids ↔ c ∈ s.network.q ∨ ∃ i < numPeers, c ∈ (s.disk i).q
  networkNodup : s.network.q.Nodup
  diskNodup : ∀ i < numPeers, (s.disk i).q.Nodup
  own : ∀ i < numPeers, ∀ c ∈ (s.disk i).q, (cnis c).isHit = true ∧ (cnis c).peerIdx = i
  onNetwork : ∀ c ∈ s.network.q, s.isNetwork c = true
  onDisk : ∀ i < numPeers, ∀ c ∈ (s.disk i).q, s.isNetwork c = false
  networkTotal : s.network.totBytes = total cnis perChunkResponseOverhead s.network.q
  diskTotal : ∀ i < numPeers, (s.disk i).totBytes = total cnis 0 (s.disk i).q

variable {numPeers cnis} {ids : List Nat} {s s' : Queues} {c i : Nat} {queue : ILSQueue}

theorem total_concat (overhead : Nat) (q : List Nat) (c : Nat) :
    total cnis overhead (q ++ [c]) = total cnis overhead q + BitVec.ofNat 32 ((cnis c).length + overhead) := by
  rw [total, List.map_append, List.sum_append, BitVec.ofNat_add]
  simp [total]

theorem total_perm {overhead : Nat} {q q' : List Nat} (h : q.Perm q') : total cnis overhead q = total cnis overhead q' := by
  rw [total, total, (h.map _).sum_eq]

theorem nodup_concat {q : List Nat} (hq : q.Nodup) (hc : c ∉ q) : (q ++ [c]).Nodup := by
  rw [← List.concat_eq_append]
  exact hq.concat hc

/-- What holds of a queue by itself: its names are different, they belong there and are marked for it, and its bytes are theirs. -/
structure Holding (cnis : Nat → ChunkNameInfo) (belongs : Nat → Prop) (mark : Bool) (overhead : Nat) (isNetwork : Nat → Bool)
    (queue : ILSQueue) : Prop where
  nodup : queue.q.Nodup
  own : ∀ c ∈ queue.q, belongs c
  marked : ∀ c ∈ queue.q, isNetwork c = mark
  totBytes : queue.totBytes = total cnis overhead queue.q

section Holding

variable {belongs : Nat → Prop} {mark : Bool} {overhead : Nat} {isNetwork : Nat → Bool} {queue' : ILSQueue}

theorem holding_reset : Holding cnis belongs mark overhead isNetwork ilsReset := by
  refine ⟨List.nodup_nil, ?_, ?_, rfl⟩
  · intro c hc
    cases hc
  · intro c hc
    cases hc

theorem Holding.setMark (h : Holding cnis belongs mark overhead isNetwork queue) (hc : c ∉ queue.q) (v : Bool) :
    Holding cnis belongs mark overhead (update isNetwork c v) queue := by
  refine ⟨h.nodup, h.own, fun b hb => ?_, h.totBytes⟩
  rw [update_of_ne (ne_of_mem_of_not_mem hb hc)]
  exact h.marked b hb

theorem Holding.push (h : Holding cnis belongs mark overhead isNetwork queue) (hc : c ∉ queue.q) (hbelongs : belongs c)
    (hq : queue'.q = queue.q ++ [c]) (htotal : queue'.totBytes = queue.totBytes + BitVec.ofNat 32 ((cnis c).length + overhead)) :
    Holding cnis belongs mark overhead (update isNetwork c mark) queue' := by
  have hmem : ∀ b ∈ queue'.q, b ∈ queue.q ∨ b = c := by
    intro b hb
    rwa [hq, List.mem_append, List.mem_singleton] at hb
  refine ⟨?_, fun b hb => ?_, fun b hb => ?_, ?_⟩
  · rw [hq]
    exact nodup_concat h.nodup hc
  · rcases hmem b hb with hb | rfl
    · exact h.own b hb
    · exact hbelongs
  · rcases hmem b hb with hb | rfl
    · exact (h.setMark hc mark).marked b hb
    · exact update_self b mark isNetwork
  · rw [htotal, hq, total_concat, h.totBytes]

theorem Holding.pop (h : Holding cnis belongs mark overhead isNetwork queue) (hlast : queue.q = queue'.q ++ [c])
    (htotal : queue'.totBytes = queue.totBytes - BitVec.ofNat 32 ((cnis c).length + overhead)) :
    Holding cnis belongs mark overhead isNetwork queue' ∧ c ∉ queue'.q := by
  have hmem : ∀ b ∈ queue'.q, b ∈ queue.q := by
    intro b hb
    rw [hlast]
    exact List.mem_append_left _ hb
  have hnodup := h.nodup
  have hbefore := h.totBytes
  rw [hlast] at hnodup hbefore
  obtain ⟨hrest, -, hapart⟩ := List.nodup_append'.mp hnodup
  refine ⟨⟨hrest, fun b hb => h.own b (hmem b hb), fun b hb => h.marked b (hmem b hb), ?_⟩, fun hc => hapart hc List.mem_cons_self⟩
  calc queue'.totBytes = queue.totBytes - BitVec.ofNat 32 ((cnis c).length + overhead) := htotal
    _ = total cnis overhead (queue'.q ++ [c]) - BitVec.ofNat 32 ((cnis c).length + overhead) := by rw [hbefore]
    _ = total cnis overhead queue'.q := by rw [total_concat, BitVec.add_sub_cancel]

theorem Holding.perm (h : Holding cnis belongs mark overhead isNetwork queue) (hq : queue'.q.Perm queue.q)
    (htotal : queue'.totBytes = queue.totBytes) : Holding cnis belongs mark overhead isNetwork queue' :=
  ⟨hq.nodup_iff.mpr h.nodup, fun b hb => h.own b (hq.mem_iff.mp hb), fun b hb => h.marked b (hq.mem_iff.mp hb),
    by rw [htotal, h.totBytes, total_perm hq]⟩

end Holding

theorem Filed.network (h : Filed numPeers cnis ids s) :
    Holding cnis (fun _ => True) true perChunkResponseOverhead s.isNetwork s.network :=
  ⟨h.networkNodup, fun _ _ => trivial, h.onNetwork, h.networkTotal⟩

theorem Filed.disk (h : Filed numPeers cnis ids s) (hi : i < numPeers) :
    Holding cnis (fun c => (cnis c).isHit = true ∧ (cnis c).peerIdx = i) false 0 s.isNetwork (s.disk i) :=
  ⟨h.diskNodup i hi, h.own i hi, h.onDisk i hi, h.diskTotal i hi⟩

theorem Filed.of_holding (hmem : ∀ c, c ∈ ids ↔ c ∈ s.network.q ∨ ∃ i < numPeers, c ∈ (s.disk i).q)
    (hnetwork : Holding cnis (fun _ => True) true perChunkResponseOverhead s.isNetwork s.network)
    (hdisk : ∀ i < numPeers, Holding cnis (fun c => (cnis c).isHit = true ∧ (cnis c).peerIdx = i) false 0 s.isNetwork (s.disk i)) :
    Filed numPeers cnis ids s :=
  ⟨hmem, hnetwork.nodup, fun i hi => (hdisk i hi).nodup, fun i hi => (hdisk i hi).own, hnetwork.marked, fun i hi => (hdisk i hi).marked,
    hnetwork.totBytes, fun i hi => (hdisk i hi).totBytes⟩

theorem exists_split {n : Nat} (hi : i < n) (P : Nat → Prop) : (∃ k < n, P k) ↔ P i ∨ ∃ k < n, k ≠ i ∧ P k := by
  constructor
  · rintro ⟨k, hk, hP⟩
    by_cases hki : k = i
    · exact .inl (hki ▸ hP)
    · exact .inr ⟨k, hk, hki, hP⟩
  · rintro (hP | ⟨k, hk, -, hP⟩)
    · exact ⟨i, hi, hP⟩
    · exact ⟨k, hk, hP⟩

theorem exists_update (hi : i < numPeers) (disk : Nat → ILSQueue) (queue : ILSQueue) (b : Nat) :
    (∃ k < numPeers, b ∈ (update disk i queue k).q) ↔ b ∈ queue.q ∨ ∃ k < numPeers, k ≠ i ∧ b ∈ (disk k).q := by
  rw [exists_split hi, update_self]
  refine or_congr_right (exists_congr fun k => and_congr_right fun _ => and_congr_right fun hne => ?_)
  rw [update_of_ne hne]

theorem Filed.length_network (h : Filed numPeers cnis ids s) : s.network.q.length ≤ ids.length :=
  (h.networkNodup.subperm fun c hc => (h.mem c).mpr (.inl hc)).length_le

theorem Filed.length_disk (h : Filed numPeers cnis ids s) (hi : i < numPeers) : (s.disk i).q.length ≤ ids.length :=
  ((h.diskNodup i hi).subperm fun c hc => (h.mem c).mpr (.inr ⟨i, hi, hc⟩)).length_le

theorem Filed.toDisk (h : Filed numPeers cnis ids s) (hc : c ∉ ids) (hi : i < numPeers)
    (hpeer : (cnis c).isHit = true ∧ (cnis c).peerIdx = i)
    (hq : queue.q = (s.disk i).q ++ [c]) (htotal : queue.totBytes = (s.disk i).totBytes + BitVec.ofNat 32 ((cnis c).length + 0))
    (hdisk : s'.disk = update s.disk i queue) (hnetwork : s'.network = s.network)
    (hflag : s'.isNetwork = update s.isNetwork c false) : Filed numPeers cnis (ids ++ [c]) s' := by
  have hnotNetwork : c ∉ s.network.q := fun hb => hc ((h.mem c).mpr (.inl hb))
  have hnot : ∀ k < numPeers, c ∉ (s.disk k).q := fun k hk hb => hc ((h.mem c).mpr (.inr ⟨k, hk, hb⟩))
  refine .of_holding (fun b => ?_) ?_ fun k hk => ?_
  · rw [List.mem_append, List.mem_singleton, h.mem, hnetwork, hdisk, exists_update hi, exists_split hi fun k => b ∈ (s.disk k).q, hq,
      List.mem_append, List.mem_singleton, or_assoc, or_right_comm]
  · rw [hnetwork, hflag]
    exact h.network.setMark hnotNetwork false
  · rw [hdisk, hflag]
    by_cases hki : k = i
    · rw [hki, update_self]
      exact (h.disk hi).push (hnot i hi) hpeer hq htotal
    · rw [update_of_ne hki]
      exact (h.disk hk).setMark (hnot k hk) false

theorem Filed.toNetwork (h : Filed numPeers cnis ids s) (hc : c ∉ ids) (hq : queue.q = s.network.q ++ [c])
    (htotal : queue.totBytes = s.network.totBytes + BitVec.ofNat 32 ((cnis c).length + perChunkResponseOverhead))
    (hdisk : s'.disk = s.disk) (hnetwork : s'.network = queue) (hflag : s'.isNetwork = update s.isNetwork c true) :
    Filed numPeers cnis (ids ++ [c]) s' := by
  refine .of_holding (fun b => ?_) ?_ fun k hk => ?_
  · rw [List.mem_append, List.mem_singleton, h.mem, hnetwork, hdisk, hq, List.mem_append, List.mem_singleton]
    exact or_right_comm
  · rw [hnetwork, hflag]
    exact h.network.push (fun hb => hc ((h.mem c).mpr (.inl hb))) trivial hq htotal
  · rw [hdisk, hflag]
    exact (h.disk hk).setMark (fun hb => hc ((h.mem c).mpr (.inr ⟨k, hk, hb⟩))) true

theorem Filed.move (h : Filed numPeers cnis ids s) (hi : i < numPeers) (hlast : (s.disk i).q = queue.q ++ [c])
    (htotal : queue.totBytes = (s.disk i).totBytes - BitVec.ofNat 32 (cnis c).length) {network : ILSQueue}
    (hq : network.q = s.network.q ++ [c])
    (hsum : network.totBytes = s.network.totBytes + BitVec.ofNat 32 ((cnis c).length + perChunkResponseOverhead))
    (hdisk : s'.disk = update s.disk i queue) (hnetwork : s'.network = network)
    (hflag : s'.isNetwork = update s.isNetwork c true) : Filed numPeers cnis ids s' := by
  obtain ⟨hrest, hnew⟩ := (h.disk hi).pop hlast htotal
  have hmem : c ∈ (s.disk i).q := by
    rw [hlast]
    exact List.mem_append_right _ List.mem_cons_self
  have hnotNetwork : c ∉ s.network.q := fun hb =>
    Bool.false_ne_true ((h.onDisk i hi c hmem).symm.trans (h.onNetwork c hb))
  refine .of_holding (fun b => ?_) ?_ fun k hk => ?_
  · rw [h.mem, hnetwork, hdisk, exists_update hi, exists_split hi fun k => b ∈ (s.disk k).q, hlast, hq]
    simp only [List.mem_append, List.mem_singleton]
    tauto
  · rw [hnetwork, hflag]
    exact h.network.push hnotNetwork trivial hq hsum
  · rw [hdisk, hflag]
    by_cases hki : k = i
    · rw [hki, update_self]
      exact hrest.setMark hnew true
    · rw [update_of_ne hki]
      refine (h.disk hk).setMark (fun hb => hki ?_) true
      exact_mod_cast (h.own k hk c hb).2.symm.trans (h.own i hi c hmem).2

theorem Filed.perm (h : Filed numPeers cnis ids s) (hnetwork : s'.network.q.Perm s.network.q)
    (hnetworkTotal : s'.network.totBytes = s.network.totBytes) (hdisk : ∀ i < numPeers, (s'.disk i).q.Perm (s.disk i).q)
    (hdiskTotal : ∀ i < numPeers, (s'.disk i).totBytes = (s.disk i).totBytes) (hflag : s'.isNetwork = s.isNetwork) :
    Filed numPeers cnis ids s' := by
  refine .of_holding (fun b => ?_) ?_ fun k hk => ?_
  · rw [h.mem, hnetwork.mem_iff]
    refine or_congr_right (exists_congr fun k => and_congr_right fun hk => ?_)
    rw [(hdisk k hk).mem_iff]
  · rw [hflag]
    exact h.network.perm hnetwork hnetworkTotal
  · rw [hflag]
    exact (h.disk hk).perm (hdisk k hk) (hdiskTotal k hk)

/-- While a name is in a disk queue the network queue has not all names. -/
theorem Filed.length_network_lt (h : Filed numPeers cnis ids s) (hi : i < numPeers) (hc : c ∈ (s.disk i).q) :
    s.network.q.length < ids.length := by
  have hnotNetwork : c ∉ s.network.q := fun hb =>
    Bool.false_ne_true ((h.onDisk i hi c hc).symm.trans (h.onNetwork c hb))
  have hsub : (c :: s.network.q).Subperm ids := (List.nodup_cons.mpr ⟨hnotNetwork, h.networkNodup⟩).subperm fun b hb => by
    rcases List.mem_cons.mp hb with rfl | hb
    · exact (h.mem b).mpr (.inr ⟨i, hi, hc⟩)
    · exact (h.mem b).mpr (.inl hb)
  exact hsub.length_le

theorem filed_nil (hdisk : ∀ i < numPeers, s.disk i = ilsReset) (hnetwork : s.network = ilsReset) : Filed numPeers cnis [] s := by
  refine .of_holding (fun b => ?_) ?_ fun k hk => ?_
  · rw [hnetwork]
    refine ⟨fun hb => .inl hb, fun hb => hb.elim id ?_⟩
    rintro ⟨k, hk, hb⟩
    rwa [hdisk k hk] at hb
  · rw [hnetwork]
    exact holding_reset
  · rw [hdisk k hk]
    exact holding_reset

end Filed

/-! ## The queues are filled -/

theorem ilsEnqueue_of {queue : ILSQueue} (hroom : queue.q.length + 1 < maxIlsQueue) (cni length overhead : Nat) :
    ilsEnqueue queue cni length overhead =
      .ok { queue with q := queue.q ++ [cni], totBytes := queue.totBytes + BitVec.ofNat 32 (length + overhead) } := by
  rw [ilsEnqueue, check_of hroom]
  rfl

section Populate

variable (cnis : Nat → ChunkNameInfo)

/-- The names that need a request. -/
def scheduled (names : List Nat) : List Nat := names.filter fun c => !(cnis c).inMemory

/-- `PickPeerToRedirect` has given every such name a peer. -/
def Picked (numPeers : Nat) (names : List Nat) : Prop :=
  ∀ c ∈ scheduled cnis names, 0 ≤ (cnis c).peerIdx ∧ (cnis c).peerIdx < numPeers

variable {cnis} {allocated numPeers : Nat}

theorem populateQueues_spec (halloc : numPeers ≤ allocated) {ids names : List Nat} {s : Queues} (hpicked : Picked cnis numPeers names)
    (h : Filed numPeers cnis ids s) (hsend : s.send.q = ids) (hnodup : (ids ++ scheduled cnis names).Nodup)
    (hroom : (ids ++ scheduled cnis names).length < maxIlsQueue) :
    ∃ s', populateQueues allocated cnis names s = .ok s' ∧ Filed numPeers cnis (ids ++ scheduled cnis names) s' ∧
      s'.send.q = ids ++ scheduled cnis names := by
  induction names generalizing ids s with
  | nil =>
      rw [scheduled, List.filter_nil, List.append_nil]
      exact ⟨s, rfl, h, hsend⟩
  | cons c names ih =>
      rw [populateQueues]
      by_cases hmem : (cnis c).inMemory = true
      · have hskip : scheduled cnis (c :: names) = scheduled cnis names := List.filter_cons_of_neg (by simp [hmem])
        rw [hskip] at hnodup hroom ⊢
        obtain ⟨s', hs'⟩ := ih (fun b hb => hpicked b (by rw [hskip]; exact hb)) h hsend hnodup hroom
        exact ⟨s', by rw [if_pos hmem, hs'.1], hs'.2⟩
      · have htake : scheduled cnis (c :: names) = c :: scheduled cnis names := List.filter_cons_of_pos (by simp [hmem])
        obtain ⟨hlow, hhigh⟩ := hpicked c (by rw [htake]; exact List.mem_cons_self)
        have hrest : Picked cnis numPeers names := fun b hb => hpicked b (by rw [htake]; exact List.mem_cons_of_mem c hb)
        rw [htake, List.append_cons] at hnodup hroom ⊢
        have hnew : c ∉ ids := fun hc =>
          (List.nodup_append.mp (List.nodup_append.mp hnodup).1).2.2 c hc c (List.mem_singleton.mpr rfl) rfl
        have hids : ids.length + 1 < maxIlsQueue := by
          simp only [List.length_append, List.length_singleton] at hroom
          omega
        have hsendRoom : s.send.q.length + 1 < maxIlsQueue := by rw [hsend]; exact hids
        rw [if_neg hmem, check_of (show (cnis c).peerIdx ≠ -1 by omega), ok_bind]
        by_cases hhit : (cnis c).isHit = true
        · have hi : (cnis c).peerIdx.toNat < numPeers := by omega
          have hfull := h.length_disk hi
          rw [if_pos hhit, inBounds_of ⟨hlow, by omega⟩, ok_bind, ilsEnqueue_of (by omega), ok_bind, pure_eq_ok, ok_bind]
          dsimp only
          rw [ilsEnqueue_of hsendRoom, ok_bind]
          refine ih hrest (h.toDisk hnew hi ⟨hhit, by omega⟩ rfl rfl rfl rfl rfl) ?_ hnodup hroom
          exact congrArg (· ++ [c]) hsend
        · have hfull := h.length_network
          rw [if_neg hhit, ilsEnqueue_of (by omega), ok_bind, pure_eq_ok, ok_bind]
          dsimp only
          rw [ilsEnqueue_of hsendRoom, ok_bind]
          refine ih hrest (h.toNetwork hnew rfl rfl rfl rfl rfl) ?_ hnodup hroom
          exact congrArg (· ++ [c]) hsend

end Populate

/-! ## The loop -/

section Loop

variable {allocated numPeers : Nat} {cnis : Nat → ChunkNameInfo} {cfg : LinkConfig} {load : Nat → PeerLoad}

theorem slowestDisk_spec (disk : Nat → ILSQueue) (n i : Nat) (hsize : i + n ≤ allocated) (maxLatency : ℚ) (maxPeer : Nat) :
    ∃ l p, slowestDisk allocated disk n i maxLatency maxPeer = .ok (l, p) ∧ maxLatency ≤ l ∧
      (∀ k, i ≤ k → k < i + n → (disk k).latency ≤ l) ∧
      (l = maxLatency ∧ p = maxPeer ∨ i ≤ p ∧ p < i + n ∧ l = (disk p).latency) := by
  induction n generalizing i maxLatency maxPeer with
  | zero => exact ⟨maxLatency, maxPeer, rfl, le_refl _, fun k hk hlt => by omega, .inl ⟨rfl, rfl⟩⟩
  | succ n ih =>
      rw [slowestDisk, inBounds_of (by omega), ok_bind]
      by_cases hlt : maxLatency < (disk i).latency
      · obtain ⟨l, p, hlp, hle, hall, hfrom⟩ := ih (i + 1) (by omega) (disk i).latency i
        refine ⟨l, p, by rw [if_pos hlt, hlp], hlt.le.trans hle, fun k hk hkn => ?_, .inr ?_⟩
        · by_cases hki : k = i
          · rw [hki]
            exact hle
          · exact hall k (by omega) (by omega)
        · rcases hfrom with ⟨hl, hp⟩ | ⟨hlo, hhi, hl⟩
          · exact ⟨hp.ge, by omega, by rw [hl, hp]⟩
          · exact ⟨by omega, by omega, hl⟩
      · obtain ⟨l, p, hlp, hle, hall, hfrom⟩ := ih (i + 1) (by omega) maxLatency maxPeer
        refine ⟨l, p, by rw [if_neg hlt, hlp], hle, fun k hk hkn => ?_, hfrom.imp_right fun h => ⟨by omega, by omega, h.2.2⟩⟩
        by_cases hki : k = i
        · rw [hki]
          exact (not_lt.mp hlt).trans hle
        · exact hall k (by omega) (by omega)

theorem diskLatency_nonneg (queue : ILSQueue) (pendingChunks : Nat) : 0 ≤ (updateDiskLatency cfg queue pendingChunks).latency := by
  rw [updateDiskLatency]
  positivity

/-- There are peers, and no latency is negative: the loop finds a disk queue with the highest one. -/
theorem slowestDisk_max {disk : Nat → ILSQueue} (hpeers : 0 < numPeers) (halloc : numPeers ≤ allocated)
    (hlatency : ∀ i < numPeers, 0 ≤ (disk i).latency) :
    ∃ p < numPeers, slowestDisk allocated disk numPeers 0 (-1) 0 = .ok ((disk p).latency, p) ∧
      ∀ k < numPeers, (disk k).latency ≤ (disk p).latency := by
  obtain ⟨l, p, hlp, -, hall, hfrom⟩ := @slowestDisk_spec allocated disk numPeers 0 (by omega) (-1) 0
  have hmax : ∀ k < numPeers, (disk k).latency ≤ l := fun k hk => hall k (Nat.zero_le k) (by omega)
  rcases hfrom with ⟨rfl, -⟩ | ⟨-, hp, rfl⟩
  · have habove := (hlatency 0 hpeers).trans (hmax 0 hpeers)
    norm_num at habove
  · exact ⟨p, by omega, hlp, hmax⟩

/-- Between two rounds: the names are in the queues, a disk queue is what is left in front of the sorted one, and the latencies are
those of the queues. -/
structure Moving (numPeers : Nat) (cnis : Nat → ChunkNameInfo) (cfg : LinkConfig) (load : Nat → PeerLoad) (ids : List Nat)
    (sorted s : Queues) : Prop where
  filed : Filed numPeers cnis ids s
  kept : ∀ i < numPeers, (s.disk i).q <+: (sorted.disk i).q
  diskLatency : ∀ i < numPeers, s.disk i = updateDiskLatency cfg (s.disk i) (load i).diskPendingChunks
  networkLatency : updateNetworkLatency cfg s.network (networkPendingBytes numPeers load) = .ok s.network

/-- No disk is slower than the network, or the queue of the slowest disk is empty. -/
def Balanced (numPeers : Nat) (s : Queues) : Prop :=
  (∀ i < numPeers, (s.disk i).latency ≤ s.network.latency) ∨
    ∃ i < numPeers, (s.disk i).q = [] ∧ ∀ k < numPeers, (s.disk k).latency ≤ (s.disk i).latency

variable {ids : List Nat} {sorted s : Queues}

theorem ilsDequeue_concat {length : Nat → Nat} {queue : ILSQueue} {q : List Nat} {c : Nat} (hq : queue.q = q ++ [c]) :
    ilsDequeue length queue = some (c, { queue with q := q, totBytes := queue.totBytes - BitVec.ofNat 32 (length c) }) := by
  simp [ilsDequeue, hq]

theorem moveChunks_spec (hpeers : 0 < numPeers) (halloc : numPeers ≤ allocated) (hbw : 0 < cfg.wanLinkBW)
    (hroom : ids.length < maxIlsQueue) {n numMove : Nat} (hn : ids.length - s.network.q.length < n)
    (h : Moving numPeers cnis cfg load ids sorted s) :
    ∃ s' m, moveChunks allocated numPeers cnis cfg load n s numMove = .ok (s', m) ∧
      Moving numPeers cnis cfg load ids sorted s' ∧ Balanced numPeers s' := by
  induction n generalizing s numMove with
  | zero => exact absurd hn (Nat.not_lt_zero _)
  | succ n ih =>
      have hlatency : ∀ i < numPeers, 0 ≤ (s.disk i).latency := fun i hi => by
        rw [h.diskLatency i hi]
        exact diskLatency_nonneg _ _
      obtain ⟨p, hp, hslowest, hmax⟩ := slowestDisk_max hpeers halloc hlatency
      rw [moveChunks, hslowest, ok_bind]
      dsimp only
      by_cases hbound : (s.disk p).latency ≤ s.network.latency
      · exact ⟨s, numMove, if_pos hbound, h, .inl fun i hi => (hmax i hi).trans hbound⟩
      · rw [if_neg hbound, inBounds_of (show p < allocated by omega), ok_bind]
        rcases List.eq_nil_or_concat (s.disk p).q with hempty | ⟨q, c, hq⟩
        · refine ⟨s, numMove, ?_, h, .inr ⟨p, hp, hempty, hmax⟩⟩
          simp [ilsDequeue, hempty]
        · rw [List.concat_eq_append] at hq
          have hc : c ∈ (s.disk p).q := by
            rw [hq]
            exact List.mem_append_right _ (List.mem_singleton.mpr rfl)
          have hless := h.filed.length_network_lt hp hc
          rw [ilsDequeue_concat hq]
          dsimp only
          rw [ilsEnqueue_of (by omega), ok_bind, check_of (h.filed.onDisk p hp c hc), ok_bind, updateNetworkLatency, check_of hbw,
            ok_bind, pure_eq_ok, ok_bind]
          apply ih
          · simp only [List.length_append, List.length_singleton]
            omega
          · refine ⟨h.filed.move hp hq rfl rfl rfl rfl rfl rfl, fun i hi => ?_, fun i hi => ?_, ?_⟩
            · by_cases hip : i = p
              · subst hip
                simp only [update_self]
                have hprefix := h.kept i hi
                rw [hq] at hprefix
                exact (List.prefix_append q [c]).trans hprefix
              · simp only [update_of_ne hip]
                exact h.kept i hi
            · by_cases hip : i = p
              · subst hip
                simp only [update_self]
                rfl
              · simp only [update_of_ne hip]
                exact h.diskLatency i hi
            · rw [updateNetworkLatency, check_of hbw]
              rfl

end Loop

/-! ## The schedule -/

section Schedule

variable {allocated numPeers : Nat} {cnis : Nat → ChunkNameInfo} {cfg : LinkConfig} {load : Nat → PeerLoad}
  {qsort : SizeSort fun cni => (cnis cni).length} {ids : List Nat}

theorem fillQueues_spec (halloc : numPeers ≤ allocated) {names : List Nat} (hpicked : Picked cnis numPeers names)
    (hnodup : names.Nodup) (hroom : (scheduled cnis names).length < maxIlsQueue) (s : Queues) :
    ∃ start, (resetQueues allocated numPeers s >>= populateQueues allocated cnis names) = .ok start ∧
      Filed numPeers cnis (scheduled cnis names) start := by
  rw [resetQueues, updateEach_spec allocated _ numPeers 0 (by omega), ok_bind, pure_eq_ok, ok_bind]
  obtain ⟨start, hstart, hfiled, -⟩ := populateQueues_spec halloc hpicked
    (s := ⟨fun k => if 0 ≤ k ∧ k < 0 + numPeers then ilsReset else s.disk k, ilsReset, ilsReset, s.isNetwork⟩)
    (filed_nil (fun i hi => if_pos ⟨Nat.zero_le i, by omega⟩) rfl) rfl (hnodup.filter _) hroom
  exact ⟨start, hstart, hfiled⟩

theorem sortQueues_spec (halloc : numPeers ≤ allocated) (hbw : 0 < cfg.wanLinkBW) {start : Queues}
    (h : Filed numPeers cnis ids start) :
    ∃ sorted, sortQueues allocated numPeers cnis cfg load qsort start = .ok sorted ∧
      (∀ i < numPeers, (sorted.disk i).q = qsort.sort (start.disk i).q) ∧ Moving numPeers cnis cfg load ids sorted sorted := by
  have hdisk := updateEach_spec allocated
    (fun i queue => updateDiskLatency cfg { queue with q := qsort.sort queue.q } (load i).diskPendingChunks) numPeers 0 (by omega)
    start.disk
  have hnetwork : ∃ network, updateNetworkLatency cfg { start.network with q := qsort.sort start.network.q }
      (networkPendingBytes numPeers load) = .ok network ∧ network.q = qsort.sort start.network.q ∧
      network.totBytes = start.network.totBytes ∧
      updateNetworkLatency cfg network (networkPendingBytes numPeers load) = .ok network := by
    simp only [updateNetworkLatency, check_of hbw, ok_bind, pure_eq_ok]
    exact ⟨_, rfl, rfl, rfl, rfl⟩
  obtain ⟨network, hnetwork, hq, htotal, hlatency⟩ := hnetwork
  generalize hd : (fun k => if 0 ≤ k ∧ k < 0 + numPeers then _ else start.disk k) = disk at hdisk
  have hat : ∀ i < numPeers, disk i =
      updateDiskLatency cfg { start.disk i with q := qsort.sort (start.disk i).q } (load i).diskPendingChunks := by
    intro i hi
    rw [← hd]
    exact if_pos ⟨Nat.zero_le i, by omega⟩
  refine ⟨{ start with disk := disk, network := network }, ?_, fun i hi => ?_, ?_, fun i _ => List.prefix_refl _, fun i hi => ?_, hlatency⟩
  · rw [sortQueues, hdisk, ok_bind, hnetwork]
    rfl
  · show (disk i).q = _
    rw [hat i hi]
    rfl
  · refine h.perm ?_ htotal (fun i hi => ?_) (fun i hi => ?_) rfl
    · show network.q.Perm _
      rw [hq]
      exact qsort.perm _
    · show (disk i).q.Perm _
      rw [hat i hi]
      exact qsort.perm _
    · show (disk i).totBytes = _
      rw [hat i hi]
      rfl
  · show disk i = updateDiskLatency cfg (disk i) _
    rw [hat i hi]
    rfl

theorem findBestSchedule_spec (hpeers : 0 < numPeers) (halloc : numPeers ≤ allocated) (hbw : 0 < cfg.wanLinkBW)
    (hroom : ids.length < maxIlsQueue) {start : Queues} (h : Filed numPeers cnis ids start) {fuel : Nat} (hfuel : ids.length < fuel) :
    ∃ sorted s numMove, findBestSchedule allocated numPeers cnis cfg load qsort fuel start = .ok (s, numMove) ∧
      (∀ i < numPeers, (sorted.disk i).q = qsort.sort (start.disk i).q) ∧
      Moving numPeers cnis cfg load ids sorted s ∧ Balanced numPeers s := by
  obtain ⟨sorted, hsort, hsorted, hmoving⟩ := @sortQueues_spec _ _ _ _ load qsort _ halloc hbw _ h
  obtain ⟨s, numMove, hs, hend, hbalanced⟩ := @moveChunks_spec _ _ _ _ _ _ _ _ hpeers halloc hbw hroom fuel 0 (by omega) hmoving
  exact ⟨sorted, s, numMove, by rw [findBestSchedule, hsort, ok_bind, hs], hsorted, hend, hbalanced⟩

end Schedule

/-- A name is in the network queue (`none`), or in the disk queue of a peer. -/
def At (numPeers : Nat) (s : Queues) (c : Nat) : Option Nat → Prop
  | none => c ∈ s.network.q
  | some i => i < numPeers ∧ c ∈ (s.disk i).q

theorem Filed.at_unique {numPeers : Nat} {cnis : Nat → ChunkNameInfo} {ids : List Nat} {s : Queues}
    (h : Filed numPeers cnis ids s) {c : Nat} (hc : c ∈ ids) : ∃! place, At numPeers s c place := by
  rcases (h.mem c).mp hc with hnetwork | ⟨i, hi, hdisk⟩
  · refine ⟨none, hnetwork, fun place hplace => ?_⟩
    cases place with
    | none => rfl
    | some k => exact absurd ((h.onDisk k hplace.1 c hplace.2).symm.trans (h.onNetwork c hnetwork)) Bool.false_ne_true
  · refine ⟨some i, ⟨hi, hdisk⟩, fun place hplace => ?_⟩
    cases place with
    | none => exact absurd ((h.onDisk i hi c hdisk).symm.trans (h.onNetwork c hplace)) Bool.false_ne_true
    | some k =>
        have hown := (h.own k hplace.1 c hplace.2).2.symm.trans (h.own i hi c hdisk).2
        rw [show k = i by exact_mod_cast hown]

/-- What is moved out of a disk queue is not longer than what stays in it. -/
theorem Moving.smallest {numPeers : Nat} {cnis : Nat → ChunkNameInfo} {cfg : LinkConfig} {load : Nat → PeerLoad}
    {qsort : SizeSort fun cni => (cnis cni).length} {ids : List Nat} {start sorted s : Queues}
    (h : Moving numPeers cnis cfg load ids sorted s) (hsorted : ∀ i < numPeers, (sorted.disk i).q = qsort.sort (start.disk i).q)
    {i : Nat} (hi : i < numPeers) {a b : Nat} (ha : a ∈ (s.disk i).q) (hb : b ∈ (start.disk i).q) (hmoved : b ∉ (s.disk i).q) :
    (cnis b).length ≤ (cnis a).length := by
  obtain ⟨moved, hmovedq⟩ := h.kept i hi
  have hdescends := qsort.descends (start.disk i).q
  have hbin : b ∈ qsort.sort (start.disk i).q := (qsort.perm _).mem_iff.mpr hb
  rw [← hsorted i hi, ← hmovedq] at hdescends hbin
  exact (List.pairwise_append.mp hdescends).2.2 a ha b ((List.mem_append.mp hbin).resolve_left hmoved)

section Latencies

variable {numPeers : Nat} {cnis : Nat → ChunkNameInfo} {cfg : LinkConfig} {load : Nat → PeerLoad} {ids : List Nat} {sorted s : Queues}

theorem Moving.disk_latency (h : Moving numPeers cnis cfg load ids sorted s) {i : Nat} (hi : i < numPeers) :
    (s.disk i).latency =
      cfg.seekLatency * ((s.disk i).q.length + ((if cfg.noHistory then 0 else (load i).diskPendingChunks : Nat) : ℚ)) := by
  conv_lhs => rw [h.diskLatency i hi]
  rfl

theorem Moving.network_latency (h : Moving numPeers cnis cfg load ids sorted s) (hbw : 0 < cfg.wanLinkBW) :
    s.network.latency = (s.network.totBytes.toNat +
      ((if cfg.noHistory then 0 else networkPendingBytes numPeers load : Nat) : ℚ)) * 8 / cfg.wanLinkBW + cfg.wanLinkRTT := by
  have hnetwork := h.networkLatency
  rw [updateNetworkLatency, check_of hbw] at hnetwork
  conv_lhs => rw [← Except.ok.inj hnetwork]

/-- Without the pending loads the slowest disk is the one with the longest queue. -/
theorem Moving.longest (h : Moving numPeers cnis cfg load ids sorted s) (hnone : cfg.noHistory = true) (hseek : 0 < cfg.seekLatency)
    (hbalanced : Balanced numPeers s) :
    (∀ i < numPeers, (s.disk i).latency ≤ s.network.latency) ∨ ∀ i < numPeers, (s.disk i).q = [] := by
  refine hbalanced.imp_right ?_
  rintro ⟨i, hi, hempty, hmax⟩ k hk
  have hle := hmax k hk
  rw [h.disk_latency hk, h.disk_latency hi, hempty] at hle
  simp only [hnone, if_true, List.length_nil, Nat.cast_zero, add_zero, mul_zero] at hle
  have hseek' : (0 : ℚ) < cfg.seekLatency := by exact_mod_cast hseek
  have hzero : ((s.disk k).q.length : ℚ) ≤ 0 := nonpos_of_mul_nonpos_right hle hseek'
  exact List.length_eq_zero_iff.mp (Nat.le_zero.mp (by exact_mod_cast hzero))

end Latencies

/-- **Load shedding.** For any names, loads and link, `FindBestSchedule` ends; every name that needs a request is in exactly one
queue then, and `isNetwork` says in which; the totals are those of the queues as far as 32 bits go; a disk queue has lost its
smallest chunks; and no disk is slower than the network, or the queue of the slowest disk is empty. -/
theorem shed_load (cnis : Nat → ChunkNameInfo) (numNames : Nat) {allocated numPeers : Nat} (hpeers : 0 < numPeers)
    (halloc : numPeers ≤ allocated) (cfg : LinkConfig) (hbw : 0 < cfg.wanLinkBW) (load : Nat → PeerLoad)
    (qsort : SizeSort fun cni => (cnis cni).length) (hpicked : Picked cnis numPeers (List.range numNames))
    (hroom : (scheduled cnis (List.range numNames)).length < maxIlsQueue) (s₀ : Queues) :
    ∃ start, (resetQueues allocated numPeers s₀ >>= populateQueues allocated cnis (List.range numNames)) = .ok start ∧
      ∀ fuel, numNames < fuel → ∃ s numMove,
        findBestSchedule allocated numPeers cnis cfg load qsort fuel start = .ok (s, numMove) ∧
        (∀ c, c ∈ scheduled cnis (List.range numNames) ↔ ∃ place, At numPeers s c place) ∧
        (∀ c ∈ scheduled cnis (List.range numNames), ∃! place, At numPeers s c place) ∧
        (s.network.q.Nodup ∧ ∀ i < numPeers, (s.disk i).q.Nodup) ∧
        (∀ c place, At numPeers s c place → (s.isNetwork c = true ↔ place = none) ∧ ∀ i, place = some i → (cnis c).peerIdx = i) ∧
        (s.network.totBytes.toNat = (s.network.q.map fun c => (cnis c).length + perChunkResponseOverhead).sum % 2 ^ 32 ∧
          ∀ i < numPeers, (s.disk i).totBytes.toNat = ((s.disk i).q.map fun c => (cnis c).length).sum % 2 ^ 32) ∧
        (∀ i < numPeers, (∀ c ∈ (s.disk i).q, c ∈ (start.disk i).q) ∧
          ∀ a ∈ (s.disk i).q, ∀ b ∈ (start.disk i).q, b ∉ (s.disk i).q → (cnis b).length ≤ (cnis a).length) ∧
        (∀ i < numPeers, (s.disk i).latency =
          cfg.seekLatency * ((s.disk i).q.length + ((if cfg.noHistory then 0 else (load i).diskPendingChunks : Nat) : ℚ))) ∧
        s.network.latency = (s.network.totBytes.toNat +
          ((if cfg.noHistory then 0 else networkPendingBytes numPeers load : Nat) : ℚ)) * 8 / cfg.wanLinkBW + cfg.wanLinkRTT ∧
        Balanced numPeers s ∧
        (cfg.noHistory = true → 0 < cfg.seekLatency →
          (∀ i < numPeers, (s.disk i).latency ≤ s.network.latency) ∨ ∀ i < numPeers, (s.disk i).q = []) := by
  obtain ⟨start, hstart, hfiled⟩ := fillQueues_spec halloc hpicked List.nodup_range hroom s₀
  refine ⟨start, hstart, fun fuel hfuel => ?_⟩
  have hlen : (scheduled cnis (List.range numNames)).length ≤ numNames :=
    (List.length_filter_le _ _).trans_eq List.length_range
  obtain ⟨sorted, s, numMove, hs, hsorted, hend, hbalanced⟩ :=
    @findBestSchedule_spec _ _ _ _ load qsort _ hpeers halloc hbw hroom _ hfiled fuel (by omega)
  refine ⟨s, numMove, hs, fun c => ?_, fun c hc => hend.filed.at_unique hc, ⟨hend.filed.networkNodup, hend.filed.diskNodup⟩,
    fun c place hplace => ?_, ⟨?_, fun i hi => ?_⟩, fun i hi => ⟨fun c hc => ?_, fun a ha b hb hmoved => ?_⟩,
    fun i hi => hend.disk_latency hi, hend.network_latency hbw, hbalanced, fun hnone hseek => hend.longest hnone hseek hbalanced⟩
  · rw [hend.filed.mem c]
    constructor
    · rintro (hc | ⟨i, hi, hc⟩)
      · exact ⟨none, hc⟩
      · exact ⟨some i, hi, hc⟩
    · rintro ⟨place, hplace⟩
      cases place with
      | none => exact .inl hplace
      | some i => exact .inr ⟨i, hplace⟩
  · cases place with
    | none => exact ⟨⟨fun _ => rfl, fun _ => hend.filed.onNetwork c hplace⟩, fun i hi => nomatch hi⟩
    | some i =>
        refine ⟨⟨fun htrue => ?_, fun hnone => nomatch hnone⟩, fun k hk => ?_⟩
        · exact absurd ((hend.filed.onDisk i hplace.1 c hplace.2).symm.trans htrue) Bool.false_ne_true
        · obtain rfl : i = k := Option.some.inj hk
          exact (hend.filed.own i hplace.1 c hplace.2).2
  · rw [hend.filed.networkTotal, total, BitVec.toNat_ofNat]
  · rw [hend.filed.diskTotal i hi, total, BitVec.toNat_ofNat]
    rfl
  · exact (qsort.perm _).mem_iff.mp (by rw [← hsorted i hi]; exact (hend.kept i hi).subset hc)
  · exact hend.smallest hsorted hi ha hb hmoved

/-- A sort by insertion. -/
def insertionSizeSort (length : Nat → Nat) : SizeSort length where
  sort q := q.insertionSort fun a b => length b ≤ length a
  perm q := List.perm_insertionSort _ q
  descends q := by
    have : Std.Total fun a b : Nat => length b ≤ length a := ⟨fun a b => Nat.le_total (length b) (length a)⟩
    have : IsTrans Nat fun a b => length b ≤ length a := ⟨fun a b c hab hbc => Nat.le_trans hbc hab⟩
    exact List.pairwise_insertionSort _ q

/-- Six names: one in memory, one to be brought over the network, and four found at two peers. -/
def sampleNames : Nat → ChunkNameInfo
  | 0 => ⟨default, 400, true, true, 0⟩
  | 1 => ⟨default, 900, false, false, 1⟩
  | 2 => ⟨default, 300, true, false, 0⟩
  | 3 => ⟨default, 100, true, false, 0⟩
  | 4 => ⟨default, 200, true, false, 0⟩
  | _ => ⟨default, 500, true, false, 1⟩

theorem shed_load_sample : ∃ start s numMove,
    (resetQueues 2 2 ⟨fun _ => ilsReset, ilsReset, ilsReset, fun _ => false⟩ >>= populateQueues 2 sampleNames (List.range 6)) = .ok start ∧
    findBestSchedule 2 2 sampleNames ⟨15, 1000, 30, true⟩ (fun _ => ⟨0, 0⟩) (insertionSizeSort _) 7 start = .ok (s, numMove) ∧
    (∀ c ∈ [1, 2, 3, 4, 5], ∃! place, At 2 s c place) ∧ Balanced 2 s := by
  have hscheduled : scheduled sampleNames (List.range 6) = [1, 2, 3, 4, 5] := by decide
  have hpicked : Picked sampleNames 2 (List.range 6) := by
    unfold Picked
    rw [hscheduled]
    decide
  obtain ⟨start, hstart, hall⟩ := shed_load sampleNames 6 (by decide : 0 < 2) (Nat.le_refl 2) ⟨15, 1000, 30, true⟩
    (by decide) (fun _ => ⟨0, 0⟩) (insertionSizeSort _) hpicked (by rw [hscheduled]; decide)
    ⟨fun _ => ilsReset, ilsReset, ilsReset, fun _ => false⟩
  obtain ⟨s, numMove, hs, -, hunique, -, -, -, -, -, -, hbalanced, -⟩ := hall 7 (by decide)
  rw [hscheduled] at hunique
  exact ⟨start, s, numMove, hstart, hs, hunique, hbalanced⟩

/-- Names that nobody has, each of a chunk of the maximal size. -/
def bigMisses : Nat → ChunkNameInfo := fun _ => ⟨default, maxChunkSize, false, false, 0⟩

/-- With 13200 of them the counter of the network queue has wrapped. -/
theorem total_wraps : ¬ ∀ (cnis : Nat → ChunkNameInfo) (numNames allocated numPeers : Nat) (cfg : LinkConfig) (load : Nat → PeerLoad)
    (qsort : SizeSort fun cni => (cnis cni).length) (s₀ start s : Queues) (fuel numMove : Nat), 0 < numPeers → numPeers ≤ allocated →
    0 < cfg.wanLinkBW → Picked cnis numPeers (List.range numNames) → (scheduled cnis (List.range numNames)).length < maxIlsQueue →
    (resetQueues allocated numPeers s₀ >>= populateQueues allocated cnis (List.range numNames)) = .ok start →
    findBestSchedule allocated numPeers cnis cfg load qsort fuel start = .ok (s, numMove) →
    s.network.totBytes.toNat = (s.network.q.map fun c => (cnis c).length + perChunkResponseOverhead).sum := by
  intro h
  have hscheduled : scheduled bigMisses (List.range 13200) = List.range 13200 := List.filter_eq_self.mpr fun c _ => rfl
  have hpicked : Picked bigMisses 1 (List.range 13200) := fun c _ => ⟨le_refl 0, Int.one_pos⟩
  have hroom : (scheduled bigMisses (List.range 13200)).length < maxIlsQueue := by
    rw [hscheduled, List.length_range, maxIlsQueue]
    omega
  obtain ⟨start, hstart, hfiled⟩ := fillQueues_spec (Nat.le_refl 1) hpicked List.nodup_range hroom
    ⟨fun _ => ilsReset, ilsReset, ilsReset, fun _ => false⟩
  obtain ⟨sorted, s, numMove, hs, -, hend, -⟩ := @findBestSchedule_spec 1 1 bigMisses ⟨15, 1000, 30, true⟩ (fun _ => ⟨0, 0⟩)
    (insertionSizeSort _) _ Nat.one_pos (Nat.le_refl 1) (by decide) hroom start hfiled 13201 (by rw [hscheduled, List.length_range]; omega)
  have htotal := h bigMisses 13200 1 1 ⟨15, 1000, 30, true⟩ (fun _ => ⟨0, 0⟩) (insertionSizeSort _) _ start s 13201 numMove Nat.one_pos
    (Nat.le_refl 1) (by decide) hpicked hroom hstart hs
  have hmem : ∀ c, c ∈ s.network.q ↔ c ∈ List.range 13200 := by
    intro c
    have hplace := hend.filed.mem c
    rw [hscheduled] at hplace
    rw [hplace]
    refine ⟨.inl, fun hc => hc.elim id ?_⟩
    rintro ⟨i, hi, hc⟩
    exact absurd (hend.filed.own i hi c hc).1 Bool.false_ne_true
  have hlen : s.network.q.length = 13200 := by
    rw [((List.perm_ext_iff_of_nodup hend.filed.networkNodup List.nodup_range).mpr hmem).length_eq, List.length_range]
  have hsum : (s.network.q.map fun c => (bigMisses c).length + perChunkResponseOverhead).sum = 13200 * 327715 := by
    show (s.network.q.map fun _ => 327715).sum = _
    rw [List.map_const', List.sum_replicate, hlen, smul_eq_mul]
  rw [hend.filed.networkTotal, total, BitVec.toNat_ofNat, hsum] at htotal
  omega

end BeagleCache.LoadShedding

import BeagleCache.LoadShedding
import BeagleCache.Redirect

/-! The disk queues over the run of a proxy, `ils.c` and `peer.c`. `InitILS` allocates a disk queue for every peer, but only the
first time; the table of peers grows when an unknown proxy connects. From then on every round of load shedding takes the number of
the peers for the number of the queues. -/

namespace BeagleCache.QueueIndices

open LoadShedding Redirect Transition Run

/-- A proxy: `g_PeerInfo`, the entries `diskQueue` was allocated with, `g_NewPeekUpdate`, the names of the entries that wait for
lookups and of the ready ones, and the queues. -/
structure Proxy where
  peers : List HashedPeer
  localIdx : Nat
  allocated : Option Nat
  newPeekUpdate : Bool
  waiting : List (List ChunkNameInfo)
  ready : List ChunkNameInfo
  queues : Queues

/-- An unknown proxy connects; a peer is found alive or dead; a name tree comes, with what earlier calls left in `g_Weights`; a
lookup is done, and with the last one of an entry it is ready; the main loop sheds load. -/
inductive Event
  | unknown (netAddr : BitVec 32)
  | liveness (k : Nat) (isAlive : Bool)
  | deliver (g_Weights : Nat → ServerWeight) (names : List (Sha1Name × Nat))
  | peek
  | resolved (i : Nat) (isHit inMemory : Nat → Bool)
  | shed (load : Nat → PeerLoad)

/-- `ProcessNameTreeDelivery2` for the names of a tree: `AppendChunkName` and the choice of the peer. -/
def pickNames (p : Proxy) (g_Weights : Nat → ServerWeight) : List (Sha1Name × Nat) → Run (List ChunkNameInfo)
  | [] => .ok []
  | name :: rest => do
      check (0 < name.2)
      match ← pickPeerToRedirect p.peers p.localIdx g_Weights name.1 with
      | none => .error .exit
      | some idx => do
          let rest ← pickNames p g_Weights rest
          return ⟨name.1, name.2, false, false, idx⟩ :: rest

/-- The name with the number `i` of the ready entries. -/
def Proxy.cni (p : Proxy) (i : Nat) : ChunkNameInfo := p.ready[i]?.getD ⟨default, 0, false, false, -1⟩

section Next

variable (cfg : LinkConfig) (qsort : (length : Nat → Nat) → SizeSort length)

/-- `IntelligentLoadShedding`; the requests it sends do not concern the disk queues. -/
def intelligentLoadShedding (load : Nat → PeerLoad) (p : Proxy) : Run Proxy :=
  if p.newPeekUpdate = false then .ok p
  else do
    -- `InitILS`
    let allocated := p.allocated.getD p.peers.length
    let r ← scheduleChunks allocated p.peers.length p.cni cfg load (qsort _) (p.ready.length + 1) p.ready.length p.queues
    return { p with newPeekUpdate := false, allocated := some allocated, ready := [], queues := r.1 }

def next (p : Proxy) : Event → Run Proxy
  -- `AddUnknownPeerInfo`, whose entry has no name and the hash 0
  | .unknown netAddr => do
      inBounds (p.peers.length < maxPeerSize)
      return { p with peers := p.peers ++ [⟨⟨netAddr, true, false, 0⟩, 0⟩] }
  | .liveness k isAlive => .ok { p with peers := mark p.peers k isAlive }
  | .deliver g_Weights names => do
      let entry ← pickNames p g_Weights names
      return { p with waiting := p.waiting ++ [entry] }
  | .peek => .ok { p with newPeekUpdate := true }
  | .resolved i isHit inMemory =>
      match p.waiting[i]? with
      -- there is no such lookup
      | none => .error .exit
      | some entry => .ok
          { p with
            newPeekUpdate := true
            waiting := p.waiting.eraseIdx i
            ready := p.ready ++ entry.zipIdx.map fun cni => { cni.1 with isHit := isHit cni.2, inMemory := inMemory cni.2 } }
  | .shed load => intelligentLoadShedding cfg qsort load p

/-- A proxy that has read its configuration. -/
def started (p : Proxy) : Prop :=
  p.localIdx < p.peers.length ∧ p.peers.length ≤ maxPeerSize ∧ p.allocated = none ∧ p.newPeekUpdate = false ∧ p.waiting = [] ∧
    p.ready = []

def proxySystem : System Proxy Event := .ofNext started (next cfg qsort)

end Next

/-! ## The first queue that does not exist -/

theorem updateEach_overrun {α : Type} {size : Nat} (f : Nat → α → α) (n i : Nat) (hi : i ≤ size) (hsize : size < i + n) (a : Nat → α) :
    updateEach size f n i a = .error .overrun := by
  induction n generalizing i a with
  | zero => omega
  | succ n ih =>
      rw [updateEach]
      by_cases hin : i < size
      · rw [inBounds_of hin, ok_bind]
        exact ih (i + 1) hin (by omega) _
      · rw [inBounds, if_neg hin]
        rfl

theorem scheduleChunks_overrun {allocated numPeers : Nat} (hless : allocated < numPeers) (cnis : Nat → ChunkNameInfo)
    (cfg : LinkConfig) (load : Nat → PeerLoad) (qsort : SizeSort fun cni => (cnis cni).length) (fuel numNames : Nat) (s : Queues) :
    scheduleChunks allocated numPeers cnis cfg load qsort fuel numNames s = .error .overrun := by
  rw [scheduleChunks, resetQueues, updateEach_overrun _ numPeers 0 (Nat.zero_le _) (by omega)]
  rfl

/-! ## No other queue is missing -/

/-- The computation never leaves an array. -/
def Inside {α : Type} (x : Run α) : Prop := x ≠ .error .overrun

namespace Inside

variable {α β : Type}

theorem ok (a : α) : Inside (.ok a : Run α) := fun h => nomatch h

theorem check (p : Prop) [Decidable p] : Inside (BeagleCache.check p) := by
  unfold BeagleCache.check
  split
  · exact ok ()
  · exact fun h => nomatch h

theorem bind {x : Run α} {f : α → Run β} (hx : Inside x) (hf : ∀ a, x = .ok a → Inside (f a)) : Inside (x >>= f) := by
  cases x with
  | error e => exact fun h => hx (congrArg Except.error (Except.error.inj h))
  | ok a => exact hf a rfl

end Inside

theorem inside_ilsEnqueue (queue : ILSQueue) (cni length overhead : Nat) : Inside (ilsEnqueue queue cni length overhead) :=
  (Inside.check _).bind fun _ _ => Inside.ok _

theorem inside_updateNetworkLatency (cfg : LinkConfig) (queue : ILSQueue) (pendingBytes : Nat) :
    Inside (updateNetworkLatency cfg queue pendingBytes) :=
  (Inside.check _).bind fun _ _ => Inside.ok _

section Schedule

variable {allocated numPeers : Nat} {cnis : Nat → ChunkNameInfo} {cfg : LinkConfig} {load : Nat → PeerLoad}

theorem inside_populateQueues (halloc : numPeers ≤ allocated) {names : List Nat}
    (hpicked : ∀ c ∈ names, 0 ≤ (cnis c).peerIdx ∧ (cnis c).peerIdx < numPeers) (s : Queues) :
    Inside (populateQueues allocated cnis names s) := by
  induction names generalizing s with
  | nil => exact Inside.ok s
  | cons c names ih =>
      have hrest := ih fun b hb => hpicked b (List.mem_cons_of_mem c hb)
      obtain ⟨hlow, hhigh⟩ := hpicked c List.mem_cons_self
      rw [populateQueues]
      split
      · exact hrest s
      · refine (Inside.check _).bind fun _ _ => ?_
        split
        · rw [inBounds_of ⟨hlow, by omega⟩, ok_bind]
          exact (inside_ilsEnqueue _ _ _ _).bind fun _ _ => (inside_ilsEnqueue _ _ _ _).bind fun _ _ => hrest _
        · exact (inside_ilsEnqueue _ _ _ _).bind fun _ _ => (inside_ilsEnqueue _ _ _ _).bind fun _ _ => hrest _

theorem inside_moveChunks (hpeers : 0 < numPeers) (halloc : numPeers ≤ allocated) (n : Nat) (s : Queues) (numMove : Nat) :
    Inside (moveChunks allocated numPeers cnis cfg load n s numMove) := by
  induction n generalizing s numMove with
  | zero => exact fun h => nomatch h
  | succ n ih =>
      obtain ⟨l, p, hlp, -, -, hfrom⟩ := @slowestDisk_spec allocated s.disk numPeers 0 (by omega) (-1) 0
      have hp : p < allocated := by
        rcases hfrom with ⟨-, rfl⟩ | ⟨-, hp, -⟩ <;> omega
      rw [moveChunks, hlp, ok_bind]
      dsimp only
      split
      · exact Inside.ok _
      · rw [inBounds_of hp, ok_bind]
        split
        · exact Inside.ok _
        · exact (inside_ilsEnqueue _ _ _ _).bind fun _ _ => (Inside.check _).bind fun _ _ =>
            (inside_updateNetworkLatency _ _ _).bind fun _ _ => ih _ _

theorem inside_scheduleChunks (hpeers : 0 < numPeers) (halloc : numPeers ≤ allocated)
    (qsort : SizeSort fun cni => (cnis cni).length) {numNames : Nat}
    (hpicked : ∀ c < numNames, 0 ≤ (cnis c).peerIdx ∧ (cnis c).peerIdx < numPeers) (fuel : Nat) (s : Queues) :
    Inside (scheduleChunks allocated numPeers cnis cfg load qsort fuel numNames s) := by
  rw [scheduleChunks, resetQueues, updateEach_spec allocated _ numPeers 0 (by omega), ok_bind, pure_eq_ok, ok_bind]
  refine (inside_populateQueues halloc (fun c hc => hpicked c (List.mem_range.mp hc)) _).bind fun start _ => ?_
  split
  · rw [findBestSchedule, sortQueues, updateEach_spec allocated _ numPeers 0 (by omega), ok_bind]
    refine Inside.bind ((inside_updateNetworkLatency _ _ _).bind fun _ _ => Inside.ok _) fun sorted _ => ?_
    exact inside_moveChunks hpeers halloc _ _ _
  · exact Inside.ok _

end Schedule

/-! ## Runs -/

/-- Every name has a peer of the table. -/
structure Indexed (p : Proxy) : Prop where
  localIdx : p.localIdx < p.peers.length
  room : p.peers.length ≤ maxPeerSize
  waiting : ∀ entry ∈ p.waiting, ∀ c ∈ entry, 0 ≤ c.peerIdx ∧ c.peerIdx < p.peers.length
  ready : ∀ c ∈ p.ready, 0 ≤ c.peerIdx ∧ c.peerIdx < p.peers.length

theorem Indexed.grow {p : Proxy} {peers : List HashedPeer} (h : Indexed p) (hgrow : p.peers.length ≤ peers.length)
    (hroom : peers.length ≤ maxPeerSize) : Indexed { p with peers := peers } where
  localIdx := h.localIdx.trans_le hgrow
  room := hroom
  waiting entry he c hc := ⟨(h.waiting entry he c hc).1, (h.waiting entry he c hc).2.trans_le (Int.ofNat_le.mpr hgrow)⟩
  ready c hc := ⟨(h.ready c hc).1, (h.ready c hc).2.trans_le (Int.ofNat_le.mpr hgrow)⟩

theorem pickNames_indexed {p : Proxy} (h : Indexed p) {g_Weights : Nat → ServerWeight} {names : List (Sha1Name × Nat)}
    {entry : List ChunkNameInfo} (hentry : pickNames p g_Weights names = .ok entry) :
    ∀ c ∈ entry, 0 ≤ c.peerIdx ∧ c.peerIdx < p.peers.length := by
  induction names generalizing entry with
  | nil =>
      cases hentry
      exact fun c hc => nomatch hc
  | cons name names ih =>
      rw [pickNames] at hentry
      obtain ⟨-, -, hentry⟩ := bind_eq_ok.mp hentry
      obtain ⟨r, hr, hentry⟩ := bind_eq_ok.mp hentry
      obtain ⟨r', hr', hhighest⟩ := rhrwPickPeer_highest h.room p.localIdx name.1 g_Weights
      obtain rfl : r' = r := Except.ok.inj (hr'.symm.trans hr)
      cases r' with
      | none => cases hentry
      | some idx =>
          obtain ⟨rest, hrest, hret⟩ := bind_eq_ok.mp hentry
          cases hret
          obtain ⟨pi, ⟨hpi, -⟩, -⟩ := hhighest
          have hidx : idx < p.peers.length := (List.getElem?_eq_some_iff.mp hpi).1
          intro c hc
          rcases List.mem_cons.mp hc with rfl | hc
          · exact ⟨Int.natCast_nonneg idx, Int.ofNat_lt.mpr hidx⟩
          · exact ih hrest c hc

/-- What the order of the events says: whether a lookup was done since the last round, whether a round has allocated the disk queues,
and whether a peer was added after that. -/
structure History where
  newPeek : Bool
  allocated : Bool
  late : Bool

def History.next (h : History) : Event → History
  | .unknown _ => { h with late := h.late || h.allocated }
  | .liveness _ _ => h
  | .deliver _ _ => h
  | .peek => { h with newPeek := true }
  | .resolved _ _ _ => { h with newPeek := true }
  | .shed _ => if h.newPeek then { h with newPeek := false, allocated := true } else h

def history (events : List Event) : History := events.foldl History.next ⟨false, false, false⟩

/-- The history of a run tells whether there are as many disk queues as peers. -/
structure Told (h : History) (p : Proxy) : Prop where
  indexed : Indexed p
  newPeek : p.newPeekUpdate = h.newPeek
  before : p.allocated = none → h.allocated = false ∧ h.late = false
  since : ∀ n, p.allocated = some n → h.allocated = true ∧ n ≤ p.peers.length ∧ (h.late = true ↔ n < p.peers.length)

section Run

variable {cfg : LinkConfig} {qsort : (length : Nat → Nat) → SizeSort length}

theorem Told.next {h : History} {p p' : Proxy} {e : Event} (htold : Told h p) (hnext : next cfg qsort p e = .ok p') :
    Told (h.next e) p' := by
  have hindexed := htold.indexed
  have hlocal := hindexed.localIdx
  cases e with
  | unknown netAddr =>
      obtain ⟨_, hroom, hret⟩ := bind_eq_ok.mp hnext
      cases hret
      have hlt := inBounds_eq_ok.mp hroom
      have hgrow : (p.peers ++ [(⟨⟨netAddr, true, false, 0⟩, 0⟩ : HashedPeer)]).length = p.peers.length + 1 := List.length_append
      refine ⟨hindexed.grow (by omega) (by omega), htold.newPeek, fun hnone => ?_, fun n hsome => ?_⟩
      · obtain ⟨hallocated, hlate⟩ := htold.before hnone
        refine ⟨hallocated, ?_⟩
        show (h.late || h.allocated) = false
        rw [hallocated, hlate]
        rfl
      · obtain ⟨hallocated, hle, -⟩ := htold.since n hsome
        show _ ∧ n ≤ (p.peers ++ [_]).length ∧ ((h.late || h.allocated) = true ↔ n < (p.peers ++ [_]).length)
        rw [hallocated, Bool.or_true, hgrow]
        exact ⟨hallocated, by omega, fun _ => by omega, fun _ => rfl⟩
  | liveness k isAlive =>
      cases hnext
      have hlen := length_mark p.peers k isAlive
      refine ⟨hindexed.grow hlen.ge (hlen.trans_le hindexed.room), htold.newPeek, htold.before, fun n hsome => ?_⟩
      show _ ∧ n ≤ (mark p.peers k isAlive).length ∧ (_ ↔ n < (mark p.peers k isAlive).length)
      rw [hlen]
      exact htold.since n hsome
  | deliver g_Weights names =>
      obtain ⟨entry, hentry, hret⟩ := bind_eq_ok.mp hnext
      cases hret
      refine ⟨⟨hlocal, hindexed.room, fun entry' he c hc => ?_, hindexed.ready⟩, htold.newPeek, htold.before, htold.since⟩
      rcases List.mem_append.mp he with he | he
      · exact hindexed.waiting entry' he c hc
      · rw [List.mem_singleton.mp he] at hc
        exact pickNames_indexed hindexed hentry c hc
  | peek =>
      cases hnext
      exact ⟨⟨hlocal, hindexed.room, hindexed.waiting, hindexed.ready⟩, rfl, htold.before, htold.since⟩
  | resolved i isHit inMemory =>
      change (match p.waiting[i]? with | none => _ | some entry => _) = _ at hnext
      cases hentry : p.waiting[i]? with
      | none =>
          rw [hentry] at hnext
          cases hnext
      | some entry =>
          rw [hentry] at hnext
          cases hnext
          refine ⟨⟨hlocal, hindexed.room, fun entry' he c hc => hindexed.waiting entry' (List.mem_of_mem_eraseIdx he) c hc,
            fun c hc => ?_⟩, rfl, htold.before, htold.since⟩
          rcases List.mem_append.mp hc with hc | hc
          · exact hindexed.ready c hc
          · obtain ⟨⟨cni, j⟩, hcni, rfl⟩ := List.mem_map.mp hc
            exact hindexed.waiting entry (List.mem_of_getElem? hentry) cni (List.fst_mem_of_mem_zipIdx hcni)
  | shed load =>
      change (if p.newPeekUpdate = false then _ else _) = _ at hnext
      by_cases hpeek : p.newPeekUpdate = false
      · rw [if_pos hpeek] at hnext
        cases hnext
        rw [History.next, if_neg (by rw [← htold.newPeek, hpeek]; exact Bool.false_ne_true)]
        exact htold
      · rw [if_neg hpeek] at hnext
        obtain ⟨r, -, hret⟩ := bind_eq_ok.mp hnext
        cases hret
        rw [History.next, if_pos (by rw [← htold.newPeek]; exact (Bool.not_eq_false _).mp hpeek)]
        refine ⟨⟨hlocal, hindexed.room, hindexed.waiting, fun c hc => nomatch hc⟩, rfl, fun hnone => (nomatch hnone), fun n hsome => ?_⟩
        obtain rfl : p.allocated.getD p.peers.length = n := Option.some.inj hsome
        refine ⟨rfl, ?_⟩
        cases hallocated : p.allocated with
        | none =>
            show p.peers.length ≤ p.peers.length ∧ (h.late = true ↔ p.peers.length < p.peers.length)
            rw [(htold.before hallocated).2]
            exact ⟨Nat.le_refl _, fun hlate => (nomatch hlate), fun hlt => absurd hlt (Nat.lt_irrefl _)⟩
        | some n => exact (htold.since n hallocated).2

theorem told_of_run {events : List Event} {p : Proxy} (hrun : (proxySystem cfg qsort).Runs events p) : Told (history events) p := by
  induction hrun with
  | start hinit =>
      obtain ⟨hlocal, hroom, hnone, hpeek, hwaiting, hready⟩ := hinit
      refine ⟨⟨hlocal, hroom, fun entry he => ?_, fun c hc => ?_⟩, hpeek, fun _ => ⟨rfl, rfl⟩, fun n hsome => ?_⟩
      · rw [hwaiting] at he
        cases he
      · rw [hready] at hc
        cases hc
      · rw [hnone] at hsome
        cases hsome
  | @step events p p' e _ hstep ih =>
      rw [history, List.foldl_append]
      exact ih.next hstep

/-- **The disk queues exist** in a round of load shedding, whatever happened before, unless a lookup is done since the last round and a
peer was added after the first round that did its work. -/
theorem disk_queues_exist {events : List Event} {p : Proxy} (hrun : (proxySystem cfg qsort).Runs events p) (load : Nat → PeerLoad) :
    Inside (intelligentLoadShedding cfg qsort load p) ↔ ¬ ((history events).newPeek = true ∧ (history events).late = true) := by
  have htold := told_of_run hrun
  have hindexed := htold.indexed
  have hpeers : 0 < p.peers.length := Nat.zero_lt_of_lt hindexed.localIdx
  by_cases hpeek : p.newPeekUpdate = false
  · rw [intelligentLoadShedding, if_pos hpeek, ← htold.newPeek, hpeek]
    exact ⟨fun _ h => Bool.false_ne_true h.1, fun _ => Inside.ok p⟩
  · rw [intelligentLoadShedding, if_neg hpeek, ← htold.newPeek, (Bool.not_eq_false _).mp hpeek]
    have henough : p.peers.length ≤ p.allocated.getD p.peers.length ↔ ¬ (history events).late = true := by
      cases hallocated : p.allocated with
      | none => simp [(htold.before hallocated).2]
      | some n =>
          rw [(htold.since n hallocated).2.2, Option.getD_some, not_lt]
    by_cases hcovered : p.peers.length ≤ p.allocated.getD p.peers.length
    · refine ⟨fun _ h => henough.mp hcovered h.2, fun _ => ?_⟩
      refine Inside.bind (inside_scheduleChunks hpeers hcovered _ (fun c hc => ?_) _ _) fun _ _ => Inside.ok _
      rw [Proxy.cni, List.getElem?_eq_getElem hc]
      exact hindexed.ready _ (List.getElem_mem hc)
    · dsimp only
      rw [scheduleChunks_overrun (by omega)]
      exact ⟨fun h => absurd rfl h, fun h => absurd (henough.mpr fun hlate => h ⟨rfl, hlate⟩) hcovered⟩

end Run

section Sample

/-- The proxy alone. -/
def sampleStart : Proxy :=
  ⟨[⟨⟨1, true, true, 0⟩, 17⟩], 0, none, false, [], [], ⟨fun _ => ilsReset, ilsReset, ilsReset, fun _ => false⟩⟩

def sampleLink : LinkConfig := ⟨15, 1000, 30, true⟩

/-- A first round, then an unknown proxy connects, then a lookup is done. -/
def sampleEvents : List Event := [.peek, .shed fun _ => ⟨0, 0⟩, .unknown 7, .peek]

/-- The proxy after that: two peers and one disk queue. -/
def sampleEnd : Proxy :=
  { sampleStart with
    peers := sampleStart.peers ++ [⟨⟨7, true, false, 0⟩, 0⟩]
    allocated := some 1
    newPeekUpdate := true
    queues := ⟨Function.update (fun _ => ilsReset) 0 ilsReset, ilsReset, ilsReset, fun _ => false⟩ }

theorem sample_start : (System.ofNext started (next sampleLink insertionSizeSort)).Runs [] sampleStart :=
  .start ⟨by decide, by decide, rfl, rfl, rfl, rfl⟩

theorem sample_run : (proxySystem sampleLink insertionSizeSort).Runs sampleEvents sampleEnd :=
  System.runs_foldlM sample_start rfl

/-- The unknown proxy comes before the first round. -/
theorem disk_queues_exist_sample : ∃ p, (proxySystem sampleLink insertionSizeSort).Runs
    [.unknown 7, .peek, .shed fun _ => ⟨0, 0⟩, .peek] p ∧ p.newPeekUpdate = true ∧
    Inside (intelligentLoadShedding sampleLink insertionSizeSort (fun _ => ⟨0, 0⟩) p) := by
  have hrun : (proxySystem sampleLink insertionSizeSort).Runs [.unknown 7, .peek, .shed fun _ => ⟨0, 0⟩, .peek] _ :=
    System.runs_foldlM sample_start rfl
  exact ⟨_, hrun, rfl, (disk_queues_exist hrun fun _ => ⟨0, 0⟩).mpr fun h => Bool.false_ne_true h.2⟩

/-- The second round takes a queue that was not allocated. -/
theorem second_round_overruns : ¬ ∀ (cfg : LinkConfig) (qsort : (length : Nat → Nat) → SizeSort length) (events : List Event)
    (p : Proxy) (load : Nat → PeerLoad), (proxySystem cfg qsort).Runs events p → Inside (intelligentLoadShedding cfg qsort load p) :=
  fun h => h sampleLink insertionSizeSort sampleEvents sampleEnd (fun _ => ⟨0, 0⟩) sample_run rfl

end Sample

end BeagleCache.QueueIndices

import BeagleCache.ChunkRequests
import BeagleCache.MessageSize

/-! What becomes of the requests for chunks. A response answers the first request of its name and throws the others away, and
it takes less off the load of a peer than the request had put on it. -/

namespace BeagleCache

open Transition

namespace RequestProxy

variable {cfg : Config} {sha1 : Bytes → Sha1Name} {peers : Peers} {s s' s₁ : RequestProxy} {e : RequestEvent}
  {sha1name : Sha1Name} {cri r : ChunkRequestInfo} {rest : List ChunkRequestInfo} {block : Bytes}

/-- A response that finds requests finds only one. -/
def FindsOne (s : RequestProxy) : RequestEvent → Prop
  | .bodyResponse sha1name _ => (getChunkRequestList s sha1name).length ≤ 1
  | _ => True

instance : ∀ s e, Decidable (FindsOne s e)
  | _, .bodyResponse _ _ => inferInstanceAs (Decidable (_ ≤ _))
  | _, .ask _ _ _ _ => isTrue trivial
  | _, .bodyRequest _ _ _ _ _ _ => isTrue trivial
  | _, .lookedUp _ _ _ _ _ => isTrue trivial

/-- A response that finds requests finds only one, and that is one of the proxy itself for a chunk on the disk of a peer. -/
def FindsDisk (s : RequestProxy) : RequestEvent → Prop
  | .bodyResponse sha1name _ => (getChunkRequestList s sha1name).length ≤ 1 ∧
      ∀ cri ∈ getChunkRequestList s sha1name, cri.isRedirected = false ∧ cri.isNetwork = false
  | _ => True

instance : ∀ s e, Decidable (FindsDisk s e)
  | _, .bodyResponse _ _ => inferInstanceAs (Decidable (_ ∧ _))
  | _, .ask _ _ _ _ => isTrue trivial
  | _, .bodyRequest _ _ _ _ _ _ => isTrue trivial
  | _, .lookedUp _ _ _ _ _ => isTrue trivial

/-- The names of the requests of the proxy itself that were answered. -/
def ownAnswered (s : RequestProxy) : List Sha1Name := (s.answered.filter fun a => !a.1.isRedirected).map fun a => a.1.sha1name

/-- The account of the requests. -/
structure Answered (peers : Peers) (s : RequestProxy) : Prop where
  conserved : ∀ r, s.requests.count r + (s.answered.map Prod.fst).count r = s.asked.count r
  numbered : s.asked.map (·.number) = List.range s.asked.length
  forwarded : s.forwarded.map (fun f => (some f.1, f.2)) =
    (s.answered.filter fun a => a.1.isRedirected).map fun a => (peers.peerOf a.1.pxyAddr, a.1.sha1name, a.2)
  valid : ValidCache s.tmp
  refs : ∀ n, BeagleCache.refs s.tmp n = s.ownAnswered.count n + s.brought.count n

theorem tail_eq_nil (hle : (cri :: rest).length ≤ 1) : rest = [] :=
  List.eq_nil_of_length_eq_zero (Nat.le_zero.mp (Nat.le_of_succ_le_succ hle))

/-- The requests are those of a name and the others. -/
theorem count_requests (sha1name : Sha1Name) (r : ChunkRequestInfo) :
    s.requests.count r = (getChunkRequestList s sha1name).count r +
      (s.requests.filter fun cri => cri.sha1name ≠ sha1name).count r := by
  unfold getChunkRequestList
  by_cases hname : r.sha1name = sha1name
  · have hnone : (s.requests.filter fun cri => cri.sha1name ≠ sha1name).count r = 0 := by
      apply List.count_eq_zero.mpr
      intro hmem
      exact absurd hname (of_decide_eq_true (List.mem_filter.mp hmem).2)
    rw [hnone, Nat.add_zero, List.count_filter (by simpa using hname)]
  · have hnone : (s.requests.filter fun cri => cri.sha1name = sha1name).count r = 0 := by
      apply List.count_eq_zero.mpr
      intro hmem
      exact absurd (of_decide_eq_true (List.mem_filter.mp hmem).2) hname
    rw [hnone, Nat.zero_add, List.count_filter (by simpa using hname)]

/-- An answer leaves the requests alone and is recorded. -/
theorem answer_frame (h : AnswerStep cfg sha1 peers s cri block s₁) :
    s₁.requests = s.requests ∧ s₁.asked = s.asked ∧ s₁.answered = s.answered ++ [(cri, block)] ∧ s₁.brought = s.brought := by
  cases h <;> exact ⟨rfl, rfl, rfl, rfl⟩

theorem ownAnswered_append (h : s₁.answered = s.answered ++ [(cri, block)]) :
    s₁.ownAnswered = s.ownAnswered ++ if cri.isRedirected then [] else [cri.sha1name] := by
  rw [ownAnswered, ownAnswered, h, List.filter_append, List.map_append]
  cases hredirected : cri.isRedirected <;> simp [hredirected]

theorem count_one (name n : Sha1Name) : [name].count n = if n = name then 1 else 0 := by
  by_cases hn : n = name
  · rw [if_pos hn, hn, List.count_singleton_self]
  · rw [if_neg hn]
    exact List.count_eq_zero.mpr fun hmem => hn (List.mem_singleton.mp hmem)

/-- What an answer does to the references. -/
theorem answer_tmp (h : AnswerStep cfg sha1 peers s cri block s₁) (hvalid : ValidCache s.tmp) (hblock : 0 < block.length) :
    ValidCache s₁.tmp ∧
      ∀ n, BeagleCache.refs s₁.tmp n = BeagleCache.refs s.tmp n + (if cri.isRedirected then [] else [cri.sha1name]).count n := by
  have hput : ∀ tmp, cri.isRedirected = false → refPutChunkCallback cfg sha1 s.tmp cri.sha1name block = .ok tmp →
      ValidCache tmp ∧ ∀ n, BeagleCache.refs tmp n =
        BeagleCache.refs s.tmp n + (if cri.isRedirected then [] else [cri.sha1name]).count n := by
    intro tmp hredirected hok
    rcases refPut_cases hvalid hok with ⟨hnil, _⟩ | ⟨_, hvalid', hadd⟩
    · rw [hnil] at hblock
      cases hblock
    · refine ⟨hvalid', ?_⟩
      intro n
      rw [hadd.refs_eq, hredirected, if_neg Bool.false_ne_true, count_one]
  cases h with
  | forward hredirected _ =>
      refine ⟨hvalid, ?_⟩
      intro n
      rw [hredirected]
      rfl
  | network hredirected _ hok => exact hput _ hredirected hok
  | disk hredirected _ hok => exact hput _ hredirected hok

theorem answer_forwarded (h : AnswerStep cfg sha1 peers s cri block s₁) :
    s₁.forwarded.map (fun f => (some f.1, f.2)) = s.forwarded.map (fun f => (some f.1, f.2)) ++
      if cri.isRedirected then [(peers.peerOf cri.pxyAddr, cri.sha1name, block)] else [] := by
  cases h with
  | forward hredirected hidx => rw [hredirected, if_pos rfl, hidx, List.map_append, List.map_singleton]
  | network hredirected _ _ => rw [hredirected, if_neg Bool.false_ne_true, List.append_nil]
  | disk hredirected _ _ => rw [hredirected, if_neg Bool.false_ne_true, List.append_nil]

theorem newRequestProxy_answered (network disk : Nat → BitVec 32) : Answered peers (newRequestProxy network disk) where
  conserved := fun _ => rfl
  numbered := rfl
  forwarded := rfl
  valid := validCache_empty
  refs := fun _ => rfl

/-- A request is put. -/
theorem Answered.put (h : Answered peers s) (sha1name : Sha1Name) (isRedirected : Bool) (pxyAddr length : BitVec 32)
    (peerIdx : Nat) (isNetwork : Bool) :
    Answered peers (putChunkRequest s sha1name isRedirected pxyAddr length peerIdx isNetwork) := by
  refine ⟨?_, ?_, h.forwarded, h.valid, h.refs⟩
  · intro r
    have hconserved := h.conserved r
    simp only [putChunkRequest, List.count_append]
    omega
  · show (s.asked ++ [_]).map _ = List.range (s.asked ++ [_]).length
    rw [List.map_append, h.numbered, List.length_append, List.length_singleton, List.range_succ]
    rfl

/-- A chunk is stored that no request of the proxy's own asked for. -/
theorem Answered.store {tmp : TempCache} (h : Answered peers s) (hblock : 0 < block.length)
    (hput : refPutChunkCallback cfg sha1 s.tmp sha1name block = .ok tmp) :
    Answered peers { s with tmp := tmp, brought := s.brought ++ [sha1name] } := by
  rcases refPut_cases h.valid hput with ⟨hnil, _⟩ | ⟨_, hvalid, hadd⟩
  · rw [hnil] at hblock
    cases hblock
  · refine ⟨h.conserved, h.numbered, h.forwarded, hvalid, ?_⟩
    intro n
    show BeagleCache.refs tmp n = s.ownAnswered.count n + (s.brought ++ [sha1name]).count n
    rw [hadd.refs_eq, h.refs, List.count_append, count_one, Nat.add_assoc]

theorem Answered.answer {numInFlight : Int} (h : Answered peers s) (hblock : 0 < block.length)
    (hlist : getChunkRequestList s sha1name = [cri]) (hanswer : AnswerStep cfg sha1 peers s cri block s₁) :
    Answered peers (withoutName s₁ sha1name numInFlight) := by
  obtain ⟨hrequests, hasked, hanswered, hbrought⟩ := answer_frame hanswer
  obtain ⟨hvalid, hrefs⟩ := answer_tmp hanswer h.valid hblock
  refine ⟨?_, ?_, ?_, hvalid, ?_⟩
  · intro r
    show (s₁.requests.filter fun cri => cri.sha1name ≠ sha1name).count r + (s₁.answered.map Prod.fst).count r = s₁.asked.count r
    have hconserved := h.conserved r
    rw [count_requests sha1name r, hlist] at hconserved
    rw [hrequests, hasked, hanswered, List.map_append, List.count_append, ← hconserved]
    show _ + (_ + [cri].count r) = _
    omega
  · show s₁.asked.map _ = List.range s₁.asked.length
    rw [hasked]
    exact h.numbered
  · show s₁.forwarded.map _ = (s₁.answered.filter _).map _
    rw [answer_forwarded hanswer, h.forwarded, hanswered, List.filter_append, List.map_append]
    cases hredirected : cri.isRedirected <;> simp [hredirected]
  · intro n
    show BeagleCache.refs s₁.tmp n = s₁.ownAnswered.count n + s₁.brought.count n
    rw [hrefs, h.refs, ownAnswered_append hanswered, hbrought, List.count_append]
    omega

theorem RequestStep_answered (h : Answered peers s) (hone : s.FindsOne e) (hstep : RequestStep cfg sha1 peers s e s') :
    Answered peers s' := by
  cases hstep with
  | none => exact h
  | put sha1name isRedirected pxyAddr length peerIdx isNetwork => exact h.put sha1name isRedirected pxyAddr length peerIdx isNetwork
  | store hblock hput => exact h.store hblock hput
  | @answer sha1name block cri rest s₁ numInFlight hblock hlist hanswer =>
      have hle : (getChunkRequestList s sha1name).length ≤ 1 := hone
      rw [hlist] at hle
      rw [tail_eq_nil hle] at hlist
      exact h.answer hblock hlist hanswer

/-- The runs in which a response that finds requests finds only one. -/
def findsOne (cfg : Config) (sha1 : Bytes → Sha1Name) (peers : Peers) (network disk : Nat → BitVec 32) :
    System RequestProxy RequestEvent := (requestSystem cfg sha1 peers network disk).restrict FindsOne

theorem findsOne_answered (network disk : Nat → BitVec 32) :
    (findsOne cfg sha1 peers network disk).Invariant (Answered peers) where
  init := by
    rintro s rfl
    exact newRequestProxy_answered network disk
  step := fun _ _ _ h hstep => RequestStep_answered h hstep.1 (requestNext_step hstep.2)

/-- A request that was put is in flight, or it was answered. -/
theorem Answered.place (h : Answered peers s) (hr : r ∈ s.asked) :
    s.requests.count r + (s.answered.map Prod.fst).count r = 1 := by
  have hnodup : s.asked.Nodup := by
    apply List.Nodup.of_map (·.number)
    rw [h.numbered]
    exact List.nodup_range
  rw [h.conserved r, List.count_eq_one_of_mem hnodup hr]

end RequestProxy

/-- In every run in which a response that finds requests finds only one: a request that was put is in flight or was answered
once, the requests of other proxies that were answered are the responses that were passed on to them, and the requests of the
proxy itself that were answered are the references of `tmp_ht`, besides those of chunks that came without a request. -/
theorem requests_answered {cfg : Config} {sha1 : Bytes → Sha1Name} {peers : Peers} {network disk : Nat → BitVec 32}
    {events : List RequestEvent} {s : RequestProxy} (hrun : (RequestProxy.findsOne cfg sha1 peers network disk).Runs events s) :
    (∀ r ∈ s.asked, s.requests.count r + (s.answered.map Prod.fst).count r = 1) ∧
      s.forwarded.map (fun f => (some f.1, f.2)) =
        (s.answered.filter fun a => a.1.isRedirected).map (fun a => (peers.peerOf a.1.pxyAddr, a.1.sha1name, a.2)) ∧
      ∀ n, refs s.tmp n = s.ownAnswered.count n + s.brought.count n := by
  have h := (RequestProxy.findsOne_answered network disk).holds hrun
  exact ⟨fun r hr => h.place hr, h.forwarded, h.refs⟩

/-- A proxy with the number `0` whose peers have their numbers as addresses. -/
def samplePeers : Peers := ⟨fun addr => some addr.toNat, fun idx => BitVec.ofNat 32 idx, 0⟩

/-- The proxy `1` asks for a chunk that proxy `3` has. -/
def sampleRequest : RequestEvent := .bodyRequest 1 none none 3 default 2

theorem requests_answered_sample : ∃ s,
    (RequestProxy.findsOne sampleConfig calcSHA1Sig samplePeers (fun _ => 0) fun _ => 0).Runs
      [sampleRequest, .bodyResponse default [7, 8]] s ∧
    s.forwarded = [(1, default, [7, 8])] ∧ ∀ r ∈ s.asked, s.requests.count r + (s.answered.map Prod.fst).count r = 1 := by
  obtain ⟨s, hfold, hs⟩ := @Run.exists_of_map _ _
    ([sampleRequest, .bodyResponse default [7, 8]].foldlM
      (System.guarded RequestProxy.FindsOne (requestNext sampleConfig calcSHA1Sig samplePeers) .exit)
      (newRequestProxy (fun _ => 0) fun _ => 0))
    (fun s => s.forwarded) [(1, default, [7, 8])] (by decide)
  have hstart : (RequestProxy.findsOne sampleConfig calcSHA1Sig samplePeers (fun _ => 0) fun _ => 0).Runs []
    (newRequestProxy (fun _ => 0) fun _ => 0) := .start rfl
  have hrun : (RequestProxy.findsOne sampleConfig calcSHA1Sig samplePeers (fun _ => 0) fun _ => 0).Runs
    [sampleRequest, .bodyResponse default [7, 8]] s := System.runs_guarded hstart hfold
  exact ⟨s, hrun, hs, (requests_answered hrun).1⟩

/-- The proxies `1` and `2` ask for one chunk, and both requests are passed on. After both responses, the request of `2` is
not in flight and was not answered. -/
theorem second_request_lost : ∃ s r, (requestSystem sampleConfig calcSHA1Sig samplePeers (fun _ => 0) fun _ => 0).Runs
    [sampleRequest, .bodyRequest 2 none none 3 default 2, .bodyResponse default [7, 8], .bodyResponse default [7, 8]] s ∧
    r ∈ s.asked ∧ r.isRedirected = true ∧ r.pxyAddr = 2 ∧ r ∉ s.requests ∧ r ∉ s.answered.map Prod.fst ∧
    s.forwarded = [(1, default, [7, 8])] := by
  obtain ⟨s, hfold, hs⟩ := @Run.exists_of_map _ _
    ([sampleRequest, .bodyRequest 2 none none 3 default 2, .bodyResponse default [7, 8], .bodyResponse default [7, 8]].foldlM
      (requestNext sampleConfig calcSHA1Sig samplePeers) (newRequestProxy (fun _ => 0) fun _ => 0))
    (fun s => (s.asked, s.requests, s.answered, s.forwarded))
    ([⟨0, default, true, 1, 2, true, 3⟩, ⟨1, default, true, 2, 2, true, 3⟩], [], [(⟨0, default, true, 1, 2, true, 3⟩, [7, 8])],
      [(1, default, [7, 8])]) rfl
  have hstart : (requestSystem sampleConfig calcSHA1Sig samplePeers (fun _ => 0) fun _ => 0).Runs []
    (newRequestProxy (fun _ => 0) fun _ => 0) := .start rfl
  simp only [Prod.mk.injEq] at hs
  obtain ⟨hasked, hrequests, hanswered, hforwarded⟩ := hs
  refine ⟨s, ⟨1, default, true, 2, 2, true, 3⟩, System.runs_foldlM hstart hfold, ?_, rfl, rfl, ?_, ?_, hforwarded⟩
  · rw [hasked]
    decide
  · rw [hrequests]
    decide
  · rw [hanswered]
    decide

/-! ## The load of the peers -/

/-- What `PutChunkRequest` added for the network requests of a peer that are in flight. -/
def pendingNetwork (requests : List ChunkRequestInfo) (p : Nat) : Nat :=
  ((requests.filter fun cri => cri.isNetwork && cri.peerIdx == p).map fun cri => cri.length.toNat + perChunkResponseOverhead).sum

/-- The disk requests of a peer that are in flight. -/
def pendingDisk (requests : List ChunkRequestInfo) (p : Nat) : Nat :=
  requests.countP fun cri => !cri.isNetwork && cri.peerIdx == p

namespace RequestProxy

variable {cfg : Config} {sha1 : Bytes → Sha1Name} {peers : Peers} {s s' s₁ : RequestProxy} {e : RequestEvent}
  {sha1name : Sha1Name} {cri : ChunkRequestInfo} {network disk : Nat → BitVec 32}

/-- The statistics are what they were at the start and the requests in flight. -/
structure Loaded (network disk : Nat → BitVec 32) (s : RequestProxy) : Prop where
  network : ∀ p, s.networkPendingBytes p = network p + BitVec.ofNat 32 (pendingNetwork s.requests p)
  disk : ∀ p, s.diskPendingChunks p = disk p + BitVec.ofNat 32 (pendingDisk s.requests p)

theorem pendingNetwork_append (requests : List ChunkRequestInfo) (cri : ChunkRequestInfo) (p : Nat) :
    pendingNetwork (requests ++ [cri]) p = pendingNetwork requests p +
      if cri.isNetwork && cri.peerIdx == p then cri.length.toNat + perChunkResponseOverhead else 0 := by
  rw [pendingNetwork, List.filter_append, List.map_append, List.sum_append, ← pendingNetwork]
  cases hload : cri.isNetwork && cri.peerIdx == p <;> simp [hload]

theorem pendingDisk_append (requests : List ChunkRequestInfo) (cri : ChunkRequestInfo) (p : Nat) :
    pendingDisk (requests ++ [cri]) p = pendingDisk requests p + if !cri.isNetwork && cri.peerIdx == p then 1 else 0 := by
  rw [pendingDisk, List.countP_append, ← pendingDisk, List.countP_singleton]

theorem requests_perm (s : RequestProxy) (sha1name : Sha1Name) :
    (getChunkRequestList s sha1name ++ s.requests.filter fun cri => cri.sha1name ≠ sha1name).Perm s.requests := by
  have hperm := List.filter_append_perm (fun cri : ChunkRequestInfo => decide (cri.sha1name = sha1name)) s.requests
  simpa [getChunkRequestList, decide_not] using hperm

theorem pendingNetwork_perm {l l' : List ChunkRequestInfo} (h : l.Perm l') (p : Nat) : pendingNetwork l p = pendingNetwork l' p :=
  ((h.filter _).map _).sum_eq

theorem Loaded.put (h : Loaded network disk s) (sha1name : Sha1Name) (isRedirected : Bool) (pxyAddr length : BitVec 32)
    (peerIdx : Nat) (isNetwork : Bool) :
    Loaded network disk (putChunkRequest s sha1name isRedirected pxyAddr length peerIdx isNetwork) := by
  constructor
  · intro p
    simp only [putChunkRequest, pendingNetwork_append]
    by_cases hp : p = peerIdx
    · rw [hp, Function.update_self, h.network, BitVec.ofNat_add, BitVec.add_assoc]
      cases isNetwork <;> simp [networkLoad, BitVec.ofNat_add]
    · rw [Function.update_of_ne hp, h.network, if_neg]
      · rfl
      · simp [Ne.symm hp]
  · intro p
    simp only [putChunkRequest, pendingDisk_append]
    by_cases hp : p = peerIdx
    · rw [hp, Function.update_self, h.disk, BitVec.ofNat_add, BitVec.add_assoc]
      cases isNetwork <;> simp [diskLoad]
    · rw [Function.update_of_ne hp, h.disk, if_neg]
      · rfl
      · simp [Ne.symm hp]

theorem Loaded.answer {numInFlight : Int} {block : Bytes} (h : Loaded network disk s)
    (hlist : getChunkRequestList s sha1name = [cri]) (hown : cri.isRedirected = false) (hdisk : cri.isNetwork = false)
    (hanswer : AnswerStep cfg sha1 peers s cri block s₁) : Loaded network disk (withoutName s₁ sha1name numInFlight) := by
  have hperm := requests_perm s sha1name
  rw [hlist] at hperm
  cases hanswer with
  | forward hredirected _ =>
      rw [hown] at hredirected
      cases hredirected
  | network _ hnetwork _ =>
      rw [hdisk] at hnetwork
      cases hnetwork
  | disk _ _ _ =>
      constructor
      · intro p
        show s.networkPendingBytes p = network p + BitVec.ofNat 32 (pendingNetwork (s.requests.filter _) p)
        rw [h.network, ← pendingNetwork_perm hperm p]
        simp [pendingNetwork, hdisk]
      · intro p
        show Function.update s.diskPendingChunks cri.peerIdx (s.diskPendingChunks cri.peerIdx - 1) p =
          disk p + BitVec.ofNat 32 (pendingDisk (s.requests.filter fun cri => cri.sha1name ≠ sha1name) p)
        have hcount : pendingDisk s.requests p = pendingDisk (s.requests.filter fun cri => cri.sha1name ≠ sha1name) p +
            if cri.peerIdx == p then 1 else 0 := by
          rw [pendingDisk, ← hperm.countP_eq, List.singleton_append, List.countP_cons, ← pendingDisk]
          simp [hdisk]
        by_cases hp : p = cri.peerIdx
        · rw [hp] at hcount ⊢
          rw [Function.update_self, h.disk, hcount, if_pos (beq_self_eq_true _), BitVec.ofNat_add, ← BitVec.add_assoc]
          exact BitVec.add_sub_cancel _ _
        · rw [Function.update_of_ne hp, h.disk, hcount, if_neg (by simp [Ne.symm hp]), Nat.add_zero]

/-- The runs in which a response that finds requests finds only a disk request of the proxy itself. -/
def findsDisk (cfg : Config) (sha1 : Bytes → Sha1Name) (peers : Peers) (network disk : Nat → BitVec 32) :
    System RequestProxy RequestEvent := (requestSystem cfg sha1 peers network disk).restrict FindsDisk

theorem findsDisk_loaded (network disk : Nat → BitVec 32) :
    (findsDisk cfg sha1 peers network disk).Invariant (Loaded network disk) where
  init := by
    rintro s rfl
    exact ⟨fun p => (BitVec.add_zero _).symm, fun p => (BitVec.add_zero _).symm⟩
  step := by
    rintro s e s' h ⟨hdisk, hnext⟩
    have hstep : RequestStep cfg sha1 peers s e s' := requestNext_step hnext
    cases hstep with
    | none => exact h
    | put sha1name isRedirected pxyAddr length peerIdx isNetwork =>
        exact h.put sha1name isRedirected pxyAddr length peerIdx isNetwork
    | store _ _ => exact ⟨h.network, h.disk⟩
    | @answer sha1name block cri rest s₁ numInFlight _ hlist hanswer =>
        obtain ⟨hle, hall⟩ : (getChunkRequestList s sha1name).length ≤ 1 ∧
          ∀ cri ∈ getChunkRequestList s sha1name, cri.isRedirected = false ∧ cri.isNetwork = false := hdisk
        rw [hlist] at hle hall
        rw [tail_eq_nil hle] at hlist
        obtain ⟨hown, hnet⟩ := hall cri List.mem_cons_self
        exact h.answer hlist hown hnet hanswer

end RequestProxy

/-- In every run in which a response that finds requests finds only one, a disk request of the proxy itself, the statistics of
a peer are what they were at the start and what the requests in flight added. -/
theorem pending_load {cfg : Config} {sha1 : Bytes → Sha1Name} {peers : Peers} {network disk : Nat → BitVec 32}
    {events : List RequestEvent} {s : RequestProxy} (hrun : (RequestProxy.findsDisk cfg sha1 peers network disk).Runs events s)
    (p : Nat) :
    s.networkPendingBytes p = network p + BitVec.ofNat 32 (pendingNetwork s.requests p) ∧
      s.diskPendingChunks p = disk p + BitVec.ofNat 32 (pendingDisk s.requests p) ∧
      ((network p).toNat + pendingNetwork s.requests p < 2 ^ 32 →
        (s.networkPendingBytes p).toNat = (network p).toNat + pendingNetwork s.requests p) ∧
      ((disk p).toNat + pendingDisk s.requests p < 2 ^ 32 →
        (s.diskPendingChunks p).toNat = (disk p).toNat + pendingDisk s.requests p) ∧
      (s.requests = [] → s.networkPendingBytes p = network p ∧ s.diskPendingChunks p = disk p) := by
  have h := (RequestProxy.findsDisk_loaded network disk).holds hrun
  have hfits : ∀ (x : BitVec 32) (n : Nat), x.toNat + n < 2 ^ 32 → (x + BitVec.ofNat 32 n).toNat = x.toNat + n := by
    intro x n hlt
    rw [BitVec.toNat_add, BitVec.toNat_ofNat, Nat.add_mod_mod, Nat.mod_eq_of_lt hlt]
  refine ⟨h.network p, h.disk p, ?_, ?_, ?_⟩
  · intro hlt
    rw [h.network p, hfits _ _ hlt]
  · intro hlt
    rw [h.disk p, hfits _ _ hlt]
  intro hnone
  have hnetwork := h.network p
  have hdisk := h.disk p
  rw [hnone] at hnetwork hdisk
  exact ⟨hnetwork.trans (BitVec.add_zero _), hdisk.trans (BitVec.add_zero _)⟩

theorem pending_load_sample : ∃ s,
    (RequestProxy.findsDisk sampleConfig calcSHA1Sig samplePeers (fun _ => 4) fun _ => 6).Runs
      [.ask default 2 5 false, .bodyResponse default [7, 8]] s ∧ s.requests = [] ∧ s.diskPendingChunks 5 = 6 := by
  obtain ⟨s, hfold, hs⟩ := @Run.exists_of_map _ _
    ([.ask default 2 5 false, .bodyResponse default [7, 8]].foldlM
      (System.guarded RequestProxy.FindsDisk (requestNext sampleConfig calcSHA1Sig samplePeers) .exit)
      (newRequestProxy (fun _ => 4) fun _ => 6))
    (fun s => s.requests) [] (by decide)
  have hstart : (RequestProxy.findsDisk sampleConfig calcSHA1Sig samplePeers (fun _ => 4) fun _ => 6).Runs []
    (newRequestProxy (fun _ => 4) fun _ => 6) := .start rfl
  have hrun : (RequestProxy.findsDisk sampleConfig calcSHA1Sig samplePeers (fun _ => 4) fun _ => 6).Runs
    [.ask default 2 5 false, .bodyResponse default [7, 8]] s := System.runs_guarded hstart hfold
  exact ⟨s, hrun, hs, ((pending_load hrun 5).2.2.2.2 hs).2⟩

/-- A network request of the proxy itself is answered. Nothing is in flight, and the overhead is still counted. -/
theorem overhead_stays_counted : ∃ s, (requestSystem sampleConfig calcSHA1Sig samplePeers (fun _ => 0) fun _ => 0).Runs
    [.ask default 2 5 true, .bodyResponse default [7, 8]] s ∧ s.requests = [] ∧ s.networkPendingBytes 5 = 35 := by
  obtain ⟨s, hfold, hs⟩ := @Run.exists_of_map _ _
    ([.ask default 2 5 true, .bodyResponse default [7, 8]].foldlM (requestNext sampleConfig calcSHA1Sig samplePeers)
      (newRequestProxy (fun _ => 0) fun _ => 0))
    (fun s => (s.requests, s.networkPendingBytes 5)) ([], 35) (by decide)
  have hstart : (requestSystem sampleConfig calcSHA1Sig samplePeers (fun _ => 0) fun _ => 0).Runs []
    (newRequestProxy (fun _ => 0) fun _ => 0) := .start rfl
  exact ⟨s, System.runs_foldlM hstart hfold, congrArg Prod.fst hs, congrArg Prod.snd hs⟩

end BeagleCache

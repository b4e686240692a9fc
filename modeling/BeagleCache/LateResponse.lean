import BeagleCache.CacheConservation
import BeagleCache.CacheHistory

/-! A body request of a peer that is looked up on disk. The transaction keeps the pointer to the chunk connection the request came
over, and when the response of the disk cache is there `PostProcessBodyRequest` is called with that pointer. In between the peer may
have closed the connection: it is destroyed and its memory given back. For a user connection the handler looks in `g_ConnMap` first;
for a chunk connection nothing asks whether it is still there. -/

namespace BeagleCache

open Transition

/-- The `ConnectionInfo` of a chunk connection. `serial` tells it from every other connection, also from a later one at the same
address. -/
structure ChunkConnectionInfo where
  serial : Nat
  peerIdx : Nat
  fd : Nat
  isClosed : Bool

/-- `sourceCI` of the transaction `number` with `ps_bodyRequest`; `serial` is the connection that made the request. -/
structure BodySource where
  number : Nat
  sourceCI : Nat
  serial : Nat

/-- A call of `PostProcessBodyRequest` with `sourceCI` and what lies at this address. -/
structure BodyResponse where
  source : BodySource
  found : Option ChunkConnectionInfo

/-- The chunk connections by their addresses, the disk cache, and the transactions of body requests. -/
structure ResponseState where
  connections : Nat → Option ChunkConnectionInfo
  numSerials : Nat
  cache : CacheState
  sources : List BodySource
  responses : List BodyResponse

/-- What happens: a peer connects and `malloc` returns an address, a body request that no cache in memory answers (it may be behind
another message in the buffer, the answer to which found the connection dead: nothing asks for that), `SetDead`,
`DestroyConnectionInfo` from `CleanUpClosedConnections`, and the events of the disk cache. -/
inductive ResponseEvent
  | connected (address peerIdx fd : Nat)
  | bodyRequest (address : Nat) (sha1name : Bytes) (length : Int)
  | closed (address : Nat)
  | destroyed (address : Nat)
  | cache (event : CacheEvent)

/-- The calls of `PostProcessBodyRequest` for the transactions whose response was processed. -/
def bodyResponses (s : ResponseState) (done : List CacheTransactionInfo) : List BodyResponse :=
  (s.sources.filter fun source => source.number ∈ done.map CacheTransactionInfo.number).map fun source =>
    ⟨source, s.connections source.sourceCI⟩

def responseNext (s : ResponseState) : ResponseEvent → Run ResponseState
  | .connected address peerIdx fd =>
      match s.connections address with
      | some _ => .ok s
      | none => .ok { s with
          connections := Function.update s.connections address (some ⟨s.numSerials, peerIdx, fd, false⟩)
          numSerials := s.numSerials + 1 }
  | .bodyRequest address sha1name length =>
      match s.connections address with
      | none => .ok s
      | some ci => do
          let cache ← sendCacheRequest s.cache ⟨.get, sha1name, length, none⟩
          return { s with cache := cache, sources := s.sources ++ [⟨s.cache.created.length, address, ci.serial⟩] }
  | .closed address =>
      match s.connections address with
      | none => .ok s
      | some ci => .ok { s with connections := Function.update s.connections address (some { ci with isClosed := true }) }
  | .destroyed address =>
      match s.connections address with
      | none => .ok s
      | some ci => if ci.isClosed then .ok { s with connections := Function.update s.connections address none } else .ok s
  | .cache event => do
      let cache ← cacheNext s.cache event
      return { s with
        cache := cache
        responses := s.responses ++ bodyResponses s (cache.processed.drop s.cache.processed.length) }

def responseInit (maxCacheConns : Nat) : ResponseState := ⟨fun _ => none, 0, initDiskCache maxCacheConns, [], []⟩

def responseSystem (maxCacheConns : Nat) : System ResponseState ResponseEvent :=
  System.ofNext (· = responseInit maxCacheConns) responseNext

/-- The address holds the connection that made the request, and it is open. -/
def OpenSource (source : BodySource) (found : Option ChunkConnectionInfo) : Prop :=
  ∃ ci, found = some ci ∧ ci.serial = source.serial ∧ ci.isClosed = false

/-- The response of the transaction was processed. -/
def Answered (s : ResponseState) (source : BodySource) : Prop := source.number ∈ s.cache.processed.map CacheTransactionInfo.number

/-- A connection is closed only when the disk cache answered all its requests, and makes none once it is closed. -/
def ClosesAnswered (s : ResponseState) : ResponseEvent → Prop
  | .bodyRequest address _ _ => ∀ ci ∈ s.connections address, ci.isClosed = false
  | .closed address => ∀ source ∈ s.sources, source.sourceCI = address → Answered s source
  | _ => True

/-- What holds as long as connections are closed only when their requests are answered. -/
structure ResponseInv (s : ResponseState) : Prop where
  accounted : CacheState.Accounted [] s.cache
  open_source : ∀ source ∈ s.sources, Answered s source ∨ OpenSource source (s.connections source.sourceCI)
  responses : ∀ response ∈ s.responses, OpenSource response.source response.found

theorem CacheState.Accounted.new_number {s s' : CacheState} (h : Accounted [] s') (hgrown : Grown s s') {number : Nat}
    (hnew : number ∈ (s'.processed.drop s.processed.length).map CacheTransactionInfo.number) :
    number ∉ s.processed.map CacheTransactionInfo.number := by
  intro hold
  obtain ⟨t, ht, rfl⟩ := List.mem_map.mp hnew
  obtain ⟨t', ht', hnumber⟩ := List.mem_map.mp hold
  obtain ⟨rest, hrest⟩ := hgrown.processed
  rw [← hrest, List.drop_left] at ht
  have hcreated : ∀ u ∈ s'.processed, u ∈ s'.created := by
    intro u hu
    have hconserved := h.conserved u
    have hpos := List.count_pos_iff.mpr hu
    apply List.count_pos_iff.mp
    omega
  have hnodup : (s'.created.map CacheTransactionInfo.number).Nodup := by
    have hnumbered : s'.created.map CacheTransactionInfo.number = List.range s'.created.length := h.numbered
    rw [hnumbered]
    exact List.nodup_range
  have hmem : t ∈ s'.processed := hrest ▸ List.mem_append_right _ ht
  have hmem' : t' ∈ s'.processed := hrest ▸ List.mem_append_left _ ht'
  have hsame : t' = t := List.inj_on_of_nodup_map hnodup (hcreated t' hmem') (hcreated t hmem) hnumber
  have hplace := h.place (hcreated t hmem)
  have htwice : 2 ≤ s'.processed.count t := by
    rw [← hrest, List.count_append]
    have h1 : 0 < s.processed.count t := List.count_pos_iff.mpr (hsame ▸ ht')
    have h2 : 0 < rest.count t := List.count_pos_iff.mpr ht
    omega
  omega

namespace ResponseInv

variable {s s' : ResponseState}

theorem init (maxCacheConns : Nat) : ResponseInv (responseInit maxCacheConns) where
  accounted := CacheState.initDiskCache_accounted maxCacheConns
  open_source := fun _ hsource => absurd hsource List.not_mem_nil
  responses := fun _ hresponse => absurd hresponse List.not_mem_nil

/-- A change at an address where no open connection was, or where the requests are answered. -/
theorem update (h : ResponseInv s) {address : Nat} {slot : Option ChunkConnectionInfo} {numSerials : Nat}
    (hslot : ∀ source ∈ s.sources, source.sourceCI = address → Answered s source) :
    ResponseInv { s with connections := Function.update s.connections address slot, numSerials := numSerials } := by
  refine ⟨h.accounted, ?_, h.responses⟩
  intro source hsource
  by_cases haddress : source.sourceCI = address
  · exact .inl (hslot source hsource haddress)
  · show _ ∨ OpenSource source (Function.update s.connections address slot source.sourceCI)
    rw [Function.update_of_ne haddress]
    exact h.open_source source hsource

/-- A connection that is not open has no request without an answer. -/
theorem answered (h : ResponseInv s) {address : Nat} (hclosed : ∀ ci, s.connections address = some ci → ci.isClosed = true) :
    ∀ source ∈ s.sources, source.sourceCI = address → Answered s source := by
  intro source hsource haddress
  rcases h.open_source source hsource with hanswered | ⟨ci, hfound, _, hopen⟩
  · exact hanswered
  · rw [haddress] at hfound
    rw [hclosed ci hfound] at hopen
    cases hopen

theorem request (h : ResponseInv s) {address : Nat} {ci : ChunkConnectionInfo} (hci : s.connections address = some ci)
    (hopen : ci.isClosed = false) {request : CacheRequest} {cache : CacheState} (hsend : sendCacheRequest s.cache request = .ok cache) :
    ResponseInv { s with cache := cache, sources := s.sources ++ [⟨s.cache.created.length, address, ci.serial⟩] } := by
  refine ⟨(CacheState.sendCacheRequest_accounted h.accounted hsend).1, ?_, h.responses⟩
  intro source hsource
  rcases List.mem_append.mp hsource with hold | hnew
  · rcases h.open_source source hold with hanswered | hlive
    · left
      show source.number ∈ cache.processed.map CacheTransactionInfo.number
      rw [(CacheState.sendCacheRequest_histories hsend).2]
      exact hanswered
    · exact .inr hlive
  · rw [List.mem_singleton.mp hnew]
    exact .inr ⟨ci, hci, rfl, hopen⟩

theorem cache (h : ResponseInv s) {event : CacheEvent} {cache : CacheState} (hcache : cacheNext s.cache event = .ok cache) :
    ResponseInv { s with
      cache := cache
      responses := s.responses ++ bodyResponses s (cache.processed.drop s.cache.processed.length) } := by
  have hgrown := CacheState.cacheNext_grown hcache
  have haccounted := CacheState.cacheNext_accounted h.accounted hcache
  refine ⟨haccounted, ?_, ?_⟩
  · intro source hsource
    rcases h.open_source source hsource with hanswered | hlive
    · exact .inl ((hgrown.processed.map _).subset hanswered)
    · exact .inr hlive
  · intro response hresponse
    rcases List.mem_append.mp hresponse with hold | hnew
    · exact h.responses response hold
    · obtain ⟨source, hsource, rfl⟩ := List.mem_map.mp hnew
      obtain ⟨hmem, hdone⟩ := List.mem_filter.mp hsource
      have hfirst := haccounted.new_number hgrown (of_decide_eq_true hdone)
      rcases h.open_source source hmem with hanswered | hlive
      · exact absurd hanswered hfirst
      · exact hlive

theorem next (h : ResponseInv s) {event : ResponseEvent} (hcloses : ClosesAnswered s event) (hnext : responseNext s event = .ok s') :
    ResponseInv s' := by
  cases event with
  | connected address peerIdx fd =>
      simp only [responseNext] at hnext
      split at hnext
      · cases hnext
        exact h
      · rename_i hnone
        cases hnext
        exact h.update (h.answered fun ci hci => by rw [hnone] at hci; cases hci)
  | bodyRequest address sha1name length =>
      simp only [responseNext] at hnext
      split at hnext
      · cases hnext
        exact h
      · rename_i ci hci
        obtain ⟨cache, hsend, hret⟩ := Run.bind_eq_ok.mp hnext
        cases hret
        exact h.request hci (hcloses ci hci) hsend
  | closed address =>
      simp only [responseNext] at hnext
      split at hnext
      · cases hnext
        exact h
      · cases hnext
        exact h.update hcloses
  | destroyed address =>
      simp only [responseNext] at hnext
      split at hnext
      · cases hnext
        exact h
      · rename_i ci hci
        split at hnext
        · rename_i hclosed
          cases hnext
          exact h.update (h.answered fun ci' hci' => by rw [hci] at hci'; cases hci'; exact hclosed)
        · cases hnext
          exact h
  | cache event =>
      obtain ⟨cache, hcache, hret⟩ := Run.bind_eq_ok.mp hnext
      cases hret
      exact h.cache hcache

end ResponseInv

/-- In every run in which a chunk connection is closed only when the disk cache answered all its body requests, and makes none once it is
closed, `PostProcessBodyRequest` is called with the connection that made the request, still open. -/
theorem body_responses_use_open_connection {maxCacheConns : Nat} {events : List ResponseEvent} {s : ResponseState}
    (hrun : ((responseSystem maxCacheConns).restrict ClosesAnswered).Runs events s) :
    ∀ response ∈ s.responses, OpenSource response.source response.found := by
  have hinv : ((responseSystem maxCacheConns).restrict ClosesAnswered).Invariant ResponseInv := by
    constructor
    · rintro s rfl
      exact ResponseInv.init maxCacheConns
    · exact fun s event s' h hstep => h.next hstep.1 hstep.2
  exact (hinv.holds hrun).responses

instance (s : ResponseState) (source : BodySource) : Decidable (Answered s source) :=
  inferInstanceAs (Decidable (source.number ∈ s.cache.processed.map CacheTransactionInfo.number))

instance (s : ResponseState) (event : ResponseEvent) : Decidable (ClosesAnswered s event) :=
  match event with
  | .closed address => inferInstanceAs (Decidable (∀ source ∈ s.sources, source.sourceCI = address → Answered s source))
  | .connected _ _ _ => .isTrue trivial
  | .bodyRequest address _ _ => inferInstanceAs (Decidable (∀ ci ∈ s.connections address, ci.isClosed = false))
  | .destroyed _ => .isTrue trivial
  | .cache _ => .isTrue trivial

/-- A peer connects and asks for a chunk, which the disk cache does not have. -/
def bodyRequestSample : List ResponseEvent :=
  [.cache (.connect 0 fun _ => 0), .connected 7 1 5, .bodyRequest 7 [1, 2, 3] 100]

/-- The connection is found dead, and asks for the chunk. -/
def deadRequest : List ResponseEvent := [.cache (.connect 0 fun _ => 0), .connected 7 1 5, .closed 7, .bodyRequest 7 [1, 2, 3] 100]

/-- The response `HTTP/1.1 400 NOT FOUND`. -/
def missResponse : List ResponseEvent :=
  [.cache (.read 0 (some [72, 84, 84, 80, 47, 49, 46, 49, 32, 52, 48, 48, 32, 78, 79, 84, 32, 70, 79, 85, 78, 68, 13, 10]) []),
    .cache (.process 0 [])]

/-- The peer closes its connection, and the event loop destroys it. -/
def peerGone : List ResponseEvent := [.closed 7, .destroyed 7]

/-- Another peer connects, and its connection gets the same address. -/
def anotherPeer : List ResponseEvent := [.connected 7 2 6]

/-- What the handler was called with: the connection that made the request, and the one it finds with the state of it. -/
def bodyCalls (s : ResponseState) : List (Nat × Option (Nat × Bool)) :=
  s.responses.map fun response => (response.source.serial, response.found.map fun ci => (ci.serial, ci.isClosed))

theorem body_responses_use_open_connection_sample :
    ∃ s, ((responseSystem 1).restrict ClosesAnswered).Runs (bodyRequestSample ++ missResponse ++ peerGone) s ∧
      s.responses.length = 1 ∧ ∀ response ∈ s.responses, OpenSource response.source response.found := by
  obtain ⟨s, hfold, hcalls⟩ := @Run.exists_of_map _ _
    ((bodyRequestSample ++ missResponse ++ peerGone).foldlM (System.guarded ClosesAnswered responseNext .exit) (responseInit 1))
    (fun s => s.responses.length) 1 (by decide)
  have hstart : ((responseSystem 1).restrict ClosesAnswered).Runs [] (responseInit 1) := .start rfl
  have hrun := System.runs_guarded hstart hfold
  exact ⟨s, hrun, hcalls, body_responses_use_open_connection hrun⟩

/-- The peer goes before the response comes: the handler is called with an address that was given back, and with the connection
of another peer once this got the same address. A request behind a message whose answer found the connection dead comes to the same. -/
theorem body_response_after_destroy :
    (∃ s, (responseSystem 1).Runs (bodyRequestSample ++ peerGone ++ missResponse) s ∧ bodyCalls s = [(0, none)] ∧
      ¬ ∀ response ∈ s.responses, OpenSource response.source response.found) ∧
    (∃ s, (responseSystem 1).Runs (bodyRequestSample ++ peerGone ++ anotherPeer ++ missResponse) s ∧
      bodyCalls s = [(0, some (1, false))]) ∧
    ∃ s, (responseSystem 1).Runs (deadRequest ++ missResponse) s ∧ bodyCalls s = [(0, some (0, true))] := by
  have hstart : (responseSystem 1).Runs [] (responseInit 1) := .start rfl
  refine ⟨?_, ?_, ?_⟩
  · obtain ⟨s, hfold, hcalls⟩ := @Run.exists_of_map _ _
      ((bodyRequestSample ++ peerGone ++ missResponse).foldlM responseNext (responseInit 1)) bodyCalls [(0, none)]
      (by decide)
    have hrun := System.runs_foldlM hstart hfold
    refine ⟨s, hrun, hcalls, ?_⟩
    intro hopen
    have hone : (0, none) ∈ bodyCalls s := hcalls ▸ List.mem_cons_self
    obtain ⟨response, hresponse, heq⟩ := List.mem_map.mp hone
    obtain ⟨ci, hfound, _⟩ := hopen response hresponse
    rw [hfound] at heq
    simp at heq
  · obtain ⟨s, hfold, hcalls⟩ := @Run.exists_of_map _ _
      ((bodyRequestSample ++ peerGone ++ anotherPeer ++ missResponse).foldlM responseNext (responseInit 1)) bodyCalls
      [(0, some (1, false))] (by decide)
    have hrun := System.runs_foldlM hstart hfold
    exact ⟨s, hrun, hcalls⟩
  · obtain ⟨s, hfold, hcalls⟩ := @Run.exists_of_map _ _ ((deadRequest ++ missResponse).foldlM responseNext (responseInit 1)) bodyCalls
      [(0, some (0, true))] (by decide)
    have hrun := System.runs_foldlM hstart hfold
    exact ⟨s, hrun, hcalls⟩

end BeagleCache

import BeagleCache.DiskCache

/-! The transactions that were created and those whose response was processed: nothing that happens to the disk cache takes one out
of these histories. -/

namespace BeagleCache

open Run

namespace CacheState

variable {s s' s'' : CacheState} {i : Nat}

/-- The histories of `s` come first in those of `s'`. -/
structure Grown (s s' : CacheState) : Prop where
  created : s.created <+: s'.created
  processed : s.processed <+: s'.processed

theorem Grown.refl (s : CacheState) : Grown s s := ⟨List.prefix_refl _, List.prefix_refl _⟩

theorem Grown.of_same (hcreated : s'.created = s.created) (hprocessed : s'.processed = s.processed) : Grown s s' := by
  constructor
  · rw [hcreated]
  · rw [hprocessed]

theorem Grown.trans (h : Grown s s') (h' : Grown s' s'') : Grown s s'' :=
  ⟨h.created.trans h'.created, h.processed.trans h'.processed⟩

theorem issuePendingCacheRequests_histories (h : issuePendingCacheRequests s = .ok s') :
    s'.created = s.created ∧ s'.processed = s.processed := by
  obtain ⟨first, _, h⟩ := bind_eq_ok.mp h
  obtain ⟨second, _, hret⟩ := bind_eq_ok.mp h
  cases hret
  exact ⟨rfl, rfl⟩

theorem scheduleCacheRequest_histories (t : CacheTransactionInfo) (addTail : Bool) :
    (scheduleCacheRequest s t addTail).created = s.created ∧ (scheduleCacheRequest s t addTail).processed = s.processed := by
  rw [scheduleCacheRequest]
  split <;> exact ⟨rfl, rfl⟩

theorem sendCacheRequest_histories {request : CacheRequest} (h : sendCacheRequest s request = .ok s') :
    s'.created = s.created ++ [⟨s.created.length, request⟩] ∧ s'.processed = s.processed := by
  obtain ⟨_, _, h⟩ := bind_eq_ok.mp h
  obtain ⟨hcreated, hprocessed⟩ := issuePendingCacheRequests_histories h
  obtain ⟨hcreated', hprocessed'⟩ := scheduleCacheRequest_histories
    (s := { s with created := s.created ++ [⟨s.created.length, request⟩] }) ⟨s.created.length, request⟩ true
  exact ⟨hcreated.trans hcreated', hprocessed.trans hprocessed'⟩

theorem sendCacheRequest_grown {request : CacheRequest} (h : sendCacheRequest s request = .ok s') : Grown s s' := by
  obtain ⟨hcreated, hprocessed⟩ := sendCacheRequest_histories h
  constructor
  · rw [hcreated]
    exact List.prefix_append _ _
  · rw [hprocessed]

theorem sendCacheRequests_grown {requests : List CacheRequest} (h : requests.foldlM sendCacheRequest s = .ok s') : Grown s s' := by
  induction requests generalizing s with
  | nil =>
      cases h
      exact .refl _
  | cons request requests ih =>
      rw [List.foldlM_cons] at h
      obtain ⟨s₁, hsend, h⟩ := bind_eq_ok.mp h
      exact (sendCacheRequest_grown hsend).trans (ih h)

theorem withConnection_grown {f : CacheConnection → Run CacheState} (h : withConnection s i f = .ok s')
    (hf : ∀ ci, f ci = .ok s' → Grown s s') : Grown s s' := by
  rw [withConnection] at h
  split at h
  · exact hf _ h
  · cases h
    exact .refl s

theorem finishCacheResponse_grown {cci : CacheTransactionInfo} {requests : List CacheRequest}
    (h : finishCacheResponse s i cci requests = .ok s') : Grown s s' := by
  obtain ⟨s₁, hrequests, h⟩ := bind_eq_ok.mp h
  refine (sendCacheRequests_grown hrequests).trans (withConnection_grown h fun ci hissue => ?_)
  obtain ⟨hcreated, hprocessed⟩ := issuePendingCacheRequests_histories hissue
  constructor
  · rw [hcreated]
  · rw [hprocessed]
    exact List.prefix_append _ _

theorem processCacheResponse_grown {ci : CacheConnection} {requests : List CacheRequest} {r : CacheState × Int}
    (h : processCacheResponse s i ci requests = .ok r) : Grown s r.1 := by
  rw [processCacheResponse] at h
  split at h
  · cases h
  · obtain ⟨reply, _, h⟩ := bind_eq_ok.mp h
    cases reply with
    | more =>
        cases h
        exact .refl s
    | giveUp =>
        cases h
        exact .refl s
    | hit block =>
        obtain ⟨s₁, hfinish, hret⟩ := bind_eq_ok.mp h
        cases hret
        exact finishCacheResponse_grown hfinish
    | miss =>
        obtain ⟨s₁, hfinish, hret⟩ := bind_eq_ok.mp h
        cases hret
        exact finishCacheResponse_grown hfinish

theorem setCacheDead_grown (h : setCacheDead s i = .ok s') : Grown s s' :=
  withConnection_grown h fun _ hret => by
    cases hret
    exact .of_same rfl rfl

theorem adjustCacheBuffer_grown {num_processed : Int} (h : adjustCacheBuffer s i num_processed = .ok s') : Grown s s' :=
  withConnection_grown h fun _ hret => by
    obtain ⟨_, _, hret⟩ := bind_eq_ok.mp hret
    obtain ⟨_, _, hret⟩ := bind_eq_ok.mp hret
    cases hret
    exact .of_same rfl rfl

theorem closeCacheConnection_grown {requests : List CacheRequest} (h : closeCacheConnection s i requests = .ok s') : Grown s s' := by
  refine withConnection_grown h fun ci hclose => ?_
  split at hclose
  · cases hclose
    exact .refl s
  · split at hclose
    · obtain ⟨r, hresponse, hdead⟩ := bind_eq_ok.mp hclose
      exact (processCacheResponse_grown hresponse).trans (setCacheDead_grown hdead)
    · exact setCacheDead_grown hclose

theorem cacheEventRead_grown {input : Option Bytes} {requests : List CacheRequest} (h : cacheEventRead s i input requests = .ok s') :
    Grown s s' := by
  refine withConnection_grown h fun ci hread => ?_
  cases input with
  | none =>
      have hdead : setCacheDead _ i = .ok s' := hread
      obtain ⟨hcreated, hprocessed⟩ := setCacheDead_grown hdead
      exact ⟨hcreated, hprocessed⟩
  | some data =>
      simp only at hread
      split at hread
      · exact closeCacheConnection_grown hread
      · cases hread
        exact .of_same rfl rfl

theorem processCacheBuffer_grown {requests : List CacheRequest} (h : processCacheBuffer s i requests = .ok s') : Grown s s' := by
  refine withConnection_grown h fun ci hprocess => ?_
  split at hprocess
  · cases hprocess
    exact .refl s
  · obtain ⟨r, hresponse, hprocess⟩ := bind_eq_ok.mp hprocess
    have hgrown := processCacheResponse_grown hresponse
    split at hprocess
    · exact hgrown.trans (setCacheDead_grown hprocess)
    · split at hprocess
      · cases hprocess
        exact hgrown
      · exact hgrown.trans (adjustCacheBuffer_grown hprocess)

theorem destroyCacheConnectionInfo_grown (h : destroyCacheConnectionInfo s i = .ok s') : Grown s s' := by
  refine withConnection_grown h fun ci hdestroy => ?_
  split at hdestroy
  · obtain ⟨_, _, hdestroy⟩ := bind_eq_ok.mp hdestroy
    split at hdestroy
    · obtain ⟨hcreated, hprocessed⟩ := issuePendingCacheRequests_histories hdestroy
      obtain ⟨hcreated', hprocessed'⟩ := scheduleCacheRequest_histories _ _
      exact .of_same (hcreated.trans hcreated') (hprocessed.trans hprocessed')
    · obtain ⟨hcreated, hprocessed⟩ := issuePendingCacheRequests_histories hdestroy
      exact .of_same hcreated hprocessed
  · cases hdestroy
    exact .refl s

theorem cacheNext_grown {event : CacheEvent} (h : cacheNext s event = .ok s') : Grown s s' := by
  cases event with
  | send request => exact sendCacheRequest_grown h
  | connect i memory =>
      have hret : makeNewCacheConnection s i memory = s' := Except.ok.inj h
      rw [makeNewCacheConnection] at hret
      split at hret <;> cases hret <;> exact .of_same rfl rfl
  | read i input requests => exact cacheEventRead_grown h
  | process i requests => exact processCacheBuffer_grown h
  | dead i => exact setCacheDead_grown h
  | destroy i => exact destroyCacheConnectionInfo_grown h

end CacheState

end BeagleCache

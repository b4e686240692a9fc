import BeagleCache.DiskCache

/-! No transaction of the disk cache is lost or done twice. The places a transaction can be in are counted: the two lists,
and the connections that carry one. -/

namespace BeagleCache

open Transition Run

/-- The transaction a slot carries. -/
def slotTransaction (slot : Option CacheConnection) : List CacheTransactionInfo := (slot.bind (·.pCurTrans)).toList

/-- The transactions that wait for a response. -/
def inHand (connections : List (Option CacheConnection)) : List CacheTransactionInfo := connections.flatMap slotTransaction

/-- The connections that exist. -/
def alive (connections : List (Option CacheConnection)) : Nat := connections.countP Option.isSome

/-- All the places of transactions that are not done. -/
def CacheState.places (s : CacheState) : List CacheTransactionInfo :=
  s.firstClass ++ s.secondClass ++ inHand s.connections

/-- What `IssueCacheRequest` asserts about a request. -/
def CacheRequest.Issuable (request : CacheRequest) : Prop :=
  match request.method with
  | .put => 0 < request.length ∧ request.pChunk.isSome
  | .get => request.pChunk = none
  | .peek => True

/-- The account of a state in which the transactions `loose` are in no place. -/
structure CacheState.Accounted (loose : List CacheTransactionInfo) (s : CacheState) : Prop where
  conserved : ∀ t, s.places.count t + s.processed.count t + loose.count t = s.created.count t
  first : s.numPendingFirst = s.firstClass.length
  second : s.numPendingSecond = s.secondClass.length
  conns : s.numCacheConns = alive s.connections
  numbered : s.created.map (·.number) = List.range s.created.length

namespace CacheState

variable {s s' : CacheState} {connections connections' : List (Option CacheConnection)} {slot : Option CacheConnection}
  {i : Nat} {t cci : CacheTransactionInfo} {loose : List CacheTransactionInfo}

theorem count_cons_singleton (l : List CacheTransactionInfo) : (cci :: l).count t = [cci].count t + l.count t := by
  rw [← List.count_append, List.singleton_append]

/-- A slot is replaced: what it carried goes, what the new one carries comes. -/
theorem inHand_set (hslot : connections[i]? = some slot) (slot' : Option CacheConnection) (t : CacheTransactionInfo) :
    (inHand (connections.set i slot')).count t + (slotTransaction slot).count t =
      (inHand connections).count t + (slotTransaction slot').count t := by
  induction connections generalizing i with
  | nil => cases hslot
  | cons head rest ih =>
      cases i with
      | zero =>
          cases hslot
          simp only [inHand, List.set_cons_zero, List.flatMap_cons, List.count_append]
          omega
      | succ i =>
          have hrest := ih (i := i) hslot
          simp only [inHand] at hrest
          simp only [inHand, List.set_cons_succ, List.flatMap_cons, List.count_append]
          omega

theorem alive_set (hslot : connections[i]? = some slot) (slot' : Option CacheConnection) :
    alive (connections.set i slot') + slot.isSome.toNat = alive connections + slot'.isSome.toNat := by
  induction connections generalizing i with
  | nil => cases hslot
  | cons head rest ih =>
      cases i with
      | zero =>
          cases hslot
          simp only [alive, List.set_cons_zero, List.countP_cons]
          cases slot <;> cases slot' <;> simp
      | succ i =>
          have hrest := ih (i := i) hslot
          simp only [alive] at hrest
          simp only [alive, List.set_cons_succ, List.countP_cons]
          omega

theorem getIdleCacheConn_some (hidle : getIdleCacheConn connections = some i) :
    ∃ ci, connections[i]? = some (some ci) ∧ ci.pCurTrans = none := by
  obtain ⟨hi, hslot, _⟩ := List.findIdx?_eq_some_iff_getElem.mp hidle
  cases hci : connections[i] with
  | none =>
      rw [hci] at hslot
      cases hslot
  | some ci =>
      rw [hci] at hslot
      refine ⟨ci, ?_, ?_⟩
      · rw [List.getElem?_eq_getElem hi, hci]
      · exact Option.isNone_iff_eq_none.mp hslot

theorem issueCacheRequest_count (hidle : getIdleCacheConn connections = some i)
    (hissue : issueCacheRequest connections i cci = .ok connections') :
    (∀ t, (inHand connections').count t = (inHand connections).count t + [cci].count t) ∧
      alive connections' = alive connections := by
  obtain ⟨ci, hslot, hnone⟩ := getIdleCacheConn_some hidle
  rw [issueCacheRequest, hslot] at hissue
  obtain ⟨_, _, hissue⟩ := bind_eq_ok.mp hissue
  obtain ⟨text, _, hissue⟩ := bind_eq_ok.mp hissue
  cases hissue
  constructor
  · intro t
    have hset := inHand_set hslot (some { ci with pCurTrans := some cci, sent := ci.sent ++ [text] }) t
    have hbefore : slotTransaction (some ci) = [] := by simp [slotTransaction, hnone]
    rw [hbefore, List.count_nil, Nat.add_zero] at hset
    exact hset
  · have hset := alive_set hslot (some { ci with pCurTrans := some cci, sent := ci.sent ++ [text] })
    simpa using hset

/-- A loop of `IssuePendingCacheRequests` moves a front part of its list to connections. -/
theorem issueList_count {walks rest : List CacheTransactionInfo} {numPending numPending' : Int}
    (hissue : issueList walks numPending connections = .ok (rest, numPending', connections')) :
    ∃ front, walks = front ++ rest ∧ numPending' = numPending - front.length ∧
      (∀ t, (inHand connections').count t = (inHand connections).count t + front.count t) ∧
      alive connections' = alive connections := by
  induction walks generalizing numPending connections with
  | nil =>
      cases hissue
      exact ⟨[], rfl, by simp, fun t => by simp, rfl⟩
  | cons walk walks ih =>
      rw [issueList] at hissue
      split at hissue
      case h_1 =>
          cases hissue
          exact ⟨[], rfl, by simp, fun t => by simp, rfl⟩
      case h_2 i hidle =>
          obtain ⟨connections₁, hone, hissue⟩ := bind_eq_ok.mp hissue
          obtain ⟨_, _, hissue⟩ := bind_eq_ok.mp hissue
          obtain ⟨hcount, halive⟩ := issueCacheRequest_count hidle hone
          obtain ⟨front, hwalks, hpending, hfront, halive'⟩ := ih hissue
          refine ⟨walk :: front, by rw [hwalks, List.cons_append], ?_, ?_, halive'.trans halive⟩
          · rw [hpending, List.length_cons]
            push_cast
            ring
          · intro t
            rw [hfront, hcount, count_cons_singleton front, Nat.add_assoc]

theorem issuePendingCacheRequests_accounted (h : Accounted loose s) (hissue : issuePendingCacheRequests s = .ok s') :
    Accounted loose s' ∧ s'.processed = s.processed ∧ s'.created = s.created := by
  obtain ⟨⟨rest, numPending, connections⟩, hfirst, hissue⟩ := bind_eq_ok.mp hissue
  obtain ⟨⟨rest', numPending', connections'⟩, hsecond, hissue⟩ := bind_eq_ok.mp hissue
  cases hissue
  obtain ⟨front, hwalks, hpending, hcount, halive⟩ := issueList_count hfirst
  obtain ⟨front', hwalks', hpending', hcount', halive'⟩ := issueList_count hsecond
  have hfirst' := h.first
  have hsecond' := h.second
  refine ⟨⟨?_, ?_, ?_, ?_, h.numbered⟩, rfl, rfl⟩
  · intro t
    have hconserved := h.conserved t
    have hc := hcount t
    have hc' : (inHand connections').count t = (inHand connections).count t + front'.count t := hcount' t
    simp only [places, hwalks, hwalks', List.count_append] at hconserved ⊢
    omega
  · rw [hwalks, List.length_append] at hfirst'
    show numPending = rest.length
    omega
  · rw [hwalks', List.length_append] at hsecond'
    show numPending' = rest'.length
    omega
  · show s.numCacheConns = alive connections'
    rw [halive', halive, h.conns]

theorem scheduleCacheRequest_accounted {addTail : Bool} (h : Accounted [t] s) :
    Accounted [] (scheduleCacheRequest s t addTail) := by
  have hfirst := h.first
  have hsecond := h.second
  rw [scheduleCacheRequest]
  split
  · refine ⟨?_, hfirst, ?_, h.conns, h.numbered⟩
    · intro u
      have hconserved := h.conserved u
      simp only [places, List.count_append, List.count_nil] at hconserved ⊢
      omega
    · show s.numPendingSecond + 1 = _
      rw [hsecond, List.length_append]
      rfl
  · refine ⟨?_, ?_, hsecond, h.conns, h.numbered⟩
    · intro u
      have hconserved := h.conserved u
      cases addTail with
      | true =>
          simp only [places, if_true, List.count_append, List.count_nil] at hconserved ⊢
          omega
      | false =>
          simp only [places, Bool.false_eq_true, if_false, List.count_append, List.count_nil] at hconserved ⊢
          rw [count_cons_singleton s.firstClass]
          omega
    · show s.numPendingFirst + 1 = _
      rw [hfirst]
      cases addTail <;> simp

theorem scheduleCacheRequest_ghosts {addTail : Bool} : (scheduleCacheRequest s t addTail).processed = s.processed ∧
    (scheduleCacheRequest s t addTail).created = s.created := by
  rw [scheduleCacheRequest]
  split <;> exact ⟨rfl, rfl⟩

theorem sendCacheRequest_accounted {request : CacheRequest} (h : Accounted [] s)
    (hsend : sendCacheRequest s request = .ok s') : Accounted [] s' ∧ s'.processed = s.processed := by
  obtain ⟨_, _, hsend⟩ := bind_eq_ok.mp hsend
  have hcreated : Accounted [⟨s.created.length, request⟩] { s with
      created := s.created ++ [⟨s.created.length, request⟩] } := by
    refine ⟨?_, h.first, h.second, h.conns, ?_⟩
    · intro t
      have hconserved := h.conserved t
      simp only [places, List.count_append, List.count_nil] at hconserved ⊢
      omega
    · show (s.created ++ [_]).map _ = List.range (s.created ++ [_]).length
      rw [List.map_append, h.numbered, List.length_append, List.length_singleton, List.range_succ]
      rfl
  obtain ⟨haccounted, hprocessed, _⟩ := issuePendingCacheRequests_accounted (scheduleCacheRequest_accounted hcreated) hsend
  exact ⟨haccounted, hprocessed.trans scheduleCacheRequest_ghosts.1⟩

theorem sendCacheRequests_accounted {requests : List CacheRequest} (h : Accounted [] s)
    (hsend : requests.foldlM sendCacheRequest s = .ok s') : Accounted [] s' := by
  induction requests generalizing s with
  | nil =>
      cases hsend
      exact h
  | cons request requests ih =>
      rw [List.foldlM_cons] at hsend
      obtain ⟨s₁, hone, hsend⟩ := bind_eq_ok.mp hsend
      exact ih (sendCacheRequest_accounted h hone).1 hsend

/-- The connection in slot `i` carries `cci`. -/
def Carries (connections : List (Option CacheConnection)) (i : Nat) (cci : CacheTransactionInfo) : Prop :=
  ∃ ci, connections[i]? = some (some ci) ∧ ci.pCurTrans = some cci

theorem issueList_carries {walks rest : List CacheTransactionInfo} {numPending numPending' : Int}
    (hcarries : Carries connections i cci)
    (hissue : issueList walks numPending connections = .ok (rest, numPending', connections')) :
    Carries connections' i cci := by
  induction walks generalizing numPending connections with
  | nil =>
      cases hissue
      exact hcarries
  | cons walk walks ih =>
      rw [issueList] at hissue
      split at hissue
      case h_1 =>
          cases hissue
          exact hcarries
      case h_2 j hidle =>
          obtain ⟨connections₁, hone, hissue⟩ := bind_eq_ok.mp hissue
          obtain ⟨_, _, hissue⟩ := bind_eq_ok.mp hissue
          refine ih ?_ hissue
          obtain ⟨ci, hci, hcur⟩ := hcarries
          obtain ⟨cj, hcj, hnone⟩ := getIdleCacheConn_some hidle
          have hne : j ≠ i := by
            rintro rfl
            rw [hci] at hcj
            cases hcj
            rw [hcur] at hnone
            cases hnone
          rw [issueCacheRequest, hcj] at hone
          obtain ⟨_, _, hone⟩ := bind_eq_ok.mp hone
          obtain ⟨text, _, hone⟩ := bind_eq_ok.mp hone
          cases hone
          exact ⟨ci, by rw [List.getElem?_set_ne hne, hci], hcur⟩

theorem sendCacheRequests_carries {requests : List CacheRequest} (hcarries : Carries s.connections i cci)
    (hsend : requests.foldlM sendCacheRequest s = .ok s') : Carries s'.connections i cci := by
  induction requests generalizing s with
  | nil =>
      cases hsend
      exact hcarries
  | cons request requests ih =>
      rw [List.foldlM_cons] at hsend
      obtain ⟨s₁, hone, hsend⟩ := bind_eq_ok.mp hsend
      refine ih ?_ hsend
      obtain ⟨_, _, hone⟩ := bind_eq_ok.mp hone
      obtain ⟨⟨rest, numPending, connections⟩, hfirst, hone⟩ := bind_eq_ok.mp hone
      obtain ⟨⟨rest', numPending', connections'⟩, hsecond, hone⟩ := bind_eq_ok.mp hone
      cases hone
      refine issueList_carries (issueList_carries ?_ hfirst) hsecond
      rw [scheduleCacheRequest]
      split <;> exact hcarries

theorem Accounted.update {ci ci' : CacheConnection} (h : Accounted loose s) (hci : s.connections[i]? = some (some ci))
    (hcur : ci'.pCurTrans = ci.pCurTrans) :
    Accounted loose { s with connections := s.connections.set i (some ci') } := by
  refine ⟨?_, h.first, h.second, ?_, h.numbered⟩
  · intro t
    have hconserved := h.conserved t
    have hset := inHand_set hci (some ci') t
    have hsame : slotTransaction (some ci') = slotTransaction (some ci) := by simp [slotTransaction, hcur]
    rw [hsame] at hset
    simp only [places, List.count_append] at hconserved ⊢
    omega
  · have hset := alive_set hci (some ci')
    show s.numCacheConns = alive (s.connections.set i (some ci'))
    rw [h.conns, Nat.add_right_cancel hset]

theorem Accounted.take {ci : CacheConnection} (h : Accounted [] s) (hci : s.connections[i]? = some (some ci))
    (slot : Option CacheConnection) (hslot : slotTransaction slot = []) (t : CacheTransactionInfo) :
    (s.firstClass ++ s.secondClass ++ inHand (s.connections.set i slot)).count t + s.processed.count t +
      (slotTransaction (some ci)).count t = s.created.count t := by
  have hconserved := h.conserved t
  have hset := inHand_set hci slot t
  rw [hslot] at hset
  simp only [places, List.count_append, List.count_nil] at hconserved hset ⊢
  omega

theorem withConnection_accounted {f : CacheConnection → Run CacheState} (h : Accounted [] s)
    (hf : ∀ ci, s.connections[i]? = some (some ci) → f ci = .ok s' → Accounted [] s')
    (hrun : withConnection s i f = .ok s') : Accounted [] s' := by
  rw [withConnection] at hrun
  split at hrun
  case h_1 ci hci => exact hf ci hci hrun
  case h_2 =>
      cases hrun
      exact h

theorem setCacheDead_accounted (h : Accounted [] s) (hdead : setCacheDead s i = .ok s') : Accounted [] s' := by
  refine withConnection_accounted h ?_ hdead
  intro ci hci hok
  cases hok
  exact h.update hci rfl

theorem adjustCacheBuffer_accounted {num_processed : Int} (h : Accounted [] s)
    (hadjust : adjustCacheBuffer s i num_processed = .ok s') : Accounted [] s' := by
  refine withConnection_accounted h ?_ hadjust
  intro ci hci hok
  obtain ⟨_, _, hok⟩ := bind_eq_ok.mp hok
  obtain ⟨_, _, hok⟩ := bind_eq_ok.mp hok
  cases hok
  exact h.update hci rfl

theorem finishCacheResponse_accounted {requests : List CacheRequest} (h : Accounted [] s)
    (hcarries : Carries s.connections i cci) (hfinish : finishCacheResponse s i cci requests = .ok s') :
    Accounted [] s' := by
  obtain ⟨s₁, hsend, hfinish⟩ := bind_eq_ok.mp hfinish
  have h₁ := sendCacheRequests_accounted h hsend
  obtain ⟨ci, hci, hcur⟩ := sendCacheRequests_carries hcarries hsend
  rw [withConnection, hci] at hfinish
  refine (issuePendingCacheRequests_accounted ?_ hfinish).1
  refine ⟨?_, h₁.first, h₁.second, ?_, h₁.numbered⟩
  · intro t
    have htake := h₁.take hci (some { ci with pCurTrans := none }) rfl t
    have hslot : slotTransaction (some ci) = [cci] := by simp [slotTransaction, hcur]
    rw [hslot] at htake
    simp only [places, List.count_append, List.count_nil] at htake ⊢
    omega
  · have hset := alive_set hci (some { ci with pCurTrans := none })
    show s₁.numCacheConns = alive (s₁.connections.set i (some { ci with pCurTrans := none }))
    rw [h₁.conns, Nat.add_right_cancel hset]

theorem processCacheResponse_accounted {ci : CacheConnection} {requests : List CacheRequest} {r : CacheState × Int}
    (h : Accounted [] s) (hci : s.connections[i]? = some (some ci))
    (hprocess : processCacheResponse s i ci requests = .ok r) : Accounted [] r.1 := by
  rw [processCacheResponse] at hprocess
  split at hprocess
  case h_1 => cases hprocess
  case h_2 cci hcur =>
      obtain ⟨reply, _, hprocess⟩ := bind_eq_ok.mp hprocess
      split at hprocess
      case h_1 =>
          cases hprocess
          exact h
      case h_2 =>
          cases hprocess
          exact h
      case h_3 =>
          obtain ⟨s₁, hfinish, hprocess⟩ := bind_eq_ok.mp hprocess
          cases hprocess
          exact finishCacheResponse_accounted h ⟨ci, hci, hcur⟩ hfinish

theorem processCacheBuffer_accounted {requests : List CacheRequest} (h : Accounted [] s)
    (hprocess : processCacheBuffer s i requests = .ok s') : Accounted [] s' := by
  refine withConnection_accounted h ?_ hprocess
  intro ci hci hok
  split at hok
  case isTrue =>
      cases hok
      exact h
  case isFalse =>
      obtain ⟨r, hresponse, hok⟩ := bind_eq_ok.mp hok
      have hr := processCacheResponse_accounted h hci hresponse
      split at hok
      case isTrue => exact setCacheDead_accounted hr hok
      case isFalse =>
          split at hok
          case isTrue =>
              cases hok
              exact hr
          case isFalse => exact adjustCacheBuffer_accounted hr hok

theorem closeCacheConnection_accounted {requests : List CacheRequest} (h : Accounted [] s)
    (hclose : closeCacheConnection s i requests = .ok s') : Accounted [] s' := by
  refine withConnection_accounted h ?_ hclose
  intro ci hci hok
  split at hok
  case isTrue =>
      cases hok
      exact h
  case isFalse =>
      split at hok
      case isTrue =>
          obtain ⟨r, hresponse, hok⟩ := bind_eq_ok.mp hok
          exact setCacheDead_accounted (processCacheResponse_accounted h hci hresponse) hok
      case isFalse => exact setCacheDead_accounted h hok

theorem cacheEventRead_accounted {input : Option Bytes} {requests : List CacheRequest} (h : Accounted [] s)
    (hread : cacheEventRead s i input requests = .ok s') : Accounted [] s' := by
  refine withConnection_accounted h ?_ hread
  intro ci hci hok
  cases input with
  | none =>
      refine setCacheDead_accounted ?_ hok
      exact h.update hci rfl
  | some data =>
      simp only at hok
      split at hok
      case isTrue => exact closeCacheConnection_accounted h hok
      case isFalse =>
          cases hok
          exact h.update hci rfl

theorem makeNewCacheConnection_accounted {memory : Nat → Byte} (h : Accounted [] s) :
    Accounted [] (makeNewCacheConnection s i memory) := by
  rw [makeNewCacheConnection]
  split
  case h_1 hslot =>
      refine ⟨?_, h.first, h.second, ?_, h.numbered⟩
      · intro t
        have hconserved := h.conserved t
        have hset := inHand_set hslot (some (createCacheConnectionInfo memory)) t
        have hnew : slotTransaction (some (createCacheConnectionInfo memory)) = [] := rfl
        have hold : slotTransaction none = [] := rfl
        rw [hnew, hold] at hset
        simp only [places, List.count_append] at hconserved ⊢
        omega
      · have hset := alive_set hslot (some (createCacheConnectionInfo memory))
        have hconns := h.conns
        simp only [Option.isSome_none, Option.isSome_some, Bool.toNat_false, Bool.toNat_true] at hset
        show s.numCacheConns + 1 = alive (s.connections.set i (some (createCacheConnectionInfo memory)))
        omega
  case h_2 => exact h

/-- A connection goes; what it carried is in a list again, or with another connection. -/
theorem destroyCacheConnectionInfo_accounted (h : Accounted [] s) (hdestroy : destroyCacheConnectionInfo s i = .ok s') :
    Accounted [] s' ∧ s'.processed = s.processed ∧ s'.created = s.created := by
  rw [destroyCacheConnectionInfo, withConnection] at hdestroy
  split at hdestroy
  case h_2 =>
      cases hdestroy
      exact ⟨h, rfl, rfl⟩
  case h_1 ci hci =>
      split at hdestroy
      case isFalse =>
          cases hdestroy
          exact ⟨h, rfl, rfl⟩
      case isTrue =>
          obtain ⟨_, _, hdestroy⟩ := bind_eq_ok.mp hdestroy
          have htake := h.take hci none rfl
          have hloose : Accounted (slotTransaction (some ci)) { s with
              connections := s.connections.set i none
              numCacheConns := s.numCacheConns - 1 } := by
            refine ⟨htake, h.first, h.second, ?_, h.numbered⟩
            have hset := alive_set hci none
            have hconns := h.conns
            simp only [Option.isSome_none, Option.isSome_some, Bool.toNat_false, Bool.toNat_true] at hset
            show s.numCacheConns - 1 = alive (s.connections.set i none)
            omega
          split at hdestroy
          case h_1 cache_tinfo hcur =>
              have hslot : slotTransaction (some ci) = [cache_tinfo] := by simp [slotTransaction, hcur]
              rw [hslot] at hloose
              obtain ⟨haccounted, hprocessed, hcreated⟩ :=
                issuePendingCacheRequests_accounted (scheduleCacheRequest_accounted hloose) hdestroy
              exact ⟨haccounted, hprocessed.trans scheduleCacheRequest_ghosts.1, hcreated.trans scheduleCacheRequest_ghosts.2⟩
          case h_2 hcur =>
              have hslot : slotTransaction (some ci) = [] := by simp [slotTransaction, hcur]
              rw [hslot] at hloose
              have haccounted := issuePendingCacheRequests_accounted hloose hdestroy
              exact haccounted

theorem cacheNext_accounted {e : CacheEvent} (h : Accounted [] s) (hnext : cacheNext s e = .ok s') : Accounted [] s' := by
  cases e with
  | send request => exact (sendCacheRequest_accounted h hnext).1
  | connect i memory =>
      cases hnext
      exact makeNewCacheConnection_accounted h
  | read i input requests => exact cacheEventRead_accounted h hnext
  | process i requests => exact processCacheBuffer_accounted h hnext
  | dead i => exact setCacheDead_accounted h hnext
  | destroy i => exact (destroyCacheConnectionInfo_accounted h hnext).1

theorem cacheRequestText_ok {request : CacheRequest} (hissuable : request.Issuable) :
    ∃ text, cacheRequestText request = .ok text := by
  unfold CacheRequest.Issuable at hissuable
  unfold cacheRequestText
  cases hmethod : request.method with
  | put =>
      rw [hmethod] at hissuable
      obtain ⟨pChunk, hchunk⟩ := Option.isSome_iff_exists.mp hissuable.2
      rw [hchunk]
      simp only [check_of hissuable.1, ok_bind]
      exact ⟨_, rfl⟩
  | get =>
      rw [hmethod] at hissuable
      rw [show request.pChunk = none from hissuable]
      exact ⟨_, rfl⟩
  | peek => exact ⟨_, rfl⟩

theorem issueList_ok {walks : List CacheTransactionInfo} {numPending : Int}
    (hissuable : ∀ t ∈ walks, t.request.Issuable) (hpending : (walks.length : Int) ≤ numPending) :
    ∃ r, issueList walks numPending connections = .ok r := by
  induction walks generalizing numPending connections with
  | nil => exact ⟨_, rfl⟩
  | cons walk walks ih =>
      rw [issueList]
      split
      case h_1 => exact ⟨_, rfl⟩
      case h_2 i hidle =>
          obtain ⟨ci, hci, hnone⟩ := getIdleCacheConn_some hidle
          obtain ⟨text, htext⟩ := cacheRequestText_ok (hissuable walk List.mem_cons_self)
          rw [List.length_cons] at hpending
          push_cast at hpending
          have hpositive : 0 ≤ numPending - 1 := by omega
          have hrest : (walks.length : Int) ≤ numPending - 1 := by omega
          simp only [issueCacheRequest, hci, check_of hnone, htext, ok_bind, pure_eq_ok, check_of hpositive]
          exact ih (fun t ht => hissuable t (List.mem_cons_of_mem walk ht)) hrest

theorem issuePendingCacheRequests_ok (hissuable : ∀ t ∈ s.firstClass ++ s.secondClass, t.request.Issuable)
    (hfirst : s.numPendingFirst = s.firstClass.length) (hsecond : s.numPendingSecond = s.secondClass.length) :
    ∃ s', issuePendingCacheRequests s = .ok s' := by
  have hissuable₁ : ∀ t ∈ s.firstClass, t.request.Issuable := fun t ht => hissuable t (List.mem_append_left _ ht)
  have hissuable₂ : ∀ t ∈ s.secondClass, t.request.Issuable := fun t ht => hissuable t (List.mem_append_right _ ht)
  obtain ⟨r, hr⟩ := @issueList_ok s.connections _ _ hissuable₁ (le_of_eq hfirst.symm)
  obtain ⟨r', hr'⟩ := @issueList_ok r.2.2 _ _ hissuable₂ (le_of_eq hsecond.symm)
  simp only [issuePendingCacheRequests, hr, hr', ok_bind]
  exact ⟨_, rfl⟩

theorem Accounted.created (h : Accounted [] s) (ht : t ∈ s.places) : t ∈ s.created := by
  have hconserved := h.conserved t
  have hpositive : 0 < s.places.count t := List.count_pos_iff.mpr ht
  apply List.count_pos_iff.mp
  omega

theorem destroyCacheConnectionInfo_ok (h : Accounted [] s) (hissuable : ∀ t ∈ s.created, t.request.Issuable) :
    ∃ s', destroyCacheConnectionInfo s i = .ok s' := by
  have hplaces : ∀ t ∈ s.places, t.request.Issuable := fun t ht => hissuable t (h.created ht)
  have hlists : ∀ t ∈ s.firstClass ++ s.secondClass, t.request.Issuable :=
    fun t ht => hplaces t (List.mem_append_left _ ht)
  rw [destroyCacheConnectionInfo, withConnection]
  split
  case h_2 => exact ⟨_, rfl⟩
  case h_1 ci hci =>
      split
      case isFalse => exact ⟨_, rfl⟩
      case isTrue =>
          have hset := alive_set hci none
          have hconns := h.conns
          simp only [Option.isSome_none, Option.isSome_some, Bool.toNat_false, Bool.toNat_true] at hset
          have hpositive : 0 ≤ s.numCacheConns - 1 := by omega
          simp only [check_of hpositive, ok_bind]
          split
          case h_2 => exact issuePendingCacheRequests_ok hlists h.first h.second
          case h_1 cache_tinfo hcur =>
              have hmem : cache_tinfo ∈ s.places := by
                apply List.mem_append_right
                apply List.mem_flatMap.mpr
                refine ⟨some ci, List.mem_of_getElem? hci, ?_⟩
                simp [slotTransaction, hcur]
              have hone := hplaces cache_tinfo hmem
              have hfirst := h.first
              have hsecond := h.second
              apply issuePendingCacheRequests_ok
              · intro t ht
                unfold scheduleCacheRequest at ht
                split at ht
                · simp only [List.mem_append, List.mem_singleton] at ht hlists
                  rcases ht with ht | ht | rfl
                  · exact hlists t (.inl ht)
                  · exact hlists t (.inr ht)
                  · exact hone
                · simp only [Bool.false_eq_true, if_false, List.mem_append, List.mem_cons] at ht hlists
                  rcases ht with (rfl | ht) | ht
                  · exact hone
                  · exact hlists t (.inl ht)
                  · exact hlists t (.inr ht)
              · unfold scheduleCacheRequest
                split <;> simp [hfirst]
              · unfold scheduleCacheRequest
                split <;> simp [hsecond]

theorem initDiskCache_accounted (maxCacheConns : Nat) : Accounted [] (initDiskCache maxCacheConns) where
  conserved := by
    intro t
    have hempty : inHand (List.replicate maxCacheConns none) = [] := by
      simp [inHand, slotTransaction, List.flatMap_eq_nil_iff]
    simp [places, initDiskCache, hempty]
  first := rfl
  second := rfl
  conns := by simp [initDiskCache, alive, List.countP_replicate]
  numbered := rfl

theorem cacheSystem_accounted (maxCacheConns : Nat) : (cacheSystem maxCacheConns).Invariant (Accounted []) where
  init := by
    rintro s rfl
    exact initDiskCache_accounted maxCacheConns
  step := fun _ _ _ h hstep => cacheNext_accounted h hstep

/-- A transaction that was created is in one place, or it is done. -/
theorem Accounted.place (h : Accounted [] s) (ht : t ∈ s.created) :
    s.places.count t + s.processed.count t = 1 := by
  have hconserved := h.conserved t
  have hnodup : s.created.Nodup := by
    apply List.Nodup.of_map (·.number)
    rw [h.numbered]
    exact List.nodup_range
  rw [List.count_nil, Nat.add_zero] at hconserved
  rw [hconserved, List.count_eq_one_of_mem hnodup ht]

end CacheState

/-- A put and a get with one connection: the connection dies with the get, a new one answers it with a miss and takes the
put. -/
def cacheSample : List CacheEvent :=
  [.connect 0 fun _ => 0, .send ⟨.get, [1], 5, none⟩, .send ⟨.put, [2], 1, some [7]⟩, .dead 0, .destroy 0,
    .connect 0 fun _ => 0, .send ⟨.get, [3], 4, none⟩,
    .read 0 (some [72, 84, 84, 80, 47, 49, 46, 48, 32, 52, 48, 48, 10]) [], .process 0 []]

end BeagleCache

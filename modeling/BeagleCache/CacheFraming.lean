import BeagleCache.CacheReplies

/-! The replies of the disk cache on their way to the transactions. Each connection has one transaction at a time; the reply to
it comes in as many reads as it takes, into a buffer that still holds the bytes of earlier replies. -/

namespace BeagleCache

open Transition Run

instance (a : CacheAnswer) (request : CacheRequest) : Decidable (a.Answers request) :=
  match a with
  | ⟨_, _, .stored⟩ => inferInstanceAs (Decidable (request.method = .put))
  | ⟨_, _, .found body⟩ => inferInstanceAs (Decidable (request.method = .get ∧ request.length = body.length))
  | ⟨_, _, .notFound⟩ => inferInstanceAs (Decidable (request.method = .get ∨ request.method = .peek))

/-- The other end of a connection: the reply to its transaction, the bytes that were not read yet, what the disk cache answered to
which transaction so far, and what the handlers were told. -/
structure CacheWire where
  answer : Option CacheAnswer
  inFlight : Bytes
  answered : List (CacheTransactionInfo × CacheReply)
  completed : List (CacheTransactionInfo × CacheReply)

/-- The disk cache with the other ends of its connections. -/
structure ReplyState where
  cache : CacheState
  wires : Nat → CacheWire

def replyInit (maxCacheConns : Nat) : ReplyState := ⟨initDiskCache maxCacheConns, fun _ => ⟨none, [], [], []⟩⟩

/-- What happens: a request is made, a connection is opened, the disk cache answers, a part of an answer is read, and the event
loop processes what was read, with the requests the handler makes. -/
inductive ReplyEvent
  | send (request : CacheRequest)
  | connect (i : Nat) (memory : Nat → Byte)
  | answer (i : Nat) (answer : CacheAnswer)
  | read (i : Nat) (numRead : Nat)
  | process (i : Nat) (requests : List CacheRequest)

/-- A reply comes after what is still in flight. -/
def CacheWire.reply (w : CacheWire) (cci : CacheTransactionInfo) (answer : CacheAnswer) : CacheWire where
  answer := some answer
  inFlight := w.inFlight ++ answer.text
  answered := w.answered ++ [(cci, answer.reply)]
  completed := w.completed

/-- What `ProcessCacheResponse` makes of the buffer. -/
def CacheWire.handled (w : CacheWire) (cci : CacheTransactionInfo) : CacheReply → CacheWire
  | .more => w
  | .giveUp => w
  | reply => { w with answer := none, completed := w.completed ++ [(cci, reply)] }

def ReplyState.setWire (s : ReplyState) (i : Nat) (w : CacheWire) : ReplyState := { s with wires := Function.update s.wires i w }

def replyNext (s : ReplyState) : ReplyEvent → Run ReplyState
  | .send request => do
      let cache ← sendCacheRequest s.cache request
      return { s with cache := cache }
  | .connect i memory => .ok { s with cache := makeNewCacheConnection s.cache i memory }
  | .answer i answer =>
      match s.cache.connections[i]? with
      | some (some ci) =>
          match ci.pCurTrans, (s.wires i).answer with
          | some cci, none => .ok (if answer.Answers cci.request then s.setWire i ((s.wires i).reply cci answer) else s)
          | _, _ => .ok s
      | _ => .ok s
  | .read i numRead =>
      match s.cache.connections[i]? with
      | some (some ci) =>
          let data := (s.wires i).inFlight.take numRead
          if data = [] then .ok s
          else do
            check (ci.lenRead < recvBufsize)
            let cache ← cacheEventRead s.cache i (some data) []
            let numRead := (data.take (recvBufsize - ci.lenRead.toNat)).length
            return { s with cache := cache }.setWire i { s.wires i with inFlight := (s.wires i).inFlight.drop numRead }
      | _ => .ok s
  | .process i requests =>
      match s.cache.connections[i]? with
      | some (some ci) =>
          if ci.lenRead ≤ 0 then .ok s
          else match ci.pCurTrans with
          | none => .error .assertion
          | some cci => do
              let reply ← parseCacheResponse ci.bufRead ci.lenRead cci.request
              let cache ← processCacheBuffer s.cache i requests
              return { s with cache := cache }.setWire i ((s.wires i).handled cci reply)
      | _ => .ok s

def replySystem (maxCacheConns : Nat) : System ReplyState ReplyEvent := .ofNext (· = replyInit maxCacheConns) replyNext

/-- The lines of the reply were read, or nothing that was left behind the bytes that were read passes for a newline. -/
def LinesRead (slot : Option (Option CacheConnection)) (answer : Option CacheAnswer) : Prop :=
  match slot, answer with
  | some (some ci), some a => (a.header.length : Int) ≤ ci.lenRead ∨ StaleEnds ci.bufRead ci.lenRead.toNat
  | _, _ => True

/-- A reply fits in the read buffer, and a buffer is processed only when the lines of its reply are not looked for in bytes of
earlier replies. -/
def WholeLines (s : ReplyState) : ReplyEvent → Prop
  | .answer _ answer => answer.text.length ≤ recvBufsize
  | .process i _ => LinesRead s.cache.connections[i]? (s.wires i).answer
  | _ => True

/-! ## Requests that are issued -/

/-- A connection is as it was, or it was idle and has a transaction now. -/
def Assigned (slot slot' : Option (Option CacheConnection)) : Prop :=
  slot' = slot ∨ ∃ ci cci sent, slot = some (some ci) ∧ ci.pCurTrans = none ∧
    slot' = some (some { ci with pCurTrans := some cci, sent := sent })

theorem Assigned.trans {slot slot' slot'' : Option (Option CacheConnection)} (h : Assigned slot slot')
    (h' : Assigned slot' slot'') : Assigned slot slot'' := by
  rcases h with rfl | ⟨ci, cci, sent, hslot, hidle, rfl⟩
  · exact h'
  · rcases h' with rfl | ⟨ci', cci', sent', hslot', hidle', rfl⟩
    · exact .inr ⟨ci, cci, sent, hslot, hidle, rfl⟩
    · cases hslot'
      cases hidle'

theorem Assigned.busy {slot' : Option (Option CacheConnection)} {ci : CacheConnection} {cci : CacheTransactionInfo}
    (h : Assigned (some (some ci)) slot') (hbusy : ci.pCurTrans = some cci) : slot' = some (some ci) := by
  rcases h with rfl | ⟨ci', cci', sent, hslot, hidle, rfl⟩
  · rfl
  · cases hslot
    rw [hbusy] at hidle
    cases hidle

section Issue

variable {s s' : CacheState} {connections connections' : List (Option CacheConnection)} {i j : Nat}

theorem issueCacheRequest_assigned {cci : CacheTransactionInfo} (h : issueCacheRequest connections i cci = .ok connections') :
    Assigned connections[j]? connections'[j]? := by
  rw [issueCacheRequest] at h
  split at h
  · rename_i ci hslot
    obtain ⟨_, hidle, h⟩ := bind_eq_ok.mp h
    obtain ⟨request, _, hret⟩ := bind_eq_ok.mp h
    cases hret
    by_cases hij : i = j
    · subst hij
      have hi : i < connections.length := (List.getElem?_eq_some_iff.mp hslot).1
      right
      exact ⟨ci, cci, ci.sent ++ [request], hslot, check_eq_ok.mp hidle, List.getElem?_set_self hi⟩
    · left
      exact List.getElem?_set_ne hij
  · cases h

theorem issueList_assigned {walks rest : List CacheTransactionInfo} {numPending numPending' : Int}
    (h : issueList walks numPending connections = .ok (rest, numPending', connections')) :
    Assigned connections[j]? connections'[j]? := by
  induction walks generalizing numPending connections with
  | nil =>
      cases h
      exact .inl rfl
  | cons walk walks ih =>
      rw [issueList] at h
      split at h
      · cases h
        exact .inl rfl
      · obtain ⟨connections₁, hissue, h⟩ := bind_eq_ok.mp h
        obtain ⟨_, _, h⟩ := bind_eq_ok.mp h
        exact (issueCacheRequest_assigned hissue).trans (ih h)

theorem issuePendingCacheRequests_assigned (h : issuePendingCacheRequests s = .ok s') :
    Assigned s.connections[j]? s'.connections[j]? := by
  obtain ⟨first, hfirst, h⟩ := bind_eq_ok.mp h
  obtain ⟨second, hsecond, hret⟩ := bind_eq_ok.mp h
  cases hret
  exact (issueList_assigned hfirst).trans (issueList_assigned hsecond)

theorem sendCacheRequest_assigned {request : CacheRequest} (h : sendCacheRequest s request = .ok s') :
    Assigned s.connections[j]? s'.connections[j]? := by
  obtain ⟨_, _, h⟩ := bind_eq_ok.mp h
  have hissue := issuePendingCacheRequests_assigned (j := j) h
  rw [scheduleCacheRequest] at hissue
  split at hissue
  · exact hissue
  · exact hissue

theorem sendCacheRequests_assigned {requests : List CacheRequest} (h : requests.foldlM sendCacheRequest s = .ok s') :
    Assigned s.connections[j]? s'.connections[j]? := by
  induction requests generalizing s with
  | nil =>
      cases h
      exact .inl rfl
  | cons request requests ih =>
      rw [List.foldlM_cons] at h
      obtain ⟨s₁, hsend, h⟩ := bind_eq_ok.mp h
      exact (sendCacheRequest_assigned hsend).trans (ih h)

/-- The connection whose response was processed is idle until it gets the next transaction. -/
theorem finishCacheResponse_assigned {ci : CacheConnection} {cci cur : CacheTransactionInfo} {requests : List CacheRequest}
    (hslot : s.connections[i]? = some (some ci)) (hbusy : ci.pCurTrans = some cur)
    (h : finishCacheResponse s i cci requests = .ok s') :
    Assigned (some (some { ci with pCurTrans := none })) s'.connections[i]? ∧
    ∀ j, j ≠ i → Assigned s.connections[j]? s'.connections[j]? := by
  obtain ⟨s₁, hrequests, h⟩ := bind_eq_ok.mp h
  have hslot₁ : s₁.connections[i]? = some (some ci) := by
    have hassigned := sendCacheRequests_assigned (j := i) hrequests
    rw [hslot] at hassigned
    exact hassigned.busy hbusy
  have hi : i < s₁.connections.length := (List.getElem?_eq_some_iff.mp hslot₁).1
  rw [withConnection, hslot₁] at h
  constructor
  · have hissue := issuePendingCacheRequests_assigned (j := i) h
    rwa [List.getElem?_set_self hi] at hissue
  · intro j hj
    have hissue := issuePendingCacheRequests_assigned (j := j) h
    rw [List.getElem?_set_ne (Ne.symm hj)] at hissue
    exact (sendCacheRequests_assigned hrequests).trans hissue

theorem adjustCacheBuffer_slots {ci : CacheConnection} {num_processed : Int} (hslot : s.connections[i]? = some (some ci))
    (h : adjustCacheBuffer s i num_processed = .ok s') :
    (∃ bufRead, s'.connections[i]? = some (some { ci with bufRead := bufRead, lenRead := ci.lenRead - num_processed })) ∧
    ∀ j, j ≠ i → s'.connections[j]? = s.connections[j]? := by
  have hi : i < s.connections.length := (List.getElem?_eq_some_iff.mp hslot).1
  rw [adjustCacheBuffer, withConnection, hslot] at h
  obtain ⟨_, _, h⟩ := bind_eq_ok.mp h
  obtain ⟨_, _, hret⟩ := bind_eq_ok.mp h
  cases hret
  constructor
  · exact ⟨_, List.getElem?_set_self hi⟩
  · intro j hj
    exact List.getElem?_set_ne (Ne.symm hj)

end Issue

/-! ## Between a transaction and its reply -/

/-- Nothing is on the way. -/
structure CacheWire.Idle (w : CacheWire) : Prop where
  answer : w.answer = none
  inFlight : w.inFlight = []
  answered : w.answered = w.completed

/-- A part of the reply `a` to the transaction was read, the rest is on the way. -/
structure CacheWire.Busy (w : CacheWire) (ci : CacheConnection) (cci : CacheTransactionInfo) (a : CacheAnswer) (n : Nat) : Prop where
  pCurTrans : ci.pCurTrans = some cci
  answer : w.answer = some a
  answers : a.Answers cci.request
  fits : a.text.length ≤ recvBufsize
  lenRead : ci.lenRead = n
  le : n ≤ a.text.length
  holds : Shows ci.bufRead n a.text
  inFlight : w.inFlight = a.text.drop n
  answered : w.answered = w.completed ++ [(cci, a.reply)]

theorem Shows.append {buffer : Nat → Byte} {n : Nat} {text data : Bytes} (h : Shows buffer n text) (hdata : data <+: text.drop n) :
    Shows (fun k => if k < n then buffer k else data.getD (k - n) (buffer k)) (n + data.length) text := by
  intro k hk
  by_cases hlt : k < n
  · simp only [if_pos hlt]
    exact h k hlt
  · have hin : k - n < data.length := by omega
    have hsame := hdata.getElem hin
    rw [List.getElem_drop] at hsame
    simp only [if_neg hlt, List.getD_eq_getElem _ _ hin, hsame]
    have hk' : n + (k - n) = k := by omega
    simp only [hk']
    exact List.getElem?_eq_getElem _

/-- The handlers are told of a reply once it is complete. -/
theorem CacheWire.handled_reply (w : CacheWire) (cci : CacheTransactionInfo) (a : CacheAnswer) :
    w.handled cci a.reply = { w with answer := none, completed := w.completed ++ [(cci, a.reply)] } := by
  rw [CacheAnswer.reply]
  cases a.result <;> rfl

namespace CacheWire.Busy

variable {w : CacheWire} {ci : CacheConnection} {cci : CacheTransactionInfo} {a : CacheAnswer} {n i : Nat} {s : CacheState}
  {requests : List CacheRequest}

theorem inFlight_eq_nil (h : w.Busy ci cci a n) : w.inFlight = [] ↔ n = a.text.length := by
  have hle := h.le
  rw [h.inFlight, List.drop_eq_nil_iff]
  omega

/-- What was read and what is on the way are the reply. -/
theorem read (h : w.Busy ci cci a n) : (List.range ci.lenRead.toNat).map ci.bufRead ++ w.inFlight = a.text := by
  have hread : (List.range n).map ci.bufRead = a.text.take n := by
    apply List.ext_getElem?
    intro k
    by_cases hk : k < n
    · rw [List.getElem?_take_of_lt hk, h.holds k hk, List.getElem?_map, List.getElem?_range hk]
      rfl
    · rw [List.getElem?_eq_none (by simp; omega), List.getElem?_eq_none (by simp; omega)]
  rw [h.lenRead, Int.toNat_natCast, hread, h.inFlight, List.take_append_drop]

/-- The reply is told once all of it was read, and not before. -/
theorem parse (h : w.Busy ci cci a n) (hpos : 0 < ci.lenRead) (hlines : LinesRead (some (some ci)) w.answer) :
    parseCacheResponse ci.bufRead ci.lenRead cci.request = .ok (if w.inFlight = [] then a.reply else .more) := by
  have hle := h.le
  rw [h.answer] at hlines
  simp only [LinesRead, h.lenRead, Int.toNat_natCast] at hpos hlines ⊢
  by_cases hread : a.header.length ≤ n
  · rw [parse_read h.answers h.holds hread hle h.fits]
    by_cases hall : n = a.text.length
    · rw [if_pos (h.inFlight_eq_nil.mpr hall), if_neg (by omega)]
    · rw [if_neg (mt h.inFlight_eq_nil.mp hall), if_pos (by omega)]
  · have hstale : StaleEnds ci.bufRead n := hlines.resolve_left (by omega)
    have hshort : ¬ n = a.text.length := by
      rw [CacheAnswer.text, List.length_append]
      omega
    rw [parse_unread h.answers h.holds (by omega) (by omega) (hle.trans h.fits) hstale,
      if_neg (mt h.inFlight_eq_nil.mp hshort)]

/-- No assertion of `ProcessCacheResponse` fails, and it consumes nothing before the reply is complete, then all of it. -/
theorem process (h : w.Busy ci cci a n) (hpos : 0 < ci.lenRead) (hlines : LinesRead (some (some ci)) w.answer) :
    processCacheResponse s i ci requests =
      if w.inFlight = [] then do
        let s ← finishCacheResponse s i cci requests
        return (s, (a.text.length : Int))
      else .ok (s, 0) := by
  simp only [processCacheResponse, h.pCurTrans, h.parse hpos hlines, ok_bind]
  by_cases hall : w.inFlight = []
  · have hlen : ci.lenRead = a.text.length := by rw [h.lenRead, h.inFlight_eq_nil.mp hall]
    rw [if_pos hall, if_pos hall, hlen, CacheAnswer.reply]
    cases a.result <;> rfl
  · rw [if_neg hall, if_neg hall]
    rfl

end CacheWire.Busy

/-- What is on the way to a slot. -/
inductive SlotInv : Option (Option CacheConnection) → CacheWire → Prop
  | closed {w : CacheWire} : w.Idle → SlotInv none w
  | empty {w : CacheWire} : w.Idle → SlotInv (some none) w
  | idle {ci : CacheConnection} {w : CacheWire} : w.Idle → ci.lenRead = 0 → SlotInv (some (some ci)) w
  | busy {ci : CacheConnection} {w : CacheWire} {cci : CacheTransactionInfo} {a : CacheAnswer} {n : Nat} :
      w.Busy ci cci a n → SlotInv (some (some ci)) w

theorem SlotInv.assigned {slot slot' : Option (Option CacheConnection)} {w : CacheWire} (h : SlotInv slot w)
    (hassigned : Assigned slot slot') : SlotInv slot' w := by
  rcases hassigned with rfl | ⟨ci, cci, sent, rfl, hidle, rfl⟩
  · exact h
  · cases h with
    | idle hw hlen => exact .idle hw hlen
    | busy hw =>
        have hbusy := hw.pCurTrans
        rw [hidle] at hbusy
        cases hbusy

/-- What is on the way to all connections. -/
def ReplyInv (s : ReplyState) : Prop := ∀ i, SlotInv s.cache.connections[i]? (s.wires i)

namespace ReplyInv

variable {s s' : ReplyState} {cache : CacheState} {i n : Nat} {w : CacheWire} {ci : CacheConnection} {cci : CacheTransactionInfo}
  {a : CacheAnswer}

theorem init (maxCacheConns : Nat) : ReplyInv (replyInit maxCacheConns) := by
  intro i
  have hidle : CacheWire.Idle ⟨none, [], [], []⟩ := ⟨rfl, rfl, rfl⟩
  simp only [replyInit, initDiskCache, List.getElem?_replicate]
  split
  · exact .empty hidle
  · exact .closed hidle

theorem setWire (h : ReplyInv s) (hi : SlotInv cache.connections[i]? w)
    (hothers : ∀ j, j ≠ i → Assigned s.cache.connections[j]? cache.connections[j]?) :
    ReplyInv ({ s with cache := cache }.setWire i w) := by
  intro j
  by_cases hj : j = i
  · subst hj
    simpa [ReplyState.setWire] using hi
  · simp only [ReplyState.setWire, Function.update_of_ne hj]
    exact (h j).assigned (hothers j hj)

theorem connect (h : ReplyInv s) (memory : Nat → Byte) :
    ReplyInv { s with cache := makeNewCacheConnection s.cache i memory } := by
  intro j
  rw [makeNewCacheConnection]
  split
  · rename_i hslot
    by_cases hj : j = i
    · subst hj
      have hlen : j < s.cache.connections.length := (List.getElem?_eq_some_iff.mp hslot).1
      have hempty := h j
      rw [hslot] at hempty
      cases hempty with
      | empty hidle =>
          simp only [List.getElem?_set_self hlen]
          exact .idle hidle rfl
    · simp only [List.getElem?_set_ne (Ne.symm hj)]
      exact h j
  · exact h j

theorem answer (h : ReplyInv s) (hslot : s.cache.connections[i]? = some (some ci)) (hcur : ci.pCurTrans = some cci)
    (hnone : (s.wires i).answer = none) (hanswers : a.Answers cci.request) (hfits : a.text.length ≤ recvBufsize) :
    ReplyInv (s.setWire i ((s.wires i).reply cci a)) := by
  apply h.setWire
  · have hi := h i
    rw [hslot] at hi ⊢
    cases hi with
    | idle hidle hlen =>
        refine @SlotInv.busy ci _ cci a 0 ⟨hcur, rfl, hanswers, hfits, by simpa using hlen, Nat.zero_le _, ?_, ?_, ?_⟩
        · exact fun k hk => absurd hk (Nat.not_lt_zero k)
        · rw [CacheWire.reply, hidle.inFlight, List.drop_zero, List.nil_append]
        · rw [CacheWire.reply, hidle.answered]
    | busy hbusy =>
        have hanswer := hbusy.answer
        rw [hnone] at hanswer
        cases hanswer
  · exact fun j _ => .inl rfl

theorem cacheEventRead_slots (hslot : s.cache.connections[i]? = some (some ci)) {data : Bytes}
    (hdata : data ≠ []) (hroom : data.length ≤ recvBufsize - ci.lenRead.toNat) :
    cacheEventRead s.cache i (some data) [] = .ok { s.cache with
      connections := s.cache.connections.set i (some { ci with
        bufRead := fun k => if k < ci.lenRead.toNat then ci.bufRead k else data.getD (k - ci.lenRead.toNat) (ci.bufRead k)
        lenRead := ci.lenRead + data.length }) } := by
  rw [cacheEventRead, withConnection, hslot]
  simp only [List.take_of_length_le hroom, if_neg hdata]
  rfl

theorem read (h : ReplyInv s) {numRead : Nat} (hnext : replyNext s (.read i numRead) = .ok s') : ReplyInv s' := by
  simp only [replyNext] at hnext
  split at hnext
  · rename_i ci hslot
    split at hnext
    · cases hnext
      exact h
    · rename_i hdata
      have hi := h i
      have hlen : i < s.cache.connections.length := (List.getElem?_eq_some_iff.mp hslot).1
      rw [hslot] at hi
      cases hi with
      | idle hidle _ =>
          rw [hidle.inFlight, List.take_nil] at hdata
          exact absurd rfl hdata
      | @busy _ _ cci a n hbusy =>
          have hnat : ci.lenRead.toNat = n := by rw [hbusy.lenRead, Int.toNat_natCast]
          have hrest : (s.wires i).inFlight.length = a.text.length - n := by rw [hbusy.inFlight, List.length_drop]
          have hfits := hbusy.fits
          have hroom : ((s.wires i).inFlight.take numRead).length ≤ recvBufsize - ci.lenRead.toNat := by
            rw [hnat, List.length_take]
            omega
          obtain ⟨_, _, hnext⟩ := bind_eq_ok.mp hnext
          rw [cacheEventRead_slots hslot hdata hroom, ok_bind, List.take_of_length_le hroom] at hnext
          cases hnext
          apply h.setWire
          · rw [List.getElem?_set_self hlen]
            have hprefix : (s.wires i).inFlight.take numRead <+: a.text.drop n := by
              rw [hbusy.inFlight]
              exact List.take_prefix _ _
            refine @SlotInv.busy _ _ cci a (n + ((s.wires i).inFlight.take numRead).length)
              ⟨hbusy.pCurTrans, hbusy.answer, hbusy.answers, hfits, ?_, ?_, ?_, ?_, hbusy.answered⟩
            · rw [hbusy.lenRead, Nat.cast_add]
            · have hle := hbusy.le
              have hshort := hprefix.length_le
              rw [List.length_drop] at hshort
              omega
            · rw [hnat]
              exact hbusy.holds.append hprefix
            · rw [hbusy.inFlight, List.drop_drop]
          · intro j hj
            exact .inl (List.getElem?_set_ne (Ne.symm hj))
  · cases hnext
    exact h

theorem process (h : ReplyInv s) {requests : List CacheRequest} (hlines : WholeLines s (.process i requests))
    (hnext : replyNext s (.process i requests) = .ok s') : ReplyInv s' := by
  simp only [replyNext] at hnext
  split at hnext
  · rename_i ci hslot
    split at hnext
    · cases hnext
      exact h
    · rename_i hlen
      have hpos : 0 < ci.lenRead := by omega
      have hi := h i
      rw [hslot] at hi
      cases hi with
      | idle _ hzero => omega
      | @busy _ _ cci a n hbusy =>
          have hread : LinesRead (some (some ci)) (s.wires i).answer := hslot ▸ hlines
          simp only [hbusy.pCurTrans, hbusy.parse hpos hread, ok_bind] at hnext
          obtain ⟨cache, hprocess, hret⟩ := bind_eq_ok.mp hnext
          cases hret
          simp only [processCacheBuffer, withConnection, hslot, if_neg hlen, hbusy.process hpos hread] at hprocess
          by_cases hall : (s.wires i).inFlight = []
          · simp only [if_pos hall] at hprocess ⊢
            obtain ⟨r, hresponse, hprocess⟩ := bind_eq_ok.mp hprocess
            obtain ⟨cache₁, hfinish, hret⟩ := bind_eq_ok.mp hresponse
            cases hret
            have hwhole : ci.lenRead = a.text.length := by rw [hbusy.lenRead, hbusy.inFlight_eq_nil.mp hall]
            rw [← hwhole, if_neg (by omega), if_neg (by omega)] at hprocess
            obtain ⟨hnow, hothers⟩ := finishCacheResponse_assigned hslot hbusy.pCurTrans hfinish
            obtain ⟨ci₁, hslot₁, hlen₁⟩ : ∃ ci₁, cache₁.connections[i]? = some (some ci₁) ∧ ci₁.lenRead = ci.lenRead := by
              rcases hnow with hsame | ⟨_, cci', sent, hidle, _, hnew⟩
              · exact ⟨_, hsame, rfl⟩
              · cases hidle
                exact ⟨_, hnew, rfl⟩
            obtain ⟨⟨bufRead, hslot'⟩, hothers'⟩ := adjustCacheBuffer_slots hslot₁ hprocess
            rw [CacheWire.handled_reply]
            apply h.setWire
            · rw [hslot']
              refine .idle ⟨rfl, hall, ?_⟩ ?_
              · exact hbusy.answered
              · exact sub_eq_zero.mpr hlen₁
            · intro j hj
              rw [hothers' j hj]
              exact hothers j hj
          · simp only [if_neg hall, ok_bind] at hprocess ⊢
            cases hprocess
            apply h.setWire
            · rw [hslot]
              exact .busy hbusy
            · exact fun j _ => .inl rfl
  · cases hnext
    exact h

theorem next (h : ReplyInv s) {event : ReplyEvent} (hlines : WholeLines s event) (hnext : replyNext s event = .ok s') :
    ReplyInv s' := by
  cases event with
  | send request =>
      obtain ⟨cache, hsend, hret⟩ := bind_eq_ok.mp hnext
      cases hret
      exact fun i => (h i).assigned (sendCacheRequest_assigned hsend)
  | connect i memory =>
      cases hnext
      exact h.connect memory
  | answer i a =>
      simp only [replyNext] at hnext
      split at hnext
      · rename_i ci hslot
        split at hnext
        · rename_i cci hcur hnone
          cases hnext
          split
          · rename_i hanswers
            exact h.answer hslot hcur hnone hanswers hlines
          · exact h
        · cases hnext
          exact h
      · cases hnext
        exact h
  | read i numRead => exact h.read hnext
  | process i requests => exact h.process hlines hnext

end ReplyInv

/-- The reply to the transaction of a connection, if the disk cache answered. -/
def currentReply (slot : Option (Option CacheConnection)) (w : CacheWire) : List (CacheTransactionInfo × CacheReply) :=
  match slot with
  | some (some ci) => (ci.pCurTrans.bind fun cci => w.answer.map fun a => (cci, a.reply)).toList
  | _ => []

theorem SlotInv.answered {slot : Option (Option CacheConnection)} {w : CacheWire} (h : SlotInv slot w) :
    w.answered = w.completed ++ currentReply slot w := by
  have hnone : w.Idle → w.answered = w.completed ++ [] := fun hidle => by rw [hidle.answered, List.append_nil]
  cases h with
  | closed hidle => exact hnone hidle
  | empty hidle => exact hnone hidle
  | @idle ci _ hidle _ =>
      rw [currentReply, hidle.answer]
      cases ci.pCurTrans with
      | none => exact hnone hidle
      | some cci => exact hnone hidle
  | busy hbusy =>
      rw [currentReply, hbusy.pCurTrans, hbusy.answer]
      exact hbusy.answered

/-- What `ProcessReadBuffer` finds on a connection whose buffer is not empty: it is some of the reply to the transaction. Nothing
is consumed or told while a part of the reply is on the way, then the whole reply. -/
structure Framed (s : ReplyState) (i : Nat) (ci : CacheConnection) (requests : List CacheRequest) (cci : CacheTransactionInfo)
    (a : CacheAnswer) : Prop where
  transaction : ci.pCurTrans = some cci
  answer : (s.wires i).answer = some a
  read : (List.range ci.lenRead.toNat).map ci.bufRead ++ (s.wires i).inFlight = a.text
  told : parseCacheResponse ci.bufRead ci.lenRead cci.request = .ok (if (s.wires i).inFlight = [] then a.reply else .more)
  returned : processCacheResponse s.cache i ci requests =
    if (s.wires i).inFlight = [] then do
      let cache ← finishCacheResponse s.cache i cci requests
      return (cache, (a.text.length : Int))
    else .ok (s.cache, 0)

/-- In every run in which the replies fit in the buffer and no buffer is processed while a newline of an earlier reply stands for
one that was not read, the handlers are told of every reply once and of nothing else. -/
theorem cache_replies_framed {maxCacheConns : Nat} {events : List ReplyEvent} {s : ReplyState}
    (hrun : ((replySystem maxCacheConns).restrict WholeLines).Runs events s) :
    (∀ i, (s.wires i).answered = (s.wires i).completed ++ currentReply s.cache.connections[i]? (s.wires i)) ∧
    ∀ i ci requests, s.cache.connections[i]? = some (some ci) → 0 < ci.lenRead → WholeLines s (.process i requests) →
      ∃ cci a, Framed s i ci requests cci a := by
  have hinv : ((replySystem maxCacheConns).restrict WholeLines).Invariant ReplyInv := by
    constructor
    · rintro s rfl
      exact ReplyInv.init maxCacheConns
    · exact fun s event s' h hstep => h.next hstep.1 hstep.2
  have h := hinv.holds hrun
  constructor
  · intro i
    exact (h i).answered
  · intro i ci requests hslot hpos hlines
    have hi := h i
    rw [hslot] at hi
    cases hi with
    | idle _ hzero => omega
    | @busy _ _ cci a n hbusy =>
        have hread : LinesRead (some (some ci)) (s.wires i).answer := hslot ▸ hlines
        exact ⟨cci, a, hbusy.pCurTrans, hbusy.answer, hbusy.read, hbusy.parse hpos hread, hbusy.process hpos hread⟩

/-! ## Runs -/

/-- What `strchr` returns behind the bytes that were read. -/
theorem staleEnds_iff {buffer : Nat → Byte} {n : Nat} :
    StaleEnds buffer n ↔ (strchr buffer 10 (recvBufsize - n) n).toOption = some none := by
  have hends : ∀ fuel pos, (strchr buffer 10 fuel pos).toOption = some none →
      ∃ p, pos ≤ p ∧ p < pos + fuel ∧ buffer p = 0 ∧ ∀ k, pos ≤ k → k < p → buffer k ≠ 10 := by
    intro fuel
    induction fuel with
    | zero =>
        intro pos hnone
        cases hnone
    | succ fuel ih =>
        intro pos hnone
        rw [strchr] at hnone
        split at hnone
        · cases hnone
        · rename_i hnewline
          split at hnone
          · rename_i hzero
            exact ⟨pos, le_rfl, by omega, hzero, fun k hk hkp => by omega⟩
          · obtain ⟨p, hle, hp, hzero, hno⟩ := ih (pos + 1) hnone
            refine ⟨p, by omega, by omega, hzero, ?_⟩
            intro k hk hkp
            rcases Nat.eq_or_lt_of_le hk with rfl | hlt
            · exact hnewline
            · exact hno k hlt hkp
  constructor
  · rintro ⟨p, hle, hp, hzero, hno⟩
    rw [strchr_missing (by decide) hzero hle (by omega) hno]
    rfl
  · intro hnone
    obtain ⟨p, hle, hp, hzero, hno⟩ := hends _ _ hnone
    exact ⟨p, hle, by omega, hzero, hno⟩

instance (buffer : Nat → Byte) (n : Nat) : Decidable (StaleEnds buffer n) := decidable_of_iff _ staleEnds_iff.symm

instance (slot : Option (Option CacheConnection)) (answer : Option CacheAnswer) : Decidable (LinesRead slot answer) :=
  match slot, answer with
  | some (some ci), some a => inferInstanceAs (Decidable ((a.header.length : Int) ≤ ci.lenRead ∨ StaleEnds ci.bufRead ci.lenRead.toNat))
  | none, _ => .isTrue trivial
  | some none, _ => .isTrue trivial
  | some (some _), none => .isTrue trivial

instance (s : ReplyState) (event : ReplyEvent) : Decidable (WholeLines s event) :=
  match event with
  | .answer _ a => inferInstanceAs (Decidable (a.text.length ≤ recvBufsize))
  | .process i _ => inferInstanceAs (Decidable (LinesRead s.cache.connections[i]? (s.wires i).answer))
  | .send _ => .isTrue trivial
  | .connect _ _ => .isTrue trivial
  | .read _ _ => .isTrue trivial

/-- A chunk is put, and another one is asked for; the first bytes of the reply to the second request are read. -/
def putThenGet : List ReplyEvent :=
  [.connect 0 fun _ => 0, .send ⟨.put, [1], 2, some [7, 8]⟩, .answer 0 ⟨1, 1, .stored⟩, .read 0 17, .process 0 [],
    .send ⟨.get, [2], 3, none⟩, .answer 0 ⟨1, 1, .found [65, 66, 67]⟩]

/-- The reply to the get request is read in two parts. -/
def inTwoParts : List ReplyEvent := [.read 0 40, .process 0 [], .read 0 40, .process 0 []]

theorem cache_replies_framed_sample :
    ∃ s, ((replySystem 1).restrict WholeLines).Runs (putThenGet ++ inTwoParts) s ∧
      ((s.wires 0).completed.length = 2 ∧ (s.wires 0).inFlight = []) ∧
      ∀ i, (s.wires i).answered = (s.wires i).completed ++ currentReply s.cache.connections[i]? (s.wires i) := by
  obtain ⟨s, hfold, hresult⟩ := @Run.exists_of_map _ _
    ((putThenGet ++ inTwoParts).foldlM (System.guarded WholeLines replyNext .exit) (replyInit 1))
    (fun s => ((s.wires 0).completed.length, (s.wires 0).inFlight)) (2, []) (by decide)
  have hstart : ((replySystem 1).restrict WholeLines).Runs [] (replyInit 1) := .start rfl
  have hrun := System.runs_guarded hstart hfold
  exact ⟨s, hrun, Prod.mk.inj hresult, (cache_replies_framed hrun).1⟩

/-- Only the first five bytes of it are read. -/
def firstBytes : List ReplyEvent := [.read 0 5]

/-- The number of bytes that were read and of those that were not, and whether an assertion of `ProcessCacheResponse` fails. -/
def processFails (s : ReplyState) : Option (Int × Nat × Bool) :=
  match s.cache.connections[0]? with
  | some (some ci) =>
      match processCacheResponse s.cache 0 ci [] with
      | .error .assertion => some (ci.lenRead, (s.wires 0).inFlight.length, true)
      | _ => some (ci.lenRead, (s.wires 0).inFlight.length, false)
  | _ => none

/-- The newline of the reply to the put request stands behind the five bytes, and the proxy stops. -/
theorem cache_reply_stale_newline :
    ∃ s ci, (replySystem 1).Runs (putThenGet ++ firstBytes) s ∧ s.cache.connections[0]? = some (some ci) ∧ 0 < ci.lenRead ∧
      processCacheResponse s.cache 0 ci [] = .error .assertion ∧ ¬ ∃ cci a, Framed s 0 ci [] cci a := by
  obtain ⟨s, hfold, hresult⟩ := @Run.exists_of_map _ _ ((putThenGet ++ firstBytes).foldlM replyNext (replyInit 1)) processFails
    (some (5, 36, true)) (by decide)
  have hstart : (replySystem 1).Runs [] (replyInit 1) := .start rfl
  have hrun := System.runs_foldlM hstart hfold
  rw [processFails] at hresult
  split at hresult
  · rename_i ci hslot
    split at hresult
    · rename_i herror
      simp only [Option.some.injEq, Prod.mk.injEq] at hresult
      obtain ⟨hlen, hflight, _⟩ := hresult
      refine ⟨s, ci, hrun, hslot, by omega, herror, ?_⟩
      rintro ⟨cci, a, hframed⟩
      have hreturned := hframed.returned
      rw [herror, if_neg (List.ne_nil_of_length_pos (by omega))] at hreturned
      cases hreturned
    · simp at hresult
  · cases hresult

end BeagleCache
